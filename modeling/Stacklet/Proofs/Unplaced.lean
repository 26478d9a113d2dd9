/-
  Rules see tokens, and not where they stand.

  Of two streams with the same tokens a rule makes the same value or finds the
  same fault in both, and it leaves the same tokens, wherever these stand
  (`SeesTokens`). Only the position of a fault may differ.

  * `SeesTokens.andThen`, `SeesTokens.ifNext`, `SeesTokens.loop`: one lemma for
    each way to build a rule;
  * `seesTokens_block`: the rule that reads blocks;
  * `ofTokens_unplaced`: trees of token sequences.
-/
import Stacklet.Proofs.Lookahead

namespace Stacklet

open Rule Grammar

/-! ## Outcomes without positions -/

/-- The same tokens are ahead, wherever they stand. -/
def TokenStream.Alike (s t : TokenStream) : Prop :=
  s.ahead.map PlacedToken.token = t.ahead.map PlacedToken.token

theorem TokenStream.Alike.next_eq {s t : TokenStream} (h : s.Alike t) : s.next = t.next := by
  obtain ⟨_ | ⟨p, ps⟩, last⟩ := s
  · obtain ⟨_ | ⟨q, qs⟩, last'⟩ := t
    · rfl
    · cases h
  · obtain ⟨_ | ⟨q, qs⟩, last'⟩ := t
    · cases h
    · exact (List.cons.inj h).1

theorem TokenStream.Alike.rest {s t : TokenStream} (h : s.Alike t) : s.rest.Alike t.rest := by
  obtain ⟨_ | ⟨p, ps⟩, last⟩ := s
  · obtain ⟨_ | ⟨q, qs⟩, last'⟩ := t
    · rfl
    · cases h
  · obtain ⟨_ | ⟨q, qs⟩, last'⟩ := t
    · cases h
    · exact (List.cons.inj h).2

/-- The same value or the same fault, and the same tokens left. -/
structure Outcome.Alike {α : Type} (o o' : Outcome α) : Prop where
  result : o.1.mapError ParseError.fault = o'.1.mapError ParseError.fault
  ahead : o.2.Alike o'.2

/-- One rule behind the other, on two streams. -/
theorem Outcome.Alike.andThen {α β : Type} {r : Rule α} {f : α → Rule β} {s t : TokenStream}
    (h : Outcome.Alike (r.read s) (r.read t))
    (hf : ∀ a s₁ t₁, r.read s = (.ok a, s₁) → s₁.Alike t₁ →
      Outcome.Alike ((f a).read s₁) ((f a).read t₁)) :
    Outcome.Alike ((r.andThen f).read s) ((r.andThen f).read t) := by
  obtain ⟨hresult, hahead⟩ := h
  simp only [Rule.andThen]
  rcases hs : r.read s with ⟨e | a, s₁⟩
  · rcases ht : r.read t with ⟨e' | b, t₁⟩
    · rw [hs, ht] at hresult hahead
      exact ⟨congrArg Except.error (Except.error.inj hresult), hahead⟩
    · rw [hs, ht] at hresult
      cases hresult
  · rcases ht : r.read t with ⟨e' | b, t₁⟩
    · rw [hs, ht] at hresult
      cases hresult
    · rw [hs, ht] at hresult hahead
      obtain rfl : a = b := Except.ok.inj hresult
      exact hf a s₁ t₁ hs hahead

/-! ## Rules -/

/-- What a rule makes of a stream does not depend on where the tokens stand. -/
def Rule.SeesTokens {α : Type} (r : Rule α) : Prop :=
  ∀ s t : TokenStream, s.Alike t → Outcome.Alike (r.read s) (r.read t)

namespace Rule.SeesTokens
variable {α β γ : Type} {r r₁ : Rule α}

theorem succeed (a : α) : (Rule.succeed a).SeesTokens := fun _ _ h => ⟨rfl, h⟩

theorem fail (fault : ParseFault) : (Rule.fail fault : Rule α).SeesTokens :=
  fun _ _ h => ⟨rfl, h⟩

theorem advance : Rule.advance.SeesTokens := fun _ _ h => ⟨rfl, h.rest⟩

theorem andThen {f : α → Rule β} (h : r.SeesTokens) (hf : ∀ a, (f a).SeesTokens) :
    (r.andThen f).SeesTokens :=
  fun s t hst => (h s t hst).andThen fun a s₁ t₁ _ => hf a s₁ t₁

/-- A rule whose value is changed. -/
theorem map (h : r.SeesTokens) (f : α → β) :
    (r.andThen fun a => Rule.succeed (f a)).SeesTokens :=
  h.andThen fun a => .succeed (f a)

theorem peekThen {f : Token → Rule α} (hf : ∀ t, (f t).SeesTokens) :
    (Rule.peek.andThen f).SeesTokens := by
  intro s t hst
  have hread := hf s.next s t hst
  rw [Rule.andThen, Rule.peek]
  simpa only [hst.next_eq] using hread

/-- A rule that depends on whether some token comes next. -/
theorem ifNext {t : Token} (h : r.SeesTokens) (h₁ : r₁.SeesTokens) :
    (Rule.peek.andThen fun u => if u = t then r else r₁).SeesTokens := by
  refine peekThen fun u => ?_
  by_cases hu : u = t
  · rw [if_pos hu]
    exact h
  · rw [if_neg hu]
    exact h₁

/-- **Loops see tokens if their rounds do.** -/
theorem loop {accepts : Token → Option γ} (heof : accepts .endOfInput = none)
    {body : γ → α → Rule α} (hbody : ∀ c a, (body c a).SeesTokens) (a : α) :
    (Rule.loop accepts body a).SeesTokens := by
  intro s t hst
  induction hn : s.ahead.length using Nat.strong_induction_on generalizing a s t with
  | _ n ih =>
    subst hn
    cases hc : accepts s.next with
    | none =>
      have hct : accepts t.next = none := hst.next_eq ▸ hc
      rw [Agrees.read_loop_of_none hc body a, Agrees.read_loop_of_none hct body a]
      exact ⟨rfl, hst⟩
    | some c =>
      have hct : accepts t.next = some c := hst.next_eq ▸ hc
      rw [Agrees.read_loop_of_some heof hc body a, Agrees.read_loop_of_some heof hct body a]
      -- both loops have taken a token, and go on behind a round
      exact (hbody c a s.rest t.rest hst.rest).andThen fun a' s₁ t₁ hs₁ hahead =>
        ih _ (Agrees.round_length_lt heof hc hs₁) a' s₁ t₁ hahead rfl

end Rule.SeesTokens

/-! ## The rules of the grammar -/

theorem seesTokens_closing (context : Closing) : (closing context).SeesTokens := by
  unfold closing
  refine Rule.SeesTokens.peekThen fun t => ?_
  cases t
  case closeParen => exact .advance
  all_goals exact .fail _

theorem seesTokens_skipSeparators : skipSeparators.SeesTokens :=
  .loop rfl (fun _ _ => .succeed ()) ()

theorem seesTokens_separated {α : Type} {item : Rule α} (h : item.SeesTokens) (separator : Token)
    (heof : separator ≠ .endOfInput) : (separated separator item).SeesTokens :=
  h.andThen fun first => (Rule.SeesTokens.loop (only_eq_none_iff.2 heof.symm)
    (fun _ found => h.map found.push) #[first]).map Array.toList

section
variable {e : Rule Tree} (h : e.SeesTokens)
include h

theorem seesTokens_chain {accepts : Token → Option BinOp} (heof : accepts .endOfInput = none) :
    (chain accepts e).SeesTokens :=
  h.andThen fun first => .loop heof (fun op left => h.map (.binary left op)) first

theorem seesTokens_arguments : (arguments e).SeesTokens := by
  have hround (found : Array Tree) : (argumentRound e found).SeesTokens :=
    .ifNext (.succeed found) (h.map found.push)
  exact .ifNext (.succeed []) (h.andThen fun first =>
    (Rule.SeesTokens.loop rfl (fun _ => hround) #[first]).map Array.toList)

theorem seesTokens_atom : (atom e).SeesTokens := by
  unfold atom
  refine Rule.SeesTokens.peekThen fun t => ?_
  cases t
  case integer n => exact Rule.SeesTokens.advance.map fun _ => _
  case float x => exact Rule.SeesTokens.advance.map fun _ => _
  case ident id => exact Rule.SeesTokens.advance.map fun _ => _
  case openParen =>
    exact Rule.SeesTokens.advance.andThen fun _ => h.andThen fun inner =>
      (seesTokens_closing .group).map fun _ => inner
  all_goals exact .fail _

theorem seesTokens_application : (application e).SeesTokens :=
  (seesTokens_atom h).andThen fun callee => .loop rfl (fun _ callee =>
    (seesTokens_arguments h).andThen fun args => (seesTokens_closing .arguments).map fun _ =>
      Tree.call callee args) callee

theorem seesTokens_sum : (sum e).SeesTokens :=
  seesTokens_chain (seesTokens_chain (seesTokens_application h) rfl) rfl

theorem seesTokens_statementOf : (statementOf e).SeesTokens := by
  refine (seesTokens_separated (seesTokens_separated h .comma nofun) .assign nofun).andThen
    fun lists => ?_
  unfold statementValue
  split
  · exact .succeed _
  · exact .succeed _
  · exact .fail _

theorem seesTokens_blockOf : (blockOf e).SeesTokens := by
  have hend (all : Array Tree) : (blockEnd all).SeesTokens := by
    refine Rule.SeesTokens.peekThen fun t => ?_
    cases t
    case endOfInput => exact .succeed _
    all_goals exact .fail _
  have hround (found : Array Tree) : (statementRound e found).SeesTokens :=
    seesTokens_skipSeparators.andThen fun _ =>
      .ifNext (.succeed found) ((seesTokens_statementOf h).map found.push)
  have hstatements : (statementsOf e).SeesTokens :=
    (seesTokens_statementOf h).andThen fun first =>
      (Rule.SeesTokens.loop rfl (fun _ => hround) #[first]).andThen hend
  exact seesTokens_skipSeparators.andThen fun _ => .ifNext (.succeed _) hstatements

end

theorem seesTokens_expressionIn (room : Nat) : (expressionIn room).SeesTokens := by
  induction room with
  | zero => exact .fail _
  | succ room ih => exact seesTokens_sum ih

/-- The rule that reads blocks sees tokens. -/
theorem seesTokens_block : block.SeesTokens :=
  block_eq_blockOf ▸ seesTokens_blockOf (seesTokens_expressionIn maxNesting)

/-- **Token sequences are read alike, wherever the tokens stand**: they have the
    same tree or the same fault. -/
theorem ofTokens_unplaced {tokens tokens' : List PlacedToken}
    (h : tokens.map PlacedToken.token = tokens'.map PlacedToken.token) :
    (Tree.ofTokens tokens).mapError ParseError.fault =
      (Tree.ofTokens tokens').mapError ParseError.fault :=
  (seesTokens_block (.ofTokens tokens) (.ofTokens tokens') h).result

end Stacklet
