/-
  How far rules look ahead.

  What becomes of a stream is settled by the tokens that a rule takes and by the
  one next to them. So two rules that differ only in how deep expressions may
  nest do the same with streams that have those tokens in common (`Agrees`),
  unless one of them gives up because of the nesting.

  * `Passes`: the tokens between two streams;
  * `Agrees.andThen`, `Agrees.peekThen`, `Agrees.loop`: one lemma for each way to
    build a rule;
  * `agrees_expressionIn`, `agrees_blockOf`: expressions and blocks.
-/
import Stacklet.Proofs.Parsing

namespace Stacklet

open Rule Grammar

/-! ## What is taken -/

/-- Behind the tokens `taken`, none of which is an end of input, the first stream
    is the second. -/
structure Passes (s : TokenStream) (taken : List PlacedToken) (s' : TokenStream) : Prop where
  ahead : s.ahead = taken ++ s'.ahead
  inside : ∀ t ∈ taken, t.token ≠ .endOfInput
  last : s'.lastTaken = (taken.getLast?.map PlacedToken.position).or s.lastTaken

theorem TokenStream.next_of_head? {s t : TokenStream} (h : s.ahead.head? = t.ahead.head?) :
    s.next = t.next := by
  obtain ⟨_ | ⟨p, ps⟩, last⟩ := s
  · obtain ⟨_ | ⟨q, qs⟩, last'⟩ := t
    · rfl
    · cases h
  · obtain ⟨_ | ⟨q, qs⟩, last'⟩ := t
    · cases h
    · exact congrArg PlacedToken.token (Option.some.inj h)

namespace Passes
variable {s s₁ s₂ : TokenStream} {taken more : List PlacedToken}

theorem refl (s : TokenStream) : Passes s [] s := ⟨rfl, nofun, rfl⟩

theorem trans (h : Passes s taken s₁) (h' : Passes s₁ more s₂) : Passes s (taken ++ more) s₂ where
  ahead := by rw [h.ahead, h'.ahead, List.append_assoc]
  inside t ht := (List.mem_append.1 ht).elim (h.inside t) (h'.inside t)
  last := by rw [h'.last, h.last, List.getLast?_append, Option.map_or, Option.or_assoc]

/-- A stream in which the same tokens are passed. -/
theorem head?_eq (h : Passes s taken s₁) {ahead : List PlacedToken}
    (hahead : ahead.head? = s₁.ahead.head?) : (taken ++ ahead).head? = s.ahead.head? := by
  rw [h.ahead, List.head?_append, List.head?_append, hahead]

theorem endOfInput_notMem (h : Passes s taken s₁) :
    Token.endOfInput ∉ taken.map PlacedToken.token := by
  intro ht
  obtain ⟨p, hp, hend⟩ := List.mem_map.1 ht
  exact h.inside p hp hend

theorem tokens_eq (h : Passes s taken s₁) :
    s.tokens = taken.map PlacedToken.token ++ s₁.tokens := by
  rw [TokenStream.tokens, h.ahead, List.map_append, List.takeWhile_append_of_pos]
  · rfl
  · intro t ht
    have hne : t ≠ .endOfInput := fun hend => h.endOfInput_notMem (hend ▸ ht)
    simpa using hne

end Passes

/-! ## Agreement -/

/-- Expressions nest too deep. -/
def ParseError.TooDeep (e : ParseError) : Prop := ∃ limit, e.fault = .nestedTooDeep limit

/-- The outcome `o` of a stream is settled by the tokens `taken` from it and by
    the next one: if the rule has a value for any stream that has these in common,
    then it is that of the outcome, unless the nesting was too deep there. Errors
    are reported in front of the next token. -/
structure Settles {α : Type} (r : Rule α) (s : TokenStream) (taken : List PlacedToken)
    (o : Outcome α) : Prop where
  passes : Passes s taken o.2
  place : ∀ e, o.1 = .error e → e.position = o.2.place
  again : ∀ ahead b t, ahead.head? = o.2.ahead.head? →
    r.read ⟨taken ++ ahead, s.lastTaken⟩ = (.ok b, t) →
    (o.1 = .ok b ∧ t = ⟨ahead, o.2.lastTaken⟩) ∨ ∃ e, o.1 = .error e ∧ e.TooDeep

/-- In front of a token that `start` allows, the outcomes of the first rule are
    settled for the second. -/
def Agrees {α : Type} (start : Token → Prop) (r r' : Rule α) : Prop :=
  ∀ s, start s.next → ∃ taken, Settles r' s taken (r.read s)

namespace Settles
variable {α β : Type} {r r' : Rule α} {s : TokenStream} {taken : List PlacedToken} {o : Outcome α}

/-- A rule that does the same in front of the next token. -/
theorem congr (h : Settles r s taken o) (hr : ∀ t, t.next = s.next → r'.read t = r.read t) :
    Settles r' s taken o := by
  refine ⟨h.passes, h.place, fun ahead b t hahead hread => h.again ahead b t hahead ?_⟩
  rwa [← hr _ (TokenStream.next_of_head? (h.passes.head?_eq hahead))]

/-- One rule behind the other. -/
theorem andThen {f f' : α → Rule β} (h : Settles r' s taken (r.read s))
    (hf : ∀ a s₁, r.read s = (.ok a, s₁) → ∃ more, Settles (f' a) s₁ more ((f a).read s₁)) :
    ∃ all, Settles (r'.andThen f') s all ((r.andThen f).read s) := by
  obtain ⟨hpasses, hplace, hagain⟩ := h
  rcases hr : r.read s with ⟨e | a, s₁⟩
  · rw [hr] at hpasses hplace hagain
    have hread : (r.andThen f).read s = (.error e, s₁) := by simp only [Rule.andThen, hr]
    rw [hread]
    refine ⟨taken, hpasses, fun e' he => ?_, fun ahead b t hahead hok => ?_⟩
    · cases he
      exact hplace e rfl
    · rw [Rule.andThen] at hok
      rcases hr' : r'.read ⟨taken ++ ahead, s.lastTaken⟩ with ⟨e' | a, t₁⟩
      · simp [hr'] at hok
      · rcases hagain ahead a t₁ hahead hr' with ⟨he, -⟩ | ⟨e', he, hdeep⟩
        · cases he
        · cases he
          exact Or.inr ⟨e, rfl, hdeep⟩
  · rw [hr] at hpasses hagain
    have hread : (r.andThen f).read s = (f a).read s₁ := by simp only [Rule.andThen, hr]
    obtain ⟨more, hpasses', hplace', hagain'⟩ := hf a s₁ hr
    rw [hread]
    refine ⟨taken ++ more, hpasses.trans hpasses', hplace', fun ahead b t hahead hok => ?_⟩
    rw [Rule.andThen, List.append_assoc] at hok
    rcases hr' : r'.read ⟨taken ++ (more ++ ahead), s.lastTaken⟩ with ⟨e' | a', t₁⟩
    · simp [hr'] at hok
    · rcases hagain _ a' t₁ (hpasses'.head?_eq hahead) hr' with ⟨ha, rfl⟩ | ⟨e', he, -⟩
      · cases ha
        simp only [hr'] at hok
        exact hagain' ahead b t hahead hok
      · cases he

end Settles

namespace Agrees
variable {α β : Type} {start : Token → Prop} {r r' : Rule α}

theorem weaken (h : Agrees Anywhere r r') : Agrees start r r' := fun s _ => h s trivial

theorem succeed (a : α) : Agrees start (Rule.succeed a) (Rule.succeed a) := by
  refine fun s _ => ⟨[], .refl s, nofun, fun ahead b t _ hread => ?_⟩
  cases hread
  exact Or.inl ⟨rfl, rfl⟩

theorem fail (fault fault' : ParseFault) :
    Agrees start (Rule.fail fault : Rule α) (Rule.fail fault') := by
  refine fun s _ => ⟨[], .refl s, fun e he => ?_, fun ahead b t _ hread => ?_⟩
  · cases he
    rfl
  · cases hread

/-- Every rule agrees where the nesting is too deep. -/
theorem tooDeep (limit : Nat) (r' : Rule α) :
    Agrees start (Rule.fail (.nestedTooDeep limit)) r' := by
  refine fun s _ => ⟨[], .refl s, fun e he => ?_, fun ahead b t _ _ => Or.inr ⟨_, rfl, limit, rfl⟩⟩
  cases he
  rfl

/-- A rule that fails agrees with every other that agrees with any. -/
theorem of_fail (h : Agrees start r r') (fault : ParseFault) :
    Agrees start r (Rule.fail fault) := by
  intro s hs
  obtain ⟨taken, hpasses, hplace, -⟩ := h s hs
  refine ⟨taken, hpasses, hplace, fun ahead b t _ hread => ?_⟩
  cases hread

theorem advance {t : Token} (ht : t ≠ .endOfInput) :
    Agrees (· = t) Rule.advance Rule.advance := by
  rintro ⟨_ | ⟨p, ps⟩, last⟩ rfl
  · exact absurd rfl ht
  · refine ⟨[p], ⟨rfl, ?_, rfl⟩, nofun, fun ahead b t _ hread => ?_⟩
    · intro q hq
      rw [List.mem_singleton.1 hq]
      exact ht
    · cases hread
      exact Or.inl ⟨rfl, rfl⟩

theorem andThen {f f' : α → Rule β} (h : Agrees start r r')
    (hf : ∀ a, Agrees Anywhere (f a) (f' a)) : Agrees start (r.andThen f) (r'.andThen f') := by
  intro s hs
  obtain ⟨taken, hsettles⟩ := h s hs
  exact hsettles.andThen fun a s₁ _ => hf a s₁ trivial

/-- Rules whose value is changed. -/
theorem map (h : Agrees start r r') (f : α → β) :
    Agrees start (r.andThen fun a => Rule.succeed (f a))
      (r'.andThen fun a => Rule.succeed (f a)) :=
  h.andThen fun a => .succeed (f a)

theorem peekThen {f f' : Token → Rule α} (hf : ∀ t, Agrees (· = t) (f t) (f' t)) :
    Agrees start (Rule.peek.andThen f) (Rule.peek.andThen f') := by
  intro s _
  obtain ⟨taken, hsettles⟩ := hf s.next s rfl
  refine ⟨taken, hsettles.congr fun t ht => ?_⟩
  rw [← ht]
  rfl

/-- Rules that depend on whether some token comes next. -/
theorem ifNext {t : Token} {r₁ r₁' : Rule α} (h : Agrees Anywhere r r')
    (h₁ : Agrees Anywhere r₁ r₁') :
    Agrees start (Rule.peek.andThen fun u => if u = t then r else r₁)
      (Rule.peek.andThen fun u => if u = t then r' else r₁') := by
  refine peekThen fun u => ?_
  by_cases hu : u = t
  · rw [if_pos hu, if_pos hu]
    exact h.weaken
  · rw [if_neg hu, if_neg hu]
    exact h₁.weaken

section
variable {γ : Type} {accepts : Token → Option γ}

/-- A token that a loop accepts is not the end of input. -/
theorem ne_endOfInput (heof : accepts .endOfInput = none) {t : Token} {c : γ}
    (hc : accepts t = some c) : t ≠ .endOfInput := by
  rintro rfl
  rw [heof] at hc
  cases hc

/-- Behind a round of a loop fewer tokens are left than in front of it: a round
    takes the token that is accepted. -/
theorem round_length_lt (heof : accepts .endOfInput = none) {s s' : TokenStream} {c : γ}
    (hc : accepts s.next = some c) {round : Rule β} {result : Except ParseError β}
    (h : round.read s.rest = (result, s')) : s'.ahead.length < s.ahead.length := by
  have hle := round.shrinks s.rest
  rw [h] at hle
  refine lt_of_le_of_lt hle ?_
  obtain ⟨_ | ⟨p, ps⟩, last⟩ := s
  · exact absurd rfl (ne_endOfInput heof hc)
  · exact Nat.lt_succ_self _

/-- A loop that does not accept the next token reads nothing. -/
theorem read_loop_of_none {s : TokenStream} (hc : accepts s.next = none) (body : γ → α → Rule α)
    (a : α) : (Rule.loop accepts body a).read s = (Rule.succeed a).read s :=
  Reads.loopFrom_of_none hc a

/-- One that does takes it, runs a round and goes on. -/
theorem read_loop_of_some (heof : accepts .endOfInput = none) {s : TokenStream} {c : γ}
    (hc : accepts s.next = some c) (body : γ → α → Rule α) (a : α) :
    (Rule.loop accepts body a).read s =
      (Rule.advance.andThen fun _ => (body c a).andThen (Rule.loop accepts body)).read s := by
  refine (Reads.loopFrom_of_some heof hc a).trans ?_
  simp only [Rule.andThen, Rule.advance]
  rcases (body c a).read s.rest with ⟨e | a', s'⟩ <;> rfl

/-- **Loops agree if their rounds do.** -/
theorem loop (heof : accepts .endOfInput = none) {body body' : γ → α → Rule α}
    (hbody : ∀ c a, Agrees Anywhere (body c a) (body' c a)) (a : α) :
    Agrees start (Rule.loop accepts body a) (Rule.loop accepts body' a) := by
  intro s hs
  clear hs
  induction hn : s.ahead.length using Nat.strong_induction_on generalizing a s with
  | _ n ih =>
    subst hn
    cases hc : accepts s.next with
    | none =>
      have hread (body : γ → α → Rule α) {t : TokenStream} (ht : t.next = s.next) :=
        read_loop_of_none (ht ▸ hc) body a
      have hdone : Agrees Anywhere (Rule.succeed a) (Rule.succeed a) := .succeed a
      obtain ⟨taken, hsettles⟩ := hdone s trivial
      rw [hread body rfl]
      exact ⟨taken, hsettles.congr fun t ht => hread body' ht⟩
    | some c =>
      -- a round takes the token that is accepted, and the loop goes on behind it
      have hread (body : γ → α → Rule α) {t : TokenStream} (ht : t.next = s.next) :=
        read_loop_of_some heof (ht ▸ hc) body a
      rw [hread body rfl]
      obtain ⟨taken, hadvance⟩ := Agrees.advance (ne_endOfInput heof hc) s rfl
      obtain ⟨all, hall⟩ := hadvance.andThen fun _ s₁ hs₁ => by
        cases hs₁
        obtain ⟨more, hmore⟩ := hbody c a s.rest trivial
        exact hmore.andThen fun a' s₂ hs₂ => ih _ (round_length_lt heof hc hs₂) a' s₂ rfl
      exact ⟨all, hall.congr fun t ht => hread body' ht⟩

end

end Agrees

/-! ## The rules of the grammar -/

theorem agrees_closing (context : Closing) :
    Agrees Anywhere (closing context) (closing context) := by
  unfold closing
  refine Agrees.peekThen fun t => ?_
  cases t
  case closeParen => exact .advance nofun
  all_goals exact .fail _ _

theorem agrees_skipSeparators : Agrees Anywhere skipSeparators skipSeparators :=
  .loop rfl (fun _ _ => .succeed ()) ()

section
variable {α : Type} {item item' : Rule α} (h : Agrees Anywhere item item')
include h

theorem agrees_separated (separator : Token) (heof : separator ≠ .endOfInput) :
    Agrees Anywhere (separated separator item) (separated separator item') :=
  h.andThen fun first =>
    (Agrees.loop (only_eq_none_iff.2 heof.symm) (fun _ found => h.map found.push) #[first]).map
      Array.toList

end

section
variable {e e' : Rule Tree} (h : Agrees Anywhere e e')
include h

theorem agrees_chain {accepts : Token → Option BinOp} (heof : accepts .endOfInput = none) :
    Agrees Anywhere (chain accepts e) (chain accepts e') :=
  h.andThen fun first => .loop heof (fun op left => h.map (.binary left op)) first

theorem agrees_arguments : Agrees Anywhere (arguments e) (arguments e') := by
  have hround (found : Array Tree) : Agrees Anywhere (argumentRound e found)
      (argumentRound e' found) := .ifNext (.succeed found) (h.map found.push)
  exact .ifNext (.succeed []) (h.andThen fun first =>
    (Agrees.loop rfl (fun _ => hround) #[first]).map Array.toList)

theorem agrees_atom : Agrees Anywhere (atom e) (atom e') := by
  unfold atom
  refine Agrees.peekThen fun t => ?_
  cases t
  case integer n => exact (Agrees.advance (t := .integer n) nofun).map fun _ => _
  case float x => exact (Agrees.advance (t := .float x) nofun).map fun _ => _
  case ident id => exact (Agrees.advance (t := .ident id) nofun).map fun _ => _
  case openParen =>
    exact (Agrees.advance (t := .openParen) nofun).andThen fun _ => h.andThen fun inner =>
      (agrees_closing .group).map fun _ => inner
  all_goals exact .fail _ _

theorem agrees_application : Agrees Anywhere (application e) (application e') :=
  (agrees_atom h).andThen fun callee => .loop rfl (fun _ callee =>
    (agrees_arguments h).andThen fun args => (agrees_closing .arguments).map fun _ =>
      Tree.call callee args) callee

theorem agrees_sum : Agrees Anywhere (sum e) (sum e') :=
  agrees_chain (agrees_chain (agrees_application h) rfl) rfl

theorem agrees_statementOf : Agrees Anywhere (statementOf e) (statementOf e') := by
  refine (agrees_separated (agrees_separated h .comma nofun) .assign nofun).andThen fun lists => ?_
  unfold statementValue
  split
  · exact .succeed _
  · exact .succeed _
  · exact .fail _ _

theorem agrees_blockOf : Agrees Anywhere (blockOf e) (blockOf e') := by
  have hend (all : Array Tree) : Agrees Anywhere (blockEnd all) (blockEnd all) := by
    refine Agrees.peekThen fun t => ?_
    cases t
    case endOfInput => exact .succeed _
    all_goals exact .fail _ _
  have hround (found : Array Tree) : Agrees Anywhere (statementRound e found)
      (statementRound e' found) := agrees_skipSeparators.andThen fun _ =>
    .ifNext (.succeed found) ((agrees_statementOf h).map found.push)
  have hstatements : Agrees Anywhere (statementsOf e) (statementsOf e') :=
    (agrees_statementOf h).andThen fun first =>
      (Agrees.loop rfl (fun _ => hround) #[first]).andThen hend
  exact agrees_skipSeparators.andThen fun _ => .ifNext (.succeed _) hstatements

end

/-- **Expressions are read alike**, however deep they may nest, as long as they
    do not nest too deep. -/
theorem agrees_expressionIn (room room' : Nat) :
    Agrees Anywhere (expressionIn room) (expressionIn room') := by
  induction room generalizing room' with
  | zero => exact .tooDeep _ _
  | succ room ih =>
    cases room' with
    | zero => exact (agrees_sum (ih room)).of_fail _
    | succ room' => exact agrees_sum (ih room')

end Stacklet
