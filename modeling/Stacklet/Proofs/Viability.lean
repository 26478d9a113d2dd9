/-
  Parse errors are reported at the first wrong token.

  When a rule fails, then what it has taken is the beginning of a phrase
  (`Viable`), unless expressions nest too deep. For each rule this is the phrase
  that it reads, and the tokens that complete it are a closing parenthesis, an
  operand or, for a list that is no value, an equals sign and a value.

  * `Stops.andThen`, `Stops.loop`: one lemma for each way to build a rule;
  * `stops_expressionIn`, `stops_blockOf`: expressions and blocks;
  * `ofStream_error`: where the error of a token sequence is reported, and why
    there.
-/
import Stacklet.Proofs.Lookahead

namespace Stacklet

open Rule Grammar Phrase

/-! ## Beginnings of phrases -/

/-- Tokens with which a phrase begins, whose other tokens are no end of input. -/
def Viable {α : Type} (p : Phrase α) (ts : List Token) : Prop :=
  ∃ more a, Token.endOfInput ∉ more ∧ p (ts ++ more) a

theorem Viable.of_split {α : Type} {p : Phrase α} {ts more us : List Token} {a : α}
    (hmore : Token.endOfInput ∉ more) (hsplit : ts ++ more = us) (h : p us a) : Viable p ts :=
  ⟨more, a, hmore, hsplit ▸ h⟩

theorem Viable.of_phrase {α : Type} {p : Phrase α} {ts : List Token} {a : α} (h : p ts a) :
    Viable p ts :=
  .of_split List.not_mem_nil (List.append_nil ts) h

/-- What is completed with further tokens is a beginning, too. -/
theorem Viable.of_append {α : Type} {p : Phrase α} {ts more : List Token}
    (hmore : Token.endOfInput ∉ more) (h : Viable p (ts ++ more)) : Viable p ts := by
  obtain ⟨rest, a, hrest, hp⟩ := h
  refine ⟨more ++ rest, a, ?_, ?_⟩
  · rw [List.mem_append, not_or]
    exact ⟨hmore, hrest⟩
  · rwa [← List.append_assoc]

/-! ## Rules that fail -/

/-- In front of a token that `start` allows, a rule that fails has taken tokens
    as `V` says, unless it gives up because of the nesting. -/
structure Stops {α : Type} (start : Token → Prop) (r : Rule α) (V : List Token → Prop) : Prop where
  taken : ∀ {s e s'}, start s.next → r.read s = (.error e, s') → ¬ e.TooDeep →
    ∃ ts, s.tokens = ts ++ s'.tokens ∧ V ts

namespace Stops
variable {α β : Type} {start : Token → Prop} {V W : List Token → Prop}

theorem mono {r : Rule α} (h : Stops start r V) (hVW : ∀ ts, V ts → W ts) : Stops start r W where
  taken hs hr he := by
    obtain ⟨ts, hts, hV⟩ := h.taken hs hr he
    exact ⟨ts, hts, hVW ts hV⟩

theorem weaken {r : Rule α} (h : Stops Anywhere r V) : Stops start r V where
  taken _ hr he := h.taken trivial hr he

theorem succeed (a : α) : Stops start (Rule.succeed a) V where
  taken _ hr _ := by cases hr

theorem fail (fault : ParseFault) (h : V []) : Stops start (Rule.fail fault : Rule α) V where
  taken _ hr _ := by
    cases hr
    exact ⟨[], rfl, h⟩

theorem tooDeep (limit : Nat) :
    Stops start (Rule.fail (.nestedTooDeep limit) : Rule α) V where
  taken _ hr he := by
    cases hr
    exact absurd ⟨limit, rfl⟩ he

theorem advance : Stops start Rule.advance V where
  taken _ hr _ := by cases hr

/-- One rule behind the other: the first fails, or the second behind what the
    first has read. -/
theorem andThen {r : Rule α} {f : α → Rule β} {L : Language α} {U : α → List Token → Prop}
    (mid : α → Token → Prop) (h : Stops start r V) (hr : Reads start r L)
    (hf : ∀ a, Stops (mid a) (f a) (U a)) (hmid : ∀ {ts next a}, L ts next a → mid a next) :
    Stops start (r.andThen f) fun ts =>
      V ts ∨ ∃ us vs next a, ts = us ++ vs ∧ L us next a ∧ U a vs where
  taken {s e s'} hs hread he := by
    rw [Rule.andThen] at hread
    rcases hra : r.read s with ⟨e₁ | a, s₁⟩
    · simp only [hra] at hread
      cases hread
      obtain ⟨ts, hts, hV⟩ := h.taken hs hra he
      exact ⟨ts, hts, Or.inl hV⟩
    · simp only [hra] at hread
      obtain ⟨us, hus, hL⟩ := hr.sound hs hra
      obtain ⟨vs, hvs, hU⟩ := (hf a).taken (hmid hL) hread he
      refine ⟨us ++ vs, ?_, Or.inr ⟨us, vs, _, a, rfl, hL, hU⟩⟩
      rw [hus, hvs, List.append_assoc]

/-- A rule whose value is changed. -/
theorem map {r : Rule α} (h : Stops start r V) (f : α → β) :
    Stops start (r.andThen fun a => Rule.succeed (f a)) V where
  taken {s e s'} hs hread he := by
    rw [Rule.andThen] at hread
    rcases hra : r.read s with ⟨e₁ | a, s₁⟩
    · simp only [hra] at hread
      cases hread
      exact h.taken hs hra he
    · simp only [hra] at hread
      cases hread

theorem peekThen {f : Token → Rule α} (hf : ∀ t, Stops (· = t) (f t) V) :
    Stops start (Rule.peek.andThen f) V where
  taken _ hread he := (hf _).taken rfl hread he

/-- A rule that depends on whether some token comes next. -/
theorem ifNext {t : Token} {r r' : Rule α} (h : Stops Anywhere r V) (h' : Stops Anywhere r' V) :
    Stops start (Rule.peek.andThen fun u => if u = t then r else r') V := by
  refine peekThen fun u => ?_
  by_cases hu : u = t
  · rw [if_pos hu]
    exact h.weaken
  · rw [if_neg hu]
    exact h'.weaken

section
variable {γ : Type} (accepts : Token → Option γ) {body : γ → α → Rule α} {item : Phrase β}
  {trail : List Token → Prop} (step : α → γ × β → α) {stop : Token → Prop} {close : Token}

/-- A loop fails in one of its rounds, behind items that it has read. -/
theorem loop (heof : accepts .endOfInput = none) (hclose : accepts close = none)
    (hbody : ∀ c a, Reads Anywhere (body c a) fun ts next a' =>
      (∃ b, item ts b ∧ stop next ∧ a' = step a (c, b)) ∨ (trail ts ∧ next = close ∧ a' = a))
    (hround : ∀ c a, Stops Anywhere (body c a) V) (a : α) :
    Stops start (Rule.loop accepts body a) fun ts => ∃ us t c ws xs, ts = us ++ t :: ws ∧
      Many (Behind accepts item) us xs ∧ accepts t = some c ∧ V ws := by
  refine ⟨fun {s e s'} hs hread he => ?_⟩
  clear hs
  induction hn : s.tokens.length using Nat.strong_induction_on generalizing a s with
  | _ n ih =>
    subst hn
    cases hc : accepts s.next with
    | none =>
      have hdone := hread.symm.trans (Reads.loopFrom_of_none hc a)
      cases hdone
    | some c =>
      have hne : s.next ≠ .endOfInput := fun hend => by simp [hend, heof] at hc
      have hloop := hread.symm.trans (Reads.loopFrom_of_some heof hc a)
      have htokens := TokenStream.tokens_rest hne
      rcases hb : (body c a).read s.rest with ⟨e₁ | a₁, s₁⟩
      · simp only [hb] at hloop
        cases hloop
        obtain ⟨ws, hws, hV⟩ := (hround c a).taken trivial hb he
        exact ⟨s.next :: ws, by rw [htokens, hws, List.cons_append],
          [], s.next, c, ws, [], rfl, .nil, hc, hV⟩
      · simp only [hb] at hloop
        obtain ⟨ts, hts, ⟨b, hitem, -, -⟩ | ⟨-, hs₁, -⟩⟩ := (hbody c a).sound trivial hb
        · have hlt : s₁.tokens.length < s.tokens.length := by
            rw [htokens, hts, List.length_cons, List.length_append]
            omega
          obtain ⟨_, hvs, us, t, c', ws, xs, rfl, hmany, ht, hV⟩ := ih _ hlt a₁ hloop.symm rfl
          refine ⟨s.next :: ts ++ (us ++ t :: ws), ?_, s.next :: ts ++ us, t, c', ws,
            (c, b) :: xs, (List.append_assoc _ _ _).symm, .cons (.mk hc hitem) hmany, ht, hV⟩
          rw [htokens, hts, hvs]
          simp
        · -- behind the last round, which reads no item, a loop does not fail
          have hdone := hloop.trans (Reads.loopFrom_of_none (hs₁ ▸ hclose) a₁)
          cases hdone

/-- Rounds that read an item each are a beginning of such rounds. -/
theorem loop_viable (heof : accepts .endOfInput = none) (hclose : accepts close = none)
    (hbody : ∀ c a, Reads Anywhere (body c a) fun ts next a' =>
      (∃ b, item ts b ∧ stop next ∧ a' = step a (c, b)) ∨ (trail ts ∧ next = close ∧ a' = a))
    (hround : ∀ c a, Stops Anywhere (body c a) (Viable item)) (a : α) :
    Stops start (Rule.loop accepts body a) (Viable (Many (Behind accepts item))) := by
  refine (loop accepts step heof hclose hbody hround a).mono ?_
  rintro _ ⟨us, t, c, ws, xs, rfl, hmany, ht, more, b, hmore, hitem⟩
  have hround := hmany.append (.single (.mk ht hitem))
  exact .of_split hmore (List.append_assoc us (t :: ws) more) hround

/-- So are rounds of a loop that reads an item in each. -/
theorem items (heof : accepts .endOfInput = none)
    (hbody : ∀ c a, Reads Anywhere (body c a) fun ts next a' =>
      ∃ b, (item ts b ∧ stop next) ∧ a' = step a (c, b))
    (hround : ∀ c a, Stops Anywhere (body c a) (Viable item)) (a : α) :
    Stops start (Rule.loop accepts body a) (Viable (Many (Behind accepts item))) := by
  have hbody' (c : γ) (a : α) : Reads Anywhere (body c a) fun ts next a' =>
      (∃ b, item ts b ∧ stop next ∧ a' = step a (c, b)) ∨
        (False ∧ next = .endOfInput ∧ a' = a) :=
    (hbody c a).congr fun ts next a' => by simp only [false_and, or_false, and_assoc]
  exact loop_viable accepts step heof heof hbody' hround a

variable {accepts} in
/-- Something else first, and then items. -/
theorem firstThen {δ ε : Type} {first : Rule δ} {F : Phrase δ} {more : δ → Rule ε}
    (hfirst : Stops Anywhere first (Viable F))
    (hreads : Reads Anywhere first fun ts next d => F ts d ∧ stop next)
    (hmore : ∀ d, Stops stop (more d) (Viable (Many (Behind accepts item)))) :
    Stops Anywhere (first.andThen more) fun ts => ∃ rest us vs d xs,
      Token.endOfInput ∉ rest ∧ ts ++ rest = us ++ vs ∧ F us d ∧
        Many (Behind accepts item) vs xs := by
  refine (hfirst.andThen (fun _ => stop) hreads hmore fun h => h.2).mono ?_
  rintro ts (⟨rest, d, hrest, hF⟩ | ⟨us, vs, _, d, rfl, ⟨hF, -⟩, rest, xs, hrest, hmany⟩)
  · exact ⟨rest, _, [], d, [], hrest, (List.append_nil _).symm, hF, .nil⟩
  · exact ⟨rest, us, _, d, xs, hrest, List.append_assoc _ _ _, hF, hmany⟩

end

end Stops

/-! ## Chains and lists -/

theorem stops_chain {accepts : Token → Option BinOp} {operator : Token → BinOp → Prop}
    (haccepts : ∀ {t op}, accepts t = some op ↔ operator t op) {operand : Rule Tree}
    {O : Phrase Tree} {stop : Token → Prop} (heof : accepts .endOfInput = none)
    (hreads : Reads Anywhere operand fun ts next t => O ts t ∧ stop next)
    (h : Stops Anywhere operand (Viable O)) :
    Stops Anywhere (chain accepts operand) (Viable (Chain operator O)) := by
  refine (Stops.firstThen h hreads fun first =>
    .items accepts (fun left next => .binary left next.1 next.2) heof
      (fun op left => hreads.map (Tree.binary left op))
      (fun op left => h.map (Tree.binary left op)) first).mono ?_
  rintro ts ⟨rest, us, vs, first, xs, hrest, hsplit, hfirst, hmany⟩
  exact .of_split hrest hsplit (.mk hfirst (operated_eq_behind haccepts O ▸ hmany))

theorem stops_separated {α : Type} {item : Rule α} {I : Phrase α} {stop : Token → Prop}
    (separator : Token) (heof : separator ≠ .endOfInput)
    (hreads : Reads Anywhere item fun ts next a => I ts a ∧ stop next)
    (h : Stops Anywhere item (Viable I)) :
    Stops Anywhere (separated separator item) (Viable (Listed separator I)) := by
  refine (Stops.firstThen h hreads fun first =>
    (Stops.items (only separator) (fun (all : Array α) x => all.push x.2)
      (only_eq_none_iff.2 heof.symm) (fun _ all => hreads.map all.push)
      (fun _ all => h.map all.push) #[first]).map Array.toList).mono ?_
  rintro ts ⟨rest, us, vs, first, xs, hrest, hsplit, hfirst, hmany⟩
  exact .of_split hrest hsplit
    (.mk hfirst (many_behind_iff after_iff |>.2 ⟨xs, hmany, rfl⟩))

/-! ## Parentheses -/

theorem stops_closing (context : Closing) : Stops Anywhere (closing context) (· = []) := by
  unfold closing
  refine Stops.peekThen fun t => ?_
  cases t
  case closeParen => exact .advance
  all_goals exact .fail _ rfl

/-- What a rule reads, and the parenthesis behind it. -/
theorem stops_closed {α β : Type} {r : Rule α} {L : Language α} {V : List Token → Prop}
    (hreads : Reads Anywhere r L) (h : Stops Anywhere r V) (context : Closing) (f : α → β) :
    Stops Anywhere (r.andThen fun a => (closing context).andThen fun _ => succeed (f a))
      fun ts => V ts ∨ ∃ next a, L ts next a := by
  refine (h.andThen (fun _ => Anywhere) hreads
    (fun a => (stops_closing context).map fun _ => f a) fun _ => trivial).mono ?_
  rintro ts (hV | ⟨us, vs, next, a, rfl, hL, rfl⟩)
  · exact Or.inl hV
  · rw [List.append_nil]
    exact Or.inr ⟨next, a, hL⟩

section
variable {e : Rule Tree} {E : Phrase Tree} (hbegins : Begins E)
  (hreads : Reads Anywhere e fun ts next t => E ts t ∧ EndsExpression next)
  (h : Stops Anywhere e (Viable E))
include hreads h

theorem stops_atom : Stops Anywhere (atom e) (Viable (Atom E)) := by
  have hnone : Viable (Atom E) [] := ⟨[.integer 0], _, by simp, .integer 0⟩
  have hclose : Token.endOfInput ∉ [Token.closeParen] := by simp
  unfold atom
  refine Stops.peekThen fun t => ?_
  cases t
  case integer | float | ident => exact Stops.advance.map _
  case openParen =>
    have hparen := Reads.advance (t := .openParen) nofun
    refine (Stops.advance (V := fun _ => False) |>.andThen (fun _ => Anywhere) hparen
      (fun _ => stops_closed hreads h .group id) fun _ => trivial).mono ?_
    rintro ts (hf | ⟨us, vs, -, -, rfl, rfl, ⟨more, t, hmore, hE⟩ | ⟨-, t, hE, -⟩⟩)
    · exact hf.elim
    · exact .of_append hmore (.of_split hclose rfl (.group (.mk hE)))
    · exact .of_split hclose rfl (.group (.mk hE))
  all_goals exact .fail _ hnone

include hbegins

theorem stops_arguments : Stops Anywhere (arguments e) (Viable (Arguments E)) := by
  have hround (found : Array Tree) : Stops Anywhere (argumentRound e found) (Viable E) :=
    .ifNext (.succeed found) (h.map found.push)
  refine Stops.ifNext (.succeed []) ((Stops.firstThen h hreads fun first =>
    (Stops.loop_viable (only .comma) (fun (all : Array Tree) x => all.push x.2) rfl rfl
      (fun _ => reads_argumentRound hbegins hreads) (fun _ => hround) #[first]).map
        Array.toList).mono ?_)
  rintro ts ⟨rest, us, vs, first, xs, hrest, hsplit, hfirst, hmany⟩
  have hlist := Listed.mk hfirst (many_behind_iff after_iff |>.2 ⟨xs, hmany, rfl⟩)
  exact .of_split hrest hsplit (.some hlist)

theorem stops_call (callee : Tree) :
    Stops Anywhere ((arguments e).andThen fun args =>
        (closing .arguments).andThen fun _ => succeed (Tree.call callee args))
      (Viable (Before (Arguments E) .closeParen)) := by
  refine (stops_closed (reads_arguments hbegins hreads) (stops_arguments hbegins hreads h)
    .arguments (Tree.call callee)).mono ?_
  have hclose : Token.endOfInput ∉ [Token.closeParen] := by simp
  rintro ts (⟨more, args, hmore, hargs⟩ | ⟨next, args, ⟨-, hargs⟩ | ⟨-, hlist, -⟩⟩)
  · exact .of_append hmore (.of_split hclose rfl (.mk hargs))
  · exact .of_split hclose rfl (.mk hargs)
  · exact .of_split hclose rfl (.mk (.some hlist))

theorem stops_application : Stops Anywhere (application e) (Viable (Application E)) := by
  have hatom : Reads Anywhere (atom e) fun ts next t => Atom E ts t ∧ Anywhere next :=
    (reads_atom hreads).congr fun _ _ _ => (and_iff_left trivial).symm
  refine (Stops.firstThen (stops_atom hreads h) hatom fun callee =>
    .items (only .openParen) (fun callee x => Tree.call callee x.2) rfl
      (fun _ callee => reads_call hbegins hreads callee)
      (fun _ callee => stops_call hbegins hreads h callee) callee).mono ?_
  rintro ts ⟨rest, us, vs, callee, xs, hrest, hsplit, hcallee, hmany⟩
  have hlists := many_behind_iff parenthesized_iff |>.2 ⟨xs, hmany, rfl⟩
  exact .of_split hrest hsplit (.mk hcallee hlists)

end

/-- **Where an expression fails, it can be completed.** -/
theorem stops_expressionIn (room : Nat) :
    Stops Anywhere (expressionIn room) (Viable (Phrase.expression room)) := by
  induction room with
  | zero => exact .tooDeep _
  | succ room ih =>
    have hbegins := begins_expression room
    have hreads := reads_expressionIn room
    have happlication := reads_application hbegins hreads
    have hproduct :=
      reads_chain productOperator_eq_some_iff rfl endsApplication_of_product happlication
    exact stops_chain sumOperator_eq_some_iff rfl hproduct
      (stops_chain productOperator_eq_some_iff rfl happlication
        (stops_application hbegins hreads ih))

/-! ## Statements -/

/-- A list more, behind an equals sign or another separator. -/
theorem listed_concat {α : Type} {sep : Token} {item : Phrase α} {ts us : List Token}
    {as : List α} {a : α} (h : Listed sep item ts as) (ha : item us a) :
    Listed sep item (ts ++ sep :: us) (as ++ [a]) := by
  obtain ⟨hfirst, hmany⟩ := h
  rw [List.append_assoc]
  exact .mk hfirst (hmany.append (.single (.mk ha)))

/-- Lists of a statement are completed by a value. -/
theorem viable_lists {E : Phrase Tree} (hsome : Viable E []) {ts : List Token}
    {lists : List (List Tree)} (hts : Listed .assign (Listed .comma E) ts lists) :
    Viable (StatementOf E) ts := by
  obtain ⟨us, value, hus, hE⟩ := hsome
  have htree : IsTreeOf (lists ++ [[value]]) (statementTree lists value) :=
    isTreeOf_append.2 ⟨value, rfl, rfl⟩
  have hmore : Token.endOfInput ∉ Token.assign :: us := by simpa using hus
  exact .of_split hmore rfl
    (statementOf_iff.2 ⟨_, listed_concat hts (listed_single hE), htree⟩)

theorem stops_statementOf {e : Rule Tree} {E : Phrase Tree}
    (hreads : Reads Anywhere e fun ts next t => E ts t ∧ EndsExpression next)
    (h : Stops Anywhere e (Viable E)) (hsome : Viable E []) :
    Stops Anywhere (statementOf e) (Viable (StatementOf E)) := by
  have hlists := stops_separated .assign nofun
    (reads_separated hreads .comma nofun (endsExpression_of_comma rfl))
    (stops_separated .comma nofun hreads h)
  have hvalue (lists : List (List Tree)) : Stops Anywhere (statementValue lists) (· = []) := by
    unfold statementValue
    split
    · exact .succeed _
    · exact .succeed _
    · exact .fail _ rfl
  refine (hlists.andThen (fun _ => Anywhere) (reads_lists hreads) hvalue fun _ => trivial).mono ?_
  rintro ts (⟨rest, lists, hrest, hts⟩ | ⟨us, vs, -, lists, rfl, ⟨hts, -⟩, rfl⟩)
  · exact .of_append hrest (viable_lists hsome hts)
  · rw [List.append_nil]
    exact viable_lists hsome hts

/-! ## Blocks -/

/-- Separators are skipped without fail. -/
theorem stops_skipSeparators {start : Token → Prop} {V : List Token → Prop} :
    Stops start skipSeparators V := by
  have hround (c a : Unit) : Reads Anywhere (succeed ()) fun ts next (_ : Unit) =>
      (∃ b : Unit, ts = [] ∧ Anywhere next ∧ () = ()) ∨ False ∧ next = .endOfInput ∧ () = a :=
    (Reads.succeed ()).congr fun ts next b => by simp [Anywhere]
  have hnever (c a : Unit) : Stops Anywhere (succeed ()) fun _ => False := .succeed ()
  refine (Stops.loop separator (fun _ _ => ()) rfl rfl hround hnever ()).mono ?_
  rintro ts ⟨-, -, -, -, -, -, -, -, hf⟩
  exact hf.elim

/-- Statements without separators behind the last one. -/
theorem statementsOf_unseparated {E : Phrase Tree} {us vs : List Token} {first : Tree}
    {rest : List Tree} (hfirst : StatementOf E us first)
    (hnext : Many (NextStatementOf E) vs rest) :
    StatementsOf E (us ++ vs) (.block (first :: rest)) := by
  have hall : StatementsOf E (us ++ (vs ++ [])) (.block (first :: rest)) :=
    .mk hfirst hnext nofun
  rwa [List.append_nil] at hall

theorem stops_blockEnd (all : Array Tree) : Stops Anywhere (blockEnd all) (· = []) := by
  refine Stops.peekThen fun t => ?_
  cases t
  case endOfInput => exact .succeed _
  all_goals exact .fail _ rfl

section
variable {e : Rule Tree} {E : Phrase Tree} (hbegins : Begins E)
  (hreads : Reads Anywhere e fun ts next t => E ts t ∧ EndsExpression next)
  (h : Stops Anywhere e (Viable E)) (hsome : Viable E [])
include hreads h hsome

theorem stops_statementRound (found : Array Tree) :
    Stops Anywhere (statementRound e found) (Viable (LedStatement E)) := by
  have hstatement := stops_statementOf hreads h hsome
  refine (stops_skipSeparators (V := fun _ => False) |>.andThen (fun _ => Anywhere)
    reads_skipSeparators (fun _ => .ifNext (.succeed found) (hstatement.map found.push))
    fun _ => trivial).mono ?_
  rintro ts (hf | ⟨seps, vs, -, -, rfl, ⟨hseps, -⟩, rest, tree, hrest, htree⟩)
  · exact hf.elim
  · exact .of_split hrest (List.append_assoc _ _ _) ⟨seps, _, rfl, hseps, htree⟩

include hbegins

theorem stops_statementsOf : Stops Anywhere (statementsOf e) (Viable (StatementsOf E)) := by
  have hstatement := stops_statementOf hreads h hsome
  have hloop (first : Tree) : Stops EndsStatement
      (loop separator (fun _ => statementRound e) #[first])
      (Viable (Many (Behind separator (LedStatement E)))) :=
    .loop_viable separator (fun all x => all.push x.2) rfl rfl
      (fun _ => reads_statementRound hbegins hreads)
      (fun _ => stops_statementRound hreads h hsome) #[first]
  have hmore (first : Tree) := (hloop first).andThen (fun _ => Anywhere)
    (reads_moreStatements hbegins hreads first) stops_blockEnd fun _ => trivial
  refine (hstatement.andThen (fun _ => EndsStatement) (reads_statementOf hreads) hmore
    fun h => h.2).mono ?_
  rintro ts (⟨rest, first, hrest, hfirst⟩ | ⟨us, vs, -, first, rfl, ⟨hfirst, -⟩,
    ⟨rest, xs, hrest, hmany⟩ | ⟨us', _, -, all, rfl, ⟨ws, seps, rest, rfl, hrest, -, hseps, -⟩,
      rfl⟩⟩)
  · exact .of_split hrest (List.append_nil _).symm (statementsOf_unseparated hfirst .nil)
  · have hnext := many_behind_iff nextStatementOf_iff |>.2 ⟨xs, hmany, rfl⟩
    exact .of_split hrest (List.append_assoc _ _ _) (statementsOf_unseparated hfirst hnext)
  · rw [List.append_nil]
    exact .of_phrase (.mk hfirst hrest hseps)

/-- **Where a block fails, it can be completed.** -/
theorem stops_blockOf : Stops Anywhere (blockOf e) (Viable (BlockOf E)) := by
  refine (stops_skipSeparators (V := fun _ => False) |>.andThen (fun _ => Anywhere)
    reads_skipSeparators
    (fun _ => .ifNext (.succeed _) (stops_statementsOf hbegins hreads h hsome))
    fun _ => trivial).mono ?_
  rintro ts (hf | ⟨seps, vs, -, -, rfl, ⟨hseps, -⟩, rest, tree, hrest, hall⟩)
  · exact hf.elim
  · have hblock : BlockOf E (seps ++ (vs ++ rest)) tree := by
      generalize vs ++ rest = ts at hall
      obtain ⟨hfirst, hnext, hseps'⟩ := hall
      exact .mk hseps hfirst hnext hseps'
    exact .of_split hrest (List.append_assoc _ _ _) hblock

end

/-! ## The first wrong token -/

/-- A token sequence that has a tree, however deep its expressions nest. -/
def Accepted (ts : List Token) : Prop :=
  ∃ room tree, BlockOf (Phrase.expression room) (ts.takeWhile (· ≠ .endOfInput)) tree

/-- What is accepted is read by some rule. -/
theorem Accepted.exists_read {s : TokenStream} (h : Accepted (s.ahead.map PlacedToken.token)) :
    ∃ room tree s', (blockOf (expressionIn room)).read s = (.ok tree, s') := by
  obtain ⟨room, tree, hblock⟩ := h
  have hreads := reads_blockOf (begins_expression room) (reads_expressionIn room)
  obtain ⟨s', hread, -⟩ := hreads.complete (s := s) trivial (List.append_nil _).symm ⟨rfl, hblock⟩
  exact ⟨room, tree, s', hread⟩

theorem accepted_of_block {room : Nat} {ts : List Token} {tree : Tree}
    (hts : Token.endOfInput ∉ ts) (h : BlockOf (Phrase.expression room) ts tree) : Accepted ts := by
  refine ⟨room, tree, ?_⟩
  rwa [List.takeWhile_eq_self_iff.2 fun t ht => ?_]
  have hne : t ≠ .endOfInput := fun hend => hts (hend ▸ ht)
  simpa using hne

/-- An end of input cuts off what is behind it. -/
theorem accepted_append_end (ts more : List Token) :
    Accepted (ts ++ .endOfInput :: more) ↔ Accepted ts := by
  have hcut : (ts ++ .endOfInput :: more).takeWhile (· ≠ .endOfInput) =
      ts.takeWhile (· ≠ .endOfInput) := by
    induction ts with
    | nil => rfl
    | cons t ts ih => rw [List.cons_append, List.takeWhile_cons, List.takeWhile_cons, ih]
  rw [Accepted, hcut, Accepted]

theorem viable_expression : Viable Expression [] := by
  have hatom : Application (Phrase.expression (maxNesting - 1)) [.integer 0] (.num (.int 0)) :=
    .mk (.integer 0) .nil
  have hproduct : Chain ProductOperator _ [.integer 0] (.num (.int 0)) := .mk hatom .nil
  have hsum : Expression [.integer 0] (.num (.int 0)) := .mk hproduct .nil
  exact ⟨[.integer 0], _, by simp, hsum⟩

section
variable {tokens taken : List PlacedToken} {e : ParseError} {s : TokenStream}
  (h : Tree.ofStream (.ofTokens tokens) = (.error e, s)) (he : ¬ e.TooDeep)
  (hpasses : Passes (.ofTokens tokens) taken s)
include h he hpasses

/-- What is refused with one next token is refused with what has it in common. -/
theorem not_accepted (ahead : List PlacedToken) (hahead : ahead.head? = s.ahead.head?) :
    ¬ Accepted ((taken ++ ahead).map PlacedToken.token) := by
  intro haccepted
  obtain ⟨room, tree, s', hread⟩ := Accepted.exists_read (s := ⟨taken ++ ahead, none⟩) haccepted
  obtain ⟨taken', hpasses', -, hagain⟩ :=
    agrees_blockOf (agrees_expressionIn maxNesting room) (.ofTokens tokens) trivial
  have hblock : (blockOf (expressionIn maxNesting)).read (.ofTokens tokens) = (.error e, s) := h
  rw [hblock] at hpasses' hagain
  have hsame : taken' = taken :=
    List.append_cancel_right (hpasses'.ahead.symm.trans hpasses.ahead)
  rcases hagain ahead tree s' hahead (hsame ▸ hread) with ⟨hok, -⟩ | ⟨e', he', hdeep⟩
  · cases hok
  · cases he'
    exact he hdeep

/-- So no sequence has a tree that begins with the tokens up to the next one. -/
theorem not_accepted_next (more : List Token) :
    ¬ Accepted (taken.map PlacedToken.token ++ s.next :: more) := by
  cases hs : s.ahead with
  | nil =>
    have hnext : s.next = .endOfInput := by rw [TokenStream.next, hs]
    rw [hnext, accepted_append_end]
    simpa using not_accepted h he hpasses [] (by rw [hs])
  | cons p ps =>
    have hnext : s.next = p.token := by rw [TokenStream.next, hs]
    have hnone := not_accepted h he hpasses (p :: more.map (⟨·, .start⟩)) (by rw [hs]; rfl)
    simpa [hnext, Function.comp_def] using hnone

/-- The tokens in front of the next one are the beginning of a sequence that has
    a tree. -/
theorem exists_accepted : ∃ more, Accepted (taken.map PlacedToken.token ++ more) := by
  have hstops := stops_blockOf (begins_expression maxNesting) (reads_expressionIn maxNesting)
    (stops_expressionIn maxNesting) viable_expression
  obtain ⟨ts, hts, more, tree, hmore, htree⟩ := hstops.taken trivial h he
  have hsame : taken.map PlacedToken.token = ts :=
    List.append_cancel_right (hpasses.tokens_eq.symm.trans hts)
  refine ⟨more, accepted_of_block ?_ (hsame ▸ htree)⟩
  rw [List.mem_append, not_or]
  exact ⟨hpasses.endOfInput_notMem, hmore⟩

/-- The next token or, behind the last one, that one stands where the error is
    reported: there is always one of them, since nothing at all is a block. -/
theorem position_eq_place :
    (s.ahead.head?.or taken.getLast?).map PlacedToken.position = some s.place := by
  rw [TokenStream.place]
  cases hs : s.ahead with
  | cons p ps => rfl
  | nil =>
    cases htaken : taken.getLast? with
    | some p =>
      have hlast : s.lastTaken = some p.position := by
        rw [hpasses.last, htaken]
        rfl
      rw [hlast]
      rfl
    | none =>
      have hnext : s.next = .endOfInput := by rw [TokenStream.next, hs]
      have hblank : Accepted [.endOfInput] := ⟨0, .block [], .blank (List.forall_mem_nil _)⟩
      have hnone := not_accepted_next h he hpasses []
      rw [List.getLast?_eq_none_iff.1 htaken, hnext] at hnone
      exact absurd hblank hnone

end

/-- **Parse errors are reported at the first wrong token.** When a token sequence
    has no tree, for whatever reason but the nesting, then the tokens in front of
    the error are the beginning of one that has a tree, but no more so together
    with the next token, or with the end of input. The position is that of this
    token, or of the last one that was taken if there is none. -/
theorem ofStream_error {tokens : List PlacedToken} {e : ParseError} {s : TokenStream}
    (h : Tree.ofStream (.ofTokens tokens) = (.error e, s)) (he : ¬ e.TooDeep) :
    ∃ taken, tokens = taken ++ s.ahead ∧
      (∃ more, Accepted (taken.map PlacedToken.token ++ more)) ∧
      (∀ more, ¬ Accepted (taken.map PlacedToken.token ++ s.next :: more)) ∧
      (s.ahead.head?.or taken.getLast?).map PlacedToken.position = some e.position := by
  have hblock : (blockOf (expressionIn maxNesting)).read (.ofTokens tokens) = (.error e, s) := h
  obtain ⟨taken, hpasses, hplace, -⟩ :=
    agrees_blockOf (agrees_expressionIn maxNesting maxNesting) (.ofTokens tokens) trivial
  rw [hblock] at hpasses hplace
  refine ⟨taken, hpasses.ahead, exists_accepted h he hpasses, not_accepted_next h he hpasses, ?_⟩
  rw [hplace e rfl]
  exact position_eq_place h he hpasses

/-- Two names one behind the other. -/
def twoNames : List PlacedToken := [⟨.ident "a", ⟨1, 1⟩⟩, ⟨.ident "b", ⟨1, 3⟩⟩]

theorem ofStream_error_twoNames :
    ∃ e s, Tree.ofStream (.ofTokens twoNames) = (.error e, s) ∧ ¬ e.TooDeep ∧
      ∃ taken, twoNames = taken ++ s.ahead ∧
        (∃ more, Accepted (taken.map PlacedToken.token ++ more)) ∧
        (∀ more, ¬ Accepted (taken.map PlacedToken.token ++ s.next :: more)) ∧
        (s.ahead.head?.or taken.getLast?).map PlacedToken.position = some e.position := by
  have hread : Tree.ofStream (.ofTokens twoNames) =
      (.error ⟨.expectedEndOfStatement (.ident "b"), ⟨1, 3⟩⟩,
        ⟨[⟨.ident "b", ⟨1, 3⟩⟩], some ⟨1, 1⟩⟩) := by with_unfolding_all rfl
  have hflat : ¬ (ParseError.mk (.expectedEndOfStatement (.ident "b")) ⟨1, 3⟩).TooDeep := by
    rintro ⟨limit, hlimit⟩
    cases hlimit
  exact ⟨_, _, hread, hflat, ofStream_error hread hflat⟩

end Stacklet
