/-
  Rules read expressions.

  Behind an expression stands no token that would continue it
  (`EndsExpression`); with that, each rule takes exactly what its phrase says.

  * `reads_chain`, `reads_separated`: chains and lists of any items;
  * `reads_arguments`, `reads_atom`, `reads_application`: what contains
    expressions, for any rule that reads those;
  * `reads_expressionIn`: expressions, by the room that is left for nesting.
-/
import Stacklet.Proofs.Reading

namespace Stacklet

open Rule Grammar Phrase

/-! ## Repetition -/

/-- Phrases one behind the other, as a loop finds them. -/
theorem many_behind_iff {α γ : Type} {accepts : Token → Option γ} {p q : Phrase α}
    (h : ∀ {ts a}, q ts a ↔ ∃ c, Behind accepts p ts (c, a)) {ts : List Token} {as : List α} :
    Many q ts as ↔ ∃ xs, Many (Behind accepts p) ts xs ∧ as = xs.map Prod.snd := by
  constructor
  · intro hmany
    induction hmany with
    | nil => exact ⟨[], .nil, rfl⟩
    | cons hq _ ih =>
      obtain ⟨c, hx⟩ := h.1 hq
      obtain ⟨xs, hxs, rfl⟩ := ih
      exact ⟨(c, _) :: xs, .cons hx hxs, rfl⟩
  · rintro ⟨xs, hmany, rfl⟩
    induction hmany with
    | nil => exact .nil
    | @cons _ _ x _ hx _ ih => exact .cons (h.2 ⟨x.1, hx⟩) ih

/-- Operations, as a loop finds them. -/
theorem operated_eq_behind {accepts : Token → Option BinOp} {operator : Token → BinOp → Prop}
    (h : ∀ {t op}, accepts t = some op ↔ operator t op) (operand : Phrase Tree) :
    Operated operator operand = Behind accepts operand := by
  funext ts x
  refine propext ⟨?_, ?_⟩
  · rintro ⟨ht, hoperand⟩
    exact .mk (h.2 ht) hoperand
  · rintro ⟨ht, hoperand⟩
    exact .mk (h.1 ht) hoperand

theorem only_eq_some_iff {t u : Token} {c : Unit} : only t u = some c ↔ u = t := by
  simp [only]

theorem only_eq_none_iff {t u : Token} : only t u = none ↔ u ≠ t := by
  simp [only]

/-- A phrase behind a token, as a loop finds it. -/
theorem after_iff {α : Type} {t : Token} {p : Phrase α} {ts : List Token} {a : α} :
    After t p ts a ↔ ∃ c, Behind (only t) p ts (c, a) := by
  constructor
  · rintro ⟨hp⟩
    exact ⟨(), .mk (only_eq_some_iff.2 rfl) hp⟩
  · rintro ⟨c, ⟨ht, hp⟩⟩
    rw [only_eq_some_iff.1 ht]
    exact .mk hp

/-- Items are collected in order. -/
theorem toList_foldl_push {α β : Type} (all : Array α) (xs : List (β × α)) :
    (xs.foldl (fun all x => all.push x.2) all).toList = all.toList ++ xs.map Prod.snd := by
  induction xs generalizing all with
  | nil => simp
  | cons x xs ih =>
    rw [List.foldl_cons, ih, Array.toList_push, List.map_cons, List.append_assoc]
    rfl

/-! ## Chains and lists -/

/-- Chains of operands. -/
theorem reads_chain {accepts : Token → Option BinOp} {operator : Token → BinOp → Prop}
    (haccepts : ∀ {t op}, accepts t = some op ↔ operator t op) {operand : Rule Tree}
    {O : Phrase Tree} {stop : Token → Prop} (heof : accepts .endOfInput = none)
    (hstop : ∀ {t op}, operator t op → stop t)
    (h : Reads Anywhere operand fun ts next t => O ts t ∧ stop next) :
    Reads Anywhere (chain accepts operand) fun ts next t =>
      Chain operator O ts t ∧ accepts next = none ∧ stop next := by
  have hstop (t : Token) (op : BinOp) (ht : accepts t = some op) : stop t := hstop (haccepts.1 ht)
  have hmore (first : Tree) := Reads.items hstop
    (fun left next => .binary left next.1 next.2) heof (fun op left => h.map _) first
  refine (Reads.firstThen hstop h hmore).congr fun ts next t => and_congr_left fun _ => ?_
  rw [← operated_eq_behind haccepts]
  constructor
  · rintro ⟨us, vs, first, rest, rfl, hfirst, hrest, rfl⟩
    exact .mk hfirst hrest
  · rintro ⟨hfirst, hrest⟩
    exact ⟨_, _, _, _, rfl, hfirst, hrest, rfl⟩

section
variable {α : Type} {item : Rule α} {I : Phrase α} {stop : Token → Prop}
  (h : Reads Anywhere item fun ts next a => I ts a ∧ stop next)
include h

/-- The items of a list from the second on. -/
theorem reads_moreItems {accepts : Token → Option Unit} (heof : accepts .endOfInput = none)
    (hstop : ∀ t c, accepts t = some c → stop t) (first : α) :
    Reads stop ((loop accepts (fun _ found => item.andThen fun a => succeed (found.push a))
        #[first]).andThen fun all => succeed all.toList)
      fun ts next as => ∃ xs, Many (Behind accepts I) ts xs ∧ as = first :: xs.map Prod.snd ∧
        accepts next = none ∧ stop next := by
  have hitems := Reads.items hstop (fun (all : Array α) x => all.push x.2) heof
    (fun _ all => h.map _) #[first]
  refine (hitems.map _).congr fun ts next as => ?_
  constructor
  · rintro ⟨all, ⟨xs, hmany, rfl, hend⟩, rfl⟩
    exact ⟨xs, hmany, toList_foldl_push _ _, hend⟩
  · rintro ⟨xs, hmany, rfl, hend⟩
    exact ⟨_, ⟨xs, hmany, rfl, hend⟩, (toList_foldl_push #[first] xs).symm⟩

/-- Lists with separators. -/
theorem reads_separated (separator : Token) (heof : separator ≠ .endOfInput)
    (hstop : stop separator) :
    Reads Anywhere (separated separator item) fun ts next as =>
      Listed separator I ts as ∧ next ≠ separator ∧ stop next := by
  have hstop (t : Token) (c : Unit) (ht : only separator t = some c) : stop t :=
    only_eq_some_iff.1 ht ▸ hstop
  have hmore := reads_moreItems h (only_eq_none_iff.2 heof.symm) hstop
  refine (Reads.firstThen hstop h hmore).congr fun ts next as => ?_
  rw [only_eq_none_iff]
  refine and_congr_left fun _ => ?_
  constructor
  · rintro ⟨us, vs, first, xs, rfl, hfirst, hmany, rfl⟩
    exact .mk hfirst (many_behind_iff after_iff |>.2 ⟨xs, hmany, rfl⟩)
  · rintro ⟨hfirst, hrest⟩
    obtain ⟨xs, hmany, rfl⟩ := many_behind_iff after_iff |>.1 hrest
    exact ⟨_, _, _, xs, rfl, hfirst, hmany, rfl⟩

end

/-! ## Where expressions begin and end -/

/-- No arguments follow. -/
def EndsApplication (t : Token) : Prop := t ≠ .openParen

/-- No product is continued. -/
def EndsProduct (t : Token) : Prop := productOperator t = none ∧ EndsApplication t

/-- No expression is continued. -/
def EndsExpression (t : Token) : Prop := sumOperator t = none ∧ EndsProduct t

/-- A token with which expressions begin. -/
def BeginsExpression : Token → Prop
  | .integer _ | .float _ | .ident _ | .openParen => True
  | _ => False

theorem BeginsExpression.ne {t u : Token} (ht : BeginsExpression t) (hu : ¬ BeginsExpression u) :
    t ≠ u := by
  rintro rfl
  exact hu ht

/-- A phrase begins as expressions do. -/
def Begins {α : Type} (P : Phrase α) : Prop :=
  ∀ ts a next, P ts a → BeginsExpression (ts.headD next)

theorem begins_append {ts : List Token} (h : ∀ next, BeginsExpression (ts.headD next))
    (us : List Token) (next : Token) : BeginsExpression ((ts ++ us).headD next) := by
  cases ts with
  | nil => exact h _
  | cons t ts => exact h next

theorem Begins.headD_ne {α : Type} {P : Phrase α} (hP : Begins P) {ts : List Token} {a : α}
    (h : P ts a) {t : Token} (ht : ¬ BeginsExpression t) (us : List Token) (next : Token) :
    (ts ++ us).headD next ≠ t :=
  (begins_append (fun next => hP ts a next h) us next).ne ht

theorem begins_listed {α : Type} {separator : Token} {item : Phrase α} (h : Begins item) :
    Begins (Listed separator item) := by
  rintro _ _ next ⟨hfirst, _⟩
  exact begins_append (fun next => h _ _ next hfirst) _ next

theorem begins_chain {operator : Token → BinOp → Prop} {operand : Phrase Tree}
    (h : Begins operand) : Begins (Chain operator operand) := by
  rintro _ _ next ⟨hfirst, _⟩
  exact begins_append (fun next => h _ _ next hfirst) _ next

theorem begins_application (E : Phrase Tree) : Begins (Application E) := by
  rintro _ _ next ⟨hatom, _⟩
  cases hatom with
  | integer | float | name => trivial
  | group h =>
    cases h
    trivial

theorem begins_expression (room : Nat) : Begins (Phrase.expression room) := by
  cases room with
  | zero => exact fun _ _ _ h => h.elim
  | succ room => exact begins_chain (begins_chain (begins_application _))

theorem endsExpression_of_comma {t : Token} {c : Unit} (ht : only .comma t = some c) :
    EndsExpression t := by
  rw [only_eq_some_iff.1 ht]
  exact ⟨rfl, rfl, nofun⟩

theorem endsExpression_closeParen : EndsExpression .closeParen := ⟨rfl, rfl, nofun⟩

/-! ## Parentheses -/

theorem reads_closing (context : Closing) :
    Reads Anywhere (closing context) fun ts _ _ => ts = [.closeParen] := by
  have hpeek : Reads Anywhere (closing context) fun ts next _ =>
      ts.headD next = .closeParen ∧ ts = [.closeParen] := by
    unfold closing
    refine Reads.peekThen (M := fun t ts _ (_ : Unit) => t = .closeParen ∧ ts = [.closeParen])
      fun t _ => ?_
    cases t
    case closeParen =>
      have hadvance := Reads.advance (t := .closeParen) nofun
      exact hadvance.congr fun _ _ _ => (and_iff_right rfl).symm
    all_goals exact (Reads.fail _).congr fun _ _ _ => by simp
  refine hpeek.congr fun ts next _ => ⟨fun h => h.2, fun h => ?_⟩
  rw [h]
  exact ⟨rfl, rfl⟩

/-- What a rule reads, and the parenthesis behind it. -/
theorem reads_closed {α β : Type} {r : Rule α} {L : Language α} (h : Reads Anywhere r L)
    (context : Closing) (f : α → β) :
    Reads Anywhere (r.andThen fun a => (closing context).andThen fun _ => succeed (f a))
      fun ts _ b => ∃ us a, ts = us ++ [.closeParen] ∧ L us .closeParen a ∧ b = f a := by
  have hclose (a : α) := (reads_closing context).map fun _ => f a
  refine (h.andThen (fun _ => Anywhere) hclose fun _ => trivial).congr fun ts next b => ?_
  constructor
  · rintro ⟨us, vs, a, rfl, hL, -, rfl, rfl⟩
    exact ⟨us, a, rfl, hL, rfl⟩
  · rintro ⟨us, a, rfl, hL, rfl⟩
    exact ⟨us, _, a, rfl, hL, (), rfl, rfl⟩

/-! ## Arguments -/

/-- What stands behind the last argument, and in front of the next token: a
    comma only in front of a closing parenthesis. -/
def EndsArguments (vs : List Token) (next : Token) : Prop :=
  vs = [] ∧ EndsExpression next ∧ next ≠ .comma ∨ next = .closeParen ∧ vs = [.comma]

/-- A round of the loop over arguments: one more of them, or none in front of a
    closing parenthesis. -/
def argumentRound (e : Rule Tree) (found : Array Tree) : Rule (Array Tree) :=
  peek.andThen fun t =>
    if t = .closeParen then succeed found else e.andThen fun arg => succeed (found.push arg)

section
variable {e : Rule Tree} {E : Phrase Tree} (hbegins : Begins E)
  (h : Reads Anywhere e fun ts next t => E ts t ∧ EndsExpression next)
include hbegins h

theorem reads_argumentRound (found : Array Tree) :
    Reads Anywhere (argumentRound e found) fun ts next all =>
      (∃ arg, E ts arg ∧ EndsExpression next ∧ all = found.push arg) ∨
        (ts = [] ∧ next = .closeParen ∧ all = found) := by
  refine (Reads.ifNext (.succeed found) (h.map found.push)).congr fun ts next all => ?_
  constructor
  · rintro (⟨hnext, rfl, rfl⟩ | ⟨-, arg, ⟨hE, hend⟩, rfl⟩)
    · exact Or.inr ⟨rfl, hnext, rfl⟩
    · exact Or.inl ⟨arg, hE, hend, rfl⟩
  · rintro (⟨arg, hE, hend, rfl⟩ | ⟨rfl, rfl, rfl⟩)
    · exact Or.inr ⟨(hbegins ts arg next hE).ne id, arg, ⟨hE, hend⟩, rfl⟩
    · exact Or.inl ⟨rfl, rfl, rfl⟩

/-- All arguments from the second on. -/
theorem reads_moreArguments (first : Tree) :
    Reads EndsExpression ((loop (only .comma) (fun _ => argumentRound e) #[first]).andThen
        fun all => succeed all.toList)
      fun ts next args => ∃ us vs xs, ts = us ++ vs ∧ Many (Behind (only .comma) E) us xs ∧
        args = first :: xs.map Prod.snd ∧ EndsArguments vs next := by
  have hloop := Reads.loop rfl E (· = []) (fun all x => all.push x.2) .closeParen rfl
    (fun _ => reads_argumentRound hbegins h) (fun _ _ => endsExpression_of_comma) #[first]
  refine (hloop.map Array.toList).congr fun ts next args => ?_
  constructor
  · rintro ⟨all, ⟨us, vs, xs, rfl, hmany, rfl, hend⟩, rfl⟩
    refine ⟨us, vs, xs, rfl, hmany, toList_foldl_push _ _, ?_⟩
    rcases hend with ⟨rfl, hs, hnone⟩ | ⟨rfl, t, c, ws, hc, rfl, rfl⟩
    · exact Or.inl ⟨rfl, hs, only_eq_none_iff.1 hnone⟩
    · exact Or.inr ⟨rfl, by rw [only_eq_some_iff.1 hc]⟩
  · rintro ⟨us, vs, xs, rfl, hmany, rfl, hend⟩
    refine ⟨_, ⟨us, vs, xs, rfl, hmany, rfl, ?_⟩, (toList_foldl_push #[first] xs).symm⟩
    rcases hend with ⟨rfl, hs, hne⟩ | ⟨rfl, rfl⟩
    · exact Or.inl ⟨rfl, hs, only_eq_none_iff.2 hne⟩
    · exact Or.inr ⟨rfl, .comma, (), [], rfl, rfl, rfl⟩

/-- All arguments, if there are any. -/
theorem reads_someArguments :
    Reads Anywhere (e.andThen fun first =>
        (loop (only .comma) (fun _ => argumentRound e) #[first]).andThen
          fun all => succeed all.toList)
      fun ts next args => ∃ us vs, ts = us ++ vs ∧ Listed .comma E us args ∧
        EndsArguments vs next := by
  refine (h.andThen (fun _ => EndsExpression) (reads_moreArguments hbegins h)
    fun h => h.2).congr fun ts next args => ?_
  constructor
  · rintro ⟨us, _, first, rfl, ⟨hE, -⟩, ws, vs, xs, rfl, hmany, rfl, hend⟩
    have hrest := many_behind_iff after_iff |>.2 ⟨xs, hmany, rfl⟩
    exact ⟨us ++ ws, vs, (List.append_assoc _ _ _).symm, .mk hE hrest, hend⟩
  · rintro ⟨_, vs, rfl, ⟨hE, hrest⟩, hend⟩
    obtain ⟨xs, hmany, rfl⟩ := many_behind_iff after_iff |>.1 hrest
    have hstop : EndsExpression (vs.headD next) := by
      rcases hend with ⟨rfl, hs, -⟩ | ⟨-, rfl⟩
      · exact hs
      · exact endsExpression_of_comma rfl
    exact ⟨_, _, _, List.append_assoc _ _ _,
      ⟨hE, Reads.stop_headD (fun _ _ => endsExpression_of_comma) hmany hstop⟩,
      _, vs, _, rfl, hmany, rfl, hend⟩

/-- Arguments in front of a closing parenthesis; in front of any other token
    the list may still be read, but not be closed. -/
theorem reads_arguments :
    Reads Anywhere (arguments e) fun ts next args =>
      next = .closeParen ∧ Arguments E ts args ∨
        next ≠ .closeParen ∧ Listed .comma E ts args ∧ EndsArguments [] next := by
  refine (Reads.ifNext (.succeed []) (reads_someArguments hbegins h)).congr
    fun ts next args => ?_
  constructor
  · rintro (⟨hnext, rfl, rfl⟩ | ⟨-, us, vs, rfl, hlist, hend⟩)
    · exact Or.inl ⟨hnext, .none⟩
    · rcases hend with ⟨rfl, hs, hne⟩ | ⟨rfl, rfl⟩
      · rw [List.append_nil]
        by_cases hnext : next = .closeParen
        · exact Or.inl ⟨hnext, .some hlist⟩
        · exact Or.inr ⟨hnext, hlist, Or.inl ⟨rfl, hs, hne⟩⟩
      · exact Or.inl ⟨rfl, .trailing hlist⟩
  · -- a list that is not empty begins with an expression, not with a parenthesis
    have hlisted {us vs : List Token} (hsome : Listed .comma E us args)
        (hend : EndsArguments vs next) : (us ++ vs).headD next ≠ .closeParen ∧
          ∃ us' vs', us ++ vs = us' ++ vs' ∧ Listed .comma E us' args ∧ EndsArguments vs' next :=
      ⟨(begins_listed hbegins).headD_ne hsome id vs next, us, vs, rfl, hsome, hend⟩
    rintro (⟨rfl, hargs⟩ | ⟨-, hsome, hend⟩)
    · cases hargs with
      | none => exact Or.inl ⟨rfl, rfl, rfl⟩
      | some hsome =>
        rw [← List.append_nil ts]
        exact Or.inr (hlisted hsome (Or.inl ⟨rfl, endsExpression_closeParen, nofun⟩))
      | trailing hsome => exact Or.inr (hlisted hsome (Or.inr ⟨rfl, rfl⟩))
    · rw [← List.append_nil ts]
      exact Or.inr (hlisted hsome hend)

end

/-! ## Applications -/

/-- Atoms that begin with a token. -/
def AtomAt (E : Phrase Tree) (t : Token) : Language Tree :=
  fun ts next tree => Atom E ts tree ∧ ts.headD next = t

/-- The first token of an atom says what it is. -/
theorem atomAt_cases {E : Phrase Tree} {t next : Token} {ts : List Token} {tree : Tree}
    (h : AtomAt E t ts next tree) :
    (∃ n, t = .integer n ∧ ts = [.integer n] ∧ tree = .num (.int n)) ∨
      (∃ x, t = .float x ∧ ts = [.float x] ∧ tree = .num (.float x)) ∨
      (∃ id, t = .ident id ∧ ts = [.ident id] ∧ tree = .name id) ∨
      (t = .openParen ∧ Parenthesized E ts tree) := by
  obtain ⟨hatom, rfl⟩ := h
  cases hatom with
  | integer n => exact Or.inl ⟨n, rfl, rfl, rfl⟩
  | float x => exact Or.inr (Or.inl ⟨x, rfl, rfl, rfl⟩)
  | name id => exact Or.inr (Or.inr (Or.inl ⟨id, rfl, rfl, rfl⟩))
  | group hgroup =>
    refine Or.inr (Or.inr (Or.inr ⟨?_, hgroup⟩))
    cases hgroup
    rfl

/-- A token that is an atom by itself. -/
theorem reads_token {E : Phrase Tree} {t : Token} {tree : Tree} (ht : t ≠ .endOfInput)
    (hatom : Atom E [t] tree)
    (honly : ∀ {ts next tree'}, AtomAt E t ts next tree' → ts = [t] ∧ tree' = tree) :
    Reads (· = t) (advance.andThen fun _ => succeed tree) (AtomAt E t) := by
  refine ((Reads.advance ht).map fun _ => tree).congr fun ts next tree' => ?_
  constructor
  · rintro ⟨-, rfl, rfl⟩
    exact ⟨hatom, rfl⟩
  · intro h
    obtain ⟨rfl, rfl⟩ := honly h
    exact ⟨(), rfl, rfl⟩

section
variable {e : Rule Tree} {E : Phrase Tree}
  (h : Reads Anywhere e fun ts next t => E ts t ∧ EndsExpression next)
include h

theorem reads_group :
    Reads (· = .openParen) (advance.andThen fun _ => e.andThen fun inner =>
        (closing .group).andThen fun _ => succeed inner) (AtomAt E .openParen) := by
  have hparen := Reads.advance (t := .openParen) nofun
  refine (hparen.andThen (fun _ => Anywhere) (fun _ => reads_closed h .group id)
    fun _ => trivial).congr fun ts next t => ?_
  constructor
  · rintro ⟨-, -, -, rfl, rfl, us, t, rfl, ⟨hE, -⟩, rfl⟩
    exact ⟨.group (.mk hE), rfl⟩
  · intro hatom
    have hgroup : Parenthesized E ts t := by simpa using atomAt_cases hatom
    obtain ⟨hE⟩ := hgroup
    exact ⟨[.openParen], _, (), rfl, rfl, _, t, rfl, ⟨hE, endsExpression_closeParen⟩, rfl⟩

theorem reads_atom : Reads Anywhere (atom e) fun ts _ t => Atom E ts t := by
  have hpeek : Reads Anywhere (atom e) fun ts next => AtomAt E (ts.headD next) ts next := by
    unfold atom
    refine Reads.peekThen (M := AtomAt E) fun t _ => ?_
    cases t with
    | integer n =>
      exact reads_token nofun (.integer n) fun hatom => by simpa using atomAt_cases hatom
    | float x =>
      exact reads_token nofun (.float x) fun hatom => by simpa using atomAt_cases hatom
    | ident id =>
      exact reads_token nofun (.name id) fun hatom => by simpa using atomAt_cases hatom
    | openParen => exact reads_group h
    | _ =>
      refine (Reads.fail _).congr fun ts next t => iff_of_false not_false fun hatom => ?_
      simpa using atomAt_cases hatom
  exact hpeek.congr fun _ _ _ => and_iff_left rfl

end

/-- A phrase in parentheses, as a loop finds it. -/
theorem parenthesized_iff {α : Type} {p : Phrase α} {ts : List Token} {a : α} :
    Parenthesized p ts a ↔
      ∃ c, Behind (only .openParen) (Before p .closeParen) ts (c, a) := by
  constructor
  · rintro ⟨hp⟩
    exact ⟨(), .mk rfl (.mk hp)⟩
  · rintro ⟨c, ⟨ht, ⟨hp⟩⟩⟩
    rw [only_eq_some_iff.1 ht]
    exact .mk hp

section
variable {e : Rule Tree} {E : Phrase Tree} (hbegins : Begins E)
  (h : Reads Anywhere e fun ts next t => E ts t ∧ EndsExpression next)
include hbegins h

/-- One more list of arguments. -/
theorem reads_call (callee : Tree) :
    Reads Anywhere ((arguments e).andThen fun args =>
        (closing .arguments).andThen fun _ => succeed (Tree.call callee args))
      fun ts next t => ∃ args, (Before (Arguments E) .closeParen ts args ∧ Anywhere next) ∧
        t = Tree.call callee args := by
  refine (reads_closed (reads_arguments hbegins h) .arguments (Tree.call callee)).congr
    fun ts next t => ?_
  constructor
  · rintro ⟨us, args, rfl, ⟨-, hargs⟩ | ⟨hne, -⟩, rfl⟩
    · exact ⟨args, ⟨.mk hargs, trivial⟩, rfl⟩
    · exact absurd rfl hne
  · rintro ⟨args, ⟨⟨hargs⟩, -⟩, rfl⟩
    exact ⟨_, args, rfl, Or.inl ⟨rfl, hargs⟩, rfl⟩

theorem reads_application :
    Reads Anywhere (application e) fun ts next t => Application E ts t ∧ EndsApplication next := by
  have hatom : Reads Anywhere (atom e) fun ts next t => Atom E ts t ∧ Anywhere next :=
    (reads_atom h).congr fun _ _ _ => (and_iff_left trivial).symm
  have hstop (t : Token) (c : Unit) (_ : only .openParen t = some c) : Anywhere t := trivial
  have hmore (callee : Tree) := Reads.items hstop (fun callee x => Tree.call callee x.2) rfl
    (fun _ callee => reads_call hbegins h callee) callee
  refine (Reads.firstThen hstop hatom hmore).congr fun ts next t => ?_
  rw [only_eq_none_iff]
  constructor
  · rintro ⟨⟨us, vs, callee, xs, rfl, hcallee, hxs, rfl⟩, hnext, -⟩
    refine ⟨?_, hnext⟩
    rw [← List.foldl_map]
    exact .mk hcallee (many_behind_iff parenthesized_iff |>.2 ⟨xs, hxs, rfl⟩)
  · rintro ⟨⟨hcallee, hlists⟩, hnext⟩
    obtain ⟨xs, hxs, rfl⟩ := many_behind_iff parenthesized_iff |>.1 hlists
    rw [List.foldl_map]
    exact ⟨⟨_, _, _, xs, rfl, hcallee, hxs, rfl⟩, hnext, trivial⟩

end

/-! ## Expressions -/

theorem sumOperator_eq_some_iff {t : Token} {op : BinOp} :
    sumOperator t = some op ↔ SumOperator t op := by
  constructor
  · intro h
    cases t <;> cases h
    · exact .plus
    · exact .minus
  · rintro (_ | _) <;> rfl

theorem productOperator_eq_some_iff {t : Token} {op : BinOp} :
    productOperator t = some op ↔ ProductOperator t op := by
  constructor
  · intro h
    cases t <;> cases h
    · exact .star
    · exact .slash
    · exact .percent
  · rintro (_ | _ | _) <;> rfl

theorem endsApplication_of_product {t : Token} {op : BinOp} (h : ProductOperator t op) :
    EndsApplication t := by
  cases h <;> exact nofun

theorem endsProduct_of_sum {t : Token} {op : BinOp} (h : SumOperator t op) : EndsProduct t := by
  cases h <;> exact ⟨rfl, nofun⟩

/-- Expressions, by the room that is left for nesting. -/
theorem reads_expressionIn (room : Nat) :
    Reads Anywhere (expressionIn room) fun ts next t =>
      Phrase.expression room ts t ∧ EndsExpression next := by
  induction room with
  | zero => exact (Reads.fail _).congr fun ts next t => iff_of_false not_false And.left
  | succ room ih =>
    have happlication := reads_application (begins_expression room) ih
    have hproduct :=
      reads_chain productOperator_eq_some_iff rfl endsApplication_of_product happlication
    exact reads_chain sumOperator_eq_some_iff rfl endsProduct_of_sum hproduct

end Stacklet
