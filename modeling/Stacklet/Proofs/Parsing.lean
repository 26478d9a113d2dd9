/-
  Trees are read as the grammar says.

  * `statement_iff`: statements as lists between equals signs, the last of them
    a single expression;
  * `reads_statementOf`, `reads_blockOf`: what a statement and a block are read
    from, of any expressions, and that a block goes on to the end of input;
  * `ofTokens_eq_ok_iff`: the trees of token sequences are those of the grammar.
-/
import Stacklet.Proofs.Expressions

namespace Stacklet

open Rule Grammar Phrase

/-! ## Lists and their last items -/

section
variable {α : Type} {sep : Token} {item : Phrase α}

theorem listed_single {ts : List Token} {a : α} (h : item ts a) : Listed sep item ts [a] := by
  rw [← List.append_nil ts]
  exact .mk h .nil

theorem listed_cons {ts us : List Token} {a : α} {as : List α} (h : item ts a)
    (hrest : Listed sep item us as) : Listed sep item (ts ++ [sep] ++ us) (a :: as) := by
  obtain ⟨hfirst, hmany⟩ := hrest
  have hmore := Many.cons (After.mk (t := sep) hfirst) hmany
  rw [List.append_assoc]
  exact .mk h hmore

/-- The items of a list stand in front of separators, up to the last one. -/
theorem listed_iff {ts : List Token} {as : List α} :
    Listed sep item ts as ↔ ∃ us vs init last, ts = us ++ vs ∧ as = init ++ [last] ∧
      Many (Before item sep) us init ∧ item vs last := by
  constructor
  · rintro ⟨hfirst, hmany⟩
    rename_i ts us first rest
    induction hmany generalizing ts first with
    | nil => exact ⟨[], ts, [], first, List.append_nil ts, rfl, .nil, hfirst⟩
    | cons hx _ ih =>
      obtain ⟨hx⟩ := hx
      obtain ⟨us, vs, init, last, hus, has, hinit, hlast⟩ := ih hx
      refine ⟨ts ++ [sep] ++ us, vs, first :: init, last, ?_, congrArg (first :: ·) has,
        .cons (.mk hfirst) hinit, hlast⟩
      rw [List.append_assoc, ← hus, List.append_assoc]
      rfl
  · rintro ⟨us, vs, init, last, rfl, rfl, hinit, hlast⟩
    induction hinit with
    | nil => exact listed_single hlast
    | cons hx _ ih =>
      obtain ⟨hx⟩ := hx
      rw [List.append_assoc]
      exact listed_cons hx ih

theorem listed_single_iff {ts : List Token} {a : α} : Listed sep item ts [a] ↔ item ts a := by
  refine ⟨fun h => ?_, listed_single⟩
  obtain ⟨us, vs, init, last, rfl, has, hinit, hlast⟩ := listed_iff.1 h
  have has : [] ++ [a] = init ++ [last] := has
  obtain ⟨rfl, hlast'⟩ := List.append_inj' has rfl
  cases hinit
  cases hlast'
  exact hlast

end

/-! ## Statements -/

/-- The tree of a statement: a value alone, or assigned to lists. -/
def statementTree (lists : List (List Tree)) (value : Tree) : Tree :=
  if lists = [] then .expr value else .assign (lists.map .ofList) value

/-- A tree that lists stand for: the last of them is the value. -/
def IsTreeOf (lists : List (List Tree)) (tree : Tree) : Prop :=
  ∃ init value, lists = init ++ [[value]] ∧ tree = statementTree init value

theorem isTreeOf_append {init : List (List Tree)} {last : List Tree} {tree : Tree} :
    IsTreeOf (init ++ [last]) tree ↔ ∃ value, last = [value] ∧ tree = statementTree init value := by
  constructor
  · rintro ⟨init', value, hsplit, rfl⟩
    obtain ⟨rfl, hlast⟩ := List.append_inj' hsplit rfl
    exact ⟨value, List.head_eq_of_cons_eq hlast, rfl⟩
  · rintro ⟨value, rfl, rfl⟩
    exact ⟨init, value, rfl, rfl⟩

theorem not_isTreeOf_nil {tree : Tree} : ¬ IsTreeOf [] tree := by
  rintro ⟨init, value, hsplit, -⟩
  simp at hsplit

/-- Statements are lists between equals signs, the last one of length one. -/
theorem statementOf_iff {E : Phrase Tree} {ts : List Token} {tree : Tree} :
    StatementOf E ts tree ↔
      ∃ lists, Listed .assign (Listed .comma E) ts lists ∧ IsTreeOf lists tree := by
  constructor
  · intro h
    cases h with
    | value h => exact ⟨_, listed_single (listed_single h), [], _, rfl, rfl⟩
    | assignment hlists hne h =>
      refine ⟨_, listed_iff.2 ⟨_, _, _, _, rfl, rfl, hlists, listed_single h⟩,
        isTreeOf_append.2 ⟨_, rfl, ?_⟩⟩
      rw [statementTree, if_neg hne]
  · rintro ⟨lists, h, htree⟩
    obtain ⟨us, vs, init, last, rfl, rfl, hinit, hlast⟩ := listed_iff.1 h
    obtain ⟨value, rfl, rfl⟩ := isTreeOf_append.1 htree
    have hvalue := listed_single_iff.1 hlast
    unfold statementTree
    split
    · rename_i hnil
      subst hnil
      cases hinit
      exact .value hvalue
    · rename_i hne
      exact .assignment hinit hne hvalue

theorem statement_iff {ts : List Token} {tree : Tree} :
    Statement ts tree ↔ ∃ lists, Listed .assign ExpressionList ts lists ∧ IsTreeOf lists tree := by
  rw [statement_eq]
  exact statementOf_iff

/-- No statement is continued. -/
def EndsStatement (t : Token) : Prop := t ≠ .assign ∧ t ≠ .comma ∧ EndsExpression t

theorem begins_statementOf {E : Phrase Tree} (h : Begins E) : Begins (StatementOf E) := by
  intro ts tree next hstatement
  obtain ⟨lists, hlists, -⟩ := statementOf_iff.1 hstatement
  exact begins_listed (begins_listed h) _ _ next hlists

/-- The lists of a statement. -/
theorem reads_lists {e : Rule Tree} {E : Phrase Tree}
    (h : Reads Anywhere e fun ts next t => E ts t ∧ EndsExpression next) :
    Reads Anywhere (separated .assign (separated .comma e)) fun ts next lists =>
      Listed .assign (Listed .comma E) ts lists ∧ EndsStatement next := by
  have hassign : Token.assign ≠ .comma ∧ EndsExpression .assign := ⟨nofun, rfl, rfl, nofun⟩
  have hlist := reads_separated h .comma nofun (endsExpression_of_comma rfl)
  exact reads_separated hlist .assign nofun hassign

/-- The value of lists, if the last of them is single. -/
def statementValue (lists : List (List Tree)) : Rule Tree :=
  match lists.reverse with
  | [value] :: [] => return .expr value
  | [value] :: targets => return .assign (targets.reverse.map .ofList) value
  | _ => fail .tupleValue

/-- A statement of any expressions. -/
def statementOf (e : Rule Tree) : Rule Tree :=
  (separated .assign (separated .comma e)).andThen statementValue

theorem reads_statementOf {e : Rule Tree} {E : Phrase Tree}
    (h : Reads Anywhere e fun ts next t => E ts t ∧ EndsExpression next) :
    Reads Anywhere (statementOf e) fun ts next tree =>
      StatementOf E ts tree ∧ EndsStatement next := by
  unfold statementOf statementValue
  have hlists := reads_lists h
  refine (hlists.andThen (M := fun lists ts _ tree => ts = [] ∧ IsTreeOf lists tree)
    (fun _ => Anywhere) (fun lists => ?_) fun _ => trivial).congr fun ts next tree => ?_
  · -- by the last list, and by whether there are others
    obtain rfl | ⟨init, last, rfl⟩ := lists.eq_nil_or_concat
    · exact (Reads.fail _).congr fun ts next tree =>
        iff_of_false not_false fun h => not_isTreeOf_nil h.2
    simp only [List.concat_eq_append, List.reverse_append, List.reverse_singleton,
      List.singleton_append, isTreeOf_append]
    rcases last with _ | ⟨value, _ | ⟨value', values⟩⟩
    · exact (Reads.fail _).congr fun ts next tree => by simp
    · have hone : Reads Anywhere (succeed (statementTree init value)) fun ts next tree =>
          ts = [] ∧ ∃ value', [value] = [value'] ∧ tree = statementTree init value' :=
        (Reads.succeed _).congr fun ts next tree => by simp
      cases hinit : init.reverse with
      | nil =>
        obtain rfl := List.reverse_eq_nil_iff.1 hinit
        exact hone
      | cons t ts =>
        have htargets : (t :: ts).reverse = init := by rw [← hinit, List.reverse_reverse]
        have hne : init ≠ [] := by
          rintro rfl
          cases hinit
        rw [statementTree, if_neg hne] at hone
        simp only [htargets]
        exact hone
    · exact (Reads.fail _).congr fun ts next tree => by simp
  · rw [statementOf_iff]
    constructor
    · rintro ⟨us, _, lists, rfl, ⟨hlists, hend⟩, rfl, htree⟩
      rw [List.append_nil]
      exact ⟨⟨lists, hlists, htree⟩, hend⟩
    · rintro ⟨⟨lists, hlists, htree⟩, hend⟩
      exact ⟨ts, [], lists, (List.append_nil ts).symm, ⟨hlists, hend⟩, rfl, htree⟩

/-! ## Separators -/

theorem separator_eq_some_iff {t : Token} {c : Unit} : separator t = some c ↔ Separator t := by
  constructor
  · intro h
    cases t <;> cases h
    · exact .semicolon
    · exact .newline
  · rintro (_ | _) <;> rfl

theorem separator_eq_none_iff {t : Token} : separator t = none ↔ ¬ Separator t := by
  rw [← separator_eq_some_iff (c := ()), Option.eq_none_iff_forall_ne_some]
  exact ⟨fun h => h (), fun h _ => h⟩

theorem separators_cons {t : Token} {ts : List Token} :
    Separators (t :: ts) ↔ Separator t ∧ Separators ts :=
  List.forall_mem_cons

/-- Separators, as a loop finds them. -/
theorem separators_iff {ts : List Token} :
    Separators ts ↔ ∃ xs, Many (Behind separator fun us (_ : Unit) => us = []) ts xs := by
  constructor
  · intro h
    induction ts with
    | nil => exact ⟨[], .nil⟩
    | cons t ts ih =>
      obtain ⟨ht, hts⟩ := separators_cons.1 h
      obtain ⟨xs, hxs⟩ := ih hts
      exact ⟨((), ()) :: xs, .cons (.mk (separator_eq_some_iff.2 ht) rfl) hxs⟩
  · rintro ⟨xs, hxs⟩
    induction hxs with
    | nil => exact nofun
    | cons hx _ ih =>
      obtain ⟨ht, rfl⟩ := hx
      exact separators_cons.2 ⟨separator_eq_some_iff.1 ht, ih⟩

theorem endsStatement_of_separator {t : Token} (ht : Separator t) : EndsStatement t := by
  cases ht <;> exact ⟨nofun, nofun, rfl, rfl, nofun⟩

theorem endsStatement_endOfInput : EndsStatement .endOfInput := ⟨nofun, nofun, rfl, rfl, nofun⟩

theorem not_separator_of_begins {t : Token} (h : BeginsExpression t) : ¬ Separator t := by
  rintro (_ | _) <;> exact h

theorem reads_skipSeparators :
    Reads Anywhere skipSeparators fun ts next _ => Separators ts ∧ ¬ Separator next := by
  have hstop (t : Token) (c : Unit) (_ : separator t = some c) : Anywhere t := trivial
  have hround (c a : Unit) : Reads Anywhere (succeed ()) fun ts next (_ : Unit) =>
      ∃ b : Unit, (ts = [] ∧ Anywhere next) ∧ () = () :=
    (Reads.succeed ()).congr fun ts next b => by simp [Anywhere]
  have hloop := Reads.items hstop (fun _ _ => ()) rfl hround ()
  refine hloop.congr fun ts next a => ?_
  rw [separators_iff, separator_eq_none_iff]
  simp [Anywhere]

/-! ## Blocks -/

/-- A statement and separators in front of it. -/
def LedStatement (E : Phrase Tree) : Phrase Tree :=
  fun ts tree => ∃ seps us, ts = seps ++ us ∧ Separators seps ∧ StatementOf E us tree

/-- `statement (separator+ statement)* separator*` -/
inductive StatementsOf (E : Phrase Tree) : Phrase Tree
  | mk {us vs seps first rest} : StatementOf E us first → Many (NextStatementOf E) vs rest →
      Separators seps → StatementsOf E (us ++ (vs ++ seps)) (.block (first :: rest))

theorem nextStatementOf_iff {E : Phrase Tree} {ts : List Token} {tree : Tree} :
    NextStatementOf E ts tree ↔ ∃ c, Behind separator (LedStatement E) ts (c, tree) := by
  constructor
  · rintro ⟨ht, hseps, hstatement⟩
    exact ⟨(), .mk (separator_eq_some_iff.2 ht) ⟨_, _, rfl, hseps, hstatement⟩⟩
  · rintro ⟨c, ⟨ht, ⟨seps, us, rfl, hseps, hstatement⟩⟩⟩
    exact .mk (separator_eq_some_iff.1 ht) hseps hstatement

/-- A round of the loop over statements: separators and one more of them, or
    only separators in front of the end of input. -/
def statementRound (e : Rule Tree) (found : Array Tree) : Rule (Array Tree) :=
  skipSeparators.andThen fun _ => peek.andThen fun t =>
    if t = .endOfInput then succeed found
    else (statementOf e).andThen fun tree => succeed (found.push tree)

/-- The end of a block. -/
def blockEnd (all : Array Tree) : Rule Tree :=
  peek.andThen fun
    | .endOfInput => succeed (.block all.toList)
    | found => fail (.expectedEndOfStatement found)

/-- A block from its first statement on. -/
def statementsOf (e : Rule Tree) : Rule Tree :=
  (statementOf e).andThen fun first =>
    (loop separator (fun _ => statementRound e) #[first]).andThen blockEnd

/-- A block of any expressions. -/
def blockOf (e : Rule Tree) : Rule Tree :=
  skipSeparators.andThen fun _ => peek.andThen fun t =>
    if t = .endOfInput then succeed (.block []) else statementsOf e

theorem block_eq_blockOf : block = blockOf expression := rfl

theorem reads_blockEnd (all : Array Tree) :
    Reads Anywhere (blockEnd all) fun ts next tree =>
      ts.headD next = .endOfInput ∧ ts = [] ∧ tree = .block all.toList := by
  refine Reads.peekThen
    (M := fun t ts _ tree => t = .endOfInput ∧ ts = [] ∧ tree = Tree.block all.toList) fun t _ => ?_
  cases t
  case endOfInput =>
    exact (Reads.succeed _).weaken.congr fun ts next tree => (and_iff_right rfl).symm
  all_goals exact (Reads.fail _).congr fun ts next tree => by simp

theorem endsStatement_headD {E : Phrase Tree} {us seps : List Token} {rest : List Tree}
    (hrest : Many (NextStatementOf E) us rest) (hseps : Separators seps) :
    EndsStatement ((us ++ seps).headD .endOfInput) := by
  cases hrest with
  | nil =>
    cases seps with
    | nil => exact endsStatement_endOfInput
    | cons t seps => exact endsStatement_of_separator (separators_cons.1 hseps).1
  | cons h _ =>
    obtain ⟨ht, -, -⟩ := h
    exact endsStatement_of_separator ht

section
variable {e : Rule Tree} {E : Phrase Tree} (hbegins : Begins E)
  (h : Reads Anywhere e fun ts next t => E ts t ∧ EndsExpression next)
include hbegins h

theorem reads_statementRound (found : Array Tree) :
    Reads Anywhere (statementRound e found) fun ts next all =>
      (∃ tree, LedStatement E ts tree ∧ EndsStatement next ∧ all = found.push tree) ∨
        (Separators ts ∧ next = .endOfInput ∧ all = found) := by
  have hrest := Reads.ifNext (t := .endOfInput) (.succeed found)
    ((reads_statementOf h).map found.push)
  refine (reads_skipSeparators.andThen (fun _ => Anywhere) (fun _ => hrest) fun _ => trivial).congr
    fun ts next all => ?_
  constructor
  · rintro ⟨us, vs, -, rfl, ⟨hseps, -⟩, ⟨hnext, rfl, rfl⟩ | ⟨-, tree, ⟨hstatement, hend⟩, rfl⟩⟩
    · rw [List.append_nil]
      exact Or.inr ⟨hseps, hnext, rfl⟩
    · exact Or.inl ⟨tree, ⟨us, vs, rfl, hseps, hstatement⟩, hend, rfl⟩
  · rintro (⟨tree, ⟨us, vs, rfl, hseps, hstatement⟩, hend, rfl⟩ | ⟨hseps, rfl, rfl⟩)
    · have hfirst := begins_statementOf hbegins vs tree next hstatement
      exact ⟨us, vs, (), rfl, ⟨hseps, not_separator_of_begins hfirst⟩,
        Or.inr ⟨hfirst.ne id, tree, ⟨hstatement, hend⟩, rfl⟩⟩
    · exact ⟨ts, [], (), (List.append_nil ts).symm, ⟨hseps, nofun⟩, Or.inl ⟨rfl, rfl, rfl⟩⟩

/-- All statements from the second on. Separators behind the last one are taken
    only in front of the end of input. -/
theorem reads_moreStatements (first : Tree) :
    Reads EndsStatement (loop separator (fun _ => statementRound e) #[first])
      fun ts next all => ∃ us seps rest, ts = us ++ seps ∧ Many (NextStatementOf E) us rest ∧
        all.toList = first :: rest ∧ Separators seps ∧
        (next = .endOfInput ∨ seps = [] ∧ EndsStatement next ∧ ¬ Separator next) := by
  have hloop := Reads.loop rfl (LedStatement E) Separators (fun all x => all.push x.2) .endOfInput
    rfl (fun _ => reads_statementRound hbegins h)
    (fun _ _ ht => endsStatement_of_separator (separator_eq_some_iff.1 ht)) #[first]
  refine hloop.congr fun ts next all => ?_
  constructor
  · rintro ⟨us, vs, xs, rfl, hmany, rfl, hend⟩
    have hall := toList_foldl_push #[first] xs
    have hrest := many_behind_iff nextStatementOf_iff |>.2 ⟨xs, hmany, rfl⟩
    rcases hend with ⟨rfl, hends, hnone⟩ | ⟨rfl, t, c, ws, hc, rfl, hws⟩
    · exact ⟨us, [], _, rfl, hrest, hall, nofun,
        Or.inr ⟨rfl, hends, separator_eq_none_iff.1 hnone⟩⟩
    · exact ⟨us, _, _, rfl, hrest, hall,
        separators_cons.2 ⟨separator_eq_some_iff.1 hc, hws⟩, Or.inl rfl⟩
  · rintro ⟨us, seps, rest, rfl, hrest, hall, hseps, hend⟩
    obtain ⟨xs, hmany, rfl⟩ := many_behind_iff nextStatementOf_iff |>.1 hrest
    refine ⟨us, seps, xs, rfl, hmany, ?_, ?_⟩
    · rw [← Array.toList_inj, hall, toList_foldl_push]
      rfl
    · cases seps with
      | nil =>
        rcases hend with rfl | ⟨-, hends, hnone⟩
        · exact Or.inl ⟨rfl, endsStatement_endOfInput, rfl⟩
        · exact Or.inl ⟨rfl, hends, separator_eq_none_iff.2 hnone⟩
      | cons t seps =>
        obtain ⟨ht, hseps⟩ := separators_cons.1 hseps
        rcases hend with rfl | ⟨hnil, -⟩
        · exact Or.inr ⟨rfl, t, (), seps, separator_eq_some_iff.2 ht, rfl, hseps⟩
        · cases hnil

theorem reads_statementsOf :
    Reads Anywhere (statementsOf e) fun ts next tree =>
      next = .endOfInput ∧ StatementsOf E ts tree := by
  have hmore (first : Tree) := (reads_moreStatements hbegins h first).andThen (fun _ => Anywhere)
    reads_blockEnd fun _ => trivial
  refine ((reads_statementOf h).andThen (fun _ => EndsStatement) hmore fun h => h.2).congr
    fun ts next tree => ?_
  constructor
  · rintro ⟨us, _, first, rfl, ⟨hfirst, -⟩, _, _, all, rfl,
      ⟨vs, seps, rest, rfl, hrest, hall, hseps, -⟩, hnext, rfl, rfl⟩
    rw [List.append_nil, hall]
    exact ⟨hnext, .mk hfirst hrest hseps⟩
  · rintro ⟨rfl, @⟨us, vs, seps, first, rest, hfirst, hrest, hseps⟩⟩
    exact ⟨us, _, first, rfl, ⟨hfirst, endsStatement_headD hrest hseps⟩, _, [],
      (first :: rest).toArray, (List.append_nil _).symm,
      ⟨vs, seps, rest, rfl, hrest, rfl, hseps, Or.inl rfl⟩, rfl, rfl, rfl⟩

theorem reads_blockOf :
    Reads Anywhere (blockOf e) fun ts next tree => next = .endOfInput ∧ BlockOf E ts tree := by
  have hrest := Reads.ifNext (t := .endOfInput) (.succeed (.block []))
    (reads_statementsOf hbegins h)
  refine (reads_skipSeparators.andThen (fun _ => Anywhere) (fun _ => hrest) fun _ => trivial).congr
    fun ts next tree => ?_
  constructor
  · rintro ⟨seps, _, -, rfl, ⟨hseps, -⟩,
      ⟨hnext, rfl, rfl⟩ | ⟨-, rfl, ⟨hfirst, hrest, hseps'⟩⟩⟩
    · rw [List.append_nil]
      exact ⟨hnext, .blank hseps⟩
    · exact ⟨rfl, .mk hseps hfirst hrest hseps'⟩
  · rintro ⟨rfl, hblock⟩
    cases hblock with
    | blank hseps =>
      exact ⟨ts, [], (), (List.append_nil ts).symm, ⟨hseps, nofun⟩, Or.inl ⟨rfl, rfl, rfl⟩⟩
    | mk hseps hfirst hrest hseps' =>
      rename_i seps us vs seps' first rest
      have hstart := begins_append (fun next => begins_statementOf hbegins us first next hfirst)
        (vs ++ seps') .endOfInput
      exact ⟨seps, _, (), rfl, ⟨hseps, not_separator_of_begins hstart⟩,
        Or.inr ⟨hstart.ne id, rfl, .mk hfirst hrest hseps'⟩⟩

end

theorem reads_block :
    Reads Anywhere block fun ts next tree => next = .endOfInput ∧ Block ts tree := by
  rw [block_eq_blockOf, block_eq]
  exact reads_blockOf (begins_expression maxNesting) (reads_expressionIn maxNesting)

/-- What is read from a token sequence is the tree of the block in front of its
    end of input. -/
theorem block_of_ofTokens {tokens : List PlacedToken} {tree : Tree}
    (h : Tree.ofTokens tokens = .ok tree) :
    Block ((tokens.map PlacedToken.token).takeWhile (· ≠ .endOfInput)) tree := by
  rcases hr : block.read (.ofTokens tokens) with ⟨result, s⟩
  rw [Tree.ofTokens, Tree.ofStream, hr] at h
  obtain rfl : result = .ok tree := h
  obtain ⟨ts, hts, hs, hblock⟩ := reads_block.sound trivial hr
  rw [TokenStream.tokens_eq_nil hs, List.append_nil] at hts
  have hblock : Block (TokenStream.ofTokens tokens).tokens tree := hts ▸ hblock
  exact hblock

/-- **The trees of token sequences.** A token sequence has a tree iff the tokens
    in front of its end of input are a block, and then it has the tree that the
    grammar gives to the block. -/
theorem ofTokens_eq_ok_iff {tokens : List PlacedToken} {tree : Tree} :
    Tree.ofTokens tokens = .ok tree ↔
      Block ((tokens.map PlacedToken.token).takeWhile (· ≠ .endOfInput)) tree := by
  constructor
  · exact block_of_ofTokens
  · intro h
    obtain ⟨s, hr, -⟩ := reads_block.complete (s := .ofTokens tokens) trivial
      (List.append_nil _).symm ⟨rfl, h⟩
    rw [Tree.ofTokens, Tree.ofStream, hr]

end Stacklet
