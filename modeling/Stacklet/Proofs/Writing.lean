/-
  Trees written as source text.

  A block is written in two steps. Its tokens are those of its statements, with
  separators between them; an expression stands in parentheses only where it
  would otherwise be grouped another way (`Tree.tokens`). The tokens are then
  spelled, each in any way that spells it and with any gaps (`Spells`).

  * `Tree.IsStatement`: the statements that can be written;
  * `IsWritten`: the texts of a block;
  * `exists_isWritten`: a block of such statements has a text.
-/
import Stacklet.Proofs.Lexemes
import Stacklet.Proofs.Phrases

namespace Stacklet

/-! ## Trees that can be written -/

/-- A name as source text has it. -/
def IsIdent (id : String) : Prop :=
  ∃ c more, id.toList = c :: more ∧ isIdentStart c ∧ ∀ d ∈ more, isIdentChar d

namespace Tree

/-- An expression of names, numbers, operations and calls. There is no sign, and
    a double is one that some characters spell. -/
inductive IsExpression : Tree → Prop
  | name {id} : IsIdent id → IsExpression (.name id)
  | int {n : Int64} : 0 ≤ n.toInt → IsExpression (.num (.int n))
  | float {x lexeme} : Spelling lexeme (.float x) → IsExpression (.num (.float x))
  | binary {left op right} : IsExpression left → IsExpression right →
      IsExpression (.binary left op right)
  | call {callee args} : IsExpression callee → (∀ arg ∈ args, IsExpression arg) →
      IsExpression (.call callee args)

end Tree

namespace Target

/-- A target that is one expression; if that is a name, it is a name target. -/
inductive IsPlain : Target → Prop
  | name {id} : IsIdent id → IsPlain (.name id)
  | expr {t : Tree} : t.IsExpression → (∀ id, t ≠ .name id) → IsPlain (.expr t)

/-- A target that is one expression, or a tuple of two or more. -/
inductive IsTarget : Target → Prop
  | plain {t} : IsPlain t → IsTarget t
  | tuple {items} : 2 ≤ items.length → (∀ t ∈ items, IsPlain t) → IsTarget (.tuple items)

/-- The expression that a target is, if it is no tuple. -/
def tree? : Target → Option Tree
  | .name id => some (.name id)
  | .expr t => some t
  | .tuple _ => none

/-- The expressions of a target. -/
def parts : Target → List Tree
  | .tuple items => items.filterMap tree?
  | t => t.tree?.toList

end Target

/-- An expression, or an assignment to one target or more. -/
inductive Tree.IsStatement : Tree → Prop
  | expr {value : Tree} : value.IsExpression → IsStatement (.expr value)
  | assign {targets value} : targets ≠ [] → (∀ t ∈ targets, Target.IsTarget t) →
      value.IsExpression → IsStatement (.assign targets value)

/-! ## Targets and their expressions -/

theorem Target.IsPlain.tree?_spec {t : Target} (h : t.IsPlain) :
    ∃ e : Tree, t.tree? = some e ∧ Target.ofTree e = t ∧ e.IsExpression := by
  cases h with
  | name h => exact ⟨_, rfl, rfl, .name h⟩
  | @expr e h hne =>
    refine ⟨e, rfl, ?_, h⟩
    cases h with
    | name => exact absurd rfl (hne _)
    | int | float | binary | call => rfl

theorem map_ofTree_filterMap {items : List Target} (h : ∀ t ∈ items, t.IsPlain) :
    (items.filterMap Target.tree?).map Target.ofTree = items ∧
      ∀ e ∈ items.filterMap Target.tree?, e.IsExpression := by
  induction items with
  | nil => exact ⟨rfl, nofun⟩
  | cons t items ih =>
    obtain ⟨ht, hitems⟩ := List.forall_mem_cons.1 h
    obtain ⟨e, he, rfl, hexpr⟩ := ht.tree?_spec
    obtain ⟨hmap, hexprs⟩ := ih hitems
    rw [List.filterMap_cons_some he, List.map_cons, hmap]
    exact ⟨rfl, List.forall_mem_cons.2 ⟨hexpr, hexprs⟩⟩

/-- A target is what its expressions stand for. -/
theorem Target.IsTarget.parts_spec {t : Target} (h : t.IsTarget) :
    t.parts ≠ [] ∧ Target.ofList t.parts = t ∧ ∀ e ∈ t.parts, e.IsExpression := by
  cases h with
  | plain h =>
    obtain ⟨e, he, hof, hexpr⟩ := h.tree?_spec
    have hparts : t.parts = [e] := by
      cases h <;> exact congrArg Option.toList he
    rw [hparts]
    exact ⟨List.cons_ne_nil _ _, hof, List.forall_mem_singleton.2 hexpr⟩
  | @tuple items hlength h =>
    obtain ⟨hmap, hexprs⟩ := map_ofTree_filterMap h
    rw [parts]
    have hparts : 2 ≤ (items.filterMap tree?).length := by
      rwa [← List.length_map Target.ofTree, hmap]
    generalize items.filterMap tree? = parts at hmap hexprs hparts
    rcases parts with _ | ⟨e, _ | ⟨e', es⟩⟩
    · exact absurd hparts (by decide)
    · exact absurd hparts (by simp)
    · exact ⟨List.cons_ne_nil _ _, congrArg Target.tuple hmap, hexprs⟩

/-! ## Tokens of trees -/

def BinOp.token : BinOp → Token
  | add => .plus
  | sub => .minus
  | mul => .star
  | div => .slash
  | mod => .percent

/-- The level of operations: sums `0`, products `1`. -/
def BinOp.level : BinOp → Nat
  | add | sub => 0
  | mul | div | mod => 1

/-- Tokens in parentheses, where these are needed. -/
def grouped (needed : Bool) (ts : List Token) : List Token :=
  if needed then .openParen :: (ts ++ [.closeParen]) else ts

/-- Tokens with commas between them. -/
def listed : List (List Token) → List Token
  | [] => []
  | ts :: lists => ts ++ lists.flatMap (.comma :: ·)

namespace Tree

mutual

/-- The tokens of an expression where operations of a `level` and above may
    stand without parentheses. The right operand must be of a higher level
    than its operation, a callee is of the level above all operations. -/
def tokens (level : Nat) : Tree → List Token
  | .name id => [.ident id]
  | .num (.int n) => [.integer n]
  | .num (.float x) => [.float x]
  | .binary left op right =>
    grouped (op.level < level)
      (left.tokens op.level ++ op.token :: right.tokens (op.level + 1))
  | .call callee args =>
    callee.tokens 2 ++ .openParen :: (listed (tokensOfEach args) ++ [.closeParen])
  | _ => []

def tokensOfEach : List Tree → List (List Token)
  | [] => []
  | t :: ts => t.tokens 0 :: tokensOfEach ts

end

mutual

/-- How many expressions nest in the tokens of an expression, not counting
    itself: what stands in parentheses and what is an argument is one. -/
def nesting (level : Nat) : Tree → Nat
  | .binary left op right =>
    max (left.nesting op.level) (right.nesting (op.level + 1)) + if op.level < level then 1 else 0
  | .call callee args => max (callee.nesting 2) (nestingOfEach args)
  | _ => 0

/-- The same of arguments, counting them. -/
def nestingOfEach : List Tree → Nat
  | [] => 0
  | t :: ts => max (t.nesting 0 + 1) (nestingOfEach ts)

end

/-- The expressions of which a statement consists. -/
def wholes : Tree → List Tree
  | .expr value => [value]
  | .assign targets value => targets.flatMap Target.parts ++ [value]
  | _ => []

/-- The tokens of a statement. -/
def statementTokens : Tree → List Token
  | .expr value => value.tokens 0
  | .assign targets value =>
    targets.flatMap (fun t => listed (t.parts.map (tokens 0)) ++ [.assign]) ++ value.tokens 0
  | _ => []

end Tree

/-- Statements, each behind one separator or more, and perhaps separators at the
    end. -/
inductive Following : List Tree → List Token → Prop
  | done {seps} : Phrase.Separators seps → Following [] seps
  | next {sep seps s body ts} : Phrase.Separator sep → Phrase.Separators seps →
      Following body ts → Following (s :: body) (sep :: (seps ++ (s.statementTokens ++ ts)))

/-- The tokens of a block: its statements with separators between them, and
    perhaps in front of the first and behind the last. -/
inductive Writes : List Tree → List Token → Prop
  | blank {seps} : Phrase.Separators seps → Writes [] seps
  | mk {seps s body ts} : Phrase.Separators seps → Following body ts →
      Writes (s :: body) (seps ++ (s.statementTokens ++ ts))

/-! ## Texts of tokens -/

/-- Inside `depth` parentheses, a text spells the tokens one behind the other,
    with gaps around them. -/
inductive Spells : (depth : Nat) → List Token → List Char → Prop
  | nil {depth gap} : Gap depth [] gap → Spells depth [] gap
  | cons {depth gap lexeme behind t ts} : Gap depth (lexeme ++ behind) gap → Spelling lexeme t →
      Spells (t.depthPast depth) ts behind → Spells depth (t :: ts) (gap ++ (lexeme ++ behind))

/-- The text is one of the block of these statements. -/
def IsWritten (body : List Tree) (text : String) : Prop :=
  ∃ ts, Writes body ts ∧ Spells 0 ts text.toList

/-! ## Every block has a text -/

/-- Some characters spell the token. -/
def Token.IsSpelled (t : Token) : Prop := ∃ lexeme, Spelling lexeme t

theorem isSpelled_ident {id : String} (h : IsIdent id) : (Token.ident id).IsSpelled := by
  obtain ⟨c, more, hid, hc, hmore⟩ := h
  refine ⟨id.toList, ?_⟩
  have hspelling := Spelling.ident hc hmore
  rwa [← hid, String.ofList_toList] at hspelling

theorem valueOf_toDigits (n : Nat) : valueOf (Nat.toDigits 10 n) = n :=
  Nat.ofDigitChars_ten_toDigits

/-- The decimal digits of an integer spell it. -/
theorem spelling_toDigits {n : Int64} {k : Nat} (h : n.toInt = k) :
    Spelling (Nat.toDigits 10 k) (.integer n) := by
  obtain ⟨c, more, hdigits⟩ := List.exists_cons_of_ne_nil (Nat.toDigits_ne_nil (b := 10) (n := k))
  have hdigit (d : Char) (hd : d ∈ c :: more) : d.isDigit :=
    Nat.isDigit_of_mem_toDigits (by decide) le_rfl (hdigits ▸ hd)
  rw [hdigits]
  refine .integer (hdigit c List.mem_cons_self)
    (fun d hd => isNumberChar_of_isDigit (hdigit d (List.mem_cons_of_mem c hd))) ?_
  rw [h, digitsOf, List.filter_eq_self.2 hdigit, ← hdigits, valueOf_toDigits]

/-- An integer that is not negative is spelled. -/
theorem isSpelled_integer {n : Int64} (h : 0 ≤ n.toInt) : (Token.integer n).IsSpelled := by
  obtain ⟨k, hk⟩ := Int.eq_ofNat_of_zero_le h
  exact ⟨_, spelling_toDigits hk⟩

theorem isSpelled_symbol {c : Char} {t : Token} (h : symbol? c = some t) : t.IsSpelled :=
  ⟨[c], .symbol h⟩

theorem isSpelled_binOp (op : BinOp) : op.token.IsSpelled := by
  cases op
  · exact isSpelled_symbol (c := '+') rfl
  · exact isSpelled_symbol (c := '-') rfl
  · exact isSpelled_symbol (c := '*') rfl
  · exact isSpelled_symbol (c := '/') rfl
  · exact isSpelled_symbol (c := '%') rfl

theorem isSpelled_separator {t : Token} (h : Phrase.Separator t) : t.IsSpelled := by
  cases h with
  | newline => exact isSpelled_symbol (c := '\n') rfl
  | semicolon => exact isSpelled_symbol (c := ';') rfl

/-- Some text spells tokens each of which some characters spell. -/
theorem exists_spells {ts : List Token} (h : ∀ t ∈ ts, t.IsSpelled) (depth : Nat) :
    ∃ text, Spells depth ts text := by
  induction ts generalizing depth with
  | nil => exact ⟨[], .nil .nil⟩
  | cons t ts ih =>
    obtain ⟨ht, hts⟩ := List.forall_mem_cons.1 h
    obtain ⟨lexeme, hlexeme⟩ := ht
    obtain ⟨behind, hbehind⟩ := ih hts (t.depthPast depth)
    exact ⟨_, .cons .nil hlexeme hbehind⟩

theorem isSpelled_parenthesized {ts : List Token} (h : ∀ t ∈ ts, t.IsSpelled) :
    ∀ t ∈ .openParen :: (ts ++ [.closeParen]), t.IsSpelled := by
  have hopen : Token.openParen.IsSpelled := isSpelled_symbol (c := '(') rfl
  have hclose : Token.closeParen.IsSpelled := isSpelled_symbol (c := ')') rfl
  exact List.forall_mem_cons.2 ⟨hopen,
    List.forall_mem_append.2 ⟨h, List.forall_mem_singleton.2 hclose⟩⟩

theorem isSpelled_grouped {needed : Bool} {ts : List Token} (h : ∀ t ∈ ts, t.IsSpelled) :
    ∀ t ∈ grouped needed ts, t.IsSpelled := by
  unfold grouped
  split
  · exact isSpelled_parenthesized h
  · exact h

theorem isSpelled_listed {lists : List (List Token)} (h : ∀ ts ∈ lists, ∀ t ∈ ts, t.IsSpelled) :
    ∀ t ∈ listed lists, t.IsSpelled := by
  have hcomma : Token.comma.IsSpelled := isSpelled_symbol (c := ',') rfl
  cases lists with
  | nil => exact nofun
  | cons ts lists =>
    obtain ⟨hts, hlists⟩ := List.forall_mem_cons.1 h
    refine List.forall_mem_append.2 ⟨hts, fun t ht => ?_⟩
    obtain ⟨us, hus, ht⟩ := List.mem_flatMap.1 ht
    rcases List.mem_cons.1 ht with rfl | ht
    · exact hcomma
    · exact hlists us hus t ht

theorem tokensOfEach_eq (ts : List Tree) : Tree.tokensOfEach ts = ts.map (Tree.tokens 0) := by
  induction ts with
  | nil => rfl
  | cons t ts ih => rw [Tree.tokensOfEach, ih, List.map_cons]

theorem Tree.IsExpression.isSpelled {e : Tree} (h : e.IsExpression) (level : Nat) :
    ∀ t ∈ e.tokens level, t.IsSpelled := by
  induction h generalizing level with
  | name h => exact List.forall_mem_singleton.2 (isSpelled_ident h)
  | int h => exact List.forall_mem_singleton.2 (isSpelled_integer h)
  | float h => exact List.forall_mem_singleton.2 ⟨_, h⟩
  | binary _ _ ihl ihr =>
    exact isSpelled_grouped (List.forall_mem_append.2
      ⟨ihl _, List.forall_mem_cons.2 ⟨isSpelled_binOp _, ihr _⟩⟩)
  | call _ _ ihc ihargs =>
    have hargs := isSpelled_listed (List.forall_mem_map.2 fun arg harg => ihargs arg harg 0)
    rw [Tree.tokens, tokensOfEach_eq]
    exact List.forall_mem_append.2 ⟨ihc 2, isSpelled_parenthesized hargs⟩

theorem Tree.IsStatement.isSpelled {s : Tree} (h : s.IsStatement) :
    ∀ t ∈ s.statementTokens, t.IsSpelled := by
  cases h with
  | expr h => exact h.isSpelled 0
  | assign _ htargets h =>
    refine List.forall_mem_append.2 ⟨fun t ht => ?_, h.isSpelled 0⟩
    obtain ⟨target, htarget, ht⟩ := List.mem_flatMap.1 ht
    obtain ⟨-, -, hparts⟩ := (htargets target htarget).parts_spec
    have hlist := isSpelled_listed (List.forall_mem_map.2 fun e he => (hparts e he).isSpelled 0)
    exact List.forall_mem_append.2 ⟨hlist, List.forall_mem_singleton.2
      (isSpelled_symbol (c := '=') rfl)⟩ t ht

/-- Statements follow one another with a line end between them. -/
theorem exists_following {body : List Tree} (h : ∀ s ∈ body, s.IsStatement) :
    ∃ ts, Following body ts ∧ ∀ t ∈ ts, t.IsSpelled := by
  have hnone : Phrase.Separators [] := nofun
  induction body with
  | nil => exact ⟨[], .done hnone, nofun⟩
  | cons s body ih =>
    obtain ⟨hs, hbody⟩ := List.forall_mem_cons.1 h
    obtain ⟨ts, hts, hspelled⟩ := ih hbody
    refine ⟨_, .next .newline hnone hts, List.forall_mem_cons.2
      ⟨isSpelled_separator .newline, ?_⟩⟩
    rw [List.nil_append]
    exact List.forall_mem_append.2 ⟨hs.isSpelled, hspelled⟩

theorem exists_writes {body : List Tree} (h : ∀ s ∈ body, s.IsStatement) :
    ∃ ts, Writes body ts ∧ ∀ t ∈ ts, t.IsSpelled := by
  have hnone : Phrase.Separators [] := nofun
  cases body with
  | nil => exact ⟨[], .blank hnone, nofun⟩
  | cons s body =>
    obtain ⟨hs, hbody⟩ := List.forall_mem_cons.1 h
    obtain ⟨ts, hts, hspelled⟩ := exists_following hbody
    refine ⟨_, .mk hnone hts, ?_⟩
    rw [List.nil_append]
    exact List.forall_mem_append.2 ⟨hs.isSpelled, hspelled⟩

/-- Every block of statements that can be written has a text. -/
theorem exists_isWritten {body : List Tree} (h : ∀ s ∈ body, s.IsStatement) :
    ∃ text, IsWritten body text := by
  obtain ⟨ts, hts, hspelled⟩ := exists_writes h
  obtain ⟨text, htext⟩ := exists_spells hspelled 0
  exact ⟨String.ofList text, ts, hts, by rwa [String.toList_ofList]⟩

end Stacklet
