/-
  The grammar as a relation between tokens and trees.

  A `Phrase` says which token sequences stand for which values; there are no
  streams, no positions and no order of reading. The grammar is

      block       := separator* [statement (separator+ statement)* separator*]
      separator   := line end | ';'
      statement   := (list '=')* expression
      list        := expression (',' expression)*
      expression  := product (('+' | '-') product)*
      product     := application (('*' | '/' | '%') application)*
      application := atom ('(' [expression (',' expression)* [',']] ')')*
      atom        := integer | float | identifier | '(' expression ')'

  where chains group to the left and parentheses leave no node
  (`Phrase.Block`). `Phrase.expression room` are the expressions that nest at
  most `room` deep, themselves included; the blocks of other expressions are
  `Phrase.BlockOf`. What holds of the values of a phrase (`Phrase.Yields`) is shown
  phrase by phrase.
-/
import Stacklet.Tree.Grammar

namespace Stacklet

/-- Which token sequences stand for which values. -/
abbrev Phrase (α : Type) : Type := List Token → α → Prop

namespace Phrase
variable {α : Type}

/-! ## Repetition -/

/-- `phrase*` -/
inductive Many (p : Phrase α) : Phrase (List α)
  | nil : Many p [] []
  | cons {ts us a as} : p ts a → Many p us as → Many p (ts ++ us) (a :: as)

theorem Many.single {p : Phrase α} {ts : List Token} {a : α} (h : p ts a) : Many p ts [a] := by
  rw [← List.append_nil ts]
  exact .cons h .nil

theorem Many.append {p : Phrase α} {us vs : List Token} {as bs : List α} (h : Many p us as)
    (h' : Many p vs bs) : Many p (us ++ vs) (as ++ bs) := by
  induction h with
  | nil => exact h'
  | cons ha _ ih =>
    rw [List.append_assoc]
    exact .cons ha ih

/-- A phrase behind a token. -/
inductive After (t : Token) (p : Phrase α) : Phrase α
  | mk {ts a} : p ts a → After t p (t :: ts) a

/-- A phrase in front of a token. -/
inductive Before (p : Phrase α) (t : Token) : Phrase α
  | mk {ts a} : p ts a → Before p t (ts ++ [t]) a

/-- `item (separator item)*` -/
inductive Listed (separator : Token) (item : Phrase α) : Phrase (List α)
  | mk {ts us first rest} : item ts first → Many (After separator item) us rest →
      Listed separator item (ts ++ us) (first :: rest)

/-- `'(' phrase ')'` -/
inductive Parenthesized (p : Phrase α) : Phrase α
  | mk {ts a} : p ts a → Parenthesized p (.openParen :: (ts ++ [.closeParen])) a

/-! ## Expressions -/

/-- `'+' | '-'` -/
inductive SumOperator : Token → BinOp → Prop
  | plus : SumOperator .plus .add
  | minus : SumOperator .minus .sub

/-- `'*' | '/' | '%'` -/
inductive ProductOperator : Token → BinOp → Prop
  | star : ProductOperator .star .mul
  | slash : ProductOperator .slash .div
  | percent : ProductOperator .percent .mod

/-- `operator operand` -/
inductive Operated (operator : Token → BinOp → Prop) (operand : Phrase Tree) :
    Phrase (BinOp × Tree)
  | mk {t op ts right} : operator t op → operand ts right →
      Operated operator operand (t :: ts) (op, right)

/-- `operand (operator operand)*`, grouped to the left. -/
inductive Chain (operator : Token → BinOp → Prop) (operand : Phrase Tree) : Phrase Tree
  | mk {ts us first rest} : operand ts first → Many (Operated operator operand) us rest →
      Chain operator operand (ts ++ us)
        (rest.foldl (fun left next => .binary left next.1 next.2) first)

/-- `[expression (',' expression)* [',']]` -/
inductive Arguments (e : Phrase Tree) : Phrase (List Tree)
  | none : Arguments e [] []
  | some {ts args} : Listed .comma e ts args → Arguments e ts args
  | trailing {ts args} : Listed .comma e ts args → Arguments e (ts ++ [.comma]) args

/-- `integer | float | identifier | '(' expression ')'` -/
inductive Atom (e : Phrase Tree) : Phrase Tree
  | integer (n : Int64) : Atom e [.integer n] (.num (.int n))
  | float (x : Binary64) : Atom e [.float x] (.num (.float x))
  | name (id : String) : Atom e [.ident id] (.name id)
  | group {ts t} : Parenthesized e ts t → Atom e ts t

/-- `atom ('(' arguments ')')*` -/
inductive Application (e : Phrase Tree) : Phrase Tree
  | mk {ts us callee lists} : Atom e ts callee → Many (Parenthesized (Arguments e)) us lists →
      Application e (ts ++ us) (lists.foldl .call callee)

/-- Expressions that nest at most `room` deep, themselves included. -/
def expression : (room : Nat) → Phrase Tree
  | 0 => fun _ _ => False
  | room + 1 => Chain SumOperator (Chain ProductOperator (Application (expression room)))

/-! ## Statements -/

/-- Expressions of the language, and lists of them. -/
def Expression : Phrase Tree := expression maxNesting

def ExpressionList : Phrase (List Tree) := Listed .comma Expression

/-- `(list '=')* expression` -/
inductive Statement : Phrase Tree
  | value {ts t} : Expression ts t → Statement ts (.expr t)
  | assignment {ts us lists t} : Many (Before ExpressionList .assign) ts lists → lists ≠ [] →
      Expression us t → Statement (ts ++ us) (.assign (lists.map .ofList) t)

/-- A line end or `';'`. -/
inductive Separator : Token → Prop
  | newline : Separator .newline
  | semicolon : Separator .semicolon

/-- Any number of separators. -/
def Separators (ts : List Token) : Prop := ∀ t ∈ ts, Separator t

/-- `separator+ statement` -/
inductive NextStatement : Phrase Tree
  | mk {t seps ts tree} : Separator t → Separators seps → Statement ts tree →
      NextStatement (t :: (seps ++ ts)) tree

/-- `separator* [statement (separator+ statement)* separator*]` -/
inductive Block : Phrase Tree
  | blank {seps} : Separators seps → Block seps (.block [])
  | mk {seps ts us seps' first rest} : Separators seps → Statement ts first →
      Many NextStatement us rest → Separators seps' →
      Block (seps ++ (ts ++ (us ++ seps'))) (.block (first :: rest))

/-! ## Statements of any expressions -/

section
variable (E : Phrase Tree)

/-- Statements of other expressions. -/
inductive StatementOf : Phrase Tree
  | value {ts t} : E ts t → StatementOf ts (.expr t)
  | assignment {ts us lists t} : Many (Before (Listed .comma E) .assign) ts lists → lists ≠ [] →
      E us t → StatementOf (ts ++ us) (.assign (lists.map .ofList) t)

/-- Next statements of other expressions. -/
inductive NextStatementOf : Phrase Tree
  | mk {t seps ts tree} : Separator t → Separators seps → StatementOf E ts tree →
      NextStatementOf (t :: (seps ++ ts)) tree

/-- Blocks of other expressions. -/
inductive BlockOf : Phrase Tree
  | blank {seps} : Separators seps → BlockOf seps (.block [])
  | mk {seps ts us seps' first rest} : Separators seps → StatementOf E ts first →
      Many (NextStatementOf E) us rest → Separators seps' →
      BlockOf (seps ++ (ts ++ (us ++ seps'))) (.block (first :: rest))

end

theorem statement_eq : Statement = StatementOf Expression := by
  funext ts tree
  refine propext ⟨?_, ?_⟩
  · rintro (h | ⟨hlists, hne, h⟩)
    · exact .value h
    · exact .assignment hlists hne h
  · rintro (h | ⟨hlists, hne, h⟩)
    · exact .value h
    · exact .assignment hlists hne h

theorem nextStatement_eq : NextStatement = NextStatementOf Expression := by
  funext ts tree
  refine propext ⟨?_, ?_⟩
  · rintro ⟨ht, hseps, h⟩
    exact .mk ht hseps (statement_eq ▸ h)
  · rintro ⟨ht, hseps, h⟩
    exact .mk ht hseps (statement_eq ▸ h)

/-- The blocks of the language are those of its expressions. -/
theorem block_eq : Block = BlockOf Expression := by
  funext ts tree
  refine propext ⟨?_, ?_⟩
  · rintro (hseps | ⟨hseps, hfirst, hrest, hseps'⟩)
    · exact .blank hseps
    · exact .mk hseps (statement_eq ▸ hfirst) (nextStatement_eq ▸ hrest) hseps'
  · rintro (hseps | ⟨hseps, hfirst, hrest, hseps'⟩)
    · exact .blank hseps
    · exact .mk hseps (statement_eq ▸ hfirst) (nextStatement_eq ▸ hrest) hseps'

/-! ## Values -/

/-- If the tokens of a phrase are of some kind, its value has a property. -/
def Yields (T : Token → Prop) (P : Phrase α) (Q : α → Prop) : Prop :=
  ∀ ts a, P ts a → (∀ t ∈ ts, T t) → Q a

namespace Yields
variable {T : Token → Prop} {P : Phrase α} {Q : α → Prop} (h : P.Yields T Q)
include h

theorem many : (Many P).Yields T fun as => ∀ a ∈ as, Q a := by
  intro ts as hmany hts
  induction hmany with
  | nil => exact nofun
  | cons hp _ ih =>
    obtain ⟨hts, hus⟩ := List.forall_mem_append.1 hts
    exact List.forall_mem_cons.2 ⟨h _ _ hp hts, ih hus⟩

theorem after (t : Token) : (After t P).Yields T Q := by
  rintro _ a ⟨hp⟩ hts
  exact h _ _ hp (List.forall_mem_cons.1 hts).2

theorem before (t : Token) : (Before P t).Yields T Q := by
  rintro _ a ⟨hp⟩ hts
  exact h _ _ hp (List.forall_mem_append.1 hts).1

theorem parenthesized : (Parenthesized P).Yields T Q := by
  rintro _ a ⟨hp⟩ hts
  exact h _ _ hp (List.forall_mem_append.1 (List.forall_mem_cons.1 hts).2).1

theorem listed (separator : Token) :
    (Listed separator P).Yields T fun as => as ≠ [] ∧ ∀ a ∈ as, Q a := by
  rintro _ _ ⟨hfirst, hmany⟩ hts
  obtain ⟨hts, hus⟩ := List.forall_mem_append.1 hts
  have hrest := (h.after separator).many _ _ hmany hus
  exact ⟨List.cons_ne_nil _ _, List.forall_mem_cons.2 ⟨h _ _ hfirst hts, hrest⟩⟩

end Yields

namespace Yields
variable {T : Token → Prop} {E : Phrase Tree} {Q R : Tree → Prop} (h : E.Yields T Q)
include h

theorem chain (operator : Token → BinOp → Prop) (hfirst : ∀ t, Q t → R t)
    (hbinary : ∀ left op right, R left → Q right → R (.binary left op right)) :
    (Chain operator E).Yields T R := by
  have hoperated : (Operated operator E).Yields T fun x => Q x.2 := by
    rintro _ _ ⟨-, hright⟩ hts
    exact h _ _ hright (List.forall_mem_cons.1 hts).2
  rintro _ _ ⟨hp, hmany⟩ hts
  obtain ⟨hts, hus⟩ := List.forall_mem_append.1 hts
  have hrest := hoperated.many _ _ hmany hus
  exact List.foldlRecOn _ _ (hfirst _ (h _ _ hp hts)) fun left hleft x hx =>
    hbinary left x.1 x.2 hleft (hrest x hx)

theorem arguments : (Arguments E).Yields T fun args => ∀ arg ∈ args, Q arg := by
  rintro _ _ (_ | hlisted | hlisted) hts
  · exact nofun
  · exact (h.listed .comma _ _ hlisted hts).2
  · exact (h.listed .comma _ _ hlisted (List.forall_mem_append.1 hts).1).2

theorem application (hatom : (Atom E).Yields T R)
    (hcall : ∀ callee args, R callee → (∀ arg ∈ args, Q arg) → R (.call callee args)) :
    (Application E).Yields T R := by
  rintro _ _ ⟨hcallee, hmany⟩ hts
  obtain ⟨hts, hus⟩ := List.forall_mem_append.1 hts
  have hlists := h.arguments.parenthesized.many _ _ hmany hus
  exact List.foldlRecOn _ _ (hatom _ _ hcallee hts) fun callee hcallee args hargs =>
    hcall callee args hcallee (hlists args hargs)

end Yields

theorem Yields.block {T : Token → Prop} {Q : Tree → Prop} (h : Statement.Yields T Q) :
    Block.Yields T fun tree => ∃ body, tree = .block body ∧ ∀ s ∈ body, Q s := by
  have hnext : NextStatement.Yields T Q := by
    rintro _ _ ⟨-, -, hstatement⟩ hts
    exact h _ _ hstatement (List.forall_mem_append.1 (List.forall_mem_cons.1 hts).2).2
  rintro _ _ (_ | ⟨-, hfirst, hmany, -⟩) hts
  · exact ⟨[], rfl, nofun⟩
  · obtain ⟨-, hts⟩ := List.forall_mem_append.1 hts
    obtain ⟨hts, hus⟩ := List.forall_mem_append.1 hts
    exact ⟨_, rfl, List.forall_mem_cons.2 ⟨h _ _ hfirst hts,
      hnext.many _ _ hmany (List.forall_mem_append.1 hus).1⟩⟩

end Phrase

end Stacklet
