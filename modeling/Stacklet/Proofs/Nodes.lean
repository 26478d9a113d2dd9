/-
  Trees as sets of nodes.

  The type of trees nests lists, so induction over it is stated once, with one
  hypothesis for all members of a list (`Tree.ind`).

  * `Tree.nodes` are a tree and all trees in it, except those in the targets
    of assignments, in the order in which they end;
  * `Tree.All`: a property of all nodes, with one equation for each kind;
  * `Tree.isSilent`: nothing is done for the tree, so it leaves no value;
  * `Tree.Filled`: no operand in the tree is silent;
  * `Tree.Supported`: all operators are additions, all targets plain names.
-/
import Mathlib.Tactic.Tauto
import Stacklet.Constant
import Stacklet.Tree

namespace Stacklet

namespace Tree

/-! ## Induction -/

/-- Induction over trees, with the hypothesis for every tree of a list. -/
@[induction_eliminator]
theorem ind {P : Tree → Prop} (block : ∀ body, (∀ t ∈ body, P t) → P (.block body))
    (expr : ∀ value, P value → P (.expr value))
    (assign : ∀ targets value, P value → P (.assign targets value))
    (name : ∀ id, P (.name id)) (num : ∀ n, P (.num n))
    (binary : ∀ left op right, P left → P right → P (.binary left op right))
    (call : ∀ callee args, P callee → (∀ t ∈ args, P t) → P (.call callee args)) (t : Tree) :
    P t := by
  cases t with
  | block body =>
    exact block body fun t ht => ind block expr assign name num binary call t
  | expr value => exact expr value (ind block expr assign name num binary call value)
  | assign targets value =>
    exact assign targets value (ind block expr assign name num binary call value)
  | name id => exact name id
  | num n => exact num n
  | binary left op right =>
    exact binary left op right (ind block expr assign name num binary call left)
      (ind block expr assign name num binary call right)
  | call callee args =>
    exact call callee args (ind block expr assign name num binary call callee)
      fun t ht => ind block expr assign name num binary call t
termination_by sizeOf t
decreasing_by
  all_goals
    try have := List.sizeOf_lt_of_mem ht
    simp only [Tree.block.sizeOf_spec, Tree.expr.sizeOf_spec, Tree.assign.sizeOf_spec,
      Tree.binary.sizeOf_spec, Tree.call.sizeOf_spec]
    omega

/-! ## Nodes -/

mutual

/-- A tree and all trees in it, each behind those in it; trees in assignment
    targets are left out. -/
def nodes : Tree → List Tree
  | .block body => nodesOfEach body ++ [.block body]
  | .expr value => value.nodes ++ [.expr value]
  | .assign targets value => value.nodes ++ [.assign targets value]
  | .name id => [.name id]
  | .num n => [.num n]
  | .binary left op right => left.nodes ++ (right.nodes ++ [.binary left op right])
  | .call callee args => callee.nodes ++ (nodesOfEach args ++ [.call callee args])

def nodesOfEach : List Tree → List Tree
  | [] => []
  | t :: ts => t.nodes ++ nodesOfEach ts

end

@[simp] theorem nodesOfEach_eq (ts : List Tree) : nodesOfEach ts = ts.flatMap nodes := by
  induction ts with
  | nil => rfl
  | cons t ts ih => rw [nodesOfEach, ih, List.flatMap_cons]

/-- The constant of a literal. -/
def literal? : Tree → Option Constant
  | .num n => some (.ofNumber n)
  | _ => none

/-- The literals in a tree, in the order in which they are loaded. -/
def literals (t : Tree) : List Constant := t.nodes.filterMap literal?

/-- The name that a node reads or binds. -/
def name? : Tree → Option String
  | .name id => some id
  | .assign [.name id] _ => some id
  | _ => none

/-- The names in a tree, in the order in which they are read and bound. -/
def names (t : Tree) : List String := t.nodes.filterMap name?

/-- The number of arguments of a call. -/
def argCount? : Tree → Option Nat
  | .call _ args => some args.length
  | _ => none

/-- All nodes of a tree have a property. -/
def All (P : Tree → Prop) (t : Tree) : Prop := ∀ node ∈ t.nodes, P node

instance (P : Tree → Prop) [DecidablePred P] (t : Tree) : Decidable (t.All P) :=
  inferInstanceAs (Decidable (∀ node ∈ t.nodes, P node))

section
variable {P : Tree → Prop}

theorem all_block {body : List Tree} :
    All P (.block body) ↔ P (.block body) ∧ ∀ t ∈ body, t.All P := by
  simp only [All, nodes, nodesOfEach_eq, List.mem_append, List.mem_singleton, List.mem_flatMap]
  constructor
  · intro h
    exact ⟨h _ (Or.inr rfl), fun t ht node hn => h node (Or.inl ⟨t, ht, hn⟩)⟩
  · rintro ⟨hb, h⟩ node (⟨t, ht, hn⟩ | rfl)
    · exact h t ht node hn
    · exact hb

theorem all_expr {value : Tree} : All P (.expr value) ↔ P (.expr value) ∧ value.All P := by
  simp only [All, nodes, List.mem_append, List.mem_singleton, or_imp, forall_and, forall_eq]
  exact and_comm

theorem all_assign {targets : List Target} {value : Tree} :
    All P (.assign targets value) ↔ P (.assign targets value) ∧ value.All P := by
  simp only [All, nodes, List.mem_append, List.mem_singleton, or_imp, forall_and, forall_eq]
  exact and_comm

theorem all_binary {left right : Tree} {op : BinOp} :
    All P (.binary left op right) ↔ P (.binary left op right) ∧ left.All P ∧ right.All P := by
  simp only [All, nodes, List.mem_append, List.mem_singleton, or_imp, forall_and, forall_eq]
  exact and_assoc.symm.trans and_comm

theorem all_call {callee : Tree} {args : List Tree} :
    All P (.call callee args) ↔ P (.call callee args) ∧ callee.All P ∧ ∀ t ∈ args, t.All P := by
  simp only [All, nodes, nodesOfEach_eq, List.mem_append, List.mem_singleton, List.mem_flatMap]
  constructor
  · intro h
    exact ⟨h _ (Or.inr (Or.inr rfl)), fun n hn => h n (Or.inl hn),
      fun t ht n hn => h n (Or.inr (Or.inl ⟨t, ht, hn⟩))⟩
  · rintro ⟨hc, h, ha⟩ n (hn | ⟨t, ht, hn⟩ | rfl)
    · exact h n hn
    · exact ha t ht n hn
    · exact hc

end

/-! ## Silence -/

mutual

/-- Nothing is done for the tree: it is a block of such trees, perhaps as an
    expression statement. -/
def isSilent : Tree → Bool
  | .block body => areSilent body
  | .expr value => value.isSilent
  | _ => false

def areSilent : List Tree → Bool
  | [] => true
  | t :: ts => t.isSilent && areSilent ts

end

@[simp] theorem areSilent_eq (ts : List Tree) : areSilent ts = ts.all isSilent := by
  induction ts with
  | nil => rfl
  | cons t ts ih => rw [areSilent, ih, List.all_cons]

/-- The trees whose values a node works on. -/
def operands : Tree → List Tree
  | .binary left _ right => [left, right]
  | .call callee args => callee :: args
  | .assign _ value => [value]
  | _ => []

/-- No operand in the tree is silent. -/
def Filled (t : Tree) : Prop := t.All fun node => ∀ operand ∈ node.operands, ¬ operand.isSilent

instance (t : Tree) : Decidable t.Filled :=
  inferInstanceAs (Decidable (t.All fun node => ∀ operand ∈ node.operands, ¬ operand.isSilent))

theorem filled_block {body : List Tree} : Filled (.block body) ↔ ∀ t ∈ body, t.Filled := by
  rw [Filled, all_block]
  simp [operands, Filled]

theorem filled_expr {value : Tree} : Filled (.expr value) ↔ value.Filled := by
  rw [Filled, all_expr]
  simp [operands, Filled]

theorem filled_assign {targets : List Target} {value : Tree} :
    Filled (.assign targets value) ↔ ¬ value.isSilent ∧ value.Filled := by
  rw [Filled, all_assign]
  simp [operands, Filled]

theorem filled_binary {left right : Tree} {op : BinOp} :
    Filled (.binary left op right) ↔
      (¬ left.isSilent ∧ left.Filled) ∧ ¬ right.isSilent ∧ right.Filled := by
  rw [Filled, all_binary]
  simp only [operands, List.mem_cons, List.not_mem_nil, or_false, forall_eq_or_imp, forall_eq,
    Filled]
  tauto

theorem filled_call {callee : Tree} {args : List Tree} :
    Filled (.call callee args) ↔
      (¬ callee.isSilent ∧ callee.Filled) ∧ ∀ t ∈ args, ¬ t.isSilent ∧ t.Filled := by
  rw [Filled, all_call]
  simp only [operands, List.mem_cons, forall_eq_or_imp, Filled, forall_and]
  tauto

theorem filled_of_isSilent (t : Tree) (h : t.isSilent) : t.Filled := by
  induction t with
  | block body ih =>
    rw [isSilent, areSilent_eq, List.all_eq_true] at h
    exact filled_block.2 fun t ht => ih t ht (h t ht)
  | expr value ih => exact filled_expr.2 (ih h)
  | assign | name | num | binary | call => cases h

/-- The tree leaves a value, and so do all operands in it. -/
def Good (t : Tree) : Prop := ¬ t.isSilent ∧ t.Filled

/-! ## Support -/

/-- Emission does not refuse the node: its operator is addition, its target
    one plain name. -/
def IsSupported : Tree → Prop
  | .binary _ op _ => op = .add
  | .assign targets _ => ∃ id, targets = [.name id]
  | _ => True

/-- Emission refuses no node of the tree. -/
def Supported (t : Tree) : Prop := t.All IsSupported

end Tree

end Stacklet
