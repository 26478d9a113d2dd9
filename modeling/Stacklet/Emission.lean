/-
  The instructions of a tree.

  Constants and names are interned while instructions are emitted, in the
  order in which they are first used; what was interned before an error stays
  interned, so `Pools` are returned in every case.

  Left operands and callees are not emitted by recursion: `spine` goes down
  to the innermost one and hands back what hangs off the way (`Hook`s), and
  `emitHooks` emits that from the inside out. The recursion depth is that of
  parentheses and statements, however long a chain is.

  * `spine_weight`: a spine and its hooks are no larger than the tree;
  * `sequence`: statements one after the other, with the value of each but
    the last dropped.
-/
import Stacklet.CompileError
import Stacklet.Constant
import Stacklet.Pool

namespace Stacklet

/-! ## Pools -/

/-- The constants and names of a unit. -/
structure Pools where
  consts : Pool Constant.key
  names : Pool (id : String → String)

namespace Pools

def empty : Pools := ⟨.empty, .empty⟩

/-- What the operand of an instruction counts. -/
def constantContext : String := "constant pool"

def nameContext : String := "name pool"

def callContext : String := "call argument count"

end Pools

/-- An instruction whose operand may not fit. -/
def operandInstr (op : Opcode) (n : Nat) (context : String) : Except CompileError Instr :=
  match Instr.withOperand op n with
  | .ok i => .ok i
  | .error e => .error (.ofInstrError context e)

/-- The instruction that loads a constant. -/
def loadConst (c : Constant) : Pools → Except CompileError Instr × Pools
  | ⟨consts, names⟩ =>
    match consts.intern c with
    | (n, consts) => (operandInstr .loadConst n Pools.constantContext, ⟨consts, names⟩)

/-- An instruction on a name. -/
def nameInstr (op : Opcode) (name : String) : Pools → Except CompileError Instr × Pools
  | ⟨consts, names⟩ =>
    match names.intern name with
    | (n, names) => (operandInstr op n Pools.nameContext, ⟨consts, names⟩)

/-! ## Statements in sequence -/

/-- Codes one after the other; between two that are not empty, the value left
    by the first is dropped. -/
def sequence (codes : List (List Instr)) : List Instr :=
  List.intercalate [.popTop] (codes.filter (!·.isEmpty))

/-! ## Spines -/

/-- What hangs off a spine at one place. -/
inductive Hook where
  /-- add the right operand -/
  | add (right : Tree)
  /-- call with arguments -/
  | call (args : List Tree)

/-- Follows left operands and callees down to a tree that has none; the hooks
    passed come innermost first, in front of those given. -/
def spine : Tree → List Hook → Except CompileError (Tree × List Hook)
  | .binary left op right, hooks =>
    if op = .add then spine left (.add right :: hooks) else .error (.unsupportedOperator op)
  | .call callee args, hooks => spine callee (.call args :: hooks)
  | leaf, hooks => .ok (leaf, hooks)

/-- The size of what hangs off a spine. -/
noncomputable def hooksWeight : List Hook → Nat
  | [] => 0
  | .add right :: hooks => sizeOf right + hooksWeight hooks
  | .call args :: hooks => sizeOf args + hooksWeight hooks

theorem Tree.sizeOf_pos (t : Tree) : 0 < sizeOf t := by
  cases t
  all_goals
    simp only [Tree.block.sizeOf_spec, Tree.expr.sizeOf_spec, Tree.assign.sizeOf_spec,
      Tree.name.sizeOf_spec, Tree.num.sizeOf_spec, Tree.binary.sizeOf_spec, Tree.call.sizeOf_spec]
    omega

theorem Tree.sizeOf_list_pos (ts : List Tree) : 0 < sizeOf ts := by
  cases ts
  all_goals
    simp only [List.nil.sizeOf_spec, List.cons.sizeOf_spec]
    omega

theorem spine_weight {t leaf : Tree} {hooks rest : List Hook}
    (h : spine t hooks = .ok (leaf, rest)) :
    sizeOf leaf + hooksWeight rest ≤ sizeOf t + hooksWeight hooks := by
  fun_induction spine t hooks with
  | case1 hooks left right ih =>
    have := ih h
    simp only [hooksWeight, Tree.binary.sizeOf_spec] at this ⊢
    omega
  | case2 => cases h
  | case3 hooks callee args ih =>
    have := ih h
    simp only [hooksWeight, Tree.call.sizeOf_spec] at this ⊢
    omega
  | case4 =>
    cases h
    exact Nat.le_refl _

/-! ## Emission -/

/-- One instruction as code. -/
def single : Except CompileError Instr × Pools → Except CompileError (List Instr) × Pools
  | (.ok i, pools) => (.ok [i], pools)
  | (.error e, pools) => (.error e, pools)

mutual

/-- The instructions of a tree. An expression leaves one value. -/
def emit (t : Tree) (pools : Pools) : Except CompileError (List Instr) × Pools :=
  match t with
  | .num n => single (loadConst (.ofNumber n) pools)
  | .name id => single (nameInstr .loadGlobal id pools)
  | .expr value => emit value pools
  | .block body => emitStatements body #[] pools
  | .assign [.name id] value =>
    match emit value pools with
    | (.error e, pools) => (.error e, pools)
    | (.ok code, pools) =>
      match nameInstr .storeGlobal id pools with
      | (.error e, pools) => (.error e, pools)
      | (.ok store, pools) => (.ok (code ++ [.dupTop, store]), pools)
  | .assign targets _ => (.error (.ofTargets targets), pools)
  | .binary left op right =>
    if op = .add then emitSpine left [.add right] pools
    else (.error (.unsupportedOperator op), pools)
  | .call callee args => emitSpine callee [.call args] pools
termination_by 2 * sizeOf t
decreasing_by
  all_goals simp [hooksWeight] <;> omega

/-- The innermost tree of a spine, then its hooks. -/
def emitSpine (t : Tree) (hooks : List Hook) (pools : Pools) :
    Except CompileError (List Instr) × Pools :=
  match _h : spine t hooks with
  | .error e => (.error e, pools)
  | .ok (leaf, hooks) =>
    match emit leaf pools with
    | (.error e, pools) => (.error e, pools)
    | (.ok code, pools) => emitHooks hooks code.toArray pools
termination_by 2 * (sizeOf t + hooksWeight hooks) + 1
decreasing_by
  all_goals
    have := spine_weight _h
    have := leaf.sizeOf_pos
    omega

/-- What hangs off a spine, behind the code of the spine. -/
def emitHooks (hooks : List Hook) (code : Array Instr) (pools : Pools) :
    Except CompileError (List Instr) × Pools :=
  match hooks with
  | [] => (.ok code.toList, pools)
  | .add right :: hooks =>
    match emit right pools with
    | (.error e, pools) => (.error e, pools)
    | (.ok more, pools) => emitHooks hooks ((code ++ more).push .binaryAdd) pools
  | .call args :: hooks =>
    match emitArgs args code pools with
    | (.error e, pools) => (.error e, pools)
    | (.ok code, pools) =>
      match operandInstr .callFunction args.length Pools.callContext with
      | .error e => (.error e, pools)
      | .ok call => emitHooks hooks (code.push call) pools
termination_by 2 * hooksWeight hooks + 1
decreasing_by
  all_goals
    simp only [hooksWeight]
    first
    | have := right.sizeOf_pos; omega
    | have := Tree.sizeOf_list_pos args; omega

/-- Arguments from left to right, behind the code before them. -/
def emitArgs (args : List Tree) (code : Array Instr) (pools : Pools) :
    Except CompileError (Array Instr) × Pools :=
  match args with
  | [] => (.ok code, pools)
  | arg :: args =>
    match emit arg pools with
    | (.error e, pools) => (.error e, pools)
    | (.ok more, pools) => emitArgs args (code ++ more) pools
termination_by 2 * sizeOf args
decreasing_by
  all_goals
    simp only [List.cons.sizeOf_spec]
    omega

/-- Statements in sequence, behind the codes of those before them. -/
def emitStatements (body : List Tree) (codes : Array (List Instr)) (pools : Pools) :
    Except CompileError (List Instr) × Pools :=
  match body with
  | [] => (.ok (sequence codes.toList), pools)
  | t :: body =>
    match emit t pools with
    | (.error e, pools) => (.error e, pools)
    | (.ok code, pools) => emitStatements body (codes.push code) pools
termination_by 2 * sizeOf body
decreasing_by
  all_goals
    simp only [List.cons.sizeOf_spec]
    omega

end

end Stacklet
