/-
  What the code of a tree does, one action after the other.

  An `Action` is an instruction that names what it works on, where the
  instruction itself counts places in pools. `Tree.actions` lists the actions
  of a tree in the order in which they are emitted; where emission refuses a
  tree, a `reject` stands in the list. `translate` turns actions into
  instructions one by one.

  * `translate_append`: actions one after the other;
  * `translate_joined`: statements in sequence.
-/
import Stacklet.CodeUnit.Assembly
import Stacklet.Proofs.Nodes

namespace Stacklet

/-! ## Actions -/

/-- An instruction with what it works on, or a refusal. -/
inductive Action where
  | load (c : Constant)
  | fetch (id : String)
  | store (id : String)
  | add
  | call (count : Nat)
  | drop
  | dup
  | ret
  /-- no instruction, because the tree is none that can be compiled -/
  | reject (e : CompileError)
  deriving DecidableEq

/-- Actions of statements, one after the other; between two statements that
    do anything, the value left by the first is dropped. -/
def joined (codes : List (List Action)) : List Action :=
  List.intercalate [.drop] (codes.filter (!·.isEmpty))

namespace Tree

/-- The operators on a left spine, outermost first. -/
def spineOperators : Tree → List BinOp
  | .binary left op _ => op :: left.spineOperators
  | .call callee _ => callee.spineOperators
  | _ => []

/-- The refusals of operators on a spine. -/
def refusals (t : Tree) : List Action :=
  (t.spineOperators.filter (· ≠ .add)).map fun op => .reject (.unsupportedOperator op)

theorem refusals_binary (left right : Tree) (op : BinOp) :
    refusals (.binary left op right) =
      if op = .add then left.refusals else .reject (.unsupportedOperator op) :: left.refusals := by
  by_cases h : op = .add <;> simp [refusals, spineOperators, h]

mutual

/-- The actions of a tree: operands from left to right and then what is done
    with them, all operators of a spine being looked at before. -/
def actions : Tree → List Action
  | .num n => [.load (.ofNumber n)]
  | .name id => [.fetch id]
  | .expr value => value.actions
  | .block body => joined (actionsOfEach body)
  | .assign [.name id] value => value.actions ++ [.dup, .store id]
  | .assign targets _ => [.reject (.ofTargets targets)]
  | .binary left op right =>
    refusals (.binary left op right) ++ (left.actions ++ (right.actions ++ [.add]))
  | .call callee args =>
    refusals callee ++
      (callee.actions ++ ((actionsOfEach args).flatten ++ [.call args.length]))

def actionsOfEach : List Tree → List (List Action)
  | [] => []
  | t :: ts => t.actions :: actionsOfEach ts

end

@[simp] theorem actionsOfEach_eq (ts : List Tree) : actionsOfEach ts = ts.map actions := by
  induction ts with
  | nil => rfl
  | cons t ts ih => rw [actionsOfEach, ih, List.map_cons]

/-- The actions of a unit: those of the tree, and the return of `None`. -/
def unitActions (t : Tree) : List Action := joined [t.actions, [.load .none, .ret]]

end Tree

/-! ## Translation -/

/-- The instruction of an action. -/
def Action.emit : Action → Pools → Except CompileError Instr × Pools
  | .load c, pools => loadConst c pools
  | .fetch id, pools => nameInstr .loadGlobal id pools
  | .store id, pools => nameInstr .storeGlobal id pools
  | .add, pools => (.ok .binaryAdd, pools)
  | .call count, pools => (operandInstr .callFunction count Pools.callContext, pools)
  | .drop, pools => (.ok .popTop, pools)
  | .dup, pools => (.ok .dupTop, pools)
  | .ret, pools => (.ok .returnValue, pools)
  | .reject e, pools => (.error e, pools)

/-- Changes the value of an emission. -/
def emitMap {α β : Type} (f : α → β) :
    Except CompileError α × Pools → Except CompileError β × Pools
  | (.ok a, pools) => (.ok (f a), pools)
  | (.error e, pools) => (.error e, pools)

/-- One emission, and then another from the pools it leaves. -/
def emitBind {α β : Type} (r : Except CompileError α × Pools)
    (f : α → Pools → Except CompileError β × Pools) : Except CompileError β × Pools :=
  match r with
  | (.ok a, pools) => f a pools
  | (.error e, pools) => (.error e, pools)

section
variable {α β γ : Type} (r : Except CompileError α × Pools)

@[simp] theorem emitBind_ok (a : α) (pools : Pools)
    (f : α → Pools → Except CompileError β × Pools) : emitBind (.ok a, pools) f = f a pools := rfl

@[simp] theorem emitBind_error (e : CompileError) (pools : Pools)
    (f : α → Pools → Except CompileError β × Pools) :
    emitBind (.error e, pools) f = (.error e, pools) := rfl

@[simp] theorem emitMap_ok (f : α → β) (a : α) (pools : Pools) :
    emitMap f (.ok a, pools) = (.ok (f a), pools) := rfl

@[simp] theorem emitMap_error (f : α → β) (e : CompileError) (pools : Pools) :
    emitMap f (.error e, pools) = (.error e, pools) := rfl

theorem emitBind_assoc (f : α → Pools → Except CompileError β × Pools)
    (g : β → Pools → Except CompileError γ × Pools) :
    emitBind (emitBind r f) g = emitBind r fun a pools => emitBind (f a pools) g := by
  rcases r with ⟨_ | _, _⟩ <;> rfl

theorem emitBind_emitMap (f : α → β) (g : β → Pools → Except CompileError γ × Pools) :
    emitBind (emitMap f r) g = emitBind r fun a pools => g (f a) pools := by
  rcases r with ⟨_ | _, _⟩ <;> rfl

theorem emitMap_emitBind (f : β → γ) (g : α → Pools → Except CompileError β × Pools) :
    emitMap f (emitBind r g) = emitBind r fun a pools => emitMap f (g a pools) := by
  rcases r with ⟨_ | _, _⟩ <;> rfl

theorem emitMap_emitMap (f : β → γ) (g : α → β) :
    emitMap f (emitMap g r) = emitMap (fun a => f (g a)) r := by
  rcases r with ⟨_ | _, _⟩ <;> rfl

theorem emitMap_id : emitMap (fun a => a) r = r := by
  rcases r with ⟨_ | _, _⟩ <;> rfl

end

/-- The instructions of actions, up to the first that has none. -/
def translate : List Action → Pools → Except CompileError (List Instr) × Pools
  | [], pools => (.ok [], pools)
  | a :: as, pools =>
    emitBind (a.emit pools) fun i pools => emitMap (i :: ·) (translate as pools)

theorem translate_append (as bs : List Action) (pools : Pools) :
    translate (as ++ bs) pools =
      emitBind (translate as pools) fun is pools => emitMap (is ++ ·) (translate bs pools) := by
  induction as generalizing pools with
  | nil => simp only [List.nil_append, translate, emitBind_ok, emitMap_id]
  | cons a as ih =>
    simp only [List.cons_append, translate, ih, emitBind_assoc, emitBind_emitMap,
      emitMap_emitBind, emitMap_emitMap]

/-! ## Statements -/

/-- The instructions of several lists of actions, each on its own. -/
def translateEach : List (List Action) → Pools → Except CompileError (List (List Instr)) × Pools
  | [], pools => (.ok [], pools)
  | as :: rest, pools =>
    emitBind (translate as pools) fun is pools => emitMap (is :: ·) (translateEach rest pools)

theorem translate_intercalate (codes : List (List Action)) (pools : Pools) :
    translate (List.intercalate [.drop] codes) pools =
      emitMap (List.intercalate [.popTop]) (translateEach codes pools) := by
  induction codes generalizing pools with
  | nil => rfl
  | cons as codes ih =>
    cases codes with
    | nil =>
      simp only [List.intercalate_singleton, translateEach, emitMap_emitBind, emitMap_ok]
      rcases translate as pools with ⟨_ | _, _⟩ <;> rfl
    | cons bs codes =>
      simp only [List.intercalate_cons_cons, translate_append, ih, translateEach, translate,
        Action.emit, emitBind_ok, emitMap_ok, emitMap_emitBind, emitMap_emitMap, List.append_assoc]

/-- Actions that yield no instruction are none. -/
theorem translateEach_filter (codes : List (List Action)) (pools : Pools) :
    translateEach (codes.filter (!·.isEmpty)) pools =
      emitMap (List.filter (!·.isEmpty)) (translateEach codes pools) := by
  induction codes generalizing pools with
  | nil => rfl
  | cons as codes ih =>
    cases as with
    | nil =>
      simp only [List.isEmpty_nil, Bool.not_true, Bool.false_eq_true, not_false_eq_true,
        List.filter_cons_of_neg, translateEach, translate, emitBind_ok, emitMap_emitMap, ih]
    | cons a as =>
      simp only [List.isEmpty_cons, Bool.not_false, List.filter_cons_of_pos, translateEach,
        translate, ih, emitMap_emitBind, emitMap_emitMap, emitBind_assoc, emitBind_emitMap]

theorem translate_joined (codes : List (List Action)) (pools : Pools) :
    translate (joined codes) pools = emitMap sequence (translateEach codes pools) := by
  rw [joined, translate_intercalate, translateEach_filter, emitMap_emitMap]
  rfl

end Stacklet
