/-
  What emitted code makes of the stack.

  The code of a good tree works above the values that it finds, whatever they
  are, and leaves one more. The code of any other tree leaves no more values
  than it finds, or lacks some on the way. So the stack check of a unit fails
  if and only if an operand is silent, and a unit that passes it leaves nothing
  over.

  * `Instr.staysAbove_of_finalHeight`: what runs on an empty stack runs in the
    same way above other values;
  * `netEffect_eq_rise`: instructions raise the stack as the actions that they
    do;
  * `translate_eq_error`: why actions have no instructions, from any pools;
  * `emit_netEffect`: the code of trees, and the stack check of their units.
-/
import Stacklet.Proofs.PoolGrowth
import Stacklet.Proofs.Prediction
import Stacklet.Proofs.SourceTrees

namespace Stacklet

/-! ## Instructions above other values -/

namespace Instr

/-- By how much instructions raise the stack, all in all. -/
def netEffect (is : List Instr) : Int := (is.map fun i => (i.pushes : Int) - i.pops).sum

/-- Simulated from a height, every instruction finds the values that it takes
    above that height. -/
def StaysAbove (height : Nat) (is : List Instr) : Prop :=
  ∀ k i, is[k]? = some i →
    ∃ above, finalHeightFrom 0 height (is.take k) = .ok (height + above) ∧ i.pops ≤ above

theorem heightAfter?_above {i : Instr} {height next : Nat} (h : i.heightAfter? height = some next)
    (below : Nat) : i.heightAfter? (below + height) = some (below + next) := by
  rw [heightAfter?] at h ⊢
  split_ifs at h with hle
  cases h
  rw [if_pos (hle.trans (Nat.le_add_left _ _)), Nat.add_sub_assoc hle, Nat.add_assoc]

/-- More values on the stack, and the same instructions. -/
theorem finalHeightFrom_add {is : List Instr} {place height last : Nat}
    (h : finalHeightFrom place height is = .ok last) (below place' : Nat) :
    finalHeightFrom place' (below + height) is = .ok (below + last) := by
  induction is generalizing place height place' with
  | nil =>
    cases h
    rfl
  | cons i is ih =>
    rw [finalHeightFrom] at h ⊢
    cases hi : i.heightAfter? height with
    | none =>
      rw [hi] at h
      cases h
    | some next =>
      rw [hi] at h
      rw [heightAfter?_above hi]
      exact ih h _

/-- In a simulation that succeeds, every instruction finds enough values. -/
theorem exists_height_of_getElem? {is : List Instr} {place height last k : Nat} {i : Instr}
    (h : finalHeightFrom place height is = .ok last) (hi : is[k]? = some i) :
    ∃ had, finalHeightFrom place height (is.take k) = .ok had ∧ i.pops ≤ had := by
  induction is generalizing place height k with
  | nil => cases hi
  | cons j is ih =>
    rw [finalHeightFrom] at h
    cases hj : j.heightAfter? height with
    | none =>
      rw [hj] at h
      cases h
    | some next =>
      rw [hj] at h
      cases k with
      | zero =>
        cases hi
        refine ⟨height, rfl, Nat.le_of_not_lt fun hlt => ?_⟩
        cases hj.symm.trans (heightAfter?_eq_none_iff.2 hlt)
      | succ k =>
        rw [finalHeightFrom_take_cons hj]
        exact ih h hi

/-- **What runs on an empty stack runs above any values**, without taking one of
    them. -/
theorem staysAbove_of_finalHeight {is : List Instr} {last : Nat} (h : finalHeight is = .ok last)
    (height : Nat) : StaysAbove height is ∧ finalHeightFrom 0 height is = .ok (height + last) := by
  refine ⟨fun k i hi => ?_, finalHeightFrom_add h height 0⟩
  obtain ⟨above, hbefore, hle⟩ := exists_height_of_getElem? h hi
  exact ⟨above, finalHeightFrom_add hbefore height 0, hle⟩

end Instr

/-! ## Code of actions -/

theorem Does.pushes_eq {consts : Array Constant} {names : Array String} {a : Action} {i : Instr}
    (h : Does consts names a i) : i.pushes = a.pushes := by
  cases h <;> rfl

namespace Pools.Do
variable {pools : Pools} {as : List Action} {is : List Instr} (h : pools.Do as is)
include h

/-- Instructions raise the stack by as much as the actions that they do. -/
theorem netEffect_eq_rise : Instr.netEffect is = rise as := by
  induction h with
  | nil => rfl
  | cons hdoes _ ih =>
    rw [Instr.netEffect, List.map_cons, List.sum_cons, ← Instr.netEffect, ih, rise_cons,
      hdoes.pushes_eq, (hdoes.heightAfter? 0).1]

/-- No instruction does a refusal. -/
theorem reject_notMem (e : CompileError) : .reject e ∉ as := by
  induction h with
  | nil => exact List.not_mem_nil
  | cons hdoes _ ih =>
    rintro (_ | ⟨_, hmem⟩)
    · cases hdoes
    · exact ih hmem

end Pools.Do

theorem operandInstr_eq_error {op : Opcode} (hop : op.hasOperand) {n : Nat} {context : String}
    {e : CompileError} (h : operandInstr op n context = .error e) :
    ∃ value context, e = .operandOverflow value context := by
  by_cases hn : n ≤ maxOperand
  · obtain ⟨v, i, hi, -⟩ := operandInstr_of_le op hop hn context
    cases hi.symm.trans h
  · rw [operandInstr_of_gt hop hn] at h
    cases h
    exact ⟨n, context, rfl⟩

/-- Actions have no instructions because one of them is a refusal, or an operand
    is too large. -/
theorem translate_eq_error {as : List Action} {pools : Pools} {e : CompileError}
    (h : (translate as pools).1 = .error e) :
    .reject e ∈ as ∨ ∃ value context, e = .operandOverflow value context := by
  induction as generalizing pools with
  | nil => cases h
  | cons a as ih =>
    have hstep : (a.emit pools).1 = .error e →
        .reject e ∈ a :: as ∨ ∃ value context, e = .operandOverflow value context := by
      intro ha
      obtain ⟨consts, names⟩ := pools
      cases a with
      | load | fetch | store | call => exact Or.inr (operandInstr_eq_error rfl ha)
      | add | drop | dup | ret => cases ha
      | reject =>
        cases ha
        exact Or.inl List.mem_cons_self
    rw [translate] at h
    generalize a.emit pools = step at hstep h
    obtain ⟨_ | i, mid⟩ := step
    · cases h
      exact hstep rfl
    · have hrest : (translate as mid).1 = .error e := by
        rw [emitBind_ok] at h
        generalize translate as mid = rest at h
        obtain ⟨_ | is, last⟩ := rest
        · exact h
        · cases h
      exact (ih hrest).imp_left (List.mem_cons_of_mem a)

/-! ## Code of trees -/

namespace Tree
variable (t : Tree) {pools : Pools}

/-- Only silent trees have no instructions. -/
theorem emit_eq_nil_iff : (emit t pools).1 = .ok [] ↔ t.isSilent := by
  rw [← actions_eq_nil_iff]
  constructor
  · intro h
    exact List.length_eq_zero_iff.1 ((emit_spec t pools).2 [] h).length_eq
  · intro h
    rw [emit_eq, h]
    rfl

/-- Emission refuses no node of a tree that has instructions. -/
theorem supported_of_emit {code : List Instr} (h : (emit t pools).1 = .ok code) : t.Supported :=
  (supported_iff t).2 ((emit_spec t pools).2 code h).reject_notMem

/-- A good tree works above what is on the stack, and leaves one more value. -/
theorem Good.staysAbove {code : List Instr} (hg : t.Good) (h : (emit t pools).1 = .ok code)
    (height : Nat) : Instr.StaysAbove height code ∧
      Instr.finalHeightFrom 0 height code = .ok (height + 1) := by
  have hpast := heightPast?_actions t (supported_of_emit t h) hg 0
  have hfinal := (maxDepth_of_heightPast? ((emit_spec t pools).2 code h) hpast 0 0).2
  exact Instr.staysAbove_of_finalHeight hfinal height

/-- Any other tree leaves no more values than there were. -/
theorem netEffect_nonpos {code : List Instr} (hg : ¬ t.Good) (h : (emit t pools).1 = .ok code) :
    Instr.netEffect code ≤ 0 := by
  rw [((emit_spec t pools).2 code h).netEffect_eq_rise]
  exact (isLow t (supported_of_emit t h)).2 hg

theorem not_filled_iff :
    ¬ t.Filled ↔ ∃ node ∈ t.nodes, ∃ operand ∈ node.operands, operand.isSilent := by
  simp only [Filled, All, not_forall, not_not, exists_prop]

end Tree

/-! ## Units -/

namespace CodeUnit
variable {tree : Tree} {pools : Pools}

/-- The instructions of a unit do what the tree says, and refuse nothing. -/
theorem instructionsOf_spec {is : List Instr} (h : (instructionsOf tree pools).1 = .ok is) :
    tree.Supported ∧ (instructionsOf tree pools).2.Do tree.unitActions is := by
  rw [instructionsOf_eq] at h ⊢
  have hdo := (translate_spec tree.unitActions pools).2 is h
  refine ⟨(Tree.supported_iff tree).2 fun e hmem => hdo.reject_notMem e ?_, hdo⟩
  exact (mem_joined (.reject e) (by simp)).2 ⟨_, List.mem_cons_self, hmem⟩

/-- **The stack check of a unit fails if and only if an operand is silent**, and
    finds an empty stack otherwise. -/
theorem instructionsOf_checked {is : List Instr} (h : (instructionsOf tree pools).1 = .ok is) :
    (tree.Filled ∧ (∃ depth, Instr.maxDepth is = .ok depth) ∧ Instr.finalHeight is = .ok 0) ∨
      (¬ tree.Filled ∧ ∃ e, Instr.maxDepth is = .error e) := by
  obtain ⟨hs, hdo⟩ := instructionsOf_spec h
  by_cases hf : tree.Filled
  · exact Or.inl ⟨hf, maxDepth_of_heightPast? hdo (tree.heightPast?_unitActions hs hf) 0 0⟩
  · obtain ⟨_, _, _, _, _, _, herror⟩ :=
      maxDepth_of_underflow hdo (tree.heightPast?_unitActions_of_not hs hf) 0 0
    exact Or.inr ⟨hf, _, herror⟩

/-- Nothing is left over in a unit. -/
theorem checkBalanced_instructionsOf {is : List Instr}
    (h : (instructionsOf tree pools).1 = .ok is) (n : Nat) :
    Instr.checkBalanced is ≠ .error (.leftover n) := by
  rw [Instr.checkBalanced]
  rcases instructionsOf_checked h with ⟨-, -, hfinal⟩ | ⟨-, e, herror⟩
  · rw [hfinal]
    simp
  · obtain ⟨k, i, had, hshort, -⟩ := Instr.maxDepth_eq_error_iff.1 herror
    rw [hshort.finalHeight]
    simp

theorem checkedDepth_instructionsOf {is : List Instr} (h : (instructionsOf tree pools).1 = .ok is)
    (n : Nat) : checkedDepth is ≠ .error (.height (.leftover n)) := by
  rcases instructionsOf_checked h with ⟨-, ⟨depth, hdepth⟩, hfinal⟩ | ⟨-, e, herror⟩
  · rw [checkedDepth_of_balanced hdepth hfinal]
    simp
  · obtain ⟨k, i, had, -, rfl⟩ := Instr.maxDepth_eq_error_iff.1 herror
    rw [checkedDepth_of_underflow herror]
    simp

/-- No error of an emission is one of the stack check. -/
theorem instructionsOf_ne_height (e : HeightError) :
    (instructionsOf tree pools).1 ≠ .error (.height e) := by
  intro h
  rw [instructionsOf_eq] at h
  rcases translate_eq_error h with hreject | ⟨value, context, he⟩
  · have hmem : .reject (.height e) ∈ tree.actions := by
      rw [Tree.unitActions, mem_joined _ (by simp)] at hreject
      simpa using hreject
    refine tree.reject_notMem_actions (fun node _ hrefused => ?_) hmem
    cases hrefused
  · cases he

/-- No compilation fails because of values that are left over. -/
theorem finish_ne_leftover (t : Numbering) (options : UnitOptions) (n : Nat) :
    finish t options tree pools ≠ .error (.height (.leftover n)) := by
  have hemission : (instructionsOf tree pools).1 ≠ .error (.height (.leftover n)) :=
    instructionsOf_ne_height (.leftover n)
  have hchecked {is : List Instr} (h : (instructionsOf tree pools).1 = .ok is) :=
    checkedDepth_instructionsOf h n
  rw [finish]
  generalize instructionsOf tree pools = emitted at hemission hchecked
  obtain ⟨e | is, last⟩ := emitted
  · intro h
    cases h
    exact hemission rfl
  · have hchecked := hchecked rfl
    dsimp only
    generalize checkedDepth is = checked at hchecked
    cases checked with
    | error e =>
      intro h
      cases h
      exact hchecked rfl
    | ok depth => simp

end CodeUnit

/-- **The net effect of emitted code.** A tree has no instructions if and only if
    it is silent. The code of a good tree, from any height, takes nothing that
    is below and ends one value higher; that of any other tree raises the stack
    by nothing, all in all. So the greatest height of a unit is missing if and
    only if some operand in the tree is silent, and no unit is refused because
    of values that are left over. -/
theorem emit_netEffect (tree : Tree) (pools : Pools) :
    ((emit tree pools).1 = .ok [] ↔ tree.isSilent) ∧
      (∀ code, (emit tree pools).1 = .ok code →
        (tree.Good → ∀ height, Instr.StaysAbove height code ∧
          Instr.finalHeightFrom 0 height code = .ok (height + 1)) ∧
        (¬ tree.Good → Instr.netEffect code ≤ 0)) ∧
      (∀ is, (CodeUnit.instructionsOf tree pools).1 = .ok is →
        ((∃ e, Instr.maxDepth is = .error e) ↔
          ∃ node ∈ tree.nodes, ∃ operand ∈ node.operands, operand.isSilent) ∧
        ∀ n, Instr.checkBalanced is ≠ .error (.leftover n)) ∧
      ∀ t options n, CodeUnit.finish t options tree pools ≠ .error (.height (.leftover n)) := by
  refine ⟨tree.emit_eq_nil_iff,
    fun code h => ⟨fun hg => hg.staysAbove tree h, fun hg => tree.netEffect_nonpos hg h⟩,
    fun is h => ⟨?_, CodeUnit.checkBalanced_instructionsOf h⟩, CodeUnit.finish_ne_leftover⟩
  rw [← tree.not_filled_iff]
  rcases CodeUnit.instructionsOf_checked h with ⟨hf, ⟨depth, hdepth⟩, -⟩ | ⟨hf, herror⟩
  · simp [hf, hdepth]
  · exact iff_of_true herror hf

/-- `f(1, )`, the second argument being an empty block. -/
def Tree.emptyArgument : Tree := .call (.name "f") [.num (.int 1), .block []]

/-- A call for which an argument is missing takes what it leaves. -/
theorem emit_netEffect_emptyArgument :
    ∃ code is, (emit Tree.emptyArgument .empty).1 = .ok code ∧ Instr.netEffect code ≤ 0 ∧
      (CodeUnit.instructionsOf Tree.emptyArgument .empty).1 = .ok is ∧
      ∃ e, Instr.maxDepth is = .error e := by
  obtain ⟨-, heffect, hunit, -⟩ := emit_netEffect Tree.emptyArgument .empty
  obtain ⟨code, pools, hcode, -⟩ := translate_empty Tree.emptyArgument.actions
  obtain ⟨is, pools', his, -⟩ := translate_empty Tree.emptyArgument.unitActions
  have hemit : (emit Tree.emptyArgument .empty).1 = .ok code := by rw [emit_eq, hcode]
  have hinstructions : (CodeUnit.instructionsOf Tree.emptyArgument .empty).1 = .ok is := by
    rw [instructionsOf_eq, his]
  have hmissing : ¬ Tree.emptyArgument.Filled := by decide
  exact ⟨code, is, hemit, (heffect code hemit).2 fun hg => hmissing hg.2, hinstructions,
    (hunit is hinstructions).1.2 (Tree.emptyArgument.not_filled_iff.1 hmissing)⟩

end Stacklet
