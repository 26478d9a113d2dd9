/-
  Emission as recursion on the tree.

  `emitByRecursion` is emission without spines: an operation looks at its
  operator and emits both operands, a call emits its callee and its arguments.
  Emission itself goes down left operands and callees by a loop that looks at
  all operators on the way, and comes back from the inside out.

  * `translate_refusals_append`: the actions of a tree begin with the refusals
    of its spine, so to look at the operators of a spine ahead changes nothing;
  * `emit_eq_emitByRecursion`: both yield the same instructions or the same
    error, and leave the same pools.
-/
import Stacklet.Proofs.Emission

namespace Stacklet

/-! ## Recursion -/

mutual

/-- The instructions of a tree, by recursion on the tree. -/
def emitByRecursion : Tree → Pools → Except CompileError (List Instr) × Pools
  | .num n, pools => single (loadConst (.ofNumber n) pools)
  | .name id, pools => single (nameInstr .loadGlobal id pools)
  | .expr value, pools => emitByRecursion value pools
  | .block body, pools => emitMap sequence (emitEachByRecursion body pools)
  | .assign [.name id] value, pools =>
    emitBind (emitByRecursion value pools) fun code pools =>
      emitMap (fun store => code ++ [.dupTop, store]) (nameInstr .storeGlobal id pools)
  | .assign targets _, pools => (.error (.ofTargets targets), pools)
  | .binary left op right, pools =>
    if op = .add then
      emitBind (emitByRecursion left pools) fun code pools =>
        emitMap (fun more => code ++ (more ++ [.binaryAdd])) (emitByRecursion right pools)
    else (.error (.unsupportedOperator op), pools)
  | .call callee args, pools =>
    emitBind (emitByRecursion callee pools) fun code pools =>
      emitBind (emitEachByRecursion args pools) fun more pools =>
        emitMap (fun call => code ++ (more.flatten ++ [call]))
          (operandInstr .callFunction args.length Pools.callContext, pools)

/-- The instructions of each tree, from left to right. -/
def emitEachByRecursion : List Tree → Pools → Except CompileError (List (List Instr)) × Pools
  | [], pools => (.ok [], pools)
  | t :: ts, pools =>
    emitBind (emitByRecursion t pools) fun code pools =>
      emitMap (code :: ·) (emitEachByRecursion ts pools)

end

/-! ## Operators of a spine -/

/-- The actions of a tree begin with the refusals of its spine. -/
theorem Tree.exists_actions_eq (t : Tree) : ∃ rest, t.actions = t.refusals ++ rest := by
  cases t <;> exact ⟨_, rfl⟩

/-- Refusals ahead of a tree change nothing: the actions of the tree begin with
    them. -/
theorem translate_refusals_append (t : Tree) (as : List Action) (pools : Pools) :
    translate (t.refusals ++ (t.actions ++ as)) pools = translate (t.actions ++ as) pools := by
  obtain ⟨rest, hrest⟩ := t.exists_actions_eq
  rw [hrest, List.append_assoc, translate_refusals_twice]

/-! ## Trees -/

theorem translate_flatten (codes : List (List Action)) (pools : Pools) :
    translate codes.flatten pools = emitMap List.flatten (translateEach codes pools) := by
  induction codes generalizing pools with
  | nil => rfl
  | cons as codes ih =>
    simp only [List.flatten_cons, translate_append, ih, translateEach, emitMap_emitBind,
      emitMap_emitMap]

theorem emitEachByRecursion_eq {ts : List Tree}
    (h : ∀ t ∈ ts, ∀ pools, emitByRecursion t pools = translate t.actions pools) (pools : Pools) :
    emitEachByRecursion ts pools = translateEach (ts.map Tree.actions) pools := by
  induction ts generalizing pools with
  | nil => rfl
  | cons t ts ih =>
    obtain ⟨ht, hts⟩ := List.forall_mem_cons.1 h
    simp only [emitEachByRecursion, ht, ih hts, List.map_cons, translateEach]

/-- Recursion translates the actions of a tree, too. -/
theorem emitByRecursion_eq (t : Tree) (pools : Pools) :
    emitByRecursion t pools = translate t.actions pools := by
  induction t generalizing pools with
  | block body ih =>
    rw [emitByRecursion, emitEachByRecursion_eq ih, Tree.actions, Tree.actionsOfEach_eq,
      translate_joined]
  | expr value ih => exact ih pools
  | assign targets value ih =>
    rcases targets with _ | ⟨⟨id⟩ | _ | _, _ | _⟩
    case cons.name.nil =>
      simp only [emitByRecursion, ih, Tree.actions, translate_append, translate, Action.emit,
        emitBind_ok, emitMap_ok, emitMap_emitBind]
      rcases translate value.actions pools with ⟨_ | is, mid⟩
      · rfl
      · simp only [emitBind_ok]
        rcases nameInstr .storeGlobal id mid with ⟨_ | i, last⟩ <;> rfl
    all_goals
      rw [emitByRecursion]
      · rfl
      · simp
  | name id =>
    simp only [emitByRecursion, Tree.actions, translate, Action.emit, emitMap_ok]
    rcases nameInstr .loadGlobal id pools with ⟨_ | _, _⟩ <;> rfl
  | num n =>
    simp only [emitByRecursion, Tree.actions, translate, Action.emit, emitMap_ok]
    rcases loadConst (.ofNumber n) pools with ⟨_ | _, _⟩ <;> rfl
  | binary left op right ihl ihr =>
    rw [emitByRecursion, Tree.actions, Tree.refusals_binary]
    split
    · rw [translate_refusals_append, translate_append, ihl]
      simp only [translate_append, ihr, translate, Action.emit, emitBind_ok, emitMap_ok,
        emitMap_emitBind]
      rcases translate left.actions pools with ⟨_ | is, mid⟩
      · rfl
      · simp only [emitBind_ok]
        rcases translate right.actions mid with ⟨_ | js, last⟩ <;> rfl
    · rfl
  | call callee args ihc iha =>
    rw [emitByRecursion, Tree.actions, Tree.actionsOfEach_eq, translate_refusals_append,
      translate_append, ihc]
    simp only [emitEachByRecursion_eq iha, translate_append, translate_flatten, translate,
      Action.emit, emitMap_emitBind, emitBind_emitMap, emitMap_ok]
    rcases translate callee.actions pools with ⟨_ | is, mid⟩
    · rfl
    · simp only [emitBind_ok]
      rcases translateEach (args.map Tree.actions) mid with ⟨_ | codes, last⟩
      · rfl
      · simp only [emitBind_ok]
        rcases operandInstr .callFunction args.length Pools.callContext with _ | i <;> rfl

/-- **The loop down left spines is plain recursion**, whatever the pools hold: the
    instructions or the error are the same, and so are the pools afterwards. -/
theorem emit_eq_emitByRecursion (t : Tree) (pools : Pools) :
    emit t pools = emitByRecursion t pools := by
  rw [emit_eq, emitByRecursion_eq]

end Stacklet
