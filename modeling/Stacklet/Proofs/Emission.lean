/-
  Emission is the translation of actions.

  Emission goes down left spines by a loop, which looks at all operators of a
  spine first and leaves what hangs off it for later. `Tree.EmitsSpine` says
  what the loop does for any hooks that come from further out, and so brings
  it back to the order of the tree.

  * `emit_eq`: emission translates the actions of a tree;
  * `instructionsOf_eq`: and so does the emission of a whole unit.
-/
import Stacklet.Proofs.Action

namespace Stacklet

/-! ## Arguments, statements and hooks -/

/-- Emission of a tree yields the instructions of its actions. -/
def Tree.Emits (t : Tree) : Prop := ∀ pools, emit t pools = translate t.actions pools

theorem emitArgs_eq {args : List Tree} (h : ∀ t ∈ args, t.Emits) (code : Array Instr)
    (pools : Pools) :
    emitArgs args code pools =
      emitMap (fun more : List Instr => code ++ more)
        (translate (args.map Tree.actions).flatten pools) := by
  induction args generalizing code pools with
  | nil => simp [emitArgs, translate]
  | cons t args ih =>
    have ht := h t (by simp)
    have ih := ih fun t' ht' => h t' (by simp [ht'])
    rw [emitArgs, ht, List.map_cons, List.flatten_cons, translate_append]
    rcases translate t.actions pools with ⟨_ | is, mid⟩
    · rfl
    · have (more : List Instr) : code ++ is ++ more = code ++ (is ++ more) := Array.ext' (by simp)
      simp [ih, emitMap_emitMap, this]

theorem emitStatements_eq {body : List Tree} (h : ∀ t ∈ body, t.Emits)
    (codes : Array (List Instr)) (pools : Pools) :
    emitStatements body codes pools =
      emitMap (fun more => sequence (codes.toList ++ more))
        (translateEach (body.map Tree.actions) pools) := by
  induction body generalizing codes pools with
  | nil => simp [emitStatements, translateEach]
  | cons t body ih =>
    have ht := h t (by simp)
    have ih := ih fun t' ht' => h t' (by simp [ht'])
    rw [emitStatements, ht, List.map_cons, translateEach]
    rcases translate t.actions pools with ⟨_ | is, mid⟩
    · rfl
    · simp [ih, emitMap_emitMap]

/-- The trees that hang off a spine. -/
def Hook.trees : Hook → List Tree
  | add right => [right]
  | call args => args

/-- What is done for what hangs off a spine at one place. -/
def Hook.actions : Hook → List Action
  | add right => right.actions ++ [.add]
  | call args => (args.map Tree.actions).flatten ++ [.call args.length]

theorem emitHooks_eq {hooks : List Hook} (h : ∀ hook ∈ hooks, ∀ t ∈ hook.trees, t.Emits)
    (code : Array Instr) (pools : Pools) :
    emitHooks hooks code pools =
      emitMap (code.toList ++ ·) (translate (hooks.flatMap Hook.actions) pools) := by
  induction hooks generalizing code pools with
  | nil => simp [emitHooks, translate]
  | cons hook hooks ih =>
    have ih := ih fun hook' hh => h hook' (by simp [hh])
    cases hook with
    | add right =>
      have hr : right.Emits := h _ (List.mem_cons_self ..) right (by simp [Hook.trees])
      rw [emitHooks, hr, List.flatMap_cons, Hook.actions, List.append_assoc, translate_append]
      rcases translate right.actions pools with ⟨_ | is, mid⟩
      · rfl
      · simp [ih, translate, Action.emit, emitMap_emitMap]
    | call args =>
      have ha : ∀ t ∈ args, t.Emits := h _ (List.mem_cons_self ..)
      rw [emitHooks, emitArgs_eq ha, List.flatMap_cons, Hook.actions, List.append_assoc,
        translate_append]
      rcases translate (args.map Tree.actions).flatten pools with ⟨_ | is, mid⟩
      · rfl
      · simp only [emitMap_ok, emitBind_ok, translate, List.cons_append, List.nil_append,
          Action.emit]
        rcases operandInstr .callFunction args.length Pools.callContext with _ | i
        · rfl
        · simp [ih, emitMap_emitMap]

/-! ## Spines -/

theorem emitSpine_add (left right : Tree) (hooks : List Hook) (pools : Pools) :
    emitSpine (.binary left .add right) hooks pools =
      emitSpine left (.add right :: hooks) pools := by
  rw [emitSpine, emitSpine]
  rfl

theorem emitSpine_call (callee : Tree) (args : List Tree) (hooks : List Hook) (pools : Pools) :
    emitSpine (.call callee args) hooks pools = emitSpine callee (.call args :: hooks) pools := by
  rw [emitSpine, emitSpine]
  rfl

/-- A spine that ends at once. -/
theorem emitSpine_leaf {t : Tree} {hooks : List Hook} (h : spine t hooks = .ok (t, hooks))
    (pools : Pools) :
    emitSpine t hooks pools =
      emitBind (emit t pools) fun code pools => emitHooks hooks code.toArray pools := by
  rw [emitSpine]
  split
  · rename_i e he
    rw [h] at he
    cases he
  · rename_i leaf rest he
    rw [h] at he
    cases he
    rcases emit t pools with ⟨_ | _, _⟩ <;> rfl

/-- Refusals once more change nothing: the first of them already fails. -/
theorem translate_refusals_twice (t : Tree) (as : List Action) (pools : Pools) :
    translate (t.refusals ++ (t.refusals ++ as)) pools = translate (t.refusals ++ as) pools := by
  unfold Tree.refusals
  cases t.spineOperators.filter (· ≠ .add) with
  | nil => rfl
  | cons op ops => rfl

/-- Emission goes down a spine in the order of its actions. -/
def Tree.EmitsSpine (t : Tree) : Prop :=
  ∀ hooks : List Hook, (∀ hook ∈ hooks, ∀ t ∈ hook.trees, t.Emits) → ∀ pools,
    emitSpine t hooks pools =
      translate (t.refusals ++ (t.actions ++ hooks.flatMap Hook.actions)) pools

theorem Tree.Emits.emitsSpine {t : Tree} (h : t.Emits)
    (hs : ∀ hooks, spine t hooks = .ok (t, hooks))
    (hr : t.refusals = []) : t.EmitsSpine := by
  intro hooks hh pools
  rw [emitSpine_leaf (hs hooks), h, hr, List.nil_append, translate_append]
  simp only [emitHooks_eq hh]

/-! ## Trees -/

theorem emits_binary {left right : Tree} (op : BinOp) (hl : left.EmitsSpine) (hr : right.Emits) :
    Tree.Emits (.binary left op right) := by
  intro pools
  rw [emit, Tree.actions, Tree.refusals_binary]
  split
  · rw [hl [.add right] (by simpa [Hook.trees] using hr)]
    simp [Hook.actions]
  · rfl

theorem emitsSpine_binary {left right : Tree} (op : BinOp) (hl : left.EmitsSpine)
    (hr : right.Emits) : Tree.EmitsSpine (.binary left op right) := by
  intro hooks hh pools
  rw [Tree.actions, Tree.refusals_binary]
  split
  · subst op
    rw [emitSpine_add, hl _ (by simpa [Hook.trees, hr] using hh)]
    simp only [List.append_assoc, translate_refusals_twice, List.flatMap_cons, Hook.actions]
  · rename_i hop
    rw [emitSpine]
    simp only [List.cons_append, translate, Action.emit, emitBind_error]
    split
    · rename_i e he
      rw [spine, if_neg hop] at he
      cases he
      rfl
    · rename_i leaf rest he
      rw [spine, if_neg hop] at he
      cases he

theorem emits_call {callee : Tree} {args : List Tree} (hc : callee.EmitsSpine)
    (ha : ∀ t ∈ args, t.Emits) : Tree.Emits (.call callee args) := by
  intro pools
  rw [emit, Tree.actions, hc [.call args] (by simpa [Hook.trees] using ha)]
  simp [Hook.actions]

theorem emitsSpine_call {callee : Tree} {args : List Tree} (hc : callee.EmitsSpine)
    (ha : ∀ t ∈ args, t.Emits) : Tree.EmitsSpine (.call callee args) := by
  intro hooks hh pools
  have hr : Tree.refusals (.call callee args) = callee.refusals := rfl
  rw [emitSpine_call, hc (.call args :: hooks) (by
    intro hook hm
    rcases List.mem_cons.1 hm with rfl | hm
    · exact ha
    · exact hh hook hm), Tree.actions, hr]
  simp only [List.append_assoc, translate_refusals_twice, List.flatMap_cons, Hook.actions,
    Tree.actionsOfEach_eq]

theorem emits_assign (targets : List Target) {value : Tree} (hv : value.Emits) :
    Tree.Emits (.assign targets value) := by
  intro pools
  rcases targets with _ | ⟨⟨id⟩ | _ | _, _ | _⟩
  case cons.name.nil =>
    rw [emit, hv, Tree.actions, translate_append]
    rcases translate value.actions pools with ⟨_ | is, mid⟩
    · rfl
    · simp only [emitBind_ok, translate, Action.emit, emitMap_ok, emitMap_emitBind]
      rcases nameInstr .storeGlobal id mid with ⟨_ | i, last⟩ <;> rfl
  all_goals
    rw [emit]
    · rfl
    · simp

theorem emits_and_emitsSpine (t : Tree) : t.Emits ∧ t.EmitsSpine := by
  induction t with
  | block body ih =>
    have h : Tree.Emits (.block body) := by
      intro pools
      rw [emit, emitStatements_eq fun t ht => (ih t ht).1, Tree.actions, Tree.actionsOfEach_eq,
        translate_joined]
      rfl
    exact ⟨h, h.emitsSpine (fun _ => rfl) rfl⟩
  | expr value ih =>
    have h : Tree.Emits (.expr value) := by
      intro pools
      rw [emit, ih.1, Tree.actions]
    exact ⟨h, h.emitsSpine (fun _ => rfl) rfl⟩
  | assign targets value ih =>
    have h := emits_assign targets ih.1
    exact ⟨h, h.emitsSpine (fun _ => rfl) rfl⟩
  | name id =>
    have h : Tree.Emits (.name id) := by
      intro pools
      rw [emit, Tree.actions, translate]
      simp only [Action.emit, translate, emitMap_ok]
      rcases nameInstr .loadGlobal id pools with ⟨_ | _, _⟩ <;> rfl
    exact ⟨h, h.emitsSpine (fun _ => rfl) rfl⟩
  | num n =>
    have h : Tree.Emits (.num n) := by
      intro pools
      rw [emit, Tree.actions, translate]
      simp only [Action.emit, translate, emitMap_ok]
      rcases loadConst (.ofNumber n) pools with ⟨_ | _, _⟩ <;> rfl
    exact ⟨h, h.emitsSpine (fun _ => rfl) rfl⟩
  | binary left op right ihl ihr =>
    exact ⟨emits_binary op ihl.2 ihr.1, emitsSpine_binary op ihl.2 ihr.1⟩
  | call callee args ihc iha =>
    have ha : ∀ t ∈ args, t.Emits := fun t ht => (iha t ht).1
    exact ⟨emits_call ihc.2 ha, emitsSpine_call ihc.2 ha⟩

/-- **Emission translates the actions of a tree, one by one.** -/
theorem emit_eq (t : Tree) (pools : Pools) : emit t pools = translate t.actions pools :=
  (emits_and_emitsSpine t).1 pools

/-- A whole unit is emitted action by action, too. -/
theorem instructionsOf_eq (t : Tree) (pools : Pools) :
    CodeUnit.instructionsOf t pools = translate t.unitActions pools := by
  rw [CodeUnit.instructionsOf, emit_eq, Tree.unitActions, translate_joined]
  simp only [translateEach, translate, Action.emit, emitBind_ok, emitMap_ok, emitMap_emitBind]
  rcases translate t.actions pools with ⟨_ | is, mid⟩
  · rfl
  · simp only [emitBind_ok]
    rcases loadConst .none mid with ⟨_ | i, last⟩ <;> rfl

end Stacklet
