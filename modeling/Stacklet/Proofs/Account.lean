/-
  What the actions of a tree say about its nodes.

  * `actions_eq_nil_iff`: silent trees are those without actions;
  * `supported_iff`: emission refuses none of the actions of a tree whose
    nodes are all supported, and some action of any other tree;
  * `constantsOf_actions`, `namesOf_actions`, `argCounts_actions`: the constants,
    the names and the argument counts are those of the nodes.
-/
import Stacklet.Proofs.Translation

namespace Stacklet

/-! ## Statements in sequence -/

section
variable {codes : List (List Action)}

theorem filterMap_intercalate {β : Type} {f : Action → Option β} (hf : f .drop = none) :
    (List.intercalate [.drop] codes).filterMap f = codes.flatMap (List.filterMap f) := by
  induction codes with
  | nil => rfl
  | cons as codes ih =>
    cases codes with
    | nil => simp
    | cons bs codes =>
      rw [List.intercalate_cons_cons, List.filterMap_append, List.filterMap_append, ih,
        List.flatMap_cons]
      simp [hf]

theorem flatMap_filter_isEmpty {β : Type} {f : List Action → List β} (hf : f [] = []) :
    (codes.filter (!·.isEmpty)).flatMap f = codes.flatMap f := by
  induction codes with
  | nil => rfl
  | cons as codes ih =>
    cases as with
    | nil => simp [hf, ih]
    | cons a as => simp [ih]

/-- What actions in sequence are about, the values between them aside. -/
theorem filterMap_joined {β : Type} {f : Action → Option β} (hf : f .drop = none) :
    (joined codes).filterMap f = codes.flatMap (List.filterMap f) := by
  rw [joined, filterMap_intercalate hf, flatMap_filter_isEmpty List.filterMap_nil]

theorem mem_joined (a : Action) (ha : a ≠ .drop) :
    a ∈ joined codes ↔ ∃ as ∈ codes, a ∈ as := by
  -- an action as what it is about itself
  have hf : (fun b => if b = a then some b else none : Action → Option Action) .drop = none :=
    if_neg ha.symm
  have hm (as : List Action) :
      a ∈ as ↔ a ∈ as.filterMap fun b => if b = a then some b else none := by
    simp
  rw [hm, filterMap_joined hf, List.mem_flatMap]
  simp only [← hm]

theorem joined_eq_nil : joined codes = [] ↔ ∀ as ∈ codes, as = [] := by
  unfold joined
  cases h : codes.filter (!·.isEmpty) with
  | nil =>
    simp only [List.intercalate_nil, true_iff]
    simpa using h
  | cons as rest =>
    have hm : as ∈ codes.filter (!·.isEmpty) := by simp [h]
    rw [List.mem_filter] at hm
    constructor
    · intro hj
      cases rest with
      | nil => simp_all
      | cons bs rest => simp at hj
    · intro hall
      simp [hall as hm.1] at hm

end

namespace Tree

/-- Silent trees are those without actions. -/
theorem actions_eq_nil_iff (t : Tree) : t.actions = [] ↔ t.isSilent := by
  induction t with
  | block body ih =>
    rw [actions, actionsOfEach_eq, joined_eq_nil, isSilent, areSilent_eq, List.all_eq_true]
    simp only [List.mem_map, forall_exists_index, and_imp, forall_apply_eq_imp_iff₂]
    exact forall₂_congr ih
  | expr value ih => exact ih
  | assign targets value ih =>
    rcases targets with _ | ⟨⟨id⟩ | _ | _, _ | _⟩ <;> simp [actions, isSilent]
  | name id => simp [actions, isSilent]
  | num n => simp [actions, isSilent]
  | binary left op right => simp [actions, isSilent]
  | call callee args => simp [actions, isSilent]

/-! ## Refusals -/

theorem refusals_eq_nil (t : Tree) (h : t.Supported) : t.refusals = [] := by
  induction t with
  | binary left op right ihl _ =>
    obtain ⟨rfl : op = .add, hl, -⟩ := all_binary.1 h
    rw [refusals_binary, if_pos rfl, ihl hl]
  | call callee args ihc _ => exact ihc (all_call.1 h).2.1
  | block | expr | assign | name | num => rfl

theorem supported_assign {targets : List Target} {value : Tree} :
    Supported (.assign targets value) ↔ (∃ id, targets = [.name id]) ∧ value.Supported := all_assign

theorem actions_assign_unsupported {targets : List Target} {value : Tree}
    (h : ¬ ∃ id, targets = [.name id]) :
    actions (.assign targets value) = [.reject (.ofTargets targets)] := by
  rcases targets with _ | ⟨⟨id⟩ | _ | _, _ | _⟩
  case cons.name.nil => exact absurd ⟨id, rfl⟩ h
  all_goals rfl

/-- Emission refuses no action of a tree exactly if it refuses no node. -/
theorem supported_iff (t : Tree) : t.Supported ↔ ∀ e, .reject e ∉ t.actions := by
  induction t with
  | block body ih =>
    have hm (e : CompileError) :
        .reject e ∈ actions (.block body) ↔ ∃ t ∈ body, .reject e ∈ t.actions := by
      rw [actions, actionsOfEach_eq, mem_joined (.reject e) nofun]
      simp
    rw [Supported, all_block]
    simp only [hm, not_exists, not_and, IsSupported, true_and]
    constructor
    · intro h e t ht
      exact (ih t ht).1 (h t ht) e
    · intro h t ht
      exact (ih t ht).2 fun e => h e t ht
  | expr value ih =>
    rw [Supported, all_expr, actions, ← ih]
    simp [IsSupported, Supported]
  | assign targets value ih =>
    rw [supported_assign]
    by_cases h : ∃ id, targets = [.name id]
    · obtain ⟨id, rfl⟩ := h
      rw [actions, ih]
      simp
    · rw [actions_assign_unsupported h]
      simp [h]
  | name id => simp [Supported, All, nodes, actions, IsSupported]
  | num n => simp [Supported, All, nodes, actions, IsSupported]
  | binary left op right ihl ihr =>
    rw [Supported, all_binary, actions, refusals_binary]
    constructor
    · rintro ⟨rfl : op = .add, hl, hr⟩ e
      simp [refusals_eq_nil left hl, ihl.1 hl e, ihr.1 hr e]
    · intro h
      by_cases hop : op = .add
      · simp only [hop, if_true, List.mem_append, not_or] at h
        exact ⟨hop, ihl.2 fun e => (h e).2.1, ihr.2 fun e => (h e).2.2.1⟩
      · exact absurd (h (.unsupportedOperator op)) (by simp [hop])
  | call callee args ihc iha =>
    rw [Supported, all_call, actions, actionsOfEach_eq]
    simp only [List.mem_append, not_or, List.mem_flatten, List.mem_map, exists_exists_and_eq_and,
      not_exists, not_and, IsSupported, true_and]
    constructor
    · rintro ⟨hc, ha⟩ e
      rw [refusals_eq_nil callee hc]
      exact ⟨List.not_mem_nil, ihc.1 hc e, fun t ht => (iha t ht).1 (ha t ht) e, by simp⟩
    · intro h
      exact ⟨ihc.2 fun e => (h e).2.1, fun t ht => (iha t ht).2 fun e => (h e).2.2.1 t ht⟩

/-! ## Constants, names and calls -/

/-- What `f` makes of the last action of a node is what `g` makes of the node;
    blocks and expression statements have no action of their own. -/
structure Agree {β : Type} (f : Action → Option β) (g : Tree → Option β) : Prop where
  num : ∀ n, g (.num n) = f (.load (.ofNumber n))
  name : ∀ id, g (.name id) = f (.fetch id)
  assign : ∀ id value, g (.assign [.name id] value) = f (.store id)
  binary : ∀ left right, g (.binary left .add right) = f .add
  call : ∀ callee args, g (.call callee args) = f (.call args.length)
  block : ∀ body, g (.block body) = none
  expr : ∀ value, g (.expr value) = none
  drop : f .drop = none
  dup : f .dup = none

theorem filterMap_flatMap_nodes {β : Type} {f : Action → Option β} {g : Tree → Option β}
    {ts : List Tree} (h : ∀ t ∈ ts, t.actions.filterMap f = t.nodes.filterMap g) :
    (ts.map actions).flatMap (List.filterMap f) = (ts.flatMap nodes).filterMap g := by
  rw [List.flatMap_map, List.filterMap_flatMap]
  exact List.flatMap_congr h

/-- The actions of a tree are about its nodes, in the same order. -/
theorem filterMap_actions {β : Type} {f : Action → Option β} {g : Tree → Option β}
    (hfg : Agree f g) (t : Tree) (h : t.Supported) :
    t.actions.filterMap f = t.nodes.filterMap g := by
  induction t with
  | block body ih =>
    have hb := filterMap_flatMap_nodes fun t ht => ih t ht ((all_block.1 h).2 t ht)
    rw [actions, actionsOfEach_eq, filterMap_joined hfg.drop, hb, nodes, nodesOfEach_eq]
    simp [hfg.block]
  | expr value ih =>
    rw [actions, ih (all_expr.1 h).2, nodes]
    simp [hfg.expr]
  | assign targets value ih =>
    obtain ⟨⟨id, rfl⟩, hv⟩ := supported_assign.1 h
    rw [actions, nodes, List.filterMap_append, List.filterMap_append, ih hv]
    simp [hfg.dup, hfg.assign, List.filterMap_cons]
  | name id => simp [actions, nodes, hfg.name, List.filterMap_cons]
  | num n => simp [actions, nodes, hfg.num, List.filterMap_cons]
  | binary left op right ihl ihr =>
    obtain ⟨rfl : op = .add, hl, hr⟩ := all_binary.1 h
    rw [actions, nodes, refusals_eq_nil _ h, List.nil_append]
    simp only [List.filterMap_append, ihl hl, ihr hr]
    simp [hfg.binary, List.filterMap_cons]
  | call callee args ihc iha =>
    obtain ⟨-, hc, ha⟩ := all_call.1 h
    have hargs := filterMap_flatMap_nodes fun t ht => iha t ht (ha t ht)
    rw [actions, nodes, refusals_eq_nil _ hc, List.nil_append, actionsOfEach_eq, nodesOfEach_eq]
    simp only [List.filterMap_append, ihc hc, ← hargs, List.filterMap_flatten]
    simp [hfg.call, List.filterMap_cons, List.flatMap_def]

/-- The constants that are loaded are the literals. -/
theorem constantsOf_actions (t : Tree) (h : t.Supported) : constantsOf t.actions = t.literals :=
  filterMap_actions ⟨fun _ => rfl, fun _ => rfl, fun _ _ => rfl, fun _ _ => rfl, fun _ _ => rfl,
    fun _ => rfl, fun _ => rfl, rfl, rfl⟩ t h

/-- The names that are read and bound are those of the nodes. -/
theorem namesOf_actions (t : Tree) (h : t.Supported) : namesOf t.actions = t.names :=
  filterMap_actions ⟨fun _ => rfl, fun _ => rfl, fun _ _ => rfl, fun _ _ => rfl, fun _ _ => rfl,
    fun _ => rfl, fun _ => rfl, rfl, rfl⟩ t h

/-- The arguments that are counted are those of the calls. -/
theorem argCounts_actions (t : Tree) (h : t.Supported) :
    t.actions.filterMap Action.argCount? = t.nodes.filterMap argCount? :=
  filterMap_actions ⟨fun _ => rfl, fun _ => rfl, fun _ _ => rfl, fun _ _ => rfl, fun _ _ => rfl,
    fun _ => rfl, fun _ => rfl, rfl, rfl⟩ t h

theorem call_mem_actions (t : Tree) (h : t.Supported) (count : Nat) :
    .call count ∈ t.actions ↔ ∃ callee args, .call callee args ∈ t.nodes ∧ args.length = count := by
  have hl : .call count ∈ t.actions ↔ count ∈ t.actions.filterMap Action.argCount? := by
    rw [List.mem_filterMap]
    constructor
    · exact fun hc => ⟨_, hc, rfl⟩
    · rintro ⟨a, ha, hc⟩
      cases a with
      | call n => cases hc; exact ha
      | load | fetch | store | add | drop | dup | ret | reject => cases hc
  rw [hl, argCounts_actions t h, List.mem_filterMap]
  constructor
  · rintro ⟨node, hn, hc⟩
    cases node with
    | call callee args => cases hc; exact ⟨callee, args, hn, rfl⟩
    | block | expr | assign | name | num | binary => cases hc
  · rintro ⟨callee, args, hn, rfl⟩
    exact ⟨_, hn, rfl⟩

end Tree

end Stacklet
