/-
  Compiled code is safe on a host.

  Whatever the limits, the globals and the output, a run of a compiled unit
  keeps to the pools and to the stack, and a value that it returns is `None`.

  * `Holds.run`: a unit runs as the actions of its tree do, or is stopped by a
    limit;
  * `runActions_spec`: actions that find enough values and end with the return
    of `None` cause no fault;
  * `run_isSafe`: both together.
-/
import Stacklet.Proofs.Compilable
import Stacklet.Proofs.Machine

namespace Stacklet

/-- The session in which a unit begins to run. -/
def Session.cleared (s : Session) : Session := ⟨s.globals, .empty, s.sink⟩

/-- A run of a unit that can be decoded is that of its instructions. -/
theorem Host.run_of_instructions {host : Host} {u : CodeUnit} {is : List (Nat × Instr)}
    (h : u.instructions host.numbering = .ok is) :
    ((host.run u).1, (host.run u).2.session) = exec host.limits u 0 is host.session.cleared := by
  obtain ⟨t, l, ⟨globals, stack, sink⟩⟩ := host
  rw [Host.run, h]
  rfl

/-- A unit runs as the actions of its tree do, unless a limit is exceeded, at a
    height that the stack check has seen. -/
theorem CodeUnit.Holds.run {host : Host} {tree : Tree} {u : CodeUnit} {is : List Instr}
    {depth : Nat} (h : CodeUnit.Holds host.numbering tree u is depth) :
    (∃ k height e, height ≤ depth ∧ host.limits.exceeded? k height = some e ∧
        (host.run u).1 = .error e) ∨
      runActions (poolValue u.consts) tree.unitActions host.session.cleared =
        ((host.run u).1.mapError .error, (host.run u).2.session) := by
  have hexec := exec_eq_runActions (s := host.session.cleared) h.nodup h.does host.limits
    h.maxDepth (Nat.le_refl 0) 0 0
  rw [← Host.run_of_instructions h.instructions] at hexec
  exact hexec

/-! ## No faults -/

/-- A run does not end with a fault, and only `result` is returned. -/
def IsSafe (result : Value) : Except Halt Value → Prop
  | .ok v => v = result
  | .error (.error e) => ¬ e.IsFault
  | .error .stuck => False

theorem runActions_return (value : Constant → Value) (c : Constant) (s : Session) :
    (runActions value [.load c, .ret] s).1 = .ok (value c) := by
  obtain ⟨globals, stack, sink⟩ := s
  rw [runActions, Action.step]
  simp only
  rw [runActions, Action.step, Stack.pop?_push]

/-- Actions that find enough values, and then return a constant. -/
theorem runActions_spec (value : Constant → Value) {body : List Action} {c : Constant}
    {s : Session} {last : Nat} (hh : heightPast? body s.stack.height = some last)
    (hret : .ret ∉ body) (hreject : ∀ e, .reject e ∉ body) :
    IsSafe (value c) (runActions value (body ++ [.load c, .ret]) s).1 := by
  induction body generalizing s with
  | nil =>
    rw [List.nil_append, runActions_return]
    exact rfl
  | cons a body ih =>
    rw [heightPast?] at hh
    split_ifs at hh with hp
    have hspec := Action.step_spec value hp
    rw [List.cons_append, runActions]
    cases hr : a.step value s with
    | none =>
      rw [hr] at hspec
      obtain ⟨e, rfl⟩ := hspec
      exact absurd List.mem_cons_self (hreject e)
    | some r =>
      rw [hr] at hspec
      cases r with
      | next s' =>
        rw [← hspec.2] at hh
        exact ih hh (mt (List.mem_cons_of_mem a) hret)
          fun e => mt (List.mem_cons_of_mem a) (hreject e)
      | done v s' => exact absurd (List.mem_cons.2 (Or.inl hspec.1.symm)) hret
      | failed e s' => exact hspec

/-! ## Compiled units -/

theorem Tree.ret_notMem_actions (t : Tree) (hs : t.Supported) : .ret ∉ t.actions := by
  have h := filterMap_actions (f := fun a => if a = .ret then some () else none)
    (g := fun _ => none) ⟨fun _ => rfl, fun _ => rfl, fun _ _ => rfl, fun _ _ => rfl,
      fun _ _ => rfl, fun _ => rfl, fun _ => rfl, rfl, rfl⟩ t hs
  have hnil : t.nodes.filterMap (fun _ => (none : Option Unit)) = [] := by simp
  intro hm
  simpa using List.filterMap_eq_nil_iff.1 (h.trans hnil) _ hm

theorem Tree.mem_actions_of_mem_bodyActions {t : Tree} {a : Action} (ha : a ≠ .drop)
    (h : a ∈ t.bodyActions) : a ∈ t.actions := by
  rw [bodyActions] at h
  split_ifs at h
  · cases h
  · rcases List.mem_append.1 h with h | h
    · exact h
    · exact absurd (List.mem_singleton.1 h) ha

theorem poolValue_none (consts : Array Constant) : poolValue consts .none = .none := by
  rw [poolValue]
  cases hf : consts.toList.find? (·.key = Constant.none.key) with
  | none => rfl
  | some c =>
    have hk := List.find?_some hf
    cases c with
    | none => rfl
    | int | float => simp [Constant.key] at hk

/-- The actions of a tree that compiles cause no fault. -/
theorem runActions_unitActions {tree : Tree} (h : tree.Compilable) (consts : Array Constant)
    (s : Session) :
    IsSafe .none (runActions (poolValue consts) tree.unitActions s.cleared).1 := by
  have hs := h.supported
  have hh := tree.heightPast?_unitActions hs h.operands
  rw [Tree.unitActions_eq, heightPast?_append, Option.bind_eq_some_iff] at hh
  obtain ⟨last, hlast, -⟩ := hh
  rw [Tree.unitActions_eq, ← poolValue_none consts]
  refine runActions_spec _ hlast ?_ fun e => ?_
  · exact mt (Tree.mem_actions_of_mem_bodyActions nofun) (tree.ret_notMem_actions hs)
  · exact mt (Tree.mem_actions_of_mem_bodyActions nofun) ((tree.supported_iff).1 hs e)

theorem Limits.not_isFault {l : Limits} {count height : Nat} {e : RuntimeError}
    (h : l.exceeded? count height = some e) : ¬ e.IsFault := by
  unfold exceeded? at h
  repeat' split at h
  all_goals
    cases h
    try exact not_false

/-- **A compiled unit is safe on any host with the same bytes**: whatever ran
    there before and whatever the limits, the run ends with `None` or with an
    error of the program's own. -/
theorem run_isSafe {t : Numbering} {options : UnitOptions} {tree : Tree} {u : CodeUnit}
    (h : CodeUnit.ofTree t options tree = .ok u) (host : Host) (ht : host.numbering = t) :
    match (host.run u).1 with
    | .ok v => v = .none
    | .error e => ¬ e.IsFault := by
  subst ht
  obtain ⟨is, depth, hu⟩ := CodeUnit.holds_of_ofTree h
  rcases hu.run with ⟨k, height, e, -, hlimit, herr⟩ | hrun
  · rw [herr]
    exact Limits.not_isFault hlimit
  · have hsafe := runActions_unitActions hu.compilable u.consts host.session
    rw [hrun] at hsafe
    cases hr : (host.run u).1 with
    | ok v =>
      rw [hr] at hsafe
      exact hsafe
    | error e =>
      rw [hr] at hsafe
      exact hsafe

theorem run_isSafe_printSum :
    ∃ u, CodeUnit.ofTree .classic .default Tree.printSum = .ok u ∧
      match ((Host.fresh .classic .default .empty).run u).1 with
      | .ok v => v = .none
      | .error e => ¬ e.IsFault := by
  obtain ⟨u, hu⟩ := (CodeUnit.exists_ofTree_iff .classic .default Tree.printSum).2 (by decide)
  exact ⟨u, hu, run_isSafe hu (.fresh .classic .default .empty) rfl⟩

end Stacklet
