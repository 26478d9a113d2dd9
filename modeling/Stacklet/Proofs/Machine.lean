/-
  Actions on a host.

  `Action.step` is what an action makes of a session; constants are given
  their values by a function. An instruction that does an action makes the
  same of it (`step_of_does`), the value of a constant being that of the entry
  with its key (`poolValue`).

  * `IsOwn`: errors that are neither faults of the code nor those of limits;
  * `Action.step_spec`: an action that finds enough values goes on, returns the
    top one or fails for a reason of the program's own;
  * `exec_eq_runActions`: instructions that pass the stack check run as their
    actions do, or are stopped by a limit.
-/
import Stacklet.Host
import Stacklet.Proofs.Codec
import Stacklet.Proofs.Height

namespace Stacklet

/-! ## One action -/

/-- What an action makes of a session, if there is an action and the stack is
    high enough for it. -/
def Action.step (value : Constant → Value) (a : Action) : Session → Option Step
  | ⟨globals, stack, sink⟩ =>
    match a with
    | .load c => some (.next ⟨globals, stack.push (value c), sink⟩)
    | .fetch id =>
      match lookUp globals id with
      | .ok v => some (.next ⟨globals, stack.push v, sink⟩)
      | .error e => some (.failed e ⟨globals, stack, sink⟩)
    | .store id =>
      match stack.pop? with
      | some (v, rest) => some (.next ⟨globals.insert id v, rest, sink⟩)
      | none => none
    | .add =>
      match stack.popMany? 2 with
      | some ([a, b], rest) =>
        match a.add b with
        | .ok v => some (.next ⟨globals, rest.push v, sink⟩)
        | .error e => some (.failed e ⟨globals, rest, sink⟩)
      | _ => none
    | .call count =>
      match stack.popMany? (count + 1) with
      | some (callee :: args, rest) =>
        match Stacklet.call callee args sink with
        | (.ok v, sink) => some (.next ⟨globals, rest.push v, sink⟩)
        | (.error e, sink) => some (.failed e ⟨globals, rest, sink⟩)
      | _ => none
    | .drop =>
      match stack.pop? with
      | some (_, rest) => some (.next ⟨globals, rest, sink⟩)
      | none => none
    | .dup =>
      match stack.pop? with
      | some (v, rest) => some (.next ⟨globals, (rest.push v).push v, sink⟩)
      | none => none
    | .ret =>
      match stack.pop? with
      | some (v, rest) => some (.done v ⟨globals, rest, sink⟩)
      | none => none
    | .reject _ => none

/-! ## Instructions -/

/-- The value that code with a pool loads for a constant: that of the entry
    with its key. -/
def poolValue (consts : Array Constant) (c : Constant) : Value :=
  .ofConstant ((consts.toList.find? (·.key = c.key)).getD c)

theorem find?_of_nodup {α κ : Type} [DecidableEq κ] {key : α → κ} {as : List α}
    (hn : (as.map key).Nodup) {n : Nat} {a : α} (h : as[n]? = some a) :
    as.find? (key · = key a) = some a := by
  obtain ⟨hlt, rfl⟩ := List.getElem?_eq_some_iff.1 h
  rw [List.find?_eq_some_iff_getElem]
  refine ⟨by simp, n, hlt, rfl, fun m hm => ?_⟩
  -- an earlier value with the same key would be a repeat
  have hearlier : as[m]? = some as[m] := List.getElem?_eq_getElem _
  have hne : key as[m] ≠ key as[n] := fun hk => hm.ne (eq_of_getElem?_key hn hearlier h hk)
  simpa using hne

/-- **An instruction does to a session what its action says.** -/
theorem step_of_does {u : CodeUnit} {a : Action} {i : Instr} (h : Does u.consts u.names a i)
    (hn : (u.consts.toList.map Constant.key).Nodup) {s : Session} {r : Step}
    (hr : a.step (poolValue u.consts) s = some r) (offset : Nat) : step u offset i s = r := by
  obtain ⟨globals, stack, sink⟩ := s
  cases h with
  | @load c n h =>
    obtain ⟨d, hd, hk⟩ := Option.map_eq_some_iff.1 h
    have hfind := find?_of_nodup hn (by rwa [Array.getElem?_toList])
    rw [Action.step, poolValue, ← hk, hfind] at hr
    cases hr
    rw [step, hd]
    rfl
  | fetch h =>
    rw [Action.step] at hr
    rw [step, h]
    split at hr
    all_goals
      cases hr
      simp only [*]
  | store h =>
    rw [Action.step] at hr
    rw [step, h]
    split at hr
    · cases hr
      simp only [*]
    · cases hr
  | call h =>
    subst h
    rw [Action.step] at hr
    rw [step]
    split at hr
    · split at hr
      all_goals
        cases hr
        simp only [*]
    · cases hr
  | add =>
    rw [Action.step] at hr
    rw [step]
    split at hr
    · split at hr
      all_goals
        cases hr
        simp only [*]
    · cases hr
  | drop | dup | ret =>
    rw [Action.step] at hr
    rw [step]
    split at hr
    · cases hr
      simp only [*]
    · cases hr

/-! ## Errors of the program's own -/

/-- Errors that no code causes that keeps to its pools and to its stack. -/
def RuntimeError.IsFault : RuntimeError → Prop
  | stackUnderflow _ _ | badOperand _ _ _ | missingReturn | decode _ => True
  | undefinedName _ | type _ | overflow _ | stepLimit _ | stackLimit _ | output _ => False

namespace RuntimeError

/-- Errors for which a limit is the reason. -/
def IsLimit : RuntimeError → Prop
  | stepLimit _ | stackLimit _ => True
  | stackUnderflow _ _ | badOperand _ _ _ | missingReturn | decode _ | undefinedName _ | type _
  | overflow _ | output _ => False

/-- Errors for which the program is the reason, or its output. -/
def IsOwn : RuntimeError → Prop
  | undefinedName _ | type _ | overflow _ | output _ => True
  | stackUnderflow _ _ | badOperand _ _ _ | missingReturn | decode _ | stepLimit _
  | stackLimit _ => False

theorem IsOwn.not_isFault {e : RuntimeError} (h : e.IsOwn) : ¬ e.IsFault := by
  cases e with
  | undefinedName | type | overflow | output => exact not_false
  | stackUnderflow | badOperand | missingReturn | decode | stepLimit | stackLimit => cases h

theorem IsOwn.not_isLimit {e : RuntimeError} (h : e.IsOwn) : ¬ e.IsLimit := by
  cases e with
  | undefinedName | type | overflow | output => exact not_false
  | stackUnderflow | badOperand | missingReturn | decode | stepLimit | stackLimit => cases h

end RuntimeError

theorem isOwn_lookUp {globals : Std.HashMap String Value} {name : String} {e : RuntimeError}
    (h : lookUp globals name = .error e) : e.IsOwn := by
  unfold lookUp at h
  split at h
  · cases h
  · split at h
    · cases h
    · cases h
      exact trivial

theorem isOwn_add {a b : Value} {e : RuntimeError} (h : a.add b = .error e) : e.IsOwn := by
  unfold Value.add at h
  split at h
  · split at h
    · cases h
    · cases h
      exact trivial
  all_goals
    cases h
    try exact trivial

theorem isOwn_pow {a b : Value} {e : RuntimeError} (h : a.pow b = .error e) : e.IsOwn := by
  unfold Value.pow at h
  repeat' split at h
  all_goals
    cases h
    try exact trivial

theorem isOwn_call {callee : Value} {args : List Value} {sink sink' : Sink} {e : RuntimeError}
    (h : call callee args sink = (.error e, sink')) : e.IsOwn := by
  unfold call at h
  split at h
  · split at h
    · cases h
    · cases h
      exact trivial
  · exact isOwn_pow (congrArg Prod.fst h)
  all_goals
    cases h
    exact trivial

/-! ## Heights -/

namespace Stack

theorem pop?_of_pos (s : Stack) (h : 1 ≤ s.height) :
    ∃ v rest, s.pop? = some (v, rest) ∧ s.values = v :: rest.values ∧
      rest.height = s.height - 1 := by
  cases hp : s.pop? with
  | none =>
    rw [pop?_eq_none_iff] at hp
    rw [s.height_eq, hp] at h
    exact absurd h (by decide)
  | some p =>
    obtain ⟨v, rest⟩ := p
    have hv := pop?_eq_some_iff.1 hp
    refine ⟨v, rest, rfl, hv, ?_⟩
    rw [s.height_eq, rest.height_eq, hv]
    rfl

theorem popMany?_of_le (s : Stack) (count : Nat) (h : count ≤ s.height) :
    ∃ vs rest, s.popMany? count = some (vs, rest) ∧ vs.length = count ∧
      rest.height = s.height - count := by
  refine ⟨_, _, if_pos h, ?_, rfl⟩
  rw [List.length_reverse, List.length_take, ← s.height_eq, Nat.min_eq_left h]

end Stack

/-- **An action that finds enough values does not get stuck**, and changes the
    height as it says. -/
theorem Action.step_spec (value : Constant → Value) {a : Action} {s : Session}
    (h : a.pops ≤ s.stack.height) :
    match a.step value s with
    | none => ∃ e, a = .reject e
    | some (.next s') => a ≠ .ret ∧ s'.stack.height = s.stack.height - a.pops + a.pushes
    | some (.done v _) => a = .ret ∧ s.stack.values.head? = some v
    | some (.failed e _) => ¬ e.IsFault := by
  obtain ⟨globals, stack, sink⟩ := s
  cases a with
  | load c => exact ⟨nofun, rfl⟩
  | fetch id =>
    rw [step]
    cases hl : lookUp globals id with
    | ok v => exact ⟨nofun, rfl⟩
    | error e => exact (isOwn_lookUp hl).not_isFault
  | store id | drop =>
    obtain ⟨v, rest, hp, hv, hh⟩ := stack.pop?_of_pos h
    rw [step, hp]
    exact ⟨nofun, hh⟩
  | dup =>
    obtain ⟨v, rest, hp, hv, hh⟩ := stack.pop?_of_pos h
    rw [step, hp]
    exact ⟨nofun, congrArg (· + 2) hh⟩
  | ret =>
    obtain ⟨v, rest, hp, hv, hh⟩ := stack.pop?_of_pos h
    rw [step, hp]
    exact ⟨rfl, by rw [hv]; rfl⟩
  | add =>
    obtain ⟨vs, rest, hp, hlen, hh⟩ := stack.popMany?_of_le 2 h
    obtain ⟨a, b, rfl⟩ := List.length_eq_two.1 hlen
    simp only [step, hp]
    cases hadd : a.add b with
    | ok v => exact ⟨nofun, congrArg (· + 1) hh⟩
    | error e => exact (isOwn_add hadd).not_isFault
  | call count =>
    obtain ⟨vs, rest, hp, hlen, hh⟩ := stack.popMany?_of_le (count + 1) h
    obtain ⟨callee, args, rfl⟩ := List.exists_cons_of_length_eq_add_one hlen
    simp only [step, hp]
    rcases hcall : Stacklet.call callee args sink with ⟨e | v, sink'⟩
    · exact (isOwn_call hcall).not_isFault
    · exact ⟨nofun, congrArg (· + 1) hh⟩
  | reject e => exact ⟨e, rfl⟩

/-! ## Runs -/

/-- Why a run ends without a value. -/
inductive Halt where
  | error (e : RuntimeError)
  /-- there is nothing to go on with -/
  | stuck
  deriving DecidableEq

/-- Actions one after the other, up to the first that returns or fails. -/
def runActions (value : Constant → Value) : List Action → Session → Except Halt Value × Session
  | [], s => (.error (.error .missingReturn), s)
  | a :: as, s =>
    match a.step value s with
    | some (.next s) => runActions value as s
    | some (.done v s) => (.ok v, s)
    | some (.failed e s) => (.error (.error e), s)
    | none => (.error .stuck, s)

theorem le_of_maxDepthFrom {place height deepest depth : Nat} {is : List Instr}
    (h : Instr.maxDepthFrom place height deepest is = .ok depth) : deepest ≤ depth := by
  induction is generalizing place height deepest with
  | nil =>
    cases h
    exact Nat.le_refl _
  | cons i is ih =>
    rw [Instr.maxDepthFrom] at h
    split at h
    · cases h
    · exact (Nat.le_max_left _ _).trans (ih h)

/-- **Instructions that pass the stack check do what their actions do**, unless
    a limit is exceeded, at a height that the check has seen. -/
theorem exec_eq_runActions {u : CodeUnit} (hn : (u.consts.toList.map Constant.key).Nodup)
    {as : List Action} {is : List Instr} (h : List.Forall₂ (Does u.consts u.names) as is)
    (l : Limits) {s : Session} {place deepest depth : Nat}
    (hmax : Instr.maxDepthFrom place s.stack.height deepest is = .ok depth)
    (hle : s.stack.height ≤ deepest) (count offset : Nat) :
    (∃ k height e, height ≤ depth ∧ l.exceeded? k height = some e ∧
        (exec l u count (Instr.placed offset is) s).1 = .error e) ∨
      runActions (poolValue u.consts) as s =
        ((exec l u count (Instr.placed offset is) s).1.mapError .error,
          (exec l u count (Instr.placed offset is) s).2) := by
  induction h generalizing s place deepest count offset with
  | nil => exact Or.inr rfl
  | @cons a i as is hai _ ih =>
    obtain ⟨-, hi⟩ := hai.heightAfter? s.stack.height
    rw [Instr.maxDepthFrom, hi] at hmax
    have hspec := Action.step_spec (poolValue u.consts) (a := a) (s := s)
    by_cases hp : a.pops ≤ s.stack.height
    · rw [if_pos hp] at hmax
      have hdeep := le_of_maxDepthFrom hmax
      rw [Instr.placed, exec, runActions]
      cases hx : l.exceeded? (count + 1) s.stack.height with
      | some e =>
        left
        exact ⟨_, _, e, by omega, hx, rfl⟩
      | none =>
        specialize hspec hp
        cases hr : a.step (poolValue u.consts) s with
        | none =>
          rw [hr] at hspec
          obtain ⟨e, rfl⟩ := hspec
          cases hai
        | some r =>
          rw [step_of_does hai hn hr]
          cases r with
          | next s' =>
            rw [hr] at hspec
            rw [← hspec.2] at hmax
            exact ih hmax (by omega) _ _
          | done v s' => exact Or.inr rfl
          | failed e s' => exact Or.inr rfl
    · rw [if_neg hp] at hmax
      cases hmax

end Stacklet
