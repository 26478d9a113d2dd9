/-
  Limits cut a run, and change nothing else about it.

  What a run comes to, and what it ends with, depends on its limits only as far
  as they stop it (`Reaches.of_allows`, `Ends.of_eq`).

  * `Ends.kept_of_error`: a run that fails leaves globals and output as it finds
    them in front of the last instruction;
  * `attempts`: how many instructions a run begins or is stopped in front of;
  * `exists_reaches_of_lt`, `Reaches.lt_attempts`: they are the instructions
    that the run comes to;
  * `run_limits`: runs under a bound on instructions, under higher limits, and
    runs that fail.
-/
import Stacklet.Proofs.Prediction

namespace Stacklet

/-! ## Limits -/

namespace Limits

theorem exceeded?_eq_none_iff {l : Limits} {count height : Nat} :
    l.exceeded? count height = none ↔ (∀ n ∈ l.steps, count ≤ n) ∧ height ≤ l.height := by
  obtain ⟨_ | n, bound⟩ := l
  · simp [exceeded?]
  · simp only [exceeded?, Option.mem_some_iff, forall_eq']
    split_ifs with hsteps hheight
    · simp [Nat.not_le.2 hsteps]
    · simp [Nat.not_le.2 hheight]
    · simp [Nat.le_of_not_lt hsteps, Nat.le_of_not_lt hheight]

theorem exceeded?_of_le {n count : Nat} (h : count ≤ n) (bound height : Nat) :
    exceeded? ⟨some n, bound⟩ count height = exceeded? ⟨none, bound⟩ count height :=
  if_neg (Nat.not_lt.2 h)

theorem exceeded?_of_lt {n count : Nat} (h : n < count) (bound height : Nat) :
    exceeded? ⟨some n, bound⟩ count height = some (.stepLimit n) :=
  if_pos h

theorem isLimit_of_exceeded? {l : Limits} {count height : Nat} {e : RuntimeError}
    (h : l.exceeded? count height = some e) : e.IsLimit := by
  unfold exceeded? at h
  repeat' split at h
  all_goals
    cases h
    try exact trivial

/-- Limits that allow at least as much. A bound on instructions may also be
    given up. -/
structure Raised (l l' : Limits) : Prop where
  steps : ∀ n' ∈ l'.steps, ∃ n ∈ l.steps, n ≤ n'
  height : l.height ≤ l'.height

theorem Raised.allows {l l' : Limits} (h : l.Raised l') {count height : Nat}
    (hl : l.exceeded? count height = none) : l'.exceeded? count height = none := by
  obtain ⟨hsteps, hheight⟩ := exceeded?_eq_none_iff.1 hl
  refine exceeded?_eq_none_iff.2 ⟨fun n' hn' => ?_, hheight.trans h.height⟩
  obtain ⟨n, hn, hle⟩ := h.steps n' hn'
  exact (hsteps n hn).trans hle

end Limits

/-! ## Runs under two limits -/

section
variable {l l' : Limits} {u : CodeUnit} {is : List (Nat × Instr)} {first s : Session} {k : Nat}
  {ending : Except RuntimeError Value × Session}

/-- A run comes as far under limits that allow each of its instructions. -/
theorem Reaches.of_allows (h : Reaches l u is first k s)
    (hl : ∀ count height, count ≤ k → l.exceeded? count height = none →
      l'.exceeded? count height = none) : Reaches l' u is first k s := by
  induction h with
  | start => exact .start
  | next h hi hlimit hstep ih =>
    have hbefore := ih fun count height hle => hl count height (Nat.le_succ_of_le hle)
    exact .next hbefore hi (hl _ _ (Nat.le_refl _) hlimit) hstep

/-- A run ends with the same under limits that treat its last instruction
    alike. -/
theorem Ends.of_eq (h : Ends l u is k s ending)
    (hl : ∀ x, is[k]? = some x →
      l'.exceeded? (k + 1) s.stack.height = l.exceeded? (k + 1) s.stack.height) :
    Ends l' u is k s ending := by
  cases h with
  | missing h => exact .missing h
  | stopped hi hlimit => exact .stopped hi ((hl _ hi).trans hlimit)
  | returned hi hlimit hstep => exact .returned hi ((hl _ hi).trans hlimit) hstep
  | failed hi hlimit hstep => exact .failed hi ((hl _ hi).trans hlimit) hstep

theorem Ends.exec_eq (h : Ends l u is k s ending) : exec l u k (is.drop k) s = ending := by
  cases h with
  | missing h => rw [List.drop_of_length_le (List.getElem?_eq_none_iff.1 h), exec]
  | stopped hi hlimit => rw [drop_of_getElem? hi, exec, hlimit]
  | returned hi hlimit hstep | failed hi hlimit hstep =>
    rw [drop_of_getElem? hi, exec, hlimit]
    simp only [hstep]

/-- The last instruction of a run that is not stopped is inside the limits. -/
theorem Ends.exceeded?_eq_none (h : Ends l u is k s ending)
    (hlimit : ∀ e, ending.1 = .error e → ¬ e.IsLimit) {x : Nat × Instr} (hx : is[k]? = some x) :
    l.exceeded? (k + 1) s.stack.height = none := by
  cases h with
  | missing h => cases h.symm.trans hx
  | stopped hi hl => exact absurd (Limits.isLimit_of_exceeded? hl) (hlimit _ rfl)
  | returned hi hl | failed hi hl => exact hl

/-- **An instruction that fails changes neither globals nor output**: a run that
    ends with an error leaves those that it found there, and the values that the
    instruction has not popped. -/
theorem Ends.kept_of_error (h : Ends l u is k s ending) {e : RuntimeError}
    (he : ending.1 = .error e) : s.Kept ending.2 := by
  cases h with
  | missing | stopped => exact .refl s
  | returned => cases he
  | failed hi hlimit hstep => exact (spec_of_failed hstep).1

/-- What a run ends with, where it comes to its end. -/
theorem Reaches.exec_eq_of_ends (h : Reaches l u is first k s) (hends : Ends l u is k s ending) :
    exec l u 0 is first = ending :=
  h.exec_eq.symm.trans hends.exec_eq

end

/-! ## Attempts -/

/-- How many instructions a run attempts that has no bound on them: those that
    it executes, and one more if the stack is too high for it. -/
def attempts (bound : Nat) (u : CodeUnit) : List (Nat × Instr) → Session → Nat
  | [], _ => 0
  | (offset, i) :: is, s =>
    if bound < s.stack.height then 1
    else
      match step u offset i s with
      | .next s => attempts bound u is s + 1
      | .done _ _ | .failed _ _ => 1

section
variable {bound n k : Nat} {u : CodeUnit} {is : List (Nat × Instr)} {first s : Session}

theorem attempts_pos_iff : 0 < attempts bound u is s ↔ ∃ x, is[0]? = some x := by
  cases is with
  | nil => simp [attempts]
  | cons x is =>
    simp only [attempts, List.getElem?_cons_zero, Option.some.injEq, exists_eq', iff_true]
    split_ifs
    · exact Nat.zero_lt_one
    · split
      · exact Nat.succ_pos _
      all_goals exact Nat.zero_lt_one

/-- Behind an instruction that is not the last attempt, the run goes on. -/
theorem attempts_of_getElem? {offset : Nat} {i : Instr} (hi : is[k]? = some (offset, i))
    (h : 1 < attempts bound u (is.drop k) s) :
    ∃ s', Limits.exceeded? ⟨none, bound⟩ (k + 1) s.stack.height = none ∧
      step u offset i s = .next s' ∧ 1 < attempts bound u (is.drop (k + 1)) s' + 1 := by
  rw [drop_of_getElem? hi, attempts] at h
  split_ifs at h with hbound
  · exact absurd h (Nat.lt_irrefl 1)
  · cases hstep : step u offset i s with
    | next s' =>
      rw [hstep] at h
      exact ⟨s', if_neg hbound, rfl, h⟩
    | done | failed =>
      rw [hstep] at h
      exact absurd h (Nat.lt_irrefl 1)

/-- The instructions before one that is reached have been attempted. -/
theorem Reaches.attempts_eq (h : Reaches ⟨none, bound⟩ u is first k s) :
    attempts bound u is first = attempts bound u (is.drop k) s + k := by
  induction h with
  | start => rfl
  | next h hi hlimit hstep ih =>
    have hbound := Nat.not_lt.2 (Limits.le_of_exceeded? hlimit)
    rw [ih, drop_of_getElem? hi, attempts, if_neg hbound]
    simp only [hstep]
    omega

/-- The number of a last instruction is that of an attempt. -/
theorem Reaches.lt_attempts (h : Reaches ⟨none, bound⟩ u is first k s) {x : Nat × Instr}
    (hx : is[k]? = some x) : k < attempts bound u is first := by
  have hpos : 0 < attempts bound u (is.drop k) s := attempts_pos_iff.2 ⟨x, by simpa using hx⟩
  rw [h.attempts_eq]
  omega

/-- A run comes to each instruction that it attempts. -/
theorem exists_reaches_of_lt (h : n < attempts bound u is first) :
    ∃ s x, Reaches ⟨none, bound⟩ u is first n s ∧ is[n]? = some x := by
  induction n with
  | zero =>
    obtain ⟨x, hx⟩ := attempts_pos_iff.1 h
    exact ⟨first, x, .start, hx⟩
  | succ n ih =>
    obtain ⟨s, ⟨offset, i⟩, hs, hi⟩ := ih (Nat.lt_of_succ_lt h)
    have hrest : 1 < attempts bound u (is.drop n) s := by
      rw [hs.attempts_eq] at h
      omega
    obtain ⟨s', hlimit, hstep, hmore⟩ := attempts_of_getElem? hi hrest
    obtain ⟨x, hx⟩ := attempts_pos_iff.1 (Nat.lt_of_succ_lt_succ hmore)
    exact ⟨s', x, .next hs hi hlimit hstep, by simpa using hx⟩

/-- A run is in one session in front of an instruction. -/
theorem Reaches.unique {l : Limits} {s' : Session} (h : Reaches l u is first k s)
    (h' : Reaches l u is first k s') : s' = s := by
  induction h generalizing s' with
  | start =>
    cases h'
    rfl
  | next h hi hlimit hstep ih =>
    cases h' with
    | next h' hi' hlimit' hstep' =>
      cases hi.symm.trans hi'
      cases ih h'
      cases hstep.symm.trans hstep'
      rfl

/-- The first instructions of a run are inside a bound on their number. -/
theorem Reaches.bounded (h : Reaches ⟨none, bound⟩ u is first k s) (hk : k ≤ n) :
    Reaches ⟨some n, bound⟩ u is first k s :=
  h.of_allows fun _ height hle hl =>
    (Limits.exceeded?_of_le (hle.trans hk) bound height).trans hl

end

/-! ## Limits and runs -/

section
variable (u : CodeUnit) (is : List (Nat × Instr)) (first : Session)

/-- A bound on instructions that a run does not get to has no effect, and one
    that it gets to ends it there. -/
theorem exec_bounded (bound n : Nat) :
    if attempts bound u is first ≤ n then
      exec ⟨some n, bound⟩ u 0 is first = exec ⟨none, bound⟩ u 0 is first
    else
      ∃ s, Reaches ⟨none, bound⟩ u is first n s ∧
        exec ⟨some n, bound⟩ u 0 is first = (.error (.stepLimit n), s) := by
  split_ifs with hn
  · obtain ⟨last, s, hs, hends⟩ := Reaches.exists_ends ⟨none, bound⟩ u is first
    cases hlast : is[last]? with
    | none =>
      have hle : last ≤ n := by
        rw [hs.attempts_eq] at hn
        omega
      refine (hs.bounded hle).exec_eq_of_ends (hends.of_eq fun x hx => ?_)
      cases hlast.symm.trans hx
    | some x =>
      have hlt : last < n := (hs.lt_attempts hlast).trans_le hn
      exact (hs.bounded hlt.le).exec_eq_of_ends
        (hends.of_eq fun _ _ => Limits.exceeded?_of_le hlt bound _)
  · obtain ⟨s, x, hs, hx⟩ := exists_reaches_of_lt (Nat.lt_of_not_le hn)
    refine ⟨s, hs, (hs.bounded (Nat.le_refl n)).exec_eq_of_ends (.stopped hx ?_)⟩
    exact Limits.exceeded?_of_lt (Nat.lt_succ_self n) bound _

/-- Higher limits have no effect on a run that is not stopped. -/
theorem exec_raised {l l' : Limits} (hl : l.Raised l')
    (hlimit : ∀ e, (exec l u 0 is first).1 = .error e → ¬ e.IsLimit) :
    exec l' u 0 is first = exec l u 0 is first := by
  obtain ⟨last, s, hs, hends⟩ := Reaches.exists_ends l u is first
  have hs' : Reaches l' u is first last s := hs.of_allows fun _ _ _ => hl.allows
  refine hs'.exec_eq_of_ends (hends.of_eq fun x hx => ?_)
  have hinside := hends.exceeded?_eq_none hlimit hx
  exact (hl.allows hinside).trans hinside.symm

end

/-- The host with other limits. -/
def Host.withLimits (host : Host) (l : Limits) : Host := { host with limits := l }

theorem Host.run_withLimits {host : Host} {u : CodeUnit} {is : List (Nat × Instr)}
    (h : u.instructions host.numbering = .ok is) (l : Limits) :
    (((host.withLimits l).run u).1, ((host.withLimits l).run u).2.session) =
      exec l u 0 is host.session.cleared :=
  @Host.run_of_instructions (host.withLimits l) u is h

theorem Host.run_of_not_decoded {host : Host} {u : CodeUnit} {e : DecodeError}
    (h : u.instructions host.numbering = .error e) : host.run u = (.error (.decode e), host) := by
  obtain ⟨t, l, ⟨globals, stack, sink⟩⟩ := host
  rw [Host.run, h]

/-- **Limits cut a run cleanly, and never change it otherwise.** A unit that
    cannot be decoded leaves the host as it is. With a bound on instructions, a
    run ends as without, unless it attempts more; then it leaves what the run
    without has come to by then. A run that no limit stops is the same under
    higher ones. A run that fails, for whatever reason, leaves the globals and
    the printed text that it has come to in front of the instruction that
    failed. This one may have popped values, but the stack is no other run's. -/
theorem run_limits (host : Host) (u : CodeUnit) :
    match u.instructions host.numbering with
    | .error e => host.run u = (.error (.decode e), host)
    | .ok is =>
      (∀ bound n,
        let unbounded := (host.withLimits ⟨none, bound⟩).run u
        let bounded := (host.withLimits ⟨some n, bound⟩).run u
        if attempts bound u is host.session.cleared ≤ n then
          (bounded.1, bounded.2.session) = (unbounded.1, unbounded.2.session)
        else
          bounded.1 = .error (.stepLimit n) ∧
            ∀ s, Reaches ⟨none, bound⟩ u is host.session.cleared n s ↔
              s = bounded.2.session) ∧
      (∀ l, host.limits.Raised l → (∀ e, (host.run u).1 = .error e → ¬ e.IsLimit) →
        (((host.withLimits l).run u).1, ((host.withLimits l).run u).2.session) =
          ((host.run u).1, (host.run u).2.session)) ∧
      ∀ e, (host.run u).1 = .error e →
        ∃ k s, Reaches host.limits u is host.session.cleared k s ∧
          Ends host.limits u is k s (.error e, (host.run u).2.session) ∧
          s.Kept (host.run u).2.session := by
  cases h : u.instructions host.numbering with
  | error e => exact Host.run_of_not_decoded h
  | ok is =>
    refine ⟨fun bound n => ?_, fun l hl hlimit => ?_, fun e he => ?_⟩
    · have hbounded := exec_bounded u is host.session.cleared bound n
      rw [← Host.run_withLimits h, ← Host.run_withLimits h] at hbounded
      simp only
      split_ifs at hbounded ⊢ with hn
      · exact hbounded
      · obtain ⟨s, hs, hrun⟩ := hbounded
        obtain ⟨hresult, rfl⟩ := Prod.mk.inj hrun
        exact ⟨hresult, fun s => ⟨hs.unique, fun hsame => hsame ▸ hs⟩⟩
    · rw [Host.run_withLimits h, Host.run_of_instructions h]
      refine exec_raised u is host.session.cleared hl fun e he => hlimit e ?_
      rw [← he, ← Host.run_of_instructions h]
    · obtain ⟨k, s, hs, hends⟩ := host.exists_ends h
      exact ⟨k, s, hs, he ▸ hends, hends.kept_of_error he⟩

end Stacklet
