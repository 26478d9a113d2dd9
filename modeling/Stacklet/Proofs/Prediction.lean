/-
  What the stack check says about runs.

  The check simulates the heights of a run that nothing ends early. A run of
  any unit, compiled or not, follows it as far as the first instruction that
  finds too few values (`Instr.ShortAt`), the first return, a limit or an error
  of the program's own, whichever comes first.

  * `ShortAt.maxDepth`, `ShortAt.finalHeight`, `ok_or_shortAt`: both simulations
    fail at that instruction, and only there;
  * `Ends.shortAt`, `Ends.of_ok`: how a run that lacks values ends, and
    one that returns;
  * `run_maxDepth`: the heights and the endings of runs.
-/
import Stacklet.Proofs.Depth

namespace Stacklet

namespace Instr

/-! ## Too few values -/

/-- The instruction at a place is the first that finds too few values; `had` is
    how many it finds. -/
structure ShortAt (is : List Instr) (place : Nat) (i : Instr) (had : Nat) : Prop where
  instr : is[place]? = some i
  before : finalHeight (is.take place) = .ok had
  short : had < i.pops

theorem heightAfter?_eq_none_iff {i : Instr} {height : Nat} :
    i.heightAfter? height = none ↔ height < i.pops := by
  rw [heightAfter?]
  split_ifs with hle
  · simp [hle]
  · simp [Nat.lt_of_not_le hle]

theorem finalHeightFrom_take_cons {place height next k : Nat} {i : Instr} {is : List Instr}
    (h : i.heightAfter? height = some next) :
    finalHeightFrom place height ((i :: is).take (k + 1)) =
      finalHeightFrom (place + 1) next (is.take k) := by
  rw [List.take_succ_cons, finalHeightFrom, h]

/-- Both simulations fail at the first instruction that finds too few values. -/
theorem simulation_eq_error {is : List Instr} {k place height had : Nat} {i : Instr}
    (hi : is[k]? = some i) (hbefore : finalHeightFrom place height (is.take k) = .ok had)
    (hshort : had < i.pops) (deepest : Nat) :
    maxDepthFrom place height deepest is = .error (.shortBy (place + k) i i.pops had) ∧
      finalHeightFrom place height is = .error (.short (place + k) i) := by
  induction is generalizing k place height deepest with
  | nil => cases hi
  | cons j is ih =>
    cases k with
    | zero =>
      cases hi
      cases hbefore
      have hnone := heightAfter?_eq_none_iff.2 hshort
      rw [maxDepthFrom, finalHeightFrom, hnone]
      exact ⟨rfl, rfl⟩
    | succ k =>
      cases hj : j.heightAfter? height with
      | none =>
        rw [List.take_succ_cons, finalHeightFrom, hj] at hbefore
        cases hbefore
      | some next =>
        rw [finalHeightFrom_take_cons hj] at hbefore
        have hplace : place + (k + 1) = place + 1 + k := by omega
        rw [maxDepthFrom, finalHeightFrom, hj, hplace]
        exact ih hi hbefore (max deepest next)

/-- If no instruction finds too few values, both simulations succeed. -/
theorem simulation_ok_or_short (is : List Instr) (place height deepest : Nat) :
    (∃ depth last, maxDepthFrom place height deepest is = .ok depth ∧
        finalHeightFrom place height is = .ok last) ∨
      ∃ k i had, is[k]? = some i ∧ finalHeightFrom place height (is.take k) = .ok had ∧
        had < i.pops := by
  induction is generalizing place height deepest with
  | nil => exact Or.inl ⟨deepest, height, rfl, rfl⟩
  | cons j is ih =>
    cases hj : j.heightAfter? height with
    | none => exact Or.inr ⟨0, j, height, rfl, rfl, heightAfter?_eq_none_iff.1 hj⟩
    | some next =>
      rcases ih (place + 1) next (max deepest next) with ⟨depth, last, hmax, hfinal⟩ |
        ⟨k, i, had, hi, hbefore, hshort⟩
      · rw [maxDepthFrom, finalHeightFrom, hj]
        exact Or.inl ⟨depth, last, hmax, hfinal⟩
      · exact Or.inr ⟨k + 1, i, had, hi, (finalHeightFrom_take_cons hj).trans hbefore, hshort⟩

section
variable {is : List Instr} {k : Nat} {i : Instr} {had : Nat}

theorem ShortAt.maxDepth (h : ShortAt is k i had) :
    maxDepth is = .error (.shortBy k i i.pops had) := by
  have hfails := simulation_eq_error h.instr h.before h.short 0
  rw [Nat.zero_add] at hfails
  exact hfails.1

theorem ShortAt.finalHeight (h : ShortAt is k i had) : finalHeight is = .error (.short k i) := by
  have hfails := simulation_eq_error h.instr h.before h.short 0
  rw [Nat.zero_add] at hfails
  exact hfails.2

theorem ok_or_shortAt (is : List Instr) :
    (∃ depth last, maxDepth is = .ok depth ∧ Instr.finalHeight is = .ok last) ∨
      ∃ k i had, ShortAt is k i had := by
  rcases simulation_ok_or_short is 0 0 0 with hok | ⟨k, i, had, hi, hbefore, hshort⟩
  · exact Or.inl hok
  · exact Or.inr ⟨k, i, had, hi, hbefore, hshort⟩

/-- **The greatest height is missing if and only if some instruction finds too
    few values.** -/
theorem maxDepth_eq_error_iff {e : HeightError} :
    maxDepth is = .error e ↔ ∃ k i had, ShortAt is k i had ∧ e = .shortBy k i i.pops had := by
  constructor
  · intro he
    rcases ok_or_shortAt is with ⟨depth, last, hmax, -⟩ | ⟨k, i, had, hshort⟩
    · cases hmax.symm.trans he
    · exact ⟨k, i, had, hshort, Except.error.inj (he.symm.trans hshort.maxDepth)⟩
  · rintro ⟨k, i, had, hshort, rfl⟩
    exact hshort.maxDepth

/-- Nothing behind it has a simulated height. -/
theorem ShortAt.le_of_finalHeight (h : ShortAt is k i had) {j height : Nat}
    (hj : Instr.finalHeight (is.take j) = .ok height) : j ≤ k := by
  by_contra hlt
  rw [Nat.not_le] at hlt
  have hshort : ShortAt (is.take j) k i had := by
    refine ⟨?_, ?_, h.short⟩
    · rw [List.getElem?_take_of_lt hlt]
      exact h.instr
    · rw [List.take_take, Nat.min_eq_left hlt.le]
      exact h.before
  cases hshort.finalHeight.symm.trans hj

theorem ShortAt.unique (h : ShortAt is k i had) {k' had' : Nat} {i' : Instr}
    (h' : ShortAt is k' i' had') : k' = k :=
  Nat.le_antisymm (h.le_of_finalHeight h'.before) (h'.le_of_finalHeight h.before)

/-- The last height is one of those that the greatest one bounds. -/
theorem finalHeight_le_maxDepth {depth : Nat} (h : maxDepth is = .ok depth) :
    ∃ last, Instr.finalHeight is = .ok last ∧ last ≤ depth := by
  rcases ok_or_shortAt is with ⟨-, last, -, hfinal⟩ | ⟨k, i, had, hshort⟩
  · refine ⟨last, hfinal, (isGreatest_maxDepth h).2 ⟨is.length, ?_⟩⟩
    rwa [List.take_length]
  · cases hshort.maxDepth.symm.trans h

end

end Instr

/-! ## Endings -/

section
variable {l : Limits} {u : CodeUnit} {is : List (Nat × Instr)} {first s : Session} {k : Nat}
  {ending : Except RuntimeError Value × Session}
  (hfirst : first.stack.height = 0) (hs : Reaches l u is first k s)
include hfirst hs

theorem Reaches.finalHeight_take :
    Instr.finalHeight ((is.map Prod.snd).take k) = .ok s.stack.height := by
  have hheight := hs.finalHeight
  rwa [hfirst] at hheight

/-- A run that lacks values ends where the stack check does. -/
theorem Ends.shortAt (h : Ends l u is k s ending) {offset : Nat} {op : Opcode}
    (hlack : ending.1 = .error (.stackUnderflow offset op)) :
    ∃ i, is[k]? = some (offset, i) ∧ op = i.opcode ∧
      Instr.ShortAt (is.map Prod.snd) k i s.stack.height := by
  cases h with
  | missing | returned => cases hlack
  | stopped hi hlimit =>
    cases hlack
    exact absurd trivial (Limits.not_isFault hlimit)
  | @failed offset' i e s' hi hlimit hstep =>
    cases hlack
    cases (spec_of_failed hstep).2 with
    | own h => cases h
    | short hshort =>
      refine ⟨i, hi, rfl, ?_, hs.finalHeight_take hfirst, hshort⟩
      rw [List.getElem?_map, hi]
      rfl

/-- A run that returns ends at a return that finds a value. -/
theorem Ends.of_ok (h : Ends l u is k s ending) {v : Value} (hok : ending.1 = .ok v) :
    ∃ offset, is[k]? = some (offset, .returnValue) ∧
      Instr.finalHeight ((is.map Prod.snd).take (k + 1)) = .ok ending.2.stack.height := by
  cases h with
  | missing | stopped | failed => cases hok
  | @returned offset i v s' hi hlimit hstep =>
    obtain ⟨hreturn, hheight⟩ := spec_of_done hstep
    refine ⟨offset, hreturn ▸ hi, ?_⟩
    rw [List.take_add_one, List.getElem?_map, hi]
    exact finalHeightFrom_concat (hs.finalHeight_take hfirst) hheight

/-- A run leaves a stack that is no higher than some simulated one. -/
theorem Ends.exists_finalHeight (h : Ends l u is k s ending) :
    ∃ j height, Instr.finalHeight ((is.map Prod.snd).take j) = .ok height ∧
      ending.2.stack.height ≤ height := by
  have hhere := hs.finalHeight_take hfirst
  cases h with
  | missing | stopped => exact ⟨k, _, hhere, Nat.le_refl _⟩
  | returned hi hlimit hstep =>
    obtain ⟨-, -, hbehind⟩ := (Ends.returned hi hlimit hstep).of_ok hfirst hs rfl
    exact ⟨k + 1, _, hbehind, Nat.le_refl _⟩
  | failed hi hlimit hstep => exact ⟨k, _, hhere, (spec_of_failed hstep).1.height_le⟩

end

/-! ## Runs -/

theorem Host.exists_ends (host : Host) {u : CodeUnit} {is : List (Nat × Instr)}
    (h : u.instructions host.numbering = .ok is) :
    ∃ last s, Reaches host.limits u is host.session.cleared last s ∧
      Ends host.limits u is last s ((host.run u).1, (host.run u).2.session) := by
  rw [Host.run_of_instructions h]
  exact Reaches.exists_ends host.limits u is host.session.cleared

/-- **The stack check predicts the runs of any unit on any host.** If it finds a
    greatest height, no run is above it and none lacks values; nor is the last
    height above it. If it fails, so does the last height, because of the same
    instruction. A run that meets no return before that one does not return,
    and lacks values, if at all, there; a run that meets one never lacks
    values. -/
theorem run_maxDepth (host : Host) {u : CodeUnit} {is : List (Nat × Instr)}
    (h : u.instructions host.numbering = .ok is) :
    match Instr.maxDepth (is.map Prod.snd) with
    | .ok depth =>
      (∀ offset op, (host.run u).1 ≠ .error (.stackUnderflow offset op)) ∧
        (∀ k s, Reaches host.limits u is host.session.cleared k s → s.stack.height ≤ depth) ∧
        (host.run u).2.session.stack.height ≤ depth ∧
        ∃ last, Instr.finalHeight (is.map Prod.snd) = .ok last ∧ last ≤ depth
    | .error e =>
      ∃ k offset i had, is[k]? = some (offset, i) ∧ e = .shortBy k i i.pops had ∧
        Instr.finalHeight (is.map Prod.snd) = .error (.short k i) ∧
        ((∀ x ∈ is.take k, x.2 ≠ .returnValue) →
          (∀ v, (host.run u).1 ≠ .ok v) ∧
            ∀ offset' op, (host.run u).1 = .error (.stackUnderflow offset' op) →
              offset' = offset ∧ op = i.opcode) ∧
        ((∃ x ∈ is.take k, x.2 = .returnValue) →
          ∀ offset' op, (host.run u).1 ≠ .error (.stackUnderflow offset' op)) := by
  obtain ⟨last, s, hlast, hends⟩ := host.exists_ends h
  have hfirst : host.session.cleared.stack.height = 0 := rfl
  cases hmax : Instr.maxDepth (is.map Prod.snd) with
  | ok depth =>
    have hbound := (isGreatest_maxDepth hmax).2
    refine ⟨fun offset op hrun => ?_, fun k s hs => ?_, ?_, Instr.finalHeight_le_maxDepth hmax⟩
    · obtain ⟨i, -, -, hshort⟩ := hends.shortAt hfirst hlast hrun
      cases hshort.maxDepth.symm.trans hmax
    · exact hbound ⟨k, hs.finalHeight_take hfirst⟩
    · obtain ⟨j, height, hheight, hle⟩ := hends.exists_finalHeight hfirst hlast
      exact hle.trans (hbound ⟨j, hheight⟩)
  | error e =>
    obtain ⟨k, i, had, hshort, rfl⟩ := Instr.maxDepth_eq_error_iff.1 hmax
    have hi := hshort.instr
    rw [List.getElem?_map, Option.map_eq_some_iff] at hi
    obtain ⟨⟨offset, i⟩, hi, rfl⟩ := hi
    refine ⟨k, offset, i, had, hi, rfl, hshort.finalHeight, fun hnone => ⟨fun v hrun => ?_,
      fun offset' op hrun => ?_⟩, fun ⟨x, hx, hreturn⟩ offset' op hrun => ?_⟩
    · obtain ⟨offset', hreturn, hbehind⟩ := hends.of_ok hfirst hlast hrun
      -- the return has a height behind it, so it stands before the instruction
      have hlt : last < k := hshort.le_of_finalHeight hbehind
      have hmem : (offset', .returnValue) ∈ is.take k :=
        List.mem_of_getElem? ((List.getElem?_take_of_lt hlt).trans hreturn)
      exact hnone _ hmem rfl
    · obtain ⟨i', hi', rfl, hshort'⟩ := hends.shortAt hfirst hlast hrun
      obtain rfl := hshort.unique hshort'
      cases hi.symm.trans hi'
      exact ⟨rfl, rfl⟩
    · obtain ⟨i', -, -, hshort'⟩ := hends.shortAt hfirst hlast hrun
      obtain rfl := hshort.unique hshort'
      exact hlast.ne_returnValue x hx hreturn

/-- Instructions with one behind the return that finds too few values. -/
def Instr.overlong : List Instr := [.loadConst 0, .returnValue, .popTop]

theorem run_maxDepth_overlong :
    let u := CodeUnit.assemble .classic .default (loadConst .none .empty).2 Instr.overlong 1
    Instr.maxDepth Instr.overlong = .error (.shortBy 2 .popTop 1 0) ∧
      u.instructions .classic = .ok (Instr.placed 0 Instr.overlong) ∧
      ∀ offset op, ((Host.fresh .classic .default .empty).run u).1 ≠
        .error (.stackUnderflow offset op) := by
  intro u
  have hdecode : u.instructions .classic = .ok (Instr.placed 0 Instr.overlong) :=
    Instr.decode_encodeAll .classic Instr.overlong
  have hmax : Instr.maxDepth ((Instr.placed 0 Instr.overlong).map Prod.snd) =
      .error (.shortBy 2 .popTop 1 0) := by decide
  have hrun := run_maxDepth (.fresh .classic .default .empty) hdecode
  rw [hmax] at hrun
  obtain ⟨k, offset, i, had, -, he, -, -, hreturns⟩ := hrun
  cases he
  exact ⟨by decide, hdecode, hreturns ⟨(3, .returnValue), by decide, rfl⟩⟩

end Stacklet
