/-
  Bytes for operations do not matter.

  A compilation looks at the numbering only when it writes the bytes, and a
  host only when it reads them. So with any two numberings the same trees
  compile, into units that differ in nothing but their bytes; these have the
  same length, are read as the same instructions, and run alike.

  * `assembled_or_refused`: what a compilation does before it writes bytes;
  * `exec_congr`: a run looks at the pools of a unit and at nothing else;
  * `finish_renumbered`: both sides under two numberings.
-/
import Stacklet.CodeUnit.Assembly
import Stacklet.Proofs.Codec
import Stacklet.Proofs.Safety

namespace Stacklet

/-! ## Compilations -/

namespace CodeUnit

/-- A compilation refuses a tree or finds its instructions, and only then looks
    at the numbering and at the description of the unit. -/
theorem assembled_or_refused (tree : Tree) (pools : Pools) :
    (∃ e, ∀ t options, finish t options tree pools = .error e) ∨
      ∃ last is depth, ∀ t options,
        finish t options tree pools = .ok (assemble t options last is depth) := by
  simp only [finish]
  rcases instructionsOf tree pools with ⟨e | is, last⟩
  · exact Or.inl ⟨e, fun _ _ => rfl⟩
  · cases hd : checkedDepth is with
    | error e => exact Or.inl ⟨e, fun _ _ => by simp only [hd]⟩
    | ok depth => exact Or.inr ⟨last, is, depth, fun _ _ => by simp only [hd]⟩

/-- The instructions of an assembled unit are those of which it is made. -/
theorem instructions_assemble (t : Numbering) (options : UnitOptions) (pools : Pools)
    (is : List Instr) (depth : Nat) :
    (assemble t options pools is depth).instructions t = .ok (Instr.placed 0 is) :=
  Instr.decode_encodeAll t is

end CodeUnit

/-! ## Runs -/

section
variable {u v : CodeUnit} (hconsts : v.consts = u.consts) (hnames : v.names = u.names)
include hconsts hnames

/-- One instruction looks at the pools. -/
theorem step_congr (offset : Nat) (i : Instr) (s : Session) :
    step v offset i s = step u offset i s := by
  obtain ⟨globals, stack, sink⟩ := s
  cases i with
  | loadConst n => rw [step, step, hconsts]
  | loadGlobal n | storeGlobal n => rw [step, step, hnames]
  | binaryAdd | callFunction | returnValue | popTop | dupTop => rfl

/-- A run looks at the pools, and at the instructions that it is given. -/
theorem exec_congr (l : Limits) (count : Nat) (is : List (Nat × Instr)) (s : Session) :
    exec l v count is s = exec l u count is s := by
  induction is generalizing count s with
  | nil => rfl
  | cons x is ih =>
    obtain ⟨offset, i⟩ := x
    simp only [exec, step_congr hconsts hnames, ih]

/-- Units with the same pools run alike where they are read as the same
    instructions. -/
theorem Host.run_congr {t t' : Numbering} {is : List (Nat × Instr)}
    (hu : u.instructions t = .ok is) (hv : v.instructions t' = .ok is) (l : Limits)
    (s : Session) :
    (run v ⟨t', l, s⟩).1 = (run u ⟨t, l, s⟩).1 ∧
      (run v ⟨t', l, s⟩).2.session = (run u ⟨t, l, s⟩).2.session := by
  have hu := @run_of_instructions ⟨t, l, s⟩ u is hu
  have hv := @run_of_instructions ⟨t', l, s⟩ v is hv
  rw [exec_congr hconsts hnames] at hv
  exact Prod.mk.inj (hv.trans hu.symm)

end

/-! ## Two numberings -/

/-- **Bytes for operations do not matter.** Under any two numberings a tree is
    refused for the same reason, or compiles into units that differ in nothing
    but their bytes, whatever is in the pools before (`ofTree` begins with empty
    ones). The bytes are as many and are read as the same instructions at the
    same offsets; and on hosts that differ in nothing but their numbering, both
    units end with the same result and leave the same globals, stack and
    output. -/
theorem CodeUnit.finish_renumbered (t t' : Numbering) (options : UnitOptions) (tree : Tree)
    (pools : Pools) :
    (∃ e, finish t options tree pools = .error e ∧ finish t' options tree pools = .error e) ∨
      ∃ u v, finish t options tree pools = .ok u ∧ finish t' options tree pools = .ok v ∧
        v = { u with code := v.code } ∧ v.code.length = u.code.length ∧
        (∃ is, u.instructions t = .ok is ∧ v.instructions t' = .ok is) ∧
        ∀ l s, (Host.run v ⟨t', l, s⟩).1 = (Host.run u ⟨t, l, s⟩).1 ∧
          (Host.run v ⟨t', l, s⟩).2.session = (Host.run u ⟨t, l, s⟩).2.session := by
  rcases assembled_or_refused tree pools with ⟨e, he⟩ | ⟨last, is, depth, hu⟩
  · exact Or.inl ⟨e, he t options, he t' options⟩
  · have hread (t : Numbering) := instructions_assemble t options last is depth
    have hlength : (Instr.encodeAll t' is).length = (Instr.encodeAll t is).length := by
      rw [Instr.length_encodeAll, Instr.length_encodeAll]
    have hrun := Host.run_congr (u := assemble t options last is depth)
      (v := assemble t' options last is depth) rfl rfl (hread t) (hread t')
    exact Or.inr ⟨_, _, hu t options, hu t' options, rfl, hlength, ⟨_, hread t, hread t'⟩, hrun⟩

end Stacklet
