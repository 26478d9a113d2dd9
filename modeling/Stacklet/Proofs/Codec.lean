/-
  Instructions and their bytes determine each other.

  * `readOperand_encode`, `eq_of_readOperand`: one operand is read from its bytes,
    whatever follows them, and from no others;
  * `decodeFrom_encode` is the step and `decodeFrom_append` the run of decoding
    through the bytes of instructions;
  * `decode_encodeAll`: instructions that are written come back, each with the
    offset at which its bytes begin (`placed`);
  * `decode_inverts_encodeAll`: and bytes that can be read are those that are
    written from what was read.
-/
import Mathlib.Algebra.GroupWithZero.Nat
import Stacklet.Instr.Codec

namespace Stacklet

/-- Both bytes of an operand give the operand. -/
theorem operandOfBytes_operandBytes (n : UInt16) :
    operandOfBytes (operandBytes n).1 (operandBytes n).2 = n := by
  have hn := n.toNat_lt
  have hlo : (operandBytes n).1.toNat = n.toNat % 256 := UInt8.toNat_ofNat'
  have hhi : (operandBytes n).2.toNat = n.toNat / 256 := by
    rw [operandBytes, UInt8.toNat_ofNat']
    omega
  rw [operandOfBytes, hlo, hhi, Nat.mod_add_div, UInt16.ofNat_toNat]

/-- An operand has the two bytes of which it is made. -/
theorem operandBytes_operandOfBytes (lo hi : UInt8) :
    operandBytes (operandOfBytes lo hi) = (lo, hi) := by
  have hlo := lo.toNat_lt
  have hhi := hi.toNat_lt
  have hn : (operandOfBytes lo hi).toNat = lo.toNat + 256 * hi.toNat := by
    rw [operandOfBytes, UInt16.toNat_ofNat']
    omega
  rw [operandBytes, hn]
  refine Prod.ext (UInt8.toNat_inj.1 ?_) (UInt8.toNat_inj.1 ?_)
  · show (UInt8.ofNat _).toNat = lo.toNat
    rw [UInt8.toNat_ofNat']
    omega
  · show (UInt8.ofNat _).toNat = hi.toNat
    rw [UInt8.toNat_ofNat']
    omega

namespace Instr

/-- Instructions from an offset on, each with its own. -/
def placed : Nat → List Instr → List (Nat × Instr)
  | _, [] => []
  | offset, i :: is => (offset, i) :: placed (offset + i.width) is

theorem map_snd_placed (offset : Nat) (is : List Instr) : (placed offset is).map Prod.snd = is := by
  induction is generalizing offset with
  | nil => rfl
  | cons i is ih => rw [placed, List.map_cons, ih]

/-- The bytes of the operand of an instruction. -/
def operandPart (i : Instr) : List UInt8 :=
  match i.operand? with
  | some n => [(operandBytes n).1, (operandBytes n).2]
  | none => []

theorem encode_eq (t : Numbering) (i : Instr) : i.encode t = t.code i.opcode :: i.operandPart := by
  cases i <;> rfl

/-- An instruction is read from its own bytes. -/
theorem readOperand_encode (i : Instr) (rest : List UInt8) :
    readOperand i.opcode (i.operandPart ++ rest) = some (i, rest) := by
  cases i with
  | loadConst n | loadGlobal n | storeGlobal n | callFunction n =>
    simp only [opcode, operandPart, operand?, List.cons_append, List.nil_append, readOperand,
      operandOfBytes_operandBytes]
  | binaryAdd | returnValue | popTop | dupTop => rfl

/-- The bytes from which an instruction is read are its own. -/
theorem eq_of_readOperand {op : Opcode} {bytes rest : List UInt8} {i : Instr}
    (h : readOperand op bytes = some (i, rest)) :
    i.opcode = op ∧ bytes = i.operandPart ++ rest := by
  unfold readOperand at h
  split at h
  all_goals cases h
  all_goals simp [opcode, operandPart, operand?, operandBytes_operandOfBytes]

theorem encodeAll_cons (t : Numbering) (i : Instr) (is : List Instr) :
    encodeAll t (i :: is) = t.code i.opcode :: (i.operandPart ++ encodeAll t is) := by
  rw [encodeAll, List.flatMap_cons, encode_eq]
  rfl

theorem length_encode (t : Numbering) (i : Instr) : (i.encode t).length = i.width := by
  cases i <;> rfl

/-- How many bytes instructions have. -/
theorem length_encodeAll (t : Numbering) (is : List Instr) :
    (encodeAll t is).length = (is.map width).sum := by
  rw [encodeAll, List.length_flatMap]
  simp only [length_encode]

/-- Decoding goes through the bytes of an instruction, whatever follows them. -/
theorem decodeFrom_encode (t : Numbering) (i : Instr) (rest : List UInt8)
    (found : Array (Nat × Instr)) (offset : Nat) :
    decodeFrom t found offset (i.encode t ++ rest) =
      decodeFrom t (found.push (offset, i)) (offset + i.width) rest := by
  have hop : t.opcode? (t.code i.opcode) = some i.opcode := Numbering.opcode?_eq_some_iff.2 rfl
  rw [encode_eq, List.cons_append, decodeFrom, hop]
  simp only
  split
  · rename_i h
    rw [readOperand_encode] at h
    cases h
  · rename_i j rest' h
    rw [readOperand_encode] at h
    cases h
    rfl

/-- And through the bytes of instructions one after the other. -/
theorem decodeFrom_append (t : Numbering) (is : List Instr) (rest : List UInt8)
    (found : Array (Nat × Instr)) (offset : Nat) :
    decodeFrom t found offset (encodeAll t is ++ rest) =
      decodeFrom t (found ++ (placed offset is).toArray)
        (offset + (encodeAll t is).length) rest := by
  rw [length_encodeAll]
  induction is generalizing found offset with
  | nil => simp [encodeAll, placed]
  | cons i is ih =>
    have hfound : found.push (offset, i) ++ (placed (offset + i.width) is).toArray =
        found ++ (placed offset (i :: is)).toArray := by
      simp [placed]
    rw [encodeAll, List.flatMap_cons, List.append_assoc, decodeFrom_encode, ← encodeAll, ih,
      hfound, List.map_cons, List.sum_cons, Nat.add_assoc]

theorem decodeFrom_encodeAll (t : Numbering) (is : List Instr) (found : Array (Nat × Instr))
    (offset : Nat) :
    decodeFrom t found offset (encodeAll t is) = .ok (found.toList ++ placed offset is) := by
  have hrun := decodeFrom_append t is [] found offset
  rw [List.append_nil, decodeFrom, Array.toList_append] at hrun
  exact hrun

/-- **Bytes written from instructions are read back.** -/
theorem decode_encodeAll (t : Numbering) (is : List Instr) :
    decode t (encodeAll t is) = .ok (placed 0 is) := by
  rw [decode, decodeFrom_encodeAll]
  rfl

/-- Instructions that are read have the bytes from which they are read. -/
theorem encodeAll_of_decodeFrom {t : Numbering} {found : Array (Nat × Instr)} {offset : Nat}
    {bytes : List UInt8} {all : List (Nat × Instr)}
    (h : decodeFrom t found offset bytes = .ok all) :
    ∃ more, all = found.toList ++ more ∧ encodeAll t (more.map Prod.snd) = bytes := by
  fun_induction decodeFrom t found offset bytes with
  | case1 found offset =>
    cases h
    exact ⟨[], (List.append_nil _).symm, rfl⟩
  | case2 | case3 => cases h
  | case4 found offset byte bytes op hop i rest hread ih =>
    obtain ⟨more, rfl, hmore⟩ := ih h
    obtain ⟨hi, rfl⟩ := eq_of_readOperand hread
    refine ⟨(offset, i) :: more, ?_, ?_⟩
    · rw [Array.toList_push, List.append_assoc]
      rfl
    · rw [List.map_cons, encodeAll_cons, hmore, hi, Numbering.opcode?_eq_some_iff.1 hop]

/-! ## Offsets -/

/-- Instructions with their offsets: each stands behind the bytes of all those
    before it. -/
def located (is : List Instr) : List (Nat × Instr) :=
  is.mapIdx fun k i => (((is.take k).map width).sum, i)

theorem placed_eq (offset : Nat) (is : List Instr) :
    placed offset is = is.mapIdx fun k i => (offset + ((is.take k).map width).sum, i) := by
  induction is generalizing offset with
  | nil => rfl
  | cons i is ih =>
    rw [placed, ih, List.mapIdx_cons]
    simp only [List.take_succ_cons, List.map_cons, List.sum_cons, Nat.add_assoc]
    rfl

theorem placed_zero (is : List Instr) : placed 0 is = located is := by
  rw [placed_eq]
  simp only [Nat.zero_add]
  rfl

/-- **Writing and reading instructions undo each other**: what is written from
    any instructions is read as these, with their offsets; and bytes are read
    only as instructions from which the same bytes are written. -/
theorem decode_inverts_encodeAll (t : Numbering) :
    (∀ is, decode t (encodeAll t is) = .ok (located is)) ∧
      ∀ bytes found, decode t bytes = .ok found ↔
        encodeAll t (found.map Prod.snd) = bytes ∧ found = located (found.map Prod.snd) := by
  have hwritten (is : List Instr) : decode t (encodeAll t is) = .ok (located is) := by
    rw [decode_encodeAll, placed_zero]
  refine ⟨hwritten, fun bytes found => ?_⟩
  constructor
  · intro h
    obtain ⟨more, hfound, hbytes⟩ := encodeAll_of_decodeFrom h
    obtain rfl : found = more := hfound
    refine ⟨hbytes, ?_⟩
    rw [← hbytes, hwritten] at h
    exact (Except.ok.inj h).symm
  · rintro ⟨rfl, hfound⟩
    rw [hwritten, ← hfound]

end Instr

end Stacklet
