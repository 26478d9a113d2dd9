/-
  Where bytes stop being instructions.

  Bytes are no instructions if, behind some that are, one stands that starts
  none (`Instr.FaultAt`): because no operation has it, or because the operand
  of its operation is cut short. There is one such place at most, and decoding
  reports it.

  Decoding may also go by index, in a loop (`readRounds`). That never asks for a
  byte that is not there, and ends after no more rounds than there are bytes.

  * `starts_or_startsNone`: an instruction stands at the front of bytes, or a
    fault;
  * `decodeFrom_eq_error_iff`: decoding fails behind instructions, where none
    starts;
  * `round_encode` and `StartsNone.round_eq`, `readRounds_eq`: one round by index,
    and all of them;
  * `decode_eq_error_iff`: the errors of decoding.
-/
import Stacklet.Proofs.Codec

namespace Stacklet

/-- Where the instruction begins that could not be read. -/
def DecodeError.offset : DecodeError → Nat
  | unknownOpcode _ offset | truncatedOperand _ offset => offset

theorem Opcode.width_pos (op : Opcode) : 0 < op.width := by
  cases op <;> decide

theorem Numbering.opcode?_eq_none_iff {t : Numbering} {byte : UInt8} :
    t.opcode? byte = none ↔ ∀ op, t.code op ≠ byte := by
  simp only [Option.eq_none_iff_forall_ne_some, ne_eq, opcode?_eq_some_iff]

namespace Instr

/-! ## Faults -/

/-- The bytes, which begin at `offset`, begin with no instruction, and the error
    says why. -/
inductive StartsNone (t : Numbering) (offset : Nat) : List UInt8 → DecodeError → Prop
  | unknown {byte rest} : (∀ op, t.code op ≠ byte) →
      StartsNone t offset (byte :: rest) (.unknownOpcode byte offset)
  | truncated {op rest} : op.hasOperand → rest.length < 2 →
      StartsNone t offset (t.code op :: rest) (.truncatedOperand op offset)

/-- The bytes in front of `offset` are instructions, and there none starts. -/
structure FaultAt (t : Numbering) (bytes : List UInt8) (offset : Nat) (e : DecodeError) :
    Prop where
  before : ∃ is, encodeAll t is = bytes.take offset
  fault : StartsNone t offset (bytes.drop offset) e

theorem readOperand_eq_none_iff {op : Opcode} {rest : List UInt8} :
    readOperand op rest = none ↔ op.hasOperand ∧ rest.length < 2 := by
  rcases rest with _ | ⟨lo, _ | ⟨hi, rest⟩⟩
  all_goals cases op <;> simp [readOperand, Opcode.hasOperand]

section
variable {t : Numbering} {offset : Nat} {bytes : List UInt8} {e : DecodeError}

theorem StartsNone.offset_eq (h : StartsNone t offset bytes e) : e.offset = offset := by
  cases h <;> rfl

theorem StartsNone.ne_nil (h : StartsNone t offset bytes e) : bytes ≠ [] := by
  cases h <;> exact List.cons_ne_nil _ _

/-- At the front of bytes stands an instruction or a fault. -/
theorem starts_or_startsNone (t : Numbering) (offset : Nat) (hne : bytes ≠ []) :
    (∃ (i : Instr) (rest : List UInt8), bytes = i.encode t ++ rest) ∨
      ∃ e, StartsNone t offset bytes e := by
  obtain ⟨byte, rest, rfl⟩ := List.exists_cons_of_ne_nil hne
  cases hop : t.opcode? byte with
  | none => exact Or.inr ⟨_, .unknown (Numbering.opcode?_eq_none_iff.1 hop)⟩
  | some op =>
    obtain rfl := Numbering.opcode?_eq_some_iff.1 hop
    cases hread : readOperand op rest with
    | none =>
      obtain ⟨hoperand, hlength⟩ := readOperand_eq_none_iff.1 hread
      exact Or.inr ⟨_, .truncated hoperand hlength⟩
    | some x =>
      obtain ⟨rfl, hrest⟩ := eq_of_readOperand hread
      exact Or.inl ⟨x.1, x.2, by rw [encode_eq, List.cons_append, ← hrest]⟩

/-- Decoding fails where no instruction starts. -/
theorem StartsNone.decodeFrom_eq (h : StartsNone t offset bytes e) (found : Array (Nat × Instr)) :
    decodeFrom t found offset bytes = .error e := by
  cases h with
  | unknown hnone =>
    rw [decodeFrom, Numbering.opcode?_eq_none_iff.2 hnone]
  | @truncated op rest hop hlength =>
    rw [decodeFrom, Numbering.opcode?_eq_some_iff.2 rfl]
    simp only
    split
    · rfl
    · rename_i i rest' hread
      cases (readOperand_eq_none_iff.2 ⟨hop, hlength⟩).symm.trans hread

/-- **Decoding fails behind instructions, where none starts**, and nowhere else. -/
theorem decodeFrom_eq_error_iff {found : Array (Nat × Instr)} :
    decodeFrom t found offset bytes = .error e ↔ ∃ is rest, bytes = encodeAll t is ++ rest ∧
      StartsNone t (offset + (encodeAll t is).length) rest e := by
  constructor
  · intro h
    fun_induction decodeFrom t found offset bytes with
    | case1 => cases h
    | case2 found offset byte bytes hop =>
      cases h
      exact ⟨[], _, rfl, .unknown (Numbering.opcode?_eq_none_iff.1 hop)⟩
    | case3 found offset byte bytes op hop hread =>
      cases h
      obtain ⟨hoperand, hlength⟩ := readOperand_eq_none_iff.1 hread
      obtain rfl := Numbering.opcode?_eq_some_iff.1 hop
      exact ⟨[], _, rfl, .truncated hoperand hlength⟩
    | case4 found offset byte bytes op hop i rest hread ih =>
      obtain ⟨is, behind, rfl, hfault⟩ := ih h
      obtain ⟨rfl, rfl⟩ := eq_of_readOperand hread
      obtain rfl := Numbering.opcode?_eq_some_iff.1 hop
      refine ⟨i :: is, behind, by simp [encodeAll_cons], ?_⟩
      rw [length_encodeAll, List.map_cons, List.sum_cons, ← Nat.add_assoc, ← length_encodeAll t]
      exact hfault
  · rintro ⟨is, rest, rfl, hfault⟩
    rw [decodeFrom_append, hfault.decodeFrom_eq]

theorem FaultAt.decode_eq (h : FaultAt t bytes offset e) : decode t bytes = .error e := by
  obtain ⟨⟨is, his⟩, hfault⟩ := h
  have hlt : offset < bytes.length := by simpa using hfault.ne_nil
  have hoffset : 0 + (encodeAll t is).length = offset := by
    rw [his, List.length_take_of_le (Nat.le_of_lt hlt), Nat.zero_add]
  refine decodeFrom_eq_error_iff.2 ⟨is, bytes.drop offset, ?_, hoffset.symm ▸ hfault⟩
  rw [his, List.take_append_drop]

theorem exists_faultAt (h : decode t bytes = .error e) : ∃ offset, FaultAt t bytes offset e := by
  obtain ⟨is, rest, rfl, hfault⟩ := decodeFrom_eq_error_iff.1 h
  rw [Nat.zero_add] at hfault
  exact ⟨(encodeAll t is).length, ⟨is, List.take_left.symm⟩, List.drop_left.symm ▸ hfault⟩

end

/-! ## Reading by index -/

/-- What one round of reading by index comes to. -/
inductive Round where
  /-- an instruction, and the index behind it -/
  | read (i : Instr) (next : Nat)
  | failed (e : DecodeError)
  /-- a byte was asked for that is not there -/
  | outside

/-- The bytes from an index on, which may stand at the end but not behind it. -/
def bytesFrom? (bytes : List UInt8) (index : Nat) : Option (List UInt8) :=
  if index ≤ bytes.length then some (bytes.drop index) else none

/-- One round: the instruction at an index. -/
def round (t : Numbering) (bytes : List UInt8) (index : Nat) : Round :=
  match bytes[index]? with
  | none => .outside
  | some byte =>
    match t.opcode? byte with
    | none => .failed (.unknownOpcode byte index)
    | some op =>
      match bytesFrom? bytes (index + 1) with
      | none => .outside
      | some rest =>
        match readOperand op rest with
        | none => .failed (.truncatedOperand op index)
        | some (i, _) => .read i (index + op.width)

/-- What reading by index comes to. -/
inductive Reading where
  | finished (result : Except DecodeError (List (Nat × Instr)))
  /-- a byte was asked for that is not there -/
  | outside
  /-- there were too few rounds -/
  | unfinished

/-- Reads instructions by index while the index stands at a byte, in no more
    than the given number of rounds. -/
def readRounds (t : Numbering) (bytes : List UInt8) (rounds index : Nat)
    (found : Array (Nat × Instr)) : Reading :=
  if index < bytes.length then
    match rounds with
    | 0 => .unfinished
    | rounds + 1 =>
      match round t bytes index with
      | .read i next => readRounds t bytes rounds next (found.push (index, i))
      | .failed e => .finished (.error e)
      | .outside => .outside
  else .finished (.ok found.toList)

section
variable (t : Numbering) (front rest : List UInt8)

/-- The byte at the end of `front`, and those behind it. -/
theorem getElem?_and_bytesFrom? (byte : UInt8) :
    (front ++ byte :: rest)[front.length]? = some byte ∧
      bytesFrom? (front ++ byte :: rest) (front.length + 1) = some rest := by
  constructor
  · simp
  · simp [bytesFrom?]

/-- A round reads the instruction that stands at the index. -/
theorem round_encode (i : Instr) :
    round t (front ++ (i.encode t ++ rest)) front.length = .read i (front.length + i.width) := by
  obtain ⟨hbyte, hbehind⟩ :=
    getElem?_and_bytesFrom? front (i.operandPart ++ rest) (t.code i.opcode)
  rw [encode_eq, List.cons_append, round, hbyte]
  simp only [Numbering.opcode?_eq_some_iff.2 rfl, hbehind, readOperand_encode]
  rfl

/-- A round fails where no instruction starts. -/
theorem StartsNone.round_eq {e : DecodeError} (h : StartsNone t front.length rest e) :
    round t (front ++ rest) front.length = .failed e := by
  cases h with
  | @unknown byte rest hnone =>
    rw [round, (getElem?_and_bytesFrom? front rest byte).1]
    simp only [Numbering.opcode?_eq_none_iff.2 hnone]
  | @truncated op rest hop hlength =>
    obtain ⟨hbyte, hbehind⟩ := getElem?_and_bytesFrom? front rest (t.code op)
    rw [round, hbyte]
    simp only [Numbering.opcode?_eq_some_iff.2 rfl, hbehind,
      readOperand_eq_none_iff.2 ⟨hop, hlength⟩]

/-- Reading by index from the end of `front` on is decoding what follows, if the
    rounds are no fewer than the bytes there. -/
theorem readRounds_eq (found : Array (Nat × Instr)) {rounds : Nat}
    (hrounds : rest.length ≤ rounds) :
    readRounds t (front ++ rest) rounds front.length found =
      .finished (decodeFrom t found front.length rest) := by
  induction rounds generalizing front rest found with
  | zero =>
    obtain rfl := List.length_eq_zero_iff.1 (Nat.le_zero.1 hrounds)
    rw [readRounds, if_neg (by simp), decodeFrom]
  | succ rounds ih =>
    by_cases hne : rest = []
    · rw [hne, readRounds, if_neg (by simp), decodeFrom]
    have hinside : front.length < (front ++ rest).length := by
      have hpos := List.length_pos_iff.2 hne
      rw [List.length_append]
      omega
    rw [readRounds, if_pos hinside]
    rcases starts_or_startsNone t front.length hne with ⟨i, rest, rfl⟩ | ⟨e, hfault⟩
    · have hlength : (front ++ i.encode t).length = front.length + i.width := by
        rw [List.length_append, length_encode]
      have hrest := ih (front ++ i.encode t) rest (found.push (front.length, i)) (by
        have hwidth : 0 < i.width := i.opcode.width_pos
        rw [List.length_append, length_encode] at hrounds
        omega)
      rw [hlength, List.append_assoc] at hrest
      rw [round_encode, decodeFrom_encode]
      exact hrest
    · rw [hfault.round_eq, hfault.decodeFrom_eq]

end

/-! ## Errors of decoding -/

/-- **Decoding reports the first fault.** It fails iff behind some bytes that are
    instructions, which is to say that these can be decoded, stands a byte that
    no operation has, or that of an operation with an operand in front of fewer
    than two bytes; the error says which and where. There is one such place at
    most. To read by index, in as many rounds as there are bytes or more, comes
    to the same and never asks for a byte that is not there. -/
theorem decode_eq_error_iff (t : Numbering) (bytes : List UInt8) :
    (∀ e, decode t bytes = .error e ↔ ∃ offset, FaultAt t bytes offset e) ∧
      (∀ k e k' e', FaultAt t bytes k e → FaultAt t bytes k' e' → k = k' ∧ e = e') ∧
      (∀ k, (∃ is, encodeAll t is = bytes.take k) ↔
        ∃ found, decode t (bytes.take k) = .ok found) ∧
      ∀ rounds, bytes.length ≤ rounds →
        readRounds t bytes rounds 0 #[] = .finished (decode t bytes) := by
  refine ⟨fun e => ⟨exists_faultAt, fun ⟨_, h⟩ => h.decode_eq⟩, fun k e k' e' h h' => ?_,
    fun k => ⟨?_, ?_⟩, fun rounds hrounds => readRounds_eq t [] bytes #[] hrounds⟩
  · have he : e = e' := Except.error.inj (h.decode_eq.symm.trans h'.decode_eq)
    refine ⟨?_, he⟩
    rw [← h.fault.offset_eq, ← h'.fault.offset_eq, he]
  · rintro ⟨is, his⟩
    exact ⟨_, his ▸ decode_encodeAll t is⟩
  · rintro ⟨found, hfound⟩
    obtain ⟨more, -, hmore⟩ := encodeAll_of_decodeFrom hfound
    exact ⟨_, hmore⟩

/-- `LOAD_CONST 1` without its last byte, behind `POP_TOP`, read in three rounds. -/
theorem decode_eq_error_iff_cut :
    FaultAt .classic [1, 100, 1] 1 (.truncatedOperand .loadConst 1) ∧
      decode .classic [1, 100, 1] = .error (.truncatedOperand .loadConst 1) ∧
      (∀ k e, FaultAt .classic [1, 100, 1] k e → k = 1 ∧ e = .truncatedOperand .loadConst 1) ∧
      readRounds .classic [1, 100, 1] 3 0 #[] =
        .finished (.error (.truncatedOperand .loadConst 1)) := by
  have hoperand : Opcode.loadConst.hasOperand := rfl
  have hfault : FaultAt .classic [1, 100, 1] 1 (.truncatedOperand .loadConst 1) :=
    ⟨⟨[.popTop], rfl⟩, .truncated hoperand (by decide)⟩
  obtain ⟨herror, hunique, -, hrounds⟩ := decode_eq_error_iff .classic [1, 100, 1]
  have hdecode := (herror _).2 ⟨1, hfault⟩
  refine ⟨hfault, hdecode, fun k e h => hunique _ _ _ _ h hfault, ?_⟩
  have hread := hrounds 3 (by decide)
  rw [hread, hdecode]

end Instr

end Stacklet
