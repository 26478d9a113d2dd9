/-
  Which byte stands for which operation.

  A `Numbering` gives every operation a byte of its own; it is built from
  assignments, of which the last one for an operation counts.

  * `opcode?_eq_some_iff`: looking up a byte inverts `code`;
  * `ofEntries` fails at the first operation, in the order of `Opcode.all`,
    that has no byte or shares one with an operation before it.
-/
import Stacklet.Opcode

namespace Stacklet

/-- A one-to-one assignment of bytes to operations. -/
structure Numbering where
  codes : Vector UInt8 8
  injective : ∀ a b : Opcode, codes[a.index] = codes[b.index] → a = b
  deriving DecidableEq

/-- Why assignments are no numbering. -/
inductive NumberingError where
  | missing (op : Opcode)
  | duplicate (byte : UInt8) (first second : Opcode)
  | unknownName (name : String)
  deriving DecidableEq, Repr

def NumberingError.message : NumberingError → String
  | missing op => "opcode table has no entry for " ++ op.mnemonic
  | duplicate byte first second =>
    "byte " ++ toString byte.toNat ++ " is assigned to both " ++ first.mnemonic ++ " and " ++
      second.mnemonic
  | unknownName name => "unknown opcode name '" ++ name ++ "'"

namespace Numbering

/-- The byte of an operation. -/
def code (t : Numbering) (op : Opcode) : UInt8 := t.codes[op.index]

/-- The operation of a byte. -/
def opcode? (t : Numbering) (byte : UInt8) : Option Opcode :=
  Opcode.all.find? (t.code · == byte)

theorem code_inj (t : Numbering) {a b : Opcode} (h : t.code a = t.code b) : a = b :=
  t.injective a b h

theorem opcode?_eq_some_iff {t : Numbering} {byte : UInt8} {op : Opcode} :
    t.opcode? byte = some op ↔ t.code op = byte := by
  constructor
  · intro h
    simpa using List.find?_some h
  · intro h
    obtain ⟨found, hf⟩ : ∃ found, t.opcode? byte = some found := by
      have : (t.opcode? byte).isSome :=
        List.find?_isSome.2 ⟨op, Opcode.mem_all op, by simp [h]⟩
      exact Option.isSome_iff_exists.1 this
    have : t.code found = byte := by simpa using List.find?_some hf
    rw [hf, t.code_inj (this.trans h.symm)]

/-! ## Assignments -/

/-- One assignment of a byte to an operation. -/
abbrev Entry := Opcode × UInt8

/-- The byte assigned last. -/
def lastByte? (entries : List Entry) (op : Opcode) : Option UInt8 :=
  entries.foldl (fun byte e => if e.1 = op then some e.2 else byte) none

/-- The operations listed before `op`. -/
def before (op : Opcode) : List Opcode := Opcode.all.filter fun o => o.index < op.index

/-- What is wrong with the byte of `op`, the operations before it being in
    order. -/
def faultAt? (assigned : Opcode → Option UInt8) (op : Opcode) : Option NumberingError :=
  match assigned op with
  | none => some (.missing op)
  | some byte =>
    ((before op).find? fun o => assigned o == some byte).map fun first =>
      .duplicate byte first op

/-- The first fault in the order of `Opcode.all`. -/
def fault? (assigned : Opcode → Option UInt8) : Option NumberingError :=
  Opcode.all.findSome? (faultAt? assigned)

theorem faultAt?_eq_none {assigned : Opcode → Option UInt8} (h : fault? assigned = none)
    (op : Opcode) : faultAt? assigned op = none :=
  List.findSome?_eq_none_iff.1 h op (Opcode.mem_all op)

theorem isSome_of_fault?_eq_none {assigned : Opcode → Option UInt8} (h : fault? assigned = none)
    (op : Opcode) : ∃ byte, assigned op = some byte := by
  have := faultAt?_eq_none h op
  unfold faultAt? at this
  split at this
  · simp at this
  · exact ⟨_, ‹_›⟩

theorem ne_of_index_lt {assigned : Opcode → Option UInt8} (h : fault? assigned = none)
    {a b : Opcode} (hab : a.index < b.index) : assigned a ≠ assigned b := by
  intro he
  obtain ⟨byte, hb⟩ := isSome_of_fault?_eq_none h b
  have := faultAt?_eq_none h b
  simp only [faultAt?, hb, Option.map_eq_none_iff, List.find?_eq_none] at this
  refine this a ?_ ?_
  · simp [before, hab]
  · simp [he, hb]

/-- Without a fault, no two operations have the same byte. -/
theorem assigned_inj {assigned : Opcode → Option UInt8} (h : fault? assigned = none)
    {a b : Opcode} (he : assigned a = assigned b) : a = b := by
  rcases Nat.lt_trichotomy a.index b.index with hab | hab | hab
  · exact absurd he (ne_of_index_lt h hab)
  · exact Opcode.index_inj (Fin.ext hab)
  · exact absurd he.symm (ne_of_index_lt h hab)

/-- The bytes of an assignment in the order of `Opcode.all`. -/
def bytesOf (assigned : Opcode → Option UInt8) : Vector UInt8 8 :=
  Vector.ofFn fun i => (assigned Opcode.all[i]).getD 0

theorem bytesOf_index {assigned : Opcode → Option UInt8} {op : Opcode} {byte : UInt8}
    (h : assigned op = some byte) : (bytesOf assigned)[op.index] = byte := by
  have hi : Opcode.all[op.index.val] = op := Opcode.all_index op
  simp [bytesOf, hi, h]

/-- The numbering of an assignment without fault. -/
def ofAssigned (assigned : Opcode → Option UInt8) (h : fault? assigned = none) : Numbering where
  codes := bytesOf assigned
  injective a b he := by
    obtain ⟨x, hx⟩ := isSome_of_fault?_eq_none h a
    obtain ⟨y, hy⟩ := isSome_of_fault?_eq_none h b
    rw [bytesOf_index hx, bytesOf_index hy] at he
    exact assigned_inj h (by rw [hx, hy, he])

/-- The numbering given by assignments, the last one for each operation. -/
def ofEntries (entries : List Entry) : Except NumberingError Numbering :=
  match h : fault? (lastByte? entries) with
  | some e => .error e
  | none => .ok (ofAssigned (lastByte? entries) h)

/-- A numbering as assignments. -/
def entries (t : Numbering) : List Entry := Opcode.all.map fun op => (op, t.code op)

/-- Further assignments, made together. -/
def override (t : Numbering) (more : List Entry) : Except NumberingError Numbering :=
  ofEntries (t.entries ++ more)

/-! ## Assignments by name -/

/-- Looks up mnemonics, in order. -/
def entriesOfNames : List (String × UInt8) → Except NumberingError (List Entry)
  | [] => .ok []
  | (name, byte) :: rest =>
    match Opcode.ofMnemonic? name with
    | none => .error (.unknownName name)
    | some op =>
      match entriesOfNames rest with
      | .error e => .error e
      | .ok found => .ok ((op, byte) :: found)

/-- The numbering given by assignments to mnemonics. -/
def ofNames (named : List (String × UInt8)) : Except NumberingError Numbering :=
  match entriesOfNames named with
  | .error e => .error e
  | .ok found => ofEntries found

/-- Further assignments to mnemonics. -/
def overrideNames (t : Numbering) (named : List (String × UInt8)) :
    Except NumberingError Numbering :=
  match entriesOfNames named with
  | .error e => .error e
  | .ok found => t.override found

/-! ## The usual bytes -/

/-- The numbering that is in force where no other one is asked for. -/
def classic : Numbering where
  codes := #v[100, 116, 97, 23, 131, 83, 1, 4]
  injective a b h := by cases a <;> cases b <;> first | rfl | exact absurd h (by decide)

end Numbering

end Stacklet
