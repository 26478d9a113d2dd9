/-
  Units that are read and written again.

  Bytes that are read as a unit need not be those that are written for it: their
  numbers may have longer forms. What is written for the unit has the shortest
  forms instead, so it is never longer, and is read as the same unit.

  * `CodeUnit.parts`: the parts of a unit;
  * `CodeUnit.finds_unit`: what is read as a unit are forms of its parts;
  * `CodeUnit.toBytes_of_ofBytes`: what is read and what is written then.
-/
import Mathlib.Algebra.Order.BigOperators.Group.List
import Mathlib.Algebra.Order.Group.Nat
import Stacklet.Proofs.Bytes
import Stacklet.Proofs.Forms

namespace Stacklet

open Wire

/-! ## Constants -/

namespace Constant

/-- A tag, and what stands behind it. -/
def parts : Constant → List Part
  | none => [.number 32 0]
  | int n => [.number 32 1, .number 64 (zigzag n.toInt)]
  | float x => [.number 32 2, .plain (writeFixed 8 x.word)]

theorem bytesOf_parts (c : Constant) : bytesOf c.parts = c.toBytes := by
  have htag (tag : Nat) (h : tag < 128) (ps : List Part) :
      bytesOf (.number 32 tag :: ps) = UInt8.ofNat tag :: bytesOf ps := by
    rw [bytesOf, List.flatMap_cons, Part.bytes, writeVarint_last h]
    rfl
  cases c with
  | none => exact htag 0 (by decide) []
  | int n =>
    rw [parts, htag 1 (by decide)]
    exact congrArg (1 :: ·) (List.append_nil _)
  | float x =>
    rw [parts, htag 2 (by decide)]
    exact congrArg (2 :: ·) (List.append_nil _)

/-- Integers are read from all numbers of 64 bits, each from one. -/
theorem zigzag_ofInt_unzigzag {n : Nat} (h : n < 2 ^ 64) :
    zigzag (Int64.ofInt (unzigzag n)).toInt = n := by
  have hrange : -2 ^ 63 ≤ unzigzag n ∧ unzigzag n < 2 ^ 63 := by
    unfold unzigzag
    split_ifs <;> omega
  rw [Int64.toInt_ofInt_of_le hrange.1 hrange.2, zigzag_unzigzag]

theorem finds_constant : Finds Constant.read fun c ps => ps = c.parts := by
  rw [read_eq]
  refine finds_read32.andThen fun tag ps htag => ?_
  obtain ⟨-, rfl⟩ := htag
  match tag with
  | 0 => exact .nothing rfl
  | 1 =>
    rw [readTagged]
    refine finds_read64.map fun n ps hn => ?_
    obtain ⟨hlt, rfl⟩ := hn
    rw [parts, zigzag_ofInt_unzigzag hlt]
    rfl
  | 2 =>
    rw [readTagged]
    refine (finds_fixed 8).map fun n ps hn => ?_
    obtain ⟨hlt, rfl⟩ := hn
    rw [parts, Binary64.word, UInt64.toNat_ofNat_of_lt' hlt]
    rfl
  | _ + 3 => exact .never .badTag

end Constant

/-! ## Units -/

namespace CodeUnit

/-- The parts of a 32-bit field. -/
def partsOfField (n : UInt32) : List Part := [.number 32 n.toNat]

/-- What a unit consists of when it is written. -/
def parts (u : CodeUnit) : List Part :=
  partsOfField u.argCount ++ (partsOfField u.kwOnlyArgCount ++ (partsOfField u.localCount ++
  (partsOfField u.stackSize ++ (partsOfField u.flags ++ (partsOfBytes u.code ++
  (partsOfList Constant.parts u.consts.toList ++ (partsOfList partsOfText u.names.toList ++
  (partsOfList partsOfText u.varNames ++ (partsOfText u.fileName ++ (partsOfText u.name ++
  (partsOfField u.firstLine ++ (partsOfBytes u.lineTable ++
  (partsOfList partsOfText u.freeVars ++ partsOfList partsOfText u.cellVars)))))))))))))

theorem bytesOf_partsOfField (n : UInt32) : bytesOf (partsOfField n) = writeField n := by
  simp [bytesOf, partsOfField, Part.bytes, writeField]

theorem bytesOf_parts (u : CodeUnit) : bytesOf u.parts = u.toBytes := by
  simp only [parts, bytesOf_append, bytesOf_partsOfField, bytesOf_partsOfBytes,
    bytesOf_partsOfText, bytesOf_partsOfList Constant.bytesOf_parts,
    bytesOf_partsOfList bytesOf_partsOfText, toBytes]

theorem finds_field : Finds readField fun n ps => ps = partsOfField n := by
  rw [readField_eq]
  refine finds_read32.map fun n ps hn => ?_
  obtain ⟨hlt, rfl⟩ := hn
  rw [partsOfField, UInt32.toNat_ofNat_of_lt' hlt]

theorem finds_texts :
    Finds (readList readText) fun texts ps => ps = partsOfList partsOfText texts.toList :=
  finds_list finds_text

/-- **What is read as a unit are forms of its parts.** -/
theorem finds_unit : Finds read fun u ps => ps = u.parts := by
  rw [read_eq]
  exact finds_field.before fun _ => finds_field.before fun _ => finds_field.before fun _ =>
    finds_field.before fun _ => finds_field.before fun _ => finds_bytes.before fun _ =>
    (finds_list Constant.finds_constant).before fun _ => finds_texts.before fun _ =>
    finds_texts.before fun _ => finds_text.before fun _ => finds_text.before fun _ =>
    finds_field.before fun _ => finds_bytes.before fun _ => finds_texts.before fun _ =>
    finds_texts.map fun _ _ h => h ▸ rfl

/-! ## Lengths -/

end CodeUnit

/-- The number of texts and their bytes. -/
def lengthOfTexts (texts : List String) : Nat :=
  texts.length + (texts.map String.utf8ByteSize).sum

/-- All lists and texts of a unit together. -/
def CodeUnit.totalLength (u : CodeUnit) : Nat :=
  u.code.length + u.consts.size + lengthOfTexts u.names.toList + lengthOfTexts u.varNames +
    u.fileName.utf8ByteSize + u.name.utf8ByteSize + u.lineTable.length +
    lengthOfTexts u.freeVars + lengthOfTexts u.cellVars

namespace Wire

theorem sum_le_length_writeList {α : Type} {item : α → List UInt8} (weight : α → Nat)
    (h : ∀ a, weight a ≤ (item a).length) (as : List α) :
    (as.map weight).sum ≤ (writeList item as).length := by
  have hitems : (as.map weight).sum ≤ (as.flatMap item).length := by
    rw [List.length_flatMap]
    exact List.sum_le_sum fun a _ => h a
  rw [writeList, List.length_append]
  omega

theorem length_le_writeBytes (bytes : List UInt8) : bytes.length ≤ (writeBytes bytes).length := by
  rw [writeBytes, List.length_append]
  exact Nat.le_add_left _ _

/-- The length of a text takes a byte at least. -/
theorem succ_le_length_writeText (s : String) : 1 + s.utf8ByteSize ≤ (writeText s).length := by
  have hne := List.length_pos_of_ne_nil (isVarint_writeVarint (bytesOfText s).length).ne_nil
  have hlen : (bytesOfText s).length = s.utf8ByteSize := rfl
  rw [writeText, writeBytes, List.length_append]
  omega

theorem lengthOfTexts_le (texts : List String) :
    lengthOfTexts texts ≤ (writeList writeText texts).length := by
  have hsum := sum_le_length_writeList _ succ_le_length_writeText texts
  rw [List.sum_map_add] at hsum
  simpa [lengthOfTexts] using hsum

theorem length_le_writeConstants (consts : List Constant) :
    consts.length ≤ (writeList Constant.toBytes consts).length := by
  have htag (c : Constant) : 1 ≤ c.toBytes.length := by
    cases c <;> exact Nat.succ_le_succ (Nat.zero_le _)
  simpa using sum_le_length_writeList (fun _ => 1) htag consts

end Wire

namespace CodeUnit

/-- Nothing in a unit is longer than what is written for the unit. -/
theorem totalLength_le (u : CodeUnit) : u.totalLength ≤ u.toBytes.length := by
  have hconsts := length_le_writeConstants u.consts.toList
  have hnames := lengthOfTexts_le u.names.toList
  have hvars := lengthOfTexts_le u.varNames
  have hfree := lengthOfTexts_le u.freeVars
  have hcell := lengthOfTexts_le u.cellVars
  have hcode := length_le_writeBytes u.code
  have hlines := length_le_writeBytes u.lineTable
  have hfile := succ_le_length_writeText u.fileName
  have hname := succ_le_length_writeText u.name
  rw [Array.length_toList] at hconsts
  rw [totalLength, toBytes]
  simp only [List.length_append]
  omega

/-! ## Units that are read -/

theorem textsFit_of_parts {texts : List String}
    (h : ∀ n, .number 64 n ∈ partsOfList partsOfText texts → n < 2 ^ 64) : TextsFit texts := by
  refine ⟨h _ List.mem_cons_self, fun s hs => h _ (List.mem_cons_of_mem _ ?_)⟩
  exact List.mem_flatMap.2 ⟨s, hs, List.mem_cons_self⟩

/-- A unit that is read can be counted by 64 bits. -/
theorem fits_of_forms {u : CodeUnit} {forms : List (List UInt8)}
    (h : List.Forall₂ Part.HasForm u.parts forms) : u.Fits := by
  have hlt (part : List Part) (hpart : part ⊆ u.parts) (n : Nat) (hn : .number 64 n ∈ part) :
      n < 2 ^ 64 := lt_of_forms h (hpart hn)
  have hbytes (bytes : List UInt8) (hpart : partsOfBytes bytes ⊆ u.parts) :
      bytes.length < 2 ^ 64 := hlt _ hpart _ List.mem_cons_self
  have htexts (texts : List String) (hpart : partsOfList partsOfText texts ⊆ u.parts) :
      TextsFit texts := textsFit_of_parts (hlt _ hpart)
  have hconsts : partsOfList Constant.parts u.consts.toList ⊆ u.parts :=
    fun p hp => by simp [parts, hp]
  exact {
    code := hbytes _ fun p hp => by simp [parts, hp]
    consts := hlt _ hconsts _ List.mem_cons_self
    names := htexts _ fun p hp => by simp [parts, hp]
    varNames := htexts _ fun p hp => by simp [parts, hp]
    fileName := hbytes (bytesOfText u.fileName) fun p hp => by simp [parts, partsOfText, hp]
    name := hbytes (bytesOfText u.name) fun p hp => by simp [parts, partsOfText, hp]
    lineTable := hbytes _ fun p hp => by simp [parts, hp]
    freeVars := htexts _ fun p hp => by simp [parts, hp]
    cellVars := htexts _ fun p hp => by simp [parts, hp] }

/-- **A unit that is read can be written again.** The bytes that were read are
    forms of the parts of the unit; those that are written are no more, and the
    same only if all of these forms are shortest; they are read as the same
    unit, and nothing in the unit is longer than what was read. -/
theorem toBytes_of_ofBytes {bytes : List UInt8} {u : CodeUnit} (h : ofBytes bytes = .ok u) :
    ∃ forms rest, read bytes = .ok (u, rest) ∧ bytes = forms.flatten ++ rest ∧
      List.Forall₂ Part.HasForm u.parts forms ∧
      u.toBytes.length ≤ forms.flatten.length ∧
      (u.toBytes = forms.flatten ↔ List.Forall₂ Part.HasShortestForm u.parts forms) ∧
      ofBytes u.toBytes = .ok u ∧
      u.totalLength ≤ bytes.length := by
  rcases hread : read bytes with e | ⟨u', rest⟩
  · rw [ofBytes, hread] at h
    cases h
  rw [ofBytes, hread] at h
  cases h
  obtain ⟨_, forms, rfl, hforms, hbytes⟩ := finds_unit bytes u rest hread
  have hlength := length_bytesOf_le hforms
  have hshortest := bytesOf_eq_iff hforms
  rw [bytesOf_parts] at hlength hshortest
  refine ⟨forms, rest, rfl, hbytes, hforms, hlength, hshortest, ?_, ?_⟩
  · have hwhole := (takes_unit (fits_of_forms hforms)).whole []
    rw [List.append_nil] at hwhole
    rw [ofBytes, hwhole]
  · calc u.totalLength ≤ u.toBytes.length := u.totalLength_le
      _ ≤ forms.flatten.length := hlength
      _ ≤ bytes.length := by
        rw [hbytes, List.length_append]
        exact Nat.le_add_right _ _

/-- The unit of `x = 5`, without file and name. -/
def binding : CodeUnit where
  argCount := 0
  kwOnlyArgCount := 0
  localCount := 0
  stackSize := 1
  flags := unitFlags
  code := [100, 0, 0, 97, 0, 0, 100, 1, 0, 83]
  consts := #[.int 5, .none]
  names := #["x"]
  varNames := []
  fileName := ""
  name := ""
  firstLine := 1
  lineTable := []
  freeVars := []
  cellVars := []

/-- Bytes of the same unit, with one more than necessary in the number of
    constants, in the tag and in the value of the first one and in the length of
    the name, and with one behind the last. -/
def overlong : List UInt8 :=
  [0, 0, 0, 1, 67] ++ (10 :: binding.code) ++ ([130, 0] ++ [129, 0, 138, 0] ++ [0]) ++
    (1 :: [129, 0, 120]) ++ [0, 0, 0, 1, 0, 0, 0] ++ [0]

set_option maxRecDepth 1000 in
/-- Of five bytes more than necessary, one is behind the unit and four are lost
    when it is written again. -/
theorem toBytes_of_ofBytes_overlong :
    ofBytes overlong = .ok binding ∧ ofBytes binding.toBytes = .ok binding ∧
      binding.toBytes.length + 5 = overlong.length ∧
      ∃ forms, forms.flatten = overlong.take 34 ∧
        List.Forall₂ Part.HasForm binding.parts forms ∧
        ¬ List.Forall₂ Part.HasShortestForm binding.parts forms := by
  have hread : read overlong = .ok (binding, [0]) := by with_unfolding_all rfl
  have hof : ofBytes overlong = .ok binding := by rw [ofBytes, hread]
  have hwritten : binding.toBytes =
      [0, 0, 0, 1, 67] ++ (10 :: binding.code) ++ ([2] ++ [1, 10] ++ [0]) ++ (1 :: [1, 120]) ++
        [0, 0, 0, 1, 0, 0, 0] := by
    with_unfolding_all rfl
  obtain ⟨forms, rest, hrest, hbytes, hforms, -, hshortest, hback, -⟩ := toBytes_of_ofBytes hof
  obtain rfl : [0] = rest := (Prod.mk.inj (Except.ok.inj (hread.symm.trans hrest))).2
  have htaken : forms.flatten = overlong.take 34 := by
    have hsplit : overlong.take 34 ++ [0] = forms.flatten ++ [0] := hbytes
    exact (List.append_cancel_right hsplit).symm
  refine ⟨hof, hback, by rw [hwritten]; rfl, forms, htaken, hforms, fun hshort => ?_⟩
  have heq := hshortest.2 hshort
  rw [hwritten, htaken] at heq
  exact absurd heq (by decide)

end CodeUnit

end Stacklet
