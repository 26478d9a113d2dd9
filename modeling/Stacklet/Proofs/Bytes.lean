/-
  Units are read back from their bytes.

  * `takes_constant`: constants with their tags;
  * `CodeUnit.takes_unit`: field by field, a unit that `Fits`;
  * `CodeUnit.ofBytes_toBytes`: a unit comes back whatever follows its bytes, and
    from fewer bytes nothing does.
-/
import Stacklet.CodeUnit.Bytes
import Stacklet.Proofs.Wire

namespace Stacklet

open Wire

/-! ## Constants -/

namespace Constant

/-- What stands behind a tag. -/
def readTagged : Nat → Reader Constant
  | 0 => fun bytes => .ok (none, bytes)
  | 1 => andThen read64 fun n rest => .ok (int (Int64.ofInt (unzigzag n)), rest)
  | 2 => andThen (readFixed 8) fun n rest => .ok (float ⟨UInt64.ofNat n⟩, rest)
  | _ => fun _ => .error .badTag

theorem read_eq : Constant.read = andThen read32 readTagged := by
  funext bytes
  rw [Constant.read]
  rcases htag : read32 bytes with e | ⟨tag, rest⟩
  · rw [andThen_of_error htag]
  · rw [andThen_of_ok htag]
    rcases tag with _ | _ | _ | tag
    · rfl
    · rcases hn : read64 rest with e | ⟨n, last⟩
      · simp only [readTagged, andThen_of_error hn, hn]
      · simp only [readTagged, andThen_of_ok hn, hn]
    · rcases hn : readFixed 8 rest with e | ⟨n, last⟩
      · simp only [readTagged, andThen_of_error hn, hn]
      · simp only [readTagged, andThen_of_ok hn, hn]
    · rfl

/-- A constant behind its tag. -/
theorem takes_tagged (tag : Nat) (htag : tag < 128) {bytes : List UInt8} {c : Constant}
    (h : Takes (readTagged tag) bytes c) : Takes Constant.read (UInt8.ofNat tag :: bytes) c := by
  have hwritten : UInt8.ofNat tag :: bytes = writeVarint tag ++ bytes := by
    rw [writeVarint, if_pos htag]
    rfl
  rw [read_eq, hwritten]
  exact (takes_read32 (by omega)).andThen h

end Constant

theorem takes_constant (c : Constant) : Takes Constant.read c.toBytes c := by
  cases c with
  | none => exact Constant.takes_tagged 0 (by decide) (takes_nothing Constant.none)
  | int n =>
    have htaken := (takes_read64 (zigzag_lt n)).map fun m => Constant.int (Int64.ofInt (unzigzag m))
    rw [unzigzag_zigzag, Int64.ofInt_toInt] at htaken
    exact Constant.takes_tagged 1 (by decide) htaken
  | float x =>
    have hword : x.word < 256 ^ 8 := x.bits.toNat_lt
    have htaken := (takes_fixed hword).map fun n => Constant.float ⟨UInt64.ofNat n⟩
    rw [Binary64.word, UInt64.ofNat_toNat] at htaken
    exact Constant.takes_tagged 2 (by decide) htaken

/-! ## Units -/

/-- Texts that 64 bits can count, each of them and all together. -/
def TextsFit (texts : List String) : Prop :=
  texts.length < 2 ^ 64 ∧ ∀ s ∈ texts, s.utf8ByteSize < 2 ^ 64

instance (texts : List String) : Decidable (TextsFit texts) := inferInstanceAs (Decidable (_ ∧ _))

theorem takes_texts {texts : List String} (h : TextsFit texts) :
    Takes (readList readText) (writeList writeText texts) texts.toArray :=
  takes_list (fun s hs => takes_text (h.2 s hs)) h.1

namespace CodeUnit

/-- Nothing in a unit is longer than 64 bits can count, as nothing is that a
    machine with 64-bit addresses holds. -/
structure Fits (u : CodeUnit) : Prop where
  code : u.code.length < 2 ^ 64
  consts : u.consts.toList.length < 2 ^ 64
  names : TextsFit u.names.toList
  varNames : TextsFit u.varNames
  fileName : u.fileName.utf8ByteSize < 2 ^ 64
  name : u.name.utf8ByteSize < 2 ^ 64
  lineTable : u.lineTable.length < 2 ^ 64
  freeVars : TextsFit u.freeVars
  cellVars : TextsFit u.cellVars

theorem readField_eq : readField = andThen read32 fun n rest => .ok (UInt32.ofNat n, rest) := by
  funext bytes
  rw [readField, andThen]
  rcases read32 bytes with _ | ⟨_, _⟩ <;> rfl

theorem takes_field (n : UInt32) : Takes readField (writeField n) n := by
  have htaken := (takes_read32 n.toNat_lt).map UInt32.ofNat
  rw [UInt32.ofNat_toNat] at htaken
  rw [readField_eq]
  exact htaken

theorem read_eq :
    read =
      andThen readField fun argCount => andThen readField fun kwOnlyArgCount =>
      andThen readField fun localCount => andThen readField fun stackSize =>
      andThen readField fun flags => andThen readBytes fun code =>
      andThen (readList Constant.read) fun consts => andThen (readList readText) fun names =>
      andThen (readList readText) fun varNames => andThen readText fun fileName =>
      andThen readText fun name => andThen readField fun firstLine =>
      andThen readBytes fun lineTable => andThen (readList readText) fun freeVars =>
      andThen (readList readText) fun cellVars bytes => .ok ({
        argCount, kwOnlyArgCount, localCount, stackSize, flags, code, consts, names,
        varNames := varNames.toList, fileName, name, firstLine, lineTable,
        freeVars := freeVars.toList, cellVars := cellVars.toList }, bytes) := rfl

/-- **A unit is read back field by field.** -/
theorem takes_unit {u : CodeUnit} (h : u.Fits) : Takes read u.toBytes u := by
  have hconsts := takes_list (fun c _ => takes_constant c) h.consts
  have hnames := takes_texts h.names
  rw [Array.toArray_toList] at hconsts hnames
  rw [read_eq, toBytes]
  exact (takes_field _).andThen <| (takes_field _).andThen <| (takes_field _).andThen <|
    (takes_field _).andThen <| (takes_field _).andThen <| (takes_bytes h.code).andThen <|
    hconsts.andThen <| hnames.andThen <| (takes_texts h.varNames).andThen <|
    (takes_text h.fileName).andThen <| (takes_text h.name).andThen <| (takes_field _).andThen <|
    (takes_bytes h.lineTable).andThen <| (takes_texts h.freeVars).andThen <|
    (takes_texts h.cellVars).map _

/-- **The bytes of a unit say which unit it is and where they end**: with
    anything behind them they are read as the unit, and with the last of them
    missing they are found to be too few. -/
theorem ofBytes_toBytes {u : CodeUnit} (h : u.Fits) :
    (∀ rest, ofBytes (u.toBytes ++ rest) = .ok u) ∧
      ∀ front, front <+: u.toBytes → front ≠ u.toBytes → ofBytes front = .error .endOfBuffer := by
  have htaken := takes_unit h
  constructor
  · intro rest
    rw [ofBytes, htaken.whole]
  · intro front hfront hne
    rw [ofBytes, htaken.cut front hfront hne]

/-- A unit with the extreme values of most fields. -/
def edges : CodeUnit where
  argCount := 0xffffffff
  kwOnlyArgCount := 0
  localCount := 128
  stackSize := 127
  flags := 0x80000043
  code := [0, 255]
  consts := #[.none, .int Int64.minValue, .float ⟨0x8000000000000000⟩, .float ⟨0x7ff8000000000001⟩]
  names := #["", "é"]
  varNames := []
  fileName := "<stdin>"
  name := ""
  firstLine := 1
  lineTable := []
  freeVars := ["x"]
  cellVars := []

theorem ofBytes_toBytes_edges :
    ofBytes (edges.toBytes ++ [1, 2]) = .ok edges ∧
      ∀ k < edges.toBytes.length, ofBytes (edges.toBytes.take k) = .error .endOfBuffer := by
  have hfits : edges.Fits := by constructor <;> decide
  obtain ⟨hwhole, hcut⟩ := ofBytes_toBytes hfits
  refine ⟨hwhole _, fun k hk => hcut _ (List.take_prefix k _) fun h => ?_⟩
  have hlen := congrArg List.length h
  rw [List.length_take] at hlen
  omega

end CodeUnit

end Stacklet
