/-
  The forms of what is read.

  Bytes are parts one behind the other: numbers of variable length, and bytes
  as they are. A number has several forms, of which the shortest is written; a
  reader accepts all that its width allows. So what a reader has taken for a
  value consists of forms of the parts of the value (`Finds`), none shorter
  than the one that would be written.

  * `IsVarint.length_le`, `IsVarint.eq_of_length_eq`: the written form of a number
    is its only shortest one;
  * `Finds.andThen`: one reader behind another;
  * `finds_bytes`, `finds_text`, `finds_list`: what has its length in front;
  * `length_bytesOf_le`, `bytesOf_eq_iff`: the forms of parts and their bytes.
-/
import Mathlib.Data.List.Forall2
import Stacklet.Proofs.Wire

namespace Stacklet

namespace Wire

/-! ## Forms of numbers -/

/-- The bytes are a form of a number: seven bits to a byte, low ones first, with
    the high bit set in every byte but the last. -/
inductive IsVarint : List UInt8 → Nat → Prop
  | last {b : UInt8} : b.toNat < 128 → IsVarint [b] b.toNat
  | more {b : UInt8} {v n} : 128 ≤ b.toNat → IsVarint v n →
      IsVarint (b :: v) (b.toNat - 128 + 128 * n)

/-- A number of one byte. -/
theorem writeVarint_last {n : Nat} (hn : n < 128) : writeVarint n = [UInt8.ofNat n] := by
  rw [writeVarint, if_pos hn]

/-- A number of several bytes is written with any other form's first byte in
    front. -/
theorem writeVarint_more {b : UInt8} {n : Nat} (hb : 128 ≤ b.toNat)
    (hn : 128 ≤ b.toNat - 128 + 128 * n) :
    writeVarint (b.toNat - 128 + 128 * n) = b :: writeVarint n := by
  have hlt := b.toNat_lt
  have hlow : (b.toNat - 128 + 128 * n) % 128 + 128 = b.toNat := by omega
  have hhigh : (b.toNat - 128 + 128 * n) / 128 = n := by omega
  rw [writeVarint, if_neg (by omega), hlow, hhigh, UInt8.ofNat_toNat]

namespace IsVarint
variable {v : List UInt8} {n : Nat}

theorem ne_nil (h : IsVarint v n) : v ≠ [] := by
  cases h <;> exact List.cons_ne_nil _ _

/-- **No form is shorter than what is written.** -/
theorem length_le (h : IsVarint v n) : (writeVarint n).length ≤ v.length := by
  induction h with
  | last hb =>
    rw [writeVarint_last hb]
    exact Nat.le_refl 1
  | @more b v n hb hv ih =>
    by_cases hn : b.toNat - 128 + 128 * n < 128
    · rw [writeVarint_last hn]
      exact Nat.succ_le_succ (Nat.zero_le _)
    · rw [writeVarint_more hb (Nat.le_of_not_lt hn)]
      exact Nat.succ_le_succ ih

/-- **No other form is as short.** -/
theorem eq_of_length_eq (h : IsVarint v n) (hlen : (writeVarint n).length = v.length) :
    writeVarint n = v := by
  induction h with
  | last hb => rw [writeVarint_last hb, UInt8.ofNat_toNat]
  | @more b v n hb hv ih =>
    by_cases hn : b.toNat - 128 + 128 * n < 128
    · rw [writeVarint_last hn, List.length_cons] at hlen
      exact absurd (List.length_eq_zero_iff.1 (Nat.succ.inj hlen).symm) hv.ne_nil
    · rw [writeVarint_more hb (Nat.le_of_not_lt hn)] at hlen ⊢
      rw [ih (Nat.succ.inj hlen)]

end IsVarint

theorem isVarint_writeVarint (n : Nat) : IsVarint (writeVarint n) n := by
  induction n using Nat.strong_induction_on with
  | _ n ih =>
    rw [writeVarint]
    split_ifs with hn
    · have hbyte : (UInt8.ofNat n).toNat = n := by
        rw [UInt8.toNat_ofNat']
        omega
      have hlast := IsVarint.last (b := UInt8.ofNat n) (hbyte.trans_lt hn)
      rwa [hbyte] at hlast
    · have hbyte : (UInt8.ofNat (n % 128 + 128)).toNat = n % 128 + 128 := by
        rw [UInt8.toNat_ofNat']
        omega
      have hmore := IsVarint.more (by omega) (ih (n / 128) (by omega))
        (b := UInt8.ofNat (n % 128 + 128))
      rwa [hbyte, Nat.add_sub_cancel, Nat.mod_add_div] at hmore

/-- What is read as a number is a form of it that the width allows. -/
theorem isVarint_of_readVarint {more limit n : Nat} {bytes rest : List UInt8}
    (hlimit : limit < 128) (h : readVarint more limit bytes = .ok (n, rest)) :
    ∃ v, bytes = v ++ rest ∧ IsVarint v n ∧ v.length ≤ more + 1 ∧
      n < (limit + 1) * 128 ^ more := by
  induction more generalizing bytes n with
  | zero =>
    cases bytes with
    | nil => cases h
    | cons b bytes =>
      rw [readVarint] at h
      split_ifs at h with hb
      cases h
      exact ⟨[b], rfl, .last (by omega), Nat.le_refl 1, by omega⟩
  | succ more ih =>
    cases bytes with
    | nil => cases h
    | cons b bytes =>
      rw [readVarint] at h
      split_ifs at h with hb
      · cases h
        refine ⟨[b], rfl, .last hb, Nat.succ_le_succ (Nat.zero_le _), ?_⟩
        calc b.toNat < 1 * 128 ^ 1 := by omega
          _ ≤ (limit + 1) * 128 ^ (more + 1) :=
            Nat.mul_le_mul (by omega) (Nat.pow_le_pow_right (by decide) (by omega))
      · rcases hmore : readVarint more limit bytes with e | ⟨m, last⟩
        · rw [hmore] at h
          cases h
        · rw [hmore] at h
          cases h
          obtain ⟨v, rfl, hv, hlen, hlt⟩ := ih hmore
          refine ⟨b :: v, rfl, .more (by omega) hv, Nat.succ_le_succ hlen, ?_⟩
          have hbyte := b.toNat_lt
          rw [Nat.pow_succ, ← Nat.mul_assoc]
          omega

/-! ## Parts -/

/-- A part of what is written. -/
inductive Part where
  /-- a number of some width -/
  | number (bits n : Nat)
  /-- bytes as they are -/
  | plain (bytes : List UInt8)

namespace Part

/-- What is written for a part. -/
def bytes : Part → List UInt8
  | number _ n => writeVarint n
  | plain bytes => bytes

/-- What may stand for a part. A number has as many bytes as its width needs at
    most, and is no wider. -/
def HasForm : Part → List UInt8 → Prop
  | number bits n, v => IsVarint v n ∧ v.length ≤ (bits + 6) / 7 ∧ n < 2 ^ bits
  | plain bytes, v => v = bytes

/-- What may stand for a part and is not longer than anything else that may. -/
def HasShortestForm (p : Part) (v : List UInt8) : Prop :=
  p.HasForm v ∧ ∀ w, p.HasForm w → v.length ≤ w.length

variable {p : Part} {v : List UInt8}

theorem HasForm.length_le (h : p.HasForm v) : p.bytes.length ≤ v.length := by
  cases p with
  | number bits n => exact h.1.length_le
  | plain bytes => exact le_of_eq (congrArg List.length h.symm)

theorem HasForm.bytes (h : p.HasForm v) : p.HasForm p.bytes := by
  cases p with
  | number bits n => exact ⟨isVarint_writeVarint n, h.1.length_le.trans h.2.1, h.2.2⟩
  | plain bytes => rfl

/-- The shortest form is the one that is written. -/
theorem HasForm.bytes_eq_iff (h : p.HasForm v) : p.bytes = v ↔ p.HasShortestForm v := by
  constructor
  · rintro rfl
    exact ⟨h, fun w hw => hw.length_le⟩
  · intro hshortest
    have hlen : p.bytes.length = v.length := le_antisymm h.length_le (hshortest.2 _ h.bytes)
    cases p with
    | number bits n => exact h.1.eq_of_length_eq hlen
    | plain bytes => exact h.symm

end Part

/-- What is written for several parts. -/
def bytesOf (ps : List Part) : List UInt8 := ps.flatMap Part.bytes

theorem bytesOf_append (ps qs : List Part) : bytesOf (ps ++ qs) = bytesOf ps ++ bytesOf qs :=
  List.flatMap_append

section
variable {ps : List Part} {forms : List (List UInt8)}

/-- Numbers that have forms are no wider than they may be. -/
theorem lt_of_forms (h : List.Forall₂ Part.HasForm ps forms) {bits n : Nat}
    (hn : .number bits n ∈ ps) : n < 2 ^ bits := by
  induction h with
  | nil => cases hn
  | cons hform _ ih =>
    rcases List.mem_cons.1 hn with rfl | hn
    · exact hform.2.2
    · exact ih hn

/-- No forms are shorter than what is written. -/
theorem length_bytesOf_le (h : List.Forall₂ Part.HasForm ps forms) :
    (bytesOf ps).length ≤ forms.flatten.length := by
  induction h with
  | nil => exact Nat.le_refl 0
  | cons hform _ ih =>
    rw [bytesOf, List.flatMap_cons, List.flatten_cons, List.length_append, List.length_append]
    exact Nat.add_le_add hform.length_le ih

/-- **Forms are what is written if and only if all of them are shortest.** -/
theorem bytesOf_eq_iff (h : List.Forall₂ Part.HasForm ps forms) :
    bytesOf ps = forms.flatten ↔ List.Forall₂ Part.HasShortestForm ps forms := by
  induction h with
  | nil => exact ⟨fun _ => .nil, fun _ => rfl⟩
  | @cons p v ps forms hform hforms ih =>
    rw [List.forall₂_cons, ← ih, ← hform.bytes_eq_iff, bytesOf, List.flatMap_cons,
      List.flatten_cons]
    constructor
    · intro heq
      -- neither part is longer, so both are as long as each other
      have hlen := congrArg List.length heq
      have hp := hform.length_le
      have hps := length_bytesOf_le hforms
      rw [bytesOf] at hps
      rw [List.length_append, List.length_append] at hlen
      exact List.append_inj heq (by omega)
    · rintro ⟨hp, hps⟩
      rw [hp, ← hps]
      rfl

end

/-! ## Readers -/

variable {α β : Type}

/-- What a reader takes for a value are forms of parts that belong to the
    value. -/
def Finds (read : Reader α) (P : α → List Part → Prop) : Prop :=
  ∀ bytes a rest, read bytes = .ok (a, rest) → ∃ ps forms,
    P a ps ∧ List.Forall₂ Part.HasForm ps forms ∧ bytes = forms.flatten ++ rest

namespace Finds
variable {read : Reader α} {P P' : α → List Part → Prop}

theorem weaken (h : Finds read P) (hP : ∀ a ps, P a ps → P' a ps) : Finds read P' := by
  intro bytes a rest hread
  obtain ⟨ps, forms, hps, hforms, hbytes⟩ := h bytes a rest hread
  exact ⟨ps, forms, hP a ps hps, hforms, hbytes⟩

theorem nothing {a : α} (h : P a []) : Finds (fun bytes => .ok (a, bytes)) P := by
  intro bytes b rest hread
  cases hread
  exact ⟨[], [], h, .nil, rfl⟩

theorem never (e : WireError) : Finds (fun _ => .error e) P := by
  intro bytes a rest hread
  cases hread

theorem andThen {f : α → Reader β} {Q : β → List Part → Prop} (h : Finds read P)
    (hf : ∀ a ps, P a ps → Finds (f a) fun b more => Q b (ps ++ more)) :
    Finds (Wire.andThen read f) Q := by
  intro bytes b rest hread
  rcases hfirst : read bytes with e | ⟨a, middle⟩
  · rw [andThen_of_error hfirst] at hread
    cases hread
  · rw [andThen_of_ok hfirst] at hread
    obtain ⟨ps, forms, hps, hforms, rfl⟩ := h bytes a middle hfirst
    obtain ⟨more, others, hmore, hothers, rfl⟩ := hf a ps hps middle b rest hread
    refine ⟨ps ++ more, forms ++ others, hmore, List.rel_append hforms hothers, ?_⟩
    rw [List.flatten_append, List.append_assoc]

/-- A reader of a value that tells its parts, and another behind it. -/
theorem before {parts : α → List Part} {f : α → Reader β} {Q : β → List Part → Prop}
    (h : Finds read fun a ps => ps = parts a)
    (hf : ∀ a, Finds (f a) fun b more => Q b (parts a ++ more)) :
    Finds (Wire.andThen read f) Q := by
  refine h.andThen fun a ps hps => ?_
  rw [hps]
  exact hf a

/-- A reader whose value is changed. -/
theorem map {f : α → β} {Q : β → List Part → Prop} (h : Finds read P)
    (hf : ∀ a ps, P a ps → Q (f a) ps) :
    Finds (Wire.andThen read fun a rest => .ok (f a, rest)) Q := by
  refine h.andThen fun a ps hps => nothing ?_
  rw [List.append_nil]
  exact hf a ps hps

end Finds

/-! ## Numbers -/

theorem finds_read32 : Finds read32 fun n ps => n < 2 ^ 32 ∧ ps = [.number 32 n] := by
  intro bytes n rest hread
  obtain ⟨v, hbytes, hv, hlen, hlt⟩ := isVarint_of_readVarint (by decide) hread
  have hlt : n < 2 ^ 32 := by omega
  refine ⟨_, [v], ⟨hlt, rfl⟩, .cons ⟨hv, hlen, hlt⟩ .nil, ?_⟩
  rw [List.flatten_singleton, hbytes]

theorem finds_read64 : Finds read64 fun n ps => n < 2 ^ 64 ∧ ps = [.number 64 n] := by
  intro bytes n rest hread
  obtain ⟨v, hbytes, hv, hlen, hlt⟩ := isVarint_of_readVarint (by decide) hread
  have hlt : n < 2 ^ 64 := by omega
  refine ⟨_, [v], ⟨hlt, rfl⟩, .cons ⟨hv, hlen, hlt⟩ .nil, ?_⟩
  rw [List.flatten_singleton, hbytes]

theorem finds_fixed (count : Nat) :
    Finds (readFixed count) fun n ps => n < 256 ^ count ∧ ps = [.plain (writeFixed count n)] := by
  intro bytes n rest hread
  suffices bytes = writeFixed count n ++ rest ∧ n < 256 ^ count from
    ⟨_, [writeFixed count n], ⟨this.2, rfl⟩, .cons rfl .nil, by
      rw [List.flatten_singleton, this.1]⟩
  induction count generalizing bytes n with
  | zero =>
    cases hread
    exact ⟨rfl, Nat.one_pos⟩
  | succ count ih =>
    cases bytes with
    | nil => cases hread
    | cons b bytes =>
      rw [readFixed] at hread
      rcases hmore : readFixed count bytes with e | ⟨m, last⟩
      · rw [hmore] at hread
        cases hread
      · rw [hmore] at hread
        cases hread
        obtain ⟨rfl, hlt⟩ := ih bytes m hmore
        have hbyte := b.toNat_lt
        have hlow : (b.toNat + 256 * m) % 256 = b.toNat := by omega
        have hhigh : (b.toNat + 256 * m) / 256 = m := by omega
        rw [writeFixed, hlow, hhigh, UInt8.ofNat_toNat, Nat.pow_succ]
        exact ⟨rfl, by omega⟩

theorem zigzag_unzigzag (n : Nat) : zigzag (unzigzag n) = n := by
  unfold unzigzag zigzag
  split_ifs <;> omega

/-! ## Sequences -/

/-- The parts of bytes with their number in front. -/
def partsOfBytes (bytes : List UInt8) : List Part := [.number 64 bytes.length, .plain bytes]

/-- The parts of a text with the number of its bytes in front. -/
def partsOfText (s : String) : List Part := partsOfBytes (bytesOfText s)

/-- The parts of items with their number in front. -/
def partsOfList (parts : α → List Part) (as : List α) : List Part :=
  .number 64 as.length :: as.flatMap parts

theorem bytesOf_partsOfBytes (bytes : List UInt8) :
    bytesOf (partsOfBytes bytes) = writeBytes bytes := by
  simp [bytesOf, partsOfBytes, Part.bytes, writeBytes]

theorem bytesOf_partsOfText (s : String) : bytesOf (partsOfText s) = writeText s :=
  bytesOf_partsOfBytes _

theorem bytesOf_partsOfList {parts : α → List Part} {write : α → List UInt8}
    (h : ∀ a, bytesOf (parts a) = write a) (as : List α) :
    bytesOf (partsOfList parts as) = writeList write as := by
  obtain rfl : (fun a => bytesOf (parts a)) = write := funext h
  rw [bytesOf, partsOfList, List.flatMap_cons, List.flatMap_assoc]
  rfl

theorem finds_count (count : Nat) :
    Finds (readCount count) fun bytes ps => bytes.length = count ∧ ps = [.plain bytes] := by
  intro bytes front rest hread
  rw [readCount] at hread
  split_ifs at hread with hlen
  cases hread
  refine ⟨_, [bytes.take count], ⟨hlen, rfl⟩, .cons rfl .nil, ?_⟩
  rw [List.flatten_singleton, List.take_append_drop]

theorem finds_bytes : Finds readBytes fun bytes ps => ps = partsOfBytes bytes := by
  rw [readBytes_eq]
  refine finds_read64.andThen fun count ps hcount => (finds_count count).weaken ?_
  rintro bytes more ⟨hlen, rfl⟩
  rw [hcount.2, ← hlen]
  rfl

theorem bytesOfText_of_textOfBytes? {bytes : List UInt8} {s : String}
    (h : textOfBytes? bytes = some s) : bytesOfText s = bytes := by
  rw [textOfBytes?, String.fromUTF8?] at h
  split_ifs at h with hvalid
  cases h
  rfl

theorem finds_text : Finds readText fun s ps => ps = partsOfText s := by
  rw [readText_eq]
  refine finds_bytes.andThen fun bytes ps hps => ?_
  intro rest s last hread
  rw [readValid] at hread
  rcases hs : textOfBytes? bytes with _ | s'
  · rw [hs] at hread
    cases hread
  · rw [hs] at hread
    cases hread
    refine ⟨[], [], ?_, .nil, rfl⟩
    change ps ++ [] = _
    rw [List.append_nil, hps, partsOfText, bytesOfText_of_textOfBytes? hs]

section
variable {item : Reader α} {parts : α → List Part} (h : Finds item fun a ps => ps = parts a)
include h

theorem finds_items (count : Nat) (found : Array α) :
    Finds (readItems item count found) fun as ps =>
      ∃ more : List α, as = found ++ more ∧ more.length = count ∧ ps = more.flatMap parts := by
  induction count generalizing found with
  | zero => exact .nothing ⟨[], by simp, rfl, rfl⟩
  | succ count ih =>
    rw [readItems_succ]
    refine h.andThen fun a ps hps => (ih (found.push a)).weaken ?_
    rintro as _ ⟨more, rfl, rfl, rfl⟩
    exact ⟨a :: more, by simp, rfl, by rw [hps, List.flatMap_cons]⟩

theorem finds_list : Finds (readList item) fun as ps => ps = partsOfList parts as.toList := by
  rw [readList_eq]
  refine finds_read64.andThen fun count ps hcount => (finds_items h count #[]).weaken ?_
  rintro as _ ⟨more, rfl, rfl, rfl⟩
  simp [hcount.2, partsOfList]

end

end Wire

end Stacklet
