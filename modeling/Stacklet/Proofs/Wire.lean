/-
  What is written to bytes is read back, and nothing less is.

  A reader takes some bytes for a value (`Takes`) if it finds the value in
  front of anything, leaves what follows, and misses something in every part
  of the bytes that is cut short.

  * `Takes.andThen`: one reader behind another;
  * `takes_varint`: numbers up to the bound of their width;
  * `takes_bytes`, `takes_text`, `takes_list`: what has its length in front, as
    long as 64 bits can count it.
-/
import Mathlib.Algebra.GroupWithZero.Nat
import Mathlib.Data.List.Infix
import Stacklet.Wire

namespace Stacklet

namespace Wire

variable {α β : Type}

/-! ## Readers -/

/-- A reader takes exactly the given bytes for a value: whatever follows them
    is left, and without the last of them the value is not complete. -/
structure Takes (read : Reader α) (bytes : List UInt8) (a : α) : Prop where
  whole : ∀ rest, read (bytes ++ rest) = .ok (a, rest)
  cut : ∀ front, front <+: bytes → front ≠ bytes → read front = .error .endOfBuffer

/-- Reads a value, and goes on behind it. -/
def andThen (read : Reader α) (f : α → Reader β) : Reader β := fun bytes => do
  let (a, rest) ← read bytes
  f a rest

theorem andThen_of_ok {read : Reader α} {bytes rest : List UInt8} {a : α}
    (h : read bytes = .ok (a, rest)) (f : α → Reader β) : andThen read f bytes = f a rest := by
  rw [andThen, h]
  rfl

theorem andThen_of_error {read : Reader α} {bytes : List UInt8} {e : WireError}
    (h : read bytes = .error e) (f : α → Reader β) : andThen read f bytes = .error e := by
  rw [andThen, h]
  rfl

/-- Nothing is taken for a value that is known. -/
theorem takes_nothing (a : α) : Takes (fun bytes => .ok (a, bytes)) [] a where
  whole _ := rfl
  cut _ hfront hne := absurd (List.prefix_nil.1 hfront) hne

theorem Takes.andThen {read : Reader α} {f : α → Reader β} {bytes more : List UInt8} {a : α} {b : β}
    (ha : Takes read bytes a) (hb : Takes (f a) more b) :
    Takes (Wire.andThen read f) (bytes ++ more) b where
  whole rest := by
    rw [List.append_assoc, andThen_of_ok (ha.whole _)]
    exact hb.whole rest
  cut front hfront hne := by
    -- the cut is inside the bytes of the first value, or behind them
    by_cases hcut : bytes <+: front
    · obtain ⟨part, rfl⟩ := hcut
      have hpart : part <+: more := (List.prefix_append_right_inj bytes).1 hfront
      rw [andThen_of_ok (ha.whole part)]
      exact hb.cut part hpart fun h => hne (congrArg (bytes ++ ·) h)
    · have hshort : front <+: bytes :=
        (List.prefix_or_prefix_of_prefix hfront (List.prefix_append bytes more)).resolve_right hcut
      exact andThen_of_error (ha.cut front hshort fun h => hcut (h ▸ List.prefix_rfl)) f

theorem Takes.map {read : Reader α} {bytes : List UInt8} {a : α} (h : Takes read bytes a)
    (f : α → β) : Takes (Wire.andThen read fun a rest => .ok (f a, rest)) bytes (f a) := by
  rw [← List.append_nil bytes]
  exact h.andThen (takes_nothing (f a))

/-- A first byte, and a reader behind it. -/
theorem Takes.cons {read behind : Reader α} {byte : UInt8} {bytes : List UInt8} {a : α}
    (h : Takes behind bytes a) (hnil : read [] = .error .endOfBuffer)
    (hcons : ∀ rest, read (byte :: rest) = behind rest) : Takes read (byte :: bytes) a where
  whole rest := (hcons _).trans (h.whole rest)
  cut front hfront hne := by
    cases front with
    | nil => exact hnil
    | cons first front =>
      obtain ⟨rfl, hrest⟩ := List.cons_prefix_cons.1 hfront
      rw [hcons]
      exact h.cut front hrest fun h => hne (congrArg (first :: ·) h)

/-! ## Numbers -/

/-- A byte that ends a number. -/
theorem takes_lastByte {more limit n : Nat} (hn : n < 128) (hlast : more = 0 → n ≤ limit) :
    Takes (readVarint more limit) [UInt8.ofNat n] n := by
  have hbyte : (UInt8.ofNat n).toNat = n := by
    rw [UInt8.toNat_ofNat']
    omega
  refine (takes_nothing n).cons ?_ fun rest => ?_
  · cases more <;> rfl
  · cases more with
    | zero => simp only [readVarint, hbyte, hlast rfl, if_true]
    | succ more => simp only [readVarint, hbyte, hn, if_true]

/-- A byte that does not end a number, with the low bits of it. -/
theorem readVarint_cons {more limit low : Nat} (hlow : low < 128) (rest : List UInt8) :
    readVarint (more + 1) limit (UInt8.ofNat (low + 128) :: rest) =
      andThen (readVarint more limit) (fun high rest => .ok (low + 128 * high, rest)) rest := by
  have hbyte : (UInt8.ofNat (low + 128)).toNat = low + 128 := by
    rw [UInt8.toNat_ofNat']
    omega
  rw [readVarint, hbyte, if_neg (by omega), Nat.add_sub_cancel, andThen]
  rcases readVarint more limit rest with _ | ⟨_, _⟩ <;> rfl

/-- **A number is read back if the bytes that are allowed can hold it.** -/
theorem takes_varint {more limit n : Nat} (hlimit : limit < 128)
    (h : n < (limit + 1) * 128 ^ more) : Takes (readVarint more limit) (writeVarint n) n := by
  induction more generalizing n with
  | zero =>
    have hn : n ≤ limit := by simpa [Nat.lt_succ_iff] using h
    rw [writeVarint, if_pos (by omega)]
    exact takes_lastByte (by omega) fun _ => hn
  | succ more ih =>
    rw [writeVarint]
    split_ifs with hn
    · exact takes_lastByte hn nofun
    · have hhigh : n / 128 < (limit + 1) * 128 ^ more := by
        rw [Nat.div_lt_iff_lt_mul (by decide), Nat.mul_assoc, ← Nat.pow_succ]
        exact h
      have htaken := (ih hhigh).map fun high => n % 128 + 128 * high
      rw [Nat.mod_add_div] at htaken
      exact htaken.cons rfl (readVarint_cons (Nat.mod_lt n (by decide)))

theorem takes_read32 {n : Nat} (h : n < 2 ^ 32) : Takes read32 (writeVarint n) n :=
  takes_varint (by decide) (by omega)

theorem takes_read64 {n : Nat} (h : n < 2 ^ 64) : Takes read64 (writeVarint n) n :=
  takes_varint (by decide) (by omega)

theorem unzigzag_zigzag (n : Int) : unzigzag (zigzag n) = n := by
  unfold unzigzag zigzag
  split_ifs <;> omega

theorem zigzag_lt (n : Int64) : zigzag n.toInt < 2 ^ 64 := by
  have hlt := n.toInt_lt
  have hle := n.le_toInt
  unfold zigzag
  split_ifs <;> omega

theorem readFixed_cons {count low : Nat} (hlow : low < 256) (rest : List UInt8) :
    readFixed (count + 1) (UInt8.ofNat low :: rest) =
      andThen (readFixed count) (fun high rest => .ok (low + 256 * high, rest)) rest := by
  have hbyte : (UInt8.ofNat low).toNat = low := by
    rw [UInt8.toNat_ofNat']
    omega
  rw [readFixed, hbyte, andThen]
  rcases readFixed count rest with _ | ⟨_, _⟩ <;> rfl

theorem takes_fixed {count n : Nat} (h : n < 256 ^ count) :
    Takes (readFixed count) (writeFixed count n) n := by
  induction count generalizing n with
  | zero =>
    obtain rfl : n = 0 := by simpa using h
    exact takes_nothing 0
  | succ count ih =>
    have hhigh : n / 256 < 256 ^ count := by
      rw [Nat.div_lt_iff_lt_mul (by decide), ← Nat.pow_succ]
      exact h
    have htaken := (ih hhigh).map fun high => n % 256 + 256 * high
    rw [Nat.mod_add_div] at htaken
    exact htaken.cons rfl (readFixed_cons (Nat.mod_lt n (by decide)))

/-! ## Sequences -/

/-- The first bytes, as many as are asked for. -/
def readCount (count : Nat) : Reader (List UInt8) := fun bytes =>
  let front := bytes.take count
  if front.length = count then .ok (front, bytes.drop count) else .error .endOfBuffer

theorem takes_count (bytes : List UInt8) : Takes (readCount bytes.length) bytes bytes where
  whole rest := by simp [readCount]
  cut front hfront hne := by
    have hlt : front.length < bytes.length :=
      lt_of_le_of_ne hfront.length_le fun h => hne (hfront.eq_of_length h)
    have hshort : (front.take bytes.length).length ≠ bytes.length := by
      rw [List.length_take]
      omega
    exact if_neg hshort

theorem readBytes_eq : readBytes = andThen read64 readCount := by
  funext bytes
  rw [readBytes, andThen]
  rcases read64 bytes with _ | ⟨_, _⟩ <;> rfl

theorem takes_bytes {bytes : List UInt8} (h : bytes.length < 2 ^ 64) :
    Takes readBytes (writeBytes bytes) bytes := by
  rw [readBytes_eq]
  exact (takes_read64 h).andThen (takes_count bytes)

theorem textOfBytes?_bytesOfText (s : String) : textOfBytes? (bytesOfText s) = some s :=
  dif_pos s.isValidUTF8

/-- A text for its bytes, if they are one. -/
def readValid (bytes : List UInt8) : Reader String := fun rest =>
  match textOfBytes? bytes with
  | none => .error .badUtf8
  | some s => .ok (s, rest)

theorem takes_valid (s : String) : Takes (readValid (bytesOfText s)) [] s := by
  unfold readValid
  rw [textOfBytes?_bytesOfText]
  exact takes_nothing s

theorem readText_eq : readText = andThen readBytes readValid := by
  funext bytes
  rw [readText, andThen]
  rcases readBytes bytes with _ | ⟨_, _⟩ <;> rfl

theorem takes_text {s : String} (h : s.utf8ByteSize < 2 ^ 64) : Takes readText (writeText s) s := by
  rw [readText_eq, writeText, ← List.append_nil (writeBytes _)]
  exact (takes_bytes h).andThen (takes_valid s)

theorem readItems_succ (item : Reader α) (count : Nat) (found : Array α) :
    readItems item (count + 1) found =
      andThen item fun a => readItems item count (found.push a) := by
  funext bytes
  rw [readItems, andThen]
  rcases item bytes with _ | ⟨_, _⟩ <;> rfl

theorem readList_eq (item : Reader α) :
    readList item = andThen read64 fun count => readItems item count #[] := by
  funext bytes
  rw [readList, andThen]
  rcases read64 bytes with _ | ⟨_, _⟩ <;> rfl

section
variable {item : Reader α} {write : α → List UInt8} {as : List α}
  (h : ∀ a ∈ as, Takes item (write a) a)
include h

/-- Items one after the other, behind those found before. -/
theorem takes_items (found : Array α) :
    Takes (readItems item as.length found) (as.flatMap write) (found ++ as) := by
  induction as generalizing found with
  | nil =>
    have hfound : found ++ ([] : List α) = found := by simp
    rw [hfound]
    exact takes_nothing found
  | cons a as ih =>
    obtain ⟨ha, has⟩ := List.forall_mem_cons.1 h
    have hfound : found ++ (a :: as) = found.push a ++ as := by simp
    rw [List.flatMap_cons, List.length_cons, readItems_succ, hfound]
    exact ha.andThen (ih has (found.push a))

theorem takes_list (hlen : as.length < 2 ^ 64) :
    Takes (readList item) (writeList write as) as.toArray := by
  have hitems := takes_items h #[]
  have hfound : (#[] : Array α) ++ as = as.toArray := by simp
  rw [hfound] at hitems
  rw [readList_eq]
  exact (takes_read64 hlen).andThen hitems

end

end Wire

end Stacklet
