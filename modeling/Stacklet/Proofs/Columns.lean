/-
  Lines, words and numerals.

  What a text in columns is read back to: the lines it was put together from,
  the words in a line, whatever their widths, and the number of a numeral.

  * `splitLines_lines`: lines without line feeds are the lines of their text;
  * `words_append_blank`, `words_padLeft`, `words_padRight`: blanks part words and
    are none themselves;
  * `toString_inj`: a number has a numeral of its own;
  * `IsPlain`: texts of letters, digits, blanks and `_ . -` only.
-/
import Stacklet.Text.Column

namespace Stacklet.Text

/-! ## Columns as characters -/

theorem toList_pushn (s : String) (c : Char) (n : Nat) :
    (s.pushn c n).toList = s.toList ++ List.replicate n c := by
  rw [String.pushn_eq_repeat_push]
  induction n with
  | zero => exact (List.append_nil _).symm
  | succ n ih => rw [Nat.repeat, String.toList_push, ih, List.append_assoc, ← List.replicate_succ']

theorem toList_padLeft (width : Nat) (s : String) :
    (padLeft width s).toList = List.replicate (width - s.length) ' ' ++ s.toList := by
  rw [padLeft, String.toList_append, toList_pushn]
  rfl

theorem toList_padRight (width : Nat) (s : String) :
    (padRight width s).toList = s.toList ++ List.replicate (width - s.length) ' ' :=
  toList_pushn s ' ' _

/-! ## Lines -/

/-- The lines of a text, the last one being what stands behind all line feeds. -/
def splitLines (text : String) : List String := (text.toList.splitOn '\n').map String.ofList

theorem toList_lines (ls : List String) :
    (lines ls).toList = ls.flatMap fun l => l.toList ++ ['\n'] := by
  have hfold (out : String) : (ls.foldl (fun out l => out ++ l ++ "\n") out).toList =
      out.toList ++ ls.flatMap fun l => l.toList ++ ['\n'] := by
    induction ls generalizing out with
    | nil => exact (List.append_nil _).symm
    | cons l ls ih =>
      rw [List.foldl_cons, ih, String.toList_append, String.toList_append, List.flatMap_cons,
        List.append_assoc, List.append_assoc, List.append_assoc]
      rfl
  exact hfold ""

/-- **Lines without line feeds come back**, with nothing behind the last one. -/
theorem splitLines_lines {ls : List String} (h : ∀ l ∈ ls, '\n' ∉ l.toList) :
    splitLines (lines ls) = ls ++ [""] := by
  rw [splitLines, toList_lines]
  induction ls with
  | nil => rfl
  | cons l ls ih =>
    obtain ⟨hl, hls⟩ := List.forall_mem_cons.1 h
    rw [List.flatMap_cons, List.append_assoc, List.singleton_append,
      List.splitOn_append_cons_self_of_not_mem hl, List.map_cons, ih hls, String.ofList_toList]
    rfl

/-! ## Words -/

/-- The words of a text: all that stands between blanks. -/
def words (cs : List Char) : List (List Char) := (cs.splitOn ' ').filter (· ≠ [])

theorem words_append_blank (front behind : List Char) :
    words (front ++ ' ' :: behind) = words front ++ words behind := by
  rw [words, List.splitOn_append_cons_self, List.filter_append, words, words]

theorem words_of_notMem {word : List Char} (hne : word ≠ []) (h : ' ' ∉ word) :
    words word = [word] := by
  rw [words, List.splitOn_eq_singleton h]
  simp [hne]

theorem words_replicate_append (n : Nat) (cs : List Char) :
    words (List.replicate n ' ' ++ cs) = words cs := by
  induction n with
  | zero => rfl
  | succ n ih =>
    have hblank := words_append_blank [] (List.replicate n ' ' ++ cs)
    rw [List.replicate_succ, List.cons_append, ← ih]
    exact hblank

theorem words_append_replicate (cs : List Char) (n : Nat) :
    words (cs ++ List.replicate n ' ') = words cs := by
  cases n with
  | zero => rw [List.replicate_zero, List.append_nil]
  | succ n =>
    have hblanks := words_replicate_append n []
    rw [List.append_nil] at hblanks
    rw [List.replicate_succ, words_append_blank, hblanks]
    exact List.append_nil _

theorem words_padLeft (width : Nat) (s : String) :
    words (padLeft width s).toList = words s.toList := by
  rw [toList_padLeft, words_replicate_append]

theorem words_padRight (width : Nat) (s : String) :
    words (padRight width s).toList = words s.toList := by
  rw [toList_padRight, words_append_replicate]

/-! ## Numerals -/

theorem toList_toString (n : Nat) : (toString n).toList = Nat.toDigits 10 n := by
  rw [Nat.toString_eq_repr, Nat.toList_repr]

theorem isDigit_of_mem_toString {n : Nat} {c : Char} (h : c ∈ (toString n).toList) : c.isDigit := by
  rw [toList_toString] at h
  exact Nat.isDigit_of_mem_toDigits (by decide) (by decide) h

theorem toString_inj {m n : Nat} (h : (toString m).toList = (toString n).toList) : m = n := by
  rw [toList_toString, toList_toString] at h
  have hvalue := congrArg (Nat.ofDigitChars 10 · 0) h
  simpa only [Nat.ofDigitChars_ten_toDigits] using hvalue

/-- A numeral is one word. -/
theorem words_toString (n : Nat) : words (toString n).toList = [(toString n).toList] := by
  refine words_of_notMem ?_ fun h => absurd (isDigit_of_mem_toString h) (by decide)
  rw [toList_toString]
  exact Nat.toDigits_ne_nil

/-! ## Plain texts -/

/-- A letter, a digit, a blank, or one of the signs in numerals and mnemonics. -/
def isPlainChar (c : Char) : Bool := c.isAlphanum || [' ', '_', '.', '-'].contains c

/-- All characters of the text are plain. -/
def IsPlain (s : String) : Prop := s.toList.all isPlainChar

instance (s : String) : Decidable (IsPlain s) :=
  inferInstanceAs (Decidable (s.toList.all isPlainChar = true))

theorem isPlain_iff {s : String} : IsPlain s ↔ ∀ c ∈ s.toList, isPlainChar c := List.all_eq_true

namespace IsPlain

theorem notMem {s : String} (h : IsPlain s) {c : Char} (hc : ¬ isPlainChar c) : c ∉ s.toList :=
  fun hmem => hc (isPlain_iff.1 h c hmem)

theorem append {s t : String} (h : IsPlain s) (ht : IsPlain t) : IsPlain (s ++ t) := by
  rw [isPlain_iff, String.toList_append]
  exact List.forall_mem_append.2 ⟨isPlain_iff.1 h, isPlain_iff.1 ht⟩

theorem pushn {s : String} (h : IsPlain s) {c : Char} (hc : isPlainChar c) (n : Nat) :
    IsPlain (s.pushn c n) := by
  rw [isPlain_iff, toList_pushn]
  refine List.forall_mem_append.2 ⟨isPlain_iff.1 h, fun d hd => ?_⟩
  rw [List.eq_of_mem_replicate hd]
  exact hc

theorem padLeft {s : String} (h : IsPlain s) (width : Nat) : IsPlain (padLeft width s) := by
  have hempty : IsPlain "" := by decide
  exact (hempty.pushn (by decide) _).append h

theorem padRight {s : String} (h : IsPlain s) (width : Nat) : IsPlain (padRight width s) :=
  h.pushn (by decide) _

/-- So is any choice of characters from a plain text. -/
theorem ofList_subset {s : String} (h : IsPlain s) {cs : List Char} (hcs : cs ⊆ s.toList) :
    IsPlain (String.ofList cs) := by
  rw [isPlain_iff, String.toList_ofList]
  exact fun c hc => isPlain_iff.1 h c (hcs hc)

theorem toString_nat (n : Nat) : IsPlain (toString n) := by
  rw [isPlain_iff]
  intro c hc
  simp [isPlainChar, Char.isAlphanum, isDigit_of_mem_toString hc]

theorem toString_int (n : Int) : IsPlain (toString n) := by
  cases n with
  | ofNat n => exact toString_nat n
  | negSucc n =>
    have hsign : IsPlain "-" := by decide
    exact hsign.append (toString_nat (n + 1))

end IsPlain

end Stacklet.Text
