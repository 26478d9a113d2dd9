/-
  Shown numbers, read as source.

  A number is shown as source has it, but for three kinds of doubles: sources
  have no exponents, in which very small and very large doubles are shown, and
  no infinity. What a source has as a number is thus shown as a text of that
  one token exactly if it is an integer, a zero, or a double that is shown
  without an exponent (`Number.IsPositional`).

  * `spelling_positional`: digits around a point spell the double that they are
    read as;
  * `IsScannedAs.mem`: the characters of a text that is one number;
  * `isScannedAs_text_iff`: which numbers are shown as source has them.
-/
import Stacklet.Proofs.Decimals
import Stacklet.Proofs.Listings
import Stacklet.Proofs.ScanChecks

namespace Stacklet

/-! ## Texts of one token -/

/-- The text has this token and no other. -/
def IsScannedAs (text : String) (t : Token) : Prop :=
  ∃ tokens, tokensOf text = .ok tokens ∧ tokens.map PlacedToken.token = [t, .endOfInput]

/-- The number that a token is. -/
def Token.number? : Token → Option Number
  | integer n => some (.int n)
  | float x => some (.float x)
  | _ => none

theorem Spelling.isScannedAs {text : String} {t : Token} (h : Spelling text.toList t)
    (ht : t ≠ .closeParen) : IsScannedAs text t := by
  have hlexeme : IsLexeme 0 text.toList t [] :=
    ⟨h, by simp, fun _ => rfl, fun he => absurd he ht⟩
  have hgap : Gap 0 (text.toList ++ []) [] := .nil
  have hscans := Scans.token (p := .start) hgap hlexeme (.finish .nil)
  rw [List.nil_append, List.append_nil] at hscans
  exact ⟨_, tokensOf_iff_scans.2 hscans, rfl⟩

theorem Gap.isBlank_of_mem {depth : Nat} {behind gap : List Char} (h : Gap depth behind gap)
    (hcomment : '#' ∉ gap) : ∀ c ∈ gap, isBlank depth c := by
  induction h with
  | nil => exact List.forall_mem_nil _
  | blank hc _ ih =>
    exact List.forall_mem_cons.2
      ⟨isBlank_iff.2 hc, ih fun hmem => hcomment (List.mem_cons_of_mem _ hmem)⟩
  | comment => exact absurd List.mem_cons_self hcomment

theorem Spelling.isNumberChar_of_mem {lexeme : List Char} {t : Token} (h : Spelling lexeme t)
    (ht : t.number?.isSome) : ∀ c ∈ lexeme, isNumberChar c ∨ c = '.' := by
  have hall {cs : List Char} (hcs : ∀ d ∈ cs, isNumberChar d) :
      ∀ d ∈ cs, isNumberChar d ∨ d = '.' :=
    fun d hd => Or.inl (hcs d hd)
  cases h with
  | symbol hc =>
    unfold symbol? at hc
    split at hc
    all_goals cases hc <;> cases ht
  | ident => cases ht
  | integer hc hmore => exact hall (forall_isNumberChar hc hmore)
  | float hc hwhole hplaces =>
    rw [← List.cons_append]
    exact List.forall_mem_append.2 ⟨hall (forall_isNumberChar hc hwhole),
      List.forall_mem_cons.2 ⟨Or.inr rfl, hall hplaces⟩⟩
  | point hc hplaces =>
    exact List.forall_mem_cons.2 ⟨Or.inr rfl, hall (forall_isNumberChar hc hplaces)⟩

/-- A text that is one number, without a comment, has no letters. -/
theorem IsScannedAs.mem {text : String} {t : Token} (h : IsScannedAs text t)
    (ht : t.number?.isSome) (hcomment : '#' ∉ text.toList) :
    ∀ c ∈ text.toList, isBlank 0 c ∨ isNumberChar c ∨ c = '.' := by
  obtain ⟨tokens, htokens, hmap⟩ := h
  have hdepth : t.depthPast 0 = 0 := by cases t <;> first | rfl | cases ht
  have hscans := tokensOf_iff_scans.1 htokens
  generalize text.toList = cs at hscans hcomment ⊢
  cases hscans with
  | finish => cases hmap
  | token hgap hlexeme hrest =>
    obtain ⟨rfl, hmap⟩ := List.cons.inj hmap
    rw [hdepth] at hrest
    cases hrest with
    | finish hlast =>
      simp only [List.mem_append, not_or] at hcomment
      obtain ⟨hcomment, -, hcomment'⟩ := hcomment
      refine List.forall_mem_append.2 ⟨fun c hc => Or.inl (hgap.isBlank_of_mem hcomment c hc),
        List.forall_mem_append.2 ⟨fun c hc => Or.inr (hlexeme.spelling.isNumberChar_of_mem ht c hc),
          fun c hc => Or.inl (hlast.isBlank_of_mem hcomment' c hc)⟩⟩
    | token _ _ hmore =>
      -- behind a second token, there is still the end of the input
      cases hmore <;> cases hmap

/-! ## Digits around a point -/

theorem valueOf_replicate_append (k : Nat) (digits : List Char) :
    valueOf (List.replicate k '0' ++ digits) = valueOf digits := by
  show Nat.ofDigitChars 10 (List.replicate k '0' ++ digits) 0 = Nat.ofDigitChars 10 digits 0
  rw [Nat.ofDigitChars_append, Nat.ofDigitChars_replicate_zero, Nat.mul_zero]

theorem valueOf_append_replicate (digits : List Char) (k : Nat) :
    valueOf (digits ++ List.replicate k '0') = 10 ^ k * valueOf digits := by
  show Nat.ofDigitChars 10 (digits ++ List.replicate k '0') 0 = _
  rw [Nat.ofDigitChars_append, Nat.ofDigitChars_replicate_zero]
  rfl

/-- Digits around a point spell the decimal that they are. -/
theorem spelling_pointed {whole places : List Char} (hwhole : ∀ d ∈ whole, d.isDigit)
    (hplaces : ∀ d ∈ places, d.isDigit) (hne : whole ≠ []) :
    Spelling (whole ++ '.' :: places)
      (.float (Decimal.read ⟨valueOf (whole ++ places), -(places.length : Int)⟩)) := by
  have hfloat := floatOf_pointed (fun d hd => isNumberChar_of_isDigit (hwhole d hd)) places
  rw [digitsOf, digitsOf, List.filter_eq_self.2 hwhole, List.filter_eq_self.2 hplaces] at hfloat
  rw [Decimal.read, ← hfloat]
  obtain ⟨c, whole, rfl⟩ := List.exists_cons_of_ne_nil hne
  obtain ⟨hc, hwhole⟩ := List.forall_mem_cons.1 hwhole
  exact .float hc (fun d hd => isNumberChar_of_isDigit (hwhole d hd))
    fun d hd => isNumberChar_of_isDigit (hplaces d hd)

/-- Digits spell a decimal with a point in front of the last of them. -/
theorem spelling_split {digits : List Char} (hdigits : ∀ d ∈ digits, d.isDigit) {places : Nat}
    (hlt : places < digits.length) :
    Spelling (digits.take (digits.length - places) ++
        '.' :: digits.drop (digits.length - places))
      (.float (Decimal.read ⟨valueOf digits, -(places : Int)⟩)) := by
  have hwhole : digits.take (digits.length - places) ≠ [] :=
    List.ne_nil_of_length_pos (by rw [List.length_take]; omega)
  have hplaces : (digits.drop (digits.length - places)).length = places := by
    rw [List.length_drop]
    omega
  have hdrop : ∀ d ∈ digits.drop (digits.length - places), d.isDigit := fun d hd =>
    hdigits d (List.mem_of_mem_drop hd)
  have hspelling := spelling_pointed (fun d hd => hdigits d (List.mem_of_mem_take hd)) hdrop hwhole
  rwa [List.take_append_drop, hplaces] at hspelling

theorem isDigit_of_mem_replicate (k : Nat) : ∀ d ∈ List.replicate k '0', d.isDigit := by
  intro d hd
  rw [List.eq_of_mem_replicate hd]
  rfl

/-- **Digits around a point spell the double that they are read as.** -/
theorem spelling_positional (d : Decimal) : Spelling d.positional.toList (.float d.read) := by
  obtain ⟨n, exponent⟩ := d
  have hdigits : ∀ d ∈ Nat.toDigits 10 n, d.isDigit := fun d hd =>
    Nat.isDigit_of_mem_toDigits (by decide) le_rfl hd
  cases exponent with
  | ofNat e =>
    -- the zero behind the point makes the digits a tenth of what they are
    have hspelling := spelling_pointed
      (List.forall_mem_append.2 ⟨hdigits, isDigit_of_mem_replicate e⟩) (isDigit_of_mem_replicate 1)
      (List.append_ne_nil_of_left_ne_nil Nat.toDigits_ne_nil _)
    have hread : Decimal.read ⟨10 ^ 1 * (10 ^ e * n), -((1 : Nat) : Int)⟩ =
        Decimal.read ⟨n, .ofNat e⟩ := by
      refine Decimal.read_congr ?_
      simp [Decimal.value]
      ring
    rw [valueOf_append_replicate, valueOf_append_replicate, valueOf_toDigits,
      List.length_replicate, hread] at hspelling
    simp only [Decimal.positional, String.toList_append, Text.toList_toString, Text.toList_pushn]
    exact hspelling
  | negSucc e =>
    -- zeros are filled in until a digit is left in front of the point
    have hpadded : e + 1 < (List.replicate (e + 2 - (Nat.toDigits 10 n).length) '0' ++
        Nat.toDigits 10 n).length := by
      rw [List.length_append, List.length_replicate]
      omega
    have hspelling := spelling_split
      (List.forall_mem_append.2 ⟨isDigit_of_mem_replicate _, hdigits⟩) hpadded
    rw [valueOf_replicate_append, valueOf_toDigits] at hspelling
    simp only [Decimal.positional, String.toList_append, Text.toList_toString, Text.toList_pushn,
      String.toList_ofList, ← String.length_toList, List.append_assoc]
    exact hspelling

/-! ## Shown numbers -/

/-- An integer, a zero, or a double that is shown without an exponent. -/
def Number.IsPositional : Number → Prop
  | int _ => True
  | float x => x.isZero ∨ x.isFinite ∧ 1 / 10 ^ 4 ≤ x.size ∧ x.size < 10 ^ 16

/-- A plain text with a letter is no number. -/
theorem not_isScannedAs_of_isAlpha {text : String} {t : Token} (ht : t.number?.isSome)
    (hplain : Text.IsPlain text) {c : Char} (hc : c ∈ text.toList) (halpha : c.isAlpha) :
    ¬ IsScannedAs text t := by
  intro h
  rcases h.mem ht (hplain.notMem (by decide)) c hc with hblank | hnumber | rfl
  · rcases isBlank_iff.1 hblank with rfl | rfl | rfl | ⟨-, hdepth⟩
    · exact absurd halpha (by decide)
    · exact absurd halpha (by decide)
    · exact absurd halpha (by decide)
    · exact absurd hdepth (by decide)
  · rcases Bool.or_eq_true_iff.1 hnumber with hdigit | hmark
    · exact not_isAlpha_of_isDigit hdigit halpha
    · rw [beq_iff_eq.1 hmark] at halpha
      exact absurd halpha (by decide)
  · exact absurd halpha (by decide)

theorem Decimal.mem_scientific (d : Decimal) : 'e' ∈ d.scientific.toList := by
  have he : 'e' ∈ "e".toList := by decide
  rw [scientific]
  cases hdigits : (toString d.digits).toList with
  | nil =>
    rw [Text.toList_toString] at hdigits
    exact absurd hdigits Nat.toDigits_ne_nil
  | cons lead more =>
    simp only [String.toList_append, List.mem_append]
    exact Or.inl (Or.inr he)

theorem isScannedAs_integer {n : Int64} (h : 0 ≤ n.toInt) :
    IsScannedAs (toString n.toInt) (.integer n) := by
  obtain ⟨k, hk⟩ := Int.eq_ofNat_of_zero_le h
  have htext : (toString n.toInt).toList = Nat.toDigits 10 k := by
    rw [hk]
    exact Text.toList_toString k
  exact Spelling.isScannedAs (htext ▸ spelling_toDigits hk) (by simp)

theorem Binary64.eq_zero_of_isZero {x : Binary64} (h : x.isZero) (hsign : ¬ x.isNegative) :
    x = zero := by
  have hword : x.word % signBit = 0 := by simpa [isZero] using h
  rw [Nat.mod_eq_of_lt (word_lt_of_not_isNegative hsign)] at hword
  exact eq_of_word hword

theorem Binary64.isFinite_iff {x : Binary64} : x.isFinite ↔ ¬ x.isNaN ∧ ¬ x.isInfinite := by
  rw [isFinite, isNaN, isInfinite]
  by_cases hfraction : x.fraction = 0
  · simp [hfraction]
  · simp [hfraction]

theorem isScannedAs_zero : IsScannedAs "0.0" (.float .zero) := by
  have hspelling := spelling_pointed (isDigit_of_mem_replicate 1) (isDigit_of_mem_replicate 1)
    (List.cons_ne_nil _ _)
  have hread : Decimal.read ⟨valueOf (List.replicate 1 '0' ++ List.replicate 1 '0'),
      -((List.replicate 1 '0').length : Int)⟩ = .zero := by decide +kernel
  have htext : "0.0".toList = List.replicate 1 '0' ++ '.' :: List.replicate 1 '0' := by decide
  rw [hread, ← htext] at hspelling
  exact hspelling.isScannedAs (by simp)

/-- How a double is shown that has no sign. -/
theorem Binary64.text_of_not_isNegative {x : Binary64} (hnan : ¬ x.isNaN)
    (hsign : ¬ x.isNegative) :
    x.text = if x.isInfinite then "inf" else if x.isZero then "0.0" else x.shortest.text := by
  simp only [text, if_neg hnan, if_neg hsign, String.empty_append]

/-- Which doubles of a source are shown as it has them: infinity is shown as a
    name, and others only without an exponent as one number. -/
theorem isScannedAs_float_iff {x : Binary64} (hnan : ¬ x.isNaN) (hsign : ¬ x.isNegative) :
    IsScannedAs x.text (.float x) ↔ (Number.float x).IsPositional := by
  have htext := Binary64.text_of_not_isNegative hnan hsign
  by_cases hinfinite : x.isInfinite
  · rw [if_pos hinfinite] at htext
    have hletter : 'i' ∈ x.text.toList := by
      rw [htext]
      decide
    refine iff_of_false (not_isScannedAs_of_isAlpha rfl x.isPlain_text hletter (by decide)) ?_
    rintro (hzero | ⟨hfinite, -⟩)
    · rw [Binary64.eq_zero_of_isZero hzero hsign] at hinfinite
      exact absurd hinfinite (by decide)
    · exact (Binary64.isFinite_iff.1 hfinite).2 hinfinite
  rw [if_neg hinfinite] at htext
  by_cases hzero : x.isZero
  · rw [htext, if_pos hzero]
    refine iff_of_true ?_ (Or.inl hzero)
    rw [Binary64.eq_zero_of_isZero hzero hsign]
    exact isScannedAs_zero
  -- the text is that of the shortest decimal, which is read as the double
  have hfinite := Binary64.isFinite_iff.2 ⟨hnan, hinfinite⟩
  have hbounds := Binary64.leadingPower_shortest_bounds hfinite hsign hzero
  rw [htext, if_neg hzero, Decimal.text]
  split_ifs with hlead
  · refine iff_of_true ?_ (Or.inr ⟨hfinite, hbounds.1 hlead⟩)
    have hspelling := spelling_positional x.shortest
    rw [Binary64.read_shortest hfinite hsign] at hspelling
    exact hspelling.isScannedAs (by simp)
  · refine iff_of_false (not_isScannedAs_of_isAlpha rfl x.shortest.isPlain_scientific
      x.shortest.mem_scientific (by decide)) ?_
    rintro (hz | ⟨-, hsize⟩)
    · exact hzero hz
    · exact hlead (hbounds.2 hsize)

/-- **Shown numbers.** A number of a source is shown as a text of its own token
    exactly if it is an integer, a zero, or a double from `10^-4` up to below
    `10^16`. -/
theorem isScannedAs_text_iff {source : String} {tokens : List PlacedToken}
    (h : tokensOf source = .ok tokens) {placed : PlacedToken} (hplaced : placed ∈ tokens)
    {n : Number} (hn : placed.token.number? = some n) :
    IsScannedAs (Constant.ofNumber n).text placed.token ↔ n.IsPositional := by
  obtain ⟨t, p⟩ := placed
  have hspelled := (tokensOf_iff_scans.1 h).isSpelled _ hplaced
  cases t with
  | integer =>
    cases hn
    obtain ⟨lexeme, hspelling⟩ := hspelled (by simp)
    exact iff_of_true (isScannedAs_integer hspelling.spec) trivial
  | float =>
    cases hn
    obtain ⟨lexeme, hspelling⟩ := hspelled (by simp)
    exact isScannedAs_float_iff hspelling.spec.1 hspelling.spec.2
  | _ => cases hn

/-- A half is shown as source has it. -/
theorem isScannedAs_text_half :
    tokensOf "0.5" = .ok [⟨.float ⟨0x3fe0000000000000⟩, .start⟩, ⟨.endOfInput, ⟨1, 4⟩⟩] ∧
      IsScannedAs (Constant.ofNumber (.float ⟨0x3fe0000000000000⟩)).text
        (.float ⟨0x3fe0000000000000⟩) := by
  have htokens : tokensOf "0.5" =
      .ok [⟨.float ⟨0x3fe0000000000000⟩, .start⟩, ⟨.endOfInput, ⟨1, 4⟩⟩] := by decide +kernel
  have hshortest : (⟨0x3fe0000000000000⟩ : Binary64).shortest = ⟨5, -1⟩ := by decide +kernel
  have hlead : -4 ≤ Decimal.leadingPower ⟨5, -1⟩ ∧ Decimal.leadingPower ⟨5, -1⟩ < 16 := by
    rw [Decimal.leadingPower_eq]
    decide
  rw [← hshortest] at hlead
  have hbounds := (Binary64.leadingPower_shortest_bounds rfl (by decide) (by decide)).1 hlead
  exact ⟨htokens, (isScannedAs_text_iff htokens List.mem_cons_self rfl).2 (Or.inr ⟨rfl, hbounds⟩)⟩

/-- Ten quadrillions are shown with an exponent, which source does not have. -/
theorem not_isScannedAs_ten_quadrillions :
    tokensOf "10000000000000000.0" =
        .ok [⟨.float ⟨0x4341c37937e08000⟩, .start⟩, ⟨.endOfInput, ⟨1, 20⟩⟩] ∧
      (Constant.ofNumber (.float ⟨0x4341c37937e08000⟩)).text = "1e16" ∧
      tokensOf "1e16" =
        .ok [⟨.integer 1, .start⟩, ⟨.ident "e16", ⟨1, 2⟩⟩, ⟨.endOfInput, ⟨1, 5⟩⟩] ∧
      ¬ IsScannedAs (Constant.ofNumber (.float ⟨0x4341c37937e08000⟩)).text
        (.float ⟨0x4341c37937e08000⟩) := by
  have htext : (Constant.ofNumber (.float ⟨0x4341c37937e08000⟩)).text = "1e16" := by
    decide +kernel
  have hshown : tokensOf "1e16" =
      .ok [⟨.integer 1, .start⟩, ⟨.ident "e16", ⟨1, 2⟩⟩, ⟨.endOfInput, ⟨1, 5⟩⟩] := by
    decide +kernel
  refine ⟨by decide +kernel, htext, hshown, ?_⟩
  rw [htext]
  rintro ⟨tokens, htokens, hmap⟩
  rw [hshown] at htokens
  cases htokens
  cases hmap

end Stacklet
