/-
  Numbers, and what a scanner does not have to check.

  The digits of a number may be collected one by one and handed to a parser
  for doubles, and a reader of operators may look whether a character is left.
  A scanner that does so has two more ways to give up (`GivesUp`), and takes
  neither of them.

  * `Spelling.integer_value`, `Spelling.denotesFloat`: the values of numbers;
  * `collect_digit`, `collect_point`: what is collected of a number;
  * `checkedFront_eq` and `checkedScan_eq`: no check fails, in one look at a text
    and in a whole scan.
-/
import Mathlib.Data.Nat.Digits.Defs
import Stacklet.Proofs.Lexemes

namespace Stacklet

/-! ## Values of numbers -/

/-- The characters of a number without the marks that group digits. -/
def withoutMarks (lexeme : List Char) : List Char := lexeme.filter (· ≠ '_')

/-- The number that digits denote in decimal. -/
def decimalValue (digits : List Char) : Nat :=
  Nat.ofDigits 10 (digits.reverse.map fun c => c.toNat - '0'.toNat)

/-- Digits around one point, at least one of them, with the double that they
    denote. -/
inductive DenotesFloat : List Char → Binary64 → Prop
  | intro {whole places} (hwhole : ∀ d ∈ whole, d.isDigit) (hplaces : ∀ d ∈ places, d.isDigit)
      (hsome : whole ++ places ≠ []) :
      DenotesFloat (whole ++ '.' :: places)
        (.ofDecimal (decimalValue (whole ++ places)) (-(places.length : Int)))

theorem valueOf_eq_decimalValue (digits : List Char) : valueOf digits = decimalValue digits := by
  rw [valueOf, decimalValue, Nat.ofDigits_eq_foldr, List.foldr_map, List.foldr_reverse]
  simp [Nat.add_comm]

theorem withoutMarks_eq_digitsOf {cs : List Char} (h : ∀ d ∈ cs, isNumberChar d) :
    withoutMarks cs = digitsOf cs := by
  refine List.filter_congr fun d hd => ?_
  have hmark : ¬ '_'.isDigit := by decide
  rcases Bool.or_eq_true_iff.1 (h d hd) with hdigit | hd
  · have hne : d ≠ '_' := by
      rintro rfl
      exact hmark hdigit
    simp [hdigit, hne]
  · simp [beq_iff_eq.1 hd, hmark]

theorem withoutMarks_pointed (whole places : List Char) :
    withoutMarks (whole ++ '.' :: places) = withoutMarks whole ++ '.' :: withoutMarks places := by
  simp [withoutMarks]

theorem forall_isNumberChar {c : Char} {more : List Char} (hc : c.isDigit)
    (hmore : ∀ d ∈ more, isNumberChar d) : ∀ d ∈ c :: more, isNumberChar d :=
  List.forall_mem_cons.2 ⟨isNumberChar_of_isDigit hc, hmore⟩

theorem isDigit_of_mem_digitsOf {cs : List Char} : ∀ d ∈ digitsOf cs, d.isDigit :=
  fun _ hd => (List.mem_filter.1 hd).2

/-- The digits around a point, and how many stand behind it. -/
theorem floatOf_pointed {whole : List Char} (hwhole : ∀ d ∈ whole, isNumberChar d)
    (places : List Char) :
    floatOf (whole ++ '.' :: places) = .ofDecimal (valueOf (digitsOf whole ++ digitsOf places))
      (-((digitsOf places).length : Int)) := by
  have hpoint : ¬ '.'.isDigit := by decide
  have hdigits : digitsOf (whole ++ '.' :: places) = digitsOf whole ++ digitsOf places := by
    simp [digitsOf, hpoint]
  have hbehind : digitsOf ((whole ++ '.' :: places).dropWhile (· != '.')) = digitsOf places := by
    rw [List.dropWhile_append_of_pos fun d hd => by
      simpa using fun he : d = '.' => not_isNumberChar_point (he ▸ hwhole d hd)]
    simp [digitsOf, hpoint]
  rw [floatOf, placesOf, hdigits, hbehind]

/-- A text of number characters around a point, with a digit among them. -/
theorem denotesFloat_floatOf {whole places : List Char} (hwhole : ∀ d ∈ whole, isNumberChar d)
    (hplaces : ∀ d ∈ places, isNumberChar d) (hsome : ∃ d ∈ whole ++ places, d.isDigit) :
    DenotesFloat (withoutMarks (whole ++ '.' :: places)) (floatOf (whole ++ '.' :: places)) := by
  have hmarks :
      withoutMarks (whole ++ '.' :: places) = digitsOf whole ++ '.' :: digitsOf places := by
    rw [withoutMarks_pointed, withoutMarks_eq_digitsOf hwhole, withoutMarks_eq_digitsOf hplaces]
  rw [hmarks, floatOf_pointed hwhole, valueOf_eq_decimalValue]
  refine .intro isDigit_of_mem_digitsOf isDigit_of_mem_digitsOf ?_
  obtain ⟨d, hd, hdigit⟩ := hsome
  rw [digitsOf, digitsOf, ← List.filter_append]
  exact List.ne_nil_of_mem (List.mem_filter.2 ⟨hd, hdigit⟩)

theorem not_number_of_symbol {c : Char} {t : Token} (h : symbol? c = some t) :
    (∀ n, t ≠ .integer n) ∧ ∀ x, t ≠ .float x := by
  unfold symbol? at h
  split at h
  all_goals cases h <;> simp

theorem Spelling.integer_value {lexeme : List Char} {n : Int64}
    (h : Spelling lexeme (.integer n)) : n.toInt = decimalValue (withoutMarks lexeme) := by
  cases h with
  | symbol h => exact absurd rfl ((not_number_of_symbol h).1 n)
  | integer hc hmore hn =>
    rw [withoutMarks_eq_digitsOf (forall_isNumberChar hc hmore),
      ← valueOf_eq_decimalValue]
    exact hn

/-- **What is read as a double is one**: digits around one point. -/
theorem Spelling.denotesFloat {lexeme : List Char} {x : Binary64}
    (h : Spelling lexeme (.float x)) : DenotesFloat (withoutMarks lexeme) x := by
  cases h with
  | symbol h => exact absurd rfl ((not_number_of_symbol h).2 x)
  | @float c whole places hc hwhole hplaces =>
    rw [← List.cons_append]
    exact denotesFloat_floatOf (forall_isNumberChar hc hwhole) hplaces
      ⟨c, List.mem_cons_self, hc⟩
  | @point c places hc hplaces =>
    exact denotesFloat_floatOf (List.forall_mem_nil _) (forall_isNumberChar hc hplaces)
      ⟨c, List.mem_cons_self, hc⟩

/-! ## Collected digits -/

/-- The digits of the number at the front of a text, with its point unless there
    is one already, and the characters that it consists of. -/
def collect (dotted : Bool) : List Char → List Char × List Char
  | [] => ([], [])
  | c :: rest =>
    if isNumberChar c then
      let (digits, lexeme) := collect dotted rest
      (if c == '_' then digits else c :: digits, c :: lexeme)
    else if c == '.' && !dotted then
      let (digits, lexeme) := collect true rest
      (c :: digits, c :: lexeme)
    else ([], [])

theorem collect_append {more : List Char} (h : ∀ d ∈ more, isNumberChar d) (dotted : Bool)
    (behind : List Char) :
    collect dotted (more ++ behind) =
      (withoutMarks more ++ (collect dotted behind).1, more ++ (collect dotted behind).2) := by
  induction more with
  | nil => rfl
  | cons c more ih =>
    obtain ⟨hc, hmore⟩ := List.forall_mem_cons.1 h
    rw [List.cons_append, collect, if_pos hc, ih hmore]
    by_cases hmark : c = '_'
    · simp [withoutMarks, hmark]
    · simp [withoutMarks, hmark]

theorem collect_dotted (rest : List Char) :
    collect false ('.' :: rest) = ('.' :: (collect true rest).1, '.' :: (collect true rest).2) :=
  rfl

/-- Nothing is collected from what belongs to no number. -/
theorem collect_stop {dotted : Bool} {behind : List Char}
    (hbehind : ∀ c ∈ behind.head?, ¬ isNumberChar c)
    (hpoint : dotted ∨ behind.head? ≠ some '.') : collect dotted behind = ([], []) := by
  cases behind with
  | nil => rfl
  | cons c behind =>
    have hc : ¬ (c == '.' && !dotted) := by
      rw [Bool.and_eq_true, beq_iff_eq, Bool.not_eq_true']
      rintro ⟨rfl, rfl⟩
      rcases hpoint with hdotted | hne
      · cases hdotted
      · exact hne rfl
    rw [collect, if_neg (hbehind c rfl), if_neg hc]

/-- Of the characters around a point, all but the marks are collected. -/
theorem collect_pointed {whole places behind : List Char} (hwhole : ∀ d ∈ whole, isNumberChar d)
    (hplaces : ∀ d ∈ places, isNumberChar d) (hbehind : ∀ c ∈ behind.head?, ¬ isNumberChar c) :
    collect false (whole ++ '.' :: places ++ behind) =
      (withoutMarks (whole ++ '.' :: places), whole ++ '.' :: places) := by
  rw [List.append_assoc, List.cons_append, collect_append hwhole, collect_dotted,
    collect_append hplaces, collect_stop hbehind (Or.inl rfl), withoutMarks_pointed,
    List.append_nil, List.append_nil]

theorem collect_digit {c : Char} (hc : c.isDigit) (rest : List Char) :
    collect false (c :: rest) = (withoutMarks (c :: numberMore rest), c :: numberMore rest) := by
  obtain ⟨behind, hrest, htail⟩ := numberMore_eq_iff.1 (Eq.refl (numberMore rest))
  generalize numberMore rest = more at hrest htail ⊢
  subst hrest
  cases htail with
  | whole hmore hbehind hpoint =>
    rw [← List.cons_append, collect_append (forall_isNumberChar hc hmore),
      collect_stop hbehind (Or.inr hpoint), List.append_nil, List.append_nil]
  | point hwhole hplaces hbehind =>
    exact collect_pointed (forall_isNumberChar hc hwhole) hplaces hbehind

theorem collect_point (rest : List Char) :
    collect false ('.' :: rest) =
      (withoutMarks ('.' :: rest.takeWhile isNumberChar), '.' :: rest.takeWhile isNumberChar) := by
  obtain ⟨behind, hrest, hplaces, hbehind⟩ :=
    takeWhile_eq_iff.1 (Eq.refl (rest.takeWhile isNumberChar))
  generalize rest.takeWhile isNumberChar = places at hrest hplaces ⊢
  rw [hrest]
  exact collect_pointed (List.forall_mem_nil _) hplaces hbehind

/-! ## Checks -/

/-- Why a scanner gives up where nothing is wrong with the text. -/
inductive GivesUp where
  /-- the parser takes the digits for no double -/
  | invalidFloat (digits : String)
  /-- no character is left -/
  | endOfInput
  deriving DecidableEq, Repr

/-- The integer that digits denote. No digits denote none. -/
def integer? (digits : List Char) : Option Int64 :=
  if digits.isEmpty then none else int64? (decimalValue digits)

section
variable (double? : List Char → Option Binary64)

/-- The number at the front of a text, from its digits. -/
def checkedNumber (text : List Char) : Except GivesUp Front :=
  let (digits, lexeme) := collect false text
  if '.' ∈ digits then
    match double? digits with
    | some x => .ok (.lexeme (.float x) lexeme.tail)
    | none => .error (.invalidFloat (String.ofList digits))
  else
    match integer? digits with
    | some n => .ok (.lexeme (.integer n) lexeme.tail)
    | none => .ok (.fault (.invalidInteger (String.ofList digits)) lexeme)

/-- The operator at the front of a text, if there is a character. -/
def checkedSymbol (depth : Nat) : (text : List Char) → Except GivesUp Front
  | [] => .error .endOfInput
  | c :: _ => .ok (symbolFront depth c)

/-- What stands at the front of `c :: rest`, from all checks. -/
def checkedFront (depth : Nat) (c : Char) (rest : List Char) : Except GivesUp Front :=
  if isBlank depth c then .ok (.gap [])
  else if c == '#' then .ok (.gap (rest.takeWhile (· != '\n')))
  else if c.isDigit || c == '.' && rest.head?.any Char.isDigit then
    checkedNumber double? (c :: rest)
  else if isIdentStart c then
    let more := rest.takeWhile isIdentChar
    .ok (.lexeme (.ident (String.ofList (c :: more))) more)
  else checkedSymbol depth (c :: rest)

/-- Scans up to the end or the first fault, with all checks. -/
def checkedScan (found : Array PlacedToken) :
    (ahead : List Char) → Position → (depth : Nat) →
      Except GivesUp (Except ScanError (List PlacedToken))
  | [], p, _ => .ok (.ok (found.push ⟨.endOfInput, p⟩).toList)
  | c :: rest, p, depth =>
    match checkedFront double? depth c rest with
    | .error reason => .error reason
    | .ok (.gap more) => checkedScan found (rest.drop more.length) (p.pastAll (c :: more)) depth
    | .ok (.lexeme token more) =>
      checkedScan (found.push ⟨token, p⟩) (rest.drop more.length) (p.pastAll (c :: more))
        (token.depthPast depth)
    | .ok (.fault cause _) => .ok (.error ⟨cause, p⟩)
termination_by ahead => ahead.length

/-- The tokens of a text, with all checks. -/
def checkedTokensOf (source : String) : Except GivesUp (Except ScanError (List PlacedToken)) :=
  checkedScan double? #[] source.toList .start 0

end

section
variable {double? : List Char → Option Binary64}
  (hdouble : ∀ digits x, DenotesFloat digits x → double? digits = some x)
include hdouble

/-- Digits around a point, which are read as the double that they denote. -/
theorem checkedNumber_of_point {text whole places : List Char}
    (htext : collect false text = (withoutMarks (whole ++ '.' :: places), whole ++ '.' :: places))
    (hwhole : ∀ d ∈ whole, isNumberChar d) (hplaces : ∀ d ∈ places, isNumberChar d)
    (hsome : ∃ d ∈ whole ++ places, d.isDigit) :
    checkedNumber double? text = .ok (.lexeme (.float (floatOf (whole ++ '.' :: places)))
      (whole ++ '.' :: places).tail) := by
  have hpoint : '.' ∈ withoutMarks (whole ++ '.' :: places) := by simp [withoutMarks]
  simp only [checkedNumber, htext, if_pos hpoint,
    hdouble _ _ (denotesFloat_floatOf hwhole hplaces hsome)]

theorem checkedNumber_digit {c : Char} (hc : c.isDigit) (rest : List Char) :
    checkedNumber double? (c :: rest) = .ok (numberFront c rest) := by
  have hcollect := collect_digit hc rest
  obtain ⟨behind, hrest, htail⟩ := numberMore_eq_iff.1 (Eq.refl (numberMore rest))
  unfold numberFront
  generalize numberMore rest = more at hcollect htail ⊢
  cases htail with
  | whole hmore hbehind hpoint =>
    have hnumber := forall_isNumberChar hc hmore
    rw [withoutMarks_eq_digitsOf hnumber] at hcollect
    have hnone : '.' ∉ digitsOf (c :: more) := fun h =>
      absurd (isDigit_of_mem_digitsOf _ h) (by decide)
    have hdigits : ¬ (digitsOf (c :: more)).isEmpty := by simp [digitsOf, hc]
    simp only [checkedNumber, hcollect, if_neg hnone, if_neg (point_notMem hnumber), integer?,
      if_neg hdigits, valueOf_eq_decimalValue]
    cases int64? (decimalValue (digitsOf (c :: more))) <;> rfl
  | @point whole places hwhole hplaces hbehind =>
    rw [← List.cons_append] at hcollect ⊢
    rw [checkedNumber_of_point hdouble hcollect (forall_isNumberChar hc hwhole) hplaces
      ⟨c, List.mem_cons_self, hc⟩]
    simp

theorem checkedNumber_point {d : Char} (hd : d.isDigit) (rest : List Char) :
    checkedNumber double? ('.' :: d :: rest) =
      .ok (.lexeme (.float (floatOf ('.' :: (d :: rest).takeWhile isNumberChar)))
        ((d :: rest).takeWhile isNumberChar)) := by
  have hmem : d ∈ (d :: rest).takeWhile isNumberChar := by
    rw [List.takeWhile_cons_of_pos (isNumberChar_of_isDigit hd)]
    exact List.mem_cons_self
  exact checkedNumber_of_point hdouble (collect_point (d :: rest)) (List.forall_mem_nil _)
    (fun _ => List.mem_takeWhile_imp) ⟨d, hmem, hd⟩

/-- **No check fails**, where the parser reads digits around one point. -/
theorem checkedFront_eq (depth : Nat) (c : Char) (rest : List Char) :
    checkedFront double? depth c rest = .ok (front depth c rest) := by
  unfold checkedFront front
  -- numbers are read in one place here, and in two by `front`
  by_cases hdigit : c.isDigit
  · rw [checkedNumber_digit hdouble hdigit, hdigit, Bool.true_or, if_pos rfl, if_pos rfl]
    split_ifs <;> rfl
  by_cases hpoint : c == '.' && rest.head?.any Char.isDigit
  · rw [hpoint, Bool.or_true, if_pos rfl, if_neg hdigit, if_pos rfl]
    obtain ⟨hc, hrest⟩ := Bool.and_eq_true_iff.1 hpoint
    obtain ⟨d, hd, hd'⟩ := (Option.any_eq_true ..).1 hrest
    obtain ⟨rest, rfl⟩ := List.head?_eq_some_iff.1 hd
    rw [beq_iff_eq.1 hc, checkedNumber_point hdouble hd']
    split_ifs <;> rfl
  · have hnumber : ¬ (c.isDigit || c == '.' && rest.head?.any Char.isDigit) := by
      rw [Bool.or_eq_true]
      exact not_or_intro hdigit hpoint
    rw [if_neg hnumber, if_neg hdigit, if_neg hpoint]
    split_ifs <;> rfl

/-- Nor does one in a whole text. -/
theorem checkedScan_eq (found : Array PlacedToken) (ahead : List Char) (p : Position)
    (depth : Nat) :
    checkedScan double? found ahead p depth = .ok (Scanner.scan found ahead p depth).1 := by
  fun_induction Scanner.scan found ahead p depth with
  | case1 found p depth => rw [checkedScan]
  | case2 found c rest p depth more hfront ih
  | case3 found c rest p depth t more hfront ih =>
    rw [checkedScan, checkedFront_eq hdouble, hfront]
    exact ih
  | case4 found c rest p depth cause passed hfront =>
    rw [checkedScan, checkedFront_eq hdouble, hfront]

end

end Stacklet
