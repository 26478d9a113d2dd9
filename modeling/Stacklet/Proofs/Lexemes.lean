/-
  Lexemes and the gaps between them.

  What a text is made of, told apart from how it is scanned: a `Spelling` says
  which characters stand for a token, `Token.goesOn` which character would
  belong to a token too, and a `Gap` is what may stand in front of a lexeme.

  * `IsLexeme`: the characters at the front of a text that are a token there;
  * `front_eq_lexeme_iff`, `front_eq_gap_iff`: one look at a text finds the
    lexeme or the gap that stands at its front, and no other.
-/
import Mathlib.Data.List.TakeWhile
import Stacklet.Scanner

namespace Stacklet

/-! ## Lexemes -/

/-- The token that a single character is. -/
def symbol? : Char → Option Token
  | '+' => some .plus
  | '-' => some .minus
  | '*' => some .star
  | '/' => some .slash
  | '%' => some .percent
  | '=' => some .assign
  | '(' => some .openParen
  | ')' => some .closeParen
  | ',' => some .comma
  | ';' => some .semicolon
  | '\n' => some .newline
  | _ => none

/-- Which characters stand for which token: an operator, an identifier, a number
    without a point, or one with a point behind or in front of its first digit. -/
inductive Spelling : List Char → Token → Prop
  | symbol {c t} : symbol? c = some t → Spelling [c] t
  | ident {c more} : isIdentStart c → (∀ d ∈ more, isIdentChar d) →
      Spelling (c :: more) (.ident (String.ofList (c :: more)))
  | integer {c more} {n : Int64} : c.isDigit → (∀ d ∈ more, isNumberChar d) →
      n.toInt = valueOf (digitsOf (c :: more)) → Spelling (c :: more) (.integer n)
  | float {c whole places} : c.isDigit → (∀ d ∈ whole, isNumberChar d) →
      (∀ d ∈ places, isNumberChar d) →
      Spelling (c :: (whole ++ '.' :: places)) (.float (floatOf (c :: (whole ++ '.' :: places))))
  | point {c places} : c.isDigit → (∀ d ∈ places, isNumberChar d) →
      Spelling ('.' :: c :: places) (.float (floatOf ('.' :: c :: places)))

/-- The character would belong to the token if it followed. -/
def Token.goesOn (t : Token) (c : Char) : Bool :=
  match t with
  | ident _ => isIdentChar c
  | integer _ => isNumberChar c || c == '.'
  | float _ => isNumberChar c
  | _ => false

/-- Inside `depth` parentheses and in front of `behind`, the characters are the
    token, and as many as can be. -/
structure IsLexeme (depth : Nat) (lexeme : List Char) (t : Token) (behind : List Char) : Prop where
  spelling : Spelling lexeme t
  maximal : ∀ c ∈ behind.head?, ¬ t.goesOn c
  newline : t = .newline → depth = 0
  closeParen : t = .closeParen → 0 < depth

/-! ## Gaps -/

/-- Inside `depth` parentheses and in front of `behind`, the characters are
    blanks, line ends inside parentheses, and comments up to the end of their
    line. -/
inductive Gap (depth : Nat) (behind : List Char) : List Char → Prop
  | nil : Gap depth behind []
  | blank {c gap} : c = ' ' ∨ c = '\t' ∨ c = '\r' ∨ c = '\n' ∧ 0 < depth →
      Gap depth behind gap → Gap depth behind (c :: gap)
  | comment {text gap} : '\n' ∉ text → (∀ c ∈ (gap ++ behind).head?, c = '\n') →
      Gap depth behind gap → Gap depth behind ('#' :: (text ++ gap))

/-! ## Kinds of characters -/

theorem isBlank_iff {depth : Nat} {c : Char} :
    isBlank depth c ↔ c = ' ' ∨ c = '\t' ∨ c = '\r' ∨ c = '\n' ∧ 0 < depth := by
  simp [isBlank, or_assoc]

theorem isIdentChar_of_isIdentStart {c : Char} (h : isIdentStart c) : isIdentChar c := by
  simp only [isIdentStart, isIdentChar, Bool.or_eq_true] at h ⊢
  exact h.imp_left Or.inl

theorem isIdentChar_of_isNumberChar {c : Char} (h : isNumberChar c) : isIdentChar c := by
  simp only [isNumberChar, isIdentChar, Bool.or_eq_true] at h ⊢
  exact h.imp_left fun hd => Or.inr (Text.isNumeral_of_isDigit hd)

theorem isNumberChar_of_isDigit {c : Char} (h : c.isDigit) : isNumberChar c := by
  simp [isNumberChar, h]

theorem not_isNumberChar_point : ¬ isNumberChar '.' := by decide

theorem not_isAlpha_of_isDigit {c : Char} (h : c.isDigit) : ¬ c.isAlpha := by
  have hdigit : c.toNat ≤ 57 := (Char.isDigit_iff_toNat.1 h).2
  intro halpha
  rcases Bool.or_eq_true_iff.1 halpha with hupper | hlower
  · have : 65 ≤ c.toNat := (of_decide_eq_true hupper).1
    omega
  · have : 97 ≤ c.toNat := of_decide_eq_true (Bool.and_eq_true_iff.1 hlower).1
    omega

theorem not_isIdentStart_of_isDigit {c : Char} (h : c.isDigit) : ¬ isIdentStart c := by
  have hdigit : c.toNat ≤ 57 := (Char.isDigit_iff_toNat.1 h).2
  intro hstart
  simp only [isIdentStart, Text.isLetter, Bool.or_eq_true, Bool.and_eq_true, decide_eq_true_eq,
    beq_iff_eq] at hstart
  rcases hstart with (halpha | ⟨hfar, -⟩) | rfl
  · exact not_isAlpha_of_isDigit h halpha
  · omega
  · exact absurd h (by decide)

/-- Neither gaps nor single-character tokens begin with a character of an
    identifier, or with a point. -/
theorem not_isBlank_of_isIdentChar {c : Char} (h : isIdentChar c ∨ c = '.') (depth : Nat) :
    ¬ isBlank depth c ∧ c ≠ '#' ∧ symbol? c = none := by
  refine ⟨?_, ?_, ?_⟩
  · rw [isBlank_iff]
    rintro (rfl | rfl | rfl | ⟨rfl, -⟩)
    all_goals exact absurd h (by decide)
  · rintro rfl
    exact absurd h (by decide)
  · unfold symbol?
    split
    case h_12 => rfl
    all_goals exact absurd h (by decide)

/-- Characters that are tokens belong to no longer token, and to no gap where
    they are tokens. -/
theorem not_isBlank_of_symbol {c : Char} {t : Token} (h : symbol? c = some t) (depth : Nat)
    (hnewline : t = .newline → depth = 0) :
    ¬ isBlank depth c ∧ c ≠ '#' ∧ ¬ isIdentChar c ∧ c ≠ '.' := by
  have hsymbol : ¬ (isIdentChar c ∨ c = '.') := fun hc => by
    rw [(not_isBlank_of_isIdentChar hc depth).2.2] at h
    cases h
  refine ⟨?_, ?_, fun hc => hsymbol (Or.inl hc), fun hc => hsymbol (Or.inr hc)⟩
  · rw [isBlank_iff]
    rintro (rfl | rfl | rfl | ⟨rfl, hdepth⟩)
    · cases h
    · cases h
    · cases h
    · cases h
      exact absurd (hnewline rfl) hdepth.ne'
  · rintro rfl
    cases h

theorem not_goesOn_of_symbol {c d : Char} {t : Token} (h : symbol? c = some t) :
    t.goesOn d = false := by
  unfold symbol? at h
  split at h
  all_goals cases h <;> rfl

theorem eq_newline_of_symbol {c : Char} (h : symbol? c = some .newline) : c = '\n' := by
  unfold symbol? at h
  split at h
  all_goals cases h <;> rfl

/-- What goes on a word is no blank, and starts no comment. -/
theorem isIdentChar_of_goesOn {t : Token} {c : Char} (h : t.goesOn c) :
    isIdentChar c ∨ c = '.' := by
  cases t with
  | ident => exact Or.inl h
  | integer =>
    simp only [Token.goesOn, Bool.or_eq_true, beq_iff_eq] at h
    exact h.imp_left isIdentChar_of_isNumberChar
  | float => exact Or.inl (isIdentChar_of_isNumberChar h)
  | _ => cases h

theorem symbolFront_eq_lexeme_iff {depth : Nat} {c : Char} {t : Token} {more : List Char} :
    symbolFront depth c = .lexeme t more ↔
      more = [] ∧ symbol? c = some t ∧ (t = .closeParen → 0 < depth) := by
  unfold symbolFront symbol?
  split
  case h_11 =>
    by_cases hdepth : depth = 0
    · simp only [hdepth, if_true, reduceCtorEq, false_iff, not_and, Option.some.injEq]
      rintro - rfl hlt
      exact absurd (hlt rfl) (lt_irrefl 0)
    · simp only [hdepth, if_false, Front.lexeme.injEq, Option.some.injEq]
      constructor
      · rintro ⟨rfl, rfl⟩
        exact ⟨rfl, rfl, fun _ => Nat.pos_of_ne_zero hdepth⟩
      · rintro ⟨rfl, rfl, -⟩
        exact ⟨rfl, rfl⟩
  case h_12 => simp
  all_goals
    simp only [Front.lexeme.injEq, Option.some.injEq]
    constructor
    · rintro ⟨rfl, rfl⟩
      exact ⟨rfl, rfl, nofun⟩
    · rintro ⟨rfl, rfl, -⟩
      exact ⟨rfl, rfl⟩

/-! ## Gaps in a row -/

theorem Gap.append {depth : Nat} {behind gap more : List Char} (h : Gap depth (more ++ behind) gap)
    (hmore : Gap depth behind more) : Gap depth behind (gap ++ more) := by
  induction h with
  | nil => exact hmore
  | blank hc _ ih => exact .blank hc ih
  | comment htext hline _ ih =>
    rw [List.cons_append, List.append_assoc]
    exact .comment htext (by rwa [List.append_assoc]) ih

/-- No token goes on into a gap. -/
theorem not_goesOn_of_gap {depth : Nat} {behind gap : List Char} {t : Token}
    (h : Gap depth behind gap) (hbehind : ∀ c ∈ behind.head?, ¬ t.goesOn c) :
    ∀ c ∈ (gap ++ behind).head?, ¬ t.goesOn c := by
  intro c hc hgoes
  obtain ⟨hblank, hcomment, -⟩ := not_isBlank_of_isIdentChar (isIdentChar_of_goesOn hgoes) depth
  cases h with
  | nil => exact hbehind c hc hgoes
  | blank hb _ =>
    obtain rfl := Option.some.inj hc
    exact hblank (isBlank_iff.2 hb)
  | comment => exact hcomment (Option.some.inj hc).symm

/-! ## Numbers -/

/-- Characters of one kind, as many as there are. -/
theorem takeWhile_eq_iff {p : Char → Bool} {rest more : List Char} :
    rest.takeWhile p = more ↔
      ∃ behind, rest = more ++ behind ∧ (∀ d ∈ more, p d) ∧ ∀ c ∈ behind.head?, ¬ p c := by
  constructor
  · rintro rfl
    refine ⟨rest.dropWhile p, List.takeWhile_append_dropWhile.symm,
      fun d hd => List.mem_takeWhile_imp hd, fun c hc => ?_⟩
    have hnot := List.head?_dropWhile_not p rest
    rw [Option.mem_def.1 hc] at hnot
    simpa using hnot
  · rintro ⟨behind, rfl, hmore, hbehind⟩
    rw [List.takeWhile_append_of_pos hmore]
    cases behind with
    | nil => simp
    | cons c behind => simp [hbehind c rfl]

theorem int64?_eq_some_iff {k : Int} {n : Int64} : int64? k = some n ↔ n.toInt = k := by
  have hmin : Int64.minValue.toInt = -2 ^ 63 := rfl
  have hmax : Int64.maxValue.toInt = 2 ^ 63 - 1 := rfl
  unfold int64?
  constructor
  · intro h
    split_ifs at h with hk
    cases h
    exact Int64.toInt_ofInt_of_le (by omega) (by omega)
  · rintro rfl
    rw [if_pos ⟨Int64.minValue_le_toInt n, n.toInt_le⟩, Int64.ofInt_toInt]

/-- Behind the first digit of a number and in front of `behind`: number
    characters without a point, or with one among them. -/
inductive NumberTail (behind : List Char) : List Char → Prop
  | whole {more} : (∀ d ∈ more, isNumberChar d) → (∀ c ∈ behind.head?, ¬ isNumberChar c) →
      behind.head? ≠ some '.' → NumberTail behind more
  | point {whole places} : (∀ d ∈ whole, isNumberChar d) → (∀ d ∈ places, isNumberChar d) →
      (∀ c ∈ behind.head?, ¬ isNumberChar c) → NumberTail behind (whole ++ '.' :: places)

theorem numberMore_whole {more behind : List Char} (hmore : ∀ d ∈ more, isNumberChar d)
    (hbehind : ∀ c ∈ behind.head?, ¬ isNumberChar c) (hpoint : behind.head? ≠ some '.') :
    numberMore (more ++ behind) = more := by
  unfold numberMore
  rw [List.dropWhile_append_of_pos hmore,
    takeWhile_eq_iff.2 ⟨behind, rfl, hmore, hbehind⟩]
  cases behind with
  | nil => rfl
  | cons c behind =>
    rw [List.dropWhile_cons_of_neg (hbehind c rfl)]
    split
    · rename_i hc
      cases hc
      exact absurd rfl hpoint
    · rfl

theorem numberMore_point {whole behind : List Char} (hwhole : ∀ d ∈ whole, isNumberChar d) :
    numberMore (whole ++ '.' :: behind) = whole ++ '.' :: behind.takeWhile isNumberChar := by
  unfold numberMore
  rw [List.dropWhile_append_of_pos hwhole,
    takeWhile_eq_iff.2 ⟨'.' :: behind, rfl, hwhole,
      fun c hc => Option.some.inj hc ▸ not_isNumberChar_point⟩]
  rfl

theorem numberMore_eq_iff {rest more : List Char} :
    numberMore rest = more ↔ ∃ behind, rest = more ++ behind ∧ NumberTail behind more := by
  constructor
  · rintro rfl
    obtain ⟨behind, hrest, hwhole, hbehind⟩ :=
      takeWhile_eq_iff.1 (Eq.refl (rest.takeWhile isNumberChar))
    rw [hrest]
    generalize rest.takeWhile isNumberChar = whole at hwhole
    by_cases hpoint : behind.head? = some '.'
    · obtain ⟨behind, rfl⟩ := List.head?_eq_some_iff.1 hpoint
      rw [numberMore_point hwhole]
      obtain ⟨behind', hsplit, hplaces, hbehind'⟩ :=
        takeWhile_eq_iff.1 (Eq.refl (behind.takeWhile isNumberChar))
      refine ⟨behind', ?_, .point hwhole hplaces hbehind'⟩
      rw [List.append_assoc, List.cons_append, ← hsplit]
    · rw [numberMore_whole hwhole hbehind hpoint]
      exact ⟨behind, rfl, .whole hwhole hbehind hpoint⟩
  · rintro ⟨behind, rfl, htail⟩
    cases htail with
    | whole hmore hbehind hpoint => exact numberMore_whole hmore hbehind hpoint
    | @point whole places hwhole hplaces hbehind =>
      rw [List.append_assoc, List.cons_append, numberMore_point hwhole,
        takeWhile_eq_iff.2 ⟨behind, rfl, hplaces, hbehind⟩]

theorem point_notMem {more : List Char} (h : ∀ d ∈ more, isNumberChar d) : '.' ∉ more :=
  fun hp => not_isNumberChar_point (h _ hp)

/-- What a lexeme spells that begins with a digit. -/
theorem spelling_digit_iff {c : Char} (hc : c.isDigit) {more : List Char} {t : Token} :
    Spelling (c :: more) t ↔
      (∀ d ∈ more, isNumberChar d) ∧
          (∃ n : Int64, n.toInt = valueOf (digitsOf (c :: more)) ∧ t = .integer n) ∨
        ∃ whole places, more = whole ++ '.' :: places ∧ (∀ d ∈ whole, isNumberChar d) ∧
          (∀ d ∈ places, isNumberChar d) ∧ t = .float (floatOf (c :: more)) := by
  constructor
  · intro h
    cases h with
    | symbol h =>
      exact absurd (isIdentChar_of_isNumberChar (isNumberChar_of_isDigit hc))
        (not_isBlank_of_symbol h 0 fun _ => rfl).2.2.1
    | ident h _ => exact absurd h (not_isIdentStart_of_isDigit hc)
    | integer _ hmore hn => exact Or.inl ⟨hmore, _, hn, rfl⟩
    | float _ hwhole hplaces => exact Or.inr ⟨_, _, rfl, hwhole, hplaces, rfl⟩
    | point => exact absurd hc (by decide)
  · rintro (⟨hmore, n, hn, rfl⟩ | ⟨whole, places, rfl, hwhole, hplaces, rfl⟩)
    · exact .integer hc hmore hn
    · exact .float hc hwhole hplaces

theorem numberFront_eq_lexeme_iff {c : Char} (hc : c.isDigit) {rest more : List Char} {t : Token} :
    numberFront c rest = .lexeme t more ↔ ∃ behind, rest = more ++ behind ∧
      Spelling (c :: more) t ∧ ∀ d ∈ behind.head?, ¬ t.goesOn d := by
  have hne : '.' ≠ c := by
    rintro rfl
    exact absurd hc (by decide)
  constructor
  · intro h
    obtain ⟨behind, hrest, htail⟩ := numberMore_eq_iff.1 (Eq.refl (numberMore rest))
    unfold numberFront at h
    generalize numberMore rest = found at h htail hrest
    cases htail with
    | whole hmore hbehind hpoint =>
      simp only [List.mem_cons, hne, point_notMem hmore, or_self, if_false] at h
      split at h
      · rename_i n hn
        cases h
        refine ⟨behind, hrest, .integer hc hmore (int64?_eq_some_iff.1 hn), fun d hd hgoes => ?_⟩
        simp only [Token.goesOn, Bool.or_eq_true, beq_iff_eq] at hgoes
        rcases hgoes with hgoes | rfl
        · exact hbehind d hd hgoes
        · exact hpoint hd
      · cases h
    | point hwhole hplaces hbehind =>
      simp only [List.mem_cons, List.mem_append, true_or, or_true, if_true] at h
      cases h
      exact ⟨behind, hrest, .float hc hwhole hplaces, hbehind⟩
  · rintro ⟨behind, hrest, hspelling, hmaximal⟩
    unfold numberFront
    rcases (spelling_digit_iff hc).1 hspelling with
      ⟨hmore, n, hn, rfl⟩ | ⟨whole, places, rfl, hwhole, hplaces, rfl⟩
    · simp only [Token.goesOn, Bool.or_eq_true, beq_iff_eq, not_or] at hmaximal
      rw [numberMore_eq_iff.2 ⟨behind, hrest, .whole hmore (fun d hd => (hmaximal d hd).1)
        fun hd => (hmaximal '.' hd).2 rfl⟩]
      simp only [List.mem_cons, hne, point_notMem hmore, or_self, if_false,
        int64?_eq_some_iff.2 hn]
    · rw [numberMore_eq_iff.2 ⟨behind, hrest, .point hwhole hplaces hmaximal⟩]
      simp only [List.mem_cons, List.mem_append, true_or, or_true, if_true]

/-! ## One look at a text -/

section
variable {depth : Nat} {c : Char} {rest more : List Char} {t : Token}

theorem front_of_isDigit (hc : c.isDigit) : front depth c rest = numberFront c rest := by
  obtain ⟨hblank, hcomment, -⟩ := not_isBlank_of_isIdentChar
    (Or.inl (isIdentChar_of_isNumberChar (isNumberChar_of_isDigit hc))) depth
  simp [front, hblank, hcomment, hc]

theorem front_of_isIdentStart (hc : isIdentStart c) :
    front depth c rest = .lexeme (.ident (String.ofList (c :: rest.takeWhile isIdentChar)))
      (rest.takeWhile isIdentChar) := by
  obtain ⟨hblank, hcomment, -⟩ :=
    not_isBlank_of_isIdentChar (Or.inl (isIdentChar_of_isIdentStart hc)) depth
  have hdigit : ¬ c.isDigit := fun hd => not_isIdentStart_of_isDigit hd hc
  have hpoint : c ≠ '.' := by
    rintro rfl
    exact absurd hc (by decide)
  simp [front, hblank, hcomment, hdigit, hpoint, hc]

theorem front_point {d : Char} (hd : d.isDigit) :
    front depth '.' (d :: rest) =
      .lexeme (.float (floatOf ('.' :: d :: rest.takeWhile isNumberChar)))
        (d :: rest.takeWhile isNumberChar) := by
  have hblank := (not_isBlank_of_isIdentChar (Or.inr rfl) depth).1
  have hnumber := isNumberChar_of_isDigit hd
  have hdigit : ¬ '.'.isDigit := by decide
  simp [front, hblank, hd, hnumber, hdigit]

theorem front_of_symbol (hc : symbol? c = some t) (hnewline : t = .newline → depth = 0) :
    front depth c rest = symbolFront depth c := by
  obtain ⟨hblank, hcomment, hident, hpoint⟩ := not_isBlank_of_symbol hc depth hnewline
  have hdigit : ¬ c.isDigit := fun hd =>
    hident (isIdentChar_of_isNumberChar (isNumberChar_of_isDigit hd))
  have hstart : ¬ isIdentStart c := fun hs => hident (isIdentChar_of_isIdentStart hs)
  simp [front, hblank, hcomment, hdigit, hpoint, hstart]

/-- Where a lexeme stands, one look finds it. -/
theorem IsLexeme.front_eq {behind : List Char} (h : IsLexeme depth (c :: more) t behind) :
    front depth c (more ++ behind) = .lexeme t more := by
  obtain ⟨hspelling, hmaximal, hnewline, hclose⟩ := h
  cases hspelling with
  | symbol hc =>
    rw [front_of_symbol hc hnewline]
    exact symbolFront_eq_lexeme_iff.2 ⟨rfl, hc, hclose⟩
  | ident hc hmore =>
    rw [front_of_isIdentStart hc, takeWhile_eq_iff.2 ⟨behind, rfl, hmore, hmaximal⟩]
  | integer hc hmore hn =>
    rw [front_of_isDigit hc]
    exact (numberFront_eq_lexeme_iff hc).2 ⟨behind, rfl, .integer hc hmore hn, hmaximal⟩
  | float hc hwhole hplaces =>
    rw [front_of_isDigit hc]
    exact (numberFront_eq_lexeme_iff hc).2 ⟨behind, rfl, .float hc hwhole hplaces, hmaximal⟩
  | point hd hplaces =>
    rw [List.cons_append, front_point hd, takeWhile_eq_iff.2 ⟨behind, rfl, hplaces, hmaximal⟩]

/-- The lexeme that one look finds is one. -/
theorem isLexeme_of_front (h : front depth c rest = .lexeme t more) :
    ∃ behind, rest = more ++ behind ∧ IsLexeme depth (c :: more) t behind := by
  unfold front at h
  split_ifs at h with hblank hcomment hdigit hpoint hident
  · obtain ⟨behind, hrest, hspelling, hmaximal⟩ := (numberFront_eq_lexeme_iff hdigit).1 h
    refine ⟨behind, hrest, hspelling, hmaximal, ?_, ?_⟩
    all_goals
      rintro rfl
      rcases (spelling_digit_iff hdigit).1 hspelling with ⟨-, n, -, ht⟩ | ⟨_, _, _, -, -, ht⟩
      all_goals cases ht
  · cases h
    simp only [Bool.and_eq_true, beq_iff_eq] at hpoint
    obtain ⟨rfl, hd⟩ := hpoint
    cases rest with
    | nil => cases hd
    | cons d rest =>
      obtain ⟨behind, hrest, hplaces, hbehind⟩ :=
        takeWhile_eq_iff.1 (Eq.refl (rest.takeWhile isNumberChar))
      have hd : d.isDigit := by simpa using hd
      rw [List.takeWhile_cons_of_pos (isNumberChar_of_isDigit hd)]
      exact ⟨behind, by rw [List.cons_append, ← hrest], .point hd hplaces, hbehind, nofun, nofun⟩
  · cases h
    obtain ⟨behind, hrest, hmore, hbehind⟩ :=
      takeWhile_eq_iff.1 (Eq.refl (rest.takeWhile isIdentChar))
    exact ⟨behind, hrest, .ident hident hmore, hbehind, nofun, nofun⟩
  · obtain ⟨rfl, hsymbol, hclose⟩ := symbolFront_eq_lexeme_iff.1 h
    refine ⟨rest, rfl, .symbol hsymbol, ?_, ?_, hclose⟩
    · intro d _
      rw [not_goesOn_of_symbol hsymbol]
      nofun
    · rintro rfl
      obtain rfl := eq_newline_of_symbol hsymbol
      rw [isBlank_iff] at hblank
      by_contra hdepth
      exact hblank (Or.inr (Or.inr (Or.inr ⟨rfl, Nat.pos_of_ne_zero hdepth⟩)))

/-- **Lexemes.** One look at a text finds the lexeme at its front, and finds one
    only where it stands. -/
theorem front_eq_lexeme_iff :
    front depth c rest = .lexeme t more ↔
      ∃ behind, rest = more ++ behind ∧ IsLexeme depth (c :: more) t behind := by
  constructor
  · exact isLexeme_of_front
  · rintro ⟨behind, rfl, h⟩
    exact h.front_eq

theorem numberFront_ne_gap : numberFront c rest ≠ .gap more := by
  simp only [numberFront]
  split
  · nofun
  · split <;> nofun

theorem symbolFront_ne_gap : symbolFront depth c ≠ .gap more := by
  unfold symbolFront
  split
  case h_11 => split <;> nofun
  all_goals nofun

/-- **Gaps.** One look finds a blank, or a comment up to the end of its line. -/
theorem front_eq_gap_iff :
    front depth c rest = .gap more ↔
      isBlank depth c ∧ more = [] ∨ c = '#' ∧ more = rest.takeWhile (· != '\n') := by
  constructor
  · intro h
    unfold front at h
    split_ifs at h with hblank hcomment hdigit
    · cases h
      exact Or.inl ⟨hblank, rfl⟩
    · cases h
      exact Or.inr ⟨beq_iff_eq.1 hcomment, rfl⟩
    · exact absurd h numberFront_ne_gap
    · exact absurd h symbolFront_ne_gap
  · rintro (⟨hblank, rfl⟩ | ⟨rfl, rfl⟩)
    · rw [front, if_pos hblank]
    · have hblank : ¬ isBlank depth '#' := by simp [isBlank_iff]
      simp [front, hblank]

end

/-- Inside no parentheses and at the end of a text, everything but a closing
    parenthesis is a lexeme that spells a token. -/
theorem Spelling.front_eq {c : Char} {more : List Char} {t : Token} (h : Spelling (c :: more) t)
    (ht : t ≠ .closeParen) : front 0 c more = .lexeme t more := by
  have hlexeme : IsLexeme 0 (c :: more) t [] := ⟨h, nofun, fun _ => rfl, fun he => absurd he ht⟩
  simpa using hlexeme.front_eq

theorem Spelling.eq_closeParen {lexeme : List Char} {t : Token} (h : Spelling lexeme .closeParen)
    (ht : Spelling lexeme t) : t = .closeParen := by
  cases h with
  | symbol hc =>
    by_contra hne
    have hfront := ht.front_eq hne
    rw [front_of_symbol hc nofun] at hfront
    obtain ⟨-, hct, -⟩ := symbolFront_eq_lexeme_iff.1 hfront
    exact hne (Option.some.inj (hct.symm.trans hc))

/-- **Tokens of lexemes.** Characters spell one token at most. -/
theorem Spelling.unique {lexeme : List Char} {t u : Token} (ht : Spelling lexeme t)
    (hu : Spelling lexeme u) : t = u := by
  by_cases htc : t = .closeParen
  · subst htc
    exact (ht.eq_closeParen hu).symm
  by_cases huc : u = .closeParen
  · subst huc
    exact hu.eq_closeParen ht
  cases lexeme with
  | nil => cases ht
  | cons c more =>
    have hfront := ht.front_eq htc
    rw [hu.front_eq huc] at hfront
    exact (Front.lexeme.inj hfront).1.symm

end Stacklet
