/-
  The faults of texts.

  A text has a fault where an integer exceeds 64 bits, where a parenthesis is
  closed that is not open, or where a character starts no token (`IsFault`).
  The scanner reports the first of them, and there is nothing else that it can
  stumble over, also if it checks what it reads.

  * `exists_isFault_of_front`, `IsFault.front_eq`: one look at a text finds the
    fault that stands at its front, and no other;
  * `FailsAt`: where a text has its first fault;
  * `tokensOf_faults`: the errors of the scanner, and the values of the numbers
    that it finds.
-/
import Stacklet.Proofs.ScanChecks
import Stacklet.Proofs.Scanning

namespace Stacklet

/-! ## Faults -/

/-- In front of `behind`, the character belongs to no gap, and no token starts
    with it. -/
structure StartsNone (c : Char) (behind : List Char) : Prop where
  gap : c ≠ ' ' ∧ c ≠ '\t' ∧ c ≠ '\r' ∧ c ≠ '#'
  token : ∀ more t, more <+: behind → ¬ Spelling (c :: more) t

/-- Inside `depth` parentheses and in front of `behind`, the characters are a
    lexeme that is no token: as many characters of an integer as can be, or one
    character. -/
inductive IsFault (depth : Nat) (behind : List Char) : List Char → ScanFault → Prop
  | integer {c more} : c.isDigit → (∀ d ∈ more, isNumberChar d) →
      (∀ d ∈ behind.head?, ¬ isNumberChar d ∧ d ≠ '.') →
      2 ^ 63 - 1 < decimalValue (withoutMarks (c :: more)) →
      IsFault depth behind (c :: more)
        (.invalidInteger (String.ofList (withoutMarks (c :: more))))
  | paren : depth = 0 → IsFault depth behind [')'] .unmatchedParen
  | char {c} : StartsNone c behind → IsFault depth behind [c] (.unexpectedChar c)

theorem int64?_eq_none_iff {k : Nat} : int64? k = none ↔ 2 ^ 63 - 1 < k := by
  have hmin : Int64.minValue.toInt = -2 ^ 63 := rfl
  have hmax : Int64.maxValue.toInt = 2 ^ 63 - 1 := rfl
  rw [int64?, ite_eq_right_iff, hmin, hmax]
  simp only [reduceCtorEq, imp_false]
  omega

theorem exists_spelling_of_isDigit {c : Char} (hc : c.isDigit) : ∃ t, Spelling [c] t := by
  have hdigits : digitsOf [c] = [c] := by simp [digitsOf, hc]
  have hrange := Char.isDigit_iff_toNat.1 hc
  have hvalue : valueOf [c] = c.toNat - '0'.toNat := by simp [valueOf]
  have hnine : '9'.toNat < 2 ^ 63 - 1 := by decide
  cases hn : int64? (valueOf (digitsOf [c])) with
  | some n => exact ⟨_, .integer hc (List.forall_mem_nil _) (int64?_eq_some_iff.1 hn)⟩
  | none =>
    rw [int64?_eq_none_iff, hdigits, hvalue] at hn
    omega

/-- **Characters that start nothing**: neither blanks nor operators, neither
    ASCII digits nor letters, and points without a digit behind them. -/
theorem startsNone_iff {c : Char} {behind : List Char} :
    StartsNone c behind ↔ (c ≠ ' ' ∧ c ≠ '\t' ∧ c ≠ '\r' ∧ c ≠ '#') ∧ symbol? c = none ∧
      ¬ c.isDigit ∧ ¬ isIdentStart c ∧ (c = '.' → ∀ d ∈ behind.head?, ¬ d.isDigit) := by
  constructor
  · rintro ⟨hgap, htoken⟩
    refine ⟨hgap, ?_, fun hc => ?_, fun hc => ?_, ?_⟩
    · cases hsymbol : symbol? c with
      | none => rfl
      | some t => exact absurd (.symbol hsymbol) (htoken [] t List.nil_prefix)
    · obtain ⟨t, ht⟩ := exists_spelling_of_isDigit hc
      exact htoken [] t List.nil_prefix ht
    · exact htoken [] _ List.nil_prefix (.ident hc nofun)
    · rintro rfl d hd hdigit
      obtain ⟨behind, rfl⟩ := List.head?_eq_some_iff.1 hd
      exact htoken [d] _ (List.prefix_append [d] behind) (.point hdigit nofun)
  · rintro ⟨hgap, hsymbol, hdigit, hident, hpoint⟩
    refine ⟨hgap, fun more t hmore hspelling => ?_⟩
    cases hspelling with
    | symbol h => cases hsymbol.symm.trans h
    | ident h => exact hident h
    | integer h | float h => exact hdigit h
    | @point d places hd =>
      obtain ⟨rest, rfl⟩ := hmore
      exact hpoint rfl d rfl hd

/-! ## One look at a text -/

section
variable {depth : Nat} {c : Char} {rest more behind passed : List Char} {cause : ScanFault}

theorem symbolFront_eq_fault_iff :
    symbolFront depth c = .fault cause passed ↔
      passed = [] ∧ (c = ')' ∧ depth = 0 ∧ cause = .unmatchedParen ∨
        symbol? c = none ∧ cause = .unexpectedChar c) := by
  unfold symbolFront symbol?
  split
  case h_11 =>
    by_cases hdepth : depth = 0
    · simp [hdepth, eq_comm, and_comm]
    · simp [hdepth]
  case h_12 hparen =>
    simp only [Front.fault.injEq, true_and]
    constructor
    · rintro ⟨rfl, rfl⟩
      exact ⟨rfl, Or.inr rfl⟩
    · rintro ⟨rfl, ⟨hc, -⟩ | rfl⟩
      · exact absurd hc hparen
      · exact ⟨rfl, rfl⟩
  all_goals simp

/-- A number is at fault that has no point and is too large. -/
theorem isFault_of_numberFront (hc : c.isDigit) (h : numberFront c rest = .fault cause passed) :
    ∃ more behind, rest = more ++ behind ∧ IsFault depth behind (c :: more) cause := by
  obtain ⟨behind, hrest, htail⟩ := numberMore_eq_iff.1 (Eq.refl (numberMore rest))
  unfold numberFront at h
  generalize numberMore rest = found at h htail hrest
  cases htail with
  | whole hmore hbehind hpoint =>
    have hnumber := forall_isNumberChar hc hmore
    simp only [point_notMem hnumber, if_false] at h
    split at h
    · cases h
    · rename_i hnone
      cases h
      rw [int64?_eq_none_iff, valueOf_eq_decimalValue] at hnone
      rw [← withoutMarks_eq_digitsOf hnumber] at hnone ⊢
      refine ⟨found, behind, hrest, .integer hc hmore (fun d hd => ⟨hbehind d hd, ?_⟩) hnone⟩
      rintro rfl
      exact hpoint hd
  | point hwhole hplaces hbehind =>
    simp only [List.mem_cons, List.mem_append, true_or, or_true, if_true] at h
    cases h

/-- The fault that one look finds is one. -/
theorem exists_isFault_of_front (h : front depth c rest = .fault cause passed) :
    ∃ more behind, rest = more ++ behind ∧ IsFault depth behind (c :: more) cause := by
  unfold front at h
  split_ifs at h with hblank hcomment hdigit hpoint hident
  · exact isFault_of_numberFront hdigit h
  · obtain ⟨-, ⟨rfl, hdepth, rfl⟩ | ⟨hsymbol, rfl⟩⟩ := symbolFront_eq_fault_iff.1 h
    · exact ⟨[], rest, rfl, .paren hdepth⟩
    · rw [isBlank_iff] at hblank
      push Not at hblank
      obtain ⟨hspace, htab, hreturn, -⟩ := hblank
      refine ⟨[], rest, rfl, .char (startsNone_iff.2 ⟨⟨hspace, htab, hreturn, ?_⟩, hsymbol, hdigit,
        hident, ?_⟩)⟩
      · simpa using hcomment
      · rintro rfl d hd hd'
        exact hpoint (by simp [Option.mem_def.1 hd, hd'])

/-- Where a fault stands, one look finds it. -/
theorem IsFault.front_eq (h : IsFault depth behind (c :: more) cause) :
    ∃ passed, front depth c (more ++ behind) = .fault cause passed := by
  cases h with
  | integer hc hmore hbehind hlarge =>
    have hnumber := forall_isNumberChar hc hmore
    have htail : NumberTail behind more :=
      .whole hmore (fun d hd => (hbehind d hd).1) fun hd => (hbehind '.' hd).2 rfl
    rw [withoutMarks_eq_digitsOf hnumber, ← valueOf_eq_decimalValue, ← int64?_eq_none_iff] at hlarge
    rw [front_of_isDigit hc, numberFront, numberMore_eq_iff.2 ⟨behind, rfl, htail⟩,
      withoutMarks_eq_digitsOf hnumber]
    simp only [point_notMem hnumber, if_false, hlarge]
    exact ⟨_, rfl⟩
  | paren hdepth =>
    rw [front_of_symbol (t := .closeParen) rfl fun hline => by cases hline]
    exact ⟨[], symbolFront_eq_fault_iff.2 ⟨rfl, Or.inl ⟨rfl, hdepth, rfl⟩⟩⟩
  | char hnone =>
    obtain ⟨⟨hspace, htab, hreturn, hcomment⟩, hsymbol, hdigit, hident, hpoint⟩ :=
      startsNone_iff.1 hnone
    have hblank : ¬ isBlank depth c := by
      rw [isBlank_iff]
      rintro (rfl | rfl | rfl | ⟨rfl, -⟩)
      · exact hspace rfl
      · exact htab rfl
      · exact hreturn rfl
      · cases hsymbol
    have hfloat : ¬ (c == '.' && behind.head?.any Char.isDigit) := by
      rw [Bool.and_eq_true, beq_iff_eq, Option.any_eq_true]
      rintro ⟨rfl, d, hd, hd'⟩
      exact hpoint rfl d hd hd'
    refine ⟨[], ?_⟩
    rw [List.nil_append, front, if_neg hblank, if_neg (by simpa using hcomment), if_neg hdigit,
      if_neg hfloat, if_neg hident]
    exact symbolFront_eq_fault_iff.2 ⟨rfl, Or.inr ⟨hsymbol, rfl⟩⟩

end

/-! ## The first fault -/

/-- Behind the pieces that a text begins with and a gap, a lexeme is a fault, and
    the error says so and where it begins. -/
structure FailsAt (source : List Char) (pieces : List Piece) (gap lexeme behind : List Char)
    (e : ScanError) : Prop where
  text : source = textOf pieces ++ (gap ++ (lexeme ++ behind))
  stand : Stand pieces (gap ++ (lexeme ++ behind))
  fault : IsFault (opened pieces - closed pieces) behind lexeme e.fault
  reached : Gap (opened pieces - closed pieces) (lexeme ++ behind) gap
  position : e.position = .behind (textOf pieces ++ gap)

/-- The gap that one look finds is one. -/
theorem gap_of_front {depth : Nat} {c : Char} {rest more : List Char}
    (h : front depth c rest = .gap more) :
    ∃ behind, rest = more ++ behind ∧ Gap depth behind (c :: more) := by
  rcases front_eq_gap_iff.1 h with ⟨hblank, rfl⟩ | ⟨rfl, hmore⟩
  · exact ⟨rest, rfl, .blank (isBlank_iff.1 hblank) .nil⟩
  · obtain ⟨behind, rfl, htext, hbehind⟩ := takeWhile_eq_iff.1 hmore.symm
    refine ⟨behind, rfl, ?_⟩
    rw [← List.append_nil more]
    refine .comment (fun hmem => ?_) (fun d hd => ?_) .nil
    · simpa using htext _ hmem
    · simpa using hbehind d hd

/-- **What a scanner comes to**, behind pieces that it has found and a gap: the
    end of the text or a fault. -/
theorem scan_spec (found : Array PlacedToken) (ahead : List Char) (p : Position) (depth : Nat)
    (done : List Piece) (gap : List Char) (hfound : found.toList = placed [] done)
    (hp : p = .behind (textOf done ++ gap)) (hdepth : depth = opened done - closed done)
    (hopen : closed done ≤ opened done) (hstand : Stand done (gap ++ ahead))
    (hgap : Gap depth ahead gap) :
    match (Scanner.scan found ahead p depth).1 with
    | .ok tokens => ∃ pieces last, textOf done ++ (gap ++ ahead) = textOf pieces ++ last ∧
        Stand pieces last ∧ Gap (opened pieces - closed pieces) [] last ∧
        tokens = placed [] pieces ++ [⟨.endOfInput, .behind (textOf pieces ++ last)⟩]
    | .error e => ∃ pieces gap' lexeme behind,
        FailsAt (textOf done ++ (gap ++ ahead)) pieces gap' lexeme behind e := by
  fun_induction Scanner.scan found ahead p depth generalizing done gap with
  | case1 found p depth =>
    subst hp hdepth
    rw [List.append_nil] at hstand ⊢
    exact ⟨done, gap, rfl, hstand, hgap, by rw [Array.toList_push, hfound]⟩
  | case2 found c rest p depth more hfront ih =>
    subst hp
    obtain ⟨behind, rfl, hmore⟩ := gap_of_front hfront
    have happend : gap ++ c :: (more ++ behind) = (gap ++ c :: more) ++ behind := by simp
    rw [List.drop_left] at ih ⊢
    rw [happend] at hstand ⊢
    refine ih done (gap ++ c :: more) hfound ?_ hdepth hopen hstand (hgap.append hmore)
    rw [Position.pastAll_behind, List.append_assoc]
  | case3 found c rest p depth t more hfront ih =>
    subst hp hdepth
    obtain ⟨behind, rfl, hlexeme⟩ := front_eq_lexeme_iff.1 hfront
    obtain ⟨hopen', hdepth'⟩ := open_concat (p := ⟨gap, c :: more, t⟩) hopen hlexeme.closeParen
    have htext : textOf done ++ (gap ++ c :: (more ++ behind)) =
        textOf (done ++ [⟨gap, c :: more, t⟩]) ++ ([] ++ behind) := by simp
    rw [List.drop_left] at ih ⊢
    rw [htext]
    refine ih (done ++ [⟨gap, c :: more, t⟩]) [] ?_ ?_ hdepth'.symm hopen' ?_ .nil
    · rw [Array.toList_push, hfound, placed_concat, List.nil_append]
    · rw [Position.pastAll_behind]
      simp
    · exact hstand.concat hgap hlexeme
  | case4 found c rest p depth cause passed hfront =>
    subst hp hdepth
    obtain ⟨more, behind, rfl, hfault⟩ := exists_isFault_of_front hfront
    exact ⟨done, gap, c :: more, behind, rfl, hstand, hfault, hgap, rfl⟩

/-- The scanner reports a fault that it comes to. -/
theorem FailsAt.tokensOf_eq {source : String} {pieces : List Piece} {gap lexeme behind : List Char}
    {e : ScanError} (h : FailsAt source.toList pieces gap lexeme behind e) :
    tokensOf source = .error e := by
  obtain ⟨htext, hstand, hfault, hgap, hposition⟩ := h
  rw [tokensOf, Scanner.run, Scanner.ofString, htext, hstand.scan_start_eq hgap, ← hposition]
  cases lexeme with
  | nil => cases hfault
  | cons c more =>
    obtain ⟨passed, hfront⟩ := hfault.front_eq
    rw [List.cons_append, Scanner.scan, hfront]

/-- The token of a piece has the value that its digits denote. -/
structure Piece.Denotes (p : Piece) : Prop where
  integer : ∀ n, p.token = .integer n → n.toInt = decimalValue (withoutMarks p.lexeme)
  float : ∀ x, p.token = .float x → DenotesFloat (withoutMarks p.lexeme) x

theorem Stand.denotes {pieces : List Piece} {behind : List Char} (h : Stand pieces behind) :
    ∀ p ∈ pieces, p.Denotes := by
  intro p hp
  obtain ⟨before, after, rfl⟩ := List.append_of_mem hp
  have hspelling := (h.lexeme before p after rfl).spelling
  refine ⟨fun n hn => ?_, fun x hx => ?_⟩
  · rw [hn] at hspelling
    exact hspelling.integer_value
  · rw [hx] at hspelling
    exact hspelling.denotesFloat

/-- **Texts fail where they have a fault.** The tokens of a text are missing iff
    behind some pieces stands an integer that is too large, a parenthesis that
    closes none, or a character that starts no token, such as a point without a
    digit behind it; the error is the first of these and says where it begins.
    Otherwise the tokens are those of the pieces. Either way the numbers among
    the pieces have their exact values. A scanner with all checks never gives up,
    if its parser for doubles reads digits around one point. -/
theorem tokensOf_faults (double? : List Char → Option Binary64)
    (hdouble : ∀ digits x, DenotesFloat digits x → double? digits = some x) (source : String) :
    (∀ e, tokensOf source = .error e ↔
      ∃ pieces gap lexeme behind, FailsAt source.toList pieces gap lexeme behind e) ∧
    (∀ tokens, tokensOf source = .ok tokens → ∃ pieces last,
      source.toList = textOf pieces ++ last ∧ Stand pieces last ∧
        Gap (opened pieces - closed pieces) [] last ∧
        tokens = placed [] pieces ++ [⟨.endOfInput, .behind source.toList⟩]) ∧
    (∀ pieces behind, source.toList = textOf pieces ++ behind → Stand pieces behind →
      ∀ p ∈ pieces, p.Denotes) ∧
    (∀ c behind, StartsNone c behind ↔ (c ≠ ' ' ∧ c ≠ '\t' ∧ c ≠ '\r' ∧ c ≠ '#') ∧
      symbol? c = none ∧ ¬ c.isDigit ∧ ¬ isIdentStart c ∧
        (c = '.' → ∀ d ∈ behind.head?, ¬ d.isDigit)) ∧
    checkedTokensOf double? source = .ok (tokensOf source) := by
  have hspec := scan_spec #[] source.toList .start 0 [] [] rfl rfl rfl le_rfl (stand_nil _) .nil
  have hrun : tokensOf source = (Scanner.scan #[] source.toList .start 0).1 := rfl
  rw [← hrun] at hspec
  refine ⟨fun e => ⟨fun he => ?_, ?_⟩, fun tokens htokens => ?_, fun pieces behind _ hstand =>
    hstand.denotes, fun c behind => startsNone_iff, checkedScan_eq hdouble ..⟩
  · rw [he] at hspec
    exact hspec
  · rintro ⟨pieces, gap, lexeme, behind, h⟩
    exact h.tokensOf_eq
  · rw [htokens] at hspec
    obtain ⟨pieces, last, htext, hstand, hlast, rfl⟩ := hspec
    refine ⟨pieces, last, htext, hstand, hlast, ?_⟩
    rw [← htext]
    rfl

/-- Reads digits around one point, and nothing else. -/
def pointed? (digits : List Char) : Option Binary64 :=
  let whole := digits.takeWhile Char.isDigit
  match digits.dropWhile Char.isDigit with
  | '.' :: places =>
    if places.all Char.isDigit && whole ++ places != [] then
      some (.ofDecimal (decimalValue (whole ++ places)) (-(places.length : Int)))
    else none
  | _ => none

theorem pointed?_of_denotesFloat (digits : List Char) (x : Binary64) (h : DenotesFloat digits x) :
    pointed? digits = some x := by
  obtain @⟨whole, places, hwhole, hplaces, hsome⟩ := h
  have hpoint : ¬ '.'.isDigit := by decide
  have htake : (whole ++ '.' :: places).takeWhile Char.isDigit = whole :=
    takeWhile_eq_iff.2 ⟨'.' :: places, rfl, hwhole, fun c hc => Option.some.inj hc ▸ hpoint⟩
  have hdrop : (whole ++ '.' :: places).dropWhile Char.isDigit = '.' :: places := by
    rw [List.dropWhile_append_of_pos hwhole, List.dropWhile_cons_of_neg hpoint]
  have hread : places.all Char.isDigit && whole ++ places != [] := by
    rw [Bool.and_eq_true, List.all_eq_true, bne_iff_ne]
    exact ⟨hplaces, hsome⟩
  simp only [pointed?, htake, hdrop, if_pos hread]

/-- A text whose parenthesis closes none, behind a double. -/
theorem tokensOf_faults_unmatched :
    (∀ digits x, DenotesFloat digits x → pointed? digits = some x) ∧
      (∃ pieces gap lexeme behind,
        FailsAt "1_0.5)".toList pieces gap lexeme behind ⟨.unmatchedParen, ⟨1, 6⟩⟩) ∧
      checkedTokensOf pointed? "1_0.5)" = .ok (.error ⟨.unmatchedParen, ⟨1, 6⟩⟩) := by
  have hfails : tokensOf "1_0.5)" = .error ⟨.unmatchedParen, ⟨1, 6⟩⟩ := by
    with_unfolding_all rfl
  obtain ⟨hfault, -, -, -, hchecked⟩ :=
    tokensOf_faults pointed? pointed?_of_denotesFloat "1_0.5)"
  exact ⟨pointed?_of_denotesFloat, (hfault _).1 hfails, hfails ▸ hchecked⟩

end Stacklet
