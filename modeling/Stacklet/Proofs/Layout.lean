/-
  Layout means nothing.

  Between two lexemes of a text, and outside of its comments, everything may be
  added that is a gap there: blanks, line ends inside parentheses, and comments
  up to the end of a line. The text then has the same tokens, at other places,
  and so the same tree or the same fault, and the same unit.

  * `Gap.more`: a gap behind a gap is one with it;
  * `Stand.relaid`: the lexemes in front of such a place stay lexemes;
  * `scan_unplaced`: what a scanner finds does not depend on where it begins to
    count;
  * `Splits.boundaries`: the places at both ends of every lexeme;
  * `ofSource_relaid`: texts with more layout.
-/
import Stacklet.CodeUnit.Assembly
import Stacklet.Proofs.Scanning
import Stacklet.Proofs.Unplaced

namespace Stacklet

/-! ## More gaps -/

/-- A comment takes a gap behind it in, up to the end of the line. -/
theorem Gap.comment_append {depth : Nat} {behind text gap : List Char} (htext : '\n' ∉ text)
    (hbehind : ∀ c ∈ behind.head?, c = '\n') (h : Gap depth behind gap) :
    Gap depth behind ('#' :: (text ++ gap)) := by
  induction h generalizing text with
  | nil => exact .comment htext hbehind .nil
  | @blank c gap hc hgap ih =>
    by_cases hline : c = '\n'
    · refine .comment htext (fun d hd => ?_) (.blank hc hgap)
      exact (Option.some.inj hd).symm.trans hline
    · have htext' : '\n' ∉ text ++ [c] := by simp [htext, Ne.symm hline]
      simpa using ih htext'
  | @comment more gap hmore hline hgap _ =>
    have htext' : '\n' ∉ text ++ '#' :: more := by simp [htext, hmore]
    simpa using Gap.comment htext' hline hgap

/-- **A gap behind a gap.** Where the first ends with a comment, this goes on into
    the second. -/
theorem Gap.more {depth : Nat} {behind gap more : List Char} (h : Gap depth behind gap)
    (hmore : Gap depth behind more) : Gap depth behind (gap ++ more) := by
  induction h with
  | nil => exact hmore
  | blank hc _ ih => exact .blank hc ih
  | @comment text gap htext hline hgap ih =>
    rw [List.cons_append, List.append_assoc]
    cases gap with
    | nil => exact hmore.comment_append htext hline
    | cons c gap => exact .comment htext hline ih

/-- Of what stands behind it, only the first character matters to a gap. -/
theorem Gap.of_head? {depth : Nat} {behind behind' gap : List Char} (h : Gap depth behind gap)
    (hhead : behind'.head? = behind.head?) : Gap depth behind' gap := by
  induction h with
  | nil => exact .nil
  | blank hc _ ih => exact .blank hc ih
  | comment htext hline _ ih =>
    refine .comment htext ?_ ih
    rwa [List.head?_append, hhead, ← List.head?_append]

/-! ## Lexemes in front of a gap -/

theorem head?_append_of_ne_nil {α : Type} {as : List α} (h : as ≠ []) (bs cs : List α) :
    (as ++ bs).head? = (as ++ cs).head? := by
  cases as with
  | nil => exact absurd rfl h
  | cons a as => rfl

theorem Spelling.ne_nil {lexeme : List Char} {t : Token} (h : Spelling lexeme t) :
    lexeme ≠ [] := by
  cases h <;> exact List.cons_ne_nil _ _

/-- Pieces stand in front of another text too, if it begins with nothing that
    goes on a token. -/
theorem Stand.of_goesOn {pieces : List Piece} {behind behind' : List Char} (h : Stand pieces behind)
    (hhead : ∀ t : Token, (∀ c ∈ behind.head?, ¬ t.goesOn c) → ∀ c ∈ behind'.head?, ¬ t.goesOn c) :
    Stand pieces behind' := by
  refine ⟨fun before p after hsplit => ?_, fun before p after hsplit => ?_⟩
  · have hne := (h.lexeme before p after hsplit).spelling.ne_nil
    exact (h.gap before p after hsplit).of_head? (head?_append_of_ne_nil hne _ _)
  · have hlexeme := h.lexeme before p after hsplit
    refine ⟨hlexeme.spelling, ?_, hlexeme.newline, hlexeme.closeParen⟩
    cases after with
    | nil => exact hhead _ hlexeme.maximal
    | cons q after =>
      have hq := h.lexeme (before ++ [p]) q after (by simp [hsplit])
      have hne : textOf (q :: after) ≠ [] := by simp [hq.spelling.ne_nil]
      rw [head?_append_of_ne_nil hne behind' behind]
      exact hlexeme.maximal

/-- The pieces in front of a gap stay as they are if it grows at its end. -/
theorem Stand.relaid {depth : Nat} {pieces : List Piece} {gap layout behind : List Char}
    (h : Stand pieces (gap ++ behind)) (hlayout : Gap depth behind layout) :
    Stand pieces (gap ++ (layout ++ behind)) := by
  refine h.of_goesOn fun t ht => ?_
  cases gap with
  | nil =>
    rw [List.nil_append] at ht ⊢
    exact not_goesOn_of_gap hlayout ht
  | cons c gap => exact ht

/-- Some of the pieces, in front of the others. -/
theorem Stand.of_append {before after : List Piece} {behind : List Char}
    (h : Stand (before ++ after) behind) : Stand before (textOf after ++ behind) := by
  refine ⟨fun front p more hsplit => ?_, fun front p more hsplit => ?_⟩
  · simpa using h.gap front p (more ++ after) (by simp [hsplit])
  · simpa using h.lexeme front p (more ++ after) (by simp [hsplit])

/-! ## Tokens without positions -/

/-- The tokens that a scanner finds or the fault that it reports, but not where
    they stand. -/
def unplaced : Except ScanError (List PlacedToken) → Except ScanFault (List Token)
  | .ok tokens => .ok (tokens.map PlacedToken.token)
  | .error e => .error e.fault

/-- **A scanner finds the same tokens from every position.** -/
theorem scan_unplaced {found found' : Array PlacedToken}
    (h : found.toList.map PlacedToken.token = found'.toList.map PlacedToken.token)
    (ahead : List Char) (p p' : Position) (depth : Nat) :
    unplaced (Scanner.scan found ahead p depth).1 =
      unplaced (Scanner.scan found' ahead p' depth).1 := by
  fun_induction Scanner.scan found ahead p depth generalizing found' p' with
  | case1 found p depth =>
    rw [Scanner.scan]
    simp [unplaced, h]
  | case2 found c rest p depth more hfront ih =>
    rw [Scanner.scan, hfront]
    exact ih h _
  | case3 found c rest p depth t more hfront ih =>
    rw [Scanner.scan, hfront]
    exact ih (by simp [h]) _
  | case4 found c rest p depth cause passed hfront => rw [Scanner.scan, hfront]; rfl

/-! ## Places between tokens -/

/-- A place of a text that is in no lexeme and in no comment, with the text in
    front of it, the text behind it, and the number of parentheses that are open
    there. In the gap in front of a lexeme, the place where `gap` is empty stands
    right behind the lexeme before or where the text begins, and the one where
    `rest` is empty right in front of the lexeme. -/
inductive Boundary (source : List Char) : (front behind : List Char) → (depth : Nat) → Prop
  | inFront {before p after last gap rest} : Splits source (before ++ p :: after) last →
      p.gap = gap ++ rest →
      Gap (opened before - closed before) (rest ++ (p.lexeme ++ (textOf after ++ last))) gap →
      Boundary source (textOf before ++ gap) (rest ++ (p.lexeme ++ (textOf after ++ last)))
        (opened before - closed before)
  | atEnd {pieces last gap rest} : Splits source pieces last → last = gap ++ rest →
      Gap (opened pieces - closed pieces) rest gap →
      Boundary source (textOf pieces ++ gap) rest (opened pieces - closed pieces)

/-- Such places are where a text begins, right behind each lexeme and right in
    front of each. -/
theorem Splits.boundaries {source : List Char} {pieces : List Piece} {last : List Char}
    (h : Splits source pieces last) :
    (∀ before after, pieces = before ++ after →
      Boundary source (textOf before) (textOf after ++ last) (opened before - closed before)) ∧
    ∀ before p after, pieces = before ++ p :: after →
      Boundary source (textOf before ++ p.gap) (p.lexeme ++ (textOf after ++ last))
        (opened before - closed before) := by
  constructor
  · rintro before after rfl
    cases after with
    | nil =>
      rw [List.append_nil] at h
      have hplace : Boundary source (textOf before ++ []) last (opened before - closed before) :=
        .atEnd h rfl .nil
      rwa [List.append_nil] at hplace
    | cons p after =>
      have hplace : Boundary source (textOf before ++ [])
          (p.gap ++ (p.lexeme ++ (textOf after ++ last))) (opened before - closed before) :=
        .inFront h rfl .nil
      rw [List.append_nil] at hplace
      rwa [textOf_cons, List.append_assoc, List.append_assoc]
  · rintro before p after rfl
    have hplace : Boundary source (textOf before ++ p.gap)
        ([] ++ (p.lexeme ++ (textOf after ++ last))) (opened before - closed before) :=
      .inFront h (List.append_nil _).symm (h.stand.gap before p after rfl)
    exact hplace

/-- In front of such a place, a text is pieces and a gap. -/
theorem Boundary.exists_pieces {source front behind : List Char} {depth : Nat}
    (h : Boundary source front behind depth) :
    ∃ pieces gap, front = textOf pieces ++ gap ∧ source = textOf pieces ++ (gap ++ behind) ∧
      Stand pieces (gap ++ behind) ∧ depth = opened pieces - closed pieces ∧
      Gap depth behind gap := by
  cases h with
  | @inFront before p after last gap rest hsplits hgap hreached =>
    have hbehind : textOf (p :: after) ++ last =
        gap ++ (rest ++ (p.lexeme ++ (textOf after ++ last))) := by simp [hgap]
    refine ⟨before, gap, rfl, ?_, hbehind ▸ hsplits.stand.of_append, rfl, hreached⟩
    rw [hsplits.text, textOf_append, List.append_assoc, hbehind]
  | @atEnd pieces last gap rest hsplits hlast hreached =>
    subst hlast
    exact ⟨pieces, gap, rfl, hsplits.text, hsplits.stand, rfl, hreached⟩

/-- A text with a place between tokens has tokens. -/
theorem Boundary.exists_tokens {source : String} {front behind : List Char} {depth : Nat}
    (h : Boundary source.toList front behind depth) : ∃ tokens, tokensOf source = .ok tokens := by
  have hsplits : ∃ pieces last, Splits source.toList pieces last := by
    cases h with
    | inFront hsplits => exact ⟨_, _, hsplits⟩
    | atEnd hsplits => exact ⟨_, _, hsplits⟩
  obtain ⟨pieces, last, htext, hstand, -, hlast⟩ := hsplits
  exact ⟨_, tokensOf_iff_scans.2 (htext ▸ hstand.scans hlast [] pieces rfl le_rfl)⟩

/-- **More layout changes no token.** -/
theorem tokensOf_relaid {source relaid : String} {front behind layout : List Char} {depth : Nat}
    (hplace : Boundary source.toList front behind depth) (hlayout : Gap depth behind layout)
    (hrelaid : relaid.toList = front ++ (layout ++ behind)) :
    unplaced (tokensOf relaid) = unplaced (tokensOf source) := by
  obtain ⟨pieces, gap, rfl, hsource, hstand, rfl, hgap⟩ := hplace.exists_pieces
  have hmore : relaid.toList = textOf pieces ++ ((gap ++ layout) ++ behind) := by
    rw [hrelaid, List.append_assoc, List.append_assoc]
  have hstand' := hstand.relaid hlayout
  rw [← List.append_assoc] at hstand'
  rw [tokensOf, tokensOf, Scanner.run, Scanner.run, Scanner.ofString, Scanner.ofString, hsource,
    hmore, hstand.scan_start_eq hgap, hstand'.scan_start_eq (hgap.more hlayout)]
  exact scan_unplaced rfl _ _ _ _

/-! ## Trees and units of texts -/

/-- Why a text has no unit, but not where. -/
inductive SourceFault where
  | scan (cause : ScanFault)
  | parse (cause : ParseFault)
  | compile (e : CompileError)
  deriving DecidableEq

def SourceError.fault : SourceError → SourceFault
  | scan e => .scan e.fault
  | parse e => .parse e.fault

/-- The unit of a text. -/
def CodeUnit.ofSource (t : Numbering) (options : UnitOptions) (source : String) :
    Except SourceFault CodeUnit :=
  match (Tree.ofSource source).mapError SourceError.fault with
  | .error cause => .error cause
  | .ok tree => (ofTree t options tree).mapError .compile

/-- Texts with the same tokens have the same tree or the same fault. -/
theorem ofSource_unplaced {source source' : String}
    (h : unplaced (tokensOf source) = unplaced (tokensOf source')) :
    (Tree.ofSource source).mapError SourceError.fault =
      (Tree.ofSource source').mapError SourceError.fault := by
  rw [Tree.ofSource, Tree.ofSource]
  generalize tokensOf source = found at h ⊢
  generalize tokensOf source' = found' at h ⊢
  rcases found with e | tokens <;> rcases found' with e' | tokens'
  · exact congrArg (Except.error ∘ SourceFault.scan) (Except.error.inj h)
  · cases h
  · cases h
  · have hparse := ofTokens_unplaced (Except.ok.inj h)
    generalize htree : Tree.ofTokens tokens = read at hparse
    generalize htree' : Tree.ofTokens tokens' = read' at hparse
    rcases read with e | tree <;> rcases read' with e' | tree'
    all_goals simp only [htree, htree']
    · exact congrArg (Except.error ∘ SourceFault.parse) (Except.error.inj hparse)
    · cases hparse
    · cases hparse
    · exact congrArg Except.ok (Except.ok.inj hparse)

/-- **Layout means nothing.** Where a gap may stand between the tokens of a text,
    more of it leaves the kinds and values of the tokens as they are. So the text
    is read as the same tree, or has the same fault, and compiles into the same
    unit. -/
theorem ofSource_relaid {source relaid : String} {front behind layout : List Char} {depth : Nat}
    (hplace : Boundary source.toList front behind depth) (hlayout : Gap depth behind layout)
    (hrelaid : relaid.toList = front ++ (layout ++ behind)) :
    (∃ tokens tokens', tokensOf source = .ok tokens ∧ tokensOf relaid = .ok tokens' ∧
      tokens'.map PlacedToken.token = tokens.map PlacedToken.token) ∧
    (Tree.ofSource relaid).mapError SourceError.fault =
      (Tree.ofSource source).mapError SourceError.fault ∧
    ∀ t options, CodeUnit.ofSource t options relaid = CodeUnit.ofSource t options source := by
  have hunplaced := tokensOf_relaid hplace hlayout hrelaid
  have htrees := ofSource_unplaced hunplaced
  obtain ⟨tokens, htokens⟩ := hplace.exists_tokens
  refine ⟨?_, htrees, fun t options => ?_⟩
  · rw [htokens] at hunplaced
    rcases htokens' : tokensOf relaid with e | tokens'
    · rw [htokens'] at hunplaced
      cases hunplaced
    · rw [htokens'] at hunplaced
      exact ⟨tokens, tokens', htokens, rfl, Except.ok.inj hunplaced⟩
  · rw [CodeUnit.ofSource, CodeUnit.ofSource, htrees]

/-- Between two tokens with nothing between them, and inside a parenthesis: a
    comment with the end of its line. -/
theorem ofSource_relaid_unseparated :
    Boundary "(2x".toList ['(', '2'] ['x'] 1 ∧ Gap 1 ['x'] "#c\n".toList ∧
      ∀ t options, CodeUnit.ofSource t options "(2#c\nx" = CodeUnit.ofSource t options "(2x" := by
  have hopen : IsLexeme 0 ['('] .openParen ['2', 'x'] := ⟨.symbol rfl, nofun, nofun, nofun⟩
  have hends : ∀ c ∈ ['x'].head?, ¬ (Token.integer 2).goesOn c := fun c hc => by
    obtain rfl := Option.some.inj hc
    decide
  have htwo : IsLexeme 1 ['2'] (.integer 2) ['x'] :=
    ⟨.integer rfl nofun rfl, hends, nofun, nofun⟩
  have hx : IsLexeme 1 ['x'] (.ident "x") [] := ⟨.ident rfl nofun, nofun, nofun, nofun⟩
  have hone : Stand [⟨[], ['('], .openParen⟩] ['2', 'x'] :=
    Stand.concat (p := ⟨[], ['('], .openParen⟩) (stand_nil _) .nil hopen
  have hboth : Stand [⟨[], ['('], .openParen⟩, ⟨[], ['2'], .integer 2⟩] ['x'] :=
    Stand.concat (p := ⟨[], ['2'], .integer 2⟩) hone .nil htwo
  have hall : Stand ([⟨[], ['('], .openParen⟩, ⟨[], ['2'], .integer 2⟩] ++
      [⟨[], ['x'], .ident "x"⟩]) [] := hboth.concat .nil hx
  have hplace : Boundary "(2x".toList ['(', '2'] ['x'] 1 :=
    (hall.splits .nil).boundaries.1 _ _ rfl
  have hlayout : Gap 1 ['x'] ('#' :: (['c'] ++ ['\n'])) :=
    .comment (by decide) (fun c hc => (Option.some.inj hc).symm) (.blank (by decide) .nil)
  exact ⟨hplace, hlayout, (ofSource_relaid hplace hlayout rfl).2.2⟩

end Stacklet
