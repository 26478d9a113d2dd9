/-
  Scanning, told from the text.

  A scanner finds tokens where the text in front of it is a gap and a lexeme,
  and again a gap and a lexeme, up to a gap in front of the end (`Scans`). Seen
  from the whole text these are the pieces it splits into (`Splits`), and the
  position of a token is that behind all characters in front of it.

  * `scan_eq_ok_iff`: what a scanner finds is what `Scans` says;
  * `tokensOf_eq_ok_iff`: the tokens of a text are those of the pieces it
    splits into.
-/
import Mathlib.Data.List.Induction
import Stacklet.Proofs.Lexemes

namespace Stacklet

/-! ## What a scanner finds -/

/-- From position `p` on and inside `depth` parentheses, a text has these
    tokens. -/
inductive Scans : Position → (depth : Nat) → List Char → List PlacedToken → Prop
  | finish {p depth gap} : Gap depth [] gap → Scans p depth gap [⟨.endOfInput, p.pastAll gap⟩]
  | token {p depth gap lexeme t behind tokens} : Gap depth (lexeme ++ behind) gap →
      IsLexeme depth lexeme t behind →
      Scans (p.pastAll (gap ++ lexeme)) (t.depthPast depth) behind tokens →
      Scans p depth (gap ++ (lexeme ++ behind)) (⟨t, p.pastAll gap⟩ :: tokens)

section
variable {p : Position} {depth : Nat} {behind : List Char} {tokens : List PlacedToken}

theorem Scans.blank {c : Char} (hc : isBlank depth c) (h : Scans (p.past c) depth behind tokens) :
    Scans p depth (c :: behind) tokens := by
  have hc := isBlank_iff.1 hc
  cases h with
  | finish hgap => exact .finish (.blank hc hgap)
  | token hgap hlexeme h => exact .token (.blank hc hgap) hlexeme h

theorem Scans.comment {text : List Char} (htext : '\n' ∉ text)
    (hbehind : ∀ c ∈ behind.head?, c = '\n')
    (h : Scans (p.pastAll ('#' :: text)) depth behind tokens) :
    Scans p depth ('#' :: (text ++ behind)) tokens := by
  cases h with
  | finish hgap =>
    rw [← Position.pastAll_append]
    exact .finish (.comment htext (by rwa [List.append_nil]) hgap)
  | @token _ _ gap lexeme t behind tokens hgap hlexeme h =>
    rw [← Position.pastAll_append] at h ⊢
    have htoken := Scans.token (.comment htext hbehind hgap) hlexeme (by simpa using h)
    simpa using htoken

theorem scan_gap (found : Array PlacedToken) {gap : List Char} (h : Gap depth behind gap) :
    Scanner.scan found (gap ++ behind) p depth =
      Scanner.scan found behind (p.pastAll gap) depth := by
  induction h generalizing p with
  | nil => rfl
  | @blank c gap hc _ ih =>
    rw [List.cons_append, Scanner.scan, front_eq_gap_iff.2 (Or.inl ⟨isBlank_iff.2 hc, rfl⟩)]
    exact ih
  | @comment text gap htext hbehind _ ih =>
    have hmore : ((text ++ gap) ++ behind).takeWhile (· != '\n') = text :=
      takeWhile_eq_iff.2 ⟨gap ++ behind, List.append_assoc .., fun d hd => by
        simpa using fun he : d = '\n' => htext (he ▸ hd), fun c hc => by simp [hbehind c hc]⟩
    rw [List.cons_append, Scanner.scan, front_eq_gap_iff.2 (Or.inr ⟨rfl, hmore.symm⟩)]
    simp only [List.append_assoc, List.drop_left]
    rw [ih, ← Position.pastAll_append]
    rfl

theorem scan_lexeme (found : Array PlacedToken) {lexeme : List Char} {t : Token}
    (h : IsLexeme depth lexeme t behind) :
    Scanner.scan found (lexeme ++ behind) p depth =
      Scanner.scan (found.push ⟨t, p⟩) behind (p.pastAll lexeme) (t.depthPast depth) := by
  cases lexeme with
  | nil => cases h.spelling
  | cons c more =>
    rw [List.cons_append, Scanner.scan, h.front_eq]
    simp only [List.drop_left]

/-- **What a scanner finds.** -/
theorem scan_eq_ok_iff {found : Array PlacedToken} {ahead : List Char} :
    (Scanner.scan found ahead p depth).1 = .ok tokens ↔
      ∃ more, tokens = found.toList ++ more ∧ Scans p depth ahead more := by
  constructor
  · intro h
    fun_induction Scanner.scan found ahead p depth with
    | case1 p depth =>
      cases h
      exact ⟨_, Array.toList_push, .finish .nil⟩
    | case2 found c rest p depth more hfront ih =>
      obtain ⟨new, hnew, hscans⟩ := ih h
      refine ⟨new, hnew, ?_⟩
      rcases front_eq_gap_iff.1 hfront with ⟨hblank, rfl⟩ | ⟨rfl, hmore⟩
      · exact hscans.blank hblank
      · obtain ⟨behind, rfl, htext, hbehind⟩ := takeWhile_eq_iff.1 hmore.symm
        rw [List.drop_left] at hscans
        exact hscans.comment (fun hmem => by simpa using htext _ hmem) fun d hd => by
          simpa using hbehind d hd
    | case3 found c rest p depth t more hfront ih =>
      obtain ⟨new, hnew, hscans⟩ := ih h
      obtain ⟨behind, rfl, hlexeme⟩ := front_eq_lexeme_iff.1 hfront
      rw [List.drop_left] at hscans
      refine ⟨⟨t, p⟩ :: new, ?_, .token .nil hlexeme hscans⟩
      rw [hnew, Array.toList_push, List.append_assoc, List.singleton_append]
    | case4 => cases h
  · rintro ⟨more, rfl, hscans⟩
    induction hscans generalizing found with
    | @finish p depth gap hgap =>
      have hscan := scan_gap (p := p) found hgap
      rw [List.append_nil] at hscan
      rw [hscan, Scanner.scan, Array.toList_push]
    | @token p depth gap lexeme t behind tokens hgap hlexeme _ ih =>
      rw [scan_gap found hgap, scan_lexeme _ hlexeme, ← Position.pastAll_append, ih,
        Array.toList_push, List.append_assoc, List.singleton_append]

end

theorem tokensOf_iff_scans {source : String} {tokens : List PlacedToken} :
    tokensOf source = .ok tokens ↔ Scans .start 0 source.toList tokens := by
  rw [tokensOf, Scanner.run, Scanner.ofString, scan_eq_ok_iff]
  simp

/-! ## Positions -/

namespace Position

/-- The position behind a text: the line by the line ends, the column by the
    characters behind the last of them. -/
def behind (text : List Char) : Position :=
  ⟨1 + text.count '\n', 1 + (text.reverse.takeWhile (· ≠ '\n')).length⟩

theorem past_behind (text : List Char) (c : Char) :
    (behind text).past c = behind (text ++ [c]) := by
  by_cases hc : c = '\n'
  · simp [behind, past, hc, Nat.add_assoc]
  · simp [behind, past, hc, Nat.add_comm]

theorem pastAll_behind (text more : List Char) :
    (behind text).pastAll more = behind (text ++ more) := by
  induction more generalizing text with
  | nil => rw [List.append_nil, pastAll_nil]
  | cons c more ih =>
    rw [pastAll_cons, past_behind, ih, List.append_assoc, List.singleton_append]

end Position

/-! ## Parentheses -/

/-- How many of the parentheses that tokens open they leave open. -/
def openParens (tokens : List Token) : Nat := tokens.count .openParen - tokens.count .closeParen

/-- A token more, and the parentheses open behind it. -/
theorem openParens_concat {tokens : List Token} {t : Token}
    (h : tokens.count .closeParen ≤ tokens.count .openParen)
    (hclose : t = .closeParen → 0 < openParens tokens) :
    (tokens ++ [t]).count .closeParen ≤ (tokens ++ [t]).count .openParen ∧
      openParens (tokens ++ [t]) = t.depthPast (openParens tokens) := by
  have hcount (u : Token) : (tokens ++ [t]).count u = tokens.count u + if t = u then 1 else 0 := by
    rw [List.count_append, List.count_singleton]
    simp only [beq_iff_eq]
  rw [openParens] at hclose
  simp only [openParens, hcount]
  cases t
  case openParen =>
    simp only [Token.depthPast, reduceCtorEq, if_true, if_false]
    omega
  case closeParen =>
    have := hclose rfl
    simp only [Token.depthPast, reduceCtorEq, if_true, if_false]
    omega
  all_goals simpa [Token.depthPast] using h

/-! ## Pieces -/

/-- A lexeme with the gap in front of it and the token that it is. -/
structure Piece where
  gap : List Char
  lexeme : List Char
  token : Token

/-- The text of pieces in a row. -/
def textOf (pieces : List Piece) : List Char := pieces.flatMap fun p => p.gap ++ p.lexeme

/-- How many parentheses the pieces open. -/
def opened (pieces : List Piece) : Nat := (pieces.map Piece.token).count .openParen

/-- How many parentheses the pieces close. -/
def closed (pieces : List Piece) : Nat := (pieces.map Piece.token).count .closeParen

/-- The tokens of pieces behind a text. Each stands where its lexeme begins. -/
def placed : (front : List Char) → List Piece → List PlacedToken
  | _, [] => []
  | front, p :: ps =>
    ⟨p.token, .behind (front ++ p.gap)⟩ :: placed (front ++ (p.gap ++ p.lexeme)) ps

/-- In front of `behind`, every piece is a gap and a lexeme, inside the
    parentheses that the pieces before it leave open. -/
structure Stand (pieces : List Piece) (behind : List Char) : Prop where
  gap : ∀ before p after, pieces = before ++ p :: after →
    Gap (opened before - closed before) (p.lexeme ++ (textOf after ++ behind)) p.gap
  lexeme : ∀ before p after, pieces = before ++ p :: after →
    IsLexeme (opened before - closed before) p.lexeme p.token (textOf after ++ behind)

/-- A text consists of the pieces and a last gap, and the lexeme of each piece
    spells its token and no other. -/
structure Splits (source : List Char) (pieces : List Piece) (last : List Char) : Prop where
  text : source = textOf pieces ++ last
  stand : Stand pieces last
  token : ∀ p ∈ pieces, ∀ t, Spelling p.lexeme t ↔ t = p.token
  last : Gap (opened pieces - closed pieces) [] last

@[simp] theorem textOf_append (ps qs : List Piece) : textOf (ps ++ qs) = textOf ps ++ textOf qs :=
  List.flatMap_append

@[simp] theorem textOf_cons (p : Piece) (ps : List Piece) :
    textOf (p :: ps) = p.gap ++ (p.lexeme ++ textOf ps) := List.append_assoc ..

@[simp] theorem textOf_nil : textOf [] = [] := rfl

theorem placed_concat (front : List Char) (ps : List Piece) (p : Piece) :
    placed front (ps ++ [p]) =
      placed front ps ++ [⟨p.token, .behind (front ++ (textOf ps ++ p.gap))⟩] := by
  induction ps generalizing front with
  | nil => rfl
  | cons q ps ih =>
    rw [List.cons_append, placed, ih, placed]
    simp

/-- A piece more, and the parentheses open behind it. -/
theorem open_concat {before : List Piece} {p : Piece} (h : closed before ≤ opened before)
    (hclose : p.token = .closeParen → 0 < opened before - closed before) :
    closed (before ++ [p]) ≤ opened (before ++ [p]) ∧
      opened (before ++ [p]) - closed (before ++ [p]) =
        p.token.depthPast (opened before - closed before) := by
  rw [opened, closed, List.map_append, List.map_singleton]
  exact openParens_concat h hclose

theorem stand_nil (behind : List Char) : Stand [] behind where
  gap before p after h := by simp at h
  lexeme before p after h := by simp at h

/-- A piece more, behind pieces that stand in front of it. -/
theorem Stand.concat {pieces : List Piece} {p : Piece} {behind : List Char}
    (h : Stand pieces (p.gap ++ (p.lexeme ++ behind)))
    (hgap : Gap (opened pieces - closed pieces) (p.lexeme ++ behind) p.gap)
    (hlexeme : IsLexeme (opened pieces - closed pieces) p.lexeme p.token behind) :
    Stand (pieces ++ [p]) behind := by
  -- a piece of them all is the last one or one of those before it
  have hsplit {before after : List Piece} {q : Piece} (hq : pieces ++ [p] = before ++ q :: after) :
      (after = [] ∧ before = pieces ∧ q = p) ∨
        ∃ after', after = after' ++ [p] ∧ pieces = before ++ q :: after' := by
    obtain rfl | ⟨after', r, rfl⟩ := after.eq_nil_or_concat
    · obtain ⟨hbefore, hpq⟩ := List.append_inj' hq rfl
      exact Or.inl ⟨rfl, hbefore.symm, (List.cons.inj hpq).1.symm⟩
    · rw [List.concat_eq_append, ← List.cons_append, ← List.append_assoc] at hq
      obtain ⟨hpieces, hpr⟩ := List.append_inj' hq rfl
      obtain rfl := (List.cons.inj hpr).1
      exact Or.inr ⟨after', List.concat_eq_append, hpieces⟩
  refine ⟨fun before q after hq => ?_, fun before q after hq => ?_⟩
  · obtain ⟨rfl, rfl, rfl⟩ | ⟨after', rfl, hbefore⟩ := hsplit hq
    · exact hgap
    · simpa using h.gap before q after' hbefore
  · obtain ⟨rfl, rfl, rfl⟩ | ⟨after', rfl, hbefore⟩ := hsplit hq
    · exact hlexeme
    · simpa using h.lexeme before q after' hbefore

/-- Pieces scanned so far extend to all pieces. -/
theorem Scans.exists_splits {p : Position} {depth : Nat} {ahead : List Char}
    {tokens : List PlacedToken} (h : Scans p depth ahead tokens) (done : List Piece)
    (hp : p = .behind (textOf done)) (hdepth : depth = opened done - closed done)
    (hopen : closed done ≤ opened done) (hstand : Stand done ahead) :
    ∃ pieces last, textOf done ++ ahead = textOf pieces ++ last ∧ Stand pieces last ∧
      Gap (opened pieces - closed pieces) [] last ∧
      placed [] done ++ tokens =
        placed [] pieces ++ [⟨.endOfInput, .behind (textOf done ++ ahead)⟩] := by
  induction h generalizing done with
  | @finish p depth gap hgap =>
    subst hp hdepth
    exact ⟨done, gap, rfl, hstand, hgap, by rw [Position.pastAll_behind]⟩
  | @token p depth gap lexeme t behind tokens hgap hlexeme _ ih =>
    subst hp hdepth
    obtain ⟨hopen', hdepth'⟩ := open_concat (p := ⟨gap, lexeme, t⟩) hopen hlexeme.closeParen
    obtain ⟨pieces, last, htext, hpieces, hlast, htokens⟩ :=
      ih (done ++ [⟨gap, lexeme, t⟩]) (by simp [Position.pastAll_behind]) hdepth'.symm hopen'
        (hstand.concat hgap hlexeme)
    refine ⟨pieces, last, by simpa using htext, hpieces, hlast, ?_⟩
    rw [placed_concat] at htokens
    simpa [Position.pastAll_behind] using htokens

/-- A scanner finds the pieces that a text begins with. -/
theorem Stand.scan_eq {pieces : List Piece} {behind : List Char} (h : Stand pieces behind)
    (done after : List Piece) (hsplit : pieces = done ++ after) (hopen : closed done ≤ opened done)
    (found : List PlacedToken) :
    Scanner.scan found.toArray (textOf after ++ behind) (.behind (textOf done))
        (opened done - closed done) =
      Scanner.scan (found ++ placed (textOf done) after).toArray behind
        (.behind (textOf pieces)) (opened pieces - closed pieces) := by
  induction after generalizing done found with
  | nil =>
    rw [List.append_nil] at hsplit
    subst hsplit
    simp [placed]
  | cons p after ih =>
    have hgap := h.gap done p after hsplit
    have hlexeme := h.lexeme done p after hsplit
    obtain ⟨hopen', hdepth'⟩ := open_concat hopen hlexeme.closeParen
    have hscan := ih (done ++ [p]) (by simp [hsplit]) hopen'
      (found ++ [⟨p.token, .behind (textOf done ++ p.gap)⟩])
    rw [hdepth'] at hscan
    rw [textOf_cons, List.append_assoc, List.append_assoc, scan_gap _ hgap,
      scan_lexeme _ hlexeme, Position.pastAll_behind, Position.pastAll_behind]
    simpa [placed] using hscan

/-- From the beginning of a text, a scanner comes behind the pieces and a gap
    that the text begins with. -/
theorem Stand.scan_start_eq {pieces : List Piece} {gap behind : List Char}
    (h : Stand pieces (gap ++ behind)) (hgap : Gap (opened pieces - closed pieces) behind gap) :
    Scanner.scan #[] (textOf pieces ++ (gap ++ behind)) .start 0 =
      Scanner.scan (placed [] pieces).toArray behind (.behind (textOf pieces ++ gap))
        (opened pieces - closed pieces) := by
  have hscan := h.scan_eq [] pieces rfl le_rfl []
  rw [scan_gap _ hgap, Position.pastAll_behind] at hscan
  exact hscan

/-- Pieces behind those done are scanned. -/
theorem Stand.scans {pieces : List Piece} {last : List Char} (h : Stand pieces last)
    (hlast : Gap (opened pieces - closed pieces) [] last) (done after : List Piece)
    (hsplit : pieces = done ++ after) (hopen : closed done ≤ opened done) :
    Scans (.behind (textOf done)) (opened done - closed done) (textOf after ++ last)
      (placed (textOf done) after ++ [⟨.endOfInput, .behind (textOf pieces ++ last)⟩]) := by
  have hscan := h.scan_eq done after hsplit hopen []
  have hend := scan_gap (p := .behind (textOf pieces)) (placed (textOf done) after).toArray hlast
  rw [List.append_nil] at hend
  rw [List.nil_append] at hscan
  rw [hend, Scanner.scan, Position.pastAll_behind] at hscan
  obtain ⟨tokens, htokens, hscans⟩ := scan_eq_ok_iff.1 (congrArg Prod.fst hscan)
  obtain rfl : tokens = _ := by simpa using htokens.symm
  exact hscans

/-- A text of pieces that stand in front of a last gap splits into them. -/
theorem Stand.splits {pieces : List Piece} {last : List Char} (h : Stand pieces last)
    (hlast : Gap (opened pieces - closed pieces) [] last) :
    Splits (textOf pieces ++ last) pieces last := by
  refine ⟨rfl, h, fun p hp t => ?_, hlast⟩
  obtain ⟨before, after, rfl⟩ := List.append_of_mem hp
  have hp := (h.lexeme before p after rfl).spelling
  exact ⟨fun ht => ht.unique hp, fun ht => ht ▸ hp⟩

/-- **The tokens of a text.** A text has tokens iff it splits into gaps and
    lexemes, and then they are the tokens of the lexemes, each at the position
    behind all characters in front of it. -/
theorem tokensOf_eq_ok_iff {source : String} {tokens : List PlacedToken} :
    tokensOf source = .ok tokens ↔ ∃ pieces last, Splits source.toList pieces last ∧
      tokens = placed [] pieces ++ [⟨.endOfInput, .behind source.toList⟩] := by
  rw [tokensOf_iff_scans]
  constructor
  · intro h
    obtain ⟨pieces, last, htext, hstand, hlast, htokens⟩ :=
      h.exists_splits [] rfl rfl le_rfl (stand_nil _)
    rw [textOf_nil, List.nil_append] at htext
    exact ⟨pieces, last, htext ▸ hstand.splits hlast, htokens⟩
  · rintro ⟨pieces, last, ⟨htext, hstand, -, hlast⟩, rfl⟩
    rw [htext]
    exact hstand.scans hlast [] pieces rfl le_rfl

end Stacklet
