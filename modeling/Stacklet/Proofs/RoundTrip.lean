/-
  Written trees are read back.

  The tokens of a block of the grammar close no parenthesis that is not open,
  have no separator inside parentheses and no two words side by side
  (`Readable`). However they are spelled, the scanner then finds them again, and
  the parser reads the tree of the grammar (`ofSource_of_spells`).

  * `expression_tokens`: the tokens of an expression are a phrase for it;
  * `ofSource_written`: a text of a block is read as the block.
-/
import Stacklet.Proofs.Parsing
import Stacklet.Proofs.Scanning
import Stacklet.Proofs.Writing

namespace Stacklet

open Phrase

/-! ## Readable tokens -/

/-- A token that a character behind it could belong to. -/
def Token.isWord : Token → Bool
  | .ident _ | .integer _ | .float _ => true
  | _ => false

/-- No word comes first. -/
def NoWord (ts : List Token) : Prop := ∀ t ∈ ts.head?, t.isWord = false

/-- From inside `depth` parentheses on, separating line ends stand outside all
    parentheses, every closing parenthesis has an open one, and no two words
    stand side by side. -/
def Readable : (depth : Nat) → List Token → Prop
  | _, [] => True
  | depth, t :: ts => (t = .newline → depth = 0) ∧ (t = .closeParen → 0 < depth) ∧
      (t.isWord → NoWord ts) ∧ Readable (t.depthPast depth) ts

theorem goesOn_of_not_isWord {t : Token} (h : t.isWord = false) (c : Char) :
    t.goesOn c = false := by
  cases t with
  | ident | integer | float => cases h
  | _ => rfl

theorem not_goesOn_of_spelling {lexeme behind : List Char} {t u : Token} (h : Spelling lexeme u)
    (hu : u.isWord = false) : ∀ c ∈ (lexeme ++ behind).head?, ¬ t.goesOn c := by
  intro c hc hgoes
  cases h with
  | symbol hsymbol =>
    obtain rfl := Option.some.inj hc
    rw [(not_isBlank_of_isIdentChar (isIdentChar_of_goesOn hgoes) 0).2.2] at hsymbol
    cases hsymbol
  | ident | integer | float | point => cases hu

theorem Spells.not_goesOn {depth : Nat} {ts : List Token} {text : List Char}
    (h : Spells depth ts text) (hts : NoWord ts) (t : Token) :
    ∀ c ∈ text.head?, ¬ t.goesOn c := by
  cases h with
  | nil hgap => simpa using not_goesOn_of_gap (t := t) hgap nofun
  | cons hgap hspelling _ =>
    exact not_goesOn_of_gap hgap (not_goesOn_of_spelling hspelling (hts _ rfl))

/-- Readable tokens are found again, however they are spelled. -/
theorem Spells.exists_scans {depth : Nat} {ts : List Token} {text : List Char}
    (h : Spells depth ts text) (hreadable : Readable depth ts) (p : Position) :
    ∃ tokens, Scans p depth text tokens ∧ tokens.map PlacedToken.token = ts ++ [.endOfInput] := by
  induction h generalizing p with
  | nil hgap => exact ⟨_, .finish hgap, rfl⟩
  | @cons depth gap lexeme behind t ts hgap hspelling hspells ih =>
    obtain ⟨hnewline, hclose, hword, hts⟩ := hreadable
    obtain ⟨tokens, hscans, htokens⟩ := ih hts (p.pastAll (gap ++ lexeme))
    have hmaximal : ∀ c ∈ behind.head?, ¬ t.goesOn c := by
      by_cases htword : t.isWord
      · exact hspells.not_goesOn (hword htword) t
      · intro c _
        rw [goesOn_of_not_isWord (by simpa using htword)]
        exact Bool.false_ne_true
    exact ⟨_, .token hgap ⟨hspelling, hmaximal, hnewline, hclose⟩ hscans,
      congrArg (t :: ·) htokens⟩

/-! ## Phrases are readable -/

/-- From inside `depth` parentheses on, the tokens of the phrase are readable in
    front of readable tokens that begin with no word. -/
def Phrase.IsReadable {α : Type} (depth : Nat) (P : Phrase α) : Prop :=
  ∀ ⦃ts a rest⦄, P ts a → Readable depth rest → NoWord rest → Readable depth (ts ++ rest)

/-- A phrase begins with a token that is no word. -/
def Phrase.IsLed {α : Type} (P : Phrase α) : Prop :=
  ∀ ⦃ts a rest⦄, P ts a → NoWord (ts ++ rest)

/-- A token that is no word, no line end and no parenthesis. -/
def Token.IsMark (t : Token) : Prop :=
  t.isWord = false ∧ t ≠ .newline ∧ ∀ depth, t ≠ .closeParen ∧ t.depthPast depth = depth

theorem noWord_cons {t : Token} (h : t.isWord = false) (ts : List Token) : NoWord (t :: ts) := by
  intro u hu
  obtain rfl := Option.some.inj hu
  exact h

section
variable {α : Type} {P : Phrase α} {depth : Nat} {t : Token} {rest : List Token}

theorem Token.IsMark.readable_cons (ht : t.IsMark) (h : Readable depth rest) :
    Readable depth (t :: rest) := by
  obtain ⟨hword, hnewline, hdepth⟩ := ht
  obtain ⟨hclose, hpast⟩ := hdepth depth
  refine ⟨fun he => absurd he hnewline, fun he => absurd he hclose, fun he => ?_, ?_⟩
  · rw [hword] at he
    cases he
  · rwa [hpast]

theorem readable_word (ht : t.isWord) (h : Readable depth rest) (hrest : NoWord rest) :
    Readable depth (t :: rest) := by
  cases t with
  | ident | integer | float => exact ⟨nofun, nofun, fun _ => hrest, h⟩
  | _ => cases ht

theorem readable_many (h : IsReadable depth P) (hled : IsLed P) {us : List Token} {as : List α}
    (hmany : Many P us as) (hreadable : Readable depth rest) (hrest : NoWord rest) :
    Readable depth (us ++ rest) ∧ NoWord (us ++ rest) := by
  induction hmany with
  | nil => exact ⟨hreadable, hrest⟩
  | cons hp _ ih =>
    rw [List.append_assoc]
    exact ⟨h hp ih.1 ih.2, hled hp⟩

theorem isReadable_parenthesized (h : IsReadable (depth + 1) P) :
    IsReadable depth (Parenthesized P) := by
  rintro _ _ rest ⟨hp⟩ hreadable hrest
  have hclose : Readable (depth + 1) (.closeParen :: rest) :=
    ⟨nofun, fun _ => Nat.succ_pos depth, nofun, hreadable⟩
  rw [List.cons_append, List.append_assoc]
  exact ⟨nofun, nofun, nofun, h hp hclose (noWord_cons rfl _)⟩

theorem isReadable_listed (ht : t.IsMark) (h : IsReadable depth P) :
    IsReadable depth (Listed t P) := by
  rintro _ _ rest ⟨hfirst, hmany⟩ hreadable hrest
  have hafter : IsReadable depth (After t P) := by
    rintro _ _ rest ⟨hp⟩ hreadable hrest
    exact ht.readable_cons (h hp hreadable hrest)
  have hled : IsLed (After t P) := by
    rintro _ _ rest ⟨_⟩
    exact noWord_cons ht.1 _
  obtain ⟨hmore, hnoWord⟩ := readable_many hafter hled hmany hreadable hrest
  rw [List.append_assoc]
  exact h hfirst hmore hnoWord

end

section
variable {E : Phrase Tree} {depth : Nat}

theorem isReadable_chain {operator : Token → BinOp → Prop}
    (hoperator : ∀ {t op}, operator t op → t.IsMark) (h : IsReadable depth E) :
    IsReadable depth (Chain operator E) := by
  rintro _ _ rest ⟨hfirst, hmany⟩ hreadable hrest
  have hoperated : IsReadable depth (Operated operator E) := by
    rintro _ _ rest ⟨ht, hright⟩ hreadable hrest
    exact (hoperator ht).readable_cons (h hright hreadable hrest)
  have hled : IsLed (Operated operator E) := by
    rintro _ _ rest ⟨ht, _⟩
    exact noWord_cons (hoperator ht).1 _
  obtain ⟨hmore, hnoWord⟩ := readable_many hoperated hled hmany hreadable hrest
  rw [List.append_assoc]
  exact h hfirst hmore hnoWord

theorem isMark_comma : Token.comma.IsMark := ⟨rfl, nofun, fun _ => ⟨nofun, rfl⟩⟩

theorem isReadable_arguments (h : IsReadable depth E) : IsReadable depth (Arguments E) := by
  intro _ _ rest hargs hreadable hrest
  cases hargs with
  | none => exact hreadable
  | some hlist => exact isReadable_listed isMark_comma h hlist hreadable hrest
  | trailing hlist =>
    rw [List.append_assoc]
    exact isReadable_listed isMark_comma h hlist (isMark_comma.readable_cons hreadable)
      (noWord_cons rfl _)

theorem isReadable_application (h : IsReadable (depth + 1) E) :
    IsReadable depth (Application E) := by
  rintro _ _ rest ⟨hatom, hmany⟩ hreadable hrest
  have hlists := isReadable_parenthesized (isReadable_arguments h)
  have hled : IsLed (Parenthesized (Arguments E)) := by
    rintro _ _ rest ⟨_⟩
    exact noWord_cons rfl _
  obtain ⟨hmore, hnoWord⟩ := readable_many hlists hled hmany hreadable hrest
  rw [List.append_assoc]
  cases hatom with
  | integer | float | name => exact readable_word rfl hmore hnoWord
  | group hgroup => exact isReadable_parenthesized h hgroup hmore hnoWord

end

theorem isReadable_expression (room depth : Nat) : IsReadable depth (Phrase.expression room) := by
  induction room generalizing depth with
  | zero => exact fun _ _ _ h => h.elim
  | succ room ih =>
    refine isReadable_chain ?_ (isReadable_chain ?_ (isReadable_application (ih (depth + 1))))
    · rintro _ _ (_ | _)
      all_goals exact ⟨rfl, nofun, fun _ => ⟨nofun, rfl⟩⟩
    · rintro _ _ (_ | _ | _)
      all_goals exact ⟨rfl, nofun, fun _ => ⟨nofun, rfl⟩⟩

theorem isReadable_statement (depth : Nat) : IsReadable depth Statement := by
  intro _ _ rest hstatement hreadable hrest
  have hassign : Token.assign.IsMark := ⟨rfl, nofun, fun _ => ⟨nofun, rfl⟩⟩
  obtain ⟨lists, hlists, -⟩ := statement_iff.1 hstatement
  exact isReadable_listed hassign (isReadable_listed isMark_comma (isReadable_expression _ depth))
    hlists hreadable hrest

/-- Outside all parentheses, separators are readable. -/
theorem readable_separators {seps : List Token} (h : Separators seps) {rest : List Token}
    (hrest : Readable 0 rest) : Readable 0 (seps ++ rest) := by
  induction seps with
  | nil => exact hrest
  | cons t seps ih =>
    obtain ⟨ht, hseps⟩ := separators_cons.1 h
    cases ht with
    | newline | semicolon => exact ⟨fun _ => rfl, nofun, nofun, ih hseps⟩

theorem noWord_of_separator {t : Token} (ht : Separator t) (ts : List Token) :
    NoWord (t :: ts) := by
  cases ht <;> exact noWord_cons rfl ts

theorem isReadable_nextStatement : IsReadable 0 NextStatement := by
  rintro _ _ rest ⟨ht, hseps, hstatement⟩ hreadable hrest
  have hmore := isReadable_statement 0 hstatement hreadable hrest
  rw [List.cons_append, List.append_assoc]
  exact readable_separators (separators_cons.2 ⟨ht, hseps⟩) hmore

/-- The tokens of blocks are readable. -/
theorem readable_block {ts : List Token} {tree : Tree} (h : Block ts tree) : Readable 0 ts := by
  have hseparators {seps : List Token} (hseps : Separators seps) : Readable 0 seps := by
    have hreadable := readable_separators hseps (show Readable 0 [] from trivial)
    rwa [List.append_nil] at hreadable
  cases h with
  | blank hseps => exact hseparators hseps
  | @mk seps ts us seps' first rest hseps hfirst hmany hseps' =>
    have hled : IsLed NextStatement := by
      rintro _ _ rest ⟨ht, _, _⟩
      exact noWord_of_separator ht _
    have hnoWord : NoWord seps' := by
      cases seps' with
      | nil => exact nofun
      | cons t seps' => exact noWord_of_separator (separators_cons.1 hseps').1 seps'
    obtain ⟨hmore, hnoWord⟩ :=
      readable_many isReadable_nextStatement hled hmany (hseparators hseps') hnoWord
    exact readable_separators hseps (isReadable_statement 0 hfirst hmore hnoWord)

/-! ## Texts of blocks -/

theorem Spelling.ne_endOfInput {lexeme : List Char} {t : Token} (h : Spelling lexeme t) :
    t ≠ .endOfInput := by
  rintro rfl
  cases h with
  | symbol hc =>
    unfold symbol? at hc
    split at hc
    all_goals cases hc

theorem Spells.ne_endOfInput {depth : Nat} {ts : List Token} {text : List Char}
    (h : Spells depth ts text) : ∀ t ∈ ts, t ≠ .endOfInput := by
  induction h with
  | nil => exact nofun
  | cons _ hspelling _ ih => exact List.forall_mem_cons.2 ⟨hspelling.ne_endOfInput, ih⟩

/-- A text that spells the tokens of a block is read as the tree of the block. -/
theorem ofSource_of_spells {source : String} {ts : List Token} {tree : Tree}
    (hblock : Block ts tree) (hspells : Spells 0 ts source.toList) :
    Tree.ofSource source = .ok tree := by
  obtain ⟨tokens, hscans, htokens⟩ := hspells.exists_scans (readable_block hblock) .start
  have htokensOf := tokensOf_iff_scans.2 hscans
  have hstream : (TokenStream.ofTokens tokens).tokens = ts ++ [] := by
    have hall : ∀ t ∈ ts, decide (t ≠ .endOfInput) := fun t ht =>
      decide_eq_true (hspells.ne_endOfInput t ht)
    show (tokens.map PlacedToken.token).takeWhile (· ≠ .endOfInput) = ts ++ []
    rw [htokens, List.takeWhile_append_of_pos hall]
    rfl
  obtain ⟨s, hr, -⟩ := reads_block.complete trivial hstream ⟨rfl, hblock⟩
  have htree : Tree.ofTokens tokens = .ok tree := by
    rw [Tree.ofTokens, Tree.ofStream, hr]
  rw [Tree.ofSource, htokensOf]
  simp only [htree]

/-! ## The phrases of written trees -/

/-- The phrases of a level, with room for expressions inside them. -/
def phraseAt (room : Nat) : (level : Nat) → Phrase Tree
  | 0 => Chain SumOperator (Chain ProductOperator (Application (Phrase.expression room)))
  | 1 => Chain ProductOperator (Application (Phrase.expression room))
  | _ => Application (Phrase.expression room)

theorem chain_single {operator : Token → BinOp → Prop} {operand : Phrase Tree} {ts : List Token}
    {t : Tree} (h : operand ts t) : Chain operator operand ts t := by
  rw [← List.append_nil ts]
  exact .mk h .nil

theorem many_snoc {α : Type} {P : Phrase α} {ts us : List Token} {as : List α} {a : α}
    (hmany : Many P ts as) (h : P us a) : Many P (ts ++ us) (as ++ [a]) := by
  induction hmany with
  | nil =>
    rw [List.nil_append, ← List.append_nil us]
    exact .cons h .nil
  | cons hp _ ih =>
    rw [List.append_assoc]
    exact .cons hp ih

/-- A chain goes on with one more operand. -/
theorem chain_snoc {operator : Token → BinOp → Prop} {operand : Phrase Tree} {ts us : List Token}
    {t : Token} {op : BinOp} {left right : Tree} (hleft : Chain operator operand ts left)
    (ht : operator t op) (hright : operand us right) :
    Chain operator operand (ts ++ t :: us) (.binary left op right) := by
  obtain ⟨hfirst, hmany⟩ := hleft
  have hchain := Chain.mk hfirst (many_snoc hmany (.mk ht hright))
  rwa [← List.append_assoc, List.foldl_append] at hchain

theorem application_snoc {E : Phrase Tree} {ts us : List Token} {callee : Tree} {args : List Tree}
    (hcallee : Application E ts callee) (hargs : Arguments E us args) :
    Application E (ts ++ .openParen :: (us ++ [.closeParen])) (.call callee args) := by
  obtain ⟨hatom, hmany⟩ := hcallee
  have happlication := Application.mk hatom (many_snoc hmany (.mk hargs))
  rwa [← List.append_assoc, List.foldl_append] at happlication

theorem application_of_atom {E : Phrase Tree} {ts : List Token} {t : Tree} (h : Atom E ts t) :
    Application E ts t := by
  rw [← List.append_nil ts]
  exact .mk h .nil

section
variable {room level : Nat} {ts us : List Token} {t left right : Tree}

theorem phraseAt_of_application (h : Application (Phrase.expression room) ts t) (level : Nat) :
    phraseAt room level ts t :=
  match level with
  | 0 => chain_single (chain_single h)
  | 1 => chain_single h
  | _ + 2 => h

/-- What stands at a level may stand at a lower one. -/
theorem phraseAt_of_le {level' : Nat} (hle : level ≤ level') (h : phraseAt room level' ts t) :
    phraseAt room level ts t := by
  match level' with
  | 0 =>
    obtain rfl := Nat.le_zero.1 hle
    exact h
  | 1 =>
    obtain rfl | rfl := Nat.le_one_iff_eq_zero_or_eq_one.1 hle
    · exact chain_single h
    · exact h
  | _ + 2 => exact phraseAt_of_application h level

theorem phraseAt_binary (op : BinOp) (hleft : phraseAt room op.level ts left)
    (hright : phraseAt room (op.level + 1) us right) :
    phraseAt room op.level (ts ++ op.token :: us) (.binary left op right) := by
  cases op with
  | add => exact chain_snoc hleft .plus hright
  | sub => exact chain_snoc hleft .minus hright
  | mul => exact chain_snoc hleft .star hright
  | div => exact chain_snoc hleft .slash hright
  | mod => exact chain_snoc hleft .percent hright

/-- Parentheses take room, and stand at any level. -/
theorem phraseAt_parenthesized (h : phraseAt room 0 ts t) (level : Nat) :
    phraseAt (room + 1) level (.openParen :: (ts ++ [.closeParen])) t :=
  have hexpression : Phrase.expression (room + 1) ts t := h
  phraseAt_of_application (application_of_atom (.group (.mk hexpression))) level

end

theorem nestingOfEach_le_iff {ts : List Tree} {room : Nat} :
    Tree.nestingOfEach ts ≤ room ↔ ∀ t ∈ ts, t.nesting 0 < room := by
  induction ts with
  | nil => simp [Tree.nestingOfEach]
  | cons t ts ih => rw [Tree.nestingOfEach, Nat.max_le, ih, List.forall_mem_cons, Nat.succ_le_iff]

/-- Items with commas between them. -/
theorem listed_map {α : Type} {P : Phrase α} {f : α → List Token} {as : List α} (hne : as ≠ [])
    (h : ∀ a ∈ as, P (f a) a) : Listed .comma P (listed (as.map f)) as := by
  cases as with
  | nil => exact absurd rfl hne
  | cons a as =>
    obtain ⟨ha, has⟩ := List.forall_mem_cons.1 h
    refine .mk ha ?_
    clear h ha hne
    induction as with
    | nil => exact .nil
    | cons b as ih =>
      obtain ⟨hb, has⟩ := List.forall_mem_cons.1 has
      exact .cons (.mk hb) (ih has)

/-- **Expressions.** The tokens of an expression are a phrase for it at its
    level, with the room that it nests in. -/
theorem phraseAt_tokens {e : Tree} (h : e.IsExpression) {level room : Nat}
    (hroom : e.nesting level ≤ room) : phraseAt room level (e.tokens level) e := by
  induction h generalizing level room with
  | name => exact phraseAt_of_application (application_of_atom (.name _)) level
  | int => exact phraseAt_of_application (application_of_atom (.integer _)) level
  | float => exact phraseAt_of_application (application_of_atom (.float _)) level
  | @binary left op right _ _ ihl ihr =>
    rw [Tree.nesting] at hroom
    rw [Tree.tokens, grouped]
    by_cases hgroup : op.level < level
    · simp only [hgroup, if_true, decide_true] at hroom ⊢
      obtain ⟨room, rfl⟩ : ∃ room', room = room' + 1 := ⟨room - 1, by omega⟩
      have hbinary : phraseAt room op.level _ (.binary left op right) :=
        phraseAt_binary op (ihl (by omega)) (ihr (by omega))
      exact phraseAt_parenthesized (phraseAt_of_le (Nat.zero_le _) hbinary) level
    · simp only [hgroup, if_false, decide_false] at hroom ⊢
      exact phraseAt_of_le (not_lt.1 hgroup) (phraseAt_binary op (ihl (by omega)) (ihr (by omega)))
  | @call callee args _ _ ihc ihargs =>
    rw [Tree.nesting] at hroom
    rw [Tree.tokens, tokensOfEach_eq]
    have hcallee : phraseAt room 2 (callee.tokens 2) callee := ihc (by omega)
    have hargs : Arguments (Phrase.expression room) (listed (args.map (Tree.tokens 0))) args := by
      by_cases hne : args = []
      · subst hne
        exact .none
      · have hnesting := nestingOfEach_le_iff.1 (le_trans (le_max_right _ _) hroom)
        refine .some (listed_map hne fun arg harg => ?_)
        have hlt := hnesting arg harg
        obtain ⟨room, rfl⟩ : ∃ room', room = room' + 1 := ⟨room - 1, by omega⟩
        have harg : phraseAt room 0 (arg.tokens 0) arg := ihargs arg harg (by omega)
        exact harg
    exact phraseAt_of_application (application_snoc hcallee hargs) level

theorem expression_tokens {e : Tree} (h : e.IsExpression) (hnesting : e.nesting 0 < maxNesting) :
    Expression (e.tokens 0) e := by
  obtain ⟨room, hroom⟩ : ∃ room, maxNesting = room + 1 := ⟨199, rfl⟩
  have hphrase : phraseAt room 0 (e.tokens 0) e := phraseAt_tokens h (by omega)
  rw [Expression, hroom]
  exact hphrase

theorem many_targets {targets : List Target} (h : ∀ t ∈ targets, t.IsTarget)
    (hnesting : ∀ e ∈ targets.flatMap Target.parts, e.nesting 0 < maxNesting) :
    Many (Before ExpressionList .assign)
      (targets.flatMap fun t => listed (t.parts.map (Tree.tokens 0)) ++ [.assign])
      (targets.map Target.parts) := by
  induction targets with
  | nil => exact .nil
  | cons t targets ih =>
    obtain ⟨ht, htargets⟩ := List.forall_mem_cons.1 h
    obtain ⟨hne, -, hparts⟩ := ht.parts_spec
    rw [List.flatMap_cons] at hnesting
    obtain ⟨hfirst, hmore⟩ := List.forall_mem_append.1 hnesting
    have hlist : ExpressionList (listed (t.parts.map (Tree.tokens 0))) t.parts :=
      listed_map hne fun e he => expression_tokens (hparts e he) (hfirst e he)
    exact .cons (.mk hlist) (ih htargets hmore)

/-- The tokens of a statement are one, if its expressions do not nest too
    deeply. -/
theorem statement_tokens {s : Tree} (h : s.IsStatement)
    (hnesting : ∀ e ∈ s.wholes, e.nesting 0 < maxNesting) : Statement s.statementTokens s := by
  cases h with
  | expr h => exact .value (expression_tokens h (hnesting _ List.mem_cons_self))
  | @assign targets value hne htargets h =>
    obtain ⟨hparts, hvalue⟩ := List.forall_mem_append.1 hnesting
    have hlists := many_targets htargets hparts
    have hstatement := Statement.assignment hlists (mt List.map_eq_nil_iff.1 hne)
      (expression_tokens h (hvalue _ List.mem_cons_self))
    have hmap : (targets.map Target.parts).map Target.ofList = targets := by
      rw [List.map_map]
      exact (List.map_congr_left fun t ht => (htargets t ht).parts_spec.2.1).trans (List.map_id _)
    rwa [hmap] at hstatement

theorem Following.many {body : List Tree} {ts : List Token} (h : Following body ts)
    (hbody : ∀ s ∈ body, Statement s.statementTokens s) :
    ∃ us seps, ts = us ++ seps ∧ Many NextStatement us body ∧ Separators seps := by
  induction h with
  | @done seps hseps => exact ⟨[], seps, rfl, .nil, hseps⟩
  | next hsep hseps _ ih =>
    obtain ⟨hs, hbody⟩ := List.forall_mem_cons.1 hbody
    obtain ⟨us, seps', rfl, hmany, hseps'⟩ := ih hbody
    exact ⟨_, seps', by simp, .cons (.mk hsep hseps hs) hmany, hseps'⟩

theorem Writes.block {body : List Tree} {ts : List Token} (h : Writes body ts)
    (hbody : ∀ s ∈ body, Statement s.statementTokens s) : Block ts (.block body) := by
  cases h with
  | blank hseps => exact .blank hseps
  | mk hseps hfollowing =>
    obtain ⟨hs, hbody⟩ := List.forall_mem_cons.1 hbody
    obtain ⟨us, seps', rfl, hmany, hseps'⟩ := hfollowing.many hbody
    exact .mk hseps hs hmany hseps'

/-- **Round trip through source text.** A block of statements that can be
    written, and whose expressions nest no deeper than they may, has a text, and
    each of its texts is read as the block. -/
theorem ofSource_written {body : List Tree} (hbody : ∀ s ∈ body, s.IsStatement)
    (hnesting : ∀ s ∈ body, ∀ e ∈ s.wholes, e.nesting 0 < maxNesting) :
    (∃ text, IsWritten body text) ∧
      ∀ text, IsWritten body text → Tree.ofSource text = .ok (.block body) := by
  refine ⟨exists_isWritten hbody, fun text => ?_⟩
  rintro ⟨ts, hwrites, hspells⟩
  have hblock := hwrites.block fun s hs => statement_tokens (hbody s hs) (hnesting s hs)
  exact ofSource_of_spells hblock hspells

/-- `(a - 1) * f(b)` -/
def Tree.scaled : Tree :=
  .binary (.binary (.name "a") .sub (.num (.int 1))) .mul (.call (.name "f") [.name "b"])

theorem isStatement_scaled : (Tree.expr .scaled).IsStatement := by
  have ha : IsIdent "a" := ⟨'a', [], rfl, by decide, nofun⟩
  have hb : IsIdent "b" := ⟨'b', [], rfl, by decide, nofun⟩
  have hf : IsIdent "f" := ⟨'f', [], rfl, by decide, nofun⟩
  exact .expr (.binary (.binary (.name ha) (.int (by decide)))
    (.call (.name hf) (List.forall_mem_singleton.2 (.name hb))))

theorem isWritten_scaled : IsWritten [.expr .scaled] "(a - 1) * f(b)" := by
  have hnone : Separators [] := nofun
  have hblank : ∀ {depth behind}, Gap depth behind [' '] := .blank (Or.inl rfl) .nil
  have hname {c : Char} (hc : isIdentStart c) : Spelling [c] (.ident (String.ofList [c])) :=
    .ident hc nofun
  refine ⟨_, .mk hnone (.done hnone), ?_⟩
  show Spells 0 [.openParen, .ident "a", .minus, .integer 1, .closeParen, .star, .ident "f",
    .openParen, .ident "b", .closeParen]
    ([] ++ (['('] ++ ([] ++ (['a'] ++ ([' '] ++ (['-'] ++ ([' '] ++ (['1'] ++ ([] ++ ([')'] ++
      ([' '] ++ (['*'] ++ ([' '] ++ (['f'] ++ ([] ++ (['('] ++ ([] ++ (['b'] ++ ([] ++ ([')'] ++
        []))))))))))))))))))))
  exact .cons .nil (.symbol rfl) <| .cons .nil (hname (by decide)) <| .cons hblank (.symbol rfl) <|
    .cons hblank (.integer (by decide) nofun (by decide)) <| .cons .nil (.symbol rfl) <|
    .cons hblank (.symbol rfl) <| .cons hblank (hname (by decide)) <| .cons .nil (.symbol rfl) <|
    .cons .nil (hname (by decide)) <| .cons .nil (.symbol rfl) <| .nil .nil

theorem ofSource_written_scaled :
    (∀ s ∈ [Tree.expr .scaled], s.IsStatement) ∧
      (∀ s ∈ [Tree.expr .scaled], ∀ e ∈ s.wholes, e.nesting 0 < maxNesting) ∧
      Tree.ofSource "(a - 1) * f(b)" = .ok (.block [.expr .scaled]) := by
  have hbody : ∀ s ∈ [Tree.expr .scaled], s.IsStatement :=
    List.forall_mem_singleton.2 isStatement_scaled
  have hnesting : ∀ s ∈ [Tree.expr .scaled], ∀ e ∈ s.wholes, e.nesting 0 < maxNesting :=
    List.forall_mem_singleton.2 (List.forall_mem_singleton.2 (by decide))
  exact ⟨hbody, hnesting, (ofSource_written hbody hnesting).2 _ isWritten_scaled⟩

end Stacklet
