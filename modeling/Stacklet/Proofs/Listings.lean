/-
  Listings lose nothing.

  The line of an instruction is read back word by word: its offset, its mnemonic
  and its operand, however wide the columns are. So if no name has a line feed, a
  listing determines the instructions, and these their bytes. Names in a unit
  that is compiled from source are identifiers, and its operands are places in
  its pools; so all its lines show what the host works with.

  * `words_line`, `line_inj`: what a line shows of its instruction;
  * `splitLines_listing`: the lines of a listing;
  * `Uses`: what the host makes of the entry at which an operand points;
  * `listing_faithful`: what listings show, and that they determine the code.
-/
import Stacklet.CodeUnit.Listing
import Stacklet.Host
import Stacklet.Proofs.Columns
import Stacklet.Proofs.PoolGrowth
import Stacklet.Proofs.Postorder
import Stacklet.Proofs.SourceTrees

namespace Stacklet

open Text

/-! ## Texts in a line -/

namespace Opcode

theorem mnemonic_inj {a b : Opcode} (h : a.mnemonic = b.mnemonic) : a = b := by
  cases a <;> cases b <;> first | rfl | exact absurd h (by decide)

theorem isPlain_mnemonic (op : Opcode) : IsPlain op.mnemonic := by cases op <;> decide

theorem words_mnemonic (op : Opcode) : words op.mnemonic.toList = [op.mnemonic.toList] := by
  cases op <;> exact words_of_notMem (by decide) (by decide)

end Opcode

namespace Decimal

theorem isPlain_positional (d : Decimal) : IsPlain d.positional := by
  have hdigits := IsPlain.toString_nat d.digits
  have hempty : IsPlain "" := by decide
  have hzeros (n : Nat) : IsPlain ("".pushn '0' n) := hempty.pushn (by decide) n
  rw [positional]
  cases d.exponent with
  | ofNat e =>
    have hpoint : IsPlain ".0" := by decide
    exact (hdigits.append (hzeros e)).append hpoint
  | negSucc e =>
    have hpoint : IsPlain "." := by decide
    have hpadded (n : Nat) : IsPlain ("".pushn '0' n ++ toString d.digits) :=
      (hzeros n).append hdigits
    exact (((hpadded _).ofList_subset (List.take_subset _ _)).append hpoint).append
      ((hpadded _).ofList_subset (List.drop_subset _ _))

theorem isPlain_scientific (d : Decimal) : IsPlain d.scientific := by
  have hdigits := IsPlain.toString_nat d.digits
  have hpoint : IsPlain "." := by decide
  have he : IsPlain "e" := by decide
  have hempty : IsPlain "" := by decide
  rw [scientific]
  cases hchars : (toString d.digits).toList with
  | nil => exact hempty
  | cons lead more =>
    have hlead : IsPlain lead.toString :=
      hdigits.ofList_subset (hchars ▸ List.cons_subset_cons lead (List.nil_subset more))
    have hmore : IsPlain (String.ofList more) :=
      hdigits.ofList_subset (hchars ▸ List.subset_cons_self lead more)
    have hplaces : IsPlain (if more.isEmpty then "" else "." ++ String.ofList more) := by
      split
      · exact hempty
      · exact hpoint.append hmore
    exact ((hlead.append hplaces).append he).append (.toString_int _)

theorem isPlain_text (d : Decimal) : IsPlain d.text := by
  rw [text]
  split
  · exact d.isPlain_positional
  · exact d.isPlain_scientific

end Decimal

theorem Binary64.isPlain_text (x : Binary64) : IsPlain x.text := by
  have hnan : IsPlain "NaN" := by decide
  have hinf : IsPlain "inf" := by decide
  have hzero : IsPlain "0.0" := by decide
  have hsign : IsPlain (if x.isNegative then "-" else "") := by split <;> decide
  simp only [text]
  generalize (if x.isNegative then "-" else "") = sign at hsign
  split_ifs
  · exact hnan
  · exact hsign.append hinf
  · exact hsign.append hzero
  · exact hsign.append x.shortest.isPlain_text

theorem Constant.isPlain_text (c : Constant) : IsPlain c.text := by
  cases c with
  | none => decide
  | int n => exact .toString_int _
  | float x => exact x.isPlain_text

namespace CodeUnit
variable {u v : CodeUnit} {t : Numbering}

/-- An operand stands for a plain text, or for a name of the unit. -/
theorem operandText?_spec {i : Instr} {text : String} (h : u.operandText? i = some text) :
    IsPlain text ∨ text ∈ u.names.toList := by
  cases i with
  | loadConst n =>
    obtain ⟨c, -, rfl⟩ := Option.map_eq_some_iff.1 h
    exact Or.inl c.isPlain_text
  | loadGlobal n | storeGlobal n =>
    refine Or.inr (List.mem_of_getElem? (i := n.toNat) ?_)
    rw [Array.getElem?_toList]
    exact h
  | callFunction n =>
    have hkind : IsPlain " positional" := by decide
    cases h
    exact Or.inl ((IsPlain.toString_nat _).append hkind)
  | binaryAdd | returnValue | popTop | dupTop => cases h

/-! ## Lines -/

/-- What a line shows in front of the text in parentheses. -/
def lineHead (offset : Nat) (i : Instr) (n : UInt16) : String :=
  padLeft 4 (toString offset) ++ " " ++ padRight 24 i.opcode.mnemonic ++ " " ++
    padLeft 3 (toString n.toNat) ++ " "

theorem line_of_none (u : CodeUnit) (offset : Nat) {i : Instr} (h : i.operand? = none) :
    u.line offset i = padLeft 4 (toString offset) ++ " " ++ i.opcode.mnemonic := by
  simp only [line, h]

theorem line_of_some (u : CodeUnit) (offset : Nat) {i : Instr} {n : UInt16}
    (h : i.operand? = some n) :
    u.line offset i = lineHead offset i n ++ "(" ++ (u.operandText? i).getD "<invalid>" ++ ")" := by
  have hopen : " (" = " " ++ "(" := rfl
  simp only [line, h, lineHead, hopen, String.append_assoc]

theorem isPlain_lineHead (offset : Nat) (i : Instr) (n : UInt16) :
    IsPlain (lineHead offset i n) := by
  have hblank : IsPlain " " := by decide
  have hoffset := (IsPlain.toString_nat offset).padLeft 4
  have hmnemonic := i.opcode.isPlain_mnemonic.padRight 24
  have hoperand := (IsPlain.toString_nat n.toNat).padLeft 3
  exact ((((hoffset.append hblank).append hmnemonic).append hblank).append hoperand).append hblank

/-- **A line begins with its offset, its mnemonic and its operand**, whatever
    unit it belongs to. -/
theorem words_line (u : CodeUnit) (offset : Nat) (i : Instr) :
    (words (u.line offset i).toList).take 3 =
      (toString offset).toList :: i.opcode.mnemonic.toList ::
        (i.operand?.map fun n => (toString n.toNat).toList).toList := by
  have hblank (s : String) (cs : List Char) :
      words (s.toList ++ (" ".toList ++ cs)) = words s.toList ++ words cs :=
    words_append_blank s.toList cs
  cases h : i.operand? with
  | none =>
    rw [line_of_none u offset h, String.toList_append, String.toList_append, List.append_assoc,
      hblank, words_padLeft, words_toString, Opcode.words_mnemonic]
    rfl
  | some n =>
    rw [line_of_some u offset h]
    simp only [lineHead, String.toList_append, List.append_assoc, hblank, words_padLeft,
      words_padRight, words_toString, Opcode.words_mnemonic]
    rfl

/-- Lines of different instructions differ. -/
theorem line_inj {offset offset' : Nat} {i j : Instr} (h : u.line offset i = v.line offset' j) :
    (offset, i) = (offset', j) := by
  have hwords := words_line u offset i
  rw [h, words_line] at hwords
  obtain ⟨hoffset, hrest⟩ := List.cons.inj hwords
  obtain ⟨hmnemonic, hoperand⟩ := List.cons.inj hrest
  have hop : j.opcode = i.opcode := Opcode.mnemonic_inj (String.toList_inj.1 hmnemonic)
  have harg : j.operand? = i.operand? := by
    have hnumerals := congrArg List.head? hoperand
    rw [Option.head?_toList, Option.head?_toList] at hnumerals
    exact Option.map_injective (fun m n hmn => UInt16.toNat_inj.1 (toString_inj hmn)) hnumerals
  have hij : i = j := by
    have hparts := i.ofParts_parts
    rw [← hop, ← harg, Instr.ofParts_parts] at hparts
    exact (Except.ok.inj hparts).symm
  rw [hij, toString_inj hoffset]

/-- A character that is neither plain nor a parenthesis is in no line, unless it
    is in the text of its operand. -/
theorem notMem_line {offset : Nat} {i : Instr} {c : Char} (hplain : ¬ isPlainChar c)
    (hparens : c ≠ '(' ∧ c ≠ ')')
    (htext : i.operand?.isSome → c ∉ ((u.operandText? i).getD "<invalid>").toList) :
    c ∉ (u.line offset i).toList := by
  cases h : i.operand? with
  | none =>
    have hblank : IsPlain " " := by decide
    have hline : IsPlain (padLeft 4 (toString offset) ++ " " ++ i.opcode.mnemonic) :=
      (((IsPlain.toString_nat offset).padLeft 4).append hblank).append i.opcode.isPlain_mnemonic
    rw [line_of_none u offset h]
    exact hline.notMem hplain
  | some n =>
    rw [line_of_some u offset h]
    simp only [String.toList_append, List.mem_append, not_or]
    refine ⟨⟨⟨(isPlain_lineHead offset i n).notMem hplain, ?_⟩, htext (by rw [h]; rfl)⟩, ?_⟩
    · exact fun hc => hparens.1 (List.mem_singleton.1 hc)
    · exact fun hc => hparens.2 (List.mem_singleton.1 hc)

/-- No name has a line feed. -/
def OneLine (u : CodeUnit) : Prop := ∀ name ∈ u.names, '\n' ∉ name.toList

theorem OneLine.newline_notMem (h : u.OneLine) (offset : Nat) (i : Instr) :
    '\n' ∉ (u.line offset i).toList := by
  refine notMem_line (by decide) (by decide) fun _ => ?_
  cases htext : u.operandText? i with
  | none => decide
  | some text =>
    rcases operandText?_spec htext with hplain | hname
    · exact hplain.notMem (by decide)
    · exact h text (Array.mem_toList_iff.1 hname)

/-! ## Listings -/

/-- The lines of instructions. -/
def linesOf (u : CodeUnit) (is : List (Nat × Instr)) : List String := is.map fun x => u.line x.1 x.2

theorem listing_of_decode {is : List (Nat × Instr)} (h : Instr.decode t u.code = .ok is) :
    u.listing t = .ok (lines (u.linesOf is)) := by
  rw [listing, instructions, h]
  rfl

theorem listing_eq_error_iff {e : DecodeError} :
    u.listing t = .error e ↔ Instr.decode t u.code = .error e := by
  rw [listing, instructions]
  cases Instr.decode t u.code <;> simp

theorem decode_of_listing {text : String} (h : u.listing t = .ok text) :
    ∃ is, Instr.decode t u.code = .ok is ∧ text = lines (u.linesOf is) := by
  cases hdecode : Instr.decode t u.code with
  | error e =>
    rw [listing_eq_error_iff.2 hdecode] at h
    cases h
  | ok is =>
    rw [listing_of_decode hdecode] at h
    exact ⟨is, rfl, (Except.ok.inj h).symm⟩

/-- A text has one line for each instruction, in order, and nothing else. -/
def Lists (u : CodeUnit) (text : String) (is : List (Nat × Instr)) : Prop :=
  splitLines text = u.linesOf is ++ [""]

theorem OneLine.lists (h : u.OneLine) (is : List (Nat × Instr)) :
    u.Lists (lines (u.linesOf is)) is :=
  splitLines_lines (List.forall_mem_map.2 fun x _ => h.newline_notMem x.1 x.2)

theorem linesOf_cons (u : CodeUnit) (x : Nat × Instr) (is : List (Nat × Instr)) :
    u.linesOf (x :: is) = u.line x.1 x.2 :: u.linesOf is := rfl

theorem eq_of_linesOf {is js : List (Nat × Instr)} (h : u.linesOf is = v.linesOf js) : is = js := by
  induction is generalizing js with
  | nil => exact (List.map_eq_nil_iff.1 h.symm).symm
  | cons x is ih =>
    cases js with
    | nil => exact absurd h (by simp [linesOf])
    | cons y js =>
      rw [linesOf_cons, linesOf_cons, List.cons.injEq] at h
      obtain ⟨hline, hlines⟩ := h
      have hxy : x = y := line_inj hline
      rw [hxy, ih hlines]

/-- **Listings determine the code.** -/
theorem code_eq_of_lists {text : String} {is js : List (Nat × Instr)}
    (hu : Instr.decode t u.code = .ok is) (hv : Instr.decode t v.code = .ok js)
    (his : u.Lists text is) (hjs : v.Lists text js) : u.code = v.code := by
  obtain rfl : is = js := eq_of_linesOf (List.append_cancel_right (his.symm.trans hjs))
  obtain ⟨more, hfound, hcode⟩ := Instr.encodeAll_of_decodeFrom hu
  obtain ⟨more', hfound', hcode'⟩ := Instr.encodeAll_of_decodeFrom hv
  rw [← hcode, ← hcode', List.append_cancel_left (hfound.symm.trans hfound')]

/-! ## What lines show -/

/-- The line ends with the text in parentheses, and has no other ones in front. -/
def Encloses (line shown : String) : Prop :=
  ∃ head : String, '(' ∉ head.toList ∧ line = head ++ "(" ++ shown ++ ")"

/-- What the host makes of the entry at which an instruction points, in any
    session: it pushes the constant, looks the name up, or binds it. -/
inductive Uses (u : CodeUnit) (offset : Nat) : Instr → String → Prop
  | load {n c} : (∀ globals stack sink, step u offset (.loadConst n) ⟨globals, stack, sink⟩ =
        .next ⟨globals, stack.push (.ofConstant c), sink⟩) →
      Uses u offset (.loadConst n) c.text
  | fetch {n name} :
      (∀ globals stack sink v, lookUp globals name = .ok v →
        step u offset (.loadGlobal n) ⟨globals, stack, sink⟩ =
          .next ⟨globals, stack.push v, sink⟩) →
      (∀ globals stack sink e, lookUp globals name = .error e →
        step u offset (.loadGlobal n) ⟨globals, stack, sink⟩ =
          .failed e ⟨globals, stack, sink⟩) →
      Uses u offset (.loadGlobal n) name
  | store {n name} :
      (∀ globals stack sink v rest, stack.pop? = some (v, rest) →
        step u offset (.storeGlobal n) ⟨globals, stack, sink⟩ =
          .next ⟨globals.insert name v, rest, sink⟩) →
      Uses u offset (.storeGlobal n) name

variable {i : Instr} {a : Action}

/-- An operand that is a place in a pool stands for the text of what the host
    uses. -/
theorem uses_of_resolve? (h : u.resolve? i = some a) (hp : i.Points) (offset : Nat) :
    ∃ shown, u.operandText? i = some shown ∧ u.Uses offset i shown := by
  cases i with
  | loadConst n =>
    obtain ⟨c, hc, -⟩ := Option.map_eq_some_iff.1 h
    refine ⟨c.text, by rw [operandText?, hc, Option.map_some], .load fun globals stack sink => ?_⟩
    simp only [step, hc]
  | loadGlobal n =>
    obtain ⟨name, hname, -⟩ := Option.map_eq_some_iff.1 h
    have hfound globals stack sink v (hv : lookUp globals name = .ok v) :
        step u offset (.loadGlobal n) ⟨globals, stack, sink⟩ =
          .next ⟨globals, stack.push v, sink⟩ := by
      simp only [step, hname, hv]
    have hlost globals stack sink e (he : lookUp globals name = .error e) :
        step u offset (.loadGlobal n) ⟨globals, stack, sink⟩ =
          .failed e ⟨globals, stack, sink⟩ := by
      simp only [step, hname, he]
    exact ⟨name, hname, .fetch hfound hlost⟩
  | storeGlobal n =>
    obtain ⟨name, hname, -⟩ := Option.map_eq_some_iff.1 h
    refine ⟨name, hname, .store fun globals stack sink v rest hpop => ?_⟩
    simp only [step, hname, hpop]
  | binaryAdd | callFunction | returnValue | popTop | dupTop => exact hp.elim

theorem exists_operandText? (h : u.resolve? i = some a) (hi : i.operand?.isSome) :
    ∃ shown, u.operandText? i = some shown := by
  cases i with
  | loadConst | loadGlobal | storeGlobal =>
    obtain ⟨shown, hshown, -⟩ := uses_of_resolve? h trivial 0
    exact ⟨shown, hshown⟩
  | callFunction n => exact ⟨_, rfl⟩
  | binaryAdd | returnValue | popTop | dupTop => cases hi

theorem encloses_line {shown : String} (h : u.operandText? i = some shown) (offset : Nat) :
    Encloses (u.line offset i) shown := by
  cases hi : i.operand? with
  | none => cases i <;> cases hi <;> cases h
  | some n =>
    refine ⟨lineHead offset i n, (isPlain_lineHead offset i n).notMem (by decide), ?_⟩
    rw [line_of_some u offset hi, h, Option.getD_some]

end CodeUnit

/-! ## Units from source -/

theorem IsIdent.isIdentChar {id : String} (h : IsIdent id) : ∀ c ∈ id.toList, isIdentChar c := by
  obtain ⟨c, more, hid, hc, hmore⟩ := h
  rw [hid]
  exact List.forall_mem_cons.2 ⟨isIdentChar_of_isIdentStart hc, hmore⟩

namespace Tree

theorem IsStatement.all_isIdent {s : Tree} (h : s.IsStatement) :
    s.All fun node => ∀ id ∈ node.name?, IsIdent id := by
  have hexpression {e : Tree} (he : e.IsExpression) :
      e.All fun node => ∀ id ∈ node.name?, IsIdent id := by
    intro node hnode id hid
    cases he.all node hnode with
    | name hident =>
      cases hid
      exact hident
    | int | float | binary | call => cases hid
  cases h with
  | expr hvalue => exact all_expr.2 ⟨nofun, hexpression hvalue⟩
  | @assign targets value _ htargets hvalue =>
    refine all_assign.2 ⟨fun id hid => ?_, hexpression hvalue⟩
    unfold name? at hid
    split at hid
    · contradiction
    · rename_i hassign
      cases hassign
      cases hid
      cases htargets _ List.mem_cons_self with
      | plain hplain =>
        cases hplain with
        | name hident => exact hident
    · cases hid

/-- Names in a source are identifiers. -/
theorem isIdent_of_ofSource {source : String} {tree : Tree} (h : ofSource source = .ok tree) :
    ∀ id ∈ tree.names, IsIdent id := by
  obtain ⟨body, rfl, hbody⟩ := ofSource_isStatement h
  have hall : (Tree.block body).All fun node => ∀ id ∈ node.name?, IsIdent id :=
    all_block.2 ⟨nofun, fun s hs => (hbody s hs).all_isIdent⟩
  intro id hid
  obtain ⟨node, hnode, hname⟩ := List.mem_filterMap.1 hid
  exact hall node hnode id hname

end Tree

namespace CodeUnit

namespace Holds
variable {u : CodeUnit} {t : Numbering} {tree : Tree} {is : List Instr} {depth : Nat}
  (h : Holds t tree u is depth)
include h

theorem exists_resolve? {i : Instr} (hi : i ∈ is) : ∃ a, u.resolve? i = some a := by
  have hmem := List.mem_map_of_mem (f := fun i => (u.resolve? i).map Action.keyed) hi
  rw [map_resolve? h.does] at hmem
  obtain ⟨b, -, hb⟩ := List.mem_map.1 hmem
  obtain ⟨a, ha, -⟩ := Option.map_eq_some_iff.1 hb.symm
  exact ⟨a, ha⟩

variable (hident : ∀ id ∈ tree.names, IsIdent id)
include hident

theorem isIdent {name : String} (hname : name ∈ u.names.toList) : IsIdent name := by
  rw [h.names, tree.namesOf_unitActions h.compilable.supported] at hname
  exact hident name (mem_of_mem_firstUses hname)

theorem oneLine : u.OneLine := fun name hname hc =>
  absurd ((h.isIdent hident (Array.mem_toList_iff.2 hname)).isIdentChar _ hc) (by decide)

/-- No line shows that an entry is missing. -/
theorem not_invalid {i : Instr} (hi : i ∈ is) (offset : Nat) :
    ¬ "<invalid>".toList <:+: (u.line offset i).toList := by
  have hline : '<' ∉ (u.line offset i).toList := by
    refine notMem_line (by decide) (by decide) fun hoperand => ?_
    obtain ⟨a, ha⟩ := h.exists_resolve? hi
    obtain ⟨shown, hshown⟩ := exists_operandText? ha hoperand
    rw [hshown, Option.getD_some]
    rcases operandText?_spec hshown with hplain | hname
    · exact hplain.notMem (by decide)
    · exact fun hc => absurd ((h.isIdent hident hname).isIdentChar _ hc) (by decide)
  have hmark : '<' ∈ "<invalid>".toList := by decide
  exact fun hinvalid => hline (hinvalid.subset hmark)

end Holds

/-- **Listings lose nothing.** There is one unless decoding fails, and then with
    the same error. If no name has a line feed, it has one line for each
    instruction, in order, and only units with the same code have the same
    listing. If the unit is compiled from source, there is a listing with no
    operand marked as invalid, and a line that loads or stores ends with the very
    text of the constant or the name that the host uses. -/
theorem listing_faithful (t : Numbering) :
    (∀ (u : CodeUnit) (e : DecodeError),
        u.listing t = .error e ↔ Instr.decode t u.code = .error e) ∧
      (∀ (u : CodeUnit) (text : String), u.OneLine → u.listing t = .ok text →
        (∃ is, Instr.decode t u.code = .ok is ∧ u.Lists text is) ∧
          ∀ v : CodeUnit, v.OneLine → v.listing t = .ok text → u.code = v.code) ∧
      ∀ options source tree u, Tree.ofSource source = .ok tree → ofTree t options tree = .ok u →
        ∃ text is, u.listing t = .ok text ∧ Instr.decode t u.code = .ok is ∧ u.Lists text is ∧
          ∀ x ∈ is, ¬ "<invalid>".toList <:+: (u.line x.1 x.2).toList ∧
            (x.2.Points → ∃ shown, Encloses (u.line x.1 x.2) shown ∧ u.Uses x.1 x.2 shown) := by
  refine ⟨fun u e => listing_eq_error_iff, fun u text hu hlisting => ?_,
    fun options source tree u hsource hu => ?_⟩
  · obtain ⟨is, hdecode, rfl⟩ := decode_of_listing hlisting
    refine ⟨⟨is, hdecode, hu.lists is⟩, fun v hv hlisting' => ?_⟩
    obtain ⟨js, hdecode', hsame⟩ := decode_of_listing hlisting'
    have hlists : v.Lists (lines (u.linesOf is)) js := by
      rw [hsame]
      exact hv.lists js
    exact code_eq_of_lists hdecode hdecode' (hu.lists is) hlists
  · obtain ⟨is, depth, h⟩ := holds_of_ofTree hu
    have hident := Tree.isIdent_of_ofSource hsource
    refine ⟨_, _, listing_of_decode h.instructions, h.instructions,
      (h.oneLine hident).lists _, fun x hx => ?_⟩
    have hi : x.2 ∈ is := Instr.map_snd_placed 0 is ▸ List.mem_map_of_mem hx
    refine ⟨h.not_invalid hident hi x.1, fun hp => ?_⟩
    obtain ⟨a, ha⟩ := h.exists_resolve? hi
    obtain ⟨shown, hshown, huses⟩ := uses_of_resolve? ha hp x.1
    exact ⟨shown, encloses_line hshown x.1, huses⟩

/-- A unit that returns `None`, and has names that it does not use. -/
def returnsNone (names : Array String) : CodeUnit where
  argCount := 0
  kwOnlyArgCount := 0
  localCount := 0
  stackSize := 1
  flags := unitFlags
  code := [100, 0, 0, 83]
  consts := #[.none]
  names := names
  varNames := []
  fileName := "<stdin>"
  name := "<module>"
  firstLine := 1
  lineTable := []
  freeVars := []
  cellVars := []

/-- Units of one listing, and the unit of `x = 1`. -/
theorem listing_faithful_returnsNone :
    (returnsNone #["x"]).code = (returnsNone #[]).code ∧
      Tree.ofSource "x = 1" = .ok (.block [.assign [.name "x"] (.num (.int 1))]) ∧
      ∃ u text is, ofTree .classic .default (.block [.assign [.name "x"] (.num (.int 1))]) = .ok u ∧
        u.listing .classic = .ok text ∧ u.Lists text is ∧
        ∀ x ∈ is, ¬ "<invalid>".toList <:+: (u.line x.1 x.2).toList := by
  obtain ⟨-, hsame, hcompiled⟩ := listing_faithful .classic
  have hnone : (returnsNone #[]).OneLine := by simp [OneLine, returnsNone]
  have hname : (returnsNone #["x"]).OneLine := by simp [OneLine, returnsNone]
  let text := "   0 LOAD_CONST                 0 (None)\n   3 RETURN_VALUE\n"
  have hlisting : (returnsNone #["x"]).listing .classic = .ok text := by with_unfolding_all rfl
  have hlisting' : (returnsNone #[]).listing .classic = .ok text := by with_unfolding_all rfl
  have hsource : Tree.ofSource "x = 1" = .ok (.block [.assign [.name "x"] (.num (.int 1))]) := by
    with_unfolding_all rfl
  obtain ⟨u, hu⟩ := (exists_ofTree_iff .classic .default
    (.block [.assign [.name "x"] (.num (.int 1))])).2 (by decide)
  obtain ⟨shown, is, hshown, -, hlists, hvalid⟩ := hcompiled _ _ _ _ hsource hu
  exact ⟨(hsame _ _ hname hlisting).2 _ hnone hlisting', hsource, u, shown, is, hu, hshown, hlists,
    fun x hx => (hvalid x hx).1⟩

end CodeUnit

end Stacklet
