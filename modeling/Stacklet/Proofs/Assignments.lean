/-
  What a numbering is made of.

  A numbering has been made by assignments: those of the usual bytes or those
  given, and further ones behind them. Of these the last one for each operation
  counts, and only all of them together have to be in order.

  * `ofEntries_eq_ok_iff`, `ofEntries_eq_error_iff`: which assignments are a
    numbering, and what is wrong with the others;
  * `override_override`: overriding in two steps or in one;
  * `Table.fill_eq`: bytes and operations entered in two maps, in step;
  * `assignments_spec`: all numberings, however they have been made.
-/
import Std.Data.HashMap.Lemmas
import Mathlib.Data.List.Forall2
import Mathlib.Data.List.Induction
import Mathlib.Order.Fin.Basic
import Stacklet.Config

namespace Stacklet

namespace Numbering

/-! ## The last byte -/

/-- The byte that is assigned to the operation last. -/
def LastByte (entries : List Entry) (op : Opcode) (byte : UInt8) : Prop :=
  ∃ front behind, entries = front ++ (op, byte) :: behind ∧ ∀ e ∈ behind, e.1 ≠ op

section
variable {entries : List Entry} {op : Opcode} {byte : UInt8}

theorem lastByte?_concat (entries : List Entry) (e : Entry) (op : Opcode) :
    lastByte? (entries ++ [e]) op = if e.1 = op then some e.2 else lastByte? entries op := by
  rw [lastByte?, List.foldl_append]
  rfl

theorem lastByte?_append (entries more : List Entry) (op : Opcode) :
    lastByte? (entries ++ more) op = (lastByte? more op).or (lastByte? entries op) := by
  induction more using List.reverseRecOn with
  | nil => rw [List.append_nil]; rfl
  | append_singleton more e ih =>
    rw [← List.append_assoc, lastByte?_concat, lastByte?_concat, ih]
    split_ifs <;> rfl

theorem lastByte?_eq_none_iff : lastByte? entries op = none ↔ ∀ e ∈ entries, e.1 ≠ op := by
  induction entries using List.reverseRecOn with
  | nil => exact ⟨fun _ => nofun, fun _ => rfl⟩
  | append_singleton entries e ih =>
    rw [lastByte?_concat]
    split_ifs with he
    · exact ⟨nofun, fun h => absurd he (h e (by simp))⟩
    · rw [ih, List.forall_mem_append, List.forall_mem_singleton]
      exact ⟨fun h => ⟨h, he⟩, And.left⟩

theorem lastByte?_eq_some_iff : lastByte? entries op = some byte ↔ LastByte entries op byte := by
  constructor
  · intro h
    induction entries using List.reverseRecOn with
    | nil => cases h
    | append_singleton entries e ih =>
      rw [lastByte?_concat] at h
      split_ifs at h with he
      · obtain ⟨o, b⟩ := e
        obtain rfl : o = op := he
        obtain rfl : b = byte := Option.some.inj h
        exact ⟨entries, [], rfl, nofun⟩
      · obtain ⟨front, behind, rfl, hbehind⟩ := ih h
        refine ⟨front, behind ++ [e], by simp, ?_⟩
        rw [List.forall_mem_append, List.forall_mem_singleton]
        exact ⟨hbehind, he⟩
  · rintro ⟨front, behind, rfl, hbehind⟩
    rw [List.append_cons, lastByte?_append, lastByte?_eq_none_iff.2 hbehind, lastByte?_concat,
      if_pos rfl]
    rfl

theorem LastByte.unique {byte' : UInt8} (h : LastByte entries op byte)
    (h' : LastByte entries op byte') : byte = byte' :=
  Option.some.inj ((lastByte?_eq_some_iff.2 h).symm.trans (lastByte?_eq_some_iff.2 h'))

theorem LastByte.mem (h : LastByte entries op byte) : (op, byte) ∈ entries := by
  obtain ⟨front, behind, rfl, -⟩ := h
  simp

end

theorem lastByte?_entries (t : Numbering) (op : Opcode) :
    lastByte? t.entries op = some (t.code op) := by
  cases op <;> rfl

/-! ## Faults -/

/-- What is wrong with an operation: it has no byte, or that of an operation
    before it in the order of `Opcode.all`. -/
inductive FaultAt (entries : List Entry) (op : Opcode) : NumberingError → Prop
  | missing : (∀ e ∈ entries, e.1 ≠ op) → FaultAt entries op (.missing op)
  | duplicate {byte first} : LastByte entries op byte → first.index < op.index →
      LastByte entries first byte → FaultAt entries op (.duplicate byte first op)

section
variable {entries : List Entry} {op : Opcode} {e : NumberingError}

/-- The fault of the first operation that has one. -/
def FirstFault (entries : List Entry) (e : NumberingError) : Prop :=
  ∃ op, FaultAt entries op e ∧ ∀ o : Opcode, o.index < op.index → ∀ e, ¬ FaultAt entries o e

theorem mem_before {o op : Opcode} : o ∈ before op ↔ o.index < op.index := by
  simp [before]

theorem before_eq {earlier later : List Opcode} (h : Opcode.all = earlier ++ op :: later) :
    before op = earlier := by
  have hplaces : ∀ i : Fin Opcode.all.length, before Opcode.all[i] = Opcode.all.take i := by decide
  have hlt : earlier.length < Opcode.all.length := by simp [h]
  have hop : Opcode.all[earlier.length] = op := by simp [h]
  have hbefore := hplaces ⟨earlier.length, hlt⟩
  simp only [Fin.getElem_fin, hop] at hbefore
  rw [hbefore, h, List.take_left]

theorem faultAt_of_faultAt? (h : faultAt? (lastByte? entries) op = some e) :
    FaultAt entries op e := by
  unfold faultAt? at h
  split at h
  · rename_i hbyte
    cases h
    exact .missing (lastByte?_eq_none_iff.1 hbyte)
  · rename_i byte hbyte
    obtain ⟨first, hfirst, rfl⟩ := Option.map_eq_some_iff.1 h
    have hsame := List.find?_some hfirst
    have hlt := mem_before.1 (List.mem_of_find?_eq_some hfirst)
    exact .duplicate (lastByte?_eq_some_iff.1 hbyte) hlt
      (lastByte?_eq_some_iff.1 (by simpa using hsame))

theorem not_faultAt (h : faultAt? (lastByte? entries) op = none) : ¬ FaultAt entries op e := by
  rintro (hmissing | ⟨hbyte, hlt, hfirst⟩)
  · rw [faultAt?, lastByte?_eq_none_iff.2 hmissing] at h
    cases h
  · rw [faultAt?, lastByte?_eq_some_iff.2 hbyte] at h
    refine List.find?_eq_none.1 (Option.map_eq_none_iff.1 h) _ (mem_before.2 hlt) ?_
    simpa using lastByte?_eq_some_iff.2 hfirst

/-- The operations before it being in order, there is one thing wrong with an
    operation. -/
theorem FaultAt.unique {e' : NumberingError} (h : FaultAt entries op e)
    (h' : FaultAt entries op e')
    (hfirst : ∀ o : Opcode, o.index < op.index → ∀ e, ¬ FaultAt entries o e) : e = e' := by
  cases h with
  | missing hmissing =>
    cases h' with
    | missing => rfl
    | duplicate hbyte => exact absurd rfl (hmissing _ hbyte.mem)
  | @duplicate byte first hbyte hlt hsame =>
    cases h' with
    | missing hmissing => exact absurd rfl (hmissing _ hbyte.mem)
    | @duplicate byte' first' hbyte' hlt' hsame' =>
      obtain rfl := hbyte.unique hbyte'
      rcases lt_trichotomy first.index first'.index with hlt₁ | heq | hlt₁
      · exact absurd (.duplicate hsame' hlt₁ hsame) (hfirst first' hlt' _)
      · rw [Opcode.index_inj heq]
      · exact absurd (.duplicate hsame hlt₁ hsame') (hfirst first hlt _)

theorem FirstFault.unique {e' : NumberingError} (h : FirstFault entries e)
    (h' : FirstFault entries e') : e = e' := by
  obtain ⟨op, hop, hfirst⟩ := h
  obtain ⟨op', hop', hfirst'⟩ := h'
  rcases lt_trichotomy op.index op'.index with hlt | heq | hlt
  · exact absurd hop (hfirst' op hlt e)
  · obtain rfl := Opcode.index_inj heq
    exact hop.unique hop' hfirst
  · exact absurd hop' (hfirst op' hlt e')

theorem firstFault_of_fault? (h : fault? (lastByte? entries) = some e) :
    FirstFault entries e := by
  obtain ⟨earlier, op, later, hall, hop, hearlier⟩ := List.findSome?_eq_some_iff.1 h
  refine ⟨op, faultAt_of_faultAt? hop, fun o ho e => not_faultAt (hearlier o ?_)⟩
  rw [← before_eq hall]
  exact mem_before.2 ho

end

/-! ## Numberings from assignments -/

section
variable {entries : List Entry} {t : Numbering} {e : NumberingError}

/-- Assignments have a fault, or are a numbering in which an operation has its
    last byte. -/
theorem ofEntries_cases (entries : List Entry) :
    (∃ e, ofEntries entries = .error e ∧ fault? (lastByte? entries) = some e) ∨
      ∃ t, ofEntries entries = .ok t ∧ fault? (lastByte? entries) = none ∧
        ∀ op, lastByte? entries op = some (t.code op) := by
  unfold ofEntries
  split
  · rename_i e hfault
    exact Or.inl ⟨e, rfl, hfault⟩
  · rename_i hfault
    refine Or.inr ⟨_, rfl, hfault, fun op => ?_⟩
    obtain ⟨byte, hbyte⟩ := isSome_of_fault?_eq_none hfault op
    rw [hbyte]
    exact congrArg some (bytesOf_index hbyte).symm

theorem lastByte?_of_ofEntries (h : ofEntries entries = .ok t) (op : Opcode) :
    lastByte? entries op = some (t.code op) := by
  obtain ⟨e, herror, -⟩ | ⟨t', hok, -, hcode⟩ := ofEntries_cases entries
  · rw [h] at herror
    cases herror
  · obtain rfl := Except.ok.inj (h.symm.trans hok)
    exact hcode op

/-- **What is wrong with assignments.** It is the fault of the first operation
    that has one. -/
theorem ofEntries_eq_error_iff : ofEntries entries = .error e ↔ FirstFault entries e := by
  obtain ⟨e', herror, hfault⟩ | ⟨t, hok, hfault, -⟩ := ofEntries_cases entries
  · have hfirst := firstFault_of_fault? hfault
    rw [herror]
    constructor
    · rintro ⟨⟩
      exact hfirst
    · intro h
      rw [h.unique hfirst]
  · rw [hok]
    constructor
    · nofun
    · rintro ⟨op, hop, -⟩
      exact absurd hop (not_faultAt (faultAt?_eq_none hfault op))

/-- **Which assignments are a numbering.** Every operation has a byte, and the
    last ones all differ. -/
theorem ofEntries_eq_ok_iff : (∃ t, ofEntries entries = .ok t) ↔
    ∃ byte : Opcode → UInt8, (∀ op, LastByte entries op (byte op)) ∧ byte.Injective := by
  constructor
  · rintro ⟨t, h⟩
    exact ⟨t.code, fun op => lastByte?_eq_some_iff.1 (lastByte?_of_ofEntries h op),
      fun _ _ => t.code_inj⟩
  · rintro ⟨byte, hbyte, hinj⟩
    rcases hmade : ofEntries entries with e | t
    · obtain ⟨op, hmissing | ⟨hop, hlt, hfirst⟩, -⟩ := ofEntries_eq_error_iff.1 hmade
      · exact absurd rfl (hmissing _ (hbyte op).mem)
      · obtain rfl := hinj (((hbyte op).unique hop).trans ((hbyte _).unique hfirst).symm)
        exact absurd hlt (lt_irrefl _)
    · exact ⟨t, rfl⟩

/-- Only the last bytes matter. -/
theorem ofEntries_congr {entries' : List Entry}
    (h : ∀ op, lastByte? entries op = lastByte? entries' op) :
    ofEntries entries = ofEntries entries' := by
  unfold ofEntries
  rw [show lastByte? entries = lastByte? entries' from funext h]

/-! ## Overriding -/

variable {t₁ : Numbering} {more : List Entry}

theorem lastByte?_override (h : t.override more = .ok t₁) (op : Opcode) :
    (lastByte? more op).or (some (t.code op)) = some (t₁.code op) := by
  rw [← lastByte?_entries, ← lastByte?_append]
  exact lastByte?_of_ofEntries h op

/-- **Overriding twice.** The further assignments are made behind the ones
    before, as if all had been made together. -/
theorem override_override (h : t.override more = .ok t₁) (more' : List Entry) :
    t₁.override more' = t.override (more ++ more') := by
  refine ofEntries_congr fun op => ?_
  rw [lastByte?_append, lastByte?_entries, ← lastByte?_override h, lastByte?_append,
    lastByte?_append, lastByte?_entries, Option.or_assoc]

theorem override_ne_missing (t : Numbering) (more : List Entry) (op : Opcode) :
    t.override more ≠ .error (.missing op) := by
  intro h
  obtain ⟨_, hfault, -⟩ := ofEntries_eq_error_iff.1 h
  cases hfault with
  | missing hmissing =>
    have hmem := (lastByte?_eq_some_iff.1 (t.lastByte?_entries op)).mem
    exact hmissing _ (List.mem_append_left _ hmem) rfl

end

/-! ## Assignments by name -/

/-- A mnemonic for the operation, and the same byte. -/
def Names (named : String × UInt8) (e : Entry) : Prop := e.1.mnemonic = named.1 ∧ e.2 = named.2

/-- The first name that is no mnemonic. -/
def FirstUnknown (named : List (String × UInt8)) (name : String) : Prop :=
  ∃ front byte behind es, named = front ++ (name, byte) :: behind ∧ List.Forall₂ Names front es ∧
    ∀ op : Opcode, op.mnemonic ≠ name

theorem ofMnemonic?_mnemonic (op : Opcode) : Opcode.ofMnemonic? op.mnemonic = some op := by
  cases op <;> rfl

theorem ofMnemonic?_eq_none_iff {name : String} :
    Opcode.ofMnemonic? name = none ↔ ∀ op : Opcode, op.mnemonic ≠ name := by
  simp [Opcode.ofMnemonic?]

section
variable {named : List (String × UInt8)} {es : List Entry} {name : String}

theorem entriesOfNames_of_known (h : List.Forall₂ Names named es) :
    entriesOfNames named = .ok es := by
  induction h with
  | nil => rfl
  | @cons n e named es hnames _ ih =>
    obtain ⟨name, byte⟩ := n
    obtain ⟨rfl, rfl⟩ := hnames
    simp only [entriesOfNames, ofMnemonic?_mnemonic, ih]

theorem entriesOfNames_of_unknown (h : FirstUnknown named name) :
    entriesOfNames named = .error (.unknownName name) := by
  obtain ⟨front, byte, behind, es, rfl, hfront, hname⟩ := h
  induction hfront with
  | nil => simp only [List.nil_append, entriesOfNames, ofMnemonic?_eq_none_iff.2 hname]
  | @cons n e front es hnames _ ih =>
    obtain ⟨name', byte'⟩ := n
    obtain ⟨rfl, rfl⟩ := hnames
    simp only [List.cons_append, entriesOfNames, ofMnemonic?_mnemonic, ih]

/-- A name among them is unknown, or they all are mnemonics. -/
theorem unknown_or_known (named : List (String × UInt8)) :
    (∃ name, FirstUnknown named name) ∨ ∃ es, List.Forall₂ Names named es := by
  induction named with
  | nil => exact Or.inr ⟨[], .nil⟩
  | cons n named ih =>
    obtain ⟨name, byte⟩ := n
    by_cases hop : ∃ op : Opcode, op.mnemonic = name
    · obtain ⟨op, hop⟩ := hop
      obtain ⟨unknown, front, b, behind, es, rfl, hfront, hunknown⟩ | ⟨es, hes⟩ := ih
      · exact Or.inl ⟨unknown, (name, byte) :: front, b, behind, (op, byte) :: es, rfl,
          .cons ⟨hop, rfl⟩ hfront, hunknown⟩
      · exact Or.inr ⟨(op, byte) :: es, .cons ⟨hop, rfl⟩ hes⟩
    · exact Or.inl ⟨name, [], byte, named, [], rfl, .nil, not_exists.1 hop⟩

theorem ofNames_of_known (h : List.Forall₂ Names named es) : ofNames named = ofEntries es := by
  rw [ofNames, entriesOfNames_of_known h]

theorem ofNames_of_unknown (h : FirstUnknown named name) :
    ofNames named = .error (.unknownName name) := by
  rw [ofNames, entriesOfNames_of_unknown h]

theorem overrideNames_of_known (t : Numbering) (h : List.Forall₂ Names named es) :
    t.overrideNames named = t.override es := by
  rw [overrideNames, entriesOfNames_of_known h]

theorem overrideNames_of_unknown (t : Numbering) (h : FirstUnknown named name) :
    t.overrideNames named = .error (.unknownName name) := by
  rw [overrideNames, entriesOfNames_of_unknown h]

end

/-! ## Both directions entered -/

theorem index_lt (op : Opcode) : op.index.val < 8 := op.index.isLt

/-- Bytes in the order of `Opcode.all`, and operations by byte. -/
structure Table where
  codes : Vector UInt8 8
  byByte : Std.HashMap UInt8 Opcode

namespace Table

/-- The byte of an operation. -/
def code (table : Table) (op : Opcode) : UInt8 := table.codes.get op.index

/-- The operation of a byte. -/
def opcode? (table : Table) (byte : UInt8) : Option Opcode := table.byByte[byte]?

/-- Where nothing is entered. -/
def empty : Table := ⟨.replicate 8 0, ∅⟩

/-- Enters an operation with its byte. -/
def enter (table : Table) (op : Opcode) (byte : UInt8) : Table :=
  ⟨table.codes.set op.index byte (index_lt op), table.byByte.insert byte op⟩

/-- Enters the operations in order, up to one without a byte or with that of
    one entered before. -/
def fill (slots : Vector (Option UInt8) 8) : List Opcode → Table → Except NumberingError Table
  | [], table => .ok table
  | op :: rest, table =>
    match slots.get op.index with
    | none => .error (.missing op)
    | some byte =>
      match table.byByte[byte]? with
      | some first => .error (.duplicate byte first op)
      | none => fill slots rest (table.enter op byte)

/-- The bytes assigned, the last one for each operation. -/
def slotsOf (entries : List Entry) : Vector (Option UInt8) 8 :=
  entries.foldl (fun slots e => slots.set e.1.index (some e.2) (index_lt e.1)) (.replicate 8 none)

/-- The table given by assignments. -/
def ofEntries (entries : List Entry) : Except NumberingError Table :=
  fill (slotsOf entries) Opcode.all empty

/-- Further assignments, made together. -/
def override (table : Table) (more : List Entry) : Except NumberingError Table :=
  ofEntries ((Opcode.all.map fun op => (op, table.code op)) ++ more)

/-- The usual assignments, by byte. -/
def classicEntries : List Entry :=
  [(.popTop, 1), (.dupTop, 4), (.binaryAdd, 23), (.returnValue, 83), (.storeGlobal, 97),
    (.loadConst, 100), (.loadGlobal, 116), (.callFunction, 131)]

/-- The usual assignments, entered without a look at what is there. -/
def classic : Table := classicEntries.foldl (fun table e => table.enter e.1 e.2) empty

/-- The operations listed have been entered, with these bytes, and no others. -/
structure Holds (table : Table) (slots : Opcode → Option UInt8) (entered : List Opcode) :
    Prop where
  code : ∀ op ∈ entered, slots op = some (table.code op)
  opcode? : ∀ byte op, table.opcode? byte = some op ↔ op ∈ entered ∧ slots op = some byte

section
variable {table : Table} {slots : Opcode → Option UInt8} {entered rest : List Opcode}
  {op : Opcode} {byte : UInt8}

theorem code_enter (table : Table) (op o : Opcode) (byte : UInt8) :
    (table.enter op byte).code o = if op = o then byte else table.code o := by
  split_ifs with ho
  · subst ho
    exact Vector.getElem_set_self (index_lt op)
  · exact Vector.getElem_set_ne (index_lt op) (index_lt o)
      fun he => ho (Opcode.index_inj (Fin.ext he))

theorem opcode?_enter (table : Table) (op : Opcode) (b byte : UInt8) :
    (table.enter op b).opcode? byte = if b = byte then some op else table.opcode? byte := by
  simp [enter, opcode?, Std.HashMap.getElem?_insert]

theorem holds_empty (slots : Opcode → Option UInt8) : empty.Holds slots [] :=
  ⟨nofun, fun _ _ => by simp [empty, opcode?]⟩

/-- One operation more, with a byte of its own. -/
theorem Holds.enter (h : table.Holds slots entered) (hbyte : slots op = some byte)
    (hnew : table.opcode? byte = none) :
    (table.enter op byte).Holds slots (entered ++ [op]) := by
  refine ⟨fun o ho => ?_, fun b o => ?_⟩
  · rw [code_enter]
    split_ifs with heq
    · rw [← heq, hbyte]
    · exact h.code o (by simpa [Ne.symm heq] using ho)
  · rw [opcode?_enter]
    split_ifs with heq
    · subst heq
      constructor
      · intro hsome
        obtain rfl := Option.some.inj hsome
        exact ⟨by simp, hbyte⟩
      · rintro ⟨ho, hslot⟩
        rcases List.mem_append.1 ho with ho | ho
        · rw [(h.opcode? _ _).2 ⟨ho, hslot⟩] at hnew
          cases hnew
        · rw [List.mem_singleton.1 ho]
    · rw [h.opcode?]
      refine and_congr_left fun hslot => ⟨fun ho => List.mem_append_left _ ho, fun ho => ?_⟩
      rcases List.mem_append.1 ho with ho | ho
      · exact ho
      · rw [List.mem_singleton.1 ho, hbyte] at hslot
        exact absurd (Option.some.inj hslot) heq

/-- Under a byte stands what a look through the operations entered would find. -/
theorem Holds.find?_eq (h : table.Holds slots entered) (byte : UInt8) :
    entered.find? (fun o => slots o == some byte) = table.opcode? byte := by
  rcases hfind : entered.find? (fun o => slots o == some byte) with _ | o
  · refine (Option.eq_none_iff_forall_ne_some.2 fun o ho => ?_).symm
    obtain ⟨hmem, hslot⟩ := (h.opcode? byte o).1 ho
    exact List.find?_eq_none.1 hfind o hmem (by simpa using hslot)
  · have hslot : slots o = some byte := by simpa using List.find?_some hfind
    exact ((h.opcode? byte o).2 ⟨List.mem_of_find?_eq_some hfind, hslot⟩).symm

end

theorem get_slotsOf (entries : List Entry) (op : Opcode) :
    (slotsOf entries).get op.index = lastByte? entries op := by
  induction entries using List.reverseRecOn with
  | nil => exact Vector.getElem_replicate (index_lt op)
  | append_singleton entries e ih =>
    rw [lastByte?_concat, ← ih, slotsOf, List.foldl_append]
    split_ifs with he
    · subst he
      exact Vector.getElem_set_self (index_lt e.1)
    · exact Vector.getElem_set_ne (index_lt e.1) (index_lt op)
        fun hi => he (Opcode.index_inj (Fin.ext hi))

/-- **Both directions in step.** Behind operations entered in order, the others
    are entered up to the first that has a fault. -/
theorem fill_eq {slots : Vector (Option UInt8) 8} {table : Table} {entered rest : List Opcode}
    (h : table.Holds (fun op => slots.get op.index) entered) (hall : Opcode.all = entered ++ rest) :
    (∃ e, rest.findSome? (faultAt? fun op => slots.get op.index) = some e ∧
        fill slots rest table = .error e) ∨
      rest.findSome? (faultAt? fun op => slots.get op.index) = none ∧
        ∃ table', fill slots rest table = .ok table' ∧
          table'.Holds (fun op => slots.get op.index) Opcode.all := by
  induction rest generalizing table entered with
  | nil =>
    rw [List.append_nil] at hall
    exact Or.inr ⟨rfl, table, rfl, hall ▸ h⟩
  | cons op rest ih =>
    rw [List.findSome?_cons, fill]
    rcases hslot : slots.get op.index with _ | byte
    · have hfault : faultAt? (fun op => slots.get op.index) op = some (.missing op) := by
        simp only [faultAt?, hslot]
      exact Or.inl ⟨_, by rw [hfault], rfl⟩
    · have hfault : faultAt? (fun op => slots.get op.index) op =
          (table.opcode? byte).map fun first => .duplicate byte first op := by
        simp only [faultAt?, hslot, before_eq hall, h.find?_eq]
      rcases hbyte : table.opcode? byte with _ | first
      · rw [hbyte] at hfault
        simp only [hfault, Option.map_none, show table.byByte[byte]? = none from hbyte]
        exact ih (h.enter hslot hbyte) (by simp [hall])
      · rw [hbyte] at hfault
        simp only [hfault, Option.map_some, show table.byByte[byte]? = some first from hbyte]
        exact Or.inl ⟨_, rfl, rfl⟩

/-! ## Tables and numberings -/

/-- The same bytes and the same operations. -/
structure Agrees (table : Table) (t : Numbering) : Prop where
  code : ∀ op, table.code op = t.code op
  opcode? : ∀ byte, table.opcode? byte = t.opcode? byte

/-- The same error, or a table and a numbering that agree. -/
inductive Alike : Except NumberingError Table → Except NumberingError Numbering → Prop
  | error (e) : Alike (.error e) (.error e)
  | ok {table t} : table.Agrees t → Alike (.ok table) (.ok t)

theorem alike_ofEntries (entries : List Entry) :
    Alike (ofEntries entries) (Numbering.ofEntries entries) := by
  have hslots : (fun op : Opcode => (slotsOf entries).get op.index) = lastByte? entries :=
    funext (get_slotsOf entries)
  have hfill :=
    fill_eq (holds_empty fun op => (slotsOf entries).get op.index) (List.nil_append _).symm
  rw [hslots, ← fault?] at hfill
  rw [ofEntries]
  obtain ⟨e, herror, hfault⟩ | ⟨t, hok, hfault, hcode⟩ := ofEntries_cases entries
  · obtain ⟨e', he, hfilled⟩ | ⟨hnone, -⟩ := hfill
    · obtain rfl := Option.some.inj (hfault.symm.trans he)
      rw [herror, hfilled]
      exact .error e
    · rw [hfault] at hnone
      cases hnone
  · obtain ⟨e', he, -⟩ | ⟨-, table, hfilled, hholds⟩ := hfill
    · rw [hfault] at he
      cases he
    · rw [hok, hfilled]
      refine .ok ⟨fun op => ?_, fun byte => Option.ext fun op => ?_⟩
      · exact Option.some.inj ((hholds.code op (Opcode.mem_all op)).symm.trans (hcode op))
      · rw [hholds.opcode?, opcode?_eq_some_iff, hcode]
        simp

theorem alike_override {table : Table} {t : Numbering} (h : table.Agrees t) (more : List Entry) :
    Alike (table.override more) (t.override more) := by
  rw [override, Numbering.override, entries]
  simp only [h.code]
  exact alike_ofEntries _

theorem classic_agrees : classic.Agrees Numbering.classic := by
  refine ⟨fun op => by cases op <;> rfl, fun byte => Option.ext fun op => ?_⟩
  rw [opcode?_eq_some_iff]
  simp only [classic, classicEntries, List.foldl_cons, List.foldl_nil, opcode?_enter]
  constructor
  · intro h
    split_ifs at h with h₁ h₂ h₃ h₄ h₅ h₆ h₇ h₈
    case neg => cases ((holds_empty fun _ => none).opcode? byte op).1 h |>.1
    all_goals
      obtain rfl := Option.some.inj h
      assumption
  · rintro rfl
    cases op <;> rfl

end Table

/-! ## Numberings, however they are made -/

/-- A numbering and the assignments that were made for it, one after the
    other. -/
inductive Made : List Entry → Numbering → Prop
  | classic : Made Table.classicEntries classic
  | ofEntries {es t} : ofEntries es = .ok t → Made es t
  | ofNames {named es t} : List.Forall₂ Names named es → ofNames named = .ok t → Made es t
  | override {es t more t'} : Made es t → t.override more = .ok t' → Made (es ++ more) t'

/-- However a numbering is made, an operation has the byte assigned last. -/
theorem Made.lastByte?_eq {entries : List Entry} {t : Numbering} (h : Made entries t)
    (op : Opcode) : lastByte? entries op = some (t.code op) := by
  induction h with
  | classic => cases op <;> rfl
  | ofEntries hmade => exact lastByte?_of_ofEntries hmade op
  | ofNames hes hmade => exact lastByte?_of_ofEntries ((ofNames_of_known hes).symm.trans hmade) op
  | override _ hmade ih => rw [lastByte?_append, ih, lastByte?_override hmade]

end Numbering

/-! ## Configured bytes -/

namespace Config

theorem sorted_pairwise (named : List (String × UInt8)) :
    (sorted named).Pairwise fun a b => a.1 ≤ b.1 := by
  have hle {a b : String × UInt8} : (!decide (b.1 < a.1)) = true ↔ a.1 ≤ b.1 := by
    rw [Bool.not_eq_true', decide_eq_false_iff_not, String.not_lt]
  refine (List.pairwise_mergeSort (fun a b c hab hbc => ?_) (fun a b => ?_) named).imp hle.1
  · exact hle.2 (String.le_trans (hle.1 hab) (hle.1 hbc))
  · rw [Bool.or_eq_true]
    exact (String.le_total a.1 b.1).imp hle.2 hle.2

theorem sorted_of_setting {v : Option Toml} {named : List (String × UInt8)}
    (h : setting opcodes? [] v = some named) : named.Pairwise fun a b => a.1 ≤ b.1 := by
  have hentries {entries : Toml.Entries} (h : (bytes? entries).map sorted = some named) :
      named.Pairwise fun a b => a.1 ≤ b.1 := by
    obtain ⟨found, -, rfl⟩ := Option.map_eq_some_iff.1 h
    exact sorted_pairwise found
  unfold setting opcodes? at h
  split at h
  · obtain rfl := Option.some.inj h
    exact .nil
  · split at h
    · exact hentries h
    · exact hentries h
    · cases h

/-- The bytes of a configuration are listed in the order of their names. -/
theorem pairwise_opcodes {text : String} {c : Config} (h : ofToml? text = some c) :
    c.opcodes.Pairwise fun a b => a.1 ≤ b.1 := by
  rw [ofToml?] at h
  split at h
  · cases h
  · rw [ofEntries?] at h
    split_ifs at h
    obtain ⟨options, -, h⟩ := Option.bind_eq_some_iff.1 h
    obtain ⟨named, hnamed, h⟩ := Option.bind_eq_some_iff.1 h
    obtain rfl := Option.some.inj h
    exact sorted_of_setting hnamed

end Config

namespace Numbering

/-- **Numberings and the assignments that make them.**

    Assignments are a numbering iff every operation has a byte and the last ones
    all differ, and else have the fault of the first operation that has one.
    However a numbering is made, an operation has the byte assigned last, and
    that byte stands for no other operation. Overriding twice is overriding once
    with all the assignments, and leaves no operation without a byte. Names are
    looked up first, in the order in which they are given, which in a
    configuration is their own.

    Tables that are kept in both directions and changed in both at every step
    have the same bytes and operations, and the same faults. -/
theorem assignments_spec :
    (∀ es, (∃ t, ofEntries es = .ok t) ↔
      ∃ byte : Opcode → UInt8, (∀ op, LastByte es op (byte op)) ∧ byte.Injective) ∧
    (∀ es e, ofEntries es = .error e ↔ FirstFault es e) ∧
    (∀ es t, Made es t → ∀ op, LastByte es op (t.code op) ∧
      ∀ byte, t.opcode? byte = some op ↔ t.code op = byte) ∧
    (∀ t t₁ more, override t more = .ok t₁ →
      ∀ more', t₁.override more' = t.override (more ++ more')) ∧
    (∀ t more op, override t more ≠ .error (.missing op)) ∧
    (∀ named, (∃ name, FirstUnknown named name ∧ ofNames named = .error (.unknownName name)) ∨
      ∃ es, List.Forall₂ Names named es ∧ ofNames named = ofEntries es) ∧
    (∀ c : Config,
      (∃ name, FirstUnknown c.opcodes name ∧ c.numbering = .error (.unknownName name)) ∨
        ∃ es, List.Forall₂ Names c.opcodes es ∧ c.numbering = classic.override es) ∧
    (∀ text c, Config.ofToml? text = some c → c.opcodes.Pairwise fun a b => a.1 ≤ b.1) ∧
    Table.classic.Agrees classic ∧
    (∀ es, Table.Alike (Table.ofEntries es) (ofEntries es)) ∧
    ∀ table t, Table.Agrees table t → ∀ more,
      Table.Alike (table.override more) (t.override more) := by
  refine ⟨fun es => ofEntries_eq_ok_iff, fun es e => ofEntries_eq_error_iff, fun es t h op =>
    ⟨lastByte?_eq_some_iff.1 (h.lastByte?_eq op), fun byte => opcode?_eq_some_iff⟩,
    fun t t₁ more h => override_override h, override_ne_missing, fun named => ?_, fun c => ?_,
    fun text c => Config.pairwise_opcodes, Table.classic_agrees, Table.alike_ofEntries,
    fun table t => Table.alike_override⟩
  · exact (unknown_or_known named).imp (fun ⟨name, h⟩ => ⟨name, h, ofNames_of_unknown h⟩)
      fun ⟨es, h⟩ => ⟨es, h, ofNames_of_known h⟩
  · exact (unknown_or_known c.opcodes).imp
      (fun ⟨name, h⟩ => ⟨name, h, overrideNames_of_unknown classic h⟩)
      fun ⟨es, h⟩ => ⟨es, h, overrideNames_of_known classic h⟩

/-- Two bytes change places only together. -/
example :
    classic.override [(.popTop, 4)] = .error (.duplicate 4 .popTop .dupTop) ∧
      (classic.override [(.popTop, 4), (.dupTop, 1)]).map (·.opcode? 4) = .ok (some .popTop) :=
  ⟨rfl, rfl⟩

end Numbering

end Stacklet
