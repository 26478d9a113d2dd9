/-
  How statements are grouped does not matter.

  Blocks in blocks, expression statements, and statements without instructions
  only group what is emitted. `Tree.Regroups` is one change of the grouping at
  one place of a tree, and any number of such changes, there and back, leave
  what is emitted as it is.

  * `sequence_append`: sequences in sequence are joined by an operation that is
    associative, so they flatten;
  * `count_sequence`: what a sequence has more than its codes;
  * `Regroups.emitsAlike`: one change, with one lemma for each kind of place;
  * `finish_regrouped`: the units of trees that differ in their grouping.
-/
import Mathlib.Logic.Relation
import Stacklet.Proofs.Compilable
import Stacklet.Proofs.Recursion

namespace Stacklet

/-! ## Codes in sequence -/

/-- One code and then another, the value of the first being dropped in between
    if neither is empty. -/
def inTurn : List Instr → List Instr → List Instr
  | [], more => more
  | code, [] => code
  | code, more => code ++ .popTop :: more

@[simp] theorem nil_inTurn (code : List Instr) : inTurn [] code = code := rfl

@[simp] theorem inTurn_nil (code : List Instr) : inTurn code [] = code := by
  cases code <;> rfl

theorem inTurn_assoc (a b c : List Instr) : inTurn (inTurn a b) c = inTurn a (inTurn b c) := by
  cases a <;> cases b <;> cases c <;> simp [inTurn]

theorem inTurn_eq_nil_iff {a b : List Instr} : inTurn a b = [] ↔ a = [] ∧ b = [] := by
  cases a <;> cases b <;> simp [inTurn]

theorem sequence_cons (code : List Instr) (codes : List (List Instr)) :
    sequence (code :: codes) = inTurn code (sequence codes) := by
  cases code with
  | nil => rfl
  | cons i code =>
    unfold sequence
    rw [List.filter_cons_of_pos rfl]
    cases h : codes.filter (!·.isEmpty) with
    | nil => rw [List.intercalate_singleton, List.intercalate_nil, inTurn_nil]
    | cons next rest =>
      -- the next code is not empty, so the rest of the sequence is not either
      have hnext : next ≠ [] := by
        have hmem : next ∈ codes.filter (!·.isEmpty) := h ▸ List.mem_cons_self
        simpa using (List.mem_filter.1 hmem).2
      obtain ⟨j, next, rfl⟩ := List.exists_cons_of_ne_nil hnext
      cases rest <;> simp [inTurn]

/-- Sequences one after the other. -/
theorem sequence_append (codes more : List (List Instr)) :
    sequence (codes ++ more) = inTurn (sequence codes) (sequence more) := by
  induction codes with
  | nil => rfl
  | cons code codes ih => rw [List.cons_append, sequence_cons, sequence_cons, ih, inTurn_assoc]

/-- **Sequences flatten**: a sequence may stand in another one in place of its
    codes. -/
theorem sequence_sequence (before codes after : List (List Instr)) :
    sequence (before ++ [sequence codes] ++ after) = sequence (before ++ codes ++ after) := by
  have hone : sequence [sequence codes] = sequence codes := by
    rw [sequence_cons]
    exact inTurn_nil _
  simp only [sequence_append, hone]

theorem sequence_eq_nil_iff {codes : List (List Instr)} :
    sequence codes = [] ↔ codes.filter (!·.isEmpty) = [] := by
  induction codes with
  | nil => exact iff_of_true rfl rfl
  | cons code codes ih =>
    rw [sequence_cons, inTurn_eq_nil_iff, ih]
    cases code <;> simp

theorem count_inTurn (i : Instr) (a b : List Instr) :
    (inTurn a b).count i =
      a.count i + b.count i + if i = .popTop ∧ a ≠ [] ∧ b ≠ [] then 1 else 0 := by
  by_cases ha : a = []
  · simp [ha]
  by_cases hb : b = []
  · simp [hb]
  obtain ⟨j, a, rfl⟩ := List.exists_cons_of_ne_nil ha
  obtain ⟨k, b, rfl⟩ := List.exists_cons_of_ne_nil hb
  have hcode : inTurn (j :: a) (k :: b) = (j :: a) ++ Instr.popTop :: k :: b := rfl
  rw [hcode, List.count_append]
  by_cases hi : i = .popTop
  · rw [hi, List.count_cons_self, if_pos ⟨rfl, ha, hb⟩, Nat.add_assoc]
  · rw [List.count_cons_of_ne (Ne.symm hi), if_neg fun h => hi h.1, Nat.add_zero]

/-- What a sequence has more than its codes: a `popTop` between any two that are
    not empty. -/
theorem count_sequence (i : Instr) (codes : List (List Instr)) :
    (sequence codes).count i = (codes.map (List.count i)).sum +
      if i = .popTop then (codes.filter (!·.isEmpty)).length - 1 else 0 := by
  induction codes with
  | nil => simp [sequence]
  | cons code codes ih =>
    have hnil : sequence codes = [] ↔ (codes.filter (!·.isEmpty)).length = 0 :=
      sequence_eq_nil_iff.trans List.length_eq_zero_iff.symm
    rw [sequence_cons, count_inTurn, ih, List.map_cons, List.sum_cons]
    cases code with
    | nil => simp
    | cons j code =>
      rw [List.filter_cons_of_pos rfl, List.length_cons]
      by_cases hi : i = .popTop
      · simp only [hi, if_true, true_and, hnil, ne_eq, reduceCtorEq, not_false_eq_true]
        split <;> omega
      · simp only [hi, if_false, false_and, Nat.add_zero]

/-- The codes of a sequence stand in it in order. -/
theorem flatten_sublist_sequence (codes : List (List Instr)) :
    codes.flatten.Sublist (sequence codes) := by
  induction codes with
  | nil => exact .slnil
  | cons code codes ih =>
    rw [List.flatten_cons, sequence_cons]
    generalize sequence codes = more at ih
    cases more with
    | nil => rw [List.sublist_nil.1 ih, List.append_nil, inTurn_nil]
    | cons j more =>
      cases code with
      | nil => exact ih
      | cons i code => exact (ih.cons .popTop).append_left (i :: code)

/-! ## Regrouping -/

/-- A change of the grouping at one place of a tree, outside of assignment
    targets. -/
inductive Tree.Regroups : Tree → Tree → Prop
  /-- a tree as an expression statement -/
  | wrap t : Regroups t (.expr t)
  /-- the statements of a block in place of the block -/
  | splice before body after :
      Regroups (.block (before ++ .block body :: after)) (.block (before ++ (body ++ after)))
  /-- a statement left out that has no instructions -/
  | leaveOut {t pools} before after : (emit t pools).1 = .ok [] →
      Regroups (.block (before ++ t :: after)) (.block (before ++ after))
  | statement {a b} before after : Regroups a b →
      Regroups (.block (before ++ a :: after)) (.block (before ++ b :: after))
  | expr {a b} : Regroups a b → Regroups (.expr a) (.expr b)
  | value {a b} targets : Regroups a b → Regroups (.assign targets a) (.assign targets b)
  | left {a b} op right : Regroups a b → Regroups (.binary a op right) (.binary b op right)
  | right {a b} left op : Regroups a b → Regroups (.binary left op a) (.binary left op b)
  | callee {a b} args : Regroups a b → Regroups (.call a args) (.call b args)
  | argument {a b} callee before after : Regroups a b →
      Regroups (.call callee (before ++ a :: after)) (.call callee (before ++ b :: after))

/-- The trees differ in the grouping of statements, at any number of places. -/
def Tree.Regrouped : Tree → Tree → Prop := Relation.EqvGen Tree.Regroups

/-- Whatever the pools hold, the same is emitted for both trees. -/
def Tree.EmitsAlike (a b : Tree) : Prop :=
  ∀ pools, emitByRecursion a pools = emitByRecursion b pools

/-! ## Trees in a row -/

theorem emitEachByRecursion_append (ts us : List Tree) (pools : Pools) :
    emitEachByRecursion (ts ++ us) pools =
      emitBind (emitEachByRecursion ts pools) fun codes pools =>
        emitMap (codes ++ ·) (emitEachByRecursion us pools) := by
  induction ts generalizing pools with
  | nil => exact (emitMap_id _).symm
  | cons t ts ih =>
    simp only [List.cons_append, emitEachByRecursion, ih, emitMap_emitBind, emitMap_emitMap,
      emitBind_assoc, emitBind_emitMap]

/-- A tree among others that has no instructions of its own. -/
theorem emitByRecursion_of_nil {t : Tree} {pools : Pools} (h : (emit t pools).1 = .ok [])
    (pools' : Pools) : emitByRecursion t pools' = (.ok [], pools') := by
  rw [emit_eq] at h
  rw [emitByRecursion_eq]
  cases hactions : t.actions with
  | nil => rfl
  | cons a as =>
    -- every action has an instruction, or none of them has
    rw [hactions, translate] at h
    generalize a.emit pools = step at h
    obtain ⟨_ | i, mid⟩ := step
    · cases h
    · rw [emitBind_ok] at h
      generalize translate as mid = rest at h
      obtain ⟨_ | is, last⟩ := rest <;> cases h

namespace Tree

section
variable {a b : Tree} (h : a.EmitsAlike b)
include h

/-- One tree in a row may be exchanged. -/
theorem EmitsAlike.each (before after : List Tree) (pools : Pools) :
    emitEachByRecursion (before ++ a :: after) pools =
      emitEachByRecursion (before ++ b :: after) pools := by
  have htail (pools : Pools) :
      emitEachByRecursion (a :: after) pools = emitEachByRecursion (b :: after) pools := by
    rw [emitEachByRecursion, emitEachByRecursion, h]
  simp only [emitEachByRecursion_append, htail]

theorem EmitsAlike.statement (before after : List Tree) :
    EmitsAlike (.block (before ++ a :: after)) (.block (before ++ b :: after)) := by
  intro pools
  rw [emitByRecursion, emitByRecursion, h.each]

theorem EmitsAlike.value (targets : List Target) :
    EmitsAlike (.assign targets a) (.assign targets b) := by
  intro pools
  by_cases hname : ∃ id, targets = [.name id]
  · obtain ⟨id, rfl⟩ := hname
    rw [emitByRecursion, emitByRecursion, h]
  · rw [emitByRecursion_eq, emitByRecursion_eq, actions_assign_unsupported hname,
      actions_assign_unsupported hname]

theorem EmitsAlike.left (op : BinOp) (right : Tree) :
    EmitsAlike (.binary a op right) (.binary b op right) := by
  intro pools
  rw [emitByRecursion, emitByRecursion, h]

theorem EmitsAlike.right (left : Tree) (op : BinOp) :
    EmitsAlike (.binary left op a) (.binary left op b) := by
  intro pools
  have ha : emitByRecursion a = emitByRecursion b := funext h
  rw [emitByRecursion, emitByRecursion, ha]

theorem EmitsAlike.callee (args : List Tree) : EmitsAlike (.call a args) (.call b args) := by
  intro pools
  rw [emitByRecursion, emitByRecursion, h]

theorem EmitsAlike.argument (callee : Tree) (before after : List Tree) :
    EmitsAlike (.call callee (before ++ a :: after)) (.call callee (before ++ b :: after)) := by
  intro pools
  have hlength : (before ++ a :: after).length = (before ++ b :: after).length := by simp
  simp only [emitByRecursion, h.each, hlength]

end

/-- A block among statements has the instructions of its statements. -/
theorem emitsAlike_splice (before body after : List Tree) :
    EmitsAlike (.block (before ++ .block body :: after)) (.block (before ++ (body ++ after))) := by
  intro pools
  have hflat (codes inner rest : List (List Instr)) :
      sequence (codes ++ sequence inner :: rest) = sequence (codes ++ (inner ++ rest)) := by
    simpa using sequence_sequence codes inner rest
  simp only [emitByRecursion, emitEachByRecursion_append, emitEachByRecursion, emitMap_emitBind,
    emitBind_emitMap, emitMap_emitMap, hflat]

theorem emitsAlike_leaveOut {t : Tree} {pools : Pools} (h : (emit t pools).1 = .ok [])
    (before after : List Tree) :
    EmitsAlike (.block (before ++ t :: after)) (.block (before ++ after)) := by
  intro pools'
  have hskip (codes rest : List (List Instr)) :
      sequence (codes ++ [] :: rest) = sequence (codes ++ rest) := by
    rw [sequence_append, sequence_append]
    rfl
  simp only [emitByRecursion, emitEachByRecursion_append, emitEachByRecursion,
    emitByRecursion_of_nil h, emitBind_ok, emitMap_emitBind, emitMap_emitMap, hskip]

/-- One change of the grouping, by induction on the place where it is made. -/
theorem Regroups.emitsAlike {a b : Tree} (h : a.Regroups b) : a.EmitsAlike b := by
  induction h with
  | wrap t => exact fun _ => rfl
  | splice before body after => exact emitsAlike_splice before body after
  | leaveOut before after h => exact emitsAlike_leaveOut h before after
  | statement before after _ ih => exact ih.statement before after
  | expr _ ih => exact ih
  | value targets _ ih => exact ih.value targets
  | left op right _ ih => exact ih.left op right
  | right left op _ ih => exact ih.right left op
  | callee args _ ih => exact ih.callee args
  | argument callee before after _ ih => exact ih.argument callee before after

/-- All changes of the grouping. -/
theorem Regrouped.emit_eq {a b : Tree} (h : a.Regrouped b) (pools : Pools) :
    emit a pools = emit b pools := by
  rw [emit_eq_emitByRecursion, emit_eq_emitByRecursion]
  induction h with
  | rel a b h => exact h.emitsAlike pools
  | refl a => rfl
  | symm a b _ ih => exact ih.symm
  | trans a b c _ _ ih ih' => exact ih.trans ih'

end Tree

/-! ## Units -/

/-- **Grouping of statements cannot be seen in a unit.** Trees that differ in it
    compile into the same unit or are refused for the same reason, from any
    pools (`ofTree` begins with empty ones), and leave the same pools when they
    are emitted. The reason is that sequences flatten. A sequence holds its codes
    in order and nothing else but `popTop`s, one fewer than there are codes that
    are not empty. -/
theorem finish_regrouped :
    (∀ a b : Tree, a.Regrouped b →
      (∀ pools, emit a pools = emit b pools) ∧
        ∀ t options pools,
          CodeUnit.finish t options a pools = CodeUnit.finish t options b pools) ∧
      (∀ before codes after,
        sequence (before ++ [sequence codes] ++ after) = sequence (before ++ codes ++ after)) ∧
      ∀ codes, codes.flatten.Sublist (sequence codes) ∧
        ∀ i, (sequence codes).count i = (codes.map (List.count i)).sum +
          if i = .popTop then (codes.filter (!·.isEmpty)).length - 1 else 0 := by
  refine ⟨fun a b h => ⟨h.emit_eq, fun t options pools => ?_⟩, sequence_sequence, fun codes =>
    ⟨flatten_sublist_sequence codes, fun i => count_sequence i codes⟩⟩
  rw [CodeUnit.finish, CodeUnit.finish, CodeUnit.instructionsOf, CodeUnit.instructionsOf, h.emit_eq]

namespace Tree

/-- `x = 1` -/
def bound : Tree := .assign [.name "x"] (.num (.int 1))

/-- `print(x)`, with the callee as an expression statement. -/
def shown : Tree := .call (.expr (.name "print")) [.name "x"]

/-- `x = 1` and an empty block in a block of their own, and then `print(x)`. -/
def nestedStatements : Tree := .block [.expr (.block [bound, .block []]), shown]

/-- `x = 1` and `print(x)`. -/
def flatStatements : Tree := .block [bound, .expr (.call (.name "print") [.name "x"])]

theorem regrouped_nestedStatements : nestedStatements.Regrouped flatStatements := by
  have hunwrap := Regroups.statement [] [shown] (.wrap (.block [bound, .block []]))
  have hsplice := Regroups.splice [] [bound, .block []] [shown]
  have hsilent : (emit (.block []) .empty).1 = .ok [] := by
    rw [emit_eq]
    rfl
  have hleaveOut := Regroups.leaveOut [bound] [shown] hsilent
  have hcallee := Regroups.statement [bound] [] (.callee [.name "x"] (.wrap (.name "print")))
  have hwrap := Regroups.statement [bound] [] (.wrap (.call (.name "print") [.name "x"]))
  refine .trans _ _ _ (.symm _ _ (.rel _ _ hunwrap)) ?_
  refine .trans _ _ _ (.rel _ _ hsplice) ?_
  refine .trans _ _ _ (.rel _ _ hleaveOut) ?_
  exact .trans _ _ _ (.symm _ _ (.rel _ _ hcallee)) (.rel _ _ hwrap)

end Tree

theorem finish_regrouped_nestedStatements :
    ∃ u, CodeUnit.ofTree .classic .default Tree.flatStatements = .ok u ∧
      CodeUnit.ofTree .classic .default Tree.nestedStatements = .ok u := by
  obtain ⟨u, hu⟩ := (CodeUnit.exists_ofTree_iff .classic .default .flatStatements).2 (by decide)
  refine ⟨u, hu, ?_⟩
  rw [CodeUnit.ofTree] at hu ⊢
  rw [(finish_regrouped.1 _ _ Tree.regrouped_nestedStatements).2, hu]

end Stacklet
