/-
  Which trees compile, and which error the others give.

  `Tree.Compilable` says it node by node. Emission reports the first violation
  among the actions of a unit (`firstViolation?`); if there is none, the stack
  check reports the first place where an operand is missing.

  * `firstViolation?_eq_none_iff`: actions without violation are fine one by
    one, and their constants and names fit;
  * `firstViolation?_unitActions`: what that means for the nodes of a tree;
  * `compiles_iff`: the outcome of a compilation;
  * `holds_of_ofTree`: what a compiled unit is.
-/
import Stacklet.Proofs.Codec
import Stacklet.Proofs.Emission
import Stacklet.Proofs.Height

namespace Stacklet

/-! ## Actions without violation -/

theorem countDistinct_concat {κ : Type} [DecidableEq κ] (ks : List κ) (k : κ) :
    countDistinct (ks ++ [k]) = if k ∈ ks then countDistinct ks else countDistinct ks + 1 := by
  have hk : (ks ++ [k]).toFinset = insert k ks.toFinset := by
    ext
    simp
  rw [countDistinct, hk, Finset.card_insert_eq_ite]
  simp only [List.mem_toFinset, countDistinct]

theorem countDistinct_le_append {κ : Type} [DecidableEq κ] (ks ls : List κ) :
    countDistinct ks ≤ countDistinct (ks ++ ls) := by
  refine Finset.card_le_card fun k hk => ?_
  rw [List.mem_toFinset] at hk ⊢
  exact List.mem_append_left ls hk

/-- A value does not overflow if, with it, the values still fit. -/
theorem overflow?_eq_none_iff {κ : Type} [DecidableEq κ] {ks : List κ}
    (h : countDistinct ks ≤ maxOperand + 1) (context : String) (k : κ) :
    overflow? context ks k = none ↔ countDistinct (ks ++ [k]) ≤ maxOperand + 1 := by
  rw [countDistinct_concat, overflow?]
  by_cases hk : k ∈ ks
  · simp [hk, h]
  · simp [hk]

/-- The constants and names of actions fit their pools. -/
structure Fit (as : List Action) : Prop where
  consts : countDistinct ((constantsOf as).map Constant.key) ≤ maxOperand + 1
  names : countDistinct (namesOf as) ≤ maxOperand + 1

theorem Fit.of_append {as bs : List Action} (h : Fit (as ++ bs)) : Fit as := by
  have hc := h.consts
  have hn := h.names
  rw [constantsOf_append, List.map_append] at hc
  rw [namesOf_append] at hn
  exact ⟨(countDistinct_le_append _ _).trans hc, (countDistinct_le_append _ _).trans hn⟩

/-- Nothing is wrong with an action on its own. -/
def Action.IsFine : Action → Prop
  | call count => count ≤ maxOperand
  | reject _ => False
  | _ => True

section
variable {before : List Action} (h : Fit before)
include h

theorem fit_concat_load (c : Constant) :
    Fit (before ++ [.load c]) ↔
      countDistinct ((constantsOf before).map Constant.key ++ [c.key]) ≤ maxOperand + 1 := by
  have hc : (constantsOf (before ++ [.load c])).map Constant.key =
      (constantsOf before).map Constant.key ++ [c.key] := by
    rw [constantsOf_append, List.map_append]
    rfl
  have hn : namesOf (before ++ [.load c]) = namesOf before := by
    rw [namesOf_append]
    exact List.append_nil _
  rw [← hc]
  exact ⟨fun hf => hf.consts, fun hf => ⟨hf, hn ▸ h.names⟩⟩

theorem fit_concat_named {a : Action} {id : String} (hc : a.constant? = none)
    (hn : a.name? = some id) :
    Fit (before ++ [a]) ↔ countDistinct (namesOf before ++ [id]) ≤ maxOperand + 1 := by
  have hc : constantsOf (before ++ [a]) = constantsOf before := by
    simp [constantsOf, hc]
  have hn : namesOf (before ++ [a]) = namesOf before ++ [id] := by
    simp [namesOf, hn]
  rw [← hn]
  exact ⟨fun hf => hf.names, fun hf => ⟨hc ▸ h.consts, hf⟩⟩

theorem fit_concat {a : Action} (hc : a.constant? = none) (hn : a.name? = none) :
    Fit (before ++ [a]) := by
  have hc : constantsOf (before ++ [a]) = constantsOf before := by
    simp [constantsOf, hc]
  have hn : namesOf (before ++ [a]) = namesOf before := by
    simp [namesOf, hn]
  exact ⟨hc ▸ h.consts, hn ▸ h.names⟩

theorem violation?_eq_none_iff (a : Action) :
    a.violation? before = none ↔ a.IsFine ∧ Fit (before ++ [a]) := by
  cases a with
  | load c =>
    rw [Action.violation?, overflow?_eq_none_iff h.consts, fit_concat_load h]
    exact (and_iff_right trivial).symm
  | fetch id | store id =>
    rw [Action.violation?, overflow?_eq_none_iff h.names, fit_concat_named h rfl rfl]
    exact (and_iff_right trivial).symm
  | call count | add | drop | dup | ret | reject =>
    refine Iff.trans ?_ (and_iff_left (fit_concat h rfl rfl)).symm
    simp [Action.violation?, Action.IsFine]

end

/-- Actions have no violation if none of them is wrong on its own, and their
    constants and names fit. -/
theorem firstViolation?_eq_none_iff {before as : List Action} (h : Fit before) :
    firstViolation? before as = none ↔ (∀ a ∈ as, a.IsFine) ∧ Fit (before ++ as) := by
  induction as generalizing before with
  | nil => simp [firstViolation?, h]
  | cons a as ih =>
    have hv := violation?_eq_none_iff h a
    rw [firstViolation?]
    cases hva : a.violation? before with
    | some e =>
      rw [hva] at hv
      simp only [reduceCtorEq, false_iff, not_and, List.forall_mem_cons] at hv ⊢
      rintro ⟨ha, -⟩ hfit
      rw [← List.singleton_append, ← List.append_assoc] at hfit
      exact hv ha hfit.of_append
    | none =>
      obtain ⟨ha, hfit⟩ := hv.1 hva
      simp only [ih hfit, List.forall_mem_cons, ha, true_and, List.append_assoc,
        List.singleton_append]

/-! ## Trees without violation -/

/-- **What a tree must be like to compile.** -/
structure Tree.Compilable (t : Tree) : Prop where
  /-- all operators are additions -/
  operators : ∀ left op right, .binary left op right ∈ t.nodes → op = .add
  /-- all assignments have one plain name for their target -/
  targets : ∀ targets value, .assign targets value ∈ t.nodes → ∃ id, targets = [.name id]
  calls : ∀ callee args, .call callee args ∈ t.nodes → args.length ≤ maxOperand
  /-- one number is left for `None` -/
  literals : countDistinct (t.literals.map Constant.key) ≤ maxOperand
  names : countDistinct t.names ≤ maxOperand + 1
  /-- all operands leave values -/
  operands : ∀ node ∈ t.nodes, ∀ operand ∈ node.operands, ¬ operand.isSilent

namespace Tree

theorem supported_iff_nodes (t : Tree) :
    t.Supported ↔ (∀ left op right, .binary left op right ∈ t.nodes → op = .add) ∧
      ∀ targets value, .assign targets value ∈ t.nodes → ∃ id, targets = [.name id] := by
  constructor
  · exact fun h => ⟨fun left op right hn => h _ hn, fun targets value hn => h _ hn⟩
  · rintro ⟨hop, ht⟩ node hn
    cases node with
    | binary left op right => exact hop left op right hn
    | assign targets value => exact ht targets value hn
    | block | expr | name | num | call => trivial

theorem isFine_unitActions (t : Tree) :
    (∀ a ∈ t.unitActions, a.IsFine) ↔
      t.Supported ∧ ∀ callee args, .call callee args ∈ t.nodes → args.length ≤ maxOperand := by
  have hunit : (∀ a ∈ t.unitActions, a.IsFine) ↔ ∀ a ∈ t.actions, a.IsFine := by
    constructor
    · intro h a ha
      by_cases hd : a = .drop
      · exact hd ▸ trivial
      · exact h a ((mem_joined a hd).2 ⟨_, List.mem_cons_self, ha⟩)
    · intro h a ha
      by_cases hd : a = .drop
      · exact hd ▸ trivial
      · obtain ⟨as, has, ha⟩ := (mem_joined a hd).1 ha
        rcases List.mem_cons.1 has with rfl | has
        · exact h a ha
        · rw [List.mem_singleton] at has
          subst has
          rcases List.mem_cons.1 ha with rfl | ha
          · trivial
          · rw [List.mem_singleton.1 ha]
            trivial
  rw [hunit]
  constructor
  · intro h
    have hs : t.Supported := (supported_iff t).2 fun e he => h _ he
    exact ⟨hs, fun callee args hn => h _ ((call_mem_actions t hs _).2 ⟨callee, args, hn, rfl⟩)⟩
  · rintro ⟨hs, hcalls⟩ a ha
    cases a with
    | call count =>
      obtain ⟨callee, args, hn, rfl⟩ := (call_mem_actions t hs count).1 ha
      exact hcalls callee args hn
    | reject e => exact (supported_iff t).1 hs e ha
    | load | fetch | store | add | drop | dup | ret => trivial

/-- A literal is not `None`. -/
theorem none_notMem_literals (t : Tree) : Constant.none ∉ t.literals.map Constant.key := by
  rw [List.mem_map]
  rintro ⟨c, hc, hk⟩
  obtain ⟨node, -, hnode⟩ := List.mem_filterMap.1 hc
  cases node with
  | num n =>
    cases hnode
    cases n <;> cases hk
  | block | expr | assign | name | binary | call => cases hnode

theorem constantsOf_unitActions (t : Tree) (hs : t.Supported) :
    constantsOf t.unitActions = t.literals ++ [.none] := by
  rw [constantsOf, unitActions, filterMap_joined rfl, ← constantsOf_actions t hs]
  rfl

theorem namesOf_unitActions (t : Tree) (hs : t.Supported) : namesOf t.unitActions = t.names := by
  rw [namesOf, unitActions, filterMap_joined rfl, ← namesOf_actions t hs]
  exact List.append_nil _

theorem fit_unitActions (t : Tree) (hs : t.Supported) :
    Fit t.unitActions ↔ countDistinct (t.literals.map Constant.key) ≤ maxOperand ∧
      countDistinct t.names ≤ maxOperand + 1 := by
  have hn := namesOf_unitActions t hs
  have hcount : countDistinct ((constantsOf t.unitActions).map Constant.key) =
      countDistinct (t.literals.map Constant.key) + 1 := by
    rw [constantsOf_unitActions t hs, List.map_append, List.map_singleton, countDistinct_concat]
    exact if_neg t.none_notMem_literals
  constructor
  · intro h
    exact ⟨Nat.le_of_succ_le_succ (hcount.ge.trans h.consts), hn ▸ h.names⟩
  · rintro ⟨hl, hns⟩
    exact ⟨hcount.le.trans (Nat.succ_le_succ hl), hn ▸ hns⟩

/-- The actions of a unit have no violation if the tree compiles, but for
    operands that are missing. -/
theorem firstViolation?_unitActions (t : Tree) :
    (firstViolation? [] t.unitActions = none ∧ t.Filled) ↔ t.Compilable := by
  have hfit : Fit [] := ⟨Nat.zero_le _, Nat.zero_le _⟩
  rw [firstViolation?_eq_none_iff hfit, isFine_unitActions, List.nil_append]
  constructor
  · rintro ⟨⟨⟨hs, hcalls⟩, hu⟩, hf⟩
    obtain ⟨hop, ht⟩ := (supported_iff_nodes t).1 hs
    obtain ⟨hl, hn⟩ := (fit_unitActions t hs).1 hu
    exact ⟨hop, ht, hcalls, hl, hn, hf⟩
  · rintro ⟨hop, ht, hcalls, hl, hn, hf⟩
    have hs := (supported_iff_nodes t).2 ⟨hop, ht⟩
    exact ⟨⟨⟨hs, hcalls⟩, (fit_unitActions t hs).2 ⟨hl, hn⟩⟩, hf⟩

theorem Compilable.supported {t : Tree} (h : t.Compilable) : t.Supported :=
  (supported_iff_nodes t).2 ⟨h.operators, h.targets⟩

instance (t : Tree) : Decidable t.Compilable := decidable_of_iff _ t.firstViolation?_unitActions

/-- `print(1 + 2)` -/
def printSum : Tree :=
  .block [.expr (.call (.name "print") [.binary (.num (.int 1)) .add (.num (.int 2))])]

example : printSum.Compilable := by decide

end Tree

/-! ## Outcomes -/

namespace CodeUnit

theorem checkedDepth_of_underflow {is : List Instr} {e : HeightError}
    (h : Instr.maxDepth is = .error e) : checkedDepth is = .error (.height e) := by
  simp only [checkedDepth, h]

theorem checkedDepth_of_balanced {is : List Instr} {depth : Nat}
    (h : Instr.maxDepth is = .ok depth) (hlast : Instr.finalHeight is = .ok 0) :
    checkedDepth is = .ok depth := by
  simp only [checkedDepth, h, Instr.checkBalanced, hlast]

theorem maxDepth_of_checkedDepth {is : List Instr} {depth : Nat}
    (h : checkedDepth is = .ok depth) : Instr.maxDepth is = .ok depth := by
  cases hmax : Instr.maxDepth is with
  | error e =>
    rw [checkedDepth_of_underflow hmax] at h
    cases h
  | ok d =>
    cases hb : Instr.checkBalanced is with
    | error e => simp [checkedDepth, hmax, hb] at h
    | ok _ => simpa [checkedDepth, hmax, hb] using h

variable (t : Numbering) (options : UnitOptions) (tree : Tree)

/-- A violation is the error of the compilation. -/
theorem ofTree_of_violation {e : CompileError} (h : firstViolation? [] tree.unitActions = some e) :
    ofTree t options tree = .error e := by
  have hrun := translate_empty tree.unitActions
  rw [h] at hrun
  rw [ofTree, finish, instructionsOf_eq]
  generalize translate tree.unitActions .empty = run at hrun ⊢
  obtain ⟨r, pools⟩ := run
  rw [show r = .error e from hrun]

/-- What instructions a tree without violation has, and how they are checked. -/
theorem ofTree_of_no_violation (h : firstViolation? [] tree.unitActions = none) :
    ∃ is pools, ofTree t options tree = (checkedDepth is).map (assemble t options pools is) ∧
      pools.After tree.unitActions ∧
      List.Forall₂ (Does pools.consts.values pools.names.values) tree.unitActions is := by
  have hrun := translate_empty tree.unitActions
  rw [h] at hrun
  obtain ⟨is, pools, hrun, hafter, hdoes⟩ := hrun
  refine ⟨is, pools, ?_, hafter, hdoes⟩
  simp only [ofTree, finish, instructionsOf_eq, hrun]
  cases checkedDepth is <;> rfl

/-- A tree without violation compiles if no operand is missing. -/
theorem ofTree_of_filled (h : firstViolation? [] tree.unitActions = none) (hs : tree.Supported)
    (hf : tree.Filled) : ∃ u, ofTree t options tree = .ok u := by
  obtain ⟨is, pools, hr, -, hdoes⟩ := ofTree_of_no_violation t options tree h
  obtain ⟨⟨depth, hmax⟩, hlast⟩ :=
    maxDepth_of_heightPast? hdoes (tree.heightPast?_unitActions hs hf) 0 0
  rw [hr, checkedDepth_of_balanced hmax hlast]
  exact ⟨_, rfl⟩

/-- The stack check fails where an operand is missing. -/
theorem ofTree_of_not_filled (h : firstViolation? [] tree.unitActions = none)
    (hs : tree.Supported) (hf : ¬ tree.Filled) :
    ∃ before a had i, FallsShort tree.unitActions before a had ∧
      (∃ consts names, Does consts names a i) ∧
      ofTree t options tree = .error (.height (.shortBy before.length i a.pops had)) := by
  obtain ⟨is, pools, hr, -, hdoes⟩ := ofTree_of_no_violation t options tree h
  obtain ⟨before, a, had, i, hshort, hai, hmax⟩ :=
    maxDepth_of_underflow hdoes (tree.heightPast?_unitActions_of_not hs hf) 0 0
  rw [Nat.zero_add] at hmax
  refine ⟨before, a, had, i, hshort, ⟨_, _, hai⟩, ?_⟩
  rw [hr, checkedDepth_of_underflow hmax]
  rfl

theorem supported_of_no_violation (h : firstViolation? [] tree.unitActions = none) :
    tree.Supported := by
  have hfine := (firstViolation?_eq_none_iff ⟨Nat.zero_le _, Nat.zero_le _⟩).1 h
  exact (tree.isFine_unitActions.1 hfine.1).1

theorem exists_ofTree_iff : (∃ u, ofTree t options tree = .ok u) ↔ tree.Compilable := by
  rw [← tree.firstViolation?_unitActions]
  constructor
  · rintro ⟨u, hu⟩
    cases hv : firstViolation? [] tree.unitActions with
    | some e =>
      rw [ofTree_of_violation t options tree hv] at hu
      cases hu
    | none =>
      refine ⟨rfl, ?_⟩
      by_contra hf
      obtain ⟨before, a, had, i, -, -, herr⟩ :=
        ofTree_of_not_filled t options tree hv (supported_of_no_violation tree hv) hf
      rw [herr] at hu
      cases hu
  · rintro ⟨hv, hf⟩
    exact ofTree_of_filled t options tree hv (supported_of_no_violation tree hv) hf

/-- **Which trees compile, and the error of any other.** That is the first
    violation in the order of emission; without one, the stack check names the
    first action that finds too few values, with the number it needs and the
    number there is. -/
theorem compiles_iff :
    ((∃ u, ofTree t options tree = .ok u) ↔ tree.Compilable) ∧
      match firstViolation? [] tree.unitActions with
      | some e => ofTree t options tree = .error e
      | none => tree.Compilable ∨ ∃ before a had i, FallsShort tree.unitActions before a had ∧
          (∃ consts names, Does consts names a i) ∧
          ofTree t options tree = .error (.height (.shortBy before.length i a.pops had)) := by
  refine ⟨exists_ofTree_iff t options tree, ?_⟩
  cases hv : firstViolation? [] tree.unitActions with
  | some e => exact ofTree_of_violation t options tree hv
  | none =>
    by_cases hf : tree.Filled
    · exact Or.inl (tree.firstViolation?_unitActions.1 ⟨hv, hf⟩)
    · exact Or.inr
        (ofTree_of_not_filled t options tree hv (supported_of_no_violation tree hv) hf)

/-! ## Compiled units -/

/-- A unit compiled for a tree: its instructions, which do what the tree says
    and pass the stack check. -/
structure Holds (u : CodeUnit) (is : List Instr) (depth : Nat) : Prop where
  compilable : tree.Compilable
  code : u.code = Instr.encodeAll t is
  stackSize : u.stackSize = UInt32.ofNat depth
  maxDepth : Instr.maxDepth is = .ok depth
  does : List.Forall₂ (Does u.consts u.names) tree.unitActions is
  consts : u.consts.toList = firstUses Constant.key (constantsOf tree.unitActions)
  names : u.names.toList = firstUses id (namesOf tree.unitActions)

variable {t options tree}

theorem holds_of_ofTree {u : CodeUnit} (h : ofTree t options tree = .ok u) :
    ∃ is depth, Holds t tree u is depth := by
  have hc := (exists_ofTree_iff t options tree).1 ⟨u, h⟩
  obtain ⟨is, pools, hr, hafter, hdoes⟩ :=
    ofTree_of_no_violation t options tree (tree.firstViolation?_unitActions.2 hc).1
  rw [h] at hr
  cases hd : checkedDepth is with
  | error e =>
    rw [hd] at hr
    cases hr
  | ok depth =>
    rw [hd] at hr
    cases hr
    exact ⟨is, depth, hc, rfl, rfl, maxDepth_of_checkedDepth hd, hdoes, hafter.consts,
      hafter.names⟩

namespace Holds
variable {u : CodeUnit} {is : List Instr} {depth : Nat} (h : Holds t tree u is depth)
include h

theorem nodup : (u.consts.toList.map Constant.key).Nodup := by
  rw [h.consts]
  exact nodup_firstUses _

theorem instructions : u.instructions t = .ok (Instr.placed 0 is) := by
  rw [CodeUnit.instructions, h.code, Instr.decode_encodeAll]

end Holds

end CodeUnit

end Stacklet
