/-
  When actions have instructions, and which.

  Only few things go wrong in a translation: a tree is refused, an operand
  counts too many arguments, or a constant or name is one too many for its
  pool. `firstViolation?` finds the first such fault in a list of actions from
  the actions alone, by the constants and names that come before it.

  * `emit_after` is the step and `translate_after` the run: from pools that
    hold what was used before (`Pools.After`), actions fail with their first
    violation, and otherwise yield instructions that do what the actions say
    (`Does`);
  * `translate_empty` is the run from empty pools.
-/
import Stacklet.Proofs.Action
import Stacklet.Proofs.FirstUses

namespace Stacklet

/-! ## Constants and names in use -/

namespace Action

/-- The constant that is loaded. -/
def constant? : Action → Option Constant
  | load c => some c
  | _ => none

/-- The name that is read or bound. -/
def name? : Action → Option String
  | fetch id | store id => some id
  | _ => none

/-- The number of arguments of a call. -/
def argCount? : Action → Option Nat
  | call count => some count
  | _ => none

end Action

/-- The constants that actions load, in order. -/
def constantsOf (as : List Action) : List Constant := as.filterMap Action.constant?

/-- The names that actions read and bind, in order. -/
def namesOf (as : List Action) : List String := as.filterMap Action.name?

/-! ## Violations -/

/-- The number of different values in a list. -/
def countDistinct {κ : Type} [DecidableEq κ] (ks : List κ) : Nat := ks.toFinset.card

/-- A value that follows others has no number that fits an operand: it is new,
    and there are too many before it. -/
def overflow? {κ : Type} [DecidableEq κ] (context : String) (before : List κ) (k : κ) :
    Option CompileError :=
  if k ∈ before ∨ countDistinct before ≤ maxOperand then none
  else some (.operandOverflow (countDistinct before) context)

/-- Why there is no instruction for an action that comes after others. -/
def Action.violation? (before : List Action) : Action → Option CompileError
  | load c => overflow? Pools.constantContext ((constantsOf before).map Constant.key) c.key
  | fetch id | store id => overflow? Pools.nameContext (namesOf before) id
  | call count =>
    if count ≤ maxOperand then none else some (.operandOverflow count Pools.callContext)
  | reject e => some e
  | add | drop | dup | ret => none

/-- The first violation among actions that come after others. -/
def firstViolation? (before : List Action) : List Action → Option CompileError
  | [] => none
  | a :: as =>
    match a.violation? before with
    | some e => some e
    | none => firstViolation? (before ++ [a]) as

/-! ## Instructions that do what actions say -/

/-- In code with the given pools, an instruction does an action. -/
inductive Does (consts : Array Constant) (names : Array String) : Action → Instr → Prop
  | load {c n} : consts[n.toNat]?.map Constant.key = some c.key →
      Does consts names (.load c) (.loadConst n)
  | fetch {id n} : names[n.toNat]? = some id → Does consts names (.fetch id) (.loadGlobal n)
  | store {id n} : names[n.toNat]? = some id → Does consts names (.store id) (.storeGlobal n)
  | add : Does consts names .add .binaryAdd
  | call {count n} : n.toNat = count → Does consts names (.call count) (.callFunction n)
  | drop : Does consts names .drop .popTop
  | dup : Does consts names .dup .dupTop
  | ret : Does consts names .ret .returnValue

theorem getElem?_mono {α : Type} {xs ys : Array α} (h : xs.toList <+: ys.toList) {i : Nat}
    {a : α} (ha : xs[i]? = some a) : ys[i]? = some a := by
  rw [← Array.getElem?_toList] at ha ⊢
  obtain ⟨hi, rfl⟩ := List.getElem?_eq_some_iff.1 ha
  exact List.prefix_iff_getElem?.1 h i hi

/-- Pools that grow keep the meaning of instructions. -/
theorem Does.mono {consts consts' : Array Constant} {names names' : Array String} {a : Action}
    {i : Instr} (h : Does consts names a i) (hc : consts.toList <+: consts'.toList)
    (hn : names.toList <+: names'.toList) : Does consts' names' a i := by
  cases h with
  | load h =>
    obtain ⟨b, hb, hk⟩ := Option.map_eq_some_iff.1 h
    exact .load (by rw [getElem?_mono hc hb, Option.map_some, hk])
  | fetch h => exact .fetch (getElem?_mono hn h)
  | store h => exact .store (getElem?_mono hn h)
  | call h => exact .call h
  | add => exact .add
  | drop => exact .drop
  | dup => exact .dup
  | ret => exact .ret

/-! ## Operands -/

theorem operandInstr_of_le (op : Opcode) {n : Nat} (h : op.hasOperand) (hn : n ≤ maxOperand)
    (context : String) :
    ∃ v i, operandInstr op n context = .ok i ∧ Instr.ofParts op (some v) = .ok i ∧
      v.toNat = n := by
  have hv : (UInt16.ofNat n).toNat = n := by
    rw [UInt16.toNat_ofNat']
    exact Nat.mod_eq_of_lt (Nat.lt_succ_of_le hn)
  refine ⟨UInt16.ofNat n, ?_⟩
  simp only [operandInstr, Instr.withOperand, h, if_true, operandOf, hn]
  cases op with
  | loadConst | loadGlobal | storeGlobal | callFunction => exact ⟨_, rfl, rfl, hv⟩
  | binaryAdd | returnValue | popTop | dupTop => cases h

theorem operandInstr_of_gt {op : Opcode} {n : Nat} (h : op.hasOperand) (hn : ¬ n ≤ maxOperand)
    (context : String) : operandInstr op n context = .error (.operandOverflow n context) := by
  simp only [operandInstr, Instr.withOperand, h, if_true, operandOf, hn, if_false,
    CompileError.ofInstrError]

/-! ## Interning in a pool that is full at most -/

section
variable {α κ : Type} [DecidableEq κ] [Hashable κ] {key : α → κ} {p : Pool key} {as : List α}

theorem mem_values_iff (h : p.values.toList = firstUses key as) (a : α) :
    key a ∈ p.values.toList.map key ↔ key a ∈ as.map key := by
  rw [h, mem_map_firstUses]

/-- The number of a value fits an operand unless it is the next one of a full
    pool. -/
theorem fst_intern_le_or (h : p.values.toList = firstUses key as)
    (hp : p.values.toList.length ≤ maxOperand + 1) (a : α) :
    (key a ∈ as.map key ∨ countDistinct (as.map key) ≤ maxOperand) ∧
        (p.intern a).1 ≤ maxOperand ∧
        (p.intern a).2.values.toList.length ≤ maxOperand + 1 ∨
      ¬ (key a ∈ as.map key ∨ countDistinct (as.map key) ≤ maxOperand) ∧
        (p.intern a).1 = countDistinct (as.map key) := by
  have hl : p.values.toList.length = countDistinct (as.map key) := by
    rw [h, length_firstUses, countDistinct]
  have hlt := p.fst_intern_lt a
  have hs := p.values_intern_toList a
  by_cases hm : key a ∈ as.map key
  · left
    rw [addNew, if_pos ((mem_values_iff h a).2 hm)] at hlt hs
    refine ⟨Or.inl hm, by omega, by rwa [hs]⟩
  · have hm' := mt (mem_values_iff h a).1 hm
    have hn := Pool.fst_intern_of_new hm'
    rw [addNew, if_neg hm'] at hs
    by_cases hc : countDistinct (as.map key) ≤ maxOperand
    · left
      refine ⟨Or.inr hc, by omega, ?_⟩
      rw [hs, List.length_append, List.length_singleton]
      omega
    · right
      exact ⟨by simp [hm, hc], by omega⟩

/-- An instruction on a value that is interned, if its number is no overflow. -/
theorem operandInstr_intern (h : p.values.toList = firstUses key as)
    (hp : p.values.toList.length ≤ maxOperand + 1) (op : Opcode) (hop : op.hasOperand)
    (context : String) (a : α) :
    match overflow? context (as.map key) (key a) with
    | some e => operandInstr op (p.intern a).1 context = .error e
    | none => ∃ v i, operandInstr op (p.intern a).1 context = .ok i ∧
        Instr.ofParts op (some v) = .ok i ∧
        (p.intern a).2.values[v.toNat]?.map key = some (key a) ∧
        (p.intern a).2.values.toList.length ≤ maxOperand + 1 := by
  rcases fst_intern_le_or h hp a with ⟨hc, hle, hlen⟩ | ⟨hc, heq⟩
  · obtain ⟨v, i, hi, hparts, hv⟩ := operandInstr_of_le op hop hle context
    rw [overflow?, if_pos hc]
    exact ⟨v, i, hi, hparts, by rw [hv, p.getElem?_intern], hlen⟩
  · rw [overflow?, if_neg hc]
    rw [not_or, ← heq] at hc
    rw [← heq]
    exact operandInstr_of_gt hop hc.2 context

end

/-! ## Step and run -/

/-- The pools hold what actions use, and any operand can count it. -/
structure Pools.After (pools : Pools) (as : List Action) : Prop where
  consts : pools.consts.values.toList = firstUses Constant.key (constantsOf as)
  names : pools.names.values.toList = firstUses id (namesOf as)
  consts_le : pools.consts.values.toList.length ≤ maxOperand + 1
  names_le : pools.names.values.toList.length ≤ maxOperand + 1

theorem after_empty : Pools.empty.After [] := ⟨rfl, rfl, Nat.zero_le _, Nat.zero_le _⟩

theorem constantsOf_append (as bs : List Action) :
    constantsOf (as ++ bs) = constantsOf as ++ constantsOf bs := List.filterMap_append

theorem namesOf_append (as bs : List Action) : namesOf (as ++ bs) = namesOf as ++ namesOf bs :=
  List.filterMap_append

/-- What an action that comes after others yields, and what it leaves. -/
def Action.Yields (before : List Action) (a : Action) (r : Except CompileError Instr × Pools) :
    Prop :=
  match a.violation? before with
  | some e => r.1 = .error e
  | none => ∃ i, r.1 = .ok i ∧ r.2.After (before ++ [a]) ∧
      Does r.2.consts.values r.2.names.values a i

theorem emit_load {before : List Action} {pools : Pools} (h : pools.After before) (c : Constant) :
    (Action.load c).Yields before ((Action.load c).emit pools) := by
  obtain ⟨consts, names⟩ := pools
  have hi := operandInstr_intern h.consts h.consts_le .loadConst rfl Pools.constantContext c
  have hv := Pool.values_intern_firstUses h.consts c
  rw [Action.Yields, Action.violation?, Action.emit, loadConst]
  split at hi
  · exact hi
  · obtain ⟨v, i, hi, hparts, hg, hlen⟩ := hi
    cases hparts
    refine ⟨_, hi, ⟨?_, ?_, hlen, h.names_le⟩, .load hg⟩
    · rw [constantsOf_append]
      exact hv
    · rw [namesOf_append, show namesOf [.load c] = [] from rfl, List.append_nil]
      exact h.names

/-- An action that works on a name, by the operation it stands for. -/
theorem emit_named {before : List Action} {pools : Pools} (h : pools.After before) {a : Action}
    {name : String} (op : Opcode) (hop : op.hasOperand)
    (ha : a.emit pools = nameInstr op name pools)
    (hname : a.name? = some name) (hconst : a.constant? = none)
    (hviolation : a.violation? before = overflow? Pools.nameContext (namesOf before) name)
    (hdoes : ∀ {consts names v i}, Instr.ofParts op (some v) = .ok i →
      names[v.toNat]? = some name → Does consts names a i) :
    a.Yields before (a.emit pools) := by
  obtain ⟨consts, names⟩ := pools
  have hi := operandInstr_intern h.names h.names_le op hop Pools.nameContext name
  have hv := Pool.values_intern_firstUses h.names name
  rw [Action.Yields, hviolation, ha, nameInstr]
  rw [List.map_id] at hi
  split at hi
  · rename_i e he
    rw [show overflow? Pools.nameContext (namesOf before) name = some e from he]
    exact hi
  · rename_i he
    rw [show overflow? Pools.nameContext (namesOf before) name = none from he]
    obtain ⟨v, i, hi, hparts, hg, hlen⟩ := hi
    obtain ⟨b, hb, rfl⟩ := Option.map_eq_some_iff.1 hg
    refine ⟨i, hi, ⟨?_, ?_, h.consts_le, hlen⟩, hdoes hparts hb⟩
    · have : constantsOf [a] = [] := by simp [constantsOf, hconst]
      rw [constantsOf_append, this, List.append_nil]
      exact h.consts
    · have : namesOf [a] = [b] := by simp [namesOf, hname]
      rw [namesOf_append, this]
      exact hv

/-- An action that uses neither constants nor names. -/
theorem Pools.After.concat {before : List Action} {pools : Pools} (h : pools.After before)
    {a : Action} (hc : a.constant? = none) (hn : a.name? = none) :
    pools.After (before ++ [a]) := by
  have hc : constantsOf [a] = [] := by simp [constantsOf, hc]
  have hn : namesOf [a] = [] := by simp [namesOf, hn]
  refine ⟨?_, ?_, h.consts_le, h.names_le⟩
  · rw [constantsOf_append, hc, List.append_nil, h.consts]
  · rw [namesOf_append, hn, List.append_nil, h.names]

/-- **One action fails with its violation, or else yields an instruction that
    does it.** -/
theorem emit_after {before : List Action} {pools : Pools} (h : pools.After before) (a : Action) :
    a.Yields before (a.emit pools) := by
  cases a with
  | load c => exact emit_load h c
  | fetch id =>
    refine emit_named h .loadGlobal rfl rfl rfl rfl rfl fun hp hg => ?_
    cases hp
    exact .fetch hg
  | store id =>
    refine emit_named h .storeGlobal rfl rfl rfl rfl rfl fun hp hg => ?_
    cases hp
    exact .store hg
  | add => exact ⟨_, rfl, h.concat rfl rfl, .add⟩
  | drop => exact ⟨_, rfl, h.concat rfl rfl, .drop⟩
  | dup => exact ⟨_, rfl, h.concat rfl rfl, .dup⟩
  | ret => exact ⟨_, rfl, h.concat rfl rfl, .ret⟩
  | reject e => exact rfl
  | call count =>
    rw [Action.Yields, Action.violation?, Action.emit]
    split_ifs with hle
    · obtain ⟨v, i, hi, hparts, hv⟩ := operandInstr_of_le .callFunction rfl hle Pools.callContext
      cases hparts
      exact ⟨_, hi, h.concat rfl rfl, .call hv⟩
    · exact operandInstr_of_gt rfl hle Pools.callContext

theorem Pools.After.extends {as bs : List Action} {pools pools' : Pools} (h : pools.After as)
    (h' : pools'.After (as ++ bs)) :
    pools.consts.values.toList <+: pools'.consts.values.toList ∧
      pools.names.values.toList <+: pools'.names.values.toList := by
  rw [h.consts, h'.consts, h.names, h'.names, constantsOf_append, namesOf_append]
  exact ⟨prefix_firstUses_append _ _, prefix_firstUses_append _ _⟩

/-- **Actions fail with their first violation, or else yield instructions that
    do them.** -/
theorem translate_after {before as : List Action} {pools : Pools} (h : pools.After before) :
    match firstViolation? before as with
    | some e => (translate as pools).1 = .error e
    | none => ∃ is pools', translate as pools = (.ok is, pools') ∧ pools'.After (before ++ as) ∧
        List.Forall₂ (Does pools'.consts.values pools'.names.values) as is := by
  induction as generalizing before pools with
  | nil => exact ⟨[], pools, rfl, by rwa [List.append_nil], .nil⟩
  | cons a as ih =>
    have ha := emit_after h a
    rw [Action.Yields] at ha
    rw [firstViolation?, translate]
    generalize a.emit pools = step at ha ⊢
    obtain ⟨r, mid⟩ := step
    split at ha
    · rw [show r = _ from ha]
      rfl
    · obtain ⟨i, rfl : r = .ok i, hmid, hdoes⟩ := ha
      have ih := ih hmid
      rw [List.append_assoc, List.singleton_append] at ih
      rw [emitBind_ok]
      split at ih
      · generalize translate as mid = run at ih ⊢
        obtain ⟨r, last⟩ := run
        rw [show r = _ from ih]
        rfl
      · obtain ⟨is, last, hr, hlast, hall⟩ := ih
        rw [← List.singleton_append, ← List.append_assoc] at hlast
        obtain ⟨hc, hn⟩ := hmid.extends hlast
        rw [List.append_assoc, List.singleton_append] at hlast
        exact ⟨i :: is, last, by rw [hr, emitMap_ok], hlast, .cons (hdoes.mono hc hn) hall⟩

/-- The run from empty pools. -/
theorem translate_empty (as : List Action) :
    match firstViolation? [] as with
    | some e => (translate as .empty).1 = .error e
    | none => ∃ is pools, translate as .empty = (.ok is, pools) ∧ pools.After as ∧
        List.Forall₂ (Does pools.consts.values pools.names.values) as is :=
  translate_after after_empty

end Stacklet
