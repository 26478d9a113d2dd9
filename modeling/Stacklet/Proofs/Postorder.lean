/-
  Compiled code as the plain instructions of its tree.

  `Tree.postorder` lists what is to be done for a tree, operands before what is
  done with them; the order of emission and its refusals play no part in it.
  `CodeUnit.resolve?` puts the entries of the pools in place of the operands.

  * `actions_eq_postorder`: trees that emission does not refuse;
  * `Does.resolve?`: an instruction points at what its action works on;
  * `exists_does`: an action is done by some instruction;
  * `Holds.constant_used`, `Holds.name_used`: some instruction points at each entry;
  * `ofTree_resolves`: a unit resolves to the plain instructions of its tree, and
    its pools are their first uses.
-/
import Stacklet.Proofs.Compilable

namespace Stacklet

/-! ## Plain instructions -/

namespace Tree

mutual

/-- What is done for a tree: for its operands from left to right, and then with
    their values. -/
def postorder : Tree → List Action
  | .num n => [.load (.ofNumber n)]
  | .name id => [.fetch id]
  | .expr value => value.postorder
  | .block body => joined (postorderOfEach body)
  | .assign [.name id] value => value.postorder ++ [.dup, .store id]
  | .assign _ value => value.postorder
  | .binary left _ right => left.postorder ++ (right.postorder ++ [.add])
  | .call callee args =>
    callee.postorder ++ ((postorderOfEach args).flatten ++ [.call args.length])

def postorderOfEach : List Tree → List (List Action)
  | [] => []
  | t :: ts => t.postorder :: postorderOfEach ts

end

@[simp] theorem postorderOfEach_eq (ts : List Tree) : postorderOfEach ts = ts.map postorder := by
  induction ts with
  | nil => rfl
  | cons t ts ih => rw [postorderOfEach, ih, List.map_cons]

/-- What is done for a whole unit: for its tree, whose value is dropped if there
    is one, and then `None` is returned. -/
def unitPostorder (t : Tree) : List Action :=
  (if t.postorder = [] then [] else t.postorder ++ [.drop]) ++ [.load .none, .ret]

/-- Without refusals, the order of emission is the plain one. -/
theorem actions_eq_postorder (t : Tree) (h : t.Supported) : t.actions = t.postorder := by
  induction t with
  | block body ih =>
    rw [actions, postorder, actionsOfEach_eq, postorderOfEach_eq]
    exact congrArg joined (List.map_congr_left fun t ht => ih t ht ((all_block.1 h).2 t ht))
  | expr value ih => exact ih (all_expr.1 h).2
  | assign targets value ih =>
    obtain ⟨⟨id, rfl⟩, hv⟩ := supported_assign.1 h
    rw [actions, postorder, ih hv]
  | name | num => rfl
  | binary left op right ihl ihr =>
    obtain ⟨-, hl, hr⟩ := all_binary.1 h
    rw [actions, postorder, refusals_eq_nil _ h, List.nil_append, ihl hl, ihr hr]
  | call callee args ihc iha =>
    obtain ⟨-, hc, ha⟩ := all_call.1 h
    have hargs : args.map actions = args.map postorder :=
      List.map_congr_left fun t ht => iha t ht (ha t ht)
    rw [actions, postorder, refusals_eq_nil _ hc, List.nil_append, ihc hc, actionsOfEach_eq,
      postorderOfEach_eq, hargs]

theorem unitActions_eq_unitPostorder (t : Tree) (h : t.Supported) :
    t.unitActions = t.unitPostorder := by
  rw [unitActions_eq, bodyActions, unitPostorder, ← actions_eq_postorder t h]
  simp only [actions_eq_nil_iff]

end Tree

/-! ## Operands as what they point at -/

/-- Actions that load constants with one key count as the same. -/
def Action.keyed : Action → Action
  | load c => load c.key
  | a => a

/-- An instruction with the entries of the pools at which it points. -/
def CodeUnit.resolve? (u : CodeUnit) : Instr → Option Action
  | .loadConst n => u.consts[n.toNat]?.map .load
  | .loadGlobal n => u.names[n.toNat]?.map .fetch
  | .storeGlobal n => u.names[n.toNat]?.map .store
  | .binaryAdd => some .add
  | .callFunction n => some (.call n.toNat)
  | .returnValue => some .ret
  | .popTop => some .drop
  | .dupTop => some .dup

/-- The number of the constant at which an instruction points. -/
def Instr.constant? : Instr → Option Nat
  | loadConst n => some n.toNat
  | _ => none

/-- The number of the name at which an instruction points. -/
def Instr.name? : Instr → Option Nat
  | loadGlobal n | storeGlobal n => some n.toNat
  | _ => none

theorem Does.resolve? {u : CodeUnit} {a : Action} {i : Instr} (h : Does u.consts u.names a i) :
    (u.resolve? i).map Action.keyed = some a.keyed := by
  cases h with
  | load h =>
    obtain ⟨c, hc, hk⟩ := Option.map_eq_some_iff.1 h
    rw [CodeUnit.resolve?, hc]
    simp only [Option.map_some, Action.keyed, hk]
  | fetch h | store h =>
    rw [CodeUnit.resolve?, h]
    rfl
  | call h =>
    subst h
    rfl
  | add | drop | dup | ret => rfl

theorem map_resolve? {u : CodeUnit} {as : List Action} {is : List Instr}
    (h : List.Forall₂ (Does u.consts u.names) as is) :
    is.map (fun i => (u.resolve? i).map Action.keyed) = as.map fun a => some a.keyed := by
  induction h with
  | nil => rfl
  | cons hai _ ih => rw [List.map_cons, List.map_cons, hai.resolve?, ih]

theorem exists_does {consts : Array Constant} {names : Array String} {as : List Action}
    {is : List Instr} (h : List.Forall₂ (Does consts names) as is) {a : Action} (ha : a ∈ as) :
    ∃ i ∈ is, Does consts names a i := by
  induction h with
  | nil => cases ha
  | @cons b i as is hbi _ ih =>
    rcases List.mem_cons.1 ha with rfl | ha
    · exact ⟨i, List.mem_cons_self, hbi⟩
    · obtain ⟨j, hj, hdoes⟩ := ih ha
      exact ⟨j, List.mem_cons_of_mem i hj, hdoes⟩

/-! ## Pools -/

namespace CodeUnit.Holds
variable {t : Numbering} {tree : Tree} {u : CodeUnit} {is : List Instr} {depth : Nat}
  (h : Holds t tree u is depth)
include h

/-- The pool of constants: the literals by their first use, and `None`. -/
theorem consts_eq :
    u.consts.toList = firstUses Constant.key (constantsOf tree.postorder) ++ [.none] := by
  have hs := h.compilable.supported
  rw [h.consts, tree.constantsOf_unitActions hs, firstUses_concat tree.none_notMem_literals,
    ← tree.constantsOf_actions hs, tree.actions_eq_postorder hs]

/-- The pool of names: all that are read or bound, by their first use. -/
theorem names_eq : u.names.toList = firstUses id (namesOf tree.postorder) := by
  have hs := h.compilable.supported
  rw [h.names, tree.namesOf_unitActions hs, ← tree.namesOf_actions hs, tree.actions_eq_postorder hs]

theorem names_nodup : (u.names.toList.map id).Nodup := by
  rw [h.names]
  exact nodup_firstUses _

/-- Some instruction points at each constant. -/
theorem constant_used {k : Nat} (hk : k < u.consts.size) : ∃ i ∈ is, i.constant? = some k := by
  have hentry : u.consts.toList[k]? = some u.consts[k] := by simp [hk]
  have hkept := List.mem_of_getElem? hentry
  rw [h.consts] at hkept
  obtain ⟨a, ha, hload⟩ := List.mem_filterMap.1 (mem_of_mem_firstUses hkept)
  obtain ⟨i, hi, hdoes⟩ := exists_does h.does ha
  refine ⟨i, hi, ?_⟩
  cases hdoes with
  | load hc =>
    cases hload
    obtain ⟨c, hc, hkey⟩ := Option.map_eq_some_iff.1 hc
    rw [← Array.getElem?_toList] at hc
    rw [Instr.constant?, eq_of_getElem?_key h.nodup hc hentry hkey]
  | fetch | store | add | call | drop | dup | ret => cases hload

/-- Some instruction points at each name. -/
theorem name_used {k : Nat} (hk : k < u.names.size) : ∃ i ∈ is, i.name? = some k := by
  have hentry : u.names.toList[k]? = some u.names[k] := by simp [hk]
  have hkept := List.mem_of_getElem? hentry
  rw [h.names] at hkept
  obtain ⟨a, ha, hname⟩ := List.mem_filterMap.1 (mem_of_mem_firstUses hkept)
  obtain ⟨i, hi, hdoes⟩ := exists_does h.does ha
  have hplace {id : String} {n : UInt16} (hn : u.names[n.toNat]? = some id)
      (hid : id = u.names[k]) : n.toNat = k := by
    rw [← Array.getElem?_toList] at hn
    exact eq_of_getElem?_key h.names_nodup hn hentry hid
  refine ⟨i, hi, ?_⟩
  cases hdoes with
  | fetch hn | store hn =>
    cases hname
    rw [Instr.name?, hplace hn rfl]
  | load | add | call | drop | dup | ret => cases hname

end CodeUnit.Holds

/-! ## Compiled units -/

namespace CodeUnit

/-- **The code of a compiled unit is the plain code of its tree**, with numbers
    for constants and names. The pools hold what is used, in the order of first
    use and once each, and the constants end with the `None` that is returned. -/
theorem ofTree_resolves {t : Numbering} {options : UnitOptions} {tree : Tree} {u : CodeUnit}
    (h : ofTree t options tree = .ok u) :
    ∃ found, u.instructions t = .ok found ∧
      found.map (fun x => (u.resolve? x.2).map Action.keyed) =
        tree.unitPostorder.map (fun a => some a.keyed) ∧
      u.consts.toList = firstUses Constant.key (constantsOf tree.postorder) ++ [.none] ∧
      u.names.toList = firstUses id (namesOf tree.postorder) ∧
      (u.consts.toList.map Constant.key).Nodup ∧ u.names.toList.Nodup ∧
      (∀ k < u.consts.size, ∃ x ∈ found, x.2.constant? = some k) ∧
      ∀ k < u.names.size, ∃ x ∈ found, x.2.name? = some k := by
  obtain ⟨is, depth, hu⟩ := holds_of_ofTree h
  have hresolved := map_resolve? hu.does
  rw [tree.unitActions_eq_unitPostorder hu.compilable.supported, ← Instr.map_snd_placed 0 is,
    List.map_map] at hresolved
  have hplaced {P : Instr → Prop} (hi : ∃ i ∈ is, P i) : ∃ x ∈ Instr.placed 0 is, P x.2 := by
    obtain ⟨i, hi, hp⟩ := hi
    rw [← Instr.map_snd_placed 0 is, List.mem_map] at hi
    obtain ⟨x, hx, rfl⟩ := hi
    exact ⟨x, hx, hp⟩
  exact ⟨_, hu.instructions, hresolved, hu.consts_eq, hu.names_eq, hu.nodup,
    List.map_id u.names.toList ▸ hu.names_nodup,
    fun k hk => hplaced (hu.constant_used hk), fun k hk => hplaced (hu.name_used hk)⟩

end CodeUnit

/-- `a = 2 + 3; print(a, 2)` -/
def Tree.printAssigned : Tree :=
  .block [.assign [.name "a"] (.binary (.num (.int 2)) .add (.num (.int 3))),
    .expr (.call (.name "print") [.name "a", .num (.int 2)])]

theorem ofTree_resolves_printAssigned :
    ∃ u, CodeUnit.ofTree .classic .default Tree.printAssigned = .ok u ∧
      u.consts.toList = [.int 2, .int 3, .none] ∧ u.names.toList = ["a", "print"] ∧
      ∃ found, u.instructions .classic = .ok found ∧
        found.map (fun x => (u.resolve? x.2).map Action.keyed) =
          [.load (.int 2), .load (.int 3), .add, .dup, .store "a", .drop, .fetch "print",
            .fetch "a", .load (.int 2), .call 2, .drop, .load .none, .ret].map some := by
  obtain ⟨u, hu⟩ := (CodeUnit.exists_ofTree_iff .classic .default .printAssigned).2 (by decide)
  obtain ⟨found, hfound, hcode, hconsts, hnames, -⟩ := CodeUnit.ofTree_resolves hu
  exact ⟨u, hu, hconsts, hnames, found, hfound, hcode⟩

end Stacklet
