/-
  Literals and the values that are loaded for them.

  The instructions of a unit that load a constant are one for each literal of
  its tree, in order, and a last one for the `None` that is returned. What is
  loaded for a literal is the first literal of the tree that shares its number
  in the pool. That is the same value, but for a zero behind one of the other
  sign.

  * `forall₂_loads`: loads and constants in step;
  * `Holds.step_load`: what a load makes of a session;
  * `ofTree_loads`: which literals are loaded as they are.
-/
import Stacklet.Proofs.Correctness
import Stacklet.Proofs.Interning

namespace Stacklet

/-! ## The same value -/

namespace Constant

/-- The same constant, all NaNs counting as one. -/
def Same (c d : Constant) : Prop :=
  c = d ∨ ∃ x y, c = float x ∧ d = float y ∧ x.isNaN ∧ y.isNaN

/-- A zero among the doubles. -/
def isZero : Constant → Bool
  | float x => x.isZero
  | _ => false

/-- Constants that share a number are the same value or two zeros. -/
theorem same_or_isZero_of_key {c d : Constant} (h : c.key = d.key) :
    c.Same d ∨ c.isZero ∧ d.isZero := by
  rcases key_eq_key_iff.1 h with heq | ⟨x, y, rfl, rfl, hnan | hzero⟩
  · exact Or.inl (Or.inl heq)
  · exact Or.inl (Or.inr ⟨x, y, rfl, rfl, hnan⟩)
  · exact Or.inr hzero

/-- All zeros share a number, and only they. -/
theorem key_eq_key_iff_of_isZero {c d : Constant} (hc : c.isZero) :
    d.key = c.key ↔ d.isZero := by
  cases c with
  | none | int => cases hc
  | float x =>
    constructor
    · intro h
      rcases key_eq_key_iff.1 h with rfl | ⟨y, z, rfl, hz, ⟨-, hnan⟩ | ⟨hy, -⟩⟩
      · exact hc
      · cases hz
        rw [Binary64.not_isNaN_of_isZero hc] at hnan
        cases hnan
      · exact hy
    · intro hd
      cases d with
      | none | int => cases hd
      | float y => exact key_eq_key_iff.2 (Or.inr ⟨y, x, rfl, rfl, Or.inr ⟨hd, hc⟩⟩)

/-- A zero is the same value as itself only. -/
theorem Same.eq_of_isZero {c d : Constant} (h : c.Same d) (hd : d.isZero) : c = d := by
  rcases h with rfl | ⟨x, y, rfl, rfl, -, hnan⟩
  · rfl
  · rw [Binary64.not_isNaN_of_isZero hd] at hnan
    cases hnan

end Constant

namespace Tree

/-- The first zero among the literals that are doubles. -/
def firstZero? (t : Tree) : Option Constant := t.literals.find? Constant.isZero

variable {t : Tree} {c : Constant}

theorem firstZero?_eq (h : c ∈ t.literals) (hc : c.isZero) :
    t.firstZero? = some (t.representative c) := by
  rw [← find?_eq_representative h, firstZero?]
  congr 1
  funext d
  rw [Bool.eq_iff_iff, decide_eq_true_eq, Constant.key_eq_key_iff_of_isZero hc]

/-- **Which literals are represented as they are.** All but zeros with another
    sign than the first zero. -/
theorem representative_same_iff (h : c ∈ t.literals) :
    (t.representative c).Same c ↔ (c.isZero → t.firstZero? = some c) := by
  constructor
  · intro hsame hc
    rw [firstZero?_eq h hc, hsame.eq_of_isZero hc]
  · intro hfirst
    have hkey : (t.representative c).key = c.key := by
      simpa using List.find?_some (find?_eq_representative h)
    rcases Constant.same_or_isZero_of_key hkey with hsame | ⟨-, hc⟩
    · exact hsame
    · rw [firstZero?_eq h hc] at hfirst
      exact Or.inl (Option.some.inj (hfirst hc))

end Tree

/-! ## Loads -/

/-- Loads of constants, in code that does what actions say. -/
theorem forall₂_loads {consts : Array Constant} {names : Array String} {as : List Action}
    {xs : List (Nat × Instr)} (h : List.Forall₂ (fun a x => Does consts names a x.2) as xs) :
    List.Forall₂ (fun c x => Does consts names (.load c) x.2) (constantsOf as)
      (xs.filter fun x => x.2.opcode = .loadConst) := by
  induction h with
  | nil => exact .nil
  | @cons a x as xs hdoes _ ih =>
    obtain ⟨offset, i⟩ := x
    cases hdoes with
    | load hc => exact .cons (.load hc) ih
    | fetch | store | add | call | drop | dup | ret => exact ih

namespace CodeUnit

/-- The instructions of a unit that load constants, with their offsets. -/
def loads (u : CodeUnit) (t : Numbering) : List (Nat × Instr) :=
  match u.instructions t with
  | .error _ => []
  | .ok is => is.filter fun x => x.2.opcode = .loadConst

namespace Holds
variable {t : Numbering} {tree : Tree} {u : CodeUnit} {is : List Instr} {depth : Nat}
  (h : Holds t tree u is depth)
include h

/-- One load for each literal, and one more. -/
theorem forall₂_loads : List.Forall₂ (fun c x => Does u.consts u.names (.load c) x.2)
    (tree.literals ++ [.none]) (u.loads t) := by
  have hdoes : List.Forall₂ (fun a x => Does u.consts u.names a x.2) tree.unitActions
      (Instr.placed 0 is) := by
    rw [← List.forall₂_map_right_iff, Instr.map_snd_placed]
    exact h.does
  rw [← tree.constantsOf_unitActions h.compilable.supported, loads, h.instructions]
  exact Stacklet.forall₂_loads hdoes

theorem length_loads : (u.loads t).length = tree.literals.length + 1 := by
  rw [← h.forall₂_loads.length_eq, List.length_append, List.length_singleton]

/-- What a load makes of a session. -/
theorem step_load {c : Constant} {i : Instr} (hdoes : Does u.consts u.names (.load c) i)
    (offset : Nat) (s : Session) :
    step u offset i s = .next ⟨s.globals, s.stack.push (tree.represented c), s.sink⟩ := by
  rw [step_of_does hdoes h.nodup rfl offset, h.poolValue]

/-- The load of the literal with a given number. -/
theorem exists_load {k : Nat} {c : Constant} (hc : tree.literals[k]? = some c) :
    ∃ offset i, (u.loads t)[k]? = some (offset, i) ∧ ∀ s,
      step u offset i s = .next ⟨s.globals, s.stack.push (tree.represented c), s.sink⟩ := by
  obtain ⟨hk, hget⟩ := List.getElem?_eq_some_iff.1 hc
  have hlt : k < (u.loads t).length := by
    rw [h.length_loads]
    omega
  have hdoes := h.forall₂_loads.get (h.forall₂_loads.length_eq ▸ hlt) hlt
  rw [List.get_eq_getElem, List.get_eq_getElem, List.getElem_append_left hk, hget] at hdoes
  exact ⟨_, _, List.getElem?_eq_getElem hlt, h.step_load hdoes _⟩

end Holds

/-- **Literals keep their values**, but for zeros behind one of the other sign. The
    code has one load for each literal of the tree, in their order, and one for the
    `None` that is returned. On every host a load pushes the value of its literal,
    the same integer or the same double bit for bit, all NaNs counting as one,
    unless it is a zero: then it pushes the first zero of the tree. -/
theorem ofTree_loads {t : Numbering} {options : UnitOptions} {tree : Tree} {u : CodeUnit}
    (h : ofTree t options tree = .ok u) :
    (u.loads t).length = tree.literals.length + 1 ∧
      ∀ (k : Nat) c, tree.literals[k]? = some c →
        ∃ offset i d, (u.loads t)[k]? = some (offset, i) ∧
        (∀ s, step u offset i s = .next ⟨s.globals, s.stack.push (.ofConstant d), s.sink⟩) ∧
        (d.Same c ↔ (c.isZero → tree.firstZero? = some c)) ∧
        (c.isZero → tree.firstZero? = some d) := by
  obtain ⟨is, depth, hu⟩ := holds_of_ofTree h
  refine ⟨hu.length_loads, fun k c hc => ?_⟩
  obtain ⟨offset, i, hload, hstep⟩ := hu.exists_load hc
  have hmem := List.mem_of_getElem? hc
  exact ⟨offset, i, tree.representative c, hload, hstep, Tree.representative_same_iff hmem,
    Tree.firstZero?_eq hmem⟩

end CodeUnit

/-- `print(-0.0, 0.0)` -/
def Tree.printZeros : Tree :=
  .block [.expr (.call (.name "print") [.num (.float (.neg .zero)), .num (.float .zero)])]

theorem ofTree_loads_printZeros :
    ∃ u, CodeUnit.ofTree .classic .default Tree.printZeros = .ok u ∧
      (u.loads .classic).length = 3 ∧
      ∃ offset i, (u.loads .classic)[0]? = some (offset, i) ∧ ∀ s, step u offset i s =
        .next ⟨s.globals, s.stack.push (.float (.neg .zero)), s.sink⟩ := by
  obtain ⟨u, hu⟩ := (CodeUnit.exists_ofTree_iff .classic .default .printZeros).2 (by decide)
  obtain ⟨hlength, hloads⟩ := CodeUnit.ofTree_loads hu
  obtain ⟨offset, i, d, hload, hstep, -, hzero⟩ := hloads 0 (.float (.neg .zero)) (by decide)
  have hd : d = .float (.neg .zero) := Option.some.inj ((hzero (by decide)).symm.trans (by decide))
  exact ⟨u, hu, hlength, offset, i, hload, fun s => by rw [hstep s, hd]; rfl⟩

/-- The second zero is not loaded with its own sign. -/
theorem not_same_loads_printZeros :
    ∃ u, CodeUnit.ofTree .classic .default Tree.printZeros = .ok u ∧
      Tree.printZeros.literals[1]? = some (.float .zero) ∧
      ∃ offset i d, (u.loads .classic)[1]? = some (offset, i) ∧ (∀ s, step u offset i s =
        .next ⟨s.globals, s.stack.push (.ofConstant d), s.sink⟩) ∧ ¬ d.Same (.float .zero) := by
  obtain ⟨u, hu⟩ := (CodeUnit.exists_ofTree_iff .classic .default .printZeros).2 (by decide)
  obtain ⟨is, depth, hholds⟩ := CodeUnit.holds_of_ofTree hu
  have hsecond : Tree.printZeros.literals[1]? = some (.float .zero) := by decide
  obtain ⟨offset, i, hload, hstep⟩ := hholds.exists_load hsecond
  refine ⟨u, hu, hsecond, offset, i, _, hload, hstep, fun hsame => ?_⟩
  have heq := hsame.eq_of_isZero (by decide)
  exact absurd heq (by decide)

end Stacklet
