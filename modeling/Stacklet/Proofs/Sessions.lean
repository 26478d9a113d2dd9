/-
  Units one after the other on one host.

  Two lists of statements may be compiled and run as two units or, joined, as
  one. The units have pools, operands and offsets of their own, and a return
  stands between them; but each is an evaluation of its statements in the
  memory that it finds, and evaluations join.

  * `evalUnit_append`: the evaluation of joined statements;
  * `Compilable.of_subset`, `need_le_of_subset`: what is true of a block is true
    of some of its statements;
  * `run_append`: the runs.
-/
import Stacklet.Proofs.Depth

namespace Stacklet

/-! ## Joined statements -/

namespace Tree
variable {value : Constant → Value} {body more : List Tree}

/-- Statements that follow others are evaluated in what these leave. -/
theorem evalBody_append (body more : List Tree) (last : Option Value) (m : Memory) :
    evalBody value (body ++ more) last m =
      (evalBody value body last m).andThen fun v m => evalBody value more v m := by
  induction body generalizing last m with
  | nil => rfl
  | cons t body ih =>
    rw [List.cons_append, evalBody, evalBody, Ending.andThen_assoc]
    simp only [ih]

/-- The last value does not matter for errors and memory. -/
theorem evalBody_last (body : List Tree) (last last' : Option Value) (m : Memory) :
    ((evalBody value body last m).andThen fun _ m => (.ok Value.none, m)) =
      (evalBody value body last' m).andThen fun _ m => (.ok Value.none, m) := by
  induction body generalizing last last' m with
  | nil => rfl
  | cons t body ih =>
    rw [evalBody, evalBody, Ending.andThen_assoc, Ending.andThen_assoc]
    exact congrArg _ (funext fun v => funext fun m => ih _ _ m)

/-- **Joined statements are evaluated one list after the other.** -/
theorem evalUnit_append (body more : List Tree) (m : Memory) :
    evalUnit value (.block (body ++ more)) m =
      (evalUnit value (.block body) m).andThen fun _ m => evalUnit value (.block more) m := by
  simp only [evalUnit, eval]
  rw [evalBody_append, Ending.andThen_assoc, Ending.andThen_assoc]
  exact congrArg _ (funext fun v => funext fun m => evalBody_last more v none m)

/-! ## Some statements of a block -/

theorem countDistinct_le_of_subset {κ : Type} [DecidableEq κ] {ks ls : List κ} (h : ks ⊆ ls) :
    countDistinct ks ≤ countDistinct ls := by
  refine Finset.card_le_card fun k hk => ?_
  rw [List.mem_toFinset] at hk ⊢
  exact h hk

theorem need_le_needOfEach {t : Tree} {ts : List Tree} (ht : t ∈ ts) : t.need ≤ needOfEach ts := by
  induction ts with
  | nil => cases ht
  | cons t' ts ih =>
    rcases List.mem_cons.1 ht with rfl | ht
    · exact Nat.le_max_left _ _
    · exact (ih ht).trans (Nat.le_max_right _ _)

section
variable (h : body ⊆ more)
include h

theorem mem_nodes_of_subset {node : Tree} (hn : node ∈ nodes (.block body)) :
    node ∈ nodes (.block more) ∨ node = .block body := by
  simp only [nodes, nodesOfEach_eq, List.mem_append, List.mem_singleton, List.mem_flatMap] at hn ⊢
  rcases hn with ⟨t, ht, hn⟩ | rfl
  · exact Or.inl (Or.inl ⟨t, h ht, hn⟩)
  · exact Or.inr rfl

/-- What only nodes other than blocks have, some statements have no more of. -/
theorem filterMap_nodes_subset {α : Type} {f : Tree → Option α} (hf : ∀ ts, f (.block ts) = none) :
    (nodes (.block body)).filterMap f ⊆ (nodes (.block more)).filterMap f := by
  intro a ha
  obtain ⟨node, hn, hfa⟩ := List.mem_filterMap.1 ha
  rcases mem_nodes_of_subset h hn with hn | rfl
  · exact List.mem_filterMap.2 ⟨node, hn, hfa⟩
  · simp [hf] at hfa

theorem literals_subset : literals (.block body) ⊆ literals (.block more) :=
  filterMap_nodes_subset h fun _ => rfl

theorem names_subset : Tree.names (.block body) ⊆ Tree.names (.block more) :=
  filterMap_nodes_subset h fun _ => rfl

theorem LiteralsKept.of_subset (hkept : LiteralsKept (.block more)) :
    LiteralsKept (.block body) :=
  fun c hc d hd => hkept c (literals_subset h hc) d (literals_subset h hd)

/-- Some statements of a block compile if the block does. -/
theorem Compilable.of_subset (hc : Compilable (.block more)) : Compilable (.block body) where
  operators left op right hn :=
    hc.operators left op right ((mem_nodes_of_subset h hn).resolve_right nofun)
  targets targets value hn :=
    hc.targets targets value ((mem_nodes_of_subset h hn).resolve_right nofun)
  calls callee args hn := hc.calls callee args ((mem_nodes_of_subset h hn).resolve_right nofun)
  literals :=
    (countDistinct_le_of_subset (List.map_subset _ (literals_subset h))).trans hc.literals
  names := (countDistinct_le_of_subset (names_subset h)).trans hc.names
  operands node hn operand ho := by
    rcases mem_nodes_of_subset h hn with hn | rfl
    · exact hc.operands node hn operand ho
    · cases ho

theorem need_le_of_subset : need (.block body) ≤ need (.block more) := by
  rw [need, need]
  induction body with
  | nil => exact Nat.zero_le _
  | cons t body ih =>
    obtain ⟨ht, hbody⟩ := List.cons_subset.1 h
    exact Nat.max_le.2 ⟨need_le_needOfEach ht, ih hbody⟩

end

end Tree

/-! ## Runs -/

namespace Host

/-- Runs a unit and, if that returns, another one. -/
def runBoth (u v : CodeUnit) (host : Host) : Except RuntimeError Value × Host :=
  match host.run u with
  | (.ok _, host) => host.run v
  | (.error e, host) => (.error e, host)

/-- What both runs end with, and what they leave. -/
def endingOfBoth (u v : CodeUnit) (host : Host) : Ending Value :=
  ((host.runBoth u v).1.mapError .error, (host.runBoth u v).2.session.memory)

/-- A run leaves the numbering and the limits of a host. -/
theorem run_eq (u : CodeUnit) (t : Numbering) (l : Limits) (s : Session) :
    run u ⟨t, l, s⟩ = ((run u ⟨t, l, s⟩).1, ⟨t, l, (run u ⟨t, l, s⟩).2.session⟩) := by
  simp only [run]
  cases u.instructions t <;> rfl

/-- The second unit begins with what the first one leaves. If it ends in the
    same way above any stack, it does not matter that the first one leaves its
    stack too. -/
theorem endingOfBoth_eq {u v : CodeUnit} {t : Numbering} {l : Limits} {f : Memory → Ending Value}
    (hv : ∀ s : Session, (Host.mk t l s).ending v = f s.memory) (s : Session) :
    (Host.mk t l s).endingOfBoth u v = ((Host.mk t l s).ending u).andThen fun _ m => f m := by
  rw [endingOfBoth, runBoth, ending, run_eq u t l s]
  cases (run u ⟨t, l, s⟩).1 with
  | error e => rfl
  | ok w => exact hv _

/-- A unit whose literals are kept is evaluated directly, above any stack, if
    the limits leave room for what its tree needs. -/
theorem ending_ofTree {t : Numbering} {options : UnitOptions} {tree : Tree} {u : CodeUnit}
    (h : CodeUnit.ofTree t options tree = .ok u) (hkept : tree.LiteralsKept) {l : Limits}
    (hsteps : l.steps = none) (hneed : max 1 tree.need ≤ l.height) (s : Session) :
    (Host.mk t l s).ending u = tree.evalUnit .ofConstant s.memory := by
  obtain ⟨is, depth, hu⟩ := CodeUnit.holds_of_ofTree h
  have hdepth : depth ≤ l.height := hu.depth_eq ▸ hneed
  rw [CodeUnit.Holds.ending ⟨t, l, s⟩ hu hsteps hdepth, Tree.evalUnit_represented hkept]

end Host

/-- **Statements may be run in one unit or in two.** If joined statements
    compile, so do both lists. On a host with room for the joined unit and
    without a bound on instructions, running the first unit and, if it returns,
    the second one ends with the same result as running the joined unit, and
    leaves the same globals and output. Both begin in one memory; what earlier
    runs have left on the stack may differ. -/
theorem run_append {t : Numbering} {options : UnitOptions} {body more : List Tree} {w : CodeUnit}
    (h : CodeUnit.ofTree t options (.block (body ++ more)) = .ok w)
    (hkept : Tree.LiteralsKept (.block (body ++ more)))
    (hexact : ∀ depth ∈ w.depth? t, depth < 2 ^ 32) {l : Limits} (hsteps : l.steps = none)
    (hsize : w.stackSize.toNat ≤ l.height) (options' options'' : UnitOptions) :
    ∃ u v, CodeUnit.ofTree t options' (.block body) = .ok u ∧
      CodeUnit.ofTree t options'' (.block more) = .ok v ∧
      ∀ (m : Memory) (stack stack' : Stack),
        (Host.mk t l (m.on stack)).endingOfBoth u v = (Host.mk t l (m.on stack')).ending w := by
  have hbody := List.subset_append_left body more
  have hmore := List.subset_append_right body more
  have hc := (CodeUnit.exists_ofTree_iff t options _).1 ⟨w, h⟩
  obtain ⟨u, hu⟩ := (CodeUnit.exists_ofTree_iff t options' _).2 (hc.of_subset hbody)
  obtain ⟨v, hv⟩ := (CodeUnit.exists_ofTree_iff t options'' _).2 (hc.of_subset hmore)
  -- the joined statements need no less room than either list
  obtain ⟨is, depth, hw⟩ := CodeUnit.holds_of_ofTree h
  rw [toNat_stackSize hw (hexact depth hw.depth?), hw.depth_eq] at hsize
  have hroom {part : List Tree} (hp : part ⊆ body ++ more) :
      max 1 (Tree.need (.block part)) ≤ l.height :=
    (max_le_max_left 1 (Tree.need_le_of_subset hp)).trans hsize
  refine ⟨u, v, hu, hv, fun m stack stack' => ?_⟩
  have hsecond (s : Session) :=
    Host.ending_ofTree hv (hkept.of_subset hmore) hsteps (hroom hmore) s
  calc
    (Host.mk t l (m.on stack)).endingOfBoth u v
      = ((Host.mk t l (m.on stack)).ending u).andThen fun _ m =>
          Tree.evalUnit .ofConstant (.block more) m := Host.endingOfBoth_eq hsecond _
    _ = (Tree.evalUnit .ofConstant (.block body) m).andThen fun _ m =>
          Tree.evalUnit .ofConstant (.block more) m := by
      rw [Host.ending_ofTree hu (hkept.of_subset hbody) hsteps (hroom hbody)]
      rfl
    _ = Tree.evalUnit .ofConstant (.block (body ++ more)) m := (Tree.evalUnit_append _ _ m).symm
    _ = (Host.mk t l (m.on stack')).ending w :=
      (Host.ending_ofTree h hkept hsteps hsize (m.on stack')).symm

/-- `a = 2 + 3` -/
def Tree.sumBound : List Tree :=
  [.assign [.name "a"] (.binary (.num (.int 2)) .add (.num (.int 3)))]

/-- `print(a, 2)` -/
def Tree.boundPrinted : List Tree := [.expr (.call (.name "print") [.name "a", .num (.int 2)])]

theorem run_append_boundPrinted :
    ∃ u v w, CodeUnit.ofTree .classic .default (.block Tree.sumBound) = .ok u ∧
      CodeUnit.ofTree .classic .default (.block Tree.boundPrinted) = .ok v ∧
      CodeUnit.ofTree .classic .default (.block (Tree.sumBound ++ Tree.boundPrinted)) = .ok w ∧
      ∀ (m : Memory) (stack stack' : Stack),
        (Host.mk .classic ⟨none, 2 ^ 32⟩ (m.on stack)).endingOfBoth u v =
          (Host.mk .classic ⟨none, 2 ^ 32⟩ (m.on stack')).ending w := by
  obtain ⟨w, hw, hsize, hexact⟩ :=
    exists_ofTree_roomy (.block (Tree.sumBound ++ Tree.boundPrinted)) (by decide) (by decide)
  obtain ⟨u, v, hu, hv, hrun⟩ :=
    run_append hw (by decide) hexact (l := ⟨none, 2 ^ 32⟩) rfl hsize .default .default
  exact ⟨u, v, w, hu, hv, hw, hrun⟩

end Stacklet
