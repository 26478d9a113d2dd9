/-
  Compiled code does what its tree says.

  Actions run on a memory and a stack (`runFrom`). A good tree runs as it is
  evaluated, leaves its value on the stack, whatever is below, and hands its
  memory on to the actions behind it (`Tree.simulated`).

  * `Tree.representative`: the first literal with the key of a constant, which
    is what code loads instead of the constant;
  * `Holds.ending`: a run within the limits is an evaluation in which literals
    are represented;
  * `run_ofTree`: so it is the direct evaluation if different literals have
    different keys.
-/
import Stacklet.Proofs.Evaluation
import Stacklet.Proofs.Safety

namespace Stacklet

/-! ## Actions on a memory and a stack -/

/-- What a session leaves. -/
def Session.memory (s : Session) : Memory := ⟨s.globals, s.sink⟩

/-- The session with a memory and a stack. -/
def Memory.on (m : Memory) (stack : Stack) : Session := ⟨m.globals, stack, m.sink⟩

theorem Session.memory_on (s : Session) : s.memory.on .empty = s.cleared := rfl

/-- Runs actions on a memory and a stack. -/
def runFrom (value : Constant → Value) (as : List Action) (m : Memory) (stack : Stack) :
    Ending Value :=
  match runActions value as (m.on stack) with
  | (r, s) => (r, s.memory)

/-- Puts values onto a stack, the last one on top. -/
def Stack.pushAll (stack : Stack) (vs : List Value) : Stack := vs.foldl push stack

theorem Stack.values_pushAll (stack : Stack) (vs : List Value) :
    (stack.pushAll vs).values = vs.reverse ++ stack.values := by
  induction vs generalizing stack with
  | nil => rfl
  | cons v vs ih =>
    rw [pushAll, List.foldl_cons, ← pushAll, ih, values_push, List.reverse_cons,
      List.append_assoc]
    rfl

section
variable {value : Constant → Value} (as : List Action) (m : Memory) (stack : Stack)

theorem runFrom_load (c : Constant) :
    runFrom value (.load c :: as) m stack = runFrom value as m (stack.push (value c)) := rfl

theorem runFrom_fetch (id : String) :
    runFrom value (.fetch id :: as) m stack =
      (Ending.of (lookUp m.globals id) m).andThen fun v m =>
        runFrom value as m (stack.push v) := by
  rw [runFrom, runActions, Memory.on, Action.step]
  cases lookUp m.globals id <;> rfl

theorem runFrom_drop (v : Value) :
    runFrom value (.drop :: as) m (stack.push v) = runFrom value as m stack := by
  rw [runFrom, runActions, Memory.on, Action.step, Stack.pop?_push]
  rfl

theorem runFrom_dup (v : Value) :
    runFrom value (.dup :: as) m (stack.push v) =
      runFrom value as m ((stack.push v).push v) := by
  rw [runFrom, runActions, Memory.on, Action.step, Stack.pop?_push]
  rfl

theorem runFrom_store (id : String) (v : Value) :
    runFrom value (.store id :: as) m (stack.push v) =
      runFrom value as ⟨m.globals.insert id v, m.sink⟩ stack := by
  rw [runFrom, runActions, Memory.on, Action.step, Stack.pop?_push]
  rfl

theorem runFrom_add (a b : Value) :
    runFrom value (.add :: as) m ((stack.push a).push b) =
      (Ending.of (a.add b) m).andThen fun v m => runFrom value as m (stack.push v) := by
  have hpop : ((stack.push a).push b).popMany? 2 = some ([a, b], stack) :=
    Stack.popMany?_eq _ [a, b] stack rfl
  simp only [runFrom, runActions, Memory.on, Action.step, hpop]
  cases a.add b <;> rfl

theorem runFrom_call (f : Value) (vs : List Value) :
    runFrom value (.call vs.length :: as) m ((stack.push f).pushAll vs) =
      (callIn f vs m).andThen fun v m => runFrom value as m (stack.push v) := by
  have hpop : ((stack.push f).pushAll vs).popMany? (vs.length + 1) = some (f :: vs, stack) := by
    refine Stack.popMany?_eq _ (f :: vs) stack ?_
    rw [Stack.values_pushAll, Stack.values_push, List.reverse_cons, List.append_assoc]
    rfl
  simp only [runFrom, runActions, Memory.on, Action.step, hpop, callIn]
  rcases call f vs m.sink with ⟨_ | _, _⟩ <;> rfl

end

/-! ## Trees -/

namespace Tree
variable {value : Constant → Value}

/-- A tree runs as it is evaluated, with any actions behind it and any stack
    below. -/
def Simulated (value : Constant → Value) (t : Tree) : Prop :=
  ∀ rest m stack, runFrom value (t.actions ++ rest) m stack =
    (t.eval value m).needed.andThen fun v m => runFrom value rest m (stack.push v)

theorem runFrom_args {args : List Tree} (h : ∀ t ∈ args, t.Simulated value) (rest : List Action)
    (m : Memory) (stack : Stack) :
    runFrom value ((args.map actions).flatten ++ rest) m stack =
      (evalArgs value args m).andThen fun vs m => runFrom value rest m (stack.pushAll vs) := by
  induction args generalizing m stack with
  | nil => rfl
  | cons t args ih =>
    obtain ⟨ht, hargs⟩ := List.forall_mem_cons.1 h
    rw [List.map_cons, List.flatten_cons, List.append_assoc, ht, evalArgs, Ending.andThen_assoc]
    simp only [ih hargs, Ending.andThen_assoc]
    rfl

theorem runFrom_body {body : List Tree} (hne : body ≠ []) (h : ∀ t ∈ body, t.Simulated value)
    (hloud : ∀ t ∈ body, ¬ t.isSilent) (last : Option Value) (rest : List Action) (m : Memory)
    (stack : Stack) :
    runFrom value (List.intercalate [.drop] (body.map actions) ++ rest) m stack =
      (evalBody value body last m).needed.andThen fun v m =>
        runFrom value rest m (stack.push v) := by
  induction body generalizing last m with
  | nil => exact absurd rfl hne
  | cons t body ih =>
    obtain ⟨ht, hbody⟩ := List.forall_mem_cons.1 h
    obtain ⟨htl, hbodyl⟩ := List.forall_mem_cons.1 hloud
    have hsome : (t.eval value m).1 ≠ .ok none := eval_ne_none t htl m
    cases body with
    | nil =>
      rw [List.map_singleton, List.intercalate_singleton, ht, evalBody]
      rcases hr : t.eval value m with ⟨_ | v, m'⟩
      · rfl
      · cases v with
        | none => exact absurd (congrArg Prod.fst hr) hsome
        | some v => rfl
    | cons t' body =>
      rw [List.map_cons, List.map_cons, List.intercalate_cons_cons, List.append_assoc,
        List.append_assoc, ht, evalBody]
      simp only [List.cons_append, List.nil_append, runFrom_drop]
      rcases hr : t.eval value m with ⟨_ | v, m'⟩
      · rfl
      · cases v with
        | none => exact absurd (congrArg Prod.fst hr) hsome
        | some v => exact ih (List.cons_ne_nil _ _) hbody hbodyl (some v) m'

/-- **A good tree runs as it is evaluated.** -/
theorem simulated (t : Tree) (hs : t.Supported) (hg : t.Good) : t.Simulated value := by
  induction t with
  | block body ih =>
    intro rest m stack
    have hbody (t : Tree) (ht : t ∈ loud body) : t.Simulated value := by
      obtain ⟨hm, hl⟩ := mem_loud.1 ht
      exact ih t hm ((all_block.1 hs).2 t hm) ⟨hl, filled_block.1 hg.2 t hm⟩
    rw [actions_block, eval, ← evalBody_loud]
    exact runFrom_body (mt loud_eq_nil_iff.1 hg.1) hbody (fun t ht => (mem_loud.1 ht).2) none rest
      m stack
  | expr t ih => exact ih (all_expr.1 hs).2 ⟨hg.1, filled_expr.1 hg.2⟩
  | assign targets t ih =>
    obtain ⟨⟨id, rfl⟩, ht⟩ := supported_assign.1 hs
    intro rest m stack
    rw [actions, eval, List.append_assoc, ih ht (filled_assign.1 hg.2), Ending.needed_yielding,
      Ending.andThen_assoc]
    simp only [List.cons_append, List.nil_append, runFrom_dup, runFrom_store]
    rfl
  | name id =>
    intro rest m stack
    rw [actions, eval, Ending.needed_yielding]
    exact runFrom_fetch rest m stack id
  | num n => exact fun rest m stack => rfl
  | binary left op right ihl ihr =>
    obtain ⟨rfl : op = .add, hl, hr⟩ := all_binary.1 hs
    obtain ⟨hgl, hgr⟩ := filled_binary.1 hg.2
    intro rest m stack
    rw [actions, refusals_eq_nil _ hs, eval, List.nil_append, List.append_assoc, ihl hl hgl,
      Ending.needed_yielding, Ending.andThen_assoc]
    simp only [List.append_assoc, ihr hr hgr _ _ _, Ending.andThen_assoc, List.cons_append,
      List.nil_append, runFrom_add]
  | call callee args ihc iha =>
    obtain ⟨-, hc, ha⟩ := all_call.1 hs
    obtain ⟨hgc, hga⟩ := filled_call.1 hg.2
    intro rest m stack
    rw [actions, refusals_eq_nil _ hc, actionsOfEach_eq, eval, List.nil_append, List.append_assoc,
      ihc hc hgc, Ending.needed_yielding, Ending.andThen_assoc]
    simp only [List.append_assoc, runFrom_args fun t ht => iha t ht (ha t ht) (hga t ht),
      Ending.andThen_assoc, List.cons_append, List.nil_append]
    refine congrArg _ (funext fun f => funext fun m => ?_)
    rcases hr : evalArgs value args m with ⟨_ | vs, m'⟩
    · rfl
    · rw [← length_evalArgs hr]
      exact runFrom_call rest m' stack f vs

/-- A unit ends with `None` if its tree is evaluated without error. -/
theorem runFrom_unitActions (value : Constant → Value) (t : Tree) (h : t.Compilable)
    (m : Memory) :
    runFrom value t.unitActions m .empty =
      (t.eval value m).andThen fun _ m => (.ok (value .none), m) := by
  have hret (m : Memory) :
      runFrom value [.load .none, .ret] m .empty = (.ok (value .none), m) := by
    rw [runFrom_load, runFrom, runActions, Memory.on, Action.step, Stack.pop?_push]
    rfl
  rw [unitActions_eq, bodyActions]
  split_ifs with hl
  · rw [eval_of_isSilent t hl]
    exact hret m
  · have hsome : (t.eval value m).1 ≠ .ok none := eval_ne_none t hl m
    rw [List.append_assoc, t.simulated h.supported ⟨hl, h.operands⟩]
    simp only [List.cons_append, List.nil_append, runFrom_drop, hret]
    rcases hr : t.eval value m with ⟨_ | v, m'⟩
    · rfl
    · cases v with
      | none => exact absurd (congrArg Prod.fst hr) hsome
      | some v => rfl

/-! ## Representatives -/

/-- The first literal of a tree with the key of a constant. -/
def representative (t : Tree) (c : Constant) : Constant :=
  (t.literals.find? (·.key = c.key)).getD c

/-- Different literals have different keys. -/
def LiteralsKept (t : Tree) : Prop :=
  ∀ c ∈ t.literals, ∀ d ∈ t.literals, c.key = d.key → c = d

instance (t : Tree) : Decidable t.LiteralsKept :=
  inferInstanceAs (Decidable (∀ c ∈ t.literals, ∀ d ∈ t.literals, c.key = d.key → c = d))

/-- A literal is represented by the first one with its key. -/
theorem find?_eq_representative {t : Tree} {c : Constant} (hc : c ∈ t.literals) :
    t.literals.find? (·.key = c.key) = some (t.representative c) := by
  rw [representative]
  cases hf : t.literals.find? (·.key = c.key) with
  | none => exact absurd (decide_eq_true rfl) (List.find?_eq_none.1 hf c hc)
  | some d => rfl

theorem representative_of_kept {t : Tree} (h : t.LiteralsKept) {c : Constant}
    (hc : c ∈ t.literals) : t.representative c = c := by
  have hf := find?_eq_representative hc
  exact h _ (List.mem_of_find?_eq_some hf) c hc (by simpa using List.find?_some hf)

/-- The value that code loads for a constant. -/
def represented (t : Tree) (c : Constant) : Value := .ofConstant (t.representative c)

theorem evalUnit_represented {t : Tree} (h : t.LiteralsKept) :
    t.evalUnit t.represented = t.evalUnit .ofConstant := by
  have heval : t.eval t.represented = t.eval .ofConstant :=
    t.eval_congr fun c hc => congrArg Value.ofConstant (representative_of_kept h hc)
  funext m
  rw [evalUnit, evalUnit, heval]

end Tree

/-! ## Compiled units -/

namespace CodeUnit

/-- The greatest height that the stack check finds for the code of a unit. -/
def depth? (u : CodeUnit) (t : Numbering) : Option Nat :=
  match u.instructions t with
  | .error _ => none
  | .ok is =>
    match Instr.maxDepth (is.map Prod.snd) with
    | .error _ => none
    | .ok depth => some depth

namespace Holds
variable {t : Numbering} {tree : Tree} {u : CodeUnit} {is : List Instr} {depth : Nat}

theorem depth? (h : Holds t tree u is depth) : u.depth? t = some depth := by
  rw [CodeUnit.depth?, h.instructions]
  simp only [Instr.map_snd_placed, h.maxDepth]

/-- The first of the constants with one key is the first of the literals with
    it. -/
theorem poolValue (h : Holds t tree u is depth) : poolValue u.consts = tree.represented := by
  funext c
  rw [Stacklet.poolValue, Tree.represented, Tree.representative, h.consts, find?_firstUses,
    tree.constantsOf_unitActions h.compilable.supported, List.find?_append]
  congr 1
  cases hf : tree.literals.find? (·.key = c.key) with
  | some d => rfl
  | none =>
    cases c with
    | none => rfl
    | int | float => simp [Constant.key]

end Holds

end CodeUnit

/-- What a run of a unit ends with, and what it leaves on the host. -/
def Host.ending (host : Host) (u : CodeUnit) : Ending Value :=
  ((host.run u).1.mapError .error, (host.run u).2.session.memory)

theorem Limits.exceeded?_eq_none {l : Limits} (hsteps : l.steps = none) {height : Nat}
    (hh : height ≤ l.height) (count : Nat) : l.exceeded? count height = none := by
  rw [exceeded?, hsteps]
  exact if_neg (Nat.not_lt.2 hh)

/-- A run within the limits is an evaluation with represented literals. -/
theorem CodeUnit.Holds.ending (host : Host) {tree : Tree} {u : CodeUnit} {is : List Instr}
    {depth : Nat} (h : CodeUnit.Holds host.numbering tree u is depth)
    (hsteps : host.limits.steps = none) (hdepth : depth ≤ host.limits.height) :
    host.ending u = tree.evalUnit tree.represented host.session.memory := by
  rcases h.run with ⟨k, height, e, hle, hlimit, -⟩ | hrun
  · rw [Limits.exceeded?_eq_none hsteps (hle.trans hdepth)] at hlimit
    cases hlimit
  · rw [h.poolValue] at hrun
    have heval := tree.runFrom_unitActions tree.represented h.compilable host.session.memory
    have hstart : runFrom tree.represented tree.unitActions host.session.memory .empty =
        host.ending u := by
      rw [runFrom, Session.memory_on, hrun]
      rfl
    rw [← hstart, heval, ← h.poolValue, poolValue_none]
    rfl

/-- A depth that the description of a unit does not cut off. -/
theorem toNat_stackSize {t : Numbering} {tree : Tree} {u : CodeUnit} {is : List Instr} {depth : Nat}
    (h : CodeUnit.Holds t tree u is depth) (hexact : depth < 2 ^ 32) :
    u.stackSize.toNat = depth := by
  rw [h.stackSize, UInt32.toNat_ofNat']
  exact Nat.mod_eq_of_lt hexact

/-- **Compiled code does what its tree says**, with literals represented by the
    first that have their keys: it ends with the same value or the same error,
    having printed the same text and bound the same globals. If different
    literals have different keys, that is the direct evaluation of the tree. -/
theorem run_ofTree {t : Numbering} {options : UnitOptions} {tree : Tree} {u : CodeUnit}
    (h : CodeUnit.ofTree t options tree = .ok u) (host : Host) (ht : host.numbering = t)
    (hsteps : host.limits.steps = none) (hsize : u.stackSize.toNat ≤ host.limits.height)
    (hexact : ∀ depth ∈ u.depth? t, depth < 2 ^ 32) :
    host.ending u = tree.evalUnit tree.represented host.session.memory ∧
      (tree.LiteralsKept → host.ending u = tree.evalUnit .ofConstant host.session.memory) := by
  subst ht
  obtain ⟨is, depth, hu⟩ := CodeUnit.holds_of_ofTree h
  have hdepth : depth ≤ host.limits.height := by
    rw [← toNat_stackSize hu (hexact depth hu.depth?)]
    exact hsize
  have hrun := hu.ending host hsteps hdepth
  refine ⟨hrun, fun hkept => ?_⟩
  rw [hrun, Tree.evalUnit_represented hkept]

/-! ## Runs of given trees -/

theorem depth_le_of_maxDepthFrom {place height deepest depth : Nat} {is : List Instr}
    (h : Instr.maxDepthFrom place height deepest is = .ok depth) :
    depth ≤ max deepest (height + is.length) := by
  induction is generalizing place height deepest with
  | nil =>
    cases h
    exact Nat.le_max_left _ _
  | cons i is ih =>
    rw [Instr.maxDepthFrom, Instr.heightAfter?] at h
    split_ifs at h with hp
    have hpushes : i.pushes ≤ i.pops + 1 := by
      cases i <;> simp [Instr.pushes, Instr.pops]
    have := ih h
    rw [List.length_cons]
    omega

/-- The depth of a unit is at most the number of its actions. -/
theorem CodeUnit.Holds.depth_le {t : Numbering} {tree : Tree} {u : CodeUnit} {is : List Instr}
    {depth : Nat} (h : CodeUnit.Holds t tree u is depth) : depth ≤ tree.unitActions.length := by
  have hle := depth_le_of_maxDepthFrom h.maxDepth
  rw [← h.does.length_eq] at hle
  simpa using hle

/-- A host that stops a run at the first height that no unit can describe. -/
def roomyHost : Host := .fresh .classic ⟨none, 2 ^ 32⟩ .empty

/-- A tree that compiles into a unit for such a host. -/
theorem exists_ofTree_roomy (tree : Tree) (hc : tree.Compilable)
    (hlen : tree.unitActions.length < 2 ^ 32) :
    ∃ u, CodeUnit.ofTree .classic .default tree = .ok u ∧
      u.stackSize.toNat ≤ roomyHost.limits.height ∧
      ∀ depth ∈ u.depth? .classic, depth < 2 ^ 32 := by
  obtain ⟨u, hu⟩ := (CodeUnit.exists_ofTree_iff .classic .default tree).2 hc
  obtain ⟨is, depth, hholds⟩ := CodeUnit.holds_of_ofTree hu
  refine ⟨u, hu, Nat.le_of_lt u.stackSize.toNat_lt, fun d hd => ?_⟩
  rw [hholds.depth?, Option.mem_some_iff] at hd
  exact hd ▸ hholds.depth_le.trans_lt hlen

theorem run_ofTree_printSum :
    ∃ u, CodeUnit.ofTree .classic .default Tree.printSum = .ok u ∧
      roomyHost.ending u = Tree.printSum.evalUnit .ofConstant roomyHost.session.memory := by
  obtain ⟨u, hu, hsize, hexact⟩ := exists_ofTree_roomy .printSum (by decide) (by decide)
  exact ⟨u, hu, (run_ofTree hu roomyHost rfl rfl hsize hexact).2 (by decide)⟩

/-- `x = 0.0; y = -0.0` -/
def Tree.zeros : Tree :=
  .block [.assign [.name "x"] (.num (.float ⟨0⟩)),
    .assign [.name "y"] (.num (.float ⟨0x8000000000000000⟩))]

/-- Literals that share a key are not told apart: here both names are bound to
    the first zero. -/
theorem run_ofTree_zeros :
    ∃ u, CodeUnit.ofTree .classic .default Tree.zeros = .ok u ∧
      u.stackSize.toNat ≤ roomyHost.limits.height ∧
      (∀ depth ∈ u.depth? .classic, depth < 2 ^ 32) ∧
      roomyHost.ending u ≠ Tree.zeros.evalUnit .ofConstant roomyHost.session.memory := by
  obtain ⟨u, hu, hsize, hexact⟩ := exists_ofTree_roomy .zeros (by decide) (by decide)
  refine ⟨u, hu, hsize, hexact, fun heq => ?_⟩
  obtain ⟨is, depth, hholds⟩ := CodeUnit.holds_of_ofTree hu
  have hrun := hholds.ending roomyHost rfl (hholds.depth_le.trans (by decide))
  rw [hrun] at heq
  have hy := congrArg (fun e : Ending Value => e.2.globals["y"]?) heq
  simp [Tree.evalUnit, Tree.zeros, Tree.eval, Tree.evalBody, Ending.andThen, Ending.yielding,
    Ending.needed, Constant.ofNumber] at hy
  exact absurd hy (by decide)

end Stacklet
