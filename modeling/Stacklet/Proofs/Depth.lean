/-
  The stack size of a unit is exact.

  `Tree.need` is the greatest number of values that a tree has on the stack at
  one time, by recursion on the tree. The stack check simulates the heights
  along the instructions, and a run has them: three times the same number.

  * `peak_actions`: along the actions of a tree, by induction on the tree;
  * `maxDepthFrom_eq_peak`, `isGreatest_maxDepth`: for the stack check;
  * `stackSize_exact`: for the runs of a compiled unit.
-/
import Mathlib.Order.Bounds.Basic
import Stacklet.Proofs.Correctness
import Stacklet.Proofs.Runs

namespace Stacklet

/-! ## The greatest height -/

/-- The greatest height along actions, the first one included. -/
def peak : List Action → Nat → Nat
  | [], height => height
  | a :: as, height => max height (peak as (height - a.pops + a.pushes))

theorem le_peak (as : List Action) (height : Nat) : height ≤ peak as height := by
  cases as with
  | nil => exact Nat.le_refl _
  | cons a as => exact Nat.le_max_left _ _

theorem peak_append {as bs : List Action} {height last : Nat}
    (h : heightPast? as height = some last) :
    peak (as ++ bs) height = max (peak as height) (peak bs last) := by
  induction as generalizing height with
  | nil =>
    cases h
    exact (Nat.max_eq_right (le_peak bs _)).symm
  | cons a as ih =>
    rw [heightPast?] at h
    split_ifs at h with hp
    rw [List.cons_append, peak, peak, ih h, Nat.max_assoc]

theorem le_peak_of_heightPast? {as : List Action} {height last : Nat}
    (h : heightPast? as height = some last) : last ≤ peak as height := by
  calc
    last = peak [] last := rfl
    _ ≤ max (peak as height) (peak [] last) := Nat.le_max_right _ _
    _ = peak (as ++ []) height := (peak_append h).symm
    _ = peak as height := by rw [List.append_nil]

/-- An action that takes as many values as it leaves reaches no new height. -/
theorem peak_concat {as : List Action} {a : Action} {height last : Nat}
    (h : heightPast? as height = some last) (hp : a.pops ≤ last) (ha : a.pushes ≤ a.pops) :
    peak (as ++ [a]) height = peak as height := by
  have hlast := le_peak_of_heightPast? h
  rw [peak_append h, peak, peak]
  omega

namespace Tree

/-! ## Needs -/

mutual

/-- How many values a tree has on the stack at one time, those below aside. -/
def need : Tree → Nat
  | .num _ | .name _ => 1
  | .expr value => value.need
  | .block body => needOfEach body
  | .assign _ value => max value.need 2
  | .binary left _ right => max left.need (1 + right.need)
  | .call callee args => max callee.need (needAbove 1 args)

/-- One tree after the other, the value of each being dropped. -/
def needOfEach : List Tree → Nat
  | [] => 0
  | t :: ts => max t.need (needOfEach ts)

/-- One tree after the other, each above the values of those before it. -/
def needAbove (below : Nat) : List Tree → Nat
  | [] => 0
  | t :: ts => max (below + t.need) (needAbove (below + 1) ts)

end

theorem need_of_isSilent (t : Tree) (h : t.isSilent) : t.need = 0 := by
  induction t with
  | block body ih =>
    rw [isSilent, areSilent_eq, List.all_eq_true] at h
    rw [need]
    induction body with
    | nil => rfl
    | cons t body ihb =>
      obtain ⟨ht, hbody⟩ := List.forall_mem_cons.1 h
      obtain ⟨iht, ih⟩ := List.forall_mem_cons.1 ih
      rw [needOfEach, iht ht, ihb ih hbody]
      rfl
  | expr value ih => exact ih h
  | assign | name | num | binary | call => cases h

theorem needOfEach_loud (body : List Tree) : needOfEach (loud body) = needOfEach body := by
  induction body with
  | nil => rfl
  | cons t body ih =>
    rw [loud, List.filter_cons, ← loud]
    by_cases h : t.isSilent
    · simp [h, needOfEach, need_of_isSilent t h, ih]
    · simp [h, needOfEach, ih]

theorem peak_intercalate {ts : List Tree} {height : Nat} (hne : ts ≠ [])
    (hpast : ∀ t ∈ ts, heightPast? t.actions height = some (height + 1))
    (hpeak : ∀ t ∈ ts, peak t.actions height = height + t.need) :
    peak (List.intercalate [.drop] (ts.map actions)) height = height + needOfEach ts := by
  induction ts with
  | nil => exact absurd rfl hne
  | cons t ts ih =>
    obtain ⟨ht, hts⟩ := List.forall_mem_cons.1 hpast
    obtain ⟨hp, hps⟩ := List.forall_mem_cons.1 hpeak
    cases ts with
    | nil =>
      rw [List.map_singleton, List.intercalate_singleton, hp, needOfEach, needOfEach, Nat.max_zero]
    | cons t' ts =>
      have hdropped : heightPast? (t.actions ++ [.drop]) height = some height := by
        rw [heightPast?_append, ht]
        rfl
      have hkept := peak_concat (a := .drop) ht (Nat.le_add_left 1 height) (Nat.zero_le 1)
      have hrest := ih (List.cons_ne_nil _ _) hts hps
      rw [List.map_cons] at hrest
      rw [List.map_cons, List.map_cons, List.intercalate_cons_cons, peak_append hdropped, hkept, hp,
        hrest]
      exact Nat.add_max_add_left height t.need (needOfEach (t' :: ts))

theorem peak_args {args : List Tree}
    (hpast : ∀ t ∈ args, ∀ height, heightPast? t.actions height = some (height + 1))
    (hpeak : ∀ t ∈ args, ∀ height, peak t.actions height = height + t.need) (height below : Nat) :
    peak (args.map actions).flatten (height + below) =
      max (height + below) (height + needAbove below args) := by
  induction args generalizing below with
  | nil =>
    rw [needAbove]
    exact (Nat.max_eq_left (Nat.add_le_add_left (Nat.zero_le _) _)).symm
  | cons t args ih =>
    obtain ⟨ht, hargs⟩ := List.forall_mem_cons.1 hpast
    obtain ⟨hp, hps⟩ := List.forall_mem_cons.1 hpeak
    have hone := le_peak_of_heightPast? (ht (height + below))
    rw [hp] at hone
    rw [List.map_cons, List.flatten_cons, peak_append (ht _), hp, Nat.add_assoc height below 1,
      ih hargs hps, needAbove]
    omega

/-- **Along the actions of a good tree, the greatest height is the need of the
    tree**, above what is on the stack. -/
theorem peak_actions (t : Tree) (hs : t.Supported) (hg : t.Good) (height : Nat) :
    peak t.actions height = height + t.need := by
  induction t generalizing height with
  | block body ih =>
    obtain ⟨hl, hf⟩ := hg
    have hgood (t : Tree) (ht : t ∈ loud body) : t ∈ body ∧ t.Supported ∧ t.Good := by
      obtain ⟨hm, hq⟩ := mem_loud.1 ht
      exact ⟨hm, (all_block.1 hs).2 t hm, hq, filled_block.1 hf t hm⟩
    rw [actions_block, need, ← needOfEach_loud]
    refine peak_intercalate (mt loud_eq_nil_iff.1 hl) (fun t ht => ?_) fun t ht => ?_
    · obtain ⟨-, hst, hgt⟩ := hgood t ht
      exact heightPast?_actions t hst hgt height
    · obtain ⟨hm, hst, hgt⟩ := hgood t ht
      exact ih t hm hst hgt height
  | expr value ih => exact ih (all_expr.1 hs).2 ⟨hg.1, filled_expr.1 hg.2⟩ height
  | assign targets value ih =>
    obtain ⟨⟨id, rfl⟩, hv⟩ := supported_assign.1 hs
    have hgv := filled_assign.1 hg.2
    have hpast := heightPast?_actions value hv hgv height
    rw [actions, peak_append hpast, ih hv hgv, need]
    simp only [peak, Action.pops, Action.pushes]
    omega
  | name | num =>
    rw [need]
    simp only [actions, peak, Action.pops, Action.pushes]
    omega
  | binary left op right ihl ihr =>
    obtain ⟨-, hl, hr⟩ := all_binary.1 hs
    obtain ⟨hgl, hgr⟩ := filled_binary.1 hg.2
    have hpast := heightPast?_actions left hl hgl height
    have hright := heightPast?_actions right hr hgr (height + 1)
    have hadd : peak (right.actions ++ [.add]) (height + 1) = height + 1 + right.need := by
      rw [peak_concat (a := .add) hright (Nat.le_add_left 2 height) (Nat.le_succ 1), ihr hr hgr]
    rw [actions, refusals_eq_nil _ hs, List.nil_append, peak_append hpast, ihl hl hgl, hadd, need]
    omega
  | call callee args ihc iha =>
    obtain ⟨-, hc, ha⟩ := all_call.1 hs
    obtain ⟨hgc, hga⟩ := filled_call.1 hg.2
    have hpast := heightPast?_actions callee hc hgc height
    have hone := le_peak_of_heightPast? hpast
    rw [ihc hc hgc] at hone
    have hpasts (t : Tree) (ht : t ∈ args) := heightPast?_actions t (ha t ht) (hga t ht)
    have hpeaks (t : Tree) (ht : t ∈ args) := iha t ht (ha t ht) (hga t ht)
    have hargs := heightPast?_args hpasts (height + 1)
    have hpops : (Action.call args.length).pops ≤ height + 1 + args.length := by
      simp only [Action.pops]
      omega
    have hpushes : (Action.call args.length).pushes ≤ (Action.call args.length).pops :=
      Nat.le_add_left 1 _
    rw [actions, refusals_eq_nil _ hc, List.nil_append, actionsOfEach_eq, peak_append hpast,
      ihc hc hgc, peak_concat hargs hpops hpushes, peak_args hpasts hpeaks, need]
    omega

/-- A unit needs one value more at most: the one that it returns. -/
theorem peak_unitActions (t : Tree) (hs : t.Supported) (hf : t.Filled) :
    peak t.unitActions 0 = max 1 t.need := by
  rw [unitActions_eq, bodyActions]
  split_ifs with h
  · rw [need_of_isSilent t h]
    rfl
  · have hg : t.Good := ⟨h, hf⟩
    have hpast := heightPast?_actions t hs hg 0
    have hone := le_peak_of_heightPast? hpast
    have hdropped : heightPast? (t.actions ++ [.drop]) 0 = some 0 := by
      rw [heightPast?_append, hpast]
      rfl
    rw [peak_actions t hs hg] at hone
    rw [peak_append hdropped, peak_concat (a := .drop) hpast (Nat.le_refl 1) (Nat.zero_le 1),
      peak_actions t hs hg, Nat.zero_add, Nat.max_comm]
    rfl

end Tree

/-! ## The stack check -/

/-- The stack check finds the greatest height along the actions. -/
theorem maxDepthFrom_eq_peak {consts : Array Constant} {names : Array String} {as : List Action}
    {is : List Instr} (h : List.Forall₂ (Does consts names) as is)
    {place height deepest depth : Nat}
    (hmax : Instr.maxDepthFrom place height deepest is = .ok depth) (hle : height ≤ deepest) :
    depth = max deepest (peak as height) := by
  induction h generalizing place height deepest with
  | nil =>
    cases hmax
    exact (Nat.max_eq_left hle).symm
  | @cons a i as is hai _ ih =>
    obtain ⟨-, hi⟩ := hai.heightAfter? height
    rw [Instr.maxDepthFrom, hi] at hmax
    by_cases hp : a.pops ≤ height
    · rw [if_pos hp] at hmax
      have hbehind := le_peak as (height - a.pops + a.pushes)
      rw [ih hmax (Nat.le_max_right _ _), peak]
      omega
    · rw [if_neg hp] at hmax
      cases hmax

theorem maxDepthFrom_spec {place height deepest depth : Nat} {is : List Instr}
    (h : Instr.maxDepthFrom place height deepest is = .ok depth) (hle : height ≤ deepest) :
    (depth = deepest ∨ ∃ k, Instr.finalHeightFrom place height (is.take k) = .ok depth) ∧
      ∀ k last, Instr.finalHeightFrom place height (is.take k) = .ok last → last ≤ depth := by
  have hdeepest := le_of_maxDepthFrom h
  induction is generalizing place height deepest with
  | nil =>
    cases h
    refine ⟨Or.inl rfl, fun k last hk => ?_⟩
    rw [List.take_nil] at hk
    cases hk
    exact hle
  | cons i is ih =>
    rw [Instr.maxDepthFrom] at h
    cases hi : i.heightAfter? height with
    | none =>
      rw [hi] at h
      cases h
    | some height' =>
      rw [hi] at h
      obtain ⟨hreached, hbound⟩ := ih h (Nat.le_max_right _ _) (le_of_maxDepthFrom h)
      have hcons (k : Nat) : Instr.finalHeightFrom place height ((i :: is).take (k + 1)) =
          Instr.finalHeightFrom (place + 1) height' (is.take k) := by
        rw [List.take_succ_cons, Instr.finalHeightFrom, hi]
      refine ⟨?_, fun k last hk => ?_⟩
      · rcases hreached with hreached | ⟨k, hk⟩
        · rcases Nat.le_total height' deepest with hle' | hle'
          · rw [Nat.max_eq_left hle'] at hreached
            exact Or.inl hreached
          · rw [Nat.max_eq_right hle'] at hreached
            refine Or.inr ⟨1, ?_⟩
            rw [hcons 0, hreached]
            rfl
        · exact Or.inr ⟨k + 1, (hcons k).trans hk⟩
      · cases k with
        | zero =>
          cases hk
          exact hle.trans hdeepest
        | succ k => exact hbound k last ((hcons k).symm.trans hk)

/-- **The stack check finds the greatest of the heights that it simulates.** -/
theorem isGreatest_maxDepth {is : List Instr} {depth : Nat} (h : Instr.maxDepth is = .ok depth) :
    IsGreatest {height | ∃ k, Instr.finalHeight (is.take k) = .ok height} depth := by
  obtain ⟨hreached, hbound⟩ := maxDepthFrom_spec h (Nat.le_refl 0)
  refine ⟨?_, fun last ⟨k, hk⟩ => hbound k last hk⟩
  rcases hreached with rfl | hreached
  · exact ⟨0, rfl⟩
  · exact hreached

/-! ## Compiled units -/

/-- An instruction does the action that has the same place. -/
theorem Does.of_getElem? {consts : Array Constant} {names : Array String} {as : List Action}
    {is : List Instr} (h : List.Forall₂ (Does consts names) as is) {k : Nat} {i : Instr}
    (hi : is[k]? = some i) : ∃ a, as[k]? = some a ∧ Does consts names a i := by
  induction h generalizing k with
  | nil => cases hi
  | cons hbj _ ih =>
    cases k with
    | zero =>
      cases hi
      exact ⟨_, rfl, hbj⟩
    | succ k => exact ih hi

/-- The only return of a unit is its last action. -/
theorem Tree.ret_last {t : Tree} (hs : t.Supported) {k : Nat}
    (h : t.unitActions[k]? = some .ret) : k + 1 = t.unitActions.length := by
  have hbody : .ret ∉ t.bodyActions :=
    mt (mem_actions_of_mem_bodyActions nofun) (t.ret_notMem_actions hs)
  rw [unitActions_eq] at h ⊢
  rcases Nat.lt_or_ge k t.bodyActions.length with hlt | hge
  · rw [List.getElem?_append_left hlt] at h
    exact absurd (List.mem_of_getElem? h) hbody
  · rw [List.getElem?_append_right hge] at h
    rw [List.length_append]
    rcases hk : k - t.bodyActions.length with _ | _ | m
    · rw [hk] at h
      cases h
    · show k + 1 = t.bodyActions.length + 2
      omega
    · rw [hk] at h
      cases h

namespace CodeUnit.Holds
variable {t : Numbering} {tree : Tree} {u : CodeUnit} {is : List Instr} {depth : Nat}
  (h : Holds t tree u is depth)
include h

theorem depth_eq : depth = max 1 tree.need := by
  rw [maxDepthFrom_eq_peak h.does h.maxDepth (Nat.le_refl 0),
    tree.peak_unitActions h.compilable.supported h.compilable.operands, Nat.zero_max]

theorem finalHeight : Instr.finalHeight is = .ok 0 :=
  (maxDepth_of_heightPast? h.does
    (tree.heightPast?_unitActions h.compilable.supported h.compilable.operands) 0 0).2

theorem returns_last {k : Nat} (hk : is[k]? = some .returnValue) : k + 1 = is.length := by
  obtain ⟨a, ha, hdoes⟩ := Does.of_getElem? h.does hk
  cases hdoes
  rw [← h.does.length_eq]
  exact Tree.ret_last h.compilable.supported ha

section
variable {l : Limits} {first : Session} (hfirst : first.stack.height = 0)
include hfirst

/-- In front of an instruction, a run has the height that the stack check
    simulates for those before it. -/
theorem height_of_reaches {k : Nat} {s : Session}
    (hs : Reaches l u (Instr.placed 0 is) first k s) :
    Instr.finalHeight (is.take k) = .ok s.stack.height ∧ s.stack.height ≤ depth := by
  have hheight := hs.finalHeight
  rw [hfirst, Instr.map_snd_placed] at hheight
  exact ⟨hheight, (isGreatest_maxDepth h.maxDepth).2 ⟨k, hheight⟩⟩

/-- A run that returns has come to an instruction at the greatest height. -/
theorem exists_deepest {v : Value}
    (hok : (exec l u 0 (Instr.placed 0 is) first).1 = .ok v) :
    ∃ k s, Reaches l u (Instr.placed 0 is) first k s ∧ s.stack.height = depth := by
  obtain ⟨last, s, hlast, hreturn⟩ := Reaches.exists_last l u (Instr.placed 0 is) first
  rw [hok] at hreturn
  obtain ⟨offset, hi⟩ := hreturn
  have hlen : last + 1 = is.length := by
    refine h.returns_last ?_
    rw [← Instr.map_snd_placed 0 is, List.getElem?_map, hi]
    rfl
  obtain ⟨k, hk⟩ := (isGreatest_maxDepth h.maxDepth).1
  rcases Nat.lt_or_ge k is.length with hlt | hge
  · obtain ⟨s', hs'⟩ := hlast.earlier (Nat.le_of_lt_succ (hlen ▸ hlt))
    have hheight := (h.height_of_reaches hfirst hs').1.symm.trans hk
    exact ⟨k, s', hs', Except.ok.inj hheight⟩
  · -- behind the return, the height is that in front of everything
    rw [List.take_of_length_le hge, h.finalHeight] at hk
    exact ⟨0, first, .start, hfirst.trans (Except.ok.inj hk)⟩

end

end CodeUnit.Holds

/-- **The stack size of a compiled unit is exact.** A run has the heights that
    the stack check simulates, none above the stack size, and a run that returns
    has reached it. So a limit on the height stops no run unless it is below the
    stack size, and then no run returns. The stack size is the need of the tree,
    or one if the tree needs nothing. -/
theorem stackSize_exact (host : Host) {options : UnitOptions} {tree : Tree} {u : CodeUnit}
    (h : CodeUnit.ofTree host.numbering options tree = .ok u)
    (hexact : ∀ depth ∈ u.depth? host.numbering, depth < 2 ^ 32) :
    ∃ is, u.instructions host.numbering = .ok is ∧
      (∀ k s, Reaches host.limits u is host.session.cleared k s →
        Instr.finalHeight ((is.map Prod.snd).take k) = .ok s.stack.height ∧
          s.stack.height ≤ u.stackSize.toNat) ∧
      (∀ v, (host.run u).1 = .ok v → ∃ k s,
        Reaches host.limits u is host.session.cleared k s ∧
          s.stack.height = u.stackSize.toNat) ∧
      (u.stackSize.toNat ≤ host.limits.height →
        ∀ limit, (host.run u).1 ≠ .error (.stackLimit limit)) ∧
      (host.limits.height < u.stackSize.toNat → ∀ v, (host.run u).1 ≠ .ok v) ∧
      u.stackSize.toNat = max 1 tree.need := by
  obtain ⟨is, depth, hu⟩ := CodeUnit.holds_of_ofTree h
  have hsize := toNat_stackSize hu (hexact depth hu.depth?)
  have hrun := congrArg Prod.fst (Host.run_of_instructions hu.instructions)
  refine ⟨_, hu.instructions, fun k s hs => ?_, fun v hok => ?_, fun hle limit hstop => ?_,
    fun hlt v hok => ?_, hsize.trans hu.depth_eq⟩
  · rw [hsize, Instr.map_snd_placed]
    exact hu.height_of_reaches rfl hs
  · rw [hsize]
    exact hu.exists_deepest rfl (hrun.symm.trans hok)
  · obtain ⟨last, s, hlast, hend⟩ :=
      Reaches.exists_last host.limits u (Instr.placed 0 is) host.session.cleared
    rw [← hrun, hstop] at hend
    rcases hend with hexceeded | hother
    · have habove := Limits.lt_of_exceeded? hexceeded
      have hbelow := (hu.height_of_reaches rfl hlast).2
      omega
    · exact hother trivial
  · have hok' := hrun.symm.trans hok
    obtain ⟨k, s, hs, hdeep⟩ := hu.exists_deepest rfl hok'
    have hheight := hs.height_le hok'
    omega

/-- A host on which two values on the stack are one too few. -/
theorem stackSize_exact_printSum :
    ∃ u, CodeUnit.ofTree .classic .default Tree.printSum = .ok u ∧ u.stackSize.toNat = 3 ∧
      (∀ limit, (roomyHost.run u).1 ≠ .error (.stackLimit limit)) ∧
      ∀ v, ((Host.fresh .classic ⟨none, 2⟩ .empty).run u).1 ≠ .ok v := by
  obtain ⟨u, hu, hsize, hexact⟩ := exists_ofTree_roomy .printSum (by decide) (by decide)
  obtain ⟨is, his, -, -, hroomy, -, hneed⟩ := stackSize_exact roomyHost hu hexact
  obtain ⟨js, hjs, -, -, -, hnarrow, -⟩ :=
    stackSize_exact (.fresh .classic ⟨none, 2⟩ .empty) hu hexact
  have hthree : u.stackSize.toNat = 3 := hneed.trans (by decide)
  exact ⟨u, hu, hthree, hroomy hsize, hnarrow (by rw [hthree]; decide)⟩

end Stacklet
