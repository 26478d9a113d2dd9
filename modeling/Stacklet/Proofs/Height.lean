/-
  The height of the stack along actions.

  A tree that leaves a value, and whose operands all do (`Tree.Good`), raises
  the stack by one and needs nothing below; any other tree raises it by less
  than that. So the stack check of a whole unit finds every silent operand.

  * `heightPast?_actions`: good trees, from any height;
  * `isLow`: the other ones, whether or not the stack underflows;
  * `heightPast?_unitActions`, `heightPast?_unitActions_of_not`: a unit ends on
    an empty stack, or finds too few values because an operand is silent;
  * `maxDepth_of_heightPast?`, `maxDepth_of_underflow`: what the check of the
    instructions says in either case.
-/
import Mathlib.Algebra.BigOperators.Group.List.Basic
import Mathlib.Algebra.Ring.Int.Defs
import Stacklet.Proofs.Account

namespace Stacklet

/-! ## Heights -/

namespace Action

/-- How many values an action takes. -/
def pops : Action → Nat
  | load _ | fetch _ | reject _ => 0
  | store _ | ret | drop | dup => 1
  | add => 2
  | call count => count + 1

/-- How many values an action leaves. -/
def pushes : Action → Nat
  | load _ | fetch _ | add | call _ => 1
  | store _ | ret | drop | reject _ => 0
  | dup => 2

end Action

/-- The height behind actions, if each of them finds enough values. -/
def heightPast? : List Action → Nat → Option Nat
  | [], height => some height
  | a :: as, height =>
    if a.pops ≤ height then heightPast? as (height - a.pops + a.pushes) else none

/-- From a height on, an action is the first that finds too few values: those
    before it are `before`, and leave `had`. -/
structure FallsShortFrom (height : Nat) (as before : List Action) (a : Action) (had : Nat) :
    Prop where
  split : ∃ after, as = before ++ a :: after
  enough : heightPast? before height = some had
  short : had < a.pops

/-- On an empty stack, an action is the first that finds too few values. -/
def FallsShort : List Action → List Action → Action → Nat → Prop := FallsShortFrom 0

/-- By how much actions raise the stack, all in all. -/
def rise (as : List Action) : Int := (as.map fun a => (a.pushes : Int) - a.pops).sum

theorem heightPast?_append (as bs : List Action) (height : Nat) :
    heightPast? (as ++ bs) height = (heightPast? as height).bind (heightPast? bs) := by
  induction as generalizing height with
  | nil => rfl
  | cons a as ih =>
    rw [List.cons_append, heightPast?, heightPast?]
    split_ifs
    · exact ih _
    · rfl

theorem rise_append (as bs : List Action) : rise (as ++ bs) = rise as + rise bs := by
  rw [rise, List.map_append, List.sum_append]
  rfl

theorem rise_cons (a : Action) (as : List Action) :
    rise (a :: as) = (a.pushes - a.pops) + rise as := by
  rw [rise, List.map_cons, List.sum_cons]
  rfl

theorem rise_nil : rise [] = 0 := rfl

theorem eq_add_rise {as : List Action} {height last : Nat} (h : heightPast? as height = some last) :
    (last : Int) = height + rise as := by
  induction as generalizing height with
  | nil => cases h; simp [rise]
  | cons a as ih =>
    rw [heightPast?] at h
    split_ifs at h with hp
    have := ih h
    rw [rise_cons]
    omega

/-! ## Statements in sequence -/

section
variable {codes : List (List Action)}

/-- Statements that each leave one value leave one in sequence. -/
theorem heightPast?_intercalate {height : Nat} (hne : codes ≠ [])
    (h : ∀ as ∈ codes, heightPast? as height = some (height + 1)) :
    heightPast? (List.intercalate [.drop] codes) height = some (height + 1) := by
  induction codes with
  | nil => exact absurd rfl hne
  | cons as codes ih =>
    obtain ⟨has, hcodes⟩ := List.forall_mem_cons.1 h
    cases codes with
    | nil =>
      rw [List.intercalate_singleton]
      exact has
    | cons bs codes =>
      rw [List.intercalate_cons_cons, heightPast?_append, heightPast?_append, has]
      -- the value left by the first statement is dropped
      exact ih (List.cons_ne_nil _ _) hcodes

theorem rise_intercalate (hne : codes ≠ []) :
    rise (List.intercalate [.drop] codes) = (codes.map fun as => rise as - 1).sum + 1 := by
  induction codes with
  | nil => exact absurd rfl hne
  | cons as codes ih =>
    cases codes with
    | nil => simp
    | cons bs codes =>
      rw [List.intercalate_cons_cons, rise_append, rise_append, ih (List.cons_ne_nil _ _)]
      simp only [rise_cons, rise_nil, Action.pushes, Action.pops, List.map_cons, List.sum_cons]
      omega

theorem rise_flatten :
    rise codes.flatten = (codes.map fun as => rise as - 1).sum + codes.length := by
  induction codes with
  | nil => rfl
  | cons as codes ih =>
    rw [List.flatten_cons, rise_append, ih, List.map_cons, List.sum_cons, List.length_cons]
    omega

end

namespace Tree

/-! ## Good trees -/

/-- The statements of a block that are not silent. -/
def loud (body : List Tree) : List Tree := body.filter (!·.isSilent)

theorem mem_loud {body : List Tree} {t : Tree} : t ∈ loud body ↔ t ∈ body ∧ ¬ t.isSilent := by
  simp [loud]

theorem loud_eq_nil_iff {body : List Tree} : loud body = [] ↔ (block body).isSilent := by
  rw [isSilent, areSilent_eq, loud, List.filter_eq_nil_iff, List.all_eq_true]
  simp

/-- Silent statements do not matter. -/
theorem actions_block (body : List Tree) :
    actions (.block body) = List.intercalate [.drop] ((loud body).map actions) := by
  have h (t : Tree) : (!t.actions.isEmpty) = !t.isSilent := by
    rw [Bool.eq_iff_iff, Bool.not_eq_true', Bool.not_eq_true', ← Bool.not_eq_true,
      ← Bool.not_eq_true, List.isEmpty_iff, actions_eq_nil_iff]
  rw [actions, actionsOfEach_eq, joined, List.filter_map, loud]
  exact congrArg (fun p => List.intercalate [.drop] ((body.filter p).map actions)) (funext h)

theorem heightPast?_args {args : List Tree}
    (h : ∀ t ∈ args, ∀ height, heightPast? t.actions height = some (height + 1)) (height : Nat) :
    heightPast? (args.map actions).flatten height = some (height + args.length) := by
  induction args generalizing height with
  | nil => rfl
  | cons t args ih =>
    obtain ⟨ht, hargs⟩ := List.forall_mem_cons.1 h
    rw [List.map_cons, List.flatten_cons, heightPast?_append, ht, Option.bind_some, ih hargs,
      List.length_cons, Nat.add_assoc, Nat.add_comm 1]

/-- **A good tree leaves one more value, whatever is on the stack.** -/
theorem heightPast?_actions (t : Tree) (hs : t.Supported) (hg : t.Good) (height : Nat) :
    heightPast? t.actions height = some (height + 1) := by
  induction t generalizing height with
  | block body ih =>
    obtain ⟨hl, hf⟩ := hg
    rw [actions_block]
    refine heightPast?_intercalate ?_ fun as has => ?_
    · rwa [ne_eq, List.map_eq_nil_iff, loud_eq_nil_iff]
    · obtain ⟨t, ht, rfl⟩ := List.mem_map.1 has
      obtain ⟨hm, ht⟩ := mem_loud.1 ht
      exact ih t hm ((all_block.1 hs).2 t hm) ⟨ht, filled_block.1 hf t hm⟩ height
  | expr value ih => exact ih (all_expr.1 hs).2 ⟨hg.1, filled_expr.1 hg.2⟩ height
  | assign targets value ih =>
    obtain ⟨⟨id, rfl⟩, hv⟩ := supported_assign.1 hs
    rw [actions, heightPast?_append, ih hv (filled_assign.1 hg.2)]
    simp [heightPast?, Action.pops, Action.pushes]
  | name id => rfl
  | num n => rfl
  | binary left op right ihl ihr =>
    obtain ⟨hop, hl, hr⟩ := all_binary.1 hs
    obtain ⟨hgl, hgr⟩ := filled_binary.1 hg.2
    rw [actions, refusals_eq_nil _ hs, List.nil_append, heightPast?_append, ihl hl hgl,
      Option.bind_some, heightPast?_append, ihr hr hgr]
    simp [heightPast?, Action.pops, Action.pushes]
  | call callee args ihc iha =>
    obtain ⟨-, hc, ha⟩ := all_call.1 hs
    obtain ⟨hgc, hga⟩ := filled_call.1 hg.2
    have hargs := heightPast?_args fun t ht => iha t ht (ha t ht) (hga t ht)
    rw [actions, refusals_eq_nil _ hc, List.nil_append, actionsOfEach_eq, heightPast?_append,
      ihc hc hgc, Option.bind_some, heightPast?_append, hargs, Option.bind_some, heightPast?]
    have hpops : (Action.call args.length).pops ≤ height + 1 + args.length := by
      simp only [Action.pops]
      omega
    rw [if_pos hpops, heightPast?, Action.pops, Action.pushes]
    congr 1
    omega

/-! ## Other trees -/

/-- A sum of numbers that are not positive is at most each of them. -/
theorem sum_le_of_mem {α : Type} {f : α → Int} {as : List α} (h : ∀ a ∈ as, f a ≤ 0) :
    (as.map f).sum ≤ 0 ∧ ∀ a ∈ as, (as.map f).sum ≤ f a := by
  induction as with
  | nil => simp
  | cons a as ih =>
    obtain ⟨ha, has⟩ := List.forall_mem_cons.1 h
    obtain ⟨hsum, hmem⟩ := ih has
    rw [List.map_cons, List.sum_cons]
    refine ⟨by omega, fun b hb => ?_⟩
    rcases List.mem_cons.1 hb with rfl | hb
    · omega
    · have := hmem b hb
      omega

/-- A tree raises the stack by one at most, and by less if it is not good. -/
def IsLow (t : Tree) : Prop := rise t.actions ≤ 1 ∧ (¬ t.Good → rise t.actions ≤ 0)

/-- A tree whose actions put one value for those of its parts is low if they
    are. -/
theorem IsLow.of_parts {t : Tree} (parts : List Tree)
    (hrise : rise t.actions = (parts.map fun t => rise t.actions - 1).sum + 1)
    (hgood : (∀ part ∈ parts, part.Good) → t.Good) (h : ∀ part ∈ parts, part.IsLow) :
    t.IsLow := by
  obtain ⟨hsum, hmem⟩ := sum_le_of_mem (f := fun t => rise t.actions - 1)
    fun t ht => Int.sub_nonpos_of_le (h t ht).1
  refine ⟨by omega, fun ht => ?_⟩
  obtain ⟨part, hp, hbad⟩ : ∃ part ∈ parts, ¬ part.Good := by
    by_contra hall
    push Not at hall
    exact ht (hgood hall)
  have := hmem part hp
  have := (h part hp).2 hbad
  omega

/-- **No tree raises the stack by more than one, and only a good one by one.** -/
theorem isLow (t : Tree) (hs : t.Supported) : t.IsLow := by
  induction t with
  | block body ih =>
    by_cases hl : loud body = []
    · have hr : rise (actions (.block body)) = 0 := by
        rw [actions_block, hl]
        rfl
      rw [IsLow, hr]
      exact ⟨Int.zero_le_ofNat 1, fun _ => Int.le_refl 0⟩
    · refine IsLow.of_parts (loud body) ?_ (fun h => ?_) fun t ht => ?_
      · rw [actions_block, rise_intercalate (mt List.map_eq_nil_iff.1 hl), List.map_map]
        rfl
      · refine ⟨mt loud_eq_nil_iff.2 hl, filled_block.2 fun t ht => ?_⟩
        by_cases hq : t.isSilent
        · exact filled_of_isSilent t hq
        · exact (h t (mem_loud.2 ⟨ht, hq⟩)).2
      · have hm := (mem_loud.1 ht).1
        exact ih t hm ((all_block.1 hs).2 t hm)
  | expr value ih =>
    obtain ⟨hle, hbad⟩ := ih (all_expr.1 hs).2
    exact ⟨hle, fun h => hbad fun hg => h ⟨hg.1, filled_expr.2 hg.2⟩⟩
  | assign targets value ih =>
    obtain ⟨⟨id, rfl⟩, hv⟩ := supported_assign.1 hs
    refine IsLow.of_parts [value] ?_ (fun h => ?_) (List.forall_mem_singleton.2 (ih hv))
    · rw [actions, rise_append]
      simp [rise_cons, rise_nil, Action.pushes, Action.pops]
    · exact ⟨Bool.false_ne_true, filled_assign.2 (h value List.mem_cons_self)⟩
  | name | num =>
    refine ⟨Int.le_refl 1, fun h => absurd ⟨Bool.false_ne_true, ?_⟩ h⟩
    simp [Filled, All, nodes, operands]
  | binary left op right ihl ihr =>
    obtain ⟨hop, hl, hr⟩ := all_binary.1 hs
    refine IsLow.of_parts [left, right] ?_ (fun h => ?_) ?_
    · rw [actions, refusals_eq_nil _ hs, List.nil_append, rise_append, rise_append]
      simp [rise_cons, rise_nil, Action.pushes, Action.pops]
      omega
    · exact ⟨Bool.false_ne_true, filled_binary.2 ⟨h _ (by simp), h _ (by simp)⟩⟩
    · exact List.forall_mem_cons.2 ⟨ihl hl, List.forall_mem_singleton.2 (ihr hr)⟩
  | call callee args ihc iha =>
    obtain ⟨-, hc, ha⟩ := all_call.1 hs
    refine IsLow.of_parts (callee :: args) ?_ (fun h => ?_) ?_
    · rw [actions, refusals_eq_nil _ hc, List.nil_append, actionsOfEach_eq, rise_append,
        rise_append, rise_flatten]
      simp only [rise_cons, rise_nil, Action.pushes, Action.pops, List.map_map, List.length_map,
        List.map_cons, List.sum_cons, Function.comp_def]
      omega
    · obtain ⟨hgc, hga⟩ := List.forall_mem_cons.1 h
      exact ⟨Bool.false_ne_true, filled_call.2 ⟨hgc, hga⟩⟩
    · exact List.forall_mem_cons.2 ⟨ihc hc, fun t ht => iha t ht (ha t ht)⟩

/-! ## Units -/

/-- The actions of a unit before it returns. -/
def bodyActions (t : Tree) : List Action := if t.isSilent then [] else t.actions ++ [.drop]

theorem unitActions_eq (t : Tree) : t.unitActions = t.bodyActions ++ [.load .none, .ret] := by
  rw [unitActions, bodyActions, joined]
  split_ifs with h
  · rw [(actions_eq_nil_iff t).2 h]
    rfl
  · cases ha : t.actions with
    | nil => exact absurd ((actions_eq_nil_iff t).1 ha) h
    | cons a as => simp

theorem heightPast?_unitActions (t : Tree) (hs : t.Supported) (hf : t.Filled) :
    heightPast? t.unitActions 0 = some 0 := by
  rw [unitActions_eq, bodyActions]
  split_ifs with h
  · rfl
  · rw [heightPast?_append, heightPast?_append, heightPast?_actions t hs ⟨h, hf⟩]
    rfl

/-- **The stack check finds every silent operand.** A unit would end below the
    height at which it starts. -/
theorem heightPast?_unitActions_of_not (t : Tree) (hs : t.Supported) (hf : ¬ t.Filled) :
    heightPast? t.unitActions 0 = none := by
  have hl : ¬ t.isSilent := mt (filled_of_isSilent t) hf
  have hr := (isLow t hs).2 fun hg => hf hg.2
  cases hh : heightPast? t.unitActions 0 with
  | none => rfl
  | some last =>
    have hlast := eq_add_rise hh
    rw [unitActions_eq, bodyActions, if_neg hl, rise_append, rise_append] at hlast
    simp only [rise_cons, rise_nil, Action.pushes, Action.pops] at hlast
    omega

end Tree

/-! ## Instructions -/

theorem Does.heightAfter? {consts : Array Constant} {names : Array String} {a : Action} {i : Instr}
    (h : Does consts names a i) (height : Nat) :
    i.pops = a.pops ∧ i.heightAfter? height =
      if a.pops ≤ height then some (height - a.pops + a.pushes) else none := by
  cases h with
  | call hn =>
    subst hn
    exact ⟨rfl, rfl⟩
  | load | fetch | store | add | drop | dup | ret => exact ⟨rfl, rfl⟩

section
variable {consts : Array Constant} {names : Array String} {as : List Action} {is : List Instr}
  (h : List.Forall₂ (Does consts names) as is)
include h

/-- Instructions that find enough values pass the stack check. -/
theorem maxDepth_of_heightPast? {height last : Nat} (hlast : heightPast? as height = some last)
    (place deepest : Nat) :
    (∃ depth, Instr.maxDepthFrom place height deepest is = .ok depth) ∧
      Instr.finalHeightFrom place height is = .ok last := by
  induction h generalizing height place deepest with
  | nil =>
    cases hlast
    exact ⟨⟨deepest, rfl⟩, rfl⟩
  | cons hai _ ih =>
    rw [heightPast?] at hlast
    obtain ⟨-, hi⟩ := hai.heightAfter? height
    split_ifs at hlast with hp
    rw [if_pos hp] at hi
    rw [Instr.maxDepthFrom, Instr.finalHeightFrom, hi]
    exact ih hlast _ _

/-- The stack check of instructions fails at the first that finds too few
    values. -/
theorem maxDepth_of_underflow {height : Nat} (hnone : heightPast? as height = none)
    (place deepest : Nat) :
    ∃ before a had i, FallsShortFrom height as before a had ∧ Does consts names a i ∧
      Instr.maxDepthFrom place height deepest is =
        .error (.shortBy (place + before.length) i a.pops had) := by
  induction h generalizing height place deepest with
  | nil => cases hnone
  | @cons a i as is hai _ ih =>
    rw [heightPast?] at hnone
    obtain ⟨hpops, hi⟩ := hai.heightAfter? height
    rw [Instr.maxDepthFrom, hi]
    split_ifs at hnone with hp
    · obtain ⟨before, b, had, j, ⟨⟨after, rfl⟩, hbefore, hlt⟩, hdoes, herr⟩ :=
        ih hnone (place + 1) (max deepest (height - a.pops + a.pushes))
      refine ⟨a :: before, b, had, j, ⟨⟨after, rfl⟩, ?_, hlt⟩, hdoes, ?_⟩
      · rw [heightPast?, if_pos hp, hbefore]
      · rw [if_pos hp, List.length_cons, ← Nat.add_assoc, Nat.add_right_comm]
        exact herr
    · refine ⟨[], a, height, i, ⟨⟨as, rfl⟩, rfl, Nat.lt_of_not_le hp⟩, hai, ?_⟩
      rw [if_neg hp, hpops]
      rfl

end

end Stacklet
