/-
  How deep emission goes.

  A tree is emitted by emissions inside one another. One emission goes along the
  whole left spine of an operation or a call, and only what hangs off the spine
  takes another; so chains of any length add nothing, and what is left to count
  are parentheses, which the grammar bounds.

  * `Tree.emitDepth`: how many emissions there are inside one another, and
    `spine_depth`: that those along a spine are one;
  * `emitWithin`: emission with a bound on that number, which is emission if the
    bound is large enough (`emitWithin_eq`), and only then
    (`emitDepth_le_of_emitWithin`);
  * `spineDepth_expression`: what an expression of the grammar adds;
  * `emitDepth_ofTokens`: trees of token sequences.
-/
import Stacklet.Proofs.Emission
import Stacklet.Proofs.Parsing

namespace Stacklet

/-! ## Depth -/

mutual

/-- How many emissions there are inside one another for a tree, its own
    included. -/
def Tree.emitDepth : Tree → Nat
  | .num _ | .name _ => 1
  | .expr value => 1 + value.emitDepth
  | .assign _ value => 1 + value.emitDepth
  | .block body => 1 + Tree.emitDepthOfEach body
  | .binary left _ right => 1 + max left.spineDepth right.emitDepth
  | .call callee args => 1 + max callee.spineDepth (Tree.emitDepthOfEach args)

/-- The same for a tree whose spine is emitted by an emission around it. -/
def Tree.spineDepth : Tree → Nat
  | .num _ | .name _ => 1
  | .expr value => 1 + value.emitDepth
  | .assign _ value => 1 + value.emitDepth
  | .block body => 1 + Tree.emitDepthOfEach body
  | .binary left _ right => max left.spineDepth right.emitDepth
  | .call callee args => max callee.spineDepth (Tree.emitDepthOfEach args)

/-- The largest of several trees, or zero. -/
def Tree.emitDepthOfEach : List Tree → Nat
  | [] => 0
  | t :: ts => max t.emitDepth (Tree.emitDepthOfEach ts)

end

namespace Tree

theorem emitDepthOfEach_le_iff {ts : List Tree} {n : Nat} :
    emitDepthOfEach ts ≤ n ↔ ∀ t ∈ ts, t.emitDepth ≤ n := by
  induction ts with
  | nil => simp [emitDepthOfEach]
  | cons t ts ih => rw [emitDepthOfEach, Nat.max_le, ih, List.forall_mem_cons]

/-- An emission that goes along a spine is one more than what it emits. -/
theorem emitDepth_le_spineDepth (t : Tree) : t.emitDepth ≤ t.spineDepth + 1 := by
  cases t
  all_goals
    rw [emitDepth, spineDepth]
    omega

end Tree

/-- The largest tree that hangs off a spine, or zero. -/
def hooksDepth : List Hook → Nat
  | [] => 0
  | hook :: hooks => max (Tree.emitDepthOfEach hook.trees) (hooksDepth hooks)

theorem hooksDepth_le_iff {hooks : List Hook} {n : Nat} :
    hooksDepth hooks ≤ n ↔ ∀ hook ∈ hooks, ∀ t ∈ hook.trees, t.emitDepth ≤ n := by
  induction hooks with
  | nil => simp [hooksDepth]
  | cons hook hooks ih =>
    rw [hooksDepth, Nat.max_le, ih, Tree.emitDepthOfEach_le_iff, List.forall_mem_cons]

/-- **Left operands and callees add nothing**: what an emission along a spine
    emits is the leaf and what hangs off the spine. -/
theorem spine_depth {t leaf : Tree} {hooks rest : List Hook}
    (h : spine t hooks = .ok (leaf, rest)) :
    max leaf.emitDepth (hooksDepth rest) = max t.spineDepth (hooksDepth hooks) := by
  fun_induction spine t hooks with
  | case1 hooks left right ih =>
    rw [ih h, hooksDepth, Hook.trees, Tree.emitDepthOfEach, Tree.emitDepthOfEach, Tree.spineDepth]
    omega
  | case2 => cases h
  | case3 hooks callee args ih =>
    rw [ih h, hooksDepth, Hook.trees, Tree.spineDepth]
    omega
  | case4 hooks t hbinary hcall =>
    cases h
    cases leaf with
    | binary left op right => exact absurd rfl (hbinary left op right)
    | call callee args => exact absurd rfl (hcall callee args)
    | _ => rfl

/-! ## Emission with a bound -/

/-- An emission that may have no result. -/
abbrev Nested (α : Type) : Type := ExceptT CompileError (StateT Pools Option) α

namespace Nested
variable {α β : Type}

def of (f : Pools → Except CompileError α × Pools) : Nested α := fun pools => some (f pools)

def ofExcept (r : Except CompileError α) : Nested α := fun pools => some (r, pools)

/-- There are pools with which an emission yields a value. -/
def Succeeds (f : Nested α) : Prop := ∃ pools a pools', f pools = some (.ok a, pools')

/-- An emission that has a result, and then another. -/
theorem of_bind_eq {k : Pools → Except CompileError α × Pools} {g : α → Nested β} {pools : Pools}
    {r : Except CompileError β × Pools}
    (herror : ∀ e mid, k pools = (.error e, mid) → r = (.error e, mid))
    (hok : ∀ a mid, k pools = (.ok a, mid) → g a mid = some r) :
    (of k >>= g) pools = some r := by
  have hbind : (of k >>= g) pools = ExceptT.bindCont g (k pools).1 (k pools).2 := rfl
  rw [hbind]
  rcases hk : k pools with ⟨e | a, mid⟩
  · rw [herror e mid hk]
    rfl
  · exact hok a mid hk

theorem ofExcept_error_bind (e : CompileError) (g : α → Nested β) (pools : Pools) :
    (ofExcept (.error e) >>= g) pools = some (.error e, pools) := rfl

theorem ofExcept_ok_bind (a : α) (g : α → Nested β) (pools : Pools) :
    (ofExcept (.ok a) >>= g) pools = g a pools := rfl

theorem succeeds_of_bind {f : Nested α} {g : α → Nested β} {pools pools' : Pools} {b : β}
    (h : (f >>= g) pools = some (.ok b, pools')) :
    f.Succeeds ∧ ∃ a mid, g a mid = some (.ok b, pools') := by
  have hbind : (f >>= g) pools = (f pools).bind fun r => ExceptT.bindCont g r.1 r.2 := rfl
  rw [hbind] at h
  rcases hf : f pools with _ | ⟨e | a, mid⟩
  · rw [hf] at h
    cases h
  · rw [hf] at h
    cases h
  · rw [hf] at h
    exact ⟨⟨pools, a, mid, hf⟩, a, mid, h⟩

end Nested

section
variable (inner : Tree → Nested (List Instr))

/-- Arguments from left to right, each emitted by `inner`. -/
def nestArgs : List Tree → Array Instr → Nested (Array Instr)
  | [], code => return code
  | arg :: args, code => do
    let more ← inner arg
    nestArgs args (code ++ more)

/-- What hangs off a spine, emitted by `inner`. -/
def nestHooks : List Hook → Array Instr → Nested (List Instr)
  | [], code => return code.toList
  | .add right :: hooks, code => do
    let more ← inner right
    nestHooks hooks ((code ++ more).push .binaryAdd)
  | .call args :: hooks, code => do
    let code ← nestArgs inner args code
    let call ← Nested.ofExcept (operandInstr .callFunction args.length Pools.callContext)
    nestHooks hooks (code.push call)

/-- The innermost tree of a spine and then its hooks, emitted by `inner`. -/
def nestSpine (t : Tree) (hooks : List Hook) : Nested (List Instr) := do
  let (leaf, hooks) ← Nested.ofExcept (spine t hooks)
  let code ← inner leaf
  nestHooks inner hooks code.toArray

/-- Statements in sequence, each emitted by `inner`. -/
def nestStatements : List Tree → Array (List Instr) → Nested (List Instr)
  | [], codes => return sequence codes.toList
  | t :: body, codes => do
    let code ← inner t
    nestStatements body (codes.push code)

/-- One emission; the emissions inside it are those of `inner`. -/
def nest : Tree → Nested (List Instr)
  | .num n => Nested.of fun pools => single (loadConst (.ofNumber n) pools)
  | .name id => Nested.of fun pools => single (nameInstr .loadGlobal id pools)
  | .expr value => inner value
  | .block body => nestStatements inner body #[]
  | .assign [.name id] value => do
    let code ← inner value
    let store ← Nested.of (nameInstr .storeGlobal id)
    return code ++ [.dupTop, store]
  | .assign targets _ => Nested.ofExcept (.error (.ofTargets targets))
  | .binary left op right =>
    if op = .add then nestSpine inner left [.add right]
    else Nested.ofExcept (.error (.unsupportedOperator op))
  | .call callee args => nestSpine inner callee [.call args]

end

/-- Emission with at most so many emissions inside one another. -/
def emitWithin : Nat → Tree → Nested (List Instr)
  | 0, _ => fun _ => none
  | n + 1, t => nest (emitWithin n) t

/-! ## Bounds that are large enough -/

section
variable {inner : Tree → Nested (List Instr)}

theorem nestArgs_eq {args : List Tree} (h : ∀ t ∈ args, inner t = Nested.of (emit t))
    (code : Array Instr) : nestArgs inner args code = Nested.of (emitArgs args code) := by
  induction args generalizing code with
  | nil =>
    funext pools
    rw [nestArgs, Nested.of, emitArgs]
    rfl
  | cons arg args ih =>
    obtain ⟨harg, hargs⟩ := List.forall_mem_cons.1 h
    funext pools
    rw [nestArgs, harg]
    refine Nested.of_bind_eq (fun e mid he => ?_) fun more mid hmore => ?_
    · rw [emitArgs, he]
    · rw [emitArgs, hmore, ih hargs]
      rfl

theorem nestStatements_eq {body : List Tree} (h : ∀ t ∈ body, inner t = Nested.of (emit t))
    (codes : Array (List Instr)) :
    nestStatements inner body codes = Nested.of (emitStatements body codes) := by
  induction body generalizing codes with
  | nil =>
    funext pools
    rw [nestStatements, Nested.of, emitStatements]
    rfl
  | cons t body ih =>
    obtain ⟨ht, hbody⟩ := List.forall_mem_cons.1 h
    funext pools
    rw [nestStatements, ht]
    refine Nested.of_bind_eq (fun e mid he => ?_) fun code mid hcode => ?_
    · rw [emitStatements, he]
    · rw [emitStatements, hcode, ih hbody]
      rfl

theorem nestHooks_eq {hooks : List Hook}
    (h : ∀ hook ∈ hooks, ∀ t ∈ hook.trees, inner t = Nested.of (emit t)) (code : Array Instr) :
    nestHooks inner hooks code = Nested.of (emitHooks hooks code) := by
  induction hooks generalizing code with
  | nil =>
    funext pools
    rw [nestHooks, Nested.of, emitHooks]
    rfl
  | cons hook hooks ih =>
    obtain ⟨hhook, hhooks⟩ := List.forall_mem_cons.1 h
    funext pools
    cases hook with
    | add right =>
      rw [nestHooks, hhook right (List.mem_singleton_self right)]
      refine Nested.of_bind_eq (fun e mid he => ?_) fun more mid hmore => ?_
      · rw [emitHooks, he]
      · rw [emitHooks, hmore, ih hhooks]
        rfl
    | call args =>
      have hargs : ∀ t ∈ args, inner t = Nested.of (emit t) := hhook
      rw [nestHooks, nestArgs_eq hargs]
      refine Nested.of_bind_eq (fun e mid he => ?_) fun code mid hcode => ?_
      · rw [emitHooks, he]
      simp only [emitHooks, hcode]
      cases operandInstr .callFunction args.length Pools.callContext with
      | error e => exact Nested.ofExcept_error_bind e _ mid
      | ok call =>
        rw [Nested.ofExcept_ok_bind, ih hhooks]
        rfl

theorem nestSpine_eq {t : Tree} {hooks : List Hook}
    (h : ∀ leaf rest, spine t hooks = .ok (leaf, rest) → inner leaf = Nested.of (emit leaf) ∧
      ∀ hook ∈ rest, ∀ t ∈ hook.trees, inner t = Nested.of (emit t)) :
    nestSpine inner t hooks = Nested.of (emitSpine t hooks) := by
  funext pools
  rw [nestSpine, Nested.of, emitSpine]
  split
  · rename_i e he
    rw [he]
    rfl
  · rename_i leaf rest hrest
    obtain ⟨hleaf, hhooks⟩ := h leaf rest hrest
    rw [hrest, Nested.ofExcept_ok_bind]
    simp only [hleaf]
    refine Nested.of_bind_eq (fun e mid he => ?_) fun code mid hcode => ?_
    · rw [he]
    · rw [hcode, nestHooks_eq hhooks]
      rfl

end

/-- **Emission within a bound is emission if no tree is deeper.** -/
theorem emitWithin_eq {n : Nat} {t : Tree} (h : t.emitDepth ≤ n) :
    emitWithin n t = Nested.of (emit t) := by
  induction n generalizing t with
  | zero => cases t <;> simp [Tree.emitDepth] at h
  | succ n ih =>
    have hspine {t : Tree} {hooks : List Hook} (hd : max t.spineDepth (hooksDepth hooks) ≤ n) :
        nestSpine (emitWithin n) t hooks = Nested.of (emitSpine t hooks) := by
      refine nestSpine_eq fun leaf rest hrest => ?_
      rw [← spine_depth hrest, Nat.max_le, hooksDepth_le_iff] at hd
      exact ⟨ih hd.1, fun hook hhook t ht => ih (hd.2 hook hhook t ht)⟩
    rw [emitWithin]
    funext pools
    cases t with
    | num n => rw [nest, Nested.of, Nested.of, emit]
    | name id => rw [nest, Nested.of, Nested.of, emit]
    | expr value =>
      rw [Tree.emitDepth] at h
      rw [nest, ih (by omega), Nested.of, Nested.of, emit]
    | block body =>
      rw [Tree.emitDepth] at h
      have hbody := Tree.emitDepthOfEach_le_iff.1 (show Tree.emitDepthOfEach body ≤ n by omega)
      rw [nest, nestStatements_eq fun t ht => ih (hbody t ht), Nested.of, Nested.of, emit]
    | assign targets value =>
      rw [Tree.emitDepth] at h
      rcases targets with _ | ⟨⟨id⟩ | _ | _, _ | _⟩
      case cons.name.nil =>
        rw [nest, ih (by omega)]
        refine Nested.of_bind_eq (fun e mid he => ?_) fun code mid hcode => ?_
        · rw [emit, he]
        refine Nested.of_bind_eq (fun e last he => ?_) fun store last hstore => ?_
        · simp only [emit, hcode, he]
        · simp only [emit, hcode, hstore]
          rfl
      all_goals
        rw [nest, Nested.of, emit]
        · rfl
        all_goals simp
    | binary left op right =>
      rw [Tree.emitDepth] at h
      rw [nest, Nested.of, emit]
      split
      · rw [hspine, Nested.of]
        rw [hooksDepth, hooksDepth, Hook.trees, Tree.emitDepthOfEach, Tree.emitDepthOfEach]
        omega
      · rfl
    | call callee args =>
      rw [Tree.emitDepth] at h
      rw [nest, hspine, Nested.of, Nested.of, emit]
      rw [hooksDepth, hooksDepth, Hook.trees]
      omega

/-! ## Bounds that are too small -/

section
variable {inner : Tree → Nested (List Instr)} {code code' : Array Instr} {is : List Instr}
  {pools pools' : Pools}

theorem succeeds_of_nestArgs {args : List Tree}
    (h : nestArgs inner args code pools = some (.ok code', pools')) :
    ∀ t ∈ args, (inner t).Succeeds := by
  induction args generalizing code pools with
  | nil => exact nofun
  | cons arg args ih =>
    rw [nestArgs] at h
    obtain ⟨harg, more, mid, hargs⟩ := Nested.succeeds_of_bind h
    exact List.forall_mem_cons.2 ⟨harg, ih hargs⟩

theorem succeeds_of_nestStatements {body : List Tree} {codes : Array (List Instr)}
    (h : nestStatements inner body codes pools = some (.ok is, pools')) :
    ∀ t ∈ body, (inner t).Succeeds := by
  induction body generalizing codes pools with
  | nil => exact nofun
  | cons t body ih =>
    rw [nestStatements] at h
    obtain ⟨ht, more, mid, hbody⟩ := Nested.succeeds_of_bind h
    exact List.forall_mem_cons.2 ⟨ht, ih hbody⟩

theorem succeeds_of_nestHooks {hooks : List Hook}
    (h : nestHooks inner hooks code pools = some (.ok is, pools')) :
    ∀ hook ∈ hooks, ∀ t ∈ hook.trees, (inner t).Succeeds := by
  induction hooks generalizing code pools with
  | nil => exact nofun
  | cons hook hooks ih =>
    cases hook with
    | add right =>
      rw [nestHooks] at h
      obtain ⟨hright, more, mid, hhooks⟩ := Nested.succeeds_of_bind h
      exact List.forall_mem_cons.2 ⟨List.forall_mem_singleton.2 hright, ih hhooks⟩
    | call args =>
      rw [nestHooks] at h
      obtain ⟨⟨_, _, _, hargs⟩, more, mid, hcall⟩ := Nested.succeeds_of_bind h
      obtain ⟨-, call, last, hhooks⟩ := Nested.succeeds_of_bind hcall
      exact List.forall_mem_cons.2 ⟨succeeds_of_nestArgs hargs, ih hhooks⟩

/-- Whatever is emitted along a spine is needed. -/
theorem le_of_nestSpine {n : Nat} (hinner : ∀ t, (inner t).Succeeds → t.emitDepth ≤ n) {t : Tree}
    {hooks : List Hook} (h : nestSpine inner t hooks pools = some (.ok is, pools')) :
    max t.spineDepth (hooksDepth hooks) ≤ n := by
  rw [nestSpine] at h
  rcases hspine : spine t hooks with e | ⟨leaf, rest⟩
  · rw [hspine, Nested.ofExcept_error_bind] at h
    cases h
  · rw [hspine, Nested.ofExcept_ok_bind] at h
    obtain ⟨hleaf, code, mid, hhooks⟩ := Nested.succeeds_of_bind h
    rw [← spine_depth hspine, Nat.max_le, hooksDepth_le_iff]
    exact ⟨hinner leaf hleaf, fun hook hhook t ht =>
      hinner t (succeeds_of_nestHooks hhooks hook hhook t ht)⟩

end

/-- **Emission within a bound yields code only if no tree is deeper.** -/
theorem emitDepth_le_of_emitWithin {n : Nat} {t : Tree} (h : (emitWithin n t).Succeeds) :
    t.emitDepth ≤ n := by
  induction n generalizing t with
  | zero =>
    obtain ⟨pools, code, pools', h⟩ := h
    cases h
  | succ n ih =>
    obtain ⟨pools, code, pools', h⟩ := h
    rw [emitWithin] at h
    cases t with
    | num n | name id => exact Nat.succ_le_succ (Nat.zero_le _)
    | expr value =>
      have hvalue : value.emitDepth ≤ n := ih ⟨_, _, _, h⟩
      rw [Tree.emitDepth]
      omega
    | block body =>
      have hbody : Tree.emitDepthOfEach body ≤ n :=
        Tree.emitDepthOfEach_le_iff.2 fun t ht => ih (succeeds_of_nestStatements h t ht)
      rw [Tree.emitDepth]
      omega
    | assign targets value =>
      rcases targets with _ | ⟨⟨id⟩ | _ | _, _ | _⟩
      case cons.name.nil =>
        rw [nest] at h
        have hvalue : value.emitDepth ≤ n := ih (Nested.succeeds_of_bind h).1
        rw [Tree.emitDepth]
        omega
      all_goals
        rw [nest] at h
        · cases h
        all_goals simp
    | binary left op right =>
      rw [nest] at h
      split at h
      · have hspine := le_of_nestSpine (fun t => ih) h
        rw [hooksDepth, hooksDepth, Hook.trees, Tree.emitDepthOfEach, Tree.emitDepthOfEach] at hspine
        rw [Tree.emitDepth]
        omega
      · cases h
    | call callee args =>
      rw [nest] at h
      have hspine := le_of_nestSpine (fun t => ih) h
      rw [hooksDepth, hooksDepth, Hook.trees] at hspine
      rw [Tree.emitDepth]
      omega

/-! ## Trees of token sequences -/

open Phrase

/-- **Every pair of parentheses adds three at most**: for what stands between
    them, on the right of a product and on the right of a sum. -/
theorem spineDepth_expression (room : Nat) :
    (Phrase.expression room).Yields Anywhere fun t => t.spineDepth ≤ 3 * room := by
  induction room with
  | zero => exact nofun
  | succ room ih =>
    have hatom : (Atom (expression room)).Yields Anywhere fun t => t.spineDepth ≤ 3 * room + 1 := by
      rintro _ _ (n | x | id | hgroup) hts
      case group => exact Nat.le_succ_of_le (ih.parenthesized _ _ hgroup hts)
      all_goals
        rw [Tree.spineDepth]
        omega
    have happlication := ih.application hatom fun callee args hcallee hargs => by
      have hargs : Tree.emitDepthOfEach args ≤ 3 * room + 1 :=
        Tree.emitDepthOfEach_le_iff.2 fun arg harg =>
          arg.emitDepth_le_spineDepth.trans (Nat.succ_le_succ (hargs arg harg))
      rw [Tree.spineDepth]
      exact max_le hcallee hargs
    -- an operation is on the spine of the next one, its right operand is not
    have hchain {E : Phrase Tree} {n : Nat} (operator : Token → BinOp → Prop)
        (h : E.Yields Anywhere fun t => t.spineDepth ≤ n) :
        (Chain operator E).Yields Anywhere fun t => t.spineDepth ≤ n + 1 := by
      refine h.chain operator (fun t ht => Nat.le_succ_of_le ht) fun left op right hleft hright => ?_
      rw [Tree.spineDepth]
      exact max_le hleft (right.emitDepth_le_spineDepth.trans (Nat.succ_le_succ hright))
    exact hchain SumOperator (hchain ProductOperator happlication)

theorem emitDepth_statement :
    Statement.Yields Anywhere fun t => t.emitDepth ≤ 3 * maxNesting + 2 := by
  have hvalue {ts : List Token} {t : Tree} (h : Expression ts t) :
      t.emitDepth ≤ 3 * maxNesting + 1 :=
    t.emitDepth_le_spineDepth.trans
      (Nat.succ_le_succ (spineDepth_expression maxNesting ts t h fun _ _ => trivial))
  rintro _ _ (h | ⟨-, -, h⟩) -
  all_goals
    have := hvalue h
    rw [Tree.emitDepth]
    omega

/-- **The length of a token sequence does not deepen emission.** The emissions
    inside one another for its tree are bounded by what the grammar allows of
    nesting; a bound of that many, or of as many as the tree needs, changes
    nothing, and within less there is no code. -/
theorem emitDepth_ofTokens {tokens : List PlacedToken} {t : Tree}
    (h : Tree.ofTokens tokens = .ok t) :
    t.emitDepth ≤ 3 * maxNesting + 3 ∧
      (∀ pools, emitWithin (3 * maxNesting + 3) t pools = some (emit t pools)) ∧
      ∀ n pools, (t.emitDepth ≤ n → emitWithin n t pools = some (emit t pools)) ∧
        ∀ code pools', emitWithin n t pools = some (.ok code, pools') → t.emitDepth ≤ n := by
  obtain ⟨body, rfl, hbody⟩ :=
    emitDepth_statement.block _ _ (block_of_ofTokens h) fun _ _ => trivial
  have hdepth : Tree.emitDepth (.block body) ≤ 3 * maxNesting + 3 := by
    have hbody := Tree.emitDepthOfEach_le_iff.2 hbody
    rw [Tree.emitDepth]
    omega
  refine ⟨hdepth, fun pools => ?_, fun n pools => ⟨fun hn => ?_, fun code pools' hcode => ?_⟩⟩
  · rw [emitWithin_eq hdepth]
    rfl
  · rw [emitWithin_eq hn]
    rfl
  · exact emitDepth_le_of_emitWithin ⟨pools, code, pools', hcode⟩

/-- The tokens of `a + a + a(b + 1)`, all at one place. -/
def chainTokens : List PlacedToken :=
  [.ident "a", .plus, .ident "a", .plus, .ident "a", .openParen, .ident "b", .plus, .integer 1,
    .closeParen].map (⟨·, .start⟩)

/-- A chain is emitted as deep as its deepest operand asks for, whose argument
    stands in a call inside an operation inside a statement of the block. -/
theorem emitDepth_ofTokens_chain :
    ∃ t, Tree.ofTokens chainTokens = .ok t ∧ t.emitDepth = 6 ∧
      ∀ pools, emitWithin 6 t pools = some (emit t pools) := by
  have hread : Tree.ofTokens chainTokens = .ok (.block [.expr
      (.binary (.binary (.name "a") .add (.name "a")) .add
        (.call (.name "a") [.binary (.name "b") .add (.num (.int 1))]))]) := by
    with_unfolding_all rfl
  have hdepth := (emitDepth_ofTokens hread).2.2 6
  exact ⟨_, hread, by decide, fun pools => (hdepth pools).1 (by decide)⟩

end Stacklet
