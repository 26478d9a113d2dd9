/-
  Trees emitted one after the other into the same pools.

  Emission goes on from the pools that it finds, and what it has interned
  before an error stays interned. So pools only grow, an instruction that has
  been yielded keeps pointing at its entry, and trees emitted in turn share
  their entries as the statements of one block do.

  * `Action.emit_spec` is the step and `translate_spec` the run: pools grow,
    also where an operand does not fit, and an instruction finds its entry;
  * `emitEach`: trees in turn, some of which may fail;
  * `emitEach_spec`: what their instructions point at, and what the pools hold.
-/
import Stacklet.Proofs.Postorder

namespace Stacklet

/-! ## Pools that grow -/

namespace Pool

variable {α κ : Type} [DecidableEq κ] [Hashable κ] {key : α → κ}

/-- No two values of a pool have one key. -/
theorem nodup_keys (p : Pool key) : (p.values.toList.map key).Nodup := by
  rw [List.nodup_iff_getElem?_ne_getElem?]
  intro i j hij hj heq
  rw [List.getElem?_map, List.getElem?_map, Array.getElem?_toList, Array.getElem?_toList] at heq
  rw [List.length_map, Array.length_toList] at hj
  have hlast : p.values[j]?.map key = some (key p.values[j]) := by simp [hj]
  -- the hash map knows one place for the key
  have hplace := (p.places_iff _ _).2 hlast
  rw [(p.places_iff _ _).2 (heq.trans hlast)] at hplace
  exact hij.ne (Option.some.inj hplace)

theorem prefix_intern (p : Pool key) (a : α) :
    p.values.toList <+: (p.intern a).2.values.toList := by
  rw [values_intern_toList]
  exact prefix_addNew _ _

theorem mem_of_mem_intern {p : Pool key} {a b : α} (h : b ∈ (p.intern a).2.values.toList) :
    b ∈ p.values.toList ∨ b = a := by
  rw [values_intern_toList, addNew] at h
  split_ifs at h
  · exact Or.inl h
  · rcases List.mem_append.1 h with h | h
    · exact Or.inl h
    · exact Or.inr (List.mem_singleton.1 h)

end Pool

/-- The second pools hold what the first ones hold, at the same places. -/
structure Pools.GrowTo (first last : Pools) : Prop where
  consts : first.consts.values.toList <+: last.consts.values.toList
  names : first.names.values.toList <+: last.names.values.toList

namespace Pools.GrowTo

theorem refl (pools : Pools) : pools.GrowTo pools := ⟨List.prefix_rfl, List.prefix_rfl⟩

theorem trans {first mid last : Pools} (h : first.GrowTo mid) (h' : mid.GrowTo last) :
    first.GrowTo last :=
  ⟨h.consts.trans h'.consts, h.names.trans h'.names⟩

end Pools.GrowTo

/-! ## Entries -/

/-- What an operand points at in a pool. -/
inductive Entry where
  | constant (c : Constant)
  | name (id : String)
  deriving DecidableEq

namespace Instr

/-- The entry at which an instruction points, if it points at one. -/
def pooled? (consts : Array Constant) (names : Array String) : Instr → Option Entry
  | loadConst n => consts[n.toNat]?.map .constant
  | loadGlobal n | storeGlobal n => names[n.toNat]?.map .name
  | binaryAdd | callFunction _ | returnValue | popTop | dupTop => none

/-- The operand is a place in a pool. -/
def Points : Instr → Prop
  | loadConst _ | loadGlobal _ | storeGlobal _ => True
  | binaryAdd | callFunction _ | returnValue | popTop | dupTop => False

/-- Pools that grow keep entries. -/
theorem pooled?_mono {consts consts' : Array Constant} {names names' : Array String} {i : Instr}
    {entry : Entry} (hc : consts.toList <+: consts'.toList) (hn : names.toList <+: names'.toList)
    (h : i.pooled? consts names = some entry) : i.pooled? consts' names' = some entry := by
  cases i with
  | loadConst n =>
    obtain ⟨c, hget, rfl⟩ := Option.map_eq_some_iff.1 h
    rw [pooled?, getElem?_mono hc hget, Option.map_some]
  | loadGlobal n | storeGlobal n =>
    obtain ⟨id, hget, rfl⟩ := Option.map_eq_some_iff.1 h
    rw [pooled?, getElem?_mono hn hget, Option.map_some]
  | binaryAdd | callFunction | returnValue | popTop | dupTop => cases h

end Instr

/-- The entry at which an instruction points, in pools and in a unit. -/
def Pools.pooled? (pools : Pools) (i : Instr) : Option Entry :=
  i.pooled? pools.consts.values pools.names.values

def CodeUnit.pooled? (u : CodeUnit) (i : Instr) : Option Entry := i.pooled? u.consts u.names

/-- Instructions do what actions say, with the entries of the pools. -/
def Pools.Do (pools : Pools) (as : List Action) (is : List Instr) : Prop :=
  List.Forall₂ (Does pools.consts.values pools.names.values) as is

/-- An instruction among those that do something finds its entry. -/
theorem Pools.Do.exists_entry {pools : Pools} {as : List Action} {is : List Instr}
    (h : pools.Do as is) {i : Instr} (hi : i ∈ is) (hp : i.Points) :
    ∃ entry, pools.pooled? i = some entry := by
  induction h with
  | nil => cases hi
  | @cons a j as is haj _ ih =>
    rcases List.mem_cons.1 hi with rfl | hi
    · cases haj with
      | load h =>
        obtain ⟨c, hget, -⟩ := Option.map_eq_some_iff.1 h
        exact ⟨.constant c, by rw [Pools.pooled?, Instr.pooled?, hget, Option.map_some]⟩
      | fetch h | store h => exact ⟨_, by rw [Pools.pooled?, Instr.pooled?, h, Option.map_some]⟩
      | add | call | drop | dup | ret => exact hp.elim
    · exact ih hi

namespace Pools.GrowTo
variable {first last : Pools} (h : first.GrowTo last)
include h

theorem keeps_entry {i : Instr} {entry : Entry} (hi : first.pooled? i = some entry) :
    last.pooled? i = some entry :=
  Instr.pooled?_mono h.consts h.names hi

theorem keeps {as : List Action} {is : List Instr} (hdo : first.Do as is) : last.Do as is :=
  List.Forall₂.imp (fun _ _ hd => hd.mono h.consts h.names) hdo

end Pools.GrowTo

/-! ## One action -/

/-- An operand that fits is the number it is made from. -/
theorem operandInstr_eq_ok {op : Opcode} (hop : op.hasOperand) {n : Nat} {context : String}
    {i : Instr} (h : operandInstr op n context = .ok i) :
    ∃ v, Instr.ofParts op (some v) = .ok i ∧ v.toNat = n := by
  by_cases hn : n ≤ maxOperand
  · obtain ⟨v, j, hj, hparts, hv⟩ := operandInstr_of_le op hop hn context
    rw [hj] at h
    cases h
    exact ⟨v, hparts, hv⟩
  · rw [operandInstr_of_gt hop hn] at h
    cases h

theorem loadConst_spec (c : Constant) (pools : Pools) :
    pools.GrowTo (loadConst c pools).2 ∧ ∀ i, (loadConst c pools).1 = .ok i →
      Does (loadConst c pools).2.consts.values (loadConst c pools).2.names.values (.load c) i := by
  obtain ⟨consts, names⟩ := pools
  refine ⟨⟨consts.prefix_intern c, List.prefix_rfl⟩, fun i hi => ?_⟩
  obtain ⟨v, hparts, hv⟩ := operandInstr_eq_ok rfl hi
  cases hparts
  exact .load (by rw [hv]; exact consts.getElem?_intern c)

/-- An action on a name, by the operation it stands for. -/
theorem nameInstr_spec {op : Opcode} (hop : op.hasOperand) {a : Action} {name : String}
    (hdoes : ∀ {consts names v i}, Instr.ofParts op (some v) = .ok i →
      names[v.toNat]? = some name → Does consts names a i) (pools : Pools) :
    pools.GrowTo (nameInstr op name pools).2 ∧ ∀ i, (nameInstr op name pools).1 = .ok i →
      Does (nameInstr op name pools).2.consts.values (nameInstr op name pools).2.names.values
        a i := by
  obtain ⟨consts, names⟩ := pools
  refine ⟨⟨List.prefix_rfl, names.prefix_intern name⟩, fun i hi => ?_⟩
  obtain ⟨v, hparts, hv⟩ := operandInstr_eq_ok hop hi
  obtain ⟨b, hget, rfl⟩ := Option.map_eq_some_iff.1 (names.getElem?_intern name)
  exact hdoes hparts (by rw [hv]; exact hget)

/-- **An action lets pools grow**, whether or not it has an instruction; an
    instruction does what the action says. -/
theorem Action.emit_spec (a : Action) (pools : Pools) :
    pools.GrowTo (a.emit pools).2 ∧ ∀ i, (a.emit pools).1 = .ok i →
      Does (a.emit pools).2.consts.values (a.emit pools).2.names.values a i := by
  cases a with
  | load c => exact loadConst_spec c pools
  | fetch id =>
    refine nameInstr_spec rfl (fun hparts hget => ?_) pools
    cases hparts
    exact .fetch hget
  | store id =>
    refine nameInstr_spec rfl (fun hparts hget => ?_) pools
    cases hparts
    exact .store hget
  | call count =>
    refine ⟨.refl pools, fun i hi => ?_⟩
    obtain ⟨v, hparts, hv⟩ := operandInstr_eq_ok rfl hi
    cases hparts
    exact .call hv
  | add | drop | dup | ret =>
    refine ⟨.refl pools, fun i hi => ?_⟩
    cases hi
    constructor
  | reject e => exact ⟨.refl pools, nofun⟩

/-! ## Trees -/

/-- **Actions let pools grow**, also when they fail midway; their instructions
    do what they say. -/
theorem translate_spec (as : List Action) (pools : Pools) :
    pools.GrowTo (translate as pools).2 ∧
      ∀ is, (translate as pools).1 = .ok is → (translate as pools).2.Do as is := by
  induction as generalizing pools with
  | nil =>
    refine ⟨.refl pools, fun is his => ?_⟩
    cases his
    exact .nil
  | cons a as ih =>
    obtain ⟨hgrow, hdoes⟩ := a.emit_spec pools
    rw [translate]
    generalize a.emit pools = step at hgrow hdoes ⊢
    obtain ⟨_ | i, mid⟩ := step
    · exact ⟨hgrow, fun is his => by cases his⟩
    · obtain ⟨hgrow', hall⟩ := ih mid
      rw [emitBind_ok]
      generalize translate as mid = run at hgrow' hall ⊢
      obtain ⟨_ | is, last⟩ := run
      · exact ⟨hgrow.trans hgrow', fun is his => by cases his⟩
      · refine ⟨hgrow.trans hgrow', fun is' his => ?_⟩
        cases his
        exact .cons ((hdoes i rfl).mono hgrow'.consts hgrow'.names) (hall is rfl)

theorem emit_spec (t : Tree) (pools : Pools) :
    pools.GrowTo (emit t pools).2 ∧
      ∀ is, (emit t pools).1 = .ok is → (emit t pools).2.Do t.actions is := by
  rw [emit_eq]
  exact translate_spec t.actions pools

/-! ## No literal is `None` -/

/-- Only literals are loaded for a tree. -/
theorem Tree.load_mem_actions {t : Tree} {c : Constant} (h : .load c ∈ t.actions) :
    ∃ n, c = .ofNumber n := by
  have hrefusals (t : Tree) : .load c ∉ t.refusals := by simp [refusals]
  induction t with
  | block body ih =>
    rw [actions, actionsOfEach_eq, mem_joined _ (by simp)] at h
    obtain ⟨as, has, hmem⟩ := h
    obtain ⟨t, ht, rfl⟩ := List.mem_map.1 has
    exact ih t ht hmem
  | expr value ih => exact ih h
  | assign targets value ih =>
    by_cases hname : ∃ id, targets = [.name id]
    · obtain ⟨id, rfl⟩ := hname
      exact ih (by simpa [actions] using h)
    · simp [actions_assign_unsupported hname] at h
  | name id => simp [actions] at h
  | num n => exact ⟨n, by simpa [actions] using h⟩
  | binary left op right ihl ihr =>
    have h : .load c ∈ left.actions ∨ .load c ∈ right.actions := by
      simpa [actions, hrefusals] using h
    exact h.elim ihl ihr
  | call callee args ihc iha =>
    have h : .load c ∈ callee.actions ∨ ∃ t ∈ args, .load c ∈ t.actions := by
      simpa [actions, hrefusals] using h
    rcases h with h | ⟨t, ht, h⟩
    · exact ihc h
    · exact iha t ht h

/-- What is interned is loaded by some action. -/
theorem mem_of_mem_translate {as : List Action} {pools : Pools} {c : Constant}
    (h : c ∈ (translate as pools).2.consts.values.toList) :
    c ∈ pools.consts.values.toList ∨ .load c ∈ as := by
  induction as generalizing pools with
  | nil => exact Or.inl h
  | cons a as ih =>
    have hstep : c ∈ (a.emit pools).2.consts.values.toList →
        c ∈ pools.consts.values.toList ∨ .load c ∈ a :: as := by
      cases a with
      | load d =>
        intro hc
        rcases Pool.mem_of_mem_intern hc with hc | rfl
        · exact Or.inl hc
        · exact Or.inr List.mem_cons_self
      | fetch | store | add | call | drop | dup | ret | reject => exact Or.inl
    rw [translate] at h
    generalize a.emit pools = step at hstep h
    obtain ⟨_ | i, mid⟩ := step
    · exact hstep h
    · have hrest : (emitMap (i :: ·) (translate as mid)).2 = (translate as mid).2 := by
        rcases translate as mid with ⟨_ | _, _⟩ <;> rfl
      rw [emitBind_ok, hrest] at h
      rcases ih h with h | h
      · exact hstep h
      · exact Or.inr (List.mem_cons_of_mem a h)

theorem none_notMem_emit (t : Tree) {pools : Pools}
    (h : .none ∉ pools.consts.values.toList) :
    .none ∉ (emit t pools).2.consts.values.toList := by
  rw [emit_eq]
  intro hmem
  rcases mem_of_mem_translate hmem with hmem | hmem
  · exact h hmem
  · obtain ⟨n, hn⟩ := Tree.load_mem_actions hmem
    cases n <;> cases hn

/-! ## Trees in turn -/

/-- What trees yield that are emitted one after the other, and the pools behind
    the last one. A tree without instructions does not stop those after it. -/
def emitEach : List Tree → Pools → List (Except CompileError (List Instr)) × Pools
  | [], pools => ([], pools)
  | t :: ts, pools =>
    match emit t pools with
    | (r, pools) =>
      match emitEach ts pools with
      | (rs, pools) => (r :: rs, pools)

/-- The pools behind trees that are emitted in turn, from empty ones. -/
def poolsBehind (ts : List Tree) : Pools := (emitEach ts .empty).2

theorem emitEach_append (ts us : List Tree) (pools : Pools) :
    (emitEach (ts ++ us) pools).2 = (emitEach us (emitEach ts pools).2).2 := by
  induction ts generalizing pools with
  | nil => rfl
  | cons t ts ih => exact ih _

theorem emitEach_grow (ts : List Tree) (pools : Pools) : pools.GrowTo (emitEach ts pools).2 := by
  induction ts generalizing pools with
  | nil => exact .refl pools
  | cons t ts ih => exact (emit_spec t pools).1.trans (ih _)

theorem none_notMem_emitEach (ts : List Tree) {pools : Pools}
    (h : .none ∉ pools.consts.values.toList) :
    .none ∉ (emitEach ts pools).2.consts.values.toList := by
  induction ts generalizing pools with
  | nil => exact h
  | cons t ts ih => exact ih (none_notMem_emit t h)

/-- What a tree yields is emitted from the pools behind those before it. -/
theorem getElem?_emitEach (ts : List Tree) (pools : Pools) (k : Nat) :
    (emitEach ts pools).1[k]? =
      ts[k]?.map fun t => (emit t (emitEach (ts.take k) pools).2).1 := by
  induction ts generalizing pools k with
  | nil => rfl
  | cons t ts ih =>
    cases k with
    | zero => rfl
    | succ k => exact ih _ k

/-- Trees that all have instructions are emitted as the statements of a block
    are. -/
theorem translateEach_of_emitEach {ts : List Tree} {codes : List (List Instr)} {pools : Pools}
    (h : (emitEach ts pools).1 = codes.map .ok) :
    translateEach (ts.map Tree.actions) pools = (.ok codes, (emitEach ts pools).2) := by
  induction ts generalizing codes pools with
  | nil =>
    obtain rfl := List.map_eq_nil_iff.1 h.symm
    rfl
  | cons t ts ih =>
    cases codes with
    | nil => cases h
    | cons code codes =>
      obtain ⟨hcode, hcodes⟩ := List.cons.inj h
      have hrest := ih hcodes
      rw [List.map_cons, translateEach, ← emit_eq]
      rw [emitEach]
      generalize emit t pools = step at hcode hrest ⊢
      obtain ⟨r, mid⟩ := step
      obtain rfl : r = .ok code := hcode
      rw [emitBind_ok, hrest, emitMap_ok]

theorem growTo_poolsBehind (ts : List Tree) {m n : Nat} (hmn : m ≤ n) :
    (poolsBehind (ts.take m)).GrowTo (poolsBehind (ts.take n)) := by
  obtain ⟨more, hmore⟩ := List.take_prefix_take_left hmn (l := ts)
  rw [← hmore, poolsBehind, poolsBehind, emitEach_append]
  exact emitEach_grow more _

/-- A call that yields instructions yields those of its tree, which keep doing
    what the tree says. -/
theorem do_poolsBehind {ts : List Tree} {k : Nat} {is : List Instr}
    (h : (emitEach ts .empty).1[k]? = some (.ok is)) :
    ∃ t, ts[k]? = some t ∧ (poolsBehind (ts.take (k + 1))).Do t.actions is := by
  rw [getElem?_emitEach] at h
  obtain ⟨t, ht, hcode⟩ := Option.map_eq_some_iff.1 h
  refine ⟨t, ht, ?_⟩
  rw [List.take_add_one, ht, Option.toList_some, poolsBehind, emitEach_append]
  exact (emit_spec t _).2 is hcode

namespace CodeUnit

/-- A unit that is finished from pools holds what these hold, and `None` behind
    all other constants. -/
theorem finish_spec {t : Numbering} {options : UnitOptions} {tree : Tree} {pools : Pools}
    {u : CodeUnit} (h : finish t options tree pools = .ok u)
    (hnone : .none ∉ pools.consts.values.toList) :
    ∃ last : Pools, pools.GrowTo last ∧ u.consts = last.consts.values ∧
      u.names = last.names.values ∧
      ∃ init, u.consts.toList = init ++ [.none] ∧ .none ∉ init := by
  have hbody := (emit_spec tree pools).1
  have hnone := none_notMem_emit tree hnone
  rw [finish, instructionsOf] at h
  generalize emit tree pools = body at h hbody hnone
  obtain ⟨_ | body, mid⟩ := body
  · cases h
  have hload := (loadConst_spec .none mid).1
  have hlast : (loadConst .none mid).2.consts.values.toList =
      mid.consts.values.toList ++ [.none] := by
    obtain ⟨consts, names⟩ := mid
    refine (consts.values_intern_toList .none).trans (if_neg fun hkey => hnone ?_)
    obtain ⟨c, hc, hk⟩ := List.mem_map.1 hkey
    cases c with
    | none => exact hc
    | int | float => cases hk
  simp only at h
  generalize loadConst .none mid = load at h hload hlast
  obtain ⟨_ | load, last⟩ := load
  · cases h
  · simp only at h
    split at h
    · cases h
    · cases h
      exact ⟨last, hbody.trans hload, rfl, rfl, _, hlast, hnone⟩

end CodeUnit

/-- **Trees emitted in turn.** Whichever of them fail, an instruction that was
    yielded points at one entry behind every later tree and in the unit that is
    finished from the pools; pools only grow at their end, without repeats; and
    `None` is the last constant of the unit. If no tree fails, their codes in
    sequence and the pools are those of one block. -/
theorem emitEach_spec (ts : List Tree) :
    (∀ k is, (emitEach ts .empty).1[k]? = some (.ok is) →
      (∃ t, ts[k]? = some t ∧ ∀ n, k < n → (poolsBehind (ts.take n)).Do t.actions is) ∧
      ∀ i ∈ is, i.Points → ∃ entry,
        (∀ n, k < n → (poolsBehind (ts.take n)).pooled? i = some entry) ∧
        ∀ t options last u, CodeUnit.finish t options last (poolsBehind ts) = .ok u →
          u.pooled? i = some entry) ∧
    (∀ m n, m ≤ n → (poolsBehind (ts.take m)).GrowTo (poolsBehind (ts.take n))) ∧
    ((poolsBehind ts).consts.values.toList.map Constant.key).Nodup ∧
    (poolsBehind ts).names.values.toList.Nodup ∧
    (∀ t options last u, CodeUnit.finish t options last (poolsBehind ts) = .ok u →
      (poolsBehind ts).consts.values.toList <+: u.consts.toList ∧
      (poolsBehind ts).names.values.toList <+: u.names.toList ∧
      (u.consts.toList.map Constant.key).Nodup ∧ u.names.toList.Nodup ∧
      ∃ init, u.consts.toList = init ++ [.none] ∧ .none ∉ init) ∧
    ∀ codes, (emitEach ts .empty).1 = codes.map .ok →
      emit (.block ts) .empty = (.ok (sequence codes), poolsBehind ts) := by
  have hnone : .none ∉ (poolsBehind ts).consts.values.toList :=
    none_notMem_emitEach ts List.not_mem_nil
  have hnames (p : Pool (id : String → String)) : p.values.toList.Nodup :=
    List.map_id p.values.toList ▸ p.nodup_keys
  refine ⟨fun k is hcode => ?_, fun m n => growTo_poolsBehind ts, Pool.nodup_keys _, hnames _,
    fun t options last u hu => ?_, fun codes hcodes => ?_⟩
  · obtain ⟨t, ht, hdo⟩ := do_poolsBehind hcode
    have hgrow (n : Nat) (hn : k < n) := growTo_poolsBehind ts hn
    refine ⟨⟨t, ht, fun n hn => (hgrow n hn).keeps hdo⟩, fun i hi hp => ?_⟩
    obtain ⟨entry, hentry⟩ := hdo.exists_entry hi hp
    refine ⟨entry, fun n hn => (hgrow n hn).keeps_entry hentry, fun t options last u hu => ?_⟩
    -- the unit is finished behind all trees, and this one is among them
    obtain ⟨hk, -⟩ := List.getElem?_eq_some_iff.1 ht
    have hall := (hgrow ts.length hk).keeps_entry hentry
    rw [List.take_length] at hall
    obtain ⟨pools, hlast, hconsts, hnames, -⟩ := CodeUnit.finish_spec hu hnone
    rw [CodeUnit.pooled?, hconsts, hnames]
    exact hlast.keeps_entry hall
  · obtain ⟨pools, hgrow, hconsts, hnames', hlast⟩ := CodeUnit.finish_spec hu hnone
    rw [hconsts] at hlast
    rw [hconsts, hnames']
    exact ⟨hgrow.consts, hgrow.names, pools.consts.nodup_keys, hnames _, hlast⟩
  · rw [emit_eq, Tree.actions, Tree.actionsOfEach_eq, translate_joined,
      translateEach_of_emitEach hcodes, emitMap_ok, poolsBehind]

end Stacklet
