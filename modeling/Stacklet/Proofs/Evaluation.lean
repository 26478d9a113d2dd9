/-
  Trees evaluated directly.

  `Tree.eval` goes through a tree and does at once what it says: operands from
  left to right, a callee before its arguments, a value before it is bound,
  statements one by one up to the first error. There are no instructions, no
  pools and no stack. A tree that says nothing that can be done is `stuck`.

  * `eval_of_isSilent`, `eval_ne_none`: silent trees yield nothing, and all
    others a value or an error;
  * `eval_congr`: only the literals of a tree are given values.
-/
import Stacklet.Proofs.Machine

namespace Stacklet

/-- What persists on a host from unit to unit. -/
structure Memory where
  globals : Std.HashMap String Value
  sink : Sink

/-- What a computation ends with, and what it leaves. -/
abbrev Ending (α : Type) : Type := Except Halt α × Memory

namespace Ending
variable {α β γ : Type}

/-- Goes on from a result, but not from an error. -/
def andThen (r : Ending α) (f : α → Memory → Ending β) : Ending β :=
  match r with
  | (.ok a, m) => f a m
  | (.error h, m) => (.error h, m)

/-- A computation that yields a value. -/
def yielding (r : Ending Value) : Ending (Option Value) := r.andThen fun v m => (.ok (some v), m)

/-- The value of an operand, which must have one. -/
def needed (r : Ending (Option Value)) : Ending Value :=
  r.andThen fun v m =>
    match v with
    | some v => (.ok v, m)
    | none => (.error .stuck, m)

/-- The outcome of an operation that leaves everything as it was. -/
def of (r : Except RuntimeError Value) (m : Memory) : Ending Value := (r.mapError .error, m)

theorem andThen_assoc (r : Ending α) (f : α → Memory → Ending β) (g : β → Memory → Ending γ) :
    (r.andThen f).andThen g = r.andThen fun a m => (f a m).andThen g := by
  rcases r with ⟨_ | _, _⟩ <;> rfl

theorem andThen_eq_ok {r : Ending α} {f : α → Memory → Ending β} {b : β} {m' : Memory} :
    r.andThen f = (.ok b, m') ↔ ∃ a m, r = (.ok a, m) ∧ f a m = (.ok b, m') := by
  constructor
  · intro h
    rcases r with ⟨_ | a, m⟩
    · cases h
    · exact ⟨a, m, rfl, h⟩
  · rintro ⟨a, m, rfl, h⟩
    exact h

@[simp] theorem needed_yielding (r : Ending Value) : r.yielding.needed = r := by
  rcases r with ⟨_ | _, _⟩ <;> rfl

theorem yielding_ne_none (r : Ending Value) : r.yielding.1 ≠ .ok none := by
  rcases r with ⟨_ | _, _⟩ <;> simp [yielding, andThen]

end Ending

/-- Calls a value in memory. -/
def callIn (callee : Value) (args : List Value) (m : Memory) : Ending Value :=
  match call callee args m.sink with
  | (r, sink) => .of r ⟨m.globals, sink⟩

namespace Tree
variable (value : Constant → Value)

mutual

/-- Evaluates a tree; literals are given their values by a function. -/
def eval : Tree → Memory → Ending (Option Value)
  | .num n, m => (.ok (some (value (.ofNumber n))), m)
  | .name id, m => (Ending.of (lookUp m.globals id) m).yielding
  | .expr t, m => eval t m
  | .block body, m => evalBody body none m
  | .assign [.name id] t, m =>
    ((eval t m).needed.andThen fun v m => (.ok v, ⟨m.globals.insert id v, m.sink⟩)).yielding
  | .binary left .add right, m =>
    ((eval left m).needed.andThen fun a m =>
      (eval right m).needed.andThen fun b m => .of (a.add b) m).yielding
  | .call callee args, m =>
    ((eval callee m).needed.andThen fun f m =>
      (evalArgs args m).andThen fun vs m => callIn f vs m).yielding
  | .assign _ _, m | .binary _ _ _, m => (.error .stuck, m)

/-- Statements in order, with the last value, or `last` if they have none. -/
def evalBody : List Tree → Option Value → Memory → Ending (Option Value)
  | [], last, m => (.ok last, m)
  | t :: ts, last, m => (eval t m).andThen fun v m => evalBody ts (v.or last) m

/-- Arguments from left to right. -/
def evalArgs : List Tree → Memory → Ending (List Value)
  | [], m => (.ok [], m)
  | t :: ts, m =>
    (eval t m).needed.andThen fun v m => (evalArgs ts m).andThen fun vs m => (.ok (v :: vs), m)

end

/-- A unit ends with `None` if its tree is evaluated without error. -/
def evalUnit (t : Tree) (m : Memory) : Ending Value :=
  (t.eval value m).andThen fun _ m => (.ok .none, m)

variable {value}

/-! ## Trees without a value -/

theorem eval_of_isSilent (t : Tree) (h : t.isSilent) (m : Memory) :
    t.eval value m = (.ok none, m) := by
  induction t generalizing m with
  | block body ih =>
    rw [isSilent, areSilent_eq, List.all_eq_true] at h
    rw [eval]
    induction body with
    | nil => rfl
    | cons t ts ihts =>
      obtain ⟨ht, hts⟩ := List.forall_mem_cons.1 h
      obtain ⟨iht, ihrest⟩ := List.forall_mem_cons.1 ih
      rw [evalBody, iht ht]
      exact ihts ihrest hts
  | expr t ih => exact ih h m
  | assign | name | num | binary | call => cases h

/-- Silent statements do not matter. -/
theorem evalBody_loud (body : List Tree) (last : Option Value) (m : Memory) :
    evalBody value (loud body) last m = evalBody value body last m := by
  induction body generalizing last m with
  | nil => rfl
  | cons t ts ih =>
    by_cases ht : t.isSilent
    · have hl : loud (t :: ts) = loud ts := List.filter_cons_of_neg (by simp [ht])
      rw [hl, ih, evalBody, eval_of_isSilent t ht]
      rfl
    · have hl : loud (t :: ts) = t :: loud ts := List.filter_cons_of_pos (by simp [ht])
      rw [hl, evalBody, evalBody]
      exact congrArg _ (funext fun v => funext fun m => ih _ _)

theorem evalBody_some_ne_none (body : List Tree) (v : Value) (m : Memory) :
    (evalBody value body (some v) m).1 ≠ .ok none := by
  induction body generalizing v m with
  | nil => simp [evalBody]
  | cons t ts ih =>
    rw [evalBody]
    rcases t.eval value m with ⟨_ | w, mid⟩
    · simp [Ending.andThen]
    · cases w with
      | none => exact ih v mid
      | some w => exact ih w mid

/-- All other trees yield a value or an error. -/
theorem eval_ne_none (t : Tree) (h : ¬ t.isSilent) (m : Memory) :
    (t.eval value m).1 ≠ .ok none := by
  induction t generalizing m with
  | block body ih =>
    rw [eval, ← evalBody_loud]
    cases hl : loud body with
    | nil => exact absurd (loud_eq_nil_iff.1 hl) h
    | cons t ts =>
      obtain ⟨hm, ht⟩ := mem_loud.1 (hl ▸ List.mem_cons_self : t ∈ loud body)
      have hne := ih t hm ht m
      rw [evalBody]
      rcases hr : t.eval value m with ⟨_ | v, mid⟩
      · simp [Ending.andThen]
      · cases v with
        | none => exact absurd (congrArg Prod.fst hr) hne
        | some v => exact evalBody_some_ne_none ts v mid
  | expr t ih => exact ih h m
  | assign targets t =>
    rcases targets with _ | ⟨⟨id⟩ | _ | _, _ | _⟩
    case cons.name.nil => exact Ending.yielding_ne_none _
    all_goals simp [eval]
  | name id => exact Ending.yielding_ne_none _
  | num n => simp [eval]
  | binary left op right =>
    cases op with
    | add => exact Ending.yielding_ne_none _
    | sub | mul | div | mod => simp [eval]
  | call callee args => exact Ending.yielding_ne_none _

/-- As many values as arguments. -/
theorem length_evalArgs {args : List Tree} {m m' : Memory} {vs : List Value}
    (h : evalArgs value args m = (.ok vs, m')) : vs.length = args.length := by
  induction args generalizing m vs with
  | nil =>
    cases h
    rfl
  | cons t args ih =>
    obtain ⟨v, mid, -, h⟩ := Ending.andThen_eq_ok.1 h
    obtain ⟨ws, last, hws, h⟩ := Ending.andThen_eq_ok.1 h
    cases h
    rw [List.length_cons, List.length_cons, ih hws]

/-! ## Values of literals -/

variable {value' : Constant → Value}

theorem evalBody_congr {body : List Tree} (h : ∀ t ∈ body, t.eval value = t.eval value')
    (last : Option Value) (m : Memory) :
    evalBody value body last m = evalBody value' body last m := by
  induction body generalizing last m with
  | nil => rfl
  | cons t ts ih =>
    obtain ⟨ht, hts⟩ := List.forall_mem_cons.1 h
    rw [evalBody, evalBody, ht]
    exact congrArg _ (funext fun v => funext fun m => ih hts _ _)

theorem evalArgs_congr {args : List Tree} (h : ∀ t ∈ args, t.eval value = t.eval value')
    (m : Memory) : evalArgs value args m = evalArgs value' args m := by
  induction args generalizing m with
  | nil => rfl
  | cons t ts ih =>
    obtain ⟨ht, hts⟩ := List.forall_mem_cons.1 h
    have hrest : evalArgs value ts = evalArgs value' ts := funext (ih hts)
    rw [evalArgs, evalArgs, ht, hrest]

/-- Only the literals of a tree matter. -/
theorem eval_congr (t : Tree) (h : ∀ c ∈ t.literals, value c = value' c) :
    t.eval value = t.eval value' := by
  replace h : t.All fun node => ∀ c, node.literal? = some c → value c = value' c :=
    fun node hn c hc => h c (List.mem_filterMap.2 ⟨node, hn, hc⟩)
  induction t with
  | block body ih =>
    funext m
    rw [eval, eval]
    exact evalBody_congr (fun t ht => ih t ht ((all_block.1 h).2 t ht)) none m
  | expr t ih => exact ih (all_expr.1 h).2
  | assign targets t ih =>
    have ht := ih (all_assign.1 h).2
    funext m
    rcases targets with _ | ⟨⟨id⟩ | _ | _, _ | _⟩
    case cons.name.nil => rw [eval, eval, ht]
    all_goals simp [eval]
  | name id => rfl
  | num n =>
    have hn := h (.num n) (by simp [nodes]) _ rfl
    funext m
    rw [eval, eval, hn]
  | binary left op right ihl ihr =>
    obtain ⟨-, hl, hr⟩ := all_binary.1 h
    funext m
    cases op with
    | add => rw [eval, eval, ihl hl, ihr hr]
    | sub | mul | div | mod => simp [eval]
  | call callee args ihc iha =>
    obtain ⟨-, hc, ha⟩ := all_call.1 h
    have hargs : evalArgs value args = evalArgs value' args :=
      funext (evalArgs_congr fun t ht => iha t ht (ha t ht))
    funext m
    rw [eval, eval, ihc hc, hargs]

end Tree

end Stacklet
