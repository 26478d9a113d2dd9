/-
  The sessions of a run, one in front of each instruction.

  `Reaches` is a run as a step relation, and `Ends` how it comes to its end. A
  run of any unit comes to an instruction on a stack of the height that the
  stack check simulates for the instructions before it.

  * `Sink.write_ofWriter`: an output can stand for any writer;
  * `step_spec`: what one instruction does to the height, and how it can end a
    run;
  * `Reaches.exec_eq`: what is reached is part of the run;
  * `Reaches.finalHeight`: the heights;
  * `Reaches.exists_ends`: where a run ends, and with what.
-/
import Stacklet.Proofs.Machine

namespace Stacklet

/-! ## Outputs -/

namespace Sink

theorem given_write (text : String) (sink : Sink) :
    (sink.write text).2.given = text :: sink.given := by
  rw [write]
  split <;> rfl

theorem refusal?_write (text : String) (sink : Sink) :
    (sink.write text).2.refusal? = sink.refusal? := by
  rw [write]
  split <;> rfl

theorem write_fst (text : String) (sink : Sink) :
    (sink.write text).1 =
      match sink.refusal? (text :: sink.given) with
      | none => .ok ()
      | some reason => .error reason := by
  rw [write]
  split <;> simp only [*]

/-- A refused text is not printed. -/
theorem write_error {text reason : String} {sink sink' : Sink}
    (h : sink.write text = (.error reason, sink')) : sink'.printed = sink.printed := by
  rw [write] at h
  split at h
  · cases h
  · cases h
    rfl

/-- The output that has been given texts. -/
def after (texts : List String) (sink : Sink) : Sink :=
  texts.foldl (fun sink text => (sink.write text).2) sink

section
variable {σ : Type} (respond : String → σ → Option String × σ) (start : σ)

/-- The output of a writer with a state of its own: `respond` says why it
    refuses a text, if it does, and in which state it is then. -/
def ofWriter : Sink where
  printed := ""
  given := []
  refusal?
    | [] => none
    | text :: before => (respond text (before.foldr (fun text s => (respond text s).2) start)).1

theorem after_spec (texts : List String) (sink : Sink) :
    (sink.after texts).given = texts.reverse ++ sink.given ∧
      (sink.after texts).refusal? = sink.refusal? := by
  induction texts generalizing sink with
  | nil => exact ⟨rfl, rfl⟩
  | cons text texts ih =>
    obtain ⟨hgiven, hrefusal⟩ := ih (sink.write text).2
    rw [given_write] at hgiven
    rw [refusal?_write] at hrefusal
    exact ⟨hgiven.trans (by simp), hrefusal⟩

/-- **An output can stand for any writer**: behind any texts, it refuses those
    that the writer refuses, and for the same reason. -/
theorem write_ofWriter (texts : List String) (text : String) :
    (((ofWriter respond start).after texts).write text).1 =
      match (respond text (texts.foldl (fun s text => (respond text s).2) start)).1 with
      | none => .ok ()
      | some reason => .error reason := by
  obtain ⟨hgiven, hrefusal⟩ := after_spec texts (ofWriter respond start)
  rw [write_fst, hgiven, hrefusal]
  simp only [ofWriter, List.append_nil, List.foldr_reverse]

end

/-- A writer with room for one text takes that and refuses the next one. -/
example :
    let sink := ofWriter (fun _ full => (if full then some "full" else none, true)) false
    (sink.write "1\n").1 = .ok () ∧ ((sink.after ["1\n"]).write "2\n").1 = .error "full" :=
  ⟨rfl, rfl⟩

end Sink

/-- A call that fails prints nothing. -/
theorem call_error {callee : Value} {args : List Value} {sink sink' : Sink} {e : RuntimeError}
    (h : call callee args sink = (.error e, sink')) : sink'.printed = sink.printed := by
  unfold call at h
  split at h
  · split at h
    · cases h
    · rename_i hwrite
      cases h
      exact Sink.write_error hwrite
  all_goals exact (congrArg (·.2.printed) h).symm

/-! ## One instruction -/

namespace Stack

theorem height_of_pop? {s rest : Stack} {v : Value} (h : s.pop? = some (v, rest)) :
    s.height = rest.height + 1 := by
  rw [s.height_eq, rest.height_eq, pop?_eq_some_iff.1 h, List.length_cons]

theorem height_of_pop?_none {s : Stack} (h : s.pop? = none) : s.height < 1 := by
  rw [s.height_eq, pop?_eq_none_iff.1 h]
  exact Nat.zero_lt_one

theorem popMany?_of_lt {s : Stack} {count : Nat} (h : s.height < count) :
    s.popMany? count = none :=
  if_neg (Nat.not_le.2 h)

theorem height_of_popMany? {s rest : Stack} {count : Nat} {vs : List Value}
    (h : s.popMany? count = some (vs, rest)) : s.height = rest.height + count := by
  rw [popMany?] at h
  split_ifs at h with hle
  cases h
  exact (Nat.sub_add_cancel hle).symm

theorem suffix_of_popMany? {s rest : Stack} {count : Nat} {vs : List Value}
    (h : s.popMany? count = some (vs, rest)) : rest.values <:+ s.values := by
  rw [popMany?] at h
  split_ifs at h
  cases h
  exact List.drop_suffix count s.values

end Stack

/-- What an instruction that fails leaves of a session: the globals, what is
    printed, and the values that it has not popped. -/
structure Session.Kept (s s' : Session) : Prop where
  globals : s'.globals = s.globals
  printed : s'.sink.printed = s.sink.printed
  values : s'.stack.values <:+ s.stack.values

namespace Session.Kept

theorem refl (s : Session) : s.Kept s := ⟨rfl, rfl, List.suffix_rfl⟩

theorem height_le {s s' : Session} (h : s.Kept s') : s'.stack.height ≤ s.stack.height := by
  rw [s.stack.height_eq, s'.stack.height_eq]
  exact h.values.length_le

end Session.Kept

namespace Instr

theorem heightAfter?_add (i : Instr) (height : Nat) :
    i.heightAfter? (height + i.pops) = some (height + i.pushes) := by
  rw [heightAfter?, if_pos (Nat.le_add_left _ _), Nat.add_sub_cancel]

/-- With which errors an instruction at an offset can fail, on a stack of some
    height. -/
inductive FailsWith (i : Instr) (offset height : Nat) : RuntimeError → Prop
  | own {e : RuntimeError} (h : e.IsOwn) : FailsWith i offset height e
  | operand (index : Nat) (pool : PoolKind) :
    FailsWith i offset height (.badOperand index pool offset)
  | short (h : height < i.pops) : FailsWith i offset height (.stackUnderflow offset i.opcode)

theorem FailsWith.not_isLimit {i : Instr} {offset height : Nat} {e : RuntimeError}
    (h : i.FailsWith offset height e) : ¬ e.IsLimit := by
  cases h with
  | own h => exact h.not_isLimit
  | operand | short => exact not_false

end Instr

/-- **An instruction changes the height as the stack check says**, or fails and
    leaves globals and output as they were: for lack of values only if the stack
    check says that there are too few, and never because of a limit. Only a
    return ends a run with a value, and a return always ends it. -/
theorem step_spec (u : CodeUnit) (offset : Nat) (i : Instr) (s : Session) :
    match step u offset i s with
    | .next s' =>
      i ≠ .returnValue ∧ i.heightAfter? s.stack.height = some s'.stack.height
    | .done _ s' =>
      i = .returnValue ∧ i.heightAfter? s.stack.height = some s'.stack.height
    | .failed e s' => s.Kept s' ∧ i.FailsWith offset s.stack.height e := by
  obtain ⟨globals, stack, sink⟩ := s
  cases i with
  | loadConst n =>
    rw [step]
    cases u.consts[n.toNat]? with
    | none => exact ⟨.refl _, .operand _ _⟩
    | some c => exact ⟨by simp, Instr.heightAfter?_add (.loadConst n) stack.height⟩
  | loadGlobal n =>
    rw [step]
    cases u.names[n.toNat]? with
    | none => exact ⟨.refl _, .operand _ _⟩
    | some id =>
      dsimp only
      cases hl : lookUp globals id with
      | ok v => exact ⟨by simp, Instr.heightAfter?_add (.loadGlobal n) stack.height⟩
      | error e => exact ⟨.refl _, .own (isOwn_lookUp hl)⟩
  | storeGlobal n =>
    rw [step]
    cases u.names[n.toNat]? with
    | none => exact ⟨.refl _, .operand _ _⟩
    | some id =>
      cases hp : stack.pop? with
      | none => exact ⟨.refl _, .short (Stack.height_of_pop?_none hp)⟩
      | some p =>
        simp only [Stack.height_of_pop? hp]
        exact ⟨by simp, Instr.heightAfter?_add (.storeGlobal n) p.2.height⟩
  | binaryAdd =>
    rw [step]
    rcases Nat.lt_or_ge stack.height 2 with hlt | hle
    · rw [Stack.popMany?_of_lt hlt]
      exact ⟨⟨rfl, rfl, List.nil_suffix⟩, .short hlt⟩
    · obtain ⟨vs, rest, hp, hlen, -⟩ := stack.popMany?_of_le 2 hle
      obtain ⟨a, b, rfl⟩ := List.length_eq_two.1 hlen
      simp only [hp]
      cases hadd : a.add b with
      | ok v =>
        simp only [Stack.height_of_popMany? hp]
        exact ⟨by simp, Instr.heightAfter?_add .binaryAdd rest.height⟩
      | error e =>
        exact ⟨⟨rfl, rfl, Stack.suffix_of_popMany? hp⟩, .own (isOwn_add hadd)⟩
  | callFunction n =>
    rw [step]
    rcases Nat.lt_or_ge stack.height (n.toNat + 1) with hlt | hle
    · rw [Stack.popMany?_of_lt hlt]
      exact ⟨.refl _, .short hlt⟩
    · obtain ⟨vs, rest, hp, hlen, -⟩ := stack.popMany?_of_le (n.toNat + 1) hle
      obtain ⟨callee, args, rfl⟩ := List.exists_cons_of_length_eq_add_one hlen
      simp only [hp]
      rcases hcall : call callee args sink with ⟨e | v, sink'⟩
      · have hvalues := Stack.suffix_of_popMany? hp
        exact ⟨⟨rfl, call_error hcall, hvalues⟩, .own (isOwn_call hcall)⟩
      · simp only [Stack.height_of_popMany? hp]
        exact ⟨by simp, Instr.heightAfter?_add (.callFunction n) rest.height⟩
  | returnValue =>
    rw [step]
    cases hp : stack.pop? with
    | none => exact ⟨.refl _, .short (Stack.height_of_pop?_none hp)⟩
    | some p =>
      rw [Stack.height_of_pop? hp]
      exact ⟨rfl, Instr.heightAfter?_add .returnValue p.2.height⟩
  | popTop =>
    rw [step]
    cases hp : stack.pop? with
    | none => exact ⟨.refl _, .short (Stack.height_of_pop?_none hp)⟩
    | some p =>
      simp only [Stack.height_of_pop? hp]
      exact ⟨by simp, Instr.heightAfter?_add .popTop p.2.height⟩
  | dupTop =>
    rw [step]
    cases hp : stack.pop? with
    | none => exact ⟨.refl _, .short (Stack.height_of_pop?_none hp)⟩
    | some p =>
      simp only [Stack.height_of_pop? hp]
      exact ⟨by simp, Instr.heightAfter?_add .dupTop p.2.height⟩

section
variable {u : CodeUnit} {offset : Nat} {i : Instr} {s s' : Session}

theorem spec_of_next (h : step u offset i s = .next s') :
    i ≠ .returnValue ∧ i.heightAfter? s.stack.height = some s'.stack.height := by
  have hspec := step_spec u offset i s
  rwa [h] at hspec

theorem spec_of_done {v : Value} (h : step u offset i s = .done v s') :
    i = .returnValue ∧ i.heightAfter? s.stack.height = some s'.stack.height := by
  have hspec := step_spec u offset i s
  rwa [h] at hspec

theorem spec_of_failed {e : RuntimeError} (h : step u offset i s = .failed e s') :
    s.Kept s' ∧ i.FailsWith offset s.stack.height e := by
  have hspec := step_spec u offset i s
  rwa [h] at hspec

end

/-! ## Limits -/

theorem Limits.le_of_exceeded? {l : Limits} {count height : Nat}
    (h : l.exceeded? count height = none) : height ≤ l.height := by
  unfold exceeded? at h
  split at h
  · split_ifs at h with hsteps hheight
    exact Nat.le_of_not_lt hheight
  · split_ifs at h with hheight
    exact Nat.le_of_not_lt hheight

theorem Limits.lt_of_exceeded? {l : Limits} {count height limit : Nat}
    (h : l.exceeded? count height = some (.stackLimit limit)) : l.height < height := by
  unfold exceeded? at h
  split at h
  · split_ifs at h with hsteps hheight
    · cases h
    · exact hheight
  · split_ifs at h with hheight
    exact hheight

/-! ## Runs -/

section
variable (l : Limits) (u : CodeUnit) (is : List (Nat × Instr)) (first : Session)

/-- A run comes to the instruction with a number, counted from zero, in a
    session. -/
inductive Reaches : Nat → Session → Prop
  | start : Reaches 0 first
  | next {k offset : Nat} {i : Instr} {s s' : Session} (h : Reaches k s)
      (hi : is[k]? = some (offset, i)) (hlimit : l.exceeded? (k + 1) s.stack.height = none)
      (hstep : step u offset i s = .next s') : Reaches (k + 1) s'

/-- What a run ends with that has come to the instruction with a number in a
    session, and does not get behind it. -/
inductive Ends (k : Nat) (s : Session) : Except RuntimeError Value × Session → Prop
  | missing (h : is[k]? = none) : Ends k s (.error .missingReturn, s)
  | stopped {offset : Nat} {i : Instr} {e : RuntimeError} (hi : is[k]? = some (offset, i))
      (hlimit : l.exceeded? (k + 1) s.stack.height = some e) : Ends k s (.error e, s)
  | returned {offset : Nat} {i : Instr} {v : Value} {s' : Session}
      (hi : is[k]? = some (offset, i)) (hlimit : l.exceeded? (k + 1) s.stack.height = none)
      (hstep : step u offset i s = .done v s') : Ends k s (.ok v, s')
  | failed {offset : Nat} {i : Instr} {e : RuntimeError} {s' : Session}
      (hi : is[k]? = some (offset, i)) (hlimit : l.exceeded? (k + 1) s.stack.height = none)
      (hstep : step u offset i s = .failed e s') : Ends k s (.error e, s')

end

theorem drop_of_getElem? {α : Type} {as : List α} {k : Nat} {a : α} (h : as[k]? = some a) :
    as.drop k = a :: as.drop (k + 1) := by
  obtain ⟨hlt, rfl⟩ := List.getElem?_eq_some_iff.1 h
  exact List.drop_eq_getElem_cons hlt

theorem finalHeightFrom_concat {place height last next : Nat} {is : List Instr} {i : Instr}
    (h : Instr.finalHeightFrom place height is = .ok last) (hi : i.heightAfter? last = some next) :
    Instr.finalHeightFrom place height (is ++ [i]) = .ok next := by
  induction is generalizing place height with
  | nil =>
    cases h
    rw [List.nil_append, Instr.finalHeightFrom, hi]
    rfl
  | cons j is ih =>
    rw [Instr.finalHeightFrom] at h
    rw [List.cons_append, Instr.finalHeightFrom]
    cases hj : j.heightAfter? height with
    | none =>
      rw [hj] at h
      cases h
    | some height' =>
      rw [hj] at h
      exact ih h

namespace Reaches
variable {l : Limits} {u : CodeUnit} {is : List (Nat × Instr)} {first s : Session} {k : Nat}

/-- **What is reached is part of the run**: from there on, the run goes on as it
    does. -/
theorem exec_eq (h : Reaches l u is first k s) :
    exec l u k (is.drop k) s = exec l u 0 is first := by
  induction h with
  | start => rfl
  | next h hi hlimit hstep ih =>
    rw [← ih, drop_of_getElem? hi, exec, hlimit]
    simp only [hstep]

theorem earlier (h : Reaches l u is first k s) {j : Nat} (hj : j ≤ k) :
    ∃ s', Reaches l u is first j s' := by
  induction h with
  | start =>
    rw [Nat.le_zero.1 hj]
    exact ⟨first, .start⟩
  | @next k _ _ _ s' h hi hlimit hstep ih =>
    rcases Nat.le_succ_iff.1 hj with hj | rfl
    · exact ih hj
    · exact ⟨s', .next h hi hlimit hstep⟩

/-- **The heights of a run are those that the stack check simulates.** -/
theorem finalHeight (h : Reaches l u is first k s) :
    Instr.finalHeightFrom 0 first.stack.height ((is.map Prod.snd).take k) =
      .ok s.stack.height := by
  induction h with
  | start => rfl
  | @next k offset i s s' h hi hlimit hstep ih =>
    rw [List.take_add_one, List.getElem?_map, hi]
    exact finalHeightFrom_concat ih (spec_of_next hstep).2

/-- A run that returns was stopped nowhere. -/
theorem height_le (h : Reaches l u is first k s) {v : Value}
    (hok : (exec l u 0 is first).1 = .ok v) : s.stack.height ≤ l.height := by
  rw [← h.exec_eq] at hok
  cases hrest : is.drop k with
  | nil =>
    rw [hrest, exec] at hok
    cases hok
  | cons x rest =>
    obtain ⟨offset, i⟩ := x
    rw [hrest, exec] at hok
    cases hlimit : l.exceeded? (k + 1) s.stack.height with
    | none => exact Limits.le_of_exceeded? hlimit
    | some e =>
      rw [hlimit] at hok
      cases hok

/-- There is no return among the instructions before one that is reached. -/
theorem ne_returnValue (h : Reaches l u is first k s) :
    ∀ x ∈ is.take k, x.2 ≠ .returnValue := by
  induction h with
  | start => nofun
  | @next k offset i s s' h hi hlimit hstep ih =>
    intro x hx
    rw [List.take_add_one, hi] at hx
    rcases List.mem_append.1 hx with hx | hx
    · exact ih x hx
    · cases List.mem_singleton.1 hx
      exact (spec_of_next hstep).1

/-- From where a run has come to, it goes on to some last instruction. -/
theorem exists_ends_from (h : Reaches l u is first k s) :
    ∃ last s', Reaches l u is first last s' ∧ Ends l u is last s' (exec l u k (is.drop k) s) := by
  induction hrest : is.drop k generalizing k s with
  | nil => exact ⟨k, s, h, .missing (List.getElem?_eq_none (List.drop_eq_nil_iff.1 hrest))⟩
  | cons x rest ih =>
    obtain ⟨offset, i⟩ := x
    have hi : is[k]? = some (offset, i) := by
      rw [← List.head?_drop, hrest]
      rfl
    rw [exec]
    cases hlimit : l.exceeded? (k + 1) s.stack.height with
    | some e => exact ⟨k, s, h, .stopped hi hlimit⟩
    | none =>
      simp only
      cases hstep : step u offset i s with
      | next s' =>
        rw [drop_of_getElem? hi] at hrest
        exact ih (.next h hi hlimit hstep) (List.cons.inj hrest).2
      | done v s' => exact ⟨k, s, h, .returned hi hlimit hstep⟩
      | failed e s' => exact ⟨k, s, h, .failed hi hlimit hstep⟩

/-- **A run ends in front of some instruction.** -/
theorem exists_ends (l : Limits) (u : CodeUnit) (is : List (Nat × Instr)) (first : Session) :
    ∃ last s, Reaches l u is first last s ∧ Ends l u is last s (exec l u 0 is first) :=
  exists_ends_from .start

/-- A run ends with a value if it ends in front of a return, and with the error
    of a limit if the limit is exceeded there. -/
theorem exists_last (l : Limits) (u : CodeUnit) (is : List (Nat × Instr)) (first : Session) :
    ∃ last s, Reaches l u is first last s ∧
      match (exec l u 0 is first).1 with
      | .ok _ => ∃ offset, is[last]? = some (offset, .returnValue)
      | .error e => l.exceeded? (last + 1) s.stack.height = some e ∨ ¬ e.IsLimit := by
  obtain ⟨last, s, hlast, hends⟩ := exists_ends l u is first
  refine ⟨last, s, hlast, ?_⟩
  generalize exec l u 0 is first = ending at hends
  cases hends with
  | missing => exact Or.inr not_false
  | stopped hi hlimit => exact Or.inl hlimit
  | @returned offset i v s' hi hlimit hstep => exact ⟨offset, (spec_of_done hstep).1 ▸ hi⟩
  | failed hi hlimit hstep => exact Or.inr (spec_of_failed hstep).2.not_isLimit

end Reaches

end Stacklet
