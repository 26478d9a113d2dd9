/-
  The host: runs code units against a stack, globals and an output.

  Globals and output persist from one unit to the next; the stack is cleared
  before each. Code is straight-line, so a run walks once through the decoded
  instructions (`exec`), and each of them goes on, ends the run with a value,
  or fails (`step`). What an instruction has popped when it fails is gone; the
  next run clears the stack anyway.

  * `Host.run` runs a unit; a unit that cannot be decoded is not begun.
-/
import Std.Data.HashMap
import Stacklet.CodeUnit
import Stacklet.Host.Stack

namespace Stacklet

/-! ## Output -/

/-- Where printed text goes. An output takes a text whole or refuses it, and
    which of both it does may depend on all that it has been given before. -/
structure Sink where
  /-- everything printed so far -/
  printed : String
  /-- the texts given so far, printed or refused, the last one first -/
  given : List String
  /-- why the first of some texts is refused, if it is, when the others have
      been given before it -/
  refusal? : List String → Option String

namespace Sink

/-- An output that takes everything, with nothing printed yet. -/
def empty : Sink := ⟨"", [], fun _ => none⟩

/-- Appends a text, or says why it is refused. Nothing of a refused text is
    printed. -/
def write (text : String) : Sink → Except String Unit × Sink
  | ⟨printed, given, refusal?⟩ =>
    match refusal? (text :: given) with
    | none => (.ok (), ⟨printed ++ text, text :: given, refusal?⟩)
    | some reason => (.error reason, ⟨printed, text :: given, refusal?⟩)

end Sink

/-! ## Calls -/

/-- The line that `print` writes for its arguments. -/
def printLine (args : List Value) : String := " ".intercalate (args.map Value.text) ++ "\n"

/-- Calls a value. -/
def call (callee : Value) (args : List Value) (sink : Sink) :
    Except RuntimeError Value × Sink :=
  match callee, args with
  | .builtin .print, args =>
    match sink.write (printLine args) with
    | (.ok (), sink) => (.ok .none, sink)
    | (.error reason, sink) => (.error (.output reason), sink)
  | .builtin .pow, [base, exponent] => (base.pow exponent, sink)
  | .builtin .pow, args => (.error (.type (.powArguments args.length)), sink)
  | callee, _ => (.error (.type (.notCallable callee.type)), sink)

/-! ## Instructions -/

/-- What instructions read and change. -/
structure Session where
  globals : Std.HashMap String Value
  stack : Stack
  sink : Sink

/-- What becomes of a session in one instruction. -/
inductive Step where
  | next (s : Session)
  | done (v : Value) (s : Session)
  | failed (e : RuntimeError) (s : Session)

/-- The value of a name: a global, or else a builtin. -/
def lookUp (globals : Std.HashMap String Value) (name : String) : Except RuntimeError Value :=
  match globals[name]? with
  | some v => .ok v
  | none =>
    match Builtin.ofName? name with
    | some f => .ok (.builtin f)
    | none => .error (.undefinedName name)

/-- Runs one instruction, which stands at `offset`. One that fails leaves the
    globals and what is printed as they were, but not the values that it has
    popped. -/
def step (u : CodeUnit) (offset : Nat) (i : Instr) : Session → Step
  | ⟨globals, stack, sink⟩ =>
    match i with
    | .loadConst n =>
      match u.consts[n.toNat]? with
      | some c => .next ⟨globals, stack.push (.ofConstant c), sink⟩
      | none => .failed (.badOperand n.toNat .constant offset) ⟨globals, stack, sink⟩
    | .loadGlobal n =>
      match u.names[n.toNat]? with
      | none => .failed (.badOperand n.toNat .name offset) ⟨globals, stack, sink⟩
      | some name =>
        match lookUp globals name with
        | .ok v => .next ⟨globals, stack.push v, sink⟩
        | .error e => .failed e ⟨globals, stack, sink⟩
    | .storeGlobal n =>
      match u.names[n.toNat]? with
      | none => .failed (.badOperand n.toNat .name offset) ⟨globals, stack, sink⟩
      | some name =>
        match stack.pop? with
        | none => .failed (.stackUnderflow offset .storeGlobal) ⟨globals, stack, sink⟩
        | some (v, rest) => .next ⟨globals.insert name v, rest, sink⟩
    | .binaryAdd =>
      match stack.popMany? 2 with
      | some ([a, b], rest) =>
        match a.add b with
        | .ok v => .next ⟨globals, rest.push v, sink⟩
        | .error e => .failed e ⟨globals, rest, sink⟩
      -- a single value has been popped before the other is missed
      | _ => .failed (.stackUnderflow offset .binaryAdd) ⟨globals, .empty, sink⟩
    | .callFunction n =>
      match stack.popMany? (n.toNat + 1) with
      | some (callee :: args, rest) =>
        match call callee args sink with
        | (.ok v, sink) => .next ⟨globals, rest.push v, sink⟩
        | (.error e, sink) => .failed e ⟨globals, rest, sink⟩
      | _ => .failed (.stackUnderflow offset .callFunction) ⟨globals, stack, sink⟩
    | .returnValue =>
      match stack.pop? with
      | none => .failed (.stackUnderflow offset .returnValue) ⟨globals, stack, sink⟩
      | some (v, rest) => .done v ⟨globals, rest, sink⟩
    | .popTop =>
      match stack.pop? with
      | none => .failed (.stackUnderflow offset .popTop) ⟨globals, stack, sink⟩
      | some (_, rest) => .next ⟨globals, rest, sink⟩
    | .dupTop =>
      match stack.pop? with
      | none => .failed (.stackUnderflow offset .dupTop) ⟨globals, stack, sink⟩
      | some (v, rest) => .next ⟨globals, (rest.push v).push v, sink⟩

/-! ## Runs -/

/-- Bounds on a run. -/
structure Limits where
  /-- the most instructions, if there is a bound -/
  steps : Option Nat
  /-- the greatest height of the stack in front of an instruction -/
  height : Nat
  deriving DecidableEq, Repr

/-- No bound on instructions, and ten thousand values on the stack. -/
def Limits.default : Limits := ⟨none, 10000⟩

/-- Why the instruction number `count`, counted from one, is not begun on a
    stack of the given height. -/
def Limits.exceeded? (l : Limits) (count height : Nat) : Option RuntimeError :=
  match l.steps with
  | some limit =>
    if limit < count then some (.stepLimit limit)
    else if l.height < height then some (.stackLimit l.height)
    else none
  | none => if l.height < height then some (.stackLimit l.height) else none

/-- Runs instructions, `count` others having been run before. -/
def exec (l : Limits) (u : CodeUnit) (count : Nat) :
    List (Nat × Instr) → Session → Except RuntimeError Value × Session
  | [], s => (.error .missingReturn, s)
  | (offset, i) :: is, s =>
    match l.exceeded? (count + 1) s.stack.height with
    | some e => (.error e, s)
    | none =>
      match step u offset i s with
      | .next s => exec l u (count + 1) is s
      | .done v s => (.ok v, s)
      | .failed e s => (.error e, s)

/-- A host: its bytes for operations, its bounds, and its session. -/
structure Host where
  numbering : Numbering
  limits : Limits
  session : Session

namespace Host

/-- A host without globals. -/
def fresh (t : Numbering) (l : Limits) (sink : Sink) : Host := ⟨t, l, ⟨∅, .empty, sink⟩⟩

/-- The value bound to a name. -/
def global? (h : Host) (name : String) : Option Value := h.session.globals[name]?

/-- Runs a unit up to its return. -/
def run (u : CodeUnit) : Host → Except RuntimeError Value × Host
  | ⟨t, l, ⟨globals, stack, sink⟩⟩ =>
    match u.instructions t with
    | .error e => (.error (.decode e), ⟨t, l, ⟨globals, stack, sink⟩⟩)
    | .ok is =>
      match exec l u 0 is ⟨globals, .empty, sink⟩ with
      | (result, session) => (result, ⟨t, l, session⟩)

end Host

end Stacklet
