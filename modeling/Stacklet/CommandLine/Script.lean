/-
  Scripts: what a run asks of its surroundings.

  A script is a chain of requests, each of which goes on with the answer to
  it. What the answers are is left to whoever follows the script.

  * `Run` is a script that may break off with a message.
-/

namespace Stacklet.CommandLine

/-- Why the system refuses a request. -/
structure SystemError where
  reason : String
  code : Nat
  deriving DecidableEq, Repr

namespace SystemError

def text (e : SystemError) : String := e.reason ++ " (os error " ++ toString e.code ++ ")"

def notFound : SystemError := ⟨"No such file or directory", 2⟩

def notDirectory : SystemError := ⟨"Not a directory", 20⟩

def isDirectory : SystemError := ⟨"Is a directory", 21⟩

def nameTooLong : SystemError := ⟨"File name too long", 36⟩

end SystemError

/-- Requests up to a result. -/
inductive Script (α : Type) where
  | done (a : α)
  | readFile (path : String) (next : Except SystemError (List UInt8) → Script α)
  /-- asks for all of the input -/
  | readInput (next : Except SystemError (List UInt8) → Script α)
  | writeFile (path : String) (bytes : List UInt8) (next : Except SystemError Unit → Script α)
  | print (text : String) (rest : Script α)
  /-- prints among the error messages -/
  | complain (text : String) (rest : Script α)

namespace Script

/-- Goes on with the result. -/
def bind {α β : Type} : Script α → (α → Script β) → Script β
  | done a, f => f a
  | readFile path next, f => readFile path fun r => (next r).bind f
  | readInput next, f => readInput fun r => (next r).bind f
  | writeFile path bytes next, f => writeFile path bytes fun r => (next r).bind f
  | print text rest, f => print text (rest.bind f)
  | complain text rest, f => complain text (rest.bind f)

instance : Monad Script where
  pure := done
  bind := bind

end Script

/-! ## Runs -/

/-- A script that yields a value or breaks off with a message. -/
abbrev Run := ExceptT String Script

namespace Run

def readFile (path : String) : Run (Except SystemError (List UInt8)) :=
  Script.readFile path fun r => .done (.ok r)

def readInput : Run (Except SystemError (List UInt8)) := Script.readInput fun r => .done (.ok r)

def writeFile (path : String) (bytes : List UInt8) : Run (Except SystemError Unit) :=
  Script.writeFile path bytes fun r => .done (.ok r)

def print (text : String) : Run Unit := Script.print text (.done (.ok ()))

/-- The value of a result; an error breaks off. -/
def ofExcept {ε α : Type} (message : ε → String) : Except ε α → Run α
  | .ok a => return a
  | .error e => throw (message e)

end Run

end Stacklet.CommandLine
