/-
  The program: follows the script of its command line.
-/
import Stacklet.CommandLine

namespace Stacklet.CommandLine

/-- What an error of the system says. -/
def systemError : IO.Error → SystemError
  | .noFileOrDirectory _ code reason | .interrupted _ code reason => ⟨reason, code.toNat⟩
  | .alreadyExists _ code reason | .invalidArgument _ code reason
  | .permissionDenied _ code reason | .resourceExhausted _ code reason
  | .inappropriateType _ code reason | .noSuchThing _ code reason => ⟨reason, code.toNat⟩
  | .otherError code reason | .resourceBusy code reason | .resourceVanished code reason
  | .unsupportedOperation code reason | .hardwareFault code reason
  | .unsatisfiedConstraints code reason | .illegalOperation code reason
  | .protocolError code reason | .timeExpired code reason => ⟨reason, code.toNat⟩
  | .unexpectedEof => ⟨"unexpected end of file", 0⟩
  | .userError reason => ⟨reason, 0⟩

/-- Makes a request. -/
def request {α : Type} (act : IO α) : IO (Except SystemError α) := do
  try
    return .ok (← act)
  catch e =>
    return .error (systemError e)

/-- Everything that is left of a stream, behind what has been read. -/
partial def readAll (stream : IO.FS.Stream) (found : ByteArray) : IO ByteArray := do
  let more ← stream.read 65536
  if more.isEmpty then
    return found
  readAll stream (found ++ more)

/-- Follows a script. -/
def follow {α : Type} : Script α → IO α
  | .done a => return a
  | .readFile path next => do
    let bytes ← request (IO.FS.withFile path .read fun file => file.readBinToEnd)
    follow (next (bytes.map ByteArray.toList))
  | .readInput next => do
    let bytes ← request (readAll (← IO.getStdin) .empty)
    follow (next (bytes.map ByteArray.toList))
  | .writeFile path bytes next => do
    follow (next (← request (IO.FS.writeBinFile path ⟨bytes.toArray⟩)))
  | .print text rest => do
    (← IO.getStdout).putStr text
    follow rest
  | .complain text rest => do
    (← IO.getStderr).putStr text
    follow rest

end Stacklet.CommandLine

open Stacklet

def main (args : List String) : IO UInt32 := CommandLine.follow (commandLine args)
