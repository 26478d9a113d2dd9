/-
  The command line.

  A run loads the configuration, reads the source, and then prints its tokens
  or compiles it, shows and writes what is asked for, and runs the unit. The
  first failure ends it.

  * `Options.run` is a run with given options;
  * `commandLine` is the answer to arguments, with the exit status.
-/
import Stacklet.CodeUnit.Assembly
import Stacklet.CodeUnit.Bytes
import Stacklet.CodeUnit.Listing
import Stacklet.CommandLine.Options
import Stacklet.CommandLine.Script
import Stacklet.Config
import Stacklet.Host
import Stacklet.Text.Column
import Stacklet.Tree.Grammar
import Stacklet.Tree.Outline

namespace Stacklet

namespace CommandLine

/-! ## Reading -/

/-- The text that was asked for, or why there is none. -/
def textOf : Except SystemError (List UInt8) → Except String String
  | .error e => .error e.text
  | .ok bytes =>
    match Wire.textOfBytes? bytes with
    | some text => .ok text
    | none => .error "stream did not contain valid UTF-8"

/-- The configuration in a file. -/
def readConfig (path : String) : Run Config := do
  let text ← Run.ofExcept (fun reason => (ConfigError.read path reason).message)
    (textOf (← Run.readFile path))
  match Config.ofToml? text with
  | some c => return c
  | none => throw ConfigError.invalid.message

/-- The source in a file. -/
def readSource (path : String) : Run String := do
  Run.ofExcept ("Failed to read '" ++ path ++ "': " ++ ·) (textOf (← Run.readFile path))

/-- The source that stands in the input. -/
def readInput : Run String := do
  Run.ofExcept ("Failed to read stdin: " ++ ·) (textOf (← Run.readInput))

/-! ## Showing -/

/-- The line of a token. -/
def tokenLine (t : PlacedToken) : String :=
  Text.padLeft 4 (toString t.position.line) ++ ":" ++
    Text.padRight 3 (toString t.position.col) ++ " " ++ t.token.dump

/-- Prints the tokens of a source. -/
def showTokens (source : String) : Run Unit := do
  let tokens ← Run.ofExcept (fun e => (SourceError.scan e).message) (tokensOf source)
  Run.print (Text.lines (tokens.map tokenLine))

/-- Prints the instructions of a unit. -/
def showListing (t : Numbering) (u : CodeUnit) : Run Unit := do
  Run.print u.banner
  Run.print ((← Run.ofExcept DecodeError.message (u.listing t)) ++ "\n")

/-! ## Units -/

/-- Writes a unit to a file. -/
def writeUnit (u : CodeUnit) (path : String) : Run Unit := do
  Run.ofExcept (fun e => "Failed to write '" ++ path ++ "': " ++ SystemError.text e)
    (← Run.writeFile path u.toBytes)

/-- Runs a unit on a fresh host. -/
def execute (t : Numbering) (u : CodeUnit) : Run Unit := do
  let (result, host) := (Host.fresh t .default .empty).run u
  Run.print host.session.sink.printed
  let _ ← Run.ofExcept RuntimeError.message result

namespace Options

/-- The configuration that is asked for. -/
def loadConfig (o : Options) : Run Config :=
  match o.config with
  | some path => readConfig path
  | none => return .default

/-- The source that is asked for. -/
def loadSource (o : Options) : Run String :=
  match o.eval, o.file with
  | some text, _ => return text
  | none, some path => readSource path
  | none, none => readInput

/-- The description of the unit: as configured, but a source file and, before
    that, the options themselves go first. -/
def describe (o : Options) (configured : UnitOptions) : UnitOptions where
  fileName := o.fileName.getD (o.file.getD configured.fileName)
  name := o.name.getD configured.name
  firstLine := configured.firstLine

/-- Shows, writes and runs a unit. -/
def runUnit (o : Options) (t : Numbering) (u : CodeUnit) : Run Unit := do
  if o.info then
    Run.print u.info
  if o.dis then
    showListing t u
  if let some path := o.emit then
    writeUnit u path
  unless o.noRun do
    execute t u

/-- Compiles a source and goes on with the unit. -/
def runSource (o : Options) (config : Config) (t : Numbering) (source : String) : Run Unit := do
  let tree ← Run.ofExcept SourceError.message (Tree.ofSource source)
  if o.ast then
    Run.print (tree.outline ++ "\n")
  let u ← Run.ofExcept CompileError.message (CodeUnit.ofTree t (o.describe config.options) tree)
  o.runUnit t u

/-- A run. -/
def run (o : Options) : Run Unit := do
  let config ← o.loadConfig
  let t ← Run.ofExcept (fun e => (ConfigError.numbering e).message) config.numbering
  let source ← o.loadSource
  if o.tokens then
    showTokens source
  else
    o.runSource config t source

end Options

/-! ## Answers without a run -/

/-- The name of the program and its version. -/
def versionText : String := "bytecomp 0.1.0\n"

def usageText : String := "Usage: bytecomp [OPTIONS] [FILE]\n"

def helpText : String := Text.lines [
  "Compile trivial programs like \"print(2+3)\" into stack-machine code objects",
  "",
  usageText,
  "Arguments:",
  "  [FILE]  Source file to compile (reads stdin when omitted)",
  "",
  "Options:",
  "  -e, --eval <EVAL>          Compile the given source text instead of a file",
  "      --tokens               Print tokens only",
  "      --ast                  Print the parsed tree",
  "      --dis                  Print the disassembly",
  "      --info                 Print code object metadata and pools",
  "      --emit <PATH>          Write the serialized code object to this path",
  "      --no-run               Compile only, do not execute",
  "  -c, --config <PATH>        TOML configuration file",
  "      --filename <FILENAME>  Source name recorded in the code object",
  "      --name <NAME>          Entry name recorded in the code object",
  "  -v, --verbose              Enable debug logging",
  "  -h, --help                 Print help",
  "  -V, --version              Print version"]

/-- What is complained about in case of a misuse. -/
def misuseText (m : Misuse) : String :=
  "error: " ++ m.text ++ "\n\n" ++ usageText ++ "\nFor more information, try '--help'.\n"

end CommandLine

open CommandLine

/-- The answer to arguments, up to the exit status. -/
def commandLine (args : List String) : Script UInt32 :=
  match Options.ofArgs args with
  | .error .help => .print helpText (.done 0)
  | .error .version => .print versionText (.done 0)
  | .error (.misuse m) => .complain (misuseText m) (.done 2)
  | .ok o => do
    match ← o.run.run with
    | .ok () => .done 0
    | .error message => .complain (message ++ "\n") (.done 1)

end Stacklet
