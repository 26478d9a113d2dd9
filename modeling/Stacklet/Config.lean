/-
  Configuration: the description of units and the bytes of operations.

  A configuration file has two tables, `codegen` and `opcodes`, and no other
  top-level key. In `codegen` keys that mean nothing are passed over; the
  values may also be given as an array in the order file name, name, first
  line.

  * `Config.ofToml?` reads a configuration, `Config.numbering` makes the
    numbering that it asks for.
-/
import Stacklet.CodeUnit
import Stacklet.Numbering
import Stacklet.Toml.Document

namespace Stacklet

/-- A configuration. -/
structure Config where
  options : UnitOptions
  /-- bytes by mnemonic, in the order of the mnemonics -/
  opcodes : List (String × UInt8)
  deriving DecidableEq, Repr

namespace Config

/-- What holds where nothing is configured. -/
def default : Config := ⟨.default, []⟩

/-! ## Settings -/

def text? : Toml → Option String
  | .string s => some s
  | _ => none

/-- A number below `bound`. -/
def number? (bound : Nat) : Toml → Option Nat
  | .integer n => if 0 ≤ n ∧ n < bound then some n.toNat else none
  | _ => none

/-- The setting of a key, or `otherwise` where the key is missing. -/
def setting {α : Type} (read : Toml → Option α) (otherwise : α) (v : Option Toml) : Option α :=
  match v with
  | none => some otherwise
  | some v => read v

/-- The description of units, from the three settings that make it up. -/
def optionsOf (fileName name firstLine : Option Toml) : Option UnitOptions := do
  let fileName ← setting text? UnitOptions.default.fileName fileName
  let name ← setting text? UnitOptions.default.name name
  let firstLine ← setting (number? UInt32.size) UnitOptions.default.firstLine.toNat firstLine
  return ⟨fileName, name, UInt32.ofNat firstLine⟩

/-- The description of units, from the value of `codegen`. A date is a table
    without any of the keys. -/
def options? : Toml → Option UnitOptions
  | .table _ entries | .inline entries =>
    optionsOf (entries.lookup "filename") (entries.lookup "name") (entries.lookup "firstlineno")
  | .array items => optionsOf items[0]? items[1]? items[2]?
  | .datetime _ => some .default
  | _ => none

/-- Bytes by mnemonic, from the entries of `opcodes`. -/
def bytes? : Toml.Entries → Option (List (String × UInt8))
  | [] => some []
  | (name, v) :: rest =>
    match number? UInt8.size v, bytes? rest with
    | some n, some found => some ((name, UInt8.ofNat n) :: found)
    | _, _ => none

/-- Assignments in the order of their mnemonics. -/
def sorted (named : List (String × UInt8)) : List (String × UInt8) :=
  named.mergeSort fun a b => !decide (b.1 < a.1)

def opcodes? : Toml → Option (List (String × UInt8))
  | .table _ entries | .inline entries => (bytes? entries).map sorted
  | _ => none

/-- The configuration that the top-level entries of a file describe. -/
def ofEntries? (entries : Toml.Entries) : Option Config :=
  if entries.all fun (key, _) => key == "codegen" || key == "opcodes" then do
    let options ← setting options? .default (entries.lookup "codegen")
    let opcodes ← setting opcodes? [] (entries.lookup "opcodes")
    return ⟨options, opcodes⟩
  else none

/-- The configuration that a file describes. -/
def ofToml? (text : String) : Option Config :=
  match Toml.ofString? text with
  | none => none
  | some entries => ofEntries? entries

/-- The usual numbering with the configured bytes. -/
def numbering (c : Config) : Except NumberingError Numbering :=
  Numbering.classic.overrideNames c.opcodes

end Config

/-- Why a configuration is of no use. -/
inductive ConfigError where
  /-- the file cannot be read -/
  | read (path reason : String)
  /-- the text is no configuration -/
  | invalid
  /-- its bytes are no numbering -/
  | numbering (e : NumberingError)
  deriving DecidableEq, Repr

def ConfigError.message : ConfigError → String
  | read path reason => "cannot read config '" ++ path ++ "': " ++ reason
  | invalid => "invalid config: TOML parse error"
  | numbering e => "invalid [opcodes] table: " ++ e.message

end Stacklet
