/-
  The options of the command line.

  An argument is an option in its long form (`--name` or `--name=value`), a
  cluster of options in their short forms (`-vex`), the mark behind which
  nothing is an option (`--`), or a plain word. A setting without a value
  attached to it takes the next argument, which has to be a plain word. No
  option may be given twice.

  * `Options.ofArgs` reads arguments from left to right; a request for help or
    for the version ends the reading, and so does the first misuse.
-/

namespace Stacklet.CommandLine

/-! ## Options -/

/-- Options without a value. -/
inductive Switch where
  | tokens
  | ast
  | dis
  | info
  | noRun
  | verbose
  deriving DecidableEq, Repr

/-- Options with a value. -/
inductive Setting where
  | eval
  | emit
  | config
  | fileName
  | name
  deriving DecidableEq, Repr

/-- What an option name stands for. -/
inductive Meaning where
  | switch (s : Switch)
  | setting (s : Setting)
  | help
  | version
  deriving DecidableEq, Repr

/-- The long names. -/
def long? : String → Option Meaning
  | "tokens" => some (.switch .tokens)
  | "ast" => some (.switch .ast)
  | "dis" => some (.switch .dis)
  | "info" => some (.switch .info)
  | "no-run" => some (.switch .noRun)
  | "verbose" => some (.switch .verbose)
  | "eval" => some (.setting .eval)
  | "emit" => some (.setting .emit)
  | "config" => some (.setting .config)
  | "filename" => some (.setting .fileName)
  | "name" => some (.setting .name)
  | "help" => some .help
  | "version" => some .version
  | _ => none

/-- The short names. -/
def short? : Char → Option Meaning
  | 'v' => some (.switch .verbose)
  | 'e' => some (.setting .eval)
  | 'c' => some (.setting .config)
  | 'h' => some .help
  | 'V' => some .version
  | _ => none

/-- A switch as messages show it. -/
def Switch.text : Switch → String
  | tokens => "--tokens"
  | ast => "--ast"
  | dis => "--dis"
  | info => "--info"
  | noRun => "--no-run"
  | verbose => "--verbose"

/-- A setting as messages show it. -/
def Setting.text : Setting → String
  | eval => "--eval <EVAL>"
  | emit => "--emit <PATH>"
  | config => "--config <PATH>"
  | fileName => "--filename <FILENAME>"
  | name => "--name <NAME>"

/-- The value is a path, and paths are not empty. -/
def Setting.isPath : Setting → Bool
  | emit | config => true
  | eval | fileName | name => false

/-! ## What ends the reading of arguments -/

/-- Why arguments are refused. -/
inductive Misuse where
  | unknown (arg : String)
  | repeated (option : String)
  | missingValue (option : String)
  | unexpectedValue (value option : String)
  /-- a source text beside a source file -/
  | twoSources
  deriving DecidableEq, Repr

def Misuse.text : Misuse → String
  | unknown arg => "unexpected argument '" ++ arg ++ "' found"
  | repeated option => "the argument '" ++ option ++ "' cannot be used multiple times"
  | missingValue option => "a value is required for '" ++ option ++ "' but none was supplied"
  | unexpectedValue value option =>
    "unexpected value '" ++ value ++ "' for '" ++ option ++ "' found; no more were expected"
  | twoSources => "the argument '" ++ Setting.eval.text ++ "' cannot be used with '[FILE]'"

/-- An answer that needs no run. -/
inductive Ending where
  | help
  | version
  | misuse (m : Misuse)
  deriving DecidableEq, Repr

/-! ## Options that are given -/

/-- What the arguments of a run ask for. -/
structure Options where
  /-- the source file -/
  file : Option String
  /-- the source text itself -/
  eval : Option String
  /-- print tokens and do nothing else -/
  tokens : Bool
  /-- print the tree -/
  ast : Bool
  /-- print the instructions -/
  dis : Bool
  /-- print the description of the unit -/
  info : Bool
  /-- where to write the unit -/
  emit : Option String
  /-- compile only -/
  noRun : Bool
  /-- the configuration file -/
  config : Option String
  /-- the file name recorded in the unit -/
  fileName : Option String
  /-- the name recorded in the unit -/
  name : Option String
  /-- keep a log, which is no part of what a run yields -/
  verbose : Bool
  deriving DecidableEq, Repr

namespace Options

/-- Nothing is asked for. -/
def empty : Options where
  file := none
  eval := none
  tokens := false
  ast := false
  dis := false
  info := false
  emit := none
  noRun := false
  config := none
  fileName := none
  name := none
  verbose := false

def isOn (o : Options) : Switch → Bool
  | .tokens => o.tokens
  | .ast => o.ast
  | .dis => o.dis
  | .info => o.info
  | .noRun => o.noRun
  | .verbose => o.verbose

/-- Turns a switch on. -/
def turnOn (o : Options) : Switch → Options
  | .tokens => { o with tokens := true }
  | .ast => { o with ast := true }
  | .dis => { o with dis := true }
  | .info => { o with info := true }
  | .noRun => { o with noRun := true }
  | .verbose => { o with verbose := true }

def value? (o : Options) : Setting → Option String
  | .eval => o.eval
  | .emit => o.emit
  | .config => o.config
  | .fileName => o.fileName
  | .name => o.name

/-- Gives a setting its value. -/
def set (o : Options) (s : Setting) (value : String) : Options :=
  match s with
  | .eval => { o with eval := some value }
  | .emit => { o with emit := some value }
  | .config => { o with config := some value }
  | .fileName => { o with fileName := some value }
  | .name => { o with name := some value }

/-! ## Reading -/

def refuse {α : Type} (m : Misuse) : Except Ending α := .error (.misuse m)

/-- Adds a switch. -/
def addSwitch (o : Options) (s : Switch) : Except Ending Options :=
  if o.isOn s then refuse (.repeated s.text) else .ok (o.turnOn s)

/-- Adds a setting with its value. -/
def addSetting (o : Options) (s : Setting) (value : String) : Except Ending Options :=
  if (o.value? s).isSome then refuse (.repeated s.text)
  else if s.isPath && value.isEmpty then refuse (.missingValue s.text)
  else .ok (o.set s value)

/-- Adds the source file. -/
def addFile (o : Options) (path : String) : Except Ending Options :=
  if o.file.isSome then refuse (.unknown path)
  else if path.isEmpty then refuse (.missingValue "[FILE]")
  else .ok { o with file := some path }

/-- Adds the options of a cluster; the last one may be a setting that waits for
    its value. -/
def addCluster (o : Options) : List Char → Except Ending (Options × Option Setting)
  | [] => .ok (o, none)
  | c :: cs =>
    match short? c with
    | none => refuse (.unknown ("-" ++ c.toString))
    | some .help => .error .help
    | some .version => .error .version
    | some (.switch s) => do addCluster (← o.addSwitch s) cs
    | some (.setting s) =>
      match cs with
      | [] => .ok (o, some s)
      | '=' :: value => do return (← o.addSetting s (.ofList value), none)
      | value => do return (← o.addSetting s (.ofList value), none)

/-- Adds an option in its long form, with the value attached to it. -/
def addLong (o : Options) (name : String) (value : Option String) :
    Except Ending (Options × Option Setting) :=
  match long? name, value with
  | none, _ => refuse (.unknown ("--" ++ name))
  | some (.setting s), none => .ok (o, some s)
  | some (.setting s), some value => do return (← o.addSetting s value, none)
  | some (.switch s), none => do return (← o.addSwitch s, none)
  | some .help, none => .error .help
  | some .version, none => .error .version
  | some _, some value => refuse (.unexpectedValue value ("--" ++ name))

/-- What an argument looks like. -/
inductive Shape where
  | word
  /-- nothing behind it is an option -/
  | mark
  | long (name : String) (value : Option String)
  | cluster (letters : List Char)
  deriving DecidableEq, Repr

/-- The name and the value on the two sides of the first equals sign. -/
def shapeOfLong (cs : List Char) : Shape :=
  .long (.ofList (cs.takeWhile (· != '='))) <|
    match cs.dropWhile (· != '=') with
    | [] => none
    | _ :: value => some (.ofList value)

def shapeOf (arg : String) : Shape :=
  match arg.toList with
  | ['-', '-'] => .mark
  | '-' :: '-' :: cs => shapeOfLong cs
  | '-' :: c :: cs => .cluster (c :: cs)
  | _ => .word

/-- All arguments have been read. -/
def complete (o : Options) : Except Ending Options :=
  if o.eval.isSome && o.file.isSome then refuse .twoSources else .ok o

/-- Reads arguments; `waiting` is the setting whose value comes next. -/
def addArgs (o : Options) (waiting : Option Setting) : List String → Except Ending Options
  | [] =>
    match waiting with
    | some s => refuse (.missingValue s.text)
    | none => o.complete
  | arg :: args =>
    match waiting, shapeOf arg with
    | some s, .word => do addArgs (← o.addSetting s arg) none args
    | some s, _ => refuse (.missingValue s.text)
    | none, .word => do addArgs (← o.addFile arg) none args
    | none, .mark => do complete (← args.foldlM addFile o)
    | none, .long name value => do
      let (o, waiting) ← o.addLong name value
      addArgs o waiting args
    | none, .cluster letters => do
      let (o, waiting) ← o.addCluster letters
      addArgs o waiting args

/-- The options that arguments make up. -/
def ofArgs (args : List String) : Except Ending Options := empty.addArgs none args

end Options

end Stacklet.CommandLine
