/-
  Source text to tokens.

  At each place one look at the text (`front`) says what stands there: a gap,
  the lexeme of a token, or a fault. Lexemes are as long as possible. Gaps are
  blanks, comments and, inside parentheses, line ends.

  A `Scanner` is the unread text with its position and the number of open
  parentheses. It outlives a fault: a number that is too large is passed over,
  any other fault leaves the scanner in front of the offending character.

  * `front` takes one character and some of those behind it, so a scan ends
    (`scan`);
  * `tokensOf` scans a whole text.
-/
import Stacklet.Token
import Stacklet.Text.Letter

namespace Stacklet

/-! ## Faults -/

/-- Why a text cannot be scanned. -/
inductive ScanFault where
  /-- the digits exceed the largest integer -/
  | invalidInteger (digits : String)
  /-- a closing parenthesis without an open one -/
  | unmatchedParen
  /-- a character that starts no token -/
  | unexpectedChar (c : Char)
  deriving DecidableEq, Repr

def ScanFault.text : ScanFault → String
  | invalidInteger digits => "invalid integer: " ++ digits
  | unmatchedParen => "unmatched ')'"
  | unexpectedChar c => "unexpected character '" ++ c.toString ++ "'"

/-- A fault and the position of the lexeme that has it. -/
structure ScanError where
  fault : ScanFault
  position : Position
  deriving DecidableEq, Repr

def ScanError.message (e : ScanError) : String :=
  e.position.text ++ ": " ++ e.fault.text

/-! ## Lexemes -/

/-- Stands inside a number: a digit or the mark that groups digits. -/
def isNumberChar (c : Char) : Bool := c.isDigit || c == '_'

/-- Starts an identifier. -/
def isIdentStart (c : Char) : Bool := Text.isLetter c || c == '_'

/-- Continues an identifier. -/
def isIdentChar (c : Char) : Bool := Text.isLetter c || Text.isNumeral c || c == '_'

/-- The digits of a number, without marks and point. -/
def digitsOf (lexeme : List Char) : List Char := lexeme.filter Char.isDigit

/-- The value of decimal digits. -/
def valueOf (digits : List Char) : Nat :=
  digits.foldl (fun n c => 10 * n + (c.toNat - '0'.toNat)) 0

/-- How many digits stand behind the point of a number. -/
def placesOf (lexeme : List Char) : Nat := (digitsOf (lexeme.dropWhile (· != '.'))).length

/-- The double that a lexeme with a point denotes. -/
def floatOf (lexeme : List Char) : Binary64 :=
  .ofDecimal (valueOf (digitsOf lexeme)) (-(placesOf lexeme : Int))

/-- What stands at the front of a text, with the characters behind the first
    one that belong to it. -/
inductive Front where
  | gap (more : List Char)
  | lexeme (token : Token) (more : List Char)
  /-- the scanner goes on behind `passed` -/
  | fault (cause : ScanFault) (passed : List Char)
  deriving DecidableEq, Repr

/-- The characters behind the leading digit of a number: digits up to a
    point, the point, and digits again. -/
def numberMore (rest : List Char) : List Char :=
  match rest.dropWhile isNumberChar with
  | '.' :: behind => rest.takeWhile isNumberChar ++ '.' :: behind.takeWhile isNumberChar
  | _ => rest.takeWhile isNumberChar

/-- A number that starts with a digit. -/
def numberFront (c : Char) (rest : List Char) : Front :=
  let lexeme := c :: numberMore rest
  if '.' ∈ lexeme then .lexeme (.float (floatOf lexeme)) (numberMore rest)
  else
    let digits := digitsOf lexeme
    match int64? (valueOf digits) with
    | some n => .lexeme (.integer n) (numberMore rest)
    | none => .fault (.invalidInteger (String.ofList digits)) lexeme

/-- The token of a single character, or the fault it is. -/
def symbolFront (depth : Nat) (c : Char) : Front :=
  match c with
  | '+' => .lexeme .plus []
  | '-' => .lexeme .minus []
  | '*' => .lexeme .star []
  | '/' => .lexeme .slash []
  | '%' => .lexeme .percent []
  | '=' => .lexeme .assign []
  | ',' => .lexeme .comma []
  | ';' => .lexeme .semicolon []
  | '\n' => .lexeme .newline []
  | '(' => .lexeme .openParen []
  | ')' => if depth = 0 then .fault .unmatchedParen [] else .lexeme .closeParen []
  | c => .fault (.unexpectedChar c) []

/-- Stands between lexemes: a blank, or a line end inside parentheses. -/
def isBlank (depth : Nat) (c : Char) : Bool :=
  c == ' ' || c == '\t' || c == '\r' || c == '\n' && decide (0 < depth)

/-- What stands at the front of `c :: rest`, inside `depth` parentheses. -/
def front (depth : Nat) (c : Char) (rest : List Char) : Front :=
  if isBlank depth c then .gap []
  else if c == '#' then .gap (rest.takeWhile (· != '\n'))
  else if c.isDigit then numberFront c rest
  else if c == '.' && rest.head?.any Char.isDigit then
    let more := rest.takeWhile isNumberChar
    .lexeme (.float (floatOf (c :: more))) more
  else if isIdentStart c then
    let more := rest.takeWhile isIdentChar
    .lexeme (.ident (String.ofList (c :: more))) more
  else symbolFront depth c

/-! ## Scanning -/

/-- Unread text, where it stands, and how many parentheses are open there. -/
structure Scanner where
  ahead : List Char
  position : Position
  depth : Nat
  deriving DecidableEq, Repr

namespace Scanner

/-- At the beginning of a text. -/
def ofString (source : String) : Scanner := ⟨source.toList, .start, 0⟩

/-- Scans up to the end or the first fault, onto the tokens found before. -/
def scan (found : Array PlacedToken) :
    (ahead : List Char) → Position → (depth : Nat) →
      Except ScanError (List PlacedToken) × Scanner
  | [], p, depth => (.ok (found.push ⟨.endOfInput, p⟩).toList, ⟨[], p, depth⟩)
  | c :: rest, p, depth =>
    match front depth c rest with
    | .gap more =>
      scan found (rest.drop more.length) (p.pastAll (c :: more)) depth
    | .lexeme token more =>
      scan (found.push ⟨token, p⟩) (rest.drop more.length) (p.pastAll (c :: more))
        (token.depthPast depth)
    | .fault cause passed =>
      (.error ⟨cause, p⟩, ⟨(c :: rest).drop passed.length, p.pastAll passed, depth⟩)
termination_by ahead => ahead.length

/-- The tokens from here on, ended by `Token.endOfInput`, and the scanner
    behind them. -/
def run (s : Scanner) : Except ScanError (List PlacedToken) × Scanner :=
  scan #[] s.ahead s.position s.depth

end Scanner

/-- The tokens of a text. -/
def tokensOf (source : String) : Except ScanError (List PlacedToken) :=
  (Scanner.ofString source).run.1

end Stacklet
