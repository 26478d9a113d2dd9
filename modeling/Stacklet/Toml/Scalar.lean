/-
  TOML strings, numbers, dates and times.

  A reader takes what it reads from the front of a text and returns the rest.
-/
import Stacklet.Toml

namespace Stacklet.Toml

/-- Reads a value from the front of a text. -/
abbrev Reader (α : Type) := List Char → Option (α × List Char)

/-! ## Characters -/

/-- A blank inside a line. -/
def isGap (c : Char) : Bool := c == ' ' || c == '\t'

/-- May stand in strings and comments: no control character but the tab. -/
def isText (c : Char) : Bool :=
  c == '\t' || decide (0x20 ≤ c.toNat) && c.toNat != 0x7f

def isHexDigit (c : Char) : Bool :=
  c.isDigit || ('a' ≤ c && c ≤ 'f') || ('A' ≤ c && c ≤ 'F')

/-- The value of a digit in any base up to sixteen. -/
def digitValue (c : Char) : Nat :=
  if c.isDigit then c.toNat - '0'.toNat
  else if 'a' ≤ c then c.toNat - 'a'.toNat + 10
  else c.toNat - 'A'.toNat + 10

/-- The value of digits. -/
def valueIn (base : Nat) (digits : List Char) : Nat :=
  digits.foldl (fun n c => base * n + digitValue c) 0

/-- What follows a line end, if one stands in front. -/
def lineEnd? : List Char → Option (List Char)
  | '\n' :: rest => some rest
  | '\r' :: '\n' :: rest => some rest
  | _ => none

/-! ## Strings -/

/-- The character given by `count` hexadecimal digits. -/
def codePoint? (count : Nat) (cs : List Char) : Option Char :=
  let digits := cs.take count
  if digits.length = count ∧ digits.all isHexDigit then
    let n := valueIn 16 digits
    if n.isValidChar then some (Char.ofNat n) else none
  else none

/-- What an escape stands for, given the text behind the backslash, and how
    many characters of it belong to the escape. -/
def escape? : List Char → Option (Char × Nat)
  | 'b' :: _ => some ('\x08', 1)
  | 't' :: _ => some ('\t', 1)
  | 'n' :: _ => some ('\n', 1)
  | 'f' :: _ => some ('\x0c', 1)
  | 'r' :: _ => some ('\r', 1)
  | '"' :: _ => some ('"', 1)
  | '\\' :: _ => some ('\\', 1)
  | 'u' :: rest => (codePoint? 4 rest).map (·, 5)
  | 'U' :: rest => (codePoint? 8 rest).map (·, 9)
  | _ => none

/-- The rest of a string with escapes, on one line. -/
def basic (found : String) : Reader String
  | [] => none
  | '"' :: rest => some (found, rest)
  | '\\' :: rest =>
    match escape? rest with
    | none => none
    | some (c, count) => basic (found.push c) (rest.drop count)
  | c :: rest => if isText c then basic (found.push c) rest else none
termination_by cs => cs.length

/-- The rest of a string without escapes, on one line. -/
def literal (found : String) : Reader String
  | [] => none
  | '\'' :: rest => some (found, rest)
  | c :: rest => if isText c then literal (found.push c) rest else none

/-- What closes a string over several lines: at least three quotes, of which
    up to two more belong to the string. -/
def closeLong (quote : Char) (found : String) (count : Nat) (rest : List Char) :
    Option (String × List Char) :=
  if count ≤ 5 then some (found.pushn quote (count - 3), rest) else none

theorem length_dropWhile_le {α : Type} (p : α → Bool) (cs : List α) :
    (cs.dropWhile p).length ≤ cs.length :=
  (List.dropWhile_sublist p).length_le

/-- The text behind blanks and line ends. -/
def skipLines : List Char → List Char
  | '\r' :: '\n' :: rest => skipLines rest
  | c :: rest => if isGap c || c == '\n' then skipLines rest else c :: rest
  | [] => []

theorem length_skipLines_le (cs : List Char) : (skipLines cs).length ≤ cs.length := by
  fun_induction skipLines cs with
  | case1 rest ih =>
    simp only [List.length_cons]
    omega
  | case2 c rest _ _ ih =>
    simp only [List.length_cons]
    omega
  | case3 => exact Nat.le_refl _
  | case4 => exact Nat.le_refl _

/-- The rest of a string with escapes, over several lines. -/
def longBasic (found : String) : Reader String
  | [] => none
  | '\r' :: '\n' :: rest => longBasic (found.push '\n') rest
  | '\\' :: rest =>
    match lineEnd? (rest.dropWhile isGap) with
    | some _ => longBasic found (skipLines rest)
    | none =>
      match escape? rest with
      | none => none
      | some (c, count) => longBasic (found.push c) (rest.drop count)
  | c :: rest =>
    if c = '"' then
      let more := (rest.takeWhile (· == '"')).length
      if more < 2 then longBasic (found.pushn '"' (more + 1)) (rest.drop more)
      else closeLong '"' found (more + 1) (rest.drop more)
    else if c = '\n' || isText c then longBasic (found.push c) rest
    else none
termination_by cs => cs.length
decreasing_by
  all_goals
    have := length_skipLines_le rest
    simp only [List.length_cons, List.length_drop]
    omega

/-- The rest of a string without escapes, over several lines. -/
def longLiteral (found : String) : Reader String
  | [] => none
  | '\r' :: '\n' :: rest => longLiteral (found.push '\n') rest
  | c :: rest =>
    if c = '\'' then
      let more := (rest.takeWhile (· == '\'')).length
      if more < 2 then longLiteral (found.pushn '\'' (more + 1)) (rest.drop more)
      else closeLong '\'' found (more + 1) (rest.drop more)
    else if c = '\n' || isText c then longLiteral (found.push c) rest
    else none
termination_by cs => cs.length
decreasing_by
  all_goals
    simp only [List.length_cons, List.length_drop]
    omega

/-- The text behind the first line end of a string over several lines. -/
def skipFirstLineEnd (cs : List Char) : List Char := (lineEnd? cs).getD cs

/-- A string of any kind. -/
def string? : Reader String
  | '"' :: '"' :: '"' :: rest => longBasic "" (skipFirstLineEnd rest)
  | '"' :: rest => basic "" rest
  | '\'' :: '\'' :: '\'' :: rest => longLiteral "" (skipFirstLineEnd rest)
  | '\'' :: rest => literal "" rest
  | _ => none

/-! ## Dates and times -/

/-- The value of exactly `count` digits. -/
def fixedDigits? (count : Nat) : Reader Nat := fun cs =>
  let digits := cs.take count
  if digits.length = count ∧ digits.all Char.isDigit then
    some (valueIn 10 digits, cs.drop count)
  else none

/-- Two digits of a value within bounds. -/
def twoDigits? (least most : Nat) : Reader Nat := fun cs =>
  match fixedDigits? 2 cs with
  | some (n, rest) => if least ≤ n ∧ n ≤ most then some (n, rest) else none
  | none => none

/-- A given character. -/
def char? (c : Char) : List Char → Option (List Char)
  | d :: rest => if d = c then some rest else none
  | [] => none

/-- How many days a month has. -/
def daysIn (year month : Nat) : Nat :=
  if month = 2 then
    if year % 4 = 0 ∧ (year % 100 ≠ 0 ∨ year % 400 = 0) then 29 else 28
  else if month = 4 ∨ month = 6 ∨ month = 9 ∨ month = 11 then 30
  else 31

/-- The text behind a date. -/
def date? (cs : List Char) : Option (List Char) := do
  let (year, cs) ← fixedDigits? 4 cs
  let cs ← char? '-' cs
  let (month, cs) ← twoDigits? 1 12 cs
  let cs ← char? '-' cs
  let (_, cs) ← twoDigits? 1 (daysIn year month) cs
  return cs

/-- The text behind a fraction of a second, which may be missing. -/
def fraction? (cs : List Char) : Option (List Char) :=
  match cs with
  | '.' :: rest => if rest.head?.any Char.isDigit then some (rest.dropWhile Char.isDigit) else none
  | _ => some cs

/-- The text behind a time of day. -/
def time? (cs : List Char) : Option (List Char) := do
  let (_, cs) ← twoDigits? 0 23 cs
  let cs ← char? ':' cs
  let (_, cs) ← twoDigits? 0 59 cs
  let cs ← char? ':' cs
  let (_, cs) ← twoDigits? 0 60 cs
  fraction? cs

/-- The text behind a distance from universal time, which may be missing. -/
def offset (cs : List Char) : List Char :=
  match cs with
  | 'Z' :: rest | 'z' :: rest => rest
  | '+' :: rest | '-' :: rest =>
    let behind? : Option (List Char) := do
      let (_, rest) ← twoDigits? 0 23 rest
      let rest ← char? ':' rest
      let (_, rest) ← twoDigits? 0 59 rest
      return rest
    behind?.getD cs
  | _ => cs

/-- The text behind the time that may follow a date. -/
def timeBehindDate (cs : List Char) : List Char :=
  match cs with
  | 'T' :: rest | 't' :: rest | ' ' :: rest =>
    match time? rest with
    | some rest => offset rest
    | none => cs
  | _ => cs

/-- A date, a time, or a date and a time. -/
def datetime? (cs : List Char) : Option (Toml × List Char) :=
  let rest? := match date? cs with
    | some rest => some (timeBehindDate rest)
    | none => time? cs
  rest?.map fun rest => (.datetime (String.ofList (cs.take (cs.length - rest.length))), rest)

/-! ## Numbers -/

/-- Digits with single marks between them; the digits, and the rest. -/
def groupedDigits (isDigit : Char → Bool) (found : List Char) : List Char → List Char × List Char
  | '_' :: d :: rest =>
    if isDigit d && !found.isEmpty then groupedDigits isDigit (d :: found) rest
    else (found.reverse, '_' :: d :: rest)
  | d :: rest =>
    if isDigit d then groupedDigits isDigit (d :: found) rest else (found.reverse, d :: rest)
  | [] => (found.reverse, [])

/-- One or more digits. -/
def digits? (isDigit : Char → Bool) : Reader (List Char) := fun cs =>
  match groupedDigits isDigit [] cs with
  | ([], _) => none
  | (digits, rest) => some (digits, rest)

/-- Whether a sign in front is negative, and what follows it. -/
def sign : List Char → Bool × List Char
  | '+' :: rest => (false, rest)
  | '-' :: rest => (true, rest)
  | cs => (false, cs)

/-- The digits of a decimal number, without leading zeros. -/
def whole? (cs : List Char) : Option (List Char × List Char) :=
  match cs with
  | '0' :: rest => some (['0'], rest)
  | cs => digits? Char.isDigit cs

/-- An integer with 64 bits. -/
def bounded (n : Int) : Option Toml :=
  if (int64? n).isSome then some (.integer n) else none

/-- An integer in the given base, behind its mark. -/
def based (base : Nat) (isDigit : Char → Bool) : Reader Toml := fun cs =>
  match digits? isDigit cs with
  | none => none
  | some (digits, rest) => (bounded (valueIn base digits)).map (·, rest)

def integer? : Reader Toml := fun cs =>
  match cs with
  | '0' :: 'x' :: rest => based 16 isHexDigit rest
  | '0' :: 'o' :: rest => based 8 (fun c => '0' ≤ c && c ≤ '7') rest
  | '0' :: 'b' :: rest => based 2 (fun c => c == '0' || c == '1') rest
  | cs =>
    match sign cs with
    | (negative, rest) =>
      match whole? rest with
      | none => none
      | some (digits, rest) =>
        let n : Int := valueIn 10 digits
        (bounded (if negative then -n else n)).map (·, rest)

/-- The digits behind a point, which may be missing. -/
def places? (cs : List Char) : Option (List Char × List Char) :=
  match cs with
  | '.' :: rest => digits? Char.isDigit rest
  | cs => some ([], cs)

/-- The exponent of a number, which may be missing. -/
def exponent? (cs : List Char) : Option (Int × List Char) :=
  match cs with
  | 'e' :: rest | 'E' :: rest =>
    match sign rest with
    | (negative, rest) =>
      (digits? Char.isDigit rest).map fun (digits, rest) =>
        let n : Int := valueIn 10 digits
        (if negative then -n else n, rest)
  | cs => some (0, cs)

/-- The double of decimal digits with an exponent. Numbers far beyond the
    range of doubles are not formed. -/
def doubleOf (digits : List Char) (exponent : Int) : Binary64 :=
  let n := valueIn 10 digits
  let size : Int := digits.length + exponent
  if n = 0 ∨ size < -400 then .zero
  else if 400 < exponent then .infinity
  else .ofDecimal n exponent

/-- `inf` and `nan`, perhaps with a sign. -/
def special? (cs : List Char) : Option (Toml × List Char) :=
  match sign cs with
  | (negative, 'i' :: 'n' :: 'f' :: rest) =>
    some (.float (if negative then Binary64.infinity.neg else .infinity), rest)
  | (_, 'n' :: 'a' :: 'n' :: rest) => some (.float .nan, rest)
  | _ => none

/-- A number with a point or an exponent. -/
def plainFloat? (cs : List Char) : Option (Toml × List Char) := do
  let (negative, cs) := sign cs
  let (whole, behindWhole) ← whole? cs
  let (places, behindPlaces) ← places? behindWhole
  let (exponent, rest) ← exponent? behindPlaces
  if rest.length = behindWhole.length then none
  let x := doubleOf (whole ++ places) (exponent - places.length)
  if x.isInfinite && !negative then none
  return (.float (if negative then x.neg else x), rest)

def float? : Reader Toml := fun cs => plainFloat? cs <|> special? cs

/-! ## Scalars -/

/-- A value that holds no others. -/
def scalar? : Reader Toml := fun cs =>
  match cs with
  | '"' :: _ | '\'' :: _ => (string? cs).map fun (s, rest) => (.string s, rest)
  | 't' :: 'r' :: 'u' :: 'e' :: rest => some (.boolean true, rest)
  | 'f' :: 'a' :: 'l' :: 's' :: 'e' :: rest => some (.boolean false, rest)
  | cs => datetime? cs <|> float? cs <|> integer? cs

end Stacklet.Toml
