/-
  Text in double quotes, as it is shown in a dump.

  A backslash stands before a backslash and before the closing quote; tab,
  carriage return, line feed and the null character have one-letter escapes;
  everything else that cannot be shown (`needsCode`) is given by its code.
-/
import Stacklet.Text.Printable

namespace Stacklet.Text

/-- Shown by its code point in a quoted text. -/
def needsCode (c : Char) : Bool := isExtender c || !isPrintable c

/-- The hexadecimal digits of a number, without leading zeros. -/
def hex (n : Nat) : String := String.ofList (Nat.toDigits 16 n)

/-- How one character is written between the quotes. -/
def quoteChar (c : Char) : String :=
  match c with
  | '\x00' => "\\0"
  | '\t' => "\\t"
  | '\r' => "\\r"
  | '\n' => "\\n"
  | '"' => "\\\""
  | '\\' => "\\\\"
  | c => if needsCode c then "\\u\x7b" ++ hex c.toNat ++ "\x7d" else c.toString

/-- A text with quotes around it. -/
def quoted (s : String) : String :=
  s.foldl (fun out c => out ++ quoteChar c) "\"" ++ "\""

end Stacklet.Text
