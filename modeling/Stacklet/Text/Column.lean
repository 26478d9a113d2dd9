/-
  Text in columns of a fixed width.
-/

namespace Stacklet.Text

/-- Blanks in front, up to a width. -/
def padLeft (width : Nat) (s : String) : String := "".pushn ' ' (width - s.length) ++ s

/-- Blanks behind, up to a width. -/
def padRight (width : Nat) (s : String) : String := s.pushn ' ' (width - s.length)

/-- Lines, each ended by a line feed. -/
def lines (ls : List String) : String := ls.foldl (fun out l => out ++ l ++ "\n") ""

end Stacklet.Text
