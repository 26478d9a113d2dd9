/-
  What scripts become when their surroundings are values.

  Surroundings hold what a script can ask for and what it has done so far, so
  a script becomes a function on them.

  * `Script.runIn` follows a script;
  * `Script.runIn_bind`, `Run.runIn_bind`: one script after another.
-/
import Stacklet.CommandLine.Folder

namespace Stacklet.CommandLine

/-- The surroundings of a run. -/
structure Surroundings where
  folder : Folder
  /-- the input that has not been read -/
  input : List UInt8
  /-- everything printed so far -/
  output : String
  /-- every error message so far -/
  complaints : String
  deriving DecidableEq, Repr

/-- Surroundings in which nothing has been printed. -/
def Surroundings.fresh (folder : Folder) (input : List UInt8) : Surroundings :=
  ⟨folder, input, "", ""⟩

/-- Follows a script. -/
def Script.runIn {α : Type} : Script α → Surroundings → α × Surroundings
  | done a, s => (a, s)
  | readFile path next, s => (next (s.folder.read path)).runIn s
  | readInput next, s => (next (.ok s.input)).runIn { s with input := [] }
  | writeFile path bytes next, s =>
    match s.folder.write path bytes with
    | .ok folder => (next (.ok ())).runIn { s with folder := folder }
    | .error e => (next (.error e)).runIn s
  | print text rest, s => rest.runIn { s with output := s.output ++ text }
  | complain text rest, s => rest.runIn { s with complaints := s.complaints ++ text }

theorem Script.runIn_bind {α β : Type} (x : Script α) (f : α → Script β) (s : Surroundings) :
    (x >>= f).runIn s = (f (x.runIn s).1).runIn (x.runIn s).2 := by
  change (x.bind f).runIn s = _
  induction x generalizing s with
  | done a => rfl
  | readFile path next ih => exact ih _ s
  | readInput next ih => exact ih _ _
  | writeFile path bytes next ih =>
    simp only [bind, runIn]
    split
    · exact ih _ _
    · exact ih _ _
  | print text rest ih => exact ih _
  | complain text rest ih => exact ih _

/-- The first failure ends a run. -/
theorem Run.runIn_bind {α β : Type} (x : Run α) (f : α → Run β) (s : Surroundings) :
    (x >>= f).run.runIn s =
      match x.run.runIn s with
      | (.ok a, v) => (f a).run.runIn v
      | (.error message, v) => (.error message, v) := by
  refine (Script.runIn_bind x.run _ s).trans ?_
  split
  · rename_i a v h
    simp only [h]
    rfl
  · rename_i message v h
    simp only [h]
    rfl

end Stacklet.CommandLine
