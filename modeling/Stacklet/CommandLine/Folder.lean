/-
  Folders: files and directories around a working directory.

  A path is walked one component at a time, and each place on the way has to
  be a directory. Names and paths have a greatest length.

  * `Folder.read` reads a file, `Folder.write` writes one;
  * `Folder.holding` is a folder with given contents.
-/
import Stacklet.CommandLine.Script

namespace Stacklet.CommandLine

/-! ## Places and routes -/

/-- The components that lead to a place from the working directory: the steps
    up come first, then the names. A place below the root has the root as its
    first one. -/
abbrev Place := List String

/-- The working directory, or one that it lies in. -/
def Place.isAbove (here : Place) : Bool := here.all (· == "..")

/-- The place that a component leads to from another one. There is nothing
    above the root. -/
def Place.past (here : Place) (component : String) : Place :=
  if component == "." then here
  else if component != ".." || here.isAbove then here ++ [component]
  else if here == ["/"] then here
  else here.dropLast

/-- The file that is always empty. -/
def Place.null : Place := ["/", "dev", "null"]

/-- A path taken apart. -/
structure Route where
  start : Place
  components : List String
  /-- a slash stands at the end, so only a directory can be meant -/
  slash : Bool
  deriving DecidableEq, Repr

namespace Route

def ofPath (path : String) : Route :=
  let parts := path.splitOn "/"
  { start := if path.startsWith "/" then ["/"] else []
    components := parts.filter (· != "")
    slash := parts.getLast? == some "" }

/-- The route of a path in a request, which has at most 4095 bytes. -/
def ofRequest (path : String) : Except SystemError Route :=
  if path.utf8ByteSize ≤ 4095 then .ok (ofPath path) else .error .nameTooLong

/-- Where a route leads if everything on it is a directory. -/
def place (r : Route) : Place := r.components.foldl Place.past r.start

end Route

/-! ## Folders -/

/-- What there is. -/
structure Folder where
  /-- all directories but the working directory and those above it -/
  directories : List Place
  files : List (Place × List UInt8)
  deriving DecidableEq, Repr

namespace Folder

def hasDirectory (d : Folder) (here : Place) : Bool :=
  here.isAbove || d.directories.contains here

def file? (d : Folder) (here : Place) : Option (List UInt8) := d.files.lookup here

/-- A place has to be a directory. -/
def enter (d : Folder) (here : Place) : Except SystemError Unit :=
  if d.hasDirectory here then .ok ()
  else if (d.file? here).isSome then .error .notDirectory
  else .error .notFound

/-- The place that a component leads to from a directory. There may be nothing
    at it. A component has at most 255 bytes. -/
def step (d : Folder) (here : Place) (component : String) : Except SystemError Place := do
  d.enter here
  if component.utf8ByteSize ≤ 255 then
    return here.past component
  else
    throw .nameTooLong

/-- The place that components lead to. -/
def walk (d : Folder) (here : Place) (components : List String) : Except SystemError Place :=
  components.foldlM d.step here

/-- The bytes of the file at a path. -/
def read (d : Folder) (path : String) : Except SystemError (List UInt8) := do
  let route ← Route.ofRequest path
  let here ← d.walk route.start route.components
  if route.slash then
    d.enter here
  match d.file? here with
  | some bytes => return bytes
  | none =>
    d.enter here
    throw .isDirectory

/-- The folder with other bytes at a place. -/
def put (d : Folder) (here : Place) (bytes : List UInt8) : Folder :=
  { d with files := (here, bytes) :: d.files.filter (·.1 != here) }

theorem file?_put (d : Folder) (here there : Place) (bytes : List UInt8) :
    (d.put here bytes).file? there = if there = here then some bytes else d.file? there := by
  simp only [file?, put, List.lookup_cons]
  by_cases h : there = here
  · simp [h]
  · have hb : (there == here) = false := by simp [h]
    simp only [hb, h, ↓reduceIte]
    induction d.files with
    | nil => rfl
    | cons e es ih =>
      obtain ⟨place, content⟩ := e
      by_cases hp : place = here
      · subst hp
        simpa [List.filter_cons, List.lookup_cons, hb] using ih
      · simp only [List.filter_cons, bne_iff_ne, ne_eq, hp, not_false_eq_true, ↓reduceIte,
          List.lookup_cons]
        split
        · rfl
        · exact ih

/-- The folder with the given bytes in the file at a path. -/
def write (d : Folder) (path : String) (bytes : List UInt8) : Except SystemError Folder := do
  let route ← Route.ofRequest path
  let here ← d.walk route.start route.components.dropLast
  d.enter here
  match route.components.getLast? with
  | none => throw .isDirectory
  | some last =>
    if route.slash || last == "." || last == ".." then
      throw .isDirectory
    let target ← d.step here last
    if d.hasDirectory target then
      throw .isDirectory
    return if target == Place.null then d else d.put target bytes

/-! ## Making folders -/

/-- A place and the places on the way to it. -/
def onTheWay : Place → List Place
  | [] => []
  | c :: cs => [c] :: (onTheWay cs).map (c :: ·)

/-- The folder with the given directories and files, the directories on the
    way to them, and those that every system has. -/
def holding (directories : List String) (files : List (String × List UInt8)) : Folder where
  directories :=
    let named := directories.map fun path => (Route.ofPath path).place
    let parents := files.map fun (path, _) => (Route.ofPath path).place.dropLast
    ["/"] :: ["/", "dev"] :: ["/", "tmp"] :: (named ++ parents).flatMap onTheWay
  files :=
    (Place.null, []) :: files.map fun (path, bytes) => ((Route.ofPath path).place, bytes)

end Folder

end Stacklet.CommandLine
