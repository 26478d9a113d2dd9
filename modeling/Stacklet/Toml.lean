/-
  TOML documents.

  A document is a table; its entries keep the order in which they were
  defined. Tables remember how they came about, because that decides who may
  add to them: a header opens a table that was only passed through before,
  dotted keys add to tables that dotted keys have made.

  * `Toml.put` defines a key, `Toml.openTable` and `Toml.openItem` are the two
    kinds of header; each fails where the key is taken.
-/
import Stacklet.Number

namespace Stacklet

/-- How a table came about. -/
inductive TableOrigin where
  /-- opened by a header -/
  | header
  /-- passed through by the header of a table inside it -/
  | passed
  /-- made by a dotted key -/
  | dotted
  deriving DecidableEq, Repr

/-- A TOML value. -/
inductive Toml where
  | string (s : String)
  | integer (n : Int)
  | float (x : Binary64)
  | boolean (b : Bool)
  /-- a date, a time or both, as written -/
  | datetime (text : String)
  | array (items : List Toml)
  /-- a table in braces, to which nothing can be added -/
  | inline (entries : List (String × Toml))
  | table (origin : TableOrigin) (entries : List (String × Toml))
  /-- the tables opened by headers in double brackets -/
  | tables (items : List (List (String × Toml)))

namespace Toml

/-- The keys of a table and their values. -/
abbrev Entries := List (String × Toml)

/-- The entries with another value for a key that is there. -/
def replace (key : String) (v : Toml) (entries : Entries) : Entries :=
  entries.map fun (k, w) => if k == key then (k, v) else (k, w)

/-- Changes the table at the end of a path by `change`, which is told how that
    table came about. Tables that are missing on the way are made, by a
    dotted key if `dotted` and by a header otherwise; a list of tables is
    entered at its last one. -/
def within (dotted : Bool) (change : TableOrigin → Entries → Option Entries) :
    TableOrigin → (path : List String) → Entries → Option Entries
  | origin, [], entries => change origin entries
  | _, key :: path, entries =>
    match entries.lookup key with
    | none =>
      let made := if dotted then TableOrigin.dotted else .passed
      (within dotted change made path []).map fun inner => entries ++ [(key, .table made inner)]
    | some (.table origin inner) =>
      if dotted && origin == .header then none
      else (within dotted change origin path inner).map fun inner =>
        replace key (.table origin inner) entries
    | some (.tables items) =>
      match items.reverse with
      | [] => none
      | last :: before =>
        (within dotted change .header path last).map fun inner =>
          replace key (.tables (inner :: before).reverse) entries
    | some _ => none

/-- Adds an entry whose key is new. -/
def define (key : String) (v : Toml) (entries : Entries) : Option Entries :=
  match entries.lookup key with
  | none => some (entries ++ [(key, v)])
  | some _ => none

/-- Defines a dotted key: the keys of `path`, and `key` behind them. -/
def put (path : List String) (key : String) (v : Toml) (entries : Entries) : Option Entries :=
  within true (fun origin inner =>
    if (origin == .dotted) == path.isEmpty then none else define key v inner) .header path entries

/-- The header of a table: a new one, or one passed through before. -/
def openTable (path : List String) (key : String) (entries : Entries) : Option Entries :=
  within false (fun _ inner =>
    match inner.lookup key with
    | none => some (inner ++ [(key, .table .header [])])
    | some (.table .passed old) => some (replace key (.table .header old) inner)
    | some _ => none) .header path entries

/-- The header of one more table in a list of tables. -/
def openItem (path : List String) (key : String) (entries : Entries) : Option Entries :=
  within false (fun _ inner =>
    match inner.lookup key with
    | none => some (inner ++ [(key, .tables [[]])])
    | some (.tables items) => some (replace key (.tables (items ++ [[]])) inner)
    | some _ => none) .header path entries

end Toml

end Stacklet
