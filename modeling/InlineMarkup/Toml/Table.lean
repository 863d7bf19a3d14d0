import InlineMarkup.Toml.Value

/-!
# InlineMarkup.Toml.Table

How the lines of a document build its tables.  A key is given once; a table is
named by one header, and takes its place among the others there; dotted keys do
not reach into tables that headers or braces define.
-/

namespace InlineMarkup.Toml

namespace Entries

/-- Changes the value of `key`, or makes one at the end, as `change` says. -/
def alter (key : String) (change : Option Value → Option Value) : Entries → Option Entries
  | [] => (change none).map fun value => [(key, value)]
  | (other, old) :: rest =>
    if other = key then (change (some old)).map fun value => (other, value) :: rest
    else (alter key change rest).map ((other, old) :: ·)

/-- Takes a key and its value away. -/
def erase (key : String) (entries : Entries) : Entries := entries.filter fun entry => entry.1 != key

/-- Changes the table at the end of `path`, making the tables on the way with
the origin `made`.  A header may pass through any table and into the last of
an array of tables; dots pass only through tables that no header names. -/
def alterAt (made : Origin) (change : Origin → Entries → Option Entries) :
    List String → Origin → Entries → Option Entries
  | [], origin, entries => change origin entries
  | key :: path, _, entries =>
    alter key
      (fun
        | none => (alterAt made change path made []).map (.table made)
        | some (.table origin inner) =>
          if origin = .braces ∨ (made = .dots ∧ origin = .header) then none
          else (alterAt made change path origin inner).map (.table origin)
        | some (.tables (last :: earlier)) =>
          (alterAt made change path .header last).map fun last => .tables (last :: earlier)
        | some _ => none)
      entries

/-- Gives a key a value.  The key must be new, and dots must lead to a table
that dots made. -/
def assign (path : List String) (key : String) (value : Value) (entries : Entries) :
    Option Entries :=
  alterAt .dots
    (fun origin inner =>
      if (origin == .dots) == path.isEmpty then none
      else alter key (fun | none => some value | some _ => none) inner)
    path .header entries

/-- Gives keys their values, one after the other. -/
def assignAll (entries : Entries) (pairs : List (List String × String × Value)) :
    Option Entries :=
  pairs.foldlM (fun entries pair => assign pair.1 pair.2.1 pair.2.2 entries) entries

end Entries

/-- A line of a document, as far as it matters. -/
inductive Line where
  /-- A header that names a table. -/
  | table (path : List String) (key : String)
  /-- A header that adds a table to an array of tables. -/
  | tables (path : List String) (key : String)
  /-- A key with its value. -/
  | pair (path : List String) (key : String) (value : Value)

/-- The pairs that the lines start with, and the lines after them. -/
def leadingPairs : List Line → List (List String × String × Value) × List Line
  | .pair path key value :: rest =>
    let (pairs, following) := leadingPairs rest
    ((path, key, value) :: pairs, following)
  | lines => ([], lines)

theorem length_leadingPairs (lines : List Line) :
    (leadingPairs lines).2.length ≤ lines.length := by
  fun_induction leadingPairs lines with
  | case1 path key value rest pairs following _ ih => simp_all; omega
  | case2 => simp

/-- Adds the tables of a document from the first header on. -/
def addSections (entries : Entries) (lines : List Line) : Option Entries :=
  match lines with
  | [] => some entries
  | .table path key :: rest => do
    let body := leadingPairs rest
    let entries ← Entries.alterAt .path
      (fun _ inner => do
        let before ←
          match inner.lookup key with
          | none => some []
          | some (.table .path before) => some before
          | some _ => none
        let table ← Entries.assignAll before body.1
        some (Entries.erase key inner ++ [(key, .table .header table)]))
      path .header entries
    addSections entries body.2
  | .tables path key :: rest => do
    let body := leadingPairs rest
    let entries ← Entries.alterAt .path
      (fun _ inner => Entries.alter key
        (fun
          | none => (Entries.assignAll [] body.1).map fun table => .tables [table]
          | some (.tables before) =>
            (Entries.assignAll [] body.1).map fun table => .tables (table :: before)
          | some _ => none)
        inner)
      path .header entries
    addSections entries body.2
  | .pair path key value :: rest => do
    let entries ← Entries.assign path key value entries
    addSections entries rest
termination_by lines.length
decreasing_by
  all_goals
    have := length_leadingPairs rest
    simp only [List.length_cons]
    omega

/-- The entries of a document. -/
def document? (lines : List Line) : Option Entries := addSections [] lines

end InlineMarkup.Toml
