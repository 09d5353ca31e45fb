import ManagedCode.Document.Data

/-! # The tables of a TOML document

A document is a list of sections, each with the header that says which table it fills. Tables come to be in three
ways, which decide what may be added to them later: a header states a table once, keys on the way to it imply theirs,
and dotted keys make tables that only dotted keys extend. -/

namespace ManagedCode.Toml

/-- How a table came to be. -/
inductive Origin where
  | stated
  | implied
  | dotted
  deriving DecidableEq, Repr

/-- A place in a document: a value, a table, or a list of tables. -/
inductive Node where
  | leaf (value : Data)
  | table (origin : Origin) (entries : List (String × Node))
  | tables (items : List (List (String × Node)))

/-- The entries of a table, in the order they were first named. -/
abbrev Entries := List (String × Node)

namespace Entries

/-- Changes the node of a key in its place; a missing one goes to the end. -/
def alter (key : String) (change : Option Node → Option Node) : Entries → Option Entries
  | [] => (change none).map fun node => [(key, node)]
  | (k, node) :: rest =>
      if k = key then (change (some node)).map fun node => (k, node) :: rest
      else (alter key change rest).map ((k, node) :: ·)

/-- Changes the table at a path below a table. Tables that are missing on the way are made; of a list of tables the
last is meant. Dotted keys do not pass through a table that a header states. -/
def within (dotted : Bool) (change : Origin → Entries → Option Entries) :
    List String → Origin → Entries → Option Entries
  | [], origin, entries => change origin entries
  | key :: path, _, entries =>
      alter key
        (fun
          | none =>
              let origin : Origin := if dotted then .dotted else .implied
              (within dotted change path origin []).map (.table origin)
          | some (.leaf _) => none
          | some (.table origin entries) =>
              if dotted ∧ origin = .stated then none
              else (within dotted change path origin entries).map (.table origin)
          | some (.tables items) =>
              match items.getLast? with
              | some last => (within dotted change path .stated last).map fun last => .tables (items.dropLast ++ [last])
              | none => none)
        entries

/-- Adds a value under a path of keys, the last of which is its name. A dotted path ends in a table made by dotted
keys, a single key in the table itself. -/
def addValue (entries : Entries) (path : List String) (value : Data) : Option Entries :=
  match path.getLast? with
  | none => none
  | some key =>
      within true
        (fun origin entries =>
          if (origin == .dotted) == path.dropLast.isEmpty then none
          else if (entries.lookup key).isSome then none
          else some (entries ++ [(key, .leaf value)]))
        path.dropLast .stated entries

def addValues (entries : Entries) (values : List (List String × Data)) : Option Entries :=
  values.foldlM (fun entries (path, value) => entries.addValue path value) entries

/-- States the table at a path. A table that is implied so far keeps its entries and moves to the end. -/
def addTable (entries : Entries) (path : List String) (values : List (List String × Data)) : Option Entries :=
  match path.getLast? with
  | none => none
  | some key =>
      within false
        (fun _ entries =>
          match entries.lookup key with
          | none => do
              let filled ← addValues [] values
              return entries ++ [(key, .table .stated filled)]
          | some (.table .implied known) => do
              let filled ← addValues known values
              return entries.filter (fun (k, _) => k != key) ++ [(key, .table .stated filled)]
          | some _ => none)
        path.dropLast .stated entries

/-- Adds a table to the list of tables at a path. -/
def addToTables (entries : Entries) (path : List String) (values : List (List String × Data)) : Option Entries :=
  match path.getLast? with
  | none => none
  | some key =>
      within false
        (fun _ entries =>
          alter key
            (fun
              | none => do
                  let filled ← addValues [] values
                  return .tables [filled]
              | some (.tables items) => do
                  let filled ← addValues [] values
                  return .tables (items ++ [filled])
              | some _ => none)
            entries)
        path.dropLast .stated entries

end Entries

/-! ### Statements -/

/-- A line of a document that says something. -/
inductive Statement where
  | value (path : List String) (value : Data)
  | table (path : List String)
  | tables (path : List String)

/-- The table or list of tables a section fills, and the values in it. -/
inductive Section where
  | table (path : List String) (values : List (List String × Data))
  | tables (path : List String) (values : List (List String × Data))

/-- The values before the first header, and the sections. -/
def sections : List Statement → List (List String × Data) × List Section
  | [] => ([], [])
  | .value path value :: rest =>
      let (values, after) := sections rest
      ((path, value) :: values, after)
  | .table path :: rest =>
      let (values, after) := sections rest
      ([], .table path values :: after)
  | .tables path :: rest =>
      let (values, after) := sections rest
      ([], .tables path values :: after)

def Entries.addSection (entries : Entries) : Section → Option Entries
  | .table path values => entries.addTable path values
  | .tables path values => entries.addToTables path values

/-- The tables that the statements of a document describe together. -/
def Entries.ofStatements (statements : List Statement) : Option Entries := do
  let (values, after) := sections statements
  let entries ← addValues [] values
  after.foldlM Entries.addSection entries

/-! ### Data -/

mutual

/-- The data at a place. -/
def Node.toData : Node → Data
  | .leaf value => value
  | .table _ entries => .table (entriesData entries)
  | .tables items => .array (itemsData items)

def entriesData : List (String × Node) → List (Option String × Data)
  | [] => []
  | (key, node) :: rest => (some key, node.toData) :: entriesData rest

def itemsData : List (List (String × Node)) → List Data
  | [] => []
  | entries :: rest => .table (entriesData entries) :: itemsData rest

end

/-- The data of a table. -/
def Entries.toData (entries : Entries) : Data :=
  .table (entriesData entries)

end ManagedCode.Toml
