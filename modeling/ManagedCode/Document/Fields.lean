import ManagedCode.Document.Data
import ManagedCode.Error

/-! # Reading records

A record is read from a table, or from an array of its fields in order. What is wrong with a document is reported in
the order of the document: entries are checked one after the other, and only then are missing fields noticed and the
record is built. -/

namespace ManagedCode

/-- Reads a value out of document data. -/
abbrev Reader (α : Type) := Data → Except ImageFlaw α

namespace Reader

def text : Reader String
  | .text s => .ok s
  | _ => .error .unreadable

def bool : Reader Bool
  | .bool b => .ok b
  | _ => .error .unreadable

/-- A natural number below a bound. -/
def natBelow (bound : Nat) : Reader Nat
  | .int n => if 0 ≤ n ∧ n < bound then .ok n.toNat else .error .unreadable
  | _ => .error .unreadable

/-- A count: a natural number of 64 bits. -/
def count : Reader Nat := natBelow 0x10000000000000000

/-- A word of 32 bits. -/
def word : Reader UInt32 := fun d => (natBelow 0x100000000 d).map UInt32.ofNat

def token : Reader Token := fun d => (word d).map Token.mk

def list {α : Type} (item : Reader α) : Reader (List α)
  | .array items => items.mapM item
  | _ => .error .unreadable

end Reader

/-- The fields of a record: how each is checked, in their order, and how the record is built of the data found for
their names. -/
structure Fields (α : Type) where
  checks : List (String × Reader Unit)
  build : (String → Option Data) → Except ImageFlaw α

namespace Fields

variable {α : Type}

def required (name : String) (read : Reader α) : Fields α where
  checks := [(name, fun d => (read d).map fun _ => ())]
  build find :=
    match find name with
    | some d => read d
    | none => .error .unreadable

def withDefault (name : String) (read : Reader α) (default : α) : Fields α where
  checks := [(name, fun d => (read d).map fun _ => ())]
  build find :=
    match find name with
    | some d => read d
    | none => .ok default

/-- A field that may be missing or null. -/
def optional (name : String) (read : Reader α) : Fields (Option α) :=
  withDefault name (fun | .null => .ok none | d => (read d).map some) none

instance : Applicative Fields where
  pure a := { checks := [], build := fun _ => .ok a }
  seq f x :=
    { checks := f.checks ++ (x ()).checks
      build := fun find => do
        let g ← f.build find
        let a ← (x ()).build find
        return g a }

/-- Checks the entries of a table in order. A field may stand there once. Other keys are passed over, or refused if
the record is strict. -/
def checkEntries (fields : Fields α) (strict : Bool) (seen : List String) :
    List (Option String × Data) → Except ImageFlaw Unit
  | [] => .ok ()
  | (none, _) :: _ => .error .unreadable
  | (some key, value) :: rest =>
      match fields.checks.lookup key with
      | some check =>
          if seen.contains key then .error .unreadable
          else do
            check value
            fields.checkEntries strict (key :: seen) rest
      | none =>
          if strict || !value.isWhole then .error .unreadable
          else fields.checkEntries strict seen rest

def readEntries (fields : Fields α) (strict : Bool) (entries : List (Option String × Data)) :
    Except ImageFlaw α := do
  fields.checkEntries strict [] entries
  fields.build fun name => entries.lookup (some name)

/-- Checks the items of an array against the fields in order. -/
def checkItems : List (String × Reader Unit) → List Data → Except ImageFlaw Unit
  | (_, check) :: checks, item :: items => do
      check item
      checkItems checks items
  | _, _ => .ok ()

/-- Reads a record from an array; more items than fields are refused in one notation and passed over in the other. -/
def readItems (fields : Fields α) (format : Format) (items : List Data) : Except ImageFlaw α := do
  checkItems fields.checks items
  if format = .json ∧ fields.checks.length < items.length then .error .unreadable
  else fields.build fun name => ((fields.checks.map Prod.fst).zip items).lookup name

/-- Reads a record. A date counts as a table with one key that is no field. -/
def read (fields : Fields α) (format : Format) (strict : Bool) : Reader α
  | .table entries => fields.readEntries strict entries
  | .array items => fields.readItems format items
  | .date => fields.readEntries strict [(some "date", .date)]
  | _ => .error .unreadable

end Fields
end ManagedCode
