/-! # Documents

The data of a document, whichever notation it is written in. A document that breaks off is kept up to there: the
place where it breaks is `malformed`, and whoever reads the document in order comes upon it after all that precedes
it. Numbers that are no integers, and dates, are kept without their value, since nothing asks for it. -/

namespace ManagedCode

/-- The notations. -/
inductive Format where
  | json
  | toml
  deriving DecidableEq, Repr

/-- Document data. Text and keys that are no Unicode text are kept without their content. -/
inductive Data where
  | null
  | bool (b : Bool)
  | int (n : Int)
  | float
  | date
  | text (s : String)
  | badText
  | array (items : List Data)
  | table (entries : List (Option String × Data))
  | malformed

namespace Data

mutual

/-- Whether the data is there to its end. -/
def isWhole : Data → Bool
  | .array items => allWhole items
  | .table entries => entriesWhole entries
  | .malformed => false
  | _ => true

def allWhole : List Data → Bool
  | [] => true
  | item :: items => item.isWhole && allWhole items

def entriesWhole : List (Option String × Data) → Bool
  | [] => true
  | (_, value) :: entries => value.isWhole && entriesWhole entries

end

end Data
end ManagedCode
