import ManagedCode.Token

/-! # Virtual dispatch

A memo of the methods that virtual calls were resolved to, by call site and type of the receiver. A program's types
do not change while it runs, so an entry stays right. -/

namespace ManagedCode

/-- How many receiver types a call site has seen: none, one, up to four, or more. -/
inductive SiteState where
  | uninitialized
  | monomorphic
  | polymorphic
  | megamorphic
  deriving DecidableEq, Repr

/-- The greatest number of receiver types of a polymorphic site. -/
def polymorphicLimit : Nat := 4

def SiteState.ofCount (types : Nat) : SiteState :=
  if types = 0 then .uninitialized
  else if types = 1 then .monomorphic
  else if types ≤ polymorphicLimit then .polymorphic
  else .megamorphic

/-- Resolved methods by site and receiver type, the number of receiver types of each site, and counts of the look-ups
that found a method and that did not. -/
structure Dispatch where
  entries : List ((Token × Token) × Token) := []
  siteTypes : List (Token × Nat) := []
  hits : Nat := 0
  misses : Nat := 0
  deriving DecidableEq, Repr

namespace Dispatch

def find? (d : Dispatch) (site type : Token) : Option Token :=
  d.entries.lookup (site, type)

/-- Looks up an entry and counts the look-up. -/
def lookup (d : Dispatch) (site type : Token) : Dispatch × Option Token :=
  match d.find? site type with
  | some method => ({ d with hits := d.hits + 1 }, some method)
  | none => ({ d with misses := d.misses + 1 }, none)

/-- The number of receiver types recorded for a site. -/
def typeCount (d : Dispatch) (site : Token) : Nat :=
  (d.siteTypes.lookup site).getD 0

/-- The numbers of receiver types with one more for a site. -/
def countType (d : Dispatch) (site : Token) : List (Token × Nat) :=
  (site, d.typeCount site + 1) :: d.siteTypes.filter fun count => count.1 != site

/-- Records a resolved method, in place of an earlier one for the same site and type. Without an earlier one the type is
new at the site. -/
def insert (d : Dispatch) (site type method : Token) : Dispatch :=
  let others := d.entries.filter fun entry => entry.1 != (site, type)
  { d with
    entries := ((site, type), method) :: others
    siteTypes := if (d.find? site type).isSome then d.siteTypes else d.countType site }

def size (d : Dispatch) : Nat :=
  d.entries.length

def state (d : Dispatch) (site : Token) : SiteState :=
  .ofCount (d.typeCount site)

end Dispatch
end ManagedCode
