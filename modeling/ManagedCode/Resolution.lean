import ManagedCode.Image.Lookup

/-! # Resolution

An index of the names and owners in an image, built once when a program is loaded. Where two types share a qualified
name, the later one answers to it. What the index does not hold, members of other types above all, is looked up in
the image. -/

namespace ManagedCode

/-- What calls need to know of a method of the program. -/
structure MethodInfo where
  name : String
  owner : Token
  signature : Signature
  deriving DecidableEq, Repr

/-- Look-up tables, the latest entry of a key first. -/
structure Index where
  methods : List (Token × MethodInfo) := []
  fieldKeys : List (Token × String) := []
  typeNames : List (Token × String) := []
  typeFields : List (Token × List String) := []
  typeMethods : List (String × List Token) := []
  typesByName : List (String × Token) := []
  bases : List (Token × String) := []
  deriving DecidableEq, Repr

/-- The name under which objects hold a field: the qualified name of the type and the name of the field. -/
def fieldKey (typeName field : String) : String :=
  s!"{typeName}::{field}"

namespace Index

/-- Enters a type with its methods and fields. -/
def addType (image : Image) (index : Index) (type : Token) : Except Error Index := do
  let typeName ← image.typeName type
  let methods ← image.methodsOf type
  let infos ← methods.mapM fun m => do
    let name ← image.methodName m
    let signature ← image.methodSignature m
    return (m, { name, owner := type, signature : MethodInfo })
  let fields ← image.fieldsOf type
  let keys ← fields.mapM fun f => do
    let name ← image.fieldName f
    return (f, fieldKey typeName name)
  let base ← image.baseTypeName type
  return {
    methods := infos ++ index.methods
    fieldKeys := keys ++ index.fieldKeys
    typeNames := (type, typeName) :: index.typeNames
    typeFields := (type, keys.map Prod.snd) :: index.typeFields
    typeMethods := (typeName, methods) :: index.typeMethods
    typesByName := (typeName, type) :: index.typesByName
    bases := (base.map fun b => (type, b)).toList ++ index.bases }

def build (image : Image) : Except Error Index :=
  image.typeTokens.foldlM (addType image) {}

variable (index : Index)

def method? (token : Token) : Option MethodInfo :=
  index.methods.lookup token

def methodInfo (token : Token) : Except Error MethodInfo :=
  match index.method? token with
  | some info => .ok info
  | none => .error (.undefinedMethod token)

def ownerOf? (method : Token) : Option Token :=
  (index.method? method).map MethodInfo.owner

def typeToken? (typeName : String) : Option Token :=
  index.typesByName.lookup typeName

/-- The qualified name of a type; a type the program refers to is looked up in the image. -/
def typeName (image : Image) (type : Token) : Except Error String :=
  match index.typeNames.lookup type with
  | some name => .ok name
  | none => image.typeName type

/-- The key of a field of the program, or of a reference to one. -/
def fieldKeyOf (image : Image) (field : Token) : Except Error String :=
  match index.fieldKeys.lookup field with
  | some key => .ok key
  | none =>
      match field.table with
      | .memberRef => do
          let member ← image.memberRef field
          let typeName ← index.typeName image member.parent
          return fieldKey typeName member.name
      | _ => .error (.notAField field)

/-- The keys of the fields that a type declares, in order. -/
def fieldKeysOf (type : Token) : List String :=
  (index.typeFields.lookup type).getD []

def methodsOfType (typeName : String) : List Token :=
  (index.typeMethods.lookup typeName).getD []

/-- Whether a method has the name and the number of parameters, and a receiver if one is asked for. -/
def answersTo (name : String) (paramCount : Nat) (instanceOnly : Bool) (info : MethodInfo) : Bool :=
  info.name == name && info.signature.paramCount == paramCount && (!instanceOnly || info.signature.isInstance)

/-- The first method of a type that has the name and the number of parameters. -/
def findMethod? (typeName name : String) (paramCount : Nat) (instanceOnly : Bool) : Option Token :=
  (index.methodsOfType typeName).find? fun m => (index.method? m).any (answersTo name paramCount instanceOnly)

/-- The method a virtual call runs on an object of the given type. Base types are not searched. -/
def resolveVirtual? (runtimeType : Token) (name : String) (paramCount : Nat) : Option Token :=
  (index.typeNames.lookup runtimeType).bind fun typeName => index.findMethod? typeName name paramCount true

/-- The constructor that a token names and the type it makes an object of. -/
def resolveConstructor (image : Image) (token : Token) : Except Error (Token × Token) :=
  match token.table with
  | .methodDef =>
      match index.ownerOf? token with
      | some owner => .ok (token, owner)
      | none => .error (.undeclaredConstructor token)
  | .memberRef => do
      let member ← image.memberRef token
      if member.name ≠ ".ctor" then .error (.notAConstructor member.name)
      else if member.parent.table ≠ .typeDef then
        let typeName ← index.typeName image member.parent
        .error (.foreignConstructor typeName)
      else
        let paramCount := (member.signature.map Signature.paramCount).getD 0
        let typeName ← index.typeName image member.parent
        match index.findMethod? typeName ".ctor" paramCount false with
        | some constructor => .ok (constructor, member.parent)
        | none => .error (.constructorNotFound typeName paramCount)
  | _ => .error (.newobjTarget token)

/-! ### Base types -/

/-- How many of the program's type names have not been seen. -/
def unseen (seen : List String) : Nat :=
  index.typesByName.countP fun entry => !seen.contains entry.1

private theorem countP_lt_of_mem {α : Type} {p q : α → Bool} {a : α} {l : List α}
    (hpq : ∀ x, q x = true → p x = true) (ha : a ∈ l) (hp : p a = true) (hq : q a = false) :
    l.countP q < l.countP p := by
  induction l with
  | nil => simp at ha
  | cons b l ih =>
      have hle : l.countP q ≤ l.countP p := List.countP_mono_left fun x _ hx => hpq x hx
      rcases List.mem_cons.1 ha with rfl | ha
      · simp [hp, hq]
        omega
      · have hlt := ih ha
        rw [List.countP_cons, List.countP_cons]
        have hb : (if q b = true then 1 else 0) ≤ if p b = true then 1 else 0 := by
          by_cases hqb : q b = true
          · exact Nat.le_of_eq (by rw [if_pos hqb, if_pos (hpq b hqb)])
          · rw [if_neg hqb]
            exact Nat.zero_le _
        omega

private theorem mem_of_lookup {β : Type} {key : String} {value : β} {l : List (String × β)}
    (h : l.lookup key = some value) : (key, value) ∈ l := by
  induction l with
  | nil => simp at h
  | cons entry l ih =>
      obtain ⟨k, v⟩ := entry
      by_cases hk : key = k
      · simp_all
      · rw [List.lookup_cons, beq_eq_false_iff_ne.2 hk] at h
        exact List.mem_cons_of_mem _ (ih h)

theorem unseen_cons_lt {seen : List String} {name : String} {type : Token} (hnew : name ∉ seen)
    (h : index.typeToken? name = some type) : index.unseen (name :: seen) < index.unseen seen := by
  refine countP_lt_of_mem (fun x hx => ?_) (mem_of_lookup h) ?_ ?_
  · simp only [List.contains_cons, Bool.not_or, Bool.and_eq_true] at hx
    exact hx.2
  · simpa using hnew
  · simp

/-- The names from `name` on along the declared bases, up to the first that repeats. A name that the program does not
define continues with the types known without a program. -/
def walk (seen : List String) (name : String) : List String :=
  if hseen : name ∈ seen then []
  else
    match h : index.typeToken? name with
    | none => builtinAncestry name
    | some type =>
        have := index.unseen_cons_lt hseen h
        match index.bases.lookup type with
        | none => [name]
        | some base => name :: walk (name :: seen) base
termination_by index.unseen seen

/-- Ends a list of type names at the root type. -/
def endAtRoot (names : List String) : List String :=
  if names.getLast? = some rootTypeName then names else names ++ [rootTypeName]

/-- The names of a type and its base types up to the root. -/
def ancestry (type : Token) : List String :=
  endAtRoot <|
    match index.typeNames.lookup type with
    | none => []
    | some name =>
        match index.bases.lookup type with
        | none => [name]
        | some base => name :: index.walk [name] base

end Index
end ManagedCode
