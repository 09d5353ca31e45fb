import ManagedCode.Document.Toml.Writer
import ManagedCode.Image.Read

/-! # Writing images

An image as the lines of a TOML document. Values come first, among them tables without rows, as empty lists; then
each row of the other tables under a header of its own. Fields that are missing or empty by default are left out where
a row can do without them. -/

namespace ManagedCode

open Toml (Line Literal)

/-- The lines of a table: an empty list, or nothing yet. -/
def emptyLine {α : Type} (key : String) (rows : List α) : List Line :=
  if rows.isEmpty then [.value key (.texts [])] else []

def Signature.lines (s : Signature) : List Line :=
  [.value "param_count" (.nat s.paramCount), .value "is_instance" (.bool s.isInstance),
    .value "returns_void" (.bool s.returnsVoid)]

/-- The line of a field that may be missing. -/
def optionalLine {α : Type} (key : String) (literal : α → Literal) : Option α → List Line
  | some a => [.value key (literal a)]
  | none => []

def Token.literal (t : Token) : Literal :=
  .nat t.value.toNat

def Region.lines (r : Region) : List Line :=
  [.value "kind" (.text r.kind.name), .value "try_offset" (.nat r.tryOffset.toNat),
    .value "try_length" (.nat r.tryLength.toNat), .value "handler_offset" (.nat r.handlerOffset.toNat),
    .value "handler_length" (.nat r.handlerLength.toNat)] ++
    optionalLine "catch_type" Token.literal r.catchType

def TypeDef.lines (t : TypeDef) : List Line :=
  [.tables ["types"], .value "namespace" (.text t.space), .value "name" (.text t.name)] ++
    optionalLine "extends" .text t.base

def TypeRef.lines (t : TypeRef) : List Line :=
  [.tables ["type_refs"], .value "namespace" (.text t.space), .value "name" (.text t.name)]

def FieldDef.lines (f : FieldDef) : List Line :=
  [.tables ["fields"], .value "owner" f.owner.literal, .value "name" (.text f.name)]

def MethodDef.lines (m : MethodDef) : List Line :=
  [.tables ["methods"], .value "owner" m.owner.literal, .value "name" (.text m.name),
    .value "locals" (.nat m.locals), .value "code" (.text (CodeText.encode m.code)),
    .table ["methods", "signature"]] ++ m.signature.lines ++
    m.regions.flatMap fun r => .tables ["methods", "regions"] :: r.lines

def MemberRef.lines (r : MemberRef) : List Line :=
  [.tables ["member_refs"], .value "parent" r.parent.literal, .value "name" (.text r.name)] ++
    match r.signature with
    | some signature => .table ["member_refs", "signature"] :: signature.lines
    | none => []

namespace Image

def lines (image : Image) : List Line :=
  [.value "name" (.text image.name), .value "entry_point" image.entryPoint.literal] ++
    emptyLine "types" image.types ++ emptyLine "type_refs" image.typeRefs ++ emptyLine "fields" image.fields ++
    emptyLine "methods" image.methods ++ emptyLine "member_refs" image.memberRefs ++
    [.value "strings" (.texts image.strings)] ++
    image.types.flatMap TypeDef.lines ++ image.typeRefs.flatMap TypeRef.lines ++
    image.fields.flatMap FieldDef.lines ++ image.methods.flatMap MethodDef.lines ++
    image.memberRefs.flatMap MemberRef.lines

/-- The TOML text of an image. Numbers of 64 bits with the highest one set have none. -/
def toToml (image : Image) : Except Error String :=
  match image.lines.find? fun line => !line.isWritable with
  | some line => .error (.image (.numberTooLarge line.number))
  | none => .ok (Toml.render image.lines)

end Image
end ManagedCode
