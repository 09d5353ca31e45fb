import ManagedCode.Document.Fields
import ManagedCode.Document.Json
import ManagedCode.Document.Toml.Reader
import ManagedCode.Image.Basic

/-! # Reading images

The fields of an image and of its rows, and an image from the text of a document. -/

namespace ManagedCode

/-- The kinds by their names. -/
def RegionKind.ofName? : String → Option RegionKind
  | "catch" => some .catching
  | "finally" => some .finalizing
  | _ => none

def RegionKind.name : RegionKind → String
  | .catching => "catch"
  | .finalizing => "finally"

namespace Reader

/-- The value of a name that may stand alone: nothing. -/
def isNothing (format : Format) (d : Data) : Bool :=
  match format, d with
  | .json, .null => true
  | .toml, .array [] => true
  | .toml, .table [] => true
  | _, _ => false

/-- A kind by its name, or by its name as the only key of a table with nothing under it. -/
def regionKind (format : Format) : Reader RegionKind :=
  let named (name : String) : Except ImageFlaw RegionKind :=
    match RegionKind.ofName? name with
    | some kind => .ok kind
    | none => .error .unreadable
  fun
  | .text name => named name
  | .table [(some name, d)] => if isNothing format d then named name else .error .unreadable
  | _ => .error .unreadable

/-- The bytes of a method body. -/
def code : Reader (List UInt8)
  | .text s => (CodeText.decode s).mapError .code
  | _ => .error .unreadable

variable (format : Format)

def signature : Reader Signature :=
  Fields.read (Signature.mk
    <$> Fields.withDefault "param_count" count 0
    <*> Fields.withDefault "is_instance" bool false
    <*> Fields.withDefault "returns_void" bool false) format false

def region : Reader Region :=
  Fields.read (Region.mk
    <$> Fields.required "kind" (regionKind format)
    <*> Fields.required "try_offset" word
    <*> Fields.required "try_length" word
    <*> Fields.required "handler_offset" word
    <*> Fields.withDefault "handler_length" word 0
    <*> Fields.optional "catch_type" token) format false

def typeDef : Reader TypeDef :=
  Fields.read (TypeDef.mk
    <$> Fields.withDefault "namespace" text ""
    <*> Fields.required "name" text
    <*> Fields.optional "extends" text) format false

def typeRef : Reader TypeRef :=
  Fields.read (TypeRef.mk
    <$> Fields.withDefault "namespace" text ""
    <*> Fields.required "name" text) format false

def fieldDef : Reader FieldDef :=
  Fields.read (FieldDef.mk
    <$> Fields.required "owner" token
    <*> Fields.required "name" text) format false

def methodDef : Reader MethodDef :=
  Fields.read (MethodDef.mk
    <$> Fields.required "owner" token
    <*> Fields.required "name" text
    <*> Fields.withDefault "signature" (signature format) {}
    <*> Fields.withDefault "locals" count 0
    <*> Fields.required "code" code
    <*> Fields.withDefault "regions" (list (region format)) []) format false

def memberRef : Reader MemberRef :=
  Fields.read (MemberRef.mk
    <$> Fields.required "parent" token
    <*> Fields.required "name" text
    <*> Fields.optional "signature" (signature format)) format false

def image : Reader Image :=
  Fields.read (Image.mk
    <$> Fields.withDefault "name" text ""
    <*> Fields.required "entry_point" token
    <*> Fields.withDefault "types" (list (typeDef format)) []
    <*> Fields.withDefault "type_refs" (list (typeRef format)) []
    <*> Fields.withDefault "fields" (list (fieldDef format)) []
    <*> Fields.withDefault "methods" (list (methodDef format)) []
    <*> Fields.withDefault "member_refs" (list (memberRef format)) []
    <*> Fields.withDefault "strings" (list text) []) format false

end Reader

namespace Image

/-- The image that a JSON text describes. What follows it may only be blank, which is looked at last. -/
def ofJson (text : String) : Except ImageFlaw Image := do
  let (data, complete) := Json.parse text
  let image ← Reader.image .json data
  if complete then return image else .error .unreadable

/-- The image that a TOML text describes. -/
def ofToml (text : String) : Except ImageFlaw Image :=
  match Toml.parse text with
  | some data => Reader.image .toml data
  | none => .error .unreadable

/-- The image that a text of the given notation describes. -/
def parse (format : Format) (text : String) : Except Error Image :=
  let read :=
    match format with
    | .json => ofJson text
    | .toml => ofToml text
  read.mapError .image

end Image

/-- The notation of a file: that of its extension, which follows the last dot of a name that does not start there. -/
def Format.ofFileName (path : String) : Format :=
  let name := path.toList.reverse.takeWhile (· != '/')
  let extension := name.takeWhile (· != '.')
  if extension.reverse == "json".toList && extension.length + 1 < name.length then .json else .toml

end ManagedCode
