import ManagedCode.Config
import ManagedCode.FileTree
import ManagedCode.Image.Read
import ManagedCode.Program

/-! # Programs and configurations in files

Files are seen as a function from paths to texts. The extension of a program's file says how it is written; a
configuration is always TOML, and a key it does not know is an error. -/

namespace ManagedCode

/-- The texts of files by path, or why there is none. -/
abbrev Files := String → Except FileError String

/-- The fields of a configuration. -/
def Reader.config : Reader Config :=
  let known : Config := {}
  Fields.read ((fun maxCallDepth gcEnabled gcStats verifyBodies =>
      { maxCallDepth, gcEnabled, gcStats, verifyBodies : Config })
    <$> Fields.withDefault "max_call_depth" count known.maxCallDepth
    <*> Fields.withDefault "gc_enabled" bool known.gcEnabled
    <*> Fields.withDefault "gc_stats" bool known.gcStats
    <*> Fields.withDefault "verify_bodies" bool known.verifyBodies) .toml true

/-- The configuration that a TOML text describes. -/
def Config.parse (text : String) : Except Error Config :=
  match Toml.parse text with
  | some data => (Reader.config data).mapError fun _ => .image .unreadableConfig
  | none => .error (.image .unreadableConfig)

/-- The program that a text of the given notation describes. -/
def Program.parse (format : Format) (text : String) : Except Error Program := do
  let image ← Image.parse format text
  load image

namespace Files

def text (files : Files) (name : String) : Except Error String :=
  (files name).mapError fun cause => .io cause.message

def program (files : Files) (name : String) : Except Error Program := do
  let text ← files.text name
  Program.parse (.ofFileName name) text

def config (files : Files) (name : String) : Except Error Config := do
  let text ← files.text name
  Config.parse text

end Files
end ManagedCode
