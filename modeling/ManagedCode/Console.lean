import ManagedCode.Error
import ManagedCode.Text.Utf8

/-! # The console

Where a program's lines go. What becomes of the bytes is up to a writer, which may fail at any write, with a part of the
bytes taken, and when it is flushed. -/

namespace ManagedCode

/-- A writer, by the numbers of its states. A write and a flush lead to another state. If they fail, they say why, and
the write how many of the bytes were taken. -/
structure Writer where
  write : (state : Nat) → (bytes : List UInt8) → Nat × Option (Nat × String)
  flush : (state : Nat) → Nat × Option String

namespace Writer

/-- Takes everything. -/
def unlimited : Writer where
  write state _ := (state, none)
  flush state := (state, none)

/-- Has room for as many bytes as its state says. A write that does not fit fills the room and fails. -/
def limited : Writer where
  write room bytes :=
    if bytes.length ≤ room then (room - bytes.length, none) else (0, some (room, "output limit reached"))
  flush room := (room, none)

end Writer

/-- The bytes written so far, and the writer in its present state. -/
structure Console where
  written : Array UInt8 := #[]
  writer : Writer := .unlimited
  state : Nat := 0

namespace Console

/-- A console with room for a number of bytes, or for any if there is none. -/
def withRoom : Option Nat → Console
  | none => {}
  | some room => { writer := .limited, state := room }

/-- Gives bytes to the writer, which is not asked if there are none. -/
def write (c : Console) (bytes : List UInt8) : Console × Except Error Unit :=
  if bytes.isEmpty then (c, .ok ())
  else
    match c with
    | { written, writer, state } =>
        match writer.write state bytes with
        | (state, none) => ({ written := written.appendList bytes, writer, state }, .ok ())
        | (state, some (taken, reason)) =>
            ({ written := written.appendList (bytes.take taken), writer, state }, .error (.io reason))

/-- Writes a text and then a line feed. -/
def writeLine (c : Console) (text : String) : Console × Except Error Unit :=
  match c.write (Text.utf8 text) with
  | (c, .ok ()) => c.write (Text.utf8 "\n")
  | (c, .error e) => (c, .error e)

def flush (c : Console) : Console × Except Error Unit :=
  match c with
  | { written, writer, state } =>
      match writer.flush state with
      | (state, none) => ({ written, writer, state }, .ok ())
      | (state, some reason) => ({ written, writer, state }, .error (.io reason))

/-- What was written, as text. -/
def text (c : Console) : String :=
  Text.lossy c.written.toList

end Console
end ManagedCode
