/-! # Visible text

The part of a text that is not addressed to the terminal it is printed on. Escape sequences and control characters
are left out; blanks that lay out the text stay. A blank may interrupt a sequence: it and the visible characters
after it are shown, and the next hidden character takes the sequence up again. -/

namespace ManagedCode.Text

/-- How far an escape sequence has been read. None has begun; its escape character has come, or that and
intermediate characters; it is a control sequence; it is a command, which a bell ends; it is the head of a device
string, which a character from `final` on ends; or it is a string, which a terminator ends. -/
inductive Escape where
  | none
  | begun
  | intermediate
  | control
  | command
  | device (final : Nat)
  | string
  deriving DecidableEq, Repr

/-- The blanks that lay out a text. -/
def isLayout (c : Char) : Bool :=
  c == '\t' || c == '\n' || c == '\x0c' || c == '\r'

/-- Whether a character outside escape sequences is seen. -/
def isVisible (c : Char) : Bool :=
  isLayout c || (0x20 ≤ c.toNat && c != '\x7f')

/-- The string terminator is a single byte, which also counts inside a longer character. -/
def holdsTerminator (c : Char) : Bool :=
  (String.utf8EncodeChar c).contains 0x9C

namespace Escape

/-- What the character after the escape character begins. -/
def ofFirst (c : Char) : Escape :=
  if c.toNat < 0x20 ∨ 0x7F ≤ c.toNat then .begun
  else if c.toNat < 0x30 then .intermediate
  else if c = '[' then .control
  else if c = ']' then .command
  else if c = 'P' then .device 0x40
  else if c = 'X' ∨ c = '^' ∨ c = '_' then .string
  else .none

/-- A character from `final` on ends a sequence; others belong to it. -/
def untilFinal (current : Escape) (final : Nat) (c : Char) : Escape :=
  if final ≤ c.toNat ∧ c.toNat < 0x7F then .none else current

/-- The head of a device string: parameters, then intermediate characters. What is out of order ends it, just as a
final character does. -/
def deviceHead (final : Nat) (c : Char) : Escape :=
  if c.toNat < 0x20 ∨ 0x7F ≤ c.toNat then .device final
  else if c.toNat < 0x30 then .device 0x30
  else if c.toNat < final then .device 0x3C
  else .string

/-- Reads a character that does not begin or cancel a sequence: where it leads, and whether it is seen. Layout is
seen in a sequence, but not in a command or a string. -/
def read (current : Escape) (c : Char) : Escape × Bool :=
  match current with
  | .none => (.none, isVisible c)
  | .begun => if isLayout c then (.begun, true) else (ofFirst c, false)
  | .intermediate => if isLayout c then (.intermediate, true) else (current.untilFinal 0x30 c, false)
  | .control => if isLayout c then (.control, true) else (current.untilFinal 0x40 c, false)
  | .command => (if c = '\x07' then .none else .command, false)
  | .device final => (deviceHead final c, false)
  | .string => (if holdsTerminator c then .none else .string, false)

/-- Reads any character. The escape character begins a sequence wherever it stands, and two others cancel one. -/
def next (current : Escape) (c : Char) : Escape × Bool :=
  if c = '\x1b' then (.begun, false)
  else if c = '\x18' ∨ c = '\x1a' then (.none, false)
  else current.read c

/-- The sequence that is still to be taken up after a character was shown: one beyond ASCII ends it. -/
def afterShown (current : Escape) (c : Char) : Escape :=
  if c.toNat < 0x80 then current else .none

end Escape

/-- The characters that are seen; `showing` says whether the one before was, in which case what is visible by itself
goes on being shown. -/
def visibleChars (current : Escape) (showing : Bool) : List Char → List Char
  | [] => []
  | c :: rest =>
      if showing && isVisible c then c :: visibleChars (current.afterShown c) true rest
      else
        let (after, seen) := current.next c
        if seen then c :: visibleChars after true rest else visibleChars after false rest

/-- A text without escape sequences and control characters. -/
def visible (text : String) : String :=
  String.ofList (visibleChars .none false text.toList)

end ManagedCode.Text
