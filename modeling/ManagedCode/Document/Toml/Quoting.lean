import ManagedCode.Text.Hex

/-! # Quoted text in TOML

Text stands between quotes in one of four styles: with escapes or as it is, and on one line or as a block that may
span several. A block ends with three quotes, before which up to two more belong to the text, and a line break right
after its opening quotes is not part of it. Here stand the reader of a quoted text and its writer, which takes the
plainest style that the text allows. -/

namespace ManagedCode.Toml

/-! ### Blanks and lines -/

def isBlank (c : Char) : Bool :=
  c == ' ' || c == '\t'

/-- Characters that stand for themselves: all but the control characters of ASCII, the tab excepted. -/
def isPlain (c : Char) : Bool :=
  c == '\t' || (0x20 ≤ c.toNat && c != '\x7f')

def skipBlanks (s : List Char) : List Char :=
  s.dropWhile isBlank

/-- The rest after a line break. -/
def lineBreak? : List Char → Option (List Char)
  | '\n' :: rest => some rest
  | '\r' :: '\n' :: rest => some rest
  | _ => none

theorem length_lt_of_lineBreak? {s rest : List Char} (h : lineBreak? s = some rest) : rest.length < s.length := by
  fun_cases lineBreak? s with
  | case1 after =>
      rw [← Option.some.inj h, List.length_cons]
      exact Nat.lt_succ_self _
  | case2 after =>
      rw [← Option.some.inj h, List.length_cons, List.length_cons]
      omega
  | case3 => simp_all [lineBreak?]

/-- What follows any blanks and line breaks. -/
def skipBreaks : List Char → List Char
  | ' ' :: rest | '\t' :: rest | '\n' :: rest => skipBreaks rest
  | '\r' :: '\n' :: rest => skipBreaks rest
  | rest => rest

theorem length_skipBreaks_le (s : List Char) : (skipBreaks s).length ≤ s.length := by
  fun_induction skipBreaks s <;> simp_all <;> omega

/-! ### Styles -/

/-- The ways to quote a text. -/
inductive Quoting where
  | basic
  | literal
  | basicBlock
  | literalBlock
  deriving DecidableEq, Repr

namespace Quoting

def quote : Quoting → Char
  | .basic | .basicBlock => '"'
  | .literal | .literalBlock => '\''

def hasEscapes : Quoting → Bool
  | .basic | .basicBlock => true
  | .literal | .literalBlock => false

def isBlock : Quoting → Bool
  | .basicBlock | .literalBlock => true
  | .basic | .literal => false

/-- The quotes at either end. -/
def delimiter (q : Quoting) : List Char :=
  List.replicate (if q.isBlock then 3 else 1) q.quote

end Quoting

/-! ### Reading -/

/-- The number that the first `n` characters stand for in hexadecimal. -/
def hexNumber : (n value : Nat) → List Char → Option (Nat × List Char)
  | 0, value, rest => some (value, rest)
  | _ + 1, _, [] => none
  | n + 1, value, c :: rest => do
      let digit ← Text.hexValue? c.toNat
      hexNumber n (value * 16 + digit) rest

/-- The character of a code given by `n` hexadecimal digits. -/
def codePoint (n : Nat) (s : List Char) : Option (Char × List Char) := do
  let (code, rest) ← hexNumber n 0 s
  if code.isValidChar then return (Char.ofNat code, rest) else none

/-- The character that an escape stands for, after the backslash. -/
def escape : List Char → Option (Char × List Char)
  | 'b' :: rest => some ('\x08', rest)
  | 't' :: rest => some ('\t', rest)
  | 'n' :: rest => some ('\n', rest)
  | 'f' :: rest => some ('\x0c', rest)
  | 'r' :: rest => some ('\r', rest)
  | '"' :: rest => some ('"', rest)
  | '\\' :: rest => some ('\\', rest)
  | 'u' :: rest => codePoint 4 rest
  | 'U' :: rest => codePoint 8 rest
  | _ => none

theorem length_le_of_hexNumber {n value code : Nat} {s rest : List Char}
    (h : hexNumber n value s = some (code, rest)) : rest.length ≤ s.length := by
  fun_induction hexNumber n value s with
  | case1 => simp_all
  | case2 => simp at h
  | case3 n value c s ih =>
      obtain ⟨digit, _, h⟩ := Option.bind_eq_some_iff.1 h
      have := ih digit h
      simp only [List.length_cons]
      omega

theorem length_le_of_codePoint {n : Nat} {c : Char} {s rest : List Char}
    (h : codePoint n s = some (c, rest)) : rest.length ≤ s.length := by
  obtain ⟨⟨code, rest'⟩, hex, h⟩ := Option.bind_eq_some_iff.1 h
  have := length_le_of_hexNumber hex
  by_cases hcode : code.isValidChar
  · simp only [hcode, ↓reduceIte, Option.pure_def, Option.some.injEq, Prod.mk.injEq] at h
    rwa [← h.2]
  · simp [hcode] at h

theorem length_lt_of_escape {c : Char} {s rest : List Char} (h : escape s = some (c, rest)) :
    rest.length < s.length := by
  fun_cases escape s with
  | case8 s => exact Nat.lt_succ_of_le (length_le_of_codePoint h)
  | case9 s => exact Nat.lt_succ_of_le (length_le_of_codePoint h)
  | _ => simp_all [escape]

/-- The next piece of a quoted text: a character, an escape, or a line break of a block, which an unescaped backslash
before it takes away together with the blank room after it. -/
def piece? (q : Quoting) : List Char → Option (List Char × List Char)
  | [] => none
  | c :: rest =>
      if c = '\\' ∧ q.hasEscapes then
        match if q.isBlock then lineBreak? (skipBlanks rest) else none with
        | some rest => some ([], skipBreaks rest)
        | none => (escape rest).map fun (c, rest) => ([c], rest)
      else if isPlain c then some ([c], rest)
      else if q.isBlock then (lineBreak? (c :: rest)).map fun rest => (['\n'], rest)
      else none

theorem length_lt_of_piece? {q : Quoting} {s rest chars : List Char} (h : piece? q s = some (chars, rest)) :
    rest.length < s.length := by
  cases s with
  | nil => simp [piece?] at h
  | cons c s =>
      simp only [piece?] at h
      split at h
      · split at h
        · rename_i rest' broken
          have lt : rest'.length < (skipBlanks s).length := by
            split at broken
            · exact length_lt_of_lineBreak? broken
            · simp at broken
          have le : (skipBlanks s).length ≤ s.length := (List.dropWhile_suffix isBlank).length_le
          have := length_skipBreaks_le rest'
          simp only [Option.some.injEq, Prod.mk.injEq] at h
          obtain ⟨_, rfl⟩ := h
          simp only [List.length_cons]
          omega
        · obtain ⟨⟨d, rest'⟩, esc, h⟩ := Option.map_eq_some_iff.1 h
          have := length_lt_of_escape esc
          simp only [Prod.mk.injEq] at h
          obtain ⟨_, rfl⟩ := h
          simp only [List.length_cons]
          omega
      · split at h
        · simp_all
        · split at h
          · obtain ⟨rest', broken, h⟩ := Option.map_eq_some_iff.1 h
            have := length_lt_of_lineBreak? broken
            simp_all
          · simp at h

/-- At the end of a quoted text: the quotes that belong to the text, and what follows the closing ones. -/
def closing? (q : Quoting) (s : List Char) : Option (List Char × List Char) :=
  let run := (s.takeWhile (· == q.quote)).length
  if q.isBlock then
    if run < 3 then none else some (List.replicate (min run 5 - 3) q.quote, s.drop (min run 5))
  else if run = 0 then none
  else some ([], s.drop 1)

/-- The characters of a quoted text after its opening quotes, and what follows its closing ones. -/
def quotedChars (q : Quoting) (s : List Char) : Option (List Char × List Char) :=
  match closing? q s with
  | some found => some found
  | none =>
      match h : piece? q s with
      | none => none
      | some (chars, rest) =>
          have := length_lt_of_piece? h
          (quotedChars q rest).map fun (more, rest) => (chars ++ more, rest)
termination_by s.length

/-- The style of a quoted text and what follows its opening quotes, and in a block the line break after them. -/
def opening? : List Char → Option (Quoting × List Char)
  | '"' :: '"' :: '"' :: rest => some (.basicBlock, (lineBreak? rest).getD rest)
  | '"' :: rest => some (.basic, rest)
  | '\'' :: '\'' :: '\'' :: rest => some (.literalBlock, (lineBreak? rest).getD rest)
  | '\'' :: rest => some (.literal, rest)
  | _ => none

/-- A text in any style. -/
def quoted (s : List Char) : Option (String × List Char) := do
  let (q, rest) ← opening? s
  let (chars, rest) ← quotedChars q rest
  return (String.ofList chars, rest)

/-- A text that stays on its line. -/
def quotedInLine (q : Quoting) (s : List Char) : Option (String × List Char) :=
  (quotedChars q s).map fun (chars, rest) => (String.ofList chars, rest)

/-! ### Writing -/

/-- Control characters other than tab and line feed. -/
def isControl (c : Char) : Bool :=
  (c.toNat < 0x20 && c != '\t' && c != '\n') || c == '\x7f'

/-- The length of the longest run of a character, where a run of `current` of them precedes. -/
def longestRun (quote : Char) (current : Nat) : List Char → Nat
  | [] => current
  | c :: rest => if c = quote then longestRun quote (current + 1) rest else max current (longestRun quote 0 rest)

/-- The style a text is written in. -/
def Quoting.ofText (s : List Char) : Quoting :=
  let control := s.any isControl
  let backslash := s.contains '\\'
  let lines := s.contains '\n'
  if !control && !backslash && !lines && longestRun '"' 0 s == 0 then .basic
  else if !control && !lines && longestRun '\'' 0 s == 0 then .literal
  else if !control && !backslash && longestRun '"' 0 s ≤ 2 then .basicBlock
  else if !control && longestRun '\'' 0 s ≤ 2 then .literalBlock
  else if lines then .basicBlock
  else .basic

/-- The escape of a character, if it has a short one. -/
def shortEscape? : Char → Option Char
  | '\x08' => some 'b'
  | '\t' => some 't'
  | '\n' => some 'n'
  | '\x0c' => some 'f'
  | '\r' => some 'r'
  | '\\' => some '\\'
  | _ => none

/-- Writes characters of a style with escapes. `quotes` quotes were written just before; one more than the style can
hold in a row is escaped. -/
def escaped (block : Bool) (quotes : Nat) : List Char → List Char
  | [] => []
  | c :: rest =>
      if c = '"' then
        if block ∧ quotes < 2 then c :: escaped block (quotes + 1) rest
        else '\\' :: c :: escaped block 0 rest
      else if c = '\n' ∧ block then c :: escaped block 0 rest
      else
        match shortEscape? c with
        | some letter => '\\' :: letter :: escaped block 0 rest
        | none =>
            if c.toNat < 0x20 ∨ c = '\x7f' then '\\' :: 'u' :: (Text.hexDigits 4 c.toNat ++ escaped block 0 rest)
            else c :: escaped block 0 rest

/-- A text between quotes. A block with line breaks starts on a line of its own. -/
def writeQuoted (text : String) : List Char :=
  let s := text.toList
  let q := Quoting.ofText s
  let start := if q.isBlock ∧ s.contains '\n' then ['\n'] else []
  q.delimiter ++ start ++ (if q.hasEscapes then escaped q.isBlock 0 s else s) ++ q.delimiter

end ManagedCode.Toml
