import ManagedCode.Document.Data
import ManagedCode.Document.Toml.Quoting

/-! # Numbers and dates in TOML

Each reader takes the longest text of its form and gives what follows. Integers have 64 bits. Single underscores may
stand between digits. -/

namespace ManagedCode.Toml

/-! ### Digits -/

/-- Further digits of a number. -/
def moreDigits (isDigit : Char → Bool) : List Char → List Char × List Char
  | [] => ([], [])
  | c :: rest =>
      if isDigit c then
        let (ds, rest) := moreDigits isDigit rest
        (c :: ds, rest)
      else
        match c, rest with
        | '_', d :: rest' =>
            if isDigit d then
              let (ds, rest) := moreDigits isDigit rest'
              (d :: ds, rest)
            else ([], c :: rest)
        | _, _ => ([], c :: rest)

/-- The digits of a number, at least one. -/
def digits (isDigit : Char → Bool) : List Char → Option (List Char × List Char)
  | [] => none
  | c :: rest =>
      if isDigit c then
        let (ds, rest) := moreDigits isDigit rest
        some (c :: ds, rest)
      else none

/-- Decimal digits without leading zeros. -/
def wholeDigits : List Char → Option (List Char × List Char)
  | '0' :: rest => some (['0'], rest)
  | s => digits Char.isDigit s

/-- The number that digits stand for to a base. -/
def numberOf (base : Nat) (ds : List Char) : Nat :=
  ds.foldl (fun n d => n * base + (Text.hexValue? d.toNat).getD 0) 0

/-! ### Numbers -/

/-- Whether a sign is negative, and what follows it. -/
def sign : List Char → Bool × List Char
  | '-' :: rest => (true, rest)
  | '+' :: rest => (false, rest)
  | rest => (false, rest)

/-- The integer of a sign and a size, if 64 bits hold it. -/
def integer? (negative : Bool) (n : Nat) : Option Data :=
  if negative then if n ≤ 0x8000000000000000 then some (.int (-n)) else none
  else if n < 0x8000000000000000 then some (.int n)
  else none

/-- An integer to a base other than ten, after the letters that name the base. -/
def based (base : Nat) (isDigit : Char → Bool) (s : List Char) : Option (Data × List Char) := do
  let (ds, rest) ← digits isDigit s
  let value ← integer? false (numberOf base ds)
  return (value, rest)

/-- Whether `n` · 10^`exponent` is too large for a number of double precision, also after rounding. -/
def exceedsDouble (n : Nat) (exponent : Int) : Bool :=
  let bound := Nat.pow 2 1024 - Nat.pow 2 970
  let order := (Nat.toDigits 10 n).length + exponent
  if n = 0 ∨ order < 300 then false
  else if 400 < order then true
  else if 0 ≤ exponent then bound ≤ n * Nat.pow 10 exponent.toNat
  else bound * Nat.pow 10 (-exponent).toNat ≤ n

/-- The digits after the point, none where there is no point. -/
def fraction : List Char → Option (List Char × List Char)
  | '.' :: rest => digits Char.isDigit rest
  | rest => some ([], rest)

/-- The exponent, if there is one. -/
def exponent (s : List Char) : Option (Option Int × List Char) :=
  match s with
  | 'e' :: rest | 'E' :: rest => do
      let (negative, rest) := sign rest
      let (ds, rest) ← digits Char.isDigit rest
      let size : Int := numberOf 10 ds
      return (some (if negative then -size else size), rest)
  | rest => some (none, rest)

/-- A decimal number after its sign. -/
def decimal (negative : Bool) (s : List Char) : Option (Data × List Char) := do
  let (whole, rest) ← wholeDigits s
  let (places, rest) ← fraction rest
  let (power, rest) ← exponent rest
  if places.isEmpty ∧ power.isNone then
    let value ← integer? negative (numberOf 10 whole)
    return (value, rest)
  else if !negative && exceedsDouble (numberOf 10 (whole ++ places)) (power.getD 0 - places.length) then none
  else return (.float, rest)

def isOctalDigit (c : Char) : Bool :=
  '0' ≤ c && c ≤ '7'

def isBinaryDigit (c : Char) : Bool :=
  c == '0' || c == '1'

def number (s : List Char) : Option (Data × List Char) :=
  match s with
  | '0' :: 'x' :: rest => based 16 (fun c => (Text.hexValue? c.toNat).isSome) rest
  | '0' :: 'o' :: rest => based 8 isOctalDigit rest
  | '0' :: 'b' :: rest => based 2 isBinaryDigit rest
  | s =>
      match sign s with
      | (_, 'i' :: 'n' :: 'f' :: rest) => some (.float, rest)
      | (_, 'n' :: 'a' :: 'n' :: rest) => some (.float, rest)
      | (negative, rest) => decimal negative rest

/-! ### Dates and times -/

/-- A number of exactly `n` digits. -/
def fixedDigits (n : Nat) (s : List Char) : Option (Nat × List Char) :=
  if s.length < n ∨ !(s.take n).all Char.isDigit then none
  else some (numberOf 10 (s.take n), s.drop n)

/-- The rest after a character that has to be there. -/
def expect (c : Char) : List Char → Option (List Char)
  | d :: rest => if d = c then some rest else none
  | [] => none

def isLeapYear (year : Nat) : Bool :=
  year % 4 == 0 && (year % 100 != 0 || year % 400 == 0)

def daysOf (year month : Nat) : Nat :=
  if month = 2 then if isLeapYear year then 29 else 28
  else if month ∈ [4, 6, 9, 11] then 30
  else 31

/-- The rest after a date of the calendar. -/
def date (s : List Char) : Option (List Char) := do
  let (year, rest) ← fixedDigits 4 s
  let (month, rest) ← fixedDigits 2 (← expect '-' rest)
  let (day, rest) ← fixedDigits 2 (← expect '-' rest)
  if 1 ≤ month ∧ month ≤ 12 ∧ 1 ≤ day ∧ day ≤ daysOf year month then return rest else none

/-- The rest after an hour and a minute. -/
def hourMinute (s : List Char) : Option (List Char) := do
  let (hour, rest) ← fixedDigits 2 s
  let (minute, rest) ← fixedDigits 2 (← expect ':' rest)
  if hour ≤ 23 ∧ minute ≤ 59 then return rest else none

/-- The rest after a time of day. -/
def time (s : List Char) : Option (List Char) := do
  let (second, rest) ← fixedDigits 2 (← expect ':' (← hourMinute s))
  if second ≤ 60 then
    match rest with
    | '.' :: d :: after => return if d.isDigit then after.dropWhile Char.isDigit else rest
    | rest => return rest
  else none

/-- The rest after the distance of a time zone, if there is one. -/
def zone (s : List Char) : Option (List Char) :=
  match s with
  | 'Z' :: rest | 'z' :: rest => some rest
  | '+' :: rest | '-' :: rest => hourMinute rest
  | rest => some rest

/-- The rest after a date, a time of day, or both. -/
def moment (s : List Char) : Option (List Char) :=
  match date s with
  | none => time s
  | some rest =>
      match rest with
      | c :: after =>
          if c = 'T' ∨ c = 't' ∨ c = ' ' then
            match time after with
            | some after => zone after
            | none => some rest
          else some rest
      | [] => some rest

/-- A number, a date or a truth value. -/
def scalar (s : List Char) : Option (Data × List Char) :=
  match s with
  | 't' :: 'r' :: 'u' :: 'e' :: rest => some (.bool true, rest)
  | 'f' :: 'a' :: 'l' :: 's' :: 'e' :: rest => some (.bool false, rest)
  | s =>
      match moment s with
      | some rest => some (.date, rest)
      | none => number s

end ManagedCode.Toml
