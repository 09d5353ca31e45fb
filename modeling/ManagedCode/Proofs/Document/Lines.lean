import ManagedCode.Document.Toml.Writer
import ManagedCode.Proofs.Document.Quoting
import Mathlib.Data.List.Basic
import Mathlib.Tactic.FinCases

/-! A document is read line by line as it was written. The value of a line runs to the line break that ends it, and a
header is read over the empty line before it, so each line gives back its statement whatever lines follow. -/

namespace ManagedCode.Toml

/-! ### Numbers -/

theorem toNat_of_isDigit {c : Char} (hc : c.isDigit = true) : 48 ≤ c.toNat ∧ c.toNat ≤ 57 := by
  simp only [Char.isDigit, ge_iff_le, Bool.and_eq_true, decide_eq_true_eq] at hc
  exact hc

theorem isDigit_cases {c : Char} (hc : c.isDigit = true) : c = '0' ∨ c ∈ "123456789".toList := by
  have hall : ∀ k ≤ 57, 48 ≤ k → Char.ofNat k = '0' ∨ Char.ofNat k ∈ "123456789".toList := by decide
  obtain ⟨hlow, hhigh⟩ := toNat_of_isDigit hc
  have hcases := hall c.toNat hhigh hlow
  rwa [Char.ofNat_toNat] at hcases

theorem moreDigits_line {ds : List Char} (hds : ∀ c ∈ ds, c.isDigit = true) (rest : List Char) :
    moreDigits Char.isDigit (ds ++ '\n' :: rest) = (ds, '\n' :: rest) := by
  induction ds with
  | nil => rfl
  | cons c ds ih =>
      obtain ⟨hc, hds⟩ := List.forall_mem_cons.1 hds
      rw [List.cons_append, moreDigits, if_pos hc, ih hds]
      rintro _ _ rfl
      cases hc

/-- There are no leading zeros. -/
theorem head?_toDigits {n : Nat} (hn : n ≠ 0) : (Nat.toDigits 10 n).head? ≠ some '0' := by
  induction n using Nat.strongRecOn with
  | ind n ih =>
      rcases Nat.lt_or_ge n 10 with hlt | hge
      · simp [Nat.toDigits_of_lt_base hlt, hn]
      · have hhead := ih (n / 10) (by omega) (by omega)
        rwa [Nat.toDigits_of_base_le (by decide) hge, List.head?_append_of_ne_nil _ Nat.toDigits_ne_nil]

/-- A number is written as digits, the first of which is zero for zero only. -/
theorem exists_toDigits_cons (n : Nat) : ∃ c ds, Nat.toDigits 10 n = c :: ds ∧
    (∀ d ∈ c :: ds, d.isDigit = true) ∧ (c = '0' → n = 0) := by
  obtain ⟨c, ds, heq⟩ := List.exists_cons_of_ne_nil (Nat.toDigits_ne_nil (n := n) (b := 10))
  refine ⟨c, ds, heq, ?_, ?_⟩
  · intro d hd
    rw [← heq] at hd
    exact Nat.isDigit_of_mem_toDigits (by decide) (by decide) hd
  · rintro rfl
    by_contra hn
    exact head?_toDigits hn (by rw [heq]; rfl)

theorem numberOf_toDigits (n : Nat) : numberOf 10 (Nat.toDigits 10 n) = n := by
  have hdigit : ∀ c ∈ Nat.toDigits 10 n, (Text.hexValue? c.toNat).getD 0 = c.toNat - '0'.toNat := by
    intro c hc
    have hrange := toNat_of_isDigit (Nat.isDigit_of_mem_toDigits (by decide) (by decide) hc)
    simp [Text.hexValue?, hrange]
  calc numberOf 10 (Nat.toDigits 10 n)
      = (Nat.toDigits 10 n).foldl (fun sofar c => 10 * sofar + (c.toNat - '0'.toNat)) 0 := by
        refine List.foldl_ext _ _ _ fun sofar c hc => ?_
        rw [hdigit c hc, Nat.mul_comm]
    _ = n := Nat.ofDigitChars_toDigits (by decide) (by decide)

theorem wholeDigits_toDigits (n : Nat) (rest : List Char) :
    wholeDigits (Nat.toDigits 10 n ++ '\n' :: rest) = some (Nat.toDigits 10 n, '\n' :: rest) := by
  obtain ⟨c, ds, heq, hdigits, hzero⟩ := exists_toDigits_cons n
  by_cases hn : n = 0
  · subst hn
    rfl
  · obtain ⟨hc, hds⟩ := List.forall_mem_cons.1 hdigits
    have hstart : ∀ after, c :: (ds ++ '\n' :: rest) ≠ '0' :: after :=
      fun after h => hn (hzero (List.cons.inj h).1)
    rw [heq, List.cons_append, wholeDigits.eq_2 _ hstart, digits, if_pos hc, moreDigits_line hds]

theorem decimal_toDigits {n : Nat} (hn : n < 0x8000000000000000) (rest : List Char) :
    decimal false (Nat.toDigits 10 n ++ '\n' :: rest) = some (.int n, '\n' :: rest) := by
  simp [decimal, wholeDigits_toDigits, fraction, exponent, integer?, numberOf_toDigits, hn]

/-- Digits that end their line are not followed by the sign of a date or a time. -/
theorem expect_fixedDigits {ds : List Char} (hds : ∀ c ∈ ds, c.isDigit = true) {c : Char} (hc : c = '-' ∨ c = ':')
    {n k : Nat} {rest after : List Char} (hfixed : fixedDigits n (ds ++ '\n' :: rest) = some (k, after)) :
    expect c after = none := by
  unfold fixedDigits at hfixed
  split_ifs at hfixed with hshort
  simp only [not_or, Nat.not_lt, Bool.not_eq_true', Bool.not_eq_false] at hshort
  obtain rfl : (ds ++ '\n' :: rest).drop n = after := congrArg Prod.snd (Option.some.inj hfixed)
  rcases Nat.lt_or_ge ds.length n with hlt | hle
  · -- The line break would be among the digits.
    have hmem : '\n' ∈ (ds ++ '\n' :: rest).take n := by
      obtain ⟨k, rfl⟩ := Nat.exists_eq_add_of_lt hlt
      simp [List.take_append, Nat.add_assoc]
    cases List.all_eq_true.1 hshort.2 _ hmem
  · rw [List.drop_append_of_le_length hle]
    have hdrop : ∀ d ∈ ds.drop n, d.isDigit = true := fun d hd => hds d (List.mem_of_mem_drop hd)
    cases heq : ds.drop n with
    | nil => rcases hc with rfl | rfl <;> rfl
    | cons d more =>
        have hd := hdrop d (by rw [heq]; exact List.mem_cons_self)
        have hne : d ≠ c := by
          rintro rfl
          rcases hc with rfl | rfl <;> cases hd
        exact if_neg hne

/-- Digits that end their line are no date and no time. -/
theorem moment_digits {ds : List Char} (hds : ∀ c ∈ ds, c.isDigit = true) (rest : List Char) :
    moment (ds ++ '\n' :: rest) = none := by
  have hdate : date (ds ++ '\n' :: rest) = none := by
    rw [date]
    cases hyear : fixedDigits 4 (ds ++ '\n' :: rest) with
    | none => rfl
    | some found => simp [expect_fixedDigits hds (Or.inl rfl) hyear]
  have htime : time (ds ++ '\n' :: rest) = none := by
    rw [time, hourMinute]
    cases hhour : fixedDigits 2 (ds ++ '\n' :: rest) with
    | none => rfl
    | some found => simp [expect_fixedDigits hds (Or.inr rfl) hhour]
  rw [moment, hdate, htime]

/-- What starts with a digit and is no date is a decimal number, unless a letter for another base follows a zero. -/
theorem scalar_of_isDigit {c : Char} {s : List Char} (hc : c.isDigit = true) (hzero : c = '0' → s.head? = some '\n')
    (hmoment : moment (c :: s) = none) : scalar (c :: s) = decimal false (c :: s) := by
  have hnumber : number (c :: s) = decimal false (c :: s) := by
    rcases isDigit_cases hc with rfl | hmem
    · obtain ⟨more, rfl⟩ : ∃ more, s = '\n' :: more := by
        cases s with
        | nil => cases hzero rfl
        | cons d more =>
            cases hzero rfl
            exact ⟨more, rfl⟩
      rfl
    · fin_cases hmem <;> rfl
  have hletter : c ≠ 't' ∧ c ≠ 'f' := by
    constructor
    · rintro rfl
      cases hc
    · rintro rfl
      cases hc
  rw [scalar.eq_3 _ (fun _ h => hletter.1 (List.cons.inj h).1) (fun _ h => hletter.2 (List.cons.inj h).1), hmoment,
    hnumber]

/-- **A number is read back**, up to the end of its line. -/
theorem scalar_toDigits {n : Nat} (hn : n < 0x8000000000000000) (rest : List Char) :
    scalar (Nat.toDigits 10 n ++ '\n' :: rest) = some (.int n, '\n' :: rest) := by
  have hdecimal := decimal_toDigits hn rest
  obtain ⟨c, ds, heq, hdigits, hzero⟩ := exists_toDigits_cons n
  have hmoment := moment_digits hdigits rest
  have hbreak : c = '0' → (ds ++ '\n' :: rest).head? = some '\n' := by
    intro hc
    obtain rfl := hzero hc
    cases heq
    rfl
  rw [heq, List.cons_append] at hdecimal ⊢
  rw [scalar_of_isDigit (hdigits c List.mem_cons_self) hbreak hmoment, hdecimal]

/-! ### Values -/

theorem exists_writeQuoted_cons (text : String) :
    ∃ c more, writeQuoted text = c :: more ∧ (c = '"' ∨ c = '\'') := by
  have hdelimiter : ∀ q : Quoting, ∃ c more, q.delimiter = c :: more ∧ (c = '"' ∨ c = '\'') := by
    intro q
    cases q with
    | basic => exact ⟨_, _, rfl, Or.inl rfl⟩
    | literal => exact ⟨_, _, rfl, Or.inr rfl⟩
    | basicBlock => exact ⟨_, _, rfl, Or.inl rfl⟩
    | literalBlock => exact ⟨_, _, rfl, Or.inr rfl⟩
  obtain ⟨c, more, heq, hc⟩ := hdelimiter (Quoting.ofText text.toList)
  simp only [writeQuoted, heq, List.cons_append]
  exact ⟨c, _, rfl, hc⟩

theorem value_writeQuoted (text : String) {rest : List Char} (hrest : Unquoted rest) (fuel depth : Nat) :
    value (fuel + 1) depth (writeQuoted text ++ rest) = some (.text text, rest) := by
  have hread := quoted_writeQuoted text hrest
  obtain ⟨c, more, heq, hc⟩ := exists_writeQuoted_cons text
  rw [heq, List.cons_append] at hread ⊢
  rcases hc with rfl | rfl
  · simp [value, hread]
  · simp [value, hread]

theorem skipSpace_writeQuoted (text : String) (rest : List Char) :
    skipSpace (writeQuoted text ++ rest) = writeQuoted text ++ rest := by
  obtain ⟨c, more, heq, hc⟩ := exists_writeQuoted_cons text
  rw [heq]
  rcases hc with rfl | rfl
  · simp [skipSpace]
  · simp [skipSpace]

theorem items_blank (fuel depth : Nat) (s : List Char) : items fuel depth (' ' :: s) = items fuel depth s := by
  cases fuel with
  | zero => rfl
  | succ fuel => simp [items, skipSpace]

theorem items_writeQuoted (text : String) {rest : List Char} (hrest : Unquoted rest) (fuel depth : Nat) :
    items (fuel + 2) depth (writeQuoted text ++ rest) =
      match skipSpace rest with
      | ']' :: rest => some ([.text text], rest)
      | ',' :: rest => (items (fuel + 1) depth rest).map fun (more, rest) => (.text text :: more, rest)
      | _ => none := by
  have hvalue := value_writeQuoted text hrest fuel depth
  obtain ⟨c, more, heq, hc⟩ := exists_writeQuoted_cons text
  rw [items, skipSpace_writeQuoted]
  rw [heq, List.cons_append] at hvalue ⊢
  have hopen : c ≠ ']' := by
    rintro rfl
    simp at hc
  split
  · next hbracket => exact absurd (List.cons.inj hbracket).1 hopen
  · rw [hvalue]
    simp only [Option.bind_eq_bind, Option.bind_some, Option.pure_def, Option.map_eq_bind]
    rfl

/-- **The texts of a list are read back**, one by one up to the closing bracket. -/
theorem items_texts (texts : List String) {fuel : Nat} (hfuel : texts.length < fuel) (depth : Nat) (rest : List Char) :
    items (fuel + 1) depth (", ".toList.intercalate (texts.map writeQuoted) ++ ']' :: rest) =
      some (texts.map .text, rest) := by
  induction texts generalizing fuel with
  | nil => simp [items, skipSpace]
  | cons text texts ih =>
      obtain ⟨fuel, rfl⟩ := Nat.exists_eq_add_one_of_ne_zero (Nat.ne_zero_of_lt hfuel)
      cases texts with
      | nil =>
          have hclose : Unquoted (']' :: rest) := unquoted_cons.2 (by decide)
          rw [List.map_singleton, List.intercalate_singleton, items_writeQuoted text hclose]
          simp [skipSpace]
      | cons next texts =>
          have hcomma : ∀ s, Unquoted (", ".toList ++ s) := fun s => unquoted_cons.2 (by decide)
          have hskip : ∀ s, skipSpace (", ".toList ++ s) = ',' :: ' ' :: s := fun s => by simp [skipSpace]
          have hless : (next :: texts).length < fuel := by simpa using hfuel
          rw [List.map_cons, List.map_cons, List.intercalate_cons_cons, List.append_assoc, List.append_assoc,
            ← List.map_cons, items_writeQuoted text (hcomma _), hskip]
          show (items (fuel + 1) depth (' ' :: _)).map _ = _
          rw [items_blank, ih hless]
          rfl

theorem length_le_intercalate (texts : List String) :
    texts.length ≤ (", ".toList.intercalate (texts.map writeQuoted)).length := by
  induction texts with
  | nil => exact Nat.zero_le _
  | cons text texts ih =>
      cases texts with
      | nil =>
          obtain ⟨c, more, heq, -⟩ := exists_writeQuoted_cons text
          simp [heq]
      | cons next texts =>
          rw [List.map_cons, List.map_cons, List.intercalate_cons_cons, ← List.map_cons]
          simp only [List.length_append, List.length_cons] at ih ⊢
          have hcomma : ", ".toList.length = 2 := rfl
          omega

theorem value_scalar {c : Char} (hc : c ∉ ['"', '\'', '[', '\x7b']) (fuel depth : Nat) (s : List Char) :
    value (fuel + 1) depth (c :: s) = scalar (c :: s) := by
  simp only [List.mem_cons, List.not_mem_nil, or_false, not_or] at hc
  obtain ⟨hbasic, hliteral, hlist, htable⟩ := hc
  exact value.eq_6 _ _ _ (fun _ h => hbasic (List.cons.inj h).1) (fun _ h => hliteral (List.cons.inj h).1)
    (fun _ _ h _ => hlist (List.cons.inj h).1) (fun _ _ h _ => htable (List.cons.inj h).1)

/-- A value that 64 bits hold. -/
def Literal.Fits : Literal → Prop
  | .nat n => n < 0x8000000000000000
  | _ => True

/-- **A value is read back**, up to the end of its line. -/
theorem value_render {literal : Literal} (hfits : literal.Fits) {fuel : Nat} (hfuel : literal.render.length < fuel)
    (depth : Nat) (rest : List Char) :
    value (fuel + 1) (depth + 1) (literal.render ++ '\n' :: rest) = some (literal.toData, '\n' :: rest) := by
  cases literal with
  | nat n =>
      have hread := scalar_toDigits hfits rest
      obtain ⟨c, ds, heq, hdigits, -⟩ := exists_toDigits_cons n
      have hc := hdigits c List.mem_cons_self
      simp only [Literal.render, Literal.toData]
      rw [heq, List.cons_append] at hread ⊢
      have hopen : c ∉ ['"', '\'', '[', '\x7b'] := by
        intro hmem
        fin_cases hmem <;> cases hc
      rw [value_scalar hopen, hread]
  | bool b =>
      cases b with
      | false => exact value_scalar (by decide) fuel (depth + 1) _
      | true => exact value_scalar (by decide) fuel (depth + 1) _
  | text s => exact value_writeQuoted s (unquoted_cons.2 (by decide)) fuel (depth + 1)
  | texts items =>
      have hlength := length_le_intercalate items
      simp only [Literal.render, Literal.toData, List.length_cons, List.length_append, List.length_nil] at hfuel ⊢
      obtain ⟨fuel, rfl⟩ := Nat.exists_eq_add_one_of_ne_zero (Nat.ne_zero_of_lt hfuel)
      have hless : items.length < fuel := by omega
      have hread := items_texts items hless depth ('\n' :: rest)
      simp only [List.cons_append, List.append_assoc, List.nil_append, value, hread]
      rfl

/-! ### Keys -/

/-- A key that can stand without quotes. -/
def Bare (name : String) : Prop :=
  name.toList ≠ [] ∧ ∀ c ∈ name.toList, isKeyChar c = true

instance (name : String) : Decidable (Bare name) :=
  decidable_of_iff (name.toList.isEmpty = false ∧ name.toList.all isKeyChar = true) (by simp [Bare])

/-- A character with which a key cannot go on. -/
def EndsKey (s : List Char) : Prop :=
  ∀ c ∈ s.head?, isKeyChar c = false

theorem ne_of_isKeyChar {c d : Char} (hc : isKeyChar c = true) (hd : isKeyChar d = false) : c ≠ d := by
  rintro rfl
  rw [hc] at hd
  cases hd

theorem key_append {name : String} (hname : Bare name) {rest : List Char} (hrest : EndsKey rest) :
    key (name.toList ++ rest) = some (name, rest) := by
  obtain ⟨hne, hchars⟩ := hname
  have htake : (name.toList ++ rest).takeWhile isKeyChar = name.toList := by
    rw [List.takeWhile_append_of_pos hchars]
    cases rest with
    | nil => simp
    | cons c rest => simp [hrest c rfl]
  have hkey : key (name.toList ++ rest) =
      (let taken := (name.toList ++ rest).takeWhile isKeyChar
      if taken.isEmpty then none else some (String.ofList taken, (name.toList ++ rest).drop taken.length)) := by
    obtain ⟨c, more, heq⟩ := List.exists_cons_of_ne_nil hne
    have hc := hchars c (by rw [heq]; exact List.mem_cons_self)
    have hquote : c ≠ '"' ∧ c ≠ '\'' := ⟨ne_of_isKeyChar hc rfl, ne_of_isKeyChar hc rfl⟩
    rw [heq, List.cons_append]
    exact key.eq_3 _ (fun _ h => hquote.1 (List.cons.inj h).1) (fun _ h => hquote.2 (List.cons.inj h).1)
  rw [hkey, htake]
  simp [hne]

theorem exists_toList_cons {name : String} (hname : Bare name) :
    ∃ c more, name.toList = c :: more ∧ isKeyChar c = true := by
  obtain ⟨c, more, heq⟩ := List.exists_cons_of_ne_nil hname.1
  exact ⟨c, more, heq, hname.2 c (by rw [heq]; exact List.mem_cons_self)⟩

theorem skipBlanks_cons {c : Char} (hc : isBlank c = false) (s : List Char) : skipBlanks (c :: s) = c :: s := by
  simp [skipBlanks, hc]

theorem isBlank_of_isKeyChar {c : Char} (hc : isKeyChar c = true) : isBlank c = false := by
  have hspace : c ≠ ' ' := ne_of_isKeyChar hc rfl
  have htab : c ≠ '\t' := ne_of_isKeyChar hc rfl
  simp [isBlank, hspace, htab]

theorem skipBlanks_name {name : String} (hname : Bare name) (rest : List Char) :
    skipBlanks (name.toList ++ rest) = name.toList ++ rest := by
  obtain ⟨c, more, heq, hc⟩ := exists_toList_cons hname
  rw [heq, List.cons_append, skipBlanks_cons (isBlank_of_isKeyChar hc)]

/-- **A path is read back**, before what is no part of it. -/
theorem keyPath_pathText {path : List String} (hne : path ≠ []) (hpath : ∀ name ∈ path, Bare name) {limit : Nat}
    (hlimit : path.length ≤ limit) {rest : List Char} (hrest : EndsKey rest)
    (hdot : ∀ after, skipBlanks rest ≠ '.' :: after) :
    keyPath limit (Line.pathText path ++ rest) = some (path, skipBlanks rest) := by
  induction path generalizing limit with
  | nil => exact absurd rfl hne
  | cons name path ih =>
      obtain ⟨hname, hpath⟩ := List.forall_mem_cons.1 hpath
      obtain ⟨limit, rfl⟩ := Nat.exists_eq_add_one_of_ne_zero (Nat.ne_zero_of_lt hlimit)
      cases path with
      | nil =>
          have htext : Line.pathText [name] ++ rest = name.toList ++ rest := by simp [Line.pathText]
          rw [htext, keyPath, skipBlanks_name hname, key_append hname hrest]
          simp only [Option.bind_eq_bind, Option.bind_some]
          rfl
      | cons next path =>
          have htext : Line.pathText (name :: next :: path) ++ rest =
              name.toList ++ '.' :: (Line.pathText (next :: path) ++ rest) := by
            simp [Line.pathText, List.intercalate_cons_cons]
          have hends : EndsKey ('.' :: (Line.pathText (next :: path) ++ rest)) := fun c hc => by cases hc; rfl
          have hlimit : (next :: path).length ≤ limit := by simpa using hlimit
          have htail := ih (by simp) hpath hlimit
          rw [htext, keyPath, skipBlanks_name hname, key_append hname hends]
          simp only [Option.bind_eq_bind, Option.bind_some, skipBlanks_cons (show isBlank '.' = false from rfl), htail]
          rfl

/-! ### Statements -/

theorem Literal.exists_render_cons (literal : Literal) :
    ∃ c more, literal.render = c :: more ∧ isBlank c = false := by
  cases literal with
  | nat n =>
      obtain ⟨c, more, heq, hdigits, -⟩ := exists_toDigits_cons n
      refine ⟨c, more, heq, isBlank_of_isKeyChar ?_⟩
      simp [isKeyChar, Char.isAlphanum, hdigits c List.mem_cons_self]
  | bool b => cases b with
    | false => exact ⟨_, _, rfl, rfl⟩
    | true => exact ⟨_, _, rfl, rfl⟩
  | text s =>
      obtain ⟨c, more, heq, hc⟩ := exists_writeQuoted_cons s
      refine ⟨c, more, heq, ?_⟩
      rcases hc with rfl | rfl <;> rfl
  | texts items => exact ⟨_, _, rfl, rfl⟩

/-- A line that is read as it stands: its keys are bare and its path is short. -/
def Line.Plain : Line → Prop
  | .value key literal => Bare key ∧ literal.Fits
  | .table path => path ≠ [] ∧ (∀ name ∈ path, Bare name) ∧ path.length ≤ depthLimit
  | .tables path => path ≠ [] ∧ (∀ name ∈ path, Bare name) ∧ path.length ≤ depthLimit

theorem Line.Plain.isWritable {line : Line} (hline : line.Plain) : line.isWritable = true := by
  cases line with
  | value key literal =>
      cases literal with
      | nat n => exact decide_eq_true hline.2
      | _ => rfl
  | _ => rfl

/-- A line without the line break that ends it, and without the one that a header starts with. -/
def Line.body : Line → List Char
  | .value key literal => key.toList ++ " = ".toList ++ literal.render
  | .table path => '[' :: (pathText path ++ [']'])
  | .tables path => '[' :: '[' :: (pathText path ++ [']', ']'])

theorem exists_pathText_cons {path : List String} (hne : path ≠ []) (hpath : ∀ name ∈ path, Bare name)
    (rest : List Char) : ∃ c more, Line.pathText path ++ rest = c :: more ∧ isKeyChar c = true := by
  obtain ⟨name, names, rfl⟩ := List.exists_cons_of_ne_nil hne
  obtain ⟨c, more, heq, hc⟩ := exists_toList_cons (hpath name List.mem_cons_self)
  cases names with
  | nil => exact ⟨c, more ++ rest, by simp [Line.pathText, heq], hc⟩
  | cons next names => exact ⟨c, _, by simp [Line.pathText, List.intercalate_cons_cons, heq]; rfl, hc⟩

theorem keyPath_header {path : List String} (hne : path ≠ []) (hpath : ∀ name ∈ path, Bare name)
    (hlength : path.length ≤ depthLimit) (rest : List Char) :
    keyPath depthLimit (Line.pathText path ++ ']' :: rest) = some (path, ']' :: rest) := by
  have hends : EndsKey (']' :: rest) := fun c hc => by cases hc; rfl
  have hskip : skipBlanks (']' :: rest) = ']' :: rest := skipBlanks_cons rfl rest
  rw [keyPath_pathText hne hpath hlength hends (by rw [hskip]; rintro _ ⟨⟩), hskip]

theorem statement_body {line : Line} (hline : line.Plain) (rest : List Char) :
    statement (line.body ++ '\n' :: rest) = some (line.toStatement, '\n' :: rest) := by
  cases line with
  | value key literal =>
      obtain ⟨hkey, hfits⟩ := hline
      generalize hafter : ' ' :: (literal.render ++ '\n' :: rest) = after
      have hends : EndsKey (' ' :: '=' :: after) := fun c hc => by cases hc; rfl
      have hpath : keyPath depthLimit (key.toList ++ ' ' :: '=' :: after) = some ([key], '=' :: after) := by
        have hbare : ∀ name ∈ [key], Bare name := by simpa using hkey
        have hread := keyPath_pathText (List.cons_ne_nil _ _) hbare (show 1 ≤ depthLimit by decide) hends
          (by rintro _ ⟨⟩)
        rwa [Line.pathText, List.map_singleton, List.intercalate_singleton] at hread
      have hskip : skipBlanks after = literal.render ++ '\n' :: rest := by
        obtain ⟨c, more, heq, hc⟩ := literal.exists_render_cons
        rw [← hafter, heq, List.cons_append]
        exact skipBlanks_cons hc _
      have hvalue : value (2 * after.length + 2) depthLimit (literal.render ++ '\n' :: rest) =
          some (literal.toData, '\n' :: rest) :=
        value_render hfits (by rw [← hafter]; simp; omega) 78 rest
      have htext : Line.body (.value key literal) ++ '\n' :: rest = key.toList ++ ' ' :: '=' :: after := by
        simp [Line.body, ← hafter]
      obtain ⟨c, more, heq, hc⟩ := exists_toList_cons hkey
      have hopen : c ≠ '[' := ne_of_isKeyChar hc rfl
      rw [htext]
      rw [heq, List.cons_append] at hpath ⊢
      rw [statement.eq_3 _ (fun _ h => hopen (List.cons.inj h).1) (fun _ h => hopen (List.cons.inj h).1), hpath]
      show (value (2 * after.length + 2) depthLimit (skipBlanks after)).bind _ = _
      rw [hskip, hvalue]
      rfl
  | table path =>
      obtain ⟨hne, hpath, hlength⟩ := hline
      obtain ⟨c, more, heq, hc⟩ := exists_pathText_cons hne hpath (']' :: '\n' :: rest)
      have hopen : c ≠ '[' := ne_of_isKeyChar hc rfl
      have hread := keyPath_header hne hpath hlength ('\n' :: rest)
      have htext : Line.body (.table path) ++ '\n' :: rest = '[' :: (Line.pathText path ++ ']' :: '\n' :: rest) := by
        simp [Line.body]
      rw [htext]
      rw [heq] at hread ⊢
      rw [statement.eq_2 _ fun _ h => hopen (List.cons.inj h).1, hread]
      rfl
  | tables path =>
      obtain ⟨hne, hpath, hlength⟩ := hline
      have hread := keyPath_header hne hpath hlength (']' :: '\n' :: rest)
      have htext : Line.body (.tables path) ++ '\n' :: rest =
          '[' :: '[' :: (Line.pathText path ++ ']' :: ']' :: '\n' :: rest) := by
        simp [Line.body]
      rw [htext, statement, hread]
      rfl

/-! ### Documents -/

theorem lineEnd?_break (rest : List Char) : lineEnd? ('\n' :: rest) = some rest := rfl

theorem exists_body_cons {line : Line} (hline : line.Plain) :
    ∃ c more, line.body = c :: more ∧ ∀ d, isKeyChar d = false → d ≠ '[' → c ≠ d := by
  cases line with
  | value key literal =>
      obtain ⟨c, more, heq, hc⟩ := exists_toList_cons hline.1
      refine ⟨c, more ++ (" = ".toList ++ literal.render), ?_, fun _ hd _ => ne_of_isKeyChar hc hd⟩
      simp [Line.body, heq]
  | table path => exact ⟨'[', _, rfl, fun _ _ hd => hd.symm⟩
  | tables path => exact ⟨'[', _, rfl, fun _ _ hd => hd.symm⟩

/-- A line that says something does not end where it starts. -/
theorem body_ahead {line : Line} (hline : line.Plain) (rest : List Char) :
    lineEnd? (line.body ++ rest) = none ∧ skipBlanks (line.body ++ rest) = line.body ++ rest := by
  obtain ⟨c, more, heq, hne⟩ := exists_body_cons hline
  have hblank : isBlank c = false := by
    simp [isBlank, hne ' ' rfl (by decide), hne '\t' rfl (by decide)]
  rw [heq, List.cons_append]
  have hskip := skipBlanks_cons hblank (more ++ rest)
  refine ⟨?_, hskip⟩
  rw [lineEnd?, hskip]
  split
  · next heq => exact absurd (List.cons.inj heq).1 (hne '#' rfl (by decide))
  · exact lineBreak?_eq_none ⟨hne '\n' rfl (by decide), hne '\r' rfl (by decide)⟩ _

theorem statements_body {line : Line} (hline : line.Plain) (fuel : Nat) (rest : List Char) :
    statements (fuel + 1) (line.body ++ '\n' :: rest) = (statements fuel rest).map (line.toStatement :: ·) := by
  obtain ⟨hend, hskip⟩ := body_ahead hline ('\n' :: rest)
  have hne : line.body ++ '\n' :: rest = [] → False := by simp
  rw [statements.eq_3 _ _ hne, hend, hskip, statement_body hline]
  simp only [Option.bind_eq_bind, Option.bind_some, lineEnd?_break, Option.map_eq_bind]
  rfl

theorem render_eq (line : Line) :
    line.render = line.body ++ ['\n'] ∨ line.render = '\n' :: (line.body ++ ['\n']) := by
  cases line with
  | value key literal => exact Or.inl rfl
  | table path => exact Or.inr (by simp [Line.render, Line.body])
  | tables path => exact Or.inr (by simp [Line.render, Line.body])

/-- **The lines of a document are read back** as what they say, one after the other. -/
theorem statements_render {lines : List Line} (hlines : ∀ line ∈ lines, line.Plain) {fuel : Nat}
    (hfuel : (lines.flatMap Line.render).length ≤ fuel) :
    statements fuel (lines.flatMap Line.render) = some (lines.map Line.toStatement) := by
  induction lines generalizing fuel with
  | nil => exact statements.eq_1 fuel
  | cons line lines ih =>
      obtain ⟨hline, hlines⟩ := List.forall_mem_cons.1 hlines
      rw [List.flatMap_cons, List.length_append] at hfuel
      rcases render_eq line with heq | heq
      · obtain ⟨fuel, rfl⟩ : ∃ k, fuel = k + 1 := ⟨fuel - 1, by simp [heq] at hfuel; omega⟩
        have hrest : (lines.flatMap Line.render).length ≤ fuel := by
          simp only [heq, List.length_append, List.length_singleton] at hfuel
          omega
        rw [List.flatMap_cons, heq, List.append_assoc, List.singleton_append, statements_body hline, ih hlines hrest]
        rfl
      · -- The line break before a header is an empty line of its own.
        obtain ⟨fuel, rfl⟩ : ∃ k, fuel = k + 2 := ⟨fuel - 2, by simp [heq] at hfuel; omega⟩
        have hrest : (lines.flatMap Line.render).length ≤ fuel := by
          simp only [heq, List.length_append, List.length_cons] at hfuel
          omega
        rw [List.flatMap_cons, heq, List.cons_append, List.append_assoc, List.singleton_append,
          statements.eq_3 _ _ (by simp), lineEnd?_break]
        show statements (fuel + 1) _ = _
        rw [statements_body hline, ih hlines hrest]
        rfl

theorem withoutMark_render {lines : List Line} (hlines : ∀ line ∈ lines, line.Plain) :
    withoutMark (lines.flatMap Line.render) = lines.flatMap Line.render := by
  cases lines with
  | nil => rfl
  | cons line lines =>
      obtain ⟨c, more, hbody, hne⟩ := exists_body_cons (hlines line List.mem_cons_self)
      have hmark : ∀ after, line.render ++ lines.flatMap Line.render ≠ '\uFEFF' :: after := by
        intro after hafter
        rcases render_eq line with heq | heq
        · rw [heq, hbody] at hafter
          exact hne '\uFEFF' (by decide) (by decide) (List.cons.inj hafter).1
        · rw [heq] at hafter
          exact absurd (List.cons.inj hafter).1 (by decide)
      rw [List.flatMap_cons]
      exact withoutMark.eq_2 _ fun after hafter => hmark after hafter

/-- **A written document is read back** as the tables its lines describe. -/
theorem parse_render {lines : List Line} (hlines : ∀ line ∈ lines, line.Plain) :
    parse (render lines) = (Entries.ofStatements (lines.map Line.toStatement)).map Entries.toData := by
  rw [parse, render, String.toList_ofList, withoutMark_render hlines, statements_render hlines (Nat.le_refl _)]
  simp only [Option.bind_eq_bind, Option.bind_some, Option.map_eq_bind]
  rfl

end ManagedCode.Toml
