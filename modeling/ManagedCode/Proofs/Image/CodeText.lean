import ManagedCode.Image.CodeText
import Mathlib.Data.List.Basic
import Mathlib.Tactic.SplitIfs

/-! The text of a method body is read as the bytes that its pairs stand for, with the blanks dropped, and is read back
as the bytes it was written for: each byte leaves a pair of digits that stands for it. -/

namespace ManagedCode.CodeText

/-- The digits of a byte, as bytes of text. -/
def digitsOf (b : UInt8) : List UInt8 :=
  (Text.hexDigits 2 b.toNat).flatMap String.utf8EncodeChar

theorem exists_digitsOf (b : UInt8) : ∃ high low, digitsOf b = [high, low] ∧
    isBlank high = false ∧ isBlank low = false ∧ pairValue? high low = some b := by
  have hall : ∀ n < 256, (digitsOf (UInt8.ofNat n)).length = 2 ∧ (digitsOf (UInt8.ofNat n)).any isBlank = false ∧
      pairValue? ((digitsOf (UInt8.ofNat n)).headD 0) ((digitsOf (UInt8.ofNat n)).getLastD 0) =
        some (UInt8.ofNat n) := by
    decide +kernel
  obtain ⟨hlength, hblank, hvalue⟩ := hall b.toNat (UInt8.toNat_lt b)
  rw [UInt8.ofNat_toNat] at hlength hblank hvalue
  obtain ⟨high, low, heq⟩ := List.length_eq_two.1 hlength
  rw [heq] at hblank hvalue
  simp only [List.any_cons, List.any_nil, Bool.or_false, Bool.or_eq_false_iff] at hblank
  exact ⟨high, low, heq, hblank.1, hblank.2, hvalue⟩

theorem utf8_encode (code : List UInt8) : Text.utf8 (encode code) =
    ([' '].intercalate (code.map fun b => Text.hexDigits 2 b.toNat)).flatMap String.utf8EncodeChar := by
  simp [Text.utf8, encode, Text.hex, String.toList_intercalate, Function.comp_def]

/-- Without its blanks, the text of a body is the digits of its bytes. -/
theorem filter_utf8_encode (code : List UInt8) :
    (Text.utf8 (encode code)).filter (fun c => !isBlank c) = code.flatMap digitsOf := by
  have hdigits : ∀ b, (digitsOf b).filter (fun c => !isBlank c) = digitsOf b := by
    intro b
    obtain ⟨high, low, heq, hhigh, hlow, -⟩ := exists_digitsOf b
    simp [heq, hhigh, hlow]
  have hblank : (String.utf8EncodeChar ' ').filter (fun c => !isBlank c) = [] := rfl
  rw [utf8_encode]
  induction code with
  | nil => rfl
  | cons b code ih =>
      cases code with
      | nil =>
          rw [List.map_singleton, List.intercalate_singleton, List.flatMap_singleton]
          exact hdigits b
      | cons next code =>
          rw [List.map_cons] at ih
          rw [List.map_cons, List.map_cons, List.intercalate_cons_cons, List.flatMap_append, List.flatMap_append,
            List.filter_append, List.filter_append, List.flatMap_singleton, hblank, ih, List.append_nil,
            List.flatMap_cons]
          exact congrArg (· ++ (next :: code).flatMap digitsOf) (hdigits b)

theorem readPairs_digitsOf (code : List UInt8) : readPairs (code.flatMap digitsOf) = .ok code := by
  induction code with
  | nil => rfl
  | cons b code ih =>
      obtain ⟨high, low, heq, -, -, hvalue⟩ := exists_digitsOf b
      simp only [List.flatMap_cons, heq, List.cons_append, List.nil_append, readPairs, hvalue, ih]
      rfl

/-- **The text of a body is read back** as its bytes. -/
theorem decode_encode (code : List UInt8) : decode (encode code) = .ok code := by
  have heven : (code.flatMap digitsOf).length % 2 = 0 := by
    induction code with
    | nil => rfl
    | cons b code ih =>
        obtain ⟨high, low, heq, -⟩ := exists_digitsOf b
        simp only [List.flatMap_cons, heq, List.length_append, List.length_cons, List.length_nil]
        omega
  simp only [decode, filter_utf8_encode, if_pos heven, readPairs_digitsOf]

/-! ### Pairs -/

/-- The value of a hexadecimal digit of either case. -/
inductive IsDigit : UInt8 → Nat → Prop where
  | decimal {n : Nat} (h : n < 10) : IsDigit (UInt8.ofNat (0x30 + n)) n
  | upper {n : Nat} (h : n < 6) : IsDigit (UInt8.ofNat (0x41 + n)) (10 + n)
  | lower {n : Nat} (h : n < 6) : IsDigit (UInt8.ofNat (0x61 + n)) (10 + n)

/-- Two bytes of text that stand for a byte: two digits, or a plus sign and one digit. -/
inductive IsPair : UInt8 → UInt8 → UInt8 → Prop where
  | digits {a b : UInt8} {high low : Nat} (ha : IsDigit a high) (hb : IsDigit b low) :
      IsPair a b (UInt8.ofNat (high * 16 + low))
  | plus {b : UInt8} {low : Nat} (hb : IsDigit b low) : IsPair 0x2B b (UInt8.ofNat low)

/-- Text that is a pair for each byte, in order. -/
inductive Spells : List UInt8 → List UInt8 → Prop where
  | nil : Spells [] []
  | cons {a b byte : UInt8} {digits code : List UInt8} (hpair : IsPair a b byte) (hrest : Spells digits code) :
      Spells (a :: b :: digits) (byte :: code)

/-- Text that is pairs up to two bytes that are none, which are named with what is no character replaced. -/
inductive BreaksOff : List UInt8 → String → Prop where
  | here {a b : UInt8} (rest : List UInt8) (hnone : ∀ byte, ¬IsPair a b byte) :
      BreaksOff (a :: b :: rest) (Text.lossy [a, b])
  | later {a b byte : UInt8} {rest : List UInt8} {name : String} (hpair : IsPair a b byte)
      (hrest : BreaksOff rest name) : BreaksOff (a :: b :: rest) name

theorem eq_ofNat {b : UInt8} {n : Nat} (h : b.toNat = n) : b = UInt8.ofNat n := by
  rw [← h, UInt8.ofNat_toNat]

theorem hexValue?_eq_some_iff {b : UInt8} {n : Nat} : Text.hexValue? b.toNat = some n ↔ IsDigit b n := by
  constructor
  · intro h
    unfold Text.hexValue? at h
    split_ifs at h with hdecimal hupper hlower
    · have hn := Option.some.inj h
      rw [eq_ofNat (show b.toNat = 0x30 + n by omega)]
      exact .decimal (by omega)
    · obtain ⟨k, rfl⟩ : ∃ k, n = 10 + k := ⟨b.toNat - 65, by have := Option.some.inj h; omega⟩
      have hn := Option.some.inj h
      rw [eq_ofNat (show b.toNat = 0x41 + k by omega)]
      exact .upper (by omega)
    · obtain ⟨k, rfl⟩ : ∃ k, n = 10 + k := ⟨b.toNat - 97, by have := Option.some.inj h; omega⟩
      have hn := Option.some.inj h
      rw [eq_ofNat (show b.toNat = 0x61 + k by omega)]
      exact .lower (by omega)
  · intro h
    have hcode : ∀ {k : Nat}, k < 256 → (UInt8.ofNat k).toNat = k := fun hk => UInt8.toNat_ofNat_of_lt' hk
    unfold Text.hexValue?
    cases h with
    | decimal hn =>
        rw [hcode (by omega), if_pos (by omega)]
        exact congrArg some (by omega)
    | upper hn =>
        rw [hcode (by omega), if_neg (by omega), if_pos (by omega)]
        exact congrArg some (by omega)
    | lower hn =>
        rw [hcode (by omega), if_neg (by omega), if_neg (by omega), if_pos (by omega)]
        exact congrArg some (by omega)

theorem pairValue?_eq_some_iff {a b byte : UInt8} : pairValue? a b = some byte ↔ IsPair a b byte := by
  have hplus : ∀ n, ¬IsDigit 0x2B n := by
    intro n hdigit
    rw [← hexValue?_eq_some_iff] at hdigit
    cases hdigit
  unfold pairValue?
  constructor
  · intro h
    split_ifs at h with hsign
    · obtain ⟨low, hlow, rfl⟩ := Option.map_eq_some_iff.1 h
      exact hsign ▸ .plus (hexValue?_eq_some_iff.1 hlow)
    · split at h
      · next high low hhigh hlow =>
        obtain rfl := Option.some.inj h
        exact .digits (hexValue?_eq_some_iff.1 hhigh) (hexValue?_eq_some_iff.1 hlow)
      · cases h
  · intro h
    cases h with
    | digits ha hb =>
        rw [if_neg fun hsign => hplus _ (hsign ▸ ha), hexValue?_eq_some_iff.2 ha, hexValue?_eq_some_iff.2 hb]
    | plus hb =>
        rw [if_pos rfl, hexValue?_eq_some_iff.2 hb]
        rfl

theorem pairValue?_eq_none_iff {a b : UInt8} : pairValue? a b = none ↔ ∀ byte, ¬IsPair a b byte := by
  simp only [Option.eq_none_iff_forall_ne_some, Ne, pairValue?_eq_some_iff]

/-! ### Reading -/

theorem readPairs_pair {a b byte : UInt8} (hpair : IsPair a b byte) (rest : List UInt8) :
    readPairs (a :: b :: rest) = (readPairs rest).map (byte :: ·) := by
  rw [readPairs, pairValue?_eq_some_iff.2 hpair]

theorem readPairs_none {a b : UInt8} (hnone : ∀ byte, ¬IsPair a b byte) (rest : List UInt8) :
    readPairs (a :: b :: rest) = .error (.badPair (Text.lossy [a, b])) := by
  rw [readPairs, pairValue?_eq_none_iff.2 hnone]

/-- Text of an even length spells a code or breaks off, and is read so. -/
theorem readPairs_cases (digits : List UInt8) (heven : digits.length % 2 = 0) :
    (∃ code, Spells digits code ∧ readPairs digits = .ok code) ∨
      ∃ name, BreaksOff digits name ∧ readPairs digits = .error (.badPair name) := by
  fun_induction readPairs digits with
  | case1 a b rest byte hvalue ih =>
      have hpair := pairValue?_eq_some_iff.1 hvalue
      have hrest : rest.length % 2 = 0 := by
        rw [List.length_cons, List.length_cons] at heven
        omega
      rcases ih hrest with ⟨code, hcode, hread⟩ | ⟨name, hname, hread⟩
      · exact .inl ⟨byte :: code, .cons hpair hcode, by rw [hread]; rfl⟩
      · exact .inr ⟨name, .later hpair hname, by rw [hread]; rfl⟩
  | case2 a b rest hvalue =>
      exact .inr ⟨_, .here rest (pairValue?_eq_none_iff.1 hvalue), rfl⟩
  | case3 digits hshort =>
      match digits, hshort with
      | [], _ => exact .inl ⟨[], .nil, rfl⟩
      | [a], _ => simp at heven
      | a :: b :: rest, hshort => exact absurd rfl (hshort a b rest)

theorem Spells.readPairs {digits code : List UInt8} (h : Spells digits code) : readPairs digits = .ok code := by
  induction h with
  | nil => rfl
  | cons hpair _ ih =>
      rw [readPairs_pair hpair, ih]
      rfl

theorem BreaksOff.readPairs {digits : List UInt8} {name : String} (h : BreaksOff digits name) :
    readPairs digits = .error (.badPair name) := by
  induction h with
  | here rest hnone => exact readPairs_none hnone rest
  | later hpair _ ih =>
      rw [readPairs_pair hpair, ih]
      rfl

theorem Spells.even {digits code : List UInt8} (h : Spells digits code) : digits.length % 2 = 0 := by
  induction h with
  | nil => rfl
  | cons _ _ ih =>
      rw [List.length_cons, List.length_cons]
      omega

/-- The bytes of a text without its blanks. -/
def digitsIn (text : String) : List UInt8 :=
  (Text.utf8 text).filter fun b => !isBlank b

theorem decode_of_even {text : String} (h : (digitsIn text).length % 2 = 0) : decode text = readPairs (digitsIn text) :=
  if_pos h

theorem decode_of_odd {text : String} (h : (digitsIn text).length % 2 = 1) : decode text = .error .oddDigits :=
  if_neg fun heven => by
    rw [digitsIn, heven] at h
    cases h

/-- The three ways in which a text is read. -/
theorem decode_cases (text : String) :
    (∃ code, Spells (digitsIn text) code ∧ decode text = .ok code) ∨
      ((digitsIn text).length % 2 = 1 ∧ decode text = .error .oddDigits) ∨
      ∃ name, (digitsIn text).length % 2 = 0 ∧ BreaksOff (digitsIn text) name ∧
        decode text = .error (.badPair name) := by
  rcases Nat.mod_two_eq_zero_or_one (digitsIn text).length with heven | hodd
  · rw [decode_of_even heven]
    rcases readPairs_cases _ heven with h | ⟨name, hname, hread⟩
    · exact .inl h
    · exact .inr (.inr ⟨name, heven, hname, hread⟩)
  · exact .inr (.inl ⟨hodd, decode_of_odd hodd⟩)

/-! ### Blanks -/

/-- A character that is dropped. -/
def isBlankChar (c : Char) : Bool :=
  c == '\t' || c == '\n' || c == '\x0c' || c == '\r' || c == ' '

/-- The characters of a text that are no blanks. -/
def visible (text : String) : List Char :=
  text.toList.filter fun c => !isBlankChar c

theorem isBlank_of_le {n : Nat} (hlow : 0x80 ≤ n) (hhigh : n < 0x100) : isBlank (UInt8.ofNat n) = false := by
  have hne : ∀ k < 0x80, UInt8.ofNat n ≠ UInt8.ofNat k := by
    intro k hk heq
    have hcodes := congrArg UInt8.toNat heq
    rw [UInt8.toNat_ofNat_of_lt' hhigh, UInt8.toNat_ofNat_of_lt' (Nat.lt_trans hk (by decide))] at hcodes
    omega
  simp only [isBlank, Bool.or_eq_false_iff, beq_eq_false_iff_ne]
  exact ⟨⟨⟨⟨hne 0x09 (by decide), hne 0x0A (by decide)⟩, hne 0x0C (by decide)⟩, hne 0x0D (by decide)⟩,
    hne 0x20 (by decide)⟩

theorem isBlank_ascii {c : Char} (h : c.val.toNat ≤ 127) : isBlank (UInt8.ofNat c.val.toNat) = isBlankChar c := by
  have hall : ∀ n ≤ 127, isBlank (UInt8.ofNat n) = isBlankChar (Char.ofNat n) := by decide
  rw [hall _ h]
  exact congrArg isBlankChar c.ofNat_toNat

theorem isBlankChar_of_lt {c : Char} (h : 127 < c.val.toNat) : isBlankChar c = false := by
  have hne : ∀ d : Char, d.val.toNat ≤ 127 → c ≠ d := by
    rintro d hd rfl
    omega
  simp only [isBlankChar, Bool.or_eq_false_iff, beq_eq_false_iff_ne]
  exact ⟨⟨⟨⟨hne _ (by decide), hne _ (by decide)⟩, hne _ (by decide)⟩, hne _ (by decide)⟩, hne _ (by decide)⟩

theorem isBlank_of_mem {c : Char} (h : 127 < c.val.toNat) : ∀ b ∈ String.utf8EncodeChar c, isBlank b = false := by
  unfold String.utf8EncodeChar
  dsimp only
  rw [if_neg (Nat.not_le_of_lt h)]
  split_ifs <;> simp only [List.forall_mem_cons, List.not_mem_nil, false_imp_iff, implies_true, and_true]
  · exact ⟨isBlank_of_le (by omega) (by omega), isBlank_of_le (by omega) (by omega)⟩
  · exact ⟨isBlank_of_le (by omega) (by omega), isBlank_of_le (by omega) (by omega),
      isBlank_of_le (by omega) (by omega)⟩
  · exact ⟨isBlank_of_le (by omega) (by omega), isBlank_of_le (by omega) (by omega),
      isBlank_of_le (by omega) (by omega), isBlank_of_le (by omega) (by omega)⟩

/-- The bytes of a character are all blank or all not, as the character is. -/
theorem filter_utf8EncodeChar (c : Char) : (String.utf8EncodeChar c).filter (fun b => !isBlank b) =
    if isBlankChar c then [] else String.utf8EncodeChar c := by
  by_cases hascii : c.val.toNat ≤ 127
  · have hbytes : String.utf8EncodeChar c = [UInt8.ofNat c.val.toNat] := if_pos hascii
    rw [hbytes, List.filter_singleton, isBlank_ascii hascii]
    cases isBlankChar c <;> rfl
  · have hwide : 127 < c.val.toNat := Nat.lt_of_not_le hascii
    rw [isBlankChar_of_lt hwide]
    exact List.filter_eq_self.2 fun b hb => by rw [isBlank_of_mem hwide b hb]; rfl

theorem digitsIn_eq (text : String) : digitsIn text = (visible text).flatMap String.utf8EncodeChar := by
  unfold digitsIn visible Text.utf8
  induction text.toList with
  | nil => rfl
  | cons c rest ih =>
      rw [List.flatMap_cons, List.filter_append, ih, filter_utf8EncodeChar, List.filter_cons]
      cases isBlankChar c <;> rfl

/-- Texts that differ in blanks only are read alike. -/
theorem decode_congr {text text' : String} (h : visible text' = visible text) : decode text' = decode text := by
  have hdigits : digitsIn text' = digitsIn text := by rw [digitsIn_eq, digitsIn_eq, h]
  show (if (digitsIn text').length % 2 = 0 then readPairs (digitsIn text') else _) =
    if (digitsIn text).length % 2 = 0 then readPairs (digitsIn text) else _
  rw [hdigits]

theorem visible_insert (before blanks after : String) (hblanks : ∀ c ∈ blanks.toList, isBlankChar c = true) :
    visible (before ++ blanks ++ after) = visible (before ++ after) := by
  have hnone : blanks.toList.filter (fun c => !isBlankChar c) = [] :=
    List.filter_eq_nil_iff.2 fun c hc => by simp [hblanks c hc]
  simp only [visible, String.toList_append, List.filter_append, hnone, List.append_nil]

/-! ### Writing -/

def upperDigit (n : Nat) : Char :=
  Char.ofNat (if n < 10 then 0x30 + n else 0x37 + n)

theorem hex_byte (b : UInt8) :
    Text.hex 2 b.toNat = String.ofList [upperDigit (b.toNat / 16), upperDigit (b.toNat % 16)] := by
  have hall : ∀ n < 256, Text.hexDigits 2 n = [upperDigit (n / 16), upperDigit (n % 16)] := by decide +kernel
  rw [Text.hex, hall b.toNat b.toNat_lt]

/-- **The text of a method body.** Without its blanks, a text is read as the bytes that its pairs stand for; it is
refused if a digit is left over, and otherwise at the first two bytes that are no pair. Blanks make no difference, also
within a pair. A code is written as upper-case pairs with one space between them, which are read back as the code. -/
theorem pairs_read_and_written (text : String) :
    (∀ code, decode text = .ok code ↔ Spells (digitsIn text) code) ∧
    (decode text = .error .oddDigits ↔ (digitsIn text).length % 2 = 1) ∧
    (∀ name, decode text = .error (.badPair name) ↔
      (digitsIn text).length % 2 = 0 ∧ BreaksOff (digitsIn text) name) ∧
    (∀ text', visible text' = visible text → decode text' = decode text) ∧
    ∀ code, decode (encode code) = .ok code ∧ encode code = " ".intercalate
      (code.map fun b => String.ofList [upperDigit (b.toNat / 16), upperDigit (b.toNat % 16)]) := by
  refine ⟨fun code => ⟨fun h => ?_, fun h => ?_⟩, ⟨fun h => ?_, decode_of_odd⟩, fun name => ⟨fun h => ?_, ?_⟩,
    fun _ => decode_congr, fun code => ⟨decode_encode code, ?_⟩⟩
  · rcases decode_cases text with ⟨code', hcode, hread⟩ | ⟨-, hread⟩ | ⟨name, -, -, hread⟩ <;> rw [hread] at h <;>
      cases h
    exact hcode
  · rw [decode_of_even h.even, h.readPairs]
  · rcases decode_cases text with ⟨code, -, hread⟩ | ⟨hodd, -⟩ | ⟨name, -, -, hread⟩
    · rw [hread] at h
      cases h
    · exact hodd
    · rw [hread] at h
      cases h
  · rcases decode_cases text with ⟨code, -, hread⟩ | ⟨-, hread⟩ | ⟨name', heven, hname, hread⟩ <;> rw [hread] at h <;>
      cases h
    exact ⟨heven, hname⟩
  · rintro ⟨heven, hname⟩
    rw [decode_of_even heven, hname.readPairs]
  · rw [encode]
    exact congrArg (" ".intercalate ·) (List.map_congr_left fun b _ => hex_byte b)

/-- Blanks may cut a pair, and a pair may cut a character, of which only the first byte is then named. -/
theorem pairs_read_and_written_cut : decode ("4" ++ "\t " ++ "8+f") = decode "48+f" ∧
    decode "48+f" = .ok [0x48, 0x0F] ∧ decode "0é0" = .error (.badPair "0\uFFFD") := by
  have hvisible : visible ("4" ++ "\t " ++ "8+f") = visible "48+f" :=
    visible_insert "4" "\t " "8+f" (by simp [isBlankChar])
  have hspells : Spells (digitsIn "48+f") [0x48, 0x0F] :=
    .cons (pairValue?_eq_some_iff.1 (by decide)) (.cons (pairValue?_eq_some_iff.1 (by decide)) .nil)
  have hbreaks : BreaksOff (digitsIn "0é0") "0\uFFFD" :=
    .here [0xA9, 0x30] (pairValue?_eq_none_iff.1 (by decide))
  obtain ⟨hread, -, -, hrespaced, -⟩ := pairs_read_and_written "48+f"
  exact ⟨hrespaced _ hvisible, (hread _).2 hspells,
    ((pairs_read_and_written "0é0").2.2.1 _).2 ⟨by decide, hbreaks⟩⟩

end ManagedCode.CodeText
