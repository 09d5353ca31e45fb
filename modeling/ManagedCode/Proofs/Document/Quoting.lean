import ManagedCode.Document.Toml.Quoting
import Mathlib.Tactic.SplitIfs
import Mathlib.Data.List.TakeWhile

/-! Quoted text is read back as it was written, whatever the text and the style chosen for it. A written text is a
sequence of pieces that the reader takes one by one; quotes that stand as they are need care, since in a block the
reader counts them: up to two of them may end the text, and then they stand right before the closing three. -/

namespace ManagedCode.Toml

/-- No quote stands first. -/
def Unquoted (s : List Char) : Prop :=
  ∀ c ∈ s.head?, c ≠ '"' ∧ c ≠ '\''

theorem unquoted_cons {c : Char} {s : List Char} : Unquoted (c :: s) ↔ c ≠ '"' ∧ c ≠ '\'' := by
  simp [Unquoted]

namespace Quoting

/-- The most quotes in a row that a style takes as they are. -/
def quotesHeld (q : Quoting) : Nat :=
  if q.isBlock then 2 else 0

theorem ne_quote_of_unquoted (q : Quoting) {s : List Char} (h : Unquoted s) : s.head? ≠ some q.quote := by
  intro heq
  have hne := h q.quote heq
  cases q <;> simp [quote] at hne

end Quoting

/-- `written` stands for `text` in the style, where `run` quotes of the text stand right before it. -/
inductive Spelling (q : Quoting) : (run : Nat) → (written text : List Char) → Prop where
  | done (run : Nat) : Spelling q run [] []
  | quote {run : Nat} {written text : List Char} (hrun : run < q.quotesHeld)
      (hrest : Spelling q (run + 1) written text) :
      Spelling q run (q.quote :: written) (q.quote :: text)
  | piece {run : Nat} {c : Char} {more chars written text : List Char} (hc : c ≠ q.quote)
      (hpiece : ∀ rest, piece? q (c :: (more ++ rest)) = some (chars, rest)) (hrest : Spelling q 0 written text) :
      Spelling q run (c :: (more ++ written)) (chars ++ text)

/-! ### The end of a text -/

section Closing

variable {q : Quoting}

theorem takeWhile_quotes (n : Nat) {rest : List Char} (hrest : rest.head? ≠ some q.quote) :
    (List.replicate n q.quote ++ rest).takeWhile (· == q.quote) = List.replicate n q.quote := by
  rw [List.takeWhile_append_of_pos (by simp)]
  cases rest with
  | nil => simp
  | cons c rest =>
      have hc : c ≠ q.quote := fun heq => hrest (congrArg some heq)
      simp [hc]

theorem closing?_inside {n : Nat} (hn : n ≤ q.quotesHeld) {rest : List Char} (hrest : rest.head? ≠ some q.quote) :
    closing? q (List.replicate n q.quote ++ rest) = none := by
  simp only [closing?, takeWhile_quotes n hrest, List.length_replicate]
  unfold Quoting.quotesHeld at hn
  split_ifs at hn ⊢ with hblock hlt hzero
  · rfl
  · omega
  · rfl
  · omega

theorem closing?_delimiter {n : Nat} (hn : n ≤ q.quotesHeld) {rest : List Char} (hrest : rest.head? ≠ some q.quote) :
    closing? q (List.replicate n q.quote ++ (q.delimiter ++ rest)) = some (List.replicate n q.quote, rest) := by
  have hlist : List.replicate n q.quote ++ (q.delimiter ++ rest) =
      List.replicate (n + if q.isBlock then 3 else 1) q.quote ++ rest := by
    rw [Quoting.delimiter, ← List.append_assoc, List.replicate_append_replicate]
  rw [hlist]
  simp only [closing?, takeWhile_quotes _ hrest, List.length_replicate]
  unfold Quoting.quotesHeld at hn
  split_ifs at hn ⊢ with hblock hlt hzero
  · omega
  · have hmin : min (n + 3) 5 = n + 3 := by omega
    rw [hmin, Nat.add_sub_cancel, List.drop_left' (List.length_replicate)]
  · omega
  · obtain rfl : n = 0 := by omega
    simp

end Closing

/-! ### The pieces of a text -/

theorem quotedChars_of_closing {q : Quoting} {s : List Char} {found : List Char × List Char}
    (h : closing? q s = some found) : quotedChars q s = some found := by
  rw [quotedChars, h]

theorem quotedChars_of_piece {q : Quoting} {s chars rest : List Char} (hclosing : closing? q s = none)
    (hpiece : piece? q s = some (chars, rest)) :
    quotedChars q s = (quotedChars q rest).map fun (more, rest) => (chars ++ more, rest) := by
  rw [quotedChars, hclosing]
  dsimp only
  split
  · next h =>
    rw [hpiece] at h
    cases h
  · next h =>
    rw [hpiece] at h
    cases h
    rfl

theorem piece?_quote (q : Quoting) (rest : List Char) : piece? q (q.quote :: rest) = some ([q.quote], rest) := by
  cases q <;> simp [piece?, Quoting.quote, isPlain]

namespace Spelling

variable {q : Quoting} {run : Nat} {written text : List Char}

/-- The quotes with which a spelling starts are no more than the style can hold, and either they are all of it or
something else follows them. -/
theorem quotes_ahead (hs : Spelling q run written text) (hrun : run ≤ q.quotesHeld) : ∃ n, run + n ≤ q.quotesHeld ∧
    ((written = List.replicate n q.quote ∧ text = List.replicate n q.quote) ∨
      ∃ c more, written = List.replicate n q.quote ++ c :: more ∧ c ≠ q.quote) := by
  induction hs with
  | done run => exact ⟨0, hrun, Or.inl ⟨rfl, rfl⟩⟩
  | quote hlt _ ih =>
      obtain ⟨n, hn, hahead⟩ := ih hlt
      refine ⟨n + 1, by omega, ?_⟩
      rcases hahead with ⟨rfl, rfl⟩ | ⟨c, more, rfl, hc⟩
      · exact Or.inl ⟨rfl, rfl⟩
      · exact Or.inr ⟨c, more, rfl, hc⟩
  | @piece run c more _ written _ hc _ _ _ => exact ⟨0, hrun, Or.inr ⟨c, more ++ written, rfl, hc⟩⟩

/-- **A spelling between quotes is read as the text it stands for.** -/
theorem quotedChars_eq (hs : Spelling q run written text) (hrun : run ≤ q.quotesHeld) {rest : List Char}
    (hrest : rest.head? ≠ some q.quote) : quotedChars q (written ++ (q.delimiter ++ rest)) = some (text, rest) := by
  induction hs with
  | done run => exact quotedChars_of_closing (closing?_delimiter (Nat.zero_le _) hrest)
  | @quote run written text hlt htail ih =>
      obtain ⟨n, hn, hahead⟩ := (Spelling.quote hlt htail).quotes_ahead hrun
      rcases hahead with ⟨hwritten, htext⟩ | ⟨c, more, hwritten, hc⟩
      · -- Nothing but quotes is left, so the text ends here.
        rw [hwritten, htext]
        exact quotedChars_of_closing (closing?_delimiter (by omega) hrest)
      · have hinside : closing? q (q.quote :: written ++ (q.delimiter ++ rest)) = none := by
          rw [hwritten, List.append_assoc]
          exact closing?_inside (by omega) (by simpa using hc)
        have hread : piece? q (q.quote :: written ++ (q.delimiter ++ rest)) =
            some ([q.quote], written ++ (q.delimiter ++ rest)) := piece?_quote q _
        rw [quotedChars_of_piece hinside hread, ih hlt]
        rfl
  | @piece run c more chars written text hc hpiece _ ih =>
      have hinside : closing? q (c :: (more ++ written) ++ (q.delimiter ++ rest)) = none :=
        closing?_inside (Nat.zero_le _) (by simpa using hc)
      have hread : piece? q (c :: (more ++ written) ++ (q.delimiter ++ rest)) =
          some (chars, written ++ (q.delimiter ++ rest)) := by
        rw [List.cons_append, List.append_assoc]
        exact hpiece _
      rw [quotedChars_of_piece hinside hread, ih (Nat.zero_le _)]
      rfl

end Spelling

/-! ### Escapes -/

theorem hexNumber_append {n value code : Nat} {digits more : List Char}
    (h : hexNumber n value digits = some (code, more)) (rest : List Char) :
    hexNumber n value (digits ++ rest) = some (code, more ++ rest) := by
  induction n generalizing value digits with
  | zero =>
      simp only [hexNumber, Option.some.injEq, Prod.mk.injEq] at h ⊢
      obtain ⟨rfl, rfl⟩ := h
      exact ⟨rfl, rfl⟩
  | succ n ih =>
      cases digits with
      | nil => simp [hexNumber] at h
      | cons c digits =>
          obtain ⟨digit, hdigit, h⟩ := Option.bind_eq_some_iff.1 h
          exact Option.bind_eq_some_iff.2 ⟨digit, hdigit, ih h⟩

theorem hexNumber_hexDigits : ∀ n < 128, hexNumber 4 0 (Text.hexDigits 4 n) = some (n, []) := by
  decide +kernel

theorem codePoint_hexDigits {c : Char} (hc : c.toNat < 128) (rest : List Char) :
    codePoint 4 (Text.hexDigits 4 c.toNat ++ rest) = some (c, rest) := by
  have hvalid : c.toNat.isValidChar := c.valid
  simp [codePoint, hexNumber_append (hexNumber_hexDigits c.toNat hc) rest, hvalid, Char.ofNat_toNat]

/-- An escape that does not begin with a blank or a line break stands for its character in every style that has
escapes. -/
theorem piece?_escape {q : Quoting} (hq : q.hasEscapes = true) {c letter : Char} {s rest : List Char}
    (hletter : skipBlanks (letter :: s) = letter :: s ∧ lineBreak? (letter :: s) = none)
    (h : escape (letter :: s) = some (c, rest)) : piece? q ('\\' :: letter :: s) = some ([c], rest) := by
  simp only [piece?, hq, and_self, if_true, hletter.1, hletter.2, ite_self, h]
  rfl

theorem piece?_plain {q : Quoting} {c : Char} (hc : isPlain c = true) (hescape : c = '\\' → q.hasEscapes = false)
    (rest : List Char) : piece? q (c :: rest) = some ([c], rest) := by
  have hnot : ¬(c = '\\' ∧ q.hasEscapes = true) := by
    rintro ⟨heq, hq⟩
    rw [hescape heq] at hq
    cases hq
  rw [piece?, if_neg hnot, if_pos hc]

theorem escape_shortEscape? {c letter : Char} (h : shortEscape? c = some letter) (rest : List Char) :
    escape (letter :: rest) = some (c, rest) ∧
      (skipBlanks (letter :: rest) = letter :: rest ∧ lineBreak? (letter :: rest) = none) := by
  unfold shortEscape? at h
  split at h <;> cases h <;> exact ⟨rfl, rfl, rfl⟩

/-- **What is written with escapes stands for the text.** -/
theorem spelling_escaped {q : Quoting} (hq : q.hasEscapes = true) {quotes : Nat} (s : List Char) :
    Spelling q quotes (escaped q.isBlock quotes s) s := by
  have hquote : q.quote = '"' := by
    cases q with
    | basic => rfl
    | basicBlock => rfl
    | literal => cases hq
    | literalBlock => cases hq
  induction s generalizing quotes with
  | nil => exact .done quotes
  | cons c s ih =>
      rw [escaped]
      by_cases hc : c = '"'
      · rw [if_pos hc]
        subst hc
        split_ifs with hheld
        · rw [← hquote]
          refine .quote ?_ ih
          simpa [Quoting.quotesHeld, hheld.1] using hheld.2
        · have hpiece : ∀ rest, piece? q ('\\' :: (['"'] ++ rest)) = some (['"'], rest) :=
            fun rest => piece?_escape hq ⟨rfl, rfl⟩ rfl
          exact .piece (by rw [hquote]; decide) hpiece ih
      rw [if_neg hc]
      by_cases hbreak : c = '\n' ∧ q.isBlock = true
      · rw [if_pos hbreak]
        obtain ⟨rfl, hblock⟩ := hbreak
        have hpiece : ∀ rest, piece? q ('\n' :: ([] ++ rest)) = some (['\n'], rest) := by
          intro rest
          simp [piece?, isPlain, hblock, lineBreak?]
        exact .piece (by rw [hquote]; decide) hpiece ih
      rw [if_neg hbreak]
      cases hshort : shortEscape? c with
      | some letter =>
          have hescape := escape_shortEscape? hshort
          have hpiece : ∀ rest, piece? q ('\\' :: ([letter] ++ rest)) = some ([c], rest) :=
            fun rest => piece?_escape hq (hescape rest).2 (hescape rest).1
          exact .piece (by rw [hquote]; decide) hpiece ih
      | none =>
          dsimp only
          split_ifs with hcontrol
          · have hlow : c.toNat < 128 := by
              rcases hcontrol with hlt | rfl
              · omega
              · decide
            have hpiece : ∀ rest, piece? q ('\\' :: ('u' :: Text.hexDigits 4 c.toNat ++ rest)) = some ([c], rest) :=
              fun rest => piece?_escape hq ⟨rfl, rfl⟩ (codePoint_hexDigits hlow rest)
            exact .piece (by rw [hquote]; decide) hpiece ih
          · have hplain : isPlain c = true := by
              simp only [not_or, Nat.not_lt] at hcontrol
              simp [isPlain, hcontrol.1, hcontrol.2]
            have hslash : c ≠ '\\' := by
              rintro rfl
              cases hshort
            have hpiece : ∀ rest, piece? q (c :: ([] ++ rest)) = some ([c], rest) :=
              fun rest => piece?_plain hplain (fun heq => absurd heq hslash) rest
            exact .piece (by rw [hquote]; exact hc) hpiece ih

/-! ### Text as it is -/

theorem le_longestRun (quote : Char) (current : Nat) (s : List Char) : current ≤ longestRun quote current s := by
  induction s generalizing current with
  | nil => exact Nat.le_refl _
  | cons c s ih =>
      rw [longestRun]
      split_ifs
      · exact (Nat.le_succ current).trans (ih (current + 1))
      · exact Nat.le_max_left _ _

/-- **A text without control characters and long runs of quotes stands for itself**, on one line if it has no line
breaks. -/
theorem spelling_literal {q : Quoting} (hq : q.hasEscapes = false) {s : List Char} (hcontrol : s.any isControl = false)
    (hlines : q.isBlock = false → '\n' ∉ s) {run : Nat} (hruns : longestRun '\'' run s ≤ q.quotesHeld) :
    Spelling q run s s := by
  have hquote : q.quote = '\'' := by
    cases q with
    | basic => cases hq
    | basicBlock => cases hq
    | literal => rfl
    | literalBlock => rfl
  induction s generalizing run with
  | nil => exact .done run
  | cons c s ih =>
      rw [List.any_cons, Bool.or_eq_false_iff] at hcontrol
      have hlines' : q.isBlock = false → '\n' ∉ s := fun hblock hmem => hlines hblock (List.mem_cons_of_mem _ hmem)
      rw [longestRun] at hruns
      by_cases hc : c = '\''
      · rw [if_pos hc] at hruns
        rw [hc, ← hquote]
        exact .quote ((le_longestRun _ _ s).trans hruns) (ih hcontrol.2 hlines' hruns)
      · rw [if_neg hc] at hruns
        have hpiece : ∀ rest, piece? q (c :: ([] ++ rest)) = some ([c], rest) := by
          intro rest
          by_cases hbreak : c = '\n'
          · subst hbreak
            have hblock : q.isBlock = true := by
              cases hb : q.isBlock with
              | true => rfl
              | false => exact absurd List.mem_cons_self (hlines hb)
            simp [piece?, hq, isPlain, hblock, lineBreak?]
          · refine piece?_plain ?_ (fun _ => hq) rest
            have hclear := hcontrol.1
            simp only [isControl, Bool.or_eq_false_iff, Bool.and_eq_false_iff, bne_eq_false_iff_eq,
              decide_eq_false_iff_not, Nat.not_lt, beq_eq_false_iff_ne, hbreak, or_false] at hclear
            simp [isPlain, hclear.1.symm, hclear.2]
        exact .piece (by rw [hquote]; exact hc) hpiece (ih hcontrol.2 hlines' ((Nat.le_max_right _ _).trans hruns))

/-! ### The style of a text -/

namespace Quoting

variable {s : List Char}

theorem ofText_literal (h : ofText s = .literal) :
    s.any isControl = false ∧ '\n' ∉ s ∧ longestRun '\'' 0 s ≤ 0 := by
  simp only [ofText] at h
  split_ifs at h with h₁ h₂ h₃ h₄ h₅
  simpa [and_assoc] using h₂

theorem ofText_literalBlock (h : ofText s = .literalBlock) :
    s.any isControl = false ∧ longestRun '\'' 0 s ≤ 2 := by
  simp only [ofText] at h
  split_ifs at h with h₁ h₂ h₃ h₄ h₅
  simpa using h₄

/-- A block on one line is chosen for texts without control characters only. -/
theorem control_of_ofText_isBlock (h : (ofText s).isBlock = true) (hlines : '\n' ∉ s) : s.any isControl = false := by
  simp only [ofText] at h
  split_ifs at h with h₁ h₂ h₃ h₄ h₅
  · cases h
  · cases h
  · simp only [Bool.and_eq_true, Bool.not_eq_true'] at h₃
    exact h₃.1.1
  · simp only [Bool.and_eq_true, Bool.not_eq_true'] at h₄
    exact h₄.1
  · exact absurd (List.contains_iff_mem.1 h₅) hlines
  · cases h

end Quoting

theorem opening?_line {q : Quoting} (hq : q.isBlock = false) {s : List Char} (hs : ¬[q.quote, q.quote] <+: s) :
    opening? (q.quote :: s) = some (q, s) := by
  have hshort : ∀ rest, s = q.quote :: q.quote :: rest → False := fun rest heq => hs ⟨rest, heq.symm⟩
  cases q with
  | basic => exact opening?.eq_2 s hshort
  | literal => exact opening?.eq_4 s hshort
  | basicBlock => cases hq
  | literalBlock => cases hq

theorem opening?_block {q : Quoting} (hq : q.isBlock = true) (s : List Char) :
    opening? (q.delimiter ++ s) = some (q, (lineBreak? s).getD s) := by
  cases q with
  | basic => cases hq
  | literal => cases hq
  | basicBlock => rfl
  | literalBlock => rfl

/-- What stands for a text in its style. -/
def written (s : List Char) : List Char :=
  if (Quoting.ofText s).hasEscapes then escaped (Quoting.ofText s).isBlock 0 s else s

theorem spelling_written (s : List Char) : Spelling (Quoting.ofText s) 0 (written s) s := by
  unfold written
  split_ifs with hescapes
  · exact spelling_escaped hescapes s
  · have hraw : (Quoting.ofText s).hasEscapes = false := by simpa using hescapes
    cases hq : Quoting.ofText s with
    | basic => rw [hq] at hraw; cases hraw
    | basicBlock => rw [hq] at hraw; cases hraw
    | literal =>
        obtain ⟨hcontrol, hlines, hruns⟩ := Quoting.ofText_literal hq
        exact spelling_literal rfl hcontrol (fun _ => hlines) hruns
    | literalBlock =>
        obtain ⟨hcontrol, hruns⟩ := Quoting.ofText_literalBlock hq
        exact spelling_literal rfl hcontrol (fun hblock => by cases hblock) hruns

theorem lineBreak?_eq_none {c : Char} (hc : c ≠ '\n' ∧ c ≠ '\r') (s : List Char) : lineBreak? (c :: s) = none := by
  unfold lineBreak?
  split
  · next heq => exact absurd (List.cons.inj heq).1 hc.1
  · next heq => exact absurd (List.cons.inj heq).1 hc.2
  · rfl

/-- What is written starts with the first character of the text or with a backslash. -/
theorem exists_written_cons (c : Char) (s : List Char) :
    ∃ d more, written (c :: s) = d :: more ∧ (d = c ∨ d = '\\') := by
  unfold written
  split_ifs
  · rw [escaped]
    split_ifs with hc hheld hbreak
    · exact ⟨_, _, rfl, Or.inl rfl⟩
    · exact ⟨_, _, rfl, Or.inr rfl⟩
    · exact ⟨_, _, rfl, Or.inl rfl⟩
    · split
      · exact ⟨_, _, rfl, Or.inr rfl⟩
      · exact ⟨_, _, rfl, Or.inr rfl⟩
    · split
      · exact ⟨_, _, rfl, Or.inr rfl⟩
      · exact ⟨_, _, rfl, Or.inl rfl⟩
  · exact ⟨c, s, rfl, Or.inl rfl⟩

/-- Without line breaks and control characters in the text, what is written does not start with a line break. -/
theorem lineBreak?_written {s : List Char} (hcontrol : s.any isControl = false) (hlines : '\n' ∉ s) (rest : List Char) :
    lineBreak? (written s ++ ((Quoting.ofText s).delimiter ++ rest)) = none := by
  cases s with
  | nil => rfl
  | cons c s =>
      obtain ⟨d, more, hwritten, hd⟩ := exists_written_cons c s
      have hc : c ≠ '\n' ∧ c ≠ '\r' := by
        refine ⟨fun heq => hlines (heq ▸ List.mem_cons_self), ?_⟩
        rintro rfl
        cases hcontrol
      rw [hwritten]
      refine lineBreak?_eq_none ?_ _
      rcases hd with rfl | rfl
      · exact hc
      · decide

/-- The opening quotes tell the style, and a line break after those of a block is dropped. -/
theorem opening?_writeQuoted (text : String) {rest : List Char} (hrest : Unquoted rest) :
    opening? (writeQuoted text ++ rest) = some (Quoting.ofText text.toList,
      written text.toList ++ ((Quoting.ofText text.toList).delimiter ++ rest)) := by
  have htext : writeQuoted text ++ rest = (Quoting.ofText text.toList).delimiter ++
      ((if (Quoting.ofText text.toList).isBlock ∧ text.toList.contains '\n' then ['\n'] else []) ++
        (written text.toList ++ ((Quoting.ofText text.toList).delimiter ++ rest))) := by
    simp only [writeQuoted, written, List.append_assoc]
  rw [htext]
  generalize text.toList = s
  by_cases hblock : (Quoting.ofText s).isBlock = true
  · rw [opening?_block hblock]
    by_cases hlines : '\n' ∈ s
    · rw [if_pos ⟨hblock, List.contains_iff_mem.2 hlines⟩]
      rfl
    · have hcontrol := Quoting.control_of_ofText_isBlock hblock hlines
      rw [if_neg fun h => hlines (List.contains_iff_mem.1 h.2), List.nil_append, lineBreak?_written hcontrol hlines]
      rfl
  · have hline : (Quoting.ofText s).isBlock = false := by simpa using hblock
    have hdelimiter : (Quoting.ofText s).delimiter = [(Quoting.ofText s).quote] := by
      rw [Quoting.delimiter, hline]
      rfl
    rw [if_neg fun h => hblock h.1, List.nil_append, hdelimiter]
    refine opening?_line hline ?_
    rintro ⟨after, hafter⟩
    -- The text of a line does not start with the quote, and after an empty text comes what is not one.
    obtain ⟨n, hn, hahead⟩ := (spelling_written s).quotes_ahead (Nat.zero_le _)
    rw [Quoting.quotesHeld, hline] at hn
    obtain rfl : n = 0 := by simpa using hn
    rcases hahead with ⟨hwritten, -⟩ | ⟨c, more, hwritten, hc⟩
    · rw [hwritten] at hafter
      have hhead := congrArg List.head? (List.cons.inj hafter).2
      exact Quoting.ne_quote_of_unquoted _ hrest hhead.symm
    · rw [hwritten] at hafter
      exact hc (List.cons.inj hafter).1.symm

/-- **Quoted text is read back**, for every text, before anything that does not start with a quote. -/
theorem quoted_writeQuoted (text : String) {rest : List Char} (hrest : Unquoted rest) :
    quoted (writeQuoted text ++ rest) = some (text, rest) := by
  have hchars : quotedChars (Quoting.ofText text.toList)
      (written text.toList ++ ((Quoting.ofText text.toList).delimiter ++ rest)) = some (text.toList, rest) :=
    (spelling_written text.toList).quotedChars_eq (Nat.zero_le _) (Quoting.ne_quote_of_unquoted _ hrest)
  simp [quoted, opening?_writeQuoted text hrest, hchars]

end ManagedCode.Toml
