import LazyGraph.Proofs.Settings.Skipping

/-! Keys of records and values of settings.

A key is read as the text that it spells, with its escapes undone. The value of a setting is read if its
text stands for a value of the right kind, whatever blanks come before it. -/

set_option autoImplicit false

namespace LazyGraph.Settings

variable {c : Char} {text rest written gap digits : List Char} {value : Nat} {word : UInt64}

/-! ### Keys -/

theorem unitMove_scalar (scalar : value.isValidChar) : unitMove true value = .add (Char.ofNat value) := by
  have high : isHighSurrogate value = false := by
    rw [isHighSurrogate, Bool.and_eq_false_iff, decide_eq_false_iff_not, decide_eq_false_iff_not]
    rcases scalar with below | above <;> omega
  have low : isLowSurrogate value = false := by
    rw [isLowSurrogate, Bool.and_eq_false_iff, decide_eq_false_iff_not, decide_eq_false_iff_not]
    rcases scalar with below | above <;> omega
  simp [unitMove, high, low]

theorem unitMove_high {high : Nat} (fits : high < 0x400) :
    unitMove true (0xd800 + high) = .go (.paired (0xd800 + high)) := by
  simp only [unitMove, isLowSurrogate, isHighSurrogate, Bool.true_and, Bool.and_eq_true, decide_eq_true_eq]
  rw [if_neg (by omega), if_pos (by omega)]

theorem isLowSurrogate_low {low : Nat} (fits : low < 0x400) : isLowSurrogate (0xdc00 + low) = true := by
  simp only [isLowSurrogate, Bool.and_eq_true, decide_eq_true_eq]
  omega

theorem scanText_spells {spelled : List Char} (spells : Spells written spelled) (read rest : List Char) :
    scanText .plain read (written ++ '"' :: rest) = .ok (String.ofList (read.reverse ++ spelled), rest) := by
  have goes : ∀ {state next c rest read}, textStep true state c rest = .go next →
      scanText state read (c :: rest) = scanText next read rest := by
    intro state next c rest read step
    rw [scanText, step]
  have adds : ∀ {state c d rest read}, textStep true state c rest = .add d →
      scanText state read (c :: rest) = scanText .plain (d :: read) rest := by
    intro state c d rest read step
    rw [scanText, step]
  -- A character that was added is the last one read.
  have added : ∀ {input d text read},
      scanText .plain (d :: read) input = .ok (String.ofList ((d :: read).reverse ++ text), rest) →
      scanText .plain (d :: read) input = .ok (String.ofList (read.reverse ++ d :: text), rest) := by
    intro input d text read found
    rw [found, List.reverse_cons, List.append_assoc, List.singleton_append]
  induction spells generalizing read with
  | empty => simp [scanText, textStep]
  | bare bare _ ih => exact (adds (textStep_bare bare)).trans (added (ih _))
  | short listed _ ih => exact (goes rfl).trans ((adds (textStep_short listed)).trans (added (ih _)))
  | @unit digits more spelled value unit scalar _ ih =>
    obtain ⟨before, digit, last, hex, total, run⟩ :=
      unit.last (fun state => scanText state read) (.inl rfl) goes (more ++ '"' :: rest)
    have ended : textStep true (.unit 3 before) last (more ++ '"' :: rest) = .add (Char.ofNat value) := by
      simp [textStep, hex, total, unitMove_scalar scalar]
    rw [List.append_assoc]
    exact (goes rfl).trans ((goes (textStep_opens unit).1).trans (run.trans ((adds ended).trans (added (ih _)))))
  | @pair leading trailing more spelled high low leads trails high_fits low_fits _ ih =>
    obtain ⟨before, digit, last, hex, total, run⟩ :=
      leads.last (fun state => scanText state read) (.inl rfl) goes ('\\' :: 'u' :: (trailing ++ (more ++ '"' :: rest)))
    have half : ∀ rest, textStep true (.unit 3 before) last rest = .go (.paired (0xd800 + high)) := by
      simp [textStep, hex, total, unitMove_high high_fits]
    obtain ⟨before', digit', last', hex', total', run'⟩ :=
      trails.last (fun state => scanText state read) (.inr ⟨0xd800 + high, rfl⟩) goes (more ++ '"' :: rest)
    have whole : ∀ rest, textStep true (.pairedUnit (0xd800 + high) 3 before') last' rest =
        .add (Char.ofNat (0x10000 + high * 0x400 + low)) := by
      simp [textStep, hex', total', isLowSurrogate_low low_fits]
    simp only [List.append_assoc, List.cons_append]
    calc
      _ = scanText .escape read ('u' :: (leading ++ _)) := goes rfl
      _ = scanText (.unit 0 0) read (leading ++ _) := goes (textStep_opens leads).1
      _ = _ := run
      _ = scanText (.paired _) read ('\\' :: 'u' :: _) := goes (half _)
      _ = scanText (.pairedEscape _) read ('u' :: (trailing ++ _)) := goes rfl
      _ = scanText (.pairedUnit _ 0 0) read (trailing ++ _) := goes ((textStep_opens trails).2 _)
      _ = _ := run'
      _ = scanText .plain (_ :: read) _ := adds (whole _)
      _ = _ := added (ih _)

/-! ### Blanks -/

theorem skipBlank_blank (blank : Blank gap) (rest : List Char) : skipBlank (gap ++ rest) = skipBlank rest :=
  List.dropWhile_append_of_pos fun _ member => blank.isBlank member

theorem skipBlank_solid (solid : isBlank c = false) (rest : List Char) : skipBlank (c :: rest) = c :: rest :=
  List.dropWhile_cons_of_neg (by simp [solid])

theorem readColon_blank (blank : Blank gap) (rest : List Char) : readColon (gap ++ ':' :: rest) = .ok rest := by
  simp only [readColon, skipBlank_blank blank, skipBlank_solid (c := ':') rfl]

/-! ### Values of settings -/

/-- A number below 2^64 has one spelling: it has no sign, fraction or exponent, and no zeros before it. -/
structure WritesWord (text : List Char) (word : UInt64) : Prop where
  whole : Whole text
  amount : Nat.ofDigitChars 10 text 0 = word.toNat

inductive Kind where
  | word
  | optional
  | flag
  deriving DecidableEq, Repr

namespace Kind

@[reducible]
def Value : Kind → Type
  | .word => UInt64
  | .optional => Option UInt64
  | .flag => Bool

def Writes : (kind : Kind) → List Char → kind.Value → Prop
  | .word, text, (value : UInt64) => WritesWord text value
  | .optional, text, (none : Option UInt64) => text = ['n', 'u', 'l', 'l']
  | .optional, text, some value => WritesWord text value
  | .flag, text, (value : Bool) => text = if value then ['t', 'r', 'u', 'e'] else ['f', 'a', 'l', 's', 'e']

def reader : (kind : Kind) → List Char → Except Trouble (kind.Value × List Char)
  | .word => readWord
  | .optional => readOptionalWord
  | .flag => readBool

end Kind

theorem le_ofDigitChars (digits : List Char) (value : Nat) : value ≤ Nat.ofDigitChars 10 digits value := by
  induction digits generalizing value with
  | nil => exact Nat.le_refl _
  | cons c digits ih =>
    rw [Nat.ofDigitChars_cons]
    exact Nat.le_trans (by omega) (ih _)

theorem Ends.digit (ends : Ends (c :: rest)) : c.isDigit = false := by
  have mark := ends c rfl
  simp only [isNumberMark, Bool.or_eq_false_iff] at mark
  exact mark.1.1.1

theorem significand_digits (all : Digits digits) (fits : Nat.ofDigitChars 10 digits value < UInt64.size)
    (ends : Ends rest) : significand value (digits ++ rest) = (Nat.ofDigitChars 10 digits value, rest) := by
  induction digits generalizing value with
  | nil =>
    cases rest with
    | nil => rfl
    | cons c rest => simp [significand, ends.digit]
  | cons c digits ih =>
    rw [Nat.ofDigitChars_cons] at fits ⊢
    have small : 10 * value + (c.toNat - '0'.toNat) < Nat.pow 2 64 := Nat.lt_of_le_of_lt (le_ofDigitChars digits _) fits
    have rest_read := ih all.tail fits
    simp only [List.cons_append, significand, all c (.head _), if_true]
    rw [if_pos small, rest_read]

namespace WritesWord

theorem head (writes : WritesWord text word) : ∃ c digits, text = c :: digits ∧ c.isDigit = true := by
  cases writes.whole with
  | zero => exact ⟨'0', [], rfl, rfl⟩
  | @positive c digits all => exact ⟨c, digits, rfl, all c (.head _)⟩

theorem scanDigits (writes : WritesWord text word) (ends : Ends rest) :
    scanDigits (text ++ rest) = .ok (word.toNat, rest) := by
  obtain ⟨whole, amount⟩ := writes
  cases whole with
  | zero =>
    cases rest with
    | nil => simp [Settings.scanDigits, ← amount, Nat.ofDigitChars_cons]
    | cons c rest => simp [Settings.scanDigits, ← amount, Nat.ofDigitChars_cons, ends.digit]
  | @positive c digits all leading =>
    have fits : Nat.ofDigitChars 10 (c :: digits) 0 < UInt64.size := amount ▸ word.toNat_lt
    have read := significand_digits all fits ends
    simp only [List.cons_append] at read ⊢
    unfold Settings.scanDigits
    split
    · rename_i none
      cases none
    · rename_i zero
      exact absurd (List.cons.inj zero).1 leading
    · rename_i first _ _ same
      obtain ⟨rfl, _⟩ := List.cons.inj same
      rw [if_pos (all c (.head _)), read, amount]

theorem scanWord (writes : WritesWord text word) (ends : Ends rest) : scanWord (text ++ rest) = .ok (word, rest) := by
  have read := writes.scanDigits ends
  obtain ⟨c, digits, rfl, digit⟩ := writes.head
  have unmarked : (rest.head?.map isNumberMark).getD false = false := by
    cases rest with
    | nil => rfl
    | cons d rest => exact ends d rfl
  unfold Settings.scanWord
  split
  · rename_i minus
    exact absurd (List.cons.inj minus).1 (isDigit_ne digit rfl)
  · simp only [read, unmarked, Bool.false_eq_true, if_false, UInt64.ofNat_toNat]

theorem readWord (writes : WritesWord text word) (blank : Blank gap) (ends : Ends rest) :
    readWord (gap ++ (text ++ rest)) = .ok (word, rest) := by
  obtain ⟨c, digits, rfl, digit⟩ := writes.head
  rw [Settings.readWord, skipBlank_blank blank, List.cons_append, skipBlank_solid (isBlank_digit digit)]
  simp only [digit, Bool.or_true, if_true]
  exact writes.scanWord ends

end WritesWord

theorem Kind.read {kind : Kind} {value : kind.Value} (writes : kind.Writes text value) (blank : Blank gap)
    (ends : Ends rest) : kind.reader (gap ++ (text ++ rest)) = .ok (value, rest) := by
  cases kind with
  | word => exact WritesWord.readWord writes blank ends
  | optional =>
    cases value with
    | none =>
      obtain rfl : text = _ := writes
      simp only [reader, readOptionalWord, skipBlank_blank blank, List.cons_append, skipBlank_solid (c := 'n') rfl]
      rfl
    | some word =>
      obtain ⟨c, digits, rfl, digit⟩ := WritesWord.head writes
      have read := WritesWord.readWord writes .none ends
      simp only [reader, readOptionalWord, skipBlank_blank blank, List.cons_append,
        skipBlank_solid (isBlank_digit digit)]
      split
      · rename_i null
        exact absurd (List.cons.inj null).1 (isDigit_ne digit rfl)
      · rw [List.nil_append, List.cons_append] at read
        rw [read]
        rfl
  | flag =>
    cases value with
    | false =>
      obtain rfl : text = _ := writes
      simp only [reader, readBool, skipBlank_blank blank, Bool.false_eq_true, if_false, List.cons_append,
        skipBlank_solid (c := 'f') rfl]
      rfl
    | true =>
      obtain rfl : text = _ := writes
      simp only [reader, readBool, skipBlank_blank blank, if_true, List.cons_append, skipBlank_solid (c := 't') rfl]
      rfl

theorem Kind.Writes.unique {kind : Kind} {first second : kind.Value} (one : kind.Writes text first)
    (other : kind.Writes text second) : first = second := by
  have read := Kind.read one .none .nil
  rw [Kind.read other .none .nil] at read
  injection read with read
  exact (Prod.mk.inj read).1.symm

end LazyGraph.Settings
