import LazyGraph.Proofs.Settings.Grammar
import LazyGraph.Settings.Reader

/-! Values that are skipped.

A skip takes exactly one value off a text, however deep its brackets nest. What a skip does next depends
on its state and the open brackets alone, so each phrase of the grammar is one lemma about what the skip
has left to do once the phrase is behind it. -/

set_option autoImplicit false

namespace LazyGraph.Settings

variable {state next : SkipState} {brackets outer : List Bracket} {bracket : Bracket} {c : Char}
  {text rest written digits : List Char} {value : Nat} {strict : Bool}

/-! ### Blanks and ends of numbers -/

theorem isBlank_iff : isBlank c = true ↔ c = ' ' ∨ c = '\n' ∨ c = '\t' ∨ c = '\r' := by
  simp [isBlank, or_assoc]

theorem Blank.isBlank (blank : Blank text) (member : c ∈ text) : isBlank c = true :=
  isBlank_iff.mpr (blank c member)

theorem Blank.tail (blank : Blank (c :: text)) : Blank text :=
  fun d member => blank d (.tail _ member)

theorem Digits.tail (digits : Digits (c :: text)) : Digits text :=
  fun d member => digits d (.tail _ member)

/-- A number that stands before the text goes no further. -/
def Ends (rest : List Char) : Prop :=
  ∀ c ∈ rest.head?, isNumberMark c = false

theorem Ends.nil : Ends [] := by
  rintro c ⟨⟩

theorem Ends.cons (stops : isNumberMark c = false) : Ends (c :: rest) := by
  rintro d ⟨⟩
  exact stops

theorem Ends.blank (ends : Ends rest) (blank : Blank text) : Ends (text ++ rest) := by
  cases text with
  | nil => exact ends
  | cons c text =>
    apply Ends.cons
    rcases blank c (.head _) with rfl | rfl | rfl | rfl <;> rfl

theorem isDigit_ne {d : Char} (digit : c.isDigit = true) (other : d.isDigit = false) : c ≠ d := by
  rintro rfl
  rw [digit] at other
  cases other

theorem isBlank_digit (digit : c.isDigit = true) : isBlank c = false := by
  simp [isBlank, isDigit_ne digit]

/-! ### Single steps -/

theorem skip_go (step : skipStep state brackets c rest = .go next outer) :
    skip state brackets (c :: rest) = skip next outer rest := by
  rw [skip, step]

def closed (brackets : List Bracket) (rest : List Char) : Except Trouble (List Char) :=
  match brackets with
  | [] => .ok rest
  | _ :: _ => skip .after brackets rest

theorem skip_close (step : skipStep state brackets c rest = closeValue outer) :
    skip state brackets (c :: rest) = closed outer rest := by
  rw [skip, step]
  cases outer <;> rfl

theorem skip_blank (stays : state = .value ∨ state = .opened ∨ state = .after ∨ state = .key ∨ state = .colon)
    (blank : Blank text) : skip state brackets (text ++ rest) = skip state brackets rest := by
  induction text with
  | nil => rfl
  | cons c text ih =>
    have step : ∀ rest, skipStep state brackets c rest = .go state brackets := by
      rcases stays with rfl | rfl | rfl | rfl | rfl <;>
        simp [skipStep, valueStep, afterStep, keyStep, blank.isBlank (.head _)]
    exact (skip_go (step _)).trans (ih blank.tail)

/-! ### Numbers -/

def SkipState.Complete : SkipState → Prop
  | .zero | .digits | .fraction | .exponentDigits => True
  | _ => False

theorem skip_complete (complete : state.Complete) (ends : Ends rest) :
    skip state brackets rest = closed brackets rest := by
  cases rest with
  | nil =>
    cases state with
    | zero | digits | fraction | exponentDigits => cases brackets <;> rfl
    | _ => cases complete
  | cons c rest =>
    obtain ⟨⟨⟨digit, point⟩, lower⟩, upper⟩ : ((c.isDigit = false ∧ c ≠ '.') ∧ c ≠ 'e') ∧ c ≠ 'E' := by
      simpa [isNumberMark] using ends c rfl
    have step : skipStep state brackets c rest = afterNumber brackets c := by
      cases state with
      | zero | digits | fraction | exponentDigits => simp [skipStep, digit, point, lower, upper]
      | _ => cases complete
    rw [skip, step]
    cases brackets <;> rfl

theorem skip_digits (counts : state = .digits ∨ state = .fraction ∨ state = .exponentDigits) (digits : Digits text)
    (brackets : List Bracket) (rest : List Char) : skip state brackets (text ++ rest) = skip state brackets rest := by
  induction text with
  | nil => rfl
  | cons c text ih =>
    have step : ∀ rest, skipStep state brackets c rest = .go state brackets := by
      rcases counts with rfl | rfl | rfl <;> simp [skipStep, digits c (.head _)]
    exact (skip_go (step _)).trans (ih digits.tail)

theorem skip_exponent (before : state = .zero ∨ state = .digits ∨ state = .fraction) (exponent : Exponent text)
    (ends : Ends rest) : skip state brackets (text ++ rest) = closed brackets rest := by
  cases exponent with
  | none => exact skip_complete (by rcases before with rfl | rfl | rfl <;> trivial) ends
  | @some mark c sign digits marks signs all =>
    have digit := all c (.head _)
    have marked : ∀ rest, skip state brackets (mark :: rest) = skip .exponent brackets rest := by
      intro rest
      apply skip_go
      rcases before with rfl | rfl | rfl <;> rcases marks with rfl | rfl <;> rfl
    have signed : skip .exponent brackets (sign ++ (c :: digits ++ rest)) =
        skip .exponentDigits brackets (digits ++ rest) := by
      rcases signs with rfl | rfl | rfl
      · exact skip_go (by simp [skipStep, digit, isDigit_ne digit])
      all_goals exact (skip_go rfl).trans (skip_go (by simp [skipStep, digit]))
    have counted := skip_digits (.inr (.inr rfl)) all.tail brackets rest
    rw [List.append_assoc, List.cons_append, marked, signed, counted]
    exact skip_complete trivial ends

theorem skip_fraction {exponent : List Char} (before : state = .zero ∨ state = .digits) (fraction : Fraction text)
    (is_exponent : Exponent exponent) (ends : Ends rest) :
    skip state brackets (text ++ (exponent ++ rest)) = closed brackets rest := by
  cases fraction with
  | none => exact skip_exponent (before.imp_right .inl) is_exponent ends
  | @some c digits all =>
    have pointed : ∀ rest, skip state brackets ('.' :: rest) = skip .point brackets rest := by
      intro rest
      apply skip_go
      rcases before with rfl | rfl <;> rfl
    have first : ∀ rest, skip .point brackets (c :: rest) = skip .fraction brackets rest :=
      fun rest => skip_go (by simp [skipStep, all c (.head _)])
    have counted := skip_digits (.inr (.inl rfl)) all.tail brackets (exponent ++ rest)
    rw [List.cons_append, List.cons_append, pointed, first, counted]
    exact skip_exponent (.inr (.inr rfl)) is_exponent ends

theorem skip_whole (brackets : List Bracket) (begins : state = .value ∨ state = .minus) (whole : Whole text) :
    ∃ counted, (counted = .zero ∨ counted = .digits) ∧
      ∀ rest, skip state brackets (text ++ rest) = skip counted brackets rest := by
  cases whole with
  | zero =>
    refine ⟨.zero, .inl rfl, fun rest => skip_go ?_⟩
    rcases begins with rfl | rfl <;> rfl
  | @positive c digits all leading =>
    have digit := all c (.head _)
    have first : ∀ rest, skip state brackets (c :: rest) = skip .digits brackets rest := by
      intro rest
      apply skip_go
      rcases begins with rfl | rfl
      · simp [skipStep, valueStep, isBlank_digit digit, digit, leading, isDigit_ne digit]
      · simp [skipStep, digit, leading]
    exact ⟨.digits, .inr rfl, fun rest => (first _).trans (skip_digits (.inl rfl) all.tail brackets rest)⟩

theorem skip_numeral (numeral : Numeral text) (ends : Ends rest) :
    skip .value brackets (text ++ rest) = closed brackets rest := by
  cases numeral with
  | @parts sign whole fraction exponent signs is_whole is_fraction is_exponent =>
    obtain ⟨begins, begun, signed⟩ : ∃ begins, (begins = SkipState.value ∨ begins = .minus) ∧
        ∀ rest, skip .value brackets (sign ++ rest) = skip begins brackets rest := by
      rcases signs with rfl | rfl
      · exact ⟨.value, .inl rfl, fun rest => rfl⟩
      · exact ⟨.minus, .inr rfl, fun rest => skip_go rfl⟩
    obtain ⟨counted, before, skipped⟩ := skip_whole brackets begun is_whole
    simp only [List.append_assoc, signed, skipped]
    exact skip_fraction before is_fraction is_exponent ends

/-! ### Strings -/

theorem textStep_bare (bare : Bare c) : textStep strict .plain c rest = .add c := by
  simp [textStep, bare.1, bare.2.1, Nat.not_lt.mpr bare.2.2]

theorem textStep_short {meaning : Char} (listed : (c, meaning) ∈ shorthands) :
    textStep strict .escape c rest = .add meaning := by
  have all : ∀ entry ∈ shorthands, textStep strict .escape entry.1 rest = .add entry.2 := by
    simp only [shorthands, List.forall_mem_cons]
    exact ⟨rfl, rfl, rfl, rfl, rfl, rfl, rfl, rfl, nofun⟩
  exact all (c, meaning) listed

theorem hexValue?_digitChar : ∀ digit < 16,
    hexValue? (Nat.digitChar digit) = some digit ∧ hexValue? (Nat.digitChar digit).toUpper = some digit := by
  decide

theorem Hex.hexValue? {digit : Nat} (hex : Hex c digit) : hexValue? c = some digit := by
  rcases hex with ⟨small, rfl | rfl⟩
  · exact (hexValue?_digitChar digit small).1
  · exact (hexValue?_digitChar digit small).2

theorem FourHex.unitFollows (unit : FourHex digits value) : unitFollows (digits ++ rest) = true := by
  cases unit with
  | @digits a b c d =>
    have := a.utf8Size_pos
    have := b.utf8Size_pos
    have := c.utf8Size_pos
    have := d.utf8Size_pos
    simp only [Settings.unitFollows, List.cons_append, List.nil_append, List.take_succ_cons, List.take_zero,
      List.foldl_cons, List.foldl_nil]
    exact decide_eq_true (by omega)

theorem textStep_opens (unit : FourHex digits value) :
    textStep strict .escape 'u' (digits ++ rest) = .go (.unit 0 0) ∧
      ∀ high, textStep strict (.pairedEscape high) 'u' (digits ++ rest) = .go (.pairedUnit high 0 0) := by
  simp [textStep, unit.unitFollows]

/-- Whatever goes from state to state of a string comes to the last digit of an escape. -/
theorem FourHex.last {α : Type} (scan : TextState → List Char → α) {count : Nat → Nat → TextState}
    (counts : count = .unit ∨ ∃ high, count = .pairedUnit high)
    (goes : ∀ {state next c rest}, textStep strict state c rest = .go next → scan state (c :: rest) = scan next rest)
    (unit : FourHex digits value) (rest : List Char) :
    ∃ before digit last, hexValue? last = some digit ∧ 16 * before + digit = value ∧
      scan (count 0 0) (digits ++ rest) = scan (count 3 before) (last :: rest) := by
  cases unit with
  | @digits a b c d first second third fourth a_is b_is c_is d_is =>
    have step : ∀ {c digit done value rest}, Hex c digit → done < 3 →
        scan (count done value) (c :: rest) = scan (count (done + 1) (16 * value + digit)) rest := by
      intro c digit done value rest hex early
      apply goes
      rcases counts with rfl | ⟨high, rfl⟩ <;> simp [textStep, hex.hexValue?, Nat.ne_of_lt early]
    refine ⟨16 * (16 * first + second) + third, fourth, d, d_is.hexValue?, rfl, ?_⟩
    simp only [List.cons_append, List.nil_append]
    rw [step a_is (by decide), step b_is (by decide), step c_is (by decide)]
    simp only [Nat.mul_zero, Nat.zero_add, Nat.reduceAdd]

theorem skip_quoted {wrap : TextState → SkipState} (wraps : wrap = .text ∨ wrap = .keyText) (quoted : Quoted written) :
    skip (wrap .plain) brackets (written ++ rest) = skip (wrap .plain) brackets rest := by
  have goes : ∀ {state next c rest}, textStep false state c rest = .go next →
      skip (wrap state) brackets (c :: rest) = skip (wrap next) brackets rest := by
    intro state next c rest step
    apply skip_go
    rcases wraps with rfl | rfl <;> simp only [skipStep, step]
  have adds : ∀ {state c read rest}, textStep false state c rest = .add read →
      skip (wrap state) brackets (c :: rest) = skip (wrap .plain) brackets rest := by
    intro state c read rest step
    apply skip_go
    rcases wraps with rfl | rfl <;> simp only [skipStep, step]
  induction quoted with
  | empty => rfl
  | bare bare _ ih => exact (adds (textStep_bare bare)).trans ih
  | short listed _ ih => exact (goes rfl).trans ((adds (textStep_short listed)).trans ih)
  | @unit digits more value unit _ ih =>
    obtain ⟨before, digit, last, hex, rfl, run⟩ :=
      unit.last (fun state => skip (wrap state) brackets) (.inl rfl) goes (more ++ rest)
    have ended : textStep false (.unit 3 before) last (more ++ rest) = .add (Char.ofNat (16 * before + digit)) := by
      simp [textStep, hex, unitMove]
    rw [List.append_assoc]
    exact (goes rfl).trans ((goes (textStep_opens unit).1).trans (run.trans ((adds ended).trans ih)))

theorem skip_text (quoted : Quoted written) :
    skip .value brackets ('"' :: written ++ ['"'] ++ rest) = closed brackets rest := by
  have opened : ∀ rest, skip .value brackets ('"' :: rest) = skip (.text .plain) brackets rest :=
    fun rest => skip_go rfl
  simp only [List.cons_append, List.append_assoc, opened, List.nil_append]
  exact (skip_quoted (.inl rfl) quoted).trans (skip_close rfl)

/-! ### Values -/

/-- A text whose first character that is no blank closes no brackets. -/
def Begins (text : List Char) : Prop :=
  ∃ gap c rest, text = gap ++ c :: rest ∧ Blank gap ∧ isBlank c = false ∧ c ≠ ']' ∧ c ≠ '\x7d'

theorem Begins.append (begins : Begins text) (rest : List Char) : Begins (text ++ rest) := by
  obtain ⟨gap, c, more, rfl, blank, solid⟩ := begins
  exact ⟨gap, c, more ++ rest, by simp, blank, solid⟩

theorem Begins.behind {gap : List Char} (begins : Begins text) (gap_blank : Blank gap) : Begins (gap ++ text) := by
  obtain ⟨more, c, rest, rfl, blank, solid⟩ := begins
  refine ⟨gap ++ more, c, rest, by simp, fun d member => ?_, solid⟩
  exact (List.mem_append.mp member).elim (gap_blank d) (blank d)

theorem begins_cons (solid : isBlank c = false ∧ c ≠ ']' ∧ c ≠ '\x7d') : Begins (c :: rest) :=
  ⟨[], c, rest, rfl, .none, solid⟩

theorem Whole.begins (whole : Whole text) : Begins text := by
  cases whole with
  | zero => exact begins_cons (by decide)
  | @positive c rest digits =>
    have digit := digits c (.head _)
    exact begins_cons ⟨isBlank_digit digit, isDigit_ne digit rfl, isDigit_ne digit rfl⟩

theorem Derives.begins {phrase : Phrase} (derives : Derives phrase text) : Begins text := by
  induction derives with
  | nullWord | trueWord | falseWord | text | emptyList | list | emptyRecord | record => exact begins_cons (by decide)
  | number numeral =>
    cases numeral with
    | parts signs whole =>
      rcases signs with rfl | rfl
      · exact whole.begins.append _
      · exact begins_cons (by decide)
  | item before_blank _ _ ih => exact (ih.append _).behind before_blank
  | member before_blank => exact (begins_cons (by decide)).behind before_blank
  | lastItem _ ih | lastMember _ ih => exact ih
  | moreItems _ _ ih | moreMembers _ _ ih => exact ih.append _

def Bracket.inside : Bracket → SkipState
  | .list => .value
  | .record => .key

theorem skip_opened (begins : Begins text) :
    skip .opened (bracket :: outer) text = skip bracket.inside (bracket :: outer) text := by
  obtain ⟨gap, c, rest, rfl, blank, solid, open_list, open_record⟩ := begins
  have stays : bracket.inside = .value ∨ bracket.inside = .opened ∨ bracket.inside = .after ∨ bracket.inside = .key ∨
      bracket.inside = .colon := by
    cases bracket <;> simp [Bracket.inside]
  have same : skipStep .opened (bracket :: outer) c rest = skipStep bracket.inside (bracket :: outer) c rest := by
    cases bracket <;> simp [skipStep, Bracket.inside, solid, open_list, open_record]
  rw [skip_blank (by simp) blank, skip_blank stays blank, skip, skip, same]

/-- What a skip has left to do once a phrase is behind it. -/
def Skipped : Phrase → List Char → Prop
  | .value, text => ∀ brackets rest, Ends rest → skip .value brackets (text ++ rest) = closed brackets rest
  | .item, text => ∀ bracket outer rest, Ends rest →
      skip .value (bracket :: outer) (text ++ rest) = skip .after (bracket :: outer) rest
  | .items, text => ∀ outer rest, skip .value (.list :: outer) (text ++ ']' :: rest) = closed outer rest
  | .member, text => ∀ outer rest, Ends rest →
      skip .key (.record :: outer) (text ++ rest) = skip .after (.record :: outer) rest
  | .members, text => ∀ outer rest, skip .key (.record :: outer) (text ++ '\x7d' :: rest) = closed outer rest

theorem Derives.skipped {phrase : Phrase} (derives : Derives phrase text) : Skipped phrase text := by
  induction derives with
  | nullWord | trueWord | falseWord =>
    intro brackets rest _
    simp only [List.cons_append, List.nil_append]
    repeat rw [skip_go rfl]
    exact skip_close rfl
  | number numeral => exact fun brackets rest ends => skip_numeral numeral ends
  | text quoted => exact fun brackets rest _ => skip_text quoted
  | @emptyList gap blank =>
    intro brackets rest _
    rw [List.append_assoc, List.cons_append, skip_go rfl, skip_blank (by simp) blank]
    exact skip_close rfl
  | @emptyRecord gap blank =>
    intro brackets rest _
    rw [List.append_assoc, List.cons_append, skip_go rfl, skip_blank (by simp) blank]
    exact skip_close rfl
  | @list inner items ih =>
    intro brackets rest _
    rw [List.append_assoc, List.cons_append, skip_go rfl, skip_opened (items.begins.append _)]
    exact ih brackets rest
  | @record inner members ih =>
    intro brackets rest _
    rw [List.append_assoc, List.cons_append, skip_go rfl, skip_opened (members.begins.append _)]
    exact ih brackets rest
  | @item before value behind before_blank _ behind_blank ih =>
    intro bracket outer rest ends
    rw [List.append_assoc, List.append_assoc, skip_blank (by simp) before_blank, ih _ _ (ends.blank behind_blank)]
    exact skip_blank (by simp) behind_blank
  | lastItem _ ih =>
    intro outer rest
    rw [ih _ _ _ (.cons rfl)]
    exact skip_close rfl
  | moreItems _ _ ih ih_rest =>
    intro outer rest
    rw [List.append_assoc, List.cons_append, ih _ _ _ (.cons rfl), skip_go rfl]
    exact ih_rest outer rest
  | @member before written gap item before_blank quoted gap_blank _ ih =>
    intro outer rest ends
    simp only [List.append_assoc, List.cons_append]
    rw [skip_blank (by simp) before_blank, skip_go rfl, skip_quoted (.inr rfl) quoted, skip_go rfl,
      skip_blank (by simp) gap_blank, skip_go rfl]
    exact ih _ _ _ ends
  | lastMember _ ih =>
    intro outer rest
    rw [ih _ _ (.cons rfl)]
    exact skip_close rfl
  | moreMembers _ _ ih ih_rest =>
    intro outer rest
    rw [List.append_assoc, List.cons_append, ih _ _ (.cons rfl), skip_go rfl]
    exact ih_rest outer rest

/-- Any value may stand where one is skipped, and nothing else goes with it. -/
theorem skipValue_value {gap : List Char} (blank : Blank gap) (derives : Derives .value text) (ends : Ends rest) :
    skipValue (gap ++ (text ++ rest)) = .ok rest := by
  rw [skipValue, skip_blank (by simp) blank]
  exact derives.skipped [] rest ends

end LazyGraph.Settings
