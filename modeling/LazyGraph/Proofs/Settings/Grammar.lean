/-! The grammar of JSON.

Nothing here knows how text is read. A value is a text that the grammar derives. A string spells a
text if its escapes are those of whole characters; half a surrogate pair is grammatical and spells
nothing. -/

set_option autoImplicit false

namespace LazyGraph.Settings

def Blank (text : List Char) : Prop :=
  ∀ c ∈ text, c = ' ' ∨ c = '\n' ∨ c = '\t' ∨ c = '\r'

instance (text : List Char) : Decidable (Blank text) :=
  List.decidableBAll _ text

theorem Blank.none : Blank [] :=
  nofun

/-! ### Strings -/

def Hex (c : Char) (value : Nat) : Prop :=
  value < 16 ∧ (c = Nat.digitChar value ∨ c = (Nat.digitChar value).toUpper)

instance (c : Char) (value : Nat) : Decidable (Hex c value) :=
  inferInstanceAs (Decidable (value < 16 ∧ (c = Nat.digitChar value ∨ c = (Nat.digitChar value).toUpper)))

inductive FourHex : List Char → Nat → Prop where
  | digits {a b c d : Char} {first second third fourth : Nat} (a_is : Hex a first) (b_is : Hex b second)
      (c_is : Hex c third) (d_is : Hex d fourth) :
      FourHex [a, b, c, d] (16 * (16 * (16 * first + second) + third) + fourth)

def Bare (c : Char) : Prop :=
  c ≠ '"' ∧ c ≠ '\\' ∧ 0x20 ≤ c.toNat

instance (c : Char) : Decidable (Bare c) :=
  inferInstanceAs (Decidable (c ≠ '"' ∧ c ≠ '\\' ∧ 0x20 ≤ c.toNat))

/-- The characters that may follow a backslash, with what they stand for then. -/
def shorthands : List (Char × Char) :=
  [('"', '"'), ('\\', '\\'), ('/', '/'), ('b', Char.ofNat 8), ('f', Char.ofNat 12), ('n', '\n'), ('r', '\r'),
   ('t', '\t')]

inductive Quoted : List Char → Prop where
  | empty : Quoted []
  | bare {c : Char} {rest : List Char} (bare : Bare c) (quoted : Quoted rest) : Quoted (c :: rest)
  | short {c meaning : Char} {rest : List Char} (listed : (c, meaning) ∈ shorthands) (quoted : Quoted rest) :
      Quoted ('\\' :: c :: rest)
  | unit {digits rest : List Char} {value : Nat} (unit : FourHex digits value) (quoted : Quoted rest) :
      Quoted ('\\' :: 'u' :: digits ++ rest)

inductive Spells : (written text : List Char) → Prop where
  | empty : Spells [] []
  | bare {c : Char} {rest text : List Char} (bare : Bare c) (spells : Spells rest text) : Spells (c :: rest) (c :: text)
  | short {c meaning : Char} {rest text : List Char} (listed : (c, meaning) ∈ shorthands) (spells : Spells rest text) :
      Spells ('\\' :: c :: rest) (meaning :: text)
  | unit {digits rest text : List Char} {value : Nat} (unit : FourHex digits value) (scalar : value.isValidChar)
      (spells : Spells rest text) : Spells ('\\' :: 'u' :: digits ++ rest) (Char.ofNat value :: text)
  | pair {leading trailing rest text : List Char} {high low : Nat} (leads : FourHex leading (0xd800 + high))
      (trails : FourHex trailing (0xdc00 + low)) (high_fits : high < 0x400) (low_fits : low < 0x400)
      (spells : Spells rest text) :
      Spells ('\\' :: 'u' :: leading ++ '\\' :: 'u' :: trailing ++ rest)
        (Char.ofNat (0x10000 + high * 0x400 + low) :: text)

/-! ### Numbers -/

def Digits (text : List Char) : Prop :=
  ∀ c ∈ text, c.isDigit = true

instance (text : List Char) : Decidable (Digits text) :=
  List.decidableBAll _ text

inductive Whole : List Char → Prop where
  | zero : Whole ['0']
  | positive {c : Char} {rest : List Char} (digits : Digits (c :: rest)) (leading : c ≠ '0') : Whole (c :: rest)

inductive Fraction : List Char → Prop where
  | none : Fraction []
  | some {c : Char} {rest : List Char} (digits : Digits (c :: rest)) : Fraction ('.' :: c :: rest)

inductive Exponent : List Char → Prop where
  | none : Exponent []
  | some {mark c : Char} {sign rest : List Char} (marks : mark = 'e' ∨ mark = 'E')
      (signs : sign = [] ∨ sign = ['+'] ∨ sign = ['-']) (digits : Digits (c :: rest)) :
      Exponent (mark :: sign ++ c :: rest)

inductive Numeral : List Char → Prop where
  | parts {sign whole fraction exponent : List Char} (signs : sign = [] ∨ sign = ['-']) (is_whole : Whole whole)
      (is_fraction : Fraction fraction) (is_exponent : Exponent exponent) :
      Numeral (sign ++ (whole ++ (fraction ++ exponent)))

/-! ### Values -/

inductive Phrase where
  | value
  | item
  | items
  | member
  | members
  deriving DecidableEq, Repr

inductive Derives : Phrase → List Char → Prop where
  | nullWord : Derives .value ['n', 'u', 'l', 'l']
  | trueWord : Derives .value ['t', 'r', 'u', 'e']
  | falseWord : Derives .value ['f', 'a', 'l', 's', 'e']
  | number {text : List Char} (numeral : Numeral text) : Derives .value text
  | text {written : List Char} (quoted : Quoted written) : Derives .value ('"' :: written ++ ['"'])
  | emptyList {gap : List Char} (blank : Blank gap) : Derives .value ('[' :: gap ++ [']'])
  | list {inner : List Char} (items : Derives .items inner) : Derives .value ('[' :: inner ++ [']'])
  | emptyRecord {gap : List Char} (blank : Blank gap) : Derives .value ('\x7b' :: gap ++ ['\x7d'])
  | record {inner : List Char} (members : Derives .members inner) : Derives .value ('\x7b' :: inner ++ ['\x7d'])
  | item {before value behind : List Char} (before_blank : Blank before) (derives : Derives .value value)
      (behind_blank : Blank behind) : Derives .item (before ++ (value ++ behind))
  | lastItem {text : List Char} (item : Derives .item text) : Derives .items text
  | moreItems {text rest : List Char} (item : Derives .item text) (items : Derives .items rest) :
      Derives .items (text ++ ',' :: rest)
  | member {before written gap item : List Char} (before_blank : Blank before) (quoted : Quoted written)
      (gap_blank : Blank gap) (derives : Derives .item item) :
      Derives .member (before ++ '"' :: (written ++ '"' :: (gap ++ ':' :: item)))
  | lastMember {text : List Char} (member : Derives .member text) : Derives .members text
  | moreMembers {text rest : List Char} (member : Derives .member text) (members : Derives .members rest) :
      Derives .members (text ++ ',' :: rest)

end LazyGraph.Settings
