/-! Scanning JSON text from left to right.

Each scanner takes the characters still to read and returns what it read with the
characters after it, or the first trouble met. Strings and skipped values are
scanned by automata that consume one character at a time. -/

set_option autoImplicit false

namespace LazyGraph.Settings

inductive Trouble where
  | ended
  | malformed
  | mistyped
  deriving DecidableEq, Repr

def isBlank (c : Char) : Bool :=
  c = ' ' || c = '\n' || c = '\t' || c = '\r'

def skipBlank (input : List Char) : List Char :=
  input.dropWhile isBlank

def literal : (expected input : List Char) → Except Trouble (List Char)
  | [], input => .ok input
  | _ :: _, [] => .error .ended
  | e :: expected, c :: rest => if c = e then literal expected rest else .error .malformed

/-! ### Strings -/

def hexValue? (c : Char) : Option Nat :=
  if c.isDigit then some (c.toNat - '0'.toNat)
  else if 'a' ≤ c ∧ c ≤ 'f' then some (c.toNat - 'a'.toNat + 10)
  else if 'A' ≤ c ∧ c ≤ 'F' then some (c.toNat - 'A'.toNat + 10)
  else none

def isHighSurrogate (n : Nat) : Bool := 0xd800 ≤ n && n ≤ 0xdbff

def isLowSurrogate (n : Nat) : Bool := 0xdc00 ≤ n && n ≤ 0xdfff

inductive TextState where
  | plain
  | escape
  -- Inside the four digits of an escape: how many were read, and their value.
  | unit (digits value : Nat)
  | paired (high : Nat)
  | pairedEscape (high : Nat)
  | pairedUnit (high digits value : Nat)
  deriving DecidableEq, Repr

inductive TextMove where
  | go (state : TextState)
  | add (c : Char)
  | done
  | fail (trouble : Trouble)
  deriving DecidableEq, Repr

def unitFollows (rest : List Char) : Bool :=
  4 ≤ (rest.take 4).foldl (fun bytes c => bytes + c.utf8Size) 0

/-- What the four digits of an escape stand for. Strict scanning wants surrogates paired. -/
def unitMove (strict : Bool) (value : Nat) : TextMove :=
  if strict && isLowSurrogate value then .fail .malformed
  else if strict && isHighSurrogate value then .go (.paired value)
  else .add (Char.ofNat value)

def textStep (strict : Bool) (state : TextState) (c : Char) (rest : List Char) : TextMove :=
  match state with
  | .plain =>
    if c = '"' then .done
    else if c = '\\' then .go .escape
    else if c.toNat < 0x20 then .fail .malformed
    else .add c
  | .escape =>
    if c = '"' || c = '\\' || c = '/' then .add c
    else if c = 'b' then .add (Char.ofNat 8)
    else if c = 'f' then .add (Char.ofNat 12)
    else if c = 'n' then .add '\n'
    else if c = 'r' then .add '\r'
    else if c = 't' then .add '\t'
    else if c = 'u' then
      if unitFollows rest then .go (.unit 0 0) else .fail .ended
    else .fail .malformed
  | .unit digits value =>
    match hexValue? c with
    | none => .fail .malformed
    | some digit =>
      if digits = 3 then unitMove strict (16 * value + digit)
      else .go (.unit (digits + 1) (16 * value + digit))
  | .paired high => if c = '\\' then .go (.pairedEscape high) else .fail .malformed
  | .pairedEscape high =>
    if c = 'u' then
      if unitFollows rest then .go (.pairedUnit high 0 0) else .fail .ended
    else .fail .malformed
  | .pairedUnit high digits value =>
    match hexValue? c with
    | none => .fail .malformed
    | some digit =>
      if digits = 3 then
        let low := 16 * value + digit
        if isLowSurrogate low then
          .add (Char.ofNat (0x10000 + (high - 0xd800) * 0x400 + (low - 0xdc00)))
        else .fail .malformed
      else .go (.pairedUnit high (digits + 1) (16 * value + digit))

/-- Reads a string after its opening quote; `read` holds its characters so far, last first. -/
def scanText (state : TextState) (read : List Char) : List Char → Except Trouble (String × List Char)
  | [] => .error .ended
  | c :: rest =>
    match textStep true state c rest with
    | .go state => scanText state read rest
    | .add c => scanText .plain (c :: read) rest
    | .done => .ok (String.ofList read.reverse, rest)
    | .fail trouble => .error trouble

/-! ### Skipping a value -/

inductive Bracket where
  | list
  | record
  deriving DecidableEq, Repr

inductive SkipState where
  | value
  | opened
  | after
  | key
  | keyText (state : TextState)
  | colon
  | text (state : TextState)
  | word (rest : List Char)
  | minus
  | zero
  | digits
  | point
  | fraction
  | exponent
  | exponentSign
  | exponentDigits
  deriving DecidableEq, Repr

inductive SkipMove where
  | go (state : SkipState) (brackets : List Bracket)
  | through
  | before
  | fail (trouble : Trouble)
  deriving DecidableEq, Repr

def closeValue (brackets : List Bracket) : SkipMove :=
  if brackets.isEmpty then .through else .go .after brackets

def valueStep (brackets : List Bracket) (c : Char) : SkipMove :=
  if isBlank c then .go .value brackets
  else if c = 'n' then .go (.word ['u', 'l', 'l']) brackets
  else if c = 't' then .go (.word ['r', 'u', 'e']) brackets
  else if c = 'f' then .go (.word ['a', 'l', 's', 'e']) brackets
  else if c = '"' then .go (.text .plain) brackets
  else if c = '-' then .go .minus brackets
  else if c = '0' then .go .zero brackets
  else if c.isDigit then .go .digits brackets
  else if c = '[' then .go .opened (.list :: brackets)
  else if c = '\x7b' then .go .opened (.record :: brackets)
  else .fail .malformed

def afterStep (brackets : List Bracket) (c : Char) : SkipMove :=
  if isBlank c then .go .after brackets
  else match brackets with
    | .list :: outer =>
      if c = ',' then .go .value brackets else if c = ']' then closeValue outer else .fail .malformed
    | .record :: outer =>
      if c = ',' then .go .key brackets else if c = '\x7d' then closeValue outer else .fail .malformed
    | [] => .before

def afterNumber (brackets : List Bracket) (c : Char) : SkipMove :=
  if brackets.isEmpty then .before else afterStep brackets c

def keyStep (brackets : List Bracket) (c : Char) : SkipMove :=
  if isBlank c then .go .key brackets
  else if c = '"' then .go (.keyText .plain) brackets
  else .fail .malformed

/-- Reads one character of a skipped value; `rest` is what follows it. -/
def skipStep (state : SkipState) (brackets : List Bracket) (c : Char) (rest : List Char) : SkipMove :=
  match state with
  | .value => valueStep brackets c
  | .opened =>
    if isBlank c then .go .opened brackets
    else match brackets with
      | .list :: outer => if c = ']' then closeValue outer else valueStep brackets c
      | .record :: outer => if c = '\x7d' then closeValue outer else keyStep brackets c
      | [] => .fail .malformed
  | .after => afterStep brackets c
  | .key => keyStep brackets c
  | .keyText state =>
    match textStep false state c rest with
    | .go state => .go (.keyText state) brackets
    | .add _ => .go (.keyText .plain) brackets
    | .done => .go .colon brackets
    | .fail trouble => .fail trouble
  | .colon =>
    if isBlank c then .go .colon brackets
    else if c = ':' then .go .value brackets
    else .fail .malformed
  | .text state =>
    match textStep false state c rest with
    | .go state => .go (.text state) brackets
    | .add _ => .go (.text .plain) brackets
    | .done => closeValue brackets
    | .fail trouble => .fail trouble
  | .word [] => .fail .malformed
  | .word (e :: expected) =>
    if c = e then
      if expected.isEmpty then closeValue brackets else .go (.word expected) brackets
    else .fail .malformed
  | .minus =>
    if c = '0' then .go .zero brackets else if c.isDigit then .go .digits brackets else .fail .malformed
  | .zero =>
    if c.isDigit then .fail .malformed
    else if c = '.' then .go .point brackets
    else if c = 'e' || c = 'E' then .go .exponent brackets
    else afterNumber brackets c
  | .digits =>
    if c.isDigit then .go .digits brackets
    else if c = '.' then .go .point brackets
    else if c = 'e' || c = 'E' then .go .exponent brackets
    else afterNumber brackets c
  | .point => if c.isDigit then .go .fraction brackets else .fail .malformed
  | .fraction =>
    if c.isDigit then .go .fraction brackets
    else if c = 'e' || c = 'E' then .go .exponent brackets
    else afterNumber brackets c
  | .exponent =>
    if c = '+' || c = '-' then .go .exponentSign brackets
    else if c.isDigit then .go .exponentDigits brackets
    else .fail .malformed
  | .exponentSign => if c.isDigit then .go .exponentDigits brackets else .fail .malformed
  | .exponentDigits => if c.isDigit then .go .exponentDigits brackets else afterNumber brackets c

/-- The verdict when the text ends in this state. A number cut short breaks the grammar. -/
def skipEnd (state : SkipState) (brackets : List Bracket) : Except Trouble (List Char) :=
  match state with
  | .zero | .digits | .fraction | .exponentDigits => if brackets.isEmpty then .ok [] else .error .ended
  | .minus | .point | .exponent | .exponentSign => .error .malformed
  | _ => .error .ended

def skip (state : SkipState) (brackets : List Bracket) : List Char → Except Trouble (List Char)
  | [] => skipEnd state brackets
  | c :: rest =>
    match skipStep state brackets c rest with
    | .go state brackets => skip state brackets rest
    | .through => .ok rest
    | .before => .ok (c :: rest)
    | .fail trouble => .error trouble

def skipValue (input : List Char) : Except Trouble (List Char) :=
  skip .value [] input

/-! ### Numbers -/

def significand (value : Nat) : List Char → Nat × List Char
  | [] => (value, [])
  | c :: rest =>
    if c.isDigit then
      let next := 10 * value + (c.toNat - '0'.toNat)
      if next < Nat.pow 2 64 then significand next rest else (value, c :: rest)
    else (value, c :: rest)

/-- Scaling the significand, rounded to a double, passes the largest double. -/
def overflows (value : Nat) (exponent : Int) : Bool :=
  value ≠ 0 && (308 < exponent ||
    (0 ≤ exponent && (Float.ofNat value * Float.ofScientific 1 false exponent.toNat).isInf))

/-- A number that is no natural number below 2^64 is mistyped, unless it is too large. -/
def scaled (value : Nat) (exponent : Int) : Trouble :=
  if overflows value exponent then .malformed else .mistyped

/-- The trouble with a number that has an exponent; `input` starts after its mark. -/
def exponentTrouble (value : Nat) (exponent : Int) (input : List Char) : Trouble :=
  let negative := input.head? == some '-'
  let digits := match input with
    | '+' :: rest | '-' :: rest => rest
    | _ => input
  match digits with
  | [] => .ended
  | c :: _ =>
    if c.isDigit then
      let power := (digits.takeWhile Char.isDigit).foldl (fun n d => 10 * n + (d.toNat - '0'.toNat)) 0
      if Nat.pow 2 31 ≤ power then
        if value ≠ 0 && !negative then .malformed else .mistyped
      else if negative then scaled value (exponent - power) else scaled value (exponent + power)
    else .malformed

def exponentOr (value : Nat) (exponent : Int) (input : List Char) : Trouble :=
  match input with
  | 'e' :: rest | 'E' :: rest => exponentTrouble value exponent rest
  | _ => scaled value exponent

/-- The trouble with a number that has a fraction; `input` starts after its point. Digits
beyond 64 bits are dropped. -/
def fractionTrouble (value : Nat) (exponent : Int) (input : List Char) : Trouble :=
  match input with
  | [] => .ended
  | c :: _ =>
    if c.isDigit then
      let (kept, rest) := significand value input
      exponentOr kept (exponent - (input.length - rest.length)) (rest.dropWhile Char.isDigit)
    else .malformed

/-- The trouble with a number that is no natural number below 2^64, from what follows
the digits that fit. -/
def realTrouble (value : Nat) (input : List Char) : Trouble :=
  let beyond := input.takeWhile Char.isDigit
  match input.dropWhile Char.isDigit with
  | '.' :: rest => fractionTrouble value beyond.length rest
  | rest => exponentOr value beyond.length rest

def scanDigits (input : List Char) : Except Trouble (Nat × List Char) :=
  match input with
  | [] => .error .ended
  | '0' :: rest =>
    match rest with
    | c :: _ => if c.isDigit then .error .malformed else .ok (0, rest)
    | [] => .ok (0, rest)
  | c :: _ => if c.isDigit then .ok (significand 0 input) else .error .malformed

def isNumberMark (c : Char) : Bool :=
  c.isDigit || c = '.' || c = 'e' || c = 'E'

/-- Reads a natural number below 2^64; `input` starts with a digit or a minus sign. -/
def scanWord (input : List Char) : Except Trouble (UInt64 × List Char) :=
  match input with
  | '-' :: rest =>
    match scanDigits rest with
    | .ok (value, rest) => .error (realTrouble value rest)
    | .error trouble => .error trouble
  | _ =>
    match scanDigits input with
    | .ok (value, rest) =>
      if (rest.head?.map isNumberMark).getD false then .error (realTrouble value rest)
      else .ok (UInt64.ofNat value, rest)
    | .error trouble => .error trouble

/-- The trouble with a value of the wrong kind: its grammar is still checked, that of a
list or record only at its opening bracket. -/
def wrongKind (input : List Char) : Trouble :=
  let verdict {α : Type} : Except Trouble α → Trouble
    | .ok _ => .mistyped
    | .error trouble => trouble
  match input with
  | 'n' :: rest => verdict (literal ['u', 'l', 'l'] rest)
  | 't' :: rest => verdict (literal ['r', 'u', 'e'] rest)
  | 'f' :: rest => verdict (literal ['a', 'l', 's', 'e'] rest)
  | '"' :: rest => verdict (scanText .plain [] rest)
  | '[' :: _ | '\x7b' :: _ => .mistyped
  | c :: _ => if c = '-' || c.isDigit then verdict (scanWord input) else .malformed
  | [] => .malformed

end LazyGraph.Settings
