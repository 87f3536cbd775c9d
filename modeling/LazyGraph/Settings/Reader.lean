import LazyGraph.Settings.Scan

/-! Reading a record of settings.

The text is an object with any of the settings, in any order and at most once
each, among fields of other names, which are skipped; or a list of the first
settings in their declared order. A setting not given keeps its default. The first
trouble met from left to right decides. -/

set_option autoImplicit false

namespace LazyGraph.Settings

/-- A setting of a configuration `σ`: its name, and how its value is read. -/
structure Setting (σ : Type) where
  name : String
  read : List Char → Except Trouble ((σ → σ) × List Char)

def readWord (input : List Char) : Except Trouble (UInt64 × List Char) :=
  match skipBlank input with
  | [] => .error .ended
  | c :: rest => if c = '-' || c.isDigit then scanWord (c :: rest) else .error (wrongKind (c :: rest))

def readBool (input : List Char) : Except Trouble (Bool × List Char) :=
  match skipBlank input with
  | [] => .error .ended
  | 't' :: rest => do return (true, ← literal ['r', 'u', 'e'] rest)
  | 'f' :: rest => do return (false, ← literal ['a', 'l', 's', 'e'] rest)
  | input => .error (wrongKind input)

def readOptionalWord (input : List Char) : Except Trouble (Option UInt64 × List Char) :=
  match skipBlank input with
  | 'n' :: rest => do return (none, ← literal ['u', 'l', 'l'] rest)
  | input => do
      let (value, rest) ← readWord input
      return (some value, rest)

namespace Setting

variable {σ : Type}

/-- A setting whose values `reader` reads and `store` puts in place. -/
def ofReader {α : Type} (name : String) (reader : List Char → Except Trouble (α × List Char))
    (store : α → σ → σ) : Setting σ where
  name := name
  read input := do
    let (value, rest) ← reader input
    return (store value, rest)

end Setting

variable {σ : Type}

/-- Reads the values of a list, one for each setting. A list may stop early. -/
def readItems (settings : List (Setting σ)) (first : Bool) (config : σ) (input : List Char) :
    Except Trouble (σ × List Char) :=
  match settings, skipBlank input with
  | _, [] => .error .ended
  | _, ']' :: rest => .ok (config, rest)
  | [], _ :: _ => .error .malformed
  | setting :: settings, c :: rest =>
    if first then do
      let (store, rest) ← setting.read (c :: rest)
      readItems settings false (store config) rest
    else if c = ',' then
      match skipBlank rest with
      | [] => .error .ended
      | ']' :: _ => .error .malformed
      | rest => do
        let (store, rest) ← setting.read rest
        readItems settings false (store config) rest
    else .error .malformed

/-- How a record goes on, with the text after the closing brace or the opening quote. -/
inductive NextKey where
  | closed (rest : List Char)
  | key (rest : List Char)
  deriving DecidableEq, Repr

/-- Reads up to the quote that opens the next key, or to the end of the record. -/
def nextKey (first : Bool) (input : List Char) : Except Trouble NextKey :=
  match skipBlank input with
  | [] => .error .ended
  | '\x7d' :: rest => .ok (.closed rest)
  | c :: rest =>
    if first then
      if c = '"' then .ok (.key rest) else .error .malformed
    else if c = ',' then
      match skipBlank rest with
      | [] => .error .ended
      | '"' :: rest => .ok (.key rest)
      | _ => .error .malformed
    else .error .malformed

def readColon (input : List Char) : Except Trouble (List Char) :=
  match skipBlank input with
  | [] => .error .ended
  | ':' :: rest => .ok rest
  | _ => .error .malformed

/-- Reads one field after the quote that opens its key: the names given so far, the
configuration and the rest of the text. -/
def readField (settings : List (Setting σ)) (given : List String) (config : σ) (input : List Char) :
    Except Trouble (List String × σ × List Char) := do
  let (key, rest) ← scanText .plain [] input
  match settings.find? fun setting => setting.name == key with
  | some setting =>
    if given.contains key then .error .mistyped
    else
      let rest ← readColon rest
      let (store, rest) ← setting.read rest
      return (key :: given, store config, rest)
  | none =>
    let rest ← readColon rest
    let rest ← skipValue rest
    return (given, config, rest)

/-- Reads fields up to the closing brace. Each field takes at least one character, so
`fuel` of them are enough for a text of that length. -/
def readFields (settings : List (Setting σ)) :
    (fuel : Nat) → (first : Bool) → (given : List String) → (config : σ) → (input : List Char) →
    Except Trouble (σ × List Char)
  | 0, _, _, _, _ => .error .ended
  | fuel + 1, first, given, config, input =>
    match nextKey first input with
    | .error trouble => .error trouble
    | .ok (.closed rest) => .ok (config, rest)
    | .ok (.key rest) =>
      match readField settings given config rest with
      | .error trouble => .error trouble
      | .ok (given, config, rest) => readFields settings fuel false given config rest

def readText (settings : List (Setting σ)) (default : σ) (text : String) : Except Trouble σ := do
  let (config, rest) ← match skipBlank text.toList with
    | [] => .error .ended
    | '[' :: rest => readItems settings true default rest
    | '\x7b' :: rest => readFields settings (rest.length + 1) true [] default rest
    | input => .error (wrongKind input)
  match skipBlank rest with
  | [] => return config
  | _ => .error .malformed

end LazyGraph.Settings
