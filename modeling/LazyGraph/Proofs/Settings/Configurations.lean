import LazyGraph.Proofs.Settings.Records
import LazyGraph.Settings

/-! Configurations and their text.

The text of a configuration is a record that gives every setting, so it is read back as it was. Any
other record of settings is read as well, and what it does not give keeps its default. -/

set_option autoImplicit false

namespace LazyGraph

open Settings

variable {c : Char} {rest text : List Char}

/-! ### Text of documents -/

theorem padded_toDigits : ∀ n < 0x20,
    List.replicate (4 - (Nat.toDigits 16 n).length) '0' ++ Nat.toDigits 16 n =
      ['0', '0', Nat.digitChar (n / 16), Nat.digitChar (n % 16)] := by
  decide

theorem fourHex_control {n : Nat} (small : n < 0x20) :
    FourHex ['0', '0', Nat.digitChar (n / 16), Nat.digitChar (n % 16)] n := by
  have zero : Hex '0' 0 := ⟨by decide, .inl rfl⟩
  have unit := FourHex.digits zero zero (c := Nat.digitChar (n / 16)) (d := Nat.digitChar (n % 16))
    ⟨by omega, .inl rfl⟩ ⟨Nat.mod_lt n (by decide), .inl rfl⟩
  rwa [Nat.mul_zero, Nat.zero_add, Nat.div_add_mod] at unit

/-- What a character becomes in a literal spells the character. -/
theorem spells_escapedChar (c : Char) (spells : Spells rest text) :
    Spells ((Document.escapedChar c).toList ++ rest) (c :: text) := by
  have short : ∀ {literal : String} {d}, literal.toList = ['\\', d] → (d, c) ∈ shorthands →
      Spells (literal.toList ++ rest) (c :: text) := by
    intro literal d written listed
    rw [written]
    exact .short listed spells
  have numbered : ∀ {n}, c.toNat = n → c = Char.ofNat n := by
    rintro n rfl
    exact (Char.ofNat_toNat c).symm
  unfold Document.escapedChar
  split
  · rename_i quote
    exact short (d := '"') rfl (by simp [quote, shorthands])
  split
  · rename_i backslash
    exact short (d := '\\') rfl (by simp [backslash, shorthands])
  split
  · rename_i eight
    exact short (d := 'b') rfl (by simp [numbered eight, shorthands])
  split
  · rename_i twelve
    exact short (d := 'f') rfl (by simp [numbered twelve, shorthands])
  split
  · rename_i line
    exact short (d := 'n') rfl (by simp [line, shorthands])
  split
  · rename_i carriage
    exact short (d := 'r') rfl (by simp [carriage, shorthands])
  split
  · rename_i tab
    exact short (d := 't') rfl (by simp [tab, shorthands])
  split
  · rename_i control
    have unit := Spells.unit (fourHex_control control) (.inl (by omega)) spells
    rw [Char.ofNat_toNat] at unit
    simpa [padded_toDigits _ control] using unit
  · rename_i quote backslash _ _ _ _ _ control
    simpa using Spells.bare ⟨quote, backslash, Nat.not_lt.mp control⟩ spells

theorem spells_textLiteral (key : String) : ∃ written,
    (Document.textLiteral key).toList = '"' :: (written ++ ['"']) ∧ Spells written key.toList := by
  refine ⟨key.toList.flatMap fun c => (Document.escapedChar c).toList, ?_, ?_⟩
  · simp [Document.textLiteral, String.toList_join, List.flatMap_map]
  · induction key.toList with
    | nil => exact .empty
    | cons c text ih => exact spells_escapedChar c ih

theorem digitChar_ne_zero : ∀ n < 10, n ≠ 0 → Nat.digitChar n ≠ '0' := by
  decide

theorem toDigits_leading {n : Nat} (positive : n ≠ 0) : ∃ c digits, Nat.toDigits 10 n = c :: digits ∧ c ≠ '0' := by
  induction n using Nat.strongRecOn with
  | ind n ih =>
    rw [Nat.toDigits_eq_if (by decide)]
    split
    · rename_i small
      exact ⟨_, [], rfl, digitChar_ne_zero n small positive⟩
    · obtain ⟨c, digits, same, leading⟩ := ih (n / 10) (by omega) (by omega)
      exact ⟨c, _, by rw [same, List.cons_append], leading⟩

theorem whole_toDigits (n : Nat) : Whole (Nat.toDigits 10 n) := by
  by_cases zero : n = 0
  · subst zero
    exact .zero
  · obtain ⟨c, digits, same, leading⟩ := toDigits_leading zero
    have all : Digits (Nat.toDigits 10 n) := fun d member => Nat.isDigit_of_mem_toDigits (by decide) (by decide) member
    rw [same] at all ⊢
    exact .positive all leading

/-- The fields of a document and the texts of their values. -/
def Document.given (fields : List (String × Document)) : List (String × List Char) :=
  fields.map fun field => (field.1, field.2.compact.toList)

theorem member_compact (name : String) (item : Document) :
    Member name item.compact.toList (Document.textLiteral name ++ ":" ++ item.compact).toList := by
  obtain ⟨written, literal, spells⟩ := spells_textLiteral name
  have member : Member name item.compact.toList _ :=
    .parts .none spells .none .none .none
  simpa [literal] using member

theorem members_compact (field : String × Document) (fields : List (String × Document)) :
    Members (Document.given (field :: fields)) (",".intercalate (Document.compactFields (field :: fields))).toList := by
  induction fields generalizing field with
  | nil => exact .last (member_compact field.1 field.2)
  | cons next fields ih =>
    have more := Members.more (member_compact field.1 field.2) (ih next)
    simpa [Document.given, Document.compactFields, String.intercalate_cons_cons] using more

theorem record_compact (fields : List (String × Document)) :
    RecordText (Document.given fields) (Document.record fields).compact.toList := by
  cases fields with
  | nil => exact .empty .none .none .none
  | cons field fields =>
    have record := RecordText.full .none (members_compact field fields) .none
    simpa [Document.compact] using record

/-! ### Documents of configurations -/

namespace Settings

def Kind.document : (kind : Kind) → kind.Value → Document
  | .word, (value : UInt64) => .nat value.toNat
  | .optional, (value : Option UInt64) => .optional value
  | .flag, (value : Bool) => .bool value

theorem writesWord_compact (word : UInt64) : WritesWord (Document.nat word.toNat).compact.toList word where
  whole := by
    rw [Document.compact, Nat.toString_eq_ofList_toDigits, String.toList_ofList]
    exact whole_toDigits _
  amount := by
    rw [Document.compact, Nat.toString_eq_ofList_toDigits, String.toList_ofList]
    exact Nat.ofDigitChars_ten_toDigits

theorem Kind.writes_document (kind : Kind) (value : kind.Value) :
    kind.Writes (kind.document value).compact.toList value := by
  cases kind with
  | word => exact writesWord_compact value
  | optional =>
    cases value with
    | none => rfl
    | some word => exact writesWord_compact word
  | flag => cases value <;> rfl

variable {σ : Type} {entries : List (Entry σ)} {config : σ}

/-- What a configuration holds, in the order of the entries. -/
def Entry.fields (entries : List (Entry σ)) (config : σ) : List (String × Document) :=
  entries.map fun entry => (entry.name, entry.kind.document (entry.get config))

theorem mem_given_fields {name : String} :
    (name, text) ∈ Document.given (Entry.fields entries config) ↔
      ∃ entry ∈ entries, entry.name = name ∧ (entry.kind.document (entry.get config)).compact.toList = text := by
  simp [Document.given, Entry.fields]

theorem suits_fields (layout : Layout entries) (config : σ) :
    Suits entries (Document.given (Entry.fields entries config)) where
  once entry _ := by
    have names : (Document.given (Entry.fields entries config)).map Prod.fst = entries.map Entry.name := by
      simp only [Document.given, Entry.fields, List.map_map]
      rfl
    rw [names]
    exact List.nodup_iff_count_le_one.mp layout.names _
  known entry member text found := by
    obtain ⟨other, other_member, same, rfl⟩ := mem_given_fields.mp found
    obtain rfl := layout.same member other_member same
    exact ⟨_, other.kind.writes_document _⟩
  unknown name text found unknown := by
    obtain ⟨entry, member, same, _⟩ := mem_given_fields.mp found
    exact absurd same (unknown entry member)

/-- The text of a configuration gives every setting, so no default is left. -/
theorem readText_fields (layout : Layout entries) (config default : σ) :
    readText (entries.map Entry.setting) default (Document.record (Entry.fields entries config)).compact =
      .ok config := by
  obtain ⟨after, read, replaces⟩ :=
    readText_replaces layout (record_compact (Entry.fields entries config)) (suits_fields layout config) default
  rw [read]
  refine congrArg _ (layout.complete after config fun entry member => ?_)
  exact (replaces entry member).1 _ _ (mem_given_fields.mpr ⟨entry, member, rfl, rfl⟩) (entry.kind.writes_document _)

end Settings

/-! ### Configurations of evaluators and heaps -/

def EvalSettings.entries : List (Settings.Entry EvalSettings) :=
  [⟨"max_work_stack", .word, maxWorkStack, fun value config => { config with maxWorkStack := value }, fun _ _ => rfl⟩,
   ⟨"max_steps", .optional, maxSteps, fun value config => { config with maxSteps := value }, fun _ _ => rfl⟩,
   ⟨"time_limit_ms", .optional, timeLimit, fun value config => { config with timeLimit := value }, fun _ _ => rfl⟩,
   ⟨"trace", .flag, trace, fun value config => { config with trace := value }, fun _ _ => rfl⟩,
   ⟨"wait_poll_ms", .word, waitPoll, fun value config => { config with waitPoll := value }, fun _ _ => rfl⟩]

def HeapSettings.entries : List (Settings.Entry HeapSettings) :=
  [⟨"gc_threshold", .word, threshold, fun value config => { config with threshold := value }, fun _ _ => rfl⟩,
   ⟨"gc_enabled", .flag, enabled, fun value config => { config with enabled := value }, fun _ _ => rfl⟩,
   ⟨"max_nodes", .optional, maxNodes, fun value config => { config with maxNodes := value }, fun _ _ => rfl⟩]

theorem EvalSettings.layout : Layout EvalSettings.entries where
  names := by decide
  places := by simp [entries]
  complete := by
    rintro ⟨⟩ ⟨⟩ same
    simpa [entries] using same

theorem HeapSettings.layout : Layout HeapSettings.entries where
  names := by decide
  places := by simp [entries]
  complete := by
    rintro ⟨⟩ ⟨⟩ same
    simpa [entries] using same

/-- The text of a configuration is read back as the configuration. A record that gives some of the
settings, among members of other names with values of any kind, is read as well: what it gives
replaces the defaults, and nothing else does. -/
theorem configurations_decode :
    (∀ config : EvalSettings, EvalSettings.ofJson config.document.compact = .ok config) ∧
    (∀ config : HeapSettings, HeapSettings.ofJson config.document.compact = .ok config) ∧
    (∀ text given, RecordText given text.toList → Suits EvalSettings.entries given →
      ∃ config, EvalSettings.ofJson text = .ok config ∧
        ∀ other, Replaces EvalSettings.entries given {} other ↔ other = config) ∧
    (∀ text given, RecordText given text.toList → Suits HeapSettings.entries given →
      ∃ config, HeapSettings.ofJson text = .ok config ∧
        ∀ other, Replaces HeapSettings.entries given {} other ↔ other = config) :=
  ⟨fun config => readText_fields EvalSettings.layout config {},
   fun config => readText_fields HeapSettings.layout config {},
   fun _ _ record suits => readText_record EvalSettings.layout record suits {},
   fun _ _ record suits => readText_record HeapSettings.layout record suits {}⟩

/-! ### A member without a name, and records with blanks and other members -/

theorem blank_space : Blank [' '] := by
  decide

theorem blank_line : Blank ['\n'] := by
  decide

theorem high_unit : FourHex ['d', '8', '3', 'd'] 0xd83d :=
  .digits (show Hex 'd' 13 by decide) (show Hex '8' 8 by decide) (show Hex '3' 3 by decide) (show Hex 'd' 13 by decide)

-- The key is half a surrogate pair.
def unpaired : String :=
  "\x7b\"\\ud83d\": 1\x7d"

/-- The grammar allows half a surrogate pair, but it spells no text and so it is no name: a record with
such a member is refused, though it gives no setting at all. -/
theorem unpaired_name_refused :
    Derives .value unpaired.toList ∧ (∀ name, ¬ Spells "\\ud83d".toList name) ∧
      EvalSettings.ofJson unpaired = .error .malformed ∧ HeapSettings.ofJson unpaired = .error .malformed := by
  have key : Quoted "\\ud83d".toList := .unit high_unit .empty
  have one : Whole ['1'] := .positive (by decide) (by decide)
  have item : Derives .item [' ', '1'] := .item blank_space (.number (.parts (.inl rfl) one .none .none)) .none
  refine ⟨.record (.lastMember (.member .none key .none item)), ?_, rfl, rfl⟩
  intro name spells
  cases scanText_spells spells [] []

-- A key with an escape, a member that is no setting, and blanks.
def annotated : String :=
  " \x7b\"m\\u0061x_steps\" : 500,\"note\":[\x7b\"a\":-1.5e3\x7d,\"\\ud83d\"],\n\"trace\":true\x7d\n"

def annotations : List (String × List Char) :=
  [("max_steps", "500".toList), ("note", "[\x7b\"a\":-1.5e3\x7d,\"\\ud83d\"]".toList), ("trace", "true".toList)]

theorem spells_bare {text : List Char} (bare : text.all (fun c => decide (Bare c)) = true) : Spells text text := by
  induction text with
  | nil => exact .empty
  | cons c text ih =>
    rw [List.all_cons, Bool.and_eq_true, decide_eq_true_eq] at bare
    exact .bare bare.1 (ih bare.2)

theorem record_annotated : RecordText annotations annotated.toList := by
  have steps : Spells "m\\u0061x_steps".toList "max_steps".toList := by
    have unit : FourHex ['0', '0', '6', '1'] 97 :=
      .digits (show Hex '0' 0 by decide) (show Hex '0' 0 by decide) (show Hex '6' 6 by decide)
        (show Hex '1' 1 by decide)
    exact .bare (c := 'm') (by decide) (.unit unit (by decide) (spells_bare (by decide)))
  have note : Spells "note".toList "note".toList := spells_bare (by decide)
  have trace : Spells "trace".toList "trace".toList := spells_bare (by decide)
  have members : Members annotations _ :=
    .more (.parts .none steps blank_space blank_space .none) <|
    .more (.parts .none note .none .none .none) <|
    .last (.parts blank_line trace .none .none .none)
  exact .full blank_space members blank_line

theorem derives_note : Derives .value "[\x7b\"a\":-1.5e3\x7d,\"\\ud83d\"]".toList := by
  have number : Derives .value "-1.5e3".toList :=
    .number (.parts (.inr rfl) (show Whole ['1'] from .positive (by decide) (by decide))
      (show Fraction ['.', '5'] from .some (by decide))
      (show Exponent ['e', '3'] from .some (.inl rfl) (.inl rfl) (by decide)))
  have key : Quoted ['a'] := .bare (by decide) .empty
  have record : Derives .value "\x7b\"a\":-1.5e3\x7d".toList :=
    .record (.lastMember (.member .none key .none (.item .none number .none)))
  have half : Derives .value "\"\\ud83d\"".toList := .text (.unit high_unit .empty)
  have items : Derives .items "\x7b\"a\":-1.5e3\x7d,\"\\ud83d\"".toList :=
    .moreItems (.item .none record .none) (.lastItem (.item .none half .none))
  exact .list items

theorem writes_five_hundred : Kind.optional.Writes "500".toList (some 500) :=
  ⟨.positive (by decide) (by decide), by decide⟩

theorem suits_annotations : Suits EvalSettings.entries annotations where
  once := by
    simp only [EvalSettings.entries, List.forall_mem_cons]
    decide
  known := by
    have flag : Kind.flag.Writes "true".toList true := rfl
    simpa [EvalSettings.entries, annotations] using And.intro ⟨_, writes_five_hundred⟩ (Or.inr flag)
  unknown name text member other := by
    simp only [annotations, List.mem_cons, Prod.mk.injEq, List.not_mem_nil, or_false] at member
    rcases member with ⟨rfl, rfl⟩ | ⟨rfl, rfl⟩ | ⟨rfl, rfl⟩
    · simp [EvalSettings.entries] at other
    · exact derives_note
    · simp [EvalSettings.entries] at other

theorem replaces_annotations :
    Replaces EvalSettings.entries annotations {} { maxSteps := some 500, trace := true } := by
  have steps : ∀ text value, text = "500".toList → Kind.optional.Writes text value → some 500 = value := by
    rintro _ value rfl writes
    exact Kind.Writes.unique writes_five_hundred writes
  have flag : ¬ Kind.flag.Writes "true".toList false := nofun
  simpa [Replaces, EvalSettings.entries, annotations] using And.intro steps flag

def capped : String :=
  "\x7b \"max_nodes\": 3 \x7d"

theorem record_capped : RecordText [("max_nodes", ['3'])] capped.toList := by
  have name : Spells "max_nodes".toList "max_nodes".toList := spells_bare (by decide)
  exact .full .none (.last (.parts blank_space name .none blank_space blank_space)) .none

theorem writes_three : Kind.optional.Writes ['3'] (some 3) :=
  ⟨.positive (by decide) (by decide), by decide⟩

theorem suits_capped : Suits HeapSettings.entries [("max_nodes", ['3'])] where
  once := by
    simp only [HeapSettings.entries, List.forall_mem_cons]
    decide
  known := by simpa [HeapSettings.entries] using ⟨_, writes_three⟩
  unknown name text member other := by
    simp only [List.mem_singleton, Prod.mk.injEq] at member
    simp [HeapSettings.entries, member.1] at other

theorem replaces_capped : Replaces HeapSettings.entries [("max_nodes", ['3'])] {} { maxNodes := some 3 } := by
  have nodes : ∀ text value, text = ['3'] → Kind.optional.Writes text value → some 3 = value := by
    rintro _ value rfl writes
    exact Kind.Writes.unique writes_three writes
  simpa [Replaces, HeapSettings.entries] using nodes

theorem configurations_decode_annotated :
    (RecordText annotations annotated.toList ∧ Suits EvalSettings.entries annotations ∧
      EvalSettings.ofJson annotated = .ok { maxSteps := some 500, trace := true }) ∧
    RecordText [("max_nodes", ['3'])] capped.toList ∧ Suits HeapSettings.entries [("max_nodes", ['3'])] ∧
      HeapSettings.ofJson capped = .ok { maxNodes := some 3 } := by
  refine ⟨⟨record_annotated, suits_annotations, ?_⟩, record_capped, suits_capped, ?_⟩
  · obtain ⟨config, read, only⟩ := configurations_decode.2.2.1 annotated annotations record_annotated suits_annotations
    rw [read, (only _).mp replaces_annotations]
  · obtain ⟨config, read, only⟩ := configurations_decode.2.2.2 capped _ record_capped suits_capped
    rw [read, (only _).mp replaces_capped]

end LazyGraph
