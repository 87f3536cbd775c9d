import Mathlib.Data.List.Nodup
import LazyGraph.Proofs.Settings.Values

/-! Records of settings.

A record may give any of the settings, each at most once and in any order, between members of other
names that hold any values. Reading it puts each given value in its place and leaves every other
setting as it was. -/

set_option autoImplicit false

namespace LazyGraph.Settings

/-- A setting by its name, what its values are, and where a configuration keeps it. -/
structure Entry (σ : Type) where
  name : String
  kind : Kind
  get : σ → kind.Value
  set : kind.Value → σ → σ
  get_set : ∀ value config, get (set value config) = value

def Entry.setting {σ : Type} (entry : Entry σ) : Setting σ :=
  .ofReader entry.name entry.kind.reader entry.set

/-! ### Records as they are written -/

/-- A key, a colon and the text of a value, with blanks anywhere between them. -/
inductive Member (name : String) (value : List Char) : List Char → Prop where
  | parts {before written gap lead behind : List Char} (before_blank : Blank before)
      (spells : Spells written name.toList) (gap_blank : Blank gap) (lead_blank : Blank lead)
      (behind_blank : Blank behind) :
      Member name value (before ++ '"' :: (written ++ '"' :: (gap ++ ':' :: (lead ++ (value ++ behind)))))

/-- Members with commas between them, and their names and the texts of their values in order. -/
inductive Members : List (String × List Char) → List Char → Prop where
  | last {name : String} {value text : List Char} (member : Member name value text) : Members [(name, value)] text
  | more {name : String} {value text behind : List Char} {given : List (String × List Char)}
      (member : Member name value text) (members : Members given behind) :
      Members ((name, value) :: given) (text ++ ',' :: behind)

inductive RecordText : List (String × List Char) → List Char → Prop where
  | empty {before gap behind : List Char} (before_blank : Blank before) (gap_blank : Blank gap)
      (behind_blank : Blank behind) : RecordText [] (before ++ '\x7b' :: (gap ++ '\x7d' :: behind))
  | full {before inner behind : List Char} {given : List (String × List Char)} (before_blank : Blank before)
      (members : Members given inner) (behind_blank : Blank behind) :
      RecordText given (before ++ '\x7b' :: (inner ++ '\x7d' :: behind))

variable {σ : Type} {entries : List (Entry σ)} {given : List (String × List Char)} {name : String}
  {text value rest lead gap behind written : List Char} {config middle after : σ} {names : List String}

/-- Every entry is given once at most, with a value of its kind; other members hold any value. -/
structure Suits (entries : List (Entry σ)) (given : List (String × List Char)) : Prop where
  once : ∀ entry ∈ entries, (given.map Prod.fst).count entry.name ≤ 1
  known : ∀ entry ∈ entries, ∀ text, (entry.name, text) ∈ given → ∃ value, entry.kind.Writes text value
  unknown : ∀ name text, (name, text) ∈ given → (∀ entry ∈ entries, entry.name ≠ name) → Derives .value text

/-- The given values have replaced those of the configuration, and nothing else has changed. -/
def Replaces (entries : List (Entry σ)) (given : List (String × List Char)) (config after : σ) : Prop :=
  ∀ entry ∈ entries,
    (∀ text value, (entry.name, text) ∈ given → entry.kind.Writes text value → entry.get after = value) ∧
    (entry.name ∉ given.map Prod.fst → entry.get after = entry.get config)

/-- Entries have names and places of their own, and together they make up a configuration. -/
structure Layout (entries : List (Entry σ)) : Prop where
  names : (entries.map Entry.name).Nodup
  places : ∀ entry ∈ entries, ∀ other ∈ entries, other.name ≠ entry.name →
    ∀ value config, other.get (entry.set value config) = other.get config
  complete : ∀ config other, (∀ entry ∈ entries, entry.get config = entry.get other) → config = other

theorem Layout.same (layout : Layout entries) {entry other : Entry σ} (member : entry ∈ entries)
    (other_member : other ∈ entries) (named : other.name = entry.name) : other = entry :=
  List.inj_on_of_nodup_map layout.names other_member member named

namespace Suits

theorem head (suits : Suits entries ((name, value) :: given)) : Suits entries [(name, value)] where
  once entry _ := by
    rw [List.map_singleton, List.count_singleton]
    split <;> decide
  known entry member text found := suits.known entry member text (by simp_all)
  unknown name text found := suits.unknown name text (by simp_all)

theorem tail (suits : Suits entries ((name, value) :: given)) : Suits entries given where
  once entry member := Nat.le_trans List.count_le_count_cons (suits.once entry member)
  known entry member text found := suits.known entry member text (.tail _ found)
  unknown name text found := suits.unknown name text (.tail _ found)

theorem fresh (suits : Suits entries ((name, value) :: given)) {entry : Entry σ} (member : entry ∈ entries)
    (same : entry.name = name) : entry.name ∉ given.map Prod.fst := by
  have once := suits.once entry member
  subst same
  rw [List.map_cons, List.count_cons_self] at once
  exact List.count_eq_zero.mp (by omega)

end Suits

theorem Replaces.cons (suits : Suits entries ((name, value) :: given))
    (first : Replaces entries [(name, value)] config middle) (others : Replaces entries given middle after) :
    Replaces entries ((name, value) :: given) config after := by
  intro entry member
  refine ⟨fun text read found writes => ?_, fun absent => ?_⟩
  · rcases List.mem_cons.mp found with same | found
    · obtain ⟨named, _⟩ := Prod.mk.inj same
      rw [(others entry member).2 (suits.fresh member named)]
      exact (first entry member).1 text read (by simp [same]) writes
    · exact (others entry member).1 text read found writes
  · rw [List.map_cons, List.mem_cons, not_or] at absent
    rw [(others entry member).2 absent.2]
    exact (first entry member).2 (by simpa using absent.1)

/-! ### Reading them -/

theorem find_setting (entries : List (Entry σ)) (name : String) :
    (∃ entry ∈ entries, entry.name = name ∧
      (entries.map Entry.setting).find? (fun setting => setting.name == name) = some entry.setting) ∨
    ((∀ entry ∈ entries, entry.name ≠ name) ∧
      (entries.map Entry.setting).find? (fun setting => setting.name == name) = none) := by
  rw [List.find?_map]
  cases found : entries.find? ((fun setting => setting.name == name) ∘ Entry.setting) with
  | some entry =>
    have named : entry.name = name := by simpa [Entry.setting, Setting.ofReader] using List.find?_some found
    exact .inl ⟨entry, List.mem_of_find?_eq_some found, named, rfl⟩
  | none =>
    refine .inr ⟨fun entry member same => ?_, rfl⟩
    exact List.find?_eq_none.mp found entry member (by simp [Entry.setting, Setting.ofReader, same])

theorem Replaces.known (layout : Layout entries) {entry : Entry σ} (member : entry ∈ entries) {read : entry.kind.Value}
    (writes : entry.kind.Writes value read) (config : σ) :
    Replaces entries [(entry.name, value)] config (entry.set read config) := by
  intro other other_member
  by_cases named : other.name = entry.name
  · obtain rfl := layout.same member other_member named
    refine ⟨fun text written found stands => ?_, fun absent => absurd (.head _) absent⟩
    obtain rfl : text = value := by simpa using found
    rw [other.get_set]
    exact Kind.Writes.unique writes stands
  · refine ⟨fun text written found => absurd ?_ named, fun _ => layout.places entry member other other_member named _ _⟩
    simpa using congrArg Prod.fst (List.mem_singleton.mp found)

theorem Replaces.unknown (unknown : ∀ entry ∈ entries, entry.name ≠ name) (config : σ) :
    Replaces entries [(name, value)] config config := by
  intro entry member
  refine ⟨fun text written found => absurd ?_ (unknown entry member), fun _ => rfl⟩
  exact congrArg Prod.fst (List.mem_singleton.mp found)

theorem readField_member (layout : Layout entries) (spells : Spells written name.toList) (gap_blank : Blank gap)
    (lead_blank : Blank lead) (suits : Suits entries [(name, value)])
    (fresh : ∀ entry ∈ entries, entry.name = name → name ∉ names) (ends : Ends rest) (config : σ) :
    ∃ names' after, readField (entries.map Entry.setting) names config
        (written ++ '"' :: (gap ++ ':' :: (lead ++ (value ++ rest)))) = .ok (names', after, rest) ∧
      Replaces entries [(name, value)] config after ∧ ∀ other ∈ names', other = name ∨ other ∈ names := by
  have key : scanText .plain [] (written ++ '"' :: (gap ++ ':' :: (lead ++ (value ++ rest)))) =
      .ok (name, gap ++ ':' :: (lead ++ (value ++ rest))) := by
    rw [scanText_spells spells, List.reverse_nil, List.nil_append, String.ofList_toList]
  rw [readField, key]
  rcases find_setting entries name with ⟨entry, member, rfl, found⟩ | ⟨unknown, found⟩
  · obtain ⟨read, writes⟩ := suits.known entry member value (.head _)
    refine ⟨entry.name :: names, entry.set read config, ?_, ?_, ?_⟩
    · have stored : entry.setting.read (lead ++ (value ++ rest)) = .ok (entry.set read, rest) := by
        simp only [Entry.setting, Setting.ofReader, Kind.read writes lead_blank ends]
        rfl
      have absent : names.contains entry.name = false := by simpa using fresh entry member rfl
      simp only [bind, Except.bind, found, absent, Bool.false_eq_true, if_false, readColon_blank gap_blank, stored]
      rfl
    · exact .known layout member writes config
    · intro other found
      exact List.mem_cons.mp found
  · refine ⟨names, config, ?_, ?_, fun other member => .inr member⟩
    · have skipped := skipValue_value lead_blank (suits.unknown name value (.head _) unknown) ends
      simp only [bind, Except.bind, found, readColon_blank gap_blank, skipped]
      rfl
    · exact .unknown unknown config

/-- What stands between the brace, or the value before, and the key of a member. -/
inductive Opening : Bool → List Char → Prop where
  | first : Opening true []
  | later {gap : List Char} (blank : Blank gap) : Opening false (gap ++ [','])

theorem nextKey_key {first : Bool} (opening : Opening first lead) (blank : Blank gap) (rest : List Char) :
    nextKey first (lead ++ (gap ++ '"' :: rest)) = .ok (.key rest) := by
  cases opening with
  | first => simp [nextKey, skipBlank_blank blank, skipBlank_solid (c := '"') rfl]
  | later before_blank =>
    simp [nextKey, skipBlank_blank before_blank, skipBlank_solid (c := ',') rfl, skipBlank_blank blank,
      skipBlank_solid (c := '"') rfl]

theorem nextKey_closed (first : Bool) (blank : Blank gap) (rest : List Char) :
    nextKey first (gap ++ '\x7d' :: rest) = .ok (.closed rest) := by
  simp [nextKey, skipBlank_blank blank, skipBlank_solid (c := '\x7d') rfl]

theorem readFields_member (layout : Layout entries) {first : Bool} (opening : Opening first lead)
    (member : Member name value text) (suits : Suits entries [(name, value)])
    (fresh : ∀ entry ∈ entries, entry.name = name → name ∉ names) (fuel : Nat) (config : σ) (ends : Ends rest) :
    ∃ names' middle behind, Blank behind ∧
      readFields (entries.map Entry.setting) (fuel + 1) first names config (lead ++ (text ++ rest)) =
        readFields (entries.map Entry.setting) fuel false names' middle (behind ++ rest) ∧
      Replaces entries [(name, value)] config middle ∧ ∀ other ∈ names', other = name ∨ other ∈ names := by
  cases member with
  | @parts before written gap lead behind before_blank spells gap_blank lead_blank behind_blank =>
    obtain ⟨names', middle, read, replaces, kept⟩ :=
      readField_member layout spells gap_blank lead_blank suits fresh (ends.blank behind_blank) config
    refine ⟨names', middle, behind, behind_blank, ?_, replaces, kept⟩
    simp only [List.append_assoc, List.cons_append, readFields, nextKey_key opening before_blank, read]

theorem Member.length_pos (member : Member name value text) : 0 < text.length := by
  cases member with
  | parts =>
    simp only [List.length_append, List.length_cons]
    omega

theorem readFields_members (layout : Layout entries) (members : Members given text) {first : Bool}
    (opening : Opening first lead) (suits : Suits entries given)
    (fresh : ∀ entry ∈ entries, entry.name ∈ given.map Prod.fst → entry.name ∉ names) {fuel : Nat}
    (enough : text.length < fuel) (config : σ) (rest : List Char) :
    ∃ after, readFields (entries.map Entry.setting) fuel first names config (lead ++ (text ++ '\x7d' :: rest)) =
        .ok (after, rest) ∧ Replaces entries given config after := by
  induction members generalizing first lead names fuel config with
  | @last name value text member =>
    have closing : Ends ('\x7d' :: rest) := .cons rfl
    obtain ⟨fuel, rfl⟩ : ∃ more, fuel = more + 2 := ⟨fuel - 2, by have := member.length_pos; omega⟩
    obtain ⟨names', after, behind, blank, read, replaces, _⟩ := readFields_member layout opening member suits
      (fun entry known same => same ▸ fresh entry known (by simp [same])) (fuel + 1) config
      closing
    refine ⟨after, read.trans ?_, replaces⟩
    simp only [readFields, nextKey_closed false blank]
  | @more name value text behind given member members ih =>
    have comma : Ends (',' :: (behind ++ '\x7d' :: rest)) := .cons rfl
    obtain ⟨fuel, rfl⟩ : ∃ more, fuel = more + 1 := ⟨fuel - 1, by omega⟩
    obtain ⟨names', middle, gap, blank, read, replaces, kept⟩ := readFields_member layout opening member suits.head
      (fun entry known same => same ▸ fresh entry known (by simp [same])) fuel config
      comma
    have still_fresh : ∀ entry ∈ entries, entry.name ∈ given.map Prod.fst → entry.name ∉ names' := by
      intro entry known later found
      rcases kept _ found with same | found
      · exact suits.fresh known same later
      · exact fresh entry known (.tail _ later) found
    have fits : behind.length < fuel := by
      simp only [List.length_append, List.length_cons] at enough
      omega
    obtain ⟨after, read_rest, others⟩ := ih (.later blank) suits.tail still_fresh fits middle
    refine ⟨after, ?_, replaces.cons suits others⟩
    rw [List.append_assoc, List.cons_append, read, ← read_rest, List.append_assoc, List.singleton_append]

theorem Replaces.unique (layout : Layout entries) (suits : Suits entries given)
    (first : Replaces entries given config middle) (second : Replaces entries given config after) : middle = after := by
  refine layout.complete middle after fun entry member => ?_
  by_cases found : entry.name ∈ given.map Prod.fst
  · obtain ⟨⟨_, text⟩, listed, rfl⟩ := List.mem_map.mp found
    obtain ⟨value, writes⟩ := suits.known entry member text listed
    rw [(first entry member).1 text value listed writes, (second entry member).1 text value listed writes]
  · rw [(first entry member).2 found, (second entry member).2 found]

/-- A record that suits the entries is read, and replaces what it gives. -/
theorem readText_replaces (layout : Layout entries) {text : String} (record : RecordText given text.toList)
    (suits : Suits entries given) (config : σ) :
    ∃ after, readText (entries.map Entry.setting) config text = .ok after ∧ Replaces entries given config after := by
  have ended : ∀ {gap}, Blank gap → skipBlank gap = [] := by
    intro gap blank
    have skipped := skipBlank_blank blank []
    rwa [List.append_nil] at skipped
  generalize written : text.toList = input at record
  cases record with
  | @empty before gap behind before_blank gap_blank behind_blank =>
    refine ⟨config, ?_, fun entry member => ⟨nofun, fun _ => rfl⟩⟩
    have opened : skipBlank text.toList = '\x7b' :: (gap ++ '\x7d' :: behind) := by
      rw [written, skipBlank_blank before_blank, skipBlank_solid rfl]
    simp only [readText, opened, readFields, nextKey_closed true gap_blank, bind, Except.bind, ended behind_blank]
    rfl
  | @full before inner behind given before_blank members behind_blank =>
    have opened : skipBlank text.toList = '\x7b' :: (inner ++ '\x7d' :: behind) := by
      rw [written, skipBlank_blank before_blank, skipBlank_solid rfl]
    have enough : inner.length < (inner ++ '\x7d' :: behind).length + 1 := by
      simp only [List.length_append]
      omega
    have fresh : ∀ entry ∈ entries, entry.name ∈ given.map Prod.fst → entry.name ∉ ([] : List String) :=
      fun _ _ _ => nofun
    obtain ⟨after, read, replaces⟩ := readFields_members layout members .first suits fresh enough config behind
    refine ⟨after, ?_, replaces⟩
    rw [List.nil_append] at read
    simp only [readText, opened, read, bind, Except.bind, ended behind_blank]
    rfl

theorem readText_record (layout : Layout entries) {text : String} (record : RecordText given text.toList)
    (suits : Suits entries given) (config : σ) :
    ∃ after, readText (entries.map Entry.setting) config text = .ok after ∧
      ∀ other, Replaces entries given config other ↔ other = after := by
  obtain ⟨after, read, replaces⟩ := readText_replaces layout record suits config
  refine ⟨after, read, fun other => ⟨fun same => same.unique layout suits replaces, ?_⟩⟩
  rintro rfl
  exact replaces

end LazyGraph.Settings
