import Mathlib.Data.List.Dedup
import LazyGraph.Proofs.Code.Parts

/-! Handles written in code, place by place, against the walk that reads shared code once.

The plain recursion lists every place where a handle is written, so that shared code counts
once for every way to it. The walk reads an expression only when its label is new. As long as
one label stands for one expression, it finds what the recursion finds, once for each
expression: the proof takes the list of the expressions read as the ghost of a walk. -/

set_option autoImplicit false

namespace LazyGraph.Expr

/-! ### The plain recursion -/

mutual

/-- The places where a handle is written in the code, from left to right, each with the label
of the expression that is the handle. -/
def occurrences : Expr → List (Nat × Handle)
  | ⟨label, form⟩ =>
    match form with
    | .global handle => [(label, handle)]
    | .data _ _ args | .primitive _ args | .host _ args => occurrencesAmong args
    | .lambda ⟨_, _, _, body⟩ _ => body.occurrences
    | .apply fn args => fn.occurrences ++ occurrencesAmong args
    | .choose scrutinee alternatives none => scrutinee.occurrences ++ occurrencesInBodies alternatives
    | .choose scrutinee alternatives (some otherwise) =>
        scrutinee.occurrences ++ occurrencesInBodies alternatives ++ otherwise.occurrences
    | .letrec bindings body => occurrencesAmong bindings ++ body.occurrences
    | .seq first second => first.occurrences ++ second.occurrences
    | .var _ | .char _ | .int _ | .double _ | .text _ | .raise _ => []

def occurrencesAmong : List Expr → List (Nat × Handle)
  | [] => []
  | e :: rest => e.occurrences ++ occurrencesAmong rest

def occurrencesInBodies : List (Alternative Expr) → List (Nat × Handle)
  | [] => []
  | ⟨_, _, body⟩ :: rest => body.occurrences ++ occurrencesInBodies rest

end

/-- The handles written in the code, one for each place. -/
def written (e : Expr) : List Handle :=
  e.occurrences.map Prod.snd

theorem occurrencesAmong_eq (items : List Expr) : occurrencesAmong items = items.flatMap occurrences := by
  induction items with
  | nil => rfl
  | cons e rest ih => rw [occurrencesAmong, ih, List.flatMap_cons]

theorem occurrencesInBodies_eq (alternatives : List (Alternative Expr)) :
    occurrencesInBodies alternatives = (alternatives.map Alternative.body).flatMap occurrences := by
  induction alternatives with
  | nil => rfl
  | cons alternative rest ih => rw [occurrencesInBodies, ih, List.map_cons, List.flatMap_cons]

/-- What is written at the top, then what is written in the subexpressions. -/
theorem occurrences_eq (e : Expr) :
    e.occurrences = (e.global?.map (e.label, ·)).toList ++ e.children.flatMap occurrences := by
  obtain ⟨label, form⟩ := e
  cases form with
  | var | global | char | int | double | text | raise => rfl
  | data _ _ args | primitive _ args | host _ args =>
    simp [occurrences, children, Form.children, global?, occurrencesAmong_eq]
  | lambda code captures => simp [occurrences, children, Form.children, global?]
  | apply fn args => simp [occurrences, children, Form.children, global?, occurrencesAmong_eq]
  | choose scrutinee alternatives otherwise =>
    cases otherwise <;> simp [occurrences, children, Form.children, global?, occurrencesInBodies_eq]
  | letrec bindings body => simp [occurrences, children, Form.children, global?, occurrencesAmong_eq]
  | seq first second => simp [occurrences, children, Form.children, global?]

variable {e root below : Expr} {handle : Handle} {label : Nat}

theorem mem_occurrences : (label, handle) ∈ e.occurrences ↔
    (e.label = label ∧ e.global? = some handle) ∨ ∃ child ∈ e.children, (label, handle) ∈ child.occurrences := by
  rw [occurrences_eq, List.mem_append, List.mem_flatMap]
  refine or_congr_left ?_
  cases e.global? <;> simp [eq_comm]

theorem le_weight {items : List Expr} (member : e ∈ items) : sizeOf e ≤ weight items := by
  induction items with
  | nil => cases member
  | cons head rest ih =>
    rw [weight]
    rcases List.mem_cons.mp member with rfl | member
    · exact Nat.le_add_right _ _
    · exact Nat.le_trans (ih member) (Nat.le_add_left _ _)

theorem sizeOf_child_lt {child : Expr} (member : child ∈ e.children) : sizeOf child < sizeOf e :=
  Nat.lt_of_le_of_lt (le_weight member) (weight_children_lt e)

theorem children_induct {motive : Expr → Prop} (up : ∀ e, (∀ child ∈ e.children, motive child) → motive e)
    (e : Expr) : motive e :=
  up e fun child member =>
    have := sizeOf_child_lt member
    children_induct up child
termination_by sizeOf e

theorem Part.sizeOf_le (inside : Part below e) : sizeOf below ≤ sizeOf e := by
  induction inside with
  | whole => exact Nat.le_refl _
  | child member _ ih => exact Nat.le_trans ih (Nat.le_of_lt (sizeOf_child_lt member))

theorem Part.trans (inside : Part below e) (within : Part e root) : Part below root := by
  induction within with
  | whole => exact inside
  | child member _ ih => exact .child member ih

/-- A handle is written where a part of the code is that handle. -/
theorem mem_occurrences_iff :
    (label, handle) ∈ root.occurrences ↔ ∃ e, Part e root ∧ e.label = label ∧ e.global? = some handle := by
  constructor
  · induction root using children_induct with
    | up root ih =>
      intro written
      rcases mem_occurrences.mp written with ⟨same, top⟩ | ⟨child, member, written⟩
      · exact ⟨root, .whole, same, top⟩
      · obtain ⟨e, inside, found⟩ := ih child member written
        exact ⟨e, .child member inside, found⟩
  · rintro ⟨e, inside, same, top⟩
    induction inside with
    | whole => exact mem_occurrences.mpr (.inl ⟨same, top⟩)
    | child member _ ih => exact mem_occurrences.mpr (.inr ⟨_, member, ih⟩)

theorem mem_written : handle ∈ e.written ↔ e.global? = some handle ∨ ∃ child ∈ e.children, handle ∈ child.written := by
  rw [written, occurrences_eq, List.map_append, List.mem_append, List.map_flatMap, List.mem_flatMap]
  refine or_congr_left ?_
  cases e.global? <;> simp [eq_comm]

/-! ### What a walk reads -/

variable {code : Expr → Prop} {visited : Labels} {work items : List Expr} {found : List Handle}

theorem label_fresh (fresh : e ∈ (enterLabels visited items).1) : e.label ∉ visited := by
  induction items generalizing visited with
  | nil => cases fresh
  | cons head rest ih =>
    by_cases known : visited.contains head.label
    · rw [enterLabels, if_pos known] at fresh
      exact ih fresh
    · rw [enterLabels, if_neg known] at fresh
      rcases List.mem_cons.mp fresh with rfl | fresh
      · exact fun met => known (Std.TreeSet.mem_iff_contains.mp met)
      · exact fun met => ih fresh (Std.TreeSet.mem_insert.mpr (.inr met))

theorem fresh_nodup (visited : Labels) (items : List Expr) : (enterLabels visited items).1.Nodup := by
  induction items generalizing visited with
  | nil => exact .nil
  | cons head rest ih =>
    by_cases known : visited.contains head.label
    · rw [enterLabels, if_pos known]
      exact ih visited
    · rw [enterLabels, if_neg known]
      refine List.nodup_cons.mpr ⟨fun again => label_fresh again Std.TreeSet.mem_insert_self, ih _⟩

-- The expressions that a walk reads, in this order: those that wait, and what is new below them.
structure Reads (work : List Expr) (visited : Labels) (found : List Handle) (read : List Expr) : Prop where
  handles : (walkGlobals work visited found).1 = (read.filterMap global?).reverse ++ found
  labels : ∀ label ∈ (walkGlobals work visited found).2, label ∈ visited ∨ ∃ e ∈ read, e.label = label
  nodup : read.Nodup
  waits : ∀ e ∈ work, e ∈ read
  new : ∀ e ∈ read, e ∈ work ∨ e.label ∉ visited
  below : ∀ e ∈ read, ∃ top ∈ work, Part e top
  children : ∀ e ∈ read, ∀ child ∈ e.children, child.label ∈ visited ∨ child ∈ read

/-- A label that is in the set after an expression was opened was in it before, or a child that
is new brought it. -/
theorem entered_cases (labelled : Labelled code) (inside : code root) (isCode : code e)
    (entered : e.label ∈ (enterLabels visited root.children).2) :
    e.label ∈ visited ∨ e ∈ (enterLabels visited root.children).1 := by
  rcases fresh_of_label entered with before | ⟨child, fresh, same⟩
  · exact .inl before
  · have isChild : code child := labelled.child inside (mem_of_fresh fresh)
    exact .inr (labelled.one isChild isCode same ▸ fresh)

theorem Labelled.inside (labelled : Labelled code) (inside : code root) (isPart : Part e root) : code e := by
  induction isPart with
  | whole => exact inside
  | child member _ ih => exact ih (labelled.child inside member)

variable {rest read : List Expr}

/-- The expression on top is read, and then what waits after it was opened. -/
theorem Reads.open (labelled : Labelled code) (inside : ∀ other ∈ e :: rest, code other)
    (reads : Reads ((enterLabels visited e.children).1.reverse ++ rest) (enterLabels visited e.children).2
      (e.global?.toList ++ found) read)
    (unread : e ∉ read) : Reads (e :: rest) visited found (e :: read) := by
  have isCode : code e := inside e (.head _)
  have waiting : ∀ other, other ∈ (enterLabels visited e.children).1.reverse ++ rest ↔
      other ∈ (enterLabels visited e.children).1 ∨ other ∈ rest := fun other => by simp
  have readCode : ∀ other ∈ read, code other := by
    intro other member
    obtain ⟨top, waits, isPart⟩ := reads.below other member
    rcases (waiting top).mp waits with fresh | waits
    · exact labelled.inside (labelled.child isCode (mem_of_fresh fresh)) isPart
    · exact labelled.inside (inside top (.tail _ waits)) isPart
  have childRead : ∀ parent, code parent → ∀ child ∈ parent.children,
      child.label ∈ (enterLabels visited e.children).2 → child.label ∈ visited ∨ child ∈ e :: read := by
    intro parent isParent child member entered
    rcases entered_cases labelled isCode (labelled.child isParent member) entered with before | fresh
    · exact .inl before
    · exact .inr (.tail _ (reads.waits child ((waiting child).mpr (.inl fresh))))
  constructor
  · rw [walkGlobals]
    refine reads.handles.trans ?_
    cases top : e.global? <;> simp [top]
  · intro label met
    rw [walkGlobals] at met
    rcases reads.labels label met with entered | ⟨other, member, same⟩
    · rcases fresh_of_label entered with before | ⟨other, fresh, same⟩
      · exact .inl before
      · exact .inr ⟨other, .tail _ (reads.waits other ((waiting other).mpr (.inl fresh))), same⟩
    · exact .inr ⟨other, .tail _ member, same⟩
  · exact List.nodup_cons.mpr ⟨unread, reads.nodup⟩
  · intro other waits
    rcases List.mem_cons.mp waits with rfl | waits
    · exact .head _
    · exact .tail _ (reads.waits other ((waiting other).mpr (.inr waits)))
  · intro other member
    rcases List.mem_cons.mp member with rfl | member
    · exact .inl (.head _)
    · rcases reads.new other member with waits | new
      · rcases (waiting other).mp waits with fresh | waits
        · exact .inr (label_fresh fresh)
        · exact .inl (.tail _ waits)
      · exact .inr fun met => new (enterLabels_mono met)
  · intro other member
    rcases List.mem_cons.mp member with rfl | member
    · exact ⟨other, .head _, .whole⟩
    · obtain ⟨top, waits, isPart⟩ := reads.below other member
      rcases (waiting top).mp waits with fresh | waits
      · exact ⟨e, .head _, isPart.trans (.child (mem_of_fresh fresh) .whole)⟩
      · exact ⟨top, .tail _ waits, isPart⟩
  · intro other member child below
    rcases List.mem_cons.mp member with rfl | member
    · exact childRead other isCode child below (label_entered below)
    · rcases reads.children other member child below with entered | again
      · exact childRead other (readCode other member) child below entered
      · exact .inr (.tail _ again)

/-- As long as all that waits has been entered, nothing is read twice. -/
theorem exists_reads (labelled : Labelled code) (inside : ∀ e ∈ work, code e) (entered : ∀ e ∈ work, e.label ∈ visited)
    (distinct : work.Nodup) : ∃ read, Reads work visited found read := by
  fun_induction walkGlobals work visited found with
  | case1 visited found =>
    exact ⟨[], by constructor <;> simp [walkGlobals]⟩
  | case2 visited found e rest fresh ih =>
    have isCode : code e := inside e (.head _)
    have waiting : ∀ other, other ∈ fresh.1.reverse ++ rest ↔ other ∈ fresh.1 ∨ other ∈ rest := fun other => by simp
    have isNew : ∀ {other}, other ∈ fresh.1 → other.label ∉ visited := label_fresh
    have kept : ∀ {label}, label ∈ visited → label ∈ fresh.2 := enterLabels_mono
    obtain ⟨once, distinct'⟩ := List.nodup_cons.mp distinct
    have apart : (fresh.1.reverse ++ rest).Nodup := by
      refine List.nodup_append.mpr ⟨List.nodup_reverse.mpr (fresh_nodup visited e.children), distinct', ?_⟩
      rintro new isFresh old waits rfl
      exact isNew (List.mem_reverse.mp isFresh) (entered new (.tail _ waits))
    obtain ⟨read, reads⟩ := ih
      (fun other waits => ((waiting other).mp waits).elim (fun new => labelled.child isCode (mem_of_fresh new))
        fun waits => inside other (.tail _ waits))
      (fun other waits => ((waiting other).mp waits).elim (fun new => label_entered (mem_of_fresh new))
        fun waits => kept (entered other (.tail _ waits))) apart
    refine ⟨e :: read, reads.open labelled inside fun again => ?_⟩
    -- the label of `e` was entered before, so `e` is not among what is new
    rcases reads.new e again with waits | new
    · rcases (waiting e).mp waits with isFresh | waits
      · exact isNew isFresh (entered e (.head _))
      · exact once waits
    · exact new (kept (entered e (.head _)))

theorem globalsFrom_reads (labelled : Labelled code) (inside : code root) (visited : Labels) :
    ∃ read, Reads [root] visited [] read := by
  let fresh := enterLabels visited root.children
  have isNew : ∀ {e}, e ∈ fresh.1.reverse → e ∈ root.children := fun waits => mem_of_fresh (List.mem_reverse.mp waits)
  obtain ⟨read, reads⟩ : ∃ read, Reads fresh.1.reverse fresh.2 root.global?.toList read :=
    exists_reads labelled (fun e waits => labelled.child inside (isNew waits))
      (fun e waits => label_entered (isNew waits)) (List.nodup_reverse.mpr (fresh_nodup visited root.children))
  refine ⟨root :: read, Reads.open labelled (by simpa using inside) (by simpa using reads) fun again => ?_⟩
  -- what is read after the root is smaller than the root
  obtain ⟨top, waits, isPart⟩ := reads.below root again
  exact Nat.lt_irrefl _ (Nat.lt_of_le_of_lt isPart.sizeOf_le (sizeOf_child_lt (isNew waits)))

/-! ### What a walk finds -/

theorem Reads.globalsFrom_eq (reads : Reads [root] visited [] read) :
    (root.globalsFrom visited).1 = read.filterMap global? := by
  simp [globalsFrom, reads.handles]

theorem Reads.closed {top : Expr} (reads : Reads [root] ∅ [] read) (isPart : Part e top) (isRead : top ∈ read) : e ∈ read := by
  induction isPart with
  | whole => exact isRead
  | child member _ ih =>
    have isNew := (reads.children _ isRead _ member).resolve_left Std.TreeSet.not_mem_emptyc
    exact ih isNew

theorem Reads.inside (reads : Reads [root] visited found read) (member : e ∈ read) : Part e root := by
  obtain ⟨top, waits, isPart⟩ := reads.below e member
  exact List.mem_singleton.mp waits ▸ isPart

theorem Reads.mem_iff (reads : Reads [root] ∅ [] read) : e ∈ read ↔ Part e root :=
  ⟨reads.inside, fun isPart => reads.closed isPart (reads.waits root (.head _))⟩

theorem Reads.perm_dedup (labelled : Labelled code) (inside : code root) (reads : Reads [root] ∅ [] read) :
    (root.globals).Perm (root.occurrences.dedup.map Prod.snd) := by
  let place (e : Expr) : Option (Nat × Handle) := e.global?.map (e.label, ·)
  have handles : root.globals = (read.filterMap place).map Prod.snd := by
    rw [globals, reads.globalsFrom_eq, List.map_filterMap]
    refine congrArg (List.filterMap · read) (funext fun e => ?_)
    cases top : e.global? <;> simp [place, top]
  have distinct : (read.filterMap place).Nodup := by
    refine List.pairwise_filterMap.mpr (reads.nodup.imp_of_mem ?_)
    rintro e e' member member' differ pair here pair' there rfl
    obtain ⟨_, _, rfl⟩ := Option.map_eq_some_iff.mp here
    obtain ⟨_, _, same⟩ := Option.map_eq_some_iff.mp there
    have isCode := labelled.inside inside (reads.mem_iff.mp member)
    have isCode' := labelled.inside inside (reads.mem_iff.mp member')
    exact differ (labelled.one isCode isCode' (congrArg Prod.fst same).symm)
  rw [handles]
  refine ((List.perm_ext_iff_of_nodup distinct root.occurrences.nodup_dedup).mpr ?_).map Prod.snd
  rintro ⟨label, handle⟩
  rw [List.mem_dedup, mem_occurrences_iff, List.mem_filterMap]
  refine exists_congr fun e => ?_
  rw [reads.mem_iff]
  refine and_congr_right fun _ => ?_
  simp [place, Option.map_eq_some_iff, and_comm]

/-- What is written in the code that was read is known or found, if that holds of the code that
was entered before. -/
theorem Reads.covers {known : Handle → Prop} (labelled : Labelled code) (inside : code root)
    (reads : Reads [root] visited [] read)
    (before : ∀ e, code e → e.label ∈ visited → ∀ handle ∈ e.written, known handle) (isRead : e ∈ read) :
    ∀ handle ∈ e.written, known handle ∨ handle ∈ (root.globalsFrom visited).1 := by
  induction e using children_induct with
  | up e ih =>
    intro handle written
    rcases mem_written.mp written with top | ⟨child, member, written⟩
    · rw [reads.globalsFrom_eq]
      exact .inr (List.mem_filterMap.mpr ⟨e, isRead, top⟩)
    · rcases reads.children e isRead child member with entered | isRead
      · have isChild := labelled.child (labelled.inside inside (reads.inside isRead)) member
        exact .inl (before child isChild entered handle written)
      · exact ih child member isRead handle written

theorem mem_written_iff : handle ∈ root.written ↔ ∃ e, Part e root ∧ e.global? = some handle := by
  simp only [written, List.mem_map, Prod.exists, exists_eq_right, mem_occurrences_iff]
  constructor
  · rintro ⟨_, e, isPart, _, top⟩
    exact ⟨e, isPart, top⟩
  · rintro ⟨e, isPart, top⟩
    exact ⟨e.label, e, isPart, rfl, top⟩

/-- The walk finds one handle for each expression that is a handle, wherever and however often
it occurs in the code; as a set, these are the handles of the plain recursion. And a walk may
start with labels that were entered before: if what was written below them is known, then with
what the walk finds everything is known that is written below the root and below all labels
entered until then, and the walk finds nothing but what the root writes. -/
theorem globals_exact (labelled : Labelled code) (inside : code root) :
    root.globals.Perm (root.occurrences.dedup.map Prod.snd) ∧
    (∀ handle, handle ∈ root.globals ↔ handle ∈ root.written) ∧
    ∀ (visited : Labels) (known : Handle → Prop),
      (∀ e, code e → e.label ∈ visited → ∀ handle ∈ e.written, known handle) →
      (∀ handle ∈ root.written, known handle ∨ handle ∈ (root.globalsFrom visited).1) ∧
      (∀ e, code e → e.label ∈ (root.globalsFrom visited).2 →
        ∀ handle ∈ e.written, known handle ∨ handle ∈ (root.globalsFrom visited).1) ∧
      ∀ handle ∈ (root.globalsFrom visited).1, handle ∈ root.written := by
  have perm : root.globals.Perm (root.occurrences.dedup.map Prod.snd) := by
    obtain ⟨read, reads⟩ := globalsFrom_reads labelled inside ∅
    exact reads.perm_dedup labelled inside
  refine ⟨perm, fun handle => ?_, fun visited known before => ?_⟩
  · simp [perm.mem_iff, written]
  · obtain ⟨read, reads⟩ := globalsFrom_reads labelled inside visited
    refine ⟨reads.covers labelled inside before (reads.waits root (.head _)), ?_, ?_⟩
    · intro e isCode entered
      rcases reads.labels e.label (by simpa [globalsFrom] using entered) with entered | ⟨other, isRead, same⟩
      · exact fun handle written => .inl (before e isCode entered handle written)
      · have isCode' := labelled.inside inside (reads.inside isRead)
        obtain rfl := labelled.one isCode' isCode same
        exact reads.covers labelled inside before isRead
    · intro handle isFound
      rw [reads.globalsFrom_eq] at isFound
      obtain ⟨e, isRead, top⟩ := List.mem_filterMap.mp isFound
      exact mem_written_iff.mpr ⟨e, reads.inside isRead, top⟩

-- One expression stands in three places, the body of a function among them; another one names the
-- same handle, and a third one a handle of its own.
def sharedName : Expr := ⟨1, .global ⟨5, 0⟩⟩

def sameName : Expr := ⟨2, .global ⟨5, 0⟩⟩

def otherName : Expr := ⟨3, .global ⟨6, 0⟩⟩

def sharingFn : Expr := ⟨4, .lambda ⟨"f", 0, 1, sharedName⟩ []⟩

def sharingData : Expr := ⟨5, .data 0 "Three" [sameName, otherName, sharedName]⟩

def sharingCode : Expr := ⟨0, .letrec [sharingFn, sharedName] sharingData⟩

def sharingParts : List Expr := [sharingCode, sharingFn, sharingData, sharedName, sameName, otherName]

theorem sharingParts_labelled : Labelled (· ∈ sharingParts) where
  child := by
    have each : ∀ e ∈ sharingParts, e.children ⊆ sharingParts := by
      simp [sharingParts, children, Form.children, sharingCode, sharingFn, sharingData, sharedName, sameName, otherName]
    exact fun {e child} inside member => each e inside member
  one := by
    have each : ∀ e ∈ sharingParts, ∀ e' ∈ sharingParts, e.label = e'.label → e = e' := by
      simp [sharingParts, sharingCode, sharingFn, sharingData, sharedName, sameName, otherName]
    exact fun {e e'} inside inside' same => each e inside e' inside' same

/-- The second walk begins with the label of the shared expression entered and its handle known. -/
theorem globals_exact_shared :
    sharingCode.written = [⟨5, 0⟩, ⟨5, 0⟩, ⟨5, 0⟩, ⟨6, 0⟩, ⟨5, 0⟩] ∧
      sharingCode.globals = [⟨6, 0⟩, ⟨5, 0⟩, ⟨5, 0⟩] ∧
      sharingCode.globals.Perm (sharingCode.occurrences.dedup.map Prod.snd) ∧
      (sharingCode.globalsFrom (.insert ∅ 1)).1 = [⟨6, 0⟩, ⟨5, 0⟩] ∧
      ∀ handle ∈ sharingCode.written, handle = ⟨5, 0⟩ ∨ handle ∈ (sharingCode.globalsFrom (.insert ∅ 1)).1 := by
  obtain ⟨perm, _, walk⟩ := globals_exact sharingParts_labelled (.head _)
  refine ⟨rfl, by decide +kernel, perm, by decide +kernel, (walk (.insert ∅ 1) (· = ⟨5, 0⟩) ?_).1⟩
  have only : ∀ e ∈ sharingParts, 1 = e.label → e = sharedName := by
    simp [sharingParts, sharingCode, sharingFn, sharingData, sharedName, sameName, otherName]
  intro e isPart entered handle written
  have same : 1 = e.label := by simpa using entered
  obtain rfl := only e isPart same
  exact List.mem_singleton.mp written

end LazyGraph.Expr
