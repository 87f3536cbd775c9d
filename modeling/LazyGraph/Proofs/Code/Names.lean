import LazyGraph.Code.Globals

/-! What code names, and that a walk which shares its set of labels misses none of it.

A label that is in the set stands for an expression whose names are known already, or
that waits to be read. This holds as long as one label stands for one expression; the
root of a walk is read although its own label is never entered. -/

set_option autoImplicit false

namespace LazyGraph

/-- The handle is written somewhere in the code, bodies of nested functions included. -/
inductive Expr.Names (handle : Handle) : Expr → Prop where
  | global {label : Nat} : Names handle ⟨label, .global handle⟩
  | data {label : Nat} {ordinal : UInt32} {name : String} {args : List Expr} {arg : Expr}
      (member : arg ∈ args) (inside : Names handle arg) : Names handle ⟨label, .data ordinal name args⟩
  | lambda {label : Nat} {code : Lambda Expr} {captures : List UInt64} (inside : Names handle code.body) :
      Names handle ⟨label, .lambda code captures⟩
  | callee {label : Nat} {fn : Expr} {args : List Expr} (inside : Names handle fn) :
      Names handle ⟨label, .apply fn args⟩
  | argument {label : Nat} {fn arg : Expr} {args : List Expr} (member : arg ∈ args)
      (inside : Names handle arg) : Names handle ⟨label, .apply fn args⟩
  | primitive {label : Nat} {op : Primitive} {args : List Expr} {arg : Expr} (member : arg ∈ args)
      (inside : Names handle arg) : Names handle ⟨label, .primitive op args⟩
  | host {label : Nat} {fn : HostFn} {args : List Expr} {arg : Expr} (member : arg ∈ args)
      (inside : Names handle arg) : Names handle ⟨label, .host fn args⟩
  | scrutinee {label : Nat} {scrutinee : Expr} {alternatives : List (Alternative Expr)}
      {otherwise : Option Expr} (inside : Names handle scrutinee) :
      Names handle ⟨label, .choose scrutinee alternatives otherwise⟩
  | alternative {label : Nat} {scrutinee : Expr} {alternatives : List (Alternative Expr)}
      {otherwise : Option Expr} {alternative : Alternative Expr} (member : alternative ∈ alternatives)
      (inside : Names handle alternative.body) : Names handle ⟨label, .choose scrutinee alternatives otherwise⟩
  | otherwise {label : Nat} {scrutinee body : Expr} {alternatives : List (Alternative Expr)}
      (inside : Names handle body) : Names handle ⟨label, .choose scrutinee alternatives (some body)⟩
  | binding {label : Nat} {bindings : List Expr} {binding body : Expr} (member : binding ∈ bindings)
      (inside : Names handle binding) : Names handle ⟨label, .letrec bindings body⟩
  | body {label : Nat} {bindings : List Expr} {body : Expr} (inside : Names handle body) :
      Names handle ⟨label, .letrec bindings body⟩
  | first {label : Nat} {first second : Expr} (inside : Names handle first) :
      Names handle ⟨label, .seq first second⟩
  | second {label : Nat} {first second : Expr} (inside : Names handle second) :
      Names handle ⟨label, .seq first second⟩

namespace Expr

variable {handle : Handle} {e : Expr} {visited : Labels}

theorem Names.of_child {child : Expr} (member : child ∈ e.children) (inside : child.Names handle) :
    e.Names handle := by
  obtain ⟨label, form⟩ := e
  simp only [children] at member
  cases form with
  | var | global | char | int | double | text | raise => cases member
  | data ordinal name args => exact .data member inside
  | primitive op args => exact .primitive member inside
  | host fn args => exact .host member inside
  | lambda code captures =>
    obtain rfl := List.mem_singleton.mp member
    exact .lambda inside
  | apply fn args =>
    rcases List.mem_cons.mp member with rfl | member
    · exact .callee inside
    · exact .argument member inside
  | choose scrutinee alternatives otherwise =>
    rcases List.mem_cons.mp member with rfl | member
    · exact .scrutinee inside
    · rcases List.mem_append.mp member with member | member
      · obtain ⟨alternative, listed, rfl⟩ := List.mem_map.mp member
        exact .alternative listed inside
      · obtain rfl := Option.mem_toList.mp member
        exact .otherwise inside
  | letrec bindings body =>
    rcases List.mem_append.mp member with member | member
    · exact .binding member inside
    · obtain rfl := List.mem_singleton.mp member
      exact .body inside
  | seq first second =>
    rcases List.mem_cons.mp member with rfl | member
    · exact .first inside
    · obtain rfl := List.mem_singleton.mp member
      exact .second inside

/-- Induction from the place where the handle is written up to the whole expression. -/
theorem Names.induct {motive : Expr → Prop} (names : e.Names handle)
    (top : ∀ e, e.global? = some handle → motive e)
    (child : ∀ e child, child ∈ e.children → child.Names handle → motive child → motive e) : motive e := by
  induction names with
  | global => exact top _ rfl
  | data member inside ih | primitive member inside ih | host member inside ih =>
    exact child _ _ member inside ih
  | lambda inside ih => exact child _ _ (.head _) inside ih
  | callee inside ih => exact child _ _ (.head _) inside ih
  | argument member inside ih => exact child _ _ (.tail _ member) inside ih
  | scrutinee inside ih => exact child _ _ (.head _) inside ih
  | @alternative _ _ _ _ alternative member inside ih =>
    have body : alternative.body ∈ _ := List.mem_map.mpr ⟨alternative, member, rfl⟩
    exact child _ _ (.tail _ (List.mem_append_left _ body)) inside ih
  | @otherwise _ _ body _ inside ih =>
    have last : body ∈ [body] := .head _
    exact child _ _ (.tail _ (List.mem_append_right _ last)) inside ih
  | binding member inside ih => exact child _ _ (List.mem_append_left _ member) inside ih
  | @body _ _ body inside ih =>
    have last : body ∈ [body] := .head _
    exact child _ _ (List.mem_append_right _ last) inside ih
  | first inside ih => exact child _ _ (.head _) inside ih
  | second inside ih => exact child _ _ (.tail _ (.head _)) inside ih

theorem names_of_global? (top : e.global? = some handle) : e.Names handle := by
  obtain ⟨label, form⟩ := e
  cases form with
  | global node =>
    cases top
    exact .global
  | _ => cases top

/-! ### Entering labels -/

variable {items : List Expr}

theorem mem_of_fresh (fresh : e ∈ (enterLabels visited items).1) : e ∈ items := by
  induction items generalizing visited with
  | nil => exact fresh
  | cons head rest ih =>
    rw [enterLabels] at fresh
    split at fresh
    · exact .tail _ (ih fresh)
    · rcases List.mem_cons.mp fresh with rfl | fresh
      · exact .head _
      · exact .tail _ (ih fresh)

theorem enterLabels_mono {label : Nat} (known : label ∈ visited) : label ∈ (enterLabels visited items).2 := by
  induction items generalizing visited with
  | nil => exact known
  | cons head rest ih =>
    rw [enterLabels]
    split
    · exact ih known
    · exact ih (Std.TreeSet.mem_insert.mpr (.inr known))

theorem label_entered (met : e ∈ items) : e.label ∈ (enterLabels visited items).2 := by
  induction items generalizing visited with
  | nil => cases met
  | cons head rest ih =>
    rw [enterLabels]
    split
    · rename_i known
      rcases List.mem_cons.mp met with rfl | met
      · exact enterLabels_mono (Std.TreeSet.mem_iff_contains.mpr known)
      · exact ih met
    · rcases List.mem_cons.mp met with rfl | met
      · exact enterLabels_mono Std.TreeSet.mem_insert_self
      · exact ih met

theorem fresh_of_label {label : Nat} (entered : label ∈ (enterLabels visited items).2) :
    label ∈ visited ∨ ∃ e ∈ (enterLabels visited items).1, e.label = label := by
  induction items generalizing visited with
  | nil => exact .inl entered
  | cons head rest ih =>
    by_cases known : visited.contains head.label
    · simp only [enterLabels, known, if_true] at entered ⊢
      exact ih entered
    · simp only [enterLabels, known, Bool.false_eq_true, if_false] at entered ⊢
      rcases ih entered with before | ⟨e, fresh, same⟩
      · rcases Std.TreeSet.mem_insert.mp before with same | before
        · exact .inr ⟨head, .head _, Std.LawfulEqCmp.eq_of_compare same⟩
        · exact .inl before
      · exact .inr ⟨e, .tail _ fresh, same⟩

/-! ### Walks -/

-- A set of expressions with all their subexpressions, in which a label says which is which.
structure Labelled (code : Expr → Prop) : Prop where
  child : ∀ {e child}, code e → child ∈ e.children → code child
  one : ∀ {e e'}, code e → code e' → e.label = e'.label → e = e'

-- What a set of labels stands for: expressions that wait to be read, or that were read.
def Read (code : Expr → Prop) (work : List Expr) (visited : Labels) (known : Handle → Prop) : Prop :=
  ∀ e, code e → e.label ∈ visited →
    e ∈ work ∨ ((∀ handle, e.global? = some handle → known handle) ∧ ∀ child ∈ e.children, child.label ∈ visited)

variable {code : Expr → Prop} {known known' : Handle → Prop} {work rest : List Expr} {found : List Handle}

theorem Read.mono (read : Read code work visited known) (more : ∀ handle, known handle → known' handle) :
    Read code work visited known' := by
  intro e inside met
  rcases read e inside met with waits | ⟨top, children⟩
  · exact .inl waits
  · exact .inr ⟨fun handle isTop => more handle (top handle isTop), children⟩

/-- Everything named below a label in the set is known, once nothing waits. -/
theorem Read.names (labelled : Labelled code) (read : Read code [] visited known) (inside : code e)
    (met : e.label ∈ visited) (names : e.Names handle) : known handle := by
  refine names.induct (motive := fun e => code e → e.label ∈ visited → known handle) ?_ ?_ inside met
  · intro e top inside met
    obtain ⟨tops, -⟩ := (read e inside met).resolve_left (by simp)
    exact tops handle top
  · intro e child member _ ih inside met
    obtain ⟨-, children⟩ := (read e inside met).resolve_left (by simp)
    exact ih (labelled.child inside member) (children child member)

theorem Read.step (labelled : Labelled code) (inside : code e) (read : Read code (e :: rest) visited known) :
    Read code ((enterLabels visited e.children).1.reverse ++ rest) (enterLabels visited e.children).2
      (fun handle => known handle ∨ e.global? = some handle) := by
  intro other inside' met
  rcases fresh_of_label met with before | ⟨child, fresh, same⟩
  · rcases read other inside' before with waits | ⟨top, children⟩
    · rcases List.mem_cons.mp waits with rfl | waits
      · exact .inr ⟨fun handle isTop => .inr isTop, fun child member => label_entered member⟩
      · exact .inl (List.mem_append_right _ waits)
    · exact .inr ⟨fun handle isTop => .inl (top handle isTop), fun child member => enterLabels_mono (children child member)⟩
  · -- the label is new, so it came with a child of `e`, and that child is the expression meant
    obtain rfl := labelled.one inside' (labelled.child inside (mem_of_fresh fresh)) same.symm
    exact .inl (List.mem_append_left _ (List.mem_reverse.mpr fresh))

theorem walkGlobals_found (member : handle ∈ found) : handle ∈ (walkGlobals work visited found).1 := by
  fun_induction walkGlobals work visited found with
  | case1 visited found => exact member
  | case2 visited found e rest fresh ih => exact ih (List.mem_append_right _ member)

theorem walkGlobals_visited {label : Nat} (member : label ∈ visited) :
    label ∈ (walkGlobals work visited found).2 := by
  fun_induction walkGlobals work visited found with
  | case1 visited found => exact member
  | case2 visited found e rest fresh ih => exact ih (enterLabels_mono member)

theorem walkGlobals_work (member : e ∈ work) :
    (∀ handle, e.global? = some handle → handle ∈ (walkGlobals work visited found).1) ∧
      ∀ child ∈ e.children, child.label ∈ (walkGlobals work visited found).2 := by
  fun_induction walkGlobals work visited found with
  | case1 visited found => cases member
  | case2 visited found head rest fresh ih =>
    rcases List.mem_cons.mp member with rfl | member
    · constructor
      · intro handle top
        exact walkGlobals_found (List.mem_append_left _ (Option.mem_toList.mpr top))
      · exact fun child below => walkGlobals_visited (label_entered below)
    · exact ih (List.mem_append_right _ member)

theorem walkGlobals_read (labelled : Labelled code) (inside : ∀ e ∈ work, code e)
    (read : Read code work visited known) :
    Read code [] (walkGlobals work visited found).2
      (fun handle => known handle ∨ handle ∈ (walkGlobals work visited found).1) := by
  fun_induction walkGlobals work visited found generalizing known with
  | case1 visited found => exact read.mono fun handle => .inl
  | case2 visited found e rest fresh =>
    rename_i ih
    have inside' : ∀ other ∈ fresh.1.reverse ++ rest, code other := by
      intro other member
      rcases List.mem_append.mp member with member | member
      · exact labelled.child (inside e (.head _)) (mem_of_fresh (List.mem_reverse.mp member))
      · exact inside other (.tail _ member)
    refine (ih inside' (read.step labelled (inside e (.head _)))).mono ?_
    rintro handle ((isKnown | top) | isFound)
    · exact .inl isKnown
    · exact .inr (walkGlobals_found (List.mem_append_left _ (Option.mem_toList.mpr top)))
    · exact .inr isFound

theorem names_of_walkGlobals (isFound : handle ∈ (walkGlobals work visited found).1) :
    handle ∈ found ∨ ∃ e ∈ work, e.Names handle := by
  fun_induction walkGlobals work visited found with
  | case1 visited found => exact .inl isFound
  | case2 visited found e rest fresh ih =>
    rcases ih isFound with before | ⟨other, member, names⟩
    · rcases List.mem_append.mp before with top | before
      · exact .inr ⟨e, .head _, names_of_global? (Option.mem_toList.mp top)⟩
      · exact .inl before
    · rcases List.mem_append.mp member with member | member
      · exact .inr ⟨e, .head _, .of_child (mem_of_fresh (List.mem_reverse.mp member)) names⟩
      · exact .inr ⟨other, .tail _ member, names⟩

/-- A walk that starts with labels of code read before finds what is new, and with what was
known that is everything the root names. -/
theorem globalsFrom_read {root : Expr} (labelled : Labelled code) (inside : code root)
    (read : Read code [] visited known) :
    Read code [] (root.globalsFrom visited).2
        (fun handle => known handle ∨ handle ∈ (root.globalsFrom visited).1) ∧
      ∀ handle, root.Names handle → known handle ∨ handle ∈ (root.globalsFrom visited).1 := by
  have waiting : Read code [root] visited known := by
    intro e inside met
    exact .inr ((read e inside met).resolve_left (by simp))
  have walked : Read code [] (root.globalsFrom visited).2
      (fun handle => known handle ∨ handle ∈ (root.globalsFrom visited).1) := by
    have all : Read code [] (walkGlobals [root] visited []).2
        (fun handle => known handle ∨ handle ∈ (walkGlobals [root] visited []).1) :=
      walkGlobals_read labelled (by simpa using inside) waiting
    simpa [globalsFrom] using all
  refine ⟨walked, fun handle names => ?_⟩
  have ⟨top, children⟩ : (∀ handle, root.global? = some handle → handle ∈ (walkGlobals [root] visited []).1) ∧
      ∀ child ∈ root.children, child.label ∈ (walkGlobals [root] visited []).2 := walkGlobals_work (.head _)
  -- the root's own label is not in the set, so only its children are covered by it
  have direct : root.global? = some handle ∨ ∃ child ∈ root.children, child.Names handle :=
    names.induct (motive := fun e => e.global? = some handle ∨ ∃ child ∈ e.children, child.Names handle)
      (fun _ => .inl) (fun _ child member inside _ => .inr ⟨child, member, inside⟩)
  rcases direct with isTop | ⟨child, member, inner⟩
  · exact .inr (by simpa [globalsFrom] using top handle isTop)
  · exact walked.names labelled (labelled.child inside member) (children child member) inner

theorem names_of_globalsFrom {root : Expr} (isFound : handle ∈ (root.globalsFrom visited).1) :
    root.Names handle := by
  have walked : handle ∈ (walkGlobals [root] visited []).1 := by simpa [globalsFrom] using isFound
  rcases names_of_walkGlobals walked with before | ⟨e, member, names⟩
  · cases before
  · exact List.mem_singleton.mp member ▸ names

end Expr

end LazyGraph
