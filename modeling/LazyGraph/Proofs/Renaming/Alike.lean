import LazyGraph.Machine.Run
import LazyGraph.Proofs.Code.Parts
import LazyGraph.Proofs.Sharing.Unshared
import Mathlib.Data.List.Forall2

/-! Graphs that differ in the names of their nodes.

Two machines work side by side. Which handle of the one stands for which of the other is
given by a pairing, which grows as both allocate. Their nodes, frames and controls are alike
if they differ in paired handles only; the code is the same, and each handle that it names is
paired with itself. What reads no heap then comes to results that are alike, or to faults of
one kind. -/

set_option autoImplicit false

namespace LazyGraph

/-! ### Faults by kind -/

inductive Fault.Kind where
  | typeMismatch
  | nonTermination
  | exhausted
  | malformed
  | noAlternative
  | failed
  deriving DecidableEq, Repr

def Fault.kind : Fault → Kind
  | .typeMismatch .. => .typeMismatch
  | .nonTermination _ => .nonTermination
  | .exhausted _ => .exhausted
  | .malformed _ => .malformed
  | .noAlternative _ => .noAlternative
  | .failed _ => .failed

/-- Both succeed, with related results, or both fail with faults of one kind. -/
def Coincide {α β : Type} (related : α → β → Prop) : Except Fault α → Except Fault β → Prop
  | .ok value, .ok value' => related value value'
  | .error fault, .error fault' => fault.kind = fault'.kind
  | _, _ => False

namespace Coincide

variable {α β γ δ : Type} {related : α → β → Prop} {related' : γ → δ → Prop}

theorem bind {left : Except Fault α} {right : Except Fault β} {next : α → Except Fault γ} {next' : β → Except Fault δ}
    (first : Coincide related left right)
    (later : ∀ value value', related value value' → Coincide related' (next value) (next' value')) :
    Coincide related' (left >>= next) (right >>= next') := by
  cases left <;> cases right <;> first | exact first | exact later _ _ first | cases first

theorem refl (outcome : Except Fault α) : Coincide Eq outcome outcome := by
  cases outcome <;> rfl

theorem map {left : Except Fault α} {right : Except Fault β} {f : α → γ} {g : β → δ}
    (first : Coincide related left right)
    (later : ∀ value value', related value value' → related' (f value) (g value')) :
    Coincide related' (left.map f) (right.map g) := by
  cases left <;> cases right <;> first | exact first | exact later _ _ first

theorem mapM {ε : Type} {f : ε → Except Fault α} {g : ε → Except Fault β} (items : List ε)
    (each : ∀ item ∈ items, Coincide related (f item) (g item)) :
    Coincide (List.Forall₂ related) (items.mapM f) (items.mapM g) := by
  induction items with
  | nil => exact .nil
  | cons item items ih =>
    rw [List.mapM_cons, List.mapM_cons]
    refine (each item (.head _)).bind fun value value' first => ?_
    refine (ih fun other member => each other (.tail _ member)).bind fun values values' rest => ?_
    exact .cons first rest

end Coincide

/-! ### Pairings -/

def OneToOne {α : Type} (related : α → α → Prop) : Prop :=
  ∀ ⦃item item' other other'⦄, related item item' → related other other' → (item = other ↔ item' = other')

abbrev Pairing := Handle → Handle → Prop

namespace Pairing

def Extends (pairs pairs' : Pairing) : Prop :=
  ∀ handle handle', pairs handle handle' → pairs' handle handle'

def adding (pairs : Pairing) (handles handles' : List Handle) : Pairing :=
  fun handle handle' => pairs handle handle' ∨ (handle, handle') ∈ handles.zip handles'

variable {pairs pairs' pairs'' : Pairing}

theorem Extends.refl (pairs : Pairing) : pairs.Extends pairs :=
  fun _ _ => id

theorem Extends.trans (early : pairs.Extends pairs') (late : pairs'.Extends pairs'') : pairs.Extends pairs'' :=
  fun handle handle' both => late handle handle' (early handle handle' both)

theorem extends_adding (pairs : Pairing) (handles handles' : List Handle) :
    pairs.Extends (pairs.adding handles handles') :=
  fun _ _ => .inl

theorem adding_forall₂ (pairs : Pairing) {handles handles' : List Handle} (lengths : handles.length = handles'.length) :
    List.Forall₂ (pairs.adding handles handles') handles handles' :=
  List.forall₂_iff_zip.mpr ⟨lengths, fun both => .inr both⟩

end Pairing

theorem forall₂_getElem? {α β : Type} {related : α → β → Prop} {items : List α} {items' : List β}
    (each : List.Forall₂ related items items') (place : Nat) :
    (∃ item item', items[place]? = some item ∧ items'[place]? = some item' ∧ related item item') ∨
      items[place]? = none ∧ items'[place]? = none := by
  induction each generalizing place with
  | nil => exact .inr ⟨rfl, rfl⟩
  | cons first _ ih =>
    cases place with
    | zero => exact .inl ⟨_, _, rfl, rfl, first⟩
    | succ place => exact ih place

theorem Forall₂.isEmpty_eq {α β : Type} {related : α → β → Prop} {items : List α} {items' : List β}
    (each : List.Forall₂ related items items') : items.isEmpty = items'.isEmpty := by
  cases each <;> rfl

/-! ### Code, nodes and frames -/

/-- The code names only these handles, calls no host function, and no list of bindings in it
is longer than a word can count. -/
structure Expr.Sealed (known : Handle → Prop) (e : Expr) : Prop extends StaysIn known e where
  short : ∀ part bindings body, Part part e → part.form = .letrec bindings body → bindings.length < UInt64.size

theorem Expr.Sealed.child {known : Handle → Prop} {e below : Expr} (stays : e.Sealed known)
    (member : below ∈ e.children) : below.Sealed known where
  toStaysIn := stays.toStaysIn.child member
  short := fun part bindings body inside => stays.short part bindings body (.child member inside)

section

variable (known : Handle → Prop) (pairs : Pairing)

inductive Node.Alike : Node → Node → Prop where
  | char (value : Char) : Alike (.char value) (.char value)
  | int (value : Int64) : Alike (.int value) (.int value)
  | double (value : Float) : Alike (.double value) (.double value)
  | object (value : HostObject) : Alike (.object value) (.object value)
  | data {ordinal : UInt32} {name : String} {fields fields' : List Handle} (each : List.Forall₂ pairs fields fields') :
      Alike (.data ordinal name fields) (.data ordinal name fields')
  | function {code : Lambda Expr} {bound bound' : List Handle} (body : code.body.Sealed known)
      (each : List.Forall₂ pairs bound bound') : Alike (.function code bound) (.function code bound')
  | indirection {target target' : Handle} (both : pairs target target') :
      Alike (.indirection target) (.indirection target')
  | thunk {expr : Expr} {env env' : Env} (code : expr.Sealed known) (each : List.Forall₂ pairs env env') :
      Alike (.thunk expr env) (.thunk expr env')

inductive Suspension.Alike : Suspension → Suspension → Prop where
  | existing {handle handle' : Handle} (both : pairs handle handle') : Alike (.existing handle) (.existing handle')
  | new {node node' : Node} (alike : node.Alike known pairs node') : Alike (.new node) (.new node')

inductive Frame.Alike : Frame → Frame → Prop where
  | update {node node' : Handle} (both : pairs node node') : Alike (.update node) (.update node')
  | redirect {links links' : List Handle} (each : List.Forall₂ pairs links links') :
      Alike (.redirect links) (.redirect links')
  | apply {args args' : List Handle} (each : List.Forall₂ pairs args args') : Alike (.apply args) (.apply args')
  | call {op : Primitive} {done done' : List Node} {pending : List Expr} {env env' : Env}
      (evaluated : List.Forall₂ (Node.Alike known pairs) done done')
      (code : ∀ expr ∈ pending, expr.Sealed known) (each : List.Forall₂ pairs env env') :
      Alike (.call (.primitive op) ⟨done, pending, env⟩) (.call (.primitive op) ⟨done', pending, env'⟩)
  | choose {alternatives : List (Alternative Expr)} {otherwise : Option Expr} {env env' : Env}
      (code : ∀ alternative ∈ alternatives, alternative.body.Sealed known)
      (default : ∀ body, otherwise = some body → body.Sealed known) (each : List.Forall₂ pairs env env') :
      Alike (.choose alternatives otherwise env) (.choose alternatives otherwise env')
  | seq {next : Expr} {env env' : Env} (code : next.Sealed known) (each : List.Forall₂ pairs env env') :
      Alike (.seq next env) (.seq next env')

inductive Whnf.Alike : Whnf → Whnf → Prop where
  | fresh {node node' : Node} (alike : node.Alike known pairs node') : Alike (.fresh node) (.fresh node')
  | stored {handle handle' : Handle} {node node' : Node} (both : pairs handle handle')
      (alike : node.Alike known pairs node') : Alike (.stored handle node) (.stored handle' node')

inductive Control.Alike : Control → Control → Prop where
  | eval {expr : Expr} {env env' : Env} (code : expr.Sealed known) (each : List.Forall₂ pairs env env') :
      Alike (.eval expr env) (.eval expr env')
  | force {handle handle' : Handle} (both : pairs handle handle') : Alike (.force handle) (.force handle')
  | deliver {whnf whnf' : Whnf} (alike : whnf.Alike known pairs whnf') : Alike (.deliver whnf) (.deliver whnf')
  | await {links links' : List Handle} {node node' : Handle} (each : List.Forall₂ pairs links links')
      (both : pairs node node') : Alike (.await links node) (.await links' node')

end

variable {known : Handle → Prop} {pairs pairs' : Pairing}

theorem Node.Alike.mono {node node' : Node} (alike : node.Alike known pairs node') (wider : pairs.Extends pairs') :
    node.Alike known pairs' node' := by
  cases alike with
  | char | int | double | object => constructor
  | data each => exact .data (each.imp wider)
  | function body each => exact .function body (each.imp wider)
  | indirection both => exact .indirection (wider _ _ both)
  | thunk code each => exact .thunk code (each.imp wider)

theorem Frame.Alike.mono {frame frame' : Frame} (alike : frame.Alike known pairs frame') (wider : pairs.Extends pairs') :
    frame.Alike known pairs' frame' := by
  cases alike with
  | update both => exact .update (wider _ _ both)
  | redirect each => exact .redirect (each.imp wider)
  | apply each => exact .apply (each.imp wider)
  | call evaluated code each => exact .call (evaluated.imp fun _ _ alike => alike.mono wider) code (each.imp wider)
  | choose code default each => exact .choose code default (each.imp wider)
  | seq code each => exact .seq code (each.imp wider)

theorem Whnf.Alike.mono {whnf whnf' : Whnf} (alike : whnf.Alike known pairs whnf') (wider : pairs.Extends pairs') :
    whnf.Alike known pairs' whnf' := by
  cases alike with
  | fresh alike => exact .fresh (alike.mono wider)
  | stored both alike => exact .stored (wider _ _ both) (alike.mono wider)

theorem Control.Alike.mono {control control' : Control} (alike : control.Alike known pairs control')
    (wider : pairs.Extends pairs') : control.Alike known pairs' control' := by
  cases alike with
  | eval code each => exact .eval code (each.imp wider)
  | force both => exact .force (wider _ _ both)
  | deliver alike => exact .deliver (alike.mono wider)
  | await each both => exact .await (each.imp wider) (wider _ _ both)

namespace Node.Alike

variable {node node' : Node}

theorem tag (alike : node.Alike known pairs node') : node'.tag = node.tag := by
  cases alike <;> rfl

theorem ordinal (alike : node.Alike known pairs node') : node'.ordinal = node.ordinal := by
  cases alike <;> rfl

theorem fields (alike : node.Alike known pairs node') :
    List.Forall₂ pairs (Machine.scrutineeFields node) (Machine.scrutineeFields node') := by
  cases alike with
  | data each => exact each
  | _ => exact .nil

theorem of_plain (plain : node.Plain) : node.Alike known pairs node := by
  have references := plain.references
  have code := plain.code
  cases node with
  | char | int | double | object => constructor
  | data _ _ fields =>
    cases references
    exact .data .nil
  | indirection => cases references
  | function | thunk => cases code

end Node.Alike

theorem Primitive.execute_alike (op : Primitive) {operands operands' : List Node}
    (each : List.Forall₂ (Node.Alike known pairs) operands operands') : op.execute operands' = op.execute operands := by
  have read : ∀ (kind : Kind) {node node' : Node}, node.Alike known pairs node' →
      kind.operand op node' = kind.operand op node := by
    intro kind node node' alike
    cases alike <;> cases kind <;> rfl
  unfold execute
  rw [each.length_eq]
  generalize op.operation = operation
  cases each with
  | nil => cases operation <;> rfl
  | cons first rest =>
    cases rest with
    | nil =>
      cases operation with
      | unary kind compute => simp only [read kind first]
      | binary kind compute => rfl
    | cons second rest =>
      cases rest with
      | nil =>
        cases operation with
        | unary kind compute => rfl
        | binary kind compute => simp only [read kind first, read kind second]
      | cons third rest => cases operation <;> rfl

/-! ### Reading environments -/

section

variable {env env' : Env}

theorem Env.lookup_coincide (each : List.Forall₂ pairs env env') (slot : UInt64) : Coincide pairs (env.lookup slot) (env'.lookup slot) := by
  unfold Env.lookup
  rcases forall₂_getElem? each slot.toNat with ⟨handle, handle', present, present', both⟩ | ⟨absent, absent'⟩
  · rw [present, present']
    exact both
  · rw [absent, absent']
    exact rfl

theorem Env.close_coincide (each : List.Forall₂ pairs env env') {code : Lambda Expr}
    (body : code.body.Sealed known) (captures : List UInt64) :
    Coincide (Node.Alike known pairs) (env.close code captures) (env'.close code captures) := by
  unfold Env.close
  split
  · refine (Coincide.mapM captures fun slot _ => Env.lookup_coincide each slot).bind fun bound bound' both => ?_
    exact Node.Alike.function body both
  · exact rfl

theorem Env.suspend_coincide (each : List.Forall₂ pairs env env')
    (named : ∀ handle, known handle → pairs handle handle) {expr : Expr} (code : expr.Sealed known) :
    Coincide (Suspension.Alike known pairs) (env.suspend expr) (env'.suspend expr) := by
  obtain ⟨label, form⟩ := expr
  unfold Env.suspend
  cases form with
  | var slot => exact (Env.lookup_coincide each slot).map fun _ _ => .existing
  | global node => exact Suspension.Alike.existing (named node (code.names node .global))
  | char value => exact Suspension.Alike.new (.char value)
  | int value => exact Suspension.Alike.new (.int value)
  | double value => exact Suspension.Alike.new (.double value)
  | text value => exact Suspension.Alike.new (.object (.text value))
  | lambda lambda captures =>
    have body : lambda.body.Sealed known := code.child (.head _)
    exact (Env.close_coincide each body captures).map fun _ _ => .new
  | _ => exact Suspension.Alike.new (.thunk code each)

theorem Env.binding_coincide (each : List.Forall₂ pairs env env')
    (named : ∀ handle, known handle → pairs handle handle) {expr : Expr} (code : expr.Sealed known) :
    Coincide (Node.Alike known pairs) (env.binding expr) (env'.binding expr) := by
  refine (Env.suspend_coincide each named code).map fun suspension suspension' alike => ?_
  cases alike with
  | existing both => exact .indirection both
  | new alike => exact alike

end

theorem Machine.select_coincide {alternatives : List (Alternative Expr)} {otherwise : Option Expr} {env env' : Env}
    {scrutinee scrutinee' : Node} (code : ∀ alternative ∈ alternatives, alternative.body.Sealed known)
    (default : ∀ body, otherwise = some body → body.Sealed known) (each : List.Forall₂ pairs env env')
    (alike : scrutinee.Alike known pairs scrutinee') :
    Coincide (Control.Alike known pairs) (select alternatives otherwise env scrutinee)
      (select alternatives otherwise env' scrutinee') := by
  have fields := alike.fields
  unfold select
  rw [alike.ordinal]
  cases alternatives with
  | nil =>
    -- without alternatives a default is taken as it is
    cases otherwise with
    | some body => exact Control.Alike.eval (default body rfl) each
    | none => exact (Coincide.refl scrutinee.ordinal).bind fun _ _ _ => rfl
  | cons first rest =>
    refine (Coincide.refl scrutinee.ordinal).bind ?_
    rintro ordinal _ rfl
    cases found : (first :: rest).find? (·.ordinal == ordinal) with
    | some alternative =>
      simp only [fields.length_eq]
      split
      · exact Control.Alike.eval (code alternative (List.mem_of_find?_eq_some found)) (List.rel_append each fields)
      · exact rfl
    | none =>
      cases otherwise with
      | some body => exact Control.Alike.eval (default body rfl) each
      | none => exact rfl

end LazyGraph
