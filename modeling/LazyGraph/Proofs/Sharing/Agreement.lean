import LazyGraph.Proofs.Sharing.Reading

/-! Environments and scopes that agree.

Evaluation with and without sharing read the same code. What the one finds in an
environment the other finds in a scope, and where one fails to suspend an expression the
other fails too. -/

set_option autoImplicit false

namespace LazyGraph

open Unshared

variable {graph : Heap} {known : Handle → Prop} {reading : Reading} {env : Env} {scope : List Closure} {expr : Expr}

/-! ### Reading environments and scopes -/

def Agrees {α β : Type} (related : α → β → Prop) : Except Fault α → Option β → Prop
  | .ok value, some expected => related value expected
  | .error _, none => True
  | _, _ => False

namespace Agrees

variable {α β : Type} {related : α → β → Prop} {outcome : Except Fault α} {expected : Option β}

theorem ok {value : α} (agrees : Agrees related (.ok value) expected) :
    ∃ result, expected = some result ∧ related value result := by
  cases expected with
  | none => cases agrees
  | some result => exact ⟨result, rfl, agrees⟩

theorem error {fault : Fault} (agrees : Agrees related (.error fault) expected) : expected = none := by
  cases expected with
  | none => rfl
  | some result => cases agrees

theorem imp {weaker : α → β → Prop} (agrees : Agrees related outcome expected)
    (implies : ∀ value result, related value result → weaker value result) : Agrees weaker outcome expected := by
  cases outcome with
  | ok value =>
    obtain ⟨result, rfl, both⟩ := agrees.ok
    exact implies value result both
  | error fault =>
    rw [agrees.error]
    trivial

theorem chain {γ : Type} {first : Except Fault γ} {next : γ → Except Fault α} {later : γ → Option β}
    (each : ∀ value, Agrees related (next value) (later value)) : Agrees related (first >>= next) (first.toOption.bind later) := by
  cases first with
  | ok value => exact each value
  | error fault => trivial

theorem mapM {γ : Type} {f : γ → Except Fault α} {g : γ → Option β} {all : List α → List β → Prop} (nil : all [] [])
    (cons : ∀ {value values result results}, related value result → all values results →
      all (value :: values) (result :: results)) (items : List γ)
    (each : ∀ item ∈ items, Agrees related (f item) (g item)) : Agrees all (items.mapM f) (items.mapM g) := by
  induction items with
  | nil => exact nil
  | cons head tail ih =>
    have rest := ih fun item member => each item (.tail _ member)
    have first := each head (.head _)
    rw [List.mapM_cons, List.mapM_cons]
    cases found : f head with
    | error fault =>
      rw [found] at first
      rw [first.error]
      trivial
    | ok value =>
      rw [found] at first
      obtain ⟨result, same, both⟩ := first.ok
      rw [same]
      cases found' : tail.mapM f with
      | error fault =>
        rw [found'] at rest
        simp only [rest.error, bind, Except.bind, Option.bind]
        trivial
      | ok values =>
        rw [found'] at rest
        obtain ⟨results, same', all⟩ := rest.ok
        simp only [same', bind, Except.bind, Option.bind, pure, Except.pure]
        exact cons both all

end Agrees

theorem lookup_agrees (reads : reading.Reads env scope) (slot : UInt64) :
    Agrees (fun handle closure => reading handle = some closure) (env.lookup slot) scope[slot.toNat]? := by
  unfold Env.lookup
  rcases reads.getElem? slot.toNat with ⟨handle, closure, present, present', read⟩ | ⟨absent, absent'⟩
  · simpa only [present, present', Agrees] using read
  · simp only [absent, absent', Agrees]

theorem close_agrees (reads : reading.Reads env scope) {code : Lambda Expr} (body : code.body.StaysIn known)
    (captures : List UInt64) :
    Agrees (fun node parts => Denotes known reading node ⟨.function code [], parts⟩) (env.close code captures)
      (capture? scope code captures) := by
  unfold Env.close capture?
  split
  · have captured : Agrees reading.Reads (captures.mapM env.lookup) (captures.mapM fun slot => scope[slot.toNat]?) :=
      Agrees.mapM (.nil reading) .cons captures fun slot _ => lookup_agrees reads slot
    cases found : captures.mapM env.lookup with
    | error fault =>
      rw [found] at captured
      rw [captured.error]
      trivial
    | ok handles =>
      rw [found] at captured
      obtain ⟨parts, same, parts'⟩ := captured.ok
      rw [same]
      refine ⟨rfl, rfl, parts', ?_⟩
      rintro _ ⟨⟩
      exact body
  · trivial

-- A node that stands for the expression, under whatever name.
def Stands (graph : Heap) (known : Handle → Prop) (reading : Reading) (expr : Expr) (scope : List Closure)
    (node : Node) : Prop :=
  ∀ heap closure, Becomes graph closure (.eval expr scope) → Depicts graph known reading heap closure (.ofNode node)

def Suspension.Stands (graph : Heap) (known : Handle → Prop) (reading : Reading) (expr : Expr) (scope : List Closure)
    (suspension : Suspension) (closure : Closure) : Prop :=
  match suspension with
  | .existing handle => reading handle = some closure ∧ eval? expr scope = some (.force closure, none)
  | .new node => closure = .suspended expr scope ∧ LazyGraph.Stands graph known reading expr scope node

theorem Denotes.stands {node : Node} {shape : Shape} (denotes : Denotes known reading node shape)
    (evaluated : eval? expr scope = some (.deliver shape, none)) : Stands graph known reading expr scope node := by
  intro heap closure becomes
  rw [Slot.ofNode_of_whnf denotes.whnf]
  exact .value denotes (becomes.trans (turns_eval evaluated))

theorem Denotes.of_plain {node : Node} (plain : node.Plain) : Denotes known reading node ⟨node, []⟩ where
  whnf := plain.whnf
  bare := plain.bare.symm
  parts := by
    rw [plain.references]
    exact .nil reading
  code := by simp [plain.code]

theorem suspend_agrees (reads : reading.Reads env scope) (code : expr.StaysIn known)
    (globals : ∀ {handle}, known handle → reading handle = some (.node handle)) :
    Agrees (Suspension.Stands graph known reading expr scope) (env.suspend expr) (suspend? scope expr) := by
  have thunk : Stands graph known reading expr scope (.thunk expr env) :=
    fun heap closure becomes => .thunk (by simp) reads code becomes
  obtain ⟨label, form⟩ := expr
  unfold Env.suspend suspend?
  cases form with
  | var slot =>
    have found := lookup_agrees reads slot
    cases looked : env.lookup slot with
    | error fault =>
      rw [looked] at found
      simp only [looked, found.error]
      trivial
    | ok handle =>
      rw [looked] at found
      obtain ⟨closure, present, read⟩ := found.ok
      simp only [looked, present]
      exact ⟨read, by simp only [eval?, present, Option.map_some]⟩
  | global node => exact ⟨globals (code.names node .global), rfl⟩
  | char value | int value | double value | text value => exact ⟨rfl, (Denotes.of_plain ⟨rfl, rfl, rfl⟩).stands rfl⟩
  | lambda lambda captures =>
    have closed := close_agrees reads (code.child (.head _)) captures
    simp only
    cases found : env.close lambda captures with
    | error fault =>
      rw [found] at closed
      rw [closed.error]
      trivial
    | ok node =>
      rw [found] at closed
      obtain ⟨parts, same, denotes⟩ := closed.ok
      rw [same]
      exact ⟨rfl, denotes.stands (by simp only [eval?, same, Option.map_some])⟩
  | data | apply | primitive | host | choose | letrec | seq | raise => exact ⟨rfl, thunk⟩

theorem binding_agrees (reads : reading.Reads env scope) (code : expr.StaysIn known)
    (globals : ∀ {handle}, known handle → reading handle = some (.node handle)) :
    Agrees (fun node _ => Stands graph known reading expr scope node) (env.binding expr) (suspend? scope expr) := by
  have suspended : Agrees (Suspension.Stands graph known reading expr scope) (env.suspend expr) (suspend? scope expr) :=
    suspend_agrees reads code globals
  unfold Env.binding
  cases found : env.suspend expr with
  | error fault =>
    rw [found] at suspended
    rw [suspended.error]
    trivial
  | ok suspension =>
    rw [found] at suspended
    obtain ⟨closure, same, stands⟩ := suspended.ok
    rw [same]
    cases suspension with
    | existing handle => exact fun heap other becomes => .link stands.1 (becomes.trans (turns_eval stands.2))
    | new node => exact stands.2

theorem binding_stands {node : Node} (reads : reading.Reads env scope) (code : expr.StaysIn known)
    (globals : ∀ {handle}, known handle → reading handle = some (.node handle)) (built : env.binding expr = .ok node) :
    Stands graph known reading expr scope node := by
  have agrees : Agrees (fun node _ => Stands graph known reading expr scope node) (env.binding expr) (suspend? scope expr) :=
    binding_agrees reads code globals
  rw [built] at agrees
  obtain ⟨_, _, stands⟩ := agrees.ok
  exact stands

/-- Bindings can all be built in the environment just when they can be in the scope. -/
theorem bindings_agree (graph : Heap) {bindings : List Expr} (reads : reading.Reads env scope)
    (code : ∀ binding ∈ bindings, binding.StaysIn known)
    (globals : ∀ {handle}, known handle → reading handle = some (.node handle)) :
    Agrees (fun _ _ => True) (bindings.mapM env.binding) (bindings.mapM (suspend? scope)) := by
  refine Agrees.mapM trivial (fun (_ : True) _ => trivial) bindings fun binding member => ?_
  exact (@binding_agrees graph _ _ _ _ _ reads (code binding member) globals).imp fun _ _ _ => trivial

end LazyGraph
