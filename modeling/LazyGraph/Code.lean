import LazyGraph.Handle
import LazyGraph.Primitive.Basic

/-! Code: the expressions that thunks and functions run.

Variables are environment slots; an environment is the list of handles a body was
built with. Expressions are shared, so each one carries a label: two occurrences of
one expression have one label, and a walk over code visits a label once. -/

set_option autoImplicit false

namespace LazyGraph

abbrev Env := List Handle

/-- A function of the host. The host finds its meaning by the key. -/
structure HostFn where
  name : String
  arity : UInt64
  key : Nat
  deriving DecidableEq, Repr

def HostFn.text (fn : HostFn) : String :=
  s!"<native {fn.name}/{fn.arity.toNat}>"

/-- Function code. The body runs in the captured handles followed by the arguments. -/
structure Lambda (ε : Type) where
  name : String
  captures : UInt64
  params : UInt64
  body : ε

/-- Size of the environment the body expects. Sizes are 64-bit words. -/
def Lambda.envSize {ε : Type} (code : Lambda ε) : UInt64 :=
  code.captures + code.params

/-- Chosen when the scrutinee has this ordinal; the fields, `binds` of them, extend
the environment. -/
structure Alternative (ε : Type) where
  ordinal : UInt32
  binds : UInt64
  body : ε

/-- One layer of code over subexpressions `ε`. -/
inductive Form (ε : Type) where
  | var (slot : UInt64)
  | global (node : Handle)
  | char (value : Char)
  | int (value : Int64)
  | double (value : Float)
  | text (value : String)
  | data (ordinal : UInt32) (name : String) (args : List ε)
  | lambda (code : Lambda ε) (captures : List UInt64)
  | apply (fn : ε) (args : List ε)
  | primitive (op : Primitive) (args : List ε)
  | host (fn : HostFn) (args : List ε)
  | choose (scrutinee : ε) (alternatives : List (Alternative ε)) (otherwise : Option ε)
  | letrec (bindings : List ε) (body : ε)
  | seq (first second : ε)
  | raise (message : String)

namespace Form

variable {ε : Type}

def children : Form ε → List ε
  | .data _ _ args | .primitive _ args | .host _ args => args
  | .lambda code _ => [code.body]
  | .apply fn args => fn :: args
  | .choose scrutinee alternatives otherwise =>
      scrutinee :: alternatives.map Alternative.body ++ otherwise.toList
  | .letrec bindings body => bindings ++ [body]
  | .seq first second => [first, second]
  | .var _ | .global _ | .char _ | .int _ | .double _ | .text _ | .raise _ => []

def kind : Form ε → String
  | .var _ => "var"
  | .global _ => "global"
  | .char _ => "char"
  | .int _ => "int"
  | .double _ => "double"
  | .text _ => "str"
  | .data .. => "construct"
  | .lambda .. => "lambda"
  | .apply .. => "apply"
  | .primitive .. => "prim"
  | .host .. => "native"
  | .choose .. => "case"
  | .letrec .. => "let"
  | .seq .. => "seq"
  | .raise _ => "error"

end Form

/-- An expression: one layer of code and the label of this shared occurrence. -/
structure Expr where
  label : Nat
  form : Form Expr

namespace Expr

def children (e : Expr) : List Expr := e.form.children

noncomputable def weight : List Expr → Nat
  | [] => 0
  | e :: rest => sizeOf e + weight rest

theorem weight_append (front back : List Expr) :
    weight (front ++ back) = weight front + weight back := by
  induction front with
  | nil => simp [weight]
  | cons e rest ih =>
    simp only [List.cons_append, weight, ih]
    omega

theorem weight_reverse (items : List Expr) : weight items.reverse = weight items := by
  induction items with
  | nil => rfl
  | cons e rest ih =>
    simp only [List.reverse_cons, weight_append, weight, ih]
    omega

theorem weight_le (items : List Expr) : weight items ≤ sizeOf items := by
  induction items with
  | nil => simp [weight]
  | cons head tail ih =>
    simp only [weight, List.cons.sizeOf_spec]
    omega

theorem weight_bodies_le (alternatives : List (Alternative Expr)) :
    weight (alternatives.map Alternative.body) ≤ sizeOf alternatives := by
  induction alternatives with
  | nil => simp [weight]
  | cons head tail ih =>
    obtain ⟨ordinal, binds, body⟩ := head
    simp only [List.map_cons, weight, List.cons.sizeOf_spec, Alternative.mk.sizeOf_spec]
    omega

/-- Subexpressions together are smaller than the expression they belong to. -/
theorem weight_children_lt (e : Expr) : weight e.children < sizeOf e := by
  obtain ⟨label, form⟩ := e
  rw [Expr.mk.sizeOf_spec]
  cases form with
  | var | global | char | int | double | text | raise =>
    simp only [children, Form.children, weight]
    omega
  | data _ _ args | primitive _ args | host _ args =>
    have := weight_le args
    simp only [children, Form.children, Form.data.sizeOf_spec, Form.primitive.sizeOf_spec,
      Form.host.sizeOf_spec]
    omega
  | lambda code captures =>
    obtain ⟨name, captured, params, body⟩ := code
    simp only [children, Form.children, Form.lambda.sizeOf_spec, Lambda.mk.sizeOf_spec, weight]
    omega
  | apply fn args =>
    have := weight_le args
    simp only [children, Form.children, Form.apply.sizeOf_spec, weight]
    omega
  | choose scrutinee alternatives otherwise =>
    have := weight_bodies_le alternatives
    cases otherwise <;>
      simp only [children, Form.children, Form.choose.sizeOf_spec, Option.none.sizeOf_spec,
        Option.some.sizeOf_spec, Option.toList_none, Option.toList_some, weight_append,
        weight] <;>
      omega
  | letrec bindings body =>
    have := weight_le bindings
    simp only [children, Form.children, Form.letrec.sizeOf_spec, weight_append, weight]
    omega
  | seq first second =>
    simp only [children, Form.children, Form.seq.sizeOf_spec, weight]
    omega

end Expr

end LazyGraph
