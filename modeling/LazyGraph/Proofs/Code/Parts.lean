import LazyGraph.Proofs.Code.Names

/-! The parts of an expression, and what can be said of code part by part. -/

set_option autoImplicit false

namespace LazyGraph

inductive Expr.Part (part : Expr) : Expr → Prop where
  | whole : Part part part
  | child {e child : Expr} (member : child ∈ e.children) (inside : Part part child) : Part part e

namespace Expr

variable {e part below : Expr} {region : Handle → Prop}

def HostFree (e : Expr) : Prop :=
  ∀ part fn args, Part part e → part.form ≠ .host fn args

/-- The code calls no host function and names only handles of the region. -/
structure StaysIn (region : Handle → Prop) (e : Expr) : Prop where
  hostFree : e.HostFree
  names : ∀ handle, e.Names handle → region handle

theorem HostFree.child (free : e.HostFree) (member : below ∈ e.children) : below.HostFree :=
  fun part fn args inside => free part fn args (.child member inside)

theorem HostFree.of_children (top : ∀ fn args, e.form ≠ .host fn args) (each : ∀ child ∈ e.children, child.HostFree) :
    e.HostFree := by
  intro part fn args inside
  cases inside with
  | whole => exact top fn args
  | child member inside => exact each _ member part fn args inside

theorem StaysIn.child (stays : e.StaysIn region) (member : below ∈ e.children) : below.StaysIn region where
  hostFree := stays.hostFree.child member
  names := fun handle names => stays.names handle (.of_child member names)

end Expr

end LazyGraph
