import LazyGraph.Code
import Std.Data.TreeSet

/-! Handles named in code.

Code keeps nodes alive through the handles written in it. The walk keeps a set of
labels; an expression enters the work list only when its label is new, so shared
code is read once, and one set can serve many walks. -/

set_option autoImplicit false

namespace LazyGraph

abbrev Labels := Std.TreeSet Nat compare

namespace Expr

/-- Splits off the expressions whose labels are new, in order, and enters their labels. -/
def enterLabels (visited : Labels) : List Expr → List Expr × Labels
  | [] => ([], visited)
  | e :: rest =>
    if visited.contains e.label then enterLabels visited rest
    else
      let (fresh, visited) := enterLabels (visited.insert e.label) rest
      (e :: fresh, visited)

theorem weight_fresh_le (visited : Labels) (items : List Expr) :
    weight (enterLabels visited items).1 ≤ weight items := by
  induction items generalizing visited with
  | nil => simp [enterLabels]
  | cons e rest ih =>
    by_cases met : visited.contains e.label
    · have := ih visited
      simp only [enterLabels, met, if_true, weight]
      omega
    · have := ih (visited.insert e.label)
      simpa [enterLabels, met, weight] using this

def global? (e : Expr) : Option Handle :=
  match e.form with
  | .global node => some node
  | _ => none

/-- Walks the expressions in `work`, last found handle first in the result. The last
new subexpression is walked first. -/
def walkGlobals (work : List Expr) (visited : Labels) (found : List Handle) : List Handle × Labels :=
  match work with
  | [] => (found, visited)
  | e :: rest =>
    let fresh := enterLabels visited e.children
    walkGlobals (fresh.1.reverse ++ rest) fresh.2 (e.global?.toList ++ found)
termination_by weight work
decreasing_by
  have smaller := weight_children_lt e
  have kept := weight_fresh_le visited e.children
  simp only [weight_append, weight_reverse, weight]
  omega

/-- Handles named by the expression, in the order found. The root's own label is not
entered, those of its subexpressions are. -/
def globalsFrom (root : Expr) (visited : Labels) : List Handle × Labels :=
  let (found, visited) := walkGlobals [root] visited []
  (found.reverse, visited)

/-- Every handle named by the expression. One named in two places is listed twice. -/
def globals (root : Expr) : List Handle :=
  (root.globalsFrom ∅).1

end Expr

end LazyGraph
