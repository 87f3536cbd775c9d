import LazyGraph.Proofs.Heap.Drawing
import LazyGraph.Proofs.Text.Lines
import Mathlib.Data.List.Forall2

/-! The line format of a picture.

A picture has a line for each visit as long as no node breaks its own line. Strings are quoted,
but characters and names stand as they are, so that a line break in one of them starts a line
that belongs to no node. -/

set_option autoImplicit false

namespace LazyGraph

open Text (OneLine)

@[simp] theorem Tag.oneLine_label (tag : Tag) : OneLine tag.label := by
  cases tag <;> decide

@[simp] theorem Handle.oneLine_text (handle : Handle) : OneLine handle.text := by
  have sign : OneLine "@" := by decide
  simp [Handle.text, sign]

@[simp] theorem Handle.oneLine_danglingText (handle : Handle) : OneLine handle.danglingText := by
  have opening : OneLine "<dangling " := by decide
  have closing : OneLine ">" := by decide
  simp [Handle.danglingText, opening, closing]

/-- Nothing that is shown of the node unquoted has a line break. -/
def Node.OnOneLine : Node → Prop
  | .char value => value ≠ '\n'
  | .data _ name _ => OneLine name
  | .function code _ => OneLine code.name
  | _ => True

theorem Slot.oneLine_payload (slot : Slot) : OneLine slot.payload ↔ slot.node.OnOneLine := by
  have opening : OneLine "<" := by decide
  have closing : OneLine ">" := by decide
  have ordinal : OneLine "#" := by decide
  have remaining : OneLine "/" := by decide
  have target : OneLine "-> " := by decide
  obtain ⟨state, node⟩ := slot
  cases node with
  | char | int | double | data | function | indirection =>
    simp [payload, Node.OnOneLine, opening, closing, ordinal, remaining, target]
  | object value =>
    cases value with
    | text => simp [payload, Node.OnOneLine, opening, closing]
    | foreign =>
      have shown : OneLine "<opaque>" := by decide
      simp [payload, Node.OnOneLine, shown]
  | thunk =>
    have unevaluated : OneLine "<unevaluated>" := by decide
    have inProgress : OneLine "<in progress: " := by decide
    have actor : OneLine "actor " := by decide
    cases state <;> simp [payload, Node.OnOneLine, Actor.text, unevaluated, inProgress, actor, closing]

namespace Visit

/-- How the line of a visit begins after its indentation. -/
def opening (visit : Visit) : String :=
  match visit.sight with
  | .dead => visit.handle.danglingText
  | .again slot => "^" ++ slot.node.tag.label ++ visit.handle.text
  | .first slot => slot.node.tag.label ++ visit.handle.text

/-- The line is indented by as many spaces or more, and begins as the line of the visit does. -/
def Opens (indent : Nat) (visit : Visit) (line : String) : Prop :=
  ∃ deeper rest, line = Text.spaces (indent + deeper) ++ visit.opening ++ rest

variable {visit : Visit} {indent : Nat}

theorem opens_line (indent : Nat) (visit : Visit) : visit.Opens indent (visit.line indent) := by
  obtain ⟨handle, depth, sight⟩ := visit
  cases sight with
  | dead => exact ⟨2 * depth, "", by simp [line, opening]⟩
  | again slot => exact ⟨2 * depth, "", by simp [line, opening]⟩
  | first slot => exact ⟨2 * depth, " " ++ slot.payload, by simp [line, opening, String.append_assoc]⟩

theorem oneLine_line : OneLine (visit.line indent) ↔ ∀ slot, visit.sight = .first slot → slot.node.OnOneLine := by
  obtain ⟨handle, depth, sight⟩ := visit
  cases sight with
  | dead => simp [line]
  | again slot =>
    have mark : OneLine "^" := by decide
    simp [line, mark]
  | first slot =>
    have blank : OneLine " " := by decide
    simp [line, blank, slot.oneLine_payload]

end Visit

namespace Heap

variable (heap : Heap) (root : Handle) (indent : Nat)

theorem renderLines_ne_nil : heap.renderLines root indent ≠ [] := by
  obtain ⟨drawn, drawing⟩ := heap.renderLines_drawing root indent
  have count := drawing.length
  rintro none
  rw [none, List.length_nil, List.length_singleton] at count
  omega

/-- No line of a picture has a break inside, if no node does that can be seen from the root. -/
theorem oneLine_renderLines : (∀ line ∈ heap.renderLines root indent, OneLine line) ↔
    ∀ handle slot, heap.InSight root handle → heap.lookup handle = .ok slot → slot.node.OnOneLine := by
  have shown := @visitFrom_shows heap Node.drawnChildren .empty [(root, 0)] [] nofun
  rw [renderLines, List.forall_mem_map]
  constructor
  · intro each handle slot seen live
    have entered := (heap.visits_preorder Node.drawnChildren root).mem_inSight_iff.mpr seen
    obtain ⟨⟨handle, depth, sight⟩, visited, entered⟩ := List.mem_filterMap.mp entered
    cases sight with
    | first slot' =>
      obtain rfl := Option.some.inj entered
      cases live.symm.trans (shown _ visited slot' rfl)
      exact Visit.oneLine_line.mp (each _ visited) slot rfl
    | dead | again => cases entered
  · intro each visit visited
    refine Visit.oneLine_line.mpr fun slot first => each visit.handle slot ?_ (shown visit visited slot first)
    refine (heap.visits_preorder Node.drawnChildren root).mem_inSight_iff.mp (List.mem_filterMap.mpr ⟨visit, visited, ?_⟩)
    rw [Visit.entered?, first]

/-- Split at its line breaks, a picture gives one line for each visit, with its indentation and
opening, exactly when no node that can be seen from the root has a line break in its character
or name; and as soon as one has, there are not as many lines as visits. -/
theorem render_keeps_lines :
    (List.Forall₂ (Visit.Opens indent) (heap.visits Node.drawnChildren root) (Text.lines (heap.render root indent)) ↔
      ∀ handle slot, heap.InSight root handle → heap.lookup handle = .ok slot → slot.node.OnOneLine) ∧
    ((Text.lines (heap.render root indent)).length = (heap.visits Node.drawnChildren root).length ↔
      ∀ handle slot, heap.InSight root handle → heap.lookup handle = .ok slot → slot.node.OnOneLine) := by
  have count : (heap.renderLines root indent).length = (heap.visits Node.drawnChildren root).length := List.length_map ..
  have counted (same : (Text.lines (heap.render root indent)).length = (heap.visits Node.drawnChildren root).length) :=
    (heap.oneLine_renderLines root indent).mp (Text.oneLine_of_length (same.trans count.symm))
  have split (each : ∀ handle slot, heap.InSight root handle → heap.lookup handle = .ok slot → slot.node.OnOneLine) :
      Text.lines (heap.render root indent) = heap.renderLines root indent :=
    Text.lines_intercalate ((heap.oneLine_renderLines root indent).mpr each) (heap.renderLines_ne_nil root indent)
  refine ⟨⟨fun opens => counted opens.length_eq.symm, fun each => ?_⟩, counted, fun each => (split each).symm ▸ count⟩
  rw [split each, renderLines, List.forall₂_map_right_iff, List.forall₂_same]
  exact fun visit _ => visit.opens_line indent

/-! ### A node on two lines -/

def lineBreak : Heap :=
  (Heap.alloc (.char '\n') (.ofSettings {})).state

/-- One node is drawn, and the second line has neither its indentation nor an opening. -/
theorem render_breaks_line :
    (lineBreak.visits Node.drawnChildren ⟨0, 0⟩).length = 1 ∧
      Text.lines (lineBreak.render ⟨0, 0⟩ 2) = ["  CHAR@0 <", ">"] ∧
      ¬ List.Forall₂ (Visit.Opens 2) (lineBreak.visits Node.drawnChildren ⟨0, 0⟩)
          (Text.lines (lineBreak.render ⟨0, 0⟩ 2)) := by
  have visited : lineBreak.visits Node.drawnChildren ⟨0, 0⟩ = [⟨⟨0, 0⟩, 0, .first ⟨.evaluated, .char '\n'⟩⟩] := by
    have live : lineBreak.lookup ⟨0, 0⟩ = .ok ⟨.evaluated, .char '\n'⟩ := rfl
    rw [visits, visitFrom_eq, live]
    simp [Node.drawnChildren, Node.references, visitFrom]
  have one : (lineBreak.visits Node.drawnChildren ⟨0, 0⟩).length = 1 := congrArg List.length visited
  have two : Text.lines (lineBreak.render ⟨0, 0⟩ 2) = ["  CHAR@0 <", ">"] := by
    rw [render, renderLines, visited]
    decide +kernel
  refine ⟨one, two, fun opens => ?_⟩
  have same := opens.length_eq
  rw [one, two] at same
  cases same

end Heap

end LazyGraph
