import LazyGraph.Handle
import LazyGraph.Primitive.Basic
import LazyGraph.Tag

/-! Faults of the heap and of evaluation, by cause, with one wording for each. -/

set_option autoImplicit false

namespace LazyGraph

inductive Limit where
  | workStack (frames : UInt64)
  | heap (nodes : UInt64)
  | steps (budget : UInt64)
  | deadline
  | cancelled
  deriving DecidableEq, Repr

def Limit.message : Limit → String
  | .workStack frames => s!"work stack exceeded {frames.toNat} frames"
  | .heap nodes => s!"heap exceeded {nodes.toNat} live nodes"
  | .steps budget => s!"step budget of {budget.toNat} exhausted"
  | .deadline => "time limit reached"
  | .cancelled => "reduction cancelled"

/-- What is inconsistent in a malformed graph. -/
inductive Defect where
  | unallocated (index : UInt32)
  | stale (handle : Handle)
  | dangling (index : UInt32)
  | groupSize (built : Nat) (slots : UInt64)
  | unboundSlot (slot : UInt64) (bound : Nat)
  | captureCount (name : String) (listed : Nat) (expected : UInt64)
  | operandCount (op : Primitive) (given : Nat)
  | argumentCount (op : Primitive) (given : Nat)
  | hostArgumentCount (name : String) (arity : UInt64) (given : Nat)
  | fieldCount (ordinal : UInt32) (binds : UInt64) (fields : Nat)
  | notOwner (node : Handle) (actor : Actor)
  | reported (text : String)
  deriving DecidableEq, Repr

def Defect.message : Defect → String
  | .unallocated index => s!"node @{index.toNat} is not allocated"
  | .stale handle => s!"stale handle {handle.text} (generation {handle.generation.toNat})"
  | .dangling index => s!"dangling handle @{index.toNat}"
  | .groupSize built slots => s!"recursive allocation built {built} nodes for {slots.toNat} slots"
  | .unboundSlot slot bound => s!"environment slot {slot.toNat} out of range ({bound} bound)"
  | .captureCount name listed expected =>
      s!"lambda {name} captures {listed} slots, code expects {expected.toNat}"
  | .operandCount op given => s!"primop {op.name} expects {op.arity} arguments, got {given}"
  | .argumentCount op given => s!"primop {op.name} takes {op.arity} arguments, got {given}"
  | .hostArgumentCount name arity given => s!"native {name} takes {arity.toNat} arguments, got {given}"
  | .fieldCount ordinal binds fields =>
      s!"alternative {ordinal.toNat} binds {binds.toNat} fields, scrutinee has {fields}"
  | .notOwner node actor => s!"update of {node.text} which {actor.text} does not own"
  | .reported text => text

/-- What a running program did wrong by its own rules. -/
inductive Failure where
  | divisionByZero (op : Primitive)
  | notCodePoint (op : Primitive) (code : Int64)
  | raised (text : String)
  deriving DecidableEq, Repr

def Failure.message : Failure → String
  | .divisionByZero op => s!"primop {op.name}: division by zero"
  | .notCodePoint op code => s!"primop {op.name}: {code.toInt} is not a character code point"
  | .raised text => text

inductive Fault where
  | typeMismatch (operation expected : String) (found : Tag)
  | nonTermination (node : Handle)
  | exhausted (limit : Limit)
  | malformed (defect : Defect)
  | noAlternative (ordinal : UInt32)
  | failed (failure : Failure)
  deriving DecidableEq, Repr

namespace Fault

def message : Fault → String
  | .typeMismatch operation expected found =>
      s!"type mismatch in {operation}: expected {expected}, found {found.label}"
  | .nonTermination node => s!"non-termination: {node.text} depends on its own value"
  | .exhausted limit => s!"resource exhausted: {limit.message}"
  | .malformed defect => s!"malformed graph: {defect.message}"
  | .noAlternative ordinal => s!"pattern match failure: no alternative for ordinal {ordinal.toNat}"
  | .failed failure => s!"runtime error: {failure.message}"

/-- Fatal faults end the reduction that raised them and are never retried. -/
def isFatal : Fault → Bool
  | .nonTermination _ | .exhausted _ | .malformed _ => true
  | _ => false

end Fault

end LazyGraph
