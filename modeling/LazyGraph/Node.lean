import LazyGraph.Code.Globals
import LazyGraph.Decimal.Layout
import LazyGraph.Fault
import LazyGraph.Text.Quoted

/-! Graph nodes and the values that evaluated nodes show to the host.

Nodes refer to each other by handles only, so the graph may be cyclic. -/

set_option autoImplicit false

namespace LazyGraph

/-- A host object is a string, or a foreign object known by its identity alone. -/
inductive HostObject where
  | text (value : String)
  | foreign (key : UInt64)
  deriving DecidableEq, Repr

namespace HostObject

def text? : HostObject → Option String
  | .text value => some value
  | .foreign _ => none

def foreign? : HostObject → Option UInt64
  | .text _ => none
  | .foreign key => some key

def debugText : HostObject → String
  | .text value => "Str(" ++ Text.quoted value ++ ")"
  | .foreign _ => "Opaque(..)"

end HostObject

inductive Node where
  | char (value : Char)
  | int (value : Int64)
  | double (value : Float)
  | object (value : HostObject)
  | data (ordinal : UInt32) (name : String) (fields : List Handle)
  -- Captured handles first, then arguments bound so far.
  | function (code : Lambda Expr) (bound : List Handle)
  | indirection (target : Handle)
  | thunk (expr : Expr) (env : Env)

def Lambda.remaining {ε : Type} (code : Lambda ε) (bound : List Handle) : Nat :=
  code.envSize.toNat - bound.length

/-- What an evaluated node shows to the host. -/
inductive Value where
  | char (value : Char)
  | int (value : Int64)
  | double (value : Float)
  | object (value : HostObject)
  | data (ordinal : UInt32) (name : String) (fields : List Handle)
  | function (name : String) (remaining : Nat)

/-- Doubles compare as numbers, so that no NaN equals itself; foreign objects by
identity; functions by name and missing arguments. -/
def Value.same : Value → Value → Bool
  | .char left, .char right => left == right
  | .int left, .int right => left == right
  | .double left, .double right => left == right
  | .object left, .object right => left == right
  | .data ordinal name fields, .data ordinal' name' fields' =>
      ordinal == ordinal' && name == name' && fields == fields'
  | .function name remaining, .function name' remaining' => name == name' && remaining == remaining'
  | _, _ => false

namespace Node

def text (value : String) : Node := .object (.text value)

def bool (value : Bool) : Node :=
  if value then .data 1 "True" [] else .data 0 "False" []

def tag : Node → Tag
  | .char _ => .char
  | .int _ => .int
  | .double _ => .double
  | .object _ => .object
  | .data .. => .data
  | .function .. => .function
  | .indirection _ => .indirection
  | .thunk .. => .thunk

def value? : Node → Option Value
  | .char value => some (.char value)
  | .int value => some (.int value)
  | .double value => some (.double value)
  | .object value => some (.object value)
  | .data ordinal name fields => some (.data ordinal name fields)
  | .function code bound => some (.function code.name (code.remaining bound))
  | .indirection _ | .thunk .. => none

def ordinal : Node → Except Fault UInt32
  | .char value => .ok value.val
  | .data ordinal _ _ => .ok ordinal
  | node => .error (.typeMismatch "ordinal" "CHAR or CONSTRUCTOR" node.tag)

def brief : Node → String
  | .char value => value.toString
  | .int value => toString value.toInt
  | .double value => Decimal.showDouble value
  | .object (.text value) => Text.quoted value
  | .object (.foreign _) => "<object>"
  | .data _ name _ => name
  | .function code bound => s!"{code.name}/{code.remaining bound}"
  | .indirection target => "-> " ++ target.text
  | .thunk .. => "<thunk>"

def references : Node → List Handle
  | .data _ _ fields => fields
  | .function _ bound => bound
  | .indirection target => [target]
  | .thunk _ env => env
  | .char _ | .int _ | .double _ | .object _ => []

def code? : Node → Option Expr
  | .thunk expr _ => some expr
  | .function code _ => some code.body
  | _ => none

/-- Handles named in the node's code, past the labels already visited. -/
def codeReferences (node : Node) (visited : Labels) : List Handle × Labels :=
  match node.code? with
  | some code => code.globalsFrom visited
  | none => ([], visited)

/-- All edges of the graph that leave the node: what it holds, then what its code names. -/
def edges (node : Node) : List Handle :=
  node.references ++ (node.codeReferences ∅).1

end Node

end LazyGraph
