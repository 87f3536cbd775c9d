import LazyGraph.Node

/-! What the primitive operations compute.

An operation reads one or two operands of one kind. Operands are checked from left
to right, before anything is computed. Integers wrap, division truncates. -/

set_option autoImplicit false

namespace LazyGraph.Primitive

/-- The kind of operand an operation reads. -/
inductive Kind where
  | int
  | double
  | char
  | text
  deriving DecidableEq, Repr

namespace Kind

abbrev Carrier : Kind → Type
  | .int => Int64
  | .double => Float
  | .char => Char
  | .text => String

def expected : Kind → String
  | .int => "INT"
  | .double => "DOUBLE"
  | .char => "CHAR"
  | .text => "OBJECT (string)"

def read? : (kind : Kind) → Node → Option kind.Carrier
  | .int, .int value => some value
  | .double, .double value => some value
  | .char, .char value => some value
  | .text, .object (.text value) => some value
  | _, _ => none

def operand (kind : Kind) (op : Primitive) (node : Node) : Except Fault kind.Carrier :=
  match kind.read? node with
  | some value => .ok value
  | none => .error (.typeMismatch op.name kind.expected node.tag)

end Kind

/-- What an operation does with its operands once they are read. -/
inductive Operation where
  | unary (kind : Kind) (compute : kind.Carrier → Except Failure Node)
  | binary (kind : Kind) (compute : kind.Carrier → kind.Carrier → Except Failure Node)

def Operation.arity : Operation → Nat
  | .unary .. => 1
  | .binary .. => 2

def charOfCode? (code : Int64) : Option Char :=
  if 0 ≤ code.toInt ∧ code.toInt.toNat.isValidChar then some (Char.ofNat code.toInt.toNat) else none

def operation : Primitive → Operation
  | .intAdd => .binary .int fun a b => .ok (.int (a + b))
  | .intSub => .binary .int fun a b => .ok (.int (a - b))
  | .intMul => .binary .int fun a b => .ok (.int (a * b))
  | .intDiv => .binary .int fun a b =>
      if b = 0 then .error (.divisionByZero .intDiv) else .ok (.int (a / b))
  | .intRem => .binary .int fun a b =>
      if b = 0 then .error (.divisionByZero .intRem) else .ok (.int (a % b))
  | .intNeg => .unary .int fun a => .ok (.int (-a))
  | .intEq => .binary .int fun a b => .ok (.bool (a == b))
  | .intLt => .binary .int fun a b => .ok (.bool (a < b))
  | .intLe => .binary .int fun a b => .ok (.bool (a ≤ b))
  | .doubleAdd => .binary .double fun a b => .ok (.double (a + b))
  | .doubleSub => .binary .double fun a b => .ok (.double (a - b))
  | .doubleMul => .binary .double fun a b => .ok (.double (a * b))
  | .doubleDiv => .binary .double fun a b => .ok (.double (a / b))
  | .doubleNeg => .unary .double fun a => .ok (.double (-a))
  | .doubleEq => .binary .double fun a b => .ok (.bool (a == b))
  | .doubleLt => .binary .double fun a b => .ok (.bool (a < b))
  | .doubleLe => .binary .double fun a b => .ok (.bool (a ≤ b))
  | .charEq => .binary .char fun a b => .ok (.bool (a == b))
  | .charLt => .binary .char fun a b => .ok (.bool (a < b))
  | .charToInt => .unary .char fun a => .ok (.int (Int64.ofNat a.toNat))
  | .intToChar => .unary .int fun a =>
      match charOfCode? a with
      | some c => .ok (.char c)
      | none => .error (.notCodePoint .intToChar a)
  | .intToDouble => .unary .int fun a => .ok (.double a.toFloat)
  | .doubleToInt => .unary .double fun a => .ok (.int a.toInt64)
  | .textAppend => .binary .text fun a b => .ok (.text (a ++ b))
  | .textLength => .unary .text fun a => .ok (.int (Int64.ofNat a.length))
  | .textEq => .binary .text fun a b => .ok (.bool (a == b))

theorem arity_operation (op : Primitive) : op.operation.arity = op.arity := by
  cases op <;> rfl

def execute (op : Primitive) (operands : List Node) : Except Fault Node :=
  match op.operation, operands with
  | .unary kind compute, [a] => do
      let a ← kind.operand op a
      (compute a).mapError Fault.failed
  | .binary kind compute, [a, b] => do
      let a ← kind.operand op a
      let b ← kind.operand op b
      (compute a b).mapError Fault.failed
  | _, _ => .error (.malformed (.operandCount op operands.length))

end LazyGraph.Primitive
