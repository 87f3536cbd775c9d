/-! The primitive operations that code can call, with their names and arities.

Numbers are stable: generated code may hold them. -/

set_option autoImplicit false

namespace LazyGraph

inductive Primitive where
  | intAdd | intSub | intMul | intDiv | intRem | intNeg
  | intEq | intLt | intLe
  | doubleAdd | doubleSub | doubleMul | doubleDiv | doubleNeg
  | doubleEq | doubleLt | doubleLe
  | charEq | charLt
  | charToInt | intToChar | intToDouble | doubleToInt
  | textAppend | textLength | textEq
  deriving DecidableEq, Repr

namespace Primitive

/-- Every operation; the place in this list is the operation's number. -/
def all : List Primitive :=
  [.intAdd, .intSub, .intMul, .intDiv, .intRem, .intNeg, .intEq, .intLt, .intLe,
   .doubleAdd, .doubleSub, .doubleMul, .doubleDiv, .doubleNeg, .doubleEq, .doubleLt, .doubleLe,
   .charEq, .charLt, .charToInt, .intToChar, .intToDouble, .doubleToInt,
   .textAppend, .textLength, .textEq]

def count : Nat := all.length

def number (op : Primitive) : Nat :=
  all.idxOf op

def ofNumber? (number : Nat) : Option Primitive :=
  all[number]?

def arity : Primitive → Nat
  | .intNeg | .doubleNeg | .charToInt | .intToChar | .intToDouble | .doubleToInt | .textLength => 1
  | _ => 2

def name : Primitive → String
  | .intAdd => "iadd"
  | .intSub => "isub"
  | .intMul => "imul"
  | .intDiv => "idiv"
  | .intRem => "irem"
  | .intNeg => "ineg"
  | .intEq => "ieq"
  | .intLt => "ilt"
  | .intLe => "ile"
  | .doubleAdd => "dadd"
  | .doubleSub => "dsub"
  | .doubleMul => "dmul"
  | .doubleDiv => "ddiv"
  | .doubleNeg => "dneg"
  | .doubleEq => "deq"
  | .doubleLt => "dlt"
  | .doubleLe => "dle"
  | .charEq => "ceq"
  | .charLt => "clt"
  | .charToInt => "char_to_int"
  | .intToChar => "int_to_char"
  | .intToDouble => "int_to_double"
  | .doubleToInt => "double_to_int"
  | .textAppend => "str_append"
  | .textLength => "str_length"
  | .textEq => "str_eq"

def ofName? (text : String) : Option Primitive :=
  all.find? fun op => op.name == text

theorem ofNumber?_number (op : Primitive) : ofNumber? op.number = some op := by
  cases op <;> decide

theorem ofName?_name (op : Primitive) : ofName? op.name = some op := by
  cases op <;> decide

end Primitive

end LazyGraph
