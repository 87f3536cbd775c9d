/-! Tags: the closed set of kinds a graph node can have.

A tag says whether a node is in weak head normal form, whether it has an ordinal
to select on, and whether an evaluated result of that kind is copied or shared. -/

set_option autoImplicit false

namespace LazyGraph

inductive Tag where
  | char
  | int
  | double
  | object
  | data
  | function
  | indirection
  | thunk
  deriving DecidableEq, Repr

namespace Tag

def all : List Tag :=
  [.char, .int, .double, .object, .data, .function, .indirection, .thunk]

def label : Tag → String
  | .char => "CHAR"
  | .int => "INT"
  | .double => "DOUBLE"
  | .object => "OBJECT"
  | .data => "CONSTRUCTOR"
  | .function => "FUNCTION"
  | .indirection => "INDIRECTION"
  | .thunk => "THUNK"

def ofLabel? (text : String) : Option Tag :=
  all.find? fun tag => tag.label == text

def position : Tag → Fin 8
  | .char => 0
  | .int => 1
  | .double => 2
  | .object => 3
  | .data => 4
  | .function => 5
  | .indirection => 6
  | .thunk => 7

def isWhnf : Tag → Bool
  | .indirection | .thunk => false
  | _ => true

theorem ne_thunk_of_whnf {tag : Tag} (isWhnf : tag.isWhnf) : tag ≠ .thunk := by
  rintro rfl
  cases isWhnf

theorem ne_indirection_of_whnf {tag : Tag} (isWhnf : tag.isWhnf) : tag ≠ .indirection := by
  rintro rfl
  cases isWhnf

def hasOrdinal : Tag → Bool
  | .char | .data => true
  | _ => false

def isNumeric : Tag → Bool
  | .int | .double => true
  | _ => false

/-- Scalars are copied into the slot of the thunk that produced them; other
results are shared through an indirection. -/
def isScalar : Tag → Bool
  | .char | .int | .double | .object => true
  | _ => false

theorem mem_all (tag : Tag) : tag ∈ all := by
  cases tag <;> decide

theorem getElem?_all (tag : Tag) : all[tag.position.val]? = some tag := by
  cases tag <;> rfl

theorem position_injective {left right : Tag} (same : left.position = right.position) : left = right := by
  have leftAt := getElem?_all left
  rw [same, getElem?_all right] at leftAt
  exact (Option.some.inj leftAt).symm

theorem ofLabel?_label (tag : Tag) : ofLabel? tag.label = some tag := by
  cases tag <;> decide

end Tag

end LazyGraph
