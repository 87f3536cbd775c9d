/-! Stacks that know their depth. -/

set_option autoImplicit false

namespace LazyGraph

structure Stack (α : Type) where
  items : List α
  depth : Nat
  depth_eq : depth = items.length

namespace Stack

variable {α : Type}

def empty : Stack α := ⟨[], 0, rfl⟩

def push (stack : Stack α) (item : α) : Stack α :=
  ⟨item :: stack.items, stack.depth + 1, by simp [stack.depth_eq]⟩

def pushAll (stack : Stack α) (items : List α) : Stack α :=
  items.foldl push stack

def pop? (stack : Stack α) : Option (α × Stack α) :=
  match stack with
  | ⟨[], _, _⟩ => none
  | ⟨top :: rest, depth, depth_eq⟩ => some (top, ⟨rest, depth - 1, by simp [depth_eq]⟩)

def top? (stack : Stack α) : Option α := stack.items.head?

def ofList (items : List α) : Stack α :=
  empty.pushAll items

@[ext] theorem ext {left right : Stack α} (same : left.items = right.items) : left = right := by
  obtain ⟨items, depth, depth_eq⟩ := left
  obtain ⟨items', depth', depth_eq'⟩ := right
  cases same
  simp [depth_eq, depth_eq']

@[simp] theorem items_empty : (empty : Stack α).items = [] := rfl

@[simp] theorem items_push (stack : Stack α) (item : α) : (stack.push item).items = item :: stack.items :=
  rfl

@[simp] theorem items_pushAll (stack : Stack α) (items : List α) :
    (stack.pushAll items).items = items.reverse ++ stack.items := by
  induction items generalizing stack with
  | nil => rfl
  | cons head tail ih =>
    show ((stack.push head).pushAll tail).items = _
    rw [ih]
    simp

@[simp] theorem items_ofList (items : List α) : (ofList items).items = items.reverse := by
  simp [ofList]

theorem pop?_eq_some {stack rest : Stack α} {top : α} (popped : stack.pop? = some (top, rest)) :
    stack.items = top :: rest.items := by
  obtain ⟨items, depth, depth_eq⟩ := stack
  cases items with
  | nil => simp [pop?] at popped
  | cons head tail =>
    simp only [pop?, Option.some.injEq, Prod.mk.injEq] at popped
    obtain ⟨rfl, rfl⟩ := popped
    rfl

theorem pop?_eq_none {stack : Stack α} : stack.pop? = none ↔ stack.items = [] := by
  obtain ⟨items, depth, depth_eq⟩ := stack
  cases items <;> simp [pop?]

end Stack

end LazyGraph
