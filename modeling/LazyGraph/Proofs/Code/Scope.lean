import LazyGraph.Machine.Reduce

/-! Code that keeps to its environment.

An expression is scoped for an environment of some size when every slot it names is
below that size, every count it lists is the one that is asked for, and every handle in
it is live. What is live is left open: a group of nodes that is being built counts its
own handles as live before any of them can be read. -/

set_option autoImplicit false

namespace LazyGraph

variable {live wider : Handle → Prop}

/-- Every part of the expression finds what it names in an environment of this size.
Sizes are 64-bit words, and so are the lengths of lists of bindings. -/
inductive Expr.Scoped (live : Handle → Prop) : (size : Nat) → Expr → Prop where
  | var {size label : Nat} {slot : UInt64} (bound : slot.toNat < size) : Scoped live size ⟨label, .var slot⟩
  | global {size label : Nat} {node : Handle} (named : live node) : Scoped live size ⟨label, .global node⟩
  | char {size label : Nat} (value : Char) : Scoped live size ⟨label, .char value⟩
  | int {size label : Nat} (value : Int64) : Scoped live size ⟨label, .int value⟩
  | double {size label : Nat} (value : Float) : Scoped live size ⟨label, .double value⟩
  | text {size label : Nat} (value : String) : Scoped live size ⟨label, .text value⟩
  | data {size label : Nat} {args : List Expr} (ordinal : UInt32) (name : String)
      (each : ∀ arg ∈ args, Scoped live size arg) : Scoped live size ⟨label, .data ordinal name args⟩
  | lambda {size label : Nat} {code : Lambda Expr} {captures : List UInt64}
      (counted : captures.length = code.captures.toNat) (bound : ∀ slot ∈ captures, slot.toNat < size)
      (fits : code.captures.toNat + code.params.toNat < UInt64.size)
      (body : Scoped live (code.captures.toNat + code.params.toNat) code.body) :
      Scoped live size ⟨label, .lambda code captures⟩
  | apply {size label : Nat} {fn : Expr} {args : List Expr} (head : Scoped live size fn)
      (each : ∀ arg ∈ args, Scoped live size arg) : Scoped live size ⟨label, .apply fn args⟩
  | primitive {size label : Nat} {op : Primitive} {args : List Expr} (counted : args.length = op.arity)
      (each : ∀ arg ∈ args, Scoped live size arg) : Scoped live size ⟨label, .primitive op args⟩
  | host {size label : Nat} {fn : HostFn} {args : List Expr} (counted : args.length = fn.arity.toNat)
      (each : ∀ arg ∈ args, Scoped live size arg) : Scoped live size ⟨label, .host fn args⟩
  | choose {size label : Nat} {scrutinee : Expr} {alternatives : List (Alternative Expr)} {otherwise : Option Expr}
      (subject : Scoped live size scrutinee)
      (each : ∀ alternative ∈ alternatives, Scoped live (size + alternative.binds.toNat) alternative.body)
      (default : ∀ body ∈ otherwise, Scoped live size body) :
      Scoped live size ⟨label, .choose scrutinee alternatives otherwise⟩
  | letrec {size label : Nat} {bindings : List Expr} {body : Expr} (fits : bindings.length < UInt64.size)
      (each : ∀ binding ∈ bindings, Scoped live (size + bindings.length) binding)
      (inner : Scoped live (size + bindings.length) body) : Scoped live size ⟨label, .letrec bindings body⟩
  | seq {size label : Nat} {first second : Expr} (head : Scoped live size first)
      (next : Scoped live size second) : Scoped live size ⟨label, .seq first second⟩
  | raise {size label : Nat} (message : String) : Scoped live size ⟨label, .raise message⟩

/-- The body finds what it names in the captured handles and the arguments. -/
structure Lambda.Scoped (live : Handle → Prop) (code : Lambda Expr) : Prop where
  fits : code.captures.toNat + code.params.toNat < UInt64.size
  body : code.body.Scoped live (code.captures.toNat + code.params.toNat)

/-- The code of the node, if it has any, is scoped for the environment it will run in. -/
def Node.CodeScoped (live : Handle → Prop) : Node → Prop
  | .thunk expr env => expr.Scoped live env.length
  | .function code _ => code.Scoped live
  | .char _ | .int _ | .double _ | .object _ | .data .. | .indirection _ => True

structure Node.WellFormed (live : Handle → Prop) (node : Node) : Prop where
  references : ∀ handle ∈ node.references, live handle
  code : node.CodeScoped live

/-! ### More slots and more live handles -/

theorem Expr.Scoped.mono {expr : Expr} {size larger : Nat} (inScope : expr.Scoped live size)
    (widens : ∀ handle, live handle → wider handle) (grows : size ≤ larger) : expr.Scoped wider larger := by
  induction inScope generalizing larger with
  | var bound => exact .var (Nat.lt_of_lt_of_le bound grows)
  | global named => exact .global (widens _ named)
  | char value => exact .char value
  | int value => exact .int value
  | double value => exact .double value
  | text value => exact .text value
  | raise message => exact .raise message
  | data ordinal name _ each => exact .data ordinal name fun arg member => each arg member grows
  | lambda counted bound fits _ body =>
    exact .lambda counted (fun slot member => Nat.lt_of_lt_of_le (bound slot member) grows) fits
      (body (Nat.le_refl _))
  | apply _ _ head each => exact .apply (head grows) fun arg member => each arg member grows
  | primitive counted _ each => exact .primitive counted fun arg member => each arg member grows
  | host counted _ each => exact .host counted fun arg member => each arg member grows
  | choose _ _ _ subject each default =>
    refine .choose (subject grows) (fun alternative member => ?_) fun body member => default body member grows
    exact each alternative member (Nat.add_le_add_right grows _)
  | letrec fits _ _ each inner =>
    have grows' := Nat.add_le_add_right grows
    exact .letrec fits (fun binding member => each binding member (grows' _)) (inner (grows' _))
  | seq _ _ head next => exact .seq (head grows) (next grows)

theorem Lambda.Scoped.mono {code : Lambda Expr} (inScope : code.Scoped live)
    (widens : ∀ handle, live handle → wider handle) : code.Scoped wider :=
  ⟨inScope.fits, inScope.body.mono widens (Nat.le_refl _)⟩

theorem Lambda.Scoped.envSize {code : Lambda Expr} (inScope : code.Scoped live) :
    code.envSize.toNat = code.captures.toNat + code.params.toNat := by
  rw [Lambda.envSize, UInt64.toNat_add]
  exact Nat.mod_eq_of_lt inScope.fits

namespace Node

variable {node : Node}

theorem WellFormed.mono (formed : node.WellFormed live) (widens : ∀ handle, live handle → wider handle) :
    node.WellFormed wider where
  references := fun handle member => widens handle (formed.references handle member)
  code := by
    have inScope := formed.code
    cases node with
    | thunk expr env => exact Expr.Scoped.mono inScope widens (Nat.le_refl _)
    | function code bound => exact Lambda.Scoped.mono inScope widens
    | _ => trivial

theorem WellFormed.data {ordinal : UInt32} {name : String} {fields : List Handle}
    (each : ∀ field ∈ fields, live field) : (Node.data ordinal name fields).WellFormed live :=
  ⟨each, trivial⟩

theorem WellFormed.indirection {target : Handle} (isLive : live target) : (indirection target).WellFormed live :=
  ⟨fun _ member => List.mem_singleton.mp member ▸ isLive, trivial⟩

structure Plain (node : Node) : Prop where
  references : node.references = []
  code : node.code? = none
  whnf : node.tag.isWhnf

theorem Plain.bool (value : Bool) : (Node.bool value).Plain := by
  unfold Node.bool
  split <;> exact ⟨rfl, rfl, rfl⟩

theorem Plain.wellFormed (plain : node.Plain) : node.WellFormed live where
  references := by simp [plain.references]
  code := by
    have code := plain.code
    cases node with
    | thunk | function => cases code
    | _ => trivial

end Node

/-! ### Reading an environment -/

theorem ok_of_bind {α β : Type} {first : Except Fault α} {next : α → Except Fault β} {value : β}
    (ended : first >>= next = .ok value) : ∃ between, first = .ok between ∧ next between = .ok value := by
  cases first with
  | ok between => exact ⟨between, rfl, ended⟩
  | error fault => cases ended

theorem ok_of_mapM {α β : Type} {f : α → Except Fault β} {items : List α} {values : List β}
    (ended : items.mapM f = .ok values) {item : α} (member : item ∈ items) : ∃ value, f item = .ok value := by
  induction items generalizing values with
  | nil => cases member
  | cons head tail ih =>
    rw [List.mapM_cons] at ended
    obtain ⟨first, answered, ended⟩ := ok_of_bind ended
    obtain ⟨rest, answered', _⟩ := ok_of_bind ended
    rcases List.mem_cons.mp member with rfl | member
    · exact ⟨first, answered⟩
    · exact ih answered' member

theorem of_mem_mapM {α β : Type} {f : α → Except Fault β} {items : List α} {values : List β}
    (ended : items.mapM f = .ok values) {value : β} (member : value ∈ values) : ∃ item ∈ items, f item = .ok value := by
  induction items generalizing values with
  | nil =>
    cases ended
    cases member
  | cons head tail ih =>
    rw [List.mapM_cons] at ended
    obtain ⟨first, answered, ended⟩ := ok_of_bind ended
    obtain ⟨rest, answered', ended⟩ := ok_of_bind ended
    cases ended
    rcases List.mem_cons.mp member with rfl | member
    · exact ⟨head, .head _, answered⟩
    · obtain ⟨item, listed, answered⟩ := ih answered' member
      exact ⟨item, .tail _ listed, answered⟩

theorem mapM_ok {α β : Type} {holds : β → Prop} {f : α → Except Fault β} (items : List α)
    (each : ∀ item ∈ items, ∃ value, f item = .ok value ∧ holds value) :
    ∃ values, items.mapM f = .ok values ∧ ∀ value ∈ values, holds value := by
  induction items with
  | nil => exact ⟨[], rfl, nofun⟩
  | cons head tail ih =>
    obtain ⟨first, answered, held⟩ := each head (.head _)
    obtain ⟨rest, answered', held'⟩ := ih fun item member => each item (.tail _ member)
    refine ⟨first :: rest, by simp [answered, answered', bind, Except.bind, pure, Except.pure], ?_⟩
    intro value member
    rcases List.mem_cons.mp member with rfl | member
    · exact held
    · exact held' value member

namespace Env

variable {env : Env} {expr : Expr} (isLive : ∀ handle ∈ env, live handle)

include isLive

theorem lookup_scoped {slot : UInt64} (bound : slot.toNat < env.length) :
    ∃ handle, env.lookup slot = .ok handle ∧ live handle := by
  have present : env[slot.toNat]? = some env[slot.toNat] := List.getElem?_eq_getElem bound
  exact ⟨env[slot.toNat], by rw [lookup, present], isLive _ (List.getElem_mem bound)⟩

theorem close_scoped {label : Nat} {code : Lambda Expr} {captures : List UInt64}
    (inScope : Expr.Scoped live env.length ⟨label, .lambda code captures⟩) :
    ∃ node, env.close code captures = .ok node ∧ node.WellFormed live := by
  cases inScope with
  | lambda counted bound fits body =>
    obtain ⟨handles, captured, each⟩ := mapM_ok captures fun slot member => lookup_scoped isLive (bound slot member)
    refine ⟨.function code handles, ?_, each, fits, body⟩
    rw [close, if_pos counted, captured]
    rfl

theorem suspend_scoped (inScope : expr.Scoped live env.length) :
    (∃ handle, env.suspend expr = .ok (.existing handle) ∧ live handle) ∨
      ∃ node, env.suspend expr = .ok (.new node) ∧ node.WellFormed live := by
  have thunk : (Node.thunk expr env).WellFormed live := ⟨isLive, inScope⟩
  cases inScope with
  | var bound =>
    obtain ⟨handle, found, named⟩ := lookup_scoped isLive bound
    exact .inl ⟨handle, congrArg (Except.map Suspension.existing) found, named⟩
  | global named => exact .inl ⟨_, rfl, named⟩
  | char | int | double | text => exact .inr ⟨_, rfl, nofun, trivial⟩
  | lambda =>
    obtain ⟨node, closed, formed⟩ := close_scoped isLive thunk.code
    exact .inr ⟨node, congrArg (Except.map Suspension.new) closed, formed⟩
  | data | apply | primitive | host | choose | letrec | seq | raise => exact .inr ⟨_, rfl, thunk⟩

theorem binding_scoped (inScope : expr.Scoped live env.length) :
    ∃ node, env.binding expr = .ok node ∧ node.WellFormed live := by
  unfold binding
  rcases suspend_scoped isLive inScope with ⟨handle, suspended, named⟩ | ⟨node, suspended, formed⟩
  · rw [suspended]
    exact ⟨_, rfl, .indirection named⟩
  · rw [suspended]
    exact ⟨_, rfl, formed⟩

end Env

/-! ### Primitive operations -/

namespace Primitive

theorem operand_cases (kind : Kind) (op : Primitive) (node : Node) :
    (∃ value, kind.operand op node = .ok value) ∨
      kind.operand op node = .error (.typeMismatch op.name kind.expected node.tag) := by
  unfold Kind.operand
  split
  · exact .inl ⟨_, rfl⟩
  · exact .inr rfl

-- The operation gives plain nodes.
def Operation.Plain : Operation → Prop
  | .unary _ compute => ∀ a node, compute a = .ok node → node.Plain
  | .binary _ compute => ∀ a b node, compute a b = .ok node → node.Plain

theorem operation_plain (op : Primitive) : op.operation.Plain := by
  cases op with
  | intEq | intLt | intLe | doubleEq | doubleLt | doubleLe | charEq | charLt | textEq =>
    intro a b node computed
    cases computed
    exact .bool _
  | intDiv | intRem =>
    intro a b node computed
    simp only at computed
    split at computed <;> cases computed
    exact ⟨rfl, rfl, rfl⟩
  | intToChar =>
    intro a node computed
    simp only at computed
    split at computed <;> cases computed
    exact ⟨rfl, rfl, rfl⟩
  | intNeg | doubleNeg | charToInt | intToDouble | doubleToInt | textLength =>
    intro a node computed
    cases computed
    exact ⟨rfl, rfl, rfl⟩
  | intAdd | intSub | intMul | doubleAdd | doubleSub | doubleMul | doubleDiv | textAppend =>
    intro a b node computed
    cases computed
    exact ⟨rfl, rfl, rfl⟩

theorem execute_plain {op : Primitive} {operands : List Node} {node : Node} (executed : op.execute operands = .ok node) :
    node.Plain := by
  have plain := operation_plain op
  have computed : ∀ {outcome : Except Failure Node}, (∀ node, outcome = .ok node → node.Plain) →
      outcome.mapError Fault.failed = .ok node → node.Plain := by
    intro outcome all ended
    cases outcome with
    | ok value =>
      cases ended
      exact all _ rfl
    | error failure => cases ended
  unfold execute at executed
  generalize op.operation = operation at plain executed
  split at executed
  · obtain ⟨value, _, ended⟩ := ok_of_bind executed
    exact computed (plain value) ended
  · obtain ⟨left, _, executed⟩ := ok_of_bind executed
    obtain ⟨right, _, ended⟩ := ok_of_bind executed
    exact computed (plain left right) ended
  · cases executed

/-- On as many operands as it takes, an operation gives a plain node or fails for a reason
that is not in the graph. -/
theorem execute_cases {op : Primitive} {operands : List Node} (counted : operands.length = op.arity) :
    (∃ node, op.execute operands = .ok node ∧ node.WellFormed live) ∨
      ∃ fault, op.execute operands = .error fault ∧ ∀ defect, fault ≠ .malformed defect := by
  have plain := operation_plain op
  rw [← arity_operation] at counted
  unfold execute
  generalize op.operation = operation at plain counted
  cases operation with
  | unary kind compute =>
    obtain ⟨a, rfl⟩ := List.length_eq_one_iff.mp counted
    rcases operand_cases kind op a with ⟨value, read⟩ | mismatched
    · simp only [read, bind, Except.bind]
      cases computed : compute value with
      | ok node => exact .inl ⟨node, rfl, (plain value node computed).wellFormed⟩
      | error failure => exact .inr ⟨_, rfl, nofun⟩
    · simp only [mismatched, bind, Except.bind]
      exact .inr ⟨_, rfl, nofun⟩
  | binary kind compute =>
    obtain ⟨a, b, rfl⟩ : ∃ a b, operands = [a, b] := by
      match operands, counted with
      | [a, b], _ => exact ⟨a, b, rfl⟩
    rcases operand_cases kind op a with ⟨left, read⟩ | mismatched
    · rcases operand_cases kind op b with ⟨right, read'⟩ | mismatched
      · simp only [read, read', bind, Except.bind]
        cases computed : compute left right with
        | ok node => exact .inl ⟨node, rfl, (plain left right node computed).wellFormed⟩
        | error failure => exact .inr ⟨_, rfl, nofun⟩
      · simp only [read, mismatched, bind, Except.bind]
        exact .inr ⟨_, rfl, nofun⟩
    · simp only [mismatched, bind, Except.bind]
      exact .inr ⟨_, rfl, nofun⟩

end Primitive

end LazyGraph
