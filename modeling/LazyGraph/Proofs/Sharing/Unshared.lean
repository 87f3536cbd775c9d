import LazyGraph.Machine.Return
import LazyGraph.Proofs.Code.Scope

/-! Evaluation without a heap.

Where the graph has a handle, this machine has what the handle stands for: a node of a
graph that never changes, an expression with its scope, or one of a group of recursive
bindings. Nothing is shared, so an expression is evaluated whenever its value is asked
for. A step depends on the task alone, or on the task and the hole that waits for it, and
never on what waits below. -/

set_option autoImplicit false

namespace LazyGraph

def Node.bare : Node → Node
  | .data ordinal name _ => .data ordinal name []
  | .function code _ => .function code []
  | node => node

@[simp] theorem Node.ordinal_bare (node : Node) : node.bare.ordinal = node.ordinal := by
  cases node <;> rfl

theorem Node.Plain.bare {node : Node} (plain : node.Plain) : node.bare = node := by
  have references := plain.references
  have code := plain.code
  cases node with
  | data ordinal name fields =>
    cases references
    rfl
  | function code' bound => cases code
  | _ => rfl

theorem Primitive.execute_bare (op : Primitive) (operands : List Node) :
    op.execute (operands.map Node.bare) = op.execute operands := by
  have read : ∀ (kind : Kind) (node : Node), kind.operand op node.bare = kind.operand op node := by
    intro kind node
    cases kind <;> cases node <;> rfl
  unfold execute
  generalize op.operation = operation
  cases operation with
  | unary kind compute =>
    match operands with
    | [a] => simp only [List.map_cons, List.map_nil, read]
    | [] => rfl
    | a :: b :: rest => simp
  | binary kind compute =>
    match operands with
    | [a, b] => simp only [List.map_cons, List.map_nil, read]
    | [] | [a] => rfl
    | a :: b :: c :: rest => simp

namespace Unshared

inductive Closure where
  | node (handle : Handle)
  | suspended (expr : Expr) (scope : List Closure)
  | bound (bindings : List Expr) (index : Nat) (scope : List Closure)

/-- A value: a bare node, and what stands in the places of its references. -/
structure Shape where
  node : Node
  parts : List Closure

inductive Task where
  | eval (expr : Expr) (scope : List Closure)
  | force (closure : Closure)
  | deliver (shape : Shape)

inductive Hole where
  | apply (args : List Closure)
  | call (op : Primitive) (done : List Node) (pending : List Expr) (scope : List Closure)
  | choose (alternatives : List (Alternative Expr)) (otherwise : Option Expr) (scope : List Closure)
  | seq (next : Expr) (scope : List Closure)

/-- The next task, and the hole that it is to fill first. -/
abbrev Move := Task × Option Hole

/-! ### Expressions -/

def capture? (scope : List Closure) (code : Lambda Expr) (captures : List UInt64) : Option (List Closure) :=
  if captures.length = code.captures.toNat then captures.mapM fun slot => scope[slot.toNat]? else none

def suspend? (scope : List Closure) (expr : Expr) : Option Closure :=
  match expr.form with
  | .var slot => scope[slot.toNat]?
  | .global node => some (.node node)
  | .lambda code captures => (capture? scope code captures).map fun _ => .suspended expr scope
  | _ => some (.suspended expr scope)

/-- What a group of recursive bindings adds to its scope. -/
def group (bindings : List Expr) (scope : List Closure) : List Closure :=
  (List.range bindings.length).map (.bound bindings · scope)

/-- The scope of the body of recursive bindings. Sizes are 64-bit words. -/
def bind? (scope : List Closure) (bindings : List Expr) : Option (List Closure) :=
  let count := UInt64.ofNat bindings.length
  let inner := if count = 0 then scope else scope ++ group bindings scope
  if count = 0 ∨ bindings.length = count.toNat then (bindings.mapM (suspend? inner)).map fun _ => inner else none

def operand? (op : Primitive) (done : List Node) (pending : List Expr) (scope : List Closure) : Option Move :=
  match pending with
  | expr :: pending => some (.eval expr scope, some (.call op done pending scope))
  | [] => (op.execute done).toOption.map fun node => (.deliver ⟨node, []⟩, none)

def eval? (expr : Expr) (scope : List Closure) : Option Move :=
  match expr.form with
  | .var slot => scope[slot.toNat]?.map fun closure => (.force closure, none)
  | .global node => some (.force (.node node), none)
  | .char value => some (.deliver ⟨.char value, []⟩, none)
  | .int value => some (.deliver ⟨.int value, []⟩, none)
  | .double value => some (.deliver ⟨.double value, []⟩, none)
  | .text value => some (.deliver ⟨.text value, []⟩, none)
  | .data ordinal name args => (args.mapM (suspend? scope)).map fun parts => (.deliver ⟨.data ordinal name [], parts⟩, none)
  | .lambda code captures => (capture? scope code captures).map fun parts => (.deliver ⟨.function code [], parts⟩, none)
  | .apply fn args =>
    if args.isEmpty then some (.eval fn scope, none)
    else (args.mapM (suspend? scope)).map fun closures => (.eval fn scope, some (.apply closures))
  | .primitive op args => if args.length = op.arity then operand? op [] args scope else none
  | .choose scrutinee alternatives otherwise => some (.eval scrutinee scope, some (.choose alternatives otherwise scope))
  | .letrec bindings body => (bind? scope bindings).map fun inner => (.eval body inner, none)
  | .seq first second => some (.eval first scope, some (.seq second scope))
  | .host .. | .raise _ => none

/-! ### Closures and values -/

def enter? (graph : Heap) : Closure → Option Move
  | .node handle =>
    match graph.lookup handle with
    | .error _ => none
    | .ok slot =>
      match slot.node with
      | .indirection target => some (.force (.node target), none)
      | .thunk expr env => some (.eval expr (env.map .node), none)
      | node => some (.deliver ⟨node.bare, node.references.map .node⟩, none)
  | .suspended expr scope => some (.eval expr scope, none)
  | .bound bindings index scope =>
    bindings[index]?.map fun expr => (.eval expr (scope ++ group bindings scope), none)

def applied? (callee : Shape) (args : List Closure) : Option Move :=
  match callee.node with
  | .function code _ =>
    let remaining := code.envSize.toNat - callee.parts.length
    if args.length < remaining then some (.deliver ⟨.function code [], callee.parts ++ args⟩, none)
    else
      let surplus := args.drop remaining
      some (.eval code.body (callee.parts ++ args.take remaining), if surplus.isEmpty then none else some (.apply surplus))
  | _ => none

def Shape.fields (shape : Shape) : List Closure :=
  match shape.node with
  | .data .. => shape.parts
  | _ => []

def choose? (alternatives : List (Alternative Expr)) (otherwise : Option Expr) (scope : List Closure)
    (scrutinee : Shape) : Option Move :=
  match alternatives, otherwise with
  | [], some body => some (.eval body scope, none)
  | _, _ =>
    scrutinee.node.ordinal.toOption.bind fun ordinal =>
      match alternatives.find? (·.ordinal == ordinal), otherwise with
      | some alternative, _ =>
        if alternative.binds.toNat = scrutinee.fields.length then
          some (.eval alternative.body (scope ++ scrutinee.fields), none)
        else none
      | none, some body => some (.eval body scope, none)
      | none, none => none

def resume? (hole : Hole) (shape : Shape) : Option Move :=
  match hole with
  | .apply args => applied? shape args
  | .call op done pending scope => operand? op (done ++ [shape.node]) pending scope
  | .choose alternatives otherwise scope => choose? alternatives otherwise scope shape
  | .seq next scope => some (.eval next scope, none)

/-! ### Steps -/

abbrev Config := Task × List Hole

def Move.onto (move : Move) (rest : List Hole) : Config :=
  (move.1, move.2.toList ++ rest)

def step (graph : Heap) : Config → Option Config
  | (.eval expr scope, rest) => (eval? expr scope).map (Move.onto · rest)
  | (.force closure, rest) => (enter? graph closure).map (Move.onto · rest)
  | (.deliver shape, hole :: rest) => (resume? hole shape).map (Move.onto · rest)
  | (.deliver _, []) => none

-- Exactly so many steps.
inductive Steps (graph : Heap) : Nat → Config → Config → Prop where
  | done {config : Config} : Steps graph 0 config config
  | step {count : Nat} {config next last : Config} (first : step graph config = some next)
      (rest : Steps graph count next last) : Steps graph (count + 1) config last

def Arrives (graph : Heap) (least : Nat) (config last : Config) : Prop :=
  ∃ count, least ≤ count ∧ Steps graph count config last

def Ends (graph : Heap) (config : Config) (shape : Shape) : Prop :=
  ∃ count, Steps graph count config (.deliver shape, [])

variable {graph : Heap} {count count' least least' : Nat} {config next last middle : Config} {shape shape' : Shape}

theorem Steps.trans (early : Steps graph count config middle) (late : Steps graph count' middle last) :
    Steps graph (count + count') config last := by
  induction early with
  | done => simpa using late
  | step first _ ih =>
    rw [Nat.succ_add]
    exact .step first (ih late)

/-- The machine is deterministic: a run to the end passes through whatever else it reaches. -/
theorem Steps.remains (whole : Steps graph count config (.deliver shape, [])) (part : Steps graph count' config middle) :
    count' ≤ count ∧ Steps graph (count - count') middle (.deliver shape, []) := by
  induction part generalizing count with
  | done => exact ⟨Nat.zero_le _, whole⟩
  | step first _ ih =>
    cases whole with
    | done => cases first
    | step first' rest =>
      cases first.symm.trans first'
      obtain ⟨fewer, remains⟩ := ih rest
      exact ⟨Nat.succ_le_succ fewer, by simpa using remains⟩

theorem Steps.unique (whole : Steps graph count config (.deliver shape, []))
    (whole' : Steps graph count' config (.deliver shape', [])) : shape = shape' := by
  obtain ⟨_, rest⟩ := whole.remains whole'
  generalize count - count' = left at rest
  cases rest with
  | done => rfl
  | step first _ => cases first

theorem Arrives.refl (config : Config) : Arrives graph 0 config config :=
  ⟨0, Nat.le_refl _, .done⟩

theorem Arrives.single (first : step graph config = some next) : Arrives graph 1 config next :=
  ⟨1, Nat.le_refl _, .step first .done⟩

theorem Arrives.trans (early : Arrives graph least config middle) (late : Arrives graph least' middle last) :
    Arrives graph (least + least') config last := by
  obtain ⟨count, enough, steps⟩ := early
  obtain ⟨count', enough', steps'⟩ := late
  exact ⟨count + count', Nat.add_le_add enough enough', steps.trans steps'⟩

theorem Arrives.mono (leads : Arrives graph least config last) (fewer : least' ≤ least) : Arrives graph least' config last := by
  obtain ⟨count, enough, steps⟩ := leads
  exact ⟨count, Nat.le_trans fewer enough, steps⟩

theorem Arrives.strict (leads : Arrives graph least config last) (other : config ≠ last) : Arrives graph 1 config last := by
  obtain ⟨count, _, steps⟩ := leads
  cases steps with
  | done => exact absurd rfl other
  | step first rest => exact ⟨_, Nat.succ_le_succ (Nat.zero_le _), .step first rest⟩

theorem Arrives.ends (leads : Arrives graph least config middle) (ends : Ends graph middle shape) :
    Ends graph config shape := by
  obtain ⟨count, _, steps⟩ := leads
  obtain ⟨count', steps'⟩ := ends
  exact ⟨count + count', steps.trans steps'⟩

/-- What is reached on the way to the end ends there too, after fewer steps. -/
theorem Arrives.remains (leads : Arrives graph least config middle) (whole : Steps graph count config (.deliver shape, [])) :
    ∃ left, left + least ≤ count ∧ Steps graph left middle (.deliver shape, []) := by
  obtain ⟨taken, enough, steps⟩ := leads
  obtain ⟨fewer, remains⟩ := whole.remains steps
  exact ⟨count - taken, by omega, remains⟩

theorem Arrives.unfinished (leads : Arrives graph least config middle) (unfinished : ¬ ∃ shape, Ends graph middle shape) :
    ¬ ∃ shape, Ends graph config shape := by
  rintro ⟨shape, count, whole⟩
  obtain ⟨left, _, remains⟩ := leads.remains whole
  exact unfinished ⟨shape, left, remains⟩

theorem unfinished_of_stuck (stuck : step graph config = none) (other : ∀ shape, config ≠ (.deliver shape, [])) :
    ¬ ∃ shape, Ends graph config shape := by
  rintro ⟨shape, count, whole⟩
  cases whole with
  | done => exact other shape rfl
  | step first _ => cases stuck.symm.trans first

/-! ### Steps under any holes -/

/-- Whatever waits below, the task under these holes leads to that one under those. -/
def Turns (graph : Heap) (least : Nat) (task : Task) (above : List Hole) (task' : Task) (above' : List Hole) : Prop :=
  ∀ rest, Arrives graph least (task, above ++ rest) (task', above' ++ rest)

def Becomes (graph : Heap) (closure : Closure) (task : Task) : Prop :=
  Turns graph 1 (.force closure) [] task []

variable {task task' task'' : Task} {above above' above'' : List Hole} {closure other : Closure}

theorem Turns.refl (task : Task) (above : List Hole) : Turns graph 0 task above task above :=
  fun _ => .refl _

theorem Turns.trans (early : Turns graph least task above task' above')
    (late : Turns graph least' task' above' task'' above'') : Turns graph (least + least') task above task'' above'' :=
  fun rest => (early rest).trans (late rest)

theorem Turns.mono (turns : Turns graph least task above task' above') (fewer : least' ≤ least) :
    Turns graph least' task above task' above' :=
  fun rest => (turns rest).mono fewer

theorem turns_eval {expr : Expr} {scope : List Closure} {move : Move} (moves : eval? expr scope = some move) :
    Turns graph 1 (.eval expr scope) [] move.1 move.2.toList :=
  fun rest => .single (by simp [step, moves, Move.onto])

theorem turns_force {move : Move} (moves : enter? graph closure = some move) :
    Turns graph 1 (.force closure) [] move.1 move.2.toList :=
  fun rest => .single (by simp [step, moves, Move.onto])

theorem turns_deliver {hole : Hole} {move : Move} (moves : resume? hole shape = some move) :
    Turns graph 1 (.deliver shape) [hole] move.1 move.2.toList :=
  fun rest => .single (by simp [step, moves, Move.onto])

theorem becomes_of_enter (entered : enter? graph closure = some (task, none)) : Becomes graph closure task :=
  turns_force entered

theorem Becomes.trans (becomes : Becomes graph closure task) (turns : Turns graph least task [] task' []) :
    Becomes graph closure task' :=
  (Turns.trans becomes turns).mono (Nat.le_add_right _ _)

theorem Becomes.turns (becomes : Becomes graph closure task) : Turns graph 0 (.force closure) [] task [] :=
  Turns.mono becomes (Nat.zero_le _)

theorem Becomes.entered (becomes : Becomes graph closure task) : ∃ move, enter? graph closure = some move := by
  obtain ⟨count, enough, steps⟩ := becomes []
  cases steps with
  | done => cases enough
  | step first _ =>
    obtain ⟨move, moves, _⟩ := Option.map_eq_some_iff.mp first
    exact ⟨move, moves⟩

/-- A task that comes back, with more and more waiting for it, never ends. -/
theorem Turns.endless (turns : Turns graph 1 task [] task above) (rest : List Hole) :
    ¬ ∃ shape, Ends graph (task, rest) shape := by
  rintro ⟨shape, count, whole⟩
  induction count using Nat.strongRecOn generalizing rest with
  | ind count ih =>
    obtain ⟨left, fewer, remains⟩ := (turns rest).remains whole
    exact ih left (by omega) (above ++ rest) remains

end Unshared

end LazyGraph
