import LazyGraph.Proofs.Lapses.Promises
import LazyGraph.Proofs.Machine.Answers

/-! What each part of a script relies on and what it leaves.

While an expression is evaluated there is a thunk that waits for its value: under the plain
records on top there is one of an update. A record of indirections is written down only
together with the record of the update above it, so it meets a result that has a slot. A thunk
whose update is written down is the evaluator's own, and is written down once. -/

set_option autoImplicit false

namespace LazyGraph

namespace Primitive

theorem operand_refused {kind : Kind} {op : Primitive} {node : Node} {defect : Defect} :
    kind.operand op node ≠ .error (.malformed defect) := by
  intro refused
  unfold Kind.operand at refused
  split at refused <;> cases refused

theorem mapError_failed {outcome : Except Failure Node} {defect : Defect} :
    outcome.mapError Fault.failed ≠ .error (.malformed defect) := by
  intro refused
  cases outcome <;> cases refused

/-- On as many operands as it takes, an operation does not find the graph malformed. -/
theorem execute_counted {op : Primitive} {operands : List Node} {defect : Defect} (counted : operands.length = op.arity) :
    op.execute operands ≠ .error (.malformed defect) := by
  intro refused
  rw [← arity_operation] at counted
  unfold execute at refused
  generalize op.operation = operation at counted refused
  split at refused
  · rename_i kind compute operand
    cases read : kind.operand op operand with
    | error fault =>
      rw [read] at refused
      cases refused
      exact operand_refused read
    | ok value =>
      rw [read] at refused
      exact mapError_failed refused
  · rename_i kind compute first second
    cases read : kind.operand op first with
    | error fault =>
      rw [read] at refused
      cases refused
      exact operand_refused read
    | ok value =>
      cases read' : kind.operand op second with
      | error fault =>
        rw [read, read'] at refused
        cases refused
        exact operand_refused read'
      | ok value' =>
        rw [read, read'] at refused
        exact mapError_failed refused
  · rename_i notOne notTwo
    match operation, operands, counted with
    | .unary kind compute, [operand], _ => exact notOne kind compute operand rfl rfl
    | .binary kind compute, [first, second], _ => exact notTwo kind compute first second rfl rfl

end Primitive

/-! ### Shapes of the records -/

namespace Record

/-- The record takes a result that may have no slot, and is in order. -/
def Fits : Record → Prop
  | .update _ | .redirect _ => False
  | .primitive op operands => operands.done.length + 1 + operands.pending.length = op.arity
  | .choose case _ => ∃ scrutinee alternatives otherwise, case.form = .choose scrutinee alternatives otherwise
  | .apply _ | .host .. | .seq .. => True

/-- The record of a call with as many operands as the operation takes. -/
def Counted : Record → Prop
  | .primitive op operands => operands.done.length + operands.pending.length = op.arity
  | .host .. => True
  | _ => False

def updated? : Record → Option Handle
  | .update node => some node
  | _ => none

theorem Fits.updated {record : Record} (fits : record.Fits) : record.updated? = none := by
  cases record with
  | update node => exact fits.elim
  | _ => rfl

end Record

namespace Lapses

open Machine Parallel Script Spot

mutual

inductive Grounded : List Record → Prop where
  | plain {record : Record} {records : List Record} (fits : record.Fits) (grounded : Grounded records) :
      Grounded (record :: records)
  | update {records : List Record} (node : Handle) (landing : Landing records) : Grounded (.update node :: records)

inductive Settled : List Record → Prop where
  | empty : Settled []
  | grounded {records : List Record} (grounded : Grounded records) : Settled records

inductive Landing : List Record → Prop where
  | settled {records : List Record} (settled : Settled records) : Landing records
  | chain {records : List Record} (links : List Handle) (settled : Settled records) : Landing (.redirect links :: records)

end

theorem Landing.cases {record : Record} {records : List Record} (landing : Landing (record :: records)) :
    (∃ node, record = .update node ∧ Landing records) ∨ (∃ links, record = .redirect links ∧ Settled records) ∨
      record.Fits ∧ Grounded records := by
  cases landing with
  | chain links settled => exact .inr (.inl ⟨links, rfl, settled⟩)
  | settled settled =>
    cases settled with
    | grounded grounded =>
      cases grounded with
      | plain fits grounded => exact .inr (.inr ⟨fits, grounded⟩)
      | update node landing => exact .inl ⟨node, rfl, landing⟩

theorem Grounded.not_redirect {links : List Handle} {records : List Record} : ¬ Grounded (.redirect links :: records) := by
  intro grounded
  cases grounded with
  | plain fits grounded => exact fits

variable {σ α β : Type} {actor : Actor} {evaluator : Evaluator} {spot after : Spot} {control : Control}
  {shape shape' : List Record → Prop}

def markers (records : List Record) : List Handle :=
  records.filterMap Record.updated?

theorem markers_plain {record : Record} (fits : record.Fits) (records : List Record) :
    markers (record :: records) = markers records :=
  List.filterMap_cons_none fits.updated

/-- The evaluator is between two completions and holds what it will update. -/
structure Ready (actor : Actor) (shape : List Record → Prop) (spot : Spot) : Prop where
  idle : spot.own = .idle
  held : ∀ node ∈ markers spot.records, spot.heap.state node = .ok (.inProgress actor)
  once : (markers spot.records).Nodup
  shape : shape spot.records

namespace Ready

theorem later (ready : Ready actor shape spot) (passed : Later actor spot after) : Ready actor shape after where
  idle := passed.own.trans ready.idle
  held := by
    rw [passed.records]
    exact fun node marked => passed.respects.held (ready.held node marked)
  once := passed.records.symm ▸ ready.once
  shape := passed.records.symm ▸ ready.shape

theorem mono (ready : Ready actor shape spot) (weaker : shape spot.records → shape' spot.records) : Ready actor shape' spot :=
  ⟨ready.idle, ready.held, ready.once, weaker ready.shape⟩

theorem plain {record : Record} {records : List Record} (fits : record.Fits)
    (ready : Ready actor Grounded { spot with records := records }) :
    Ready actor Grounded { spot with records := record :: records } where
  idle := ready.idle
  held := (markers_plain fits records).symm ▸ ready.held
  once := (markers_plain fits records).symm ▸ ready.once
  shape := .plain fits ready.shape

theorem beneath {record : Record} {records : List Record} (fits : record.Fits) (grounded : Grounded records)
    (ready : Ready actor shape { spot with records := record :: records }) :
    Ready actor Grounded { spot with records := records } where
  idle := ready.idle
  held := markers_plain fits records ▸ ready.held
  once := markers_plain fits records ▸ ready.once
  shape := grounded

theorem marked {node : Handle} (ready : Ready actor Landing spot) (held : spot.heap.state node = .ok (.inProgress actor))
    (unmarked : node ∉ markers spot.records) :
    Ready actor Grounded { spot with records := .update node :: spot.records } where
  idle := ready.idle
  held := List.forall_mem_cons.mpr ⟨held, ready.held⟩
  once := List.nodup_cons.mpr ⟨unmarked, ready.once⟩
  shape := .update node ready.shape

end Ready

/-- What is true while the evaluator is about to do this. -/
def Fits (actor : Actor) : Control → Spot → Prop
  | .eval .., spot => Ready actor Grounded spot
  | .force _, spot | .await .., spot => Ready actor Settled spot
  | .deliver ⟨none, node⟩, spot => node.tag.isWhnf ∧ Ready actor Grounded spot
  | .deliver ⟨some handle, node⟩, spot => node.tag.isWhnf ∧ spot.heap.node handle = .ok node ∧ Ready actor Landing spot

/-- Where an expression is evaluated, what refers to no slot can be done next. -/
theorem Ready.fits (ready : Ready actor Grounded spot) (isFresh : control.IsFresh) : Fits actor control spot :=
  match control, isFresh with
  | .eval .., _ => ready
  | .force _, _ => ready.mono .grounded
  | .deliver ⟨none, _⟩, ⟨_, isWhnf⟩ => ⟨isWhnf, ready⟩

namespace Fits

theorem later (fits : Fits actor control spot) (passed : Later actor spot after) : Fits actor control after := by
  match control, fits with
  | .eval .., ready => exact Ready.later ready passed
  | .force _, ready => exact Ready.later ready passed
  | .await .., ready => exact Ready.later ready passed
  | .deliver ⟨none, node⟩, ⟨isWhnf, ready⟩ => exact ⟨isWhnf, ready.later passed⟩
  | .deliver ⟨some handle, node⟩, ⟨isWhnf, found, ready⟩ =>
    exact ⟨isWhnf, passed.respects.value isWhnf found, ready.later passed⟩

theorem isWhnf {whnf : Whnf} (fits : Fits actor (.deliver whnf) spot) : whnf.node.tag.isWhnf :=
  match whnf, fits with
  | ⟨none, _⟩, fits | ⟨some _, _⟩, fits => fits.1

theorem landing {whnf : Whnf} (fits : Fits actor (.deliver whnf) spot) : Ready actor Landing spot :=
  match whnf, fits with
  | ⟨none, _⟩, fits => fits.2.mono fun grounded => .settled (.grounded grounded)
  | ⟨some _, _⟩, fits => fits.2.2

end Fits

/-! ### Single actions -/

variable {gives : α → Spot → Prop}

theorem Meets.settle {outcome : Except Fault β} {next : β → Script σ α}
    (rest : ∀ value later, outcome = .ok value → Later actor spot later → Meets actor gives (next value) later) :
    Meets actor gives (once (settle outcome) >>= next) spot :=
  let look : Heap → Except Fault β := fun _ => outcome
  have reads : Meets actor gives (.act (beside (do Machine.settle (look (← getHeap)))) next) spot :=
    Meets.read fun later passed value found => ⟨later.own, passed.orderly, rest value later found passed⟩
  reads

theorem Meets.settled {outcome : Except Fault α}
    (given : ∀ value later, outcome = .ok value → Later actor spot later → gives value later) :
    Meets actor gives (once (σ := σ) (Machine.settle outcome)) spot :=
  have meets : Meets actor gives (once (Machine.settle outcome) >>= .ended : Script σ α) spot :=
    Meets.settle fun value _ known passed last reaches => given value last known (passed.trans reaches)
  meets

theorem Meets.alloc {node : Node} {next : Handle → Script σ α} (idle : spot.own = .idle) (orderly : spot.Orderly actor)
    (rest : ∀ handle later, Later actor spot later → Meets actor gives (next handle) later) :
    Meets actor gives (once (Machine.onHeap (Heap.alloc node)) >>= next) spot :=
  Meets.quiet (.alloc node) idle orderly fun handle later _ => rest handle later

theorem Meets.thrown {fault : Fault} : Meets actor gives (once (throw fault) : Script σ α) spot :=
  have meets : Meets actor gives (once (throw fault) >>= .ended : Script σ α) spot :=
    Meets.fails fun state => ⟨fault, state, rfl⟩
  meets

theorem Meets.throw {fault : Fault} {next : β → Script σ α} : Meets actor gives (once (throw fault) >>= next) spot :=
  Meets.fails fun state => ⟨fault, state, rfl⟩

theorem Meets.pop {next : Option Record → Script σ α}
    (empty : ∀ later, Later actor spot later → spot.records = [] → Meets actor gives (next none) later)
    (popped : ∀ record records later, Later actor spot later → spot.records = record :: records →
      Meets actor gives (next (some record)) { later with records := records }) :
    Meets actor gives (.act Desk.pop .ended >>= next) spot := by
  intro later passed desk heap records value after ended fits
  have known : desk.records = spot.records := records.trans passed.records
  unfold Desk.pop at ended
  split at ended
  · rename_i record rest top
    cases ended
    have here : later.acted { desk with records := rest } later.own later.mine = { later with records := rest } :=
      acted_eq { later with records := rest } { desk with records := rest } heap rfl _ _
    refine ⟨later.own, later.mine, here ▸ passed.orderly, here ▸ popped record rest later passed (known.symm.trans top)⟩
  · rename_i none
    cases ended
    have here : later.acted desk later.own later.mine = later := acted_eq later desk heap records _ _
    exact ⟨later.own, later.mine, here.symm ▸ passed.orderly, here.symm ▸ empty later passed (known.symm.trans none)⟩

/-- A plain record is written down, and what it waits for is evaluated. -/
theorem Ready.pushes (ready : Ready evaluator.actor Grounded spot) (record : Record) (fits : record.Fits) (expr : Expr)
    (env : Env) :
    Meets evaluator.actor (Fits evaluator.actor) (do push evaluator record; return .eval expr env : Script σ Control) spot :=
  Meets.push fun _ passed _ reaches => ((ready.plain fits).later passed).later reaches

/-! ### Calls -/

theorem call_meets {record : Record} (ready : Ready actor Grounded spot) (counted : record.Counted)
    (whole : ∀ operands, record.operands? = some operands → operands.pending = []) :
    Meets actor (fun _ => Ready actor Grounded) (call (σ := σ) record) spot := by
  cases record with
  | primitive op operands =>
    have done := whole operands rfl
    simp only [Record.Counted, done, List.length_nil, Nat.add_zero] at counted
    simp only [call]
    split
    · rename_i refused
      exact Primitive.execute_counted counted refused
    · exact Meets.settled fun _ last _ reaches => ready.later reaches
  | host fn operands => exact fun node later passed last reaches => (ready.later passed).later reaches
  | _ => exact counted.elim

theorem callStrict_meets {record : Record} (orderly : spot.Orderly actor) (ready : Ready actor Grounded spot)
    (counted : record.Counted) (whole : ∀ operands, record.operands? = some operands → operands.pending = []) :
    Meets actor (Fits actor) (callStrict (σ := σ) record) spot := by
  refine (call_meets ready counted whole).bind orderly fun {result later} orderly ready => ?_
  show Meets actor (Fits actor) (if _ then _ else _) later
  split
  · rename_i isWhnf
    exact fun last reaches => ⟨isWhnf, ready.later reaches⟩
  · exact Meets.alloc ready.idle orderly fun handle after passed last reaches =>
      ((ready.later passed).later reaches).mono .grounded

theorem nextOperand_meets {record : Record} (orderly : spot.Orderly evaluator.actor)
    (ready : Ready evaluator.actor Grounded spot) (counted : record.Counted) :
    Meets evaluator.actor (Fits evaluator.actor) (nextOperand (σ := σ) evaluator record) spot := by
  have step : ∀ operands, record.operands? = some operands →
      (∀ expr pending, operands.pending = expr :: pending → (record.withOperands { operands with pending := pending }).Fits) →
      Meets evaluator.actor (Fits evaluator.actor) (nextOperand (σ := σ) evaluator record) spot := by
    intro operands known fits
    simp only [nextOperand, known]
    split
    · rename_i expr pending more
      exact ready.pushes _ (fits expr pending more) expr operands.env
    · rename_i done
      refine callStrict_meets orderly ready counted fun operands' known' => ?_
      rw [Option.some.inj (known'.symm.trans known), done]
  cases record with
  | primitive op operands =>
    refine step operands rfl fun expr pending more => ?_
    simp only [Record.Counted, more, List.length_cons] at counted
    simp only [Record.withOperands, Record.Fits]
    omega
  | host fn operands => exact step operands rfl fun _ _ _ => trivial
  | _ => exact counted.elim

theorem apply_meets (callee : Node) (args : List Handle) (ready : Ready evaluator.actor Grounded spot) :
    Meets evaluator.actor (Fits evaluator.actor) (apply (σ := σ) evaluator callee args) spot := by
  cases callee with
  | function code bound =>
    simp only [apply]
    split
    · exact fun last reaches => ⟨rfl, ready.later reaches⟩
    · split
      · exact fun last reaches => ready.later reaches
      · exact ready.pushes (.apply _) trivial code.body _
  | _ => exact Meets.thrown

/-! ### Evaluating -/

theorem eval_meets (expr : Expr) (env : Env) (orderly : spot.Orderly evaluator.actor)
    (ready : Ready evaluator.actor Grounded spot) :
    Meets evaluator.actor (Fits evaluator.actor) (eval (σ := σ) evaluator expr env) spot := by
  unfold eval
  cases form : expr.form with
  | var slot => exact Meets.settle fun value later _ passed last reaches => ((ready.later passed).later reaches).mono .grounded
  | global node => exact fun last reaches => (ready.later reaches).mono .grounded
  | char value | int value | double value | text value => exact fun last reaches => ⟨rfl, ready.later reaches⟩
  | data ordinal name args =>
    exact Meets.quiet (.suspendAll env args) ready.idle orderly fun fields later _ passed last reaches =>
      ⟨rfl, (ready.later passed).later reaches⟩
  | lambda code captures =>
    refine Meets.settle fun node later closed passed last reaches => ⟨?_, (ready.later passed).later reaches⟩
    simp [close_tag closed, Tag.isWhnf]
  | apply fn args =>
    simp only
    split
    · exact fun last reaches => ready.later reaches
    · refine Meets.quiet (.suspendAll env args) ready.idle orderly fun handles later _ passed => ?_
      exact (ready.later passed).pushes (.apply handles) trivial fn env
  | primitive op args =>
    simp only
    split
    · rename_i counted
      exact nextOperand_meets orderly ready ((Nat.zero_add _).trans counted)
    · exact Meets.thrown
  | host fn args =>
    simp only
    split
    · exact nextOperand_meets orderly ready trivial
    · exact Meets.thrown
  | choose scrutinee alternatives otherwise =>
    exact ready.pushes (.choose expr env) ⟨scrutinee, alternatives, otherwise, form⟩ scrutinee env
  | letrec bindings body =>
    exact Meets.bindAll ready.idle orderly fun scope later passed last reaches => (ready.later passed).later reaches
  | seq first second =>
    exact ready.pushes (.seq second env) trivial first env
  | raise message => exact Meets.thrown

/-! ### Resuming -/

/-- The node on top is completed, and the others that will be updated stay held. -/
theorem update_meets {node : Handle} {whnf : Whnf}
    (fits : Fits evaluator.actor (.deliver whnf) { spot with records := .update node :: spot.records })
    (landing : Landing spot.records) :
    Meets evaluator.actor (Fits evaluator.actor) (update (σ := σ) evaluator node whnf) spot := by
  have ready := fits.landing
  have once : node ∉ markers spot.records ∧ (markers spot.records).Nodup := List.nodup_cons.mp ready.once
  have held := ready.held node (List.mem_cons_self ..)
  have kept : ∀ {last : Spot}, last.own = .idle → last.records = spot.records →
      (∀ other, other ≠ node → spot.heap.state other = .ok (.inProgress evaluator.actor) →
        last.heap.state other = .ok (.inProgress evaluator.actor)) → Ready evaluator.actor Landing last := by
    intro last idle records others
    refine ⟨idle, ?_, records.symm ▸ once.2, records.symm ▸ landing⟩
    rw [records]
    intro other marked
    exact others other (fun same => once.1 (same ▸ marked)) (ready.held other (List.mem_cons_of_mem _ marked))
  -- where the value then lives, it can be read
  have complete : ∀ (payload : Node) (result : Handle),
      (∀ last : Spot, (∀ handle content, content.tag.isWhnf → spot.heap.node handle = .ok content →
          last.heap.node handle = .ok content) → (payload.tag.isWhnf → last.heap.node node = .ok payload) →
        last.heap.node result = .ok whnf.node) →
      Meets evaluator.actor (Fits evaluator.actor) (do
        if ← ofPlan (complete node evaluator.actor payload) then
          Script.once (record (.updated evaluator.actor node whnf.node))
          return .deliver (.stored result whnf.node)
        else .lapse .notOwner : Script σ Control) spot := by
    intro payload result readable
    refine Meets.complete ready.idle held fun last orderly idle records _ others values written => ?_
    have landed : Fits evaluator.actor (.deliver (.stored result whnf.node)) last :=
      ⟨fits.isWhnf, readable last values written, kept idle records others⟩
    exact Meets.quiet (.record _) idle orderly fun _ after _ passed last reaches =>
      (landed.later passed).later reaches
  unfold update
  rcases updatePayload_cases node whnf with ⟨existing, stored, _, same⟩ | same
  · rw [same]
    refine complete _ _ fun last values _ => values existing whnf.node fits.isWhnf ?_
    obtain ⟨place, content⟩ := whnf
    cases stored
    exact fits.2.1
  · rw [same]
    exact complete _ _ fun last _ written => written fits.isWhnf

theorem select_meets {case : Expr} {env : Env} (scrutinee : Node) (fits : (Record.choose case env).Fits)
    (ready : Ready actor Grounded spot) :
    Meets actor (Fits actor) (select (σ := σ) case env scrutinee) spot := by
  obtain ⟨_, alternatives, otherwise, form⟩ := fits
  simp only [select, form]
  exact Meets.settled fun control last chosen reaches => (ready.later reaches).fits (select_fresh chosen)

theorem resume_meets {record : Record} {whnf : Whnf} (orderly : spot.Orderly evaluator.actor)
    (fits : Fits evaluator.actor (.deliver whnf) { spot with records := record :: spot.records }) :
    Meets evaluator.actor (Fits evaluator.actor) (resume (σ := σ) evaluator record whnf) spot := by
  have ready := fits.landing
  rcases ready.shape.cases with ⟨node, rfl, landing⟩ | ⟨links, rfl, settled⟩ | ⟨plain, grounded⟩
  · exact update_meets fits landing
  · match whnf, fits with
    | ⟨none, node⟩, ⟨_, ready⟩ => exact ready.shape.not_redirect.elim
    | ⟨some target, node⟩, ⟨isWhnf, found, ready⟩ =>
      have landed : Fits evaluator.actor (.deliver ⟨some target, node⟩) spot :=
        ⟨isWhnf, found, ready.idle, ready.held, ready.once, .settled settled⟩
      exact Meets.quiet (.redirectAll links target) ready.idle orderly fun _ later _ passed last reaches =>
        (landed.later passed).later reaches
  · have below : Ready evaluator.actor Grounded spot := ready.beneath plain grounded
    cases record with
    | update node => exact plain.elim
    | redirect links => exact plain.elim
    | apply args => exact apply_meets whnf.node args below
    | primitive op operands =>
      have counted : (Record.primitive op { operands with done := operands.done ++ [whnf.node] }).Counted := by
        simp only [Record.Counted, List.length_append, List.length_singleton]
        exact plain
      exact nextOperand_meets orderly below counted
    | host fn operands =>
      have counted : (Record.host fn { operands with done := operands.done ++ [whnf.node] }).Counted := trivial
      exact nextOperand_meets orderly below counted
    | choose case env => exact select_meets whnf.node plain below
    | seq next env => exact fun last reaches => below.later reaches

/-! ### Demanding -/

/-- A thunk that has just been claimed is written down to be updated. -/
theorem enter_meets {node : Handle} (links : List Handle) (expr : Expr) (env : Env) (ready : Ready actor Settled spot)
    (held : spot.heap.state node = .ok (.inProgress actor)) (unmarked : node ∉ markers spot.records) :
    Meets actor (Fits actor) (enter (σ := σ) evaluator links node expr env) spot := by
  cases links with
  | nil =>
    exact Meets.push fun later passed last reaches =>
      (((ready.mono .settled).marked held unmarked).later passed).later reaches
  | cons link links =>
    refine Meets.push fun later passed => Meets.push fun after pushed last reaches => ?_
    have chained : Ready actor Landing { spot with records := .redirect (link :: links) :: spot.records } :=
      ⟨ready.idle, ready.held, ready.once, .chain _ ready.shape⟩
    have unmarked' : node ∉ markers later.records := passed.records.symm ▸ unmarked
    exact (((chained.later passed).marked (passed.respects.held held) unmarked').later pushed).later reaches

def PaceFits (actor : Actor) : Pace → Spot → Prop
  | .turn control, spot => Fits actor control spot
  | .walk .., spot => Ready actor Settled spot

theorem PaceFits.later {pace : Pace} (fits : PaceFits actor pace spot) (passed : Later actor spot after) :
    PaceFits actor pace after :=
  match pace, fits with
  | .turn _, fits => Fits.later fits passed
  | .walk .., ready => Ready.later ready passed

theorem walk_meets (links : List Handle) (current : Handle) (ready : Ready evaluator.actor Settled spot) :
    Meets evaluator.actor (PaceFits evaluator.actor) (walk (σ := σ) evaluator links current) spot := by
  refine Meets.read fun later passed node found => ⟨later.own, passed.orderly, ?_⟩
  have ready := ready.later passed
  cases node with
  | indirection target =>
    show Meets _ _ (if _ then _ else _) later
    split
    · exact Meets.throw
    · exact fun last reaches => ready.later reaches
  | thunk expr env =>
    refine Meets.onHeap fun last reaches answer heap answered _ => ?_
    have ready := ready.later reaches
    have idle : (last.surroundings.shared evaluator.actor last.own).phase evaluator.actor = .idle :=
      (last.surroundings.phase_shared last.own).trans ready.idle
    have claimed := tryClaim_answer answered
    have orderly : (last.become heap last.own last.mine).Orderly evaluator.actor := reaches.orderly.step (.claim idle claimed)
    refine ⟨last.own, last.mine, orderly, ?_⟩
    rcases Shared.claim_answer claimed with ⟨lost, rfl⟩ | ⟨won, content, rewrites⟩
    · match answer, lost with
      | some (.inProgress owner), _ =>
        show Meets _ _ (if _ then _ else _) last
        split
        · exact Meets.throw
        · refine Meets.quiet (.startWait evaluator links.reverse current) ready.idle orderly fun control after waits passed => ?_
          subst waits
          exact fun last reaches => (ready.later passed).later reaches
      | some .unevaluated, _ | some .evaluated, _ => exact fun after passed => ready.later passed
    · match answer, won with
      | none, _ =>
        have later : Later evaluator.actor last (last.become heap last.own last.mine) :=
          ⟨rfl, rfl, rfl, orderly, .of_rewrites rewrites nofun fun _ => rfl⟩
        have unmarked : current ∉ markers last.records := by
          intro marked
          have held := ready.held current marked
          rw [Heap.state, rewrites.found] at held
          cases held
        have held := (rewrites.state_of current).trans (if_pos rfl)
        show Meets _ _ (enter evaluator links.reverse current expr env >>= fun control => pure (.turn control) : Script σ Pace) _
        exact (enter_meets links.reverse expr env (ready.later later) held unmarked).bind orderly fun _ fits after passed =>
          fits.later passed
  | _ =>
    refine Meets.quiet (.redirectAll links.reverse current) ready.idle passed.orderly fun _ after _ passed last reaches => ?_
    exact ⟨rfl, (passed.trans reaches).respects.value rfl found, ((ready.later passed).later reaches).mono .settled⟩

/-! ### Turns -/

/-- What is true when the evaluator has come to a new pace or to its result. -/
def OutcomeFits (actor : Actor) : Pace ⊕ Handle → Spot → Prop
  | .inl pace, spot => PaceFits actor pace spot
  | .inr _, _ => True

theorem finish_meets {whnf : Whnf} (fits : Fits evaluator.actor (.deliver whnf) spot) :
    Meets evaluator.actor (OutcomeFits evaluator.actor) (finish (σ := σ) evaluator whnf) spot := by
  refine Meets.pop (fun later passed empty => ?_) (fun record records later passed top => ?_)
  · have fits := fits.later passed
    match whnf, fits with
    | ⟨some handle, node⟩, _ => exact fun last reaches => trivial
    | ⟨none, node⟩, ⟨_, ready⟩ =>
      have grounded := ready.shape
      rw [passed.records, empty] at grounded
      cases grounded
  · have fits : Fits evaluator.actor (.deliver whnf) { later with records := record :: records } := by
      have same : { later with records := record :: records } = later := by
        rw [← top, ← passed.records]
      exact same.symm ▸ fits.later passed
    let below : Spot := { later with records := records }
    have orderly : below.Orderly evaluator.actor := passed.orderly
    show Meets _ _ (resume evaluator record whnf >>= fun control => pure (.inl (.turn control)) : Script σ (Pace ⊕ Handle)) below
    exact (resume_meets orderly fits).bind orderly fun _ fits after reaches => fits.later reaches

theorem script_meets {pace : Pace} (orderly : spot.Orderly evaluator.actor) (fits : PaceFits evaluator.actor pace spot) :
    Meets evaluator.actor (OutcomeFits evaluator.actor) (script (σ := σ) evaluator pace) spot := by
  match pace, fits with
  | .walk links current, ready =>
    show Meets _ _ (walk evaluator links current >>= fun pace => pure (.inl pace) : Script σ (Pace ⊕ Handle)) _
    exact (walk_meets links current ready).bind orderly fun _ fits after passed => fits.later passed
  | .turn (.await links node), fits =>
    have ready : Ready evaluator.actor Settled spot := fits
    refine Meets.quiet (.resumeWait evaluator links node) ready.idle orderly fun pace later leads passed => ?_
    rcases leads with rfl | rfl
    · exact fun last reaches => (ready.later passed).later reaches
    · exact fun last reaches => (ready.later passed).later reaches
  | .turn (.eval expr env), fits =>
    have ready : Ready evaluator.actor Grounded spot := fits
    refine Meets.quiet (.begins evaluator (.eval expr env)) ready.idle orderly fun _ later _ passed => ?_
    show Meets _ _ (eval evaluator expr env >>= fun control => pure (.inl (.turn control)) : Script σ (Pace ⊕ Handle)) _
    exact (eval_meets expr env passed.orderly (ready.later passed)).bind passed.orderly fun _ fits after reaches => fits.later reaches
  | .turn (.force handle), fits =>
    have ready : Ready evaluator.actor Settled spot := fits
    exact Meets.quiet (.begins evaluator (.force handle)) ready.idle orderly fun _ later _ passed last reaches =>
      (ready.later passed).later reaches
  | .turn (.deliver whnf), fits =>
    have fits : Fits evaluator.actor (.deliver whnf) spot := fits
    exact Meets.quiet (.begins evaluator (.deliver whnf)) fits.landing.idle orderly fun _ later _ passed =>
      finish_meets (fits.later passed)

end Lapses

end LazyGraph
