import LazyGraph.Proofs.Sharing.Suspension

/-! Evaluation with sharing, move for move beside evaluation without.

To evaluate an expression, or to resume a frame that is no marker, both make one move:
they go on with the same task, and the same hole is opened for it. Where one cannot move
the other cannot, limits apart. -/

set_option autoImplicit false

namespace LazyGraph

open Unshared

variable {graph : Heap} {known : Handle → Prop} {reading reading' : Reading} {heap : Heap} {env : Env}
  {scope : List Closure} {expr : Expr} {shape : Shape}

inductive Shows (known : Handle → Prop) (reading : Reading) (heap : Heap) : Control → Task → Prop where
  | eval {expr : Expr} {env : Env} {scope : List Closure} (reads : reading.Reads env scope) (code : expr.StaysIn known) :
      Shows known reading heap (.eval expr env) (.eval expr scope)
  | force {handle : Handle} {closure : Closure} (read : reading handle = some closure) :
      Shows known reading heap (.force handle) (.force closure)
  | deliver {whnf : Whnf} {shape : Shape} (denotes : Denotes known reading whnf.node shape)
      (stored : ∀ handle, whnf.handle? = some handle → heap.Keeps handle whnf.node) :
      Shows known reading heap (.deliver whnf) (.deliver shape)

inductive Matches (known : Handle → Prop) (reading : Reading) : Frame → Hole → Prop where
  | apply {args : List Handle} {closures : List Closure} (reads : reading.Reads args closures) :
      Matches known reading (.apply args) (.apply closures)
  | call {op : Primitive} {done : List Node} {pending : List Expr} {env : Env} {scope : List Closure}
      (reads : reading.Reads env scope) (code : ∀ expr ∈ pending, expr.StaysIn known) :
      Matches known reading (.call (.primitive op) ⟨done, pending, env⟩) (.call op (done.map Node.bare) pending scope)
  | choose {alternatives : List (Alternative Expr)} {otherwise : Option Expr} {env : Env} {scope : List Closure}
      (reads : reading.Reads env scope) (code : ∀ alternative ∈ alternatives, alternative.body.StaysIn known)
      (default : ∀ body, otherwise = some body → body.StaysIn known) :
      Matches known reading (.choose alternatives otherwise env) (.choose alternatives otherwise scope)
  | seq {next : Expr} {env : Env} {scope : List Closure} (reads : reading.Reads env scope) (code : next.StaysIn known) :
      Matches known reading (.seq next env) (.seq next scope)

theorem Matches.mono {frame : Frame} {hole : Hole} (fits : Matches known reading frame hole)
    (wider : reading.Extends reading') : Matches known reading' frame hole := by
  cases fits with
  | apply reads => exact .apply (reads.mono wider)
  | call reads code => exact .call (reads.mono wider) code
  | choose reads code default => exact .choose (reads.mono wider) code default
  | seq reads code => exact .seq (reads.mono wider) code

theorem Shows.fresh {node : Node} (denotes : Denotes known reading node shape) :
    Shows known reading heap (.deliver (.fresh node)) (.deliver shape) :=
  .deliver denotes nofun

namespace Machine

variable {σ α β : Type} {host : Host σ} {evaluator : Evaluator} {state : State σ}

/-- The machine goes on with the task, and what is to be done after it is on the stack. -/
def Going (known : Handle → Prop) (stack : Stack Frame) (reading : Reading) (after : State σ) (control : Control)
    (move : Move) : Prop :=
  Shows known reading after.world.heap control move.1 ∧
    ∃ frames, after.stack.items = frames ++ stack.items ∧ List.Forall₂ (Matches known reading) frames move.2.toList

section

variable {control : Control} {task : Task}

theorem going_on (faithful : Faithful graph known reading state.world.heap)
    (shows : Shows known reading state.world.heap control task) :
    Tracks graph known reading state.world.heap (Going known state.stack) (.ok control state) (some (task, none)) :=
  ⟨_, rfl, reading, .refl faithful, shows, [], rfl, .nil⟩

theorem push_tracks {frame : Frame} {hole : Hole} (faithful : Faithful graph known reading state.world.heap)
    (fits : Matches known reading frame hole) (shows : Shows known reading state.world.heap control task) :
    Tracks graph known reading state.world.heap (Going known state.stack)
      ((push evaluator frame >>= fun _ => pure control) state) (some (task, some hole)) := by
  by_cases room : state.stack.depth < evaluator.settings.maxWorkStack.toNat
  · rw [bind_ok (push_ok room)]
    exact ⟨_, rfl, reading, .refl faithful, shows, [frame], rfl, .cons fits .nil⟩
  · rw [bind_error (push_error (Nat.le_of_not_lt room))]
    exact .inl ⟨_, rfl⟩

end

theorem Tracks.leads {related : Reading → α → β → Prop} {first : MachineM σ α} {expected : Option β}
    {control : α → Control} {task : β → Task}
    (early : (first state).state.world.heap.Addressable →
      Tracks graph known reading state.world.heap (Still state.stack related) (first state) expected)
    (shows : ∀ {reading' value result heap}, related reading' value result →
      Shows known reading' heap (control value) (task result))
    (fits : ((first >>= fun value => pure (control value)) state).state.world.heap.Addressable) :
    Tracks graph known reading state.world.heap (Going known state.stack)
      ((first >>= fun value => pure (control value)) state) (expected.map fun result => (task result, none)) := by
  rw [Option.map_eq_bind]
  refine Tracks.bind early (fun _ => Moves.pure _) ?_ fits
  rintro reading' value result middle grown ⟨stack, both⟩ _
  rw [← stack]
  exact going_on grown.faithful (shows both)

theorem nextOperand_tracks {op : Primitive} {done : List Node} {pending : List Expr}
    (faithful : Faithful graph known reading state.world.heap) (reads : reading.Reads env scope)
    (code : ∀ expr ∈ pending, expr.StaysIn known) :
    Tracks graph known reading state.world.heap (Going known state.stack)
      (nextOperand host evaluator (.primitive op) ⟨done, pending, env⟩ state)
      (operand? op (done.map Node.bare) pending scope) := by
  cases pending with
  | cons expr pending =>
    obtain ⟨here, rest⟩ := List.forall_mem_cons.mp code
    exact push_tracks faithful (.call reads rest) (.eval reads here)
  | nil =>
    simp only [nextOperand, callStrict_primitive, operand?, Primitive.execute_bare]
    cases executed : op.execute done with
    | error fault => exact .inr rfl
    | ok node =>
      have plain : node.Plain := Primitive.execute_plain executed
      have answered : (settle (.ok node) >>= answer) state = .ok (.deliver (.fresh node)) state := by
        show answer node state = _
        rw [answer, if_pos plain.whnf]
        rfl
      rw [answered]
      exact going_on faithful (.fresh (.of_plain plain))

theorem eval_tracks (faithful : Faithful graph known reading state.world.heap) (reads : reading.Reads env scope)
    (code : expr.StaysIn known) (fits : (eval host evaluator expr env state).state.world.heap.Addressable) :
    Tracks graph known reading state.world.heap (Going known state.stack) (eval host evaluator expr env state)
      (eval? expr scope) := by
  obtain ⟨label, form⟩ := expr
  unfold eval at fits ⊢
  unfold eval?
  cases form with
  | var slot => 
    exact Tracks.leads (fun _ => .settle faithful (still_agrees (lookup_agrees reads slot) state)) .force fits
  | global node => exact going_on faithful (.force (faithful.known (code.names node .global)))
  | char value | int value | double value | text value => exact going_on faithful (.fresh (.of_plain ⟨rfl, rfl, rfl⟩))
  | data ordinal name args =>
    refine Tracks.leads (suspendAll_tracks faithful reads fun arg member => code.child member) ?_ fits
    exact fun parts => .fresh ⟨rfl, rfl, parts, nofun⟩
  | lambda lambda captures =>
    have closed := close_agrees reads (code.child (.head _)) captures
    exact Tracks.leads (fun _ => .settle faithful (still_agrees closed state)) .fresh fits
  | apply fn args =>
    have fn' := code.child (.head _)
    simp only at fits ⊢
    split
    · exact going_on faithful (.eval reads fn')
    · rename_i present
      rw [if_neg present] at fits
      rw [Option.map_eq_bind]
      have args' : ∀ arg ∈ args, arg.StaysIn known := fun arg member => code.child (.tail _ member)
      refine Tracks.bind (suspendAll_tracks faithful reads args') (fun _ => ?_) ?_ fits
      · exact (push_works evaluator rfl).bind fun _ => Moves.pure _
      · rintro reading' handles closures middle grown ⟨stack, suspended⟩ _
        rw [← stack]
        exact push_tracks grown.faithful (.apply suspended) (.eval (reads.mono grown.wider) fn')
  | primitive op args =>
    simp only
    split
    · exact nextOperand_tracks faithful reads fun arg member => code.child member
    · exact .inr rfl
  | host fn args => exact absurd rfl (code.hostFree _ fn args .whole)
  | choose scrutinee alternatives otherwise =>
    refine push_tracks faithful (.choose reads (fun alternative member => code.child ?_) fun body present => code.child ?_)
      (.eval reads (code.child (.head _)))
    · exact .tail _ (List.mem_append_left _ (List.mem_map_of_mem member))
    · exact .tail _ (List.mem_append_right _ (by simp [present]))
  | letrec bindings body =>
    have bindings' : ∀ binding ∈ bindings, binding.StaysIn known := fun binding member =>
      code.child (List.mem_append_left _ member)
    have body' := code.child (List.mem_append_right bindings (.head []))
    exact Tracks.leads (bindAll_tracks faithful reads bindings') (fun inner => .eval inner body') fits
  | seq first second =>
    have second' := code.child (.tail _ (.head _))
    exact push_tracks faithful (.seq reads second') (.eval reads (code.child (.head _)))
  | raise message => exact .inr rfl

/-! ### Resuming frames -/

theorem apply_tracks {callee : Node} {args : List Handle} {closures : List Closure}
    (faithful : Faithful graph known reading state.world.heap) (denotes : Denotes known reading callee shape)
    (reads : reading.Reads args closures) :
    Tracks graph known reading state.world.heap (Going known state.stack) (apply evaluator callee args state)
      (applied? shape closures) := by
  obtain ⟨node, parts⟩ := shape
  obtain ⟨whnf, bare, bound', body⟩ := denotes
  simp only at bare bound'
  subst bare
  cases callee with
  | function code bound =>
    have short : bound.length = parts.length := bound'.length
    unfold apply applied?
    simp only [Node.bare, Lambda.remaining, reads.length, short]
    split
    · exact going_on faithful (.fresh ⟨rfl, rfl, bound'.append reads, body⟩)
    · have empty : (args.drop (code.envSize.toNat - parts.length)).isEmpty =
          (closures.drop (code.envSize.toNat - parts.length)).isEmpty := by
        rw [Bool.eq_iff_iff, List.isEmpty_iff_length_eq_zero, List.isEmpty_iff_length_eq_zero, (reads.drop _).length]
      rw [empty]
      split
      · exact going_on faithful (.eval (bound'.append (reads.take _)) (body _ rfl))
      · exact push_tracks faithful (.apply (reads.drop _)) (.eval (bound'.append (reads.take _)) (body _ rfl))
  | _ => exact .inr rfl

theorem fields_reads {node : Node} (denotes : Denotes known reading node shape) :
    reading.Reads (scrutineeFields node) shape.fields := by
  obtain ⟨node', parts⟩ := shape
  obtain ⟨whnf, bare, reads, _⟩ := denotes
  simp only at bare reads
  subst bare
  cases node with
  | data ordinal name fields => exact reads
  | _ => exact .nil reading

theorem select_agrees {alternatives : List (Alternative Expr)} {otherwise : Option Expr} {scrutinee : Node}
    (denotes : Denotes known reading scrutinee shape) (reads : reading.Reads env scope)
    (code : ∀ alternative ∈ alternatives, alternative.body.StaysIn known)
    (default : ∀ body, otherwise = some body → body.StaysIn known) :
    Agrees (Going known state.stack reading state) (select alternatives otherwise env scrutinee)
      (choose? alternatives otherwise scope shape) := by
  have ordinal : shape.node.ordinal = scrutinee.ordinal := by rw [denotes.bare, Node.ordinal_bare]
  have fields := fields_reads denotes
  unfold select choose?
  rw [ordinal]
  cases alternatives with
  | nil =>
    -- without alternatives a default is taken as it is
    cases otherwise with
    | some body => exact ⟨.eval reads (default body rfl), [], rfl, .nil⟩
    | none => exact Agrees.chain fun ordinal => trivial
  | cons first rest =>
    refine Agrees.chain fun ordinal => ?_
    cases found : (first :: rest).find? (·.ordinal == ordinal) with
    | some alternative =>
      simp only [fields.length]
      split
      · exact ⟨.eval (reads.append fields) (code alternative (List.mem_of_find?_eq_some found)), [], rfl, .nil⟩
      · trivial
    | none =>
      cases otherwise with
      | some body => exact ⟨.eval reads (default body rfl), [], rfl, .nil⟩
      | none => trivial

theorem resume_tracks {frame : Frame} {hole : Hole} {whnf : Whnf} (faithful : Faithful graph known reading state.world.heap)
    (fits : Matches known reading frame hole) (denotes : Denotes known reading whnf.node shape) :
    Tracks graph known reading state.world.heap (Going known state.stack) (resume host evaluator frame whnf state)
      (resume? hole shape) := by
  cases fits with
  | apply reads => exact apply_tracks faithful denotes reads
  | @call op done pending env scope reads code =>
    have operands : (done ++ [whnf.node]).map Node.bare = done.map Node.bare ++ [shape.node] := by
      simp [denotes.bare]
    simp only [resume, resume?, ← operands]
    exact nextOperand_tracks faithful reads code
  | choose reads code default => exact .settle faithful (select_agrees denotes reads code default)
  | seq reads code => exact going_on faithful (.eval reads code)

end Machine

end LazyGraph
