import LazyGraph.Machine.Run

/-! The loop of an evaluator, one transition after the other.

`iterations` counts the transitions that did not end the loop, so that what holds after
every one of them can be shown by induction; `run` ends with what the last of them led
to. -/

set_option autoImplicit false

namespace LazyGraph

-- How a transition ends the loop, if it does.
def Progress.outcome? {σ : Type} :
    EStateM.Result Fault σ Progress → Option (EStateM.Result Fault σ Handle)
  | .ok (.continues _) _ => none
  | .ok (.finished result) state => some (.ok result state)
  | .error fault state => some (.error fault state)

theorem Progress.outcome?_eq_ok {σ : Type} {ended : EStateM.Result Fault σ Progress} {result : Handle} {state : σ}
    (outcome : outcome? ended = some (.ok result state)) : ended = .ok (.finished result) state := by
  unfold outcome? at outcome
  split at outcome
  · cases outcome
  · cases outcome
    rfl
  · cases outcome

theorem Progress.outcome?_eq_error {σ : Type} {ended : EStateM.Result Fault σ Progress} {fault : Fault} {state : σ}
    (outcome : outcome? ended = some (.error fault state)) : ended = .error fault state := by
  unfold outcome? at outcome
  split at outcome
  · cases outcome
  · cases outcome
  · cases outcome
    rfl

namespace Machine

variable {σ : Type} {host : Host σ} {evaluator : Evaluator}

/-- Where the loop stands after `count` transitions; none when it has ended before. -/
def iterations (host : Host σ) (evaluator : Evaluator) (control : Control) (state : State σ) :
    (count : Nat) → Option (Control × State σ)
  | 0 => some (control, state)
  | count + 1 =>
    match iterations host evaluator control state count with
    | some (control, state) =>
      match iterate host evaluator control state with
      | .ok (.continues next) after => some (next, after)
      | _ => none
    | none => none

theorem iterations_succ {control next : Control} {state after : State σ} {count : Nat}
    (reached : iterations host evaluator control state (count + 1) = some (next, after)) :
    ∃ control' before, iterations host evaluator control state count = some (control', before) ∧
      iterate host evaluator control' before = .ok (.continues next) after := by
  rw [iterations] at reached
  split at reached
  · rename_i control' before earlier
    refine ⟨control', before, earlier, ?_⟩
    split at reached
    · rename_i stepped
      cases reached
      exact stepped
    · cases reached
  · cases reached

theorem iterations_shift {control next : Control} {state after : State σ}
    (stepped : iterate host evaluator control state = .ok (.continues next) after) (count : Nat) :
    iterations host evaluator control state (count + 1) = iterations host evaluator next after count := by
  induction count with
  | zero => simp only [iterations, stepped]
  | succ count ih => rw [iterations, ih, iterations]

/-- Every number of transitions before one that was made was made too. -/
theorem iterations_before {control next : Control} {state after : State σ} {count earlier : Nat}
    (reached : iterations host evaluator control state count = some (next, after))
    (before : earlier ≤ count) :
    ∃ control' state', iterations host evaluator control state earlier = some (control', state') := by
  induction before generalizing next after with
  | refl => exact ⟨next, after, reached⟩
  | step _ ih =>
    obtain ⟨_, _, previous, _⟩ := iterations_succ reached
    exact ih previous

theorem iterations_first {control next : Control} {state after : State σ} {count : Nat}
    (reached : iterations host evaluator control state (count + 1) = some (next, after)) :
    ∃ next' after', iterate host evaluator control state = .ok (.continues next') after' := by
  obtain ⟨next', after', first⟩ := iterations_before reached (Nat.succ_le_succ (Nat.zero_le count))
  obtain ⟨_, _, standing, stepped⟩ := iterations_succ first
  cases standing
  exact ⟨next', after', stepped⟩

/-! ### Runs -/

theorem run_of_iterations {control next : Control} {state reached : State σ} {count : Nat}
    {result : EStateM.Result Fault (State σ) Handle}
    (standing : iterations host evaluator control state count = some (next, reached))
    (ends : Progress.outcome? (iterate host evaluator next reached) = some result) :
    run host evaluator (count + 1) control state = some result := by
  induction count generalizing control state with
  | zero =>
    cases standing
    rw [run]
    split <;> simp_all [Progress.outcome?]
  | succ count ih =>
    obtain ⟨next', after', stepped⟩ := iterations_first standing
    rw [iterations_shift stepped] at standing
    rw [run, stepped]
    exact ih standing

theorem iterations_of_run {control : Control} {state : State σ} {fuel : Nat}
    {result : EStateM.Result Fault (State σ) Handle}
    (ended : run host evaluator fuel control state = some result) :
    ∃ count next reached, iterations host evaluator control state count = some (next, reached) ∧
      Progress.outcome? (iterate host evaluator next reached) = some result := by
  induction fuel generalizing control state with
  | zero => cases ended
  | succ fuel ih =>
    rw [run] at ended
    split at ended
    · rename_i next after stepped
      obtain ⟨count, last, reached, standing, ends⟩ := ih ended
      exact ⟨count + 1, last, reached, (iterations_shift stepped count).trans standing, ends⟩
    · rename_i stepped
      exact ⟨0, control, state, rfl, by rw [stepped]; exact ended⟩
    · rename_i stepped
      exact ⟨0, control, state, rfl, by rw [stepped]; exact ended⟩

theorem run_more {control : Control} {state : State σ} {fuel : Nat}
    {result : EStateM.Result Fault (State σ) Handle}
    (ended : run host evaluator fuel control state = some result) (more : Nat) :
    run host evaluator (fuel + more) control state = some result := by
  induction fuel generalizing control state with
  | zero => cases ended
  | succ fuel ih =>
    rw [Nat.succ_add, run]
    rw [run] at ended
    split at ended
    · exact ih ended
    · exact ended
    · exact ended

theorem iterations_end {control left right : Control} {state leftState rightState : State σ} {count count' : Nat}
    {result result' : EStateM.Result Fault (State σ) Handle}
    (leftStanding : iterations host evaluator control state count = some (left, leftState))
    (leftEnds : Progress.outcome? (iterate host evaluator left leftState) = some result)
    (rightStanding : iterations host evaluator control state count' = some (right, rightState))
    (rightEnds : Progress.outcome? (iterate host evaluator right rightState) = some result') :
    left = right ∧ leftState = rightState := by
  have stopped : ∀ {count : Nat} {last : Control} {lastState : State σ}
      {result : EStateM.Result Fault (State σ) Handle},
      iterations host evaluator control state count = some (last, lastState) →
      Progress.outcome? (iterate host evaluator last lastState) = some result →
      ∀ later, count < later → iterations host evaluator control state later = none := by
    intro count last lastState result standing ends later after
    cases reached : iterations host evaluator control state later with
    | none => rfl
    | some there =>
      obtain ⟨next, nextState, follows⟩ := iterations_before reached after
      obtain ⟨_, _, standing', stepped⟩ := iterations_succ follows
      cases standing.symm.trans standing'
      rw [stepped] at ends
      cases ends
  rcases Nat.lt_trichotomy count count' with before | same | after
  · rw [stopped leftStanding leftEnds count' before] at rightStanding
    cases rightStanding
  · subst same
    cases leftStanding.symm.trans rightStanding
    exact ⟨rfl, rfl⟩
  · rw [stopped rightStanding rightEnds count after] at leftStanding
    cases leftStanding

/-- However much fuel there is, a run that ends has one result. -/
theorem run_unique {control : Control} {state : State σ} {fuel fuel' : Nat}
    {left right : EStateM.Result Fault (State σ) Handle}
    (leftEnd : run host evaluator fuel control state = some left)
    (rightEnd : run host evaluator fuel' control state = some right) : left = right := by
  have longer := run_more leftEnd fuel'
  rw [Nat.add_comm, run_more rightEnd fuel] at longer
  exact (Option.some.inj longer).symm

/-! ### Calls -/

theorem force_eq_ok {fuel : Nat} {root result : Handle} {state after : State σ} :
    force host evaluator fuel root state = some (.ok result, after) ↔
      run host evaluator fuel (.force root) (begin evaluator state) = some (.ok result after) := by
  unfold force
  constructor
  · intro returned
    split at returned
    · cases returned
    · rename_i ran
      cases returned
      exact ran
    · cases returned
  · intro ran
    rw [ran]

theorem force_eq_error {fuel : Nat} {root : Handle} {fault : Fault} {state after : State σ} :
    force host evaluator fuel root state = some (.error fault, after) ↔
      ∃ raised, run host evaluator fuel (.force root) (begin evaluator state) = some (.error fault raised) ∧
        after = unwind evaluator fault raised := by
  unfold force
  constructor
  · intro failed
    split at failed
    · cases failed
    · cases failed
    · rename_i raised ran
      cases failed
      exact ⟨raised, ran, rfl⟩
  · rintro ⟨raised, ran, rfl⟩
    rw [ran]

/-- A call that ends makes some transitions, and a last one that finishes it or faults. -/
theorem force_ends {fuel : Nat} {root : Handle} {result : Except Fault Handle} {state after : State σ}
    (ended : force host evaluator fuel root state = some (result, after)) :
    ∃ count control reached,
      iterations host evaluator (.force root) (begin evaluator state) count = some (control, reached) ∧
      ((∃ handle, result = .ok handle ∧ iterate host evaluator control reached = .ok (.finished handle) after) ∨
        ∃ fault raised, result = .error fault ∧ iterate host evaluator control reached = .error fault raised ∧
          after = unwind evaluator fault raised) := by
  cases result with
  | ok handle =>
    obtain ⟨count, control, reached, standing, ends⟩ := iterations_of_run (force_eq_ok.mp ended)
    exact ⟨count, control, reached, standing, .inl ⟨handle, rfl, Progress.outcome?_eq_ok ends⟩⟩
  | error fault =>
    obtain ⟨raised, ran, same⟩ := force_eq_error.mp ended
    obtain ⟨count, control, reached, standing, ends⟩ := iterations_of_run ran
    exact ⟨count, control, reached, standing, .inr ⟨fault, raised, rfl, Progress.outcome?_eq_error ends, same⟩⟩

theorem forceEach_cons {settings : EvalSettings} {fuel : Nat} {root : Handle} {roots : List Handle} {world last : World σ}
    {outcomes : List (Except Fault Handle)}
    (inTurn : forceEach host settings fuel (root :: roots) world = some (outcomes, last)) :
    ∃ outcome after others, outcomes = outcome :: others ∧
      force host (start world settings none).1 fuel root (start world settings none).2 = some (outcome, after) ∧
      forceEach host settings fuel roots after.world = some (others, last) := by
  unfold forceEach at inTurn
  obtain ⟨⟨outcome, after⟩, forced, inTurn⟩ := Option.bind_eq_some_iff.mp inTurn
  obtain ⟨⟨others, world'⟩, rest, inTurn⟩ := Option.bind_eq_some_iff.mp inTurn
  cases inTurn
  exact ⟨outcome, after, others, rfl, forced, rest⟩

theorem forceEach_eq_cons {settings : EvalSettings} {fuel : Nat} {root : Handle} {roots : List Handle} {world last : World σ}
    {outcome : Except Fault Handle} {after : State σ} {others : List (Except Fault Handle)}
    (forced : force host (start world settings none).1 fuel root (start world settings none).2 = some (outcome, after))
    (rest : forceEach host settings fuel roots after.world = some (others, last)) :
    forceEach host settings fuel (root :: roots) world = some (outcome :: others, last) :=
  Option.bind_eq_some_iff.mpr ⟨_, forced, Option.bind_eq_some_iff.mpr ⟨_, rest, rfl⟩⟩

end Machine

end LazyGraph
