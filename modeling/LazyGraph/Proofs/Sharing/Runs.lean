import LazyGraph.Proofs.Sharing.ByName

/-! Whole runs beside evaluation without sharing.

A run that meets no limit returns just when evaluation without sharing ends, and with the
value that it ends with. A transition that only pops a marker does not move the unshared
machine, but there are finitely many markers to pop before it moves again. -/

set_option autoImplicit false

namespace LazyGraph

open Unshared

namespace Machine

variable {σ : Type} {step : Control → MachineM σ Progress} {control : Control} {state after : State σ}

/-! ### Limits -/

inductive Passes (step : Control → MachineM σ Progress) : Control → State σ → Control → State σ → Prop where
  | here {control : Control} {state : State σ} : Passes step control state control state
  | onward {control next last : Control} {state middle after : State σ}
      (stepped : step control state = .ok (.continues next) middle) (rest : Passes step next middle last after) :
      Passes step control state last after

/-- No transition of the run meets a limit: of steps, of the stack, of time, of the heap, or of
what handles can address. -/
def Unlimited (step : Control → MachineM σ Progress) (control : Control) (state : State σ) : Prop :=
  ∀ last reached, Passes step control state last reached →
    (step last reached).state.world.heap.Addressable ∧ ∀ limit after, step last reached ≠ .error (.exhausted limit) after

theorem Unlimited.onward {next : Control} (unlimited : Unlimited step control state)
    (stepped : step control state = .ok (.continues next) after) : Unlimited step next after :=
  fun last reached reaches => unlimited last reached (.onward stepped reaches)

theorem Unlimited.fits (unlimited : Unlimited step control state) : (step control state).state.world.heap.Addressable :=
  (unlimited control state .here).1

/-- The run ends within `fuel` transitions and meets no limit. -/
def withinLimits (step : Control → MachineM σ Progress) : (fuel : Nat) → Control → State σ → Bool
  | 0, _, _ => false
  | fuel + 1, control, state =>
    match step control state with
    | .ok (.continues next) after => decide after.world.heap.Addressable && withinLimits step fuel next after
    | .ok (.finished _) after => decide after.world.heap.Addressable
    | .error (.exhausted _) _ => false
    | .error _ after => decide after.world.heap.Addressable

theorem unlimited_of_within {fuel : Nat} (within : withinLimits step fuel control state) :
    Unlimited step control state := by
  intro last reached reaches
  induction reaches generalizing fuel with
  | @here control state =>
    cases fuel with
    | zero => cases within
    | succ fuel =>
      rw [withinLimits] at within
      split at within
      · rename_i ended
        rw [ended]
        simp only [Bool.and_eq_true, decide_eq_true_eq] at within
        exact ⟨within.1, nofun⟩
      · rename_i ended
        rw [ended]
        exact ⟨of_decide_eq_true within, nofun⟩
      · cases within
      · rename_i other ended
        rw [ended]
        refine ⟨of_decide_eq_true within, ?_⟩
        rintro limit _ ⟨⟩
        exact other limit rfl
  | onward stepped _ ih =>
    cases fuel with
    | zero => cases within
    | succ fuel =>
      rw [withinLimits, stepped] at within
      exact ih (Bool.and_eq_true_iff.mp within).2

/-! ### Runs that return -/

variable {graph : Heap} {known : Handle → Prop} {goes : Control → State σ → Config → Prop} {excused : Prop}
  {config : Config} {handle : Handle} {fuel : Nat}

theorem Returns.before {config' : Config} {least : Nat} {heap : Heap} (returns : Returns graph known config' heap handle)
    (leads : Arrives graph least config config') : Returns graph known config heap handle := by
  obtain ⟨shape, reading, node, ends, rest⟩ := returns
  exact ⟨shape, reading, node, leads.ends ends, rest⟩

theorem Returns.ends {heap : Heap} (returns : Returns graph known config heap handle) :
    ∃ count shape, Steps graph count config (.deliver shape, []) := by
  obtain ⟨shape, _, _, ⟨count, whole⟩, _⟩ := returns
  exact ⟨count, shape, whole⟩

theorem runWith_returns
    (echoes : ∀ {control state config}, goes control state config → (step control state).state.world.heap.Addressable →
      Echoes graph known goes excused config state.stack.items.length (step control state))
    (going : goes control state config) (unlimited : Unlimited step control state)
    (ended : runWith step fuel control state = some (.ok handle after)) :
    Returns graph known config after.world.heap handle := by
  induction fuel generalizing control state config with
  | zero => cases ended
  | succ fuel ih =>
    have echo := echoes going unlimited.fits
    rw [runWith] at ended
    cases stepped : step control state with
    | error fault failed =>
      rw [stepped] at ended
      cases ended
    | ok progress middle =>
      rw [stepped] at ended echo
      cases echo with
      | done returns =>
        cases ended
        exact returns
      | moved going leads => exact (ih going (unlimited.onward stepped) ended).before leads
      | popped going _ => exact ih going (unlimited.onward stepped) ended
      | waits going _ => exact ih going (unlimited.onward stepped) ended

theorem runWith_ends
    (echoes : ∀ {control state config}, goes control state config → (step control state).state.world.heap.Addressable →
      Echoes graph known goes excused config state.stack.items.length (step control state)) (strict : ¬ excused)
    {count : Nat} {shape : Shape} {control : Control} {state : State σ} {config : Config}
    (going : goes control state config) (unlimited : Unlimited step control state)
    (whole : Steps graph count config (.deliver shape, [])) :
    ∃ fuel handle after, runWith step fuel control state = some (.ok handle after) := by
  have echo := echoes going unlimited.fits
  have resumes : ∀ {next middle}, step control state = .ok (.continues next) middle →
      (∃ fuel handle after, runWith step fuel next middle = some (.ok handle after)) →
      ∃ fuel handle after, runWith step fuel control state = some (.ok handle after) := by
    rintro next middle stepped ⟨fuel, handle, after, ended⟩
    exact ⟨fuel + 1, handle, after, by rw [runWith, stepped]; exact ended⟩
  cases stepped : step control state with
  | error fault failed =>
    rw [stepped] at echo
    cases echo with
    | limited => exact absurd stepped ((unlimited control state .here).2 _ _)
    | stuck unfinished => exact absurd ⟨shape, count, whole⟩ unfinished
    | failed excuse => exact absurd excuse strict
  | ok progress middle =>
    rw [stepped] at echo
    cases echo with
    | @done handle _ _ => exact ⟨1, handle, middle, by rw [runWith, stepped]⟩
    | moved going leads =>
      obtain ⟨left, fewer, rest⟩ := leads.remains whole
      exact resumes stepped (runWith_ends echoes strict going (unlimited.onward stepped) rest)
    | popped going shorter => exact resumes stepped (runWith_ends echoes strict going (unlimited.onward stepped) whole)
    | waits _ excuse => exact absurd excuse strict
termination_by (count, state.stack.items.length)
decreasing_by
  · exact Prod.Lex.left _ _ (by omega)
  · exact Prod.Lex.right _ shorter

end Machine

end LazyGraph
