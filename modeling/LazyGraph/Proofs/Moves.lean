/-! Computations that take the state along a relation, whatever they answer.

A computation may stop with a fault at any point and leaves the state reached so far,
so a relation that is reflexive and transitive is kept by a sequence as soon as it is
kept by every part. -/

set_option autoImplicit false

namespace EStateM.Result

def state {ε σ α : Type} : EStateM.Result ε σ α → σ
  | .ok _ state => state
  | .error _ state => state

end EStateM.Result

namespace LazyGraph

variable {ε σ α β : Type}

def Moves (along : σ → σ → Prop) (computation : EStateM ε σ α) : Prop :=
  ∀ state, along state (computation state).state

/-! A sequence ends where its first failing part ends, or where its last part does. -/

theorem bind_ok {first : EStateM ε σ α} {next : α → EStateM ε σ β} {state state' : σ} {value : α}
    (ended : first state = .ok value state') : (first >>= next) state = next value state' := by
  simp only [bind, EStateM.bind, ended]

theorem bind_error {first : EStateM ε σ α} {next : α → EStateM ε σ β} {state state' : σ} {fault : ε}
    (ended : first state = .error fault state') : (first >>= next) state = .error fault state' := by
  simp only [bind, EStateM.bind, ended]

namespace Moves

variable {along : σ → σ → Prop}

theorem bind [Trans along along along] {first : EStateM ε σ α} {next : α → EStateM ε σ β}
    (firstMoves : Moves along first) (nextMoves : ∀ value, Moves along (next value)) :
    Moves along (first >>= next) := by
  intro state
  have early := firstMoves state
  cases ended : first state with
  | ok value middle =>
    rw [bind_ok ended]
    rw [ended] at early
    exact Trans.trans early (nextMoves value middle)
  | error fault middle =>
    rw [bind_error ended]
    rw [ended] at early
    exact early

theorem pure [Std.Refl along] (value : α) : Moves along (Pure.pure value : EStateM ε σ α) :=
  fun state => Std.Refl.refl state

theorem throw [Std.Refl along] (fault : ε) : Moves along (MonadExcept.throw fault : EStateM ε σ α) :=
  fun state => Std.Refl.refl state

theorem mapM [Std.Refl along] [Trans along along along] {f : α → EStateM ε σ β} (items : List α)
    (each : ∀ item ∈ items, Moves along (f item)) : Moves along (items.mapM f) := by
  induction items with
  | nil => exact Moves.pure []
  | cons head tail ih =>
    rw [List.mapM_cons]
    have rest := ih fun item member => each item (.tail _ member)
    exact (each head (.head _)).bind fun _ => rest.bind fun _ => Moves.pure _

theorem forM [Std.Refl along] [Trans along along along] {f : α → EStateM ε σ PUnit} (items : List α)
    (each : ∀ item ∈ items, Moves along (f item)) : Moves along (items.forM f) := by
  induction items with
  | nil => exact Moves.pure PUnit.unit
  | cons head tail ih =>
    have rest := ih fun item member => each item (.tail _ member)
    exact (each head (.head _)).bind fun _ => rest

end Moves

end LazyGraph
