import Mathlib.Logic.Relation

/-!
# Schedules

A schedule lists the moves of a system.  Its moves are made one after the other, and a move that is
not possible is passed over, so that the state at the end can be computed.
-/

namespace Schedule

variable {σ μ : Type} {move : σ → μ → Option σ} {R : σ → σ → Prop}

/-- The state after the moves of a schedule. -/
def play (move : σ → μ → Option σ) (s : σ) (moves : List μ) : σ :=
  moves.foldl (fun t m => (move t m).getD t) s

/-- If the moves are steps, a schedule gives a run. -/
theorem play_reaches (h : ∀ {s m t}, move s m = some t → R s t) (s : σ) (moves : List μ) :
    Relation.ReflTransGen R s (play move s moves) := by
  induction moves generalizing s with
  | nil => exact .refl
  | cons m moves ih =>
    show Relation.ReflTransGen R s (play move ((move s m).getD s) moves)
    cases hm : move s m with
    | none => exact ih s
    | some t => exact .head (h hm) (ih t)

end Schedule
