import Xv6Paging.Logic.Wp

/-!
# Programs over a larger state

A program can be written over a larger state that also keeps what the proofs of a smaller program do
not need.  `Lifts f m' m` says that `m'` does to the part `f t` of its state what `m` does to this
part alone, with the same value or the same reason to halt.  Then all that was proved of `m` holds
of `m'`.
-/

namespace StateHalt

variable {ε σ τ α β : Type} {f : τ → σ}

/-- Seen through `f`, the program `m'` is `m`. -/
structure Lifts (f : τ → σ) (m' : EStateM ε τ α) (m : EStateM ε σ α) : Prop where
  run : ∀ t, match m' t with
    | .ok a t' => m (f t) = .ok a (f t')
    | .error e t' => m (f t) = .error e (f t')

namespace Lifts

variable {m : EStateM ε σ α} {m' : EStateM ε τ α}

theorem pure (a : α) : Lifts f (Pure.pure a : EStateM ε τ α) (Pure.pure a) := ⟨fun _ => rfl⟩

theorem throw (e : ε) :
    Lifts f (MonadExcept.throw e : EStateM ε τ α) (MonadExcept.throw e) := ⟨fun _ => rfl⟩

theorem silent {g' : τ → τ} {k' : PUnit → EStateM ε τ α}
    (hg : ∀ t, f (g' t) = f t) (h : Lifts f (k' ⟨⟩) m) : Lifts f (modify g' >>= k') m := by
  constructor
  intro t
  have hrun := h.run (g' t)
  rw [hg] at hrun
  exact hrun

theorem modify {g' : τ → τ} {g : σ → σ} (h : ∀ t, f (g' t) = g (f t)) :
    Lifts f (modify g' : EStateM ε τ PUnit) (modify g) := by
  constructor
  intro t
  show EStateM.Result.ok PUnit.unit (g (f t)) = .ok PUnit.unit (f (g' t))
  rw [h]

theorem get_bind {k' : τ → EStateM ε τ α} {k : σ → EStateM ε σ α}
    (h : ∀ t, Lifts f (k' t) (k (f t))) : Lifts f (MonadState.get >>= k') (MonadState.get >>= k) :=
  ⟨fun t => (h t).run t⟩

theorem bind {k' : α → EStateM ε τ β}
    {k : α → EStateM ε σ β} (h : Lifts f m' m) (hk : ∀ a, Lifts f (k' a) (k a)) :
    Lifts f (m' >>= k') (m >>= k) := by
  constructor
  intro t
  have hrun := h.run t
  show match EStateM.bind m' k' t with
    | .ok b t' => EStateM.bind m k (f t) = .ok b (f t')
    | .error e t' => EStateM.bind m k (f t) = .error e (f t')
  unfold EStateM.bind
  cases hm : m' t with
  | ok a t' =>
    rw [hm] at hrun
    rw [hrun]
    exact (hk a).run t'
  | error e t' =>
    rw [hm] at hrun
    rw [hrun]

theorem ite {c : Prop} [Decidable c] {n' : EStateM ε τ α} {n : EStateM ε σ α}
    (h : c → Lifts f m' m) (h' : ¬c → Lifts f n' n) :
    Lifts f (if c then m' else n') (if c then m else n) := by
  split
  · exact h ‹_›
  · exact h' ‹_›

/-- **What is proved of the smaller program** holds of the larger one. -/
theorem wp_iff {m' : EStateM ε τ α} {m : EStateM ε σ α} (h : Lifts f m' m) {Q : α → σ → Prop}
    {E : ε → σ → Prop} {t : τ} :
    wp m' (fun a t' => Q a (f t')) (fun e t' => E e (f t')) t ↔ wp m Q E (f t) := by
  have hrun := h.run t
  cases hm : m' t with
  | ok a t' =>
    rw [hm] at hrun
    rw [wp_ok hm, wp_ok hrun]
  | error e t' =>
    rw [hm] at hrun
    rw [wp_error hm, wp_error hrun]

end Lifts

/-- The program `m` runs on the part `f t` of the state `t`, which `g` puts back. -/
def onPart (f : τ → σ) (g : σ → τ → τ) (m : EStateM ε σ α) : EStateM ε τ α := fun t =>
  match m (f t) with
  | .ok a s => .ok a (g s t)
  | .error e s => .error e (g s t)

theorem wp_onPart {g : σ → τ → τ} {m : EStateM ε σ α} {Q : α → τ → Prop} {E : ε → τ → Prop}
    {t : τ} :
    wp (onPart f g m) Q E t ↔ wp m (fun a s => Q a (g s t)) (fun e s => E e (g s t)) (f t) := by
  unfold wp onPart
  cases m (f t) <;> rfl

theorem wp_adaptExcept {ε' : Type} (h : ε → ε') {m : EStateM ε σ α} {Q : α → σ → Prop}
    {E : ε' → σ → Prop} {s : σ} :
    wp (m.adaptExcept h) Q E s ↔ wp m Q (fun e s' => E (h e) s') s := by
  unfold wp EStateM.adaptExcept
  cases m s <;> rfl

end StateHalt
