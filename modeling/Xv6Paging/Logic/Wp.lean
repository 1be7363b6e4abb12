import Mathlib.Algebra.Order.Ring.Int
import Mathlib.Logic.Basic

/-!
# Weakest preconditions for stateful programs that may halt

A program over a state `σ` that can halt with a reason `ε` is an `EStateM ε σ α`: it returns a
value and a state, or it halts and leaves the state it had reached.  `wp m Q E s` says that `m`
started in `s` returns only into `Q` and halts only into `E`; with `E` false it is total
correctness, with `E` true it is partial correctness.

The loops of an imperative program with a known number of rounds are `forEach` (no early exit),
`forFold` (a value is carried along) and `forReturn` (a round may return from the enclosing
function); each has one invariant rule.
-/

namespace StateHalt

variable {ε σ α β : Type}

/-- `m` started in `s` returns only into `Q` and halts only into `E`. -/
def wp (m : EStateM ε σ α) (Q : α → σ → Prop) (E : ε → σ → Prop) (s : σ) : Prop :=
  match m s with
  | .ok a s' => Q a s'
  | .error e s' => E e s'

section Rules

variable {m : EStateM ε σ α} {f : α → EStateM ε σ β} {Q Q' : α → σ → Prop}
  {R : β → σ → Prop} {E E' : ε → σ → Prop} {s : σ}

theorem wp_ok {a : α} {s' : σ} (h : m s = .ok a s') : wp m Q E s ↔ Q a s' := by
  simp only [wp, h]

theorem wp_error {e : ε} {s' : σ} (h : m s = .error e s') : wp m Q E s ↔ E e s' := by
  simp only [wp, h]

/-- A concrete run can be evaluated. -/
instance [∀ a s, Decidable (Q a s)] [∀ e s, Decidable (E e s)] : Decidable (wp m Q E s) :=
  match h : m s with
  | .ok _ _ => decidable_of_iff _ (wp_ok h).symm
  | .error _ _ => decidable_of_iff _ (wp_error h).symm

@[simp] theorem wp_pure (a : α) : wp (pure a) Q E s ↔ Q a s := Iff.rfl

@[simp] theorem wp_throw (e : ε) : wp (throw e : EStateM ε σ α) Q E s ↔ E e s := Iff.rfl

@[simp] theorem wp_get {Q : σ → σ → Prop} : wp (get : EStateM ε σ σ) Q E s ↔ Q s s := Iff.rfl

@[simp] theorem wp_modify {Q : PUnit → σ → Prop} (g : σ → σ) :
    wp (modify g : EStateM ε σ PUnit) Q E s ↔ Q ⟨⟩ (g s) := Iff.rfl

@[simp] theorem wp_bind : wp (m >>= f) R E s ↔ wp m (fun a s' => wp (f a) R E s') E s := by
  show (match EStateM.bind m f s with
    | .ok a s' => R a s'
    | .error e s' => E e s') ↔ _
  unfold wp EStateM.bind
  cases m s <;> rfl

@[simp] theorem wp_map {g : α → β} : wp (g <$> m) R E s ↔ wp m (fun a s' => R (g a) s') E s := by
  show (match EStateM.map g m s with
    | .ok a s' => R a s'
    | .error e s' => E e s') ↔ _
  unfold wp EStateM.map
  cases m s <;> rfl

theorem wp_mono (h : wp m Q E s) (hQ : ∀ a s', Q a s' → Q' a s')
    (hE : ∀ e s', E e s' → E' e s') : wp m Q' E' s := by
  unfold wp at *
  cases hm : m s with
  | ok a s' => rw [hm] at h; exact hQ a s' h
  | error e s' => rw [hm] at h; exact hE e s' h

theorem wp_post (h : wp m Q E s) (hQ : ∀ a s', Q a s' → Q' a s') : wp m Q' E s :=
  wp_mono h hQ fun _ _ h => h

theorem wp_and (h : wp m Q E s) (h' : wp m Q' E' s) :
    wp m (fun a s' => Q a s' ∧ Q' a s') (fun e s' => E e s' ∧ E' e s') s := by
  unfold wp at *
  cases hm : m s with
  | ok a s' => rw [hm] at h h'; exact ⟨h, h'⟩
  | error e s' => rw [hm] at h h'; exact ⟨h, h'⟩

theorem wp_any (hQ : ∀ a s', Q a s') : wp m Q (fun _ _ => True) s := by
  unfold wp
  cases m s with
  | ok a s' => exact hQ a s'
  | error e s' => trivial

theorem wp_total (h : wp m Q (fun _ _ => False) s) : ∃ a s', m s = .ok a s' ∧ Q a s' := by
  unfold wp at h
  cases hm : m s with
  | ok a s' => rw [hm] at h; exact ⟨a, s', rfl, h⟩
  | error e s' => rw [hm] at h; exact h.elim

theorem wp_returns {a : α} {s' : σ} (h : wp m Q E s) (hm : m s = .ok a s') : Q a s' :=
  (wp_ok hm).mp h

theorem wp_ite {c : Prop} [Decidable c] {m m' : EStateM ε σ α} (h : c → wp m Q E s)
    (h' : ¬c → wp m' Q E s) : wp (if c then m else m') Q E s := by
  split
  · exact h ‹_›
  · exact h' ‹_›

/-- A conditional statement without an `else`. -/
def onlyIf (c : Prop) [Decidable c] (m : EStateM ε σ Unit) : EStateM ε σ Unit :=
  if c then m else pure ()

@[congr] theorem onlyIf_congr {c d : Prop} {dec : Decidable c} [Decidable d]
    {m m' : EStateM ε σ Unit} (hc : c = d) (hm : m = m') : onlyIf c m = onlyIf d m' := by
  subst hc hm
  unfold onlyIf
  split <;> rfl

theorem wp_onlyIf {c : Prop} [Decidable c] {m : EStateM ε σ Unit} {Q : Unit → σ → Prop}
    (h : c → wp m Q E s) (h' : ¬c → Q () s) : wp (onlyIf c m) Q E s :=
  wp_ite h h'

@[simp] theorem onlyIf_true {c : Prop} [Decidable c] (h : c) (m : EStateM ε σ Unit) :
    onlyIf c m = m := if_pos h

@[simp] theorem onlyIf_false {c : Prop} [Decidable c] (h : ¬c) (m : EStateM ε σ Unit) :
    onlyIf c m = pure () := if_neg h

end Rules

/-! ## Loops -/

/-- The rounds `k, …, k + n - 1` of a loop whose rounds never leave it. -/
def forEach (body : Nat → EStateM ε σ Unit) : Nat → Nat → EStateM ε σ Unit
  | _, 0 => pure ()
  | k, n + 1 => do
    body k
    forEach body (k + 1) n

/-- The rounds `k, …, k + n - 1` of a loop that carries a value from round to round. -/
def forFold (body : Nat → β → EStateM ε σ β) : Nat → Nat → β → EStateM ε σ β
  | _, 0, b => pure b
  | k, n + 1, b => do
    let b ← body k b
    forFold body (k + 1) n b

/-- The rounds `k, …, k + n - 1` of a loop; a round that yields `some r` returns `r` from the
enclosing function. -/
def forReturn (body : Nat → EStateM ε σ (Option β)) : Nat → Nat → EStateM ε σ (Option β)
  | _, 0 => pure none
  | k, n + 1 => do
    match ← body k with
    | some r => pure (some r)
    | none => forReturn body (k + 1) n

section Loops

variable {E : ε → σ → Prop}

/-- **The invariant rule of `forEach`.** -/
theorem wp_forEach {body : Nat → EStateM ε σ Unit} {Q : Unit → σ → Prop} (I : Nat → σ → Prop)
    {k n : Nat} {s : σ} (init : I k s)
    (step : ∀ j s, k ≤ j → j < k + n → I j s → wp (body j) (fun _ s' => I (j + 1) s') E s)
    (done : ∀ s, I (k + n) s → Q () s) : wp (forEach body k n) Q E s := by
  induction n generalizing k s with
  | zero => exact done s init
  | succ n ih =>
    simp only [forEach, wp_bind]
    refine wp_post (step k s le_rfl (by omega) init) fun _ s' h => ?_
    refine ih h (fun j s hj hj' => step j s (by omega) (by omega)) fun s hs => done s ?_
    rwa [show k + (n + 1) = k + 1 + n by omega]

/-- **The invariant rule of `forFold`.** -/
theorem wp_forFold {body : Nat → β → EStateM ε σ β} {Q : β → σ → Prop} (I : Nat → β → σ → Prop)
    {k n : Nat} {b : β} {s : σ} (init : I k b s)
    (step : ∀ j b s, k ≤ j → j < k + n → I j b s → wp (body j b) (fun b' s' => I (j + 1) b' s') E s)
    (done : ∀ b s, I (k + n) b s → Q b s) : wp (forFold body k n b) Q E s := by
  induction n generalizing k b s with
  | zero => exact done b s init
  | succ n ih =>
    simp only [forFold, wp_bind]
    refine wp_post (step k b s le_rfl (by omega) init) fun b' s' h => ?_
    refine ih h (fun j b s hj hj' => step j b s (by omega) (by omega)) fun b s hs => done b s ?_
    rwa [show k + (n + 1) = k + 1 + n by omega]

/-- **The invariant rule of `forReturn`**: a round keeps the invariant or returns into `Q`. -/
theorem wp_forReturn {body : Nat → EStateM ε σ (Option β)} {Q : Option β → σ → Prop}
    (I : Nat → σ → Prop) {k n : Nat} {s : σ} (init : I k s)
    (step : ∀ j s, k ≤ j → j < k + n → I j s →
      wp (body j) (fun r s' => r.elim (I (j + 1) s') fun b => Q (some b) s') E s)
    (done : ∀ s, I (k + n) s → Q none s) : wp (forReturn body k n) Q E s := by
  induction n generalizing k s with
  | zero => exact done s init
  | succ n ih =>
    simp only [forReturn, wp_bind]
    refine wp_post (step k s le_rfl (by omega) init) fun r s' h => ?_
    cases r with
    | some b => exact h
    | none =>
      refine ih h (fun j s hj hj' => step j s (by omega) (by omega)) fun s hs => done s ?_
      rwa [show k + (n + 1) = k + 1 + n by omega]

end Loops

end StateHalt
