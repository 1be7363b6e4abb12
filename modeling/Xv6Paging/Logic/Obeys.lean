import Mathlib.Order.Defs.Unbundled
import Xv6Paging.Logic.Wp

/-!
# Facts that follow the text of a program

`Obeys m R P` says that `m`, from whatever state it starts in, returns in a state related by `R`,
or halts for a reason in `P`.  If `R` is reflexive and transitive this follows the text of the
program, with nothing to know about its states: a program does what its parts do.  With `R` always
true it bounds the reasons for which a program halts; with `P` always true it is a frame.
-/

namespace StateHalt

variable {ε σ α β : Type} {R : σ → σ → Prop} {P : ε → Prop}

/-- The returns of `m` are steps of `R`, its halts are in `P`. -/
structure Obeys (m : EStateM ε σ α) (R : σ → σ → Prop) (P : ε → Prop) : Prop where
  run : ∀ s, wp m (fun _ s' => R s s') (fun e _ => P e) s

/-- All pairs of states are related. -/
instance anySteps : IsPreorder σ fun _ _ => True where
  refl _ := trivial
  trans _ _ _ _ _ := trivial

namespace Obeys

theorem modify {g : σ → σ} (h : ∀ s, R s (g s)) : Obeys (modify g : EStateM ε σ PUnit) R P :=
  ⟨h⟩

theorem throw {e : ε} (h : P e) : Obeys (MonadExcept.throw e : EStateM ε σ α) R P := ⟨fun _ => h⟩

theorem ite {c : Prop} [Decidable c] {m m' : EStateM ε σ α} (h : c → Obeys m R P)
    (h' : ¬c → Obeys m' R P) : Obeys (if c then m else m') R P :=
  ⟨fun s => wp_ite (fun hc => (h hc).run s) fun hc => (h' hc).run s⟩

variable [IsPreorder σ R]

theorem pure (a : α) : Obeys (Pure.pure a : EStateM ε σ α) R P := ⟨fun s => refl_of R s⟩

theorem get : Obeys (MonadState.get : EStateM ε σ σ) R P := ⟨fun s => refl_of R s⟩

theorem bind {m : EStateM ε σ α} {f : α → EStateM ε σ β} (h : Obeys m R P)
    (hf : ∀ a, Obeys (f a) R P) : Obeys (m >>= f) R P := by
  constructor
  intro s
  rw [wp_bind]
  refine wp_post (h.run s) fun a t ht => ?_
  exact wp_post ((hf a).run t) fun _ u hu => trans_of R ht hu

theorem onlyIf {c : Prop} [Decidable c] {m : EStateM ε σ Unit} (h : c → Obeys m R P) :
    Obeys (StateHalt.onlyIf c m) R P :=
  ite h fun _ => pure ()

theorem forEach {body : Nat → EStateM ε σ Unit} (h : ∀ k, Obeys (body k) R P) (k n : Nat) :
    Obeys (StateHalt.forEach body k n) R P := by
  induction n generalizing k with
  | zero => exact pure ()
  | succ n ih => exact bind (h k) fun _ => ih (k + 1)

end Obeys

end StateHalt
