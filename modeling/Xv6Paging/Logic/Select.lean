import Mathlib.Order.Fin.Basic
import Xv6Paging.Logic.Wp

/-!
# Selecting a minimum by a scan

A scan over an array that keeps the best entry seen so far, and replaces it only by a strictly
better one, ends with the first of the minimal entries.  Entries that are not candidates are passed
over.
-/

namespace Select

variable {n : Nat} {κ : Type} [LinearOrder κ] {cand : Fin n → Prop} {rank : Fin n → κ}

/-- `k` is the lowest-numbered candidate of minimal rank. -/
structure First (cand : Fin n → Prop) (rank : Fin n → κ) (k : Fin n) : Prop where
  mem : cand k
  minimal : ∀ j, cand j → rank k ≤ rank j
  first : ∀ j, j < k → cand j → rank k < rank j

theorem First.congr {cand' : Fin n → Prop} {rank' : Fin n → κ} {k : Fin n}
    (h : First cand rank k) (hc : ∀ j, cand' j ↔ cand j) (hr : ∀ j, rank' j = rank j) :
    First cand' rank' k where
  mem := (hc k).mpr h.mem
  minimal j hj := by
    rw [hr, hr]
    exact h.minimal j ((hc j).mp hj)
  first j hlt hj := by
    rw [hr, hr]
    exact h.first j hlt ((hc j).mp hj)

/-- What the scan holds after the entries below `i`: nothing if none of them is a candidate, the
first of the minimal ones otherwise. -/
def Leader (cand : Fin n → Prop) (rank : Fin n → κ) (i : Nat) (o : Option (Fin n)) : Prop :=
  match o with
  | none => ∀ j, j.val < i → ¬cand j
  | some k => First (fun j => cand j ∧ j.val < i) rank k

namespace Leader

theorem start : Leader cand rank 0 none := fun _ hj => absurd hj (Nat.not_lt_zero _)

theorem skip {i : Fin n} {o : Option (Fin n)} (h : Leader cand rank i o) (hi : ¬cand i) :
    Leader cand rank (i + 1) o := by
  -- the candidates seen are the same as before
  have hsame : ∀ j : Fin n, (cand j ∧ j.val < i + 1) ↔ (cand j ∧ j.val < i) := by
    intro j
    constructor
    · rintro ⟨hj, hlt⟩
      refine ⟨hj, Nat.lt_of_le_of_ne (Nat.lt_succ_iff.mp hlt) fun heq => ?_⟩
      exact hi (Fin.ext heq ▸ hj)
    · rintro ⟨hj, hlt⟩
      exact ⟨hj, Nat.lt_succ_of_lt hlt⟩
  cases o with
  | none =>
    intro j hlt hj
    exact h j ((hsame j).mp ⟨hj, hlt⟩).2 hj
  | some k => exact First.congr h hsame fun _ => rfl

/-- A candidate takes the lead if there is none yet, or if it betters the one in the lead. -/
theorem replace {i : Fin n} {o : Option (Fin n)} (h : Leader cand rank i o) (hi : cand i)
    (hbetter : ∀ k, o = some k → rank i < rank k) : Leader cand rank (i + 1) (some i) := by
  have hless : ∀ j, cand j → j.val < i → rank i < rank j := by
    intro j hj hlt
    cases o with
    | none => exact absurd hj (h j hlt)
    | some k => exact lt_of_lt_of_le (hbetter k rfl) (h.minimal j ⟨hj, hlt⟩)
  constructor
  · exact ⟨hi, Nat.lt_succ_self _⟩
  · rintro j ⟨hj, hlt⟩
    rcases Nat.lt_succ_iff_lt_or_eq.mp hlt with hlt | heq
    · exact le_of_lt (hless j hj hlt)
    · rw [Fin.ext heq]
  · rintro j hlt ⟨hj, -⟩
    exact hless j hj hlt

theorem keep {i k : Fin n} (h : Leader cand rank i (some k)) (hk : rank k ≤ rank i) :
    Leader cand rank (i + 1) (some k) := by
  constructor
  · exact ⟨h.mem.1, Nat.lt_succ_of_lt h.mem.2⟩
  · rintro j ⟨hj, hlt⟩
    rcases Nat.lt_succ_iff_lt_or_eq.mp hlt with hlt | heq
    · exact h.minimal j ⟨hj, hlt⟩
    · rwa [Fin.ext heq]
  · rintro j hlt ⟨hj, -⟩
    exact h.first j hlt ⟨hj, Nat.lt_trans hlt h.mem.2⟩

/-- After all entries, the one in the lead is the first of the minimal ones. -/
theorem first {o : Option (Fin n)} (h : Leader cand rank n o) (hc : ∃ j, cand j) :
    ∃ k, o = some k ∧ First cand rank k := by
  obtain ⟨j, hj⟩ := hc
  cases o with
  | none => exact absurd hj (h j j.isLt)
  | some k => exact ⟨k, rfl, First.congr h (fun j => (and_iff_left j.isLt).symm) fun _ => rfl⟩

end Leader

end Select
