import Mathlib.Algebra.Order.Ring.Int
import Mathlib.Data.List.Perm.Basic
import Mathlib.Logic.Equiv.Basic

/-!
# Exclusive ownership

A finite supply of items is handed out: some are *loose* (free, or on their way), the others sit in
slots.  `Owned full valid loose slot` says that every item is in at most one of these places and,
if `full` holds, that no valid item is lost.

Handing an item out is `Owned.place`, taking it back is `Owned.lift`; renaming slots is
`Owned.reindex`, forgetting an item `Owned.drop`.
-/

namespace Ownership

variable {α ι κ : Type}

/-- Every item is in at most one place, and in some place if `full`. -/
structure Owned (full : Prop) (valid : α → Prop) (loose : List α) (slot : ι → Option α) : Prop where
  nodup : loose.Nodup
  loose_valid : ∀ a ∈ loose, valid a
  slot_valid : ∀ i a, slot i = some a → valid a
  slot_inj : ∀ i j a, slot i = some a → slot j = some a → i = j
  apart : ∀ i a, slot i = some a → a ∉ loose
  covers : full → ∀ a, valid a → a ∈ loose ∨ ∃ i, slot i = some a

namespace Owned

variable {full : Prop} {valid : α → Prop} {loose loose' : List α} {slot slot' : ι → Option α}
  {a : α} {j : ι}

variable (h : Owned full valid loose slot)
include h

theorem perm (hp : loose.Perm loose') : Owned full valid loose' slot where
  nodup := hp.nodup_iff.mp h.nodup
  loose_valid a ha := h.loose_valid a (hp.mem_iff.mpr ha)
  slot_valid := h.slot_valid
  slot_inj := h.slot_inj
  apart i a hi ha := h.apart i a hi (hp.mem_iff.mpr ha)
  covers hf a ha := (h.covers hf a ha).imp hp.mem_iff.mp id

theorem congr (hs : ∀ i, slot' i = slot i) : Owned full valid loose slot' := by
  rwa [funext hs]

omit h in
/-- **A loose item goes into an empty slot.** -/
theorem place (h : Owned full valid (a :: loose) slot) (hj : slot j = none)
    (hj' : slot' j = some a) (hs : ∀ i, i ≠ j → slot' i = slot i) :
    Owned full valid loose slot' where
  nodup := (List.nodup_cons.mp h.nodup).2
  loose_valid b hb := h.loose_valid b (List.mem_cons_of_mem a hb)
  slot_valid i b hi := by
    by_cases hij : i = j
    · subst hij
      obtain rfl : a = b := by simpa [hj'] using hi
      exact h.loose_valid a List.mem_cons_self
    · exact h.slot_valid i b (hs i hij ▸ hi)
  slot_inj i i' b hi hi' := by
    by_cases hij : i = j <;> by_cases hij' : i' = j
    · rw [hij, hij']
    · subst hij
      obtain rfl : a = b := by simpa [hj'] using hi
      exact absurd List.mem_cons_self (h.apart i' a (hs i' hij' ▸ hi'))
    · subst hij'
      obtain rfl : a = b := by simpa [hj'] using hi'
      exact absurd List.mem_cons_self (h.apart i a (hs i hij ▸ hi))
    · exact h.slot_inj i i' b (hs i hij ▸ hi) (hs i' hij' ▸ hi')
  apart i b hi hb := by
    by_cases hij : i = j
    · subst hij
      obtain rfl : a = b := by simpa [hj'] using hi
      exact (List.nodup_cons.mp h.nodup).1 hb
    · exact h.apart i b (hs i hij ▸ hi) (List.mem_cons_of_mem a hb)
  covers hf b hb := by
    rcases h.covers hf b hb with hb | ⟨i, hi⟩
    · rcases List.mem_cons.mp hb with rfl | hb
      · exact .inr ⟨j, hj'⟩
      · exact .inl hb
    · have hij : i ≠ j := by
        rintro rfl
        simp [hj] at hi
      exact .inr ⟨i, (hs i hij).trans hi⟩

/-- **The item of a slot becomes loose.** -/
theorem lift (hj : slot j = some a) (hj' : slot' j = none)
    (hs : ∀ i, i ≠ j → slot' i = slot i) : Owned full valid (a :: loose) slot' where
  nodup := List.nodup_cons.mpr ⟨h.apart j a hj, h.nodup⟩
  loose_valid b hb := by
    rcases List.mem_cons.mp hb with rfl | hb
    · exact h.slot_valid j b hj
    · exact h.loose_valid b hb
  slot_valid i b hi := by
    have hij : i ≠ j := by
      rintro rfl
      simp [hj'] at hi
    exact h.slot_valid i b (hs i hij ▸ hi)
  slot_inj i i' b hi hi' := by
    have hij : i ≠ j := by
      rintro rfl
      simp [hj'] at hi
    have hij' : i' ≠ j := by
      rintro rfl
      simp [hj'] at hi'
    exact h.slot_inj i i' b (hs i hij ▸ hi) (hs i' hij' ▸ hi')
  apart i b hi hb := by
    have hij : i ≠ j := by
      rintro rfl
      simp [hj'] at hi
    have hi' : slot i = some b := hs i hij ▸ hi
    rcases List.mem_cons.mp hb with rfl | hb
    · exact hij (h.slot_inj i j b hi' hj)
    · exact h.apart i b hi' hb
  covers hf b hb := by
    rcases h.covers hf b hb with hb | ⟨i, hi⟩
    · exact .inl (List.mem_cons_of_mem a hb)
    · by_cases hij : i = j
      · subst hij
        obtain rfl : a = b := by simpa [hj] using hi
        exact .inl List.mem_cons_self
      · exact .inr ⟨i, (hs i hij).trans hi⟩

omit h in
/-- **A loose item is lost.** -/
theorem drop (h : Owned full valid (a :: loose) slot) (hf : ¬full) :
    Owned full valid loose slot where
  nodup := (List.nodup_cons.mp h.nodup).2
  loose_valid b hb := h.loose_valid b (List.mem_cons_of_mem a hb)
  slot_valid := h.slot_valid
  slot_inj := h.slot_inj
  apart i b hi hb := h.apart i b hi (List.mem_cons_of_mem a hb)
  covers hf' := absurd hf' hf

omit h in
/-- **Loose items are lost.** -/
theorem dropAll {as : List α} (h : Owned full valid (as ++ loose) slot) (hf : ¬full) :
    Owned full valid loose slot := by
  induction as with
  | nil => exact h
  | cons a as ih => exact ih (drop h hf)

/-- **The items of several slots become loose.** -/
theorem liftAll [DecidableEq ι] {js : List ι} (hnd : js.Nodup) :
    Owned full valid (js.filterMap slot ++ loose) fun i => if i ∈ js then none else slot i := by
  induction js with
  | nil => exact h.congr fun i => by simp
  | cons j js ih =>
    obtain ⟨hj, hnd⟩ := List.nodup_cons.mp hnd
    cases hs : slot j with
    | none =>
      rw [List.filterMap_cons_none hs]
      refine (ih hnd).congr fun i => ?_
      by_cases hij : i = j
      · subst hij
        simp [hs]
      · simp [hij]
    | some a =>
      rw [List.filterMap_cons_some hs, List.cons_append]
      refine (ih hnd).lift (j := j) (by simp [hj, hs]) (by simp) fun i hij => ?_
      simp [hij]

end Owned

end Ownership
