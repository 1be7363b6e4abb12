import Mathlib.Algebra.Order.Ring.Int
import Mathlib.Data.Finset.Card

/-!
# Numbered units in slots

Units have numbers, a slot holds a unit or none (0), and a map of bits marks the units in use.
Slots belong to owners, and an owner that is not live holds nothing.  The units below `lo` are
reserved.

The map is right if a unit is marked exactly when a slot holds it, and no unit is in two slots.
Marking a clear unit and putting it into an empty slot keeps this, and so does emptying a slot and
clearing its unit, in whatever order the two are done.
-/

namespace SlotMap

variable {ι κ : Type} {live live' : ι → Prop} {r r' : ι → κ → Nat}
  {i : ι} {x : κ} {b lo hi : Nat} {bit bit' : Nat → Bool}

/-- No unit is in two slots. -/
def Distinct (live : ι → Prop) (r : ι → κ → Nat) : Prop :=
  ∀ i i' x x', live i → live i' → r i x ≠ 0 → r i x = r i' x' → i = i' ∧ x = x'

/-- The unit is in no slot. -/
def Unused (live : ι → Prop) (r : ι → κ → Nat) (b : Nat) : Prop := ∀ i x, live i → r i x ≠ b

/-- The slot `x` of `i` has got the unit `b`, and the other slots are as before. -/
structure Gives (live : ι → Prop) (r r' : ι → κ → Nat) (i : ι) (x : κ) (b : Nat) : Prop where
  self : r' i x = b
  other : ∀ j y, live j → ¬(j = i ∧ y = x) → r' j y = r j y

theorem Distinct.gives (hd : Distinct live r) (hu : Unused live r b) (h : Gives live r r' i x b) :
    Distinct live r' := by
  intro j j' y y' hj hj' hne heq
  by_cases hy : j = i ∧ y = x <;> by_cases hy' : j' = i ∧ y' = x
  · exact ⟨hy.1.trans hy'.1.symm, hy.2.trans hy'.2.symm⟩
  · rw [hy.1, hy.2, h.self, h.other j' y' hj' hy'] at heq
    exact absurd heq.symm (hu j' y' hj')
  · rw [hy'.1, hy'.2, h.self, h.other j y hj hy] at heq
    exact absurd heq (hu j y hj)
  · rw [h.other j y hj hy] at hne heq
    rw [h.other j' y' hj' hy'] at heq
    exact hd j j' y y' hj hj' hne heq

theorem Distinct.takes (hd : Distinct live r) (h : Gives live r r' i x 0) : Distinct live r' := by
  intro j j' y y' hj hj' hne heq
  have hy : ¬(j = i ∧ y = x) := by
    rintro ⟨rfl, rfl⟩
    exact hne h.self
  have hy' : ¬(j' = i ∧ y' = x) := by
    rintro ⟨rfl, rfl⟩
    exact hne (heq.trans h.self)
  rw [h.other j y hj hy] at hne heq
  rw [h.other j' y' hj' hy'] at heq
  exact hd j j' y y' hj hj' hne heq

/-- The bits mark the reserved units and those in slots. -/
structure Owned (lo hi : Nat) (bit : Nat → Bool) (live : ι → Prop) (r : ι → κ → Nat) : Prop where
  /-- A reserved unit is marked. -/
  reserved : ∀ b, b < lo → bit b = true
  /-- A unit in a slot is not a reserved one. -/
  inside : ∀ i x, live i → r i x ≠ 0 → lo ≤ r i x ∧ r i x < hi
  distinct : Distinct live r
  /-- Of the others, those in slots are marked. -/
  marked : ∀ b, lo ≤ b → b < hi → (bit b = true ↔ ∃ i x, live i ∧ r i x = b)

section

variable (h : Owned lo hi bit live r)
include h

theorem Owned.unused (hb : b < hi) (hclear : bit b = false) : lo ≤ b ∧ Unused live r b := by
  have hlo : lo ≤ b := by
    rcases Nat.lt_or_ge b lo with hlt | hge
    · rw [h.reserved b hlt] at hclear
      cases hclear
    · exact hge
  refine ⟨hlo, fun i x hi heq => ?_⟩
  rw [(h.marked b hlo hb).mpr ⟨i, x, hi, heq⟩] at hclear
  cases hclear

theorem Owned.bit_of_held (hi' : live i) (hne : r i x ≠ 0) : bit (r i x) = true := by
  obtain ⟨hlo, hhi⟩ := h.inside i x hi' hne
  exact (h.marked _ hlo hhi).mpr ⟨i, x, hi', rfl⟩

/-- **A clear unit is marked and put into an empty slot.** -/
theorem Owned.give (hpos : 0 < lo) (hlo : lo ≤ hi) (hlive : live i)
    (hempty : r i x = 0) (hb : b < hi) (hclear : bit b = false) (hg : Gives live r r' i x b)
    (hbit : ∀ c, c < hi → bit' c = if c = b then true else bit c) : Owned lo hi bit' live r' := by
  obtain ⟨hlob, hun⟩ := h.unused hb hclear
  refine ⟨fun c hc => ?_, fun j y hj hne => ?_, h.distinct.gives hun hg, fun c hc hc' => ?_⟩
  · rw [hbit c (by omega), if_neg (by omega)]
    exact h.reserved c hc
  · by_cases hy : j = i ∧ y = x
    · rw [hy.1, hy.2, hg.self]
      exact ⟨hlob, hb⟩
    · rw [hg.other j y hj hy] at hne ⊢
      exact h.inside j y hj hne
  · rw [hbit c hc']
    by_cases hcb : c = b
    · rw [if_pos hcb]
      exact ⟨fun _ => ⟨i, x, hlive, hg.self.trans hcb.symm⟩, fun _ => rfl⟩
    · rw [if_neg hcb, h.marked c hc hc']
      constructor
      · rintro ⟨j, y, hj, hjy⟩
        refine ⟨j, y, hj, ?_⟩
        rw [hg.other j y hj, hjy]
        -- the slot was empty, and this one is not
        rintro ⟨rfl, rfl⟩
        omega
      · rintro ⟨j, y, hj, hjy⟩
        have hy : ¬(j = i ∧ y = x) := by
          rintro ⟨rfl, rfl⟩
          exact hcb (hjy.symm.trans hg.self)
        exact ⟨j, y, hj, by rw [← hg.other j y hj hy, hjy]⟩

/-- **A slot is emptied and its unit cleared.** -/
theorem Owned.take (hpos : 0 < lo) (hlive : live i) (hne : r i x ≠ 0) (hg : Gives live r r' i x 0)
    (hbit : ∀ c, c < hi → bit' c = if c = r i x then false else bit c) :
    Owned lo hi bit' live r' := by
  have hin := h.inside i x hlive hne
  refine ⟨fun c hc => ?_, fun j y hj hne' => ?_, h.distinct.takes hg, fun c hc hc' => ?_⟩
  · rw [hbit c (by omega), if_neg (by omega)]
    exact h.reserved c hc
  · have hy : ¬(j = i ∧ y = x) := by
      rintro ⟨rfl, rfl⟩
      exact hne' hg.self
    rw [hg.other j y hj hy] at hne' ⊢
    exact h.inside j y hj hne'
  · rw [hbit c hc']
    by_cases hcb : c = r i x
    · rw [if_pos hcb]
      refine ⟨nofun, ?_⟩
      rintro ⟨j, y, hj, hjy⟩
      have hy : ¬(j = i ∧ y = x) := by
        rintro ⟨rfl, rfl⟩
        rw [hg.self] at hjy
        omega
      rw [hg.other j y hj hy, hcb] at hjy
      -- no other slot had this unit
      have := h.distinct i j x y hlive hj hne hjy.symm
      exact absurd ⟨this.1.symm, this.2.symm⟩ hy
    · rw [if_neg hcb, h.marked c hc hc']
      constructor
      · rintro ⟨j, y, hj, hjy⟩
        refine ⟨j, y, hj, ?_⟩
        rw [hg.other j y hj, hjy]
        rintro ⟨rfl, rfl⟩
        exact hcb hjy.symm
      · rintro ⟨j, y, hj, hjy⟩
        have hy : ¬(j = i ∧ y = x) := by
          rintro ⟨rfl, rfl⟩
          rw [hg.self] at hjy
          omega
        exact ⟨j, y, hj, by rw [← hg.other j y hj hy, hjy]⟩

/-- **An owner whose slots are empty comes or goes.** -/
theorem Owned.renew (hpos : 0 < lo) (hlo : lo ≤ hi) (i : ι)
    (hbit : ∀ c, c < hi → bit' c = bit c) (hlive : ∀ j, j ≠ i → (live' j ↔ live j))
    (hr : ∀ j y, j ≠ i → live j → r' j y = r j y) (hempty : live i → ∀ x, r i x = 0)
    (hempty' : live' i → ∀ x, r' i x = 0) : Owned lo hi bit' live' r' := by
  have hother : ∀ j y, live' j → r' j y ≠ 0 → j ≠ i ∧ live j ∧ r' j y = r j y := by
    intro j y hj hne
    have hji : j ≠ i := by
      rintro rfl
      exact hne (hempty' hj y)
    have hj' := (hlive j hji).mp hj
    exact ⟨hji, hj', hr j y hji hj'⟩
  refine ⟨fun c hc => ?_, fun j y hj hne => ?_, fun j j' y y' hj hj' hne heq => ?_,
    fun c hc hc' => ?_⟩
  · rw [hbit c (by omega)]
    exact h.reserved c hc
  · obtain ⟨_, hj', hjr⟩ := hother j y hj hne
    rw [hjr] at hne ⊢
    exact h.inside j y hj' hne
  · obtain ⟨_, hl, hjr⟩ := hother j y hj hne
    obtain ⟨_, hl', hjr'⟩ := hother j' y' hj' (heq ▸ hne)
    rw [hjr] at hne heq
    exact h.distinct j j' y y' hl hl' hne (heq.trans hjr')
  · rw [hbit c hc', h.marked c hc hc']
    constructor
    · rintro ⟨j, y, hj, hjy⟩
      have hji : j ≠ i := by
        rintro rfl
        rw [hempty hj y] at hjy
        omega
      exact ⟨j, y, (hlive j hji).mpr hj, (hr j y hji hj).trans hjy⟩
    · rintro ⟨j, y, hj, hjy⟩
      obtain ⟨_, hl, hjr⟩ := hother j y hj (by omega)
      exact ⟨j, y, hl, hjr.symm.trans hjy⟩

theorem Owned.congr (hlo : lo ≤ hi)
    (hbit : ∀ c, c < hi → bit' c = bit c) (hlive : ∀ j, live' j ↔ live j)
    (hr : ∀ j y, live j → r' j y = r j y) : Owned lo hi bit' live' r' := by
  refine ⟨fun c hc => ?_, fun j y hj hne => ?_, fun j j' y y' hj hj' hne heq => ?_,
    fun c hc hc' => ?_⟩
  · rw [hbit c (by omega)]
    exact h.reserved c hc
  · have hj := (hlive j).mp hj
    rw [hr j y hj] at hne ⊢
    exact h.inside j y hj hne
  · have hj := (hlive j).mp hj
    have hj' := (hlive j').mp hj'
    rw [hr j y hj] at hne heq
    rw [hr j' y' hj'] at heq
    exact h.distinct j j' y y' hj hj' hne heq
  · rw [hbit c hc', h.marked c hc hc']
    constructor
    · rintro ⟨j, y, hj, hjy⟩
      exact ⟨j, y, (hlive j).mpr hj, (hr j y hj).trans hjy⟩
    · rintro ⟨j, y, hj, hjy⟩
      have hj := (hlive j).mp hj
      exact ⟨j, y, hj, (hr j y hj).symm.trans hjy⟩

end

/-! ## Enough units -/

/-- The number of clear units. -/
def free (hi : Nat) (bit : Nat → Bool) : Nat :=
  ((Finset.range hi).filter fun b => bit b = false).card

/-- The number of empty slots among those of `T`. -/
def lacking (r : κ → Nat) (T : Finset κ) : Nat := (T.filter fun x => r x = 0).card

theorem lacking_pos {r : κ → Nat} {T : Finset κ} (hx : x ∈ T) (hempty : r x = 0) :
    0 < lacking r T :=
  Finset.card_pos.mpr ⟨x, Finset.mem_filter.mpr ⟨hx, hempty⟩⟩

theorem free_mark (hb : b < hi) (hclear : bit b = false)
    (hbit : ∀ c, c < hi → bit' c = if c = b then true else bit c) :
    free hi bit' = free hi bit - 1 := by
  have heq : (Finset.range hi).filter (fun c => bit' c = false) =
      ((Finset.range hi).filter fun c => bit c = false).erase b := by
    ext c
    rw [Finset.mem_erase, Finset.mem_filter, Finset.mem_filter, Finset.mem_range]
    by_cases hc : c < hi
    · rw [hbit c hc]
      by_cases hcb : c = b <;> simp [hcb, hc]
    · simp [hc]
  rw [free, heq, Finset.card_erase_of_mem]
  · rfl
  · exact Finset.mem_filter.mpr ⟨Finset.mem_range.mpr hb, hclear⟩

theorem lacking_fill [DecidableEq κ] {r r' : κ → Nat} {T : Finset κ} (hx : x ∈ T)
    (hempty : r x = 0) (hfull : r' x ≠ 0) (hother : ∀ y, y ≠ x → r' y = r y) :
    lacking r' T = lacking r T - 1 := by
  have heq : T.filter (fun y => r' y = 0) = (T.filter fun y => r y = 0).erase x := by
    ext y
    rw [Finset.mem_erase, Finset.mem_filter, Finset.mem_filter]
    by_cases hy : y = x
    · subst hy
      simp [hfull]
    · simp [hy, hother y hy]
  rw [lacking, heq, Finset.card_erase_of_mem]
  · rfl
  · exact Finset.mem_filter.mpr ⟨hx, hempty⟩

/-- **A clear unit fills a slot**: if there were enough units for the slots of `T`, there are enough
for those that are still empty. -/
theorem lacking_le_free [DecidableEq κ] {r r' : κ → Nat} {T : Finset κ} (hx : x ∈ T)
    (hempty : r x = 0) (hfull : r' x ≠ 0) (hother : ∀ y, y ≠ x → r' y = r y) (hb : b < hi)
    (hclear : bit b = false) (hbit : ∀ c, c < hi → bit' c = if c = b then true else bit c)
    (h : lacking r T ≤ free hi bit) : lacking r' T ≤ free hi bit' := by
  rw [lacking_fill hx hempty hfull hother, free_mark hb hclear hbit]
  exact Nat.sub_le_sub_right h 1

end SlotMap
