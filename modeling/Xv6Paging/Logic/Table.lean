import Mathlib.Data.List.Basic
import Mathlib.Logic.Function.Basic

/-!
# Tables with free slots

A table is a row of slots, each free or with a key and a value.  A search goes through the slots and
takes the first one with the key; a new key goes to the first free slot, or behind the last one; a
key is removed by freeing its slot.  If no key is in two slots, the table is a finite map, and the
two changes are those of a map.
-/

/-- A row of slots. -/
@[ext] structure Table (κ ν : Type) where
  size : Nat
  slot : Nat → Option (κ × ν)

namespace Table

variable {κ ν : Type}

/-- The first slot with the key among `m` slots from `k` on. -/
def lookupFrom [DecidableEq κ] (t : Table κ ν) (x : κ) : Nat → Nat → Option (Nat × ν)
  | 0, _ => none
  | m + 1, k =>
    match t.slot k with
    | some (y, v) => if y = x then some (k, v) else t.lookupFrom x m (k + 1)
    | none => t.lookupFrom x m (k + 1)

/-- The slot and the value of a key. -/
def lookup [DecidableEq κ] (t : Table κ ν) (x : κ) : Option (Nat × ν) := t.lookupFrom x t.size 0

/-- The first free slot among `m` slots from `k` on, or the one behind them. -/
def firstFreeFrom (t : Table κ ν) : Nat → Nat → Nat
  | 0, k => k
  | m + 1, k => if t.slot k = none then k else t.firstFreeFrom m (k + 1)

/-- The first free slot, or the one behind the last. -/
def firstFree (t : Table κ ν) : Nat := t.firstFreeFrom t.size 0

/-- The slot `k` changes; it may be the one behind the last. -/
def put (t : Table κ ν) (k : Nat) (x : Option (κ × ν)) : Table κ ν where
  size := max t.size (k + 1)
  slot := Function.update t.slot k x

/-- No key is in two slots. -/
def Distinct (t : Table κ ν) : Prop :=
  ∀ k k' x v v', k < t.size → k' < t.size → t.slot k = some (x, v) → t.slot k' = some (x, v') →
    k = k'

section Lookup

variable [DecidableEq κ] {t : Table κ ν} {x : κ} {m k : Nat}

theorem lookupFrom_eq_none :
    t.lookupFrom x m k = none ↔ ∀ j v, k ≤ j → j < k + m → t.slot j ≠ some (x, v) := by
  induction m generalizing k with
  | zero =>
    refine ⟨fun _ j v h1 h2 => ?_, fun _ => rfl⟩
    omega
  | succ m ih =>
    -- the slot `k`, or one of those behind it
    have hsplit : (∀ j v, k ≤ j → j < k + (m + 1) → t.slot j ≠ some (x, v)) ↔
        (∀ v, t.slot k ≠ some (x, v)) ∧
          ∀ j v, k + 1 ≤ j → j < k + 1 + m → t.slot j ≠ some (x, v) := by
      refine ⟨fun h => ⟨fun v => h k v (Nat.le_refl k) (by omega), fun j v h1 h2 =>
        h j v (by omega) (by omega)⟩, ?_⟩
      rintro ⟨hk, hrest⟩ j v h1 h2
      rcases Nat.eq_or_lt_of_le h1 with rfl | hlt
      · exact hk v
      · exact hrest j v hlt (by omega)
    rw [lookupFrom, hsplit, ← ih]
    rcases hslot : t.slot k with _ | ⟨y, v⟩
    · simp
    · by_cases hy : y = x
      · simp [hy]
      · simp [hy]

theorem lookupFrom_sound {j : Nat} {v : ν} (h : t.lookupFrom x m k = some (j, v)) :
    j < k + m ∧ t.slot j = some (x, v) := by
  induction m generalizing k with
  | zero => cases h
  | succ m ih =>
    have hnext : t.lookupFrom x m (k + 1) = some (j, v) →
        j < k + (m + 1) ∧ t.slot j = some (x, v) := by
      intro h
      obtain ⟨hj, hslot⟩ := ih h
      exact ⟨by omega, hslot⟩
    rw [lookupFrom] at h
    rcases hslot : t.slot k with _ | ⟨y, w⟩
    · rw [hslot] at h
      exact hnext h
    · rw [hslot] at h
      dsimp only at h
      split at h
      · rename_i hy
        cases h
        exact ⟨by omega, hy ▸ hslot⟩
      · exact hnext h

theorem lookup_eq_none : t.lookup x = none ↔ ∀ k v, k < t.size → t.slot k ≠ some (x, v) := by
  rw [lookup, lookupFrom_eq_none]
  simp

theorem lookup_sound {v : ν} (h : t.lookup x = some (k, v)) :
    k < t.size ∧ t.slot k = some (x, v) := by
  have := lookupFrom_sound h
  rwa [Nat.zero_add] at this

theorem lookup_ne_none {v : ν} (hk : k < t.size) (h : t.slot k = some (x, v)) :
    t.lookup x ≠ none := fun hnone => lookup_eq_none.mp hnone k v hk h

/-- **The slot of a key** is the one that has it. -/
theorem Distinct.lookup_eq_some (hd : t.Distinct) {v : ν} :
    t.lookup x = some (k, v) ↔ k < t.size ∧ t.slot k = some (x, v) := by
  refine ⟨lookup_sound, ?_⟩
  rintro ⟨hk, hslot⟩
  obtain ⟨⟨j, w⟩, hfound⟩ := Option.ne_none_iff_exists'.mp (lookup_ne_none hk hslot)
  obtain ⟨hj, hslot'⟩ := lookup_sound hfound
  obtain rfl := hd j k x w v hj hk hslot' hslot
  rw [hslot'] at hslot
  cases hslot
  exact hfound

end Lookup

section FirstFree

variable {t : Table κ ν} {m k : Nat}

theorem firstFreeFrom_spec : k ≤ t.firstFreeFrom m k ∧ t.firstFreeFrom m k ≤ k + m ∧
    (t.firstFreeFrom m k < k + m → t.slot (t.firstFreeFrom m k) = none) := by
  induction m generalizing k with
  | zero =>
    refine ⟨Nat.le_refl k, Nat.le_refl k, fun h => ?_⟩
    exact absurd h (Nat.lt_irrefl k)
  | succ m ih =>
    rw [firstFreeFrom]
    split
    · rename_i hfree
      exact ⟨Nat.le_refl k, Nat.le_add_right k _, fun _ => hfree⟩
    · obtain ⟨h1, h2, h3⟩ := ih (k := k + 1)
      refine ⟨by omega, by omega, fun h => h3 (by omega)⟩

/-- **The first free slot** is free, if it is not behind the last. -/
theorem firstFree_spec (t : Table κ ν) :
    t.firstFree ≤ t.size ∧ (t.firstFree < t.size → t.slot t.firstFree = none) := by
  obtain ⟨-, hle, hfree⟩ := firstFreeFrom_spec (t := t) (m := t.size) (k := 0)
  rw [Nat.zero_add] at hle hfree
  exact ⟨hle, hfree⟩

end FirstFree

/-! ## Changes -/

section Changes

variable {t : Table κ ν} {k j : Nat} {x y : κ} {v w : ν}

theorem put_insert_iff (hk : k ≤ t.size) (hfree : k < t.size → t.slot k = none) :
    (j < (t.put k (some (x, v))).size ∧ (t.put k (some (x, v))).slot j = some (y, w)) ↔
      (j = k ∧ y = x ∧ w = v) ∨ (j < t.size ∧ t.slot j = some (y, w)) := by
  have hsize : (t.put k (some (x, v))).size = max t.size (k + 1) := rfl
  by_cases hj : j = k
  · subst hj
    have hslot : (t.put j (some (x, v))).slot j = some (x, v) := Function.update_self ..
    rw [hslot, hsize]
    constructor
    · rintro ⟨-, heq⟩
      cases heq
      exact .inl ⟨rfl, rfl, rfl⟩
    · rintro (⟨-, rfl, rfl⟩ | ⟨hlt, hslot⟩)
      · exact ⟨by omega, rfl⟩
      · rw [hfree hlt] at hslot
        cases hslot
  · have hslot : (t.put k (some (x, v))).slot j = t.slot j := Function.update_of_ne hj ..
    rw [hslot, hsize]
    constructor
    · rintro ⟨hlt, heq⟩
      exact .inr ⟨by omega, heq⟩
    · rintro (⟨rfl, -⟩ | ⟨hlt, heq⟩)
      · exact absurd rfl hj
      · exact ⟨by omega, heq⟩

theorem put_remove_iff (hk : k < t.size) :
    (j < (t.put k none).size ∧ (t.put k none).slot j = some (y, w)) ↔
      j ≠ k ∧ j < t.size ∧ t.slot j = some (y, w) := by
  have hsize : (t.put k none).size = t.size := Nat.max_eq_left hk
  rw [hsize]
  by_cases hj : j = k
  · subst hj
    have hslot : (t.put j none).slot j = none := Function.update_self ..
    simp [hslot]
  · have hslot : (t.put k none).slot j = t.slot j := Function.update_of_ne hj ..
    simp [hslot, hj]

variable (hd : t.Distinct)
include hd

/-- **A slot is freed.** -/
theorem Distinct.remove (hk : k < t.size) : (t.put k none).Distinct := by
  intro j j' y w w' hj hj' hslot hslot'
  obtain ⟨-, hlt, hold⟩ := (put_remove_iff hk).mp ⟨hj, hslot⟩
  obtain ⟨-, hlt', hold'⟩ := (put_remove_iff hk).mp ⟨hj', hslot'⟩
  exact hd j j' y w w' hlt hlt' hold hold'

variable [DecidableEq κ]

/-- Two tables that are maps with the same keys in the same slots, apart from one key. -/
theorem Distinct.lookup_congr {t' : Table κ ν} (hd' : t'.Distinct)
    (h : ∀ j w, (j < t'.size ∧ t'.slot j = some (y, w)) ↔ (j < t.size ∧ t.slot j = some (y, w))) :
    t'.lookup y = t.lookup y := by
  apply Option.ext
  rintro ⟨j, w⟩
  rw [hd'.lookup_eq_some, hd.lookup_eq_some, h]

/-- **A new key** is inserted. -/
theorem Distinct.insert (hnew : t.lookup x = none) (hk : k ≤ t.size)
    (hfree : k < t.size → t.slot k = none) : (t.put k (some (x, v))).Distinct := by
  intro j j' y w w' hj hj' hslot hslot'
  rw [lookup_eq_none] at hnew
  rcases (put_insert_iff hk hfree).mp ⟨hj, hslot⟩ with ⟨rfl, rfl, -⟩ | ⟨hlt, hold⟩ <;>
    rcases (put_insert_iff hk hfree).mp ⟨hj', hslot'⟩ with ⟨rfl, heq, -⟩ | ⟨hlt', hold'⟩
  · rfl
  · exact absurd hold' (hnew j' w' hlt')
  · exact absurd (heq ▸ hold) (hnew j w hlt)
  · exact hd j j' y w w' hlt hlt' hold hold'

theorem Distinct.lookup_insert (hnew : t.lookup x = none) (hk : k ≤ t.size)
    (hfree : k < t.size → t.slot k = none) (y : κ) :
    (t.put k (some (x, v))).lookup y = if y = x then some (k, v) else t.lookup y := by
  have hd' : (t.put k (some (x, v))).Distinct := hd.insert hnew hk hfree
  split
  · rename_i hy
    subst hy
    rw [hd'.lookup_eq_some, put_insert_iff hk hfree]
    exact .inl ⟨rfl, rfl, rfl⟩
  · rename_i hy
    refine hd.lookup_congr hd' fun j w => ?_
    rw [put_insert_iff hk hfree]
    refine ⟨?_, .inr⟩
    rintro (⟨-, heq, -⟩ | h)
    · exact absurd heq hy
    · exact h

theorem Distinct.lookup_remove (hfound : t.lookup x = some (k, v)) (y : κ) :
    (t.put k none).lookup y = if y = x then none else t.lookup y := by
  obtain ⟨hk, hslot⟩ := lookup_sound hfound
  split
  · rename_i hy
    subst hy
    rw [lookup_eq_none]
    intro j w hj hslot'
    obtain ⟨hne, hlt, hold⟩ := (put_remove_iff hk).mp ⟨hj, hslot'⟩
    exact hne (hd j k y w v hlt hk hold hslot)
  · rename_i hy
    refine hd.lookup_congr (hd.remove hk) fun j w => ?_
    rw [put_remove_iff hk]
    refine ⟨fun h => h.2, fun h => ⟨?_, h⟩⟩
    rintro rfl
    rw [hslot] at h
    cases h.2
    exact hy rfl

end Changes

end Table
