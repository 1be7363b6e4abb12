import Mathlib.Algebra.Order.Ring.Int
import Mathlib.Data.BitVec
import Mathlib.Data.Fin.Basic
import Mathlib.Logic.Function.Basic

/-!
# Circular buffers with free-running counters

An array of `N` entries is used as a queue.  The counters of the entries put in and taken out run on
and wrap around at `2 ^ w`; an entry is found at its counter modulo `N`.  The queue is empty when
the counters agree, and full when they are `N` apart.
-/

namespace Circular

/-- Counters of `w` bits fit an array of `N` entries: a counter that wraps around is at the same
entry again, and a full array is not taken for an empty one. -/
class Wraps (N w : Nat) : Prop where
  dvd : N ∣ 2 ^ w
  lt : N < 2 ^ w

/-- The entry of the counter `c`. -/
def slot (N : Nat) [NeZero N] {w : Nat} (c : BitVec w) : Fin N := Fin.ofNat N c.toNat

variable {α : Type*} {N w : Nat} [NeZero N] [Wraps N w]

/-- The counter of the `k`-th entry after the counter `c`. -/
abbrev ahead (c : BitVec w) (k : Nat) : BitVec w := c + BitVec.ofNat w k

section Counter

variable (c : BitVec w) {j k : Nat}

omit [Wraps N w] [NeZero N] in
@[simp] theorem ahead_zero : ahead c 0 = c := by simp [ahead]

omit [Wraps N w] [NeZero N] in
theorem ahead_ahead : ahead (ahead c j) k = ahead c (j + k) := by
  simp [ahead, BitVec.ofNat_add, BitVec.add_assoc]

omit [Wraps N w] [NeZero N] in
theorem ahead_succ : ahead c (k + 1) = ahead c k + 1 := by
  simp [ahead, BitVec.ofNat_add, BitVec.add_assoc]

theorem slot_ahead_val : (slot N (ahead c k)).val = (c.toNat + k) % N := by
  have hdvd : N ∣ 2 ^ w := Wraps.dvd
  simp only [slot, ahead, Fin.val_ofNat, BitVec.toNat_add, BitVec.toNat_ofNat]
  rw [Nat.mod_mod_of_dvd _ hdvd, Nat.add_mod c.toNat (k % 2 ^ w), Nat.mod_mod_of_dvd _ hdvd,
    ← Nat.add_mod]

/-- Fewer than `N` apart, counters have different entries. -/
theorem slot_ahead_inj (hj : j < N) (hk : k < N) (h : slot N (ahead c j) = slot N (ahead c k)) :
    j = k := by
  have hval := congrArg Fin.val h
  rw [slot_ahead_val, slot_ahead_val] at hval
  have hmod : j ≡ k [MOD N] := Nat.ModEq.add_left_cancel' c.toNat hval
  rwa [Nat.ModEq, Nat.mod_eq_of_lt hj, Nat.mod_eq_of_lt hk] at hmod

omit [NeZero N] in
theorem ahead_inj (hj : j ≤ N) (hk : k ≤ N) (h : ahead c j = ahead c k) : j = k := by
  have hlt : N < 2 ^ w := Wraps.lt
  have hof : BitVec.ofNat w j = BitVec.ofNat w k := add_left_cancel h
  have hnat := congrArg BitVec.toNat hof
  rwa [BitVec.toNat_ofNat, BitVec.toNat_ofNat, Nat.mod_eq_of_lt (by omega),
    Nat.mod_eq_of_lt (by omega)] at hnat

end Counter

/-- The entries of the array from the counter `lo` up to the counter `hi` are `xs`. -/
structure Holds (data : Fin N → α) (lo hi : BitVec w) (xs : List α) : Prop where
  count : hi = ahead lo xs.length
  fits : xs.length ≤ N
  get : ∀ j (h : j < xs.length), data (slot N (ahead lo j)) = xs[j]

namespace Holds

variable {data : Fin N → α} {lo hi : BitVec w} {xs ys : List α} {x : α}

omit [Wraps N w] in
theorem nil (data : Fin N → α) (c : BitVec w) : Holds data c c [] :=
  ⟨by simp, Nat.zero_le _, fun _ h => absurd h (by simp)⟩

section

variable (h : Holds data lo hi xs)
include h

theorem length_eq : (hi - lo).toNat = xs.length := by
  have hlt : N < 2 ^ w := Wraps.lt
  have hfits := h.fits
  have hsub : hi - lo = BitVec.ofNat w xs.length := by
    rw [h.count, ahead, BitVec.add_comm, BitVec.add_sub_cancel]
  rw [hsub, BitVec.toNat_ofNat, Nat.mod_eq_of_lt (by omega)]

theorem eq_nil_iff : lo = hi ↔ xs = [] := by
  rw [h.count]
  constructor
  · intro heq
    have hlen := ahead_inj lo (N := N) (Nat.zero_le N) h.fits (by rw [ahead_zero]; exact heq)
    exact List.eq_nil_of_length_eq_zero hlen.symm
  · rintro rfl
    simp

theorem full_iff : hi = ahead lo N ↔ xs.length = N := by
  rw [h.count]
  constructor
  · exact fun heq => ahead_inj lo h.fits le_rfl heq
  · intro heq
    rw [heq]

/-- **An entry is put in** at the upper end. -/
theorem push (hroom : xs.length < N) (x : α) :
    Holds (Function.update data (slot N hi) x) lo (hi + 1) (xs ++ [x]) where
  count := by
    rw [List.length_append, List.length_singleton, ahead_succ, ← h.count]
  fits := by
    rw [List.length_append, List.length_singleton]
    exact hroom
  get j hj := by
    rw [List.length_append, List.length_singleton] at hj
    rw [h.count]
    by_cases hlast : j = xs.length
    · subst hlast
      rw [Function.update_self, List.getElem_concat_length rfl]
    · have hlt : j < xs.length := by omega
      have hne : slot N (ahead lo j) ≠ slot N (ahead lo xs.length) := fun heq =>
        hlast (slot_ahead_inj lo (by omega) hroom heq)
      rw [Function.update_of_ne hne, h.get j hlt, List.getElem_append_left hlt]

end

omit [Wraps N w] in
theorem head (h : Holds data lo hi (x :: xs)) : data (slot N lo) = x := by
  have := h.get 0 (by simp)
  rwa [ahead_zero] at this

omit [Wraps N w] in
/-- **The first entry is taken out.** -/
theorem pop (h : Holds data lo hi (x :: xs)) : Holds data (lo + 1) hi xs where
  count := by
    have hone : lo + 1 = ahead lo 1 := by simp [ahead]
    rw [h.count, hone, ahead_ahead, List.length_cons, Nat.add_comm]
  fits := Nat.le_trans (Nat.le_succ _) h.fits
  get j hj := by
    have hone : lo + 1 = ahead lo 1 := by simp [ahead]
    have := h.get (j + 1) (by simpa using hj)
    rw [hone, ahead_ahead, Nat.add_comm 1 j, this, List.getElem_cons_succ]

omit [Wraps N w] in
/-- **The last entry is taken back.** -/
theorem unpush (h : Holds data lo hi (xs ++ [x])) :
    Holds data lo (hi - 1) xs ∧ data (slot N (hi - 1)) = x := by
  have hcount := h.count
  rw [List.length_append, List.length_singleton, ahead_succ] at hcount
  have hprev : hi - 1 = ahead lo xs.length := by
    rw [hcount, BitVec.add_sub_cancel]
  refine ⟨⟨hprev, ?_, fun j hj => ?_⟩, ?_⟩
  · have := h.fits
    rw [List.length_append, List.length_singleton] at this
    omega
  · have := h.get j (by simp; omega)
    rw [this, List.getElem_append_left hj]
  · have := h.get xs.length (by simp)
    rw [hprev, this, List.getElem_concat_length rfl]

omit [Wraps N w] in
theorem split (h : Holds data lo hi (xs ++ ys)) :
    Holds data lo (ahead lo xs.length) xs ∧ Holds data (ahead lo xs.length) hi ys := by
  have hfits := h.fits
  rw [List.length_append] at hfits
  refine ⟨⟨rfl, by omega, fun j hj => ?_⟩, ⟨?_, by omega, fun j hj => ?_⟩⟩
  · have := h.get j (by rw [List.length_append]; omega)
    rw [this, List.getElem_append_left hj]
  · rw [h.count, ahead_ahead, List.length_append]
  · have := h.get (xs.length + j) (by rw [List.length_append]; omega)
    rw [ahead_ahead, this, List.getElem_append_right (Nat.le_add_right _ _)]
    simp

end Holds

end Circular
