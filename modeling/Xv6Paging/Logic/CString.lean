import Mathlib.Data.List.Basic
import Mathlib.Data.List.TakeWhile

/-!
# NUL-terminated strings

A string is the list of its characters before the NUL, and a pointer into it is what is left of it.
A function that compares or copies at most `n` characters sees the first `n` up to the NUL.
-/

namespace CString

/-- A string, without the NUL at its end. -/
structure Str where
  chars : List UInt8
  nonzero : 0 ∉ chars

/-- `s[i]`, if the string is not shorter than `i`. -/
def char (s : List UInt8) (i : Nat) : UInt8 := s.getD i 0

@[simp] theorem char_nil (i : Nat) : char [] i = 0 := rfl

@[simp] theorem char_cons_zero (c : UInt8) (s : List UInt8) : char (c :: s) 0 = c := rfl

@[simp] theorem char_cons_succ (c : UInt8) (s : List UInt8) (i : Nat) :
    char (c :: s) (i + 1) = char s i := rfl

theorem length_pos_of_char {s : List UInt8} (h : char s 0 ≠ 0) : 0 < s.length := by
  cases s with
  | nil => exact absurd rfl h
  | cons c s => exact Nat.succ_pos _

def strncmp (p q : List UInt8) : Nat → Int
  | 0 => 0
  | n + 1 =>
    if char p 0 ≠ 0 ∧ char p 0 = char q 0 then strncmp (p.drop 1) (q.drop 1) n
    else (char p 0).toNat - (char q 0).toNat

/-- `strncpy`: the `n` bytes that it writes. -/
def strncpy (t : List UInt8) : Nat → List UInt8
  | 0 => []
  | n + 1 =>
    if char t 0 ≠ 0 then char t 0 :: strncpy (t.drop 1) n
    else List.replicate (n + 1) 0

/-- The first `n` characters, up to a NUL. -/
def upto (n : Nat) (s : List UInt8) : List UInt8 := (s.take n).takeWhile (· ≠ 0)

section Upto

variable {n : Nat} {s t : List UInt8}

theorem upto_succ (n : Nat) (s : List UInt8) :
    upto (n + 1) s = if char s 0 = 0 then [] else char s 0 :: upto n (s.drop 1) := by
  cases s with
  | nil => rfl
  | cons c s =>
    rw [upto, List.take_succ_cons, char_cons_zero]
    by_cases hc : c = 0
    · rw [if_pos hc, List.takeWhile_cons_of_neg (by simp [hc])]
    · rw [if_neg hc, List.takeWhile_cons_of_pos (by simp [hc])]
      rfl

theorem upto_of_nonzero (h : 0 ∉ s) : upto n s = s.take n := by
  rw [upto, List.takeWhile_eq_self_iff]
  intro c hc
  have hne : c ≠ 0 := fun h0 => h (h0 ▸ List.mem_of_mem_take hc)
  simpa using hne

theorem nonzero_upto : 0 ∉ upto n s := by
  intro h
  have := List.mem_takeWhile_imp h
  simp at this

theorem upto_append_nul {r : List UInt8} (h : 0 ∉ s) (hlen : s.length < n) :
    upto n (s ++ 0 :: r) = s := by
  induction s generalizing n with
  | nil =>
    obtain ⟨n, rfl⟩ := Nat.exists_eq_succ_of_ne_zero (Nat.ne_of_gt hlen)
    rw [List.nil_append, upto_succ, char_cons_zero, if_pos rfl]
  | cons c s ih =>
    obtain ⟨n, rfl⟩ := Nat.exists_eq_succ_of_ne_zero (Nat.ne_of_gt (Nat.zero_lt_of_lt hlen))
    rw [List.mem_cons, not_or] at h
    rw [List.cons_append, upto_succ, char_cons_zero, if_neg (Ne.symm h.1), List.drop_one,
      List.tail_cons, ih h.2 (Nat.lt_of_succ_lt_succ hlen)]

/-- **`strncmp`** compares the first characters. -/
theorem strncmp_eq_zero : strncmp s t n = 0 ↔ upto n s = upto n t := by
  induction n generalizing s t with
  | zero => simp [strncmp, upto]
  | succ n ih =>
    rw [strncmp, upto_succ, upto_succ]
    by_cases heq : char s 0 = char t 0
    · by_cases h0 : char s 0 = 0
      · rw [if_neg fun h => h.1 h0, if_pos h0, if_pos (heq ▸ h0), heq]
        simp
      · rw [if_pos ⟨h0, heq⟩, ih, if_neg h0, if_neg (heq ▸ h0), heq, List.cons.injEq]
        simp
    · -- the first characters differ
      rw [if_neg fun h => heq h.2]
      have hne : ((char s 0).toNat : Int) - (char t 0).toNat ≠ 0 := by
        intro h
        exact heq (UInt8.toNat_inj.mp (by omega))
      refine ⟨fun h => absurd h hne, fun h => absurd ?_ heq⟩
      by_cases hs : char s 0 = 0 <;> by_cases ht : char t 0 = 0
      · rw [hs, ht]
      · rw [if_pos hs, if_neg ht] at h
        cases h
      · rw [if_neg hs, if_pos ht] at h
        cases h
      · rw [if_neg hs, if_neg ht] at h
        exact (List.cons.inj h).1

theorem length_strncpy : (strncpy t n).length = n := by
  induction n generalizing t with
  | zero => rfl
  | succ n ih =>
    rw [strncpy]
    split
    · rw [List.length_cons, ih]
    · exact List.length_replicate

/-- **`strncpy`** copies the first characters. -/
theorem upto_strncpy : upto n (strncpy t n) = upto n t := by
  induction n generalizing t with
  | zero => rfl
  | succ n ih =>
    rw [upto_succ, upto_succ, strncpy]
    by_cases h0 : char t 0 = 0
    · rw [if_neg (not_not.mpr h0), if_pos h0, List.replicate_succ, char_cons_zero, if_pos rfl]
    · rw [if_pos h0, char_cons_zero, if_neg h0, if_neg h0, List.drop_one, List.tail_cons, ih]

end Upto

end CString
