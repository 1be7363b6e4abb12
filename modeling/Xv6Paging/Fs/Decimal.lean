import Xv6Paging.Fs.SwapPath

/-!
# Numbers in decimal

`itoa` of the kernel writes an `int` in decimal and `atoi` of the user library reads one.  What a
string of digits stands for is a number of its own, `value`, and `itoa` writes the shortest string
for a number.

`atoi` adds a character before it subtracts `'0'`, and for the largest numbers this sum is no `int`;
its arithmetic is therefore that of the machine, modulo `2 ^ 32`.
-/

namespace Xv6Paging.Names

open CString

/-- `'0' <= c && c <= '9'`. -/
def IsDigit (c : UInt8) : Prop := '0'.toUInt8 ≤ c ∧ c ≤ '9'.toUInt8

instance (c : UInt8) : Decidable (IsDigit c) := inferInstanceAs (Decidable (_ ∧ _))

/-- The loop of `atoi` at the address `s`. -/
def atoiLoop (mem : Mem) : Nat → Nat → BitVec 32 → Option (BitVec 32)
  | 0, _, _ => none
  | fuel + 1, s, n =>
    if IsDigit (mem s) then
      atoiLoop mem fuel (s + 1) (n * 10 + BitVec.ofNat 32 (mem s).toNat - 48)
    else some n

/-- `atoi(s)`; a string with more than `fuel` digits is not read to its end. -/
def atoi (mem : Mem) (s fuel : Nat) : Option Int := (atoiLoop mem fuel s 0).map BitVec.toInt

/-! ## Strings of digits -/

/-- One more digit. -/
def addDigit (n : Nat) (c : UInt8) : Nat := n * 10 + (c.toNat - 48)

/-- The number that digits stand for. -/
def value (s : List UInt8) : Nat := s.foldl addDigit 0

/-- The string represents the number. -/
structure Represents (s : List UInt8) (n : Nat) : Prop where
  nonempty : s ≠ []
  digits : ∀ c ∈ s, IsDigit c
  value : value s = n

/-- No other string that represents the number is shorter. -/
def Shortest (s : List UInt8) (n : Nat) : Prop :=
  Represents s n ∧ ∀ t, Represents t n → s.length ≤ t.length

section Digits

variable {s : List UInt8} {c : UInt8} {n : Nat}

theorem value_concat (s : List UInt8) (c : UInt8) :
    value (s ++ [c]) = value s * 10 + (c.toNat - 48) := by
  simp [value, addDigit]

theorem IsDigit.toNat_bounds (h : IsDigit c) : 48 ≤ c.toNat ∧ c.toNat ≤ 57 := h

theorem isDigit_digit : ∀ d < 10, IsDigit (digit d) ∧ (digit d).toNat = 48 + d := by decide

theorem value_lt (h : ∀ c ∈ s, IsDigit c) : value s < 10 ^ s.length := by
  induction s using List.reverseRecOn with
  | nil => exact Nat.one_pos
  | append_singleton s c ih =>
    have hs := ih fun d hd => h d (List.mem_append_left _ hd)
    have hc := (h c (List.mem_append_right _ List.mem_cons_self)).toNat_bounds
    rw [value_concat, List.length_append, List.length_singleton, pow_succ]
    omega

theorem decimal_represents (n : Nat) : Represents (decimal n) n := by
  induction n using Nat.strong_induction_on with
  | _ n ih =>
    obtain ⟨hlast, hval⟩ := isDigit_digit (n % 10) (Nat.mod_lt n (by decide))
    rw [decimal]
    split
    · rename_i hsmall
      refine ⟨List.cons_ne_nil _ _, fun c hc => ?_, ?_⟩
      · rwa [List.mem_singleton.mp hc]
      · rw [← List.nil_append [digit _], value_concat, hval]
        show 0 * 10 + _ = n
        omega
    · obtain ⟨-, hdigits, hrest⟩ := ih (n / 10) (by omega)
      refine ⟨by simp, fun c hc => ?_, ?_⟩
      · rcases List.mem_append.mp hc with hc | hc
        · exact hdigits c hc
        · rwa [List.mem_singleton.mp hc]
      · rw [value_concat, hrest, hval]
        omega

/-- **`decimal`** is the shortest representation. -/
theorem decimal_shortest (n : Nat) : Shortest (decimal n) n := by
  refine ⟨decimal_represents n, fun t ht => ?_⟩
  rw [length_decimal_le (List.length_pos_iff.mpr ht.nonempty), ← ht.value]
  exact value_lt ht.digits

end Digits

/-! ## Strings in memory -/

/-- The string at the address `b`. -/
structure Reads (mem : Mem) (b : Nat) (s : List UInt8) : Prop where
  chars : ∀ k < s.length, mem (b + k) = s.getD k 0
  nul : mem (b + s.length) = 0
  nonzero : 0 ∉ s

/-- The string is written at the address `b`, and nothing else. -/
structure Writes (mem : Mem) (b : Nat) (s : List UInt8) (mem' : Mem) : Prop
    extends Reads mem' b s where
  rest : ∀ k, k < b ∨ b + s.length < k → mem' k = mem k

section Memory

variable {mem mem' : Mem} {b b' : Nat} {s t : List UInt8}

theorem Reads.head {c : UInt8} (h : Reads mem b (c :: s)) : mem b = c :=
  h.chars 0 (Nat.succ_pos _)

theorem Reads.tail {c : UInt8} (h : Reads mem b (c :: s)) : Reads mem (b + 1) s where
  chars k hk := by
    rw [Nat.add_right_comm, Nat.add_assoc]
    exact h.chars (k + 1) (Nat.succ_lt_succ hk)
  nul := by
    rw [Nat.add_right_comm, Nat.add_assoc]
    exact h.nul
  nonzero hmem := h.nonzero (List.mem_cons_of_mem c hmem)

theorem Reads.unique (h : Reads mem b s) (h' : Reads mem b t) : s = t := by
  induction s generalizing b t with
  | nil =>
    have hnul : mem b = 0 := h.nul
    cases t with
    | nil => rfl
    | cons d t =>
      rw [h'.head] at hnul
      exact absurd (hnul ▸ List.mem_cons_self) h'.nonzero
  | cons c s ih =>
    cases t with
    | nil =>
      have hnul : mem b = 0 := h'.nul
      rw [h.head] at hnul
      exact absurd (hnul ▸ List.mem_cons_self) h.nonzero
    | cons d t => rw [← h.head, ← h'.head, ih h.tail h'.tail]

theorem writes_of_apply (hs : 0 ∉ s)
    (h : ∀ k, mem' k = if b ≤ k ∧ k ≤ b + s.length then s.getD (k - b) 0 else mem k) :
    Writes mem b s mem' where
  chars k hk := by rw [h, if_pos (by omega), Nat.add_sub_cancel_left]
  nul := by rw [h, if_pos (by omega), Nat.add_sub_cancel_left, List.getD_eq_default _ _ (by omega)]
  nonzero := hs
  rest k hk := by rw [h, if_neg (by omega)]

theorem ofNat_addDigit {c : UInt8} (hc : IsDigit c) (n : Nat) :
    BitVec.ofNat 32 n * 10 + BitVec.ofNat 32 c.toNat - 48 = BitVec.ofNat 32 (addDigit n c) := by
  have hbounds := hc.toNat_bounds
  have h10 : (10 : BitVec 32).toNat = 10 := rfl
  have h48 : (48 : BitVec 32).toNat = 48 := rfl
  apply BitVec.eq_of_toNat_eq
  simp only [h10, h48, addDigit, BitVec.toNat_sub, BitVec.toNat_add, BitVec.toNat_mul,
    BitVec.toNat_ofNat]
  omega

theorem atoiLoop_of_reads (h : Reads mem b s) (hdigits : ∀ c ∈ s, IsDigit c) {fuel : Nat}
    (hfuel : s.length < fuel) (n : Nat) :
    atoiLoop mem fuel b (BitVec.ofNat 32 n) = some (BitVec.ofNat 32 (s.foldl addDigit n)) := by
  induction s generalizing b fuel n with
  | nil =>
    obtain ⟨fuel, rfl⟩ := Nat.exists_eq_succ_of_ne_zero (Nat.ne_of_gt hfuel)
    have hnul : mem b = 0 := h.nul
    rw [atoiLoop, hnul, if_neg (by decide)]
    rfl
  | cons c s ih =>
    obtain ⟨fuel, rfl⟩ := Nat.exists_eq_succ_of_ne_zero (Nat.ne_of_gt (Nat.zero_lt_of_lt hfuel))
    have hc := hdigits c List.mem_cons_self
    rw [atoiLoop, h.head, if_pos hc, ofNat_addDigit hc]
    exact ih h.tail (fun d hd => hdigits d (List.mem_cons_of_mem c hd))
      (Nat.lt_of_succ_lt_succ hfuel) _

/-- **`atoi`** returns what the digits stand for, if that is an `int`. -/
theorem atoi_of_reads {n : Nat} (h : Reads mem b s) (hs : Represents s n) (hn : n < 2 ^ 31)
    {fuel : Nat} (hfuel : s.length < fuel) : atoi mem b fuel = some (n : Int) := by
  have hloop := atoiLoop_of_reads h hs.digits hfuel 0
  have hval : s.foldl addDigit 0 = n := hs.value
  rw [hval] at hloop
  rw [atoi, show (0 : BitVec 32) = BitVec.ofNat 32 0 from rfl, hloop, Option.map_some]
  have hnat : (BitVec.ofNat 32 n).toNat = n := by
    rw [BitVec.toNat_ofNat]
    exact Nat.mod_eq_of_lt (by omega)
  rw [BitVec.toInt_eq_toNat_of_lt (by omega), hnat]

theorem itoa_writes_nonneg (n b : Nat) (mem : Mem) : Writes mem b (decimal n) (itoa n b mem) :=
  writes_of_apply (fun h => (decimal_mem h).1 rfl) fun k => itoa_nonneg n b k mem

theorem itoa_writes_neg {i : Int} (hi : i < 0) (b : Nat) (mem : Mem) :
    Writes mem b ('-'.toUInt8 :: decimal i.natAbs) (itoa i b mem) := by
  refine writes_of_apply ?_ fun k => ?_
  · rw [List.mem_cons, not_or]
    exact ⟨by decide, fun h => (decimal_mem h).1 rfl⟩
  · rw [itoa_neg hi, List.length_cons, Nat.add_assoc, Nat.add_comm 1]

/-- **`itoa` writes the shortest decimal representation**, with a sign before it if the number is
negative, and a NUL after it.  `atoi` reads a number back that is not negative, so that two such
numbers have different strings. -/
theorem itoa_decimal (i : Int) (hmin : -2 ^ 31 < i) (hmax : i < 2 ^ 31) (b : Nat) (mem : Mem) :
    (0 ≤ i → ∃ s, Shortest s i.toNat ∧ Writes mem b s (itoa i b mem) ∧
      (∀ fuel, s.length < fuel → atoi (itoa i b mem) b fuel = some i) ∧
      ∀ (j : Int) (b' : Nat) (mem' : Mem) (t : List UInt8), 0 ≤ j → Reads (itoa i b mem) b t →
        Reads (itoa j b' mem') b' t → i = j) ∧
    (i < 0 → ∃ s, Shortest s (-i).toNat ∧ Writes mem b ('-'.toUInt8 :: s) (itoa i b mem)) := by
  constructor
  · intro hi
    obtain ⟨n, rfl⟩ := Int.eq_ofNat_of_zero_le hi
    have hw := itoa_writes_nonneg n b mem
    refine ⟨decimal n, decimal_shortest n, hw, fun fuel hfuel => ?_, ?_⟩
    · exact atoi_of_reads hw.toReads (decimal_represents n) (by omega) hfuel
    · intro j b' mem' t hj ht ht'
      obtain ⟨m, rfl⟩ := Int.eq_ofNat_of_zero_le hj
      have hm := ht'.unique (itoa_writes_nonneg m b' mem').toReads
      have hn := ht.unique hw.toReads
      rw [decimal_inj (hn.symm.trans hm)]
  · intro hi
    have habs : (-i).toNat = i.natAbs := by omega
    rw [habs]
    exact ⟨decimal i.natAbs, decimal_shortest _, itoa_writes_neg hi b mem⟩

/-- The largest `int`, for which `atoi` leaves the range on its way. -/
theorem itoa_decimal_max : ∃ s, Shortest s 2147483647 ∧
    Writes (fun _ => 7) 0 s (itoa 2147483647 0 fun _ => 7) ∧
    ∀ fuel, s.length < fuel → atoi (itoa 2147483647 0 fun _ => 7) 0 fuel = some 2147483647 := by
  obtain ⟨s, hs, hw, hread, -⟩ :=
    (itoa_decimal 2147483647 (by decide) (by decide) 0 fun _ => 7).1 (by decide)
  exact ⟨s, hs, hw, hread⟩

end Memory

end Xv6Paging.Names
