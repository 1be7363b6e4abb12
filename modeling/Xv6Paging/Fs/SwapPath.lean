import Mathlib.Data.List.GetD
import Mathlib.Logic.Function.Basic
import Xv6Paging.Fs.Names
import Xv6Paging.Fs.SwapFile
import Xv6Paging.Sched.Pids

/-!
# The paths of swap files

`createSwapFile` and `removeSwapFile` write the path of a swap file into an array of 14 bytes: six
characters, the pid in decimal, and a NUL.  The pid is an `int` and grows with every fork.  A pid of
eight digits writes beyond the array; and of a pid of ten digits the last digit is not part of the
name that is looked up.
-/

namespace Xv6Paging.Names

open CString
open Function (update update_apply)
open List (length_append length_singleton range)

/-- The contents of the memory. -/
abbrev Mem := Nat → UInt8

/-- `digit[d]`. -/
def digit (d : Nat) : UInt8 :=
  ([ '0', '1', '2', '3', '4', '5', '6', '7', '8', '9'].map Char.toUInt8).getD d 0

/-- The loop that moves to where the representation ends. -/
def skipDigits (p shifter : Nat) : Nat :=
  if shifter / 10 = 0 then p + 1 else skipDigits (p + 1) (shifter / 10)
termination_by shifter
decreasing_by omega

/-- The loop that moves back and inserts the digits. -/
def putDigits (mem : Mem) (p i : Nat) : Mem :=
  let mem := update mem (p - 1) (digit (i % 10))
  if i / 10 = 0 then mem else putDigits mem (p - 1) (i / 10)
termination_by i
decreasing_by omega

/-- `itoa(i, b)`; the negative of `i` is an `int`. -/
def itoa (i : Int) (b : Nat) (mem : Mem) : Mem :=
  let (mem, p) := if i < 0 then (update mem b '-'.toUInt8, b + 1) else (mem, b)
  let p := skipDigits p i.natAbs
  putDigits (update mem p 0) p i.natAbs

/-- The decimal representation. -/
def decimal (n : Nat) : List UInt8 :=
  if n / 10 = 0 then [digit (n % 10)] else decimal (n / 10) ++ [digit (n % 10)]
termination_by n
decreasing_by omega

section Itoa

variable {mem : Mem} {p n : Nat}

theorem skipDigits_eq (p n : Nat) : skipDigits p n = p + (decimal n).length := by
  induction n using Nat.strong_induction_on generalizing p with
  | _ n ih =>
    rw [skipDigits, decimal]
    split
    · rfl
    · rw [ih (n / 10) (by omega), length_append, length_singleton]
      omega

theorem length_decimal_pos (n : Nat) : 0 < (decimal n).length := by
  rw [decimal]
  split
  · exact Nat.zero_lt_one
  · rw [length_append, length_singleton]
    omega

theorem putDigits_apply (hp : (decimal n).length ≤ p) (k : Nat) : putDigits mem p n k =
      if p - (decimal n).length ≤ k ∧ k < p then (decimal n).getD (k - (p - (decimal n).length)) 0
      else mem k := by
  induction n using Nat.strong_induction_on generalizing p mem with
  | _ n ih =>
    rw [putDigits]
    rw [decimal] at hp ⊢
    by_cases hlast : n / 10 = 0
    · rw [if_pos hlast] at hp ⊢
      rw [if_pos hlast, update_apply]
      rw [length_singleton] at hp ⊢
      by_cases hk : k = p - 1
      · rw [if_pos hk, if_pos (by omega), show k - (p - 1) = 0 by omega]
        rfl
      · rw [if_neg hk, if_neg (by omega)]
    · rw [if_neg hlast] at hp ⊢
      rw [length_append, length_singleton] at hp
      rw [if_neg hlast, ih (n / 10) (by omega) (by omega), length_append,
        length_singleton, update_apply]
      set len := (decimal (n / 10)).length with hlen
      by_cases hk : p - 1 - len ≤ k ∧ k < p - 1
      · rw [if_pos hk, if_pos (by omega), List.getD_append _ _ _ _ (by omega)]
        congr 1
        omega
      · rw [if_neg hk]
        by_cases hk' : k = p - 1
        · rw [if_pos hk', if_pos (by omega), List.getD_append_right _ _ _ _ (by omega)]
          rw [show k - (p - (len + 1)) - (decimal (n / 10)).length = 0 by omega]
          rfl
        · rw [if_neg hk', if_neg (by omega)]

theorem putDigits_skipDigits (p n k : Nat) (mem : Mem) :
    putDigits (update mem (skipDigits p n) 0) (skipDigits p n) n k =
      if p ≤ k ∧ k ≤ p + (decimal n).length then (decimal n).getD (k - p) 0 else mem k := by
  rw [skipDigits_eq, putDigits_apply (Nat.le_add_left _ _), Nat.add_sub_cancel,
    update_apply]
  by_cases hk : p ≤ k ∧ k < p + (decimal n).length
  · rw [if_pos hk, if_pos (by omega)]
  · rw [if_neg hk]
    by_cases hend : k = p + (decimal n).length
    · rw [if_pos hend, if_pos (by omega), List.getD_eq_default _ _ (by omega)]
    · rw [if_neg hend, if_neg (by omega)]

/-- **`itoa`** of a number that is not negative writes its decimal representation and a NUL. -/
theorem itoa_nonneg (n b k : Nat) (mem : Mem) : itoa n b mem k =
      if b ≤ k ∧ k ≤ b + (decimal n).length then (decimal n).getD (k - b) 0 else mem k := by
  have hneg : ¬(n : Int) < 0 := by omega
  unfold itoa
  rw [if_neg hneg]
  exact putDigits_skipDigits b n k mem

/-- **`itoa`** of a negative number writes the sign before the representation. -/
theorem itoa_neg {i : Int} (hi : i < 0) (b k : Nat) (mem : Mem) : itoa i b mem k =
      if b ≤ k ∧ k ≤ b + 1 + (decimal i.natAbs).length then
        ('-'.toUInt8 :: decimal i.natAbs).getD (k - b) 0 else mem k := by
  unfold itoa
  rw [if_pos hi]
  dsimp only
  rw [putDigits_skipDigits, update_apply]
  rcases Nat.lt_trichotomy k b with hk | rfl | hk
  · rw [if_neg (by omega), if_neg (by omega), if_neg (by omega)]
  · rw [if_neg (by omega), if_pos rfl, if_pos (by omega), Nat.sub_self]
    rfl
  · rw [if_neg (show k ≠ b by omega)]
    by_cases hend : k ≤ b + 1 + (decimal i.natAbs).length
    · rw [if_pos (by omega), if_pos (by omega), show k - b = k - (b + 1) + 1 by omega]
      rfl
    · rw [if_neg (by omega), if_neg (by omega)]

end Itoa

/-! ## Numbers and their representations -/

section Decimal

variable {m n : Nat}

theorem digit_inj : ∀ d < 10, ∀ e < 10, digit d = digit e → d = e := by decide

theorem digit_ne : ∀ d < 10, digit d ≠ 0 ∧ digit d ≠ '/'.toUInt8 := by decide

theorem decimal_mem {c : UInt8} (h : c ∈ decimal n) : c ≠ 0 ∧ c ≠ '/'.toUInt8 := by
  induction n using Nat.strong_induction_on with
  | _ n ih =>
    rw [decimal] at h
    split at h
    · rw [List.mem_singleton] at h
      exact h ▸ digit_ne _ (Nat.mod_lt n (by decide))
    · rcases List.mem_append.mp h with h | h
      · exact ih (n / 10) (by omega) h
      · rw [List.mem_singleton] at h
        exact h ▸ digit_ne _ (Nat.mod_lt n (by decide))

theorem decimal_concat (h : n / 10 ≠ 0) : decimal n = decimal (n / 10) ++ [digit (n % 10)] := by
  rw [decimal, if_neg h]

theorem decimal_inj (h : decimal m = decimal n) : m = n := by
  induction m using Nat.strong_induction_on generalizing n with
  | _ m ih =>
    have hm := length_decimal_pos (m / 10)
    have hn := length_decimal_pos (n / 10)
    have hlt : ∀ x, x % 10 < 10 := fun x => Nat.mod_lt x (by decide)
    unfold decimal at h
    split at h <;> split at h
    · have := digit_inj _ (hlt m) _ (hlt n) (List.singleton_inj.mp h)
      omega
    · have := congrArg List.length h
      simp only [length_append, length_singleton] at this
      omega
    · have := congrArg List.length h
      simp only [length_append, length_singleton] at this
      omega
    · obtain ⟨hinit, hlast⟩ := List.append_inj' h rfl
      have hdiv := ih (m / 10) (by omega) hinit
      have hmod := digit_inj _ (hlt m) _ (hlt n) (List.singleton_inj.mp hlast)
      omega

theorem length_decimal_le {k : Nat} (hk : 0 < k) : (decimal n).length ≤ k ↔ n < 10 ^ k := by
  induction k generalizing n with
  | zero => exact absurd hk (Nat.lt_irrefl 0)
  | succ k ih =>
    rw [decimal]
    split
    · rename_i hlast
      have hpow : 10 ≤ 10 ^ (k + 1) := Nat.le_self_pow (Nat.succ_ne_zero k) 10
      rw [length_singleton]
      omega
    · rename_i hmore
      rw [length_append, length_singleton, Nat.add_le_add_iff_right]
      rcases Nat.eq_zero_or_pos k with rfl | hpos
      · have := length_decimal_pos (n / 10)
        rw [Nat.zero_add, pow_one]
        omega
      · rw [ih hpos, pow_succ, Nat.div_lt_iff_lt_mul (by decide)]

end Decimal

/-! ## The path -/

/-- `DIGITS`, the size of the array. -/
abbrev digits : Nat := 14

/-- The characters before the pid. -/
def swapPrefix : List UInt8 := [ '/', '.', 's', 'w', 'a', 'p'].map Char.toUInt8

/-- `memmove(path, "/.swap", 6)` and `itoa(pid, path + 6)`, for an array `path` at the address 0. -/
def swapPath (pid : Nat) (mem : Mem) : Mem :=
  itoa pid 6 fun k => if k < 6 then swapPrefix.getD k 0 else mem k

/-- Nothing is written beyond the array. -/
def InArray (pid : Nat) : Prop := ∀ mem k, digits ≤ k → swapPath pid mem k = mem k

/-- The string in memory; the longest has six characters, ten digits and a NUL. -/
def swapString (pid : Nat) (mem : Mem) : List UInt8 :=
  upto 17 ((range 17).map (swapPath pid mem))

/-- The name that `skipelem` makes of the path; `name` is its array before. -/
def swapComponent (pid : Nat) (mem : Mem) (name : List UInt8) : Option (List UInt8) :=
  (skipelem (swapString pid mem) name).map fun r => key r.2

/-- A number that `allocpid` can return. -/
def IsPid (pid : Nat) : Prop := 0 < pid ∧ pid < 2 ^ 31

section Paths

variable {pid pid' : Nat} {mem mem' : Mem} {name name' : List UInt8}

theorem swapPath_apply (pid : Nat) (mem : Mem) (k : Nat) : swapPath pid mem k =
      if k ≤ 6 + (decimal pid).length then (swapPrefix ++ decimal pid).getD k 0 else mem k := by
  have hlen : swapPrefix.length = 6 := rfl
  rw [swapPath, itoa_nonneg]
  by_cases hk : k < 6
  · rw [if_neg (by omega), if_pos hk, if_pos (by omega), List.getD_append _ _ _ _ (by omega)]
  · by_cases hend : k ≤ 6 + (decimal pid).length
    · rw [if_pos (by omega), if_pos hend, List.getD_append_right _ _ _ _ (by omega)]
      rfl
    · rw [if_neg (by omega), if_neg hk, if_neg hend]

theorem inArray_iff : InArray pid ↔ pid < 10 ^ 7 := by
  rw [← length_decimal_le (by decide)]
  constructor
  · intro h
    by_contra hlong
    -- the NUL is beyond the array
    have hone := h (fun _ => 1) (6 + (decimal pid).length) (by simp only [digits]; omega)
    rw [swapPath_apply, if_pos le_rfl, List.getD_eq_default] at hone
    · exact absurd hone (by decide)
    · rw [length_append]
      exact le_rfl
  · intro hlen mem k hk
    rw [swapPath_apply, if_neg]
    simp only [digits] at hk
    omega

theorem swapString_eq (h : IsPid pid) (mem : Mem) :
    swapString pid mem = swapPrefix ++ decimal pid := by
  have hlen : (decimal pid).length ≤ 10 := by
    rw [length_decimal_le (by decide)]
    exact h.2.trans (by decide)
  have h0 : 0 ∉ swapPrefix ++ decimal pid := by
    intro hmem
    rcases List.mem_append.mp hmem with hmem | hmem
    · revert hmem
      decide
    · exact (decimal_mem hmem).1 rfl
  have hplen : (swapPrefix ++ decimal pid).length = 6 + (decimal pid).length :=
    length_append
  -- what is read is the string, its NUL and what comes after
  have hread : (range 17).map (swapPath pid mem) = (swapPrefix ++ decimal pid) ++
      0 :: ((range 17).map (swapPath pid mem)).drop (6 + (decimal pid).length + 1) := by
    apply List.ext_getElem
    · simp only [List.length_map, List.length_range, length_append, List.length_cons,
        List.length_drop, hplen]
      rw [length_append] at hplen
      omega
    · intro k hk hk'
      rw [List.length_map, List.length_range] at hk
      rw [List.getElem_map, List.getElem_range, swapPath_apply]
      rcases Nat.lt_trichotomy k (6 + (decimal pid).length) with hlt | heq | hgt
      · rw [if_pos (by omega), List.getElem_append_left (by omega),
          List.getD_eq_getElem _ _ (by omega)]
      · rw [if_pos (by omega), List.getD_eq_default _ _ (by omega),
          List.getElem_append_right (by omega)]
        simp [heq, hplen]
      · rw [if_neg (by omega), List.getElem_append_right (by omega), List.getElem_cons,
          dif_neg (by omega), List.getElem_drop, List.getElem_map, List.getElem_range,
          swapPath_apply, if_neg (by omega)]
        congr 1
        omega
  rw [swapString, hread, upto_append_nul h0 (by omega)]

theorem swapComponent_eq (h : IsPid pid) (mem : Mem) (name : List UInt8) :
    swapComponent pid mem name = some (swapPrefix.drop 1 ++ (decimal pid).take 9) := by
  have hstring : swapString pid mem = '/'.toUInt8 :: (swapPrefix.drop 1 ++ decimal pid) :=
    swapString_eq h mem
  have h0 : 0 ∉ swapString pid mem := nonzero_upto
  have hslash : '/'.toUInt8 ∉ swapPrefix.drop 1 ++ decimal pid := by
    intro hmem
    rcases List.mem_append.mp hmem with hmem | hmem
    · revert hmem
      decide
    · exact (decimal_mem hmem).2 rfl
  have hcomp : components (swapString pid mem) = [swapPrefix.drop 1 ++ decimal pid] := by
    have happ := components_append (r := []) (List.append_ne_nil_of_left_ne_nil (by decide) _)
      hslash (.inl rfl)
    rw [List.append_nil] at happ
    rw [hstring, components_slash, happ]
    rfl
  rcases skipelem_cases h0 name with ⟨-, hnone⟩ | ⟨e, path', name', hsome, he, hkey, -⟩
  · rw [hcomp] at hnone
    cases hnone
  · rw [hcomp] at he
    obtain ⟨rfl, -⟩ := List.cons.inj he
    rw [swapComponent, hsome, Option.map_some, hkey]
    rfl

theorem swapComponent_ne (h : IsPid pid) (h' : IsPid pid') (hne : pid ≠ pid') (hlt : pid < 10 ^ 7)
    (hlt' : pid' < 10 ^ 7) : swapComponent pid mem name ≠ swapComponent pid' mem' name' := by
  rw [swapComponent_eq h, swapComponent_eq h']
  have htake : ∀ {n}, n < 10 ^ 7 → (decimal n).take 9 = decimal n := by
    intro n hn
    have := (length_decimal_le (k := 7) (by decide)).mpr hn
    exact List.take_of_length_le (by omega)
  rw [htake hlt, htake hlt']
  intro heq
  exact hne (decimal_inj (List.append_cancel_left (Option.some.inj heq)))

end Paths

/-- **The paths of two pids** are in their arrays, and have different names, exactly if both pids
have at most seven digits.  So in every run in which no pid has more digits, no two processes have
the same swap file. -/
theorem swap_paths_iff {pid pid' : Nat} (h : IsPid pid) (h' : IsPid pid') (hne : pid ≠ pid') :
    ((InArray pid ∧ InArray pid' ∧ ∀ mem mem' name name',
        swapComponent pid mem name ≠ swapComponent pid' mem' name') ↔
      pid < 10 ^ 7 ∧ pid' < 10 ^ 7) ∧
    ∀ {n : Nat} {init : Fin n} {s : FamilySystem n}, FamilyReachable init s →
      (∀ i, (s.slot i).state ≠ .unused → IsPid (s.slot i).pid ∧ (s.slot i).pid < 10 ^ 7) →
      ∀ i j, i ≠ j → (s.slot i).state ≠ .unused → (s.slot j).state ≠ .unused →
        ∀ mem mem' name name', swapComponent (s.slot i).pid mem name ≠
          swapComponent (s.slot j).pid mem' name' := by
  refine ⟨?_, fun {n init s} hrun hpids i j hij hi hj => ?_⟩
  · rw [inArray_iff, inArray_iff]
    constructor
    · rintro ⟨hlt, hlt', -⟩
      exact ⟨hlt, hlt'⟩
    · rintro ⟨hlt, hlt'⟩
      exact ⟨hlt, hlt', fun mem mem' name name' => swapComponent_ne h h' hne hlt hlt'⟩
  · intro mem mem' name name'
    have hne : (s.slot i).pid ≠ (s.slot j).pid := fun heq =>
      hij ((PidInv.reachable hrun).inj i j hi hj heq)
    exact swapComponent_ne (hpids i hi).1 (hpids j hj).1 hne (hpids i hi).2 (hpids j hj).2

theorem swap_paths_three_four : IsPid 3 ∧ IsPid 4 ∧ InArray 3 ∧ InArray 4 ∧
    ∀ mem mem' name name', swapComponent 3 mem name ≠ swapComponent 4 mem' name' := by
  have h3 : IsPid 3 := ⟨by decide, by decide⟩
  have h4 : IsPid 4 := ⟨by decide, by decide⟩
  have hboth := (swap_paths_iff h3 h4 (by decide)).1.mpr ⟨by decide, by decide⟩
  exact ⟨h3, h4, hboth⟩

/-- A pid of eight digits is written beyond the array, and two pids of ten digits have one name. -/
theorem long_pids : IsPid 10000000 ∧ ¬InArray 10000000 ∧
    IsPid 1000000000 ∧ IsPid 1000000001 ∧ ∀ mem mem' name name',
      swapComponent 1000000000 mem name = swapComponent 1000000001 mem' name' := by
  have h1 : IsPid 1000000000 := ⟨by decide, by decide⟩
  have h2 : IsPid 1000000001 := ⟨by decide, by decide⟩
  refine ⟨⟨by decide, by decide⟩, ?_, h1, h2, fun mem mem' name name' => ?_⟩
  · rw [inArray_iff]
    decide
  · rw [swapComponent_eq h1, swapComponent_eq h2, decimal_concat (by decide),
      decimal_concat (n := 1000000001) (by decide)]
    have hlen : (decimal 100000000).length = 9 := by
      have hle := (length_decimal_le (n := 100000000) (k := 9) (by decide)).mpr (by decide)
      have hge := mt (length_decimal_le (n := 100000000) (k := 8) (by decide)).mp (by decide)
      omega
    have htake : ∀ d, (decimal 100000000 ++ [d]).take 9 = decimal 100000000 := fun d =>
      List.take_left' hlen
    rw [htake, htake]

end Xv6Paging.Names
