import Mathlib.Algebra.Order.Ring.Int
import Mathlib.Data.Fintype.Basic

/-!
# The Sv39 page-table entries and the memory layout

The constants and macros of `riscv.h`, `memlayout.h` and `param.h` that the memory management
uses.  Virtual addresses, sizes and page addresses are natural numbers (64-bit arithmetic is
written out with `% 2 ^ 64` where it can wrap); a page-table entry is the 64-bit word the
hardware reads.
-/

namespace Xv6Paging

variable {flag : Pte}

/-! ## Layout -/

abbrev pgsize : Nat := 4096

/-- `MAXVA`: one beyond the highest virtual address. -/
abbrev maxva : Nat := 2 ^ 38

/-- `TRAMPOLINE`: the highest page. -/
abbrev trampolineVa : Nat := maxva - pgsize

/-- `TRAPFRAME`: the page below the trampoline. -/
abbrev trapframeVa : Nat := trampolineVa - pgsize

abbrev kernbase : Nat := 0x80000000

abbrev phystop : Nat := kernbase + 128 * 1024 * 1024

abbrev nproc : Nat := 64

instance : NeZero nproc := ⟨by decide⟩

abbrev nofile : Nat := 16

abbrev nfile : Nat := 100

instance : NeZero nfile := ⟨by decide⟩

/-- `MAX_PSYC_PAGES`: the resident pages, and the swap slots, of a process. -/
abbrev maxPsycPages : Nat := 16

instance : NeZero maxPsycPages := ⟨by decide⟩

abbrev maxTotalPages : Nat := 32

/-- `PGROUNDUP` on a 64-bit value. -/
def pgroundup (sz : Nat) : Nat := (sz + (pgsize - 1)) % 2 ^ 64 / pgsize * pgsize

def pgrounddown (a : Nat) : Nat := a / pgsize * pgsize

theorem pgroundup_of_lt {sz : Nat} (h : sz + (pgsize - 1) < 2 ^ 64) :
    pgroundup sz = (sz + (pgsize - 1)) / pgsize * pgsize := by
  rw [pgroundup, Nat.mod_eq_of_lt h]

theorem pgroundup_mul {v : Nat} (h : v < 2 ^ 51) : pgroundup (v * pgsize) = v * pgsize := by
  simp only [pgroundup, pgsize]
  omega

theorem pgroundup_mod (sz : Nat) : pgroundup sz % pgsize = 0 := Nat.mul_mod_left _ _

/-! ## The compiled kernel -/

/-- The replacement policies the `SELECTION` macro of the Makefile can name. -/
inductive Policy
  | scfifo
  | nfua
  | lapa
  deriving DecidableEq, Repr

/-- The `SELECTION` macro: lazy allocation without swapping, or swapping under a policy. -/
inductive Selection
  | none
  | paging (policy : Policy)
  deriving DecidableEq, Repr

/-- One compiled kernel: its `SELECTION`, and the addresses that the linker script gives to the
page of `trampoline.S` in the kernel text, to `etext`, the end of the text, and to `end`, the
first byte after the kernel image. -/
structure Build where
  selection : Selection
  trampoline : Nat
  etext : Nat
  kend : Nat
  trampoline_aligned : trampoline % pgsize = 0
  etext_aligned : etext % pgsize = 0
  kernbase_le : kernbase ≤ trampoline
  trampoline_le : trampoline + pgsize ≤ etext
  etext_le : etext ≤ kend
  le_phystop : kend ≤ phystop

/-! ## Page-table entries -/

/-- `pte_t`. -/
abbrev Pte := BitVec 64

abbrev pteV : Pte := 1#64
abbrev pteR : Pte := 2#64
abbrev pteW : Pte := 4#64
abbrev pteX : Pte := 8#64
abbrev pteU : Pte := 16#64
abbrev pteA : Pte := 64#64

/-- `PTE_PG`: paged out to secondary storage. -/
abbrev ptePG : Pte := 512#64

/-- `pte & flag`, as a condition. -/
def hasFlag (pte flag : Pte) : Bool := pte &&& flag != 0#64

def pa2pte (pa : Nat) : Pte := (BitVec.ofNat 64 pa >>> 12) <<< 10

def pte2pa (pte : Pte) : Nat := ((pte >>> 10) <<< 12).toNat

def pteFlags (pte : Pte) : Pte := pte &&& 0x3FF#64

theorem hasFlag_eq_false {pte : Pte} : hasFlag pte flag = false ↔ pte &&& flag = 0#64 := by
  simp [hasFlag]

@[simp] theorem hasFlag_zero (flag : Pte) : hasFlag 0#64 flag = false := by
  simp [hasFlag]

@[simp] theorem hasFlag_or (x y flag : Pte) :
    hasFlag (x ||| y) flag = (hasFlag x flag || hasFlag y flag) := by
  rw [Bool.eq_iff_iff, Bool.or_eq_true, ← not_iff_not]
  simp only [Bool.not_eq_true, not_or, hasFlag_eq_false]
  constructor
  · intro h
    have hbit : ∀ i, ((x ||| y) &&& flag).getLsbD i = false := fun i => by rw [h]; simp
    constructor <;>
    · apply BitVec.eq_of_getLsbD_eq
      intro i _
      have := hbit i
      simp only [BitVec.getLsbD_and, BitVec.getLsbD_or] at this ⊢
      revert this
      cases x.getLsbD i <;> cases y.getLsbD i <;> cases flag.getLsbD i <;> simp
  · rintro ⟨hx, hy⟩
    rw [BitVec.and_or_distrib_right, hx, hy]
    rfl

/-- Clearing bits leaves a flag alone that shares none of them. -/
theorem hasFlag_clear {x g : Pte} (h : flag &&& g = 0#64) :
    hasFlag (x &&& ~~~g) flag = hasFlag x flag := by
  have hflag : x &&& ~~~g &&& flag = x &&& flag := by
    apply BitVec.eq_of_getLsbD_eq
    intro i hi
    have hbit : (flag &&& g).getLsbD i = false := by rw [h]; simp
    simp only [BitVec.getLsbD_and, BitVec.getLsbD_not, hi, decide_true, Bool.true_and] at hbit ⊢
    revert hbit
    cases x.getLsbD i <;> cases g.getLsbD i <;> cases flag.getLsbD i <;> simp
  simp only [hasFlag, hflag]

@[simp] theorem hasFlag_clear_self (x flag : Pte) : hasFlag (x &&& ~~~flag) flag = false := by
  rw [hasFlag_eq_false, BitVec.and_assoc, show ~~~flag &&& flag = 0#64 by simp, BitVec.and_zero]

theorem getLsbD_of_lt_flags (h : flag.toNat < 2 ^ 10) {i : Nat} (hi : 10 ≤ i) :
    flag.getLsbD i = false := by
  rw [BitVec.getLsbD]
  exact Nat.testBit_lt_two_pow (lt_of_lt_of_le h (Nat.pow_le_pow_right (by decide) hi))

@[simp] theorem hasFlag_pa2pte {flag : Pte} (pa : Nat) (h : flag.toNat < 2 ^ 10) :
    hasFlag (pa2pte pa) flag = false := by
  rw [hasFlag_eq_false]
  apply BitVec.eq_of_getLsbD_eq
  intro i _
  simp only [pa2pte, BitVec.getLsbD_and, BitVec.getLsbD_shiftLeft, BitVec.getLsbD_zero]
  by_cases hi : i < 10
  · simp [hi]
  · simp [getLsbD_of_lt_flags h (Nat.le_of_not_lt hi)]

theorem hasFlag_map {flag : Pte} (pa : Nat) (perm : Pte) (h : flag.toNat < 2 ^ 10) :
    hasFlag (pa2pte pa ||| perm ||| pteV) flag = (hasFlag perm flag || hasFlag pteV flag) := by
  rw [hasFlag_or, hasFlag_or, hasFlag_pa2pte pa h, Bool.false_or]

theorem hasFlag_pteFlags {flag : Pte} (pte : Pte) (h : flag &&& 0x3FF#64 = flag) :
    hasFlag (pteFlags pte) flag = hasFlag pte flag := by
  simp only [hasFlag, pteFlags]
  rw [BitVec.and_assoc, BitVec.and_comm 0x3FF#64, h]

theorem pte2pa_or {flag : Pte} (pte : Pte) (h : flag.toNat < 2 ^ 10) :
    pte2pa (pte ||| flag) = pte2pa pte := by
  have hshift : flag >>> 10 = 0#64 := by
    apply BitVec.eq_of_getLsbD_eq
    intro i _
    simp [getLsbD_of_lt_flags h]
  rw [pte2pa, pte2pa, BitVec.ushiftRight_or_distrib, hshift, BitVec.or_zero]

theorem pte2pa_clear {flag : Pte} (pte : Pte) (h : flag.toNat < 2 ^ 10) :
    pte2pa (pte &&& ~~~flag) = pte2pa pte := by
  have hshift : (pte &&& ~~~flag) >>> 10 = pte >>> 10 := by
    apply BitVec.eq_of_getLsbD_eq
    intro i hi
    simp only [BitVec.getLsbD_ushiftRight, BitVec.getLsbD_and, BitVec.getLsbD_not,
      getLsbD_of_lt_flags h (Nat.le_add_right 10 i)]
    by_cases hi' : 10 + i < 64
    · simp [hi']
    · simp [hi', BitVec.getLsbD_of_ge pte (10 + i) (by omega)]
  rw [pte2pa, pte2pa, hshift]

theorem pte2pa_pa2pte {pa : Nat} (hal : pa % pgsize = 0) (h : pa < 2 ^ 56) :
    pte2pa (pa2pte pa) = pa := by
  simp only [pgsize] at hal
  simp only [pte2pa, pa2pte, BitVec.toNat_shiftLeft, BitVec.toNat_ushiftRight, BitVec.toNat_ofNat,
    Nat.shiftLeft_eq, Nat.shiftRight_eq_div_pow]
  omega

/-- **The entry that maps a page maps that page**: `PA2PTE(pa) | perm | PTE_V`. -/
theorem pte2pa_map {pa : Nat} {perm : Pte} (hal : pa % pgsize = 0) (h : pa < 2 ^ 56)
    (hp : perm.toNat < 2 ^ 10) : pte2pa (pa2pte pa ||| perm ||| pteV) = pa := by
  rw [pte2pa_or _ (by decide), pte2pa_or _ hp, pte2pa_pa2pte hal h]

end Xv6Paging
