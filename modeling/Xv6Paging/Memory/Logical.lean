import Xv6Paging.Vm.Replace

/-!
# The memory that a process sees

A page of a process is resident (its frame holds its bytes), swapped out (its bytes are in the swap
file, at the slot that `swap` records) or reserved (`lazy_alloc` promised a page of zeros).  The
logical contents of a process are the bytes of its address space, wherever they are kept.
-/

namespace Xv6Paging

/-- A page that `lazy_alloc` reserved and no fault has given a frame: `PTE_V` and nothing else. -/
def Reserved (x : Pte) : Prop := pteFlags x = pteV

instance (x : Pte) : Decidable (Reserved x) := inferInstanceAs (Decidable (_ = _))

/-- A user page with a frame. -/
structure Resident (B : Build) (x : Pte) : Prop where
  valid : hasFlag x pteV = true
  user : hasFlag x pteU = true
  frame : IsFrame B (pte2pa x)

/-- A page whose bytes are in the swap file. -/
structure SwappedOut (x : Pte) : Prop where
  notValid : hasFlag x pteV = false
  paged : hasFlag x ptePG = true

theorem Resident.not_reserved {B : Build} {x : Pte} (h : Resident B x) : ¬Reserved x := fun hr => by
  have hU := h.user
  rw [← hasFlag_pteFlags _ (by decide), hr] at hU
  exact absurd hU (by decide)

/-- The slot of `swap` that records the page `v`. -/
def Proc.swapSlot (pr : Proc) (v : Nat) : Option (Fin maxPsycPages) :=
  findSlot (fun d => d.used && d.va == v * pgsize) pr.swap

/-- The byte `off` of the page in the slot `k` of the swap file. -/
def Kernel.swapByte (s : Kernel) (pr : Proc) (k : Fin maxPsycPages) (off : Nat) : UInt8 :=
  match pr.swapFile with
  | some f => (s.inode (s.ftable f).ip).data (k * pgsize + off)
  | none => 0

/-- **The logical contents** of a process: the byte at the address `a`. -/
def Kernel.logical (s : Kernel) (pr : Proc) (a : Nat) : UInt8 :=
  let x := (s.ptables pr.pagetable).pte (a / pgsize)
  if hasFlag x pteV then
    if Reserved x then 0 else pageBytes (s.mem (pte2pa x)) (a % pgsize)
  else if hasFlag x ptePG then
    match pr.swapSlot (a / pgsize) with
    | some k => s.swapByte pr k (a % pgsize)
    | none => 0
  else 0

theorem Kernel.logical_resident {B : Build} (s : Kernel) (pr : Proc) {a : Nat}
    (h : Resident B ((s.ptables pr.pagetable).pte (a / pgsize))) : s.logical pr a =
      pageBytes (s.mem (pte2pa ((s.ptables pr.pagetable).pte (a / pgsize)))) (a % pgsize) := by
  simp only [logical, h.valid, if_true, if_neg h.not_reserved]

end Xv6Paging
