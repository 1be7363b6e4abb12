import Xv6Paging.Machine.PageTable

/-!
# Small concrete states

A kernel of a usual size with one process and forty free pages, on which the functions of the
model can be run.  The general theorems are exercised on these states.
-/

namespace Xv6Paging

/-- A kernel with the given `SELECTION`. -/
def sampleBuild (sel : Selection) : Build where
  selection := sel
  trampoline := 0x80007000
  etext := 0x80008000
  kend := 0x80010000
  trampoline_aligned := by decide
  etext_aligned := by decide
  kernbase_le := by decide
  trampoline_le := by decide
  etext_le := by decide
  le_phystop := by decide

/-- The `k`-th page after the kernel image. -/
def samplePage (k : Nat) : Nat := 0x80010000 + k * pgsize

/-- A table rooted in page `b` that maps the trampoline and the trapframe (page `b + 5`), with a
level-0 page for the low addresses that holds the given entries. -/
def sampleTableAt (b : Nat) (entries : List (Nat × Pte)) : PageTable :=
  entries.foldl (fun pt e => pt.setLeaf e.1 e.2)
    ((((((PageTable.empty.newPage 2 255 (samplePage (b + 1))).newPage 1 (255 * 512 + 511)
      (samplePage (b + 2))).setLeaf (trampolineVa / pgsize)
        (pa2pte 0x80007000 ||| pteR ||| pteX ||| pteV)).setLeaf (trapframeVa / pgsize)
        (pa2pte (samplePage (b + 5)) ||| pteR ||| pteW ||| pteV)).newPage 2 0
        (samplePage (b + 3))).newPage 1 0 (samplePage (b + 4)))

theorem sampleTableAt_pte {b v : Nat} {entries : List (Nat × Pte)}
    (hv : v ∉ entries.map Prod.fst) (htramp : v ≠ trampolineVa / pgsize)
    (hframe : v ≠ trapframeVa / pgsize) : (sampleTableAt b entries).pte v = 0#64 := by
  have hfold : ∀ (es : List (Nat × Pte)) (pt : PageTable), v ∉ es.map Prod.fst → pt.leaf v = 0#64 →
      (es.foldl (fun pt e => pt.setLeaf e.1 e.2) pt).leaf v = 0#64 := by
    intro es
    induction es with
    | nil => exact fun _ _ h => h
    | cons e es ih =>
      intro pt hes hpt
      rw [List.map_cons, List.mem_cons, not_or] at hes
      exact ih _ hes.2 (by simp [PageTable.setLeaf, hes.1, hpt])
  have hleaf : (sampleTableAt b entries).leaf v = 0#64 := by
    refine hfold entries _ hv ?_
    simp [PageTable.setLeaf, PageTable.newPage, PageTable.empty, htramp, hframe]
  unfold PageTable.pte
  rw [hleaf, ite_self]

/-- The table of the running process, rooted in page 0. -/
def sampleTable (entries : List (Nat × Pte)) : PageTable := sampleTableAt 0 entries

/-- The entry of a resident user page. -/
def sampleUser (k : Nat) : Pte := pa2pte (samplePage k) ||| pteR ||| pteW ||| pteX ||| pteU ||| pteV

/-- The entry of a page that was evicted: its frame is stale. -/
def sampleSwapped (k : Nat) : Pte :=
  pa2pte (samplePage k) ||| pteR ||| pteW ||| pteX ||| pteU ||| ptePG

/-- A slot that records the page `v` at the file offset `off`. -/
def sampleSlot (v : Nat) (off : Int) : PageData := ⟨off, true, v * pgsize, 0#32, 0#32⟩

/-- A runnable process with no paging data. -/
def sampleProc (pid sz : Nat) : Proc :=
  { Proc.zero with
    state := .runnable
    pid := pid
    sz := sz
    pagetable := samplePage 0
    trapframe := samplePage 5
    ram := fun _ => .removed
    swap := fun _ => .removed }

/-- The zeroed kernel data. -/
def Kernel.zero : Kernel where
  freelist := []
  mem := fun _ _ => 0
  ptables := fun _ => .empty
  proc := fun _ => .zero
  cur := none
  initproc := none
  nextpid := 1
  kernelPagetable := 0
  kstack := fun _ => 0
  ftable := fun _ => .zero
  pipe := fun _ => ⟨false, false⟩
  inode := fun _ => .free
  rootdir := fun _ => none

/-- The process `pr` runs, in slot 0, with the table `pt`; the pages 20 to 59 are free. -/
def sampleKernel (pt : PageTable) (pr : Proc) : Kernel :=
  { Kernel.zero with
    freelist := (List.range 40).map fun k => samplePage (20 + k)
    ptables := Function.update (fun _ => .empty) (samplePage 0) pt
    proc := Function.update (fun _ => .zero) 0 pr
    cur := some 0
    initproc := some 1
    nextpid := pr.pid + 1 }

/-- A process whose `ram` slot `k` records the page `k`, with the given flags, ages and queue
positions. -/
def residentKernel (flags : Fin maxPsycPages → Pte) (age time : Fin maxPsycPages → BitVec 32) :
    Kernel :=
  sampleKernel
    (sampleTable ((List.finRange maxPsycPages).map fun k : Fin maxPsycPages =>
      (k.val, pa2pte (samplePage (60 + k.val)) ||| flags k)))
    { sampleProc 3 (maxPsycPages * pgsize) with
      ram := fun k => { sampleSlot k (-1) with age := age k, fifoTime := time k }
      fifoCounter := 16#32 }

/-- The same kernel with a zombie child in slot 2, of `sz` bytes, with a table in the pages 12 to
17. -/
def Kernel.withZombie (s : Kernel) (sz : Nat) (entries : List (Nat × Pte)) : Kernel :=
  { s with
    ptables := Function.update s.ptables (samplePage 12) (sampleTableAt 12 entries)
    proc := Function.update s.proc 2
      { sampleProc 4 sz with
        state := .zombie
        parent := some 0
        pagetable := samplePage 12
        trapframe := samplePage 17 } }

end Xv6Paging
