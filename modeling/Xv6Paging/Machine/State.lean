import Mathlib.Logic.Function.Basic
import Xv6Paging.Logic.Wp
import Xv6Paging.Machine.Riscv

/-!
# The kernel state

The data the memory management reads and writes: the free list, the contents of the physical
pages, the page tables, the process table with its `ram` and `swap` arrays, and the open files
behind the swap files.  A kernel function is a program over this state that may halt: by a
`panic`, or because `exit` never returns.

A page table is the value of the tree of page-table pages below its root page: `dir level idx`
is the page that the entry for the addresses `va` with `va >> PXSHIFT(level) = idx` points to
(level 2: a level-1 page, level 1: a level-0 page), `leaf` are the words of the level-0 pages.
The page tables are kept by the address of their root page, so a `pagetable_t` is that address
and two processes share a table only if they hold the same address.
-/

namespace Xv6Paging

/-- The bytes of a physical page. -/
abbrev Page := Fin pgsize → UInt8

/-- The bytes of a page, as the source of a copy. -/
def pageBytes (pg : Page) (k : Nat) : UInt8 := if h : k < pgsize then pg ⟨k, h⟩ else 0

/-- The page `pg` with the first `n` bytes from `src`. -/
def fillPage (pg : Page) (n : Nat) (src : Nat → UInt8) : Page :=
  fun k => if k.val < n then src k.val else pg k

/-- The page `pg` with the bytes `src` from `off` on. -/
def pokePage (pg : Page) (off : Nat) (src : List UInt8) : Page :=
  fun k => if off ≤ k.val ∧ k.val < off + src.length then src.getD (k.val - off) 0 else pg k

/-- The bytes of the page `pg` from `off` on. -/
def peekPage (pg : Page) (off n : Nat) : List UInt8 :=
  (List.range n).map fun k => pageBytes pg (off + k)

/-! ## Page tables -/

/-- The page-table pages below a root page, by level and address prefix. -/
structure PageTable where
  dir : Nat → Nat → Option Nat
  leaf : Nat → Pte

namespace PageTable

/-- The table of a zeroed root page. -/
def empty : PageTable where
  dir := fun _ _ => none
  leaf := fun _ => 0#64

/-- The page-table page that the entry `idx` of level 2 or 1 points to, if the walk gets there. -/
def node (pt : PageTable) (level idx : Nat) : Option Nat :=
  if level = 2 then pt.dir 2 idx
  else if level = 1 then (pt.dir 2 (idx / 512)).bind fun _ => pt.dir 1 idx
  else none

/-- The level-0 page of the virtual page `v` exists. -/
def present (pt : PageTable) (v : Nat) : Prop := pt.node 1 (v / 512) ≠ none

instance (pt : PageTable) (v : Nat) : Decidable (pt.present v) :=
  inferInstanceAs (Decidable (_ ≠ _))

/-- The entry of the virtual page `v`; zero where there is no level-0 page for it. -/
def pte (pt : PageTable) (v : Nat) : Pte := if pt.present v then pt.leaf v else 0#64

/-- Store an entry. -/
def setLeaf (pt : PageTable) (v : Nat) (x : Pte) : PageTable :=
  { pt with leaf := Function.update pt.leaf v x }

/-- Hang the zeroed page `pa` below the entry `idx` of `level`. -/
def newPage (pt : PageTable) (level idx pa : Nat) : PageTable where
  dir := fun l j =>
    if l = level ∧ j = idx then some pa
    else if l + 1 = level ∧ j / 512 = idx then none
    else pt.dir l j
  leaf := fun v => if level = 1 ∧ v / 512 = idx then 0#64 else pt.leaf v

/-- Zero the entry `idx` of `level`. -/
def clearDir (pt : PageTable) (level idx : Nat) : PageTable :=
  { pt with dir := fun l j => if l = level ∧ j = idx then none else pt.dir l j }

end PageTable

/-- A pointer to an entry: the root page of its table and its virtual page. -/
structure PteRef where
  pagetable : Nat
  vpn : Nat
  deriving DecidableEq

/-! ## Processes -/

/-- `struct page_data`: one slot of `ram` or `swap`. -/
structure PageData where
  offset : Int
  used : Bool
  va : Int
  age : BitVec 32
  fifoTime : BitVec 32
  deriving DecidableEq

/-- A slot in the zeroed process table. -/
def PageData.zero : PageData := ⟨0, false, 0, 0#32, 0#32⟩

/-- What `remove_page` leaves in a slot. -/
def PageData.removed : PageData := ⟨-1, false, -1, 0#32, 0#32⟩

/-- A `page_data` array of a process. -/
abbrev Slots := Fin maxPsycPages → PageData

/-- `enum procstate`. -/
inductive ProcState
  | unused
  | used
  | sleeping
  | runnable
  | running
  | zombie
  deriving DecidableEq

/-- The 36 words of a trapframe page, in the order of `struct trapframe`. -/
abbrev Trapframe := Fin 36 → BitVec 64

/-- The words of `struct trapframe` that the kernel code names. -/
abbrev tfEpc : Fin 36 := 3
abbrev tfSp : Fin 36 := 6
abbrev tfA0 : Fin 36 := 14
abbrev tfA1 : Fin 36 := 15

/-- `struct proc`.  A null `pagetable` or `trapframe` is address 0; `frame` is the trapframe's
contents. -/
structure Proc where
  state : ProcState
  killed : Bool
  xstate : Int
  pid : Nat
  parent : Option (Fin nproc)
  sz : Nat
  pagetable : Nat
  trapframe : Nat
  frame : Trapframe
  ofile : Fin nofile → Option (Fin nfile)
  name : List UInt8
  swapFile : Option (Fin nfile)
  ram : Slots
  swap : Slots
  fifoCounter : BitVec 32

/-- A slot of the zeroed process table. -/
def Proc.zero : Proc where
  state := .unused
  killed := false
  xstate := 0
  pid := 0
  parent := none
  sz := 0
  pagetable := 0
  trapframe := 0
  frame := fun _ => 0#64
  ofile := fun _ => none
  name := []
  swapFile := none
  ram := fun _ => .zero
  swap := fun _ => .zero
  fifoCounter := 0#32

/-! ## Files -/

/-- The `type` of a `struct file`. -/
inductive FdType
  | none
  | pipe
  | inode
  | device
  deriving DecidableEq

/-- `struct file`. -/
structure File where
  type : FdType
  ref : Nat
  readable : Bool
  writable : Bool
  pipe : Nat
  ip : Nat
  off : Nat

/-- A zeroed `struct file`. -/
def File.zero : File := ⟨.none, 0, false, false, 0, 0, 0⟩

/-- The ends of a `struct pipe` that are open; the page it lives in is its address. -/
structure Pipe where
  readopen : Bool
  writeopen : Bool

/-- An inode: type (0 is free), link count, references, and the file's bytes. -/
structure Inode where
  type : Nat
  nlink : Nat
  ref : Nat
  size : Nat
  data : Nat → UInt8

/-- A free inode. -/
def Inode.free : Inode := ⟨0, 0, 0, 0, fun _ => 0⟩

/-! ## The kernel -/

/-- The kernel state. -/
@[ext] structure Kernel where
  freelist : List Nat
  mem : Nat → Page
  ptables : Nat → PageTable
  proc : Fin nproc → Proc
  cur : Option (Fin nproc)
  initproc : Option (Fin nproc)
  nextpid : Nat
  kernelPagetable : Nat
  kstack : Fin nproc → Nat
  ftable : Fin nfile → File
  pipe : Nat → Pipe
  inode : Nat → Inode
  rootdir : List Char → Option Nat

/-- Why a kernel program does not return. -/
inductive Halt
  | panic (msg : String)
  | exited
  deriving DecidableEq

/-- Kernel programs. -/
abbrev KM := EStateM Halt Kernel

def panic {α : Type} (msg : String) : KM α := throw (.panic msg)

/-- The kernel loads or stores at an address it has not mapped: `kerneltrap` panics. -/
def kerneltrap {α : Type} : KM α := panic "kerneltrap"

namespace Kernel

/-- Replace the table of a root page. -/
def setTable (s : Kernel) (r : Nat) (pt : PageTable) : Kernel :=
  { s with ptables := Function.update s.ptables r pt }

/-- Store an entry of the table of a root page. -/
def setPte (s : Kernel) (r v : Nat) (x : Pte) : Kernel :=
  s.setTable r ((s.ptables r).setLeaf v x)

/-- Replace a process. -/
def setProc (s : Kernel) (i : Fin nproc) (p : Proc) : Kernel :=
  { s with proc := Function.update s.proc i p }

/-- Replace the contents of a physical page. -/
def setPage (s : Kernel) (pa : Nat) (pg : Page) : Kernel :=
  { s with mem := Function.update s.mem pa pg }

/-- Replace an open file. -/
def setFile (s : Kernel) (f : Fin nfile) (x : File) : Kernel :=
  { s with ftable := Function.update s.ftable f x }

/-- Replace an inode. -/
def setInode (s : Kernel) (ino : Nat) (x : Inode) : Kernel :=
  { s with inode := Function.update s.inode ino x }

end Kernel

/-! ## Access to the state -/

/-- `myproc()`; the callers dereference it at once. -/
def myproc : KM (Fin nproc) := do
  match (← get).cur with
  | some p => pure p
  | none => kerneltrap

/-- `*p`. -/
def getProc (p : Fin nproc) : KM Proc := do
  pure ((← get).proc p)

/-- Store through `p`. -/
def modifyProc (p : Fin nproc) (f : Proc → Proc) : KM Unit :=
  modify fun s => s.setProc p (f (s.proc p))

/-- A pointer from `walk` that the caller uses without checking it. -/
def deref (pte : Option PteRef) : KM PteRef :=
  match pte with
  | some r => pure r
  | none => kerneltrap

/-- `*pte`. -/
def readPte (r : PteRef) : KM Pte := do
  pure (((← get).ptables r.pagetable).leaf r.vpn)

/-- `*pte = x`. -/
def writePte (r : PteRef) (x : Pte) : KM Unit :=
  modify fun s => s.setPte r.pagetable r.vpn x

/-- Read a whole physical page through the kernel's direct map. -/
def loadPage (pa : Nat) : KM Page := do
  if kernbase ≤ pa ∧ pa < phystop then pure ((← get).mem pa) else kerneltrap

/-- Write a whole physical page through the kernel's direct map. -/
def storePage (pa : Nat) (pg : Page) : KM Unit := do
  if kernbase ≤ pa ∧ pa < phystop then modify fun s => s.setPage pa pg else kerneltrap

/-- `a = (int)n`. -/
def i32 (n : Nat) : Int := (n : Int).bmod (2 ^ 32)

/-- `(uint64)z`, sign-extending. -/
def u64 (z : Int) : Nat := (z % 2 ^ 64).toNat

/-! ## Rules of access -/

section Rules

open StateHalt

variable {α : Type} {E : Halt → Kernel → Prop} {s : Kernel}
  {Q : α → Kernel → Prop} {p : Fin nproc} {r : PteRef}

/-- A program that does not return panicked: only `exit` ends in another way. -/
def Panics (e : Halt) (_ : Kernel) : Prop := e ≠ .exited

@[simp] theorem panics_panic (msg : String) (s : Kernel) : Panics (.panic msg) s := by
  simp [Panics]

@[simp] theorem wp_panic {msg : String} : wp (panic msg) Q E s ↔ E (.panic msg) s := Iff.rfl

@[simp] theorem wp_kerneltrap {Q : α → Kernel → Prop} :
    wp kerneltrap Q E s ↔ E (.panic "kerneltrap") s := Iff.rfl

theorem panic_panics {msg : String} {Q : α → Kernel → Prop} : wp (panic msg) Q Panics s :=
  panics_panic msg s

theorem kerneltrap_panics {Q : α → Kernel → Prop} : wp kerneltrap Q Panics s :=
  panics_panic _ s

theorem wp_myproc {Q : Fin nproc → Kernel → Prop} {p : Fin nproc} (h : s.cur = some p) :
    wp myproc Q E s ↔ Q p s := by
  simp only [myproc, wp_bind, wp_get, h, wp_pure]

theorem wp_myproc_none {Q : Fin nproc → Kernel → Prop} (h : s.cur = none) :
    wp myproc Q E s ↔ E (.panic "kerneltrap") s := by
  simp only [myproc, wp_bind, wp_get, h, wp_kerneltrap]

@[simp] theorem wp_getProc {Q : Proc → Kernel → Prop} {p : Fin nproc} :
    wp (getProc p) Q E s ↔ Q (s.proc p) s := Iff.rfl

@[simp] theorem wp_modifyProc {Q : Unit → Kernel → Prop} {p : Fin nproc} {f : Proc → Proc} :
    wp (modifyProc p f) Q E s ↔ Q () (s.setProc p (f (s.proc p))) := Iff.rfl

@[simp] theorem wp_deref_some {Q : PteRef → Kernel → Prop} {r : PteRef} :
    wp (deref (some r)) Q E s ↔ Q r s := Iff.rfl

@[simp] theorem wp_readPte {Q : Pte → Kernel → Prop} {r : PteRef} :
    wp (readPte r) Q E s ↔ Q ((s.ptables r.pagetable).leaf r.vpn) s := Iff.rfl

@[simp] theorem wp_writePte {Q : Unit → Kernel → Prop} {r : PteRef} {x : Pte} :
    wp (writePte r x) Q E s ↔ Q () (s.setPte r.pagetable r.vpn x) := Iff.rfl

theorem wp_loadPage {Q : Page → Kernel → Prop} {pa : Nat} : wp (loadPage pa) Q E s ↔
      if kernbase ≤ pa ∧ pa < phystop then Q (s.mem pa) s else E (.panic "kerneltrap") s := by
  unfold loadPage
  split <;> rfl

theorem wp_storePage {Q : Unit → Kernel → Prop} {pa : Nat} {pg : Page} :
    wp (storePage pa pg) Q E s ↔ if kernbase ≤ pa ∧ pa < phystop then Q () (s.setPage pa pg)
      else E (.panic "kerneltrap") s := by
  unfold storePage
  split <;> rfl

end Rules

end Xv6Paging
