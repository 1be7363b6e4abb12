import Xv6Paging.Vm.Alloc
import Xv6Paging.Vm.Copy

/-!
# The life of a process

`allocproc`, `freeproc`, `fork`, `exit` and `wait`.  Scheduling is not modelled: a kernel call of
a process runs to its end, and a `wait` that would sleep leaves the state alone.
-/

namespace Xv6Paging

open StateHalt Kernel

/-- `proc_pagetable`: an empty table with the trampoline and the trapframe page, or 0. -/
def procPagetable (B : Build) (trapframe : Nat) : KM Nat := do
  let pagetable ← uvmcreate
  if pagetable = 0 then pure 0
  else if (← mappages B pagetable trampolineVa pgsize B.trampoline (pteR ||| pteX)) < 0 then do
    uvmfree B pagetable 0
    pure 0
  else if (← mappages B pagetable trapframeVa pgsize trapframe (pteR ||| pteW)) < 0 then do
    uvmunmap B pagetable trampolineVa 1 false
    uvmfree B pagetable 0
    pure 0
  else pure pagetable

def procFreepagetable (B : Build) (pagetable sz : Nat) : KM Unit := do
  uvmunmap B pagetable trampolineVa 1 false
  uvmunmap B pagetable trapframeVa 1 false
  uvmfree B pagetable sz

/-- `freeproc` empties the `ram` and `swap` slots of a process with `pid > 2`. -/
def Proc.clearSlots (B : Build) (pr : Proc) : Proc :=
  match B.selection with
  | .none => pr
  | .paging _ =>
    if pr.pid > 2 then
      { pr with ram := fun _ => .removed, swap := fun _ => .removed, fifoCounter := 0#32 }
    else { pr with fifoCounter := 0#32 }

/-- The fields that `freeproc` resets at its end. -/
def Proc.reset (pr : Proc) : Proc :=
  { pr with pagetable := 0, sz := 0, pid := 0, parent := none, name := [], killed := false,
            xstate := 0, state := .unused }

def freeproc (B : Build) (p : Fin nproc) : KM Unit := do
  let pr ← getProc p
  onlyIf (pr.trapframe ≠ 0) (kfree B pr.trapframe)
  modifyProc p fun pr => { pr with trapframe := 0 }
  onlyIf (pr.pagetable ≠ 0) (procFreepagetable B pr.pagetable pr.sz)
  modifyProc p (Proc.clearSlots B)
  modifyProc p Proc.reset

def allocpid : KM Nat := do
  let pid := (← get).nextpid
  modify fun s => { s with nextpid := pid + 1 }
  pure pid

/-- A new process with `pid > 2` gets a swap file. -/
def allocSwapFile (B : Build) (p : Fin nproc) (pid : Nat) : KM Unit :=
  match B.selection with
  | .none => pure ()
  | .paging _ => onlyIf (pid > 2) do
    let _ ← createSwapFile p
    pure ()

/-- `allocproc`: a process with a trapframe and an empty user page table, or null. -/
def allocproc (B : Build) : KM (Option (Fin nproc)) := do
  let s ← get
  match (List.finRange nproc).find? fun p => (s.proc p).state = .unused with
  | none => pure none
  | some p => do
    let pid ← allocpid
    modifyProc p fun pr => { pr with pid := pid, state := .used }
    allocSwapFile B p pid
    let tf ← kalloc
    modifyProc p fun pr => { pr with trapframe := tf, frame := fun _ => 0x0505050505050505#64 }
    if tf = 0 then do
      freeproc B p
      pure none
    else do
      let pt ← procPagetable B tf
      modifyProc p fun pr => { pr with pagetable := pt }
      if pt = 0 then do
        freeproc B p
        pure none
      else pure (some p)

/-- The copy of one swap slot in `fork`. -/
def forkSwapRound (B : Build) (p np : Fin nproc) (i : Nat) : KM Unit := do
  let page ← kalloc
  if (← readFromSwapFile p page (i * pgsize)) = -1 then panic "failed to read from swapfile"
  else if (← writeToSwapFile np page (i * pgsize)) = -1 then panic "failed to write to swapfile"
  else kfree B page

/-- The part of `fork` that copies the swap file and the `ram` and `swap` arrays: as many slots
as are in use, from slot 0. -/
def forkSwap (B : Build) (p np : Fin nproc) : KM Unit :=
  match B.selection with
  | .none => pure ()
  | .paging _ => do
    onlyIf ((← getProc p).pid > 2) do
      forEach (forkSwapRound B p np) 0 (countPages (← getProc p).swap)
      let pr ← getProc p
      modifyProc np fun npr => { npr with
        ram := pr.ram, swap := pr.swap, fifoCounter := pr.fifoCounter }

/-- `fork` duplicates an open file. -/
def forkFileRound (pr : Proc) (np : Fin nproc) (fd : Nat) : KM Unit :=
  match pr.ofile (Fin.ofNat nofile fd) with
  | some f => do
    filedup f
    modifyProc np fun npr => { npr with
      ofile := Function.update npr.ofile (Fin.ofNat nofile fd) (some f) }
  | none => pure ()

/-- `fork` from the copy of the page table on: the process `np` gets everything else of `p`. -/
def forkFinish (B : Build) (p np : Fin nproc) : KM Int := do
  let pr ← getProc p
  modifyProc np fun npr => { npr with
    sz := pr.sz
    frame := Function.update pr.frame tfA0 0#64 }
  forEach (forkFileRound pr np) 0 nofile
  modifyProc np fun npr => { npr with name := pr.name }
  let pid := (← getProc np).pid
  forkSwap B p np
  modifyProc np fun npr => { npr with parent := some p }
  modifyProc np fun npr => { npr with state := .runnable }
  pure pid

def fork (B : Build) : KM Int := do
  let p ← myproc
  match ← allocproc B with
  | none => pure (-1)
  | some np => do
    let pr ← getProc p
    if (← uvmcopy B pr.pagetable (← getProc np).pagetable pr.sz) < 0 then do
      freeproc B np
      pure (-1)
    else forkFinish B p np

def reparent (p : Fin nproc) : KM Unit :=
  modify fun s => { s with
    proc := fun i =>
      if (s.proc i).parent = some p then { s.proc i with parent := s.initproc } else s.proc i }

/-- `exit` removes the swap file of a process with `pid > 2`. -/
def exitSwapFile (B : Build) (p : Fin nproc) : KM Unit :=
  match B.selection with
  | .none => pure ()
  | .paging _ => do
    onlyIf ((← getProc p).pid > 2) do
      if (← removeSwapFile B p) ≠ 0 then panic "failed to remove swapfile" else pure ()

/-- `exit` closes an open file. -/
def exitFileRound (B : Build) (p : Fin nproc) (fd : Nat) : KM Unit := do
  match (← getProc p).ofile (Fin.ofNat nofile fd) with
  | some f => do
    fileclose B f
    modifyProc p fun pr => { pr with
      ofile := Function.update pr.ofile (Fin.ofNat nofile fd) none }
  | none => pure ()

def exit {α : Type} (B : Build) (status : Int) : KM α := do
  let p ← myproc
  if (← get).initproc = some p then panic "init exiting"
  else do
    exitSwapFile B p
    forEach (exitFileRound B p) 0 nofile
    reparent p
    modifyProc p fun pr => { pr with xstate := status, state := .zombie }
    throw .exited

/-- The four bytes of an `int`. -/
def intBytes (z : Int) : List UInt8 :=
  (List.range 4).map fun k => UInt8.ofNat (u64 z / 2 ^ (8 * k))

/-- `wait` stores the exit status of the child, if it was given an address. -/
def waitStatus (pagetable addr : Nat) (xstate : Int) : KM Int :=
  if addr ≠ 0 then copyout pagetable addr (intBytes xstate) else pure 0

/-- `wait`: the pid of a reaped child or -1; `none` when the caller goes to sleep. -/
def wait (B : Build) (addr : Nat) : KM (Option Int) := do
  let p ← myproc
  let s ← get
  match (List.finRange nproc).find? fun np =>
      (s.proc np).parent = some p ∧ (s.proc np).state = .zombie with
  | some np => do
    let pr ← getProc p
    let child ← getProc np
    if (← waitStatus pr.pagetable addr child.xstate) < 0 then pure (some (-1))
    else do
      freeproc B np
      pure (some child.pid)
  | none =>
    if (¬ ∃ np, (s.proc np).parent = some p) ∨ (s.proc p).killed then pure (some (-1))
    else pure none

/-! ## Exit -/

/-- The memory of a process and the data that describe it are the same. -/
def Proc.SameMemory (p q : Proc) : Prop :=
  q = { p with
    state := q.state, killed := q.killed, xstate := q.xstate, parent := q.parent
    frame := q.frame, ofile := q.ofile, name := q.name }

theorem Proc.SameMemory.trans {p q r : Proc} (h : p.SameMemory q) (h' : q.SameMemory r) :
    p.SameMemory r := by
  unfold SameMemory at *
  rw [h', h]

/-- The step from `s` to `s'` closes files and changes processes, but no memory. -/
structure KeepsMemory (s s' : Kernel) : Prop where
  rest : s' = { s with
    freelist := s'.freelist, mem := s'.mem, ftable := s'.ftable, pipe := s'.pipe
    inode := s'.inode, rootdir := s'.rootdir, proc := s'.proc }
  memory : ∀ i, (s.proc i).SameMemory (s'.proc i)
  state : ∀ i, (s'.proc i).state = (s.proc i).state
  killed : ∀ i, (s'.proc i).killed = (s.proc i).killed

namespace KeepsMemory

variable {s t u : Kernel}

theorem refl (s : Kernel) : KeepsMemory s s := ⟨rfl, fun _ => rfl, fun _ => rfl, fun _ => rfl⟩

theorem trans (h : KeepsMemory s t) (h' : KeepsMemory t u) : KeepsMemory s u where
  rest := by rw [h'.rest, h.rest]
  memory i := (h.memory i).trans (h'.memory i)
  state i := (h'.state i).trans (h.state i)
  killed i := (h'.killed i).trans (h.killed i)

theorem ofFileOp (h : FileOp s t) : KeepsMemory s t where
  rest := by rw [h]
  memory i := by rw [h.proc_eq]; rfl
  state i := by rw [h.proc_eq]
  killed i := by rw [h.proc_eq]

theorem setProc {i : Fin nproc} {q : Proc} (h : KeepsMemory s t) (hq : (t.proc i).SameMemory q)
    (hs : q.state = (t.proc i).state) (hk : q.killed = (t.proc i).killed) :
    KeepsMemory s (t.setProc i q) where
  rest := by rw [h.rest]; rfl
  memory j := by
    by_cases hj : j = i
    · subst hj
      rw [setProc_self]
      exact (h.memory j).trans hq
    · rw [setProc_of_ne _ _ hj]
      exact h.memory j
  state j := by
    by_cases hj : j = i
    · subst hj
      rw [setProc_self, hs, h.state]
    · rw [setProc_of_ne _ _ hj, h.state]
  killed j := by
    by_cases hj : j = i
    · subst hj
      rw [setProc_self, hk, h.killed]
    · rw [setProc_of_ne _ _ hj, h.killed]

end KeepsMemory

/-- The state after the process `p` exited. -/
structure Exits (p : Fin nproc) (s s' : Kernel) : Prop where
  rest : s' = { s with
    freelist := s'.freelist, mem := s'.mem, ftable := s'.ftable, pipe := s'.pipe
    inode := s'.inode, rootdir := s'.rootdir, proc := s'.proc }
  memory : ∀ i, (s.proc i).SameMemory (s'.proc i)
  zombie : (s'.proc p).state = .zombie
  state : ∀ i, i ≠ p → (s'.proc i).state = (s.proc i).state
  killed : ∀ i, i ≠ p → (s'.proc i).killed = (s.proc i).killed

section Exit

variable {α : Type} {B : Build} {s : Kernel} {p : Fin nproc}

theorem exitSwapFile_frame : wp (exitSwapFile B p) (fun _ s' => FileOp s s') Panics s := by
  unfold exitSwapFile
  cases B.selection with
  | none => exact FileOp.refl s
  | paging pol =>
    simp only [wp_bind, wp_getProc]
    refine wp_onlyIf (fun _ => ?_) fun _ => FileOp.refl s
    rw [wp_bind]
    refine wp_post removeSwapFile_frame fun r t ht => ?_
    exact wp_ite (fun _ => panic_panics) fun _ => ht

theorem exitFileRound_frame {fd : Nat} :
    wp (exitFileRound B p fd) (fun _ s' => KeepsMemory s s') Panics s := by
  simp only [exitFileRound, wp_bind, wp_getProc]
  cases (s.proc p).ofile (Fin.ofNat nofile fd) with
  | none => exact .refl s
  | some f =>
    simp only [wp_bind]
    exact wp_post fileclose_frame fun _ t ht => (KeepsMemory.ofFileOp ht).setProc rfl rfl rfl

theorem reparent_frame {E : Halt → Kernel → Prop} :
    wp (reparent p) (fun _ s' => KeepsMemory s s') E s := by
  refine ⟨rfl, fun i => ?_, fun i => ?_, fun i => ?_⟩
  · show (s.proc i).SameMemory (if _ then _ else _)
    split <;> rfl
  · show (if _ then _ else _ : Proc).state = _
    split <;> rfl
  · show (if _ then _ else _ : Proc).killed = _
    split <;> rfl

theorem KeepsMemory.exits {x : Kernel} (h : KeepsMemory s x) {status : Int} :
    Exits p s (x.setProc p { x.proc p with xstate := status, state := .zombie }) := by
  refine ⟨by rw [h.rest]; rfl, fun i => ?_, by simp, fun i hi => ?_, fun i hi => ?_⟩
  · by_cases hi : i = p
    · subst hi
      rw [setProc_self]
      exact (h.memory i).trans rfl
    · rw [setProc_of_ne _ _ hi]
      exact h.memory i
  · rw [setProc_of_ne _ _ hi, h.state]
  · rw [setProc_of_ne _ _ hi, h.killed]

/-- **`exit`** never returns; the process becomes a zombie that keeps its memory. -/
theorem exit_spec (hc : s.cur = some p) {status : Int} :
    wp (exit B status : KM α) (fun _ _ => False) (fun e s' => e = .exited → Exits p s s') s := by
  have hp : ∀ e (s' : Kernel), Panics e s' → e = .exited → Exits p s s' := fun e _ he h =>
    absurd h he
  simp only [exit, wp_bind, wp_myproc hc, wp_get]
  refine wp_ite (fun _ => hp _ _ (panics_panic _ s)) fun _ => ?_
  rw [wp_bind]
  refine wp_mono exitSwapFile_frame (fun _ t ht => ?_) hp
  rw [wp_bind]
  have loop : wp (forEach (exitFileRound B p) 0 nofile) (fun _ u => KeepsMemory s u) Panics t :=
    wp_forEach (fun _ u => KeepsMemory s u) (.ofFileOp ht)
      (fun j u _ _ hu => wp_post exitFileRound_frame fun _ _ h => hu.trans h) fun u hu => hu
  refine wp_mono loop (fun _ u hu => ?_) hp
  rw [wp_bind]
  refine wp_post reparent_frame fun _ x hx => ?_
  rw [wp_bind, wp_modifyProc]
  rintro -
  exact (hu.trans hx).exits

end Exit

end Xv6Paging
