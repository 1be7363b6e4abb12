import Mathlib.Algebra.BigOperators.Fin
import Mathlib.Data.Fintype.BigOperators
import Xv6Paging.Fs.File
import Xv6Paging.Fs.Path
import Xv6Paging.Machine.Sample
import Xv6Paging.Vm.Copy

/-!
# System calls that make descriptors

`sys_dup`, `sys_pipe` and `sys_open` acquire files, descriptors, a page and inodes one after the
other, and give back what they have got when the next one is not to be had.  The descriptors, the
file table and the pages are those of the kernel; the inodes are the table in `Inodes`, and the `ip`
of an open file is the number of an entry there.

A file that is not in use has the type `FD_NONE`, because `fileclose` leaves it so; the unwinding
relies on that when it closes a file that has not been set up.
-/

namespace Xv6Paging

open StateHalt Disk CString Names Kernel
open List (erase_cons_head mem_cons_self)
open Function (update update_of_ne update_self)

/-- `T_FILE` and `T_DEVICE`. -/
abbrev typeFile : BitVec 16 := 2
abbrev typeDevice : BitVec 16 := 3

namespace Inodes

section Create

variable (sb : Superblock)

/-- The part of `create` about the entries `.` and `..` of a new directory. -/
def createDots (dp ip : Fin ninode) : InodeM Unit := do
  -- for ".."
  onInode dp (modify fun f => { f with ip := { f.ip with nlink := f.ip.nlink + 1 } })
  onInode dp (iupdate sb)
  let r ← dirlink sb ip [ '.'.toUInt8] ((← get).entry ip).inum
  onlyIf (r < 0) (throw .createDots)
  let r ← dirlink sb ip [ '.'.toUInt8, '.'.toUInt8] ((← get).entry dp).inum
  onlyIf (r < 0) (throw .createDots)

/-- The second part of `create`: an inode is allocated and entered into the directory. -/
def createInode (dp : Fin ninode) (name : List UInt8) (type major minor : BitVec 16) :
    InodeM (Fin ninode) := do
  let inum ← onInode dp (Disk.ialloc sb type)
  let ip ← iget inum
  ilock sb ip
  onInode ip (modify fun f =>
    { f with ip := { f.ip with major := major, minor := minor, nlink := 1 } })
  onInode ip (iupdate sb)
  onlyIf (type = typeDir) (createDots sb dp ip)
  let r ← dirlink sb dp name ((← get).entry ip).inum
  onlyIf (r < 0) (throw .createDirlink)
  iunlockput sb dp
  pure ip

/-- `create`: the locked inode, or 0. -/
def create (cwd : Fin ninode) (path : List UInt8) (type major minor : BitVec 16)
    (name : List UInt8) : InodeM (Option (Fin ninode)) := do
  match ← nameiparent sb cwd path name with
  | (none, _) => pure none
  | (some dp, name) =>
    ilock sb dp
    match ← dirlookup sb dp name with
    | some (ip, _) =>
      iunlockput sb dp
      ilock sb ip
      let t := ((← get).entry ip).fields.type
      if type = typeFile ∧ (t = typeFile ∨ t = typeDevice) then pure (some ip)
      else
        iunlockput sb ip
        pure none
    | none => some <$> createInode sb dp name type major minor

end Create

namespace Since

variable {sb : Superblock} {s₀ s : Inodes} {own : List (Fin ninode)}
  {locks : Finset (Fin ninode)} {dp : Fin ninode}

theorem wp_dirlinkLoop (h : Since s₀ own locks s) (size off : Nat) :
    wp (dirlinkLoop sb dp size off) (fun _ s' => Since s₀ own locks s') (fun _ _ => True) s := by
  induction hm : size - off using Nat.strong_induction_on generalizing off s with
  | _ m ih =>
    rw [dirlinkLoop]
    apply wp_ite <;> intro hlt
    · rw [wp_bind]
      refine wp_post (h.wp_readDirent .dirlinkRead off) fun de s' h' => ?_
      refine wp_ite (fun _ => h') fun _ => ?_
      exact ih (size - (off + 16)) (by omega) h' (off + 16) rfl
    · exact h

theorem wp_dirlink (h : Since s₀ own locks s) (name : List UInt8) (inum : Nat) :
    wp (dirlink sb dp name inum) (fun _ s' => Since s₀ own locks s') (fun _ _ => True) s := by
  unfold dirlink writeDirent
  rw [wp_bind]
  refine wp_post (h.wp_dirlookup name) fun r s₁ h₁ => ?_
  rcases r with _ | ⟨ip, off⟩
  · have h₁ : Since s₀ own locks s₁ := h₁
    simp only [wp_bind, wp_get]
    refine wp_post (h₁.wp_dirlinkLoop _ 0) fun off s₂ h₂ => ?_
    refine wp_post h₂.wp_onInode fun r s₃ h₃ => ?_
    exact wp_onlyIf (fun _ => trivial) fun _ => h₃
  · have h₁ : Since s₀ (ip :: own) locks s₁ := h₁
    simp only [wp_bind, wp_pure]
    refine wp_post (h₁.wp_iput mem_cons_self) fun _ s₂ h₂ => ?_
    rwa [erase_cons_head] at h₂

theorem wp_createDots (h : Since s₀ own locks s) (dp ip : Fin ninode) :
    wp (createDots sb dp ip) (fun _ s' => Since s₀ own locks s') (fun _ _ => True) s := by
  unfold createDots
  simp only [wp_bind, wp_get]
  refine wp_post h.wp_onInode fun _ s₁ h₁ => ?_
  refine wp_post h₁.wp_onInode fun _ s₂ h₂ => ?_
  refine wp_post (h₂.wp_dirlink _ _) fun r s₃ h₃ => ?_
  refine wp_onlyIf (fun _ => trivial) fun _ => ?_
  refine wp_post (h₃.wp_dirlink _ _) fun r s₄ h₄ => ?_
  exact wp_onlyIf (fun _ => trivial) fun _ => h₄

theorem wp_createInode (h : Since s₀ [dp] {dp} s) (name : List UInt8)
    (type major minor : BitVec 16) :
    wp (createInode sb dp name type major minor) (fun ip s' => Since s₀ [ip] {ip} s')
      (fun _ _ => True) s := by
  unfold createInode
  simp only [wp_bind, wp_get]
  refine wp_post h.wp_onInode fun inum s₁ h₁ => ?_
  refine wp_post (h₁.wp_iget inum) fun ip s₂ h₂ => ?_
  refine wp_post (h₂.wp_ilock ip) fun _ s₃ hs₃ => ?_
  obtain ⟨hne, h₃⟩ := hs₃
  refine wp_post h₃.wp_onInode fun _ s₄ h₄ => ?_
  refine wp_post h₄.wp_onInode fun _ s₅ h₅ => ?_
  have hdots : wp (onlyIf (type = typeDir) (createDots sb dp ip))
      (fun _ s' => Since s₀ [ip, dp] (insert ip {dp}) s') (fun _ _ => True) s₅ :=
    wp_onlyIf (fun _ => h₅.wp_createDots dp ip) fun _ => h₅
  refine wp_post hdots fun _ s₆ h₆ => ?_
  refine wp_post (h₆.wp_dirlink _ _) fun r s₇ h₇ => ?_
  refine wp_onlyIf (fun _ => trivial) fun _ => ?_
  have h₇ : Since s₀ [dp, ip] (insert ip {dp}) s₇ := h₇.perm (List.Perm.swap dp ip [])
  refine wp_post (h₇.wp_iunlockput mem_cons_self) fun _ s₈ h₈ => ?_
  rw [erase_cons_head, Finset.erase_insert_of_ne (Finset.notMem_singleton.mp hne),
    Finset.erase_singleton] at h₈
  exact h₈

/-- **`create`** has a reference to the inode that it returns, and has it locked. -/
theorem wp_create (h : Since s₀ [] ∅ s) (cwd : Fin ninode) (path : List UInt8)
    (type major minor : BitVec 16) (name : List UInt8) :
    wp (create sb cwd path type major minor name)
      (fun r s' => Since s₀ r.toList r.toFinset s') (fun _ _ => True) s := by
  unfold create
  rw [wp_bind]
  refine wp_post (h.wp_namex cwd path true name) fun r s₁ h₁ => ?_
  obtain ⟨_ | dp, name'⟩ := r
  · exact h₁
  · have h₁ : Since s₀ [dp] ∅ s₁ := h₁
    simp only [wp_bind]
    refine wp_post (h₁.wp_ilock dp) fun _ s₂ hs₂ => ?_
    have h₂ : Since s₀ [dp] {dp} s₂ := hs₂.2
    refine wp_post (h₂.wp_dirlookup name') fun r s₃ h₃ => ?_
    rcases r with _ | ⟨ip, off⟩
    · -- a new inode
      have h₃ : Since s₀ [dp] {dp} s₃ := h₃
      rw [wp_map]
      exact wp_post (h₃.wp_createInode name' type major minor) fun ip s₄ h₄ => h₄
    · have h₃ : Since s₀ [ip, dp] {dp} s₃ := h₃
      have h₃ : Since s₀ [dp, ip] {dp} s₃ := h₃.perm (List.Perm.swap dp ip [])
      simp only [wp_bind, wp_get]
      refine wp_post (h₃.wp_unlockput_locked mem_cons_self) fun _ s₄ h₄ => ?_
      rw [erase_cons_head] at h₄
      refine wp_post (h₄.wp_ilock ip) fun _ s₅ hs₅ => ?_
      have h₅ : Since s₀ [ip] {ip} s₅ := hs₅.2
      apply wp_ite <;> intro _
      · exact h₅
      · simp only [wp_bind, wp_pure]
        refine wp_post (h₅.wp_unlockput_locked mem_cons_self) fun _ s₆ h₆ => ?_
        rwa [erase_cons_head] at h₆

end Since

end Inodes

/-! ## The system calls -/

/-- The kernel, the table of inodes, and the current directory of the process. -/
structure Sys where
  kernel : Kernel
  inodes : Inodes
  cwd : Fin ninode

/-- Why a system call does not return. -/
inductive SysHalt
  | kernel (h : Halt)
  | inode (p : InodePanic)

/-- System calls. -/
abbrev SysM := EStateM SysHalt Sys

section Programs

/-- A program runs on the kernel. -/
def inKernel {α : Type} (m : KM α) : SysM α :=
  onPart Sys.kernel (fun k s => { s with kernel := k }) (m.adaptExcept .kernel)

/-- A program runs on the table of inodes. -/
def inInodes {α : Type} (m : InodeM α) : SysM α :=
  onPart Sys.inodes (fun i s => { s with inodes := i }) (m.adaptExcept .inode)

/-- `argfd`, for an argument that has been fetched. -/
def argfd (fd : Int) : KM (Option (Fin nfile)) := do
  let p ← getProc (← myproc)
  if fd < 0 ∨ fd ≥ nofile then pure none
  else pure (p.ofile (Fin.ofNat nofile fd.toNat))

/-- A descriptor of a process is assigned. -/
def Kernel.fill (k : Kernel) (i : Fin nproc) (fd : Fin nofile) (f : Option (Fin nfile)) : Kernel :=
  k.setProc i { k.proc i with ofile := update (k.proc i).ofile fd f }

def fdalloc (f : Fin nfile) : KM (Option (Fin nofile)) := do
  let i ← myproc
  let p ← getProc i
  match (List.finRange nofile).find? fun fd => p.ofile fd = none with
  | none => pure none
  | some fd =>
    modify fun k => k.fill i fd (some f)
    pure (some fd)

def sysDup (fd : Int) : KM Int := do
  match ← argfd fd with
  | none => pure (-1)
  | some f =>
    match ← fdalloc f with
    | none => pure (-1)
    | some fd =>
      filedup f
      pure fd.val

variable (B : Build) (sb : Superblock)

/-- `fileclose`, with the table of inodes. -/
def closeFile (f : Fin nfile) : SysM Unit := do
  let ff := (← get).kernel.ftable f
  if ff.ref < 1 then throw (.kernel (.panic "fileclose"))
  else if ff.ref - 1 > 0 then
    inKernel (modify fun k => k.setFile f { ff with ref := ff.ref - 1 })
  else
    inKernel (modify fun k => k.setFile f { ff with ref := 0, type := .none })
    match ff.type with
    | .pipe => inKernel (pipeclose B ff.pipe ff.writable)
    | .inode => inInodes (Inodes.iput sb (Fin.ofNat ninode ff.ip))
    | .device => inInodes (Inodes.iput sb (Fin.ofNat ninode ff.ip))
    | .none => pure ()

/-- One end of a pipe. -/
def File.pipeEnd (x : File) (pi : Nat) (writable : Bool) : File :=
  { x with type := .pipe, readable := !writable, writable := writable, pipe := pi }

def pipealloc : SysM (Option (Fin nfile × Fin nfile)) := do
  match ← inKernel filealloc with
  | none => pure none
  | some f0 =>
    match ← inKernel filealloc with
    | none =>
      closeFile B sb f0
      pure none
    | some f1 =>
      let pi ← inKernel kalloc
      if pi = 0 then
        closeFile B sb f0
        closeFile B sb f1
        pure none
      else
        inKernel (modify fun k => { k with pipe := update k.pipe pi ⟨true, true⟩ })
        inKernel (modify fun k => k.setFile f0 ((k.ftable f0).pipeEnd pi false))
        inKernel (modify fun k => k.setFile f1 ((k.ftable f1).pipeEnd pi true))
        pure (some (f0, f1))

/-- The bytes of a descriptor, as an `int`. -/
def fdBytes (fd : Fin nofile) : List UInt8 := [UInt8.ofNat fd.val, 0, 0, 0]

/-- The two copies to the user. -/
def copyFds (pagetable fdarray : Nat) (fd0 fd1 : Fin nofile) : KM Bool := do
  let r ← copyout pagetable fdarray (fdBytes fd0)
  if r < 0 then pure false
  else
    let r ← copyout pagetable ((fdarray + 4) % 2 ^ 64) (fdBytes fd1)
    pure (0 ≤ r)

def sysPipe (fdarray : Nat) : SysM Int := do
  match ← pipealloc B sb with
  | none => pure (-1)
  | some (rf, wf) =>
    let i ← inKernel myproc
    match ← inKernel (fdalloc rf) with
    | none =>
      closeFile B sb rf
      closeFile B sb wf
      pure (-1)
    | some fd0 =>
      match ← inKernel (fdalloc wf) with
      | none =>
        inKernel (modify fun k => k.fill i fd0 none)
        closeFile B sb rf
        closeFile B sb wf
        pure (-1)
      | some fd1 =>
        if ← inKernel (copyFds ((← get).kernel.proc i).pagetable fdarray fd0 fd1) then pure 0
        else
          inKernel (modify fun k => k.fill i fd0 none)
          inKernel (modify fun k => k.fill i fd1 none)
          closeFile B sb rf
          closeFile B sb wf
          pure (-1)

/-- The flags of `fcntl.h`. -/
abbrev oWronly : BitVec 32 := 1
abbrev oRdwr : BitVec 32 := 2
abbrev oCreate : BitVec 32 := 0x200
abbrev oTrunc : BitVec 32 := 0x400

/-- The first part of `sys_open`: the locked inode. -/
def openInode (cwd : Fin ninode) (path : List UInt8) (omode : BitVec 32) (name : List UInt8) :
    InodeM (Option (Fin ninode)) := do
  if omode &&& oCreate ≠ 0 then Inodes.create sb cwd path typeFile 0 0 name
  else
    match ← Inodes.namei sb cwd path name with
    | none => pure none
    | some ip =>
      Inodes.ilock sb ip
      if ((← get).entry ip).fields.type = typeDir ∧ omode ≠ 0 then
        Inodes.iunlockput sb ip
        pure none
      else pure (some ip)

/-- The check of the device number in `sys_open`. -/
def openDevice (ip : Fin ninode) : InodeM Bool := do
  let d := ((← get).entry ip).fields
  if d.type = typeDevice ∧ (d.major.toInt < 0 ∨ d.major.toInt ≥ 10) then
    Inodes.iunlockput sb ip
    pure false
  else pure true

/-- The file that `sys_open` sets up. -/
def File.opened (x : File) (ip : Fin ninode) (type : BitVec 16) (omode : BitVec 32) : File :=
  { x with
    type := if type = typeDevice then .device else .inode
    off := if type = typeDevice then x.off else 0
    ip := ip.val
    readable := omode &&& oWronly = 0
    writable := omode &&& oWronly ≠ 0 ∨ omode &&& oRdwr ≠ 0 }

/-- The last part of `sys_open`: a file and a descriptor for the locked inode. -/
def openFile (ip : Fin ninode) (omode : BitVec 32) : SysM Int := do
  match ← inKernel filealloc with
  | none =>
    inInodes (Inodes.iunlockput sb ip)
    pure (-1)
  | some f =>
    match ← inKernel (fdalloc f) with
    | none =>
      closeFile B sb f
      inInodes (Inodes.iunlockput sb ip)
      pure (-1)
    | some fd =>
      let type := ((← get).inodes.entry ip).fields.type
      inKernel (modify fun k => k.setFile f ((k.ftable f).opened ip type omode))
      onlyIf (omode &&& oTrunc ≠ 0 ∧ type = typeFile)
        (inInodes (Inodes.onInode ip (itrunc sb)))
      inInodes (Inodes.iunlock ip)
      pure fd.val

/-- `sys_open`; `path` is what `argstr` has fetched, and `name` is what is in the array that
`create` or `namei` uses. -/
def sysOpen (path : Option (List UInt8)) (omode : BitVec 32) (name : List UInt8) : SysM Int := do
  match path with
  | none => pure (-1)
  | some path =>
    match ← inInodes (openInode sb (← get).cwd path omode name) with
    | none => pure (-1)
    | some ip =>
      if ← inInodes (openDevice sb ip) then openFile B sb ip omode
      else pure (-1)

end Programs

/-! ## Counting the descriptors -/

section Slots

/-- The descriptors and swap-file pointers that name a file. -/
def slotCount (proc : Fin nproc → Proc) (f : Fin nfile) : Nat :=
  ∑ p, ((Finset.univ.filter fun fd => (proc p).ofile fd = some f).card +
    if (proc p).swapFile = some f then 1 else 0)

/-- The reference counts are the numbers of descriptors and swap-file pointers. -/
def Counted (k : Kernel) : Prop := ∀ f, (k.ftable f).ref = slotCount k.proc f

theorem card_fill {o : Fin nofile → Option (Fin nfile)} {fd : Fin nofile} (h : o fd = none)
    (g f : Fin nfile) : (Finset.univ.filter fun fd' => update o fd (some g) fd' = some f).card =
      (Finset.univ.filter fun fd' => o fd' = some f).card + if g = f then 1 else 0 := by
  by_cases hg : g = f
  · subst hg
    have hnot : fd ∉ Finset.univ.filter fun fd' => o fd' = some g := by simp [h]
    have hins : (Finset.univ.filter fun fd' => update o fd (some g) fd' = some g) =
        insert fd (Finset.univ.filter fun fd' => o fd' = some g) := by
      ext fd'
      by_cases hfd : fd' = fd <;> simp [hfd]
    rw [hins, Finset.card_insert_of_notMem hnot, if_pos rfl]
  · have hsame : (Finset.univ.filter fun fd' => update o fd (some g) fd' = some f) =
        Finset.univ.filter fun fd' => o fd' = some f := by
      ext fd'
      by_cases hfd : fd' = fd <;> simp [hfd, hg, h]
    rw [hsame, if_neg hg, Nat.add_zero]

theorem slotCount_fill {k : Kernel} {i : Fin nproc} {fd : Fin nofile}
    (h : (k.proc i).ofile fd = none) (g f : Fin nfile) :
    slotCount (k.fill i fd (some g)).proc f = slotCount k.proc f + if g = f then 1 else 0 := by
  unfold slotCount
  rw [← Finset.add_sum_erase _ _ (Finset.mem_univ i),
    ← Finset.add_sum_erase _ _ (Finset.mem_univ i)]
  have hself : (k.fill i fd (some g)).proc i =
      { k.proc i with ofile := update (k.proc i).ofile fd (some g) } :=
    update_self ..
  have hrest : ∀ p ∈ Finset.univ.erase i, (k.fill i fd (some g)).proc p = k.proc p := by
    intro p hp
    exact update_of_ne (Finset.ne_of_mem_erase hp) ..
  have hofile : ((k.fill i fd (some g)).proc i).ofile =
      update (k.proc i).ofile fd (some g) := congrArg Proc.ofile hself
  have hswap : ((k.fill i fd (some g)).proc i).swapFile = (k.proc i).swapFile := by rw [hself]
  rw [hofile, hswap, Finset.sum_congr rfl fun p hp => by rw [hrest p hp]]
  have hcard := card_fill h g f
  omega

end Slots

/-! ## What has changed -/

/-- A file that is not in use has no type. -/
def FreeFiles (k : Kernel) : Prop := ∀ f, (k.ftable f).ref = 0 → (k.ftable f).type = .none

/-- Nothing has changed. -/
structure Restored (s s' : Sys) : Prop where
  ofile : ∀ p, (s'.kernel.proc p).ofile = (s.kernel.proc p).ofile
  ref : ∀ f, (s'.kernel.ftable f).ref = (s.kernel.ftable f).ref
  inode : ∀ e, (s'.inodes.entry e).ref = (s.inodes.entry e).ref
  freelist : s'.kernel.freelist = s.kernel.freelist
  files : FreeFiles s'.kernel

/-- The process `i` has got exactly the descriptors `new`. -/
structure Filled (i : Fin nproc) (new : List (Fin nofile × Fin nfile)) (s s' : Sys) : Prop where
  empty : ∀ x ∈ new, (s.kernel.proc i).ofile x.1 = none
  filled : ∀ x ∈ new, (s'.kernel.proc i).ofile x.1 = some x.2
  kept : ∀ fd, fd ∉ new.map Prod.fst → (s'.kernel.proc i).ofile fd = (s.kernel.proc i).ofile fd
  others : ∀ p, p ≠ i → (s'.kernel.proc p).ofile = (s.kernel.proc p).ofile
  counted : Counted s.kernel → Counted s'.kernel
  files : FreeFiles s'.kernel

/-- Empty descriptors of the process `i` are filled, one after the other. -/
inductive Fills (i : Fin nproc) : List (Fin nofile × Fin nfile) → Kernel → Kernel → Prop
  | nil {k k' : Kernel} (hproc : k'.proc = k.proc) : Fills i [] k k'
  | cons {k k' : Kernel} {fd : Fin nofile} {f : Fin nfile} {new : List (Fin nofile × Fin nfile)}
    (hempty : (k.proc i).ofile fd = none) (hrest : Fills i new (k.fill i fd (some f)) k') :
    Fills i ((fd, f) :: new) k k'

section Fills

variable {i : Fin nproc} {new : List (Fin nofile × Fin nfile)} {k k' : Kernel}

theorem Kernel.ofile_fill (k : Kernel) (i : Fin nproc) (fd : Fin nofile) (f : Option (Fin nfile)) :
    ((k.fill i fd f).proc i).ofile = update (k.proc i).ofile fd f := by
  have hself : (k.fill i fd f).proc i =
      { k.proc i with ofile := update (k.proc i).ofile fd f } := update_self ..
  rw [hself]

theorem Kernel.pagetable_fill (k : Kernel) (i : Fin nproc) (fd : Fin nofile)
    (f : Option (Fin nfile)) : ((k.fill i fd f).proc i).pagetable = (k.proc i).pagetable := by
  have hself : (k.fill i fd f).proc i =
      { k.proc i with ofile := update (k.proc i).ofile fd f } := update_self ..
  rw [hself]

theorem Kernel.proc_fill {p : Fin nproc} (k : Kernel) (fd : Fin nofile) (f : Option (Fin nfile))
    (hp : p ≠ i) : (k.fill i fd f).proc p = k.proc p :=
  update_of_ne hp ..

section

variable (h : Fills i new k k')
include h

theorem Fills.empty : ∀ x ∈ new, (k.proc i).ofile x.1 = none := by
  induction h with
  | nil => simp
  | @cons k k' fd f new hempty _ ih =>
    intro x hx
    rcases List.mem_cons.mp hx with rfl | hx
    · exact hempty
    · have hnone := ih x hx
      rw [ofile_fill] at hnone
      -- the first descriptor is not empty any more
      have hne : x.1 ≠ fd := by
        intro heq
        rw [heq, update_self] at hnone
        cases hnone
      rwa [update_of_ne hne] at hnone

theorem Fills.kept : ∀ fd, fd ∉ new.map Prod.fst → (k'.proc i).ofile fd = (k.proc i).ofile fd := by
  induction h with
  | nil hproc =>
    intro fd _
    rw [hproc]
  | cons hempty _ ih =>
    intro fd' hfd
    rw [List.map_cons, List.mem_cons, not_or] at hfd
    rw [ih fd' hfd.2, ofile_fill, update_of_ne hfd.1]

theorem Fills.filled : ∀ x ∈ new, (k'.proc i).ofile x.1 = some x.2 := by
  induction h with
  | nil => simp
  | @cons k k' fd f new hempty hrest ih =>
    have hself : ((k.fill i fd (some f)).proc i).ofile fd = some f := by
      rw [ofile_fill, update_self]
    intro x hx
    rcases List.mem_cons.mp hx with rfl | hx
    · -- no later one is the same
      have hnot : fd ∉ new.map Prod.fst := by
        intro hmem
        obtain ⟨y, hy, rfl⟩ := List.mem_map.mp hmem
        rw [hrest.empty y hy] at hself
        cases hself
      rw [hrest.kept fd hnot, hself]
    · exact ih x hx

theorem Fills.others : ∀ p, p ≠ i → k'.proc p = k.proc p := by
  induction h with
  | nil hproc =>
    intro p _
    rw [hproc]
  | cons hempty _ ih =>
    intro p hp
    rw [ih p hp, proc_fill _ _ _ hp]

theorem Fills.slotCount (f : Fin nfile) :
    slotCount k'.proc f = slotCount k.proc f + (new.map Prod.snd).count f := by
  induction h with
  | nil hproc => rw [hproc, List.map_nil, List.count_nil, Nat.add_zero]
  | cons hempty _ ih =>
    rw [ih, slotCount_fill hempty, List.map_cons, List.count_cons]
    simp only [beq_iff_eq]
    omega

end

/-- **The descriptors are the only change**, and every new one is counted. -/
theorem Fills.toFilled {s s' : Sys} (h : Fills i new s.kernel s'.kernel)
    (href : ∀ f, (s'.kernel.ftable f).ref = (s.kernel.ftable f).ref + (new.map Prod.snd).count f)
    (hfiles : FreeFiles s'.kernel) : Filled i new s s' where
  empty := h.empty
  filled := h.filled
  kept := h.kept
  others p hp := by rw [h.others p hp]
  counted hc f := by rw [href, hc f, h.slotCount]
  files := hfiles

theorem filled_one {s s' : Sys} {fd : Fin nofile} {f : Fin nfile} (hfiles : FreeFiles s.kernel)
    (hempty : (s.kernel.proc i).ofile fd = none)
    (hproc : s'.kernel.proc = (s.kernel.fill i fd (some f)).proc)
    (href : (s'.kernel.ftable f).ref = (s.kernel.ftable f).ref + 1)
    (hothers : ∀ g, g ≠ f → s'.kernel.ftable g = s.kernel.ftable g) : Filled i [(fd, f)] s s' := by
  refine Fills.toFilled (.cons hempty (.nil hproc)) (fun g => ?_) fun g hg0 => ?_
  · show (s'.kernel.ftable g).ref = (s.kernel.ftable g).ref + [f].count g
    rcases eq_or_ne g f with rfl | hg
    · rw [href, List.count_singleton_self]
    · rw [hothers g hg, List.count_singleton, if_neg (by simp [Ne.symm hg]), Nat.add_zero]
  · have hg : g ≠ f := by
      rintro rfl
      omega
    rw [hothers g hg] at hg0 ⊢
    exact hfiles g hg0

theorem Kernel.fill_none {fd : Fin nofile} (h : (k.proc i).ofile fd = none)
    (f : Option (Fin nfile)) : (k.fill i fd f).fill i fd none = k := by
  simp [fill, setProc, ← h]

end Fills

section Rules

variable {B : Build} {sb : Superblock} {s : Sys} {k : Kernel} {i : Fin nproc} {f : Fin nfile}
  {E : SysHalt → Sys → Prop}

theorem wp_inKernel {α : Type} {m : KM α} {Q : α → Sys → Prop} :
    wp (inKernel m) Q E s ↔ wp m (fun a k => Q a { s with kernel := k })
      (fun h k => E (.kernel h) { s with kernel := k }) s.kernel := by
  rw [inKernel, wp_onPart, wp_adaptExcept]

theorem wp_inInodes {α : Type} {m : InodeM α} {Q : α → Sys → Prop} {E : SysHalt → Sys → Prop} :
    wp (inInodes m) Q E s ↔ wp m (fun a j => Q a { s with inodes := j })
      (fun p j => E (.inode p) { s with inodes := j }) s.inodes := by
  rw [inInodes, wp_onPart, wp_adaptExcept]

/-- **`fdalloc`** takes an empty descriptor. -/
theorem wp_fdalloc (hcur : k.cur = some i) {E : Halt → Kernel → Prop} :
    wp (fdalloc f) (fun o k' => (o = none ∧ k' = k) ∨
      ∃ fd, o = some fd ∧ (k.proc i).ofile fd = none ∧ k' = k.fill i fd (some f)) E k := by
  unfold fdalloc
  simp only [wp_bind, wp_getProc]
  rw [wp_myproc hcur]
  cases hfind : (List.finRange nofile).find? fun fd => (k.proc i).ofile fd = none with
  | none => exact .inl ⟨rfl, rfl⟩
  | some fd =>
    have hfd := List.find?_some hfind
    simp only [decide_eq_true_eq] at hfd
    exact .inr ⟨fd, rfl, hfd, rfl⟩

theorem wp_closeFile_new {x : File} (hf : s.kernel.ftable f = { x with ref := 1 })
    (href : x.ref = 0) (htype : x.type = .none) {Q : Unit → Sys → Prop} :
    wp (closeFile B sb f) Q E s ↔ Q () { s with kernel := s.kernel.setFile f x } := by
  have hx : ({ x with ref := 0, type := .none } : File) = x := by rw [← href, ← htype]
  unfold closeFile
  simp only [wp_bind, wp_get, hf]
  rw [if_neg (by decide), if_neg (by decide)]
  simp only [wp_bind, wp_inKernel, wp_modify, htype, wp_pure]
  rw [← hx]

end Rules

/-! ## Pipes -/

/-- The two files and the page of a pipe that has been allocated since `k₀`. -/
structure Piped (k₀ k : Kernel) (rf wf : Fin nfile) (pi : Nat) : Prop where
  ne : rf ≠ wf
  unused : (k₀.ftable rf).ref = 0 ∧ (k₀.ftable wf).ref = 0
  read : ∃ x : File, k.ftable rf = { x.pipeEnd pi false with ref := 1 }
  write : ∃ x : File, k.ftable wf = { x.pipeEnd pi true with ref := 1 }
  others : ∀ f, f ≠ rf → f ≠ wf → k.ftable f = k₀.ftable f
  pipe : k.pipe pi = ⟨true, true⟩
  freelist : k₀.freelist = pi :: k.freelist

section Pipes

variable {B : Build} {sb : Superblock} {s : Sys} {k k₀ : Kernel} {pi : Nat} {rf wf : Fin nfile}

theorem Kernel.setFile_setFile (k : Kernel) (f : Fin nfile) (x : File) :
    (k.setFile f x).setFile f (k.ftable f) = k := by
  simp [setFile]

/-- **`pipealloc`** allocates both files and a page, or nothing. -/
theorem wp_pipealloc (hfiles : FreeFiles s.kernel)
    (hframes : ∀ pa ∈ s.kernel.freelist, IsFrame B pa) :
    wp (pipealloc B sb) (fun r s' => (r = none ∧ s' = s) ∨ ∃ rf wf pi, r = some (rf, wf) ∧
      Piped s.kernel s'.kernel rf wf pi ∧ s' = { s with kernel := { s.kernel with
        ftable := s'.kernel.ftable, pipe := s'.kernel.pipe, mem := s'.kernel.mem,
        freelist := s'.kernel.freelist } })
      (fun _ _ => False) s := by
  unfold pipealloc
  rw [wp_bind, wp_inKernel]
  refine wp_post filealloc_spec ?_
  rintro _ k₁ (⟨rfl, rfl⟩ | ⟨f0, rfl, h0, rfl⟩)
  · exact .inl ⟨rfl, rfl⟩
  set x0 := s.kernel.ftable f0 with hx0
  set k₁ := s.kernel.setFile f0 { x0 with ref := 1 } with hk₁
  have hself₁ : k₁.ftable f0 = { x0 with ref := 1 } := update_self ..
  rw [wp_bind, wp_inKernel]
  refine wp_post filealloc_spec ?_
  rintro _ k₂ (⟨rfl, rfl⟩ | ⟨f1, rfl, h1, rfl⟩)
  · -- the first file is closed again
    rw [wp_bind, wp_closeFile_new hself₁ h0 (hfiles f0 h0), wp_pure]
    refine .inl ⟨rfl, ?_⟩
    show ({ s with kernel := k₁.setFile f0 x0 } : Sys) = s
    rw [hk₁, setFile_setFile]
  have hne : f1 ≠ f0 := by
    rintro rfl
    rw [hself₁] at h1
    cases h1
  have hx1 : k₁.ftable f1 = s.kernel.ftable f1 := update_of_ne hne ..
  rw [hx1] at h1
  set x1 := s.kernel.ftable f1 with hx1def
  rw [hx1]
  set k₂ := k₁.setFile f1 { x1 with ref := 1 } with hk₂
  have hself₂ : k₂.ftable f1 = { x1 with ref := 1 } := update_self ..
  have hother₂ : k₂.ftable f0 = { x0 with ref := 1 } :=
    (update_of_ne (Ne.symm hne) ..).trans hself₁
  rw [wp_bind, wp_inKernel]
  refine wp_post kalloc_spec ?_
  rintro pi k₃ (⟨hnil, rfl, rfl⟩ | ⟨fs, hfs, rfl⟩)
  · -- there is no page, and both files are closed again
    rw [if_pos rfl, wp_bind, wp_closeFile_new hother₂ h0 (hfiles f0 h0), wp_bind,
      wp_closeFile_new (x := x1) ?_ h1 (hfiles f1 h1), wp_pure]
    · refine .inl ⟨rfl, ?_⟩
      have hback : (k₂.setFile f0 x0).setFile f1 x1 = s.kernel := by
        have hcomm : (k₂.setFile f0 x0).setFile f1 x1 =
            (k₁.setFile f0 x0).setFile f1 (s.kernel.ftable f1) := by
          simp only [hk₂, setFile, Function.update_comm hne, Function.update_idem]
          rfl
        rw [hcomm, hk₁, setFile_setFile]
        simp [setFile]
      show ({ s with kernel := (k₂.setFile f0 x0).setFile f1 x1 } : Sys) = s
      rw [hback]
    · exact (update_of_ne hne ..).trans hself₂
  · have hpi : IsFrame B pi := hframes pi (by
      have : s.kernel.freelist = pi :: fs := hfs
      rw [this]
      exact mem_cons_self)
    rw [if_neg hpi.ne_zero]
    simp only [wp_bind, wp_inKernel, wp_modify, wp_pure]
    refine .inr ⟨f0, f1, pi, rfl, ⟨Ne.symm hne, ⟨h0, h1⟩, ⟨x0, ?_⟩, ⟨x1, ?_⟩, fun f hf0 hf1 => ?_,
      update_self .., hfs⟩, rfl⟩
    · have hold : (k₂.takePage pi fs).ftable f0 = { x0 with ref := 1 } := hother₂
      simp only [setFile, update_of_ne (Ne.symm hne), update_self, hold]
      rfl
    · have hold : (k₂.takePage pi fs).ftable f1 = { x1 with ref := 1 } := hself₂
      simp only [setFile, update_of_ne hne, update_self, hold]
      rfl
    · simp only [setFile, takePage, hk₂, hk₁, update_of_ne hf0,
        update_of_ne hf1]

theorem wp_closeFile_pipe {f : Fin nfile} {x : File} {writable : Bool}
    (hf : s.kernel.ftable f = { x.pipeEnd pi writable with ref := 1 }) {Q : Unit → Sys → Prop}
    {E : SysHalt → Sys → Prop} :
    wp (closeFile B sb f) Q E s ↔ wp (pipeclose B pi writable)
      (fun _ k => Q () { s with kernel := k }) (fun h k => E (.kernel h) { s with kernel := k })
      (s.kernel.setFile f { x.pipeEnd pi writable with ref := 0, type := .none }) := by
  unfold closeFile
  simp only [wp_bind, wp_get, hf]
  rw [if_neg (by decide), if_neg (by decide)]
  simp only [wp_bind, wp_inKernel, wp_modify]
  show wp (inKernel (pipeclose B pi writable)) Q E _ ↔ _
  rw [wp_inKernel]

theorem wp_pipeclose_read (h : k.pipe pi = ⟨true, true⟩)
    {Q : Unit → Kernel → Prop} {E : Halt → Kernel → Prop} : wp (pipeclose B pi false) Q E k ↔
      Q () { k with pipe := update k.pipe pi ⟨false, true⟩ } := by
  unfold pipeclose
  simp only [wp_bind, wp_modify, wp_get, h, Bool.false_eq_true, if_false, update_self]
  rw [onlyIf_false (by decide), wp_pure]

theorem wp_pipeclose_write (h : k.pipe pi = ⟨false, true⟩) (hpi : IsFrame B pi)
    {Q : Unit → Kernel → Prop} {E : Halt → Kernel → Prop} :
    wp (pipeclose B pi true) Q E k ↔
      Q () ({ k with pipe := update k.pipe pi ⟨false, false⟩ }.putPage pi) := by
  unfold pipeclose
  simp only [wp_bind, wp_modify, wp_get, h, if_true, update_self]
  rw [onlyIf_true (by decide), wp_kfree_frame hpi]

/-- **Both ends are closed**, and the page of the pipe is free again. -/
theorem Piped.wp_close (h : Piped k₀ s.kernel rf wf pi) (hfiles : FreeFiles k₀)
    (hpi : IsFrame B pi) :
    wp (closeFile B sb rf) (fun _ s₁ => wp (closeFile B sb wf) (fun _ s' =>
      (∀ f, (s'.kernel.ftable f).ref = (k₀.ftable f).ref) ∧ FreeFiles s'.kernel ∧
      s'.kernel.freelist = k₀.freelist ∧ s'.kernel.proc = s.kernel.proc ∧
      s'.inodes = s.inodes) (fun _ _ => False) s₁) (fun _ _ => False) s := by
  obtain ⟨x, hx⟩ := h.read
  obtain ⟨y, hy⟩ := h.write
  rw [wp_closeFile_pipe hx]
  set k₁ := s.kernel.setFile rf { x.pipeEnd pi false with ref := 0, type := .none } with hk₁
  have hpipe : k₁.pipe pi = ⟨true, true⟩ := h.pipe
  rw [wp_pipeclose_read hpipe]
  have hwf : k₁.ftable wf = { y.pipeEnd pi true with ref := 1 } :=
    (update_of_ne (Ne.symm h.ne) ..).trans hy
  rw [wp_closeFile_pipe hwf, wp_pipeclose_write (update_self ..) hpi]
  set z : File := { y.pipeEnd pi true with ref := 0, type := .none } with hz
  -- the three kinds of files
  have hfile : ∀ f, update k₁.ftable wf z f =
      if f = wf then z else
      if f = rf then { x.pipeEnd pi false with ref := 0, type := .none } else k₀.ftable f := by
    intro f
    rcases eq_or_ne f wf with rfl | hw
    · rw [update_self, if_pos rfl]
    rw [update_of_ne hw, if_neg hw]
    rcases eq_or_ne f rf with rfl | hr
    · exact (update_self ..).trans (if_pos rfl).symm
    · rw [if_neg hr, ← h.others f hr hw]
      exact update_of_ne hr ..
  refine ⟨fun f => ?_, fun f href => ?_, h.freelist.symm, rfl, rfl⟩
  · show (update k₁.ftable wf z f).ref = (k₀.ftable f).ref
    rw [hfile]
    split_ifs with hw hr
    · rw [hw, h.unused.2]
    · rw [hr, h.unused.1]
    · rfl
  · have href : (update k₁.ftable wf z f).ref = 0 := href
    show (update k₁.ftable wf z f).type = .none
    rw [hfile] at href ⊢
    split_ifs with hw hr
    · rfl
    · rfl
    · rw [if_neg hw, if_neg hr] at href
      exact hfiles f href

theorem Piped.congr {k' : Kernel} (h : Piped k₀ k rf wf pi)
    (hftable : k'.ftable = k.ftable) (hpipe : k'.pipe = k.pipe)
    (hlist : k'.freelist = k.freelist) : Piped k₀ k' rf wf pi where
  ne := h.ne
  unused := h.unused
  read := by rw [hftable]; exact h.read
  write := by rw [hftable]; exact h.write
  others := by rw [hftable]; exact h.others
  pipe := by rw [hpipe]; exact h.pipe
  freelist := by rw [hlist]; exact h.freelist

theorem Piped.ref (h : Piped k₀ k rf wf pi) (f : Fin nfile) :
    (k.ftable f).ref = (k₀.ftable f).ref + [rf, wf].count f := by
  obtain ⟨x, hx⟩ := h.read
  obtain ⟨y, hy⟩ := h.write
  rcases eq_or_ne f rf with rfl | hr
  · rw [hx, h.unused.1, List.count_cons_self, List.count_singleton, if_neg (by simp [Ne.symm h.ne])]
  rcases eq_or_ne f wf with rfl | hw
  · rw [hy, h.unused.2, List.count_cons_of_ne h.ne, List.count_singleton_self]
  · rw [h.others f hr hw, List.count_cons_of_ne (Ne.symm hr), List.count_singleton,
      if_neg (by simp [Ne.symm hw]), Nat.add_zero]

theorem Piped.freeFiles (h : Piped k₀ k rf wf pi) (hfiles : FreeFiles k₀) : FreeFiles k := by
  intro f href
  have hcount := h.ref f
  rw [href] at hcount
  -- a file in use is none of the free ones
  have hnot : f ∉ [rf, wf] := by
    intro hmem
    have := List.count_pos_iff.mpr hmem
    omega
  simp only [List.mem_cons, List.not_mem_nil, or_false, not_or] at hnot
  rw [h.others f hnot.1 hnot.2] at href ⊢
  exact hfiles f href

theorem Piped.wp_undo {s₀ : Sys} {Q : Sys → Prop}
    {E : SysHalt → Sys → Prop} (h : Piped s₀.kernel s.kernel rf wf pi)
    (hfiles : FreeFiles s₀.kernel) (hpi : IsFrame B pi)
    (hofile : ∀ p, (s.kernel.proc p).ofile = (s₀.kernel.proc p).ofile)
    (hinodes : s.inodes = s₀.inodes) (hQ : ∀ s', Restored s₀ s' → Q s') :
    wp (closeFile B sb rf) (fun _ s₁ => wp (closeFile B sb wf) (fun _ s' => Q s') E s₁) E s := by
  refine wp_mono (h.wp_close hfiles hpi) ?_ fun _ _ hfalse => hfalse.elim
  intro _ s₁ h₁
  refine wp_mono h₁ ?_ fun _ _ hfalse => hfalse.elim
  rintro _ s' ⟨href, hfree, hlist, hproc, hino⟩
  refine hQ s' ⟨fun p => ?_, href, fun e => ?_, hlist, hfree⟩
  · rw [hproc, hofile]
  · rw [hino, hinodes]

/-- The pages that the user can reach are mapped by the kernel. -/
def UserInRam (pt : PageTable) : Prop :=
  ∀ x, pt.userPa x = 0 ∨ kernbase ≤ pt.userPa x ∧ pt.userPa x < phystop

theorem wp_copyout_mem {r a : Nat} {src : List UInt8} :
    wp (copyout r a src) (fun _ k' => k' = { k with mem := k'.mem })
      (fun _ _ => ¬UserInRam (k.ptables r)) k := by
  by_cases hram : UserInRam (k.ptables r)
  · obtain ⟨n, hn⟩ := exists_upto (k.ptables r) a src.length
    have hpart : Partial (k.ptables r) a src.length := fun x _ _ => hram x
    refine wp_mono (wp_and copyout_frame (copyout_upto (E := fun _ _ => False) hpart hn)) ?_ ?_
    · rintro _ k' ⟨h, -⟩
      exact h.rest
    · rintro _ _ ⟨-, hfalse⟩
      exact hfalse.elim
  · refine wp_mono copyout_frame ?_ fun _ _ _ => hram
    intro _ k' h
    exact h.rest

theorem wp_copyFds {r a : Nat} {fd0 fd1 : Fin nofile} :
    wp (copyFds r a fd0 fd1) (fun _ k' => k' = { k with mem := k'.mem })
      (fun _ _ => ¬UserInRam (k.ptables r)) k := by
  unfold copyFds
  rw [wp_bind]
  refine wp_post wp_copyout_mem fun ret k₁ h₁ => ?_
  apply wp_ite <;> intro _
  · exact h₁
  · have htab : k₁.ptables = k.ptables := by rw [h₁]
    rw [wp_bind]
    refine wp_mono wp_copyout_mem ?_ fun _ _ hE => by rwa [htab] at hE
    intro ret k₂ h₂
    show k₂ = { k with mem := k₂.mem }
    rw [h₂, h₁]

/-- **`sys_pipe`** fills two descriptors, or fails and restores everything. -/
theorem wp_sysPipe {i : Fin nproc} (hcur : s.kernel.cur = some i) (hfiles : FreeFiles s.kernel)
    (hframes : ∀ pa ∈ s.kernel.freelist, IsFrame B pa) (fdarray : Nat) :
    wp (sysPipe B sb fdarray) (fun r s' => (r = -1 ∧ Restored s s') ∨
      (r = 0 ∧ ∃ fd0 fd1 rf wf, fd0 ≠ fd1 ∧ Filled i [(fd0, rf), (fd1, wf)] s s'))
      (fun _ _ => ¬UserInRam (s.kernel.ptables (s.kernel.proc i).pagetable)) s := by
  unfold sysPipe
  rw [wp_bind]
  refine wp_mono (wp_pipealloc hfiles hframes) ?_ fun _ _ h => h.elim
  rintro _ s₁ (⟨rfl, rfl⟩ | ⟨rf, wf, pi, rfl, hp, hs₁⟩)
  · exact .inl ⟨rfl, fun _ => rfl, fun _ => rfl, fun _ => rfl, rfl, hfiles⟩
  have hproc : s₁.kernel.proc = s.kernel.proc := by rw [hs₁]
  have hcur₁ : s₁.kernel.cur = some i := by rw [hs₁]; exact hcur
  have htab : s₁.kernel.ptables = s.kernel.ptables := by rw [hs₁]
  have hino : s₁.inodes = s.inodes := by rw [hs₁]
  have hpi : IsFrame B pi := hframes pi (by rw [hp.freelist]; exact mem_cons_self)
  simp only [wp_bind, wp_inKernel]
  rw [wp_myproc hcur₁]
  refine wp_post (wp_fdalloc hcur₁) ?_
  rintro _ k₂ (⟨rfl, rfl⟩ | ⟨fd0, rfl, hfd0, rfl⟩)
  · -- no descriptor
    simp only [wp_bind, wp_pure]
    exact hp.wp_undo hfiles hpi (fun p => by rw [hproc]) hino fun s' h => .inl ⟨trivial, h⟩
  set k₂ := s₁.kernel.fill i fd0 (some rf) with hk₂
  have hcur₂ : k₂.cur = some i := hcur₁
  simp only [wp_bind, wp_inKernel]
  refine wp_post (wp_fdalloc hcur₂) ?_
  rintro _ k₃ (⟨rfl, rfl⟩ | ⟨fd1, rfl, hfd1, rfl⟩)
  · -- no second descriptor
    simp only [wp_bind, wp_inKernel, wp_modify, wp_pure, hk₂]
    rw [fill_none hfd0]
    exact hp.wp_undo hfiles hpi (fun p => by rw [hproc]) hino fun s' h => .inl ⟨trivial, h⟩
  set k₃ := k₂.fill i fd1 (some wf) with hk₃
  have hne : fd0 ≠ fd1 := by
    rintro rfl
    rw [hk₂, ofile_fill, update_self] at hfd1
    cases hfd1
  have hpt : (k₃.proc i).pagetable = (s.kernel.proc i).pagetable := by
    rw [hk₃, pagetable_fill, hk₂, pagetable_fill, hproc]
  simp only [wp_bind, wp_inKernel, wp_get]
  have hcopy : wp (copyFds (k₃.proc i).pagetable fdarray fd0 fd1)
      (fun _ k' => k' = { k₃ with mem := k'.mem })
      (fun _ _ => ¬UserInRam (s.kernel.ptables (s.kernel.proc i).pagetable)) k₃ := by
    rw [hpt, ← htab]
    exact wp_copyFds
  refine wp_post hcopy fun ok k₄ hk₄ => ?_
  have hft : k₄.ftable = s₁.kernel.ftable := by rw [hk₄]; rfl
  cases ok with
  | true =>
    refine .inr ⟨rfl, fd0, fd1, rf, wf, hne, ?_⟩
    have hprocs : k₄.proc = ((s.kernel.fill i fd0 (some rf)).fill i fd1 (some wf)).proc := by
      rw [hk₄, hk₃, hk₂]
      simp only [fill, setProc, hproc]
    have hfills : Fills i [(fd0, rf), (fd1, wf)] s.kernel k₄ := by
      refine .cons (by rwa [hproc] at hfd0) (.cons ?_ (.nil hprocs))
      rw [hk₂, ofile_fill, hproc] at hfd1
      rwa [ofile_fill]
    refine Fills.toFilled hfills (fun f => ?_) ?_
    · rw [hft]
      exact hp.ref f
    · intro f
      rw [hft]
      exact hp.freeFiles hfiles f
  | false =>
    simp only [Bool.false_eq_true, if_false, wp_bind, wp_inKernel, wp_modify, wp_pure]
    have hback : ∀ p, (((k₄.fill i fd0 none).fill i fd1 none).proc p).ofile =
        (s.kernel.proc p).ofile := by
      intro p
      have hproc₄ : k₄.proc = k₃.proc := by rw [hk₄]
      by_cases hpi : p = i
      · subst hpi
        have hold0 : (s.kernel.proc p).ofile fd0 = none := by rwa [hproc] at hfd0
        have hold1 : (s.kernel.proc p).ofile fd1 = none := by
          rwa [hk₂, ofile_fill, update_of_ne (Ne.symm hne), hproc] at hfd1
        rw [ofile_fill, ofile_fill, hproc₄, hk₃, ofile_fill, hk₂,
          ofile_fill, hproc]
        funext fd
        rcases eq_or_ne fd fd1 with rfl | h1
        · rw [update_self, hold1]
        rcases eq_or_ne fd fd0 with rfl | h0
        · rw [update_of_ne h1, update_self, hold0]
        · simp only [update_of_ne h1, update_of_ne h0]
      · simp only [proc_fill _ _ _ hpi, hproc₄, hk₃, hk₂, hproc]
    have hpipe : k₄.pipe = s₁.kernel.pipe := by rw [hk₄]; rfl
    have hlist : k₄.freelist = s₁.kernel.freelist := by rw [hk₄]; rfl
    have hp₄ : Piped s.kernel ((k₄.fill i fd0 none).fill i fd1 none) rf wf pi :=
      hp.congr hft hpipe hlist
    exact hp₄.wp_undo hfiles hpi hback hino fun s' h => .inl ⟨trivial, h⟩

end Pipes

/-! ## Duplicates -/

section Dup

variable {i : Fin nproc} {k : Kernel}

theorem slotCount_pos {proc : Fin nproc → Proc} {fd : Fin nofile} {f : Fin nfile}
    (h : (proc i).ofile fd = some f) : 0 < slotCount proc f := by
  have hmem : fd ∈ Finset.univ.filter fun fd => (proc i).ofile fd = some f := by simp [h]
  have hone := Finset.card_pos.mpr ⟨fd, hmem⟩
  unfold slotCount
  rw [← Finset.add_sum_erase _ _ (Finset.mem_univ i)]
  omega

/-- **`sys_dup`** fills one descriptor with a file of the process, or fails and changes nothing. -/
theorem wp_sysDup (hcur : k.cur = some i) (fd : Int) :
    wp (sysDup fd) (fun r k' => (r = -1 ∧ k' = k) ∨
      ∃ fd' f, r = (fd'.val : Int) ∧ 0 < (k.ftable f).ref ∧ (k.proc i).ofile fd' = none ∧
        k' = (k.fill i fd' (some f)).setFile f { k.ftable f with ref := (k.ftable f).ref + 1 })
      (fun _ _ => ¬Counted k) k := by
  unfold sysDup argfd
  simp only [wp_bind, wp_getProc]
  rw [wp_myproc hcur]
  apply wp_ite <;> intro hfd
  · exact .inl ⟨rfl, rfl⟩
  rw [wp_pure]
  cases hf : (k.proc i).ofile (Fin.ofNat nofile fd.toNat) with
  | none => exact .inl ⟨rfl, rfl⟩
  | some f =>
    simp only [wp_bind]
    refine wp_post (wp_fdalloc hcur) ?_
    rintro _ k₁ (⟨rfl, rfl⟩ | ⟨fd', rfl, hempty, rfl⟩)
    · exact .inl ⟨rfl, rfl⟩
    unfold filedup
    simp only [wp_bind, wp_get]
    apply wp_ite <;> intro href
    · -- a file that a descriptor names is in use
      intro hc
      have hzero : (k.ftable f).ref < 1 := href
      rw [hc f] at hzero
      have := slotCount_pos hf
      omega
    · have href : ¬(k.ftable f).ref < 1 := href
      exact .inr ⟨fd', f, rfl, by omega, hempty, rfl⟩

end Dup

/-! ## Opened files -/

section Open

variable {B : Build} {sb : Superblock} {s : Sys} {i : Fin nproc}

open Inodes

theorem wp_openInode {t₀ t : Inodes} (h : Since t₀ [] ∅ t) (cwd : Fin ninode)
    (path : List UInt8) (omode : BitVec 32) (name : List UInt8) :
    wp (openInode sb cwd path omode name) (fun r t' => Since t₀ r.toList r.toFinset t')
      (fun _ _ => True) t := by
  unfold openInode
  apply wp_ite <;> intro _
  · exact h.wp_create cwd path typeFile 0 0 name
  rw [wp_bind]
  unfold namei
  rw [wp_map]
  refine wp_post (h.wp_namex cwd path false name) fun r t₁ h₁ => ?_
  obtain ⟨_ | ip, name'⟩ := r
  · exact h₁
  · have h₁ : Since t₀ [ip] ∅ t₁ := h₁
    simp only [wp_bind, wp_get]
    refine wp_post (h₁.wp_ilock ip) fun _ t₂ ht₂ => ?_
    have h₂ : Since t₀ [ip] {ip} t₂ := ht₂.2
    apply wp_ite <;> intro _
    · simp only [wp_bind, wp_pure]
      refine wp_post (h₂.wp_unlockput_locked mem_cons_self) fun _ t₃ h₃ => ?_
      rwa [erase_cons_head] at h₃
    · exact h₂

theorem wp_openDevice {t₀ t : Inodes} {ip : Fin ninode} (h : Since t₀ [ip] {ip} t) :
    wp (openDevice sb ip) (fun ok t' =>
      if ok then Since t₀ [ip] {ip} t' else Since t₀ [] ∅ t') (fun _ _ => True) t := by
  unfold openDevice
  simp only [wp_bind, wp_get]
  apply wp_ite <;> intro _
  · simp only [wp_bind, wp_pure]
    refine wp_post (h.wp_unlockput_locked mem_cons_self) fun _ t₁ h₁ => ?_
    rwa [erase_cons_head] at h₁
  · exact h

theorem wp_openFail {s₀ : Sys} {ip : Fin ninode} (hfiles : FreeFiles s₀.kernel)
    (hkernel : s.kernel = s₀.kernel) (h : Since s₀.inodes [ip] {ip} s.inodes)
    {Q : Sys → Prop} (hQ : ∀ s', Restored s₀ s' → Q s') :
    wp (inInodes (iunlockput sb ip)) (fun _ s' => Q s') (fun e _ => ∃ p, e = .inode p) s := by
  rw [wp_inInodes]
  refine wp_mono (h.wp_unlockput_locked mem_cons_self) ?_ fun p _ _ => ⟨p, rfl⟩
  intro _ t ht
  rw [erase_cons_head] at ht
  refine hQ _ ⟨fun p => ?_, fun f => ?_, fun e => ht.ref e, ?_, ?_⟩
  · rw [hkernel]
  · rw [hkernel]
  · rw [hkernel]
  · rwa [hkernel]

theorem wp_openFile {s₀ : Sys} {ip : Fin ninode} (hcur : s₀.kernel.cur = some i)
    (hfiles : FreeFiles s₀.kernel) (hkernel : s.kernel = s₀.kernel)
    (h : Since s₀.inodes [ip] {ip} s.inodes) (omode : BitVec 32) :
    wp (openFile B sb ip omode) (fun r s' => (r = -1 ∧ Restored s₀ s') ∨
      ∃ fd f, r = (fd.val : Int) ∧ Filled i [(fd, f)] s₀ s') (fun e _ => ∃ p, e = .inode p) s := by
  unfold openFile
  rw [wp_bind, wp_inKernel, hkernel]
  refine wp_post filealloc_spec ?_
  rintro _ k₁ (⟨rfl, rfl⟩ | ⟨f, rfl, hf, rfl⟩)
  · -- no file
    rw [wp_bind]
    exact wp_openFail (s := { s with kernel := _ }) hfiles rfl h fun s' hs' => .inl ⟨rfl, hs'⟩
  set x := s₀.kernel.ftable f with hx
  set k₁ := s₀.kernel.setFile f { x with ref := 1 } with hk₁
  have hself : k₁.ftable f = { x with ref := 1 } := update_self ..
  have hcur₁ : k₁.cur = some i := hcur
  rw [wp_bind, wp_inKernel]
  refine wp_post (wp_fdalloc hcur₁) ?_
  rintro _ k₂ (⟨rfl, rfl⟩ | ⟨fd, rfl, hfd, rfl⟩)
  · -- no descriptor, and the file is closed before it has been set up
    rw [wp_bind, wp_closeFile_new hself hf (hfiles f hf), wp_bind]
    have hback : k₁.setFile f x = s₀.kernel := s₀.kernel.setFile_setFile f _
    exact wp_openFail (s := { s with kernel := k₁.setFile f x }) hfiles hback h
      fun s' hs' => .inl ⟨rfl, hs'⟩
  -- the file is set up; what happens to the inode leaves the kernel alone
  simp only [wp_bind, wp_get, wp_inKernel, wp_modify]
  set k₂ := k₁.fill i fd (some f) with hk₂
  have hdone : ∀ t, Filled i [(fd, f)] s₀ { s with
      kernel := k₂.setFile f ((k₂.ftable f).opened ip (s.inodes.entry ip).fields.type omode)
      inodes := t } := by
    intro t
    refine filled_one hfiles hfd rfl ?_ fun g hg => ?_
    · show (update k₁.ftable f ((k₁.ftable f).opened _ _ _) f).ref = x.ref + 1
      rw [update_self, hself, hf]
      rfl
    · show update k₁.ftable f _ g = s₀.kernel.ftable g
      rw [update_of_ne hg]
      exact update_of_ne hg ..
  have htrunc : wp (onlyIf (omode &&& oTrunc ≠ 0 ∧ (s.inodes.entry ip).fields.type = typeFile)
      (inInodes (onInode ip (itrunc sb)))) (fun _ s' => ∃ t, s' = { s with
        kernel := k₂.setFile f ((k₂.ftable f).opened ip (s.inodes.entry ip).fields.type omode)
        inodes := t }) (fun e _ => ∃ p, e = .inode p) { s with
          kernel := k₂.setFile f
            ((k₂.ftable f).opened ip (s.inodes.entry ip).fields.type omode) } := by
    refine wp_onlyIf (fun _ => ?_) fun _ => ⟨s.inodes, rfl⟩
    rw [wp_inInodes]
    exact wp_mono (wp_any fun _ _ => trivial) (fun _ t _ => ⟨t, rfl⟩) fun p _ _ => ⟨p, rfl⟩
  refine wp_post htrunc ?_
  rintro _ _ ⟨t, rfl⟩
  rw [wp_inInodes]
  refine wp_mono (wp_any fun _ _ => trivial) (fun _ t' _ => ?_) fun p _ _ => ⟨p, rfl⟩
  exact .inr ⟨fd, f, rfl, hdone t'⟩

/-- **`sys_open`** fills one descriptor, or fails and restores everything. -/
theorem wp_sysOpen (hcur : s.kernel.cur = some i) (hfiles : FreeFiles s.kernel)
    (hheld : ∀ e, (s.inodes.entry e).held = false) (path : Option (List UInt8))
    (omode : BitVec 32) (name : List UInt8) :
    wp (sysOpen B sb path omode name) (fun r s' => (r = -1 ∧ Restored s s') ∨
      ∃ fd f, r = (fd.val : Int) ∧ Filled i [(fd, f)] s s') (fun e _ => ∃ p, e = .inode p) s := by
  unfold sysOpen
  -- nothing but the table of inodes has changed
  have hback : ∀ t, Since s.inodes [] ∅ t → Restored s { s with inodes := t } := by
    intro t ht
    exact ⟨fun _ => rfl, fun _ => rfl, fun e => ht.ref e, rfl, hfiles⟩
  cases path with
  | none => exact .inl ⟨rfl, hback s.inodes (.refl hheld)⟩
  | some path =>
    simp only [wp_bind, wp_get, wp_inInodes]
    refine wp_mono (wp_openInode (.refl hheld) s.cwd path omode name) ?_ fun p _ _ => ⟨p, rfl⟩
    intro r t₁ h₁
    cases r with
    | none => exact .inl ⟨rfl, hback t₁ h₁⟩
    | some ip =>
      have h₁ : Since s.inodes [ip] {ip} t₁ := h₁
      simp only [wp_bind, wp_inInodes]
      refine wp_mono (wp_openDevice h₁) ?_ fun p _ _ => ⟨p, rfl⟩
      intro ok t₂ h₂
      cases ok with
      | false => exact .inl ⟨rfl, hback t₂ h₂⟩
      | true =>
        have h₂ : Since s.inodes [ip] {ip} t₂ := h₂
        exact wp_openFile (s := { s with inodes := t₂ }) hcur hfiles rfl h₂ omode

end Open

/-! ## The system calls together -/

section AllOrNothing

variable {B : Build} {sb : Superblock} {s : Sys} {i : Fin nproc}

theorem Restored.refl (h : FreeFiles s.kernel) : Restored s s :=
  ⟨fun _ => rfl, fun _ => rfl, fun _ => rfl, rfl, h⟩

/-- **`sys_dup`, `sys_pipe` and `sys_open` are all or nothing.**  A call that returns -1 has given
back every descriptor, file, inode reference and page.  One that succeeds has filled exactly its new
descriptors, and the counts of the file table are right if they were. -/
theorem descriptors_all_or_nothing (hcur : s.kernel.cur = some i) (hfiles : FreeFiles s.kernel)
    (hframes : ∀ pa ∈ s.kernel.freelist, IsFrame B pa)
    (hheld : ∀ e, (s.inodes.entry e).held = false) :
    (∀ fd, wp (inKernel (sysDup fd)) (fun r s' => (r = -1 → Restored s s') ∧
      (r ≠ -1 → ∃ fd' f, r = (fd'.val : Int) ∧ Filled i [(fd', f)] s s'))
      (fun _ _ => ¬Counted s.kernel) s) ∧
    (∀ fdarray, wp (sysPipe B sb fdarray) (fun r s' => (r = -1 → Restored s s') ∧
      (r ≠ -1 → r = 0 ∧ ∃ fd0 fd1 rf wf, fd0 ≠ fd1 ∧ Filled i [(fd0, rf), (fd1, wf)] s s'))
      (fun _ _ => ¬UserInRam (s.kernel.ptables (s.kernel.proc i).pagetable)) s) ∧
    ∀ path omode name, wp (sysOpen B sb path omode name) (fun r s' => (r = -1 → Restored s s') ∧
      (r ≠ -1 → ∃ fd f, r = (fd.val : Int) ∧ Filled i [(fd, f)] s s'))
      (fun e _ => ∃ p, e = .inode p) s := by
  refine ⟨fun fd => ?_, fun fdarray => ?_, fun path omode name => ?_⟩
  · rw [wp_inKernel]
    refine wp_post (wp_sysDup hcur fd) ?_
    rintro r k' (⟨rfl, rfl⟩ | ⟨fd', f, rfl, -, hempty, rfl⟩)
    · exact ⟨fun _ => .refl hfiles, fun hne => absurd rfl hne⟩
    · refine ⟨fun hneg => by omega, fun _ => ⟨fd', f, rfl, ?_⟩⟩
      refine filled_one hfiles hempty rfl ?_ fun g hg => ?_
      · show (update s.kernel.ftable f _ f).ref = (s.kernel.ftable f).ref + 1
        rw [update_self]
      · exact update_of_ne hg ..
  · refine wp_post (wp_sysPipe hcur hfiles hframes fdarray) ?_
    rintro r s' (⟨rfl, h⟩ | ⟨rfl, h⟩)
    · exact ⟨fun _ => h, fun hne => absurd rfl hne⟩
    · exact ⟨fun hneg => by omega, fun _ => ⟨rfl, h⟩⟩
  · refine wp_post (wp_sysOpen hcur hfiles hheld path omode name) ?_
    rintro r s' (⟨rfl, h⟩ | ⟨fd, f, rfl, h⟩)
    · exact ⟨fun _ => h, fun hne => absurd rfl hne⟩
    · exact ⟨fun hneg => by omega, fun _ => ⟨fd, f, rfl, h⟩⟩

/-- A process with the root open as descriptor 0, and no memory mapped; one page is free. -/
def openSys : Sys :=
  ⟨{ zero.fill 0 0 (some 0) with
      ftable := update zero.ftable 0 ⟨.inode, 1, true, false, 0, 0, 0⟩
      freelist := [samplePage 20]
      cur := some 0 }, Inodes.rootState, 0⟩

/-- `dup(0)` fills descriptor 1.  `pipe` cannot store the new descriptors, and takes all back. -/
theorem openSys_all_or_nothing :
    (∃ s', inKernel (sysDup 0) openSys = .ok 1 s' ∧ ∃ f, Filled 0 [(1, f)] openSys s') ∧
    ∃ s', sysPipe (sampleBuild .none) smallSb 0 openSys = .ok (-1) s' ∧ Restored openSys s' := by
  have hfiles : FreeFiles openSys.kernel := by
    intro f hf
    by_cases h : f = 0
    · subst h
      cases hf
    · exact congrArg File.type (update_of_ne h _ zero.ftable)
  have hframes : ∀ pa ∈ openSys.kernel.freelist, IsFrame (sampleBuild .none) pa := by
    intro pa hpa
    rw [List.mem_singleton.mp hpa]
    decide
  have hall := @descriptors_all_or_nothing _ smallSb openSys 0 rfl hfiles hframes
    Inodes.rootState_held
  constructor
  · obtain ⟨s', hrun⟩ : ∃ s', inKernel (sysDup 0) openSys = .ok 1 s' := ⟨_, rfl⟩
    obtain ⟨fd, f, hfd, hfilled⟩ := ((wp_ok hrun).mp (hall.1 0)).2 (by decide)
    have hone : fd = 1 := Fin.ext (Int.ofNat.inj hfd).symm
    subst hone
    exact ⟨s', hrun, f, hfilled⟩
  · obtain ⟨s', hrun⟩ : ∃ s', sysPipe (sampleBuild .none) smallSb 0 openSys = .ok (-1) s' :=
      ⟨_, rfl⟩
    exact ⟨s', hrun, ((wp_ok hrun).mp (hall.2.1 0)).1 rfl⟩

end AllOrNothing

end Xv6Paging
