import Xv6Paging.Fs.File

/-!
# Swap files

The swap file of a process is the regular file `/.swap<pid>` in the root directory, opened by the
kernel (`createSwapFile`), read and written a page at a time, and unlinked when the process exits
or executes a new image (`removeSwapFile`).
-/

namespace Xv6Paging

open StateHalt
open Function (update update_self)

/-- The directory entry of the swap file: `.swap` and `itoa(pid)`. -/
def swapName (pid : Nat) : List Char := ".swap".toList ++ Nat.toDigits 10 pid

/-- No entry of a directory beyond `.` and `..` is in use. -/
def isdirempty (ip : Inode) : Bool :=
  (List.range (ip.size / 16)).all fun k =>
    k < 2 || (ip.data (16 * k) == 0 && ip.data (16 * k + 1) == 0)

/-- `create(path, T_FILE, 0, 0)` for a name in the root directory: the inode of an existing file
or device, or a new empty file; null for a directory. -/
def create (name : List Char) : KM (Option Nat) := do
  match (← get).rootdir name with
  | some ino => do
    let ip := (← get).inode ino
    if ip.type = tFile ∨ ip.type = tDevice then do
      modify fun s => s.setInode ino { ip with ref := ip.ref + 1 }
      pure (some ino)
    else pure none
  | none => do
    let ino ← ialloc tFile
    modify fun s => { s.setInode ino { s.inode ino with nlink := 1 } with
      rootdir := update s.rootdir name (some ino) }
    pure (some ino)

/-- `createSwapFile`; `iunlock` panics on the null inode that `create` returns for a directory. -/
def createSwapFile (p : Fin nproc) : KM Int := do
  match ← create (swapName (← getProc p).pid) with
  | none => panic "iunlock"
  | some ino => do
    match ← filealloc with
    | none => panic "no slot for files on /store"
    | some f => do
      modifyProc p fun pr => { pr with swapFile := some f }
      modify fun s => s.setFile f { s.ftable f with
        ip := ino, type := .inode, off := 0, readable := true, writable := true }
      pure 0

def removeSwapFile (B : Build) (p : Fin nproc) : KM Int := do
  let pr ← getProc p
  match pr.swapFile with
  | none => pure (-1)
  | some f => do
    fileclose B f
    match (← get).rootdir (swapName pr.pid) with
    | none => pure (-1)
    | some ino => do
      let ip := (← get).inode ino
      if ip.nlink < 1 then panic "unlink: nlink < 1"
      else if ip.type = tDir ∧ !isdirempty ip then pure (-1)
      else do
        modify fun s => { s.setInode ino { ip with nlink := ip.nlink - 1, ref := ip.ref + 1 } with
          rootdir := update s.rootdir (swapName pr.pid) none }
        iput ino
        pure 0

/-- `writeToSwapFile` of a whole page. -/
def writeToSwapFile (p : Fin nproc) (pa placeOnFile : Nat) : KM Int := do
  match (← getProc p).swapFile with
  | none => kerneltrap
  | some f => do
    modify fun s => s.setFile f { s.ftable f with off := placeOnFile }
    kfilewrite f pa pgsize

/-- `readFromSwapFile` of a whole page. -/
def readFromSwapFile (p : Fin nproc) (pa placeOnFile : Nat) : KM Int := do
  match (← getProc p).swapFile with
  | none => kerneltrap
  | some f => do
    modify fun s => s.setFile f { s.ftable f with off := placeOnFile }
    kfileread f pa pgsize

/-! ## What the operations leave alone -/

section Frame

variable {B : Build} {s : Kernel} {p : Fin nproc}

/-- **`removeSwapFile`** leaves processes and tables alone. -/
theorem removeSwapFile_frame : wp (removeSwapFile B p) (fun _ s' => FileOp s s') Panics s := by
  simp only [removeSwapFile, wp_bind, wp_getProc]
  cases (s.proc p).swapFile with
  | none => exact FileOp.refl s
  | some f =>
    simp only [wp_bind]
    refine wp_post fileclose_frame fun _ t ht => ?_
    simp only [wp_get]
    cases t.rootdir (swapName (s.proc p).pid) with
    | none => exact ht
    | some ino =>
      simp only [wp_bind, wp_get]
      refine wp_ite (fun _ => panic_panics) fun _ => wp_ite (fun _ => ht) fun _ => ?_
      rw [wp_bind, wp_modify, wp_bind]
      refine wp_post iput_frame fun _ u hu => ?_
      refine ht.trans (FileOp.trans ?_ hu.1)
      rfl

/-- The directory entry of the name leads to the inode `ino`: an existing file whose reference count
went up, or a new empty file. -/
structure Created (name : List Char) (ino : Nat) (s s' : Kernel) : Prop where
  found : s'.rootdir name = some ino
  inode : (s.rootdir name = some ino ∧ s'.rootdir = s.rootdir ∧
      s'.inode = update s.inode ino { s.inode ino with ref := (s.inode ino).ref + 1 }) ∨
    (s.rootdir name = none ∧ s'.rootdir = update s.rootdir name (some ino) ∧
      (s.inode ino).type = 0 ∧
      s'.inode = update s.inode ino { Inode.free with type := tFile, nlink := 1, ref := 1 })
  range : s.rootdir name = none → 1 ≤ ino ∧ ino < ninodes
  rest : s' = { s with inode := s'.inode, rootdir := s'.rootdir }

/-- A swap file can be opened under the name. -/
structure CanCreate (name : List Char) (s : Kernel) : Prop where
  file : ∀ ino, s.rootdir name = some ino →
    (s.inode ino).type = tFile ∨ (s.inode ino).type = tDevice
  inode : s.rootdir name = none → ∃ ino, 1 ≤ ino ∧ ino < ninodes ∧ (s.inode ino).type = 0
  slot : ∃ f, (s.ftable f).ref = 0

/-- **`create`** of a file in the root directory. -/
theorem create_spec {name : List Char} : wp (create name)
      (fun o s' => (o = none ∧ ¬CanCreate name s ∧ s' = s) ∨ ∃ ino, o = some ino ∧
        Created name ino s s') (fun e _ => e ≠ .exited ∧ ¬CanCreate name s) s := by
  simp only [create, wp_bind, wp_get]
  cases hdir : s.rootdir name with
  | some ino =>
    simp only [wp_bind, wp_get]
    refine wp_ite (fun _ => ?_) fun h => .inl ⟨rfl, fun hcan => h (hcan.file ino hdir), rfl⟩
    refine .inr ⟨ino, rfl, hdir, .inl ⟨hdir, rfl, rfl⟩, fun h => ?_, rfl⟩
    rw [hdir] at h
    cases h
  | none =>
    simp only [wp_bind, ialloc, wp_get]
    cases hfind : (List.range' 1 (ninodes - 1)).find? fun ino => (s.inode ino).type == 0 with
    | none =>
      refine ⟨by simp, fun hcan => ?_⟩
      obtain ⟨ino, h1, h2, h0⟩ := hcan.inode hdir
      have hmem : ino ∈ List.range' 1 (ninodes - 1) := by
        rw [List.mem_range'_1]
        omega
      have := List.find?_eq_none.mp hfind ino hmem
      simp [h0] at this
    | some ino =>
      have h0 : (s.inode ino).type = 0 := by simpa using List.find?_some hfind
      have hrange := List.mem_range'_1.mp (List.mem_of_find?_eq_some hfind)
      refine .inr ⟨ino, rfl, by simp, .inr ⟨hdir, rfl, h0, ?_⟩, fun _ => by omega, rfl⟩
      simp [Kernel.setInode]

/-- The file `f` of the process `p` was opened on the inode `ino`. -/
structure OpenedSwapFile (p : Fin nproc) (f : Fin nfile) (ino : Nat) (s s' : Kernel) : Prop where
  free : (s.ftable f).ref = 0
  ftable : s'.ftable = update s.ftable f ⟨.inode, 1, true, true, (s.ftable f).pipe, ino, 0⟩
  proc : s'.proc = update s.proc p { s.proc p with swapFile := some f }
  created : ∃ t, Created (swapName (s.proc p).pid) ino s t ∧ s'.inode = t.inode ∧
    s'.rootdir = t.rootdir
  rest : s' = { s with
    proc := s'.proc, ftable := s'.ftable, inode := s'.inode, rootdir := s'.rootdir }

/-- **`createSwapFile`.** -/
theorem createSwapFile_spec :
    wp (createSwapFile p) (fun r s' => r = 0 ∧ ∃ f ino, OpenedSwapFile p f ino s s')
      (fun e _ => e ≠ .exited ∧ ¬CanCreate (swapName (s.proc p).pid) s) s := by
  simp only [createSwapFile, wp_bind, wp_getProc]
  refine wp_post create_spec fun o t ht => ?_
  rcases ht with ⟨rfl, hn, rfl⟩ | ⟨ino, rfl, ht⟩
  · exact ⟨by simp, hn⟩
  have htf : t.ftable = s.ftable := by rw [ht.rest]
  have htp : t.proc = s.proc := by rw [ht.rest]
  simp only [wp_bind, filealloc, wp_get]
  cases hfind : (List.finRange nfile).find? fun f => (t.ftable f).ref == 0 with
  | none =>
    refine ⟨by simp, fun hcan => ?_⟩
    obtain ⟨f, hf⟩ := hcan.slot
    have := List.find?_eq_none.mp hfind f (List.mem_finRange f)
    simp [htf, hf] at this
  | some f =>
    have hf : (s.ftable f).ref = 0 := by simpa [htf] using List.find?_some hfind
    simp only [wp_bind, wp_modify, wp_pure, wp_modifyProc]
    refine ⟨trivial, f, ino, hf, ?_, ?_, ⟨t, ht, rfl, rfl⟩, ?_⟩
    · simp [Kernel.setFile, Kernel.setProc, htf]
    · simp [Kernel.setFile, Kernel.setProc, htp]
    · have hrest := ht.rest
      refine Kernel.ext ?_ ?_ ?_ rfl ?_ ?_ ?_ ?_ ?_ rfl ?_ rfl rfl
      all_goals
        simp only [Kernel.setFile, Kernel.setProc]
        rw [hrest]

end Frame

/-! ## A swap file of its own -/

/-- The process `p` has the swap file `f` open, and nothing but `f` and its directory entry refers
to the inode `ino`. -/
structure OwnsSwapFile (p : Fin nproc) (f : Fin nfile) (ino : Nat) (s : Kernel) : Prop where
  file : (s.proc p).swapFile = some f
  type : (s.ftable f).type = .inode
  ref : (s.ftable f).ref = 1
  ip : (s.ftable f).ip = ino
  entry : s.rootdir (swapName (s.proc p).pid) = some ino
  inode : (s.inode ino).type = tFile ∧ (s.inode ino).nlink = 1 ∧ (s.inode ino).ref = 1
  range : 1 ≤ ino ∧ ino < ninodes

section Own

variable {B : Build} {s : Kernel} {p : Fin nproc} {f : Fin nfile} {ino : Nat}

theorem OwnsSwapFile.setProc {pr : Proc} (h : OwnsSwapFile p f ino s)
    (hfile : pr.swapFile = (s.proc p).swapFile) (hpid : pr.pid = (s.proc p).pid) :
    OwnsSwapFile p f ino (s.setProc p pr) := by
  refine ⟨?_, h.type, h.ref, h.ip, ?_, h.inode, h.range⟩
  · rw [Kernel.setProc_self, hfile, h.file]
  · rw [Kernel.setProc_self, hpid]
    exact h.entry

/-- **`removeSwapFile`** frees the inode, the file and the directory entry. -/
theorem OwnsSwapFile.removeSwapFile (h : OwnsSwapFile p f ino s) :
    wp (removeSwapFile B p) (fun r t => r = 0 ∧ t.proc = s.proc ∧
      t.rootdir (swapName (s.proc p).pid) = none ∧ CanCreate (swapName (s.proc p).pid) t)
      (fun _ _ => False) s := by
  obtain ⟨htype, hlink, href⟩ := h.inode
  -- the file drops its reference first, so the link holds the inode until the entry goes
  have hclose : wp (fileclose B f) (fun _ t => t.proc = s.proc ∧ t.rootdir = s.rootdir ∧
      t.inode ino = { s.inode ino with ref := 0 } ∧ (t.ftable f).ref = 0) (fun _ _ => False) s := by
    simp [fileclose, iput, Kernel.setFile, Kernel.setInode, h.ref, h.type, h.ip, href,
      hlink]
  simp only [Xv6Paging.removeSwapFile, wp_bind, wp_getProc, h.file]
  refine wp_post hclose ?_
  rintro _ t ⟨hproc, hroot, hino, hfree⟩
  simp only [wp_bind, wp_get, hroot, h.entry, hino, hlink, htype, Nat.lt_irrefl, if_false]
  rw [if_neg (by simp [tFile, tDir]), wp_bind, wp_modify, wp_bind]
  simp only [iput, wp_modify, wp_pure, Kernel.setInode, update_self]
  refine ⟨trivial, hproc, trivial, fun i hi => ?_, fun _ => ⟨ino, h.range.1, h.range.2, ?_⟩, f,
    hfree⟩
  · simp at hi
  · simp [Inode.free]

/-- **The swap file is made anew**, in a file and an inode that may be others. -/
theorem OwnsSwapFile.renew (h : OwnsSwapFile p f ino s) :
    wp (Xv6Paging.removeSwapFile B p >>= fun r => do
        if r = -1 then panic "failure when trying to remove swapfile"
        else if (← createSwapFile p) = -1 then panic "failure when trying to create swapfile"
        else pure ())
      (fun _ t => ∃ g i, OwnsSwapFile p g i t ∧
        t.proc = update s.proc p { s.proc p with swapFile := some g })
      (fun _ _ => False) s := by
  rw [wp_bind]
  refine wp_post h.removeSwapFile ?_
  rintro r t ⟨rfl, hproc, hnone, hcan⟩
  rw [if_neg (by decide), wp_bind]
  refine wp_mono createSwapFile_spec ?_ fun _ _ he => he.2 (by rwa [hproc])
  rintro r u ⟨rfl, g, i, hopen⟩
  rw [if_neg (by decide)]
  refine ⟨g, i, ?_, by rw [hopen.proc, hproc]⟩
  obtain ⟨v, hv, hinode, hroot⟩ := hopen.created
  rw [hproc] at hv
  have hnew : u.inode i = { Inode.free with type := tFile, nlink := 1, ref := 1 } := by
    rcases hv.inode with ⟨hsome, -⟩ | ⟨-, -, -, hnew⟩
    · rw [hnone] at hsome
      cases hsome
    · rw [hinode, hnew, update_self]
  have hup : u.proc p = { s.proc p with swapFile := some g } := by
    rw [hopen.proc, update_self, hproc]
  have hug : u.ftable g = ⟨.inode, 1, true, true, (t.ftable g).pipe, i, 0⟩ := by
    rw [hopen.ftable, update_self]
  refine ⟨by rw [hup], by rw [hug], by rw [hug], by rw [hug], ?_, by rw [hnew]; simp,
    hv.range hnone⟩
  rw [hroot, hup]
  exact hv.found

end Own

/-! ## Slots -/

/-- The process `pr` has the swap file `f` open for reading and writing. -/
structure HasSwapFile (s : Kernel) (pr : Proc) (f : Fin nfile) : Prop where
  file : pr.swapFile = some f
  type : (s.ftable f).type = .inode
  readable : (s.ftable f).readable = true
  writable : (s.ftable f).writable = true

/-- The inode with the page `pg` stored in the slot `j`. -/
def Inode.storeSlot (ip : Inode) (j : Nat) (pg : Page) : Inode :=
  { ip with
    size := max ip.size (j * pgsize + pgsize)
    data := fun k => if j * pgsize ≤ k ∧ k < j * pgsize + pgsize then pageBytes pg (k - j * pgsize)
      else ip.data k }

section Slots

variable {s : Kernel} {p : Fin nproc} {pa : Nat} {j : Fin maxPsycPages}

theorem readiCount_slot {ip : Inode} (h : (j + 1) * pgsize ≤ ip.size) :
    readiCount ip (j * pgsize) pgsize = pgsize := by
  have hj := j.isLt
  simp only [readiCount, pgsize, maxPsycPages] at *
  rw [if_neg (by omega), if_neg (by omega)]

/-- **`readFromSwapFile`** of the slot `j`. -/
theorem readFromSwapFile_spec : wp (readFromSwapFile p pa (j * pgsize))
      (fun r s' => FileRW s s' ∧ s'.inode = s.inode ∧ (∀ q, q ≠ pa → s'.mem q = s.mem q) ∧
        ∀ f, HasSwapFile s (s.proc p) f → (j + 1) * pgsize ≤ (s.inode (s.ftable f).ip).size →
          r = pgsize ∧ (kernbase ≤ pa ∧ pa < phystop) ∧
            s'.mem pa = fun k => (s.inode (s.ftable f).ip).data (j * pgsize + k.val))
      (fun e _ => e ≠ .exited ∧
        ∀ f, HasSwapFile s (s.proc p) f → ¬(kernbase ≤ pa ∧ pa < phystop)) s := by
  simp only [readFromSwapFile, wp_bind, wp_getProc]
  cases hf : (s.proc p).swapFile with
  | none => exact ⟨by simp, fun f h => absurd h.file (by simp [hf])⟩
  | some f =>
    simp only [wp_bind, wp_modify]
    refine wp_mono kfileread_spec ?_ ?_
    · rintro r s' ⟨hio, hino, hmem, hexact⟩
      refine ⟨(FileRW.setOff s f _).trans hio, hino, hmem, fun g hg hsize => ?_⟩
      obtain rfl : g = f := by simpa [hf] using hg.file.symm
      simp only [Kernel.setFile, update_self] at hexact
      obtain ⟨rfl, hpage⟩ := hexact hg.readable
      rw [readiCount_slot hsize] at hpage ⊢
      obtain ⟨hk, hpage⟩ := hpage (by decide)
      refine ⟨rfl, hk, ?_⟩
      rw [hpage]
      funext k
      simp [fillPage, k.isLt]
    · rintro e s' ⟨he, hk⟩
      refine ⟨he, fun g hg => hk ?_⟩
      obtain rfl : g = f := by simpa [hf] using hg.file.symm
      simpa [Kernel.setFile] using hg.type

/-- **`writeToSwapFile`** of the slot `j`. -/
theorem writeToSwapFile_spec : wp (writeToSwapFile p pa (j * pgsize))
      (fun r s' => FileRW s s' ∧ s'.mem = s.mem ∧
        ∀ f, HasSwapFile s (s.proc p) f → j * pgsize ≤ (s.inode (s.ftable f).ip).size →
          r = pgsize ∧ s'.inode = update s.inode (s.ftable f).ip
            ((s.inode (s.ftable f).ip).storeSlot j (s.mem pa))) (fun e _ => e ≠ .exited ∧
        ∀ f, HasSwapFile s (s.proc p) f → ¬(kernbase ≤ pa ∧ pa < phystop)) s := by
  simp only [writeToSwapFile, wp_bind, wp_getProc]
  cases hf : (s.proc p).swapFile with
  | none => exact ⟨by simp, fun f h => absurd h.file (by simp [hf])⟩
  | some f =>
    simp only [wp_bind, wp_modify]
    refine wp_mono kfilewrite_spec ?_ ?_
    · rintro r s' ⟨hio, hmem, hexact⟩
      refine ⟨(FileRW.setOff s f _).trans hio, hmem, fun g hg hsize => ?_⟩
      obtain rfl : g = f := by simpa [hf] using hg.file.symm
      have hmax : j * pgsize + pgsize ≤ maxFileBytes := by
        have hj : j.val < 16 := j.isLt
        clear hexact hsize
        show j.val * 4096 + 4096 ≤ (12 + 256) * 1024
        omega
      simp only [Kernel.setFile, update_self] at hexact
      obtain ⟨hr, rfl⟩ := hexact hg.type hg.writable hsize hmax
      refine ⟨hr, ?_⟩
      simp [Kernel.writeChunk, Kernel.setFile, Kernel.setInode, Inode.storeSlot]
    · rintro e s' ⟨he, hk⟩
      refine ⟨he, fun g hg => hk ?_⟩
      obtain rfl : g = f := by simpa [hf] using hg.file.symm
      simpa [Kernel.setFile] using hg.type

end Slots

end Xv6Paging
