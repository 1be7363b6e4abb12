import Xv6Paging.Vm.Kalloc

/-!
# Open files, pipes and inodes

The part of `file.c`, `pipe.c` and `fs.c` under a process's descriptors and its swap file: the
reference counts of `ftable`, the page of a pipe, and inodes as byte sequences with a size.
-/

namespace Xv6Paging

open StateHalt

/-- `T_DIR` and `T_FILE`; type 0 is a free inode, 3 is `T_DEVICE`. -/
abbrev tDir : Nat := 1
abbrev tFile : Nat := 2
abbrev tDevice : Nat := 3

/-- `MAXFILE * BSIZE`. -/
abbrev maxFileBytes : Nat := (12 + 256) * 1024

/-- `NINODES` of `mkfs.c`. -/
abbrev ninodes : Nat := 200

/-! ## Inodes -/

/-- The number of bytes `readi` transfers, with its 32-bit overflow check. -/
def readiCount (ip : Inode) (off n : Nat) : Nat :=
  if off > ip.size ∨ (off + n) % 2 ^ 32 < off then 0
  else if off + n > ip.size then ip.size - off
  else n

/-- `writei` into the bytes of the inode; `none` for the error return -1. -/
def Inode.writei (ip : Inode) (src : Nat → UInt8) (off n : Nat) : Option Inode :=
  if off > ip.size ∨ (off + n) % 2 ^ 32 < off then none
  else if off + n > maxFileBytes then none
  else some { ip with
    size := max ip.size (off + n)
    data := fun k => if off ≤ k ∧ k < off + n then src (k - off) else ip.data k }

/-- `iput`: drop a reference; the last one to an unlinked inode frees it. -/
def iput (ino : Nat) : KM Unit :=
  modify fun s =>
    let ip := s.inode ino
    s.setInode ino (if ip.ref = 1 ∧ ip.nlink = 0 then .free else { ip with ref := ip.ref - 1 })

/-- `ialloc`, with a reference; `create` panics when it fails. -/
def ialloc (type : Nat) : KM Nat := do
  let s ← get
  match (List.range' 1 (ninodes - 1)).find? fun ino => (s.inode ino).type == 0 with
  | none => panic "ialloc: no inodes"
  | some ino => do
    modify fun s => s.setInode ino { Inode.free with type := type, ref := 1 }
    pure ino

/-! ## Pipes -/

/-- `pipeclose`: the page goes when both ends are closed. -/
def pipeclose (B : Build) (pi : Nat) (writable : Bool) : KM Unit := do
  modify fun s => { s with
    pipe := Function.update s.pipe pi
      (if writable then { s.pipe pi with writeopen := false }
       else { s.pipe pi with readopen := false }) }
  let p := (← get).pipe pi
  onlyIf (!p.readopen && !p.writeopen) (kfree B pi)

/-! ## The file table -/

def filealloc : KM (Option (Fin nfile)) := do
  let s ← get
  match (List.finRange nfile).find? fun f => (s.ftable f).ref == 0 with
  | none => pure none
  | some f => do
    modify fun s => s.setFile f { s.ftable f with ref := 1 }
    pure (some f)

def filedup (f : Fin nfile) : KM Unit := do
  let x := (← get).ftable f
  if x.ref < 1 then panic "filedup"
  else modify fun s => s.setFile f { x with ref := x.ref + 1 }

def fileclose (B : Build) (f : Fin nfile) : KM Unit := do
  let ff := (← get).ftable f
  if ff.ref < 1 then panic "fileclose"
  else if ff.ref - 1 > 0 then modify fun s => s.setFile f { ff with ref := ff.ref - 1 }
  else do
    modify fun s => s.setFile f { ff with ref := 0, type := .none }
    match ff.type with
    | .pipe => pipeclose B ff.pipe ff.writable
    | .inode => iput ff.ip
    | .device => iput ff.ip
    | .none => pure ()

/-- `kfileread` of at most a page into the page at `pa`.  The kernel only reads swap files here,
which are inodes. -/
def kfileread (f : Fin nfile) (pa n : Nat) : KM Int := do
  let x := (← get).ftable f
  if !x.readable then pure (-1)
  else
    match x.type with
    | .inode => do
      let ip := (← get).inode x.ip
      let r := readiCount ip x.off n
      onlyIf (r > 0) do
        storePage pa (fillPage (← loadPage pa) r fun k => ip.data (x.off + k))
        modify fun s => s.setFile f { s.ftable f with off := x.off + r }
      pure r
    | .none => panic "fileread"
    | .pipe => kerneltrap
    | .device => kerneltrap

/-- The chunk `((MAXOPBLOCKS-1-1-2) / 2) * BSIZE` that `kfilewrite` writes in one transaction. -/
abbrev writeChunk : Nat := (10 - 1 - 1 - 2) / 2 * 1024

/-- The loop of `kfilewrite` from `i` on: chunk after chunk until one is short.  Every round but
the last writes a whole chunk, so `fuel = n` rounds are enough. -/
def kfilewriteLoop (f : Fin nfile) (src : Nat → UInt8) (n : Nat) : Nat → Nat → KM Int
  | 0, i => pure (if i = n then n else -1)
  | fuel + 1, i =>
    if i < n then do
      let n1 := min (n - i) writeChunk
      let x := (← get).ftable f
      match ((← get).inode x.ip).writei (fun k => src (i + k)) x.off n1 with
      | none => pure (-1)
      | some ip => do
        modify fun s => (s.setInode x.ip ip).setFile f { x with off := x.off + n1 }
        kfilewriteLoop f src n fuel (i + n1)
    else pure (if i = n then n else -1)

/-- `kfilewrite` of `n` bytes from the page at `pa`. -/
def kfilewrite (f : Fin nfile) (pa n : Nat) : KM Int := do
  let x := (← get).ftable f
  if !x.writable then pure (-1)
  else
    match x.type with
    | .inode => do
      let pg ← loadPage pa
      kfilewriteLoop f (pageBytes pg) n n 0
    | .none => panic "filewrite"
    | .pipe => kerneltrap
    | .device => kerneltrap

/-! ## What the operations leave alone -/

/-- Page tables and processes are untouched. -/
def FileOp (s s' : Kernel) : Prop :=
  s' = { s with
    freelist := s'.freelist, mem := s'.mem, ftable := s'.ftable, pipe := s'.pipe
    inode := s'.inode, rootdir := s'.rootdir }

namespace FileOp

variable {s t u : Kernel}

theorem refl (s : Kernel) : FileOp s s := rfl

theorem trans (h : FileOp s t) (h' : FileOp t u) : FileOp s u := by
  unfold FileOp at *
  rw [h', h]

theorem proc_eq (h : FileOp s t) : t.proc = s.proc := by rw [h]

end FileOp

section Frame

variable {B : Build} {s : Kernel} {f : Fin nfile} {E : Halt → Kernel → Prop} {n : Nat}

theorem iput_frame {ino : Nat} :
    wp (iput ino) (fun _ s' => FileOp s s' ∧ s'.freelist = s.freelist) E s := ⟨rfl, rfl⟩

theorem pipeclose_frame {pi : Nat} {writable : Bool} :
    wp (pipeclose B pi writable) (fun _ s' => FileOp s s') Panics s := by
  simp only [pipeclose, wp_bind, wp_modify, wp_get]
  refine wp_onlyIf (fun _ => ?_) fun _ => rfl
  rw [wp_kfree]
  split
  · rfl
  · exact panics_panic _ _

/-- **`fileclose`** leaves processes and tables alone. -/
theorem fileclose_frame : wp (fileclose B f) (fun _ s' => FileOp s s') Panics s := by
  simp only [fileclose, wp_bind, wp_get]
  refine wp_ite (fun _ => panic_panics) fun _ => ?_
  refine wp_ite (fun _ => rfl) fun _ => ?_
  rw [wp_bind, wp_modify]
  have hset : FileOp s (s.setFile f { s.ftable f with ref := 0, type := .none }) := rfl
  cases (s.ftable f).type with
  | none => exact hset
  | pipe => exact wp_post pipeclose_frame fun _ _ h => hset.trans h
  | inode => exact wp_post iput_frame fun _ _ h => hset.trans h.1
  | device => exact wp_post iput_frame fun _ _ h => hset.trans h.1

/-- Reading or writing: positions, pages and the bytes of inodes change, nothing else. -/
structure FileRW (s s' : Kernel) : Prop where
  rest : s' = { s with mem := s'.mem, ftable := s'.ftable, inode := s'.inode }
  file : ∀ f, s'.ftable f = { s.ftable f with off := (s'.ftable f).off }

theorem FileRW.refl (s : Kernel) : FileRW s s := ⟨rfl, fun _ => rfl⟩

theorem FileRW.trans {s t u : Kernel} (h : FileRW s t) (h' : FileRW t u) : FileRW s u where
  rest := by rw [h'.rest, h.rest]
  file f := by rw [h'.file, h.file]

theorem FileRW.setOff (s : Kernel) (f : Fin nfile) (off : Nat) :
    FileRW s (s.setFile f { s.ftable f with off := off }) where
  rest := rfl
  file g := by
    by_cases hg : g = f
    · subst hg
      simp [Kernel.setFile]
    · simp [Kernel.setFile, hg]

/-- **`kfileread`** of a page. -/
theorem kfileread_spec {pa : Nat} : wp (kfileread f pa n)
      (fun r s' => FileRW s s' ∧ s'.inode = s.inode ∧ (∀ q, q ≠ pa → s'.mem q = s.mem q) ∧
        ((s.ftable f).readable = true →
          r = readiCount (s.inode (s.ftable f).ip) (s.ftable f).off n ∧
          (0 < r → (kernbase ≤ pa ∧ pa < phystop) ∧ s'.mem pa = fillPage (s.mem pa) r.toNat fun k =>
            (s.inode (s.ftable f).ip).data ((s.ftable f).off + k)))) (fun e _ => e ≠ .exited ∧
        ((s.ftable f).type = .inode → ¬(kernbase ≤ pa ∧ pa < phystop))) s := by
  simp only [kfileread, wp_bind, wp_get]
  refine wp_ite (fun h => ?_) fun h => ?_
  · refine ⟨.refl s, rfl, fun _ _ => rfl, fun hr => ?_⟩
    simp [hr] at h
  cases ht : (s.ftable f).type with
  | none => exact ⟨by simp, fun h => by simp at h⟩
  | pipe => exact ⟨by simp, fun h => by simp at h⟩
  | device => exact ⟨by simp, fun h => by simp at h⟩
  | inode =>
    simp only [wp_bind, wp_get]
    generalize hr : readiCount (s.inode (s.ftable f).ip) (s.ftable f).off n = r
    refine wp_onlyIf (fun hpos => ?_) fun hpos => ?_
    · simp only [wp_bind, wp_loadPage, wp_storePage]
      split
      · rename_i hk
        simp only [wp_modify, wp_pure]
        refine ⟨⟨rfl, (FileRW.setOff _ f _).file⟩, rfl, fun q hq => ?_,
          fun _ => ⟨trivial, fun _ => ⟨hk, ?_⟩⟩⟩
        · simp [Kernel.setFile, Kernel.setPage, hq]
        · simp [Kernel.setFile, Kernel.setPage]
      · exact ⟨by simp, fun _ => ‹_›⟩
    · refine ⟨.refl s, rfl, fun _ _ => rfl, fun _ => ⟨rfl, fun h => ?_⟩⟩
      exact absurd h (by omega)

theorem kfilewriteLoop_frame {src : Nat → UInt8} {n : Nat} {E : Halt → Kernel → Prop} :
    ∀ {fuel i : Nat} {s : Kernel}, wp (kfilewriteLoop f src n fuel i)
      (fun _ s' => FileRW s s' ∧ s'.mem = s.mem) E s := by
  intro fuel
  induction fuel with
  | zero => intro i s; exact ⟨.refl s, rfl⟩
  | succ fuel ih =>
    intro i s
    rw [kfilewriteLoop]
    refine wp_ite (fun hi => ?_) fun hi => ⟨.refl s, rfl⟩
    simp only [wp_bind, wp_get]
    cases (s.inode (s.ftable f).ip).writei (fun k => src (i + k)) (s.ftable f).off
        (min (n - i) writeChunk) with
    | none => exact ⟨.refl s, rfl⟩
    | some ip =>
      simp only [wp_bind, wp_modify]
      refine wp_post ih fun _ s' h => ⟨FileRW.trans ⟨rfl, ?_⟩ h.1, h.2⟩
      exact (FileRW.setOff s f _).file

theorem Inode.writei_eq {ip : Inode} {src : Nat → UInt8} {off : Nat} (hs : off ≤ ip.size)
    (hm : off + n ≤ maxFileBytes) : ip.writei src off n = some { ip with
      size := max ip.size (off + n)
      data := fun k => if off ≤ k ∧ k < off + n then src (k - off) else ip.data k } := by
  have h32 : ¬(off > ip.size ∨ (off + n) % 2 ^ 32 < off) := by
    simp only [maxFileBytes] at hm
    omega
  rw [writei, if_neg h32, if_neg (Nat.not_lt.mpr hm)]

/-- The state after a chunk of `n` bytes was written at the position of the file. -/
def Kernel.writeChunk (s : Kernel) (f : Fin nfile) (src : Nat → UInt8) (n : Nat) : Kernel :=
  let x := s.ftable f
  let ip := s.inode x.ip
  (s.setInode x.ip { ip with
    size := max ip.size (x.off + n)
    data := fun k => if x.off ≤ k ∧ k < x.off + n then src (k - x.off) else ip.data k }).setFile f
      { x with off := x.off + n }

theorem wp_kfilewriteLoop_succ {src : Nat → UInt8} {fuel i : Nat}
    {Q : Int → Kernel → Prop} (hi : i < n) (hs : (s.ftable f).off ≤ (s.inode (s.ftable f).ip).size)
    (hm : (s.ftable f).off + min (n - i) writeChunk ≤ maxFileBytes) :
    wp (kfilewriteLoop f src n (fuel + 1) i) Q E s ↔
      wp (kfilewriteLoop f src n fuel (i + min (n - i) writeChunk)) Q E
        (s.writeChunk f (fun k => src (i + k)) (min (n - i) writeChunk)) := by
  simp only [kfilewriteLoop, if_pos hi, wp_bind, wp_get, Inode.writei_eq hs hm, wp_modify]
  rfl

theorem Kernel.writeChunk_writeChunk (s : Kernel) (f : Fin nfile) (src : Nat → UInt8) (m n : Nat) :
    (s.writeChunk f src m).writeChunk f (fun k => src (m + k)) n = s.writeChunk f src (m + n) := by
  have hdata : ∀ off k, (if off + m ≤ k ∧ k < off + (m + n) then src (m + (k - (off + m))) else
      if off ≤ k ∧ k < off + m then src (k - off) else (s.inode (s.ftable f).ip).data k) =
      if off ≤ k ∧ k < off + (m + n) then src (k - off)
      else (s.inode (s.ftable f).ip).data k := by
    intro off k
    by_cases h1 : off + m ≤ k ∧ k < off + (m + n)
    · rw [if_pos h1, if_pos (by omega), show m + (k - (off + m)) = k - off by omega]
    · rw [if_neg h1]
      by_cases h2 : off ≤ k ∧ k < off + m
      · rw [if_pos h2, if_pos (by omega)]
      · rw [if_neg h2, if_neg (by omega)]
  have hsize : ∀ off size : Nat,
      max (max size (off + m)) (off + (m + n)) = max size (off + (m + n)) := by
    omega
  simp only [writeChunk, setFile, setInode, Function.update_self, Function.update_idem,
    Nat.add_assoc, hdata, hsize]

theorem wp_kfilewriteLoop {src : Nat → UInt8} {fuel : Nat} {E : Halt → Kernel → Prop}
    {Q : Int → Kernel → Prop} (hs : (s.ftable f).off ≤ (s.inode (s.ftable f).ip).size)
    (hm : (s.ftable f).off + pgsize ≤ maxFileBytes) :
    wp (kfilewriteLoop f src pgsize (fuel + 3) 0) Q E s ↔ Q pgsize (s.writeChunk f src pgsize) := by
  have h1 : min (pgsize - 0) Xv6Paging.writeChunk = 3072 := by decide
  have h2 : min (pgsize - (0 + 3072)) Xv6Paging.writeChunk = 1024 := by decide
  have hm' : (s.ftable f).off + 4096 ≤ maxFileBytes := hm
  rw [wp_kfilewriteLoop_succ (by decide) hs (by rw [h1]; omega), h1,
    wp_kfilewriteLoop_succ (by decide), h2]
  · simp only [Nat.zero_add]
    rw [Kernel.writeChunk_writeChunk]
    rfl
  · simp [Kernel.writeChunk, Kernel.setFile, Kernel.setInode]
  · rw [h2]
    simp only [Kernel.writeChunk, Kernel.setFile, Function.update_self]
    omega

/-- **`kfilewrite`** of a page. -/
theorem kfilewrite_spec {pa : Nat} : wp (kfilewrite f pa pgsize)
      (fun r s' => FileRW s s' ∧ s'.mem = s.mem ∧
        ((s.ftable f).type = .inode → (s.ftable f).writable = true →
          (s.ftable f).off ≤ (s.inode (s.ftable f).ip).size →
          (s.ftable f).off + pgsize ≤ maxFileBytes →
          r = pgsize ∧ s' = s.writeChunk f (pageBytes (s.mem pa)) pgsize))
      (fun e _ => e ≠ .exited ∧
        ((s.ftable f).type = .inode → ¬(kernbase ≤ pa ∧ pa < phystop))) s := by
  simp only [kfilewrite, wp_bind, wp_get]
  refine wp_ite (fun h => ?_) fun h => ?_
  · refine ⟨.refl s, rfl, fun _ hw => ?_⟩
    simp [hw] at h
  cases ht : (s.ftable f).type with
  | none => exact ⟨by simp, fun h => by simp at h⟩
  | pipe => exact ⟨by simp, fun h => by simp at h⟩
  | device => exact ⟨by simp, fun h => by simp at h⟩
  | inode =>
    simp only [wp_bind, wp_loadPage]
    split
    · have hframe := @kfilewriteLoop_frame f (pageBytes (s.mem pa)) pgsize
        (fun _ _ => False) pgsize 0 s
      obtain ⟨r, s', hrun, hio, hmem⟩ := wp_total hframe
      refine (wp_ok hrun).mpr ⟨hio, hmem, fun _ _ hs hm => ?_⟩
      have hexact : wp (kfilewriteLoop f (pageBytes (s.mem pa)) pgsize pgsize 0)
          (fun r s' => r = pgsize ∧ s' = s.writeChunk f (pageBytes (s.mem pa)) pgsize)
          (fun _ _ => False) s :=
        (@wp_kfilewriteLoop s f _ 4093 _ _ hs hm).mpr ⟨rfl, rfl⟩
      have h := wp_returns hexact hrun
      exact h
    · exact ⟨by simp, fun _ => ‹_›⟩

/-- **`filealloc`** takes a file that nobody refers to. -/
theorem filealloc_spec :
    wp filealloc (fun o s' => (o = none ∧ s' = s) ∨ ∃ f, o = some f ∧ (s.ftable f).ref = 0 ∧
      s' = s.setFile f { s.ftable f with ref := 1 }) E s := by
  simp only [filealloc, wp_bind, wp_get]
  cases h : (List.finRange nfile).find? fun f => (s.ftable f).ref == 0 with
  | none => exact .inl ⟨rfl, rfl⟩
  | some f => exact .inr ⟨f, rfl, by simpa using List.find?_some h, rfl⟩

end Frame

end Xv6Paging
