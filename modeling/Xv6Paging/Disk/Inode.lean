import Xv6Paging.Disk.BlockMap
import Xv6Paging.Logic.Wp

/-!
# Blocks and inodes in the kernel

`fs.c` above the buffer cache: the allocator of blocks, the block map of an inode, and reading,
writing and truncating a file.  The disk is what the buffer cache shows, and a function works on one
locked inode, which is in memory.  How far the copies to and from the caller get is not known here:
`readi` and `writei` are given the outcome of each copy.
-/

namespace Xv6Paging.Disk

open StateHalt
open Function (update)

/-- `struct superblock`. -/
structure Superblock where
  magic : BitVec 32
  size : BitVec 32
  nblocks : BitVec 32
  ninodes : BitVec 32
  nlog : BitVec 32
  logstart : BitVec 32
  inodestart : BitVec 32
  bmapstart : BitVec 32
deriving DecidableEq

def iblock (sb : Superblock) (i : Nat) : Nat := i / ipb + sb.inodestart.toNat

def bblock (sb : Superblock) (b : Nat) : Nat := b / bpb + sb.bmapstart.toNat

/-- The inode `i` on the disk. -/
def diskInode (sb : Superblock) (disk : Nat → Block) (i : Nat) : Dinode :=
  (disk (iblock sb i)).dinode (i % ipb)

/-- The bit of the block `b` in the free map. -/
def diskBit (sb : Superblock) (disk : Nat → Block) (b : Nat) : Bool :=
  (disk (bblock sb b)).bit (b % bpb)

/-- The texts of the panics. -/
inductive FsPanic
  | outOfBlocks
  | freeingFreeBlock
  | bmapOutOfRange
  | noInodes
  | noType
deriving DecidableEq

/-- The disk, and the locked inode. -/
structure FsState where
  disk : Nat → Block
  inum : Nat
  ip : Dinode

/-- A function of `fs.c`. -/
abbrev FsM := EStateM FsPanic FsState

section Functions

variable (sb : Superblock)

/-- The first block whose bit is clear, in the order of the two loops of `balloc`. -/
def clearBit (disk : Nat → Block) : Option Nat :=
  (List.range ((sb.size.toNat + bpb - 1) / bpb)).findSome? fun k =>
    (List.range bpb).findSome? fun bi =>
      let b := k * bpb
      if b + bi < sb.size.toNat ∧ (disk (bblock sb b)).bit bi = false then some (b + bi) else none

/-- The bit of a block is written. -/
def writeBit (disk : Nat → Block) (b : Nat) (v : Bool) : Nat → Block :=
  update disk (bblock sb b) ((disk (bblock sb b)).setBit (b % bpb) v)

/-- An inode is written. -/
def writeInode (disk : Nat → Block) (i : Nat) (d : Dinode) : Nat → Block :=
  update disk (iblock sb i) ((disk (iblock sb i)).setDinode (i % ipb) d)

/-- `balloc`: a block of zeroes. -/
def balloc : FsM Nat := do
  match clearBit sb (← get).disk with
  | none => throw .outOfBlocks
  | some b =>
    modify fun s => { s with disk := update (writeBit sb s.disk b true) b .zero }
    pure b

def bfree (b : Nat) : FsM Unit := do
  if diskBit sb (← get).disk b then
    modify fun s => { s with disk := writeBit sb s.disk b false }
  else throw .freeingFreeBlock

/-- `if(addr == 0) addr = balloc(ip->dev)`, with the assignment to the place of `addr`. -/
def ballocIfZero (addr : Nat) (assign : Nat → FsState → FsState) : FsM Nat := do
  if addr = 0 then
    let b ← balloc sb
    modify (assign b)
    pure b
  else pure addr

/-- The number of a block in the in-memory inode. -/
def FsState.addr (s : FsState) (k : Fin (ndirect + 1)) : Nat := (s.ip.addrs k).toNat

/-- `ip->addrs[k] = b`. -/
def FsState.setAddr (k : Fin (ndirect + 1)) (b : Nat) (s : FsState) : FsState :=
  { s with ip := s.ip.setAddr k b }

/-- `a[k] = b` in the block `p`. -/
def FsState.setEntry (p : Nat) (k : Fin nindirect) (b : Nat) (s : FsState) : FsState :=
  { s with disk := update s.disk p ((s.disk p).setEntry k b) }

def bmap (bn : Nat) : FsM Nat := do
  if bn < ndirect then
    let k : Fin (ndirect + 1) := (Fin.ofNat ndirect bn).castSucc
    ballocIfZero sb ((← get).addr k) (.setAddr k)
  else if bn - ndirect < nindirect then
    let k := Fin.ofNat nindirect (bn - ndirect)
    let p ← ballocIfZero sb ((← get).addr (Fin.last ndirect)) (.setAddr (Fin.last ndirect))
    ballocIfZero sb ((← get).disk p k).toNat (.setEntry p k)
  else throw .bmapOutOfRange

def iupdate : FsM Unit :=
  modify fun s => { s with disk := writeInode sb s.disk s.inum s.ip }

/-- `ilock` of an inode whose entry in memory is not valid yet. -/
def ilock (inum : Nat) : FsM Unit := do
  modify fun s => { s with inum := inum, ip := diskInode sb s.disk inum }
  onlyIf ((← get).ip.type = 0) (throw .noType)

/-- The loop of `itrunc` over the direct blocks. -/
def itruncDirect : FsM Unit :=
  forEach (fun i => do
    let k : Fin (ndirect + 1) := (Fin.ofNat ndirect i).castSucc
    let addr := (← get).addr k
    onlyIf (addr ≠ 0) do
      bfree sb addr
      modify (.setAddr k 0)) 0 ndirect

/-- The part of `itrunc` about the indirect block; its entries are freed, not cleared. -/
def itruncIndirect : FsM Unit := do
  let p := (← get).addr (Fin.last ndirect)
  onlyIf (p ≠ 0) do
    forEach (fun j => do
      let addr := ((← get).disk p (Fin.ofNat nindirect j)).toNat
      onlyIf (addr ≠ 0) (bfree sb addr)) 0 nindirect
    bfree sb p
    modify (.setAddr (Fin.last ndirect) 0)

def itrunc : FsM Unit := do
  itruncDirect sb
  itruncIndirect sb
  modify fun s => { s with ip := { s.ip with size := 0 } }
  iupdate sb

/-- The loop of `readi`; `dst` is what was copied out. -/
def readLoop (copyout : Nat → Bool) (n tot off : Nat) (dst : List UInt8) :
    FsM (Option (List UInt8)) := do
  if tot < n then
    let addr ← bmap sb (off / bsize)
    let blk := (← get).disk addr
    if copyout tot then
      readLoop copyout n (tot + min (n - tot) (bsize - off % bsize))
        (off + min (n - tot) (bsize - off % bsize))
        (dst ++ blk.bytes (off % bsize) (min (n - tot) (bsize - off % bsize)))
    else pure none
  else pure (some dst)
termination_by n - tot
decreasing_by
  have hoff : off % 1024 < 1024 := Nat.mod_lt off (by decide)
  have hpos : 0 < min (n - tot) (1024 - off % 1024) := by omega
  have : 0 < min (n - tot) (bsize - off % bsize) := hpos
  omega

/-- `readi`: the bytes that were copied out (their number is what it returns), or -1. -/
def readi (copyout : Nat → Bool) (off n : BitVec 32) : FsM (Option (List UInt8)) := do
  let size := (← get).ip.size
  if size < off ∨ off + n < off then pure (some [])
  else
    let n := if size < off + n then size - off else n
    readLoop sb copyout n.toNat 0 off.toNat []

/-- Bytes are copied into the block `b`. -/
def FsState.patch (b off : Nat) (p : List UInt8) (s : FsState) : FsState :=
  { s with disk := update s.disk b ((s.disk b).patch off p) }

/-- The loop of `writei`; `copyin tot m` is what the copy of `m` bytes has put into the block, and
whether it succeeded. -/
def writeLoop (copyin : Nat → Nat → List UInt8 × Bool) (n tot off : Nat) : FsM (Nat × Nat) := do
  if tot < n then
    let addr ← bmap sb (off / bsize)
    let c := copyin tot (min (n - tot) (bsize - off % bsize))
    modify (.patch addr (off % bsize) (c.1.take (min (n - tot) (bsize - off % bsize))))
    if c.2 then
      writeLoop copyin n (tot + min (n - tot) (bsize - off % bsize))
        (off + min (n - tot) (bsize - off % bsize))
    else pure (tot, off)
  else pure (tot, off)
termination_by n - tot
decreasing_by
  have hoff : off % 1024 < 1024 := Nat.mod_lt off (by decide)
  have hpos : 0 < min (n - tot) (1024 - off % 1024) := by omega
  have : 0 < min (n - tot) (bsize - off % bsize) := hpos
  omega

/-- `writei`: the number of bytes that were written, or -1. -/
def writei (copyin : Nat → Nat → List UInt8 × Bool) (off n : BitVec 32) : FsM (Option Nat) := do
  let size := (← get).ip.size
  if size < off ∨ off + n < off then pure none
  else if maxfile * bsize < (off + n).toNat then pure none
  else
    let (tot, off) ← writeLoop sb copyin n.toNat 0 off.toNat
    modify fun s =>
      if s.ip.size.toNat < off then { s with ip := { s.ip with size := BitVec.ofNat 32 off } }
      else s
    -- also when the size is the same, because `bmap` may have added a block
    iupdate sb
    pure (some tot)

def ialloc (type : BitVec 16) : FsM Nat := do
  let disk := (← get).disk
  match (List.range' 1 (sb.ninodes.toNat - 1)).find? fun i => (diskInode sb disk i).type = 0 with
  | none => throw .noInodes
  | some i =>
    modify fun s => { s with disk := writeInode sb s.disk i { Dinode.zero with type := type } }
    pure i

/-- `iput` of a valid inode; `last` if this is the last reference. -/
def iput (last : Bool) : FsM Unit := do
  onlyIf (last = true ∧ (← get).ip.nlink = 0) do
    itrunc sb
    modify fun s => { s with ip := { s.ip with type := 0 } }
    iupdate sb

end Functions

/-! ## Reading -/

section Reading

variable {sb : Superblock} {s : FsState} {E : FsPanic → FsState → Prop}

/-- A byte of the file. -/
def FsState.byteAt (s : FsState) (j : Nat) : UInt8 :=
  (s.disk (s.ip.ref s.disk (.ofIndex (j / bsize)))).byte (j % bsize)

theorem wp_ballocIfZero_found {addr : Nat} {assign : Nat → FsState → FsState}
    {Q : Nat → FsState → Prop} (h : addr ≠ 0) :
    wp (ballocIfZero sb addr assign) Q E s ↔ Q addr s := by
  rw [ballocIfZero, if_neg h]
  exact wp_pure _

theorem wp_bmap_found {bn : Nat} {Q : Nat → FsState → Prop} (hbn : bn < maxfile)
    (h : s.ip.ref s.disk (.ofIndex bn) ≠ 0) :
    wp (bmap sb bn) Q E s ↔ Q (s.ip.ref s.disk (.ofIndex bn)) s := by
  unfold bmap
  unfold BlockSlot.ofIndex at h ⊢
  by_cases hd : bn < ndirect
  · rw [if_pos hd] at h ⊢
    rw [if_pos hd]
    simp only [wp_bind, wp_get]
    exact wp_ballocIfZero_found h
  · rw [if_neg hd] at h ⊢
    have hbn : bn < 268 := hbn
    have hd' : ¬bn < 12 := hd
    have hk : bn - ndirect < nindirect := by
      show bn - 12 < 256
      omega
    rw [if_neg hd, if_pos hk]
    -- the indirect block is there too, because an entry of it is
    have hp : s.addr (Fin.last ndirect) ≠ 0 := fun hp => h (if_pos hp)
    have href : s.ip.ref s.disk (.entry (Fin.ofNat nindirect (bn - ndirect))) =
        (s.disk (s.addr (Fin.last ndirect)) (Fin.ofNat nindirect (bn - ndirect))).toNat := if_neg hp
    rw [href] at h ⊢
    simp only [wp_bind, wp_get]
    rw [wp_ballocIfZero_found hp]
    exact wp_ballocIfZero_found h

theorem bytes_eq_map (s : FsState) {off m : Nat} (hm : off % bsize + m ≤ bsize) :
    (s.disk (s.ip.ref s.disk (.ofIndex (off / bsize)))).bytes (off % bsize) m =
      (List.range m).map fun j => s.byteAt (off + j) := by
  unfold Block.bytes
  apply List.map_congr_left
  intro j hj
  have hj := List.mem_range.mp hj
  have hm : off % 1024 + m ≤ 1024 := hm
  have hdiv : (off + j) / bsize = off / bsize := by
    show (off + j) / 1024 = off / 1024
    omega
  have hmod : (off + j) % bsize = off % bsize + j := by
    show (off + j) % 1024 = off % 1024 + j
    omega
  rw [FsState.byteAt, hdiv, hmod]

theorem wp_readLoop {copyout : Nat → Bool} {n tot off : Nat} {dst : List UInt8}
    (hcov : s.ip.Covered s.disk (off + (n - tot))) :
    wp (readLoop sb copyout n tot off dst) (fun r s' => s' = s ∧ ∀ d, r = some d →
      d = dst ++ (List.range (n - tot)).map fun j => s.byteAt (off + j)) E s := by
  induction hlen : n - tot using Nat.strong_induction_on generalizing tot off dst with
  | _ len ih =>
    subst hlen
    rw [readLoop]
    by_cases hlt : tot < n
    · rw [if_pos hlt]
      set m := min (n - tot) (bsize - off % bsize) with hmdef
      have hmod : off % 1024 < 1024 := Nat.mod_lt off (by decide)
      have hm : m = min (n - tot) (1024 - off % 1024) := rfl
      have hblk : off / bsize < maxfile ∧ s.ip.ref s.disk (.ofIndex (off / bsize)) ≠ 0 := by
        apply hcov
        show off / 1024 * 1024 < _
        omega
      simp only [wp_bind]
      rw [wp_bmap_found hblk.1 hblk.2]
      simp only [wp_get]
      apply wp_ite <;> intro hcopy
      · have hfit : off % bsize + m ≤ bsize := by
          show off % 1024 + m ≤ 1024
          omega
        rw [bytes_eq_map s hfit]
        have hcov' : s.ip.Covered s.disk (off + m + (n - (tot + m))) := by
          rwa [show off + m + (n - (tot + m)) = off + (n - tot) by omega]
        refine wp_post (ih (n - (tot + m)) (by omega) hcov' rfl) fun r s' hr => ⟨hr.1, ?_⟩
        intro d hd
        rw [hr.2 d hd, List.append_assoc]
        congr 1
        rw [show n - tot = m + (n - (tot + m)) by omega, List.range_add, List.map_append,
          List.map_map]
        congr 1
        apply List.map_congr_left
        intro j _
        simp only [Function.comp_apply, Nat.add_assoc]
      · refine ⟨rfl, ?_⟩
        rintro d ⟨⟩
    · rw [if_neg hlt, wp_pure, Nat.sub_eq_zero_of_le (Nat.le_of_not_lt hlt)]
      exact ⟨rfl, fun d hd => by simpa using (Option.some.inj hd).symm⟩

/-- **`readi` of a file with all its blocks** changes nothing, allocates nothing, and copies out the
bytes of the file. -/
theorem wp_readi {copyout : Nat → Bool} {off n : BitVec 32}
    (hcov : s.ip.Covered s.disk s.ip.size.toNat) :
    wp (readi sb copyout off n) (fun r s' => s' = s ∧ ∀ d, r = some d →
      d = if 2 ^ 32 ≤ off.toNat + n.toNat then []
        else (List.range (min n.toNat (s.ip.size.toNat - off.toNat))).map
          fun j => s.byteAt (off.toNat + j)) E s := by
  unfold readi
  simp only [wp_bind, wp_get]
  have hwrap : off + n < off ↔ 2 ^ 32 ≤ off.toNat + n.toNat := by
    rw [BitVec.lt_def, BitVec.toNat_add]
    have := off.isLt
    have := n.isLt
    omega
  apply wp_ite <;> intro hguard
  · refine ⟨rfl, fun d hd => ?_⟩
    rw [← Option.some.inj hd]
    split
    · rfl
    · rename_i hno
      have hbig : s.ip.size < off := hguard.resolve_right fun h => hno (hwrap.mp h)
      have hbig : s.ip.size.toNat < off.toNat := BitVec.lt_def.mp hbig
      rw [show min n.toNat (s.ip.size.toNat - off.toNat) = 0 by omega]
      rfl
  · rw [not_or] at hguard
    have hno : ¬2 ^ 32 ≤ off.toNat + n.toNat := fun h => hguard.2 (hwrap.mpr h)
    have hle : off.toNat ≤ s.ip.size.toNat := Nat.le_of_not_lt fun h =>
      hguard.1 (BitVec.lt_def.mpr h)
    have hsum : (off + n).toNat = off.toNat + n.toNat := by
      rw [BitVec.toNat_add]
      exact Nat.mod_eq_of_lt (by omega)
    have hlen : (if s.ip.size < off + n then s.ip.size - off else n).toNat =
        min n.toNat (s.ip.size.toNat - off.toNat) := by
      have hsub : (s.ip.size - off).toNat = s.ip.size.toNat - off.toNat :=
        BitVec.toNat_sub_of_le (BitVec.le_def.mpr hle)
      split <;> rename_i hs <;> rw [BitVec.lt_def, hsum] at hs <;> omega
    rw [hlen, if_neg hno]
    have hcov' : s.ip.Covered s.disk
        (off.toNat + (min n.toNat (s.ip.size.toNat - off.toNat) - 0)) := by
      intro bn hbn
      apply hcov
      omega
    exact wp_readLoop hcov'

end Reading

end Xv6Paging.Disk
