import Xv6Paging.Disk.Files

/-!
# Files keep their blocks to themselves

`ialloc`, `writei`, `readi`, `itrunc` and `iput` keep the free map and the inodes in agreement, as
long as there are free blocks.  The agreement on the data blocks alone is not enough: the blocks
before the data must be marked, or `balloc` gives the boot block to a file, and its number 0 means
that there is no block.
-/

namespace Xv6Paging.Disk

open StateHalt SlotMap FsState Relation

section Writei

variable {sb : Superblock} {s s' : FsState} {copyin : Nat → Nat → List UInt8 × Bool}

theorem Keeps.covered (h : Keeps s s') {k : Nat} (hc : s.ip.Covered s.disk k) :
    s'.ip.Covered s'.disk k := by
  intro bn hbn
  have hcov := hc bn hbn
  refine ⟨hcov.1, fun hz => hcov.2 ?_⟩
  exact (h.ref _ hcov.2).symm.trans hz

theorem covered_extend {d : Dinode} {disk : Nat → Block} {off m : Nat} (hc : d.Covered disk off)
    (hbn : off / bsize < maxfile) (hne : d.ref disk (.ofIndex (off / bsize)) ≠ 0)
    (hm : off % bsize + m ≤ bsize) : d.Covered disk (off + m) := by
  intro bn hlt
  have hm : off % 1024 + m ≤ 1024 := hm
  have hlt' : bn * 1024 < off + m := hlt
  rcases Nat.lt_or_ge (bn * 1024) off with hold | hnew
  · exact hc bn hold
  · have heq : bn = off / bsize := by
      show bn = off / 1024
      omega
    exact heq ▸ ⟨hbn, hne⟩

theorem wp_writeLoop (hl : Layout sb) {n tot off : Nat} (h : Working sb s)
    (hc : s.ip.Covered s.disk off) (hmax : off + (n - tot) ≤ maxfile * bsize) :
    wp (writeLoop sb copyin n tot off) (fun r s' => Working sb s' ∧ Keeps s s' ∧
      s'.ip.Covered s'.disk r.2 ∧ r.2 ≤ maxfile * bsize) (fun e _ => e = .outOfBlocks) s := by
  induction hlen : n - tot using Nat.strong_induction_on generalizing tot off s with
  | _ len ih =>
    subst hlen
    rw [writeLoop]
    have hmod : off % 1024 < 1024 := Nat.mod_lt off (by decide)
    have hmax' : off + (n - tot) ≤ 274432 := hmax
    by_cases hlt : tot < n
    · rw [if_pos hlt]
      set m := min (n - tot) (bsize - off % bsize) with hmdef
      have hm : m = min (n - tot) (1024 - off % 1024) := rfl
      have hbn : off / bsize < maxfile := by
        show off / 1024 < 268
        omega
      simp only [wp_bind, wp_modify]
      have hbmap := wp_bmap hl h hbn (T := {.ofIndex (off / bsize), .pointer}) (by simp) (by simp)
      refine wp_mono hbmap (fun b s₁ hs₁ => ?_) fun _ _ he => he.1
      obtain ⟨⟨h₁, hkeep₁, _⟩, rfl, hne⟩ := hs₁
      -- whatever the copy has put into the block
      obtain ⟨h₂, hkeep₂⟩ := h₁.patch (off % bsize) ((copyin tot m).1.take m) hl hne
      have hkeep := hkeep₁.trans hkeep₂
      have hfit : off % bsize + m ≤ bsize := by
        show off % 1024 + m ≤ 1024
        omega
      have hne₂ := hkeep₂.ref _ hne
      have hcov := covered_extend (hkeep.covered hc) hbn (fun hz => hne (hne₂.symm.trans hz)) hfit
      apply wp_ite <;> intro hok
      · refine wp_post (ih (n - (tot + m)) (by omega) h₂ hcov ?_ rfl) fun r s' hr => ?_
        · show off + m + (n - (tot + m)) ≤ 274432
          omega
        · exact ⟨hr.1, hkeep.trans hr.2.1, hr.2.2⟩
      · exact ⟨h₂, hkeep, hkeep.covered hc, (Nat.le_add_right _ _).trans hmax⟩
    · rw [if_neg hlt]
      exact ⟨h, Keeps.refl s, hc, (Nat.le_add_right _ _).trans hmax⟩

theorem Working.iupdate_locked (hl : Layout sb) (h : Working sb s)
    (hc : s.ip.Covered s.disk s.ip.size.toNat) {i : Nat} (hi : s.inum = i) :
    Sound sb (writeInode sb s.disk s.inum s.ip) ∧
      DiskLive sb (writeInode sb s.disk s.inum s.ip) i ∧
      { s with disk := writeInode sb s.disk s.inum s.ip } =
        locked sb (writeInode sb s.disk s.inum s.ip) i := by
  subst hi
  have hip : diskInode sb (writeInode sb s.disk s.inum s.ip) s.inum = s.ip := by
    rw [diskInode_writeInode, if_pos rfl]
  refine ⟨h.iupdate hl hc, ⟨h.inum_lt, ?_⟩, ?_⟩
  · rw [hip]
    exact h.type_ne
  · rw [locked, hip]

/-- **`writei` leaves a file with all its blocks**, also if a copy fails part way, and the inode in
memory agrees with the disk. -/
theorem wp_writei (hl : Layout sb) {disk : Nat → Block} {i : Nat} (hs : Sound sb disk)
    (hi : DiskLive sb disk i) (off n : BitVec 32) :
    wp (writei sb copyin off n)
      (fun _ s' => Sound sb s'.disk ∧ DiskLive sb s'.disk i ∧ s' = locked sb s'.disk i)
      (fun e _ => e = .outOfBlocks) (locked sb disk i) := by
  obtain ⟨h, hc⟩ := hs.working hi.1 hi.2
  set s := locked sb disk i with hsdef
  unfold writei
  simp only [wp_bind, wp_get]
  apply wp_ite <;> intro hguard
  · exact ⟨hs, hi, rfl⟩
  apply wp_ite <;> intro hbig
  · exact ⟨hs, hi, rfl⟩
  rw [not_or] at hguard
  have hle : off.toNat ≤ s.ip.size.toNat := Nat.le_of_not_lt fun hlt =>
    hguard.1 (BitVec.lt_def.mpr hlt)
  have hsum : (off + n).toNat = off.toNat + n.toNat := by
    have hno := hguard.2
    rw [BitVec.lt_def, BitVec.toNat_add] at hno
    rw [BitVec.toNat_add]
    have := off.isLt
    have := n.isLt
    omega
  have hmax : off.toNat + (n.toNat - 0) ≤ maxfile * bsize := by omega
  have hcoff : s.ip.Covered s.disk off.toNat := fun bn hbn => hc bn (hbn.trans_le hle)
  simp only [wp_bind, wp_modify, iupdate]
  refine wp_post (wp_writeLoop hl h hcoff hmax) fun r s' hr => ?_
  obtain ⟨h', hkeep, hcov, hrmax⟩ := hr
  have hrmax : r.2 ≤ 274432 := hrmax
  -- the size grows to the end of what was written, or stays
  split
  · have hval : (BitVec.ofNat 32 r.2).toNat = r.2 := Nat.mod_eq_of_lt (by omega)
    refine (h'.resize (BitVec.ofNat 32 r.2)).iupdate_locked hl ?_ hkeep.inum
    show s'.ip.Covered s'.disk (BitVec.ofNat 32 r.2).toNat
    rwa [hval]
  · refine h'.iupdate_locked hl ?_ hkeep.inum
    rw [hkeep.size]
    exact hkeep.covered hc

end Writei

/-! ## Operations -/

/-- An operation on a file, with the outcomes of its copies; `last` says that a reference is the
last one. -/
inductive FileOp
  | ialloc (type : BitVec 16)
  | writei (inum : Nat) (copyin : Nat → Nat → List UInt8 × Bool) (off n : BitVec 32)
  | readi (inum : Nat) (copyout : Nat → Bool) (off n : BitVec 32)
  | itrunc (inum : Nat)
  | iput (inum : Nat) (last : Bool)

namespace FileOp

/-- The inode of the operation is one of the disk. -/
def Within (sb : Superblock) : FileOp → Prop
  | .ialloc _ => True
  | .writei i _ _ _ | .readi i _ _ _ | .itrunc i | .iput i _ => i < sb.ninodes.toNat

/-- The inode is locked, and the function is called. -/
def run (sb : Superblock) : FileOp → FsM Unit
  | .ialloc type => (fun _ => ()) <$> Disk.ialloc sb type
  | .writei i copyin off n => do
    ilock sb i
    (fun _ => ()) <$> Disk.writei sb copyin off n
  | .readi i copyout off n => do
    ilock sb i
    (fun _ => ()) <$> Disk.readi sb copyout off n
  | .itrunc i => do
    ilock sb i
    Disk.itrunc sb
  | .iput i last => do
    ilock sb i
    Disk.iput sb last

end FileOp

/-- The panics for want of blocks, of inodes, and for an inode that is not allocated. -/
def FsPanic.Expected : FsPanic → Prop
  | .outOfBlocks | .noInodes | .noType => True
  | .freeingFreeBlock | .bmapOutOfRange => False

section Run

variable {sb : Superblock} {s : FsState}

theorem wp_ilock {i : Nat} {Q : Unit → FsState → Prop} {E : FsPanic → FsState → Prop}
    (h : (diskInode sb s.disk i).type ≠ 0 → Q () (locked sb s.disk i))
    (hE : ∀ s', E .noType s') : wp (ilock sb i) Q E s := by
  unfold ilock
  simp only [wp_bind, wp_modify, wp_get]
  apply wp_onlyIf
  · intro _
    exact hE _
  · intro ht
    exact h ht

theorem wp_ialloc (hl : Layout sb) (hs : Sound sb s.disk) (type : BitVec 16) :
    wp (ialloc sb type) (fun _ s' => Sound sb s'.disk) (fun e _ => e = .noInodes) s := by
  unfold ialloc
  simp only [wp_bind, wp_get]
  cases hfind : (List.range' 1 (sb.ninodes.toNat - 1)).find?
      fun i => (diskInode sb s.disk i).type = 0 with
  | none => rfl
  | some i =>
    have hfree : (diskInode sb s.disk i).type = 0 := by simpa using List.find?_some hfind
    have hmem := List.mem_range'_1.mp (List.mem_of_find?_eq_some hfind)
    simp only [wp_bind, wp_modify, wp_pure]
    refine hs.replace hl (by omega) (fun hlive => absurd hfree hlive.2) (fun x => ?_) rfl
    cases x <;> simp [Dinode.ref, Dinode.zero]

theorem wp_iput (hl : Layout sb) (h : Working sb s) (hs : Sound sb s.disk) (last : Bool)
    {E : FsPanic → FsState → Prop} : wp (iput sb last) (fun _ s' => Sound sb s'.disk) E s := by
  unfold iput
  simp only [wp_bind, wp_get]
  apply wp_onlyIf
  · intro _
    simp only [wp_bind, wp_modify, iupdate]
    refine wp_post (wp_itrunc hl h) ?_
    rintro _ s' ⟨hs', hinum, hip, hsize, hzero⟩
    have hlt : s'.inum < sb.ninodes.toNat := hinum ▸ h.inum_lt
    refine hs'.replace hl hlt (fun _ x => ?_) hzero hsize
    rw [diskRef, blockRefs, hinum, hip]
    exact hzero x
  · intro _
    exact hs

/-- **An operation keeps the condition**, or panics for want of blocks or inodes. -/
theorem FileOp.wp_run (hl : Layout sb) (hs : Sound sb s.disk) (op : FileOp) (hop : op.Within sb) :
    wp (op.run sb) (fun _ s' => Sound sb s'.disk) (fun e _ => e.Expected) s := by
  cases op with
  | ialloc type =>
    refine wp_map.mpr (wp_mono (wp_ialloc hl hs type) (fun _ _ h => h) ?_)
    rintro _ _ rfl
    trivial
  | writei i copyin off n =>
    refine wp_bind.mpr (wp_ilock (fun ht => ?_) fun _ => trivial)
    refine wp_map.mpr (wp_mono (wp_writei hl hs ⟨hop, ht⟩ off n) (fun _ _ h => h.1) ?_)
    rintro _ _ rfl
    trivial
  | readi i copyout off n =>
    refine wp_bind.mpr (wp_ilock (fun ht => ?_) fun _ => trivial)
    obtain ⟨_, hc⟩ := hs.working hop ht
    refine wp_map.mpr (wp_post (wp_readi hc) fun _ s' hr => ?_)
    rw [hr.1]
    exact hs
  | itrunc i =>
    refine wp_bind.mpr (wp_ilock (fun ht => ?_) fun _ => trivial)
    exact wp_post (wp_itrunc hl (hs.working hop ht).1) fun _ _ h => h.1
  | iput i last =>
    refine wp_bind.mpr (wp_ilock (fun ht => ?_) fun _ => trivial)
    exact wp_iput hl (hs.working hop ht).1 hs last

/-- An operation returns. -/
def Ran (sb : Superblock) (s s' : FsState) : Prop :=
  ∃ op : FileOp, op.Within sb ∧ op.run sb s = .ok () s'

theorem Sound.run (hl : Layout sb) (hs : Sound sb s.disk) {s' : FsState}
    (hrun : ReflTransGen (Ran sb) s s') : Sound sb s'.disk := by
  induction hrun with
  | refl => exact hs
  | tail _ hstep ih =>
    obtain ⟨op, hop, hok⟩ := hstep
    exact (wp_ok hok).mp (FileOp.wp_run hl ih op hop)

/-- **Files own their blocks.**  If the blocks before the data are marked and in no slot, then in
every run of operations that return: the condition holds, no block is in two slots, `readi` leaves
the disk as it is, and no operation finds a block free that it frees. -/
theorem block_ownership (hl : Layout sb) (hs : BlocksOwned sb s.disk) (hm : MetaGuarded sb s.disk)
    {s' : FsState} (hrun : ReflTransGen (Ran sb) s s') :
    BlocksOwned sb s'.disk ∧ MetaGuarded sb s'.disk ∧
      Distinct (DiskLive sb s'.disk) (diskRef sb s'.disk) ∧
      (∀ i copyout off n, (FileOp.readi i copyout off n).Within sb →
        wp ((FileOp.readi i copyout off n).run sb) (fun _ t => t.disk = s'.disk)
          (fun e _ => e = .noType) s') ∧
      ∀ op : FileOp, op.Within sb →
        wp (op.run sb) (fun _ _ => True) (fun e _ => e.Expected) s' := by
  have hsound := ((sound_iff hl).mpr ⟨hs, hm⟩).run hl hrun
  obtain ⟨hb', hm'⟩ := (sound_iff hl).mp hsound
  refine ⟨hb', hm', hsound.owned.distinct, fun i copyout off n hi => ?_, fun op hop => ?_⟩
  · refine wp_bind.mpr (wp_ilock (fun ht => ?_) fun _ => rfl)
    obtain ⟨_, hc⟩ := hsound.working hi ht
    refine wp_map.mpr (wp_post (wp_readi hc) fun _ t hr => ?_)
    rw [hr.1]
    rfl
  · exact wp_post (FileOp.wp_run hl hsound op hop) fun _ _ _ => trivial

end Run

/-! ## A small disk -/

/-- A disk of forty blocks as `mkfs` lays it out: the log is in the blocks 2 to 31, the inodes are
in block 32, the free map is block 33, and the data are from block 34 on. -/
def smallSb : Superblock :=
  { magic := 0x10203040, size := 40, nblocks := 6, ninodes := 16, nlog := 30, logstart := 2,
    inodestart := 32, bmapstart := 33 }

/-- The small disk without files; the blocks before the data are marked, or no block is. -/
def smallDisk (guarded : Bool) : Nat → Block :=
  Function.update (fun _ => .zero) 33 fun k =>
    if guarded then if k = 0 then 0xFFFFFFFF else if k = 1 then 3 else 0 else 0

theorem smallSb_layout : Layout smallSb := ⟨by decide, by decide, by decide⟩

theorem smallDisk_not_live (guarded : Bool) (i : Nat) :
    ¬DiskLive smallSb (smallDisk guarded) i := by
  rintro ⟨hi, ht⟩
  have hi : i < 16 := hi
  have hblock : iblock smallSb i = 32 := by
    show i / 16 + 32 = 32
    omega
  apply ht
  rw [diskInode, hblock]
  exact congrArg Dinode.type (Block.dinode_zero (i % ipb))

theorem smallDisk_inside (guarded : Bool) (i : Nat) (x : BlockSlot)
    (hi : DiskLive smallSb (smallDisk guarded) i)
    (_ : diskRef smallSb (smallDisk guarded) i x ≠ 0) :
    smallSb.nmeta ≤ diskRef smallSb (smallDisk guarded) i x ∧
      diskRef smallSb (smallDisk guarded) i x < smallSb.size.toNat :=
  absurd hi (smallDisk_not_live guarded i)

theorem smallDisk_clear (guarded : Bool) :
    ∀ b, b < 40 → 34 ≤ b → diskBit smallSb (smallDisk guarded) b = false := by
  cases guarded <;> decide +kernel

theorem smallDisk_owned (guarded : Bool) : BlocksOwned smallSb (smallDisk guarded) where
  marked b hlo hhi hbit := by
    rw [smallDisk_clear guarded b hhi hlo] at hbit
    cases hbit
  clear _ _ _ _ i _ hi := absurd hi (smallDisk_not_live guarded i)
  covered i hi := absurd hi (smallDisk_not_live guarded i)

theorem smallDisk_reserved :
    ∀ b, b < smallSb.nmeta → diskBit smallSb (smallDisk true) b = true := by
  decide +kernel

theorem smallDisk_guarded : MetaGuarded smallSb (smallDisk true) :=
  ⟨smallDisk_reserved, smallDisk_inside true⟩

/-- The state of the small disk; no inode is locked. -/
def smallState (guarded : Bool) : FsState :=
  { disk := smallDisk guarded, inum := 0, ip := .zero }

theorem writeLoop_one (sb : Superblock) (copyin : Nat → Nat → List UInt8 × Bool) (off : Nat) :
    writeLoop sb copyin (1 : BitVec 32).toNat 0 off = (do
      let addr ← bmap sb (off / bsize)
      modify (.patch addr (off % bsize) ((copyin 0 1).1.take 1))
      if (copyin 0 1).2 then pure (1, off + 1) else pure (0, off)) := by
  have hone : min (1 - 0) (bsize - off % bsize) = 1 := by
    have hoff : off % 1024 < 1024 := Nat.mod_lt off (by decide)
    show min (1 - 0) (1024 - off % 1024) = 1
    omega
  show writeLoop sb copyin 1 0 off = _
  rw [writeLoop, hone]
  simp only [Nat.zero_lt_one, if_true]
  rw [writeLoop]
  rfl

/-- A byte is written to a new file, which is inode 1. -/
theorem smallState_newFile (guarded : Bool) (P : FsState → Prop)
    (h : wp ((FileOp.ialloc 2).run smallSb)
      (fun _ s => wp ((FileOp.writei 1 (fun _ _ => ([65], true)) 0 1).run smallSb)
        (fun _ t => P t) (fun _ _ => False) s) (fun _ _ => False) (smallState guarded)) :
    ∃ t, ReflTransGen (Ran smallSb) (smallState guarded) t ∧ P t := by
  obtain ⟨_, s, h₁, hs⟩ := wp_total h
  obtain ⟨_, t, h₂, ht⟩ := wp_total hs
  exact ⟨t, .tail (.single ⟨.ialloc 2, trivial, h₁⟩) ⟨.writei 1 _ 0 1, by show 1 < 16; decide, h₂⟩,
    ht⟩

/-- The first data block belongs to a new file of one byte, and to no other slot. -/
theorem block_ownership_small : ∃ s', ReflTransGen (Ran smallSb) (smallState true) s' ∧
    diskBit smallSb s'.disk 34 = true ∧ DiskLive smallSb s'.disk 1 ∧
    diskRef smallSb s'.disk 1 (.direct 0) = 34 ∧ (diskInode smallSb s'.disk 1).size = 1 ∧
    ∀ i x, DiskLive smallSb s'.disk i → diskRef smallSb s'.disk i x = 34 →
      i = 1 ∧ x = .direct 0 := by
  obtain ⟨s', hrun, hbit, hlive, href, hsize⟩ := smallState_newFile true
    (fun t => diskBit smallSb t.disk 34 = true ∧ DiskLive smallSb t.disk 1 ∧
      diskRef smallSb t.disk 1 (.direct 0) = 34 ∧ (diskInode smallSb t.disk 1).size = 1) (by
    simp only [FileOp.run, writei, writeLoop_one]
    decide +kernel)
  have hown := block_ownership smallSb_layout (smallDisk_owned true) smallDisk_guarded hrun
  refine ⟨s', hrun, hbit, hlive, href, hsize, fun i x hi hx => ?_⟩
  exact hown.2.2.1 i 1 x (.direct 0) hi hlive (by rw [hx]; decide) (hx.trans href.symm)

/-- The small disk with a file whose first block is the free map. -/
def bitmapFile : FsState :=
  locked smallSb (writeInode smallSb (smallDisk true) 1
    { Dinode.zero with type := 2, size := 5, addrs := Function.update (fun _ => 0) 0 33 }) 1

theorem bitmapFile_inode : diskInode smallSb bitmapFile.disk 1 =
    { Dinode.zero with type := 2, size := 5, addrs := Function.update (fun _ => 0) 0 33 } := by
  rw [bitmapFile, locked, diskInode_writeInode, if_pos rfl]

theorem bitmapFile_live {i : Nat} (hi : DiskLive smallSb bitmapFile.disk i) : i = 1 := by
  by_contra hne
  have hold : diskInode smallSb bitmapFile.disk i = diskInode smallSb (smallDisk true) i := by
    rw [bitmapFile, locked, diskInode_writeInode, if_neg hne]
  exact smallDisk_not_live true i ⟨hi.1, hold ▸ hi.2⟩

theorem bitmapFile_bit {b : Nat} (hb : b < 40) :
    diskBit smallSb bitmapFile.disk b = diskBit smallSb (smallDisk true) b :=
  smallSb_layout.diskBit_writeInode (by decide) hb

theorem bitmapFile_ref (x : BlockSlot) :
    diskRef smallSb bitmapFile.disk 1 x = if x = .direct 0 then 33 else 0 := by
  rw [diskRef, blockRefs, bitmapFile_inode]
  cases x with
  | direct k =>
    revert k
    decide
  | pointer => rfl
  | entry k => rfl

theorem bitmapFile_owned : BlocksOwned smallSb bitmapFile.disk where
  marked b hlo hhi hbit := by
    rw [bitmapFile_bit hhi, smallDisk_clear true b hhi hlo] at hbit
    cases hbit
  clear b h0 hhi hbit i x hi href := by
    obtain rfl := bitmapFile_live hi
    rw [bitmapFile_ref] at href
    split at href
    · subst href
      rw [bitmapFile_bit hhi, smallDisk_reserved 33 (by decide)] at hbit
      cases hbit
    · exact h0 href.symm
  covered i hi bn hbn := by
    obtain rfl := bitmapFile_live hi
    rw [bitmapFile_inode] at hbn
    have hbn : bn * 1024 < 5 := hbn
    obtain rfl : bn = 0 := by omega
    exact ⟨by decide, by show diskRef smallSb bitmapFile.disk 1 _ ≠ 0; rw [bitmapFile_ref]; decide⟩

/-- Both additions are needed.  If the blocks before the data are not marked, the first byte of a
new file goes to the boot block; if they are marked, but the free map is in a slot of a file, a byte
written to the file marks data blocks that nobody refers to. -/
theorem unmarked_boot_block_given :
    (BlocksOwned smallSb (smallState false).disk ∧
      (∀ i x, DiskLive smallSb (smallState false).disk i →
        diskRef smallSb (smallState false).disk i x ≠ 0 →
        smallSb.nmeta ≤ diskRef smallSb (smallState false).disk i x ∧
          diskRef smallSb (smallState false).disk i x < smallSb.size.toNat) ∧
      ∃ s', ReflTransGen (Ran smallSb) (smallState false) s' ∧ ¬BlocksOwned smallSb s'.disk) ∧
    (BlocksOwned smallSb bitmapFile.disk ∧
      (∀ b, b < smallSb.nmeta → diskBit smallSb bitmapFile.disk b = true) ∧
      ∃ s', ReflTransGen (Ran smallSb) bitmapFile s' ∧ ¬BlocksOwned smallSb s'.disk) := by
  refine ⟨⟨smallDisk_owned false, smallDisk_inside false, ?_⟩, bitmapFile_owned, ?_, ?_⟩
  · obtain ⟨s', hrun, hlive, hsize, href⟩ := smallState_newFile false
      (fun t => DiskLive smallSb t.disk 1 ∧ 0 < (diskInode smallSb t.disk 1).size.toNat ∧
        diskRef smallSb t.disk 1 (.direct 0) = 0) (by
      simp only [FileOp.run, writei, writeLoop_one]
      decide +kernel)
    exact ⟨s', hrun, fun hb => (hb.covered 1 hlive 0 (by simpa using hsize)).2 href⟩
  · intro b hb
    rw [bitmapFile_bit (Nat.lt_trans hb (by decide))]
    exact smallDisk_reserved b hb
  · have hwrite : wp ((FileOp.writei 1 (fun _ _ => ([0xFF], true)) 4 1).run smallSb)
        (fun _ t => diskBit smallSb t.disk 34 = true ∧
          (∀ i, i < 16 → (diskInode smallSb t.disk i).type ≠ 0 → i = 1) ∧
          (diskInode smallSb t.disk 1).addrs (Fin.last ndirect) = 0 ∧
          ∀ k : Fin ndirect, ((diskInode smallSb t.disk 1).addrs k.castSucc).toNat ≠ 34)
        (fun _ _ => False) bitmapFile := by
      simp only [FileOp.run, writei, writeLoop_one]
      decide +kernel
    obtain ⟨_, t, hok, hbit, hone, hlast, hdirect⟩ := wp_total hwrite
    refine ⟨t, .single ⟨.writei 1 _ 4 1, by show 1 < 16; decide, hok⟩, fun hb => ?_⟩
    obtain ⟨i, x, hi, hx, -⟩ := hb.marked 34 (by decide) (by decide) hbit
    obtain rfl := hone i hi.1 hi.2
    cases x with
    | direct k => exact hdirect k hx
    | pointer => simp [blockRefs, Dinode.ref, hlast] at hx
    | entry k => simp [blockRefs, Dinode.ref, hlast] at hx

end Xv6Paging.Disk
