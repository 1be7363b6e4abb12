import Mathlib.Logic.Relation
import Xv6Paging.Disk.Inode

/-!
# Who owns a block

The free map and the inodes agree: a data block is marked exactly when one slot of one allocated
inode refers to it, and a file has all the blocks below its size.  Blocks are allocated on demand,
also by a `writei` whose copy then fails, and a function works on an inode in memory that differs
from the disk until `iupdate`; so the invariant of a working function is about the inodes with this
one replaced.
-/

namespace Xv6Paging.Disk

open StateHalt SlotMap
open Function (update update_of_ne update_self)

/-! ## What is read after a write -/

theorem diskBit_writeBit (sb : Superblock) (disk : Nat → Block) (b c : Nat) (v : Bool) :
    diskBit sb (writeBit sb disk b v) c = if c = b then v else diskBit sb disk c := by
  have hlt : ∀ n, n % bpb < bpb := fun n => Nat.mod_lt n (by decide)
  unfold diskBit writeBit
  by_cases heq : bblock sb c = bblock sb b
  · rw [heq, update_self, Block.bit_setBit _ v (hlt b) (hlt c), ← heq]
    have hdiv : c / 8192 + sb.bmapstart.toNat = b / 8192 + sb.bmapstart.toNat := heq
    have hiff : c % bpb = b % bpb ↔ c = b := by
      show c % 8192 = b % 8192 ↔ _
      omega
    simp only [hiff]
  · rw [update_of_ne heq, if_neg]
    rintro rfl
    exact heq rfl

theorem diskInode_writeInode (sb : Superblock) (disk : Nat → Block) (i j : Nat) (d : Dinode) :
    diskInode sb (writeInode sb disk i d) j = if j = i then d else diskInode sb disk j := by
  have hlt : ∀ n, n % ipb < ipb := fun n => Nat.mod_lt n (by decide)
  unfold diskInode writeInode
  by_cases heq : iblock sb j = iblock sb i
  · rw [heq, update_self, Block.dinode_setDinode _ d (hlt i) (hlt j), ← heq]
    have hdiv : j / 16 + sb.inodestart.toNat = i / 16 + sb.inodestart.toNat := heq
    have hiff : j % ipb = i % ipb ↔ j = i := by
      show j % 16 = i % 16 ↔ _
      omega
    simp only [hiff]
  · rw [update_of_ne heq, if_neg]
    rintro rfl
    exact heq rfl

/-- The first data block. -/
def Superblock.nmeta (sb : Superblock) : Nat := sb.size.toNat - sb.nblocks.toNat

/-- The inodes are before the free map, and the free map is before the data. -/
structure Layout (sb : Superblock) : Prop where
  inodes_fit : sb.ninodes.toNat ≤ ipb * (sb.bmapstart.toNat - sb.inodestart.toNat)
  bitmap_fits : sb.size.toNat ≤ bpb * (sb.nmeta - sb.bmapstart.toNat)
  nmeta_pos : 0 < sb.nmeta

theorem Superblock.nmeta_le (sb : Superblock) : sb.nmeta ≤ sb.size.toNat := Nat.sub_le _ _

namespace Layout

variable {sb : Superblock} (hl : Layout sb) {disk : Nat → Block} {blk : Block} {d : Dinode}
  {b c i j : Nat} {v : Bool}

include hl

theorem iblock_lt (hi : i < sb.ninodes.toNat) : iblock sb i < sb.bmapstart.toNat := by
  have h := hl.inodes_fit
  have h : sb.ninodes.toNat ≤ 16 * (sb.bmapstart.toNat - sb.inodestart.toNat) := h
  show i / 16 + _ < _
  omega

theorem bblock_mem (hb : b < sb.size.toNat) :
    sb.bmapstart.toNat ≤ bblock sb b ∧ bblock sb b < sb.nmeta := by
  have h : sb.size.toNat ≤ 8192 * (sb.nmeta - sb.bmapstart.toNat) := hl.bitmap_fits
  constructor
  · exact Nat.le_add_left _ _
  · show b / 8192 + _ < _
    omega

theorem bmapstart_le : sb.bmapstart.toNat ≤ sb.nmeta := by
  have hpos := hl.nmeta_pos
  have hle := sb.nmeta_le
  have hmem := hl.bblock_mem (show 0 < sb.size.toNat by omega)
  omega

theorem diskBit_update (hc : c < sb.size.toNat) (hb : b < sb.bmapstart.toNat ∨ sb.nmeta ≤ b) :
    diskBit sb (update disk b blk) c = diskBit sb disk c := by
  have hmem := hl.bblock_mem hc
  rw [diskBit, update_of_ne (by omega)]
  rfl

theorem diskInode_update (hi : i < sb.ninodes.toNat) (hb : sb.bmapstart.toNat ≤ b) :
    diskInode sb (update disk b blk) i = diskInode sb disk i := by
  have hlt := hl.iblock_lt hi
  rw [diskInode, update_of_ne (by omega)]
  rfl

theorem diskInode_writeBit (hb : b < sb.size.toNat) (hi : i < sb.ninodes.toNat) :
    diskInode sb (writeBit sb disk b v) i = diskInode sb disk i :=
  hl.diskInode_update hi (hl.bblock_mem hb).1

theorem diskBit_writeInode (hi : i < sb.ninodes.toNat) (hc : c < sb.size.toNat) :
    diskBit sb (writeInode sb disk i d) c = diskBit sb disk c :=
  hl.diskBit_update hc (.inl (hl.iblock_lt hi))

end Layout

/-! ## A working function -/

/-- An allocated inode. -/
def Live (sb : Superblock) (ino : Nat → Dinode) (i : Nat) : Prop :=
  i < sb.ninodes.toNat ∧ (ino i).type ≠ 0

instance (sb : Superblock) (ino : Nat → Dinode) (i : Nat) : Decidable (Live sb ino i) :=
  inferInstanceAs (Decidable (_ ∧ _))

namespace FsState

/-- The inodes, the locked one as it is in memory. -/
def inodes (sb : Superblock) (s : FsState) : Nat → Dinode :=
  update (diskInode sb s.disk) s.inum s.ip

/-- The allocated inodes. -/
abbrev live (sb : Superblock) (s : FsState) : Nat → Prop := Live sb (s.inodes sb)

/-- The blocks in the slots. -/
abbrev refs (sb : Superblock) (s : FsState) : Nat → BlockSlot → Nat :=
  blockRefs (s.inodes sb) s.disk

/-- The block in a slot of the locked inode. -/
abbrev ref (s : FsState) (x : BlockSlot) : Nat := s.ip.ref s.disk x

variable {sb : Superblock} {s s' : FsState} {i : Nat} {x : BlockSlot}

theorem inodes_self : s.inodes sb s.inum = s.ip := update_self ..

theorem refs_self (sb : Superblock) : s.refs sb s.inum x = s.ref x := by
  unfold refs blockRefs
  rw [inodes_self]

theorem inodes_ne (h : i ≠ s.inum) : s.inodes sb i = diskInode sb s.disk i :=
  update_of_ne h ..

/-- The inodes on the disk are the same, and so is the number of the locked one. -/
structure SameInodes (sb : Superblock) (s s' : FsState) : Prop where
  inum : s'.inum = s.inum
  type : s'.ip.type = s.ip.type
  disk : ∀ i, i < sb.ninodes.toNat → diskInode sb s'.disk i = diskInode sb s.disk i

variable (h : SameInodes sb s s')
include h

theorem SameInodes.trans {s'' : FsState} (h' : SameInodes sb s' s'') : SameInodes sb s s'' where
  inum := h'.inum.trans h.inum
  type := h'.type.trans h.type
  disk i hi := (h'.disk i hi).trans (h.disk i hi)

theorem SameInodes.inodes_ne (hi : i < sb.ninodes.toNat)
    (hne : i ≠ s.inum) : s'.inodes sb i = s.inodes sb i := by
  rw [FsState.inodes_ne hne, FsState.inodes_ne (h.inum ▸ hne), h.disk i hi]

theorem SameInodes.refs_eq (hip : s'.ip = s.ip)
    (hi : i < sb.ninodes.toNat) : s'.refs sb i x = blockRefs (s.inodes sb) s'.disk i x := by
  have heq : s'.inodes sb i = s.inodes sb i := by
    by_cases hne : i = s.inum
    · subst hne
      have hself : s'.inodes sb s.inum = s'.ip := h.inum ▸ inodes_self
      rw [hself, inodes_self, hip]
    · exact h.inodes_ne hi hne
  rw [refs, blockRefs, heq]
  rfl

theorem SameInodes.live_iff : s'.live sb i ↔ s.live sb i := by
  unfold live Live
  apply and_congr_right
  intro hi
  by_cases hne : i = s.inum
  · subst hne
    have : s'.inodes sb s.inum = s'.ip := h.inum ▸ inodes_self
    rw [this, inodes_self, h.type]
  · rw [h.inodes_ne hi hne]

end FsState

open FsState

/-- What holds while a function works on the locked inode. -/
structure Working (sb : Superblock) (s : FsState) : Prop where
  inum_lt : s.inum < sb.ninodes.toNat
  type_ne : s.ip.type ≠ 0
  owned : Owned sb.nmeta sb.size.toNat (diskBit sb s.disk) (s.live sb) (s.refs sb)
  /-- The other files have all their blocks. -/
  others : ∀ j, j ≠ s.inum → s.live sb j →
    (s.inodes sb j).Covered s.disk (s.inodes sb j).size.toNat

namespace Working

variable {sb : Superblock} {s s' : FsState} {b : Nat} {x : BlockSlot}

theorem live_self (h : Working sb s) : s.live sb s.inum := by
  refine ⟨h.inum_lt, ?_⟩
  rw [inodes_self]
  exact h.type_ne

theorem others_of (h : Working sb s) (hi : SameInodes sb s s')
    (hr : ∀ j y, j ≠ s.inum → s.live sb j → s'.refs sb j y = s.refs sb j y) (j : Nat)
    (hj : j ≠ s'.inum) (hlive : s'.live sb j) :
    (s'.inodes sb j).Covered s'.disk (s'.inodes sb j).size.toNat := by
  rw [hi.inum] at hj
  have hlive := hi.live_iff.mp hlive
  intro bn hbn
  rw [hi.inodes_ne hlive.1 hj] at hbn
  have hcov := h.others j hj hlive bn hbn
  refine ⟨hcov.1, ?_⟩
  have hsame : s'.refs sb j (.ofIndex bn) = s.refs sb j (.ofIndex bn) := hr j _ hj hlive
  exact fun hz => hcov.2 (hsame.symm.trans hz)

/-- **A free block comes to an empty slot of the locked inode.** -/
theorem give (hl : Layout sb) (h : Working sb s) (hi : SameInodes sb s s') (hempty : s.ref x = 0)
    (hb : b < sb.size.toNat) (hclear : diskBit sb s.disk b = false)
    (hg : Gives (s.live sb) (s.refs sb) (s'.refs sb) s.inum x b) (hbit : ∀ c, c < sb.size.toNat →
      diskBit sb s'.disk c = if c = b then true else diskBit sb s.disk c) : Working sb s' where
  inum_lt := hi.inum ▸ h.inum_lt
  type_ne := hi.type ▸ h.type_ne
  owned := by
    have hg' := h.owned.give hl.nmeta_pos sb.nmeta_le h.live_self ((refs_self sb).trans hempty)
      hb hclear
      hg hbit
    exact hg'.congr sb.nmeta_le (fun _ _ => rfl) (fun _ => hi.live_iff) fun _ _ _ => rfl
  others := h.others_of hi fun j y hj hlive => hg.other j y hlive fun hji => hj hji.1

/-- **A block is taken from a slot of the locked inode.** -/
theorem take (hl : Layout sb) (h : Working sb s) (hi : SameInodes sb s s') (hne : s.ref x ≠ 0)
    (hg : Gives (s.live sb) (s.refs sb) (s'.refs sb) s.inum x 0) (hbit : ∀ c, c < sb.size.toNat →
      diskBit sb s'.disk c = if c = s.ref x then false else diskBit sb s.disk c) :
    Working sb s' where
  inum_lt := hi.inum ▸ h.inum_lt
  type_ne := hi.type ▸ h.type_ne
  owned := by
    rw [← refs_self sb] at hne hbit
    have hg' := h.owned.take hl.nmeta_pos h.live_self hne hg hbit
    exact hg'.congr sb.nmeta_le (fun _ _ => rfl) (fun _ => hi.live_iff) fun _ _ _ => rfl
  others := h.others_of hi fun j y hj hlive => hg.other j y hlive fun hji => hj hji.1

theorem congr (h : Working sb s) (hi : SameInodes sb s s')
    (hr : ∀ j y, s.live sb j → s'.refs sb j y = s.refs sb j y)
    (hbit : ∀ c, c < sb.size.toNat → diskBit sb s'.disk c = diskBit sb s.disk c) :
    Working sb s' where
  inum_lt := hi.inum ▸ h.inum_lt
  type_ne := hi.type ▸ h.type_ne
  owned := h.owned.congr sb.nmeta_le hbit (fun _ => hi.live_iff) hr
  others := h.others_of hi fun j y _ hlive => hr j y hlive

theorem ref_inside (h : Working sb s) (hne : s.ref x ≠ 0) :
    sb.nmeta ≤ s.ref x ∧ s.ref x < sb.size.toNat := by
  rw [← refs_self sb] at hne ⊢
  exact h.owned.inside _ _ h.live_self hne

end Working

/-! ## Allocation -/

section Allocation

variable {sb : Superblock} {s s₁ s' : FsState} {b : Nat} {x : BlockSlot} {T : Finset BlockSlot}

theorem clearBit_spec {disk : Nat → Block} (h : clearBit sb disk = some b) :
    b < sb.size.toNat ∧ diskBit sb disk b = false := by
  unfold clearBit at h
  obtain ⟨k, _, hk⟩ := List.exists_of_findSome?_eq_some h
  obtain ⟨bi, hbi, hb⟩ := List.exists_of_findSome?_eq_some hk
  have hbi : bi < 8192 := List.mem_range.mp hbi
  dsimp only at hb
  split at hb
  · rename_i hc
    cases hb
    refine ⟨hc.1, ?_⟩
    have hblock : bblock sb (k * bpb + bi) = bblock sb (k * bpb) := by
      show (k * 8192 + bi) / 8192 + _ = k * 8192 / 8192 + _
      omega
    have hmod : (k * bpb + bi) % bpb = bi := by
      show (k * 8192 + bi) % 8192 = bi
      omega
    rw [diskBit, hblock, hmod]
    exact hc.2
  · cases hb

theorem clearBit_none {disk : Nat → Block} (h : clearBit sb disk = none) (hb : b < sb.size.toNat) :
    diskBit sb disk b = true := by
  by_contra hclear
  unfold clearBit at h
  have hk : b / bpb ∈ List.range ((sb.size.toNat + bpb - 1) / bpb) := by
    rw [List.mem_range]
    show b / 8192 < (sb.size.toNat + 8192 - 1) / 8192
    omega
  have hbi : b % bpb ∈ List.range bpb := List.mem_range.mpr (Nat.mod_lt b (by decide))
  have hround := List.findSome?_eq_none_iff.mp (List.findSome?_eq_none_iff.mp h _ hk) _ hbi
  have hsplit : b / bpb * bpb + b % bpb = b := Nat.div_add_mod' b bpb
  have hblock : bblock sb (b / bpb * bpb) = bblock sb b := by
    show b / 8192 * 8192 / 8192 + _ = b / 8192 + _
    omega
  dsimp only at hround
  rw [hsplit, hblock, if_pos ⟨hb, Bool.not_eq_true _ ▸ hclear⟩] at hround
  cases hround

/-- The number of free blocks. -/
abbrev freeBlocks (sb : Superblock) (disk : Nat → Block) : Nat :=
  free sb.size.toNat (diskBit sb disk)

theorem sameInodes_writeBit (hl : Layout sb) (s : FsState) (hb : b < sb.size.toNat) (v : Bool) :
    SameInodes sb s { s with disk := writeBit sb s.disk b v } :=
  ⟨rfl, rfl, fun _ hi => hl.diskInode_writeBit hb hi⟩

theorem blockRefs_writeBit (hl : Layout sb) (h : Working sb s) (hb : b < sb.size.toNat) (v : Bool)
    (j : Nat) (y : BlockSlot) (hj : s.live sb j) :
    blockRefs (s.inodes sb) (writeBit sb s.disk b v) j y = s.refs sb j y := by
  have hmem := hl.bblock_mem hb
  refine blockRefs_write (s.live sb) (fun j hj hp => ?_) j hj y
  have hp : s.refs sb j .pointer = bblock sb b := hp
  by_contra hne
  have := h.owned.inside j .pointer hj (by omega)
  omega

/-- What `balloc` has done. -/
structure Allocated (sb : Superblock) (s s' : FsState) (b : Nat) : Prop where
  lt : b < sb.size.toNat
  clear : diskBit sb s.disk b = false
  eq : s' = { s with disk := update (writeBit sb s.disk b true) b .zero }

theorem wp_balloc : wp (balloc sb) (fun b s' => Allocated sb s s' b)
      (fun e _ => e = .outOfBlocks ∧ freeBlocks sb s.disk = 0) s := by
  unfold balloc
  simp only [wp_bind, wp_get]
  cases h : clearBit sb s.disk with
  | none =>
    refine ⟨rfl, Finset.card_eq_zero.mpr (Finset.filter_eq_empty_iff.mpr fun b hb => ?_)⟩
    rw [clearBit_none h (Finset.mem_range.mp hb)]
    exact Bool.noConfusion
  | some b =>
    obtain ⟨hlt, hclear⟩ := clearBit_spec h
    exact ⟨hlt, hclear, rfl⟩

/-- Between `balloc` and the assignment, nobody refers to the block. -/
structure Fresh (sb : Superblock) (s s₁ : FsState) (b : Nat) : Prop where
  nmeta_le : sb.nmeta ≤ b
  ip : s₁.ip = s.ip
  inodes : SameInodes sb s s₁
  refs : ∀ j y, s.live sb j → s₁.refs sb j y = s.refs sb j y
  bits : ∀ c, c < sb.size.toNat →
    diskBit sb s₁.disk c = if c = b then true else diskBit sb s.disk c
  zero : s₁.disk b = .zero
  /-- The blocks of files are the same. -/
  data : ∀ j y, s.live sb j → s.refs sb j y ≠ 0 → s₁.disk (s.refs sb j y) = s.disk (s.refs sb j y)

theorem Allocated.fresh (hl : Layout sb) (h : Working sb s) (ha : Allocated sb s s₁ b) :
    Fresh sb s s₁ b := by
  obtain ⟨hlt, hclear, heq⟩ := ha
  obtain ⟨hlo, hun⟩ := h.owned.unused hlt hclear
  have hmem := hl.bblock_mem hlt
  have hip : s₁.ip = s.ip := heq ▸ rfl
  have hdisk : s₁.disk = update (writeBit sb s.disk b true) b .zero := heq ▸ rfl
  have hino : SameInodes sb s s₁ := by
    refine ⟨heq ▸ rfl, hip ▸ rfl, fun i hi => ?_⟩
    rw [hdisk, hl.diskInode_update hi (by omega), hl.diskInode_writeBit hlt hi]
  refine ⟨hlo, hip, hino, fun j y hj => ?_, fun c hc => ?_, ?_, fun j y hj hne => ?_⟩
  · -- neither the block of the free map nor the new block is an indirect block
    have hout : blockRefs (s.inodes sb) s₁.disk j y =
        blockRefs (s.inodes sb) (writeBit sb s.disk b true) j y := by
      rw [hdisk]
      refine blockRefs_write (s.live sb) (fun j hj hp => ?_) j hj y
      have hp : s.refs sb j .pointer = b := hp
      exact absurd hp (hun j .pointer hj)
    rw [hino.refs_eq hip hj.1, hout, blockRefs_writeBit hl h hlt true j y hj]
  · rw [hdisk, hl.diskBit_update hc (.inr hlo), diskBit_writeBit]
  · rw [hdisk, update_self]
  · have hin := h.owned.inside j y hj hne
    have hbb : s.refs sb j y ≠ bblock sb b := by omega
    rw [hdisk, update_of_ne (hun j y hj), writeBit, update_of_ne hbb]

/-- The locked inode has kept what it had. -/
structure Keeps (s s' : FsState) : Prop where
  inum : s'.inum = s.inum
  size : s'.ip.size = s.ip.size
  ref : ∀ y, s.ref y ≠ 0 → s'.ref y = s.ref y

theorem Keeps.refl (s : FsState) : Keeps s s := ⟨rfl, rfl, fun _ _ => rfl⟩

theorem Keeps.trans {s'' : FsState} (h : Keeps s s') (h' : Keeps s' s'') : Keeps s s'' where
  inum := h'.inum.trans h.inum
  size := h'.size.trans h.size
  ref y hy := by
    have heq := h.ref y hy
    rw [← heq] at hy
    exact (h'.ref y hy).trans heq

/-- The place of a new block has been assigned. -/
structure Assigned (sb : Superblock) (s₁ s' : FsState) (x : BlockSlot) (b : Nat) : Prop where
  inodes : SameInodes sb s₁ s'
  size : s'.ip.size = s₁.ip.size
  gives : Gives (s₁.live sb) (s₁.refs sb) (s'.refs sb) s₁.inum x b
  bits : ∀ c, c < sb.size.toNat → diskBit sb s'.disk c = diskBit sb s₁.disk c

theorem Fresh.gives (hf : Fresh sb s s₁ b) (ha : Assigned sb s₁ s' x b) :
    Gives (s.live sb) (s.refs sb) (s'.refs sb) s.inum x b where
  self := hf.inodes.inum ▸ ha.gives.self
  other j y hj hne := by
    rw [ha.gives.other j y (hf.inodes.live_iff.mpr hj) (hf.inodes.inum.symm ▸ hne)]
    exact hf.refs j y hj

/-- Blocks have come to empty slots of the locked inode, and no byte of a file has changed. -/
structure Extended (sb : Superblock) (T : Finset BlockSlot) (s s' : FsState) : Prop where
  working : Working sb s'
  keeps : Keeps s s'
  inodes : SameInodes sb s s'
  others : ∀ j y, j ≠ s.inum → s.live sb j → s'.refs sb j y = s.refs sb j y
  /-- Only indirect blocks and blocks that were free have changed. -/
  data : ∀ j y, s.live sb j → y ≠ .pointer → s.refs sb j y ≠ 0 →
    s'.disk (s.refs sb j y) = s.disk (s.refs sb j y)
  /-- If there were enough blocks for the slots of `T`, there still are. -/
  supply : lacking s.ref T ≤ freeBlocks sb s.disk → lacking s'.ref T ≤ freeBlocks sb s'.disk

theorem Extended.refl (h : Working sb s) : Extended sb T s s :=
  ⟨h, Keeps.refl s, ⟨rfl, rfl, fun _ _ => rfl⟩, fun _ _ _ _ => rfl, fun _ _ _ _ _ => rfl, id⟩

theorem Extended.refs {T : Finset BlockSlot} (h : Extended sb T s s') {j : Nat} {y : BlockSlot}
    (hj : s.live sb j) (hne : s.refs sb j y ≠ 0) : s'.refs sb j y = s.refs sb j y := by
  by_cases hself : j = s.inum
  · subst hself
    rw [refs_self] at hne
    have hkeep : s'.refs sb s'.inum y = s.refs sb s.inum y := by
      rw [refs_self, refs_self, h.keeps.ref y hne]
    rwa [h.keeps.inum] at hkeep
  · exact h.others j y hself hj

theorem Extended.trans {T : Finset BlockSlot} {s'' : FsState} (h : Extended sb T s s')
    (h' : Extended sb T s' s'') : Extended sb T s s'' where
  working := h'.working
  keeps := h.keeps.trans h'.keeps
  inodes := h.inodes.trans h'.inodes
  others j y hne hj := by
    rw [h'.others j y (h.keeps.inum ▸ hne) (h.inodes.live_iff.mpr hj), h.others j y hne hj]
  data j y hj hy hne := by
    have href := h.refs hj hne
    have hdata := h'.data j y (h.inodes.live_iff.mpr hj) hy (href ▸ hne)
    rw [href] at hdata
    rw [hdata, h.data j y hj hy hne]
  supply hle := h'.supply (h.supply hle)

/-- **A new block is in its slot.** -/
theorem Working.assign (hl : Layout sb) (h : Working sb s) (hx : x ∈ T)
    (hempty : s.ref x = 0) (hal : Allocated sb s s₁ b) (ha : Assigned sb s₁ s' x b)
    (hdata : ∀ c, c ≠ s.ref .pointer → s'.disk c = s₁.disk c) :
    Extended sb T s s' ∧ s'.ref x = b ∧ b ≠ 0 := by
  have hf := hal.fresh hl h
  have hg := hf.gives ha
  have hinum : s'.inum = s.inum := ha.inodes.inum.trans hf.inodes.inum
  have hself : ∀ y, s'.refs sb s.inum y = s'.ref y := fun y => hinum ▸ refs_self sb
  have hother : ∀ y, y ≠ x → s'.ref y = s.ref y := by
    intro y hy
    rw [← hself, hg.other _ y h.live_self fun hc => hy hc.2, refs_self]
  have hb : s'.ref x = b := by
    rw [← hself]
    exact hg.self
  have hne : b ≠ 0 := by
    have := hf.nmeta_le
    have := hl.nmeta_pos
    omega
  have hbits : ∀ c, c < sb.size.toNat →
      diskBit sb s'.disk c = if c = b then true else diskBit sb s.disk c := by
    intro c hc
    rw [ha.bits c hc, hf.bits c hc]
  have hino := hf.inodes.trans ha.inodes
  refine ⟨⟨?_, ⟨hinum, ?_, fun y hy => ?_⟩, hino, fun j y hj hlive => ?_, fun j y hj hy hjy => ?_,
    ?_⟩, hb, hne⟩
  · exact h.give hl hino hempty hal.lt hal.clear hg hbits
  · rw [ha.size, hf.ip]
  · apply hother
    rintro rfl
    exact hy hempty
  · exact hg.other j y hlive fun hji => hj hji.1
  · -- a block of a file is not the indirect block of the locked inode
    rw [hdata, hf.data j y hj hjy]
    rw [← refs_self sb]
    intro hp
    exact hy (h.owned.distinct j s.inum y .pointer hj h.live_self hjy hp).2
  · exact lacking_le_free hx hempty (hb ▸ hne) hother hal.lt hal.clear hbits

/-! ### The three places of a block -/

theorem Fresh.distinct (h : Working sb s) (hf : Fresh sb s s₁ b) :
    Distinct (s₁.live sb) (s₁.refs sb) := by
  have hcong := h.owned.congr sb.nmeta_le (fun _ _ => rfl) (fun _ => hf.inodes.live_iff) hf.refs
  exact hcong.distinct

theorem refs_setAddr (s : FsState) (k : Fin (ndirect + 1)) (b : Nat) : (s.setAddr k b).refs sb =
      blockRefs (update (s.inodes sb) s.inum ((s.inodes sb s.inum).setAddr k b)) s.disk := by
  have hino : (s.setAddr k b).inodes sb =
      update (s.inodes sb) s.inum ((s.inodes sb s.inum).setAddr k b) := by
    rw [inodes_self]
    exact (Function.update_idem ..).symm
  rw [FsState.refs, hino]
  rfl

theorem assigned_direct (s₁ : FsState) (k : Fin ndirect) (hb : b < 2 ^ 32) :
    Assigned sb s₁ (s₁.setAddr k.castSucc b) (.direct k) b where
  inodes := ⟨rfl, rfl, fun _ _ => rfl⟩
  size := rfl
  gives := by
    rw [refs_setAddr]
    exact gives_direct _ _ _ _ k hb
  bits _ _ := rfl

theorem assigned_pointer (hp : s₁.ref .pointer = 0) (hb : b < 2 ^ 32) (hz : s₁.disk b = .zero) :
    Assigned sb s₁ (s₁.setAddr (Fin.last ndirect) b) .pointer b where
  inodes := ⟨rfl, rfl, fun _ _ => rfl⟩
  size := rfl
  gives := by
    rw [refs_setAddr]
    refine gives_pointer _ _ _ ?_ hb hz
    rw [inodes_self]
    exact hp
  bits _ _ := rfl

theorem assigned_entry (hl : Layout sb) (hd : Distinct (s₁.live sb) (s₁.refs sb))
    (hlive : s₁.live sb s₁.inum) (k : Fin nindirect) (hne : s₁.ref .pointer ≠ 0)
    (hp : sb.nmeta ≤ s₁.ref .pointer) (hb : b < 2 ^ 32) :
    Assigned sb s₁ (s₁.setEntry (s₁.ref .pointer) k b) (.entry k) b := by
  have hino : SameInodes sb s₁ (s₁.setEntry (s₁.ref .pointer) k b) :=
    ⟨rfl, rfl, fun i hi => hl.diskInode_update hi (hl.bmapstart_le.trans hp)⟩
  have hg : Gives (s₁.live sb) (s₁.refs sb)
      (blockRefs (s₁.inodes sb) (s₁.setEntry (s₁.ref .pointer) k b).disk) s₁.inum (.entry k) b := by
    have := gives_entry hd hlive k (by rw [inodes_self]; exact hne) hb
    rwa [inodes_self] at this
  refine ⟨hino, rfl, ⟨?_, fun j y hj hjy => ?_⟩, fun c hc => hl.diskBit_update hc (.inr hp)⟩
  · rw [hino.refs_eq rfl hlive.1]
    exact hg.self
  · rw [hino.refs_eq rfl hj.1]
    exact hg.other j y hj hjy

theorem wp_ballocIfZero (hl : Layout sb) (h : Working sb s) (hx : x ∈ T)
    {addr : Nat} {assign : Nat → FsState → FsState} (haddr : addr = s.ref x)
    (hassign : addr = 0 → ∀ b s₁, Allocated sb s s₁ b → Assigned sb s₁ (assign b s₁) x b ∧
      ∀ c, c ≠ s.ref .pointer → (assign b s₁).disk c = s₁.disk c) : wp (ballocIfZero sb addr assign)
      (fun b s' => Extended sb T s s' ∧ s'.ref x = b ∧ b ≠ 0)
      (fun e _ => e = .outOfBlocks ∧ freeBlocks sb s.disk < lacking s.ref T) s := by
  unfold ballocIfZero
  apply wp_ite <;> intro hz
  · have hempty := haddr.symm.trans hz
    simp only [wp_bind, wp_modify, wp_pure]
    refine wp_mono wp_balloc (fun b s₁ hal => ?_) ?_
    · obtain ⟨ha, hdata⟩ := hassign hz b s₁ hal
      exact h.assign hl hx hempty hal ha hdata
    · rintro e _ ⟨rfl, hnone⟩
      exact ⟨rfl, hnone ▸ lacking_pos hx hempty⟩
  · exact ⟨Extended.refl h, haddr.symm, hz⟩

/-- **`bmap` finds the block or adds one**, unless the free blocks do not suffice for the slots of
`T`. -/
theorem wp_bmap (hl : Layout sb) (h : Working sb s) {bn : Nat} (hbn : bn < maxfile)
    (hx : .ofIndex bn ∈ T) (hptr : ndirect ≤ bn → .pointer ∈ T) :
    wp (bmap sb bn) (fun b s' => Extended sb T s s' ∧ s'.ref (.ofIndex bn) = b ∧ b ≠ 0)
      (fun e _ => e = .outOfBlocks ∧ freeBlocks sb s.disk < lacking s.ref T) s := by
  have hlt : ∀ {s s₁ b}, Allocated sb s s₁ b → b < 2 ^ 32 := fun ha => ha.lt.trans sb.size.isLt
  unfold bmap
  unfold BlockSlot.ofIndex at hx ⊢
  by_cases hd : bn < ndirect
  · rw [if_pos hd] at hx ⊢
    rw [if_pos hd]
    simp only [wp_bind, wp_get]
    exact wp_ballocIfZero hl h hx rfl fun _ b s₁ ha =>
      ⟨assigned_direct s₁ _ (hlt ha), fun _ _ => rfl⟩
  · rw [if_neg hd] at hx ⊢
    have hk : bn - ndirect < nindirect := by
      have hbn : bn < 268 := hbn
      have hd : ¬bn < 12 := hd
      show bn - 12 < 256
      omega
    rw [if_neg hd, if_pos hk]
    simp only [wp_bind, wp_get]
    -- first the indirect block, then its entry
    have hfirst : wp (ballocIfZero sb (s.addr (Fin.last ndirect)) (.setAddr (Fin.last ndirect)))
        (fun b s' => Extended sb T s s' ∧ s'.ref .pointer = b ∧ b ≠ 0)
        (fun e _ => e = .outOfBlocks ∧ freeBlocks sb s.disk < lacking s.ref T) s := by
      refine wp_ballocIfZero hl h (hptr (Nat.le_of_not_lt hd)) rfl fun hz b s₁ ha => ?_
      have hf := ha.fresh hl h
      refine ⟨assigned_pointer ?_ (hlt ha) hf.zero, fun _ _ => rfl⟩
      show (s₁.ip.addrs (Fin.last ndirect)).toNat = 0
      rw [hf.ip]
      exact hz
    refine wp_post hfirst fun p s₂ hp => ?_
    obtain ⟨hext, rfl, hne⟩ := hp
    have h₂ := hext.working
    have hentry : s₂.ref (.entry (Fin.ofNat nindirect (bn - ndirect))) =
        (s₂.disk (s₂.ref .pointer) (Fin.ofNat nindirect (bn - ndirect))).toNat := if_neg hne
    refine wp_mono (wp_ballocIfZero hl h₂ hx hentry.symm fun _ b s₃ ha => ?_)
      (fun b s' hb => ⟨hext.trans hb.1, hb.2⟩) ?_
    · have hf := ha.fresh hl h₂
      have hsame : s₃.ref .pointer = s₂.ref .pointer := by
        show (s₃.ip.addrs (Fin.last ndirect)).toNat = _
        rw [hf.ip]
        rfl
      rw [← hsame] at hne ⊢
      have hlive : s₃.live sb s₃.inum := by
        rw [hf.inodes.inum]
        exact hf.inodes.live_iff.mpr h₂.live_self
      have hin := h₂.ref_inside (hsame ▸ hne)
      refine ⟨assigned_entry hl (hf.distinct h₂) hlive _ hne (hsame.symm ▸ hin.1) (hlt ha),
        fun c hc => ?_⟩
      exact update_of_ne hc ..
    · rintro e _ ⟨rfl, hfew⟩
      refine ⟨rfl, ?_⟩
      by_contra henough
      exact absurd (hext.supply (Nat.le_of_not_lt henough)) (Nat.not_le.mpr hfew)

end Allocation

/-! ## Writing the bytes of a file -/

section Patch

variable {sb : Superblock} {s : FsState} {bn : Nat}

theorem refs_patch (off : Nat) (p : List UInt8) (hl : Layout sb)
    (hd : Distinct (s.live sb) (s.refs sb)) (hlive : s.live sb s.inum)
    (hne : s.ref (.ofIndex bn) ≠ 0)
    (hin : sb.nmeta ≤ s.ref (.ofIndex bn)) : SameInodes sb s (s.patch (s.ref (.ofIndex bn)) off p) ∧
      ∀ j y, s.live sb j → (s.patch (s.ref (.ofIndex bn)) off p).refs sb j y = s.refs sb j y := by
  have hmeta := hl.bmapstart_le
  have hino : SameInodes sb s (s.patch (s.ref (.ofIndex bn)) off p) :=
    ⟨rfl, rfl, fun i hi => hl.diskInode_update hi (by omega)⟩
  refine ⟨hino, fun j y hj => ?_⟩
  rw [hino.refs_eq rfl hj.1]
  refine blockRefs_write (s.live sb) (fun j hj hp => ?_) j hj y
  -- an indirect block would be in two slots
  have hp : s.refs sb j .pointer = s.refs sb s.inum (.ofIndex bn) := hp.trans (refs_self sb).symm
  have hne' : s.refs sb s.inum (.ofIndex bn) ≠ 0 := by
    rw [refs_self]
    exact hne
  have hslot := (hd _ _ _ _ hlive hj hne' hp.symm).2
  unfold BlockSlot.ofIndex at hslot
  split at hslot <;> cases hslot

theorem Working.patch (off : Nat) (p : List UInt8) (hl : Layout sb) (h : Working sb s)
    (hne : s.ref (.ofIndex bn) ≠ 0) : Working sb (s.patch (s.ref (.ofIndex bn)) off p) ∧
      Keeps s (s.patch (s.ref (.ofIndex bn)) off p) := by
  have hin := h.ref_inside hne
  obtain ⟨hino, hrefs⟩ := refs_patch off p hl h.owned.distinct h.live_self hne hin.1
  refine ⟨h.congr hino hrefs fun c hc => hl.diskBit_update hc (.inr hin.1), rfl, rfl, fun y _ => ?_⟩
  have := hrefs s.inum y h.live_self
  rw [refs_self] at this
  rw [← this]
  exact (refs_self sb).symm

end Patch

end Xv6Paging.Disk
