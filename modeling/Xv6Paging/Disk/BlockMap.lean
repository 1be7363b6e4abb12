import Xv6Paging.Disk.Block
import Xv6Paging.Logic.SlotMap

/-!
# The blocks of files

An inode refers to blocks from twelve direct slots, a pointer to an indirect block, and the entries
of that block.  The inodes are a map here: while a function works on an inode in memory, that one
differs from the disk.

A block that is given to an empty slot changes this slot only, provided that nobody refers to it
yet; and blocks that hold the bytes of a file can be written without a change of what refers to
what.
-/

namespace Xv6Paging

open SlotMap
open Function (update update_self)

abbrev ndirect : Nat := 12

instance : NeZero ndirect := ⟨by decide⟩

abbrev nindirect : Nat := 256

/-- `MAXFILE`, in blocks. -/
abbrev maxfile : Nat := ndirect + nindirect

/-- A place of an inode that refers to a block. -/
inductive BlockSlot
  | direct (k : Fin ndirect)
  | pointer
  | entry (k : Fin nindirect)
deriving DecidableEq

/-- The slot of the block `bn` of a file. -/
def BlockSlot.ofIndex (bn : Nat) : BlockSlot :=
  if bn < ndirect then .direct (Fin.ofNat _ bn) else .entry (Fin.ofNat _ (bn - ndirect))

theorem BlockSlot.ofIndex_inj {bn bn' : Nat} (h : bn < maxfile) (h' : bn' < maxfile)
    (heq : ofIndex bn = ofIndex bn') : bn = bn' := by
  have h : bn < 268 := h
  have h' : bn' < 268 := h'
  unfold ofIndex at heq
  split at heq <;> split at heq <;> rename_i hb hb'
  -- two direct slots, or two entries
  · have := congrArg Fin.val (BlockSlot.direct.inj heq)
    simp only [Fin.val_ofNat] at this
    rwa [Nat.mod_eq_of_lt hb, Nat.mod_eq_of_lt hb'] at this
  · cases heq
  · cases heq
  · have := congrArg Fin.val (BlockSlot.entry.inj heq)
    simp only [Fin.val_ofNat] at this
    have h1 : bn - 12 < 256 := by omega
    have h2 : bn' - 12 < 256 := by omega
    rw [Nat.mod_eq_of_lt h1, Nat.mod_eq_of_lt h2] at this
    have hb : ¬bn < 12 := hb
    have hb' : ¬bn' < 12 := hb'
    omega

/-- The entries before `n`. -/
def BlockSlot.entryBelow (n : Nat) : BlockSlot → Bool
  | .entry k => k.val < n
  | _ => false

/-- The indirect block and its entries. -/
def BlockSlot.isIndirect : BlockSlot → Bool
  | .direct _ => false
  | _ => true

/-- The block in a slot, or 0. -/
def Dinode.ref (d : Dinode) (disk : Nat → Block) : BlockSlot → Nat
  | .direct k => (d.addrs k.castSucc).toNat
  | .pointer => (d.addrs (Fin.last ndirect)).toNat
  | .entry k =>
    let p := (d.addrs (Fin.last ndirect)).toNat
    if p = 0 then 0 else (disk p k).toNat

/-- The inode with another block number. -/
def Dinode.setAddr (d : Dinode) (k : Fin (ndirect + 1)) (b : Nat) : Dinode :=
  { d with addrs := update d.addrs k (BitVec.ofNat 32 b) }

/-- The block with another block number in it. -/
def Block.setEntry (blk : Block) (k : Fin nindirect) (b : Nat) : Block :=
  update blk k (BitVec.ofNat 32 b)

/-- All blocks of a file of this size are there. -/
def Dinode.Covered (d : Dinode) (disk : Nat → Block) (size : Nat) : Prop :=
  ∀ bn, bn * bsize < size → bn < maxfile ∧ d.ref disk (.ofIndex bn) ≠ 0

/-- The blocks in the slots of inodes. -/
def blockRefs (ino : Nat → Dinode) (disk : Nat → Block) : Nat → BlockSlot → Nat :=
  fun i => (ino i).ref disk

section Gives

variable {live : Nat → Prop} {ino : Nat → Dinode} {disk : Nat → Block} {i b : Nat}

/-! ## Three ways to give a block -/

theorem Dinode.toNat_setAddr (d : Dinode) (k : Fin (ndirect + 1)) (hb : b < 2 ^ 32) :
    ((d.setAddr k b).addrs k).toNat = b := by
  simp only [Dinode.setAddr, update_self, BitVec.toNat_ofNat]
  exact Nat.mod_eq_of_lt hb

theorem gives_direct (live : Nat → Prop) (ino : Nat → Dinode) (disk : Nat → Block) (i : Nat)
    (k : Fin ndirect) (hb : b < 2 ^ 32) : Gives live (blockRefs ino disk)
      (blockRefs (update ino i ((ino i).setAddr k.castSucc b)) disk) i (.direct k) b := by
  have hlast : Fin.last ndirect ≠ k.castSucc := (Fin.castSucc_lt_last k).ne'
  constructor
  · simp only [blockRefs, update_self]
    exact Dinode.toNat_setAddr _ _ hb
  · intro j y _ hne
    by_cases hj : j = i
    · subst hj
      simp only [blockRefs, update_self]
      cases y with
      | direct k' =>
        have hk : k'.castSucc ≠ k.castSucc := by
          intro heq
          exact hne ⟨rfl, congrArg _ (Fin.castSucc_injective _ heq)⟩
        simp [Dinode.ref, Dinode.setAddr, hk]
      | pointer => simp [Dinode.ref, Dinode.setAddr, hlast]
      | entry k' => simp [Dinode.ref, Dinode.setAddr, hlast]
    · simp [blockRefs, hj]

theorem gives_pointer (live : Nat → Prop) (ino : Nat → Dinode) {disk : Nat → Block} (i : Nat)
    (hp : (ino i).ref disk .pointer = 0) (hb : b < 2 ^ 32) (hz : disk b = .zero) :
    Gives live (blockRefs ino disk)
      (blockRefs (update ino i ((ino i).setAddr (Fin.last ndirect) b)) disk) i .pointer b := by
  constructor
  · simp only [blockRefs, update_self]
    exact Dinode.toNat_setAddr _ _ hb
  · intro j y _ hne
    by_cases hj : j = i
    · subst hj
      simp only [blockRefs, update_self]
      cases y with
      | direct k =>
        have hk : k.castSucc ≠ Fin.last ndirect := (Fin.castSucc_lt_last k).ne
        simp [Dinode.ref, Dinode.setAddr, hk]
      | pointer => exact absurd ⟨rfl, rfl⟩ hne
      | entry k =>
        -- there was no entry, and those of a block of zeroes are empty
        have hold : (ino j).ref disk (.entry k) = 0 := if_pos hp
        rw [hold]
        simp only [Dinode.ref, Dinode.toNat_setAddr _ _ hb, hz]
        split <;> rfl
    · simp [blockRefs, hj]

theorem gives_entry (hd : Distinct live (blockRefs ino disk)) (hi : live i) (k : Fin nindirect)
    (hp : (ino i).ref disk .pointer ≠ 0) (hb : b < 2 ^ 32) : Gives live (blockRefs ino disk)
      (blockRefs ino (update disk ((ino i).ref disk .pointer)
        ((disk ((ino i).ref disk .pointer)).setEntry k b))) i (.entry k) b := by
  set p := (ino i).ref disk .pointer with hpdef
  have hp' : ¬((ino i).addrs (Fin.last ndirect)).toNat = 0 := hp
  constructor
  · simp only [blockRefs, Dinode.ref, if_neg hp']
    rw [show ((ino i).addrs (Fin.last ndirect)).toNat = p from rfl, update_self]
    simp only [Block.setEntry, update_self, BitVec.toNat_ofNat]
    exact Nat.mod_eq_of_lt hb
  · intro j y hj hne
    cases y with
    | direct k' => rfl
    | pointer => rfl
    | entry k' =>
      by_cases hji : j = i
      · subst hji
        have hk : k' ≠ k := fun h => hne ⟨rfl, congrArg _ h⟩
        simp only [blockRefs, Dinode.ref, if_neg hp']
        rw [show ((ino j).addrs (Fin.last ndirect)).toNat = p from rfl, update_self]
        simp [Block.setEntry, hk]
      · have hptr : ((ino j).addrs (Fin.last ndirect)).toNat ≠ p := fun heq =>
          hji (hd i j .pointer .pointer hi hj hp heq.symm).1.symm
        simp [blockRefs, Dinode.ref, hptr]

/-- **A block that is no indirect block is written.** -/
theorem blockRefs_write (live : Nat → Prop) {blk : Block}
    (hb : ∀ j, live j → (ino j).ref disk .pointer = b → b = 0) (j : Nat)
    (hj : live j) (y : BlockSlot) :
    blockRefs ino (update disk b blk) j y = blockRefs ino disk j y := by
  cases y with
  | direct k => rfl
  | pointer => rfl
  | entry k =>
    by_cases hz : ((ino j).addrs (Fin.last ndirect)).toNat = 0
    · simp [blockRefs, Dinode.ref, hz]
    · have hne : ((ino j).addrs (Fin.last ndirect)).toNat ≠ b := by
        intro heq
        exact hz (heq.trans (hb j hj heq))
      simp [blockRefs, Dinode.ref, hne]

end Gives

end Xv6Paging
