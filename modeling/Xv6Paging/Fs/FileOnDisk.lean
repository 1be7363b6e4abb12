import Xv6Paging.Disk.Contents
import Xv6Paging.Fs.File

/-!
# The kernel's files on the disk

Memory management sees the bytes of an inode as a function, and its `writei` always finds blocks.
On a disk `readi` and `writei` are loops over blocks, and `balloc` panics when none is free.  Up to
this panic the two are the same.
-/

namespace Xv6Paging.Disk

open StateHalt SlotMap FsState

/-- The inode has the size and the bytes of the locked file. -/
structure Represents (ip : Inode) (s : FsState) : Prop where
  size : ip.size = s.ip.size.toNat
  data : ∀ k, k < ip.size → ip.data k = s.byteAt k

section Represents

variable {sb : Superblock} {disk : Nat → Block} {i : Nat} {ip : Inode} {off n : BitVec 32}

theorem readiCount_eq : readiCount ip off.toNat n.toNat =
    if 2 ^ 32 ≤ off.toNat + n.toNat then 0 else min n.toNat (ip.size - off.toNat) := by
  have := off.isLt
  have := n.isLt
  unfold readiCount
  split_ifs <;> omega

/-- **`readi`** returns as many bytes as are counted. -/
theorem Represents.wp_readi {copyout : Nat → Bool} (h : Represents ip (locked sb disk i))
    (hs : Sound sb disk) (hlive : DiskLive sb disk i) (hcopy : ∀ t, copyout t = true) :
    wp (readi sb copyout off n) (fun r s' => s' = locked sb disk i ∧
      r = some ((List.range (readiCount ip off.toNat n.toNat)).map fun k =>
        ip.data (off.toNat + k)))
      (fun _ _ => False) (locked sb disk i) := by
  refine wp_post (wp_readi_content hcopy (hs.covered i hlive) off n) ?_
  rintro r s' ⟨rfl, rfl⟩
  refine ⟨rfl, congrArg some ?_⟩
  rw [readResult, readiCount_eq]
  split
  · rfl
  · have hlen := length_content (locked sb disk i)
    rw [← h.size] at hlen
    apply List.ext_getElem
    · simp [hlen]
    · intro k hk _
      have hlt : off.toNat + k < ip.size := by
        rw [List.length_take, List.length_drop, hlen] at hk
        omega
      simp [content, h.data _ hlt]

/-- **`writei`** stores the same bytes, or refuses to, unless it panics for want of blocks. -/
theorem Represents.wp_writei {copyin : Nat → Nat → List UInt8 × Bool} {src : Nat → UInt8}
    (h : Represents ip (locked sb disk i)) (hl : Layout sb) (hs : Sound sb disk)
    (hlive : DiskLive sb disk i) (hdel : Delivers copyin src n.toNat n.toNat) :
    wp (writei sb copyin off n) (fun r s' =>
      match ip.writei src off.toNat n.toNat with
      | none => r = none ∧ s' = locked sb disk i
      | some ip' => r = some n.toNat ∧ Represents ip' s' ∧ Sound sb s'.disk)
      (fun e _ => e = .outOfBlocks ∧
        freeBlocks sb disk < lacking (diskRef sb disk i) (touched off.toNat n.toNat))
      (locked sb disk i) := by
  have hsize : (diskInode sb disk i).size.toNat = ip.size := h.size.symm
  by_cases hok : off.toNat ≤ ip.size ∧ off.toNat + n.toNat ≤ maxFileBytes
  · rw [Inode.writei_eq hok.1 hok.2]
    refine wp_post (wp_writei_bytes hl hs hlive hdel (hsize ▸ hok.1) hok.2
      (touched_spans hok.2)) ?_
    rintro r s' ⟨rfl, hw, -⟩
    have hcount : counted off.toNat n.toNat n.toNat = n.toNat := if_pos le_rfl
    rw [hcount, Nat.min_self] at hw
    refine ⟨congrArg some hcount, ⟨?_, fun k hk => ?_⟩, hw.sound⟩
    · rw [hw.size]
      exact congrArg (max · _) h.size
    · dsimp only at hk ⊢
      rw [hw.bytes k (by rw [hw.size]; exact h.size ▸ hk)]
      split
      · rfl
      · exact h.data k (by omega)
  · have hnone : ip.writei src off.toNat n.toNat = none := by
      unfold Inode.writei
      split_ifs with hguard hmax
      · rfl
      · rfl
      · omega
    rw [hnone]
    refine wp_writei_refused ?_
    show (diskInode sb disk i).size.toNat < _ ∨ _ ∨ maxFileBytes < _
    omega

end Represents

end Xv6Paging.Disk
