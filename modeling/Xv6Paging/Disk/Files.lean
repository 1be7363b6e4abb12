import Xv6Paging.Disk.Ownership

/-!
# The free map and the inodes agree

The condition on a disk: the free map marks the data blocks that are in a slot, no block is in two,
and a file has all its blocks.  It is passed on to a function when the inode is locked, and comes
back with `iupdate`.  `itrunc` frees the entries of the indirect block without clearing them, so in
between the free map is right for fewer slots than the inode still shows.
-/

namespace Xv6Paging.Disk

open StateHalt SlotMap FsState
open Function (update update_of_ne update_self)

/-! ## The condition -/

section Condition

variable (sb : Superblock) (disk : Nat → Block)

/-- The block in a slot of an inode on the disk. -/
abbrev diskRef : Nat → BlockSlot → Nat := blockRefs (diskInode sb disk) disk

/-- An inode that is allocated on the disk. -/
abbrev DiskLive : Nat → Prop := Live sb (diskInode sb disk)

/-- Every inode has its blocks. -/
def FilesCovered : Prop :=
  ∀ i, DiskLive sb disk i → (diskInode sb disk i).Covered disk (diskInode sb disk i).size.toNat

/-- A marked data block is in exactly one slot, a clear block is in none, and every inode has its
blocks. -/
structure BlocksOwned : Prop where
  marked : ∀ b, sb.nmeta ≤ b → b < sb.size.toNat → diskBit sb disk b = true →
    ∃ i x, DiskLive sb disk i ∧ diskRef sb disk i x = b ∧
      ∀ i' x', DiskLive sb disk i' → diskRef sb disk i' x' = b → i' = i ∧ x' = x
  clear : ∀ b, b ≠ 0 → b < sb.size.toNat → diskBit sb disk b = false →
    ∀ i x, DiskLive sb disk i → diskRef sb disk i x ≠ b
  covered : FilesCovered sb disk

/-- The blocks before the data are marked and in no slot. -/
structure MetaGuarded : Prop where
  reserved : ∀ b, b < sb.nmeta → diskBit sb disk b = true
  inside : ∀ i x, DiskLive sb disk i → diskRef sb disk i x ≠ 0 →
    sb.nmeta ≤ diskRef sb disk i x ∧ diskRef sb disk i x < sb.size.toNat

/-- The free map is right, and every inode has its blocks. -/
structure Sound : Prop where
  owned : Owned sb.nmeta sb.size.toNat (diskBit sb disk) (DiskLive sb disk) (diskRef sb disk)
  covered : FilesCovered sb disk

variable {sb disk}

theorem sound_iff (hl : Layout sb) : Sound sb disk ↔ BlocksOwned sb disk ∧ MetaGuarded sb disk := by
  have hpos := hl.nmeta_pos
  constructor
  · rintro ⟨ho, hc⟩
    refine ⟨⟨fun b hlo hhi hbit => ?_, fun b _ hhi hbit => (ho.unused hhi hbit).2, hc⟩, ho.reserved,
      ho.inside⟩
    obtain ⟨i, x, hi, hix⟩ := (ho.marked b hlo hhi).mp hbit
    refine ⟨i, x, hi, hix, fun i' x' hi' hix' => ?_⟩
    exact ho.distinct i' i x' x hi' hi (by omega) (hix'.trans hix.symm)
  · rintro ⟨hb, hm⟩
    refine ⟨⟨hm.reserved, hm.inside, fun i i' x x' hi hi' hne heq => ?_, fun b hlo hhi => ?_⟩,
      hb.covered⟩
    · obtain ⟨hlo, hhi⟩ := hm.inside i x hi hne
      have hbit : diskBit sb disk (diskRef sb disk i x) = true := by
        by_contra hclear
        exact hb.clear _ hne hhi (Bool.not_eq_true _ ▸ hclear) i x hi rfl
      obtain ⟨j, y, _, _, huniq⟩ := hb.marked _ hlo hhi hbit
      obtain ⟨rfl, rfl⟩ := huniq i x hi rfl
      obtain ⟨rfl, rfl⟩ := huniq i' x' hi' heq.symm
      exact ⟨rfl, rfl⟩
    · constructor
      · intro hbit
        obtain ⟨i, x, hi, hix, _⟩ := hb.marked b hlo hhi hbit
        exact ⟨i, x, hi, hix⟩
      · rintro ⟨i, x, hi, hix⟩
        by_contra hclear
        exact hb.clear b (by omega) hhi (Bool.not_eq_true _ ▸ hclear) i x hi hix

end Condition

/-! ## From the disk to an inode in memory and back -/

section Lock

variable {sb : Superblock} {s : FsState} {disk : Nat → Block} {i : Nat} {d : Dinode}

/-- The state after `ilock`. -/
def FsState.locked (sb : Superblock) (disk : Nat → Block) (i : Nat) : FsState :=
  { disk := disk, inum := i, ip := diskInode sb disk i }

theorem locked_inodes : (locked sb disk i).inodes sb = diskInode sb disk :=
  Function.update_eq_self i (diskInode sb disk)

theorem Sound.working (h : Sound sb disk) (hi : i < sb.ninodes.toNat)
    (ht : (diskInode sb disk i).type ≠ 0) : Working sb (locked sb disk i) ∧
      (locked sb disk i).ip.Covered disk (locked sb disk i).ip.size.toNat := by
  refine ⟨⟨hi, ht, ?_, fun j _ hj => ?_⟩, h.covered i ⟨hi, ht⟩⟩
  · show Owned _ _ _ (Live sb ((locked sb disk i).inodes sb))
      (blockRefs ((locked sb disk i).inodes sb) disk)
    rw [locked_inodes]
    exact h.owned
  · have hj : Live sb ((locked sb disk i).inodes sb) j := hj
    rw [locked_inodes] at hj ⊢
    exact h.covered j hj

theorem blockRefs_writeInode (hl : Layout sb) {ino : Nat → Dinode}
    (hin : ∀ j y, Live sb ino j → blockRefs ino disk j y ≠ 0 → sb.nmeta ≤ blockRefs ino disk j y)
    (hi : i < sb.ninodes.toNat) (j : Nat) (y : BlockSlot) (hj : Live sb ino j) :
    blockRefs ino (writeInode sb disk i d) j y = blockRefs ino disk j y := by
  have hlt := hl.iblock_lt hi
  have hmeta := hl.bmapstart_le
  refine blockRefs_write (Live sb ino) (fun j hj hp => ?_) j hj y
  have hp : blockRefs ino disk j .pointer = iblock sb i := hp
  by_contra hne
  have := hin j .pointer hj (by omega)
  omega

/-- **An inode is written to the disk**: the inodes with this one replaced are now on the disk. -/
theorem sound_writeInode (hl : Layout sb) {ino : Nat → Dinode}
    (hino : update (diskInode sb disk) i d = ino) (hi : i < sb.ninodes.toNat)
    (ho : Owned sb.nmeta sb.size.toNat (diskBit sb disk) (Live sb ino) (blockRefs ino disk))
    (hc : ∀ j, Live sb ino j → (ino j).Covered disk (ino j).size.toNat) :
    Sound sb (writeInode sb disk i d) := by
  have heq : diskInode sb (writeInode sb disk i d) = ino := by
    funext j
    rw [diskInode_writeInode, ← hino]
    by_cases hj : j = i
    · rw [if_pos hj, hj, update_self]
    · rw [if_neg hj, update_of_ne hj]
  have hrefs := blockRefs_writeInode (d := d) hl (fun j y hj hne => (ho.inside j y hj hne).1) hi
  constructor
  · rw [DiskLive, diskRef, heq]
    exact ho.congr sb.nmeta_le (fun c hc => hl.diskBit_writeInode hi hc) (fun _ => Iff.rfl) hrefs
  · intro j hj bn hbn
    rw [DiskLive, heq] at hj
    rw [heq] at hbn ⊢
    have hcov := hc j hj bn hbn
    have hsame : (ino j).ref (writeInode sb disk i d) (.ofIndex bn) =
        (ino j).ref disk (.ofIndex bn) := hrefs j _ hj
    rw [hsame]
    exact hcov

theorem Working.iupdate (hl : Layout sb) (h : Working sb s)
    (hc : s.ip.Covered s.disk s.ip.size.toNat) : Sound sb (writeInode sb s.disk s.inum s.ip) := by
  refine sound_writeInode hl rfl h.inum_lt h.owned fun j hj => ?_
  by_cases hne : j = s.inum
  · subst hne
    have hself : update (diskInode sb s.disk) s.inum s.ip s.inum = s.ip := inodes_self
    rw [hself]
    exact hc
  · exact h.others j hne hj

theorem Sound.replace (hl : Layout sb) (h : Sound sb disk) (hi : i < sb.ninodes.toNat)
    (hempty : DiskLive sb disk i → ∀ x, diskRef sb disk i x = 0) (hd : ∀ x, d.ref disk x = 0)
    (hsize : d.size = 0) : Sound sb (writeInode sb disk i d) := by
  have hne : ∀ j, j ≠ i → update (diskInode sb disk) i d j = diskInode sb disk j :=
    fun j hj => update_of_ne hj ..
  refine sound_writeInode hl rfl hi ?_ fun j hj => ?_
  · refine h.owned.renew hl.nmeta_pos sb.nmeta_le i (fun _ _ => rfl) (fun j hj => ?_)
      (fun j y hj _ => ?_) hempty fun _ x => ?_
    · rw [Live, hne j hj]
      rfl
    · rw [blockRefs, hne j hj]
      rfl
    · rw [blockRefs, update_self]
      exact hd x
  · by_cases hji : j = i
    · subst hji
      rw [update_self, hsize]
      intro bn hbn
      exact absurd hbn (Nat.not_lt_zero _)
    · rw [hne j hji]
      refine h.covered j ⟨hj.1, ?_⟩
      rw [← hne j hji]
      exact hj.2

end Lock

/-! ## `itrunc` -/

section Itrunc

variable {sb : Superblock} {s : FsState} {E : FsPanic → FsState → Prop}

theorem wp_bfree {b : Nat} {Q : Unit → FsState → Prop} (h : diskBit sb s.disk b = true) :
    wp (bfree sb b) Q E s ↔ Q () { s with disk := writeBit sb s.disk b false } := by
  unfold bfree
  simp only [wp_bind, wp_get]
  rw [if_pos h]
  exact wp_modify _

theorem Working.free_direct (hl : Layout sb) (h : Working sb s) (k : Fin ndirect)
    (hne : s.ref (.direct k) ≠ 0) :
    let s' := FsState.setAddr k.castSucc 0
      { s with disk := writeBit sb s.disk (s.ref (.direct k)) false }
    Working sb s' ∧ s'.inum = s.inum ∧
      ∀ y, s'.ref y = if y = .direct k then 0 else s.ref y := by
  intro s'
  have hlt := (h.ref_inside hne).2
  set s₁ : FsState := { s with disk := writeBit sb s.disk (s.ref (.direct k)) false } with hs₁
  have hino₁ : SameInodes sb s s₁ := sameInodes_writeBit hl s hlt false
  have hrefs₁ : ∀ j y, s.live sb j → s₁.refs sb j y = s.refs sb j y := fun j y hj => by
    rw [hino₁.refs_eq rfl hj.1]
    exact blockRefs_writeBit hl h hlt false j y hj
  have ha : Assigned sb s₁ s' (.direct k) 0 := assigned_direct s₁ k (by decide)
  have hg : Gives (s.live sb) (s.refs sb) (s'.refs sb) s.inum (.direct k) 0 := by
    refine ⟨ha.gives.self, fun j y hj hjy => ?_⟩
    rw [ha.gives.other j y (hino₁.live_iff.mpr hj) hjy]
    exact hrefs₁ j y hj
  have hself : ∀ y, s'.refs sb s.inum y = s'.ref y := fun y => refs_self sb
  refine ⟨?_, rfl, fun y => ?_⟩
  · refine h.take hl ⟨rfl, rfl, hino₁.disk⟩ hne hg fun c hc => ?_
    exact diskBit_writeBit ..
  · by_cases hy : y = .direct k
    · rw [if_pos hy, hy, ← hself]
      exact hg.self
    · rw [if_neg hy, ← hself, hg.other _ y h.live_self fun hjy => hy hjy.2, refs_self]

theorem wp_itruncDirect (hl : Layout sb) (h : Working sb s) :
    wp (itruncDirect sb) (fun _ s' => Working sb s' ∧ s'.inum = s.inum ∧
      ∀ k, s'.ref (.direct k) = 0) E s := by
  refine wp_forEach (fun i s' => Working sb s' ∧ s'.inum = s.inum ∧
    ∀ k : Fin ndirect, k.val < i → s'.ref (.direct k) = 0) ⟨h, rfl, nofun⟩ ?_ ?_
  · rintro i s' - hi ⟨h', hinum, hzero⟩
    have hi : i < 12 := by omega
    have hval : (Fin.ofNat ndirect i).val = i := Nat.mod_eq_of_lt hi
    have hlast : ∀ k : Fin ndirect, k.val < i + 1 → k = Fin.ofNat ndirect i ∨ k.val < i := by
      intro k hk
      by_cases hki : k.val = i
      · exact .inl (Fin.ext (hki.trans hval.symm))
      · exact .inr (by omega)
    simp only [wp_bind, wp_get]
    apply wp_onlyIf
    · intro hne
      have hfree := h'.free_direct hl (Fin.ofNat ndirect i) hne
      have hbit : diskBit sb s'.disk (s'.addr (Fin.ofNat ndirect i).castSucc) = true := by
        have := h'.owned.bit_of_held (x := .direct (Fin.ofNat ndirect i)) h'.live_self
          (by rw [refs_self]; exact hne)
        rwa [refs_self] at this
      simp only [wp_bind]
      rw [wp_bfree hbit, wp_modify]
      refine ⟨hfree.1, hinum, fun k hk => ?_⟩
      have hk' := hfree.2.2 (.direct k)
      rcases hlast k hk with rfl | hlt
      · exact hk'.trans (if_pos rfl)
      · rw [hzero k hlt, ite_self] at hk'
        exact hk'
    · intro hz
      refine ⟨h', hinum, fun k hk => ?_⟩
      rcases hlast k hk with rfl | hlt
      · exact not_not.mp hz
      · exact hzero k hlt
  · rintro s' ⟨h', hinum, hzero⟩
    exact ⟨h', hinum, fun k => hzero k (by omega)⟩

/-- The slots, without some of the inode `i`. -/
def without (r : Nat → BlockSlot → Nat) (i : Nat) (p : BlockSlot → Bool) : Nat → BlockSlot → Nat :=
  fun j y => if j = i ∧ p y = true then 0 else r j y

/-- During the loop over the entries, those before `n` are free, although the block still has
them. -/
structure Freeing (sb : Superblock) (s s' : FsState) (n : Nat) : Prop where
  inum : s'.inum = s.inum
  ip : s'.ip = s.ip
  inodes : ∀ i, i < sb.ninodes.toNat → diskInode sb s'.disk i = diskInode sb s.disk i
  data : ∀ b, sb.nmeta ≤ b → s'.disk b = s.disk b
  owned : Owned sb.nmeta sb.size.toNat (diskBit sb s'.disk) (s.live sb)
    (without (s.refs sb) s.inum (BlockSlot.entryBelow n))

theorem Freeing.of_writeBit (hl : Layout sb) {s' : FsState} {n n' b : Nat} (hf : Freeing sb s s' n)
    (hb : b < sb.size.toNat)
    (ho : Owned sb.nmeta sb.size.toNat (diskBit sb (writeBit sb s'.disk b false)) (s.live sb)
      (without (s.refs sb) s.inum (BlockSlot.entryBelow n'))) :
    Freeing sb s { s' with disk := writeBit sb s'.disk b false } n' where
  inum := hf.inum
  ip := hf.ip
  inodes i hi := (hl.diskInode_writeBit hb hi).trans (hf.inodes i hi)
  data c hc := by
    have hmem := hl.bblock_mem hb
    show update s'.disk _ _ c = _
    rw [update_of_ne (by omega)]
    exact hf.data c hc
  owned := ho

theorem without_of_not {r : Nat → BlockSlot → Nat} {i j : Nat} {p : BlockSlot → Bool}
    {y : BlockSlot} (h : ¬(j = i ∧ p y = true)) : without r i p j y = r j y := if_neg h

theorem gives_without {r : Nat → BlockSlot → Nat} {live : Nat → Prop} {i : Nat}
    {p q : BlockSlot → Bool} {x : BlockSlot} (hx : q x = true) (hpq : ∀ y, y ≠ x → q y = p y) :
    Gives live (without r i p) (without r i q) i x 0 where
  self := if_pos ⟨rfl, hx⟩
  other j y _ hne := by
    unfold without
    by_cases hj : j = i
    · rw [hpq y fun hy => hne ⟨hj, hy⟩]
    · rw [if_neg fun h => hj h.1, if_neg fun h => hj h.1]

theorem entryBelow_succ {n : Nat} {k : Fin nindirect} (hk : k.val = n) (y : BlockSlot)
    (hy : y ≠ .entry k) : BlockSlot.entryBelow (n + 1) y = BlockSlot.entryBelow n y := by
  cases y with
  | direct _ => rfl
  | pointer => rfl
  | entry k' =>
    have hne : k'.val ≠ n := fun h => hy (congrArg _ (Fin.ext (h.trans hk.symm)))
    simp only [BlockSlot.entryBelow, decide_eq_decide]
    omega

theorem Freeing.wp_entries (hl : Layout sb) (h : Working sb s) (hp : s.ref .pointer ≠ 0) :
    wp (forEach (fun j => do
      let addr := ((← get).disk (s.ref .pointer) (Fin.ofNat nindirect j)).toNat
      onlyIf (addr ≠ 0) (bfree sb addr)) 0 nindirect)
      (fun _ s' => Freeing sb s s' nindirect) E s := by
  refine wp_forEach (fun n s' => Freeing sb s s' n) ?_ ?_ fun s' hs' => by simpa using hs'
  · refine ⟨rfl, rfl, fun _ _ => rfl, fun _ _ => rfl, ?_⟩
    refine h.owned.congr sb.nmeta_le (fun _ _ => rfl) (fun _ => Iff.rfl) fun j y _ => ?_
    apply without_of_not
    rintro ⟨-, hy⟩
    cases y <;> simp [BlockSlot.entryBelow] at hy
  · intro n s' _ hn hf
    have hval : (Fin.ofNat nindirect n).val = n := Nat.mod_eq_of_lt (by omega)
    set k := Fin.ofNat nindirect n with hk
    -- the entry, which is in the indirect block as it was at the beginning
    have haddr : (s'.disk (s.ref .pointer) k).toNat = s.ref (.entry k) := by
      rw [hf.data _ (h.ref_inside hp).1]
      exact (if_neg hp).symm
    have hsame : without (s.refs sb) s.inum (BlockSlot.entryBelow n) s.inum (.entry k) =
        s.ref (.entry k) := by
      rw [without_of_not, refs_self]
      simp [BlockSlot.entryBelow, hval]
    have hg : Gives (s.live sb) (without (s.refs sb) s.inum (BlockSlot.entryBelow n))
        (without (s.refs sb) s.inum (BlockSlot.entryBelow (n + 1))) s.inum (.entry k) 0 :=
      gives_without (by simp [BlockSlot.entryBelow, hval]) (entryBelow_succ hval)
    simp only [wp_bind, wp_get]
    rw [haddr]
    apply wp_onlyIf
    · intro hne
      have hheld := hf.owned.bit_of_held (x := .entry k) h.live_self (by rw [hsame]; exact hne)
      rw [hsame] at hheld
      rw [wp_bfree hheld]
      have hlt := (h.ref_inside hne).2
      refine hf.of_writeBit hl hlt ?_
      refine hf.owned.take hl.nmeta_pos h.live_self (by rw [hsame]; exact hne) hg fun c hc => ?_
      rw [hsame]
      exact diskBit_writeBit ..
    · intro hz
      refine ⟨hf.inum, hf.ip, hf.inodes, hf.data, ?_⟩
      refine hf.owned.congr sb.nmeta_le (fun _ _ => rfl) (fun _ => Iff.rfl) fun j y hj => ?_
      by_cases hjy : j = s.inum ∧ y = .entry k
      · obtain ⟨rfl, rfl⟩ := hjy
        rw [hg.self, hsame, not_not.mp hz]
      · exact hg.other j y hj hjy

/-- The indirect block is free too, and its number is erased. -/
theorem Freeing.done (hl : Layout sb) (h : Working sb s) (hp : s.ref .pointer ≠ 0) {s' : FsState}
    (hf : Freeing sb s s' nindirect) :
    let s'' := FsState.setAddr (Fin.last ndirect) 0
      { s' with disk := writeBit sb s'.disk (s.ref .pointer) false }
    Working sb s'' ∧ s''.inum = s.inum ∧
      ∀ y, s''.ref y = if y.isIndirect then 0 else s.ref y := by
  intro s''
  have hlt := (h.ref_inside hp).2
  have hmem := hl.bblock_mem hlt
  have hino : SameInodes sb s s'' := by
    refine ⟨hf.inum, ?_, fun i hi => (hl.diskInode_writeBit hlt hi).trans (hf.inodes i hi)⟩
    show s'.ip.type = _
    rw [hf.ip]
  have hdata : ∀ b, sb.nmeta ≤ b → s''.disk b = s.disk b := by
    intro b hb
    show update s'.disk _ _ b = _
    rw [update_of_ne (by omega)]
    exact hf.data b hb
  have hrefself : ∀ y, s''.ref y = if y.isIndirect then 0 else s.ref y := by
    have hip : s''.ip = s.ip.setAddr (Fin.last ndirect) 0 := by
      show s'.ip.setAddr _ _ = _
      rw [hf.ip]
    intro y
    show s''.ip.ref s''.disk y = _
    rw [hip]
    cases y with
    | direct k =>
      have hne : k.castSucc ≠ Fin.last ndirect := (Fin.castSucc_lt_last k).ne
      simp [BlockSlot.isIndirect, Dinode.ref, Dinode.setAddr, hne]
    | pointer => simp [BlockSlot.isIndirect, Dinode.ref, Dinode.setAddr]
    | entry k => simp [BlockSlot.isIndirect, Dinode.ref, Dinode.setAddr]
  have hrefs : ∀ j y, j ≠ s.inum → s.live sb j → s''.refs sb j y = s.refs sb j y := by
    intro j y hj hlive
    simp only [FsState.refs, blockRefs]
    rw [hino.inodes_ne hlive.1 hj]
    cases y with
    | direct k => rfl
    | pointer => rfl
    | entry k =>
      by_cases hz : s.refs sb j .pointer = 0
      · exact (if_pos hz).trans (if_pos hz).symm
      · have hin := h.owned.inside j .pointer hlive hz
        have hptr : ¬((s.inodes sb j).addrs (Fin.last ndirect)).toNat = 0 := hz
        have hlo : sb.nmeta ≤ ((s.inodes sb j).addrs (Fin.last ndirect)).toNat := hin.1
        simp only [Dinode.ref, if_neg hptr]
        rw [hdata _ hlo]
  refine ⟨⟨hino.inum ▸ h.inum_lt, hino.type ▸ h.type_ne, ?_, h.others_of hino hrefs⟩, hino.inum,
    hrefself⟩
  -- the slots without the entries, and then without the indirect block
  have hsame : without (s.refs sb) s.inum (BlockSlot.entryBelow nindirect) s.inum .pointer =
      s.ref .pointer := by
    rw [without_of_not, refs_self]
    simp [BlockSlot.entryBelow]
  have hg : Gives (s.live sb) (without (s.refs sb) s.inum (BlockSlot.entryBelow nindirect))
      (without (s.refs sb) s.inum BlockSlot.isIndirect) s.inum .pointer 0 := by
    refine gives_without rfl fun y hy => ?_
    cases y with
    | direct k => rfl
    | pointer => exact absurd rfl hy
    | entry k => simp [BlockSlot.isIndirect, BlockSlot.entryBelow]
  have htake : Owned sb.nmeta sb.size.toNat (diskBit sb s''.disk) (s.live sb)
      (without (s.refs sb) s.inum BlockSlot.isIndirect) := by
    refine hf.owned.take hl.nmeta_pos h.live_self (by rw [hsame]; exact hp) hg fun c hc => ?_
    rw [hsame]
    exact diskBit_writeBit ..
  refine htake.congr sb.nmeta_le (fun _ _ => rfl) (fun _ => hino.live_iff) fun j y hj => ?_
  by_cases hji : j = s.inum
  · subst hji
    have hself : s''.refs sb s.inum y = s''.ref y := hino.inum ▸ refs_self sb
    rw [hself, hrefself, without, refs_self]
    simp
  · rw [without_of_not fun h => hji h.1]
    exact hrefs j y hji hj

theorem wp_itruncIndirect (hl : Layout sb) (h : Working sb s) (hd : ∀ k, s.ref (.direct k) = 0) :
    wp (itruncIndirect sb) (fun _ s' => Working sb s' ∧ s'.inum = s.inum ∧
      ∀ y, s'.ref y = 0) E s := by
  unfold itruncIndirect
  simp only [wp_bind, wp_get]
  apply wp_onlyIf
  · intro hp
    simp only [wp_bind]
    refine wp_post (Freeing.wp_entries hl h hp) fun _ s' hf => ?_
    have hdone := hf.done hl h hp
    have hheld : diskBit sb s'.disk (s.addr (Fin.last ndirect)) = true := by
      have hsame : without (s.refs sb) s.inum (BlockSlot.entryBelow nindirect) s.inum .pointer =
          s.ref .pointer := by
        rw [without_of_not, refs_self]
        simp [BlockSlot.entryBelow]
      have := hf.owned.bit_of_held (x := .pointer) h.live_self (by rw [hsame]; exact hp)
      rwa [hsame] at this
    rw [wp_bfree hheld, wp_modify]
    refine ⟨hdone.1, hdone.2.1, fun y => ?_⟩
    refine (hdone.2.2 y).trans ?_
    cases y with
    | direct k => exact hd k
    | pointer => rfl
    | entry k => rfl
  · intro hz
    refine ⟨h, rfl, fun y => ?_⟩
    cases y with
    | direct k => exact hd k
    | pointer => exact not_not.mp hz
    | entry k => exact if_pos (not_not.mp hz)

theorem Working.resize (h : Working sb s) (v : BitVec 32) :
    Working sb { s with ip := { s.ip with size := v } } := by
  have hino : SameInodes sb s { s with ip := { s.ip with size := v } } :=
    ⟨rfl, rfl, fun _ _ => rfl⟩
  refine h.congr hino (fun j y hj => ?_) fun _ _ => rfl
  by_cases hji : j = s.inum
  · subst hji
    have hself : s.refs sb s.inum y = s.ref y := refs_self sb
    exact (refs_self (s := { s with ip := { s.ip with size := v } }) sb).trans hself.symm
  · simp only [FsState.refs, blockRefs]
    rw [hino.inodes_ne hj.1 hji]

/-- **`itrunc` leaves a file without blocks**, and never frees a free block. -/
theorem wp_itrunc (hl : Layout sb) (h : Working sb s) :
    wp (itrunc sb) (fun _ s' => Sound sb s'.disk ∧ s'.inum = s.inum ∧
      diskInode sb s'.disk s.inum = s'.ip ∧ s'.ip.size = 0 ∧ ∀ y, s'.ref y = 0) E s := by
  unfold itrunc
  simp only [wp_bind]
  refine wp_post (wp_itruncDirect hl h) fun _ s₁ h₁ => ?_
  refine wp_post (wp_itruncIndirect hl h₁.1 h₁.2.2) fun _ s₂ h₂ => ?_
  simp only [wp_modify, iupdate]
  obtain ⟨hw, hinum, hzero⟩ := h₂
  have hinum : s₂.inum = s.inum := hinum.trans h₁.2.1
  have hw' := hw.resize 0
  refine ⟨?_, hinum, ?_, trivial, fun y => ?_⟩
  · refine hw'.iupdate hl fun bn hbn => ?_
    exact absurd hbn (Nat.not_lt_zero _)
  · rw [diskInode_writeInode, if_pos hinum.symm]
  · -- the slots do not change with the block of the inode
    have hrefs := blockRefs_writeInode (d := { s₂.ip with size := 0 }) hl
      (fun j y hj hne => (hw'.owned.inside j y hj hne).1) hw'.inum_lt s₂.inum y hw'.live_self
    have hself := refs_self (s := { s₂ with ip := { s₂.ip with size := 0 } }) (x := y) sb
    simp only [blockRefs] at hrefs
    rw [show FsState.inodes sb { s₂ with ip := { s₂.ip with size := 0 } } s₂.inum =
      { s₂.ip with size := 0 } from inodes_self] at hrefs
    exact hrefs.trans (hzero y)

end Itrunc

end Xv6Paging.Disk
