import Xv6Paging.Disk.FileRuns

/-!
# Files as arrays of bytes

What `writei` does to the bytes of a file, and `readi` afterwards.  A write goes block by block, and
blocks are added on the way; each piece changes the bytes of its own range only, and adjacent pieces
make up the whole range.  How far the source can be read is part of the statement: a copy that fails
in the middle of a piece has changed the block up to there, although the piece is not counted.

`readi` takes an offset and a length whose sum exceeds 32 bits for an error, and returns nothing
then, also if the offset is inside the file.
-/

namespace Xv6Paging.Disk

open StateHalt SlotMap FsState

/-! ## Sources -/

/-- The copies deliver the bytes of `src` up to `reach`, for requests that end before `n`. -/
structure Delivers (copyin : Nat → Nat → List UInt8 × Bool) (src : Nat → UInt8)
    (reach n : Nat) : Prop where
  bytes : ∀ tot m, tot ≤ reach → tot + m ≤ n →
    (copyin tot m).1 = (List.range (min m (reach - tot))).map fun j => src (tot + j)
  ok : ∀ tot m, tot ≤ reach → tot + m ≤ n → ((copyin tot m).2 = true ↔ tot + m ≤ reach)

/-- Copies from a buffer of the kernel. -/
def fromBuffer (buf : List UInt8) (tot m : Nat) : List UInt8 × Bool := ((buf.drop tot).take m, true)

theorem delivers_fromBuffer (buf : List UInt8) :
    Delivers (fromBuffer buf) (fun j => buf.getD j 0) buf.length buf.length where
  bytes tot m htot hm := by
    apply List.ext_getElem
    · simp [fromBuffer]
    · intro j hj _
      have hj : j < min m (buf.length - tot) := by simpa [fromBuffer] using hj
      have hlt : tot + j < buf.length := by omega
      simp [fromBuffer, hlt]
  ok _ _ _ hm := ⟨fun _ => hm, fun _ => rfl⟩

/-- How many bytes of `n` at `off` a write counts if its source can be read up to `reach`: a piece
that fails is not counted. -/
def counted (off n reach : Nat) : Nat :=
  if n ≤ reach then n else (off + reach) / bsize * bsize - off

theorem counted_le (off n reach : Nat) : counted off n reach ≤ min n reach := by
  unfold counted
  split
  · omega
  · show (off + reach) / 1024 * 1024 - off ≤ _
    omega

/-! ## The slots of a range -/

/-- The slots of the blocks that `n` bytes at `off` are in, with the indirect block. -/
def touched (off n : Nat) : Finset BlockSlot :=
  ((Finset.range maxfile).filter fun bn =>
    0 < n ∧ off / bsize ≤ bn ∧ bn * bsize < off + n).image .ofIndex ∪
      if 0 < n ∧ ndirect * bsize < off + n then {.pointer} else ∅

/-- The slots that `bmap` uses for the bytes from `off` to `stop`. -/
def Spans (T : Finset BlockSlot) (off stop : Nat) : Prop :=
  ∀ j, off ≤ j → j < stop → .ofIndex (j / bsize) ∈ T ∧ (ndirect ≤ j / bsize → .pointer ∈ T)

theorem touched_spans {off n : Nat} (hmax : off + n ≤ maxfile * bsize) :
    Spans (touched off n) off (off + n) := by
  intro j hlo hhi
  have hmax : off + n ≤ 274432 := hmax
  have hbn : j / bsize < maxfile := by
    show j / 1024 < 268
    omega
  have hpos : 0 < n := by omega
  refine ⟨Finset.mem_union_left _ (Finset.mem_image_of_mem _ ?_), fun hind => ?_⟩
  · refine Finset.mem_filter.mpr ⟨Finset.mem_range.mpr hbn, hpos, Nat.div_le_div_right hlo, ?_⟩
    exact (Nat.div_mul_le_self j bsize).trans_lt hhi
  · refine Finset.mem_union_right _ ?_
    have hind : 12 ≤ j / 1024 := hind
    have hlt : ndirect * bsize < off + n := by
      show 12288 < off + n
      omega
    rw [if_pos ⟨hpos, hlt⟩]
    exact Finset.mem_singleton_self _

/-! ## Writing a range -/

/-- The bytes `lo`, …, `hi - 1` of the locked file have been written, and blocks have come to it;
nothing else has changed. -/
structure Wrote (sb : Superblock) (T : Finset BlockSlot) (f : Nat → UInt8) (lo hi : Nat)
    (s s' : FsState) : Prop where
  working : Working sb s'
  keeps : Keeps s s'
  inodes : SameInodes sb s s'
  others : ∀ j y, j ≠ s.inum → s.live sb j → s'.refs sb j y = s.refs sb j y
  /-- The blocks of other files are the same. -/
  data : ∀ j y, j ≠ s.inum → s.live sb j → y ≠ .pointer → s.refs sb j y ≠ 0 →
    s'.disk (s.refs sb j y) = s.disk (s.refs sb j y)
  written : ∀ i, lo ≤ i → i < hi → s'.ref (.ofIndex (i / bsize)) ≠ 0 ∧ s'.byteAt i = f i
  kept : ∀ i, i < maxfile * bsize → ¬(lo ≤ i ∧ i < hi) → s.ref (.ofIndex (i / bsize)) ≠ 0 →
    s'.byteAt i = s.byteAt i
  supply : lacking s.ref T ≤ freeBlocks sb s.disk → lacking s'.ref T ≤ freeBlocks sb s'.disk

section Wrote

variable {sb : Superblock} {T : Finset BlockSlot} {f : Nat → UInt8} {s s' s'' : FsState}
  {lo mid hi : Nat}

theorem ofIndex_ne_pointer (bn : Nat) : BlockSlot.ofIndex bn ≠ .pointer := by
  unfold BlockSlot.ofIndex
  split <;> exact BlockSlot.noConfusion

theorem Extended.wrote (h : Extended sb T s s') (hs : Working sb s) (f : Nat → UInt8) (lo : Nat) :
    Wrote sb T f lo lo s s' where
  working := h.working
  keeps := h.keeps
  inodes := h.inodes
  others := h.others
  data j y _ hj hy hne := h.data j y hj hy hne
  written i hlo hhi := absurd hhi (Nat.not_lt.mpr hlo)
  kept i _ _ hne := by
    have hdata := h.data s.inum (.ofIndex (i / bsize)) hs.live_self (ofIndex_ne_pointer _)
    rw [refs_self] at hdata
    have href : s'.ip.ref s'.disk (.ofIndex (i / bsize)) = s.ref (.ofIndex (i / bsize)) :=
      h.keeps.ref _ hne
    rw [byteAt, byteAt, href, hdata hne]
  supply := h.supply

theorem Wrote.trans (h : Wrote sb T f lo mid s s') (h' : Wrote sb T f mid hi s' s'')
    (hlo : lo ≤ mid) (hhi : mid ≤ hi) (hmax : hi ≤ maxfile * bsize) : Wrote sb T f lo hi s s'' where
  working := h'.working
  keeps := h.keeps.trans h'.keeps
  inodes := h.inodes.trans h'.inodes
  others j y hne hj := by
    rw [h'.others j y (h.keeps.inum ▸ hne) (h.inodes.live_iff.mpr hj), h.others j y hne hj]
  data j y hne hj hy hjy := by
    have href := h.others j y hne hj
    have hdata := h'.data j y (h.keeps.inum ▸ hne) (h.inodes.live_iff.mpr hj) hy (href ▸ hjy)
    rw [href] at hdata
    rw [hdata, h.data j y hne hj hy hjy]
  written i h1 h2 := by
    rcases Nat.lt_or_ge i mid with hlt | hge
    · obtain ⟨hne, hbyte⟩ := h.written i h1 hlt
      refine ⟨?_, ?_⟩
      · rw [h'.keeps.ref _ hne]
        exact hne
      · rw [h'.kept i (by omega) (by omega) hne, hbyte]
    · exact h'.written i hge h2
  kept i h1 h2 hne := by
    have hne' : s'.ref (.ofIndex (i / bsize)) ≠ 0 := by
      rw [h.keeps.ref _ hne]
      exact hne
    rw [h'.kept i h1 (by omega) hne', h.kept i h1 (by omega) hne]
  supply hle := h'.supply (h.supply hle)

/-- **A piece is written**: bytes that lie in one block, which is there. -/
theorem Working.wrote_patch (hl : Layout sb) (h : Working sb s) {p : List UInt8}
    (hbn : lo / bsize < maxfile) (hne : s.ref (.ofIndex (lo / bsize)) ≠ 0)
    (hfit : lo % bsize + p.length ≤ bsize) (hf : ∀ k, k < p.length → p.getD k 0 = f (lo + k)) :
    Wrote sb T f lo (lo + p.length) s (s.patch (s.ref (.ofIndex (lo / bsize))) (lo % bsize) p) := by
  set b := s.ref (.ofIndex (lo / bsize)) with hb
  set s' := s.patch b (lo % bsize) p with hs'
  have hin := h.ref_inside hne
  obtain ⟨hw, hkeep⟩ := h.patch (lo % bsize) p hl hne
  obtain ⟨hino, hrefs⟩ := refs_patch (lo % bsize) p hl h.owned.distinct h.live_self hne hin.1
  have hfit : lo % 1024 + p.length ≤ 1024 := hfit
  have hself : ∀ y, s'.ref y = s.ref y := by
    intro y
    have := hrefs s.inum y h.live_self
    rw [refs_self] at this
    rw [← this]
    exact (refs_self sb).symm
  have hslot : s.refs sb s.inum (.ofIndex (lo / bsize)) = b := refs_self sb
  have hblock : s'.disk b = (s.disk b).patch (lo % bsize) p := Function.update_self ..
  have hother : ∀ c, c ≠ b → s'.disk c = s.disk c := fun c hc => Function.update_of_ne hc ..
  -- a byte of the file, by whether it is in the block
  have hbyte : ∀ i, i / bsize = lo / bsize → s'.byteAt i =
      if lo ≤ i ∧ i < lo + p.length then f i else s.byteAt i := by
    intro i hi
    have hmod : i % bsize < bsize := Nat.mod_lt i (by decide)
    have href : s'.ip.ref s'.disk (.ofIndex (i / bsize)) = b := by
      rw [hi]
      exact hself _
    have href' : s.ip.ref s.disk (.ofIndex (i / bsize)) = b := by
      rw [hi]
    rw [byteAt, byteAt, href, href', hblock, Block.byte_patch _ _ hmod]
    have hi : i / 1024 = lo / 1024 := hi
    have hiff : lo % bsize ≤ i % bsize ∧ i % bsize < lo % bsize + p.length ↔
        lo ≤ i ∧ i < lo + p.length := by
      show lo % 1024 ≤ i % 1024 ∧ i % 1024 < lo % 1024 + p.length ↔ _
      omega
    simp only [hiff]
    split
    · rename_i hrange
      have hsub : i % bsize - lo % bsize = i - lo := by
        show i % 1024 - lo % 1024 = i - lo
        omega
      rw [hsub, hf (i - lo) (by omega), Nat.add_sub_cancel' hrange.1]
    · rfl
  refine ⟨hw, hkeep, hino, fun j y _ hj => hrefs j y hj, fun j y hj hlive hy hjy => ?_,
    fun i h1 h2 => ?_, fun i h1 h2 hi => ?_, fun hle => ?_⟩
  · -- the block of another file is another block
    apply hother
    intro heq
    have heq : s.refs sb j y = s.refs sb s.inum (.ofIndex (lo / bsize)) := heq.trans hslot.symm
    exact hj (h.owned.distinct _ _ _ _ hlive h.live_self hjy heq).1
  · have hdiv : i / bsize = lo / bsize := by
      show i / 1024 = lo / 1024
      omega
    rw [hbyte i hdiv, if_pos ⟨h1, h2⟩, hself, hdiv]
    exact ⟨hne, rfl⟩
  · by_cases hdiv : i / bsize = lo / bsize
    · rw [hbyte i hdiv, if_neg h2]
    · have hlt : i / bsize < maxfile := by
        have h1 : i < 274432 := h1
        show i / 1024 < 268
        omega
      rw [byteAt, byteAt, show s'.ip.ref s'.disk (.ofIndex (i / bsize)) = _ from hself _, hother]
      intro heq
      have heq : s.refs sb s.inum (.ofIndex (i / bsize)) =
          s.refs sb s.inum (.ofIndex (lo / bsize)) := by
        rw [hslot, refs_self]
        exact heq
      have hi' : s.refs sb s.inum (.ofIndex (i / bsize)) ≠ 0 := by
        rw [refs_self]
        exact hi
      have hslots := (h.owned.distinct _ _ _ _ h.live_self h.live_self hi' heq).2
      exact hdiv (BlockSlot.ofIndex_inj hlt hbn hslots)
  · have hfree : freeBlocks sb s'.disk = freeBlocks sb s.disk := by
      unfold freeBlocks free
      congr 1
      apply Finset.filter_congr
      intro c hc
      have hbit : diskBit sb s'.disk c = diskBit sb s.disk c :=
        hl.diskBit_update (Finset.mem_range.mp hc) (.inr hin.1)
      rw [hbit]
    have hlack : lacking s'.ref T = lacking s.ref T := by
      unfold lacking
      simp only [hself]
    rw [hfree, hlack]
    exact hle

end Wrote

/-! ## The loop of `writei` -/

section Loop

variable {sb : Superblock} {T : Finset BlockSlot} {s : FsState} {src : Nat → UInt8}
  {copyin : Nat → Nat → List UInt8 × Bool} {o n reach : Nat}

/-- **The loop writes what the source delivers.**  A round starts at the beginning of a block,
except for the first one. -/
theorem wp_writeLoop_bytes (hl : Layout sb) (hdel : Delivers copyin src reach n)
    (hmax : o + n ≤ maxfile * bsize) (hT : Spans T o (o + n)) {tot : Nat} (h : Working sb s)
    (htot : tot ≤ min n reach) (hstart : tot = 0 ∨ tot = n ∨ (o + tot) % bsize = 0) :
    wp (writeLoop sb copyin n tot (o + tot)) (fun r s' =>
      Wrote sb T (fun i => src (i - o)) (o + tot) (o + min n reach) s s' ∧
        r.1 = counted o n reach ∧ r.2 = o + r.1)
      (fun e _ => e = .outOfBlocks ∧ freeBlocks sb s.disk < lacking s.ref T) s := by
  induction hlen : n - tot using Nat.strong_induction_on generalizing tot s with
  | _ len ih =>
    subst hlen
    rw [writeLoop]
    have hmod : (o + tot) % 1024 < 1024 := Nat.mod_lt _ (by decide)
    have hmax' : o + n ≤ 274432 := hmax
    by_cases hlt : tot < n
    · rw [if_pos hlt]
      set m := min (n - tot) (bsize - (o + tot) % bsize) with hmdef
      have hm : m = min (n - tot) (1024 - (o + tot) % 1024) := rfl
      have hbn : (o + tot) / bsize < maxfile := by
        show (o + tot) / 1024 < 268
        omega
      obtain ⟨hslot, hptr⟩ := hT (o + tot) (by omega) (by omega)
      simp only [wp_bind, wp_modify]
      refine wp_mono (wp_bmap hl h hbn hslot hptr) (fun b s₁ hs₁ => ?_) fun _ _ he => he
      obtain ⟨hext, rfl, hne⟩ := hs₁
      have hbytes := hdel.bytes tot m (by omega) (by omega)
      have hok := hdel.ok tot m (by omega) (by omega)
      -- the bytes of this piece, as many as the source delivers
      set p := (copyin tot m).1 with hp
      have hplen : p.length = min m (reach - tot) := by
        rw [hbytes, List.length_map, List.length_range]
      have htake : p.take m = p := List.take_of_length_le (by omega)
      have hf : ∀ k, k < p.length → p.getD k 0 = (fun i => src (i - o)) (o + tot + k) := by
        intro k hk
        have hk' : k < min m (reach - tot) := hplen ▸ hk
        have hsub : o + tot + k - o = tot + k := by omega
        rw [hbytes]
        simp [hk', hsub]
      have hfit : (o + tot) % bsize + p.length ≤ bsize := by
        show (o + tot) % 1024 + p.length ≤ 1024
        omega
      have hpiece : Wrote sb T (fun i => src (i - o)) (o + tot) (o + tot + p.length) s₁ _ :=
        hext.working.wrote_patch hl hbn hne hfit hf
      have hdone := (hext.wrote h _ (o + tot)).trans hpiece le_rfl (Nat.le_add_right _ _)
        (by show _ ≤ 274432; omega)
      rw [htake]
      apply wp_ite <;> intro hcopy
      · have hreach := hok.mp hcopy
        have hnext : o + tot + p.length = o + (tot + m) := by omega
        rw [hnext] at hdone
        have htot' : tot + m ≤ min n reach := by omega
        have hrest := ih (n - (tot + m)) (by omega) hdone.working htot' ?_ rfl
        · rw [Nat.add_assoc]
          refine wp_mono hrest ?_ ?_
          · rintro r s' ⟨hw, hr1, hr2⟩
            refine ⟨hdone.trans hw (by omega) (by omega) ?_, hr1, hr2⟩
            exact (Nat.add_le_add_left (Nat.min_le_left n reach) o).trans hmax
          · rintro e _ ⟨rfl, hfew⟩
            refine ⟨rfl, Nat.lt_of_not_le fun henough => ?_⟩
            exact absurd (hdone.supply henough) (Nat.not_le.mpr hfew)
        · -- a piece that is not the last one ends with its block
          right
          show tot + m = n ∨ (o + (tot + m)) % 1024 = 0
          omega
      · have hreach := mt hok.mpr hcopy
        have hend : o + tot + p.length = o + min n reach := by omega
        rw [hend] at hdone
        refine ⟨hdone, ?_, rfl⟩
        unfold counted
        rw [if_neg (by omega)]
        show tot = (o + reach) / 1024 * 1024 - o
        have hstart : tot = 0 ∨ tot = n ∨ (o + tot) % 1024 = 0 := hstart
        omega
    · rw [if_neg hlt]
      have hend : o + min n reach = o + tot := by omega
      rw [hend]
      refine ⟨(Extended.refl h).wrote h _ _, ?_, rfl⟩
      show tot = counted o n reach
      unfold counted
      rw [if_pos (by omega)]
      omega

end Loop

/-! ## The bytes of a file -/

/-- The bytes of the locked file. -/
def FsState.content (s : FsState) : List UInt8 := (List.range s.ip.size.toNat).map s.byteAt

/-- The bytes of a file on the disk. -/
def diskContent (sb : Superblock) (disk : Nat → Block) (i : Nat) : List UInt8 :=
  (locked sb disk i).content

section Update

variable {sb : Superblock} {s : FsState}

theorem refs_ne {j : Nat} {y : BlockSlot} (h : j ≠ s.inum) :
    s.refs sb j y = (diskInode sb s.disk j).ref s.disk y := by
  rw [FsState.refs, blockRefs, inodes_ne h]

theorem Working.updated (hl : Layout sb) (h : Working sb s) :
    (∀ j, diskInode sb (writeInode sb s.disk s.inum s.ip) j = s.inodes sb j) ∧ (∀ j y, s.live sb j →
        diskRef sb (writeInode sb s.disk s.inum s.ip) j y = s.refs sb j y) ∧
      ∀ c, sb.nmeta ≤ c → writeInode sb s.disk s.inum s.ip c = s.disk c := by
  have hino : diskInode sb (writeInode sb s.disk s.inum s.ip) = s.inodes sb := by
    funext j
    rw [diskInode_writeInode]
    by_cases hj : j = s.inum
    · rw [if_pos hj, hj, inodes_self]
    · rw [if_neg hj, inodes_ne hj]
  refine ⟨congrFun hino, fun j y hj => ?_, fun c hc => ?_⟩
  · rw [diskRef, hino]
    exact blockRefs_writeInode hl (fun j y hj hne => (h.owned.inside j y hj hne).1) h.inum_lt j y hj
  · have hlt := hl.iblock_lt h.inum_lt
    have hmeta := hl.bmapstart_le
    exact Function.update_of_ne (by omega) ..

theorem Working.ref_updated (hl : Layout sb) (h : Working sb s) (y : BlockSlot) :
    s.ip.ref (writeInode sb s.disk s.inum s.ip) y = s.ref y := by
  obtain ⟨hino, hrefs, -⟩ := h.updated hl
  have href := hrefs s.inum y h.live_self
  rwa [refs_self, diskRef, blockRefs, hino, inodes_self] at href

theorem Layout.freeBlocks_writeInode (hl : Layout sb) {disk : Nat → Block} {i : Nat} {d : Dinode}
    (hi : i < sb.ninodes.toNat) : freeBlocks sb (writeInode sb disk i d) = freeBlocks sb disk := by
  refine congrArg Finset.card (Finset.filter_congr fun b hb => ?_)
  rw [hl.diskBit_writeInode hi (Finset.mem_range.mp hb)]

theorem Working.byteAt_updated (hl : Layout sb) (h : Working sb s) {j i : Nat} (hj : s.live sb j)
    (hne : s.refs sb j (.ofIndex (i / bsize)) ≠ 0) :
    (locked sb (writeInode sb s.disk s.inum s.ip) j).byteAt i =
      (s.disk (s.refs sb j (.ofIndex (i / bsize)))).byte (i % bsize) := by
  obtain ⟨-, hrefs, hdata⟩ := h.updated hl
  have href : (locked sb (writeInode sb s.disk s.inum s.ip) j).ip.ref
      (locked sb (writeInode sb s.disk s.inum s.ip) j).disk (.ofIndex (i / bsize)) =
      s.refs sb j (.ofIndex (i / bsize)) := hrefs j _ hj
  rw [byteAt, href]
  exact congrArg (Block.byte · _) (hdata _ (h.owned.inside j _ hj hne).1)

end Update

/-- What `writei` has done when it has counted `tot` bytes and the source could be read up to
`reach`. -/
structure Written (sb : Superblock) (src : Nat → UInt8) (off tot reach : Nat) (s s' : FsState) :
    Prop where
  sound : Sound sb s'.disk
  locked : s' = locked sb s'.disk s.inum
  type : s'.ip.type = s.ip.type
  size : s'.ip.size.toNat = max s.ip.size.toNat (off + tot)
  bytes : ∀ i, i < s'.ip.size.toNat →
    s'.byteAt i = if off ≤ i ∧ i < off + reach then src (i - off) else s.byteAt i
  inodes : ∀ j, j ≠ s.inum → j < sb.ninodes.toNat → diskInode sb s'.disk j = diskInode sb s.disk j
  other : ∀ j, j ≠ s.inum → DiskLive sb s.disk j →
    diskContent sb s'.disk j = diskContent sb s.disk j

section Writei

variable {sb : Superblock} {T : Finset BlockSlot} {disk : Nat → Block} {inum : Nat}
  {src : Nat → UInt8} {copyin : Nat → Nat → List UInt8 × Bool} {reach : Nat}

/-- The range was written, the size is set and the inode goes to the disk. -/
theorem Wrote.finish (hl : Layout sb) (hs : Sound sb disk) {s' : FsState} {off tot stop : Nat}
    {v : BitVec 32} (hoff : off ≤ (locked sb disk inum).ip.size.toNat) (htot : tot ≤ stop)
    (hmax : off + stop ≤ maxfile * bsize)
    (hc : (locked sb disk inum).ip.Covered disk (locked sb disk inum).ip.size.toNat)
    (h : Wrote sb T (fun i => src (i - off)) off (off + stop) (locked sb disk inum) s')
    (hv : v.toNat = max (locked sb disk inum).ip.size.toNat (off + tot)) :
    Written sb src off tot stop (locked sb disk inum)
      { s' with ip := { s'.ip with size := v },
                disk := writeInode sb s'.disk s'.inum { s'.ip with size := v } } := by
  set s := FsState.locked sb disk inum with hsdef
  set t : FsState := { s' with ip := { s'.ip with size := v } } with ht
  have hw : Working sb t := h.working.resize v
  have hinum : t.inum = inum := h.keeps.inum
  have hmax : off + stop ≤ 274432 := hmax
  -- the file has its blocks up to the new size
  have hcov : t.ip.Covered t.disk t.ip.size.toNat := by
    intro bn hbn
    have hbn : bn * 1024 < v.toNat := hbn
    rcases Nat.lt_or_ge (bn * 1024) s.ip.size.toNat with hold | hnew
    · exact h.keeps.covered hc bn hold
    · refine ⟨by show bn < 268; omega, ?_⟩
      have hdiv : bn * 1024 / bsize = bn := Nat.mul_div_cancel bn (by decide)
      have := (h.written (bn * 1024) (by omega) (by omega)).1
      rwa [hdiv] at this
  obtain ⟨hino, -, -⟩ := hw.updated hl
  refine ⟨hw.iupdate hl hcov, ?_, h.inodes.type, hv, fun i hi => ?_, fun j hj hlt => ?_,
    fun j hj hlive => ?_⟩
  · have hself : diskInode sb (writeInode sb t.disk t.inum t.ip) s.inum = t.ip := by
      rw [hino]
      exact h.keeps.inum ▸ inodes_self
    show { t with disk := writeInode sb t.disk t.inum t.ip } = FsState.locked sb _ s.inum
    rw [FsState.locked, hself, ← h.keeps.inum]
  · -- a byte of the file itself
    have hi : i < v.toNat := hi
    have hne : t.ref (.ofIndex (i / bsize)) ≠ 0 :=
      (hcov (i / bsize) ((Nat.div_mul_le_self i bsize).trans_lt hi)).2
    have hbyte : ({ t with disk := writeInode sb t.disk t.inum t.ip } : FsState).byteAt i =
        s'.byteAt i := by
      rw [byteAt, byteAt]
      show (writeInode sb t.disk t.inum t.ip
        (t.ip.ref (writeInode sb t.disk t.inum t.ip) _)).byte _ = _
      rw [hw.ref_updated hl, (hw.updated hl).2.2 _ (hw.ref_inside hne).1]
      rfl
    refine hbyte.trans ?_
    split
    · rename_i hrange
      exact (h.written i hrange.1 hrange.2).2
    · rename_i hrange
      have hold : i < s.ip.size.toNat := by omega
      obtain ⟨hbn, hne⟩ := hc (i / bsize) ((Nat.div_mul_le_self i bsize).trans_lt hold)
      have hbn : i / 1024 < 268 := hbn
      exact h.kept i (by show i < 274432; omega) hrange hne
  · exact (hino j).trans (h.inodes.disk j hlt ▸ inodes_ne (hinum.symm ▸ hj))
  · -- the bytes of another file
    have hjt : j ≠ t.inum := hinum.symm ▸ hj
    have hlives : s.live sb j := by
      rw [FsState.live, locked_inodes]
      exact hlive
    have hsame : SameInodes sb s t := ⟨h.inodes.inum, h.inodes.type, h.inodes.disk⟩
    have hlivet : t.live sb j := hsame.live_iff.mpr hlives
    have hinode : diskInode sb (writeInode sb t.disk t.inum t.ip) j = diskInode sb disk j := by
      rw [hino, inodes_ne hjt]
      exact h.inodes.disk j hlive.1
    have hrefs : ∀ y, t.refs sb j y = diskRef sb disk j y := by
      intro y
      calc t.refs sb j y = (diskInode sb t.disk j).ref t.disk y := refs_ne hjt
        _ = s'.refs sb j y := (refs_ne (s := s') hjt).symm
        _ = s.refs sb j y := h.others j y hj hlives
        _ = diskRef sb disk j y := refs_ne hj
    unfold diskContent content
    have hip : (FsState.locked sb (writeInode sb t.disk t.inum t.ip) j).ip =
        (FsState.locked sb disk j).ip := hinode
    rw [hip]
    apply List.map_congr_left
    intro i hi
    have hi : i < (diskInode sb disk j).size.toNat := List.mem_range.mp hi
    have hne := (hs.covered j hlive (i / bsize) ((Nat.div_mul_le_self i bsize).trans_lt hi)).2
    rw [hw.byteAt_updated hl hlivet (by rw [hrefs]; exact hne), hrefs]
    have hdata := h.data j (.ofIndex (i / bsize)) hj hlives (ofIndex_ne_pointer _)
    rw [FsState.refs, hsdef, locked_inodes] at hdata
    rw [show t.disk (diskRef sb disk j (.ofIndex (i / bsize))) = _ from hdata hne]
    rfl

theorem lt_add_iff {off n : BitVec 32} : off + n < off ↔ 2 ^ 32 ≤ off.toNat + n.toNat := by
  rw [BitVec.lt_def, BitVec.toNat_add]
  have := off.isLt
  have := n.isLt
  omega

/-- **What `writei` does**, whether or not the copy of the source gets to the end. -/
theorem wp_writei_bytes (hl : Layout sb) (hs : Sound sb disk) (hlive : DiskLive sb disk inum)
    {off n : BitVec 32} (hdel : Delivers copyin src reach n.toNat)
    (hoff : off.toNat ≤ (diskInode sb disk inum).size.toNat)
    (hmax : off.toNat + n.toNat ≤ maxfile * bsize) (hT : Spans T off.toNat (off.toNat + n.toNat)) :
    wp (writei sb copyin off n) (fun r s' => r = some (counted off.toNat n.toNat reach) ∧
      Written sb src off.toNat (counted off.toNat n.toNat reach) (min n.toNat reach)
        (locked sb disk inum) s' ∧ (lacking (diskRef sb disk inum) T ≤ freeBlocks sb disk →
          lacking s'.ref T ≤ freeBlocks sb s'.disk))
      (fun e _ => e = .outOfBlocks ∧ freeBlocks sb disk < lacking (diskRef sb disk inum) T)
      (locked sb disk inum) := by
  obtain ⟨hw, hc⟩ := hs.working hlive.1 hlive.2
  have hmax' : off.toNat + n.toNat ≤ 274432 := hmax
  have hsum : (off + n).toNat = off.toNat + n.toNat := by
    rw [BitVec.toNat_add]
    exact Nat.mod_eq_of_lt (by omega)
  have hguard : ¬((diskInode sb disk inum).size < off ∨ off + n < off) := by
    rw [not_or, lt_add_iff, BitVec.lt_def]
    omega
  have hsmall : ¬maxfile * bsize < (off + n).toNat := by omega
  unfold writei
  simp only [wp_bind, wp_get]
  rw [show (locked sb disk inum).ip = diskInode sb disk inum from rfl, if_neg hguard, if_neg hsmall]
  simp only [wp_bind, wp_modify, iupdate, wp_pure]
  have hloop := wp_writeLoop_bytes hl hdel hmax hT hw (Nat.zero_le _) (.inl rfl)
  rw [Nat.add_zero] at hloop
  refine wp_post hloop ?_
  rintro ⟨tot, off'⟩ s' ⟨hwrote, htot, hoff'⟩
  have htot : tot = counted off.toNat n.toNat reach := htot
  have hoff' : off' = off.toNat + tot := hoff'
  subst htot hoff'
  have hle := counted_le off.toNat n.toNat reach
  refine ⟨rfl, ?_⟩
  have hsize : s'.ip.size = (diskInode sb disk inum).size := hwrote.keeps.size
  set v : BitVec 32 := if s'.ip.size.toNat < off.toNat + counted off.toNat n.toNat reach then
    BitVec.ofNat 32 (off.toNat + counted off.toNat n.toNat reach) else s'.ip.size with hv
  have hvn : v.toNat = max (diskInode sb disk inum).size.toNat
      (off.toNat + counted off.toNat n.toNat reach) := by
    rw [hv, hsize]
    split
    · rw [BitVec.toNat_ofNat, Nat.mod_eq_of_lt (by omega)]
      omega
    · omega
  have hfin := hwrote.finish hl hs hoff hle (by omega) hc hvn
  have hsupply : lacking (diskRef sb disk inum) T ≤ freeBlocks sb disk →
      lacking (s'.ip.ref (writeInode sb s'.disk s'.inum { s'.ip with size := v })) T ≤
        freeBlocks sb (writeInode sb s'.disk s'.inum { s'.ip with size := v }) := by
    intro henough
    have href := funext ((hwrote.working.resize v).ref_updated hl)
    rw [hl.freeBlocks_writeInode hwrote.working.inum_lt]
    exact (congrArg (lacking · T) href).trans_le (hwrote.supply henough)
  have hand := And.intro hfin hsupply
  -- the size is assigned if it grows; otherwise it is what it was
  rw [hv] at hand
  split <;> rename_i hgrow
  · rwa [if_pos hgrow] at hand
  · rwa [if_neg hgrow] at hand

theorem wp_writei_refused {s : FsState} {off n : BitVec 32} {E : FsPanic → FsState → Prop}
    (h : s.ip.size.toNat < off.toNat ∨ 2 ^ 32 ≤ off.toNat + n.toNat ∨
      maxfile * bsize < off.toNat + n.toNat) :
    wp (writei sb copyin off n) (fun r s' => r = none ∧ s' = s) E s := by
  unfold writei
  simp only [wp_bind, wp_get]
  apply wp_ite <;> intro hguard
  · exact ⟨rfl, rfl⟩
  rw [not_or, lt_add_iff, BitVec.lt_def] at hguard
  have hsum : (off + n).toNat = off.toNat + n.toNat := by
    rw [BitVec.toNat_add]
    exact Nat.mod_eq_of_lt (by omega)
  rw [if_pos (by omega)]
  exact ⟨rfl, rfl⟩

end Writei

/-! ## Reading afterwards -/

section Readi

variable {sb : Superblock} {s : FsState} {off tot : Nat} {s' : FsState}

theorem wp_readLoop_some {copyout : Nat → Bool} (hcopy : ∀ t, copyout t = true) {n : Nat}
    {dst : List UInt8} :
    wp (readLoop sb copyout n tot off dst) (fun r _ => r ≠ none) (fun _ _ => True) s := by
  induction hlen : n - tot using Nat.strong_induction_on generalizing tot off dst s with
  | _ len ih =>
    subst hlen
    rw [readLoop]
    by_cases hlt : tot < n
    · rw [if_pos hlt]
      have hmod : off % 1024 < 1024 := Nat.mod_lt off (by decide)
      have hpos : 0 < min (n - tot) (1024 - off % 1024) := by omega
      have hpos : 0 < min (n - tot) (bsize - off % bsize) := hpos
      simp only [wp_bind, wp_get]
      refine wp_any (m := bmap sb (off / bsize)) fun b s' => ?_
      rw [if_pos (hcopy tot)]
      exact ih _ (by omega) rfl
    · rw [if_neg hlt]
      exact Option.some_ne_none dst

/-- What `readi` returns for a file with these bytes. -/
def readResult (content : List UInt8) (off n : Nat) : List UInt8 :=
  if 2 ^ 32 ≤ off + n then [] else (content.drop off).take n

/-- **`readi` returns a part of the file.** -/
theorem wp_readi_content {copyout : Nat → Bool} (hcopy : ∀ t, copyout t = true)
    (hc : s.ip.Covered s.disk s.ip.size.toNat) (off n : BitVec 32) {E : FsPanic → FsState → Prop} :
    wp (readi sb copyout off n) (fun r s' => s' = s ∧
      r = some (readResult s.content off.toNat n.toNat)) E s := by
  have hsome : wp (readi sb copyout off n) (fun r _ => r ≠ none) (fun _ _ => True) s := by
    unfold readi
    simp only [wp_bind, wp_get]
    apply wp_ite <;> intro _
    · exact Option.some_ne_none []
    · exact wp_readLoop_some hcopy
  refine wp_mono (wp_and (wp_readi hc (E := E)) hsome) ?_ fun _ _ he => he.1
  rintro r s' ⟨⟨rfl, hbytes⟩, hne⟩
  obtain ⟨d, rfl⟩ := Option.ne_none_iff_exists'.mp hne
  refine ⟨rfl, congrArg some ?_⟩
  rw [hbytes d rfl, readResult]
  split
  · rfl
  · apply List.ext_getElem
    · simp [content]
    · intro k _ _
      simp [content]

/-- A text is written over the bytes at `off`. -/
def overwrite (old : List UInt8) (off : Nat) (buf : List UInt8) : List UInt8 :=
  old.take off ++ buf ++ old.drop (off + buf.length)

theorem length_overwrite {old : List UInt8} (buf : List UInt8) (h : off ≤ old.length) :
    (overwrite old off buf).length = max old.length (off + buf.length) := by
  simp [overwrite]
  omega

theorem getElem?_overwrite {old : List UInt8} {off : Nat} (buf : List UInt8) (h : off ≤ old.length)
    (i : Nat) : (overwrite old off buf)[i]? =
      if off ≤ i ∧ i < off + buf.length then buf[i - off]? else old[i]? := by
  have hmin : min off old.length = off := Nat.min_eq_left h
  unfold overwrite
  rw [List.append_assoc, List.getElem?_append, List.length_take, hmin]
  -- before the text, in it, or after it
  rcases Nat.lt_or_ge i off with hbefore | hge
  · rw [if_pos hbefore, if_neg (by omega), List.getElem?_take_of_lt hbefore]
  · rw [if_neg (by omega), List.getElem?_append]
    rcases Nat.lt_or_ge i (off + buf.length) with hin | hafter
    · rw [if_pos (by omega), if_pos ⟨hge, hin⟩]
    · rw [if_neg (by omega), if_neg (by omega), List.getElem?_drop]
      congr 1
      omega

theorem length_content (s : FsState) : s.content.length = s.ip.size.toNat := by
  simp [content]

theorem getElem?_content {i : Nat} (h : i < s.ip.size.toNat) :
    s.content[i]? = some (s.byteAt i) := by
  simp [content, h]

theorem Written.live {s : FsState} {src : Nat → UInt8} {reach : Nat}
    (h : Written sb src off tot reach s s') (hs : s.ip.type ≠ 0)
    (hlt : s.inum < sb.ninodes.toNat) : DiskLive sb s'.disk s.inum := by
  have hip : s'.ip = diskInode sb s'.disk s.inum := congrArg FsState.ip h.locked
  refine ⟨hlt, ?_⟩
  rw [← hip, h.type]
  exact hs

theorem Written.covered {disk : Nat → Block} {inum : Nat} {s' : FsState} {src : Nat → UInt8}
    {off tot reach : Nat} (h : Written sb src off tot reach (FsState.locked sb disk inum) s')
    (hlive : DiskLive sb disk inum) : s'.ip.Covered s'.disk s'.ip.size.toNat := by
  have hip : s'.ip = diskInode sb s'.disk inum := congrArg FsState.ip h.locked
  rw [hip]
  exact h.sound.covered inum (h.live hlive.2 hlive.1)

theorem Written.content {s' : FsState} {buf : List UInt8} {off : Nat}
    (h : Written sb (fun j => buf.getD j 0) off buf.length buf.length s s')
    (hoff : off ≤ s.ip.size.toNat) : s'.content = overwrite s.content off buf := by
  have hsize := h.size
  have hold := length_content s
  rw [← hold] at hoff
  have hlen := length_overwrite buf hoff
  apply List.ext_getElem?
  intro i
  rcases Nat.lt_or_ge i s'.ip.size.toNat with hi | hi
  · rw [getElem?_content hi, h.bytes i hi, getElem?_overwrite buf hoff]
    split
    · rename_i hrange
      have hlt : i - off < buf.length := by omega
      simp [List.getD, hlt]
    · rw [getElem?_content]
      omega
  · rw [List.getElem?_eq_none, List.getElem?_eq_none]
    · rw [hlen, length_content, ← hsize]
      exact hi
    · rw [length_content]
      exact hi

end Readi

/-- **Inodes are byte arrays.**  If there are blocks enough for the slots of the range that are
empty, `writei` returns the length, the file becomes as large as needed, and `readi` then returns
the old bytes with the buffer written over them (nothing if the offset and the length do not fit
into 32 bits); the other files are the same.  A request beyond the file, beyond 32 bits or beyond
the largest file returns -1 and changes nothing. -/
theorem files_are_byte_arrays {sb : Superblock} (hl : Layout sb) {disk : Nat → Block}
    (hs : Sound sb disk) {i : Nat} (hi : DiskLive sb disk i) (off n : BitVec 32) :
    (∀ buf : List UInt8, buf.length = n.toNat → off.toNat ≤ (diskInode sb disk i).size.toNat →
      off.toNat + n.toNat ≤ maxfile * bsize →
      lacking (diskRef sb disk i) (touched off.toNat n.toNat) ≤ freeBlocks sb disk →
      wp (writei sb (fromBuffer buf) off n) (fun r s' =>
        r = some n.toNat ∧ Sound sb s'.disk ∧ s' = locked sb s'.disk i ∧
        s'.ip.size.toNat = max (diskInode sb disk i).size.toNat (off.toNat + n.toNat) ∧
        (∀ copyout off' n', (∀ t, copyout t = true) →
          wp (readi sb copyout off' n') (fun d s'' => s'' = s' ∧
            d = some (readResult (overwrite (diskContent sb disk i) off.toNat buf)
              off'.toNat n'.toNat)) (fun _ _ => False) s') ∧ ∀ j, j ≠ i → DiskLive sb disk j →
          diskInode sb s'.disk j = diskInode sb disk j ∧
            diskContent sb s'.disk j = diskContent sb disk j)
        (fun _ _ => False) (locked sb disk i)) ∧
    ∀ copyin, (diskInode sb disk i).size.toNat < off.toNat ∨ 2 ^ 32 ≤ off.toNat + n.toNat ∨
        maxfile * bsize < off.toNat + n.toNat →
      wp (writei sb copyin off n) (fun r s' => r = none ∧ s' = locked sb disk i)
        (fun _ _ => False) (locked sb disk i) := by
  refine ⟨fun buf hlen hoff hmax henough => ?_, fun copyin h => wp_writei_refused h⟩
  have hdel := delivers_fromBuffer buf
  rw [hlen] at hdel
  have hwrite := wp_writei_bytes hl hs hi hdel hoff hmax (touched_spans hmax)
  refine wp_mono hwrite ?_ fun _ _ he => absurd he.2 (Nat.not_lt.mpr henough)
  rintro r s' ⟨rfl, hw, -⟩
  have hcount : counted off.toNat n.toNat n.toNat = buf.length := hlen ▸ if_pos le_rfl
  rw [hcount, Nat.min_self, ← hlen] at hw
  refine ⟨congrArg some (hcount.trans hlen), hw.sound, hw.locked, hlen ▸ hw.size,
    fun copyout off' n' hcopy => ?_,
    fun j hj hlive => ⟨hw.inodes j hj hlive.1, hw.other j hj hlive⟩⟩
  rw [diskContent, ← hw.content hoff]
  exact wp_readi_content hcopy (hw.covered hi) off' n'

/-! ## Disks -/

/-- **A disk on which files have direct blocks only** is sound if each of these is a marked data
block of its own, and the files have all the blocks that their sizes ask for. -/
theorem Sound.of_direct {sb : Superblock} (hl : Layout sb) {disk : Nat → Block}
    (hreserved : ∀ b, b < sb.nmeta → diskBit sb disk b = true)
    (hptr : ∀ i, DiskLive sb disk i → (diskInode sb disk i).addrs (Fin.last ndirect) = 0)
    (hdata : ∀ i, DiskLive sb disk i → ∀ k : Fin ndirect, diskRef sb disk i (.direct k) ≠ 0 →
      sb.nmeta ≤ diskRef sb disk i (.direct k) ∧ diskRef sb disk i (.direct k) < sb.size.toNat ∧
        diskBit sb disk (diskRef sb disk i (.direct k)) = true)
    (hown : ∀ i, DiskLive sb disk i → ∀ k : Fin ndirect, diskRef sb disk i (.direct k) ≠ 0 →
      ∀ j, DiskLive sb disk j → ∀ k' : Fin ndirect,
        diskRef sb disk i (.direct k) = diskRef sb disk j (.direct k') → i = j ∧ k = k')
    (hmarked : ∀ b, b < sb.size.toNat → sb.nmeta ≤ b → diskBit sb disk b = true →
      ∃ i, DiskLive sb disk i ∧ ∃ k : Fin ndirect, diskRef sb disk i (.direct k) = b)
    (hcovered : FilesCovered sb disk) : Sound sb disk := by
  have hdirect : ∀ i x, DiskLive sb disk i → diskRef sb disk i x ≠ 0 → ∃ k, x = .direct k := by
    intro i x hi hne
    cases x with
    | direct k => exact ⟨k, rfl⟩
    | pointer => simp [blockRefs, Dinode.ref, hptr i hi] at hne
    | entry k => simp [blockRefs, Dinode.ref, hptr i hi] at hne
  refine ⟨⟨hreserved, fun i x hi hne => ?_, fun i j x y hi hj hne heq => ?_, fun b hlo hhi => ?_⟩,
    hcovered⟩
  · obtain ⟨k, rfl⟩ := hdirect i x hi hne
    exact ⟨(hdata i hi k hne).1, (hdata i hi k hne).2.1⟩
  · obtain ⟨k, rfl⟩ := hdirect i x hi hne
    obtain ⟨k', rfl⟩ := hdirect j y hj (heq ▸ hne)
    obtain ⟨rfl, rfl⟩ := hown i hi k hne j hj k' heq
    exact ⟨rfl, rfl⟩
  · refine ⟨fun hbit => ?_, ?_⟩
    · obtain ⟨i, hi, k, hk⟩ := hmarked b hhi hlo hbit
      exact ⟨i, _, hi, hk⟩
    · rintro ⟨i, x, hi, rfl⟩
      have hpos := hl.nmeta_pos
      obtain ⟨k, rfl⟩ := hdirect i x hi (by omega)
      exact (hdata i hi k (by omega)).2.2

theorem forall_live_small {disk : Nat → Block} {P : Nat → Prop}
    (h : ∀ i : Fin 16, (diskInode smallSb disk i).type ≠ 0 → P i) (i : Nat)
    (hi : DiskLive smallSb disk i) : P i :=
  h ⟨i, hi.1⟩ hi.2

/-- The small disk with an empty file, which is inode 1. -/
def oneFileDisk : Nat → Block :=
  writeInode smallSb (smallDisk true) 1 { Dinode.zero with type := 2 }

theorem oneFileDisk_inode : diskInode smallSb oneFileDisk 1 = { Dinode.zero with type := 2 } := by
  rw [oneFileDisk, diskInode_writeInode, if_pos rfl]

theorem oneFileDisk_live : DiskLive smallSb oneFileDisk 1 := by
  refine ⟨by decide, ?_⟩
  rw [oneFileDisk_inode]
  exact (by decide : (2 : BitVec 16) ≠ 0)

theorem smallDisk_sound {d : Dinode} (hsize : d.size = 0) (haddrs : d.addrs = fun _ => 0) :
    Sound smallSb (writeInode smallSb (smallDisk true) 1 d) := by
  have hsmall := (sound_iff smallSb_layout).mpr ⟨smallDisk_owned true, smallDisk_guarded⟩
  refine hsmall.replace smallSb_layout (by decide) (fun h => absurd h (smallDisk_not_live true 1))
    (fun x => ?_) hsize
  cases x <;> simp [Dinode.ref, haddrs]

theorem smallDisk_free (d : Dinode) :
    freeBlocks smallSb (writeInode smallSb (smallDisk true) 1 d) = 6 := by
  rw [smallSb_layout.freeBlocks_writeInode (by decide)]
  decide +kernel

theorem oneFileDisk_sound : Sound smallSb oneFileDisk := smallDisk_sound rfl rfl

theorem oneFileDisk_free : freeBlocks smallSb oneFileDisk = 6 := smallDisk_free _

theorem touched_two : (touched 0 2).card = 1 := by decide

theorem oneFileDisk_enough :
    lacking (diskRef smallSb oneFileDisk 1) (touched 0 2) ≤ freeBlocks smallSb oneFileDisk := by
  have hle : lacking (diskRef smallSb oneFileDisk 1) (touched 0 2) ≤ (touched 0 2).card :=
    Finset.card_filter_le ..
  rw [touched_two] at hle
  rw [oneFileDisk_free]
  omega

theorem oneFileDisk_content : diskContent smallSb oneFileDisk 1 = [] := by
  rw [diskContent, FsState.content, FsState.locked, oneFileDisk_inode]
  rfl

theorem files_are_byte_arrays_new :
    wp (writei smallSb (fromBuffer [65, 66]) 0 2) (fun r s' => r = some 2 ∧
      wp (readi smallSb (fun _ => true) 1 7) (fun d _ => d = some [66]) (fun _ _ => False) s')
      (fun _ _ => False) (locked smallSb oneFileDisk 1) := by
  have hwrite := (files_are_byte_arrays smallSb_layout oneFileDisk_sound oneFileDisk_live 0 2).1
    [65, 66] rfl (Nat.zero_le _) (by decide) oneFileDisk_enough
  refine wp_post hwrite ?_
  rintro r s' ⟨rfl, -, -, -, hread, -⟩
  refine ⟨rfl, wp_post (hread (fun _ => true) 1 7 fun _ => rfl) ?_⟩
  rintro d _ ⟨-, rfl⟩
  rw [oneFileDisk_content]
  rfl

/-- Two bytes are written to the new file. -/
theorem oneFileDisk_filled (x y : UInt8) : wp (writei smallSb (fromBuffer [x, y]) 0 2) (fun r s' =>
    (r = some 2 ∧ s'.content = [x, y]) ∧
      Written smallSb (fun j => [x, y].getD j 0) 0 2 2 (locked smallSb oneFileDisk 1) s')
    (fun _ _ => False) (locked smallSb oneFileDisk 1) := by
  have hzero : (0 : BitVec 32).toNat ≤ (diskInode smallSb oneFileDisk 1).size.toNat := Nat.zero_le _
  have hwrite := wp_writei_bytes smallSb_layout oneFileDisk_sound oneFileDisk_live (n := 2)
    (delivers_fromBuffer [x, y]) hzero (by decide) (touched_spans (by decide))
  refine wp_mono hwrite ?_ fun _ _ he => absurd he.2 (Nat.not_lt.mpr oneFileDisk_enough)
  rintro r s' ⟨rfl, hw, -⟩
  refine ⟨⟨rfl, ?_⟩, hw⟩
  rw [hw.content (Nat.zero_le _), ← diskContent, oneFileDisk_content]
  rfl

/-- A read from offset 1 of this file, of as many bytes as a length can say, returns nothing. -/
theorem long_read_empty :
    wp (writei smallSb (fromBuffer [65, 66]) 0 2) (fun r s' => r = some 2 ∧ s'.content = [65, 66] ∧
      wp (readi smallSb (fun _ => true) 1 0xffffffff) (fun d _ => d = some [])
        (fun _ _ => False) s') (fun _ _ => False) (locked smallSb oneFileDisk 1) := by
  refine wp_post (oneFileDisk_filled 65 66) ?_
  rintro r s' ⟨⟨rfl, hcontent⟩, hw⟩
  refine ⟨rfl, hcontent, ?_⟩
  refine wp_post (wp_readi_content (fun _ => rfl) (hw.covered oneFileDisk_live) 1 0xffffffff) ?_
  rintro d _ ⟨-, rfl⟩
  rfl

end Xv6Paging.Disk
