import Mathlib.Order.Interval.Finset.Nat
import Xv6Paging.Disk.FailedWrite
import Xv6Paging.Log.Group

/-!
# Writing a file in transactions

`filewrite` and `kfilewrite` split a write into chunks of three blocks, one transaction for each, so
that a transaction does not log more blocks than `begin_op` has reserved.  Between two chunks the
inode is not locked, and other processes may change the file, its offset and the rest of the disk;
the chunk is written at the offset that is found then.

A chunk of three blocks touches four if it is not aligned.  With the indirect block, the free map
and the inode these are seven blocks: a block that is allocated is zeroed and written, but this is
one block in the log.
-/

namespace Xv6Paging.Disk

open StateHalt SlotMap FsState Disk.Buffered

/-- `((MAXOPBLOCKS-1-1-2) / 2) * BSIZE`. -/
abbrev maxChunk : Nat := (maxOpBlocks - 1 - 1 - 2) / 2 * bsize

/-- The file system and the open file that is written. -/
structure FileCall where
  cache : Buffered
  /-- `f->off`. -/
  off : BitVec 32

/-- A function of `file.c`. -/
abbrev FileM := EStateM FsPanic FileCall

/-- A function of `fs.c` is called. -/
def onCache {α : Type} (m : BufM α) : FileM α :=
  onPart FileCall.cache (fun c f => { f with cache := c }) m

/-- A transaction of a write: `n1` bytes from `copyin`, at the offset of the file. -/
def writeSection (sb : Superblock) (copyin : Nat → Nat → List UInt8 × Bool) (n1 : Nat) :
    FileM Int := do
  -- `begin_op`: nothing has been logged for this transaction
  onCache (modify fun c => { c with op := [] })
  match ← onCache (Buffered.writei sb copyin (← get).off (BitVec.ofNat 32 n1)) with
  | none => pure (-1)
  | some r =>
    onlyIf (0 < r) (modify fun f => { f with off := f.off + BitVec.ofNat 32 r })
    pure r

/-- A finished transaction: where its chunk begins in the write, how long it is, and the blocks that
were passed to `log_write`. -/
structure Transaction where
  start : Nat
  length : Nat
  logged : List Nat

/-- The loop of `filewrite` and `kfilewrite`; `others i` is what other processes do before the chunk
at `i` is written.  The result is `i` at the end, and the transactions. -/
def filewriteLoop (sb : Superblock) (others : Nat → FileCall → FileCall)
    (src : Nat → Nat → List UInt8 × Bool) (n i : Nat) : FileM (Nat × List Transaction) := do
  if i < n then
    modify (others i)
    let r ← writeSection sb (fun tot m => src (i + tot) m) (min (n - i) maxChunk)
    let t : Transaction := ⟨i, min (n - i) maxChunk, (← get).cache.op⟩
    if r = (min (n - i) maxChunk : Nat) then
      let (i', ts) ← filewriteLoop sb others src n (i + min (n - i) maxChunk)
      pure (i', t :: ts)
    else pure (i, [t])
  else pure (i, [])
termination_by n - i
decreasing_by
  have : 0 < min (n - i) 3072 := by omega
  have : 0 < min (n - i) maxChunk := this
  omega

/-- The `FD_INODE` branch of `filewrite` and `kfilewrite`, for a file that is writable or not. -/
def fileWriteInode (sb : Superblock) (others : Nat → FileCall → FileCall)
    (src : Nat → Nat → List UInt8 × Bool) (writable : Bool) (n : Int) :
    FileM (Int × List Transaction) := do
  if writable then
    let (i, ts) ← filewriteLoop sb others src n.toNat 0
    pure (if (i : Int) = n then n else -1, ts)
  else pure (-1, [])

/-- `filewrite` of an inode: the source is user memory. -/
def filewrite (sb : Superblock) (others : Nat → FileCall → FileCall) (k : Kernel)
    (pagetable addr : Nat) (writable : Bool) (n : Int) : FileM (Int × List Transaction) :=
  fileWriteInode sb others (userSource k pagetable addr) writable n

/-- `kfilewrite` of an inode: the source is memory of the kernel. -/
def kfilewrite (sb : Superblock) (others : Nat → FileCall → FileCall) (buf : List UInt8)
    (writable : Bool) (n : Int) : FileM (Int × List Transaction) :=
  fileWriteInode sb others (fromBuffer buf) writable n

/-- The file system is consistent, and the inode of the file is locked. -/
structure Ready (sb : Superblock) (inum : Nat) (c : Buffered) : Prop where
  sound : Sound sb c.seen.disk
  live : DiskLive sb c.seen.disk inum
  locked : c.seen = locked sb c.seen.disk inum

/-- Chunks that follow one another from `a` to `b`. -/
def Consecutive : Nat → List Transaction → Nat → Prop
  | a, [], b => a = b
  | a, t :: ts, b => t.start = a ∧ 0 < t.length ∧ t.length ≤ maxChunk ∧
    Consecutive (a + t.length) ts b

/-- **`writei` whose copies succeed**: the bytes are written and logged. -/
theorem Ready.wp_writei {sb : Superblock} (hl : Layout sb) {inum : Nat} {c : Buffered}
    (h : Ready sb inum c) {copyin : Nat → Nat → List UInt8 × Bool} {src : Nat → UInt8}
    {off n : BitVec 32} {T : Finset BlockSlot} (hdel : Delivers copyin src n.toNat n.toNat)
    (hoff : off.toNat ≤ c.seen.ip.size.toNat) (hmax : off.toNat + n.toNat ≤ maxfile * bsize)
    (hT : Spans T off.toNat (off.toNat + n.toNat)) :
    wp (Buffered.writei sb copyin off n) (fun r c' => (r = some n.toNat ∧ Ready sb inum c' ∧
      (c.Clean → c'.Clean)) ∧ Written sb src off.toNat n.toNat n.toNat c.seen c'.seen ∧
        (lacking c.seen.ref T ≤ freeBlocks sb c.seen.disk →
          lacking c'.seen.ref T ≤ freeBlocks sb c'.seen.disk))
      (fun e _ => e = .outOfBlocks ∧ freeBlocks sb c.seen.disk < lacking c.seen.ref T) c := by
  have hip : c.seen.ip = diskInode sb c.seen.disk inum := congrArg FsState.ip h.locked
  have hinum : c.seen.inum = inum := congrArg FsState.inum h.locked
  have hwrite := wp_writei_bytes hl h.sound h.live hdel (hip ▸ hoff) hmax hT
  rw [← h.locked, diskRef_locked h.locked] at hwrite
  have hboth := wp_and ((lifts_writei sb copyin off n).wp_iff.mpr hwrite)
    (Buffered.wp_writei hl h.sound h.live h.locked copyin off n)
  refine wp_mono hboth ?_ fun _ _ he => he.1
  rintro r c' ⟨⟨rfl, hw, hsupply⟩, -, hlog⟩
  have hcount : counted off.toNat n.toNat n.toNat = n.toNat := if_pos le_rfl
  rw [hcount, Nat.min_self] at hw
  have hlive := hw.live (hip ▸ h.live.2) (hinum ▸ h.live.1)
  have hlocked := hw.locked
  rw [hinum] at hlive hlocked
  refine ⟨⟨congrArg some hcount, ⟨hw.sound, hlive, hlocked⟩, fun hclean b hb => ?_⟩, hw, hsupply⟩
  -- no copy has failed, so all that was changed is logged
  obtain ⟨-, hnoted⟩ := hlog _ (congrArg some hcount)
  rw [hnoted.home, hnoted.disk b hb fun hX => absurd hX.1 (Nat.lt_irrefl _)]
  exact hclean b fun hp => hb (hnoted.pinned b hp)

/-! ## Counting the blocks -/

section Count

variable {off n : Nat}

/-- A chunk touches four blocks of the file and the indirect block. -/
theorem card_touched (hn : n ≤ maxChunk) : (touched off n).card ≤ 5 := by
  have hn : n ≤ 3072 := hn
  have hblocks : ((Finset.range maxfile).filter fun bn =>
      0 < n ∧ off / bsize ≤ bn ∧ bn * bsize < off + n) ⊆
      Finset.Ico (off / bsize) (off / bsize + 4) := by
    intro bn hbn
    obtain ⟨-, -, h1, h2⟩ := Finset.mem_filter.mp hbn
    have h1 : off / 1024 ≤ bn := h1
    have h2 : bn * 1024 < off + n := h2
    refine Finset.mem_Ico.mpr ⟨h1, ?_⟩
    show bn < off / 1024 + 4
    omega
  have hslots := (Finset.card_image_le (f := BlockSlot.ofIndex)).trans (Finset.card_le_card hblocks)
  rw [Nat.card_Ico, Nat.add_sub_cancel_left] at hslots
  have hptr : (if 0 < n ∧ ndirect * bsize < off + n then {.pointer} else ∅ :
      Finset BlockSlot).card ≤ 1 := by
    split <;> simp
  exact (Finset.card_union_le _ _).trans (Nat.add_le_add hslots hptr)

/-- With one block for the free map, at most seven blocks are logged. -/
theorem card_logged {sb : Superblock} (hone : sb.size.toNat ≤ bpb) {inum : Nat} {s : FsState}
    {op : List Nat} (hn : n ≤ maxChunk)
    (hop : ∀ b ∈ op, Passes sb (touched off n) s b ∨ b = iblock sb inum) :
    op.toFinset.card ≤ 7 := by
  have hone : sb.size.toNat ≤ 8192 := hone
  have hsub : op.toFinset ⊆ {bblock sb 0, iblock sb inum} ∪ (touched off n).image s.ref := by
    intro b hb
    rcases hop b (List.mem_toFinset.mp hb) with (⟨k, hk, rfl⟩ | ⟨x, hx, rfl, -⟩) | rfl
    · -- all blocks have their bit in the first block of the free map
      have hblock : bblock sb k = bblock sb 0 := by
        show k / 8192 + _ = 0 / 8192 + _
        omega
      simp [hblock]
    · exact Finset.mem_union_right _ (Finset.mem_image_of_mem _ hx)
    · simp
  have htwo : ({bblock sb 0, iblock sb inum} : Finset Nat).card ≤ 2 := Finset.card_le_two
  have himage : ((touched off n).image s.ref).card ≤ 5 :=
    Finset.card_image_le.trans (card_touched hn)
  have hunion := Finset.card_union_le {bblock sb 0, iblock sb inum} ((touched off n).image s.ref)
  have hle := Finset.card_le_card hsub
  omega

end Count

/-! ## Transactions -/

section Section

variable {sb : Superblock} {inum n1 : Nat} {f : FileCall}
  {copyin : Nat → Nat → List UInt8 × Bool}

theorem wp_onCache {α : Type} {m : BufM α} {Q : α → FileCall → Prop}
    {E : FsPanic → FileCall → Prop} :
    wp (onCache m) Q E f ↔ wp m (fun a c => Q a { f with cache := c })
      (fun e c => E e { f with cache := c }) f.cache :=
  wp_onPart

/-- **A transaction of a write fits into its reservation**, and leaves a consistent file system. -/
theorem wp_writeSection_logs (hl : Layout sb) (hone : sb.size.toNat ≤ bpb)
    (h : Ready sb inum f.cache) (hn : n1 ≤ maxChunk) :
    wp (writeSection sb copyin n1)
      (fun _ f' => Ready sb inum f'.cache ∧ f'.cache.op.toFinset.card ≤ 7)
      (fun e _ => e = .outOfBlocks) f := by
  unfold writeSection
  simp only [wp_bind, wp_get, wp_onCache, wp_modify]
  set c : Buffered := { f.cache with op := [] } with hc
  have hwrite : wp (Disk.writei sb copyin f.off (BitVec.ofNat 32 n1)) _ _ _ :=
    Disk.wp_writei hl h.sound h.live f.off (BitVec.ofNat 32 n1)
  rw [← h.locked] at hwrite
  have hkept := (lifts_writei sb copyin f.off (BitVec.ofNat 32 n1)).wp_iff (t := c) |>.mpr hwrite
  have hlog := Buffered.wp_writei (c := c) hl h.sound h.live h.locked copyin f.off
    (BitVec.ofNat 32 n1)
  refine wp_mono (wp_and hkept hlog) ?_ fun _ _ he => he.1
  rintro r c' ⟨⟨hsound, hlive, hlocked⟩, hnone, hsome⟩
  have hready : Ready sb inum c' := ⟨hsound, hlive, hlocked⟩
  have hn1 : (BitVec.ofNat 32 n1).toNat = n1 := by
    have hn : n1 ≤ 3072 := hn
    exact Nat.mod_eq_of_lt (by omega)
  cases r with
  | none =>
    refine ⟨hready, ?_⟩
    rw [hnone rfl]
    exact Nat.zero_le _
  | some tot =>
    obtain ⟨-, hnoted⟩ := hsome tot rfl
    rw [hn1] at hnoted
    have hcard := card_logged hone hn fun b hb =>
      (hnoted.op b hb).resolve_left List.not_mem_nil
    apply wp_bind.mpr
    apply wp_onlyIf <;> intro _ <;> exact ⟨hready, hcard⟩

end Section

/-- The loop: all transactions fit, and the chunks follow one another. -/
theorem wp_filewriteLoop {sb : Superblock} (hl : Layout sb) (hone : sb.size.toNat ≤ bpb)
    {inum : Nat} {others : Nat → FileCall → FileCall}
    (hothers : ∀ i f, Ready sb inum f.cache → Ready sb inum (others i f).cache)
    {src : Nat → Nat → List UInt8 × Bool} {n i : Nat} {f : FileCall} (hi : i ≤ n)
    (h : Ready sb inum f.cache) :
    wp (filewriteLoop sb others src n i) (fun r _ => (∀ t ∈ r.2, t.logged.toFinset.card ≤ 7) ∧
        (r.1 = n → Consecutive i r.2 n) ∧ ∃ b, b ≤ n ∧ Consecutive i r.2 b)
      (fun e _ => e = .outOfBlocks) f := by
  induction hlen : n - i using Nat.strong_induction_on generalizing i f with
  | _ len ih =>
    subst hlen
    rw [filewriteLoop]
    apply wp_ite <;> intro hlt
    swap
    · have heq : i = n := by omega
      exact ⟨fun _ h => absurd h List.not_mem_nil, fun _ => heq, n, le_rfl, heq⟩
    have hpos : 0 < min (n - i) 3072 := by omega
    have hpos : 0 < min (n - i) maxChunk := hpos
    have hmax := Nat.min_le_right (n - i) maxChunk
    simp only [wp_bind, wp_modify]
    refine wp_post (wp_writeSection_logs hl hone (hothers i f h) hmax) ?_
    rintro r f₁ ⟨hready, hcard⟩
    simp only [wp_get]
    apply wp_ite <;> intro hr
    · simp only [wp_bind, wp_pure]
      refine wp_post (ih (n - (i + min (n - i) maxChunk)) (by omega) (by omega) hready rfl) ?_
      rintro ⟨i', ts⟩ f' ⟨hts, hall, b, hb, hcons⟩
      refine ⟨fun t ht => ?_, fun hn => ⟨rfl, hpos, hmax, hall hn⟩, b, hb, rfl, hpos, hmax, hcons⟩
      rcases List.mem_cons.mp ht with rfl | ht
      · exact hcard
      · exact hts t ht
    · refine ⟨fun t ht => ?_, fun hn => absurd hn (Nat.ne_of_lt hlt), i + min (n - i) maxChunk,
        by omega, rfl, hpos, hmax, rfl⟩
      rw [List.mem_singleton.mp ht]
      exact hcard

end Xv6Paging.Disk
