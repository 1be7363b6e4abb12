import Mathlib.Algebra.Order.BigOperators.Group.Finset
import Mathlib.Data.Fintype.BigOperators
import Xv6Paging.Disk.FileWrite

/-!
# Writers with one offset

Several processes write through one open file.  A write is split into chunks, and between two chunks
of one process there may be chunks of others.  The offset is read and advanced while the inode is
locked, so each chunk is written where the last one has ended, whoever wrote that.  Meanwhile the
cache may be recycled and transactions committed: everything that was written is logged, so this
does not show.
-/

namespace Xv6Paging.Disk

open StateHalt SlotMap FsState Disk.Buffered Relation
open Function (update update_of_ne update_self)

/-! ## Texts that are written one after the other -/

theorem overwrite_nil (old : List UInt8) (off : Nat) : overwrite old off [] = old := by
  simp [overwrite]

/-- **Two texts, one behind the other**, are written like one text. -/
theorem overwrite_append {old : List UInt8} {off : Nat} (a b : List UInt8) (h : off ≤ old.length) :
    overwrite (overwrite old off a) (off + a.length) b = overwrite old off (a ++ b) := by
  have hlen := length_overwrite a h
  apply List.ext_getElem?
  intro i
  rw [getElem?_overwrite b (by omega), getElem?_overwrite a h, getElem?_overwrite (a ++ b) h,
    List.length_append, List.getElem?_append]
  -- before both texts, in the first, in the second, or after them
  rcases Nat.lt_or_ge i off with hbefore | hge
  · rw [if_neg (by omega), if_neg (by omega), if_neg (by omega)]
  · rcases Nat.lt_or_ge i (off + a.length) with hfirst | hafter
    · rw [if_neg (by omega), if_pos ⟨hge, hfirst⟩, if_pos ⟨hge, by omega⟩, if_pos (by omega)]
    · rcases Nat.lt_or_ge i (off + a.length + b.length) with hsecond | hrest
      · rw [if_pos ⟨hafter, hsecond⟩, if_pos ⟨hge, by omega⟩, if_neg (by omega),
          Nat.sub_sub]
      · rw [if_neg (by omega), if_neg (by omega), if_neg (by omega)]

theorem take_drop_overwrite {old : List UInt8} {off : Nat} (a b c : List UInt8)
    (h : off ≤ old.length) :
    ((overwrite old off (a ++ b ++ c)).drop (off + a.length)).take b.length = b := by
  apply List.ext_getElem?
  intro i
  rw [List.getElem?_take]
  split
  · rw [List.getElem?_drop, getElem?_overwrite _ h, if_pos ?_]
    · rw [Nat.add_assoc, Nat.add_sub_cancel_left, List.append_assoc,
        List.getElem?_append_right (Nat.le_add_right _ _), Nat.add_sub_cancel_left,
        List.getElem?_append_left ‹_›]
    · simp only [List.length_append]
      omega
  · rw [List.getElem?_eq_none (by omega)]

/-! ## The system -/

variable {ι : Type} [DecidableEq ι]

/-- The open file, how far each writer is, and the chunks in the order in which they were written.
-/
structure SharedWrite (ι : Type) where
  file : FileCall
  progress : ι → Nat
  hist : List (ι × List UInt8)

/-- The length of the next chunk of a writer. -/
def nextLength (buf : ι → List UInt8) (s : SharedWrite ι) (p : ι) : Nat :=
  min ((buf p).length - s.progress p) maxChunk

/-- The next chunk of a writer. -/
def nextChunk (buf : ι → List UInt8) (s : SharedWrite ι) (p : ι) : List UInt8 :=
  ((buf p).drop (s.progress p)).take (nextLength buf s p)

/-- The transaction of the next chunk of a writer. -/
def nextSection (sb : Superblock) (buf : ι → List UInt8) (s : SharedWrite ι) (p : ι) : FileM Int :=
  writeSection sb (fun tot m => fromBuffer (buf p) (s.progress p + tot) m) (nextLength buf s p)

/-- A writer that is not done writes a chunk, or the cache takes a step. -/
inductive WriteStep (sb : Superblock) (buf : ι → List UInt8) : SharedWrite ι → SharedWrite ι → Prop
  | chunk (s : SharedWrite ι) (p : ι) (f : FileCall) (hlt : s.progress p < (buf p).length)
    (h : nextSection sb buf s p s.file = .ok (nextLength buf s p : Nat) f) :
    WriteStep sb buf s
      { file := f
        progress := update s.progress p (s.progress p + nextLength buf s p)
        hist := s.hist ++ [(p, nextChunk buf s p)] }
  | cache (s : SharedWrite ι) (c : Buffered) (h : Buffered.Step s.file.cache c) :
    WriteStep sb buf s { s with file := { s.file with cache := c } }

/-- The bytes that were written, in order. -/
def SharedWrite.bytes (s : SharedWrite ι) : List UInt8 := s.hist.flatMap Prod.snd

/-- Those of one writer. -/
def SharedWrite.bytesOf (s : SharedWrite ι) (p : ι) : List UInt8 :=
  (s.hist.filter fun e => e.1 = p).flatMap Prod.snd

/-- What holds in every state; `room` says that there were enough blocks for the slots of `T`. -/
structure SharedInv (sb : Superblock) (inum : Nat) (old : List UInt8) (start : Nat)
    (T : Finset BlockSlot) (room : Prop) (buf : ι → List UInt8) (s : SharedWrite ι) : Prop where
  ready : Ready sb inum s.file.cache
  clean : s.file.cache.Clean
  off : s.file.off.toNat = start + s.bytes.length
  content : s.file.cache.seen.content = overwrite old start s.bytes
  own : ∀ p, s.bytesOf p = (buf p).take (s.progress p)
  le : ∀ p, s.progress p ≤ (buf p).length
  supply : room → lacking s.file.cache.seen.ref T ≤ freeBlocks sb s.file.cache.seen.disk

/-! ## One chunk -/

section Chunk

variable {sb : Superblock} {inum : Nat} {f : FileCall} {T : Finset BlockSlot}

theorem delivers_shift (buf : List UInt8) {i n : Nat} (h : i + n ≤ buf.length) :
    Delivers (fun tot m => fromBuffer buf (i + tot) m)
      (fun j => ((buf.drop i).take n).getD j 0) n n where
  bytes tot m htot hm := by
    apply List.ext_getElem
    · simp [fromBuffer]
      omega
    · intro j hj _
      have hj : j < m := by
        have : j < min m (buf.length - (i + tot)) := by simpa [fromBuffer] using hj
        omega
      have hlt : tot + j < n := by omega
      have hlen : i + (tot + j) < buf.length := by omega
      simp [fromBuffer, hlt, hlen, Nat.add_assoc]
  ok _ _ _ hm := ⟨fun _ => hm, fun _ => rfl⟩

/-- **A transaction writes its chunk at the offset, and moves the offset behind it.** -/
theorem wp_writeSection (hl : Layout sb) (h : Ready sb inum f.cache) (hclean : f.cache.Clean)
    (buf : List UInt8) {i n1 : Nat} (hi : i + n1 ≤ buf.length)
    (hoff : f.off.toNat ≤ f.cache.seen.ip.size.toNat) (hmax : f.off.toNat + n1 ≤ maxfile * bsize)
    (hT : Spans T f.off.toNat (f.off.toNat + n1)) :
    wp (writeSection sb (fun tot m => fromBuffer buf (i + tot) m) n1) (fun r f' =>
      (r = n1 ∧ Ready sb inum f'.cache ∧ f'.cache.Clean) ∧ (f'.off.toNat = f.off.toNat + n1 ∧
        f'.cache.seen.content = overwrite f.cache.seen.content f.off.toNat ((buf.drop i).take n1)) ∧
        (lacking f.cache.seen.ref T ≤ freeBlocks sb f.cache.seen.disk →
          lacking f'.cache.seen.ref T ≤ freeBlocks sb f'.cache.seen.disk))
      (fun e _ => e = .outOfBlocks ∧
        freeBlocks sb f.cache.seen.disk < lacking f.cache.seen.ref T) f := by
  have hmax' : f.off.toNat + n1 ≤ 274432 := hmax
  have hn1 : (BitVec.ofNat 32 n1).toNat = n1 := Nat.mod_eq_of_lt (by omega)
  have hdel := delivers_shift buf hi
  rw [← hn1] at hdel
  have hready : Ready sb inum { f.cache with op := [] } := ⟨h.sound, h.live, h.locked⟩
  unfold writeSection
  simp only [wp_bind, wp_get, wp_onCache, wp_modify]
  refine wp_post (hready.wp_writei hl hdel hoff (by rw [hn1]; exact hmax) (by rwa [hn1])) ?_
  rintro r c' ⟨⟨rfl, hready', hclean'⟩, hw, hsupply⟩
  rw [hn1] at hw ⊢
  have hlen : ((buf.drop i).take n1).length = n1 := by
    rw [List.length_take, List.length_drop]
    omega
  have hw' : Written sb (fun j => ((buf.drop i).take n1).getD j 0) f.off.toNat
      ((buf.drop i).take n1).length ((buf.drop i).take n1).length f.cache.seen c'.seen := by
    rw [hlen]
    exact hw
  have hcontent := hw'.content hoff
  have hclean'' : c'.Clean := hclean' hclean
  apply wp_bind.mpr
  apply wp_onlyIf <;> intro hpos
  · refine ⟨⟨rfl, hready', hclean''⟩, ⟨?_, hcontent⟩, hsupply⟩
    show (f.off + BitVec.ofNat 32 n1).toNat = _
    rw [BitVec.toNat_add, hn1, Nat.mod_eq_of_lt (by omega)]
  · refine ⟨⟨rfl, hready', hclean''⟩, ⟨?_, hcontent⟩, hsupply⟩
    show f.off.toNat = _
    omega

end Chunk

/-! ## All chunks -/

section Run

variable {sb : Superblock} {inum start : Nat} {old : List UInt8} {buf : ι → List UInt8}
  {s s' : SharedWrite ι} {T : Finset BlockSlot} {room : Prop}

theorem Buffered.Step.seen_eq {c c' : Buffered} (h : Buffered.Step c c') (hclean : c.Clean) :
    c'.seen = c.seen ∧ c'.Clean := by
  cases h with
  | recycle b hb =>
    have hdisk : update c.seen.disk b (c.home b) = c.seen.disk := by
      rw [hclean b hb, Function.update_eq_self]
    have hseen : ({ c.seen with disk := update c.seen.disk b (c.home b) } : FsState) =
        c.seen := by rw [hdisk]
    exact ⟨hseen, fun a ha => (hclean a ha).trans (congrFun hdisk a).symm⟩
  | commit =>
    refine ⟨rfl, fun a _ => ?_⟩
    show (if a ∈ c.pinned then c.seen.disk a else c.home a) = c.seen.disk a
    split
    · rfl
    · exact hclean a ‹_›

omit [DecidableEq ι] in
theorem length_nextChunk (s : SharedWrite ι) (p : ι) :
    (nextChunk buf s p).length = nextLength buf s p := by
  unfold nextChunk nextLength
  rw [List.length_take, List.length_drop]
  omega

section Limit

variable [Fintype ι]

theorem SharedInv.length_bytes (h : SharedInv sb inum old start T room buf s) :
    s.bytes.length = ∑ p, s.progress p := by
  have hsplit : ∀ l : List (ι × List UInt8), (l.flatMap Prod.snd).length =
      ∑ p, ((l.filter fun e => e.1 = p).flatMap Prod.snd).length := by
    intro l
    induction l with
    | nil => simp
    | cons e l ih =>
      -- the bytes of the first chunk are counted for its writer
      have hcons : ∀ p, (((e :: l).filter fun e => e.1 = p).flatMap Prod.snd).length =
          (if e.1 = p then e.2.length else 0) +
            ((l.filter fun e => e.1 = p).flatMap Prod.snd).length := by
        intro p
        by_cases hp : e.1 = p <;> simp [hp]
      simp only [hcons]
      rw [Finset.sum_add_distrib, Finset.sum_ite_eq, if_pos (Finset.mem_univ _), ← ih,
        List.flatMap_cons, List.length_append]
  rw [SharedWrite.bytes, hsplit]
  apply Finset.sum_congr rfl
  intro p _
  have hown := congrArg List.length (h.own p)
  have hle := h.le p
  rw [SharedWrite.bytesOf, List.length_take] at hown
  omega

theorem SharedInv.wp_next (hl : Layout sb) (hstart : start ≤ old.length)
    (hlimit : start + ∑ p, (buf p).length ≤ maxfile * bsize)
    (hT : Spans T start (start + ∑ p, (buf p).length))
    (h : SharedInv sb inum old start T room buf s) (p : ι) :
    wp (nextSection sb buf s p) (fun r f' =>
      (r = nextLength buf s p ∧ Ready sb inum f'.cache ∧ f'.cache.Clean) ∧
        (f'.off.toNat = s.file.off.toNat + nextLength buf s p ∧ f'.cache.seen.content =
          overwrite s.file.cache.seen.content s.file.off.toNat (nextChunk buf s p)) ∧
        (room → lacking f'.cache.seen.ref T ≤ freeBlocks sb f'.cache.seen.disk))
      (fun e _ => e = .outOfBlocks ∧ ¬room) s.file := by
  have hle := h.le p
  have hnext : s.progress p + nextLength buf s p ≤ (buf p).length := by
    unfold nextLength
    omega
  have hoff := h.off
  have hsize : s.file.cache.seen.ip.size.toNat = (overwrite old start s.bytes).length := by
    rw [← length_content, h.content]
  rw [length_overwrite _ hstart] at hsize
  have hroom : s.bytes.length + nextLength buf s p ≤ ∑ p, (buf p).length := by
    rw [h.length_bytes, ← Finset.add_sum_erase _ _ (Finset.mem_univ p),
      ← Finset.add_sum_erase _ (fun p => (buf p).length) (Finset.mem_univ p)]
    have hrest : ∑ q ∈ Finset.univ.erase p, s.progress q ≤
        ∑ q ∈ Finset.univ.erase p, (buf q).length := Finset.sum_le_sum fun q _ => h.le q
    omega
  have hspans : Spans T s.file.off.toNat (s.file.off.toNat + nextLength buf s p) :=
    fun j hlo hhi => hT j (by omega) (by omega)
  refine wp_mono (wp_writeSection hl h.ready h.clean (buf p) hnext (by omega) (by omega) hspans)
    ?_ ?_
  · rintro r f' ⟨hr, hwritten, hsupply⟩
    exact ⟨hr, hwritten, fun hroom => hsupply (h.supply hroom)⟩
  · rintro e _ ⟨he, hfew⟩
    exact ⟨he, fun hroom => Nat.not_le.mpr hfew (h.supply hroom)⟩

/-- **A step keeps the invariant.** -/
theorem SharedInv.step (hl : Layout sb) (hstart : start ≤ old.length)
    (hlimit : start + ∑ p, (buf p).length ≤ maxfile * bsize)
    (hT : Spans T start (start + ∑ p, (buf p).length))
    (h : SharedInv sb inum old start T room buf s) (hstep : WriteStep sb buf s s') :
    SharedInv sb inum old start T room buf s' := by
  cases hstep with
  | chunk p f hlt hok =>
    obtain ⟨⟨-, hready, hclean⟩, ⟨hoff, hcontent⟩, hsupply⟩ :=
      wp_returns (h.wp_next hl hstart hlimit hT p) hok
    have hlen : (nextChunk buf s p).length = nextLength buf s p := length_nextChunk s p
    have hbytes : ∀ l : List (ι × List UInt8), (l ++ [(p, nextChunk buf s p)]).flatMap Prod.snd =
        l.flatMap Prod.snd ++ nextChunk buf s p := by
      intro l
      rw [List.flatMap_append, List.flatMap_singleton]
    refine ⟨hready, hclean, ?_, ?_, fun q => ?_, fun q => ?_, hsupply⟩
    · show f.off.toNat = start + ((s.hist ++ _).flatMap Prod.snd).length
      rw [hbytes, List.length_append, hoff, h.off, hlen]
      exact Nat.add_assoc ..
    · show f.cache.seen.content = overwrite old start ((s.hist ++ _).flatMap Prod.snd)
      rw [hbytes, hcontent, h.content, h.off]
      exact overwrite_append _ _ hstart
    · show ((s.hist ++ _).filter _).flatMap Prod.snd = (buf q).take
        (update s.progress p (s.progress p + nextLength buf s p) q)
      have hown := h.own q
      by_cases hq : q = p
      · -- the chunk continues the bytes of its writer
        subst hq
        rw [update_self, List.filter_append, List.filter_singleton, decide_eq_true rfl,
          cond_true, hbytes]
        rw [SharedWrite.bytesOf] at hown
        rw [hown, nextChunk, ← List.take_add]
      · rw [update_of_ne hq, ← hown, List.filter_append,
          List.filter_singleton, decide_eq_false (fun h => hq h.symm)]
        rw [SharedWrite.bytesOf]
        simp
    · have hle := h.le q
      show update s.progress p (s.progress p + nextLength buf s p) q ≤ _
      by_cases hq : q = p
      · subst hq
        rw [update_self, nextLength]
        omega
      · rw [update_of_ne hq]
        exact hle
  | cache c hc =>
    obtain ⟨hseen, hclean⟩ := hc.seen_eq h.clean
    refine ⟨⟨?_, ?_, ?_⟩, hclean, h.off, ?_, h.own, h.le, ?_⟩
    · exact hseen.symm ▸ h.ready.sound
    · exact hseen.symm ▸ h.ready.live
    · exact hseen.symm ▸ h.ready.locked
    · exact hseen.symm ▸ h.content
    · exact hseen.symm ▸ h.supply

/-- **Shared offsets lose no writes.**  Whatever the order of the chunks, the file is the old one
with all chunks written one behind the other from the first offset, the offset is behind the last
one, each chunk is found where it was written, and the chunks of one writer make up what it has
written so far.  No chunk fails, unless there were too few blocks for all bytes at the beginning. -/
theorem shared_offset_keeps_writes (hl : Layout sb) {f : FileCall} (hready : Ready sb inum f.cache)
    (hclean : f.cache.Clean) (hoff : f.off.toNat ≤ f.cache.seen.content.length)
    (hlimit : f.off.toNat + ∑ p, (buf p).length ≤ maxfile * bsize)
    (hrun : ReflTransGen (WriteStep sb buf) { file := f, progress := fun _ => 0, hist := [] } s) :
    s.file.off.toNat = f.off.toNat + s.bytes.length ∧
    s.file.cache.seen.content = overwrite f.cache.seen.content f.off.toNat s.bytes ∧
    (∀ l p chunk l', s.hist = l ++ (p, chunk) :: l' →
      (s.file.cache.seen.content.drop (f.off.toNat + (l.flatMap Prod.snd).length)).take
        chunk.length = chunk) ∧
    (∀ p, s.bytesOf p = (buf p).take (s.progress p)) ∧
    ∀ p, wp (nextSection sb buf s p) (fun r _ => r = nextLength buf s p)
      (fun e _ => e = .outOfBlocks ∧ freeBlocks sb f.cache.seen.disk <
        lacking f.cache.seen.ref (touched f.off.toNat (∑ p, (buf p).length))) s.file := by
  have hT := touched_spans hlimit
  have hinv : SharedInv sb inum f.cache.seen.content f.off.toNat
      (touched f.off.toNat (∑ p, (buf p).length))
      (lacking f.cache.seen.ref (touched f.off.toNat (∑ p, (buf p).length)) ≤
        freeBlocks sb f.cache.seen.disk) buf s := by
    induction hrun with
    | refl =>
      refine ⟨hready, hclean, rfl, (overwrite_nil _ _).symm, fun p => ?_, fun p => Nat.zero_le _,
        fun hroom => hroom⟩
      exact List.take_zero.symm
    | tail _ hstep ih => exact ih.step hl hoff hlimit hT hstep
  refine ⟨hinv.off, hinv.content, fun l p chunk l' hsplit => ?_, hinv.own, fun p => ?_⟩
  · have hbytes : s.bytes = l.flatMap Prod.snd ++ chunk ++ l'.flatMap Prod.snd := by
      rw [SharedWrite.bytes, hsplit, List.flatMap_append, List.flatMap_cons, List.append_assoc]
    rw [hinv.content, hbytes]
    exact take_drop_overwrite _ _ _ hoff
  · exact wp_mono (hinv.wp_next hl hoff hlimit hT p) (fun r _ hr => hr.1.1)
      fun e _ he => ⟨he.1, Nat.lt_of_not_le he.2⟩

end Limit

end Run

/-- A text of one chunk. -/
def chunkText : List UInt8 := List.replicate maxChunk 65

theorem length_chunkText : chunkText.length = maxChunk := List.length_replicate

/-- One writer has a byte more than a chunk, the other one a byte. -/
def twoBufs : Fin 2 → List UInt8
  | 0 => chunkText ++ [65]
  | 1 => [66]

/-- They have an empty file, and no chunk has been written. -/
def twoWriters : SharedWrite (Fin 2) where
  file := { cache := quietCache oneFileDisk 1, off := 0 }
  progress _ := 0
  hist := []

/-- The byte of the second writer comes between the chunks of the first one. -/
theorem shared_offset_interleaved : ∃ s,
    ReflTransGen (WriteStep smallSb twoBufs) twoWriters s ∧
    s.hist = [(0, chunkText), (1, [66]), (0, [65])] ∧ s.file.off.toNat = 3074 ∧
    s.file.cache.seen.content = chunkText ++ [66, 65] := by
  have hready : Ready smallSb 1 twoWriters.file.cache := ⟨oneFileDisk_sound, oneFileDisk_live, rfl⟩
  have htotal : ∑ p, (twoBufs p).length = 3074 := by
    rw [Fintype.sum_eq_add 0 1 (by decide) (by decide)]
    rw [show twoBufs 0 = chunkText ++ [65] from rfl, show twoBufs 1 = [66] from rfl,
      List.length_append, length_chunkText]
    rfl
  have henough : lacking twoWriters.file.cache.seen.ref (touched 0 3074) ≤
      freeBlocks smallSb oneFileDisk := by
    have hle : lacking twoWriters.file.cache.seen.ref (touched 0 3074) ≤ (touched 0 3074).card :=
      Finset.card_filter_le ..
    have hcard : (touched 0 3074).card = 4 := by decide +kernel
    rw [oneFileDisk_free]
    omega
  have hall := fun s => shared_offset_keeps_writes (s := s) smallSb_layout hready (fun _ _ => rfl)
    (Nat.zero_le _) (by rw [htotal]; decide)
  -- in every reachable state the next chunk of a writer can be written
  have hnext : ∀ s, ReflTransGen (WriteStep smallSb twoBufs) twoWriters s → ∀ (p : Fin 2) k chunk,
      s.progress p = k → k < (twoBufs p).length →
      ((twoBufs p).drop k).take (min ((twoBufs p).length - k) maxChunk) = chunk → ∃ f,
        ReflTransGen (WriteStep smallSb twoBufs) twoWriters
          { file := f
            progress := update s.progress p (k + chunk.length)
            hist := s.hist ++ [(p, chunk)] } := by
    rintro s hrun p k chunk rfl hp rfl
    have hsection := (hall s hrun).2.2.2.2 p
    rw [htotal] at hsection
    obtain ⟨_, f, hok, rfl⟩ := wp_total (wp_mono hsection (fun _ _ h => h)
      fun _ _ he => absurd henough (Nat.not_le.mpr he.2))
    have hstep := WriteStep.chunk s p f hp hok
    rw [← length_nextChunk] at hstep
    exact ⟨f, hrun.tail hstep⟩
  have hfirst : twoBufs 0 = chunkText ++ [65] := rfl
  have hlen : (chunkText ++ [65]).length = maxChunk + 1 := by
    rw [List.length_append, length_chunkText]
    rfl
  obtain ⟨f₁, hrun₁⟩ := hnext twoWriters .refl 0 0 chunkText rfl (by rw [hfirst, hlen]; omega) (by
    rw [hfirst, hlen, List.drop_zero, Nat.sub_zero, Nat.min_eq_right (Nat.le_succ _)]
    exact List.take_left' length_chunkText)
  obtain ⟨f₂, hrun₂⟩ := hnext _ hrun₁ 1 0 [66] (by
      dsimp only
      rw [update_of_ne (by decide)]
      rfl) Nat.one_pos rfl
  obtain ⟨f₃, hrun₃⟩ := hnext _ hrun₂ 0 maxChunk [65] (by
      dsimp only
      rw [update_of_ne (by decide), update_self, length_chunkText, Nat.zero_add])
    (by rw [hfirst, hlen]; omega) (by
      rw [hfirst, hlen, List.drop_left' length_chunkText, Nat.add_sub_cancel_left]
      rfl)
  obtain ⟨hoff, hcontent, -⟩ := hall _ hrun₃
  have hbytes : ∀ s : SharedWrite (Fin 2), s.hist = [(0, chunkText), (1, [66]), (0, [65])] →
      s.bytes = chunkText ++ [66, 65] := by
    intro s hs
    rw [SharedWrite.bytes, hs]
    simp
  refine ⟨_, hrun₃, rfl, hoff.trans ?_, hcontent.trans ?_⟩
  · rw [hbytes _ rfl, List.length_append, length_chunkText]
    rfl
  · have hold : twoWriters.file.cache.seen.content = [] := oneFileDisk_content
    rw [hbytes _ rfl, hold]
    simp [overwrite]

end Xv6Paging.Disk
