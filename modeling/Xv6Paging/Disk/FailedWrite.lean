import Xv6Paging.Disk.Buffered
import Xv6Paging.Vm.UserCopy

/-!
# Writes that fail part way

`writei` copies from user memory straight into a buffer.  If the source runs into a bad page, the
copy stops there: the bytes before are in the buffer, the block is released without `log_write`, and
the piece is not counted.  A reader then sees bytes that the write did not report, until the buffer
is recycled; and if the block happens to be in the log already, they even go to the disk.
-/

namespace Xv6Paging.Disk

open StateHalt SlotMap FsState Disk.Buffered

/-! ## User memory as a source -/

/-- `either_copyin` of a piece, from the user address `src`. -/
def userSource (k : Kernel) (pagetable src tot m : Nat) : List UInt8 × Bool :=
  match copyin pagetable (src + tot) m k with
  | .ok ret _ => (ret.2, ret.1 ≠ -1)
  | .error _ _ => ([], false)

theorem delivers_userSource {k : Kernel} {r a n reach : Nat} (hf : UserFrames (k.ptables r))
    (hbad : FirstBad (k.ptables r) a n reach) :
    Delivers (userSource k r a) (fun j => k.userByte r (a + j)) reach n := by
  have hpiece : ∀ tot m, tot ≤ reach → tot + m ≤ n → userSource k r a tot m =
      ((List.range' (a + tot) (min m (reach - tot))).map (k.userByte r),
        decide ((if min m (reach - tot) = m then 0 else -1 : Int) ≠ -1)) := by
    intro tot m htot hm
    have hupto : UpTo (k.ptables r) (a + tot) m (min m (reach - tot)) := by
      refine ⟨Nat.min_le_left _ _, fun x h1 h2 => ?_, fun hlt => ?_⟩
      · exact hf.userPa_ne_zero.mpr (hbad.good x (by omega) (by omega))
      · have hbadpage := hbad.bad (by omega)
        rw [show a + tot + min m (reach - tot) = a + reach by omega]
        exact PageTable.userPa_of_not_userPage hbadpage
    have hrun : wp (copyin r (a + tot) m) (fun ret s' =>
        ret = (if min m (reach - tot) = m then 0 else -1,
          (List.range' (a + tot) (min m (reach - tot))).map (k.userByte r)) ∧ s' = k)
        (fun _ _ => False) k := (wp_copyin_upto hf.partial hupto).mpr ⟨rfl, rfl⟩
    obtain ⟨ret, s', hok, rfl, rfl⟩ := wp_total hrun
    rw [userSource, hok]
  constructor
  · intro tot m htot hm
    rw [hpiece tot m htot hm]
    apply List.ext_getElem
    · simp
    · intro j _ _
      simp [Nat.add_assoc]
  · intro tot m htot hm
    rw [hpiece tot m htot hm]
    by_cases hall : min m (reach - tot) = m
    · rw [if_pos hall]
      refine ⟨fun _ => by omega, fun _ => rfl⟩
    · rw [if_neg hall]
      have hfail : decide ((-1 : Int) ≠ -1) = false := by decide
      refine ⟨fun h => absurd h (by rw [hfail]; exact Bool.false_ne_true), fun h => absurd ?_ hall⟩
      omega

/-! ## What a reader sees later -/

/-- The bytes outside the range are what they were, whatever the cache does. -/
def Unchanged (sb : Superblock) (inum lo hi : Nat) (c c' : Buffered) : Prop :=
  ∀ c'', Later c' c'' → ∀ i, ¬(lo ≤ i ∧ i < hi) →
    (diskContent sb c''.seen.disk inum)[i]? = (diskContent sb c.seen.disk inum)[i]?

/-- The bytes of the file do not depend on what the cache does. -/
def Independent (sb : Superblock) (inum : Nat) (c' : Buffered) : Prop :=
  ∀ c₁ c₂, Later c' c₁ → Later c' c₂ →
    diskContent sb c₁.seen.disk inum = diskContent sb c₂.seen.disk inum

/-- What is known of a failed write, for what comes later. -/
structure Failed (sb : Superblock) (src : Nat → UInt8) (inum off tot reach : Nat)
    (c c' : Buffered) : Prop where
  clean : c.Clean
  live : DiskLive sb c.seen.disk inum
  start : c.seen = locked sb c.seen.disk inum
  covered : c.seen.ip.Covered c.seen.disk c.seen.ip.size.toNat
  written : Written sb src off tot reach c.seen c'.seen
  refs : ∀ y, c.seen.ref y ≠ 0 → c'.seen.ref y = c.seen.ref y
  bound : off + tot < maxfile * bsize
  block : c'.seen.ref (.ofIndex ((off + tot) / bsize)) ≠ 0
  home : c'.home = c.home
  pinned : ∀ b ∈ c.pinned, b ∈ c'.pinned
  disk : ∀ b, b ∉ c'.pinned → b ≠ c'.seen.ref (.ofIndex ((off + tot) / bsize)) →
    c'.seen.disk b = c.seen.disk b

namespace Failed

variable {sb : Superblock} {src : Nat → UInt8} {inum off tot reach : Nat} {c c' c'' : Buffered}

section

variable (h : Failed sb src inum off tot reach c c')
include h

/-- Only the block of the failed copy can change, back to what it was. -/
theorem later_disk (hlater : Later c' c'') (b : Nat) : c''.seen.disk b = c'.seen.disk b ∨
      b = c'.seen.ref (.ofIndex ((off + tot) / bsize)) ∧ c''.seen.disk b = c.seen.disk b := by
  have hrec := hlater.recycled
  by_cases hpin : b ∈ c'.pinned
  · exact .inl (hrec.logged b hpin).1
  · have hhome : c'.home b = c.seen.disk b := by
      rw [h.home]
      exact h.clean b fun hp => hpin (h.pinned b hp)
    rcases (hrec.other b hpin).2 with hsame | hback
    · exact .inl hsame
    · rw [hhome] at hback
      by_cases hb : b = c'.seen.ref (.ofIndex ((off + tot) / bsize))
      · exact .inr ⟨hb, hback⟩
      · exact .inl (hback.trans (h.disk b hpin hb).symm)

theorem live' : DiskLive sb c'.seen.disk inum := by
  have hinum : c.seen.inum = inum := congrArg FsState.inum h.start
  have hip : c.seen.ip = diskInode sb c.seen.disk inum := congrArg FsState.ip h.start
  have := h.written.live (by rw [hip]; exact h.live.2) (by rw [hinum]; exact h.live.1)
  rwa [hinum] at this

theorem locked' : c'.seen = locked sb c'.seen.disk inum := by
  have hinum : c.seen.inum = inum := congrArg FsState.inum h.start
  have := h.written.locked
  rwa [hinum] at this

theorem refs_self' (y : BlockSlot) : diskRef sb c'.seen.disk inum y = c'.seen.ref y := by
  have hip : c'.seen.ip = diskInode sb c'.seen.disk inum := congrArg FsState.ip h.locked'
  rw [FsState.ref, hip]
  rfl

end

theorem later_slots (hl : Layout sb) (h : Failed sb src inum off tot reach c c')
    (hlater : Later c' c'') : (locked sb c''.seen.disk inum).ip = c'.seen.ip ∧
      ∀ y, (locked sb c''.seen.disk inum).ref y = c'.seen.ref y := by
  set x := c'.seen.ref (.ofIndex ((off + tot) / bsize)) with hx
  have hslot : diskRef sb c'.seen.disk inum (.ofIndex ((off + tot) / bsize)) = x := h.refs_self' _
  have hin := h.written.sound.owned.inside inum (.ofIndex ((off + tot) / bsize)) h.live'
    (by rw [hslot]; exact h.block)
  rw [hslot] at hin
  have hsame : ∀ b, b ≠ x → c''.seen.disk b = c'.seen.disk b := fun b hb =>
    (h.later_disk hlater b).resolve_right fun hr => hb hr.1
  have hblock : iblock sb inum ≠ x := by
    have := hl.iblock_lt h.live.1
    have := hl.bmapstart_le
    omega
  have hip : (locked sb c''.seen.disk inum).ip = c'.seen.ip := by
    have hip' : c'.seen.ip = diskInode sb c'.seen.disk inum := congrArg FsState.ip h.locked'
    rw [hip']
    show diskInode sb c''.seen.disk inum = _
    rw [diskInode, hsame _ hblock]
    rfl
  refine ⟨hip, fun y => ?_⟩
  show (locked sb c''.seen.disk inum).ip.ref c''.seen.disk y = c'.seen.ip.ref c'.seen.disk y
  rw [hip]
  cases y with
  | direct k => rfl
  | pointer => rfl
  | entry k =>
    by_cases hp : (c'.seen.ip.addrs (Fin.last ndirect)).toNat = 0
    · exact (if_pos hp).trans (if_pos hp).symm
    · -- the indirect block is not the block of the failed copy
      have hne : (c'.seen.ip.addrs (Fin.last ndirect)).toNat ≠ x := by
        intro heq
        have hptr : diskRef sb c'.seen.disk inum .pointer = x := (h.refs_self' .pointer).trans heq
        have hslots := (h.written.sound.owned.distinct _ _ _ _ h.live' h.live'
          (by rw [hptr]; exact h.block) (hptr.trans hslot.symm)).2
        exact ofIndex_ne_pointer _ hslots.symm
      simp only [Dinode.ref, if_neg hp, hsame _ hne]

theorem later_byte (hl : Layout sb) (h : Failed sb src inum off tot reach c c')
    (hlater : Later c' c'') {i : Nat} (hi : i < c'.seen.ip.size.toNat) :
    (locked sb c''.seen.disk inum).byteAt i = c'.seen.byteAt i ∨
      i / bsize = (off + tot) / bsize ∧ (i < c.seen.ip.size.toNat →
        (locked sb c''.seen.disk inum).byteAt i = c.seen.byteAt i) := by
  have hcov : c'.seen.ip.Covered c'.seen.disk c'.seen.ip.size.toNat := by
    have hip : c'.seen.ip = diskInode sb c'.seen.disk inum := congrArg FsState.ip h.locked'
    rw [hip]
    exact h.written.sound.covered inum h.live'
  obtain ⟨hbn, hne⟩ := hcov (i / bsize) ((Nat.div_mul_le_self i bsize).trans_lt hi)
  have href := (h.later_slots hl hlater).2 (.ofIndex (i / bsize))
  have hbyte : (locked sb c''.seen.disk inum).byteAt i =
      (c''.seen.disk (c'.seen.ref (.ofIndex (i / bsize)))).byte (i % bsize) := by
    rw [byteAt, ← href]
    rfl
  rw [hbyte]
  rcases h.later_disk hlater (c'.seen.ref (.ofIndex (i / bsize))) with hsame | ⟨hblock, hback⟩
  · exact .inl (by rw [hsame]; rfl)
  · right
    constructor
    · -- two indices with one block
      have hslots := (h.written.sound.owned.distinct _ _ (.ofIndex (i / bsize))
        (.ofIndex ((off + tot) / bsize)) h.live' h.live' (by rw [h.refs_self']; exact hne)
        (by rw [h.refs_self', h.refs_self']; exact hblock)).2
      have hbound : off + tot < 274432 := h.bound
      refine BlockSlot.ofIndex_inj hbn ?_ hslots
      show (off + tot) / 1024 < 268
      omega
    · intro hold
      have hold' := (h.covered (i / bsize) ((Nat.div_mul_le_self i bsize).trans_lt hold)).2
      rw [hback, h.refs _ hold']
      rfl

/-- If the bytes that were not counted are what the file had, a reader sees the counted ones and the
old ones. -/
theorem later_expected (hl : Layout sb) (h : Failed sb src inum off tot reach c c')
    (hoff : off ≤ c.seen.ip.size.toNat) (htot : tot = (off + reach) / bsize * bsize - off)
    (hsame : ∀ j, off + tot ≤ j → j < off + reach → j < c.seen.ip.size.toNat →
      src (j - off) = c.seen.byteAt j) (hlater : Later c' c'') {i : Nat}
    (hi : i < c'.seen.ip.size.toNat) : (locked sb c''.seen.disk inum).byteAt i =
      if off ≤ i ∧ i < off + tot then src (i - off) else c.seen.byteAt i := by
  have hsize := h.written.size
  have hbytes := h.written.bytes i hi
  have htot : tot = (off + reach) / 1024 * 1024 - off := htot
  rcases h.later_byte hl hlater hi with hnow | ⟨hdiv, hback⟩
  · rw [hnow, hbytes]
    by_cases hin : off ≤ i ∧ i < off + tot
    · rw [if_pos hin, if_pos ⟨hin.1, by omega⟩]
    · rw [if_neg hin]
      split
      · rename_i hrange
        exact hsame i (by omega) hrange.2 (by omega)
      · rfl
  · -- the block begins where the counted bytes end
    have hdiv : i / 1024 = (off + tot) / 1024 := hdiv
    have hafter : ¬(off ≤ i ∧ i < off + tot) := by omega
    rw [if_neg hafter]
    exact hback (by omega)

end Failed

theorem diskRef_locked {sb : Superblock} {s : FsState} {inum : Nat}
    (h : s = locked sb s.disk inum) : diskRef sb s.disk inum = s.ref := by
  have hip : s.ip = diskInode sb s.disk inum := congrArg FsState.ip h
  funext y
  rw [FsState.ref, hip]
  rfl

section Main

variable {sb : Superblock} {c : Buffered} {inum : Nat} {k : Kernel} {r a reach : Nat}
  {off n : BitVec 32}

/-- What a failing `writei` does, for what comes later. -/
theorem wp_writei_failed (hl : Layout sb) (hclean : c.Clean) (hs : Sound sb c.seen.disk)
    (hlive : DiskLive sb c.seen.disk inum) (hseen : c.seen = locked sb c.seen.disk inum)
    (hf : UserFrames (k.ptables r)) (hbad : FirstBad (k.ptables r) a n.toNat reach)
    (hpart : reach < n.toNat) :
    wp (Buffered.writei sb (userSource k r a) off n) (fun res c' => ∀ tot, res = some tot →
      (off.toNat ≤ c.seen.ip.size.toNat ∧ tot = (off.toNat + reach) / bsize * bsize - off.toNat) ∧
        Failed sb (fun j => k.userByte r (a + j)) inum off.toNat tot reach c c')
      (fun e _ => e = .outOfBlocks ∧
        freeBlocks sb c.seen.disk < lacking c.seen.ref (touched off.toNat n.toNat)) c := by
  have hip : c.seen.ip = diskInode sb c.seen.disk inum := congrArg FsState.ip hseen
  by_cases hrefuse : c.seen.ip.size.toNat < off.toNat ∨ 2 ^ 32 ≤ off.toNat + n.toNat ∨
      maxfile * bsize < off.toNat + n.toNat
  · have hnone := (lifts_writei sb (userSource k r a) off n).wp_iff.mpr
      (wp_writei_refused (E := fun e _ => e = .outOfBlocks ∧
        freeBlocks sb c.seen.disk < lacking c.seen.ref (touched off.toNat n.toNat)) hrefuse)
    refine wp_post hnone ?_
    rintro res c' ⟨rfl, -⟩ tot htot
    exact absurd htot.symm (Option.some_ne_none tot)
  · rw [not_or, not_or] at hrefuse
    have hoff : off.toNat ≤ (diskInode sb c.seen.disk inum).size.toNat := by
      rw [← hip]
      omega
    have hmax : off.toNat + n.toNat ≤ maxfile * bsize := by omega
    have hwrite := wp_writei_bytes hl hs hlive (delivers_userSource hf hbad) hoff hmax
      (touched_spans hmax)
    rw [← hseen] at hwrite
    have hboth := wp_and ((lifts_writei sb _ off n).wp_iff.mpr hwrite)
      (Buffered.wp_writei hl hs hlive hseen (userSource k r a) off n)
    rw [← diskRef_locked hseen]
    refine wp_mono hboth ?_ fun _ _ he => he.1
    rintro res c' ⟨⟨rfl, hw, -⟩, -, hlog⟩ tot htot
    obtain rfl := Option.some.inj htot
    obtain ⟨⟨-, hrefs, hblock⟩, hnoted⟩ := hlog _ rfl
    have hcount : counted off.toNat n.toNat reach =
        (off.toNat + reach) / bsize * bsize - off.toNat := if_neg (by omega)
    have hle := counted_le off.toNat n.toNat reach
    rw [Nat.min_eq_right (by omega)] at hle hw
    have hcov := hs.covered inum hlive
    rw [← hip] at hcov
    refine ⟨⟨by omega, hcount⟩, hclean, hlive, hseen, hcov, hw, hrefs, by omega, hblock (by omega),
      hnoted.home, hnoted.pinned, fun b hb hne => hnoted.disk b hb fun hX => hne hX.2⟩

end Main

/-- **A failing write changes only what it reports** exactly if the bytes of the block in which the
source ends, from its beginning or from the offset on, are those that the file has anyway, as far as
they are in the file.  In every later state of the cache `readi` returns the bytes of the file. -/
theorem failing_write_iff {sb : Superblock} (hl : Layout sb) {c : Buffered} (hclean : c.Clean)
    (hs : Sound sb c.seen.disk) {inum : Nat} (hlive : DiskLive sb c.seen.disk inum)
    (hseen : c.seen = locked sb c.seen.disk inum) {k : Kernel} {r a reach : Nat}
    (hf : UserFrames (k.ptables r)) {off n : BitVec 32}
    (hbad : FirstBad (k.ptables r) a n.toNat reach) (hpart : reach < n.toNat) :
    wp (Buffered.writei sb (userSource k r a) off n) (fun res c' => ∀ tot, res = some tot →
      (Unchanged sb inum off.toNat (off.toNat + tot) c c' ∧ Independent sb inum c' ↔
        ∀ j, off.toNat ≤ j → (off.toNat + reach) / bsize * bsize ≤ j → j < off.toNat + reach →
          j < c.seen.ip.size.toNat → k.userByte r (a + (j - off.toNat)) = c.seen.byteAt j) ∧
      ∀ c'', Later c' c'' → ∀ copyout off' n', (∀ t, copyout t = true) →
        wp (readi sb copyout off' n') (fun d _ =>
          d = some (readResult (diskContent sb c''.seen.disk inum) off'.toNat n'.toNat))
          (fun _ _ => False) (locked sb c''.seen.disk inum))
      (fun e _ => e = .outOfBlocks ∧
        freeBlocks sb c.seen.disk < lacking c.seen.ref (touched off.toNat n.toNat)) c := by
  refine wp_post (wp_writei_failed hl hclean hs hlive hseen hf hbad hpart) ?_
  intro res c' hres tot htot
  obtain ⟨⟨hoff, hcount⟩, h⟩ := hres tot htot
  have hold : ∀ i : Nat, (diskContent sb c.seen.disk inum)[i]? = c.seen.content[i]? := by
    intro i
    rw [diskContent, ← hseen]
  have hsize := h.written.size
  have hlater : ∀ c'', Later c' c'' →
      (locked sb c''.seen.disk inum).ip.size.toNat = c'.seen.ip.size.toNat := by
    intro c'' hc''
    rw [(h.later_slots hl hc'').1]
  refine ⟨⟨?_, fun hsame => ?_⟩, fun c'' hc'' copyout off' n' hcopy => ?_⟩
  · -- right after the write
    rintro ⟨hunch, -⟩ j h0 h1 h2 h3
    have hj := hunch c' .refl j (by omega)
    rw [hold, diskContent, ← h.locked', getElem?_content (by omega), getElem?_content h3] at hj
    rw [← Option.some.inj hj, h.written.bytes j (by omega), if_pos ⟨h0, h2⟩]
  · have hbyte : ∀ c'', Later c' c'' → ∀ i : Nat, i < c'.seen.ip.size.toNat →
        (diskContent sb c''.seen.disk inum)[i]? = some (if off.toNat ≤ i ∧ i < off.toNat + tot then
          k.userByte r (a + (i - off.toNat)) else c.seen.byteAt i) := by
      intro c'' hc'' i hi
      rw [diskContent, getElem?_content (by rw [hlater c'' hc'']; exact hi),
        h.later_expected hl hoff hcount
          (fun j h1 h2 h3 => hsame j (by omega) (by omega) h2 h3) hc'' hi]
    have hnone : ∀ c'', Later c' c'' → ∀ i : Nat, ¬i < c'.seen.ip.size.toNat →
        (diskContent sb c''.seen.disk inum)[i]? = none := by
      intro c'' hc'' i hi
      apply List.getElem?_eq_none
      rw [diskContent, length_content, hlater c'' hc'']
      omega
    refine ⟨fun c'' hc'' i hi => ?_, fun c₁ c₂ h₁ h₂ => ?_⟩
    · by_cases hlt : i < c'.seen.ip.size.toNat
      · rw [hbyte c'' hc'' i hlt, if_neg hi, hold, getElem?_content (by omega)]
      · rw [hnone c'' hc'' i hlt, hold, List.getElem?_eq_none]
        rw [length_content]
        omega
    · apply List.ext_getElem?
      intro i
      by_cases hlt : i < c'.seen.ip.size.toNat
      · rw [hbyte c₁ h₁ i hlt, hbyte c₂ h₂ i hlt]
      · rw [hnone c₁ h₁ i hlt, hnone c₂ h₂ i hlt]
  · obtain ⟨hip, hslots⟩ := h.later_slots hl hc''
    have hcov : (locked sb c''.seen.disk inum).ip.Covered (locked sb c''.seen.disk inum).disk
        (locked sb c''.seen.disk inum).ip.size.toNat := by
      intro bn hbn
      rw [hip] at hbn
      have hip' : c'.seen.ip = diskInode sb c'.seen.disk inum := congrArg FsState.ip h.locked'
      have hcov' := h.written.sound.covered inum h.live'
      rw [← hip'] at hcov'
      obtain ⟨hlt, hne⟩ := hcov' bn hbn
      exact ⟨hlt, fun hz => hne ((hslots _).symm.trans hz)⟩
    exact wp_post (wp_readi_content hcopy hcov off' n') fun d _ hd => hd.2

/-! ## A file of two bytes -/

theorem lonePage_firstBad :
    FirstBad (lonePageKernel.ptables (samplePage 0)) 4095 (2 : BitVec 32).toNat 1 := by
  have h2 : (2 : BitVec 32).toNat = 2 := rfl
  rw [h2, lonePageKernel_table]
  refine ⟨by decide, fun x h1 h2 => ?_, fun _ h => absurd (lonePage_userPage h) (by decide)⟩
  obtain rfl : x = 4095 := by omega
  exact ⟨by decide, by decide, by decide⟩

/-- The cache of a disk without a transaction. -/
def quietCache (disk : Nat → Block) (inum : Nat) : Buffered where
  seen := locked smallSb disk inum
  home := disk
  pinned := []
  op := []

/-- The new file of the small disk, with two bytes in it. -/
structure TwoBytes (x y : UInt8) (c : Buffered) : Prop where
  clean : c.Clean
  sound : Sound smallSb c.seen.disk
  live : DiskLive smallSb c.seen.disk 1
  locked : c.seen = locked smallSb c.seen.disk 1
  content : c.seen.content = [x, y]

namespace TwoBytes

variable {x y : UInt8} {c : Buffered}

theorem exists_file (x y : UInt8) : ∃ c, TwoBytes x y c := by
  obtain ⟨_, s, _, ⟨-, hcontent⟩, hw⟩ := wp_total (oneFileDisk_filled x y)
  exact ⟨{ quietCache s.disk 1 with seen := s }, fun _ _ => rfl, hw.sound,
    hw.live oneFileDisk_live.2 oneFileDisk_live.1, hw.locked, hcontent⟩

section

variable (h : TwoBytes x y c)
include h

theorem size : c.seen.ip.size.toNat = 2 := by
  rw [← length_content, h.content]
  rfl

theorem byte {i : Nat} (hi : i < 2) : c.seen.byteAt i = [x, y].getD i 0 := by
  have hbyte := getElem?_content (s := c.seen) (i := i) (by rw [h.size]; exact hi)
  rw [h.content] at hbyte
  simp [List.getD, hbyte]

theorem enough : lacking c.seen.ref (touched 0 2) = 0 := by
  refine Finset.card_eq_zero.mpr (Finset.filter_eq_empty_iff.mpr fun z hz hzero => ?_)
  have htouched : touched 0 2 = {.ofIndex 0} := by decide
  rw [htouched, Finset.mem_singleton] at hz
  subst hz
  have hip : c.seen.ip = diskInode smallSb c.seen.disk 1 := congrArg FsState.ip h.locked
  have hcov := h.sound.covered 1 h.live 0 (by rw [← hip, h.size]; decide)
  rw [← hip] at hcov
  exact hcov.2 hzero

end

end TwoBytes

/-- The byte that is copied but not counted is the one that the file has. -/
theorem failing_write_same : ∃ c : Buffered, c.seen.content = [0, 66] ∧
    wp (Buffered.writei smallSb (userSource lonePageKernel (samplePage 0) 4095) 0 2)
      (fun res c' => ∀ tot, res = some tot →
        Unchanged smallSb 1 0 (0 + tot) c c' ∧ Independent smallSb 1 c') (fun _ _ => False) c := by
  obtain ⟨c, h⟩ := TwoBytes.exists_file 0 66
  refine ⟨c, h.content, wp_mono (failing_write_iff smallSb_layout h.clean h.sound h.live h.locked
    lonePage_userFrames lonePage_firstBad (by decide)) ?_ ?_⟩
  · intro res c' hres tot htot
    refine (hres tot htot).1.mpr fun j _ _ hj _ => ?_
    have hj : j < 0 + 1 := hj
    obtain rfl : j = 0 := by omega
    rw [h.byte (by decide)]
    rfl
  · rintro e _ ⟨-, hfew⟩
    exact Nat.not_lt_zero _ (hfew.trans_eq h.enough)

/-- Two bytes are written over a file of two bytes, and the source ends after one: `writei` returns
0, but the first byte has changed. -/
theorem failed_write_visible : ∃ c : Buffered, c.Clean ∧ Sound smallSb c.seen.disk ∧
    c.seen = locked smallSb c.seen.disk 1 ∧ c.seen.content = [65, 66] ∧
    wp (Buffered.writei smallSb (userSource lonePageKernel (samplePage 0) 4095) 0 2)
      (fun res c' => res = some 0 ∧ c'.seen.content = [0, 66] ∧ ¬Unchanged smallSb 1 0 0 c c')
      (fun _ _ => False) c := by
  obtain ⟨c, h⟩ := TwoBytes.exists_file 65 66
  refine ⟨c, h.clean, h.sound, h.locked, h.content, ?_⟩
  have hzero : (0 : BitVec 32).toNat ≤ (diskInode smallSb c.seen.disk 1).size.toNat := Nat.zero_le _
  have hwrite := wp_writei_bytes smallSb_layout h.sound h.live (n := 2)
    (delivers_userSource lonePage_userFrames lonePage_firstBad) hzero (by decide)
    (touched_spans (by decide))
  rw [← h.locked] at hwrite
  have hlift := lifts_writei smallSb (userSource lonePageKernel (samplePage 0) 4095) 0 2
  refine wp_mono ((hlift.wp_iff (t := c)).mpr hwrite) ?_ ?_
  · rintro res c' ⟨rfl, hw, -⟩
    have hsize : c'.seen.ip.size.toNat = 2 := by
      rw [hw.size, h.size]
      rfl
    have hbyte : c'.seen.byteAt 0 = 0 := by
      rw [hw.bytes 0 (by omega), if_pos (by decide)]
      rfl
    have hbyte' : c'.seen.byteAt 1 = 66 := by
      rw [hw.bytes 1 (by omega), if_neg (by decide), h.byte (by decide)]
      rfl
    have hcontent : c'.seen.content = [0, 66] := by
      rw [content, hsize]
      simp [List.range_succ, hbyte, hbyte']
    refine ⟨rfl, hcontent, fun hunch => ?_⟩
    have h0 := hunch c' .refl 0 (by decide)
    have hlocked : c'.seen = locked smallSb c'.seen.disk 1 := by
      have hinum : c.seen.inum = 1 := congrArg FsState.inum h.locked
      have := hw.locked
      rwa [hinum] at this
    have hold : diskContent smallSb c.seen.disk 1 = [65, 66] := by
      rw [diskContent, ← h.locked, h.content]
    rw [hold, diskContent, ← hlocked, hcontent] at h0
    exact absurd h0 (by decide)
  · rintro e c' ⟨-, hfew⟩
    rw [diskRef_locked h.locked] at hfew
    exact Nat.not_lt_zero _ (hfew.trans_eq h.enough)

end Xv6Paging.Disk
