import Xv6Paging.Fs.CacheRuns

/-!
# Coherence of the buffer cache

The invariant of the buffer cache over all runs, and what a process gets from `bread`.  A step of
the committer leads from what holds at its place in `commit` to what holds at the next one.
-/

namespace Xv6Paging

open StateHalt LinkedRing
open Function (update update_of_ne update_self)

variable {ι : Type}

namespace CacheInv

variable [DecidableEq ι] [Fintype ι] {A : LogArea} {disk₀ : Nat → Block} {s : CacheSystem ι}
  {i : ι} {k : Fin nbuf} {b : Nat}

section

variable (h : CacheInv A disk₀ s)
include h

theorem lookup {c : Bcache ι} (hidle : (s.loc i).busy = .idle)
    (hmay : s.May A i (.bread b)) (hgot : Got rootdev b k s.bc c) :
    CacheInv A disk₀ (s.lookup i b k c) := by
  have hne : ∀ j, j ≠ k → c.buf j = s.bc.buf j := by
    intro j hj
    rcases hgot with ⟨-, -, rfl⟩ | ⟨-, -, rfl⟩
    · exact Bcache.setBuf_of_ne hj
    · exact Bcache.setBuf_of_ne hj
  refine h.pass (s.lookup_touches i k b hne) rfl (h.buf.lookup hidle hgot) rfl rfl rfl ?_ rfl rfl
    (Finset.Subset.refl _) fun stage hi => hmay.call_eq hi
  show (c.buf k).valid = true ∨ _ → (c.buf k).contents = _
  rcases hgot with ⟨-, -, rfl⟩ | ⟨-, h0, rfl⟩
  · rw [Bcache.setBuf_self]
    exact fun _ => rfl
  · -- the recycled buffer has no contents and no users
    rw [Bcache.setBuf_self]
    rintro (hval | ⟨j, hj⟩)
    · exact absurd hval (by simp)
    · rw [h.buf.unused h0 j] at hj
      exact absurd hj (Nat.lt_irrefl 0)

theorem acquire (hbusy : (s.loc i).busy = .acquiring k b)
    (hfree : (s.bc.buf k).owner = none) : CacheInv A disk₀ (s.acquire i k b) := by
  obtain ⟨ht, hbk⟩ := s.acquire_touches i k b
  refine h.pass ht rfl (h.buf.acquire hbusy hfree) rfl rfl rfl (fun _ => by rw [hbk]; rfl) rfl rfl
    (Finset.Subset.refl _) fun stage hi => ?_
  have hfollows := h.commit.follows i stage hi
  simpa only [Follows, hbusy] using hfollows

theorem fill_data (hbusy : (s.loc i).busy = .filling k b) :
    ((s.fill i k).bc.buf k).data = s.latest disk₀ (s.bc.buf k).blockno := by
  show ((s.bc.fill s.disk k).buf k).data = _
  obtain ⟨hdev, hblock⟩ := h.buf.name.named i k b (.inr hbusy)
  unfold Bcache.fill
  by_cases hval : (s.bc.buf k).valid = true
  · -- nobody else can have modified a buffer that this process owns
    rw [if_pos hval]
    refine h.data.clean k hdev hval fun j hj => ?_
    have hj' := h.buf.lock.dirty j hj
    have hown := (h.buf.lock.owner k i).mpr (.inr ⟨b, hbusy⟩)
    rw [(h.buf.lock.owner k j).mpr (.inl hj')] at hown
    obtain rfl := Option.some.inj hown
    exact h.buf.lock.apart j k b hbusy hj'
  · -- a pinned block would have a buffer with contents
    rw [if_neg hval, Bcache.setBuf_self]
    refine h.data.disk _ fun hpin => hval ?_
    obtain ⟨k', hdev', hblock', hval'⟩ := h.buf.name.pinned _ hpin
    rwa [h.buf.name.unique k k' hdev hdev' hblock'.symm]

theorem fill (hbusy : (s.loc i).busy = .filling k b) : CacheInv A disk₀ (s.fill i k) := by
  obtain ⟨ht, ⟨x, hbk⟩, -⟩ := s.fill_touches i k
  have hdirty := ht.field Local.dirty rfl
  have hblock := ht.bufField Buf.blockno (by rw [hbk])
  have hnot := h.buf.lock.apart i k b hbusy
  obtain ⟨hdevk, hblockk⟩ := h.buf.name.named i k b (.inr hbusy)
  refine ⟨h.group, h.buf.fill hbusy, h.refresh ht rfl rfl rfl rfl rfl ?_, ?_⟩
  · rw [hblock]
    exact h.fill_data hbusy
  by_cases hout : s.Outside i
  · -- a process other than the committer; nobody else holds the buffer
    refine h.outsider ht hout rfl rfl rfl (fun _ _ _ _ _ => rfl) (fun _ _ _ _ _ hb => hb)
      fun j hji hk => ?_
    have hown := (h.buf.lock.owner k i).mpr (.inr ⟨b, hbusy⟩)
    rw [(h.buf.lock.owner k j).mpr (.inl hk)] at hown
    exact absurd (Option.some.inj hown) hji
  · obtain ⟨stage, hi⟩ := CacheSystem.stage_of_not_outside hout
    have hcall : (s.loc i).pos.call A s.group.log.lh = some (.bread b) := by
      have hfollows := h.commit.follows i stage hi
      simpa only [Follows, hbusy] using hfollows
    have hA := h.commit.assert i stage hi
    have hkeep : ∀ b', Unmodified s i b' → Unmodified (s.fill i k) i b' := by
      intro b' hb' k' hk' hkb
      rw [hdirty]
      rw [hblock] at hkb
      rw [ht.self] at hk'
      rcases Finset.mem_insert.mp hk' with rfl | hk'
      · exact fun hd => hnot (h.buf.lock.dirty i hd)
      · exact hb' k' hk' hkb
    have hnew : Unmodified (s.fill i k) i b := by
      intro k' hk' hkb
      rw [hdirty]
      rw [hblock] at hkb
      rw [ht.self] at hk'
      rcases Finset.mem_insert.mp hk' with rfl | hold
      · exact fun hd => hnot (h.buf.lock.dirty i hd)
      · have hroot := (h.buf.name.held i k' hold).1
        obtain rfl := h.buf.name.unique k' k hroot hdevk (hkb.trans hblockk.symm)
        exact absurd hold hnot
    refine h.commit.advance h.group rfl hi ?_ (by rw [ht.self]) ht.loc
    rw [ht.self]
    show Assert A disk₀ (s.fill i k) i stage (s.loc i).pos.next
    generalize (s.loc i).pos = pos at hcall hA ⊢
    rcases Pos.makes hcall with ⟨t, ht, rfl, -⟩ | ⟨t, rfl, rfl⟩ | rfl | ⟨t, ht, rfl, rfl⟩ |
      ⟨t, rfl, -⟩
    · obtain rfl := hA.writeLog_stage
      exact ⟨hA.1, ht, hA.2.2⟩
    · obtain rfl := hA.writeLog_stage
      exact ⟨hA.1, hA.2.1, hA.2.2, hnew⟩
    · rcases hA.head_stage with rfl | rfl
      · exact hA
      · exact hA
    · obtain rfl := hA.install_stage
      exact ⟨hA.1, ht, hA.2.2, hnew⟩
    · obtain rfl := hA.install_stage
      exact ⟨hA.1, hA.2.1, hA.2.2.1, hkeep _ hA.2.2.2⟩

theorem modifyBuf_data {x : Block} : DataInv A disk₀ (s.modifyBuf i k x) := by
  obtain ⟨ht, -⟩ := s.modifyBuf_touches i k x
  refine ⟨fun k' hdev hval hk' => ?_, h.data.disk, h.data.home, h.data.room, h.data.all⟩
  have hkk : k' ≠ k := by
    rintro rfl
    refine hk' i ?_
    rw [ht.self]
    exact Finset.mem_insert_self _ _
  rw [ht.buf k' hkk] at hdev hval ⊢
  refine h.data.clean k' hdev hval fun j hj => hk' j ?_
  by_cases hji : j = i
  · rw [hji] at hj ⊢
    rw [ht.self]
    exact Finset.mem_insert_of_mem hj
  · rwa [ht.loc j hji]

section

variable (hidle : (s.loc i).busy = .idle)
include hidle

theorem modifyBuf {x : Block} (hout : s.Outside i) (hown : (s.bc.buf k).owner = some i) :
    CacheInv A disk₀ (s.modifyBuf i k x) := by
  have hk := h.buf.lock.holds_of_owner hown hidle
  refine ⟨h.group, h.buf.modifyBuf hk, h.modifyBuf_data, h.outsider (s.modifyBuf_touches i k x).1
    hout rfl rfl rfl (fun _ _ _ _ _ => rfl) (fun _ _ _ _ _ hb => hb) fun j hji hj => ?_⟩
  exact absurd (h.buf.lock.holder_eq hj hk) hji

theorem copy {k' : Fin nbuf}
    (hin : ¬s.Outside i) (hk : k ∈ (s.loc i).holds) (hk' : k' ∈ (s.loc i).holds)
    (hmay : s.May A i (.copy (s.bc.buf k).blockno (s.bc.buf k').blockno)) :
    CacheInv A disk₀ (s.modifyBuf i k (s.bc.buf k').data) := by
  obtain ⟨stage, hi⟩ := CacheSystem.stage_of_not_outside hin
  obtain ⟨t, hpos, hb, hb'⟩ := Pos.makes (hmay.call_eq hi)
  have hA := h.commit.assert i stage hi
  rw [hpos] at hA
  obtain rfl := hA.writeLog_stage
  obtain ⟨ht, hbk⟩ := s.modifyBuf_touches i k (s.bc.buf k').data
  refine ⟨h.group, h.buf.modifyBuf hk, h.modifyBuf_data, h.commit.advance h.group rfl hi ?_
    (by rw [ht.self, ← hidle]) ht.loc⟩
  rw [ht.self, hpos]
  refine ⟨hA.1, hA.2.1, hA.2.2.1, fun k₁ hk₁ hkb => ?_⟩
  rw [ht.self] at hk₁
  -- the buffer of the log block is the one that was filled
  rw [ht.bufField Buf.blockno (by rw [hbk])] at hkb
  obtain rfl := h.held_eq hk hk₁ (hkb.trans hb.symm)
  rw [hbk]
  show (s.bc.buf k').data = _
  rw [h.data_eq hk' (hA.2.2.2 k' hk' hb'), hb']
  rfl

/-- `install_trans` copies a log block to the buffer of its home block, which has these contents. -/
theorem installBuf {k' : Fin nbuf}
    (hin : ¬s.Outside i) (hk : k ∈ (s.loc i).holds) (hk' : k' ∈ (s.loc i).holds)
    (hmay : s.May A i (.install (s.bc.buf k).blockno (s.bc.buf k').blockno)) :
    CacheInv A disk₀ (s.installBuf i k (s.bc.buf k').data) := by
  obtain ⟨stage, hi⟩ := CacheSystem.stage_of_not_outside hin
  obtain ⟨t, hpos, hb, hb'⟩ := Pos.makes (hmay.call_eq hi)
  have hA := h.commit.assert i stage hi
  rw [hpos] at hA
  obtain rfl := hA.install_stage
  have hx : (s.bc.buf k').data = s.latest disk₀ (s.bc.buf k).blockno := by
    rw [h.data_eq hk' (hA.2.2.2 k' hk' hb'), hb', hb]
    exact hA.2.2.1 t hA.2.1
  obtain ⟨ht, hbk⟩ := s.installBuf_touches i k (s.bc.buf k').data
  refine ⟨h.group, h.buf.installBuf, h.refresh ht rfl rfl rfl rfl rfl (by rw [hbk, ← hx]),
    h.commit.advance h.group rfl hi ?_ (by rw [ht.self, ← hidle]) ht.loc⟩
  rw [ht.self, hpos]
  refine ⟨hA.1, hA.2.1, hA.2.2.1, fun k₁ hk₁ hkb => ?_⟩
  rw [ht.self] at hk₁
  rw [ht.bufField Buf.blockno (by rw [hbk])] at hkb
  obtain rfl := h.held_eq hk hk₁ (hkb.trans hb.symm)
  rw [hbk]
  show (s.bc.buf k').data = s.latest disk₀ (s.group.log.lh.getD t 0)
  rw [hx, hb]

theorem store {x : Block}
    (hin : ¬s.Outside i) (hk : k ∈ (s.loc i).holds) (hmay : s.May A i .store) :
    CacheInv A disk₀ (s.modifyBuf i k x) := by
  obtain ⟨stage, hi⟩ := CacheSystem.stage_of_not_outside hin
  have hpos : (s.loc i).pos = .head .store := Pos.makes (hmay.call_eq hi)
  have hA := h.commit.assert i stage hi
  rw [hpos] at hA
  obtain ⟨ht, -⟩ := s.modifyBuf_touches i k x
  refine ⟨h.group, h.buf.modifyBuf hk, h.modifyBuf_data, h.commit.advance h.group rfl hi ?_
    (by rw [ht.self, ← hidle]) ht.loc⟩
  rw [ht.self, hpos]
  rcases hA.head_stage with rfl | rfl
  · exact hA
  · exact hA

omit hidle in
theorem bwriteBuf_latest (hk : k ∈ (s.loc i).holds) (b : Nat) : (s.bwriteBuf i k).latest disk₀ b =
      if b = (s.bc.buf k).blockno then (s.bc.buf k).data else s.latest disk₀ b := by
  by_cases hd : k ∈ (s.loc i).dirty
  · refine latest_cons ?_ b
    simp [CacheSystem.bwriteBuf, CacheSystem.record, hd]
  · have hmods : (s.bwriteBuf i k).mods = s.mods := by simp [CacheSystem.bwriteBuf, hd]
    rw [latest_congr hmods]
    split
    · rename_i hb
      rw [hb, h.data_eq hk hd]
    · rfl

omit hidle in
theorem bwriteBuf_data (hk : k ∈ (s.loc i).holds) : DataInv A disk₀ (s.bwriteBuf i k) := by
  obtain ⟨ht, hgroup, hbc, hpins⟩ := s.bwriteBuf_touches i k
  have hlatest := h.bwriteBuf_latest hk
  refine ⟨h.recorded ht hk hlatest (by rw [hbc]) rfl, fun b hb => ?_, hgroup ▸ h.data.home,
    hgroup ▸ h.data.room, fun hc b => ?_⟩
  · rw [hpins] at hb
    have hdisk : (s.bwriteBuf i k).disk =
        update s.disk (s.bc.buf k).blockno (s.bc.buf k).data := rfl
    rw [hdisk, hlatest]
    by_cases hbb : b = (s.bc.buf k).blockno
    · rw [if_pos hbb, hbb, update_self]
    · rw [if_neg hbb, update_of_ne hbb]
      exact h.data.disk b hb
  · rw [hgroup] at hc
    rw [hpins, hgroup]
    exact h.data.all hc b

omit hidle in
theorem bwriteBuf_outside (hk : k ∈ (s.loc i).holds) (hout : s.Outside i)
    (hdirty : k ∈ (s.loc i).dirty → s.Outside i → s.group.log.committing = true →
      (s.bc.buf k).blockno ∉ s.group.log.lh ∧ ¬A.Contains (s.bc.buf k).blockno) :
    CommitInv A disk₀ (s.bwriteBuf i k) := by
  obtain ⟨ht, hgroup, hbc, hpins⟩ := s.bwriteBuf_touches i k
  have hlatest := h.bwriteBuf_latest hk
  -- a block that the commit relies on keeps its latest contents
  have hsame : ∀ j stage, s.group.pc j = .commit stage →
      ∀ b, b ∈ s.group.log.lh ∨ A.Contains b → b = (s.bc.buf k).blockno →
        (s.bc.buf k).data = s.latest disk₀ b := by
    intro j stage hj b hb hbk
    by_cases hd : k ∈ (s.loc i).dirty
    · obtain ⟨h1, h2⟩ := hdirty hd hout (h.group.committer j stage hj)
      rw [hbk] at hb
      exact (hb.elim h1 h2).elim
    · rw [hbk]
      exact h.data_eq hk hd
  refine h.outsider ht hout hgroup hpins rfl (fun j stage hj b hb => ?_)
    (fun j stage hj b hb hd => ?_) fun _ _ _ => by rw [hbc]; exact ⟨rfl, rfl⟩
  · rw [hlatest]
    split
    · exact hsame j stage hj b hb ‹_›
    · rfl
  · show update s.disk (s.bc.buf k).blockno (s.bc.buf k).data b = _
    by_cases hbb : b = (s.bc.buf k).blockno
    · rw [← hsame j stage hj b (.inl hb) hbb, hbb, update_self]
    · rw [update_of_ne hbb]
      exact hd

/-- `bwrite` by the committer: a log block, the header or a home block. -/
theorem bwriteBuf_commit {stage : Stage}
    (hi : s.group.pc i = .commit stage) (hk : k ∈ (s.loc i).holds)
    (hcall : (s.loc i).pos.call A s.group.log.lh = some (.bwrite (s.bc.buf k).blockno)) :
    CommitInv A disk₀ (s.bwriteBuf i k) := by
  obtain ⟨ht, hgroup, hbc, hpins⟩ := s.bwriteBuf_touches i k
  have hlatest := h.bwriteBuf_latest hk
  have hA := h.commit.assert i stage hi
  have hpin : ∀ t, PinsFrom s t → PinsFrom (s.bwriteBuf i k) t := by
    intro t ht b
    rw [hpins, hgroup]
    exact ht b
  -- a block that is not written keeps its contents
  have hother : ∀ b, b ≠ (s.bc.buf k).blockno → (s.bwriteBuf i k).latest disk₀ b =
      s.latest disk₀ b := fun b hb => by rw [hlatest, if_neg hb]
  refine h.commit.advance h.group hgroup hi ?_ (by rw [ht.self, ← hidle]) ht.loc
  rw [show ((s.bwriteBuf i k).loc i).pos = (s.loc i).pos.next by rw [ht.self]]
  generalize (s.loc i).pos = pos at hcall hA
  rcases Pos.makes hcall with ⟨t, rfl, hb⟩ | ⟨rfl, hb⟩ | ⟨t, rfl, hb⟩
  · obtain rfl := hA.writeLog_stage
    have hhome : ∀ u, u < s.group.log.lh.length →
        (s.bwriteBuf i k).latest disk₀ (s.group.log.lh.getD u 0) =
          s.latest disk₀ (s.group.log.lh.getD u 0) := by
      intro u hu
      refine hother _ fun hbk => h.data.homeBlock hu ?_
      rw [hbk, hb]
      exact h.data.logBlock hA.2.1
    refine ⟨hpin 0 hA.1, by rw [hgroup]; exact hA.2.1, fun u hu => ?_⟩
    rw [hgroup, hhome u (by have := hA.2.1; omega)]
    by_cases hut : u = t
    · -- the block that is written now
      subst hut
      rw [hlatest, if_pos hb.symm]
      exact hA.2.2.2 k hk hb
    · rw [hother _ (by omega)]
      exact hA.2.2.1 u (by omega)
  · -- the header is neither a log block nor a home block
    have hstart : A.Contains (s.bc.buf k).blockno := by
      have := h.data.room
      rw [hb]
      constructor <;> omega
    rcases hA.head_stage with rfl | rfl
    · refine ⟨hpin 0 hA.1, fun u hu => ?_⟩
      rw [hgroup] at hu ⊢
      rw [hother _ (by omega), hother _ fun hbk => h.data.homeBlock hu (by rwa [hbk])]
      exact hA.2 u hu
    · exact hpins.trans hA
  · obtain rfl := hA.install_stage
    -- the contents that are installed are the latest
    have hsame : ∀ b, (s.bwriteBuf i k).latest disk₀ b = s.latest disk₀ b := by
      intro b
      rw [hlatest]
      split
      · rename_i hbk
        rw [hbk, hA.2.2.2 k hk hb, hb]
      · rfl
    refine ⟨hpin t hA.1, by rw [hgroup]; exact hA.2.1, fun u hu => ?_, ?_⟩
    · rw [hgroup] at hu ⊢
      rw [hsame, hsame]
      exact hA.2.2.1 u hu
    · rw [hgroup, hsame, ← hb]
      show update s.disk (s.bc.buf k).blockno (s.bc.buf k).data _ = _
      rw [update_self, hA.2.2.2 k hk hb, hb]

theorem bwriteBuf
    (hown : (s.bc.buf k).owner = some i) (hmay : s.May A i (.bwrite (s.bc.buf k).blockno))
    (hdirty : k ∈ (s.loc i).dirty → s.Outside i → s.group.log.committing = true →
      (s.bc.buf k).blockno ∉ s.group.log.lh ∧ ¬A.Contains (s.bc.buf k).blockno) :
    CacheInv A disk₀ (s.bwriteBuf i k) := by
  have hk := h.buf.lock.holds_of_owner hown hidle
  refine ⟨?_, h.buf.bwriteBuf, h.bwriteBuf_data hk, ?_⟩
  · rw [(s.bwriteBuf_touches i k).2.1]
    exact h.group
  · by_cases hout : s.Outside i
    · exact h.bwriteBuf_outside hk hout hdirty
    · obtain ⟨stage, hi⟩ := CacheSystem.stage_of_not_outside hout
      exact h.bwriteBuf_commit hidle hi hk (hmay.call_eq hi)

/-- `log_write`: the modification counts from now on, and the block is pinned until it is
installed. -/
theorem logWriteBuf {log : GroupLog}
    (hin : s.group.pc i = .inside) (hown : (s.bc.buf k).owner = some i)
    (hhome : ¬A.Contains (s.bc.buf k).blockno)
    (hr : logWrite A.size (s.bc.buf k).blockno s.group.log = .ok () log) :
    CacheInv A disk₀ (s.logWriteBuf i k log) := by
  have hk := h.buf.lock.holds_of_owner hown hidle
  have hroot := (h.buf.name.held i k hk).1
  have hcommit := h.group.not_committing hin
  have hpins := pinsFrom_zero.mp (h.data.all hcommit)
  obtain ⟨hok, hroom⟩ := logWrite_ok hr
  have hlatest : ∀ b, (s.logWriteBuf i k log).latest disk₀ b =
      if b = (s.bc.buf k).blockno then (s.bc.buf k).data else s.latest disk₀ b := latest_cons rfl
  obtain ⟨ht, hbk, -⟩ := s.logWriteBuf_touches i k log
  have hlog : (s.logWriteBuf i k log).group.log.lh =
      absorb s.group.log.lh (s.bc.buf k).blockno := by
    show log.lh = _
    rw [hok]
  have hdata : DataInv A disk₀ (s.logWriteBuf i k log) := by
    refine ⟨h.recorded ht hk hlatest (by rw [hbk]; rfl) rfl, ?_, ?_, ?_, ?_⟩
    · intro b hb
      have hb' : b ∉ insert (s.bc.buf k).blockno s.pins := hb
      rw [Finset.mem_insert, not_or] at hb'
      rw [hlatest, if_neg hb'.1]
      exact h.data.disk b hb'.2
    · intro b hb
      rw [hlog] at hb
      rcases mem_absorb.mp hb with hb | rfl
      · exact h.data.home b hb
      · exact hhome
    · rw [hlog]
      have := @absorb_length_le (s.bc.buf k).blockno s.group.log.lh
      omega
    · intro _
      refine pinsFrom_zero.mpr fun b => ?_
      rw [hlog, mem_absorb, ← hpins b]
      show b ∈ insert (s.bc.buf k).blockno s.pins ↔ _
      rw [Finset.mem_insert, or_comm]
  -- an operation is under way, so nobody commits
  have hno := h.group.no_commit hcommit
  refine ⟨h.group.write hin hr, h.buf.logWriteBuf hk (hpins _).symm, hdata,
    fun j stage hj => absurd hj (hno j stage), fun j stage hj => absurd hj (hno j stage),
    fun j hj => ?_⟩
  rw [ht.field Local.pos rfl]
  exact h.commit.outside j hj

theorem unpinBuf (hin : ¬s.Outside i)
    (hk : k ∈ (s.loc i).holds) (hmay : s.May A i (.unpin (s.bc.buf k).blockno)) :
    CacheInv A disk₀ (s.unpinBuf i k) := by
  obtain ⟨stage, hi⟩ := CacheSystem.stage_of_not_outside hin
  obtain ⟨t, hpos, hb⟩ := Pos.makes (hmay.call_eq hi)
  have hA := h.commit.assert i stage hi
  rw [hpos] at hA
  obtain rfl := hA.install_stage
  have hpin : (s.bc.buf k).blockno ∈ s.pins :=
    (hA.1 _).mpr ⟨t, le_rfl, hA.2.1, hb.symm⟩
  obtain ⟨ht, hbk⟩ := s.unpinBuf_touches i k
  have hdata : DataInv A disk₀ (s.unpinBuf i k) := by
    refine ⟨fun k' hdev hval hk' => ?_, fun b hb' => ?_, h.data.home, h.data.room, fun hc => ?_⟩
    · rw [ht.bufField Buf.dev (by rw [hbk])] at hdev
      rw [ht.bufField Buf.valid (by rw [hbk])] at hval
      rw [ht.bufField Buf.data (by rw [hbk]), ht.bufField Buf.blockno (by rw [hbk])]
      exact h.data.clean k' hdev hval fun j hj => hk' j (by rwa [ht.field Local.dirty rfl])
    · by_cases hbb : b = (s.bc.buf k).blockno
      · -- its contents are on the disk
        rw [hbb, hb]
        exact hA.2.2.2
      · exact h.data.disk b fun hmem => hb' (Finset.mem_erase.mpr ⟨hbb, hmem⟩)
    · exact absurd (hc.symm.trans (h.group.committer i _ hi)) (by decide)
  refine ⟨h.group, h.buf.unpinBuf hk hpin, hdata, h.commit.advance h.group rfl hi ?_
    (by rw [ht.self, ← hidle]) ht.loc⟩
  rw [ht.self, hpos]
  refine ⟨fun b => ?_, hA.2.1, hA.2.2.1⟩
  show b ∈ s.pins.erase (s.bc.buf k).blockno ↔ _
  rw [Finset.mem_erase, hA.1 b, hb]
  -- the header names every block once
  have hinj : ∀ u, u < s.group.log.lh.length →
      s.group.log.lh.getD u 0 = s.group.log.lh.getD t 0 → u = t := by
    intro u hu heq
    rw [List.getD_eq_getElem _ _ hu, List.getD_eq_getElem _ _ hA.2.1] at heq
    exact (h.group.nodup.getElem_inj_iff).mp heq
  constructor
  · rintro ⟨hne, u, hle, hu, rfl⟩
    refine ⟨u, ?_, hu, rfl⟩
    have : u ≠ t := fun hut => hne (by rw [hut])
    omega
  · rintro ⟨u, hle, hu, rfl⟩
    refine ⟨fun heq => ?_, u, by omega, hu, rfl⟩
    have := hinj u hu heq
    omega

theorem release (hown : (s.bc.buf k).owner = some i) (hclean : k ∉ (s.loc i).dirty)
    (hmay : s.May A i (.brelse (s.bc.buf k).blockno)) : CacheInv A disk₀ (s.release i k) := by
  have hk := h.buf.lock.holds_of_owner hown hidle
  obtain ⟨ht, hbk⟩ := s.release_touches i k
  exact h.pass ht rfl (h.buf.release hidle hk hclean) rfl rfl rfl (fun _ => by rw [hbk]; rfl) rfl
    rfl (Finset.erase_subset _ _) fun stage hi => ⟨_, hmay.call_eq hi⟩

end

theorem drop (hbusy : (s.loc i).busy = .releasing k) : CacheInv A disk₀ (s.drop i k) := by
  obtain ⟨ht, hbk⟩ := s.drop_touches i k
  have hdirty := ht.field Local.dirty rfl
  have hsame := ht.bufField Buf.contents (by rw [hbk]; rfl)
  refine ⟨h.group, h.buf.drop hbusy, h.data.keep rfl rfl rfl rfl (fun k' hdev hval => ?_)
    fun j => (hdirty j).superset, ?_⟩
  · obtain ⟨h1, h2, h3, h4⟩ := Buf.contents_inj.mp (hsame k')
    exact ⟨h1.symm.trans hdev, h2.symm.trans hval, h3, h4⟩
  by_cases hout : s.Outside i
  · exact h.outsider ht hout rfl rfl rfl (fun _ _ _ _ _ => rfl) (fun _ _ _ _ _ hb => hb)
      fun _ _ _ => by rw [hbk]; exact ⟨rfl, rfl⟩
  · obtain ⟨stage, hi⟩ := CacheSystem.stage_of_not_outside hout
    obtain ⟨b, hcall⟩ : ∃ b, (s.loc i).pos.call A s.group.log.lh = some (.brelse b) := by
      have hfollows := h.commit.follows i stage hi
      simpa only [Follows, hbusy] using hfollows
    have hA := h.commit.assert i stage hi
    refine h.commit.advance h.group rfl hi ?_ (by rw [ht.self]) ht.loc
    rw [ht.self]
    show Assert A disk₀ (s.drop i k) i stage (s.loc i).pos.next
    generalize (s.loc i).pos = pos at hcall hA ⊢
    rcases Pos.makes hcall with ⟨t, rfl⟩ | ⟨t, rfl⟩ | rfl | ⟨t, rfl⟩ | ⟨t, rfl⟩
    · obtain rfl := hA.writeLog_stage
      exact hA
    · -- the next round of `write_log`
      obtain rfl := hA.writeLog_stage
      exact ⟨hA.1, hA.2.1, hA.2.2⟩
    · rcases hA.head_stage with rfl | rfl
      · exact hA
      · exact hA
    · obtain rfl := hA.install_stage
      exact hA
    · -- the next round of `install_trans`
      obtain rfl := hA.install_stage
      exact ⟨hA.1, hA.2.1, hA.2.2⟩

/-! ### The logging protocol -/

variable {g : System ι}

theorem protocol_data (hlh : g.log.lh = s.group.log.lh ∨ g.log.lh = [])
    (hall : g.log.committing = false → PinsFrom (s.protocol g) 0) :
    DataInv A disk₀ (s.protocol g) where
  clean k hdev hval hk := h.data.clean k hdev hval fun j hj => hk j (by
    rwa [(s.protocol_loc g j).2.2])
  disk := h.data.disk
  home b hb := by
    rcases hlh with hlh | hlh
    · exact h.data.home b (hlh ▸ hb)
    · have hb' : b ∈ g.log.lh := hb
      rw [hlh] at hb'
      exact absurd hb' (List.not_mem_nil)
  room := by
    show g.log.lh.length < A.size
    rcases hlh with hlh | hlh
    · rw [hlh]
      exact h.data.room
    · rw [hlh]
      exact A.size_pos
  all := hall

/-- A step of the protocol by a process that is not in `commit` afterwards. -/
theorem protocol_quiet (hlh : g.log.lh = s.group.log.lh)
    (hpc : ∀ j stage, g.pc j = .commit stage → s.group.pc j = .commit stage) :
    CommitInv A disk₀ (s.protocol g) where
  assert j stage hj := by
    have hj' := hpc j stage hj
    have hloc : (s.protocol g).loc j = s.loc j := protocol_same (hj.trans hj'.symm)
    rw [hloc]
    refine (h.commit.assert j stage hj').stable h.data hlh rfl (fun _ _ => rfl)
      (fun _ _ hb => hb) ?_ ?_ fun _ _ => ⟨rfl, rfl⟩
    · rw [hloc]
    · rw [hloc]
  follows j stage hj := by
    have hj' := hpc j stage hj
    have hloc : (s.protocol g).loc j = s.loc j := protocol_same (hj.trans hj'.symm)
    rw [hloc]
    show Follows A g.log.lh (s.loc j)
    rw [hlh]
    exact h.commit.follows j stage hj'
  outside j hj := by
    by_cases heq : g.pc j = s.group.pc j
    · rw [protocol_same heq]
      exact h.commit.outside j fun stage hs => hj stage (heq.trans hs)
    · rw [protocol_entry heq]
      exact entry_done hj

/-- A process enters a stage of `commit`, and no other process is in `commit`. -/
theorem protocol_enter {stage : Stage} (hi : g.pc i = .commit stage) (hne : g.pc i ≠ s.group.pc i)
    (hone : ∀ j stage, j ≠ i → s.group.pc j ≠ .commit stage)
    (hother : ∀ j, j ≠ i → g.pc j = s.group.pc j) (hidle : (s.loc i).busy = .idle)
    (hassert : Assert A disk₀ (s.protocol g) i stage (Pos.entry (.commit stage))) :
    CommitInv A disk₀ (s.protocol g) := by
  have hcommit : ∀ j stage', g.pc j = .commit stage' → j = i := by
    intro j stage' hj
    by_contra hji
    rw [hother j hji] at hj
    exact hone j stage' hji hj
  refine ⟨fun j stage' hj => ?_, fun j stage' hj => ?_, fun j hj => ?_⟩
  · obtain rfl := hcommit j stage' hj
    have hstage : stage' = stage := by
      have := hi.symm.trans hj
      cases this
      rfl
    rw [protocol_entry hne, hi, hstage]
    exact hassert
  · obtain rfl := hcommit j stage' hj
    unfold Follows
    rw [(s.protocol_loc g j).1, hidle]
    trivial
  · have hji : j ≠ i := by
      rintro rfl
      exact hj stage hi
    rw [protocol_same (hother j hji)]
    exact h.commit.outside j fun stage' => hone j stage' hji

/-- A step of a process outside `commit` that leaves the header alone. -/
theorem protocol_stay {c : Pc} (hgroup : GroupInv (g.setPc i c))
    (hlh : g.log.lh = s.group.log.lh) (hcom : g.log.committing = s.group.log.committing)
    (hc : ∀ stage, c ≠ .commit stage)
    (hpc : ∀ j stage, g.pc j = .commit stage → s.group.pc j = .commit stage) :
    CacheInv A disk₀ (s.protocol (g.setPc i c)) := by
  refine ⟨hgroup, h.buf.protocol _, h.protocol_data (.inl hlh) fun hfalse => ?_,
    h.protocol_quiet hlh fun j stage hj => hpc j stage (System.of_setPc hj (hc stage)).2⟩
  refine pinsFrom_zero.mpr ?_
  show ∀ b, b ∈ s.pins ↔ b ∈ g.log.lh
  rw [hlh]
  exact pinsFrom_zero.mp (h.data.all (hcom.symm.trans hfalse))

theorem protocol_advance {stage stage' : Stage}
    (hi : s.group.pc i = .commit stage) (hgroup : GroupInv (g.setPc i (.commit stage')))
    (hpc : g.pc = s.group.pc) (hne : stage' ≠ stage)
    (hlh : g.log.lh = s.group.log.lh ∨ g.log.lh = [])
    (hcom : g.log.committing = s.group.log.committing)
    (hend : (g.setPc i (.commit stage')).pc i ≠ s.group.pc i →
      (s.loc i).busy = .idle ∧ (s.loc i).pos.call A s.group.log.lh = none)
    (hassert : Achieved A disk₀ s stage →
      Assert A disk₀ (s.protocol (g.setPc i (.commit stage'))) i stage'
        (Pos.entry (.commit stage'))) :
    CacheInv A disk₀ (s.protocol (g.setPc i (.commit stage'))) := by
  have hi' : (g.setPc i (.commit stage')).pc i = .commit stage' := update_self ..
  obtain ⟨hidle, hnone⟩ := hend (by rw [hi, hi']; simpa using hne)
  have hassert := hassert ((h.commit.assert i stage hi).ends hnone)
  refine ⟨hgroup, h.buf.protocol _, h.protocol_data hlh fun hfalse => ?_,
    h.protocol_enter hi' (by rw [hi, hi']; simpa using hne)
      (fun j _ hji hj => hji (h.group.one j i _ _ hj hi)) (fun j hj => ?_) hidle hassert⟩
  · have := hcom.symm.trans hfalse
    rw [h.group.committer i stage hi] at this
    exact absurd this (by decide)
  · rw [← hpc]
    exact update_of_ne hj ..

theorem protocol (hstep : Step A.size (fun _ => True) s.group g)
    (hw : g.hist.writes = s.group.hist.writes)
    (hcall : ∀ j, s.group.pc j = .inside → g.pc j ≠ .inside → (s.loc j).busy = .idle)
    (hend : ∀ j stage, s.group.pc j = .commit stage → g.pc j ≠ s.group.pc j →
      (s.loc j).busy = .idle ∧ (s.loc j).pos.call A s.group.log.lh = none) :
    CacheInv A disk₀ (s.protocol g) := by
  have hgroup := h.group.step hstep
  cases hstep with
  | call i hi => exact h.protocol_stay hgroup rfl rfl (by simp) fun _ _ hj => hj
  | enter i hi hr =>
    obtain ⟨-, -, rfl⟩ := beginRound_true hr
    exact h.protocol_stay hgroup rfl rfl (by simp) fun _ _ hj => hj
  | sleep i hi hr =>
    obtain ⟨rfl, -⟩ := beginRound_false hr
    exact h.protocol_stay hgroup rfl rfl (by simp) fun _ _ hj => hj
  | rouse i hi => exact h.protocol_stay hgroup rfl rfl (by simp) fun _ _ hj => hj
  | write i b hi _ hr =>
    have hlen := congrArg List.length hw
    simp [System.record] at hlen
  | leave i hi hr =>
    obtain ⟨-, -, rfl⟩ := endOp_ok hr
    exact h.protocol_stay hgroup rfl rfl (by simp) fun j stage hj =>
      (GroupInv.wakeup_pc _ (by simp) (by simp)).mp hj
  | close i hi hr =>
    -- the last operation has ended, and nobody commits yet
    obtain ⟨hc, -, rfl⟩ := endOp_ok hr
    have hself : (System.setPc { s.group with log := { s.group.log with
        outstanding := 0, committing := true } } i (.commit .check)).pc i = .commit .check :=
      update_self ..
    have hall := h.data.all hc
    refine ⟨hgroup, h.buf.protocol _, h.protocol_data (.inl rfl) fun hfalse => ?_,
      h.protocol_enter hself (by rw [hself, hi]; simp) (fun j stage _ hj => ?_)
        (fun j hj => update_of_ne hj ..) (hcall i hi (by rw [hself]; simp)) hall⟩
    · exact absurd (show true = false from hfalse) (by decide)
    · exact absurd hj (h.group.no_commit hc j stage)
  | check i hi =>
    refine h.protocol_advance hi hgroup rfl (by split <;> simp) (.inl rfl) rfl (hend i _ hi) ?_
    intro hA
    split
    · exact ⟨hA, Nat.zero_le _, fun u hu => absurd hu (Nat.not_lt_zero u)⟩
    · -- there is nothing to commit
      rename_i hlen
      refine Finset.eq_empty_of_forall_notMem fun b hb => ?_
      obtain ⟨u, -, hu, -⟩ := (hA b).mp hb
      omega
  | writeLog i hi =>
    exact h.protocol_advance hi hgroup rfl (by decide) (.inl rfl) rfl (hend i _ hi) id
  | writeHead i hi =>
    exact h.protocol_advance hi hgroup rfl (by decide) (.inl rfl) rfl (hend i _ hi)
      fun hA => ⟨hA.1, Nat.zero_le _, hA.2⟩
  | install i hi =>
    exact h.protocol_advance hi hgroup rfl (by decide) (.inl rfl) rfl (hend i _ hi) id
  | clear i hi =>
    exact h.protocol_advance hi hgroup rfl (by decide) (.inr rfl) rfl (hend i _ hi) id
  | eraseHead i hi =>
    exact h.protocol_advance hi hgroup rfl (by decide) (.inl rfl) rfl (hend i _ hi) id
  | finish i hi =>
    -- the header is empty and no block is pinned
    have hnext := hend i _ hi (by simp [System.setPc, hi])
    have hpins : s.pins = ∅ := (h.commit.assert i _ hi).ends hnext.2
    have hlh := h.group.cleared i (.inr hi)
    refine ⟨hgroup, h.buf.protocol _, h.protocol_data (.inl rfl) fun _ => ?_,
      h.protocol_quiet rfl fun j stage hj => ?_⟩
    · refine pinsFrom_zero.mpr fun b => ?_
      show b ∈ s.pins ↔ b ∈ s.group.log.lh
      simp [hpins, hlh]
    · exact (GroupInv.of_wakeup hj (by simp) (by simp) (by simp)).2

/-! ### Runs -/

omit h in
theorem init (disk₀ : Nat → Block) : CacheInv A disk₀ (CacheSystem.init disk₀ : CacheSystem ι) where
  group := GroupInv.init
  buf := BufInv.init disk₀
  data :=
    { clean := by simp [CacheSystem.init, binit, Bcache.zero]
      disk := fun _ _ => rfl
      home := by simp [CacheSystem.init, System.init]
      room := A.size_pos
      all := fun _ => pinsFrom_zero.mpr (by simp [CacheSystem.init, System.init]) }
  commit :=
    { assert := by simp [CacheSystem.init, System.init]
      follows := by simp [CacheSystem.init, System.init]
      outside := fun _ _ => rfl }

/-- **Every step keeps the invariant.** -/
theorem step {s' : CacheSystem ι} (hstep : CacheStep A s s') : CacheInv A disk₀ s' := by
  cases hstep with
  | protocol hg hw hcall hend => exact h.protocol hg hw hcall hend
  | lookup i hidle hmay hr => exact h.lookup hidle hmay (bgetSlot_ok h.buf.linked hr)
  | acquire i hbusy hfree => exact h.acquire hbusy hfree
  | fill i hbusy => exact h.fill hbusy
  | modify i k x hidle hout hown => exact h.modifyBuf hidle hout hown
  | copy i k k' hidle hin hk hk' hmay => exact h.copy hidle hin hk hk' hmay
  | install i k k' hidle hin hk hk' hmay => exact h.installBuf hidle hin hk hk' hmay
  | store i k hidle hin hk _ hmay => exact h.store hidle hin hk hmay
  | bwrite i k hidle hown hmay hdirty => exact h.bwriteBuf hidle hown hmay hdirty
  | logWrite i k hidle hin hown hhome hr => exact h.logWriteBuf hidle hin hown hhome hr
  | unpin i k hidle hin hk hmay => exact h.unpinBuf hidle hin hk hmay
  | release i k hidle hown hclean hmay => exact h.release hidle hown hclean hmay
  | drop i hbusy => exact h.drop hbusy

end

/-- **Every reachable state satisfies the invariant.** -/
theorem reachable (h : CacheReachable A disk₀ s) : CacheInv A disk₀ s := by
  induction h with
  | refl => exact init disk₀
  | tail _ hstep ih => exact ih.step hstep

end CacheInv

/-! ## What the cache guarantees -/

section Coherent

variable [DecidableEq ι] {A : LogArea} {disk₀ : Nat → Block} {s s' : CacheSystem ι}

/-- **A buffer in use is not recycled.** -/
theorem CacheStep.sameName [Fintype ι] (h : CacheInv A disk₀ s) (hstep : CacheStep A s s')
    {k : Fin nbuf} (hpos : 0 < (s.bc.buf k).refcnt) : SameName s.bc s'.bc k := by
  cases hstep with
  | protocol => exact ⟨rfl, rfl⟩
  | @lookup i b j c hidle hmay hr =>
    rcases bgetSlot_ok h.buf.linked hr with ⟨-, -, rfl⟩ | ⟨-, h0, rfl⟩
    · refine SameName.setBuf ?_ ?_ k <;> rfl
    · -- the recycled buffer is another one
      have hne : k ≠ j := by
        rintro rfl
        omega
      exact ⟨by rw [CacheSystem.lookup, CacheSystem.setLoc_bc, Bcache.setBuf_of_ne hne],
        by rw [CacheSystem.lookup, CacheSystem.setLoc_bc, Bcache.setBuf_of_ne hne]⟩
  | acquire => refine SameName.setBuf ?_ ?_ k <;> rfl
  | fill i hbusy =>
    show SameName s.bc (s.bc.fill s.disk _) k
    unfold Bcache.fill
    split
    · exact ⟨rfl, rfl⟩
    · refine SameName.setBuf ?_ ?_ k <;> rfl
  | modify => refine SameName.setBuf ?_ ?_ k <;> rfl
  | copy => refine SameName.setBuf ?_ ?_ k <;> rfl
  | install => refine SameName.setBuf ?_ ?_ k <;> rfl
  | store => refine SameName.setBuf ?_ ?_ k <;> rfl
  | bwrite i k' =>
    unfold SameName
    rw [(s.bwriteBuf_touches i k').2.2.1]
    exact ⟨rfl, rfl⟩
  | logWrite i k' =>
    show SameName s.bc (if (s.bc.buf k').blockno ∈ s.group.log.lh then s.bc else s.bc.bpin k') k
    split
    · exact ⟨rfl, rfl⟩
    · refine SameName.setBuf ?_ ?_ k <;> rfl
  | unpin => refine SameName.setBuf ?_ ?_ k <;> rfl
  | release => refine SameName.setBuf ?_ ?_ k <;> rfl
  | drop i hbusy =>
    unfold SameName
    rw [CacheSystem.drop, CacheSystem.setLoc_bc, Bcache.brelseDrop_buf]
    refine SameName.setBuf ?_ ?_ k <;> rfl

/-- **Buffer cache coherence.**  In every reachable state: the ring holds every buffer exactly once,
in both directions; no block of the device has two buffers; the buffers that a process waits for or
holds and those of the log count as used, and no step recycles a buffer in use; a `bget` ends, at
worst for want of buffers; and a `bread` that gets its lock returns the buffer of the block, locked,
with the contents of the latest modification that was logged or written. -/
theorem cache_coherent [Fintype ι] (h : CacheReachable A disk₀ s) :
    (∃ l : List (Fin nbuf), l.Nodup ∧ l.length = nbuf ∧ (∀ k, k ∈ l) ∧
      List.iterate s.bc.ring.next (s.bc.ring.next none) (nbuf + 1) = l.map some ++ [none] ∧
      List.iterate s.bc.ring.prev (s.bc.ring.prev none) (nbuf + 1) = l.reverse.map some ++ [none]) ∧
    (∀ k k', (s.bc.buf k).dev = rootdev → (s.bc.buf k').dev = rootdev →
      (s.bc.buf k).blockno = (s.bc.buf k').blockno → k = k') ∧ (∀ k, (∃ i, 0 < (s.loc i).uses k) ∨
      (s.bc.buf k).dev = rootdev ∧ (s.bc.buf k).blockno ∈ s.pins → 0 < (s.bc.buf k).refcnt) ∧
    (∀ s', CacheStep A s s' → ∀ k, 0 < (s.bc.buf k).refcnt → SameName s.bc s'.bc k) ∧
    (∀ b, (∃ k c, bgetSlot rootdev b s.bc = .ok k c) ∨
      ∃ c, bgetSlot rootdev b s.bc = .error .noBuffers c) ∧
    ∀ i k b, (s.loc i).busy = .filling k b → CacheStep A s (s.fill i k) ∧
      ((s.fill i k).bc.buf k).dev = rootdev ∧ ((s.fill i k).bc.buf k).blockno = b ∧
      ((s.fill i k).bc.buf k).owner = some i ∧ ((s.fill i k).bc.buf k).valid = true ∧
      ((s.fill i k).bc.buf k).data = s.latest disk₀ b := by
  have hinv := CacheInv.reachable h
  refine ⟨?_, hinv.buf.name.unique, ?_, fun s' hstep k hpos => hstep.sameName hinv hpos, ?_, ?_⟩
  · obtain ⟨l, hl, hall⟩ := hinv.buf.linked
    have hlen := length_of_all hl.nodup hall
    refine ⟨l, hl.nodup, hlen, hall, ?_, ?_⟩
    · have := hl.iterate_next
      rwa [hlen] at this
    · have := hl.iterate_prev
      rwa [hlen] at this
  · rintro k (⟨i, hi⟩ | ⟨hdev, hpin⟩)
    · exact hinv.buf.count.pos_of_uses hi
    · exact hinv.buf.count.pos_of_pin hdev hpin
  · intro b
    have hspec : wp (bgetSlot rootdev b) (fun k c => Got rootdev b k s.bc c)
        (fun e _ => e = .noBuffers) s.bc := bgetSlot_spec hinv.buf.linked
    cases hr : bgetSlot rootdev b s.bc with
    | ok k c => exact .inl ⟨k, c, rfl⟩
    | error e c =>
      obtain rfl : e = .noBuffers := (wp_error hr).mp hspec
      exact .inr ⟨c, rfl⟩
  · intro i k b hbusy
    have hfilled := hinv.fill hbusy
    have hmem : k ∈ ((s.fill i k).loc i).holds := by
      simp [CacheSystem.fill]
    obtain ⟨hdev, hvalid⟩ := hfilled.buf.name.held i k hmem
    have hstep : CacheStep A s (s.fill i k) := .fill i hbusy
    obtain ⟨-, hblock⟩ := hinv.buf.name.named i k b (.inr hbusy)
    have hpos := hinv.buf.count.pos_of_uses (BufInv.uses_of_busy (.inr hbusy))
    refine ⟨hstep, hdev, ?_, (hfilled.buf.lock.owner k i).mpr (.inl hmem), hvalid, ?_⟩
    · rw [(hstep.sameName hinv hpos).2, hblock]
    · rw [hinv.fill_data hbusy, hblock]

end Coherent

/-- The log of a disk made by `mkfs`. -/
def sampleLog : LogArea := ⟨2, 30, by decide, by decide⟩

/-- One process modifies block 50, logs it and releases it, and the other one reads it. -/
def readAfterLog {ι : Type} (i j : ι) : List (ι × Act) :=
  [(i, .go), (i, .go), (i, .bread 50), (i, .go), (i, .go), (i, .modify 50 fun _ => 7), (i, .log 50),
    (i, .brelse 50), (i, .go), (j, .go), (j, .go), (j, .bread 50), (j, .go)]

/-- The other one gets what was logged, which is not on the disk yet. -/
theorem readAfterLog_coherent :
    ∃ (s : CacheSystem (Fin 2)) (k : Fin nbuf), CacheReachable sampleLog (fun b _ => b) s ∧
      (s.loc 1).busy = .filling k 50 ∧ s.disk 50 = (fun _ => 50) ∧
      ((s.fill 1 k).bc.buf k).data = fun _ => 7 := by
  let s : CacheSystem (Fin 2) :=
    Schedule.play (CacheSystem.act sampleLog) (.init fun b _ => b) (readAfterLog 0 1)
  have hs : CacheReachable sampleLog (fun b _ => b) s :=
    Schedule.play_reaches (fun h => (CacheSystem.act_step h).1) ..
  obtain ⟨k, hbusy⟩ : ∃ k, (s.loc 1).busy = .filling k 50 := by decide +kernel
  have hdisk : s.disk 50 = fun _ => 50 := by decide +kernel
  have hlatest : s.latest (fun b _ => b) 50 = fun _ => 7 := by decide +kernel
  obtain ⟨-, -, -, -, -, hfill⟩ := cache_coherent hs
  obtain ⟨-, -, -, -, -, hdata⟩ := hfill 1 k 50 hbusy
  exact ⟨s, k, hs, hbusy, hdisk, hdata.trans hlatest⟩

end Xv6Paging
