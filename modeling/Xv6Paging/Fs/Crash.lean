import Xv6Paging.Fs.Coherence

/-!
# Crashes of the running file system

`Log.Redo` cuts a `commit` that runs alone.  Here the power fails in any state of any run of the
processes that use the buffer cache: with operations under way, buffers modified, and a commit at
any of its places.  The buffers are lost, and recovery is cut as often as one likes.

What recovery finds changes at one write only, that of the header in the first `write_head` of a
commit.  Before it the home blocks are those of the commit before; after it they are the latest
ones, whatever `install_trans` has written so far.  The invariant carries the state `s₀` of the last
such write along the run: no operation is under way in it, so each one is in it as a whole or not at
all.
-/

namespace Xv6Paging

open StateHalt LinkedRing
open Function (update update_of_ne update_self)

variable {ι : Type}

/-! ## The runs -/

section Definitions

variable [DecidableEq ι] (A : LogArea) (disk₀ : Nat → Block)

/-- A step of the kernel.  Only `log.c` calls `bwrite`, so that of another process has no effect,
and block numbers are of type `uint`. -/
structure LoggedStep (s s' : CacheSystem ι) : Prop where
  step : CacheStep A s s'
  only : ∀ i k, s.Outside i → s' = s.bwriteBuf i k → s'.disk = s.disk ∧ s'.mods = s.mods
  fits : ∀ b ∈ s'.group.log.lh, b < 2 ^ 32

/-- The states of the runs of the kernel. -/
def LoggedReachable : CacheSystem ι → Prop :=
  Relation.ReflTransGen (LoggedStep A) (CacheSystem.init disk₀)

end Definitions

/-! ## The phases of a commit -/

/-- What the header on the disk says while a commit runs: nothing yet, the transaction, or nothing
any more. -/
inductive Phase
  | before | sealed | after
deriving DecidableEq

/-- The phase of a place in `commit`. -/
def phase : Stage → Pos → Phase
  | .writeHead, .head .drop | .writeHead, .done | .install, _ | .clear, _ => .sealed
  | .eraseHead, .head .drop | .eraseHead, .done | .finish, _ => .after
  | .eraseHead, _ => .sealed
  | _, _ => .before

/-- The phase at the end of a stage. -/
def Stage.phase : Stage → Phase
  | .check | .writeLog => .before
  | .writeHead | .install | .clear => .sealed
  | .eraseHead | .finish => .after

/-- A commit is in the phase `p`. -/
def CacheSystem.In (s : CacheSystem ι) (p : Phase) : Prop :=
  ∃ i stage, s.group.pc i = .commit stage ∧ phase stage (s.loc i).pos = p

/-- Calls that neither write a block nor store the header. -/
def Call.Plain : Call → Prop
  | .bwrite _ | .store => False
  | _ => True

section Phases

variable {A : LogArea} {disk₀ : Nat → Block} {s s' : CacheSystem ι} {i : ι} {stage : Stage}
  {pos : Pos} {p : Phase}

/-- The phase changes when a block is written, and at no other call. -/
theorem Pos.plain {lh : List Nat} {c : Call} (h : pos.call A lh = some c) (hc : c.Plain) :
    (∀ stage, Xv6Paging.phase stage pos.next = Xv6Paging.phase stage pos) ∧ pos ≠ .head .write ∧
      pos.next ≠ .head .write := by
  have hplace : (∀ b, pos.call A lh ≠ some (.bwrite b)) ∧ pos.call A lh ≠ some .store := by
    rw [h]
    refine ⟨fun b hb => ?_, fun hb => ?_⟩ <;> cases hb <;> exact hc
  cases pos with
  | head place =>
    cases place with
    | store => exact absurd rfl hplace.2
    | write => exact absurd rfl (hplace.1 A.start)
    | _ => exact ⟨fun stage => by cases stage <;> rfl, by simp, by simp [Pos.next]⟩
  | done => exact ⟨fun _ => rfl, by simp, by simp [Pos.next]⟩
  | _ t place =>
    exact ⟨fun stage => by cases place <;> cases stage <;> rfl, by simp,
      by cases place <;> simp [Pos.next]⟩

theorem LogArea.ne_start (A : LogArea) {b : Nat} (hb : ¬A.Contains b) : b ≠ A.start :=
  fun h => hb (h ▸ A.contains_start)

theorem Pos.entry_ne (c : Pc) : Pos.entry c ≠ .head .write := by
  cases c with
  | commit stage => cases stage <;> simp [Pos.entry]
  | _ => simp [Pos.entry]

theorem Assert.phase_end (h : Assert A disk₀ s i stage pos)
    (hend : pos.call A s.group.log.lh = none) : phase stage pos = stage.phase := by
  rcases Pos.makes hend with ⟨t, -, rfl⟩ | ⟨t, -, rfl⟩ | rfl
  · obtain rfl := h.writeLog_stage
    rfl
  · obtain rfl := h.install_stage
    rfl
  · cases stage <;> rfl

/-- There is one committer, and the phase is that of its place. -/
theorem CacheSystem.in_iff (hg : GroupInv s.group) (hi : s.group.pc i = .commit stage) :
    s.In p ↔ phase stage (s.loc i).pos = p := by
  refine ⟨?_, fun h => ⟨i, stage, hi, h⟩⟩
  rintro ⟨j, stage', hj, h⟩
  obtain rfl := hg.one j i _ _ hj hi
  cases hi.symm.trans hj
  exact h

end Phases

/-! ## The invariant -/

/-- The header with the blocks `lh`, as `write_head` stores it. -/
def headerOf (lh : List Nat) : LogHeader := ⟨lh.length, fun j => BitVec.ofNat 32 (lh.getD j 0)⟩

section Invariant

variable (A : LogArea) (disk₀ : Nat → Block) (s₀ s : CacheSystem ι)

/-- The buffer of the header that the process `i` holds has the header in it. -/
def HeadStored (i : ι) : Prop := ∀ k ∈ (s.loc i).holds, (s.bc.buf k).blockno = A.start →
  ∃ x, (s.bc.buf k).data = storeHead (headerOf s.group.log.lh) x

/-- The transaction `t` is in the log on the disk.  With it the home blocks are those of `s₀`, and
these are still the latest. -/
structure Logged (t : List (BitVec 32)) (home new : Nat → Block) : Prop where
  admits : A.Admits t
  pending : Pending A home t new s.disk
  installs : ∀ b, ¬A.Contains b → installed home t new b = s₀.latest disk₀ b
  latest : ∀ b, ¬A.Contains b → s₀.latest disk₀ b = s.latest disk₀ b
  listed : s.group.log.lh = t.map BitVec.toNat ∨ s.group.log.lh = []

/-- **What a crash leaves**: the home blocks of `s₀`, by themselves or with the log.  What was
logged since waits for a commit. -/
structure CrashInv : Prop where
  clean : ¬s.In .sealed → Clean A (s₀.latest disk₀) s.disk
  pending : s.In .sealed → ∃ t home new, Logged A disk₀ s₀ s t home new
  header : ∀ i, (s.loc i).pos = .head .write → HeadStored A s i
  since : ∀ w ∈ s.group.hist.writes, w ∈ s₀.group.hist.writes ∨
    w.2.2 = s.group.hist.commits ∧ ¬s.In .sealed ∧ ¬s.In .after

end Invariant

open CacheSystem (in_iff stage_of_not_outside)

namespace CrashInv

variable [DecidableEq ι] [Fintype ι] {A : LogArea} {disk₀ : Nat → Block} {s₀ s s' : CacheSystem ι}
  {i : ι} {k : Fin nbuf} {stage : Stage} {l : Local} {g : System ι}

section

variable (h : CrashInv A disk₀ s₀ s) (hc : CacheInv A disk₀ s)
include h

omit [DecidableEq ι] [Fintype ι] in
/-- A step that leaves the disk alone, and what is logged on it. -/
theorem keep (hdisk : s'.disk = s.disk) (hin : s'.In .sealed ↔ s.In .sealed)
    (hmods : s.In .sealed → s'.mods = s.mods)
    (hlh : s.In .sealed → s'.group.log.lh = s.group.log.lh ∨ s'.group.log.lh = [])
    (hheader : ∀ i, (s'.loc i).pos = .head .write → HeadStored A s' i)
    (hsince : ∀ w ∈ s'.group.hist.writes, w ∈ s₀.group.hist.writes ∨
      w.2.2 = s'.group.hist.commits ∧ ¬s'.In .sealed ∧ ¬s'.In .after) : CrashInv A disk₀ s₀ s' := by
  refine ⟨fun hs => ?_, fun hs => ?_, hheader, hsince⟩
  · rw [hdisk]
    exact h.clean (hs ∘ hin.mpr)
  · have hs := hin.mp hs
    obtain ⟨t, home, new, hl⟩ := h.pending hs
    refine ⟨t, home, new, hl.admits, hdisk ▸ hl.pending, hl.installs, fun b hb => ?_, ?_⟩
    · rw [latest_congr (hmods hs), hl.latest b hb]
    · rcases hlh hs with hlh | hlh
      · rw [hlh]
        exact hl.listed
      · exact .inr hlh

/-! ### Steps at one buffer -/

/-- The step of the process `i` leaves the contents of the buffer `k` alone if another process holds
it. -/
def Spares (s s' : CacheSystem ι) (i : ι) (k : Fin nbuf) : Prop :=
  ∀ j, j ≠ i → k ∈ (s.loc j).holds →
    (s'.bc.buf k).blockno = (s.bc.buf k).blockno ∧ (s'.bc.buf k).data = (s.bc.buf k).data

section Touch

variable (ht : Touches s s' i l k) (hgroup : s'.group = s.group) (hmods : s'.mods = s.mods)
  (hdisk : s'.disk = s.disk)
include ht hgroup hmods hdisk

omit [DecidableEq ι] [Fintype ι] in
/-- A step of the process `i` at the buffer `k` that keeps the phase. -/
theorem touch (hphase : ∀ stage, s.group.pc i = .commit stage →
      phase stage l.pos = phase stage (s.loc i).pos)
    (hhead : l.pos = .head .write → HeadStored A s' i)
    (hbuf : Spares s s' i k) : CrashInv A disk₀ s₀ s' := by
  have hin : ∀ p, s'.In p ↔ s.In p := by
    intro p
    rw [CacheSystem.In, hgroup]
    refine exists_congr fun j => exists_congr fun stage => and_congr_right fun hj => ?_
    by_cases hji : j = i
    · subst hji
      rw [ht.self, hphase stage hj]
    · rw [ht.loc j hji]
  refine h.keep hdisk (hin _) (fun _ => hmods) (fun _ => .inl (by rw [hgroup])) (fun j hj => ?_)
    fun w hw => ?_
  · by_cases hji : j = i
    · subst hji
      exact hhead (by rwa [ht.self] at hj)
    · -- the committer holds its buffer, so nobody else has changed it
      intro k' hk' hb
      rw [ht.loc j hji] at hj hk'
      rw [hgroup]
      by_cases hkk : k' = k
      · subst hkk
        obtain ⟨hblock, hdata⟩ := hbuf j hji hk'
        rw [hdata]
        exact h.header j hj k' hk' (hblock.symm.trans hb)
      · rw [ht.buf k' hkk] at hb ⊢
        exact h.header j hj k' hk' hb
  · rw [hgroup] at hw ⊢
    rw [hin, hin]
    exact h.since w hw

include hc

omit [DecidableEq ι] in
/-- A call that is plain if the committer makes it, or a part of one. -/
theorem plain (hpos : l.pos = (s.loc i).pos ∨ l.pos = (s.loc i).pos.next)
    (hcall : ∀ stage, s.group.pc i = .commit stage →
      ∃ c, (s.loc i).pos.call A s.group.log.lh = some c ∧ c.Plain)
    (hbuf : Spares s s' i k) : CrashInv A disk₀ s₀ s' := by
  have hplace : (∀ stage, s.group.pc i = .commit stage →
      phase stage l.pos = phase stage (s.loc i).pos) ∧ l.pos ≠ .head .write := by
    by_cases hout : s.Outside i
    · rw [hc.commit.outside i hout] at hpos
      have hdone : l.pos = .done := hpos.elim id id
      exact ⟨fun stage hi => absurd hi (hout stage), by simp [hdone]⟩
    · obtain ⟨stage, hi⟩ := stage_of_not_outside hout
      obtain ⟨c, hcall, hplain⟩ := hcall stage hi
      obtain ⟨h1, h2, h3⟩ := Pos.plain hcall hplain
      rcases hpos with hp | hp
      · rw [hp]
        exact ⟨fun _ _ => rfl, h2⟩
      · rw [hp]
        exact ⟨fun stage _ => h1 stage, h3⟩
  exact h.touch ht hgroup hmods hdisk hplace.1 (fun hw => absurd hw hplace.2) hbuf

omit [DecidableEq ι] in
theorem held (hpos : l.pos = (s.loc i).pos ∨ l.pos = (s.loc i).pos.next)
    (hk : k ∈ (s.loc i).holds) {c : Call} (hmay : s.Outside i ∨ s.May A i c) (hp : c.Plain) :
    CrashInv A disk₀ s₀ s' :=
  h.plain hc ht hgroup hmods hdisk hpos
    (fun stage hi => ⟨c, (hmay.resolve_left fun hout => hout stage hi).call_eq hi, hp⟩)
    fun _ hji hj => absurd (hc.buf.lock.holder_eq hj hk) hji

omit [DecidableEq ι] in
theorem busy (hpos : l.pos = (s.loc i).pos ∨ l.pos = (s.loc i).pos.next)
    (hbusy : (s.loc i).busy ≠ .idle)
    (hbuf : Spares s s' i k) : CrashInv A disk₀ s₀ s' := by
  refine h.plain hc ht hgroup hmods hdisk hpos (fun stage hi => ?_) hbuf
  have hf := hc.commit.follows i stage hi
  unfold Follows at hf
  split at hf
  · exact absurd ‹_› hbusy
  · exact ⟨_, hf, trivial⟩
  · exact ⟨_, hf, trivial⟩
  · obtain ⟨b, hb⟩ := hf
    exact ⟨_, hb, trivial⟩

end Touch

include hc

theorem store (hin : ¬s.Outside i) (hk : k ∈ (s.loc i).holds)
    (hb : (s.bc.buf k).blockno = A.start) (hmay : s.May A i .store) :
    CrashInv A disk₀ s₀
      (s.modifyBuf i k (storeHead (headerOf s.group.log.lh) (s.bc.buf k).data)) := by
  obtain ⟨stage, hi⟩ := stage_of_not_outside hin
  have hpos : (s.loc i).pos = .head .store := Pos.makes (hmay.call_eq hi)
  obtain ⟨ht, hbk⟩ := s.modifyBuf_touches i k
    (storeHead (headerOf s.group.log.lh) (s.bc.buf k).data)
  refine h.touch ht rfl rfl rfl (fun stage' _ => ?_) (fun _ k' hk' hb' => ?_) fun _ hji hj =>
    absurd (hc.buf.lock.holder_eq hj hk) hji
  · show phase stage' (s.loc i).pos.next = _
    rw [hpos]
    cases stage' <;> rfl
  · rw [ht.self] at hk'
    rw [ht.bufField Buf.blockno (by rw [hbk])] at hb'
    obtain rfl := hc.held_eq hk hk' (hb'.trans hb.symm)
    exact ⟨_, by rw [hbk]; rfl⟩

/-- `log_write`; an operation is under way, so nobody commits. -/
theorem logWrite {log : GroupLog} (hin : s.group.pc i = .inside) :
    CrashInv A disk₀ s₀ (s.logWriteBuf i k log) := by
  have hno := hc.group.no_commit (hc.group.not_committing hin)
  have hnot : ∀ p, ¬s.In p := fun p ⟨j, stage, hj, _⟩ => hno j stage hj
  have hnot' : ∀ p, ¬(s.logWriteBuf i k log).In p := fun p ⟨j, stage, hj, _⟩ => hno j stage hj
  obtain ⟨ht, -⟩ := s.logWriteBuf_touches i k log
  refine h.keep rfl (iff_of_false (hnot' _) (hnot _)) (absurd · (hnot _)) (absurd · (hnot _))
    (fun j hj => ?_) fun w hw => ?_
  · rw [ht.field Local.pos rfl, hc.commit.outside j (hno j)] at hj
    cases hj
  · rcases List.mem_cons.mp hw with rfl | hw
    · exact .inr ⟨rfl, hnot' _, hnot' _⟩
    · refine (h.since w hw).imp_right fun hw => ⟨hw.1, hnot' _, hnot' _⟩

/-! ### The writes of a commit -/

section Write

variable (hi : s.group.pc i = .commit stage) (hk : k ∈ (s.loc i).holds)
include hi hk

omit h hk in
theorem wrote {s₁ : CacheSystem ι} (hnext : (s.loc i).pos.next ≠ .head .write)
    (hclean : phase stage (s.loc i).pos.next ≠ .sealed →
      Clean A (s₁.latest disk₀) (update s.disk (s.bc.buf k).blockno (s.bc.buf k).data))
    (hpending : phase stage (s.loc i).pos.next = .sealed →
      ∃ t home new, Logged A disk₀ s₁ (s.bwriteBuf i k) t home new)
    (hsince : ∀ w ∈ s.group.hist.writes, w ∈ s₁.group.hist.writes ∨
      w.2.2 = s.group.hist.commits ∧ phase stage (s.loc i).pos.next = .before) :
    CrashInv A disk₀ s₁ (s.bwriteBuf i k) := by
  obtain ⟨ht, hgroup, -⟩ := s.bwriteBuf_touches i k
  have hin : ∀ p, (s.bwriteBuf i k).In p ↔ phase stage (s.loc i).pos.next = p := by
    intro p
    rw [in_iff (hgroup ▸ hc.group) (by rw [hgroup]; exact hi), ht.self]
  refine ⟨fun hs => hclean (mt (hin _).mpr hs), fun hs => hpending ((hin _).mp hs), fun j hj => ?_,
    fun w hw => ?_⟩
  · by_cases hji : j = i
    · rw [hji, ht.self] at hj
      exact absurd hj hnext
    · have hout : s.Outside j := fun stage' hj' => hji (hc.group.one j i _ _ hj' hi)
      rw [ht.loc j hji, hc.commit.outside j hout] at hj
      cases hj
  · rw [hgroup] at hw ⊢
    refine (hsince w hw).imp_right fun hn => ⟨hn.1, ?_⟩
    simp [hin, hn.2]

omit hk in
theorem bwrite_log {t : Nat} (hpos : (s.loc i).pos = .writeLog t .write)
    (hb : (s.bc.buf k).blockno = A.start + t + 1) : CrashInv A disk₀ s₀ (s.bwriteBuf i k) := by
  have hA := hc.commit.assert i stage hi
  rw [hpos] at hA
  obtain rfl := hA.writeLog_stage
  have hclean := h.clean (by rw [in_iff hc.group hi]; simp [phase])
  refine wrote hc hi (by simp [hpos, Pos.next]) (fun _ => ⟨?_, fun b hb' => ?_⟩)
    (fun hs => by simp [phase] at hs) fun w hw => (h.since w hw).imp_right fun hn => ⟨hn.1, rfl⟩
  · rw [update_of_ne (by omega)]
    exact hclean.header
  · rw [update_of_ne fun h => hb' (by rw [h, hb]; exact hc.data.logBlock hA.2.1)]
    exact hclean.blocks b hb'

/-- **The commit point**: the header is written, and from now on recovery finds the latest home
blocks. -/
theorem bwrite_seal (hpos : (s.loc i).pos = .head .write) (hstage : stage = .writeHead)
    (hb : (s.bc.buf k).blockno = A.start) (hfits : ∀ b ∈ s.group.log.lh, b < 2 ^ 32) :
    CrashInv A disk₀ s (s.bwriteBuf i k) := by
  subst hstage
  obtain ⟨hpins, hstaged⟩ : PinsFrom s 0 ∧ Staged A disk₀ s s.group.log.lh.length := by
    have hA := hc.commit.assert i _ hi
    rwa [hpos] at hA
  rw [pinsFrom_zero] at hpins
  obtain ⟨x, hx⟩ := h.header i hpos k hk hb
  -- the entries of the header are the blocks of the list
  have hnat : ∀ b ∈ s.group.log.lh, (BitVec.ofNat 32 b).toNat = b := fun b hb => by
    rw [BitVec.toNat_ofNat, Nat.mod_eq_of_lt (hfits b hb)]
  have hmap : (s.group.log.lh.map (BitVec.ofNat 32)).map BitVec.toNat = s.group.log.lh := by
    rw [List.map_map]
    exact (List.map_congr_left hnat).trans (List.map_id _)
  have hadmits : A.Admits (s.group.log.lh.map (BitVec.ofNat 32)) := by
    refine ⟨?_, fun y hy => ?_⟩
    · rw [List.length_map]
      exact Nat.le_sub_one_of_lt hc.data.room
    · obtain ⟨b, hb, rfl⟩ := List.mem_map.mp hy
      rw [hnat b hb]
      exact hc.data.home b hb
  have hholds : (headerOf s.group.log.lh).Holds (s.group.log.lh.map (BitVec.ofNat 32)) := by
    refine ⟨by simp [headerOf], fun j hj => ?_⟩
    rw [List.length_map] at hj
    simp [headerOf, hj]
  refine wrote hc hi (by simp [hpos, Pos.next]) (fun hs => absurd (by rw [hpos]; rfl) hs)
    (fun _ => ⟨_, s.disk, s.latest disk₀, hadmits, ⟨?_, fun j hj => ?_, fun j hj => ?_,
      fun b hb' _ => ?_⟩, fun b hb' => ?_, fun b hb' => ?_, .inl ?_⟩) fun w hw => .inl hw
  · show update s.disk _ _ A.start 0 = _
    rw [hb, update_self, hx, storeHead_zero hholds]
  · show update s.disk _ _ A.start _ = _
    rw [hb, update_self, hx, storeHead_entry hholds hadmits.length_le]
  · -- the log blocks were staged, and no log block is pinned
    have hj' : j < s.group.log.lh.length := by rwa [List.length_map] at hj
    show update s.disk _ _ (A.start + j + 1) = _
    rw [hb, update_of_ne (by omega), hc.data.disk, hstaged j hj']
    · simp [hj', hnat]
    · exact fun hp => hc.data.home _ ((hpins _).mp hp) (hc.data.logBlock hj')
  · show update s.disk _ _ b = _
    rw [hb, update_of_ne (A.ne_start hb')]
  · rw [installed]
    split
    · rfl
    · -- a block outside of the transaction is not pinned
      rename_i hx
      refine hc.data.disk b fun hp => hx ⟨_, List.mem_map_of_mem ((hpins b).mp hp), ?_⟩
      exact hnat b ((hpins b).mp hp)
  · rw [hc.bwriteBuf_latest hk, hb, if_neg (A.ne_start hb')]
  · rw [(s.bwriteBuf_touches i k).2.1, hmap]

/-- The last `write_head` empties the log of a transaction that is installed. -/
theorem bwrite_erase (hpos : (s.loc i).pos = .head .write) (hstage : stage = .eraseHead)
    (hb : (s.bc.buf k).blockno = A.start) : CrashInv A disk₀ s₀ (s.bwriteBuf i k) := by
  subst hstage
  have hpins : s.pins = ∅ := by
    have hA := hc.commit.assert i _ hi
    rwa [hpos] at hA
  obtain ⟨x, hx⟩ := h.header i hpos k hk hb
  have hs : s.In .sealed := (in_iff hc.group hi).mpr (by rw [hpos]; rfl)
  obtain ⟨t, home, new, hl⟩ := h.pending hs
  refine wrote hc hi (by simp [hpos, Pos.next]) (fun _ => ⟨?_, fun b hb' => ?_⟩)
    (fun hs' => by simp [hpos, Pos.next, phase] at hs') fun w hw => .inl ?_
  · rw [hb, update_self, hx, hc.group.cleared i (.inl hi)]
    rfl
  · rw [hb, update_of_ne (A.ne_start hb'), hc.data.disk b (by simp [hpins]), hl.latest b hb']
  · exact (h.since w hw).resolve_right fun hn => hn.2.1 hs

/-- `install_trans` writes a home block of the transaction. -/
theorem bwrite_install {t : Nat} (hpos : (s.loc i).pos = .install t .write)
    (hb : (s.bc.buf k).blockno = s.group.log.lh.getD t 0) :
    CrashInv A disk₀ s₀ (s.bwriteBuf i k) := by
  have hA := hc.commit.assert i stage hi
  rw [hpos] at hA
  obtain rfl := hA.install_stage
  obtain ⟨-, hlen, -, hcarries⟩ := hA
  have hs : s.In .sealed := (in_iff hc.group hi).mpr rfl
  obtain ⟨u, home, new, hl⟩ := h.pending hs
  have hu : s.group.log.lh = u.map BitVec.toNat :=
    hl.listed.resolve_right fun hnil => by simp [hnil] at hlen
  have htu : t < u.length := by simpa [hu] using hlen
  have hblock : (s.bc.buf k).blockno = (u.get ⟨t, htu⟩).toNat := by simp [hb, hu, htu]
  refine wrote hc hi (by simp [hpos, Pos.next]) (absurd rfl ·)
    (fun _ => ⟨u, home, new, hl.admits, ?_,
    hl.installs, fun b hb' => ?_, .inl ?_⟩) fun w hw => .inl ?_
  · show Pending A home u new (update s.disk _ _)
    rw [hblock]
    exact hl.pending.install hl.admits htu _
  · -- the block gets its latest contents
    rw [hl.latest b hb', hc.bwriteBuf_latest hk]
    split
    · rename_i hbk
      rw [hbk, hcarries k hk hb, hb]
    · rfl
  · rw [(s.bwriteBuf_touches i k).2.1, hu]
  · exact (h.since w hw).resolve_right fun hn => hn.2.1 hs

theorem bwrite (hfits : ∀ b ∈ s.group.log.lh, b < 2 ^ 32)
    (hcall : (s.loc i).pos.call A s.group.log.lh = some (.bwrite (s.bc.buf k).blockno)) :
    CrashInv A disk₀ s₀ (s.bwriteBuf i k) ∨ CrashInv A disk₀ s (s.bwriteBuf i k) := by
  rcases Pos.makes hcall with ⟨t, hpos, hb⟩ | ⟨hpos, hb⟩ | ⟨t, hpos, hb⟩
  · exact .inl (h.bwrite_log hc hi hpos hb)
  · have hA := hc.commit.assert i stage hi
    rw [hpos] at hA
    rcases hA.head_stage with hstage | hstage
    · exact .inr (h.bwrite_seal hc hi hk hpos hstage hb hfits)
    · exact .inl (h.bwrite_erase hc hi hk hpos hstage hb)
  · exact .inl (h.bwrite_install hc hi hk hpos hb)

end Write

/-! ### The logging protocol -/

omit [DecidableEq ι] in
/-- A step of the protocol in which the header stays for a committer that does. -/
theorem protocol_keep (hin : (s.protocol g).In .sealed ↔ s.In .sealed)
    (hlh : g.log.lh = s.group.log.lh ∨ g.log.lh = [] ∧
      ∀ j stage, s.group.pc j = .commit stage → g.pc j ≠ s.group.pc j)
    (hw : g.hist.writes = s.group.hist.writes)
    (hsince : ∀ w ∈ s.group.hist.writes, w.2.2 = s.group.hist.commits → ¬s.In .after →
      w.2.2 = g.hist.commits ∧ ¬(s.protocol g).In .after) :
    CrashInv A disk₀ s₀ (s.protocol g) := by
  refine h.keep rfl hin (fun _ => rfl) (fun _ => hlh.imp_right And.left)
    (fun j hj => ?_) fun w hw' => ?_
  · by_cases hpc : g.pc j = s.group.pc j
    · have hloc : (s.protocol g).loc j = s.loc j := protocol_same hpc
      rw [hloc] at hj
      have hlh' : g.log.lh = s.group.log.lh := by
        refine hlh.resolve_right fun hn => ?_
        by_cases hout : s.Outside j
        · rw [hc.commit.outside j hout] at hj
          cases hj
        · obtain ⟨stage, hs⟩ := stage_of_not_outside hout
          exact hn.2 j stage hs hpc
      intro k hk
      rw [hloc] at hk
      show _ → ∃ x, _ = storeHead (headerOf g.log.lh) x
      rw [hlh']
      exact h.header j hj k hk
    · rw [protocol_entry hpc] at hj
      exact absurd hj (Pos.entry_ne _)
  · have hw' : w ∈ s.group.hist.writes := hw ▸ hw'
    refine (h.since w hw').imp_right fun hn => ?_
    have hs := hsince w hw' hn.1 hn.2.2
    exact ⟨hs.1, mt hin.mp hn.2.1, hs.2⟩

theorem protocol_stay {c : Pc} (hout : s.Outside i) (hne : ∀ stage, c ≠ .commit stage)
    (hpc : ∀ j stage, g.pc j = .commit stage ↔ s.group.pc j = .commit stage)
    (hlh : g.log.lh = s.group.log.lh) (hw : g.hist.writes = s.group.hist.writes)
    (hn : g.hist.commits = s.group.hist.commits) :
    CrashInv A disk₀ s₀ (s.protocol (g.setPc i c)) := by
  have hpc' : ∀ j stage, (g.setPc i c).pc j = .commit stage ↔ s.group.pc j = .commit stage := by
    intro j stage
    by_cases hji : j = i
    · subst hji
      simp [hne, hout stage]
    · rw [System.setPc_of_ne _ _ hji, hpc]
  have hin : ∀ p, (s.protocol (g.setPc i c)).In p ↔ s.In p := by
    intro p
    refine exists_congr fun j => exists_congr fun stage => ?_
    show (g.setPc i c).pc j = .commit stage ∧ _ ↔ _
    rw [hpc']
    refine and_congr_right fun hj => ?_
    rw [protocol_same (((hpc' j stage).mpr hj).trans hj.symm)]
  exact h.protocol_keep hc (hin _) (.inl hlh) hw fun w _ h1 h3 =>
    ⟨h1.trans hn.symm, mt (hin _).mp h3⟩

/-- The committer goes from one stage to the next, which starts in the phase in which this one has
ended. -/
theorem protocol_advance {stage' : Stage} (hi : s.group.pc i = .commit stage)
    (hgroup : GroupInv (g.setPc i (.commit stage'))) (hne : stage' ≠ stage)
    (hend : (g.setPc i (.commit stage')).pc i ≠ s.group.pc i →
      (s.loc i).busy = .idle ∧ (s.loc i).pos.call A s.group.log.lh = none)
    (hphase : phase stage' (Pos.entry (.commit stage')) = stage.phase)
    (hlh : g.log.lh = s.group.log.lh ∨ g.log.lh = [])
    (hw : g.hist.writes = s.group.hist.writes) (hn : g.hist.commits = s.group.hist.commits) :
    CrashInv A disk₀ s₀ (s.protocol (g.setPc i (.commit stage'))) := by
  have hi' := g.setPc_self i (.commit stage')
  have hmoved : (g.setPc i (.commit stage')).pc i ≠ s.group.pc i := by
    rw [hi, hi']
    simpa using hne
  have hin : ∀ p, (s.protocol (g.setPc i (.commit stage'))).In p ↔ s.In p := by
    intro p
    rw [in_iff hgroup hi', in_iff hc.group hi, protocol_entry hmoved, hi',
      hphase, (hc.commit.assert i stage hi).phase_end (hend hmoved).2]
  refine h.protocol_keep hc (hin _) (hlh.imp_right fun hnil => ⟨hnil, fun j st hj => ?_⟩) hw
    fun w _ h1 h3 => ⟨h1.trans hn.symm, mt (hin _).mp h3⟩
  obtain rfl := hc.group.one j i _ _ hj hi
  exact hmoved

theorem protocol (hh : HistoryInv s.group) (hstep : Step A.size (fun _ => True) s.group g)
    (hw : g.hist.writes = s.group.hist.writes)
    (hend : ∀ j stage, s.group.pc j = .commit stage → g.pc j ≠ s.group.pc j →
      (s.loc j).busy = .idle ∧ (s.loc j).pos.call A s.group.log.lh = none) :
    CrashInv A disk₀ s₀ (s.protocol g) := by
  have hgroup := hc.group.step hstep
  have hout : ∀ {i c}, s.group.pc i = c → (∀ stage, c ≠ .commit stage) → s.Outside i :=
    fun hi hne stage => hi ▸ hne stage
  cases hstep with
  | call i hi =>
    exact h.protocol_stay hc (hout hi (by simp)) (by simp) (fun _ _ => .rfl) rfl rfl rfl
  | enter i hi hr =>
    obtain ⟨-, -, rfl⟩ := beginRound_true hr
    exact h.protocol_stay hc (hout hi (by simp)) (by simp) (fun _ _ => .rfl) rfl rfl rfl
  | sleep i hi hr =>
    obtain ⟨rfl, -⟩ := beginRound_false hr
    exact h.protocol_stay hc (hout hi (by simp)) (by simp) (fun _ _ => .rfl) rfl rfl rfl
  | rouse i hi =>
    exact h.protocol_stay hc (hout hi (by simp)) (by simp) (fun _ _ => .rfl) rfl rfl rfl
  | write i b hi _ hr =>
    have hlen := congrArg List.length hw
    simp [System.record] at hlen
  | leave i hi hr =>
    obtain ⟨-, -, rfl⟩ := endOp_ok hr
    exact h.protocol_stay hc (hout hi (by simp)) (by simp)
      (fun _ _ => GroupInv.wakeup_pc _ (by simp) (by simp)) rfl rfl rfl
  | close i hi hr =>
    -- nobody has committed, and the commit starts before its commit point
    obtain ⟨hcom, -, rfl⟩ := endOp_ok hr
    have hnot : ∀ p, ¬s.In p := by
      rintro p ⟨j, stage, hj, -⟩
      exact hc.group.no_commit hcom j stage hj
    refine h.protocol_keep hc (iff_of_false ?_ (hnot _)) (.inl rfl) rfl fun w _ h1 _ => ⟨h1, ?_⟩
    · rw [in_iff hgroup (System.setPc_self ..)]
      simp [phase]
    · rw [in_iff hgroup (System.setPc_self ..)]
      simp [phase]
  | check i hi =>
    by_cases hlen : s.group.log.lh.length > 0
    · rw [if_pos hlen] at hgroup hend ⊢
      exact h.protocol_advance hc hi hgroup (by decide) (hend i _ hi) rfl (.inl rfl) rfl rfl
    · -- nothing was logged for this commit
      rw [if_neg hlen] at hgroup ⊢
      have hi' := s.group.setPc_self i (.commit .finish)
      refine h.protocol_keep hc (iff_of_false ?_ ?_) (.inl rfl) rfl fun w hw' h1 _ => ?_
      · rw [in_iff hgroup hi']
        simp [phase]
      · rw [in_iff hc.group hi]
        simp [phase]
      · obtain ⟨o, b, c⟩ := w
        obtain rfl : c = s.group.hist.commits := h1
        rcases hh.due o b hw' with hb | ⟨⟨j, hj⟩, -⟩
        · exact absurd (List.length_pos_of_mem hb) hlen
        · rcases hj with hj | hj <;>
            (obtain rfl := hc.group.one j i _ _ hj hi; cases hj.symm.trans hi)
  | writeLog i hi =>
    exact h.protocol_advance hc hi hgroup (by decide) (hend i _ hi) rfl (.inl rfl) rfl rfl
  | writeHead i hi =>
    exact h.protocol_advance hc hi hgroup (by decide) (hend i _ hi) rfl (.inl rfl) rfl rfl
  | install i hi =>
    exact h.protocol_advance hc hi hgroup (by decide) (hend i _ hi) rfl (.inl rfl) rfl rfl
  | clear i hi =>
    exact h.protocol_advance hc hi hgroup (by decide) (hend i _ hi) rfl (.inr rfl) rfl rfl
  | eraseHead i hi =>
    exact h.protocol_advance hc hi hgroup (by decide) (hend i _ hi) rfl (.inl rfl) rfl rfl
  | finish i hi =>
    -- what was logged before is in `s₀`, and nobody commits any more
    have hnot : ∀ p, ¬(s.protocol (s.group.endCommit.wakeup.setPc i .outside)).In p := by
      rintro p ⟨j, stage, hj, -⟩
      obtain ⟨hji, hj'⟩ := GroupInv.of_wakeup hj (by simp) (by simp) (by simp)
      exact hji (hc.group.one j i _ _ hj' hi)
    refine h.protocol_keep hc (iff_of_false (hnot _) ?_) (.inl rfl) rfl fun w _ _ h3 => ?_
    · rw [in_iff hc.group hi]
      simp [phase]
    · exact absurd ((in_iff hc.group hi).mpr rfl) h3

/-- **Every step keeps the invariant**, for the same state or, at a commit point, for the present
one. -/
theorem step (hh : HistoryInv s.group) (hfits : ∀ b ∈ s.group.log.lh, b < 2 ^ 32)
    (hstep : LoggedStep A s s') :
    CrashInv A disk₀ s₀ s' ∨ s.group.log.outstanding = 0 ∧ CrashInv A disk₀ s s' := by
  obtain ⟨hstep, honly, -⟩ := hstep
  cases hstep with
  | protocol hg hw _ hend => exact .inl (h.protocol hc hh hg hw hend)
  | @lookup i b k c hidle hmay hr =>
    have hgot := bgetSlot_ok hc.buf.linked hr
    have hne : ∀ j, j ≠ k → c.buf j = s.bc.buf j := by
      intro j hj
      rcases hgot with ⟨-, -, rfl⟩ | ⟨-, -, rfl⟩
      · exact Bcache.setBuf_of_ne hj
      · exact Bcache.setBuf_of_ne hj
    refine .inl (h.plain hc (s.lookup_touches i k b hne) rfl rfl rfl (.inl rfl)
      (fun stage hi => ⟨_, hmay.call_eq hi, trivial⟩) fun j _ hj => ?_)
    show (c.buf k).blockno = _ ∧ (c.buf k).data = _
    rcases hgot with ⟨-, -, rfl⟩ | ⟨-, h0, rfl⟩
    · rw [Bcache.setBuf_self]
      exact ⟨rfl, rfl⟩
    · -- a recycled buffer is held by nobody
      have hpos := BufInv.uses_of_holds hj
      rw [hc.buf.unused h0 j] at hpos
      exact absurd hpos (Nat.lt_irrefl 0)
  | @acquire i k b hbusy hfree =>
    obtain ⟨ht, hbk⟩ := s.acquire_touches i k b
    exact .inl (h.busy hc ht rfl rfl rfl (.inl rfl) (by simp [hbusy]) fun _ _ _ => by simp [hbk])
  | @fill i k b hbusy =>
    refine .inl (h.busy hc (s.fill_touches i k).1 rfl rfl rfl (.inr rfl) (by simp [hbusy])
      fun j hji hj => ?_)
    -- the buffer is locked
    have hown := (hc.buf.lock.owner k i).mpr (.inr ⟨b, hbusy⟩)
    rw [(hc.buf.lock.owner k j).mpr (.inl hj)] at hown
    exact absurd (Option.some.inj hown) hji
  | modify i k x hidle hout hown =>
    exact .inl (h.held hc (s.modifyBuf_touches i k x).1 rfl rfl rfl (.inr rfl)
      (hc.buf.lock.holds_of_owner hown hidle) (c := .bread 0) (.inl hout) trivial)
  | copy i k k' hidle hin hk hk' hmay =>
    exact .inl (h.held hc (s.modifyBuf_touches i k _).1 rfl rfl rfl (.inr rfl) hk (.inr hmay)
      trivial)
  | install i k k' hidle hin hk hk' hmay =>
    exact .inl (h.held hc (s.installBuf_touches i k _).1 rfl rfl rfl (.inr rfl) hk (.inr hmay)
      trivial)
  | store i k hidle hin hk hb hmay => exact .inl (h.store hc hin hk hb hmay)
  | bwrite i k hidle hown hmay hdirty =>
    have hk := hc.buf.lock.holds_of_owner hown hidle
    by_cases hout : s.Outside i
    · obtain ⟨ht, hgroup, hbc, -⟩ := s.bwriteBuf_touches i k
      obtain ⟨hdisk, hmods⟩ := honly i k hout rfl
      exact .inl (h.plain hc ht hgroup hmods hdisk (.inr rfl)
        (fun stage hi => absurd hi (hout stage)) fun _ _ _ => by simp [hbc])
    · obtain ⟨stage, hi⟩ := stage_of_not_outside hout
      exact (h.bwrite hc hi hk hfits (hmay.call_eq hi)).imp_right fun h' =>
        ⟨hc.group.quiet (hc.group.committer i stage hi), h'⟩
  | logWrite i k hidle hin => exact .inl (h.logWrite hc hin)
  | unpin i k hidle hin hk hmay =>
    exact .inl (h.held hc (s.unpinBuf_touches i k).1 rfl rfl rfl (.inr rfl) hk (.inr hmay) trivial)
  | release i k hidle hown hclean hmay =>
    exact .inl (h.held hc (s.release_touches i k).1 rfl rfl rfl (.inl rfl)
      (hc.buf.lock.holds_of_owner hown hidle) (.inr hmay) trivial)
  | @drop i k hbusy =>
    obtain ⟨ht, hbk⟩ := s.drop_touches i k
    exact .inl (h.busy hc ht rfl rfl rfl (.inr rfl) (by simp [hbusy]) fun _ _ _ => by simp [hbk])

end

end CrashInv

/-! ## Crashes -/

section Crash

variable [DecidableEq ι] {A : LogArea} {disk₀ d : Nat → Block} {s s' : CacheSystem ι}

theorem CacheStep.group (h : CacheStep A s s') :
    s'.group = s.group ∨ Step A.size (fun _ => True) s.group s'.group := by
  cases h with
  | protocol hg => exact .inr hg
  | bwrite i k => exact .inl (s.bwriteBuf_touches i k).2.1
  | logWrite i k _ hin _ _ hr => exact .inr (.write i _ hin trivial hr)
  | _ => exact .inl rfl

theorem LoggedReachable.runs (h : LoggedReachable A disk₀ s) : CacheReachable A disk₀ s ∧
    System.Reachable A.size (fun _ => True) s.group ∧ ∀ b ∈ s.group.log.lh, b < 2 ^ 32 := by
  induction h with
  | refl => exact ⟨.refl, .refl, by simp [CacheSystem.init, System.init]⟩
  | tail _ hstep ih =>
    refine ⟨ih.1.tail hstep.step, ?_, hstep.fits⟩
    rcases hstep.step.group with hg | hg
    · rw [hg]
      exact ih.2.1
    · exact ih.2.1.tail hg

variable [Fintype ι]

/-- **What a crash leaves** at any point of a run. -/
theorem LoggedReachable.crash (hempty : disk₀ A.start 0 = 0#32) (h : LoggedReachable A disk₀ s) :
    ∃ s₀, LoggedReachable A disk₀ s₀ ∧ Relation.ReflTransGen (LoggedStep A) s₀ s ∧
      s₀.group.log.outstanding = 0 ∧ CrashInv A disk₀ s₀ s := by
  induction h with
  | refl =>
    have hnot : ∀ p, ¬(CacheSystem.init disk₀ : CacheSystem ι).In p := by
      rintro p ⟨j, stage, hj, -⟩
      cases hj
    refine ⟨_, .refl, .refl, rfl, fun _ => ⟨hempty, fun _ _ => rfl⟩, (absurd · (hnot _)),
      fun j hj => ?_, fun w hw => .inl hw⟩
    cases hj
  | @tail s s' hrun hstep ih =>
    obtain ⟨s₀, h₀, hs, hout, hinv⟩ := ih
    obtain ⟨hcache, hgroup, hfits⟩ := LoggedReachable.runs hrun
    rcases hinv.step (CacheInv.reachable hcache) (HistoryInv.reachable hgroup) hfits hstep with
      hinv' | ⟨hout', hinv'⟩
    · exact ⟨s₀, h₀, hs.tail hstep, hout, hinv'⟩
    · exact ⟨s, hrun, .single hstep, hout', hinv'⟩

/-- **The file system is crash consistent.**  The power fails in any state `s` of any run of the
kernel, and recovery is cut at any of its writes, again and again, until it ends.  Then the log is
empty, and the home blocks are the latest ones of a state `s₀` of this run in which no operation was
under way.  What was logged after `s₀` was logged for a commit that has not ended in `s`. -/
theorem crash_consistent (hempty : disk₀ A.start 0 = 0#32) (h : LoggedReachable A disk₀ s)
    (hr : Recovered A s.disk d) : d A.start 0 = 0#32 ∧
      ∃ s₀, LoggedReachable A disk₀ s₀ ∧ Relation.ReflTransGen (LoggedStep A) s₀ s ∧
        s₀.group.log.outstanding = 0 ∧ (∀ b, ¬A.Contains b → d b = s₀.latest disk₀ b) ∧
        ∀ o b c, (o, b, c) ∈ s.group.hist.writes → (o, b, c) ∉ s₀.group.hist.writes →
          c = s.group.hist.commits := by
  obtain ⟨s₀, h₀, hs, hout, hinv⟩ := h.crash hempty
  have hclean : Clean A (s₀.latest disk₀) d := by
    by_cases hsealed : s.In .sealed
    · obtain ⟨t, home, new, hl⟩ := hinv.pending hsealed
      have hc := hr.pending hl.admits hl.pending
      exact ⟨hc.header, fun b hb => (hc.blocks b hb).trans (hl.installs b hb)⟩
    · exact hr.clean (hinv.clean hsealed)
  refine ⟨hclean.header, s₀, h₀, hs, hout, hclean.blocks, fun o b c hw hnew => ?_⟩
  exact ((hinv.since _ hw).resolve_left hnew).1

end Crash

/-- A process does as it is told, with block numbers of type `uint`. -/
def CacheSystem.actLogged [DecidableEq ι] (A : LogArea) (s : CacheSystem ι) (m : ι × Act) :
    Option (CacheSystem ι) :=
  (s.act A m).filter fun s' => s'.group.log.lh.all (· < 2 ^ 32)

theorem CacheSystem.actLogged_step [DecidableEq ι] {A : LogArea} {s s' : CacheSystem ι}
    {m : ι × Act} (h : s.actLogged A m = some s') : LoggedStep A s s' := by
  obtain ⟨hact, hfits⟩ := Option.filter_eq_some_iff.mp h
  obtain ⟨hstep, hshows⟩ := act_step hact
  refine ⟨hstep, fun i k hout heq => ?_, by simpa using hfits⟩
  obtain ⟨ht, hgroup, -⟩ := s.bwriteBuf_touches i k
  rcases hshows with hsame | hwrites | ⟨j, hin, hpos⟩
  · exact hsame
  · exact absurd (by rw [heq, hgroup]) hwrites
  · -- the committer is another process
    have hji : j ≠ i := fun hji => hin (hji ▸ hout)
    exact absurd (by rw [heq, ht.loc j hji]) hpos

/-- A process modifies block 50, logs it and commits, as far as to the write of the header. -/
def cutCommit {ι : Type} (i : ι) : List (ι × Act) :=
  [(i, .go), (i, .go), (i, .bread 50), (i, .go), (i, .go), (i, .modify 50 fun _ => 7), (i, .log 50),
    (i, .brelse 50)] ++ List.replicate 21 (i, .go)

/-- The block is not installed when the power fails, and recovery installs it. -/
theorem cutCommit_consistent : ∃ (s : CacheSystem (Fin 2)) (d : Nat → Block),
    LoggedReachable sampleLog (fun _ _ => 0#32) s ∧ s.disk 50 = (fun _ => 0#32) ∧
      Recovered sampleLog s.disk d ∧ d 50 = (fun _ => 7#32) ∧ d 2 0 = 0#32 ∧
      ∃ s₀, LoggedReachable sampleLog (fun _ _ => 0#32) s₀ ∧
        Relation.ReflTransGen (LoggedStep sampleLog) s₀ s ∧ s₀.group.log.outstanding = 0 ∧
        s₀.latest (fun _ _ => 0#32) 50 = fun _ => 7#32 := by
  obtain ⟨s, hs, hdisk, _, m, hm, h50⟩ : ∃ s : CacheSystem (Fin 2),
      LoggedReachable sampleLog (fun _ _ => 0#32) s ∧ s.disk 50 = (fun _ => 0#32) ∧
      ∃ u m, recoverFromLog sampleLog ⟨s.disk, s.disk, ⟨0, fun _ => 0⟩, 10⟩ = .ok u m ∧
        m.disk 50 = fun _ => 7#32 := by
    refine ⟨Schedule.play (CacheSystem.actLogged sampleLog) (.init fun _ _ => 0#32) (cutCommit 0),
      Schedule.play_reaches CacheSystem.actLogged_step .., by decide +kernel, wp_total ?_⟩
    decide +kernel
  have hr := Recovered.done (s := ⟨s.disk, _, _, _⟩) rfl hm
  obtain ⟨hhead, s₀, h₀, hrun, hquiet, hlatest, -⟩ := crash_consistent rfl hs hr
  have hhome : ¬sampleLog.Contains 50 := by
    unfold LogArea.Contains
    decide
  exact ⟨s, m.disk, hs, hdisk, hr, h50, hhead, s₀, h₀, hrun, hquiet,
    (hlatest 50 hhome).symm.trans h50⟩

end Xv6Paging
