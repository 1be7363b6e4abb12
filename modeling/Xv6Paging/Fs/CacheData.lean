import Mathlib.Data.List.GetD
import Xv6Paging.Fs.CacheBuffers

/-!
# The contents of the buffers

What the buffers and the disk contain against the modifications that were logged or written.  The
argument follows the text of `commit`: `Assert` says what holds at each of its places, and a step of
another process keeps it.
-/

namespace Xv6Paging

open StateHalt LinkedRing

variable {ι : Type}

/-! ## The latest contents -/

section Latest

variable {disk₀ : Nat → Block} {s s' : CacheSystem ι} {k : Fin nbuf}

theorem latest_congr (h : s'.mods = s.mods) (b : Nat) : s'.latest disk₀ b = s.latest disk₀ b := by
  simp only [CacheSystem.latest, h]

theorem latest_cons {b : Nat} {x : Block} (h : s'.mods = (b, x) :: s.mods) (b' : Nat) :
    s'.latest disk₀ b' = if b' = b then x else s.latest disk₀ b' := by
  simp only [CacheSystem.latest, h, List.find?_cons]
  by_cases hb : b' = b
  · subst hb
    simp
  · have hne : (b == b') = false := by simp [Ne.symm hb]
    simp only [hne, if_neg hb]

end Latest

/-! ## The invariants of the contents -/

section Definitions

variable (A : LogArea) (disk₀ : Nat → Block) (s : CacheSystem ι) (i : ι)

/-- The pinned blocks are those of the header from the entry `t` on. -/
def PinsFrom (t : Nat) : Prop := ∀ b, b ∈ s.pins ↔
  ∃ u, t ≤ u ∧ u < s.group.log.lh.length ∧ s.group.log.lh.getD u 0 = b

/-- The first `n` log blocks have the contents of their home blocks. -/
def Staged (n : Nat) : Prop := ∀ t, t < n →
  s.latest disk₀ (A.start + t + 1) = s.latest disk₀ (s.group.log.lh.getD t 0)

/-- The process has not modified the buffer of the block `b`. -/
def Unmodified (b : Nat) : Prop :=
  ∀ k ∈ (s.loc i).holds, (s.bc.buf k).blockno = b → k ∉ (s.loc i).dirty

/-- The buffer of the block `b` that the process holds has the contents of the block `b'`. -/
def Carries (b b' : Nat) : Prop :=
  ∀ k ∈ (s.loc i).holds, (s.bc.buf k).blockno = b → (s.bc.buf k).data = s.latest disk₀ b'

/-- **What holds at the places of `commit`.** -/
def Assert : Stage → Pos → Prop
  | .check, .done => PinsFrom s 0
  | .writeLog, .writeLog t .readLog =>
    PinsFrom s 0 ∧ t ≤ s.group.log.lh.length ∧ Staged A disk₀ s t
  | .writeLog, .writeLog t .readHome =>
    PinsFrom s 0 ∧ t < s.group.log.lh.length ∧ Staged A disk₀ s t
  | .writeLog, .writeLog t .copy =>
    PinsFrom s 0 ∧ t < s.group.log.lh.length ∧ Staged A disk₀ s t ∧
      Unmodified s i (s.group.log.lh.getD t 0)
  | .writeLog, .writeLog t .write =>
    PinsFrom s 0 ∧ t < s.group.log.lh.length ∧ Staged A disk₀ s t ∧
      Carries disk₀ s i (A.start + t + 1) (s.group.log.lh.getD t 0)
  | .writeLog, .writeLog t .dropHome =>
    PinsFrom s 0 ∧ t < s.group.log.lh.length ∧ Staged A disk₀ s (t + 1)
  | .writeLog, .writeLog t .dropLog =>
    PinsFrom s 0 ∧ t < s.group.log.lh.length ∧ Staged A disk₀ s (t + 1)
  | .writeHead, .head _ => PinsFrom s 0 ∧ Staged A disk₀ s s.group.log.lh.length
  | .writeHead, .done => PinsFrom s 0 ∧ Staged A disk₀ s s.group.log.lh.length
  | .install, .install t .readLog =>
    PinsFrom s t ∧ t ≤ s.group.log.lh.length ∧ Staged A disk₀ s s.group.log.lh.length
  | .install, .install t .readHome =>
    PinsFrom s t ∧ t < s.group.log.lh.length ∧ Staged A disk₀ s s.group.log.lh.length ∧
      Unmodified s i (A.start + t + 1)
  | .install, .install t .copy =>
    PinsFrom s t ∧ t < s.group.log.lh.length ∧ Staged A disk₀ s s.group.log.lh.length ∧
      Unmodified s i (A.start + t + 1)
  | .install, .install t .write =>
    PinsFrom s t ∧ t < s.group.log.lh.length ∧ Staged A disk₀ s s.group.log.lh.length ∧
      Carries disk₀ s i (s.group.log.lh.getD t 0) (s.group.log.lh.getD t 0)
  | .install, .install t .unpin =>
    PinsFrom s t ∧ t < s.group.log.lh.length ∧ Staged A disk₀ s s.group.log.lh.length ∧
      s.disk (s.group.log.lh.getD t 0) = s.latest disk₀ (s.group.log.lh.getD t 0)
  | .install, .install t .dropLog =>
    PinsFrom s (t + 1) ∧ t < s.group.log.lh.length ∧ Staged A disk₀ s s.group.log.lh.length
  | .install, .install t .dropHome =>
    PinsFrom s (t + 1) ∧ t < s.group.log.lh.length ∧ Staged A disk₀ s s.group.log.lh.length
  | .clear, .done => s.pins = ∅
  | .eraseHead, .head _ => s.pins = ∅
  | .eraseHead, .done => s.pins = ∅
  | .finish, .done => s.pins = ∅
  | _, _ => False

/-- What the process is doing in `bread` or `brelse` is what its program says. -/
def Follows (lh : List Nat) (l : Local) : Prop :=
  match l.busy with
  | .idle => True
  | .acquiring _ b => l.pos.call A lh = some (.bread b)
  | .filling _ b => l.pos.call A lh = some (.bread b)
  | .releasing _ => ∃ b, l.pos.call A lh = some (.brelse b)

/-- **The contents.**  A buffer that nobody has modified has the latest contents of its block, and
so has the disk unless the log has pinned the block. -/
structure DataInv : Prop where
  clean : ∀ k, (s.bc.buf k).dev = rootdev → (s.bc.buf k).valid = true →
    (∀ j, k ∉ (s.loc j).dirty) → (s.bc.buf k).data = s.latest disk₀ (s.bc.buf k).blockno
  disk : ∀ b, b ∉ s.pins → s.disk b = s.latest disk₀ b
  home : ∀ b ∈ s.group.log.lh, ¬A.Contains b
  room : s.group.log.lh.length < A.size
  all : s.group.log.committing = false → PinsFrom s 0

/-- The committer is where its program says. -/
structure CommitInv : Prop where
  assert : ∀ j stage, s.group.pc j = .commit stage → Assert A disk₀ s j stage (s.loc j).pos
  follows : ∀ j stage, s.group.pc j = .commit stage → Follows A s.group.log.lh (s.loc j)
  outside : ∀ j, s.Outside j → (s.loc j).pos = .done

end Definitions

/-! ## Where a call stands -/

section Calls

variable {A : LogArea} {lh : List Nat} {pos : Pos}

/-- Where in `commit` the call `c` is made. -/
def Pos.Makes (A : LogArea) (lh : List Nat) (pos : Pos) : Option Call → Prop
  | some (.bread b) =>
    (∃ t, t < lh.length ∧ pos = .writeLog t .readLog ∧ b = A.start + t + 1) ∨
    (∃ t, pos = .writeLog t .readHome ∧ b = lh.getD t 0) ∨ pos = .head .read ∨
    (∃ t, t < lh.length ∧ pos = .install t .readLog ∧ b = A.start + t + 1) ∨
    (∃ t, pos = .install t .readHome ∧ b = lh.getD t 0)
  | some (.copy b b') => ∃ t, pos = .writeLog t .copy ∧ b = A.start + t + 1 ∧ b' = lh.getD t 0
  | some (.install b b') => ∃ t, pos = .install t .copy ∧ b = lh.getD t 0 ∧ b' = A.start + t + 1
  | some .store => pos = .head .store
  | some (.bwrite b) =>
    (∃ t, pos = .writeLog t .write ∧ b = A.start + t + 1) ∨
    (pos = .head .write ∧ b = A.start) ∨ (∃ t, pos = .install t .write ∧ b = lh.getD t 0)
  | some (.unpin b) => ∃ t, pos = .install t .unpin ∧ b = lh.getD t 0
  | some (.brelse _) =>
    (∃ t, pos = .writeLog t .dropHome) ∨ (∃ t, pos = .writeLog t .dropLog) ∨ pos = .head .drop ∨
    (∃ t, pos = .install t .dropLog) ∨ (∃ t, pos = .install t .dropHome)
  | none =>
    (∃ t, lh.length ≤ t ∧ pos = .writeLog t .readLog) ∨
    (∃ t, lh.length ≤ t ∧ pos = .install t .readLog) ∨ pos = .done

theorem Pos.makes {c : Option Call} (h : pos.call A lh = c) : pos.Makes A lh c := by
  subst h
  cases pos with
  | writeLog t place =>
    cases place with
    | readLog =>
      rcases Nat.lt_or_ge t lh.length with ht | ht
      · rw [Pos.call, if_pos ht]
        exact .inl ⟨t, ht, rfl, rfl⟩
      · rw [Pos.call, if_neg (Nat.not_lt.mpr ht)]
        exact .inl ⟨t, ht, rfl⟩
    | _ => simp [Pos.call, Pos.Makes]
  | head place => cases place <;> simp [Pos.call, Pos.Makes]
  | install t place =>
    cases place with
    | readLog =>
      rcases Nat.lt_or_ge t lh.length with ht | ht
      · rw [Pos.call, if_pos ht]
        exact .inr (.inr (.inr (.inl ⟨t, ht, rfl, rfl⟩)))
      · rw [Pos.call, if_neg (Nat.not_lt.mpr ht)]
        exact .inr (.inl ⟨t, ht, rfl⟩)
    | _ => simp [Pos.call, Pos.Makes]
  | done => simp [Pos.call, Pos.Makes]

variable {disk₀ : Nat → Block} {s : CacheSystem ι} {i : ι} {stage : Stage}

theorem Assert.writeLog_stage {t : Nat} {place : WriteAt}
    (h : Assert A disk₀ s i stage (.writeLog t place)) : stage = .writeLog := by
  cases stage with
  | writeLog => rfl
  | _ => exact h.elim

theorem Assert.install_stage {t : Nat} {place : InstallAt}
    (h : Assert A disk₀ s i stage (.install t place)) : stage = .install := by
  cases stage with
  | install => rfl
  | _ => exact h.elim

theorem Assert.head_stage {place : HeadAt} (h : Assert A disk₀ s i stage (.head place)) :
    stage = .writeHead ∨ stage = .eraseHead := by
  cases stage with
  | writeHead => exact .inl rfl
  | eraseHead => exact .inr rfl
  | _ => exact h.elim

/-- What a stage of `commit` has achieved when its function returns. -/
def Achieved (A : LogArea) (disk₀ : Nat → Block) (s : CacheSystem ι) : Stage → Prop
  | .check => PinsFrom s 0
  | .writeLog | .writeHead => PinsFrom s 0 ∧ Staged A disk₀ s s.group.log.lh.length
  | .install | .clear | .eraseHead | .finish => s.pins = ∅

theorem Assert.ends (h : Assert A disk₀ s i stage pos)
    (hend : pos.call A s.group.log.lh = none) : Achieved A disk₀ s stage := by
  rcases Pos.makes hend with ⟨t, hle, rfl⟩ | ⟨t, hle, rfl⟩ | rfl
  · obtain rfl := h.writeLog_stage
    have ht : t = s.group.log.lh.length := Nat.le_antisymm h.2.1 hle
    exact ⟨h.1, ht ▸ h.2.2⟩
  · -- no block of the header is left to be unpinned
    obtain rfl := h.install_stage
    refine Finset.eq_empty_of_forall_notMem fun b hb => ?_
    obtain ⟨u, hu, hlt, -⟩ := (h.1 b).mp hb
    omega
  · cases stage with
    | writeLog => exact h.elim
    | install => exact h.elim
    | _ => exact h

end Calls

section Stable

variable {A : LogArea} {disk₀ : Nat → Block} {s s' : CacheSystem ι} {i : ι}

theorem DataInv.logBlock (h : DataInv A disk₀ s) {t : Nat} (ht : t < s.group.log.lh.length) :
    A.Contains (A.start + t + 1) := by
  have := h.room
  constructor <;> omega

theorem getD_mem {lh : List Nat} {t : Nat} (ht : t < lh.length) : lh.getD t 0 ∈ lh := by
  rw [List.getD_eq_getElem _ _ ht]
  exact List.getElem_mem ht

theorem pinsFrom_zero : PinsFrom s 0 ↔ ∀ b, b ∈ s.pins ↔ b ∈ s.group.log.lh := by
  have key : ∀ b, (∃ u, 0 ≤ u ∧ u < s.group.log.lh.length ∧ s.group.log.lh.getD u 0 = b) ↔
      b ∈ s.group.log.lh := by
    intro b
    constructor
    · rintro ⟨u, -, hu, rfl⟩
      exact getD_mem hu
    · intro hb
      obtain ⟨u, hu, rfl⟩ := List.mem_iff_getElem.mp hb
      exact ⟨u, Nat.zero_le _, hu, List.getD_eq_getElem _ _ hu⟩
  exact forall_congr' fun b => by rw [key b]

theorem DataInv.homeBlock (h : DataInv A disk₀ s) {t : Nat} (ht : t < s.group.log.lh.length) :
    ¬A.Contains (s.group.log.lh.getD t 0) := h.home _ (getD_mem ht)

/-- **A step that leaves the place of the committer alone** keeps what holds there, if it changes
neither the header and the pins nor the contents that the commit relies on. -/
theorem Assert.stable {stage : Stage} {pos : Pos} (hd : DataInv A disk₀ s)
    (h : Assert A disk₀ s i stage pos) (hlh : s'.group.log.lh = s.group.log.lh)
    (hpins : s'.pins = s.pins)
    (hlatest : ∀ b, b ∈ s.group.log.lh ∨ A.Contains b → s'.latest disk₀ b = s.latest disk₀ b)
    (hdisk : ∀ b ∈ s.group.log.lh, s.disk b = s.latest disk₀ b → s'.disk b = s.latest disk₀ b)
    (hholds : (s'.loc i).holds ⊆ (s.loc i).holds) (hdirty : (s'.loc i).dirty ⊆ (s.loc i).dirty)
    (hbuf : ∀ k ∈ (s'.loc i).holds, (s'.bc.buf k).blockno = (s.bc.buf k).blockno ∧
      (s'.bc.buf k).data = (s.bc.buf k).data) : Assert A disk₀ s' i stage pos := by
  have hpin : ∀ t, PinsFrom s t → PinsFrom s' t := by
    intro t ht b
    rw [hpins, hlh]
    exact ht b
  have hhome : ∀ {t}, t < s.group.log.lh.length →
      s'.latest disk₀ (s.group.log.lh.getD t 0) = s.latest disk₀ (s.group.log.lh.getD t 0) :=
    fun ht => hlatest _ (.inl (getD_mem ht))
  have hstaged : ∀ n, n ≤ s.group.log.lh.length → Staged A disk₀ s n → Staged A disk₀ s' n := by
    intro n hn hst t ht
    rw [hlh, hhome (by omega), hlatest _ (.inr (hd.logBlock (by omega)))]
    exact hst t ht
  have hunmod : ∀ b, Unmodified s i b → Unmodified s' i b := by
    intro b hb k hk hkb hkd
    rw [(hbuf k hk).1] at hkb
    exact hb k (hholds hk) hkb (hdirty hkd)
  have hcarries : ∀ {b t}, t < s.group.log.lh.length →
      Carries disk₀ s i b (s.group.log.lh.getD t 0) →
      Carries disk₀ s' i b (s.group.log.lh.getD t 0) := by
    intro b t ht hb k hk hkb
    rw [(hbuf k hk).1] at hkb
    rw [(hbuf k hk).2, hhome ht]
    exact hb k (hholds hk) hkb
  unfold Assert at h ⊢
  rw [hlh]
  split at h
  · exact hpin 0 h
  · exact ⟨hpin 0 h.1, h.2.1, hstaged _ h.2.1 h.2.2⟩
  · exact ⟨hpin 0 h.1, h.2.1, hstaged _ (by omega) h.2.2⟩
  · exact ⟨hpin 0 h.1, h.2.1, hstaged _ (by omega) h.2.2.1, hunmod _ h.2.2.2⟩
  · exact ⟨hpin 0 h.1, h.2.1, hstaged _ (by omega) h.2.2.1, hcarries h.2.1 h.2.2.2⟩
  · exact ⟨hpin 0 h.1, h.2.1, hstaged _ (by omega) h.2.2⟩
  · exact ⟨hpin 0 h.1, h.2.1, hstaged _ (by omega) h.2.2⟩
  · exact ⟨hpin 0 h.1, hstaged _ le_rfl h.2⟩
  · exact ⟨hpin 0 h.1, hstaged _ le_rfl h.2⟩
  · exact ⟨hpin _ h.1, h.2.1, hstaged _ le_rfl h.2.2⟩
  · exact ⟨hpin _ h.1, h.2.1, hstaged _ le_rfl h.2.2.1, hunmod _ h.2.2.2⟩
  · exact ⟨hpin _ h.1, h.2.1, hstaged _ le_rfl h.2.2.1, hunmod _ h.2.2.2⟩
  · exact ⟨hpin _ h.1, h.2.1, hstaged _ le_rfl h.2.2.1, hcarries h.2.1 h.2.2.2⟩
  · refine ⟨hpin _ h.1, h.2.1, hstaged _ le_rfl h.2.2.1, ?_⟩
    rw [hhome h.2.1]
    exact hdisk _ (getD_mem h.2.1) h.2.2.2
  · exact ⟨hpin _ h.1, h.2.1, hstaged _ le_rfl h.2.2⟩
  · exact ⟨hpin _ h.1, h.2.1, hstaged _ le_rfl h.2.2⟩
  · rw [hpins]
    exact h
  · rw [hpins]
    exact h
  · rw [hpins]
    exact h
  · rw [hpins]
    exact h
  · exact h.elim

end Stable

/-- The invariant of the buffer cache. -/
structure CacheInv [Fintype ι] (A : LogArea) (disk₀ : Nat → Block) (s : CacheSystem ι) : Prop where
  group : GroupInv s.group
  buf : BufInv s
  data : DataInv A disk₀ s
  commit : CommitInv A disk₀ s

/-- What is in a buffer, and of which block. -/
def Buf.contents (b : Buf ι) : Nat × Bool × Nat × Block := (b.dev, b.valid, b.blockno, b.data)

theorem Buf.contents_inj {b b' : Buf ι} : b.contents = b'.contents ↔
    b.dev = b'.dev ∧ b.valid = b'.valid ∧ b.blockno = b'.blockno ∧ b.data = b'.data := by
  simp only [Buf.contents, Prod.mk.injEq]

section Keep

variable {A : LogArea} {disk₀ : Nat → Block} {s s' : CacheSystem ι} {i : ι}

theorem DataInv.keep (h : DataInv A disk₀ s) (hlog : s'.group.log = s.group.log)
    (hpins : s'.pins = s.pins) (hmods : s'.mods = s.mods) (hdisk : s'.disk = s.disk)
    (hbuf : ∀ k, (s'.bc.buf k).dev = rootdev → (s'.bc.buf k).valid = true →
      (s.bc.buf k).dev = rootdev ∧ (s.bc.buf k).valid = true ∧
        (s'.bc.buf k).blockno = (s.bc.buf k).blockno ∧ (s'.bc.buf k).data = (s.bc.buf k).data)
    (hdirty : ∀ j, (s.loc j).dirty ⊆ (s'.loc j).dirty) : DataInv A disk₀ s' where
  clean k hdev hval hk := by
    obtain ⟨hdev', hval', hblock, hdata⟩ := hbuf k hdev hval
    rw [hdata, hblock, latest_congr hmods]
    exact h.clean k hdev' hval' fun j hj => hk j (hdirty j hj)
  disk b hb := by
    rw [hdisk, latest_congr hmods]
    exact h.disk b (hpins ▸ hb)
  home := by
    rw [hlog]
    exact h.home
  room := by
    rw [hlog]
    exact h.room
  all hc := by
    rw [hlog] at hc
    intro b
    rw [hpins, hlog]
    exact h.all hc b

theorem CommitInv.keep (h : CommitInv A disk₀ s) (hd : DataInv A disk₀ s)
    (hgroup : s'.group = s.group) (hpins : s'.pins = s.pins)
    (hlatest : ∀ j stage, s.group.pc j = .commit stage →
      ∀ b, b ∈ s.group.log.lh ∨ A.Contains b → s'.latest disk₀ b = s.latest disk₀ b)
    (hdisk : ∀ j stage, s.group.pc j = .commit stage →
      ∀ b ∈ s.group.log.lh, s.disk b = s.latest disk₀ b → s'.disk b = s.latest disk₀ b)
    (hpos : ∀ j, (s'.loc j).pos = (s.loc j).pos) (hloc : ∀ j stage, s.group.pc j = .commit stage →
      (s'.loc j).holds ⊆ (s.loc j).holds ∧ (s'.loc j).dirty ⊆ (s.loc j).dirty ∧
        Follows A s.group.log.lh (s'.loc j) ∧
        ∀ k ∈ (s'.loc j).holds, (s'.bc.buf k).blockno = (s.bc.buf k).blockno ∧
          (s'.bc.buf k).data = (s.bc.buf k).data) : CommitInv A disk₀ s' where
  assert j stage hj := by
    rw [hgroup] at hj
    obtain ⟨hholds, hdirty, -, hbuf⟩ := hloc j stage hj
    rw [hpos]
    exact (h.assert j stage hj).stable hd (by rw [hgroup]) hpins (hlatest j stage hj)
      (hdisk j stage hj) hholds hdirty hbuf
  follows j stage hj := by
    rw [hgroup] at hj ⊢
    exact (hloc j stage hj).2.2.1
  outside j hj := by
    rw [hpos]
    refine h.outside j fun stage hs => hj stage ?_
    rw [hgroup, hs]

theorem CommitInv.advance (hs : GroupInv s.group) (h : CommitInv A disk₀ s)
    (hgroup : s'.group = s.group) {stage : Stage} (hi : s.group.pc i = .commit stage)
    (hassert : Assert A disk₀ s' i stage (s'.loc i).pos) (hidle : (s'.loc i).busy = .idle)
    (hloc : ∀ j, j ≠ i → s'.loc j = s.loc j) : CommitInv A disk₀ s' where
  assert j stage' hj := by
    rw [hgroup] at hj
    obtain rfl := hs.one i j _ _ hi hj
    rw [hi] at hj
    cases hj
    exact hassert
  follows j stage' hj := by
    rw [hgroup] at hj
    obtain rfl := hs.one i j _ _ hi hj
    simp only [Follows, hidle]
  outside j hj := by
    have hji : j ≠ i := by
      rintro rfl
      exact hj stage (by rw [hgroup, hi])
    rw [hloc j hji]
    refine h.outside j fun stage' hs' => hj stage' ?_
    rw [hgroup, hs']

end Keep

section Frames

variable {A : LogArea} {s : CacheSystem ι} {i : ι} {g : System ι}

theorem CacheSystem.stage_of_not_outside (h : ¬s.Outside i) :
    ∃ stage, s.group.pc i = .commit stage := by
  simpa [CacheSystem.Outside] using h

theorem CacheSystem.May.call_eq {stage : Stage} {c : Call} (hi : s.group.pc i = .commit stage)
    (h : s.May A i c) : (s.loc i).pos.call A s.group.log.lh = some c := by
  simpa [CacheSystem.May, hi] using h

theorem protocol_same {j : ι} (h : g.pc j = s.group.pc j) : (s.protocol g).loc j = s.loc j :=
  if_pos h

theorem protocol_entry {j : ι} (h : g.pc j ≠ s.group.pc j) :
    ((s.protocol g).loc j).pos = Pos.entry (g.pc j) := by
  simp only [CacheSystem.protocol, if_neg h]

theorem entry_done {c : Pc} (h : ∀ stage, c ≠ .commit stage) : Pos.entry c = .done := by
  cases c with
  | commit stage => exact absurd rfl (h stage)
  | _ => rfl

/-- The buffer has the same name in both caches. -/
def SameName (c c' : Bcache ι) (k : Fin nbuf) : Prop :=
  (c'.buf k).dev = (c.buf k).dev ∧ (c'.buf k).blockno = (c.buf k).blockno

theorem SameName.setBuf {c : Bcache ι} {k : Fin nbuf} {b : Buf ι} (hdev : b.dev = (c.buf k).dev)
    (hblock : b.blockno = (c.buf k).blockno) (j : Fin nbuf) : SameName c (c.setBuf k b) j := by
  by_cases hj : j = k
  · subst hj
    exact ⟨by rw [Bcache.setBuf_self, hdev], by rw [Bcache.setBuf_self, hblock]⟩
  · exact ⟨by rw [Bcache.setBuf_of_ne hj], by rw [Bcache.setBuf_of_ne hj]⟩

end Frames

namespace CacheInv

variable [Fintype ι] {A : LogArea} {disk₀ : Nat → Block} {s : CacheSystem ι} {i : ι} {k : Fin nbuf}

variable (h : CacheInv A disk₀ s)
include h

theorem not_dirty (hk : k ∈ (s.loc i).holds)
    (hclean : k ∉ (s.loc i).dirty) (j : ι) : k ∉ (s.loc j).dirty := by
  intro hj
  obtain rfl := h.buf.lock.holder_eq hk (h.buf.lock.dirty j hj)
  exact hclean hj

theorem data_eq (hk : k ∈ (s.loc i).holds) (hclean : k ∉ (s.loc i).dirty) :
    (s.bc.buf k).data = s.latest disk₀ (s.bc.buf k).blockno := by
  obtain ⟨hdev, hval⟩ := h.buf.name.held i k hk
  exact h.data.clean k hdev hval (h.not_dirty hk hclean)

theorem held_eq {k' : Fin nbuf} (hk : k ∈ (s.loc i).holds)
    (hk' : k' ∈ (s.loc i).holds) (hb : (s.bc.buf k').blockno = (s.bc.buf k).blockno) : k' = k :=
  h.buf.name.unique k' k (h.buf.name.held i k' hk').1 (h.buf.name.held i k hk).1 hb

/-! ### Steps at one buffer -/

variable {s' : CacheSystem ι} {l : Local}

variable (ht : Touches s s' i l k)
include ht

/-- A step that leaves what is in the buffers alone, and the place of the process too. -/
theorem pass (hgroup : s'.group = s.group)
    (hbuf : BufInv s') (hpins : s'.pins = s.pins) (hmods : s'.mods = s.mods)
    (hdisk : s'.disk = s.disk)
    (hcontents : (s'.bc.buf k).valid = true ∨ (∃ j, 0 < (s.loc j).uses k) →
      (s'.bc.buf k).contents = (s.bc.buf k).contents)
    (hpos : l.pos = (s.loc i).pos) (hdirty : l.dirty = (s.loc i).dirty)
    (hholds : l.holds ⊆ (s.loc i).holds)
    (hfollows : ∀ stage, s.group.pc i = .commit stage → Follows A s.group.log.lh l) :
    CacheInv A disk₀ s' := by
  have hsame : ∀ j, (s'.bc.buf j).valid = true ∨ (∃ i, 0 < (s.loc i).uses j) →
      (s'.bc.buf j).contents = (s.bc.buf j).contents := by
    intro j hj
    by_cases hjk : j = k
    · subst hjk
      exact hcontents hj
    · rw [ht.buf j hjk]
  have hdirty := ht.field Local.dirty hdirty
  refine ⟨hgroup ▸ h.group, hbuf, h.data.keep (by rw [hgroup]) hpins hmods hdisk
    (fun j hdev hval => ?_) (fun j => (hdirty j).superset), h.commit.keep h.data hgroup hpins
      (fun _ _ _ b _ => latest_congr hmods b) (fun _ _ _ _ _ hb => by rwa [hdisk])
      (ht.field Local.pos hpos) fun j stage hj => ?_⟩
  · obtain ⟨h1, h2, h3, h4⟩ := Buf.contents_inj.mp (hsame j (.inl hval))
    exact ⟨h1.symm.trans hdev, h2.symm.trans hval, h3, h4⟩
  · have hsub : (s'.loc j).holds ⊆ (s.loc j).holds ∧ Follows A s.group.log.lh (s'.loc j) := by
      by_cases hji : j = i
      · subst hji
        rw [ht.self]
        exact ⟨hholds, hfollows stage hj⟩
      · rw [ht.loc j hji]
        exact ⟨Finset.Subset.refl _, h.commit.follows j stage hj⟩
    refine ⟨hsub.1, (hdirty j).subset, hsub.2, fun k' hk' => ?_⟩
    have hused : 0 < (s.loc j).uses k' := BufInv.uses_of_holds (hsub.1 hk')
    exact (Buf.contents_inj.mp (hsame k' (.inr ⟨j, hused⟩))).2.2

/-- A step of a process other than the committer, at a buffer that the committer does not hold
or that keeps its contents. -/
theorem outsider (hout : s.Outside i)
    (hgroup : s'.group = s.group) (hpins : s'.pins = s.pins) (hpos : l.pos = (s.loc i).pos.next)
    (hlatest : ∀ j stage, s.group.pc j = .commit stage →
      ∀ b, b ∈ s.group.log.lh ∨ A.Contains b → s'.latest disk₀ b = s.latest disk₀ b)
    (hdisk : ∀ j stage, s.group.pc j = .commit stage →
      ∀ b ∈ s.group.log.lh, s.disk b = s.latest disk₀ b → s'.disk b = s.latest disk₀ b)
    (hbuf : ∀ j, j ≠ i → k ∈ (s.loc j).holds → (s'.bc.buf k).blockno = (s.bc.buf k).blockno ∧
      (s'.bc.buf k).data = (s.bc.buf k).data) : CommitInv A disk₀ s' := by
  have hpos : l.pos = (s.loc i).pos := by
    rw [hpos, h.commit.outside i hout]
    rfl
  refine h.commit.keep h.data hgroup hpins hlatest hdisk (ht.field Local.pos hpos)
    fun j stage hj => ?_
  have hji : j ≠ i := by
    rintro rfl
    exact hout stage hj
  rw [ht.loc j hji]
  refine ⟨Finset.Subset.refl _, Finset.Subset.refl _, h.commit.follows j stage hj,
    fun k' hk' => ?_⟩
  by_cases hkk : k' = k
  · subst hkk
    exact hbuf j hji hk'
  · rw [ht.buf k' hkk]
    exact ⟨rfl, rfl⟩

theorem refresh (hgroup : s'.group = s.group)
    (hpins : s'.pins = s.pins) (hmods : s'.mods = s.mods) (hdisk : s'.disk = s.disk)
    (hdirty : l.dirty = (s.loc i).dirty)
    (hdata : (s'.bc.buf k).data = s.latest disk₀ (s'.bc.buf k).blockno) : DataInv A disk₀ s' := by
  refine ⟨fun j hdev hval hj => ?_, fun b hb => ?_, hgroup ▸ h.data.home, hgroup ▸ h.data.room,
    fun hc b => ?_⟩
  · rw [latest_congr hmods]
    by_cases hjk : j = k
    · rw [hjk, hdata]
    · rw [ht.buf j hjk] at hdev hval ⊢
      exact h.data.clean j hdev hval fun i' hi => hj i' (by rwa [ht.field Local.dirty hdirty])
  · rw [hdisk, latest_congr hmods]
    exact h.data.disk b (hpins ▸ hb)
  · rw [hgroup] at hc
    rw [hpins, hgroup]
    exact h.data.all hc b

theorem recorded (hk : k ∈ (s.loc i).holds) (hlatest : ∀ b, s'.latest disk₀ b =
      if b = (s.bc.buf k).blockno then (s.bc.buf k).data else s.latest disk₀ b)
    (hcontents : (s'.bc.buf k).contents = (s.bc.buf k).contents)
    (hdirty : l.dirty = (s.loc i).dirty.erase k) (j : Fin nbuf)
    (hdev : (s'.bc.buf j).dev = rootdev) (hval : (s'.bc.buf j).valid = true)
    (hj : ∀ i, j ∉ (s'.loc i).dirty) :
    (s'.bc.buf j).data = s'.latest disk₀ (s'.bc.buf j).blockno := by
  rw [hlatest]
  by_cases hjk : j = k
  · obtain ⟨-, -, hblock, hdata⟩ := Buf.contents_inj.mp hcontents
    rw [hjk, hblock, hdata, if_pos rfl]
  · rw [ht.buf j hjk] at hdev hval ⊢
    have hroot := (h.buf.name.held i k hk).1
    rw [if_neg fun hb => hjk (h.buf.name.unique j k hdev hroot hb)]
    refine h.data.clean j hdev hval fun i' hi => hj i' ?_
    by_cases hii : i' = i
    · rw [hii] at hi ⊢
      rw [ht.self, hdirty]
      exact Finset.mem_erase.mpr ⟨hjk, hi⟩
    · rwa [ht.loc i' hii]

end CacheInv

end Xv6Paging
