import Mathlib.Algebra.Order.BigOperators.Group.Finset
import Xv6Paging.Fs.CacheSystem

/-!
# The buffers over a run

Reference counts, sleep locks and the names of the buffers, kept by every step of the processes that
use the buffer cache.
-/

namespace Xv6Paging

open StateHalt LinkedRing
open Finset (mem_insert mem_univ univ)

variable {ι : Type}

namespace CacheSystem

variable [DecidableEq ι] (s : CacheSystem ι) (i : ι) (l : Local)

@[simp] theorem setLoc_self : (s.setLoc i l).loc i = l := Function.update_self ..

theorem setLoc_of_ne {j : ι} (h : j ≠ i) : (s.setLoc i l).loc j = s.loc j :=
  Function.update_of_ne h ..

@[simp] theorem setLoc_mods : (s.setLoc i l).mods = s.mods := rfl

@[simp] theorem setLoc_bc : (s.setLoc i l).bc = s.bc := rfl

end CacheSystem

@[simp] theorem Bcache.setBuf_self {c : Bcache ι} {k : Fin nbuf} {b : Buf ι} :
    (c.setBuf k b).buf k = b := Function.update_self ..

theorem Bcache.setBuf_of_ne {c : Bcache ι} {k j : Fin nbuf} {b : Buf ι} (h : j ≠ k) :
    (c.setBuf k b).buf j = c.buf j := Function.update_of_ne h ..

theorem Bcache.Linked.of_ring {c c' : Bcache ι} (h : c.Linked) (hring : c'.ring = c.ring) :
    c'.Linked := by
  obtain ⟨l, hl, hall⟩ := h
  exact ⟨l, by rwa [hring], hall⟩

theorem Bcache.brelseDrop_buf (c : Bcache ι) (k : Fin nbuf) :
    (c.brelseDrop k).buf = (c.bunpin k).buf := by
  unfold Bcache.brelseDrop
  dsimp only
  split <;> rfl

/-- A step of the process `i` at the buffer `k`: the other processes and the other buffers are left
alone, and the process goes on with the local state `l`. -/
structure Touches (s s' : CacheSystem ι) (i : ι) (l : Local) (k : Fin nbuf) : Prop where
  self : s'.loc i = l
  loc : ∀ j, j ≠ i → s'.loc j = s.loc j
  buf : ∀ j, j ≠ k → s'.bc.buf j = s.bc.buf j

namespace Touches

variable {s s' t : CacheSystem ι} {i : ι} {l : Local} {k : Fin nbuf}

theorem of_setLoc [DecidableEq ι] (hloc : t.loc = s.loc)
    (hbuf : ∀ j, j ≠ k → t.bc.buf j = s.bc.buf j) : Touches s (t.setLoc i l) i l k :=
  ⟨CacheSystem.setLoc_self .., fun j hj => by rw [CacheSystem.setLoc_of_ne _ _ _ hj, hloc], hbuf⟩

theorem field {β : Type} (ht : Touches s s' i l k) (f : Local → β) (hf : f l = f (s.loc i))
    (j : ι) : f (s'.loc j) = f (s.loc j) := by
  by_cases hj : j = i
  · rw [hj, ht.self, hf]
  · rw [ht.loc j hj]

theorem bufField {β : Type} (ht : Touches s s' i l k) (f : Buf ι → β)
    (hf : f (s'.bc.buf k) = f (s.bc.buf k)) (j : Fin nbuf) : f (s'.bc.buf j) = f (s.bc.buf j) := by
  by_cases hj : j = k
  · rw [hj, hf]
  · rw [ht.buf j hj]

end Touches

namespace CacheSystem

variable [DecidableEq ι] (s : CacheSystem ι) (i : ι) (k : Fin nbuf)

theorem lookup_touches (b : Nat) {c : Bcache ι} (hc : ∀ j, j ≠ k → c.buf j = s.bc.buf j) :
    Touches s (s.lookup i b k c) i { s.loc i with busy := .acquiring k b } k := .of_setLoc rfl hc

theorem acquire_touches (b : Nat) :
    Touches s (s.acquire i k b) i { s.loc i with busy := .filling k b } k ∧
      (s.acquire i k b).bc.buf k = { s.bc.buf k with owner := some i } :=
  ⟨.of_setLoc rfl fun _ hj => Bcache.setBuf_of_ne hj, Bcache.setBuf_self⟩

theorem fill_touches :
    Touches s (s.fill i k) i { s.loc i with
      busy := .idle
      holds := insert k (s.loc i).holds
      pos := (s.loc i).pos.next } k ∧
    (∃ x, (s.fill i k).bc.buf k = { s.bc.buf k with valid := true, data := x }) ∧
      (s.fill i k).bc.ring = s.bc.ring := by
  have hbc : (s.fill i k).bc = s.bc.fill s.disk k := rfl
  rw [hbc]
  unfold Bcache.fill
  by_cases hval : (s.bc.buf k).valid = true
  · rw [if_pos hval]
    refine ⟨.of_setLoc rfl fun j _ => ?_, ⟨(s.bc.buf k).data, by rw [← hval]⟩, rfl⟩
    show (s.bc.fill s.disk k).buf j = _
    rw [Bcache.fill, if_pos hval]
  · rw [if_neg hval]
    refine ⟨.of_setLoc rfl fun j hj => ?_, ⟨_, Bcache.setBuf_self⟩, rfl⟩
    show (s.bc.fill s.disk k).buf j = _
    rw [Bcache.fill, if_neg hval]
    exact Bcache.setBuf_of_ne hj

theorem modifyBuf_touches (x : Block) :
    Touches s (s.modifyBuf i k x) i { s.loc i with
      dirty := insert k (s.loc i).dirty
      pos := (s.loc i).pos.next } k ∧
    (s.modifyBuf i k x).bc.buf k = { s.bc.buf k with data := x } :=
  ⟨.of_setLoc rfl fun _ hj => Bcache.setBuf_of_ne hj, Bcache.setBuf_self⟩

theorem installBuf_touches (x : Block) :
    Touches s (s.installBuf i k x) i { s.loc i with pos := (s.loc i).pos.next } k ∧
      (s.installBuf i k x).bc.buf k = { s.bc.buf k with data := x } :=
  ⟨.of_setLoc rfl fun _ hj => Bcache.setBuf_of_ne hj, Bcache.setBuf_self⟩

theorem bwriteBuf_touches :
    Touches s (s.bwriteBuf i k) i { s.loc i with
      dirty := (s.loc i).dirty.erase k
      pos := (s.loc i).pos.next } k ∧
    (s.bwriteBuf i k).group = s.group ∧ (s.bwriteBuf i k).bc = s.bc ∧
      (s.bwriteBuf i k).pins = s.pins := by
  unfold CacheSystem.bwriteBuf
  dsimp only
  by_cases hk : k ∈ (s.loc i).dirty
  · rw [if_pos hk]
    exact ⟨.of_setLoc rfl fun _ _ => rfl, rfl, rfl, rfl⟩
  · rw [if_neg hk]
    exact ⟨.of_setLoc rfl fun _ _ => rfl, rfl, rfl, rfl⟩

theorem logWriteBuf_touches (log : GroupLog) :
    Touches s (s.logWriteBuf i k log) i { s.loc i with dirty := (s.loc i).dirty.erase k } k ∧
    (s.logWriteBuf i k log).bc.buf k = { s.bc.buf k with
      refcnt := if (s.bc.buf k).blockno ∈ s.group.log.lh then (s.bc.buf k).refcnt
        else (s.bc.buf k).refcnt + 1 } ∧
    (s.logWriteBuf i k log).bc.ring = s.bc.ring := by
  have hbc : (s.logWriteBuf i k log).bc =
      if (s.bc.buf k).blockno ∈ s.group.log.lh then s.bc else s.bc.bpin k := rfl
  rw [hbc]
  by_cases hb : (s.bc.buf k).blockno ∈ s.group.log.lh
  · rw [if_pos hb, if_pos hb]
    refine ⟨.of_setLoc rfl fun j _ => ?_, rfl, rfl⟩
    simp only [if_pos hb]
  · rw [if_neg hb, if_neg hb]
    refine ⟨.of_setLoc rfl fun j hj => ?_, Bcache.setBuf_self, rfl⟩
    simp only [if_neg hb]
    exact Bcache.setBuf_of_ne hj

theorem unpinBuf_touches :
    Touches s (s.unpinBuf i k) i { s.loc i with pos := (s.loc i).pos.next } k ∧
      (s.unpinBuf i k).bc.buf k = { s.bc.buf k with refcnt := (s.bc.buf k).refcnt - 1 } :=
  ⟨.of_setLoc rfl fun _ hj => Bcache.setBuf_of_ne hj, Bcache.setBuf_self⟩

theorem release_touches :
    Touches s (s.release i k) i { s.loc i with
      busy := .releasing k
      holds := (s.loc i).holds.erase k } k ∧
    (s.release i k).bc.buf k = { s.bc.buf k with owner := none } :=
  ⟨.of_setLoc rfl fun _ hj => Bcache.setBuf_of_ne hj, Bcache.setBuf_self⟩

theorem drop_touches :
    Touches s (s.drop i k) i { s.loc i with busy := .idle, pos := (s.loc i).pos.next } k ∧
      (s.drop i k).bc.buf k = { s.bc.buf k with refcnt := (s.bc.buf k).refcnt - 1 } := by
  have hbuf : (s.drop i k).bc.buf = (s.bc.bunpin k).buf := s.bc.brelseDrop_buf k
  refine ⟨.of_setLoc rfl fun j hj => ?_, ?_⟩
  · show (s.drop i k).bc.buf j = _
    rw [hbuf]
    exact Bcache.setBuf_of_ne hj
  · rw [hbuf]
    exact Bcache.setBuf_self

theorem protocol_loc (g : System ι) (j : ι) :
    ((s.protocol g).loc j).busy = (s.loc j).busy ∧ ((s.protocol g).loc j).holds = (s.loc j).holds ∧
      ((s.protocol g).loc j).dirty = (s.loc j).dirty := by
  simp only [CacheSystem.protocol]
  split <;> exact ⟨rfl, rfl, rfl⟩

end CacheSystem

/-! ## Reference counts -/

/-- The references of a process to the buffer `k`: it holds it, or is in `bread` or `brelse`. -/
def Local.uses (l : Local) (k : Fin nbuf) : Nat :=
  (match l.busy with
    | .idle => 0
    | .acquiring j _ => if j = k then 1 else 0
    | .filling j _ => if j = k then 1 else 0
    | .releasing j => if j = k then 1 else 0) +
  if k ∈ l.holds then 1 else 0

/-- The reference of the log to the buffer `k`. -/
def CacheSystem.pin (s : CacheSystem ι) (k : Fin nbuf) : Nat :=
  if (s.bc.buf k).dev = rootdev ∧ (s.bc.buf k).blockno ∈ s.pins then 1 else 0

/-- **A reference count counts** the references of the processes and of the log. -/
def CountInv [Fintype ι] (s : CacheSystem ι) : Prop :=
  ∀ k, (s.bc.buf k).refcnt = ∑ i, (s.loc i).uses k + s.pin k

section Count

variable [Fintype ι] {s s' : CacheSystem ι} {i : ι} {k : Fin nbuf}

theorem pin_eq {s s' : CacheSystem ι} {k : Fin nbuf} (hdev : (s'.bc.buf k).dev = (s.bc.buf k).dev)
    (hblock : (s'.bc.buf k).blockno = (s.bc.buf k).blockno) (hpins : s'.pins = s.pins) :
    s'.pin k = s.pin k := by
  simp only [CacheSystem.pin, hdev, hblock, hpins]

theorem CountInv.pos_of_uses (h : CountInv s) (hk : 0 < (s.loc i).uses k) :
    0 < (s.bc.buf k).refcnt := by
  have hle : (s.loc i).uses k ≤ ∑ j, (s.loc j).uses k :=
    Finset.single_le_sum (f := fun j => (s.loc j).uses k) (fun j _ => Nat.zero_le _)
      (mem_univ i)
  rw [h k]
  omega

theorem CountInv.pos_of_pin (h : CountInv s) (hdev : (s.bc.buf k).dev = rootdev)
    (hb : (s.bc.buf k).blockno ∈ s.pins) : 0 < (s.bc.buf k).refcnt := by
  rw [h k, CacheSystem.pin, if_pos ⟨hdev, hb⟩]
  exact Nat.succ_pos _

/-- A step of the process `i`: the count changes as its references and those of the log do. -/
theorem CountInv.change [DecidableEq ι] (h : CountInv s) (hloc : ∀ j, j ≠ i → s'.loc j = s.loc j)
    (hk : ∀ k, (s'.bc.buf k).refcnt + (s.loc i).uses k + s.pin k =
      (s.bc.buf k).refcnt + (s'.loc i).uses k + s'.pin k) : CountInv s' := by
  intro k
  have hrest : ∑ j ∈ Finset.univ.erase i, (s'.loc j).uses k =
      ∑ j ∈ Finset.univ.erase i, (s.loc j).uses k :=
    Finset.sum_congr rfl fun j hj => by rw [hloc j (Finset.ne_of_mem_erase hj)]
  have h1 := Finset.add_sum_erase univ (fun j => (s'.loc j).uses k) (mem_univ i)
  have h2 := Finset.add_sum_erase univ (fun j => (s.loc j).uses k) (mem_univ i)
  have h3 := h k
  have h4 := hk k
  omega

end Count

/-! ## Locks and names -/

/-- **The sleep locks.**  The owner of a buffer holds it or reads it, and only held buffers are
modified. -/
structure LockInv (s : CacheSystem ι) : Prop where
  owner : ∀ k i, (s.bc.buf k).owner = some i ↔
    k ∈ (s.loc i).holds ∨ ∃ b, (s.loc i).busy = .filling k b
  apart : ∀ i k b, (s.loc i).busy = .filling k b → k ∉ (s.loc i).holds
  dirty : ∀ i, (s.loc i).dirty ⊆ (s.loc i).holds

/-- **The names of the buffers.**  No block has two buffers, and a buffer in use is that of its
block. -/
structure NameInv (s : CacheSystem ι) : Prop where
  unique : ∀ k k', (s.bc.buf k).dev = rootdev → (s.bc.buf k').dev = rootdev →
    (s.bc.buf k).blockno = (s.bc.buf k').blockno → k = k'
  named : ∀ i k b, (s.loc i).busy = .acquiring k b ∨ (s.loc i).busy = .filling k b →
    (s.bc.buf k).dev = rootdev ∧ (s.bc.buf k).blockno = b
  held : ∀ i k, k ∈ (s.loc i).holds → (s.bc.buf k).dev = rootdev ∧ (s.bc.buf k).valid = true
  pinned : ∀ b ∈ s.pins, ∃ k, (s.bc.buf k).dev = rootdev ∧ (s.bc.buf k).blockno = b ∧
    (s.bc.buf k).valid = true

section Lock

variable {s s' : CacheSystem ι} {i : ι} {k : Fin nbuf}

theorem LockInv.holds_of_owner (h : LockInv s) (hown : (s.bc.buf k).owner = some i)
    (hidle : (s.loc i).busy = .idle) : k ∈ (s.loc i).holds := by
  rcases (h.owner k i).mp hown with hk | ⟨b, hb⟩
  · exact hk
  · rw [hidle] at hb
    exact absurd hb (by simp)

theorem LockInv.holder_eq (h : LockInv s) {j : ι} (hi : k ∈ (s.loc i).holds)
    (hj : k ∈ (s.loc j).holds) : i = j := by
  have h1 := (h.owner k i).mpr (.inl hi)
  have h2 := (h.owner k j).mpr (.inl hj)
  rw [h1] at h2
  exact Option.some.inj h2

theorem LockInv.keep (h : LockInv s) (hown : ∀ k, (s'.bc.buf k).owner = (s.bc.buf k).owner)
    (hbusy : ∀ j k b, (s'.loc j).busy = .filling k b ↔ (s.loc j).busy = .filling k b)
    (hholds : ∀ j, (s'.loc j).holds = (s.loc j).holds)
    (hdirty : ∀ j, (s'.loc j).dirty ⊆ (s'.loc j).holds) : LockInv s' where
  owner k j := by
    rw [hown, hholds, h.owner k j]
    simp only [hbusy]
  apart j k b hb := by
    rw [hholds]
    exact h.apart j k b ((hbusy j k b).mp hb)
  dirty := hdirty

end Lock

/-! ## What the steps do to the buffers -/

/-- The invariants of the buffers. -/
structure BufInv [Fintype ι] (s : CacheSystem ι) : Prop where
  linked : s.bc.Linked
  count : CountInv s
  lock : LockInv s
  name : NameInv s

namespace BufInv

variable [DecidableEq ι] [Fintype ι] {s : CacheSystem ι} {i : ι} {k : Fin nbuf} {b : Nat}
  {l : Local} {s' : CacheSystem ι} {x : Block}

theorem init (disk : Nat → Block) : BufInv (CacheSystem.init disk : CacheSystem ι) where
  linked := binit_linked _
  count k := by simp [CacheSystem.init, binit, Bcache.zero, Local.uses, CacheSystem.pin]
  lock :=
    { owner := by simp [CacheSystem.init, binit]
      apart := by simp [CacheSystem.init]
      dirty := by simp [CacheSystem.init] }
  name :=
    { unique := by simp [CacheSystem.init, binit, Bcache.zero]
      named := by simp [CacheSystem.init]
      held := by simp [CacheSystem.init]
      pinned := by simp [CacheSystem.init] }

theorem unused (h : BufInv s) (h0 : (s.bc.buf k).refcnt = 0) (j : ι) : (s.loc j).uses k = 0 := by
  by_contra hne
  have := h.count.pos_of_uses (Nat.pos_of_ne_zero hne)
  omega

theorem uses_of_holds (hk : k ∈ l.holds) : 0 < l.uses k := by
  rw [Local.uses, if_pos hk]
  exact Nat.succ_pos _

theorem uses_of_busy (hb : l.busy = .acquiring k b ∨ l.busy = .filling k b) :
    0 < l.uses k := by
  rcases hb with hb | hb <;> simp [Local.uses, hb]

/-- What the invariants say about one process. -/
structure ProcInv (s : CacheSystem ι) (i : ι) : Prop where
  owner : ∀ k, (s.bc.buf k).owner = some i ↔
    k ∈ (s.loc i).holds ∨ ∃ b, (s.loc i).busy = .filling k b
  apart : ∀ k b, (s.loc i).busy = .filling k b → k ∉ (s.loc i).holds
  dirty : (s.loc i).dirty ⊆ (s.loc i).holds
  named : ∀ k b, (s.loc i).busy = .acquiring k b ∨ (s.loc i).busy = .filling k b →
    (s.bc.buf k).dev = rootdev ∧ (s.bc.buf k).blockno = b
  held : ∀ k, k ∈ (s.loc i).holds → (s.bc.buf k).dev = rootdev ∧ (s.bc.buf k).valid = true

variable (h : BufInv s)
include h

/-- **A step at one buffer** that renames no buffer: the other processes are where they were, so
only the process itself and the references are to be looked at. -/
theorem change (ht : Touches s s' i l k)
    (hlinked : s'.bc.Linked) (hdev : (s'.bc.buf k).dev = (s.bc.buf k).dev)
    (hblock : (s'.bc.buf k).blockno = (s.bc.buf k).blockno)
    (hvalid : (s.bc.buf k).valid = true → (s'.bc.buf k).valid = true)
    (hpins : ∀ b, b ∈ s'.pins → b ∈ s.pins ∨
      (s.bc.buf k).dev = rootdev ∧ (s.bc.buf k).blockno = b ∧ (s.bc.buf k).valid = true)
    (hcount : ∀ j, (s'.bc.buf j).refcnt + (s.loc i).uses j + s.pin j =
      (s.bc.buf j).refcnt + l.uses j + s'.pin j)
    (hother : ∀ j, j ≠ i → ((s'.bc.buf k).owner = some j ↔ (s.bc.buf k).owner = some j))
    (hproc : ProcInv s' i) : BufInv s' := by
  have hdev := ht.bufField Buf.dev hdev
  have hblock := ht.bufField Buf.blockno hblock
  have hvalid : ∀ j, (s.bc.buf j).valid = true → (s'.bc.buf j).valid = true := by
    intro j hj
    by_cases hjk : j = k
    · subst hjk
      exact hvalid hj
    · rwa [ht.buf j hjk]
  have hproc : ∀ j, ProcInv s' j := by
    intro j
    by_cases hji : j = i
    · rwa [hji]
    · have howner : ∀ k', (s'.bc.buf k').owner = some j ↔ (s.bc.buf k').owner = some j := by
        intro k'
        by_cases hk : k' = k
        · rw [hk]
          exact hother j hji
        · rw [ht.buf k' hk]
      constructor <;> rw [ht.loc j hji]
      · exact fun k' => (howner k').trans (h.lock.owner k' j)
      · exact h.lock.apart j
      · exact h.lock.dirty j
      · intro k' b' hb
        rw [hdev, hblock]
        exact h.name.named j k' b' hb
      · intro k' hk
        obtain ⟨hroot, hval⟩ := h.name.held j k' hk
        exact ⟨(hdev k').trans hroot, hvalid k' hval⟩
  refine ⟨hlinked, h.count.change ht.loc fun j => by rw [ht.self, hcount],
    ⟨fun k' j => (hproc j).owner k', fun j => (hproc j).apart, fun j => (hproc j).dirty⟩,
    ⟨fun k₁ k₂ h₁ h₂ heq => ?_, fun j => (hproc j).named, fun j => (hproc j).held,
      fun b' hb' => ?_⟩⟩
  · rw [hdev] at h₁ h₂
    rw [hblock, hblock] at heq
    exact h.name.unique k₁ k₂ h₁ h₂ heq
  · obtain ⟨k', h1, h2, h3⟩ : ∃ k', (s.bc.buf k').dev = rootdev ∧ (s.bc.buf k').blockno = b' ∧
        (s.bc.buf k').valid = true := (hpins b' hb').elim (h.name.pinned b') fun hk => ⟨k, hk⟩
    exact ⟨k', (hdev k').trans h1, (hblock k').trans h2, hvalid k' h3⟩

theorem touch (ht : Touches s s' i l k) (hlinked : s'.bc.Linked) (hpins : s'.pins = s.pins)
    (hdev : (s'.bc.buf k).dev = (s.bc.buf k).dev)
    (hblock : (s'.bc.buf k).blockno = (s.bc.buf k).blockno)
    (hvalid : (s.bc.buf k).valid = true → (s'.bc.buf k).valid = true)
    (hcount : ∀ j, (s'.bc.buf j).refcnt + (s.loc i).uses j = (s.bc.buf j).refcnt + l.uses j)
    (hother : ∀ j, j ≠ i → ((s'.bc.buf k).owner = some j ↔ (s.bc.buf k).owner = some j))
    (hproc : ProcInv s' i) : BufInv s' := by
  refine h.change ht hlinked hdev hblock hvalid (fun b hb => .inl (hpins ▸ hb)) (fun j => ?_)
    hother hproc
  rw [pin_eq (ht.bufField Buf.dev hdev j) (ht.bufField Buf.blockno hblock j) hpins, hcount]

theorem lookup_hit {c : Bcache ι} (hidle : (s.loc i).busy = .idle)
    (hdev : (s.bc.buf k).dev = rootdev) (hblock : (s.bc.buf k).blockno = b)
    (hc : c = s.bc.setBuf k { s.bc.buf k with refcnt := (s.bc.buf k).refcnt + 1 }) :
    BufInv (s.lookup i b k c) := by
  have ht := s.lookup_touches i k b fun j hj => hc ▸ Bcache.setBuf_of_ne hj
  have hbk : (s.lookup i b k c).bc.buf k =
    { s.bc.buf k with refcnt := (s.bc.buf k).refcnt + 1 } := hc ▸ Bcache.setBuf_self
  have hlinked : (s.lookup i b k c).bc.Linked := hc ▸ h.linked
  refine h.touch ht hlinked rfl (by rw [hbk]) (by rw [hbk]) (by rw [hbk]; exact id)
    (fun j => ?_) (fun j _ => by rw [hbk]) ?_
  · by_cases hjk : j = k
    · subst hjk
      rw [hbk]
      simp only [Local.uses, hidle, if_true]
      omega
    · rw [ht.buf j hjk]
      simp only [Local.uses, hidle, if_neg (Ne.symm hjk)]
  · have howner := ht.bufField Buf.owner (by rw [hbk])
    have hdev' := ht.bufField Buf.dev (by rw [hbk])
    have hblock' := ht.bufField Buf.blockno (by rw [hbk])
    have hvalid' := ht.bufField Buf.valid (by rw [hbk])
    constructor <;> rw [ht.self]
    · intro j
      rw [howner, h.lock.owner, hidle]
      simp
    · exact fun _ _ hb => absurd hb (by simp)
    · exact h.lock.dirty i
    · rintro j b' (hb | hb)
      · obtain ⟨rfl, rfl⟩ := Busy.acquiring.inj hb
        exact ⟨(hdev' k).trans hdev, (hblock' k).trans hblock⟩
      · exact absurd hb (by simp)
    · intro j hj
      rw [hdev', hvalid']
      exact h.name.held i j hj

/-- `bget` gives a buffer that nobody uses to a block that no other buffer has. -/
theorem lookup_miss {c : Bcache ι} (hidle : (s.loc i).busy = .idle)
    (hmiss : ∀ j, ¬((s.bc.buf j).dev = rootdev ∧ (s.bc.buf j).blockno = b))
    (h0 : (s.bc.buf k).refcnt = 0) (hc : c = s.bc.setBuf k
      { s.bc.buf k with dev := rootdev, blockno := b, valid := false, refcnt := 1 }) :
    BufInv (s.lookup i b k c) := by
  have ht := s.lookup_touches i k b fun j hj => hc ▸ Bcache.setBuf_of_ne hj
  have hbk : (s.lookup i b k c).bc.buf k =
    { s.bc.buf k with dev := rootdev, blockno := b, valid := false, refcnt := 1 } :=
    hc ▸ Bcache.setBuf_self
  have hlinked : (s.lookup i b k c).bc.Linked := hc ▸ h.linked
  have hpins : (s.lookup i b k c).pins = s.pins := rfl
  generalize s.lookup i b k c = s' at *
  have hholds := ht.field Local.holds rfl
  have hused : ∀ j k', 0 < (s.loc j).uses k' → k' ≠ k := by
    rintro j k' hpos rfl
    rw [h.unused h0 j] at hpos
    exact absurd hpos (Nat.lt_irrefl 0)
  have hpin0 : s.pin k = 0 := by
    rw [CacheSystem.pin, if_neg]
    rintro ⟨hdev, hblock⟩
    have := h.count.pos_of_pin hdev hblock
    omega
  have hpin0' : s'.pin k = 0 := by
    rw [CacheSystem.pin, hbk, hpins, if_neg]
    rintro ⟨-, hb⟩
    obtain ⟨k', hdev, hblock, -⟩ := h.name.pinned b hb
    exact hmiss k' ⟨hdev, hblock⟩
  have hfill : ∀ j k' b', (s'.loc j).busy = .filling k' b' ↔ (s.loc j).busy = .filling k' b' := by
    intro j k' b'
    by_cases hji : j = i
    · rw [hji, ht.self, hidle]
      simp
    · rw [ht.loc j hji]
  refine ⟨hlinked, h.count.change ht.loc fun k' => ?_,
    h.lock.keep (ht.bufField Buf.owner (by rw [hbk])) hfill hholds fun j => ?_,
    ⟨fun k₁ k₂ h₁ h₂ heq => ?_, fun j k' b' hb => ?_, fun j k' hk' => ?_, fun b' hb' => ?_⟩⟩
  · rw [ht.self]
    simp only [Local.uses, hidle]
    by_cases hk : k' = k
    · rw [hk, hpin0, hpin0', h0, hbk, if_pos rfl]
      show 1 + _ + 0 = 0 + _ + 0
      omega
    · rw [pin_eq (by rw [ht.buf k' hk]) (by rw [ht.buf k' hk]) hpins, ht.buf k' hk,
        if_neg (Ne.symm hk)]
  · rw [hholds, ht.field Local.dirty rfl]
    exact h.lock.dirty j
  · by_cases hk₁ : k₁ = k <;> by_cases hk₂ : k₂ = k
    · rw [hk₁, hk₂]
    · rw [hk₁, hbk, ht.buf k₂ hk₂] at heq
      rw [ht.buf k₂ hk₂] at h₂
      exact absurd ⟨h₂, heq.symm⟩ (hmiss k₂)
    · rw [hk₂, hbk, ht.buf k₁ hk₁] at heq
      rw [ht.buf k₁ hk₁] at h₁
      exact absurd ⟨h₁, heq⟩ (hmiss k₁)
    · rw [ht.buf k₁ hk₁, ht.buf k₂ hk₂] at heq
      rw [ht.buf k₁ hk₁] at h₁
      rw [ht.buf k₂ hk₂] at h₂
      exact h.name.unique k₁ k₂ h₁ h₂ heq
  · by_cases hji : j = i
    · rw [hji, ht.self] at hb
      obtain ⟨rfl, rfl⟩ := Busy.acquiring.inj (hb.resolve_right (by simp))
      rw [hbk]
      exact ⟨rfl, rfl⟩
    · rw [ht.loc j hji] at hb
      rw [ht.buf k' (hused j k' (uses_of_busy hb))]
      exact h.name.named j k' b' hb
  · rw [hholds] at hk'
    rw [ht.buf k' (hused j k' (uses_of_holds hk'))]
    exact h.name.held j k' hk'
  · rw [hpins] at hb'
    obtain ⟨k', hdev, hblock, hval⟩ := h.name.pinned b' hb'
    have hk' : k' ≠ k := by
      rintro rfl
      have := h.count.pos_of_pin hdev (hblock ▸ hb')
      omega
    refine ⟨k', ?_⟩
    rw [ht.buf k' hk']
    exact ⟨hdev, hblock, hval⟩

theorem lookup {c : Bcache ι} (hidle : (s.loc i).busy = .idle)
    (hgot : Got rootdev b k s.bc c) : BufInv (s.lookup i b k c) := by
  rcases hgot with ⟨hdev, hblock, hc⟩ | ⟨hmiss, h0, hc⟩
  · exact h.lookup_hit hidle hdev hblock hc
  · exact h.lookup_miss hidle hmiss h0 hc

theorem acquire (hbusy : (s.loc i).busy = .acquiring k b)
    (hfree : (s.bc.buf k).owner = none) : BufInv (s.acquire i k b) := by
  obtain ⟨ht, hbk⟩ := s.acquire_touches i k b
  have hdev := ht.bufField Buf.dev (by rw [hbk])
  have hblock := ht.bufField Buf.blockno (by rw [hbk])
  have hvalid := ht.bufField Buf.valid (by rw [hbk])
  -- nobody owns the buffer yet
  have hnot : k ∉ (s.loc i).holds := by
    intro hk
    have := (h.lock.owner k i).mpr (.inl hk)
    rw [hfree] at this
    cases this
  refine h.touch ht h.linked rfl (hdev k) (hblock k) (by rw [hvalid]; exact id) (fun j => ?_)
    (fun j hji => ?_) ?_
  · rw [ht.bufField Buf.refcnt (by rw [hbk])]
    simp only [Local.uses, hbusy]
  · rw [hbk, hfree]
    simp [Ne.symm hji]
  · constructor <;> rw [ht.self]
    · intro j
      by_cases hjk : j = k
      · subst hjk
        simp [hbk]
      · rw [ht.buf j hjk, h.lock.owner, hbusy]
        simp [Ne.symm hjk]
    · intro j b' hb
      obtain ⟨rfl, -⟩ := Busy.filling.inj hb
      exact hnot
    · exact h.lock.dirty i
    · rintro j b' (hb | hb)
      · exact absurd hb (by simp)
      · obtain ⟨rfl, rfl⟩ := Busy.filling.inj hb
        rw [hdev, hblock]
        exact h.name.named i k b (.inl hbusy)
    · intro j hj
      rw [hdev, hvalid]
      exact h.name.held i j hj

theorem fill (hbusy : (s.loc i).busy = .filling k b) : BufInv (s.fill i k) := by
  obtain ⟨ht, ⟨x, hbk⟩, hring⟩ := s.fill_touches i k
  have hpins : (s.fill i k).pins = s.pins := rfl
  generalize s.fill i k = s' at *
  have hdev := ht.bufField Buf.dev (by rw [hbk])
  have hblock := ht.bufField Buf.blockno (by rw [hbk])
  have hown := ht.bufField Buf.owner (by rw [hbk])
  have hk := h.lock.apart i k b hbusy
  refine h.touch ht (h.linked.of_ring hring) hpins (hdev k) (hblock k) (fun _ => by rw [hbk])
    (fun j => ?_)
    (fun j _ => by rw [hown]) ?_
  · rw [ht.bufField Buf.refcnt (by rw [hbk])]
    simp only [Local.uses, hbusy, mem_insert]
    by_cases hj : j = k
    · subst hj
      simp [hk]
    · simp [hj, Ne.symm hj]
  · constructor <;> rw [ht.self]
    · intro j
      rw [hown, h.lock.owner, hbusy, mem_insert]
      simp only [Busy.filling.injEq]
      constructor
      · rintro (hj | ⟨b', rfl, -⟩)
        · exact .inl (.inr hj)
        · exact .inl (.inl rfl)
      · rintro ((rfl | hj) | ⟨b', hb'⟩)
        · exact .inr ⟨b, rfl, rfl⟩
        · exact .inl hj
        · exact absurd hb' (by simp)
    · exact fun _ _ hb => absurd hb (by simp)
    · exact (h.lock.dirty i).trans (Finset.subset_insert _ _)
    · rintro j b' hb
      simp at hb
    · intro j hj
      rw [hdev]
      by_cases hjk : j = k
      · rw [hjk, hbk]
        exact ⟨(h.name.named i k b (.inr hbusy)).1, rfl⟩
      · rw [ht.buf j hjk]
        exact h.name.held i j ((Finset.mem_insert.mp hj).resolve_left hjk)

theorem proc {n : Nat}
    (ht : Touches s s' i l k) (hbk : s'.bc.buf k = { s.bc.buf k with data := x, refcnt := n })
    (hbusy : l.busy = (s.loc i).busy) (hholds : l.holds = (s.loc i).holds)
    (hdirty : l.dirty ⊆ (s.loc i).holds) : ProcInv s' i := by
  have hdev := ht.bufField Buf.dev (by rw [hbk])
  constructor <;> rw [ht.self]
  · intro j
    rw [ht.bufField Buf.owner (by rw [hbk]), hbusy, hholds]
    exact h.lock.owner j i
  · rw [hbusy, hholds]
    exact h.lock.apart i
  · rwa [hholds]
  · intro j b hb
    rw [hbusy] at hb
    rw [hdev, ht.bufField Buf.blockno (by rw [hbk])]
    exact h.name.named i j b hb
  · intro j hj
    rw [hholds] at hj
    rw [hdev, ht.bufField Buf.valid (by rw [hbk])]
    exact h.name.held i j hj

omit h in
theorem uses_eq {l' : Local} (hbusy : l'.busy = l.busy) (hholds : l'.holds = l.holds) :
    l'.uses k = l.uses k := by
  simp only [Local.uses, hbusy, hholds]

/-- A step that changes the contents of a buffer, modified or not, and nothing else. -/
theorem quiet (ht : Touches s s' i l k) (hring : s'.bc.ring = s.bc.ring)
    (hbk : s'.bc.buf k = { s.bc.buf k with data := x }) (hbusy : l.busy = (s.loc i).busy)
    (hholds : l.holds = (s.loc i).holds) (hdirty : l.dirty ⊆ (s.loc i).holds)
    (hpins : s'.pins = s.pins) : BufInv s' := by
  refine h.touch ht (h.linked.of_ring hring) hpins (by rw [hbk]) (by rw [hbk])
    (by rw [hbk]; exact id) (fun j => ?_) (fun j _ => by rw [hbk])
    (h.proc ht hbk hbusy hholds hdirty)
  rw [uses_eq hbusy hholds, ht.bufField Buf.refcnt (by rw [hbk])]

theorem modifyBuf {x : Block} (hk : k ∈ (s.loc i).holds) : BufInv (s.modifyBuf i k x) := by
  obtain ⟨ht, hbk⟩ := s.modifyBuf_touches i k x
  exact h.quiet ht rfl hbk rfl rfl (Finset.insert_subset hk (h.lock.dirty i)) rfl

theorem installBuf {x : Block} : BufInv (s.installBuf i k x) := by
  obtain ⟨ht, hbk⟩ := s.installBuf_touches i k x
  exact h.quiet ht rfl hbk rfl rfl (h.lock.dirty i) rfl

theorem bwriteBuf : BufInv (s.bwriteBuf i k) := by
  obtain ⟨ht, -, hbc, hpins⟩ := s.bwriteBuf_touches i k
  have hbk : (s.bwriteBuf i k).bc.buf k = { s.bc.buf k with data := (s.bc.buf k).data } := by
    rw [hbc]
  exact h.quiet ht (by rw [hbc]) hbk rfl rfl
    ((Finset.erase_subset _ _).trans (h.lock.dirty i)) hpins

theorem protocol (g : System ι) : BufInv (s.protocol g) := by
  have hloc := s.protocol_loc g
  refine ⟨h.linked, fun k => ?_, ⟨fun k j => ?_, fun j => ?_, fun j => ?_⟩,
    ⟨h.name.unique, fun j => ?_, fun j => ?_, h.name.pinned⟩⟩
  · simp only [fun j => uses_eq (k := k) (hloc j).1 (hloc j).2.1]
    exact h.count k
  · rw [(hloc j).1, (hloc j).2.1]
    exact h.lock.owner k j
  · rw [(hloc j).1, (hloc j).2.1]
    exact h.lock.apart j
  · rw [(hloc j).2.1, (hloc j).2.2]
    exact h.lock.dirty j
  · rw [(hloc j).1]
    exact h.name.named j
  · rw [(hloc j).2.1]
    exact h.name.held j

theorem repin {n : Nat} (ht : Touches s s' i l k)
    (hring : s'.bc.ring = s.bc.ring) (hk : k ∈ (s.loc i).holds)
    (hbk : s'.bc.buf k = { s.bc.buf k with refcnt := n })
    (hpins : ∀ b, b ≠ (s.bc.buf k).blockno → (b ∈ s'.pins ↔ b ∈ s.pins))
    (hn : n + s.pin k = (s.bc.buf k).refcnt + s'.pin k) (hbusy : l.busy = (s.loc i).busy)
    (hholds : l.holds = (s.loc i).holds) (hdirty : l.dirty ⊆ (s.loc i).holds) : BufInv s' := by
  obtain ⟨hroot, hval⟩ := h.name.held i k hk
  refine h.change ht (h.linked.of_ring hring) (by rw [hbk]) (by rw [hbk]) (by rw [hbk]; exact id)
    (fun b hb => ?_) (fun j => ?_) (fun j _ => by rw [hbk]) (h.proc ht hbk hbusy hholds hdirty)
  · by_cases hbk : b = (s.bc.buf k).blockno
    · exact .inr ⟨hroot, hbk.symm, hval⟩
    · exact .inl ((hpins b hbk).mp hb)
  · rw [uses_eq hbusy hholds]
    by_cases hj : j = k
    · subst hj
      rw [hbk]
      dsimp only
      omega
    · -- no other buffer has the block
      have hpin : s'.pin j = s.pin j := by
        simp only [CacheSystem.pin, ht.buf j hj]
        by_cases hr : (s.bc.buf j).dev = rootdev
        · have hb : (s.bc.buf j).blockno ≠ (s.bc.buf k).blockno := fun hb =>
            hj (h.name.unique j k hr hroot hb)
          simp only [hr, true_and, hpins _ hb]
        · simp only [hr, false_and]
      rw [ht.buf j hj, hpin]

theorem logWriteBuf {log : GroupLog} (hk : k ∈ (s.loc i).holds)
    (hlog : (s.bc.buf k).blockno ∈ s.group.log.lh ↔ (s.bc.buf k).blockno ∈ s.pins) :
    BufInv (s.logWriteBuf i k log) := by
  obtain ⟨hroot, -⟩ := h.name.held i k hk
  obtain ⟨ht, hbk, hring⟩ := s.logWriteBuf_touches i k log
  refine h.repin ht hring hk hbk (fun b hb => ?_) ?_ rfl rfl
    ((Finset.erase_subset _ _).trans (h.lock.dirty i))
  · show b ∈ insert _ s.pins ↔ _
    rw [mem_insert, or_iff_right hb]
  · have hpin : (s.logWriteBuf i k log).pin k = 1 := by
      rw [CacheSystem.pin, hbk, if_pos]
      exact ⟨hroot, Finset.mem_insert_self _ _⟩
    rw [hpin, CacheSystem.pin]
    by_cases hb : (s.bc.buf k).blockno ∈ s.group.log.lh
    · -- absorbed: the log has its reference already
      rw [if_pos hb, if_pos ⟨hroot, hlog.mp hb⟩]
    · rw [if_neg hb, if_neg fun hp => hb (hlog.mpr hp.2)]

theorem unpinBuf (hk : k ∈ (s.loc i).holds)
    (hpin : (s.bc.buf k).blockno ∈ s.pins) : BufInv (s.unpinBuf i k) := by
  obtain ⟨hroot, -⟩ := h.name.held i k hk
  obtain ⟨ht, hbk⟩ := s.unpinBuf_touches i k
  have hring : (s.unpinBuf i k).bc.ring = s.bc.ring := rfl
  refine h.repin ht hring hk hbk (fun b hb => ?_) ?_ rfl rfl (h.lock.dirty i)
  · show b ∈ s.pins.erase _ ↔ _
    rw [Finset.mem_erase, and_iff_right hb]
  · have hpos := h.count.pos_of_pin hroot hpin
    have hpin' : (s.unpinBuf i k).pin k = 0 := by
      rw [CacheSystem.pin, hbk, if_neg]
      rintro ⟨-, hb⟩
      exact Finset.notMem_erase _ _ hb
    rw [hpin', CacheSystem.pin, if_pos ⟨hroot, hpin⟩]
    omega

theorem release (hidle : (s.loc i).busy = .idle) (hk : k ∈ (s.loc i).holds)
    (hclean : k ∉ (s.loc i).dirty) : BufInv (s.release i k) := by
  obtain ⟨ht, hbk⟩ := s.release_touches i k
  have hdev := ht.bufField Buf.dev (by rw [hbk])
  have hvalid := ht.bufField Buf.valid (by rw [hbk])
  refine h.touch ht h.linked rfl (hdev k) (by rw [hbk]) (by rw [hvalid]; exact id) (fun j => ?_)
    (fun j hji => ?_) ?_
  · rw [ht.bufField Buf.refcnt (by rw [hbk])]
    simp only [Local.uses, hidle, Finset.mem_erase]
    by_cases hj : j = k
    · subst hj
      simp [hk]
    · simp [hj, Ne.symm hj]
  · -- only the process that releases the buffer owned it
    rw [hbk, (h.lock.owner k i).mpr (.inl hk)]
    simp [Ne.symm hji]
  · constructor <;> rw [ht.self]
    · intro j
      by_cases hjk : j = k
      · subst hjk
        simp [hbk]
      · rw [ht.buf j hjk, h.lock.owner, hidle]
        simp [hjk]
    · exact fun _ _ hb => absurd hb (by simp)
    · refine fun j hj => Finset.mem_erase.mpr ⟨?_, h.lock.dirty i hj⟩
      rintro rfl
      exact hclean hj
    · rintro j b' hb
      simp at hb
    · intro j hj
      rw [hdev, hvalid]
      exact h.name.held i j (Finset.mem_of_mem_erase hj)

theorem drop (hbusy : (s.loc i).busy = .releasing k) : BufInv (s.drop i k) := by
  obtain ⟨ht, hbk⟩ := s.drop_touches i k
  have hdev := ht.bufField Buf.dev (by rw [hbk])
  have hvalid := ht.bufField Buf.valid (by rw [hbk])
  have hown := ht.bufField Buf.owner (by rw [hbk])
  refine h.touch ht h.linked.brelseDrop rfl (hdev k) (by rw [hbk]) (by rw [hvalid]; exact id)
    (fun j => ?_) (fun j _ => by rw [hown]) ?_
  · have hpos : 0 < (s.bc.buf k).refcnt :=
      h.count.pos_of_uses (i := i) (by simp [Local.uses, hbusy])
    by_cases hjk : j = k
    · subst hjk
      rw [hbk]
      simp only [Local.uses, hbusy, if_true]
      omega
    · rw [ht.buf j hjk]
      simp only [Local.uses, hbusy, if_neg (Ne.symm hjk)]
  · constructor <;> rw [ht.self]
    · intro j
      rw [hown, h.lock.owner, hbusy]
      simp
    · exact fun _ _ hb => absurd hb (by simp)
    · exact h.lock.dirty i
    · rintro j b' hb
      simp at hb
    · intro j hj
      rw [hdev, hvalid]
      exact h.name.held i j hj

end BufInv

end Xv6Paging
