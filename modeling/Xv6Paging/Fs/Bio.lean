import Mathlib.Data.List.FinRange
import Xv6Paging.Log.Group
import Xv6Paging.Logic.Ring

/-!
# The buffer cache

The functions of `bio.c`.  The buffers hang in a ring through `bcache.head`, the most recently used
one first.  What runs under `bcache.lock` is one program of `BioM`; a buffer's sleep lock is the
field `owner`.
-/

namespace Xv6Paging

open StateHalt LinkedRing

abbrev nbuf : Nat := maxOpBlocks * 3

abbrev rootdev : Nat := 1

/-- `struct buf` without its pointers.  `owner` is the holder of the sleep lock. -/
structure Buf (ι : Type) where
  valid : Bool
  dev : Nat
  blockno : Nat
  owner : Option ι
  refcnt : Nat
  data : Block

/-- `bcache`: the buffers, and the pointers `next` and `prev` of the buffers and of
`bcache.head`. -/
structure Bcache (ι : Type) where
  ring : Links (Fin nbuf)
  buf : Fin nbuf → Buf ι

/-- Why a function of `bio.c` does not return. -/
inductive BioPanic
  | noBuffers
  | endless

/-- Programs under `bcache.lock`. -/
abbrev BioM (ι : Type) := EStateM BioPanic (Bcache ι)

section Code

variable {ι : Type}

/-- The zeroed `bcache`, before `binit`. -/
def Bcache.zero : Bcache ι where
  ring := ⟨fun _ => none, fun _ => none⟩
  buf := fun _ => ⟨false, 0, 0, none, 0, fun _ => 0⟩

/-- `binit`: the head points to itself, and the buffers are put behind it one by one. -/
def binit (c : Bcache ι) : Bcache ι :=
  let r : Links (Fin nbuf) :=
    ⟨Function.update c.ring.next none none, Function.update c.ring.prev none none⟩
  { c with
    ring := (List.finRange nbuf).foldl Links.pushFront r
    buf := fun k => { c.buf k with owner := none } }

/-- The fields of one buffer change. -/
def Bcache.setBuf (c : Bcache ι) (k : Fin nbuf) (b : Buf ι) : Bcache ι :=
  { c with buf := Function.update c.buf k b }

/-- The part of `bget` under `bcache.lock`: the buffer of the block, or the least recently used one
that nobody uses. -/
def bgetSlot (dev blockno : Nat) : BioM ι (Fin nbuf) := do
  let c ← get
  match Links.scan c.ring.next (fun k => (c.buf k).dev == dev && (c.buf k).blockno == blockno)
      (nbuf + 1) (c.ring.next none) with
  | none => throw .endless
  | some (some k) => do
    modify fun c => c.setBuf k { c.buf k with refcnt := (c.buf k).refcnt + 1 }
    pure k
  | some none =>
    match Links.scan c.ring.prev (fun k => (c.buf k).refcnt == 0) (nbuf + 1) (c.ring.prev none) with
    | none => throw .endless
    | some none => throw .noBuffers
    | some (some k) => do
      modify fun c => c.setBuf k
        { c.buf k with dev := dev, blockno := blockno, valid := false, refcnt := 1 }
      pure k

/-- `acquiresleep` on a buffer whose lock is free. -/
def Bcache.lock (c : Bcache ι) (k : Fin nbuf) (i : ι) : Bcache ι :=
  c.setBuf k { c.buf k with owner := some i }

/-- `releasesleep`. -/
def Bcache.unlock (c : Bcache ι) (k : Fin nbuf) : Bcache ι :=
  c.setBuf k { c.buf k with owner := none }

/-- The rest of `bread`: a buffer without contents is read from the disk. -/
def Bcache.fill (c : Bcache ι) (disk : Nat → Block) (k : Fin nbuf) : Bcache ι :=
  if (c.buf k).valid then c
  else c.setBuf k { c.buf k with data := disk (c.buf k).blockno, valid := true }

/-- A modification of the contents. -/
def Bcache.store (c : Bcache ι) (k : Fin nbuf) (x : Block) : Bcache ι :=
  c.setBuf k { c.buf k with data := x }

def Bcache.bpin (c : Bcache ι) (k : Fin nbuf) : Bcache ι :=
  c.setBuf k { c.buf k with refcnt := (c.buf k).refcnt + 1 }

def Bcache.bunpin (c : Bcache ι) (k : Fin nbuf) : Bcache ι :=
  c.setBuf k { c.buf k with refcnt := (c.buf k).refcnt - 1 }

/-- The part of `brelse` under `bcache.lock`: a buffer that nobody uses any more goes to the front
of the ring. -/
def Bcache.brelseDrop (c : Bcache ι) (k : Fin nbuf) : Bcache ι :=
  let c := c.bunpin k
  if (c.buf k).refcnt = 0 then { c with ring := (c.ring.unlink k).pushFront k } else c

end Code

section Spec

variable {ι : Type} {c c' : Bcache ι} {k : Fin nbuf} {dev blockno : Nat}

/-- The ring holds every buffer. -/
def Bcache.Linked (c : Bcache ι) : Prop := ∃ l, c.ring.Holds l ∧ ∀ k, k ∈ l

theorem binit_linked (c : Bcache ι) : (binit c).Linked := by
  refine ⟨(List.finRange nbuf).reverse ++ [], ?_, fun k => ?_⟩
  · refine Links.Holds.pushAll _ ⟨⟨?_, ?_⟩, List.nodup_nil⟩ ?_
    · simp
    · simp
    · rw [List.append_nil]
      exact List.nodup_finRange nbuf
  · simp

theorem length_of_all {l : List (Fin nbuf)} (hnd : l.Nodup) (hall : ∀ k, k ∈ l) :
    l.length = nbuf := by
  have hperm : l.Perm (List.finRange nbuf) :=
    (List.perm_ext_iff_of_nodup hnd (List.nodup_finRange nbuf)).mpr fun k => by simp [hall k]
  rw [hperm.length_eq, List.length_finRange]

theorem Bcache.Linked.brelseDrop (h : c.Linked) : (c.brelseDrop k).Linked := by
  unfold Bcache.brelseDrop
  dsimp only
  split
  · obtain ⟨l, hl, hall⟩ := h
    obtain ⟨l₁, l₂, rfl⟩ := List.append_of_mem (hall k)
    have hnd := List.perm_middle.nodup_iff.mp hl.nodup
    have hk : k ∉ l₁ ++ l₂ := (List.nodup_cons.mp hnd).1
    refine ⟨k :: (l₁ ++ l₂), hl.unlink.pushFront hk, fun j => ?_⟩
    exact List.perm_middle.mem_iff.mp (hall j)
  · exact h

/-- What `bget` did: the buffer of the block has one more user, or no buffer had the block and one
that nobody used has been given to it. -/
def Got (dev blockno : Nat) (k : Fin nbuf) (c c' : Bcache ι) : Prop :=
  ((c.buf k).dev = dev ∧ (c.buf k).blockno = blockno ∧
    c' = c.setBuf k { c.buf k with refcnt := (c.buf k).refcnt + 1 }) ∨
  ((∀ j, ¬((c.buf j).dev = dev ∧ (c.buf j).blockno = blockno)) ∧ (c.buf k).refcnt = 0 ∧
    c' = c.setBuf k { c.buf k with dev := dev, blockno := blockno, valid := false, refcnt := 1 })

/-- **`bget`** finds the buffer of the block or recycles one; its loops end. -/
theorem bgetSlot_spec (h : c.Linked) :
    wp (bgetSlot dev blockno) (fun k c' => Got dev blockno k c c')
      (fun e _ => e = .noBuffers) c := by
  obtain ⟨l, hl, hall⟩ := h
  have hlen : l.length < nbuf + 1 := by
    rw [length_of_all hl.nodup hall]
    exact Nat.lt_succ_self nbuf
  simp only [bgetSlot, wp_bind, wp_get, hl.scan_next hlen, hl.scan_prev hlen]
  cases hhit : l.find? fun k => (c.buf k).dev == dev && (c.buf k).blockno == blockno with
  | some k =>
    have hk := List.find?_some hhit
    simp only [Bool.and_eq_true, beq_iff_eq] at hk
    exact .inl ⟨hk.1, hk.2, rfl⟩
  | none =>
    have hmiss : ∀ j, ¬((c.buf j).dev = dev ∧ (c.buf j).blockno = blockno) := by
      intro j hj
      have := List.find?_eq_none.mp hhit j (hall j)
      simp [hj.1, hj.2] at this
    cases hfree : l.reverse.find? fun k => (c.buf k).refcnt == 0 with
    | some k =>
      have hk := List.find?_some hfree
      exact .inr ⟨hmiss, by simpa using hk, rfl⟩
    | none => rfl

theorem bgetSlot_ok (h : c.Linked) (hr : bgetSlot dev blockno c = .ok k c') :
    Got dev blockno k c c' := by
  have hgot := wp_returns (bgetSlot_spec h) hr
  exact hgot

end Spec

end Xv6Paging
