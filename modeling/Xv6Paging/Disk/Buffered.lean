import Xv6Paging.Disk.Contents
import Xv6Paging.Logic.Lift

/-!
# Blocks in the buffer cache

The functions of `fs.c` that write, with their calls of `log_write`.  What a function sees is what
the buffer cache shows; the block at its place on the disk is another matter.  A block that was
passed to `log_write` stays in the cache until the transaction is committed, and the commit writes
it to its place. The buffer of any other block may be recycled, and is read again from the disk when
it is needed.

So the cache may be recycled without a trace as long as everything that was changed has also been
logged. `writei` keeps to this, with one exception: the block into which a failing copy has put some
bytes.
-/

namespace Xv6Paging.Disk

open StateHalt SlotMap FsState
open Function (update update_of_ne)

/-- The buffer cache and the disk under it. -/
structure Buffered where
  /-- The blocks as the cache shows them, and the locked inode. -/
  seen : FsState
  /-- The blocks at their places on the disk. -/
  home : Nat → Block
  /-- The blocks that were passed to `log_write` since the last commit. -/
  pinned : List Nat
  /-- Those that were passed since `begin_op`. -/
  op : List Nat

/-- A function of `fs.c` that calls `log_write`. -/
abbrev BufM := EStateM FsPanic Buffered

namespace Buffered

/-- A buffer or the inode is changed. -/
def onSeen (g : FsState → FsState) : BufM Unit := modify fun c => { c with seen := g c.seen }

def logWrite (b : Nat) : BufM Unit :=
  modify fun c => { c with pinned := b :: c.pinned, op := b :: c.op }

/-- The buffer of the block `b` is changed and logged. -/
def writeBuf (b : Nat) (g : FsState → FsState) : BufM Unit := do
  onSeen g
  logWrite b

section Functions

variable (sb : Superblock)

/-- `balloc`, with `bzero`. -/
def balloc : BufM Nat := do
  match clearBit sb (← get).seen.disk with
  | none => throw .outOfBlocks
  | some b =>
    writeBuf (bblock sb b) fun s => { s with disk := writeBit sb s.disk b true }
    writeBuf b fun s => { s with disk := update s.disk b .zero }
    pure b

/-- `if(addr == 0) addr = balloc(ip->dev)`, with the assignment to the place of `addr`. -/
def ballocIfZero (addr : Nat) (assign : Nat → BufM Unit) : BufM Nat := do
  if addr = 0 then
    let b ← balloc sb
    assign b
    pure b
  else pure addr

def bmap (bn : Nat) : BufM Nat := do
  if bn < ndirect then
    let k : Fin (ndirect + 1) := (Fin.ofNat ndirect bn).castSucc
    ballocIfZero sb ((← get).seen.addr k) fun b => onSeen (.setAddr k b)
  else if bn - ndirect < nindirect then
    let k := Fin.ofNat nindirect (bn - ndirect)
    let p ← ballocIfZero sb ((← get).seen.addr (Fin.last ndirect)) fun b =>
      onSeen (.setAddr (Fin.last ndirect) b)
    ballocIfZero sb ((← get).seen.disk p k).toNat fun b => writeBuf p (.setEntry p k b)
  else throw .bmapOutOfRange

def iupdate : BufM Unit := do
  let inum := (← get).seen.inum
  writeBuf (iblock sb inum) fun s => { s with disk := writeInode sb s.disk s.inum s.ip }

/-- The loop of `writei`: a block is logged if the copy into it has succeeded. -/
def writeLoop (copyin : Nat → Nat → List UInt8 × Bool) (n tot off : Nat) : BufM (Nat × Nat) := do
  if tot < n then
    let addr ← bmap sb (off / bsize)
    let c := copyin tot (min (n - tot) (bsize - off % bsize))
    onSeen (.patch addr (off % bsize) (c.1.take (min (n - tot) (bsize - off % bsize))))
    if c.2 then
      logWrite addr
      writeLoop copyin n (tot + min (n - tot) (bsize - off % bsize))
        (off + min (n - tot) (bsize - off % bsize))
    else pure (tot, off)
  else pure (tot, off)
termination_by n - tot
decreasing_by
  have hoff : off % 1024 < 1024 := Nat.mod_lt off (by decide)
  have hpos : 0 < min (n - tot) (1024 - off % 1024) := by omega
  have : 0 < min (n - tot) (bsize - off % bsize) := hpos
  omega

def writei (copyin : Nat → Nat → List UInt8 × Bool) (off n : BitVec 32) : BufM (Option Nat) := do
  let size := (← get).seen.ip.size
  if size < off ∨ off + n < off then pure none
  else if maxfile * bsize < (off + n).toNat then pure none
  else
    let (tot, off) ← writeLoop sb copyin n.toNat 0 off.toNat
    onSeen fun s =>
      if s.ip.size.toNat < off then { s with ip := { s.ip with size := BitVec.ofNat 32 off } }
      else s
    iupdate sb
    pure (some tot)

end Functions

/-! ## What the cache shows -/

section Lifts

variable (sb : Superblock)

theorem lifts_onSeen (g : FsState → FsState) : Lifts seen (onSeen g) (modify g) :=
  .modify fun _ => rfl

theorem lifts_writeBuf (b : Nat) (g : FsState → FsState) : Lifts seen (writeBuf b g) (modify g) :=
  ⟨fun _ => rfl⟩

theorem lifts_balloc : Lifts seen (balloc sb) (Disk.balloc sb) := by
  refine .get_bind fun c => ?_
  cases clearBit sb c.seen.disk with
  | none => exact .throw _
  | some b => exact ⟨fun _ => rfl⟩

theorem lifts_ballocIfZero (addr : Nat) {assign' : Nat → BufM Unit}
    {assign : Nat → FsState → FsState} (h : ∀ b, Lifts seen (assign' b) (modify (assign b))) :
    Lifts seen (ballocIfZero sb addr assign') (Disk.ballocIfZero sb addr assign) := by
  refine .ite (fun _ => ?_) fun _ => .pure addr
  exact .bind (lifts_balloc sb) fun b => .bind (h b) fun _ => .pure b

theorem lifts_bmap (bn : Nat) : Lifts seen (bmap sb bn) (Disk.bmap sb bn) := by
  refine .ite (fun _ => ?_) fun _ => .ite (fun _ => ?_) fun _ => .throw _
  · exact .get_bind fun c => lifts_ballocIfZero sb _ fun b => lifts_onSeen _
  · refine .get_bind fun c => .bind (lifts_ballocIfZero sb _ fun b => lifts_onSeen _) fun p => ?_
    exact .get_bind fun c => lifts_ballocIfZero sb _ fun b => lifts_writeBuf _ _

theorem lifts_iupdate : Lifts seen (iupdate sb) (Disk.iupdate sb) := ⟨fun _ => rfl⟩

theorem lifts_writeLoop (copyin : Nat → Nat → List UInt8 × Bool) (n tot off : Nat) :
    Lifts seen (writeLoop sb copyin n tot off) (Disk.writeLoop sb copyin n tot off) := by
  induction hlen : n - tot using Nat.strong_induction_on generalizing tot off with
  | _ len ih =>
    subst hlen
    rw [writeLoop, Disk.writeLoop]
    refine .ite (fun hlt => ?_) fun _ => .pure _
    have hmod : off % 1024 < 1024 := Nat.mod_lt off (by decide)
    have hpos : 0 < min (n - tot) (1024 - off % 1024) := by omega
    have hpos : 0 < min (n - tot) (bsize - off % bsize) := hpos
    refine .bind (lifts_bmap sb _) fun addr => .bind (lifts_onSeen _) fun _ => ?_
    refine .ite (fun _ => ?_) fun _ => .pure _
    exact .silent (fun _ => rfl) (ih _ (by omega) _ _ rfl)

/-- **To what the cache shows, `writei` does what the model without a log says.** -/
theorem lifts_writei (copyin : Nat → Nat → List UInt8 × Bool) (off n : BitVec 32) :
    Lifts seen (writei sb copyin off n) (Disk.writei sb copyin off n) := by
  refine .get_bind fun c => .ite (fun _ => .pure _) fun _ => .ite (fun _ => .pure _) fun _ => ?_
  refine .bind (lifts_writeLoop sb copyin _ _ _) fun r => .bind (lifts_onSeen _) fun _ => ?_
  exact .bind (lifts_iupdate sb) fun _ => .pure _

end Lifts

/-! ## What is logged -/

/-- What was changed has been logged, except for the blocks of `X`; and no others than those of `S`
were passed to `log_write`. -/
structure Noted (X S : Nat → Prop) (c c' : Buffered) : Prop where
  home : c'.home = c.home
  pinned : ∀ b ∈ c.pinned, b ∈ c'.pinned
  disk : ∀ b, b ∉ c'.pinned → ¬X b → c'.seen.disk b = c.seen.disk b
  op : ∀ b ∈ c'.op, b ∈ c.op ∨ S b

section Noted

variable {X X' S S' : Nat → Prop} {c c' c'' : Buffered}

theorem Noted.refl (X S : Nat → Prop) (c : Buffered) : Noted X S c c :=
  ⟨rfl, fun _ h => h, fun _ _ _ => rfl, fun _ h => .inl h⟩

theorem Noted.trans (h : Noted X S c c') (h' : Noted X S c' c'') : Noted X S c c'' where
  home := h'.home.trans h.home
  pinned b hb := h'.pinned b (h.pinned b hb)
  disk b hb hX := (h'.disk b hb hX).trans (h.disk b (fun hp => hb (h'.pinned b hp)) hX)
  op b hb := by
    rcases h'.op b hb with hop | hS
    · exact h.op b hop
    · exact .inr hS

theorem Noted.mono (h : Noted X S c c') (hX : ∀ b, X b → X' b) (hS : ∀ b, S b → S' b) :
    Noted X' S' c c' where
  home := h.home
  pinned := h.pinned
  disk b hb hb' := h.disk b hb fun hXb => hb' (hX b hXb)
  op b hb := (h.op b hb).imp_right (hS b)

theorem noted_onSeen {g : FsState → FsState} (h : (g c.seen).disk = c.seen.disk) :
    Noted X S c { c with seen := g c.seen } :=
  ⟨rfl, fun _ hb => hb, fun b _ _ => congrFun h b, fun _ hb => .inl hb⟩

theorem noted_writeBuf {b : Nat} {g : FsState → FsState} (hS : S b)
    (h : ∀ a, a ≠ b → (g c.seen).disk a = c.seen.disk a) :
    Noted X S c { c with seen := g c.seen, pinned := b :: c.pinned, op := b :: c.op } where
  home := rfl
  pinned _ := List.mem_cons_of_mem b
  disk a ha _ := h a fun hab => ha (hab ▸ List.mem_cons_self)
  op a ha := by
    rcases List.mem_cons.mp ha with rfl | hop
    · exact .inr hS
    · exact .inl hop

end Noted

/-- A block of the free map. -/
def Bitmap (sb : Superblock) (b : Nat) : Prop := ∃ k, k < sb.size.toNat ∧ b = bblock sb k

/-- The blocks that may be logged: the free map, and the blocks in the slots of `T`. -/
def Passes (sb : Superblock) (T : Finset BlockSlot) (s : FsState) (b : Nat) : Prop :=
  Bitmap sb b ∨ ∃ x ∈ T, s.ref x = b ∧ b ≠ 0

theorem Passes.keeps {sb : Superblock} {T : Finset BlockSlot} {s s' : FsState} (h : Keeps s s')
    {b : Nat} (hb : Passes sb T s b) : Passes sb T s' b := by
  rcases hb with hmap | ⟨x, hx, rfl, hne⟩
  · exact .inl hmap
  · exact .inr ⟨x, hx, h.ref x hne, hne⟩

section Logs

variable {sb : Superblock} {T : Finset BlockSlot} {c : Buffered}

theorem wp_balloc_noted : wp (balloc sb) (fun b c' => (b < 2 ^ 32 ∧ c'.seen.ip = c.seen.ip) ∧
      Noted (fun _ => False) (fun a => Bitmap sb a ∨ a = b) c c') (fun _ _ => True) c := by
  unfold balloc
  simp only [wp_bind, wp_get]
  cases hfind : clearBit sb c.seen.disk with
  | none => trivial
  | some b =>
    have hlt := (clearBit_spec hfind).1
    refine ⟨⟨hlt.trans sb.size.isLt, rfl⟩, ?_⟩
    have hmap : Noted (fun _ => False) (fun a => Bitmap sb a ∨ a = b) c _ :=
      noted_writeBuf (b := bblock sb b)
        (g := fun s => { s with disk := writeBit sb s.disk b true }) (.inl ⟨b, hlt, rfl⟩)
        fun a ha => update_of_ne ha ..
    refine hmap.trans (noted_writeBuf
      (g := fun s => { s with disk := update s.disk b .zero }) (.inr rfl) fun a ha => ?_)
    exact update_of_ne ha ..

theorem wp_bmap_noted (bn : Nat) :
    wp (bmap sb bn) (fun b c' => Noted (fun _ => False) (fun a => Bitmap sb a ∨ a = b ∨
      ndirect ≤ bn ∧ a = c'.seen.ref .pointer) c c') (fun _ _ => True) c := by
  unfold bmap
  apply wp_ite <;> intro hd
  · simp only [wp_bind, wp_get]
    unfold ballocIfZero
    apply wp_ite <;> intro _
    · simp only [wp_bind]
      refine wp_post wp_balloc_noted ?_
      rintro b c' ⟨-, hb⟩
      exact (hb.mono (fun _ h => h) fun a ha => ha.imp_right .inl).trans (noted_onSeen rfl)
    · exact .refl _ _ _
  apply wp_ite <;> intro _
  swap
  · trivial
  simp only [wp_bind, wp_get]
  -- the indirect block
  have hfirst : wp (ballocIfZero sb (c.seen.addr (Fin.last ndirect)) fun b =>
      onSeen (.setAddr (Fin.last ndirect) b)) (fun p c' => c'.seen.ref .pointer = p ∧
        Noted (fun _ => False) (fun a => Bitmap sb a ∨ a = p) c c') (fun _ _ => True) c := by
    unfold ballocIfZero
    apply wp_ite <;> intro _
    · simp only [wp_bind]
      refine wp_post wp_balloc_noted ?_
      rintro b c' ⟨⟨hlt, -⟩, hb⟩
      exact ⟨Dinode.toNat_setAddr _ _ hlt, hb.trans (noted_onSeen rfl)⟩
    · exact ⟨rfl, .refl _ _ _⟩
  refine wp_post hfirst ?_
  rintro p c₁ ⟨rfl, hp⟩
  have hind : ndirect ≤ bn := Nat.le_of_not_lt hd
  unfold ballocIfZero
  apply wp_ite <;> intro _
  · simp only [wp_bind]
    refine wp_post wp_balloc_noted ?_
    rintro b c₂ ⟨⟨-, hip⟩, hb⟩
    have hptr : ∀ {s : FsState}, s.ip = c₁.seen.ip → s.ref .pointer = c₁.seen.ref .pointer := by
      intro s hs
      show (s.ip.addrs (Fin.last ndirect)).toNat = _
      rw [hs]
      rfl
    have hS : ∀ a, Bitmap sb a ∨ a = c₁.seen.ref .pointer →
        Bitmap sb a ∨ a = b ∨ ndirect ≤ bn ∧ a = c₁.seen.ref .pointer :=
      fun a ha => ha.imp_right fun h => .inr ⟨hind, h⟩
    set k := Fin.ofNat nindirect (bn - ndirect)
    have hentry := hptr (s := c₂.seen.setEntry (c₁.seen.ref .pointer) k b) hip
    show Noted _ (fun a => _ ∨ a = b ∨ _ ∧ a = (c₂.seen.setEntry _ _ b).ref .pointer) c _
    rw [hentry]
    refine ((hp.mono (fun _ h => h) hS).trans (hb.mono (fun _ h => h) fun a ha => ?_)).trans ?_
    · exact ha.imp_right .inl
    · exact noted_writeBuf (g := .setEntry (c₁.seen.ref .pointer) k b)
        (Or.inr (Or.inr ⟨hind, rfl⟩)) fun a ha => update_of_ne ha ..
  · exact hp.mono (fun _ h => h) fun a ha => ha.imp_right fun h => .inr ⟨hind, h⟩

/-- **`bmap`**: what the cache shows, and what is logged. -/
theorem wp_bmap (hl : Layout sb) (h : Working sb c.seen) {bn : Nat} (hbn : bn < maxfile)
    (hx : .ofIndex bn ∈ T) (hptr : ndirect ≤ bn → .pointer ∈ T) :
    wp (bmap sb bn) (fun b c' => (Extended sb T c.seen c'.seen ∧
      c'.seen.ref (.ofIndex bn) = b ∧ b ≠ 0) ∧
        Noted (fun _ => False) (Passes sb T c'.seen) c c') (fun _ _ => True) c := by
  have hseen := (lifts_bmap sb bn).wp_iff.mpr (Disk.wp_bmap hl h hbn hx hptr)
  refine wp_mono (wp_and hseen (wp_bmap_noted bn)) ?_ fun _ _ _ => trivial
  rintro b c' ⟨hext, hnoted⟩
  refine ⟨hext, hnoted.mono (fun _ h => h) ?_⟩
  rintro a (hmap | rfl | ⟨hind, rfl⟩)
  · exact .inl hmap
  · exact .inr ⟨_, hx, hext.2.1, hext.2.2⟩
  · -- the indirect block is there, because an entry of it is
    refine .inr ⟨.pointer, hptr hind, rfl, fun hz => hext.2.2 ?_⟩
    rw [← hext.2.1, BlockSlot.ofIndex, if_neg (Nat.not_lt.mpr hind)]
    exact if_pos hz

/-- **The loop of `writei`** logs what it changes, except for the block of a copy that fails. -/
theorem wp_writeLoop (hl : Layout sb) {copyin : Nat → Nat → List UInt8 × Bool} {n tot off : Nat}
    (h : Working sb c.seen) (hmax : off + (n - tot) ≤ maxfile * bsize)
    (hT : Spans T off (off + (n - tot))) : wp (writeLoop sb copyin n tot off) (fun r c' =>
      (Working sb c'.seen ∧ Keeps c.seen c'.seen ∧ r.2 + tot = off + r.1 ∧
        (r.1 < n → c'.seen.ref (.ofIndex (r.2 / bsize)) ≠ 0)) ∧
        Noted (fun b => r.1 < n ∧ b = c'.seen.ref (.ofIndex (r.2 / bsize)))
          (Passes sb T c'.seen) c c') (fun _ _ => True) c := by
  induction hlen : n - tot using Nat.strong_induction_on generalizing tot off c with
  | _ len ih =>
    subst hlen
    rw [writeLoop]
    have hmod : off % 1024 < 1024 := Nat.mod_lt off (by decide)
    have hmax' : off + (n - tot) ≤ 274432 := hmax
    apply wp_ite <;> intro hlt
    swap
    · exact ⟨⟨h, Keeps.refl _, rfl, fun hlt' => absurd hlt' hlt⟩, .refl _ _ _⟩
    set m := min (n - tot) (bsize - off % bsize) with hmdef
    have hm : m = min (n - tot) (1024 - off % 1024) := rfl
    have hbn : off / bsize < maxfile := by
      show off / 1024 < 268
      omega
    obtain ⟨hslot, hptr⟩ := hT off le_rfl (by omega)
    simp only [wp_bind]
    refine wp_post (wp_bmap hl h hbn hslot hptr) ?_
    rintro b c₁ ⟨⟨hext, rfl, hne⟩, hnoted⟩
    obtain ⟨hw, hkeep⟩ := hext.working.patch (off % bsize) ((copyin tot m).1.take m) hl hne
    set s₂ := c₁.seen.patch (c₁.seen.ref (.ofIndex (off / bsize))) (off % bsize)
      ((copyin tot m).1.take m) with hs₂
    set c₂ : Buffered := { c₁ with seen := s₂ } with hc₂
    have href : c₂.seen.ref (.ofIndex (off / bsize)) = c₁.seen.ref (.ofIndex (off / bsize)) :=
      hkeep.ref _ hne
    have hother : ∀ a, a ≠ c₁.seen.ref (.ofIndex (off / bsize)) → c₂.seen.disk a = c₁.seen.disk a :=
      fun a ha => update_of_ne ha ..
    have hkeeps := hext.keeps.trans hkeep
    have hpasses : ∀ {s}, Keeps c₂.seen s → ∀ a, Passes sb T c₁.seen a → Passes sb T s a :=
      fun hs a ha => Passes.keeps (hkeep.trans hs) ha
    show wp (if (copyin tot m).2 = true then _ else _) _ _ c₂
    apply wp_ite <;> intro hcopy
    · -- the block is logged, and the next round follows
      simp only [wp_bind]
      set b := c₁.seen.ref (.ofIndex (off / bsize)) with hb
      set c₃ : Buffered := { c₂ with pinned := b :: c₂.pinned, op := b :: c₂.op } with hc₃
      have hstep : Noted (fun _ => False) (Passes sb T c₁.seen) c c₃ := hnoted.trans
        (noted_writeBuf (g := .patch b (off % bsize) ((copyin tot m).1.take m))
          (.inr ⟨_, hslot, rfl, hne⟩) hother)
      have hT' : Spans T (off + m) (off + m + (n - (tot + m))) := fun j h1 h2 =>
        hT j (by omega) (by omega)
      have hmax₃ : off + m + (n - (tot + m)) ≤ maxfile * bsize := by
        show _ ≤ 274432
        omega
      have hrest := ih (n - (tot + m)) (by omega) (c := c₃) hw hmax₃ hT' rfl
      show wp (writeLoop sb copyin n (tot + m) (off + m)) _ _ c₃
      refine wp_post hrest ?_
      rintro r c' ⟨⟨hw', hkeep', hr, hblock⟩, hnoted'⟩
      refine ⟨⟨hw', hkeeps.trans hkeep', by omega, hblock⟩, ?_⟩
      exact (hstep.mono (fun _ hf => hf.elim) (hpasses hkeep')).trans hnoted'
    · -- the copy has failed, and the block is not logged
      refine ⟨⟨hw, hkeeps, rfl, fun _ => ?_⟩, ?_⟩
      · show c₂.seen.ref (.ofIndex (off / bsize)) ≠ 0
        rw [href]
        exact hne
      refine (hnoted.mono (fun _ hf => hf.elim) (hpasses (Keeps.refl _))).trans ?_
      refine ⟨rfl, fun _ hb => hb, fun a _ ha => ?_, fun _ hb => .inl hb⟩
      apply hother
      rintro rfl
      exact ha ⟨hlt, href.symm⟩

/-- **`writei` logs what it changes**, except for the block of a copy that fails. -/
theorem wp_writei (hl : Layout sb) {disk : Nat → Block} {inum : Nat} (hs : Sound sb disk)
    (hlive : DiskLive sb disk inum) (hseen : c.seen = locked sb disk inum)
    (copyin : Nat → Nat → List UInt8 × Bool) (off n : BitVec 32) :
    wp (writei sb copyin off n) (fun r c' => (r = none → c' = c) ∧ ∀ tot, r = some tot →
      (off.toNat + n.toNat ≤ maxfile * bsize ∧
        (∀ y, c.seen.ref y ≠ 0 → c'.seen.ref y = c.seen.ref y) ∧
        (tot < n.toNat → c'.seen.ref (.ofIndex ((off.toNat + tot) / bsize)) ≠ 0)) ∧
      Noted (fun b => tot < n.toNat ∧ b = c'.seen.ref (.ofIndex ((off.toNat + tot) / bsize)))
        (fun b => Passes sb (touched off.toNat n.toNat) c'.seen b ∨ b = iblock sb inum) c c')
      (fun _ _ => True) c := by
  obtain ⟨hw, -⟩ := hs.working hlive.1 hlive.2
  rw [← hseen] at hw
  unfold writei
  simp only [wp_bind, wp_get]
  apply wp_ite <;> intro hguard
  · exact ⟨fun _ => rfl, fun tot htot => absurd htot.symm (Option.some_ne_none tot)⟩
  apply wp_ite <;> intro hbig
  · exact ⟨fun _ => rfl, fun tot htot => absurd htot.symm (Option.some_ne_none tot)⟩
  rw [not_or, lt_add_iff] at hguard
  have hsum : (off + n).toNat = off.toNat + n.toNat := by
    rw [BitVec.toNat_add]
    exact Nat.mod_eq_of_lt (by omega)
  have hmax : off.toNat + n.toNat ≤ maxfile * bsize := by omega
  simp only [wp_bind]
  have hmax₀ : off.toNat + (n.toNat - 0) ≤ maxfile * bsize := hmax
  refine wp_post (wp_writeLoop hl hw hmax₀ (touched_spans hmax)) ?_
  rintro ⟨tot, off'⟩ c₁ ⟨⟨hw₁, hkeep, hoff, hblock⟩, hnoted⟩
  obtain rfl : off' = off.toNat + tot := hoff
  refine ⟨fun hnone => absurd hnone (Option.some_ne_none tot), ?_⟩
  rintro tot' htot
  obtain rfl : tot = tot' := Option.some.inj htot
  -- the size is set in memory, and the inode is logged
  set g : FsState → FsState := fun s =>
    if s.ip.size.toNat < off.toNat + tot then
      { s with ip := { s.ip with size := BitVec.ofNat 32 (off.toNat + tot) } } else s with hg
  have hgw : Working sb (g c₁.seen) ∧ (g c₁.seen).disk = c₁.seen.disk ∧
      (g c₁.seen).inum = c₁.seen.inum ∧ ∀ y, (g c₁.seen).ref y = c₁.seen.ref y := by
    rw [hg]
    dsimp only
    split
    · exact ⟨hw₁.resize _, rfl, rfl, fun y => by cases y <;> rfl⟩
    · exact ⟨hw₁, rfl, rfl, fun _ => rfl⟩
  obtain ⟨hgw, hgd, hgi, hgr⟩ := hgw
  have hinum : (g c₁.seen).inum = inum := by
    rw [hgi, hkeep.inum, hseen]
    rfl
  have href : ∀ y, (g c₁.seen).ip.ref
      (writeInode sb (g c₁.seen).disk (g c₁.seen).inum (g c₁.seen).ip) y = c₁.seen.ref y :=
    fun y => (hgw.ref_updated hl y).trans (hgr y)
  have hpass : ∀ b, Passes sb (touched off.toNat n.toNat) c₁.seen b →
      Passes sb (touched off.toNat n.toNat) { g c₁.seen with
        disk := writeInode sb (g c₁.seen).disk (g c₁.seen).inum (g c₁.seen).ip } b := by
    rintro b (hmap | ⟨x, hx, hxb, hb⟩)
    · exact .inl hmap
    · exact .inr ⟨x, hx, (href x).trans hxb, hb⟩
  refine ⟨⟨hmax, fun y hy => (href y).trans (hkeep.ref y hy), fun hlt hz => ?_⟩, ?_⟩
  · exact hblock hlt ((href _).symm.trans hz)
  refine (hnoted.mono (fun b hb => ⟨hb.1, hb.2.trans (href _).symm⟩)
    fun b hb => .inl (hpass b hb)).trans ((noted_onSeen hgd).trans ?_)
  refine noted_writeBuf (c := { c₁ with seen := g c₁.seen })
    (g := fun s => { s with disk := writeInode sb s.disk s.inum s.ip }) (.inr ?_)
    fun a ha => update_of_ne ha ..
  show iblock sb (g c₁.seen).inum = _
  rw [hinum]

end Logs

/-! ## Recycling and commit -/

/-- A step of the cache: the buffer of a block that is not logged is recycled, or the transaction is
committed. -/
inductive Step : Buffered → Buffered → Prop
  | recycle (c : Buffered) (b : Nat) (h : b ∉ c.pinned) :
    Step c { c with seen := { c.seen with disk := update c.seen.disk b (c.home b) } }
  | commit (c : Buffered) :
    Step c { c with
      home := fun b => if b ∈ c.pinned then c.seen.disk b else c.home b
      pinned := [] }

/-- Steps of the cache. -/
def Later : Buffered → Buffered → Prop := Relation.ReflTransGen Step

/-- The disk has what the cache shows, except for logged blocks. -/
def Clean (c : Buffered) : Prop := ∀ b, b ∉ c.pinned → c.home b = c.seen.disk b

/-- What steps of the cache do: a block that is not logged may become what it is on the disk. -/
structure Recycled (c c' : Buffered) : Prop where
  inum : c'.seen.inum = c.seen.inum
  ip : c'.seen.ip = c.seen.ip
  logged : ∀ b ∈ c.pinned, c'.seen.disk b = c.seen.disk b ∧
    (b ∈ c'.pinned ∨ c'.home b = c.seen.disk b)
  other : ∀ b, b ∉ c.pinned → (b ∉ c'.pinned ∧ c'.home b = c.home b) ∧
    (c'.seen.disk b = c.seen.disk b ∨ c'.seen.disk b = c.home b)

theorem Later.recycled {c c' : Buffered} (h : Later c c') : Recycled c c' := by
  induction h with
  | refl => exact ⟨rfl, rfl, fun _ hb => ⟨rfl, .inl hb⟩, fun _ hb => ⟨⟨hb, rfl⟩, .inl rfl⟩⟩
  | @tail c₁ c₂ _ hstep ih =>
    cases hstep with
    | recycle a ha =>
      refine ⟨ih.inum, ih.ip, fun b hb => ⟨?_, (ih.logged b hb).2⟩,
        fun b hb => ⟨(ih.other b hb).1, ?_⟩⟩
      · by_cases hba : b = a
        · subst hba
          -- a logged block that may be recycled has been committed
          have hhome := (ih.logged b hb).2.resolve_left ha
          simp [hhome]
        · simp [hba, (ih.logged b hb).1]
      · by_cases hba : b = a
        · subst hba
          right
          simp [(ih.other b hb).1.2]
        · simpa [hba] using (ih.other b hb).2
    | commit =>
      refine ⟨ih.inum, ih.ip, fun b hb => ⟨(ih.logged b hb).1, .inr ?_⟩,
        fun b hb => ⟨⟨List.not_mem_nil, ?_⟩, (ih.other b hb).2⟩⟩
      · obtain ⟨hseen, hpin⟩ := ih.logged b hb
        by_cases hp : b ∈ c₁.pinned
        · simp [hp, hseen]
        · simp [hp, hpin.resolve_left hp]
      · simp [(ih.other b hb).1.1, (ih.other b hb).1.2]

end Buffered

end Xv6Paging.Disk
