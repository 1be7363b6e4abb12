import Mathlib.Logic.Function.Basic
import Xv6Paging.Logic.Wp

/-!
# The redo log

`log.c`: a transaction is written to the log area, then its header, then its blocks to their home
locations, then an empty header.  The power can fail at any write.  The machine keeps the number of
writes that still reach the disk; the write after the last one halts the program, so the
postcondition for halting in `wp` is the crash condition of the program.  The cache is what `bread`
returns; it is lost in a crash, and recovery starts from the disk.
-/

namespace Xv6Paging

open StateHalt
open Function (update update_of_ne update_self)

/-! ## The disk -/

abbrev logSize : Nat := 30

/-- A block of `BSIZE` bytes, as the words that `struct logheader` lays over it. -/
abbrev Block := Fin 256 → BitVec 32

instance neZero_words : NeZero 256 := ⟨by decide⟩

/-- `log.start` and `log.size`: the header block and the log blocks after it.  The log is not longer
than the array in `struct logheader` provides for. -/
structure LogArea where
  start : Nat
  size : Nat
  size_pos : 0 < size
  size_le : size ≤ logSize + 1

/-- The block `b` belongs to the log. -/
def LogArea.Contains (A : LogArea) (b : Nat) : Prop := A.start ≤ b ∧ b < A.start + A.size

/-- `struct logheader`, in memory. -/
structure LogHeader where
  n : Int
  block : Nat → BitVec 32

/-- The machine: the disk, the contents of the buffers, the header in memory, and the number of
writes before the power fails. -/
structure LogMachine where
  disk : Nat → Block
  buf : Nat → Block
  lh : LogHeader
  left : Nat

/-- The power failed. -/
inductive PowerCut
  | cut

/-- Programs that write to the disk. -/
abbrev LogM := EStateM PowerCut LogMachine

/-- `bwrite`: the buffer of the block `b` goes to the disk, if the power lasts. -/
def bwrite (b : Nat) : LogM Unit := do
  if (← get).left = 0 then throw .cut
  else modify fun s => { s with
    disk := update s.disk b (s.buf b), left := s.left - 1 }

/-- `memmove` from the buffer of one block to that of another. -/
def copyBuf (dst src : Nat) : LogM Unit :=
  modify fun s => { s with buf := update s.buf dst (s.buf src) }

/-! ## The code -/

section Code

variable (A : LogArea)

/-- One round of `install_trans`. -/
def installBlock (tail : Nat) : LogM Unit := do
  let b := ((← get).lh.block tail).toNat
  copyBuf b (A.start + tail + 1)
  bwrite b

/-- `install_trans`; the pins of the buffers play no role here. -/
def installTrans : LogM Unit := do
  forEach (installBlock A) 0 (← get).lh.n.toNat

/-- The word of the header block that holds `block[i]`. -/
def headerWord (i : Nat) : Fin 256 := Fin.ofNat 256 (i + 1)

def readHead : LogM Unit :=
  modify fun s =>
    let n := (s.buf A.start 0).toInt
    { s with lh := ⟨n, fun i =>
      if i < n.toNat then s.buf A.start (headerWord i) else s.lh.block i⟩ }

/-- The header block with the header `lh` stored in it; only the entries in use are stored. -/
def storeHead (lh : LogHeader) (x : Block) : Block := fun w =>
  if w = 0 then BitVec.ofInt 32 lh.n
  else if w.val - 1 < lh.n.toNat then lh.block (w.val - 1)
  else x w

def writeHead : LogM Unit := do
  modify fun s => { s with
    buf := update s.buf A.start (storeHead s.lh (s.buf A.start)) }
  bwrite A.start

/-- `log.lh.n = 0`. -/
def clearHead : LogM Unit := modify fun s => { s with lh := { s.lh with n := 0 } }

def recoverFromLog : LogM Unit := do
  readHead A
  installTrans A
  clearHead
  writeHead A

/-- One round of `write_log`. -/
def writeLogBlock (tail : Nat) : LogM Unit := do
  let b := ((← get).lh.block tail).toNat
  copyBuf (A.start + tail + 1) b
  bwrite (A.start + tail + 1)

def writeLog : LogM Unit := do
  forEach (writeLogBlock A) 0 (← get).lh.n.toNat

def commit : LogM Unit := do
  if (← get).lh.n > 0 then do
    writeLog A
    writeHead A
    installTrans A
    clearHead
    writeHead A
  else pure ()

end Code

/-! ## What is on the disk -/

/-- The header in memory lists the blocks `t`. -/
structure LogHeader.Holds (lh : LogHeader) (t : List (BitVec 32)) : Prop where
  n : lh.n = t.length
  block : ∀ i (hi : i < t.length), lh.block i = t.get ⟨i, hi⟩

/-- The blocks `t` can be logged: they fit and are home blocks. -/
structure LogArea.Admits (A : LogArea) (t : List (BitVec 32)) : Prop where
  length : t.length ≤ A.size - 1
  home : ∀ x ∈ t, ¬A.Contains x.toNat

/-- The log is empty and the home blocks are as in `home`. -/
structure Clean (A : LogArea) (home d : Nat → Block) : Prop where
  header : d A.start 0 = 0#32
  blocks : ∀ b, ¬A.Contains b → d b = home b

/-- The transaction `t` with the contents `new` is in the log; its home blocks may have any
contents, the other ones are as in `home`. -/
structure Pending (A : LogArea) (home : Nat → Block) (t : List (BitVec 32)) (new d : Nat → Block) :
    Prop where
  header : d A.start 0 = BitVec.ofNat 32 t.length
  entry : ∀ i (hi : i < t.length), d A.start (headerWord i) = t.get ⟨i, hi⟩
  logged : ∀ i (hi : i < t.length), d (A.start + i + 1) = new (t.get ⟨i, hi⟩).toNat
  blocks : ∀ b, ¬A.Contains b → (∀ x ∈ t, x.toNat ≠ b) → d b = home b

/-- The home blocks after the transaction. -/
def installed (home : Nat → Block) (t : List (BitVec 32)) (new : Nat → Block) : Nat → Block :=
  fun b => if ∃ x ∈ t, x.toNat = b then new b else home b

section Rules

variable {E : PowerCut → LogMachine → Prop} {s : LogMachine} {A : LogArea} {t : List (BitVec 32)}
  {home new : Nat → Block} {i : Nat}

@[simp] theorem wp_bwrite {Q : Unit → LogMachine → Prop} {b : Nat} :
    wp (bwrite b) Q E s ↔ if s.left = 0 then E .cut s else
      Q () { s with disk := update s.disk b (s.buf b), left := s.left - 1 } := by
  simp only [bwrite, wp_bind, wp_get]
  split <;> rfl

@[simp] theorem wp_copyBuf {Q : Unit → LogMachine → Prop} {dst src : Nat} :
    wp (copyBuf dst src) Q E s ↔
      Q () { s with buf := update s.buf dst (s.buf src) } := Iff.rfl

theorem LogArea.contains_start (A : LogArea) : A.Contains A.start :=
  ⟨le_rfl, by have := A.size_pos; omega⟩

theorem LogArea.Admits.contains (ht : A.Admits t) (hi : i < t.length) :
    A.Contains (A.start + i + 1) :=
  ⟨by omega, by have := ht.length; omega⟩

theorem LogArea.Admits.ne_start (ht : A.Admits t) (hi : i < t.length) :
    (t.get ⟨i, hi⟩).toNat ≠ A.start := fun h =>
  ht.home _ (List.get_mem _ _) (h ▸ A.contains_start)

theorem LogArea.Admits.ne_logged (ht : A.Admits t) {j : Nat} (hi : i < t.length)
    (hj : j < t.length) : (t.get ⟨i, hi⟩).toNat ≠ A.start + j + 1 := fun h =>
  ht.home _ (List.get_mem _ _) (h ▸ ht.contains hj)

theorem LogArea.Admits.length_le (ht : A.Admits t) : t.length ≤ logSize := by
  have h1 := ht.length
  have h2 := A.size_le
  omega

theorem Pending.install {d : Nat → Block} (hp : Pending A home t new d) (ht : A.Admits t)
    (hi : i < t.length) (x : Block) : Pending A home t new (update d (t.get ⟨i, hi⟩).toNat x) where
  header := by rw [update_of_ne (ht.ne_start hi).symm, hp.header]
  entry j hj := by rw [update_of_ne (ht.ne_start hi).symm, hp.entry j hj]
  logged j hj := by rw [update_of_ne (ht.ne_logged hi hj).symm, hp.logged j hj]
  blocks b hb hne := by
    rw [update_of_ne fun h => hne _ (List.get_mem t ⟨i, hi⟩) h.symm]
    exact hp.blocks b hb hne

theorem Clean.writeLogged {d : Nat → Block} (hc : Clean A home d) (ht : A.Admits t)
    (hi : i < t.length) (x : Block) : Clean A home (update d (A.start + i + 1) x) where
  header := by rw [update_of_ne (by omega), hc.header]
  blocks b hb := by
    have hne : b ≠ A.start + i + 1 := fun h => hb (h ▸ ht.contains hi)
    rw [update_of_ne hne, hc.blocks b hb]

theorem storeHead_zero {lh : LogHeader} (h : lh.Holds t) (x : Block) :
    storeHead lh x 0 = BitVec.ofNat 32 t.length := by
  rw [storeHead, if_pos rfl, h.n]
  rfl

theorem storeHead_entry {lh : LogHeader} (h : lh.Holds t) (ht : t.length ≤ logSize) (x : Block)
    (hi : i < t.length) : storeHead lh x (headerWord i) = t.get ⟨i, hi⟩ := by
  have hw : (headerWord i).val = i + 1 := by
    simp only [headerWord, Fin.ofNat, logSize] at *
    omega
  have hne : headerWord i ≠ 0 := by
    intro h0
    rw [h0] at hw
    simp at hw
  rw [storeHead, if_neg hne, hw, if_pos (by rw [h.n]; simpa using hi), Nat.add_sub_cancel]
  exact h.block i hi

end Rules

/-! ## Crash conditions of the code -/

section Specs

variable {s : LogMachine} {A : LogArea} {t : List (BitVec 32)} {home new : Nat → Block}

/-- **`install_trans`** with the log written: a crash leaves the transaction pending. -/
theorem installTrans_spec (ht : A.Admits t) (hlh : s.lh.Holds t)
    (hbuf : ∀ i (hi : i < t.length), s.buf (A.start + i + 1) = new (t.get ⟨i, hi⟩).toNat)
    (hp : Pending A home t new s.disk) : wp (installTrans A)
      (fun _ s' => s'.lh = s.lh ∧ Pending A home t new s'.disk ∧
        ∀ x ∈ t, s'.disk x.toNat = new x.toNat) (fun _ s' => Pending A home t new s'.disk) s := by
  have hn : s.lh.n.toNat = t.length := by rw [hlh.n, Int.toNat_natCast]
  simp only [installTrans, wp_bind, wp_get, hn]
  -- the blocks below `k` are installed, and the buffers of the log are as they were
  refine wp_forEach (fun k u => u.lh = s.lh ∧ Pending A home t new u.disk ∧
    (∀ i (hi : i < t.length), u.buf (A.start + i + 1) = new (t.get ⟨i, hi⟩).toNat) ∧
    ∀ i (hi : i < t.length), i < k → u.disk (t.get ⟨i, hi⟩).toNat = new (t.get ⟨i, hi⟩).toNat)
    ⟨rfl, hp, hbuf, fun i _ h => by omega⟩ ?_ ?_
  · rintro k u - hk ⟨hulh, hup, hub, hud⟩
    have hk : k < t.length := by omega
    have hb : (u.lh.block k).toNat = (t.get ⟨k, hk⟩).toNat := by rw [hulh, hlh.block k hk]
    simp only [installBlock, wp_bind, wp_get, wp_copyBuf, wp_bwrite, hb, update_self,
      hub k hk]
    split
    · exact hup
    · refine ⟨hulh, hup.install ht hk _, fun i hi => ?_, fun i hi hik => ?_⟩
      · rw [update_of_ne (ht.ne_logged hk hi).symm, hub i hi]
      · by_cases heq : (t.get ⟨i, hi⟩).toNat = (t.get ⟨k, hk⟩).toNat
        · rw [heq, update_self]
        · rw [update_of_ne heq]
          refine hud i hi (Nat.lt_of_le_of_ne (Nat.lt_succ_iff.mp hik) ?_)
          rintro rfl
          exact heq rfl
  · rintro u ⟨hulh, hup, -, hud⟩
    refine ⟨hulh, hup, fun x hx => ?_⟩
    obtain ⟨i, hi, rfl⟩ := List.mem_iff_getElem.mp hx
    exact hud i hi (by omega)

/-- **`write_log`**: the header is still empty, so a crash leaves the disk clean. -/
theorem writeLog_spec (ht : A.Admits t) (hlh : s.lh.Holds t) (hc : Clean A home s.disk) :
    wp (writeLog A) (fun _ s' => s'.lh = s.lh ∧ Clean A home s'.disk ∧
        ∀ i (hi : i < t.length), s'.disk (A.start + i + 1) = s.buf (t.get ⟨i, hi⟩).toNat ∧
          s'.buf (A.start + i + 1) = s.buf (t.get ⟨i, hi⟩).toNat)
      (fun _ s' => Clean A home s'.disk) s := by
  have hn : s.lh.n.toNat = t.length := by rw [hlh.n, Int.toNat_natCast]
  simp only [writeLog, wp_bind, wp_get, hn]
  refine wp_forEach (fun k u => u.lh = s.lh ∧ Clean A home u.disk ∧
    (∀ x ∈ t, u.buf x.toNat = s.buf x.toNat) ∧
    ∀ i (hi : i < t.length), i < k → u.disk (A.start + i + 1) = s.buf (t.get ⟨i, hi⟩).toNat ∧
      u.buf (A.start + i + 1) = s.buf (t.get ⟨i, hi⟩).toNat)
    ⟨rfl, hc, fun _ _ => rfl, fun i _ h => by omega⟩ ?_ ?_
  · rintro k u - hk ⟨hulh, huc, hub, hul⟩
    have hk : k < t.length := by omega
    have hb : (u.lh.block k).toNat = (t.get ⟨k, hk⟩).toNat := by rw [hulh, hlh.block k hk]
    simp only [writeLogBlock, wp_bind, wp_get, wp_copyBuf, wp_bwrite, hb, update_self,
      hub _ (List.get_mem t ⟨k, hk⟩)]
    split
    · exact huc
    · refine ⟨hulh, huc.writeLogged ht hk _, fun x hx => ?_, fun i hi hik => ?_⟩
      · have hne : x.toNat ≠ A.start + k + 1 := fun h => ht.home x hx (h ▸ ht.contains hk)
        rw [update_of_ne hne, hub x hx]
      · by_cases heq : i = k
        · subst heq
          rw [update_self, update_self]
          exact ⟨rfl, rfl⟩
        · rw [update_of_ne (by omega), update_of_ne (by omega)]
          exact hul i hi (by omega)
  · rintro u ⟨hulh, huc, -, hul⟩
    exact ⟨hulh, huc, fun i hi => hul i hi (by omega)⟩

/-- **The header write is the commit point**: before it the disk is clean, after it the transaction
is pending. -/
theorem writeHead_commit (ht : A.Admits t) (hlh : s.lh.Holds t) (hc : Clean A home s.disk)
    (hlog : ∀ i (hi : i < t.length), s.disk (A.start + i + 1) = new (t.get ⟨i, hi⟩).toNat) :
    wp (writeHead A) (fun _ s' => s'.lh = s.lh ∧ Pending A home t new s'.disk ∧
        ∀ i, i < t.length → s'.buf (A.start + i + 1) = s.buf (A.start + i + 1))
      (fun _ s' => Clean A home s'.disk) s := by
  simp only [writeHead, wp_bind, wp_modify, wp_bwrite, update_self]
  split
  · exact hc
  · refine ⟨trivial, ⟨?_, fun i hi => ?_, fun i hi => ?_, fun b hb _ => ?_⟩, fun i _ => ?_⟩
    · rw [update_self, storeHead_zero hlh]
    · rw [update_self, storeHead_entry hlh ht.length_le]
    · rw [update_of_ne (by omega), hlog i hi]
    · have hne : b ≠ A.start := fun h => hb (h ▸ A.contains_start)
      rw [update_of_ne hne, hc.blocks b hb]
    · rw [update_of_ne (by omega)]

/-- **The last header write** empties the log of an installed transaction. -/
theorem writeHead_clear (hp : Pending A home t new s.disk)
    (hnew : ∀ x ∈ t, s.disk x.toNat = new x.toNat) :
    wp (do clearHead; writeHead A) (fun _ s' => Clean A (installed home t new) s'.disk)
      (fun _ s' => Pending A home t new s'.disk) s := by
  simp only [clearHead, writeHead, wp_bind, wp_modify, wp_bwrite, update_self]
  split
  · exact hp
  · refine ⟨by rw [update_self]; rfl, fun b hb => ?_⟩
    have hne : b ≠ A.start := fun h => hb (h ▸ A.contains_start)
    rw [update_of_ne hne, installed]
    by_cases hx : ∃ x ∈ t, x.toNat = b
    · rw [if_pos hx]
      obtain ⟨x, hx, rfl⟩ := hx
      exact hnew x hx
    · rw [if_neg hx]
      exact hp.blocks b hb fun x hxt h => hx ⟨x, hxt, h⟩

/-- **`commit`**, cut at any write or not at all. -/
theorem commit_spec (ht : A.Admits t) (hlh : s.lh.Holds t) (hc : Clean A home s.disk) :
    wp (commit A) (fun _ s' => Clean A (installed home t s.buf) s'.disk)
      (fun _ s' => Clean A home s'.disk ∨ Pending A home t s.buf s'.disk) s := by
  simp only [commit, wp_bind, wp_get]
  refine wp_ite (fun _ => ?_) fun hn => ?_
  · rw [wp_bind]
    refine wp_mono (writeLog_spec ht hlh hc) ?_ fun _ _ h => .inl h
    rintro _ u ⟨hulh, huc, hul⟩
    rw [wp_bind]
    refine wp_mono (writeHead_commit ht (hulh ▸ hlh) huc fun i hi => (hul i hi).1) ?_
      fun _ _ h => .inl h
    rintro _ v ⟨hvlh, hvp, hvb⟩
    rw [wp_bind]
    refine wp_mono (installTrans_spec ht (by rw [hvlh, hulh]; exact hlh) (fun i hi => ?_) hvp) ?_
      fun _ _ h => .inr h
    · rw [hvb i hi, (hul i hi).2]
    · rintro _ w ⟨-, hwp, hwn⟩
      exact wp_mono (writeHead_clear hwp hwn) (fun _ _ h => h) fun _ _ h => .inr h
  · -- an empty transaction changes nothing
    have h0 : t = [] := by
      rw [hlh.n] at hn
      exact List.length_eq_zero_iff.mp (by omega)
    subst h0
    exact ⟨hc.header, fun b hb => by simp [installed, hc.blocks b hb]⟩

/-- The machine after a reboot: the buffers are read from the disk, the header is whatever the
memory holds. -/
def Rebooted (s : LogMachine) : Prop := s.buf = s.disk

/-- **Recovery of a clean disk** changes no home block. -/
theorem recoverFromLog_clean (hb : Rebooted s) (hc : Clean A home s.disk) :
    wp (recoverFromLog A) (fun _ s' => Clean A home s'.disk) (fun _ s' => Clean A home s'.disk)
      s := by
  have h0 : (s.buf A.start 0).toInt = 0 := by rw [hb, hc.header]; rfl
  simp only [recoverFromLog, readHead, installTrans, wp_bind, wp_modify, wp_get, h0, Int.toNat_zero,
    forEach, wp_pure, clearHead, writeHead, wp_bwrite, update_self]
  split
  · exact hc
  · refine ⟨by rw [update_self]; rfl, fun b hb => ?_⟩
    have hne : b ≠ A.start := fun h => hb (h ▸ A.contains_start)
    rw [update_of_ne hne, hc.blocks b hb]

/-- **Recovery of a pending transaction** installs it, or leaves it pending. -/
theorem recoverFromLog_pending (ht : A.Admits t) (hb : Rebooted s)
    (hp : Pending A home t new s.disk) :
    wp (recoverFromLog A) (fun _ s' => Clean A (installed home t new) s'.disk)
      (fun _ s' => Pending A home t new s'.disk) s := by
  have hlen := ht.length_le
  have hn : (s.buf A.start 0).toInt = t.length := by
    rw [hb, hp.header, BitVec.toInt_ofNat']
    simp only [logSize] at hlen
    apply Int.bmod_eq_of_le <;> omega
  simp only [recoverFromLog, wp_bind, readHead, wp_modify, hn, Int.toNat_natCast]
  refine wp_mono (@installTrans_spec _ A t home new ht ⟨rfl, fun i hi => ?_⟩ (fun i hi => ?_) hp) ?_
    fun _ _ h => h
  · show (if i < t.length then s.buf A.start (headerWord i) else _) = _
    rw [if_pos hi, hb, hp.entry i hi]
  · show s.buf _ = _
    rw [hb, hp.logged i hi]
  · rintro _ w ⟨-, hwp, hwn⟩
    exact (wp_bind.mp (writeHead_clear hwp hwn))

end Specs

/-! ## Crashes -/

/-- The disk when a program ends or is cut. -/
def diskAfter : EStateM.Result PowerCut LogMachine Unit → Nat → Block
  | .ok _ s => s.disk
  | .error _ s => s.disk

/-- After a crash with the disk `d`, recovery is run again and again, cut at any write of any run,
until a run ends and leaves the disk `d'`. -/
inductive Recovered (A : LogArea) : (Nat → Block) → (Nat → Block) → Prop
  | done {s s' : LogMachine} (hb : Rebooted s) (h : recoverFromLog A s = .ok () s') :
      Recovered A s.disk s'.disk
  | again {s s' : LogMachine} {e : PowerCut} {d : Nat → Block} (hb : Rebooted s)
      (h : recoverFromLog A s = .error e s') (hr : Recovered A s'.disk d) : Recovered A s.disk d

section Crash

variable {s : LogMachine} {A : LogArea} {t : List (BitVec 32)} {home new d d' : Nat → Block}

theorem Recovered.clean (hr : Recovered A d d') (hc : Clean A home d) : Clean A home d' := by
  induction hr with
  | done hb h => exact (wp_ok h).mp (recoverFromLog_clean hb hc)
  | again hb h _ ih => exact ih ((wp_error h).mp (recoverFromLog_clean hb hc))

theorem Recovered.pending (hr : Recovered A d d') (ht : A.Admits t)
    (hp : Pending A home t new d) : Clean A (installed home t new) d' := by
  induction hr with
  | done hb h => exact (wp_ok h).mp (recoverFromLog_pending ht hb hp)
  | again hb h _ ih => exact ih ((wp_error h).mp (recoverFromLog_pending ht hb hp))

theorem Clean.all_new (hc : Clean A (installed home t new) d) (ht : A.Admits t) :
    ∀ x ∈ t, d x.toNat = new x.toNat := by
  intro x hx
  rw [hc.blocks _ (ht.home x hx), installed, if_pos ⟨x, hx, rfl⟩]

theorem Clean.others (hc : Clean A (installed home t new) d) :
    ∀ b, ¬A.Contains b → (∀ x ∈ t, x.toNat ≠ b) → d b = home b := by
  intro b hb hne
  rw [hc.blocks b hb, installed, if_neg]
  rintro ⟨x, hx, h⟩
  exact hne x hx h

/-- **The redo log is atomic.**  The transaction `t` is committed on a disk whose log is empty; the
power fails after any number of writes, and after any number of writes of any number of recovery
runs, until one ends.  Then the log is empty again, and the home blocks of the transaction have all
their old or all their new contents. -/
theorem commit_atomic (ht : A.Admits t) (hlh : s.lh.Holds t) (hempty : s.disk A.start 0 = 0#32)
    (hr : Recovered A (diskAfter (commit A s)) d) : d A.start 0 = 0#32 ∧
      (∀ b, ¬A.Contains b → (∀ x ∈ t, x.toNat ≠ b) → d b = s.disk b) ∧
      ((∀ x ∈ t, d x.toNat = s.disk x.toNat) ∨ ∀ x ∈ t, d x.toNat = s.buf x.toNat) := by
  -- whatever was cut, recovery ends on a clean disk, before or after the transaction
  have hclean : Clean A s.disk d ∨ Clean A (installed s.disk t s.buf) d := by
    have hspec := commit_spec ht hlh ⟨hempty, fun _ _ => rfl⟩
    cases hrun : commit A s with
    | ok u s' =>
      rw [hrun] at hr
      exact .inr (hr.clean ((wp_ok hrun).mp hspec))
    | error e s' =>
      rw [hrun] at hr
      rcases (wp_error hrun).mp hspec with hc | hp
      · exact .inl (hr.clean hc)
      · exact .inr (hr.pending ht hp)
  rcases hclean with hc | hc
  · exact ⟨hc.header, fun b hb _ => hc.blocks b hb, .inl fun x hx => hc.blocks _ (ht.home x hx)⟩
  · exact ⟨hc.header, hc.others, .inr (hc.all_new ht)⟩

end Crash

/-- The log that `mkfs` lays out. -/
def mkfsLog : LogArea := ⟨2, logSize, by decide, by decide⟩

/-- Blocks 40 and 41 are to be committed with new contents; the power fails after the third write,
that of the header. -/
def cutMachine : LogMachine where
  disk := fun _ _ => 0#32
  buf := fun b _ => BitVec.ofNat 32 b
  lh := ⟨2, fun i => BitVec.ofNat 32 (40 + i)⟩
  left := 3

/-- Recovery finds the header and installs the transaction. -/
theorem cutMachine_atomic : ∃ d, Recovered mkfsLog (diskAfter (commit mkfsLog cutMachine)) d ∧
    d 2 0 = 0#32 ∧ (d 40 0 = 0#32 ∧ d 41 0 = 0#32 ∨ d 40 0 = 40#32 ∧ d 41 0 = 41#32) := by
  have hrun : ∃ u s', recoverFromLog mkfsLog
      ⟨diskAfter (commit mkfsLog cutMachine), diskAfter (commit mkfsLog cutMachine),
        ⟨0, fun _ => 0⟩,
        100⟩ = .ok u s' ∧ True := by
    refine wp_total ?_
    decide
  obtain ⟨_, s', hs', -⟩ := hrun
  have hr := Recovered.done (s := ⟨_, _, _, _⟩) rfl hs'
  have hlh : cutMachine.lh.Holds [40#32, 41#32] := by
    refine ⟨rfl, fun i hi => ?_⟩
    have hi' : i = 0 ∨ i = 1 := by
      simp only [List.length_cons, List.length_nil] at hi
      omega
    rcases hi' with rfl | rfl <;> rfl
  have hadm : mkfsLog.Admits [40#32, 41#32] :=
    ⟨by decide, by simp [LogArea.Contains, mkfsLog, logSize]⟩
  obtain ⟨h0, -, hall⟩ := commit_atomic hadm hlh rfl hr
  refine ⟨_, hr, h0, ?_⟩
  rcases hall with hall | hall
  · exact .inl ⟨congrFun (hall 40#32 (by simp)) 0, congrFun (hall 41#32 (by simp)) 0⟩
  · exact .inr ⟨congrFun (hall 40#32 (by simp)) 0, congrFun (hall 41#32 (by simp)) 0⟩

end Xv6Paging
