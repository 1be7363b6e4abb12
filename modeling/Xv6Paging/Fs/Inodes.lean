import Mathlib.Data.Finset.Basic
import Mathlib.Data.List.FinRange
import Xv6Paging.Disk.Contents
import Xv6Paging.Logic.Lift

/-!
# The inodes that a process works with

`iget`, `idup`, `ilock`, `iunlock` and `iput` as one process sees them, over the disk that the
buffer cache shows.  A process takes references and locks and gives them back; `held` is the sleep
lock of an entry as far as this process has it, and a process that locks an inode twice waits for
itself.

A function that works on a locked inode runs on the disk and the fields of its entry.  What it does
there has no effect on references and locks.
-/

namespace Xv6Paging

open StateHalt Disk

abbrev ninode : Nat := 50

instance : NeZero ninode := ⟨by decide⟩

/-- The texts of the panics of `fs.c`, and a wait without an end. -/
inductive InodePanic
  | fs (p : FsPanic)
  | igetNoInodes
  | ilock
  | iunlock
  | deadlock
  | dirlookupNotDir
  | dirlookupRead
  | dirlinkRead
  | dirlink
  | unlinkWritei
  | createDots
  | createDirlink
deriving DecidableEq

/-- `struct inode`: an entry of `itable`.  There is one disk only. -/
structure TableInode where
  inum : Nat
  ref : Nat
  held : Bool
  valid : Bool
  fields : Dinode

/-- The disk, and the entries. -/
structure Inodes where
  disk : Nat → Block
  entry : Fin ninode → TableInode

/-- A function of `fs.c` that works with references. -/
abbrev InodeM := EStateM InodePanic Inodes

namespace Inodes

/-- An entry gets other contents. -/
def put (s : Inodes) (e : Fin ninode) (x : TableInode) : Inodes :=
  { s with entry := Function.update s.entry e x }

@[simp] theorem disk_put (s : Inodes) (e : Fin ninode) (x : TableInode) :
    (s.put e x).disk = s.disk := rfl

@[simp] theorem put_self (s : Inodes) (e : Fin ninode) (x : TableInode) :
    (s.put e x).entry e = x := Function.update_self ..

theorem put_of_ne (s : Inodes) {e e' : Fin ninode} (x : TableInode) (h : e' ≠ e) :
    (s.put e x).entry e' = s.entry e' := Function.update_of_ne h ..

/-! ## Functions -/

/-- What a function on the locked inode sees. -/
def focus (s : Inodes) (e : Fin ninode) : FsState where
  disk := s.disk
  inum := (s.entry e).inum
  ip := (s.entry e).fields

/-- What it leaves. -/
def unfocus (s : Inodes) (e : Fin ninode) (f : FsState) : Inodes :=
  { s.put e { s.entry e with fields := f.ip } with disk := f.disk }

/-- A function runs on a locked inode. -/
def onInode {α : Type} (e : Fin ninode) (m : FsM α) : InodeM α :=
  onPart (fun s => s.focus e) (fun f s => s.unfocus e f) (m.adaptExcept .fs)

/-- The entry of an inode that is in the table. -/
def find (s : Inodes) (inum : Nat) : Option (Fin ninode) :=
  (List.finRange ninode).find? fun e => 0 < (s.entry e).ref ∧ (s.entry e).inum = inum

/-- The first empty entry. -/
def empty (s : Inodes) : Option (Fin ninode) :=
  (List.finRange ninode).find? fun e => (s.entry e).ref = 0

/-- One more reference; an unused entry is recycled. -/
def gain (s : Inodes) (e : Fin ninode) (inum : Nat) : Inodes :=
  s.put e (if (s.entry e).ref = 0 then { s.entry e with inum := inum, ref := 1, valid := false }
    else { s.entry e with ref := (s.entry e).ref + 1 })

/-- `ip->ref--`. -/
def drop (s : Inodes) (e : Fin ninode) : Inodes :=
  s.put e { s.entry e with ref := (s.entry e).ref - 1 }

/-- The lock is released. -/
def unlock (s : Inodes) (e : Fin ninode) : Inodes := s.put e { s.entry e with held := false }

section Functions

variable (sb : Superblock)

/-- The entry is locked and has been read. -/
def lock (s : Inodes) (e : Fin ninode) : Inodes :=
  s.put e { s.entry e with
    held := true
    valid := true
    fields := if (s.entry e).valid then (s.entry e).fields
      else diskInode sb s.disk (s.entry e).inum }

def iget (inum : Nat) : InodeM (Fin ninode) := do
  match (← get).find inum with
  | some e =>
    modify fun s => s.put e { s.entry e with ref := (s.entry e).ref + 1 }
    pure e
  | none =>
    match (← get).empty with
    | none => throw .igetNoInodes
    | some e =>
      modify fun s => s.put e { s.entry e with inum := inum, ref := 1, valid := false }
      pure e

def idup (e : Fin ninode) : InodeM (Fin ninode) := do
  modify fun s => s.put e { s.entry e with ref := (s.entry e).ref + 1 }
  pure e

/-- `acquiresleep(&ip->lock)`. -/
def acquiresleep (e : Fin ninode) : InodeM Unit := do
  if ((← get).entry e).held then throw .deadlock
  else modify fun s => s.put e { s.entry e with held := true }

/-- `releasesleep(&ip->lock)`. -/
def releasesleep (e : Fin ninode) : InodeM Unit := modify fun s => s.unlock e

def ilock (e : Fin ninode) : InodeM Unit := do
  if ((← get).entry e).ref < 1 then throw .ilock
  else
    acquiresleep e
    onlyIf (((← get).entry e).valid = false) do
      modify fun s => s.put e { s.entry e with
        fields := diskInode sb s.disk (s.entry e).inum, valid := true }
      onlyIf (((← get).entry e).fields.type = 0) (throw (.fs .noType))

def iunlock (e : Fin ninode) : InodeM Unit := do
  if ((← get).entry e).held = false ∨ ((← get).entry e).ref < 1 then throw .iunlock
  else releasesleep e

/-- The condition under which `iput` frees the inode. -/
def LastRef (s : Inodes) (e : Fin ninode) : Prop :=
  (s.entry e).ref = 1 ∧ (s.entry e).valid = true ∧ (s.entry e).fields.nlink = 0

instance (s : Inodes) (e : Fin ninode) : Decidable (s.LastRef e) :=
  inferInstanceAs (Decidable (_ ∧ _ ∧ _))

/-- The part of `iput` that frees the inode. -/
def ifree (e : Fin ninode) : InodeM Unit := do
  acquiresleep e
  onInode e (itrunc sb)
  onInode e (modify fun f => { f with ip := { f.ip with type := 0 } })
  onInode e (iupdate sb)
  modify fun s => s.put e { s.entry e with valid := false }
  releasesleep e

def iput (e : Fin ninode) : InodeM Unit := do
  onlyIf ((← get).LastRef e) (ifree sb e)
  modify fun s => s.drop e

def iunlockput (e : Fin ninode) : InodeM Unit := do
  iunlock e
  iput sb e

end Functions

/-! ## What the functions do -/

section Steps

variable {sb : Superblock} {s : Inodes} {e : Fin ninode} {E : InodePanic → Inodes → Prop}

theorem wp_onInode {α : Type} {m : FsM α} {Q : α → Inodes → Prop} : wp (onInode e m) Q E s ↔
      wp m (fun a f => Q a (s.unfocus e f)) (fun p f => E (.fs p) (s.unfocus e f)) (s.focus e) := by
  rw [onInode, wp_onPart, wp_adaptExcept]

/-- The entry that `iget` takes: the one of the inode, or an unused one if there is none. -/
structure Gets (s : Inodes) (inum : Nat) (e : Fin ninode) : Prop where
  found : 0 < (s.entry e).ref → (s.entry e).inum = inum
  new : (s.entry e).ref = 0 → ∀ e', 0 < (s.entry e').ref → (s.entry e').inum ≠ inum

/-- **`iget`** panics if all entries are in use. -/
theorem wp_iget (s : Inodes) (inum : Nat) :
    wp (iget inum) (fun e s' => s.Gets inum e ∧ s' = s.gain e inum)
      (fun p _ => p = .igetNoInodes ∧ ∀ e, 0 < (s.entry e).ref) s := by
  unfold iget
  simp only [wp_bind, wp_get]
  cases hfind : s.find inum with
  | some e =>
    have he := List.find?_some hfind
    simp only [decide_eq_true_eq] at he
    have hne : (s.entry e).ref ≠ 0 := Nat.ne_of_gt he.1
    refine ⟨⟨fun _ => he.2, fun h0 => absurd h0 hne⟩, ?_⟩
    rw [gain, if_neg hne]
  | none =>
    have hnone : ∀ e', 0 < (s.entry e').ref → (s.entry e').inum ≠ inum := by
      intro e' hpos heq
      have := List.find?_eq_none.mp hfind e' (List.mem_finRange e')
      simp only [decide_eq_true_eq] at this
      exact this ⟨hpos, heq⟩
    simp only [wp_bind, wp_get]
    cases hempty : s.empty with
    | none =>
      refine ⟨rfl, fun e => Nat.pos_of_ne_zero fun h0 => ?_⟩
      have := List.find?_eq_none.mp hempty e (List.mem_finRange e)
      simp only [decide_eq_true_eq] at this
      exact this h0
    | some e =>
      have he := List.find?_some hempty
      simp only [decide_eq_true_eq] at he
      refine ⟨⟨fun hpos => absurd he (Nat.ne_of_gt hpos), fun _ => hnone⟩, ?_⟩
      rw [gain, if_pos he]

theorem wp_idup {Q : Fin ninode → Inodes → Prop}
    (h : 0 < (s.entry e).ref) : wp (idup e) Q E s ↔ Q e (s.gain e (s.entry e).inum) := by
  unfold idup
  simp only [wp_bind, wp_modify, wp_pure]
  rw [gain, if_neg (Nat.ne_of_gt h)]

/-- **`ilock`** of an inode that this process has not locked. -/
theorem wp_ilock (s : Inodes) (e : Fin ninode) :
    wp (ilock sb e) (fun _ s' => s' = s.lock sb e ∧ 0 < (s.entry e).ref ∧ (s.entry e).held = false)
      (fun _ _ => (s.entry e).ref = 0 ∨ (s.entry e).held = true ∨ ((s.entry e).valid = false ∧
        (diskInode sb s.disk (s.entry e).inum).type = 0)) s := by
  unfold ilock acquiresleep
  simp only [wp_bind, wp_get]
  apply wp_ite <;> intro href
  · exact .inl (by omega)
  simp only [wp_bind, wp_get]
  apply wp_ite <;> intro hheld
  · exact .inr (.inl hheld)
  rw [Bool.not_eq_true] at hheld
  simp only [wp_modify, put_self]
  apply wp_onlyIf <;> intro hvalid
  · -- the inode is read
    simp only [wp_bind, wp_modify, wp_get, put_self, disk_put]
    apply wp_onlyIf <;> intro htype
    · exact .inr (.inr ⟨hvalid, htype⟩)
    · refine ⟨?_, by omega, hheld⟩
      simp [lock, put, hvalid]
  · refine ⟨?_, by omega, hheld⟩
    rw [Bool.not_eq_false] at hvalid
    simp [lock, put, hvalid]

/-- **`iunlock`** of an inode that this process has locked. -/
theorem wp_iunlock (s : Inodes) (e : Fin ninode) : wp (iunlock e) (fun _ s' => s' = s.unlock e)
      (fun _ _ => (s.entry e).held = false ∨ (s.entry e).ref = 0) s := by
  unfold iunlock releasesleep
  simp only [wp_bind, wp_get]
  apply wp_ite <;> intro h
  · exact h.imp_right (by omega)
  · rfl

theorem wp_iput_kept {Q : Unit → Inodes → Prop}
    (h : ¬s.LastRef e) : wp (iput sb e) Q E s ↔ Q () (s.drop e) := by
  unfold iput
  simp only [wp_bind, wp_get, onlyIf_false h, wp_pure, wp_modify]

theorem wp_iunlockput_kept {Q : Unit → Inodes → Prop} {E : InodePanic → Inodes → Prop}
    (hheld : (s.entry e).held = true) (hpos : 0 < (s.entry e).ref) (h : ¬(s.unlock e).LastRef e) :
    wp (iunlockput sb e) Q E s ↔ Q () ((s.unlock e).drop e) := by
  have hok : ¬((s.entry e).held = false ∨ (s.entry e).ref < 1) := by
    rintro (hfalse | hlt)
    · rw [hheld] at hfalse
      cases hfalse
    · omega
  unfold iunlockput iunlock releasesleep
  simp only [wp_bind, wp_get]
  rw [if_neg hok, wp_modify, wp_iput_kept h]

end Steps

/-! ## References and locks -/

/-- Since `s₀` the process has got the references `own`; it has the locks `locks`. -/
structure Since (s₀ : Inodes) (own : List (Fin ninode)) (locks : Finset (Fin ninode))
    (s : Inodes) : Prop where
  ref : ∀ e, (s.entry e).ref = (s₀.entry e).ref + own.count e
  held : ∀ e, (s.entry e).held = true ↔ e ∈ locks
  inum : ∀ e, 0 < (s₀.entry e).ref → (s.entry e).inum = (s₀.entry e).inum

namespace Since

variable {sb : Superblock} {s₀ s : Inodes} {own : List (Fin ninode)} {locks : Finset (Fin ninode)}
  {e : Fin ninode}

theorem refl (h : ∀ e, (s.entry e).held = false) : Since s [] ∅ s where
  ref e := rfl
  held e := by simp [h e]
  inum e _ := rfl

variable (h : Since s₀ own locks s)
include h

theorem perm {own' : List (Fin ninode)} (hp : own.Perm own') : Since s₀ own' locks s where
  ref e := by rw [h.ref, hp.count_eq]
  held := h.held
  inum := h.inum

theorem ref_pos (he : e ∈ own) : 0 < (s.entry e).ref := by
  rw [h.ref]
  exact Nat.add_pos_right _ (List.count_pos_iff.mpr he)

theorem put {own' : List (Fin ninode)} {locks' : Finset (Fin ninode)} {x : TableInode}
    {disk : Nat → Block}
    (hown : ∀ e', e' ≠ e → own'.count e' = own.count e')
    (hlocks : ∀ e', e' ≠ e → (e' ∈ locks' ↔ e' ∈ locks))
    (href : x.ref = (s₀.entry e).ref + own'.count e) (hheld : x.held = true ↔ e ∈ locks')
    (hinum : 0 < (s₀.entry e).ref → x.inum = (s.entry e).inum) :
    Since s₀ own' locks' { s.put e x with disk := disk } := by
  have hother : ∀ e', e' ≠ e → ({ s.put e x with disk := disk } : Inodes).entry e' = s.entry e' :=
    fun e' he => s.put_of_ne x he
  have hself : ({ s.put e x with disk := disk } : Inodes).entry e = x := s.put_self e x
  constructor
  · intro e'
    by_cases he : e' = e
    · rw [he, hself, href]
    · rw [hother e' he, hown e' he, h.ref]
  · intro e'
    by_cases he : e' = e
    · rw [he, hself, hheld]
    · rw [hother e' he, hlocks e' he, h.held]
  · intro e' hpos
    by_cases he : e' = e
    · subst he
      rw [hself, hinum hpos, h.inum e' hpos]
    · rw [hother e' he, h.inum e' hpos]

theorem refill {x : TableInode} {disk : Nat → Block}
    (href : x.ref = (s.entry e).ref) (hheld : x.held = (s.entry e).held)
    (hinum : x.inum = (s.entry e).inum) :
    Since s₀ own locks { s.put e x with disk := disk } :=
  h.put (fun _ _ => rfl) (fun _ _ => Iff.rfl) (href.trans (h.ref e)) (hheld ▸ h.held e)
    fun _ => hinum

theorem gain (e : Fin ninode) (inum : Nat) : Since s₀ (e :: own) locks (s.gain e inum) := by
  have href := h.ref e
  refine h.put (fun e' he => List.count_cons_of_ne (Ne.symm he)) (fun _ _ => Iff.rfl) ?_ ?_ ?_
  · rw [List.count_cons_self]
    split
    · show 1 = _
      omega
    · show (s.entry e).ref + 1 = _
      omega
  · split <;> exact h.held e
  · intro hpos
    rw [if_neg (by omega)]

theorem lock (e : Fin ninode) : Since s₀ own (insert e locks) (s.lock sb e) := by
  refine h.put (fun _ _ => rfl) (fun e' he => ?_) (h.ref e) ?_ fun _ => rfl
  · rw [Finset.mem_insert, or_iff_right he]
  · simp

theorem unlock (e : Fin ninode) : Since s₀ own (locks.erase e) (s.unlock e) := by
  refine h.put (fun _ _ => rfl) (fun e' he => ?_) (h.ref e) ?_ fun _ => rfl
  · rw [Finset.mem_erase, and_iff_right he]
  · simp

theorem drop (he : e ∈ own) : Since s₀ (own.erase e) locks (s.drop e) := by
  have href := h.ref e
  have hpos := List.count_pos_iff.mpr he
  refine h.put (fun e' hne => List.count_erase_of_ne hne) (fun _ _ => Iff.rfl) ?_ (h.held e)
    fun _ => rfl
  rw [List.count_erase_self]
  show (s.entry e).ref - 1 = _
  omega

/-- **A function on a locked inode** has no effect on references and locks. -/
theorem wp_onInode {α : Type} {m : FsM α} :
    wp (onInode e m) (fun _ s' => Since s₀ own locks s') (fun _ _ => True) s := by
  rw [Inodes.wp_onInode]
  exact wp_any fun a f => h.refill rfl rfl rfl

theorem wp_iget (inum : Nat) :
    wp (iget inum) (fun e s' => Since s₀ (e :: own) locks s') (fun _ _ => True) s := by
  refine wp_mono (Inodes.wp_iget s inum) ?_ fun _ _ _ => trivial
  rintro e _ ⟨-, rfl⟩
  exact h.gain e inum

theorem wp_idup (e : Fin ninode) :
    wp (idup e) (fun e' s' => e' = e ∧ Since s₀ (e :: own) locks s') (fun _ _ => True) s := by
  have href := h.ref e
  refine ⟨rfl, h.put (fun e' he => List.count_cons_of_ne (Ne.symm he)) (fun _ _ => Iff.rfl) ?_
    (h.held e) fun _ => rfl⟩
  rw [List.count_cons_self]
  show (s.entry e).ref + 1 = _
  omega

theorem wp_ilock (e : Fin ninode) :
    wp (ilock sb e) (fun _ s' => e ∉ locks ∧ Since s₀ own (insert e locks) s')
      (fun _ _ => True) s := by
  refine wp_mono (Inodes.wp_ilock s e) ?_ fun _ _ _ => trivial
  rintro _ _ ⟨rfl, -, hfree⟩
  refine ⟨fun hmem => ?_, h.lock e⟩
  rw [(h.held e).mpr hmem] at hfree
  cases hfree

theorem wp_iunlock (e : Fin ninode) :
    wp (iunlock e) (fun _ s' => Since s₀ own (locks.erase e) s') (fun _ _ => True) s := by
  refine wp_mono (Inodes.wp_iunlock s e) ?_ fun _ _ _ => trivial
  rintro _ _ rfl
  exact h.unlock e

theorem wp_ifree (e : Fin ninode) :
    wp (ifree sb e) (fun _ s' => Since s₀ own locks s') (fun _ _ => True) s := by
  unfold ifree acquiresleep releasesleep
  simp only [wp_bind, wp_get]
  apply wp_ite <;> intro hheld
  · trivial
  have hfree : e ∉ locks := fun hmem => hheld ((h.held e).mpr hmem)
  have hlock : Since s₀ own (insert e locks) (s.put e { s.entry e with held := true }) := by
    refine h.put (fun _ _ => rfl) (fun e' he => ?_) (h.ref e) ?_ fun _ => rfl
    · rw [Finset.mem_insert, or_iff_right he]
    · simp
  simp only [wp_modify]
  refine wp_post hlock.wp_onInode fun _ s₁ h₁ => ?_
  refine wp_post h₁.wp_onInode fun _ s₂ h₂ => ?_
  refine wp_post h₂.wp_onInode fun _ s₃ h₃ => ?_
  have h₄ : Since s₀ own (insert e locks) (s₃.put e { s₃.entry e with valid := false }) :=
    h₃.refill rfl rfl rfl
  have h₅ := h₄.unlock e
  rwa [Finset.erase_insert hfree] at h₅

/-- **`iput`** gives one reference back, whether or not it frees the inode. -/
theorem wp_iput (he : e ∈ own) :
    wp (iput sb e) (fun _ s' => Since s₀ (own.erase e) locks s') (fun _ _ => True) s := by
  unfold iput
  simp only [wp_bind, wp_get, wp_modify]
  apply wp_onlyIf <;> intro _
  · exact wp_post (h.wp_ifree e) fun _ _ h' => h'.drop he
  · exact h.drop he

theorem wp_iunlockput (he : e ∈ own) :
    wp (iunlockput sb e) (fun _ s' => Since s₀ (own.erase e) (locks.erase e) s')
      (fun _ _ => True) s := by
  unfold iunlockput
  simp only [wp_bind]
  exact wp_post (h.wp_iunlock e) fun _ _ h' => h'.wp_iput he

end Since

/-! ## Entries and the disk -/

/-- The free map is right, an inode has one entry, and valid entries are as on the disk. -/
structure Coherent (sb : Superblock) (s : Inodes) : Prop where
  sound : Sound sb s.disk
  unique : ∀ e e', 0 < (s.entry e).ref → 0 < (s.entry e').ref →
    (s.entry e).inum = (s.entry e').inum → e = e'
  current : ∀ e, 0 < (s.entry e).ref → (s.entry e).valid = true →
    (s.entry e).fields = diskInode sb s.disk (s.entry e).inum ∧
      DiskLive sb s.disk (s.entry e).inum

namespace Coherent

variable {sb : Superblock} {s : Inodes} {e : Fin ninode}

variable (h : Coherent sb s)
include h

theorem put {x : TableInode}
    (hunique : 0 < x.ref → ∀ e', e' ≠ e → 0 < (s.entry e').ref → (s.entry e').inum ≠ x.inum)
    (hcurrent : 0 < x.ref → x.valid = true →
      x.fields = diskInode sb s.disk x.inum ∧ DiskLive sb s.disk x.inum) :
    Coherent sb (s.put e x) := by
  refine ⟨h.sound, fun e₁ e₂ h₁ h₂ heq => ?_, fun e' hpos hvalid => ?_⟩
  · by_cases he₁ : e₁ = e <;> by_cases he₂ : e₂ = e
    · rw [he₁, he₂]
    · rw [he₁, put_self] at h₁ heq
      rw [put_of_ne s x he₂] at h₂ heq
      exact absurd heq.symm (hunique h₁ e₂ he₂ h₂)
    · rw [he₂, put_self] at h₂ heq
      rw [put_of_ne s x he₁] at h₁ heq
      exact absurd heq (hunique h₂ e₁ he₁ h₁)
    · rw [put_of_ne s x he₁] at h₁ heq
      rw [put_of_ne s x he₂] at h₂ heq
      exact h.unique e₁ e₂ h₁ h₂ heq
  · by_cases he : e' = e
    · subst he
      rw [put_self] at hpos hvalid ⊢
      exact hcurrent hpos hvalid
    · rw [put_of_ne s x he] at hpos hvalid ⊢
      exact h.current e' hpos hvalid

theorem gain {inum : Nat} (hg : s.Gets inum e) : Coherent sb (s.gain e inum) := by
  by_cases h0 : (s.entry e).ref = 0
  · rw [Inodes.gain, if_pos h0]
    refine h.put (fun _ e' _ hpos => hg.new h0 e' hpos) fun _ hvalid => ?_
    cases hvalid
  · have hpos := Nat.pos_of_ne_zero h0
    rw [Inodes.gain, if_neg h0]
    refine h.put (fun _ e' he hpos' heq => he ?_) fun _ hvalid => h.current e hpos hvalid
    exact h.unique e' e hpos' hpos heq

variable (hpos : 0 < (s.entry e).ref)
include hpos

theorem lock (hlive : DiskLive sb s.disk (s.entry e).inum) : Coherent sb (s.lock sb e) := by
  refine h.put (fun _ e' he hpos' heq => he (h.unique e' e hpos' hpos heq)) fun _ _ => ⟨?_, hlive⟩
  show (if (s.entry e).valid then _ else _) = _
  split
  · exact (h.current e hpos ‹_›).1
  · rfl

theorem unlock : Coherent sb (s.unlock e) :=
  h.put (fun _ e' he hpos' heq => he (h.unique e' e hpos' hpos heq)) fun _ hvalid =>
    h.current e hpos hvalid

theorem drop : Coherent sb (s.drop e) :=
  h.put (fun _ e' he hpos' heq => he (h.unique e' e hpos' hpos heq)) fun _ hvalid =>
    h.current e hpos hvalid

theorem unfocus {f : FsState}
    (hsound : Sound sb f.disk) (hlocked : f = FsState.locked sb f.disk (s.entry e).inum)
    (hlive : DiskLive sb f.disk (s.entry e).inum)
    (hothers : ∀ j, j ≠ (s.entry e).inum → j < sb.ninodes.toNat →
      diskInode sb f.disk j = diskInode sb s.disk j) :
    Coherent sb (s.unfocus e f) ∧ (s.unfocus e f).focus e = f := by
  have hself : (s.unfocus e f).entry e = { s.entry e with fields := f.ip } := s.put_self e _
  have hother : ∀ e', e' ≠ e → (s.unfocus e f).entry e' = s.entry e' := fun e' he =>
    s.put_of_ne _ he
  have hnum : ∀ e', ((s.unfocus e f).entry e').inum = (s.entry e').inum ∧
      ((s.unfocus e f).entry e').ref = (s.entry e').ref := by
    intro e'
    by_cases he : e' = e
    · rw [he, hself]
      exact ⟨rfl, rfl⟩
    · rw [hother e' he]
      exact ⟨rfl, rfl⟩
  refine ⟨⟨hsound, fun e₁ e₂ h₁ h₂ heq => ?_, fun e' hpos' hvalid => ?_⟩, ?_⟩
  · rw [(hnum e₁).2] at h₁
    rw [(hnum e₂).2] at h₂
    rw [(hnum e₁).1, (hnum e₂).1] at heq
    exact h.unique e₁ e₂ h₁ h₂ heq
  · by_cases he : e' = e
    · subst he
      rw [hself]
      exact ⟨congrArg FsState.ip hlocked, hlive⟩
    · -- another entry is about another inode
      rw [hother e' he] at hpos' hvalid ⊢
      obtain ⟨hfields, halive⟩ := h.current e' hpos' hvalid
      have hsame := hothers _ (fun heq => he (h.unique e' e hpos' hpos heq)) halive.1
      show _ = diskInode sb f.disk _ ∧ Live sb (diskInode sb f.disk) _
      rw [Live, hsame]
      exact ⟨hfields, halive⟩
  · rw [focus, hself]
    show (⟨f.disk, (s.entry e).inum, f.ip⟩ : FsState) = f
    exact congrArg (fun i => (⟨f.disk, i, f.ip⟩ : FsState)) (congrArg FsState.inum hlocked).symm

end Coherent

end Inodes

end Xv6Paging
