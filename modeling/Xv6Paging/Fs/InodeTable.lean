import Mathlib.Data.List.Count
import Xv6Paging.Fs.Itable

/-!
# Soundness of the inode table

An entry with a reference is the only one of its inode, so that nobody else writes that inode's
place on the disk: what is valid and not locked is what is on the disk.  A free inode on the disk
that `ialloc` takes is none of an entry that may be believed: the type of a valid entry is not 0,
but in an `iput` that is about to clear `valid`.
-/

namespace Xv6Paging

variable {ι : Type} {n : Nat}

/-- The number of references to an entry. -/
def refCount (l : List (ι × Fin n)) (e : Fin n) : Nat := l.countP fun r => r.2 = e

theorem refCount_cons (r : ι × Fin n) (l : List (ι × Fin n)) (e : Fin n) :
    refCount (r :: l) e = refCount l e + if r.2 = e then 1 else 0 := by
  simp [refCount, List.countP_cons]

theorem refCount_erase [DecidableEq ι] {l : List (ι × Fin n)} {r : ι × Fin n} (hr : r ∈ l)
    (e : Fin n) : refCount l e = refCount (l.erase r) e + if r.2 = e then 1 else 0 := by
  have hperm := List.perm_cons_erase hr
  rw [← refCount_cons, refCount, refCount, hperm.countP_eq]

theorem refCount_pos {l : List (ι × Fin n)} {i : ι} {e : Fin n} (h : (i, e) ∈ l) :
    0 < refCount l e :=
  List.countP_pos_iff.mpr ⟨(i, e), h, by simp⟩

namespace InodeLock

/-- The inode has been read. -/
def Loaded : InodeLock ι → Prop
  | held _ _ | freeing _ | truncated _ | erased _ => True
  | _ => False

theorem Clean.alive {l : InodeLock ι} (h : l.Clean) : l.Alive := by
  cases l <;> trivial

end InodeLock

/-- What holds of the entry `e` with the contents `x`, about an inode that is `d` on the disk. -/
structure EntryInv (refs : List (ι × Fin n)) (d : Dinode) (e : Fin n) (x : InodeEntry ι) :
    Prop where
  holder : ∀ i, x.lock.owner = some i → (i, e) ∈ refs
  loading : ∀ i, x.lock = .loading i → x.valid = false
  loaded : x.lock.Loaded → x.valid = true
  clean : 0 < x.ref → x.valid = true → x.lock.Clean → x.fields = d
  typed : 0 < x.ref → x.valid = true → x.lock.Alive → x.fields.type ≠ 0 ∧ d.type ≠ 0

namespace EntryInv

variable {refs refs' : List (ι × Fin n)} {d d' : Dinode} {e : Fin n} {x : InodeEntry ι}

theorem disk (h : EntryInv refs d e x) (hd : 0 < x.ref → d' = d) : EntryInv refs d' e x where
  holder := h.holder
  loading := h.loading
  loaded := h.loaded
  clean hp := hd hp ▸ h.clean hp
  typed hp := hd hp ▸ h.typed hp

theorem reref {r : Nat} (h : EntryInv refs d e x) (hr : 0 < r → 0 < x.ref)
    (hholder : ∀ i, x.lock.owner = some i → (i, e) ∈ refs') :
    EntryInv refs' d e { x with ref := r } where
  holder := hholder
  loading := h.loading
  loaded := h.loaded
  clean hp := h.clean (hr hp)
  typed hp := h.typed (hr hp)

end EntryInv

/-- What holds in every state. -/
structure ItableInv (s : Itable ι n) : Prop where
  unique : ∀ e e', 0 < (s.entry e).ref → 0 < (s.entry e').ref → (s.entry e).id = (s.entry e').id →
    e = e'
  counted : ∀ e, (s.entry e).ref = refCount s.refs e + refCount s.dropping e
  entry : ∀ e, EntryInv s.refs (s.disk (s.entry e).id) e (s.entry e)

namespace ItableInv

variable {s t : Itable ι n} {e : Fin n} {i : ι}

theorem boot (disk : InodeId → Dinode) : ItableInv (.boot disk : Itable ι n) where
  unique _ _ h := absurd h (Nat.lt_irrefl 0)
  counted _ := rfl
  entry _ := ⟨nofun, nofun, fun h => h.elim, nofun, nofun⟩

section

variable (h : ItableInv s)
include h

theorem ref_pos (hr : (i, e) ∈ s.refs) : 0 < (s.entry e).ref := by
  rw [h.counted]
  exact Nat.add_pos_left (refCount_pos hr) _

theorem ref_pos_of_owner (hl : (s.entry e).lock.owner = some i) :
    0 < (s.entry e).ref := h.ref_pos ((h.entry e).holder i hl)

/-- What the owner of the lock knows of an inode that it has read and not freed. -/
theorem locked (hown : (s.entry e).lock.owner = some i) (hloaded : (s.entry e).lock.Loaded)
    (halive : (s.entry e).lock.Alive) : (∀ j, some i = some j → (j, e) ∈ s.refs) ∧
      0 < (s.entry e).ref ∧ (s.entry e).valid = true ∧ (s.entry e).fields.type ≠ 0 ∧
      (s.disk (s.entry e).id).type ≠ 0 := by
  have hmem := (h.entry e).holder i hown
  have hpos := h.ref_pos hmem
  have hv := (h.entry e).loaded hloaded
  refine ⟨?_, hpos, hv, (h.entry e).typed hpos hv halive⟩
  rintro j ⟨⟩
  exact hmem

section

variable (hpos : 0 < (s.entry e).ref)
include hpos

/-- **The owner of the lock** changes the entry and the inode on the disk.  No other entry is about
this inode. -/
theorem change {x : InodeEntry ι} {d : Dinode} (hid : x.id = (s.entry e).id)
    (href : x.ref = (s.entry e).ref) (hx : EntryInv s.refs d e x) :
    ItableInv ((s.put e x).writeInode (s.entry e).id d) := by
  set t := (s.put e x).writeInode (s.entry e).id d with ht
  have hself : t.entry e = x := by simp [ht, Itable.put, Itable.writeInode]
  have hother : ∀ e', e' ≠ e → t.entry e' = s.entry e' := fun e' he => by
    simp [ht, Itable.put, Itable.writeInode, he]
  have hids : ∀ e', (t.entry e').id = (s.entry e').id ∧ (t.entry e').ref = (s.entry e').ref := by
    intro e'
    by_cases he : e' = e
    · rw [he, hself]
      exact ⟨hid, href⟩
    · rw [hother e' he]
      exact ⟨rfl, rfl⟩
  refine ⟨fun e₁ e₂ h₁ h₂ heq => ?_, fun e' => ?_, fun e' => ?_⟩
  · rw [(hids e₁).2] at h₁
    rw [(hids e₂).2] at h₂
    rw [(hids e₁).1, (hids e₂).1] at heq
    exact h.unique e₁ e₂ h₁ h₂ heq
  · rw [(hids e').2]
    exact h.counted e'
  · rw [(hids e').1]
    by_cases he : e' = e
    · rw [he, hself]
      have hdisk : t.disk (s.entry e).id = d := by simp [ht, Itable.writeInode]
      rw [hdisk]
      exact hx
    · -- another entry that is in use is about another inode
      rw [hother e' he]
      refine (h.entry e').disk fun hpos' => ?_
      have hne : (s.entry e').id ≠ (s.entry e).id := fun heq => he (h.unique e' e hpos' hpos heq)
      simp [ht, Itable.put, Itable.writeInode, hne]

theorem change_entry {x : InodeEntry ι} (hid : x.id = (s.entry e).id)
    (href : x.ref = (s.entry e).ref) (hx : EntryInv s.refs (s.disk (s.entry e).id) e x) :
    ItableInv (s.put e x) := by
  have h1 := h.change hpos hid href hx
  have heq : (s.put e x).writeInode (s.entry e).id (s.disk (s.entry e).id) = s.put e x := by
    simp [Itable.writeInode, Itable.put]
  rwa [heq] at h1

theorem setLock {l : InodeLock ι} (hholder : ∀ i, l.owner = some i → (i, e) ∈ s.refs)
    (hloading : ∀ i, l = .loading i → (s.entry e).valid = false)
    (hloaded : l.Loaded → (s.entry e).valid = true)
    (hclean : l.Clean → (s.entry e).lock.Clean) (halive : l.Alive → (s.entry e).lock.Alive) :
    ItableInv (s.setLock e l) :=
  h.change_entry hpos rfl rfl ⟨hholder, hloading, hloaded,
    fun _ hv hc => (h.entry e).clean hpos hv (hclean hc),
    fun _ hv ha => (h.entry e).typed hpos hv (halive ha)⟩

omit hpos in
/-- **References come and go**: entries keep their identity and contents, and none that was unused
is used. -/
theorem reref (hentry : ∀ e, t.entry e = { s.entry e with ref := (t.entry e).ref })
    (hdisk : t.disk = s.disk) (hpos : ∀ e, 0 < (t.entry e).ref → 0 < (s.entry e).ref)
    (hcount : ∀ e, (t.entry e).ref = refCount t.refs e + refCount t.dropping e)
    (hholder : ∀ e i, (s.entry e).lock.owner = some i → (i, e) ∈ t.refs) : ItableInv t := by
  have hid : ∀ e, (t.entry e).id = (s.entry e).id := fun e => by rw [hentry]
  refine ⟨fun e e' he he' heq => ?_, hcount, fun e => ?_⟩
  · rw [hid, hid] at heq
    exact h.unique e e' (hpos e he) (hpos e' he') heq
  · rw [hdisk, hid, hentry]
    exact (h.entry e).reref (hpos e) (hholder e)

theorem addRef (i : ι) : ItableInv (s.addRef i e) := by
  have hself : (s.addRef i e).entry e = { s.entry e with ref := (s.entry e).ref + 1 } := by
    simp [Itable.addRef, Itable.put]
  have hother : ∀ e', e' ≠ e → (s.addRef i e).entry e' = s.entry e' := fun e' he => by
    simp [Itable.addRef, Itable.put, he]
  refine h.reref (fun e' => ?_) rfl (fun e' hp => ?_) (fun e' => ?_) fun e' j hl => ?_
  · by_cases he : e' = e
    · rw [he, hself]
    · rw [hother e' he]
  · by_cases he : e' = e
    · rw [he]
      exact hpos
    · rwa [hother e' he] at hp
  · show _ = refCount ((i, e) :: s.refs) e' + _
    rw [refCount_cons]
    by_cases he : e' = e
    · rw [he, hself, if_pos rfl]
      show (s.entry e).ref + 1 = _
      rw [h.counted]
      exact Nat.add_right_comm _ _ _
    · rw [hother e' he, if_neg fun heq => he heq.symm]
      exact h.counted e'
  · exact List.mem_cons_of_mem _ ((h.entry e').holder j hl)

end

/-- **An unused entry is recycled** for an inode that is not in the table. -/
theorem recycle {id : InodeId} (hzero : (s.entry e).ref = 0)
    (hnew : ∀ e', 0 < (s.entry e').ref → (s.entry e').id ≠ id) (i : ι) :
    ItableInv (s.recycle i e id) := by
  set t := s.recycle i e id with ht
  have hself : t.entry e = { s.entry e with id := id, ref := 1, valid := false } := by
    simp [ht, Itable.recycle, Itable.put]
  have hother : ∀ e', e' ≠ e → t.entry e' = s.entry e' := fun e' he => by
    simp [ht, Itable.recycle, Itable.put, he]
  -- nobody has locked it
  have hfree : (s.entry e).lock.owner = none := by
    by_contra hl
    obtain ⟨j, hj⟩ := Option.ne_none_iff_exists'.mp hl
    have := h.ref_pos_of_owner hj
    omega
  refine ⟨fun e₁ e₂ h₁ h₂ heq => ?_, fun e' => ?_, fun e' => ?_⟩
  · by_cases he₁ : e₁ = e <;> by_cases he₂ : e₂ = e
    · rw [he₁, he₂]
    · rw [he₁, hself, hother e₂ he₂] at heq
      rw [hother e₂ he₂] at h₂
      exact absurd heq.symm (hnew e₂ h₂)
    · rw [he₂, hself, hother e₁ he₁] at heq
      rw [hother e₁ he₁] at h₁
      exact absurd heq (hnew e₁ h₁)
    · rw [hother e₁ he₁] at h₁ heq
      rw [hother e₂ he₂] at h₂ heq
      exact h.unique e₁ e₂ h₁ h₂ heq
  · show _ = refCount ((i, e) :: s.refs) e' + refCount s.dropping e'
    have hcount := h.counted e'
    rw [refCount_cons]
    by_cases he : e' = e
    · rw [he, hself, if_pos rfl]
      rw [he, hzero] at hcount
      show 1 = _
      omega
    · rw [hother e' he, if_neg fun heq => he heq.symm]
      exact hcount
  · by_cases he : e' = e
    · rw [he, hself]
      refine ⟨fun j hj => ?_, fun _ _ => rfl, fun hl => ?_, nofun, nofun⟩
      · rw [show (s.entry e).lock.owner = some j from hj] at hfree
        cases hfree
      · have hl : (s.entry e).lock.Loaded := hl
        cases hlock : (s.entry e).lock <;> rw [hlock] at hl hfree
        · exact hl.elim
        · exact hl.elim
        all_goals cases hfree
    · rw [hother e' he]
      have hold := h.entry e'
      exact ⟨fun j hj => List.mem_cons_of_mem _ (hold.holder j hj), hold.loading, hold.loaded,
        hold.clean, hold.typed⟩

theorem iget {id : InodeId} (hs : s.iget i id = some t) : ItableInv t := by
  unfold Itable.iget at hs
  split at hs
  · rename_i e hfind
    cases hs
    have := List.find?_some hfind
    simp only [decide_eq_true_eq] at this
    exact h.addRef this.1 i
  · rename_i hfind
    obtain ⟨e, hempty, rfl⟩ := Option.map_eq_some_iff.mp hs
    have hzero := List.find?_some hempty
    simp only [decide_eq_true_eq] at hzero
    refine h.recycle hzero (fun e' hpos heq => ?_) i
    have hnone := List.find?_eq_none.mp hfind e' (List.mem_finRange e')
    exact hnone (by simp [hpos, heq])

/-- `ialloc` takes a free inode: no valid entry is about it, unless it is being freed. -/
theorem ialloc {id : InodeId} (hfree : (s.disk id).type = 0) (d : Dinode) :
    ItableInv (s.writeInode id d) := by
  have hne : ∀ e, 0 < (s.entry e).ref → (s.entry e).valid = true → (s.entry e).lock.Alive →
      (s.entry e).id ≠ id := by
    rintro e hp hv ha rfl
    exact ((h.entry e).typed hp hv ha).2 hfree
  refine ⟨h.unique, h.counted, fun e => ?_⟩
  have hold := h.entry e
  refine ⟨hold.holder, hold.loading, hold.loaded, fun hp hv hc => ?_, fun hp hv ha => ?_⟩
  · show (s.entry e).fields = Function.update s.disk id d (s.entry e).id
    rw [Function.update_of_ne (hne e hp hv hc.alive)]
    exact hold.clean hp hv hc
  · show _ ∧ (Function.update s.disk id d (s.entry e).id).type ≠ 0
    rw [Function.update_of_ne (hne e hp hv ha)]
    exact hold.typed hp hv ha

end

section Drop

variable [DecidableEq ι]

theorem mem_erase_of_owner (h : ItableInv s) {j : ι}
    (hl : (s.entry e).lock.owner = some i → (i, e) ∈ s.refs.erase (i, e)) {e' : Fin n}
    (hj : (s.entry e').lock.owner = some j) : (j, e') ∈ s.refs.erase (i, e) := by
  by_cases heq : (j, e') = (i, e)
  · cases heq
    exact hl hj
  · exact (List.mem_erase_of_ne heq).mpr ((h.entry e').holder j hj)

omit [DecidableEq ι] in
/-- **A reference is dropped**, from either list. -/
theorem decRef (h : ItableInv s) {refs dropping : List (ι × Fin n)}
    (hcount : ∀ e', refCount s.refs e' + refCount s.dropping e' =
      refCount refs e' + refCount dropping e' + if e = e' then 1 else 0)
    (hholder : ∀ e' j, (s.entry e').lock.owner = some j → (j, e') ∈ refs) :
    ItableInv { s.decRef e with refs := refs, dropping := dropping } := by
  have hself : (s.decRef e).entry e = { s.entry e with ref := (s.entry e).ref - 1 } := by
    simp [Itable.decRef, Itable.put]
  have hother : ∀ e', e' ≠ e → (s.decRef e).entry e' = s.entry e' := fun e' he => by
    simp [Itable.decRef, Itable.put, he]
  refine h.reref (fun e' => ?_) rfl (fun e' hp => ?_) (fun e' => ?_) hholder
  · show (s.decRef e).entry e' = { s.entry e' with ref := ((s.decRef e).entry e').ref }
    by_cases he : e' = e
    · rw [he, hself]
    · rw [hother e' he]
  · have hp : 0 < ((s.decRef e).entry e').ref := hp
    by_cases he : e' = e
    · rw [he, hself] at hp
      rw [he]
      exact Nat.lt_of_lt_of_le hp (Nat.sub_le _ _)
    · rwa [hother e' he] at hp
  · show ((s.decRef e).entry e').ref = refCount refs e' + refCount dropping e'
    have hold := h.counted e'
    rw [hcount] at hold
    by_cases he : e' = e
    · subst he
      rw [if_pos rfl] at hold
      rw [hself]
      exact Nat.sub_eq_of_eq_add hold
    · rw [if_neg fun heq => he heq.symm] at hold
      rw [hother e' he]
      exact hold

theorem invalidate (h : ItableInv s) (hl : (s.entry e).lock = .erased i) :
    ItableInv (s.invalidate i e) := by
  have hown : (s.entry e).lock.owner = some i := by rw [hl]; rfl
  have hmem := (h.entry e).holder i hown
  have h1 : ItableInv (s.put e { s.entry e with lock := .free, valid := false }) :=
    h.change_entry (h.ref_pos hmem) rfl rfl ⟨nofun, nofun, fun hf => hf.elim, nofun, nofun⟩
  refine h1.reref (fun _ => rfl) rfl (fun _ hp => hp) (fun e' => ?_) fun e' j hj => ?_
  · show _ = refCount (s.refs.erase (i, e)) e' + refCount ((i, e) :: s.dropping) e'
    have hcount : ((s.put e { s.entry e with lock := .free, valid := false }).entry e').ref =
      refCount s.refs e' + refCount s.dropping e' := h1.counted e'
    have hsplit := refCount_erase hmem e'
    rw [refCount_cons]
    show ((s.put e _).entry e').ref = _
    omega
  · refine h1.mem_erase_of_owner (fun hno => ?_) hj
    rw [show ((s.put e { s.entry e with lock := .free, valid := false }).entry e).lock = .free by
      simp [Itable.put]] at hno
    cases hno

/-! ## Every step -/

/-- **Every step keeps the invariant.** -/
theorem step (h : ItableInv s) (hstep : ItableStep s t) : ItableInv t := by
  cases hstep with
  | iget i id hs => exact h.iget hs
  | idup i e hr => exact h.addRef (h.ref_pos hr) i
  | pass i j e hr hl =>
    refine h.reref (fun _ => rfl) rfl (fun _ hp => hp) (fun e' => ?_) fun e' k hk => ?_
    · show (s.entry e').ref = refCount ((j, e) :: s.refs.erase (i, e)) e' + refCount s.dropping e'
      rw [refCount_cons, h.counted, refCount_erase hr e']
    · exact List.mem_cons_of_mem _ (h.mem_erase_of_owner hl hk)
  | ilock i e hr hl =>
    refine h.setLock (h.ref_pos hr) (fun j hj => ?_) (fun j hj => ?_) (fun hld => ?_) ?_ ?_
    · split at hj <;> cases hj <;> exact hr
    · split at hj
      · cases hj
      · simpa using ‹¬(s.entry e).valid = true›
    · split at hld
      · assumption
      · exact hld.elim
    · rw [hl]
      exact fun _ => trivial
    · rw [hl]
      exact fun _ => trivial
  | load i e hl ht =>
    have hmem := (h.entry e).holder i (by rw [hl]; rfl)
    refine h.change_entry (h.ref_pos hmem) rfl rfl ⟨fun j hj => ?_, nofun, fun _ => rfl,
      fun _ _ _ => rfl, fun _ _ _ => ⟨ht, ht⟩⟩
    cases hj
    exact hmem
  | modify i e d hl ht =>
    obtain ⟨hmem, hpos, hv, -, hty⟩ :=
      h.locked (i := i) (by rw [hl]; rfl) (by rw [hl]; trivial) (by rw [hl]; trivial)
    exact h.change_entry hpos rfl rfl ⟨hmem, nofun, fun _ => hv, fun _ _ hc => (nomatch hc),
      fun _ _ _ => ⟨ht, hty⟩⟩
  | iupdate i e hl =>
    obtain ⟨hmem, hpos, hv, hty, -⟩ :=
      h.locked (i := i) (by rw [hl]; rfl) (by rw [hl]; trivial) (by rw [hl]; trivial)
    exact h.change hpos (x := { s.entry e with lock := .held i false })
      (d := (s.entry e).fields) rfl rfl ⟨hmem, nofun, fun _ => hv, fun _ _ _ => rfl,
      fun _ _ _ => ⟨hty, hty⟩⟩
  | iunlock i e hl =>
    have hown : (s.entry e).lock.owner = some i := by rw [hl]; rfl
    refine h.setLock (h.ref_pos_of_owner hown) nofun nofun (fun hf => hf.elim) ?_ ?_
    · rw [hl]
      exact fun _ => rfl
    · rw [hl]
      exact fun _ => trivial
  | ialloc id type hfree => exact h.ialloc hfree _
  | iput i e hr hl hn =>
    refine h.decRef (fun e' => ?_) fun e' j hj => h.mem_erase_of_owner hl hj
    rw [refCount_erase hr e']
    exact Nat.add_right_comm _ _ _
  | iputFree i e hr hl hn =>
    refine h.setLock (h.ref_pos hr) (fun j hj => ?_) nofun (fun _ => hn.2.1) ?_ ?_
    · cases hj
      exact hr
    · rw [hl]
      exact fun _ => trivial
    · rw [hl]
      exact fun _ => trivial
  | itrunc i e hl =>
    obtain ⟨hmem, hpos, hv, hty, -⟩ :=
      h.locked (i := i) (by rw [hl]; rfl) (by rw [hl]; trivial) (by rw [hl]; trivial)
    have h1 := h.change hpos
      (x := { s.entry e with lock := .truncated i, fields := (s.entry e).fields.truncate })
      (d := (s.entry e).fields.truncate) rfl rfl ⟨hmem, nofun, fun _ => hv, fun _ _ _ => rfl,
      fun _ _ _ => ⟨hty, hty⟩⟩
    simpa [Itable.itrunc, Itable.iupdate, Itable.put] using h1
  | erase i e hl =>
    obtain ⟨hmem, hpos, hv, -, -⟩ :=
      h.locked (i := i) (by rw [hl]; rfl) (by rw [hl]; trivial) (by rw [hl]; trivial)
    have h1 := h.change hpos
      (x := { s.entry e with lock := .erased i, fields := { (s.entry e).fields with type := 0 } })
      (d := { (s.entry e).fields with type := 0 }) rfl rfl ⟨hmem, nofun, fun _ => hv,
      fun _ _ _ => rfl, fun _ _ ha => ha.elim⟩
    simpa [Itable.erase, Itable.iupdate, Itable.put] using h1
  | invalidate i e hl => exact h.invalidate hl
  | iputEnd i e hd =>
    refine h.decRef (fun e' => ?_) fun e' => (h.entry e').holder
    rw [refCount_erase hd e', Nat.add_assoc]
    rfl

theorem reachable (h : ItableReachable s) : ItableInv s := by
  obtain ⟨disk, hrun⟩ := h
  induction hrun with
  | refl => exact .boot disk
  | tail _ hstep ih => exact ih.step hstep

end Drop

end ItableInv

theorem ItableStep.id_eq [DecidableEq ι] {s t : Itable ι n} (h : ItableStep s t) {e : Fin n}
    (hpos : 0 < (s.entry e).ref) : (t.entry e).id = (s.entry e).id := by
  -- a new entry with the old identity
  have hput : ∀ (e' : Fin n) (x : InodeEntry ι), x.id = (s.entry e').id →
      (Function.update s.entry e' x e).id = (s.entry e).id := by
    intro e' x hx
    by_cases he : e = e'
    · subst he
      rw [Function.update_self]
      exact hx
    · rw [Function.update_of_ne he]
  cases h with
  | iget i id hs =>
    unfold Itable.iget at hs
    split at hs
    · cases hs
      exact hput _ _ rfl
    · obtain ⟨e', hempty, rfl⟩ := Option.map_eq_some_iff.mp hs
      have hzero := List.find?_some hempty
      simp only [decide_eq_true_eq] at hzero
      have hne : e ≠ e' := by
        rintro rfl
        omega
      show (Function.update s.entry e' _ e).id = _
      rw [Function.update_of_ne hne]
  | pass | ialloc => rfl
  | idup | ilock | load | modify | iupdate | iunlock | iput | iputFree | itrunc | erase | invalidate
  | iputEnd => exact hput _ _ rfl

/-- **The inode table is sound.**  In every state of every run there is at most one entry in use for
an inode, its `ref` is the number of references to it, no step changes its inode, and if it is valid
and not locked, it has what is on the disk. -/
theorem inode_table_sound {ι : Type} [DecidableEq ι] {n : Nat} {s : Itable ι n}
    (h : ItableReachable s) :
    (∀ e e', 0 < (s.entry e).ref → 0 < (s.entry e').ref → (s.entry e).id = (s.entry e').id →
      e = e') ∧ (∀ e, (s.entry e).ref = refCount s.refs e + refCount s.dropping e) ∧
    (∀ t, ItableStep s t → ∀ e, 0 < (s.entry e).ref → (t.entry e).id = (s.entry e).id) ∧
    ∀ e, 0 < (s.entry e).ref → (s.entry e).valid = true → (s.entry e).lock = .free →
      (s.entry e).fields = s.disk (s.entry e).id := by
  have hinv := ItableInv.reachable h
  refine ⟨hinv.unique, hinv.counted, fun t ht e hpos => ht.id_eq hpos, fun e hpos hv hl => ?_⟩
  exact (hinv.entry e).clean hpos hv (by rw [hl]; trivial)

/-- An open file without a link. -/
def unlinkedInode : Dinode := { Dinode.zero with type := 2 }

/-- A process drops the last reference to a file without a link.  Before it has cleared `valid`, the
other one allocates the inode again and gets the same entry; it then reads the inode, and drops one
of two references while it has the inode locked. -/
theorem inode_table_sound_reused : ∃ s : Itable (Fin 2) 2, ItableReachable s ∧
    (s.entry 0).ref = 1 ∧ (s.entry 0).fields.type = 3 ∧
      (s.entry 0).fields = s.disk (s.entry 0).id := by
  have h1 : Relation.ReflTransGen ItableStep (.boot fun _ => unlinkedInode : Itable (Fin 2) 2) _ :=
    .single (.iget 0 ⟨1, 1⟩ rfl)
  have h2 := ((h1.tail (.ilock 0 0 (by decide) rfl)).tail (.load 0 0 rfl (by decide))).tail
    (.iunlock 0 0 rfl)
  have h3 := ((h2.tail (.iputFree 0 0 (by decide) rfl ⟨rfl, rfl, rfl⟩)).tail (.itrunc 0 0 rfl)).tail
    (.erase 0 0 rfl)
  have h4 := ((h3.tail (.ialloc ⟨1, 1⟩ 3 rfl)).tail (.iget 1 ⟨1, 1⟩ rfl)).tail
    (.invalidate 0 0 rfl)
  have h5 := ((h4.tail (.iputEnd 0 0 (by decide))).tail (.ilock 1 0 (by decide) rfl)).tail
    (.load 1 0 rfl (by decide))
  have h6 := (h5.tail (.idup 1 0 (by decide))).tail
    (.iput 1 0 (by decide) (fun _ => by decide) (fun h => by cases h.1))
  have hs : ItableReachable _ := ⟨_, h6.tail (.iunlock 1 0 rfl)⟩
  exact ⟨_, hs, rfl, rfl, (inode_table_sound hs).2.2.2 0 (by decide) rfl rfl⟩

end Xv6Paging
