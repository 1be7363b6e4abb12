import Mathlib.Data.Fintype.Card
import Xv6Paging.Fs.Directory

/-!
# Path names

`namex` goes from directory to directory.  It has a reference to the inode where it is; it locks the
inode, looks up the next element, gets a reference to what it finds, and gives back the lock and the
first reference.  It leaves at once if the inode is no directory or has no such name.

The directory tree does not change in between.  References and locks are balanced whatever is on the
disk; which inode is found is a matter of the entries alone.
-/

namespace Xv6Paging.Inodes

open StateHalt Disk CString Names
open List (cons_ne_nil erase_cons_head mem_singleton_self take)

abbrev rootino : Nat := 1

section Functions

variable (sb : Superblock)

/-- The loop of `namex`: the inode, and what is in the array `name`. -/
def namexLoop (nameiparent : Bool) (ip : Fin ninode) (path name : List UInt8) :
    InodeM (Option (Fin ninode) × List UInt8) :=
  match _h : skipelem path name with
  | some (path', name') => do
    ilock sb ip
    if ((← get).entry ip).fields.type ≠ typeDir then
      iunlockput sb ip
      pure (none, name')
    else if nameiparent = true ∧ char path' 0 = 0 then
      -- stop one level early
      iunlock ip
      pure (some ip, name')
    else
      match ← dirlookup sb ip name' with
      | none =>
        iunlockput sb ip
        pure (none, name')
      | some (next, _) =>
        iunlockput sb ip
        namexLoop nameiparent next path' name'
  | none =>
    if nameiparent then do
      iput sb ip
      pure (none, name)
    else pure (some ip, name)
termination_by path.length
decreasing_by exact length_skipelem _h

/-- Where `namex` starts: at the root, or at the current directory. -/
def namexStart (cwd : Fin ninode) (path : List UInt8) : InodeM (Fin ninode) :=
  if char path 0 = '/'.toUInt8 then iget rootino else idup cwd

/-- `namex`; `cwd` is the current directory of the process. -/
def namex (cwd : Fin ninode) (path : List UInt8) (nameiparent : Bool) (name : List UInt8) :
    InodeM (Option (Fin ninode) × List UInt8) := do
  let ip ← namexStart cwd path
  namexLoop sb nameiparent ip path name

/-- `namei`; `name` is what is in its local array. -/
def namei (cwd : Fin ninode) (path name : List UInt8) : InodeM (Option (Fin ninode)) :=
  Prod.fst <$> namex sb cwd path false name

def nameiparent (cwd : Fin ninode) (path name : List UInt8) :
    InodeM (Option (Fin ninode) × List UInt8) := namex sb cwd path true name

end Functions

/-! ## References and locks -/

namespace Since

variable {sb : Superblock} {s₀ s : Inodes} {own : List (Fin ninode)}
  {locks : Finset (Fin ninode)} {ip dp : Fin ninode}

theorem wp_readDirent (h : Since s₀ own locks s) (p : InodePanic) (off : Nat) :
    wp (readDirent sb p dp off) (fun _ s' => Since s₀ own locks s') (fun _ _ => True) s := by
  unfold readDirent
  rw [wp_bind]
  refine wp_post h.wp_onInode fun r s' h' => ?_
  cases r with
  | none => trivial
  | some b => exact wp_ite (fun _ => h') fun _ => trivial

theorem wp_dirlookupLoop (h : Since s₀ own locks s) (name : List UInt8) (size off : Nat) :
    wp (dirlookupLoop sb dp name size off) (fun _ s' => Since s₀ own locks s')
      (fun _ _ => True) s := by
  induction hm : size - off using Nat.strong_induction_on generalizing off s with
  | _ m ih =>
    rw [dirlookupLoop]
    apply wp_ite <;> intro hlt
    · rw [wp_bind]
      refine wp_post (h.wp_readDirent .dirlookupRead off) fun de s' h' => ?_
      have hnext := ih (size - (off + 16)) (by omega) h' (off + 16) rfl
      refine wp_ite (fun _ => hnext) fun _ => wp_ite (fun _ => h') fun _ => hnext
    · exact h

/-- **`dirlookup`** gets a reference to the inode that it returns. -/
theorem wp_dirlookup (h : Since s₀ own locks s) (name : List UInt8) : wp (dirlookup sb dp name)
      (fun r s' => Since s₀ ((r.map Prod.fst).toList ++ own) locks s') (fun _ _ => True) s := by
  unfold dirlookup
  simp only [wp_bind, wp_get]
  apply wp_ite <;> intro _
  · trivial
  rw [wp_bind]
  refine wp_post (h.wp_dirlookupLoop name _ 0) fun r s' h' => ?_
  rcases r with _ | ⟨inum, off⟩
  · exact h'
  · simp only [wp_bind, wp_pure]
    exact h'.wp_iget inum

theorem wp_unlockput_locked (h : Since s₀ own {ip} s) (hip : ip ∈ own) :
    wp (iunlockput sb ip) (fun _ s' => Since s₀ (own.erase ip) ∅ s') (fun _ _ => True) s := by
  refine wp_post (h.wp_iunlockput hip) fun _ s' h' => ?_
  rwa [Finset.erase_singleton] at h'

/-- **The loop of `namex`** gives back all but the reference to what it returns. -/
theorem wp_namexLoop (parent : Bool) (h : Since s₀ [ip] ∅ s) (path name : List UInt8) :
    wp (namexLoop sb parent ip path name) (fun r s' => Since s₀ r.1.toList ∅ s')
      (fun _ _ => True) s := by
  induction hlen : path.length using Nat.strong_induction_on generalizing ip path name s with
  | _ len ih =>
    subst hlen
    rw [namexLoop]
    split
    · rename_i path' name' hskip
      simp only [wp_bind, wp_get]
      refine wp_post (h.wp_ilock ip) fun _ s₁ h₁ => ?_
      have h₁ : Since s₀ [ip] {ip} s₁ := h₁.2
      have hput : wp (iunlockput sb ip) (fun _ s' => Since s₀ [] ∅ s') (fun _ _ => True) s₁ := by
        refine wp_post (h₁.wp_unlockput_locked (mem_singleton_self ip)) fun _ s' h' => ?_
        rwa [erase_cons_head] at h'
      apply wp_ite <;> intro _
      · simp only [wp_bind, wp_pure]
        exact hput
      apply wp_ite <;> intro _
      · simp only [wp_bind, wp_pure]
        refine wp_post (h₁.wp_iunlock ip) fun _ s' h' => ?_
        rwa [Finset.erase_singleton] at h'
      rw [wp_bind]
      refine wp_post (h₁.wp_dirlookup name') fun r s₂ h₂ => ?_
      rcases r with _ | ⟨next, off⟩
      · -- nothing was found, so nothing was got
        have h₂ : Since s₀ [ip] {ip} s₂ := h₂
        simp only [wp_bind, wp_pure]
        refine wp_post (h₂.wp_unlockput_locked (mem_singleton_self ip)) fun _ s' h' => ?_
        rwa [erase_cons_head] at h'
      · have h₂ : Since s₀ [next, ip] {ip} s₂ := h₂
        have h₂ : Since s₀ [ip, next] {ip} s₂ := h₂.perm (List.Perm.swap ip next [])
        simp only [wp_bind]
        refine wp_post (h₂.wp_unlockput_locked List.mem_cons_self) fun _ s₃ h₃ => ?_
        rw [erase_cons_head] at h₃
        exact ih path'.length (length_skipelem hskip) h₃ path' name' rfl
    · cases parent with
      | true =>
        simp only [if_true, wp_bind, wp_pure]
        refine wp_post (h.wp_iput (mem_singleton_self ip)) fun _ s' h' => ?_
        rwa [erase_cons_head] at h'
      | false => exact h

/-- **References and locks after `namex`**: one reference to the inode that it returns. -/
theorem wp_namex (h : Since s₀ [] ∅ s) (cwd : Fin ninode) (path : List UInt8) (parent : Bool)
    (name : List UInt8) : wp (namex sb cwd path parent name) (fun r s' => Since s₀ r.1.toList ∅ s')
      (fun _ _ => True) s := by
  unfold namex namexStart
  rw [wp_bind]
  apply wp_ite <;> intro _
  · exact wp_post (h.wp_iget rootino) fun ip s₁ h₁ => h₁.wp_namexLoop parent path name
  · exact wp_post (h.wp_idup cwd) fun ip s₁ h₁ => (h₁.1 ▸ h₁.2).wp_namexLoop parent path name

end Since

/-! ## The tree -/

section Tree

variable (sb : Superblock) (disk : Nat → Block)

/-- The inode is a directory. -/
def IsDir (i : Nat) : Prop := (diskInode sb disk i).type = typeDir

instance instDecidableIsDir (i : Nat) : Decidable (IsDir sb disk i) :=
  inferInstanceAs (Decidable (_ = _))

/-- The inode with this name in a directory. -/
def child (i : Nat) (x : List UInt8) : Option Nat :=
  ((direntTable (diskContent sb disk i)).lookup x).map Prod.snd

/-- A static tree of directories: directories consist of whole entries, and the inodes in them are
allocated and have links. -/
structure Tree : Prop where
  size : ∀ i, DiskLive sb disk i → IsDir sb disk i → (diskInode sb disk i).size.toNat % 16 = 0
  linked : ∀ i x j, DiskLive sb disk i → IsDir sb disk i → child sb disk i x = some j →
    DiskLive sb disk j ∧ (diskInode sb disk j).nlink ≠ 0
  root : DiskLive sb disk rootino ∧ (diskInode sb disk rootino).nlink ≠ 0

/-- Names are looked up in turn, each in a directory. -/
def resolve : Nat → List (List UInt8) → Option Nat
  | i, [] => some i
  | i, x :: xs => if IsDir sb disk i then (child sb disk i x).bind fun j => resolve j xs else none

end Tree

/-- What `namex` has to find for the names `els` from the inode `i`: the inode of the last name, or
the directory where it would be looked up, and the name. -/
def Outcome (sb : Superblock) (disk : Nat → Block) (parent : Bool) (i : Nat)
    (els : List (List UInt8)) (j : Option Nat) (name : List UInt8) : Prop :=
  if parent then (els = [] → j = none) ∧ ∀ xs x, els = xs ++ [x] →
    j = (resolve sb disk i xs).filter (fun d => IsDir sb disk d) ∧ (j ≠ none → key name = x)
  else j = resolve sb disk i els

namespace Outcome

variable {sb : Superblock} {disk : Nat → Block} {parent : Bool} {i j : Nat} {x : List UInt8}
  {xs : List (List UInt8)} {r : Option Nat} {name : List UInt8}

theorem split_last (hxs : xs ≠ []) {ys : List (List UInt8)} {y : List UInt8}
    (h : x :: xs = ys ++ [y]) : ∃ ys', ys = x :: ys' ∧ xs = ys' ++ [y] := by
  cases ys with
  | nil =>
    rw [List.nil_append, List.cons.injEq] at h
    exact absurd h.2 hxs
  | cons z ys =>
    rw [List.cons_append, List.cons.injEq] at h
    exact ⟨ys, by rw [h.1], h.2⟩

theorem nil (name : List UInt8) :
    Outcome sb disk parent i [] (if parent then none else some i) name := by
  cases parent with
  | false => rfl
  | true =>
    refine ⟨fun _ => rfl, fun xs x h => ?_⟩
    exact absurd h.symm (List.append_ne_nil_of_right_ne_nil xs (cons_ne_nil x []))

theorem notDir (h : ¬IsDir sb disk i) (x : List UInt8) (xs : List (List UInt8))
    (name : List UInt8) : Outcome sb disk parent i (x :: xs) none name := by
  cases parent with
  | false => exact (if_neg h).symm
  | true =>
    refine ⟨fun _ => rfl, fun ys y _ => ⟨?_, fun hne => absurd rfl hne⟩⟩
    cases ys with
    | nil => simp [resolve, Option.filter, h]
    | cons z ys => simp [resolve, h]

theorem early (h : IsDir sb disk i) (hname : key name = x) :
    Outcome sb disk true i [x] (some i) name := by
  refine ⟨fun hnil => absurd hnil (cons_ne_nil x []), fun ys y hlast => ?_⟩
  cases ys with
  | nil =>
    rw [List.nil_append, List.cons.injEq] at hlast
    refine ⟨?_, fun _ => hname.trans hlast.1⟩
    simp [resolve, Option.filter, h]
  | cons z ys =>
    rw [List.cons_append, List.cons.injEq] at hlast
    exact absurd hlast.2.symm (List.append_ne_nil_of_right_ne_nil ys (cons_ne_nil y []))

theorem missing (h : IsDir sb disk i) (hchild : child sb disk i x = none)
    (hxs : parent = true → xs ≠ []) (name : List UInt8) :
    Outcome sb disk parent i (x :: xs) none name := by
  cases parent with
  | false => simp [Outcome, resolve, h, hchild]
  | true =>
    refine ⟨fun _ => rfl, fun ys y hlast => ⟨?_, fun hne => absurd rfl hne⟩⟩
    obtain ⟨ys', rfl, -⟩ := split_last (hxs rfl) hlast
    simp [resolve, h, hchild]

theorem step (h : IsDir sb disk i) (hchild : child sb disk i x = some j)
    (hxs : parent = true → xs ≠ []) (hrest : Outcome sb disk parent j xs r name) :
    Outcome sb disk parent i (x :: xs) r name := by
  cases parent with
  | false =>
    have hrest : r = resolve sb disk j xs := hrest
    simp [Outcome, resolve, h, hchild, hrest]
  | true =>
    refine ⟨fun hnil => absurd hnil (cons_ne_nil x xs), fun ys y hlast => ?_⟩
    obtain ⟨ys', rfl, hxs'⟩ := split_last (hxs rfl) hlast
    obtain ⟨hr, hname⟩ := hrest.2 ys' y hxs'
    refine ⟨?_, hname⟩
    rw [hr, resolve, if_pos h, hchild]
    rfl

end Outcome

/-- The names in a path, as they are in directories. -/
def elements (path : List UInt8) : List (List UInt8) := (components path).map (take dirsiz)

/-- The number of unused entries. -/
def unused (s : Inodes) : Nat := (Finset.univ.filter fun e => (s.entry e).ref = 0).card

/-- Since `s₀` the process has got a reference to `ip`, and the tree has not changed.  The inode
will not be freed when the reference is given back: it has links, or there was a reference
before. -/
structure Holding (sb : Superblock) (s₀ s : Inodes) (ip : Fin ninode) : Prop where
  since : Since s₀ [ip] ∅ s
  coherent : Coherent sb s
  disk : s.disk = s₀.disk
  live : DiskLive sb s.disk (s.entry ip).inum
  kept : (diskInode sb s.disk (s.entry ip).inum).nlink ≠ 0 ∨ 0 < (s₀.entry ip).ref

/-- What `namex` leaves. -/
structure Left (sb : Superblock) (s₀ : Inodes) (r : Option (Fin ninode)) (s : Inodes) : Prop where
  since : Since s₀ r.toList ∅ s
  coherent : Coherent sb s
  disk : s.disk = s₀.disk

namespace Holding

variable {sb : Superblock} {s₀ s : Inodes} {ip : Fin ninode}

theorem used (h : Holding sb s₀ s ip) : 0 < (s.entry ip).ref :=
  h.since.ref_pos (mem_singleton_self ip)

theorem not_lastRef {own : List (Fin ninode)} {locks : Finset (Fin ninode)} {t : Inodes}
    (hs : Since s₀ own locks t) (hc : Coherent sb t) (hip : ip ∈ own)
    (hkept : (diskInode sb t.disk (t.entry ip).inum).nlink ≠ 0 ∨ 0 < (s₀.entry ip).ref) :
    ¬t.LastRef ip := by
  rintro ⟨hone, hvalid, hzero⟩
  rcases hkept with hlinks | hold
  · rw [(hc.current ip (hs.ref_pos hip) hvalid).1] at hzero
    exact hlinks hzero
  · have href := hs.ref ip
    have hcount := List.count_pos_iff.mpr hip
    omega

end Holding

/-- The table is full: at most the entry of the reference was unused at the beginning. -/
theorem Since.unused_le {s₀ s : Inodes} {own : List (Fin ninode)} {locks : Finset (Fin ninode)}
    (hs : Since s₀ own locks s) (hown : own.length ≤ 1) (hfull : ∀ e, 0 < (s.entry e).ref) :
    s₀.unused ≤ 1 := by
  have hsub : (Finset.univ.filter fun e => (s₀.entry e).ref = 0) ⊆ own.toFinset := by
    intro e he
    have h0 := (Finset.mem_filter.mp he).2
    have hpos := hfull e
    rw [hs.ref, h0, Nat.zero_add] at hpos
    exact List.mem_toFinset.mpr (List.count_pos_iff.mp hpos)
  exact (Finset.card_le_card hsub).trans ((List.toFinset_card_le own).trans hown)

/-- The inode is locked, and has been read. -/
structure Locked (sb : Superblock) (s₀ s : Inodes) (ip : Fin ninode) : Prop where
  since : Since s₀ [ip] {ip} s
  coherent : Coherent sb s
  disk : s.disk = s₀.disk
  valid : (s.entry ip).valid = true
  kept : (diskInode sb s.disk (s.entry ip).inum).nlink ≠ 0 ∨ 0 < (s₀.entry ip).ref

/-- **`ilock`** of the inode. -/
theorem Holding.wp_ilock {sb : Superblock} {s₀ s : Inodes} {ip : Fin ninode}
    (h : Holding sb s₀ s ip) : wp (ilock sb ip) (fun _ s' => Locked sb s₀ s' ip ∧
      (s'.entry ip).inum = (s.entry ip).inum) (fun _ _ => False) s := by
  refine wp_mono (Inodes.wp_ilock s ip) ?_ ?_
  · rintro _ _ ⟨rfl, -, -⟩
    have hinum : ((s.lock sb ip).entry ip).inum = (s.entry ip).inum := by
      rw [lock, put_self]
    refine ⟨⟨h.since.lock ip, h.coherent.lock h.used h.live, h.disk, ?_, ?_⟩, hinum⟩
    · rw [lock, put_self]
    · rw [hinum]
      exact h.kept
  · rintro p _ (h0 | hheld | ⟨-, htype⟩)
    · exact absurd h0 (Nat.ne_of_gt h.used)
    · exact absurd ((h.since.held ip).mp hheld) (Finset.notMem_empty ip)
    · exact h.live.2 htype

namespace Locked

variable {sb : Superblock} {s₀ s : Inodes} {ip : Fin ninode}

section

variable (h : Locked sb s₀ s ip)
include h

theorem used : 0 < (s.entry ip).ref :=
  h.since.ref_pos (mem_singleton_self ip)

theorem fields_eq : (s.entry ip).fields = diskInode sb s₀.disk (s.entry ip).inum := by
  rw [← h.disk]
  exact (h.coherent.current ip h.used h.valid).1

theorem live : DiskLive sb s₀.disk (s.entry ip).inum := by
  rw [← h.disk]
  exact (h.coherent.current ip h.used h.valid).2

omit h in
theorem wp_put {own : List (Fin ninode)} (hs : Since s₀ own {ip} s) (hc : Coherent sb s)
    (hip : ip ∈ own)
    (hkept : (diskInode sb s.disk (s.entry ip).inum).nlink ≠ 0 ∨ 0 < (s₀.entry ip).ref) :
    wp (iunlockput sb ip) (fun _ s' => Since s₀ (own.erase ip) ∅ s' ∧ Coherent sb s' ∧
      s'.disk = s.disk ∧ ∀ e, (s'.entry e).inum = (s.entry e).inum) (fun _ _ => False) s := by
  have hpos := hs.ref_pos hip
  have hs' : Since s₀ own ∅ (s.unlock ip) := by
    have := hs.unlock ip
    rwa [Finset.erase_singleton] at this
  have hc' := hc.unlock hpos
  have hinum : ∀ e, (((s.unlock ip).drop ip).entry e).inum = (s.entry e).inum := by
    intro e
    by_cases he : e = ip
    · rw [he, drop, put_self, unlock, put_self]
    · rw [drop, put_of_ne _ _ he, unlock, put_of_ne _ _ he]
  have hself : ((s.unlock ip).entry ip).inum = (s.entry ip).inum := by
    rw [unlock, put_self]
  have hlast := Holding.not_lastRef hs' hc' hip (hself.symm ▸ hkept)
  have hheld := (hs.held ip).mpr (Finset.mem_singleton_self ip)
  rw [wp_iunlockput_kept hheld hpos hlast]
  exact ⟨hs'.drop hip, hc'.drop (hs'.ref_pos hip), rfl, hinum⟩

theorem wp_iunlockput :
    wp (iunlockput sb ip) (fun _ s' => Left sb s₀ none s') (fun _ _ => False) s := by
  refine wp_post (wp_put h.since h.coherent (mem_singleton_self ip) h.kept) ?_
  rintro _ s' ⟨hs', hc', hd', -⟩
  rw [erase_cons_head] at hs'
  exact ⟨hs', hc', hd'.trans h.disk⟩

theorem wp_iunlock : wp (iunlock ip) (fun _ s' => Left sb s₀ (some ip) s' ∧
      (s'.entry ip).inum = (s.entry ip).inum) (fun _ _ => False) s := by
  refine wp_mono (Inodes.wp_iunlock s ip) ?_ ?_
  · rintro _ _ rfl
    have hs' := h.since.unlock ip
    rw [Finset.erase_singleton] at hs'
    refine ⟨⟨hs', h.coherent.unlock h.used, h.disk⟩, ?_⟩
    rw [unlock, put_self]
  · rintro p _ (hheld | h0)
    · have := (h.since.held ip).mpr (Finset.mem_singleton_self ip)
      rw [hheld] at this
      cases this
    · exact absurd h0 (Nat.ne_of_gt h.used)

end

/-- **One level down**: the name is looked up, and the reference is exchanged. -/
theorem wp_dirlookup (htree : Tree sb s₀.disk) (h : Locked sb s₀ s ip)
    (hdir : IsDir sb s₀.disk (s.entry ip).inum) (name : List UInt8) :
    wp (dirlookup sb ip name) (fun r s' =>
      match child sb s₀.disk (s.entry ip).inum (key name) with
      | none => r = none ∧ s' = s
      | some j => ∃ next off, r = some (next, off) ∧
          wp (iunlockput sb ip) (fun _ s'' => Holding sb s₀ s'' next ∧ (s''.entry next).inum = j)
            (fun _ _ => False) s')
      (fun p _ => p = .igetNoInodes ∧ s₀.unused ≤ 1) s := by
  have hd : Dir sb s ip := by
    refine ⟨h.coherent, h.used, h.valid, ?_, ?_⟩
    · rw [h.fields_eq]
      exact hdir
    · rw [h.fields_eq]
      exact htree.size _ h.live hdir
  -- the names are those on the disk
  have hnames : s.names ip = direntTable (diskContent sb s₀.disk (s.entry ip).inum) := by
    rw [names, content, hd.focus_eq, h.disk]
    rfl
  refine wp_mono (hd.wp_dirlookup name) ?_ ?_
  · intro r s' hr
    rw [answer, hnames] at hr
    unfold child
    rcases hfound : (direntTable (diskContent sb s₀.disk (s.entry ip).inum)).lookup (key name)
      with _ | ⟨k, j⟩
    · rw [hfound] at hr
      exact hr
    · rw [hfound] at hr
      obtain ⟨next, rfl, hg, rfl⟩ := hr
      refine ⟨next, 16 * k, rfl, ?_⟩
      have hsince : Since s₀ [ip, next] {ip} (s.gain next j) :=
        (h.since.gain next j).perm (List.Perm.swap ip next [])
      have hcoh := h.coherent.gain hg
      have hsame : ((s.gain next j).entry ip).inum = (s.entry ip).inum := by
        have := congrArg FsState.inum (hd.gain hg).2
        exact this
      have hkept : (diskInode sb (s.gain next j).disk ((s.gain next j).entry ip).inum).nlink ≠ 0 ∨
          0 < (s₀.entry ip).ref := hsame.symm ▸ h.kept
      refine wp_post (wp_put hsince hcoh List.mem_cons_self hkept) ?_
      rintro _ s'' ⟨hs'', hc'', hd'', hinum⟩
      rw [erase_cons_head] at hs''
      have hj : (s''.entry next).inum = j := (hinum next).trans hg.inum_gain
      have hdisk : s''.disk = s₀.disk := hd''.trans h.disk
      have hchild : child sb s₀.disk (s.entry ip).inum (key name) = some j := by
        rw [child, hfound]
        rfl
      obtain ⟨hlive, hlinks⟩ := htree.linked _ _ j h.live hdir hchild
      refine ⟨⟨hs'', hc'', hdisk, ?_, .inl ?_⟩, hj⟩
      · rw [hdisk, hj]
        exact hlive
      · rw [hdisk, hj]
        exact hlinks
  · rintro p _ ⟨hp, -, hfull⟩
    exact ⟨hp, h.since.unused_le le_rfl hfull⟩

end Locked

/-- **The loop of `namex`** finds what is at the end of the path. -/
theorem Holding.wp_namexLoop {sb : Superblock} {s₀ s : Inodes} {ip : Fin ninode}
    (htree : Tree sb s₀.disk) (parent : Bool) (h : Holding sb s₀ s ip) {path : List UInt8}
    (hpath : 0 ∉ path) (name : List UInt8) :
    wp (namexLoop sb parent ip path name) (fun r s' => Left sb s₀ r.1 s' ∧
      Outcome sb s₀.disk parent (s.entry ip).inum (elements path)
        (r.1.map fun e => (s'.entry e).inum) r.2)
      (fun p _ => p = .igetNoInodes ∧ s₀.unused ≤ 1) s := by
  induction hlen : path.length using Nat.strong_induction_on generalizing ip path name s with
  | _ len ih =>
    subst hlen
    rw [namexLoop]
    rcases skipelem_cases hpath name with
      ⟨hnone, hcomp⟩ | ⟨e, path', name', hsome, hcomp, hkey, hpath', hend, hlt⟩
    · -- the end of the path
      rw [elements, hcomp]
      split
      · rename_i heq
        rw [hnone] at heq
        cases heq
      cases parent with
      | false => exact ⟨⟨h.since, h.coherent, h.disk⟩, Outcome.nil name⟩
      | true =>
        have hlast := not_lastRef h.since h.coherent (mem_singleton_self ip) h.kept
        simp only [if_true, wp_bind, wp_pure]
        rw [wp_iput_kept hlast]
        have hdrop := h.since.drop (mem_singleton_self ip)
        rw [erase_cons_head] at hdrop
        exact ⟨⟨hdrop, h.coherent.drop h.used, h.disk⟩, Outcome.nil name⟩
    · have helems : elements path = key name' :: elements path' := by
        rw [elements, hcomp, List.map_cons, hkey]
        rfl
      have hlast : char path' 0 = 0 ↔ elements path' = [] := by
        rw [elements, List.map_eq_nil_iff, hend]
        cases path' with
        | nil => simp
        | cons c path' =>
          have hc : c ≠ 0 := fun h0 => hpath' (h0 ▸ List.mem_cons_self)
          simp [hc]
      rw [helems]
      split
      swap
      · rename_i heq
        rw [hsome] at heq
        cases heq
      rename_i path₁ name₁ heq
      rw [hsome] at heq
      obtain ⟨rfl, rfl⟩ := Prod.mk.inj (Option.some.inj heq)
      simp only [wp_bind, wp_get]
      refine wp_mono h.wp_ilock ?_ fun _ _ he => he.elim
      rintro _ s₁ ⟨hlocked, hinum⟩
      rw [← hinum]
      have htype : (s₁.entry ip).fields.type = typeDir ↔ IsDir sb s₀.disk (s₁.entry ip).inum := by
        rw [hlocked.fields_eq]
        rfl
      apply wp_ite <;> intro hdir
      · simp only [wp_bind, wp_pure]
        refine wp_mono hlocked.wp_iunlockput ?_ fun _ _ he => he.elim
        intro _ s' hleft
        exact ⟨hleft, Outcome.notDir (mt htype.mpr hdir) _ _ _⟩
      have hdir := htype.mp (not_not.mp hdir)
      apply wp_ite <;> intro hstop
      · simp only [wp_bind, wp_pure]
        refine wp_mono hlocked.wp_iunlock ?_ fun _ _ he => he.elim
        rintro _ s' ⟨hleft, hinum'⟩
        refine ⟨hleft, ?_⟩
        rw [hlast.mp hstop.2, hstop.1, Option.map_some, hinum']
        exact Outcome.early hdir rfl
      have hmore : parent = true → elements path' ≠ [] := fun hp hnil =>
        hstop ⟨hp, hlast.mpr hnil⟩
      rw [wp_bind]
      refine wp_post (hlocked.wp_dirlookup htree hdir name') ?_
      intro r s₂ hr
      rcases hchild : child sb s₀.disk (s₁.entry ip).inum (key name') with _ | j
      · rw [hchild] at hr
        obtain ⟨rfl, rfl⟩ := hr
        simp only [wp_bind, wp_pure]
        refine wp_mono hlocked.wp_iunlockput ?_ fun _ _ he => he.elim
        intro _ s' hleft
        exact ⟨hleft, Outcome.missing hdir hchild hmore _⟩
      · rw [hchild] at hr
        obtain ⟨next, off, rfl, hput⟩ := hr
        simp only [wp_bind]
        refine wp_mono hput ?_ fun _ _ he => he.elim
        rintro _ s₃ ⟨hnext, hj⟩
        refine wp_post (ih path'.length hlt hnext hpath' name' rfl) ?_
        rintro r s' ⟨hleft, hout⟩
        rw [hj] at hout
        exact ⟨hleft, Outcome.step hdir hchild hmore hout⟩

/-! ## The functions -/

section Main

variable {sb : Superblock} {s : Inodes} {cwd : Fin ninode} {path : List UInt8}

/-- The inode where a path starts. -/
def start (s : Inodes) (cwd : Fin ninode) (path : List UInt8) : Nat :=
  if char path 0 = '/'.toUInt8 then rootino else (s.entry cwd).inum

/-- **`namex`** finds what is at the end of the path. -/
theorem wp_namex (htree : Tree sb s.disk) (hcoh : Coherent sb s)
    (hheld : ∀ e, (s.entry e).held = false) (hcwd : 0 < (s.entry cwd).ref)
    (hlive : DiskLive sb s.disk (s.entry cwd).inum) (hpath : 0 ∉ path) (parent : Bool)
    (name : List UInt8) : wp (namex sb cwd path parent name) (fun r s' => Left sb s r.1 s' ∧
      Outcome sb s.disk parent (start s cwd path) (elements path)
        (r.1.map fun e => (s'.entry e).inum) r.2)
      (fun p _ => p = .igetNoInodes ∧ s.unused ≤ 1) s := by
  have hsince := Since.refl hheld
  unfold namex namexStart start
  rw [wp_bind]
  by_cases hslash : char path 0 = '/'.toUInt8
  · rw [if_pos hslash, if_pos hslash]
    refine wp_mono (wp_iget s rootino) ?_ ?_
    · rintro ip s₁ ⟨hg, rfl⟩
      have hinum := hg.inum_gain
      have h : Holding sb s (s.gain ip rootino) ip := by
        refine ⟨hsince.gain ip rootino, hcoh.gain hg, rfl, ?_, .inl ?_⟩
        · rw [hinum]
          exact htree.root.1
        · rw [hinum]
          exact htree.root.2
      have hloop := h.wp_namexLoop htree parent hpath name
      rwa [hinum] at hloop
    · rintro p _ ⟨hp, hfull⟩
      exact ⟨hp, hsince.unused_le (Nat.zero_le 1) hfull⟩
  · rw [if_neg hslash, if_neg hslash, wp_idup hcwd]
    have hg : s.Gets (s.entry cwd).inum cwd := ⟨fun _ => rfl, fun h0 => absurd hcwd (by omega)⟩
    have hinum := hg.inum_gain
    have h : Holding sb s (s.gain cwd (s.entry cwd).inum) cwd := by
      refine ⟨hsince.gain cwd _, hcoh.gain hg, rfl, ?_, .inr hcwd⟩
      rw [hinum]
      exact hlive
    have hloop := h.wp_namexLoop htree parent hpath name
    rwa [hinum] at hloop

/-- **Path resolution.**  `skipelem` yields the components of the path, cut to 14 bytes.  `namei`
returns what is found by looking them up in turn, and `nameiparent` the directory before the last
one, and that one.  There is one more reference to the inode that is returned, no other reference
has changed, and no inode is locked.  The only panic is that of a full table. -/
theorem path_resolution (htree : Tree sb s.disk) (hcoh : Coherent sb s)
    (hheld : ∀ e, (s.entry e).held = false) (hcwd : 0 < (s.entry cwd).ref)
    (hlive : DiskLive sb s.disk (s.entry cwd).inum) (hpath : 0 ∉ path) (name : List UInt8) :
    elems path name = (components path).map (take dirsiz) ∧
    wp (namei sb cwd path name) (fun r s' =>
      r.map (fun e => (s'.entry e).inum) = resolve sb s.disk (start s cwd path) (elements path) ∧
      Since s r.toList ∅ s' ∧ s'.disk = s.disk) (fun p _ => p = .igetNoInodes ∧ s.unused ≤ 1) s ∧
    wp (nameiparent sb cwd path name) (fun r s' => (elements path = [] → r.1 = none) ∧
      (∀ xs x, elements path = xs ++ [x] → r.1.map (fun e => (s'.entry e).inum) =
          (resolve sb s.disk (start s cwd path) xs).filter (fun i => IsDir sb s.disk i) ∧
        (r.1 ≠ none → key r.2 = x)) ∧ Since s r.1.toList ∅ s' ∧ s'.disk = s.disk)
      (fun p _ => p = .igetNoInodes ∧ s.unused ≤ 1) s := by
  refine ⟨elems_eq hpath name, ?_, ?_⟩
  · unfold namei
    rw [wp_map]
    refine wp_post (wp_namex htree hcoh hheld hcwd hlive hpath false name) ?_
    rintro r s' ⟨hleft, hout⟩
    exact ⟨hout, hleft.since, hleft.disk⟩
  · refine wp_post (wp_namex htree hcoh hheld hcwd hlive hpath true name) ?_
    rintro r s' ⟨hleft, hnil, hlast⟩
    refine ⟨fun h => Option.map_eq_none_iff.mp (hnil h), fun xs x hxs => ?_, hleft.since,
      hleft.disk⟩
    obtain ⟨hr, hname⟩ := hlast xs x hxs
    exact ⟨hr, fun hne => hname (mt Option.map_eq_none_iff.mp hne)⟩

end Main

/-- The small tree, with its root as the current directory. -/
def rootState : Inodes := dirState.unlock 0

theorem rootState_tree : Tree smallSb rootState.disk := by
  refine ⟨fun i hi hdir => ?_, fun i x j hi hdir hchild => ?_, by decide +kernel⟩
  · exact forall_live_small (P := fun i => (diskInode smallSb treeDisk i).size.toNat % 16 = 0)
      (by decide +kernel) i hi
  · -- every entry of the two directories names an inode with a link
    have hentry : ∀ i : Fin 16, (diskInode smallSb treeDisk i).type = typeDir → ∀ k, k < 3 →
        DiskLive smallSb treeDisk (direntAt (diskContent smallSb treeDisk i) k).inum.toNat ∧
          (diskInode smallSb treeDisk
            (direntAt (diskContent smallSb treeDisk i) k).inum.toNat).nlink
            ≠ 0 := by
      decide +kernel
    have hthree : (diskContent smallSb treeDisk i).length / 16 ≤ 3 :=
      forall_live_small (P := fun i => (diskContent smallSb treeDisk i).length / 16 ≤ 3)
        (by decide +kernel) i hi
    obtain ⟨⟨k, j'⟩, hfound, rfl⟩ := Option.map_eq_some_iff.mp hchild
    obtain ⟨hk, hslot⟩ := Table.lookup_sound hfound
    have hk : k < (diskContent smallSb treeDisk i).length / 16 := hk
    have hslot : (direntAt (diskContent smallSb treeDisk i) k).slot = some (x, j') := hslot
    rw [Dirent.slot] at hslot
    split at hslot
    · cases hslot
    · obtain rfl := (Prod.mk.inj (Option.some.inj hslot)).2
      exact hentry ⟨i, hi.1⟩ hdir k (by omega)

theorem rootState_held (e : Fin ninode) : (rootState.entry e).held = false := by
  by_cases he : e = 0
  · rw [he, rootState, unlock, put_self]
  · rw [rootState, unlock, put_of_ne _ _ he]
    exact congrArg TableInode.held (if_neg he)

/-- The path `/d//f` leads to the file, and there is no `/d/g`. -/
theorem path_resolution_tree :
    wp (namei smallSb 0 [47, 100, 47, 47, 102] []) (fun r s' =>
      r.map (fun e => (s'.entry e).inum) = some 3 ∧ Since rootState r.toList ∅ s')
      (fun _ _ => False) rootState ∧
    wp (namei smallSb 0 [47, 100, 47, 103] []) (fun r s' => r = none ∧ Since rootState [] ∅ s')
      (fun _ _ => False) rootState := by
  have hcoh : Coherent smallSb rootState := dirState_dir.coherent.unlock dirState_dir.used
  have hroom : rootState.unused = 49 := by decide
  have hcwd : 0 < (rootState.entry 0).ref := Nat.one_pos
  have hfull : ∀ p : InodePanic, ¬(p = .igetNoInodes ∧ rootState.unused ≤ 1) := by
    rintro p ⟨-, hle⟩
    rw [hroom] at hle
    exact absurd hle (by decide)
  have hresolve : resolve smallSb treeDisk 1 (elements [47, 100, 47, 47, 102]) = some 3 ∧
      resolve smallSb treeDisk 1 (elements [47, 100, 47, 103]) = none := by
    decide +kernel
  have hfound := (path_resolution rootState_tree hcoh rootState_held hcwd rootState_tree.root.1
    (by decide : (0 : UInt8) ∉ [47, 100, 47, 47, 102]) []).2.1
  have hmissing := (path_resolution rootState_tree hcoh rootState_held hcwd rootState_tree.root.1
    (by decide : (0 : UInt8) ∉ [47, 100, 47, 103]) []).2.1
  constructor
  · refine wp_mono hfound ?_ fun p _ he => hfull p he
    rintro r s' ⟨hr, hsince, -⟩
    exact ⟨hr.trans hresolve.1, hsince⟩
  · refine wp_mono hmissing ?_ fun p _ he => hfull p he
    rintro r s' ⟨hr, hsince, -⟩
    obtain rfl := Option.map_eq_none_iff.mp (hr.trans hresolve.2)
    exact ⟨rfl, hsince⟩

end Xv6Paging.Inodes
