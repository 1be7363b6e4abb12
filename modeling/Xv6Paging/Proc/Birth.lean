import Xv6Paging.Proc.Life

/-!
# A new process

What `proc_pagetable` and `allocproc` build, and what they leave behind when the free list runs
out.
-/

namespace Xv6Paging

open StateHalt Kernel PageTable

/-- The first page `f` of the free list becomes the root of an empty table. -/
def Kernel.newTable (s : Kernel) (f : Nat) (fs : List Nat) : Kernel :=
  ((s.takePage f fs).setPage f fun _ => 0).setTable f .empty

/-- The virtual page of the trampoline. -/
abbrev trampolinePage : Nat := trampolineVa / pgsize

/-- The virtual page of the trapframe. -/
abbrev trapframePage : Nat := trapframeVa / pgsize

/-- The entry of the trampoline. -/
def trampolinePte (B : Build) : Pte := pa2pte B.trampoline ||| (pteR ||| pteX) ||| pteV

/-- The entry of the trapframe in the page `tf`. -/
def trapframePte (tf : Nat) : Pte := pa2pte tf ||| (pteR ||| pteW) ||| pteV

/-- The table `r` was made from the free list: a root, two page-table pages, and the two entries on
top of the address space. -/
structure MadeTable (B : Build) (tf r : Nat) (s s' : Kernel) : Prop where
  ne_zero : r ≠ 0
  made : ∃ fs t, s.freelist = r :: fs ∧ Grows r trampolinePage 2 (s.newTable r fs) t ∧
    (t.ptables r).present trampolinePage ∧
    s' = (t.setPte r trampolinePage (trampolinePte B)).setPte r trapframePage (trapframePte tf)

/-- The table `r` was begun when the free list ran out: its root and at most one more page. -/
def BegunTable (r : Nat) (s t : Kernel) : Prop :=
  ∃ fs n, n < 2 ∧ s.freelist = r :: fs ∧ Grows r trampolinePage n (s.newTable r fs) t ∧
    t.freelist = []

section Table

variable {B : Build} {E : Halt → Kernel → Prop} {s : Kernel} {tf : Nat}

theorem wp_uvmcreate {Q : Nat → Kernel → Prop} (hz : 0 ∉ s.freelist)
    (hnil : s.freelist = [] → Q 0 s)
    (hcons : ∀ f fs, f ≠ 0 → s.freelist = f :: fs → Q f (s.newTable f fs)) :
    wp uvmcreate Q E s := by
  simp only [uvmcreate, wp_bind]
  cases hfree : s.freelist with
  | nil =>
    rw [wp_kalloc_nil hfree, if_pos rfl]
    exact hnil hfree
  | cons f fs =>
    have hf0 : f ≠ 0 := fun h => hz (by simp [hfree, h])
    rw [wp_kalloc_cons hfree, if_neg hf0]
    exact hcons f fs hf0 hfree

theorem trapframePage_ne : trapframePage ≠ trampolinePage := by decide

theorem present_trapframePage {pt : PageTable} (h : pt.present trampolinePage) :
    pt.present trapframePage := h

/-- **The rule for `proc_pagetable`.** -/
theorem wp_procPagetable {Q : Nat → Kernel → Prop} (hz : 0 ∉ s.freelist)
    (hnil : s.freelist = [] → Q 0 s)
    (hfail : ∀ r t, BegunTable r s t → wp (freewalk B r) (fun _ s' => Q 0 s') E t)
    (hok : ∀ r t, MadeTable B tf r s t → Q r t) : wp (procPagetable B tf) Q E s := by
  simp only [procPagetable, wp_bind]
  refine wp_uvmcreate hz (fun h => ?_) fun r fs hr hfree => ?_
  · rw [if_pos rfl]
    exact hnil h
  rw [if_neg hr, wp_bind]
  have hz' : 0 ∉ (s.newTable r fs).freelist := fun h =>
    hz (by rw [hfree]; exact List.mem_cons_of_mem _ h)
  have hempty : (s.newTable r fs).ptables r = .empty := setTable_self _ _ _
  have hmiss : ((s.newTable r fs).ptables r).missing trampolinePage = 2 := by
    rw [hempty]
    rfl
  have hfirst := @mappages_page_spec (s.newTable r fs) r B trampolinePage B.trampoline
    (pteR ||| pteX) hz'
  rw [show trampolinePage * pgsize = trampolineVa by decide] at hfirst
  refine wp_mono hfirst ?_ ?_
  swap
  · -- an empty table has nothing that could be remapped
    rintro e t ⟨-, h | h⟩
    · exact absurd h (by decide)
    · rw [hempty, Build.remaps_of_zero (pte_empty _)] at h
      exact absurd h (by simp)
  rintro ret t ⟨-, -, hmap⟩
  rcases hmap with ⟨rfl, hnone, n, hn, hg⟩ | ⟨rfl, u, hg, hp, rfl⟩
  · rw [hmiss] at hn
    rw [if_pos (by decide), wp_bind, uvmfree, wp_bind, onlyIf_false (by decide)]
    exact hfail r t ⟨fs, n, hn, hfree, hg, hnone⟩
  rw [hmiss] at hg
  have hz'' : 0 ∉ (u.setPte r trampolinePage (trampolinePte B)).freelist := hg.zero_notMem hz'
  have hp' : ((u.setPte r trampolinePage (trampolinePte B)).ptables r).present trapframePage := by
    rw [setPte_self, present_setLeaf]
    exact present_trapframePage hp
  have hpte : ((u.setPte r trampolinePage (trampolinePte B)).ptables r).pte trapframePage =
      0#64 := by
    rw [setPte_self, pte_setLeaf _ hp, if_neg trapframePage_ne, hg.pte_eq, hempty,
      pte_empty]
  have hmiss' := missing_of_present hp'
  have hsecond := @mappages_page_spec (u.setPte r trampolinePage (trampolinePte B)) r B
    trapframePage tf (pteR ||| pteW) hz''
  rw [show trapframePage * pgsize = trapframeVa by decide] at hsecond
  rw [if_neg (by decide), wp_bind]
  refine wp_mono hsecond ?_ ?_
  swap
  · rintro e w ⟨-, h | h⟩
    · exact absurd h (by decide)
    · rw [Build.remaps_of_zero hpte] at h
      exact absurd h (by simp)
  -- the level-0 page is there, so the second mapping needs no page
  rintro ret w ⟨-, -, hmap⟩
  rcases hmap with ⟨-, -, n, hn, -⟩ | ⟨rfl, x, hg', -, rfl⟩
  · rw [hmiss'] at hn
    omega
  · rw [hmiss'] at hg'
    obtain rfl := hg'.eq_of_zero
    rw [if_neg (by decide)]
    exact hok r _ ⟨hr, fs, u, hfree, hg, hp, rfl⟩

end Table

namespace MadeTable

variable {B : Build} {tf r : Nat} {s s' : Kernel}

variable (h : MadeTable B tf r s s')
include h

theorem frame : s' = { s with freelist := s'.freelist, mem := s'.mem, ptables := s'.ptables } := by
  obtain ⟨fs, t, hfree, hg, hp, rfl⟩ := h.made
  have ht := hg.frame
  rw [ht]
  rfl

theorem table_of_ne {r' : Nat} (hr : r' ≠ r) : s'.ptables r' = s.ptables r' := by
  obtain ⟨fs, t, hfree, hg, hp, rfl⟩ := h.made
  rw [setPte_of_ne _ _ _ hr, setPte_of_ne _ _ _ hr, hg.table_of_ne hr,
    newTable, setTable_of_ne _ _ hr]
  rfl

/-- **The entries of a new table.** -/
theorem pte (v : Nat) : (s'.ptables r).pte v = if v = trapframePage then trapframePte tf
    else if v = trampolinePage then trampolinePte B else 0#64 := by
  obtain ⟨fs, t, hfree, hg, hp, rfl⟩ := h.made
  have hp' : ((t.setPte r trampolinePage (trampolinePte B)).ptables r).present trapframePage := by
    rw [setPte_self, present_setLeaf]
    exact present_trapframePage hp
  rw [setPte_self, pte_setLeaf _ hp', setPte_self,
    pte_setLeaf _ hp, hg.pte_eq, newTable, setTable_self,
    pte_empty]

theorem pte_low {v : Nat} (hv : v < 2 ^ 20) : (s'.ptables r).pte v = 0#64 := by
  have h1 : v ≠ trapframePage := Nat.ne_of_lt (lt_of_lt_of_le hv (by decide))
  have h2 : v ≠ trampolinePage := Nat.ne_of_lt (lt_of_lt_of_le hv (by decide))
  rw [h.pte, if_neg h1, if_neg h2]

theorem length_eq : s.freelist.length = 3 + s'.freelist.length := by
  obtain ⟨fs, t, hfree, hg, hp, rfl⟩ := h.made
  have hlen := hg.length_eq
  rw [show (s.newTable r fs).freelist = fs from rfl] at hlen
  rw [hfree, List.length_cons, hlen, setPte_freelist, setPte_freelist]
  omega

theorem taken : ∃ fresh, s.freelist = fresh ++ s'.freelist ∧
    r ∈ fresh ∧ ∀ pa, pa ∉ fresh → s'.mem pa = s.mem pa := by
  obtain ⟨fs, t, hfree, hg, hp, rfl⟩ := h.made
  obtain ⟨fresh, hfs, -, hmem⟩ := hg.taken
  refine ⟨r :: fresh, ?_, List.mem_cons_self, fun pa hpa => ?_⟩
  · rw [hfree, show fs = fresh ++ t.freelist from hfs]
    rfl
  · rw [List.mem_cons, not_or] at hpa
    refine (hmem pa hpa.2).trans ?_
    simp [newTable, takePage, hpa.1]

theorem missing_low : (s'.ptables r).missing 0 = 2 := by
  obtain ⟨fs, t, hfree, hg, hp, rfl⟩ := h.made
  have hdir : (t.ptables r).dir 2 0 = none := by
    rw [hg.dir_two (by decide), newTable, setTable_self]
    rfl
  unfold missing
  rw [setPte_self, dir_setLeaf, setPte_self, dir_setLeaf,
    if_pos hdir]

end MadeTable

/-! ## Processes -/

/-- The slot of the process table that `allocproc` takes. -/
def Kernel.unusedSlot (s : Kernel) : Option (Fin nproc) :=
  (List.finRange nproc).find? fun p => (s.proc p).state = .unused

/-- The slot `np` was given a pid and, in a paging kernel, a swap file. -/
structure Named (B : Build) (np : Fin nproc) (s t : Kernel) : Prop where
  slot : s.unusedSlot = some np
  proc : t.proc = Function.update s.proc np
    { s.proc np with pid := s.nextpid, state := .used, swapFile := (t.proc np).swapFile }
  files : (t.ftable = s.ftable ∧ t.inode = s.inode ∧ t.rootdir = s.rootdir ∧
      (t.proc np).swapFile = (s.proc np).swapFile ∧
      ((∃ pol, B.selection = .paging pol) → s.nextpid ≤ 2)) ∨
    ∃ f ino u, OpenedSwapFile np f ino u t ∧ u.ftable = s.ftable ∧ u.inode = s.inode ∧
      u.rootdir = s.rootdir ∧ (u.proc np).pid = s.nextpid ∧ 2 < s.nextpid
  rest : t = { s with
    nextpid := s.nextpid + 1, proc := t.proc, ftable := t.ftable, inode := t.inode
    rootdir := t.rootdir }

/-- The swap file of the next process can be opened. -/
def CanName (B : Build) (s : Kernel) : Prop :=
  match B.selection with
  | .none => True
  | .paging _ => 2 < s.nextpid → CanCreate (swapName s.nextpid) s

section Alloc

variable {B : Build} {E : Halt → Kernel → Prop} {s : Kernel} {np : Fin nproc}

theorem unusedSlot_state (h : s.unusedSlot = some np) : (s.proc np).state = .unused := by
  have := List.find?_some h
  simpa using this

theorem named_spec (h : s.unusedSlot = some np) :
    wp (do
      let pid ← allocpid
      modifyProc np fun pr => { pr with pid := pid, state := .used }
      allocSwapFile B np pid) (fun _ t => Named B np s t)
      (fun e _ => e ≠ .exited ∧ ¬CanName B s) s := by
  simp only [allocpid, wp_bind, wp_get, wp_modify, wp_pure, wp_modifyProc]
  unfold allocSwapFile
  cases hB : B.selection with
  | none =>
    refine ⟨h, ?_, .inl ⟨rfl, rfl, rfl, ?_, ?_⟩, rfl⟩
    · simp [setProc]
    · simp [setProc]
    · rintro ⟨pol, hpol⟩
      simp [hB] at hpol
  | paging pol =>
    refine wp_onlyIf (fun hpid => ?_) fun hpid => ?_
    · rw [wp_bind]
      refine wp_mono createSwapFile_spec ?_ ?_
      · rintro r t ⟨-, f, ino, ht⟩
        have hproc := ht.proc
        refine ⟨h, ?_, .inr ⟨f, ino, _, ht, rfl, rfl, rfl, ?_, hpid⟩, ?_⟩
        · rw [hproc]
          simp [setProc]
        · simp [setProc]
        · rw [ht.rest]
          rfl
      · rintro e t ⟨he, hn⟩
        refine ⟨he, fun hcan => hn ?_⟩
        simp only [CanName, hB] at hcan
        have hname : ({ s with nextpid := s.nextpid + 1 }.setProc np
            { s.proc np with pid := s.nextpid, state := .used } : Kernel).proc np =
            { s.proc np with pid := s.nextpid, state := .used } := setProc_self _ _ _
        have hc := hcan hpid
        rw [hname]
        exact ⟨hc.file, hc.inode, hc.slot⟩
    · refine ⟨h, ?_, .inl ⟨rfl, rfl, rfl, ?_, fun _ => by omega⟩, rfl⟩
      · simp [setProc]
      · simp [setProc]

/-- The process has the trapframe page `tf`, filled with junk. -/
def Kernel.giveTrapframe (s : Kernel) (np : Fin nproc) (tf : Nat) : Kernel :=
  s.setProc np { s.proc np with trapframe := tf, frame := fun _ => 0x0505050505050505#64 }

/-- The process has the page table `pt`. -/
def Kernel.giveTable (s : Kernel) (np : Fin nproc) (pt : Nat) : Kernel :=
  s.setProc np { s.proc np with pagetable := pt }

/-- `allocproc` has made the process `np`, with the trapframe page `tf` and the table `r`. -/
structure Newborn (B : Build) (np : Fin nproc) (tf r : Nat) (s a : Kernel) : Prop where
  made : ∃ t fs u, Named B np s t ∧ t.freelist = tf :: fs ∧ tf ≠ 0 ∧
    MadeTable B tf r ((t.takePage tf fs).giveTrapframe np tf) u ∧ a = u.giveTable np r

/-- **The rule for `allocproc`.** -/
theorem wp_allocproc {Q : Option (Fin nproc) → Kernel → Prop} (hz : 0 ∉ s.freelist)
    (hE : ∀ e u, e ≠ .exited → ¬CanName B s → E e u) (hnone : s.unusedSlot = none → Q none s)
    (hframe : ∀ np t, Named B np s t → t.freelist = [] →
      wp (freeproc B np) (fun _ s' => Q none s') E (t.giveTrapframe np 0))
    (hroot : ∀ np t tf fs, Named B np s t → t.freelist = tf :: fs → tf ≠ 0 → fs = [] →
      wp (freeproc B np) (fun _ s' => Q none s') E
        (((t.takePage tf fs).giveTrapframe np tf).giveTable np 0))
    (htable : ∀ np t tf fs r u, Named B np s t → t.freelist = tf :: fs → tf ≠ 0 →
      BegunTable r ((t.takePage tf fs).giveTrapframe np tf) u →
      wp (freewalk B r) (fun _ w => wp (freeproc B np) (fun _ s' => Q none s') E
        (w.giveTable np 0)) E u) (hok : ∀ np tf r a, Newborn B np tf r s a → Q (some np) a) :
    wp (allocproc B) Q E s := by
  simp only [allocproc, wp_bind, wp_get]
  cases hslot : s.unusedSlot with
  | none =>
    simp only [unusedSlot] at hslot
    rw [hslot]
    exact hnone hslot
  | some np =>
    have hnamed := @named_spec B s np hslot
    simp only [wp_bind] at hnamed
    simp only [unusedSlot] at hslot
    rw [hslot]
    simp only [wp_bind]
    refine wp_mono hnamed (fun pid t ht => ?_) fun e u h => hE e u h.1 h.2
    refine wp_mono ht (fun _ u hu => ?_) fun e u h => hE e u h.1 h.2
    refine wp_mono hu (fun _ w hw => ?_) fun e u h => hE e u h.1 h.2
    have hwf : w.freelist = s.freelist := by rw [hw.rest]
    cases hfree : w.freelist with
    | nil =>
      rw [wp_kalloc_nil hfree, wp_modifyProc, if_pos rfl, wp_bind]
      exact hframe np w hw hfree
    | cons tf fs =>
      have htf : tf ≠ 0 := fun h => hz (by rw [← hwf, hfree, h]; exact List.mem_cons_self)
      have hz' : 0 ∉ ((w.takePage tf fs).giveTrapframe np tf).freelist := fun h =>
        hz (by rw [← hwf, hfree]; exact List.mem_cons_of_mem _ h)
      rw [wp_kalloc_cons hfree, wp_modifyProc, if_neg htf, wp_bind]
      refine wp_procPagetable (s := (w.takePage tf fs).giveTrapframe np tf) hz' ?_ ?_ ?_
      · intro hnil
        rw [wp_bind, wp_modifyProc, if_pos rfl, wp_bind]
        exact hroot np w tf fs hw hfree htf hnil
      · intro r v hv
        refine wp_post (htable np w tf fs r v hw hfree htf hv) fun _ x hx => ?_
        rw [wp_bind, wp_modifyProc, if_pos rfl, wp_bind]
        exact hx
      · intro r v hv
        rw [wp_bind, wp_modifyProc, if_neg hv.ne_zero]
        exact hok np tf r _ ⟨w, fs, v, hw, hfree, htf, hv, rfl⟩

end Alloc

namespace Newborn

variable {B : Build} {np : Fin nproc} {tf r : Nat} {s a : Kernel}

variable (h : Newborn B np tf r s a)
include h

theorem slot : s.unusedSlot = some np := by
  obtain ⟨t, fs, u, hn, -⟩ := h.made
  exact hn.slot

theorem rest : a = { s with
    nextpid := s.nextpid + 1, proc := a.proc, freelist := a.freelist, mem := a.mem
    ptables := a.ptables, ftable := a.ftable, inode := a.inode, rootdir := a.rootdir } := by
  obtain ⟨t, fs, u, hn, -, -, hm, rfl⟩ := h.made
  have h1 := hm.frame
  have h2 := hn.rest
  rw [h1, h2]
  rfl

theorem proc_of_ne {i : Fin nproc} (hi : i ≠ np) : a.proc i = s.proc i := by
  obtain ⟨t, fs, u, hn, -, -, hm, rfl⟩ := h.made
  rw [giveTable, setProc_of_ne _ _ hi, hm.frame]
  show ((t.takePage tf fs).giveTrapframe np tf).proc i = s.proc i
  rw [giveTrapframe, setProc_of_ne _ _ hi]
  show t.proc i = s.proc i
  rw [hn.proc, Function.update_of_ne hi]

theorem proc_self : a.proc np = { s.proc np with
    pid := s.nextpid, state := .used, swapFile := (a.proc np).swapFile, trapframe := tf
    frame := fun _ => 0x0505050505050505#64, pagetable := r } := by
  obtain ⟨t, fs, u, hn, -, -, hm, rfl⟩ := h.made
  have hu : u.proc np = { t.proc np with
      trapframe := tf, frame := fun _ => 0x0505050505050505#64 } := by
    rw [hm.frame]
    show ((t.takePage tf fs).giveTrapframe np tf).proc np = _
    rw [giveTrapframe, setProc_self]
    rfl
  have ht := congrFun hn.proc np
  rw [Function.update_self] at ht
  rw [giveTable, setProc_self, hu, ht]

theorem table_of_ne {r' : Nat} (hr : r' ≠ r) : a.ptables r' = s.ptables r' := by
  obtain ⟨t, fs, u, hn, -, -, hm, rfl⟩ := h.made
  show u.ptables r' = _
  rw [hm.table_of_ne hr]
  show t.ptables r' = _
  rw [hn.rest]

theorem pte_low {v : Nat} (hv : v < 2 ^ 20) : (a.ptables r).pte v = 0#64 := by
  obtain ⟨t, fs, u, -, -, -, hm, rfl⟩ := h.made
  exact hm.pte_low hv

theorem missing_low : (a.ptables r).missing 0 = 2 := by
  obtain ⟨t, fs, u, -, -, -, hm, rfl⟩ := h.made
  exact hm.missing_low

theorem length_eq : s.freelist.length = 4 + a.freelist.length := by
  obtain ⟨t, fs, u, hn, hfree, -, hm, rfl⟩ := h.made
  have hlen := hm.length_eq
  have htf : t.freelist = s.freelist := by rw [hn.rest]
  rw [show ((t.takePage tf fs).giveTrapframe np tf).freelist = fs from rfl] at hlen
  rw [← htf, hfree, List.length_cons, hlen]
  show _ = 4 + u.freelist.length
  omega

theorem taken : ∃ fresh, s.freelist = fresh ++ a.freelist ∧
    r ∈ fresh ∧ ∀ pa, pa ∉ fresh → a.mem pa = s.mem pa := by
  obtain ⟨t, fs, u, hn, hfree, -, hm, rfl⟩ := h.made
  obtain ⟨fresh, hfs, hr, hmem⟩ := hm.taken
  have htf : t.freelist = s.freelist := by rw [hn.rest]
  refine ⟨tf :: fresh, ?_, List.mem_cons_of_mem _ hr, fun pa hpa => ?_⟩
  · rw [← htf, hfree, show fs = fresh ++ u.freelist from hfs]
    rfl
  · rw [List.mem_cons, not_or] at hpa
    refine (hmem pa hpa.2).trans ?_
    have htm : t.mem = s.mem := by rw [hn.rest]
    show Function.update t.mem tf _ pa = _
    rw [Function.update_of_ne hpa.1, htm]

theorem mem_freelist {f : Nat} (hf : f ∈ a.freelist) : f ∈ s.freelist := by
  obtain ⟨fresh, hfs, -⟩ := h.taken
  rw [hfs]
  exact List.mem_append_right _ hf

theorem root_mem : r ∈ s.freelist := by
  obtain ⟨fresh, hfs, hr, -⟩ := h.taken
  rw [hfs]
  exact List.mem_append_left _ hr

end Newborn

end Xv6Paging
