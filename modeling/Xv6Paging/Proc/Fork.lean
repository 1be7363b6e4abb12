import Xv6Paging.Proc.Reap

/-!
# The second half of fork

Once the page table is copied, `fork` duplicates the open files, copies the swap file slot by slot
through a page of the free list, and hands the arrays over.  No page table changes, the free list
is as before, and only pages of the free list are written.
-/

namespace Xv6Paging

open StateHalt Kernel
open Function (update update_of_ne update_self)

/-- Open files stay open: positions and reference counts change, and no count goes down. -/
def FilesKept (s s' : Kernel) : Prop :=
  ∀ f, s'.ftable f = { s.ftable f with ref := (s'.ftable f).ref, off := (s'.ftable f).off } ∧
    (s.ftable f).ref ≤ (s'.ftable f).ref

namespace FilesKept

variable {s t u : Kernel}

theorem refl (s : Kernel) : FilesKept s s := fun _ => ⟨rfl, le_rfl⟩

theorem trans (h : FilesKept s t) (h' : FilesKept t u) : FilesKept s u := by
  intro f
  obtain ⟨h1, h2⟩ := h f
  obtain ⟨h3, h4⟩ := h' f
  exact ⟨by rw [h3, h1], h2.trans h4⟩

theorem ofRW (h : FileRW s t) : FilesKept s t := by
  intro f
  have hf := h.file f
  refine ⟨by rw [hf], by rw [hf]⟩

theorem congr (h : s.ftable = t.ftable) (h' : FilesKept t u) : FilesKept s u := by
  intro f
  rw [h]
  exact h' f

theorem hasSwapFile (h : FilesKept s t) {pr : Proc} {f : Fin nfile} (hf : HasSwapFile s pr f) :
    HasSwapFile t pr f := by
  have hk := (h f).1
  refine ⟨hf.file, ?_, ?_, ?_⟩
  · rw [hk]
    exact hf.type
  · rw [hk]
    exact hf.readable
  · rw [hk]
    exact hf.writable

theorem ip_eq (h : FilesKept s t) (f : Fin nfile) : (t.ftable f).ip = (s.ftable f).ip := by
  rw [(h f).1]

end FilesKept

/-! ## Copying the swap file -/

/-- The step copies through a page of the free list: files are read and written, and only pages of
the free list are used. -/
structure Buffered (s s' : Kernel) : Prop where
  rest : s' = { s with mem := s'.mem, ftable := s'.ftable, inode := s'.inode }
  mem : ∀ pa, pa ∉ s.freelist → s'.mem pa = s.mem pa
  files : FilesKept s s'

namespace Buffered

variable {s t u : Kernel}

theorem refl (s : Kernel) : Buffered s s := ⟨rfl, fun _ _ => rfl, .refl s⟩

theorem trans (h : Buffered s t) (h' : Buffered t u) : Buffered s u where
  rest := by rw [h'.rest, h.rest]
  mem pa hpa := by
    have hf : t.freelist = s.freelist := by rw [h.rest]
    rw [h'.mem pa (by rwa [hf]), h.mem pa hpa]
  files := h.files.trans h'.files

theorem freelist_eq (h : Buffered s t) : t.freelist = s.freelist := by rw [h.rest]

theorem proc_eq (h : Buffered s t) : t.proc = s.proc := by rw [h.rest]

end Buffered

/-- What the copy of a slot needs. -/
structure CanCopySlot (B : Build) (p np : Fin nproc) (j : Fin maxPsycPages) (s : Kernel) :
    Prop where
  buffer : ∃ f fs, s.freelist = f :: fs ∧ IsFrame B f
  source : ∃ f, HasSwapFile s (s.proc p) f ∧ (j + 1) * pgsize ≤ (s.inode (s.ftable f).ip).size
  target : ∃ g, HasSwapFile s (s.proc np) g ∧ j * pgsize ≤ (s.inode (s.ftable g).ip).size

section SwapRound

variable {B : Build} {s : Kernel} {p np : Fin nproc} {j : Fin maxPsycPages}

/-- **The copy of a swap slot.** -/
theorem forkSwapRound_spec : wp (forkSwapRound B p np j)
      (fun _ s' => Buffered s s' ∧ s.freelist ≠ [] ∧
        ∀ f g, HasSwapFile s (s.proc p) f → HasSwapFile s (s.proc np) g →
        (j + 1) * pgsize ≤ (s.inode (s.ftable f).ip).size →
        j * pgsize ≤ (s.inode (s.ftable g).ip).size →
        s'.inode = update s.inode (s.ftable g).ip ((s.inode (s.ftable g).ip).storeSlot j
          fun k => (s.inode (s.ftable f).ip).data (j * pgsize + k.val)))
      (fun e _ => e ≠ .exited ∧ ¬CanCopySlot B p np j s) s := by
  simp only [forkSwapRound, wp_bind]
  refine wp_post kalloc_took fun page t ht => ?_
  have htp : t.proc = s.proc := by rw [ht.rest]
  have hti : t.inode = s.inode := by rw [ht.rest]
  have htf : t.ftable = s.ftable := by rw [ht.rest]
  have hfile : ∀ pr f, HasSwapFile s pr f → HasSwapFile t pr f := fun pr f h =>
    ⟨h.file, htf ▸ h.type, htf ▸ h.readable, htf ▸ h.writable⟩
  -- what a successful copy needs names the frame that `kalloc` returned
  have hpage : CanCopySlot B p np j s → IsFrame B page := by
    rintro ⟨⟨f, fs, hfree, hf⟩, -, -⟩
    rcases ht.freelist with ⟨hnil, -, -⟩ | hcons
    · simp [hnil] at hfree
    · rw [hcons] at hfree
      simp only [List.cons.injEq] at hfree
      rwa [hfree.1]
  refine wp_mono readFromSwapFile_spec ?_ ?_
  swap
  · rintro e u ⟨he, hk⟩
    refine ⟨he, fun hcan => ?_⟩
    obtain ⟨f, hf, -⟩ := hcan.source
    have hfr := hpage hcan
    exact hk f (by rw [htp]; exact hfile _ f hf) ⟨hfr.kernbase_le, hfr.2.2⟩
  rintro ret u ⟨hio, hino, hmem, hread⟩
  rw [htp, hti, htf] at hread
  refine wp_ite (fun hret => ⟨by simp, fun hcan => ?_⟩) fun _ => ?_
  · obtain ⟨f, hf, hsize⟩ := hcan.source
    have := (hread f (hfile _ f hf) hsize).1
    omega
  have hup : u.proc = s.proc := by rw [hio.rest, ← htp]
  have hui : u.inode = s.inode := by rw [hino, hti]
  have huk : FilesKept s u := FilesKept.congr htf.symm (.ofRW hio)
  rw [wp_bind]
  refine wp_mono writeToSwapFile_spec ?_ ?_
  swap
  · rintro e w ⟨he, hk⟩
    refine ⟨he, fun hcan => ?_⟩
    obtain ⟨g, hg, -⟩ := hcan.target
    have hfr := hpage hcan
    exact hk g (by rw [hup]; exact huk.hasSwapFile hg) ⟨hfr.kernbase_le, hfr.2.2⟩
  rintro ret' w ⟨hio', hmem', hwrite⟩
  rw [hup, hui] at hwrite
  refine wp_ite (fun hret => ⟨by simp, fun hcan => ?_⟩) fun _ => ?_
  · obtain ⟨g, hg, hsize⟩ := hcan.target
    have := (hwrite g (huk.hasSwapFile hg) (by rwa [huk.ip_eq])).1
    omega
  rw [wp_kfree]
  split
  swap
  · rename_i hn
    exact ⟨by simp, fun hcan => hn (hpage hcan)⟩
  rename_i hfr
  -- the buffer goes back to where it came from
  have hbuf : s.freelist = page :: t.freelist := by
    rcases ht.freelist with ⟨-, h0, -⟩ | h
    · exact absurd h0 hfr.ne_zero
    · exact h
  have hwf : w.freelist = t.freelist := by rw [hio'.rest, hio.rest]
  refine ⟨⟨?_, ?_, ?_⟩, by simp [hbuf], ?_⟩
  · have hrest : w = { s with
        freelist := w.freelist, mem := w.mem, ftable := w.ftable, inode := w.inode } := by
      rw [hio'.rest, hio.rest, ht.rest]
    refine Kernel.ext ?_ rfl ?_ ?_ ?_ ?_ ?_ ?_ ?_ rfl ?_ rfl ?_
    · rw [putPage_freelist, hwf, hbuf]
    all_goals
      simp only [putPage]
      rw [hrest]
  · intro pa hpa
    have hne : pa ≠ page := fun h => hpa (by rw [hbuf, h]; exact List.mem_cons_self)
    simp only [putPage, update_of_ne hne]
    rw [hmem', hmem pa hne, ht.mem pa hne]
  · have hwk : FilesKept s w := huk.trans (.ofRW hio')
    exact hwk
  · intro f g hf hg hsize hsize'
    show w.inode = _
    rw [(hwrite g (huk.hasSwapFile hg) (by rwa [huk.ip_eq])).2, huk.ip_eq,
      (hread f (hfile _ f hf) hsize).2.2]

end SwapRound

/-- The first `n` slots of the file `src` were copied to the file `dst`. -/
structure SlotsCopied (src dst n : Nat) (s s' : Kernel) : Prop where
  other : ∀ i, i ≠ dst → s'.inode i = s.inode i
  size : (s'.inode dst).size = max (s.inode dst).size (n * pgsize)
  copied : ∀ k, k < n * pgsize → (s'.inode dst).data k = (s.inode src).data k
  kept : ∀ k, n * pgsize ≤ k → (s'.inode dst).data k = (s.inode dst).data k

theorem SlotsCopied.zero (src dst : Nat) (s : Kernel) : SlotsCopied src dst 0 s s where
  other _ _ := rfl
  size := by omega
  copied k hk := by omega
  kept _ _ := rfl

theorem SlotsCopied.succ {src dst : Nat} {j : Nat} {s t u : Kernel} (hne : src ≠ dst)
    (h : SlotsCopied src dst j s t) (hu : u.inode = update t.inode dst ((t.inode dst).storeSlot j
      fun k => (t.inode src).data (j * pgsize + k.val))) : SlotsCopied src dst (j + 1) s u := by
  have hdst : u.inode dst = (t.inode dst).storeSlot j
      fun k => (t.inode src).data (j * pgsize + k.val) := by rw [hu, update_self]
  constructor
  · intro i hi
    rw [hu, update_of_ne hi, h.other i hi]
  · rw [hdst]
    show max (t.inode dst).size (j * pgsize + pgsize) = _
    rw [h.size, Nat.add_mul, Nat.one_mul]
    omega
  · intro k hk
    rw [hdst]
    show (if j * pgsize ≤ k ∧ k < j * pgsize + pgsize then _ else (t.inode dst).data k) = _
    rw [Nat.add_mul, Nat.one_mul] at hk
    split
    · rename_i hin
      rw [pageBytes, dif_pos (by omega), h.other src hne, Nat.add_sub_cancel' hin.1]
    · rename_i hout
      exact h.copied k (Nat.lt_of_not_le fun hle => hout ⟨hle, hk⟩)
  · intro k hk
    rw [hdst]
    show (if j * pgsize ≤ k ∧ k < j * pgsize + pgsize then _ else (t.inode dst).data k) = _
    rw [Nat.add_mul, Nat.one_mul] at hk
    rw [if_neg fun hin => absurd hin.2 (Nat.not_lt.mpr hk)]
    exact h.kept k (le_trans (Nat.le_add_right _ _) hk)

/-- What the copy of the first `n` slots needs. -/
structure CanCopySlots (B : Build) (p np : Fin nproc) (n : Nat) (s : Kernel) : Prop where
  buffer : ∃ f fs, s.freelist = f :: fs ∧ IsFrame B f
  files : ∃ f g, HasSwapFile s (s.proc p) f ∧ HasSwapFile s (s.proc np) g ∧
    (s.ftable f).ip ≠ (s.ftable g).ip ∧ n * pgsize ≤ (s.inode (s.ftable f).ip).size

section SwapLoop

variable {B : Build} {s : Kernel} {p np : Fin nproc} {n : Nat}

/-- **The copy of the swap file**, from slot 0 on. -/
theorem forkSwapLoop_spec (hn : n ≤ maxPsycPages) : wp (forEach (forkSwapRound B p np) 0 n)
      (fun _ s' => Buffered s s' ∧ (0 < n → s.freelist ≠ []) ∧
        ∀ f g, HasSwapFile s (s.proc p) f → HasSwapFile s (s.proc np) g →
        (s.ftable f).ip ≠ (s.ftable g).ip → n * pgsize ≤ (s.inode (s.ftable f).ip).size →
        SlotsCopied (s.ftable f).ip (s.ftable g).ip n s s')
      (fun e _ => e ≠ .exited ∧ 0 < n ∧ ¬CanCopySlots B p np n s) s := by
  refine wp_forEach (fun j t => Buffered s t ∧ (0 < j → s.freelist ≠ []) ∧
    ∀ f g, HasSwapFile s (s.proc p) f → HasSwapFile s (s.proc np) g →
    (s.ftable f).ip ≠ (s.ftable g).ip → n * pgsize ≤ (s.inode (s.ftable f).ip).size →
    SlotsCopied (s.ftable f).ip (s.ftable g).ip j s t)
    ⟨.refl s, fun h => absurd h (Nat.lt_irrefl 0), fun f g _ _ _ _ => .zero _ _ s⟩ ?_ ?_
  swap
  · intro t ht
    rwa [Nat.zero_add] at ht
  rintro j t - hj ⟨hbuf, -, hcopied⟩
  rw [Nat.zero_add] at hj
  have hslot := @forkSwapRound_spec B t p np ⟨j, by omega⟩
  rw [hbuf.proc_eq] at hslot
  refine wp_mono hslot ?_ ?_
  · rintro _ u ⟨hu, hfree, hino⟩
    rw [hbuf.freelist_eq] at hfree
    refine ⟨hbuf.trans hu, fun _ => hfree, fun f g hf hg hne hsize => ?_⟩
    have hsc := hcopied f g hf hg hne hsize
    have hsrc : t.inode (s.ftable f).ip = s.inode (s.ftable f).ip := hsc.other _ hne
    have hstep := hino f g (hbuf.files.hasSwapFile hf) (hbuf.files.hasSwapFile hg)
    rw [hbuf.files.ip_eq, hbuf.files.ip_eq, hsrc, hsc.size] at hstep
    refine hsc.succ hne ?_
    rw [hsrc]
    exact hstep (le_trans (Nat.mul_le_mul_right _ hj) hsize) (le_max_right _ _)
  · rintro e u ⟨he, hno⟩
    refine ⟨he, by omega, fun hcan => hno ?_⟩
    obtain ⟨f, g, hf, hg, hne, hsize⟩ := hcan.files
    have hsc := hcopied f g hf hg hne hsize
    have hsrc : t.inode (s.ftable f).ip = s.inode (s.ftable f).ip := hsc.other _ hne
    refine ⟨?_, ⟨f, ?_, ?_⟩, g, ?_, ?_⟩
    · obtain ⟨b, bs, hfree, hb⟩ := hcan.buffer
      exact ⟨b, bs, by rw [hbuf.freelist_eq, hfree], hb⟩
    · rw [hbuf.proc_eq]
      exact hbuf.files.hasSwapFile hf
    · rw [hbuf.files.ip_eq, hsrc]
      exact le_trans (Nat.mul_le_mul_right _ hj) hsize
    · rw [hbuf.proc_eq]
      exact hbuf.files.hasSwapFile hg
    · rw [hbuf.files.ip_eq, hsc.size]
      exact le_max_right _ _

end SwapLoop

/-! ## Everything after the page table -/

/-- The open files of a process were duplicated for the process `np`. -/
structure DupFiles (np : Fin nproc) (s s' : Kernel) : Prop where
  rest : s' = { s with proc := s'.proc, ftable := s'.ftable }
  proc : s'.proc = update s.proc np { s.proc np with ofile := (s'.proc np).ofile }
  files : FilesKept s s'

/-- The arrays of the child: those of the parent in a paging kernel, if the parent's `pid > 2`. -/
def Proc.inherit (B : Build) (npr pr : Proc) : Proc :=
  match B.selection with
  | .none => npr
  | .paging _ =>
    if pr.pid > 2 then { npr with ram := pr.ram, swap := pr.swap, fifoCounter := pr.fifoCounter }
    else npr

/-- The swap slots that `fork` copies. -/
def Build.forkSlots (B : Build) (pr : Proc) : Nat :=
  match B.selection with
  | .none => 0
  | .paging _ => if pr.pid > 2 then countPages pr.swap else 0

/-- The process `np` became a copy of `p`, apart from the page table. -/
structure Duplicated (B : Build) (p np : Fin nproc) (s s' : Kernel) : Prop where
  others : ∀ i, i ≠ np → s'.proc i = s.proc i
  child : s'.proc np = { Proc.inherit B (s.proc np) (s.proc p) with
    sz := (s.proc p).sz
    frame := update (s.proc p).frame tfA0 0#64
    ofile := (s'.proc np).ofile
    name := (s.proc p).name
    parent := some p
    state := .runnable }
  mem : ∀ pa, pa ∉ s.freelist → s'.mem pa = s.mem pa
  files : FilesKept s s'
  buffer : 0 < B.forkSlots (s.proc p) → s.freelist ≠ []
  slots : ∀ f g, HasSwapFile s (s.proc p) f → HasSwapFile s (s.proc np) g →
    (s.ftable f).ip ≠ (s.ftable g).ip →
    B.forkSlots (s.proc p) * pgsize ≤ (s.inode (s.ftable f).ip).size →
    SlotsCopied (s.ftable f).ip (s.ftable g).ip (B.forkSlots (s.proc p)) s s'
  rest : s' = { s with
    proc := s'.proc, mem := s'.mem, ftable := s'.ftable, inode := s'.inode }

/-- What the second half of `fork` needs. -/
structure CanDuplicate (B : Build) (p np : Fin nproc) (s : Kernel) : Prop where
  files : ∀ fd f, (s.proc p).ofile fd = some f → 1 ≤ (s.ftable f).ref
  swap : 0 < B.forkSlots (s.proc p) → CanCopySlots B p np (B.forkSlots (s.proc p)) s

section Finish

variable {B : Build} {s : Kernel} {p np : Fin nproc}

theorem forkFiles_spec {pr : Proc} :
    wp (forEach (forkFileRound pr np) 0 nofile) (fun _ s' => DupFiles np s s')
      (fun e _ => e ≠ .exited ∧ ¬∀ fd f, pr.ofile fd = some f → 1 ≤ (s.ftable f).ref) s := by
  refine wp_forEach (fun _ t => DupFiles np s t) ⟨rfl, ?_, .refl s⟩ ?_ fun _ h => h
  · simp
  rintro k t - - ht
  unfold forkFileRound
  cases hfd : pr.ofile (Fin.ofNat nofile k) with
  | none => exact ht
  | some f =>
    simp only [filedup, wp_bind, wp_get]
    refine wp_ite (fun href => ⟨by simp, fun hall => ?_⟩) fun _ => ?_
    · have h1 := hall _ f hfd
      have h2 := (ht.files f).2
      omega
    rw [wp_modify, wp_modifyProc]
    have hkept : FilesKept t (t.setFile f { t.ftable f with ref := (t.ftable f).ref + 1 }) := by
      intro g
      by_cases hg : g = f
      · subst hg
        simp [setFile]
      · simp [setFile, hg]
    refine ⟨?_, ?_, ht.files.trans hkept⟩
    · rw [ht.rest]
      rfl
    · have hnp := congrFun ht.proc np
      rw [update_self] at hnp
      have hupd : ∀ q, update t.proc np q = update s.proc np q := fun q => by
        rw [ht.proc, Function.update_idem]
      rw [setProc_self]
      refine (hupd _).trans (congrArg _ ?_)
      show ({ t.proc np with ofile := _ } : Proc) = _
      rw [hnp]

theorem forkSwap_spec : wp (forkSwap B p np)
      (fun _ s' => ∃ t, Buffered s t ∧ s' = t.setProc np (Proc.inherit B (s.proc np) (s.proc p)) ∧
        (0 < B.forkSlots (s.proc p) → s.freelist ≠ []) ∧
        ∀ f g, HasSwapFile s (s.proc p) f → HasSwapFile s (s.proc np) g →
          (s.ftable f).ip ≠ (s.ftable g).ip →
          B.forkSlots (s.proc p) * pgsize ≤ (s.inode (s.ftable f).ip).size →
          SlotsCopied (s.ftable f).ip (s.ftable g).ip (B.forkSlots (s.proc p)) s t)
      (fun e _ => e ≠ .exited ∧ ¬(0 < B.forkSlots (s.proc p) →
        CanCopySlots B p np (B.forkSlots (s.proc p)) s)) s := by
  unfold forkSwap
  cases hB : B.selection with
  | none =>
    have h0 : B.forkSlots (s.proc p) = 0 := by simp [Build.forkSlots, hB]
    refine ⟨s, .refl s, ?_, fun h => absurd h (by omega), fun f g _ _ _ _ => ?_⟩
    · simp [Proc.inherit, hB]
    · rw [h0]
      exact .zero _ _ s
  | paging pol =>
    simp only [wp_bind, wp_getProc]
    refine wp_onlyIf (fun hpid => ?_) fun hpid => ?_
    · have hslots : B.forkSlots (s.proc p) = countPages (s.proc p).swap := by
        simp [Build.forkSlots, hB, hpid]
      have hinh : ∀ npr, Proc.inherit B npr (s.proc p) = { npr with
          ram := (s.proc p).ram, swap := (s.proc p).swap
          fifoCounter := (s.proc p).fifoCounter } := fun npr => by
        simp [Proc.inherit, hB, hpid]
      rw [hslots]
      simp only [wp_bind, wp_getProc, wp_modifyProc]
      refine wp_mono (forkSwapLoop_spec (countPages_le _)) ?_ ?_
      · rintro _ t ⟨hbuf, hfree, hcopied⟩
        refine ⟨t, hbuf, ?_, hfree, hcopied⟩
        rw [hbuf.proc_eq, hinh]
      · rintro e t ⟨he, hno⟩
        exact ⟨he, fun h => hno.2 (h hno.1)⟩
    · have h0 : B.forkSlots (s.proc p) = 0 := by simp [Build.forkSlots, hB, hpid]
      refine ⟨s, .refl s, ?_, fun h => absurd h (by omega), fun f g _ _ _ _ => ?_⟩
      · simp [Proc.inherit, hB, hpid]
      · rw [h0]
        exact .zero _ _ s

/-- **The second half of `fork`.** -/
theorem forkFinish_spec (hne : np ≠ p) :
    wp (forkFinish B p np) (fun r s' => r = (s.proc np).pid ∧ Duplicated B p np s s')
      (fun e _ => e ≠ .exited ∧ ¬CanDuplicate B p np s) s := by
  simp only [forkFinish, wp_bind, wp_getProc, wp_modifyProc]
  generalize hs1 : s.setProc np { s.proc np with
    sz := (s.proc p).sz, frame := update (s.proc p).frame tfA0 0#64 } = s1
  have h1p : s1.proc p = s.proc p := by rw [← hs1, setProc_of_ne _ _ hne.symm]
  have h1f : s1.ftable = s.ftable := by rw [← hs1]; rfl
  refine wp_mono forkFiles_spec ?_ ?_
  swap
  · rintro e t ⟨he, hno⟩
    refine ⟨he, fun hcan => hno ?_⟩
    rw [h1f]
    exact hcan.files
  intro _ t ht
  have htp : t.proc p = s.proc p := by
    rw [ht.proc, update_of_ne hne.symm, h1p]
  have htnp : t.proc np = { s.proc np with
      sz := (s.proc p).sz, frame := update (s.proc p).frame tfA0 0#64
      ofile := (t.proc np).ofile } := by
    have h := congrFun ht.proc np
    rw [update_self, ← hs1, setProc_self] at h
    exact h
  have hkept : FilesKept s t := FilesKept.congr h1f.symm ht.files
  have htrest : t = { s with proc := t.proc, ftable := t.ftable } := by
    rw [ht.rest, ← hs1]
    rfl
  have hti : t.inode = s.inode := by rw [htrest]
  have hoth : ∀ i, i ≠ np → t.proc i = s.proc i := fun i hi => by
    rw [ht.proc, update_of_ne hi, ← hs1, setProc_of_ne _ _ hi]
  generalize ht2 : t.setProc np { t.proc np with name := (s.proc p).name } = t2
  have h2p : t2.proc p = s.proc p := by rw [← ht2, setProc_of_ne _ _ hne.symm, htp]
  have h2np : t2.proc np = { t.proc np with name := (s.proc p).name } := by
    rw [← ht2, setProc_self]
  have h2f : t2.ftable = t.ftable := by rw [← ht2]; rfl
  have h2i : t2.inode = s.inode := by rw [← ht2, ← hti]; rfl
  have h2free : t2.freelist = s.freelist := by rw [← ht2, htrest]; rfl
  have hpid : (t2.proc np).pid = (s.proc np).pid := by rw [h2np, htnp]
  have hswapnp : (t2.proc np).swapFile = (s.proc np).swapFile := by rw [h2np, htnp]
  -- the swap files of the two processes are those at the beginning
  have hfile : ∀ f, HasSwapFile s (s.proc p) f → HasSwapFile t2 (s.proc p) f := fun f hf => by
    have h := hkept.hasSwapFile hf
    exact ⟨h.file, h2f ▸ h.type, h2f ▸ h.readable, h2f ▸ h.writable⟩
  have hfile' : ∀ g, HasSwapFile s (s.proc np) g → HasSwapFile t2 (t2.proc np) g := fun g hg => by
    have h := hkept.hasSwapFile hg
    exact ⟨hswapnp.trans h.file, h2f ▸ h.type, h2f ▸ h.readable, h2f ▸ h.writable⟩
  have hip : ∀ f, (t2.ftable f).ip = (s.ftable f).ip := fun f => by rw [h2f, hkept.ip_eq]
  have hspec := @forkSwap_spec B t2 p np
  rw [h2p] at hspec
  refine wp_mono hspec ?_ ?_
  · rintro _ u ⟨w, hbuf, rfl, hnonempty, hcopied⟩
    refine ⟨by rw [hpid], ?_⟩
    rw [setProc_self, setProc_self]
    have hinh : Proc.inherit B (t2.proc np) (s.proc p) =
        { Proc.inherit B (s.proc np) (s.proc p) with
        sz := (s.proc p).sz, frame := update (s.proc p).frame tfA0 0#64
        ofile := (t.proc np).ofile, name := (s.proc p).name } := by
      rw [h2np, htnp]
      unfold Proc.inherit
      cases B.selection with
      | none => rfl
      | paging pol =>
        simp only
        split <;> rfl
    refine ⟨fun i hi => ?_, ?_, fun pa hpa => ?_, ?_, fun hpos => h2free ▸ hnonempty hpos,
      fun f g hf hg hne' hsize => ?_, ?_⟩
    · rw [setProc_of_ne _ _ hi, setProc_of_ne _ _ hi, setProc_of_ne _ _ hi,
        hbuf.proc_eq, ← ht2, setProc_of_ne _ _ hi, hoth i hi]
    · rw [setProc_self, hinh]
    · show w.mem pa = s.mem pa
      rw [hbuf.mem pa (by rwa [h2free]), ← ht2, htrest]
      rfl
    · have hw : FilesKept s w := hkept.trans (FilesKept.congr h2f.symm hbuf.files)
      exact hw
    · have h := hcopied f g (hfile f hf) (hfile' g hg) (by rwa [hip, hip])
        (by rwa [hip, h2i])
      rw [hip, hip] at h
      exact ⟨fun i hi => by rw [← h2i]; exact h.other i hi, by rw [← h2i]; exact h.size,
        fun k hk => by rw [← h2i]; exact h.copied k hk,
        fun k hk => by rw [← h2i]; exact h.kept k hk⟩
    · have hrest : w = { s with
          proc := w.proc, mem := w.mem, ftable := w.ftable, inode := w.inode } := by
        rw [hbuf.rest, ← ht2, htrest]
        rfl
      refine Kernel.ext ?_ rfl ?_ rfl ?_ ?_ ?_ ?_ ?_ rfl ?_ rfl ?_
      all_goals
        simp only [setProc]
        rw [hrest]
  · rintro e u ⟨he, hno⟩
    refine ⟨he, fun hcan => hno fun hpos => ?_⟩
    obtain ⟨⟨b, bs, hfree, hb⟩, f, g, hf, hg, hne', hsize⟩ := hcan.swap hpos
    exact ⟨⟨b, bs, by rw [h2free, hfree], hb⟩, f, g, h2p ▸ hfile f hf, hfile' g hg,
      by rwa [hip, hip],
      by rwa [hip, h2i]⟩

end Finish

end Xv6Paging
