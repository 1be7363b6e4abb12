import Xv6Paging.Paging.WellFormed
import Xv6Paging.Proc.Trap

/-!
# Paged memory refines flat memory

A process sees a flat memory: a size, and the contents of every page.  Page faults do nothing to it,
and `growproc` cuts it off or extends it by pages of zeros.  In the paging kernels every sequence of
page faults and `growproc` calls that fits into memory does to the logical contents of the process
what it does to the flat memory, whatever pages the policy chooses to evict.
-/

namespace Xv6Paging

open StateHalt Ownership Kernel

/-! ## Flat memory -/

/-- A memory of `size` bytes, page by page. -/
@[ext] structure FlatMemory where
  size : Nat
  page : Nat → Page

/-- The memory with another size: pages beyond it are gone. -/
def FlatMemory.resize (M : FlatMemory) (size : Nat) : FlatMemory where
  size := size
  page := fun v => if v * pgsize < size then M.page v else fun _ => 0

/-- What the process `p` sees. -/
def Kernel.flat (s : Kernel) (p : Fin nproc) : FlatMemory where
  size := (s.proc p).sz
  page := fun v => if v * pgsize < (s.proc p).sz then
    fun i => s.logical (s.proc p) (v * pgsize + i) else fun _ => 0

/-- A page fault, with its address, or a call of `growproc`. -/
inductive PagingOp
  | fault (stval : Nat)
  | grow (n : Int)

/-- What the operation does to the flat memory. -/
def FlatMemory.step (M : FlatMemory) : PagingOp → FlatMemory
  | .fault _ => M
  | .grow n => M.resize (resizedTo M.size n)

/-- What the kernel does. -/
def PagingOp.run (B : Build) : PagingOp → KM Int
  | .fault stval => do
    handlePageFault B stval
    pure 0
  | .grow n => growproc B n

/-- A fault is on a page that is swapped out; `growproc` gets an `int` and stays within 32 pages;
and the frames that the operation needs are free. -/
def PagingOp.Admissible (p : Fin nproc) (s : Kernel) : PagingOp → Prop
  | .fault stval => hasFlag (s.ptePage p (stval / pgsize)) ptePG = true ∧
      faultDemand (s.proc p).ram ≤ s.freelist.length
  | .grow n => -2 ^ 31 ≤ n ∧ (s.proc p).sz + n ≤ ((maxTotalPages * pgsize : Nat) : Int) ∧
      s.growDemand p (pagesOf (resizedTo (s.proc p).sz n) - pagesOf (s.proc p).sz) ≤
        s.freelist.length

instance (p : Fin nproc) (s : Kernel) : (op : PagingOp) → Decidable (op.Admissible p s)
  | .fault _ => inferInstanceAs (Decidable (_ ∧ _))
  | .grow _ => inferInstanceAs (Decidable (_ ∧ _ ∧ _))

/-- The kernel runs the operations of the process `p` one after the other. -/
inductive PagingRun (B : Build) (p : Fin nproc) (s : Kernel) : List PagingOp → Kernel → Prop
  | nil : PagingRun B p s [] s
  | snoc {ops : List PagingOp} {op : PagingOp} {t u : Kernel} {r : Int} (h : PagingRun B p s ops t)
      (hop : op.Admissible p t) (hrun : op.run B t = .ok r u) : PagingRun B p s (ops ++ [op]) u

/-- The number of resident pages. -/
def Kernel.residentCount (s : Kernel) (p : Fin nproc) : Nat :=
  ((Finset.range (pagesOf (s.proc p).sz)).filter fun v =>
    hasFlag (s.ptePage p v) pteV = true).card

/-! ## One operation -/

section Step

variable {B : Build} {pol : Policy} {p : Fin nproc} {n m sz stval : Nat} {s t : Kernel}
  {L L' : Nat → Loc} {op : PagingOp}

theorem setSize_pager : (t.setSize p sz).pager p = t.pager p := by
  simp [pager, setSize, swapInode, setProc]

theorem Paged.setSize (h : Paged B p n L t) : Paged B p n L (t.setSize p sz) := by
  obtain ⟨f, hf⟩ := h.file
  have hproc : (t.setSize p sz).proc p = { t.proc p with sz := sz } := setProc_self _ _ _
  refine ⟨h.cur, ?_, ⟨f, ⟨?_, hf.type, hf.readable, hf.writable⟩⟩, ?_⟩
  · rw [hproc]
    exact h.pid
  · rw [hproc]
    exact hf.file
  · rw [setSize_pager]
    exact h.layout

section

variable (h : Paged B p (pagesOf (s.proc p).sz) L s)
include h

theorem Paged.flat_page
    (hset : Settled (pagesOf (s.proc p).sz) L) (hsz : (s.proc p).sz ≤ maxTotalPages * pgsize)
    (v : Nat) : (s.flat p).page v =
      if v * pgsize < (s.proc p).sz then (s.pager p).page v (L v) else fun _ => 0 := by
  show (if v * pgsize < (s.proc p).sz then _ else _) = _
  by_cases hv : v * pgsize < (s.proc p).sz
  · rw [if_pos hv, if_pos hv]
    exact funext fun i => h.logical_eq hset ((lt_pagesOf_iff hsz).mpr hv) i
  · rw [if_neg hv, if_neg hv]

/-- **Resizing**: the process is well-formed, and its flat memory resized. -/
theorem Resized.flat
    (hset : Settled (pagesOf (s.proc p).sz) L) (hsz : (s.proc p).sz ≤ maxTotalPages * pgsize)
    (hsz' : sz ≤ maxTotalPages * pgsize)
    (hres : Resized B p (pagesOf (s.proc p).sz) s L (pagesOf sz) t L') :
    (WellFormed p (t.setSize p sz) ∧ Sane B p (t.setSize p sz)) ∧
      (t.setSize p sz).flat p = (s.flat p).resize sz := by
  have hself : ((t.setSize p sz).proc p).sz = sz := by
    rw [setSize, setProc_self]
  have hpaged : Paged B p (pagesOf ((t.setSize p sz).proc p).sz) L' (t.setSize p sz) := by
    rw [hself]
    exact hres.paged.setSize
  have hset' : Settled (pagesOf ((t.setSize p sz).proc p).sz) L' := by
    rw [hself]
    exact hres.settled
  refine ⟨hpaged.wellFormed hset' (by rwa [hself]), ?_⟩
  refine FlatMemory.ext hself (funext fun v => ?_)
  rw [hpaged.flat_page hset' (by rwa [hself]), hself, setSize_pager]
  show _ = if v * pgsize < sz then (s.flat p).page v else _
  rw [h.flat_page hset hsz]
  have hlt := @lt_pagesOf_iff sz v hsz'
  have hlt' := @lt_pagesOf_iff (s.proc p).sz v hsz
  by_cases hv : v * pgsize < sz
  · rw [if_pos hv, if_pos hv]
    by_cases hv' : v * pgsize < (s.proc p).sz
    · rw [if_pos hv', hres.page v (hlt'.mpr hv') (hlt.mpr hv)]
    · rw [if_neg hv', hres.fresh v (Nat.not_lt.mp (hlt'.not.mpr hv')) (hlt.mpr hv)]
  · rw [if_neg hv, if_neg hv]

omit h in
theorem Kernel.flat_resize (s : Kernel) (p : Fin nproc) :
    (s.flat p).resize (s.proc p).sz = s.flat p := by
  refine FlatMemory.ext rfl (funext fun v => ?_)
  show (if v * pgsize < (s.proc p).sz then (if v * pgsize < (s.proc p).sz then _ else _) else _) =
    if v * pgsize < (s.proc p).sz then _ else _
  by_cases hv : v * pgsize < (s.proc p).sz
  · simp only [if_pos hv]
  · simp only [if_neg hv]

omit h in
theorem Resized.setSize_eq (hres : Resized B p n s L m t L') : t.setSize p (s.proc p).sz = t := by
  rw [setSize, ← hres.kept.sz_eq]
  exact setProc_eta t p

theorem Resized.flat_eq
    (hset : Settled (pagesOf (s.proc p).sz) L) (hsz : (s.proc p).sz ≤ maxTotalPages * pgsize)
    (hres : Resized B p (pagesOf (s.proc p).sz) s L (pagesOf (s.proc p).sz) t L') :
    (WellFormed p t ∧ Sane B p t) ∧ t.flat p = s.flat p := by
  have hstep := hres.flat h hset hsz hsz
  rwa [hres.setSize_eq, flat_resize] at hstep

end

theorem Paged.swap_of_pg (h : Paged B p n L s) (hset : Settled n L) {v : Nat}
    (hPG : hasFlag (s.ptePage p v) ptePG = true) : v < n ∧ ∃ j, L v = .swap j := by
  have hv : v < n := by
    by_contra hge
    have hno : hasFlag (s.ptePage p v) ptePG = false := (h.layout.beyond v (Nat.not_lt.mp hge)).1
    rw [hno] at hPG
    exact absurd hPG (by decide)
  refine ⟨hv, ?_⟩
  have hat := h.layout.located v hv
  cases hLv : L v with
  | ram k =>
    rw [hLv] at hat
    have hno : hasFlag (s.ptePage p v) ptePG = false := hat.2.2.2
    rw [hno] at hPG
    exact absurd hPG (by decide)
  | swap k => exact ⟨k, rfl⟩
  | moving => exact absurd hLv (hset v hv)

/-- **A page fault** on a page that is swapped out. -/
theorem handleNotNone_paged (h : Paged B p n L s) (hset : Settled n L)
    (hPG : hasFlag (s.ptePage p (stval / pgsize)) ptePG = true) : wp (handleNotNone B pol stval)
      (fun _ s' => faultDemand (s.proc p).ram ≤ s.freelist.length ∧
        hasFlag (s'.ptePage p (stval / pgsize)) pteU = true ∧
        ∃ L' k, Settled n L' ∧ L' (stval / pgsize) = .ram k ∧ Repaged B p n s L s' L')
      (fun e _ => e ≠ .exited ∧ s.freelist.length < faultDemand (s.proc p).ram) s := by
  obtain ⟨hv, j, hj⟩ := h.swap_of_pg hset hPG
  have hp := h.present hv
  have hp' : (s.ptables (s.proc p).pagetable).present (stval / pgsize * pgsize / pgsize) := by
    rwa [page_div]
  simp only [handleNotNone, pgrounddown, wp_bind, wp_myproc h.cur, wp_getProc]
  rw [wp_walk_present (page_lt_maxva (h.lt_total hv)) hp']
  simp only [wp_bind, wp_readPte, page_div, ← PageTable.pte_of_present _ hp]
  rw [if_pos (show hasFlag ((s.ptables (s.proc p).pagetable).pte _) ptePG = true from hPG)]
  exact swap_paged h hset hv hj

/-- What an operation must do: the process stays well-formed, sees what it should see, and a page
that was missing is there. -/
structure PagingOp.Done (B : Build) (p : Fin nproc) (op : PagingOp) (s s' : Kernel) : Prop where
  wellFormed : WellFormed p s'
  sane : Sane B p s'
  flat : s'.flat p = (s.flat p).step op
  resident : ∀ stval, op = .fault stval → hasFlag (s'.ptePage p (stval / pgsize)) pteV = true ∧
    ∃ k, (s'.proc p).Records (stval / pgsize) (.inl k)

/-- **One operation** in a well-formed state returns, and does what it does to the flat memory. -/
theorem PagingOp.simulates (hB : B.selection = .paging pol) (hwf : WellFormed p s)
    (hs : Sane B p s) (hop : op.Admissible p s) :
    wp (op.run B) (fun r s' => r = 0 ∧ op.Done B p s s') (fun _ _ => False) s := by
  obtain ⟨h, hset⟩ := hwf.paged hs
  cases op with
  | fault stval =>
    obtain ⟨hPG, hfree⟩ := hop
    simp only [PagingOp.run, wp_bind, handlePageFault, hB]
    refine wp_mono (handleNotNone_paged h hset hPG) ?_ fun _ _ hno => by omega
    rintro _ t ⟨-, -, L', k, hset', hk, hre⟩
    obtain ⟨⟨hwf', hs'⟩, hflat⟩ := (hre.resized hset').flat_eq h hset hwf.size
    refine ⟨rfl, hwf', hs', hflat, fun stval' heq => ?_⟩
    obtain rfl : stval = stval' := by simpa using heq
    have hat := hre.paged.layout.located _ (h.swap_of_pg hset hPG).1
    rw [hk] at hat
    exact ⟨hat.2.2.1, k, hat.1, hat.2.1⟩
  | grow n =>
    obtain ⟨hlo, hhi, hfree⟩ := hop
    have hsize : resizedTo (s.proc p).sz n ≤ maxTotalPages * pgsize := by
      have := hwf.size
      unfold resizedTo
      split <;> omega
    simp only [PagingOp.run]
    refine wp_mono (growproc_paged hB h hset hwf.size hlo hhi) ?_ ?_
    · rintro r u (⟨rfl, -, t, L', hres, rfl⟩ | ⟨-, hmore, hshort, -⟩)
      · obtain ⟨⟨hwf', hs'⟩, hflat⟩ := hres.flat h hset hwf.size hsize
        exact ⟨rfl, hwf', hs', hflat, fun _ heq => by simp at heq⟩
      · -- the frames for the free slots are part of the demand
        exfalso
        unfold growDemand at hfree
        rw [if_neg (by omega)] at hfree
        omega
    · rintro e u ⟨-, hroom, hlen⟩
      rw [growDemand, if_neg (by omega), if_pos hroom] at hfree
      omega

end Step

/-! ## Runs -/

section Run

variable {B : Build} {pol : Policy} {p : Fin nproc} {s t : Kernel} {ops : List PagingOp}

theorem WellFormed.residentCount_le (hwf : WellFormed p s) (hs : Sane B p s) :
    s.residentCount p ≤ maxPsycPages := by
  obtain ⟨h, hset⟩ := hwf.paged hs
  exact h.layout.card_resident_le hset

theorem PagingRun.simulates (hB : B.selection = .paging pol) (hwf : WellFormed p s)
    (hs : Sane B p s) (hrun : PagingRun B p s ops t) :
    WellFormed p t ∧ Sane B p t ∧ t.flat p = ops.foldl FlatMemory.step (s.flat p) := by
  induction hrun with
  | nil => exact ⟨hwf, hs, rfl⟩
  | snoc _ hop hrun ih =>
    obtain ⟨hwf', hs', hflat⟩ := ih
    have hdone := wp_returns (PagingOp.simulates hB hwf' hs' hop) hrun
    refine ⟨hdone.2.wellFormed, hdone.2.sane, ?_⟩
    rw [List.foldl_append, ← hflat]
    exact hdone.2.flat

/-- **Paged memory refines flat memory.**  From a well-formed state, after any sequence of page
faults on swapped-out pages and `growproc` calls within 32 pages that memory suffices for, the
process is well-formed, at most `MAX_PSYC_PAGES` of its pages are resident, and it sees what the
sequence makes of its flat memory; and every such operation returns, with the page that was missing
in memory. -/
theorem paging_refines_flat (hB : B.selection = .paging pol) (hwf : WellFormed p s)
    (hs : Sane B p s) (hrun : PagingRun B p s ops t) :
    WellFormed p t ∧ Sane B p t ∧ t.residentCount p ≤ maxPsycPages ∧
      t.flat p = ops.foldl FlatMemory.step (s.flat p) ∧
      ∀ op : PagingOp, op.Admissible p t → ∃ u, op.run B t = .ok 0 u ∧ op.Done B p t u := by
  obtain ⟨hwf', hs', hflat⟩ := hrun.simulates hB hwf hs
  refine ⟨hwf', hs', hwf'.residentCount_le hs', hflat, fun op hop => ?_⟩
  obtain ⟨r, u, hu, rfl, hdone⟩ := wp_total (PagingOp.simulates hB hwf' hs' hop)
  exact ⟨u, hu, hdone⟩

end Run

/-- The small process brings its second page in and grows by a page; it sees the sevens of its swap
file and then a page of zeros. -/
theorem pagedKernel_refines : ∃ t,
    PagingRun (sampleBuild (.paging .scfifo)) 0 (pagedKernel 2) [.fault 5000, .grow 4096] t ∧
      t.residentCount 0 ≤ maxPsycPages ∧
      t.flat 0 = (((pagedKernel 2).flat 0).step (.fault 5000)).step (.grow 4096) := by
  obtain ⟨hwf, hs⟩ : WellFormed 0 (pagedKernel 2) ∧
      Sane (sampleBuild (.paging .scfifo)) 0 (pagedKernel 2) := pagedKernel_wellFormed (by decide)
  obtain ⟨r, t, ht, hgrow⟩ : ∃ r t, (PagingOp.fault 5000).run (sampleBuild (.paging .scfifo))
      (pagedKernel 2) = .ok r t ∧ (PagingOp.grow 4096).Admissible 0 t := by
    refine wp_total ?_
    decide +kernel
  have hrun : PagingRun (sampleBuild (.paging .scfifo)) 0 (pagedKernel 2) [.fault 5000] t :=
    .snoc .nil (by decide +kernel) ht
  obtain ⟨u, hu, -⟩ := (paging_refines_flat rfl hwf hs hrun).2.2.2.2 _ hgrow
  have hrun' := PagingRun.snoc hrun hgrow hu
  obtain ⟨-, -, hcount, hflat, -⟩ := paging_refines_flat rfl hwf hs hrun'
  exact ⟨u, hrun', hcount, hflat⟩

end Xv6Paging
