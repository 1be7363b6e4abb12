import Xv6Paging.Lazy.Guard
import Xv6Paging.Paging.Flat
import Xv6Paging.Proc.Exit

/-!
# Faults at any address

A process may fault at any address of 64 bits.  `walk` panics from `MAXVA` on.  `handle_NONE` lets
the process exit above `MAXVA`, but not at `MAXVA` itself, and `handle_not_NONE` does not compare at
all.  Below `MAXVA` the handlers panic when they run out of frames.
-/

namespace Xv6Paging

open StateHalt

/-- A process that runs in the lazy kernel: it is not the first one, its open files are counted and
the free pages are pages of the allocator. -/
structure LazyRunning (B : Build) (p : Fin nproc) (s : Kernel) : Prop where
  cur : s.cur = some p
  pid : 2 < (s.proc p).pid
  notInit : s.initproc ≠ some p
  files : OpenFiles B p s
  frames : ∀ f ∈ s.freelist, IsFrame B f

/-- The state of a process that may fault. -/
def FaultReady (B : Build) (p : Fin nproc) (s : Kernel) : Prop :=
  match B.selection with
  | .none => LazyRunning B p s
  | .paging _ => WellFormed p s ∧ Sane B p s

/-- User code can use the page `v` of the process `p`, and the other processes are as they were. -/
structure MadeAccessible (p : Fin nproc) (v : Nat) (s s' : Kernel) : Prop where
  valid : hasFlag (s'.ptePage p v) pteV = true
  user : hasFlag (s'.ptePage p v) pteU = true
  others : ∀ i, i ≠ p → s'.proc i = s.proc i

/-- The handler makes the page accessible or marks the process that faulted, and nothing else; or
that process exits in it. -/
def FaultHandled (B : Build) (p : Fin nproc) (stval : Nat) (s : Kernel) : Prop :=
  wp (handlePageFault B stval)
    (fun _ s' => MadeAccessible p (stval / pgsize) s s' ∨ s' = s.markKilled p)
    (fun e s' => e = .exited ∧ Exits p s s') s

/-- The addresses that get past `walk`. -/
def FaultAddress (B : Build) (stval : Nat) : Prop :=
  match B.selection with
  | .none => pgrounddown stval ≠ maxva
  | .paging _ => stval < maxva

/-- The handler does not run out of frames: there is one for a page that looks reserved in the lazy
kernel; and those that bring a page in, in a paging kernel. -/
def FaultFrames (B : Build) (p : Fin nproc) (stval : Nat) (s : Kernel) : Prop :=
  match B.selection with
  | .none => hasFlag (s.ptePage p (stval / pgsize)) pteV = true →
      (s.ptables (s.proc p).pagetable).userPa stval = 0 → s.freelist ≠ []
  | .paging _ => hasFlag (s.ptePage p (stval / pgsize)) ptePG = true →
      faultDemand (s.proc p).ram ≤ s.freelist.length

section Handled

variable {B : Build} {pol : Policy} {p : Fin nproc} {s : Kernel} {stval : Nat}

/-! ## The lazy kernel -/

theorem mapFresh_accessible {f : Nat} {fs : List Nat}
    (hV : hasFlag (s.ptePage p (stval / pgsize)) pteV = true) : MadeAccessible p (stval / pgsize) s
      (s.mapFresh (s.proc p).pagetable (stval / pgsize) f fs) := by
  have hpte : (s.mapFresh (s.proc p).pagetable (stval / pgsize) f fs).ptePage p (stval / pgsize) =
      pa2pte f ||| permUser ||| pteV := by
    show ((s.mapFresh _ _ f fs).ptables (s.proc p).pagetable).pte _ = _
    rw [Kernel.mapFresh_pte (PageTable.present_of_hasFlag _ hV), if_pos rfl]
  refine ⟨?_, ?_, fun _ _ => rfl⟩
  · rw [hpte, hasFlag_map _ _ (by decide)]
    decide
  · rw [hpte, hasFlag_map _ _ (by decide)]
    decide

/-- Below `MAXVA` the lazy kernel handles a fault if and only if it has a frame for the page. -/
theorem lazy_faultHandled_iff (hB : B.selection = .none) (hs : LazyRunning B p s)
    (hva : stval < maxva) : FaultHandled B p stval s ↔ FaultFrames B p stval s := by
  simp only [FaultHandled, FaultFrames, handlePageFault, hB]
  by_cases hres : hasFlag ((s.ptables (s.proc p).pagetable).pte (stval / pgsize)) pteV = true ∧
      (s.ptables (s.proc p).pagetable).userPa stval = 0
  · rw [wp_handleNone_map hB hs.cur hva hres.1 hres.2]
    cases hfree : s.freelist with
    | nil =>
      constructor
      · rintro ⟨he, -⟩
        exact absurd he (by simp)
      · exact fun h => absurd rfl (h hres.1 hres.2)
    | cons f fs =>
      have hf : IsFrame B f := hs.frames f (by simp [hfree])
      simp only [if_neg hf.ne_zero, if_pos (And.intro hf.kernbase_le hf.2.2)]
      exact ⟨fun _ _ _ => by simp, fun _ => .inl (mapFresh_accessible hres.1)⟩
  · rw [wp_handleNone_kill hs.cur (pgrounddown_lt_maxva.mpr hva) hres]
    exact ⟨fun _ hV hpa => absurd ⟨hV, hpa⟩ hres, fun _ => .inr rfl⟩

/-- From `MAXVA` on the process exits, unless the page begins at `MAXVA`. -/
theorem lazy_faultHandled_of_ge (hB : B.selection = .none) (hs : LazyRunning B p s)
    (hva : maxva ≤ stval) : FaultHandled B p stval s ↔ FaultAddress B stval := by
  have hge : maxva ≤ pgrounddown stval := by
    simp only [pgrounddown, pgsize, maxva] at *
    omega
  simp only [FaultHandled, FaultAddress, handlePageFault, hB, handleNone, wp_bind,
    wp_myproc hs.cur]
  by_cases heq : pgrounddown stval = maxva
  · simp only [heq, gt_iff_lt, Nat.lt_irrefl, if_false, wp_bind, wp_getProc,
      wp_walk_ge le_rfl]
    simp
  · rw [if_pos (by omega)]
    refine ⟨fun _ => heq, fun _ => ?_⟩
    exact wp_mono (exit_exits hB hs.cur hs.notInit hs.files) (fun _ _ h => h.elim)
      fun _ _ h => h

/-! ## The paging kernels -/

theorem wp_handleNotNone_kill {Q : Unit → Kernel → Prop} {E : Halt → Kernel → Prop}
    (hc : s.cur = some p) (hva : stval < maxva)
    (hPG : hasFlag (s.ptePage p (stval / pgsize)) ptePG = false) :
    wp (handleNotNone B pol stval) Q E s ↔ Q () (s.markKilled p) := by
  simp only [handleNotNone, wp_bind, wp_myproc hc, wp_getProc,
    wp_walk_false (pgrounddown_lt_maxva.mpr hva), pgrounddown_div]
  by_cases hp : (s.ptables (s.proc p).pagetable).present (stval / pgsize)
  · have hPG' : hasFlag ((s.ptables (s.proc p).pagetable).leaf (stval / pgsize)) ptePG = false := by
      rw [← PageTable.pte_of_present _ hp]
      exact hPG
    simp only [if_pos hp, wp_bind, wp_readPte, hPG', Bool.false_eq_true, if_false]
    rfl
  · simp only [if_neg hp]
    rfl

/-- Below `MAXVA` the paging kernels handle a fault if and only if the page is not swapped out or
the frames to bring it in are there. -/
theorem paged_faultHandled_iff (hB : B.selection = .paging pol) (hwf : WellFormed p s)
    (hs : Sane B p s) (hva : stval < maxva) :
    FaultHandled B p stval s ↔ FaultFrames B p stval s := by
  simp only [FaultHandled, FaultFrames, handlePageFault, hB]
  cases hPG : hasFlag (s.ptePage p (stval / pgsize)) ptePG with
  | false =>
    rw [wp_handleNotNone_kill hs.cur hva hPG]
    exact ⟨fun _ h => absurd h (by decide), fun _ => .inr rfl⟩
  | true =>
    obtain ⟨h, hset⟩ := hwf.paged hs
    have hspec := @handleNotNone_paged B pol p _ stval s _ h hset hPG
    constructor
    · -- the outcomes of the handler with too few frames are no good
      intro hhandled _
      by_contra hshort
      have hboth := wp_and hspec hhandled
      have hfalse : wp (handleNotNone B pol stval) (fun _ _ => False) (fun _ _ => False) s :=
        wp_mono hboth (fun _ _ h => hshort h.1.1) fun _ _ h => h.1.1 h.2.1
      obtain ⟨_, _, _, hno⟩ := wp_total hfalse
      exact hno
    · intro hfree
      refine wp_mono hspec ?_ fun _ _ hno => absurd (hfree rfl) (Nat.not_le.mpr hno.2)
      rintro _ s' ⟨-, hU, L', k, -, hk, hre⟩
      have hat := hre.paged.layout.located _ (h.swap_of_pg hset hPG).1
      rw [hk] at hat
      exact .inl ⟨hat.2.2.1, hU, hre.kept.procs⟩

theorem paged_not_faultHandled (hB : B.selection = .paging pol) (hc : s.cur = some p)
    (hva : maxva ≤ stval) : ¬FaultHandled B p stval s := by
  have hge : maxva ≤ pgrounddown stval := by
    simp only [pgrounddown, pgsize, maxva] at *
    omega
  simp only [FaultHandled, handlePageFault, hB, handleNotNone, wp_bind, wp_myproc hc, wp_getProc,
    wp_walk_ge hge]
  simp

/-! ## Both kinds of kernel -/

theorem faultHandled_iff_frames (hs : FaultReady B p s) (hva : stval < maxva) :
    FaultHandled B p stval s ↔ FaultFrames B p stval s := by
  cases hB : B.selection with
  | none =>
    simp only [FaultReady, hB] at hs
    exact lazy_faultHandled_iff hB hs hva
  | paging pol =>
    simp only [FaultReady, hB] at hs
    exact paged_faultHandled_iff hB hs.1 hs.2 hva

theorem faultHandled_iff_address (hs : FaultReady B p s) (hva : maxva ≤ stval) :
    FaultHandled B p stval s ↔ FaultAddress B stval := by
  cases hB : B.selection with
  | none =>
    simp only [FaultReady, hB] at hs
    exact lazy_faultHandled_of_ge hB hs hva
  | paging pol =>
    simp only [FaultReady, hB] at hs
    simp only [FaultAddress, hB]
    exact ⟨fun h => absurd h (paged_not_faultHandled hB hs.2.cur hva),
      fun h => absurd h (Nat.not_lt.mpr hva)⟩

theorem faultAddress_of_lt (hva : stval < maxva) : FaultAddress B stval := by
  unfold FaultAddress
  cases B.selection with
  | none => exact Nat.ne_of_lt (pgrounddown_lt_maxva.mpr hva)
  | paging pol => exact hva

/-- **The faults that are handled**: the page becomes accessible, or the process that faulted, and
no other, is gone or marked for death, if and only if the address gets past `walk` and, below
`MAXVA`, the frames suffice. -/
theorem faultHandled_iff (hs : FaultReady B p s) : FaultHandled B p stval s ↔
      FaultAddress B stval ∧ (stval < maxva → FaultFrames B p stval s) := by
  rcases Nat.lt_or_ge stval maxva with hva | hva
  · rw [faultHandled_iff_frames hs hva]
    exact ⟨fun h => ⟨faultAddress_of_lt hva, fun _ => h⟩, fun h => h.2 hva⟩
  · rw [faultHandled_iff_address hs hva]
    exact ⟨fun h => ⟨h, fun hlt => absurd hlt (Nat.not_lt.mpr hva)⟩, fun h => h.1⟩

end Handled

/-! ## Concrete faults -/

/-- A process of the lazy kernel with one reserved page. -/
def lazyKernel : Kernel := sampleKernel (sampleTable [(0, pteV)]) (sampleProc 3 pgsize)

theorem lazyKernel_running : LazyRunning (sampleBuild .none) 0 lazyKernel := by
  refine ⟨rfl, by decide +kernel, by decide +kernel, ⟨fun f => ?_, fun f hf => ?_⟩, fun f hf => ?_⟩
  · have hnone : (lazyKernel.proc 0).fdsFrom 0 f = ∅ := by
      refine Finset.filter_eq_empty_iff.mpr ?_
      rintro i - ⟨-, hi⟩
      exact absurd hi (by simp [lazyKernel, sampleKernel, sampleProc, Proc.zero])
    rw [hnone]
    exact Nat.zero_le _
  · exact absurd hf (by simp [lazyKernel, sampleKernel, Kernel.zero, File.zero])
  · obtain ⟨k, hk, rfl⟩ := List.mem_map.mp hf
    have hk' := List.mem_range.mp hk
    exact samplePage_isFrame (by omega)

/-- The last address of the user space is harmless in all kernels; one of the lazy kernel may even
be far above. -/
theorem faultHandled_samples :
    FaultHandled (sampleBuild (.paging .lapa)) 0 (maxva - 1) (pagedKernel 0) ∧
      FaultHandled (sampleBuild (.paging .nfua)) 0 5000 (pagedKernel 1) ∧
      FaultHandled (sampleBuild .none) 0 (2 ^ 64 - 1) lazyKernel := by
  have hpaged : ∀ pol m, m ≤ 40 → FaultReady (sampleBuild (.paging pol)) 0 (pagedKernel m) :=
    fun _ _ hm => pagedKernel_wellFormed hm
  have hlazy : FaultReady (sampleBuild .none) 0 lazyKernel := lazyKernel_running
  refine ⟨(faultHandled_iff (hpaged _ _ (by decide))).mpr ⟨?_, fun _ => ?_⟩,
    (faultHandled_iff (hpaged _ _ (by decide))).mpr ⟨?_, fun _ => ?_⟩,
    (faultHandled_iff hlazy).mpr ⟨?_, fun h => absurd h (by decide)⟩⟩
  · show maxva - 1 < maxva
    decide
  · show hasFlag ((pagedKernel 0).ptePage 0 ((maxva - 1) / pgsize)) ptePG = true → _
    decide +kernel
  · show 5000 < maxva
    decide
  · show hasFlag ((pagedKernel 1).ptePage 0 (5000 / pgsize)) ptePG = true → _
    decide +kernel
  · show pgrounddown (2 ^ 64 - 1) ≠ maxva
    decide

/-- **A fault at `MAXVA` stops the kernel**, in all of them. -/
theorem maxva_fault_panics : (FaultReady (sampleBuild .none) 0 lazyKernel ∧
      wp (handlePageFault (sampleBuild .none) maxva) (fun _ _ => False)
        (fun e _ => e = .panic "walk") lazyKernel) ∧
    ∀ pol, FaultReady (sampleBuild (.paging pol)) 0 (pagedKernel 40) ∧
      wp (handlePageFault (sampleBuild (.paging pol)) maxva) (fun _ _ => False)
        (fun e _ => e = .panic "walk") (pagedKernel 40) := by
  refine ⟨⟨lazyKernel_running, by decide +kernel⟩, fun pol =>
    ⟨pagedKernel_wellFormed (by decide), ?_⟩⟩
  cases pol <;> decide +kernel

end Xv6Paging
