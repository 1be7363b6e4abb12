import Xv6Paging.Machine.Sample
import Xv6Paging.Proc.Trap

/-!
# Supervisor-only pages in the lazy kernel

The stack guard page, the trapframe and the trampoline are valid pages with permissions but without
`PTE_U`.  `handle_NONE` takes a valid page that `walkaddr` does not find for a reserved one, and
`walkaddr` does not find pages without `PTE_U`: a fault on a supervisor-only page maps a fresh user
page in its place.
-/

namespace Xv6Paging

open StateHalt PageTable

/-- A valid page with permissions that user code may not use. -/
def SupervisorOnly (x : Pte) : Prop :=
  hasFlag x pteV = true ∧ hasFlag x pteU = false ∧ hasFlag x (pteR ||| pteW ||| pteX) = true

/-- Supervisor-only pages of all tables keep their frame and stay out of reach of user code. -/
def Untouched (s s' : Kernel) : Prop :=
  ∀ r v, SupervisorOnly ((s.ptables r).pte v) →
    pte2pa ((s'.ptables r).pte v) = pte2pa ((s.ptables r).pte v) ∧
      hasFlag ((s'.ptables r).pte v) pteU = false

/-- The fault of the process `p` at `stval` hits a supervisor-only page. -/
def SupervisorFault (s : Kernel) (p : Fin nproc) (stval : Nat) : Prop :=
  stval < maxva ∧ SupervisorOnly ((s.ptables (s.proc p).pagetable).pte (stval / pgsize))

/-- The handler, whether it returns or the process exits in it, leaves supervisor-only pages alone;
a process that faults on one is marked killed. -/
def Protects (B : Build) (s : Kernel) (p : Fin nproc) (stval : Nat) : Prop :=
  wp (handlePageFault B stval) (fun _ s' => Untouched s s')
      (fun e s' => e = .exited → Untouched s s') s ∧
    (SupervisorFault s p stval →
      ∃ s', handlePageFault B stval s = .ok () s' ∧ (s'.proc p).killed = true)

section Guard

variable {B : Build} {s : Kernel} {p : Fin nproc} {stval : Nat}

theorem Untouched.of_ptables {s' : Kernel} (h : s'.ptables = s.ptables) : Untouched s s' := by
  rintro r v ⟨-, hU, -⟩
  rw [h]
  exact ⟨rfl, hU⟩

theorem pgrounddown_lt_maxva : pgrounddown stval < maxva ↔ stval < maxva := by
  simp only [pgrounddown, pgsize, maxva]
  omega

theorem wp_handleNone_map {Q : Unit → Kernel → Prop} {E : Halt → Kernel → Prop}
    (hB : B.selection = .none) (hc : s.cur = some p) (hva : stval < maxva)
    (hV : hasFlag ((s.ptables (s.proc p).pagetable).pte (stval / pgsize)) pteV = true)
    (hpa : (s.ptables (s.proc p).pagetable).userPa stval = 0) :
    wp (handleNone B stval) Q E s ↔
      match s.freelist with
      | [] => E (.panic "uvmalloc failure") s
      | f :: fs =>
        if f = 0 then E (.panic "uvmalloc failure") (s.takePage f fs)
        else if kernbase ≤ f ∧ f < phystop then
          Q () (s.mapFresh (s.proc p).pagetable (stval / pgsize) f fs)
        else E (.panic "kerneltrap") (s.takePage f fs) := by
  have hp : (s.ptables (s.proc p).pagetable).present (stval / pgsize) :=
    present_of_hasFlag _ hV
  have hva' := pgrounddown_lt_maxva.mpr hva
  have hp' : (s.ptables (s.proc p).pagetable).present (pgrounddown stval / pgsize) := by
    rwa [pgrounddown_div]
  have hpa' : (s.ptables (s.proc p).pagetable).userPa (pgrounddown stval) = 0 := by
    rwa [userPa_congr _ (pgrounddown_div stval)]
  have hcond : (hasFlag ((s.ptables (s.proc p).pagetable).leaf (stval / pgsize)) pteV &&
      (s.ptables (s.proc p).pagetable).userPa (pgrounddown stval) == 0) = true := by
    rw [← pte_of_present _ hp, hV, hpa']
    rfl
  simp only [handleNone, wp_bind, wp_myproc hc, if_neg (Nat.not_lt.mpr hva'.le), wp_getProc,
    wp_walk_present hva' hp', wp_readPte, wp_walkaddr, pgrounddown_div, if_pos hcond]
  rw [show pgrounddown stval = stval / pgsize * pgsize from rfl] at hva' hpa' ⊢
  rw [wp_uvmalloc_lazy hB hva' hp hpa']
  cases s.freelist with
  | nil => simp
  | cons f fs =>
    have hne : ¬stval / pgsize * pgsize + pgsize = 0 := by simp only [pgsize]; omega
    simp only [if_neg hne, if_true, wp_panic, wp_pure]

theorem wp_handleNone_kill {Q : Unit → Kernel → Prop} {E : Halt → Kernel → Prop}
    (hc : s.cur = some p) (hva : pgrounddown stval < maxva)
    (h : ¬(hasFlag ((s.ptables (s.proc p).pagetable).pte (stval / pgsize)) pteV = true ∧
      (s.ptables (s.proc p).pagetable).userPa stval = 0)) :
    wp (handleNone B stval) Q E s ↔ Q () (s.markKilled p) := by
  simp only [handleNone, wp_bind, wp_myproc hc, if_neg (Nat.not_lt.mpr hva.le), wp_getProc,
    wp_walk_false hva, pgrounddown_div]
  by_cases hp : (s.ptables (s.proc p).pagetable).present (stval / pgsize)
  · simp only [if_pos hp, wp_bind, wp_readPte, wp_walkaddr, ← pte_of_present _ hp,
      userPa_congr _ (pgrounddown_div stval)]
    rw [if_neg (by simpa [Bool.and_eq_true] using h)]
    rfl
  · simp only [if_neg hp]
    rfl

theorem handlePageFault_untouched (hB : B.selection = .none) (hc : s.cur = some p)
    (h : ¬SupervisorFault s p stval) : wp (handlePageFault B stval) (fun _ s' => Untouched s s')
      (fun e s' => e = .exited → Untouched s s') s := by
  simp only [handlePageFault, hB]
  by_cases hgt : pgrounddown stval > maxva
  · simp only [handleNone, wp_bind, wp_myproc hc, if_pos hgt]
    exact wp_mono (exit_spec hc) (fun _ _ h => h.elim)
      fun e s' he hx => .of_ptables (by rw [(he hx).rest])
  by_cases hva : pgrounddown stval < maxva
  swap
  · simp only [handleNone, wp_bind, wp_myproc hc, if_neg hgt, wp_getProc,
      wp_walk_ge (Nat.not_lt.mp hva)]
    simp
  by_cases hres : hasFlag ((s.ptables (s.proc p).pagetable).pte (stval / pgsize)) pteV = true ∧
      (s.ptables (s.proc p).pagetable).userPa stval = 0
  swap
  · rw [wp_handleNone_kill hc hva hres]
    exact .of_ptables rfl
  rw [wp_handleNone_map hB hc (pgrounddown_lt_maxva.mp hva) hres.1 hres.2]
  cases s.freelist with
  | nil => simp
  | cons f fs =>
    dsimp only
    split
    · simp
    split
    · rintro r v hv
      have hne : ¬(r = (s.proc p).pagetable ∧ v = stval / pgsize) := by
        rintro ⟨rfl, rfl⟩
        exact h ⟨pgrounddown_lt_maxva.mp hva, hv⟩
      have hpte : ((s.mapFresh (s.proc p).pagetable (stval / pgsize) f fs).ptables r).pte v =
          (s.ptables r).pte v := by
        by_cases hr : r = (s.proc p).pagetable
        · subst hr
          rw [Kernel.mapFresh_pte (present_of_hasFlag _ hres.1),
            if_neg fun hv' => hne ⟨rfl, hv'⟩]
        · rw [Kernel.mapFresh_of_ne hr]
      rw [hpte]
      exact ⟨rfl, hv.2.1⟩
    · simp

/-- A fault on a supervisor-only page makes it a user page, or stops the kernel. -/
theorem handlePageFault_breaks (hB : B.selection = .none) (hc : s.cur = some p)
    (h : SupervisorFault s p stval) :
    wp (handlePageFault B stval) (fun _ s' => ¬Untouched s s') (fun _ _ => True) s := by
  obtain ⟨hva, hsup⟩ := h
  have hpa : (s.ptables (s.proc p).pagetable).userPa stval = 0 := by
    simp [userPa, hsup.2.1]
  simp only [handlePageFault, hB]
  rw [wp_handleNone_map hB hc hva hsup.1 hpa]
  cases s.freelist with
  | nil => trivial
  | cons f fs =>
    dsimp only
    split
    · trivial
    split
    · intro hunt
      have hU := (hunt _ _ hsup).2
      rw [Kernel.mapFresh_pte (present_of_hasFlag _ hsup.1), if_pos rfl,
        hasFlag_map _ _ (by decide)] at hU
      exact absurd hU (by decide)
    · trivial

/-- **Faults on supervisor-only pages are not handled**: the page-fault handler of the lazy kernel
leaves supervisor-only pages alone and kills a process that faults on one if and only if the fault
is not on a supervisor-only page. -/
theorem handlePageFault_protects_iff (hB : B.selection = .none) (hc : s.cur = some p) :
    Protects B s p stval ↔ ¬SupervisorFault s p stval := by
  constructor
  · rintro ⟨hunt, hkill⟩ hfault
    obtain ⟨s', hok, -⟩ := hkill hfault
    have hbreak := wp_returns (handlePageFault_breaks hB hc hfault) hok
    have hkeep := wp_returns hunt hok
    exact hbreak hkeep
  · intro h
    exact ⟨handlePageFault_untouched hB hc h, fun hfault => absurd hfault h⟩

end Guard

/-- A process whose only page is the stack guard page: `uvmclear` took its `PTE_U`. -/
def guardedKernel : Kernel :=
  sampleKernel (sampleTable [(0, pa2pte (samplePage 10) ||| pteR ||| pteW ||| pteX ||| pteV)])
    (sampleProc 3 pgsize)

/-- A fault outside of the table is harmless. -/
theorem guardedKernel_protects : Protects (sampleBuild .none) guardedKernel 0 (2 * pgsize) := by
  refine (handlePageFault_protects_iff rfl rfl).mpr fun h => ?_
  have hV : hasFlag ((guardedKernel.ptables (samplePage 0)).pte 2) pteV = false := by
    decide +kernel
  have hV' : hasFlag ((guardedKernel.ptables (samplePage 0)).pte 2) pteV = true := h.2.1
  exact absurd hV' (by simp [hV])

/-- A fault on the guard page: the process is not killed, and the page becomes a user page. -/
theorem guardedKernel_breached : guardedKernel.cur = some 0 ∧ (guardedKernel.proc 0).pid > 2 ∧
    SupervisorOnly ((guardedKernel.ptables (samplePage 0)).pte 0) ∧
    ∃ s', handlePageFault (sampleBuild .none) 0 guardedKernel = .ok () s' ∧
      (s'.proc 0).killed = false ∧ hasFlag ((s'.ptables (samplePage 0)).pte 0) pteU = true ∧
      pte2pa ((s'.ptables (samplePage 0)).pte 0) ≠
        pte2pa ((guardedKernel.ptables (samplePage 0)).pte 0) := by
  refine ⟨rfl, by decide +kernel, ⟨by decide +kernel, by decide +kernel, by decide +kernel⟩, ?_⟩
  have hrun : wp (handlePageFault (sampleBuild .none) 0)
      (fun _ s' => (s'.proc 0).killed = false ∧
        hasFlag ((s'.ptables (samplePage 0)).pte 0) pteU = true ∧
        pte2pa ((s'.ptables (samplePage 0)).pte 0) ≠
          pte2pa ((guardedKernel.ptables (samplePage 0)).pte 0))
      (fun _ _ => False) guardedKernel := by
    decide +kernel
  obtain ⟨_, s', hok, h⟩ := wp_total hrun
  exact ⟨s', hok, h⟩

end Xv6Paging
