import Xv6Paging.Machine.Sample
import Xv6Paging.Memory.Logical
import Xv6Paging.Vm.Copy

/-!
# System calls and absent pages

User code that touches an absent page traps and gets the page; the kernel's own copies go through
`walkaddr`, which finds resident user pages only.  So `copyin` and `copyout` work on exactly those
ranges whose pages are all resident.
-/

namespace Xv6Paging

open StateHalt

/-- The addresses `a, …, a + len - 1` of the process `p` lie below its size in user pages: resident,
swapped out or reserved.  Different resident pages have different frames. -/
structure UserRange (B : Build) (s : Kernel) (p : Fin nproc) (a len : Nat) : Prop where
  le_sz : a + len ≤ (s.proc p).sz
  sz_le : (s.proc p).sz ≤ trapframeVa
  pages : ∀ x, a ≤ x → x < a + len →
    Resident B ((s.ptables (s.proc p).pagetable).pte (x / pgsize)) ∨
      SwappedOut ((s.ptables (s.proc p).pagetable).pte (x / pgsize)) ∨
      Reserved ((s.ptables (s.proc p).pagetable).pte (x / pgsize))
  frames : DistinctPages (s.ptables (s.proc p).pagetable) a len

/-- Every page of the range is resident. -/
def AllResident (B : Build) (s : Kernel) (p : Fin nproc) (a len : Nat) : Prop :=
  ∀ x, a ≤ x → x < a + len → Resident B ((s.ptables (s.proc p).pagetable).pte (x / pgsize))

/-- `copyin` returns 0 and the logical contents of the range, and `copyout` returns 0 and what it
was given is what the process reads afterwards. -/
def Copyable (s : Kernel) (p : Fin nproc) (a len : Nat) : Prop :=
  copyin (s.proc p).pagetable a len s =
      .ok (0, (List.range' a len).map (s.logical (s.proc p))) s ∧
    ∀ src : List UInt8, src.length = len →
      ∃ s', copyout (s.proc p).pagetable a src s = .ok 0 s' ∧
        ∀ k, k < len → s'.logical (s'.proc p) (a + k) = src.getD k 0

section Access

variable {B : Build} {s : Kernel} {p : Fin nproc} {a len : Nat}

theorem Resident.userPa {pt : PageTable} {x : Nat} (h : Resident B (pt.pte (x / pgsize)))
    (hx : x < maxva) : pt.userPa x = pte2pa (pt.pte (x / pgsize)) := by
  rw [PageTable.userPa, if_pos ⟨hx, h.valid, h.user⟩]

theorem SwappedOut.userPa {pt : PageTable} {x : Nat} (h : SwappedOut (pt.pte (x / pgsize))) :
    pt.userPa x = 0 := by
  simp [PageTable.userPa, h.notValid]

theorem Reserved.userPa {pt : PageTable} {x : Nat} (h : Reserved (pt.pte (x / pgsize))) :
    pt.userPa x = 0 := by
  have hU : hasFlag (pt.pte (x / pgsize)) pteU = false := by
    rw [← hasFlag_pteFlags _ (by decide), h]
    decide
  simp [PageTable.userPa, hU]

section

variable (h : UserRange B s p a len)
include h

theorem UserRange.lt_maxva {x : Nat} (hx : x < a + len) : x < maxva := by
  have h1 := h.le_sz
  have h2 := h.sz_le
  simp only [trapframeVa, trampolineVa, pgsize, maxva] at *
  omega

theorem UserRange.userPa_eq_zero {x : Nat} (h1 : a ≤ x)
    (h2 : x < a + len) (hn : ¬Resident B ((s.ptables (s.proc p).pagetable).pte (x / pgsize))) :
    (s.ptables (s.proc p).pagetable).userPa x = 0 := by
  rcases h.pages x h1 h2 with h | h | h
  · exact absurd h hn
  · exact h.userPa
  · exact h.userPa

theorem UserRange.partial : Partial (s.ptables (s.proc p).pagetable) a len := by
  intro x h1 h2
  by_cases hr : Resident B ((s.ptables (s.proc p).pagetable).pte (x / pgsize))
  · rw [hr.userPa (h.lt_maxva h2)]
    exact .inr ⟨hr.frame.kernbase_le, hr.frame.2.2⟩
  · exact .inl (h.userPa_eq_zero h1 h2 hr)

theorem AllResident.reachable (hr : AllResident B s p a len) :
    Reachable (s.ptables (s.proc p).pagetable) a len := by
  intro x h1 h2
  have hx := hr x h1 h2
  rw [hx.userPa (h.lt_maxva h2)]
  exact ⟨hx.frame.kernbase_le, hx.frame.2.2⟩

omit h in
theorem userByte_eq_logical {pr : Proc} {x : Nat}
    (h : Resident B ((s.ptables pr.pagetable).pte (x / pgsize))) (hx : x < maxva) :
    s.userByte pr.pagetable x = s.logical pr x := by
  rw [Kernel.userByte, h.userPa hx, s.logical_resident pr h]

theorem copyin_of_allResident (hr : AllResident B s p a len) : copyin (s.proc p).pagetable a len s =
      .ok (0, (List.range' a len).map (s.logical (s.proc p))) s := by
  have hbytes : (List.range' a len).map (s.userByte (s.proc p).pagetable) =
      (List.range' a len).map (s.logical (s.proc p)) := by
    refine List.map_congr_left fun x hx => ?_
    rw [List.mem_range'_1] at hx
    exact userByte_eq_logical (hr x hx.1 hx.2) (h.lt_maxva hx.2)
  have hrun : wp (copyin (s.proc p).pagetable a len)
      (fun ret s' => ret = (0, (List.range' a len).map (s.logical (s.proc p))) ∧ s' = s)
      (fun _ _ => False) s := by
    rw [wp_copyin (hr.reachable h), hbytes]
    exact ⟨rfl, rfl⟩
  obtain ⟨_, _, hok, rfl, rfl⟩ := wp_total hrun
  exact hok

theorem copyout_of_allResident (hr : AllResident B s p a len)
    {src : List UInt8} (hlen : src.length = len) :
    ∃ s', copyout (s.proc p).pagetable a src s = .ok 0 s' ∧
      ∀ k, k < len → s'.logical (s'.proc p) (a + k) = src.getD k 0 := by
  subst hlen
  obtain ⟨ret, s', hok, rfl, hcopy⟩ := wp_total (copyout_spec (hr.reachable h) h.frames)
  refine ⟨s', hok, fun k hk => ?_⟩
  have hproc : s'.proc = s.proc := by rw [hcopy.rest]
  have htab : s'.ptables = s.ptables := by rw [hcopy.rest]
  rw [← hcopy.bytes k hk, hproc]
  refine (userByte_eq_logical (B := B) ?_ (h.lt_maxva (by omega))).symm
  rw [htab]
  exact hr (a + k) (by omega) (by omega)

end

end Access

/-- A process whose only page has the entry `x`. -/
def onePage (x : Pte) : Kernel := sampleKernel (sampleTable [(0, x)]) (sampleProc 3 pgsize)

theorem onePage_range {sel : Selection} {x : Pte}
    (hx : Resident (sampleBuild sel) x ∨ SwappedOut x ∨ Reserved x)
    (hpte : ((onePage x).ptables (samplePage 0)).pte 0 = x) :
    UserRange (sampleBuild sel) (onePage x) 0 0 1 where
  le_sz := show 0 + 1 ≤ pgsize by decide
  sz_le := show pgsize ≤ trapframeVa by decide
  pages a _ ha := by
    obtain rfl : a = 0 := by omega
    change Resident _ (((onePage x).ptables (samplePage 0)).pte 0) ∨ _
    rwa [hpte]
  frames a b _ ha _ hb _ := by
    obtain rfl : a = 0 := by omega
    obtain rfl : b = 0 := by omega
    rfl

end Xv6Paging
