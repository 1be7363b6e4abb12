import Xv6Paging.Proc.Birth
import Xv6Paging.Vm.Clone

/-!
# Freeing a process

`uvmunmap_not_NONE` keeps the `ram` and `swap` arrays in step with the page table by emptying the
slots that record the address of an unmapped page.  It looks for these slots in the running process,
whatever table it was given.  When a process frees another one, the table belongs to the other
process and the slots to the running one.
-/

namespace Xv6Paging

open StateHalt

/-! ## Freeing a process -/

section Free

variable {B : Build} {pol : Policy} {s : Kernel} {p np : Fin nproc} {r sz : Nat}

/-- **`proc_freepagetable`**, run by the process `p`: `p` forgets as many of its first pages as the
table has. -/
theorem procFreepagetable_frame (hB : B.selection = .paging pol) (hc : s.cur = some p)
    (hint : (s.proc p).IntVas) : wp (procFreepagetable B r sz)
      (fun _ s' => OnTable r s s' ∧ s'.proc = s.forgetPages p 0 (pagesOf sz)) Panics s := by
  simp only [procFreepagetable, wp_bind]
  -- the two pages on top are in no slot
  have htop : ∀ (t : Kernel) (v : Nat), t.proc = s.proc → 2 ^ 19 ≤ v → v + 1 ≤ 2 ^ 51 →
      t.forgetPages p v 1 = s.proc := by
    intro t v ht hv hv'
    rw [Kernel.forgetPages, ht, Proc.forgetPages_high hint hv hv', Function.update_eq_self]
  have h1 := @uvmunmap_frame B s p r trampolinePage 1 false pol hB hc
  rw [show trampolinePage * pgsize = trampolineVa by decide] at h1
  refine wp_post h1 fun _ t ht => ?_
  have htp : t.proc = s.proc := ht.2.trans (htop s _ rfl (by decide) (by decide))
  have h2 := @uvmunmap_frame B t p r trapframePage 1 false pol hB (ht.1.cur_eq.trans hc)
  rw [show trapframePage * pgsize = trapframeVa by decide] at h2
  refine wp_post h2 fun _ u hu => ?_
  have hup : u.proc = s.proc := hu.2.trans (htop t _ htp (by decide) (by decide))
  have huc : u.cur = some p := hu.1.cur_eq.trans (ht.1.cur_eq.trans hc)
  refine wp_post (uvmfree_frame hB huc) fun _ w hw => ?_
  refine ⟨(ht.1.trans hu.1).trans hw.1, ?_⟩
  rw [hw.2, Kernel.forgetPages, Kernel.forgetPages, hup]

/-- What `freeproc np`, run by the process `p`, does to the processes. -/
structure Freed (B : Build) (p np : Fin nproc) (s s' : Kernel) : Prop where
  onTable : OnTable (s.proc np).pagetable s s'
  self : s'.proc p = if (s.proc np).pagetable = 0 then s.proc p
    else (s.proc p).forgetPages 0 (pagesOf (s.proc np).sz)
  freed : s'.proc np = (({ s.proc np with trapframe := 0 } : Proc).clearSlots B).reset
  others : ∀ i, i ≠ p → i ≠ np → s'.proc i = s.proc i

/-- **`freeproc`**, run by another process. -/
theorem freeproc_frame (hB : B.selection = .paging pol) (hc : s.cur = some p) (hne : np ≠ p)
    (hint : (s.proc p).IntVas) : wp (freeproc B np) (fun _ s' => Freed B p np s s') Panics s := by
  simp only [freeproc, wp_bind, wp_getProc]
  -- the trapframe goes first; processes and tables stay as they are
  have htf : wp (onlyIf ((s.proc np).trapframe ≠ 0) (kfree B (s.proc np).trapframe))
      (fun _ t => OnTable (s.proc np).pagetable s t ∧ t.proc = s.proc) Panics s :=
    wp_onlyIf (fun _ => kfree_frame) fun _ => ⟨.refl _ s, rfl⟩
  refine wp_post htf fun _ t ht => ?_
  rw [wp_modifyProc]
  have htp := ht.2
  have hset : OnTable (s.proc np).pagetable s
      (t.setProc np { t.proc np with trapframe := 0 }) := ht.1.trans (.setProc _ t _ _)
  have hset_p : (t.setProc np { t.proc np with trapframe := 0 }).proc p = s.proc p := by
    rw [Kernel.setProc_of_ne _ _ hne.symm, htp]
  -- then the table, with the slots of `p`
  have htab : wp (onlyIf ((s.proc np).pagetable ≠ 0)
        (procFreepagetable B (s.proc np).pagetable (s.proc np).sz))
      (fun _ u => OnTable (s.proc np).pagetable s u ∧
        u.proc p = (if (s.proc np).pagetable = 0 then s.proc p
          else (s.proc p).forgetPages 0 (pagesOf (s.proc np).sz)) ∧
        u.proc np = { s.proc np with trapframe := 0 } ∧
        ∀ i, i ≠ p → i ≠ np → u.proc i = s.proc i) Panics
      (t.setProc np { t.proc np with trapframe := 0 }) := by
    refine wp_onlyIf (fun h => ?_) fun h => ?_
    · refine wp_post (procFreepagetable_frame hB (hset.cur_eq.trans hc) (by rwa [hset_p]))
        fun _ u hu => ⟨hset.trans hu.1, ?_, ?_, fun i hi hi' => ?_⟩
      · rw [hu.2, Kernel.forgetPages, Function.update_self, hset_p, if_neg h]
      · rw [hu.2, Kernel.forgetPages, Function.update_of_ne hne, Kernel.setProc_self, htp]
      · rw [hu.2, Kernel.forgetPages, Function.update_of_ne hi, Kernel.setProc_of_ne _ _ hi', htp]
    · refine ⟨hset, ?_, ?_, fun i hi hi' => ?_⟩
      · rw [hset_p, if_pos (not_not.mp h)]
      · rw [Kernel.setProc_self, htp]
      · rw [Kernel.setProc_of_ne _ _ hi', htp]
  refine wp_post htab fun _ u hu => ?_
  obtain ⟨hon, hself, hnp, hoth⟩ := hu
  rw [wp_modifyProc, wp_modifyProc]
  refine ⟨(hon.trans (.setProc _ u _ _)).trans (.setProc _ _ _ _), ?_, ?_, fun i hi hi' => ?_⟩
  · rw [Kernel.setProc_of_ne _ _ hne.symm, Kernel.setProc_of_ne _ _ hne.symm, hself]
  · rw [Kernel.setProc_self, Kernel.setProc_self, hnp]
  · rw [Kernel.setProc_of_ne _ _ hi', Kernel.setProc_of_ne _ _ hi', hoth i hi hi']

end Free

end Xv6Paging
