import Mathlib.Data.Finset.Basic
import Mathlib.Logic.Relation
import Xv6Paging.Logic.Trail
import Xv6Paging.Vm.Kalloc

/-!
# The free list in memory

The free pages of `kalloc.c` form a list that runs through the pages themselves: the first word of a
free page is its `r->next`.  The rest of the model keeps a list in its place.  Here the list is made
of these words, which whoever holds a page may overwrite, and any number of CPUs allocate, write and
free in any order.  The `memset` of `kalloc` comes after its critical section and that of `kfree`
before it, so both are writes to a page that is held.
-/

namespace Xv6Paging

open StateHalt Pointers
open Function (update update_of_ne update_self)

/-- `kmem.freelist`, and the first words of the pages; 0 is the null pointer. -/
structure Kmem where
  freelist : Nat
  word : Nat → Nat

namespace Kmem

/-- The critical section of `kalloc`, which returns the old `kmem.freelist`. -/
def kalloc (m : Kmem) : Kmem :=
  if m.freelist ≠ 0 then { m with freelist := m.word m.freelist } else m

/-- `kfree`, from the check on. -/
def kfree (B : Build) (pa : Nat) : EStateM Halt Kmem Unit :=
  if pa % pgsize ≠ 0 ∨ pa < B.kend ∨ pa ≥ phystop then throw (.panic "kfree")
  else modify fun m => ⟨pa, update m.word pa m.freelist⟩

def freerange (B : Build) (paStart paEnd : Nat) : EStateM Halt Kmem Unit :=
  forEach (fun k => kfree B (pgroundup paStart + k * pgsize)) 0
    ((paEnd - pgroundup paStart) / pgsize)

def kinit (B : Build) : EStateM Halt Kmem Unit := freerange B B.kend phystop

/-- Where a page points to; the list starts at the null pointer, and ends there. -/
def link (m : Kmem) (p : Nat) : Nat := if p = 0 then m.freelist else m.word p

/-- The free list is `l`. -/
structure Lists (m : Kmem) (l : List Nat) : Prop where
  trail : Trail m.link 0 l 0
  nodup : l.Nodup
  null : 0 ∉ l

variable {B : Build} {m m' : Kmem} {l : List Nat} {p : Nat}

theorem Lists.freelist (h : m.Lists l) : m.freelist = l.headD 0 := by
  cases l with
  | nil => exact h.trail
  | cons r l => exact h.trail.1

theorem Lists.kalloc (h : m.Lists l) : m.kalloc.Lists l.tail := by
  cases l with
  | nil =>
    have h0 : m.freelist = 0 := h.freelist
    simpa [Kmem.kalloc, h0] using h
  | cons r l =>
    have hr : r ≠ 0 := fun h0 => h.null (h0 ▸ List.mem_cons_self)
    have hne : ∀ {c}, c ∈ l → c ≠ 0 := by
      rintro _ hc rfl
      exact h.null (List.mem_cons_of_mem r hc)
    have hhead : m.freelist = r := h.freelist
    rw [Kmem.kalloc, hhead, if_pos hr]
    refine ⟨h.trail.2.from_head ?_ fun c hc => ?_, h.nodup.of_cons, fun h0 => hne h0 rfl⟩
    · simp [link, hr]
    · simp [link, hne hc]

theorem Lists.put (h : m.Lists l) (hp : p ∉ l) (h0 : p ≠ 0) :
    Lists ⟨p, update m.word p m.freelist⟩ (p :: l) := by
  refine ⟨⟨rfl, h.trail.from_head ?_ fun c hc => ?_⟩, List.nodup_cons.mpr ⟨hp, h.nodup⟩, ?_⟩
  · simp [link, h0]
  · have hcp : c ≠ p := by
      rintro rfl
      exact hp hc
    have hc0 : c ≠ 0 := by
      rintro rfl
      exact h.null hc
    simp [link, hc0, hcp]
  · simp [h.null, h0.symm]

theorem Lists.write (h : m.Lists l) (hp : p ∉ l) (h0 : p ≠ 0) (x : Nat) :
    Lists { m with word := update m.word p x } l := by
  refine ⟨h.trail.congr fun c hc => ?_, h.nodup, h.null⟩
  have hcp : c ≠ p := by
    rintro rfl
    exact (List.mem_cons.mp hc).elim h0 hp
  simp [link, hcp]

/-- **`kfree`** of a frame. -/
theorem kfree_frame (h : IsFrame B p) :
    kfree B p m = .ok () ⟨p, update m.word p m.freelist⟩ := by
  have hn : ¬(p % pgsize ≠ 0 ∨ p < B.kend ∨ p ≥ phystop) := by
    obtain ⟨h1, h2, h3⟩ := h
    omega
  rw [kfree, if_neg hn]
  rfl

theorem isFrame_iff : IsFrame B p ↔
    ∃ k, k < (phystop - pgroundup B.kend) / pgsize ∧ p = pgroundup B.kend + k * pgsize := by
  have := B.le_phystop
  simp only [IsFrame, pgroundup, pgsize, phystop, kernbase] at *
  constructor
  · rintro ⟨h1, h2, h3⟩
    exact ⟨(p - (B.kend + 4096 - 1) / 4096 * 4096) / 4096, by omega, by omega⟩
  · rintro ⟨k, hk, rfl⟩
    omega

/-- **`kinit`** frees every frame, once. -/
theorem kinit_spec : wp (kinit B) (fun _ m' => ∃ l, m'.Lists l ∧ ∀ p, p ∈ l ↔ IsFrame B p)
    (fun _ _ => False) ⟨0, m.word⟩ := by
  refine wp_forEach (fun k m' => ∃ l, m'.Lists l ∧
    ∀ p, p ∈ l ↔ ∃ j, j < k ∧ p = pgroundup B.kend + j * pgsize)
    ⟨[], ⟨rfl, List.nodup_nil, List.not_mem_nil⟩, by simp⟩ ?_ ?_
  · rintro k m' - hk ⟨l, hl, hmem⟩
    have hf : IsFrame B (pgroundup B.kend + k * pgsize) := isFrame_iff.mpr ⟨k, by omega, rfl⟩
    refine (wp_ok (kfree_frame hf)).mpr ⟨_, hl.put (fun hin => ?_) hf.ne_zero, fun p => ?_⟩
    · obtain ⟨j, hj, heq⟩ := (hmem _).mp hin
      simp only [pgsize] at heq
      omega
    · rw [List.mem_cons, hmem]
      constructor
      · rintro (rfl | ⟨j, hj, rfl⟩)
        · exact ⟨k, by omega, rfl⟩
        · exact ⟨j, by omega, rfl⟩
      · rintro ⟨j, hj, rfl⟩
        rcases Nat.lt_succ_iff_lt_or_eq.mp hj with hj | rfl
        · exact .inr ⟨j, hj, rfl⟩
        · exact .inl rfl
  · rintro m' ⟨l, hl, hmem⟩
    exact ⟨l, hl, fun p => by rw [hmem, isFrame_iff, Nat.zero_add]⟩

end Kmem

/-! ## Runs -/

/-- The allocator and the pages that its callers hold. -/
structure KmemSystem where
  kmem : Kmem
  held : Finset Nat

/-- The steps of the CPUs; a page is freed by a caller that holds it. -/
inductive KmemStep (B : Build) : KmemSystem → KmemSystem → Prop
  | kalloc {s} : KmemStep B s ⟨s.kmem.kalloc,
      if s.kmem.freelist = 0 then s.held else insert s.kmem.freelist s.held⟩
  | write {s} (p x : Nat) (h : p ∈ s.held) :
      KmemStep B s { s with kmem := { s.kmem with word := update s.kmem.word p x } }
  | kfree {s} {m : Kmem} (p : Nat) (h : p ∈ s.held) (hr : Kmem.kfree B p s.kmem = .ok () m) :
      KmemStep B s ⟨m, s.held.erase p⟩

/-- **Every frame is free or held, and not both.** -/
def KmemInv (B : Build) (s : KmemSystem) : Prop :=
  ∃ l, s.kmem.Lists l ∧ (∀ p, p ∈ l ↔ IsFrame B p ∧ p ∉ s.held) ∧ ∀ p ∈ s.held, IsFrame B p

variable {B : Build} {s s' : KmemSystem}

theorem KmemInv.step (h : KmemInv B s) (hstep : KmemStep B s s') : KmemInv B s' := by
  obtain ⟨l, hl, hmem, hheld⟩ := h
  cases hstep with
  | kalloc =>
    refine ⟨l.tail, hl.kalloc, ?_⟩
    cases l with
    | nil =>
      rw [if_pos (show s.kmem.freelist = 0 from hl.freelist)]
      exact ⟨hmem, hheld⟩
    | cons r l =>
      have hhead : s.kmem.freelist = r := hl.freelist
      obtain ⟨hr, hnot⟩ := (hmem r).mp List.mem_cons_self
      rw [hhead, if_neg hr.ne_zero]
      refine ⟨fun p => ?_, fun p hp => ?_⟩
      · by_cases hpr : p = r
        · subst hpr
          simp [(List.nodup_cons.mp hl.nodup).1]
        · simpa [hpr] using hmem p
      · rcases Finset.mem_insert.mp hp with rfl | hp
        · exact hr
        · exact hheld p hp
  | write p x hp =>
    have hnot : p ∉ l := fun hin => ((hmem p).mp hin).2 hp
    exact ⟨l, hl.write hnot (hheld p hp).ne_zero x, hmem, hheld⟩
  | kfree p hp hr =>
    have hf := hheld p hp
    rw [Kmem.kfree_frame hf] at hr
    cases hr
    refine ⟨p :: l, hl.put (fun hin => ((hmem p).mp hin).2 hp) hf.ne_zero, fun q => ?_,
      fun q hq => hheld q (Finset.mem_of_mem_erase hq)⟩
    rw [List.mem_cons, hmem, Finset.mem_erase]
    by_cases hqp : q = p
    · subst hqp
      simp [hf]
    · simp [hqp]

/-- **The page allocator.**  `kinit` does not panic.  In every state of every run after it, a page
that `kalloc` returns is a frame that nobody holds, and it returns 0 only when every frame is held;
a caller that frees a page it holds does not panic; and the links make up the list that the rest of
the model has for them, where `kalloc` and `kfree` return the same and leave the same list. -/
theorem kmem_refines_freelist (word : Nat → Nat) : ∃ m₀, Kmem.kinit B ⟨0, word⟩ = .ok () m₀ ∧
    ∀ s, Relation.ReflTransGen (KmemStep B) ⟨m₀, ∅⟩ s →
      (s.kmem.freelist ≠ 0 → IsFrame B s.kmem.freelist ∧ s.kmem.freelist ∉ s.held) ∧
      (s.kmem.freelist = 0 → ∀ p, IsFrame B p → p ∈ s.held) ∧
      ∃ l, s.kmem.Lists l ∧ ∀ t : Kernel, t.freelist = l →
        (∃ t', kalloc t = .ok s.kmem.freelist t' ∧ s.kmem.kalloc.Lists t'.freelist) ∧
        ∀ p ∈ s.held, ∃ m t', Kmem.kfree B p s.kmem = .ok () m ∧ kfree B p t = .ok () t' ∧
          m.Lists t'.freelist := by
  obtain ⟨⟨⟩, m₀, hrun, l₀, hl₀, hmem₀⟩ := wp_total (Kmem.kinit_spec (m := ⟨0, word⟩))
  refine ⟨m₀, hrun, fun s hs => ?_⟩
  obtain ⟨l, hl, hmem, hheld⟩ : KmemInv B s := by
    induction hs with
    | refl => exact ⟨l₀, hl₀, by simp [hmem₀], by simp⟩
    | tail _ hstep ih => exact ih.step hstep
  have hhead := hl.freelist
  refine ⟨fun hne => ?_, fun h0 p hp => ?_, l, hl, fun t ht => ⟨?_, fun p hp => ?_⟩⟩
  · cases l with
    | nil => exact absurd hhead hne
    | cons r l =>
      rw [hhead]
      exact (hmem r).mp List.mem_cons_self
  · by_contra hnot
    have hpl := (hmem p).mpr ⟨hp, hnot⟩
    cases l with
    | nil => exact absurd hpl List.not_mem_nil
    | cons r l => exact hl.null (by rw [← h0, hhead]; exact List.mem_cons_self)
  · obtain ⟨r, t', hr, hpost⟩ := wp_total (kalloc_spec (s := t))
    have hk := hl.kalloc
    rcases hpost with ⟨hnil, rfl, rfl⟩ | ⟨fs, hfs, rfl⟩
    · rw [← ht, hnil] at hhead hk
      rw [hhead]
      exact ⟨_, hr, hnil.symm ▸ hk⟩
    · rw [← ht, hfs] at hhead hk
      rw [hhead]
      exact ⟨_, hr, hk⟩
  · have hf := hheld p hp
    obtain ⟨⟨⟩, t', hr, rfl⟩ := wp_total
      ((wp_kfree_frame (Q := fun _ t' => t' = t.putPage p) hf).mpr rfl)
    refine ⟨_, _, Kmem.kfree_frame hf, hr, ?_⟩
    rw [Kernel.putPage_freelist, ht]
    exact hl.put (fun hin => ((hmem p).mp hin).2 hp) hf.ne_zero

end Xv6Paging
