import Xv6Paging.Machine.PageTable

/-!
# The page allocator

`kalloc.c`: `kmem.freelist` links the free pages; `kalloc` takes the first and fills it with
junk, `kfree` checks the address, fills the page with other junk and puts it in front.
-/

namespace Xv6Paging

variable {B : Build} {f : Nat}

open StateHalt

/-- `kalloc`; 0 when no page is free. -/
def kalloc : KM Nat := do
  match (← get).freelist with
  | [] => pure 0
  | r :: next => do
    modify fun s => { s with
      freelist := next
      mem := Function.update s.mem r fun _ => 5 }
    pure r

def kfree (B : Build) (pa : Nat) : KM Unit :=
  if pa % pgsize ≠ 0 ∨ pa < B.kend ∨ pa ≥ phystop then panic "kfree"
  else modify fun s => { s with
    freelist := pa :: s.freelist
    mem := Function.update s.mem pa fun _ => 1 }

/-! ## Specifications -/

/-- The pages that the allocator manages: those `kfree` accepts. -/
def IsFrame (B : Build) (f : Nat) : Prop := f % pgsize = 0 ∧ B.kend ≤ f ∧ f < phystop

instance (B : Build) (f : Nat) : Decidable (IsFrame B f) := inferInstanceAs (Decidable (_ ∧ _))

theorem IsFrame.ne_zero (h : IsFrame B f) : f ≠ 0 := by
  have h1 := h.2.1
  have h2 := B.kernbase_le
  have h3 := B.trampoline_le
  have h4 := B.etext_le
  simp only [kernbase, pgsize] at h2 h3
  omega

theorem IsFrame.kernbase_le {B : Build} {f : Nat} (h : IsFrame B f) : kernbase ≤ f := by
  have h1 := h.2.1
  have h2 := B.kernbase_le
  have h3 := B.trampoline_le
  have h4 := B.etext_le
  omega

theorem IsFrame.lt_two_pow {B : Build} {f : Nat} (h : IsFrame B f) : f < 2 ^ 56 := by
  have h1 := h.2.2
  simp only [phystop, kernbase] at h1
  omega

theorem IsFrame.pte2pa_map {B : Build} {f : Nat} (h : IsFrame B f) {perm : Pte}
    (hp : perm.toNat < 2 ^ 10) : pte2pa (pa2pte f ||| perm ||| pteV) = f :=
  Xv6Paging.pte2pa_map h.1 h.lt_two_pow hp

namespace Kernel

/-- The first page `f` is taken off the free list `f :: fs`. -/
def takePage (s : Kernel) (f : Nat) (fs : List Nat) : Kernel :=
  { s with freelist := fs, mem := Function.update s.mem f fun _ => 5 }

/-- The page `f` is put on the free list. -/
def putPage (s : Kernel) (f : Nat) : Kernel :=
  { s with freelist := f :: s.freelist, mem := Function.update s.mem f fun _ => 1 }

@[simp] theorem takePage_freelist (s : Kernel) (f : Nat) (fs : List Nat) :
    (s.takePage f fs).freelist = fs := rfl
@[simp] theorem takePage_ptables (s : Kernel) (f : Nat) (fs : List Nat) :
    (s.takePage f fs).ptables = s.ptables := rfl
@[simp] theorem takePage_proc (s : Kernel) (f : Nat) (fs : List Nat) :
    (s.takePage f fs).proc = s.proc := rfl
@[simp] theorem takePage_cur (s : Kernel) (f : Nat) (fs : List Nat) :
    (s.takePage f fs).cur = s.cur := rfl

@[simp] theorem putPage_freelist (s : Kernel) (f : Nat) :
    (s.putPage f).freelist = f :: s.freelist := rfl
@[simp] theorem putPage_ptables (s : Kernel) (f : Nat) : (s.putPage f).ptables = s.ptables := rfl
@[simp] theorem putPage_proc (s : Kernel) (f : Nat) : (s.putPage f).proc = s.proc := rfl
@[simp] theorem putPage_cur (s : Kernel) (f : Nat) : (s.putPage f).cur = s.cur := rfl

end Kernel

section Specs

variable {B : Build} {s : Kernel} {f : Nat} {fs : List Nat} {E : Halt → Kernel → Prop}

theorem wp_kalloc_nil {Q : Nat → Kernel → Prop} (h : s.freelist = []) :
    wp kalloc Q E s ↔ Q 0 s := by
  simp only [kalloc, wp_bind, wp_get, h, wp_pure]

theorem wp_kalloc_cons {Q : Nat → Kernel → Prop} (h : s.freelist = f :: fs) :
    wp kalloc Q E s ↔ Q f (s.takePage f fs) := by
  simp only [kalloc, wp_bind, wp_get, h, wp_pure, wp_modify]
  rfl

/-- **`kalloc`** takes the first free page, or returns 0. -/
theorem kalloc_spec : wp kalloc (fun r s' => (s.freelist = [] ∧ r = 0 ∧ s' = s) ∨
    ∃ fs, s.freelist = r :: fs ∧ s' = s.takePage r fs) E s := by
  cases h : s.freelist with
  | nil => exact (wp_kalloc_nil h).mpr (.inl ⟨rfl, rfl, rfl⟩)
  | cons r fs => exact (wp_kalloc_cons h).mpr (.inr ⟨fs, rfl, rfl⟩)

/-- `kalloc` returned `pa`: the first page of the free list, or 0 if there is none. -/
structure Took (pa : Nat) (s t : Kernel) : Prop where
  freelist : (s.freelist = [] ∧ pa = 0 ∧ t.freelist = []) ∨ s.freelist = pa :: t.freelist
  mem : ∀ q, q ≠ pa → t.mem q = s.mem q
  rest : t = { s with freelist := t.freelist, mem := t.mem }

theorem kalloc_took : wp kalloc (fun pa t => Took pa s t) E s := by
  refine wp_post kalloc_spec fun pa t h => ?_
  rcases h with ⟨hnil, rfl, rfl⟩ | ⟨fs, hfs, rfl⟩
  · exact ⟨.inl ⟨hnil, rfl, hnil⟩, fun _ _ => rfl, rfl⟩
  · exact ⟨.inr hfs, fun q hq => by simp [Kernel.takePage, hq], rfl⟩

/-- **`kfree`** puts a frame on the free list, and panics on any other address. -/
theorem wp_kfree {Q : Unit → Kernel → Prop} :
    wp (kfree B f) Q E s ↔ if IsFrame B f then Q () (s.putPage f) else E (.panic "kfree") s := by
  by_cases h : IsFrame B f
  · have hn : ¬(f % pgsize ≠ 0 ∨ f < B.kend ∨ f ≥ phystop) := by
      rintro (h' | h' | h')
      · exact h' h.1
      · exact absurd h.2.1 (Nat.not_le.mpr h')
      · exact absurd h.2.2 (Nat.not_lt.mpr h')
    rw [kfree, if_neg hn, if_pos h]
    rfl
  · have hn : f % pgsize ≠ 0 ∨ f < B.kend ∨ f ≥ phystop := by
      by_contra hn
      simp only [not_or, Decidable.not_not, Nat.not_lt, ge_iff_le, Nat.not_le] at hn
      exact h hn
    rw [kfree, if_pos hn, if_neg h]
    rfl

theorem wp_kfree_frame {Q : Unit → Kernel → Prop} (h : IsFrame B f) :
    wp (kfree B f) Q E s ↔ Q () (s.putPage f) := by
  rw [wp_kfree, if_pos h]

end Specs

end Xv6Paging
