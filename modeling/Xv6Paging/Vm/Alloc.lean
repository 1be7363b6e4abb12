import Xv6Paging.Vm.Replace
import Xv6Paging.Vm.Unmap

/-!
# Growing and shrinking

`uvmalloc`, `lazy_alloc` and the `growproc` of both kinds of kernel.
-/

namespace Xv6Paging

open StateHalt

/-- The `ram` slot for a new page of the running process: a free one, or that of an evicted page.
Only the paging kernels, and only a process with `pid > 2` growing its own table, look for one. -/
def uvmallocSlot (B : Build) (pagetable a : Nat) : KM (Fin maxPsycPages) :=
  match B.selection with
  | .none => pure 0
  | .paging pol => do
    let pr ← getProc (← myproc)
    if pr.pid > 2 then
      if ¬ a / pgsize < maxTotalPages then panic "process cannot be larger than 32 pages"
      else if pr.pagetable = pagetable then
        if countPages pr.ram < maxPsycPages then
          pure ((findSlot (fun d => !d.used) pr.ram).getD 0)
        else exchangePages B pol a false
      else pure 0
    else pure 0

/-- A new page of the running process is recorded in its `ram` slot. -/
def uvmallocRecord (B : Build) (pagetable a : Nat) (idx : Fin maxPsycPages) : KM Unit :=
  match B.selection with
  | .none => pure ()
  | .paging pol => do
    let p ← myproc
    let pr ← getProc p
    if pr.pid > 2 ∧ pr.pagetable = pagetable then do
      modifyProc p fun pr => admitPage pol pr idx a
      let pte ← deref (← walk pr.pagetable a false)
      writePte pte ((← readPte pte) ||| pteV)
      if pol = .scfifo ∧ findSlot (fun d => u64 d.va == a) (← getProc p).ram = none then
        panic "couldn't find page in RAM"
      else pure ()
    else pure ()

/-- The allocation of the page at `a` for `uvmalloc`, with the `ram` slot `idx`; 0 is returned after
the pages since `oldsz` are given back. -/
def uvmallocPage (B : Build) (pagetable oldsz a : Nat) (idx : Fin maxPsycPages) :
    KM (Option Nat) := do
  let mem ← kalloc
  if mem = 0 then do
    let _ ← uvmdealloc B pagetable a oldsz
    pure (some 0)
  else do
    storePage mem fun _ => 0
    if (← mappages B pagetable a pgsize mem permUser) ≠ 0 then do
      kfree B mem
      let _ ← uvmdealloc B pagetable a oldsz
      pure (some 0)
    else do
      uvmallocRecord B pagetable a idx
      pure none

/-- One page of `uvmalloc`. -/
def uvmallocRound (B : Build) (pagetable oldsz k : Nat) : KM (Option Nat) := do
  let a := oldsz + k * pgsize
  let idx ← uvmallocSlot B pagetable a
  uvmallocPage B pagetable oldsz a idx

/-- The rounds of a loop `for(a = lo; a < hi; a += PGSIZE)`. -/
def pageRounds (lo hi : Nat) : Nat := (hi - lo + (pgsize - 1)) / pgsize

/-- `uvmalloc`: the new size, or 0 on error. -/
def uvmalloc (B : Build) (pagetable oldsz newsz : Nat) : KM Nat := do
  if newsz < oldsz then pure oldsz
  else
    let oldsz := pgroundup oldsz
    pure ((← forReturn (uvmallocRound B pagetable oldsz) 0 (pageRounds oldsz newsz)).getD newsz)

/-- One page of `lazy_alloc`: its entry gets `PTE_V` and nothing else. -/
def lazyAllocRound (pagetable oldsz k : Nat) : KM (Option Int) := do
  match ← walk pagetable (oldsz + k * pgsize) true with
  | none => pure (some 0)
  | some pte => do
    writePte pte ((← readPte pte) ||| pteV)
    pure none

def lazyAlloc (pagetable oldsz newsz : Nat) : KM Int := do
  if newsz < oldsz then pure (i32 oldsz)
  else
    let oldsz := pgroundup oldsz
    pure ((← forReturn (lazyAllocRound pagetable oldsz) 0 (pageRounds oldsz newsz)).getD
      (i32 newsz))

/-- `(uint)z`. -/
def u32 (z : Int) : Nat := (z % 2 ^ 32).toNat

def lazyGrowproc (B : Build) (n : Int) : KM Int := do
  let p ← myproc
  let pr ← getProc p
  let sz := pr.sz % 2 ^ 32
  if n > 0 then do
    let r ← lazyAlloc pr.pagetable sz (u32 (sz + n))
    if u32 r = 0 then pure (-1)
    else do
      modifyProc p fun pr => { pr with sz := u32 r }
      pure 0
  else if n < 0 then do
    let r ← uvmdealloc B pr.pagetable sz (u32 (sz + n))
    modifyProc p fun pr => { pr with sz := r % 2 ^ 32 }
    pure 0
  else do
    modifyProc p fun pr => { pr with sz := sz }
    pure 0

def growproc (B : Build) (n : Int) : KM Int :=
  match B.selection with
  | .none => lazyGrowproc B n
  | .paging _ => do
    let p ← myproc
    let pr ← getProc p
    let sz := pr.sz % 2 ^ 32
    if n > 0 then do
      let r ← uvmalloc B pr.pagetable sz (u32 (sz + n))
      if r % 2 ^ 32 = 0 then pure (-1)
      else do
        modifyProc p fun pr => { pr with sz := r % 2 ^ 32 }
        pure 0
    else if n < 0 then do
      let r ← uvmdealloc B pr.pagetable sz (u32 (sz + n))
      modifyProc p fun pr => { pr with sz := r % 2 ^ 32 }
      pure 0
    else do
      modifyProc p fun pr => { pr with sz := sz }
      pure 0

/-- `sys_sbrk`: the old size as an `int` address, or -1. -/
def sysSbrk (B : Build) (n : Int) : KM Int := do
  let addr := i32 (← getProc (← myproc)).sz
  if (← growproc B n) < 0 then pure (-1) else pure addr

/-! ## Allocating a page -/

section Page

variable {B : Build} {E : Halt → Kernel → Prop} {s : Kernel} {r v oldsz : Nat}

/-- The first page `f` of the free list, zeroed. -/
def Kernel.freshPage (s : Kernel) (f : Nat) (fs : List Nat) : Kernel :=
  (s.takePage f fs).setPage f fun _ => 0

/-- `uvmalloc` may map a page at `v`. -/
structure Allocatable (B : Build) (s : Kernel) (r v : Nat) : Prop where
  frames : ∀ f ∈ s.freelist, IsFrame B f
  lt_maxva : v * pgsize < maxva
  unmapped : B.remaps (s.ptables r) v = false

/-- **The rule for one page of `uvmalloc`**: the first free page is zeroed and mapped, and then
recorded; or the free list runs out, and the pages allocated so far are given back. -/
theorem wp_uvmallocPage {idx : Fin maxPsycPages} {Q : Option Nat → Kernel → Prop}
    (hz : 0 ∉ s.freelist) (hE : ∀ msg t, ¬Allocatable B s r v → E (.panic msg) t)
    (hfail : ∀ t, (s.freelist = [] ∧ t = s) ∨ (∃ f fs u n, s.freelist = f :: fs ∧ IsFrame B f ∧
        n < (s.ptables r).missing v ∧ Grows r v n (s.freshPage f fs) u ∧ u.freelist = [] ∧
        t = u.putPage f) → wp (uvmdealloc B r (v * pgsize) oldsz) (fun _ s' => Q (some 0) s') E t)
    (hok : ∀ f fs t, s.freelist = f :: fs → kernbase ≤ f → f < phystop → v * pgsize < maxva →
      B.remaps (s.ptables r) v = false →
      Grows r v ((s.ptables r).missing v) (s.freshPage f fs) t → (t.ptables r).present v →
      wp (uvmallocRecord B r (v * pgsize) idx) (fun _ s' => Q none s') E
        (t.setPte r v (pa2pte f ||| permUser ||| pteV))) :
    wp (uvmallocPage B r oldsz (v * pgsize) idx) Q E s := by
  simp only [uvmallocPage, wp_bind]
  cases hfree : s.freelist with
  | nil =>
    rw [wp_kalloc_nil hfree, if_pos rfl, wp_bind]
    exact hfail s (.inl ⟨hfree, rfl⟩)
  | cons f fs =>
    have hf0 : f ≠ 0 := fun h => hz (by simp [hfree, h])
    rw [wp_kalloc_cons hfree, if_neg hf0, wp_bind, wp_storePage]
    split
    swap
    · rename_i hk
      refine hE _ _ fun h => hk ?_
      have := h.frames f (by simp [hfree])
      exact ⟨this.kernbase_le, this.2.2⟩
    rename_i hk
    have hz' : 0 ∉ (s.freshPage f fs).freelist := fun h =>
      hz (by rw [hfree]; exact List.mem_cons_of_mem _ h)
    rw [wp_bind]
    refine wp_mono (mappages_page_spec (s := s.freshPage f fs) hz') ?_ ?_
    · rintro ret t ⟨hv, hrem, hmap⟩
      rcases hmap with ⟨rfl, hnil, n, hn, hg⟩ | ⟨rfl, u, hg, hp, rfl⟩
      · rw [if_pos (by decide), wp_bind, wp_kfree]
        split
        · rename_i hf
          rw [wp_bind]
          exact hfail _ (.inr ⟨f, fs, t, n, hfree, hf, hn, hg, hnil, rfl⟩)
        · rename_i hf
          exact hE _ _ fun h => hf (h.frames f (by simp [hfree]))
      · rw [if_neg (by decide), wp_bind]
        exact hok f fs u hfree hk.1 hk.2 hv hrem hg hp
    · rintro e t ⟨he, hn⟩
      cases e with
      | exited => exact absurd rfl he
      | panic msg =>
        refine hE msg t fun h => ?_
        rcases hn with hn | hn
        · exact absurd h.lt_maxva (Nat.not_lt.mpr hn)
        · have hun := h.unmapped
          change B.remaps (s.ptables r) v = true at hn
          simp [hun] at hn

end Page

/-! ## A page of the lazy kernel -/

section LazyPage

variable {B : Build} {E : Halt → Kernel → Prop} {s : Kernel} {r v : Nat}

theorem pgroundup_page (hv : v * pgsize < maxva) : pgroundup (v * pgsize) = v * pgsize := by
  refine pgroundup_mul ?_
  simp only [pgsize, maxva] at hv
  omega

theorem pageRounds_page : pageRounds (v * pgsize) (v * pgsize + pgsize) = 1 := by
  simp only [pageRounds, pgsize]
  omega

/-- The state after the first free page `f` was zeroed and mapped at the page `v`. -/
def Kernel.mapFresh (s : Kernel) (r v f : Nat) (fs : List Nat) : Kernel :=
  ((s.takePage f fs).setPage f fun _ => 0).setPte r v (pa2pte f ||| permUser ||| pteV)

theorem Kernel.mapFresh_pte {f : Nat} {fs : List Nat} (hp : (s.ptables r).present v) (w : Nat) :
    ((s.mapFresh r v f fs).ptables r).pte w =
      if w = v then pa2pte f ||| permUser ||| pteV else (s.ptables r).pte w := by
  rw [Kernel.mapFresh, Kernel.setPte_self]
  exact PageTable.pte_setLeaf _ hp w

theorem Kernel.mapFresh_of_ne {f : Nat} {fs : List Nat} {r' : Nat} (h : r' ≠ r) :
    (s.mapFresh r v f fs).ptables r' = s.ptables r' := by
  rw [Kernel.mapFresh, Kernel.setPte_of_ne _ _ _ h]
  rfl

theorem wp_mappages_lazy {Q : Int → Kernel → Prop} {f : Nat} {perm : Pte}
    (hB : B.selection = .none) (hv : v * pgsize < maxva) (hp : (s.ptables r).present v)
    (hpa : (s.ptables r).userPa (v * pgsize) = 0) :
    wp (mappages B r (v * pgsize) pgsize f perm) Q E s ↔
      Q 0 (s.setPte r v (pa2pte f ||| perm ||| pteV)) := by
  have hp' : (s.ptables r).present (v * pgsize / pgsize) := by rwa [page_div]
  simp only [mappages, hB, mappagesNone, wp_bind, mappagesRounds_page, wp_forReturn_one,
    mappagesNoneRound, pgrounddown_page, Nat.zero_mul, Nat.add_zero, wp_walk_present hv hp',
    wp_readPte, wp_walkaddr, hpa, bne_self_eq_false, Bool.and_false, Bool.false_eq_true, if_false,
    wp_writePte, wp_pure, page_div, Option.getD_none]

/-- **`uvmalloc` of one page in the lazy kernel** maps the first free page there, whatever the
entry says about permissions. -/
theorem wp_uvmalloc_lazy {Q : Nat → Kernel → Prop} (hB : B.selection = .none)
    (hv : v * pgsize < maxva) (hp : (s.ptables r).present v)
    (hpa : (s.ptables r).userPa (v * pgsize) = 0) :
    wp (uvmalloc B r (v * pgsize) (v * pgsize + pgsize)) Q E s ↔
      match s.freelist with
      | [] => Q 0 s
      | f :: fs =>
        if f = 0 then Q 0 (s.takePage f fs)
        else if kernbase ≤ f ∧ f < phystop then Q (v * pgsize + pgsize) (s.mapFresh r v f fs)
        else E (.panic "kerneltrap") (s.takePage f fs) := by
  have hge : ¬v * pgsize + pgsize < v * pgsize := by omega
  simp only [uvmalloc, if_neg hge, pgroundup_page hv, pageRounds_page, wp_bind, wp_forReturn_one,
    uvmallocRound, uvmallocSlot, uvmallocPage, hB, wp_pure, Nat.zero_mul, Nat.add_zero]
  cases hfree : s.freelist with
  | nil =>
    rw [wp_kalloc_nil hfree]
    simp [uvmdealloc]
  | cons f fs =>
    rw [wp_kalloc_cons hfree]
    by_cases hf : f = 0
    · simp [hf, uvmdealloc]
    · simp only [if_neg hf, wp_bind, wp_storePage]
      by_cases hk : kernbase ≤ f ∧ f < phystop
      · simp only [if_pos hk]
        rw [wp_mappages_lazy (s := (s.takePage f fs).setPage f fun _ => 0) hB hv hp hpa]
        simp only [ne_eq, not_true_eq_false, if_false, uvmallocRecord, hB, wp_bind, wp_pure,
          Option.getD_none]
        rfl
      · simp only [if_neg hk]

end LazyPage

end Xv6Paging
