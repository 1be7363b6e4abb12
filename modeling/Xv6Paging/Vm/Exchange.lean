import Xv6Paging.Vm.Victim

/-!
# Moving pages between memory and the swap file

What `swapfile_to_ram`, `swap_pages`, `exchange_pages` and `swap` do to the state.  Every
specification says what holds if the function returns, and what must have been missing if it
panicked.
-/

namespace Xv6Paging

open StateHalt Kernel
open Function (update update_of_ne update_self)

/-- The entry that `swapfile_to_ram` leaves for a page in the frame `pa`. -/
def swapInPte (pa : Nat) : Pte := (pa2pte pa ||| permUser ||| pteV) &&& ~~~ptePG

/-- The process after the page `v` moved from the swap slot `j` to the `ram` slot `k`. -/
def Proc.swapIn (pr : Proc) (pol : Policy) (k : Fin maxPsycPages) (v : Nat)
    (j : Fin maxPsycPages) : Proc :=
  { admitPage pol pr k (v * pgsize) with swap := update pr.swap j .removed }

/-- The process after the page at `va` moved to the swap slot `j`. -/
def Proc.swapOut (pr : Proc) (va : Int) (j : Fin maxPsycPages) : Proc :=
  { pr with
    swap := update pr.swap j
      { pr.swap j with va := va, offset := j * pgsize, used := true } }

/-- The page `v` of the process `p` was read from its swap slot `j` into the frame `pa`, which was
the first on the free list, and entered the `ram` slot `k`. -/
structure SwappedIn (pol : Policy) (p : Fin nproc) (k : Fin maxPsycPages) (v : Nat)
    (j : Fin maxPsycPages) (pa : Nat) (s s' : Kernel) : Prop where
  found : findSlot (fun d => u64 d.va == v * pgsize) (s.proc p).swap = some j
  absent : hasFlag ((s.ptables (s.proc p).pagetable).pte v) pteV = false
  freelist : (s.freelist = [] ∧ pa = 0 ∧ s'.freelist = []) ∨ s.freelist = pa :: s'.freelist
  ptables : s'.ptables = (s.setPte (s.proc p).pagetable v (swapInPte pa)).ptables
  proc : s'.proc = update s.proc p ((s.proc p).swapIn pol k v j)
  mem : ∀ q, q ≠ pa → s'.mem q = s.mem q
  bytes : ∀ f, HasSwapFile s (s.proc p) f →
    (j + 1) * pgsize ≤ (s.inode (s.ftable f).ip).size → (kernbase ≤ pa ∧ pa < phystop) ∧
      s'.mem pa = fun k => (s.inode (s.ftable f).ip).data (j * pgsize + k.val)
  file : ∀ f, s'.ftable f = { s.ftable f with off := (s'.ftable f).off }
  rest : s' = { s with
    freelist := s'.freelist, mem := s'.mem, ptables := s'.ptables, proc := s'.proc
    ftable := s'.ftable }

/-- The page `v` can be read from its swap slot. -/
def CanSwapIn (p : Fin nproc) (v : Nat) (s : Kernel) : Prop :=
  ∃ j f pa fs, findSlot (fun d => u64 d.va == v * pgsize) (s.proc p).swap = some j ∧
    hasFlag ((s.ptables (s.proc p).pagetable).pte v) pteV = false ∧
    HasSwapFile s (s.proc p) f ∧ (j + 1) * pgsize ≤ (s.inode (s.ftable f).ip).size ∧
    s.freelist = pa :: fs ∧ kernbase ≤ pa ∧ pa < phystop

/-- The page `v` of the process `p`, recorded as `va`, was written to the swap slot `j` and its
frame freed; the page `page` was the buffer. -/
structure Evicted (B : Build) (p : Fin nproc) (v : Nat) (va : Int) (j : Fin maxPsycPages)
    (page : Nat) (s s' : Kernel) : Prop where
  buffer : ∃ fs, s.freelist = page :: fs
  frame : IsFrame B (pte2pa ((s.ptables (s.proc p).pagetable).pte v))
  freelist : s'.freelist = pte2pa ((s.ptables (s.proc p).pagetable).pte v) :: s.freelist
  ptables : s'.ptables = (s.setPte (s.proc p).pagetable v
    ((s.ptables (s.proc p).pagetable).pte v ||| ptePG)).ptables
  proc : s'.proc = update s.proc p ((s.proc p).swapOut va j)
  mem : ∀ q, q ≠ page → q ≠ pte2pa ((s.ptables (s.proc p).pagetable).pte v) →
    s'.mem q = s.mem q
  inode : ∀ f, HasSwapFile s (s.proc p) f → j * pgsize ≤ (s.inode (s.ftable f).ip).size →
    pte2pa ((s.ptables (s.proc p).pagetable).pte v) ≠ page →
    s'.inode = update s.inode (s.ftable f).ip ((s.inode (s.ftable f).ip).storeSlot j
      (s.mem (pte2pa ((s.ptables (s.proc p).pagetable).pte v))))
  file : ∀ f, s'.ftable f = { s.ftable f with off := (s'.ftable f).off }
  rest : s' = { s with
    freelist := s'.freelist, mem := s'.mem, ptables := s'.ptables, proc := s'.proc
    ftable := s'.ftable, inode := s'.inode }

/-- The page `v` can be written to the swap slot `j`. -/
def CanEvict (B : Build) (p : Fin nproc) (v : Nat) (j : Fin maxPsycPages) (s : Kernel) : Prop :=
  ∃ f page fs, HasSwapFile s (s.proc p) f ∧ j * pgsize ≤ (s.inode (s.ftable f).ip).size ∧
    s.freelist = page :: fs ∧ IsFrame B page ∧
    IsFrame B (pte2pa ((s.ptables (s.proc p).pagetable).pte v))

section SwapIn

variable {s : Kernel} {p : Fin nproc} {k : Fin maxPsycPages} {v : Nat} {pol : Policy}

/-- **`swapfile_to_ram`.** -/
theorem swapfileToRam_spec (hc : s.cur = some p) (hv : v * pgsize < maxva)
    (hp : (s.ptables (s.proc p).pagetable).present v) :
    wp (swapfileToRam pol (v * pgsize) (some ⟨(s.proc p).pagetable, v⟩) k)
      (fun j s' => ∃ pa, SwappedIn pol p k v j pa s s')
      (fun e _ => e ≠ .exited ∧ ¬CanSwapIn p v s) s := by
  simp only [swapfileToRam, wp_bind, wp_myproc hc, wp_getProc]
  cases hj : findSlot (fun d => u64 d.va == v * pgsize) (s.proc p).swap with
  | none =>
    refine ⟨by simp, ?_⟩
    rintro ⟨j, _, _, _, h, _⟩
    simp [hj] at h
  | some j =>
    simp only [wp_bind]
    refine wp_post kalloc_took fun pa t ht => ?_
    have htp : t.proc = s.proc := by rw [ht.rest]
    have hti : t.inode = s.inode := by rw [ht.rest]
    have htf : t.ftable = s.ftable := by rw [ht.rest]
    have htt : t.ptables = s.ptables := by rw [ht.rest]
    have hfile : ∀ f, HasSwapFile s (s.proc p) f → HasSwapFile t (t.proc p) f := fun f h => by
      rw [htp]
      exact ⟨h.file, htf ▸ h.type, htf ▸ h.readable, htf ▸ h.writable⟩
    -- what a successful swap-in needs names the frame that `kalloc` returned
    have hcan : CanSwapIn p v s → ∃ f, HasSwapFile s (s.proc p) f ∧
        (j + 1) * pgsize ≤ (s.inode (s.ftable f).ip).size ∧ (kernbase ≤ pa ∧ pa < phystop) ∧
        hasFlag ((s.ptables (s.proc p).pagetable).pte v) pteV = false := by
      rintro ⟨j', f, pa', fs, hj', habs, hf, hsize, hfree, hk⟩
      obtain rfl : j = j' := by simpa [hj] using hj'
      refine ⟨f, hf, hsize, ?_, habs⟩
      rcases ht.freelist with ⟨hnil, -, -⟩ | hcons
      · simp [hnil] at hfree
      · rw [hcons] at hfree
        simp only [List.cons.injEq] at hfree
        rw [hfree.1]
        exact hk
    refine wp_mono readFromSwapFile_spec ?_ ?_
    · rintro ret u ⟨hio, hino, hmem, hread⟩
      refine wp_ite (fun hret => ?_) fun hret => ?_
      · refine ⟨by simp, fun h => ?_⟩
        obtain ⟨f, hf, hsize, -⟩ := hcan h
        have := (hread f (hfile f hf) (by rwa [hti, htf])).1
        omega
      have hup : u.proc = s.proc := by rw [hio.rest, ← htp]
      have hut : u.ptables = s.ptables := by rw [hio.rest, ← htt]
      have hr : (admitPage pol (u.proc p) k (v * pgsize)).pagetable = (s.proc p).pagetable := by
        rw [hup]
        rfl
      simp only [wp_bind, wp_modifyProc, wp_getProc, setProc_self, hr]
      rw [wp_mappage_present (s := u.setProc p _) hv (by rwa [setProc_ptables, hut]),
        setProc_ptables, hut]
      split
      · rename_i hV
        refine ⟨by simp, fun h => ?_⟩
        obtain ⟨f, -, -, -, habs⟩ := hcan h
        simp [habs] at hV
      rename_i hV
      simp only [ne_eq, not_true_eq_false, if_false, wp_bind, wp_deref_some, wp_readPte,
        wp_writePte, wp_modifyProc, wp_pure, setPte_self, PageTable.leaf_setLeaf,
        setPte_setPte, setPte_proc, setProc_self]
      refine ⟨pa, hj, by simpa using hV, ?_, ?_, ?_, ?_, ?_, ?_, ?_⟩
      · have huf : u.freelist = t.freelist := by rw [hio.rest]
        show (s.freelist = [] ∧ pa = 0 ∧ u.freelist = []) ∨ s.freelist = pa :: u.freelist
        rw [huf]
        exact ht.freelist
      · show (((u.setProc p _).setPte _ v _)).ptables = _
        simp only [setPte, setTable, setProc_ptables, hut]
        rfl
      · show update (update u.proc p _) p _ = _
        rw [Function.update_idem, hup]
        rfl
      · intro q hq
        show u.mem q = _
        rw [hmem q hq, ht.mem q hq]
      · intro f hf hsize
        obtain ⟨-, hk, hbytes⟩ := hread f (hfile f hf) (by rwa [hti, htf])
        refine ⟨hk, ?_⟩
        show u.mem pa = _
        rw [hbytes, hti, htf]
      · intro f
        show u.ftable f = _
        rw [hio.file f, htf]
        rfl
      · have hrest : u = { s with freelist := u.freelist, mem := u.mem, ftable := u.ftable } := by
          rw [hio.rest, hino, ht.rest]
        refine Kernel.ext rfl rfl rfl rfl ?_ ?_ ?_ ?_ ?_ rfl ?_ ?_ ?_
        all_goals
          simp only [setProc, setPte, setTable]
          rw [hrest]
    · rintro e u ⟨he, hk⟩
      refine ⟨he, fun h => ?_⟩
      obtain ⟨f, hf, -, hpa, -⟩ := hcan h
      exact hk f (hfile f hf) hpa

end SwapIn

section Evict

variable {B : Build} {s : Kernel} {p : Fin nproc} {v : Nat} {va : Int} {j : Fin maxPsycPages}

/-- **The eviction of a page**, the second half of `swap_pages`. -/
theorem evictPage_spec (hva : u64 va = v * pgsize) (hv : v * pgsize < maxva)
    (hp : (s.ptables (s.proc p).pagetable).present v) :
    wp (evictPage B p va j) (fun _ s' => ∃ page, Evicted B p v va j page s s')
      (fun e _ => e ≠ .exited ∧ ¬CanEvict B p v j s) s := by
  simp only [evictPage, wp_bind]
  refine wp_post kalloc_took fun page t ht => ?_
  have htp : t.proc = s.proc := by rw [ht.rest]
  have hti : t.inode = s.inode := by rw [ht.rest]
  have htf : t.ftable = s.ftable := by rw [ht.rest]
  have htt : t.ptables = s.ptables := by rw [ht.rest]
  have hcan : CanEvict B p v j s → ∃ f, HasSwapFile s (s.proc p) f ∧
      j * pgsize ≤ (s.inode (s.ftable f).ip).size ∧ IsFrame B page ∧
      IsFrame B (pte2pa ((s.ptables (s.proc p).pagetable).pte v)) := by
    rintro ⟨f, page', fs, hf, hsize, hfree, hpage, hold⟩
    refine ⟨f, hf, hsize, ?_, hold⟩
    rcases ht.freelist with ⟨hnil, -, -⟩ | hcons
    · simp [hnil] at hfree
    · rw [hcons] at hfree
      simp only [List.cons.injEq] at hfree
      rwa [hfree.1]
  have hp' : (t.ptables (s.proc p).pagetable).present (v * pgsize / pgsize) := by
    rwa [htt, page_div]
  simp only [wp_getProc, hva, htp]
  rw [wp_walk_present hv hp']
  simp only [wp_deref_some, wp_readPte, page_div, htt, ← PageTable.pte_of_present _ hp, wp_loadPage,
    wp_storePage]
  generalize hx : (s.ptables (s.proc p).pagetable).pte v = x at *
  -- both the old frame and the buffer have to be mapped by the kernel
  split
  swap
  · rename_i hk
    refine ⟨by simp, fun h => ?_⟩
    obtain ⟨f, -, -, -, hold⟩ := hcan h
    exact hk ⟨hold.kernbase_le, hold.2.2⟩
  split
  swap
  · rename_i hk
    refine ⟨by simp, fun h => ?_⟩
    obtain ⟨f, -, -, hpage, -⟩ := hcan h
    exact hk ⟨hpage.kernbase_le, hpage.2.2⟩
  have hfile : ∀ f, HasSwapFile s (s.proc p) f → HasSwapFile (t.setPage page (t.mem (pte2pa x)))
      ((t.setPage page (t.mem (pte2pa x))).proc p) f := fun f h => by
    rw [setPage_proc, htp]
    exact ⟨h.file, by simpa [setPage, htf] using h.type,
      by simpa [setPage, htf] using h.readable, by simpa [setPage, htf] using h.writable⟩
  refine wp_mono writeToSwapFile_spec ?_ ?_
  swap
  · rintro e u ⟨he, hk⟩
    refine ⟨he, fun h => ?_⟩
    obtain ⟨f, hf, -, hpage, -⟩ := hcan h
    exact hk f (hfile f hf) ⟨hpage.kernbase_le, hpage.2.2⟩
  rintro ret u ⟨hio, hmem, hwrite⟩
  have hup : u.proc = s.proc := by rw [hio.rest, ← htp]; rfl
  have hut : u.ptables = s.ptables := by rw [hio.rest, ← htt]; rfl
  have hleaf : (u.ptables (s.proc p).pagetable).leaf v = x := by
    rw [hut, ← PageTable.pte_of_present _ hp, hx]
  refine wp_ite (fun hret => ⟨by simp, fun h => ?_⟩) fun hret => ?_
  · obtain ⟨f, hf, hsize, -⟩ := hcan h
    have := (hwrite f (hfile f hf) (by simpa [setPage, hti, htf] using hsize)).1
    omega
  rw [wp_bind, wp_kfree]
  split
  swap
  · rename_i hn
    refine ⟨by simp, fun h => ?_⟩
    obtain ⟨f, -, -, hpage, -⟩ := hcan h
    exact hn hpage
  simp only [wp_bind, wp_modifyProc, wp_readPte, wp_writePte, setProc_ptables,
    putPage_ptables, putPage_proc, hleaf, setPte_self, PageTable.leaf_setLeaf,
    pte2pa_or x (show ptePG.toNat < 2 ^ 10 by decide)]
  rw [wp_kfree]
  split
  swap
  · rename_i hn
    refine ⟨by simp, fun h => ?_⟩
    obtain ⟨f, -, -, -, hold⟩ := hcan h
    exact hn hold
  rename_i hpage hold
  -- the buffer comes from the free list and goes back to it
  have hbuf : s.freelist = page :: t.freelist := by
    rcases ht.freelist with ⟨-, h0, -⟩ | h
    · exact absurd h0 hpage.ne_zero
    · exact h
  have huf : u.freelist = t.freelist := by rw [hio.rest]; rfl
  refine ⟨page, ⟨_, hbuf⟩, by rwa [hx], ?_, ?_, ?_, ?_, ?_, ?_, ?_⟩
  · show pte2pa x :: page :: u.freelist = _
    rw [huf, hbuf, hx]
  · simp only [putPage_ptables, setPte, setTable, setProc_ptables, hut, hx]
  · show update u.proc p _ = _
    rw [hup]
    rfl
  · intro q hq hq'
    rw [hx] at hq'
    simp only [putPage, setPte_mem, setProc_mem, update_of_ne hq,
      update_of_ne hq', hmem, setPage_mem]
    exact ht.mem q hq
  · intro f hf hsize hne
    rw [hx] at hne
    show u.inode = _
    rw [(hwrite f (hfile f hf) (by simpa [setPage, hti, htf] using hsize)).2]
    simp only [setPage, update_self, hti, htf, ht.mem _ hne, hx]
  · intro f
    show u.ftable f = _
    rw [hio.file f, ← htf]
    rfl
  · have hrest : u = { s with
        freelist := u.freelist, mem := u.mem, ftable := u.ftable, inode := u.inode } := by
      rw [hio.rest, ht.rest]
      rfl
    refine Kernel.ext rfl rfl rfl rfl ?_ ?_ ?_ ?_ ?_ rfl ?_ rfl ?_
    all_goals
      simp only [putPage, setProc, setPte, setTable]
      rw [hrest]

end Evict

/-! ## Exchanging pages -/

/-- The page `w` in the `ram` slot `k` is invalidated and taken off the array: the first half of
`swap_pages`. -/
def Kernel.unload (s : Kernel) (p : Fin nproc) (w : Nat) (k : Fin maxPsycPages) : Kernel :=
  (s.setPte (s.proc p).pagetable w
    ((s.ptables (s.proc p).pagetable).pte w &&& ~~~pteV)).setProc p
      { s.proc p with ram := update (s.proc p).ram k .removed }

/-- The swap slot for a page that leaves memory: the first free one. -/
def Proc.freeSwap (pr : Proc) : Fin maxPsycPages := (findSlot (fun d => !d.used) pr.swap).getD 0

/-- The resident page `w`, recorded as `va` in the `ram` slot `k`, made room for a new page. -/
structure MadeRoom (B : Build) (p : Fin nproc) (w : Nat) (va : Int) (k : Fin maxPsycPages)
    (s s' : Kernel) : Prop where
  found : findSlot (fun d => d.va == va) (s.proc p).ram = some k
  user : hasFlag ((s.ptables (s.proc p).pagetable).pte w) pteU = true
  evicted : ∃ page, Evicted B p w va (s.proc p).freeSwap page (s.unload p w k) s'

/-- The resident page `w`, recorded as `va` in the `ram` slot `k`, changed places with the
swapped-out page `v`. -/
structure Exchanged (B : Build) (pol : Policy) (p : Fin nproc) (v w : Nat) (va : Int)
    (k : Fin maxPsycPages) (s s' : Kernel) : Prop where
  found : findSlot (fun d => d.va == va) (s.proc p).ram = some k
  user : hasFlag ((s.ptables (s.proc p).pagetable).pte w) pteU = true
  moved : ∃ j pa page t, SwappedIn pol p k v j pa (s.unload p w k) t ∧
    Evicted B p w va j page t s'

/-- The page `w` can make room for a new one. -/
def CanMakeRoom (B : Build) (p : Fin nproc) (w : Nat) (va : Int) (s : Kernel) : Prop :=
  ∃ k, findSlot (fun d => d.va == va) (s.proc p).ram = some k ∧
    hasFlag ((s.ptables (s.proc p).pagetable).pte w) pteU = true ∧
    CanEvict B p w (s.proc p).freeSwap (s.unload p w k)

/-- The page `w` can change places with the page `v`. -/
def CanExchange (B : Build) (pol : Policy) (p : Fin nproc) (v w : Nat) (va : Int) (s : Kernel) :
    Prop :=
  ∃ k, findSlot (fun d => d.va == va) (s.proc p).ram = some k ∧
    hasFlag ((s.ptables (s.proc p).pagetable).pte w) pteU = true ∧
    CanSwapIn p v (s.unload p w k) ∧
    ∀ j pa t, SwappedIn pol p k v j pa (s.unload p w k) t → CanEvict B p w j t

section Unload

variable {s : Kernel} {p : Fin nproc} {w : Nat} {k : Fin maxPsycPages}

@[simp] theorem unload_pagetable : ((s.unload p w k).proc p).pagetable = (s.proc p).pagetable := by
  simp [unload]

@[simp] theorem unload_swap : ((s.unload p w k).proc p).swap = (s.proc p).swap := by
  simp [unload]

theorem unload_table : (s.unload p w k).ptables (s.proc p).pagetable =
    (s.ptables (s.proc p).pagetable).setLeaf w
      ((s.ptables (s.proc p).pagetable).pte w &&& ~~~pteV) := by
  show (s.setPte _ _ _).ptables _ = _
  rw [setPte_self]

theorem unload_of_ne {r : Nat} (hr : r ≠ (s.proc p).pagetable) :
    (s.unload p w k).ptables r = s.ptables r := by
  show (s.setPte _ _ _).ptables _ = _
  rw [setPte_of_ne _ _ _ hr]

theorem unload_present {v : Nat} : ((s.unload p w k).ptables (s.proc p).pagetable).present v ↔
      (s.ptables (s.proc p).pagetable).present v := by
  rw [unload_table]
  rfl

end Unload

section SwapPages

variable {B : Build} {pol : Policy} {s : Kernel} {p : Fin nproc} {v w : Nat} {va : Int}

theorem wp_swapPages {inSwap : Bool} {vaOnSwap : Int} {Q : Fin maxPsycPages → Kernel → Prop}
    {E : Halt → Kernel → Prop} (hc : s.cur = some p) (hva : u64 va = w * pgsize)
    (hw : w * pgsize < maxva) (hp : (s.ptables (s.proc p).pagetable).present w)
    (hE : ∀ msg, ¬(∃ k, findSlot (fun d => d.va == va) (s.proc p).ram = some k ∧
      hasFlag ((s.ptables (s.proc p).pagetable).pte w) pteU = true) → E (.panic msg) s)
    (hin : ∀ k, inSwap = true → findSlot (fun d => d.va == va) (s.proc p).ram = some k →
      hasFlag ((s.ptables (s.proc p).pagetable).pte w) pteU = true →
      wp (walk (s.proc p).pagetable (u64 vaOnSwap) false) (fun pte s' =>
        wp (swapfileToRam pol (u64 vaOnSwap) pte k) (fun j s' =>
          wp (evictPage B p va j) (fun _ s' => Q k s') E s') E s') E (s.unload p w k))
    (hout : ∀ k, inSwap = false → findSlot (fun d => d.va == va) (s.proc p).ram = some k →
      hasFlag ((s.ptables (s.proc p).pagetable).pte w) pteU = true →
      wp (evictPage B p va (s.proc p).freeSwap) (fun _ s' => Q k s') E (s.unload p w k)) :
    wp (swapPages B pol vaOnSwap va inSwap) Q E s := by
  have hp' : (s.ptables (s.proc p).pagetable).present (w * pgsize / pgsize) := by rwa [page_div]
  simp only [swapPages, wp_bind, wp_myproc hc, wp_getProc, hva]
  rw [wp_walk_present hw hp']
  simp only [wp_deref_some, wp_readPte, page_div, ← PageTable.pte_of_present _ hp]
  cases hU : hasFlag ((s.ptables (s.proc p).pagetable).pte w) pteU with
  | false =>
    apply hE
    rintro ⟨_, _, h⟩
    simp [hU] at h
  | true =>
    simp only [Bool.not_true, Bool.false_eq_true, if_false, wp_bind, wp_getProc]
    cases hk : findSlot (fun d => d.va == va) (s.proc p).ram with
    | none =>
      apply hE
      rintro ⟨k, h, _⟩
      simp [hk] at h
    | some k =>
      simp only [wp_bind, wp_writePte, wp_modifyProc]
      cases inSwap with
      | true =>
        simp only [if_true, wp_bind, wp_getProc, wp_pure]
        change wp (walk ((s.unload p w k).proc p).pagetable _ _) _ _ (s.unload p w k)
        rw [unload_pagetable]
        exact hin k rfl hk hU
      | false =>
        simp only [if_false, wp_bind, wp_getProc, wp_pure, Bool.false_eq_true]
        change wp (evictPage B p va ((findSlot (fun d => !d.used)
          ((s.unload p w k).proc p).swap).getD 0)) _ _ (s.unload p w k)
        rw [unload_swap]
        exact hout k rfl hk hU

/-- **`swap_pages` that makes room.** -/
theorem swapPages_out_spec {vaOnSwap : Int} (hc : s.cur = some p) (hva : u64 va = w * pgsize)
    (hw : w * pgsize < maxva) (hp : (s.ptables (s.proc p).pagetable).present w) :
    wp (swapPages B pol vaOnSwap va false) (fun k s' => MadeRoom B p w va k s s')
      (fun e _ => e ≠ .exited ∧ ¬CanMakeRoom B p w va s) s := by
  refine wp_swapPages hc hva hw hp (fun msg h => ⟨by simp, fun ⟨k, h1, h2, _⟩ => h ⟨k, h1, h2⟩⟩)
    (fun k h => by simp at h) fun k _ hk hU => ?_
  refine wp_mono (evictPage_spec hva hw (by rwa [unload_pagetable, unload_present])) ?_ ?_
  · rintro _ s' h
    exact ⟨hk, hU, h⟩
  · rintro e s' ⟨he, hn⟩
    refine ⟨he, fun ⟨k', hk', _, h⟩ => hn ?_⟩
    obtain rfl : k = k' := by simpa [hk] using hk'
    exact h

/-- **`swap_pages` that exchanges two pages.** -/
theorem swapPages_in_spec {vaOnSwap : Int} (hc : s.cur = some p) (hva : u64 va = w * pgsize)
    (hw : w * pgsize < maxva) (hp : (s.ptables (s.proc p).pagetable).present w)
    (hsw : u64 vaOnSwap = v * pgsize) (hv : v * pgsize < maxva)
    (hpv : (s.ptables (s.proc p).pagetable).present v) :
    wp (swapPages B pol vaOnSwap va true) (fun k s' => Exchanged B pol p v w va k s s')
      (fun e _ => e ≠ .exited ∧ ¬CanExchange B pol p v w va s) s := by
  refine wp_swapPages hc hva hw hp (fun msg h => ⟨by simp, fun ⟨k, h1, h2, _⟩ => h ⟨k, h1, h2⟩⟩)
    (fun k _ hk hU => ?_) fun k h => by simp at h
  have hpv' : ((s.unload p w k).ptables (s.proc p).pagetable).present (v * pgsize / pgsize) := by
    rwa [page_div, unload_present]
  rw [hsw, wp_walk_present hv hpv', page_div]
  have hin := @swapfileToRam_spec (s.unload p w k) p k v pol hc hv
    (by rwa [unload_pagetable, unload_present])
  rw [unload_pagetable] at hin
  refine wp_mono hin ?_ ?_
  · rintro j t ⟨pa, ht⟩
    have htpt : (t.proc p).pagetable = (s.proc p).pagetable := by
      rw [ht.proc, update_self]
      exact unload_pagetable
    have hpw : (t.ptables (t.proc p).pagetable).present w := by
      rw [htpt, ht.ptables, unload_pagetable, setPte_self, PageTable.present_setLeaf,
        unload_present]
      exact hp
    refine wp_mono (evictPage_spec hva hw hpw) ?_ ?_
    · rintro _ s' ⟨page, h⟩
      exact ⟨hk, hU, j, pa, page, t, ht, h⟩
    · rintro e s' ⟨he, hn⟩
      refine ⟨he, fun ⟨k', hk', _, _, h⟩ => hn ?_⟩
      obtain rfl : k = k' := by simpa [hk] using hk'
      exact h j pa t ht
  · rintro e t ⟨he, hn⟩
    refine ⟨he, fun ⟨k', hk', _, h, _⟩ => hn ?_⟩
    obtain rfl : k = k' := by simpa [hk] using hk'
    exact h

end SwapPages

/-! ## The victim of the policy -/

/-- The address of the page `w` in an `int`. -/
def pageVa (w : Nat) : Int := ((w * pgsize : Nat) : Int)

theorem pageVa_inj {v w : Nat} : pageVa v = pageVa w ↔ v = w := by
  simp only [pageVa, pgsize]
  omega

theorem pageVa_ne_removed (w : Nat) : pageVa w ≠ PageData.removed.va := by
  show ((w * pgsize : Nat) : Int) ≠ -1
  omega

/-- Every `ram` slot of the process `p` records one of its first 32 pages, whose entry exists. -/
def RamRecords (s : Kernel) (p : Fin nproc) : Prop :=
  ∀ k, ∃ w < maxTotalPages, ((s.proc p).ram k).va = pageVa w ∧
    (s.ptables (s.proc p).pagetable).present w

/-- The policy, run in the state `s`, left the state `t` and chose the page `w`: a user page if the
process has one. -/
structure Chose (p : Fin nproc) (w : Nat) (s t : Kernel) : Prop where
  aged : Aged p s t
  recorded : ∃ k, ((s.proc p).ram k).va = pageVa w ∧
    ((∃ j, hasFlag (s.ramPte p j) pteU = true) → hasFlag (s.ramPte p k) pteU = true)
  lt_total : w < maxTotalPages
  present : (s.ptables (s.proc p).pagetable).present w

theorem u64_natCast {n : Nat} (h : n < 2 ^ 64) : u64 n = n := by
  unfold u64
  omega

theorem u64_pageVa {w : Nat} (h : w < maxTotalPages) : u64 (pageVa w) = w * pgsize := by
  refine u64_natCast ?_
  simp only [maxTotalPages, pgsize] at *
  omega

theorem page_lt_maxva {w : Nat} (h : w < maxTotalPages) : w * pgsize < maxva := by
  simp only [maxTotalPages, pgsize, maxva] at *
  omega

theorem i32_of_lt {n : Nat} (h : n < 2 ^ 31) : i32 n = n := by
  unfold i32
  apply Int.bmod_eq_of_le <;> omega

theorem i32_page {v : Nat} (h : v < maxTotalPages) : i32 (v * pgsize) = pageVa v := by
  refine i32_of_lt ?_
  simp only [maxTotalPages, pgsize] at *
  omega

section Exchange

variable {B : Build} {pol : Policy} {s : Kernel} {p : Fin nproc} {v : Nat}

theorem RamRecords.ramPresent (h : RamRecords s p) : RamPresent s p := by
  intro k
  obtain ⟨w, hw, hva, hp⟩ := h k
  have hu := u64_pageVa hw
  rw [SlotPresent, Proc.ramPage, hva, hu, page_div]
  exact ⟨page_lt_maxva hw, hp⟩

theorem victim_chose (hc : s.cur = some p) (hr : RamRecords s p) :
    wp (victim pol) (fun k t => ∃ w, ((t.proc p).ram k).va = pageVa w ∧ Chose p w s t)
      (fun _ _ => False) s := by
  refine wp_mono (victim_spec hc) ?_ fun e t h => h.2 hr.ramPresent
  rintro k t ⟨haged, hU⟩
  obtain ⟨w, hw, hva, hp⟩ := hr k
  refine ⟨w, ?_, haged, ⟨k, hva, hU⟩, hw, hp⟩
  rw [haged.ram]
  exact hva

theorem Chose.present_aged {w u : Nat} {t : Kernel} (h : Chose p w s t)
    (hp : (s.ptables (s.proc p).pagetable).present u) :
    (t.ptables (t.proc p).pagetable).present u := by
  rw [h.aged.pagetable_eq]
  exact (h.aged.present_iff u).mpr hp

/-- **`exchange_pages` that makes room.** -/
theorem exchangePages_out_spec {a : Nat} (hc : s.cur = some p) (hr : RamRecords s p) :
    wp (exchangePages B pol a false)
      (fun k s' => ∃ w t, Chose p w s t ∧ MadeRoom B p w (pageVa w) k t s')
      (fun e _ => e ≠ .exited ∧ ∃ w t, Chose p w s t ∧ ¬CanMakeRoom B p w (pageVa w) t) s := by
  simp only [exchangePages, wp_bind, wp_myproc hc]
  refine wp_mono (victim_chose hc hr) ?_ fun _ _ h => h.elim
  rintro k t ⟨w, hva, hch⟩
  rw [wp_getProc, hva]
  have htc : t.cur = some p := by rw [hch.aged.rest]; exact hc
  refine wp_mono (swapPages_out_spec htc (u64_pageVa hch.lt_total) (page_lt_maxva hch.lt_total)
    (hch.present_aged hch.present)) ?_ ?_
  · exact fun k s' h => ⟨w, t, hch, h⟩
  · exact fun e s' h => ⟨h.1, w, t, hch, h.2⟩

/-- **`exchange_pages` that brings a page in.** -/
theorem exchangePages_in_spec (hc : s.cur = some p) (hr : RamRecords s p) (hv : v < maxTotalPages)
    (hp : (s.ptables (s.proc p).pagetable).present v) : wp (exchangePages B pol (v * pgsize) true)
      (fun k s' => ∃ w t, Chose p w s t ∧ Exchanged B pol p v w (pageVa w) k t s')
      (fun e _ => e ≠ .exited ∧
        ∃ w t, Chose p w s t ∧ ¬CanExchange B pol p v w (pageVa w) t) s := by
  simp only [exchangePages, wp_bind, wp_myproc hc]
  refine wp_mono (victim_chose hc hr) ?_ fun _ _ h => h.elim
  rintro k t ⟨w, hva, hch⟩
  rw [wp_getProc, hva, i32_page hv]
  have htc : t.cur = some p := by rw [hch.aged.rest]; exact hc
  refine wp_mono (swapPages_in_spec htc (u64_pageVa hch.lt_total) (page_lt_maxva hch.lt_total)
    (hch.present_aged hch.present) (u64_pageVa hv) (page_lt_maxva hv) (hch.present_aged hp)) ?_ ?_
  · exact fun k s' h => ⟨w, t, hch, h⟩
  · exact fun e s' h => ⟨h.1, w, t, hch, h.2⟩

/-- What `swap` does: the page moves into a free `ram` slot, or changes places with a victim. -/
def Swapped (B : Build) (pol : Policy) (p : Fin nproc) (v : Nat) (s s' : Kernel) : Prop :=
  (∃ k j pa, ((s.proc p).ram k).used = false ∧ SwappedIn pol p k v j pa s s') ∨
    ((∀ k, ((s.proc p).ram k).used = true) ∧
      ∃ k w t, Chose p w s t ∧ Exchanged B pol p v w (pageVa w) k t s')

/-- What `swap` needs. -/
def CanSwap (B : Build) (pol : Policy) (p : Fin nproc) (v : Nat) (s : Kernel) : Prop :=
  ((∃ k, ((s.proc p).ram k).used = false) → CanSwapIn p v s) ∧
    ((∀ k, ((s.proc p).ram k).used = true) →
      ∀ w t, Chose p w s t → CanExchange B pol p v w (pageVa w) t)

/-- **`swap`.** -/
theorem swap_spec (hc : s.cur = some p)
    (hr : (∀ k, ((s.proc p).ram k).used = true) → RamRecords s p)
    (hv : v < maxTotalPages) (hp : (s.ptables (s.proc p).pagetable).present v) :
    wp (swap B pol (v * pgsize) ⟨(s.proc p).pagetable, v⟩) (fun _ s' => Swapped B pol p v s s')
      (fun e _ => e ≠ .exited ∧ ¬CanSwap B pol p v s) s := by
  simp only [swap, wp_bind, wp_myproc hc, wp_getProc]
  refine wp_ite (fun hlt => ?_) fun hfull => ?_
  · obtain ⟨k0, hk0⟩ := countPages_lt_iff.mp hlt
    obtain ⟨k, hk⟩ := findSlot_isSome (c := fun d => !d.used) (d := (s.proc p).ram) (k := k0)
      (by simp [hk0])
    have hunused : ((s.proc p).ram k).used = false := by simpa using findSlot_some hk
    simp only [wp_bind, wp_getProc, hk]
    refine wp_mono (swapfileToRam_spec hc (page_lt_maxva hv) hp) ?_ ?_
    · rintro j s' ⟨pa, h⟩
      exact .inl ⟨k, j, pa, hunused, h⟩
    · rintro e s' ⟨he, hn⟩
      exact ⟨he, fun h => hn (h.1 ⟨k, hunused⟩)⟩
  · have hall := countPages_full hfull
    simp only [wp_bind]
    refine wp_mono (exchangePages_in_spec hc (hr hall) hv hp) ?_ ?_
    · rintro k s' ⟨w, t, hch, hex⟩
      exact .inr ⟨hall, k, w, t, hch, hex⟩
    · rintro e s' ⟨he, w, t, hch, hn⟩
      exact ⟨he, fun h => hn (h.2 hall w t hch)⟩

end Exchange

end Xv6Paging
