import Xv6Paging.Paging.Process
import Xv6Paging.Vm.Alloc

/-!
# Growing and shrinking a paged process

`uvmdealloc` and `uvmalloc` on the table of the running process, in the paging kernels.  Shrinking
never fails.  Growing takes a frame for every page while there are free `ram` slots and, after that,
evicts a page for every new one; how many frames are free decides between the three ways it can end.
-/

namespace Xv6Paging

open StateHalt Ownership Kernel
open Function (update update_of_ne update_self)

/-- The address space of the process `p` went from `n` to `m` pages: the pages that stay keep their
contents, and new pages are zero. -/
structure Resized (B : Build) (p : Fin nproc) (n : Nat) (s : Kernel) (L : Nat → Loc) (m : Nat)
    (s' : Kernel) (L' : Nat → Loc) : Prop where
  paged : Paged B p m L' s'
  settled : Settled m L'
  kept : Kept p s s'
  page : ∀ v, v < n → v < m → (s'.pager p).page v (L' v) = (s.pager p).page v (L v)
  fresh : ∀ v, n ≤ v → v < m → (s'.pager p).page v (L' v) = fun _ => 0

/-- The free slots of the `ram` array. -/
def Kernel.ramRoom (s : Kernel) (p : Fin nproc) : Nat := maxPsycPages - countPages (s.proc p).ram

/-- The page-table pages that are missing on the way to the entries of the first pages. -/
def Kernel.tableDemand (s : Kernel) (p : Fin nproc) : Nat :=
  (s.ptables (s.proc p).pagetable).missing 0

section Resized

variable {B : Build} {p : Fin nproc} {n m l : Nat} {s t u : Kernel} {L L' L'' : Nat → Loc}

theorem Resized.refl (h : Paged B p n L s) (hset : Settled n L) : Resized B p n s L n s L :=
  ⟨h, hset, .refl p s, fun _ _ _ => rfl, fun _ h1 h2 => absurd h2 (Nat.not_lt.mpr h1)⟩

theorem Repaged.resized (h : Repaged B p n s L t L') (hset : Settled n L') :
    Resized B p n s L n t L' :=
  ⟨h.paged, hset, h.kept, fun v hv _ => h.page v hv, fun _ h1 h2 => absurd h2 (Nat.not_lt.mpr h1)⟩

theorem Resized.trans (h : Resized B p n s L m t L') (hnm : n ≤ m)
    (h' : Resized B p m t L' l u L'') : Resized B p n s L l u L'' where
  paged := h'.paged
  settled := h'.settled
  kept := h.kept.trans h'.kept
  page v hv hl := (h'.page v (by omega) hl).trans (h.page v hv (by omega))
  fresh v hv hl := by
    by_cases hvm : v < m
    · exact (h'.page v hvm hl).trans (h.fresh v hv hvm)
    · exact h'.fresh v (by omega) hl

end Resized

/-! ## Shrinking -/

section Shrink

variable {B : Build} {pol : Policy} {p : Fin nproc} {n m : Nat} {s : Kernel} {L : Nat → Loc}

theorem Paged.unmappable (h : Paged B p n L s) (hset : Settled n L) {w : Nat} (hw : w < n) :
    Unmappable B (s.ptables (s.proc p).pagetable) true w := by
  have hat := h.layout.located w hw
  have hleaf : hasFlag ((s.ptables (s.proc p).pagetable).pte w) Pager.permLeaf = true :=
    h.layout.leaf w hw
  have hflags : pteFlags ((s.ptables (s.proc p).pagetable).pte w) ≠ pteV := by
    intro hfl
    rw [← hasFlag_pteFlags _ (by decide), hfl] at hleaf
    exact absurd hleaf (by decide)
  cases hLw : L w with
  | ram k =>
    rw [hLw] at hat
    exact ⟨page_lt_maxva (h.lt_total hw), .inl hat.2.2.1, hflags,
      fun _ _ => h.layout.frame hw (by rw [hLw]; trivial)⟩
  | swap k =>
    rw [hLw] at hat
    have hPG : hasFlag ((s.ptables (s.proc p).pagetable).pte w) ptePG = true := hat.2.2.2.2.2
    refine ⟨page_lt_maxva (h.lt_total hw), .inr hPG, hflags, fun _ hno => ?_⟩
    rw [hPG] at hno
    exact absurd hno (by decide)
  | moving => exact absurd hLw (hset w hw)

theorem uvmunmap_paged (hB : B.selection = .paging pol) (h : Paged B p n L s) (hset : Settled n L)
    (hm : m ≤ n) : wp (uvmunmap B (s.proc p).pagetable (m * pgsize) (n - m) true)
      (fun _ s' => Resized B p n s L m s' L) (fun _ _ => False) s := by
  simp only [uvmunmap, hB]
  refine wp_mono (uvmunmapNotNone_spec h.cur) ?_ ?_
  swap
  · rintro e t ⟨-, w, -, hw, hno⟩
    exact hno (h.unmappable hset (by omega))
  rintro _ t ⟨-, ht⟩
  rw [if_pos rfl] at ht
  have htp : t.proc = s.forgetPages p m (n - m) := by rw [ht.rest]
  have hself : t.proc p = { s.proc p with
      ram := forgetPages m (n - m) (s.proc p).ram
      swap := forgetPages m (n - m) (s.proc p).swap } := by
    rw [htp, Kernel.forgetPages, update_self, Proc.forgetPages, if_pos h.pid]
  have hkept : Kept p s t := by
    refine ⟨?_, fun i hi => ?_, ?_, ht.table.other, fun f => ?_⟩
    · rw [ht.rest]
    · rw [htp, Kernel.forgetPages, update_of_ne hi]
    · rw [hself]
    · rw [ht.rest]
  have hpte : ∀ v, (t.pager p).pte v =
      if m ≤ v ∧ v < m + (n - m) then 0#64 else (s.pager p).pte v := by
    intro v
    show (t.ptables (t.proc p).pagetable).pte v = _
    rw [hkept.pagetable_eq, ht.table.pte]
    rfl
  have hfile : (t.pager p).file = (s.pager p).file := hkept.swapInode_eq (by rw [ht.rest])
  refine ⟨h.of_kept hkept ?_, fun v hv => hset v (by omega), hkept, fun v _ hv => ?_,
    fun v h1 h2 => by omega⟩
  · refine h.layout.truncate hm hset hpte ?_ ?_ hfile ht.freelist
    · show (t.proc p).ram = _
      rw [hself]
      rfl
    · show (t.proc p).swap = _
      rw [hself]
      rfl
  · exact h.layout.truncate_page hm hset hpte hfile ht.mem hv

/-- **`uvmdealloc`** on the table of the running process. -/
theorem uvmdealloc_paged {oldsz newsz : Nat} (hB : B.selection = .paging pol) (h : Paged B p n L s)
    (hset : Settled n L) (hold : pgroundup oldsz = n * pgsize) (hnew : pgroundup newsz = m * pgsize)
    (hle : newsz ≤ oldsz) (hm : m ≤ n) : wp (uvmdealloc B (s.proc p).pagetable oldsz newsz)
      (fun a s' => a = newsz ∧ Resized B p n s L m s' L) (fun _ _ => False) s := by
  unfold uvmdealloc
  have hpos : 0 < pgsize := by decide
  refine wp_ite (fun hge => ?_) fun hlt => ?_
  · obtain rfl : newsz = oldsz := Nat.le_antisymm hle hge
    obtain rfl : m = n := Nat.eq_of_mul_eq_mul_right hpos (hnew.symm.trans hold)
    exact ⟨rfl, .refl h hset⟩
  · rw [wp_bind, hold, hnew, ← Nat.sub_mul, page_div]
    by_cases hmn : m * pgsize < n * pgsize
    · rw [onlyIf_true hmn]
      exact wp_post (uvmunmap_paged hB h hset hm) fun _ t ht => ⟨rfl, ht⟩
    · rw [onlyIf_false hmn]
      obtain rfl : m = n :=
        Nat.le_antisymm hm (Nat.le_of_mul_le_mul_right (Nat.not_lt.mp hmn) hpos)
      exact ⟨rfl, .refl h hset⟩

end Shrink

/-! ## A new page -/

section Counts

variable {d : Slots} {k : Fin maxPsycPages} {x : PageData}

theorem countPages_update (hk : (d k).used = false) (hx : x.used = true) :
    countPages (update d k x) = countPages d + 1 := by
  have hperm := List.perm_cons_erase (List.mem_finRange k)
  have hrest : ((List.finRange maxPsycPages).erase k).countP (fun i => (update d k x i).used) =
      ((List.finRange maxPsycPages).erase k).countP fun i => (d i).used := by
    refine List.countP_congr fun i hi => ?_
    have hne : i ≠ k := ((List.nodup_finRange _).mem_erase_iff.mp hi).1
    rw [update_of_ne hne]
  rw [countPages, countPages, hperm.countP_eq, hperm.countP_eq, List.countP_cons_of_pos (by simpa),
    List.countP_cons_of_neg (by simpa), hrest]

theorem countPages_of_full (h : ∀ k, (d k).used = true) : countPages d = maxPsycPages := by
  have hlt := (countPages_lt_iff (d := d)).not.mpr fun ⟨k, hk⟩ => by simp [h k] at hk
  have hle : countPages d ≤ (List.finRange maxPsycPages).length := List.countP_le_length
  rw [List.length_finRange] at hle
  omega

end Counts

section Append

variable {B : Build} {pol : Policy} {p : Fin nproc} {n f i : Nat} {fs : List Nat} {s t u : Kernel}
  {L : Nat → Loc} {k : Fin maxPsycPages}

theorem missing_low {pt : PageTable} {v : Nat} (hv : v < 512) : pt.missing v = pt.missing 0 := by
  rw [PageTable.missing, PageTable.missing, Nat.div_eq_of_lt hv, Nat.zero_div]

theorem Paged.zero_notMem (h : Paged B p n L s) : 0 ∉ s.freelist := fun h0 =>
  (h.isFrame_of_mem h0).ne_zero rfl

theorem Paged.tableDemand_eq_zero (h : Paged B p n L s) (hn : 0 < n) : s.tableDemand p = 0 :=
  PageTable.missing_of_present (h.present hn)

/-- The state after the page `n` was mapped to the frame `f` and recorded in the slot `k`. -/
def Kernel.addPage (t : Kernel) (pol : Policy) (p : Fin nproc) (k : Fin maxPsycPages) (n f : Nat) :
    Kernel :=
  (t.setPte (t.proc p).pagetable n (pa2pte f ||| permUser ||| pteV)).setProc p
    (admitPage pol (t.proc p) k (n * pgsize))

/-- **The bookkeeping for a new page.** -/
theorem wp_uvmallocRecord {Q : Unit → Kernel → Prop} {E : Halt → Kernel → Prop}
    (hB : B.selection = .paging pol) (hc : t.cur = some p) (hpid : 2 < (t.proc p).pid)
    (hn : n < maxTotalPages) (hp : (t.ptables (t.proc p).pagetable).present n)
    (hQ : Q () (t.addPage pol p k n f)) :
    wp (uvmallocRecord B (t.proc p).pagetable (n * pgsize) k) Q E
      (t.setPte (t.proc p).pagetable n (pa2pte f ||| permUser ||| pteV)) := by
  have hv := page_lt_maxva hn
  simp only [uvmallocRecord, hB, wp_bind]
  rw [wp_myproc (by exact hc)]
  simp only [wp_getProc, setPte_proc, and_true, if_pos hpid, gt_iff_lt, wp_bind,
    wp_modifyProc]
  rw [wp_walk_present hv (by rw [page_div, setProc_ptables, setPte_self]; exact hp)]
  simp only [wp_deref_some, wp_readPte, wp_writePte, page_div, setProc_ptables,
    setPte_self, PageTable.leaf_setLeaf]
  have hvalid : pa2pte f ||| permUser ||| pteV ||| pteV = pa2pte f ||| permUser ||| pteV := by
    rw [BitVec.or_assoc _ pteV pteV, BitVec.or_self]
  have hsame : ((t.setPte (t.proc p).pagetable n (pa2pte f ||| permUser ||| pteV)).setProc p
      (admitPage pol (t.proc p) k (n * pgsize))).setPte (t.proc p).pagetable n
        (pa2pte f ||| permUser ||| pteV) = t.addPage pol p k n f := by
    simp [addPage, setPte, setTable, setProc]
  rw [hvalid, hsame]
  -- the page is found in the slot it was put into
  have hfind : findSlot (fun d => u64 d.va == n * pgsize)
      ((t.addPage pol p k n f).proc p).ram ≠ none := by
    intro hnone
    have := findSlot_none hnone k
    simp only [addPage, setProc_self, admitPage, update_self, stampPage_va,
      i32_page hn, u64_pageVa hn, beq_self_eq_true] at this
    exact absurd this (by decide)
  rw [if_neg fun h => hfind h.2]
  exact hQ

/-- **A page is added.** -/
theorem Paged.append (h : Paged B p n L s) (hset : Settled n L) (hn : n < maxTotalPages)
    (hk : ((s.proc p).ram k).used = false) (hfree : s.freelist = f :: fs)
    (hg : Grows (s.proc p).pagetable n i (s.freshPage f fs) t)
    (hp : (t.ptables (s.proc p).pagetable).present n) :
    Resized B p n s L (n + 1) (t.addPage pol p k n f) (update L n (.ram k)) := by
  obtain ⟨fresh, hfs, -, hmem⟩ := hg.taken
  have htp : t.proc = s.proc := hg.proc_eq
  have hself : (t.addPage pol p k n f).proc p = admitPage pol (s.proc p) k (n * pgsize) := by
    rw [addPage, setProc_self, htp]
  have hrest : t = { s with freelist := t.freelist, mem := t.mem, ptables := t.ptables } := by
    rw [hg.frame]
    rfl
  have hkept : Kept p s (t.addPage pol p k n f) := by
    refine ⟨?_, fun q hq => ?_, ?_, fun r hr => ?_, fun g => ?_⟩
    · rw [addPage, hrest]
      rfl
    · rw [addPage, setProc_of_ne _ _ hq, setPte_proc, htp]
    · rw [hself]
      rfl
    · rw [addPage, setProc_ptables, htp, setPte_of_ne _ _ _ hr, hg.table_of_ne hr]
      rfl
    · show t.ftable g = { s.ftable g with off := (t.ftable g).off }
      rw [hrest]
  have hpte : ∀ v, ((t.addPage pol p k n f).pager p).pte v =
      if v = n then pa2pte f ||| permUser ||| pteV else (s.pager p).pte v := by
    intro v
    show ((t.addPage pol p k n f).ptables ((t.addPage pol p k n f).proc p).pagetable).pte v = _
    rw [hkept.pagetable_eq, addPage, setProc_ptables, htp, setPte_self,
      PageTable.pte_setLeaf _ hp, hg.pte_eq]
    rfl
  have hlist : (s.pager p).free = f :: (fresh ++ ((t.addPage pol p k n f).pager p).free) := by
    show s.freelist = f :: (fresh ++ t.freelist)
    rw [hfree, ← hfs]
    rfl
  have hnew : ((t.addPage pol p k n f).pager p).pte n = pa2pte f ||| permUser ||| pteV := by
    rw [hpte, if_pos rfl]
  have hold : ∀ v, v ≠ n → ((t.addPage pol p k n f).pager p).pte v = (s.pager p).pte v :=
      fun v hv => by
    rw [hpte, if_neg hv]
  have hfile : ((t.addPage pol p k n f).pager p).file = (s.pager p).file := by
    refine hkept.swapInode_eq ?_
    show t.inode = s.inode
    rw [hrest]
  have hfmem : ∀ q, q ≠ f → q ∉ fresh → t.mem q = s.mem q := fun q hqf hq => by
    rw [hmem q hq]
    simp [freshPage, takePage, hqf]
  obtain ⟨hpages, hpage⟩ := h.layout.append_page (k := k) hlist hold hnew hfile hfmem
  refine ⟨h.of_kept hkept ?_, fun v hv => ?_, hkept, fun v hv _ => hpages v hv, fun v h1 h2 => ?_⟩
  · refine h.layout.append hn hk hlist hold hnew (fun q hq => ?_) ?_ ?_ hfile
    · show ((t.addPage pol p k n f).proc p).ram q = _
      rw [hself]
      exact update_of_ne hq _ _
    · show (((t.addPage pol p k n f).proc p).ram k).used = true ∧
        (((t.addPage pol p k n f).proc p).ram k).va = _
      rw [hself]
      simp only [admitPage, update_self]
      exact ⟨stampPage_used _ _ _ _, by rw [stampPage_va, i32_page hn]⟩
    · show ((t.addPage pol p k n f).proc p).swap = _
      rw [hself]
      rfl
  · by_cases hvn : v = n
    · rw [hvn, update_self]
      simp
    · rw [update_of_ne hvn]
      exact hset v (by omega)
  · obtain rfl : v = n := by omega
    rw [hpage]
    -- the frame was zeroed, and none of the page-table pages is the same frame
    show t.mem f = _
    have hnd := h.layout.owned.nodup
    rw [hlist, List.nodup_cons, List.mem_append, not_or] at hnd
    rw [hmem f hnd.1.1]
    simp [freshPage]

/-- **A page that cannot be mapped**: page-table pages are taken and the frame goes back. -/
theorem Paged.giveBack (h : Paged B p n L s) (hset : Settled n L) (hfree : s.freelist = f :: fs)
    (hg : Grows (s.proc p).pagetable n i (s.freshPage f fs) u) (hnil : u.freelist = []) :
    Resized B p n s L n (u.putPage f) L := by
  obtain ⟨fresh, hfs, -, hmem⟩ := hg.taken
  have hfs' : fs = fresh := by
    rw [hnil, List.append_nil] at hfs
    exact hfs
  have hrest : u = { s with freelist := u.freelist, mem := u.mem, ptables := u.ptables } := by
    rw [hg.frame]
    rfl
  have hup : u.proc = s.proc := hg.proc_eq
  have hkept : Kept p s (u.putPage f) := by
    refine ⟨?_, fun q _ => ?_, ?_, fun r hr => ?_, fun g => ?_⟩
    · rw [hrest]
      rfl
    · rw [putPage_proc, hup]
    · rw [putPage_proc, hup]
    · rw [putPage_ptables, hg.table_of_ne hr]
      rfl
    · show u.ftable g = { s.ftable g with off := (u.ftable g).off }
      rw [hrest]
  have hpte : ((u.putPage f).pager p).pte = (s.pager p).pte := by
    funext v
    show (u.ptables (u.proc p).pagetable).pte v = _
    rw [hup, hg.pte_eq]
    rfl
  have hfile : ((u.putPage f).pager p).file = (s.pager p).file := by
    refine hkept.swapInode_eq ?_
    show u.inode = s.inode
    rw [hrest]
  refine ⟨h.of_kept hkept ?_, hset, hkept, fun v hv _ => ?_, fun v h1 h2 => by omega⟩
  · refine h.layout.lose fresh hpte ?_ ?_ hfile ?_
    · show (u.proc p).ram = (s.proc p).ram
      rw [hup]
    · show (u.proc p).swap = (s.proc p).swap
      rw [hup]
    · show s.freelist.Perm (fresh ++ f :: u.freelist)
      rw [hfree, hfs', hnil]
      exact (List.perm_append_singleton f fresh).symm
  · refine Pager.Layout.page_congr hv (by rw [hpte]) (fun q hq => ?_) fun _ _ _ => by rw [hfile]
    have hq' := h.layout.owned.apart v q hq
    change q ∉ s.freelist at hq'
    rw [hfree, hfs', List.mem_cons, not_or] at hq'
    show update u.mem f _ q = s.mem q
    rw [update_of_ne hq'.1, hmem q hq'.2]
    simp [freshPage, takePage, hq'.1]

end Append

/-! ## Growing -/

/-- The frames that growing by `m` pages takes while it runs: one for each page that gets a free
`ram` slot, the missing page-table pages, and a buffer if pages have to leave. -/
def Kernel.growDemand (s : Kernel) (p : Fin nproc) (m : Nat) : Nat :=
  if m = 0 then 0
  else s.tableDemand p + min m (s.ramRoom p) + if s.ramRoom p < m then 1 else 0

section Grow

variable {B : Build} {pol : Policy} {p : Fin nproc} {n m : Nat} {s : Kernel} {L : Nat → Loc}
  {k : Fin maxPsycPages}

theorem ramRoom_pos_iff : 0 < s.ramRoom p ↔ countPages (s.proc p).ram < maxPsycPages :=
  Nat.sub_pos_iff_lt

theorem Paged.pos_of_full (h : Paged B p n L s) (hroom : s.ramRoom p = 0) : 0 < n := by
  have hfull := countPages_full (ramRoom_pos_iff.not.mp (Nat.not_lt.mpr (Nat.le_of_eq hroom)))
  obtain ⟨v, hv, -⟩ := h.layout.ramUsed 0 (hfull 0)
  omega

/-- **The slot for a new page**: a free one, or that of a page that had to leave. -/
theorem uvmallocSlot_paged (hB : B.selection = .paging pol) (h : Paged B p n L s)
    (hset : Settled n L) (hn : n < maxTotalPages) :
    wp (uvmallocSlot B (s.proc p).pagetable (n * pgsize))
      (fun k s' => ((s'.proc p).ram k).used = false ∧
        (∃ L', Settled n L' ∧ Repaged B p n s L s' L') ∧
        ((0 < s.ramRoom p ∧ s' = s) ∨ (s.ramRoom p = 0 ∧ s.freelist ≠ [] ∧
          s'.freelist.length = s.freelist.length + 1 ∧
          ∀ i, i ≠ k → ((s'.proc p).ram i).used = true)))
      (fun e _ => e ≠ .exited ∧ s.ramRoom p = 0 ∧ s.freelist = []) s := by
  have hdiv : ¬¬n * pgsize / pgsize < maxTotalPages := by
    rw [page_div]
    exact not_not.mpr hn
  simp only [uvmallocSlot, hB, wp_bind, wp_myproc h.cur, wp_getProc, gt_iff_lt, if_pos h.pid,
    if_neg hdiv, if_true]
  refine wp_ite (fun hlt => ?_) fun hfull => ?_
  · obtain ⟨i, hi⟩ := countPages_lt_iff.mp hlt
    obtain ⟨k, hk⟩ := findSlot_isSome (c := fun d => !d.used) (d := (s.proc p).ram) (k := i)
      (by simp [hi])
    rw [hk, Option.getD_some]
    exact ⟨by simpa using findSlot_some hk, ⟨L, hset, h.aged (.refl p s)⟩,
      .inl ⟨ramRoom_pos_iff.mpr hlt, rfl⟩⟩
  · have hroom : s.ramRoom p = 0 := Nat.eq_zero_of_not_pos (ramRoom_pos_iff.not.mpr hfull)
    refine wp_mono (exchangePages_paged h hset (countPages_full hfull) hn) ?_ ?_
    · rintro k t ⟨hfree, hlen, hk, hothers, hre⟩
      exact ⟨hk, hre, .inr ⟨hroom, hfree, hlen, hothers⟩⟩
    · rintro e t ⟨he, hnil⟩
      exact ⟨he, hroom, hnil⟩

/-- What `uvmalloc` does for one page: the page `n` is added, or the frames have run out and the
pages from `n₀` on are given up. -/
def Allocated (B : Build) (p : Fin nproc) (n₀ n : Nat) (s : Kernel) (L : Nat → Loc) (o : Option Nat)
    (s' : Kernel) : Prop :=
  (o = none ∧ s.freelist.length = s'.freelist.length + 1 + s.tableDemand p ∧
      countPages (s'.proc p).ram = countPages (s.proc p).ram + 1 ∧
      ∃ L', Resized B p n s L (n + 1) s' L') ∨
    (o = some 0 ∧ s.freelist.length < 1 + s.tableDemand p ∧ ∃ L', Resized B p n s L n₀ s' L')

/-- **The allocation of a page** for a free slot. -/
theorem uvmallocPage_paged {n₀ : Nat} (hB : B.selection = .paging pol) (h : Paged B p n L s)
    (hset : Settled n L) (hn : n < maxTotalPages) (hk : ((s.proc p).ram k).used = false)
    (hn₀ : n₀ ≤ n) : wp (uvmallocPage B (s.proc p).pagetable (n₀ * pgsize) (n * pgsize) k)
      (Allocated B p n₀ n s L) (fun _ _ => False) s := by
  have hlow : n < 512 := Nat.lt_trans hn (by decide)
  have hdemand : (s.ptables (s.proc p).pagetable).missing n = s.tableDemand p := missing_low hlow
  have hbound : n < 2 ^ 51 := Nat.lt_trans hn (by decide)
  have hV : hasFlag ((s.ptables (s.proc p).pagetable).pte n) pteV = false :=
    (h.layout.beyond n le_rfl).2 hn
  -- giving up the pages since `n₀` brings the old address space back
  have hback : ∀ t, Resized B p n s L n t L → s.freelist.length < 1 + s.tableDemand p →
      wp (uvmdealloc B (s.proc p).pagetable (n * pgsize) (n₀ * pgsize))
        (fun _ s' => Allocated B p n₀ n s L (some 0) s') (fun _ _ => False) t := by
    intro t ht hshort
    rw [← ht.kept.pagetable_eq]
    refine wp_post (uvmdealloc_paged hB ht.paged ht.settled (pgroundup_mul hbound)
      (pgroundup_mul (Nat.lt_of_le_of_lt hn₀ hbound)) (Nat.mul_le_mul_right _ hn₀) hn₀) ?_
    rintro a u ⟨-, hu⟩
    exact .inr ⟨rfl, hshort, L, ht.trans le_rfl hu⟩
  refine wp_uvmallocPage h.zero_notMem (fun msg t hno => ?_) (fun t ht => ?_) ?_
  · refine hno ⟨fun f hf => h.isFrame_of_mem hf, page_lt_maxva hn, ?_⟩
    simp only [Build.remaps, hB, hV]
  · rcases ht with ⟨hnil, rfl⟩ | ⟨f, fs, u, i, hfree, -, hi, hg, hnil, rfl⟩
    · refine hback t (.refl h hset) ?_
      rw [hnil, List.length_nil]
      omega
    · refine hback _ (h.giveBack hset hfree hg hnil) ?_
      have hlen : fs.length = i + u.freelist.length := hg.length_eq
      rw [hnil, List.length_nil] at hlen
      rw [hfree, List.length_cons]
      omega
  · intro f fs t hfree _ _ _ _ hg hp
    have htp : t.proc = s.proc := hg.proc_eq
    have hrec := @wp_uvmallocRecord B pol p n f t k
      (fun _ s' => Allocated B p n₀ n s L none s') (fun _ _ => False) hB (hg.cur_eq.trans h.cur)
    rw [htp] at hrec
    refine hrec h.pid hn hp (.inl ⟨rfl, ?_, ?_, _, h.append hset hn hk hfree hg hp⟩)
    · have hlen : fs.length = _ + t.freelist.length := hg.length_eq
      rw [hfree, List.length_cons, hlen, hdemand]
      show _ = t.freelist.length + 1 + _
      omega
    · rw [addPage, setProc_self, htp]
      exact countPages_update hk (stampPage_used _ _ _ _)

/-- **One round of `uvmalloc`** takes a free slot and its frames, or a slot and a frame from another
page; or the pages from `n₀` on are given up. -/
theorem uvmallocRound_paged {n₀ j : Nat} (hB : B.selection = .paging pol)
    (h : Paged B p (n₀ + j) L s) (hset : Settled (n₀ + j) L) (hn : n₀ + j < maxTotalPages) :
    wp (uvmallocRound B (s.proc p).pagetable (n₀ * pgsize) j)
      (fun o s' => (o = none ∧ (∃ L', Resized B p (n₀ + j) s L (n₀ + j + 1) s' L') ∧
          (s.ramRoom p = s'.ramRoom p + 1 ∧
              s.freelist.length = s'.freelist.length + 1 + s.tableDemand p ∨
            s.ramRoom p = 0 ∧ s'.ramRoom p = 0 ∧ 0 < s.freelist.length ∧
              s'.freelist.length = s.freelist.length)) ∨
        (o = some 0 ∧ 0 < s.ramRoom p ∧ s.freelist.length < 1 + s.tableDemand p ∧
          ∃ L', Resized B p (n₀ + j) s L n₀ s' L'))
      (fun e _ => e ≠ .exited ∧ s.ramRoom p = 0 ∧ s.freelist = []) s := by
  simp only [uvmallocRound, wp_bind, ← Nat.add_mul]
  refine wp_post (uvmallocSlot_paged hB h hset hn) ?_
  rintro k t ⟨hk, ⟨L', hset', hre⟩, hslot⟩
  have hroot := hre.kept.pagetable_eq
  have hpage := uvmallocPage_paged hB hre.paged hset' hn hk (Nat.le_add_right n₀ j)
  rw [hroot] at hpage
  have hres := hre.resized hset'
  refine wp_mono hpage ?_ fun _ _ hfalse => hfalse.elim
  have hle := countPages_le (t.proc p).ram
  rintro o u (⟨rfl, hlen, hcount, L'', hu⟩ | ⟨rfl, hshort, L'', hu⟩)
  · left
    refine ⟨rfl, ⟨L'', hres.trans le_rfl hu⟩, ?_⟩
    have hle' := countPages_le (u.proc p).ram
    rcases hslot with ⟨hroom, rfl⟩ | ⟨hroom, hfree, hlen', hothers⟩
    · left
      refine ⟨?_, hlen⟩
      unfold ramRoom
      omega
    · -- a slot was made free, so the array is full again, and the table is there
      right
      have hdemand := hre.paged.tableDemand_eq_zero (h.pos_of_full hroom)
      have hpos := List.length_pos_of_ne_nil hfree
      have hfull : countPages (t.proc p).ram + 1 = maxPsycPages := by
        rw [← countPages_update hk (stampPage_used pol 0#32 .zero 0)]
        refine countPages_of_full fun x => ?_
        by_cases hx : x = k
        · rw [hx, update_self, stampPage_used]
        · rw [update_of_ne hx]
          exact hothers x hx
      refine ⟨hroom, ?_, hpos, by omega⟩
      unfold ramRoom
      omega
  · right
    rcases hslot with ⟨hroom, rfl⟩ | ⟨hroom, hfree, hlen', hothers⟩
    · exact ⟨rfl, hroom, hshort, L'', hres.trans le_rfl hu⟩
    · -- the eviction has freed a frame
      exfalso
      have hdemand := hre.paged.tableDemand_eq_zero (h.pos_of_full hroom)
      have hpos := List.length_pos_of_ne_nil hfree
      omega

/-- The state of `uvmalloc` after `j` rounds from the state `s`. -/
structure Growing (B : Build) (p : Fin nproc) (n : Nat) (s : Kernel) (L : Nat → Loc) (j : Nat)
    (t : Kernel) : Prop where
  resized : ∃ L', Resized B p n s L (n + j) t L'
  room : t.ramRoom p = s.ramRoom p - j
  demand : t.tableDemand p = if j = 0 then s.tableDemand p else 0
  frames : s.freelist.length = t.freelist.length + min j (s.ramRoom p) +
    if j = 0 then 0 else s.tableDemand p
  buffer : s.ramRoom p < j → 0 < t.freelist.length

namespace Growing

variable {j : Nat} {t u : Kernel}

theorem zero (h : Paged B p n L s) (hset : Settled n L) : Growing B p n s L 0 s :=
  ⟨⟨L, .refl h hset⟩, rfl, rfl, by simp, fun h => absurd h (Nat.not_lt_zero _)⟩

theorem demand_of_full (h : Growing B p n s L j t) (hroom : t.ramRoom p = 0) :
    t.tableDemand p = 0 := by
  obtain ⟨L', hres⟩ := h.resized
  exact hres.paged.tableDemand_eq_zero (hres.paged.pos_of_full hroom)

theorem succ {L' L'' : Nat → Loc} (h : Growing B p n s L j t)
    (hres : Resized B p n s L (n + j) t L') (hu : Resized B p (n + j) t L' (n + j + 1) u L'')
    (hround : t.ramRoom p = u.ramRoom p + 1 ∧
        t.freelist.length = u.freelist.length + 1 + t.tableDemand p ∨
      t.ramRoom p = 0 ∧ u.ramRoom p = 0 ∧ 0 < t.freelist.length ∧
        u.freelist.length = t.freelist.length) : Growing B p n s L (j + 1) u := by
  have hroom := h.room
  have hdemand := h.demand
  have hframes := h.frames
  have hzero := h.demand_of_full
  refine ⟨⟨L'', hres.trans (Nat.le_add_right n j) hu⟩, ?_, ?_, ?_, ?_⟩
  · omega
  · rw [if_neg (Nat.succ_ne_zero j)]
    exact hu.paged.tableDemand_eq_zero (Nat.succ_pos _)
  · rw [if_neg (Nat.succ_ne_zero j)]
    split at hdemand <;> split at hframes <;> omega
  · omega

end Growing

theorem pgroundup_eq (sz : Nat) : pgroundup sz = pagesOf sz * pgsize := by
  rw [pagesOf, Nat.div_mul_cancel (Nat.dvd_of_mod_eq_zero (pgroundup_mod sz))]

theorem pagesOf_eq {sz : Nat} (h : sz ≤ maxTotalPages * pgsize) :
    pagesOf sz = (sz + (pgsize - 1)) / pgsize := by
  rw [pagesOf, pgroundup_of_lt, page_div]
  simp only [maxTotalPages, pgsize] at *
  omega

theorem pageRounds_eq {oldsz newsz : Nat} (hle : oldsz ≤ newsz)
    (h : newsz ≤ maxTotalPages * pgsize) :
    pageRounds (pagesOf oldsz * pgsize) newsz = pagesOf newsz - pagesOf oldsz := by
  rw [pageRounds, pagesOf_eq h, pagesOf_eq (Nat.le_trans hle h)]
  simp only [maxTotalPages, pgsize] at *
  omega

/-- **`uvmalloc`** on the table of the running process. -/
theorem uvmalloc_paged {oldsz newsz : Nat} (hB : B.selection = .paging pol)
    (h : Paged B p (pagesOf oldsz) L s) (hset : Settled (pagesOf oldsz) L) (hle : oldsz ≤ newsz)
    (hsz : newsz ≤ maxTotalPages * pgsize) : wp (uvmalloc B (s.proc p).pagetable oldsz newsz)
      (fun a s' => (a = newsz ∧ s.growDemand p (pagesOf newsz - pagesOf oldsz) ≤ s.freelist.length ∧
          ∃ L', Resized B p (pagesOf oldsz) s L (pagesOf newsz) s' L') ∨
        (a = 0 ∧ pagesOf oldsz < pagesOf newsz ∧ s.freelist.length <
            s.tableDemand p + min (pagesOf newsz - pagesOf oldsz) (s.ramRoom p) ∧
          ∃ L', Resized B p (pagesOf oldsz) s L (pagesOf oldsz) s' L'))
      (fun e _ => e ≠ .exited ∧ s.ramRoom p < pagesOf newsz - pagesOf oldsz ∧
        s.freelist.length = s.tableDemand p + s.ramRoom p) s := by
  have hmono : pagesOf oldsz ≤ pagesOf newsz := by
    rw [pagesOf_eq hsz, pagesOf_eq (Nat.le_trans hle hsz)]
    exact Nat.div_le_div_right (Nat.add_le_add_right hle _)
  have htotal : pagesOf newsz ≤ maxTotalPages := by
    rw [pagesOf_eq hsz]
    simp only [maxTotalPages, pgsize] at *
    omega
  simp only [uvmalloc, if_neg (Nat.not_lt.mpr hle), wp_bind, pgroundup_eq, pageRounds_eq hle hsz]
  generalize pagesOf newsz = m at *
  generalize pagesOf oldsz = n at *
  -- the invariant is what the rounds so far have taken
  refine wp_forReturn (Growing B p n s L) (.zero h hset) ?_ ?_
  · intro j t _ hj ht
    obtain ⟨L', hres⟩ := ht.resized
    have hroom := ht.room
    have hdemand := ht.demand
    have hframes := ht.frames
    have hzero := ht.demand_of_full
    rw [← hres.kept.pagetable_eq]
    refine wp_mono (uvmallocRound_paged hB hres.paged hres.settled (by omega)) ?_ ?_
    · rintro o u (⟨rfl, ⟨L'', hu⟩, hround⟩ | ⟨rfl, hpos, hshort, L'', hu⟩)
      · exact ht.succ hres hu hround
      · refine .inr ⟨rfl, by omega, ?_, L'', hres.trans (Nat.le_add_right n j) hu⟩
        split at hdemand <;> split at hframes <;> omega
    · rintro e u ⟨he, hfull, hnil⟩
      rw [hnil, List.length_nil] at hframes
      refine ⟨he, by omega, ?_⟩
      have := hzero hfull
      split at hdemand <;> split at hframes <;> omega
  · intro t ht
    rw [Nat.zero_add] at ht
    obtain ⟨L', hres⟩ := ht.resized
    rw [Nat.add_sub_cancel' hmono] at hres
    refine .inl ⟨rfl, ?_, L', hres⟩
    have hframes := ht.frames
    have hbuffer := ht.buffer
    unfold growDemand
    split
    · exact Nat.zero_le _
    · split at hframes <;> split <;> omega

/-- The size that `growproc` is asked for: a sum below zero wraps around, and nothing is done. -/
def resizedTo (sz : Nat) (n : Int) : Nat := if 0 ≤ sz + n then (sz + n).toNat else sz

/-- The process with another size. -/
def Kernel.setSize (s : Kernel) (p : Fin nproc) (sz : Nat) : Kernel :=
  s.setProc p { s.proc p with sz := sz }

/-- What `growproc` does to a process of `sz` bytes: it has the new size; or it is as it was. -/
def Grown (B : Build) (p : Fin nproc) (n : Int) (s : Kernel) (L : Nat → Loc) (r : Int)
    (s' : Kernel) :
    Prop :=
  (r = 0 ∧ s.growDemand p (pagesOf (resizedTo (s.proc p).sz n) - pagesOf (s.proc p).sz) ≤
      s.freelist.length ∧
    ∃ t L', Resized B p (pagesOf (s.proc p).sz) s L (pagesOf (resizedTo (s.proc p).sz n)) t L' ∧
      s' = t.setSize p (resizedTo (s.proc p).sz n)) ∨
    (r = -1 ∧ pagesOf (s.proc p).sz < pagesOf (resizedTo (s.proc p).sz n) ∧
      s.freelist.length < s.tableDemand p +
        min (pagesOf (resizedTo (s.proc p).sz n) - pagesOf (s.proc p).sz) (s.ramRoom p) ∧
      ∃ L', Resized B p (pagesOf (s.proc p).sz) s L (pagesOf (s.proc p).sz) s' L')

/-- **`growproc`** of a paged process: it succeeds, it fails and leaves the process as it was, or it
panics because the free `ram` slots have used up the frames and a page has to leave. -/
theorem growproc_paged {n : Int} (hB : B.selection = .paging pol)
    (h : Paged B p (pagesOf (s.proc p).sz) L s) (hset : Settled (pagesOf (s.proc p).sz) L)
    (hsz : (s.proc p).sz ≤ maxTotalPages * pgsize) (hlo : -2 ^ 31 ≤ n)
    (hhi : (s.proc p).sz + n ≤ ((maxTotalPages * pgsize : Nat) : Int)) :
    wp (growproc B n) (Grown B p n s L) (fun e _ => e ≠ .exited ∧
        s.ramRoom p < pagesOf (resizedTo (s.proc p).sz n) - pagesOf (s.proc p).sz ∧
        s.freelist.length = s.tableDemand p + s.ramRoom p) s := by
  have htotal : maxTotalPages * pgsize = 131072 := rfl
  have hmod : (s.proc p).sz % 2 ^ 32 = (s.proc p).sz := Nat.mod_eq_of_lt (by omega)
  simp only [growproc, hB, wp_bind, wp_myproc h.cur, wp_getProc, hmod]
  -- a size that does not change
  have hsame : resizedTo (s.proc p).sz n = (s.proc p).sz →
      Grown B p n s L 0 (s.setSize p (s.proc p).sz) := fun heq => by
    rw [Grown, heq, Nat.sub_self]
    exact .inl ⟨rfl, Nat.zero_le _, s, L, .refl h hset, rfl⟩
  refine wp_ite (fun hpos => ?_) fun hpos => wp_ite (fun hneg => ?_) fun hneg => ?_
  · have hnew : resizedTo (s.proc p).sz n = u32 ((s.proc p).sz + n) := by
      rw [resizedTo, if_pos (by omega), u32]
      omega
    have hlt : u32 ((s.proc p).sz + n) ≤ maxTotalPages * pgsize := by
      unfold u32
      omega
    have hle : (s.proc p).sz < u32 ((s.proc p).sz + n) := by
      unfold u32
      omega
    rw [wp_bind]
    refine wp_mono (uvmalloc_paged hB h hset (Nat.le_of_lt hle) hlt) ?_ ?_
    · rintro a t (⟨rfl, hdemand, L', hres⟩ | ⟨rfl, hmore, hshort, L', hres⟩)
      · have hmod' : u32 ((s.proc p).sz + n) % 2 ^ 32 = u32 ((s.proc p).sz + n) :=
          Nat.mod_eq_of_lt (by omega)
        rw [hmod', if_neg (by omega)]
        left
        rw [hnew]
        exact ⟨rfl, hdemand, t, L', hres, rfl⟩
      · rw [if_pos (by decide)]
        right
        rw [hnew]
        exact ⟨rfl, hmore, hshort, L', hres⟩
    · rintro e t ⟨he, hroom, hlen⟩
      rw [hnew]
      exact ⟨he, hroom, hlen⟩
  · rw [wp_bind]
    by_cases hsum : 0 ≤ (s.proc p).sz + n
    · have hnew : resizedTo (s.proc p).sz n = u32 ((s.proc p).sz + n) := by
        rw [resizedTo, if_pos hsum, u32]
        omega
      have hle : u32 ((s.proc p).sz + n) ≤ (s.proc p).sz := by
        unfold u32
        omega
      have hpages : pagesOf (u32 ((s.proc p).sz + n)) ≤ pagesOf (s.proc p).sz := by
        rw [pagesOf_eq hsz, pagesOf_eq (Nat.le_trans hle hsz)]
        exact Nat.div_le_div_right (Nat.add_le_add_right hle _)
      refine wp_mono (uvmdealloc_paged hB h hset (pgroundup_eq _) (pgroundup_eq _) hle hpages) ?_
        fun _ _ hfalse => hfalse.elim
      rintro a t ⟨rfl, hres⟩
      have hmod' : u32 ((s.proc p).sz + n) % 2 ^ 32 = u32 ((s.proc p).sz + n) :=
        Nat.mod_eq_of_lt (by omega)
      rw [hmod']
      left
      rw [hnew, Nat.sub_eq_zero_of_le hpages]
      exact ⟨rfl, Nat.zero_le _, t, L, hres, rfl⟩
    · -- the difference wraps around to a size that is not smaller
      have hge : u32 ((s.proc p).sz + n) ≥ (s.proc p).sz := by
        unfold u32
        omega
      rw [uvmdealloc, if_pos hge]
      simp only [wp_pure, hmod]
      exact hsame (if_neg hsum)
  · refine hsame ?_
    rw [resizedTo, if_pos (by omega)]
    omega

end Grow

end Xv6Paging
