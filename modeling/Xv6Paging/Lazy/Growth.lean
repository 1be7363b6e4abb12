import Xv6Paging.Lazy.Guard
import Xv6Paging.Proc.Sbrk

/-!
# Lazy growth that fails

`lazy_alloc` reserves its pages one after the other and returns when `walk` cannot allocate a
page-table page.  It does not take back the pages that it has reserved by then: they stay valid
above the size of the process, where `freewalk` meets them when the process is freed.
-/

namespace Xv6Paging

open StateHalt PageTable

/-- The first page at or above the size of the process. -/
def Kernel.topPage (s : Kernel) (p : Fin nproc) : Nat := pgroundup (s.proc p).sz / pgsize

/-- No page from the size of the process up to the trapframe is valid. -/
def NoTrace (s : Kernel) (p : Fin nproc) : Prop :=
  ∀ v, s.topPage p ≤ v → v * pgsize < trapframeVa →
    hasFlag ((s.ptables (s.proc p).pagetable).pte v) pteV = false

/-- A fault from the size of the process up to the trapframe kills it. -/
def FaultsKill (B : Build) (s : Kernel) (p : Fin nproc) : Prop :=
  ∀ stval, s.topPage p * pgsize ≤ stval → stval < trapframeVa →
    ∃ s', handlePageFault B stval s = .ok () s' ∧ (s'.proc p).killed = true

/-- If the process is freed, in any state with its table, this comes to `freewalk` on a table whose
entries are cleared. -/
def MeetsCleared (B : Build) (s : Kernel) (p : Fin nproc) : Prop :=
  ∀ t : Kernel, t.ptables (s.proc p).pagetable = s.ptables (s.proc p).pagetable →
    ∃ t', procFreepagetable B (s.proc p).pagetable (s.proc p).sz t =
        freewalk B (s.proc p).pagetable t' ∧
      ∀ v, v * pgsize < maxva → hasFlag ((t'.ptables (s.proc p).pagetable).pte v) pteV = false

/-- The table of a process of the lazy kernel: valid are the pages below its size, the trapframe and
the trampoline, and what user code can reach are frames. -/
structure LazySpace (B : Build) (s : Kernel) (p : Fin nproc) : Prop where
  low : ∀ v, v < s.topPage p → hasFlag ((s.ptables (s.proc p).pagetable).pte v) pteV = true
  high : NoTrace s p
  trapframe : hasFlag ((s.ptables (s.proc p).pagetable).pte (trapframeVa / pgsize)) pteV = true
  trampoline : hasFlag ((s.ptables (s.proc p).pagetable).pte (trampolineVa / pgsize)) pteV = true
  user : ∀ v, (s.ptables (s.proc p).pagetable).userPa (v * pgsize) ≠ 0 →
    IsFrame B ((s.ptables (s.proc p).pagetable).userPa (v * pgsize))

section Growth

variable {B : Build} {s s' : Kernel} {p : Fin nproc} {n : Int} {r v : Nat}

/-! ## The reservation loop -/

/-- After `k` rounds of `lazy_alloc` from the page `v` on: these pages are valid, and the walk to
the first one found its page-table pages. -/
structure ReservedUpTo (r v k : Nat) (s t : Kernel) : Prop where
  rest : t = { s with freelist := t.freelist, mem := t.mem, ptables := t.ptables }
  free : t.freelist ⊆ s.freelist
  mem : ∀ q, q ∉ s.freelist → t.mem q = s.mem q
  zero : 0 ∉ t.freelist
  pte : ∀ w, (t.ptables r).pte w =
    if v ≤ w ∧ w < v + k then (s.ptables r).pte w ||| pteV else (s.ptables r).pte w
  start : k = 0 → t = s
  first : 0 < k → (s.ptables r).missing v ≤ s.freelist.length

namespace ReservedUpTo

variable {k : Nat} {t u : Kernel}

theorem refl (hz : 0 ∉ s.freelist) : ReservedUpTo r v 0 s s where
  rest := rfl
  free := List.Subset.refl _
  mem _ _ := rfl
  zero := hz
  pte w := by rw [if_neg (by omega)]
  start _ := rfl
  first h := absurd h (Nat.lt_irrefl 0)

theorem grows {m w : Nat} (h : ReservedUpTo r v k s t) (hg : Grows r w m t u) :
    u.freelist ⊆ s.freelist ∧ ∀ q, q ∉ s.freelist → u.mem q = s.mem q := by
  obtain ⟨fresh, hfs, -, hmem⟩ := hg.taken
  have hsub : fresh ++ u.freelist ⊆ s.freelist := by
    rw [← hfs]
    exact h.free
  refine ⟨fun q hq => hsub (List.mem_append_right _ hq), fun q hq => ?_⟩
  rw [hmem q fun hin => hq (hsub (List.mem_append_left _ hin)), h.mem q hq]

theorem succ (h : ReservedUpTo r v k s t) {m : Nat} (hg : Grows r (v + k) m t u)
    (hm : k = 0 → m = (s.ptables r).missing v) (hp : (u.ptables r).present (v + k)) :
    ReservedUpTo r v (k + 1) s (u.setPte r (v + k) ((u.ptables r).leaf (v + k) ||| pteV)) where
  rest := by
    rw [hg.frame, h.rest]
    rfl
  free := (h.grows hg).1
  mem := (h.grows hg).2
  zero := hg.zero_notMem h.zero
  pte w := by
    rw [Kernel.setPte, Kernel.setTable_self, pte_setLeaf _ hp,
      ← pte_of_present _ hp, hg.pte_eq, hg.pte_eq, h.pte, h.pte]
    by_cases hw : w = v + k
    · subst hw
      rw [if_pos rfl, if_neg (by omega), if_pos (by omega)]
    · rw [if_neg hw]
      by_cases hlt : v ≤ w ∧ w < v + k
      · rw [if_pos hlt, if_pos (by omega)]
      · rw [if_neg hlt, if_neg (by omega)]
  start h0 := absurd h0 (Nat.succ_ne_zero k)
  first _ := by
    rcases Nat.eq_zero_or_pos k with h0 | hpos
    · have hlen := hg.length_eq
      rw [h.start h0, hm h0] at hlen
      omega
    · exact h.first hpos

end ReservedUpTo

/-- `lazy_alloc` has stopped: the pages before `v + k` are reserved, and the walk to that page
found no free page for the table. -/
structure Stopped (r v k : Nat) (s t : Kernel) : Prop where
  rest : t = { s with freelist := t.freelist, mem := t.mem, ptables := t.ptables }
  mem : ∀ q, q ∉ s.freelist → t.mem q = s.mem q
  pte : ∀ w, (t.ptables r).pte w =
    if v ≤ w ∧ w < v + k then (s.ptables r).pte w ||| pteV else (s.ptables r).pte w
  first : k = 0 ↔ s.freelist.length < (s.ptables r).missing v

theorem ReservedUpTo.stopped {k m : Nat} {t u : Kernel} (h : ReservedUpTo r v k s t)
    (hnil : u.freelist = []) (hm : m < (t.ptables r).missing (v + k))
    (hg : Grows r (v + k) m t u) : Stopped r v k s u where
  rest := by
    rw [hg.frame, h.rest]
  mem := (h.grows hg).2
  pte w := by rw [hg.pte_eq, h.pte]
  first := by
    have hlen := hg.length_eq
    rw [hnil, List.length_nil] at hlen
    constructor
    · rintro rfl
      obtain rfl := h.start rfl
      rw [Nat.add_zero] at hm
      omega
    · intro hlt
      by_contra hne
      have := h.first (Nat.pos_of_ne_zero hne)
      omega

/-- **`lazy_alloc`** reserves the pages up to the new size, or stops on the way and returns 0. -/
theorem lazyAlloc_spec {oldsz newsz : Nat} (hz : 0 ∉ s.freelist) (hle : oldsz ≤ newsz)
    (hv : pgroundup oldsz = v * pgsize) (hnew : newsz < maxva) :
    wp (lazyAlloc r oldsz newsz) (fun a t =>
        (a = i32 newsz ∧ ReservedUpTo r v (pageRounds (v * pgsize) newsz) s t) ∨
        (a = 0 ∧ ∃ k < pageRounds (v * pgsize) newsz, Stopped r v k s t)) (fun _ _ => False) s := by
  simp only [lazyAlloc, if_neg (Nat.not_lt.mpr hle), hv, wp_bind]
  refine wp_forReturn (fun k t => ReservedUpTo r v k s t) (ReservedUpTo.refl hz) ?_ ?_
  · intro k t _ hk ht
    rw [Nat.zero_add] at hk
    have hpage : v * pgsize + k * pgsize = (v + k) * pgsize := (Nat.add_mul v k pgsize).symm
    -- the loop stays below the new size, so `walk` does not panic
    have hlt : (v + k) * pgsize < maxva := by
      simp only [pageRounds, pgsize] at hk ⊢
      omega
    simp only [lazyAllocRound, wp_bind, hpage]
    refine wp_mono (walk_alloc_spec ht.zero) ?_ fun _ _ h => absurd h.2 (Nat.not_le.mpr hlt)
    rintro o u ⟨-, hw⟩
    rw [page_div] at hw
    rcases hw with ⟨rfl, hnil, m, hm, hg⟩ | ⟨rfl, hp, hg⟩
    · exact .inr ⟨rfl, k, hk, ht.stopped hnil hm hg⟩
    · refine ht.succ hg (fun h0 => ?_) hp
      subst h0
      rw [ht.start rfl, Nat.add_zero]
  · intro t ht
    rw [Nat.zero_add] at ht
    refine .inl ⟨?_, ht⟩
    rw [Option.getD_none]

/-! ## A growth that fails -/

theorem pgroundup_topPage : pgroundup (s.proc p).sz = s.topPage p * pgsize := by
  simp only [Kernel.topPage, pgroundup, pgsize]
  omega

/-- **`growproc` of the lazy kernel** always returns, and fails only because `lazy_alloc` has
stopped. -/
theorem growproc_lazy (hB : B.selection = .none) (hc : s.cur = some p)
    (hsz : (s.proc p).sz < 2 ^ 32) (hz : 0 ∉ s.freelist) (hpos : 0 < n) (hhi : n < 2 ^ 31) :
    wp (growproc B n) (fun a t => a = 0 ∨ a = -1 ∧
      ∃ k, Stopped (s.proc p).pagetable (s.topPage p) k s t) (fun _ _ => False) s := by
  have hlt := u32_lt ((s.proc p).sz + n)
  simp only [growproc, hB, lazyGrowproc, wp_bind, wp_myproc hc, wp_getProc,
    Nat.mod_eq_of_lt hsz, if_pos hpos]
  by_cases hwrap : u32 ((s.proc p).sz + n) < (s.proc p).sz
  · -- a sum that wraps around is no failure
    simp only [lazyAlloc, if_pos hwrap, wp_pure, u32_i32 hsz]
    rw [if_neg (by omega)]
    exact .inl rfl
  · refine wp_post (lazyAlloc_spec hz (Nat.not_lt.mp hwrap) pgroundup_topPage
      (by simp only [maxva]; omega)) ?_
    rintro a t (⟨ha, -⟩ | ⟨ha, k, -, hk⟩)
    · have hne : ¬u32 ((s.proc p).sz + n) = 0 := by
        unfold u32 at hwrap ⊢
        omega
      rw [ha, u32_i32 hlt, if_neg hne]
      exact .inl rfl
    · rw [ha, if_pos (show u32 0 = 0 from rfl)]
      exact .inr ⟨rfl, k, hk⟩

theorem growproc_fails (hB : B.selection = .none) (hc : s.cur = some p)
    (hsz : (s.proc p).sz < 2 ^ 32) (hz : 0 ∉ s.freelist) (hpos : 0 < n) (hhi : n < 2 ^ 31)
    (h : growproc B n s = .ok (-1) s') :
    ∃ k, Stopped (s.proc p).pagetable (s.topPage p) k s s' := by
  rcases wp_returns (growproc_lazy hB hc hsz hz hpos hhi) h with h0 | ⟨-, hk⟩
  · exact absurd h0 (by decide)
  · exact hk

theorem NoTrace.faultsKill (hB : B.selection = .none) (hc : s.cur = some p) (h : NoTrace s p) :
    FaultsKill B s p := by
  intro stval hlo hhi
  have hva : pgrounddown stval < maxva := pgrounddown_lt_maxva.mpr (by
    simp only [trapframeVa, trampolineVa] at hhi
    omega)
  have hV : hasFlag ((s.ptables (s.proc p).pagetable).pte (stval / pgsize)) pteV = false := by
    apply h
    · exact (Nat.le_div_iff_mul_le (by decide)).mpr hlo
    · exact Nat.lt_of_le_of_lt (Nat.div_mul_le_self stval pgsize) hhi
  have hkill : wp (handlePageFault B stval) (fun _ s' => (s'.proc p).killed = true)
      (fun _ _ => False) s := by
    simp only [handlePageFault, hB]
    rw [wp_handleNone_kill hc hva fun h => by simp [hV] at h]
    simp [Kernel.markKilled]
  obtain ⟨_, s', hok, hs'⟩ := wp_total hkill
  exact ⟨s', hok, hs'⟩

/-! ## The end of the process -/

/-- What `proc_freepagetable` does before it calls `freewalk`. -/
def unmapSpace (B : Build) (pagetable sz : Nat) : KM Unit := do
  uvmunmap B pagetable trampolineVa 1 false
  uvmunmap B pagetable trapframeVa 1 false
  onlyIf (sz > 0) (uvmunmap B pagetable 0 (pgroundup sz / pgsize) true)

theorem procFreepagetable_eq {sz : Nat} (h : unmapSpace B r sz s = .ok () s') :
    procFreepagetable B r sz s = freewalk B r s' := by
  have heq : procFreepagetable B r sz = unmapSpace B r sz >>= fun _ => freewalk B r := by
    simp only [procFreepagetable, unmapSpace, uvmfree, bind_assoc]
  rw [heq]
  show EStateM.bind _ _ s = _
  rw [EStateM.bind, h]

/-- Valid pages are unmapped; only the frame of the first one is looked at. -/
theorem wp_uvmunmap_lazy {m : Nat} {doFree : Bool} (hB : B.selection = .none)
    (hall : ∀ w, v ≤ w → w < v + m → LazyUnmappable (s.ptables r) w)
    (hframe : doFree = true → (s.ptables r).userPa (v * pgsize) ≠ 0 →
      IsFrame B ((s.ptables r).userPa (v * pgsize))) :
    wp (uvmunmap B r (v * pgsize) m doFree) (fun _ t => ∀ w, (t.ptables r).pte w =
      if v ≤ w ∧ w < v + m then 0#64 else (s.ptables r).pte w) (fun _ _ => False) s := by
  simp only [uvmunmap, hB]
  refine wp_mono uvmunmapNone_spec (fun _ t ht => ht.2.table.pte) fun e t he => ?_
  obtain ⟨hfree, -, hpa, hnot⟩ := he.2 hall
  exact hnot (hframe hfree hpa)

/-- **The process is freed**: what is valid in its table is unmapped. -/
theorem LazySpace.meetsCleared (hB : B.selection = .none) (hsz : (s.proc p).sz < 2 ^ 32)
    (h : LazySpace B s p) : MeetsCleared B s p := by
  intro t ht
  set r := (s.proc p).pagetable with hr
  have htop : s.topPage p ≤ 2 ^ 20 := by
    simp only [Kernel.topPage, pgroundup, pgsize]
    omega
  have htramp : trampolineVa = 67108863 * pgsize := by decide
  have htf : trapframeVa = 67108862 * pgsize := by decide
  have hspec : wp (unmapSpace B r (s.proc p).sz) (fun _ t' =>
      ∀ v, v * pgsize < maxva → hasFlag ((t'.ptables r).pte v) pteV = false)
      (fun _ _ => False) t := by
    simp only [unmapSpace, wp_bind, htramp, htf]
    refine wp_post (wp_uvmunmap_lazy hB (fun w h1 h2 => ?_) fun h => absurd h Bool.false_ne_true)
      fun _ t₁ h₁ => ?_
    · obtain rfl : w = 67108863 := by omega
      exact ⟨by decide, by rw [ht]; exact h.trampoline⟩
    refine wp_post (wp_uvmunmap_lazy hB (fun w h1 h2 => ?_) fun h => absurd h Bool.false_ne_true)
      fun _ t₂ h₂ => ?_
    · obtain rfl : w = 67108862 := by omega
      refine ⟨by decide, ?_⟩
      rw [h₁, if_neg (by decide), ht]
      exact h.trapframe
    -- the entries of the other pages are as before
    have hkept : ∀ w, w < 67108862 → (t₂.ptables r).pte w = (s.ptables r).pte w := fun w hw => by
      rw [h₂, if_neg (by omega), h₁, if_neg (by omega), ht]
    have hcleared : ∀ w, s.topPage p ≤ w → w * pgsize < maxva →
        hasFlag ((t₂.ptables r).pte w) pteV = false := by
      intro w hw hlt
      by_cases hlow : w < 67108862
      · rw [hkept w hlow]
        exact h.high w hw (by rw [htf]; exact Nat.mul_lt_mul_of_pos_right hlow (by decide))
      · have hzero : (t₂.ptables r).pte w = 0#64 := by
          simp only [maxva, pgsize] at hlt
          rw [h₂, h₁]
          split
          · rfl
          · rw [if_pos (by omega)]
        rw [hzero, hasFlag_zero]
    refine wp_onlyIf (fun _ => ?_) fun hzero => ?_
    · have hpages : pgroundup (s.proc p).sz / pgsize = s.topPage p := rfl
      have h0 : (0 : Nat) = 0 * pgsize := rfl
      rw [hpages, h0]
      refine wp_post (wp_uvmunmap_lazy hB (fun w _ hw => ?_) fun _ hpa => ?_) fun _ t₃ h₃ => ?_
      · refine ⟨?_, ?_⟩
        · simp only [maxva, pgsize]
          omega
        · rw [hkept w (by omega)]
          exact h.low w (by omega)
      · have heq : (t₂.ptables r).userPa (0 * pgsize) = (s.ptables r).userPa (0 * pgsize) := by
          simp only [userPa, page_div, hkept 0 (by decide)]
        rw [heq] at hpa ⊢
        exact h.user 0 hpa
      · intro w hlt
        rw [h₃]
        split
        · exact hasFlag_zero _
        · exact hcleared w (by omega) hlt
    · intro w hlt
      refine hcleared w ?_ hlt
      have : s.topPage p = 0 := by
        simp only [Kernel.topPage, pgroundup, pgsize]
        omega
      omega
  obtain ⟨_, t', hok, ht'⟩ := wp_total hspec
  exact ⟨t', procFreepagetable_eq hok, ht'⟩

/-- **A failing growth leaves no trace exactly when its first page fails**, that is when fewer pages
are free than the walk to the first new page needs. -/
theorem growproc_noTrace_iff (hB : B.selection = .none) (hc : s.cur = some p)
    (hsz : (s.proc p).sz < 2 ^ 32) (hz : 0 ∉ s.freelist) (hspace : LazySpace B s p) (hpos : 0 < n)
    (hhi : n < 2 ^ 31) (h : growproc B n s = .ok (-1) s') :
    (NoTrace s' p ∧ FaultsKill B s' p ∧ MeetsCleared B s' p) ↔
      s.freelist.length < (s.ptables (s.proc p).pagetable).missing (s.topPage p) := by
  obtain ⟨k, hk⟩ := growproc_fails hB hc hsz hz hpos hhi h
  have hproc : s'.proc = s.proc := by rw [hk.rest]
  have hcur : s'.cur = some p := by
    rw [hk.rest]
    exact hc
  have htop : s'.topPage p = s.topPage p := by simp only [Kernel.topPage, hproc]
  rw [← hk.first]
  constructor
  · rintro ⟨hno, -⟩
    by_contra hne
    have hlow : s.topPage p * pgsize < trapframeVa := by
      simp only [Kernel.topPage, pgroundup, trapframeVa, trampolineVa, maxva, pgsize]
      omega
    have hV := hno (s.topPage p) (by rw [htop]) hlow
    rw [hproc, hk.pte, if_pos (by omega), hasFlag_or, show hasFlag pteV pteV = true by decide,
      Bool.or_true] at hV
    exact absurd hV (by decide)
  · rintro rfl
    -- no entry has changed
    have hpte : ∀ w, (s'.ptables (s.proc p).pagetable).pte w =
        (s.ptables (s.proc p).pagetable).pte w := fun w => by rw [hk.pte, if_neg (by omega)]
    have huser : ∀ w, (s'.ptables (s.proc p).pagetable).userPa (w * pgsize) =
        (s.ptables (s.proc p).pagetable).userPa (w * pgsize) := fun w => by
      simp only [userPa, hpte]
    have hspace' : LazySpace B s' p := by
      constructor <;> simp only [NoTrace, htop, hproc, hpte, huser]
      · exact hspace.low
      · exact hspace.high
      · exact hspace.trapframe
      · exact hspace.trampoline
      · exact hspace.user
    exact ⟨hspace'.high, hspace'.high.faultsKill hB hcur,
      hspace'.meetsCleared hB (by rw [hproc]; exact hsz)⟩

end Growth

/-- A table that maps the trampoline and the trapframe only. -/
def bareTable : PageTable :=
  (((empty.newPage 2 255 (samplePage 1)).newPage 1 (255 * 512 + 511)
    (samplePage 2)).setLeaf (trampolineVa / pgsize)
      (pa2pte 0x80007000 ||| pteR ||| pteX ||| pteV)).setLeaf (trapframeVa / pgsize)
      (pa2pte (samplePage 5) ||| pteR ||| pteW ||| pteV)

/-- A process of size 0, in a kernel with the given free pages. -/
def bareKernel (free : List Nat) : Kernel :=
  { sampleKernel bareTable (sampleProc 3 0) with freelist := free }

theorem bareKernel_space (free : List Nat) : LazySpace (sampleBuild .none) (bareKernel free) 0 := by
  have hpte : ∀ w, bareTable.pte w =
      if w = trapframeVa / pgsize then pa2pte (samplePage 5) ||| pteR ||| pteW ||| pteV
      else if w = trampolineVa / pgsize then pa2pte 0x80007000 ||| pteR ||| pteX ||| pteV
      else 0#64 := fun w => by
    rw [bareTable, pte_setLeaf _ (by decide), pte_setLeaf _ (by decide)]
    simp [pte, newPage, empty]
  have htop : (bareKernel free).topPage 0 = 0 := by
    show pgroundup 0 / pgsize = 0
    decide
  refine ⟨fun v hv => absurd hv (htop ▸ Nat.not_lt_zero v), fun v _ hlow => ?_, ?_, ?_,
    fun v hpa => absurd ?_ hpa⟩
  · show hasFlag (bareTable.pte v) pteV = false
    simp only [trapframeVa, trampolineVa, maxva, pgsize] at hlow
    rw [hpte, if_neg, if_neg, hasFlag_zero] <;>
      simp only [trapframeVa, trampolineVa, maxva, pgsize] <;> omega
  · show hasFlag (bareTable.pte _) pteV = true
    decide
  · show hasFlag (bareTable.pte _) pteV = true
    decide
  · -- no page is a user page
    have hU : hasFlag (bareTable.pte v) pteU = false := by
      rw [hpte]
      split
      · decide
      · split
        · decide
        · exact hasFlag_zero _
    show bareTable.userPa (v * pgsize) = 0
    simp [userPa, hU]

/-- Without a free page nothing is reserved. -/
theorem bareKernel_stops : ∃ s', growproc (sampleBuild .none) pgsize (bareKernel []) =
    .ok (-1) s' ∧ NoTrace s' 0 ∧ FaultsKill (sampleBuild .none) s' 0 ∧
      MeetsCleared (sampleBuild .none) s' 0 := by
  obtain ⟨r, s', hs', rfl⟩ : ∃ r s', growproc (sampleBuild .none) pgsize (bareKernel []) =
      .ok r s' ∧ r = -1 := by
    refine wp_total ?_
    decide +kernel
  exact ⟨s', hs', (growproc_noTrace_iff rfl rfl (by decide +kernel) (by decide +kernel)
    (bareKernel_space []) (by decide) (by decide) hs').mpr (by decide +kernel)⟩

/-- With two free pages for the table, a growth by 513 pages reserves 512 and fails at the last:
they stay valid above the size of the process.  A fault on one asks for a frame, and `freewalk`
takes it for a pointer when the process is freed. -/
theorem bareKernel_leaves_pages :
    LazySpace (sampleBuild .none) (bareKernel [samplePage 20, samplePage 21]) 0 ∧
    ∃ r s', growproc (sampleBuild .none) (513 * pgsize)
        (bareKernel [samplePage 20, samplePage 21]) = .ok r s' ∧
      r = -1 ∧ (s'.proc 0).sz = 0 ∧ hasFlag ((s'.ptables (samplePage 0)).pte 511) pteV = true ∧
      wp (handlePageFault (sampleBuild .none) (511 * pgsize)) (fun _ _ => False)
        (fun e _ => e = .panic "uvmalloc failure") s' ∧
      wp (procFreepagetable (sampleBuild .none) (samplePage 0) 0) (fun _ _ => False)
        (fun e _ => e = .panic "kerneltrap") s' := by
  refine ⟨bareKernel_space _, wp_total ?_⟩
  decide +kernel

end Xv6Paging
