import Xv6Paging.Machine.Sample
import Xv6Paging.Memory.Logical
import Xv6Paging.Paging.Grow

/-!
# Well-formed paging states

When the arrays of a process, its entries and its swap file agree, in terms of the fields of the
kernel; and that they agree exactly when the pages of the process have a layout.
-/

namespace Xv6Paging

open StateHalt Ownership

/-- The entry `e` of `ram` (left) or `swap` (right) is in use and records the page `v`. -/
def Proc.Records (pr : Proc) (v : Nat) : Fin maxPsycPages ⊕ Fin maxPsycPages → Prop
  | .inl k => (pr.ram k).used = true ∧ (pr.ram k).va = pageVa v
  | .inr k => (pr.swap k).used = true ∧ (pr.swap k).va = pageVa v

/-- The entry of the page `v` in the table of the process `p`. -/
def Kernel.ptePage (s : Kernel) (p : Fin nproc) (v : Nat) : Pte :=
  (s.ptables (s.proc p).pagetable).pte v

/-- The pages of the process `p` are where its arrays say: every page is recorded by exactly one
entry, those in `ram` are mapped, those in `swap` are marked as swapped out and have the slot of
their index, and at most one page is not a user page. -/
structure WellFormed (p : Fin nproc) (s : Kernel) : Prop where
  size : (s.proc p).sz ≤ maxTotalPages * pgsize
  recorded : ∀ v, v * pgsize < (s.proc p).sz → ∃! e, (s.proc p).Records v e
  ram : ∀ k v, (s.proc p).Records v (.inl k) →
    hasFlag (s.ptePage p v) pteV = true ∧ hasFlag (s.ptePage p v) ptePG = false
  swap : ∀ k v, (s.proc p).Records v (.inr k) →
    ((s.proc p).swap k).offset = ((k * pgsize : Nat) : Int) ∧
      hasFlag (s.ptePage p v) ptePG = true ∧ hasFlag (s.ptePage p v) pteV = false
  unused : ∀ k, (((s.proc p).ram k).used = false → ((s.proc p).ram k).va = -1) ∧
    (((s.proc p).swap k).used = false → ((s.proc p).swap k).va = -1)
  guard : ∀ v w, v * pgsize < (s.proc p).sz → w * pgsize < (s.proc p).sz →
    hasFlag (s.ptePage p v) pteU = false → hasFlag (s.ptePage p w) pteU = false → v = w

/-- The frame of the page `v`, if it is a resident page of the process `p`. -/
def Kernel.frameOf (s : Kernel) (p : Fin nproc) (v : Nat) : Option Nat :=
  if v * pgsize < (s.proc p).sz ∧ hasFlag (s.ptePage p v) pteV = true then
    some (pte2pa (s.ptePage p v))
  else none

/-- What the rest of the kernel provides: the process `p` runs and is paged, its swap file is open
and holds the slots in use, no entry is in use for anything but a page, the resident pages have
different frames that are not free, pages have permissions, and there are no pages beyond the
size. -/
structure Sane (B : Build) (p : Fin nproc) (s : Kernel) : Prop where
  cur : s.cur = some p
  pid : 2 < (s.proc p).pid
  file : ∃ f, HasSwapFile s (s.proc p) f
  slots : ∀ k, ((s.proc p).swap k).used = true → (k + 1) * pgsize ≤ (s.swapInode (s.proc p)).size
  entries : ∀ k, (((s.proc p).ram k).used = true → ∃ v, v * pgsize < (s.proc p).sz ∧
      ((s.proc p).ram k).va = pageVa v) ∧
    (((s.proc p).swap k).used = true → ∃ v, v * pgsize < (s.proc p).sz ∧
      ((s.proc p).swap k).va = pageVa v)
  frames : Owned False (IsFrame B) s.freelist (s.frameOf p)
  leaf : ∀ v, v * pgsize < (s.proc p).sz → hasFlag (s.ptePage p v) Pager.permLeaf = true
  beyond : ∀ v, (s.proc p).sz ≤ v * pgsize → hasFlag (s.ptePage p v) ptePG = false ∧
    (v < maxTotalPages → hasFlag (s.ptePage p v) pteV = false)

/-- Where the arrays of a process say that the page `v` is. -/
def Proc.locOf (pr : Proc) (v : Nat) : Loc :=
  match findSlot (fun d => d.used && d.va == pageVa v) pr.ram with
  | some k => .ram k
  | none =>
    match findSlot (fun d => d.used && d.va == pageVa v) pr.swap with
    | some k => .swap k
    | none => .moving

theorem lt_pagesOf_iff {sz v : Nat} (h : sz ≤ maxTotalPages * pgsize) :
    v < pagesOf sz ↔ v * pgsize < sz := by
  rw [pagesOf_eq h]
  simp only [pgsize]
  omega

theorem pagesOf_le_iff {sz v : Nat} (h : sz ≤ maxTotalPages * pgsize) :
    pagesOf sz ≤ v ↔ sz ≤ v * pgsize := by
  rw [← Nat.not_lt, lt_pagesOf_iff h, Nat.not_lt]

theorem pagesOf_le_total {sz : Nat} (h : sz ≤ maxTotalPages * pgsize) :
    pagesOf sz ≤ maxTotalPages := by
  rw [pagesOf_le_iff h]
  exact h

/-! ## From the fields to a layout -/

section LocOf

variable {pr : Proc} {v : Nat} {k : Fin maxPsycPages}

theorem Proc.locOf_of_records (huniq : ∃! e, pr.Records v e) :
    (∀ k, pr.Records v (.inl k) → pr.locOf v = .ram k) ∧
      (∀ k, pr.Records v (.inr k) → pr.locOf v = .swap k) := by
  obtain ⟨e₀, -, huniq⟩ := huniq
  constructor
  · intro k hk
    obtain ⟨i, hi⟩ := findSlot_isSome (c := fun d => d.used && d.va == pageVa v) (d := pr.ram)
      (k := k) (by simp [hk.1, hk.2])
    have hi' : pr.Records v (.inl i) := by simpa [Proc.Records] using findSlot_some hi
    have heq := (huniq _ hi').trans (huniq _ hk).symm
    rw [Proc.locOf, hi]
    simpa using heq
  · intro k hk
    -- no entry of `ram` records the page as well
    cases hram : findSlot (fun d => d.used && d.va == pageVa v) pr.ram with
    | some i =>
      have hi' : pr.Records v (.inl i) := by simpa [Proc.Records] using findSlot_some hram
      exact absurd ((huniq _ hi').trans (huniq _ hk).symm) (by simp)
    | none =>
      obtain ⟨i, hi⟩ := findSlot_isSome (c := fun d => d.used && d.va == pageVa v) (d := pr.swap)
        (k := k) (by simp [hk.1, hk.2])
      have hi' : pr.Records v (.inr i) := by simpa [Proc.Records] using findSlot_some hi
      have heq := (huniq _ hi').trans (huniq _ hk).symm
      simp only [Proc.locOf, hram, hi]
      simpa using heq

end LocOf

section Fields

variable {B : Build} {p : Fin nproc} {s : Kernel} {L : Nat → Loc} {v : Nat}

theorem WellFormed.located (hwf : WellFormed p s) (hv : v * pgsize < (s.proc p).sz) :
    (∃ k, (s.proc p).Records v (.inl k) ∧ (s.proc p).locOf v = .ram k) ∨
      ∃ k, (s.proc p).Records v (.inr k) ∧ (s.proc p).locOf v = .swap k := by
  have huniq := hwf.recorded v hv
  obtain ⟨hram, hswap⟩ := Proc.locOf_of_records huniq
  obtain ⟨e, he, -⟩ := huniq
  cases e with
  | inl k => exact .inl ⟨k, he, hram k he⟩
  | inr k => exact .inr ⟨k, he, hswap k he⟩

/-- **A well-formed process has a layout.** -/
theorem WellFormed.paged (hwf : WellFormed p s) (hs : Sane B p s) :
    Paged B p (pagesOf (s.proc p).sz) (s.proc p).locOf s ∧
      Settled (pagesOf (s.proc p).sz) (s.proc p).locOf := by
  have hlt {v : Nat} := @lt_pagesOf_iff (s.proc p).sz v hwf.size
  have hge {v : Nat} := @pagesOf_le_iff (s.proc p).sz v hwf.size
  refine ⟨⟨hs.cur, hs.pid, hs.file, ?_⟩, fun v hv => ?_⟩
  swap
  · rcases hwf.located (hlt.mp hv) with ⟨k, -, hk⟩ | ⟨k, -, hk⟩ <;> simp [hk]
  constructor
  · exact pagesOf_le_total hwf.size
  · intro v hv
    rcases hwf.located (hlt.mp hv) with ⟨k, hrec, hk⟩ | ⟨k, hrec, hk⟩
    · rw [hk]
      exact ⟨hrec.1, hrec.2, hwf.ram k v hrec⟩
    · rw [hk]
      obtain ⟨hoff, hPG, hV⟩ := hwf.swap k v hrec
      exact ⟨hrec.1, hrec.2, hoff, hs.slots k hrec.1, hV, hPG⟩
  · intro k hk
    obtain ⟨v, hv, hva⟩ := (hs.entries k).1 hk
    exact ⟨v, hlt.mpr hv, (Proc.locOf_of_records (hwf.recorded v hv)).1 k ⟨hk, hva⟩⟩
  · intro k hk
    obtain ⟨v, hv, hva⟩ := (hs.entries k).2 hk
    exact ⟨v, hlt.mpr hv, (Proc.locOf_of_records (hwf.recorded v hv)).2 k ⟨hk, hva⟩⟩
  · exact fun k hk => (hwf.unused k).1 hk
  · exact fun k hk => (hwf.unused k).2 hk
  · -- a page has a frame in the layout iff its entry is valid
    refine hs.frames.congr fun v => ?_
    unfold Pager.frameOf Kernel.frameOf
    refine if_congr ?_ rfl rfl
    rw [hlt]
    refine and_congr_right fun hv => ?_
    rcases hwf.located hv with ⟨k, hrec, hk⟩ | ⟨k, hrec, hk⟩
    · simp [hk, Loc.InMemory, (hwf.ram k v hrec).1]
    · simp [hk, Loc.InMemory, (hwf.swap k v hrec).2.2]
  · exact fun v w hv hw => hwf.guard v w (hlt.mp hv) (hlt.mp hw)
  · exact fun v hv => hs.leaf v (hlt.mp hv)
  · exact fun v hv => hs.beyond v (hge.mp hv)

/-- **A process with a layout is well-formed.** -/
theorem Paged.wellFormed (h : Paged B p (pagesOf (s.proc p).sz) L s)
    (hset : Settled (pagesOf (s.proc p).sz) L) (hsz : (s.proc p).sz ≤ maxTotalPages * pgsize) :
    WellFormed p s ∧ Sane B p s := by
  have hlt {v : Nat} := @lt_pagesOf_iff (s.proc p).sz v hsz
  have hge {v : Nat} := @pagesOf_le_iff (s.proc p).sz v hsz
  have hram : ∀ {k v}, (s.proc p).Records v (.inl k) → v < pagesOf (s.proc p).sz ∧ L v = .ram k :=
    fun hrec => h.layout.of_va (l := .ram _) hrec.2
  have hswap : ∀ {k v}, (s.proc p).Records v (.inr k) → v < pagesOf (s.proc p).sz ∧ L v = .swap k :=
    fun hrec => h.layout.of_va (l := .swap _) hrec.2
  constructor
  · constructor
    · exact hsz
    · intro v hv
      have hat := h.layout.located v (hlt.mpr hv)
      cases hLv : L v with
      | ram k =>
        rw [hLv] at hat
        refine ⟨.inl k, ⟨hat.1, hat.2.1⟩, fun e he => ?_⟩
        cases e with
        | inl i => simpa [hLv] using (hram he).2.symm
        | inr i => exact absurd (hLv.symm.trans (hswap he).2) (by simp)
      | swap k =>
        rw [hLv] at hat
        refine ⟨.inr k, ⟨hat.1, hat.2.1⟩, fun e he => ?_⟩
        cases e with
        | inl i => exact absurd (hLv.symm.trans (hram he).2) (by simp)
        | inr i => simpa [hLv] using (hswap he).2.symm
      | moving => exact absurd hLv (hset v (hlt.mpr hv))
    · intro k v hrec
      obtain ⟨hv, hLv⟩ := hram hrec
      have hat := h.layout.located v hv
      rw [hLv] at hat
      exact hat.2.2
    · intro k v hrec
      obtain ⟨hv, hLv⟩ := hswap hrec
      have hat := h.layout.located v hv
      rw [hLv] at hat
      exact ⟨hat.2.2.1, hat.2.2.2.2.2, hat.2.2.2.2.1⟩
    · exact fun k => ⟨h.layout.ramFree k, h.layout.swapFree k⟩
    · exact fun v w hv hw => h.layout.guard v w (hlt.mpr hv) (hlt.mpr hw)
  · refine ⟨h.cur, h.pid, h.file, fun k hk => ?_, fun k => ⟨fun hk => ?_, fun hk => ?_⟩, ?_, ?_, ?_⟩
    · obtain ⟨v, hv, hLv⟩ := h.layout.swapUsed k hk
      have hat := h.layout.located v hv
      rw [hLv] at hat
      exact hat.2.2.2.1
    · obtain ⟨v, hv, hLv⟩ := h.layout.ramUsed k hk
      have hat := h.layout.located v hv
      rw [hLv] at hat
      exact ⟨v, hlt.mp hv, hat.2.1⟩
    · obtain ⟨v, hv, hLv⟩ := h.layout.swapUsed k hk
      have hat := h.layout.located v hv
      rw [hLv] at hat
      exact ⟨v, hlt.mp hv, hat.2.1⟩
    · refine h.layout.owned.congr fun v => ?_
      unfold Pager.frameOf Kernel.frameOf
      refine if_congr ?_ rfl rfl
      rw [hlt]
      refine and_congr_right fun hv => ?_
      have hat := h.layout.located v (hlt.mpr hv)
      cases hLv : L v with
      | ram k =>
        rw [hLv] at hat
        have hV : hasFlag (s.ptePage p v) pteV = true := hat.2.2.1
        simp [Loc.InMemory, hV]
      | swap k =>
        rw [hLv] at hat
        have hV : hasFlag (s.ptePage p v) pteV = false := hat.2.2.2.2.1
        simp [Loc.InMemory, hV]
      | moving => exact absurd hLv (hset v (hlt.mpr hv))
    · exact fun v hv => h.layout.leaf v (hlt.mpr hv)
    · exact fun v hv => h.layout.beyond v (hge.mpr hv)

/-! ## Contents -/

/-- **The logical contents** of a page are its contents in the layout. -/
theorem Paged.logical_eq {n : Nat} (h : Paged B p n L s) (hset : Settled n L) (hv : v < n)
    (i : Fin pgsize) : s.logical (s.proc p) (v * pgsize + i) = (s.pager p).page v (L v) i := by
  have hi := i.isLt
  have hdiv : (v * pgsize + i) / pgsize = v := by
    simp only [pgsize] at *
    omega
  have hmod : (v * pgsize + i) % pgsize = i := by
    simp only [pgsize] at *
    omega
  have hleaf := h.layout.leaf v hv
  have hnot : ¬Reserved ((s.ptables (s.proc p).pagetable).pte v) := by
    intro hr
    have hleaf' : hasFlag ((s.ptables (s.proc p).pagetable).pte v) Pager.permLeaf = true := hleaf
    rw [← hasFlag_pteFlags _ (by decide), hr] at hleaf'
    exact absurd hleaf' (by decide)
  have hat := h.layout.located v hv
  unfold Kernel.logical
  simp only [hdiv, hmod, if_neg hnot]
  cases hLv : L v with
  | ram k =>
    rw [hLv] at hat
    have hV : hasFlag ((s.ptables (s.proc p).pagetable).pte v) pteV = true := hat.2.2.1
    rw [if_pos hV, pageBytes, dif_pos hi]
    rfl
  | swap k =>
    rw [hLv] at hat
    have hV : hasFlag ((s.ptables (s.proc p).pagetable).pte v) pteV = false := hat.2.2.2.2.1
    have hPG : hasFlag ((s.ptables (s.proc p).pagetable).pte v) ptePG = true := hat.2.2.2.2.2
    obtain ⟨f, hf⟩ := h.file
    -- the slot is the one that records the page
    have hslot : (s.proc p).swapSlot v = some k := by
      have hused : ((s.proc p).swap k).used = true := hat.1
      have hva : ((s.proc p).swap k).va = pageVa v := hat.2.1
      obtain ⟨j, hj⟩ := findSlot_isSome (c := fun d => d.used && d.va == ↑v * ↑pgsize)
        (d := (s.proc p).swap) (k := k) (by simp [hused, hva, pageVa])
      have hj' : ((s.proc p).swap j).used = true ∧ ((s.proc p).swap j).va = ↑v * ↑pgsize := by
        simpa using findSlot_some hj
      have hLj := (h.layout.of_va (l := .swap j) (v := v)
        (hj'.2.trans (Int.natCast_mul v pgsize).symm)).2
      obtain rfl : k = j := by simpa [hLv] using hLj
      exact hj
    rw [if_neg (by simp [hV]), if_pos hPG]
    simp only [hslot, Kernel.swapByte, hf.file]
    show _ = (s.swapInode (s.proc p)).data _
    rw [hf.swapInode]
  | moving => exact absurd hLv (hset v hv)

end Fields

/-! ## A small paged process -/

/-- A process of two pages: page 0 is in `ram[0]`, page 1 in slot 0 of the swap file, which holds
sevens; `m` pages are free. -/
def pagedKernel (m : Nat) : Kernel :=
  { sampleKernel (sampleTable [(0, sampleUser 10), (1, sampleSwapped 11)])
      { sampleProc 3 (2 * pgsize) with
        swapFile := some 0
        ram := Function.update (fun _ => .removed) 0 (sampleSlot 0 (-1))
        swap := Function.update (fun _ => .removed) 0 (sampleSlot 1 0) } with
    freelist := (List.range m).map fun k => samplePage (20 + k)
    ftable := Function.update (fun _ => .zero) 0 ⟨.inode, 1, true, true, 0, 1, 0⟩
    inode := Function.update (fun _ => .free) 1 ⟨tFile, 1, 1, pgsize, fun _ => 7⟩ }

section Sample

variable {m v : Nat} {sel : Selection}

theorem pagedKernel_used (k : Fin maxPsycPages) :
    ((((pagedKernel m).proc 0).ram k).used = true → k = 0) ∧
      ((((pagedKernel m).proc 0).swap k).used = true → k = 0) := by
  revert k
  show ∀ k, ((((pagedKernel 0).proc 0).ram k).used = true → k = 0) ∧
    ((((pagedKernel 0).proc 0).swap k).used = true → k = 0)
  decide +kernel

theorem pagedKernel_lt (h : v * pgsize < ((pagedKernel m).proc 0).sz) : v = 0 ∨ v = 1 := by
  have h' : v * pgsize < 2 * pgsize := h
  simp only [pgsize] at h'
  omega

theorem pagedKernel_records {e : Fin maxPsycPages ⊕ Fin maxPsycPages}
    (h : ((pagedKernel m).proc 0).Records v e) : (v = 0 ∧ e = .inl 0) ∨ (v = 1 ∧ e = .inr 0) := by
  cases e with
  | inl k =>
    obtain rfl := (pagedKernel_used k).1 h.1
    exact .inl ⟨(pageVa_inj (v := 0) (w := v)).mp h.2 |>.symm, rfl⟩
  | inr k =>
    obtain rfl := (pagedKernel_used k).2 h.1
    exact .inr ⟨(pageVa_inj (v := 1) (w := v)).mp h.2 |>.symm, rfl⟩

theorem pagedKernel_beyond (hv : 2 ≤ v) : hasFlag ((pagedKernel m).ptePage 0 v) ptePG = false ∧
      (v < maxTotalPages → hasFlag ((pagedKernel m).ptePage 0 v) pteV = false) := by
  show hasFlag ((sampleTable [(0, sampleUser 10), (1, sampleSwapped 11)]).pte v) ptePG = false ∧
    (_ →
    hasFlag ((sampleTable [(0, sampleUser 10), (1, sampleSwapped 11)]).pte v) pteV = false)
  -- the trampoline and the trapframe are valid, and far away
  by_cases htramp : v = trampolineVa / pgsize
  · subst htramp
    exact ⟨by decide +kernel, fun h => absurd h (by decide)⟩
  by_cases hframe : v = trapframeVa / pgsize
  · subst hframe
    exact ⟨by decide +kernel, fun h => absurd h (by decide)⟩
  have hzero : (sampleTable [(0, sampleUser 10), (1, sampleSwapped 11)]).pte v = 0#64 := by
    refine sampleTableAt_pte ?_ htramp hframe
    simp only [List.map_cons, List.map_nil, List.mem_cons, List.not_mem_nil, or_false]
    omega
  rw [hzero, hasFlag_zero, hasFlag_zero]
  exact ⟨rfl, fun _ => rfl⟩

theorem samplePage_inj {i j : Nat} (h : samplePage i = samplePage j) : i = j := by
  simp only [samplePage, pgsize] at h
  omega

theorem samplePage_isFrame {k : Nat} (hk : k < 100) : IsFrame (sampleBuild sel) (samplePage k) := by
  simp only [IsFrame, samplePage, sampleBuild, pgsize, phystop, kernbase]
  omega

theorem pagedKernel_frameOf :
    (pagedKernel m).frameOf 0 v = if v = 0 then some (samplePage 10) else none := by
  by_cases h0 : v = 0
  · subst h0
    rw [if_pos rfl]
    show (pagedKernel 0).frameOf 0 0 = _
    decide +kernel
  · rw [if_neg h0, Kernel.frameOf, if_neg]
    rintro ⟨hv, hV⟩
    rcases pagedKernel_lt hv with h | rfl
    · exact h0 h
    · change hasFlag ((pagedKernel 0).ptePage 0 1) pteV = true at hV
      exact absurd hV (by decide +kernel)

/-- **The small process is well-formed.** -/
theorem pagedKernel_wellFormed (hm : m ≤ 40) :
    WellFormed 0 (pagedKernel m) ∧ Sane (sampleBuild sel) 0 (pagedKernel m) := by
  constructor
  · constructor
    · show 2 * pgsize ≤ maxTotalPages * pgsize
      decide
    · intro v hv
      rcases pagedKernel_lt hv with rfl | rfl
      · refine ⟨.inl 0, ⟨rfl, rfl⟩, fun e he => ?_⟩
        rcases pagedKernel_records he with ⟨-, h⟩ | ⟨h, -⟩
        · exact h
        · exact absurd h (by decide)
      · refine ⟨.inr 0, ⟨rfl, rfl⟩, fun e he => ?_⟩
        rcases pagedKernel_records he with ⟨h, -⟩ | ⟨-, h⟩
        · exact absurd h (by decide)
        · exact h
    · intro k v hrec
      rcases pagedKernel_records hrec with ⟨rfl, -⟩ | ⟨-, h⟩
      · show hasFlag ((pagedKernel 0).ptePage 0 0) pteV = true ∧
          hasFlag ((pagedKernel 0).ptePage 0 0) ptePG = false
        decide +kernel
      · exact absurd h (by simp)
    · intro k v hrec
      rcases pagedKernel_records hrec with ⟨-, h⟩ | ⟨rfl, h⟩
      · exact absurd h (by simp)
      · obtain rfl : k = 0 := by simpa using h
        show (((pagedKernel 0).proc 0).swap 0).offset = _ ∧
          hasFlag ((pagedKernel 0).ptePage 0 1) ptePG = true ∧
          hasFlag ((pagedKernel 0).ptePage 0 1) pteV = false
        decide +kernel
    · show ∀ k, ((((pagedKernel 0).proc 0).ram k).used = false →
          (((pagedKernel 0).proc 0).ram k).va = -1) ∧
        ((((pagedKernel 0).proc 0).swap k).used = false →
          (((pagedKernel 0).proc 0).swap k).va = -1)
      decide +kernel
    · intro v w hv _ hU _
      have huser : ∀ x, x = 0 ∨ x = 1 → hasFlag ((pagedKernel 0).ptePage 0 x) pteU = true := by
        rintro x (rfl | rfl) <;> decide +kernel
      have := huser v (pagedKernel_lt hv)
      change hasFlag ((pagedKernel 0).ptePage 0 v) pteU = false at hU
      rw [this] at hU
      exact absurd hU (by decide)
  · refine ⟨rfl, show 2 < 3 by decide, ⟨0, rfl, rfl, rfl, rfl⟩, fun k hk => ?_,
      fun k => ⟨fun hk => ?_, fun hk => ?_⟩, ?_, fun v hv => ?_, fun v hv => ?_⟩
    · obtain rfl := (pagedKernel_used k).2 hk
      show (0 + 1) * pgsize ≤ pgsize
      decide
    · obtain rfl := (pagedKernel_used k).1 hk
      exact ⟨0, by show 0 * pgsize < 2 * pgsize; decide, rfl⟩
    · obtain rfl := (pagedKernel_used k).2 hk
      exact ⟨1, by show 1 * pgsize < 2 * pgsize; decide, rfl⟩
    · have hmem : ∀ f, f ∈ (pagedKernel m).freelist → ∃ k, k < m ∧ f = samplePage (20 + k) := by
        intro f hf
        obtain ⟨k, hk, rfl⟩ := List.mem_map.mp hf
        exact ⟨k, List.mem_range.mp hk, rfl⟩
      constructor
      · refine List.Nodup.map (fun i j h => ?_) List.nodup_range
        have := samplePage_inj h
        omega
      · intro f hf
        obtain ⟨k, hk, rfl⟩ := hmem f hf
        exact samplePage_isFrame (by omega)
      · intro i f hf
        rw [pagedKernel_frameOf] at hf
        split at hf
        · obtain rfl : samplePage 10 = f := by simpa using hf
          exact samplePage_isFrame (by decide)
        · exact absurd hf (by simp)
      · intro i j f hi hj
        rw [pagedKernel_frameOf] at hi hj
        split at hi <;> split at hj <;> simp_all
      · intro i f hi hf
        rw [pagedKernel_frameOf] at hi
        split at hi
        · obtain rfl : samplePage 10 = f := by simpa using hi
          obtain ⟨k, -, hk⟩ := hmem _ hf
          have := samplePage_inj hk
          omega
        · exact absurd hi (by simp)
      · exact False.elim
    · show hasFlag ((pagedKernel 0).ptePage 0 v) Pager.permLeaf = true
      rcases pagedKernel_lt hv with rfl | rfl <;> decide +kernel
    · have hv' : 2 * pgsize ≤ v * pgsize := hv
      exact pagedKernel_beyond (Nat.le_of_mul_le_mul_right hv' (by decide))

end Sample

end Xv6Paging
