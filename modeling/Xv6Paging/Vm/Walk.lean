import Xv6Paging.Vm.Kalloc

/-!
# Walking and mapping

`walk`, `walkaddr` and the functions of `vm.c` that store mappings.
-/

namespace Xv6Paging

open StateHalt Kernel PageTable

/-- `PXSHIFT(level)`. -/
def pxshift (level : Nat) : Nat := 12 + 9 * level

/-- One round of the loop of `walk`: the entry of `level` on the way to `va` is valid, or a new
page-table page is hung below it. -/
def walkLevel (pagetable va : Nat) (alloc : Bool) (level : Nat) : KM Bool := do
  let idx := va / 2 ^ pxshift level
  match ((← get).ptables pagetable).dir level idx with
  | some _ => pure true
  | none =>
    if !alloc then pure false
    else do
      let pa ← kalloc
      if pa = 0 then pure false
      else do
        modify fun s =>
          (s.setPage pa fun _ => 0).setTable pagetable
            ((s.ptables pagetable).newPage level idx pa)
        pure true

/-- `walk`: the address of the entry for `va`, or null. -/
def walk (pagetable va : Nat) (alloc : Bool) : KM (Option PteRef) := do
  if va ≥ maxva then panic "walk"
  else if ← walkLevel pagetable va alloc 2 then
    if ← walkLevel pagetable va alloc 1 then pure (some ⟨pagetable, va / pgsize⟩)
    else pure none
  else pure none

/-- `walkaddr`: the physical page of a valid user page, or 0. -/
def walkaddr (pagetable va : Nat) : KM Nat := do
  if va ≥ maxva then pure 0
  else
    match ← walk pagetable va false with
    | none => pure 0
    | some pte => do
      let x ← readPte pte
      if !hasFlag x pteV then pure 0
      else if !hasFlag x pteU then pure 0
      else pure (pte2pa x)

/-- One page of `mappages_NONE`; the remap check looks at `va`, the start of the range. -/
def mappagesNoneRound (pagetable va pa : Nat) (perm : Pte) (k : Nat) : KM (Option Int) := do
  match ← walk pagetable (pgrounddown va + k * pgsize) true with
  | none => pure (some (-1))
  | some pte => do
    if hasFlag (← readPte pte) pteV && (← walkaddr pagetable va) != 0 then panic "remap"
    else do
      writePte pte (pa2pte (pa + k * pgsize) ||| perm ||| pteV)
      pure none

/-- One page of `mappages_not_NONE`. -/
def mappagesNotNoneRound (pagetable va pa : Nat) (perm : Pte) (k : Nat) : KM (Option Int) := do
  match ← walk pagetable (pgrounddown va + k * pgsize) true with
  | none => pure (some (-1))
  | some pte => do
    if hasFlag (← readPte pte) pteV then panic "remap"
    else do
      writePte pte (pa2pte (pa + k * pgsize) ||| perm ||| pteV)
      pure none

/-- The pages from `PGROUNDDOWN(va)` to `PGROUNDDOWN(va + size - 1)`. -/
def mappagesRounds (va size : Nat) : Nat :=
  (pgrounddown (va + size - 1) - pgrounddown va) / pgsize + 1

def mappagesNone (pagetable va size pa : Nat) (perm : Pte) : KM Int := do
  pure ((← forReturn (mappagesNoneRound pagetable va pa perm) 0 (mappagesRounds va size)).getD 0)

def mappagesNotNone (pagetable va size pa : Nat) (perm : Pte) : KM Int := do
  pure ((← forReturn (mappagesNotNoneRound pagetable va pa perm) 0
    (mappagesRounds va size)).getD 0)

def mappages (B : Build) (pagetable va size pa : Nat) (perm : Pte) : KM Int :=
  match B.selection with
  | .none => mappagesNone pagetable va size pa perm
  | .paging _ => mappagesNotNone pagetable va size pa perm

def mappage (pagetable va pa : Nat) (perm : Pte) : KM Int := do
  match ← walk pagetable (pgrounddown va) true with
  | none => pure (-1)
  | some pte => do
    if hasFlag (← readPte pte) pteV then panic "remap"
    else do
      writePte pte (pa2pte pa ||| perm ||| pteV)
      pure 0

def uvmclear (pagetable va : Nat) : KM Unit := do
  match ← walk pagetable va false with
  | none => panic "uvmclear"
  | some pte => writePte pte ((← readPte pte) &&& ~~~pteU)

/-! ## Lookups -/

/-- What `walkaddr` finds at `va`: the frame of a valid user page, or 0. -/
def PageTable.userPa (pt : PageTable) (va : Nat) : Nat :=
  if va < maxva ∧ hasFlag (pt.pte (va / pgsize)) pteV ∧ hasFlag (pt.pte (va / pgsize)) pteU then
    pte2pa (pt.pte (va / pgsize))
  else 0

section Lookup

variable {E : Halt → Kernel → Prop} {s : Kernel} {r va : Nat} {alloc : Bool}
  {Q : Option PteRef → Kernel → Prop}

theorem div_pxshift_one : va / 2 ^ pxshift 1 = va / pgsize / 512 := by
  simp only [pxshift, pgsize]
  omega

theorem div_pxshift_two : va / 2 ^ pxshift 2 = va / pgsize / 512 / 512 := by
  simp only [pxshift, pgsize]
  omega

theorem wp_walkLevel_some {Q : Bool → Kernel → Prop} {level pa : Nat}
    (h : (s.ptables r).dir level (va / 2 ^ pxshift level) = some pa) :
    wp (walkLevel r va alloc level) Q E s ↔ Q true s := by
  simp only [walkLevel, wp_bind, wp_get, h, wp_pure]

theorem wp_walkLevel_none {Q : Bool → Kernel → Prop} {level : Nat}
    (h : (s.ptables r).dir level (va / 2 ^ pxshift level) = none) :
    wp (walkLevel r va false level) Q E s ↔ Q false s := by
  simp only [walkLevel, wp_bind, wp_get, h]
  rfl

theorem wp_walk_present (hva : va < maxva) (h : (s.ptables r).present (va / pgsize)) :
    wp (walk r va alloc) Q E s ↔ Q (some ⟨r, va / pgsize⟩) s := by
  rw [present, node_one] at h
  cases h2 : (s.ptables r).dir 2 (va / pgsize / 512 / 512) with
  | none => simp [h2] at h
  | some pa2 =>
    cases h1 : (s.ptables r).dir 1 (va / pgsize / 512) with
    | none => simp [h1, h2] at h
    | some pa1 =>
      rw [← div_pxshift_two] at h2
      rw [← div_pxshift_one] at h1
      simp only [walk, if_neg (Nat.not_le.mpr hva), wp_bind, wp_walkLevel_some h2,
        wp_walkLevel_some h1, if_true, wp_pure]

/-- **`walk` without allocation** finds the entry if its level-0 page exists. -/
theorem wp_walk_false (hva : va < maxva) : wp (walk r va false) Q E s ↔
      Q (if (s.ptables r).present (va / pgsize) then some ⟨r, va / pgsize⟩ else none) s := by
  by_cases h : (s.ptables r).present (va / pgsize)
  · rw [wp_walk_present hva h, if_pos h]
  · rw [if_neg h]
    rw [present, node_one, not_not] at h
    cases h2 : (s.ptables r).dir 2 (va / pgsize / 512 / 512) with
    | none =>
      rw [← div_pxshift_two] at h2
      simp [walk, if_neg (Nat.not_le.mpr hva), wp_walkLevel_none h2]
    | some pa2 =>
      rw [h2, Option.bind_some, ← div_pxshift_one] at h
      rw [← div_pxshift_two] at h2
      simp [walk, if_neg (Nat.not_le.mpr hva), wp_walkLevel_some h2, wp_walkLevel_none h]

theorem wp_walk_ge (hva : maxva ≤ va) : wp (walk r va alloc) Q E s ↔ E (.panic "walk") s := by
  simp only [walk, if_pos hva, wp_panic]

/-- **`walkaddr`** is the lookup `userPa`. -/
theorem wp_walkaddr {Q : Nat → Kernel → Prop} :
    wp (walkaddr r va) Q E s ↔ Q ((s.ptables r).userPa va) s := by
  unfold walkaddr userPa
  by_cases hva : va < maxva
  · rw [if_neg (Nat.not_le.mpr hva), wp_bind, wp_walk_false hva]
    by_cases hp : (s.ptables r).present (va / pgsize)
    · simp only [if_pos hp, wp_bind, wp_readPte, ← pte_of_present _ hp]
      cases hV : hasFlag ((s.ptables r).pte (va / pgsize)) pteV <;>
        cases hU : hasFlag ((s.ptables r).pte (va / pgsize)) pteU <;> simp [hva]
    · simp [if_neg hp, pte_of_not_present _ hp]
  · simp [if_pos (Nat.not_lt.mp hva), hva]

end Lookup

/-! ## Growing a table -/

/-- The first page `f` of the free list `f :: fs`, zeroed and hung below the entry `idx` of
`level`. -/
def Kernel.hangPage (s : Kernel) (r level idx f : Nat) (fs : List Nat) : Kernel :=
  ((s.takePage f fs).setPage f fun _ => 0).setTable r ((s.ptables r).newPage level idx f)

/-- The number of page-table pages on the way to the entry of `v` that do not exist yet. -/
def PageTable.missing (pt : PageTable) (v : Nat) : Nat :=
  if pt.dir 2 (v / 512 / 512) = none then 2 else if pt.dir 1 (v / 512) = none then 1 else 0

theorem PageTable.missing_of_present {pt : PageTable} {v : Nat} (h : pt.present v) :
    pt.missing v = 0 := by
  rw [present, node_one] at h
  unfold missing
  cases h2 : pt.dir 2 (v / 512 / 512) with
  | none => simp [h2] at h
  | some a =>
    cases h1 : pt.dir 1 (v / 512) with
    | none => simp [h1, h2] at h
    | some b => simp

/-- `n` pages were taken from the free list and hung, one by one, into the table `r` on the way to
the entry of `v`. -/
inductive Grows (r v : Nat) : Nat → Kernel → Kernel → Prop
  | refl (s : Kernel) : Grows r v 0 s s
  | hang {n : Nat} {s s' : Kernel} {level idx f : Nat} {fs : List Nat}
      (hlevel : level = 2 ∨ level = 1) (hnode : (s.ptables r).node level idx = none)
      (hup : level = 1 → (s.ptables r).dir 2 (idx / 512) ≠ none)
      (hidx : level = 2 → idx = v / 512 / 512 ∧ idx < 512)
      (hfree : s.freelist = f :: fs) (h : Grows r v n (s.hangPage r level idx f fs) s') :
      Grows r v (n + 1) s s'

namespace Grows

variable {r v n : Nat} {s s' : Kernel}

variable (h : Grows r v n s s')
include h

theorem frame : s' = { s with freelist := s'.freelist, mem := s'.mem, ptables := s'.ptables } := by
  induction h with
  | refl => rfl
  | hang _ _ _ _ _ _ ih => rw [ih]; rfl

theorem proc_eq : s'.proc = s.proc := by rw [h.frame]

theorem cur_eq : s'.cur = s.cur := by rw [h.frame]

theorem table_of_ne {r' : Nat} (hr : r' ≠ r) : s'.ptables r' = s.ptables r' := by
  induction h with
  | refl => rfl
  | hang _ _ _ _ _ _ ih => rw [ih, hangPage, setTable_of_ne _ _ hr]; rfl

theorem pte_eq (w : Nat) : (s'.ptables r).pte w = (s.ptables r).pte w := by
  induction h with
  | refl => rfl
  | hang hlevel hnode hup _ _ _ ih =>
    rw [ih, hangPage, setTable_self]
    exact pte_newPage _ hlevel hnode hup w

theorem present {w : Nat} (hw : (s.ptables r).present w) : (s'.ptables r).present w := by
  induction h with
  | refl => exact hw
  | hang hlevel hnode hup _ _ _ ih =>
    apply ih
    rw [hangPage, setTable_self]
    exact present_newPage _ hlevel hnode hup hw

theorem taken : ∃ fresh, s.freelist = fresh ++ s'.freelist ∧
    fresh.length = n ∧ ∀ pa, pa ∉ fresh → s'.mem pa = s.mem pa := by
  induction h with
  | refl => exact ⟨[], rfl, rfl, fun _ _ => rfl⟩
  | @hang n s s' level idx f fs _ _ _ _ hfree _ ih =>
    obtain ⟨fresh, hfs, hlen, hmem⟩ := ih
    refine ⟨f :: fresh, ?_, by rw [List.length_cons, hlen], fun pa hpa => ?_⟩
    · rw [hfree, List.cons_append, ← hfs]
      rfl
    · rw [List.mem_cons, not_or] at hpa
      rw [hmem pa hpa.2]
      simp [hangPage, takePage, hpa.1]

theorem length_eq : s.freelist.length = n + s'.freelist.length := by
  obtain ⟨fresh, hfs, hlen, -⟩ := h.taken
  rw [hfs, List.length_append, hlen]

theorem zero_notMem (hz : 0 ∉ s.freelist) : 0 ∉ s'.freelist := by
  obtain ⟨fresh, hfs, -⟩ := h.taken
  rw [hfs, List.mem_append, not_or] at hz
  exact hz.2

omit h in
theorem eq_of_zero (h : Grows r v 0 s s') : s' = s := by
  cases h
  rfl

theorem dir_two {j : Nat} (hj : j ≠ v / 512 / 512) :
    (s'.ptables r).dir 2 j = (s.ptables r).dir 2 j := by
  induction h with
  | refl => rfl
  | @hang n s s' level idx f fs hlevel _ _ hidx _ _ ih =>
    rw [ih, hangPage, setTable_self]
    have hne : ¬(2 = level ∧ j = idx) := by
      rintro ⟨h2, rfl⟩
      exact hj (hidx h2.symm).1
    have hne' : ¬(2 + 1 = level ∧ j / 512 = idx) := by
      rintro ⟨h3, -⟩
      omega
    simp only [newPage, if_neg hne, if_neg hne']

end Grows

section Alloc

variable {E : Halt → Kernel → Prop} {s : Kernel} {r va : Nat} {pt : PageTable} {v : Nat}

theorem walkLevel_alloc_spec {level idx : Nat} (hz : 0 ∉ s.freelist)
    (hidx : va / 2 ^ pxshift level = idx) (h : (s.ptables r).dir level idx = none) :
    wp (walkLevel r va true level) (fun b s' => (b = false ∧ s.freelist = [] ∧ s' = s) ∨
      ∃ f fs, b = true ∧ s.freelist = f :: fs ∧ s' = s.hangPage r level idx f fs) E s := by
  subst hidx
  simp only [walkLevel, wp_bind, wp_get, h, Bool.not_true, Bool.false_eq_true, if_false]
  refine wp_post kalloc_spec fun f s' hf => ?_
  rcases hf with ⟨hnil, rfl, rfl⟩ | ⟨fs, hfs, rfl⟩
  · rw [if_pos rfl, wp_pure]
    exact .inl ⟨rfl, hnil, rfl⟩
  · have hf0 : f ≠ 0 := by
      rintro rfl
      exact hz (by simp [hfs])
    simp only [if_neg hf0, wp_bind, wp_modify, wp_pure]
    exact .inr ⟨f, fs, trivial, hfs, rfl⟩

theorem walkLast_spec {pa : Nat} (hz : 0 ∉ s.freelist)
    (h2 : (s.ptables r).dir 2 (va / pgsize / 512 / 512) = some pa)
    (h1 : (s.ptables r).dir 1 (va / pgsize / 512) = none) :
    wp (do if ← walkLevel r va true 1 then pure (some ⟨r, va / pgsize⟩) else pure none :
        KM (Option PteRef))
      (fun o s' => (o = none ∧ s'.freelist = [] ∧ s' = s) ∨
        (o = some ⟨r, va / pgsize⟩ ∧ (s'.ptables r).present (va / pgsize) ∧
          Grows r (va / pgsize) 1 s s')) E s := by
  have hnode : (s.ptables r).node 1 (va / pgsize / 512) = none := by
    rw [node_one, h2, Option.bind_some, h1]
  have hup : 1 = 1 → (s.ptables r).dir 2 (va / pgsize / 512 / 512) ≠ none := by simp [h2]
  rw [wp_bind]
  refine wp_post (walkLevel_alloc_spec hz div_pxshift_one h1) fun b s' hb => ?_
  rcases hb with ⟨rfl, hnil, rfl⟩ | ⟨f, fs, rfl, hfs, rfl⟩
  · exact .inl ⟨rfl, hnil, rfl⟩
  · refine .inr ⟨rfl, ?_, .hang (.inr rfl) hnode hup (by simp) hfs (.refl _)⟩
    rw [present, hangPage, setTable_self,
      node_newPage _ (.inr rfl) hnode hup, if_pos ⟨rfl, rfl⟩]
    simp

/-- What a walk to the entry of `v` that may allocate leaves behind: the entry and the pages that
were missing, or an empty free list. -/
def Walked (r v : Nat) (o : Option PteRef) (s s' : Kernel) : Prop :=
  (o = none ∧ s'.freelist = [] ∧ ∃ n < (s.ptables r).missing v, Grows r v n s s') ∨
    (o = some ⟨r, v⟩ ∧ (s'.ptables r).present v ∧ Grows r v ((s.ptables r).missing v) s s')

/-- **`walk` with allocation** finds the entry and has hung the pages that were missing, or ran
out of free pages on the way. -/
theorem walk_alloc_spec (hz : 0 ∉ s.freelist) :
    wp (walk r va true) (fun o s' => va < maxva ∧ Walked r (va / pgsize) o s s')
      (fun e _ => e ≠ .exited ∧ maxva ≤ va) s := by
  by_cases hva : va < maxva
  swap
  · rw [wp_walk_ge (Nat.not_lt.mp hva)]
    exact ⟨by simp, Nat.not_lt.mp hva⟩
  cases h2 : (s.ptables r).dir 2 (va / pgsize / 512 / 512) with
  | some pa =>
    cases h1 : (s.ptables r).dir 1 (va / pgsize / 512) with
    | some pa' =>
      have hp : (s.ptables r).present (va / pgsize) := by
        simp [present, node_one, h1, h2]
      have hm : (s.ptables r).missing (va / pgsize) = 0 := by simp [missing, h1, h2]
      rw [wp_walk_present hva hp]
      exact ⟨hva, .inr ⟨rfl, hp, by rw [hm]; exact .refl s⟩⟩
    | none =>
      have hm : (s.ptables r).missing (va / pgsize) = 1 := by simp [missing, h1, h2]
      simp only [walk, if_neg (Nat.not_le.mpr hva), wp_bind,
        wp_walkLevel_some (div_pxshift_two ▸ h2), if_true]
      refine wp_post (wp_bind.mp (walkLast_spec hz h2 h1)) fun b s' h => ?_
      refine wp_post h fun o s' h => ⟨hva, ?_⟩
      rcases h with ⟨ho, hnil, rfl⟩ | ⟨ho, hp, hg⟩
      · exact .inl ⟨ho, hnil, 0, by omega, .refl _⟩
      · exact .inr ⟨ho, hp, by rwa [hm]⟩
  | none =>
    have hm : (s.ptables r).missing (va / pgsize) = 2 := by simp [missing, h2]
    have hidx : va / pgsize / 512 / 512 < 512 := by
      simp only [maxva, pgsize] at *
      omega
    simp only [walk, if_neg (Nat.not_le.mpr hva), wp_bind]
    refine wp_post (walkLevel_alloc_spec hz div_pxshift_two h2) fun b s' hb => ?_
    rcases hb with ⟨rfl, hnil, rfl⟩ | ⟨f, fs, rfl, hfs, rfl⟩
    · exact ⟨hva, .inl ⟨rfl, hnil, 0, by omega, .refl _⟩⟩
    · -- the fresh level-1 page points nowhere
      have h2' : ((s.hangPage r 2 (va / pgsize / 512 / 512) f fs).ptables r).dir 2
          (va / pgsize / 512 / 512) = some f := by
        simp [hangPage, newPage]
      have h1' : ((s.hangPage r 2 (va / pgsize / 512 / 512) f fs).ptables r).dir 1
          (va / pgsize / 512) = none := by
        simp [hangPage, newPage]
      have hz' : 0 ∉ (s.hangPage r 2 (va / pgsize / 512 / 512) f fs).freelist := by
        rw [hfs, List.mem_cons, not_or] at hz
        exact hz.2
      have hang {n t} (h : Grows r (va / pgsize) n
          (s.hangPage r 2 (va / pgsize / 512 / 512) f fs) t) : Grows r (va / pgsize) (n + 1) s t :=
        .hang (.inl rfl) (by simpa using h2) (by simp) (fun _ => ⟨rfl, hidx⟩) hfs h
      rw [if_pos rfl]
      refine wp_post (walkLast_spec hz' h2' h1') fun o s' h => ⟨hva, ?_⟩
      rcases h with ⟨ho, hnil, rfl⟩ | ⟨ho, hp, hg⟩
      · exact .inl ⟨ho, hnil, 1, by omega, hang (.refl _)⟩
      · exact .inr ⟨ho, hp, by rw [hm]; exact hang hg⟩

/-! ## Mapping a page -/

/-- `mappages` refuses the page `v`: it is valid, and in the lazy kernel a user page with a
frame. -/
def Build.remaps (B : Build) (pt : PageTable) (v : Nat) : Bool :=
  match B.selection with
  | .none => pt.userPa (v * pgsize) != 0
  | .paging _ => hasFlag (pt.pte v) pteV

/-- What mapping the page `v` with the entry `x` leaves behind: the entry is stored, or the free
list is empty. -/
def Mapped (r v : Nat) (x : Pte) (ret : Int) (s s' : Kernel) : Prop :=
  (ret = -1 ∧ s'.freelist = [] ∧ ∃ n < (s.ptables r).missing v, Grows r v n s s') ∨
    (ret = 0 ∧ ∃ t, Grows r v ((s.ptables r).missing v) s t ∧ (t.ptables r).present v ∧
      s' = t.setPte r v x)

theorem mappagesRounds_page (v : Nat) : mappagesRounds (v * pgsize) pgsize = 1 := by
  simp only [mappagesRounds, pgrounddown, pgsize]
  omega

theorem pgrounddown_page (v : Nat) : pgrounddown (v * pgsize) = v * pgsize := by
  simp only [pgrounddown, pgsize]
  omega

theorem page_div (v : Nat) : v * pgsize / pgsize = v := by
  simp only [pgsize]
  omega

theorem wp_forReturn_one {β : Type} {body : Nat → KM (Option β)} {Q : Option β → Kernel → Prop} :
    wp (forReturn body 0 1) Q E s ↔ wp (body 0) Q E s := by
  simp only [forReturn, wp_bind]
  constructor <;> intro h <;> refine wp_post h fun o s' h => ?_ <;> cases o <;> exact h

theorem Walked.mapped {x : Pte} {s' : Kernel}
    (hw : (s'.ptables r).present v ∧ Grows r v ((s.ptables r).missing v) s s') :
    Mapped r v x 0 s (s'.setPte r v x) :=
  .inr ⟨rfl, s', hw.2, hw.1, rfl⟩

theorem PageTable.pte_of_missing {pt : PageTable} {v n : Nat} (h : n < pt.missing v) :
    pt.pte v = 0#64 := by
  apply pt.pte_of_not_present
  rw [present, node_one, not_not]
  unfold missing at h
  split at h
  · simp [*]
  · split at h
    · simp [*]
    · omega

theorem PageTable.userPa_page {pt : PageTable} {v : Nat} (h : pt.pte v = 0#64) :
    pt.userPa (v * pgsize) = 0 := by
  simp [userPa, h]

theorem PageTable.hasFlag_of_userPa {pt : PageTable} {va : Nat} (h : pt.userPa va ≠ 0) :
    hasFlag (pt.pte (va / pgsize)) pteV = true := by
  unfold userPa at h
  split at h
  · rename_i hc
    exact hc.2.1
  · exact absurd rfl h

theorem PageTable.userPa_eq {pt : PageTable} {va : Nat} (h : pt.userPa va ≠ 0) :
    pt.userPa va = pte2pa (pt.pte (va / pgsize)) := by
  unfold userPa at h ⊢
  split at h
  · rename_i hc
    rw [if_pos hc]
  · exact absurd rfl h

theorem Build.remaps_of_zero {B : Build} {pt : PageTable} {v : Nat} (h : pt.pte v = 0#64) :
    B.remaps pt v = false := by
  unfold Build.remaps
  cases B.selection with
  | none => simp only [userPa_page h, bne_self_eq_false]
  | paging pol => simp only [h, hasFlag_zero]

theorem Build.remaps_of_missing {B : Build} {pt : PageTable} {v n : Nat} (h : n < pt.missing v) :
    B.remaps pt v = false := Build.remaps_of_zero (pte_of_missing h)

/-- **`mappages` of one page.** -/
theorem mappages_page_spec {B : Build} {v pa : Nat} {perm : Pte} (hz : 0 ∉ s.freelist) :
    wp (mappages B r (v * pgsize) pgsize pa perm)
      (fun ret s' => v * pgsize < maxva ∧ B.remaps (s.ptables r) v = false ∧
        Mapped r v (pa2pte pa ||| perm ||| pteV) ret s s')
      (fun e _ => e ≠ .exited ∧ (maxva ≤ v * pgsize ∨ B.remaps (s.ptables r) v = true)) s := by
  have hwalk := @walk_alloc_spec s r (v * pgsize) hz
  rw [page_div] at hwalk
  unfold mappages
  cases hsel : B.selection with
  | none =>
    have hrem : B.remaps (s.ptables r) v = ((s.ptables r).userPa (v * pgsize) != 0) := by
      simp [Build.remaps, hsel]
    simp only [mappagesNone, wp_bind, mappagesRounds_page, wp_forReturn_one, mappagesNoneRound,
      pgrounddown_page, Nat.zero_mul, Nat.add_zero]
    refine wp_mono hwalk (fun o s' h => ?_) fun e s' h => ⟨h.1, .inl h.2⟩
    obtain ⟨hva, ⟨rfl, hnil, n, hn, hg⟩ | ⟨rfl, hp, hg⟩⟩ := h
    · exact ⟨hva, Build.remaps_of_missing hn, .inl ⟨rfl, hnil, n, hn, hg⟩⟩
    have hpa : (s'.ptables r).userPa (v * pgsize) = (s.ptables r).userPa (v * pgsize) := by
      simp only [userPa, page_div, hg.pte_eq]
    simp only [wp_bind, wp_readPte, wp_walkaddr, hpa, ← pte_of_present _ hp, hg.pte_eq]
    cases hr : B.remaps (s.ptables r) v with
    | false =>
      rw [← hrem, hr, Bool.and_false, if_neg Bool.false_ne_true]
      exact ⟨hva, rfl, Walked.mapped ⟨hp, hg⟩⟩
    | true =>
      have hV := hasFlag_of_userPa (bne_iff_ne.mp (hrem ▸ hr))
      rw [page_div] at hV
      rw [← hrem, hr, hV, Bool.and_true, if_pos rfl]
      exact ⟨by simp, .inr rfl⟩
  | paging pol =>
    have hrem : B.remaps (s.ptables r) v = hasFlag ((s.ptables r).pte v) pteV := by
      simp [Build.remaps, hsel]
    simp only [mappagesNotNone, wp_bind, mappagesRounds_page, wp_forReturn_one,
      mappagesNotNoneRound, pgrounddown_page, Nat.zero_mul, Nat.add_zero]
    refine wp_mono hwalk (fun o s' h => ?_) fun e s' h => ⟨h.1, .inl h.2⟩
    obtain ⟨hva, ⟨rfl, hnil, n, hn, hg⟩ | ⟨rfl, hp, hg⟩⟩ := h
    · exact ⟨hva, Build.remaps_of_missing hn, .inl ⟨rfl, hnil, n, hn, hg⟩⟩
    simp only [wp_bind, wp_readPte, ← pte_of_present _ hp, hg.pte_eq, ← hrem]
    cases hr : B.remaps (s.ptables r) v with
    | false => exact ⟨hva, rfl, Walked.mapped ⟨hp, hg⟩⟩
    | true => exact ⟨by simp, .inr rfl⟩

theorem wp_mappage_present {pa : Nat} {perm : Pte} {Q : Int → Kernel → Prop}
    (hv : v * pgsize < maxva) (hp : (s.ptables r).present v) :
    wp (mappage r (v * pgsize) pa perm) Q E s ↔
      if hasFlag ((s.ptables r).pte v) pteV then E (.panic "remap") s
      else Q 0 (s.setPte r v (pa2pte pa ||| perm ||| pteV)) := by
  have hp' : (s.ptables r).present (v * pgsize / pgsize) := by rwa [page_div]
  simp only [mappage, wp_bind, pgrounddown_page, wp_walk_present hv hp', wp_readPte, page_div,
    ← pte_of_present _ hp]
  split <;> rfl

end Alloc

end Xv6Paging
