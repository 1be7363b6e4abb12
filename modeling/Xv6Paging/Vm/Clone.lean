import Xv6Paging.Vm.Copy

/-!
# Copying an address space

What `uvmcopy` does, page by page: a page is copied as its flags (a swapped-out page of the paging
kernels, a page that `walkaddr` does not see in the lazy kernel) or into a fresh frame.  The run of
the loop is recorded step by step, and the facts about the copy are read off that record.
-/

namespace Xv6Paging

open StateHalt Kernel PageTable

/-- `uvmcopy` copies the page `k` as its flags. -/
def Build.copiesFlags (B : Build) (pr : Proc) (pt : PageTable) (k : Nat) : Bool :=
  match B.selection with
  | .none => pt.userPa (k * pgsize) == 0
  | .paging _ => decide (pr.pid > 2) && hasFlag (pt.pte k) ptePG

/-- The first page `f` of the free list becomes a copy of the page at `pa`. -/
def Kernel.copyPage (s : Kernel) (f : Nat) (fs : List Nat) (pa : Nat) : Kernel :=
  (s.takePage f fs).setPage f ((s.takePage f fs).mem pa)

/-- The entry of a page copied to the frame `f`. -/
def clonePte (f : Nat) (x : Pte) : Pte := pa2pte f ||| pteFlags x ||| pteV

/-- The first `n` pages of the table `old` were copied to the table `new`, one after the other. -/
inductive Copies (B : Build) (pr : Proc) (old new : Nat) : Nat → Kernel → Kernel → Prop
  | refl (s : Kernel) : Copies B pr old new 0 s s
  | flags {k : Nat} {s t u : Kernel} (h : Copies B pr old new k s t)
      (hx : B.copiesFlags pr (s.ptables old) k = true)
      (hfound : B.selection = .none ∨ (t.ptables new).present k)
      (hg : Grows new k ((t.ptables new).missing k) t u) (hp : (u.ptables new).present k) :
      Copies B pr old new (k + 1) s (u.setPte new k (pteFlags ((s.ptables old).pte k)))
  | page {k f : Nat} {fs : List Nat} {s t u : Kernel} (h : Copies B pr old new k s t)
      (hx : B.copiesFlags pr (s.ptables old) k = false)
      (hV : hasFlag ((s.ptables old).pte k) pteV = true)
      (hfree : t.freelist = f :: fs)
      (hg : Grows new k ((t.ptables new).missing k)
        (t.copyPage f fs (pte2pa ((s.ptables old).pte k))) u)
      (hp : (u.ptables new).present k) :
      Copies B pr old new (k + 1) s (u.setPte new k (clonePte f ((s.ptables old).pte k)))

namespace Copies

variable {B : Build} {pr : Proc} {old new n : Nat} {s t : Kernel}

variable (h : Copies B pr old new n s t)
include h

theorem frame : t = { s with freelist := t.freelist, mem := t.mem, ptables := t.ptables } := by
  induction h with
  | refl => rfl
  | flags _ _ _ hg _ ih =>
    have hu := hg.frame
    rw [ih] at hu
    rw [hu]
    rfl
  | page _ _ _ _ hg _ ih =>
    have hu := hg.frame
    rw [ih] at hu
    rw [hu]
    rfl

theorem proc_eq : t.proc = s.proc := by rw [h.frame]

theorem cur_eq : t.cur = s.cur := by rw [h.frame]

theorem table_of_ne {r : Nat} (hr : r ≠ new) : t.ptables r = s.ptables r := by
  induction h with
  | refl => rfl
  | flags _ _ _ hg _ ih => rw [setPte_of_ne _ _ _ hr, hg.table_of_ne hr, ih]
  | page _ _ _ _ hg _ ih =>
    rw [setPte_of_ne _ _ _ hr, hg.table_of_ne hr, ← ih]
    rfl

theorem pte_of_ge {v : Nat} (hv : n ≤ v) : (t.ptables new).pte v = (s.ptables new).pte v := by
  induction h with
  | refl => rfl
  | flags _ _ _ hg hp ih =>
    rw [setPte_self, pte_setLeaf _ hp, if_neg (by omega), hg.pte_eq, ih (by omega)]
  | page _ _ _ _ hg hp ih =>
    rw [setPte_self, pte_setLeaf _ hp, if_neg (by omega), hg.pte_eq,
      ← ih (by omega)]
    rfl

theorem taken : ∃ fresh, s.freelist = fresh ++ t.freelist ∧
    ∀ pa, pa ∉ fresh → t.mem pa = s.mem pa := by
  induction h with
  | refl => exact ⟨[], rfl, fun _ _ => rfl⟩
  | flags _ _ _ hg _ ih =>
    obtain ⟨fresh, hfs, hmem⟩ := ih
    obtain ⟨more, hmore, -, hmem'⟩ := hg.taken
    refine ⟨fresh ++ more, by rw [hfs, hmore, List.append_assoc]; rfl, fun pa hpa => ?_⟩
    rw [List.mem_append, not_or] at hpa
    exact (hmem' pa hpa.2).trans (hmem pa hpa.1)
  | @page k f fs s t u _ _ _ hfree hg _ ih =>
    obtain ⟨fresh, hfs, hmem⟩ := ih
    obtain ⟨more, hmore, -, hmem'⟩ := hg.taken
    refine ⟨fresh ++ f :: more, ?_, fun pa hpa => ?_⟩
    · rw [hfs, hfree, show fs = more ++ u.freelist from hmore, List.append_assoc]
      rfl
    · rw [List.mem_append, List.mem_cons, not_or, not_or] at hpa
      refine (hmem' pa hpa.2.2).trans ?_
      rw [← hmem pa hpa.1]
      simp [copyPage, takePage, hpa.2.1]

theorem mem_freelist {f : Nat} (hf : f ∈ t.freelist) : f ∈ s.freelist := by
  obtain ⟨fresh, hfs, -⟩ := h.taken
  rw [hfs]
  exact List.mem_append_right _ hf

theorem present {v : Nat} (hv : v < n) : (t.ptables new).present v := by
  induction h with
  | refl => omega
  | @flags k s t u h hx _ hg hp ih =>
    rw [setPte_self, present_setLeaf]
    by_cases hk : v = k
    · exact hk ▸ hp
    · exact hg.present (ih (by omega))
  | @page k f fs s t u h hx hV hfree hg hp ih =>
    rw [setPte_self, present_setLeaf]
    by_cases hk : v = k
    · exact hk ▸ hp
    · exact hg.present (ih (by omega))

/-- In a paging kernel the first page has a frame: the copy of its flags would find no level-0
page. -/
theorem first (hB : B.selection ≠ .none) (hn : 0 < n)
    (hm : ¬(s.ptables new).present 0) : B.copiesFlags pr (s.ptables old) 0 = false := by
  induction h with
  | refl => omega
  | @flags k s t u h hx hfound hg hp ih =>
    by_cases h0 : k = 0
    · subst h0
      cases h
      exact absurd (hfound.resolve_left hB) hm
    · exact ih (by omega) hm
  | @page k f fs s t u h hx hV hfree hg hp ih =>
    by_cases h0 : k = 0
    · subst h0
      exact hx
    · exact ih (by omega) hm

end Copies

/-! ## Counting frames -/

/-- The number of the first `n` pages that are copied into a frame of their own. -/
def residents (B : Build) (pr : Proc) (pt : PageTable) (n : Nat) : Nat :=
  (List.range n).countP fun k => !B.copiesFlags pr pt k

theorem residents_succ (B : Build) (pr : Proc) (pt : PageTable) (n : Nat) :
    residents B pr pt (n + 1) = residents B pr pt n + if B.copiesFlags pr pt n then 0 else 1 := by
  simp only [residents, List.range_succ, List.countP_append, List.countP_singleton]
  cases B.copiesFlags pr pt n <;> simp

theorem residents_mono (B : Build) (pr : Proc) (pt : PageTable) {m n : Nat} (h : m ≤ n) :
    residents B pr pt m ≤ residents B pr pt n := by
  induction h with
  | refl => exact le_rfl
  | step _ ih =>
    rw [residents_succ]
    omega

theorem PageTable.present_low {pt : PageTable} {v w : Nat} (hv : v < 512) (hw : w < 512)
    (h : pt.present v) : pt.present w := by
  have h1 : v / 512 = 0 := by omega
  have h2 : w / 512 = 0 := by omega
  rw [present, h1] at h
  rw [present, h2]
  exact h

namespace Copies

variable {B : Build} {pr : Proc} {old new n : Nat} {s t : Kernel}

/-- **The frames that a copy takes**: one for every page with a frame, and two page-table pages. -/
theorem length_eq (h : Copies B pr old new n s t) (hn : n ≤ 512)
    (hm : (s.ptables new).missing 0 = 2) : s.freelist.length = t.freelist.length +
      residents B pr (s.ptables old) n + if n = 0 then 0 else 2 := by
  -- the first page finds the table empty, every later one finds the level-0 page
  have hmissing : ∀ {k u}, Copies B pr old new k s u → k < 512 →
      (u.ptables new).missing k = if k = 0 then 2 else 0 := by
    intro k u hu hk
    by_cases h0 : k = 0
    · subst h0
      cases hu
      simpa using hm
    · have hp := hu.present (v := 0) (by omega)
      rw [if_neg h0, missing_of_present (present_low (by omega) hk hp)]
  induction h with
  | refl => simp [residents]
  | @flags k s t u h hx _ hg hp ih =>
    have hlen := hg.length_eq
    rw [hmissing h (by omega)] at hlen
    have hih := ih (by omega) hm hmissing
    rw [residents_succ, if_pos hx, if_neg (by omega), setPte_freelist]
    split at hih <;> simp_all
    omega
  | @page k f fs s t u h hx hV hfree hg hp ih =>
    have hlen := hg.length_eq
    rw [hmissing h (by omega)] at hlen
    have hih := ih (by omega) hm hmissing
    have hcopy : (t.copyPage f fs (pte2pa ((s.ptables old).pte k))).freelist = fs := rfl
    have hcons := congrArg List.length hfree
    rw [List.length_cons] at hcons
    rw [hcopy] at hlen
    rw [residents_succ, if_neg (by simp [hx]), if_neg (by omega), setPte_freelist]
    split at hih <;> simp_all <;> omega

end Copies

/-! ## The rule for the loop -/

/-- `uvmcopy` accepts the entry of a page: it is valid, or swapped out in a paging kernel. -/
def Build.clones (B : Build) (pr : Proc) (x : Pte) : Prop :=
  match B.selection with
  | .none => hasFlag x pteV = true
  | .paging _ => (pr.pid > 2 ∧ hasFlag x ptePG = true) ∨ hasFlag x pteV = true

/-- What `uvmcopy` needs to copy the first `n` pages without a panic. -/
structure CanClone (B : Build) (pr : Proc) (old new n : Nat) (s : Kernel) : Prop where
  frames : ∀ f ∈ s.freelist, IsFrame B f
  lt_maxva : ∀ k < n, k * pgsize < maxva
  present : ∀ k < n, (s.ptables old).present k
  valid : ∀ k < n, B.clones pr ((s.ptables old).pte k)
  mapped : ∀ k < n, B.copiesFlags pr (s.ptables old) k = false →
    kernbase ≤ pte2pa ((s.ptables old).pte k) ∧ pte2pa ((s.ptables old).pte k) < phystop

/-- The free list ran out when the page `k` was to be copied from `pa`; what was taken for it is
back. -/
def RanOut (B : Build) (new k pa : Nat) (t u : Kernel) : Prop :=
  (t.freelist = [] ∧ u = t) ∨ ∃ f fs w m, t.freelist = f :: fs ∧ IsFrame B f ∧
    m < (t.ptables new).missing k ∧ Grows new k m (t.copyPage f fs pa) w ∧ w.freelist = [] ∧
    u = w.putPage f

section Rule

variable {B : Build} {s : Kernel} {p : Fin nproc} {old new n sz : Nat} {E : Halt → Kernel → Prop}

theorem wp_uvmcopyPage {k : Nat} {x : Pte} {Q : Option Int → Kernel → Prop} {t : Kernel}
    (hz : 0 ∉ t.freelist) (hrem : B.remaps (t.ptables new) k = false)
    (hE : ∀ msg u, ¬((∀ f ∈ t.freelist, IsFrame B f) ∧ k * pgsize < maxva ∧
      kernbase ≤ pte2pa x ∧ pte2pa x < phystop) → E (.panic msg) u)
    (herr : ∀ u, RanOut B new k (pte2pa x) t u →
      wp (uvmunmap B new 0 k true) (fun _ s' => Q (some (-1)) s') E u)
    (hok : ∀ f fs u, t.freelist = f :: fs →
      Grows new k ((t.ptables new).missing k) (t.copyPage f fs (pte2pa x)) u →
      (u.ptables new).present k → Q none (u.setPte new k (clonePte f x))) :
    wp (uvmcopyPage B new k x) Q E t := by
  simp only [uvmcopyPage, wp_bind]
  cases hfree : t.freelist with
  | nil =>
    rw [wp_kalloc_nil hfree, if_pos rfl, uvmcopyErr, wp_bind]
    exact herr t (.inl ⟨hfree, rfl⟩)
  | cons f fs =>
    have hf0 : f ≠ 0 := fun h => hz (by simp [hfree, h])
    rw [wp_kalloc_cons hfree, if_neg hf0]
    simp only [wp_bind, wp_loadPage, wp_storePage]
    -- the source page and the fresh one have to be mapped by the kernel
    split
    swap
    · rename_i hk
      exact hE _ _ fun h => hk h.2.2
    split
    swap
    · rename_i hk
      refine hE _ _ fun h => hk ?_
      have := h.1 f (by simp [hfree])
      exact ⟨this.kernbase_le, this.2.2⟩
    have hz' : 0 ∉ (t.copyPage f fs (pte2pa x)).freelist := fun h =>
      hz (by rw [hfree]; exact List.mem_cons_of_mem _ h)
    refine wp_mono (mappages_page_spec (s := t.copyPage f fs (pte2pa x)) hz') ?_ ?_
    · rintro ret u ⟨-, -, ⟨rfl, hnil, m, hm, hg⟩ | ⟨rfl, w, hg, hp, rfl⟩⟩
      · rw [if_pos (by decide), wp_bind, wp_kfree]
        split
        · rename_i hf
          rw [uvmcopyErr, wp_bind]
          exact herr _ (.inr ⟨f, fs, u, m, hfree, hf, hm, hg, hnil, rfl⟩)
        · rename_i hf
          exact hE _ _ fun h => hf (h.1 f (by simp [hfree]))
      · rw [if_neg (by decide)]
        exact hok f fs w hfree hg hp
    · rintro e u ⟨he, hn⟩
      cases e with
      | exited => exact absurd rfl he
      | panic msg =>
        refine hE msg u fun h => ?_
        rcases hn with hn | hn
        · exact absurd h.2.1 (Nat.not_lt.mpr hn)
        · change B.remaps (t.ptables new) k = true at hn
          simp [hrem] at hn

theorem wp_cloneFlags {k : Nat} {alloc : Bool} {x : Pte} {Q : Option Int → Kernel → Prop}
    {t : Kernel} (hz : 0 ∉ t.freelist)
    (hE : ∀ msg u, ¬k * pgsize < maxva → E (.panic msg) u)
    (hfail : ∀ u m, m < (t.ptables new).missing k → Grows new k m t u →
      (alloc = false ∧ u = t ∨ alloc = true ∧ u.freelist = []) → Q (some (-1)) u)
    (hok : ∀ u, alloc = true ∨ (t.ptables new).present k →
      Grows new k ((t.ptables new).missing k) t u → (u.ptables new).present k →
      Q none (u.setPte new k x)) :
    wp (do
      match ← walk new (k * pgsize) alloc with
      | none => pure (some (-1))
      | some newPte => do
        writePte newPte x
        pure none : KM (Option Int)) Q E t := by
  rw [wp_bind]
  cases alloc with
  | false =>
    by_cases hva : k * pgsize < maxva
    swap
    · rw [wp_walk_ge (Nat.not_lt.mp hva)]
      exact hE _ _ hva
    rw [wp_walk_false hva, page_div]
    by_cases hp : (t.ptables new).present k
    · rw [if_pos hp]
      simp only [wp_bind, wp_writePte, wp_pure]
      have hm := missing_of_present hp
      exact hok t (.inr hp) (by rw [hm]; exact .refl t) hp
    · rw [if_neg hp]
      have hm : 0 < (t.ptables new).missing k := by
        rw [present, node_one, not_not] at hp
        unfold missing
        split
        · omega
        · rename_i h2
          obtain ⟨a, ha⟩ := Option.ne_none_iff_exists'.mp h2
          rw [ha, Option.bind_some] at hp
          rw [if_pos hp]
          omega
      exact hfail t 0 hm (.refl t) (.inl ⟨rfl, rfl⟩)
  | true =>
    have hwalk := @walk_alloc_spec t new (k * pgsize) hz
    rw [page_div] at hwalk
    refine wp_mono hwalk ?_ ?_
    · rintro o u ⟨-, ⟨rfl, hnil, m, hm, hg⟩ | ⟨rfl, hp, hg⟩⟩
      · exact hfail u m hm hg (.inr ⟨rfl, hnil⟩)
      · simp only [wp_bind, wp_writePte, wp_pure]
        exact hok u (.inl rfl) hg hp
    · rintro e u ⟨he, hva⟩
      cases e with
      | exited => exact absurd rfl he
      | panic msg => exact hE msg u (Nat.not_lt.mpr hva)

/-- **The rule for `uvmcopy`**, called by the process `p` to copy its own table. -/
theorem wp_uvmcopy {Q : Int → Kernel → Prop} (hc : s.cur = some p)
    (hold : (s.proc p).pagetable = old) (hne : old ≠ new) (hz : 0 ∉ s.freelist)
    (hn : (sz + (pgsize - 1)) / pgsize = n) (hfresh : ∀ k < n, (s.ptables new).pte k = 0#64)
    (hE : ∀ msg u, ¬CanClone B (s.proc p) old new n s → E (.panic msg) u)
    (hok : ∀ t, Copies B (s.proc p) old new n s t → Q 0 t)
    (hflags : ∀ k t u m, k < n → Copies B (s.proc p) old new k s t →
      B.copiesFlags (s.proc p) (s.ptables old) k = true → m < (t.ptables new).missing k →
      Grows new k m t u → (B.selection ≠ .none ∧ u = t ∨ B.selection = .none ∧ u.freelist = []) →
      Q (-1) u) (herr : ∀ k t u, k < n → Copies B (s.proc p) old new k s t →
      B.copiesFlags (s.proc p) (s.ptables old) k = false →
      hasFlag ((s.ptables old).pte k) pteV = true →
      RanOut B new k (pte2pa ((s.ptables old).pte k)) t u →
      wp (uvmunmap B new 0 k true) (fun _ s' => Q (-1) s') E u) :
    wp (uvmcopy B old new sz) Q E s := by
  unfold uvmcopy
  rw [wp_bind, hn]
  refine wp_forReturn (fun k t => Copies B (s.proc p) old new k s t) (.refl s) ?_ ?_
  swap
  · intro t ht
    rw [Nat.zero_add] at ht
    exact hok t ht
  intro k t _ hk ht
  rw [Nat.zero_add] at hk
  have htold : t.ptables old = s.ptables old := ht.table_of_ne hne
  have htc : t.cur = some p := ht.cur_eq.trans hc
  have hz' : 0 ∉ t.freelist := fun h => hz (ht.mem_freelist h)
  have hfresh' : (t.ptables new).pte k = 0#64 := by
    rw [ht.pte_of_ge le_rfl, hfresh k hk]
  simp only [uvmcopyRound, wp_bind]
  by_cases hva : k * pgsize < maxva
  swap
  · rw [wp_walk_ge (Nat.not_lt.mp hva)]
    exact hE _ _ fun h => hva (h.lt_maxva k hk)
  rw [wp_walk_false hva, page_div, htold]
  by_cases hp : (s.ptables old).present k
  swap
  · rw [if_neg hp]
    exact hE _ _ fun h => hp (h.present k hk)
  simp only [if_pos hp, wp_bind, wp_readPte, htold, ← pte_of_present _ hp,
    wp_myproc htc, wp_getProc, ht.proc_eq]
  have hEk : ∀ msg u, ¬k * pgsize < maxva → E (.panic msg) u := fun _ _ h => absurd hva h
  have hrem : B.remaps (t.ptables new) k = false := Build.remaps_of_zero hfresh'
  -- the copy into a fresh frame is the same in both kinds of kernel
  have hpage (hx : B.copiesFlags (s.proc p) (s.ptables old) k = false)
      (hV : hasFlag ((s.ptables old).pte k) pteV = true) :
      wp (uvmcopyPage B new k ((s.ptables old).pte k))
        (fun r s' => r.elim (Copies B (s.proc p) old new (k + 1) s s')
          fun b => wp (pure ((some b).getD 0) : KM Int) Q E s') E t := by
    refine wp_uvmcopyPage hz' hrem (fun msg u h => hE msg u fun hcan => h ?_) ?_ ?_
    · exact ⟨fun f hf => hcan.frames f (ht.mem_freelist hf), hva, hcan.mapped k hk hx⟩
    · exact fun u hu => herr k t u hk ht hx hV hu
    · exact fun f fs u hfree hg hpu => .page ht hx hV hfree hg hpu
  cases hB : B.selection with
  | paging pol =>
    have hcf : B.copiesFlags (s.proc p) (s.ptables old) k =
        (decide ((s.proc p).pid > 2) && hasFlag ((s.ptables old).pte k) ptePG) := by
      simp [Build.copiesFlags, hB]
    refine wp_ite (fun hx => ?_) fun hx => wp_ite (fun hV => ?_) fun hV => ?_
    · have hx' : B.copiesFlags (s.proc p) (s.ptables old) k = true := by
        rw [hcf]
        simpa using hx
      refine wp_cloneFlags hz' hEk (fun u m hm hg hu => ?_) fun u ha hg hpu =>
        .flags ht hx' (.inr (ha.resolve_left (by simp))) hg hpu
      refine hflags k t u m hk ht hx' hm hg (.inl ⟨by simp [hB], ?_⟩)
      rcases hu with ⟨-, rfl⟩ | ⟨h, -⟩
      · rfl
      · simp at h
    · refine hE _ _ fun hcan => ?_
      have hval := hcan.valid k hk
      simp only [Build.clones, hB] at hval
      rcases hval with h | h
      · exact hx h
      · simp [h] at hV
    · refine hpage ?_ (by simpa using hV)
      rw [hcf]
      simpa using hx
  | none =>
    have hcf : B.copiesFlags (s.proc p) (s.ptables old) k =
        ((s.ptables old).userPa (k * pgsize) == 0) := by
      simp [Build.copiesFlags, hB]
    refine wp_ite (fun hV => ?_) fun hV => ?_
    · refine hE _ _ fun hcan => ?_
      have hval := hcan.valid k hk
      simp only [Build.clones, hB] at hval
      simp [hval] at hV
    rw [wp_bind, wp_walkaddr, hold, htold]
    refine wp_ite (fun hx => ?_) fun hx => ?_
    · have hx' : B.copiesFlags (s.proc p) (s.ptables old) k = true := by
        rw [hcf]
        simpa using hx
      refine wp_cloneFlags hz' hEk (fun u m hm hg hu => ?_) fun u _ hg hpu =>
        .flags ht hx' (.inl hB) hg hpu
      refine hflags k t u m hk ht hx' hm hg (.inr ⟨hB, ?_⟩)
      rcases hu with ⟨h, -⟩ | ⟨-, h⟩
      · simp at h
      · exact h
    · refine hpage ?_ (by simpa using hV)
      rw [hcf]
      simpa using hx

end Rule

end Xv6Paging
