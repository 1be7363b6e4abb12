import Xv6Paging.Machine.Sample
import Xv6Paging.Memory.Logical
import Xv6Paging.Proc.Fork

/-!
# Tearing down a child

A process that reaps a child, or frees the half-built child of a failed `fork`, runs `uvmunmap` on
the child's page table.  Its own table is not touched, but its own `ram` and `swap` slots are, for
every page that the child's table had: the parent's paging state survives exactly when it records
none of these pages.
-/

namespace Xv6Paging

open StateHalt Kernel

/-- The arrays and the page table of the process `p` are as before. -/
structure KeepsPaging (p : Fin nproc) (s s' : Kernel) : Prop where
  ram : (s'.proc p).ram = (s.proc p).ram
  swap : (s'.proc p).swap = (s.proc p).swap
  pagetable : (s'.proc p).pagetable = (s.proc p).pagetable
  table : s'.ptables (s.proc p).pagetable = s.ptables (s.proc p).pagetable

/-- A slot of the process holds the address of the page `v`. -/
def Proc.RecordsPage (pr : Proc) (v : Nat) : Prop :=
  ∃ k, u64 (pr.ram k).va = v * pgsize ∨ u64 (pr.swap k).va = v * pgsize

/-- The child that `wait` reaps. -/
def Kernel.zombieChild (s : Kernel) (p : Fin nproc) : Option (Fin nproc) :=
  (List.finRange nproc).find? fun np => (s.proc np).parent = some p ∧ (s.proc np).state = .zombie

/-- `fork` has a free slot, page 0 is not swapped out, and there are frames for the trapframe, the
table of the child and the pages up to `v`. -/
def Kernel.CopiedByFork (s : Kernel) (B : Build) (p : Fin nproc) (v : Nat) : Prop :=
  s.unusedSlot ≠ none ∧
    B.copiesFlags (s.proc p) (s.ptables (s.proc p).pagetable) 0 = false ∧
    6 + residents B (s.proc p) (s.ptables (s.proc p).pagetable) (v + 1) ≤ s.freelist.length

/-- The process `p` runs: it is alive with a table of its own, of at most `MAX_TOTAL_PAGES` pages,
and the unused slots of the process table are empty. -/
structure Runs (s : Kernel) (p : Fin nproc) : Prop where
  cur : s.cur = some p
  alive : (s.proc p).state ≠ .unused ∧ (s.proc p).state ≠ .zombie
  intVas : (s.proc p).IntVas
  size : (s.proc p).sz ≤ maxTotalPages * pgsize
  root : (s.proc p).pagetable ≠ 0
  root_notMem : (s.proc p).pagetable ∉ s.freelist
  zero_notMem : 0 ∉ s.freelist
  unused : ∀ i, (s.proc i).state = .unused → (s.proc i).pagetable = 0 ∧ (s.proc i).sz = 0

/-! ## Forgetting -/

section Forget

variable {v n : Nat} {d : Slots}

theorem inPages_iff {a : Nat} : inPages v n a = true ↔ ∃ w, v ≤ w ∧ w < v + n ∧ a = w * pgsize := by
  constructor
  · intro h
    simp only [inPages, Bool.and_eq_true, beq_iff_eq, decide_eq_true_eq] at h
    exact ⟨a / pgsize, h.2.1, h.2.2, (Nat.div_mul_cancel (Nat.dvd_of_mod_eq_zero h.1)).symm⟩
  · rintro ⟨w, h1, h2, rfl⟩
    exact inPages_page.mpr ⟨h1, h2⟩

/-- The slots survive exactly if they record none of the pages. -/
theorem forgetPages_eq_iff :
    forgetPages v n d = d ↔ ∀ w, v ≤ w → w < v + n → ∀ k, u64 (d k).va ≠ w * pgsize := by
  constructor
  · intro h w h1 h2 k hk
    have hk' := congrFun h k
    have hin : inPages v n (u64 (d k).va) = true := inPages_iff.mpr ⟨w, h1, h2, hk⟩
    rw [forgetPages, if_pos hin] at hk'
    rw [← hk', inPages_removed] at hin
    exact absurd hin (by simp)
  · intro h
    funext k
    rw [forgetPages, if_neg]
    intro hin
    obtain ⟨w, h1, h2, hk⟩ := inPages_iff.mp hin
    exact h w h1 h2 k hk

theorem Proc.forgetPages_keeps_iff {pr : Proc} (hpid : 2 < pr.pid) :
    ((pr.forgetPages 0 n).ram = pr.ram ∧ (pr.forgetPages 0 n).swap = pr.swap) ↔
      ∀ v < n, ¬pr.RecordsPage v := by
  rw [Proc.forgetPages, if_pos hpid]
  simp only [forgetPages_eq_iff, Nat.zero_add]
  constructor
  · rintro ⟨hram, hswap⟩ v hv ⟨k, hk | hk⟩
    · exact hram v (Nat.zero_le v) hv k hk
    · exact hswap v (Nat.zero_le v) hv k hk
  · intro h
    exact ⟨fun w _ hw k hk => h w hw ⟨k, .inl hk⟩, fun w _ hw k hk => h w hw ⟨k, .inr hk⟩⟩

end Forget

section Parent

variable {B : Build} {pol : Policy} {s s' : Kernel} {p : Fin nproc} {np : Fin nproc} {t : Kernel}

/-- If the process forgot its first `n` pages and its table is untouched, its paging state survives
exactly if it records none of these pages. -/
theorem keepsPaging_iff {n : Nat} (hpid : 2 < (s.proc p).pid)
    (hproc : s'.proc p = (s.proc p).forgetPages 0 n)
    (htab : s'.ptables (s.proc p).pagetable = s.ptables (s.proc p).pagetable) :
    KeepsPaging p s s' ↔ ∀ v < n, ¬(s.proc p).RecordsPage v := by
  rw [← Proc.forgetPages_keeps_iff hpid]
  constructor
  · rintro ⟨hram, hswap, -, -⟩
    rw [hproc] at hram hswap
    exact ⟨hram, hswap⟩
  · rintro ⟨hram, hswap⟩
    refine ⟨by rw [hproc, hram], by rw [hproc, hswap], ?_, htab⟩
    rw [hproc, Proc.forgetPages_eq]

/-! ## Reaping -/

/-- **`wait` that reaps the child `c`.** -/
theorem wait_reaps {c : Fin nproc} {addr : Nat} (hB : B.selection = .paging pol) (hp : Runs s p)
    (hc : s.zombieChild p = some c) (hroot : (s.proc c).pagetable ≠ 0)
    (hne : (s.proc c).pagetable ≠ (s.proc p).pagetable) :
    wp (wait B addr) (fun o s' => ∀ r, o = some r → 0 ≤ r →
      s'.proc p = (s.proc p).forgetPages 0 (pagesOf (s.proc c).sz) ∧
      s'.ptables (s.proc p).pagetable = s.ptables (s.proc p).pagetable) Panics s := by
  have hzombie : (s.proc c).state = .zombie := by
    have := List.find?_some hc
    simp only [decide_eq_true_eq] at this
    exact this.2
  have hcp : c ≠ p := by
    rintro rfl
    exact hp.alive.2 hzombie
  simp only [zombieChild] at hc
  simp only [wait, wp_bind, wp_myproc hp.cur, wp_get, hc, wp_getProc]
  -- the exit status goes to a user page, whatever the address
  have hstatus : wp (waitStatus (s.proc p).pagetable addr (s.proc c).xstate)
      (fun _ t => t = { s with mem := t.mem }) Panics s :=
    wp_ite (fun _ => wp_post copyout_frame fun _ _ h => h.rest) fun _ => rfl
  refine wp_post hstatus fun r t ht => ?_
  have htp : t.proc = s.proc := by rw [ht]
  have htt : t.ptables = s.ptables := by rw [ht]
  have htc : t.cur = some p := by rw [ht]; exact hp.cur
  refine wp_ite (fun _ => ?_) fun _ => ?_
  · rintro r' h h0
    obtain rfl : -1 = r' := by simpa using h
    omega
  rw [wp_bind]
  refine wp_post (freeproc_frame hB htc hcp (by rw [htp]; exact hp.intVas)) fun _ u hu => ?_
  rintro - - -
  refine ⟨?_, ?_⟩
  · rw [hu.self, htp, if_neg hroot]
  · rw [hu.onTable.other _ (by rw [htp]; exact hne.symm), htt]

/-! ## A failed fork -/

/-- The parent forgot its first `k` pages, which are those that were copied, and its table is
untouched. -/
def ForkLeft (B : Build) (p : Fin nproc) (s s' : Kernel) : Prop :=
  ∃ k, s'.proc p = (s.proc p).forgetPages 0 k ∧
    s'.ptables (s.proc p).pagetable = s.ptables (s.proc p).pagetable ∧
    ∀ v, v < k ↔ s.CopiedByFork B p v

theorem ForkLeft.unchanged (hproc : s'.proc p = s.proc p)
    (htab : s'.ptables (s.proc p).pagetable = s.ptables (s.proc p).pagetable)
    (hnone : ∀ v, ¬s.CopiedByFork B p v) : ForkLeft B p s s' :=
  ⟨0, by rw [hproc, Proc.forgetPages_zero], htab, fun v =>
    ⟨fun h => absurd h (Nat.not_lt_zero v), fun h => absurd h (hnone v)⟩⟩

theorem not_copiedByFork (h : s.freelist.length < 6) (v : Nat) : ¬s.CopiedByFork B p v := by
  rintro ⟨-, -, h'⟩
  omega

/-- The parent `p` runs, with the slot and the table that it has in `s`. -/
structure Beside (p : Fin nproc) (s t : Kernel) : Prop where
  cur : t.cur = some p
  proc : t.proc p = s.proc p
  table : t.ptables (s.proc p).pagetable = s.ptables (s.proc p).pagetable

namespace Beside

variable {r : Nat} {u : Kernel} (h : Beside p s t)
include h

theorem takePage (f : Nat) (fs : List Nat) : Beside p s (t.takePage f fs) :=
  ⟨h.cur, h.proc, h.table⟩

theorem setProc (hne : np ≠ p) (x : Proc) : Beside p s (t.setProc np x) :=
  ⟨h.cur, (setProc_of_ne _ _ hne.symm).trans h.proc, h.table⟩

theorem newTable (hr : (s.proc p).pagetable ≠ r) (fs : List Nat) :
    Beside p s (t.newTable r fs) :=
  ⟨h.cur, h.proc, (setTable_of_ne _ _ hr).trans h.table⟩

theorem grows {v n : Nat} (hg : Grows r v n t u) (hr : (s.proc p).pagetable ≠ r) : Beside p s u :=
  ⟨hg.cur_eq.trans h.cur, (congrFun hg.proc_eq p).trans h.proc, (hg.table_of_ne hr).trans h.table⟩

theorem onTable (ht : OnTable r t u) (hproc : u.proc = t.proc) (hr : (s.proc p).pagetable ≠ r) :
    Beside p s u :=
  ⟨ht.cur_eq.trans h.cur, (congrFun hproc p).trans h.proc, (ht.other _ hr).trans h.table⟩

end Beside

theorem Named.beside (h : Named B np s t) (hp : Runs s p) (hne : np ≠ p) : Beside p s t := by
  refine ⟨?_, ?_, ?_⟩
  · rw [h.rest]
    exact hp.cur
  · rw [h.proc, Function.update_of_ne hne.symm]
  · rw [h.rest]

theorem Named.freelist_eq (h : Named B np s t) : t.freelist = s.freelist := by rw [h.rest]

theorem freeproc_tableless (hB : B.selection = .paging pol) (hp : Runs s p) (hne : np ≠ p)
    (h : Beside p s t) (hnp : (t.proc np).pagetable = 0) (hfew : s.freelist.length < 6) :
    wp (freeproc B np) (fun _ s' => ForkLeft B p s s') Panics t := by
  refine wp_post (freeproc_frame hB h.cur hne (by rw [h.proc]; exact hp.intVas)) fun _ u hu => ?_
  refine .unchanged ?_ ?_ (not_copiedByFork hfew)
  · rw [hu.self, if_pos hnp, h.proc]
  · rw [hu.onTable.other _ (by rw [hnp]; exact hp.root), h.table]

theorem freeproc_empty {r k : Nat} (hB : B.selection = .paging pol) (hp : Runs s p) (hne : np ≠ p)
    (hcur : t.cur = some p) (hproc : t.proc p = (s.proc p).forgetPages 0 k)
    (htab : t.ptables (s.proc p).pagetable = s.ptables (s.proc p).pagetable)
    (hnp : (t.proc np).pagetable = r ∧ (t.proc np).sz = 0) (hr : (s.proc p).pagetable ≠ r)
    (hk : ∀ v, v < k ↔ s.CopiedByFork B p v) :
    wp (freeproc B np) (fun _ s' => ForkLeft B p s s') Panics t := by
  have hint : (t.proc p).IntVas := by
    rw [hproc]
    exact hp.intVas.forgetPages
  refine wp_post (freeproc_frame hB hcur hne hint) fun _ u hu => ⟨k, ?_, ?_, hk⟩
  · have h0 : pagesOf 0 = 0 := by decide
    rw [hu.self, hnp.2, h0, Proc.forgetPages_zero, ite_self, hproc]
  · rw [hu.onTable.other _ (by rwa [hnp.1]), htab]

theorem pages_le (hp : Runs s p) : ((s.proc p).sz + (pgsize - 1)) / pgsize ≤ maxTotalPages := by
  have h := hp.size
  simp only [maxTotalPages, pgsize] at *
  omega

/-- The pages that are copied when the free list runs out at page `k`. -/
theorem copiedByFork_iff {tf r k : Nat} {a u : Kernel} (hp : Runs s p)
    (hn : Newborn B np tf r s a) (hk : k < 512)
    (hpr : B.copiesFlags (s.proc p) (s.ptables (s.proc p).pagetable) k = false)
    (hfirst : B.copiesFlags (s.proc p) (s.ptables (s.proc p).pagetable) 0 = false)
    (hcopies : Copies B (s.proc p) (s.proc p).pagetable r k a t)
    (hrun : RanOut B r k (pte2pa ((s.ptables (s.proc p).pagetable).pte k)) t u) (v : Nat) :
    v < k ↔ s.CopiedByFork B p v := by
  have hne : (s.proc p).pagetable ≠ r := fun h => hp.root_notMem (h ▸ hn.root_mem)
  have hlen := hcopies.length_eq (Nat.le_of_lt hk) hn.missing_low
  rw [hn.table_of_ne hne] at hlen
  have hborn := hn.length_eq
  have hsucc := residents_succ B (s.proc p) (s.ptables (s.proc p).pagetable) k
  rw [if_neg (by simp [hpr])] at hsucc
  -- what was left when the page was reached
  have hleft : t.freelist.length < if k = 0 then 3 else 1 := by
    rcases hrun with ⟨hnil, -⟩ | ⟨f, fs, w, m, hfree, -, hm, hg, hnil, -⟩
    · rw [hnil, List.length_nil]
      split <;> omega
    · have hgl := hg.length_eq
      rw [hnil, List.length_nil, show (t.copyPage f fs _).freelist = fs from rfl] at hgl
      rw [hfree, List.length_cons, hgl]
      by_cases h0 : k = 0
      · subst h0
        cases hcopies
        rw [hn.missing_low] at hm
        rw [if_pos rfl]
        omega
      · have hpres := PageTable.present_low (v := 0) (w := k) (by omega) hk
          (hcopies.present (by omega))
        rw [PageTable.missing_of_present hpres] at hm
        omega
  have hslot : s.unusedSlot ≠ none := by simp [hn.slot]
  constructor
  · intro hv
    have hmono := residents_mono B (s.proc p) (s.ptables (s.proc p).pagetable)
      (show v + 1 ≤ k by omega)
    rw [if_neg (by omega)] at hlen hleft
    exact ⟨hslot, hfirst, by omega⟩
  · rintro ⟨-, -, hfit⟩
    by_contra hv
    have hmono := residents_mono B (s.proc p) (s.ptables (s.proc p).pagetable)
      (show k + 1 ≤ v + 1 by omega)
    split at hlen
    · rename_i h0
      subst h0
      simp only [residents, List.range_zero, List.countP_nil] at hsucc hlen
      rw [if_pos rfl] at hleft
      simp only [residents] at hmono hfit
      omega
    · rename_i h0
      rw [if_neg h0] at hleft
      omega

/-- **`fork` that fails** leaves the parent without the pages that were copied. -/
theorem fork_left (hB : B.selection = .paging pol) (hp : Runs s p) :
    wp (fork B) (fun ret s' => ret = -1 → ForkLeft B p s s') Panics s := by
  have halive : ∀ np, s.unusedSlot = some np → np ≠ p := by
    rintro np h rfl
    exact hp.alive.1 (unusedSlot_state h)
  simp only [fork, wp_bind, wp_myproc hp.cur]
  refine wp_allocproc hp.zero_notMem (fun e u he _ => he) ?_ ?_ ?_ ?_ ?_
  · -- no slot
    rintro hslot -
    exact .unchanged rfl rfl fun v h => h.1 hslot
  · -- no frame for the trapframe
    intro np t hn hnil
    have hne := halive np hn.slot
    refine wp_post (freeproc_tableless hB hp hne ((hn.beside hp hne).setProc hne _) ?_ ?_)
      fun _ _ h _ => h
    · rw [giveTrapframe, setProc_self, hn.proc, Function.update_self]
      exact (hp.unused np (unusedSlot_state hn.slot)).1
    · rw [← hn.freelist_eq, hnil]
      decide
  · -- no frame for the root of the table
    rintro np t tf fs hn hfree - rfl
    have hne := halive np hn.slot
    have hbeside : Beside p s (t.takePage tf []) := (hn.beside hp hne).takePage tf []
    refine wp_post (freeproc_tableless hB hp hne ((hbeside.setProc hne _).setProc hne _) ?_ ?_)
      fun _ _ h _ => h
    · rw [giveTable, setProc_self]
    · rw [← hn.freelist_eq, hfree]
      exact Nat.lt_of_sub_eq_succ rfl
  · -- no frames for the rest of the table
    rintro np t tf fs r u hn hfree - ⟨fs', n, hlt, hr, hg, hnil⟩
    have hne := halive np hn.slot
    have hfs : fs = r :: fs' := hr
    have hroot : (s.proc p).pagetable ≠ r := by
      rintro heq
      apply hp.root_notMem
      rw [heq, ← hn.freelist_eq, hfree, hfs]
      simp
    have hlen := hg.length_eq
    rw [hnil, List.length_nil, show (Kernel.newTable _ r fs').freelist = fs' from rfl] at hlen
    have hbeside : Beside p s (t.takePage tf fs) := (hn.beside hp hne).takePage tf fs
    have hu := ((hbeside.setProc hne _).newTable hroot fs').grows hg hroot
    refine wp_post freewalk_frame fun _ w hw => ?_
    refine wp_post (freeproc_tableless hB hp hne ((hu.onTable hw.1 hw.2 hroot).setProc hne _) ?_ ?_)
      fun _ _ h _ => h
    · rw [giveTable, setProc_self]
    · rw [← hn.freelist_eq, hfree, hfs, List.length_cons, List.length_cons, hlen]
      omega
  · -- the table is there; the copy may run out
    intro np tf r a hn
    have hne := halive np hn.slot
    have hroot : (s.proc p).pagetable ≠ r := fun h => hp.root_notMem (h ▸ hn.root_mem)
    have ha : Beside p s a :=
      ⟨by rw [hn.rest]; exact hp.cur, hn.proc_of_ne hne.symm, hn.table_of_ne hroot⟩
    have hanp : (a.proc np).pagetable = r ∧ (a.proc np).sz = 0 := by
      rw [hn.proc_self]
      exact ⟨rfl, (hp.unused np (unusedSlot_state hn.slot)).2⟩
    have hz : 0 ∉ a.freelist := fun h => hp.zero_notMem (hn.mem_freelist h)
    have hle := pages_le hp
    simp only [wp_bind, wp_getProc, ha.proc, hanp.1]
    refine wp_uvmcopy ha.cur (by rw [ha.proc]) hroot hz rfl ?_ (fun msg u _ => panics_panic msg u)
      ?_ ?_ ?_
    · intro k hk
      have hk' : k < 32 := lt_of_lt_of_le hk hle
      exact hn.pte_low (by omega)
    · intro t ht
      rw [if_neg (by decide)]
      refine wp_mono (forkFinish_spec hne) ?_ fun e u h => h.1
      rintro ret u ⟨rfl, -⟩ hret
      omega
    · intro k t u m hk ht hx hm hg hu
      have hk' : k < 32 := lt_of_lt_of_le hk hle
      rw [ha.proc, ha.table] at hx
      -- only the first page finds no level-0 page
      obtain rfl : k = 0 := by
        by_contra h0
        have hpres := PageTable.present_low (v := 0) (w := k) (by omega) (by omega)
          (ht.present (by omega))
        rw [PageTable.missing_of_present hpres] at hm
        omega
      obtain rfl : u = a := by
        cases ht
        rcases hu with ⟨-, hu⟩ | ⟨hu, -⟩
        · exact hu
        · simp [hB] at hu
      rw [if_pos (by decide), wp_bind]
      refine wp_post (freeproc_empty (k := 0) hB hp hne ha.cur ?_ ha.table hanp hroot fun v => ?_)
        fun _ _ h _ => h
      · rw [ha.proc, Proc.forgetPages_zero]
      · refine ⟨fun h => absurd h (Nat.not_lt_zero v), fun h => ?_⟩
        rw [h.2.1] at hx
        exact absurd hx (by simp)
    · intro k t u hk ht hx hV hrun
      have hk' : k < 32 := lt_of_lt_of_le hk hle
      rw [ha.proc] at ht hx
      rw [ha.table] at hx hrun
      have hmiss : ¬(a.ptables r).present 0 := fun h => by
        have := PageTable.missing_of_present h
        rw [hn.missing_low] at this
        omega
      have hfirst : B.copiesFlags (s.proc p) (s.ptables (s.proc p).pagetable) 0 = false := by
        by_cases h0 : k = 0
        · exact h0 ▸ hx
        · rw [← ha.table]
          exact ht.first (by simp [hB]) (by omega) hmiss
      have hcopied := copiedByFork_iff hp hn (by omega) hx hfirst ht hrun
      have ht' : Beside p s t := ⟨ht.cur_eq.trans ha.cur, (congrFun ht.proc_eq p).trans ha.proc,
        (ht.table_of_ne hroot).trans ha.table⟩
      have hu : Beside p s u ∧ u.proc np = a.proc np := by
        rcases hrun with ⟨-, rfl⟩ | ⟨f, fs, w, m, -, -, -, hg, -, rfl⟩
        · exact ⟨ht', congrFun ht.proc_eq np⟩
        · have hc : ∀ pa, Beside p s (t.copyPage f fs pa) := fun _ => ⟨ht'.cur, ht'.proc, ht'.table⟩
          have hw := (hc _).grows hg hroot
          exact ⟨⟨hw.cur, hw.proc, hw.table⟩, congrFun (hg.proc_eq.trans ht.proc_eq) np⟩
      have hun := @uvmunmap_frame B u p r 0 k true pol hB hu.1.cur
      rw [Nat.zero_mul] at hun
      refine wp_post hun fun _ w hw => ?_
      rw [if_pos (by decide), wp_bind]
      refine wp_post (freeproc_empty hB hp hne (hw.1.cur_eq.trans hu.1.cur) ?_
        ((hw.1.other _ hroot).trans hu.1.table) ?_ hroot hcopied) fun _ _ h _ => h
      · rw [hw.2, Kernel.forgetPages, Function.update_self, hu.1.proc]
      · rw [hw.2, Kernel.forgetPages, Function.update_of_ne hne, hu.2]
        exact hanp

/-- **The paging state of the parent survives** the reaping of a child exactly if the parent records
none of the pages below the child's size, and a failed `fork` exactly if it records none of the
pages that were copied before the free list ran out. -/
theorem teardown_keepsPaging_iff (hB : B.selection = .paging pol) (hp : Runs s p)
    (hpid : 2 < (s.proc p).pid) :
    (∀ c addr r s', s.zombieChild p = some c → (s.proc c).pagetable ≠ 0 →
      (s.proc c).pagetable ≠ (s.proc p).pagetable → wait B addr s = .ok (some r) s' → 0 ≤ r →
      (KeepsPaging p s s' ↔ ∀ v < pagesOf (s.proc c).sz, ¬(s.proc p).RecordsPage v)) ∧
    ∀ s', fork B s = .ok (-1) s' →
      (KeepsPaging p s s' ↔ ∀ v, s.CopiedByFork B p v → ¬(s.proc p).RecordsPage v) := by
  constructor
  · intro c addr r s' hc hroot hne hrun hr
    have h := wp_returns (wait_reaps hB hp hc hroot hne) hrun
    obtain ⟨hproc, htab⟩ := h r rfl hr
    exact keepsPaging_iff hpid hproc htab
  · intro s' hrun
    have h := wp_returns (fork_left hB hp) hrun
    obtain ⟨k, hproc, htab, hk⟩ := h rfl
    rw [keepsPaging_iff hpid hproc htab]
    exact forall_congr' fun v => by rw [hk v]

end Parent

/-- A process of two pages, page 1 resident and page 0 swapped out or resident as given, and a
zombie child of one page. -/
def parentKernel (x : Pte) (ram swap : Slots) : Kernel :=
  (sampleKernel (sampleTable [(0, x), (1, sampleUser 11)])
    { sampleProc 3 (2 * pgsize) with ram := ram, swap := swap }).withZombie pgsize
      [(0, sampleUser 18)]

/-- Page 1 is in `ram[0]`; page 0 is in no slot. -/
def untouchedKernel : Kernel :=
  parentKernel (sampleUser 10) (Function.update (fun _ => .removed) 0 (sampleSlot 1 (-1)))
    fun _ => .removed

/-- Page 1 is in `ram[0]` and page 0 in `swap[0]`. -/
def strippedKernel : Kernel :=
  parentKernel (sampleSwapped 10) (Function.update (fun _ => .removed) 0 (sampleSlot 1 (-1)))
    (Function.update (fun _ => .removed) 0 (sampleSlot 0 0))

theorem untouchedKernel_runs : Runs untouchedKernel 0 where
  cur := rfl
  alive := by decide +kernel
  intVas := fun k => by revert k; decide +kernel
  size := by decide +kernel
  root := by decide +kernel
  root_notMem := by decide +kernel
  zero_notMem := by decide +kernel
  unused := by decide +kernel

/-- A parent that records only page 1 reaps a child of one page unharmed. -/
theorem untouchedKernel_keepsPaging : ∃ s',
    wait (sampleBuild (.paging .scfifo)) 0 untouchedKernel = .ok (some 4) s' ∧
      KeepsPaging 0 untouchedKernel s' := by
  obtain ⟨o, s', hs', ho⟩ : ∃ o s', wait (sampleBuild (.paging .scfifo)) 0 untouchedKernel =
      .ok o s' ∧ o = some 4 := by
    refine wp_total ?_
    decide +kernel
  rw [ho] at hs'
  refine ⟨s', hs', ?_⟩
  have hrec : ∀ k : Fin maxPsycPages, u64 ((untouchedKernel.proc 0).ram k).va ≠ 0 ∧
      u64 ((untouchedKernel.proc 0).swap k).va ≠ 0 := by decide +kernel
  refine ((teardown_keepsPaging_iff rfl untouchedKernel_runs (by decide +kernel)).1 2 0 4 s'
    (by decide +kernel) (by decide +kernel) (by decide +kernel) hs' (by decide)).mpr ?_
  intro v hv
  have h1 : pagesOf (untouchedKernel.proc 2).sz = 1 := by decide +kernel
  obtain rfl : v = 0 := by omega
  rintro ⟨k, hk | hk⟩
  · exact (hrec k).1 (by simpa using hk)
  · exact (hrec k).2 (by simpa using hk)

/-- The parent's page 0 is swapped out.  It reaps a child of one page, and the slot of its own page
is empty: a fault on the page will not find it in the swap file. -/
theorem strippedKernel_loses_page : Runs strippedKernel 0 ∧ 2 < (strippedKernel.proc 0).pid ∧
    ∃ s', wait (sampleBuild (.paging .scfifo)) 0 strippedKernel = .ok (some 4) s' ∧
      ¬KeepsPaging 0 strippedKernel s' ∧ SwappedOut ((s'.ptables (samplePage 0)).pte 0) ∧
      findSlot (fun d => u64 d.va == 0) (s'.proc 0).swap = none := by
  refine ⟨⟨rfl, by decide +kernel, fun k => by revert k; decide +kernel, by decide +kernel,
    by decide +kernel, by decide +kernel, by decide +kernel, by decide +kernel⟩,
    by decide +kernel, ?_⟩
  obtain ⟨o, s', hs', ho, hslot, hpte, hfind⟩ : ∃ o s',
      wait (sampleBuild (.paging .scfifo)) 0 strippedKernel = .ok o s' ∧ o = some 4 ∧
        ((s'.proc 0).swap 0).used = false ∧
        (hasFlag ((s'.ptables (samplePage 0)).pte 0) pteV = false ∧
          hasFlag ((s'.ptables (samplePage 0)).pte 0) ptePG = true) ∧
        findSlot (fun d => u64 d.va == 0) (s'.proc 0).swap = none := by
    refine wp_total ?_
    decide +kernel
  rw [ho] at hs'
  refine ⟨s', hs', fun h => ?_, ⟨hpte.1, hpte.2⟩, hfind⟩
  rw [h.swap] at hslot
  exact absurd hslot (by decide +kernel)

end Xv6Paging
