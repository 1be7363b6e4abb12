import Xv6Paging.Machine.Sample
import Xv6Paging.Vm.Sv39

/-!
# The page table in memory is a finite map

The loops of `mappages` over a page table that is a tree: each round reaches the entry of its own
page, so what has been mapped after `k` rounds is the first `k` pages and nothing else.
-/

namespace Xv6Paging.Sv39

variable {E : Halt → PhysMem → Prop}

open StateHalt

/-- `PGROUNDDOWN(va)`, where the loop starts. -/
def firstPage (va : Nat) : Nat := pgrounddown va

/-- `PGROUNDDOWN(va + size - 1)`, where the loop stops, in 64-bit arithmetic. -/
def lastPage (va size : Nat) : Nat := pgrounddown ((va + size + (2 ^ 64 - 1)) % 2 ^ 64)

/-- The entry that `mappages` stores for the page `va'` of a range that starts at `va`. -/
def mapEntry (va pa : Nat) (perm : Pte) (va' : Nat) : Pte :=
  pa2pte ((pa + (va' - firstPage va)) % 2 ^ 64) ||| perm ||| pteV

/-- From `m` to `m'` the first `k` pages of the range that starts at `va` were mapped, and no other
entry changed. -/
def MapsTo (m m' : PhysMem) (root va pa : Nat) (perm : Pte) (k : Nat) : Prop :=
  ∀ va', va' % pgsize = 0 → va' < maxva → m'.value root va' =
    if firstPage va ≤ va' ∧ va' < firstPage va + k * pgsize then mapEntry va pa perm va'
    else m.value root va'

theorem firstPage_mod (va : Nat) : firstPage va % pgsize = 0 := Nat.mul_mod_left _ _

theorem lastPage_mod (va size : Nat) : lastPage va size % pgsize = 0 := Nat.mul_mod_left _ _

theorem round_mod (va k : Nat) : (firstPage va + k * pgsize) % pgsize = 0 := by
  rw [Nat.add_mul_mod_self_right, firstPage_mod]

/-- From a page before a bound that is page-aligned as well, the next page is no further than the
bound. -/
theorem add_pgsize_le {a b : Nat} (ha : a % pgsize = 0) (hb : b % pgsize = 0) (h : a < b) :
    a + pgsize ≤ b := by
  simp only [pgsize] at ha hb ⊢
  omega

/-! ## The remap checks -/

/-- What the loop needs of its remap check: it changes nothing, it lets an entry pass that is not
valid, and it ends otherwise at most with a panic. -/
def Checks (remap : Nat → PM Unit) : Prop :=
  ∀ pte m, wp (remap pte) (fun _ m' => m' = m)
    (fun e _ => hasFlag (m.word pte) pteV = true ∧ e = .panic "remap") m

theorem wp_walkaddr_same (m : PhysMem) (root va : Nat) :
    wp (walkaddr root va) (fun _ m' => m' = m) E m := by
  unfold walkaddr
  refine wp_ite (fun _ => rfl) fun hva => ?_
  rw [wp_bind, wp_walk_false (Nat.not_le.mp hva)]
  refine wp_ite (fun _ => rfl) fun _ => ?_
  rw [wp_bind, wp_load]
  exact wp_ite (fun _ => rfl) fun _ => wp_ite (fun _ => rfl) fun _ => rfl

theorem remapNone_checks (root va : Nat) : Checks (remapNone root va) := by
  intro pte m
  unfold remapNone
  rw [wp_bind, wp_load]
  refine wp_ite (fun hV => ?_) fun _ => rfl
  rw [wp_bind]
  refine wp_post (wp_walkaddr_same m root va) ?_
  rintro r m' rfl
  exact wp_ite (fun _ => ⟨hV, rfl⟩) fun _ => rfl

theorem remapNotNone_checks : Checks remapNotNone := by
  intro pte m
  unfold remapNotNone
  rw [wp_bind, wp_load]
  exact wp_ite (fun hV => ⟨hV, rfl⟩) fun _ => rfl

/-! ## The loop -/

section Loop

variable {remap : Nat → PM Unit} {m m' : PhysMem} {root va size pa k : Nat} {perm : Pte}

/-- The pages of the range were not mapped. -/
def Unmapped (m : PhysMem) (root va size : Nat) : Prop :=
  ∀ va', va' % pgsize = 0 → firstPage va ≤ va' → va' ≤ lastPage va size → va' < maxva →
    hasFlag (m.value root va') pteV = false

/-- After `k` rounds: the first `k` pages are mapped, and the loop has passed neither `MAXVA` nor,
if that lies ahead, the last page. -/
structure Rounds (m m' : PhysMem) (root va size pa : Nat) (perm : Pte) (k : Nat) : Prop where
  table : Table m' root
  maps : MapsTo m m' root va pa perm k
  below : k = 0 ∨ firstPage va + k * pgsize ≤ maxva
  ahead : firstPage va ≤ lastPage va size → firstPage va + k * pgsize ≤ lastPage va size

/-- The loop ended at its last page. -/
structure Complete (m m' : PhysMem) (root va size pa : Nat) (perm : Pte) : Prop where
  table : Table m' root
  ordered : firstPage va ≤ lastPage va size
  below : lastPage va size < maxva
  maps : ∀ va', va' % pgsize = 0 → va' < maxva → m'.value root va' =
    if firstPage va ≤ va' ∧ va' ≤ lastPage va size then mapEntry va pa perm va'
    else m.value root va'

/-- How the loop can end: at the last page, or with an address whose page-table page is missing
while no page is free. -/
def Ends (m : PhysMem) (root va size pa : Nat) (perm : Pte) (r : Int) (m' : PhysMem) : Prop :=
  (r = 0 ∧ Complete m m' root va size pa perm) ∨ r = -1

/-- How the loop can halt: only on a range that is empty or leaves the address space. -/
def Halts (va size : Nat) (e : Halt) : Prop :=
  ¬(firstPage va ≤ lastPage va size ∧ lastPage va size < maxva) ∧ ∃ msg, e = .panic msg

theorem Rounds.addr (h : Rounds m m' root va size pa perm k) (hva : va < 2 ^ 64) :
    (pgrounddown va + k * pgsize) % 2 ^ 64 = firstPage va + k * pgsize := by
  have hfirst : firstPage va ≤ va := Nat.div_mul_le_self va pgsize
  have hb := h.below
  simp only [maxva] at hb
  apply Nat.mod_eq_of_lt
  show firstPage va + k * pgsize < 2 ^ 64
  rcases hb with rfl | hb
  · omega
  · omega

theorem Rounds.store {m₁ : PhysMem} {c : Nat} (h : Rounds m m' root va size pa perm k)
    (hg : Grows m' m₁ root) (ht : Table m₁ root) (hlt : firstPage va + k * pgsize < maxva)
    (hc : m₁.cell root (firstPage va + k * pgsize) = some c) :
    Table (m₁.set c (pa2pte ((pa + k * pgsize) % 2 ^ 64) ||| perm ||| pteV)) root ∧
      MapsTo m (m₁.set c (pa2pte ((pa + k * pgsize) % 2 ^ 64) ||| perm ||| pteV)) root va pa perm
        (k + 1) := by
  obtain ⟨p, hp, rfl⟩ := Option.map_eq_some_iff.mp hc
  have hal := round_mod va k
  refine ⟨ht.set rfl hp _, fun va' hal' hva' => ?_⟩
  rw [PhysMem.value, ht.entry_set rfl hp _ rfl]
  by_cases heq : va' = firstPage va + k * pgsize
  · subst heq
    rw [if_pos ⟨rfl, rfl⟩, if_pos ⟨by omega, by simp only [pgsize]; omega⟩, mapEntry,
      Nat.add_sub_cancel_left]
  · -- another page has another entry, and lies in the longer range exactly if it lay in the shorter
    have hne : ¬(path va' = path (firstPage va + k * pgsize) ∧
        px 0 va' = px 0 (firstPage va + k * pgsize)) := by
      rintro ⟨hpath, h0⟩
      obtain ⟨h2, h1⟩ := path_inj hpath
      exact heq (px_inj hal' hal hva' hlt h2 h1 h0)
    have hvalue : m₁.entry root (path va') (px 0 va') = m'.value root va' := hg.value va'
    rw [if_neg hne, hvalue, h.maps va' hal' hva']
    have hfirst := firstPage_mod va
    have hiff : (firstPage va ≤ va' ∧ va' < firstPage va + k * pgsize) ↔
        (firstPage va ≤ va' ∧ va' < firstPage va + (k + 1) * pgsize) := by
      simp only [pgsize] at hal hal' heq ⊢
      omega
    simp only [hiff]

theorem mappagesRound_spec (hremap : Checks remap) (hva : va < 2 ^ 64)
    (hun : Unmapped m root va size) (h : Rounds m m' root va size pa perm k) :
    wp (mappagesRound remap root va (lastPage va size) pa perm k)
      (fun r m'' => r.elim (Rounds m m'' root va size pa perm (k + 1)) fun b =>
        Ends m root va size pa perm b m'') (fun e _ => Halts va size e) m' := by
  simp only [mappagesRound, wp_bind, h.addr hva]
  by_cases hlt : firstPage va + k * pgsize < maxva
  swap
  · -- past `MAXVA`: the last page lies behind, or beyond as well
    rw [wp_walk_ge (Nat.not_lt.mp hlt)]
    refine ⟨fun hr => hlt ?_, "walk", rfl⟩
    exact Nat.lt_of_le_of_lt (h.ahead hr.1) hr.2
  refine wp_post (walk_true_spec h.table hlt) ?_
  rintro pte m₁ ⟨ht₁, hg, rfl, -⟩
  refine wp_ite (fun _ => Or.inr rfl) fun hne => ?_
  obtain ⟨c, hc⟩ : ∃ c, m₁.cell root (firstPage va + k * pgsize) = some c := by
    cases hcell : m₁.cell root (firstPage va + k * pgsize) with
    | none => exact absurd (by rw [hcell]; rfl) hne
    | some c => exact ⟨c, rfl⟩
  rw [hc, Option.getD_some, wp_bind]
  refine wp_mono (hremap c m₁) ?_ ?_
  · rintro _ m₂ rfl
    obtain ⟨ht', hmaps⟩ := h.store hg ht₁ hlt hc
    have hal := round_mod va k
    have hlast := lastPage_mod va size
    simp only [wp_bind, wp_store]
    refine wp_ite (fun heq => Or.inl ⟨rfl, ht', by omega, by omega, fun va' hal' hva' => ?_⟩)
      fun hneq => ⟨ht', hmaps, ?_, fun hle => ?_⟩
    · rw [hmaps va' hal' hva']
      have hiff : (firstPage va ≤ va' ∧ va' < firstPage va + (k + 1) * pgsize) ↔
          (firstPage va ≤ va' ∧ va' ≤ lastPage va size) := by
        simp only [pgsize] at hal' heq hlast ⊢
        omega
      simp only [hiff]
    · right
      rw [Nat.succ_mul, ← Nat.add_assoc]
      exact add_pgsize_le hal (by decide) hlt
    · rw [Nat.succ_mul, ← Nat.add_assoc]
      exact add_pgsize_le hal hlast (Nat.lt_of_le_of_ne (h.ahead hle) hneq)
  · -- a valid entry: its page is not in the range, so the range is not a range
    rintro e m₂ ⟨hV, rfl⟩
    refine ⟨fun hr => ?_, "remap", rfl⟩
    have hal := round_mod va k
    have hold : m₁.value root (firstPage va + k * pgsize) =
        m.value root (firstPage va + k * pgsize) := by
      rw [hg.value, h.maps _ hal hlt, if_neg (by omega)]
    rw [← PhysMem.value_of_cell hc, hold,
      hun _ hal (Nat.le_add_right _ _) (h.ahead hr.1) hlt] at hV
    exact Bool.noConfusion hV

/-- **The loop of `mappages`** on a range that was not mapped. -/
theorem mappagesLoop_spec (hremap : Checks remap) (ht : Table m root) (hva : va < 2 ^ 64)
    (hun : Unmapped m root va size) :
    wp (mappagesLoop remap root va size pa perm) (Ends m root va size pa perm)
      (fun e _ => Halts va size e) m := by
  have hstart : Rounds m m root va size pa perm 0 := by
    refine ⟨ht, fun va' _ _ => ?_, Or.inl rfl, fun hle => by omega⟩
    rw [if_neg (by omega)]
  simp only [mappagesLoop, wp_bind]
  refine wp_post (Q := fun r m' => ∃ b, r = some b ∧ Ends m root va size pa perm b m') ?_ ?_
  · refine wp_forReturn (fun k m' => Rounds m m' root va size pa perm k) hstart ?_ ?_
    · intro k m' _ _ h
      refine wp_post (mappagesRound_spec hremap hva hun h) ?_
      rintro (_ | b) m'' h''
      · exact h''
      · exact ⟨b, rfl, h''⟩
    · -- no run has that many rounds
      intro m' h
      have hb := h.below
      simp only [maxva, pgsize] at hb
      omega
  · rintro r m' ⟨b, rfl, hends⟩
    exact hends

/-- **`mappages`**, in every build. -/
theorem mappages_spec (B : Build) (ht : Table m root) (hva : va < 2 ^ 64)
    (hun : Unmapped m root va size) :
    wp (mappages B root va size pa perm) (Ends m root va size pa perm)
      (fun e _ => Halts va size e) m := by
  unfold mappages
  cases B.selection with
  | none => exact mappagesLoop_spec (remapNone_checks root va) ht hva hun
  | paging policy => exact mappagesLoop_spec remapNotNone_checks ht hva hun

end Loop

/-! ## The refinement -/

/-- The entry that maps a page names its frame: the pages of a range get consecutive frames. -/
theorem pte2pa_mapEntry {perm : Pte} (hperm : perm.toNat < 2 ^ 10) (va pa va' : Nat) :
    pte2pa (mapEntry va pa perm va') = pgrounddown ((pa + (va' - firstPage va)) % 2 ^ 64) := by
  rw [mapEntry, pte2pa_or _ (by decide), pte2pa_or _ hperm,
    pte2pa_pa2pte_page (Nat.mod_lt _ (by decide))]

theorem walk_spec {m : PhysMem} {root va : Nat} (ht : Table m root)
    (hva : va < maxva) (alloc : Bool) :
    wp (walk root va alloc) (fun r m' => Table m' root ∧ Grows m m' root ∧
      r = (m'.cell root va).getD 0) E m := by
  cases alloc with
  | false =>
    rw [wp_walk_false hva]
    exact ⟨ht, Grows.refl m root, rfl⟩
  | true => exact wp_post (walk_true_spec ht hva) fun r m' h => ⟨h.1, h.2.1, h.2.2.1⟩

theorem walk_walk_spec {E : Halt → PhysMem → Prop} {m : PhysMem} {root va va' : Nat}
    (ht : Table m root) (hal : va % pgsize = 0) (hal' : va' % pgsize = 0) (hva : va < maxva)
    (hva' : va' < maxva) (alloc alloc' : Bool) :
    wp (do
        let c ← walk root va alloc
        let c' ← walk root va' alloc'
        pure (c, c'))
      (fun c _ => c.1 ≠ 0 → c.2 ≠ 0 → (c.1 = c.2 ↔ va = va')) E m := by
  rw [wp_bind]
  refine wp_post (walk_spec ht hva alloc) ?_
  rintro c m₁ ⟨ht₁, -, rfl⟩
  rw [wp_bind]
  refine wp_post (walk_spec ht₁ hva' alloc') ?_
  rintro c' m₂ ⟨ht₂, hg, rfl⟩ hc hc'
  cases h : m₁.cell root va with
  | none => exact absurd (by rw [h]; rfl) hc
  | some c =>
    cases h' : m₂.cell root va' with
    | none => exact absurd (by rw [h']; rfl) hc'
    | some c' =>
      -- the second walk left the entry of the first where it was
      have hkept : m₂.cell root va = some c := hg.cell h
      constructor
      · rintro (rfl : c = c')
        exact cell_inj ht₂ hal hal' hva hva' hkept h'
      · rintro rfl
        exact Option.some.inj (hkept.symm.trans h')

/-- **A page table that is a tree is a finite map.**  A lookup changes nothing; a walk that may
allocate keeps the tree and the value of every entry; two walks reach one entry exactly for one
page; `mappages` on a range that was not mapped, if it returns 0, has stored the entries of exactly
the pages of the range, with consecutive frames, and does not halt on a range below `MAXVA`. -/
theorem page_table_refines_map (B : Build) {m : PhysMem} {root : Nat} (ht : Table m root) :
    (∀ va, va % pgsize = 0 → va < maxva →
      wp (walk root va false) (fun r m' => m' = m ∧ r = (m.cell root va).getD 0)
        (fun _ _ => False) m) ∧
    (∀ va, va % pgsize = 0 → va < maxva →
      wp (walk root va true) (fun r m' => Table m' root ∧ r = (m'.cell root va).getD 0 ∧
        ∀ va', m'.value root va' = m.value root va') (fun _ _ => False) m) ∧
    (∀ va va' alloc alloc', va % pgsize = 0 → va' % pgsize = 0 → va < maxva → va' < maxva →
      wp (do
          let c ← walk root va alloc
          let c' ← walk root va' alloc'
          pure (c, c'))
        (fun c _ => c.1 ≠ 0 → c.2 ≠ 0 → (c.1 = c.2 ↔ va = va')) (fun _ _ => False) m) ∧
    ∀ va size pa perm, va < 2 ^ 64 → Unmapped m root va size →
      wp (mappages B root va size pa perm)
        (fun r m' => r = 0 → Table m' root ∧ firstPage va ≤ lastPage va size ∧
          lastPage va size < maxva ∧ ∀ va', va' % pgsize = 0 → va' < maxva →
            if firstPage va ≤ va' ∧ va' ≤ lastPage va size then
              m'.value root va' =
                (pa2pte ((pa + (va' - firstPage va)) % 2 ^ 64) ||| perm ||| pteV) ∧
              (perm.toNat < 2 ^ 10 →
                pte2pa (m'.value root va') = pgrounddown ((pa + (va' - firstPage va)) % 2 ^ 64))
            else m'.value root va' = m.value root va')
        (fun e _ => ¬(firstPage va ≤ lastPage va size ∧ lastPage va size < maxva) ∧
          ∃ msg, e = .panic msg) m := by
  refine ⟨fun va _ hva => ?_, fun va _ hva => ?_, ?_, fun va size pa perm hva hun => ?_⟩
  · rw [wp_walk_false hva]
    exact ⟨rfl, rfl⟩
  · refine wp_post (walk_true_spec ht hva) ?_
    rintro r m' ⟨ht', hg, hr, -⟩
    exact ⟨ht', hr, hg.value⟩
  · intro va va' alloc alloc' hal hal' hva hva'
    exact walk_walk_spec ht hal hal' hva hva' alloc alloc'
  · refine wp_post (mappages_spec B ht hva hun) ?_
    rintro r m' (⟨rfl, hc⟩ | rfl) hr
    · refine ⟨hc.table, hc.ordered, hc.below, fun va' hal' hva' => ?_⟩
      have hmaps := hc.maps va' hal' hva'
      split_ifs at hmaps ⊢ with hin
      · refine ⟨hmaps, fun hperm => ?_⟩
        rw [hmaps, pte2pa_mapEntry hperm]
      · exact hmaps
    · exact absurd hr (by decide)

/-- A root page without entries, and two free pages. -/
def bareMem : PhysMem where
  word := fun p => if p = 0x80001000 then 0x80002000#64 else 0#64
  freelist := 0x80001000

theorem bareMem_child (i : Fin 512) : bareMem.child 0x80000000 i = none := by
  have haddr : pteAddr 0x80000000 i ≠ 0x80001000 := by
    have hi := i.isLt
    simp only [pteAddr]
    omega
  simp only [PhysMem.child, bareMem, if_neg haddr]
  rfl

theorem bareMem_table : Table bareMem 0x80000000 := by
  refine ⟨rfl, Radix.tree_of_bare bareMem_child, [0x80001000, 0x80002000],
    ⟨rfl, by decide, rfl, by decide, rfl⟩, by decide, by decide, by decide, ?_⟩
  intro p hp q _ hpage
  obtain ⟨-, rfl⟩ := Radix.follow_bare bareMem_child hpage
  exact absurd hp (by decide)

theorem bareMem_value (va : Nat) : bareMem.value 0x80000000 va = 0#64 := by
  apply PhysMem.entry_of_none
  rw [PhysMem.page_path, bareMem_child]
  rfl

/-- Two pages, mapped with the two free pages for the page-table pages. -/
theorem page_table_refines_map_two : Table bareMem 0x80000000 ∧
    ∃ m', mappages (sampleBuild .none) 0x80000000 0x1800 0x1000 0x80003000 pteR bareMem = .ok 0 m' ∧
      m'.value 0x80000000 0x2000 = pa2pte 0x80004000 ||| pteR ||| pteV ∧
      m'.value 0x80000000 0x3000 = 0#64 := by
  have hun : Unmapped bareMem 0x80000000 0x1800 0x1000 := by
    intro va' _ _ _ _
    rw [bareMem_value, hasFlag_zero]
  have hspec := (page_table_refines_map (sampleBuild .none) bareMem_table).2.2.2 0x1800 0x1000
    0x80003000 pteR (by decide) hun
  refine ⟨bareMem_table, _, rfl, ?_, ?_⟩
  · exact ((wp_returns hspec rfl rfl).2.2.2 0x2000 (by decide) (by decide)).1
  · exact ((wp_returns hspec rfl rfl).2.2.2 0x3000 (by decide) (by decide)).trans
      (bareMem_value 0x3000)

end Xv6Paging.Sv39
