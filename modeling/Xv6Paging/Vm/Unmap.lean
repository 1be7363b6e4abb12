import Xv6Paging.Vm.Walk

/-!
# Unmapping and freeing page tables

`uvmunmap` in its two versions, `uvmdealloc`, `freewalk` and `uvmfree`.  The version of the
paging kernels keeps the `ram` and `swap` arrays in step: for every page it unmaps, from whatever
table, it empties the slots of the *running* process that record the page's address.
-/

namespace Xv6Paging

open StateHalt PageTable

/-- The slots that record the address `a` are emptied by `remove_page`. -/
def forget (a : Nat) (d : Slots) : Slots := fun i => if u64 (d i).va = a then .removed else d i

/-- One page of `uvmunmap_NONE`; both `walkaddr` calls look at `va`, the start of the range. -/
def uvmunmapNoneRound (B : Build) (pagetable va : Nat) (doFree : Bool) (k : Nat) : KM Unit := do
  match ← walk pagetable (va + k * pgsize) false with
  | none => panic "uvmunmap: walk"
  | some pte => do
    let x ← readPte pte
    if !hasFlag x pteV then panic "uvmunmap: not mapped"
    else if pteFlags x == pteV && (← walkaddr pagetable va) != 0 then panic "uvmunmap: not a leaf"
    else do
      onlyIf (doFree && (← walkaddr pagetable va) != 0) (kfree B (pte2pa x))
      writePte pte 0#64

def uvmunmapNone (B : Build) (pagetable va npages : Nat) (doFree : Bool) : KM Unit :=
  if va % pgsize ≠ 0 then panic "uvmunmap: not aligned"
  else forEach (uvmunmapNoneRound B pagetable va doFree) 0 npages

/-- One page of `uvmunmap_not_NONE`. -/
def uvmunmapNotNoneRound (B : Build) (pagetable va : Nat) (doFree : Bool) (k : Nat) :
    KM Unit := do
  let a := va + k * pgsize
  match ← walk pagetable a false with
  | none => panic "uvmunmap: walk"
  | some pte => do
    let x ← readPte pte
    if !hasFlag x pteV && !hasFlag x ptePG then panic "uvmunmap: not mapped"
    else if pteFlags x == pteV then panic "uvmunmap: not a leaf"
    else do
      onlyIf (doFree && !hasFlag x ptePG) (kfree B (pte2pa x))
      writePte pte 0#64
      let p ← myproc
      onlyIf ((← getProc p).pid > 2) <|
        modifyProc p fun pr => { pr with ram := forget a pr.ram, swap := forget a pr.swap }

def uvmunmapNotNone (B : Build) (pagetable va npages : Nat) (doFree : Bool) : KM Unit :=
  if va % pgsize ≠ 0 then panic "uvmunmap: not aligned"
  else forEach (uvmunmapNotNoneRound B pagetable va doFree) 0 npages

def uvmunmap (B : Build) (pagetable va npages : Nat) (doFree : Bool) : KM Unit :=
  match B.selection with
  | .none => uvmunmapNone B pagetable va npages doFree
  | .paging _ => uvmunmapNotNone B pagetable va npages doFree

def uvmcreate : KM Nat := do
  let pagetable ← kalloc
  if pagetable = 0 then pure 0
  else do
    modify fun s => (s.setPage pagetable fun _ => 0).setTable pagetable .empty
    pure pagetable

def uvmdealloc (B : Build) (pagetable oldsz newsz : Nat) : KM Nat := do
  if newsz ≥ oldsz then pure oldsz
  else do
    onlyIf (pgroundup newsz < pgroundup oldsz) <|
      uvmunmap B pagetable (pgroundup newsz) ((pgroundup oldsz - pgroundup newsz) / pgsize) true
    pure newsz

/-- `freewalk` on the level-0 page below the entry `idx` of level 1.  A valid entry is a leaf; one
without permission bits is taken for a pointer to a further page, which the kernel has not
mapped. -/
def freewalkLeaf (B : Build) (pagetable idx pa : Nat) : KM Unit := do
  forEach (fun k => do
    let x ← readPte ⟨pagetable, idx * 512 + k⟩
    if hasFlag x pteV && !hasFlag x (pteR ||| pteW ||| pteX) then kerneltrap
    else if hasFlag x pteV then panic "freewalk: leaf"
    else pure ()) 0 512
  kfree B pa

/-- `freewalk` on the level-1 page below the entry `idx` of the root. -/
def freewalkDir (B : Build) (pagetable idx pa : Nat) : KM Unit := do
  forEach (fun k => do
    match ((← get).ptables pagetable).dir 1 (idx * 512 + k) with
    | some child => do
      freewalkLeaf B pagetable (idx * 512 + k) child
      modify fun s => s.setTable pagetable ((s.ptables pagetable).clearDir 1 (idx * 512 + k))
    | none => pure ()) 0 512
  kfree B pa

/-- `freewalk` on a root page. -/
def freewalk (B : Build) (pagetable : Nat) : KM Unit := do
  forEach (fun k => do
    match ((← get).ptables pagetable).dir 2 k with
    | some child => do
      freewalkDir B pagetable k child
      modify fun s => s.setTable pagetable ((s.ptables pagetable).clearDir 2 k)
    | none => pure ()) 0 512
  kfree B pagetable

def uvmfree (B : Build) (pagetable sz : Nat) : KM Unit := do
  onlyIf (sz > 0) (uvmunmap B pagetable 0 (pgroundup sz / pgsize) true)
  freewalk B pagetable

/-! ## Unmapping a page -/

/-- `a` is the address of one of the pages `v, …, v + n - 1`. -/
def inPages (v n a : Nat) : Bool := a % pgsize == 0 && decide (v ≤ a / pgsize ∧ a / pgsize < v + n)

/-- The slots that record one of the pages `v, …, v + n - 1` are emptied. -/
def forgetPages (v n : Nat) (d : Slots) : Slots :=
  fun i => if inPages v n (u64 (d i).va) then .removed else d i

/-- The arrays of a process after `uvmunmap_not_NONE` ran in its name. -/
def Proc.forgetPages (pr : Proc) (v n : Nat) : Proc :=
  if pr.pid > 2 then
    { pr with ram := Xv6Paging.forgetPages v n pr.ram, swap := Xv6Paging.forgetPages v n pr.swap }
  else pr

section Forget

variable {v n : Nat} {d : Slots}

theorem inPages_page {w : Nat} : inPages v n (w * pgsize) = true ↔ v ≤ w ∧ w < v + n := by
  simp [inPages]

theorem u64_removed : u64 PageData.removed.va = 2 ^ 64 - 1 := by decide

theorem inPages_removed : inPages v n (u64 PageData.removed.va) = false := by
  rw [u64_removed]
  simp [inPages]

@[simp] theorem forgetPages_zero : forgetPages v 0 d = d := by
  funext i
  have h : inPages v 0 (u64 (d i).va) = false := by
    simp only [inPages, Nat.add_zero, Bool.and_eq_false_iff, decide_eq_false_iff_not]
    omega
  simp [forgetPages, h]

theorem inPages_succ {a : Nat} :
    inPages v (n + 1) a = (inPages v n a || a == (v + n) * pgsize) := by
  rw [Bool.eq_iff_iff]
  simp only [inPages, Bool.and_eq_true, beq_iff_eq, decide_eq_true_eq, Bool.or_eq_true, pgsize]
  omega

theorem forget_forgetPages :
    forget ((v + n) * pgsize) (forgetPages v n d) = forgetPages v (n + 1) d := by
  funext i
  have hrem : u64 PageData.removed.va ≠ (v + n) * pgsize := by
    rw [u64_removed]
    simp only [pgsize]
    omega
  simp only [forget, forgetPages, inPages_succ]
  by_cases h : inPages v n (u64 (d i).va) = true <;> simp [h, hrem]

@[simp] theorem Proc.forgetPages_zero (pr : Proc) : pr.forgetPages v 0 = pr := by
  simp [Proc.forgetPages]

theorem Proc.forgetPages_eq (pr : Proc) : pr.forgetPages v n =
    { pr with ram := (pr.forgetPages v n).ram, swap := (pr.forgetPages v n).swap } := by
  unfold Proc.forgetPages
  split <;> rfl

theorem forgetPages_one : forgetPages v 1 d = forget (v * pgsize) d := by
  rw [← Nat.add_zero v, ← Nat.zero_add 1, ← forget_forgetPages, forgetPages_zero]

theorem Proc.forgetPages_one (pr : Proc) : pr.forgetPages v 1 = if pr.pid > 2 then
    { pr with ram := forget (v * pgsize) pr.ram, swap := forget (v * pgsize) pr.swap } else pr := by
  simp only [Proc.forgetPages, Xv6Paging.forgetPages_one]

/-- The addresses in the slots fit the `int` fields that hold them. -/
def Proc.IntVas (pr : Proc) : Prop :=
  ∀ k, (-2 ^ 31 ≤ (pr.ram k).va ∧ (pr.ram k).va < 2 ^ 31) ∧
    (-2 ^ 31 ≤ (pr.swap k).va ∧ (pr.swap k).va < 2 ^ 31)

theorem inPages_of_int {z : Int} (h : -2 ^ 31 ≤ z) (h' : z < 2 ^ 31) (hv : 2 ^ 19 ≤ v)
    (hn : v + n ≤ 2 ^ 51) : inPages v n (u64 z) = false := by
  rw [inPages, Bool.and_eq_false_iff]
  right
  rw [decide_eq_false_iff_not]
  simp only [u64, pgsize]
  omega

theorem Proc.forgetPages_high {pr : Proc} (h : pr.IntVas) (hv : 2 ^ 19 ≤ v) (hn : v + n ≤ 2 ^ 51) :
    pr.forgetPages v n = pr := by
  have hram : Xv6Paging.forgetPages v n pr.ram = pr.ram := by
    funext k
    rw [Xv6Paging.forgetPages, inPages_of_int (h k).1.1 (h k).1.2 hv hn, if_neg Bool.false_ne_true]
  have hswap : Xv6Paging.forgetPages v n pr.swap = pr.swap := by
    funext k
    rw [Xv6Paging.forgetPages, inPages_of_int (h k).2.1 (h k).2.2 hv hn, if_neg Bool.false_ne_true]
  simp only [Proc.forgetPages, hram, hswap, ite_self]

theorem Proc.IntVas.forgetPages {pr : Proc} (h : pr.IntVas) : (pr.forgetPages v n).IntVas := by
  have hslot : ∀ d : PageData, -2 ^ 31 ≤ d.va ∧ d.va < 2 ^ 31 →
      -2 ^ 31 ≤ (if inPages v n (u64 d.va) then PageData.removed else d).va ∧
        (if inPages v n (u64 d.va) then PageData.removed else d).va < 2 ^ 31 := by
    intro d hd
    split
    · decide
    · exact hd
  intro k
  unfold Proc.forgetPages
  split
  · exact ⟨hslot _ (h k).1, hslot _ (h k).2⟩
  · exact h k

theorem Proc.forgetPages_succ (pr : Proc) :
    (pr.forgetPages v n).forgetPages (v + n) 1 = pr.forgetPages v (n + 1) := by
  by_cases h : pr.pid > 2
  · simp [Proc.forgetPages, h, Xv6Paging.forgetPages_one, forget_forgetPages]
  · simp [Proc.forgetPages, h]

end Forget

/-- `uvmunmap_not_NONE` accepts the page `v`: it is mapped or swapped out, and its frame, if it is
to be freed, is one. -/
structure Unmappable (B : Build) (pt : PageTable) (doFree : Bool) (v : Nat) : Prop where
  lt_maxva : v * pgsize < maxva
  valid : hasFlag (pt.pte v) pteV = true ∨ hasFlag (pt.pte v) ptePG = true
  leaf : pteFlags (pt.pte v) ≠ pteV
  frame : doFree = true → hasFlag (pt.pte v) ptePG = false → IsFrame B (pte2pa (pt.pte v))

/-- The state after `uvmunmap_not_NONE` has unmapped the page `v`, with its frame if `freed`. -/
def Kernel.unmapPage (s : Kernel) (p : Fin nproc) (r v : Nat) (freed : Bool) : Kernel :=
  ((if freed then s.putPage (pte2pa ((s.ptables r).pte v)) else s).setPte r v 0#64).setProc p
    ((s.proc p).forgetPages v 1)

section Round

variable {B : Build} {s : Kernel} {r v k : Nat} {doFree : Bool}

theorem Unmappable.present (h : Unmappable B (s.ptables r) doFree v) : (s.ptables r).present v := by
  rcases h.valid with h | h <;> exact present_of_hasFlag _ h

/-- The bookkeeping of one page, as the source computes it. -/
theorem wp_forget {Q : Unit → Kernel → Prop} {E : Halt → Kernel → Prop} {p : Fin nproc} :
    wp (onlyIf ((s.proc p).pid > 2) (modifyProc p fun pr =>
      { pr with ram := forget (v * pgsize) pr.ram, swap := forget (v * pgsize) pr.swap })) Q E s ↔
    Q () (s.setProc p ((s.proc p).forgetPages v 1)) := by
  rw [Proc.forgetPages_one]
  by_cases h : (s.proc p).pid > 2
  · simp only [onlyIf_true h, wp_modifyProc, if_pos h]
  · simp only [onlyIf_false h, wp_pure, if_neg h, Kernel.setProc_eta]

/-- **One page of `uvmunmap_not_NONE`.** -/
theorem uvmunmapNotNoneRound_spec : wp (uvmunmapNotNoneRound B r (v * pgsize) doFree k)
      (fun _ s' => ∃ p, s.cur = some p ∧ Unmappable B (s.ptables r) doFree (v + k) ∧
        s' = s.unmapPage p r (v + k) (doFree && !hasFlag ((s.ptables r).pte (v + k)) ptePG))
      (fun e _ => e ≠ .exited ∧ ¬(s.cur ≠ none ∧ Unmappable B (s.ptables r) doFree (v + k))) s := by
  have ha : v * pgsize + k * pgsize = (v + k) * pgsize := by rw [Nat.add_mul]
  simp only [uvmunmapNotNoneRound, ha, wp_bind]
  generalize v + k = w
  by_cases hva : w * pgsize < maxva
  swap
  · rw [wp_walk_ge (Nat.not_lt.mp hva)]
    exact ⟨by simp, fun h => hva h.2.lt_maxva⟩
  rw [wp_walk_false hva, page_div]
  by_cases hp : (s.ptables r).present w
  swap
  · rw [if_neg hp]
    exact ⟨by simp, fun h => hp h.2.present⟩
  simp only [if_pos hp, wp_bind, wp_readPte, ← pte_of_present _ hp]
  by_cases hval : (!hasFlag ((s.ptables r).pte w) pteV && !hasFlag ((s.ptables r).pte w) ptePG)
      = true
  · rw [if_pos hval]
    refine ⟨by simp, fun h => ?_⟩
    rcases h.2.valid with h | h <;> simp [h] at hval
  rw [if_neg hval]
  by_cases hleaf : (pteFlags ((s.ptables r).pte w) == pteV) = true
  · rw [if_pos hleaf]
    exact ⟨by simp, fun h => h.2.leaf (beq_iff_eq.mp hleaf)⟩
  rw [if_neg hleaf]
  simp only [wp_bind, wp_writePte, wp_getProc]
  -- the entry is cleared and the running process forgets the page, whether or not a frame goes
  have rest : ∀ t : Kernel, t.cur = s.cur → t.proc = s.proc →
      (s.cur ≠ none → Unmappable B (s.ptables r) doFree w ∧
        t = if doFree && !hasFlag ((s.ptables r).pte w) ptePG then
          s.putPage (pte2pa ((s.ptables r).pte w)) else s) →
      wp myproc (fun p s' => wp (onlyIf ((s'.proc p).pid > 2) (modifyProc p fun pr => { pr with
          ram := forget (w * pgsize) pr.ram, swap := forget (w * pgsize) pr.swap }))
        (fun _ s' => ∃ p, s.cur = some p ∧ Unmappable B (s.ptables r) doFree w ∧
          s' = s.unmapPage p r w (doFree && !hasFlag ((s.ptables r).pte w) ptePG))
        (fun e _ => e ≠ .exited ∧ ¬(s.cur ≠ none ∧ Unmappable B (s.ptables r) doFree w)) s')
        (fun e _ => e ≠ .exited ∧ ¬(s.cur ≠ none ∧ Unmappable B (s.ptables r) doFree w))
        (t.setPte r w 0#64) := by
    intro t hcur hproc ht
    cases hc : s.cur with
    | none =>
      rw [wp_myproc_none (by simpa [hc] using hcur)]
      exact ⟨by simp, fun h => h.1 rfl⟩
    | some p =>
      rw [wp_myproc (by simpa [hc] using hcur), wp_forget]
      obtain ⟨hu, rfl⟩ := ht (by simp [hc])
      exact ⟨p, rfl, hu, by rw [Kernel.unmapPage, Kernel.setPte_proc, hproc]⟩
  have hvalid : hasFlag ((s.ptables r).pte w) pteV = true ∨
      hasFlag ((s.ptables r).pte w) ptePG = true := by
    simpa [Bool.and_eq_true, not_and_or, -not_and] using hval
  by_cases hfree : (doFree && !hasFlag ((s.ptables r).pte w) ptePG) = true
  · rw [onlyIf_true hfree, wp_kfree]
    simp only [Bool.and_eq_true, Bool.not_eq_true'] at hfree
    split
    · refine rest _ rfl rfl fun _ =>
        ⟨⟨hva, hvalid, fun h => hleaf (by simp [h]), fun _ _ => ?_⟩, ?_⟩
      · assumption
      · simp [hfree]
    · rename_i hf
      exact ⟨by simp, fun h => hf (h.2.frame hfree.1 hfree.2)⟩
  · rw [onlyIf_false hfree]
    refine rest s rfl rfl fun _ =>
      ⟨⟨hva, hvalid, fun h => hleaf (by simp [h]), fun hd hPG => ?_⟩, ?_⟩
    · simp [hd, hPG] at hfree
    · rw [if_neg hfree]

end Round

/-! ## Unmapping a range -/

/-- The pages `v, …, v + n - 1` of the table `r` are gone, and nothing else about the tables has
changed. -/
structure Unmapped (r v n : Nat) (s s' : Kernel) : Prop where
  dir : (s'.ptables r).dir = (s.ptables r).dir
  pte : ∀ w, (s'.ptables r).pte w = if v ≤ w ∧ w < v + n then 0#64 else (s.ptables r).pte w
  other : ∀ r', r' ≠ r → s'.ptables r' = s.ptables r'

/-- The frames that unmapping the pages `v, …, v + n - 1` gives back in the paging kernels: those
of the pages that are not swapped out. -/
def residentPages (pt : PageTable) (v n : Nat) : List Nat :=
  ((List.range' v n).filter fun w => !hasFlag (pt.pte w) ptePG).map fun w => pte2pa (pt.pte w)

/-- The state after the pages `v, …, v + n - 1` of the table `r` are unmapped, the frames `freed`
given back and the processes left as `procs`. -/
structure UnmapsTo (r v n : Nat) (freed : List Nat) (procs : Fin nproc → Proc) (s s' : Kernel) :
    Prop where
  table : Unmapped r v n s s'
  freelist : s'.freelist = freed.reverse ++ s.freelist
  mem : ∀ pa, pa ∉ freed → s'.mem pa = s.mem pa
  rest : s' = { s with
    freelist := s'.freelist, mem := s'.mem, ptables := s'.ptables, proc := procs }

/-- The processes after `uvmunmap_not_NONE` in the name of `p`. -/
def Kernel.forgetPages (s : Kernel) (p : Fin nproc) (v n : Nat) : Fin nproc → Proc :=
  Function.update s.proc p ((s.proc p).forgetPages v n)

section Range

variable {B : Build} {s s' : Kernel} {p : Fin nproc} {r v n : Nat} {doFree : Bool}

theorem Unmapped.refl (r v : Nat) (s : Kernel) : Unmapped r v 0 s s where
  dir := rfl
  pte w := by rw [if_neg (by omega)]
  other _ _ := rfl

theorem Unmapped.succ (h : Unmapped r v n s s') (hp : (s'.ptables r).present (v + n)) {t : Kernel}
    (ht : t.ptables = (s'.setPte r (v + n) 0#64).ptables) : Unmapped r v (n + 1) s t where
  dir := by rw [ht, Kernel.setPte_self, dir_setLeaf, h.dir]
  pte w := by
    rw [ht, Kernel.setPte_self, pte_setLeaf _ hp, h.pte w]
    by_cases hw : w = v + n
    · simp [hw]
    · rw [if_neg hw]
      congr 1
      simp only [eq_iff_iff]
      omega
  other r' hr := by rw [ht, Kernel.setPte_of_ne _ _ _ hr, h.other r' hr]

theorem Unmappable.congr {pt pt' : PageTable} (h : pt'.pte v = pt.pte v) :
    Unmappable B pt' doFree v ↔ Unmappable B pt doFree v := by
  constructor <;> rintro ⟨h1, h2, h3, h4⟩ <;> constructor <;> simp_all

theorem UnmapsTo.refl (r v : Nat) (s : Kernel) : UnmapsTo r v 0 [] s.proc s s where
  table := .refl r v s
  freelist := rfl
  mem _ _ := rfl
  rest := rfl

@[simp] theorem Kernel.forgetPages_zero (s : Kernel) (p : Fin nproc) (v : Nat) :
    s.forgetPages p v 0 = s.proc := by
  simp [Kernel.forgetPages]

theorem residentPages_succ (pt : PageTable) (v n : Nat) : residentPages pt v (n + 1) =
    residentPages pt v n ++
      if hasFlag (pt.pte (v + n)) ptePG then [] else [pte2pa (pt.pte (v + n))] := by
  rw [residentPages, List.range'_concat, List.filter_append, List.map_append, Nat.one_mul]
  cases h : hasFlag (pt.pte (v + n)) ptePG <;> simp [residentPages, h]

theorem UnmapsTo.succ {freed : List Nat} {procs : Fin nproc → Proc}
    (h : UnmapsTo r v n freed procs s s') (hp : (s'.ptables r).present (v + n)) (fr : Bool)
    (procs' : Fin nproc → Proc) : UnmapsTo r v (n + 1)
      (freed ++ if fr then [pte2pa ((s.ptables r).pte (v + n))] else []) procs' s
      { (if fr then s'.putPage (pte2pa ((s'.ptables r).pte (v + n))) else s').setPte r (v + n) 0#64
        with proc := procs' } := by
  have hpte : (s'.ptables r).pte (v + n) = (s.ptables r).pte (v + n) := by
    rw [h.table.pte, if_neg (by omega)]
  rw [hpte]
  constructor
  · refine h.table.succ hp ?_
    cases fr <;> rfl
  · cases fr <;> simp [h.freelist]
  · intro pa hpa
    rw [List.mem_append, not_or] at hpa
    rw [← h.mem pa hpa.1]
    cases fr with
    | false => rfl
    | true =>
      have hne : pa ≠ pte2pa ((s.ptables r).pte (v + n)) := by simpa using hpa.2
      simp [Kernel.putPage, hne]
  · have hrest := h.rest
    cases fr <;> rw [hrest] <;> simp [Kernel.setPte, Kernel.setTable, Kernel.putPage]

/-- **`uvmunmap_not_NONE`**, run by the process `p`. -/
theorem uvmunmapNotNone_spec (hc : s.cur = some p) : wp (uvmunmapNotNone B r (v * pgsize) n doFree)
      (fun _ s' => (∀ w, v ≤ w → w < v + n → Unmappable B (s.ptables r) doFree w) ∧
        UnmapsTo r v n (if doFree then residentPages (s.ptables r) v n else [])
          (s.forgetPages p v n) s s') (fun e _ => e ≠ .exited ∧
        ∃ w, v ≤ w ∧ w < v + n ∧ ¬Unmappable B (s.ptables r) doFree w) s := by
  have hal : ¬v * pgsize % pgsize ≠ 0 := by simp
  rw [uvmunmapNotNone, if_neg hal]
  refine wp_forEach (fun k t => (∀ w, v ≤ w → w < v + k → Unmappable B (s.ptables r) doFree w) ∧
    UnmapsTo r v k (if doFree then residentPages (s.ptables r) v k else [])
      (s.forgetPages p v k) s t)
    ⟨fun w h1 h2 => by omega, by simpa [residentPages] using UnmapsTo.refl r v s⟩ ?_ ?_
  · rintro k t - hk ⟨hall, ht⟩
    have hpte : (t.ptables r).pte (v + k) = (s.ptables r).pte (v + k) := by
      rw [ht.table.pte, if_neg (by omega)]
    have htc : t.cur = some p := by rw [ht.rest]; exact hc
    have hproc : Function.update t.proc p ((t.proc p).forgetPages (v + k) 1) =
        s.forgetPages p v (k + 1) := by
      rw [ht.rest]
      simp [Kernel.forgetPages, Proc.forgetPages_succ]
    refine wp_mono uvmunmapNotNoneRound_spec ?_ ?_
    · rintro _ _ ⟨q, hq, hu, rfl⟩
      obtain rfl : q = p := by simpa [htc] using hq.symm
      refine ⟨fun w h1 h2 => ?_, ?_⟩
      · by_cases hw : w = v + k
        · subst hw
          exact (Unmappable.congr hpte).mp hu
        · exact hall w h1 (by omega)
      · have hsucc := ht.succ hu.present
          (doFree && !hasFlag ((s.ptables r).pte (v + k)) ptePG) (s.forgetPages q v (k + 1))
        rw [← hproc] at hsucc ⊢
        rw [← hpte] at hsucc
        convert hsucc using 1
        · rw [residentPages_succ, hpte]
          cases doFree <;> cases hasFlag ((s.ptables r).pte (v + k)) ptePG <;> simp
        · cases doFree <;> cases hasFlag ((t.ptables r).pte (v + k)) ptePG <;> rfl
    · rintro e t' ⟨he, hn⟩
      refine ⟨he, v + k, by omega, by omega, fun hu => hn ⟨by simp [htc], ?_⟩⟩
      exact (Unmappable.congr hpte).mpr hu
  · intro t ht
    rwa [Nat.zero_add] at ht

/-! ### The lazy kernel -/

/-- The frame that `uvmunmap_NONE` gives back: that of the first page, if it is a user page. -/
def lazyFreed (pt : PageTable) (v n : Nat) (doFree : Bool) : List Nat :=
  if (doFree && decide (0 < n) && pt.userPa (v * pgsize) != 0) = true
    then [pt.userPa (v * pgsize)] else []

/-- `uvmunmap_NONE` accepts the page `w`. -/
def LazyUnmappable (pt : PageTable) (w : Nat) : Prop :=
  w * pgsize < maxva ∧ hasFlag (pt.pte w) pteV = true

/-- **One page of `uvmunmap_NONE`**: what happens to its frame depends on the first page of the
range. -/
theorem uvmunmapNoneRound_spec {k : Nat}
    (hleaf : pteFlags ((s.ptables r).pte (v + k)) = pteV → (s.ptables r).userPa (v * pgsize) = 0) :
    wp (uvmunmapNoneRound B r (v * pgsize) doFree k)
      (fun _ s' => LazyUnmappable (s.ptables r) (v + k) ∧
        s' = (if doFree && (s.ptables r).userPa (v * pgsize) != 0 then
          s.putPage (pte2pa ((s.ptables r).pte (v + k))) else s).setPte r (v + k) 0#64)
      (fun e _ => e ≠ .exited ∧ (LazyUnmappable (s.ptables r) (v + k) →
        doFree = true ∧ (s.ptables r).userPa (v * pgsize) ≠ 0 ∧
          ¬IsFrame B (pte2pa ((s.ptables r).pte (v + k))))) s := by
  have ha : v * pgsize + k * pgsize = (v + k) * pgsize := by rw [Nat.add_mul]
  simp only [uvmunmapNoneRound, ha, wp_bind]
  generalize v + k = w at *
  by_cases hva : w * pgsize < maxva
  swap
  · rw [wp_walk_ge (Nat.not_lt.mp hva)]
    exact ⟨by simp, fun h => absurd h.1 hva⟩
  rw [wp_walk_false hva, page_div]
  by_cases hp : (s.ptables r).present w
  swap
  · rw [if_neg hp]
    exact ⟨by simp, fun h => absurd (present_of_hasFlag _ h.2) hp⟩
  simp only [if_pos hp, wp_bind, wp_readPte, ← pte_of_present _ hp]
  cases hV : hasFlag ((s.ptables r).pte w) pteV with
  | false => exact ⟨by simp, fun h => by simp [LazyUnmappable, hV] at h⟩
  | true =>
    have hnotleaf : (pteFlags ((s.ptables r).pte w) == pteV &&
        (s.ptables r).userPa (v * pgsize) != 0) = false := by
      by_cases hfl : pteFlags ((s.ptables r).pte w) = pteV
      · simp [hleaf hfl]
      · simp [hfl]
    rw [Bool.not_true, if_neg Bool.false_ne_true, wp_bind, wp_walkaddr, hnotleaf,
      if_neg Bool.false_ne_true]
    simp only [wp_bind, wp_walkaddr, wp_writePte]
    by_cases hfree : (doFree && (s.ptables r).userPa (v * pgsize) != 0) = true
    · rw [onlyIf_true hfree, if_pos hfree, wp_kfree]
      simp only [Bool.and_eq_true, bne_iff_ne] at hfree
      split
      · exact ⟨⟨hva, hV⟩, rfl⟩
      · exact ⟨by simp, fun _ => ⟨hfree.1, hfree.2, ‹_›⟩⟩
    · rw [onlyIf_false hfree, if_neg hfree]
      exact ⟨⟨hva, hV⟩, rfl⟩

theorem PageTable.userPa_of_pteFlags {pt : PageTable} (h : pteFlags (pt.pte v) = pteV) :
    pt.userPa (v * pgsize) = 0 := by
  have hU : hasFlag (pt.pte v) pteU = false := by
    rw [← hasFlag_pteFlags _ (by decide), h]
    decide
  simp [userPa, hU]

/-- **`uvmunmap_NONE`**: at most the frame of the first page is given back. -/
theorem uvmunmapNone_spec : wp (uvmunmapNone B r (v * pgsize) n doFree)
      (fun _ s' => (∀ w, v ≤ w → w < v + n → LazyUnmappable (s.ptables r) w) ∧
        UnmapsTo r v n (lazyFreed (s.ptables r) v n doFree) s.proc s s')
      (fun e _ => e ≠ .exited ∧ ((∀ w, v ≤ w → w < v + n → LazyUnmappable (s.ptables r) w) →
        doFree = true ∧ 0 < n ∧ (s.ptables r).userPa (v * pgsize) ≠ 0 ∧
          ¬IsFrame B ((s.ptables r).userPa (v * pgsize)))) s := by
  have hal : ¬v * pgsize % pgsize ≠ 0 := by simp
  rw [uvmunmapNone, if_neg hal]
  refine wp_forEach (fun k t => (∀ w, v ≤ w → w < v + k → LazyUnmappable (s.ptables r) w) ∧
    UnmapsTo r v k (lazyFreed (s.ptables r) v k doFree) s.proc s t)
    ⟨fun w h1 h2 => by omega, by simpa [lazyFreed] using UnmapsTo.refl r v s⟩ ?_ ?_
  · rintro k t - hk ⟨hall, ht⟩
    have hpte : (t.ptables r).pte (v + k) = (s.ptables r).pte (v + k) := by
      rw [ht.table.pte, if_neg (by omega)]
    -- after the first round the first entry is gone, so no later round frees a frame
    have hfirst : (t.ptables r).userPa (v * pgsize) =
        if k = 0 then (s.ptables r).userPa (v * pgsize) else 0 := by
      have hv := ht.table.pte v
      split
      · rename_i hk0
        rw [if_neg (by omega)] at hv
        simp only [userPa, page_div, hv]
      · rw [if_pos (by omega)] at hv
        exact userPa_page hv
    have hlazy : LazyUnmappable (t.ptables r) (v + k) ↔ LazyUnmappable (s.ptables r) (v + k) := by
      rw [LazyUnmappable, LazyUnmappable, hpte]
    refine wp_mono (uvmunmapNoneRound_spec fun hfl => ?_) ?_ ?_
    · rw [hfirst]
      split
      · rename_i hk0
        subst hk0
        rw [hpte] at hfl
        exact userPa_of_pteFlags hfl
      · rfl
    · rintro _ _ ⟨hu, rfl⟩
      refine ⟨fun w h1 h2 => ?_, ?_⟩
      · by_cases hw : w = v + k
        · subst hw
          exact hlazy.mp hu
        · exact hall w h1 (by omega)
      · have hsucc := ht.succ (present_of_hasFlag _ hu.2)
          (doFree && (t.ptables r).userPa (v * pgsize) != 0) s.proc
        convert hsucc using 1
        · rw [hfirst]
          by_cases hk0 : k = 0
          · subst hk0
            by_cases hpa : (s.ptables r).userPa (v * pgsize) = 0
            · simp [lazyFreed, hpa]
            · have heq := userPa_eq hpa
              rw [page_div] at heq
              cases doFree <;> simp [lazyFreed, ← heq]
          · simp [lazyFreed, hk0, Nat.pos_of_ne_zero hk0]
        · have hproc : t.proc = s.proc := by rw [ht.rest]
          rw [← hproc]
          cases doFree <;> cases (t.ptables r).userPa (v * pgsize) != 0 <;> rfl
    · rintro e t' ⟨he, hn⟩
      refine ⟨he, fun hall' => ?_⟩
      obtain ⟨hd, hpa, hnf⟩ := hn (hlazy.mpr (hall' (v + k) (by omega) (by omega)))
      rw [hfirst] at hpa
      split at hpa
      · rename_i hk0
        subst hk0
        refine ⟨hd, by omega, hpa, ?_⟩
        rw [hpte, Nat.add_zero] at hnf
        rwa [userPa_eq hpa, page_div]
      · exact absurd rfl hpa
  · intro t ht
    rwa [Nat.zero_add] at ht

end Range

/-! ## Freeing a table -/

/-- The step from `s` to `s'` works on the table `r`, on physical pages and on processes; every
other table is left alone. -/
structure OnTable (r : Nat) (s s' : Kernel) : Prop where
  rest : s' = { s with
    freelist := s'.freelist, mem := s'.mem, ptables := s'.ptables, proc := s'.proc }
  other : ∀ r', r' ≠ r → s'.ptables r' = s.ptables r'

namespace OnTable

variable {r : Nat} {s t u : Kernel}

theorem refl (r : Nat) (s : Kernel) : OnTable r s s := ⟨rfl, fun _ _ => rfl⟩

theorem trans (h : OnTable r s t) (h' : OnTable r t u) : OnTable r s u where
  rest := by rw [h'.rest, h.rest]
  other r' hr := (h'.other r' hr).trans (h.other r' hr)

theorem cur_eq (h : OnTable r s t) : t.cur = s.cur := by rw [h.rest]

theorem putPage (r : Nat) (s : Kernel) (f : Nat) : OnTable r s (s.putPage f) :=
  ⟨rfl, fun _ _ => rfl⟩

theorem setTable (r : Nat) (s : Kernel) (pt : PageTable) : OnTable r s (s.setTable r pt) :=
  ⟨rfl, fun _ hr => Kernel.setTable_of_ne s pt hr⟩

theorem setProc (r : Nat) (s : Kernel) (i : Fin nproc) (q : Proc) :
    OnTable r s (s.setProc i q) := ⟨rfl, fun _ _ => rfl⟩

end OnTable

theorem UnmapsTo.onTable {r v n : Nat} {freed : List Nat} {procs : Fin nproc → Proc}
    {s s' : Kernel} (h : UnmapsTo r v n freed procs s s') : OnTable r s s' := by
  have hproc : s'.proc = procs := by rw [h.rest]
  exact ⟨by rw [hproc]; exact h.rest, h.table.other⟩

section Free

variable {B : Build} {s : Kernel} {p : Fin nproc} {r v n : Nat} {doFree : Bool}

theorem kfree_frame {f : Nat} :
    wp (kfree B f) (fun _ s' => OnTable r s s' ∧ s'.proc = s.proc) Panics s := by
  rw [wp_kfree]
  split
  · exact ⟨.putPage r s f, rfl⟩
  · exact panics_panic _ _

theorem freewalkLeaf_frame {idx pa : Nat} :
    wp (freewalkLeaf B r idx pa) (fun _ s' => OnTable r s s' ∧ s'.proc = s.proc) Panics s := by
  unfold freewalkLeaf
  rw [wp_bind]
  -- the loop over the entries only looks for a valid one
  refine wp_forEach (fun _ t => t = s) rfl (fun k t _ _ ht => ?_) fun t ht => ?_
  · subst ht
    rw [wp_bind, wp_readPte]
    refine wp_ite (fun _ => kerneltrap_panics) fun _ => wp_ite (fun _ => panic_panics) fun _ => ?_
    rfl
  · subst ht
    exact kfree_frame

theorem freewalkDir_frame {idx pa : Nat} :
    wp (freewalkDir B r idx pa) (fun _ s' => OnTable r s s' ∧ s'.proc = s.proc) Panics s := by
  unfold freewalkDir
  rw [wp_bind]
  refine wp_forEach (fun _ t => OnTable r s t ∧ t.proc = s.proc) ⟨.refl r s, rfl⟩ ?_ ?_
  · rintro k t - - ⟨ht, hproc⟩
    simp only [wp_bind, wp_get]
    cases (t.ptables r).dir 1 (idx * 512 + k) with
    | none => exact ⟨ht, hproc⟩
    | some child =>
      rw [wp_bind]
      refine wp_post freewalkLeaf_frame fun _ u hu => ?_
      exact ⟨(ht.trans hu.1).trans (.setTable r u _), hu.2.trans hproc⟩
  · rintro t ⟨ht, hproc⟩
    exact wp_post kfree_frame fun _ u hu => ⟨ht.trans hu.1, hu.2.trans hproc⟩

/-- **`freewalk`** works on the table it frees. -/
theorem freewalk_frame :
    wp (freewalk B r) (fun _ s' => OnTable r s s' ∧ s'.proc = s.proc) Panics s := by
  unfold freewalk
  rw [wp_bind]
  refine wp_forEach (fun _ t => OnTable r s t ∧ t.proc = s.proc) ⟨.refl r s, rfl⟩ ?_ ?_
  · rintro k t - - ⟨ht, hproc⟩
    simp only [wp_bind, wp_get]
    cases (t.ptables r).dir 2 k with
    | none => exact ⟨ht, hproc⟩
    | some child =>
      rw [wp_bind]
      refine wp_post freewalkDir_frame fun _ u hu => ?_
      exact ⟨(ht.trans hu.1).trans (.setTable r u _), hu.2.trans hproc⟩
  · rintro t ⟨ht, hproc⟩
    exact wp_post kfree_frame fun _ u hu => ⟨ht.trans hu.1, hu.2.trans hproc⟩

theorem uvmunmap_frame {pol : Policy} (hB : B.selection = .paging pol) (hc : s.cur = some p) :
    wp (uvmunmap B r (v * pgsize) n doFree)
      (fun _ s' => OnTable r s s' ∧ s'.proc = s.forgetPages p v n) Panics s := by
  simp only [uvmunmap, hB]
  refine wp_mono (uvmunmapNotNone_spec hc) ?_ fun e t h => h.1
  rintro _ t ⟨-, ht⟩
  exact ⟨ht.onTable, by rw [ht.rest]⟩

/-- The number of pages of an address space of `sz` bytes, as `uvmfree` counts them. -/
def pagesOf (sz : Nat) : Nat := pgroundup sz / pgsize

/-- **`uvmfree`**, run by the process `p` in a paging kernel: the process forgets as many of its
first pages as the table has. -/
theorem uvmfree_frame {pol : Policy} {sz : Nat} (hB : B.selection = .paging pol)
    (hc : s.cur = some p) : wp (uvmfree B r sz)
      (fun _ s' => OnTable r s s' ∧ s'.proc = s.forgetPages p 0 (pagesOf sz)) Panics s := by
  unfold uvmfree
  rw [wp_bind]
  refine wp_onlyIf (fun hsz => ?_) fun hsz => ?_
  · have hun := @uvmunmap_frame B s p r 0 (pagesOf sz) true pol hB hc
    rw [Nat.zero_mul] at hun
    refine wp_post hun fun _ t ht => ?_
    exact wp_post freewalk_frame fun _ u hu => ⟨ht.1.trans hu.1, hu.2.trans ht.2⟩
  · have h0 : pagesOf sz = 0 := by
      obtain rfl : sz = 0 := by omega
      decide
    rw [h0, Kernel.forgetPages_zero]
    exact freewalk_frame

end Free

end Xv6Paging
