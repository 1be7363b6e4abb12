import Mathlib.Data.List.Nodup
import Xv6Paging.Logic.Radix
import Xv6Paging.Vm.Walk

/-!
# The page table in memory

`PageTable` says what a walk finds.  Here the same code runs on the memory itself: a page-table
page is 512 words, an entry of level 2 or 1 holds the address of the next page, a free page holds
the address of the next free page in its first word, and `walk` computes with these words.  A page
table that is a tree is then a finite map from virtual pages to entries.
-/

namespace Xv6Paging.Sv39

open StateHalt
open List (mem_cons_of_mem mem_cons_self)

/-- The memory as the kernel addresses it, word by word, and `kmem.freelist`. -/
structure PhysMem where
  word : Nat → Pte
  freelist : Nat

/-- How a run ends without returning: a panic, or a loop that used up the rounds it is given
here. -/
inductive Halt
  | panic (msg : String)
  | rounds
  deriving DecidableEq, Repr

/-- The kernel code that runs on the memory. -/
abbrev PM := EStateM Halt PhysMem

/-! ## The code -/

/-- `PX(level, va)`. -/
def px (level va : Nat) : Fin 512 :=
  ⟨(va >>> pxshift level) &&& 0x1FF, Nat.lt_of_le_of_lt Nat.and_le_right (by decide)⟩

/-- `&pagetable[i]`. -/
def pteAddr (pagetable : Nat) (i : Fin 512) : Nat := pagetable + 8 * i.val

/-- `*p = x`. -/
def PhysMem.set (m : PhysMem) (p : Nat) (x : Pte) : PhysMem :=
  { m with word := Function.update m.word p x }

/-- The words of the page at `page` after `memset(page, c, PGSIZE)`. -/
def PhysMem.memset (m : PhysMem) (page : Nat) (c : BitVec 8) : PhysMem :=
  { m with word := fun p =>
      if page ≤ p ∧ p < page + pgsize then BitVec.replicate 8 c else m.word p }

def load (p : Nat) : PM Pte := do pure ((← get).word p)

def store (p : Nat) (x : Pte) : PM Unit := modify fun m => m.set p x

/-- `kalloc`: the first page of the free list, filled with junk, or 0. -/
def kalloc : PM Nat := do
  let r := (← get).freelist
  if r = 0 then pure 0
  else do
    modify fun m => { m with freelist := (m.word r).toNat }
    modify fun m => m.memset r 5
    pure r

/-- One round of the loop of `walk`: the page-table page that the entry of `level` points to, after
hanging a new one below an entry that is not valid. -/
def walkLevel (pagetable va : Nat) (alloc : Bool) (level : Nat) : PM (Option Nat) := do
  let pte := pteAddr pagetable (px level va)
  let x ← load pte
  if hasFlag x pteV then pure (some (pte2pa x))
  else if !alloc then pure none
  else do
    let page ← kalloc
    if page = 0 then pure none
    else do
      modify fun m => m.memset page 0
      store pte (pa2pte page ||| pteV)
      pure (some page)

/-- `walk`: the address of the entry for `va`, or null. -/
def walk (pagetable va : Nat) (alloc : Bool) : PM Nat := do
  if va ≥ maxva then throw (.panic "walk")
  else
    match ← walkLevel pagetable va alloc 2 with
    | none => pure 0
    | some pagetable =>
      match ← walkLevel pagetable va alloc 1 with
      | none => pure 0
      | some pagetable => pure (pteAddr pagetable (px 0 va))

/-- `walkaddr`: the physical page of a valid user page, or 0. -/
def walkaddr (pagetable va : Nat) : PM Nat := do
  if va ≥ maxva then pure 0
  else do
    let pte ← walk pagetable va false
    if pte = 0 then pure 0
    else do
      let x ← load pte
      if !hasFlag x pteV then pure 0
      else if !hasFlag x pteU then pure 0
      else pure (pte2pa x)

/-- The remap check of `mappages_NONE`, which looks up `va`, the start of the range. -/
def remapNone (pagetable va pte : Nat) : PM Unit := do
  if hasFlag (← load pte) pteV then
    if (← walkaddr pagetable va) ≠ 0 then throw (.panic "remap")

/-- The remap check of `mappages_not_NONE` and of `mappage`. -/
def remapNotNone (pte : Nat) : PM Unit := do
  if hasFlag (← load pte) pteV then throw (.panic "remap")

/-- One round of the loops of `mappages_NONE` and `mappages_not_NONE`, with `remap` for the check
in which they differ: the page `k` after the first. -/
def mappagesRound (remap : Nat → PM Unit) (pagetable va last pa : Nat) (perm : Pte) (k : Nat) :
    PM (Option Int) := do
  let a := (pgrounddown va + k * pgsize) % 2 ^ 64
  let pte ← walk pagetable a true
  if pte = 0 then pure (some (-1))
  else do
    remap pte
    store pte (pa2pte ((pa + k * pgsize) % 2 ^ 64) ||| perm ||| pteV)
    if a = last then pure (some 0) else pure none

/-- The loop, which has no bound of its own; `walk` panics at `MAXVA`, so it runs for fewer rounds
than it is given. -/
def mappagesLoop (remap : Nat → PM Unit) (pagetable va size pa : Nat) (perm : Pte) : PM Int := do
  let last := pgrounddown ((va + size + (2 ^ 64 - 1)) % 2 ^ 64)
  match ← forReturn (mappagesRound remap pagetable va last pa perm) 0 (maxva / pgsize + 1) with
  | some r => pure r
  | none => throw .rounds

def mappagesNone (pagetable va size pa : Nat) (perm : Pte) : PM Int :=
  mappagesLoop (remapNone pagetable va) pagetable va size pa perm

def mappagesNotNone (pagetable va size pa : Nat) (perm : Pte) : PM Int :=
  mappagesLoop remapNotNone pagetable va size pa perm

def mappages (B : Build) (pagetable va size pa : Nat) (perm : Pte) : PM Int :=
  match B.selection with
  | .none => mappagesNone pagetable va size pa perm
  | .paging _ => mappagesNotNone pagetable va size pa perm

/-! ## The index fields -/

theorem px_val (level va : Nat) : (px level va : Nat) = va / 2 ^ pxshift level % 512 := by
  show va >>> pxshift level &&& (2 ^ 9 - 1) = _
  rw [Nat.and_two_pow_sub_one_eq_mod, Nat.shiftRight_eq_div_pow]

theorem eq_of_px {va : Nat} (hal : va % pgsize = 0) (hva : va < maxva) :
    va = ((px 2 va * 512 + px 1 va) * 512 + px 0 va) * pgsize := by
  simp only [px_val, pxshift, pgsize] at hal ⊢
  simp only [maxva] at hva
  omega

theorem px_inj {va va' : Nat} (hal : va % pgsize = 0) (hal' : va' % pgsize = 0) (hva : va < maxva)
    (hva' : va' < maxva) (h2 : px 2 va = px 2 va') (h1 : px 1 va = px 1 va')
    (h0 : px 0 va = px 0 va') : va = va' := by
  rw [eq_of_px hal hva, eq_of_px hal' hva', h2, h1, h0]

theorem pte2pa_mod (x : Pte) : pte2pa x % pgsize = 0 := by
  simp only [pte2pa, BitVec.toNat_shiftLeft, BitVec.toNat_ushiftRight, Nat.shiftLeft_eq, pgsize]
  omega

/-- **`PTE2PA(PA2PTE(pa))`** is the page of `pa`, for every 64-bit address. -/
theorem pte2pa_pa2pte_page {pa : Nat} (h : pa < 2 ^ 64) : pte2pa (pa2pte pa) = pgrounddown pa := by
  simp only [pte2pa, pa2pte, pgrounddown, BitVec.toNat_shiftLeft, BitVec.toNat_ushiftRight,
    BitVec.toNat_ofNat, Nat.shiftLeft_eq, Nat.shiftRight_eq_div_pow, pgsize]
  omega

section Addresses

variable {p q : Nat} {i j : Fin 512}

theorem pteAddr_inj (hp : p % pgsize = 0) (hq : q % pgsize = 0)
    (h : pteAddr p i = pteAddr q j) : p = q ∧ i = j := by
  simp only [pteAddr, pgsize] at h hp hq
  have hi := i.isLt
  have hj := j.isLt
  exact ⟨by omega, Fin.ext (by omega)⟩

theorem pteAddr_mem (hp : p % pgsize = 0) (hq : q % pgsize = 0) :
    (q ≤ pteAddr p i ∧ pteAddr p i < q + pgsize) ↔ p = q := by
  simp only [pteAddr, pgsize] at hp hq ⊢
  have hi := i.isLt
  omega

end Addresses

/-! ## The tree and the map -/

/-- The page-table page that the entry `i` of the page `pagetable` points to. -/
def PhysMem.child (m : PhysMem) (pagetable : Nat) (i : Fin 512) : Option Nat :=
  if hasFlag (m.word (pteAddr pagetable i)) pteV then
    some (pte2pa (m.word (pteAddr pagetable i)))
  else none

/-- The page that the indices `q` lead to from the root. -/
def PhysMem.page (m : PhysMem) (root : Nat) (q : List (Fin 512)) : Option Nat :=
  Radix.follow m.child root q

/-- The entry `i` of the page at `q`; zero where there is no such page. -/
def PhysMem.entry (m : PhysMem) (root : Nat) (q : List (Fin 512)) (i : Fin 512) : Pte :=
  match m.page root q with
  | some p => m.word (pteAddr p i)
  | none => 0#64

/-- The indices of the page-table pages on the way to `va`. -/
def path (va : Nat) : List (Fin 512) := [px 2 va, px 1 va]

theorem path_length_le (va : Nat) : (path va).length ≤ 2 := le_rfl

theorem path_inj {va va' : Nat} (h : path va = path va') :
    px 2 va = px 2 va' ∧ px 1 va = px 1 va' := by
  simpa [path] using h

/-- The address of the entry of `va`, if its page-table page exists. -/
def PhysMem.cell (m : PhysMem) (root va : Nat) : Option Nat :=
  (m.page root (path va)).map fun p => pteAddr p (px 0 va)

/-- The entry of `va`; zero where there is no page-table page for it. -/
def PhysMem.value (m : PhysMem) (root va : Nat) : Pte := m.entry root (path va) (px 0 va)

/-- The pages of the free list that starts at `r`, linked through their first words. -/
def Linked (word : Nat → Pte) : Nat → List Nat → Prop
  | r, [] => r = 0
  | r, p :: ps => r = p ∧ p ≠ 0 ∧ Linked word (word p).toNat ps

/-- The pages of `free` are on the free list, and none of them is a page of the table `root`. -/
structure Free (m : PhysMem) (root : Nat) (free : List Nat) : Prop where
  linked : Linked m.word m.freelist free
  nodup : free.Nodup
  aligned : ∀ p ∈ free, p % pgsize = 0
  bounded : ∀ p ∈ free, p < 2 ^ 64
  apart : ∀ p ∈ free, ∀ q, q.length ≤ 2 → m.page root q ≠ some p

/-- **The page table `root` is a tree**: no page-table page is referenced twice.  The pages of the
free list are not pages of the table. -/
structure Table (m : PhysMem) (root : Nat) : Prop where
  aligned : root % pgsize = 0
  tree : Radix.Tree m.child 2 root
  free : ∃ free, Free m root free

theorem Linked.congr {word word' : Nat → Pte} {r : Nat} {ps : List Nat} (h : Linked word r ps)
    (hw : ∀ p ∈ ps, word' p = word p) : Linked word' r ps := by
  induction ps generalizing r with
  | nil => exact h
  | cons p ps ih =>
    obtain ⟨hr, hp, hl⟩ := h
    refine ⟨hr, hp, ?_⟩
    rw [hw p mem_cons_self]
    exact ih hl fun c hc => hw c (mem_cons_of_mem p hc)

namespace PhysMem

variable {m : PhysMem} {root pt va : Nat} {q : List (Fin 512)}

theorem child_mod {p : Nat} {i : Fin 512} (h : m.child pt i = some p) : p % pgsize = 0 := by
  unfold child at h
  split_ifs at h
  rw [← Option.some.inj h]
  exact pte2pa_mod _

theorem page_mod {p : Nat} (hr : root % pgsize = 0) (h : m.page root q = some p) : p % pgsize = 0 :=
  Radix.follow_prop (P := fun p => p % pgsize = 0) hr (fun _ _ _ hc => child_mod hc) h

theorem page_path : m.page root (path va) =
    (m.child root (px 2 va)).bind fun p => m.child p (px 1 va) := by
  simp only [page, path, Radix.follow, Option.bind_fun_some]

theorem entry_of_some {p : Nat} (h : m.page root q = some p) (i : Fin 512) :
    m.entry root q i = m.word (pteAddr p i) := by
  simp only [entry, h]

theorem entry_of_none (h : m.page root q = none) (i : Fin 512) : m.entry root q i = 0#64 := by
  simp only [entry, h]

theorem value_of_cell {c : Nat} (h : m.cell root va = some c) : m.value root va = m.word c := by
  obtain ⟨p, hp, rfl⟩ := Option.map_eq_some_iff.mp h
  exact entry_of_some hp _

end PhysMem

/-- **Two page-aligned addresses below `MAXVA` share an entry only if they are equal.** -/
theorem cell_inj {m : PhysMem} {root va va' c : Nat} (ht : Table m root) (hal : va % pgsize = 0)
    (hal' : va' % pgsize = 0) (hva : va < maxva) (hva' : va' < maxva)
    (h : m.cell root va = some c) (h' : m.cell root va' = some c) : va = va' := by
  obtain ⟨p, hp, hc⟩ := Option.map_eq_some_iff.mp h
  obtain ⟨p', hp', hc'⟩ := Option.map_eq_some_iff.mp h'
  obtain ⟨rfl, h0⟩ := pteAddr_inj (PhysMem.page_mod ht.aligned hp)
    (PhysMem.page_mod ht.aligned hp') (hc.trans hc'.symm)
  have hpath : path va = path va' := ht.tree (path_length_le va) (path_length_le va') hp hp'
  obtain ⟨h2, h1⟩ := path_inj hpath
  exact px_inj hal hal' hva hva' h2 h1 h0

/-! ## Lookups -/

section Lookup

variable {E : Halt → PhysMem → Prop} {m : PhysMem} {root pt va : Nat}

@[simp] theorem wp_load {Q : Pte → PhysMem → Prop} (p : Nat) :
    wp (load p) Q E m ↔ Q (m.word p) m := Iff.rfl

@[simp] theorem wp_store {Q : Unit → PhysMem → Prop} (p : Nat) (x : Pte) :
    wp (store p x) Q E m ↔ Q () (m.set p x) := Iff.rfl

theorem wp_walkLevel_some {Q : Option Nat → PhysMem → Prop} {alloc : Bool} {level p : Nat}
    (h : m.child pt (px level va) = some p) :
    wp (walkLevel pt va alloc level) Q E m ↔ Q (some p) m := by
  unfold PhysMem.child at h
  split_ifs at h with hV
  rw [walkLevel, wp_bind, wp_load, if_pos hV, wp_pure, ← h]

theorem wp_walkLevel_false {Q : Option Nat → PhysMem → Prop} {level : Nat} :
    wp (walkLevel pt va false level) Q E m ↔ Q (m.child pt (px level va)) m := by
  cases h : m.child pt (px level va) with
  | some p => exact wp_walkLevel_some h
  | none =>
    unfold PhysMem.child at h
    split_ifs at h with hV
    rw [walkLevel, wp_bind, wp_load, if_neg hV]
    rfl

/-- **`walk` without allocation** finds the entry, if its page exists, and changes nothing. -/
theorem wp_walk_false {Q : Nat → PhysMem → Prop} (hva : va < maxva) :
    wp (walk root va false) Q E m ↔ Q ((m.cell root va).getD 0) m := by
  rw [walk, if_neg (Nat.not_le.mpr hva), wp_bind, wp_walkLevel_false, PhysMem.cell,
    PhysMem.page_path]
  cases h2 : m.child root (px 2 va) with
  | none => rfl
  | some p =>
    simp only [wp_bind, wp_walkLevel_false, Option.bind_some]
    cases h1 : m.child p (px 1 va) with
    | none => rfl
    | some p' => rfl

theorem wp_walk_ge {Q : Nat → PhysMem → Prop} {alloc : Bool} (hva : maxva ≤ va) :
    wp (walk root va alloc) Q E m ↔ E (.panic "walk") m := by
  rw [walk, if_pos hva, wp_throw]

end Lookup

/-! ## Growing the tree -/

/-- From `m` to `m'` the table `root` only grew: its pages are where they were, and no entry of a
level-0 page changed its value. -/
structure Grows (m m' : PhysMem) (root : Nat) : Prop where
  page : ∀ q p, q.length ≤ 2 → m.page root q = some p → m'.page root q = some p
  entry : ∀ q i, q.length = 2 → m'.entry root q i = m.entry root q i

namespace Grows

variable {m m' m'' : PhysMem} {root va : Nat}

theorem refl (m : PhysMem) (root : Nat) : Grows m m root :=
  ⟨fun _ _ _ h => h, fun _ _ _ => rfl⟩

theorem trans (h : Grows m m' root) (h' : Grows m' m'' root) : Grows m m'' root where
  page q p hq hp := h'.page q p hq (h.page q p hq hp)
  entry q i hq := (h'.entry q i hq).trans (h.entry q i hq)

theorem value (h : Grows m m' root) (va : Nat) : m'.value root va = m.value root va :=
  h.entry (path va) (px 0 va) rfl

theorem cell (h : Grows m m' root) {c : Nat} (hc : m.cell root va = some c) :
    m'.cell root va = some c := by
  obtain ⟨p, hp, rfl⟩ := Option.map_eq_some_iff.mp hc
  rw [PhysMem.cell, h.page _ p (path_length_le va) hp]
  rfl

end Grows

/-- The page `f` from the front of the free list, zeroed and hung below the entry `i` of the page
`pt`. -/
def PhysMem.hang (m : PhysMem) (pt : Nat) (i : Fin 512) (f : Nat) : PhysMem :=
  ((PhysMem.memset { m with freelist := (m.word f).toNat } f 5).memset f 0).set (pteAddr pt i)
    (pa2pte f ||| pteV)

namespace PhysMem

variable {m : PhysMem} {root pt f p : Nat} {i j : Fin 512}

theorem word_hang (p : Nat) : (m.hang pt i f).word p = if p = pteAddr pt i then pa2pte f ||| pteV
    else if f ≤ p ∧ p < f + pgsize then 0#64 else m.word p := by
  by_cases hp : p = pteAddr pt i
  · simp [hang, set, hp]
  · rw [if_neg hp]
    simp only [hang, set, Function.update_of_ne hp, memset]
    split_ifs
    · rfl
    · rfl

theorem word_hang_of_ne (hp : p % pgsize = 0) (hf : f % pgsize = 0) (hpt : pt % pgsize = 0)
    (hpf : p ≠ f) (hne : p ≠ pt ∨ j ≠ i) :
    (m.hang pt i f).word (pteAddr p j) = m.word (pteAddr p j) := by
  have haddr : pteAddr p j ≠ pteAddr pt i := by
    intro h
    obtain ⟨h1, h2⟩ := pteAddr_inj hp hpt h
    tauto
  rw [word_hang, if_neg haddr, if_neg fun h => hpf ((pteAddr_mem hp hf).mp h)]

theorem word_hang_fresh (hf : f % pgsize = 0) (hpt : pt % pgsize = 0) (hne : f ≠ pt) :
    (m.hang pt i f).word (pteAddr f j) = 0#64 := by
  have haddr : pteAddr f j ≠ pteAddr pt i := fun h => hne (pteAddr_inj hf hpt h).1
  rw [word_hang, if_neg haddr, if_pos ((pteAddr_mem hf hf).mpr rfl)]

theorem child_hang_self (hf : f % pgsize = 0) (hlt : f < 2 ^ 64) :
    (m.hang pt i f).child pt i = some f := by
  have hw : (m.hang pt i f).word (pteAddr pt i) = pa2pte f ||| pteV := by
    rw [word_hang, if_pos rfl]
  have hV : hasFlag (pa2pte f ||| pteV) pteV = true := by
    rw [hasFlag_or, hasFlag_pa2pte f (by decide)]
    decide
  have hpa : pgrounddown f = f := by
    simp only [pgrounddown, pgsize] at hf ⊢
    omega
  rw [child, hw, if_pos hV, pte2pa_or _ (by decide), pte2pa_pa2pte_page hlt, hpa]

end PhysMem

/-- Hanging the first free page into a table hangs a fresh node into a tree. -/
theorem Free.hangs {m : PhysMem} {root pt f : Nat} {i : Fin 512} {fs : List Nat}
    {q : List (Fin 512)} (hfree : Free m root (f :: fs)) (hroot : root % pgsize = 0)
    (hq : q.length < 2) (hpt : m.page root q = some pt) (hnone : m.child pt i = none) :
    Radix.Hangs m.child (m.hang pt i f).child 2 root q i pt f := by
  have hf := hfree.aligned f mem_cons_self
  have hptal := PhysMem.page_mod hroot hpt
  have hne : ∀ q' p, q'.length ≤ 2 → m.page root q' = some p → p ≠ f := by
    rintro q' p hq' hp rfl
    exact hfree.apart p mem_cons_self q' hq' hp
  refine ⟨hq, hpt, hnone, hfree.apart f mem_cons_self,
    PhysMem.child_hang_self hf (hfree.bounded f mem_cons_self), fun j => ?_,
    fun q' p j hq' hp hpi => ?_⟩
  · rw [PhysMem.child, PhysMem.word_hang_fresh hf hptal (hne q pt (by omega) hpt).symm,
      hasFlag_zero]
    rfl
  · have hw := PhysMem.word_hang_of_ne (m := m) (j := j) (PhysMem.page_mod hroot hp) hf hptal
      (hne q' p (by omega) hp) hpi
    simp only [PhysMem.child, hw]

/-- **Hanging the first free page** keeps the table and only grows it. -/
theorem Table.hang {m : PhysMem} {root pt f : Nat} {i : Fin 512} {fs : List Nat}
    {q : List (Fin 512)} (ht : Table m root) (hfree : Free m root (f :: fs)) (hq : q.length < 2)
    (hpt : m.page root q = some pt) (hnone : m.child pt i = none) :
    Table (m.hang pt i f) root ∧ Grows m (m.hang pt i f) root ∧ Free (m.hang pt i f) root fs := by
  have hh := hfree.hangs ht.aligned hq hpt hnone
  have hf := hfree.aligned f mem_cons_self
  have hptal := PhysMem.page_mod ht.aligned hpt
  have hnd := List.nodup_cons.mp hfree.nodup
  have hfree' : Free (m.hang pt i f) root fs := by
    refine ⟨hfree.linked.2.2.congr fun p hp => ?_, hnd.2,
      fun p hp => hfree.aligned p (mem_cons_of_mem f hp),
      fun p hp => hfree.bounded p (mem_cons_of_mem f hp), fun p hp q' hq' hpage => ?_⟩
    · -- the link of another free page is neither in the fresh page nor in the table
      have hpf : p ≠ f := fun h => hnd.1 (h ▸ hp)
      have hppt : p ≠ pt := by
        rintro rfl
        exact hfree.apart p (mem_cons_of_mem f hp) q (by omega) hpt
      have hw := PhysMem.word_hang_of_ne (m := m) (i := i) (j := 0)
        (hfree.aligned p (mem_cons_of_mem f hp)) hf hptal hpf (Or.inl hppt)
      simpa [pteAddr] using hw
    · rcases hh.follow_eq ht.tree hq' with ⟨-, hb, -⟩ | ⟨-, hsame⟩
      · have heq : some f = some p := hb.symm.trans hpage
        exact hnd.1 (Option.some.inj heq ▸ hp)
      · exact hfree.apart p (mem_cons_of_mem f hp) q' hq' (hsame.symm.trans hpage)
  refine ⟨⟨ht.aligned, hh.tree ht.tree, fs, hfree'⟩, ⟨fun q' p hq' hp => ?_, fun q' j hq' => ?_⟩,
    hfree'⟩
  · exact hh.follow_of_some ht.tree hq' hp
  · rcases hh.follow_eq ht.tree (Nat.le_of_eq hq') with ⟨-, hb, hn⟩ | ⟨hne, hsame⟩
    · -- the entries of the fresh page read as zero, as they did before there was a page
      have hfpt : f ≠ pt := by
        rintro rfl
        exact hfree.apart f mem_cons_self q (by omega) hpt
      rw [PhysMem.entry_of_some hb, PhysMem.entry_of_none hn,
        PhysMem.word_hang_fresh hf hptal hfpt]
    · cases hp : m.page root q' with
      | none => rw [PhysMem.entry_of_none hp, PhysMem.entry_of_none (hsame.trans hp)]
      | some p =>
        have hpf : p ≠ f := by
          rintro rfl
          exact hfree.apart p mem_cons_self q' (Nat.le_of_eq hq') hp
        have hppt : p ≠ pt := by
          rintro rfl
          have := ht.tree (Nat.le_of_eq hq') (by omega) hp hpt
          rw [this] at hq'
          omega
        rw [PhysMem.entry_of_some hp, PhysMem.entry_of_some (hsame.trans hp),
          PhysMem.word_hang_of_ne (PhysMem.page_mod ht.aligned hp) hf hptal hpf (Or.inl hppt)]

/-! ## Walks that allocate -/

section Walk

variable {E : Halt → PhysMem → Prop} {m : PhysMem} {root pt va : Nat} {q : List (Fin 512)}

theorem wp_walkLevel_none {Q : Option Nat → PhysMem → Prop} {level : Nat} {free : List Nat}
    (hfree : Free m root free) (h : m.child pt (px level va) = none) (hempty : free = [] → Q none m)
    (hhang : ∀ f fs, free = f :: fs → Q (some f) (m.hang pt (px level va) f)) :
    wp (walkLevel pt va true level) Q E m := by
  unfold PhysMem.child at h
  split_ifs at h with hV
  rw [walkLevel, wp_bind, wp_load, if_neg hV]
  simp only [Bool.not_true, Bool.false_eq_true, if_false, wp_bind, kalloc, wp_get]
  rcases free with _ | ⟨f, fs⟩
  · have h0 : m.freelist = 0 := hfree.linked
    rw [if_pos h0]
    exact hempty rfl
  · obtain ⟨hr, hf0, -⟩ := hfree.linked
    rw [if_neg (hr ▸ hf0)]
    simp only [wp_bind, wp_modify, wp_pure, wp_store, hr, if_neg hf0]
    exact hhang f fs rfl

theorem walkLevel_true_spec {level : Nat} (ht : Table m root) (hq : q.length < 2)
    (hpt : m.page root q = some pt) :
    wp (walkLevel pt va true level) (fun o m' => Table m' root ∧ Grows m m' root ∧
      m'.page root (q ++ [px level va]) = o ∧ (o = none → m'.freelist = 0)) E m := by
  have hsnoc : ∀ {m' : PhysMem} {o : Option Nat}, m'.page root q = some pt →
      m'.child pt (px level va) = o → m'.page root (q ++ [px level va]) = o := by
    intro m' o hp hc
    rw [PhysMem.page, Radix.follow_snoc]
    rw [PhysMem.page] at hp
    rw [hp, ← hc]
    rfl
  cases h : m.child pt (px level va) with
  | some p =>
    rw [wp_walkLevel_some h]
    exact ⟨ht, Grows.refl m root, hsnoc hpt h, fun h => absurd h (Option.some_ne_none p)⟩
  | none =>
    obtain ⟨free, hfree⟩ := ht.free
    refine wp_walkLevel_none hfree h ?_ ?_
    · rintro rfl
      exact ⟨ht, Grows.refl m root, hsnoc hpt h, fun _ => hfree.linked⟩
    · rintro f fs rfl
      obtain ⟨ht', hg, -⟩ := ht.hang hfree hq hpt h
      have hself : (m.hang pt (px level va) f).child pt (px level va) = some f :=
        PhysMem.child_hang_self (hfree.aligned f mem_cons_self)
          (hfree.bounded f mem_cons_self)
      exact ⟨ht', hg, hsnoc (hg.page q pt (by omega) hpt) hself,
        fun h => absurd h (Option.some_ne_none f)⟩

/-- **`walk` with allocation** keeps the tree and every entry, and returns the address of the entry
of `va`; it returns null only when the free list has run out. -/
theorem walk_true_spec (ht : Table m root) (hva : va < maxva) :
    wp (walk root va true) (fun r m' => Table m' root ∧ Grows m m' root ∧
      r = (m'.cell root va).getD 0 ∧ (m'.cell root va = none → m'.freelist = 0)) E m := by
  rw [walk, if_neg (Nat.not_le.mpr hva), wp_bind]
  refine wp_post (walkLevel_true_spec (q := []) ht (by decide) rfl) ?_
  rintro o m₂ ⟨ht₂, hg₂, hpage₂, hempty₂⟩
  cases o with
  | none =>
    have hcell : m₂.cell root va = none := by
      rw [PhysMem.cell, PhysMem.page_path]
      simp only [PhysMem.page, List.nil_append, Radix.follow, Option.bind_fun_some] at hpage₂
      rw [hpage₂]
      rfl
    exact ⟨ht₂, hg₂, by rw [hcell]; rfl, fun _ => hempty₂ rfl⟩
  | some p =>
    simp only [wp_bind]
    refine wp_post (walkLevel_true_spec ht₂ (by simp) hpage₂) ?_
    rintro o m₁ ⟨ht₁, hg₁, hpage₁, hempty₁⟩
    have hcell : m₁.cell root va = o.map fun p => pteAddr p (px 0 va) := by
      rw [PhysMem.cell, ← hpage₁]
      rfl
    refine wp_post (Q := fun r m' => m' = m₁ ∧ r = (m₁.cell root va).getD 0) ?_ ?_
    · cases o with
      | none => exact ⟨rfl, by rw [hcell]; rfl⟩
      | some p' => exact ⟨rfl, by rw [hcell]; rfl⟩
    · rintro r m' ⟨rfl, rfl⟩
      refine ⟨ht₁, hg₂.trans hg₁, rfl, fun hnone => hempty₁ ?_⟩
      rw [hcell] at hnone
      exact Option.map_eq_none_iff.mp hnone

end Walk

/-! ## Storing an entry -/

section Store

variable {m : PhysMem} {root p : Nat} {q : List (Fin 512)} {i : Fin 512}

theorem PhysMem.word_set_of_ne {b : Nat} {j : Fin 512} (hp : p % pgsize = 0) (hb : b % pgsize = 0)
    (hne : b ≠ p) (x : Pte) : (m.set (pteAddr p i) x).word (pteAddr b j) = m.word (pteAddr b j) :=
  Function.update_of_ne (fun h => hne (pteAddr_inj hb hp h).1) _ _

/-- The page of a level-0 entry is not one of the pages above it, so storing the entry changes none
of their entries. -/
theorem Table.child_set (ht : Table m root) (hq : q.length = 2) (hp : m.page root q = some p)
    (x : Pte) : ∀ q' b, q'.length < 2 → m.page root q' = some b → ∀ j,
      (m.set (pteAddr p i) x).child b j = m.child b j := by
  intro q' b hq' hb j
  have hne : b ≠ p := by
    rintro rfl
    have := ht.tree (Nat.le_of_lt hq') (Nat.le_of_eq hq) hb hp
    rw [this] at hq'
    omega
  simp only [PhysMem.child, PhysMem.word_set_of_ne (PhysMem.page_mod ht.aligned hp)
    (PhysMem.page_mod ht.aligned hb) hne]

theorem Table.page_set (ht : Table m root) (hq : q.length = 2) (hp : m.page root q = some p)
    (x : Pte) {q' : List (Fin 512)} (hq' : q'.length ≤ 2) :
    (m.set (pteAddr p i) x).page root q' = m.page root q' :=
  Radix.follow_congr (ht.child_set hq hp x) hq'

theorem Free.set {free : List Nat} (hf : Free m root free) (ht : Table m root) (hq : q.length = 2)
    (hp : m.page root q = some p) (x : Pte) : Free (m.set (pteAddr p i) x) root free := by
  refine ⟨hf.linked.congr fun b hb => ?_, hf.nodup, hf.aligned, hf.bounded,
    fun b hb q' hq' h => hf.apart b hb q' hq' ((ht.page_set hq hp x hq').symm.trans h)⟩
  have hne : b ≠ p := by
    rintro rfl
    exact hf.apart b hb q (Nat.le_of_eq hq) hp
  have hword := PhysMem.word_set_of_ne (m := m) (i := i) (j := 0)
    (PhysMem.page_mod ht.aligned hp) (hf.aligned b hb) hne x
  simpa [pteAddr] using hword

/-- **Storing an entry of a level-0 page** keeps the table. -/
theorem Table.set (ht : Table m root) (hq : q.length = 2) (hp : m.page root q = some p)
    (x : Pte) : Table (m.set (pteAddr p i) x) root := by
  obtain ⟨free, hf⟩ := ht.free
  exact ⟨ht.aligned, ht.tree.congr (ht.child_set hq hp x), free, hf.set ht hq hp x⟩

/-- **Storing an entry of a level-0 page** changes that entry only. -/
theorem Table.entry_set (ht : Table m root) (hq : q.length = 2) (hp : m.page root q = some p)
    (x : Pte) {q' : List (Fin 512)} (hq' : q'.length = 2) (j : Fin 512) :
    (m.set (pteAddr p i) x).entry root q' j = if q' = q ∧ j = i then x else m.entry root q' j := by
  have hpage : (m.set (pteAddr p i) x).page root q' = m.page root q' :=
    ht.page_set hq hp x (Nat.le_of_eq hq')
  cases hb : m.page root q' with
  | none =>
    have hne : ¬(q' = q ∧ j = i) := by
      rintro ⟨rfl, -⟩
      rw [hb] at hp
      cases hp
    rw [if_neg hne, PhysMem.entry_of_none hb, PhysMem.entry_of_none (hpage.trans hb)]
  | some b =>
    rw [PhysMem.entry_of_some hb, PhysMem.entry_of_some (hpage.trans hb)]
    have hiff : pteAddr b j = pteAddr p i ↔ q' = q ∧ j = i := by
      constructor
      · intro h
        obtain ⟨rfl, hj⟩ := pteAddr_inj (PhysMem.page_mod ht.aligned hb)
          (PhysMem.page_mod ht.aligned hp) h
        exact ⟨ht.tree (Nat.le_of_eq hq') (Nat.le_of_eq hq) hb hp, hj⟩
      · rintro ⟨rfl, rfl⟩
        rw [Option.some.inj (hb.symm.trans hp)]
    by_cases h : q' = q ∧ j = i
    · rw [if_pos h, hiff.mpr h]
      exact Function.update_self _ _ _
    · rw [if_neg h]
      exact Function.update_of_ne (fun heq => h (hiff.mp heq)) _ _

end Store

end Xv6Paging.Sv39
