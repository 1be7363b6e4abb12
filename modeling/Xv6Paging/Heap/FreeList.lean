import Mathlib.Algebra.Order.BigOperators.Group.List
import Mathlib.Algebra.Order.Group.Nat
import Mathlib.Data.List.Pairwise
import Xv6Paging.Heap.Malloc
import Xv6Paging.Logic.SortedRing

/-!
# The free list of the user's allocator

The free blocks are a ring in the order of their addresses, with one wrap.  They do not overlap and
are not adjacent, since `free` joins a block with its neighbours.

Two things can go wrong when blocks are joined.  The size of a block is a `uint`, and the size of
joined blocks is computed modulo `2 ^ 32`.  And a block that ends where the static header begins is
joined with the header, which drops out of the ring, or stays in it as a neighbour if it is alone.
-/

namespace Xv6Paging

open StateHalt Pointers
open List (map_cons mem_append mem_append_left mem_append_right mem_cons mem_cons_of_mem
  mem_cons_self mem_singleton sum_cons)

namespace Umalloc

open Heap

namespace Heap

variable (s : Heap)

/-- `a + a->s.size`, the end of a block. -/
def fin (a : Nat) : Nat := a + unit * (s.mem a).size

/-- The block `a` lies before `b`, apart from it and not adjacent to it. -/
def Before (a b : Nat) : Prop := a + s.extent a ≤ b ∧ s.fin a ≠ b

/-- The bytes of the units of a block. -/
def range (a : Nat) : Set Nat := {i | a ≤ i ∧ i < s.fin a}

/-- The bytes of the units of the blocks. -/
def units (nodes : List Nat) : Set Nat := {i | ∃ a ∈ nodes, i ∈ s.range a}

/-- One of the blocks ends where the other begins. -/
def Adjacent (bp a : Nat) : Prop := s.fin a = bp ∨ s.fin bp = a

instance (bp a : Nat) : Decidable (s.Adjacent bp a) := inferInstanceAs (Decidable (_ ∨ _))

/-- The size of the block `bp` together with its neighbours. -/
def merged (nodes : List Nat) (bp : Nat) : Nat :=
  (s.mem bp).size + ((nodes.filter fun a => s.Adjacent bp a).map fun a => (s.mem a).size).sum

end Heap

/-- The free blocks, from the lowest one on: each points to the next and the last to the first.  The
static header is one of them, with no units. -/
structure FreeList (base : Nat) (s : Heap) (nodes : List Nat) : Prop where
  ring : Ring s.next nodes
  before : nodes.Pairwise s.Before
  freep : s.freep ∈ nodes
  nonnull : ∀ a ∈ nodes, a ≠ 0
  base_mem : base ∈ nodes
  base_size : (s.mem base).size = 0
  size_pos : ∀ a ∈ nodes, a ≠ base → 1 ≤ (s.mem a).size

/-- A block that is apart from the free ones. -/
structure Block (s : Heap) (nodes : List Nat) (bp : Nat) : Prop where
  nonnull : bp ≠ 0
  size_pos : 1 ≤ (s.mem bp).size
  apart : ∀ a ∈ nodes, a + s.extent a ≤ bp ∨ s.fin bp ≤ a

/-- The block `bp` was added to the free list, and is part of the free block `c`. -/
structure Freed (base : Nat) (s : Heap) (nodes : List Nat) (bp : Nat) (s' : Heap)
    (nodes' : List Nat) (c : Nat) : Prop where
  list : FreeList base s' nodes'
  units : s'.units nodes' = s.units nodes ∪ s.range bp
  mem : c ∈ nodes'
  size : (s'.mem c).size = s.merged nodes bp
  range : ∀ i, i ∈ s'.range c ↔
    i ∈ s.range bp ∨ ∃ a ∈ nodes, s.Adjacent bp a ∧ i ∈ s.range a
  others : ∀ a, a ≠ c → (a ∈ nodes' ↔ a ∈ nodes ∧ ¬s.Adjacent bp a)
  sizes : ∀ a ∈ nodes', a ≠ c → (s'.mem a).size = (s.mem a).size

section Basics

variable {base : Nat} {s s' : Heap} {nodes : List Nat} {a b bp : Nat} {i : Nat} {l : List Nat}

theorem Heap.Before.lt (h : s.Before a b) : a < b := by
  have hpos : 0 < s.extent a := extent_pos
  have := h.1
  omega

theorem Heap.Before.fin_lt (h : s.Before a b) : s.fin a < b := by
  have hle : s.fin a ≤ a + s.extent a := by
    simp only [fin, extent, unit]
    omega
  exact Nat.lt_of_le_of_ne (hle.trans h.1) h.2

theorem Heap.before_of_fin_lt (hsize : 1 ≤ (s.mem a).size) (h : s.fin a < b) : s.Before a b := by
  refine ⟨?_, Nat.ne_of_lt h⟩
  rw [extent_eq hsize]
  exact Nat.le_of_lt h

theorem Heap.Before.congr (h : s.Before a b) (hsize : (s'.mem a).size = (s.mem a).size) :
    s'.Before a b := by
  simpa only [Heap.Before, extent, fin, hsize] using h

theorem Heap.range_congr (hsize : (s'.mem a).size = (s.mem a).size) : s'.range a = s.range a := by
  simp only [range, fin, hsize]

theorem Heap.mem_units_append {l₁ l₂ : List Nat} :
    i ∈ s.units (l₁ ++ l₂) ↔ i ∈ s.units l₁ ∨ i ∈ s.units l₂ := by
  constructor
  · rintro ⟨a, ha, hi⟩
    rcases mem_append.mp ha with ha | ha
    · exact .inl ⟨a, ha, hi⟩
    · exact .inr ⟨a, ha, hi⟩
  · rintro (⟨a, ha, hi⟩ | ⟨a, ha, hi⟩)
    · exact ⟨a, mem_append_left _ ha, hi⟩
    · exact ⟨a, mem_append_right _ ha, hi⟩

theorem Heap.mem_units_cons {l : List Nat} {i : Nat} :
    i ∈ s.units (a :: l) ↔ i ∈ s.range a ∨ i ∈ s.units l := by
  constructor
  · rintro ⟨b, hb, hi⟩
    rcases mem_cons.mp hb with rfl | hb
    · exact .inl hi
    · exact .inr ⟨b, hb, hi⟩
  · rintro (hi | ⟨b, hb, hi⟩)
    · exact ⟨a, mem_cons_self, hi⟩
    · exact ⟨b, mem_cons_of_mem a hb, hi⟩

theorem Heap.mem_units_congr {l : List Nat} {i : Nat}
    (h : ∀ a ∈ l, (s'.mem a).size = (s.mem a).size) : i ∈ s'.units l ↔ i ∈ s.units l := by
  constructor
  · rintro ⟨a, ha, hi⟩
    exact ⟨a, ha, range_congr (h a ha) ▸ hi⟩
  · rintro ⟨a, ha, hi⟩
    exact ⟨a, ha, (range_congr (h a ha)).symm ▸ hi⟩

theorem FreeList.sorted (h : FreeList base s nodes) : nodes.Pairwise (· < ·) :=
  h.before.imp fun hab => hab.lt

theorem FreeList.nodup (h : FreeList base s nodes) : nodes.Nodup :=
  h.sorted.imp fun hab => Nat.ne_of_lt hab

theorem Heap.before_or (h : nodes.Pairwise s.Before) (ha : a ∈ nodes) (hb : b ∈ nodes)
    (hab : a ≠ b) : s.Before a b ∨ s.Before b a := by
  have hpair : nodes.Pairwise fun x y => s.Before x y ∨ s.Before y x := h.imp Or.inl
  have : Std.Symm fun x y => s.Before x y ∨ s.Before y x := ⟨fun _ _ hxy => hxy.symm⟩
  exact hpair.forall ha hb hab

theorem FreeList.range_unique (h : FreeList base s nodes) (ha : a ∈ nodes) (hb : b ∈ nodes)
    (hia : i ∈ s.range a) (hib : i ∈ s.range b) : a = b := by
  obtain ⟨halo, hahi⟩ : a ≤ i ∧ i < s.fin a := hia
  obtain ⟨hblo, hbhi⟩ : b ≤ i ∧ i < s.fin b := hib
  by_contra hab
  rcases before_or h.before ha hb hab with hlt | hlt
  · have := hlt.fin_lt
    omega
  · have := hlt.fin_lt
    omega

theorem Block.lt_fin (h : Block s nodes bp) : bp < s.fin bp := by
  have := h.size_pos
  simp only [fin, unit]
  omega

theorem Block.notMem (h : Block s nodes bp) : bp ∉ nodes := by
  intro hmem
  have hpos : 0 < s.extent bp := extent_pos
  have hfin := h.lt_fin
  rcases h.apart bp hmem with hlt | hlt <;> omega

theorem Heap.size_le_merged (hsub : l.Sublist nodes) (hl : ∀ a ∈ l, s.Adjacent bp a) :
    (s.mem bp).size + (l.map fun a => (s.mem a).size).sum ≤ s.merged nodes bp := by
  have hfilter : l.Sublist (nodes.filter fun a => s.Adjacent bp a) := by
    have hself : l.filter (fun a => s.Adjacent bp a) = l := by
      rw [List.filter_eq_self]
      exact fun a ha => decide_eq_true (hl a ha)
    rw [← hself]
    exact hsub.filter _
  exact Nat.add_le_add_left ((hfilter.map _).sum_le_sum fun _ _ => Nat.zero_le _) _

end Basics

/-! ## Finding the place -/

section Search

variable {base : Nat} {s : Heap} {nodes : List Nat} {bp : Nat}

theorem freeLoop_of_stops {a : Nat} (h : Stops s.next bp a) (n : Nat) :
    freeLoop s bp (n + 1) a = some a := by
  rw [freeLoop]
  rcases h with h | h
  · rw [if_pos h]
  · rw [if_pos h]
    split <;> rfl

theorem freeLoop_of_not_stops {a : Nat} (h : ¬Stops s.next bp a) (n : Nat) :
    freeLoop s bp (n + 1) a = freeLoop s bp n (s.next a) := by
  rw [freeLoop, if_neg fun hfirst => h (.inl hfirst), if_neg fun hwrap => h (.inr hwrap)]

theorem freeLoop_finds {a z n : Nat} {l : List Nat} (h : Trail s.next a l z)
    (hex : ∃ q ∈ a :: l, Stops s.next bp q) (hn : l.length < n) :
    ∃ q ∈ a :: l, freeLoop s bp n a = some q ∧ Stops s.next bp q := by
  obtain ⟨n, rfl⟩ := Nat.exists_eq_succ_of_ne_zero (Nat.ne_of_gt (Nat.zero_lt_of_lt hn))
  induction l generalizing a n with
  | nil =>
    obtain ⟨q, hq, hstop⟩ := hex
    rw [mem_singleton] at hq
    subst hq
    exact ⟨q, mem_cons_self, freeLoop_of_stops hstop n, hstop⟩
  | cons c l ih =>
    by_cases hstop : Stops s.next bp a
    · exact ⟨a, mem_cons_self, freeLoop_of_stops hstop n, hstop⟩
    · obtain ⟨hnext, hrest⟩ := h
      have hex' : ∃ q ∈ c :: l, Stops s.next bp q := by
        obtain ⟨q, hq, hs⟩ := hex
        rcases mem_cons.mp hq with rfl | hq
        · exact absurd hs hstop
        · exact ⟨q, hq, hs⟩
      have hlen : l.length < n := Nat.lt_of_succ_lt_succ hn
      obtain ⟨n, rfl⟩ := Nat.exists_eq_succ_of_ne_zero (Nat.ne_of_gt (Nat.zero_lt_of_lt hlen))
      obtain ⟨q, hq, hloop, hs⟩ := ih hrest hex' n hlen
      refine ⟨q, mem_cons_of_mem a hq, ?_, hs⟩
      rw [freeLoop_of_not_stops hstop, hnext]
      exact hloop

/-- **The loop of `free` terminates** at a node behind which the block belongs. -/
theorem FreeList.freeLoop_finds (h : FreeList base s nodes) (hb : Block s nodes bp) {rounds : Nat}
    (hrounds : nodes.length ≤ rounds) :
    ∃ q ∈ nodes, freeLoop s bp rounds s.freep = some q ∧ Stops s.next bp q := by
  obtain ⟨q₀, hq₀, hstop₀⟩ := h.ring.exists_stops h.sorted hb.notMem
  obtain ⟨l₁, l₂, hsplit⟩ := List.append_of_mem h.freep
  have hring := h.ring
  rw [hsplit] at hring hrounds hq₀
  -- the ring, read from `freep` on
  have hrot : Trail s.next s.freep (l₂ ++ l₁) s.freep := hring.comm
  have hmem : ∀ q, q ∈ s.freep :: (l₂ ++ l₁) ↔ q ∈ l₁ ++ s.freep :: l₂ := by
    intro q
    simp only [mem_cons, mem_append]
    tauto
  have hlen : (l₂ ++ l₁).length < rounds := by
    simp only [List.length_append, List.length_cons] at hrounds ⊢
    omega
  obtain ⟨q, hq, hloop, hstop⟩ := Umalloc.freeLoop_finds hrot ⟨q₀, (hmem q₀).mpr hq₀, hstop₀⟩ hlen
  exact ⟨q, hsplit ▸ (hmem q).mp hq, hloop, hstop⟩

end Search

/-! ## Joining with the neighbours -/

section Join

variable {base : Nat} {s s₁ : Heap} {L R T : List Nat} {bp q : Nat}

/-- The block `bp` belongs between the free blocks `L` and `R`. -/
structure Place (base : Nat) (s : Heap) (L R : List Nat) (bp : Nat) : Prop where
  list : FreeList base s (L ++ R)
  block : Block s (L ++ R) bp
  base : s.fin bp ≠ base
  fits : s.merged (L ++ R) bp < 2 ^ 32
  less : ∀ a ∈ L, a < bp
  greater : ∀ a ∈ R, bp < a

/-- The block after it was joined with the one behind it, if that is adjacent: `up` is this
neighbour, if there is one, and `R'` are the free blocks beyond. -/
structure Upper (s s₁ : Heap) (bp q : Nat) (L R up R' : List Nat) : Prop where
  split : R = up ++ R'
  touch : ∀ a ∈ up, s.fin bp = a
  clear : ∀ a ∈ R', s.fin bp ≠ a
  before : ∀ a ∈ R', s₁.Before bp a
  range : ∀ i, i ∈ s₁.range bp ↔ i ∈ s.range bp ∨ i ∈ s.units up
  size : (s₁.mem bp).size = (s.mem bp).size + (up.map fun a => (s.mem a).size).sum
  path : ∃ T, R' ++ L = T ++ [q] ∧ Trail s₁.next bp T q
  mem : ∀ a, a ≠ bp → s₁.mem a = s.mem a

theorem joinUpper_pos {c : Nat} (h : s.fin bp = c) : s.joinUpper bp c =
    s.setHeader bp ⟨(s.mem c).ptr, ((s.mem bp).size + (s.mem c).size) % 2 ^ 32⟩ := if_pos h

theorem joinUpper_neg {c : Nat} (h : s.fin bp ≠ c) :
    s.joinUpper bp c = s.setHeader bp ⟨c, (s.mem bp).size⟩ := if_neg h

/-- **The first join**, with the block behind. -/
theorem Place.upper (hplace : Place base s L R bp) (hT : R ++ L = T ++ [q]) :
    ∃ up R', Upper s (s.joinUpper bp (s.next q)) bp q L R up R' := by
  obtain ⟨h, hb, hbase, hfits, hL, hR⟩ := hplace
  have hring : Trail s.next q T q := by
    have hrot := h.ring.comm
    rw [hT] at hrot
    exact hrot.comm
  have hmem : ∀ a, a ∈ T ++ [q] ↔ a ∈ L ++ R := by
    intro a
    rw [← hT]
    simp only [mem_append]
    tauto
  have hne : ∀ a ∈ T, a ≠ bp := fun a ha hab =>
    hb.notMem (hab ▸ (hmem a).mp (mem_append_left _ ha))
  have hfin := hb.lt_fin
  by_cases hjoin : s.fin bp = s.next q
  · rw [joinUpper_pos hjoin]
    rcases T with _ | ⟨c, T⟩
    · -- the static header would be alone, and the neighbour
      have hq : s.next q = q := hring
      have hbq : base = q := mem_singleton.mp ((hmem base).mpr h.base_mem)
      exact absurd (hjoin.trans (hq.trans hbq.symm)) hbase
    obtain ⟨hc, hpath⟩ := hring
    rcases R with _ | ⟨d, R⟩
    · have hcL : c ∈ L := by
        rw [List.nil_append] at hT
        rw [hT]
        exact mem_append_left _ mem_cons_self
      have := hL c hcL
      omega
    obtain ⟨rfl, hT'⟩ := List.cons.inj hT
    have hd : d ∈ L ++ d :: R := mem_append_right _ mem_cons_self
    rw [hc] at hjoin ⊢
    have hdb : d ≠ base := fun hdb => hbase (hjoin.trans hdb)
    have hdsize := h.size_pos d hd hdb
    have hbefore : ∀ a ∈ R, s.Before d a := fun a ha =>
      List.rel_of_pairwise_cons (List.pairwise_append.mp h.before).2.1 ha
    have hadj : ∀ a ∈ [d], s.Adjacent bp a := by simp [Heap.Adjacent, hjoin]
    have hsum := size_le_merged (List.singleton_sublist.mpr hd) hadj
    simp only [map_cons, List.map_nil, List.sum_singleton] at hsum
    have hmod : ((s.mem bp).size + (s.mem d).size) % 2 ^ 32 = (s.mem bp).size + (s.mem d).size :=
      Nat.mod_eq_of_lt (by omega)
    rw [hmod]
    have hfin₁ : (s.setHeader bp ⟨(s.mem d).ptr, (s.mem bp).size + (s.mem d).size⟩).fin bp =
        s.fin d := by
      rw [fin, setHeader_self]
      simp only [fin, unit] at hjoin ⊢
      omega
    refine ⟨[d], R, rfl, ?_, ?_, ?_, ?_, ?_, ⟨T, hT', ?_⟩, fun a ha => setHeader_of_ne ha⟩
    · simp [hjoin]
    · intro a ha
      have := (hbefore a ha).lt
      omega
    · intro a ha
      refine before_of_fin_lt ?_ (hfin₁ ▸ (hbefore a ha).fin_lt)
      rw [setHeader_self]
      exact Nat.le_add_left_of_le hdsize
    · intro i
      have hdle : d ≤ s.fin d := Nat.le_add_right _ _
      show bp ≤ i ∧ i < fin _ bp ↔ (bp ≤ i ∧ i < s.fin bp) ∨ ∃ a ∈ [d], a ≤ i ∧ i < s.fin a
      simp only [mem_singleton, exists_eq_left, hfin₁]
      omega
    · rw [setHeader_self]
      simp
    · refine hpath.from_head ?_ fun a ha => ?_
      · rw [next, setHeader_self]
        rfl
      · exact next_setHeader (hne a (mem_cons_of_mem d ha))
  · rw [joinUpper_neg hjoin]
    have hapart : ∀ a ∈ R, s.fin bp ≤ a := by
      intro a ha
      have hlt := hR a ha
      have hpos : 0 < s.extent a := extent_pos
      rcases hb.apart a (mem_append_right _ ha) with hle | hle
      · omega
      · exact hle
    have hclear : ∀ a ∈ R, s.fin bp ≠ a := by
      rcases R with _ | ⟨c, R⟩
      · simp
      have hc : s.next q = c := hring.next_of_append hT
      have hcle := hapart c mem_cons_self
      intro a ha
      rcases mem_cons.mp ha with rfl | ha
      · rwa [← hc]
      · have := (List.rel_of_pairwise_cons (List.pairwise_append.mp h.before).2.1 ha).lt
        omega
    have hsize : ((s.setHeader bp ⟨s.next q, (s.mem bp).size⟩).mem bp).size = (s.mem bp).size := by
      rw [setHeader_self]
    refine ⟨[], R, rfl, by simp, hclear, fun a ha => ?_, fun i => ?_, ?_, ⟨T, hT, ?_⟩,
      fun a ha => setHeader_of_ne ha⟩
    · refine before_of_fin_lt ?_ ?_
      · rw [hsize]
        exact hb.size_pos
      · rw [fin, hsize]
        exact Nat.lt_of_le_of_ne (hapart a ha) (hclear a ha)
    · rw [range_congr hsize]
      refine (or_iff_left ?_).symm
      rintro ⟨a, ha, -⟩
      exact absurd ha List.not_mem_nil
    · rw [hsize]
      rfl
    · refine hring.from_head ?_ fun a ha => next_setHeader (hne a ha)
      rw [next, setHeader_self]

/-- The list after `free`: the blocks `M`, the neighbours, have become part of the block `c`. -/
theorem freed_of_parts {s' : Heap} {L' M R' : List Nat} {c : Nat}
    (h : FreeList base s (L' ++ M ++ R')) (hb : Block s (L' ++ M ++ R') bp)
    (hM : ∀ a ∈ L' ++ M ++ R', s.Adjacent bp a ↔ a ∈ M) (hring : Ring s'.next (L' ++ c :: R'))
    (hfreep : s'.freep ∈ L' ++ c :: R') (hmem : ∀ a ∈ L' ++ R', (s'.mem a).size = (s.mem a).size)
    (hbefore : ∀ a ∈ L', s.Before a c) (hafter : ∀ a ∈ R', s'.Before c a)
    (hsize : (s'.mem c).size = (s.mem bp).size + (M.map fun a => (s.mem a).size).sum)
    (hrange : ∀ i, i ∈ s'.range c ↔ i ∈ s.range bp ∨ i ∈ s.units M) (hnull : c ≠ 0)
    (hbase : c ≠ base ∧ base ∉ M) : Freed base s (L' ++ M ++ R') bp s' (L' ++ c :: R') c := by
  have hMmem : ∀ a ∈ M, a ∈ L' ++ M ++ R' := fun a ha =>
    mem_append_left _ (mem_append_right _ ha)
  have hsizeL : ∀ a ∈ L', (s'.mem a).size = (s.mem a).size := fun a ha =>
    hmem a (mem_append_left _ ha)
  have hsizeR : ∀ a ∈ R', (s'.mem a).size = (s.mem a).size := fun a ha =>
    hmem a (mem_append_right _ ha)
  obtain ⟨hLM, hRR, hcross⟩ := List.pairwise_append.mp h.before
  obtain ⟨hLL, -, hLMcross⟩ := List.pairwise_append.mp hLM
  -- the other blocks are as before, and not among the neighbours
  have hL : ∀ a ∈ L', a ∈ L' ++ M ++ R' ∧ a ∉ M := fun a ha =>
    ⟨mem_append_left _ (mem_append_left _ ha), fun haM =>
      Nat.lt_irrefl a (hLMcross a ha a haM).lt⟩
  have hR : ∀ a ∈ R', a ∈ L' ++ M ++ R' ∧ a ∉ M := fun a ha =>
    ⟨mem_append_right _ ha, fun haM =>
      Nat.lt_irrefl a (hcross a (mem_append_right _ haM) a ha).lt⟩
  have hrest : ∀ a ∈ L' ++ c :: R', a ≠ c →
      (a ∈ L' ++ M ++ R' ∧ a ∉ M) ∧ (s'.mem a).size = (s.mem a).size := by
    intro a ha hac
    rcases mem_append.mp ha with ha | ha
    · exact ⟨hL a ha, hsizeL a ha⟩
    · have ha := List.mem_of_ne_of_mem hac ha
      exact ⟨hR a ha, hsizeR a ha⟩
  have hbaseMem : base ∈ L' ++ R' := by
    rcases mem_append.mp h.base_mem with hbm | hbm
    · rcases mem_append.mp hbm with hbm | hbm
      · exact mem_append_left _ hbm
      · exact absurd hbm hbase.2
    · exact mem_append_right _ hbm
  have hlist : FreeList base s' (L' ++ c :: R') := by
    refine ⟨hring, ?_, hfreep, fun a ha => ?_, ?_, ?_, fun a ha hab => ?_⟩
    · refine List.pairwise_append.mpr ⟨?_, List.pairwise_cons.mpr ⟨hafter, ?_⟩, ?_⟩
      · exact hLL.imp_of_mem fun ha _ hab => hab.congr (hsizeL _ ha)
      · exact hRR.imp_of_mem fun ha _ hab => hab.congr (hsizeR _ ha)
      · intro a ha b hb
        rcases mem_cons.mp hb with rfl | hb
        · exact (hbefore a ha).congr (hsizeL a ha)
        · exact (hcross a (mem_append_left _ ha) b hb).congr (hsizeL a ha)
    · rcases eq_or_ne a c with rfl | hac
      · exact hnull
      · exact h.nonnull a (hrest a ha hac).1.1
    · rcases mem_append.mp hbaseMem with hbm | hbm
      · exact mem_append_left _ hbm
      · exact mem_append_right _ (mem_cons_of_mem c hbm)
    · rw [hmem base hbaseMem, h.base_size]
    · rcases eq_or_ne a c with rfl | hac
      · rw [hsize]
        exact Nat.le_add_right_of_le hb.size_pos
      · obtain ⟨⟨hmem', -⟩, hsame⟩ := hrest a ha hac
        rw [hsame]
        exact h.size_pos a hmem' hab
  refine ⟨hlist, ?_, mem_append_right _ mem_cons_self, ?_, fun i => ?_, fun a hac => ?_,
    fun a ha hac => (hrest a ha hac).2⟩
  · -- the units of the neighbours are those of `c` now
    ext i
    show i ∈ s'.units (L' ++ c :: R') ↔ i ∈ s.units (L' ++ M ++ R') ∨ i ∈ s.range bp
    rw [mem_units_append, mem_units_cons, mem_units_append, mem_units_append,
      mem_units_congr hsizeL, mem_units_congr hsizeR, hrange]
    tauto
  · have hnone : ∀ l : List Nat, (∀ a ∈ l, a ∈ L' ++ M ++ R' ∧ a ∉ M) →
        l.filter (fun a => s.Adjacent bp a) = [] := by
      intro l hl
      rw [List.filter_eq_nil_iff]
      intro a ha
      rw [decide_eq_true_eq, hM a (hl a ha).1]
      exact (hl a ha).2
    have hall : M.filter (fun a => s.Adjacent bp a) = M := by
      rw [List.filter_eq_self]
      exact fun a ha => decide_eq_true ((hM a (hMmem a ha)).mpr ha)
    rw [hsize, merged, List.filter_append, List.filter_append, hnone L' hL, hall,
      hnone R' hR, List.nil_append, List.append_nil]
  · rw [hrange]
    refine or_congr_right ⟨?_, ?_⟩
    · rintro ⟨a, ha, hi⟩
      exact ⟨a, hMmem a ha, (hM a (hMmem a ha)).mpr ha, hi⟩
    · rintro ⟨a, ha, hadj, hi⟩
      exact ⟨a, (hM a ha).mp hadj, hi⟩
  · constructor
    · intro ha
      obtain ⟨⟨hmem', haM⟩, -⟩ := hrest a ha hac
      exact ⟨hmem', fun hadj => haM ((hM a hmem').mp hadj)⟩
    · rintro ⟨ha, hadj⟩
      rw [hM a ha] at hadj
      simp only [mem_append, mem_cons] at ha ⊢
      tauto

theorem joinLower_pos (h : s₁.fin q = bp) : s₁.joinLower q bp =
    s₁.setHeader q ⟨(s₁.mem bp).ptr, ((s₁.mem q).size + (s₁.mem bp).size) % 2 ^ 32⟩ := if_pos h

theorem joinLower_neg (h : s₁.fin q ≠ bp) :
    s₁.joinLower q bp = s₁.setHeader q ⟨bp, (s₁.mem q).size⟩ := if_neg h

section Lower

variable {up R' : List Nat}

variable (hup : Upper s s₁ bp q L R up R')
include hup

theorem Upper.mem_ring : q ∈ R' ++ L := by
  obtain ⟨T, hT, -⟩ := hup.path
  rw [hT]
  exact mem_append_right _ mem_cons_self

theorem Upper.mem_nodes {a : Nat} (ha : a ∈ R' ++ L) : a ∈ L ++ R := by
  rw [hup.split]
  simp only [mem_append] at ha ⊢
  tauto

theorem Upper.last (hL : L ≠ []) : ∃ L', L = L' ++ [q] ∧ Trail s₁.next bp (R' ++ L') q := by
  obtain ⟨T, hT, hpath⟩ := hup.path
  obtain ⟨L', q', hsplit⟩ := (List.eq_nil_or_concat L).resolve_left hL
  rw [List.concat_eq_append] at hsplit
  rw [hsplit, ← List.append_assoc] at hT
  obtain ⟨hinit, hlast⟩ := List.append_inj' hT rfl
  obtain rfl : q' = q := (List.cons.inj hlast).1
  exact ⟨L', hsplit, hinit ▸ hpath⟩

variable (hplace : Place base s L R bp)
include hplace

theorem Upper.adjacent_iff {a : Nat} (ha : a ∈ R) : s.Adjacent bp a ↔ a ∈ up := by
  have hlt := hplace.greater a ha
  have hle : a ≤ s.fin a := Nat.le_add_right _ _
  constructor
  · rintro (hfin | hfin)
    · omega
    · rw [hup.split] at ha
      rcases mem_append.mp ha with ha | ha
      · exact ha
      · exact absurd hfin (hup.clear a ha)
  · exact fun haup => .inr (hup.touch a haup)

omit hup in
theorem Place.adjacent_iff {a : Nat} (ha : a ∈ L) : s.Adjacent bp a ↔ s.fin a = bp := by
  have hlt := hplace.less a ha
  have hfin := hplace.block.lt_fin
  exact or_iff_left fun h => by omega

/-- The block before ends at `bp`: it takes over `bp` and what was joined with it. -/
theorem Upper.joined (hjoin : s₁.fin q = bp) :
    ∃ nodes' c, Freed base s (L ++ R) bp { s₁.joinLower q bp with freep := q } nodes' c := by
  have hqmem := hup.mem_nodes hup.mem_ring
  have hqbp : q ≠ bp := fun hqb => hplace.block.notMem (hqb ▸ hqmem)
  have hq : s₁.mem q = s.mem q := hup.mem q hqbp
  rw [joinLower_pos hjoin]
  rw [fin, hq] at hjoin
  have hqpos : 1 ≤ (s.mem q).size := by
    simp only [unit] at hjoin
    omega
  have hqbase : q ≠ base := by
    rintro rfl
    rw [hplace.list.base_size] at hqpos
    omega
  have hqlt : q < bp := by
    simp only [unit] at hjoin
    omega
  have hL : L ≠ [] := by
    rintro rfl
    have hqR := hup.mem_ring
    rw [List.append_nil] at hqR
    have := hplace.greater q (hup.split ▸ mem_append_right _ hqR)
    omega
  obtain ⟨L', rfl, hring⟩ := hup.last hL
  have hnodes : L' ++ [q] ++ R = L' ++ (q :: up) ++ R' := by simp [hup.split]
  have hfits := hplace.fits
  have hbase := hplace.base
  have hless := hplace.greater
  have hgreater : ∀ a ∈ up, bp < a := fun a ha => hless a (hup.split ▸ mem_append_left _ ha)
  have hadj : ∀ a ∈ q :: up, s.Adjacent bp a := by
    intro a ha
    rcases mem_cons.mp ha with rfl | ha
    · exact .inl hjoin
    · exact .inr (hup.touch a ha)
  have hsum : (s.mem q).size + (s₁.mem bp).size < 2 ^ 32 := by
    have hsub : (q :: up).Sublist (L' ++ (q :: up) ++ R') :=
      (List.sublist_append_right L' (q :: up)).trans (List.sublist_append_left _ R')
    have hle := size_le_merged hsub hadj
    rw [← hnodes, map_cons, sum_cons] at hle
    rw [hup.size]
    omega
  rw [hq, Nat.mod_eq_of_lt hsum]
  have hbelow : ∀ a ∈ L' ++ [q], s.Adjacent bp a ↔ s.fin a = bp := fun a ha =>
    hplace.adjacent_iff ha
  have habove : ∀ a ∈ R, s.Adjacent bp a ↔ a ∈ up := fun a ha => hup.adjacent_iff hplace ha
  obtain ⟨h, hb, -, -, -, -⟩ := hplace
  rw [hnodes] at h hb ⊢
  obtain ⟨hLM, -, hcross⟩ := List.pairwise_append.mp h.before
  have hLq : ∀ a ∈ L', s.Before a q := fun a ha =>
    (List.pairwise_append.mp hLM).2.2 a ha q mem_cons_self
  have hRq : ∀ a ∈ R', s.Before q a := fun a ha =>
    hcross q (mem_append_right _ mem_cons_self) a ha
  set s' : Heap := { s₁.setHeader q ⟨(s₁.mem bp).ptr, (s.mem q).size + (s₁.mem bp).size⟩ with
    freep := q } with hs'
  have hself : s'.mem q = ⟨(s₁.mem bp).ptr, (s.mem q).size + (s₁.mem bp).size⟩ :=
    setHeader_self
  have hother : ∀ a, a ≠ q → s'.mem a = s₁.mem a := fun a ha => setHeader_of_ne ha
  have hfin : s'.fin q = s₁.fin bp := by
    rw [fin, hself]
    simp only [fin, unit] at hjoin ⊢
    omega
  have hne : ∀ a ∈ R' ++ L', a ≠ q := by
    intro a ha
    rcases mem_append.mp ha with ha | ha
    · exact Nat.ne_of_gt (hRq a ha).lt
    · exact Nat.ne_of_lt (hLq a ha).lt
  refine ⟨L' ++ q :: R', q, freed_of_parts h hb (fun a ha => ?_) ?_ ?_ (fun a ha => ?_) hLq
    (fun a ha => ?_) ?_ (fun i => ?_) ?_ ⟨hqbase, ?_⟩⟩
  · rw [← hnodes] at ha
    rcases mem_append.mp ha with haL | haR
    · rw [hbelow a haL, mem_cons]
      rcases mem_append.mp haL with haL | haq
      · have hfinlt := (hLq a haL).fin_lt
        have haq := (hLq a haL).lt
        refine ⟨fun hfa => by omega, ?_⟩
        rintro (rfl | haup)
        · omega
        · have := hgreater a haup
          omega
      · rw [mem_singleton] at haq
        subst haq
        exact ⟨fun _ => .inl rfl, fun _ => hjoin⟩
    · rw [habove a haR, mem_cons]
      refine (or_iff_right ?_).symm
      rintro rfl
      have := hless a haR
      omega
  · have hrot : Ring s'.next (q :: R' ++ L') := by
      refine Trail.from_head hring ?_ fun a ha => ?_
      · rw [next, hself]
        rfl
      · rw [next, hother a (hne a ha)]
        rfl
    exact hrot.comm
  · exact mem_append_right _ mem_cons_self
  · have haR : a ∈ R' ++ L' := mem_append.mpr (mem_append.mp ha).symm
    have habp : a ≠ bp := by
      rintro rfl
      refine hb.notMem ?_
      simp only [mem_append, mem_cons] at ha ⊢
      tauto
    rw [hother a (hne a haR), hup.mem a habp]
  · refine before_of_fin_lt ?_ (hfin ▸ (hup.before a ha).fin_lt)
    rw [hself]
    exact Nat.le_add_right_of_le hqpos
  · rw [hself, hup.size, map_cons, sum_cons]
    dsimp only
    omega
  · have hparts : i ∈ s'.range q ↔ i ∈ s.range q ∨ i ∈ s₁.range bp := by
      show q ≤ i ∧ i < s'.fin q ↔ (q ≤ i ∧ i < s.fin q) ∨ (bp ≤ i ∧ i < s₁.fin bp)
      have hqfin : s.fin q = bp := hjoin
      have hle : bp ≤ s₁.fin bp := Nat.le_add_right _ _
      rw [hfin]
      omega
    rw [hparts, hup.range, mem_units_cons]
    tauto
  · exact h.nonnull q (mem_append_left _ (mem_append_right _ mem_cons_self))
  · rw [mem_cons, not_or]
    exact ⟨Ne.symm hqbase, fun hmem => hbase (hup.touch base hmem)⟩

/-- No block before ends at `bp`: it becomes a block of the list. -/
theorem Upper.inserted (hjoin : s₁.fin q ≠ bp) :
    ∃ nodes' c, Freed base s (L ++ R) bp { s₁.joinLower q bp with freep := q } nodes' c := by
  obtain ⟨T, hT, hpath⟩ := hup.path
  have hqmem := hup.mem_nodes hup.mem_ring
  have hqbp : q ≠ bp := fun hqb => hplace.block.notMem (hqb ▸ hqmem)
  have hq : s₁.mem q = s.mem q := hup.mem q hqbp
  rw [joinLower_neg hjoin]
  rw [fin, hq] at hjoin
  -- the blocks before the last one end before it
  have hclear : ∀ a ∈ L, s.fin a ≠ bp := by
    intro a ha
    obtain ⟨L', rfl, -⟩ := hup.last (List.ne_nil_of_mem ha)
    rcases mem_append.mp ha with haL | haq
    · have hlist := (List.pairwise_append.mp hplace.list.before).1
      have hfin := ((List.pairwise_append.mp hlist).2.2 a haL q mem_cons_self).fin_lt
      have := hplace.less q (mem_append_right _ mem_cons_self)
      omega
    · rw [mem_singleton] at haq
      subst haq
      exact hjoin
  have hbefore : ∀ a ∈ L, s.Before a bp := by
    intro a ha
    have hlt := hplace.less a ha
    have hfin := hplace.block.lt_fin
    rcases hplace.block.apart a (mem_append_left _ ha) with hle | hle
    · exact ⟨hle, hclear a ha⟩
    · omega
  have hnodes : L ++ R = L ++ up ++ R' := by rw [hup.split, List.append_assoc]
  have hbelow : ∀ a ∈ L, ¬s.Adjacent bp a := fun a ha hadj =>
    hclear a ha ((hplace.adjacent_iff ha).mp hadj)
  have habove : ∀ a ∈ R, s.Adjacent bp a ↔ a ∈ up := fun a ha => hup.adjacent_iff hplace ha
  have hupR : ∀ a ∈ up, a ∈ R := fun a ha => hup.split ▸ mem_append_left _ ha
  obtain ⟨h, hb, hbase, -, hless, hgreater⟩ := hplace
  have hbpbase : bp ≠ base := fun heq => hb.notMem (heq ▸ h.base_mem)
  have hnodup : (T ++ [q]).Nodup := by
    rw [← hT]
    have hsub : (L ++ R').Sublist (L ++ R) := by
      rw [hup.split]
      exact (List.sublist_append_right up R').append_left L
    exact List.nodup_append_comm.mp (h.nodup.sublist hsub)
  rw [hnodes] at h hb ⊢
  set s' : Heap := { s₁.setHeader q ⟨bp, (s₁.mem q).size⟩ with freep := q } with hs'
  have hself : s'.mem q = ⟨bp, (s₁.mem q).size⟩ := setHeader_self
  have hother : ∀ a, a ≠ q → s'.mem a = s₁.mem a := fun a ha => setHeader_of_ne ha
  have hsize : ∀ a, (s'.mem a).size = (s₁.mem a).size := by
    intro a
    rcases eq_or_ne a q with rfl | haq
    · rw [hself]
    · rw [hother a haq]
  refine ⟨L ++ bp :: R', bp, freed_of_parts h hb (fun a ha => ?_) ?_ ?_ (fun a ha => ?_) hbefore
    (fun a ha => (hup.before a ha).congr (hsize bp)) ?_ (fun i => ?_) hb.nonnull ⟨hbpbase, ?_⟩⟩
  · rw [← hnodes] at ha
    rcases mem_append.mp ha with ha | ha
    · refine ⟨fun hadj => absurd hadj (hbelow a ha), fun haup => ?_⟩
      have := hless a ha
      have := hgreater a (hupR a haup)
      omega
    · exact habove a ha
  · have hrot : Ring s'.next ([q] ++ bp :: T) := by
      refine ⟨?_, hpath.congr fun a ha => ?_⟩
      · rw [next, hself]
      · have haq : a ≠ q := by
          rintro rfl
          rcases mem_cons.mp ha with rfl | ha
          · exact hqbp rfl
          · exact (List.nodup_append.mp hnodup).2.2 a ha a mem_cons_self rfl
        rw [next, hother a haq]
        rfl
    have hrot' := hrot.comm
    rw [List.cons_append, ← hT, ← List.cons_append] at hrot'
    exact hrot'.comm
  · have hmem := hup.mem_ring
    simp only [mem_append, mem_cons] at hmem ⊢
    tauto
  · have habp : a ≠ bp := by
      rintro rfl
      refine hb.notMem ?_
      simp only [mem_append] at ha ⊢
      tauto
    rw [hsize, hup.mem a habp]
  · rw [hsize, hup.size]
  · rw [range_congr (hsize bp), hup.range]
  · exact fun hmem => hbase (hup.touch base hmem)

end Lower

end Join

section Free

variable {base : Nat} {s : Heap} {nodes : List Nat} {bp : Nat}

theorem wp_free_found {rounds q : Nat} {Q : Unit → Heap → Prop} {E : Endless → Heap → Prop}
    (h : freeLoop s bp rounds s.freep = some q) : wp (free rounds (bp + unit)) Q E s ↔
      Q () { (s.joinUpper bp (s.next q)).joinLower q bp with freep := q } := by
  simp only [free, wp_bind, wp_get, Nat.add_sub_cancel, h, wp_modify]

/-- **`free` terminates and adds the block** to the free list, joined with its neighbours. -/
theorem free_list_spec (h : FreeList base s nodes) (hb : Block s nodes bp)
    (hbase : s.fin bp ≠ base) (hfits : s.merged nodes bp < 2 ^ 32) {rounds : Nat}
    (hrounds : nodes.length ≤ rounds) :
    wp (free rounds (bp + unit)) (fun _ s' => ∃ nodes' c, Freed base s nodes bp s' nodes' c)
      (fun _ _ => False) s := by
  obtain ⟨q, hq, hloop, hstop⟩ := h.freeLoop_finds hb hrounds
  obtain ⟨L, R, T, rfl, hL, hR, hT⟩ := h.ring.split_of_stops h.sorted hq hstop
  rw [wp_free_found hloop]
  have hplace : Place base s L R bp := ⟨h, hb, hbase, hfits, hL, hR⟩
  obtain ⟨up, R', hup⟩ := hplace.upper hT
  by_cases hjoin : (s.joinUpper bp (s.next q)).fin q = bp
  · exact hup.joined hplace hjoin
  · exact hup.inserted hplace hjoin

end Free

end Umalloc

end Xv6Paging
