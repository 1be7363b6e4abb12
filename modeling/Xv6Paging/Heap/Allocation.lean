import Xv6Paging.Heap.FreeList

/-!
# Taking blocks from the free list

`malloc` searches the ring from `freep` on for a block that is large enough, and takes it out of the
list or cuts off its end.  When it is back at `freep` it calls `morecore`, which obtains a region
from `sbrk` or fails; a call of `malloc` that returns a block and has obtained no region has not
called `morecore`.
-/

namespace Xv6Paging

open StateHalt Pointers
open List (mem_append mem_cons mem_cons_self)

namespace Umalloc

open Heap

/-- The `n` units of the block `hp` were taken from the free block `a`. -/
structure Removed (base : Nat) (s : Heap) (nodes : List Nat) (n hp : Nat) (s' : Heap)
    (nodes' : List Nat) (a : Nat) : Prop where
  list : FreeList base s' nodes'
  mem : a ∈ nodes
  size : (s'.mem hp).size = n
  inside : s'.range hp ⊆ s.range a
  units : ∀ i, i ∈ s'.units nodes' ↔ i ∈ s.units nodes ∧ i ∉ s'.range hp
  others : ∀ b, b ≠ a → (b ∈ nodes' ↔ b ∈ nodes)
  sizes : ∀ b ∈ nodes', b ≠ a → (s'.mem b).size = (s.mem b).size

section Take

variable {base : Nat} {s : Heap} {nodes : List Nat} {n pr : Nat}

variable (h : FreeList base s nodes)
include h

/-- **A whole block** is taken out of the list. -/
theorem unlink_list_spec (hpr : pr ∈ nodes) (hpb : s.next pr ≠ base) (hself : s.next pr ≠ pr) :
    ∃ nodes', Removed base s nodes (s.mem (s.next pr)).size (s.next pr) (s.unlink pr (s.next pr))
      nodes' (s.next pr) := by
  obtain ⟨l₁, l₂, rfl, hprmem, hring⟩ := h.ring.exists_remove h.nodup hpr hself
  set p := s.next pr with hp
  set s' := s.unlink pr p with hs'
  have hmem : ∀ a, a ≠ pr → s'.mem a = s.mem a := fun a ha => setHeader_of_ne ha
  have hmempr : s'.mem pr = ⟨s.next p, (s.mem pr).size⟩ := setHeader_self
  have hsize : ∀ a, (s'.mem a).size = (s.mem a).size := by
    intro a
    rcases eq_or_ne a pr with rfl | ha
    · rw [hmempr]
    · rw [hmem a ha]
  have hsub : (l₁ ++ l₂).Sublist (l₁ ++ p :: l₂) := (List.sublist_cons_self p l₂).append_left l₁
  have hnot : p ∉ l₁ ++ l₂ := by
    have hperm : (p :: (l₁ ++ l₂)).Nodup := (List.perm_middle.nodup_iff).mp h.nodup
    exact (List.nodup_cons.mp hperm).1
  have hothers : ∀ b, b ≠ p → (b ∈ l₁ ++ l₂ ↔ b ∈ l₁ ++ p :: l₂) := by
    intro b hb
    simp only [mem_append, mem_cons]
    tauto
  refine ⟨l₁ ++ l₂, ⟨?_, ?_, hprmem, fun a ha => h.nonnull a (hsub.subset ha),
    (hothers base (Ne.symm hpb)).mpr h.base_mem, ?_, fun a ha hab => ?_⟩, ?_, hsize p, ?_, ?_,
    hothers, fun b _ _ => hsize b⟩
  · refine hring s'.next ?_ fun c _ hc => ?_
    · rw [next, hmempr]
    · rw [next, hmem c hc]
      rfl
  · exact (h.before.sublist hsub).imp fun hab => hab.congr (hsize _)
  · rw [hsize, h.base_size]
  · rw [hsize]
    exact h.size_pos a (hsub.subset ha) hab
  · exact List.mem_append_right _ mem_cons_self
  · rw [range_congr (hsize p)]
  · intro i
    rw [range_congr (hsize p), mem_units_congr fun a _ => hsize a]
    constructor
    · rintro ⟨a, ha, hi⟩
      refine ⟨⟨a, hsub.subset ha, hi⟩, fun hip => hnot ?_⟩
      rwa [← h.range_unique (hsub.subset ha) (List.mem_append_right _ mem_cons_self) hi hip]
    · rintro ⟨⟨a, ha, hi⟩, hip⟩
      have hap : a ≠ p := by
        rintro rfl
        exact hip hi
      exact ⟨a, (hothers a hap).mpr ha, hi⟩

/-- **The end of a block** is cut off. -/
theorem cut_list_spec {p : Nat} (hpr : pr ∈ nodes) (hp : p ∈ nodes)
    (hn : 1 ≤ n) (hlt : n < (s.mem p).size) :
    Removed base s nodes n (s.tail n p) (s.cut n pr p) nodes p := by
  set t := s.tail n p with ht
  set s' := s.cut n pr p with hs'
  have htail : p < t ∧ t + unit * n = s.fin p := by
    simp only [ht, tail, fin, unit]
    omega
  have htlt : t < s.fin p := by
    simp only [unit] at htail
    omega
  -- no free block begins within another one
  have hnot : ∀ a ∈ nodes, a ≠ t := by
    rintro a ha rfl
    rcases before_or h.before hp ha (Nat.ne_of_lt htail.1) with hbefore | hbefore
    · have := hbefore.fin_lt
      omega
    · have := hbefore.lt
      omega
  have hmemt : (s'.mem t).size = n := congrArg Header.size setHeader_self
  have hmemp : s'.mem p = ⟨s.next p, (s.mem p).size - n⟩ :=
    (setHeader_of_ne (Nat.ne_of_lt htail.1)).trans setHeader_self
  have hmem : ∀ a ∈ nodes, a ≠ p → s'.mem a = s.mem a := fun a ha hap =>
    (setHeader_of_ne (hnot a ha)).trans (setHeader_of_ne hap)
  have hfint : s'.fin t = s.fin p := by rw [fin, hmemt, htail.2]
  have hfinp : s'.fin p = t := by rw [fin, hmemp, ht, tail]
  have hinside : s'.range t ⊆ s.range p := by
    rintro i ⟨hlo, hhi⟩
    rw [hfint] at hhi
    exact ⟨by omega, hhi⟩
  have hpb : p ≠ base := by
    rintro rfl
    rw [h.base_size] at hlt
    omega
  refine ⟨⟨?_, ?_, hpr, h.nonnull, h.base_mem, ?_, fun a ha hab => ?_⟩, hp, hmemt, hinside, ?_,
    fun _ _ => Iff.rfl, fun b hb hbp => by rw [hmem b hb hbp]⟩
  · refine h.ring.congr fun c hc => ?_
    by_cases hcp : c = p
    · rw [hcp, next, hmemp]
    · rw [next, hmem c hc hcp]
      rfl
  · refine h.before.imp_of_mem fun {a b} ha _ hab => ?_
    by_cases hap : a = p
    · subst hap
      refine before_of_fin_lt ?_ ?_
      · rw [hmemp]
        dsimp only
        omega
      · rw [hfinp]
        exact htlt.trans hab.fin_lt
    · exact hab.congr (by rw [hmem a ha hap])
  · rw [hmem base h.base_mem (Ne.symm hpb), h.base_size]
  · by_cases hap : a = p
    · rw [hap, hmemp]
      dsimp only
      omega
    · rw [hmem a ha hap]
      exact h.size_pos a ha hab
  · intro i
    constructor
    · rintro ⟨a, ha, hi⟩
      by_cases hap : a = p
      · subst hap
        obtain ⟨hlo, hhi⟩ : a ≤ i ∧ i < s'.fin a := hi
        rw [hfinp] at hhi
        exact ⟨⟨a, ha, hlo, hhi.trans htlt⟩, fun hit => absurd hit.1 (Nat.not_le.mpr hhi)⟩
      · have hra : s'.range a = s.range a := range_congr (by rw [hmem a ha hap])
        rw [hra] at hi
        exact ⟨⟨a, ha, hi⟩, fun hit => hap (h.range_unique ha hp hi (hinside hit))⟩
    · rintro ⟨⟨a, ha, hi⟩, hit⟩
      refine ⟨a, ha, ?_⟩
      by_cases hap : a = p
      · subst hap
        refine ⟨hi.1, ?_⟩
        rw [hfinp]
        by_contra hle
        exact hit ⟨Nat.not_lt.mp hle, hfint ▸ hi.2⟩
      · have hra : s'.range a = s.range a := range_congr (by rw [hmem a ha hap])
        rwa [hra]

/-- **A block is taken** behind `pr`. -/
theorem take_list_spec (hpr : pr ∈ nodes) (hn : 1 ≤ n) (hfits : n ≤ (s.mem (s.next pr)).size) :
    ∃ nodes' a, Removed base s nodes n (s.take n pr (s.next pr)).1 (s.take n pr (s.next pr)).2
      nodes' a := by
  have hp := h.ring.closed hpr
  -- the static header has no units to give
  have hpb : s.next pr ≠ base := by
    intro hpb
    rw [hpb, h.base_size] at hfits
    omega
  have hself : s.next pr ≠ pr := by
    intro hself
    have hone := h.ring.mem_of_closed (S := fun a => a = pr) (fun a ha => ha ▸ hself) hpr rfl
    exact hpb (hself.trans (hone base h.base_mem).symm)
  rw [take]
  split
  · rename_i hexact
    obtain ⟨nodes', hremoved⟩ := unlink_list_spec h hpr hpb hself
    rw [← hexact]
    exact ⟨nodes', _, hremoved⟩
  · exact ⟨nodes, _, cut_list_spec h hpr hp hn (by omega)⟩

omit h in
theorem morecore_adds (rounds nu : Nat) :
    wp (morecore rounds nu) (fun o s' => o ≠ none → s.regions.length < s'.regions.length)
      (fun _ _ => True) s := by
  have hfail : ∀ s' : Heap, (none : Option Nat) ≠ none → s.regions.length < s'.regions.length :=
    fun _ hne => absurd rfl hne
  rw [morecore, wp_bind, sbrk, wp_bind, wp_get]
  cases s.answers with
  | nil => exact hfail _
  | cons o answers =>
    cases o with
    | none => exact hfail _
    | some a =>
      apply wp_ite <;> intro _
      · simp only [wp_bind, wp_modify, wp_pure, wp_get]
        refine wp_post (free_regions rounds _) fun _ s' hregions _ => ?_
        rw [hregions]
        exact Nat.lt_succ_self _
      · exact hfail _

/-- **The loop of `malloc`**, if it returns a block and `morecore` has obtained no memory. -/
theorem mallocLoop_list_spec (hpr : pr ∈ nodes) (hn : 1 ≤ n) (rounds : Nat) :
    wp (mallocLoop n rounds pr (s.next pr)) (fun r s' => ∀ ptr, r = some ptr →
      s'.regions = s.regions → ∃ hp nodes' a, ptr = hp + unit ∧
        Removed base s nodes n hp s' nodes' a) (fun _ _ => True) s := by
  induction rounds generalizing pr with
  | zero => trivial
  | succ rounds ih =>
    rw [mallocLoop, wp_bind, wp_get]
    apply wp_ite <;> intro hfits
    · intro ptr hptr _
      obtain ⟨nodes', a, hremoved⟩ := take_list_spec h hpr hn hfits
      exact ⟨_, nodes', a, (Option.some.inj hptr).symm, hremoved⟩
    · apply wp_ite <;> intro _
      · rw [wp_bind]
        refine wp_post (morecore_adds rounds n) fun o s₁ hadds => ?_
        cases o with
        | none => exact fun ptr hptr => absurd hptr.symm (Option.some_ne_none ptr)
        | some f =>
          -- memory is not given back
          rw [wp_bind, wp_get]
          refine wp_post ((mallocLoop_grows n rounds _ _).run s₁) fun o s' hgrows ptr _ hsame => ?_
          have hlt := hadds (Option.some_ne_none f)
          rw [Grows, hsame] at hgrows
          omega
      · exact ih (h.ring.closed hpr)

omit h in
theorem mallocLoop_finds {l : List Nat} {rounds : Nat} (h : Trail s.next pr l s.freep)
    (hfreep : s.freep ∉ l) (hex : ∃ q ∈ l ++ [s.freep], n ≤ (s.mem q).size)
    (hrounds : l.length < rounds) :
    wp (mallocLoop n rounds pr (s.next pr)) (fun r s' => r ≠ none ∧ s'.regions = s.regions)
      (fun _ _ => False) s := by
  induction l generalizing pr rounds with
  | nil =>
    obtain ⟨rounds, rfl⟩ := Nat.exists_eq_succ_of_ne_zero (Nat.ne_of_gt hrounds)
    obtain ⟨q, hq, hfits⟩ := hex
    have hnext : s.next pr = s.freep := h
    rw [List.nil_append, List.mem_singleton] at hq
    rw [hq, ← hnext] at hfits
    rw [mallocLoop, wp_bind, wp_get, if_pos hfits]
    exact ⟨Option.some_ne_none _, take_regions n _⟩
  | cons c l ih =>
    obtain ⟨rounds, rfl⟩ := Nat.exists_eq_succ_of_ne_zero
      (Nat.ne_of_gt (Nat.zero_lt_of_lt hrounds))
    obtain ⟨hnext, hrest⟩ := h
    rw [mem_cons, not_or] at hfreep
    rw [mallocLoop, wp_bind, wp_get, hnext]
    apply wp_ite <;> intro hfits
    · exact ⟨Option.some_ne_none _, take_regions n _⟩
    · rw [if_neg (Ne.symm hfreep.1)]
      refine ih hrest hfreep.2 ?_ (Nat.lt_of_succ_lt_succ hrounds)
      obtain ⟨q, hq, hle⟩ := hex
      rcases List.mem_cons.mp hq with rfl | hq
      · exact absurd hle hfits
      · exact ⟨q, hq, hle⟩

/-- **`malloc`** on the free list. -/
theorem malloc_list_spec (rounds : Nat) (nbytes : BitVec 32) :
    wp (malloc base rounds nbytes) (fun r s' => ∀ ptr, r = some ptr → s'.regions = s.regions →
      ∃ hp nodes' a, ptr = hp + unit ∧ Removed base s nodes (nunits nbytes) hp s' nodes' a)
      (fun _ _ => True) s := by
  simp only [malloc, wp_bind, wp_get, onlyIf, if_neg (h.nonnull _ h.freep), wp_pure]
  exact mallocLoop_list_spec h h.freep (one_le_nunits nbytes).1 rounds

theorem malloc_finds {rounds : Nat} {nbytes : BitVec 32}
    (hex : ∃ q ∈ nodes, nunits nbytes ≤ (s.mem q).size) (hrounds : nodes.length ≤ rounds) :
    wp (malloc base rounds nbytes) (fun r s' => r ≠ none ∧ s'.regions = s.regions)
      (fun _ _ => False) s := by
  simp only [malloc, wp_bind, wp_get, onlyIf, if_neg (h.nonnull _ h.freep), wp_pure]
  obtain ⟨l₁, l₂, hsplit⟩ := List.append_of_mem h.freep
  have hring := h.ring
  have hnodup := h.nodup
  rw [hsplit] at hring hnodup hrounds
  have hrot : Trail s.next s.freep (l₂ ++ l₁) s.freep := hring.comm
  refine mallocLoop_finds hrot ?_ ?_ ?_
  · have hperm : (s.freep :: (l₁ ++ l₂)).Nodup := (List.perm_middle.nodup_iff).mp hnodup
    have hnot := (List.nodup_cons.mp hperm).1
    rwa [mem_append, or_comm, ← mem_append]
  · obtain ⟨q, hq, hle⟩ := hex
    rw [hsplit] at hq
    refine ⟨q, ?_, hle⟩
    simp only [mem_append, mem_cons, List.not_mem_nil, or_false] at hq ⊢
    tauto
  · simp only [List.length_append, List.length_cons] at hrounds ⊢
    omega

end Take

/-! ## The allocator -/

section Allocator

variable {base : Nat} {s : Heap} {nodes : List Nat}

/-- **The free list of the allocator.**  `free` terminates and adds the units of the block, joined
with each neighbour, unless the block ends at the static header or its size with the neighbours is
no `uint`.  If `malloc` returns a block without memory from `morecore`, it has removed exactly the
units of the block from one free block; and it finds a block that is large enough. -/
theorem allocator_keeps_list (h : FreeList base s nodes) :
    (∀ bp rounds, Block s nodes bp → s.fin bp ≠ base → s.merged nodes bp < 2 ^ 32 →
      nodes.length ≤ rounds → wp (free rounds (bp + unit))
        (fun _ s' => ∃ nodes' c, Freed base s nodes bp s' nodes' c) (fun _ _ => False) s) ∧
    ∀ nbytes rounds,
      wp (malloc base rounds nbytes) (fun r s' => ∀ ptr, r = some ptr → s'.regions = s.regions →
        ∃ hp nodes' a, ptr = hp + unit ∧ Removed base s nodes (nunits nbytes) hp s' nodes' a)
        (fun _ _ => True) s ∧
      ((∃ q ∈ nodes, nunits nbytes ≤ (s.mem q).size) → nodes.length ≤ rounds →
        wp (malloc base rounds nbytes) (fun r s' => r ≠ none ∧ s'.regions = s.regions)
          (fun _ _ => False) s) := by
  refine ⟨fun bp rounds hb hbase hfits hrounds => ?_, fun nbytes rounds => ⟨?_, ?_⟩⟩
  · exact free_list_spec h hb hbase hfits hrounds
  · exact malloc_list_spec h rounds nbytes
  · exact fun hex hrounds => malloc_finds h hex hrounds

/-- The static header at 16 and a free block at 32, in front of another block. -/
def neighbours (size : Nat) : Heap where
  mem := fun a =>
    if a = 16 then ⟨32, 0⟩ else if a = 32 then ⟨16, size⟩ else ⟨0, size⟩
  freep := 16
  top := 0
  regions := []
  answers := []

theorem neighbours_list {size : Nat} (hsize : 1 ≤ size) :
    FreeList 16 (neighbours size) [16, 32] := by
  refine ⟨⟨rfl, rfl⟩, ?_, mem_cons_self, by decide, mem_cons_self, rfl, ?_⟩
  · rw [List.pairwise_pair]
    exact ⟨le_rfl, show 16 + 16 * 0 ≠ 32 by decide⟩
  · intro a ha hab
    simp only [mem_cons, List.not_mem_nil, or_false] at ha
    rw [ha.resolve_left hab]
    exact hsize

theorem neighbours_block {size : Nat} (hsize : 1 ≤ size) :
    Block (neighbours size) [16, 32] (32 + 16 * size) := by
  have hmem : (neighbours size).mem (32 + 16 * size) = ⟨0, size⟩ :=
    (if_neg (by omega)).trans (if_neg (by omega))
  refine ⟨by omega, by rwa [hmem], fun a ha => .inl ?_⟩
  simp only [mem_cons, List.not_mem_nil, or_false] at ha
  rcases ha with rfl | rfl
  · show 16 + 16 * max 1 0 ≤ 32 + 16 * size
    omega
  · show 32 + 16 * max 1 size ≤ 32 + 16 * size
    omega

/-- Two blocks of three units become one. -/
theorem allocator_keeps_list_three : wp (free 2 (32 + 16 * 3 + unit)) (fun _ s' => ∃ nodes' c,
      Freed 16 (neighbours 3) [16, 32] (32 + 16 * 3) s' nodes' c) (fun _ _ => False)
      (neighbours 3) :=
  (allocator_keeps_list (neighbours_list (by decide))).1 _ 2 (neighbours_block (by decide))
    (by decide) (by decide) (by decide)

/-- The static header at 48, alone, and a block of one unit below it. -/
def belowHeader : Heap where
  mem := fun a => if a = 48 then ⟨48, 0⟩ else ⟨0, 1⟩
  freep := 48
  top := 0
  regions := []
  answers := []

theorem belowHeader_list : FreeList 48 belowHeader [48] ∧ Block belowHeader [48] 32 := by
  refine ⟨⟨rfl, List.pairwise_singleton _ _, mem_cons_self, by decide, mem_cons_self, rfl,
    ?_⟩, by decide, le_rfl, ?_⟩
  · intro a ha hab
    exact absurd (List.mem_singleton.mp ha) hab
  · intro a ha
    rw [List.mem_singleton.mp ha]
    exact .inr le_rfl

/-- **The two exceptions.**  Two neighbours of `2 ^ 31` units each become a block without units.
And a block below the static header, if that is alone in the list, stays its neighbour. -/
theorem free_exceptions : (FreeList 16 (neighbours (2 ^ 31)) [16, 32] ∧
      Block (neighbours (2 ^ 31)) [16, 32] (32 + 16 * 2 ^ 31) ∧
      wp (free 2 (32 + 16 * 2 ^ 31 + unit)) (fun _ s' => ∀ nodes', Ring s'.next nodes' →
        s'.freep ∈ nodes' → s'.units nodes' ≠ (neighbours (2 ^ 31)).units [16, 32] ∪
          (neighbours (2 ^ 31)).range (32 + 16 * 2 ^ 31)) (fun _ _ => False)
        (neighbours (2 ^ 31))) ∧ (FreeList 48 belowHeader [48] ∧ Block belowHeader [48] 32 ∧
      wp (free 1 (32 + unit)) (fun _ s' => ∀ nodes', Ring s'.next nodes' → s'.freep ∈ nodes' →
        ¬nodes'.Pairwise s'.Before) (fun _ _ => False) belowHeader) := by
  refine ⟨⟨neighbours_list (by decide), neighbours_block (by decide), ?_⟩,
    belowHeader_list.1, belowHeader_list.2, ?_⟩
  · rw [wp_free_found (show freeLoop _ _ _ _ = some 32 by decide)]
    intro nodes' hring hfreep heq
    set s' : Heap := { ((neighbours (2 ^ 31)).joinUpper (32 + 16 * 2 ^ 31)
      ((neighbours (2 ^ 31)).next 32)).joinLower 32 (32 + 16 * 2 ^ 31) with freep := 32 }
    have h16 : s'.mem 16 = ⟨32, 0⟩ := rfl
    have h32 : s'.mem 32 = ⟨16, 0⟩ := rfl
    have hnodes := hring.mem_of_closed (S := fun a => a = 16 ∨ a = 32) ?_ hfreep (.inr rfl)
    · -- the first free unit is lost
      have hunit : 32 ∈ s'.units nodes' := by
        rw [heq]
        exact .inl ⟨32, by decide, le_rfl, by decide⟩
      obtain ⟨a, ha, -, hlt⟩ := hunit
      rcases hnodes a ha with rfl | rfl
      · rw [fin, h16] at hlt
        exact absurd hlt (by decide)
      · rw [fin, h32] at hlt
        exact absurd hlt (by decide)
    · rintro a (rfl | rfl)
      · exact .inr (congrArg Header.ptr h16)
      · exact .inl (congrArg Header.ptr h32)
  · rw [wp_free_found (show freeLoop _ _ _ _ = some 48 by decide)]
    intro nodes' hring hfreep hpair
    set s' : Heap := { (belowHeader.joinUpper 32 (belowHeader.next 48)).joinLower 48 32 with
      freep := 48 }
    have h32 : s'.mem 32 = ⟨48, 1⟩ := rfl
    have h48 : s'.mem 48 = ⟨32, 0⟩ := rfl
    have hnext : s'.next 48 = 32 := congrArg Header.ptr h48
    have hmem : 32 ∈ nodes' := hnext ▸ hring.closed hfreep
    rcases before_or hpair hmem hfreep (by decide) with hbefore | hbefore
    · refine hbefore.2 ?_
      rw [fin, h32]
      rfl
    · exact absurd hbefore.lt (by decide)

end Allocator

end Umalloc

end Xv6Paging
