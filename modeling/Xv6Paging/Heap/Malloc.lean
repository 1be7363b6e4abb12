import Mathlib.Data.BitVec
import Mathlib.Data.List.Nodup
import Xv6Paging.Logic.Blocks
import Xv6Paging.Logic.Obeys
import Xv6Paging.Logic.Trail

/-!
# The user's memory allocator

`malloc` and `free` keep the free blocks in a ring of headers through the static header `base`.  A
block is counted in units of a header; its first unit is the header.

The loops of the source have no bound; here they are given a number of rounds, and a call that needs
more does not return.  `sbrk` is answered by the environment.
-/

namespace Xv6Paging

open StateHalt Pointers Blocks
open List (mem_cons mem_cons_of_mem mem_cons_self)

namespace Umalloc

/-! ## The functions -/

/-- `sizeof(Header)`. -/
abbrev unit : Nat := 16

/-- A header: the next free block and the size of this one, in units. -/
structure Header where
  ptr : Nat
  size : Nat

/-- The memory of the allocator: the header at every address, `freep`, the regions that `sbrk`
returned, with their lengths, and the end of the last one.  `answers` are those of the next calls of
`sbrk`; `none` is -1. -/
structure Heap where
  mem : Nat → Header
  freep : Nat
  top : Nat
  regions : List (Nat × Nat)
  answers : List (Option Nat)

/-- A loop needs more rounds than it was given. -/
inductive Endless
  | rounds

abbrev HM := EStateM Endless Heap

namespace Heap

def setHeader (s : Heap) (a : Nat) (h : Header) : Heap :=
  { s with mem := Function.update s.mem a h }

/-- The bytes obtained from `sbrk`. -/
def Owned (s : Heap) : Set Nat := {i | ∃ r ∈ s.regions, r.1 ≤ i ∧ i < r.1 + r.2}

/-- Where the free blocks point to. -/
def next (s : Heap) (a : Nat) : Nat := (s.mem a).ptr

end Heap

open Heap

/-- The loop of `free`: the free block after which the block `bp` belongs. -/
def freeLoop (s : Heap) (bp : Nat) : Nat → Nat → Option Nat
  | 0, _ => none
  | n + 1, p =>
    if p < bp ∧ bp < s.next p then some p
    else if s.next p ≤ p ∧ (p < bp ∨ bp < s.next p) then some p
    else freeLoop s bp n (s.next p)

/-- `free`: the block `bp` is joined with the free block `q` behind it, or points to it. -/
def Heap.joinUpper (s : Heap) (bp q : Nat) : Heap :=
  if bp + unit * (s.mem bp).size = q then
    s.setHeader bp ⟨(s.mem q).ptr, ((s.mem bp).size + (s.mem q).size) % 2 ^ 32⟩
  else s.setHeader bp ⟨q, (s.mem bp).size⟩

/-- `free`: the free block `p` is joined with `bp` behind it, or points to it. -/
def Heap.joinLower (s : Heap) (p bp : Nat) : Heap :=
  if p + unit * (s.mem p).size = bp then
    s.setHeader p ⟨(s.mem bp).ptr, ((s.mem p).size + (s.mem bp).size) % 2 ^ 32⟩
  else s.setHeader p ⟨bp, (s.mem p).size⟩

def free (rounds : Nat) (ap : Nat) : HM Unit := do
  let bp := ap - unit
  let s ← get
  match freeLoop s bp rounds s.freep with
  | none => throw .rounds
  | some p => modify fun s => { (s.joinUpper bp (s.next p)).joinLower p bp with freep := p }

/-- `sbrk`: a fresh region of `n` bytes above all earlier ones, or -1. -/
def sbrk (n : Int) : HM (Option Nat) := do
  let s ← get
  match s.answers with
  | some a :: answers =>
    if s.top ≤ a then
      modify fun s => { s with
        top := a + n.toNat
        regions := (a, n.toNat) :: s.regions
        answers := answers }
      pure (some a)
    else
      modify fun s => { s with answers := answers }
      pure none
  | none :: answers =>
    modify fun s => { s with answers := answers }
    pure none
  | [] => pure none

/-- The number of units that `morecore` asks for. -/
def coreUnits (nu : Nat) : Nat := if nu < 4096 then 4096 else nu

/-- The argument of `sbrk`: `nu * sizeof(Header)`, converted to an `int`. -/
def sbrkArg (nu : Nat) : Int := (BitVec.ofNat 32 (nu * unit)).toInt

def morecore (rounds nu : Nat) : HM (Option Nat) := do
  match ← sbrk (sbrkArg (coreUnits nu)) with
  | none => pure none
  | some hp =>
    modify fun s => s.setHeader hp { s.mem hp with size := coreUnits nu }
    free rounds (hp + unit)
    let s ← get
    pure (some s.freep)

/-- `malloc`: the block `p` after `prevp` is taken out of the ring. -/
def Heap.unlink (s : Heap) (prevp p : Nat) : Heap :=
  { s.setHeader prevp ⟨s.next p, (s.mem prevp).size⟩ with freep := prevp }

/-- `malloc`: the last `nunits` units of the block `p`. -/
def Heap.tail (s : Heap) (nunits p : Nat) : Nat := p + unit * ((s.mem p).size - nunits)

/-- `malloc`: the last `nunits` units of the block `p` become a block of their own. -/
def Heap.cut (s : Heap) (nunits prevp p : Nat) : Heap :=
  let s' := s.setHeader p ⟨s.next p, (s.mem p).size - nunits⟩
  { s'.setHeader (s.tail nunits p) ⟨s'.next (s.tail nunits p), nunits⟩ with freep := prevp }

/-- `malloc`: the block `p` after `prevp` has `nunits` units at least. -/
def Heap.take (s : Heap) (nunits prevp p : Nat) : Nat × Heap :=
  if (s.mem p).size = nunits then (p, s.unlink prevp p)
  else (s.tail nunits p, s.cut nunits prevp p)

/-- The loop of `malloc`. -/
def mallocLoop (nunits : Nat) : Nat → Nat → Nat → HM (Option Nat)
  | 0, _, _ => throw .rounds
  | n + 1, prevp, p => do
    let s ← get
    if nunits ≤ (s.mem p).size then
      modify fun s => (s.take nunits prevp p).2
      pure (some ((s.take nunits prevp p).1 + unit))
    else if p = s.freep then
      match ← morecore n nunits with
      | none => pure none
      | some p =>
        let s ← get
        mallocLoop nunits n p (s.next p)
    else mallocLoop nunits n p (s.next p)

/-- The units for `nbytes` bytes and a header. -/
def nunits (nbytes : BitVec 32) : Nat := ((nbytes.toNat + unit - 1) / unit + 1) % 2 ^ 32

/-- `malloc`; the result is `none` for 0. -/
def malloc (base rounds : Nat) (nbytes : BitVec 32) : HM (Option Nat) := do
  let s ← get
  onlyIf (s.freep = 0) (modify fun s => { s.setHeader base ⟨base, 0⟩ with freep := base })
  let s ← get
  mallocLoop (nunits nbytes) rounds s.freep (s.next s.freep)

/-! ## The arena -/

namespace Heap

variable (s : Heap)

/-- The bytes of the block at `a`; a header takes a unit, whatever it says. -/
def extent (a : Nat) : Nat := unit * max 1 (s.mem a).size

variable {s} {a b : Nat} {h : Header}

@[simp] theorem setHeader_self : (s.setHeader a h).mem a = h := Function.update_self _ _ _

theorem setHeader_of_ne (hb : b ≠ a) : (s.setHeader a h).mem b = s.mem b :=
  Function.update_of_ne hb _ _

theorem next_setHeader (hb : b ≠ a) : (s.setHeader a h).next b = s.next b := by
  rw [next, setHeader_of_ne hb, next]

theorem extent_setHeader (hb : b ≠ a) : (s.setHeader a h).extent b = s.extent b := by
  rw [extent, setHeader_of_ne hb, extent]

theorem extent_pos : 0 < s.extent a := by
  simp only [extent, unit]
  omega

theorem extent_eq (ha : 1 ≤ (s.mem a).size) : s.extent a = unit * (s.mem a).size := by
  rw [extent, Nat.max_eq_right ha]

end Heap

/-- The blocks in the memory of the allocator: the free ones, apart from the static header, and
those in use. -/
def blocks (base : Nat) (used nodes : List Nat) : Set Nat :=
  {a | (a ∈ nodes ∧ a ≠ base) ∨ a ∈ used}

/-- The blocks are apart, in memory from `sbrk`, above the static header. -/
structure Layout (base : Nat) (s : Heap) (used nodes : List Nat) : Prop where
  nodup : nodes.Nodup
  base_mem : base ∈ nodes
  base_size : (s.mem base).size = 0
  used_nodup : used.Nodup
  free_used : ∀ a ∈ nodes, a ∉ used
  tiled : Tiled (blocks base used nodes) s.extent s.Owned
  above : ∀ i ∈ s.Owned, base + unit ≤ i ∧ i < s.top
  top : base + unit ≤ s.top

/-- The free blocks are a ring through the static header and `freep`. -/
structure Arena (base : Nat) (s : Heap) (used : List Nat) (p : Nat) (rest : List Nat) : Prop where
  layout : Layout base s used (p :: rest)
  ring : Trail s.next p rest p
  freep : s.freep ∈ p :: rest

section Arena

variable {base : Nat} {s : Heap} {used nodes rest : List Nat} {p bp : Nat} {a n nu q rounds : Nat}

theorem Layout.perm {used' nodes' : List Nat} (h : Layout base s used nodes)
    (hu : used'.Perm used) (hn : nodes'.Perm nodes) : Layout base s used' nodes' where
  nodup := hn.nodup_iff.mpr h.nodup
  base_mem := hn.mem_iff.mpr h.base_mem
  base_size := h.base_size
  used_nodup := hu.nodup_iff.mpr h.used_nodup
  free_used a ha := by
    rw [hu.mem_iff]
    exact h.free_used a (hn.mem_iff.mp ha)
  tiled := by
    have hblocks : blocks base used' nodes' = blocks base used nodes := by
      ext a
      simp only [blocks, Set.mem_ofPred_eq, hu.mem_iff, hn.mem_iff]
    rw [hblocks]
    exact h.tiled
  above := h.above
  top := h.top

theorem Layout.base_lt (h : Layout base s used nodes) (ha : a ∈ blocks base used nodes) :
    base + 16 ≤ a := by
  have hpos := h.tiled.pos a ha
  exact (h.above a (h.tiled.inside a ha a le_rfl (by omega))).1

theorem Arena.rotate (h : Arena base s used p rest) {a : Nat} (ha : a ∈ p :: rest) :
    ∃ rest', Arena base s used a rest' := by
  obtain ⟨rest', hring, hperm⟩ := h.ring.rotate ha
  exact ⟨rest', h.layout.perm (List.Perm.refl _) hperm, hring, hperm.mem_iff.mpr h.freep⟩

theorem freeLoop_mem {n a : Nat} (h : Trail s.next p rest p) (ha : a ∈ p :: rest) {q : Nat}
    (hq : freeLoop s bp n a = some q) : q ∈ p :: rest := by
  induction n generalizing a with
  | zero => cases hq
  | succ n ih =>
    rw [freeLoop] at hq
    split_ifs at hq
    · cases hq
      exact ha
    · cases hq
      exact ha
    · exact ih (h.closed ha) hq

/-- **The block behind**: `bp` is joined with it or points to it; then `bp` is followed by the rest
of the ring. -/
theorem joinUpper_spec (h : Layout base s (bp :: used) (p :: rest)) (hring : Trail s.next p rest p)
    (hsize : 1 ≤ (s.mem bp).size) :
    ∃ r, Layout base (s.joinUpper bp (s.next p)) (bp :: used) (p :: r) ∧
      Trail (s.joinUpper bp (s.next p)).next bp r p := by
  have hbp : bp ∈ bp :: used := mem_cons_self
  have hnode : ∀ a ∈ p :: rest, a ≠ bp := fun a ha hab => h.free_used a ha (hab ▸ hbp)
  have hbase := h.base_lt (.inr hbp)
  rw [joinUpper]
  split
  · rename_i hjoin
    simp only [unit] at hjoin
    -- the block behind is not the static header, so it is another node of the ring
    obtain ⟨q, rest', rfl⟩ : ∃ q rest', rest = q :: rest' := by
      cases rest with
      | nil =>
        have hp : base = p := List.mem_singleton.mp h.base_mem
        have hnext : s.next p = p := hring
        omega
      | cons q rest' => exact ⟨q, rest', rfl⟩
    obtain ⟨hq, hrest⟩ := hring
    rw [hq] at hjoin ⊢
    have hqb : q ≠ base := by omega
    have hqmem : q ∈ p :: q :: rest' := mem_cons_of_mem p mem_cons_self
    obtain ⟨hpq, hqr⟩ := List.nodup_cons.mp h.nodup
    have hsub : ∀ a ∈ p :: rest', a ∈ p :: q :: rest' ∧ a ≠ q := by
      intro a ha
      rcases mem_cons.mp ha with rfl | ha
      · exact ⟨mem_cons_self, fun haq => hpq (haq ▸ mem_cons_self)⟩
      · refine ⟨mem_cons_of_mem p (mem_cons_of_mem q ha), fun haq => ?_⟩
        exact (List.nodup_cons.mp hqr).1 (haq ▸ ha)
    refine ⟨rest', ⟨?_, ?_, ?_, h.used_nodup, fun a ha => h.free_used a (hsub a ha).1, ?_, h.above,
      h.top⟩, ?_⟩
    · exact List.nodup_cons.mpr ⟨fun hp => hpq (mem_cons_of_mem q hp),
        (List.nodup_cons.mp hqr).2⟩
    · have := h.base_mem
      simp only [mem_cons] at this ⊢
      tauto
    · rw [setHeader_of_ne (by omega), h.base_size]
    · refine h.tiled.join (.inr hbp) (.inl ⟨hqmem, hqb⟩) (by rw [extent_eq hsize]; exact hjoin)
        ?_ extent_pos ?_ fun c hc => extent_setHeader hc
      · rintro c (⟨hc, hcb⟩ | hc)
        · exact ⟨.inl ⟨(hsub c hc).1, hcb⟩, (hsub c hc).2⟩
        · exact ⟨.inr hc, fun hcq => h.free_used q hqmem (hcq ▸ hc)⟩
      · rw [extent_eq hsize, extent, extent, setHeader_self]
        have := Nat.mod_le ((s.mem bp).size + (s.mem q).size) (2 ^ 32)
        simp only [unit]
        omega
    · refine hrest.from_head ?_ fun c hc => ?_
      · rw [next, setHeader_self]
        rfl
      · exact next_setHeader (hnode c (mem_cons_of_mem p (mem_cons_of_mem q hc)))
  · refine ⟨rest, ⟨h.nodup, h.base_mem, ?_, h.used_nodup, h.free_used, ?_, h.above, h.top⟩, ?_⟩
    · rw [setHeader_of_ne (by omega), h.base_size]
    · refine h.tiled.mono (fun c hc => ⟨hc, extent_pos, ?_⟩) subset_rfl
      by_cases hcb : c = bp
      · rw [hcb, extent, setHeader_self]
        exact le_rfl
      · rw [extent_setHeader hcb]
    · refine hring.from_head ?_ fun c hc => ?_
      · rw [next, setHeader_self]
      · exact next_setHeader (hnode c (mem_cons_of_mem p hc))

/-- **The block before**: it is joined with `bp` or points to it, and the ring is closed. -/
theorem joinLower_spec {r : List Nat} (h : Layout base s (bp :: used) (p :: r))
    (hpath : Trail s.next bp r p) : ∃ rest, Layout base (s.joinLower p bp) used (p :: rest) ∧
      Trail (s.joinLower p bp).next p rest p := by
  have hbp : bp ∈ bp :: used := mem_cons_self
  have hnode : ∀ a ∈ p :: r, a ≠ bp := fun a ha hab => h.free_used a ha (hab ▸ hbp)
  have hp : p ∈ p :: r := mem_cons_self
  have hbpp : p ≠ bp := hnode p hp
  have hpr := (List.nodup_cons.mp h.nodup).1
  obtain ⟨hbpu, hused⟩ := List.nodup_cons.mp h.used_nodup
  have hsub : ∀ a ∈ used, a ∈ bp :: used := fun a ha => mem_cons_of_mem bp ha
  have hbase := h.base_lt (.inr hbp)
  rw [joinLower]
  split
  · rename_i hjoin
    simp only [unit] at hjoin
    have hsize : 1 ≤ (s.mem p).size := by omega
    have hpb : p ≠ base := by
      rintro rfl
      rw [h.base_size] at hsize
      omega
    refine ⟨r, ⟨h.nodup, h.base_mem, ?_, hused, fun a ha hau => h.free_used a ha (hsub a hau), ?_,
      h.above, h.top⟩, ?_⟩
    · rw [setHeader_of_ne (Ne.symm hpb), h.base_size]
    · refine h.tiled.join (.inl ⟨hp, hpb⟩) (.inr hbp) (by rw [extent_eq hsize]; exact hjoin)
        ?_ extent_pos ?_ fun c hc => extent_setHeader hc
      · rintro c (⟨hc, hcb⟩ | hc)
        · exact ⟨.inl ⟨hc, hcb⟩, hnode c hc⟩
        · exact ⟨.inr (hsub c hc), fun hcbp => hbpu (hcbp ▸ hc)⟩
      · rw [extent_eq hsize, extent, extent, setHeader_self]
        have := Nat.mod_le ((s.mem p).size + (s.mem bp).size) (2 ^ 32)
        simp only [unit]
        omega
    · refine hpath.from_head ?_ fun c hc => ?_
      · rw [next, setHeader_self]
        rfl
      · exact next_setHeader fun hcp => hpr (hcp ▸ hc)
  · refine ⟨bp :: r, ⟨?_, ?_, ?_, hused, ?_, ?_, h.above, h.top⟩, ?_, ?_⟩
    · have hbr : bp ∉ r := fun hb => hnode bp (mem_cons_of_mem p hb) rfl
      refine List.nodup_cons.mpr ⟨?_, List.nodup_cons.mpr ⟨hbr, (List.nodup_cons.mp h.nodup).2⟩⟩
      rw [mem_cons, not_or]
      exact ⟨hbpp, hpr⟩
    · have := h.base_mem
      simp only [mem_cons] at this ⊢
      tauto
    · by_cases hpb : base = p
      · rw [← hpb, setHeader_self]
        exact h.base_size
      · rw [setHeader_of_ne hpb, h.base_size]
    · intro a ha hau
      rcases mem_cons.mp ha with rfl | ha
      · exact h.free_used a hp (hsub a hau)
      · rcases mem_cons.mp ha with rfl | ha
        · exact hbpu hau
        · exact h.free_used a (mem_cons_of_mem p ha) (hsub a hau)
    · refine h.tiled.mono (fun c hc => ⟨?_, extent_pos, ?_⟩) subset_rfl
      · rcases hc with ⟨hc, hcb⟩ | hc
        · simp only [mem_cons] at hc
          rcases hc with rfl | rfl | hc
          · exact .inl ⟨hp, hcb⟩
          · exact .inr hbp
          · exact .inl ⟨mem_cons_of_mem p hc, hcb⟩
        · exact .inr (hsub c hc)
      · by_cases hcp : c = p
        · rw [hcp, extent, setHeader_self]
          exact le_rfl
        · rw [extent_setHeader hcp]
    · rw [next, setHeader_self]
    · exact hpath.from_head (next_setHeader (Ne.symm hbpp)) fun c hc =>
        next_setHeader fun hcp => hpr (hcp ▸ hc)

theorem joinUpper_mem (ha : a ≠ bp) : (s.joinUpper bp q).mem a = s.mem a := by
  rw [joinUpper]
  split <;> exact setHeader_of_ne ha

theorem joinLower_mem {a : Nat} (ha : a ≠ p) : (s.joinLower p bp).mem a = s.mem a := by
  rw [joinLower]
  split <;> exact setHeader_of_ne ha

theorem joinUpper_regions (q : Nat) :
    (s.joinUpper bp q).regions = s.regions ∧ (s.joinUpper bp q).top = s.top := by
  rw [joinUpper]
  split <;> exact ⟨rfl, rfl⟩

theorem joinLower_regions :
    (s.joinLower p bp).regions = s.regions ∧ (s.joinLower p bp).top = s.top := by
  rw [joinLower]
  split <;> exact ⟨rfl, rfl⟩

/-- **`free`** puts the block into the ring, and leaves the headers of the blocks in use alone. -/
theorem free_spec (h : Arena base s (bp :: used) p rest) (hsize : 1 ≤ (s.mem bp).size) :
    wp (free rounds (bp + unit)) (fun _ s' => (∃ p rest, Arena base s' used p rest) ∧
      s'.regions = s.regions ∧ ∀ a ∈ used, s'.mem a = s.mem a) (fun _ _ => True) s := by
  simp only [free, wp_bind, wp_get, Nat.add_sub_cancel]
  cases hloop : freeLoop s bp rounds s.freep with
  | none => trivial
  | some q =>
    rw [wp_modify]
    have hq := freeLoop_mem h.ring h.freep hloop
    obtain ⟨rest, hq⟩ := h.rotate hq
    obtain ⟨r, hlayout, hpath⟩ := joinUpper_spec hq.layout hq.ring hsize
    obtain ⟨rest', hlayout', hring⟩ := joinLower_spec hlayout hpath
    refine ⟨⟨q, rest', ⟨?_, hring, mem_cons_self⟩⟩, ?_, fun a ha => ?_⟩
    · exact ⟨hlayout'.nodup, hlayout'.base_mem, hlayout'.base_size, hlayout'.used_nodup,
        hlayout'.free_used, hlayout'.tiled, hlayout'.above, hlayout'.top⟩
    · exact joinLower_regions.1.trans (joinUpper_regions _).1
    · have hau : a ∈ bp :: used := mem_cons_of_mem bp ha
      have haq : a ≠ q := fun haq => hq.layout.free_used q mem_cons_self (haq ▸ hau)
      have hab : a ≠ bp := fun hab =>
        (List.nodup_cons.mp hq.layout.used_nodup).1 (hab ▸ ha)
      change ((s.joinUpper bp (s.next q)).joinLower q bp).mem a = s.mem a
      rw [joinLower_mem haq, joinUpper_mem hab]

theorem free_regions (rounds ap : Nat) :
    wp (free rounds ap) (fun _ s' => s'.regions = s.regions) (fun _ _ => True) s := by
  simp only [free, wp_bind, wp_get]
  split
  · trivial
  · exact joinLower_regions.1.trans (joinUpper_regions _).1

theorem sbrkArg_eq (h : nu * unit < 2 ^ 31) : sbrkArg nu = (nu * unit : Nat) := by
  have hnat : (BitVec.ofNat 32 (nu * unit)).toNat = nu * unit := by
    rw [BitVec.toNat_ofNat, Nat.mod_eq_of_lt (by omega)]
  rw [sbrkArg, BitVec.toInt_eq_toNat_of_lt (by rw [hnat]; omega), hnat]

theorem one_le_coreUnits (nu : Nat) : 1 ≤ coreUnits nu := by
  unfold coreUnits
  split <;> omega

/-- The heap with a new region, whose header is filled in. -/
def Heap.grow (s : Heap) (a nu bytes : Nat) (answers : List (Option Nat)) : Heap :=
  { s with
    mem := Function.update s.mem a { s.mem a with size := nu }
    top := a + bytes
    regions := (a, bytes) :: s.regions
    answers := answers }

/-- **A region of the size asked for** is a new block in use. -/
theorem Arena.grow (h : Arena base s used p rest) (answers : List (Option Nat))
    (ha : s.top ≤ a) (hnu : 1 ≤ nu) :
    Arena base (s.grow a nu (nu * unit) answers) (a :: used) p rest := by
  have htop := h.layout.top
  have hlt : ∀ c ∈ blocks base used (p :: rest), c < a := by
    intro c hc
    have hpos := h.layout.tiled.pos c hc
    have := (h.layout.above c (h.layout.tiled.inside c hc c le_rfl (by omega))).2
    omega
  have hnode : ∀ c ∈ p :: rest, c ≠ a := by
    intro c hc hca
    by_cases hcb : c = base
    · simp only [unit] at htop
      omega
    · have := hlt c (.inl ⟨hc, hcb⟩)
      omega
  have hother : ∀ c, c ≠ a → (s.grow a nu (nu * unit) answers).mem c = s.mem c := fun c hc =>
    Function.update_of_ne hc _ _
  have hnew : (s.grow a nu (nu * unit) answers).extent a = nu * unit := by
    have hself : ((s.grow a nu (nu * unit) answers).mem a).size = nu := by
      simp [Heap.grow]
    rw [extent_eq (by rw [hself]; exact hnu), hself, Nat.mul_comm]
  have howned : ∀ i, i ∈ (s.grow a nu (nu * unit) answers).Owned ↔
      (a ≤ i ∧ i < a + nu * unit) ∨ i ∈ s.Owned := by
    intro i
    change (∃ r ∈ (a, nu * unit) :: s.regions, r.1 ≤ i ∧ i < r.1 + r.2) ↔ _
    rw [List.exists_mem_cons_iff]
    rfl
  refine ⟨⟨h.layout.nodup, h.layout.base_mem, ?_, ?_, ?_, ?_, ?_, ?_⟩, ?_, h.freep⟩
  · rw [hother base (hnode base h.layout.base_mem), h.layout.base_size]
  · refine List.nodup_cons.mpr ⟨fun hau => ?_, h.layout.used_nodup⟩
    exact absurd (hlt a (.inr hau)) (Nat.lt_irrefl a)
  · intro c hc
    rw [mem_cons, not_or]
    exact ⟨hnode c hc, h.layout.free_used c hc⟩
  · have hold : Tiled (blocks base used (p :: rest)) (s.grow a nu (nu * unit) answers).extent
        s.Owned := by
      refine h.layout.tiled.mono (fun c hc => ⟨hc, extent_pos, ?_⟩) subset_rfl
      rw [extent, hother c (Nat.ne_of_lt (hlt c hc)), extent]
    have hblocks : blocks base (a :: used) (p :: rest) =
        Insert.insert a (blocks base used (p :: rest)) := by
      ext c
      simp only [blocks, Set.mem_insert_iff, Set.mem_ofPred_eq, mem_cons]
      tauto
    rw [hblocks]
    refine hold.insert extent_pos (fun i hi => ?_) (fun i hlo hhi => ?_) fun i hi => ?_
    · have := (h.layout.above i hi).2
      omega
    · rw [hnew] at hhi
      exact (howned i).mpr (.inl ⟨hlo, hhi⟩)
    · exact (howned i).mpr (.inr hi)
  · intro i hi
    change base + unit ≤ i ∧ i < a + nu * unit
    rcases (howned i).mp hi with hi | hi
    · omega
    · have := h.layout.above i hi
      omega
  · change base + unit ≤ a + nu * unit
    omega
  · exact h.ring.congr fun c hc => by rw [next, hother c (hnode c hc), next]

/-- What a call may do to the arena: it keeps the headers of the blocks in use. -/
structure Keeps (base : Nat) (used : List Nat) (s s' : Heap) : Prop where
  arena : ∃ p rest, Arena base s' used p rest
  mem : ∀ a ∈ used, s'.mem a = s.mem a

/-- **`morecore`** adds a free block, if the number of its bytes is an `int`. -/
theorem morecore_spec (hint : coreUnits nu * unit < 2 ^ 31) (h : Arena base s used p rest) :
    wp (morecore rounds nu) (fun o s' => Keeps base used s s' ∧ ∀ f, o = some f → f = s'.freep)
      (fun _ _ => True) s := by
  -- a call that fails changes no header
  have hfail : ∀ answers, Keeps base used s { s with answers := answers } := fun answers =>
    ⟨⟨p, rest, ⟨h.layout.nodup, h.layout.base_mem, h.layout.base_size, h.layout.used_nodup,
      h.layout.free_used, h.layout.tiled, h.layout.above, h.layout.top⟩, h.ring, h.freep⟩,
      fun _ _ => rfl⟩
  have hnone : ∀ f, (none : Option Nat) = some f → f = s.freep := fun f hf =>
    absurd hf (Option.some_ne_none f).symm
  rw [morecore, wp_bind, sbrk, wp_bind, wp_get]
  cases hans : s.answers with
  | nil => exact ⟨hfail s.answers, hnone⟩
  | cons o answers =>
    cases o with
    | none =>
      simp only [wp_bind, wp_modify, wp_pure]
      exact ⟨hfail answers, hnone⟩
    | some a =>
      apply wp_ite
      · intro ha
        simp only [wp_bind, wp_modify, wp_pure, wp_get]
        change wp (free rounds (a + unit)) _ _
          (s.grow a (coreUnits nu) (sbrkArg (coreUnits nu)).toNat answers)
        rw [sbrkArg_eq hint, Int.toNat_natCast]
        have hgrow := h.grow answers ha (one_le_coreUnits nu)
        have hsize : 1 ≤ ((s.grow a (coreUnits nu) (coreUnits nu * unit) answers).mem a).size := by
          simp [grow, one_le_coreUnits]
        refine wp_post (free_spec hgrow hsize) ?_
        rintro _ s' ⟨harena, -, hmem⟩
        refine ⟨⟨harena, fun c hc => ?_⟩, fun f hf => (Option.some.inj hf).symm⟩
        have hca : c ≠ a := fun hca => (List.nodup_cons.mp hgrow.layout.used_nodup).1 (hca ▸ hc)
        rw [hmem c hc]
        exact Function.update_of_ne hca _ _
      · intro _
        simp only [wp_bind, wp_modify, wp_pure]
        exact ⟨hfail answers, hnone⟩

/-- What `malloc` does to the arena: the block at `hp` is in use now, with `n` units. -/
structure Gives (base : Nat) (used : List Nat) (n hp : Nat) (s s' : Heap) : Prop where
  arena : ∃ p rest, Arena base s' (hp :: used) p rest
  size : (s'.mem hp).size = n
  mem : ∀ a ∈ used, s'.mem a = s.mem a

/-- **A whole block** is taken out of the ring. -/
theorem unlink_spec (h : Arena base s used p (q :: rest)) (hq : 1 ≤ (s.mem q).size) :
    Gives base used (s.mem q).size q s (s.unlink p q) := by
  obtain ⟨-, hpath⟩ := h.ring
  have hp : p ∈ p :: q :: rest := mem_cons_self
  have hqmem : q ∈ p :: q :: rest := mem_cons_of_mem p mem_cons_self
  obtain ⟨hpq, hqr⟩ := List.nodup_cons.mp h.layout.nodup
  obtain ⟨hqrest, hrest⟩ := List.nodup_cons.mp hqr
  have hqp : q ≠ p := fun hqp => hpq (hqp ▸ mem_cons_self)
  have hqb : q ≠ base := by
    rintro rfl
    rw [h.layout.base_size] at hq
    omega
  have hother : ∀ a, a ≠ p → (s.unlink p q).mem a = s.mem a := fun a ha =>
    setHeader_of_ne ha
  have hself : (s.unlink p q).mem p = ⟨s.next q, (s.mem p).size⟩ := setHeader_self
  have hsize : ∀ a, ((s.unlink p q).mem a).size = (s.mem a).size := by
    intro a
    by_cases hap : a = p
    · rw [hap, hself]
    · rw [hother a hap]
  refine ⟨⟨p, rest, ⟨?_, ?_, ?_, ?_, ?_, ?_, h.layout.above, h.layout.top⟩, ?_, ?_⟩, hsize q,
    fun a ha => hother a fun hap => h.layout.free_used p hp (hap ▸ ha)⟩
  · exact List.nodup_cons.mpr ⟨fun hpr => hpq (mem_cons_of_mem q hpr), hrest⟩
  · have := h.layout.base_mem
    simp only [mem_cons] at this ⊢
    tauto
  · rw [hsize, h.layout.base_size]
  · exact List.nodup_cons.mpr ⟨h.layout.free_used q hqmem, h.layout.used_nodup⟩
  · intro a ha
    rw [mem_cons, not_or]
    rcases mem_cons.mp ha with rfl | ha
    · exact ⟨Ne.symm hqp, h.layout.free_used a hp⟩
    · exact ⟨fun haq => hqrest (haq ▸ ha),
        h.layout.free_used a (mem_cons_of_mem p (mem_cons_of_mem q ha))⟩
  · refine h.layout.tiled.mono (fun c hc => ⟨?_, extent_pos, ?_⟩) subset_rfl
    · simp only [blocks, Set.mem_ofPred_eq, mem_cons] at hc ⊢
      rcases hc with ⟨rfl | hc, hcb⟩ | rfl | hc
      · exact .inl ⟨.inl rfl, hcb⟩
      · exact .inl ⟨.inr (.inr hc), hcb⟩
      · exact .inl ⟨.inr (.inl rfl), hqb⟩
      · exact .inr hc
    · rw [extent, hsize, extent]
  · refine hpath.from_head ?_ fun c hc => ?_
    · rw [next, hself]
    · rw [next, hother c fun hcp => hpq (hcp ▸ mem_cons_of_mem q hc), next]
  · exact mem_cons_self

/-- **The end of a block** is cut off. -/
theorem cut_spec (h : Arena base s used p (q :: rest)) (hn : 1 ≤ n)
    (hlt : n < (s.mem q).size) : Gives base used n (s.tail n q) s (s.cut n p q) := by
  have hqmem : q ∈ p :: q :: rest := mem_cons_of_mem p mem_cons_self
  have hqb : q ≠ base := by
    rintro rfl
    rw [h.layout.base_size] at hlt
    omega
  have hqblock : q ∈ blocks base used (p :: q :: rest) := .inl ⟨hqmem, hqb⟩
  have hextent : s.extent q = unit * (s.mem q).size := extent_eq (by omega)
  have htail : q < s.tail n q ∧ s.tail n q < q + s.extent q := by
    simp only [tail, hextent, unit]
    omega
  have hnew : s.tail n q ∉ blocks base used (p :: q :: rest) :=
    h.layout.tiled.not_mem hqblock htail.1 htail.2
  have hbase := h.layout.base_lt hqblock
  have hnode : ∀ a ∈ p :: q :: rest, a ≠ s.tail n q := by
    intro a ha heq
    by_cases hab : a = base
    · omega
    · exact hnew (heq ▸ .inl ⟨ha, hab⟩)
  have hused : ∀ a ∈ used, a ≠ s.tail n q := fun a ha heq => hnew (heq ▸ .inr ha)
  have hother : ∀ a, a ≠ q → a ≠ s.tail n q → (s.cut n p q).mem a = s.mem a := by
    intro a haq hat
    exact (setHeader_of_ne hat).trans (setHeader_of_ne haq)
  have hq' : (s.cut n p q).mem q = ⟨s.next q, (s.mem q).size - n⟩ :=
    (setHeader_of_ne (hnode q hqmem)).trans setHeader_self
  have ht' : ((s.cut n p q).mem (s.tail n q)).size = n := by
    rw [cut]
    exact congrArg Header.size setHeader_self
  refine ⟨⟨p, q :: rest, ⟨h.layout.nodup, h.layout.base_mem, ?_, ?_, ?_, ?_, h.layout.above,
    h.layout.top⟩, ?_, ?_⟩, ht', fun a ha => ?_⟩
  · rw [hother base (Ne.symm hqb) (hnode base h.layout.base_mem), h.layout.base_size]
  · exact List.nodup_cons.mpr ⟨fun ht => hused _ ht rfl, h.layout.used_nodup⟩
  · intro a ha
    rw [mem_cons, not_or]
    exact ⟨hnode a ha, h.layout.free_used a ha⟩
  · have hblocks : blocks base (s.tail n q :: used) (p :: q :: rest) =
        Insert.insert (s.tail n q) (blocks base used (p :: q :: rest)) := by
      ext c
      simp only [blocks, Set.mem_insert_iff, Set.mem_ofPred_eq, mem_cons]
      tauto
    have hcut : (s.cut n p q).extent q = unit * ((s.mem q).size - n) := by
      rw [extent_eq (by rw [hq']; dsimp only; omega), hq']
    have hend : (s.cut n p q).extent (s.tail n q) = unit * n := by
      rw [extent_eq (by rw [ht']; exact hn), ht']
    rw [hblocks]
    refine h.layout.tiled.split hqblock (by rw [hcut, tail]) extent_pos extent_pos
      ?_ fun c hcq hct => by rw [extent, hother c hcq hct, extent]
    rw [hcut, hend, hextent]
    simp only [unit]
    omega
  · refine h.ring.congr fun c hc => ?_
    by_cases hcq : c = q
    · rw [hcq, next, hq']
    · rw [next, hother c hcq (hnode c hc), next]
  · exact mem_cons_self
  · exact hother a (fun haq => h.layout.free_used q hqmem (haq ▸ ha)) (hused a ha)

/-- **A block is taken** after `p`. -/
theorem take_spec (h : Arena base s used p rest) (hn : 1 ≤ n)
    (hfits : n ≤ (s.mem (s.next p)).size) :
    Gives base used n (s.take n p (s.next p)).1 s (s.take n p (s.next p)).2 := by
  -- the static header has no units to give
  obtain ⟨q, rest', rfl⟩ : ∃ q rest', rest = q :: rest' := by
    cases rest with
    | nil =>
      have hpb : base = p := List.mem_singleton.mp h.layout.base_mem
      have hnext : s.next p = p := h.ring
      rw [hnext, ← hpb, h.layout.base_size] at hfits
      omega
    | cons q rest' => exact ⟨q, rest', rfl⟩
  have hq := h.ring.1
  rw [hq] at hfits ⊢
  rw [take]
  split
  · rename_i hexact
    rw [← hexact]
    exact unlink_spec h (by omega)
  · exact cut_spec h hn (by omega)

theorem take_regions (n q : Nat) : (s.take n p q).2.regions = s.regions := by
  rw [take]
  split <;> rfl

/-- Memory is not given back. -/
def Grows (s s' : Heap) : Prop := s.regions.length ≤ s'.regions.length

instance : IsPreorder Heap Grows where
  refl _ := le_rfl
  trans _ _ _ h h' := Nat.le_trans h h'

theorem morecore_grows (rounds nu : Nat) : Obeys (morecore rounds nu) Grows fun _ => True := by
  have hsbrk : ∀ n, Obeys (sbrk n) Grows fun _ => True := by
    intro n
    constructor
    intro s
    rw [sbrk, wp_bind, wp_get]
    split
    · apply wp_ite
      · exact fun _ => Nat.le_succ _
      · exact fun _ => le_rfl
    · exact le_rfl
    · exact le_rfl
  refine Obeys.bind (hsbrk _) fun o => ?_
  cases o with
  | none => exact Obeys.pure none
  | some hp =>
    refine Obeys.bind (Obeys.modify fun s => le_rfl) fun _ => ?_
    refine Obeys.bind ⟨fun s => ?_⟩ fun _ => Obeys.bind Obeys.get fun s => Obeys.pure _
    exact wp_post (free_regions rounds (hp + unit)) fun _ s' hs => Nat.le_of_eq (by rw [hs])

theorem mallocLoop_grows (n rounds prevp p : Nat) :
    Obeys (mallocLoop n rounds prevp p) Grows fun _ => True := by
  induction rounds generalizing prevp p with
  | zero => exact Obeys.throw trivial
  | succ rounds ih =>
    refine Obeys.bind Obeys.get fun s => Obeys.ite (fun _ => ?_) fun _ =>
      Obeys.ite (fun _ => ?_) fun _ => ih _ _
    · refine Obeys.bind (Obeys.modify fun s => ?_) fun _ => Obeys.pure _
      exact Nat.le_of_eq (by rw [take_regions])
    · refine Obeys.bind (morecore_grows _ _) fun o => ?_
      cases o with
      | none => exact Obeys.pure none
      | some p => exact Obeys.bind Obeys.get fun s => ih _ _

/-- What `malloc` returns. -/
def Mallocs (base : Nat) (used : List Nat) (n : Nat) (s : Heap) (o : Option Nat) (s' : Heap) :
    Prop :=
  match o with
  | none => Keeps base used s s'
  | some ptr => ∃ hp, ptr = hp + unit ∧ Gives base used n hp s s'

theorem Mallocs.trans {s₁ s' : Heap} {o : Option Nat} (h : Mallocs base used n s₁ o s')
    (hmem : ∀ a ∈ used, s₁.mem a = s.mem a) : Mallocs base used n s o s' := by
  cases o with
  | none => exact ⟨h.arena, fun a ha => (h.mem a ha).trans (hmem a ha)⟩
  | some ptr =>
    obtain ⟨hp, rfl, hgives⟩ := h
    exact ⟨hp, rfl, hgives.arena, hgives.size, fun a ha => (hgives.mem a ha).trans (hmem a ha)⟩

theorem mallocLoop_spec (hint : coreUnits n * unit < 2 ^ 31) (h : Arena base s used p rest)
    (hn : 1 ≤ n) :
    wp (mallocLoop n rounds p (s.next p)) (Mallocs base used n s) (fun _ _ => True) s := by
  induction rounds generalizing s p rest with
  | zero => trivial
  | succ rounds ih =>
    have hnext := h.ring.closed mem_cons_self
    obtain ⟨rest1, h1⟩ := h.rotate hnext
    rw [mallocLoop, wp_bind, wp_get]
    apply wp_ite
    · intro hfits
      exact ⟨_, rfl, take_spec h hn hfits⟩
    · intro _
      apply wp_ite
      · intro _
        rw [wp_bind]
        refine wp_post (morecore_spec hint h) ?_
        rintro o s1 ⟨hkeeps, hf⟩
        cases o with
        | none => exact hkeeps
        | some f =>
          obtain ⟨⟨p1, rest2, h2⟩, hmem⟩ := hkeeps
          obtain ⟨rest3, h3⟩ := h2.rotate h2.freep
          rw [wp_bind, wp_get, hf f rfl]
          exact wp_post (ih h3) fun o s' hs' => hs'.trans hmem
      · intro _
        exact ih h1

/-- The state of the allocator before its first call. -/
structure Untouched (base : Nat) (s : Heap) : Prop where
  freep : s.freep = 0
  regions : s.regions = []
  top : base + unit ≤ s.top

theorem Untouched.arena (h : Untouched base s) :
    Arena base { s.setHeader base ⟨base, 0⟩ with freep := base } [] base [] := by
  have hnone : ∀ i, i ∉ s.Owned := by
    rintro i ⟨r, hr, -⟩
    rw [h.regions] at hr
    cases hr
  have hblocks : ∀ a, a ∉ blocks base [] [base] := by
    rintro a (⟨ha, hab⟩ | ha)
    · exact hab (List.mem_singleton.mp ha)
    · cases ha
  refine ⟨⟨List.nodup_singleton base, List.mem_singleton_self base, ?_, List.nodup_nil,
    fun _ _ => List.not_mem_nil, ?_, fun i hi => absurd hi (hnone i), h.top⟩, ?_,
    List.mem_singleton_self base⟩
  · exact congrArg Header.size setHeader_self
  · exact ⟨fun a ha => absurd ha (hblocks a), fun a ha => absurd ha (hblocks a),
      fun a ha => absurd ha (hblocks a)⟩
  · exact congrArg Header.ptr setHeader_self

theorem one_le_nunits (nbytes : BitVec 32) :
    1 ≤ nunits nbytes ∧ nbytes.toNat + unit ≤ unit * nunits nbytes := by
  have := nbytes.isLt
  simp only [nunits, unit]
  omega

/-- **`malloc`** on a ring of free blocks. -/
theorem malloc_spec {nbytes : BitVec 32} (hbase : 0 < base)
    (hint : coreUnits (nunits nbytes) * unit < 2 ^ 31) (h : Arena base s used p rest) :
    wp (malloc base rounds nbytes) (Mallocs base used (nunits nbytes) s) (fun _ _ => True) s := by
  have hfreep : s.freep ≠ 0 := by
    by_cases hfb : s.freep = base
    · omega
    · have := h.layout.base_lt (.inl ⟨h.freep, hfb⟩)
      omega
  obtain ⟨rest', h'⟩ := h.rotate h.freep
  simp only [malloc, wp_bind, wp_get, onlyIf, if_neg hfreep, wp_pure]
  exact mallocLoop_spec hint h' (one_le_nunits nbytes).1

/-- **The first call of `malloc`.** -/
theorem malloc_first {nbytes : BitVec 32} (hint : coreUnits (nunits nbytes) * unit < 2 ^ 31)
    (h : Untouched base s) :
    wp (malloc base rounds nbytes) (Mallocs base [] (nunits nbytes) s) (fun _ _ => True) s := by
  simp only [malloc, wp_bind, wp_get, onlyIf, if_pos h.freep, wp_modify]
  exact wp_post (mallocLoop_spec hint h.arena (one_le_nunits nbytes).1) fun _ _ hs' =>
    hs'.trans fun a ha => absurd ha List.not_mem_nil

end Arena

end Umalloc

end Xv6Paging
