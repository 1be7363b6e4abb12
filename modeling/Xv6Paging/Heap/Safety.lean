import Mathlib.Logic.Relation
import Xv6Paging.Heap.Malloc

/-!
# Safety of the user's heap

A program calls `malloc` and `free`, and writes to the memory it was given.  In every run in which
no call asks for more than an `int` of bytes, the allocations are apart, in memory from `sbrk`, and
away from the headers.

`morecore` computes the number of bytes in 64 bits and passes it to `sbrk` as an `int`.  From 2 GB
on the number that arrives is negative or wraps around, and `malloc` returns memory that it does not
have.
-/

namespace Xv6Paging

open StateHalt Pointers Blocks

namespace Umalloc

/-- An allocation: its header and its size.  The program has the address behind the header. -/
structure Alloc where
  hp : Nat
  nbytes : Nat
  deriving DecidableEq

def Alloc.ptr (a : Alloc) : Nat := a.hp + unit

/-- A program with its heap and its allocations. -/
structure User where
  heap : Heap
  live : List Alloc

/-- The calls of the allocator, and writes to allocations. -/
inductive UserCall
  | malloc (nbytes : BitVec 32)
  | free
  | write

/-- The allocations after `malloc` returned. -/
def User.got (s : User) (nbytes : BitVec 32) : Option Nat → List Alloc
  | none => s.live
  | some p => ⟨p - unit, nbytes.toNat⟩ :: s.live

/-- A step of the program.  It frees allocations only, and writes to allocations only: a header
keeps its value if no byte of it lies in an allocation. -/
inductive UserStep (base : Nat) : User → UserCall → User → Prop
  | malloc {s : User} {o : Option Nat} {heap : Heap} (nbytes : BitVec 32) (rounds : Nat) :
      malloc base rounds nbytes s.heap = .ok o heap →
      UserStep base s (.malloc nbytes) ⟨heap, s.got nbytes o⟩
  | free {s : User} {heap : Heap} (a : Alloc) (rounds : Nat) : a ∈ s.live →
      free rounds a.ptr s.heap = .ok () heap → UserStep base s .free ⟨heap, s.live.erase a⟩
  | write {s : User} (mem : Nat → Header) :
      (∀ c, (∀ a ∈ s.live, c + unit ≤ a.ptr ∨ a.ptr + a.nbytes ≤ c) → mem c = s.heap.mem c) →
      UserStep base s .write ⟨{ s.heap with mem := mem }, s.live⟩

/-- The headers of the allocator: the static one, those of the allocations, and the free ones. -/
def User.IsHeader (base : Nat) (s : User) (c : Nat) : Prop :=
  c = base ∨ (∃ a ∈ s.live, c = a.hp) ∨
    (s.heap.freep ≠ 0 ∧ ∃ k, c = s.heap.next^[k] s.heap.freep)

/-- The allocations lie in memory from `sbrk`, apart from each other and from all headers. -/
structure HeapSafe (base : Nat) (s : User) : Prop where
  inside : ∀ a ∈ s.live, ∀ i, a.ptr ≤ i → i < a.ptr + a.nbytes → i ∈ s.heap.Owned
  apart : s.live.Pairwise fun a b => a.ptr + a.nbytes ≤ b.ptr ∨ b.ptr + b.nbytes ≤ a.ptr
  headers : ∀ a ∈ s.live, ∀ c, s.IsHeader base c → c + unit ≤ a.ptr ∨ a.ptr + a.nbytes ≤ c

/-- `malloc` is asked for so few bytes that what it asks `sbrk` for is an `int`. -/
def Modest : UserCall → Prop
  | .malloc nbytes => nbytes.toNat ≤ 2 ^ 31 - 32
  | _ => True

instance : DecidablePred Modest
  | .malloc nbytes => inferInstanceAs (Decidable (nbytes.toNat ≤ 2 ^ 31 - 32))
  | .free => .isTrue trivial
  | .write => .isTrue trivial

/-! ## The invariant -/

/-- The allocations are blocks in use, large enough. -/
structure Serves (base : Nat) (s : User) (p : Nat) (rest : List Nat) : Prop where
  arena : Arena base s.heap (s.live.map Alloc.hp) p rest
  fits : ∀ a ∈ s.live, a.nbytes + unit ≤ unit * (s.heap.mem a.hp).size

/-- Before the first call, and from then on. -/
def HeapInv (base : Nat) (s : User) : Prop :=
  (Untouched base s.heap ∧ s.live = []) ∨ ∃ p rest, Serves base s p rest

section Invariant

variable {base : Nat} {s s' : User} {p : Nat} {rest : List Nat}

theorem Serves.extent_le {a : Alloc} (h : Serves base s p rest) (ha : a ∈ s.live) :
    a.nbytes + 16 ≤ s.heap.extent a.hp := by
  have hfits := h.fits a ha
  simp only [unit] at hfits
  rw [Heap.extent_eq (by omega)]
  exact hfits

theorem Alloc.block {a : Alloc} (ha : a ∈ s.live) :
    a.hp ∈ blocks base (s.live.map Alloc.hp) (p :: rest) := .inr (List.mem_map_of_mem ha)

/-- **Headers and allocations are apart.** -/
theorem Serves.header_apart {a : Alloc} {c : Nat} (h : Serves base s p rest) (ha : a ∈ s.live)
    (hc : c ∈ p :: rest ∨ c ∈ s.live.map Alloc.hp) : c + unit ≤ a.ptr ∨ a.ptr + a.nbytes ≤ c := by
  have hbase := h.arena.layout.base_lt (Alloc.block ha)
  have hlen := h.extent_le ha
  simp only [Alloc.ptr, unit]
  by_cases hcb : c = base
  · omega
  by_cases hca : c = a.hp
  · omega
  have hblock : c ∈ blocks base (s.live.map Alloc.hp) (p :: rest) := by
    rcases hc with hc | hc
    · exact .inl ⟨hc, hcb⟩
    · exact .inr hc
  have hpos : 16 ≤ s.heap.extent c := by
    simp only [Heap.extent, unit]
    omega
  rcases h.arena.layout.tiled.apart c hblock a.hp (Alloc.block ha) hca with hlt | hlt
  · omega
  · omega

/-- **The invariant gives safety.** -/
theorem HeapInv.safe (h : HeapInv base s) : HeapSafe base s := by
  rcases h with ⟨-, hlive⟩ | ⟨p, rest, h⟩
  · have hnone : ∀ a, a ∉ s.live := by
      intro a
      rw [hlive]
      exact List.not_mem_nil
    refine ⟨fun a ha => absurd ha (hnone a), ?_, fun a ha => absurd ha (hnone a)⟩
    rw [hlive]
    exact List.Pairwise.nil
  · refine ⟨fun a ha i hlo hhi => ?_, ?_, fun a ha c hc => ?_⟩
    · have hlen := h.extent_le ha
      simp only [Alloc.ptr, unit] at hlo hhi
      exact h.arena.layout.tiled.inside a.hp (Alloc.block ha) i (by omega) (by omega)
    · have hne : s.live.Pairwise fun a b => a.hp ≠ b.hp :=
        List.pairwise_map.mp h.arena.layout.used_nodup
      refine hne.imp_of_mem fun {a b} ha hb hab => ?_
      have := h.extent_le ha
      have := h.extent_le hb
      simp only [Alloc.ptr, unit]
      have hor := h.arena.layout.tiled.apart a.hp (Alloc.block ha) b.hp (Alloc.block hb) hab
      rcases hor with hlt | hlt
      · omega
      · omega
    · apply h.header_apart ha
      rcases hc with rfl | ⟨b, hb, rfl⟩ | ⟨-, k, rfl⟩
      · exact .inl h.arena.layout.base_mem
      · exact .inr (List.mem_map_of_mem hb)
      · exact .inl (h.arena.ring.iterate_mem h.arena.freep k)

theorem Serves.write {mem : Nat → Header} (h : Serves base s p rest)
    (hmem : ∀ c, c ∈ p :: rest ∨ c ∈ s.live.map Alloc.hp → mem c = s.heap.mem c) :
    Serves base ⟨{ s.heap with mem := mem }, s.live⟩ p rest := by
  have hlayout := h.arena.layout
  refine ⟨⟨⟨hlayout.nodup, hlayout.base_mem, ?_, hlayout.used_nodup, hlayout.free_used, ?_,
    hlayout.above, hlayout.top⟩, ?_, h.arena.freep⟩, fun a ha => ?_⟩
  · change (mem base).size = 0
    rw [hmem base (.inl hlayout.base_mem), hlayout.base_size]
  · refine hlayout.tiled.mono (fun c hc => ⟨hc, Heap.extent_pos, ?_⟩) subset_rfl
    have hheader : mem c = s.heap.mem c := by
      rcases hc with ⟨hc, -⟩ | hc
      · exact hmem c (.inl hc)
      · exact hmem c (.inr hc)
    change unit * max 1 (mem c).size ≤ s.heap.extent c
    rw [hheader]
    exact le_rfl
  · refine h.arena.ring.congr fun c hc => ?_
    exact congrArg Header.ptr (hmem c (.inl hc))
  · change a.nbytes + unit ≤ unit * (mem a.hp).size
    rw [hmem a.hp (.inr (List.mem_map_of_mem ha))]
    exact h.fits a ha

theorem coreUnits_lt {nbytes : BitVec 32} (h : nbytes.toNat ≤ 2 ^ 31 - 32) :
    coreUnits (nunits nbytes) * unit < 2 ^ 31 := by
  have hunits : nunits nbytes < 2 ^ 27 := by
    simp only [nunits, unit]
    omega
  have hcore : coreUnits (nunits nbytes) < 2 ^ 27 := by
    rw [coreUnits]
    split
    · decide
    · exact hunits
  simp only [unit]
  omega

theorem heapInv_malloc {nbytes : BitVec 32} {o : Option Nat} {heap : Heap}
    (h : Mallocs base (s.live.map Alloc.hp) (nunits nbytes) s.heap o heap)
    (hfits : ∀ a ∈ s.live, a.nbytes + unit ≤ unit * (s.heap.mem a.hp).size) :
    HeapInv base ⟨heap, s.got nbytes o⟩ := by
  cases o with
  | none =>
    obtain ⟨⟨p, rest, harena⟩, hmem⟩ := h
    refine .inr ⟨p, rest, harena, fun a ha => ?_⟩
    rw [hmem a.hp (List.mem_map_of_mem ha)]
    exact hfits a ha
  | some ptr =>
    obtain ⟨hp, rfl, ⟨⟨p, rest, harena⟩, hsize, hmem⟩⟩ := h
    rw [User.got, Nat.add_sub_cancel]
    refine .inr ⟨p, rest, harena, fun a ha => ?_⟩
    rcases List.mem_cons.mp ha with rfl | ha
    · change nbytes.toNat + unit ≤ unit * (heap.mem hp).size
      rw [hsize]
      exact (one_le_nunits nbytes).2
    · change a.nbytes + unit ≤ unit * (heap.mem a.hp).size
      rw [hmem a.hp (List.mem_map_of_mem ha)]
      exact hfits a ha

/-- **Every modest step keeps the invariant.** -/
theorem heapInv_step {c : UserCall} (hbase : 0 < base) (h : HeapInv base s)
    (hstep : UserStep base s c s') (hmodest : Modest c) : HeapInv base s' := by
  cases hstep with
  | malloc nbytes rounds hrun =>
    rcases h with ⟨hun, hlive⟩ | ⟨p, rest, h⟩
    · have hspec := (wp_ok hrun).mp (malloc_first (coreUnits_lt hmodest) hun)
      refine heapInv_malloc (by rw [hlive]; exact hspec) fun a ha => ?_
      rw [hlive] at ha
      cases ha
    · exact heapInv_malloc
        ((wp_ok hrun).mp (malloc_spec hbase (coreUnits_lt hmodest) h.arena)) h.fits
  | free a rounds ha hrun =>
    rcases h with ⟨-, hlive⟩ | ⟨p, rest, h⟩
    · rw [hlive] at ha
      cases ha
    · have hperm : (s.live.map Alloc.hp).Perm (a.hp :: (s.live.erase a).map Alloc.hp) :=
        (List.perm_cons_erase ha).map Alloc.hp
      have harena : Arena base s.heap (a.hp :: (s.live.erase a).map Alloc.hp) p rest :=
        ⟨h.arena.layout.perm hperm.symm (List.Perm.refl _), h.arena.ring, h.arena.freep⟩
      have hsize : 1 ≤ (s.heap.mem a.hp).size := by
        have := h.fits a ha
        simp only [unit] at this
        omega
      obtain ⟨⟨p', rest', h'⟩, -, hmem⟩ := (wp_ok hrun).mp (free_spec harena hsize)
      refine .inr ⟨p', rest', h', fun b hb => ?_⟩
      rw [hmem b.hp (List.mem_map_of_mem hb)]
      exact h.fits b (List.mem_of_mem_erase hb)
  | write mem hmem =>
    rcases h with ⟨hun, hlive⟩ | ⟨p, rest, h⟩
    · exact .inl ⟨⟨hun.freep, hun.regions, hun.top⟩, hlive⟩
    · exact .inr ⟨p, rest, h.write fun c hc => hmem c fun a ha => h.header_apart ha hc⟩

end Invariant

/-! ## The bound -/

section Bound

variable {base : Nat}

/-- A heap before the first call, where `sbrk` can be called once. -/
def freshHeap (base : Nat) : Heap where
  mem := fun _ => ⟨0, 0⟩
  freep := 0
  top := base + unit
  regions := []
  answers := [some (base + unit)]

theorem freshHeap_untouched : Untouched base (freshHeap base) := ⟨rfl, rfl, le_rfl⟩

/-- The argument of `sbrk` from 2 GB on: what is left is a header at most. -/
theorem sbrkArg_le {nu : Nat} (hlo : 2 ^ 27 ≤ nu) (hhi : nu ≤ 2 ^ 28 + 1) :
    (sbrkArg nu).toNat ≤ 16 := by
  rw [sbrkArg, BitVec.toInt_eq_toNat_cond, BitVec.toNat_ofNat]
  simp only [unit]
  split <;> omega

theorem malloc_fresh (base : Nat) {nbytes : BitVec 32} (hlarge : 4096 ≤ nunits nbytes) :
    wp (malloc base 2 nbytes) (fun o s' => o = some (base + unit + unit) ∧
      s'.regions = [(base + unit, (sbrkArg (nunits nbytes)).toNat)]) (fun _ _ => False)
      (freshHeap base) := by
  have hcore : coreUnits (nunits nbytes) = nunits nbytes := if_neg (Nat.not_lt.mpr hlarge)
  have hpos : nunits nbytes ≠ 0 := by omega
  have hend : base + unit + unit * nunits nbytes ≠ base := by
    simp only [unit]
    omega
  have hlow : ¬base + unit < base := by
    simp only [unit]
    omega
  -- the ring is the static header; the new block is put behind it and taken as a whole
  simp [malloc, onlyIf, freshHeap, Heap.setHeader, Heap.next, mallocLoop, morecore, sbrk, hcore,
    free, freeLoop, Heap.joinUpper, Heap.joinLower, Heap.take, Heap.unlink, hpos, hend, hlow]

/-- **From 2 GB on** a first call of `malloc` returns memory that was not obtained. -/
theorem malloc_too_large (base : Nat) {nbytes : BitVec 32} (h : 2 ^ 31 - 32 < nbytes.toNat) :
    ∃ s, UserStep base ⟨freshHeap base, []⟩ (.malloc nbytes) s ∧ ¬HeapSafe base s := by
  have hlt := nbytes.isLt
  have hunits : 2 ^ 27 ≤ nunits nbytes ∧ nunits nbytes ≤ 2 ^ 28 + 1 := by
    simp only [nunits, unit]
    omega
  have hfresh := malloc_fresh base (show 4096 ≤ nunits nbytes by omega)
  obtain ⟨o, s', hrun, rfl, hregions⟩ := wp_total hfresh
  refine ⟨_, .malloc nbytes 2 hrun, fun hsafe => ?_⟩
  -- the first byte behind the header is not there
  have hbytes := sbrkArg_le hunits.1 hunits.2
  have hmem := hsafe.inside _ List.mem_cons_self (base + unit + unit) le_rfl (by
    simp only [Alloc.ptr, unit]
    omega)
  obtain ⟨r, hr, hlo, hhi⟩ := hmem
  have hr : r ∈ s'.regions := hr
  rw [hregions, List.mem_singleton] at hr
  subst hr
  simp only [unit] at hhi
  omega

end Bound

/-- **Safety of the heap.**  In every run from an untouched heap whose calls are modest, the
allocations are apart from each other and from the headers, in memory from `sbrk`.  The bound is
sharp: for every larger number of bytes there is a run of one call that is not safe. -/
theorem heap_safe {base : Nat} (hbase : 0 < base) :
    (∀ s₀ s : User, Untouched base s₀.heap → s₀.live = [] →
      Relation.ReflTransGen (fun s s' => ∃ c, UserStep base s c s' ∧ Modest c) s₀ s →
      HeapSafe base s) ∧
    ∀ nbytes : BitVec 32, 2 ^ 31 - 32 < nbytes.toNat → ∃ s₀ s : User, Untouched base s₀.heap ∧
      s₀.live = [] ∧ UserStep base s₀ (.malloc nbytes) s ∧ ¬HeapSafe base s := by
  constructor
  · intro s₀ s hun hlive hrun
    have hinv : HeapInv base s := by
      induction hrun with
      | refl => exact .inl ⟨hun, hlive⟩
      | tail _ hstep ih =>
        obtain ⟨c, hstep, hmodest⟩ := hstep
        exact heapInv_step hbase ih hstep hmodest
    exact hinv.safe
  · intro nbytes hlarge
    obtain ⟨s, hstep, hbad⟩ := malloc_too_large base hlarge
    exact ⟨⟨freshHeap base, []⟩, s, freshHeap_untouched, rfl, hstep, hbad⟩

/-- `malloc(4294967280)` asks `sbrk` for no bytes, and returns an address. -/
theorem malloc_of_nothing : sbrkArg (nunits 4294967280#32) = 0 ∧
    ∃ s, UserStep 0x1000 ⟨freshHeap 0x1000, []⟩ (.malloc 4294967280#32) s ∧ ¬HeapSafe 0x1000 s :=
  ⟨by decide, malloc_too_large 0x1000 (by decide)⟩

/-- Two blocks are allocated, the first one is freed, and another one is allocated. -/
theorem heap_safe_three : ∃ s, Relation.ReflTransGen
      (fun s s' => ∃ c, UserStep 0x1000 s c s' ∧ Modest c) ⟨freshHeap 0x1000, []⟩ s ∧
    s.live.length = 2 ∧ HeapSafe 0x1000 s := by
  obtain ⟨p, s₁, h₁, q, s₂, h₂, s₃, h₃, r, s₄, h₄⟩ :
      ∃ p s₁, malloc 0x1000 2 10#32 (freshHeap 0x1000) = .ok (some p) s₁ ∧
      ∃ q s₂, malloc 0x1000 2 20#32 s₁ = .ok (some q) s₂ ∧
      ∃ s₃, free 2 (Alloc.ptr ⟨p - unit, 10⟩) s₂ = .ok () s₃ ∧
      ∃ r s₄, malloc 0x1000 2 5#32 s₃ = .ok (some r) s₄ :=
    ⟨_, _, rfl, _, _, rfl, _, rfl, _, _, rfl⟩
  have hrun : Relation.ReflTransGen (fun s s' => ∃ c, UserStep 0x1000 s c s' ∧ Modest c)
      ⟨freshHeap 0x1000, []⟩ _ :=
    (((Relation.ReflTransGen.single ⟨_, .malloc 10#32 2 h₁, by decide⟩).tail
      ⟨_, .malloc 20#32 2 h₂, by decide⟩).tail ⟨_, .free ⟨p - unit, 10⟩ 2 (by simp [User.got]) h₃,
      trivial⟩).tail ⟨_, .malloc 5#32 2 h₄, by decide⟩
  refine ⟨_, hrun, ?_, (heap_safe (by decide)).1 _ _ freshHeap_untouched rfl hrun⟩
  simp [User.got]

end Umalloc

end Xv6Paging
