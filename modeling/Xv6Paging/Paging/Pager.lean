import Mathlib.Data.Fintype.Sum
import Xv6Paging.Logic.Ownership
import Xv6Paging.Vm.Exchange
import Xv6Paging.Vm.Unmap

/-!
# Where the pages of a process are

The paging data of one process, taken out of the kernel state: its entries, its `ram` and `swap`
arrays, its swap file and the allocator.  A layout says of each of the first `n` pages where it is:
in a `ram` slot with a frame, in a slot of the swap file, or on its way from the one to the other.
Every move of the paging code changes the location of one page and the contents of none.
-/

namespace Xv6Paging

open Ownership
open Function (update update_of_ne update_self)

/-- The paging data of a process. -/
structure Pager where
  pte : Nat → Pte
  ram : Slots
  swap : Slots
  file : Inode
  free : List Nat
  mem : Nat → Page

/-- Where a page is: in a `ram` slot, in a slot of the swap file, or taken off the `ram` array and
not yet written. -/
inductive Loc
  | ram (k : Fin maxPsycPages)
  | swap (k : Fin maxPsycPages)
  | moving
  deriving DecidableEq

/-- The page has a frame. -/
def Loc.InMemory : Loc → Prop
  | .ram _ => True
  | .swap _ => False
  | .moving => True

instance (l : Loc) : Decidable l.InMemory := by
  cases l <;> unfold Loc.InMemory <;> infer_instance

namespace Pager

/-- The page `v` is at a location. -/
def At (P : Pager) (v : Nat) : Loc → Prop
  | .ram k => (P.ram k).used = true ∧ (P.ram k).va = pageVa v ∧
      hasFlag (P.pte v) pteV = true ∧ hasFlag (P.pte v) ptePG = false
  | .swap k => (P.swap k).used = true ∧ (P.swap k).va = pageVa v ∧
      (P.swap k).offset = ((k * pgsize : Nat) : Int) ∧ (k + 1) * pgsize ≤ P.file.size ∧
      hasFlag (P.pte v) pteV = false ∧ hasFlag (P.pte v) ptePG = true
  | .moving => hasFlag (P.pte v) pteV = false

/-- What is recorded at a location. -/
def slot (P : Pager) : Loc → PageData
  | .ram k => P.ram k
  | .swap k => P.swap k
  | .moving => .removed

variable {P : Pager} {v : Nat} in
theorem At.slot {l : Loc} (h : P.At v l) (hl : l ≠ .moving) :
    (P.slot l).used = true ∧ (P.slot l).va = pageVa v := by
  cases l with
  | ram k => exact ⟨h.1, h.2.1⟩
  | swap k => exact ⟨h.1, h.2.1⟩
  | moving => exact absurd rfl hl

/-- The frame of the page `v`, if it is one of the first `n` and has one. -/
def frameOf (P : Pager) (n : Nat) (L : Nat → Loc) (v : Nat) : Option Nat :=
  if v < n ∧ (L v).InMemory then some (pte2pa (P.pte v)) else none

/-- The permissions one of which marks a leaf. -/
abbrev permLeaf : Pte := pteR ||| pteW ||| pteX

/-- The contents of the page `v` at a location. -/
def page (P : Pager) (v : Nat) : Loc → Page
  | .ram _ => P.mem (pte2pa (P.pte v))
  | .swap k => fun i => P.file.data (k * pgsize + i.val)
  | .moving => P.mem (pte2pa (P.pte v))

/-- The first `n` pages are where `L` says, and the arrays record nothing else. -/
structure Layout (B : Build) (P : Pager) (n : Nat) (L : Nat → Loc) : Prop where
  total : n ≤ maxTotalPages
  located : ∀ v, v < n → P.At v (L v)
  ramUsed : ∀ k, (P.ram k).used = true → ∃ v, v < n ∧ L v = .ram k
  swapUsed : ∀ k, (P.swap k).used = true → ∃ v, v < n ∧ L v = .swap k
  ramFree : ∀ k, (P.ram k).used = false → (P.ram k).va = -1
  swapFree : ∀ k, (P.swap k).used = false → (P.swap k).va = -1
  owned : Owned False (IsFrame B) P.free (P.frameOf n L)
  guard : ∀ v w, v < n → w < n → hasFlag (P.pte v) pteU = false →
    hasFlag (P.pte w) pteU = false → v = w
  leaf : ∀ v, v < n → hasFlag (P.pte v) permLeaf = true
  beyond : ∀ v, n ≤ v → hasFlag (P.pte v) ptePG = false ∧
    (v < maxTotalPages → hasFlag (P.pte v) pteV = false)

namespace Layout

variable {B : Build} {P P' : Pager} {n v w : Nat} {L : Nat → Loc} {k j : Fin maxPsycPages}
  {f m : Nat}

/-! ### What a layout says -/

variable (hL : Layout B P n L)
include hL

theorem used {l : Loc} (h : (P.slot l).used = true) : ∃ v, v < n ∧ L v = l := by
  cases l with
  | ram k => exact hL.ramUsed k h
  | swap k => exact hL.swapUsed k h
  | moving => exact absurd h Bool.false_ne_true

theorem unused {l : Loc} (h : (P.slot l).used = false) : (P.slot l).va = -1 := by
  cases l with
  | ram k => exact hL.ramFree k h
  | swap k => exact hL.swapFree k h
  | moving => rfl

theorem slot_inj (hv : v < n) (hw : w < n) (h : L v = L w) (hm : L v ≠ .moving) : v = w :=
  pageVa_inj.mp (((hL.located v hv).slot hm).2.symm.trans
    (h ▸ ((hL.located w hw).slot (h ▸ hm)).2))

omit hL in
theorem frameOf_eq (hv : v < n) (h : (L v).InMemory) :
    P.frameOf n L v = some (pte2pa (P.pte v)) := if_pos ⟨hv, h⟩

theorem frame (hv : v < n) (h : (L v).InMemory) : IsFrame B (pte2pa (P.pte v)) :=
  hL.owned.slot_valid v _ (frameOf_eq hv h)

theorem frame_notMem (hv : v < n) (h : (L v).InMemory) : pte2pa (P.pte v) ∉ P.free :=
  hL.owned.apart v _ (frameOf_eq hv h)

theorem slot_cases (l : Loc) :
    (P.slot l).va = -1 ∨ ∃ v, v < n ∧ L v = l ∧ (P.slot l).va = pageVa v := by
  cases hu : (P.slot l).used with
  | false => exact .inl (hL.unused hu)
  | true =>
    obtain ⟨v, hv, rfl⟩ := hL.used hu
    refine .inr ⟨v, hv, rfl, ((hL.located v hv).slot fun hm => ?_).2⟩
    rw [hm] at hu
    exact absurd hu Bool.false_ne_true

theorem of_va {l : Loc} (h : (P.slot l).va = pageVa v) : v < n ∧ L v = l := by
  rcases hL.slot_cases l with hva | ⟨w, hw, hLw, hva⟩
  · exact absurd (h.symm.trans hva) (pageVa_ne_removed v)
  · obtain rfl : v = w := pageVa_inj.mp (h.symm.trans hva)
    exact ⟨hw, hLw⟩

theorem exists_page (hram : ∀ k, (P.ram k).used = true)
    (hswap : ∀ k, (P.swap k).used = true) (e : Fin maxPsycPages ⊕ Fin maxPsycPages) :
    ∃ v : Fin n, L v = e.elim .ram .swap := by
  cases e with
  | inl k =>
    obtain ⟨v, hv, h⟩ := hL.ramUsed k (hram k)
    exact ⟨⟨v, hv⟩, h⟩
  | inr k =>
    obtain ⟨v, hv, h⟩ := hL.swapUsed k (hswap k)
    exact ⟨⟨v, hv⟩, h⟩

/-- A process that may still grow and has a full `ram` array has a free swap slot. -/
theorem exists_freeSwap (hram : ∀ k, (P.ram k).used = true)
    (hn : n < maxTotalPages) : ∃ j, (P.swap j).used = false := by
  by_contra hno
  push Not at hno
  have hswap : ∀ k, (P.swap k).used = true := fun k => by simpa using hno k
  -- 32 slots in use hold 32 different pages
  choose page hpage using hL.exists_page hram hswap
  have hinj : Function.Injective page := by
    intro e e' heq
    have h := hpage e
    rw [heq, hpage e'] at h
    cases e <;> cases e' <;> simp_all
  have hcard := Fintype.card_le_of_injective page hinj
  simp only [Fintype.card_sum, Fintype.card_fin, maxPsycPages, maxTotalPages] at hcard hn
  omega

theorem card_resident_le (hset : ∀ v, v < n → L v ≠ .moving) :
    ((Finset.range n).filter fun v => hasFlag (P.pte v) pteV = true).card ≤ maxPsycPages := by
  have hslot : ∀ v, v < n → hasFlag (P.pte v) pteV = true → ∃ k, L v = .ram k := by
    intro v hv hV
    have hat := hL.located v hv
    cases hLv : L v with
    | ram k => exact ⟨k, rfl⟩
    | swap k =>
      rw [hLv] at hat
      rw [hat.2.2.2.2.1] at hV
      exact absurd hV (by decide)
    | moving => exact absurd hLv (hset v hv)
  have hle := Finset.card_le_card_of_injOn (t := (Finset.univ : Finset (Fin maxPsycPages)))
    (s := (Finset.range n).filter fun v => hasFlag (P.pte v) pteV = true)
    (fun v => match L v with | .ram k => k | _ => 0)
    (fun _ _ => Finset.mem_coe.mpr (Finset.mem_univ _)) fun v hv w hw heq => by
      rw [Finset.mem_coe, Finset.mem_filter, Finset.mem_range] at hv hw
      obtain ⟨k, hk⟩ := hslot v hv.1 hv.2
      obtain ⟨i, hi⟩ := hslot w hw.1 hw.2
      simp only [hk, hi] at heq
      subst heq
      exact hL.slot_inj hv.1 hw.1 (hk.trans hi.symm) (by simp [hk])
  rwa [Finset.card_univ, Fintype.card_fin] at hle

/-! ### Moving a page -/

omit hL in
theorem frameOf_update (hv : v < n) (l : Loc) (w : Nat) : P.frameOf n (update L v l) w =
      if w = v then (if l.InMemory then some (pte2pa (P.pte v)) else none)
      else P.frameOf n L w := by
  by_cases hw : w = v
  · subst hw
    simp [frameOf, hv]
  · simp [frameOf, hw]

omit hL in
theorem At.congr {l : Loc} (h : P.At v l) (hV : hasFlag (P'.pte v) pteV = hasFlag (P.pte v) pteV)
    (hPG : hasFlag (P'.pte v) ptePG = hasFlag (P.pte v) ptePG)
    (hused : (P'.slot l).used = (P.slot l).used) (hva : (P'.slot l).va = (P.slot l).va)
    (hoffset : ∀ k, l = .swap k → (P'.slot l).offset = (P.slot l).offset)
    (hsize : P.file.size ≤ P'.file.size) : P'.At v l := by
  cases l with
  | ram k =>
    obtain ⟨h1, h2, h3, h4⟩ := h
    exact ⟨hused.trans h1, hva.trans h2, hV.trans h3, hPG.trans h4⟩
  | swap k =>
    obtain ⟨h1, h2, h3, h4, h5, h6⟩ := h
    exact ⟨hused.trans h1, hva.trans h2, (hoffset k rfl).trans h3, Nat.le_trans h4 hsize,
      hV.trans h5, hPG.trans h6⟩
  | moving => exact hV.trans h

omit hL in
theorem At.congr_slot {l : Loc} (h : P.At v l) (hpte : P'.pte v = P.pte v)
    (hslot : P'.slot l = P.slot l) (hsize : P.file.size ≤ P'.file.size) : P'.At v l :=
  At.congr h (by rw [hpte]) (by rw [hpte]) (by rw [hslot]) (by rw [hslot])
    (fun _ _ => by rw [hslot]) hsize

/-- **A page moves** to the location `l`: its old slot is emptied, the new one was free, and the
frames are accounted for. -/
theorem relocate (hv : v < n) {l : Loc} (hpte : ∀ w, w ≠ v → P'.pte w = P.pte w)
    (hself : P'.At v l) (hU : hasFlag (P.pte v) pteU = true → hasFlag (P'.pte v) pteU = true)
    (hleaf : hasFlag (P'.pte v) permLeaf = true)
    (hkeep : ∀ l', l' ≠ L v → l' ≠ l → P'.slot l' = P.slot l')
    (hgone : L v ≠ l → P'.slot (L v) = .removed) (hfresh : (P.slot l).used = false)
    (hsize : P.file.size ≤ P'.file.size)
    (howned : Owned False (IsFrame B) P'.free (P'.frameOf n (update L v l))) :
    Layout B P' n (update L v l) := by
  have hused : ∀ l', (P'.slot l').used = true → ∃ w, w < n ∧ update L v l w = l' := by
    intro l' hu
    by_cases hl : l' = l
    · exact ⟨v, hv, by rw [update_self, hl]⟩
    by_cases ho : l' = L v
    · rw [ho, hgone fun h => hl (ho.trans h)] at hu
      exact absurd hu (by decide)
    · rw [hkeep l' ho hl] at hu
      obtain ⟨w, hw, hLw⟩ := hL.used hu
      have hwv : w ≠ v := fun h => ho (h ▸ hLw.symm)
      exact ⟨w, hw, by rw [update_of_ne hwv, hLw]⟩
  have hunused : ∀ l', (P'.slot l').used = false → (P'.slot l').va = -1 := by
    intro l' hu
    by_cases hl : l' = l
    · rw [hl] at hu ⊢
      by_cases hm : l = .moving
      · rw [hm]
        rfl
      · rw [(hself.slot hm).1] at hu
        exact absurd hu (by decide)
    by_cases ho : l' = L v
    · rw [ho, hgone fun h => hl (ho.trans h)]
      rfl
    · rw [hkeep l' ho hl] at hu ⊢
      exact hL.unused hu
  refine ⟨hL.total, ?_, fun k => hused (.ram k), fun k => hused (.swap k),
    fun k => hunused (.ram k), fun k => hunused (.swap k), howned, ?_, ?_, ?_⟩
  · intro w hw
    by_cases hwv : w = v
    · subst hwv
      rwa [update_self]
    · rw [update_of_ne hwv]
      -- another page has neither the old nor the new slot of the one that moves
      have hat := hL.located w hw
      refine At.congr_slot hat (hpte w hwv) ?_ hsize
      by_cases hm : L w = .moving
      · rw [hm]
        rfl
      · refine hkeep _ (fun h => hwv (hL.slot_inj hw hv h hm)) fun h => ?_
        have hu := (hat.slot hm).1
        rw [h, hfresh] at hu
        exact absurd hu (by decide)
  · intro x y hx hy hUx hUy
    have key : ∀ z, hasFlag (P'.pte z) pteU = false → hasFlag (P.pte z) pteU = false := by
      intro z hz
      by_cases hzv : z = v
      · subst hzv
        by_contra hne
        rw [hU (by simpa using hne)] at hz
        exact absurd hz (by decide)
      · rwa [hpte z hzv] at hz
    exact hL.guard x y hx hy (key x hUx) (key y hUy)
  · intro w hw
    by_cases hwv : w = v
    · rwa [hwv]
    · rw [hpte w hwv]
      exact hL.leaf w hw
  · intro w hw
    rw [hpte w (by omega)]
    exact hL.beyond w hw

omit hL in
theorem page_congr (hv : v < n) (hpte : pte2pa (P'.pte v) = pte2pa (P.pte v))
    (hmem : ∀ f, P.frameOf n L v = some f → P'.mem f = P.mem f)
    (hfile : ∀ k, L v = .swap k → ∀ i : Fin pgsize,
      P'.file.data (k * pgsize + i.val) = P.file.data (k * pgsize + i.val)) :
    P'.page v (L v) = P.page v (L v) := by
  cases hl : L v with
  | ram k =>
    show P'.mem _ = P.mem _
    rw [hpte, hmem _ (frameOf_eq hv (by rw [hl]; trivial))]
  | swap k => exact funext fun i => hfile k hl i
  | moving =>
    show P'.mem _ = P.mem _
    rw [hpte, hmem _ (frameOf_eq hv (by rw [hl]; trivial))]

/-- The flags that the victim search and the bookkeeping may change do not move a page. -/
theorem retag
    (hflag : ∀ w flag, flag &&& pteA = 0#64 → hasFlag (P'.pte w) flag = hasFlag (P.pte w) flag)
    (hpa : ∀ w, pte2pa (P'.pte w) = pte2pa (P.pte w))
    (hram : ∀ k, (P'.ram k).used = (P.ram k).used ∧ (P'.ram k).va = (P.ram k).va)
    (hswap : P'.swap = P.swap) (hfile : P'.file = P.file) (hfree : P'.free = P.free) :
    Layout B P' n L where
  total := hL.total
  located w hw := by
    have hslot : (P'.slot (L w)).used = (P.slot (L w)).used ∧
        (P'.slot (L w)).va = (P.slot (L w)).va := by
      cases L w with
      | ram k => exact hram k
      | swap k => exact ⟨by simp only [slot, hswap], by simp only [slot, hswap]⟩
      | moving => exact ⟨rfl, rfl⟩
    exact At.congr (hL.located w hw) (hflag w _ (by decide)) (hflag w _ (by decide)) hslot.1
      hslot.2 (fun k hk => by simp only [hk, slot, hswap]) (by rw [hfile])
  ramUsed k hk := hL.ramUsed k ((hram k).1 ▸ hk)
  swapUsed k hk := hL.swapUsed k (hswap ▸ hk)
  ramFree k hk := (hram k).2.trans (hL.ramFree k ((hram k).1 ▸ hk))
  swapFree k hk := by
    rw [hswap] at hk ⊢
    exact hL.swapFree k hk
  owned := by
    rw [hfree]
    exact hL.owned.congr fun w => by simp only [frameOf, hpa]
  guard x y hx hy h h' := by
    rw [hflag x pteU (by decide)] at h
    rw [hflag y pteU (by decide)] at h'
    exact hL.guard x y hx hy h h'
  leaf w hw := (hflag w _ (by decide)).trans (hL.leaf w hw)
  beyond w hw := by
    rw [hflag w _ (by decide), hflag w _ (by decide)]
    exact hL.beyond w hw

omit hL in
theorem lose (lost : List Nat) (hL : Layout B P n L) (hpte : P'.pte = P.pte) (hram : P'.ram = P.ram)
    (hswap : P'.swap = P.swap) (hfile : P'.file = P.file) (hfree : P.free.Perm (lost ++ P'.free)) :
    Layout B P' n L := by
  have hmid : Layout B { P with free := P'.free } n L :=
    ⟨hL.total, hL.located, hL.ramUsed, hL.swapUsed, hL.ramFree, hL.swapFree,
      (hL.owned.perm hfree).dropAll id, hL.guard, hL.leaf, hL.beyond⟩
  exact hmid.retag (fun w flag _ => by rw [hpte]) (fun w => by rw [hpte])
    (fun k => by rw [hram]; exact ⟨rfl, rfl⟩) hswap hfile rfl

/-- **A page leaves the `ram` array**; it keeps its frame. -/
theorem unload (hw : w < n) (hk : L w = .ram k)
    (hpte : P'.pte = update P.pte w (P.pte w &&& ~~~pteV))
    (hram : P'.ram = update P.ram k .removed) (hswap : P'.swap = P.swap)
    (hfile : P'.file = P.file) (hfree : P'.free = P.free) : Layout B P' n (update L w .moving) := by
  refine hL.relocate hw (fun x hx => by rw [hpte, update_of_ne hx]) ?_ ?_ ?_ ?_ ?_ rfl
    (by rw [hfile]) ?_
  · show hasFlag (P'.pte w) pteV = false
    rw [hpte, update_self, hasFlag_clear_self]
  · rw [hpte, update_self, hasFlag_clear (by decide)]
    exact id
  · rw [hpte, update_self, hasFlag_clear (by decide)]
    exact hL.leaf w hw
  · intro l hl _
    cases l with
    | ram j =>
      have hne : j ≠ k := fun h => hl (h ▸ hk.symm)
      exact (congrFun hram j).trans (update_of_ne hne _ _)
    | swap j => exact congrFun hswap j
    | moving => rfl
  · rw [hk]
    exact fun _ => (congrFun hram k).trans (update_self k _ _)
  · -- the frame stays with the page
    rw [hfree]
    refine hL.owned.congr fun x => ?_
    rw [frameOf_update hw]
    by_cases hx : x = w
    · subst hx
      simp [frameOf, hw, hk, Loc.InMemory, hpte, pte2pa_clear]
    · simp [frameOf, hx, hpte]

omit hL in
theorem swapInPte_user (f : Nat) : hasFlag (swapInPte f) pteU = true := by
  rw [swapInPte, hasFlag_clear (by decide), hasFlag_map f _ (by decide)]
  decide

/-- **A page comes in** from the swap slot `j` to the free `ram` slot `k`, into the first free
frame. -/
theorem swapIn (hv : v < n) (hj : L v = .swap j)
    (hk : (P.ram k).used = false) (hfree : P.free = f :: P'.free)
    (hpte : P'.pte = update P.pte v (swapInPte f)) (hram : ∀ i, i ≠ k → P'.ram i = P.ram i)
    (hself : (P'.ram k).used = true ∧ (P'.ram k).va = pageVa v)
    (hswap : P'.swap = update P.swap j .removed) (hfile : P'.file = P.file) :
    Layout B P' n (update L v (.ram k)) := by
  have hf : IsFrame B f := hL.owned.loose_valid f (by simp [hfree])
  have hx : P'.pte v = swapInPte f := by rw [hpte, update_self]
  have hV : hasFlag (swapInPte f) pteV = true := by
    rw [swapInPte, hasFlag_clear (by decide), hasFlag_map f _ (by decide)]
    decide
  have hPG : hasFlag (swapInPte f) ptePG = false := hasFlag_clear_self _ _
  have hpa : pte2pa (swapInPte f) = f := by
    rw [swapInPte, pte2pa_clear _ (by decide), hf.pte2pa_map (by decide)]
  have hleaf : hasFlag (swapInPte f) permLeaf = true := by
    rw [swapInPte, hasFlag_clear (by decide), hasFlag_map f _ (by decide)]
    decide
  refine hL.relocate hv (fun x hx => by rw [hpte, update_of_ne hx]) ?_ ?_ (by rwa [hx]) ?_ ?_ hk
    (by rw [hfile]) ?_
  · exact ⟨hself.1, hself.2, by rw [hx, hV], by rw [hx, hPG]⟩
  · rw [hx, swapInPte_user]
    exact fun _ => rfl
  · intro l hl hne
    cases l with
    | ram i => exact hram i fun h => hne (h ▸ rfl)
    | swap i =>
      have hij : i ≠ j := fun h => hl (h ▸ hj.symm)
      exact (congrFun hswap i).trans (update_of_ne hij _ _)
    | moving => rfl
  · rw [hj]
    exact fun _ => (congrFun hswap j).trans (update_self j _ _)
  · have hO := hL.owned
    rw [hfree] at hO
    refine hO.place (j := v) ?_ ?_ fun x hxv => ?_
    · simp [frameOf, hj, Loc.InMemory]
    · rw [frameOf_update hv, if_pos rfl, if_pos (show (Loc.ram k).InMemory from trivial), hx, hpa]
    · rw [frameOf_update hv, if_neg hxv]
      simp [frameOf, hpte, hxv]

/-- **A page goes out** to the free swap slot `j`; its frame is freed. -/
theorem evict (hw : w < n) (hm : L w = .moving) (hj : (P.swap j).used = false)
    (hpte : P'.pte = update P.pte w (P.pte w ||| ptePG)) (hram : P'.ram = P.ram)
    (hswap : ∀ i, i ≠ j → P'.swap i = P.swap i)
    (hself : (P'.swap j).used = true ∧ (P'.swap j).va = pageVa w ∧
      (P'.swap j).offset = ((j * pgsize : Nat) : Int))
    (hsize : P.file.size ≤ P'.file.size) (hsize' : (j + 1) * pgsize ≤ P'.file.size)
    (hfree : P'.free = pte2pa (P.pte w) :: P.free) : Layout B P' n (update L w (.swap j)) := by
  have hx : P'.pte w = P.pte w ||| ptePG := by rw [hpte, update_self]
  have hV : hasFlag (P.pte w) pteV = false := by
    have := hL.located w hw
    rwa [hm] at this
  refine hL.relocate hw (fun x hx => by rw [hpte, update_of_ne hx]) ?_ ?_ ?_
    ?_ (by rw [hm]; exact fun _ => rfl) hj hsize ?_
  · refine ⟨hself.1, hself.2.1, hself.2.2, hsize', ?_, ?_⟩
    · rw [hx, hasFlag_or, hV]
      decide
    · rw [hx, hasFlag_or, show hasFlag ptePG ptePG = true by decide, Bool.or_true]
  · intro hU
    rw [hx, hasFlag_or, hU, Bool.true_or]
  · rw [hx, hasFlag_or, hL.leaf w hw, Bool.true_or]
  · intro l _ hne
    cases l with
    | ram i => exact congrFun hram i
    | swap i => exact hswap i fun h => hne (h ▸ rfl)
    | moving => rfl
  · rw [hfree]
    refine hL.owned.lift (j := w) (frameOf_eq hw (by rw [hm]; trivial)) ?_ fun x hxw => ?_
    · rw [frameOf_update hw, if_pos rfl, if_neg (show ¬(Loc.swap j).InMemory from id)]
    · rw [frameOf_update hw, if_neg hxw]
      simp [frameOf, hpte, hxw]

/-! ### Contents -/

omit hL in
theorem unload_page (hk : L w = .ram k)
    (hpte : P'.pte = update P.pte w (P.pte w &&& ~~~pteV)) (hmem : P'.mem = P.mem)
    (hfile : P'.file = P.file) (v : Nat) : P'.page v (update L w .moving v) = P.page v (L v) := by
  have hpa : ∀ x, pte2pa (P'.pte x) = pte2pa (P.pte x) := by
    intro x
    rw [hpte]
    by_cases hx : x = w
    · rw [hx, update_self, pte2pa_clear _ (by decide)]
    · rw [update_of_ne hx]
  by_cases hv : v = w
  · subst hv
    rw [update_self, hk]
    show P'.mem _ = P.mem _
    rw [hmem, hpa]
  · rw [update_of_ne hv]
    cases L v with
    | ram i =>
      show P'.mem _ = P.mem _
      rw [hmem, hpa]
    | swap i =>
      show (fun _ => P'.file.data _) = _
      rw [hfile]
      rfl
    | moving =>
      show P'.mem _ = P.mem _
      rw [hmem, hpa]

theorem swapIn_page {x : Nat} (hj : L v = .swap j)
    (hfree : P.free = f :: P'.free) (hpte : P'.pte = update P.pte v (swapInPte f))
    (hfile : P'.file = P.file) (hmem : ∀ q, q ≠ f → P'.mem q = P.mem q)
    (hbytes : P'.mem f = fun i => P.file.data (j * pgsize + i.val)) (hx : x < n) :
    P'.page x (update L v (.ram k) x) = P.page x (L x) := by
  have hf : IsFrame B f := hL.owned.loose_valid f (by simp [hfree])
  by_cases hxv : x = v
  · subst hxv
    rw [update_self, hj]
    show P'.mem (pte2pa (P'.pte x)) = _
    rw [hpte, update_self, swapInPte, pte2pa_clear _ (by decide),
      hf.pte2pa_map (by decide), hbytes]
    rfl
  · rw [update_of_ne hxv]
    refine page_congr hx (by rw [hpte, update_of_ne hxv]) (fun q hq => hmem q ?_)
      fun _ _ _ => by rw [hfile]
    -- the frames of the other pages are not free
    rintro rfl
    exact hL.owned.apart x q hq (by simp [hfree])

theorem evict_page {page x : Nat} (hw : w < n) (hm : L w = .moving)
    (hj : (P.swap j).used = false) (hpage : page ∈ P.free)
    (hpte : P'.pte = update P.pte w (P.pte w ||| ptePG))
    (hfile : P'.file = P.file.storeSlot j (P.mem (pte2pa (P.pte w))))
    (hmem : ∀ q, q ≠ page → q ≠ pte2pa (P.pte w) → P'.mem q = P.mem q) (hx : x < n) :
    P'.page x (update L w (.swap j) x) = P.page x (L x) := by
  by_cases hxw : x = w
  · subst hxw
    rw [update_self, hm]
    funext i
    show P'.file.data _ = P.mem _ i
    have hi : j * pgsize ≤ j * pgsize + i.val ∧ j * pgsize + i.val < j * pgsize + pgsize := by
      have := i.isLt
      omega
    rw [hfile, Inode.storeSlot]
    simp only [if_pos hi, Nat.add_sub_cancel_left, pageBytes, dif_pos i.isLt]
  · rw [update_of_ne hxw]
    refine page_congr hx (by rw [hpte, update_of_ne hxw]) (fun q hq => hmem q ?_ ?_)
      fun i hi b => ?_
    · rintro rfl
      exact hL.owned.apart x q hq hpage
    · rintro rfl
      exact hxw (hL.owned.slot_inj x w _ hq (frameOf_eq hw (by rw [hm]; trivial)))
    · -- another slot is left alone
      have hij : i.val ≠ j.val := by
        intro h
        have hat := hL.located x hx
        rw [hi, Fin.ext h] at hat
        simp [hj, At] at hat
      have hb := b.isLt
      have hout : ¬(j * pgsize ≤ i * pgsize + b.val ∧
          i * pgsize + b.val < j * pgsize + pgsize) := by
        simp only [pgsize] at *
        omega
      rw [hfile, Inode.storeSlot]
      exact if_neg hout

/-! ### Growing and shrinking -/

omit hL in
theorem hasFlag_user (f : Nat) : hasFlag (pa2pte f ||| permUser ||| pteV) pteV = true ∧
      hasFlag (pa2pte f ||| permUser ||| pteV) ptePG = false ∧
      hasFlag (pa2pte f ||| permUser ||| pteV) pteU = true ∧
      hasFlag (pa2pte f ||| permUser ||| pteV) permLeaf = true := by
  simp only [hasFlag_map f _ (show pteV.toNat < 2 ^ 10 by decide),
    hasFlag_map f _ (show ptePG.toNat < 2 ^ 10 by decide),
    hasFlag_map f _ (show pteU.toNat < 2 ^ 10 by decide),
    hasFlag_map f _ (show permLeaf.toNat < 2 ^ 10 by decide)]
  decide

/-- **A new page** gets the free `ram` slot `k` and the first free frame; further free pages become
page-table pages. -/
theorem append {fresh : List Nat} (hn : n < maxTotalPages)
    (hk : (P.ram k).used = false) (hfree : P.free = f :: (fresh ++ P'.free))
    (hpte : ∀ v, v ≠ n → P'.pte v = P.pte v)
    (hnew : P'.pte n = pa2pte f ||| permUser ||| pteV) (hram : ∀ i, i ≠ k → P'.ram i = P.ram i)
    (hself : (P'.ram k).used = true ∧ (P'.ram k).va = pageVa n) (hswap : P'.swap = P.swap)
    (hfile : P'.file = P.file) : Layout B P' (n + 1) (update L n (.ram k)) := by
  obtain ⟨hV, hPG, hU, hleaf⟩ := hasFlag_user f
  have hf : IsFrame B f := hL.owned.loose_valid f (by simp [hfree])
  have hkeep : ∀ l, l ≠ .ram k → P'.slot l = P.slot l := by
    intro l hl
    cases l with
    | ram i => exact hram i fun h => hl (h ▸ rfl)
    | swap i => exact congrFun hswap i
    | moving => rfl
  have hused : ∀ l, (P'.slot l).used = true → ∃ v, v < n + 1 ∧ update L n (.ram k) v = l := by
    intro l hu
    by_cases hl : l = .ram k
    · exact ⟨n, by omega, by rw [update_self, hl]⟩
    · rw [hkeep l hl] at hu
      obtain ⟨v, hv, hLv⟩ := hL.used hu
      exact ⟨v, by omega, by rw [update_of_ne (by omega), hLv]⟩
  have hunused : ∀ l, (P'.slot l).used = false → (P'.slot l).va = -1 := by
    intro l hu
    by_cases hl : l = .ram k
    · rw [hl, show P'.slot (.ram k) = P'.ram k from rfl, hself.1] at hu
      exact absurd hu (by decide)
    · rw [hkeep l hl] at hu ⊢
      exact hL.unused hu
  refine ⟨hn, ?_, fun i => hused (.ram i), fun i => hused (.swap i), fun i => hunused (.ram i),
    fun i => hunused (.swap i), ?_, ?_, ?_, ?_⟩
  · intro v hv
    by_cases hvn : v = n
    · rw [hvn, update_self]
      exact ⟨hself.1, hself.2, by rw [hnew, hV], by rw [hnew, hPG]⟩
    · rw [update_of_ne hvn]
      have hat := hL.located v (by omega)
      refine At.congr_slot hat (hpte v hvn) (hkeep _ fun h => ?_) (by rw [hfile])
      -- no page has had the slot
      rw [h] at hat
      simp [hk, At] at hat
  · -- the first free frame goes to the page, the others leave the accounts
    have hO := hL.owned
    rw [hfree] at hO
    have hplaced : Owned False (IsFrame B) (fresh ++ P'.free)
        (P'.frameOf (n + 1) (update L n (.ram k))) := by
      refine hO.place (j := n) (by simp [frameOf]) ?_ fun v hv => ?_
      · rw [frameOf, if_pos ⟨Nat.lt_succ_self n, by rw [update_self]; trivial⟩, hnew,
          hf.pte2pa_map (by decide)]
      · have hlt : v < n + 1 ↔ v < n := by omega
        simp only [frameOf, hlt, update_of_ne hv, hpte v hv]
    exact hplaced.dropAll id
  · intro v w hv hw h h'
    have key : ∀ x, x < n + 1 → hasFlag (P'.pte x) pteU = false →
        x < n ∧ hasFlag (P.pte x) pteU = false := by
      intro x hx hfalse
      have hxn : x ≠ n := by
        rintro rfl
        rw [hnew, hU] at hfalse
        exact absurd hfalse (by decide)
      exact ⟨by omega, by rwa [hpte x hxn] at hfalse⟩
    obtain ⟨hv', h⟩ := key v hv h
    obtain ⟨hw', h'⟩ := key w hw h'
    exact hL.guard v w hv' hw' h h'
  · intro v hv
    by_cases hvn : v = n
    · rw [hvn, hnew, hleaf]
    · rw [hpte v hvn]
      exact hL.leaf v (by omega)
  · intro v hv
    rw [hpte v (by omega)]
    exact hL.beyond v (by omega)

theorem append_page {fresh : List Nat}
    (hfree : P.free = f :: (fresh ++ P'.free)) (hpte : ∀ v, v ≠ n → P'.pte v = P.pte v)
    (hnew : P'.pte n = pa2pte f ||| permUser ||| pteV) (hfile : P'.file = P.file)
    (hmem : ∀ q, q ≠ f → q ∉ fresh → P'.mem q = P.mem q) :
    (∀ v, v < n → P'.page v (update L n (.ram k) v) = P.page v (L v)) ∧
      P'.page n (update L n (.ram k) n) = P'.mem f := by
  have hf : IsFrame B f := hL.owned.loose_valid f (by simp [hfree])
  constructor
  · intro v hv
    have hvn : v ≠ n := by omega
    rw [update_of_ne hvn]
    refine page_congr hv (by rw [hpte v hvn]) (fun q hq => ?_) fun _ _ _ => by rw [hfile]
    have hq' := hL.owned.apart v q hq
    rw [hfree, List.mem_cons, List.mem_append, not_or, not_or] at hq'
    exact hmem q hq'.1 hq'.2.1
  · rw [update_self]
    show P'.mem (pte2pa (P'.pte n)) = _
    rw [hnew, hf.pte2pa_map (by decide)]

theorem slot_forget {l : Loc} (hslot : P'.slot l =
      if inPages m (n - m) (u64 (P.slot l).va) then .removed else P.slot l) :
    ((∀ v, (P.slot l).va = pageVa v → m ≤ v) ∧ P'.slot l = .removed) ∨
      ((∀ v, (P.slot l).va = pageVa v → v < m) ∧ P'.slot l = P.slot l) := by
  rw [hslot]
  rcases hL.slot_cases l with hva | ⟨v, hv, -, hva⟩
  · refine .inr ⟨fun v h => absurd (h.symm.trans hva) (pageVa_ne_removed v), ?_⟩
    have hrem : u64 (P.slot l).va = u64 PageData.removed.va := by rw [hva]; rfl
    rw [hrem, inPages_removed, if_neg (by decide)]
  · have hlast := hL.total
    have hu : u64 (P.slot l).va = v * pgsize := by
      rw [hva]
      exact u64_pageVa (by omega)
    have hpage : ∀ x, (P.slot l).va = pageVa x → x = v := fun x hx =>
      pageVa_inj.mp (hx.symm.trans hva)
    by_cases hmv : m ≤ v
    · refine .inl ⟨fun x hx => hpage x hx ▸ hmv, ?_⟩
      rw [hu, if_pos (inPages_page.mpr (by omega))]
    · refine .inr ⟨fun x hx => by have := hpage x hx; omega, ?_⟩
      rw [hu, if_neg fun h => hmv (inPages_page.mp h).1]

theorem frames_eq (hm : m ≤ n) (hset : ∀ v, v < n → L v ≠ .moving) :
    ((List.range' m (n - m)).filter fun w => !hasFlag (P.pte w) ptePG).map
      (fun w => pte2pa (P.pte w)) = (List.range' m (n - m)).filterMap (P.frameOf n L) := by
  have key : ∀ l : List Nat, (∀ w ∈ l, w < n) →
      (l.filter fun w => !hasFlag (P.pte w) ptePG).map (fun w => pte2pa (P.pte w)) =
        l.filterMap (P.frameOf n L) := by
    intro l
    induction l with
    | nil => exact fun _ => rfl
    | cons w l ih =>
      intro hl
      have hw : w < n := hl w List.mem_cons_self
      have hat := hL.located w hw
      have ih := ih fun x hx => hl x (List.mem_cons_of_mem w hx)
      cases hLw : L w with
      | ram k =>
        rw [hLw] at hat
        rw [List.filter_cons_of_pos (by simp [hat.2.2.2]), List.map_cons,
          List.filterMap_cons_some (frameOf_eq hw (by rw [hLw]; trivial)), ih]
      | swap k =>
        rw [hLw] at hat
        rw [List.filter_cons_of_neg (by simp [hat.2.2.2.2.2]),
          List.filterMap_cons_none (by simp [frameOf, hLw, Loc.InMemory]), ih]
      | moving => exact absurd hLw (hset w hw)
  refine key _ fun w hw => ?_
  have := List.mem_range'_1.mp hw
  omega

/-- **The pages from `m` on are given up.** -/
theorem truncate (hm : m ≤ n) (hset : ∀ v, v < n → L v ≠ .moving)
    (hpte : ∀ v, P'.pte v = if m ≤ v ∧ v < m + (n - m) then 0#64 else P.pte v)
    (hram : P'.ram = forgetPages m (n - m) P.ram) (hswap : P'.swap = forgetPages m (n - m) P.swap)
    (hfile : P'.file = P.file)
    (hfree : P'.free = (((List.range' m (n - m)).filter fun w => !hasFlag (P.pte w) ptePG).map
      fun w => pte2pa (P.pte w)).reverse ++ P.free) : Layout B P' m L := by
  have hlow : ∀ v, v < m → P'.pte v = P.pte v := fun v hv => by rw [hpte, if_neg (by omega)]
  have hgone : ∀ v, m ≤ v → P'.pte v = 0#64 ∨ n ≤ v ∧ P'.pte v = P.pte v := by
    intro v hv
    by_cases hvn : v < n
    · exact .inl (by rw [hpte, if_pos (by omega)])
    · exact .inr ⟨by omega, by rw [hpte, if_neg (by omega)]⟩
  have hslot : ∀ l, P'.slot l =
      if inPages m (n - m) (u64 (P.slot l).va) then .removed else P.slot l := by
    intro l
    cases l with
    | ram i => exact congrFun hram i
    | swap i => exact congrFun hswap i
    | moving => exact (ite_self _).symm
  have hused : ∀ l, (P'.slot l).used = true → ∃ v, v < m ∧ L v = l := by
    intro l hu
    rcases hL.slot_forget (hslot l) with ⟨-, heq⟩ | ⟨hlt, heq⟩
    · rw [heq] at hu
      exact absurd hu (by decide)
    · rw [heq] at hu
      obtain ⟨v, hv, rfl⟩ := hL.used hu
      exact ⟨v, hlt v ((hL.located v hv).slot (hset v hv)).2, rfl⟩
  have hunused : ∀ l, (P'.slot l).used = false → (P'.slot l).va = -1 := by
    intro l hu
    rcases hL.slot_forget (hslot l) with ⟨-, heq⟩ | ⟨-, heq⟩
    · rw [heq]
      rfl
    · rw [heq] at hu ⊢
      exact hL.unused hu
  refine ⟨Nat.le_trans hm hL.total, ?_, fun k => hused (.ram k), fun k => hused (.swap k),
    fun k => hunused (.ram k), fun k => hunused (.swap k), ?_, ?_, ?_, ?_⟩
  · intro v hv
    have hvn : v < n := by omega
    have hat := hL.located v hvn
    refine At.congr_slot hat (hlow v hv) ?_ (by rw [hfile])
    rcases hL.slot_forget (hslot (L v)) with ⟨hge, -⟩ | ⟨-, heq⟩
    · have := hge v (hat.slot (hset v hvn)).2
      omega
    · exact heq
  · -- the frames of the pages that go become free
    rw [hfree, hL.frames_eq hm hset]
    have hlift := hL.owned.liftAll (List.nodup_range' (s := m) (n := n - m))
    refine (hlift.perm ((List.reverse_perm _).symm.append_right _)).congr fun v => ?_
    by_cases hv : v < m
    · have hmem : v ∉ List.range' m (n - m) := by
        rw [List.mem_range'_1]
        omega
      simp only [frameOf, if_neg hmem, hv, hlow v hv, true_and, show v < n by omega]
    · rw [frameOf, if_neg fun h => hv h.1]
      by_cases hvn : v < n
      · rw [if_pos (List.mem_range'_1.mpr (by omega))]
      · have hnone : P.frameOf n L v = none := if_neg fun h => hvn h.1
        rw [hnone, ite_self]
  · intro v w hv hw h h'
    rw [hlow v hv] at h
    rw [hlow w hw] at h'
    exact hL.guard v w (by omega) (by omega) h h'
  · intro v hv
    rw [hlow v hv]
    exact hL.leaf v (by omega)
  · intro v hv
    rcases hgone v hv with h0 | ⟨hvn, heq⟩
    · rw [h0, hasFlag_zero, hasFlag_zero]
      exact ⟨rfl, fun _ => rfl⟩
    · rw [heq]
      exact hL.beyond v hvn

theorem truncate_page (hm : m ≤ n) (hset : ∀ v, v < n → L v ≠ .moving)
    (hpte : ∀ v, P'.pte v = if m ≤ v ∧ v < m + (n - m) then 0#64 else P.pte v)
    (hfile : P'.file = P.file)
    (hmem : ∀ q, q ∉ ((List.range' m (n - m)).filter fun w => !hasFlag (P.pte w) ptePG).map
      (fun w => pte2pa (P.pte w)) → P'.mem q = P.mem q) (hv : v < m) :
    P'.page v (L v) = P.page v (L v) := by
  refine page_congr (show v < n by omega) (by rw [hpte, if_neg (by omega)]) (fun q hq => hmem q ?_)
    fun _ _ _ => by rw [hfile]
  rw [hL.frames_eq hm hset, List.mem_filterMap]
  rintro ⟨w, hw, hwq⟩
  have := hL.owned.slot_inj v w q hq hwq
  have := List.mem_range'_1.mp hw
  omega

end Layout

end Pager

end Xv6Paging
