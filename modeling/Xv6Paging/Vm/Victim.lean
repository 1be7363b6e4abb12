import Mathlib.Data.Fintype.Card
import Xv6Paging.Vm.Replace

/-!
# Choosing a victim

Whatever the policy, the search for a victim only reads the entries of the recorded pages, clears
accessed bits and moves pages to the end of the queue.
-/

namespace Xv6Paging

open StateHalt Kernel PageTable

/-! ## Slots -/

section FindSlot

variable {c : PageData → Bool} {d : Slots} {k : Fin maxPsycPages}

theorem findSlot_some (h : findSlot c d = some k) : c (d k) = true := by
  have := List.find?_some h
  exact this

theorem findSlot_none (h : findSlot c d = none) (k : Fin maxPsycPages) : c (d k) = false := by
  have := List.find?_eq_none.mp h k (List.mem_finRange k)
  simpa using this

theorem findSlot_first (h : findSlot c d = some k) {j : Fin maxPsycPages} (hj : j < k) :
    c (d j) = false := by
  obtain ⟨-, i, hi, hik, hbefore⟩ := List.find?_eq_some_iff_getElem.mp h
  have hik' : i = k.val := by
    rw [List.getElem_finRange] at hik
    rw [← hik]
    rfl
  have hj' := hbefore j.val (by omega)
  rw [List.getElem_finRange] at hj'
  simpa using hj'

theorem findSlot_isSome (h : c (d k) = true) : ∃ j, findSlot c d = some j := by
  cases hf : findSlot c d with
  | some j => exact ⟨j, rfl⟩
  | none => exact absurd h (by simp [findSlot_none hf k])

theorem countPages_full (h : ¬countPages d < maxPsycPages) (k : Fin maxPsycPages) :
    (d k).used = true := by
  have hlen : (List.finRange maxPsycPages).length = maxPsycPages := List.length_finRange
  have hle : countPages d ≤ (List.finRange maxPsycPages).length := List.countP_le_length
  have heq : countPages d = (List.finRange maxPsycPages).length := by omega
  exact List.countP_eq_length.mp heq k (List.mem_finRange k)

theorem countPages_lt_iff : countPages d < maxPsycPages ↔ ∃ k, (d k).used = false := by
  constructor
  · intro h
    by_contra hn
    push Not at hn
    have : countPages d = (List.finRange maxPsycPages).length :=
      List.countP_eq_length.mpr fun k _ => by simpa using hn k
    rw [List.length_finRange] at this
    omega
  · rintro ⟨k, hk⟩
    by_contra hn
    simp [countPages_full hn k] at hk

end FindSlot

/-! ## Scanning -/

/-- The virtual page of a `ram` slot. -/
def Proc.ramPage (pr : Proc) (k : Fin maxPsycPages) : Nat := u64 (pr.ram k).va / pgsize

/-- The entry of the page in a `ram` slot of the process `p`. -/
def Kernel.ramPte (s : Kernel) (p : Fin nproc) (k : Fin maxPsycPages) : Pte :=
  (s.ptables (s.proc p).pagetable).pte ((s.proc p).ramPage k)

/-- The entry of the page in the slot `k` exists. -/
def SlotPresent (s : Kernel) (p : Fin nproc) (k : Fin maxPsycPages) : Prop :=
  u64 ((s.proc p).ram k).va < maxva ∧
    (s.ptables (s.proc p).pagetable).present ((s.proc p).ramPage k)

/-- The entries of the pages in the `ram` slots exist. -/
def RamPresent (s : Kernel) (p : Fin nproc) : Prop := ∀ k, SlotPresent s p k

section Scan

variable {s : Kernel} {p : Fin nproc} {k : Fin maxPsycPages}

theorem slotPte_at : wp (slotPte p k)
    (fun r s' => r = ⟨(s.proc p).pagetable, (s.proc p).ramPage k⟩ ∧ s' = s ∧
      (s.ptables (s.proc p).pagetable).present ((s.proc p).ramPage k))
    (fun e _ => e ≠ .exited ∧ ¬SlotPresent s p k) s := by
  simp only [slotPte, wp_bind, wp_getProc]
  by_cases hva : u64 ((s.proc p).ram k).va < maxva
  · rw [wp_walk_false hva, show u64 ((s.proc p).ram k).va / pgsize = (s.proc p).ramPage k from rfl]
    by_cases hp : (s.ptables (s.proc p).pagetable).present ((s.proc p).ramPage k)
    · rw [if_pos hp]
      exact ⟨rfl, rfl, hp⟩
    · rw [if_neg hp]
      exact ⟨by simp, fun h => hp h.2⟩
  · rw [wp_walk_ge (Nat.not_lt.mp hva)]
    exact ⟨by simp, fun h => hva h.1⟩

theorem slotPte_spec : wp (slotPte p k)
    (fun r s' => r = ⟨(s.proc p).pagetable, (s.proc p).ramPage k⟩ ∧ s' = s ∧
      (s.ptables (s.proc p).pagetable).present ((s.proc p).ramPage k))
    (fun e _ => e ≠ .exited ∧ ¬RamPresent s p) s :=
  wp_mono slotPte_at (fun _ _ h => h) fun _ _ h => ⟨h.1, fun hr => h.2 (hr k)⟩

/-- **The scan** changes nothing and finds a user page if there is one. -/
theorem scanRam_spec {key : PageData → BitVec 32} {better : BitVec 32 → BitVec 32 → Bool} :
    wp (scanRam p key better) (fun k s' => s' = s ∧
        ((∃ j, hasFlag (s.ramPte p j) pteU = true) → hasFlag (s.ramPte p k) pteU = true))
      (fun e _ => e ≠ .exited ∧ ¬RamPresent s p) s := by
  unfold scanRam
  rw [wp_bind]
  refine wp_forFold (fun i acc t => t = s ∧
    (∀ k a, acc = some (k, a) → hasFlag (s.ramPte p k) pteU = true) ∧
    (acc = none → ∀ j : Fin maxPsycPages, j.val < i → hasFlag (s.ramPte p j) pteU = false))
    ⟨rfl, fun _ _ h => by simp at h, fun _ j h => by omega⟩ ?_ ?_
  · rintro i acc t - hi ⟨rfl, hsome, hnone⟩
    simp only [wp_bind]
    refine wp_post slotPte_spec fun r u hu => ?_
    obtain ⟨rfl, rfl, hp⟩ := hu
    have hk : (Fin.ofNat maxPsycPages i).val = i := by
      simp only [Fin.ofNat]
      exact Nat.mod_eq_of_lt (by simpa using hi)
    simp only [wp_readPte, wp_getProc, ← pte_of_present _ hp]
    change wp (if (!hasFlag (u.ramPte p (Fin.ofNat maxPsycPages i)) pteU) = true then _ else _)
      _ _ _
    cases hU : hasFlag (u.ramPte p (Fin.ofNat maxPsycPages i)) pteU with
    | false =>
      refine ⟨rfl, hsome, fun h j hj => ?_⟩
      by_cases hji : j.val < i
      · exact hnone h j hji
      · obtain rfl : j = Fin.ofNat maxPsycPages i := Fin.ext (by omega)
        exact hU
    | true =>
      simp only [Bool.not_true, Bool.false_eq_true, if_false]
      cases acc with
      | none =>
        refine ⟨rfl, fun k a h => ?_, fun h => by simp at h⟩
        obtain ⟨rfl, -⟩ : Fin.ofNat maxPsycPages i = k ∧ _ = a := by simpa using h
        exact hU
      | some jb =>
        obtain ⟨j, b⟩ := jb
        refine wp_ite (fun _ => ⟨rfl, fun k a h => ?_, fun h => by simp at h⟩) fun _ =>
          ⟨rfl, hsome, fun h => by simp at h⟩
        obtain ⟨rfl, -⟩ : Fin.ofNat maxPsycPages i = k ∧ _ = a := by simpa using h
        exact hU
  · rintro acc t ⟨rfl, hsome, hnone⟩
    refine ⟨rfl, ?_⟩
    rintro ⟨j, hj⟩
    cases acc with
    | none => exact absurd hj (by simp [hnone rfl j (by have := j.isLt; omega)])
    | some ka => exact hsome ka.1 ka.2 rfl

end Scan

/-! ## Ageing -/

/-- Accessed bits of the process `p` were cleared and queue positions renewed, and that is all. -/
structure Aged (p : Fin nproc) (s s' : Kernel) : Prop where
  rest : s' = { s with ptables := s'.ptables, proc := s'.proc }
  tables : ∀ r, r ≠ (s.proc p).pagetable → s'.ptables r = s.ptables r
  dir : (s'.ptables (s.proc p).pagetable).dir = (s.ptables (s.proc p).pagetable).dir
  pte : ∀ v, (s'.ptables (s.proc p).pagetable).pte v = (s.ptables (s.proc p).pagetable).pte v ∨
    (s'.ptables (s.proc p).pagetable).pte v =
      (s.ptables (s.proc p).pagetable).pte v &&& ~~~pteA
  procs : ∀ i, i ≠ p → s'.proc i = s.proc i
  proc : s'.proc p =
    { s.proc p with ram := (s'.proc p).ram, fifoCounter := (s'.proc p).fifoCounter }
  ram : ∀ k, (s'.proc p).ram k =
    { (s.proc p).ram k with fifoTime := ((s'.proc p).ram k).fifoTime }

namespace Aged

variable {p : Fin nproc} {s t u : Kernel}

theorem refl (p : Fin nproc) (s : Kernel) : Aged p s s :=
  ⟨rfl, fun _ _ => rfl, rfl, fun _ => .inl rfl, fun _ _ => rfl, rfl, fun _ => rfl⟩

variable (h : Aged p s t)
include h

theorem pagetable_eq : (t.proc p).pagetable = (s.proc p).pagetable := by
  rw [h.proc]

theorem ramPage_eq (k : Fin maxPsycPages) : (t.proc p).ramPage k = (s.proc p).ramPage k := by
  rw [Proc.ramPage, h.ram]
  rfl

theorem hasFlag_eq {flag : Pte} (hf : flag &&& pteA = 0#64) (v : Nat) :
    hasFlag ((t.ptables (s.proc p).pagetable).pte v) flag =
      hasFlag ((s.ptables (s.proc p).pagetable).pte v) flag := by
  rcases h.pte v with hv | hv
  · rw [hv]
  · rw [hv, hasFlag_clear hf]

theorem pte2pa_eq (v : Nat) : pte2pa ((t.ptables (s.proc p).pagetable).pte v) =
      pte2pa ((s.ptables (s.proc p).pagetable).pte v) := by
  rcases h.pte v with hv | hv
  · rw [hv]
  · rw [hv, pte2pa_clear _ (by decide)]

theorem present_iff (v : Nat) :
    (t.ptables (s.proc p).pagetable).present v ↔ (s.ptables (s.proc p).pagetable).present v := by
  simp only [present, node, h.dir]

theorem ramPresent_iff : RamPresent t p ↔ RamPresent s p := by
  refine forall_congr' fun k => ?_
  rw [SlotPresent, SlotPresent, h.pagetable_eq, h.ramPage_eq, h.present_iff, h.ram]

theorem ramPte_hasFlag {flag : Pte} (hf : flag &&& pteA = 0#64)
    (k : Fin maxPsycPages) : hasFlag (t.ramPte p k) flag = hasFlag (s.ramPte p k) flag := by
  rw [ramPte, h.pagetable_eq, h.ramPage_eq, h.hasFlag_eq hf]
  rfl

theorem trans (h' : Aged p t u) : Aged p s u where
  rest := by rw [h'.rest, h.rest]
  tables r hr := by rw [h'.tables r (by rwa [h.pagetable_eq]), h.tables r hr]
  dir := by rw [← h.dir, ← h.pagetable_eq, h'.dir]
  pte v := by
    have h2 := h'.pte v
    rw [h.pagetable_eq] at h2
    rcases h.pte v with h1 | h1 <;> rcases h2 with h2 | h2 <;> rw [h2, h1]
    · exact .inl rfl
    · exact .inr rfl
    · exact .inr rfl
    · exact .inr (by rw [BitVec.and_assoc, BitVec.and_self])
  procs i hi := by rw [h'.procs i hi, h.procs i hi]
  proc := by rw [h'.proc, h.proc]
  ram k := by rw [h'.ram, h.ram]

end Aged

/-! ## The queue -/

section Scfifo

variable {s : Kernel} {p : Fin nproc} {k : Fin maxPsycPages}

/-- The state after one round of `get_SCFIFO_index` gave the page in slot `k` a second chance. -/
def Kernel.secondChance (s : Kernel) (p : Fin nproc) (k : Fin maxPsycPages) : Kernel :=
  (s.setPte (s.proc p).pagetable ((s.proc p).ramPage k) (s.ramPte p k &&& ~~~pteA)).setProc p
    { s.proc p with
      ram := Function.update (s.proc p).ram k
        { (s.proc p).ram k with fifoTime := (s.proc p).fifoCounter }
      fifoCounter := (s.proc p).fifoCounter + 1 }

theorem secondChance_aged (hp : (s.ptables (s.proc p).pagetable).present ((s.proc p).ramPage k)) :
    Aged p s (s.secondChance p k) where
  rest := rfl
  tables r hr := by
    show (s.setPte _ _ _).ptables r = _
    rw [setPte_of_ne _ _ _ hr]
  dir := by
    show ((s.setPte _ _ _).ptables _).dir = _
    rw [setPte_self, dir_setLeaf]
  pte v := by
    show ((s.setPte _ _ _).ptables _).pte v = _ ∨ ((s.setPte _ _ _).ptables _).pte v = _
    rw [setPte_self, pte_setLeaf _ hp]
    by_cases hv : v = (s.proc p).ramPage k
    · rw [if_pos hv, hv]
      exact .inr rfl
    · rw [if_neg hv]
      exact .inl rfl
  procs i hi := setProc_of_ne _ _ hi
  proc := by simp [secondChance]
  ram j := by
    simp only [secondChance, setProc_self]
    by_cases hj : j = k
    · subst hj
      simp
    · simp [hj]

/-- The number of `ram` slots whose page was accessed. -/
def accessed (s : Kernel) (p : Fin nproc) : Nat :=
  (Finset.univ.filter fun k : Fin maxPsycPages => hasFlag (s.ramPte p k) pteA = true).card

theorem accessed_secondChance (hp : (s.ptables (s.proc p).pagetable).present ((s.proc p).ramPage k))
    (hA : hasFlag (s.ramPte p k) pteA = true) : accessed (s.secondChance p k) p < accessed s p := by
  have hpte : ∀ j, (s.secondChance p k).ramPte p j =
      if (s.proc p).ramPage j = (s.proc p).ramPage k then s.ramPte p k &&& ~~~pteA
      else s.ramPte p j := by
    intro j
    rw [ramPte, (secondChance_aged hp).pagetable_eq, (secondChance_aged hp).ramPage_eq]
    show ((s.setPte _ _ _).ptables _).pte _ = _
    rw [setPte_self, pte_setLeaf _ hp]
    rfl
  refine Finset.card_lt_card ⟨fun j => ?_, fun hsub => ?_⟩
  · simp only [Finset.mem_filter, Finset.mem_univ, true_and, hpte]
    split
    · simp
    · exact id
  · have := hsub (Finset.mem_filter.mpr ⟨Finset.mem_univ k, hA⟩)
    simp [hpte] at this

/-- **The second-chance queue** ends with a page that was not accessed since. -/
theorem scfifoLoop_spec : ∀ {fuel : Nat} {s : Kernel}, accessed s p < fuel → wp (scfifoLoop p fuel)
      (fun k s' => Aged p s s' ∧
        ((∃ j, hasFlag (s.ramPte p j) pteU = true) → hasFlag (s.ramPte p k) pteU = true))
      (fun e _ => e ≠ .exited ∧ ¬RamPresent s p) s := by
  intro fuel
  induction fuel with
  | zero => intro s h; omega
  | succ fuel ih =>
    intro s hfuel
    simp only [scfifoLoop, wp_bind]
    refine wp_post scanRam_spec fun k t ht => ?_
    obtain ⟨rfl, hU⟩ := ht
    refine wp_post slotPte_spec fun r u hu => ?_
    obtain ⟨rfl, rfl, hp⟩ := hu
    simp only [wp_readPte, ← pte_of_present _ hp]
    change wp (if hasFlag (u.ramPte p k) pteA = true then _ else _) _ _ _
    refine wp_ite (fun hA => ?_) fun hA => ⟨.refl p u, hU⟩
    have haged := secondChance_aged hp
    simp only [wp_bind, wp_writePte, wp_modifyProc]
    refine wp_mono (ih (s := u.secondChance p k) ?_) ?_ ?_
    · have := accessed_secondChance hp hA
      omega
    · rintro k' s' ⟨h1, h2⟩
      refine ⟨haged.trans h1, ?_⟩
      rintro ⟨j, hj⟩
      rw [← haged.ramPte_hasFlag (by decide)]
      exact h2 ⟨j, by rwa [haged.ramPte_hasFlag (by decide)]⟩
    · rintro e s' ⟨he, hn⟩
      exact ⟨he, fun h => hn (haged.ramPresent_iff.mpr h)⟩

/-- **The victim of every policy** is a user page if there is one; the search ends, and changes
nothing but accessed bits and queue positions. -/
theorem victim_spec {pol : Policy} (hc : s.cur = some p) : wp (victim pol)
      (fun k s' => Aged p s s' ∧
        ((∃ j, hasFlag (s.ramPte p j) pteU = true) → hasFlag (s.ramPte p k) pteU = true))
      (fun e _ => e ≠ .exited ∧ ¬RamPresent s p) s := by
  cases pol with
  | scfifo =>
    simp only [victim, getScfifoIndex, wp_bind, wp_myproc hc]
    refine scfifoLoop_spec ?_
    have : accessed s p ≤ (Finset.univ : Finset (Fin maxPsycPages)).card :=
      Finset.card_filter_le _ _
    rw [Finset.card_fin] at this
    omega
  | nfua =>
    simp only [victim, getNfuaIndex, wp_bind, wp_myproc hc]
    exact wp_post scanRam_spec fun k t ht => ⟨ht.1 ▸ .refl p s, ht.2⟩
  | lapa =>
    simp only [victim, getLapaIndex, wp_bind, wp_myproc hc]
    exact wp_post scanRam_spec fun k t ht => ⟨ht.1 ▸ .refl p s, ht.2⟩

end Scfifo

end Xv6Paging
