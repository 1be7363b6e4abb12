import Mathlib.Data.List.Sort
import Xv6Paging.Logic.SecondChance
import Xv6Paging.Vm.Policies

/-!
# The second-chance queue

The slots with user pages, ordered by `fifo_time`, are a queue; `get_SCFIFO_index` runs the textbook
second-chance algorithm on it.  A page that is passed over loses `PTE_A` and gets the next value of
`fifo_counter`, which puts it at the back.
-/

namespace Xv6Paging

open StateHalt Select SecondChance Kernel

/-! ## Queues -/

/-- The queue position of a slot. -/
def Kernel.time (s : Kernel) (p : Fin nproc) (k : Fin maxPsycPages) : BitVec 32 :=
  ((s.proc p).ram k).fifoTime

/-- The accessed bit of a page of the process. -/
def Kernel.pageAccessed (s : Kernel) (p : Fin nproc) (v : Nat) : Bool :=
  hasFlag ((s.ptables (s.proc p).pagetable).pte v) pteA

/-- The slots with user pages, oldest first. -/
def Kernel.fifoQueue (s : Kernel) (p : Fin nproc) : List (Fin maxPsycPages) :=
  ((List.finRange maxPsycPages).filter fun k => s.UserSlot p k).insertionSort
    fun j k => (s.time p j).toNat ≤ (s.time p k).toNat

/-- The queue positions are different and below the counter. -/
structure Timed (s : Kernel) (p : Fin nproc) : Prop where
  distinct : ∀ j k, s.time p j = s.time p k → j = k
  below : ∀ k, s.time p k < (s.proc p).fifoCounter

/-- The slots with user pages are those in `q`, in the order of their positions. -/
structure Queued (s : Kernel) (p : Fin nproc) (q : List (Fin maxPsycPages)) : Prop where
  sorted : q.Pairwise fun j k => s.time p j < s.time p k
  mem : ∀ k, k ∈ q ↔ s.UserSlot p k

section Queue

variable {s : Kernel} {p : Fin nproc} {k : Fin maxPsycPages} {q q' t : List (Fin maxPsycPages)}

theorem Queued.nodup (h : Queued s p q) : q.Nodup :=
  h.sorted.imp fun hlt heq => by
    rw [heq, BitVec.lt_def] at hlt
    exact Nat.lt_irrefl _ hlt

theorem Queued.unique (h : Queued s p q) (h' : Queued s p q') : q = q' := by
  have hperm : q.Perm q' := (List.perm_ext_iff_of_nodup h.nodup h'.nodup).mpr fun k => by
    rw [h.mem, h'.mem]
  refine hperm.eq_of_pairwise (fun j k _ _ hjk hkj => ?_) h.sorted h'.sorted
  rw [BitVec.lt_def] at hjk hkj
  omega

theorem queued_fifoQueue (ht : Timed s p) : Queued s p (s.fifoQueue p) := by
  have hperm := List.perm_insertionSort (fun j k => (s.time p j).toNat ≤ (s.time p k).toNat)
    ((List.finRange maxPsycPages).filter fun k => s.UserSlot p k)
  have hnodup : (s.fifoQueue p).Nodup :=
    hperm.nodup_iff.mpr ((List.nodup_finRange maxPsycPages).filter _)
  constructor
  · have hle := List.pairwise_insertionSort
      (fun j k => (s.time p j).toNat ≤ (s.time p k).toNat)
      ((List.finRange maxPsycPages).filter fun k => s.UserSlot p k)
    -- sorted by `≤` without repetition is sorted by `<`
    refine (List.Pairwise.and hle hnodup).imp ?_
    rintro j k ⟨hjk, hne⟩
    rw [BitVec.lt_def]
    refine Nat.lt_of_le_of_ne hjk fun heq => hne (ht.distinct j k (BitVec.eq_of_toNat_eq heq))
  · intro k
    rw [fifoQueue, hperm.mem_iff]
    simp

theorem Queued.head_of_first (h : Queued s p q)
    (hf : First (s.UserSlot p) (fun j => (s.time p j).toNat) k) : ∃ t, q = k :: t := by
  cases q with
  | nil => exact absurd ((h.mem k).mpr hf.mem) List.not_mem_nil
  | cons x t =>
    refine ⟨t, ?_⟩
    rcases List.mem_cons.mp ((h.mem k).mpr hf.mem) with rfl | hk
    · rfl
    · -- an older head would have been found
      have hlt := (List.pairwise_cons.mp h.sorted).1 k hk
      have hle := hf.minimal x ((h.mem x).mp List.mem_cons_self)
      rw [BitVec.lt_def] at hlt
      omega

end Queue

/-! ## One second chance -/

section Chance

variable {s : Kernel} {p : Fin nproc} {k : Fin maxPsycPages} {t : List (Fin maxPsycPages)}

theorem secondChance_time (j : Fin maxPsycPages) :
    (s.secondChance p k).time p j = if j = k then (s.proc p).fifoCounter else s.time p j := by
  simp only [time, secondChance, setProc_self, Function.update_apply]
  split <;> rfl

theorem secondChance_counter :
    ((s.secondChance p k).proc p).fifoCounter = (s.proc p).fifoCounter + 1 := by
  simp [secondChance]

theorem secondChance_ram {j : Fin maxPsycPages} (hj : j ≠ k) :
    ((s.secondChance p k).proc p).ram j = (s.proc p).ram j := by
  simp [secondChance, hj]

theorem secondChance_pte
    (hp : (s.ptables (s.proc p).pagetable).present ((s.proc p).ramPage k)) (v : Nat) :
    ((s.secondChance p k).ptables (s.proc p).pagetable).pte v =
      if v = (s.proc p).ramPage k then (s.ptables (s.proc p).pagetable).pte v &&& ~~~pteA
      else (s.ptables (s.proc p).pagetable).pte v := by
  show ((s.setPte _ _ _).ptables _).pte v = _
  rw [setPte_self, PageTable.pte_setLeaf _ hp]
  split
  · rename_i hv
    rw [hv]
    rfl
  · rfl

theorem secondChance_accessed
    (hp : (s.ptables (s.proc p).pagetable).present ((s.proc p).ramPage k)) :
    (s.secondChance p k).pageAccessed p =
      Function.update (s.pageAccessed p) ((s.proc p).ramPage k) false := by
  funext v
  rw [pageAccessed, (secondChance_aged hp).pagetable_eq, secondChance_pte hp,
    Function.update_apply]
  split
  · exact hasFlag_clear_self _ _
  · rfl

theorem succ_counter (h : (s.proc p).fifoCounter.toNat + 1 < 2 ^ 32) :
    ((s.proc p).fifoCounter + 1).toNat = (s.proc p).fifoCounter.toNat + 1 := by
  rw [BitVec.toNat_add, show BitVec.toNat (1 : BitVec 32) = 1 from rfl, Nat.mod_eq_of_lt h]

/-- The positions stay different and below the counter, if it does not overflow. -/
theorem Timed.secondChance (h : Timed s p) (hcnt : (s.proc p).fifoCounter.toNat + 1 < 2 ^ 32) :
    Timed (s.secondChance p k) p := by
  constructor
  · intro i j
    rw [secondChance_time, secondChance_time]
    split <;> split
    · simp_all
    · rename_i hj
      intro heq
      have hlt := h.below j
      rw [heq, BitVec.lt_def] at hlt
      omega
    · rename_i hi _
      intro heq
      have hlt := h.below i
      rw [heq, BitVec.lt_def] at hlt
      omega
    · exact h.distinct i j
  · intro j
    rw [secondChance_counter, secondChance_time, BitVec.lt_def, succ_counter hcnt]
    split
    · omega
    · have hlt := h.below j
      rw [BitVec.lt_def] at hlt
      omega

theorem Queued.secondChance (h : Queued s p (k :: t)) (ht : Timed s p)
    (hp : (s.ptables (s.proc p).pagetable).present ((s.proc p).ramPage k)) :
    Queued (s.secondChance p k) p (t ++ [k]) := by
  have hnodup := h.nodup
  obtain ⟨hk, htail⟩ := List.nodup_cons.mp hnodup
  have hne : ∀ j ∈ t, j ≠ k := fun j hj heq => hk (heq ▸ hj)
  constructor
  · rw [List.pairwise_append]
    refine ⟨?_, List.pairwise_singleton _ _, ?_⟩
    · refine (List.pairwise_cons.mp h.sorted).2.imp_of_mem fun {i j} hi hj hlt => ?_
      rwa [secondChance_time, secondChance_time, if_neg (hne i hi), if_neg (hne j hj)]
    · intro i hi j hj
      rw [List.mem_singleton] at hj
      subst hj
      rw [secondChance_time, secondChance_time, if_neg (hne i hi), if_pos rfl]
      exact ht.below i
  · intro j
    rw [(List.perm_append_singleton k t).mem_iff, h.mem, Kernel.UserSlot, Kernel.UserSlot,
      (secondChance_aged hp).ramPte_hasFlag (by decide)]

end Chance

/-! ## The rounds -/

section Rounds

variable {p : Fin nproc} {k : Fin maxPsycPages} {passed : List (Fin maxPsycPages)}

/-- The slots in `passed` got their second chance, in this order. -/
def Kernel.passOver (s : Kernel) (p : Fin nproc) (passed : List (Fin maxPsycPages)) : Kernel :=
  passed.foldl (fun s k => s.secondChance p k) s

theorem passOver_cons (s : Kernel) (k : Fin maxPsycPages) :
    s.passOver p (k :: passed) = (s.secondChance p k).passOver p passed := rfl

/-- **The rounds of `get_SCFIFO_index`** are those of the algorithm. -/
theorem scfifoLoop_picks {fuel : Nat} {s : Kernel} {q : List (Fin maxPsycPages)}
    (hfuel : accessed s p < fuel) (hr : RamPresent s p) (ht : Timed s p)
    (hcnt : (s.proc p).fifoCounter.toNat + fuel < 2 ^ 32) (hq : Queued s p q)
    (hu : ∃ j, s.UserSlot p j) : wp (scfifoLoop p fuel)
      (fun v s' => ∃ passed, Picks (s.proc p).ramPage (s.pageAccessed p) q v passed ∧
        s' = s.passOver p passed) (fun _ _ => False) s := by
  induction fuel generalizing s q with
  | zero => omega
  | succ fuel ih =>
    simp only [scfifoLoop, wp_bind]
    have hearlier : ∀ a b : BitVec 32, decide (a < b) = true ↔ a.toNat < b.toNat := by
      intro a b
      rw [decide_eq_true_iff, BitVec.lt_def]
    refine wp_post (scanRam_first hearlier hr hu) ?_
    rintro k _ ⟨rfl, hfirst⟩
    rename_i s
    obtain ⟨t, rfl⟩ := hq.head_of_first hfirst
    rw [wp_slotPte hr, wp_readPte, leaf_ramPage hr]
    apply wp_ite
    · intro hA
      have hp := (hr k).2
      have haged := secondChance_aged hp
      simp only [wp_bind, wp_writePte, wp_modifyProc]
      have hless := accessed_secondChance hp hA
      have hrest := ih (s := s.secondChance p k) (by omega) (haged.ramPresent_iff.mpr hr)
        (ht.secondChance (by omega))
        (by rw [secondChance_counter, succ_counter (by omega)]; omega) (hq.secondChance ht hp)
        (hu.imp fun j hj => by rwa [Kernel.UserSlot, haged.ramPte_hasFlag (by decide)])
      refine wp_post hrest ?_
      rintro v s' ⟨passed, hpicks, rfl⟩
      refine ⟨k :: passed, .skip hA ?_, rfl⟩
      rw [secondChance_accessed hp] at hpicks
      rwa [show ((s.secondChance p k).proc p).ramPage = (s.proc p).ramPage from
        funext haged.ramPage_eq] at hpicks
    · intro hA
      exact ⟨[], .take (eq_false_of_ne_true hA), rfl⟩

/-! ## What is left behind -/

variable {s : Kernel}

theorem passOver_aged (hr : RamPresent s p) : Aged p s (s.passOver p passed) := by
  induction passed generalizing s with
  | nil => exact .refl p s
  | cons k passed ih =>
    have haged := secondChance_aged (hr k).2
    exact haged.trans (ih (haged.ramPresent_iff.mpr hr))

theorem passOver_counter : ((s.passOver p passed).proc p).fifoCounter =
    (s.proc p).fifoCounter + BitVec.ofNat 32 passed.length := by
  induction passed generalizing s with
  | nil => simp [passOver]
  | cons k passed ih =>
    rw [passOver_cons, ih, secondChance_counter, List.length_cons, BitVec.add_assoc]
    congr 1
    apply BitVec.eq_of_toNat_eq
    simp [Nat.add_comm]

theorem passOver_ram (hk : k ∉ passed) :
    ((s.passOver p passed).proc p).ram k = (s.proc p).ram k := by
  induction passed generalizing s with
  | nil => rfl
  | cons j passed ih =>
    rw [List.mem_cons, not_or] at hk
    rw [passOver_cons, ih hk.2, secondChance_ram hk.1]

theorem passOver_time (hnd : passed.Nodup) {i : Nat} (hi : i < passed.length) :
    (s.passOver p passed).time p passed[i] = (s.proc p).fifoCounter + BitVec.ofNat 32 i := by
  induction passed generalizing s i with
  | nil => simp at hi
  | cons k passed ih =>
    obtain ⟨hk, hnd'⟩ := List.nodup_cons.mp hnd
    rw [passOver_cons]
    cases i with
    | zero =>
      rw [List.getElem_cons_zero, time, passOver_ram hk]
      show (s.secondChance p k).time p k = _
      rw [secondChance_time, if_pos rfl]
      simp
    | succ i =>
      rw [List.getElem_cons_succ, ih hnd' (by simpa using hi), secondChance_counter,
        BitVec.add_assoc]
      congr 1
      apply BitVec.eq_of_toNat_eq
      simp [Nat.add_comm]

theorem passOver_pte (hr : RamPresent s p) (v : Nat) :
    ((s.passOver p passed).ptables (s.proc p).pagetable).pte v =
      if v ∈ passed.map (s.proc p).ramPage then (s.ptables (s.proc p).pagetable).pte v &&& ~~~pteA
      else (s.ptables (s.proc p).pagetable).pte v := by
  induction passed generalizing s with
  | nil => simp [passOver]
  | cons k passed ih =>
    have haged := secondChance_aged (hr k).2
    have hrest := ih (haged.ramPresent_iff.mpr hr)
    rw [haged.pagetable_eq, show ((s.secondChance p k).proc p).ramPage = (s.proc p).ramPage from
      funext haged.ramPage_eq, secondChance_pte (hr k).2] at hrest
    rw [passOver_cons, hrest, List.map_cons]
    by_cases hk : v = (s.proc p).ramPage k
    · rw [if_pos hk, if_pos (List.mem_cons.mpr (.inl hk)), BitVec.and_assoc, BitVec.and_self,
        ite_self]
    · simp only [hk, List.mem_cons, false_or, if_false]

theorem passOver_timed (ht : Timed s p)
    (hcnt : (s.proc p).fifoCounter.toNat + passed.length < 2 ^ 32) :
    Timed (s.passOver p passed) p := by
  induction passed generalizing s with
  | nil => exact ht
  | cons k passed ih =>
    rw [List.length_cons] at hcnt
    refine ih (ht.secondChance (by omega)) ?_
    rw [secondChance_counter, succ_counter (by omega)]
    omega

theorem passOver_queued {rest : List (Fin maxPsycPages)} (hq : Queued s p (passed ++ rest))
    (ht : Timed s p) (hcnt : (s.proc p).fifoCounter.toNat + passed.length < 2 ^ 32)
    (hr : RamPresent s p) : Queued (s.passOver p passed) p (rest ++ passed) := by
  induction passed generalizing s rest with
  | nil => simpa [passOver] using hq
  | cons k passed ih =>
    rw [List.length_cons] at hcnt
    have hp := (hr k).2
    rw [List.cons_append] at hq
    have hnext := hq.secondChance ht hp
    rw [List.append_assoc] at hnext
    have h := ih hnext (ht.secondChance (by omega))
      (by rw [secondChance_counter, succ_counter (by omega)]; omega)
      ((secondChance_aged hp).ramPresent_iff.mpr hr)
    rwa [List.append_assoc, List.singleton_append] at h

/-- The slot `v` was picked and those in `passed` were passed over: they lost `PTE_A` and are behind
the others, in the same order, with fresh positions; nothing else changed. -/
structure PassedOver (p : Fin nproc) (s : Kernel) (v : Fin maxPsycPages)
    (passed : List (Fin maxPsycPages)) (s' : Kernel) : Prop where
  picks : Picks (s.proc p).ramPage (s.pageAccessed p) (s.fifoQueue p) v passed
  queue : s'.fifoQueue p = (s.fifoQueue p).rotate passed.length
  timed : Timed s' p
  counter : (s'.proc p).fifoCounter = (s.proc p).fifoCounter + BitVec.ofNat 32 passed.length
  time : ∀ i (hi : i < passed.length),
    s'.time p passed[i] = (s.proc p).fifoCounter + BitVec.ofNat 32 i
  slots : ∀ k, k ∉ passed → (s'.proc p).ram k = (s.proc p).ram k
  pte : ∀ w, (s'.ptables (s.proc p).pagetable).pte w =
    if w ∈ passed.map (s.proc p).ramPage then (s.ptables (s.proc p).pagetable).pte w &&& ~~~pteA
    else (s.ptables (s.proc p).pagetable).pte w
  rest : Aged p s s'

theorem length_fifoQueue_le : (s.fifoQueue p).length ≤ maxPsycPages := by
  rw [fifoQueue, List.length_insertionSort]
  calc _ ≤ (List.finRange maxPsycPages).length := List.length_filter_le _ _
    _ = maxPsycPages := List.length_finRange

/-- **`get_SCFIFO_index` is second chance.**  With mapped `ram` entries of which one has `PTE_U`,
and different queue positions below a counter that is far from its limit, it terminates; it picks
the slot that second chance picks on the queue of the user pages and leaves behind what second
chance does.  If no page is recorded twice, this is the first slot whose page has `PTE_A` clear, or
the oldest if all have it set. -/
theorem scfifo_is_second_chance (hc : s.cur = some p) (hr : RamPresent s p)
    (hu : ∃ j, s.UserSlot p j) (ht : Timed s p)
    (hcnt : (s.proc p).fifoCounter.toNat + 32 < 2 ^ 31) :
    ∃ v passed s', getScfifoIndex s = .ok v s' ∧ PassedOver p s v passed s' ∧
      (((s.fifoQueue p).map (s.proc p).ramPage).Nodup →
        (∃ post, s.fifoQueue p = passed ++ v :: post ∧
          (∀ k ∈ passed, hasFlag (s.ramPte p k) pteA = true) ∧
            hasFlag (s.ramPte p v) pteA = false) ∨
        ((s.fifoQueue p).head? = some v ∧ passed = s.fifoQueue p ∧
          ∀ k ∈ s.fifoQueue p, hasFlag (s.ramPte p k) pteA = true)) := by
  have hq := queued_fifoQueue ht
  have hfew : accessed s p < maxPsycPages + 1 := by
    have hle : accessed s p ≤ (Finset.univ : Finset (Fin maxPsycPages)).card :=
      Finset.card_filter_le _ _
    rw [Finset.card_fin] at hle
    omega
  have hloop : wp getScfifoIndex (fun v s' =>
      ∃ passed, Picks (s.proc p).ramPage (s.pageAccessed p) (s.fifoQueue p) v passed ∧
        s' = s.passOver p passed) (fun _ _ => False) s := by
    simp only [getScfifoIndex, wp_bind, wp_myproc hc]
    refine scfifoLoop_picks hfew hr ht ?_ hq hu
    simp only [maxPsycPages]
    omega
  obtain ⟨v, s', hok, passed, hpicks, rfl⟩ := wp_total hloop
  -- the slots passed over are the front of the queue
  obtain ⟨hle, htake⟩ := hpicks.passed_eq
  have hsplit : s.fifoQueue p = passed ++ (s.fifoQueue p).drop passed.length := by
    conv_lhs => rw [← List.take_append_drop passed.length (s.fifoQueue p), ← htake]
  have hbound : (s.proc p).fifoCounter.toNat + passed.length < 2 ^ 32 := by
    have := length_fifoQueue_le (s := s) (p := p)
    simp only [maxPsycPages] at this
    omega
  have hnd : passed.Nodup := htake ▸ hq.nodup.sublist (List.take_sublist _ _)
  have htimed := passOver_timed ht hbound
  refine ⟨v, passed, s.passOver p passed, hok, ?_, fun hpages => hpicks.closed_form hpages⟩
  refine ⟨hpicks, ?_, htimed, passOver_counter, fun i hi => passOver_time hnd hi,
    fun k hk => passOver_ram hk, passOver_pte hr, passOver_aged hr⟩
  rw [List.rotate_eq_drop_append_take hle, ← htake]
  exact (queued_fifoQueue htimed).unique (passOver_queued (hsplit ▸ hq) ht hbound hr)

/-- Sixteen resident pages of which the first lacks `PTE_U` and the next two were accessed. -/
def queuedKernel : Kernel :=
  residentKernel (fun k => if k = 0 then pteR ||| pteV else if k = 1 ∨ k = 2 then
    permUser ||| pteV ||| pteA else permUser ||| pteV) (fun _ => 0#32) fun k => BitVec.ofNat 32 k

/-- The pages 1 and 2 are passed over, and the page 3 is the victim. -/
theorem queuedKernel_picks : ∃ s', getScfifoIndex queuedKernel = .ok 3 s' ∧
    PassedOver 0 queuedKernel 3 [1, 2] s' := by
  have hr : RamPresent queuedKernel 0 := by
    unfold RamPresent SlotPresent
    decide +kernel
  have ht : Timed queuedKernel 0 := ⟨by decide +kernel, by decide +kernel⟩
  obtain ⟨v, passed, s', hok, hpassed, -⟩ :=
    scfifo_is_second_chance (s := queuedKernel) (p := 0) rfl hr ⟨1, by decide +kernel⟩ ht
      (by decide +kernel)
  have hq : queuedKernel.fifoQueue 0 =
      [1, 2] ++ 3 :: [4, 5, 6, 7, 8, 9, 10, 11, 12, 13, 14, 15] := by
    decide +kernel
  have hpicks := hpassed.picks
  rw [hq] at hpicks
  obtain ⟨rfl, rfl⟩ := hpicks.unique (Picks.of_clear (by decide +kernel) (by decide +kernel)
    (by decide +kernel))
  exact ⟨s', hok, hpassed⟩

end Rounds

end Xv6Paging
