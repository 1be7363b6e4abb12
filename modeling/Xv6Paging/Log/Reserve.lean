import Mathlib.Algebra.BigOperators.Ring.Finset
import Mathlib.Algebra.Order.BigOperators.Group.Finset
import Xv6Paging.Log.Group

/-!
# The reservation of `begin_op`

`begin_op` reserves `MAXOPBLOCKS` blocks of `LOGSIZE` for every operation, but one block of the log
on disk is its header, and `log_write` refuses to log when the others are full.  Whether the
reservation is enough depends on how many blocks the operations log.
-/

namespace Xv6Paging

open StateHalt

variable {ι : Type} [DecidableEq ι]

/-- The reserved blocks that the operations of the processes in `S` have not logged. -/
def System.unused (s : System ι) (S : Finset ι) : Nat :=
  ∑ i ∈ S, (maxOpBlocks - (s.hist.logged i).card)

/-- **The invariant of the reservation**, for operations that log fewer blocks than they reserved:
what is in the header and what is still reserved fit in the log, with a block to spare once an
operation has ended. -/
structure ReserveInv (s : System ι) : Prop where
  small : ∀ i, s.pc i = .inside → (s.hist.logged i).card < maxOpBlocks
  fits : ∀ S : Finset ι, (∀ i, i ∈ S ↔ s.pc i = .inside) →
    s.log.lh.length + s.unused S ≤ logSize ∧
      (s.log.lh.length + s.unused S < logSize ∨ 2 ≤ S.card)

namespace ReserveInv

variable {s : System ι} {i : ι} {S : Finset ι} {s' : System ι} {size : Int}

theorem init : ReserveInv (System.init : System ι) where
  small := by simp [System.init]
  fits S hS := by
    have h0 : S = ∅ := Finset.eq_empty_of_forall_notMem fun i hi => by
      simpa [System.init] using (hS i).mp hi
    subst h0
    simp [System.init, System.unused]

theorem move (hv : ReserveInv s)
    (hpc : ∀ j, s'.pc j = .inside ↔ s.pc j = .inside) (hlogged : s'.hist.logged = s.hist.logged)
    (hlh : s'.log.lh.length ≤ s.log.lh.length) : ReserveInv s' where
  small j hj := by
    rw [hlogged]
    exact hv.small j ((hpc j).mp hj)
  fits S hS := by
    obtain ⟨h1, h2⟩ := hv.fits S fun j => (hS j).trans (hpc j)
    have hu : s'.unused S = s.unused S := by simp only [System.unused, hlogged]
    rw [hu]
    exact ⟨by omega, h2.imp (fun h => by omega) id⟩

theorem unused_le (s : System ι) (S : Finset ι) : s.unused S ≤ maxOpBlocks * S.card := by
  unfold System.unused
  calc ∑ i ∈ S, (maxOpBlocks - (s.hist.logged i).card)
      ≤ ∑ _i ∈ S, maxOpBlocks := Finset.sum_le_sum fun i _ => Nat.sub_le _ _
    _ = maxOpBlocks * S.card := by rw [Finset.sum_const_nat fun _ _ => rfl, Nat.mul_comm]

theorem unused_erase (s : System ι) (hi : i ∈ S) :
    s.unused S = (maxOpBlocks - (s.hist.logged i).card) + s.unused (S.erase i) :=
  (Finset.add_sum_erase S _ hi).symm

theorem unused_congr {s : System ι} (h : ∀ j ∈ S, s'.hist.logged j = s.hist.logged j) :
    s'.unused S = s.unused S :=
  Finset.sum_congr rfl fun j hj => by rw [h j hj]

theorem enter {log : GroupLog} (hs : GroupInv s) (hv : ReserveInv s) (h : s.pc i = .begin)
    (hr : beginRound s.log = .ok true log) :
    ReserveInv ((System.openOp { s with log := log } i).setPc i .inside) := by
  obtain ⟨hc, hfit, rfl⟩ := beginRound_true hr
  obtain ⟨T, hT, hcard⟩ := hs.active
  have hi : i ∉ T := fun hi => by simp [(hT i).mp hi] at h
  constructor
  · intro j hj
    by_cases hji : j = i
    · subst hji
      simp [System.setPc, System.openOp, maxOpBlocks]
    · have := hv.small j (by simpa [System.setPc, System.openOp, hji] using hj)
      simpa [System.setPc, System.openOp, hji] using this
  · intro S hS
    have hST : S = insert i T := by
      ext j
      rw [hS j]
      by_cases hji : j = i
      · subst hji
        simp [System.setPc]
      · simp [System.setPc, System.openOp, hji, hT j]
    subst hST
    have hu : ((System.openOp { s with log := { s.log with
        outstanding := s.log.outstanding + 1 } } i).setPc i .inside).unused (insert i T) =
        maxOpBlocks + s.unused T := by
      rw [unused_erase _ (Finset.mem_insert_self i T), Finset.erase_insert hi]
      congr 1
      · simp [System.setPc, System.openOp]
      · refine unused_congr fun j hj => ?_
        have hji : j ≠ i := fun hji => hi (hji ▸ hj)
        simp [System.setPc, System.openOp, hji]
    have hle := unused_le s T
    rw [hu, Finset.card_insert_of_notMem hi]
    show s.log.lh.length + _ ≤ _ ∧ (s.log.lh.length + _ < _ ∨ _)
    rw [hcard] at hfit
    simp only [maxOpBlocks, logSize] at *
    refine ⟨by omega, ?_⟩
    -- the first operation of a transaction finds an empty header
    rcases Nat.eq_zero_or_pos T.card with h0 | hpos
    · left
      have hlh := hs.idle hc (by rw [hcard, h0]; rfl)
      rw [hlh, List.length_nil]
      omega
    · right
      omega

/-- A block is logged: it was in the header, or it uses up one reserved block. -/
theorem write {log : GroupLog} {b : Nat} (hh : HistoryInv s) (hv : ReserveInv s)
    (h : s.pc i = .inside) (hb : (insert b (s.hist.logged i)).card < maxOpBlocks)
    (hr : logWrite size b s.log = .ok () log) :
    ReserveInv (System.record { s with log := log } i b) := by
  obtain ⟨rfl, -⟩ := logWrite_ok hr
  constructor
  · intro j hj
    by_cases hji : j = i
    · subst hji
      simpa [System.record] using hb
    · simpa [System.record, hji] using hv.small j hj
  · intro S hS
    obtain ⟨h1, h2⟩ := hv.fits S hS
    have hi : i ∈ S := (hS i).mpr h
    have hrest : (System.record { s with log := { s.log with lh := absorb s.log.lh b } } i b).unused
        (S.erase i) = s.unused (S.erase i) := unused_congr fun j hj => by
      simp [System.record, Finset.ne_of_mem_erase hj]
    have hself : (System.record { s with log := { s.log with lh := absorb s.log.lh b } } i
        b).hist.logged i = insert b (s.hist.logged i) := by
      simp [System.record]
    rw [unused_erase _ hi, hrest, hself]
    rw [unused_erase s hi] at h1 h2
    show (absorb s.log.lh b).length + _ ≤ _ ∧ ((absorb s.log.lh b).length + _ < _ ∨ _)
    by_cases hmem : b ∈ s.log.lh
    · have hcard : (s.hist.logged i).card ≤ (insert b (s.hist.logged i)).card :=
        Finset.card_le_card (Finset.subset_insert _ _)
      rw [absorb, if_pos hmem]
      exact ⟨by omega, h2.imp (fun h => by omega) id⟩
    · have hnew : b ∉ s.hist.logged i := fun hb => hmem (hh.logged i h b hb)
      rw [Finset.card_insert_of_notMem hnew] at hb ⊢
      rw [absorb, if_neg hmem, List.length_append, List.length_singleton]
      exact ⟨by omega, h2.imp (fun h => by omega) id⟩

theorem exit (hs : GroupInv s) (hv : ReserveInv s) (h : s.pc i = .inside)
    (hpc : ∀ j, s'.pc j = .inside ↔ j ≠ i ∧ s.pc j = .inside)
    (hlogged : s'.hist.logged = s.hist.logged) (hlh : s'.log.lh = s.log.lh) : ReserveInv s' where
  small j hj := by
    rw [hlogged]
    exact hv.small j ((hpc j).mp hj).2
  fits S hS := by
    obtain ⟨T, hT, -⟩ := hs.active
    have hST : S = T.erase i := by
      ext j
      rw [hS j, hpc j, Finset.mem_erase, hT j]
    subst hST
    obtain ⟨h1, -⟩ := hv.fits T hT
    rw [unused_erase s ((hT i).mpr h)] at h1
    have hu : s'.unused (T.erase i) = s.unused (T.erase i) :=
      unused_congr fun j _ => by rw [hlogged]
    have hsmall := hv.small i h
    rw [hu, hlh]
    exact ⟨by omega, .inl (by omega)⟩

/-- **Every step of operations that log fewer than `MAXOPBLOCKS` blocks keeps the invariant.** -/
theorem step {m : Nat} (hm : m < maxOpBlocks) (hs : GroupInv s)
    (hh : HistoryInv s) (hv : ReserveInv s) (h : Step size (fun S => S.card ≤ m) s s') :
    ReserveInv s' := by
  -- the steps that neither enter nor leave an operation
  have pcs : ∀ (t : System ι) (k : ι) (c : Pc), t.pc = s.pc → s.pc k ≠ .inside → c ≠ .inside →
      ∀ j, (t.setPc k c).pc j = .inside ↔ s.pc j = .inside := by
    intro t k c ht hk hc j
    by_cases hjk : j = k
    · subst hjk
      simp [System.setPc, hk, hc]
    · simp [System.setPc, hjk, ht]
  have wakes : ∀ (t : System ι) (j : ι), t.wakeup.pc j = .inside ↔ t.pc j = .inside :=
    fun t j => GroupInv.wakeup_pc t (by simp) (by simp)
  cases h with
  | call k h => exact hv.move (pcs s k _ rfl (by simp [h]) (by simp)) rfl le_rfl
  | enter k h hr => exact hv.enter hs h hr
  | sleep k h hr =>
    obtain ⟨rfl, -⟩ := beginRound_false hr
    exact hv.move (pcs s k _ rfl (by simp [h]) (by simp)) rfl le_rfl
  | rouse k h => exact hv.move (pcs s k _ rfl (by simp [h]) (by simp)) rfl le_rfl
  | write k b h ha hr => exact hv.write hh h (Nat.lt_of_le_of_lt ha hm) hr
  | leave k h hr =>
    obtain ⟨-, -, rfl⟩ := endOp_ok hr
    refine hv.exit hs h (fun j => ?_) rfl rfl
    by_cases hjk : j = k
    · subst hjk
      simp [System.setPc]
    · simp only [System.setPc, Function.update_of_ne hjk, ne_eq, hjk, not_false_eq_true, true_and]
      exact wakes _ j
  | close k h hr =>
    obtain ⟨-, -, rfl⟩ := endOp_ok hr
    refine hv.exit hs h (fun j => ?_) rfl rfl
    by_cases hjk : j = k
    · subst hjk
      simp [System.setPc]
    · simp [System.setPc, hjk]
  | check k h => exact hv.move (pcs s k _ rfl (by simp [h]) (by simp)) rfl le_rfl
  | writeLog k h => exact hv.move (pcs s k _ rfl (by simp [h]) (by simp)) rfl le_rfl
  | writeHead k h => exact hv.move (pcs _ k _ rfl (by simp [h]) (by simp)) rfl le_rfl
  | install k h => exact hv.move (pcs s k _ rfl (by simp [h]) (by simp)) rfl le_rfl
  | clear k h => exact hv.move (pcs _ k _ rfl (by simp [h]) (by simp)) rfl (Nat.zero_le _)
  | eraseHead k h => exact hv.move (pcs s k _ rfl (by simp [h]) (by simp)) rfl le_rfl
  | finish k h =>
    refine hv.move (fun j => ?_) rfl le_rfl
    by_cases hjk : j = k
    · subst hjk
      simp [System.setPc, h]
    · simp only [System.setPc, Function.update_of_ne hjk]
      exact wakes _ j

theorem reachable {m : Nat} (hm : m < maxOpBlocks)
    (h : System.Reachable size (fun S => S.card ≤ m) s) : ReserveInv s := by
  induction h with
  | refl => exact init
  | tail hr hstep ih => exact ih.step hm (GroupInv.reachable hr) (HistoryInv.reachable hr) hstep

theorem lh_lt (hs : GroupInv s) (hv : ReserveInv s) (h : s.pc i = .inside) :
    s.log.lh.length + 1 < logSize := by
  obtain ⟨S, hS, -⟩ := hs.active
  have hi : i ∈ S := (hS i).mpr h
  obtain ⟨h1, h2⟩ := hv.fits S hS
  have hsmall := hv.small i h
  rw [unused_erase s hi] at h1 h2
  rcases h2 with h2 | h2
  · omega
  · -- another operation has reserved a block that it will not use
    have hpos : 0 < (S.erase i).card := by
      rw [Finset.card_erase_of_mem hi]
      omega
    obtain ⟨j, hj⟩ := Finset.card_pos.mp hpos
    have hsmall' := hv.small j ((hS j).mp (Finset.mem_of_mem_erase hj))
    rw [unused_erase s hj] at h1
    omega

end ReserveInv

/-! ## Operations that use all they reserved -/

/-- The process `i` logs the blocks `bs`, one after the other. -/
def System.logAll (s : System ι) (i : ι) : List Nat → System ι
  | [] => s
  | b :: bs =>
    (System.record { s with log := { s.log with lh := absorb s.log.lh b } } i b).logAll i bs

theorem logAll_reachable {size : Int} {m : Nat} {i : ι} (bs : List Nat) :
    ∀ {s : System ι}, System.Reachable size (fun S => S.card ≤ m) s → s.pc i = .inside →
      1 ≤ s.log.outstanding → (s.hist.logged i).card + bs.length ≤ m →
      s.log.lh.length + bs.length ≤ logSize → (s.log.lh.length + bs.length : Int) ≤ size - 1 →
      System.Reachable size (fun S => S.card ≤ m) (s.logAll i bs) := by
  induction bs with
  | nil => exact fun hr _ _ _ _ _ => hr
  | cons b bs ih =>
    intro s hr h hout hcard hlog hsize
    simp only [List.length_cons] at hcard hlog hsize
    have hins : (insert b (s.hist.logged i)).card ≤ (s.hist.logged i).card + 1 :=
      Finset.card_insert_le _ _
    have hlen : (absorb s.log.lh b).length ≤ s.log.lh.length + 1 := absorb_length_le
    have hw : logWrite size b s.log = .ok () { s.log with lh := absorb s.log.lh b } := by
      refine logWrite_returns ?_ ?_ hout <;> omega
    refine ih (hr.tail (.write i b h (by omega) hw)) h hout ?_ ?_ ?_
    · simp only [System.record, Function.update_self]
      omega
    · show (absorb s.log.lh b).length + bs.length ≤ logSize
      omega
    · show ((absorb s.log.lh b).length + bs.length : Int) ≤ size - 1
      omega

theorem enter_reachable {size : Int} {allowed : Finset Nat → Prop} {s : System ι} {i : ι}
    {log : GroupLog} (hr : System.Reachable size allowed s) (h : s.pc i = .outside)
    (hb : beginRound s.log = .ok true log) : System.Reachable size allowed
      ((System.openOp { s.setPc i .begin with log := log } i).setPc i .inside) :=
  (hr.tail (.call i h)).tail (.enter i (by simp [System.setPc]) hb)

/-- Three operations are under way: as many as the reservation admits. -/
def threeOps : System (Fin 3) :=
  let enter (s : System (Fin 3)) (i : Fin 3) :=
    (System.openOp { s.setPc i .begin with
      log := { s.log with outstanding := s.log.outstanding + 1 } } i).setPc i .inside
  enter (enter (enter System.init 0) 1) 2

theorem threeOps_reachable {m : Nat} :
    System.Reachable mkfsLog.size (fun S => S.card ≤ m) threeOps := by
  have h0 : System.Reachable mkfsLog.size (fun S => S.card ≤ m) (System.init : System (Fin 3)) :=
    .refl
  have h1 := enter_reachable (i := 0) h0 rfl rfl
  have h2 := enter_reachable (i := 1) h1 rfl rfl
  exact enter_reachable (i := 2) h2 rfl rfl

/-- The first two have logged ten blocks each, the third nine. -/
def fullOps : System (Fin 3) :=
  ((threeOps.logAll 0 (List.range 10)).logAll 1 (List.range' 10 10)).logAll 2 (List.range' 20 9)

theorem fullOps_reachable {m : Nat} (hm : maxOpBlocks ≤ m) :
    System.Reachable mkfsLog.size (fun S => S.card ≤ m) fullOps := by
  have hm' : 10 ≤ m := hm
  have h0 := logAll_reachable (i := 0) (List.range 10) (threeOps_reachable (m := m)) rfl
    (by decide) (by simpa [threeOps, System.openOp, System.setPc, System.init] using hm')
    (by decide) (by decide)
  have h1 := logAll_reachable (i := 1) (List.range' 10 10) h0 rfl (by decide) (Nat.le_trans
    (by decide +kernel) hm') (by decide +kernel) (by decide +kernel)
  exact logAll_reachable (i := 2) (List.range' 20 9) h1 rfl (by decide +kernel) (Nat.le_trans
    (by decide +kernel) hm') (by decide +kernel) (by decide +kernel)

/-- The third operation may log a tenth block, and `log_write` panics. -/
theorem fullOps_panics : System.Reachable mkfsLog.size (fun S => S.card ≤ maxOpBlocks) fullOps ∧
    fullOps.pc 2 = .inside ∧ (insert 29 (fullOps.hist.logged 2)).card ≤ maxOpBlocks ∧
    logWrite mkfsLog.size 29 fullOps.log = .error .tooBig fullOps.log :=
  ⟨fullOps_reachable le_rfl, rfl, by decide +kernel, by rfl⟩

/-- **The reservation is enough exactly for operations that log fewer than `MAXOPBLOCKS` blocks**:
with the log that `mkfs` makes, `log_write` stays clear of "too big a transaction" in every
interleaving of operations of at most `m` blocks iff `m < MAXOPBLOCKS`. -/
theorem reservation_iff (m : Nat) : (∀ (ι : Type) [DecidableEq ι] (s : System ι),
      System.Reachable mkfsLog.size (fun S => S.card ≤ m) s → ∀ i b, s.pc i = .inside →
        (insert b (s.hist.logged i)).card ≤ m →
        ∀ log, logWrite mkfsLog.size b s.log ≠ .error .tooBig log) ↔ m < maxOpBlocks := by
  constructor
  · intro h
    by_contra hm
    have hm' : maxOpBlocks ≤ m := Nat.le_of_not_lt hm
    have hcard : (insert 29 (fullOps.hist.logged 2)).card ≤ maxOpBlocks := by decide +kernel
    exact h (Fin 3) fullOps (fullOps_reachable hm') 2 29 rfl (Nat.le_trans hcard hm') _ rfl
  · intro hm ι _ s hr i b hi _ log
    have hlt := (ReserveInv.reachable hm hr).lh_lt (GroupInv.reachable hr) hi
    have hsize : (mkfsLog.size : Int) = logSize := rfl
    exact logWrite_ne_tooBig (by omega) (by omega)

end Xv6Paging
