import Xv6Paging.Sched.Family

/-!
# Orphans

`exit` gives the children of a process to `initproc` and wakes up whoever may have to see a zombie:
`initproc` after each orphan, which may be a zombie already, and at last its own parent.  The
wakeups come before the process is a zombie itself; nothing is lost because all this happens under
`wait_lock`, which a process must hold to fall asleep in `wait`.
-/

namespace Xv6Paging

open ProcSlot
open Option (some_ne_none)

variable {n : Nat}

namespace FamilyPc

theorem spares_of_status {pc : FamilyPc n} (h : pc.status = none) (k : Fin n) : pc.Spares k := by
  cases pc <;> trivial

end FamilyPc

/-- The wakeup of a process that sleeps in `wait` finds it, unless it is about to sleep and holds
the lock of its slot. -/
theorem ProcSlot.not_waiting_wake {i : Fin n} {t : ProcSlot n} (hp : t.Placed i) (hu : t.Unlocked) :
    ¬(t.wake (.proc i)).Waiting := by
  rintro ⟨hpc, hw⟩
  unfold ProcSlot.wake at hpc hw
  split at hpc
  · rename_i hs
    rw [if_pos hs] at hw
    rcases hw with hw | hw
    · cases hw
    · exact hw hu.1
  · rename_i hs
    rw [if_neg hs] at hw
    rcases hw with hw | hw
    · exact hs ⟨hw, hp.asleep hpc hw⟩
    · exact hw hu.1

namespace FamilyInv

variable {init i j k m q : Fin n} {s t : FamilySystem n}

section

variable (h : FamilyInv init s) {st : Int}
include h

theorem exitAcquire (hrun : (s.slot i).Runs (.exitEnter st))
    (hl : s.waitLock = none) : FamilyInv init ((s.acquire i).goto i (.reparent st 0)) :=
  h.move (Moves.goto h hrun rfl (fun _ => rfl) (h.others_acquire hl)
    (h.not_init hrun (some_ne_none _)) (fun _ _ _ => Nat.zero_le _)
    nofun nofun nofun nofun)

theorem reparentNext {st : Int} {pc : FamilyPc n} (hrun : (s.slot i).Runs pc)
    (hst : pc.status = some st) (hl : pc.holdsLock = true)
    (hspares : ∀ k', (s.slot k').parent = some i → pc.Spares k' → k.val + 1 ≤ k'.val)
    (hwake : ∀ st o m, pc = .wakeInit st o m → ¬m ≤ init.val) :
    FamilyInv init (s.goto i (.reparent st (k + 1))) := by
  refine h.move (Moves.goto h hrun rfl (fun _ => h.lock_of_runs hrun hl) h.others_same
    (h.not_init hrun (by rw [hst]; exact some_ne_none _)) hspares nofun ?_ nofun nofun)
  exact fun st o m hpc hm => absurd hm (hwake st o m hpc)

theorem reparentDone {st : Int} (hrun : (s.slot i).Runs (.reparent st n)) :
    FamilyInv init (s.goto i (.wakeParent st 0)) := by
  refine h.move (Moves.goto h hrun rfl (fun _ => h.lock_of_runs hrun rfl) h.others_same
    (h.not_init hrun (some_ne_none _)) ?_ nofun nofun ?_ nofun)
  · exact fun k _ hle => absurd k.isLt (Nat.not_lt.mpr hle)
  · rintro st m q ⟨⟩ _ hlt
    exact absurd hlt (Nat.not_lt_zero _)

/-- A child of the process becomes a child of `initproc`.  It may be a zombie, and `initproc` may be
asleep: the wakeup is still to come. -/
theorem reparentChild {st : Int} (hrun : (s.slot i).Runs (.reparent st k))
    (hp : (s.slot k).parent = some i) : FamilyInv init
      ((s.put k { s.slot k with parent := some init }).goto i (.wakeInit st k 0)) := by
  obtain ⟨hr, hd, hpc⟩ := hrun
  have hholds : (s.slot i).pc.holdsLock = true := by rw [hpc]; rfl
  have hinit : i ≠ init := fun hi => h.not_init ⟨hr, hd, hpc⟩ (some_ne_none _) hi
  set u := (s.put k { s.slot k with parent := some init }).goto i (.wakeInit st k 0) with hu
  -- nothing changes but the parent of the one and the place of the other
  have hpar : ∀ j, (u.slot j).parent = if j = k then some init else (s.slot j).parent := by
    intro j
    by_cases hj : j = i <;> by_cases hk : j = k <;>
      simp_all [FamilySystem.goto, FamilySystem.put, ProcSlot.goto, Function.update_apply]
  have hself : (u.slot i).pc = .wakeInit st k 0 := by
    simp [hu, FamilySystem.goto, FamilySystem.put, ProcSlot.goto]
  have hother : ∀ j, j ≠ i → (u.slot j).pc = (s.slot j).pc := by
    intro j hj
    by_cases hk : j = k <;> simp_all [FamilySystem.goto, FamilySystem.put]
  have hstate : ∀ j, (u.slot j).state = (s.slot j).state ∧ (u.slot j).doze = (s.slot j).doze ∧
      (u.slot j).chan = (s.slot j).chan := by
    intro j
    by_cases hj : j = i <;> by_cases hk : j = k <;>
      simp_all [FamilySystem.goto, FamilySystem.put, ProcSlot.goto, Function.update_apply]
  have hlive : ∀ j, (u.slot j).Live ↔ (s.slot j).Live := fun j => by
    rw [Live, Live, (hstate j).1]
  have hwaiting : ∀ j, (u.slot j).Waiting → (s.slot j).Waiting := by
    intro j hw
    by_cases hj : j = i
    · subst hj
      have := hw.1
      rw [hself] at this
      cases this
    · rw [Waiting, hother j hj, (hstate j).1, (hstate j).2.1] at hw
      exact hw
  -- nobody else is under `wait_lock`
  have halone : ∀ j, (u.slot j).pc.holdsLock = true → j = i := by
    intro j hl
    by_contra hj
    rw [hother j hj] at hl
    exact hj (h.owner_unique hl hholds)
  have hnewborn : ∀ j np, (u.slot j).pc.newborn = some np → (s.slot j).pc = (u.slot j).pc := by
    intro j np hn
    by_cases hj : j = i
    · rw [hj, hself] at hn
      cases hn
    · exact (hother j hj).symm
  constructor
  · intro j
    by_cases hj : j = i
    · rw [hj]
      exact .running ((hstate i).1.trans hr) ((hstate i).2.1.trans hd) (by rw [hself]; rfl)
    · have hpj := h.placed j
      constructor
      · rw [(hstate j).1, (hstate j).2.1, hother j hj]
        exact hpj.idle
      · rw [(hstate j).1, hpar]
        intro hun
        have hnone := hpj.orphan hun
        rw [if_neg (by rintro rfl; rw [hp] at hnone; cases hnone)]
        exact hnone
      · rw [(hstate j).1, hother j hj]
        exact hpj.zombie
      · rw [(hstate j).1, (hstate j).2.1, hother j hj]
        exact hpj.busy
      · rw [(hstate j).1, (hstate j).2.1]
        exact hpj.dozing
      · rw [(hstate j).1, (hstate j).2.2, hother j hj]
        exact hpj.asleep
      · rw [(hstate j).2.1, hother j hj]
        exact hpj.drowsy
  · intro j hl
    rw [halone j hl]
    exact h.lock i hholds
  · exact (hlive init).mpr h.initLive
  · rw [hother init hinit.symm]
    exact h.initStays
  · intro j q hq
    rw [hpar] at hq
    split at hq
    · cases hq
      refine ⟨(hlive init).mpr h.initLive, ?_⟩
      rw [hother init hinit.symm]
      exact FamilyPc.spares_of_status h.initStays j
    · rename_i hjk
      have hmp := h.mayParent j q hq
      refine ⟨(hlive q).mpr hmp.1, ?_⟩
      by_cases hqi : q = i
      · -- the slot is behind the one that was given away
        subst hqi
        have hle : k.val ≤ j.val := by simpa [hpc, FamilyPc.Spares] using hmp.2
        rw [hself]
        exact Nat.lt_of_le_of_ne hle fun heq => hjk (Fin.ext heq).symm
      · rw [hother q hqi]
        exact hmp.2
  · intro j hj hlz
    rw [hpar]
    split
    · simp
    · rw [hlive, (hstate j).1] at hlz
      exact h.hasParent j hj hlz
  · intro j np hj
    have hold := hnewborn j np (by rw [hj]; rfl)
    rw [hj] at hold
    obtain ⟨hused, hnone⟩ := h.forking j np hold
    refine ⟨by rw [(hstate np).1]; exact hused, ?_⟩
    rw [hpar, if_neg (by rintro rfl; rw [hp] at hnone; cases hnone)]
    exact hnone
  · intro j np hj
    have hold := hnewborn j np (by rw [hj]; rfl)
    rw [hj] at hold
    obtain ⟨hused, hsome⟩ := h.forked j np hold
    refine ⟨by rw [(hstate np).1]; exact hused, ?_⟩
    have hne : np ≠ k := by
      rintro rfl
      rw [hp] at hsome
      cases hsome
      rw [hpc] at hold
      cases hold
    rw [hpar, if_neg hne]
    exact hsome
  · intro j j' np hj hj'
    refine h.forker j j' np ?_ ?_
    · rw [hnewborn j np hj]
      exact hj
    · rw [hnewborn j' np hj']
      exact hj'
  · intro j q hq hz hw
    rw [hpar] at hq
    split at hq
    · cases hq
      exact ⟨rfl, i, st, k, 0, hself, Nat.zero_le _⟩
    · rw [(hstate j).1] at hz
      obtain ⟨-, j', st', o, m, hj', -⟩ := h.zombies j q hq hz (hwaiting q hw)
      have heq := h.owner_unique (i := j') (by rw [hj']; rfl) hholds
      rw [heq, hpc] at hj'
      cases hj'
  · intro j st' m q hj
    have hji := halone j (by rw [hj]; rfl)
    rw [hji, hself] at hj
    cases hj
  · intro j m kids k' hj
    have hji := halone j (by rw [hj]; rfl)
    rw [hji, hself] at hj
    cases hj

omit h in
theorem runs_put {pc : FamilyPc n} (t' : ProcSlot n) (hrun : (s.slot i).Runs pc) (hm : m ≠ i) :
    ((s.put m t').slot i).Runs pc := by
  rw [s.put_of_ne t' hm.symm]
  exact hrun

theorem wakeInit (hrun : (s.slot i).Runs (.wakeInit st k m))
    (hm : m ≠ i) (hu : (s.slot m).Unlocked) :
    FamilyInv init ((s.put m ((s.slot m).wake (.proc init))).goto i (.wakeInit st k (m + 1))) := by
  have h1 := h.calm (Calm.wake (.proc init) (h.placed m))
  have hrun1 := runs_put ((s.slot m).wake (.proc init)) hrun hm
  refine h1.move (Moves.goto h1 hrun1 rfl (fun _ => h1.lock_of_runs hrun1 rfl)
    h1.others_same (h1.not_init hrun1 (some_ne_none _)) (fun _ _ hlt => hlt)
    nofun ?_ nofun nofun)
  rintro st' o m' ⟨⟩ hle
  rcases Nat.lt_or_eq_of_le hle with hlt | heq
  · exact .inl ⟨m + 1, rfl, hlt⟩
  · -- this was the slot of `initproc`
    have hinit : m = init := Fin.ext heq
    subst hinit
    right
    rw [s.put_self]
    exact not_waiting_wake (h.placed m) hu

/-- The wakeup skips the process itself, which is not `initproc`. -/
theorem wakeInitSelf (hrun : (s.slot i).Runs (.wakeInit st k i)) :
    FamilyInv init (s.goto i (.wakeInit st k (i + 1))) := by
  have hinit : i ≠ init := fun hi => h.not_init hrun (some_ne_none _) hi
  refine h.move (Moves.goto h hrun rfl (fun _ => h.lock_of_runs hrun rfl) h.others_same
    (h.not_init hrun (some_ne_none _)) (fun _ _ hlt => hlt) nofun ?_ nofun nofun)
  rintro st' o m' ⟨⟩ hle
  have hlt : i.val < init.val := Nat.lt_of_le_of_ne hle fun heq => hinit (Fin.ext heq)
  exact .inl ⟨i + 1, rfl, hlt⟩

theorem wakeParent {st : Int} (hrun : (s.slot i).Runs (.wakeParent st m))
    (hq : (s.slot i).parent = some q) (hm : m ≠ i) (hu : (s.slot m).Unlocked) :
    FamilyInv init ((s.put m ((s.slot m).wake (.proc q))).goto i (.wakeParent st (m + 1))) := by
  have hcalm := Calm.wake (.proc q) (h.placed m)
  have h1 := h.calm hcalm
  have hrun1 := runs_put ((s.slot m).wake (.proc q)) hrun hm
  refine h1.move (Moves.goto h1 hrun1 rfl (fun _ => h1.lock_of_runs hrun1 rfl)
    h1.others_same (h1.not_init hrun1 (some_ne_none _)) (fun _ _ hlt => hlt)
    nofun nofun ?_ nofun)
  rintro st' m' q' ⟨⟩ hq' hlt
  rcases Nat.lt_succ_iff_lt_or_eq.mp hlt with hlt | heq
  · exact h1.passed i st m q' hrun1.2.2 hq' hlt
  · -- this was the slot of the parent
    rw [s.put_of_ne _ hm.symm, hq] at hq'
    cases hq'
    have hqm : q = m := Fin.ext heq
    subst hqm
    rw [s.put_self]
    exact not_waiting_wake (h.placed q) hu

/-- The wakeup skips the process itself; it does not wait. -/
theorem wakeParentSelf (hrun : (s.slot i).Runs (.wakeParent st i)) :
    FamilyInv init (s.goto i (.wakeParent st (i + 1))) := by
  refine h.move (Moves.goto h hrun rfl (fun _ => h.lock_of_runs hrun rfl) h.others_same
    (h.not_init hrun (some_ne_none _)) (fun _ _ hlt => hlt) nofun nofun ?_ nofun)
  rintro st' m' q ⟨⟩ hq hlt
  rcases Nat.lt_succ_iff_lt_or_eq.mp hlt with hlt | heq
  · exact h.passed i st i q hrun.2.2 hq hlt
  · have hqi : q = i := Fin.ext heq
    subst hqi
    intro hw
    have := hw.1
    rw [hrun.2.2] at this
    cases this

/-- **The process becomes a zombie.**  It has no children, and its parent does not sleep. -/
theorem zombie (hrun : (s.slot i).Runs (.wakeParent st n)) : FamilyInv init
      (s.release.put i { s.slot i with xstate := st, state := .zombie, pc := .dying }) := by
  obtain ⟨hr, hd, hpc⟩ := hrun
  have hholds : (s.slot i).pc.holdsLock = true := by rw [hpc]; rfl
  refine h.move (l := none) ?_
  constructor
  · constructor
    · rintro (h' | h') <;> cases h'
    · intros
      contradiction
    · simp
    · intros
      contradiction
    · exact fun hne => absurd hd hne
    · intros
      contradiction
    · intros
      contradiction
  · exact .inl (.inr (.inr hr))
  · exact .inr rfl
  · rfl
  · intros
    contradiction
  · exact h.others_release hholds
  · exact h.not_init ⟨hr, hd, hpc⟩ (some_ne_none _)
  · intro k hp
    have hmp := (h.mayParent k i hp).2
    rw [hpc] at hmp
    exact hmp.elim
  · intros
    contradiction
  · refine fun _ => .inr ⟨fun q hq => h.passed i st n q hpc hq q.isLt, fun j hj => ?_⟩
    by_contra hl
    exact hj (h.owner_unique (by simpa using hl) hholds)
  · exact fun hw => by cases hw.1
  · rw [hpc]
    intros
    contradiction
  · intros
    contradiction
  · intros
    contradiction

theorem dead (hpc : (s.slot i).pc = .dying) : FamilyInv init (s.goto i .dead) := by
  have hp := h.placed i
  have hz : (s.slot i).state = .zombie := hp.zombie.mpr (.inl hpc)
  have hnl : ¬(s.slot i).Live := by
    rintro (hl | hl | hl) <;> rw [hz] at hl <;> cases hl
  refine h.move (l := s.waitLock) ?_
  constructor
  · constructor
    · rw [show ((s.slot i).goto .dead).state = .zombie from hz]
      rintro (h' | h') <;> cases h'
    · rw [show ((s.slot i).goto .dead).state = .zombie from hz]
      intros
      contradiction
    · exact ⟨fun _ => .inr rfl, fun _ => hz⟩
    · intros
      contradiction
    · exact hp.dozing
    · intros
      contradiction
    · intros
      contradiction
  · exact .inr hz
  · exact .inr hz
  · rfl
  · intros
    contradiction
  · exact h.others_same
  · rintro rfl
    exact absurd h.initLive hnl
  · exact fun k hk => absurd (h.mayParent k i hk).1 hnl
  · intros
    contradiction
  · exact fun _ => .inl hz
  · exact fun hw => by cases hw.1
  · rw [hpc]
    intros
    contradiction
  · intros
    contradiction
  · intros
    contradiction

/-! ## Every step -/

/-- **Every step keeps the invariant.** -/
theorem step (hstep : FamilyStep init s t) : FamilyInv init t := by
  cases hstep with
  | schedule i hr => exact h.calm (.schedule hr)
  | preempt i hr hd hl => exact h.calm (.preempt hr hd hl)
  | dozeElsewhere i a hr hd he => exact h.calm (.dozeElsewhere a hr he)
  | fallAsleep i hd => exact h.calm (.fallAsleep hd (h.placed i))
  | wakeElsewhere j a hu => exact h.calm (.wake (.other a) (h.placed j))
  | kill j hu => exact h.calm (.kill (h.placed j))
  | forkAlloc i np hrun hn hp => exact h.forkAlloc hrun hn
  | forkFail i hrun => exact h.forkFail hrun
  | forkParent i hrun hl => exact h.forkParent hrun
  | forkDone i hrun => exact h.forkDone hrun
  | waitCall i hrun =>
    exact h.outside (l := s.waitLock) hrun (by simp) (.inr (.inl rfl)) (fun _ => rfl) h.others_same
  | waitAcquire i hrun hl =>
    rcases hrun with hrun | hrun
    · exact h.waitAcquire hrun (by simp) hl
    · exact h.waitAcquire hrun (by simp) hl
  | scanOther i k hrun hp => exact h.scanNext hrun fun hp' => absurd hp' hp
  | scanAlive i k hrun hp hu hz => exact h.scanNext hrun fun _ => hz
  | reap i k hrun hp hu hz => exact h.reap hrun hz
  | reapFault i k hrun hp hu hz => exact h.waitLeave hrun
  | waitFail i hrun hk => exact h.waitLeave hrun
  | waitDoze i hrun hk => exact h.waitDoze hrun
  | exitCall i st hrun hi =>
    have h1 := h.outside (l := s.waitLock) hrun (by simp) (.inr (.inr ⟨st, rfl⟩))
      (fun heq => absurd heq hi) h.others_same
    exact h1.congr rfl rfl
  | exitAcquire i hrun hl => exact h.exitAcquire hrun hl
  | reparentOther i k hrun hp =>
    refine h.reparentNext hrun rfl rfl (fun k' hp' hle => ?_) nofun
    exact Nat.lt_of_le_of_ne hle fun heq => hp (by rw [Fin.ext heq]; exact hp')
  | reparentChild i k hrun hp => exact h.reparentChild hrun hp
  | wakeInit i m hrun hm hu => exact h.wakeInit hrun hm hu
  | wakeInitSelf i hrun => exact h.wakeInitSelf hrun
  | wakeInitDone i hrun =>
    refine h.reparentNext hrun rfl rfl (fun _ _ hlt => hlt) ?_
    rintro st o m ⟨⟩ hle
    exact absurd init.isLt (Nat.not_lt.mpr hle)
  | reparentDone i hrun => exact h.reparentDone hrun
  | wakeParent i m hrun hq hm hu => exact h.wakeParent hrun hq hm hu
  | wakeParentSelf i hrun => exact h.wakeParentSelf hrun
  | zombie i hrun => exact h.zombie hrun
  | dead i hpc => exact h.dead hpc

end

theorem reachable (h : FamilyReachable init s) : FamilyInv init s := by
  induction h with
  | refl => exact .boot init
  | tail _ hstep ih => exact ih.step hstep

end FamilyInv

end Xv6Paging
