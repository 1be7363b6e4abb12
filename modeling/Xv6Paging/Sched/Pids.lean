import Mathlib.Data.List.Nodup
import Xv6Paging.Sched.Orphans

/-!
# Pids and exit statuses

Every pid is handed out once, so that it names one process for ever: it is given to `exit` at most
once, and `wait` returns it at most once, with the status that `exit` was given.
-/

namespace Xv6Paging

open ProcSlot

variable {n : Nat}

namespace ProcSlot

/-- The process has called `exit`, with this status. -/
def Exits (t : ProcSlot n) (st : Int) : Prop :=
  t.pc.status = some st ∨ t.state = .zombie ∧ t.xstate = st

/-- The slot has the same pid, and its process has exited or not, as before. -/
structure Mild (t t' : ProcSlot n) : Prop where
  pid : t'.pid = t.pid
  unused : t'.state = .unused ↔ t.state = .unused
  exits : ∀ st, t'.Exits st ↔ t.Exits st

theorem Mild.refl (t : ProcSlot n) : Mild t t := ⟨rfl, .rfl, fun _ => .rfl⟩

theorem Calm.mild {i : Fin n} {t t' : ProcSlot n} (h : Calm i t t') : Mild t t' :=
  ⟨h.pid, h.unused, fun st => by rw [Exits, Exits, h.pc, h.zombie, h.xstate]⟩

theorem Mild.goto {t : ProcSlot n} {pc : FamilyPc n} (h : pc.status = t.pc.status) :
    Mild t (t.goto pc) := by
  refine ⟨rfl, .rfl, fun st => ?_⟩
  show pc.status = some st ∨ _ ↔ _
  rw [h]
  rfl

end ProcSlot

/-- What holds of pids in every state. -/
structure PidInv (s : FamilySystem n) : Prop where
  range : ∀ i, (s.slot i).state ≠ .unused → (s.slot i).pid < s.nextpid
  inj : ∀ i j, (s.slot i).state ≠ .unused → (s.slot j).state ≠ .unused →
    (s.slot i).pid = (s.slot j).pid → i = j
  exits : ∀ i st, (s.slot i).Exits st → ((s.slot i).pid, st) ∈ s.exited
  runs : ∀ i, (s.slot i).state ≠ .unused → (∀ st, ¬(s.slot i).Exits st) →
    (s.slot i).pid ∉ s.exited.map Prod.fst
  exitedRange : ∀ r ∈ s.exited, r.1 < s.nextpid
  exitedOnce : (s.exited.map Prod.fst).Nodup
  reapedOnce : (s.reaped.map Prod.fst).Nodup
  reaped : ∀ r ∈ s.reaped, r ∈ s.exited
  gone : ∀ r ∈ s.reaped, ∀ i, (s.slot i).state ≠ .unused → (s.slot i).pid ≠ r.1

namespace PidInv

variable {init i j k np : Fin n} {s t : FamilySystem n}

theorem boot (init : Fin n) : PidInv (.boot init) := by
  have hslot : ∀ i, ((FamilySystem.boot init).slot i).state ≠ .unused →
      i = init ∧ (FamilySystem.boot init).slot i = .userinit := by
    intro i hi
    by_cases hii : i = init
    · exact ⟨hii, by simp [FamilySystem.boot, hii]⟩
    · simp [FamilySystem.boot, hii, ProcSlot.zero] at hi
  constructor
  · intro i hi
    rw [(hslot i hi).2]
    exact Nat.lt_succ_self 1
  · intro i j hi hj _
    rw [(hslot i hi).1, (hslot j hj).1]
  · intro i st hex
    by_cases hi : i = init
    · simp [FamilySystem.boot, hi, Exits, userinit, ProcSlot.zero, FamilyPc.status] at hex
    · simp [FamilySystem.boot, hi, Exits, ProcSlot.zero, FamilyPc.status] at hex
  · exact fun _ _ _ => List.not_mem_nil
  · exact fun _ hr => absurd hr List.not_mem_nil
  · exact List.nodup_nil
  · exact List.nodup_nil
  · exact fun _ hr => absurd hr List.not_mem_nil
  · exact fun _ hr => absurd hr List.not_mem_nil

section

variable (h : PidInv s)
include h

theorem mild (hm : ∀ j, Mild (s.slot j) (t.slot j)) (hp : t.nextpid = s.nextpid)
    (he : t.exited = s.exited) (hr : t.reaped = s.reaped) : PidInv t := by
  constructor
  · intro i hi
    rw [(hm i).pid, hp]
    exact h.range i (fun hu => hi ((hm i).unused.mpr hu))
  · intro i j hi hj heq
    rw [(hm i).pid, (hm j).pid] at heq
    exact h.inj i j (fun hu => hi ((hm i).unused.mpr hu)) (fun hu => hj ((hm j).unused.mpr hu)) heq
  · intro i st hex
    rw [(hm i).pid, he]
    exact h.exits i st (((hm i).exits st).mp hex)
  · intro i hi hno
    rw [(hm i).pid, he]
    exact h.runs i (fun hu => hi ((hm i).unused.mpr hu)) fun st hex =>
      hno st (((hm i).exits st).mpr hex)
  · rw [he, hp]
    exact h.exitedRange
  · rw [he]
    exact h.exitedOnce
  · rw [hr]
    exact h.reapedOnce
  · rw [hr, he]
    exact h.reaped
  · intro r hmem i hi
    rw [hr] at hmem
    rw [(hm i).pid]
    exact h.gone r hmem i fun hu => hi ((hm i).unused.mpr hu)

theorem mild_put {t' : ProcSlot n} {l : Option (Fin n)}
    (hm : Mild (s.slot j) t') : PidInv ({ s with waitLock := l }.put j t') := by
  refine h.mild (fun k => ?_) rfl rfl rfl
  by_cases hk : k = j
  · subst hk
    rwa [FamilySystem.put_self]
  · rw [FamilySystem.put_of_ne _ _ hk]
    exact .refl _

theorem goto {pc pc' : FamilyPc n} {l : Option (Fin n)} (hrun : (s.slot i).Runs pc)
    (hst : pc'.status = pc.status) : PidInv ({ s with waitLock := l }.goto i pc') :=
  h.mild_put (Mild.goto (by rw [hst, hrun.2.2]))

theorem put_goto {pc pc' : FamilyPc n} {t' : ProcSlot n} (hrun : (s.slot i).Runs pc)
    (hm : Mild (s.slot j) t') (hpc : t'.pc = (s.slot j).pc) (hst : pc'.status = pc.status) :
    PidInv ((s.put j t').goto i pc') := by
  have h1 : PidInv (s.put j t') := h.mild_put (l := s.waitLock) hm
  refine h1.mild_put (l := s.waitLock) (Mild.goto ?_)
  rw [hst, ← hrun.2.2]
  by_cases hij : i = j
  · rw [hij, s.put_self, hpc]
  · rw [s.put_of_ne _ hij]

theorem allocproc (hpc : (s.slot np).pc = .out) : PidInv (s.allocproc np) := by
  have hself : (s.allocproc np).slot np = { s.slot np with state := .used, pid := s.nextpid } :=
    s.put_self _
  have hother : ∀ j, j ≠ np → (s.allocproc np).slot j = s.slot j := fun j hj => s.put_of_ne _ hj
  have hnew : ∀ r ∈ s.exited, r.1 ≠ s.nextpid := fun r hr => Nat.ne_of_lt (h.exitedRange r hr)
  constructor
  · intro i hi
    by_cases hin : i = np
    · rw [hin, hself]
      exact Nat.lt_succ_self _
    · rw [hother i hin] at hi ⊢
      exact Nat.lt_succ_of_lt (h.range i hi)
  · intro i j hi hj heq
    by_cases hin : i = np <;> by_cases hjn : j = np
    · rw [hin, hjn]
    · rw [hin, hself, hother j hjn] at heq
      rw [hother j hjn] at hj
      exact absurd heq.symm (Nat.ne_of_lt (h.range j hj))
    · rw [hjn, hself, hother i hin] at heq
      rw [hother i hin] at hi
      exact absurd heq (Nat.ne_of_lt (h.range i hi))
    · rw [hother i hin] at hi heq
      rw [hother j hjn] at hj heq
      exact h.inj i j hi hj heq
  · intro i st hex
    by_cases hin : i = np
    · rw [hin, hself] at hex
      rcases hex with hex | ⟨hex, -⟩
      · rw [show (s.slot np).pc = .out from hpc] at hex
        cases hex
      · cases hex
    · rw [hother i hin] at hex ⊢
      exact h.exits i st hex
  · intro i hi hno
    by_cases hin : i = np
    · rw [hin, hself]
      rintro hmem
      obtain ⟨r, hr, heq⟩ := List.mem_map.mp hmem
      exact hnew r hr heq
    · rw [hother i hin] at hi hno ⊢
      exact h.runs i hi hno
  · exact fun r hr => Nat.lt_succ_of_lt (h.exitedRange r hr)
  · exact h.exitedOnce
  · exact h.reapedOnce
  · exact h.reaped
  · intro r hr i hi
    by_cases hin : i = np
    · rw [hin, hself]
      exact (hnew r (h.reaped r hr)).symm
    · rw [hother i hin] at hi ⊢
      exact h.gone r hr i hi

omit h in
theorem used_freeproc {np j : Fin n} (hj : ((s.freeproc np).slot j).state ≠ .unused) :
    j ≠ np ∧ (s.freeproc np).slot j = s.slot j := by
  have hjn : j ≠ np := by
    rintro rfl
    rw [FamilySystem.freeproc, s.put_self] at hj
    exact hj rfl
  exact ⟨hjn, s.put_of_ne _ hjn⟩

theorem freeproc (np : Fin n) : PidInv (s.freeproc np) := by
  constructor
  · intro i hi
    have heq := (used_freeproc hi).2
    rw [heq] at hi ⊢
    exact h.range i hi
  · intro i j hi hj heq
    have hsi := (used_freeproc hi).2
    have hsj := (used_freeproc hj).2
    rw [hsi] at hi heq
    rw [hsj] at hj heq
    exact h.inj i j hi hj heq
  · intro i st hex
    by_cases hin : i = np
    · rw [hin, FamilySystem.freeproc, s.put_self] at hex
      rcases hex with hex | ⟨hex, -⟩ <;> cases hex
    · rw [FamilySystem.freeproc, s.put_of_ne _ hin] at hex ⊢
      exact h.exits i st hex
  · intro i hi hno
    have heq := (used_freeproc hi).2
    rw [heq] at hi hno ⊢
    exact h.runs i hi hno
  · exact h.exitedRange
  · exact h.exitedOnce
  · exact h.reapedOnce
  · exact h.reaped
  · intro r hr i hi
    have heq := (used_freeproc hi).2
    rw [heq] at hi ⊢
    exact h.gone r hr i hi

/-- **`wait` returns a pid** that it has not returned before. -/
theorem reap (hz : (s.slot k).state = .zombie) : PidInv (s.reap k) := by
  have hf := h.freeproc k
  have hk : (s.slot k).state ≠ .unused := by rw [hz]; exact nofun
  refine ⟨hf.range, hf.inj, hf.exits, hf.runs, hf.exitedRange, hf.exitedOnce, ?_, ?_, ?_⟩
  · show ((s.reaped ++ [((s.slot k).pid, (s.slot k).xstate)]).map Prod.fst).Nodup
    rw [List.map_append, List.map_singleton, List.nodup_append]
    refine ⟨h.reapedOnce, List.nodup_singleton _, ?_⟩
    rintro a ha b hb rfl
    obtain ⟨r, hr, rfl⟩ := List.mem_map.mp ha
    exact h.gone r hr k hk (List.mem_singleton.mp hb).symm
  · intro r hr
    rcases List.mem_append.mp hr with hr | hr
    · exact h.reaped r hr
    · rw [List.mem_singleton.mp hr]
      exact h.exits k _ (.inr ⟨hz, rfl⟩)
  · intro r hr i hi
    have hi : ((s.freeproc k).slot i).state ≠ .unused := hi
    obtain ⟨hik, heq⟩ := used_freeproc hi
    show ((s.freeproc k).slot i).pid ≠ r.1
    rw [heq] at hi ⊢
    rcases List.mem_append.mp hr with hr | hr
    · exact h.gone r hr i hi
    · rw [List.mem_singleton.mp hr]
      exact fun hpid => hik (h.inj i k hi hk hpid)

/-- **A process calls `exit`** for the first time. -/
theorem exitCall (hrun : (s.slot i).Runs .out) (st : Int) : PidInv (s.exitCall i st) := by
  have hi : (s.slot i).state ≠ .unused := by rw [hrun.1]; exact nofun
  have hno : ∀ st, ¬(s.slot i).Exits st := by
    rintro st (hex | ⟨hex, -⟩)
    · rw [hrun.2.2] at hex
      cases hex
    · rw [hrun.1] at hex
      cases hex
  have hself : (s.exitCall i st).slot i = (s.slot i).goto (.exitEnter st) := s.put_self _
  have hother : ∀ j, j ≠ i → (s.exitCall i st).slot j = s.slot j := fun j hj => s.put_of_ne _ hj
  have hfields : ∀ j, ((s.exitCall i st).slot j).pid = (s.slot j).pid ∧
      ((s.exitCall i st).slot j).state = (s.slot j).state := by
    intro j
    by_cases hj : j = i
    · rw [hj, hself]
      exact ⟨rfl, rfl⟩
    · rw [hother j hj]
      exact ⟨rfl, rfl⟩
  constructor
  · intro j hj
    rw [(hfields j).2] at hj
    rw [(hfields j).1]
    exact h.range j hj
  · intro j j' hj hj' heq
    rw [(hfields j).2] at hj
    rw [(hfields j').2] at hj'
    rw [(hfields j).1, (hfields j').1] at heq
    exact h.inj j j' hj hj' heq
  · intro j st' hex
    rw [(hfields j).1]
    refine List.mem_append.mpr ?_
    by_cases hj : j = i
    · rw [hj, hself] at hex
      rcases hex with hex | ⟨hex, -⟩
      · cases hex
        exact .inr (by rw [hj]; exact List.mem_singleton_self _)
      · rw [show ((s.slot i).goto (.exitEnter st)).state = .running from hrun.1] at hex
        cases hex
    · rw [hother j hj] at hex
      exact .inl (h.exits j st' hex)
  · intro j hj hnone
    rw [(hfields j).1]
    by_cases hji : j = i
    · rw [hji, hself] at hnone
      exact absurd (.inl rfl) (hnone st)
    · rw [hother j hji] at hj hnone
      show (s.slot j).pid ∉ (s.exited ++ [((s.slot i).pid, st)]).map Prod.fst
      rw [List.map_append, List.map_singleton, List.mem_append, List.mem_singleton]
      rintro (hmem | heq)
      · exact h.runs j hj hnone hmem
      · exact hji (h.inj j i hj hi heq)
  · intro r hr
    rcases List.mem_append.mp hr with hr | hr
    · exact h.exitedRange r hr
    · rw [List.mem_singleton.mp hr]
      exact h.range i hi
  · show ((s.exited ++ [((s.slot i).pid, st)]).map Prod.fst).Nodup
    rw [List.map_append, List.map_singleton, List.nodup_append]
    refine ⟨h.exitedOnce, List.nodup_singleton _, ?_⟩
    rintro a ha b hb rfl
    rw [List.mem_singleton.mp hb] at ha
    exact h.runs i hi hno ha
  · exact h.reapedOnce
  · exact fun r hr => List.mem_append_left _ (h.reaped r hr)
  · intro r hr j hj
    rw [(hfields j).2] at hj
    rw [(hfields j).1]
    exact h.gone r hr j hj

end

theorem status_freeproc {pc : FamilyPc n} (hrun : (s.slot i).Runs pc) (hst : pc.status = none) :
    ((s.freeproc np).slot i).pc.status = none := by
  rw [FamilySystem.freeproc]
  by_cases hi : i = np
  · rw [hi, s.put_self]
    rfl
  · rw [s.put_of_ne _ hi, hrun.2.2, hst]

theorem goto_plain (h : PidInv t) {pc' : FamilyPc n} {l : Option (Fin n)}
    (hst : (t.slot i).pc.status = none) (hst' : pc'.status = none) :
    PidInv ({ t with waitLock := l }.goto i pc') :=
  h.mild_put (Mild.goto (by rw [hst, hst']))

/-- **Every step keeps the invariant.** -/
theorem step (h : PidInv s) (hf : FamilyInv init s) (hstep : FamilyStep init s t) : PidInv t := by
  cases hstep with
  | schedule i hr => exact h.mild_put (l := s.waitLock) (Calm.schedule (i := i) hr).mild
  | preempt i hr hd hl => exact h.mild_put (l := s.waitLock) (Calm.preempt (i := i) hr hd hl).mild
  | dozeElsewhere i a hr hd he =>
    exact h.mild_put (l := s.waitLock) (Calm.dozeElsewhere (i := i) a hr he).mild
  | fallAsleep i hd => exact h.mild_put (l := s.waitLock) (Calm.fallAsleep hd (hf.placed i)).mild
  | wakeElsewhere j a hu => exact h.mild_put (l := s.waitLock) (Calm.wake _ (hf.placed j)).mild
  | kill j hu => exact h.mild_put (l := s.waitLock) (Calm.kill (hf.placed j)).mild
  | forkAlloc i np hrun hn hp =>
    have hpc := ((hf.placed np).idle (.inl hn)).1
    refine (h.allocproc hpc).goto_plain (l := s.waitLock) ?_ rfl
    by_cases hi : i = np
    · simp [FamilySystem.allocproc, hi, hpc, FamilyPc.status]
    · simp [FamilySystem.allocproc, s.put_of_ne _ hi, hrun.2.2, FamilyPc.status]
  | forkFail i hrun =>
    rename_i np
    exact (h.freeproc np).goto_plain (l := s.waitLock) (status_freeproc hrun rfl) rfl
  | forkParent i hrun hl => exact h.put_goto hrun ⟨rfl, .rfl, fun _ => .rfl⟩ rfl rfl
  | forkDone i hrun =>
    have hused := (hf.forked _ _ hrun.2.2).1
    refine h.put_goto hrun ⟨rfl, ?_, fun st => ?_⟩ rfl rfl
    · simp [hused]
    · simp [Exits, hused]
  | waitCall i hrun => exact h.goto (l := s.waitLock) hrun rfl
  | waitAcquire i hrun hl =>
    rcases hrun with hrun | hrun
    · exact h.goto (l := some i) hrun rfl
    · exact h.goto (l := some i) hrun rfl
  | scanOther i k hrun hp => exact h.goto (l := s.waitLock) hrun rfl
  | scanAlive i k hrun hp hu hz => exact h.goto (l := s.waitLock) hrun rfl
  | reap i k hrun hp hu hz =>
    exact (h.reap hz).goto_plain (l := none) (status_freeproc hrun rfl) rfl
  | reapFault i k hrun hp hu hz => exact h.goto (l := none) hrun rfl
  | waitFail i hrun hk => exact h.goto (l := none) hrun rfl
  | waitDoze i hrun hk =>
    refine h.mild_put (l := none) ⟨rfl, .rfl, fun st => ?_⟩
    simp [Exits, hrun.1, hrun.2.2, FamilyPc.status]
  | exitCall i st hrun hi => exact h.exitCall hrun st
  | exitAcquire i hrun hl => exact h.goto (l := some i) hrun rfl
  | reparentOther i k hrun hp => exact h.goto (l := s.waitLock) hrun rfl
  | reparentChild i k hrun hp => exact h.put_goto hrun ⟨rfl, .rfl, fun _ => .rfl⟩ rfl rfl
  | wakeInit i m hrun hm hu =>
    have hc := Calm.wake (.proc init) (hf.placed m)
    exact h.put_goto hrun hc.mild hc.pc rfl
  | wakeInitSelf i hrun => exact h.goto (l := s.waitLock) hrun rfl
  | wakeInitDone i hrun => exact h.goto (l := s.waitLock) hrun rfl
  | reparentDone i hrun => exact h.goto (l := s.waitLock) hrun rfl
  | wakeParent i m hrun hq hm hu =>
    rename_i q
    have hc := Calm.wake (.proc q) (hf.placed m)
    exact h.put_goto hrun hc.mild hc.pc rfl
  | wakeParentSelf i hrun => exact h.goto (l := s.waitLock) hrun rfl
  | zombie i hrun =>
    -- the status moves from the place to `xstate`
    refine h.mild_put (l := none) ⟨rfl, ?_, fun st => ?_⟩
    · simp [hrun.1]
    · simp [Exits, hrun.1, hrun.2.2, FamilyPc.status]
  | dead i hpc => exact h.goto_plain (l := s.waitLock) (by rw [hpc]; rfl) rfl

theorem reachable (h : FamilyReachable init s) : PidInv s := by
  induction h with
  | refl => exact .boot init
  | tail hrun hstep ih => exact ih.step (.reachable hrun) hstep

end PidInv

/-- **The protocol of `exit` and `wait`.**  In every state of every run a process other than
`initproc` that sleeps, is runnable, runs or is a zombie has a parent that is neither unused nor a
zombie; no pid is returned by `wait` twice, and one that is returned was given to `exit` before,
once, with the status that is returned; and while `wait_lock` is free, no process that sleeps in
`wait` has a zombie child. -/
theorem exit_wait_protocol {n : Nat} {init : Fin n} {s : FamilySystem n}
    (h : FamilyReachable init s) :
    (∀ k, k ≠ init → (s.slot k).state ∈ [.sleeping, .runnable, .running, .zombie] →
      ∃ q, (s.slot k).parent = some q ∧ (s.slot q).state ≠ .unused ∧ (s.slot q).state ≠ .zombie) ∧
    ((s.reaped.map Prod.fst).Nodup ∧ (s.exited.map Prod.fst).Nodup ∧ ∀ r ∈ s.reaped, r ∈ s.exited) ∧
    (s.waitLock = none → ∀ q k, (s.slot q).state = .sleeping → (s.slot q).pc = .waitAsleep →
      (s.slot k).parent = some q → (s.slot k).state ≠ .zombie) := by
  have hf := FamilyInv.reachable h
  have hp := PidInv.reachable h
  refine ⟨fun k hk hst => ?_, ⟨hp.reapedOnce, hp.exitedOnce, hp.reaped⟩,
    fun hl q k hs hpc hpar hz => ?_⟩
  · have hlz : (s.slot k).Live ∨ (s.slot k).state = .zombie := by
      simp only [List.mem_cons, List.not_mem_nil, or_false] at hst
      rcases hst with hst | hst | hst | hst
      · exact .inl (.inl hst)
      · exact .inl (.inr (.inl hst))
      · exact .inl (.inr (.inr hst))
      · exact .inr hst
    obtain ⟨q, hq⟩ := Option.ne_none_iff_exists'.mp (hf.hasParent k hk hlz)
    refine ⟨q, hq, ?_, ?_⟩
    · rcases (hf.mayParent k q hq).1 with ha | ha | ha <;> rw [ha] <;> exact nofun
    · rcases (hf.mayParent k q hq).1 with ha | ha | ha <;> rw [ha] <;> exact nofun
  · obtain ⟨-, i, st, o, m, hi, -⟩ := hf.zombies k q hpar hz ⟨hpc, .inl hs⟩
    have := hf.not_holdsLock hl i
    rw [hi] at this
    cases this

/-- `initproc` has forked a process, which exits with the status 7 and is a zombie. -/
theorem exit_wait_protocol_zombie : ∃ s : FamilySystem 2, FamilyReachable 0 s ∧
    (s.slot 1).state = .zombie ∧ ∃ q, (s.slot 1).parent = some q ∧ (s.slot q).state ≠ .unused ∧
        (s.slot q).state ≠ .zombie := by
  have h1 : FamilyReachable (0 : Fin 2) _ := .tail .refl (.schedule 0 rfl)
  have h2 : FamilyReachable (0 : Fin 2) _ :=
    .tail h1 (.forkAlloc 0 1 ⟨rfl, rfl, rfl⟩ rfl (by decide))
  have h3 : FamilyReachable (0 : Fin 2) _ := .tail h2 (.forkParent 0 ⟨rfl, rfl, rfl⟩ rfl)
  have h4 : FamilyReachable (0 : Fin 2) _ := .tail h3 (.forkDone 0 ⟨rfl, rfl, rfl⟩)
  have h5 : FamilyReachable (0 : Fin 2) _ := .tail h4 (.schedule 1 rfl)
  have h6 : FamilyReachable (0 : Fin 2) _ := .tail h5 (.exitCall 1 7 ⟨rfl, rfl, rfl⟩ (by decide))
  have h7 : FamilyReachable (0 : Fin 2) _ := .tail h6 (.exitAcquire 1 ⟨rfl, rfl, rfl⟩ rfl)
  have h8 : FamilyReachable (0 : Fin 2) _ :=
    .tail h7 (.reparentOther 1 0 ⟨rfl, rfl, rfl⟩ (by decide))
  have h9 : FamilyReachable (0 : Fin 2) _ :=
    .tail h8 (.reparentOther 1 1 ⟨rfl, rfl, rfl⟩ (by decide))
  have h10 : FamilyReachable (0 : Fin 2) _ := .tail h9 (.reparentDone 1 ⟨rfl, rfl, rfl⟩)
  have h11 : FamilyReachable (0 : Fin 2) _ :=
    .tail h10 (.wakeParent 1 0 ⟨rfl, rfl, rfl⟩ rfl (by decide) (by decide))
  have h12 : FamilyReachable (0 : Fin 2) _ := .tail h11 (.wakeParentSelf 1 ⟨rfl, rfl, rfl⟩)
  have h13 : FamilyReachable (0 : Fin 2) _ := .tail h12 (.zombie 1 ⟨rfl, rfl, rfl⟩)
  exact ⟨_, h13, rfl, (exit_wait_protocol h13).1 1 (by decide) (by decide)⟩

end Xv6Paging
