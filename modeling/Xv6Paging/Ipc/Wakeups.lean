import Xv6Paging.Ipc.Pipe

/-!
# Processes that sleep on a pipe

A process sleeps in `piperead` because the pipe is empty and may be written, or in `pipewrite`
because it is full and may be read.  Whoever changes that wakes it up before it gives `pi->lock`
back, with one exception: a writer that is killed between two rounds of its loop returns at once,
although it may have put bytes in.
-/

namespace Xv6Paging

/-- The reason to sleep on a channel. -/
def Justified {ι : Type} (s : PipeSystem ι) : PipeChan → Prop
  | .nread => s.pi.Empty ∧ s.pi.writeopen = true
  | .nwrite => s.pi.Full ∧ s.pi.readopen = true

/-- While the lock is free, whoever sleeps has a reason. -/
def NoLostWakeup {ι : Type} (s : PipeSystem ι) : Prop :=
  s.lock = none → ∀ j c, (s.pc j).AsleepOn c → Justified s c

/-- No process is killed in the loop of `pipewrite`, between `acquire` and `release`. -/
def SparesWriters {ι : Type} (s : PipeSystem ι) (j : ι) : Prop := ∀ k n, s.pc j ≠ .writing k n

/-- The process is at a place from which it will come to the `wakeup` of the channel. -/
def Due {ι : Type} (s : PipeSystem ι) (q : ι) : PipeChan → Prop
  | .nread => (∃ k n, s.pc q = .writing k n ∧ s.killed q = false ∧ s.pi.readopen = true) ∨
      ∃ k, s.pc q = .written k
  | .nwrite => (∃ k n, s.pc q = .copying k n) ∨ ∃ k, s.pc q = .copied k

/-- Whoever is inside holds the lock; and whoever sleeps has a reason, or the owner of the lock will
come to the wakeup. -/
structure WakeInv {ι : Type} (s : PipeSystem ι) : Prop where
  mutex : ∀ i, (s.pc i).Holding → s.lock = some i
  asleep : ∀ j c, (s.pc j).AsleepOn c → Justified s c ∨ ∃ q, s.lock = some q ∧ Due s q c

section Places

variable {pc : PipePc} {c d : PipeChan}

theorem PipePc.not_asleepOn_wake : ¬(pc.wake c).AsleepOn c := by
  cases pc <;> cases c <;> simp [wake, AsleepOn]

theorem PipePc.asleepOn_of_wake (h : (pc.wake c).AsleepOn d) : pc.AsleepOn d := by
  revert h
  cases pc <;> cases c <;> cases d <;> simp [wake, AsleepOn]

theorem PipePc.holding_wake : (pc.wake c).Holding ↔ pc.Holding := by
  cases pc <;> cases c <;> simp [wake, Holding]

theorem PipePc.not_asleepOn_rouse : ¬pc.rouse.AsleepOn c := by
  cases pc <;> cases c <;> simp [rouse, AsleepOn]

theorem PipePc.holding_rouse : pc.rouse.Holding ↔ pc.Holding := by
  cases pc <;> simp [rouse, Holding]

end Places

namespace WakeInv

variable {ι : Type} {s s' : PipeSystem ι} {i : ι} {pc : PipePc}

theorem init (data : Fin pipesize → UInt8) : WakeInv (.init data : PipeSystem ι) :=
  ⟨fun _ h => absurd h (by simp [PipeSystem.init, PipePc.Holding]),
    fun _ c h => absurd h (by cases c <;> simp [PipeSystem.init, PipePc.AsleepOn])⟩

theorem justified_of_free (hs : WakeInv s) (hl : s.lock = none) {j : ι} {c : PipeChan}
    (hj : (s.pc j).AsleepOn c) : Justified s c := by
  rcases hs.asleep j c hj with h | ⟨q, hq, -⟩
  · exact h
  · rw [hl] at hq
    exact absurd hq (by simp)

theorem justified_or_due (hs : WakeInv s) (hl : s.lock = some i) {j : ι} {c : PipeChan}
    (hj : (s.pc j).AsleepOn c) : Justified s c ∨ Due s i c := by
  rcases hs.asleep j c hj with h | ⟨q, hq, hdue⟩
  · exact .inl h
  · rw [hl] at hq
    obtain rfl : i = q := by simpa using hq
    exact .inr hdue

theorem not_holding (hs : WakeInv s) (hl : s.lock = some i) {j : ι} (hji : j ≠ i) :
    ¬(s.pc j).Holding := fun hj => by
  have := hs.mutex j hj
  rw [hl] at this
  exact hji (by simpa using this.symm)

/-- **The lock is free after the step**: everybody who sleeps then has a reason. -/
theorem of_free (hhold : ∀ j, ¬(s'.pc j).Holding)
    (hsleep : ∀ j c, (s'.pc j).AsleepOn c → Justified s' c) : WakeInv s' :=
  ⟨fun j hj => absurd hj (hhold j), fun j c hj => .inl (hsleep j c hj)⟩

variable [DecidableEq ι]

theorem goto_ne {j : ι} (hji : j ≠ i) : (s.goto i pc).pc j = s.pc j := Function.update_of_ne hji _ _

theorem goto_self : (s.goto i pc).pc i = pc := Function.update_self _ _ _

/-- **The process `i` has the lock after the step** and is at the place `pc`; the others are where
they were, and none of them is inside. -/
theorem of_owned (hl : s'.lock = some i) (hpc : s'.pc i = pc) (hin : pc.Holding)
    (hothers : ∀ j, j ≠ i → s'.pc j = s.pc j) (hhold : ∀ j, j ≠ i → ¬(s.pc j).Holding)
    (hsleep : ∀ j c, (s.pc j).AsleepOn c → Justified s' c ∨ Due s' i c) : WakeInv s' := by
  constructor
  · intro j hj
    by_cases hji : j = i
    · rw [hji, hl]
    · rw [hothers j hji] at hj
      exact absurd hj (hhold j hji)
  · intro j c hj
    by_cases hji : j = i
    · -- a process that has the lock does not sleep
      rw [hji, hpc] at hj
      revert hj hin
      cases pc <;> cases c <;> simp [PipePc.AsleepOn, PipePc.Holding]
    · rw [hothers j hji] at hj
      rcases hsleep j c hj with h | h
      · exact .inl h
      · exact .inr ⟨i, hl, h⟩

theorem not_holding_goto (hs : WakeInv s) (hl : s.lock = some i) (hpc : ¬pc.Holding) (j : ι) :
    ¬((s.goto i pc).pc j).Holding := by
  by_cases hji : j = i
  · rw [hji, goto_self]
    exact hpc
  · rw [goto_ne hji]
    exact hs.not_holding hl hji

theorem move (hs : WakeInv s) (hold : ¬(s.pc i).Holding) (hnew : ¬pc.Holding)
    (hsleep : ∀ c, ¬pc.AsleepOn c) : WakeInv (s.goto i pc) := by
  constructor
  · intro j hj
    by_cases hji : j = i
    · rw [hji, goto_self] at hj
      exact absurd hj hnew
    · rw [goto_ne hji] at hj
      exact hs.mutex j hj
  · intro j c hj
    have hji : j ≠ i := by
      rintro rfl
      rw [goto_self] at hj
      exact hsleep c hj
    rw [goto_ne hji] at hj
    refine (hs.asleep j c hj).imp id ?_
    rintro ⟨q, hq, hdue⟩
    -- the owner of the lock is not the process that goes
    have hqi : q ≠ i := by
      rintro rfl
      revert hdue hold
      cases c <;> cases hpc : s.pc q <;> simp [Due, PipePc.Holding, hpc]
    refine ⟨q, hq, ?_⟩
    cases c with
    | nread =>
      simp only [Due, goto_ne hqi]
      exact hdue
    | nwrite =>
      simp only [Due, goto_ne hqi]
      exact hdue

theorem enter (hs : WakeInv s) (hl : s.lock = none) (hin : pc.Holding) :
    WakeInv ((s.acquire i).goto i pc) := by
  refine of_owned (s := s) (i := i) rfl goto_self hin (fun j hji => goto_ne hji)
    (fun j _ hj => ?_) fun j c hj => .inl ?_
  · have := hs.mutex j hj
    rw [hl] at this
    exact absurd this (by simp)
  · cases c <;> exact hs.justified_of_free hl hj

theorem proceed (hs : WakeInv s) (hl : s.lock = some i) (hin : pc.Holding)
    (hdue : ∀ c, Due s i c → Due (s.goto i pc) i c) : WakeInv (s.goto i pc) := by
  refine of_owned (s := s) (i := i) hl goto_self hin (fun j hji => goto_ne hji)
    (fun j hji => hs.not_holding hl hji) fun j c hj => ?_
  refine (hs.justified_or_due hl hj).imp ?_ (hdue c)
  cases c <;> exact id

/-- The owner of the lock leaves without waking anybody: nobody must wait for it, and it sleeps, if
at all, with a reason. -/
theorem leave (hs : WakeInv s) (hl : s.lock = some i) (hout : ¬pc.Holding)
    (hdue : ∀ c, ¬Due s i c) (hsleep : ∀ c, pc.AsleepOn c → Justified s c) :
    WakeInv (s.release.goto i pc) := by
  refine of_free (hs.not_holding_goto hl hout) fun j c hj => ?_
  have hjust : Justified s c := by
    by_cases hji : j = i
    · subst hji
      rw [goto_self] at hj
      exact hsleep c hj
    · rw [goto_ne hji] at hj
      exact (hs.justified_or_due hl hj).resolve_right (hdue c)
  cases c <;> exact hjust

theorem leave_wakeup (hs : WakeInv s) (hl : s.lock = some i) (hout : ¬pc.Holding) {d : PipeChan}
    (hdue : ∀ c, c ≠ d → (∃ j, (s.pc j).AsleepOn c) → Due s i c → Justified s c)
    (hsleep : ∀ c, pc.AsleepOn c → Justified s c) : WakeInv ((s.wakeup d).release.goto i pc) := by
  refine of_free (fun j => ?_) fun j c hj => ?_
  · by_cases hji : j = i
    · rw [hji, goto_self]
      exact hout
    · rw [goto_ne hji]
      exact fun hj => hs.not_holding hl hji (PipePc.holding_wake.mp hj)
  · have hjust : Justified s c := by
      by_cases hji : j = i
      · subst hji
        rw [goto_self] at hj
        exact hsleep c hj
      · rw [goto_ne hji] at hj
        have hcd : c ≠ d := by
          rintro rfl
          exact PipePc.not_asleepOn_wake hj
        have hj' := PipePc.asleepOn_of_wake hj
        rcases hs.justified_or_due hl hj' with h | h
        · exact h
        · exact hdue c hcd ⟨j, hj'⟩ h
    cases c <;> exact hjust

theorem close (hs : WakeInv s) (hl : s.lock = none) (writable : Bool) :
    WakeInv (s.close writable) := by
  refine of_free (fun j hj => ?_) fun j c hj => ?_
  · have := hs.mutex j (PipePc.holding_wake.mp hj)
    rw [hl] at this
    exact absurd this (by simp)
  · have hjust := hs.justified_of_free hl (PipePc.asleepOn_of_wake hj)
    -- the sleepers that are left sleep on the other channel
    cases writable <;> cases c
    · exact hjust
    · exact absurd hj PipePc.not_asleepOn_wake
    · exact absurd hj PipePc.not_asleepOn_wake
    · exact hjust

theorem kill (hs : WakeInv s) {v : ι} (hv : SparesWriters s v) : WakeInv (s.kill v) := by
  have hpc : ∀ j, j ≠ v → (s.kill v).pc j = s.pc j := fun j hj => Function.update_of_ne hj _ _
  have hpc' : (s.kill v).pc v = (s.pc v).rouse := Function.update_self _ _ _
  constructor
  · intro j hj
    by_cases hjv : j = v
    · rw [hjv, hpc'] at hj
      rw [hjv]
      exact hs.mutex v (PipePc.holding_rouse.mp hj)
    · rw [hpc j hjv] at hj
      exact hs.mutex j hj
  · intro j c hj
    have hjv : j ≠ v := by
      rintro rfl
      rw [hpc'] at hj
      exact PipePc.not_asleepOn_rouse hj
    rw [hpc j hjv] at hj
    refine (hs.asleep j c hj).imp (by cases c <;> exact id) ?_
    rintro ⟨q, hq, hdue⟩
    refine ⟨q, hq, ?_⟩
    by_cases hqv : q = v
    · -- a process that is due and not in the loop stays due
      subst hqv
      cases c with
      | nread =>
        rcases hdue with ⟨k, n, h, -⟩ | ⟨k, h⟩
        · exact absurd h (hv k n)
        · exact .inr ⟨k, by rw [hpc', h]; rfl⟩
      | nwrite =>
        rcases hdue with ⟨k, n, h⟩ | ⟨k, h⟩
        · exact .inl ⟨k, n, by rw [hpc', h]; rfl⟩
        · exact .inr ⟨k, by rw [hpc', h]; rfl⟩
    · have hkilled : (s.kill v).killed q = s.killed q := Function.update_of_ne hqv _ _
      cases c with
      | nread =>
        simp only [Due, hpc q hqv, hkilled]
        exact hdue
      | nwrite =>
        simp only [Due, hpc q hqv]
        exact hdue

/-- **Every step keeps the invariant**, if no writer is killed in its loop. -/
theorem step (hs : WakeInv s) (hstep : PipeStep SparesWriters s s') : WakeInv s' := by
  have owner : ∀ {i : ι} {pc : PipePc}, s.pc i = pc → pc.Holding → s.lock = some i :=
    fun h hin => hs.mutex _ (by rw [h]; exact hin)
  cases hstep with
  | callWrite i n h =>
    exact hs.move (by simp [h, PipePc.Holding]) (by simp [PipePc.Holding])
      fun c => by cases c <;> simp [PipePc.AsleepOn]
  | enterWrite i h hl => exact hs.enter hl trivial
  | refuse i h hk hc =>
    refine hs.leave (owner h trivial) (by simp [PipePc.Holding]) (fun c hdue => ?_)
      fun c => by cases c <;> simp [PipePc.AsleepOn]
    -- nothing was put in: the process was killed, or the end closed, before it got the lock
    cases c with
    | nread => rcases hdue with ⟨k, n, -, ha, hr⟩ | ⟨k, hw⟩ <;> simp_all
    | nwrite => rcases hdue with ⟨k, n, hw⟩ | ⟨k, hw⟩ <;> simp_all
  | waitRoom i h hk hr ha hf =>
    refine hs.leave_wakeup (owner h trivial) (by simp [PipePc.Holding]) (fun c hc _ hdue => ?_)
      fun c hsleep => ?_
    · cases c with
      | nread => exact absurd rfl hc
      | nwrite => exact ⟨hf, hr⟩
    · cases c with
      | nread => exact absurd hsleep (by simp [PipePc.AsleepOn])
      | nwrite => exact ⟨hf, hr⟩
  | reenterWrite i h hl => exact hs.enter hl trivial
  | @store i ch k n h hk hr ha hf =>
    have hl := owner h trivial
    refine of_owned (s := s) (i := i) hl goto_self trivial (fun j hji => goto_ne hji)
      (fun j hji => hs.not_holding hl hji) fun j c hj => ?_
    cases c with
    | nread => exact .inr (.inl ⟨k + 1, n, goto_self, ha, hr⟩)
    | nwrite =>
      rcases hs.justified_or_due hl hj with ⟨hfull, -⟩ | ⟨k, n, hw⟩ | ⟨k, hw⟩
      · exact absurd hfull hf
      · simp_all
      · simp_all
  | copyinFault i h hk hr ha hf =>
    refine hs.proceed (owner h trivial) trivial fun c hdue => ?_
    cases c with
    | nread => exact .inr ⟨_, goto_self⟩
    | nwrite => rcases hdue with ⟨k, n, hw⟩ | ⟨k, hw⟩ <;> simp_all
  | endWrite i h hk =>
    refine hs.proceed (owner h trivial) trivial fun c hdue => ?_
    cases c with
    | nread => exact .inr ⟨_, goto_self⟩
    | nwrite => rcases hdue with ⟨k, n, hw⟩ | ⟨k, hw⟩ <;> simp_all
  | returnWrite i h =>
    refine hs.leave_wakeup (owner h trivial) (by simp [PipePc.Holding]) (fun c hc _ hdue => ?_)
      fun c => by cases c <;> simp [PipePc.AsleepOn]
    cases c with
    | nread => exact absurd rfl hc
    | nwrite => rcases hdue with ⟨k, n, hw⟩ | ⟨k, hw⟩ <;> simp_all
  | callRead i n h =>
    exact hs.move (by simp [h, PipePc.Holding]) (by simp [PipePc.Holding])
      fun c => by cases c <;> simp [PipePc.AsleepOn]
  | enterRead i h hl => exact hs.enter hl trivial
  | abandon i h he hw hk =>
    refine hs.leave (owner h trivial) (by simp [PipePc.Holding]) (fun c hdue => ?_)
      fun c => by cases c <;> simp [PipePc.AsleepOn]
    cases c <;> simp [Due, h] at hdue
  | waitByte i h he hw hk =>
    refine hs.leave (owner h trivial) (by simp [PipePc.Holding]) (fun c hdue => ?_)
      fun c hsleep => ?_
    · cases c <;> simp [Due, h] at hdue
    · cases c with
      | nread => exact ⟨he, hw⟩
      | nwrite => exact absurd hsleep (by simp [PipePc.AsleepOn])
  | reenterRead i h hl => exact hs.enter hl trivial
  | startCopy i h he =>
    refine hs.proceed (owner h trivial) trivial fun c hdue => ?_
    cases c <;> simp [Due, h] at hdue
  | @fetch i k n h hk he =>
    have hl := owner h trivial
    refine of_owned (s := s) (i := i) hl goto_self trivial (fun j hji => goto_ne hji)
      (fun j hji => hs.not_holding hl hji) fun j c hj => ?_
    cases c with
    | nread =>
      rcases hs.justified_or_due hl hj with ⟨hempty, -⟩ | ⟨k, n, hw, -⟩ | ⟨k, hw⟩
      · exact absurd hempty he
      · simp_all
      · simp_all
    | nwrite => exact .inr (.inl ⟨k + 1, n, goto_self⟩)
  | @copyoutFault i k n h hk he =>
    have hl := owner h trivial
    refine of_owned (s := s) (i := i) hl goto_self trivial (fun j hji => goto_ne hji)
      (fun j hji => hs.not_holding hl hji) fun j c hj => ?_
    cases c with
    | nread =>
      rcases hs.justified_or_due hl hj with ⟨hempty, -⟩ | ⟨k, n, hw, -⟩ | ⟨k, hw⟩
      · exact absurd hempty he
      · simp_all
      · simp_all
    | nwrite => exact .inr (.inr ⟨k, goto_self⟩)
  | endCopy i h he =>
    refine hs.proceed (owner h trivial) trivial fun c hdue => ?_
    cases c with
    | nread => rcases hdue with ⟨k, n, hw, -⟩ | ⟨k, hw⟩ <;> simp_all
    | nwrite => exact .inr ⟨_, goto_self⟩
  | returnRead i h =>
    refine hs.leave_wakeup (owner h trivial) (by simp [PipePc.Holding]) (fun c hc _ hdue => ?_)
      fun c => by cases c <;> simp [PipePc.AsleepOn]
    cases c with
    | nread => rcases hdue with ⟨k, n, hw, -⟩ | ⟨k, hw⟩ <;> simp_all
    | nwrite => exact absurd rfl hc
  | close i writable _ hl => exact hs.close hl writable
  | kill j h => exact hs.kill h

theorem reachable (h : PipeReachable SparesWriters s) : WakeInv s := by
  obtain ⟨data, hrun⟩ := h
  induction hrun with
  | refl => exact init data
  | tail _ hstep ih => exact ih.step hstep

end WakeInv

/-- **No wakeup is lost if no writer is killed in its loop**: in every state of such a run in which
the lock is free, a process asleep on `&pi->nread` implies that the pipe is empty and may be
written, and one asleep on `&pi->nwrite` that it is full and may be read. -/
theorem noLostWakeup_of_sparesWriters {ι : Type} [DecidableEq ι] {s : PipeSystem ι}
    (h : PipeReachable SparesWriters s) : NoLostWakeup s :=
  fun hl _ _ hj => (WakeInv.reachable h).justified_of_free hl hj

section Runs

variable {mayKill : PipeSystem (Fin 2) → Fin 2 → Prop} {s t : PipeSystem (Fin 2)}

theorem PipeReachable.snoc (h : PipeReachable mayKill s) (hstep : PipeStep mayKill s t) :
    PipeReachable mayKill t := by
  obtain ⟨data, hrun⟩ := h
  exact ⟨data, hrun.tail hstep⟩

/-- The process 1 sleeps in `piperead`. -/
def sleepingReader : PipeSystem (Fin 2) :=
  let entering := (PipeSystem.init fun _ => 0).goto 1 (.readEnter 1)
  ((entering.acquire 1).goto 1 (.reading 1)).release.goto 1 (.readAsleep 1)

theorem sleepingReader_reachable : PipeReachable mayKill sleepingReader := by
  have h0 : PipeReachable mayKill (.init fun _ => 0) := ⟨_, .refl⟩
  have h1 := h0.snoc (.callRead 1 1 rfl)
  have h2 := h1.snoc (.enterRead 1 rfl rfl)
  exact h2.snoc (.waitByte 1 rfl rfl rfl rfl)

/-- The reader sleeps with a reason. -/
theorem sleepingReader_justified : NoLostWakeup sleepingReader :=
  noLostWakeup_of_sparesWriters sleepingReader_reachable

end Runs

/-- **A killed writer loses a wakeup.**  A reader sleeps; a writer puts a byte in and is killed
before it puts the second one in; it returns, the lock is free, and the reader sleeps although the
pipe is not empty. -/
theorem killed_writer_loses_wakeup : ∃ s : PipeSystem (Fin 2), PipeReachable (fun _ _ => True) s ∧
    s.lock = none ∧ (s.pc 1).AsleepOn .nread ∧ ¬s.pi.Empty ∧ ¬NoLostWakeup s := by
  have h0 : PipeReachable (fun _ _ => True) sleepingReader := sleepingReader_reachable
  have h1 := h0.snoc (.callWrite 0 2 rfl)
  have h2 := h1.snoc (.enterWrite 0 rfl rfl)
  have h3 := h2.snoc (.store 0 7 rfl (by decide) rfl rfl (by decide))
  have h4 := h3.snoc (.kill 0 trivial)
  have h5 := h4.snoc (.refuse 0 rfl (by decide) (.inr rfl))
  refine ⟨_, h5, rfl, trivial, by decide, fun h => ?_⟩
  exact absurd (h rfl 1 .nread trivial).1 (by decide)

end Xv6Paging
