import Xv6Paging.Sched.ExitWait

/-!
# Parents and their zombies

The invariant says where a process can be while another one is its parent: it is alive, and if it
exits, `reparent` has not passed the child yet.  A process that sleeps in `wait` has a zombie child
only while `reparent` has still to wake it up.
-/

namespace Xv6Paging

variable {n : Nat}

namespace FamilySystem

variable (s : FamilySystem n) {i j : Fin n} (t : ProcSlot n)

@[simp] theorem put_self : (s.put i t).slot i = t := Function.update_self ..

theorem put_of_ne (h : j ≠ i) : (s.put i t).slot j = s.slot j := Function.update_of_ne h ..

theorem put_cases (i j : Fin n) : i = j ∧ (s.put i t).slot j = t ∨
    j ≠ i ∧ (s.put i t).slot j = s.slot j := by
  rcases eq_or_ne i j with rfl | hj
  · exact .inl ⟨rfl, s.put_self t⟩
  · exact .inr ⟨hj.symm, s.put_of_ne t hj.symm⟩

end FamilySystem

namespace FamilyPc

/-- The slot that `fork` is filling. -/
def newborn : FamilyPc n → Option (Fin n)
  | forking np | forked np => some np
  | _ => none

/-- The status of a process that exits. -/
def status : FamilyPc n → Option Int
  | exitEnter st | reparent st _ | wakeInit st _ _ | wakeParent st _ => some st
  | _ => none

/-- The process neither sleeps in `wait` nor is a zombie. -/
def plain : FamilyPc n → Bool
  | waitAsleep | dying | dead => false
  | _ => true

/-- The process is outside of the sections under `wait_lock`. -/
def Outside (pc : FamilyPc n) : Prop := pc = out ∨ pc = waitEnter ∨ ∃ st, pc = exitEnter st

/-- `reparent` has not passed the slot `k` yet. -/
def Spares (k : Fin n) : FamilyPc n → Prop
  | reparent _ m => m ≤ k.val
  | wakeInit _ m _ => m.val < k.val
  | wakeParent _ _ => False
  | _ => True

end FamilyPc

namespace ProcSlot

variable {i : Fin n} {t t' : ProcSlot n}

/-- The process can run, now or later. -/
def Live (t : ProcSlot n) : Prop :=
  t.state = .sleeping ∨ t.state = .runnable ∨ t.state = .running

/-- The process can be the parent of the slot `k`. -/
def MayParent (t : ProcSlot n) (k : Fin n) : Prop := t.Live ∧ t.pc.Spares k

/-- The process sleeps in `wait`, or is about to. -/
def Waiting (t : ProcSlot n) : Prop := t.pc = .waitAsleep ∧ (t.state = .sleeping ∨ t.doze ≠ none)

/-- The fields of the slot `i` agree with the place of its process. -/
structure Placed (i : Fin n) (t : ProcSlot n) : Prop where
  idle : t.state = .unused ∨ t.state = .used → t.pc = .out ∧ t.doze = none
  orphan : t.state = .unused → t.parent = none
  zombie : t.state = .zombie ↔ t.pc = .dying ∨ t.pc = .dead
  busy : t.pc.holdsLock = true → t.state = .running ∧ t.doze = none
  dozing : t.doze ≠ none → t.state = .running
  asleep : t.pc = .waitAsleep → t.state = .sleeping → t.chan = some (.proc i)
  drowsy : ∀ c, t.pc = .waitAsleep → t.doze = some c → c = .proc i

theorem Placed.zero (i : Fin n) : Placed i .zero where
  idle _ := ⟨rfl, rfl⟩
  orphan _ := rfl
  zombie := by simp [ProcSlot.zero]
  busy h := by simp [ProcSlot.zero, FamilyPc.holdsLock] at h
  dozing h := by simp [ProcSlot.zero] at h
  asleep h := by simp [ProcSlot.zero] at h
  drowsy _ h := by simp [ProcSlot.zero] at h

theorem Placed.running (hr : t.state = .running)
    (hd : t.doze = none) (hplain : t.pc.plain = true) : t.Placed i := by
  have hpc : t.pc ≠ .waitAsleep ∧ t.pc ≠ .dying ∧ t.pc ≠ .dead := by
    refine ⟨?_, ?_, ?_⟩ <;> intro h <;> rw [h] at hplain <;> cases hplain
  constructor <;> simp [hr, hd, hpc]

/-- A change of a slot that its relatives do not see: the process stays where it is, and does not go
to sleep in `wait`. -/
structure Calm (i : Fin n) (t t' : ProcSlot n) : Prop where
  placed : t.Placed i → t'.Placed i
  parent : t'.parent = t.parent
  pid : t'.pid = t.pid
  xstate : t'.xstate = t.xstate
  pc : t'.pc = t.pc
  unused : t'.state = .unused ↔ t.state = .unused
  used : t'.state = .used ↔ t.state = .used
  zombie : t'.state = .zombie ↔ t.state = .zombie
  waiting : t'.Waiting → t.Waiting

theorem Calm.of_live (hl : t.Live) (hl' : t'.Live)
    (hparent : t'.parent = t.parent) (hpid : t'.pid = t.pid) (hxstate : t'.xstate = t.xstate)
    (hpc : t'.pc = t.pc) (hbusy : t.Placed i → t.pc.holdsLock = true →
      t'.state = .running ∧ t'.doze = none) (hdozing : t.Placed i → t'.doze ≠ none →
      t'.state = .running)
    (hasleep : t.Placed i → t.pc = .waitAsleep → t'.state = .sleeping → t'.chan = some (.proc i))
    (hdrowsy : t.Placed i → ∀ c, t.pc = .waitAsleep → t'.doze = some c → c = .proc i)
    (hwaiting : t'.Waiting → t.Waiting) : Calm i t t' := by
  have hstate : ∀ {u : ProcSlot n}, u.Live → u.state ≠ .unused ∧ u.state ≠ .used ∧
      u.state ≠ .zombie := by
    rintro u (h | h | h) <;> rw [h] <;> simp
  obtain ⟨hu, hs, hz⟩ := hstate hl
  obtain ⟨hu', hs', hz'⟩ := hstate hl'
  refine ⟨fun hp => ⟨fun h => absurd h (by simp [hu', hs']), fun h => absurd h hu', ?_, ?_,
    hdozing hp, ?_, ?_⟩, hparent, hpid, hxstate, hpc, by simp [hu, hu'], by simp [hs, hs'],
    by simp [hz, hz'], hwaiting⟩
  · rw [hpc, ← hp.zombie]
    simp [hz, hz']
  · rw [hpc]
    exact hbusy hp
  · rw [hpc]
    exact hasleep hp
  · rw [hpc]
    exact hdrowsy hp

theorem Calm.live (h : Calm i t t') : t'.Live ↔ t.Live := by
  have hu := h.unused
  have hs := h.used
  have hz := h.zombie
  unfold Live
  cases ht : t.state <;> cases ht' : t'.state <;> simp_all

theorem Calm.mayParent {i k : Fin n} {t t' : ProcSlot n} (h : Calm i t t') :
    t'.MayParent k ↔ t.MayParent k := by
  rw [MayParent, MayParent, h.live, h.pc]

end ProcSlot

open ProcSlot

/-- What holds in every state. -/
structure FamilyInv (init : Fin n) (s : FamilySystem n) : Prop where
  placed : ∀ i, (s.slot i).Placed i
  lock : ∀ i, (s.slot i).pc.holdsLock = true → s.waitLock = some i
  initLive : (s.slot init).Live
  initStays : (s.slot init).pc.status = none
  mayParent : ∀ k q, (s.slot k).parent = some q → (s.slot q).MayParent k
  hasParent : ∀ k, k ≠ init → (s.slot k).Live ∨ (s.slot k).state = .zombie →
    (s.slot k).parent ≠ none
  forking : ∀ i np, (s.slot i).pc = .forking np →
    (s.slot np).state = .used ∧ (s.slot np).parent = none
  forked : ∀ i np, (s.slot i).pc = .forked np →
    (s.slot np).state = .used ∧ (s.slot np).parent = some i
  forker : ∀ i j np, (s.slot i).pc.newborn = some np → (s.slot j).pc.newborn = some np → i = j
  /-- Only `initproc` sleeps with a zombie child, until the wakeup of `reparent` comes by. -/
  zombies : ∀ k q, (s.slot k).parent = some q → (s.slot k).state = .zombie → (s.slot q).Waiting →
    q = init ∧ ∃ i st o m, (s.slot i).pc = .wakeInit st o m ∧ m ≤ init.val
  /-- The wakeup of `exit` has passed the parent. -/
  passed : ∀ i st m q, (s.slot i).pc = .wakeParent st m → (s.slot i).parent = some q → q.val < m →
    ¬(s.slot q).Waiting
  /-- `wait` has not found a zombie so far. -/
  scanned : ∀ i m kids k, (s.slot i).pc = .scan m kids → (s.slot k).parent = some i → k.val < m →
    (s.slot k).state ≠ .zombie

namespace FamilyInv

variable {init i j k np : Fin n} {s t : FamilySystem n}

theorem boot (init : Fin n) : FamilyInv init (.boot init) := by
  have hslot : ∀ i, (FamilySystem.boot init).slot i = .zero ∨
      i = init ∧ (FamilySystem.boot init).slot i = .userinit := by
    intro i
    by_cases hi : i = init
    · exact .inr ⟨hi, by simp [FamilySystem.boot, hi]⟩
    · exact .inl (by simp [FamilySystem.boot, hi])
  have hinit : (FamilySystem.boot init).slot init = .userinit := by simp [FamilySystem.boot]
  have hpc : ∀ i, ((FamilySystem.boot init).slot i).pc = .out := by
    intro i
    rcases hslot i with h | ⟨-, h⟩ <;> rw [h] <;> rfl
  have hparent : ∀ i, ((FamilySystem.boot init).slot i).parent = none := by
    intro i
    rcases hslot i with h | ⟨-, h⟩ <;> rw [h] <;> rfl
  constructor
  · intro i
    rcases hslot i with h | ⟨-, h⟩
    · rw [h]
      exact .zero i
    · rw [h]
      constructor <;> simp [userinit, ProcSlot.zero, FamilyPc.holdsLock]
  · simp [hpc, FamilyPc.holdsLock]
  · rw [hinit]
    exact .inr (.inl rfl)
  · rw [hinit]
    rfl
  · simp [hparent]
  · intro k hk h
    rcases hslot k with hz | ⟨rfl, -⟩
    · rw [hz] at h
      simp [Live, ProcSlot.zero] at h
    · exact absurd rfl hk
  all_goals simp [hpc, hparent, FamilyPc.newborn]

/-! ## Calm changes -/

theorem calm (h : FamilyInv init s) {t' : ProcSlot n} (hc : Calm j (s.slot j) t') :
    FamilyInv init (s.put j t') := by
  have hcalm : ∀ i, Calm i (s.slot i) ((s.put j t').slot i) := by
    intro i
    rcases s.put_cases t' j i with ⟨rfl, hi⟩ | ⟨-, hi⟩ <;> rw [hi]
    · exact hc
    · exact ⟨id, rfl, rfl, rfl, rfl, .rfl, .rfl, .rfl, id⟩
  constructor
  · exact fun i => (hcalm i).placed (h.placed i)
  · intro i hi
    rw [(hcalm i).pc] at hi
    exact h.lock i hi
  · exact (hcalm init).live.mpr h.initLive
  · rw [(hcalm init).pc]
    exact h.initStays
  · intro k q hp
    rw [(hcalm k).parent] at hp
    exact (hcalm q).mayParent.mpr (h.mayParent k q hp)
  · intro k hk hlz
    rw [(hcalm k).parent]
    rw [(hcalm k).live, (hcalm k).zombie] at hlz
    exact h.hasParent k hk hlz
  · intro i np hpc
    rw [(hcalm i).pc] at hpc
    rw [(hcalm np).used, (hcalm np).parent]
    exact h.forking i np hpc
  · intro i np hpc
    rw [(hcalm i).pc] at hpc
    rw [(hcalm np).used, (hcalm np).parent]
    exact h.forked i np hpc
  · intro i i' np hi hi'
    rw [(hcalm i).pc] at hi
    rw [(hcalm i').pc] at hi'
    exact h.forker i i' np hi hi'
  · intro k q hp hz hw
    rw [(hcalm k).parent] at hp
    rw [(hcalm k).zombie] at hz
    obtain ⟨hq, i, st, o, m, hpc, hm⟩ := h.zombies k q hp hz ((hcalm q).waiting hw)
    exact ⟨hq, i, st, o, m, by rw [(hcalm i).pc]; exact hpc, hm⟩
  · intro i st m q hpc hp hm hw
    rw [(hcalm i).pc] at hpc
    rw [(hcalm i).parent] at hp
    exact h.passed i st m q hpc hp hm ((hcalm q).waiting hw)
  · intro i m kids k hpc hp hm hz
    rw [(hcalm i).pc] at hpc
    rw [(hcalm k).parent] at hp
    rw [(hcalm k).zombie] at hz
    exact h.scanned i m kids k hpc hp hm hz

end FamilyInv

namespace ProcSlot.Calm

variable {i : Fin n} {t : ProcSlot n}

theorem schedule (h : t.state = .runnable) : Calm i t { t with state := .running, chan := none } :=
  .of_live (.inr (.inl h)) (.inr (.inr rfl)) rfl rfl rfl rfl (fun hp hl => ⟨rfl, (hp.busy hl).2⟩)
    (fun _ _ => rfl) (by simp) Placed.drowsy (by simpa [Waiting] using fun h hd => ⟨h, .inr hd⟩)

theorem preempt (hr : t.state = .running) (hd : t.doze = none) (hl : t.pc.holdsLock = false) :
    Calm i t { t with state := .runnable } :=
  .of_live (.inr (.inr hr)) (.inr (.inl rfl)) rfl rfl rfl rfl (by simp [hl]) (by simp [hd])
    (by simp) Placed.drowsy (by simp [hd, Waiting])

theorem dozeElsewhere (a : Nat) (hr : t.state = .running) (he : t.pc.elsewhere = true) :
    Calm i t { t with doze := some (.other a) } := by
  have hpc : t.pc ≠ .waitAsleep ∧ t.pc.holdsLock = false := by
    revert he
    cases t.pc <;> simp [FamilyPc.elsewhere, FamilyPc.holdsLock]
  exact .of_live (.inr (.inr hr)) (.inr (.inr hr)) rfl rfl rfl rfl (by simp [hpc])
    (fun _ _ => hr) (by simp [hpc]) (by simp [hpc]) (by simp [hpc, Waiting])

theorem not_holdsLock (hp : t.Placed i) (h : t.state ≠ .running ∨ t.doze ≠ none) :
    t.pc.holdsLock = false := by
  by_contra hl
  obtain ⟨hr, hd⟩ := hp.busy (by simpa using hl)
  exact h.elim (absurd hr) (absurd hd)

theorem fallAsleep {c : ProcChan n} (hd : t.doze = some c) (hp : t.Placed i) :
    Calm i t { t with doze := none, chan := some c, state := .sleeping } := by
  have hr : t.state = .running := hp.dozing (by simp [hd])
  have hl := not_holdsLock hp (.inr (by simp [hd]))
  refine .of_live (.inr (.inr hr)) (.inl rfl) rfl rfl rfl rfl (by simp [hl]) (by simp)
    (fun _ hpc _ => ?_) (by simp) (by simp [hd, Waiting])
  rw [hp.drowsy c hpc hd]

theorem rouse (killed : Bool) (hs : t.state = .sleeping) (hp : t.Placed i) :
    Calm i t { t with state := .runnable, killed := killed } := by
  have hd : t.doze = none := by
    by_contra hd
    have := hp.dozing hd
    rw [hs] at this
    cases this
  have hl := not_holdsLock hp (.inl (by simp [hs]))
  exact .of_live (.inl hs) (.inr (.inl rfl)) rfl rfl rfl rfl (by simp [hl]) (by simp [hd])
    (by simp) (by simp [hd]) (by simp [hd, Waiting])

theorem wake (c : ProcChan n) (hp : t.Placed i) : Calm i t (t.wake c) := by
  unfold ProcSlot.wake
  split
  · rename_i h
    exact rouse t.killed h.1 hp
  · exact ⟨id, rfl, rfl, rfl, rfl, .rfl, .rfl, .rfl, id⟩

theorem kill (hp : t.Placed i) : Calm i t t.kill := by
  unfold ProcSlot.kill
  split
  · rename_i h
    exact rouse true h hp
  · exact ⟨fun hp => ⟨hp.idle, hp.orphan, hp.zombie, hp.busy, hp.dozing, hp.asleep, hp.drowsy⟩,
      rfl, rfl, rfl, rfl, .rfl, .rfl, .rfl, id⟩

end ProcSlot.Calm

namespace FamilyInv

variable {init i j k np q : Fin n} {s t : FamilySystem n}
  {kids : Bool} {l : Option (Fin n)} {pc : FamilyPc n}

variable (h : FamilyInv init s)
include h

theorem congr (hslot : t.slot = s.slot) (hlock : t.waitLock = s.waitLock) : FamilyInv init t := by
  obtain ⟨slot, waitLock, _, _, _⟩ := s
  obtain ⟨slot', waitLock', _, _, _⟩ := t
  cases hslot
  cases hlock
  exact ⟨h.placed, h.lock, h.initLive, h.initStays, h.mayParent, h.hasParent, h.forking, h.forked,
    h.forker, h.zombies, h.passed, h.scanned⟩

theorem newborn_used (hn : (s.slot i).pc.newborn = some np) : (s.slot np).state = .used := by
  cases hpc : (s.slot i).pc <;> rw [hpc] at hn <;> cases hn
  · exact (h.forking i np hpc).1
  · exact (h.forked i np hpc).1

theorem owner_unique (hi : (s.slot i).pc.holdsLock = true)
    (hj : (s.slot j).pc.holdsLock = true) : i = j := by
  have := h.lock j hj
  rw [h.lock i hi] at this
  exact Option.some.inj this

theorem not_holdsLock (hl : s.waitLock = none) (j : Fin n) : (s.slot j).pc.holdsLock = false := by
  by_contra hj
  have := h.lock j (by simpa using hj)
  rw [hl] at this
  cases this

omit h in
theorem put_goto_comm {t' : ProcSlot n} (hne : i ≠ np) (pc : FamilyPc n) :
    (s.put np t').goto i pc = (s.goto i pc).put np t' := by
  simp only [FamilySystem.goto, FamilySystem.put, Function.update_of_ne hne]
  rw [Function.update_comm hne]

/-! ## A process goes on -/

/-- What is asked of the new contents of a slot whose process goes on.  `l` is the new owner of
`wait_lock`. -/
structure Moves (init i : Fin n) (s : FamilySystem n) (t' : ProcSlot n) (l : Option (Fin n)) :
    Prop where
  placed : t'.Placed i
  alive : (s.slot i).Live ∨ (s.slot i).state = .zombie
  alive' : t'.Live ∨ t'.state = .zombie
  parent : t'.parent = (s.slot i).parent
  lock : t'.pc.holdsLock = true → l = some i
  others : ∀ j, j ≠ i → (s.slot j).pc.holdsLock = true → l = some j
  stays : i = init → t'.Live ∧ t'.pc.status = none
  mayParent : ∀ k, (s.slot k).parent = some i → t'.MayParent k
  newborn : ∀ np, t'.pc.newborn = some np → (s.slot np).state = .used ∧
    (∀ j, j ≠ i → (s.slot j).pc.newborn ≠ some np) ∧
    (t'.pc = .forking np → (s.slot np).parent = none) ∧
    (t'.pc = .forked np → (s.slot np).parent = some i)
  /-- it is no zombie, or its parent does not sleep -/
  zombie : t'.state = .zombie → (s.slot i).state = .zombie ∨
    (∀ q, (s.slot i).parent = some q → ¬(s.slot q).Waiting) ∧
      ∀ j, j ≠ i → (s.slot j).pc.holdsLock = false
  /-- it does not sleep in `wait`, or has no zombies -/
  waiting : t'.Waiting → (∀ k, (s.slot k).parent = some i → (s.slot k).state ≠ .zombie) ∧
    ∀ j, j ≠ i → (s.slot j).pc.holdsLock = false
  waking : ∀ st o m, (s.slot i).pc = .wakeInit st o m → m ≤ init.val →
    (∃ m', t'.pc = .wakeInit st o m' ∧ m' ≤ init.val) ∨ ¬(s.slot init).Waiting
  passed : ∀ st m q, t'.pc = .wakeParent st m → (s.slot i).parent = some q → q.val < m →
    ¬(s.slot q).Waiting
  scanned : ∀ m kids k, t'.pc = .scan m kids → (s.slot k).parent = some i → k.val < m →
    (s.slot k).state ≠ .zombie

theorem move {t' : ProcSlot n}
    (hm : Moves init i s t' l) : FamilyInv init ({ s with waitLock := l }.put i t') := by
  set u := ({ s with waitLock := l } : FamilySystem n).put i t' with hu
  have hslot : ∀ j, i = j ∧ u.slot j = t' ∨ j ≠ i ∧ u.slot j = s.slot j := fun j =>
    FamilySystem.put_cases _ t' i j
  have hparent : ∀ k, (u.slot k).parent = (s.slot k).parent := by
    intro k
    rcases hslot k with ⟨rfl, hk⟩ | ⟨-, hk⟩ <;> rw [hk]
    exact hm.parent
  -- a slot that `fork` is filling is another one
  have hfilled : ∀ {np}, (s.slot np).state = .used →
      (u.slot np).state = .used ∧ (u.slot np).parent = (s.slot np).parent := by
    intro np hused
    rcases hslot np with ⟨rfl, -⟩ | ⟨-, hnp⟩
    · rcases hm.alive with (ha | ha | ha) | ha <;> rw [hused] at ha <;> cases ha
    · rw [hnp]
      exact ⟨hused, rfl⟩
  -- a process that is alive is no zombie
  have hown : ∀ {k}, (s.slot k).parent = some i → t'.state ≠ .zombie := by
    intro k hp hz
    rcases (hm.mayParent k hp).1 with ha | ha | ha <;> rw [hz] at ha <;> cases ha
  constructor
  · intro j
    rcases hslot j with ⟨rfl, hj⟩ | ⟨-, hj⟩ <;> rw [hj]
    · exact hm.placed
    · exact h.placed j
  · intro j hl
    rcases hslot j with ⟨rfl, hj⟩ | ⟨hji, hj⟩ <;> rw [hj] at hl
    · exact hm.lock hl
    · exact hm.others j hji hl
  · rcases hslot init with ⟨hi, hj⟩ | ⟨-, hj⟩ <;> rw [hj]
    · exact (hm.stays hi).1
    · exact h.initLive
  · rcases hslot init with ⟨hi, hj⟩ | ⟨-, hj⟩ <;> rw [hj]
    · exact (hm.stays hi).2
    · exact h.initStays
  · intro k q hp
    rw [hparent] at hp
    rcases hslot q with ⟨rfl, hq⟩ | ⟨-, hq⟩ <;> rw [hq]
    · exact hm.mayParent k hp
    · exact h.mayParent k q hp
  · intro k hk hlz
    rw [hparent]
    refine h.hasParent k hk ?_
    rcases hslot k with ⟨rfl, -⟩ | ⟨-, hki⟩
    · exact hm.alive
    · rwa [hki] at hlz
  · intro j np hpc
    rcases hslot j with ⟨rfl, hj⟩ | ⟨-, hj⟩ <;> rw [hj] at hpc
    · obtain ⟨hused, -, hnone, -⟩ := hm.newborn np (by rw [hpc]; rfl)
      exact (hfilled hused).imp_right (·.trans (hnone hpc))
    · obtain ⟨hused, hnone⟩ := h.forking j np hpc
      exact (hfilled hused).imp_right (·.trans hnone)
  · intro j np hpc
    rcases hslot j with ⟨rfl, hj⟩ | ⟨-, hj⟩ <;> rw [hj] at hpc
    · obtain ⟨hused, -, -, hsome⟩ := hm.newborn np (by rw [hpc]; rfl)
      exact (hfilled hused).imp_right (·.trans (hsome hpc))
    · obtain ⟨hused, hsome⟩ := h.forked j np hpc
      exact (hfilled hused).imp_right (·.trans hsome)
  · intro j j' np hn hn'
    rcases hslot j with ⟨rfl, hj⟩ | ⟨hji, hj⟩ <;> rw [hj] at hn <;>
      rcases hslot j' with ⟨rfl, hj'⟩ | ⟨hji', hj'⟩ <;> rw [hj'] at hn'
    · exact absurd hn' ((hm.newborn np hn).2.1 j' hji')
    · exact absurd hn ((hm.newborn np hn').2.1 j hji)
    · exact h.forker j j' np hn hn'
  · intro k q hp hz hw
    rw [hparent] at hp
    rcases hslot q with ⟨rfl, hq⟩ | ⟨-, hq⟩ <;> rw [hq] at hw
    · -- it has no zombies itself
      rcases hslot k with ⟨rfl, hk⟩ | ⟨-, hk⟩ <;> rw [hk] at hz
      · exact absurd hz (hown hp)
      · exact absurd hz ((hm.waiting hw).1 k hp)
    · have hold : (s.slot k).state = .zombie := by
        rcases hslot k with ⟨rfl, hk⟩ | ⟨-, hk⟩ <;> rw [hk] at hz
        · exact (hm.zombie hz).resolve_right fun hno => hno.1 q hp hw
        · exact hz
      obtain ⟨rfl, j, st, o, m, hpc, hle⟩ := h.zombies k q hp hold hw
      refine ⟨rfl, ?_⟩
      rcases hslot j with ⟨rfl, hj⟩ | ⟨-, hj⟩
      · rcases hm.waking st o m hpc hle with ⟨m', hpc', hle'⟩ | hno
        · exact ⟨i, st, o, m', by rw [hj]; exact hpc', hle'⟩
        · exact absurd hw hno
      · exact ⟨j, st, o, m, by rw [hj]; exact hpc, hle⟩
  · intro j st m q hpc hp hlt hw
    rw [hparent] at hp
    rcases hslot j with ⟨rfl, hj⟩ | ⟨hji, hj⟩ <;> rw [hj] at hpc <;>
      rcases hslot q with ⟨rfl, hq⟩ | ⟨-, hq⟩ <;> rw [hq] at hw
    · -- a process that sleeps in `wait` is not in `exit`
      cases hpc.symm.trans hw.1
    · exact hm.passed st m q hpc hp hlt hw
    · have hno := (hm.waiting hw).2 j hji
      rw [hpc] at hno
      cases hno
    · exact h.passed j st m q hpc hp hlt hw
  · intro j m kids k hpc hp hlt hz
    rw [hparent] at hp
    rcases hslot j with ⟨rfl, hj⟩ | ⟨hji, hj⟩ <;> rw [hj] at hpc <;>
      rcases hslot k with ⟨rfl, hk⟩ | ⟨-, hk⟩ <;> rw [hk] at hz
    · exact hown hp hz
    · exact hm.scanned m kids k hpc hp hlt hz
    · rcases hm.zombie hz with hold | ⟨-, hno⟩
      · exact h.scanned j m kids i hpc hp hlt hold
      · have hno := hno j hji
        rw [hpc] at hno
        cases hno
    · exact h.scanned j m kids k hpc hp hlt hz

theorem Moves.goto {pc' : FamilyPc n} (hrun : (s.slot i).Runs pc) (hplain : pc'.plain = true)
    (hlock : pc'.holdsLock = true → l = some i)
    (hothers : ∀ j, j ≠ i → (s.slot j).pc.holdsLock = true → l = some j)
    (hstays : i = init → pc'.status = none)
    (hspares : ∀ k, (s.slot k).parent = some i → pc.Spares k → pc'.Spares k)
    (hnewborn : ∀ np, pc'.newborn = some np → (s.slot np).state = .used ∧
      (∀ j, j ≠ i → (s.slot j).pc.newborn ≠ some np) ∧
      (pc' = .forking np → (s.slot np).parent = none) ∧
      (pc' = .forked np → (s.slot np).parent = some i))
    (hwaking : ∀ st o m, pc = .wakeInit st o m → m ≤ init.val →
      (∃ m', pc' = .wakeInit st o m' ∧ m' ≤ init.val) ∨ ¬(s.slot init).Waiting)
    (hpassed : ∀ st m q, pc' = .wakeParent st m → (s.slot i).parent = some q → q.val < m →
      ¬(s.slot q).Waiting)
    (hscanned : ∀ m kids k, pc' = .scan m kids → (s.slot k).parent = some i → k.val < m →
      (s.slot k).state ≠ .zombie) : Moves init i s ((s.slot i).goto pc') l := by
  obtain ⟨hr, hd, rfl⟩ := hrun
  have hlive : ((s.slot i).goto pc').Live := .inr (.inr hr)
  refine ⟨.running hr hd hplain, .inl (.inr (.inr hr)), .inl hlive, rfl, hlock, hothers,
    fun hi => ⟨hlive, hstays hi⟩, fun k hp => ⟨hlive, hspares k hp (h.mayParent k i hp).2⟩,
    hnewborn,
    fun hz => ?_, fun hw => ?_, hwaking, hpassed, hscanned⟩
  · rw [show ((s.slot i).goto pc').state = .running from hr] at hz
    cases hz
  · rw [show pc' = .waitAsleep from hw.1] at hplain
    cases hplain

theorem not_init {P : Prop} (hrun : (s.slot i).Runs pc)
    (hst : pc.status ≠ none) (hi : i = init) : P := by
  have hstays := h.initStays
  rw [← hi, hrun.2.2] at hstays
  exact absurd hstays hst

theorem others_same (j : Fin n) (_ : j ≠ i)
    (hj : (s.slot j).pc.holdsLock = true) : s.waitLock = some j := h.lock j hj

theorem others_acquire (hl : s.waitLock = none) (j : Fin n) (_ : j ≠ i)
    (hj : (s.slot j).pc.holdsLock = true) : some i = some j := by
  rw [h.not_holdsLock hl] at hj
  cases hj

theorem others_release (hi : (s.slot i).pc.holdsLock = true) (j : Fin n)
    (hne : j ≠ i) (hj : (s.slot j).pc.holdsLock = true) : none = some j :=
  absurd (h.owner_unique hj hi) hne

theorem outside {pc' : FamilyPc n}
    (hrun : (s.slot i).Runs pc) (hwake : ∀ st o m, pc ≠ .wakeInit st o m)
    (hpc' : pc'.Outside) (hstays : i = init → pc'.status = none)
    (hothers : ∀ j, j ≠ i → (s.slot j).pc.holdsLock = true → l = some j) :
    FamilyInv init ({ s with waitLock := l }.goto i pc') := by
  refine h.move (Moves.goto h hrun ?_ ?_ hothers hstays ?_ ?_ ?_ ?_ ?_)
  · rcases hpc' with rfl | rfl | ⟨st, rfl⟩ <;> rfl
  · rcases hpc' with rfl | rfl | ⟨st, rfl⟩ <;> exact nofun
  · rcases hpc' with rfl | rfl | ⟨st, rfl⟩ <;> exact fun _ _ _ => trivial
  · rcases hpc' with rfl | rfl | ⟨st, rfl⟩ <;> exact nofun
  · exact fun st o m hpc => absurd hpc (hwake st o m)
  · rcases hpc' with rfl | rfl | ⟨st, rfl⟩ <;> exact nofun
  · rcases hpc' with rfl | rfl | ⟨st, rfl⟩ <;> exact nofun

/-! ## Slots without a process -/

/-- A slot that no process is and nobody fills. -/
structure Vacant (s : FamilySystem n) (np : Fin n) : Prop where
  dead : ¬(s.slot np).Live
  nobody : ∀ i, (s.slot i).pc.newborn ≠ some np

theorem fill (t' : ProcSlot n) (hv : Vacant s np) (hplaced : t'.Placed np)
    (hpc : t'.pc = .out) (hz : t'.state ≠ .zombie) (hpar : t'.Live → t'.parent ≠ none)
    (hmp : ∀ q, t'.parent = some q → (s.slot q).MayParent np) : FamilyInv init (s.put np t') := by
  set u := s.put np t' with hu
  have hslot : ∀ j, np = j ∧ u.slot j = t' ∨ j ≠ np ∧ u.slot j = s.slot j := s.put_cases t' np
  have hlive : ∀ {j}, (s.slot j).Live → u.slot j = s.slot j := by
    intro j hj
    refine s.put_of_ne t' ?_
    rintro rfl
    exact hv.dead hj
  have hq : ∀ {k q}, (u.slot k).parent = some q →
      (s.slot q).MayParent k ∧ u.slot q = s.slot q := by
    intro k q hp
    have hmay : (s.slot q).MayParent k := by
      rcases hslot k with ⟨rfl, hk⟩ | ⟨-, hk⟩ <;> rw [hk] at hp
      · exact hmp q hp
      · exact h.mayParent k q hp
    exact ⟨hmay, hlive hmay.1⟩
  -- the process in the slot is nowhere, before and after
  have hpcs : ∀ {j pc}, (u.slot j).pc = pc → pc ≠ .out → u.slot j = s.slot j := by
    intro j pc hj hout
    rcases hslot j with ⟨rfl, hjn⟩ | ⟨-, hjn⟩
    · rw [hjn, hpc] at hj
      exact absurd hj.symm hout
    · exact hjn
  have hfills : ∀ {j np'}, (s.slot j).pc.newborn = some np' → u.slot np' = s.slot np' := by
    intro j np' hj
    refine s.put_of_ne t' ?_
    rintro rfl
    exact hv.nobody j hj
  have hzombie : ∀ {k}, (u.slot k).state = .zombie → u.slot k = s.slot k := by
    intro k hk
    rcases hslot k with ⟨rfl, hkn⟩ | ⟨-, hkn⟩
    · rw [hkn] at hk
      exact absurd hk hz
    · exact hkn
  constructor
  · intro j
    rcases hslot j with ⟨rfl, hj⟩ | ⟨-, hj⟩ <;> rw [hj]
    · exact hplaced
    · exact h.placed j
  · intro j hl
    rcases hslot j with ⟨rfl, hj⟩ | ⟨-, hj⟩ <;> rw [hj] at hl
    · rw [hpc] at hl
      cases hl
    · exact h.lock j hl
  · rw [hlive h.initLive]
    exact h.initLive
  · rw [hlive h.initLive]
    exact h.initStays
  · intro k q hp
    rw [(hq hp).2]
    exact (hq hp).1
  · intro k hk hlz
    rcases hslot k with ⟨rfl, hkn⟩ | ⟨-, hkn⟩ <;> rw [hkn] at hlz ⊢
    · exact hpar (hlz.resolve_right hz)
    · exact h.hasParent k hk hlz
  · intro j np' hj
    rw [hpcs hj nofun] at hj
    rw [hfills (j := j) (by rw [hj]; rfl)]
    exact h.forking j np' hj
  · intro j np' hj
    rw [hpcs hj nofun] at hj
    rw [hfills (j := j) (by rw [hj]; rfl)]
    exact h.forked j np' hj
  · intro j j' np' hj hj'
    have hold : ∀ {m}, (u.slot m).pc.newborn = some np' → (s.slot m).pc.newborn = some np' := by
      intro m hm
      rwa [hpcs rfl (by rintro h; rw [h] at hm; cases hm)] at hm
    exact h.forker j j' np' (hold hj) (hold hj')
  · intro k q hp hk hw
    rw [(hq hp).2] at hw
    rw [hzombie hk] at hp hk
    obtain ⟨hqi, j, st, o, m, hj, hle⟩ := h.zombies k q hp hk hw
    refine ⟨hqi, j, st, o, m, ?_, hle⟩
    rw [hlive (.inr (.inr ((h.placed j).busy (by rw [hj]; rfl)).1))]
    exact hj
  · intro j st m q hj hp hlt
    rw [(hq hp).2]
    have hold := hpcs hj nofun
    rw [hold] at hj hp
    exact h.passed j st m q hj hp hlt
  · intro j m kids k hj hp hlt hk
    rw [hpcs hj nofun] at hj
    rw [hzombie hk] at hp hk
    exact h.scanned j m kids k hj hp hlt hk

/-! ## `fork` -/

theorem forkAlloc (hrun : (s.slot i).Runs .out) (hn : (s.slot np).state = .unused) :
    FamilyInv init ((s.allocproc np).goto i (.forking np)) := by
  have hne : i ≠ np := by
    rintro rfl
    rw [hrun.1] at hn
    cases hn
  have hp := h.placed np
  obtain ⟨hpc, hd⟩ := hp.idle (.inl hn)
  have hv : Vacant s np := by
    refine ⟨fun hl => ?_, fun j hj => ?_⟩
    · rcases hl with hl | hl | hl <;> rw [hn] at hl <;> cases hl
    · have := h.newborn_used hj
      rw [hn] at this
      cases this
  have h1 : FamilyInv init (s.allocproc np) := by
    refine (h.fill { s.slot np with state := .used, pid := s.nextpid } hv ?_ hpc nofun ?_
      ?_).congr rfl rfl
    · constructor <;> simp [hpc, hd, FamilyPc.holdsLock]
    · rintro (hl | hl | hl) <;> cases hl
    · intro q hq
      rw [show (s.slot np).parent = none from hp.orphan hn] at hq
      cases hq
  have hslot : ∀ j, j ≠ np → (s.allocproc np).slot j = s.slot j := fun j hj => s.put_of_ne _ hj
  have hnp : ((s.allocproc np).slot np) = { s.slot np with state := .used, pid := s.nextpid } :=
    s.put_self _
  have hrun1 : ((s.allocproc np).slot i).Runs .out := by
    rw [hslot i hne]
    exact hrun
  refine h1.move (Moves.goto h1 hrun1 rfl nofun h1.others_same ?_ ?_ ?_ nofun nofun nofun)
  · exact fun _ => rfl
  · exact fun _ _ _ => trivial
  · rintro np' ⟨⟩
    rw [hnp]
    refine ⟨rfl, fun j hj hnb => ?_, fun _ => hp.orphan hn, nofun⟩
    by_cases hjn : j = np
    · rw [hjn, hnp, show (s.slot np).pc = .out from hpc] at hnb
      cases hnb
    · rw [hslot j hjn] at hnb
      exact hv.nobody j hnb

theorem vacant_of_newborn (hn : (s.slot i).pc.newborn = some np) :
    Vacant (s.goto i .out) np ∧ i ≠ np := by
  have hused := h.newborn_used hn
  have hne : i ≠ np := by
    rintro rfl
    rw [((h.placed i).idle (.inr hused)).1] at hn
    cases hn
  refine ⟨⟨?_, fun j hj => ?_⟩, hne⟩
  · rw [FamilySystem.goto, s.put_of_ne _ hne.symm]
    rintro (hl | hl | hl) <;> rw [hused] at hl <;> cases hl
  · rw [FamilySystem.goto] at hj
    by_cases hji : j = i
    · rw [hji, s.put_self] at hj
      cases hj
    · rw [s.put_of_ne _ hji] at hj
      exact hji (h.forker j i np hj hn)

omit h in
theorem newborn_of_runs (hrun : (s.slot i).Runs pc) (hn : pc.newborn = some np) :
    (s.slot i).pc.newborn = some np := by
  rw [hrun.2.2]
  exact hn

omit h in
theorem mayParent_out {pc : FamilyPc n} (hrun : (s.slot i).Runs pc) :
    ((s.goto i .out).slot i).MayParent np := by
  rw [FamilySystem.goto, s.put_self]
  exact ⟨.inr (.inr hrun.1), trivial⟩

theorem goto_out {pc : FamilyPc n} (hrun : (s.slot i).Runs pc)
    (hwake : ∀ st o m, pc ≠ .wakeInit st o m) : FamilyInv init (s.goto i .out) :=
  h.outside (l := s.waitLock) hrun hwake (.inl rfl) (fun _ => rfl) h.others_same

theorem forkFail (hrun : (s.slot i).Runs (.forking np)) :
    FamilyInv init ((s.freeproc np).goto i .out) := by
  obtain ⟨hv, hne⟩ := h.vacant_of_newborn (newborn_of_runs hrun rfl)
  rw [FamilySystem.freeproc, put_goto_comm hne]
  refine (h.goto_out hrun nofun).fill .zero hv (.zero np) rfl nofun ?_ nofun
  rintro (hl | hl | hl) <;> cases hl

theorem forkDone (hrun : (s.slot i).Runs (.forked np)) :
    FamilyInv init ((s.put np { s.slot np with state := .runnable }).goto i .out) := by
  obtain ⟨hv, hne⟩ := h.vacant_of_newborn (newborn_of_runs hrun rfl)
  obtain ⟨hused, hpar⟩ := h.forked i np hrun.2.2
  obtain ⟨hpc, hd⟩ := (h.placed np).idle (.inr hused)
  rw [put_goto_comm hne]
  refine (h.goto_out hrun nofun).fill _ hv ?_ hpc nofun (fun _ => ?_) fun q hq => ?_
  · constructor <;> simp [hpc, hd, FamilyPc.holdsLock]
  · simp [hpar]
  · rw [hpar] at hq
    cases hq
    exact mayParent_out hrun

theorem forkParent (hrun : (s.slot i).Runs (.forking np)) :
    FamilyInv init ((s.put np { s.slot np with parent := some i }).goto i (.forked np)) := by
  obtain ⟨hv, hne⟩ := h.vacant_of_newborn (newborn_of_runs hrun rfl)
  obtain ⟨hused, -⟩ := h.forking i np hrun.2.2
  obtain ⟨hpc, hd⟩ := (h.placed np).idle (.inr hused)
  -- by way of a state in which the process is out of `fork`
  have h1 := (h.goto_out hrun nofun).fill { s.slot np with parent := some i } hv
    (by constructor <;> simp [hpc, hd, hused, FamilyPc.holdsLock]) hpc (by simp [hused])
    (by simp) (by rintro q ⟨⟩; exact mayParent_out hrun)
  set u := (s.goto i .out).put np { s.slot np with parent := some i } with hu
  have hui : u.slot i = (s.slot i).goto .out := by
    rw [hu, FamilySystem.put_of_ne _ _ hne, FamilySystem.goto, FamilySystem.put_self]
  have hunp : u.slot np = { s.slot np with parent := some i } := FamilySystem.put_self ..
  have heq : (s.put np { s.slot np with parent := some i }).goto i (.forked np) =
      u.goto i (.forked np) := by
    rw [FamilySystem.goto, FamilySystem.goto, hui, hu, FamilySystem.goto]
    simp only [FamilySystem.put, Function.update_of_ne hne, ProcSlot.goto]
    rw [Function.update_comm hne, Function.update_idem]
  rw [heq]
  have hrun1 : (u.slot i).Runs .out := by
    rw [hui]
    exact ⟨hrun.1, hrun.2.1, rfl⟩
  refine h1.move (Moves.goto h1 hrun1 rfl nofun h1.others_same (fun _ => rfl)
    (fun _ _ _ => trivial) ?_ nofun nofun nofun)
  · rintro np' ⟨⟩
    rw [hunp]
    refine ⟨hused, fun j hj hnb => ?_, nofun, fun _ => rfl⟩
    by_cases hjn : j = np
    · rw [hjn, hunp, show (s.slot np).pc = .out from hpc] at hnb
      cases hnb
    · rw [hu, FamilySystem.put_of_ne _ _ hjn] at hnb
      exact hv.nobody j hnb

/-! ## `wait` -/

omit h in
theorem holdsLock_of_runs (hrun : (s.slot i).Runs pc) (hl : pc.holdsLock = true) :
    (s.slot i).pc.holdsLock = true := by
  rw [hrun.2.2]
  exact hl

theorem lock_of_runs {pc : FamilyPc n} (hrun : (s.slot i).Runs pc)
    (hl : pc.holdsLock = true) : s.waitLock = some i := h.lock i (holdsLock_of_runs hrun hl)

theorem waitAcquire {pc : FamilyPc n} (hrun : (s.slot i).Runs pc)
    (hwake : ∀ st o m, pc ≠ .wakeInit st o m) (hl : s.waitLock = none) :
    FamilyInv init ((s.acquire i).goto i (.scan 0 false)) := by
  refine h.move (Moves.goto h hrun rfl (fun _ => rfl) (h.others_acquire hl) (fun _ => rfl)
    (fun _ _ _ => trivial) nofun (fun st o m hpc => absurd hpc (hwake st o m)) nofun ?_)
  rintro m kids k ⟨⟩ _ hlt
  exact absurd hlt (Nat.not_lt_zero _)

theorem scanNext {kids kids' : Bool} (hrun : (s.slot i).Runs (.scan k kids))
    (hk : (s.slot k).parent = some i → (s.slot k).state ≠ .zombie) :
    FamilyInv init (s.goto i (.scan (k + 1) kids')) := by
  refine h.move (Moves.goto h hrun rfl (fun _ => h.lock_of_runs hrun rfl) h.others_same
    (fun _ => rfl) (fun _ _ _ => trivial) nofun nofun nofun ?_)
  rintro m kids k' ⟨⟩ hp hlt
  rcases Nat.lt_succ_iff_lt_or_eq.mp hlt with hlt | heq
  · exact h.scanned i k _ k' hrun.2.2 hp hlt
  · rw [Fin.ext heq] at hp ⊢
    exact hk hp

theorem waitLeave {m : Nat}
    (hrun : (s.slot i).Runs (.scan m kids)) : FamilyInv init (s.release.goto i .out) :=
  h.outside (l := none) hrun nofun (.inl rfl) (fun _ => rfl)
    (h.others_release (holdsLock_of_runs hrun rfl))

theorem reap {m : Nat} {kids : Bool} (hrun : (s.slot i).Runs (.scan m kids))
    (hz : (s.slot k).state = .zombie) : FamilyInv init ((s.reap k).release.goto i .out) := by
  have hne : i ≠ k := by
    rintro rfl
    rw [hrun.1] at hz
    cases hz
  have hslot : (s.release.goto i .out).slot k = s.slot k := FamilySystem.put_of_ne _ _ hne.symm
  have hv : Vacant (s.release.goto i .out) k := by
    refine ⟨?_, fun j hj => ?_⟩
    · rw [hslot]
      rintro (hl | hl | hl) <;> rw [hz] at hl <;> cases hl
    · have hused := (h.waitLeave hrun).newborn_used hj
      rw [hslot, hz] at hused
      cases hused
  have h1 := (h.waitLeave hrun).fill .zero hv (.zero k) rfl nofun
    (by rintro (hl | hl | hl) <;> cases hl) nofun
  rw [← put_goto_comm hne] at h1
  exact h1.congr rfl rfl

theorem waitDoze (hrun : (s.slot i).Runs (.scan n true)) : FamilyInv init
      (s.release.put i { s.slot i with pc := .waitAsleep, doze := some (.proc i) }) := by
  obtain ⟨hr, hd, hpc⟩ := hrun
  have hholds : (s.slot i).pc.holdsLock = true := by rw [hpc]; rfl
  refine h.move (l := none) ?_
  constructor
  · constructor
    · simp [hr]
    · simp [hr]
    · simp [hr]
    · simp [FamilyPc.holdsLock]
    · exact fun _ => hr
    · simp [hr]
    · rintro c - ⟨⟩
      rfl
  · exact .inl (.inr (.inr hr))
  · exact .inl (.inr (.inr hr))
  · rfl
  · exact nofun
  · exact h.others_release hholds
  · exact fun _ => ⟨.inr (.inr hr), rfl⟩
  · exact fun k _ => ⟨.inr (.inr hr), trivial⟩
  · exact nofun
  · intro hz
    rw [show ({ s.slot i with pc := .waitAsleep, doze := some (.proc i) } : ProcSlot n).state =
      .running from hr] at hz
    cases hz
  · refine fun _ => ⟨fun k hp => h.scanned i n true k hpc hp k.isLt, fun j hj => ?_⟩
    by_contra hl
    exact hj (h.owner_unique (by simpa using hl) hholds)
  · rw [hpc]
    exact nofun
  · exact nofun
  · exact nofun

end FamilyInv

end Xv6Paging
