import Mathlib.Logic.Relation
import Xv6Paging.Machine.State

/-!
# `fork`, `exit` and `wait`

A step is a section under `wait_lock`, under the lock of a process slot, or both: the loops of
`reparent`, `wakeup` and `wait` take one step for each slot they look at.  A slot's lock outlives a
step in two places only, and these are part of the model: a process that goes to sleep has released
the lock it came with before it is `SLEEPING`, and one that exits has released `wait_lock` before it
gives up its own.

What a process does elsewhere is left open.  It may be preempted, and may sleep and be woken up on
other channels, wherever it does not hold `wait_lock`.
-/

namespace Xv6Paging

variable {n : Nat}

/-- What a process sleeps on: a process, or anything else. -/
inductive ProcChan (n : Nat)
  | proc (i : Fin n)
  | other (a : Nat)
deriving DecidableEq

/-- A place in `fork`, `wait` and `exit`. -/
inductive FamilyPc (n : Nat)
  | out
  /-- `fork` has allocated `np`. -/
  | forking (np : Fin n)
  /-- `fork` has set `np->parent`. -/
  | forked (np : Fin n)
  | waitEnter
  /-- `wait` looks at the slot `k`. -/
  | scan (k : Nat) (havekids : Bool)
  | waitAsleep
  | exitEnter (status : Int)
  /-- `reparent` looks at the slot `k`. -/
  | reparent (status : Int) (k : Nat)
  /-- `reparent` has given the slot `k` to `initproc`, and `wakeup(initproc)` looks at the slot `m`.
  -/
  | wakeInit (status : Int) (k : Fin n) (m : Nat)
  /-- `wakeup(p->parent)` looks at the slot `m`. -/
  | wakeParent (status : Int) (m : Nat)
  /-- The process is a zombie that holds the lock of its slot. -/
  | dying
  | dead
deriving DecidableEq

namespace FamilyPc

/-- The process holds `wait_lock`. -/
def holdsLock : FamilyPc n → Bool
  | scan .. | reparent .. | wakeInit .. | wakeParent .. => true
  | _ => false

/-- The process may sleep on another channel here. -/
def elsewhere : FamilyPc n → Bool
  | out | forking _ | exitEnter _ => true
  | _ => false

end FamilyPc

/-- A slot of the process table.  `doze` is the channel of a process that holds the lock of its slot
in order to go to sleep. -/
structure ProcSlot (n : Nat) where
  state : ProcState
  pid : Nat
  parent : Option (Fin n)
  chan : Option (ProcChan n)
  killed : Bool
  xstate : Int
  pc : FamilyPc n
  doze : Option (ProcChan n)

namespace ProcSlot

/-- A slot that is not in use. -/
def zero : ProcSlot n := ⟨.unused, 0, none, none, false, 0, .out, none⟩

/-- The slot of `initproc` after `userinit`. -/
def userinit : ProcSlot n := { zero with state := .runnable, pid := 1 }

/-- The process is at another place. -/
def goto (t : ProcSlot n) (pc : FamilyPc n) : ProcSlot n := { t with pc := pc }

/-- The part of `wakeup` that is about one slot. -/
def wake (t : ProcSlot n) (c : ProcChan n) : ProcSlot n :=
  if t.state = .sleeping ∧ t.chan = some c then { t with state := .runnable } else t

/-- The part of `kill` that is about the slot with the pid. -/
def kill (t : ProcSlot n) : ProcSlot n :=
  { t with killed := true, state := if t.state = .sleeping then .runnable else t.state }

/-- The lock of the slot is free between two steps. -/
def Unlocked (t : ProcSlot n) : Prop := t.doze = none ∧ t.pc ≠ .dying

instance (t : ProcSlot n) : Decidable t.Unlocked := inferInstanceAs (Decidable (_ ∧ _))

/-- The process runs, and is at `pc`. -/
def Runs (t : ProcSlot n) (pc : FamilyPc n) : Prop :=
  t.state = .running ∧ t.doze = none ∧ t.pc = pc

end ProcSlot

/-- The process table and `wait_lock`.  `exited` has the pid and the status of every call of `exit`,
`reaped` those that `wait` has returned. -/
structure FamilySystem (n : Nat) where
  slot : Fin n → ProcSlot n
  waitLock : Option (Fin n)
  nextpid : Nat
  exited : List (Nat × Int)
  reaped : List (Nat × Int)

namespace FamilySystem

/-- The table after `userinit`. -/
def boot (init : Fin n) : FamilySystem n where
  slot := Function.update (fun _ => .zero) init .userinit
  waitLock := none
  nextpid := 2
  exited := []
  reaped := []

/-- A slot gets other contents. -/
def put (s : FamilySystem n) (i : Fin n) (t : ProcSlot n) : FamilySystem n :=
  { s with slot := Function.update s.slot i t }

/-- The process in the slot `i` goes to another place. -/
def goto (s : FamilySystem n) (i : Fin n) (pc : FamilyPc n) : FamilySystem n :=
  s.put i ((s.slot i).goto pc)

/-- `acquire(&wait_lock)`. -/
def acquire (s : FamilySystem n) (i : Fin n) : FamilySystem n := { s with waitLock := some i }

/-- `release(&wait_lock)`. -/
def release (s : FamilySystem n) : FamilySystem n := { s with waitLock := none }

/-- `allocproc` takes the slot. -/
def allocproc (s : FamilySystem n) (np : Fin n) : FamilySystem n :=
  { s.put np { s.slot np with state := .used, pid := s.nextpid } with nextpid := s.nextpid + 1 }

def freeproc (s : FamilySystem n) (np : Fin n) : FamilySystem n := s.put np .zero

/-- `wait` returns the pid and the status of a zombie, and frees its slot. -/
def reap (s : FamilySystem n) (np : Fin n) : FamilySystem n :=
  { s.freeproc np with reaped := s.reaped ++ [((s.slot np).pid, (s.slot np).xstate)] }

/-- A process calls `exit`. -/
def exitCall (s : FamilySystem n) (i : Fin n) (status : Int) : FamilySystem n :=
  { s.goto i (.exitEnter status) with exited := s.exited ++ [((s.slot i).pid, status)] }

end FamilySystem

open FamilySystem in
/-- The steps; `init` is the slot of `initproc`, which panics if it exits. -/
inductive FamilyStep (init : Fin n) : FamilySystem n → FamilySystem n → Prop
  -- the scheduler, and what processes do elsewhere
  | schedule {s} (i : Fin n) (h : (s.slot i).state = .runnable) :
      FamilyStep init s (s.put i { s.slot i with state := .running, chan := none })
  | preempt {s} (i : Fin n) (hr : (s.slot i).state = .running) (hd : (s.slot i).doze = none)
      (hl : (s.slot i).pc.holdsLock = false) :
      FamilyStep init s (s.put i { s.slot i with state := .runnable })
  | dozeElsewhere {s} (i : Fin n) (a : Nat) (hr : (s.slot i).state = .running)
      (hd : (s.slot i).doze = none) (he : (s.slot i).pc.elsewhere = true) :
      FamilyStep init s (s.put i { s.slot i with doze := some (.other a) })
  | fallAsleep {s} (i : Fin n) {c : ProcChan n} (hd : (s.slot i).doze = some c) :
      FamilyStep init s
        (s.put i { s.slot i with doze := none, chan := some c, state := .sleeping })
  | wakeElsewhere {s} (j : Fin n) (a : Nat) (hu : (s.slot j).Unlocked) :
      FamilyStep init s (s.put j ((s.slot j).wake (.other a)))
  | kill {s} (j : Fin n) (hu : (s.slot j).Unlocked) : FamilyStep init s (s.put j (s.slot j).kill)
  -- `fork`
  | forkAlloc {s} (i np : Fin n) (h : (s.slot i).Runs .out) (hn : (s.slot np).state = .unused)
      (hp : s.nextpid < 2 ^ 31) : FamilyStep init s ((s.allocproc np).goto i (.forking np))
  | forkFail {s} (i : Fin n) {np : Fin n} (h : (s.slot i).Runs (.forking np)) :
      FamilyStep init s ((s.freeproc np).goto i .out)
  | forkParent {s} (i : Fin n) {np : Fin n} (h : (s.slot i).Runs (.forking np))
      (hl : s.waitLock = none) :
      FamilyStep init s ((s.put np { s.slot np with parent := some i }).goto i (.forked np))
  | forkDone {s} (i : Fin n) {np : Fin n} (h : (s.slot i).Runs (.forked np)) :
      FamilyStep init s ((s.put np { s.slot np with state := .runnable }).goto i .out)
  -- `wait`
  | waitCall {s} (i : Fin n) (h : (s.slot i).Runs .out) : FamilyStep init s (s.goto i .waitEnter)
  | waitAcquire {s} (i : Fin n) (h : (s.slot i).Runs .waitEnter ∨ (s.slot i).Runs .waitAsleep)
      (hl : s.waitLock = none) : FamilyStep init s ((s.acquire i).goto i (.scan 0 false))
  | scanOther {s} (i k : Fin n) {havekids : Bool} (h : (s.slot i).Runs (.scan k havekids))
      (hp : (s.slot k).parent ≠ some i) : FamilyStep init s (s.goto i (.scan (k + 1) havekids))
  | scanAlive {s} (i k : Fin n) {havekids : Bool} (h : (s.slot i).Runs (.scan k havekids))
      (hp : (s.slot k).parent = some i) (hu : (s.slot k).Unlocked)
      (hz : (s.slot k).state ≠ .zombie) : FamilyStep init s (s.goto i (.scan (k + 1) true))
  | reap {s} (i k : Fin n) {havekids : Bool} (h : (s.slot i).Runs (.scan k havekids))
      (hp : (s.slot k).parent = some i) (hu : (s.slot k).Unlocked)
      (hz : (s.slot k).state = .zombie) : FamilyStep init s ((s.reap k).release.goto i .out)
  -- `copyout` of the status has failed
  | reapFault {s} (i k : Fin n) {havekids : Bool} (h : (s.slot i).Runs (.scan k havekids))
      (hp : (s.slot k).parent = some i) (hu : (s.slot k).Unlocked)
      (hz : (s.slot k).state = .zombie) : FamilyStep init s (s.release.goto i .out)
  | waitFail {s} (i : Fin n) {havekids : Bool} (h : (s.slot i).Runs (.scan n havekids))
      (hk : havekids = false ∨ (s.slot i).killed = true) :
      FamilyStep init s (s.release.goto i .out)
  | waitDoze {s} (i : Fin n) (h : (s.slot i).Runs (.scan n true)) (hk : (s.slot i).killed = false) :
      FamilyStep init s
        (s.release.put i { s.slot i with pc := .waitAsleep, doze := some (.proc i) })
  -- `exit`
  | exitCall {s} (i : Fin n) (status : Int) (h : (s.slot i).Runs .out) (hi : i ≠ init) :
      FamilyStep init s (s.exitCall i status)
  | exitAcquire {s} (i : Fin n) {status : Int} (h : (s.slot i).Runs (.exitEnter status))
      (hl : s.waitLock = none) : FamilyStep init s ((s.acquire i).goto i (.reparent status 0))
  | reparentOther {s} (i k : Fin n) {status : Int} (h : (s.slot i).Runs (.reparent status k))
      (hp : (s.slot k).parent ≠ some i) : FamilyStep init s (s.goto i (.reparent status (k + 1)))
  | reparentChild {s} (i k : Fin n) {status : Int} (h : (s.slot i).Runs (.reparent status k))
      (hp : (s.slot k).parent = some i) :
      FamilyStep init s
        ((s.put k { s.slot k with parent := some init }).goto i (.wakeInit status k 0))
  | wakeInit {s} (i m : Fin n) {status : Int} {k : Fin n}
      (h : (s.slot i).Runs (.wakeInit status k m)) (hm : m ≠ i) (hu : (s.slot m).Unlocked) :
      FamilyStep init s
        ((s.put m ((s.slot m).wake (.proc init))).goto i (.wakeInit status k (m + 1)))
  | wakeInitSelf {s} (i : Fin n) {status : Int} {k : Fin n}
      (h : (s.slot i).Runs (.wakeInit status k i)) :
      FamilyStep init s (s.goto i (.wakeInit status k (i + 1)))
  | wakeInitDone {s} (i : Fin n) {status : Int} {k : Fin n}
      (h : (s.slot i).Runs (.wakeInit status k n)) :
      FamilyStep init s (s.goto i (.reparent status (k + 1)))
  | reparentDone {s} (i : Fin n) {status : Int} (h : (s.slot i).Runs (.reparent status n)) :
      FamilyStep init s (s.goto i (.wakeParent status 0))
  | wakeParent {s} (i m : Fin n) {status : Int} {q : Fin n}
      (h : (s.slot i).Runs (.wakeParent status m)) (hq : (s.slot i).parent = some q) (hm : m ≠ i)
      (hu : (s.slot m).Unlocked) :
      FamilyStep init s
        ((s.put m ((s.slot m).wake (.proc q))).goto i (.wakeParent status (m + 1)))
  | wakeParentSelf {s} (i : Fin n) {status : Int} (h : (s.slot i).Runs (.wakeParent status i)) :
      FamilyStep init s (s.goto i (.wakeParent status (i + 1)))
  | zombie {s} (i : Fin n) {status : Int} (h : (s.slot i).Runs (.wakeParent status n)) :
      FamilyStep init s
        (s.release.put i { s.slot i with xstate := status, state := .zombie, pc := .dying })
  | dead {s} (i : Fin n) (h : (s.slot i).pc = .dying) : FamilyStep init s (s.goto i .dead)

/-- The states of the runs from boot. -/
def FamilyReachable (init : Fin n) (s : FamilySystem n) : Prop :=
  Relation.ReflTransGen (FamilyStep init) (.boot init) s

end Xv6Paging
