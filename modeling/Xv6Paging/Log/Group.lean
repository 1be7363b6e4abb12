import Mathlib.Data.Finset.Card
import Mathlib.Logic.Relation
import Xv6Paging.Log.Redo
import Xv6Paging.Logic.Schedule

/-!
# Group commit

`begin_op`, `log_write`, `end_op` and `commit` as a protocol of any number of processes.  A step is
one critical section of `log.lock`, so the lock is free between steps, or one of the parts of
`commit`, which runs without the lock.  `sleep(&log, &log.lock)` gives up the lock and falls asleep
at once; `wakeup(&log)` sends every sleeper back to the loop of `begin_op`, and so may a `kill` at
any time.

The history of a run is kept beside the state: the operations are numbered as they are admitted and
the commits as they end, and every `log_write` is noted with its operation and the commit that is
due.
-/

namespace Xv6Paging

open StateHalt
open Function (update update_of_ne update_self)

abbrev maxOpBlocks : Nat := 10

/-- The fields of `struct log` that the protocol uses; `lh` lists `lh.block[0..n)`. -/
structure GroupLog where
  outstanding : Int
  committing : Bool
  lh : List Nat

/-- The panics of the critical sections. -/
inductive LogPanic
  | committing
  | tooBig
  | outsideTrans
  deriving DecidableEq

/-- Critical sections of `log.lock`. -/
abbrev GroupM := EStateM LogPanic GroupLog

/-- One round of the loop of `begin_op`: the operation is admitted, or the process has to sleep. -/
def beginRound : GroupM Bool := do
  let log ← get
  if log.committing then pure false
  else if log.lh.length + (log.outstanding + 1) * maxOpBlocks > logSize then pure false
  else do
    modify fun log => { log with outstanding := log.outstanding + 1 }
    pure true

/-- The critical section of `end_op` before the commit; the result is `do_commit`. -/
def endOp : GroupM Bool := do
  modify fun log => { log with outstanding := log.outstanding - 1 }
  let log ← get
  if log.committing then throw .committing
  else if log.outstanding = 0 then do
    modify fun log => { log with committing := true }
    pure true
  else pure false

/-- The block `b` is in the header afterwards: it was, or it is appended. -/
def absorb (lh : List Nat) (b : Nat) : List Nat := if b ∈ lh then lh else lh ++ [b]

/-- `log_write` on a log of `size` blocks; `bpin` plays no role here. -/
def logWrite (size : Int) (b : Nat) : GroupM Unit := do
  let log ← get
  if log.lh.length ≥ logSize ∨ log.lh.length ≥ size - 1 then throw .tooBig
  else if log.outstanding < 1 then throw .outsideTrans
  else modify fun log => { log with lh := absorb log.lh b }

section Sections

variable {log log' : GroupLog} {size : Int} {b : Nat}

theorem beginRound_eq : beginRound log =
    if log.committing ∨ log.lh.length + (log.outstanding + 1) * maxOpBlocks > logSize then
      .ok false log else .ok true { log with outstanding := log.outstanding + 1 } := by
  show (if log.committing then EStateM.pure false else _ : GroupM Bool) log = _
  by_cases hc : log.committing = true
  · rw [if_pos hc, if_pos (.inl hc)]
    rfl
  · rw [if_neg hc]
    by_cases hfull : log.lh.length + (log.outstanding + 1) * maxOpBlocks > logSize
    · rw [if_pos hfull, if_pos (.inr hfull)]
      rfl
    · rw [if_neg hfull, if_neg (not_or.mpr ⟨hc, hfull⟩)]
      rfl

theorem beginRound_true (h : beginRound log = .ok true log') : log.committing = false ∧
    log.lh.length + (log.outstanding + 1) * maxOpBlocks ≤ logSize ∧
    log' = { log with outstanding := log.outstanding + 1 } := by
  rw [beginRound_eq] at h
  split at h
  · cases h
  · rename_i hn
    cases h
    exact ⟨by simpa using fun hc => hn (.inl hc), by omega, rfl⟩

theorem beginRound_false (h : beginRound log = .ok false log') : log' = log ∧
    (log.committing = true ∨ log.lh.length + (log.outstanding + 1) * maxOpBlocks > logSize) := by
  rw [beginRound_eq] at h
  split at h
  · cases h
    exact ⟨rfl, ‹_›⟩
  · cases h

/-- **The critical section of `end_op`.** -/
theorem endOp_eq : endOp log =
    if log.committing then .error .committing { log with outstanding := log.outstanding - 1 }
    else if log.outstanding = 1 then .ok true { log with outstanding := 0, committing := true }
    else .ok false { log with outstanding := log.outstanding - 1 } := by
  show (if log.committing then throw .committing else _ : GroupM Bool)
    { log with outstanding := log.outstanding - 1 } = _
  split
  · rfl
  · by_cases h1 : log.outstanding = 1
    · simp only [h1]
      rfl
    · rw [if_neg h1, if_neg (show ¬log.outstanding - 1 = 0 by omega)]
      rfl

theorem endOp_ok {r : Bool} (h : endOp log = .ok r log') : log.committing = false ∧
    if r then log.outstanding = 1 ∧ log' = { log with outstanding := 0, committing := true }
    else log.outstanding ≠ 1 ∧ log' = { log with outstanding := log.outstanding - 1 } := by
  rw [endOp_eq] at h
  split at h
  · cases h
  · rename_i hc
    split at h
    · cases h
      exact ⟨by simpa using hc, ‹_›, rfl⟩
    · cases h
      exact ⟨by simpa using hc, ‹_›, rfl⟩

/-- **`log_write`.** -/
theorem logWrite_eq : logWrite size b log =
    if log.lh.length ≥ logSize ∨ log.lh.length ≥ size - 1 then .error .tooBig log
    else if log.outstanding < 1 then .error .outsideTrans log
    else .ok () { log with lh := absorb log.lh b } := by
  show (if _ then throw LogPanic.tooBig else _ : GroupM Unit) log = _
  split
  · rfl
  · split <;> rfl

theorem logWrite_ok (h : logWrite size b log = .ok () log') :
    log' = { log with lh := absorb log.lh b } ∧ log.lh.length < size - 1 := by
  rw [logWrite_eq] at h
  split at h
  · cases h
  · split at h
    · cases h
    · cases h
      exact ⟨rfl, by omega⟩

theorem logWrite_returns (hlog : log.lh.length < logSize) (hsize : log.lh.length < size - 1)
    (hout : 1 ≤ log.outstanding) :
    logWrite size b log = .ok () { log with lh := absorb log.lh b } := by
  rw [logWrite_eq, if_neg (by omega), if_neg (by omega)]

theorem logWrite_ne_tooBig (hlog : log.lh.length < logSize) (hsize : log.lh.length < size - 1) :
    logWrite size b log ≠ .error .tooBig log' := by
  rw [logWrite_eq, if_neg (by omega)]
  split <;> simp

theorem mem_absorb {lh : List Nat} {x : Nat} : x ∈ absorb lh b ↔ x ∈ lh ∨ x = b := by
  unfold absorb
  split
  · rename_i hb
    exact ⟨.inl, fun h => h.elim id fun h => h ▸ hb⟩
  · simp

theorem absorb_nodup {lh : List Nat} (h : lh.Nodup) : (absorb lh b).Nodup := by
  unfold absorb
  split
  · exact h
  · rename_i hb
    exact List.nodup_append.mpr ⟨h, by simp, by simpa using fun x hx => by rintro rfl; exact hb hx⟩

theorem absorb_length_le {lh : List Nat} : (absorb lh b).length ≤ lh.length + 1 := by
  unfold absorb
  split <;> simp

theorem length_le_absorb {lh : List Nat} : lh.length ≤ (absorb lh b).length := by
  unfold absorb
  split <;> simp

end Sections

/-! ## Processes -/

/-- The parts of `commit` and of the end of `end_op`. -/
inductive Stage
  | check
  | writeLog
  | writeHead
  | install
  | clear
  | eraseHead
  | finish
  deriving DecidableEq

/-- Where a process is: outside an operation, in the loop of `begin_op`, asleep in it, in its
operation, or committing in `end_op`. -/
inductive Pc
  | outside
  | begin
  | asleep
  | inside
  | commit (stage : Stage)
  deriving DecidableEq

/-- The history of a run: the number of the operation of a process and the blocks it logged, the
number of operations and of commits so far, every `log_write` with its operation and the number of
the commit that is due, and the blocks that a commit wrote. -/
structure History (ι : Type) where
  op : ι → Nat
  logged : ι → Finset Nat
  ops : Nat
  commits : Nat
  writes : List (Nat × Nat × Nat)
  batch : Nat → Option (List Nat)

/-- The log, the processes and the history. -/
structure System (ι : Type) where
  log : GroupLog
  pc : ι → Pc
  hist : History ι

namespace System

variable {ι : Type} [DecidableEq ι]

/-- The system after `initlog`. -/
def init : System ι where
  log := ⟨0, false, []⟩
  pc := fun _ => .outside
  hist := ⟨fun _ => 0, fun _ => ∅, 0, 0, [], fun _ => none⟩

/-- A process goes on. -/
def setPc (s : System ι) (i : ι) (c : Pc) : System ι := { s with pc := update s.pc i c }

/-- `wakeup(&log)`. -/
def wakeup (s : System ι) : System ι :=
  { s with pc := fun i => if s.pc i = .asleep then .begin else s.pc i }

/-- The process `i` starts an operation. -/
def openOp (s : System ι) (i : ι) : System ι :=
  { s with hist := { s.hist with
      op := update s.hist.op i s.hist.ops
      logged := update s.hist.logged i ∅
      ops := s.hist.ops + 1 } }

/-- The process `i` logged the block `b`. -/
def record (s : System ι) (i : ι) (b : Nat) : System ι :=
  { s with hist := { s.hist with
      logged := update s.hist.logged i (insert b (s.hist.logged i))
      writes := (s.hist.op i, b, s.hist.commits) :: s.hist.writes } }

/-- The header is on the disk: the blocks in it are committed. -/
def recordBatch (s : System ι) : System ι :=
  { s with hist := { s.hist with
      batch := update s.hist.batch s.hist.commits (some s.log.lh) } }

/-- `log.lh.n = 0`. -/
def clearLog (s : System ι) : System ι := { s with log := { s.log with lh := [] } }

/-- `log.committing = 0`, at the end of `end_op`. -/
def endCommit (s : System ι) : System ι :=
  { s with
    log := { s.log with committing := false }
    hist := { s.hist with commits := s.hist.commits + 1 } }

@[simp] theorem setPc_self (s : System ι) (i : ι) (c : Pc) : (s.setPc i c).pc i = c :=
  update_self ..

theorem setPc_of_ne (s : System ι) {i j : ι} (c : Pc) (h : j ≠ i) : (s.setPc i c).pc j = s.pc j :=
  update_of_ne h ..

theorem of_setPc {s : System ι} {i j : ι} {c c' : Pc} (h : (s.setPc i c).pc j = c')
    (hne : c ≠ c') : j ≠ i ∧ s.pc j = c' := by
  have hji : j ≠ i := by
    rintro rfl
    exact hne (by rw [← h, setPc_self])
  exact ⟨hji, by rwa [setPc_of_ne s c hji] at h⟩

end System

/-- The steps of the processes.  The set of blocks that an operation logs is restricted to the sets
that are `allowed`. -/
inductive Step {ι : Type} [DecidableEq ι] (size : Int) (allowed : Finset Nat → Prop) :
    System ι → System ι → Prop
  | call {s} (i : ι) (h : s.pc i = .outside) : Step size allowed s (s.setPc i .begin)
  | enter {s} (i : ι) {log : GroupLog} (h : s.pc i = .begin)
      (hr : beginRound s.log = .ok true log) :
      Step size allowed s ((System.openOp { s with log := log } i).setPc i .inside)
  | sleep {s} (i : ι) {log : GroupLog} (h : s.pc i = .begin)
      (hr : beginRound s.log = .ok false log) :
      Step size allowed s (System.setPc { s with log := log } i .asleep)
  | rouse {s} (i : ι) (h : s.pc i = .asleep) : Step size allowed s (s.setPc i .begin)
  | write {s} (i : ι) (b : Nat) {log : GroupLog} (h : s.pc i = .inside)
      (ha : allowed (insert b (s.hist.logged i))) (hr : logWrite size b s.log = .ok () log) :
      Step size allowed s (System.record { s with log := log } i b)
  | leave {s} (i : ι) {log : GroupLog} (h : s.pc i = .inside)
      (hr : endOp s.log = .ok false log) :
      Step size allowed s ((System.wakeup { s with log := log }).setPc i .outside)
  | close {s} (i : ι) {log : GroupLog} (h : s.pc i = .inside)
      (hr : endOp s.log = .ok true log) :
      Step size allowed s (System.setPc { s with log := log } i (.commit .check))
  | check {s} (i : ι) (h : s.pc i = .commit .check) :
      Step size allowed s (s.setPc i (.commit (if s.log.lh.length > 0 then .writeLog else .finish)))
  | writeLog {s} (i : ι) (h : s.pc i = .commit .writeLog) :
      Step size allowed s (s.setPc i (.commit .writeHead))
  | writeHead {s} (i : ι) (h : s.pc i = .commit .writeHead) :
      Step size allowed s (s.recordBatch.setPc i (.commit .install))
  | install {s} (i : ι) (h : s.pc i = .commit .install) :
      Step size allowed s (s.setPc i (.commit .clear))
  | clear {s} (i : ι) (h : s.pc i = .commit .clear) :
      Step size allowed s (s.clearLog.setPc i (.commit .eraseHead))
  | eraseHead {s} (i : ι) (h : s.pc i = .commit .eraseHead) :
      Step size allowed s (s.setPc i (.commit .finish))
  | finish {s} (i : ι) (h : s.pc i = .commit .finish) :
      Step size allowed s (s.endCommit.wakeup.setPc i .outside)

/-- The states of the runs. -/
def System.Reachable {ι : Type} [DecidableEq ι] (size : Int) (allowed : Finset Nat → Prop) :
    System ι → Prop := Relation.ReflTransGen (Step size allowed) System.init

/-! ## Runs that compute -/

namespace System

variable {ι : Type} [DecidableEq ι] {s s' : System ι} {i : ι} {size : Int}

/-- The process `i` goes on, to the next critical section or the next stage of `commit`, without
logging a block. -/
def go (s : System ι) (i : ι) : Option (System ι) :=
  match s.pc i with
  | .outside => some (s.setPc i .begin)
  | .begin =>
    match beginRound s.log with
    | .ok true log => some ((openOp { s with log := log } i).setPc i .inside)
    | .ok false log => some (setPc { s with log := log } i .asleep)
    | .error _ _ => none
  | .asleep => some (s.setPc i .begin)
  | .inside =>
    match endOp s.log with
    | .ok true log => some (setPc { s with log := log } i (.commit .check))
    | .ok false log => some ((wakeup { s with log := log }).setPc i .outside)
    | .error _ _ => none
  | .commit .check =>
    some (s.setPc i (.commit (if s.log.lh.length > 0 then .writeLog else .finish)))
  | .commit .writeLog => some (s.setPc i (.commit .writeHead))
  | .commit .writeHead => some (s.recordBatch.setPc i (.commit .install))
  | .commit .install => some (s.setPc i (.commit .clear))
  | .commit .clear => some (s.clearLog.setPc i (.commit .eraseHead))
  | .commit .eraseHead => some (s.setPc i (.commit .finish))
  | .commit .finish => some (s.endCommit.wakeup.setPc i .outside)

/-- A process goes on, or logs a block in its operation. -/
def move (size : Int) (s : System ι) : ι × Option Nat → Option (System ι)
  | (i, none) => s.go i
  | (i, some b) =>
    if s.pc i = .inside then
      match logWrite size b s.log with
      | .ok _ log => some (record { s with log := log } i b)
      | .error _ _ => none
    else none

/-- A process that goes on takes a step, logs nothing and leaves those alone that do not sleep. -/
theorem go_step {allowed : Finset Nat → Prop} (h : s.go i = some s') : Step size allowed s s' ∧
    s'.hist.writes = s.hist.writes ∧ ∀ j, j ≠ i → s.pc j ≠ .asleep → s'.pc j = s.pc j := by
  have hset : ∀ (t : System ι) c j, j ≠ i → s.pc j ≠ .asleep → t.pc j = s.pc j →
      (t.setPc i c).pc j = s.pc j := fun t c j hji _ ht => (t.setPc_of_ne c hji).trans ht
  have hwake : ∀ (t : System ι) j, s.pc j ≠ .asleep → t.pc j = s.pc j → t.wakeup.pc j = s.pc j :=
    fun t j hj ht => (if_neg (ht ▸ hj)).trans ht
  unfold go at h
  split at h
  · rename_i hi
    cases h
    exact ⟨.call i hi, rfl, fun j hji hj => hset _ _ j hji hj rfl⟩
  · rename_i hi
    split at h <;> cases h
    · exact ⟨.enter i hi ‹_›, rfl, fun j hji hj => hset _ _ j hji hj rfl⟩
    · exact ⟨.sleep i hi ‹_›, rfl, fun j hji hj => hset _ _ j hji hj rfl⟩
  · rename_i hi
    cases h
    exact ⟨.rouse i hi, rfl, fun j hji hj => hset _ _ j hji hj rfl⟩
  · rename_i hi
    split at h <;> cases h
    · exact ⟨.close i hi ‹_›, rfl, fun j hji hj => hset _ _ j hji hj rfl⟩
    · exact ⟨.leave i hi ‹_›, rfl, fun j hji hj => hset _ _ j hji hj (hwake _ j hj rfl)⟩
  all_goals
    rename_i hi
    cases h
  · exact ⟨.check i hi, rfl, fun j hji hj => hset _ _ j hji hj rfl⟩
  · exact ⟨.writeLog i hi, rfl, fun j hji hj => hset _ _ j hji hj rfl⟩
  · exact ⟨.writeHead i hi, rfl, fun j hji hj => hset _ _ j hji hj rfl⟩
  · exact ⟨.install i hi, rfl, fun j hji hj => hset _ _ j hji hj rfl⟩
  · exact ⟨.clear i hi, rfl, fun j hji hj => hset _ _ j hji hj rfl⟩
  · exact ⟨.eraseHead i hi, rfl, fun j hji hj => hset _ _ j hji hj rfl⟩
  · exact ⟨.finish i hi, rfl, fun j hji hj => hset _ _ j hji hj (hwake _ j hj rfl)⟩

theorem move_step {m : ι × Option Nat} (h : s.move size m = some s') :
    Step size (fun _ => True) s s' := by
  obtain ⟨i, _ | b⟩ := m
  · exact (go_step h).1
  · simp only [move] at h
    split at h
    · rename_i hi
      split at h <;> cases h
      exact .write i b hi trivial ‹_›
    · cases h

end System

/-! ## The protocol -/

/-- The admission test of `begin_op` fails. -/
def GroupLog.Full (log : GroupLog) : Prop :=
  log.lh.length + (log.outstanding + 1) * maxOpBlocks > logSize

/-- **The invariant of the protocol.** -/
structure GroupInv {ι : Type} (s : System ι) : Prop where
  active : ∃ S : Finset ι, (∀ i, i ∈ S ↔ s.pc i = .inside) ∧ s.log.outstanding = S.card
  committer : ∀ i stage, s.pc i = .commit stage → s.log.committing = true
  one : ∀ i j stage stage', s.pc i = .commit stage → s.pc j = .commit stage' → i = j
  quiet : s.log.committing = true → s.log.outstanding = 0
  cleared : ∀ i, s.pc i = .commit .eraseHead ∨ s.pc i = .commit .finish → s.log.lh = []
  idle : s.log.committing = false → s.log.outstanding = 0 → s.log.lh = []
  asleep : ∀ i, s.pc i = .asleep → s.log.committing = true ∨ s.log.Full
  nodup : s.log.lh.Nodup

namespace GroupInv

variable {ι : Type} [DecidableEq ι] {s : System ι} {i : ι}

section

variable (hs : GroupInv s) {c : Pc} {j : ι} {log : GroupLog} {s' : System ι}
include hs

theorem outstanding_pos (h : s.pc i = .inside) : 0 < s.log.outstanding := by
  obtain ⟨S, hS, hcard⟩ := hs.active
  have hpos : 0 < S.card := Finset.card_pos.mpr ⟨i, (hS i).mpr h⟩
  omega

theorem not_committing (h : s.pc i = .inside) : s.log.committing = false := by
  cases hc : s.log.committing with
  | false => rfl
  | true =>
    have h0 := hs.quiet hc
    have hpos := hs.outstanding_pos h
    omega

theorem no_commit (hc : s.log.committing = false) (j : ι) (stage : Stage) :
    s.pc j ≠ .commit stage := fun hj =>
  absurd (hc.symm.trans (hs.committer j stage hj)) (by decide)

theorem no_inside (hc : s.log.committing = true) (j : ι) : s.pc j ≠ .inside :=
  fun hj => absurd (hc.symm.trans (hs.not_committing hj)) (by decide)

theorem congr (hlog : s'.log = s.log) (hpc : s'.pc = s.pc) : GroupInv s' := by
  obtain ⟨log', pc', hist'⟩ := s'
  obtain rfl : log' = s.log := hlog
  obtain rfl : pc' = s.pc := hpc
  exact ⟨hs.active, hs.committer, hs.one, hs.quiet, hs.cleared, hs.idle, hs.asleep, hs.nodup⟩

omit [DecidableEq ι] in
omit hs in
/-- The system in which nobody commits and nobody sleeps. -/
theorem calm {s' : System ι}
    (hactive : ∃ S : Finset ι, (∀ i, i ∈ S ↔ s'.pc i = .inside) ∧ s'.log.outstanding = S.card)
    (hcommit : ∀ j stage, s'.pc j ≠ .commit stage) (hawake : ∀ j, s'.pc j ≠ .asleep)
    (hc : s'.log.committing = false) (hidle : s'.log.outstanding = 0 → s'.log.lh = [])
    (hnodup : s'.log.lh.Nodup) : GroupInv s' where
  active := hactive
  committer j stage hj := absurd hj (hcommit j stage)
  one j _ stage _ hj := absurd hj (hcommit j stage)
  quiet hc' := absurd (hc.symm.trans hc') (by decide)
  cleared j hj := hj.elim (fun h => absurd h (hcommit j _)) fun h => absurd h (hcommit j _)
  idle _ := hidle
  asleep j hj := absurd hj (hawake j)
  nodup := hnodup

omit hs in
theorem moved {stage : Stage}
    (hcommit : ∀ stage, c = .commit stage → ∃ stage', s.pc i = .commit stage')
    (hj : (s.setPc i c).pc j = .commit stage) : ∃ stage', s.pc j = .commit stage' := by
  by_cases hji : j = i
  · subst hji
    exact hcommit stage (by rw [← hj, System.setPc_self])
  · exact ⟨stage, by rwa [System.setPc_of_ne s c hji] at hj⟩

/-- A process moves on without entering or leaving an operation, and the log stays as it is. -/
theorem move (c : Pc) (hin : s.pc i ≠ .inside) (hin' : c ≠ .inside)
    (hcommit : ∀ stage, c = .commit stage → ∃ stage', s.pc i = .commit stage')
    (hclear : c = .commit .eraseHead ∨ c = .commit .finish → s.log.lh = [])
    (hsleep : c = .asleep → s.log.committing = true ∨ s.log.Full) : GroupInv (s.setPc i c) where
  active := by
    obtain ⟨S, hS, hcard⟩ := hs.active
    refine ⟨S, fun j => ?_, hcard⟩
    rw [hS j]
    by_cases hj : j = i
    · subst hj
      simp [hin, hin']
    · rw [System.setPc_of_ne s c hj]
  committer j stage hj := by
    obtain ⟨stage', hj'⟩ := moved hcommit hj
    exact hs.committer j stage' hj'
  one j k stage stage' hj hk := by
    obtain ⟨st, hj'⟩ := moved hcommit hj
    obtain ⟨st', hk'⟩ := moved hcommit hk
    exact hs.one j k st st' hj' hk'
  quiet := hs.quiet
  cleared j hj := by
    by_cases hji : j = i
    · subst hji
      rw [System.setPc_self] at hj
      exact hclear hj
    · rw [System.setPc_of_ne s c hji] at hj
      exact hs.cleared j hj
  idle := hs.idle
  asleep j hj := by
    by_cases hji : j = i
    · subst hji
      rw [System.setPc_self] at hj
      exact hsleep hj
    · rw [System.setPc_of_ne s c hji] at hj
      exact hs.asleep j hj
  nodup := hs.nodup

omit hs in
theorem init : GroupInv (System.init : System ι) where
  active := ⟨∅, by simp [System.init], by simp [System.init]⟩
  committer := by simp [System.init]
  one := by simp [System.init]
  quiet := by simp [System.init]
  cleared := by simp [System.init]
  idle := by simp [System.init]
  asleep := by simp [System.init]
  nodup := by simp [System.init]

theorem enter (h : s.pc i = .begin) (hr : beginRound s.log = .ok true log) :
    GroupInv ((System.openOp { s with log := log } i).setPc i .inside) := by
  obtain ⟨hc, -, rfl⟩ := beginRound_true hr
  obtain ⟨S, hS, hcard⟩ := hs.active
  have hi : i ∉ S := fun hi => by simp [(hS i).mp hi] at h
  have hcommit : ∀ j stage, ((System.openOp { s with log := { s.log with
      outstanding := s.log.outstanding + 1 } } i).setPc i .inside).pc j ≠ .commit stage :=
    fun j stage hj => hs.no_commit hc j stage (System.of_setPc hj (by simp)).2
  refine ⟨⟨insert i S, fun j => ?_, ?_⟩, fun j stage hj => absurd hj (hcommit j stage),
    fun j _ stage _ hj => absurd hj (hcommit j stage),
    fun hc' => absurd (hc.symm.trans hc') (by decide),
    fun j hj => hj.elim (fun h => absurd h (hcommit j _)) fun h => absurd h (hcommit j _),
    fun _ h0 => ?_, fun j hj => ?_, hs.nodup⟩
  · by_cases hj : j = i
    · subst hj
      simp
    · rw [System.setPc_of_ne _ _ hj, Finset.mem_insert, or_iff_right hj, hS j]
      rfl
  · rw [Finset.card_insert_of_notMem hi]
    push_cast
    rw [← hcard]
    rfl
  · -- there is an operation under way
    have h0' : s.log.outstanding + 1 = 0 := h0
    omega
  · rcases hs.asleep j (System.of_setPc hj (by simp)).2 with hc' | hfull
    · exact .inl hc'
    · refine .inr ?_
      show (s.log.lh.length : Int) + (s.log.outstanding + 1 + 1) * maxOpBlocks > logSize
      have := hfull
      simp only [GroupLog.Full, maxOpBlocks, logSize] at *
      omega

theorem write {size : Int} {b : Nat} (h : s.pc i = .inside)
    (hr : logWrite size b s.log = .ok () log) :
    GroupInv (System.record { s with log := log } i b) := by
  obtain ⟨rfl, -⟩ := logWrite_ok hr
  have hno := hs.no_commit (hs.not_committing h)
  have hpos := hs.outstanding_pos h
  refine ⟨hs.active, hs.committer, hs.one, hs.quiet,
    fun j hj => hj.elim (fun h => absurd h (hno j _)) fun h => absurd h (hno j _), fun _ h0 => ?_,
    fun j hj => ?_, absorb_nodup hs.nodup⟩
  · have h0' : s.log.outstanding = 0 := h0
    omega
  · rcases hs.asleep j hj with hc' | hfull
    · exact .inl hc'
    · refine .inr ?_
      have hle := @length_le_absorb b s.log.lh
      show ((absorb s.log.lh b).length : Int) + (s.log.outstanding + 1) * maxOpBlocks > logSize
      have := hfull
      simp only [GroupLog.Full, maxOpBlocks, logSize] at *
      omega

omit hs in
theorem wakeup_asleep (s : System ι) (j : ι) : s.wakeup.pc j ≠ .asleep := by
  show (if s.pc j = .asleep then Pc.begin else s.pc j) ≠ .asleep
  split <;> simp_all

omit hs in
theorem wakeup_pc (s : System ι) (h1 : c ≠ .begin) (h2 : c ≠ .asleep) :
    s.wakeup.pc j = c ↔ s.pc j = c := by
  show (if s.pc j = .asleep then Pc.begin else s.pc j) = c ↔ _
  split
  · rename_i h
    rw [h]
    exact ⟨fun h => absurd h.symm h1, fun h => absurd h.symm h2⟩
  · rfl

omit hs in
theorem of_wakeup {j : ι} {c c' : Pc} (h : (s.wakeup.setPc i c).pc j = c') (hne : c ≠ c')
    (h1 : c' ≠ .begin) (h2 : c' ≠ .asleep) : j ≠ i ∧ s.pc j = c' :=
  (System.of_setPc h hne).imp_right (wakeup_pc s h1 h2).mp

theorem active_leave (h : s.pc i = .inside) :
    ∃ S : Finset ι, (∀ j, j ∈ S ↔ j ≠ i ∧ s.pc j = .inside) ∧ s.log.outstanding - 1 = S.card := by
  obtain ⟨S, hS, hcard⟩ := hs.active
  refine ⟨S.erase i, fun j => by rw [Finset.mem_erase, hS j], ?_⟩
  rw [Finset.card_erase_of_mem ((hS i).mpr h), hcard]
  have hpos : 0 < S.card := Finset.card_pos.mpr ⟨i, (hS i).mpr h⟩
  omega

theorem leave (h : s.pc i = .inside) (hr : endOp s.log = .ok false log) :
    GroupInv ((System.wakeup { s with log := log }).setPc i .outside) := by
  obtain ⟨hc, hne, rfl⟩ := endOp_ok hr
  obtain ⟨S, hS, hcard⟩ := hs.active_leave h
  refine calm ⟨S, fun j => ?_, hcard⟩
    (fun j stage hj => hs.no_commit hc j stage (of_wakeup hj (by simp) (by simp) (by simp)).2)
    (fun j hj => wakeup_asleep _ j (System.of_setPc hj (by simp)).2) hc (fun h0 => ?_) hs.nodup
  · rw [hS j]
    by_cases hji : j = i
    · subst hji
      simp
    · rw [System.setPc_of_ne _ _ hji, and_iff_right hji]
      exact (wakeup_pc _ (by simp) (by simp)).symm
  · have h0' : s.log.outstanding - 1 = 0 := h0
    omega

theorem close (h : s.pc i = .inside) (hr : endOp s.log = .ok true log) :
    GroupInv (System.setPc { s with log := log } i (.commit .check)) := by
  obtain ⟨hc, hone, rfl⟩ := endOp_ok hr
  have hcommit : ∀ j stage, (System.setPc { s with log := { s.log with
      outstanding := 0, committing := true } } i (.commit .check)).pc j = .commit stage →
      j = i ∧ stage = .check := by
    intro j stage hj
    by_cases hji : j = i
    · subst hji
      simpa [eq_comm] using hj
    · rw [System.setPc_of_ne _ _ hji] at hj
      exact absurd hj (hs.no_commit hc j stage)
  obtain ⟨S, hS, hcard⟩ := hs.active_leave h
  refine ⟨⟨S, fun j => ?_, ?_⟩, fun _ _ _ => rfl, fun j k stage stage' hj hk => ?_, fun _ => rfl,
    fun j hj => ?_, fun hc' => ?_, fun _ _ => .inl rfl, hs.nodup⟩
  · rw [hS j]
    by_cases hji : j = i
    · subst hji
      simp
    · rw [System.setPc_of_ne _ _ hji, and_iff_right hji]
  · rw [← hcard, hone]
    rfl
  · rw [(hcommit j stage hj).1, (hcommit k stage' hk).1]
  · rcases hj with hj | hj
    · exact absurd (hcommit j _ hj).2 (by decide)
    · exact absurd (hcommit j _ hj).2 (by decide)
  · exact absurd (show true = false from hc') (by decide)

theorem clear (h : s.pc i = .commit .clear) :
    GroupInv (s.clearLog.setPc i (.commit .eraseHead)) := by
  have hc := hs.committer i _ h
  have hs' : GroupInv s.clearLog :=
    ⟨hs.active, hs.committer, hs.one, hs.quiet, fun _ _ => rfl, fun _ _ => rfl, fun _ _ => .inl hc,
      List.nodup_nil⟩
  exact hs'.move _ (by simp [System.clearLog, h]) (by simp) (fun _ _ => ⟨_, h⟩) (fun _ => rfl)
    (by simp)

theorem finish (h : s.pc i = .commit .finish) : GroupInv (s.endCommit.wakeup.setPc i .outside) := by
  obtain ⟨S, hS, hcard⟩ := hs.active
  refine calm ⟨S, fun j => ?_, hcard⟩ (fun j stage hj => ?_)
    (fun j hj => wakeup_asleep _ j (System.of_setPc hj (by simp)).2) rfl
    (fun _ => hs.cleared i (.inr h)) hs.nodup
  · rw [hS j]
    by_cases hji : j = i
    · subst hji
      simp [h]
    · rw [System.setPc_of_ne _ _ hji]
      exact (wakeup_pc s.endCommit (by simp) (by simp)).symm
  · obtain ⟨hji, hj'⟩ := of_wakeup hj (by simp) (by simp) (by simp)
    exact hji (hs.one j i _ _ hj' h)

/-- **Every step keeps the invariant.** -/
theorem step {size : Int} {allowed : Finset Nat → Prop}
    (h : Step size allowed s s') : GroupInv s' := by
  cases h with
  | call i h => exact hs.move _ (by simp [h]) (by simp) (by simp) (by simp) (by simp)
  | enter i h hr => exact hs.enter h hr
  | sleep i h hr =>
    obtain ⟨rfl, hwhy⟩ := beginRound_false hr
    exact hs.move _ (by simp [h]) (by simp) (by simp) (by simp) fun _ => hwhy
  | rouse i h => exact hs.move _ (by simp [h]) (by simp) (by simp) (by simp) (by simp)
  | write i b h _ hr => exact hs.write h hr
  | leave i h hr => exact hs.leave h hr
  | close i h hr => exact hs.close h hr
  | check i h =>
    refine hs.move _ (by simp [h]) (by simp) (fun _ _ => ⟨_, h⟩) (fun hc => ?_) (by simp)
    split at hc
    · simp at hc
    · exact List.length_eq_zero_iff.mp (by omega)
  | writeLog i h => exact hs.move _ (by simp [h]) (by simp) (fun _ _ => ⟨_, h⟩) (by simp) (by simp)
  | writeHead i h =>
    exact (hs.move (.commit .install) (by simp [h]) (by simp) (fun _ _ => ⟨_, h⟩) (by simp)
      (by simp)).congr rfl rfl
  | install i h => exact hs.move _ (by simp [h]) (by simp) (fun _ _ => ⟨_, h⟩) (by simp) (by simp)
  | clear i h => exact hs.clear h
  | eraseHead i h =>
    exact hs.move _ (by simp [h]) (by simp) (fun _ _ => ⟨_, h⟩) (fun _ => hs.cleared i (.inl h))
      (by simp)
  | finish i h => exact hs.finish h

end

/-- **Every reachable state satisfies the invariant.** -/
theorem reachable {size : Int} {allowed : Finset Nat → Prop} (h : System.Reachable size allowed s) :
    GroupInv s := by
  induction h with
  | refl => exact init
  | tail _ hstep ih => exact ih.step hstep

end GroupInv

/-! ## The history -/

/-- A commit has emptied the header in memory and not ended yet. -/
def System.Late {ι : Type} (s : System ι) : Prop :=
  ∃ i, s.pc i = .commit .eraseHead ∨ s.pc i = .commit .finish

/-- The commit `c` wrote the block `b`. -/
def History.Wrote {ι : Type} (h : History ι) (c b : Nat) : Prop := ∃ l, h.batch c = some l ∧ b ∈ l

/-- **The invariant of the history**: a block that was logged for the commit that is due is in the
header, until that commit has written it; a block that was logged for an earlier commit was written
by it; and an operation logs for one commit only. -/
structure HistoryInv {ι : Type} (s : System ι) : Prop where
  logged : ∀ i, s.pc i = .inside → ∀ b ∈ s.hist.logged i, b ∈ s.log.lh
  op_lt : ∀ i, s.pc i = .inside → s.hist.op i < s.hist.ops
  op_inj : ∀ i j, s.pc i = .inside → s.pc j = .inside → s.hist.op i = s.hist.op j → i = j
  writes_lt : ∀ o b c, (o, b, c) ∈ s.hist.writes → o < s.hist.ops ∧ c ≤ s.hist.commits
  current : ∀ i, s.pc i = .inside → ∀ b c, (s.hist.op i, b, c) ∈ s.hist.writes →
    c = s.hist.commits
  one : ∀ o b c b' c', (o, b, c) ∈ s.hist.writes → (o, b', c') ∈ s.hist.writes → c = c'
  past : ∀ o b c, (o, b, c) ∈ s.hist.writes → c < s.hist.commits → s.hist.Wrote c b
  due : ∀ o b, (o, b, s.hist.commits) ∈ s.hist.writes →
    b ∈ s.log.lh ∨ s.Late ∧ s.hist.Wrote s.hist.commits b
  staged : ∀ i, s.pc i = .commit .install ∨ s.pc i = .commit .clear →
    s.hist.batch s.hist.commits = some s.log.lh

namespace HistoryInv

variable {ι : Type} [DecidableEq ι] {s : System ι} {i : ι}

theorem init : HistoryInv (System.init : System ι) where
  logged := by simp [System.init]
  op_lt := by simp [System.init]
  op_inj := by simp [System.init]
  writes_lt := by simp [System.init]
  current := by simp [System.init]
  one := by simp [System.init]
  past := by simp [System.init]
  due := by simp [System.init]
  staged := by simp [System.init]

/-- A process moves on without entering an operation, and neither the log nor the history
changes. -/
theorem move (hh : HistoryInv s) (c : Pc) (hin : c ≠ .inside)
    (hlate : s.pc i = .commit .eraseHead ∨ s.pc i = .commit .finish → c = .commit .finish)
    (hstaged : c = .commit .install ∨ c = .commit .clear →
      s.hist.batch s.hist.commits = some s.log.lh) : HistoryInv (s.setPc i c) := by
  have hpc : ∀ j, (s.setPc i c).pc j = .inside → s.pc j = .inside := fun j hj =>
    (System.of_setPc hj hin).2
  refine ⟨fun j hj => hh.logged j (hpc j hj), fun j hj => hh.op_lt j (hpc j hj),
    fun j k hj hk => hh.op_inj j k (hpc j hj) (hpc k hk), hh.writes_lt,
    fun j hj => hh.current j (hpc j hj), hh.one, hh.past, fun o b hw => ?_, fun j hj => ?_⟩
  · rcases hh.due o b hw with h | ⟨⟨k, hk⟩, hw⟩
    · exact .inl h
    · refine .inr ⟨⟨k, ?_⟩, hw⟩
      by_cases hki : k = i
      · subst hki
        rw [System.setPc_self, hlate hk]
        exact .inr rfl
      · rwa [System.setPc_of_ne s c hki]
  · by_cases hji : j = i
    · subst hji
      rw [System.setPc_self] at hj
      exact hstaged hj
    · rw [System.setPc_of_ne s c hji] at hj
      exact hh.staged j hj

section

variable (hs : GroupInv s)
include hs

variable (hh : HistoryInv s)
include hh

theorem enter {log : GroupLog} (h : s.pc i = .begin) (hr : beginRound s.log = .ok true log) :
    HistoryInv ((System.openOp { s with log := log } i).setPc i .inside) := by
  obtain ⟨hc, -, rfl⟩ := beginRound_true hr
  -- the new operation has the next number and has logged nothing
  have hno : ∀ b c, (s.hist.ops, b, c) ∉ s.hist.writes := fun b c hw =>
    absurd (hh.writes_lt _ b c hw).1 (Nat.lt_irrefl _)
  have hnolate : ¬s.Late := fun ⟨j, hj⟩ =>
    hj.elim (hs.no_commit hc j _) (hs.no_commit hc j _)
  have hpc : ∀ {j}, j ≠ i → ((System.openOp { s with log := { s.log with
      outstanding := s.log.outstanding + 1 } } i).setPc i .inside).pc j = s.pc j := fun hj =>
    System.setPc_of_ne _ _ hj
  have hop : ∀ {j}, j ≠ i → update s.hist.op i s.hist.ops j = s.hist.op j := fun hj =>
    update_of_ne hj ..
  constructor
  · intro j hj b hb
    by_cases hji : j = i
    · subst hji
      simp [System.setPc, System.openOp] at hb
    · exact hh.logged j (hpc hji ▸ hj) b (by simpa [System.setPc, System.openOp, hji] using hb)
  · intro j hj
    show update s.hist.op i s.hist.ops j < s.hist.ops + 1
    by_cases hji : j = i
    · subst hji
      simp
    · rw [hop hji]
      exact Nat.lt_succ_of_lt (hh.op_lt j (hpc hji ▸ hj))
  · intro j k hj hk heq
    have heq : update s.hist.op i s.hist.ops j =
      update s.hist.op i s.hist.ops k := heq
    by_cases hji : j = i <;> by_cases hki : k = i
    · rw [hji, hki]
    · have := hh.op_lt k (hpc hki ▸ hk)
      rw [hji, update_self, hop hki] at heq
      omega
    · have := hh.op_lt j (hpc hji ▸ hj)
      rw [hki, update_self, hop hji] at heq
      omega
    · rw [hop hji, hop hki] at heq
      exact hh.op_inj j k (hpc hji ▸ hj) (hpc hki ▸ hk) heq
  · intro o b c hw
    have := hh.writes_lt o b c hw
    exact ⟨Nat.lt_succ_of_lt this.1, this.2⟩
  · intro j hj b c hw
    have hw : (update s.hist.op i s.hist.ops j, b, c) ∈ s.hist.writes := hw
    by_cases hji : j = i
    · rw [hji, update_self] at hw
      exact absurd hw (hno b c)
    · rw [hop hji] at hw
      exact hh.current j (hpc hji ▸ hj) b c hw
  · exact hh.one
  · exact hh.past
  · intro o b hw
    rcases hh.due o b hw with h | ⟨hl, -⟩
    · exact .inl h
    · exact absurd hl hnolate
  · intro j hj
    have hno := hs.no_commit hc j
    exact hj.elim (fun hj => absurd (System.of_setPc hj (by simp)).2 (hno _))
      fun hj => absurd (System.of_setPc hj (by simp)).2 (hno _)

theorem write {log : GroupLog} {size : Int} {b : Nat}
    (h : s.pc i = .inside) (hr : logWrite size b s.log = .ok () log) :
    HistoryInv (System.record { s with log := log } i b) := by
  obtain ⟨rfl, -⟩ := logWrite_ok hr
  have hno := hs.no_commit (hs.not_committing h)
  -- a write is the new one, of the commit that is due, or an old one
  have hcases : ∀ o x c, (o, x, c) ∈ (System.record { s with log := { s.log with
      lh := absorb s.log.lh b } } i b).hist.writes →
      (o = s.hist.op i ∧ x = b ∧ c = s.hist.commits) ∨ (o, x, c) ∈ s.hist.writes := by
    intro o x c hw
    simpa [System.record] using hw
  constructor
  · intro j hj x hx
    refine mem_absorb.mpr ?_
    by_cases hji : j = i
    · subst hji
      simp only [System.record, update_self, Finset.mem_insert] at hx
      exact hx.elim .inr fun hx => .inl (hh.logged j h x hx)
    · simp only [System.record, update_of_ne hji] at hx
      exact .inl (hh.logged j hj x hx)
  · exact hh.op_lt
  · exact hh.op_inj
  · intro o x c hw
    rcases hcases o x c hw with ⟨rfl, -, rfl⟩ | hw
    · exact ⟨hh.op_lt i h, le_rfl⟩
    · exact hh.writes_lt o x c hw
  · intro j hj x c hw
    rcases hcases _ x c hw with ⟨-, -, rfl⟩ | hw
    · rfl
    · exact hh.current j hj x c hw
  · -- the operation is under way, so what it logged before is for the same commit
    intro o x c x' c' hw hw'
    rcases hcases o x c hw with ⟨rfl, -, rfl⟩ | hw <;>
      rcases hcases _ x' c' hw' with ⟨ho, -, rfl⟩ | hw'
    · rfl
    · exact (hh.current i h x' c' hw').symm
    · subst ho
      exact hh.current i h x c hw
    · exact hh.one o x c x' c' hw hw'
  · intro o x c hw hlt
    rcases hcases o x c hw with ⟨-, -, rfl⟩ | hw
    · exact absurd hlt (Nat.lt_irrefl _)
    · exact hh.past o x c hw hlt
  · intro o x hw
    refine .inl (mem_absorb.mpr ?_)
    rcases hcases o x _ hw with ⟨-, rfl, -⟩ | hw
    · exact .inr rfl
    · rcases hh.due o x hw with hx | ⟨⟨j, hj⟩, -⟩
      · exact .inl hx
      · exact hj.elim (fun h => absurd h (hno j _)) fun h => absurd h (hno j _)
  · intro j hj
    exact hj.elim (fun h => absurd h (hno j _)) fun h => absurd h (hno j _)

omit hs in
theorem congr {s' : System ι} (hlh : s'.log.lh = s.log.lh)
    (hpc : s'.pc = s.pc) (hhist : s'.hist = s.hist) : HistoryInv s' := by
  obtain ⟨⟨out', com', lh'⟩, pc', hist'⟩ := s'
  obtain rfl : lh' = s.log.lh := hlh
  obtain rfl : pc' = s.pc := hpc
  obtain rfl : hist' = s.hist := hhist
  exact ⟨hh.logged, hh.op_lt, hh.op_inj, hh.writes_lt, hh.current, hh.one, hh.past, hh.due,
    hh.staged⟩

omit hs in
theorem wakeup : HistoryInv s.wakeup := by
  have hin : ∀ {j}, s.wakeup.pc j = .inside ↔ s.pc j = .inside :=
    GroupInv.wakeup_pc s (by simp) (by simp)
  have hcommit : ∀ {j stage}, s.wakeup.pc j = .commit stage ↔ s.pc j = .commit stage :=
    GroupInv.wakeup_pc s (by simp) (by simp)
  refine ⟨fun j hj => hh.logged j (hin.mp hj), fun j hj => hh.op_lt j (hin.mp hj),
    fun j k hj hk => hh.op_inj j k (hin.mp hj) (hin.mp hk), hh.writes_lt,
    fun j hj => hh.current j (hin.mp hj), hh.one, hh.past, fun o b hw => ?_,
    fun j hj => hh.staged j (hj.imp hcommit.mp hcommit.mp)⟩
  rcases hh.due o b hw with h | ⟨⟨k, hk⟩, hw⟩
  · exact .inl h
  · exact .inr ⟨⟨k, hk.imp hcommit.mpr hcommit.mpr⟩, hw⟩

theorem writeHead (h : s.pc i = .commit .writeHead) :
    HistoryInv (s.recordBatch.setPc i (.commit .install)) := by
  have hnolate : ¬s.Late := by
    rintro ⟨j, hj⟩
    obtain rfl : j = i := hj.elim (fun hj => hs.one j i _ _ hj h) fun hj => hs.one j i _ _ hj h
    simp [h] at hj
  have hlate' : ∀ o b, (o, b, s.hist.commits) ∈ s.hist.writes → b ∈ s.log.lh := fun o b hw =>
    (hh.due o b hw).resolve_right fun hl => hnolate hl.1
  have hh' : HistoryInv s.recordBatch := by
    refine ⟨hh.logged, hh.op_lt, hh.op_inj, hh.writes_lt, hh.current, hh.one,
      fun o b c hw hlt => ?_,
      fun o b hw => .inl (hlate' o b hw), fun j hj => ?_⟩
    · obtain ⟨l, hl, hb⟩ := hh.past o b c hw hlt
      have hne : c ≠ s.hist.commits := Nat.ne_of_lt hlt
      exact ⟨l, by simpa [System.recordBatch, hne] using hl, hb⟩
    · obtain rfl : j = i := hj.elim (fun hj => hs.one j i _ _ hj h) fun hj => hs.one j i _ _ hj h
      simp [System.recordBatch, h] at hj
  refine hh'.move _ (by simp) ?_ fun _ => ?_
  · intro hl
    simp [System.recordBatch, h] at hl
  · simp [System.recordBatch]

theorem clear (h : s.pc i = .commit .clear) :
    HistoryInv (s.clearLog.setPc i (.commit .eraseHead)) := by
  have hin' : ∀ j, (s.clearLog.setPc i (.commit .eraseHead)).pc j ≠ .inside := fun j hj =>
    hs.no_inside (hs.committer i _ h) j (System.of_setPc hj (by simp)).2
  refine ⟨fun j hj => absurd hj (hin' j), fun j hj => absurd hj (hin' j),
    fun j _ hj => absurd hj (hin' j), hh.writes_lt, fun j hj => absurd hj (hin' j), hh.one, hh.past,
    fun o b hw => ?_, fun j hj => ?_⟩
  · refine .inr ⟨⟨i, .inl (by simp [System.setPc])⟩, ?_⟩
    rcases hh.due o b hw with hb | ⟨-, hwr⟩
    · exact ⟨_, hh.staged i (.inr h), hb⟩
    · exact hwr
  · rcases hj with hj | hj <;> obtain ⟨hji, hj'⟩ := System.of_setPc hj (by simp)
    · exact absurd (hs.one j i _ _ hj' h) hji
    · exact absurd (hs.one j i _ _ hj' h) hji

theorem finish (h : s.pc i = .commit .finish) :
    HistoryInv (s.endCommit.wakeup.setPc i .outside) := by
  have hlh := hs.cleared i (.inr h)
  have hin' : ∀ j, (s.endCommit.wakeup.setPc i .outside).pc j ≠ .inside := fun j hj =>
    hs.no_inside (hs.committer i _ h) j
      (GroupInv.of_wakeup hj (by simp) (by simp) (by simp)).2
  refine ⟨fun j hj => absurd hj (hin' j), fun j hj => absurd hj (hin' j),
    fun j _ hj => absurd hj (hin' j), fun o b c hw => ?_, fun j hj => absurd hj (hin' j), hh.one,
    fun o b c hw hlt => ?_, fun o b hw => ?_, fun j hj => ?_⟩
  · have := hh.writes_lt o b c hw
    exact ⟨this.1, Nat.le_succ_of_le this.2⟩
  · rcases Nat.lt_succ_iff_lt_or_eq.mp hlt with hlt | rfl
    · exact hh.past o b c hw hlt
    · rcases hh.due o b hw with hb | ⟨-, hwr⟩
      · rw [hlh] at hb
        simp at hb
      · exact hwr
  · have := (hh.writes_lt o b _ hw).2
    exact absurd this (Nat.not_succ_le_self _)
  · rcases hj with hj | hj <;>
      obtain ⟨hji, hj'⟩ := GroupInv.of_wakeup hj (by simp) (by simp) (by simp)
    · exact absurd (hs.one j i _ _ hj' h) hji
    · exact absurd (hs.one j i _ _ hj' h) hji

/-- **Every step keeps the invariant of the history.** -/
theorem step {size : Int} {allowed : Finset Nat → Prop} {s' : System ι}
    (h : Step size allowed s s') : HistoryInv s' := by
  cases h with
  | call i h => exact hh.move _ (by simp) (by simp [h]) (by simp)
  | enter i h hr => exact hh.enter hs h hr
  | sleep i h hr =>
    obtain ⟨rfl, -⟩ := beginRound_false hr
    exact hh.move _ (by simp) (by simp [h]) (by simp)
  | rouse i h => exact hh.move _ (by simp) (by simp [h]) (by simp)
  | write i b h _ hr => exact hh.write hs h hr
  | leave i h hr =>
    obtain ⟨-, -, rfl⟩ := endOp_ok hr
    have hh' : HistoryInv { s with log := { s.log with outstanding := s.log.outstanding - 1 } } :=
      hh.congr rfl rfl rfl
    refine hh'.wakeup.move _ (by simp) (fun hl => ?_) (by simp)
    simp [System.wakeup, h] at hl
  | close i h hr =>
    obtain ⟨-, -, rfl⟩ := endOp_ok hr
    have hh' : HistoryInv { s with log := { s.log with outstanding := 0, committing := true } } :=
      hh.congr rfl rfl rfl
    exact hh'.move _ (by simp) (by simp [h]) (by simp)
  | check i h =>
    refine hh.move _ (by simp) (by simp [h]) ?_
    split <;> simp
  | writeLog i h => exact hh.move _ (by simp) (by simp [h]) (by simp)
  | writeHead i h => exact hh.writeHead hs h
  | install i h => exact hh.move _ (by simp) (by simp [h]) fun _ => hh.staged i (.inl h)
  | clear i h => exact hh.clear hs h
  | eraseHead i h => exact hh.move _ (by simp) (by simp) (by simp)
  | finish i h => exact hh.finish hs h

end

theorem reachable {size : Int} {allowed : Finset Nat → Prop} (h : System.Reachable size allowed s) :
    HistoryInv s := by
  induction h with
  | refl => exact init
  | tail hr hstep ih => exact ih.step (GroupInv.reachable hr) hstep

theorem committed (hh : HistoryInv s) (hlh : s.log.lh = []) {o b c : Nat}
    (hw : (o, b, c) ∈ s.hist.writes) : s.hist.Wrote c b := by
  rcases Nat.lt_or_eq_of_le (hh.writes_lt o b c hw).2 with hlt | rfl
  · exact hh.past o b c hw hlt
  · rcases hh.due o b hw with hb | ⟨-, hwr⟩
    · rw [hlh] at hb
      simp at hb
    · exact hwr

end HistoryInv

/-! ## What the protocol guarantees -/

section Protocol

variable {ι : Type} [DecidableEq ι] {s s' : System ι} {i : ι} {size : Int}
  {allowed : Finset Nat → Prop}

/-- During a commit only the committer touches the header, and it does so once the transaction is
installed. -/
theorem GroupInv.lh_kept (hs : GroupInv s) (hc : s.log.committing = true)
    (h : Step size allowed s s') : s'.log.lh = s.log.lh ∨
      ∃ i, s.pc i = .commit .clear ∧ s' = s.clearLog.setPc i (.commit .eraseHead) := by
  have hin := hs.no_inside hc
  cases h with
  | enter i h hr =>
    obtain ⟨hc', -, -⟩ := beginRound_true hr
    exact absurd (hc.symm.trans hc') (by decide)
  | sleep i h hr =>
    obtain ⟨rfl, -⟩ := beginRound_false hr
    exact .inl rfl
  | write i b h _ hr => exact absurd h (hin i)
  | leave i h hr => exact absurd h (hin i)
  | close i h hr => exact absurd h (hin i)
  | clear i h => exact .inr ⟨i, h, rfl⟩
  | call i h => exact .inl rfl
  | rouse i h => exact .inl rfl
  | check i h => exact .inl rfl
  | writeLog i h => exact .inl rfl
  | writeHead i h => exact .inl rfl
  | install i h => exact .inl rfl
  | eraseHead i h => exact .inl rfl
  | finish i h => exact .inl rfl

theorem GroupInv.endOp_returns (hs : GroupInv s) (h : s.pc i = .inside) :
    ∃ r log, endOp s.log = .ok r log := by
  rw [endOp_eq, if_neg (by simp [hs.not_committing h])]
  split
  · exact ⟨_, _, rfl⟩
  · exact ⟨_, _, rfl⟩

theorem GroupInv.logWrite_inside (hs : GroupInv s) (h : s.pc i = .inside) {b : Nat} {e : LogPanic}
    {log : GroupLog} (he : logWrite size b s.log = .error e log) : e ≠ .outsideTrans := by
  have hpos := hs.outstanding_pos h
  rw [logWrite_eq] at he
  split at he
  · cases he
    simp
  · rw [if_neg (by omega)] at he
    cases he

/-- **Group commit.**  In every reachable state: a commit runs only while no operation does, and the
header keeps its blocks until they are installed; neither panic of the protocol is in reach; what
one operation logs is due to one commit, which writes all of it, and once nobody operates or commits
all that was logged is committed; no block is logged twice; and a process sleeps only while a commit
runs or its admission test fails. -/
theorem group_commit (h : System.Reachable size (fun _ => True) s) :
    (s.log.committing = true → s.log.outstanding = 0 ∧
      ∀ s', Step size (fun _ => True) s s' → s'.log.lh = s.log.lh ∨
        ∃ i, s.pc i = .commit .clear ∧ s' = s.clearLog.setPc i (.commit .eraseHead)) ∧
    (∀ i, s.pc i = .inside → ∃ r log, endOp s.log = .ok r log) ∧
    (∀ i b e log, s.pc i = .inside → logWrite size b s.log = .error e log → e ≠ .outsideTrans) ∧
    (∀ o b c b' c', (o, b, c) ∈ s.hist.writes → (o, b', c') ∈ s.hist.writes →
      c = c' ∧ (c < s.hist.commits → s.hist.Wrote c b ∧ s.hist.Wrote c b')) ∧
    (s.log.committing = false → s.log.outstanding = 0 →
      ∀ o b c, (o, b, c) ∈ s.hist.writes → s.hist.Wrote c b) ∧ s.log.lh.Nodup ∧
    (∀ i, s.pc i = .asleep → s.log.committing = true ∨ s.log.Full) := by
  have hs := GroupInv.reachable h
  have hh := HistoryInv.reachable h
  refine ⟨fun hc => ⟨hs.quiet hc, fun s' hstep => hs.lh_kept hc hstep⟩,
    fun i hi => hs.endOp_returns hi, fun i b e log hi he => hs.logWrite_inside hi he,
    fun o b c b' c' hw hw' => ?_, fun hc h0 o b c hw => hh.committed (hs.idle hc h0) hw, hs.nodup,
    hs.asleep⟩
  obtain rfl := hh.one o b c b' c' hw hw'
  exact ⟨rfl, fun hlt => ⟨hh.past o b c hw hlt, hh.past o b' c hw' hlt⟩⟩

end Protocol

/-- Two processes log blocks in operations that overlap, and the second to end commits. -/
def twoOperations {ι : Type} (i j : ι) : List (ι × Option Nat) :=
  [(i, none), (i, none), (j, none), (j, none), (i, some 5), (j, some 6), (i, some 6), (i, none)] ++
    List.replicate 8 (j, none)

/-- What both of them have logged is committed at once. -/
theorem twoOperations_committed : ∃ s : System (Fin 2), System.Reachable 30 (fun _ => True) s ∧
    (0, 5, 0) ∈ s.hist.writes ∧ (0, 6, 0) ∈ s.hist.writes ∧ (1, 6, 0) ∈ s.hist.writes ∧
    s.hist.commits = 1 ∧ s.hist.Wrote 0 5 ∧ s.hist.Wrote 0 6 := by
  let s : System (Fin 2) := Schedule.play (System.move 30) System.init (twoOperations 0 1)
  have hs : System.Reachable 30 (fun _ => True) s := Schedule.play_reaches System.move_step ..
  obtain ⟨h5, h6, h6', hc⟩ : (0, 5, 0) ∈ s.hist.writes ∧ (0, 6, 0) ∈ s.hist.writes ∧
      (1, 6, 0) ∈ s.hist.writes ∧ s.hist.commits = 1 := by decide +kernel
  obtain ⟨-, -, -, hone, -⟩ := group_commit hs
  obtain ⟨-, hwrote⟩ := hone 0 5 0 6 0 h5 h6
  exact ⟨s, hs, h5, h6, h6', hc, hwrote (by omega)⟩

end Xv6Paging
