import Mathlib.Logic.Relation
import Xv6Paging.Logic.Circular

/-!
# Pipes

Any processes read, write and close one pipe, and kill each other.  A step is one round of a loop of
`pipewrite` or `piperead` under `pi->lock`, or what stands between two of them.  `sleep` holds the
lock of the process until it is asleep and `wakeup` takes that lock, so both are part of one step.
-/

namespace Xv6Paging

open Circular

abbrev pipesize : Nat := 512

instance : NeZero pipesize := ⟨by decide⟩

instance : Wraps pipesize 32 := ⟨by decide, by decide⟩

/-- The data and the counters of a `struct pipe`, and the ends that are open. -/
structure PipeBuf where
  data : Fin pipesize → UInt8
  nread : BitVec 32
  nwrite : BitVec 32
  readopen : Bool
  writeopen : Bool

namespace PipeBuf

/-- The pipe of `pipealloc`; the data are what was in the page. -/
def alloc (data : Fin pipesize → UInt8) : PipeBuf := ⟨data, 0, 0, true, true⟩

/-- `pi->nwrite == pi->nread + PIPESIZE`. -/
def Full (pi : PipeBuf) : Prop := pi.nwrite = pi.nread + BitVec.ofNat 32 pipesize

/-- `pi->nread == pi->nwrite`. -/
def Empty (pi : PipeBuf) : Prop := pi.nread = pi.nwrite

instance (pi : PipeBuf) : Decidable pi.Full := inferInstanceAs (Decidable (_ = _))

instance (pi : PipeBuf) : Decidable pi.Empty := inferInstanceAs (Decidable (_ = _))

/-- `pi->data[pi->nwrite++ % PIPESIZE] = ch`. -/
def store (pi : PipeBuf) (ch : UInt8) : PipeBuf :=
  { pi with data := Function.update pi.data (slot pipesize pi.nwrite) ch, nwrite := pi.nwrite + 1 }

/-- The byte of `pi->data[pi->nread++ % PIPESIZE]`. -/
def next (pi : PipeBuf) : UInt8 := pi.data (slot pipesize pi.nread)

/-- The pipe after that. -/
def fetch (pi : PipeBuf) : PipeBuf := { pi with nread := pi.nread + 1 }

/-- The flag that `pipeclose` clears. -/
def close (pi : PipeBuf) (writable : Bool) : PipeBuf :=
  if writable then { pi with writeopen := false } else { pi with readopen := false }

end PipeBuf

/-- The two channels on which processes sleep. -/
inductive PipeChan
  | nread
  | nwrite
deriving DecidableEq

/-- A place in `pipewrite` or `piperead`, with the local variables `i` and `n`. -/
inductive PipePc
  | out
  | writeEnter (n : Int)
  | writing (i : Nat) (n : Int)
  | writeAsleep (i : Nat) (n : Int)
  | writeWoken (i : Nat) (n : Int)
  | written (i : Nat)
  | readEnter (n : Int)
  | reading (n : Int)
  | readAsleep (n : Int)
  | readWoken (n : Int)
  | copying (i : Nat) (n : Int)
  | copied (i : Nat)
deriving DecidableEq

namespace PipePc

/-- `pi->lock` is held at the place. -/
def Holding : PipePc → Prop
  | writing _ _ | written _ | reading _ | copying _ _ | copied _ => True
  | _ => False

/-- The process sleeps on the channel. -/
def AsleepOn : PipePc → PipeChan → Prop
  | readAsleep _, .nread => True
  | writeAsleep _ _, .nwrite => True
  | _, _ => False

/-- `wakeup` of the channel. -/
def wake (c : PipeChan) : PipePc → PipePc
  | readAsleep n => if c = .nread then readWoken n else readAsleep n
  | writeAsleep i n => if c = .nwrite then writeWoken i n else writeAsleep i n
  | pc => pc

/-- What `kill` does to a process that sleeps. -/
def rouse : PipePc → PipePc
  | readAsleep n => readWoken n
  | writeAsleep i n => writeWoken i n
  | pc => pc

end PipePc

/-- The pipe, the owner of its lock, the processes, and the bytes that were put in and taken out. -/
structure PipeSystem (ι : Type) where
  pi : PipeBuf
  lock : Option ι
  pc : ι → PipePc
  killed : ι → Bool
  put : List UInt8
  taken : List UInt8

namespace PipeSystem

variable {ι : Type} [DecidableEq ι]

/-- A new pipe. -/
def init (data : Fin pipesize → UInt8) : PipeSystem ι where
  pi := .alloc data
  lock := none
  pc _ := .out
  killed _ := false
  put := []
  taken := []

/-- The process `i` goes to another place. -/
def goto (s : PipeSystem ι) (i : ι) (pc : PipePc) : PipeSystem ι :=
  { s with pc := Function.update s.pc i pc }

/-- `acquire(&pi->lock)`. -/
def acquire (s : PipeSystem ι) (i : ι) : PipeSystem ι := { s with lock := some i }

/-- `release(&pi->lock)`. -/
def release (s : PipeSystem ι) : PipeSystem ι := { s with lock := none }

def wakeup (s : PipeSystem ι) (c : PipeChan) : PipeSystem ι :=
  { s with pc := fun j => (s.pc j).wake c }

/-- A byte is put in. -/
def store (s : PipeSystem ι) (ch : UInt8) : PipeSystem ι :=
  { s with pi := s.pi.store ch, put := s.put ++ [ch] }

/-- A byte is taken out. -/
def fetch (s : PipeSystem ι) : PipeSystem ι :=
  { s with pi := s.pi.fetch, taken := s.taken ++ [s.pi.next] }

/-- The flag, and the wakeup of those that wait for the other end. -/
def close (s : PipeSystem ι) (writable : Bool) : PipeSystem ι :=
  wakeup { s with pi := s.pi.close writable } (if writable then .nread else .nwrite)

def kill (s : PipeSystem ι) (j : ι) : PipeSystem ι :=
  { s with killed := Function.update s.killed j true, pc := Function.update s.pc j (s.pc j).rouse }

end PipeSystem

open PipeSystem in
/-- The steps of the processes.  `kill` hits the processes that it may hit. -/
inductive PipeStep {ι : Type} [DecidableEq ι] (mayKill : PipeSystem ι → ι → Prop) :
    PipeSystem ι → PipeSystem ι → Prop
  -- pipewrite
  | callWrite {s} (i : ι) (n : Int) (h : s.pc i = .out) :
      PipeStep mayKill s (s.goto i (.writeEnter n))
  | enterWrite {s} (i : ι) {n} (h : s.pc i = .writeEnter n) (hl : s.lock = none) :
      PipeStep mayKill s ((s.acquire i).goto i (.writing 0 n))
  | refuse {s} (i : ι) {k : Nat} {n : Int} (h : s.pc i = .writing k n) (hk : (k : Int) < n)
      (hc : s.pi.readopen = false ∨ s.killed i = true) :
      PipeStep mayKill s (s.release.goto i .out)
  | waitRoom {s} (i : ι) {k : Nat} {n : Int} (h : s.pc i = .writing k n) (hk : (k : Int) < n)
      (hr : s.pi.readopen = true) (ha : s.killed i = false) (hf : s.pi.Full) :
      PipeStep mayKill s ((s.wakeup .nread).release.goto i (.writeAsleep k n))
  | reenterWrite {s} (i : ι) {k : Nat} {n : Int} (h : s.pc i = .writeWoken k n)
      (hl : s.lock = none) :
      PipeStep mayKill s ((s.acquire i).goto i (.writing k n))
  | store {s} (i : ι) (ch : UInt8) {k : Nat} {n : Int} (h : s.pc i = .writing k n)
      (hk : (k : Int) < n)
      (hr : s.pi.readopen = true) (ha : s.killed i = false) (hf : ¬s.pi.Full) :
      PipeStep mayKill s ((s.store ch).goto i (.writing (k + 1) n))
  | copyinFault {s} (i : ι) {k : Nat} {n : Int} (h : s.pc i = .writing k n) (hk : (k : Int) < n)
      (hr : s.pi.readopen = true) (ha : s.killed i = false) (hf : ¬s.pi.Full) :
      PipeStep mayKill s (s.goto i (.written k))
  | endWrite {s} (i : ι) {k : Nat} {n : Int} (h : s.pc i = .writing k n) (hk : ¬(k : Int) < n) :
      PipeStep mayKill s (s.goto i (.written k))
  | returnWrite {s} (i : ι) {k} (h : s.pc i = .written k) :
      PipeStep mayKill s ((s.wakeup .nread).release.goto i .out)
  -- piperead
  | callRead {s} (i : ι) (n : Int) (h : s.pc i = .out) :
      PipeStep mayKill s (s.goto i (.readEnter n))
  | enterRead {s} (i : ι) {n} (h : s.pc i = .readEnter n) (hl : s.lock = none) :
      PipeStep mayKill s ((s.acquire i).goto i (.reading n))
  | abandon {s} (i : ι) {n} (h : s.pc i = .reading n) (he : s.pi.Empty)
      (hw : s.pi.writeopen = true) (hk : s.killed i = true) :
      PipeStep mayKill s (s.release.goto i .out)
  | waitByte {s} (i : ι) {n} (h : s.pc i = .reading n) (he : s.pi.Empty)
      (hw : s.pi.writeopen = true) (hk : s.killed i = false) :
      PipeStep mayKill s (s.release.goto i (.readAsleep n))
  | reenterRead {s} (i : ι) {n} (h : s.pc i = .readWoken n) (hl : s.lock = none) :
      PipeStep mayKill s ((s.acquire i).goto i (.reading n))
  | startCopy {s} (i : ι) {n} (h : s.pc i = .reading n)
      (he : ¬(s.pi.Empty ∧ s.pi.writeopen = true)) : PipeStep mayKill s (s.goto i (.copying 0 n))
  | fetch {s} (i : ι) {k : Nat} {n : Int} (h : s.pc i = .copying k n) (hk : (k : Int) < n)
      (he : ¬s.pi.Empty) :
      PipeStep mayKill s (s.fetch.goto i (.copying (k + 1) n))
  | copyoutFault {s} (i : ι) {k : Nat} {n : Int} (h : s.pc i = .copying k n) (hk : (k : Int) < n)
      (he : ¬s.pi.Empty) : PipeStep mayKill s (s.fetch.goto i (.copied k))
  | endCopy {s} (i : ι) {k : Nat} {n : Int} (h : s.pc i = .copying k n)
      (he : ¬(k : Int) < n ∨ s.pi.Empty) :
      PipeStep mayKill s (s.goto i (.copied k))
  | returnRead {s} (i : ι) {k} (h : s.pc i = .copied k) :
      PipeStep mayKill s ((s.wakeup .nwrite).release.goto i .out)
  -- pipeclose and kill
  | close {s} (i : ι) (writable : Bool) (h : s.pc i = .out) (hl : s.lock = none) :
      PipeStep mayKill s (s.close writable)
  | kill {s} (j : ι) (h : mayKill s j) : PipeStep mayKill s (s.kill j)

/-- The states of the runs that start with a new pipe. -/
def PipeReachable {ι : Type} [DecidableEq ι] (mayKill : PipeSystem ι → ι → Prop)
    (s : PipeSystem ι) : Prop :=
  ∃ data, Relation.ReflTransGen (PipeStep mayKill) (.init data) s

/-! ## The stream -/

/-- The pipe holds the bytes that were put in and not taken out. -/
def StreamInv {ι : Type} (s : PipeSystem ι) : Prop :=
  ∃ buf, Holds s.pi.data s.pi.nread s.pi.nwrite buf ∧ s.put = s.taken ++ buf

namespace StreamInv

variable {ι : Type} {s s' : PipeSystem ι}

theorem init (data : Fin pipesize → UInt8) : StreamInv (.init data : PipeSystem ι) :=
  ⟨[], .nil _ _, rfl⟩

theorem congr (h : StreamInv s) (hdata : s'.pi.data = s.pi.data) (hr : s'.pi.nread = s.pi.nread)
    (hw : s'.pi.nwrite = s.pi.nwrite) (hput : s'.put = s.put) (htaken : s'.taken = s.taken) :
    StreamInv s' := by
  obtain ⟨buf, hbuf, heq⟩ := h
  refine ⟨buf, ?_, ?_⟩
  · rw [hdata, hr, hw]
    exact hbuf
  · rw [hput, htaken, heq]

theorem store (h : StreamInv s) (hf : ¬s.pi.Full) (ch : UInt8) : StreamInv (s.store ch) := by
  obtain ⟨buf, hbuf, heq⟩ := h
  have hroom : buf.length < pipesize := by
    refine Nat.lt_of_le_of_ne hbuf.fits fun hlen => hf ?_
    exact hbuf.full_iff.mpr hlen
  refine ⟨buf ++ [ch], hbuf.push hroom ch, ?_⟩
  show s.put ++ [ch] = s.taken ++ (buf ++ [ch])
  rw [heq, List.append_assoc]

theorem fetch (h : StreamInv s) (he : ¬s.pi.Empty) : StreamInv s.fetch := by
  obtain ⟨buf, hbuf, heq⟩ := h
  cases buf with
  | nil => exact absurd (hbuf.eq_nil_iff.mpr rfl) he
  | cons b buf =>
    refine ⟨buf, hbuf.pop, ?_⟩
    show s.put = (s.taken ++ [s.pi.next]) ++ buf
    rw [heq, PipeBuf.next, hbuf.head, List.append_assoc]
    rfl

/-- **Every step keeps the stream.** -/
theorem step [DecidableEq ι] {mayKill : PipeSystem ι → ι → Prop} (h : StreamInv s)
    (hstep : PipeStep mayKill s s') : StreamInv s' := by
  cases hstep with
  | store i ch _ _ _ _ hf => exact (h.store hf ch).congr rfl rfl rfl rfl rfl
  | fetch i _ _ he => exact (h.fetch he).congr rfl rfl rfl rfl rfl
  | copyoutFault i _ _ he => exact (h.fetch he).congr rfl rfl rfl rfl rfl
  | close i writable _ _ => cases writable <;> exact h.congr rfl rfl rfl rfl rfl
  -- the other steps change the lock and the places only
  | _ => exact h.congr rfl rfl rfl rfl rfl

theorem reachable [DecidableEq ι] {mayKill : PipeSystem ι → ι → Prop}
    (h : PipeReachable mayKill s) : StreamInv s := by
  obtain ⟨data, hrun⟩ := h
  induction hrun with
  | refl => exact init data
  | tail _ hstep ih => exact ih.step hstep

end StreamInv

/-- **A pipe is a stream.**  In every run, with any readers and writers and also after the counters
have wrapped around, the counters are at most `PIPESIZE` apart, and the bytes taken out are the
first of the bytes put in: the others are in the buffer, in order. -/
theorem pipe_stream {ι : Type} [DecidableEq ι] {s : PipeSystem ι}
    (h : PipeReachable (fun _ _ => True) s) :
    (s.pi.nwrite - s.pi.nread).toNat ≤ pipesize ∧ s.taken <+: s.put ∧
      Holds s.pi.data s.pi.nread s.pi.nwrite (s.put.drop s.taken.length) := by
  obtain ⟨buf, hbuf, heq⟩ := StreamInv.reachable h
  refine ⟨?_, ⟨buf, heq.symm⟩, ?_⟩
  · rw [hbuf.length_eq]
    exact hbuf.fits
  · rwa [heq, List.drop_left]

/-- A writer puts two bytes in, and a reader takes the first one out. -/
theorem pipe_stream_two : ∃ s : PipeSystem (Fin 2), PipeReachable (fun _ _ => True) s ∧
    s.put = [7, 8] ∧ s.taken = [7] ∧ s.taken <+: s.put := by
  have h0 : PipeReachable (fun _ _ => True) (.init fun _ => 0 : PipeSystem (Fin 2)) := ⟨_, .refl⟩
  have hrun : ∀ {t u : PipeSystem (Fin 2)}, PipeReachable (fun _ _ => True) t →
      PipeStep (fun _ _ => True) t u → PipeReachable (fun _ _ => True) u :=
    fun ⟨data, ht⟩ hstep => ⟨data, ht.tail hstep⟩
  have h1 := hrun h0 (.callWrite 0 2 rfl)
  have h2 := hrun h1 (.enterWrite 0 rfl rfl)
  have h3 := hrun h2 (.store 0 7 rfl (by decide) rfl rfl (by decide))
  have h4 := hrun h3 (.store 0 8 rfl (by decide) rfl rfl (by decide))
  have h5 := hrun h4 (.endWrite 0 rfl (by decide))
  have h6 := hrun h5 (.returnWrite 0 rfl)
  have h7 := hrun h6 (.callRead 1 1 rfl)
  have h8 := hrun h7 (.enterRead 1 rfl rfl)
  have h9 := hrun h8 (.startCopy 1 rfl (by decide))
  have h10 := hrun h9 (.fetch 1 rfl (by decide) (by decide))
  exact ⟨_, h10, rfl, rfl, (pipe_stream h10).2.1⟩

end Xv6Paging
