import Mathlib.Logic.Relation
import Xv6Paging.Logic.Circular

/-!
# Output to the UART

`uartputc` puts a byte in the transmit buffer, or sleeps while the buffer is full; `uartstart`,
called by it and by the interrupt handler, moves bytes from the buffer to the transmit register as
long as the line status register says that it can take one, and wakes up the sleepers.  A step of
the system is a critical section of `uart_tx_lock`.  What the register says is up to the device,
round by round.
-/

namespace Xv6Paging

open Circular
open Function (update update_of_ne update_self)

abbrev uartTxBufSize : Nat := 32

instance uartWraps : Wraps uartTxBufSize 64 := ⟨by decide, by decide⟩

/-- `uart_tx_buf`, `uart_tx_w` and `uart_tx_r`. -/
structure Uart where
  buf : Fin uartTxBufSize → UInt8
  w : BitVec 64
  r : BitVec 64

namespace Uart

/-- The rounds of `uartstart` from the `k`-th on, `n` at most; the bytes written to `THR`. -/
def rounds (lsr : Nat → Bool) : Nat → Nat → Uart → Uart × List UInt8
  | 0, _, u => (u, [])
  | n + 1, k, u =>
    if u.w = u.r then (u, [])
    else if lsr k = false then (u, [])
    else
      let rest := rounds lsr n (k + 1) { u with r := u.r + 1 }
      (rest.1, u.buf (slot uartTxBufSize u.r) :: rest.2)

/-- `uartstart`; after as many rounds as there are bytes the buffer is empty. -/
def uartstart (u : Uart) (lsr : Nat → Bool) : Uart × List UInt8 :=
  rounds lsr (u.w - u.r).toNat 0 u

/-- The buffer is full. -/
def Full (u : Uart) : Prop := u.w = u.r + BitVec.ofNat 64 uartTxBufSize

instance uartFull (u : Uart) : Decidable u.Full := inferInstanceAs (Decidable (_ = _))

/-- `uart_tx_buf[uart_tx_w % UART_TX_BUF_SIZE] = c; uart_tx_w += 1`. -/
def put (u : Uart) (c : UInt8) : Uart :=
  { u with buf := update u.buf (slot uartTxBufSize u.w) c, w := u.w + 1 }

/-- The buffer holds the bytes `xs`. -/
def Buffers (u : Uart) (xs : List UInt8) : Prop := Holds u.buf u.r u.w xs

/-- The rounds send the first bytes, up to a round in which the device is not ready. -/
theorem rounds_spec {u : Uart} {xs : List UInt8} (h : u.Buffers xs) (lsr : Nat → Bool) (k : Nat) :
    ∃ sent left, xs = sent ++ left ∧ (rounds lsr xs.length k u).2 = sent ∧
      (rounds lsr xs.length k u).1.Buffers left ∧
      (left ≠ [] → lsr (k + sent.length) = false) := by
  induction xs generalizing u k with
  | nil => exact ⟨[], [], rfl, rfl, h, (absurd rfl ·)⟩
  | cons c xs ih =>
    have hne : u.w ≠ u.r := fun heq => by simpa using h.eq_nil_iff.mp heq.symm
    simp only [List.length_cons, rounds, if_neg hne]
    by_cases hlsr : lsr k = false
    · exact ⟨[], c :: xs, rfl, by simp [hlsr], by simpa [hlsr] using h, fun _ => hlsr⟩
    · -- the first byte goes to the device
      rw [if_neg hlsr, h.head]
      obtain ⟨sent, left, rfl, hs, hl, hstop⟩ := ih (u := { u with r := u.r + 1 }) h.pop (k + 1)
      refine ⟨c :: sent, left, rfl, congrArg (List.cons c) hs, hl, fun hleft => ?_⟩
      rw [List.length_cons, Nat.add_comm sent.length, ← Nat.add_assoc]
      exact hstop hleft

end Uart

/-! ## The system -/

/-- Where a process is: outside of `uartputc`, at the test of its loop, or asleep. -/
inductive PutPc
  | out
  | test (c : UInt8)
  | asleep (c : UInt8)

/-- The buffer, the processes, the bytes that `uartputc` has put in the buffer, in this order, and
those that `uartstart` has written to the device. -/
structure UartSystem (ι : Type) where
  uart : Uart
  pc : ι → PutPc
  queued : List UInt8
  sent : List UInt8

namespace UartSystem

variable {ι : Type}

/-- After `uartinit`. -/
def init : UartSystem ι := ⟨⟨fun _ => 0, 0, 0⟩, fun _ => .out, [], []⟩

/-- `uartstart`, with the `wakeup` of its rounds. -/
def start (s : UartSystem ι) (lsr : Nat → Bool) : UartSystem ι :=
  let r := s.uart.uartstart lsr
  { s with
    uart := r.1
    sent := s.sent ++ r.2
    pc := fun i => match s.pc i with
      | .asleep c => if r.2 = [] then .asleep c else .test c
      | p => p }

end UartSystem

open UartSystem in
/-- The critical sections. -/
inductive UartStep {ι : Type} [DecidableEq ι] : UartSystem ι → UartSystem ι → Prop
  | call {s} (i : ι) (c : UInt8) (h : s.pc i = .out) :
      UartStep s { s with pc := update s.pc i (.test c) }
  | sleep {s} (i : ι) (c : UInt8) (h : s.pc i = .test c) (hfull : s.uart.Full) :
      UartStep s { s with pc := update s.pc i (.asleep c) }
  | rouse {s} (i : ι) (c : UInt8) (h : s.pc i = .asleep c) :
      UartStep s { s with pc := update s.pc i (.test c) }
  | put {s} (i : ι) (c : UInt8) (lsr : Nat → Bool) (h : s.pc i = .test c) (hroom : ¬s.uart.Full) :
      UartStep s (start { s with
        uart := s.uart.put c
        queued := s.queued ++ [c]
        pc := update s.pc i .out } lsr)
  | intr {s} (lsr : Nat → Bool) : UartStep s (s.start lsr)

/-- The states of the runs. -/
def UartReachable {ι : Type} [DecidableEq ι] : UartSystem ι → Prop :=
  Relation.ReflTransGen UartStep UartSystem.init

/-- **The buffer is what was queued and not sent**, and processes sleep only while it is full. -/
structure UartInv {ι : Type} (s : UartSystem ι) (xs : List UInt8) : Prop where
  holds : s.uart.Buffers xs
  queued : s.queued = s.sent ++ xs
  asleep : ∀ i c, s.pc i = .asleep c → s.uart.Full

section Runs

variable {ι : Type} {s s' : UartSystem ι} {xs : List UInt8}

/-- `uartstart` sends what the device takes and wakes up the sleepers if that makes room. -/
theorem UartInv.start (h : UartInv s xs) (lsr : Nat → Bool) : ∃ left, UartInv (s.start lsr) left ∧
    ((∀ k, k < xs.length → lsr k = true) → left = []) := by
  obtain ⟨sent, left, rfl, hs, hl, hstop⟩ := Uart.rounds_spec h.holds lsr 0
  rw [← h.holds.length_eq] at hs hl
  rw [Nat.zero_add] at hstop
  change (s.uart.uartstart lsr).2 = sent at hs
  refine ⟨left, ⟨hl, ?_, fun i c hi => ?_⟩, fun hready => ?_⟩
  · show s.queued = s.sent ++ (s.uart.uartstart lsr).2 ++ left
    rw [hs, h.queued, List.append_assoc]
  · -- nothing was sent, or nobody sleeps
    simp only [UartSystem.start, hs] at hi
    split at hi
    · rename_i c' hc'
      split at hi
      · rename_i hnil
        subst hnil
        have hfull := (Holds.full_iff h.holds).mp (h.asleep i c' hc')
        exact (Holds.full_iff hl).mpr hfull
      · cases hi
    · rename_i hne
      exact absurd hi (hne c)
  · by_contra hleft
    have hpos := List.length_pos_iff.mpr hleft
    exact absurd (hready sent.length (by simp; omega)) (by simp [hstop hleft])

variable [DecidableEq ι]

theorem UartInv.step (h : UartInv s xs) (hstep : UartStep s s') : ∃ xs', UartInv s' xs' := by
  -- a process that does not go to sleep
  have hawake : ∀ {i p j c}, (∀ c, p ≠ .asleep c) → update s.pc i p j = .asleep c →
      s.pc j = .asleep c := by
    intro i p j c hp hj
    by_cases hji : j = i
    · subst hji
      rw [update_self] at hj
      exact absurd hj (hp c)
    · rwa [update_of_ne hji] at hj
  cases hstep with
  | call i c hi =>
    exact ⟨xs, h.holds, h.queued, fun j c' hj => h.asleep j c' (hawake (by simp) hj)⟩
  | sleep i c hi hfull => exact ⟨xs, h.holds, h.queued, fun _ _ _ => hfull⟩
  | rouse i c hi =>
    exact ⟨xs, h.holds, h.queued, fun j c' hj => h.asleep j c' (hawake (by simp) hj)⟩
  | put i c lsr hi hroom =>
    have hlen : xs.length < uartTxBufSize :=
      Nat.lt_of_le_of_ne h.holds.fits fun heq => hroom ((Holds.full_iff h.holds).mpr heq)
    -- there is room, so nobody sleeps
    have hput : UartInv { s with
        uart := s.uart.put c
        queued := s.queued ++ [c]
        pc := update s.pc i .out } (xs ++ [c]) :=
      ⟨Holds.push h.holds hlen c, by rw [h.queued, List.append_assoc],
        fun j c' hj => absurd (h.asleep j c' (hawake (by simp) hj)) hroom⟩
    obtain ⟨left, hinv, -⟩ := hput.start lsr
    exact ⟨left, hinv⟩
  | intr lsr =>
    obtain ⟨left, hinv, -⟩ := h.start lsr
    exact ⟨left, hinv⟩

/-- **The transmit buffer is a queue.**  In every reachable state the device has got the bytes that
were put in the buffer, in this order, up to those that are in it, at most 32; a process sleeps only
while the buffer is full; and the next interrupt in which the device takes all of them sends the
rest and leaves nobody asleep. -/
theorem uart_queue (h : UartReachable s) : ∃ xs, Holds s.uart.buf s.uart.r s.uart.w xs ∧
    s.queued = s.sent ++ xs ∧ xs.length ≤ uartTxBufSize ∧
    (∀ i c, s.pc i = .asleep c → xs.length = uartTxBufSize) ∧
    ∀ lsr : Nat → Bool, (∀ k, k < xs.length → lsr k = true) →
      (s.start lsr).sent = s.queued ∧ ∀ i c, (s.start lsr).pc i ≠ .asleep c := by
  obtain ⟨xs, hinv⟩ : ∃ xs, UartInv s xs := by
    induction h with
    | refl => exact ⟨[], Holds.nil _ _, rfl, fun _ _ hi => by cases hi⟩
    | tail _ hstep ih =>
      obtain ⟨xs, hinv⟩ := ih
      exact hinv.step hstep
  refine ⟨xs, hinv.holds, hinv.queued, hinv.holds.fits,
    fun i c hi => (Holds.full_iff hinv.holds).mp (hinv.asleep i c hi), fun lsr hready => ?_⟩
  obtain ⟨left, hstart, hnil⟩ := hinv.start lsr
  obtain rfl := hnil hready
  refine ⟨?_, fun i c hi => ?_⟩
  · have hq := hstart.queued
    rw [List.append_nil] at hq
    exact hq.symm
  · -- an empty buffer is not full
    exact absurd ((Holds.full_iff hstart.holds).mp (hstart.asleep i c hi)) (by simp)

end Runs

/-- A process has put a byte in the buffer while the device was busy. -/
theorem uart_queue_one : ∃ s : UartSystem (Fin 1), UartReachable s ∧ s.queued = [65] ∧ s.sent = [] ∧
    (s.start fun _ => true).sent = [65] := by
  have hcall : UartReachable (_ : UartSystem (Fin 1)) := .tail .refl (.call 0 65 rfl)
  have h := hcall.tail (.put 0 65 (fun _ => false) rfl (by decide))
  obtain ⟨xs, -, -, -, -, hstart⟩ := uart_queue h
  exact ⟨_, h, rfl, rfl, (hstart (fun _ => true) fun _ _ => rfl).1⟩

end Xv6Paging
