import Mathlib.Logic.Relation
import Xv6Paging.Logic.Circular

/-!
# Console input

`consoleintr` edits a line at the upper end of the buffer `cons.buf` and commits it when it is
complete; `consoleread` takes committed bytes from the lower end.  The three indices run on and wrap
around.

The specification is a line editor with unbounded lists: what was committed, how much of it was
taken, and the line that is being edited.
-/

namespace Xv6Paging

open Circular
open Function (update)

abbrev inputBuf : Nat := 128

instance : Wraps inputBuf 32 := ⟨by decide, by decide⟩

/-- `C(x)`. -/
def ctrl (x : Char) : UInt8 := x.toUInt8 - '@'.toUInt8

/-- `'\n'`. -/
abbrev newline : UInt8 := 10

/-! ## The line editor -/

/-- What was committed, how many bytes of it were taken, and the line that is being edited. -/
structure LineEditor where
  committed : List UInt8
  taken : Nat
  line : List UInt8

/-- What happens: a character is typed, or a reader takes a committed byte. -/
inductive ConsoleEvent
  | typed (c : UInt8)
  | took

namespace LineEditor

/-- Nothing was typed. -/
def empty : LineEditor := ⟨[], 0, []⟩

/-- The committed bytes that were not taken. -/
def waiting (L : LineEditor) : List UInt8 := L.committed.drop L.taken

/-- The bytes that occupy the buffer. -/
def size (L : LineEditor) : Nat := L.waiting.length + L.line.length

/-- The line is committed. -/
def commit (L : LineEditor) : LineEditor :=
  { L with committed := L.committed ++ L.line, line := [] }

/-- A character at the end of the line; the end of a line, an end-of-file mark and the last byte
that fits commit it. -/
def append (L : LineEditor) (c : UInt8) : LineEditor :=
  let L' := { L with line := L.line ++ [c] }
  if c = newline ∨ c = ctrl 'D' ∨ L'.size = inputBuf then L'.commit else L'

/-- A character is typed.  `^U` erases the line, `^H` and DEL its last byte; `^P` and NUL are
ignored, and so is everything else while the buffer is full. -/
def type (L : LineEditor) (c : UInt8) : LineEditor :=
  if c = ctrl 'P' then L
  else if c = ctrl 'U' then { L with line := [] }
  else if c = ctrl 'H' ∨ c = 127 then { L with line := L.line.dropLast }
  else if c ≠ 0 ∧ L.size < inputBuf then L.append (if c = 13 then newline else c)
  else L

/-- What an event does. -/
def step (L : LineEditor) : ConsoleEvent → LineEditor
  | .typed c => L.type c
  | .took => { L with taken := L.taken + 1 }

end LineEditor

/-! ## The buffer -/

/-- `cons`: the buffer and the read, write and edit index. -/
structure Cons where
  buf : Fin inputBuf → UInt8
  r : BitVec 32
  w : BitVec 32
  e : BitVec 32

namespace Cons

/-- `cons` at boot. -/
def init : Cons := ⟨fun _ => 0, 0, 0, 0⟩

/-- The loop of `^U`, with a bound on its rounds. -/
def killLine (s : Cons) : Nat → Cons
  | 0 => s
  | k + 1 =>
    if s.e ≠ s.w ∧ s.buf (slot inputBuf (s.e - 1)) ≠ newline then killLine { s with e := s.e - 1 } k
    else s

/-- `cons.buf[cons.e++ % INPUT_BUF] = c` and the commit; whether readers are woken up. -/
def put (s : Cons) (c : UInt8) : Cons × Bool :=
  let s' := { s with buf := update s.buf (slot inputBuf s.e) c, e := s.e + 1 }
  if c = newline ∨ c = ctrl 'D' ∨ s'.e = s'.r + BitVec.ofNat 32 inputBuf then
    ({ s' with w := s'.e }, true)
  else (s', false)

/-- `consoleintr`, and whether it wakes up readers. -/
def intr (s : Cons) (c : UInt8) : Cons × Bool :=
  if c = ctrl 'P' then (s, false)
  else if c = ctrl 'U' then (s.killLine (s.e - s.w).toNat, false)
  else if c = ctrl 'H' ∨ c = 127 then
    if s.e ≠ s.w then ({ s with e := s.e - 1 }, false) else (s, false)
  else if c ≠ 0 ∧ (s.e - s.r).toNat < inputBuf then s.put (if c = 13 then newline else c)
  else (s, false)

/-- The byte of `cons.buf[cons.r++ % INPUT_BUF]`. -/
def next (s : Cons) : UInt8 := s.buf (slot inputBuf s.r)

/-- The buffer after that. -/
def take (s : Cons) : Cons := { s with r := s.r + 1 }

/-- `cons.r--`. -/
def untake (s : Cons) : Cons := { s with r := s.r - 1 }

theorem untake_take (s : Cons) : s.take.untake = s := by
  simp [take, untake]

/-- The buffer shows the state of the line editor: the waiting bytes from `r` to `w`, and the line
from `w` to `e`. -/
structure Shows (s : Cons) (L : LineEditor) : Prop where
  holds : Holds s.buf s.r s.e (L.waiting ++ L.line)
  write : s.w = ahead s.r L.waiting.length
  taken : L.taken ≤ L.committed.length
  line : newline ∉ L.line

end Cons

namespace Cons.Shows

variable {s : Cons} {L : LineEditor} {c : UInt8}

theorem init : Cons.init.Shows .empty := ⟨.nil _ _, by simp [Cons.init, LineEditor.waiting,
  LineEditor.empty], le_rfl, by simp [LineEditor.empty]⟩

variable (h : s.Shows L)
include h

theorem waiting : Holds s.buf s.r s.w L.waiting := by
  rw [h.write]
  exact h.holds.split.1

theorem editing : Holds s.buf s.w s.e L.line := by
  rw [h.write]
  exact h.holds.split.2

theorem size_eq : (s.e - s.r).toNat = L.size := by
  rw [h.holds.length_eq, List.length_append, LineEditor.size]

theorem size_le : L.size ≤ inputBuf := by
  have := h.holds.fits
  rwa [List.length_append] at this

theorem line_eq_nil_iff : s.e = s.w ↔ L.line = [] := by
  rw [← h.editing.eq_nil_iff, eq_comm]

theorem erase (hne : L.line ≠ []) :
    ({ s with e := s.e - 1 } : Cons).Shows { L with line := L.line.dropLast } := by
  obtain ⟨xs, x, hline⟩ := List.eq_nil_or_concat L.line |>.resolve_left hne
  rw [List.concat_eq_append] at hline
  have hholds := h.holds
  rw [hline, ← List.append_assoc] at hholds
  refine ⟨?_, h.write, h.taken, fun hmem => h.line (List.mem_of_mem_dropLast hmem)⟩
  show Holds s.buf s.r (s.e - 1) (L.waiting ++ L.line.dropLast)
  rw [hline, List.dropLast_concat]
  exact hholds.unpush.1

theorem last_ne_newline (hne : L.line ≠ []) : s.buf (slot inputBuf (s.e - 1)) ≠ newline := by
  obtain ⟨xs, x, hline⟩ := List.eq_nil_or_concat L.line |>.resolve_left hne
  rw [List.concat_eq_append] at hline
  have hedit := h.editing
  rw [hline] at hedit
  rw [hedit.unpush.2]
  intro hx
  refine h.line ?_
  rw [hline, hx]
  simp

/-- The loop of `^U` erases the line: it contains no end of a line at which the loop would stop. -/
theorem killLine {k : Nat} (hk : L.line.length ≤ k) :
    (s.killLine k).Shows { L with line := [] } := by
  induction k generalizing s L with
  | zero =>
    have hnil : L.line = [] := List.eq_nil_of_length_eq_zero (Nat.le_zero.mp hk)
    rw [← hnil]
    exact h
  | succ k ih =>
    unfold Cons.killLine
    by_cases hnil : L.line = []
    · rw [if_neg fun hc => hc.1 (h.line_eq_nil_iff.mpr hnil), ← hnil]
      exact h
    · rw [if_pos ⟨fun heq => hnil (h.line_eq_nil_iff.mp heq), h.last_ne_newline hnil⟩]
      have hlen : L.line.dropLast.length ≤ k := by
        rw [List.length_dropLast]
        omega
      have hrest := ih (h.erase hnil) hlen
      exact hrest

theorem put (hroom : L.size < inputBuf) (c : UInt8) : (s.put c).1.Shows (L.append c) := by
  have hroom' : (L.waiting ++ L.line).length < inputBuf := by
    rwa [List.length_append]
  have hpush := h.holds.push hroom' c
  rw [List.append_assoc] at hpush
  -- the index is `INPUT_BUF` ahead when the buffer is full
  have hfull : s.e + 1 = s.r + BitVec.ofNat 32 inputBuf ↔
      ({ L with line := L.line ++ [c] } : LineEditor).size = inputBuf := by
    rw [show s.r + BitVec.ofNat 32 inputBuf = ahead s.r inputBuf from rfl, hpush.full_iff,
      List.length_append]
    rfl
  unfold Cons.put LineEditor.append
  simp only [hfull]
  split
  · -- the line is committed
    have hwait : ({ L with line := L.line ++ [c] } : LineEditor).commit.waiting =
        L.waiting ++ (L.line ++ [c]) := by
      simp only [LineEditor.waiting, LineEditor.commit]
      rw [List.drop_append_of_le_length h.taken]
    refine ⟨?_, ?_, ?_, by simp [LineEditor.commit]⟩
    · rw [hwait]
      simpa [LineEditor.commit] using hpush
    · rw [hwait]
      exact hpush.count
    · show L.taken ≤ (L.committed ++ _).length
      rw [List.length_append]
      exact Nat.le_add_right_of_le h.taken
  · rename_i hno
    refine ⟨hpush, h.write, h.taken, ?_⟩
    rw [List.mem_append, List.mem_singleton]
    rintro (hmem | rfl)
    · exact h.line hmem
    · exact hno (.inl rfl)

/-- **`consoleintr`** does to the buffer what typing does to the line editor. -/
theorem intr (c : UInt8) : (s.intr c).1.Shows (L.type c) := by
  unfold Cons.intr LineEditor.type
  split
  · exact h
  split
  · refine h.killLine ?_
    rw [h.editing.length_eq]
  split
  · split
    · rename_i hne
      exact h.erase fun hnil => hne (h.line_eq_nil_iff.mpr hnil)
    · rename_i heq
      have hnil : L.line = [] := h.line_eq_nil_iff.mp (not_not.mp heq)
      rw [hnil, List.dropLast_nil, ← hnil]
      exact h
  rw [h.size_eq]
  split
  · rename_i hroom
    exact h.put hroom.2 _
  · exact h

theorem waiting_ne_nil (hne : s.r ≠ s.w) : L.taken < L.committed.length := by
  by_contra hge
  have hnil : L.waiting = [] := List.drop_eq_nil_of_le (Nat.not_lt.mp hge)
  exact hne (h.waiting.eq_nil_iff.mpr hnil)

/-- **`consoleread`** takes the next byte that was committed. -/
theorem take (hne : s.r ≠ s.w) : s.take.Shows (L.step .took) ∧
      (L.step .took).committed.take (L.step .took).taken =
        L.committed.take L.taken ++ [s.next] := by
  have hlt := h.waiting_ne_nil hne
  have hcons : L.waiting = L.committed[L.taken] :: (L.step .took).waiting :=
    List.drop_eq_getElem_cons hlt
  have hholds := h.holds
  rw [hcons, List.cons_append] at hholds
  refine ⟨⟨hholds.pop, ?_, hlt, h.line⟩, ?_⟩
  · show s.w = ahead (s.r + 1) _
    have hone : s.r + 1 = ahead s.r 1 := by simp [ahead]
    rw [hone, ahead_ahead, h.write, hcons, List.length_cons, Nat.add_comm]
  · show L.committed.take (L.taken + 1) = _
    rw [List.take_succ_eq_append_getElem hlt, Cons.next, hholds.head]

/-- What is typed leaves the bytes from `r` to `w` alone, and editing leaves `w` alone as well. -/
theorem intr_waiting (c : UInt8) : (s.intr c).1.r = s.r ∧ ∀ j, j < (s.w - s.r).toNat →
        (s.intr c).1.buf (slot inputBuf (ahead s.r j)) = s.buf (slot inputBuf (ahead s.r j)) := by
  have hlen := h.waiting.length_eq
  have hkill : ∀ k (t : Cons), (t.killLine k).r = t.r ∧ (t.killLine k).buf = t.buf := by
    intro k
    induction k with
    | zero => exact fun t => ⟨rfl, rfl⟩
    | succ k ih =>
      intro t
      unfold Cons.killLine
      split
      · exact ih _
      · exact ⟨rfl, rfl⟩
  unfold Cons.intr
  split
  · exact ⟨rfl, fun _ _ => rfl⟩
  split
  · exact ⟨(hkill _ s).1, fun j _ => by rw [(hkill _ s).2]⟩
  split
  · split <;> exact ⟨rfl, fun _ _ => rfl⟩
  split
  · rename_i hroom
    generalize (if c = 13 then newline else c) = d
    have hput : (s.put d).1.r = s.r ∧
        (s.put d).1.buf = update s.buf (slot inputBuf s.e) d := by
      unfold Cons.put
      dsimp only
      split <;> exact ⟨rfl, rfl⟩
    refine ⟨hput.1, fun j hj => ?_⟩
    -- the new byte is not at one of the waiting ones
    have hne : slot inputBuf (ahead s.r j) ≠ slot inputBuf s.e := by
      rw [h.size_eq, LineEditor.size] at hroom
      rw [h.holds.count, List.length_append]
      intro heq
      have := slot_ahead_inj s.r (by omega) (by omega) heq
      omega
    rw [hput.2, Function.update_of_ne hne]
  · exact ⟨rfl, fun _ _ => rfl⟩

end Cons.Shows

/-! ## Readers and interrupts -/

/-- What a reader gets: a byte, or an end-of-file mark. -/
inductive Delivery
  | byte (c : UInt8)
  | eof
deriving DecidableEq

/-- A committed `^D` is an end-of-file mark. -/
def Delivery.of (c : UInt8) : Delivery := if c = ctrl 'D' then .eof else .byte c

/-- A place in `consoleread`, with the local variables `n` and `target`. -/
inductive ReaderPc
  | out
  | enter (n : Int)
  | loop (n target : Int)
  | asleep (n target : Int)
  | woken (n target : Int)
deriving DecidableEq

/-- The process is not asleep any more. -/
def ReaderPc.rouse : ReaderPc → ReaderPc
  | asleep n target => woken n target
  | pc => pc

/-- The console, the owner of its lock, the processes, and what was delivered to them. -/
structure ConsoleSystem (ι : Type) where
  cons : Cons
  lock : Option ι
  pc : ι → ReaderPc
  killed : ι → Bool
  delivered : List Delivery

namespace ConsoleSystem

variable {ι : Type} [DecidableEq ι]

/-- The console at boot. -/
def init : ConsoleSystem ι := ⟨.init, none, fun _ => .out, fun _ => false, []⟩

/-- The process `i` goes to another place. -/
def goto (s : ConsoleSystem ι) (i : ι) (pc : ReaderPc) : ConsoleSystem ι :=
  { s with pc := update s.pc i pc }

/-- `acquire(&cons.lock)`. -/
def acquire (s : ConsoleSystem ι) (i : ι) : ConsoleSystem ι := { s with lock := some i }

/-- `release(&cons.lock)`. -/
def release (s : ConsoleSystem ι) : ConsoleSystem ι := { s with lock := none }

/-- `consoleintr`, with its wakeup of the readers. -/
def intr (s : ConsoleSystem ι) (c : UInt8) : ConsoleSystem ι :=
  { s with
    cons := (s.cons.intr c).1
    pc := if (s.cons.intr c).2 then fun j => (s.pc j).rouse else s.pc }

/-- A reader takes the next byte; it is copied out, or taken as the end of the file. -/
def take (s : ConsoleSystem ι) : ConsoleSystem ι :=
  { s with cons := s.cons.take, delivered := s.delivered ++ [.of s.cons.next] }

def kill (s : ConsoleSystem ι) (j : ι) : ConsoleSystem ι :=
  { s with killed := update s.killed j true, pc := update s.pc j (s.pc j).rouse }

end ConsoleSystem

/-- The steps: interrupts, and the rounds of `consoleread` with copies that succeed.  The label says
what happened to the input. -/
inductive ConsoleStep {ι : Type} [DecidableEq ι] :
    ConsoleSystem ι → Option ConsoleEvent → ConsoleSystem ι → Prop
  | intr {s} (c : UInt8) (hl : s.lock = none) : ConsoleStep s (some (.typed c)) (s.intr c)
  | call {s} (i : ι) (n : Int) (h : s.pc i = .out) : ConsoleStep s none (s.goto i (.enter n))
  | enter {s} (i : ι) {n : Int} (h : s.pc i = .enter n) (hl : s.lock = none) :
      ConsoleStep s none ((s.acquire i).goto i (.loop n n))
  | quit {s} (i : ι) {n target : Int} (h : s.pc i = .loop n target) (hn : 0 < n)
      (he : s.cons.r = s.cons.w) (hk : s.killed i = true) :
      ConsoleStep s none (s.release.goto i .out)
  | sleep {s} (i : ι) {n target : Int} (h : s.pc i = .loop n target) (hn : 0 < n)
      (he : s.cons.r = s.cons.w) (hk : s.killed i = false) :
      ConsoleStep s none (s.release.goto i (.asleep n target))
  | reenter {s} (i : ι) {n target : Int} (h : s.pc i = .woken n target) (hl : s.lock = none) :
      ConsoleStep s none ((s.acquire i).goto i (.loop n target))
  -- an end-of-file mark after other bytes is saved for the next call
  | saveEof {s} (i : ι) {n target : Int} (h : s.pc i = .loop n target) (hn : 0 < n)
      (he : s.cons.r ≠ s.cons.w) (hd : s.cons.next = ctrl 'D') (ht : n < target) :
      ConsoleStep s none (({ s with cons := s.cons.take.untake }).release.goto i .out)
  | takeEof {s} (i : ι) {n target : Int} (h : s.pc i = .loop n target) (hn : 0 < n)
      (he : s.cons.r ≠ s.cons.w) (hd : s.cons.next = ctrl 'D') (ht : ¬n < target) :
      ConsoleStep s (some .took) (s.take.release.goto i .out)
  | takeByte {s} (i : ι) {n target : Int} (h : s.pc i = .loop n target) (hn : 0 < n)
      (he : s.cons.r ≠ s.cons.w) (hd : s.cons.next ≠ ctrl 'D') (hc : s.cons.next ≠ newline) :
      ConsoleStep s (some .took) (s.take.goto i (.loop (n - 1) target))
  | takeNewline {s} (i : ι) {n target : Int} (h : s.pc i = .loop n target) (hn : 0 < n)
      (he : s.cons.r ≠ s.cons.w) (hd : s.cons.next ≠ ctrl 'D') (hc : s.cons.next = newline) :
      ConsoleStep s (some .took) (s.take.release.goto i .out)
  | finish {s} (i : ι) {n target : Int} (h : s.pc i = .loop n target) (hn : ¬0 < n) :
      ConsoleStep s none (s.release.goto i .out)
  | kill {s} (j : ι) : ConsoleStep s none (s.kill j)

/-- The runs from boot, with their events. -/
inductive ConsoleRun {ι : Type} [DecidableEq ι] : List ConsoleEvent → ConsoleSystem ι → Prop
  | boot : ConsoleRun [] .init
  | snoc {evs s l t} (h : ConsoleRun evs s) (hstep : ConsoleStep s l t) :
      ConsoleRun (evs ++ l.toList) t

/-- The line editor after the events. -/
def LineEditor.after (evs : List ConsoleEvent) : LineEditor := evs.foldl step .empty

section Runs

variable {ι : Type} [DecidableEq ι] {s t : ConsoleSystem ι} {L : LineEditor}
  {evs : List ConsoleEvent} {l : Option ConsoleEvent}

/-- The console shows the state of the line editor, and the readers got what was taken from it. -/
structure ConsoleSystem.Follows (s : ConsoleSystem ι) (L : LineEditor) : Prop where
  shows : s.cons.Shows L
  delivered : s.delivered = (L.committed.take L.taken).map .of

omit [DecidableEq ι] in
theorem ConsoleSystem.Follows.congr (h : s.Follows L) (hcons : t.cons = s.cons)
    (hdel : t.delivered = s.delivered) : t.Follows L := by
  refine ⟨?_, ?_⟩
  · rw [hcons]
    exact h.shows
  · rw [hdel]
    exact h.delivered

omit [DecidableEq ι] in
theorem LineEditor.take_type (h : L.taken ≤ L.committed.length) (c : UInt8) :
    (L.type c).committed.take (L.type c).taken = L.committed.take L.taken := by
  have hcommit : ∀ line : List UInt8,
      (L.committed ++ line).take L.taken = L.committed.take L.taken :=
    fun line => List.take_append_of_le_length h
  unfold LineEditor.type
  split
  · rfl
  split
  · rfl
  split
  · rfl
  split
  · generalize (if c = 13 then newline else c) = d
    unfold LineEditor.append
    dsimp only
    split
    · exact hcommit _
    · rfl
  · rfl

omit [DecidableEq ι] in
theorem ConsoleSystem.Follows.take (h : s.Follows L) (hne : s.cons.r ≠ s.cons.w) :
    s.take.Follows (L.step .took) := by
  obtain ⟨hshows, htake⟩ := h.shows.take hne
  refine ⟨hshows, ?_⟩
  show s.delivered ++ [.of s.cons.next] = _
  rw [htake, List.map_append, h.delivered]
  rfl

/-- **Every step is a step of the line editor**, or none. -/
theorem ConsoleSystem.Follows.step (h : s.Follows L) (hstep : ConsoleStep s l t) :
    t.Follows (l.toList.foldl LineEditor.step L) := by
  cases hstep with
  | intr c hl =>
    refine ⟨h.shows.intr c, ?_⟩
    show s.delivered = ((L.type c).committed.take (L.type c).taken).map _
    rw [LineEditor.take_type h.shows.taken]
    exact h.delivered
  | saveEof i _ _ _ _ _ => exact h.congr (Cons.untake_take _) rfl
  | takeEof i _ _ he _ _ => exact (h.take he).congr rfl rfl
  | takeByte i _ _ he _ _ => exact (h.take he).congr rfl rfl
  | takeNewline i _ _ he _ _ => exact (h.take he).congr rfl rfl
  -- the other steps change the lock and the places only
  | _ => exact h.congr rfl rfl

theorem ConsoleRun.follows (h : ConsoleRun evs s) : s.Follows (.after evs) := by
  induction h with
  | boot => exact ⟨.init, rfl⟩
  | snoc _ hstep ih =>
    rw [LineEditor.after, List.foldl_append]
    exact ih.step hstep

end Runs

/-- **The console delivers what was committed.**  In every run the indices keep their order and
distance, also after they have wrapped around; what is typed leaves the bytes between `r` and `w`
alone; and the bytes and end-of-file marks that readers got are, in order, those that the line
editor has committed and that were taken, the others being in the buffer. -/
theorem console_discipline {ι : Type} [DecidableEq ι] {evs : List ConsoleEvent}
    {s : ConsoleSystem ι} (h : ConsoleRun evs s) :
    ((s.cons.w - s.cons.r).toNat ≤ (s.cons.e - s.cons.r).toNat ∧
      (s.cons.e - s.cons.r).toNat ≤ inputBuf) ∧
    (∀ c, (s.cons.intr c).1.r = s.cons.r ∧ ∀ j, j < (s.cons.w - s.cons.r).toNat →
      (s.cons.intr c).1.buf (slot inputBuf (ahead s.cons.r j)) =
        s.cons.buf (slot inputBuf (ahead s.cons.r j))) ∧
    s.delivered = ((LineEditor.after evs).committed.take (LineEditor.after evs).taken).map .of ∧
    Holds s.cons.buf s.cons.r s.cons.w (LineEditor.after evs).waiting ∧
    Holds s.cons.buf s.cons.w s.cons.e (LineEditor.after evs).line := by
  have hf := h.follows
  have hs := hf.shows
  refine ⟨⟨?_, ?_⟩, hs.intr_waiting, hf.delivered, hs.waiting, hs.editing⟩
  · rw [hs.size_eq, hs.waiting.length_eq, LineEditor.size]
    exact Nat.le_add_right _ _
  · rw [hs.size_eq]
    exact hs.size_le

/-- A reader gets the line `a` that was typed as `x`, backspace, `a`, carriage return. -/
theorem console_reads_line : ∃ s : ConsoleSystem (Fin 1), ConsoleRun
    [.typed 120, .typed 8, .typed 97, .typed 13, .took, .took] s ∧
      s.delivered = [.byte 97, .byte newline] := by
  have h0 : ConsoleRun [] (.init : ConsoleSystem (Fin 1)) := .boot
  have h1 := h0.snoc (.intr 120 rfl)
  have h2 := h1.snoc (.intr 8 rfl)
  have h3 := h2.snoc (.intr 97 rfl)
  have h4 := h3.snoc (.intr 13 rfl)
  have h5 := h4.snoc (.call 0 100 rfl)
  have h6 := h5.snoc (.enter 0 rfl rfl)
  have h7 := h6.snoc (.takeByte 0 rfl (by decide) (by decide) (by decide) (by decide))
  have h8 := h7.snoc (.takeNewline 0 rfl (by decide) (by decide) (by decide) (by decide))
  refine ⟨_, h8, ?_⟩
  exact (console_discipline h8).2.2.1.trans (by decide)

end Xv6Paging
