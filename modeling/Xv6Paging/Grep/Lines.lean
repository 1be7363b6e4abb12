import Mathlib.Data.List.Flatten
import Mathlib.Data.List.GetD
import Mathlib.Data.List.TakeWhile
import Mathlib.Logic.Function.Basic
import Xv6Paging.Grep.Match

/-!
# The lines that grep prints

`grep` reads into a buffer of 1024 bytes, prints the lines in it that match, and moves the
unfinished line to the front.  How much a `read` delivers is not known: any number of bytes, as long
as it is not zero while there is something to deliver and room for it.

A line is seen when its newline is in the buffer.  So the last line of the input is not seen if it
has no newline; and a line that fills the buffer leaves no room, `read` is asked for nothing, and
`grep` ends as if the input did.
-/

namespace Xv6Paging.Grep

open CString
open List (append_assoc cons_append flatten_cons length length_append length_cons mem_cons)

/-- `sizeof(buf)`. -/
abbrev bufSize : Nat := 1024

/-- The contents of `buf`. -/
abbrev Buf := Nat → UInt8

/-- `strchr(p, '\n')`; `k` bytes are left in the buffer. -/
def strchrNewline (buf : Buf) : Nat → Nat → Option Nat
  | 0, _ => none
  | k + 1, p =>
    if buf p = 0 then none
    else if buf p = '\n'.toUInt8 then some p
    else strchrNewline buf k (p + 1)

/-- The string at `p`; `k` bytes are left in the buffer. -/
def strAt (buf : Buf) : Nat → Nat → List UInt8
  | 0, _ => []
  | k + 1, p => if buf p = 0 then [] else buf p :: strAt buf k (p + 1)

/-- The `n` bytes at `p`. -/
def bytesAt (buf : Buf) (p n : Nat) : List UInt8 := (List.range n).map fun i => buf (p + i)

/-- The inner loop of `grep`, of at most `k` rounds: the buffer, `p`, and what has been written. -/
def printLines (re : List UInt8) : Nat → Buf → Nat → List UInt8 → Buf × Nat × List UInt8
  | 0, buf, p, out => (buf, p, out)
  | k + 1, buf, p, out =>
    match strchrNewline buf (bufSize - p) p with
    | none => (buf, p, out)
    | some q =>
      let cut := Function.update buf q 0
      if matchRe re (strAt cut (bufSize - p) p) then
        let buf := Function.update cut q '\n'.toUInt8
        printLines re k buf (q + 1) (out ++ bytesAt buf p (q + 1 - p))
      else printLines re k cut (q + 1) out

/-- `read(fd, buf + m, ..)` has delivered the piece. -/
def deliver (buf : Buf) (m : Nat) (piece : List UInt8) : Buf := fun i =>
  if m ≤ i ∧ i < m + piece.length then piece.getD (i - m) 0 else buf i

/-- `memmove(buf, p, m)`. -/
def moveToFront (buf : Buf) (p m : Nat) : Buf := fun i => if i < m then buf (p + i) else buf i

/-- How many bytes `read` delivers: any number that is asked for and there, but not zero for want of
luck. -/
def readSize (wish asked left : Nat) : Nat := min (max 1 wish) (min asked left)

/-- The loop of `grep`; `wish` is how many bytes the reads would deliver. -/
def grepLoop (re : List UInt8) (wish : Nat → Nat) (i : Nat) (buf : Buf) (m : Nat)
    (input out : List UInt8) : List UInt8 :=
  let n := readSize (wish i) (bufSize - m - 1) input.length
  if n > 0 then
    let full := Function.update (deliver buf m (input.take n)) (m + n) 0
    let r := printLines re bufSize full 0 out
    let m' := m + n
    -- `if(m > 0)` holds here, and `p` is not beyond the end
    grepLoop re wish (i + 1) (moveToFront r.1 r.2.1 (m' - r.2.1)) (m' - r.2.1) (input.drop n) r.2.2
  else out
termination_by input.length
decreasing_by
  have hn : n ≤ input.length := (min_le_right _ _).trans (min_le_right _ _)
  rw [List.length_drop]
  omega

/-- `grep`: what it writes, from whatever is in the buffer. -/
def grep (re : List UInt8) (wish : Nat → Nat) (buf : Buf) (input : List UInt8) : List UInt8 :=
  grepLoop re wish 0 buf 0 input []

/-! ## Lines -/

/-- The lines of a text, each with its newline; the last one may be without. -/
def lines : List UInt8 → List (List UInt8)
  | [] => []
  | c :: s =>
    if c = '\n'.toUInt8 then [c] :: lines s
    else match lines s with
      | [] => [[c]]
      | l :: ls => (c :: l) :: ls

/-- A line without its newline. -/
def body (l : List UInt8) : List UInt8 := l.takeWhile (· ≠ '\n'.toUInt8)

/-- The line has a newline. -/
abbrev Ended (l : List UInt8) : Prop := '\n'.toUInt8 ∈ l

/-- The line fits into the buffer, with its newline and a NUL. -/
abbrev Fits (l : List UInt8) : Prop := (body l).length < bufSize - 1

/-- The lines that `grep` looks at: those with a newline, up to the first that does not fit. -/
def seen (s : List UInt8) : List (List UInt8) :=
  ((lines s).takeWhile fun l => Fits l).filter fun l => Ended l

/-- The lines that match, one after the other. -/
def matching (re : List UInt8) (ls : List (List UInt8)) : List UInt8 :=
  (ls.filter fun l => matchRe re (body l)).flatten

section Lines

variable {l s r re : List UInt8}

theorem lines_unended (h : '\n'.toUInt8 ∉ s) : lines s = if s = [] then [] else [s] := by
  induction s with
  | nil => rfl
  | cons c s ih =>
    rw [mem_cons, not_or] at h
    rw [lines, if_neg (Ne.symm h.1), ih h.2]
    cases s <;> rfl

theorem lines_append_newline (h : '\n'.toUInt8 ∉ l) :
    lines (l ++ '\n'.toUInt8 :: r) = (l ++ [ '\n'.toUInt8]) :: lines r := by
  induction l with
  | nil => simp [lines]
  | cons c l ih =>
    rw [mem_cons, not_or] at h
    rw [cons_append, lines, if_neg (Ne.symm h.1), ih h.2]
    rfl

theorem body_append_newline (h : '\n'.toUInt8 ∉ l) : body (l ++ [ '\n'.toUInt8]) = l := by
  rw [body, List.takeWhile_append_of_pos]
  · simp
  · intro c hc
    exact decide_eq_true fun hnl => h (hnl ▸ hc)

theorem newline_cases (s : List UInt8) : '\n'.toUInt8 ∉ s ∨
    ∃ l r, s = l ++ '\n'.toUInt8 :: r ∧ '\n'.toUInt8 ∉ l := by
  induction s with
  | nil => exact .inl List.not_mem_nil
  | cons c s ih =>
    by_cases hc : c = '\n'.toUInt8
    · exact .inr ⟨[], s, by rw [hc]; rfl, List.not_mem_nil⟩
    · rcases ih with hs | ⟨l, r, rfl, hl⟩
      · exact .inl (by simp [hs, Ne.symm hc])
      · exact .inr ⟨c :: l, r, rfl, by simp [hl, Ne.symm hc]⟩

theorem lines_ne_nil (hl : l ∈ lines s) : l ≠ [] := by
  induction s generalizing l with
  | nil => cases hl
  | cons c s ih =>
    rw [lines] at hl
    split at hl
    · rcases List.mem_cons.mp hl with rfl | hl
      · exact List.cons_ne_nil _ _
      · exact ih hl
    · split at hl
      · rw [List.mem_singleton] at hl
        rw [hl]
        exact List.cons_ne_nil _ _
      · rename_i hlines
        rcases List.mem_cons.mp hl with rfl | hl
        · exact List.cons_ne_nil _ _
        · exact ih (hlines ▸ List.mem_cons_of_mem _ hl)

theorem seen_unended (h : '\n'.toUInt8 ∉ s) : seen s = [] := by
  rw [seen, lines_unended h]
  apply List.filter_eq_nil_iff.mpr
  intro l hl
  have hmem := List.takeWhile_subset _ hl
  split at hmem
  · cases hmem
  · rw [List.mem_singleton] at hmem
    simpa [hmem] using h

theorem seen_long (h : '\n'.toUInt8 ∉ s) (hlen : bufSize - 1 ≤ s.length) : seen (s ++ r) = [] := by
  -- the first line of the text begins with `s`
  have hfirst : ∃ l ls, lines (s ++ r) = l :: ls ∧ bufSize - 1 ≤ (body l).length := by
    rcases newline_cases r with hr | ⟨l, r, rfl, hl⟩
    · have hsr : '\n'.toUInt8 ∉ s ++ r := by simp [h, hr]
      refine ⟨s ++ r, [], ?_, ?_⟩
      · rw [lines_unended hsr, if_neg]
        intro hnil
        rw [(List.append_eq_nil_iff.mp hnil).1] at hlen
        exact absurd hlen (by decide)
      · have hbody : body (s ++ r) = s ++ r := by
          apply List.takeWhile_eq_self_iff.mpr
          intro c hc
          exact decide_eq_true fun hnl => hsr (hnl ▸ hc)
        rw [hbody, length_append]
        omega
    · have hsl : '\n'.toUInt8 ∉ s ++ l := by simp [h, hl]
      refine ⟨s ++ l ++ [ '\n'.toUInt8], lines r, ?_, ?_⟩
      · rw [← append_assoc, lines_append_newline hsl]
      · rw [body_append_newline hsl, length_append]
        omega
  obtain ⟨l, ls, hlines, hlong⟩ := hfirst
  rw [seen, hlines, List.takeWhile_cons_of_neg]
  · rfl
  · simpa using hlong

theorem seen_append_newline (h : '\n'.toUInt8 ∉ l) (hlen : l.length < bufSize - 1) :
    seen (l ++ '\n'.toUInt8 :: r) = (l ++ [ '\n'.toUInt8]) :: seen r := by
  have hfits : Fits (l ++ [ '\n'.toUInt8]) := by
    rw [Fits, body_append_newline h]
    exact hlen
  rw [seen, lines_append_newline h, List.takeWhile_cons_of_pos (by simpa using hfits),
    List.filter_cons_of_pos (by simp)]
  rfl

theorem matching_cons (re l : List UInt8) (ls : List (List UInt8)) :
    matching re (l :: ls) = (if matchRe re (body l) then l else []) ++ matching re ls := by
  unfold matching
  rw [List.filter_cons]
  split
  · rw [flatten_cons]
  · rw [List.nil_append]

end Lines

/-! ## The buffer -/

/-- The bytes from `p` on are `s`. -/
def Holds (buf : Buf) : Nat → List UInt8 → Prop
  | _, [] => True
  | p, c :: s => buf p = c ∧ Holds buf (p + 1) s

section Buffer

variable {buf buf' : Buf} {p q k : Nat} {l s : List UInt8}

section

variable (h : Holds buf p s)
include h

theorem Holds.congr
    (heq : ∀ i, p ≤ i → i < p + s.length → buf' (q + (i - p)) = buf i) : Holds buf' q s := by
  induction s generalizing p q with
  | nil => trivial
  | cons c s ih =>
    refine ⟨?_, ih h.2 fun i hi hi' => ?_⟩
    · have hp := heq p le_rfl (by simp)
      rw [Nat.sub_self] at hp
      exact hp.trans h.1
    · have hnext := heq i (by omega) (by simp; omega)
      rwa [show q + (i - p) = q + 1 + (i - (p + 1)) by omega] at hnext

theorem Holds.update {v : UInt8} (hq : q < p ∨ p + s.length ≤ q) :
    Holds (Function.update buf q v) p s := by
  refine h.congr fun i hi hi' => ?_
  rw [Nat.add_sub_cancel' hi, Function.update_of_ne (by omega)]

omit h in
theorem holds_append : Holds buf p (l ++ s) ↔ Holds buf p l ∧ Holds buf (p + l.length) s := by
  induction l generalizing p with
  | nil => simp [Holds]
  | cons c l ih =>
    rw [cons_append, Holds, Holds, ih, length_cons, and_assoc,
      show p + 1 + l.length = p + (l.length + 1) by omega]

theorem Holds.bytesAt : bytesAt buf p s.length = s := by
  induction s generalizing p with
  | nil => rfl
  | cons c s ih =>
    have hrest := ih h.2
    unfold Grep.bytesAt at hrest ⊢
    rw [length_cons, List.range_succ_eq_map, List.map_cons, List.map_map]
    refine congrArg₂ List.cons h.1 (Eq.trans (List.map_congr_left fun i _ => ?_) hrest)
    exact congrArg buf (by simp only [Nat.succ_eq_add_one]; omega)

theorem strAt_eq (hnul : buf (p + s.length) = 0) (h0 : 0 ∉ s)
    (hk : s.length < k) : strAt buf k p = s := by
  induction s generalizing p k with
  | nil =>
    obtain ⟨k, rfl⟩ := Nat.exists_eq_succ_of_ne_zero (Nat.ne_of_gt hk)
    exact if_pos hnul
  | cons c s ih =>
    obtain ⟨k, rfl⟩ := Nat.exists_eq_succ_of_ne_zero (Nat.ne_of_gt (Nat.zero_lt_of_lt hk))
    rw [mem_cons, not_or] at h0
    rw [length_cons] at hnul hk
    rw [strAt, h.1, if_neg (Ne.symm h0.1), ih h.2 ?_ h0.2 (by omega)]
    rwa [show p + 1 + s.length = p + (s.length + 1) by omega]

theorem strchrNewline_none (hnul : buf (p + s.length) = 0)
    (hnl : '\n'.toUInt8 ∉ s) : strchrNewline buf k p = none := by
  induction s generalizing p k with
  | nil =>
    cases k with
    | zero => rfl
    | succ k => exact if_pos hnul
  | cons c s ih =>
    cases k with
    | zero => rfl
    | succ k =>
      rw [mem_cons, not_or] at hnl
      rw [length_cons] at hnul
      rw [strchrNewline, h.1, if_neg (Ne.symm hnl.1), ih h.2 ?_ hnl.2, ite_self]
      rwa [show p + 1 + s.length = p + (s.length + 1) by omega]

end

theorem strchrNewline_some (h : Holds buf p l) (hnl : buf (p + l.length) = '\n'.toUInt8)
    (hl : '\n'.toUInt8 ∉ l) (h0 : 0 ∉ l) (hk : l.length < k) :
    strchrNewline buf k p = some (p + l.length) := by
  induction l generalizing p k with
  | nil =>
    obtain ⟨k, rfl⟩ := Nat.exists_eq_succ_of_ne_zero (Nat.ne_of_gt hk)
    have hp : buf p = '\n'.toUInt8 := hnl
    rw [strchrNewline, hp, if_neg (by decide), if_pos rfl]
    rfl
  | cons c l ih =>
    obtain ⟨k, rfl⟩ := Nat.exists_eq_succ_of_ne_zero (Nat.ne_of_gt (Nat.zero_lt_of_lt hk))
    rw [mem_cons, not_or] at h0 hl
    rw [length_cons] at hnl hk
    rw [strchrNewline, h.1, if_neg (Ne.symm h0.1), if_neg (Ne.symm hl.1), ih h.2 ?_ hl.2 h0.2 ?_]
    · rw [length_cons, show p + 1 + l.length = p + (l.length + 1) by omega]
    · rwa [show p + 1 + l.length = p + (l.length + 1) by omega]
    · omega

end Buffer

/-! ## What is printed -/

section Printed

variable {buf : Buf} {p k : Nat} {l s r : List UInt8} (re out : List UInt8)

theorem printLines_round (h : Holds buf p (l ++ '\n'.toUInt8 :: r)) (hl : '\n'.toUInt8 ∉ l)
    (h0 : 0 ∉ l) (hend : p + l.length < bufSize) : ∃ v, printLines re (k + 1) buf p out =
      printLines re k (Function.update buf (p + l.length) v) (p + l.length + 1)
        (out ++ if matchRe re l then l ++ [ '\n'.toUInt8] else []) := by
  obtain ⟨hline, hnl, _⟩ := holds_append.mp h
  have hk : l.length < bufSize - p := by omega
  have hcut : strAt (Function.update buf (p + l.length) 0) (bufSize - p) p = l :=
    strAt_eq (hline.update (.inr le_rfl)) (Function.update_self ..) h0 hk
  rw [printLines, strchrNewline_some hline hnl hl h0 hk]
  dsimp only
  rw [hcut]
  split
  · -- the newline is back when the line is written
    refine ⟨'\n'.toUInt8, ?_⟩
    rw [Function.update_idem]
    have hback : Holds (Function.update buf (p + l.length) '\n'.toUInt8) p
        (l ++ [ '\n'.toUInt8]) := by
      refine holds_append.mpr ⟨hline.update (.inr le_rfl), ?_, trivial⟩
      exact Function.update_self ..
    have hbytes := hback.bytesAt
    rw [length_append, List.length_singleton] at hbytes
    rw [show p + l.length + 1 - p = l.length + 1 by omega, hbytes]
  · refine ⟨0, ?_⟩
    rw [List.append_nil]

/-- The inner loop prints the lines that match, and leaves the unfinished line. -/
theorem printLines_spec (h : Holds buf p s) (hnul : buf (p + s.length) = 0) (h0 : 0 ∉ s)
    (hend : p + s.length < bufSize) (hk : s.length < k) :
    ∃ done pre tail buf', s = pre ++ tail ∧ '\n'.toUInt8 ∉ tail ∧
      (∀ rest, seen (s ++ rest) = done ++ seen (tail ++ rest)) ∧ Holds buf' (p + pre.length) tail ∧
      printLines re k buf p out = (buf', p + pre.length, out ++ matching re done) := by
  induction k generalizing buf p s out with
  | zero => exact absurd hk (Nat.not_lt_zero _)
  | succ k ih =>
    rcases newline_cases s with hnone | ⟨l, r, rfl, hl⟩
    · refine ⟨[], [], s, buf, rfl, hnone, fun _ => rfl, h, ?_⟩
      rw [printLines, strchrNewline_none h hnul hnone]
      simp [matching]
    · rw [length_append, length_cons] at hend hk hnul
      have h0l : 0 ∉ l := fun hm => h0 (List.mem_append_left _ hm)
      have h0r : 0 ∉ r := fun hm => h0 (List.mem_append_right _ (List.mem_cons_of_mem _ hm))
      obtain ⟨v, hround⟩ := printLines_round (k := k) re out h hl h0l (by omega)
      have hr : Holds (Function.update buf (p + l.length) v) (p + l.length + 1) r :=
        (holds_append.mp h).2.2.update (.inl (Nat.lt_succ_self _))
      have hnul' : Function.update buf (p + l.length) v (p + l.length + 1 + r.length) = 0 := by
        rw [Function.update_of_ne (by omega), ← hnul]
        exact congrArg buf (by omega)
      obtain ⟨done, pre, tail, buf', rfl, htail, hseen, hheld, hrest⟩ :=
        ih _ hr hnul' h0r (by omega) (by omega)
      refine ⟨(l ++ [ '\n'.toUInt8]) :: done, l ++ '\n'.toUInt8 :: pre, tail, buf', ?_, htail,
        fun rest => ?_, ?_, ?_⟩
      · rw [append_assoc, cons_append]
      · rw [append_assoc, cons_append, seen_append_newline hl (by omega), hseen rest,
          cons_append]
      · rw [length_append, length_cons]
        rwa [show p + (l.length + (pre.length + 1)) = p + l.length + 1 + pre.length by omega]
      · rw [hround, hrest, matching_cons, body_append_newline hl, append_assoc,
          length_append, length_cons,
          show p + (l.length + (pre.length + 1)) = p + l.length + 1 + pre.length by omega]

theorem Holds.deliver (h : Holds buf 0 s) (r : List UInt8) :
    Holds (Function.update (deliver buf s.length r) (s.length + r.length) 0) 0 (s ++ r) := by
  refine Holds.update ?_ (.inr (by rw [length_append]; omega))
  refine holds_append.mpr ⟨h.congr fun i _ hi => ?_, ?_⟩
  · rw [Nat.sub_zero, Nat.zero_add]
    exact if_neg (by omega)
  · rw [Nat.zero_add]
    -- the piece, from any of its positions on
    have hfrom : ∀ (t : List UInt8) (j : Nat), r.drop j = t →
        Holds (Grep.deliver buf s.length r) (s.length + j) t := by
      intro t
      induction t with
      | nil => exact fun _ _ => trivial
      | cons c t ih =>
        intro j hj
        have hlt : j < r.length := by
          by_contra hge
          rw [List.drop_eq_nil_of_le (Nat.le_of_not_lt hge)] at hj
          cases hj
        rw [List.drop_eq_getElem_cons hlt] at hj
        obtain ⟨hc, ht⟩ := List.cons.inj hj
        refine ⟨?_, ih (j + 1) ht⟩
        rw [Grep.deliver, if_pos (by omega), Nat.add_sub_cancel_left, ← hc]
        exact List.getD_eq_getElem _ _ hlt
    exact hfrom r 0 rfl

/-- The unfinished line `c` is in the buffer, and `input` is still to come. -/
theorem grepLoop_eq (wish : Nat → Nat) (i : Nat) {c input : List UInt8} (h : Holds buf 0 c)
    (hc : '\n'.toUInt8 ∉ c) (h0 : 0 ∉ c ++ input) (hlen : c.length < bufSize) :
    grepLoop re wish i buf c.length input out = out ++ matching re (seen (c ++ input)) := by
  induction hin : input.length using Nat.strong_induction_on generalizing i buf c input out with
  | _ len ih =>
    subst hin
    rw [grepLoop]
    set n := readSize (wish i) (bufSize - c.length - 1) input.length with hn
    have hbound : n ≤ bufSize - c.length - 1 ∧ n ≤ input.length :=
      le_min_iff.mp (min_le_right _ _)
    by_cases hpos : n > 0
    · rw [if_pos hpos]
      have htake : (input.take n).length = n := List.length_take_of_le hbound.2
      have hsplit : c ++ input = (c ++ input.take n) ++ input.drop n := by
        rw [append_assoc, List.take_append_drop]
      have hheld := h.deliver (input.take n)
      rw [htake] at hheld
      have hslen : (c ++ input.take n).length = c.length + n := by rw [length_append, htake]
      rw [hsplit] at h0 ⊢
      have h0s : 0 ∉ c ++ input.take n := fun hm => h0 (List.mem_append_left _ hm)
      have hnul : Function.update (Grep.deliver buf c.length (input.take n)) (c.length + n) 0
          (0 + (c ++ input.take n).length) = 0 := by
        rw [hslen, Nat.zero_add, Function.update_self]
      obtain ⟨done, pre, tail, buf', hs, htail, hseen, hheld', hprint⟩ :=
        printLines_spec (k := bufSize) re out hheld hnul h0s (by omega) (by omega)
      have hlens := congrArg length hs
      rw [hslen, length_append] at hlens
      dsimp only
      rw [hprint]
      have hleft : c.length + n - (0 + pre.length) = tail.length := by omega
      dsimp only
      rw [hleft, ih (input.drop n).length ?_ _ _ ?_ htail ?_ ?_ rfl, hseen, append_assoc]
      · congr 1
        rw [matching, matching, matching, List.filter_append, List.flatten_append]
      · rw [List.length_drop]
        omega
      · refine hheld'.congr fun j hj hj' => ?_
        rw [moveToFront, if_pos (by omega)]
        exact congrArg buf' (by omega)
      · intro hm
        apply h0
        rw [hs, append_assoc]
        exact List.mem_append_right pre hm
      · omega
    · rw [if_neg hpos]
      -- nothing is left to read, or there is no room
      have hnone : seen (c ++ input) = [] := by
        have hzero : readSize (wish i) (bufSize - c.length - 1) input.length = 0 := by omega
        rw [readSize] at hzero
        by_cases hempty : input = []
        · rw [hempty, List.append_nil]
          exact seen_unended hc
        · have hin : 0 < input.length := List.length_pos_iff.mpr hempty
          exact seen_long hc (by omega)
      rw [hnone]
      simp [matching]

end Printed

/-- **What `grep` prints**, whatever the pieces are: the lines that match, of those with a newline
that come before the first line that does not fit. -/
theorem grep_eq (re input : Str) (wish : Nat → Nat) (buf : Buf) :
    grep re.chars wish buf input.chars = matching re.chars (seen input.chars) := by
  have hempty : Holds buf 0 [] := trivial
  exact grepLoop_eq re.chars [] wish 0 hempty List.not_mem_nil input.nonzero (by decide)

theorem eq_of_sublist_flatten {α : Type} {ls ms : List (List α)} (h : ls.Sublist ms)
    (hne : ∀ l ∈ ms, l ≠ []) (heq : ls.flatten.length = ms.flatten.length) : ls = ms := by
  induction h with
  | slnil => rfl
  | cons m h ih =>
    -- a line that is left out would be empty
    have hle := (h.flatten).length_le
    rw [flatten_cons, length_append] at heq
    have hm := List.length_pos_iff.mpr (hne m List.mem_cons_self)
    omega
  | cons_cons m h ih =>
    rw [flatten_cons, flatten_cons, length_append, length_append] at heq
    rw [ih (fun l hl => hne l (List.mem_cons_of_mem m hl)) (by omega)]

/-- **`grep` prints all the lines that match** exactly when every line that matches has a newline,
and none comes after a line that does not fit into the buffer or is such a line. -/
theorem grep_exact_iff (re input : Str) (wish : Nat → Nat) (buf : Buf) :
    grep re.chars wish buf input.chars = matching re.chars (lines input.chars) ↔
      (∀ l ∈ lines input.chars, matchRe re.chars (body l) = true → Ended l) ∧
        ∀ l ∈ (lines input.chars).dropWhile (fun l => Fits l),
          matchRe re.chars (body l) = false := by
  rw [grep_eq]
  set ls := lines input.chars with hls
  set m : List UInt8 → Bool := fun l => matchRe re.chars (body l) with hm
  have hsplit := List.takeWhile_append_dropWhile (p := fun l => decide (Fits l)) (l := ls)
  have hseen : seen input.chars = (ls.takeWhile fun l => Fits l).filter fun l => Ended l := rfl
  have hsub : ((seen input.chars).filter m).Sublist (ls.filter m) := by
    rw [hseen]
    exact (List.filter_sublist.trans (List.takeWhile_sublist _)).filter m
  constructor
  · intro heq
    have hne : ∀ l ∈ ls.filter m, l ≠ [] := fun l hl =>
      lines_ne_nil (List.mem_of_mem_filter hl)
    have hfilter := eq_of_sublist_flatten hsub hne (congrArg length heq)
    have hdrop : (ls.dropWhile fun l => Fits l).filter m = [] := by
      have hlen := congrArg length hfilter
      rw [← hsplit, List.filter_append, length_append, hseen] at hlen
      have hle := ((List.filter_sublist (p := fun l => decide (Ended l))
        (l := ls.takeWhile fun l => Fits l)).filter m).length_le
      exact List.length_eq_zero_iff.mp (by omega)
    refine ⟨fun l hl hml => ?_, fun l hl => ?_⟩
    · have hin : l ∈ (seen input.chars).filter m := hfilter ▸ List.mem_filter.mpr ⟨hl, hml⟩
      have hin := List.mem_of_mem_filter hin
      rw [hseen] at hin
      exact of_decide_eq_true (List.mem_filter.mp hin).2
    · exact Bool.eq_false_iff.mpr (List.filter_eq_nil_iff.mp hdrop l hl)
  · rintro ⟨hended, hdrop⟩
    have hfilter : (seen input.chars).filter m = ls.filter m := by
      have hnone : (ls.dropWhile fun l => Fits l).filter m = [] :=
        List.filter_eq_nil_iff.mpr fun l hl => Bool.eq_false_iff.mp (hdrop l hl)
      rw [← hsplit, List.filter_append, hnone, List.append_nil, hseen, List.filter_filter]
      apply List.filter_congr
      intro l hl
      have hmem : l ∈ ls := List.takeWhile_subset _ hl
      by_cases hml : m l = true
      · rw [hml, Bool.true_and]
        exact decide_eq_true (hended l hmem hml)
      · rw [Bool.eq_false_iff.mpr hml, Bool.false_and]
    exact congrArg List.flatten hfilter

/-- A text of one line without a newline: `grep` prints nothing, but the line matches. -/
theorem last_line_lost : ∃ re input : Str, ∀ wish buf, grep re.chars wish buf input.chars = [] ∧
      matching re.chars (lines input.chars) = [ 'a'.toUInt8] := by
  refine ⟨⟨[ 'a'.toUInt8], by decide⟩, ⟨[ 'a'.toUInt8], by decide⟩, fun wish buf => ?_⟩
  have hhere : matchhere [ 'a'.toUInt8] [ 'a'.toUInt8] = true :=
    (matchhere_once (by decide) (by decide) (by decide) (by decide)).mpr
      ⟨_, [], rfl, .inr rfl, matchhere_nil⟩
  have hmatch : matchRe [ 'a'.toUInt8] [ 'a'.toUInt8] = true := by
    rw [matchRe, if_neg (by decide), matchLoop, if_pos hhere]
  rw [grep_eq]
  refine ⟨?_, ?_⟩
  · rw [seen_unended (by decide)]
    rfl
  · have hlines : lines [ 'a'.toUInt8] = [[ 'a'.toUInt8]] := rfl
    have hbody : body [ 'a'.toUInt8] = [ 'a'.toUInt8] := rfl
    rw [hlines, matching, List.filter_cons_of_pos (by rw [hbody]; exact hmatch)]
    rfl

end Xv6Paging.Grep
