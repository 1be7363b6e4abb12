import Xv6Paging.Ipc.Pipe
import Xv6Paging.Vm.UserCopy

/-!
# What piperead delivers

`piperead` advances `nread` and then copies the byte out.  If the copy fails the byte has been taken
from the pipe but is not counted, so it is lost for every reader.  `pipewrite` does it the other way
round: it copies the byte in before it advances `nwrite`.
-/

namespace Xv6Paging

open StateHalt Circular

/-- The pipe, and the kernel with the memory of the reader. -/
structure PipeCall where
  pi : PipeBuf
  kernel : Kernel

/-- A function of the kernel that does not use the pipe. -/
def onKernel {α : Type} (m : KM α) : EStateM Halt PipeCall α := fun c =>
  match m c.kernel with
  | .ok a s => .ok a { c with kernel := s }
  | .error e s => .error e { c with kernel := s }

/-- The copying loop of `piperead`, with `n` rounds left. -/
def pipereadLoop (pagetable addr : Nat) : Nat → Nat → EStateM Halt PipeCall Nat
  | 0, i => pure i
  | n + 1, i => do
    if (← get).pi.Empty then pure i
    else do
      let ch := (← get).pi.next
      modify fun c => { c with pi := c.pi.fetch }
      if (← onKernel (copyout pagetable (addr + i) [ch])) = -1 then pure i
      else pipereadLoop pagetable addr n (i + 1)

/-- `piperead`: what it returns, or nothing if it sleeps; then it starts again with the pipe as it
is when it wakes up. -/
def piperead (pagetable addr : Nat) (n : Int) (killed : Bool) :
    EStateM Halt PipeCall (Option Int) := do
  let pi := (← get).pi
  if pi.Empty ∧ pi.writeopen = true then
    if killed then pure (some (-1)) else pure none
  else
    let i ← pipereadLoop pagetable addr n.toNat 0
    pure (some i)

/-- The number of bytes in the pipe. -/
def PipeBuf.available (pi : PipeBuf) : Nat := (pi.nwrite - pi.nread).toNat

/-- The `k`-th byte of the stream from here. -/
def PipeBuf.byte (pi : PipeBuf) (k : Nat) : UInt8 :=
  pi.data (slot pipesize (pi.nread + BitVec.ofNat 32 k))

/-- `nread` has advanced by `i`, and the next `i` bytes of the stream are at `addr`. -/
structure Delivered (pagetable addr i : Nat) (c c' : PipeCall) : Prop where
  nread : c'.pi.nread = c.pi.nread + BitVec.ofNat 32 i
  bytes : ∀ k < i, c'.kernel.userByte pagetable (addr + k) = c.pi.byte k

section Loop

variable {α : Type} {E : Halt → PipeCall → Prop} {c : PipeCall}

theorem wp_onKernel {m : KM α} {Q : α → PipeCall → Prop} :
    wp (onKernel m) Q E c ↔ wp m (fun a s => Q a { c with kernel := s })
      (fun e s => E e { c with kernel := s }) c.kernel := by
  unfold wp onKernel
  cases m c.kernel <;> rfl

theorem PipeBuf.available_fetch {pi : PipeBuf} (h : ¬pi.Empty) :
    pi.available = pi.fetch.available + 1 := by
  unfold available fetch Empty at *
  bv_omega

theorem PipeBuf.available_empty {pi : PipeBuf} (h : pi.Empty) : pi.available = 0 := by
  unfold available Empty at *
  bv_omega

theorem PipeBuf.byte_zero (pi : PipeBuf) : pi.byte 0 = pi.next := by
  rw [byte, next, BitVec.add_zero]

theorem PipeBuf.nread_fetch (pi : PipeBuf) (k : Nat) :
    pi.fetch.nread + BitVec.ofNat 32 k = pi.nread + BitVec.ofNat 32 (k + 1) := by
  unfold fetch
  bv_omega

theorem PipeBuf.byte_fetch (pi : PipeBuf) (k : Nat) : pi.fetch.byte k = pi.byte (k + 1) := by
  rw [byte, byte, nread_fetch]
  rfl

theorem PipeBuf.map_byte_succ (pi : PipeBuf) (k : Nat) :
    (List.range (k + 1)).map pi.byte = pi.next :: (List.range k).map pi.fetch.byte := by
  rw [List.range_succ_eq_map, List.map_cons, List.map_map, pi.byte_zero]
  congr 1
  exact List.map_congr_left fun j _ => (pi.byte_fetch j).symm

/-- What the loop has done when it has copied `k` of at most `m` bytes: one more byte was taken if
there was one more to copy. -/
structure Copied (r a m k : Nat) (c c' : PipeCall) : Prop where
  pi : c'.pi = { c.pi with nread := c.pi.nread + BitVec.ofNat 32 (if k = m then k else k + 1) }
  memory : CopiedBytes r a ((List.range k).map c.pi.byte) c.kernel c'.kernel

theorem Copied.none (r a : Nat) (c : PipeCall) : Copied r a 0 0 c c where
  pi := by simp
  memory := .refl r a c.kernel

theorem wp_pipereadLoop {r addr n : Nat} : ∀ {c : PipeCall} {i k : Nat},
    UserFrames (c.kernel.ptables r) →
    UpTo (c.kernel.ptables r) (addr + i) (min n c.pi.available) k →
    wp (pipereadLoop r addr n i) (fun res c' => res = i + k ∧
      Copied r (addr + i) (min n c.pi.available) k c c') (fun _ _ => False) c := by
  induction n with
  | zero =>
    intro c i k _ hk
    have hle := hk.le
    obtain rfl : k = 0 := by omega
    rw [Nat.zero_min]
    exact ⟨rfl, .none r _ c⟩
  | succ n ih =>
    intro c i k hf hk
    rw [pipereadLoop]
    simp only [wp_bind, wp_get]
    apply wp_ite <;> intro hempty
    · have hle := hk.le
      rw [PipeBuf.available_empty hempty, Nat.min_zero] at hle ⊢
      obtain rfl : k = 0 := by omega
      exact ⟨rfl, .none r _ c⟩
    have havail := PipeBuf.available_fetch hempty
    have hm : min (n + 1) c.pi.available = min n c.pi.fetch.available + 1 := by omega
    rw [hm] at hk ⊢
    simp only [wp_bind, wp_get, wp_modify, wp_onKernel]
    by_cases hfound : (c.kernel.ptables r).userPa (addr + i) = 0
    · -- the byte has been taken, but is not copied
      have hone : UpTo (c.kernel.ptables r) (addr + i) [c.pi.next].length 0 :=
        ⟨Nat.zero_le _, fun x h1 h2 => by omega, fun _ => hfound⟩
      obtain rfl := hk.first_missing hfound
      refine wp_post (copyout_upto hf.partial hone) ?_
      rintro ret s ⟨hret, hcopy⟩
      have hret : ret = -1 := hret
      rw [if_pos hret, wp_pure]
      refine ⟨rfl, rfl, hcopy fun x y h1 h2 => ?_⟩
      omega
    · have hone : UpTo (c.kernel.ptables r) (addr + i) [c.pi.next].length 1 := by
        refine ⟨le_rfl, fun x h1 h2 => ?_, fun h => absurd h (Nat.lt_irrefl 1)⟩
        rwa [show x = addr + i by omega]
      have hkpos : k ≠ 0 := by
        rintro rfl
        exact hfound (hk.stop (Nat.succ_pos _))
      obtain ⟨k, rfl⟩ := Nat.exists_eq_succ_of_ne_zero hkpos
      refine wp_post (copyout_upto hf.partial hone) ?_
      rintro ret s ⟨hret, hcopy⟩
      have hret : ret = 0 := hret
      rw [if_neg (by rw [hret]; decide)]
      have hbad := hk.firstBad hf
      have hdist := hbad.distinctPages hf
      have hcopy := hcopy fun x y h1 h2 h3 h4 => hdist x y h1 (by omega) h3 (by omega)
      have htab : s.ptables = c.kernel.ptables := by rw [hcopy.rest]
      -- the rest of the bytes
      have hrest : UpTo (s.ptables r) (addr + (i + 1)) (min n c.pi.fetch.available) k := by
        have hle := hk.le
        refine ⟨by omega, fun x h1 h2 => ?_, fun hlt => ?_⟩
        · rw [htab]
          exact hk.found x (by omega) (by omega)
        · have := hk.stop (by omega)
          rw [htab]
          rwa [show addr + (i + 1) + k = addr + i + (k + 1) by omega]
      have hf' : UserFrames (s.ptables r) := by rwa [htab]
      refine wp_post (ih (c := ⟨c.pi.fetch, s⟩) hf' hrest) ?_
      rintro res c' ⟨rfl, hpi, hmem⟩
      refine ⟨by omega, ?_, ?_⟩
      · rw [hpi]
        dsimp only
        rw [PipeBuf.nread_fetch]
        by_cases hkm : k = min n c.pi.fetch.available
        · rw [if_pos hkm, if_pos (congrArg Nat.succ hkm)]
          rfl
        · rw [if_neg hkm, if_neg fun h => hkm (Nat.succ.inj h)]
          rfl
      · rw [Nat.succ_eq_add_one, PipeBuf.map_byte_succ]
        have htrans := hcopy.trans hmem (fun _ => (Nat.add_assoc ..).symm) ?_
        · exact htrans
        · simpa [Nat.add_comm] using hdist

end Loop

/-- **`piperead` takes as many bytes as it delivers** exactly if all the bytes that it tries to copy
are on user pages: as many as are asked for and in the pipe. -/
theorem piperead_delivers_iff {c : PipeCall} {r : Nat} (hf : UserFrames (c.kernel.ptables r))
    (addr : Nat) (n : Int) (killed : Bool) :
    wp (piperead r addr n killed) (fun res c' => ∀ i : Nat, res = some (i : Int) →
      (Delivered r addr i c c' ↔ ∀ x, addr ≤ x → x < addr + min n.toNat c.pi.available →
          (c.kernel.ptables r).UserPage x)) (fun _ _ => False) c := by
  unfold piperead
  simp only [wp_bind, wp_get]
  apply wp_ite <;> intro hwait
  · cases killed
    · rw [if_neg (by decide), wp_pure]
      rintro i ⟨⟩
    · rw [if_pos rfl, wp_pure]
      intro i hi
      have := Option.some.inj hi
      omega
  · obtain ⟨k, hk⟩ := exists_upto (c.kernel.ptables r) (addr + 0) (min n.toNat c.pi.available)
    simp only [wp_bind]
    refine wp_post (wp_pipereadLoop hf hk) ?_
    rintro res c' ⟨rfl, hpi, hmem⟩ i hi
    obtain rfl : 0 + k = i := by
      have := Option.some.inj hi
      omega
    have hbad := hk.firstBad hf
    rw [Nat.add_zero] at hbad hmem
    rw [← hbad.all_iff, Nat.zero_add]
    constructor
    · intro hdel
      by_contra hne
      -- one byte more was taken
      have hnread := hdel.nread
      rw [hpi, if_neg hne] at hnread
      bv_omega
    · intro hall
      refine ⟨?_, fun j hj => ?_⟩
      · rw [hpi, if_pos hall]
      · rw [hmem.bytes j (by simpa using hj)]
        simp [List.getD, hj]

/-- A reader with one page, and a pipe with one byte. -/
def oneByteCall : PipeCall where
  pi := { data := fun _ => 65, nread := 0, nwrite := 1, readopen := true, writeopen := true }
  kernel := lonePageKernel

/-- The byte is delivered to the page. -/
theorem piperead_delivers_first : UserFrames (oneByteCall.kernel.ptables (samplePage 0)) ∧
    wp (piperead (samplePage 0) 0 1 false) (fun res c' => ∀ i : Nat, res = some (i : Int) →
      Delivered (samplePage 0) 0 i oneByteCall c') (fun _ _ => False) oneByteCall := by
  refine ⟨lonePage_userFrames, ?_⟩
  refine wp_post (piperead_delivers_iff lonePage_userFrames 0 1 false) fun res c' h i hi => ?_
  refine (h i hi).mpr fun x _ hx => ?_
  have hx : x < 0 + 1 := hx
  obtain rfl : x = 0 := by omega
  have htable : oneByteCall.kernel.ptables (samplePage 0) = sampleTable [(0, sampleUser 30)] :=
    lonePageKernel_table
  rw [htable]
  exact ⟨by decide, by decide, by decide⟩

/-- The page of the buffer is absent: `piperead` returns 0, and the byte is gone. -/
theorem piperead_loses_byte : wp (piperead (samplePage 0) 4096 1 false)
    (fun res c' => res = some 0 ∧ c'.pi.Empty ∧ ¬Delivered (samplePage 0) 4096 0 oneByteCall c')
    (fun _ _ => False) oneByteCall := by
  have hmissing : (oneByteCall.kernel.ptables (samplePage 0)).userPa (4096 + 0) = 0 := by
    have htable : oneByteCall.kernel.ptables (samplePage 0) = sampleTable [(0, sampleUser 30)] :=
      lonePageKernel_table
    rw [htable]
    exact PageTable.userPa_of_not_userPage fun h => absurd (lonePage_userPage h) (by decide)
  have hnone : UpTo (oneByteCall.kernel.ptables (samplePage 0)) (4096 + 0)
      (min 1 oneByteCall.pi.available) 0 :=
    ⟨Nat.zero_le _, fun x h1 h2 => by omega, fun _ => hmissing⟩
  unfold piperead
  simp only [wp_bind, wp_get]
  rw [if_neg (by decide)]
  refine wp_bind.mpr (wp_post (wp_pipereadLoop lonePage_userFrames hnone) ?_)
  rintro res c' ⟨rfl, hpi, -⟩
  refine ⟨rfl, ?_, fun hdel => ?_⟩
  · rw [hpi]
    decide
  · have hnread := hdel.nread
    rw [hpi] at hnread
    exact absurd hnread (by decide)

end Xv6Paging
