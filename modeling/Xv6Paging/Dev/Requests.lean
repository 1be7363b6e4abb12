import Mathlib.Data.Fintype.Card
import Mathlib.Data.List.Nodup
import Mathlib.Data.List.Perm.Basic
import Xv6Paging.Dev.VirtioDisk

/-!
# Disk requests in flight

A published request is in exactly one place: in the avail ring behind the device's counter, with the
device, or in the used ring behind the driver's counter.  It leaves the last one when its buffer's
flag is cleared, and its descriptors stay with the process until that process has seen the flag.

The two halves of the invariant are stated about a map from processes to requests: `Chains` says who
has which descriptors, `Published` which requests the rings and the device have.
-/

namespace Xv6Paging

open Circular
open List (mem_cons not_mem_nil)
open Function (update update_of_ne update_self)

section Requests

variable {ι β : Type} {F : ι → Option (β × Chain)} {d d' : VirtioDisk β} {b b' : β} {c c' : Chain}
  {i j : ι}

/-! ## Descriptors in use -/

/-- Three descriptors are linked. -/
structure Linked (desc : Fin numDesc → Desc β) (c : Chain) : Prop where
  head : (desc c.head).flags &&& vringDescFNext ≠ 0
  headNext : (desc c.head).next = c.mid
  mid : (desc c.mid).flags &&& vringDescFNext ≠ 0
  midNext : (desc c.mid).next = c.last
  last : (desc c.last).flags &&& vringDescFNext = 0

/-- The descriptors of a request: linked, with the addresses that the device follows, and
`disk.info` naming the buffer. -/
structure Formatted (d : VirtioDisk β) (b : β) (c : Chain) : Prop extends Linked d.desc c where
  midAddr : (d.desc c.mid).addr = .data b
  lastAddr : (d.desc c.last).addr = .status c.head
  info : (d.info c.head).b = some b

/-- The disk has the same in a descriptor and its `info`. -/
def SameAt (d d' : VirtioDisk β) (k : Fin numDesc) : Prop :=
  d'.desc k = d.desc k ∧ (d'.info k).b = (d.info k).b

theorem Chain.Distinct.ne (h : c.Distinct) : c.head ≠ c.mid ∧ c.head ≠ c.last ∧ c.mid ≠ c.last := by
  simp only [Chain.Distinct, Chain.descs, List.nodup_cons, mem_cons, not_mem_nil,
    or_false, not_or, List.nodup_nil, not_false_eq_true, and_true] at h
  exact ⟨h.1.1, h.1.2, h.2⟩

theorem Chain.head_mem (c : Chain) : c.head ∈ c.descs := by simp [Chain.descs]

theorem Formatted.congr (h : Formatted d b c) (hd : ∀ k ∈ c.descs, SameAt d d' k) :
    Formatted d' b c := by
  obtain ⟨hhead, hinfo⟩ := hd c.head c.head_mem
  obtain ⟨hmid, -⟩ := hd c.mid (by simp [Chain.descs])
  obtain ⟨hlast, -⟩ := hd c.last (by simp [Chain.descs])
  refine ⟨⟨?_, ?_, ?_, ?_, ?_⟩, ?_, ?_, ?_⟩
  · rw [hhead]; exact h.head
  · rw [hhead]; exact h.headNext
  · rw [hmid]; exact h.mid
  · rw [hmid]; exact h.midNext
  · rw [hlast]; exact h.last
  · rw [hmid]; exact h.midAddr
  · rw [hlast]; exact h.lastAddr
  · rw [hinfo]; exact h.info

/-- Every descriptor is free or belongs to one request, whose three descriptors are formatted. -/
structure Chains (F : ι → Option (β × Chain)) (d : VirtioDisk β) : Prop where
  distinct : ∀ i b c, F i = some (b, c) → c.Distinct
  formatted : ∀ i b c, F i = some (b, c) → Formatted d b c
  taken : ∀ k, d.free k = false ↔ ∃ i b c, F i = some (b, c) ∧ k ∈ c.descs
  disjoint : ∀ i j b b' c c', i ≠ j → F i = some (b, c) → F j = some (b', c') →
    c.descs.Disjoint c'.descs

namespace Chains

theorem congr (h : Chains F d) (hfree : d'.free = d.free)
    (hsame : ∀ k, d.free k = false → SameAt d d' k) : Chains F d' where
  distinct := h.distinct
  formatted i b c hi := (h.formatted i b c hi).congr fun k hk =>
    hsame k ((h.taken k).mpr ⟨i, b, c, hi, hk⟩)
  taken := by rw [hfree]; exact h.taken
  disjoint := h.disjoint

theorem notMem_of_free (h : Chains F d) (hfree : ∀ k ∈ c.descs, d.free k = true)
    (hj : F j = some (b', c')) : ∀ k ∈ c'.descs, k ∉ c.descs := by
  intro k hk hkc
  have hbusy := (h.taken k).mpr ⟨j, b', c', hj, hk⟩
  rw [hfree k hkc] at hbusy
  cases hbusy

theorem head_inj (h : Chains F d) (hi : F i = some (b, c)) (hj : F j = some (b', c'))
    (heq : c.head.val = c'.head.val) : i = j := by
  by_contra hne
  refine h.disjoint i j b b' c c' hne hi hj (a := c.head) c.head_mem ?_
  rw [Fin.ext heq]
  exact c'.head_mem

section Update

variable [DecidableEq ι]

theorem insert (h : Chains F d) (hnone : F i = none) (hd : c.Distinct)
    (hfree : ∀ k ∈ c.descs, d.free k = true) (hf : Formatted d' b c)
    (hfree' : ∀ k, d'.free k = false ↔ k ∈ c.descs ∨ d.free k = false)
    (hsame : ∀ k, k ∉ c.descs → SameAt d d' k) : Chains (update F i (some (b, c))) d' := by
  have hne : ∀ {j b' c'}, F j = some (b', c') → j ≠ i := by
    rintro j b' c' hj rfl
    rw [hnone] at hj
    cases hj
  -- a request of the new map is the new one or an old one
  have hcases : ∀ {j b' c'}, update F i (some (b, c)) j = some (b', c') →
      (j = i ∧ b' = b ∧ c' = c) ∨ (j ≠ i ∧ F j = some (b', c')) := by
    intro j b' c' hj
    by_cases hji : j = i
    · subst hji
      rw [update_self] at hj
      cases hj
      exact .inl ⟨rfl, rfl, rfl⟩
    · rw [update_of_ne hji] at hj
      exact .inr ⟨hji, hj⟩
  constructor
  · intro j b' c' hj
    rcases hcases hj with ⟨-, -, rfl⟩ | ⟨-, hj⟩
    · exact hd
    · exact h.distinct j b' c' hj
  · intro j b' c' hj
    rcases hcases hj with ⟨-, rfl, rfl⟩ | ⟨-, hj⟩
    · exact hf
    · exact (h.formatted j b' c' hj).congr fun k hk => hsame k (h.notMem_of_free hfree hj k hk)
  · intro k
    rw [hfree', h.taken]
    constructor
    · rintro (hkc | ⟨j, b', c', hj, hkc⟩)
      · exact ⟨i, b, c, update_self .., hkc⟩
      · exact ⟨j, b', c', by rw [update_of_ne (hne hj), hj], hkc⟩
    · rintro ⟨j, b', c', hj, hkc⟩
      rcases hcases hj with ⟨-, -, rfl⟩ | ⟨-, hj⟩
      · exact .inl hkc
      · exact .inr ⟨j, b', c', hj, hkc⟩
  · intro j j' b₁ b₂ c₁ c₂ hjj h₁ h₂
    rcases hcases h₁ with ⟨hj, -, rfl⟩ | ⟨-, hold₁⟩
    · rcases hcases h₂ with ⟨hj', -, -⟩ | ⟨-, hold₂⟩
      · exact absurd (hj.trans hj'.symm) hjj
      · exact fun k hk hk' => h.notMem_of_free hfree hold₂ k hk' hk
    · rcases hcases h₂ with ⟨-, -, rfl⟩ | ⟨-, hold₂⟩
      · exact fun k hk hk' => h.notMem_of_free hfree hold₁ k hk hk'
      · exact h.disjoint j j' b₁ b₂ c₁ c₂ hjj hold₁ hold₂

theorem erase (h : Chains F d) (hi : F i = some (b, c))
    (hfree' : ∀ k, d'.free k = false ↔ k ∉ c.descs ∧ d.free k = false)
    (hsame : ∀ k, k ∉ c.descs → SameAt d d' k) : Chains (update F i none) d' := by
  have hcases : ∀ {j b' c'}, update F i none j = some (b', c') →
      j ≠ i ∧ F j = some (b', c') := by
    intro j b' c' hj
    by_cases hji : j = i
    · subst hji
      rw [update_self] at hj
      cases hj
    · rw [update_of_ne hji] at hj
      exact ⟨hji, hj⟩
  have hout : ∀ {j b' c'}, j ≠ i → F j = some (b', c') → ∀ k ∈ c'.descs, k ∉ c.descs :=
    fun hji hj k hk hkc => h.disjoint _ _ _ _ _ _ hji hj hi hk hkc
  constructor
  · exact fun j b' c' hj => h.distinct j b' c' (hcases hj).2
  · intro j b' c' hj
    obtain ⟨hji, hj⟩ := hcases hj
    exact (h.formatted j b' c' hj).congr fun k hk => hsame k (hout hji hj k hk)
  · intro k
    rw [hfree', h.taken]
    constructor
    · rintro ⟨hk, j, b', c', hj, hkc⟩
      have hji : j ≠ i := by
        rintro rfl
        rw [hi] at hj
        cases hj
        exact hk hkc
      exact ⟨j, b', c', by rw [update_of_ne hji, hj], hkc⟩
    · rintro ⟨j, b', c', hj, hkc⟩
      obtain ⟨hji, hj⟩ := hcases hj
      exact ⟨hout hji hj k hkc, j, b', c', hj, hkc⟩
  · exact fun j j' b₁ b₂ c₁ c₂ hne h₁ h₂ =>
      h.disjoint j j' b₁ b₂ c₁ c₂ hne (hcases h₁).2 (hcases h₂).2

end Update

end Chains

/-! ## Requests with the rings and the device -/

/-- The list has the first descriptors of the requests whose flag is set, each once. -/
structure Published (F : ι → Option (β × Chain)) (flag : β → Bool) (Q : List Nat) : Prop where
  nodup : Q.Nodup
  mem_iff : ∀ h, h ∈ Q ↔ ∃ i b c, F i = some (b, c) ∧ flag b = true ∧ h = c.head

namespace Published

variable {flag : β → Bool} {Q R : List Nat}

theorem perm (h : Published F flag Q) (hp : Q.Perm R) : Published F flag R :=
  ⟨hp.nodup_iff.mp h.nodup, fun k => by rw [← hp.mem_iff, h.mem_iff]⟩

theorem length_le (h : Published F flag Q) : Q.length ≤ numDesc := by
  have hsub : Q ⊆ List.range numDesc := by
    intro k hk
    obtain ⟨_, _, c, _, _, rfl⟩ := (h.mem_iff k).mp hk
    exact List.mem_range.mpr c.head.isLt
  have := (List.subperm_of_subset h.nodup hsub).length_le
  rwa [List.length_range] at this

theorem insert [DecidableEq ι] [DecidableEq β] (h : Published F flag Q) (hnone : F i = none)
    (hb : ∀ j c', F j ≠ some (b, c')) (hnew : c.head.val ∉ Q) :
    Published (update F i (some (b, c))) (update flag b true) (c.head.val :: Q) := by
  refine ⟨List.nodup_cons.mpr ⟨hnew, h.nodup⟩, fun k => ?_⟩
  rw [mem_cons, h.mem_iff]
  constructor
  · rintro (rfl | ⟨j, b', c', hj, hf, rfl⟩)
    · exact ⟨i, b, c, update_self .., update_self .., rfl⟩
    · have hji : j ≠ i := by
        rintro rfl
        rw [hnone] at hj
        cases hj
      have hbb : b' ≠ b := by
        rintro rfl
        exact hb j c' hj
      refine ⟨j, b', c', ?_, ?_, rfl⟩
      · rw [update_of_ne hji, hj]
      · rw [update_of_ne hbb, hf]
  · rintro ⟨j, b', c', hj, hf, rfl⟩
    by_cases hji : j = i
    · subst hji
      rw [update_self] at hj
      cases hj
      exact .inl rfl
    · rw [update_of_ne hji] at hj
      have hbb : b' ≠ b := by
        rintro rfl
        exact hb j c' hj
      rw [update_of_ne hbb] at hf
      exact .inr ⟨j, b', c', hj, hf, rfl⟩

theorem clear [DecidableEq β] (h : Published F flag (c.head.val :: Q)) (hi : F i = some (b, c))
    (hbuf : ∀ j c', F j = some (b, c') → j = i)
    (hhead : ∀ j b' c', F j = some (b', c') → c'.head.val = c.head.val → j = i) :
    Published F (update flag b false) Q := by
  obtain ⟨hnew, hnodup⟩ := List.nodup_cons.mp h.nodup
  refine ⟨hnodup, fun k => ?_⟩
  constructor
  · intro hk
    obtain ⟨j, b', c', hj, hf, rfl⟩ := (h.mem_iff k).mp (List.mem_cons_of_mem _ hk)
    have hbb : b' ≠ b := by
      rintro rfl
      have hji := hbuf j c' hj
      subst hji
      rw [hi] at hj
      cases hj
      exact hnew hk
    exact ⟨j, b', c', hj, by rw [update_of_ne hbb, hf], rfl⟩
  · rintro ⟨j, b', c', hj, hf, rfl⟩
    have hbb : b' ≠ b := by
      rintro rfl
      rw [update_self] at hf
      cases hf
    rw [update_of_ne hbb] at hf
    rcases List.mem_cons.mp ((h.mem_iff _).mpr ⟨j, b', c', hj, hf, rfl⟩) with heq | hmem
    · have hji := hhead j b' c' hj heq
      subst hji
      rw [hi] at hj
      cases hj
      exact absurd rfl hbb
    · exact hmem

theorem erase [DecidableEq ι] (h : Published F flag Q) (hi : F i = some (b, c))
    (hf : flag b = false) : Published (update F i none) flag Q := by
  refine ⟨h.nodup, fun k => ?_⟩
  rw [h.mem_iff]
  constructor
  · rintro ⟨j, b', c', hj, hf', rfl⟩
    have hji : j ≠ i := by
      rintro rfl
      rw [hi] at hj
      cases hj
      rw [hf] at hf'
      cases hf'
    exact ⟨j, b', c', by rw [update_of_ne hji, hj], hf', rfl⟩
  · rintro ⟨j, b', c', hj, hf', rfl⟩
    by_cases hji : j = i
    · subst hji
      rw [update_self] at hj
      cases hj
    · rw [update_of_ne hji] at hj
      exact ⟨j, b', c', hj, hf', rfl⟩

end Published

end Requests

/-! ## The driver's functions -/

namespace VirtioSystem

variable {ι β : Type} {s t u : VirtioSystem ι β} {b : β} {c : Chain} {i : ι}

/-- The request of a process. -/
def inFlight (s : VirtioSystem ι β) (i : ι) : Option (β × Chain) := (s.pc i).inFlight

theorem buf_of_inFlight (h : s.inFlight i = some (b, c)) : (s.pc i).buf = some b := by
  unfold VirtioSystem.inFlight at h
  cases hpc : s.pc i <;> rw [hpc] at h <;> cases h <;> rfl

theorem inFlight_goto [DecidableEq ι] (s : VirtioSystem ι β) (i : ι) (pc : RwPc β) :
    (s.goto i pc).inFlight = update s.inFlight i pc.inFlight := by
  funext j
  by_cases hj : j = i
  · subst hj
    simp [inFlight, goto]
  · simp [inFlight, goto, hj]

/-- Only descriptors that were free, the lock and the places of processes have changed, and these
concern the same buffers and requests as before. -/
structure Shuffled (s t : VirtioSystem ι β) : Prop where
  rest : t = { s with
    lock := t.lock
    pc := t.pc
    disk := { s.disk with desc := t.disk.desc, free := t.disk.free } }
  desc : ∀ k, s.disk.free k = false → t.disk.desc k = s.disk.desc k
  buf : ∀ j, (t.pc j).buf = (s.pc j).buf
  inFlight : t.inFlight = s.inFlight

/-- The free descriptors are the same as well. -/
structure Unmoved (s t : VirtioSystem ι β) : Prop extends Shuffled s t where
  free : t.disk.free = s.disk.free

theorem Shuffled.refl (s : VirtioSystem ι β) : Shuffled s s :=
  ⟨rfl, fun _ _ => rfl, fun _ => rfl, rfl⟩

theorem Unmoved.goto [DecidableEq ι] (l : Option (VdiskOwner ι)) {pc : RwPc β}
    (hbuf : pc.buf = (s.pc i).buf) (hin : pc.inFlight = (s.pc i).inFlight) :
    Unmoved s (({ s with lock := l } : VirtioSystem ι β).goto i pc) := by
  refine ⟨⟨rfl, fun _ _ => rfl, fun j => ?_, funext fun j => ?_⟩, rfl⟩
  · by_cases hj : j = i
    · subst hj
      simpa [VirtioSystem.goto] using hbuf
    · simp [VirtioSystem.goto, hj]
  · by_cases hj : j = i
    · subst hj
      simpa [VirtioSystem.inFlight, VirtioSystem.goto] using hin
    · simp [VirtioSystem.inFlight, VirtioSystem.goto, hj]

section Descriptors

variable {k : Fin numDesc}

variable [DecidableEq β]

theorem inFlight_wakeup (s : VirtioSystem ι β) (ch : RwChan β) :
    (s.wakeup ch).inFlight = s.inFlight := by
  funext j
  simp only [inFlight, wakeup]
  split
  · exact RwPc.inFlight_rouse _
  · rfl

theorem buf_wakeup (s : VirtioSystem ι β) (ch : RwChan β) (j : ι) :
    ((s.wakeup ch).pc j).buf = (s.pc j).buf := by
  simp only [wakeup]
  split
  · exact RwPc.buf_rouse _
  · rfl

theorem inFlight_freed (s : VirtioSystem ι β) (k : Fin numDesc) :
    (s.freed k).inFlight = s.inFlight := inFlight_wakeup _ .free

theorem buf_freed (s : VirtioSystem ι β) (k : Fin numDesc) (j : ι) :
    ((s.freed k).pc j).buf = (s.pc j).buf := buf_wakeup _ .free j

/-- The descriptor is not free any more. -/
def take (s : VirtioSystem ι β) (k : Fin numDesc) : VirtioSystem ι β :=
  { s with disk.free := update s.disk.free k false }

/-- The three descriptors are not free any more. -/
def takeChain (s : VirtioSystem ι β) (c : Chain) : VirtioSystem ι β :=
  ((s.take c.head).take c.mid).take c.last

omit [DecidableEq β] in
theorem Shuffled.take (h : Shuffled s t) (k : Fin numDesc) : Shuffled s (t.take k) := by
  refine ⟨?_, h.desc, h.buf, h.inFlight⟩
  have hrest := h.rest
  generalize t.lock = l, t.pc = pc, t.disk.desc = d, t.disk.free = f at hrest
  rw [hrest]
  rfl

theorem Shuffled.freed (h : Shuffled s t) (hk : s.disk.free k = true) : Shuffled s (t.freed k) := by
  refine ⟨?_, fun j hj => ?_, fun j => ?_, ?_⟩
  · have hrest := h.rest
    generalize t.lock = l, t.pc = pc, t.disk.desc = d, t.disk.free = f at hrest
    rw [hrest]
    rfl
  · have hne : j ≠ k := by
      rintro rfl
      rw [hk] at hj
      cases hj
    show update t.disk.desc k .zero j = _
    rw [update_of_ne hne, h.desc j hj]
  · rw [buf_freed]
    exact h.buf j
  · rw [inFlight_freed]
    exact h.inFlight

omit [DecidableEq β] in
theorem allocDesc_eq_some (h : s.allocDesc = some (k, t)) :
    s.disk.free k = true ∧ t = s.take k := by
  unfold allocDesc at h
  split at h
  · rename_i k' hfind
    cases h
    exact ⟨by simpa using List.find?_some hfind, rfl⟩
  · cases h

theorem freeDesc_eq {k : Fin numDesc} (h : s.disk.free k = false) :
    s.freeDesc k = .ok (s.freed k) := by
  unfold freeDesc
  rw [dif_pos k.isLt]
  simp [h]

/-- **`alloc3_desc`** takes three free descriptors, or it fails and leaves the free ones free. -/
theorem alloc3Desc_spec (s : VirtioSystem ι β) :
    (∃ c : Chain, s.alloc3Desc = .ok (some c, s.takeChain c) ∧
      c.Distinct ∧ ∀ k ∈ c.descs, s.disk.free k = true) ∨
    ∃ t, s.alloc3Desc = .ok (none, t) ∧ Unmoved s t := by
  unfold alloc3Desc
  cases h0 : s.allocDesc with
  | none => exact .inr ⟨s, rfl, .refl s, rfl⟩
  | some r0 =>
    obtain ⟨k0, s1⟩ := r0
    obtain ⟨hk0, rfl⟩ := allocDesc_eq_some h0
    dsimp only
    cases h1 : (s.take k0).allocDesc with
    | none =>
      refine .inr ⟨(s.take k0).freed k0, ?_, ((Shuffled.refl s).take k0).freed hk0, ?_⟩
      · rw [freeDesc_eq (by simp [take])]
        rfl
      · simp [VirtioSystem.freed, wakeup, take, ← hk0]
    | some r1 =>
      obtain ⟨k1, s2⟩ := r1
      obtain ⟨hk1, rfl⟩ := allocDesc_eq_some h1
      have h10 : k1 ≠ k0 := by
        rintro rfl
        simp [take] at hk1
      have hk1' : s.disk.free k1 = true := by simpa [take, h10] using hk1
      dsimp only
      cases h2 : ((s.take k0).take k1).allocDesc with
      | none =>
        refine .inr ⟨(((s.take k0).take k1).freed k0).freed k1, ?_,
          ((((Shuffled.refl s).take k0).take k1).freed hk0).freed hk1', ?_⟩
        · rw [freeDesc_eq (by simp [take, h10.symm])]
          show (do
            let t ← (((s.take k0).take k1).freed k0).freeDesc k1
            return (none, t)) = _
          rw [freeDesc_eq (by simp [VirtioSystem.freed, wakeup, take, h10])]
          rfl
        · funext j
          by_cases hj1 : j = k1
          · subst hj1
            simp [VirtioSystem.freed, wakeup, hk1']
          · by_cases hj0 : j = k0
            · subst hj0
              simp [VirtioSystem.freed, wakeup, hj1, hk0]
            · simp [VirtioSystem.freed, wakeup, take, hj1, hj0]
      | some r2 =>
        obtain ⟨k2, s3⟩ := r2
        obtain ⟨hk2, rfl⟩ := allocDesc_eq_some h2
        have h21 : k2 ≠ k1 := by
          rintro rfl
          simp [take] at hk2
        have h20 : k2 ≠ k0 := by
          rintro rfl
          simp [take, h21] at hk2
        have hk2' : s.disk.free k2 = true := by simpa [take, h21, h20] using hk2
        refine .inl ⟨⟨k0, k1, k2⟩, rfl, ?_, ?_⟩
        · simp [Chain.Distinct, Chain.descs, h10.symm, h20.symm, h21.symm]
        · intro k hk
          simp only [Chain.descs, mem_cons, not_mem_nil, or_false] at hk
          rcases hk with rfl | rfl | rfl
          · exact hk0
          · exact hk1'
          · exact hk2'

omit [DecidableEq β] in
theorem takeChain_free (k : Fin numDesc) : (s.takeChain c).disk.free k = false ↔
      k ∈ c.descs ∨ s.disk.free k = false := by
  simp only [takeChain, take, Function.update_apply, Chain.descs, mem_cons,
    not_mem_nil, or_false]
  split
  · simp [*]
  · split
    · simp [*]
    · split <;> simp [*]

omit [DecidableEq β] in
theorem formatDesc_of_notMem {d : Fin numDesc → Desc β} {a : RwArgs β}
    (hk : k ∉ c.descs) : formatDesc d a c k = d k := by
  simp only [Chain.descs, mem_cons, not_mem_nil, or_false, not_or] at hk
  simp [formatDesc, hk.1, hk.2.1, hk.2.2]

theorem formatted_format (s : VirtioSystem ι β) (a : RwArgs β) (hd : c.Distinct) :
    Formatted (s.format a c).disk a.b c := by
  obtain ⟨hhm, hhl, hml⟩ := hd.ne
  refine ⟨⟨?_, ?_, ?_, ?_, ?_⟩, ?_, ?_, ?_⟩ <;> simp [format, formatDesc, hhm, hhl, hml]
  · cases a.write <;> decide

theorem freed3_free (k : Fin numDesc) :
    (((s.freed c.head).freed c.mid).freed c.last).disk.free k = false ↔
      k ∉ c.descs ∧ s.disk.free k = false := by
  simp only [VirtioSystem.freed, wakeup, Function.update_apply, Chain.descs, mem_cons,
    not_mem_nil, or_false]
  split
  · simp [*]
  · split
    · simp [*]
    · split <;> simp [*]

theorem freed3_same (hk : k ∉ c.descs) :
    SameAt s.disk ((((s.forget c.head).freed c.head).freed c.mid).freed c.last).disk k := by
  simp only [Chain.descs, mem_cons, not_mem_nil, or_false, not_or] at hk
  obtain ⟨hh, hm, hl⟩ := hk
  constructor <;> simp [VirtioSystem.freed, wakeup, forget, hh, hm, hl]

theorem freeChain_next {k : Fin numDesc} {rounds : Nat} (hk : s.disk.free k = false)
    (hflag : (s.disk.desc k).flags &&& vringDescFNext ≠ 0) :
    s.freeChain k (rounds + 1) = (s.freed k).freeChain (s.disk.desc k).next rounds := by
  rw [freeChain, dif_pos k.isLt, freeDesc_eq hk]
  exact if_pos hflag

theorem freeChain_last {k : Fin numDesc} {rounds : Nat} (hk : s.disk.free k = false)
    (hflag : (s.disk.desc k).flags &&& vringDescFNext = 0) :
    s.freeChain k (rounds + 1) = .ok (s.freed k) := by
  rw [freeChain, dif_pos k.isLt, freeDesc_eq hk]
  exact if_neg (not_not.mpr hflag)

/-- **`free_chain`** frees the three descriptors of a request. -/
theorem freeChain_linked (hd : c.Distinct) (hf : Linked s.disk.desc c)
    (hk : ∀ k ∈ c.descs, s.disk.free k = false) :
    s.freeChain c.head numDesc = .ok (((s.freed c.head).freed c.mid).freed c.last) := by
  obtain ⟨hhm, hhl, hml⟩ := hd.ne
  have hmid : (s.freed c.head).disk.desc c.mid = s.disk.desc c.mid := by
    simp [VirtioSystem.freed, wakeup, Ne.symm hhm]
  have hlast : ((s.freed c.head).freed c.mid).disk.desc c.last = s.disk.desc c.last := by
    simp [VirtioSystem.freed, wakeup, Ne.symm hhl, Ne.symm hml]
  have hkh := hk c.head (by simp [Chain.descs])
  have hkm := hk c.mid (by simp [Chain.descs])
  have hkl := hk c.last (by simp [Chain.descs])
  have hkm' : (s.freed c.head).disk.free c.mid = false := by
    simp [VirtioSystem.freed, wakeup, Ne.symm hhm, hkm]
  have hkl' : ((s.freed c.head).freed c.mid).disk.free c.last = false := by
    simp [VirtioSystem.freed, wakeup, Ne.symm hhl, Ne.symm hml, hkl]
  calc s.freeChain c.head (7 + 1)
      = (s.freed c.head).freeChain c.mid (6 + 1) := by
        rw [freeChain_next hkh hf.head, hf.headNext]
    _ = ((s.freed c.head).freed c.mid).freeChain c.last (5 + 1) := by
        rw [freeChain_next hkm' (by rw [hmid]; exact hf.mid), hmid, hf.midNext]
    _ = .ok (((s.freed c.head).freed c.mid).freed c.last) :=
        freeChain_last hkl' (by rw [hlast]; exact hf.last)

end Descriptors

end VirtioSystem

open VirtioSystem

/-! ## The invariant -/

/-- What holds in every state. -/
structure VirtioInv {ι β : Type} (s : VirtioSystem ι β) : Prop where
  running : s.crashed = none
  /-- callers have locked the buffer -/
  owned : ∀ i b, (s.pc i).buf = some b → s.owner b = some i
  chains : Chains s.inFlight s.disk
  flagged : ∀ b, s.flag b = true → ∃ i c, s.inFlight i = some (b, c)
  counted : ∀ b, s.requests b = s.clears b + if s.flag b then 1 else 0
  queued : ∃ A U, Holds s.disk.availRing s.seen s.disk.availIdx A ∧
    Holds s.disk.usedRing s.disk.usedIdx s.disk.usedRingIdx U ∧
    Published s.inFlight s.flag (A ++ s.working ++ U) ∧
    ∀ k : Fin numDesc, k.val ∈ U → (s.disk.info k).status = 0

namespace VirtioInv

variable {ι β : Type} {s t : VirtioSystem ι β} {b b' : β} {c c' : Chain} {i j : ι}

theorem init : VirtioInv (.init : VirtioSystem ι β) where
  running := rfl
  owned _ _ h := by cases h
  chains :=
    { distinct := fun _ _ _ h => by cases h
      formatted := fun _ _ _ h => by cases h
      taken := fun k => ⟨fun h => (by cases h), fun ⟨_, _, _, h, _⟩ => (by cases h)⟩
      disjoint := fun _ _ _ _ _ _ _ h => by cases h }
  flagged _ h := by cases h
  counted _ := rfl
  queued := by
    refine ⟨[], [], .nil _ _, .nil _ _, ⟨List.nodup_nil, fun h => ?_⟩, fun _ h => (by cases h)⟩
    exact ⟨fun hm => (by cases hm), fun ⟨_, _, _, hin, _⟩ => (by cases hin)⟩

theorem inFlight_inj (h : VirtioInv s) (hi : s.inFlight i = some (b, c))
    (hj : s.inFlight j = some (b, c')) : i = j := by
  have hoi := h.owned i b (buf_of_inFlight hi)
  have hoj := h.owned j b (buf_of_inFlight hj)
  rw [hoi] at hoj
  exact Option.some.inj hoj

/-- The changes that leave the requests alone leave the invariant. -/
theorem unmoved (h : VirtioInv s) (hu : Unmoved s t) : VirtioInv t := by
  have hinfo : t.disk.info = s.disk.info := by rw [hu.rest]
  have hflag : t.flag = s.flag := by rw [hu.rest]
  constructor
  · rw [hu.rest]
    exact h.running
  · intro j b hb
    rw [hu.buf] at hb
    rw [hu.rest]
    exact h.owned j b hb
  · rw [hu.inFlight]
    exact h.chains.congr hu.free fun k hk => ⟨hu.desc k hk, by rw [hinfo]⟩
  · rw [hu.inFlight, hflag]
    exact h.flagged
  · rw [hu.rest]
    exact h.counted
  · rw [hu.inFlight]
    have hqueued := h.queued
    generalize s.inFlight = F at hqueued ⊢
    rw [hu.rest]
    exact hqueued

section Steps

variable [DecidableEq ι] [DecidableEq β]

section

variable (h : VirtioInv s)
include h

/-- **A request is published.**  Its descriptors were free, its buffer had no other request, and
there is room in the ring because its head is not that of another one. -/
theorem publish {a : RwArgs β} (hpc : s.pc i = .allocating a) (hd : c.Distinct)
    (hfree : ∀ k ∈ c.descs, s.disk.free k = true) :
    VirtioInv (((s.takeChain c).format a c).goto i (.waiting a.b c)) := by
  have howner : s.owner a.b = some i := h.owned i a.b (by rw [hpc]; rfl)
  have hnone : s.inFlight i = none := by
    rw [VirtioSystem.inFlight, hpc]
    rfl
  have hnobuf : ∀ j c', s.inFlight j ≠ some (a.b, c') := by
    intro j c' hj
    have hoj := h.owned j a.b (buf_of_inFlight hj)
    rw [howner] at hoj
    cases hoj
    rw [hnone] at hj
    cases hj
  have hflag : s.flag a.b = false := by
    by_contra hset
    obtain ⟨j, c', hj⟩ := h.flagged a.b (by simpa using hset)
    exact hnobuf j c' hj
  set u := (s.takeChain c).format a c with hu
  have hin : (u.goto i (.waiting a.b c)).inFlight =
      update s.inFlight i (some (a.b, c)) := inFlight_goto ..
  constructor
  · exact h.running
  · intro j b' hb
    refine h.owned j b' ?_
    by_cases hj : j = i
    · subst hj
      rw [hpc]
      simpa [VirtioSystem.goto, RwPc.buf] using hb
    · simpa [hu, VirtioSystem.goto, VirtioSystem.format, takeChain, VirtioSystem.take, hj] using hb
  · rw [hin]
    refine h.chains.insert hnone hd hfree (formatted_format _ a hd) takeChain_free fun k hk => ?_
    refine ⟨formatDesc_of_notMem hk, ?_⟩
    have hkh : k ≠ c.head := by
      rintro rfl
      exact hk c.head_mem
    show ((update s.disk.info c.head _) k).b = _
    rw [update_of_ne hkh]
  · intro b' hb'
    rw [hin]
    by_cases hb : b' = a.b
    · exact ⟨i, c, by rw [hb, update_self]⟩
    · have hset : s.flag b' = true := by
        simpa [hu, VirtioSystem.goto, VirtioSystem.format, takeChain, VirtioSystem.take, hb]
          using hb'
      obtain ⟨j, c', hj⟩ := h.flagged b' hset
      refine ⟨j, c', ?_⟩
      rw [update_of_ne (by rintro rfl; rw [hnone] at hj; cases hj)]
      exact hj
  · intro b'
    have hcount := h.counted b'
    by_cases hb : b' = a.b
    · subst hb
      rw [hflag] at hcount
      simpa [hu, VirtioSystem.goto, VirtioSystem.format, takeChain, VirtioSystem.take] using hcount
    · simpa [hu, VirtioSystem.goto, VirtioSystem.format, takeChain, VirtioSystem.take, hb]
        using hcount
  · obtain ⟨A, U, hA, hU, hQ, hstatus⟩ := h.queued
    have hnew : c.head.val ∉ A ++ s.working ++ U := by
      intro hmem
      obtain ⟨j, b', c', hj, _, heq⟩ := (hQ.mem_iff _).mp hmem
      refine h.chains.notMem_of_free hfree hj c'.head c'.head_mem ?_
      rw [← Fin.ext heq]
      exact c.head_mem
    have hQ' := hQ.insert hnone hnobuf hnew
    have hroom : A.length < numDesc := by
      have := hQ'.length_le
      simp only [List.length_cons, List.length_append] at this
      omega
    have hperm : (c.head.val :: (A ++ s.working ++ U)).Perm
        ((A ++ [c.head.val]) ++ s.working ++ U) := by
      simp only [List.append_assoc, List.singleton_append]
      exact List.perm_middle.symm
    rw [hin]
    refine ⟨A ++ [c.head.val], U, hA.push hroom _, hU, hQ'.perm hperm, fun k hk => ?_⟩
    have hkh : k ≠ c.head := by
      rintro rfl
      exact hnew (List.mem_append_right _ hk)
    show ((update s.disk.info c.head _) k).status = 0
    rw [update_of_ne hkh]
    exact hstatus k hk

omit [DecidableEq ι] [DecidableEq β] in
/-- **The device reads a request** from the avail ring. -/
theorem fetched (ha : s.seen ≠ s.disk.availIdx) : VirtioInv s.fetch := by
  obtain ⟨A, U, hA, hU, hQ, hstatus⟩ := h.queued
  refine ⟨h.running, h.owned, h.chains, h.flagged, h.counted, ?_⟩
  cases A with
  | nil => exact absurd (hA.eq_nil_iff.mpr rfl) ha
  | cons k A =>
    have hperm : (k :: A ++ s.working ++ U).Perm (A ++ (s.working ++ [k]) ++ U) := by
      have hmid : (A ++ s.working ++ k :: U).Perm (k :: (A ++ s.working ++ U)) := List.perm_middle
      simpa using hmid.symm
    refine ⟨A, U, hA.pop, hU, ?_, hstatus⟩
    show Published _ _ (A ++ (s.working ++ [s.disk.availRing (slot numDesc s.seen)]) ++ U)
    rw [hA.head]
    exact hQ.perm hperm

omit [DecidableEq ι] [DecidableEq β] in
theorem writeStatus_eq (hi : s.inFlight i = some (b, c)) :
    s.disk.writeStatus c.head =
      { s.disk with info := update s.disk.info c.head ⟨(s.disk.info c.head).b, 0⟩ } := by
  have hf := h.chains.formatted i b c hi
  have hat : ∀ k : Fin numDesc, s.disk.descAt k = s.disk.desc k := fun k => dif_pos k.isLt
  unfold VirtioDisk.writeStatus
  rw [hat, hf.headNext, hat, hf.midNext, hat, hf.lastAddr]

omit [DecidableEq ι] [DecidableEq β] in
/-- **The device finishes a request**: it writes the status and an entry of the used ring. -/
theorem served {k : Nat} (hk : k ∈ s.working) : VirtioInv (s.serve k) := by
  obtain ⟨A, U, hA, hU, hQ, hstatus⟩ := h.queued
  have hmem : k ∈ A ++ s.working ++ U := List.mem_append_left _ (List.mem_append_right _ hk)
  obtain ⟨i, b, c, hi, -, rfl⟩ := (hQ.mem_iff _).mp hmem
  have hdisk := h.writeStatus_eq hi
  have hinfo : ∀ k, ((s.serve c.head).disk.info k).b = (s.disk.info k).b := by
    intro k
    show ((s.disk.writeStatus c.head).info k).b = _
    rw [hdisk]
    by_cases hkh : k = c.head
    · subst hkh
      simp
    · simp [hkh]
  refine ⟨h.running, h.owned, ?_, h.flagged, h.counted, ?_⟩
  · refine h.chains.congr ?_ fun k _ => ⟨?_, hinfo k⟩
    · show (s.disk.writeStatus c.head).free = _
      rw [hdisk]
    · show (s.disk.writeStatus c.head).desc k = _
      rw [hdisk]
  · have hperm : (A ++ s.working ++ U).Perm
        (A ++ s.working.erase c.head.val ++ (U ++ [c.head.val])) := by
      have h1 := ((List.perm_cons_erase hk).append_left A).append_right U
      simp only [List.append_assoc, List.cons_append] at h1 ⊢
      refine h1.trans (List.Perm.append_left A ?_)
      rw [← List.append_assoc]
      exact (List.perm_append_singleton _ _).symm
    have hroom : U.length < numDesc := by
      have hlen := hQ.length_le
      have hpos := List.length_pos_of_mem hk
      simp only [List.length_append] at hlen
      omega
    refine ⟨A, U ++ [c.head.val], ?_, ?_, hQ.perm hperm, fun k hkU => ?_⟩
    · show Holds (s.disk.writeStatus c.head).availRing _ (s.disk.writeStatus c.head).availIdx A
      rw [hdisk]
      exact hA
    · show Holds (update (s.disk.writeStatus c.head).usedRing
        (slot numDesc (s.disk.writeStatus c.head).usedRingIdx) c.head.val)
        (s.disk.writeStatus c.head).usedIdx ((s.disk.writeStatus c.head).usedRingIdx + 1) _
      rw [hdisk]
      exact hU.push hroom _
    · show ((s.disk.writeStatus c.head).info k).status = 0
      rw [hdisk]
      by_cases hkh : k = c.head
      · subst hkh
        simp
      · have hmem : k.val ∈ U := by
          rcases List.mem_append.mp hkU with hmem | hmem
          · exact hmem
          · exact absurd (Fin.ext (List.mem_singleton.mp hmem)) hkh
        simpa [hkh] using hstatus k hmem

omit [DecidableEq ι] in
/-- **The interrupt handler notes a completion**: the entry is that of a request, whose status is 0
and whose buffer is recorded. -/
theorem completed (hu : s.disk.usedIdx ≠ s.disk.usedRingIdx) :
    ∃ i b c, s.inFlight i = some (b, c) ∧ s.flag b = true ∧
      s.disk.usedRing (slot numDesc s.disk.usedIdx) = c.head ∧
      s.intrRound = .ok (s.complete b) ∧ VirtioInv (s.complete b) := by
  obtain ⟨A, U, hA, hU, hQ, hstatus⟩ := h.queued
  cases U with
  | nil => exact absurd (hU.eq_nil_iff.mpr rfl) hu
  | cons k U =>
    have hhead := hU.head
    have hmem : k ∈ A ++ s.working ++ k :: U := List.mem_append_right _ List.mem_cons_self
    obtain ⟨i, b, c, hi, hflag, rfl⟩ := (hQ.mem_iff _).mp hmem
    have hf := h.chains.formatted i b c hi
    have hround : s.intrRound = .ok (s.complete b) := by
      unfold VirtioSystem.intrRound
      simp only [hhead]
      rw [dif_pos c.head.isLt, if_neg (not_not.mpr (hstatus c.head List.mem_cons_self)), hf.info]
    have hin : (s.complete b).inFlight = s.inFlight := inFlight_wakeup s (.buf b)
    refine ⟨i, b, c, hi, hflag, hhead, hround, ?_⟩
    constructor
    · exact h.running
    · intro j b' hb
      refine h.owned j b' ?_
      rw [← buf_wakeup s (.buf b)]
      exact hb
    · rw [hin]
      exact h.chains.congr rfl fun k _ => ⟨rfl, rfl⟩
    · intro b' hb'
      have hbb : b' ≠ b := by
        rintro rfl
        simp [VirtioSystem.complete] at hb'
      rw [hin]
      refine h.flagged b' ?_
      simpa [VirtioSystem.complete, hbb] using hb'
    · intro b'
      have hcount := h.counted b'
      by_cases hbb : b' = b
      · subst hbb
        rw [hflag] at hcount
        simpa [VirtioSystem.complete, wakeup] using hcount
      · simpa [VirtioSystem.complete, wakeup, hbb] using hcount
    · rw [hin]
      have hperm : (A ++ s.working ++ c.head.val :: U).Perm (c.head.val :: (A ++ s.working ++ U)) :=
        List.perm_middle
      refine ⟨A, U, hA, hU.pop, (hQ.perm hperm).clear hi (fun j c' hj => ?_)
        (fun j b' c' hj heq => ?_), fun k hk => hstatus k (List.mem_cons_of_mem _ hk)⟩
      · exact h.inFlight_inj hj hi
      · exact h.chains.head_inj hj hi heq

/-- **A process has seen that its request is done**, and gives its descriptors back. -/
theorem finished (hpc : s.pc i = .waiting b c) (hflag : s.flag b = false) :
    ∃ t, s.rwFinish i c = .ok t ∧ t.pc i = .out ∧ (∀ k ∈ c.descs, t.disk.free k = true) ∧
      VirtioInv t := by
  have hi : s.inFlight i = some (b, c) := by
    rw [VirtioSystem.inFlight, hpc]
    rfl
  have hd := h.chains.distinct i b c hi
  have hbusy : ∀ k ∈ c.descs, s.disk.free k = false := fun k hk =>
    (h.chains.taken k).mpr ⟨i, b, c, hi, hk⟩
  have hchain : (s.forget c.head).freeChain c.head numDesc =
      .ok ((((s.forget c.head).freed c.head).freed c.mid).freed c.last) :=
    freeChain_linked hd (h.chains.formatted i b c hi).toLinked hbusy
  set u := (((s.forget c.head).freed c.head).freed c.mid).freed c.last with hu
  have hpcs : ∀ j, (u.pc j).buf = (s.pc j).buf := by
    intro j
    rw [hu, buf_freed, buf_freed, buf_freed]
    rfl
  have hinu : u.inFlight = s.inFlight := by
    rw [hu, inFlight_freed, inFlight_freed, inFlight_freed]
    rfl
  have hin : (u.release.goto i .out).inFlight = update s.inFlight i none := by
    rw [inFlight_goto]
    exact congrArg (update · i none) hinu
  have hfree : ∀ k, u.disk.free k = false ↔ k ∉ c.descs ∧ s.disk.free k = false := freed3_free
  have hsame : ∀ k, k ∉ c.descs → SameAt s.disk u.disk k := fun k hk => freed3_same hk
  refine ⟨u.release.goto i .out, ?_, update_self .., fun k hk => ?_, ?_⟩
  · rw [VirtioSystem.rwFinish, hchain]
    rfl
  · exact Bool.not_eq_false _ ▸ fun hf => ((hfree k).mp hf).1 hk
  constructor
  · exact h.running
  · intro j b' hb
    refine h.owned j b' ?_
    by_cases hj : j = i
    · subst hj
      simp [VirtioSystem.goto, RwPc.buf] at hb
    · rw [← hpcs j]
      simpa [VirtioSystem.goto, VirtioSystem.release, hj] using hb
  · rw [hin]
    exact h.chains.erase hi hfree hsame
  · intro b' hb'
    have hset : s.flag b' = true := hb'
    obtain ⟨j, c', hj⟩ := h.flagged b' hset
    refine ⟨j, c', ?_⟩
    have hji : j ≠ i := by
      rintro rfl
      rw [hi] at hj
      cases hj
      rw [hflag] at hset
      cases hset
    rw [hin, update_of_ne hji, hj]
  · exact h.counted
  · obtain ⟨A, U, hA, hU, hQ, hstatus⟩ := h.queued
    rw [hin]
    refine ⟨A, U, hA, hU, hQ.erase hi hflag, fun k hk => ?_⟩
    show ((update s.disk.info c.head _) k).status = 0
    by_cases hkh : k = c.head
    · subst hkh
      simpa using hstatus c.head hk
    · simpa [hkh] using hstatus k hk

/-- **Every step keeps the invariant.** -/
theorem step (hstep : VirtioStep s t) : VirtioInv t := by
  cases hstep with
  | lockBuf i b ho =>
    refine ⟨h.running, fun j b' hb => ?_, h.chains, h.flagged, h.counted, h.queued⟩
    have hj := h.owned j b' hb
    have hne : b' ≠ b := by
      rintro rfl
      rw [ho] at hj
      cases hj
    simpa [hne] using hj
  | unlockBuf i b ho hpc =>
    refine ⟨h.running, fun j b' hb => ?_, h.chains, h.flagged, h.counted, h.queued⟩
    have hj := h.owned j b' hb
    have hne : b' ≠ b := by
      rintro rfl
      rw [ho] at hj
      cases hj
      have hb : (s.pc i).buf = some b' := hb
      rw [hpc] at hb
      cases hb
    simpa [hne] using hj
  | call i b write blockno hpc ho =>
    have hin : (s.goto i (.entering ⟨b, write, sectorOf blockno⟩)).inFlight = s.inFlight := by
      rw [inFlight_goto, Function.update_eq_self_iff, VirtioSystem.inFlight, hpc]
      rfl
    refine ⟨h.running, fun j b' hb => ?_, by rw [hin]; exact h.chains, by rw [hin]; exact h.flagged,
      h.counted, by rw [hin]; exact h.queued⟩
    by_cases hj : j = i
    · subst hj
      have hbb : b = b' := by simpa [VirtioSystem.goto, RwPc.buf] using hb
      rw [← hbb]
      exact ho
    · refine h.owned j b' ?_
      simpa [VirtioSystem.goto, hj] using hb
  | alloc i hpc =>
    rename_i a
    rcases s.alloc3Desc_spec with ⟨c, hok, hd, hfree⟩ | ⟨t, hok, hu⟩
    · have hrun : s.rwAlloc i a = .ok (((s.takeChain c).format a c).goto i
          (.waiting a.b c)) := by
        rw [VirtioSystem.rwAlloc, hok]
        rfl
      rw [hrun]
      exact h.publish hpc hd hfree
    · have hrun : s.rwAlloc i a = .ok (t.release.goto i (.allocAsleep a)) := by
        rw [VirtioSystem.rwAlloc, hok]
        rfl
      rw [hrun]
      refine (h.unmoved hu).unmoved (Unmoved.goto none ?_ ?_)
      · rw [hu.buf, hpc]
        rfl
      · have := congrFun hu.inFlight i
        rw [VirtioSystem.inFlight, VirtioSystem.inFlight, hpc] at this
        exact this.symm
  | finish i hpc hflag =>
    obtain ⟨t, hok, -, -, ht⟩ := h.finished hpc hflag
    rw [hok]
    exact ht
  | intrRound hl hu =>
    obtain ⟨-, b, -, -, -, -, hok, ht⟩ := h.completed hu
    rw [hok]
    exact ht
  | fetch ha => exact h.fetched ha
  | serve k hk => exact h.served hk
  | kill i => exact h.unmoved (Unmoved.goto s.lock (RwPc.buf_rouse _) (RwPc.inFlight_rouse _))
  | intrEnter hl => exact h.unmoved ⟨⟨rfl, fun _ _ => rfl, fun _ => rfl, rfl⟩, rfl⟩
  | intrLeave hl hu => exact h.unmoved ⟨⟨rfl, fun _ _ => rfl, fun _ => rfl, rfl⟩, rfl⟩
  -- the lock changes hands; the process stays with its buffer and its request
  | enter i hpc hl => exact h.unmoved (Unmoved.goto _ (by rw [hpc]; rfl) (by rw [hpc]; rfl))
  | realloc i hpc hl => exact h.unmoved (Unmoved.goto _ (by rw [hpc]; rfl) (by rw [hpc]; rfl))
  | wait i hpc hf => exact h.unmoved (Unmoved.goto none (by rw [hpc]; rfl) (by rw [hpc]; rfl))
  | rewait i hpc hl => exact h.unmoved (Unmoved.goto _ (by rw [hpc]; rfl) (by rw [hpc]; rfl))

end

theorem reachable (h : VirtioReachable s) : VirtioInv s := by
  induction h with
  | refl => exact .init
  | tail _ hstep ih => exact ih.step hstep

end Steps

end VirtioInv

theorem VirtioSystem.chan_wakeup {ι β : Type} [DecidableEq β] (s : VirtioSystem ι β) (ch : RwChan β)
    (j : ι) : ((s.wakeup ch).pc j).chan ≠ some ch := by
  show (if (s.pc j).chan = some ch then (s.pc j).rouse else s.pc j).chan ≠ some ch
  split
  · cases s.pc j <;> simp [RwPc.rouse, RwPc.chan]
  · assumption

/-- **The request protocol.**  In every state of every run the driver has not stopped the machine; a
descriptor is free unless it is in a request, requests have three descriptors each, linked and
recorded with their buffer, and share none; a buffer's flag is set while it has a request that is
not done, and was cleared once for each other one.  A round of the interrupt handler is about a
request that the device has reported: it clears the flag of its buffer, and no other one, and wakes
up who sleeps on it.  A process that finds the flag cleared returns, with its descriptors free; and
an `alloc3_desc` that fails leaves the free descriptors free. -/
theorem virtio_requests {ι β : Type} [DecidableEq ι] [DecidableEq β] {s : VirtioSystem ι β}
    (h : VirtioReachable s) : s.crashed = none ∧
    (∀ k, s.disk.free k = false ↔ ∃ i b c, s.inFlight i = some (b, c) ∧ k ∈ c.descs) ∧
    (∀ i b c, s.inFlight i = some (b, c) →
      c.Distinct ∧ Formatted s.disk b c ∧ (s.disk.info c.head).b = some b) ∧
    (∀ i j b b' c c', i ≠ j → s.inFlight i = some (b, c) → s.inFlight j = some (b', c') →
      c.descs.Disjoint c'.descs) ∧ (∀ b, s.requests b = s.clears b + if s.flag b then 1 else 0) ∧
    (∀ b, s.flag b = true → ∃ i c, s.inFlight i = some (b, c)) ∧
    (s.disk.usedIdx ≠ s.disk.usedRingIdx → ∃ i b c t, s.inFlight i = some (b, c) ∧
      s.flag b = true ∧ s.disk.usedRing (slot numDesc s.disk.usedIdx) = c.head ∧
      s.intrRound = .ok t ∧ t.flag = update s.flag b false ∧
      t.clears = update s.clears b (s.clears b + 1) ∧ t.disk.usedIdx = s.disk.usedIdx + 1 ∧
      ∀ j, (t.pc j).chan ≠ some (.buf b)) ∧
    (∀ i b c, s.pc i = .waiting b c → s.flag b = false → s.clears b = s.requests b ∧
      ∃ t, s.rwFinish i c = .ok t ∧ t.pc i = .out ∧ ∀ k ∈ c.descs, t.disk.free k = true) ∧
    ∀ t, s.alloc3Desc = .ok (none, t) → t.disk.free = s.disk.free := by
  have hinv := VirtioInv.reachable h
  refine ⟨hinv.running, hinv.chains.taken, fun i b c hi => ?_, hinv.chains.disjoint, hinv.counted,
    hinv.flagged, fun hu => ?_, fun i b c hpc hflag => ?_, fun t ht => ?_⟩
  · have hf := hinv.chains.formatted i b c hi
    exact ⟨hinv.chains.distinct i b c hi, hf, hf.info⟩
  · obtain ⟨i, b, c, hi, hflag, hhead, hround, -⟩ := hinv.completed hu
    exact ⟨i, b, c, _, hi, hflag, hhead, hround, rfl, rfl, rfl, s.chan_wakeup (.buf b)⟩
  · obtain ⟨t, hok, hout, hfree, -⟩ := hinv.finished hpc hflag
    have hcount := hinv.counted b
    rw [hflag] at hcount
    exact ⟨hcount.symm, t, hok, hout, hfree⟩
  · rcases s.alloc3Desc_spec with ⟨c, hok, -, -⟩ | ⟨t', hok, hu⟩
    · rw [hok] at ht
      cases ht
    · rw [hok] at ht
      cases ht
      exact hu.free

/-- A process publishes a request and sleeps, the device finishes it, and the interrupt handler
clears the flag, once.  The process then returns. -/
theorem virtio_requests_served : ∃ s t u : VirtioSystem (Fin 1) (Fin 1),
    VirtioReachable s ∧ s.flag 0 = true ∧ s.clears 0 = 0 ∧ s.intrRound = .ok t ∧
      t.flag 0 = false ∧ t.clears 0 = 1 ∧ VirtioReachable u ∧ u.clears 0 = u.requests 0 ∧
      ∃ c v, u.pc 0 = .waiting 0 c ∧ u.rwFinish 0 c = .ok v ∧ v.pc 0 = .out := by
  have h1 : VirtioReachable (_ : VirtioSystem (Fin 1) (Fin 1)) := .single (.lockBuf 0 0 rfl)
  have h2 : VirtioReachable _ := (h1.tail (.call 0 0 true 3 rfl rfl)).tail (.enter 0 rfl rfl)
  have h3 : VirtioReachable _ := (h2.tail (.alloc 0 rfl)).tail (.wait 0 rfl rfl)
  have h4 : VirtioReachable _ := (h3.tail (.fetch (by decide))).tail (.serve 0 (by decide))
  have h5 : VirtioReachable _ := h4.tail (.intrEnter rfl)
  obtain ⟨-, -, -, -, -, -, hround, -, -⟩ := virtio_requests h5
  obtain ⟨_, b, _, t, -, hset, -, ht, hflag, hclears, -, -⟩ := hround (by decide)
  obtain rfl : b = 0 := Subsingleton.elim _ _
  have h6 : VirtioReachable _ := (h5.tail (.intrRound rfl (by decide))).tail (.intrLeave rfl rfl)
  have h7 : VirtioReachable _ := h6.tail (.rewait 0 rfl rfl)
  obtain ⟨-, -, -, -, -, -, -, hfinish, -⟩ := virtio_requests h7
  obtain ⟨hdone, v, hv, hout, -⟩ := hfinish 0 0 _ rfl rfl
  refine ⟨_, t, _, h5, hset, rfl, ht, ?_, ?_, h7, hdone, _, v, rfl, hv, hout⟩
  · rw [hflag]
    rfl
  · rw [hclears]
    rfl

end Xv6Paging
