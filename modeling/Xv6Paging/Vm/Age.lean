import Xv6Paging.Machine.Sample
import Xv6Paging.Vm.Policies

/-!
# Ages as access histories

`update_age` shifts the accessed bit of every resident user page into the age of its slot and clears
the bit.  A slot whose page stays there over many calls is a shift register: its age tells, from the
top bit down, before which of the last 32 calls the page was accessed.
-/

namespace Xv6Paging

open StateHalt

/-! ## The function -/

/-- Store the age of a `ram` slot. -/
def Proc.setAge (pr : Proc) (k : Fin maxPsycPages) (age : BitVec 32) : Proc :=
  { pr with ram := Function.update pr.ram k { pr.ram k with age := age } }

/-- The loop body of `update_age`. -/
def updateAgeSlot (p : Fin nproc) (i : Nat) : KM Unit := do
  let k := Fin.ofNat maxPsycPages i
  onlyIf (((← getProc p).ram k).used = true) do
    let pte ← slotPte p k
    onlyIf (hasFlag (← readPte pte) pteU = true) do
      modifyProc p fun pr => pr.setAge k ((pr.ram k).age >>> 1)
      onlyIf (hasFlag (← readPte pte) pteA = true) do
        modifyProc p fun pr => pr.setAge k ((pr.ram k).age ||| 0x80000000#32)
        writePte pte ((← readPte pte) &&& ~~~pteA)

def updateAge : KM Unit := do
  forEach (updateAgeSlot (← myproc)) 0 maxPsycPages

/-! ## Shift registers -/

/-- An age with one more call shifted in. -/
def shiftIn (b : Bool) (age : BitVec 32) : BitVec 32 :=
  if b then age >>> 1 ||| 0x80000000#32 else age >>> 1

theorem getLsbD_topBit (i : Nat) : (0x80000000#32).getLsbD i = decide (i = 31) := by
  rw [show (0x80000000#32 : BitVec 32) = BitVec.twoPow 32 31 by decide, BitVec.getLsbD_twoPow]
  simp [eq_comm]

theorem getLsbD_shiftIn (b : Bool) (age : BitVec 32) (i : Nat) :
    (shiftIn b age).getLsbD i = if i = 31 then b else age.getLsbD (i + 1) := by
  have htop : i = 31 → age.getLsbD (1 + i) = false := fun h => BitVec.getLsbD_of_ge _ _ (by omega)
  cases b with
  | false =>
    simp only [shiftIn, Bool.false_eq_true, if_false, BitVec.getLsbD_ushiftRight]
    split
    · exact htop ‹_›
    · rw [Nat.add_comm]
  | true =>
    simp only [shiftIn, if_true, BitVec.getLsbD_or, BitVec.getLsbD_ushiftRight, getLsbD_topBit]
    split
    · simp [‹i = 31›]
    · rw [Nat.add_comm]
      simp [‹¬i = 31›]

/-- The bits shifted in are on top, newest first; below are the high bits of the first age. -/
theorem getLsbD_shiftIns (age : BitVec 32) (hist : List Bool) {i : Nat} (hi : i < 32) :
    (hist.foldr shiftIn age).getLsbD i =
      if i + hist.length < 32 then age.getLsbD (i + hist.length) else hist.getD (31 - i) false := by
  -- by induction on the history: the newest call has shifted the older ones down
  induction hist generalizing i with
  | nil => simp [hi]
  | cons b hist ih =>
    rw [List.foldr_cons, getLsbD_shiftIn, List.length_cons]
    by_cases htop : i = 31
    · subst htop
      rw [if_pos rfl, if_neg (by omega)]
      rfl
    · rw [if_neg htop, ih (by omega), show i + 1 + hist.length = i + (hist.length + 1) by omega,
        show 31 - i = 31 - (i + 1) + 1 by omega, List.getD_cons_succ]

/-! ## One call -/

section Call

variable {p : Fin nproc} {s t u w : Kernel} {i : Nat} {j k : Fin maxPsycPages}

/-- The slot `k` is in use, by a user page. -/
def Kernel.UsedByUser (s : Kernel) (p : Fin nproc) (k : Fin maxPsycPages) : Prop :=
  ((s.proc p).ram k).used = true ∧ s.UserSlot p k

instance (s : Kernel) (p : Fin nproc) (k : Fin maxPsycPages) : Decidable (s.UsedByUser p k) :=
  inferInstanceAs (Decidable (_ ∧ _))

/-- The accessed bit of the page in the slot `k`. -/
def Kernel.accessedBit (s : Kernel) (p : Fin nproc) (k : Fin maxPsycPages) : Bool :=
  hasFlag (s.ramPte p k) pteA

/-- The state after the body of the loop for the slot `k`. -/
def Kernel.ageSlot (s : Kernel) (p : Fin nproc) (k : Fin maxPsycPages) : Kernel :=
  if s.UsedByUser p k then
    let age := shiftIn (s.accessedBit p k) ((s.proc p).ram k).age
    let s' := s.setProc p ((s.proc p).setAge k age)
    if s.accessedBit p k then
      s'.setPte (s.proc p).pagetable ((s.proc p).ramPage k) (s.ramPte p k &&& ~~~pteA)
    else s'
  else s

theorem Proc.setAge_setAge (pr : Proc) (a b : BitVec 32) :
    (pr.setAge k a).setAge k b = pr.setAge k b := by
  simp [Proc.setAge]

theorem wp_updateAgeSlot : wp (updateAgeSlot p k) (fun _ s' => s' = s.ageSlot p k)
    (fun _ _ => ((s.proc p).ram k).used = true ∧ ¬SlotPresent s p k) s := by
  have hk : Fin.ofNat maxPsycPages k = k := Fin.ext (Nat.mod_eq_of_lt k.isLt)
  simp only [updateAgeSlot, wp_bind, wp_getProc, hk]
  apply wp_onlyIf
  · intro hused
    simp only [wp_bind]
    refine wp_mono slotPte_at ?_ fun _ _ h => ⟨hused, h.2⟩
    rintro r t ⟨rfl, rfl, hp⟩
    have hleaf : (t.ptables (t.proc p).pagetable).leaf ((t.proc p).ramPage k) = t.ramPte p k :=
      (PageTable.pte_of_present _ hp).symm
    simp only [wp_readPte, hleaf]
    apply wp_onlyIf
    · intro hU
      rw [Kernel.ageSlot, if_pos ⟨hused, hU⟩]
      simp only [wp_bind, wp_modifyProc, wp_readPte, Kernel.setProc_ptables, hleaf]
      apply wp_onlyIf
      · intro hA
        simp only [wp_bind, wp_modifyProc, wp_readPte, wp_writePte, Kernel.setProc_ptables, hleaf,
          Kernel.setProc_self, Proc.setAge_setAge, Kernel.accessedBit, hA, if_true, shiftIn]
        simp [Proc.setAge, Kernel.setProc]
      · intro hA
        simp [Kernel.accessedBit, hA, shiftIn]
    · intro hU
      rw [Kernel.ageSlot, if_neg fun h => hU h.2]
  · intro hused
    rw [Kernel.ageSlot, if_neg fun h => hused h.1]

theorem and_not_of_hasFlag {x flag : Pte} (h : hasFlag x flag = false) : x &&& ~~~flag = x := by
  have h0 := hasFlag_eq_false.mp h
  apply BitVec.eq_of_getLsbD_eq
  intro i hi
  have hbit : (x &&& flag).getLsbD i = false := by rw [h0]; simp
  rw [BitVec.getLsbD_and] at hbit
  rw [BitVec.getLsbD_and, BitVec.getLsbD_not]
  cases hx : x.getLsbD i <;> simp_all

theorem ageSlot_proc : (s.ageSlot p k).proc p = if s.UsedByUser p k then
    (s.proc p).setAge k (shiftIn (s.accessedBit p k) ((s.proc p).ram k).age) else s.proc p := by
  unfold Kernel.ageSlot
  split
  · dsimp only
    split <;> simp
  · rfl

theorem ageSlot_pagetable : ((s.ageSlot p k).proc p).pagetable = (s.proc p).pagetable := by
  rw [ageSlot_proc]
  split <;> rfl

theorem ageSlot_dir : ((s.ageSlot p k).ptables (s.proc p).pagetable).dir =
    (s.ptables (s.proc p).pagetable).dir := by
  unfold Kernel.ageSlot
  split
  · dsimp only
    split <;> simp
  · rfl

theorem ageSlot_pte (v : Nat) : ((s.ageSlot p k).ptables (s.proc p).pagetable).pte v =
    if s.UsedByUser p k ∧ v = (s.proc p).ramPage k then
      (s.ptables (s.proc p).pagetable).pte v &&& ~~~pteA
    else (s.ptables (s.proc p).pagetable).pte v := by
  unfold Kernel.ageSlot
  by_cases hused : s.UsedByUser p k
  · rw [if_pos hused]
    have hpres : (s.ptables (s.proc p).pagetable).present ((s.proc p).ramPage k) :=
      PageTable.present_of_hasFlag _ hused.2
    dsimp only
    split
    · rw [Kernel.setPte_self, Kernel.setProc_ptables, PageTable.pte_setLeaf _ hpres]
      by_cases hv : v = (s.proc p).ramPage k
      · rw [if_pos hv, if_pos ⟨hused, hv⟩, hv]
        rfl
      · rw [if_neg hv, if_neg fun h => hv h.2]
    · rename_i hA
      rw [Kernel.setProc_ptables]
      split
      · rename_i h
        rw [h.2]
        exact (and_not_of_hasFlag (eq_false_of_ne_true hA)).symm
      · rfl
  · rw [if_neg hused, if_neg fun h => hused h.1]

/-- No other slot in use records the page of the slot `k`. -/
def Kernel.Alone (s : Kernel) (p : Fin nproc) (k : Fin maxPsycPages) : Prop :=
  ∀ j, j ≠ k → ((s.proc p).ram j).used = true → (s.proc p).ramPage j ≠ (s.proc p).ramPage k

/-- What the loop of `update_age` has done after the slots below `i`. -/
structure Ageing (p : Fin nproc) (s : Kernel) (i : Nat) (t : Kernel) : Prop where
  pagetable : (t.proc p).pagetable = (s.proc p).pagetable
  dir : (t.ptables (s.proc p).pagetable).dir = (s.ptables (s.proc p).pagetable).dir
  ram : ∀ j, (t.proc p).ram j = { (s.proc p).ram j with age := ((t.proc p).ram j).age }
  user : ∀ v, hasFlag ((t.ptables (s.proc p).pagetable).pte v) pteU =
    hasFlag ((s.ptables (s.proc p).pagetable).pte v) pteU
  later : ∀ j : Fin maxPsycPages, i ≤ j.val → ((t.proc p).ram j).age = ((s.proc p).ram j).age
  idle : ∀ j, ¬s.UsedByUser p j → ((t.proc p).ram j).age = ((s.proc p).ram j).age
  pte : ∀ v, (∀ j : Fin maxPsycPages, j.val < i → ((s.proc p).ram j).used = true →
    (s.proc p).ramPage j ≠ v) →
      (t.ptables (s.proc p).pagetable).pte v = (s.ptables (s.proc p).pagetable).pte v
  done : ∀ j : Fin maxPsycPages, j.val < i → s.UsedByUser p j → s.Alone p j →
    ((t.proc p).ram j).age = shiftIn (s.accessedBit p j) ((s.proc p).ram j).age ∧
      t.accessedBit p j = false

namespace Ageing

theorem start (p : Fin nproc) (s : Kernel) : Ageing p s 0 s :=
  ⟨rfl, rfl, fun _ => rfl, fun _ => rfl, fun _ _ => rfl, fun _ _ => rfl, fun _ _ => rfl,
    fun _ h => absurd h (Nat.not_lt_zero _)⟩

section

variable (h : Ageing p s i t)
include h

theorem ramPage (j : Fin maxPsycPages) : (t.proc p).ramPage j = (s.proc p).ramPage j := by
  rw [Proc.ramPage, h.ram]
  rfl

theorem used (j : Fin maxPsycPages) : ((t.proc p).ram j).used = ((s.proc p).ram j).used := by
  rw [h.ram]

theorem ramPte (j : Fin maxPsycPages) :
    t.ramPte p j = (t.ptables (s.proc p).pagetable).pte ((s.proc p).ramPage j) := by
  rw [Kernel.ramPte, h.pagetable, h.ramPage]

theorem usedByUser (j : Fin maxPsycPages) : t.UsedByUser p j ↔ s.UsedByUser p j := by
  rw [Kernel.UsedByUser, Kernel.UsedByUser, Kernel.UserSlot, h.used, h.ramPte, h.user]
  rfl

theorem slotPresent (j : Fin maxPsycPages) : SlotPresent t p j ↔ SlotPresent s p j := by
  rw [SlotPresent, SlotPresent, h.pagetable, h.ramPage, h.ram, PageTable.present, PageTable.node,
    h.dir]
  rfl

end

/-- **One round of the loop.** -/
theorem step (h : Ageing p s k t) : Ageing p s (k + 1) (t.ageSlot p k) := by
  have hpt : ((t.ageSlot p k).proc p).pagetable = (s.proc p).pagetable := by
    rw [ageSlot_pagetable, h.pagetable]
  have hother : ∀ j, j ≠ k → ((t.ageSlot p k).proc p).ram j = (t.proc p).ram j := by
    intro j hj
    rw [ageSlot_proc]
    split
    · simp [Proc.setAge, hj]
    · rfl
  have hpte := fun v => h.pagetable ▸ ageSlot_pte (s := t) (p := p) (k := k) v
  -- no accessed bit is set
  have hclear : ∀ v, hasFlag ((t.ptables (s.proc p).pagetable).pte v) pteA = false →
      hasFlag (((t.ageSlot p k).ptables (s.proc p).pagetable).pte v) pteA = false := by
    intro v hv
    rw [hpte]
    split
    · exact hasFlag_clear_self _ _
    · exact hv
  have hram : ∀ j, ((t.ageSlot p k).proc p).ram j =
      { (s.proc p).ram j with age := (((t.ageSlot p k).proc p).ram j).age } := by
    intro j
    by_cases hj : j = k
    · subst hj
      rw [ageSlot_proc]
      split
      · simp only [Proc.setAge, Function.update_self]
        rw [h.ram]
      · exact h.ram j
    · rw [hother j hj]
      exact h.ram j
  constructor
  case pagetable => exact hpt
  case dir =>
    rw [← h.dir, ← h.pagetable]
    exact ageSlot_dir
  case ram => exact hram
  case user =>
    intro v
    rw [hpte, ← h.user v]
    split
    · exact hasFlag_clear (by decide)
    · rfl
  case later =>
    intro j hj
    rw [hother j (by rintro rfl; omega), h.later j (by omega)]
  case idle =>
    intro j hj
    by_cases hjk : j = k
    · subst hjk
      rw [ageSlot_proc, if_neg (mt (h.usedByUser j).mp hj), h.idle j hj]
    · rw [hother j hjk, h.idle j hj]
  case pte =>
    intro v hv
    rw [← h.pte v fun j hj => hv j (by omega), hpte]
    by_cases hused : t.UsedByUser p k ∧ v = (t.proc p).ramPage k
    · have huk := ((h.usedByUser k).mp hused.1).1
      exact absurd (hused.2.trans (h.ramPage k)).symm (hv k (by omega) huk)
    · rw [if_neg hused]
  case done =>
    intro j hj hu halone
    by_cases hjk : j = k
    · subst hjk
      -- the page is in no slot before, so its entry is still the first one
      have hentry : t.ramPte p j = s.ramPte p j := by
        rw [h.ramPte]
        refine h.pte _ fun i hi hui => halone i ?_ hui
        rintro rfl
        omega
      constructor
      · rw [ageSlot_proc, if_pos ((h.usedByUser j).mpr hu), h.later j le_rfl,
          Kernel.accessedBit, hentry]
        simp [Proc.setAge, Kernel.accessedBit]
      · rw [Kernel.accessedBit, Kernel.ramPte, hpt, Proc.ramPage, hram, hpte,
          if_pos ⟨(h.usedByUser j).mpr hu, (h.ramPage j).symm⟩]
        exact hasFlag_clear_self _ _
    · obtain ⟨hage, hacc⟩ := h.done j (by omega) hu halone
      constructor
      · rw [hother j hjk, hage]
      · rw [Kernel.accessedBit, h.ramPte] at hacc
        rw [Kernel.accessedBit, Kernel.ramPte, hpt, Proc.ramPage, hram]
        exact hclear _ hacc

end Ageing

/-- **`update_age`** returns if the pages in the slots in use have entries.  The ages of the pages
that are in one slot only have the accessed bit shifted in, and the bit is clear; slots that are
unused or hold a page without `PTE_U` keep their age. -/
theorem updateAge_spec (hc : s.cur = some p) : wp updateAge (fun _ t => Ageing p s maxPsycPages t)
      (fun _ _ => ∃ k, ((s.proc p).ram k).used = true ∧ ¬SlotPresent s p k) s := by
  simp only [updateAge, wp_bind, wp_myproc hc]
  refine wp_forEach (fun i t => Ageing p s i t) (Ageing.start p s) ?_ fun t h => ?_
  · intro i t _ hi h
    obtain ⟨k, rfl⟩ : ∃ k : Fin maxPsycPages, i = k := ⟨⟨i, by simpa using hi⟩, rfl⟩
    refine wp_mono wp_updateAgeSlot (fun _ t' ht => ht ▸ h.step) fun _ _ he => ⟨k, ?_, ?_⟩
    · rw [← h.used]
      exact he.1
    · exact mt (h.slotPresent k).mpr he.2
  · rwa [Nat.zero_add] at h

end Call

/-! ## Runs -/

section Runs

variable {p : Fin nproc} {k : Fin maxPsycPages} {s t u w : Kernel} {hist : List Bool}

/-- The process is on the CPU, and its slot `k` records a user page that no other slot records. -/
structure InSlot (p : Fin nproc) (k : Fin maxPsycPages) (s : Kernel) : Prop where
  cur : s.cur = some p
  page : s.UsedByUser p k
  alone : s.Alone p k

/-- Between two calls the page stays in its slot; the hardware sets its accessed bit if it is
accessed. Everything else may change. -/
structure Stays (p : Fin nproc) (k : Fin maxPsycPages) (acc : Bool) (s t : Kernel) : Prop where
  inSlot : InSlot p k t
  va : ((t.proc p).ram k).va = ((s.proc p).ram k).va
  age : ((t.proc p).ram k).age = ((s.proc p).ram k).age
  accessed : t.accessedBit p k = (s.accessedBit p k || acc)

/-- Calls of `update_age` while the page stays in the slot `k`; `hist` tells for every call, the
last one first, whether the page was accessed since the call before. -/
inductive AgeRun (p : Fin nproc) (k : Fin maxPsycPages) : List Bool → Kernel → Kernel → Prop
  | start (s : Kernel) : AgeRun p k [] s s
  | call {hist : List Bool} {acc : Bool} {s t u w : Kernel} (run : AgeRun p k hist s t)
      (stays : Stays p k acc t u) (ok : updateAge u = .ok () w) : AgeRun p k (acc :: hist) s w

/-- The accesses that a run counts: an accessed bit that was already set counts for the first call.
-/
def pending (b : Bool) (hist : List Bool) : List Bool :=
  match hist with
  | [] => []
  | [acc] => [b || acc]
  | acc :: acc' :: hist => acc :: pending b (acc' :: hist)

theorem pending_length (b : Bool) (hist : List Bool) : (pending b hist).length = hist.length := by
  fun_induction pending b hist with
  | case1 => rfl
  | case2 => rfl
  | case3 acc acc' hist ih => simp [ih]

theorem pending_getD (b : Bool) (hist : List Bool) (j : Nat) (hj : j < hist.length) :
    (pending b hist).getD j false = (hist.getD j false || (b && decide (j + 1 = hist.length))) := by
  fun_induction pending b hist generalizing j with
  | case1 => simp at hj
  | case2 acc =>
    obtain rfl : j = 0 := by simpa using hj
    simp [Bool.or_comm]
  | case3 acc acc' hist ih =>
    cases j with
    | zero => simp
    | succ j =>
      rw [List.getD_cons_succ, ih j (by simpa using hj), List.getD_cons_succ]
      simp

/-- **The age after a run**, and the accessed bit. -/
theorem AgeRun.age (h : AgeRun p k hist s t) : ((t.proc p).ram k).age =
        (pending (s.accessedBit p k) hist).foldr shiftIn ((s.proc p).ram k).age ∧
      t.accessedBit p k = (s.accessedBit p k && hist.isEmpty) := by
  induction h with
  | start s => simp [pending]
  | @call hist acc s t u w run stays ok ih =>
    have hcall := (wp_ok ok).mp (updateAge_spec stays.inSlot.cur)
    obtain ⟨hage, hacc⟩ := hcall.done k k.isLt stays.inSlot.page stays.inSlot.alone
    rw [hage, hacc, stays.age, stays.accessed, ih.1, ih.2]
    cases hist with
    | nil => simp [pending]
    | cons acc' hist => simp [pending]

/-- **Ages are access histories.**  After a run of calls during which a page stays in its slot, the
bit `31 - j` of the age tells whether the page was accessed before the call that was `j` calls ago,
where a bit that was set before the run counts as an access before the first call.  The bits below
are the high bits of the first age.  A call clears the accessed bit, so no access is counted twice.
A call returns if the pages in the slots in use have entries, and it leaves the ages of unused slots
and of pages without `PTE_U` alone. -/
theorem age_is_history (h : AgeRun p k hist s t) :
    (∀ j, j < min hist.length 32 → ((t.proc p).ram k).age.getLsbD (31 - j) =
      (hist.getD j false || (s.accessedBit p k && decide (j + 1 = hist.length)))) ∧
    (∀ i, i + hist.length < 32 →
      ((t.proc p).ram k).age.getLsbD i = ((s.proc p).ram k).age.getLsbD (i + hist.length)) ∧
    (hist ≠ [] → t.accessedBit p k = false) ∧ (∀ (q : Fin nproc) (u : Kernel), u.cur = some q →
      (∀ j, ((u.proc q).ram j).used = true → SlotPresent u q j) → ∃ w, updateAge u = .ok () w) ∧
    ∀ (q : Fin nproc) (u w : Kernel), u.cur = some q → updateAge u = .ok () w →
      ∀ j, ¬u.UsedByUser q j → ((w.proc q).ram j).age = ((u.proc q).ram j).age := by
  obtain ⟨hage, hacc⟩ := h.age
  refine ⟨fun j hj => ?_, fun i hi => ?_, fun hne => ?_, fun q u hc hpres => ?_,
    fun q u w hc hok j hj => ?_⟩
  · rw [lt_min_iff] at hj
    rw [hage, getLsbD_shiftIns _ _ (by omega), if_neg (by rw [pending_length]; omega),
      show 31 - (31 - j) = j by omega, pending_getD _ _ _ hj.1]
  · rw [hage, getLsbD_shiftIns _ _ (by omega), pending_length, if_pos hi]
  · rw [hacc]
    cases hist with
    | nil => exact absurd rfl hne
    | cons acc hist => simp
  · have htotal : wp updateAge (fun _ _ => True) (fun _ _ => False) u := by
      refine wp_mono (updateAge_spec hc) (fun _ _ _ => trivial) ?_
      rintro _ _ ⟨j, hused, hn⟩
      exact hn (hpres j hused)
    obtain ⟨⟨⟩, w, hok, -⟩ := wp_total htotal
    exact ⟨w, hok⟩
  · exact ((wp_ok hok).mp (updateAge_spec hc)).idle j hj

/-- The aged pages of `agedKernel` after an access to the page 1. -/
def touchedKernel : Kernel :=
  residentKernel (fun k => if k = 0 then pteR ||| pteV else if k = 1 then permUser ||| pteV ||| pteA
    else permUser ||| pteV) (fun k => BitVec.ofNat 32 (16 - k)) fun k => BitVec.ofNat 32 k

/-- One call after an access: the top bit is set, and the rest of the age is halved. -/
theorem touchedKernel_age : ∃ t, AgeRun 0 1 [true] agedKernel t ∧
    ((t.proc 0).ram 1).age.getLsbD 31 = true ∧ ((t.proc 0).ram 1).age.getLsbD 0 = true := by
  have hres : InSlot 0 1 touchedKernel := by
    refine ⟨rfl, by decide +kernel, ?_⟩
    unfold Kernel.Alone
    decide +kernel
  have hstays : Stays 0 1 true agedKernel touchedKernel :=
    ⟨hres, by decide +kernel, by decide +kernel, by decide +kernel⟩
  have hok : wp updateAge (fun _ _ => True) (fun _ _ => False) touchedKernel := by decide +kernel
  obtain ⟨⟨⟩, t, hok, -⟩ := wp_total hok
  have hrun := AgeRun.call (AgeRun.start agedKernel) hstays hok
  obtain ⟨hnew, hold, -⟩ := age_is_history hrun
  refine ⟨t, hrun, hnew 0 (by decide), ?_⟩
  rw [hold 0 (by decide)]
  decide +kernel

end Runs

end Xv6Paging
