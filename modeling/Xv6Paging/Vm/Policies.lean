import Mathlib.Data.Prod.Lex
import Xv6Paging.Logic.Obeys
import Xv6Paging.Logic.Select
import Xv6Paging.Machine.Sample
import Xv6Paging.Vm.Victim

/-!
# Victims of the ageing policies

`get_NFUA_index` and `get_LAPA_index` scan the `ram` array for the page of least rank: its age, or
the number of one bits of its age and then the age.  Pages without `PTE_U` are passed over, so
`swap_pages` is never asked to evict one.
-/

namespace Xv6Paging

open StateHalt Select

/-- The page in the slot `k` has `PTE_U`: the policies may choose it. -/
def Kernel.UserSlot (s : Kernel) (p : Fin nproc) (k : Fin maxPsycPages) : Prop :=
  hasFlag (s.ramPte p k) pteU = true

instance (s : Kernel) (p : Fin nproc) (k : Fin maxPsycPages) : Decidable (s.UserSlot p k) :=
  inferInstanceAs (Decidable (_ = true))

/-- NFUA evicts a page of minimal age. -/
def nfuaRank (age : BitVec 32) : Nat := age.toNat

/-- LAPA evicts a page with the fewest one bits, and of minimal age among those. -/
def lapaRank (age : BitVec 32) : Nat ×ₗ Nat := toLex (ones age, age.toNat)

/-! ## The scan -/

section Scan

variable {s : Kernel} {p : Fin nproc} {k : Fin maxPsycPages}

theorem wp_slotPte {Q : PteRef → Kernel → Prop} {E : Halt → Kernel → Prop} (hr : RamPresent s p) :
    wp (slotPte p k) Q E s ↔ Q ⟨(s.proc p).pagetable, (s.proc p).ramPage k⟩ s := by
  obtain ⟨hva, hp⟩ := hr k
  simp only [slotPte, wp_bind, wp_getProc]
  rw [wp_walk_present hva hp, wp_deref_some]
  rfl

theorem leaf_ramPage (hr : RamPresent s p) :
    (s.ptables (s.proc p).pagetable).leaf ((s.proc p).ramPage k) = s.ramPte p k :=
  (PageTable.pte_of_present _ (hr k).2).symm

/-- **The scan by a rank** returns the first of the minimal user pages, and changes nothing. -/
theorem scanRam_first {κ : Type} [LinearOrder κ] {key : PageData → BitVec 32}
    {better : BitVec 32 → BitVec 32 → Bool} {rank : BitVec 32 → κ} {E : Halt → Kernel → Prop}
    (hb : ∀ a b, better a b = true ↔ rank a < rank b) (hr : RamPresent s p)
    (hu : ∃ j, s.UserSlot p j) : wp (scanRam p key better)
      (fun k s' => s' = s ∧ First (s.UserSlot p) (fun j => rank (key ((s.proc p).ram j))) k)
      E s := by
  unfold scanRam
  rw [wp_bind]
  -- after `i` rounds the accumulator holds the leader of the first `i` slots, with its key
  refine wp_forFold (fun i acc t => t = s ∧
    Leader (s.UserSlot p) (fun j => rank (key ((s.proc p).ram j))) i (acc.map Prod.fst) ∧
    ∀ j b, acc = some (j, b) → b = key ((s.proc p).ram j)) ⟨rfl, Leader.start, ?_⟩ ?_ ?_
  · intro j b h
    cases h
  · rintro i acc t - hi ⟨rfl, hlead, hkey⟩
    obtain ⟨k, rfl⟩ : ∃ k : Fin maxPsycPages, i = k := ⟨⟨i, by simpa using hi⟩, rfl⟩
    have hk : Fin.ofNat maxPsycPages k = k := Fin.ext (Nat.mod_eq_of_lt k.isLt)
    simp only [wp_bind, hk, wp_slotPte hr, wp_readPte, wp_getProc, leaf_ramPage hr]
    apply wp_ite
    · intro hU
      refine ⟨rfl, hlead.skip ?_, hkey⟩
      simpa [Kernel.UserSlot] using hU
    · intro hU
      have hcand : t.UserSlot p k := by simpa [Kernel.UserSlot] using hU
      cases acc with
      | none =>
        refine ⟨rfl, hlead.replace hcand ?_, ?_⟩
        · intro j h
          cases h
        · rintro j b ⟨⟩
          rfl
      | some jb =>
        obtain ⟨j, b⟩ := jb
        have hkb := hkey j b rfl
        apply wp_ite
        · intro hlt
          refine ⟨rfl, hlead.replace hcand ?_, ?_⟩
          · rintro j' ⟨⟩
            rw [hb, hkb] at hlt
            exact hlt
          · rintro j b ⟨⟩
            rfl
        · intro hnlt
          refine ⟨rfl, Leader.keep hlead ?_, hkey⟩
          rw [hb, hkb] at hnlt
          exact not_lt.mp hnlt
  · rintro acc t ⟨rfl, hlead, -⟩
    rw [Nat.zero_add] at hlead
    obtain ⟨k, hacc, hfirst⟩ := hlead.first hu
    rw [wp_pure, hacc]
    exact ⟨rfl, hfirst⟩

theorem lapa_better (age a : BitVec 32) : decide (onesLoop age 1#32 0 < onesLoop a 1#32 0 ∨
      (onesLoop a 1#32 0 = onesLoop age 1#32 0 ∧ age < a)) = true ↔ lapaRank age < lapaRank a := by
  rw [decide_eq_true_iff, onesLoop_eq, onesLoop_eq, lapaRank, lapaRank, Prod.Lex.toLex_lt_toLex,
    BitVec.lt_def]
  simp only [eq_comm]

theorem getNfuaIndex_first (hc : s.cur = some p) (hr : RamPresent s p) (hu : ∃ j, s.UserSlot p j) :
    ∃ k, getNfuaIndex s = .ok k s ∧
      First (s.UserSlot p) (fun j => nfuaRank ((s.proc p).ram j).age) k := by
  have h : wp getNfuaIndex (fun k s' => s' = s ∧
      First (s.UserSlot p) (fun j => nfuaRank ((s.proc p).ram j).age) k) (fun _ _ => False) s := by
    simp only [getNfuaIndex, wp_bind, wp_myproc hc]
    refine scanRam_first (fun a b => ?_) hr hu
    rw [decide_eq_true_iff, BitVec.lt_def]
    rfl
  obtain ⟨k, s', hok, rfl, hfirst⟩ := wp_total h
  exact ⟨k, hok, hfirst⟩

theorem getLapaIndex_first (hc : s.cur = some p) (hr : RamPresent s p) (hu : ∃ j, s.UserSlot p j) :
    ∃ k, getLapaIndex s = .ok k s ∧
      First (s.UserSlot p) (fun j => lapaRank ((s.proc p).ram j).age) k := by
  have h : wp getLapaIndex (fun k s' => s' = s ∧
      First (s.UserSlot p) (fun j => lapaRank ((s.proc p).ram j).age) k) (fun _ _ => False) s := by
    simp only [getLapaIndex, wp_bind, wp_myproc hc]
    exact scanRam_first lapa_better hr hu
  obtain ⟨k, s', hok, rfl, hfirst⟩ := wp_total h
  exact ⟨k, hok, hfirst⟩

end Scan

/-! ## The panic of `swap_pages` -/

/-- What `swap_pages` does on a page without `PTE_U`. -/
def userBitPanic : Halt := .panic "trying to swap a page with a PGE_U bit turned-off"

section Panic

/-- A program that does not halt for `PTE_U`. -/
abbrev SparesUserBit {α : Type} (m : KM α) : Prop :=
  Obeys m (fun _ _ => True) (· ≠ userBitPanic)

variable {B : Build} {pol : Policy}

theorem modify_spares (g : Kernel → Kernel) : SparesUserBit (modify g) :=
  Obeys.modify fun _ => trivial

theorem panic_spares {α : Type} {msg : String}
    (h : msg ≠ "trying to swap a page with a PGE_U bit turned-off") :
    SparesUserBit (panic msg : KM α) :=
  Obeys.throw fun heq => h (Halt.panic.inj heq)

theorem kerneltrap_spares {α : Type} : SparesUserBit (kerneltrap : KM α) :=
  panic_spares (by decide)

theorem deref_spares (pte : Option PteRef) : SparesUserBit (deref pte) := by
  cases pte with
  | some r => exact Obeys.pure r
  | none => exact kerneltrap_spares

theorem myproc_spares : SparesUserBit myproc := by
  refine Obeys.bind Obeys.get fun s => ?_
  cases s.cur with
  | some p => exact Obeys.pure p
  | none => exact kerneltrap_spares

theorem getProc_spares (p : Fin nproc) : SparesUserBit (getProc p) :=
  Obeys.bind Obeys.get fun _ => Obeys.pure _

theorem readPte_spares (r : PteRef) : SparesUserBit (readPte r) :=
  Obeys.bind Obeys.get fun _ => Obeys.pure _

theorem loadPage_spares (pa : Nat) : SparesUserBit (loadPage pa) :=
  Obeys.ite (fun _ => Obeys.bind Obeys.get fun _ => Obeys.pure _) fun _ => kerneltrap_spares

theorem storePage_spares (pa : Nat) (pg : Page) : SparesUserBit (storePage pa pg) :=
  Obeys.ite (fun _ => modify_spares _) fun _ => kerneltrap_spares

theorem kalloc_spares : SparesUserBit kalloc := by
  refine Obeys.bind Obeys.get fun s => ?_
  cases s.freelist with
  | nil => exact Obeys.pure 0
  | cons r next => exact Obeys.bind (modify_spares _) fun _ => Obeys.pure r

theorem kfree_spares (pa : Nat) : SparesUserBit (kfree B pa) :=
  Obeys.ite (fun _ => panic_spares (by decide)) fun _ => modify_spares _

theorem walkLevel_spares (r va : Nat) (alloc : Bool) (level : Nat) :
    SparesUserBit (walkLevel r va alloc level) := by
  unfold walkLevel
  refine Obeys.bind Obeys.get fun s => ?_
  cases (s.ptables r).dir level (va / 2 ^ pxshift level) with
  | some _ => exact Obeys.pure true
  | none =>
    refine Obeys.ite (fun _ => Obeys.pure false) fun _ =>
      Obeys.bind kalloc_spares fun pa => ?_
    exact Obeys.ite (fun _ => Obeys.pure false) fun _ =>
      Obeys.bind (modify_spares _) fun _ => Obeys.pure true

theorem walk_spares (r va : Nat) (alloc : Bool) : SparesUserBit (walk r va alloc) := by
  unfold walk
  refine Obeys.ite (fun _ => panic_spares (by decide)) fun _ => ?_
  refine Obeys.bind (walkLevel_spares r va alloc 2) fun _ => Obeys.ite (fun _ => ?_) fun _ =>
    Obeys.pure none
  exact Obeys.bind (walkLevel_spares r va alloc 1) fun _ =>
    Obeys.ite (fun _ => Obeys.pure _) fun _ => Obeys.pure none

theorem mappage_spares (r va pa : Nat) (perm : Pte) : SparesUserBit (mappage r va pa perm) := by
  unfold mappage
  refine Obeys.bind (walk_spares r _ true) fun o => ?_
  cases o with
  | none => exact Obeys.pure (-1)
  | some pte =>
    refine Obeys.bind (readPte_spares pte) fun x => ?_
    exact Obeys.ite (fun _ => panic_spares (by decide)) fun _ =>
      Obeys.bind (modify_spares _) fun _ => Obeys.pure 0

theorem kfileread_spares (f : Fin nfile) (pa n : Nat) : SparesUserBit (kfileread f pa n) := by
  unfold kfileread
  refine Obeys.bind Obeys.get fun s => Obeys.ite (fun _ => Obeys.pure _) fun _ => ?_
  cases (s.ftable f).type with
  | inode =>
    refine Obeys.bind Obeys.get fun _ =>
      Obeys.bind (Obeys.onlyIf fun _ => ?_) fun _ => Obeys.pure _
    exact Obeys.bind (loadPage_spares pa) fun _ =>
      Obeys.bind (storePage_spares pa _) fun _ => modify_spares _
  | none => exact panic_spares (by decide)
  | pipe => exact kerneltrap_spares
  | device => exact kerneltrap_spares

theorem kfilewriteLoop_spares (f : Fin nfile) (src : Nat → UInt8) (n fuel i : Nat) :
    SparesUserBit (kfilewriteLoop f src n fuel i) := by
  induction fuel generalizing i with
  | zero => exact Obeys.pure _
  | succ fuel ih =>
    unfold kfilewriteLoop
    refine Obeys.ite (fun _ => ?_) fun _ => Obeys.pure _
    refine Obeys.bind Obeys.get fun s => Obeys.bind Obeys.get fun t => ?_
    cases (t.inode (s.ftable f).ip).writei (fun k => src (i + k)) (s.ftable f).off
      (min (n - i) writeChunk) with
    | none => exact Obeys.pure (-1)
    | some ip => exact Obeys.bind (modify_spares _) fun _ => ih _

theorem kfilewrite_spares (f : Fin nfile) (pa n : Nat) : SparesUserBit (kfilewrite f pa n) := by
  unfold kfilewrite
  refine Obeys.bind Obeys.get fun s => Obeys.ite (fun _ => Obeys.pure _) fun _ => ?_
  cases (s.ftable f).type with
  | inode => exact Obeys.bind (loadPage_spares pa) fun _ => kfilewriteLoop_spares f _ n n 0
  | none => exact panic_spares (by decide)
  | pipe => exact kerneltrap_spares
  | device => exact kerneltrap_spares

theorem readFromSwapFile_spares (p : Fin nproc) (pa placeOnFile : Nat) :
    SparesUserBit (readFromSwapFile p pa placeOnFile) := by
  unfold readFromSwapFile
  refine Obeys.bind (getProc_spares p) fun pr => ?_
  cases pr.swapFile with
  | none => exact kerneltrap_spares
  | some f => exact Obeys.bind (modify_spares _) fun _ => kfileread_spares f pa pgsize

theorem writeToSwapFile_spares (p : Fin nproc) (pa placeOnFile : Nat) :
    SparesUserBit (writeToSwapFile p pa placeOnFile) := by
  unfold writeToSwapFile
  refine Obeys.bind (getProc_spares p) fun pr => ?_
  cases pr.swapFile with
  | none => exact kerneltrap_spares
  | some f => exact Obeys.bind (modify_spares _) fun _ => kfilewrite_spares f pa pgsize

theorem swapfileToRam_spares (va : Nat) (pte : Option PteRef) (k : Fin maxPsycPages) :
    SparesUserBit (swapfileToRam pol va pte k) := by
  unfold swapfileToRam
  refine Obeys.bind myproc_spares fun p => Obeys.bind (getProc_spares p) fun pr => ?_
  cases findSlot (fun d => u64 d.va == va) pr.swap with
  | none => exact panic_spares (by decide)
  | some j =>
    refine Obeys.bind kalloc_spares fun page => ?_
    refine Obeys.bind (readFromSwapFile_spares p page _) fun _ =>
      Obeys.ite (fun _ => ?_) fun _ => ?_
    · exact panic_spares (by decide)
    refine Obeys.bind (modify_spares _) fun _ => Obeys.bind (getProc_spares p) fun pr => ?_
    refine Obeys.bind (mappage_spares pr.pagetable va page _) fun _ =>
      Obeys.ite (fun _ => ?_) fun _ => ?_
    · exact panic_spares (by decide)
    refine Obeys.bind (deref_spares pte) fun r => Obeys.bind (readPte_spares r) fun x => ?_
    exact Obeys.bind (modify_spares _) fun _ =>
      Obeys.bind (modify_spares _) fun _ => Obeys.pure j

theorem evictPage_spares (p : Fin nproc) (va : Int) (j : Fin maxPsycPages) :
    SparesUserBit (evictPage B p va j) := by
  unfold evictPage
  refine Obeys.bind kalloc_spares fun page => Obeys.bind (getProc_spares p) fun pr => ?_
  refine Obeys.bind (walk_spares _ _ false) fun o => Obeys.bind (deref_spares o) fun pte => ?_
  refine Obeys.bind (readPte_spares pte) fun x =>
    Obeys.bind (loadPage_spares (pte2pa x)) fun pg => ?_
  refine Obeys.bind (storePage_spares page pg) fun _ => ?_
  refine Obeys.bind (writeToSwapFile_spares p page _) fun _ =>
    Obeys.ite (fun _ => ?_) fun _ => ?_
  · exact panic_spares (by decide)
  refine Obeys.bind (kfree_spares page) fun _ => Obeys.bind (modify_spares _) fun _ => ?_
  refine Obeys.bind (readPte_spares pte) fun x => Obeys.bind (modify_spares _) fun _ => ?_
  exact Obeys.bind (readPte_spares pte) fun x => kfree_spares (pte2pa x)

variable {s : Kernel} {p : Fin nproc}

/-- **`swap_pages`** of a recorded user page does not panic for `PTE_U`. -/
theorem swapPages_userBit {vaOnSwap : Int} {inSwap : Bool} {k : Fin maxPsycPages}
    (hc : s.cur = some p) (hr : RamPresent s p) (hk : s.UserSlot p k) :
    wp (swapPages B pol vaOnSwap ((s.proc p).ram k).va inSwap) (fun _ _ => True)
      (fun e _ => e ≠ userBitPanic) s := by
  have hleaf : (s.ptables (s.proc p).pagetable).leaf (u64 ((s.proc p).ram k).va / pgsize) =
      s.ramPte p k := leaf_ramPage hr
  unfold swapPages
  rw [wp_bind, wp_myproc hc, wp_bind, wp_getProc, wp_bind, wp_walk_present (hr k).1 (hr k).2,
    wp_bind, wp_deref_some, wp_bind, wp_readPte, hleaf,
    if_neg (by simpa [Kernel.UserSlot] using hk), wp_bind, wp_getProc]
  -- the rest of the function has other panics only
  cases findSlot (fun d => d.va == ((s.proc p).ram k).va) (s.proc p).ram with
  | none => exact (panic_spares (by decide)).run s
  | some i =>
    refine Obeys.run (R := fun _ _ => True) ?_ s
    refine Obeys.bind (modify_spares _) fun _ => Obeys.bind (modify_spares _) fun _ => ?_
    have hevict : ∀ j, SparesUserBit (do
        evictPage B p ((s.proc p).ram k).va j
        pure i) := fun j => Obeys.bind (evictPage_spares p _ j) fun _ => Obeys.pure i
    apply Obeys.ite
    · intro _
      exact Obeys.bind (getProc_spares p) fun pr =>
        Obeys.bind (walk_spares _ _ false) fun pte =>
          Obeys.bind (swapfileToRam_spares _ pte i) hevict
    · intro _
      exact Obeys.bind (getProc_spares p) fun pr => Obeys.bind (Obeys.pure _) hevict

/-- **`exchange_pages`** does not panic for `PTE_U` while a user page is recorded. -/
theorem exchangePages_userBit (hc : s.cur = some p) (hr : RamPresent s p)
    (hu : ∃ j, s.UserSlot p j) (vaOnSwap : Nat) (inSwap : Bool) :
    wp (exchangePages B pol vaOnSwap inSwap) (fun _ _ => True) (fun e _ => e ≠ userBitPanic) s := by
  simp only [exchangePages, wp_bind, wp_myproc hc]
  refine wp_mono (victim_spec hc) ?_ ?_
  · rintro k t ⟨haged, huser⟩
    rw [wp_getProc]
    apply swapPages_userBit (by rw [haged.rest]; exact hc) (haged.ramPresent_iff.mpr hr)
    rw [Kernel.UserSlot, haged.ramPte_hasFlag (by decide)]
    exact huser hu
  · rintro e t ⟨-, hn⟩
    exact absurd hr hn

end Panic

/-- **The ageing policies choose minimal victims.**  With mapped `ram` entries of which one has
`PTE_U`, `get_NFUA_index` returns the first user page of minimal age and `get_LAPA_index` the first
user page that is minimal by the number of one bits of the age and then the age; so `exchange_pages`
does not reach the `PTE_U` panic of `swap_pages`. -/
theorem ageing_victims_minimal {s : Kernel} {p : Fin nproc} (hc : s.cur = some p)
    (hr : RamPresent s p) (hu : ∃ j, s.UserSlot p j) : (∃ k, getNfuaIndex s = .ok k s ∧
      First (s.UserSlot p) (fun j => nfuaRank ((s.proc p).ram j).age) k) ∧
    (∃ k, getLapaIndex s = .ok k s ∧
      First (s.UserSlot p) (fun j => lapaRank ((s.proc p).ram j).age) k) ∧
    ∀ (B : Build) (pol : Policy) (vaOnSwap : Nat) (inSwap : Bool),
      wp (exchangePages B pol vaOnSwap inSwap) (fun _ _ => True) (fun e _ => e ≠ userBitPanic) s :=
  ⟨getNfuaIndex_first hc hr hu, getLapaIndex_first hc hr hu,
    fun _ _ => exchangePages_userBit hc hr hu⟩

/-- Sixteen resident pages of which the first lacks `PTE_U`; the age of the page `k` is `16 - k`. -/
def agedKernel : Kernel :=
  residentKernel (fun k => if k = 0 then pteR ||| pteV else permUser ||| pteV)
    (fun k => BitVec.ofNat 32 (16 - k)) fun k => BitVec.ofNat 32 k

theorem agedKernel_present : RamPresent agedKernel 0 := by
  unfold RamPresent SlotPresent
  decide +kernel

theorem agedKernel_victims : (∃ k, getNfuaIndex agedKernel = .ok k agedKernel ∧
      First (agedKernel.UserSlot 0) (fun j => nfuaRank ((agedKernel.proc 0).ram j).age) k) ∧
    ∃ k, getLapaIndex agedKernel = .ok k agedKernel ∧
      First (agedKernel.UserSlot 0) (fun j => lapaRank ((agedKernel.proc 0).ram j).age) k := by
  have h := ageing_victims_minimal (s := agedKernel) (p := 0) rfl agedKernel_present
    ⟨1, by decide +kernel⟩
  exact ⟨h.1, h.2.1⟩

end Xv6Paging
