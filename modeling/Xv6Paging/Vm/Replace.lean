import Xv6Paging.Fs.SwapFile
import Xv6Paging.Vm.Walk

/-!
# Page replacement

The victim policies, the exchange of a resident page with a swapped-out one, and the loading of a
page from the swap file (`get_NFUA_index`, `get_LAPA_index`, `get_SCFIFO_index`, `exchange_pages`,
`swap_pages`, `swapfile_to_ram`, `swap`).
-/

namespace Xv6Paging

open StateHalt
open Function (update)

/-- The first slot that satisfies `c`: the search loops over `p->ram` and `p->swap`. -/
def findSlot (c : PageData → Bool) (d : Slots) : Option (Fin maxPsycPages) :=
  (List.finRange maxPsycPages).find? fun i => c (d i)

def countPages (d : Slots) : Nat := (List.finRange maxPsycPages).countP fun i => (d i).used

theorem countPages_le (d : Slots) : countPages d ≤ maxPsycPages := by
  have h : countPages d ≤ (List.finRange maxPsycPages).length := List.countP_le_length
  rwa [List.length_finRange] at h

/-- The fields of a slot that `exec`, `uvmalloc` and `swapfile_to_ram` set when a page enters it,
with the age or the queue position of the policy. -/
def stampPage (pol : Policy) (counter : BitVec 32) (d : PageData) (va : Nat) : PageData :=
  let d := { d with offset := -1, va := i32 va, used := true }
  match pol with
  | .scfifo => { d with fifoTime := counter }
  | .nfua => { d with age := 0#32 }
  | .lapa => { d with age := 0xFFFFFFFF#32 }

theorem stampPage_used (pol : Policy) (counter : BitVec 32) (d : PageData) (va : Nat) :
    (stampPage pol counter d va).used = true := by
  cases pol <;> rfl

theorem stampPage_va (pol : Policy) (counter : BitVec 32) (d : PageData) (va : Nat) :
    (stampPage pol counter d va).va = i32 va := by
  cases pol <;> simp only [stampPage]

/-- `p->fifo_counter++`, in the SCFIFO kernel. -/
def tick (pol : Policy) (counter : BitVec 32) : BitVec 32 :=
  match pol with
  | .scfifo => counter + 1
  | .nfua => counter
  | .lapa => counter

/-- A page enters the `ram` slot `k`. -/
def admitPage (pol : Policy) (pr : Proc) (k : Fin maxPsycPages) (va : Nat) : Proc :=
  { pr with
    ram := update pr.ram k (stampPage pol pr.fifoCounter (pr.ram k) va)
    fifoCounter := tick pol pr.fifoCounter }

/-! ## Victims -/

/-- The entry of the page in a `ram` slot of the running process. -/
def slotPte (p : Fin nproc) (k : Fin maxPsycPages) : KM PteRef := do
  let pr ← getProc p
  deref (← walk pr.pagetable (u64 (pr.ram k).va) false)

/-- The scan of the three policies: the first user page of the `ram` array whose key no other user
page betters, and slot 0 if there is none. -/
def scanRam (p : Fin nproc) (key : PageData → BitVec 32) (better : BitVec 32 → BitVec 32 → Bool) :
    KM (Fin maxPsycPages) := do
  let r ← forFold (fun i acc => do
    let k := Fin.ofNat maxPsycPages i
    let x ← readPte (← slotPte p k)
    let a := key ((← getProc p).ram k)
    if !hasFlag x pteU then pure acc
    else
      match acc with
      | none => pure (some (k, a))
      | some (j, b) => if better a b then pure (some (k, a)) else pure (some (j, b)))
    0 maxPsycPages none
  pure ((r.map Prod.fst).getD 0)

/-- `get_NFUA_index`: the first user page of minimal age. -/
def getNfuaIndex : KM (Fin maxPsycPages) := do
  scanRam (← myproc) PageData.age fun age a => age < a

/-- The one bits of an age. -/
def ones (age : BitVec 32) : Nat := (List.range 32).countP fun j => age.getLsbD j

/-- Shifting a word to the left halves its mirror image. -/
theorem reverse_shiftLeft_one (x : BitVec 32) : (x <<< 1).reverse = x.reverse >>> 1 := by
  ext i hi
  simp only [BitVec.getElem_reverse, BitVec.getMsbD_shiftLeft, BitVec.getElem_ushiftRight,
    BitVec.getLsbD_reverse]
  rw [Nat.add_comm]

/-- The inner loop of `get_LAPA_index`; it ends when the mask is shifted out of the word. -/
def onesLoop (age idxMask : BitVec 32) (counter : Nat) : Nat :=
  if idxMask = 0#32 then counter
  else onesLoop age (idxMask <<< 1) (if age &&& idxMask ≠ 0#32 then counter + 1 else counter)
termination_by idxMask.reverse.toNat
decreasing_by
  rw [reverse_shiftLeft_one, BitVec.toNat_ushiftRight, Nat.shiftRight_one]
  refine Nat.div_lt_self (Nat.pos_of_ne_zero fun hzero => ?_) Nat.one_lt_two
  have hrev : idxMask.reverse = 0#32 := BitVec.eq_of_toNat_eq hzero
  rename_i hmask
  exact hmask (BitVec.reverse_eq_zero_iff.mp hrev)

/-- The inner loop from the bit `j` on counts the one bits from there on. -/
theorem onesLoop_from (age : BitVec 32) {j : Nat} (hj : j ≤ 32) (counter : Nat) :
    onesLoop age (1#32 <<< j) counter =
      counter + ((List.range' j (32 - j)).countP fun i => age.getLsbD i) := by
  -- by induction on the bits that are left
  induction hn : 32 - j generalizing j counter with
  | zero =>
    obtain rfl : j = 32 := by omega
    rw [onesLoop, if_pos (by decide)]
    rfl
  | succ n ih =>
    have hne : 1#32 <<< j ≠ 0#32 := by
      intro hzero
      have hbit := congrArg (fun x => x.getLsbD j) hzero
      simp [← BitVec.twoPow_eq, BitVec.getLsbD_twoPow] at hbit
      omega
    rw [onesLoop, if_neg hne, ← BitVec.shiftLeft_add, ih (by omega) _ (by omega),
      List.range'_succ, List.countP_cons, ← BitVec.twoPow_eq, BitVec.and_twoPow]
    by_cases hbit : age.getLsbD j
    · rw [if_pos hbit, if_pos (by rwa [BitVec.twoPow_eq]), if_pos hbit]
      omega
    · rw [if_neg hbit, if_neg (by simp), if_neg hbit]
      omega

/-- **The inner loop counts the one bits.** -/
theorem onesLoop_eq (age : BitVec 32) : onesLoop age 1#32 0 = ones age := by
  have h := onesLoop_from age (Nat.zero_le 32) 0
  rwa [BitVec.shiftLeft_zero, Nat.zero_add, Nat.sub_zero, ← List.range_eq_range'] at h

/-- `get_LAPA_index`: the first user page with the fewest one bits, and of minimal age among
those. -/
def getLapaIndex : KM (Fin maxPsycPages) := do
  scanRam (← myproc) PageData.age fun age a =>
    onesLoop age 1#32 0 < onesLoop a 1#32 0 ∨
      (onesLoop a 1#32 0 = onesLoop age 1#32 0 ∧ age < a)

/-- The rounds of `get_SCFIFO_index`.  Every round but the last clears an accessed bit of one of
the 16 pages, so 17 rounds are enough. -/
def scfifoLoop (p : Fin nproc) : Nat → KM (Fin maxPsycPages)
  | 0 => panic "get_SCFIFO_index: rounds"
  | fuel + 1 => do
    let k ← scanRam p PageData.fifoTime fun time t => time < t
    let pte ← slotPte p k
    let x ← readPte pte
    if hasFlag x pteA then do
      writePte pte (x &&& ~~~pteA)
      modifyProc p fun pr => { pr with
        ram := update pr.ram k { pr.ram k with fifoTime := pr.fifoCounter }
        fifoCounter := pr.fifoCounter + 1 }
      scfifoLoop p fuel
    else pure k

def getScfifoIndex : KM (Fin maxPsycPages) := do
  scfifoLoop (← myproc) (maxPsycPages + 1)

/-- The policy call of `exchange_pages`. -/
def victim (pol : Policy) : KM (Fin maxPsycPages) :=
  match pol with
  | .scfifo => getScfifoIndex
  | .nfua => getNfuaIndex
  | .lapa => getLapaIndex

/-! ## Swapping -/

/-- The permissions of a user page. -/
abbrev permUser : Pte := pteW ||| pteX ||| pteR ||| pteU

def swapfileToRam (pol : Policy) (va : Nat) (pte : Option PteRef)
    (ramArrIndex : Fin maxPsycPages) : KM (Fin maxPsycPages) := do
  let p ← myproc
  match findSlot (fun d => u64 d.va == va) (← getProc p).swap with
  | none => panic "error: can't find page in swapfile"
  | some swapArrIndex => do
    let page ← kalloc
    if (← readFromSwapFile p page (swapArrIndex * pgsize)) = -1 then
      panic "error when reading from swap file"
    else do
      modifyProc p fun pr => admitPage pol pr ramArrIndex va
      if (← mappage (← getProc p).pagetable va page permUser) ≠ 0 then panic "mappage error"
      else do
        let pte ← deref pte
        writePte pte ((← readPte pte) &&& ~~~ptePG)
        modifyProc p fun pr => { pr with swap := update pr.swap swapArrIndex .removed }
        pure swapArrIndex

/-- The second half of `swap_pages`: the page at `vaOnRam`, already off the `ram` array, goes to
the swap slot, and its frame is freed. -/
def evictPage (B : Build) (p : Fin nproc) (vaOnRam : Int) (swapArrIndex : Fin maxPsycPages) :
    KM Unit := do
  let off := swapArrIndex * pgsize
  let page ← kalloc
  let pte ← deref (← walk (← getProc p).pagetable (u64 vaOnRam) false)
  storePage page (← loadPage (pte2pa (← readPte pte)))
  if (← writeToSwapFile p page off) = -1 then panic "error when trying to write to swapfile"
  else do
    kfree B page
    modifyProc p fun pr => { pr with
      swap := update pr.swap swapArrIndex
        { pr.swap swapArrIndex with va := vaOnRam, offset := off, used := true } }
    writePte pte ((← readPte pte) ||| ptePG)
    kfree B (pte2pa (← readPte pte))

def swapPages (B : Build) (pol : Policy) (vaOnSwap vaOnRam : Int) (inSwap : Bool) :
    KM (Fin maxPsycPages) := do
  let p ← myproc
  let pte ← deref (← walk (← getProc p).pagetable (u64 vaOnRam) false)
  let x ← readPte pte
  if !hasFlag x pteU then panic "trying to swap a page with a PGE_U bit turned-off"
  else
    match findSlot (fun d => d.va == vaOnRam) (← getProc p).ram with
    | none => panic "error when trying to locate a page in RAM"
    | some ramArrIndex => do
      writePte pte (x &&& ~~~pteV)
      modifyProc p fun pr => { pr with ram := update pr.ram ramArrIndex .removed }
      let swapArrIndex ←
        if inSwap then do
          let pte ← walk (← getProc p).pagetable (u64 vaOnSwap) false
          swapfileToRam pol (u64 vaOnSwap) pte ramArrIndex
        else do
          pure ((findSlot (fun d => !d.used) (← getProc p).swap).getD 0)
      evictPage B p vaOnRam swapArrIndex
      pure ramArrIndex

def exchangePages (B : Build) (pol : Policy) (vaOnSwap : Nat) (inSwap : Bool) :
    KM (Fin maxPsycPages) := do
  let p ← myproc
  let ramArrIndex ← victim pol
  let vaOnRam := ((← getProc p).ram ramArrIndex).va
  swapPages B pol (i32 vaOnSwap) vaOnRam inSwap

def swap (B : Build) (pol : Policy) (va : Nat) (pte : PteRef) : KM Unit := do
  let p ← myproc
  if countPages (← getProc p).ram < maxPsycPages then
    match findSlot (fun d => !d.used) (← getProc p).ram with
    | none => panic "error: too many pages in RAM"
    | some ramArrIndex => do
      let _ ← swapfileToRam pol va (some pte) ramArrIndex
      pure ()
  else do
    let _ ← exchangePages B pol va true
    pure ()

end Xv6Paging
