import Mathlib.Data.List.TakeWhile
import Xv6Paging.Vm.Unmap

/-!
# Copying memory

`uvmcopy`, which gives a child its parent's memory, and the copies between the kernel and user
pages, `copyout`, `copyin` and `copyinstr`.  These go page by page and stop at the first page that
`walkaddr` does not find.  Their addresses are 64-bit numbers, but the one after a page that was
found never wraps around, since the page is below `MAXVA`.
-/

namespace Xv6Paging

open StateHalt Kernel

/-- The error exit of `uvmcopy` at the page `k`. -/
def uvmcopyErr (B : Build) (new k : Nat) : KM (Option Int) := do
  uvmunmap B new 0 k true
  pure (some (-1))

/-- The copy of a mapped page: a fresh frame with the same bytes, mapped with the same flags. -/
def uvmcopyPage (B : Build) (new k : Nat) (x : Pte) : KM (Option Int) := do
  let mem ← kalloc
  if mem = 0 then uvmcopyErr B new k
  else do
    storePage mem (← loadPage (pte2pa x))
    if (← mappages B new (k * pgsize) pgsize mem (pteFlags x)) ≠ 0 then do
      kfree B mem
      uvmcopyErr B new k
    else pure none

/-- One page of `uvmcopy`.  A swapped-out page (paging kernels, `pid > 2`) or a page that
`walkaddr` does not see (lazy kernel) is copied as its flags only. -/
def uvmcopyRound (B : Build) (old new k : Nat) : KM (Option Int) := do
  match ← walk old (k * pgsize) false with
  | none => panic "uvmcopy: pte should exist"
  | some pte => do
    let x ← readPte pte
    let pr ← getProc (← myproc)
    match B.selection with
    | .paging _ =>
      if pr.pid > 2 ∧ hasFlag x ptePG then do
        match ← walk new (k * pgsize) false with
        | none => pure (some (-1))
        | some newPte => do
          writePte newPte (pteFlags x)
          pure none
      else if !hasFlag x pteV then panic "uvmcopy: page not present"
      else uvmcopyPage B new k x
    | .none =>
      if !hasFlag x pteV then panic "uvmcopy: page not present"
      else if (← walkaddr pr.pagetable (k * pgsize)) = 0 then do
        match ← walk new (k * pgsize) true with
        | none => pure (some (-1))
        | some newPte => do
          writePte newPte (pteFlags x)
          pure none
      else uvmcopyPage B new k x

def uvmcopy (B : Build) (old new sz : Nat) : KM Int := do
  pure ((← forReturn (uvmcopyRound B old new) 0 ((sz + (pgsize - 1)) / pgsize)).getD 0)

/-- The loop of `copyout`, a page at a time.  Every round but the last copies at least a byte. -/
def copyoutLoop (pagetable : Nat) : Nat → Nat → List UInt8 → KM Int
  | 0, _, _ => pure 0
  | fuel + 1, dstva, src =>
    if src.length > 0 then do
      let va0 := pgrounddown dstva
      let pa0 ← walkaddr pagetable va0
      if pa0 = 0 then pure (-1)
      else do
        let n := min (pgsize - (dstva - va0)) src.length
        storePage pa0 (pokePage (← loadPage pa0) (dstva - va0) (src.take n))
        copyoutLoop pagetable fuel (va0 + pgsize) (src.drop n)
    else pure 0

/-- `copyout` of the kernel bytes `src` to the user address `dstva`. -/
def copyout (pagetable dstva : Nat) (src : List UInt8) : KM Int :=
  copyoutLoop pagetable (src.length + 1) dstva src

/-- The loop of `copyin`: the result and the bytes copied so far, `dst`. -/
def copyinLoop (pagetable : Nat) : Nat → List UInt8 → Nat → Nat → KM (Int × List UInt8)
  | 0, dst, _, _ => pure (0, dst)
  | fuel + 1, dst, srcva, len =>
    if len > 0 then do
      let va0 := pgrounddown srcva
      let pa0 ← walkaddr pagetable va0
      if pa0 = 0 then pure (-1, dst)
      else do
        let n := min (pgsize - (srcva - va0)) len
        let pg ← loadPage pa0
        copyinLoop pagetable fuel (dst ++ peekPage pg (srcva - va0) n) (va0 + pgsize) (len - n)
    else pure (0, dst)

/-- `copyin` of `len` bytes from the user address `srcva`. -/
def copyin (pagetable srcva len : Nat) : KM (Int × List UInt8) :=
  copyinLoop pagetable (len + 1) [] srcva len

/-- The inner loop of `copyinstr` over the bytes of a page: whether there is a NUL, and what is
stored. -/
def copyinstrPage : List UInt8 → Bool × List UInt8
  | [] => (false, [])
  | c :: p =>
    if c = 0 then (true, [0])
    else
      let r := copyinstrPage p
      (r.1, c :: r.2)

/-- The loop of `copyinstr`: the result and the bytes stored so far, `dst`. -/
def copyinstrLoop (pagetable : Nat) : Nat → List UInt8 → Nat → Nat → KM (Int × List UInt8)
  | 0, dst, _, _ => pure (-1, dst)
  | fuel + 1, dst, srcva, max =>
    if max > 0 then do
      let va0 := pgrounddown srcva
      let pa0 ← walkaddr pagetable va0
      if pa0 = 0 then pure (-1, dst)
      else do
        let n := min (pgsize - (srcva - va0)) max
        let pg ← loadPage pa0
        let r := copyinstrPage (peekPage pg (srcva - va0) n)
        if r.1 then pure (0, dst ++ r.2)
        else copyinstrLoop pagetable fuel (dst ++ r.2) (va0 + pgsize) (max - n)
    else pure (-1, dst)

/-- `copyinstr` of at most `max` bytes from the user address `srcva`. -/
def copyinstr (pagetable srcva max : Nat) : KM (Int × List UInt8) :=
  copyinstrLoop pagetable (max + 1) [] srcva max

/-! ## What a copy leaves alone -/

/-- `copyout` changes user pages of its table and nothing else. -/
structure WritesUser (r : Nat) (s s' : Kernel) : Prop where
  rest : s' = { s with mem := s'.mem }
  mem : ∀ pa, (∀ a, (s.ptables r).userPa a ≠ pa) → s'.mem pa = s.mem pa

theorem WritesUser.refl (r : Nat) (s : Kernel) : WritesUser r s s := ⟨rfl, fun _ _ => rfl⟩

theorem WritesUser.trans {r : Nat} {s t u : Kernel} (h : WritesUser r s t)
    (h' : WritesUser r t u) : WritesUser r s u where
  rest := by rw [h'.rest, h.rest]
  mem pa hpa := by
    have htab : t.ptables = s.ptables := by rw [h.rest]
    rw [h'.mem pa (by rwa [htab]), h.mem pa hpa]

theorem WritesUser.setPage {r a pa : Nat} {s : Kernel} (h : (s.ptables r).userPa a = pa)
    (pg : Page) : WritesUser r s (s.setPage pa pg) where
  rest := rfl
  mem q hq := by
    have hne : q ≠ pa := fun heq => hq a (h.trans heq.symm)
    simp [hne]

theorem copyoutLoop_frame {r fuel : Nat} : ∀ {s : Kernel} {a : Nat} {src : List UInt8},
    wp (copyoutLoop r fuel a src) (fun _ s' => WritesUser r s s') Panics s := by
  induction fuel with
  | zero => exact fun {s} => .refl r s
  | succ fuel ih =>
    intro s a src
    rw [copyoutLoop]
    refine wp_ite (fun _ => ?_) fun _ => .refl r s
    simp only [wp_bind, wp_walkaddr]
    refine wp_ite (fun _ => .refl r s) fun _ => ?_
    simp only [wp_bind, wp_loadPage, wp_storePage]
    split
    · exact wp_post ih fun _ _ h => (WritesUser.setPage rfl _).trans h
    · exact panics_panic _ _

/-- **`copyout`** changes user pages only. -/
theorem copyout_frame {r a : Nat} {src : List UInt8} {s : Kernel} :
    wp (copyout r a src) (fun _ s' => WritesUser r s s') Panics s := copyoutLoop_frame

/-! ## Copies within reach of `walkaddr` -/

/-- `walkaddr` finds a page that the kernel has mapped for every address of the range. -/
def Reachable (pt : PageTable) (a len : Nat) : Prop :=
  ∀ x, a ≤ x → x < a + len → kernbase ≤ pt.userPa x ∧ pt.userPa x < phystop

/-- The byte at the address `a` of a resident page of the table `r`. -/
def Kernel.userByte (s : Kernel) (r a : Nat) : UInt8 :=
  pageBytes (s.mem ((s.ptables r).userPa a)) (a % pgsize)

section Copyin

variable {E : Halt → Kernel → Prop} {s : Kernel} {pt : PageTable} {r a len k : Nat}
  {Q : Int × List UInt8 → Kernel → Prop} {fuel : Nat}

theorem PageTable.userPa_congr (pt : PageTable) {b : Nat} (h : a / pgsize = b / pgsize) :
    pt.userPa a = pt.userPa b := by
  have hmax : a < maxva ↔ b < maxva := by
    simp only [pgsize, maxva] at *
    omega
  simp only [userPa, h, hmax]

theorem pgrounddown_div (a : Nat) : pgrounddown a / pgsize = a / pgsize := by
  simp only [pgrounddown, pgsize]
  omega

theorem peekPage_userByte (a n : Nat) (h : a % pgsize + n ≤ pgsize) :
    peekPage (s.mem ((s.ptables r).userPa a)) (a % pgsize) n =
      (List.range' a n).map (s.userByte r) := by
  rw [peekPage, List.range'_eq_map_range, List.map_map]
  refine List.map_congr_left fun k hk => ?_
  rw [List.mem_range] at hk
  have hdiv : (a + k) / pgsize = a / pgsize := by simp only [pgsize] at *; omega
  have hmod : (a + k) % pgsize = a % pgsize + k := by simp only [pgsize] at *; omega
  simp only [Function.comp, userByte, hmod, PageTable.userPa_congr _ hdiv]

theorem userPa_ne_zero (h : kernbase ≤ pt.userPa a ∧ pt.userPa a < phystop) : pt.userPa a ≠ 0 := by
  simp only [kernbase] at h
  omega

theorem chunk_le (a len : Nat) : a - pgrounddown a = a % pgsize ∧
    a % pgsize + min (pgsize - (a - pgrounddown a)) len ≤ pgsize := by
  simp only [pgrounddown, pgsize]
  omega

theorem chunk_next (h : min (pgsize - (a - pgrounddown a)) len < len) :
    pgrounddown a + pgsize = a + min (pgsize - (a - pgrounddown a)) len := by
  simp only [pgrounddown, pgsize] at *
  omega

/-- The pages of the range that `walkaddr` finds are mapped by the kernel. -/
def Partial (pt : PageTable) (a len : Nat) : Prop :=
  ∀ x, a ≤ x → x < a + len → pt.userPa x = 0 ∨ kernbase ≤ pt.userPa x ∧ pt.userPa x < phystop

/-- Of the range, the first `k` bytes are before the first page that `walkaddr` does not find. -/
structure UpTo (pt : PageTable) (a len k : Nat) : Prop where
  le : k ≤ len
  found : ∀ x, a ≤ x → x < a + k → pt.userPa x ≠ 0
  stop : k < len → pt.userPa (a + k) = 0

theorem exists_upto (pt : PageTable) (a len : Nat) : ∃ k, UpTo pt a len k := by
  induction len with
  | zero => exact ⟨0, le_rfl, fun x _ _ => by omega, fun h => absurd h (Nat.lt_irrefl 0)⟩
  | succ len ih =>
    obtain ⟨k, hle, hfound, hstop⟩ := ih
    by_cases hk : k < len
    · exact ⟨k, by omega, hfound, fun _ => hstop hk⟩
    · obtain rfl : k = len := by omega
      by_cases hnext : pt.userPa (a + k) = 0
      · exact ⟨k, by omega, hfound, fun _ => hnext⟩
      · refine ⟨k + 1, le_rfl, fun x h1 h2 => ?_, fun h => absurd h (Nat.lt_irrefl _)⟩
        rcases Nat.lt_or_ge x (a + k) with hx | hx
        · exact hfound x h1 hx
        · rwa [show x = a + k by omega]

theorem Reachable.upto (h : Reachable pt a len) : UpTo pt a len len :=
  ⟨le_rfl, fun x h1 h2 => userPa_ne_zero (h x h1 h2),
    fun hlt => absurd hlt (Nat.lt_irrefl len)⟩

theorem Reachable.partial (h : Reachable pt a len) : Partial pt a len := fun x h1 h2 =>
  .inr (h x h1 h2)

theorem UpTo.lt {x : Nat} (h : UpTo pt a len k) (hax : a ≤ x)
    (hxa : x < a + len) (hx : pt.userPa x = 0) : k < len := by
  by_contra hk
  have hle := h.le
  exact h.found x hax (by omega) hx

/-- One round of a copy: the bytes up to the next page boundary, and what is left. -/
structure Chunk (pt : PageTable) (a len k n : Nat) : Prop where
  le : n ≤ k
  upto : UpTo pt (a + n) (len - n) (k - n)
  fits : a % pgsize + n ≤ pgsize
  pos : 0 < n
  /-- If the copy has not ended, it goes on at the page boundary. -/
  next : n < len → pgrounddown a + pgsize = a + n

theorem UpTo.chunk (h : UpTo pt a len k) (hpos : 0 < len)
    (hfound : pt.userPa a ≠ 0) : Chunk pt a len k (min (pgsize - a % pgsize) len) := by
  have hlt := Nat.mod_lt a (show 0 < pgsize by decide)
  obtain ⟨hoff, hfits⟩ := chunk_le a len
  rw [hoff] at hfits
  have hnext : min (pgsize - a % pgsize) len < len →
      pgrounddown a + pgsize = a + min (pgsize - a % pgsize) len := by
    intro hend
    rw [← hoff] at hend ⊢
    exact chunk_next hend
  have hle : min (pgsize - a % pgsize) len ≤ k := by
    by_contra hk
    -- the page that is not found would be the first one
    have hdiv : (a + k) / pgsize = a / pgsize := by simp only [pgsize] at *; omega
    exact hfound ((pt.userPa_congr hdiv).symm.trans (h.stop (by omega)))
  have hk := h.le
  refine ⟨hle, ⟨by omega, fun x h1 h2 => h.found x (by omega) (by omega), fun hlt' => ?_⟩, hfits,
    by omega, hnext⟩
  have hstop := h.stop (by omega)
  rwa [show a + min (pgsize - a % pgsize) len + (k - min (pgsize - a % pgsize) len) = a + k by
    omega]

theorem Partial.first (h : Partial pt a len) (hpos : 0 < len)
    (hfound : pt.userPa a ≠ 0) : kernbase ≤ pt.userPa a ∧ pt.userPa a < phystop :=
  (h a le_rfl (by omega)).resolve_left hfound

theorem Partial.rest {n : Nat} (h : Partial pt a len) : Partial pt (a + n) (len - n) :=
  fun x h1 h2 => h x (by omega) (by omega)

theorem UpTo.first_missing (h : UpTo pt a len k) (hmissing : pt.userPa a = 0) : k = 0 := by
  by_contra hk
  exact h.found a le_rfl (by omega) hmissing

/-- **Induction along a copy**: it has ended, or the page at its start is not found, or the bytes up
to the page boundary are copied and the others follow. -/
@[elab_as_elim]
theorem UpTo.rounds {P : Nat → Nat → Nat → Nat → Prop} (ended : ∀ fuel a, P (fuel + 1) a 0 0)
    (missing : ∀ fuel a len, 0 < len → pt.userPa a = 0 → P (fuel + 1) a len 0)
    (page : ∀ fuel a len k n, 0 < len → k ≤ len → kernbase ≤ pt.userPa a ∧ pt.userPa a < phystop →
      min (pgsize - a % pgsize) len = n → Chunk pt a len k n →
      P fuel (pgrounddown a + pgsize) (len - n) (k - n) → P (fuel + 1) a len k)
    (hfuel : len < fuel) (hpart : Partial pt a len) (h : UpTo pt a len k) : P fuel a len k := by
  induction fuel generalizing a len k with
  | zero => omega
  | succ fuel ih =>
    have hle := h.le
    rcases Nat.eq_zero_or_pos len with rfl | hlen
    · obtain rfl : k = 0 := by omega
      exact ended fuel a
    by_cases hfound : pt.userPa a = 0
    · rw [h.first_missing hfound]
      exact missing fuel a len hlen hfound
    have hc := h.chunk hlen hfound
    refine page fuel a len k _ hlen hle (hpart.first hlen hfound) rfl hc ?_
    generalize min (pgsize - a % pgsize) len = n at *
    have hpos := hc.pos
    by_cases hend : n < len
    · rw [hc.next hend]
      exact ih (by omega) hpart.rest hc.upto
    · rw [show len - n = 0 by omega, show k - n = 0 by omega]
      exact ih (by omega) (fun x h1 h2 => by omega)
        ⟨le_rfl, fun x h1 h2 => by omega, fun h => by omega⟩

theorem Chunk.split {n : Nat} (h : Chunk pt a len k n) (hk : k ≤ len) (f : Nat → UInt8) :
    (List.range' a k).map f =
      (List.range' a n).map f ++ (List.range' (pgrounddown a + pgsize) (k - n)).map f := by
  have hn := h.le
  rcases Nat.eq_or_lt_of_le hn with rfl | hlt
  · simp
  · rw [h.next (by omega), ← List.map_append, List.range'_append_1, Nat.add_sub_cancel' hn]

theorem wp_walkaddr_page {Q : Nat → Kernel → Prop} :
    wp (walkaddr r (pgrounddown a)) Q E s ↔ Q ((s.ptables r).userPa a) s := by
  rw [wp_walkaddr, (s.ptables r).userPa_congr (pgrounddown_div a)]

theorem wp_copyinLoop (hfuel : len < fuel)
    (hpart : Partial (s.ptables r) a len) (hupto : UpTo (s.ptables r) a len k) :
    ∀ dst : List UInt8, wp (copyinLoop r fuel dst a len) Q E s ↔
      Q (if k = len then 0 else -1, dst ++ (List.range' a k).map (s.userByte r)) s := by
  refine hupto.rounds ?_ ?_ ?_ hfuel hpart
  · intro fuel a dst
    simp [copyinLoop]
  · intro fuel a len hlen hfound dst
    rw [copyinLoop, if_pos hlen]
    simp only [wp_bind, wp_walkaddr_page, if_pos hfound, wp_pure]
    rw [if_neg (by omega)]
    simp
  · intro fuel a len k n hlen hk hpage hn hc ih dst
    rw [copyinLoop, if_pos hlen]
    simp only [wp_bind, wp_walkaddr_page, if_neg (userPa_ne_zero hpage), wp_loadPage, if_pos hpage,
      (chunk_le a len).1, hn]
    rw [ih, peekPage_userByte a n hc.fits, List.append_assoc, ← hc.split hk]
    have hpos := hc.le
    simp only [show k - n = len - n ↔ k = len by omega]

/-- **`copyin`** copies the bytes before the first page that is not found, and fails if there is
such a page. -/
theorem wp_copyin_upto (h : Partial (s.ptables r) a len) (hk : UpTo (s.ptables r) a len k) :
    wp (copyin r a len) Q E s ↔
      Q (if k = len then 0 else -1, (List.range' a k).map (s.userByte r)) s := by
  rw [copyin, wp_copyinLoop (Nat.lt_succ_self len) h hk [], List.nil_append]

/-- **`copyin` of a reachable range** returns its bytes. -/
theorem wp_copyin {Q : Int × List UInt8 → Kernel → Prop} (h : Reachable (s.ptables r) a len) :
    wp (copyin r a len) Q E s ↔ Q (0, (List.range' a len).map (s.userByte r)) s := by
  rw [wp_copyin_upto h.partial h.upto, if_pos rfl]

/-- **`copyin` fails** if `walkaddr` does not find one of the pages. -/
theorem copyin_fails {x : Nat} (h : Partial (s.ptables r) a len) (hax : a ≤ x)
    (hxa : x < a + len) (hx : (s.ptables r).userPa x = 0) :
    wp (copyin r a len) (fun ret s' => ret.1 = -1 ∧ s' = s) E s := by
  obtain ⟨k, hk⟩ := exists_upto (s.ptables r) a len
  have hlt := hk.lt hax hxa hx
  rw [wp_copyin_upto h hk, if_neg (by omega)]
  exact ⟨rfl, rfl⟩

/-! ## Strings -/

theorem copyinstrPage_eq (p : List UInt8) : copyinstrPage p =
    if 0 ∈ p then (true, p.takeWhile (· ≠ 0) ++ [0]) else (false, p) := by
  induction p with
  | nil => rfl
  | cons c p ih =>
    rw [copyinstrPage]
    by_cases hc : c = 0
    · simp [hc]
    · rw [if_neg hc, ih]
      by_cases hp : 0 ∈ p <;> simp [hp, hc, Ne.symm hc]

/-- What `copyinstr` returns and stores, if `t` is the text before the first page that is not
found. -/
def instrResult (t : List UInt8) : Int × List UInt8 :=
  if 0 ∈ t then (0, t.takeWhile (· ≠ 0) ++ [0]) else (-1, t)

theorem instrResult_append {t u : List UInt8} (h : 0 ∉ t) :
    instrResult (t ++ u) = ((instrResult u).1, t ++ (instrResult u).2) := by
  have ht : (t ++ u).takeWhile (· ≠ 0) = t ++ u.takeWhile (· ≠ 0) := by
    apply List.takeWhile_append_of_pos
    intro c hc
    exact decide_eq_true fun h0 => h (h0 ▸ hc)
  unfold instrResult
  by_cases hu : 0 ∈ u
  · rw [if_pos (List.mem_append_right t hu), if_pos hu, ht, List.append_assoc]
  · rw [if_neg (by simp [h, hu]), if_neg hu]

theorem wp_copyinstrLoop (hfuel : len < fuel)
    (hpart : Partial (s.ptables r) a len) (hupto : UpTo (s.ptables r) a len k) :
    ∀ dst : List UInt8, 0 ∉ dst → (wp (copyinstrLoop r fuel dst a len) Q E s ↔
      Q (instrResult (dst ++ (List.range' a k).map (s.userByte r))) s) := by
  have hnone : ∀ dst : List UInt8, 0 ∉ dst → instrResult (dst ++ []) = (-1, dst) := by
    intro dst hdst
    rw [List.append_nil, instrResult, if_neg hdst]
  refine hupto.rounds ?_ ?_ ?_ hfuel hpart
  · intro fuel a dst hdst
    rw [List.range'_zero, List.map_nil, hnone dst hdst]
    exact Iff.rfl
  · intro fuel a len hlen hfound dst hdst
    rw [copyinstrLoop, if_pos hlen]
    simp only [wp_bind, wp_walkaddr_page, if_pos hfound, wp_pure]
    rw [List.range'_zero, List.map_nil, hnone dst hdst]
  · intro fuel a len k n hlen hk hpage hn hc ih dst hdst
    rw [copyinstrLoop, if_pos hlen]
    simp only [wp_bind, wp_walkaddr_page, if_neg (userPa_ne_zero hpage), wp_loadPage, if_pos hpage,
      (chunk_le a len).1, hn]
    rw [peekPage_userByte a n hc.fits, copyinstrPage_eq, hc.split hk]
    by_cases hnul : 0 ∈ (List.range' a n).map (s.userByte r)
    · have hcut : ∀ u, ((List.range' a n).map (s.userByte r) ++ u).takeWhile (· ≠ 0) =
          ((List.range' a n).map (s.userByte r)).takeWhile (· ≠ 0) := by
        intro u
        rw [List.takeWhile_append, if_neg]
        intro heq
        have hself := (List.takeWhile_prefix (· ≠ (0 : UInt8))).eq_of_length heq
        exact of_decide_eq_true (List.takeWhile_eq_self_iff.mp hself 0 hnul) rfl
      rw [if_pos hnul, instrResult_append hdst, instrResult, if_pos (List.mem_append_left _ hnul),
        hcut]
      exact Iff.rfl
    · rw [if_neg hnul, ← List.append_assoc]
      exact ih _ (by simp [hdst, hnul])

/-- **`copyinstr`** looks for a NUL in the text before the first page that is not found. -/
theorem wp_copyinstr_upto (h : Partial (s.ptables r) a len) (hk : UpTo (s.ptables r) a len k) :
    wp (copyinstr r a len) Q E s ↔ Q (instrResult ((List.range' a k).map (s.userByte r))) s := by
  rw [copyinstr, wp_copyinstrLoop (Nat.lt_succ_self len) h hk [] List.not_mem_nil,
    List.nil_append]

end Copyin

section Copyout

variable {E : Halt → Kernel → Prop} {s : Kernel} {pt : PageTable} {src : List UInt8}
  {r a len k : Nat}

/-- The frames of different pages of the range differ. -/
def DistinctPages (pt : PageTable) (a len : Nat) : Prop :=
  ∀ x y, a ≤ x → x < a + len → a ≤ y → y < a + len → pt.userPa x = pt.userPa y →
    x / pgsize = y / pgsize

/-- The state after `src` was copied to the address `a` of the table `r`. -/
structure CopiedOut (r a : Nat) (src : List UInt8) (s s' : Kernel) : Prop where
  rest : s' = { s with mem := s'.mem }
  bytes : ∀ k, k < src.length → s'.userByte r (a + k) = src.getD k 0
  mem : ∀ pa, (∀ x, a ≤ x → x < a + src.length → (s.ptables r).userPa x ≠ pa) →
    s'.mem pa = s.mem pa

/-- The bytes that are not in the range are as before. -/
structure CopiedBytes (r a : Nat) (src : List UInt8) (s s' : Kernel) : Prop
    extends CopiedOut r a src s s' where
  other : ∀ pa j, (∀ k, k < src.length → ¬((s.ptables r).userPa (a + k) = pa ∧
    (a + k) % pgsize = j)) → pageBytes (s'.mem pa) j = pageBytes (s.mem pa) j

theorem CopiedBytes.refl (r a : Nat) (s : Kernel) : CopiedBytes r a [] s s where
  rest := rfl
  bytes k hk := absurd hk (Nat.not_lt_zero k)
  mem _ _ := rfl
  other _ _ _ := rfl

theorem pageBytes_pokePage (pg : Page) (src : List UInt8) {off : Nat}
    (h : off + src.length ≤ pgsize) (j : Nat) : pageBytes (pokePage pg off src) j =
      if off ≤ j ∧ j < off + src.length then src.getD (j - off) 0 else pageBytes pg j := by
  unfold pageBytes
  by_cases hj : j < pgsize
  · simp only [dif_pos hj, pokePage]
  · rw [dif_neg hj, dif_neg hj, if_neg (by omega)]

theorem userPa_add (pt : PageTable) {n : Nat} (hfits : a % pgsize + n ≤ pgsize) (hk : k < n) :
    pt.userPa (a + k) = pt.userPa a ∧ (a + k) % pgsize = a % pgsize + k := by
  have hdiv : (a + k) / pgsize = a / pgsize := by simp only [pgsize] at *; omega
  exact ⟨pt.userPa_congr hdiv, by simp only [pgsize] at *; omega⟩

theorem CopiedBytes.page (r : Nat) (s : Kernel) (hpos : 0 < src.length)
    (hfits : a % pgsize + src.length ≤ pgsize) :
    CopiedBytes r a src s (s.setPage ((s.ptables r).userPa a)
      (pokePage (s.mem ((s.ptables r).userPa a)) (a % pgsize) src)) := by
  refine ⟨⟨rfl, fun k hk => ?_, fun pa hpa => ?_⟩, fun pa j hj => ?_⟩
  · obtain ⟨hpa, hmod⟩ := userPa_add (s.ptables r) hfits hk
    rw [userByte, setPage_ptables, hpa, hmod, setPage_mem,
      Function.update_self, pageBytes_pokePage _ _ hfits, if_pos ⟨by omega, by omega⟩,
      Nat.add_sub_cancel_left]
  · rw [setPage_mem, Function.update_of_ne]
    exact Ne.symm (hpa a le_rfl (by omega))
  · rw [setPage_mem]
    by_cases hpa : pa = (s.ptables r).userPa a
    · rw [hpa, Function.update_self, pageBytes_pokePage _ _ hfits, if_neg]
      intro hin
      obtain ⟨hpa', hmod⟩ := userPa_add (s.ptables r) hfits
        (show j - a % pgsize < src.length by omega)
      exact hj (j - a % pgsize) (by omega) ⟨hpa'.trans hpa.symm, by omega⟩
    · rw [Function.update_of_ne hpa]

theorem CopiedBytes.trans {b : Nat} {u v : List UInt8} {t s' : Kernel}
    (h : CopiedBytes r a u s t) (h' : CopiedBytes r b v t s') (hb : v ≠ [] → b = a + u.length)
    (hdist : DistinctPages (s.ptables r) a (u.length + v.length)) :
    CopiedBytes r a (u ++ v) s s' := by
  have htab : t.ptables = s.ptables := by rw [h.rest]
  have htab' : s'.ptables = s.ptables := by rw [h'.rest, htab]
  have hbv : ∀ k, k < v.length → b = a + u.length := fun k hk =>
    hb (List.ne_nil_of_length_pos (by omega))
  refine ⟨⟨?_, fun k hk => ?_, fun pa hpa => ?_⟩, fun pa j hj => ?_⟩
  · rw [h'.rest, h.rest]
  · rw [List.length_append] at hk
    by_cases hku : k < u.length
    · -- the second copy is at other places
      have hsame : s'.userByte r (a + k) = t.userByte r (a + k) := by
        rw [userByte, userByte, htab', htab]
        refine h'.other _ _ fun i hi heq => ?_
        rw [htab, hbv i hi] at heq
        have hdiv := hdist _ _ (by omega) (by omega) (by omega) (by omega) heq.1
        have hmod := heq.2
        simp only [pgsize] at *
        omega
      rw [hsame, h.bytes k hku, List.getD_eq_getElem?_getD, List.getD_eq_getElem?_getD,
        List.getElem?_append_left hku]
    · have hbyte := h'.bytes (k - u.length) (by omega)
      rw [hbv (k - u.length) (by omega),
        show a + u.length + (k - u.length) = a + k by omega] at hbyte
      rw [hbyte, List.getD_eq_getElem?_getD, List.getD_eq_getElem?_getD,
        List.getElem?_append_right (by omega)]
  · rw [List.length_append] at hpa
    rw [h'.mem pa fun x h1 h2 => ?_, h.mem pa fun x h1 h2 => hpa x h1 (by omega)]
    have hb := hbv (x - b) (by omega)
    rw [htab]
    exact hpa x (by omega) (by omega)
  · rw [List.length_append] at hj
    rw [h'.other pa j fun k hk => ?_, h.other pa j fun k hk => hj k (by omega)]
    rw [htab, hbv k hk, Nat.add_assoc]
    exact hj (u.length + k) (by omega)

theorem copyoutLoop_spec {fuel : Nat} (hfuel : len < fuel) (hpart : Partial pt a len)
    (hupto : UpTo pt a len k) : ∀ (s : Kernel) (src : List UInt8), s.ptables r = pt →
    src.length = len → wp (copyoutLoop r fuel a src) (fun ret s' =>
      ret = (if k = len then 0 else -1) ∧
      (DistinctPages pt a k → CopiedBytes r a (src.take k) s s')) E s := by
  refine hupto.rounds ?_ ?_ ?_ hfuel hpart
  · intro fuel a s src _ hlen
    rw [copyoutLoop, if_neg (by omega)]
    exact ⟨rfl, fun _ => .refl r a s⟩
  · intro fuel a len hpos hfound s src hpt hlen
    rw [copyoutLoop, if_pos (by omega)]
    simp only [wp_bind, wp_walkaddr_page, hpt, if_pos hfound, wp_pure]
    exact ⟨(if_neg (by omega)).symm, fun _ => .refl r a s⟩
  · intro fuel a len k n hpos hk hpage hn hc ih s src hpt hlen
    rw [copyoutLoop, if_pos (by omega)]
    simp only [wp_bind, wp_walkaddr_page, hpt, if_neg (userPa_ne_zero hpage), wp_loadPage,
      wp_storePage, if_pos hpage, (chunk_le a src.length).1, hlen, hn]
    have hle := hc.le
    have hnext := hc.next
    have htake : (src.take n).length = n := List.length_take_of_le (by omega)
    have hfirst := CopiedBytes.page r s (htake.symm ▸ hc.pos : 0 < (src.take n).length)
      (htake.symm ▸ hc.fits)
    rw [hpt] at hfirst
    refine wp_post (ih _ (src.drop n) hpt (by rw [List.length_drop, hlen])) fun ret s' hret => ?_
    refine ⟨?_, fun hd => ?_⟩
    · rw [hret.1]
      simp only [show k - n = len - n ↔ k = len by omega]
    · have hcopy := hret.2 fun x y h1 h2 h3 h4 =>
        hd x y (by omega) (by omega) (by omega) (by omega)
      have hparts : src.take n ++ (src.drop n).take (k - n) = src.take k := by
        rw [← List.take_add, Nat.add_sub_cancel' hle]
      rw [← hparts]
      refine hfirst.trans hcopy (fun hne => ?_) ?_
      · have hrest := List.length_pos_of_ne_nil hne
        rw [List.length_take] at hrest
        rw [htake]
        exact hnext (by omega)
      · rwa [hpt, htake, List.length_take_of_le (by rw [List.length_drop]; omega),
          Nat.add_sub_cancel' hle]

/-- **`copyout`** copies the bytes before the first page that is not found, and fails if there is
such a page. -/
theorem copyout_upto (h : Partial (s.ptables r) a src.length)
    (hk : UpTo (s.ptables r) a src.length k) :
    wp (copyout r a src) (fun ret s' => ret = (if k = src.length then 0 else -1) ∧
      (DistinctPages (s.ptables r) a k → CopiedBytes r a (src.take k) s s')) E s :=
  copyoutLoop_spec (Nat.lt_succ_self _) h hk s src rfl rfl

/-- **`copyout` to a reachable range** returns 0 and stores the bytes. -/
theorem copyout_spec (h : Reachable (s.ptables r) a src.length)
    (hd : DistinctPages (s.ptables r) a src.length) :
    wp (copyout r a src) (fun ret s' => ret = 0 ∧ CopiedOut r a src s s') E s := by
  refine wp_post (copyout_upto h.partial h.upto) fun ret s' hret => ?_
  have hcopy := hret.2 hd
  rw [List.take_length] at hcopy
  exact ⟨hret.1.trans (if_pos rfl), hcopy.toCopiedOut⟩

end Copyout

end Xv6Paging
