import Xv6Paging.Machine.Sample
import Xv6Paging.Vm.Alloc

/-!
# The arithmetic of `sbrk`

The size of a process passes through `int`, `uint` and `uint64` variables on its way through
`sys_sbrk`, `growproc` and the functions below it, and a sum that wraps around is taken for a
request with nothing to do.
-/

namespace Xv6Paging

open StateHalt

variable {B : Build} {s s' : Kernel} {p : Fin nproc} {n r : Int}

/-! ## What the allocators return -/

theorem uvmallocRound_result (pagetable oldsz k : Nat) :
    wp (uvmallocRound B pagetable oldsz k) (fun o _ => o = none ∨ o = some 0)
      (fun _ _ => True) s := by
  simp only [uvmallocRound, uvmallocPage, wp_bind]
  refine wp_any fun idx s₁ => wp_any fun mem s₂ => ?_
  apply wp_ite
  · intro _
    exact (wp_bind).mpr (wp_any fun _ _ => .inr rfl)
  · intro _
    refine (wp_bind).mpr (wp_any fun _ _ => (wp_bind).mpr (wp_any fun res s₃ => ?_))
    apply wp_ite
    · intro _
      exact (wp_bind).mpr (wp_any fun _ _ => (wp_bind).mpr (wp_any fun _ _ => .inr rfl))
    · intro _
      exact (wp_bind).mpr (wp_any fun _ _ => .inl rfl)

theorem lazyAllocRound_result (pagetable oldsz k : Nat) :
    wp (lazyAllocRound pagetable oldsz k) (fun o _ => o = none ∨ o = some 0)
      (fun _ _ => True) s := by
  simp only [lazyAllocRound, wp_bind]
  refine wp_any fun pte s₁ => ?_
  cases pte with
  | none => exact .inr rfl
  | some pte => exact (wp_bind).mpr (wp_any fun _ _ => (wp_bind).mpr (wp_any fun _ _ => .inl rfl))

theorem forReturn_result {β : Type} {body : Nat → KM (Option β)} {new z : β}
    (h : ∀ k s, wp (body k) (fun o _ => o = none ∨ o = some z) (fun _ _ => True) s) (m : Nat) :
    wp (do pure ((← forReturn body 0 m).getD new)) (fun a _ => a = new ∨ a = z)
      (fun _ _ => True) s := by
  rw [wp_bind]
  refine wp_forReturn (fun _ _ => True) trivial (fun k s _ _ _ => ?_) fun _ _ => .inl rfl
  refine wp_post (h k s) fun o _ ho => ?_
  rcases ho with rfl | rfl
  · trivial
  · exact .inr rfl

theorem uvmalloc_result (pagetable oldsz newsz : Nat) : wp (uvmalloc B pagetable oldsz newsz)
      (fun a _ => if newsz < oldsz then a = oldsz else a = newsz ∨ a = 0) (fun _ _ => True) s := by
  unfold uvmalloc
  by_cases hlt : newsz < oldsz
  · simp only [if_pos hlt, wp_pure]
  · simp only [if_neg hlt]
    exact forReturn_result (fun k _ => uvmallocRound_result pagetable _ k) _

theorem lazyAlloc_result (pagetable oldsz newsz : Nat) : wp (lazyAlloc pagetable oldsz newsz)
      (fun a _ => if newsz < oldsz then a = i32 oldsz else a = i32 newsz ∨ a = 0)
      (fun _ _ => True) s := by
  unfold lazyAlloc
  by_cases hlt : newsz < oldsz
  · simp only [if_pos hlt, wp_pure]
  · simp only [if_neg hlt]
    exact forReturn_result (fun k _ => lazyAllocRound_result pagetable _ k) _

theorem uvmdealloc_result (pagetable oldsz newsz : Nat) :
    wp (uvmdealloc B pagetable oldsz newsz) (fun a _ => a = min oldsz newsz)
      (fun _ _ => True) s := by
  unfold uvmdealloc
  by_cases hge : newsz ≥ oldsz
  · simp only [if_pos hge, wp_pure]
    omega
  · simp only [if_neg hge, wp_bind]
    refine wp_any fun _ _ => ?_
    show newsz = min oldsz newsz
    omega

/-! ## Machine integers -/

theorem u32_lt (z : Int) : u32 z < 2 ^ 32 := by
  unfold u32
  omega

theorem u32_i32 {m : Nat} (h : m < 2 ^ 32) : u32 (i32 m) = m := by
  have hmod : i32 m % 2 ^ 32 = (m : Int) % 2 ^ 32 := Int.bmod_emod
  unfold u32
  rw [hmod]
  omega

/-- An address below 2 GiB survives the `int` variable of `sys_sbrk`, and no other does. -/
theorem u64_i32_eq_iff {m : Nat} (h : m < 2 ^ 32) : u64 (i32 m) = m ↔ m < 2 ^ 31 := by
  unfold u64 i32
  by_cases hm : m < 2 ^ 31
  · rw [Int.bmod_eq_of_le (by omega) (by omega)]
    omega
  · have hneg : (m : Int).bmod (2 ^ 32) = m - 2 ^ 32 := by
      rw [Int.bmod_def]
      omega
    rw [hneg]
    omega

/-! ## The new size -/

/-- The size after a `growproc` that returns 0. -/
def grownSize (sz : Nat) (n : Int) : Nat :=
  if n > 0 then if u32 (sz + n) < sz then sz else u32 (sz + n)
  else if n < 0 then min sz (u32 (sz + n))
  else sz

/-- The request is granted to the byte exactly when the sum does not wrap around. -/
theorem grownSize_eq_iff {sz : Nat} (hsz : sz < 2 ^ 32) (hlo : -2 ^ 31 ≤ n) (hhi : n < 2 ^ 31) :
    (grownSize sz n : Int) = sz + n ↔ 0 ≤ sz + n ∧ sz + n < 2 ^ 32 := by
  unfold grownSize u32
  split
  · split <;> omega
  · split <;> omega

theorem wp_setSize {sz m : Nat} (h : m = sz) :
    wp (do modifyProc p fun pr => { pr with sz := m }
           pure (0 : Int))
      (fun r s' => r = -1 ∨ r = 0 ∧ (s'.proc p).sz = sz) (fun _ _ => True) s := by
  subst h
  refine .inr ⟨rfl, ?_⟩
  simp

/-- The branches that `growproc` and `lazy_growproc` share, over the allocator. -/
theorem resize_size {β : Type} {alloc : KM β} {word : β → Nat} {pagetable sz : Nat}
    (hsz : sz < 2 ^ 32) (h : wp alloc (fun a _ => if u32 (sz + n) < sz then word a = sz
      else word a = u32 (sz + n) ∨ word a = 0) (fun _ _ => True) s) :
    wp (if n > 0 then do
          let r ← alloc
          if word r = 0 then pure (-1)
          else do
            modifyProc p fun pr => { pr with sz := word r }
            pure 0
        else if n < 0 then do
          let r ← uvmdealloc B pagetable sz (u32 (sz + n))
          modifyProc p fun pr => { pr with sz := r % 2 ^ 32 }
          pure 0
        else do
          modifyProc p fun pr => { pr with sz := sz }
          pure (0 : Int))
      (fun r s' => r = -1 ∨ r = 0 ∧ (s'.proc p).sz = grownSize sz n) (fun _ _ => True) s := by
  apply wp_ite
  · intro hpos
    refine (wp_bind).mpr (wp_post h fun a s₁ ha => wp_ite (fun _ => .inl rfl) fun hne => ?_)
    apply wp_setSize
    rw [grownSize, if_pos hpos]
    split at ha
    · rw [ha, if_pos ‹_›]
    · rw [ha.resolve_right hne, if_neg ‹_›]
  · intro hpos
    apply wp_ite
    · intro hneg
      refine (wp_bind).mpr (wp_post (uvmdealloc_result _ _ _) fun a s₁ ha => ?_)
      apply wp_setSize
      rw [grownSize, if_neg hpos, if_pos hneg, ha]
      exact Nat.mod_eq_of_lt (by omega)
    · intro hneg
      apply wp_setSize
      rw [grownSize, if_neg hpos, if_neg hneg]

/-- **`growproc` returns -1, or it returns 0 and the size is `grownSize`**, in every kernel. -/
theorem growproc_size (hc : s.cur = some p) (hsz : (s.proc p).sz < 2 ^ 32) :
    wp (growproc B n) (fun r s' => r = -1 ∨ r = 0 ∧ (s'.proc p).sz = grownSize (s.proc p).sz n)
      (fun _ _ => True) s := by
  have hlt := u32_lt ((s.proc p).sz + n)
  unfold growproc
  cases hB : B.selection with
  | none =>
    simp only [lazyGrowproc, wp_bind, wp_myproc hc, wp_getProc, Nat.mod_eq_of_lt hsz]
    refine resize_size hsz (wp_post (lazyAlloc_result _ _ _) fun a _ ha => ?_)
    split at ha
    · rw [if_pos ‹_›, ha, u32_i32 hsz]
    · rw [if_neg ‹_›]
      exact ha.imp (fun h => by rw [h, u32_i32 hlt]) fun h => by rw [h]; rfl
  | paging pol =>
    simp only [wp_bind, wp_myproc hc, wp_getProc, Nat.mod_eq_of_lt hsz]
    refine resize_size hsz (wp_post (uvmalloc_result _ _ _) fun a _ ha => ?_)
    split at ha
    · rw [if_pos ‹_›, ha, Nat.mod_eq_of_lt hsz]
    · rw [if_neg ‹_›]
      exact ha.imp (fun h => by rw [h, Nat.mod_eq_of_lt hlt]) fun h => by rw [h]; rfl

theorem sysSbrk_size (hc : s.cur = some p) (hsz : (s.proc p).sz < 2 ^ 32) :
    wp (sysSbrk B n) (fun r s' => r = -1 ∨
        r = i32 (s.proc p).sz ∧ (s'.proc p).sz = grownSize (s.proc p).sz n)
      (fun _ _ => True) s := by
  simp only [sysSbrk, wp_bind, wp_myproc hc, wp_getProc]
  refine wp_post (growproc_size hc hsz) ?_
  rintro r s' (rfl | ⟨rfl, hs'⟩)
  · exact .inl rfl
  · exact .inr ⟨rfl, hs'⟩

/-- **When `sbrk` is exact.**  A call that does not return -1 returns the old size and adds the
request to it iff the old size is below 2 GiB and the sum is neither negative nor 4 GiB or more. -/
theorem sysSbrk_exact_iff (hc : s.cur = some p) (hsz : (s.proc p).sz < 2 ^ 32)
    (hlo : -2 ^ 31 ≤ n) (hhi : n < 2 ^ 31) (h : sysSbrk B n s = .ok r s') (hr : r ≠ -1) :
    (u64 r = (s.proc p).sz ∧ ((s'.proc p).sz : Int) = (s.proc p).sz + n) ↔
      (s.proc p).sz < 2 ^ 31 ∧ 0 ≤ (s.proc p).sz + n ∧ (s.proc p).sz + n < 2 ^ 32 := by
  have hspec := wp_returns (sysSbrk_size hc hsz) h
  rcases hspec with hspec | ⟨hret, hs'⟩
  · exact absurd hspec hr
  · rw [hret, hs', u64_i32_eq_iff hsz, grownSize_eq_iff hsz hlo hhi]

/-- A process of one page in the lazy kernel. -/
def onePageKernel : Kernel := sampleKernel (sampleTable [(0, sampleUser 10)]) (sampleProc 3 pgsize)

/-- `sbrk(4096)` doubles it. -/
theorem onePageKernel_grows : ∃ r s', sysSbrk (sampleBuild .none) pgsize onePageKernel = .ok r s' ∧
    u64 r = pgsize ∧ (s'.proc 0).sz = 2 * pgsize := by
  obtain ⟨r, s', hs', hr⟩ : ∃ r s', sysSbrk (sampleBuild .none) pgsize onePageKernel = .ok r s' ∧
      r ≠ -1 := by
    refine wp_total ?_
    decide +kernel
  have hexact := (sysSbrk_exact_iff (s := onePageKernel) (p := 0) rfl (by decide) (by decide)
    (by decide) hs' hr).mpr (by decide)
  refine ⟨r, s', hs', hexact.1, ?_⟩
  have hsz : ((s'.proc 0).sz : Int) = pgsize + pgsize := hexact.2
  omega

/-- `sbrk(-4097)` asks for a negative size; it is reported as done and changes nothing. -/
theorem onePageKernel_ignores : ∃ r s', sysSbrk (sampleBuild .none) (-4097) onePageKernel =
    .ok r s' ∧ r = 4096 ∧ (s'.proc 0).sz = 4096 := by
  refine wp_total ?_
  decide +kernel

end Xv6Paging
