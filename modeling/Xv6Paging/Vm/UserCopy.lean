import Xv6Paging.Machine.Sample
import Xv6Paging.Vm.Copy

/-!
# User copies respect page boundaries

What `copyout`, `copyin` and `copyinstr` do at any address of a page table whose user pages are
frames of their own: they succeed exactly if all pages they touch are user pages below `MAXVA`, and
otherwise they have copied what is before the first page that is not.
-/

namespace Xv6Paging

open StateHalt

/-- The page of `x` is below `MAXVA`, and has `PTE_V` and `PTE_U`. -/
def PageTable.UserPage (pt : PageTable) (x : Nat) : Prop :=
  x < maxva ∧ hasFlag (pt.pte (x / pgsize)) pteV = true ∧
    hasFlag (pt.pte (x / pgsize)) pteU = true

/-- The user pages of the table are frames, and different pages are different frames. -/
structure UserFrames (pt : PageTable) : Prop where
  frame : ∀ x, pt.UserPage x → kernbase ≤ pt.userPa x ∧ pt.userPa x < phystop
  distinct : ∀ x y, pt.UserPage x → pt.UserPage y → pt.userPa x = pt.userPa y →
    x / pgsize = y / pgsize

/-- Of the range, the first `k` bytes are before the first page that is no user page. -/
structure FirstBad (pt : PageTable) (a len k : Nat) : Prop where
  le : k ≤ len
  good : ∀ x, a ≤ x → x < a + k → pt.UserPage x
  bad : k < len → ¬pt.UserPage (a + k)

section UserFrames

variable {s : Kernel} {r a len k : Nat} {pt : PageTable}

theorem PageTable.userPa_of_not_userPage {x : Nat} (h : ¬pt.UserPage x) : pt.userPa x = 0 :=
  if_neg h

theorem UserFrames.userPa_ne_zero (h : UserFrames pt) {x : Nat} :
    pt.userPa x ≠ 0 ↔ pt.UserPage x := by
  constructor
  · intro hne
    by_contra hbad
    exact hne (pt.userPa_of_not_userPage hbad)
  · intro hpage
    have := (h.frame x hpage).1
    simp only [kernbase] at this
    omega

theorem UserFrames.partial (h : UserFrames pt) : Partial pt a len := by
  intro x _ _
  by_cases hpage : pt.UserPage x
  · exact .inr (h.frame x hpage)
  · exact .inl (pt.userPa_of_not_userPage hpage)

theorem UpTo.firstBad (h : UserFrames pt) (hk : UpTo pt a len k) : FirstBad pt a len k where
  le := hk.le
  good x h1 h2 := h.userPa_ne_zero.mp (hk.found x h1 h2)
  bad hlt hpage := h.userPa_ne_zero.mpr hpage (hk.stop hlt)

theorem FirstBad.all_iff (hk : FirstBad pt a len k) :
    k = len ↔ ∀ x, a ≤ x → x < a + len → pt.UserPage x := by
  constructor
  · rintro rfl
    exact hk.good
  · intro hall
    have hle := hk.le
    by_contra hne
    exact hk.bad (by omega) (hall (a + k) (by omega) (by omega))

theorem FirstBad.distinctPages (h : UserFrames pt) (hk : FirstBad pt a len k) :
    DistinctPages pt a k := fun x y h1 h2 h3 h4 heq =>
  h.distinct x y (hk.good x h1 h2) (hk.good y h3 h4) heq

theorem FirstBad.result (hk : FirstBad pt a len k) {ret : Int}
    (hret : ret = if k = len then 0 else -1) :
    (ret = 0 ∨ ret = -1) ∧ (ret = 0 ↔ ∀ x, a ≤ x → x < a + len → pt.UserPage x) := by
  rw [← hk.all_iff, hret]
  by_cases hlen : k = len <;> simp [hlen]

theorem CopiedOut.map_userByte {src : List UInt8} {s' : Kernel} (h : CopiedOut r a src s s') :
    (List.range' a src.length).map (s'.userByte r) = src := by
  apply List.ext_getElem
  · rw [List.length_map, List.length_range']
  · intro k hk hk'
    rw [List.getElem_map, List.getElem_range', Nat.one_mul, h.bytes k hk', List.getD,
      List.getElem?_eq_getElem hk', Option.getD_some]

/-- **`copyin` returns what `copyout` was given.** -/
theorem UserFrames.copyin_copyout {src : List UInt8} {s' : Kernel} (h : UserFrames (s.ptables r))
    (hk : UpTo (s.ptables r) a src.length src.length) (hcopy : CopiedOut r a src s s') :
    wp (copyin r a src.length) (fun ret s'' => ret = (0, src) ∧ s'' = s')
      (fun _ _ => False) s' := by
  have htab : s'.ptables = s.ptables := by rw [hcopy.rest]
  rw [← htab] at hk h
  rw [wp_copyin_upto h.partial hk, if_pos rfl, hcopy.map_userByte]
  exact ⟨rfl, rfl⟩

theorem takeWhile_range' {f : Nat → UInt8} {n j : Nat} (hj : j < n) (hnul : f (a + j) = 0)
    (hmin : ∀ i, i < j → f (a + i) ≠ 0) :
    ((List.range' a n).map f).takeWhile (· ≠ 0) = (List.range' a j).map f := by
  have hsplit : List.range' a n =
      List.range' a j ++ (a + j) :: List.range' (a + j + 1) (n - j - 1) := by
    rw [← List.range'_succ, List.range'_append_1]
    congr 1
    omega
  rw [hsplit, List.map_append, List.map_cons, List.takeWhile_append_of_pos,
    List.takeWhile_cons_of_neg (by simp [hnul]), List.append_nil]
  intro c hc
  obtain ⟨x, hx, rfl⟩ := List.mem_map.mp hc
  rw [List.mem_range'_1] at hx
  have := hmin (x - a) (by omega)
  rw [Nat.add_sub_cancel' hx.1] at this
  exact decide_eq_true this

end UserFrames

/-- **User copies respect page boundaries.**  Each function stops at the first page of its range
that is no user page below `MAXVA`; `copyout` and `copyin` return 0 exactly if there is none.  The
bytes before it, and no others, are copied.  `copyin` of what was just copied out returns the same
bytes. `copyinstr` returns 0 exactly if there is a NUL before the first bad page and within `max`
bytes, and then stores the string with its NUL; it never stores more than `max` bytes. -/
theorem copies_respect_pages {s : Kernel} {r : Nat} (h : UserFrames (s.ptables r)) (a : Nat) :
    (∀ src : List UInt8, wp (copyout r a src) (fun ret s' => (ret = 0 ∨ ret = -1) ∧
      (ret = 0 ↔ ∀ x, a ≤ x → x < a + src.length → (s.ptables r).UserPage x) ∧
      (∃ k, FirstBad (s.ptables r) a src.length k ∧ CopiedBytes r a (src.take k) s s') ∧
      (ret = 0 → wp (copyin r a src.length) (fun ret' s'' => ret' = (0, src) ∧ s'' = s')
        (fun _ _ => False) s')) (fun _ _ => False) s) ∧
    (∀ len, wp (copyin r a len) (fun ret s' => s' = s ∧ (ret.1 = 0 ∨ ret.1 = -1) ∧
      (ret.1 = 0 ↔ ∀ x, a ≤ x → x < a + len → (s.ptables r).UserPage x) ∧
      ∃ k, FirstBad (s.ptables r) a len k ∧ ret.2 = (List.range' a k).map (s.userByte r))
      (fun _ _ => False) s) ∧ ∀ max, wp (copyinstr r a max) (fun ret s' => s' = s ∧
      (ret.1 = 0 ∨ ret.1 = -1) ∧
      (ret.1 = 0 ↔ ∃ k < max, (∀ x, a ≤ x → x ≤ a + k → (s.ptables r).UserPage x) ∧
        s.userByte r (a + k) = 0) ∧ (ret.1 = 0 → ∃ k < max, s.userByte r (a + k) = 0 ∧
        (∀ j < k, s.userByte r (a + j) ≠ 0) ∧ ret.2 = (List.range' a k).map (s.userByte r) ++ [0]) ∧
      ret.2.length ≤ max) (fun _ _ => False) s := by
  refine ⟨fun src => ?_, fun len => ?_, fun max => ?_⟩
  · obtain ⟨k, hk⟩ := exists_upto (s.ptables r) a src.length
    have hbad := hk.firstBad h
    refine wp_post (copyout_upto h.partial hk) ?_
    rintro ret s' ⟨hret, hcopy⟩
    have hcopy := hcopy (hbad.distinctPages h)
    obtain ⟨hcases, hiff⟩ := hbad.result hret
    refine ⟨hcases, hiff, ⟨k, hbad, hcopy⟩, fun hzero => ?_⟩
    obtain rfl : k = src.length := hbad.all_iff.mpr (hiff.mp hzero)
    rw [List.take_length] at hcopy
    exact h.copyin_copyout hk hcopy.toCopiedOut
  · obtain ⟨k, hk⟩ := exists_upto (s.ptables r) a len
    have hbad := hk.firstBad h
    rw [wp_copyin_upto h.partial hk]
    obtain ⟨hcases, hiff⟩ := hbad.result rfl
    exact ⟨rfl, hcases, hiff, k, hbad, rfl⟩
  · obtain ⟨k, hk⟩ := exists_upto (s.ptables r) a max
    have hbad := hk.firstBad h
    have hle := hk.le
    rw [wp_copyinstr_upto h.partial hk]
    refine ⟨rfl, ?_⟩
    have hmem : 0 ∈ (List.range' a k).map (s.userByte r) ↔ ∃ j < k, s.userByte r (a + j) = 0 := by
      rw [List.mem_map]
      constructor
      · rintro ⟨x, hx, hnul⟩
        rw [List.mem_range'_1] at hx
        exact ⟨x - a, by omega, by rwa [Nat.add_sub_cancel' hx.1]⟩
      · rintro ⟨j, hj, hnul⟩
        exact ⟨a + j, List.mem_range'_1.mpr ⟨by omega, by omega⟩, hnul⟩
    -- a NUL on user pages is before the first bad one
    have hreach : (∃ j < k, s.userByte r (a + j) = 0) ↔ ∃ j < max,
        (∀ x, a ≤ x → x ≤ a + j → (s.ptables r).UserPage x) ∧ s.userByte r (a + j) = 0 := by
      constructor
      · rintro ⟨j, hj, hnul⟩
        exact ⟨j, by omega, fun x h1 h2 => hbad.good x h1 (by omega), hnul⟩
      · rintro ⟨j, hj, hpages, hnul⟩
        refine ⟨j, ?_, hnul⟩
        by_contra hge
        exact hbad.bad (by omega) (hpages (a + k) (by omega) (by omega))
    rw [← hreach, ← hmem]
    unfold instrResult
    by_cases hnul : 0 ∈ (List.range' a k).map (s.userByte r)
    · rw [if_pos hnul]
      have hex := hmem.mp hnul
      classical
      have hfind := Nat.find_spec hex
      have hmin : ∀ i, i < Nat.find hex → s.userByte r (a + i) ≠ 0 := by
        intro i hi h0
        exact Nat.find_min hex hi ⟨hi.trans hfind.1, h0⟩
      have htake := takeWhile_range' hfind.1 hfind.2 hmin
      refine ⟨.inl rfl, ⟨fun _ => hnul, fun _ => rfl⟩, fun _ => ?_, ?_⟩
      · exact ⟨Nat.find hex, by omega, hfind.2, hmin, congrArg (· ++ [0]) htake⟩
      · dsimp only
        rw [htake, List.length_append, List.length_map, List.length_range', List.length_singleton]
        omega
    · rw [if_neg hnul]
      have hminus : (-1 : Int) ≠ 0 := by decide
      refine ⟨.inr rfl, ⟨fun h => absurd h hminus, fun h => absurd h hnul⟩,
        fun h => absurd h hminus, ?_⟩
      rw [List.length_map, List.length_range']
      exact hle

/-- A process with one user page. -/
def lonePageKernel : Kernel := sampleKernel (sampleTable [(0, sampleUser 30)]) (sampleProc 3 pgsize)

theorem lonePageKernel_table :
    lonePageKernel.ptables (samplePage 0) = sampleTable [(0, sampleUser 30)] := by
  simp [lonePageKernel, sampleKernel]

theorem lonePage_userPage {x : Nat} (h : (sampleTable [(0, sampleUser 30)]).UserPage x) :
    x / pgsize = 0 := by
  by_contra hne
  have hU := h.2.2
  -- the trampoline and the trapframe are not for user code, and the rest is not mapped
  by_cases htramp : x / pgsize = trampolineVa / pgsize
  · rw [htramp] at hU
    exact absurd hU (by decide)
  · by_cases hframe : x / pgsize = trapframeVa / pgsize
    · rw [hframe] at hU
      exact absurd hU (by decide)
    · rw [sampleTable, sampleTableAt_pte (by simpa using hne) htramp hframe] at hU
      exact absurd hU (by decide)

theorem lonePage_userFrames : UserFrames (lonePageKernel.ptables (samplePage 0)) := by
  rw [lonePageKernel_table]
  refine ⟨fun x hx => ?_, fun x y hx hy _ => ?_⟩
  · have hdiv : x / pgsize = 0 / pgsize := lonePage_userPage hx
    rw [PageTable.userPa_congr _ hdiv]
    decide
  · rw [lonePage_userPage hx, lonePage_userPage hy]

/-- `copyin` across the end of the only page copies one byte and fails. -/
theorem copies_respect_pages_end : UserFrames (lonePageKernel.ptables (samplePage 0)) ∧
    wp (copyin (samplePage 0) 4095 2) (fun ret _ => ret.1 = -1 ∧ ret.2.length = 1)
      (fun _ _ => False) lonePageKernel := by
  refine ⟨lonePage_userFrames, ?_⟩
  refine wp_post ((copies_respect_pages lonePage_userFrames 4095).2.1 2) ?_
  rintro ret s' ⟨-, hcases, hiff, k, hbad, hbytes⟩
  have hmissing : ¬(lonePageKernel.ptables (samplePage 0)).UserPage 4096 := by
    rw [lonePageKernel_table]
    intro h
    exact absurd (lonePage_userPage h) (by decide)
  have hfirst : (lonePageKernel.ptables (samplePage 0)).UserPage 4095 := by
    rw [lonePageKernel_table]
    exact ⟨by decide, by decide, by decide⟩
  refine ⟨hcases.resolve_left fun h0 => ?_, ?_⟩
  · exact hmissing (hiff.mp h0 4096 (by omega) (by omega))
  · have hle := hbad.le
    have hk : k = 1 := by
      rcases Nat.lt_trichotomy k 1 with hk | hk | hk
      · obtain rfl : k = 0 := by omega
        exact absurd hfirst (hbad.bad (by omega))
      · exact hk
      · exact absurd (hbad.good 4096 (by omega) (by omega)) hmissing
    rw [hbytes, hk]
    rfl

end Xv6Paging
