import Mathlib.Data.List.GetD
import Xv6Paging.Proc.Commit

/-!
# The arguments on the new stack

`exec` copies the argument strings to the stack page of the new image, from the top down with every
string aligned to 16 bytes, and below them the array of pointers to the strings.
-/

namespace Xv6Paging

open StateHalt Kernel PageTable
open List (length_append length_map range)

/-! ## Addresses -/

/-- The stack pointer after `n` bytes, aligned. -/
def pushBelow (sp n : Nat) : Nat := (sp - n) / 16 * 16

theorem pushDown_eq {sp n : Nat} (h : n ≤ sp) (hsp : sp < 2 ^ 64) :
    pushDown sp n = pushBelow sp n := by
  have hmod : (sp + 2 ^ 64 - n) % 2 ^ 64 = sp - n := by omega
  rw [pushDown, hmod, pushBelow]

theorem pushBelow_le (sp n : Nat) : pushBelow sp n ≤ sp - n := Nat.div_mul_le_self _ _

/-- The stack pointer after the strings. -/
def argsEnd (sp : Nat) (argv : List (List UInt8)) : Nat :=
  argv.foldl (fun sp arg => pushBelow sp (arg.length + 1)) sp

theorem argsEnd_le (sp : Nat) (argv : List (List UInt8)) : argsEnd sp argv ≤ sp := by
  induction argv generalizing sp with
  | nil => exact le_rfl
  | cons arg argv ih =>
    have h1 := ih (pushBelow sp (arg.length + 1))
    have h2 := pushBelow_le sp (arg.length + 1)
    rw [argsEnd, List.foldl_cons]
    rw [argsEnd] at h1
    omega

/-- The address of the array of pointers, which is the final stack pointer. -/
def arrayPtr (sz : Nat) (argv : List (List UInt8)) : Nat :=
  pushBelow (argsEnd sz argv) ((argv.length + 1) * 8)

/-! ## Copies to the stack page -/

/-- The stack page at `base` of the table `r` is mapped, to the frame `pa`. -/
structure StackPage (r base pa : Nat) (s : Kernel) : Prop where
  aligned : base % pgsize = 0
  frame : (s.ptables r).userPa base = pa
  mapped : kernbase ≤ pa ∧ pa < phystop

/-- Only the contents of the page `pa` changed. -/
def OnlyPage (pa : Nat) (s s' : Kernel) : Prop :=
  s' = { s with mem := s'.mem } ∧ ∀ q, q ≠ pa → s'.mem q = s.mem q

section Copies

variable {r base pa a x : Nat} {s t : Kernel} {src : List UInt8}

theorem OnlyPage.refl (pa : Nat) (s : Kernel) : OnlyPage pa s s := ⟨rfl, fun _ _ => rfl⟩

theorem OnlyPage.trans {u : Kernel} (h : OnlyPage pa s t) (h' : OnlyPage pa t u) :
    OnlyPage pa s u := by
  refine ⟨?_, fun q hq => (h'.2 q hq).trans (h.2 q hq)⟩
  rw [h'.1, h.1]

theorem OnlyPage.ptables_eq (h : OnlyPage pa s t) : t.ptables = s.ptables := by rw [h.1]

variable (h : StackPage r base pa s)
include h

theorem StackPage.keep (hp : OnlyPage pa s t) : StackPage r base pa t :=
  ⟨h.aligned, by rw [hp.ptables_eq, h.frame], h.mapped⟩

theorem StackPage.frame_ne_zero : pa ≠ 0 := by
  have := h.mapped.1
  simp only [kernbase] at this
  omega

theorem StackPage.lt_maxva : base < maxva := by
  by_contra hge
  have h0 := h.frame
  rw [userPa, if_neg fun hc => hge hc.1] at h0
  exact h.frame_ne_zero h0.symm

theorem StackPage.userPa_eq (hlo : base ≤ x) (hhi : x < base + pgsize) :
    (s.ptables r).userPa x = pa := by
  rw [← h.frame]
  apply userPa_congr
  have := h.aligned
  simp only [pgsize] at *
  omega

/-- The state after a copy to the stack page. -/
def Kernel.poke (s : Kernel) (pa off : Nat) (src : List UInt8) : Kernel :=
  s.setPage pa (pokePage (s.mem pa) off src)

omit h in
theorem onlyPage_poke (off : Nat) : OnlyPage pa s (s.poke pa off src) :=
  ⟨rfl, fun q hq => by rw [poke, setPage_mem, Function.update_of_ne hq]⟩

/-- **`copyout` within the stack page.** -/
theorem wp_copyout_stack {Q : Int → Kernel → Prop} {E : Halt → Kernel → Prop}
    (hlo : base ≤ a) (hhi : a + src.length ≤ base + pgsize) (hpos : 0 < src.length) :
    wp (copyout r a src) Q E s ↔ Q 0 (s.poke pa (a - base) src) := by
  have hdown : pgrounddown a = base := by
    have := h.aligned
    simp only [pgrounddown, pgsize] at *
    omega
  have hn : min (pgsize - (a - base)) src.length = src.length := by omega
  obtain ⟨n, hlen⟩ : ∃ n, src.length = n + 1 := ⟨src.length - 1, by omega⟩
  rw [copyout, copyoutLoop, if_pos hpos]
  simp only [hdown, wp_bind, wp_walkaddr, h.frame, if_neg h.frame_ne_zero, wp_loadPage,
    if_pos h.mapped, wp_storePage, hn, List.take_length, List.drop_length]
  rw [hlen, copyoutLoop, if_neg (by simp)]
  rfl

theorem userByte_poke (hlo : base ≤ a) (hx : base ≤ x) (hx' : x < base + pgsize) :
    (s.poke pa (a - base) src).userByte r x =
      if a ≤ x ∧ x < a + src.length then src.getD (x - a) 0 else s.userByte r x := by
  have hoff : x % pgsize = x - base := by
    have := h.aligned
    simp only [pgsize] at *
    omega
  have hin : x - base < pgsize := by omega
  have htab : (s.poke pa (a - base) src).ptables = s.ptables := rfl
  rw [userByte, userByte, htab, h.userPa_eq hx hx', hoff, poke,
    setPage_mem, Function.update_self]
  simp only [pageBytes, dif_pos hin, pokePage]
  by_cases hc : a ≤ x ∧ x < a + src.length
  · rw [if_pos hc, if_pos ⟨by omega, by omega⟩, show x - base - (a - base) = x - a by omega]
  · rw [if_neg hc, if_neg (by omega)]

end Copies

/-! ## The strings -/

/-- The string is in memory at the address `a`, with the zero at its end. -/
def StringAt (s : Kernel) (r a : Nat) (str : List UInt8) : Prop :=
  ∀ k, k ≤ str.length → s.userByte r (a + k) = (str ++ [0]).getD k 0

/-- The strings placed so far, the first one on top: they are in memory, between `sp` and the end of
the page, and apart from each other. -/
structure Placed (s : Kernel) (r base sp : Nat) (placed : List (Nat × List UInt8)) : Prop where
  bytes : ∀ x ∈ placed, StringAt s r x.1 x.2
  range : ∀ x ∈ placed, sp ≤ x.1 ∧ x.1 + (x.2.length + 1) ≤ base + pgsize
  apart : placed.Pairwise fun x y => y.1 + (y.2.length + 1) ≤ x.1

section Strings

variable {r base pa sp : Nat} {s t : Kernel} {placed : List (Nat × List UInt8)}

theorem Placed.poke {a : Nat} (src : List UInt8) (h : Placed s r base sp placed)
    (hp : StackPage r base pa s) (hlo : base ≤ a) (hsp : a + src.length ≤ sp) :
    Placed (s.poke pa (a - base) src) r base a placed where
  bytes := by
    intro x hx k hk
    obtain ⟨hrlo, hrhi⟩ := h.range x hx
    rw [userByte_poke hp hlo (by omega) (by omega), if_neg (by omega), h.bytes x hx k hk]
  range := by
    intro x hx
    obtain ⟨hrlo, hrhi⟩ := h.range x hx
    exact ⟨by omega, hrhi⟩
  apart := h.apart

/-- **One more string.** -/
theorem Placed.push {a : Nat} {str : List UInt8} (h : Placed s r base sp placed)
    (hp : StackPage r base pa s) (hlo : base ≤ a) (hsp : a + (str.length + 1) ≤ sp)
    (htop : sp ≤ base + pgsize) :
    Placed (s.poke pa (a - base) (str ++ [0])) r base a (placed ++ [(a, str)]) := by
  have hlen : (str ++ [0]).length = str.length + 1 := length_append
  have hold := h.poke (str ++ [0]) hp hlo (by omega)
  constructor
  · intro x hx
    rcases List.mem_append.mp hx with hx | hx
    · exact hold.bytes x hx
    · rw [List.mem_singleton] at hx
      subst hx
      intro k hk
      have hk : k ≤ str.length := hk
      rw [userByte_poke hp hlo (by omega) (by omega), if_pos ⟨by omega, by omega⟩,
        show a + k - a = k by omega]
  · intro x hx
    rcases List.mem_append.mp hx with hx | hx
    · exact hold.range x hx
    · rw [List.mem_singleton] at hx
      subst hx
      exact ⟨le_rfl, Nat.le_trans hsp htop⟩
  · rw [List.pairwise_append]
    refine ⟨h.apart, List.pairwise_singleton _ _, ?_⟩
    intro x hx y hy
    rw [List.mem_singleton] at hy
    subst hy
    exact Nat.le_trans hsp (h.range x hx).1

/-- **The argument strings.**  They are placed if they fit in the page; otherwise `exec` gives up,
and has written to the stack page only. -/
theorem pushArgs_spec {argv : List (List UInt8)} {E : Halt → Kernel → Prop}
    (hp : StackPage r base pa s) (hbase : pgsize ≤ base) (hlo : base ≤ sp)
    (hhi : sp ≤ base + pgsize) (hplaced : Placed s r base sp placed)
    (hmany : placed.length + argv.length < 32) (hshort : ∀ arg ∈ argv, arg.length < pgsize) :
    wp (pushArgs r base argv sp (placed.map Prod.fst)) (fun o s' => OnlyPage pa s s' ∧
      match o with
      | none => argsEnd sp argv < base
      | some (sp', ustack) => sp' = argsEnd sp argv ∧ base ≤ sp' ∧ ∃ placed',
          ustack = placed'.map Prod.fst ∧ placed'.map Prod.snd = placed.map Prod.snd ++ argv ∧
            Placed s' r base sp' placed') E s := by
  -- by induction on the strings that are left
  induction argv generalizing s sp placed with
  | nil =>
    refine ⟨.refl pa s, rfl, hlo, placed, rfl, ?_, hplaced⟩
    rw [List.append_nil]
  | cons arg argv ih =>
    have hlen : arg.length < pgsize := hshort arg List.mem_cons_self
    have hmax := hp.lt_maxva
    have hdown : pushDown sp (arg.length + 1) = pushBelow sp (arg.length + 1) := by
      apply pushDown_eq
      · omega
      · simp only [maxva, pgsize] at *
        omega
    have hle := pushBelow_le sp (arg.length + 1)
    rw [pushArgs, hdown]
    rw [List.length_cons] at hmany
    rw [if_neg (by rw [length_map]; omega)]
    apply wp_ite
    · intro hlow
      refine ⟨.refl pa s, ?_⟩
      exact Nat.lt_of_le_of_lt (argsEnd_le _ argv) hlow
    · intro hfit
      have hge : base ≤ pushBelow sp (arg.length + 1) := Nat.not_lt.mp hfit
      have hsrc : (arg ++ [0]).length = arg.length + 1 := length_append
      rw [wp_bind, wp_copyout_stack hp hge (by omega) (by omega), if_neg (by decide)]
      have honly : OnlyPage pa s (s.poke pa (pushBelow sp (arg.length + 1) - base) (arg ++ [0])) :=
        onlyPage_poke _
      have hpush : Placed (s.poke pa (pushBelow sp (arg.length + 1) - base) (arg ++ [0])) r base
          (pushBelow sp (arg.length + 1)) (placed ++ [(pushBelow sp (arg.length + 1), arg)]) :=
        hplaced.push hp hge (by omega) hhi
      have hrest := ih (hp.keep honly) hge (by omega) hpush
        (by rw [length_append, List.length_singleton]; omega)
        fun x hx => hshort x (List.mem_cons_of_mem _ hx)
      rw [List.map_append, List.map_singleton] at hrest
      refine wp_post hrest ?_
      rintro o s' ⟨hs', ho⟩
      refine ⟨honly.trans hs', ?_⟩
      cases o with
      | none => exact ho
      | some x =>
        obtain ⟨hsp', hbase', placed', hus, hstr, hpl⟩ := ho
        refine ⟨hsp', hbase', placed', hus, ?_, hpl⟩
        rw [hstr, List.map_append, List.append_assoc]
        rfl

end Strings

/-! ## The array -/

theorem leBytes_word {data : Nat → UInt8} {a w : Nat} (hw : w < 2 ^ 64)
    (h : ∀ k, k < 8 → data (a + k) = UInt8.ofNat (w / 2 ^ (8 * k))) : leBytes data a 8 = w := by
  have hrange : range 8 = [0, 1, 2, 3, 4, 5, 6, 7] := rfl
  simp only [leBytes, hrange, List.foldr_cons, List.foldr_nil]
  rw [h 0 (by omega), h 1 (by omega), h 2 (by omega), h 3 (by omega), h 4 (by omega),
    h 5 (by omega), h 6 (by omega), h 7 (by omega)]
  simp only [UInt8.toNat_ofNat']
  omega

theorem wordBytes_cons (w : Nat) (ws : List Nat) : wordBytes (w :: ws) =
    (range 8).map (fun k => UInt8.ofNat (w / 2 ^ (8 * k))) ++ wordBytes ws := rfl

theorem length_wordBytes (ws : List Nat) : (wordBytes ws).length = ws.length * 8 := by
  induction ws with
  | nil => rfl
  | cons w ws ih =>
    rw [wordBytes_cons, length_append, ih, length_map, List.length_range,
      List.length_cons]
    omega

theorem getD_wordBytes (ws : List Nat) {i k : Nat} (hi : i < ws.length) (hk : k < 8) :
    (wordBytes ws).getD (8 * i + k) 0 = UInt8.ofNat (ws.getD i 0 / 2 ^ (8 * k)) := by
  induction ws generalizing i with
  | nil => simp at hi
  | cons w ws ih =>
    have hlen : ((range 8).map fun k => UInt8.ofNat (w / 2 ^ (8 * k))).length = 8 := by simp
    rw [wordBytes_cons]
    cases i with
    | zero =>
      rw [List.getD_append _ _ _ _ (by omega), List.getD_eq_getElem _ _ (by omega)]
      simp
    | succ i =>
      rw [List.getD_append_right _ _ _ _ (by omega), hlen,
        show 8 * (i + 1) + k - 8 = 8 * i + k by omega, ih (by simpa using hi), List.getD_cons_succ]

/-- What `main` finds at the stack pointer: the array of pointers to the strings, with a null
pointer at its end, and above it the strings, apart from each other. -/
structure ArgsInMemory (s : Kernel) (r base sp : Nat) (argv : List (List UInt8))
    (placed : List (Nat × List UInt8)) : Prop where
  aligned : sp % 16 = 0
  low : base ≤ sp
  high : sp + (argv.length + 1) * 8 ≤ base + pgsize
  strings : placed.map Prod.snd = argv
  laid : Placed s r base (sp + (argv.length + 1) * 8) placed
  words : ∀ i, i ≤ argv.length →
    leBytes (s.userByte r) (sp + 8 * i) 8 = (placed.map Prod.fst ++ [0]).getD i 0

section Array

variable {r base pa sp : Nat} {s : Kernel} {argv : List (List UInt8)}
  {placed : List (Nat × List UInt8)}

/-- **The array of pointers** below the strings. -/
theorem Placed.array (h : Placed s r base sp placed) (hp : StackPage r base pa s)
    (hstr : placed.map Prod.snd = argv) (hlo : base ≤ pushBelow sp ((argv.length + 1) * 8))
    (hn : (argv.length + 1) * 8 ≤ sp) (htop : sp ≤ base + pgsize) :
    ArgsInMemory (s.poke pa (pushBelow sp ((argv.length + 1) * 8) - base)
      (wordBytes (placed.map Prod.fst ++ [0]))) r base (pushBelow sp ((argv.length + 1) * 8))
      argv placed := by
  have hle := pushBelow_le sp ((argv.length + 1) * 8)
  have hcount : (placed.map Prod.fst ++ [0]).length = argv.length + 1 := by
    rw [← hstr]
    simp
  have hlen : (wordBytes (placed.map Prod.fst ++ [0])).length = (argv.length + 1) * 8 := by
    rw [length_wordBytes, hcount]
  generalize ha : pushBelow sp ((argv.length + 1) * 8) = a at *
  have hold := h.poke (wordBytes (placed.map Prod.fst ++ [0])) hp hlo (by omega)
  refine ⟨?_, hlo, by omega, hstr, ⟨hold.bytes, fun x hx => ?_, hold.apart⟩, fun i hi => ?_⟩
  · rw [← ha, pushBelow]
    omega
  · obtain ⟨hrlo, hrhi⟩ := h.range x hx
    exact ⟨by omega, hrhi⟩
  · have hmax := hp.lt_maxva
    apply leBytes_word
    · -- the pointers are addresses of the stack page
      rcases Nat.lt_or_ge i (placed.map Prod.fst).length with hlt | hge
      · have hlt' : i < placed.length := by simpa using hlt
        rw [List.getD_append _ _ _ _ hlt, List.getD_eq_getElem _ _ hlt, List.getElem_map]
        have hx := h.range placed[i] (List.getElem_mem _)
        simp only [maxva, pgsize] at *
        omega
      · rw [List.getD_append_right _ _ _ _ hge]
        rw [length_append, List.length_singleton] at hcount
        rw [show i - (placed.map Prod.fst).length = 0 by omega]
        exact Nat.two_pow_pos 64
    · intro k hk
      rw [userByte_poke hp hlo (by omega) (by omega), if_pos ⟨by omega, by omega⟩,
        show a + 8 * i + k - a = 8 * i + k by omega, getD_wordBytes _ (by omega) hk]

/-- **The stack of the new image.**  The strings and the array are in the stack page if they fit;
otherwise `exec` gives up.  In both cases nothing but the stack page is written. -/
theorem execStack_spec {E : Halt → Kernel → Prop} (hp : StackPage r base pa s)
    (hbase : pgsize ≤ base) (hmany : argv.length < 32)
    (hshort : ∀ arg ∈ argv, arg.length < pgsize) :
    wp (execStack r (base + pgsize) argv) (fun o s' => OnlyPage pa s s' ∧
      ((o = none ∧ arrayPtr (base + pgsize) argv < base) ∨
        (o = some (argv.length, arrayPtr (base + pgsize) argv) ∧
          base ≤ arrayPtr (base + pgsize) argv ∧
          ∃ placed, ArgsInMemory s' r base (arrayPtr (base + pgsize) argv) argv placed))) E s := by
  have hempty : Placed s r base (base + pgsize) [] :=
    ⟨fun _ h => absurd h List.not_mem_nil, fun _ h => absurd h List.not_mem_nil, List.Pairwise.nil⟩
  simp only [execStack, wp_bind, Nat.add_sub_cancel]
  refine wp_post (pushArgs_spec hp hbase (Nat.le_add_right _ _) le_rfl hempty
    (by simpa using hmany) hshort) ?_
  rintro o t ⟨honly, ho⟩
  cases o with
  | none =>
    refine ⟨honly, .inl ⟨rfl, ?_⟩⟩
    have := pushBelow_le (argsEnd (base + pgsize) argv) ((argv.length + 1) * 8)
    rw [arrayPtr]
    omega
  | some x =>
    obtain ⟨sp, ustack⟩ := x
    obtain ⟨rfl, hsp, placed, rfl, hstr, hpl⟩ := ho
    rw [List.map_nil, List.nil_append] at hstr
    have hcount : (placed.map Prod.fst).length = argv.length := by
      rw [← hstr, length_map, length_map]
    have hmax := hp.lt_maxva
    have htop := argsEnd_le (base + pgsize) argv
    have hdown : pushDown (argsEnd (base + pgsize) argv) ((argv.length + 1) * 8) =
        arrayPtr (base + pgsize) argv := by
      apply pushDown_eq <;> simp only [maxva, pgsize] at * <;> omega
    simp only [hcount, hdown]
    apply wp_ite
    · intro hlow
      exact ⟨honly, .inl ⟨rfl, hlow⟩⟩
    · intro hfit
      have hge : base ≤ arrayPtr (base + pgsize) argv := Nat.not_lt.mp hfit
      have hle := pushBelow_le (argsEnd (base + pgsize) argv) ((argv.length + 1) * 8)
      have hlen : (wordBytes (placed.map Prod.fst ++ [0])).length = (argv.length + 1) * 8 := by
        rw [length_wordBytes, length_append, hcount, List.length_singleton]
      have hn : (argv.length + 1) * 8 ≤ argsEnd (base + pgsize) argv := by
        simp only [pgsize] at *
        omega
      rw [wp_bind, wp_copyout_stack (hp.keep honly) hge (by rw [hlen, arrayPtr]; omega) (by omega),
        if_neg (by decide)]
      refine ⟨honly.trans (onlyPage_poke _), .inr ⟨rfl, hge, placed, ?_⟩⟩
      exact hpl.array (hp.keep honly) hstr hge hn htop

/-! ## After the commit -/

theorem ArgsInMemory.keep {s' : Kernel} (h : ArgsInMemory s r base sp argv placed)
    (hp : StackPage r base pa s) (hmem : s'.mem pa = s.mem pa)
    (htab : s'.ptables r = s.ptables r) : ArgsInMemory s' r base sp argv placed := by
  have hbyte : ∀ x, base ≤ x → x < base + pgsize → s'.userByte r x = s.userByte r x := by
    intro x hlo hhi
    rw [userByte, userByte, htab, hp.userPa_eq hlo hhi, hmem]
  refine ⟨h.aligned, h.low, h.high, h.strings, ⟨?_, h.laid.range, h.laid.apart⟩, fun i hi => ?_⟩
  · intro x hx k hk
    obtain ⟨hlo, hhi⟩ := h.laid.range x hx
    have hlow := h.low
    rw [hbyte _ (by omega) (by omega)]
    exact h.laid.bytes x hx k hk
  · have hlow := h.low
    have hhigh := h.high
    rw [← h.words i hi, leBytes, leBytes]
    refine List.foldr_ext _ _ _ fun k hk acc => ?_
    rw [List.mem_range] at hk
    rw [hbyte _ (by omega) (by omega)]

/-- `exec` once the image is loaded and the stack pages are mapped. -/
def execArgs (B : Build) (p : Fin nproc) (pagetable sz entry : Nat) (path : List UInt8)
    (argv : List (List UInt8)) : KM Int := do
  match ← execStack pagetable sz argv with
  | none => execBad B pagetable sz
  | some (argc, sp) => do
    execCommit B p pagetable sz entry sp path
    pure argc

/-- **Argument passing.**  For every list of fewer than 32 strings, each shorter than a page:
building the stack writes to the stack page only, and does not halt; it fails exactly if the strings
and the array, each aligned to 16 bytes, do not fit in the page, and otherwise leaves the arguments
in memory.  Then `exec` returns the number of arguments, the stack pointer is in `a1` and `sp`, and
the arguments are still there. -/
theorem exec_arguments (B : Build) {p : Fin nproc} (path : List UInt8) (entry : Nat)
    (hp : StackPage r base pa s) (hbase : pgsize ≤ base)
    (happ : Apart (s.proc p).pagetable r pa s) (hmany : argv.length < 32)
    (hshort : ∀ arg ∈ argv, arg.length < pgsize) :
    wp (execStack r (base + pgsize) argv) (fun o s' => OnlyPage pa s s' ∧
      ((o = none ∧ arrayPtr (base + pgsize) argv < base) ∨
        (o = some (argv.length, arrayPtr (base + pgsize) argv) ∧
          base ≤ arrayPtr (base + pgsize) argv ∧
          ∃ placed, ArgsInMemory s' r base (arrayPtr (base + pgsize) argv) argv placed)))
      (fun _ _ => False) s ∧ wp (execArgs B p r (base + pgsize) entry path argv) (fun ret s' =>
      (ret = -1 ∧ arrayPtr (base + pgsize) argv < base) ∨
      (ret = argv.length ∧ base ≤ arrayPtr (base + pgsize) argv ∧ (s'.proc p).pagetable = r ∧
        (s'.proc p).frame tfA1 = BitVec.ofNat 64 (arrayPtr (base + pgsize) argv) ∧
        (s'.proc p).frame tfSp = BitVec.ofNat 64 (arrayPtr (base + pgsize) argv) ∧
        ∃ placed, ArgsInMemory s' r base (arrayPtr (base + pgsize) argv) argv placed))
      (fun _ _ => True) s := by
  refine ⟨execStack_spec hp hbase hmany hshort, ?_⟩
  rw [execArgs, wp_bind]
  refine wp_post (execStack_spec hp hbase hmany hshort) ?_
  rintro o t ⟨honly, ⟨rfl, hlow⟩ | ⟨rfl, hfit, placed, hargs⟩⟩
  · rw [execBad, wp_bind]
    exact wp_any fun _ _ => .inl ⟨rfl, hlow⟩
  · have htp : t.proc = s.proc := by rw [honly.1]
    have htf : t.ftable = s.ftable := by rw [honly.1]
    have happ' : Apart (t.proc p).pagetable r pa t := by
      rw [htp]
      exact ⟨happ.table, happ.frame, happ.root, by rw [honly.ptables_eq]; exact happ.leaf,
        by rw [honly.ptables_eq]; exact happ.dir, by rw [htf]; exact happ.pipe⟩
    simp only [wp_bind, wp_pure]
    refine wp_post (execCommit_spec happ') ?_
    rintro _ s' ⟨hpt, -, ha1, hsp, -, hmem, htab⟩
    exact .inr ⟨trivial, hfit, hpt, ha1, hsp, placed, hargs.keep (hp.keep honly) hmem htab⟩

end Array

/-- A process of no pages that loads an image with one page mapped, at page 5. -/
def argsKernel : Kernel :=
  (sampleKernel (sampleTable []) (sampleProc 3 0)).withZombie 0 [(5, sampleUser 18)]

theorem argsKernel_stackPage : StackPage (samplePage 12) (5 * pgsize) (samplePage 18) argsKernel :=
  ⟨by decide, by decide +kernel, by decide⟩

theorem argsKernel_apart :
    Apart (argsKernel.proc 0).pagetable (samplePage 12) (samplePage 18) argsKernel := by
  have htab : argsKernel.ptables (samplePage 0) = sampleTable [] := rfl
  refine ⟨by decide, by decide, by decide, fun v => ?_, fun level idx => ?_, fun f hf => ?_⟩
  · change pte2pa ((argsKernel.ptables (samplePage 0)).leaf v) ≠ _
    rw [htab]
    simp only [sampleTable, sampleTableAt, List.foldl_nil, setLeaf, newPage,
      empty, Function.update_apply]
    split_ifs <;> decide
  · change (argsKernel.ptables (samplePage 0)).dir level idx ≠ _
    rw [htab]
    simp only [sampleTable, sampleTableAt, List.foldl_nil, setLeaf, newPage,
      empty]
    split_ifs <;> decide
  · cases hf

/-- The strings `ls` and `/` and the array that points to them are built in the page. -/
theorem argsKernel_arguments : ∃ s' placed,
    execStack (samplePage 12) (5 * pgsize + pgsize) [[108, 115], [47]] argsKernel =
      .ok (some (2, arrayPtr (5 * pgsize + pgsize) [[108, 115], [47]])) s' ∧
    ArgsInMemory s' (samplePage 12) (5 * pgsize) (arrayPtr (5 * pgsize + pgsize) [[108, 115], [47]])
      [[108, 115], [47]] placed := by
  obtain ⟨o, s', hok, -, hbuilt⟩ := wp_total (exec_arguments (sampleBuild .none) [] 0
    argsKernel_stackPage (by decide) argsKernel_apart
    (show ([[108, 115], [47]] : List (List UInt8)).length < 32 by decide) (by decide)).1
  rcases hbuilt with ⟨-, hlow⟩ | ⟨rfl, -, placed, hargs⟩
  · exact absurd hlow (by decide)
  · exact ⟨s', placed, hok, hargs⟩

end Xv6Paging
