import Xv6Paging.Paging.Pager

/-!
# The pages of the running process

The paging data of a process inside the kernel state.  The victim search, `swapfile_to_ram` and the
two halves of `swap_pages` are moves of its layout, so a page fault and the eviction before a new
page keep the contents of every page.
-/

namespace Xv6Paging

open StateHalt Ownership
open Function (update update_of_ne update_self)

/-- The inode behind the swap file of a process. -/
def Kernel.swapInode (s : Kernel) (pr : Proc) : Inode :=
  match pr.swapFile with
  | some f => s.inode (s.ftable f).ip
  | none => .free

/-- The paging data of the process `p`. -/
def Kernel.pager (s : Kernel) (p : Fin nproc) : Pager where
  pte := (s.ptables (s.proc p).pagetable).pte
  ram := (s.proc p).ram
  swap := (s.proc p).swap
  file := s.swapInode (s.proc p)
  free := s.freelist
  mem := s.mem

/-- The process `p` runs, and is one of those that the paging kernels page; its first `n` pages are
laid out as `L`. -/
structure Paged (B : Build) (p : Fin nproc) (n : Nat) (L : Nat → Loc) (s : Kernel) : Prop where
  cur : s.cur = some p
  pid : 2 < (s.proc p).pid
  file : ∃ f, HasSwapFile s (s.proc p) f
  layout : Pager.Layout B (s.pager p) n L

/-- No page is on its way. -/
def Settled (n : Nat) (L : Nat → Loc) : Prop := ∀ v, v < n → L v ≠ .moving

/-- The frames that a page fault takes while it runs: one for the page, and one more as a buffer if
another page has to leave. -/
def faultDemand (ram : Slots) : Nat := if countPages ram < maxPsycPages then 1 else 2

/-! ## What paging leaves alone -/

/-- Paging for the process `p`: its table, its arrays, the contents of its swap file and the free
frames may change, and nothing else does. -/
structure Kept (p : Fin nproc) (s s' : Kernel) : Prop where
  rest : s' = { s with
    freelist := s'.freelist, mem := s'.mem, ptables := s'.ptables, proc := s'.proc
    ftable := s'.ftable, inode := s'.inode }
  procs : ∀ i, i ≠ p → s'.proc i = s.proc i
  proc : s'.proc p = { s.proc p with
    ram := (s'.proc p).ram, swap := (s'.proc p).swap, fifoCounter := (s'.proc p).fifoCounter }
  tables : ∀ r, r ≠ (s.proc p).pagetable → s'.ptables r = s.ptables r
  files : ∀ f, s'.ftable f = { s.ftable f with off := (s'.ftable f).off }

namespace Kept

variable {p : Fin nproc} {s t u : Kernel}

theorem refl (p : Fin nproc) (s : Kernel) : Kept p s s :=
  ⟨rfl, fun _ _ => rfl, rfl, fun _ _ => rfl, fun _ => rfl⟩

variable (h : Kept p s t)
include h

theorem pagetable_eq : (t.proc p).pagetable = (s.proc p).pagetable := by
  rw [h.proc]

theorem swapFile_eq : (t.proc p).swapFile = (s.proc p).swapFile := by
  rw [h.proc]

theorem sz_eq : (t.proc p).sz = (s.proc p).sz := by
  rw [h.proc]

theorem pid_eq : (t.proc p).pid = (s.proc p).pid := by
  rw [h.proc]

theorem cur_eq : t.cur = s.cur := by
  rw [h.rest]

theorem ip_eq (f : Fin nfile) : (t.ftable f).ip = (s.ftable f).ip := by
  rw [h.files f]

theorem trans (h' : Kept p t u) : Kept p s u where
  rest := by rw [h'.rest, h.rest]
  procs i hi := by rw [h'.procs i hi, h.procs i hi]
  proc := by rw [h'.proc, h.proc]
  tables r hr := by rw [h'.tables r (by rwa [h.pagetable_eq]), h.tables r hr]
  files f := by rw [h'.files f, h.files f]

theorem hasSwapFile {f : Fin nfile} (hf : HasSwapFile s (s.proc p) f) :
    HasSwapFile t (t.proc p) f where
  file := h.swapFile_eq.trans hf.file
  type := by rw [h.files f]; exact hf.type
  readable := by rw [h.files f]; exact hf.readable
  writable := by rw [h.files f]; exact hf.writable

theorem swapInode_eq (hino : t.inode = s.inode) :
    t.swapInode (t.proc p) = s.swapInode (s.proc p) := by
  unfold Kernel.swapInode
  rw [h.swapFile_eq]
  cases (s.proc p).swapFile with
  | none => rfl
  | some f => simp only [h.ip_eq, hino]

end Kept

/-- Pages of the process `p` have moved, and the contents of none has changed. -/
structure Repaged (B : Build) (p : Fin nproc) (n : Nat) (s : Kernel) (L : Nat → Loc) (s' : Kernel)
    (L' : Nat → Loc) : Prop where
  paged : Paged B p n L' s'
  kept : Kept p s s'
  page : ∀ v, v < n → (s'.pager p).page v (L' v) = (s.pager p).page v (L v)

theorem Repaged.trans {B : Build} {p : Fin nproc} {n : Nat} {s t u : Kernel} {L L' L'' : Nat → Loc}
    (h : Repaged B p n s L t L') (h' : Repaged B p n t L' u L'') : Repaged B p n s L u L'' where
  paged := h'.paged
  kept := h.kept.trans h'.kept
  page v hv := (h'.page v hv).trans (h.page v hv)

theorem HasSwapFile.swapInode {s : Kernel} {pr : Proc} {f : Fin nfile} (h : HasSwapFile s pr f) :
    s.swapInode pr = s.inode (s.ftable f).ip := by
  rw [Kernel.swapInode, h.file]

theorem pager_pte {s t : Kernel} {p : Fin nproc} {v : Nat} {x : Pte}
    (hroot : (t.proc p).pagetable = (s.proc p).pagetable)
    (htables : t.ptables = (s.setPte (s.proc p).pagetable v x).ptables)
    (hp : (s.ptables (s.proc p).pagetable).present v) :
    (t.pager p).pte = update (s.pager p).pte v x := by
  funext w
  show (t.ptables _).pte w = _
  rw [hroot, htables, Kernel.setPte_self, PageTable.pte_setLeaf _ hp, Function.update_apply]
  rfl

namespace Paged

variable {B : Build} {pol : Policy} {p : Fin nproc} {n v w pa : Nat} {L : Nat → Loc}
  {s t s' : Kernel}
  {k j : Fin maxPsycPages}

/-! ## What a layout says about the state -/

variable (h : Paged B p n L s)
include h

theorem present (hv : v < n) : (s.ptables (s.proc p).pagetable).present v :=
  PageTable.present_of_hasFlag _ (h.layout.leaf v hv)

theorem lt_total (hv : v < n) : v < maxTotalPages :=
  Nat.lt_of_lt_of_le hv h.layout.total

theorem findSwap (hv : v < n) (hj : L v = .swap j) :
    findSlot (fun d => u64 d.va == v * pgsize) (s.proc p).swap = some j := by
  have hat := h.layout.located v hv
  rw [hj] at hat
  have hva : ((s.proc p).swap j).va = pageVa v := hat.2.1
  obtain ⟨i, hi⟩ := findSlot_isSome (c := fun d => u64 d.va == v * pgsize) (d := (s.proc p).swap)
    (k := j) (by simp only [hva, u64_pageVa (h.lt_total hv), beq_self_eq_true])
  have hu : u64 ((s.proc p).swap i).va = v * pgsize := by simpa using findSlot_some hi
  -- the slot that is found records a page, and it is this one
  rcases h.layout.slot_cases (.swap i) with hnone | ⟨x, hx, hLi, hxva⟩
  · have hrem : u64 ((s.proc p).swap i).va = 2 ^ 64 - 1 := by
      rw [show ((s.proc p).swap i).va = PageData.removed.va from hnone, u64_removed]
    simp only [pgsize] at hu
    omega
  · have hxva' : ((s.proc p).swap i).va = pageVa x := hxva
    rw [hxva', u64_pageVa (h.lt_total hx)] at hu
    obtain rfl : x = v := by
      simp only [pgsize] at hu
      omega
    rw [hj] at hLi
    obtain rfl : j = i := by simpa using hLi
    exact hi

theorem findRam (hw : w < n) (hk : L w = .ram k) :
    findSlot (fun d => d.va == pageVa w) (s.proc p).ram = some k := by
  have hat := h.layout.located w hw
  rw [hk] at hat
  have hva : ((s.proc p).ram k).va = pageVa w := hat.2.1
  obtain ⟨i, hi⟩ := findSlot_isSome (c := fun d => d.va == pageVa w) (d := (s.proc p).ram) (k := k)
    (by simp only [hva, beq_self_eq_true])
  have hu : ((s.proc p).ram i).va = pageVa w := by simpa using findSlot_some hi
  have hLi := (h.layout.of_va (l := .ram i) hu).2
  rw [hk] at hLi
  obtain rfl : k = i := by simpa using hLi
  exact hi

variable (hfull : ∀ k, ((s.proc p).ram k).used = true)
include hfull

theorem ramRecords : RamRecords s p := by
  intro k
  obtain ⟨v, hv, hLv⟩ := h.layout.ramUsed k (hfull k)
  have hat := h.layout.located v hv
  rw [hLv] at hat
  exact ⟨v, h.lt_total hv, hat.2.1, h.present hv⟩

/-- A full `ram` array holds a user page: at most one page is not. -/
theorem exists_user : ∃ k, hasFlag (s.ramPte p k) pteU = true := by
  have hslot : ∀ k, ∃ v, v < n ∧ L v = .ram k ∧
      s.ramPte p k = (s.ptables (s.proc p).pagetable).pte v := by
    intro k
    obtain ⟨v, hv, hLv⟩ := h.layout.ramUsed k (hfull k)
    have hat := h.layout.located v hv
    rw [hLv] at hat
    have hva : ((s.proc p).ram k).va = pageVa v := hat.2.1
    refine ⟨v, hv, hLv, ?_⟩
    rw [Kernel.ramPte, Proc.ramPage, hva, u64_pageVa (h.lt_total hv), page_div]
  obtain ⟨v, hv, hLv, hv'⟩ := hslot 0
  obtain ⟨w, hw, hLw, hw'⟩ := hslot 1
  by_contra hno
  push Not at hno
  have h0 := Bool.eq_false_of_not_eq_true (hno 0)
  have h1 := Bool.eq_false_of_not_eq_true (hno 1)
  rw [hv'] at h0
  rw [hw'] at h1
  obtain rfl := h.layout.guard v w hv hw h0 h1
  rw [hLv] at hLw
  exact absurd hLw (by decide)

theorem chose (hch : Chose p w s t) :
    w < n ∧ (∃ k, L w = .ram k) ∧ hasFlag ((s.ptables (s.proc p).pagetable).pte w) pteU = true := by
  obtain ⟨k, hva, hU⟩ := hch.recorded
  have hU := hU (h.exists_user hfull)
  rw [Kernel.ramPte, Proc.ramPage, hva, u64_pageVa hch.lt_total, page_div] at hU
  obtain ⟨hw, hLw⟩ := h.layout.of_va (l := .ram k) hva
  exact ⟨hw, ⟨k, hLw⟩, hU⟩

/-! ## The moves -/

omit hfull in
theorem of_kept {m : Nat} {L' : Nat → Loc} (hk : Kept p s t)
    (hL : Pager.Layout B (t.pager p) m L') : Paged B p m L' t := by
  obtain ⟨f, hf⟩ := h.file
  exact ⟨hk.cur_eq.trans h.cur, hk.pid_eq ▸ h.pid, ⟨f, hk.hasSwapFile hf⟩, hL⟩

omit hfull in
theorem aged (ha : Aged p s t) : Repaged B p n s L t L := by
  have hkept : Kept p s t := by
    refine ⟨?_, ha.procs, ?_, ha.tables, fun f => ?_⟩
    · rw [ha.rest]
    · rw [ha.proc]
    · rw [ha.rest]
  have hino : t.inode = s.inode := by rw [ha.rest]
  have hpa : ∀ x, pte2pa ((t.pager p).pte x) = pte2pa ((s.pager p).pte x) := fun x => by
    show pte2pa ((t.ptables (t.proc p).pagetable).pte x) = _
    rw [ha.pagetable_eq, ha.pte2pa_eq]
    rfl
  have hmem : t.mem = s.mem := by rw [ha.rest]
  refine ⟨h.of_kept hkept ?_, hkept, ?_⟩
  · refine h.layout.retag (fun x flag hflag => ?_) hpa (fun i => ?_) ?_
      (hkept.swapInode_eq hino) ?_
    · show hasFlag ((t.ptables (t.proc p).pagetable).pte x) flag = _
      rw [ha.pagetable_eq, ha.hasFlag_eq hflag]
      rfl
    · show ((t.proc p).ram i).used = _ ∧ ((t.proc p).ram i).va = _
      rw [ha.ram i]
      exact ⟨rfl, rfl⟩
    · show (t.proc p).swap = (s.proc p).swap
      rw [ha.proc]
    · show t.freelist = s.freelist
      rw [ha.rest]
  · intro x hx
    refine Pager.Layout.page_congr hx (hpa x) (fun q _ => congrFun hmem q) fun i _ b => ?_
    show (t.swapInode _).data _ = (s.swapInode _).data _
    rw [hkept.swapInode_eq hino]

omit hfull in
theorem unload (hw : w < n) (hk : L w = .ram k) :
    Repaged B p n s L (s.unload p w k) (update L w .moving) := by
  have hkept : Kept p s (s.unload p w k) :=
    ⟨rfl, fun i hi => Kernel.setProc_of_ne _ _ hi, by simp [Kernel.unload],
      fun r hr => unload_of_ne hr, fun _ => rfl⟩
  have hpte : ((s.unload p w k).pager p).pte =
      update (s.pager p).pte w ((s.pager p).pte w &&& ~~~pteV) :=
    pager_pte unload_pagetable rfl (h.present hw)
  have hfile : ((s.unload p w k).pager p).file = (s.pager p).file := hkept.swapInode_eq rfl
  refine ⟨h.of_kept hkept ?_, hkept, ?_⟩
  · refine h.layout.unload hw hk hpte ?_ ?_ hfile rfl
    · show ((s.unload p w k).proc p).ram = _
      simp only [Kernel.unload, Kernel.setProc_self]
      rfl
    · exact unload_swap
  · intro x _
    exact Pager.Layout.unload_page hk hpte rfl hfile x

omit hfull in
theorem swapIn {i : Fin maxPsycPages} (hv : v < n) (hj : L v = .swap j)
    (hk : ((s.proc p).ram k).used = false) (hin : SwappedIn pol p k v i pa s s') :
    i = j ∧ s.freelist = pa :: s'.freelist ∧ hasFlag ((s'.pager p).pte v) pteU = true ∧
      Repaged B p n s L s' (update L v (.ram k)) := by
  obtain rfl : i = j := by
    have := hin.found
    rw [h.findSwap hv hj] at this
    simpa using this.symm
  obtain ⟨f, hf⟩ := h.file
  have hat := h.layout.located v hv
  rw [hj] at hat
  have hsize : (i + 1) * pgsize ≤ (s.inode (s.ftable f).ip).size := by
    rw [← hf.swapInode]
    exact hat.2.2.2.1
  obtain ⟨hkern, hbytes⟩ := hin.bytes f hf hsize
  -- the frame is not null, so it came from the free list
  have hfree : (s.pager p).free = pa :: (s'.pager p).free := by
    rcases hin.freelist with ⟨-, h0, -⟩ | hcons
    · exact absurd hkern.1 (by rw [h0]; decide)
    · exact hcons
  have hself : s'.proc p = (s.proc p).swapIn pol k v i := by rw [hin.proc, update_self]
  have hino : s'.inode = s.inode := by rw [hin.rest]
  have hkept : Kept p s s' := by
    refine ⟨?_, fun q hq => ?_, ?_, fun r hr => ?_, hin.file⟩
    · rw [hin.rest]
    · rw [hin.proc, update_of_ne hq]
    · rw [hself]
      rfl
    · rw [hin.ptables, Kernel.setPte_of_ne _ _ _ hr]
  have hpte : (s'.pager p).pte = update (s.pager p).pte v (swapInPte pa) :=
    pager_pte hkept.pagetable_eq hin.ptables (h.present hv)
  have hfile : (s'.pager p).file = (s.pager p).file := hkept.swapInode_eq hino
  refine ⟨rfl, hfree, ?_, h.of_kept hkept ?_, hkept, fun x hx => ?_⟩
  · rw [hpte, update_self, Pager.Layout.swapInPte_user]
  · refine h.layout.swapIn (k := k) hv hj hk hfree hpte (fun q hq => ?_) ?_ ?_ hfile
    · show (s'.proc p).ram q = _
      rw [hself]
      exact update_of_ne hq _ _
    · have hslot : (s'.proc p).ram k =
          stampPage pol (s.proc p).fifoCounter ((s.proc p).ram k) (v * pgsize) := by
        rw [hself]
        exact update_self _ _ _
      constructor
      · show ((s'.proc p).ram k).used = true
        rw [hslot, stampPage_used]
      · show ((s'.proc p).ram k).va = pageVa v
        rw [hslot, stampPage_va, i32_page (h.lt_total hv)]
    · show (s'.proc p).swap = _
      rw [hself]
      rfl
  · refine h.layout.swapIn_page hj hfree hpte hfile hin.mem ?_ hx
    show s'.mem pa = _
    rw [hbytes]
    show _ = fun b : Fin pgsize => (s.swapInode (s.proc p)).data _
    rw [hf.swapInode]

omit hfull in
theorem evict {page : Nat} (hw : w < n) (hm : L w = .moving) (hj : ((s.proc p).swap j).used = false)
    (hoff : j * pgsize ≤ (s.swapInode (s.proc p)).size)
    (hev : Evicted B p w (pageVa w) j page s s') : Repaged B p n s L s' (update L w (.swap j)) := by
  obtain ⟨f, hf⟩ := h.file
  obtain ⟨fs, hpage⟩ := hev.buffer
  have hmem : page ∈ s.freelist := by simp [hpage]
  have hne : pte2pa ((s.ptables (s.proc p).pagetable).pte w) ≠ page := fun heq =>
    h.layout.frame_notMem hw (by rw [hm]; trivial) (heq ▸ hmem)
  have hino := hev.inode f hf (by rwa [← hf.swapInode]) hne
  have hself : s'.proc p = (s.proc p).swapOut (pageVa w) j := by rw [hev.proc, update_self]
  have hkept : Kept p s s' := by
    refine ⟨?_, fun q hq => ?_, ?_, fun r hr => ?_, hev.file⟩
    · rw [hev.rest]
    · rw [hev.proc, update_of_ne hq]
    · rw [hself]
      rfl
    · rw [hev.ptables, Kernel.setPte_of_ne _ _ _ hr]
  have hpte : (s'.pager p).pte = update (s.pager p).pte w ((s.pager p).pte w ||| ptePG) :=
    pager_pte hkept.pagetable_eq hev.ptables (h.present hw)
  have hfile : (s'.pager p).file =
      (s.pager p).file.storeSlot j ((s.pager p).mem (pte2pa ((s.pager p).pte w))) := by
    show s'.swapInode (s'.proc p) = (s.swapInode (s.proc p)).storeSlot j _
    rw [(hkept.hasSwapFile hf).swapInode, hf.swapInode, hkept.ip_eq, hino, update_self]
    rfl
  refine ⟨h.of_kept hkept ?_, hkept, fun x hx => ?_⟩
  · refine h.layout.evict (j := j) hw hm hj hpte ?_ (fun q hq => ?_) ?_ ?_ ?_ hev.freelist
    · show (s'.proc p).ram = _
      rw [hself]
      rfl
    · show (s'.proc p).swap q = _
      rw [hself]
      exact update_of_ne hq _ _
    · show ((s'.proc p).swap j).used = true ∧ ((s'.proc p).swap j).va = _ ∧
        ((s'.proc p).swap j).offset = _
      have hslot : (s'.proc p).swap j =
          { (s.proc p).swap j with va := pageVa w, offset := j * pgsize, used := true } := by
        rw [hself]
        exact update_self _ _ _
      rw [hslot]
      exact ⟨rfl, rfl, (Int.natCast_mul _ _).symm⟩
    · rw [hfile]
      exact Nat.le_max_left _ _
    · rw [hfile]
      refine Nat.le_trans (Nat.le_of_eq ?_) (Nat.le_max_right _ _)
      rw [Nat.add_mul, Nat.one_mul]
  · exact h.layout.evict_page hw hm hj hmem hpte hfile hev.mem hx

/-! ## What the moves need -/

omit hfull in
theorem isFrame_of_mem {f : Nat} (hf : f ∈ s.freelist) : IsFrame B f :=
  h.layout.owned.loose_valid f hf

omit hfull in
theorem canSwapIn (hv : v < n) (hj : L v = .swap j)
    (hfree : s.freelist ≠ []) : CanSwapIn p v s := by
  obtain ⟨f, hf⟩ := h.file
  obtain ⟨pa, fs, hpa⟩ := List.exists_cons_of_ne_nil hfree
  have hat := h.layout.located v hv
  rw [hj] at hat
  have hframe := h.isFrame_of_mem (f := pa) (by simp [hpa])
  refine ⟨j, f, pa, fs, h.findSwap hv hj, hat.2.2.2.2.1, hf, ?_, hpa, hframe.kernbase_le,
    hframe.2.2⟩
  rw [← hf.swapInode]
  exact hat.2.2.2.1

omit hfull in
theorem canEvict (hw : w < n) (hm : L w = .moving)
    (hoff : j * pgsize ≤ (s.swapInode (s.proc p)).size) (hfree : s.freelist ≠ []) :
    CanEvict B p w j s := by
  obtain ⟨f, hf⟩ := h.file
  obtain ⟨page, fs, hpage⟩ := List.exists_cons_of_ne_nil hfree
  refine ⟨f, page, fs, hf, ?_, hpage, h.isFrame_of_mem (by simp [hpage]),
    h.layout.frame hw (by rw [hm]; trivial)⟩
  rwa [← hf.swapInode]

omit hfull in
theorem slot_le_size (hv : v < n) (hj : L v = .swap j) :
    j * pgsize ≤ (s.swapInode (s.proc p)).size := by
  have hat := h.layout.located v hv
  rw [hj] at hat
  exact Nat.le_trans (Nat.mul_le_mul_right _ (Nat.le_succ _)) hat.2.2.2.1

theorem freeSwap_spec (hn : n < maxTotalPages) :
    ((s.proc p).swap (s.proc p).freeSwap).used = false ∧
      (s.proc p).freeSwap * pgsize ≤ (s.swapInode (s.proc p)).size := by
  obtain ⟨i, hi⟩ : ∃ i, ((s.proc p).swap i).used = false := h.layout.exists_freeSwap hfull hn
  obtain ⟨j, hj⟩ := findSlot_isSome (c := fun d => !d.used) (d := (s.proc p).swap) (k := i)
    (by simp [hi])
  have hslot : (s.proc p).freeSwap = j := by rw [Proc.freeSwap, hj, Option.getD_some]
  rw [hslot]
  refine ⟨by simpa using findSlot_some hj, ?_⟩
  cases hval : j.val with
  | zero => simp
  | succ m =>
    -- the slot before the first free one is in use, hence inside the file
    have hm : m < maxPsycPages := by
      have := j.isLt
      omega
    have hused : ((s.proc p).swap ⟨m, hm⟩).used = true := by
      simpa using findSlot_first hj (j := ⟨m, hm⟩)
        (by rw [Fin.lt_def, hval]; exact Nat.lt_succ_self m)
    obtain ⟨v, hv, hLv⟩ := h.layout.swapUsed ⟨m, hm⟩ hused
    have hat := h.layout.located v hv
    rw [hLv] at hat
    exact hat.2.2.2.1

/-! ## Faults and evictions -/

theorem unloaded (hch : Chose p w s t)
    (hk : findSlot (fun d => d.va == pageVa w) (t.proc p).ram = some k) :
    w < n ∧ L w = .ram k ∧ (t.unload p w k).inode = s.inode ∧
      Repaged B p n s L (t.unload p w k) (update L w .moving) := by
  obtain ⟨hw, ⟨i, hi⟩, -⟩ := h.chose hfull hch
  have haged := h.aged hch.aged
  obtain rfl : i = k := by
    rw [haged.paged.findRam hw hi] at hk
    simpa using hk
  refine ⟨hw, hi, ?_, haged.trans (haged.paged.unload hw hi)⟩
  show t.inode = s.inode
  rw [hch.aged.rest]

theorem findVictim (hch : Chose p w s t) :
    (∃ k, findSlot (fun d => d.va == pageVa w) (t.proc p).ram = some k) ∧
      hasFlag ((t.ptables (t.proc p).pagetable).pte w) pteU = true := by
  obtain ⟨hw, ⟨i, hi⟩, hU⟩ := h.chose hfull hch
  refine ⟨⟨i, (h.aged hch.aged).paged.findRam hw hi⟩, ?_⟩
  rw [hch.aged.pagetable_eq, hch.aged.hasFlag_eq (by decide)]
  exact hU

omit hfull in
/-- **A page changes places with a victim.**  Two frames were free. -/
theorem exchanged (hset : Settled n L)
    (hfull : ∀ k, ((s.proc p).ram k).used = true) (hv : v < n) (hj : L v = .swap j)
    (hch : Chose p w s t) (hex : Exchanged B pol p v w (pageVa w) k t s') :
    2 ≤ s.freelist.length ∧ hasFlag ((s'.pager p).pte v) pteU = true ∧
      ∃ L', Settled n L' ∧ L' v = .ram k ∧ Repaged B p n s L s' L' := by
  obtain ⟨hw, hLw, hino, hun⟩ := h.unloaded hfull hch hex.found
  obtain ⟨i, pa, page, u, hin, hev⟩ := hex.moved
  have hvw : v ≠ w := fun heq => by
    rw [heq, hLw] at hj
    exact absurd hj (by simp)
  have hk : (((t.unload p w k).proc p).ram k).used = false := by
    simp [Kernel.unload, PageData.removed]
  obtain ⟨rfl, hfree, hU, hr⟩ := hun.paged.swapIn hv (by rw [update_of_ne hvw, hj]) hk hin
  -- the slot of the page that came in takes the one that goes out
  have hslot : ((u.proc p).swap i).used = false := by
    rw [hin.proc, update_self]
    simp [Proc.swapIn, PageData.removed]
  have hoff : i * pgsize ≤ (u.swapInode (u.proc p)).size := by
    have hui : u.inode = s.inode := by rw [hin.rest, ← hino]
    rw [(hun.trans hr).kept.swapInode_eq hui]
    exact h.slot_le_size hv hj
  have hm : update (update L w .moving) v (.ram k) w = .moving := by
    rw [update_of_ne hvw.symm, update_self]
  have hr' := hr.paged.evict hw hm hslot hoff hev
  refine ⟨?_, ?_, _, fun x hx => ?_, ?_, (hun.trans hr).trans hr'⟩
  · obtain ⟨fs, hfs⟩ := hev.buffer
    have hs : s.freelist = pa :: page :: fs := by
      rw [← hfs, ← hfree]
      show _ = t.freelist
      rw [hch.aged.rest]
    rw [hs]
    simp
  · rw [pager_pte hr'.kept.pagetable_eq hev.ptables (hr.paged.present hw),
      update_of_ne hvw]
    exact hU
  · by_cases hxw : x = w
    · rw [hxw, update_self]
      simp
    rw [update_of_ne hxw]
    by_cases hxv : x = v
    · rw [hxv, update_self]
      simp
    rw [update_of_ne hxv, update_of_ne hxw]
    exact hset x hx
  · rw [update_of_ne hvw, update_self]

theorem canExchange
    (hv : v < n) (hj : L v = .swap j) (hlen : 2 ≤ s.freelist.length) (hch : Chose p w s t) :
    CanExchange B pol p v w (pageVa w) t := by
  obtain ⟨⟨k, hfound⟩, hU⟩ := h.findVictim hfull hch
  obtain ⟨hw, hLw, hino, hun⟩ := h.unloaded hfull hch hfound
  have hvw : v ≠ w := fun heq => by
    rw [heq, hLw] at hj
    exact absurd hj (by simp)
  have hj' : update L w .moving v = .swap j := by rw [update_of_ne hvw, hj]
  have hk : (((t.unload p w k).proc p).ram k).used = false := by
    simp [Kernel.unload, PageData.removed]
  have hlist : (t.unload p w k).freelist = s.freelist := by
    show t.freelist = s.freelist
    rw [hch.aged.rest]
  refine ⟨k, hfound, hU, hun.paged.canSwapIn hv hj' ?_, fun i pa u hin => ?_⟩
  · rw [hlist]
    rintro h0
    rw [h0] at hlen
    exact absurd hlen (by decide)
  · obtain ⟨rfl, hfree, -, hr⟩ := hun.paged.swapIn hv hj' hk hin
    refine hr.paged.canEvict hw ?_ ?_ ?_
    · rw [update_of_ne hvw.symm, update_self]
    · have hui : u.inode = s.inode := by rw [hin.rest, ← hino]
      rw [(hun.trans hr).kept.swapInode_eq hui]
      exact h.slot_le_size hv hj
    · rintro h0
      rw [hlist, h0] at hfree
      rw [hfree] at hlen
      exact absurd hlen (by simp)

omit hfull in
/-- **A page makes room.**  A frame was free, and one more is. -/
theorem madeRoom (hset : Settled n L)
    (hfull : ∀ k, ((s.proc p).ram k).used = true) (hn : n < maxTotalPages)
    (hch : Chose p w s t) (hroom : MadeRoom B p w (pageVa w) k t s') :
    s.freelist ≠ [] ∧ s'.freelist.length = s.freelist.length + 1 ∧
      ((s'.proc p).ram k).used = false ∧ (∀ i, i ≠ k → ((s'.proc p).ram i).used = true) ∧
      ∃ L', Settled n L' ∧ Repaged B p n s L s' L' := by
  obtain ⟨hw, hLw, hino, hun⟩ := h.unloaded hfull hch hroom.found
  obtain ⟨page, hev⟩ := hroom.evicted
  have htswap : (t.proc p).swap = (s.proc p).swap := by rw [hch.aged.proc]
  have hslot : (t.proc p).freeSwap = (s.proc p).freeSwap := by
    rw [Proc.freeSwap, htswap, Proc.freeSwap]
  obtain ⟨hunused, hoff⟩ := h.freeSwap_spec hfull hn
  rw [hslot] at hev
  have hr := hun.paged.evict hw (update_self _ _ _)
    (by rw [unload_swap, htswap]; exact hunused)
    (by rw [hun.kept.swapInode_eq hino]; exact hoff) hev
  have hlist : (t.unload p w k).freelist = s.freelist := by
    show t.freelist = s.freelist
    rw [hch.aged.rest]
  have hram : (s'.proc p).ram = update (t.proc p).ram k .removed := by
    rw [hev.proc, update_self]
    show ((t.unload p w k).proc p).ram = _
    simp [Kernel.unload]
  refine ⟨?_, ?_, ?_, fun i hi => ?_, _, fun x hx => ?_, hun.trans hr⟩
  · obtain ⟨fs, hfs⟩ := hev.buffer
    rw [← hlist, hfs]
    simp
  · rw [hev.freelist, hlist, List.length_cons]
  · rw [hram, update_self]
    rfl
  · rw [hram, update_of_ne hi, hch.aged.ram i]
    exact hfull i
  · by_cases hxw : x = w
    · rw [hxw, update_self]
      simp
    · rw [update_of_ne hxw, update_of_ne hxw]
      exact hset x hx

theorem canMakeRoom
    (hn : n < maxTotalPages) (hfree : s.freelist ≠ []) (hch : Chose p w s t) :
    CanMakeRoom B p w (pageVa w) t := by
  obtain ⟨⟨k, hfound⟩, hU⟩ := h.findVictim hfull hch
  obtain ⟨hw, hLw, hino, hun⟩ := h.unloaded hfull hch hfound
  have htswap : (t.proc p).swap = (s.proc p).swap := by rw [hch.aged.proc]
  have hslot : (t.proc p).freeSwap = (s.proc p).freeSwap := by
    rw [Proc.freeSwap, htswap, Proc.freeSwap]
  refine ⟨k, hfound, hU, hun.paged.canEvict hw (update_self _ _ _) ?_ ?_⟩
  · rw [hslot, hun.kept.swapInode_eq hino]
    exact (h.freeSwap_spec hfull hn).2
  · show t.freelist ≠ []
    rw [hch.aged.rest]
    exact hfree

end Paged

section Specs

variable {B : Build} {pol : Policy} {p : Fin nproc} {n v : Nat} {L : Nat → Loc} {s : Kernel}
  {j : Fin maxPsycPages}

/-- **A page fault** on a swapped-out page moves pages only, and the page is resident afterwards; or
too few frames are free. -/
theorem swap_paged (h : Paged B p n L s) (hset : Settled n L) (hv : v < n) (hj : L v = .swap j) :
    wp (swap B pol (v * pgsize) ⟨(s.proc p).pagetable, v⟩)
      (fun _ s' => faultDemand (s.proc p).ram ≤ s.freelist.length ∧
        hasFlag ((s'.pager p).pte v) pteU = true ∧
        ∃ L' k, Settled n L' ∧ L' v = .ram k ∧ Repaged B p n s L s' L')
      (fun e _ => e ≠ .exited ∧ s.freelist.length < faultDemand (s.proc p).ram) s := by
  have hdemand : faultDemand (s.proc p).ram =
      if ∃ k, ((s.proc p).ram k).used = false then 1 else 2 := by
    simp only [faultDemand, countPages_lt_iff]
  refine wp_mono (swap_spec h.cur h.ramRecords (h.lt_total hv) (h.present hv)) ?_ ?_
  · rintro _ s' (⟨k, i, pa, hk, hin⟩ | ⟨hfull, k, w, t, hch, hex⟩)
    · obtain ⟨-, hfree, hU, hr⟩ := h.swapIn hv hj hk hin
      rw [hdemand, if_pos ⟨k, hk⟩, hfree]
      refine ⟨by simp, hU, _, k, fun x hx => ?_, update_self _ _ _, hr⟩
      by_cases hxv : x = v
      · rw [hxv, update_self]
        simp
      · rw [update_of_ne hxv]
        exact hset x hx
    · obtain ⟨hlen, hU, L', hset', hLv, hr⟩ := h.exchanged hset hfull hv hj hch hex
      rw [hdemand, if_neg fun ⟨i, hi⟩ => by simp [hfull i] at hi]
      exact ⟨hlen, hU, L', k, hset', hLv, hr⟩
  · rintro e s' ⟨he, hno⟩
    refine ⟨he, ?_⟩
    by_contra hlen
    rw [Nat.not_lt, hdemand] at hlen
    refine hno ⟨fun hk => h.canSwapIn hv hj fun h0 => ?_, fun hfull w t hch => ?_⟩
    · rw [if_pos hk, h0] at hlen
      exact absurd hlen (by decide)
    · rw [if_neg fun ⟨i, hi⟩ => by simp [hfull i] at hi] at hlen
      exact h.canExchange hfull hv hj hlen hch

/-- **An eviction** before a new page moves pages only and frees a slot and a frame; or no frame is
free. -/
theorem exchangePages_paged {a : Nat} (h : Paged B p n L s) (hset : Settled n L)
    (hfull : ∀ k, ((s.proc p).ram k).used = true) (hn : n < maxTotalPages) :
    wp (exchangePages B pol a false)
      (fun k s' => s.freelist ≠ [] ∧ s'.freelist.length = s.freelist.length + 1 ∧
        ((s'.proc p).ram k).used = false ∧ (∀ i, i ≠ k → ((s'.proc p).ram i).used = true) ∧
        ∃ L', Settled n L' ∧ Repaged B p n s L s' L')
      (fun e _ => e ≠ .exited ∧ s.freelist = []) s := by
  refine wp_mono (exchangePages_out_spec h.cur (h.ramRecords hfull)) ?_ ?_
  · rintro k s' ⟨w, t, hch, hroom⟩
    exact h.madeRoom hset hfull hn hch hroom
  · rintro e s' ⟨he, w, t, hch, hno⟩
    refine ⟨he, ?_⟩
    by_contra hfree
    exact hno (h.canMakeRoom hfull hn hfree hch)

end Specs

end Xv6Paging
