import Xv6Paging.Machine.State

/-!
# Page tables as maps

What the operations on a page table do to the two things a walk can observe: `node`, the
page-table pages, and `pte`, the entry of a virtual page.  Hanging a zeroed page changes no entry,
storing an entry changes no page.
-/

namespace Xv6Paging

namespace PageTable

variable (pt : PageTable)

@[simp] theorem node_two (idx : Nat) : pt.node 2 idx = pt.dir 2 idx := by
  simp [node]

theorem node_one (idx : Nat) :
    pt.node 1 idx = (pt.dir 2 (idx / 512)).bind fun _ => pt.dir 1 idx := by
  simp [node]

theorem node_of_ne {level : Nat} (h2 : level ≠ 2) (h1 : level ≠ 1) (idx : Nat) :
    pt.node level idx = none := by
  simp [node, h2, h1]

@[simp] theorem node_empty (level idx : Nat) : empty.node level idx = none := by
  simp [node, empty]

@[simp] theorem pte_empty (v : Nat) : empty.pte v = 0#64 := by
  simp [pte, present]

theorem pte_of_present {v : Nat} (h : pt.present v) : pt.pte v = pt.leaf v := if_pos h

theorem pte_of_not_present {v : Nat} (h : ¬pt.present v) : pt.pte v = 0#64 := if_neg h

theorem present_of_pte_ne {v : Nat} (h : pt.pte v ≠ 0#64) : pt.present v := by
  by_contra hp
  exact h (pt.pte_of_not_present hp)

theorem present_of_hasFlag {v : Nat} {flag : Pte} (h : hasFlag (pt.pte v) flag = true) :
    pt.present v := by
  apply pt.present_of_pte_ne
  rintro h0
  rw [h0, hasFlag_zero] at h
  exact Bool.noConfusion h

/-! ### Storing an entry -/

variable {pt}

@[simp] theorem dir_setLeaf (v : Nat) (x : Pte) : (pt.setLeaf v x).dir = pt.dir := rfl

@[simp] theorem present_setLeaf (v w : Nat) (x : Pte) :
    (pt.setLeaf v x).present w ↔ pt.present w := Iff.rfl

theorem pte_setLeaf {v : Nat} (x : Pte) (h : pt.present v) (w : Nat) :
    (pt.setLeaf v x).pte w = if w = v then x else pt.pte w := by
  by_cases hw : w = v
  · subst hw
    rw [if_pos rfl, pte_of_present _ ((present_setLeaf _ _ _).mpr h)]
    simp [setLeaf]
  · have hleaf : (pt.setLeaf v x).leaf w = pt.leaf w := by simp [setLeaf, hw]
    simp only [if_neg hw, pte, present_setLeaf, hleaf]

@[simp] theorem leaf_setLeaf (v : Nat) (x : Pte) : (pt.setLeaf v x).leaf v = x := by
  simp [setLeaf]

@[simp] theorem setLeaf_setLeaf (v : Nat) (x y : Pte) :
    (pt.setLeaf v x).setLeaf v y = pt.setLeaf v y := by
  simp [setLeaf]

/-! ### Hanging a page -/

section NewPage

variable {level idx : Nat} (pa : Nat)

theorem node_newPage_two (h : pt.dir 2 idx = none) (l j : Nat) :
    (pt.newPage 2 idx pa).node l j = if l = 2 ∧ j = idx then some pa else pt.node l j := by
  by_cases hl : l = 2
  · subst hl
    by_cases hj : j = idx <;> simp [newPage, hj]
  · rw [if_neg (by tauto)]
    by_cases hl1 : l = 1
    · subst hl1
      rw [node_one, node_one]
      by_cases hj : j / 512 = idx
      · simp [newPage, hj, h]
      · simp [newPage, hj]
    · rw [node_of_ne _ hl hl1, node_of_ne _ hl hl1]

theorem node_newPage_one (hup : pt.dir 2 (idx / 512) ≠ none) (l j : Nat) :
    (pt.newPage 1 idx pa).node l j = if l = 1 ∧ j = idx then some pa else pt.node l j := by
  by_cases hl : l = 1
  · subst hl
    rw [node_one, node_one]
    by_cases hj : j = idx
    · subst hj
      obtain ⟨r, hr⟩ := Option.ne_none_iff_exists'.mp hup
      simp [newPage, hr]
    · simp [newPage, hj]
  · rw [if_neg (by tauto)]
    by_cases hl2 : l = 2
    · subst hl2
      simp [newPage]
    · rw [node_of_ne _ hl2 hl, node_of_ne _ hl2 hl]

/-- **A new page-table page** changes no other pointer. -/
theorem node_newPage (hl : level = 2 ∨ level = 1) (h : pt.node level idx = none)
    (hup : level = 1 → pt.dir 2 (idx / 512) ≠ none) (l j : Nat) :
    (pt.newPage level idx pa).node l j = if l = level ∧ j = idx then some pa else pt.node l j := by
  rcases hl with rfl | rfl
  · exact node_newPage_two pa (by simpa using h) l j
  · exact node_newPage_one pa (hup rfl) l j

/-- **A new page-table page** changes no entry: its own entries are zero, and read as zero before
it was there. -/
theorem pte_newPage (hl : level = 2 ∨ level = 1) (h : pt.node level idx = none)
    (hup : level = 1 → pt.dir 2 (idx / 512) ≠ none) (v : Nat) :
    (pt.newPage level idx pa).pte v = pt.pte v := by
  have hnode := node_newPage pa hl h hup 1 (v / 512)
  by_cases hv : level = 1 ∧ v / 512 = idx
  · obtain ⟨rfl, rfl⟩ := hv
    rw [pte_of_not_present pt (by simpa [present] using h), pte]
    simp [newPage]
  · have hpres : (pt.newPage level idx pa).present v ↔ pt.present v := by
      rw [present, present, hnode, if_neg (by tauto)]
    have hleaf : (pt.newPage level idx pa).leaf v = pt.leaf v := by
      simp [newPage, if_neg hv]
    simp only [pte, hpres, hleaf]

theorem present_newPage (hl : level = 2 ∨ level = 1) (h : pt.node level idx = none)
    (hup : level = 1 → pt.dir 2 (idx / 512) ≠ none) {v : Nat} (hv : pt.present v) :
    (pt.newPage level idx pa).present v := by
  rw [present, node_newPage pa hl h hup]
  split
  · simp
  · exact hv

end NewPage

end PageTable

/-! ## Tables in the kernel state -/

namespace Kernel

variable (s : Kernel)

@[simp] theorem setTable_self (r : Nat) (pt : PageTable) : (s.setTable r pt).ptables r = pt := by
  simp [setTable]

@[simp] theorem setTable_of_ne {r r' : Nat} (pt : PageTable) (h : r' ≠ r) :
    (s.setTable r pt).ptables r' = s.ptables r' := by
  simp [setTable, h]

@[simp] theorem setPte_self (r v : Nat) (x : Pte) :
    (s.setPte r v x).ptables r = (s.ptables r).setLeaf v x := setTable_self s r _

@[simp] theorem setPte_of_ne {r r' : Nat} (v : Nat) (x : Pte) (h : r' ≠ r) :
    (s.setPte r v x).ptables r' = s.ptables r' := setTable_of_ne s _ h

@[simp] theorem setPte_setPte (r v : Nat) (x y : Pte) :
    (s.setPte r v x).setPte r v y = s.setPte r v y := by
  simp [setPte, setTable]

@[simp] theorem setProc_self (i : Fin nproc) (p : Proc) : (s.setProc i p).proc i = p := by
  simp [setProc]

@[simp] theorem setProc_of_ne {i j : Fin nproc} (p : Proc) (h : j ≠ i) :
    (s.setProc i p).proc j = s.proc j := by
  simp [setProc, h]

@[simp] theorem setProc_eta (i : Fin nproc) : s.setProc i (s.proc i) = s := by
  simp [setProc]

@[simp] theorem setTable_freelist (r : Nat) (pt : PageTable) :
    (s.setTable r pt).freelist = s.freelist := rfl
@[simp] theorem setTable_mem (r : Nat) (pt : PageTable) : (s.setTable r pt).mem = s.mem := rfl
@[simp] theorem setTable_proc (r : Nat) (pt : PageTable) : (s.setTable r pt).proc = s.proc := rfl
@[simp] theorem setTable_cur (r : Nat) (pt : PageTable) : (s.setTable r pt).cur = s.cur := rfl

@[simp] theorem setPte_freelist (r v : Nat) (x : Pte) :
    (s.setPte r v x).freelist = s.freelist := rfl
@[simp] theorem setPte_mem (r v : Nat) (x : Pte) : (s.setPte r v x).mem = s.mem := rfl
@[simp] theorem setPte_proc (r v : Nat) (x : Pte) : (s.setPte r v x).proc = s.proc := rfl
@[simp] theorem setPte_cur (r v : Nat) (x : Pte) : (s.setPte r v x).cur = s.cur := rfl

@[simp] theorem setProc_freelist (i : Fin nproc) (p : Proc) :
    (s.setProc i p).freelist = s.freelist := rfl
@[simp] theorem setProc_mem (i : Fin nproc) (p : Proc) : (s.setProc i p).mem = s.mem := rfl
@[simp] theorem setProc_ptables (i : Fin nproc) (p : Proc) :
    (s.setProc i p).ptables = s.ptables := rfl
@[simp] theorem setProc_cur (i : Fin nproc) (p : Proc) : (s.setProc i p).cur = s.cur := rfl

@[simp] theorem setPage_freelist (pa : Nat) (pg : Page) :
    (s.setPage pa pg).freelist = s.freelist := rfl
@[simp] theorem setPage_ptables (pa : Nat) (pg : Page) :
    (s.setPage pa pg).ptables = s.ptables := rfl
@[simp] theorem setPage_proc (pa : Nat) (pg : Page) : (s.setPage pa pg).proc = s.proc := rfl
@[simp] theorem setPage_cur (pa : Nat) (pg : Page) : (s.setPage pa pg).cur = s.cur := rfl
@[simp] theorem setPage_mem (pa : Nat) (pg : Page) :
    (s.setPage pa pg).mem = Function.update s.mem pa pg := rfl

end Kernel

end Xv6Paging
