import Mathlib.Order.Defs.LinearOrder
import Xv6Paging.Logic.Trail

/-!
# Rings in the order of their nodes

The nodes of a ring, read from the least one, are in increasing order; the only place where a node
points back is the wrap from the last one to the first.  Where a new node `b` belongs is found by
following the pointers from any node: a node before `b` that points beyond it, or the last node, if
`b` is outside of the ring's range.
-/

namespace Pointers

section Ring

variable {α : Type} {next next' : α → α} {b c q : α} {l l₁ l₂ : List α}

/-- The nodes point to each other in turn, and the last one to the first. -/
def Ring (next : α → α) : List α → Prop
  | [] => False
  | a :: l => Trail next a l a

theorem Ring.comm (h : Ring next (l₁ ++ l₂)) : Ring next (l₂ ++ l₁) := by
  rcases l₁ with _ | ⟨a, l₁⟩
  · rwa [List.append_nil]
  rcases l₂ with _ | ⟨c, l₂⟩
  · rwa [List.append_nil] at h
  · obtain ⟨h₁, h₂⟩ := trail_append.mp h
    exact trail_append.mpr ⟨h₂, h₁⟩

theorem Ring.congr (h : Ring next l) (hl : ∀ c ∈ l, next' c = next c) : Ring next' l := by
  rcases l with _ | ⟨a, l⟩
  · exact h
  · exact Trail.congr h hl

theorem Ring.closed (h : Ring next l) (hb : b ∈ l) : next b ∈ l := by
  rcases l with _ | ⟨a, l⟩
  · exact h.elim
  · exact Trail.closed h hb

theorem Trail.next_of_append (h : Trail next q l q) (hc : c :: l₁ = l ++ [q]) : next q = c := by
  rcases l with _ | ⟨d, l⟩
  · exact Eq.trans h (List.cons.inj hc).1.symm
  · exact h.1.trans (List.cons.inj hc).1.symm

/-- The nodes are in each set that the pointers do not leave. -/
theorem Ring.mem_of_closed {S : α → Prop} (h : Ring next l) (hS : ∀ a, S a → S (next a))
    (hb : b ∈ l) (hSb : S b) : ∀ c ∈ l, S c := by
  obtain ⟨l₁, l₂, rfl⟩ := List.append_of_mem hb
  have hpath : ∀ (r : List α) (a z : α), Trail next a r z → S a → ∀ c ∈ r, S c := by
    intro r
    induction r with
    | nil => simp
    | cons d r ih =>
      rintro a z ⟨rfl, hr⟩ ha c hc
      rcases List.mem_cons.mp hc with rfl | hc
      · exact hS a ha
      · exact ih (next a) z hr (hS a ha) c hc
  have hrot : Trail next b (l₂ ++ l₁) b := h.comm
  intro c hc
  rcases List.mem_append.mp hc with hc | hc
  · exact hpath _ b b hrot hSb c (List.mem_append_right _ hc)
  · rcases List.mem_cons.mp hc with rfl | hc
    · exact hSb
    · exact hpath _ b b hrot hSb c (List.mem_append_left _ hc)

theorem Ring.remove (h : Ring next (q :: c :: l)) (hq : next' q = next c)
    (hl : ∀ d ∈ l, next' d = next d) : Ring next' (q :: l) :=
  Trail.from_head h.2 hq hl

/-- **The node behind `q` is taken out**, wherever the ring is read from. -/
theorem Ring.exists_remove (h : Ring next l) (hnodup : l.Nodup) (hq : q ∈ l) (hne : next q ≠ q) :
    ∃ l₁ l₂, l = l₁ ++ next q :: l₂ ∧ q ∈ l₁ ++ l₂ ∧ ∀ next' : α → α, next' q = next (next q) →
      (∀ c ∈ l₁ ++ l₂, c ≠ q → next' c = next c) → Ring next' (l₁ ++ l₂) := by
  obtain ⟨m₁, m₂, rfl⟩ := List.append_of_mem hq
  have hrot : Ring next (q :: m₂ ++ m₁) := h.comm
  rcases m₂ with _ | ⟨c, m₂⟩
  · rcases m₁ with _ | ⟨c, m₁⟩
    · exact absurd hrot hne
    · -- `q` is the last node of the list
      have hc : next q = c := hrot.1
      rw [hc]
      refine ⟨[], m₁ ++ [q], rfl, by simp, fun next' hnext hsame => ?_⟩
      have hm : q ∉ m₁ := fun hmem =>
        (List.nodup_append.mp (List.nodup_cons.mp hnodup).2).2.2 q hmem q List.mem_cons_self rfl
      have hrot : Ring next (q :: c :: m₁) := hrot
      have hnew : Ring next' ([q] ++ m₁) := by
        refine hrot.remove hnext fun d hd => hsame d ?_ fun hdq => hm (hdq ▸ hd)
        rw [List.nil_append]
        exact List.mem_append_left _ hd
      exact hnew.comm
  · have hc : next q = c := hrot.1
    rw [hc]
    refine ⟨m₁ ++ [q], m₂, by simp, by simp, fun next' hnext hsame => ?_⟩
    obtain ⟨-, hn₂, hdisj⟩ := List.nodup_append.mp hnodup
    have hrot : Ring next (q :: c :: (m₂ ++ m₁)) := hrot
    have hnew : Ring next' (q :: m₂ ++ m₁) := by
      refine hrot.remove hnext fun d hd => hsame d ?_ ?_
      · simp only [List.mem_append] at hd ⊢
        tauto
      · rintro rfl
        rcases List.mem_append.mp hd with hd | hd
        · exact (List.nodup_cons.mp hn₂).1 (List.mem_cons_of_mem c hd)
        · exact hdisj d hd d List.mem_cons_self rfl
    have hlist := hnew.comm
    rwa [List.append_cons] at hlist

end Ring

section Order

variable {α : Type} [LinearOrder α] {next : α → α} {a b q z : α} {l : List α}

/-- The node `b` belongs behind `q`: between it and the next one, or behind the last one. -/
def Stops (next : α → α) (b q : α) : Prop :=
  q < b ∧ b < next q ∨ next q ≤ q ∧ (q < b ∨ b < next q)

/-- From a node before `b` on, a place for `b` is found at the wrap at the latest. -/
theorem Trail.exists_stops (h : Trail next a l z) (hz : ∀ c ∈ a :: l, z ≤ c) (hb : b ∉ l)
    (ha : a < b) : ∃ q ∈ a :: l, Stops next b q := by
  induction l generalizing a with
  | nil =>
    have hnext : next a = z := h
    exact ⟨a, List.mem_cons_self, .inr ⟨hnext ▸ hz a List.mem_cons_self, .inl ha⟩⟩
  | cons c l ih =>
    obtain ⟨hnext, hrest⟩ := h
    rw [List.mem_cons, not_or] at hb
    rcases lt_or_gt_of_ne hb.1 with hlt | hgt
    · exact ⟨a, List.mem_cons_self, .inl ⟨ha, hnext ▸ hlt⟩⟩
    · obtain ⟨q, hq, hstop⟩ := ih hrest (fun d hd => hz d (List.mem_cons_of_mem a hd)) hb.2 hgt
      exact ⟨q, List.mem_cons_of_mem a hq, hstop⟩

theorem Trail.exists_stops_least (h : Trail next a l z) (hz : ∀ c ∈ a :: l, z ≤ c) (hb : b < z) :
    ∃ q ∈ a :: l, Stops next b q := by
  induction l generalizing a with
  | nil =>
    have hnext : next a = z := h
    exact ⟨a, List.mem_cons_self, .inr ⟨hnext ▸ hz a List.mem_cons_self, .inr (hnext ▸ hb)⟩⟩
  | cons c l ih =>
    obtain ⟨q, hq, hstop⟩ := ih h.2 fun d hd => hz d (List.mem_cons_of_mem a hd)
    exact ⟨q, List.mem_cons_of_mem a hq, hstop⟩

/-- **There is a place for a new node.** -/
theorem Ring.exists_stops (h : Ring next l) (hs : l.Pairwise (· < ·)) (hb : b ∉ l) :
    ∃ q ∈ l, Stops next b q := by
  rcases l with _ | ⟨a, l⟩
  · exact h.elim
  have hmin : ∀ c ∈ a :: l, a ≤ c := by
    intro c hc
    rcases List.mem_cons.mp hc with rfl | hc
    · exact le_refl c
    · exact le_of_lt (List.rel_of_pairwise_cons hs hc)
  rw [List.mem_cons, not_or] at hb
  rcases lt_or_gt_of_ne hb.1 with hlt | hgt
  · exact Trail.exists_stops_least h hmin hlt
  · exact Trail.exists_stops h hmin hb.2 hgt

/-- **The place of a new node** `b`: the nodes `L` are less, the nodes `R` greater, and `q` is the
last one of the ring that is read from `R` on. -/
theorem Ring.split_of_stops (h : Ring next l) (hs : l.Pairwise (· < ·)) (hq : q ∈ l)
    (hstop : Stops next b q) : ∃ L R T, l = L ++ R ∧ (∀ c ∈ L, c < b) ∧ (∀ c ∈ R, b < c) ∧
      R ++ L = T ++ [q] := by
  obtain ⟨l₁, l₂, rfl⟩ := List.append_of_mem hq
  obtain ⟨hs₁, hs₂, hcross⟩ := List.pairwise_append.mp hs
  have hrot : Trail next q (l₂ ++ l₁) q := h.comm
  have hle : ∀ c ∈ l₁ ++ [q], c ≤ q := by
    intro c hc
    rcases List.mem_append.mp hc with hc | hc
    · exact le_of_lt (hcross c hc q List.mem_cons_self)
    · exact le_of_eq (List.mem_singleton.mp hc)
  rcases l₂ with _ | ⟨d, l₂⟩
  · -- the last node, which points to the first
    have hmin : ∀ c ∈ l₁ ++ [q], next q ≤ c := by
      rcases l₁ with _ | ⟨a, l₁⟩
      · have hnext : next q = q := hrot
        simp [hnext]
      · have hnext : next q = a := hrot.1
        intro c hc
        rcases List.mem_cons.mp hc with rfl | hc
        · exact le_of_eq hnext
        · rw [hnext]
          exact le_of_lt (List.rel_of_pairwise_cons hs hc)
    have hnextq := hmin q (List.mem_append_right _ List.mem_cons_self)
    rcases hstop with ⟨hlt, hgt⟩ | ⟨-, hlt | hgt⟩
    · exact absurd (hlt.trans hgt) (not_lt.mpr hnextq)
    · refine ⟨l₁ ++ [q], [], l₁, by simp, fun c hc => (hle c hc).trans_lt hlt, by simp, by simp⟩
    · exact ⟨[], l₁ ++ [q], l₁, by simp, by simp, fun c hc => hgt.trans_le (hmin c hc), by simp⟩
  · -- between two nodes
    have hnext : next q = d := hrot.1
    have hqd : q < d := List.rel_of_pairwise_cons hs₂ List.mem_cons_self
    rw [Stops, hnext] at hstop
    rcases hstop with ⟨hlt, hgt⟩ | ⟨hle', -⟩
    · refine ⟨l₁ ++ [q], d :: l₂, d :: l₂ ++ l₁, by simp, fun c hc => (hle c hc).trans_lt hlt, ?_,
        by simp⟩
      intro c hc
      rcases List.mem_cons.mp hc with rfl | hc
      · exact hgt
      · exact hgt.trans (List.rel_of_pairwise_cons (List.pairwise_cons.mp hs₂).2 hc)
    · exact absurd hqd (not_lt.mpr hle')

end Order

end Pointers
