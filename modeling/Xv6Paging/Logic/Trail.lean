import Mathlib.Algebra.Order.Ring.Int
import Mathlib.Data.List.Basic
import Mathlib.Logic.Function.Iterate

/-!
# Chains of pointers

A linked list is read along a function `next`.  `Trail next a l b` says that from `a` the nodes `l`
follow, and then `b`; a ring is a trail from a node to itself.
-/

namespace Pointers

variable {α : Type} {next next' : α → α} {a b c : α} {l l₁ l₂ : List α}

/-- From `a` the nodes `l` follow, and then `b`. -/
def Trail (next : α → α) : α → List α → α → Prop
  | a, [], b => next a = b
  | a, c :: l, b => next a = c ∧ Trail next c l b

theorem trail_append : Trail next a (l₁ ++ c :: l₂) b ↔ Trail next a l₁ c ∧ Trail next c l₂ b := by
  induction l₁ generalizing a with
  | nil => exact Iff.rfl
  | cons d l₁ ih => simp only [List.cons_append, Trail, ih, and_assoc]

/-- A trail depends on where its first node points to, and on the nodes between. -/
theorem Trail.from_head {a' : α} (h : Trail next a l b) (ha : next' a' = next a)
    (hl : ∀ c ∈ l, next' c = next c) : Trail next' a' l b := by
  induction l generalizing a a' with
  | nil => exact ha.trans h
  | cons c l ih =>
    refine ⟨ha.trans h.1, ih h.2 (hl c List.mem_cons_self) fun d hd => ?_⟩
    exact hl d (List.mem_cons_of_mem c hd)

theorem Trail.congr (h : Trail next a l b) (hl : ∀ c ∈ a :: l, next' c = next c) :
    Trail next' a l b :=
  h.from_head (hl a List.mem_cons_self) fun c hc => hl c (List.mem_cons_of_mem a hc)

theorem Trail.next_mem (h : Trail next a l b) : next a ∈ l ++ [b] := by
  cases l with
  | nil =>
    rw [show next a = b from h]
    exact List.mem_cons_self
  | cons c l =>
    rw [h.1]
    exact List.mem_cons_self

/-- **A ring can be read from each of its nodes.** -/
theorem Trail.rotate (h : Trail next a l a) (hb : b ∈ a :: l) :
    ∃ l', Trail next b l' b ∧ (b :: l').Perm (a :: l) := by
  rcases List.mem_cons.mp hb with rfl | hb
  · exact ⟨l, h, List.Perm.refl _⟩
  · obtain ⟨l₁, l₂, rfl⟩ := List.append_of_mem hb
    obtain ⟨h₁, h₂⟩ := trail_append.mp h
    refine ⟨l₂ ++ a :: l₁, trail_append.mpr ⟨h₂, h₁⟩, ?_⟩
    have hperm : (b :: l₂ ++ a :: l₁).Perm (a :: l₁ ++ b :: l₂) := List.perm_append_comm
    exact hperm

theorem Trail.closed (h : Trail next a l a) (hb : b ∈ a :: l) : next b ∈ a :: l := by
  obtain ⟨l', h', hperm⟩ := h.rotate hb
  have hmem := h'.next_mem
  rw [← hperm.mem_iff]
  rw [List.mem_append, List.mem_singleton] at hmem
  rcases hmem with hmem | hmem
  · exact List.mem_cons_of_mem b hmem
  · rw [hmem]
    exact List.mem_cons_self

theorem Trail.iterate_mem (h : Trail next a l a) (hb : b ∈ a :: l) (k : Nat) :
    next^[k] b ∈ a :: l := by
  induction k generalizing b with
  | zero => exact hb
  | succ k ih => exact ih (h.closed hb)

end Pointers
