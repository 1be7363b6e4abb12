import Mathlib.Data.List.Induction

/-!
# Radix trees that are read along paths

A node of a radix tree has at most one child for each digit.  `follow child a p` reads the digits
`p` from the node `a`.  The nodes are pointers, so nothing says by itself that two paths do not
meet: `Tree child d r` says that the paths of at most `d` digits from `r` do not.  Hanging a fresh
node without children into a tree adds one path and changes no other.
-/

namespace Radix

variable {α ι : Type*}

/-- The node at the end of the path `p` from `a`. -/
def follow (child : α → ι → Option α) : α → List ι → Option α
  | a, [] => some a
  | a, i :: p => (child a i).bind fun b => follow child b p

/-- Different paths of at most `d` digits from `r` lead to different nodes. -/
def Tree (child : α → ι → Option α) (d : Nat) (r : α) : Prop :=
  ∀ ⦃p q : List ι⦄ ⦃a : α⦄, p.length ≤ d → q.length ≤ d →
    follow child r p = some a → follow child r q = some a → p = q

section Paths

variable {child child' : α → ι → Option α} {d : Nat} {r a b : α} {p q : List ι} {i : ι}

theorem follow_append :
    follow child a (p ++ q) = (follow child a p).bind fun b => follow child b q := by
  induction p generalizing a with
  | nil => rfl
  | cons j p ih => simp only [List.cons_append, follow, ih, Option.bind_assoc]

theorem follow_snoc : follow child a (p ++ [i]) = (follow child a p).bind fun b => child b i := by
  rw [follow_append]
  simp only [follow, Option.bind_fun_some]

/-- A property of the root and of every child holds of every node on a path. -/
theorem follow_prop {P : α → Prop} (ha : P a) (hc : ∀ b i c, child b i = some c → P c)
    (h : follow child a p = some b) : P b := by
  rcases List.eq_nil_or_concat p with rfl | ⟨p, i, rfl⟩
  · rwa [← Option.some.inj h]
  · rw [List.concat_eq_append, follow_snoc] at h
    obtain ⟨c, -, hb⟩ := Option.bind_eq_some_iff.mp h
    exact hc c i b hb

theorem follow_bare (h : ∀ i, child a i = none) (hp : follow child a p = some b) :
    p = [] ∧ b = a := by
  cases p with
  | nil => exact ⟨rfl, (Option.some.inj hp).symm⟩
  | cons i p =>
    rw [follow, h i] at hp
    cases hp

theorem tree_of_bare (h : ∀ i, child r i = none) : Tree child d r := by
  intro p q a _ _ hp hq
  rw [(follow_bare h hp).1, (follow_bare h hq).1]

/-- The paths of at most `d` digits depend on the children of the nodes less deep than `d`. -/
theorem follow_congr
    (h : ∀ p a, p.length < d → follow child r p = some a → ∀ i, child' a i = child a i)
    (hp : p.length ≤ d) : follow child' r p = follow child r p := by
  induction p using List.reverseRecOn with
  | nil => rfl
  | append_singleton p i ih =>
    rw [List.length_append, List.length_singleton] at hp
    rw [follow_snoc, follow_snoc, ih (Nat.le_of_succ_le hp)]
    cases ha : follow child r p with
    | none => rfl
    | some a => exact h p a hp ha i

theorem Tree.congr (ht : Tree child d r)
    (h : ∀ p a, p.length < d → follow child r p = some a → ∀ i, child' a i = child a i) :
    Tree child' d r := by
  intro p q a hp hq hpa hqa
  rw [follow_congr h hp] at hpa
  rw [follow_congr h hq] at hqa
  exact ht hp hq hpa hqa

end Paths

/-! ## Hanging a node -/

/-- The node `b`, which no path reached and which has no children, was hung below the digit `i` of
the node at the path `p`, where nothing hung; no other child of a node above the depth `d`
changed. -/
structure Hangs (child child' : α → ι → Option α) (d : Nat) (r : α) (p : List ι) (i : ι) (a b : α) :
    Prop where
  short : p.length < d
  at_path : follow child r p = some a
  vacant : child a i = none
  fresh : ∀ q, q.length ≤ d → follow child r q ≠ some b
  hung : child' a i = some b
  bare : ∀ j, child' b j = none
  others : ∀ q c j, q.length < d → follow child r q = some c → (c ≠ a ∨ j ≠ i) →
    child' c j = child c j

namespace Hangs

variable {child child' : α → ι → Option α} {d : Nat} {r a b : α} {p q : List ι} {i : ι}

variable (h : Hangs child child' d r p i a b)
include h

/-- **Hanging a fresh node** adds one path and changes no other. -/
theorem follow_eq (ht : Tree child d r) (hq : q.length ≤ d) :
    (q = p ++ [i] ∧ follow child' r q = some b ∧ follow child r q = none) ∨
      (q ≠ p ++ [i] ∧ follow child' r q = follow child r q) := by
  -- along the path from its end: the step before decides where the last digit is read
  induction q using List.reverseRecOn with
  | nil => exact Or.inr ⟨by simp, rfl⟩
  | append_singleton q j ih =>
    rw [List.length_append, List.length_singleton] at hq
    rw [follow_snoc, follow_snoc]
    rcases ih (Nat.le_of_succ_le hq) with ⟨rfl, hb, hn⟩ | ⟨hne, hsame⟩
    · -- below the fresh node there is nothing, and there was nothing before
      refine Or.inr ⟨fun heq => ?_, ?_⟩
      · have := congrArg List.length heq
        simp only [List.length_append, List.length_singleton] at this
        omega
      · rw [hb, hn]
        exact h.bare j
    · rw [hsame]
      cases hc : follow child r q with
      | none =>
        refine Or.inr ⟨fun heq => ?_, rfl⟩
        rw [(List.append_inj' heq rfl).1, h.at_path] at hc
        cases hc
      | some c =>
        by_cases hca : c = a ∧ j = i
        · obtain ⟨rfl, rfl⟩ := hca
          have hqp : q = p := ht (Nat.le_of_succ_le hq) (Nat.le_of_lt h.short) hc h.at_path
          subst hqp
          exact Or.inl ⟨rfl, h.hung, h.vacant⟩
        · refine Or.inr ⟨fun heq => hca ?_, h.others q c j hq hc (by tauto)⟩
          obtain ⟨hqp, hji⟩ := List.append_inj' heq rfl
          rw [hqp, h.at_path] at hc
          exact ⟨(Option.some.inj hc).symm, List.singleton_inj.mp hji⟩

theorem follow_of_some (ht : Tree child d r)
    (hq : q.length ≤ d) {c : α} (hc : follow child r q = some c) : follow child' r q = some c := by
  rcases h.follow_eq ht hq with ⟨-, -, hn⟩ | ⟨-, hsame⟩
  · rw [hn] at hc
    cases hc
  · rw [hsame, hc]

theorem tree (ht : Tree child d r) : Tree child' d r := by
  intro q q' c hq hq' hc hc'
  rcases h.follow_eq ht hq with ⟨rfl, hb, -⟩ | ⟨-, hsame⟩ <;>
    rcases h.follow_eq ht hq' with ⟨rfl, hb', -⟩ | ⟨-, hsame'⟩
  · rfl
  · rw [hb] at hc
    rw [hsame', ← hc] at hc'
    exact absurd hc' (h.fresh q' hq')
  · rw [hb'] at hc'
    rw [hsame, ← hc'] at hc
    exact absurd hc (h.fresh q hq)
  · rw [hsame] at hc
    rw [hsame'] at hc'
    exact ht hq hq' hc hc'

end Hangs

end Radix
