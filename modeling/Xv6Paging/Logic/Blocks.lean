import Mathlib.Algebra.Order.Ring.Int
import Mathlib.Data.Set.Basic

/-!
# Blocks of memory

The blocks of an allocator start at the addresses of a set `A` and have the lengths `len`.  They lie
in the memory `M` and do not overlap.
-/

namespace Blocks

/-- The blocks at the addresses of `A` lie in the memory `M` and do not overlap. -/
structure Tiled (A : Set Nat) (len : Nat → Nat) (M : Set Nat) : Prop where
  pos : ∀ a ∈ A, 0 < len a
  inside : ∀ a ∈ A, ∀ i, a ≤ i → i < a + len a → i ∈ M
  apart : ∀ a ∈ A, ∀ b ∈ A, a ≠ b → a + len a ≤ b ∨ b + len b ≤ a

namespace Tiled

variable {A A' : Set Nat} {len len' : Nat → Nat} {M M' : Set Nat} {a b : Nat}

variable (h : Tiled A len M)
include h

theorem mono (hA : ∀ c ∈ A', c ∈ A ∧ 0 < len' c ∧ len' c ≤ len c)
    (hM : M ⊆ M') : Tiled A' len' M' where
  pos c hc := (hA c hc).2.1
  inside c hc i hlo hhi := by
    obtain ⟨hcA, -, hle⟩ := hA c hc
    exact hM (h.inside c hcA i hlo (by omega))
  apart c hc d hd hne := by
    obtain ⟨hcA, -, hcle⟩ := hA c hc
    obtain ⟨hdA, -, hdle⟩ := hA d hd
    have := h.apart c hcA d hdA hne
    omega

theorem not_mem (ha : a ∈ A) (hlo : a < b) (hhi : b < a + len a) : b ∉ A := by
  intro hb
  have := h.pos b hb
  have := h.apart a ha b hb (by omega)
  omega

/-- **A new block** behind all memory. -/
theorem insert (hpos : 0 < len b) (hM : ∀ i ∈ M, i < b)
    (hnew : ∀ i, b ≤ i → i < b + len b → i ∈ M') (hMM : M ⊆ M') :
    Tiled (Insert.insert b A) len M' := by
  have hlast : ∀ a ∈ A, a + len a ≤ b := by
    intro a ha
    have hlen := h.pos a ha
    have := hM _ (h.inside a ha (a + len a - 1) (by omega) (by omega))
    omega
  refine ⟨?_, ?_, ?_⟩
  · rintro c (rfl | hc)
    · exact hpos
    · exact h.pos c hc
  · rintro c (rfl | hc) i hlo hhi
    · exact hnew i hlo hhi
    · exact hMM (h.inside c hc i hlo hhi)
  · rintro c (rfl | hc) d (rfl | hd) hne
    · exact absurd rfl hne
    · exact .inr (hlast d hd)
    · exact .inl (hlast c hc)
    · exact h.apart c hc d hd hne

/-- **Neighbours are joined**: the block at `a` now reaches over the one at `b`. -/
theorem join (ha : a ∈ A) (hb : b ∈ A) (hab : a + len a = b)
    (hA : ∀ c ∈ A', c ∈ A ∧ c ≠ b) (hpos : 0 < len' a) (hle : len' a ≤ len a + len b)
    (hlen : ∀ c, c ≠ a → len' c = len c) : Tiled A' len' M := by
  refine ⟨fun c hc => ?_, fun c hc i hlo hhi => ?_, ?_⟩
  · by_cases hca : c = a
    · rw [hca]
      exact hpos
    · rw [hlen c hca]
      exact h.pos c (hA c hc).1
  · by_cases hca : c = a
    · subst hca
      by_cases hi : i < c + len c
      · exact h.inside c ha i hlo hi
      · exact h.inside b hb i (by omega) (by omega)
    · rw [hlen c hca] at hhi
      exact h.inside c (hA c hc).1 i hlo hhi
  · -- a third block is apart from both
    have hthird : ∀ c ∈ A', c ≠ a → a + len' a ≤ c ∨ c + len' c ≤ a := by
      intro c hc hca
      obtain ⟨hcA, hcb⟩ := hA c hc
      rw [hlen c hca]
      have h1 := h.apart a ha c hcA (Ne.symm hca)
      have h2 := h.apart b hb c hcA (Ne.symm hcb)
      have h3 := h.pos c hcA
      omega
    intro c hc d hd hne
    by_cases hca : c = a
    · subst hca
      exact hthird d hd (Ne.symm hne)
    · by_cases hda : d = a
      · subst hda
        exact (hthird c hc hca).symm
      · rw [hlen c hca, hlen d hda]
        exact h.apart c (hA c hc).1 d (hA d hd).1 hne

/-- **A block is split**: its end becomes the block at `b`. -/
theorem split (ha : a ∈ A) (hab : a + len' a = b) (hpos : 0 < len' a)
    (hposb : 0 < len' b) (hle : len' a + len' b ≤ len a)
    (hlen : ∀ c, c ≠ a → c ≠ b → len' c = len c) : Tiled (Insert.insert b A) len' M := by
  have hb : b ∉ A := h.not_mem ha (by omega) (by omega)
  have hkeep : ∀ c ∈ A, c ≠ a → len' c = len c := by
    intro c hc hca
    exact hlen c hca fun hcb => hb (hcb ▸ hc)
  have hold : Tiled A len' M := by
    refine h.mono (fun c hc => ⟨hc, ?_⟩) subset_rfl
    by_cases hca : c = a
    · subst hca
      exact ⟨hpos, by omega⟩
    · rw [hkeep c hc hca]
      exact ⟨h.pos c hc, le_rfl⟩
  have hthird : ∀ c ∈ A, c + len' c ≤ b ∨ b + len' b ≤ c := by
    intro c hc
    by_cases hca : c = a
    · subst hca
      exact .inl (by omega)
    · rw [hkeep c hc hca]
      have h1 := h.apart a ha c hc (Ne.symm hca)
      omega
  refine ⟨?_, ?_, ?_⟩
  · rintro c (rfl | hc)
    · exact hposb
    · exact hold.pos c hc
  · rintro c (rfl | hc) i hlo hhi
    · exact h.inside a ha i (by omega) (by omega)
    · exact hold.inside c hc i hlo hhi
  · rintro c (rfl | hc) d (rfl | hd) hne
    · exact absurd rfl hne
    · exact (hthird d hd).symm
    · exact hthird c hc
    · exact hold.apart c hc d hd hne

end Tiled

end Blocks
