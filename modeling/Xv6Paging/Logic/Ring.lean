import Mathlib.Algebra.Order.Ring.Int
import Mathlib.Data.List.Basic
import Mathlib.Logic.Function.Basic

/-!
# Doubly linked rings

A ring of items through a head: `next` and `prev` map every node to its neighbours, where the node
`none` is the head and `some a` the item `a`.  `Links.Holds l` says that the ring consists of the
items of `l` in this order, read forwards along `next` and backwards along `prev`.
-/

namespace LinkedRing

open Function (update update_of_ne update_self)
open List (iterate mem_cons_of_mem mem_cons_self nodup_cons)

/-- The pointers of a ring; `none` is the head. -/
@[ext] structure Links (α : Type) where
  next : Option α → Option α
  prev : Option α → Option α

namespace Links

variable {α : Type}

/-- The ring read the other way round. -/
def flip (r : Links α) : Links α := ⟨r.prev, r.next⟩

/-- From the node `x` the items of `l` follow, and then the node `y`. -/
def Seg (r : Links α) : Option α → List α → Option α → Prop
  | x, [], y => r.next x = y ∧ r.prev y = x
  | x, a :: l, y => (r.next x = some a ∧ r.prev (some a) = x) ∧ r.Seg (some a) l y

/-- The ring consists of the items of `l`. -/
structure Holds (r : Links α) (l : List α) : Prop where
  seg : r.Seg none l none
  nodup : l.Nodup

section Seg

variable {r r' : Links α} {x y : Option α} {a : α} {l l₁ l₂ : List α}

theorem seg_append : r.Seg x (l₁ ++ a :: l₂) y ↔ r.Seg x l₁ (some a) ∧ r.Seg (some a) l₂ y := by
  induction l₁ generalizing x with
  | nil => simp only [List.nil_append, Seg]
  | cons b l₁ ih => simp only [List.cons_append, Seg, ih, and_assoc]

/-- A segment depends on the pointers between its nodes only. -/
theorem Seg.congr (h : r.Seg x l y)
    (hnext : ∀ z, z = x ∨ (∃ a ∈ l, z = some a) → r'.next z = r.next z)
    (hprev : ∀ z, z = y ∨ (∃ a ∈ l, z = some a) → r'.prev z = r.prev z) : r'.Seg x l y := by
  induction l generalizing x with
  | nil =>
    obtain ⟨h1, h2⟩ := h
    exact ⟨by rw [hnext x (.inl rfl), h1], by rw [hprev y (.inl rfl), h2]⟩
  | cons a l ih =>
    obtain ⟨⟨h1, h2⟩, h3⟩ := h
    refine ⟨⟨by rw [hnext x (.inl rfl), h1], ?_⟩, ih h3 ?_ ?_⟩
    · rw [hprev (some a) (.inr ⟨a, mem_cons_self, rfl⟩), h2]
    · rintro z (rfl | ⟨b, hb, rfl⟩)
      · exact hnext _ (.inr ⟨a, mem_cons_self, rfl⟩)
      · exact hnext _ (.inr ⟨b, mem_cons_of_mem a hb, rfl⟩)
    · rintro z (rfl | ⟨b, hb, rfl⟩)
      · exact hprev _ (.inl rfl)
      · exact hprev _ (.inr ⟨b, mem_cons_of_mem a hb, rfl⟩)

theorem Seg.flip (h : r.Seg x l y) : r.flip.Seg y l.reverse x := by
  induction l generalizing x with
  | nil => exact ⟨h.2, h.1⟩
  | cons a l ih =>
    obtain ⟨⟨h1, h2⟩, h3⟩ := h
    rw [List.reverse_cons]
    exact seg_append.mpr ⟨ih h3, h2, h1⟩

theorem Seg.next_eq (h : r.Seg x l y) : r.next x = (l.head?.map some).getD y := by
  cases l with
  | nil => exact h.1
  | cons a l => exact h.1.1

theorem Seg.prev_eq (h : r.Seg x l y) : r.prev y = (l.getLast?.map some).getD x := by
  have hflip := h.flip.next_eq
  rw [List.head?_reverse] at hflip
  exact hflip

/-- The node before `a` and the node after it are made neighbours. -/
theorem Seg.join (h₁ : r.Seg x l₁ (some a)) (h₂ : r.Seg (some a) l₂ y)
    (hx : ∀ b ∈ l₁ ++ l₂, x ≠ some b) (hy : ∀ b ∈ l₁ ++ l₂, y ≠ some b) (hnd : (l₁ ++ l₂).Nodup)
    (hn : r'.next (r.prev (some a)) = r.next (some a))
    (hp : r'.prev (r.next (some a)) = r.prev (some a))
    (hnext : ∀ z, z ≠ r.prev (some a) → r'.next z = r.next z)
    (hprev : ∀ z, z ≠ r.next (some a) → r'.prev z = r.prev z) : r'.Seg x (l₁ ++ l₂) y := by
  induction l₁ generalizing x with
  | nil =>
    -- `x` is the node before `a`
    obtain ⟨-, hpx⟩ := h₁
    rw [hpx] at hn hp hnext
    cases l₂ with
    | nil =>
      rw [h₂.1] at hn hp
      exact ⟨hn, hp⟩
    | cons c l₂ =>
      obtain ⟨⟨hac, -⟩, hrest⟩ := h₂
      rw [hac] at hn hp hprev
      rw [List.nil_append, nodup_cons] at hnd
      refine ⟨⟨hn, hp⟩, hrest.congr ?_ ?_⟩
      · rintro z (rfl | ⟨b, hb, rfl⟩)
        · exact hnext _ (hx c mem_cons_self).symm
        · exact hnext _ (hx b (mem_cons_of_mem c hb)).symm
      · rintro z (rfl | ⟨b, hb, rfl⟩)
        · exact hprev _ (hy c mem_cons_self)
        · refine hprev _ fun h => hnd.1 ?_
          rwa [← Option.some.inj h]
  | cons b l₁ ih =>
    obtain ⟨⟨hxb, hbx⟩, hrest⟩ := h₁
    rw [List.cons_append, nodup_cons] at hnd
    have hb : ∀ c ∈ l₁ ++ l₂, some b ≠ some c := by
      rintro c hc h
      exact hnd.1 (Option.some.inj h ▸ hc)
    refine ⟨⟨?_, ?_⟩, ih hrest hb (fun c hc => hy c (mem_cons_of_mem b hc)) hnd.2⟩
    · -- the node before `a` is `b` or comes later
      rw [hnext x, hxb]
      rw [hrest.prev_eq]
      cases hlast : l₁.getLast? with
      | none => exact hx b mem_cons_self
      | some c =>
        have hc : c ∈ l₁ := List.mem_of_getLast? hlast
        exact hx c (mem_cons_of_mem b (List.mem_append_left l₂ hc))
    · rw [hprev (some b), hbx]
      rw [h₂.next_eq]
      cases hhead : l₂.head? with
      | none => exact (hy b mem_cons_self).symm
      | some c =>
        have hc : c ∈ l₂ := List.mem_of_head? hhead
        exact hb c (List.mem_append_right l₁ hc)

end Seg

/-! ## Taking an item out and putting it in front -/

section Update

variable [DecidableEq α] {r : Links α} {x y : Option α} {a : α} {l l₁ l₂ : List α}

/-- `a->next->prev = a->prev; a->prev->next = a->next`. -/
def unlink (r : Links α) (a : α) : Links α :=
  let r := { r with prev := update r.prev (r.next (some a)) (r.prev (some a)) }
  { r with next := update r.next (r.prev (some a)) (r.next (some a)) }

/-- `a->next = head.next; a->prev = &head; head.next->prev = a; head.next = a`. -/
def pushFront (r : Links α) (a : α) : Links α :=
  let r := { r with next := update r.next (some a) (r.next none) }
  let r := { r with prev := update r.prev (some a) none }
  let r := { r with prev := update r.prev (r.next none) (some a) }
  { r with next := update r.next none (some a) }

theorem unlink_eq (h : r.next (some a) ≠ some a) :
    r.unlink a = ⟨update r.next (r.prev (some a)) (r.next (some a)),
      update r.prev (r.next (some a)) (r.prev (some a))⟩ := by
  unfold unlink
  simp only [update_of_ne h.symm]

/-- **Taking out an item** leaves the others in their order. -/
theorem Holds.unlink (h : r.Holds (l₁ ++ a :: l₂)) : (r.unlink a).Holds (l₁ ++ l₂) := by
  obtain ⟨hseg, hnd⟩ := h
  obtain ⟨h₁, h₂⟩ := seg_append.mp hseg
  have hperm : (l₁ ++ a :: l₂).Perm (a :: (l₁ ++ l₂)) := List.perm_middle
  obtain ⟨ha, hnd'⟩ := List.nodup_cons.mp (hperm.nodup_iff.mp hnd)
  have hself : r.next (some a) ≠ some a := by
    rw [h₂.next_eq]
    cases hhead : l₂.head? with
    | none => simp
    | some c =>
      have hc : c ∈ l₂ := List.mem_of_head? hhead
      intro heq
      exact ha (List.mem_append_right l₁ (Option.some.inj heq ▸ hc))
  refine ⟨?_, hnd'⟩
  rw [unlink_eq hself]
  exact h₁.join h₂ (by simp) (by simp) hnd' (update_self _ _ _)
    (update_self _ _ _) (fun z hz => update_of_ne hz _ _)
    fun z hz => update_of_ne hz _ _

/-- **Putting an item in front.** -/
theorem Holds.pushFront (h : r.Holds l) (ha : a ∉ l) : (r.pushFront a).Holds (a :: l) := by
  obtain ⟨hseg, hnd⟩ := h
  have hfirst : r.next none ≠ some a := by
    rw [hseg.next_eq]
    cases hhead : l.head? with
    | none => simp
    | some c =>
      have hc : c ∈ l := List.mem_of_head? hhead
      intro heq
      exact ha (Option.some.inj heq ▸ hc)
  have hnone : (none : Option α) ≠ some a := by simp
  refine ⟨⟨⟨by simp [Links.pushFront], ?_⟩, ?_⟩, List.nodup_cons.mpr ⟨ha, hnd⟩⟩
  · simp only [Links.pushFront, update_of_ne hnone, update_of_ne hfirst.symm,
      update_self]
  · cases l with
    | nil =>
      have hhead : r.next none = none := hseg.1
      constructor
      · simp [Links.pushFront, hhead]
      · simp [Links.pushFront, hhead]
    | cons b l =>
      obtain ⟨⟨hb, -⟩, hrest⟩ := hseg
      rw [List.mem_cons, not_or] at ha
      have hne : ∀ c ∈ l, c ≠ a := fun c hc h => ha.2 (h ▸ hc)
      refine ⟨⟨?_, ?_⟩, hrest.congr ?_ ?_⟩
      · simp [Links.pushFront, hb]
      · simp [Links.pushFront, hb]
      · rintro z (rfl | ⟨c, hc, rfl⟩)
        · simp [Links.pushFront, Ne.symm ha.1]
        · simp [Links.pushFront, hne c hc]
      · rintro z (rfl | ⟨c, hc, rfl⟩)
        · simp [Links.pushFront, hb]
        · have hcb : c ≠ b := fun h => (List.nodup_cons.mp hnd).1 (h ▸ hc)
          simp [Links.pushFront, hb, hcb, hne c hc]

end Update

theorem Holds.pushAll [DecidableEq α] (as : List α) :
    ∀ {r : Links α} {l : List α}, r.Holds l → (as ++ l).Nodup →
      (as.foldl Links.pushFront r).Holds (as.reverse ++ l) := by
  induction as with
  | nil => exact fun h _ => h
  | cons a as ih =>
    intro r l h hnd
    rw [List.cons_append, nodup_cons, List.mem_append, not_or] at hnd
    have hperm : (as ++ a :: l).Nodup := by
      rw [List.perm_middle.nodup_iff, nodup_cons, List.mem_append, not_or]
      exact hnd
    rw [List.reverse_cons, List.append_assoc, List.singleton_append]
    exact ih (h.pushFront hnd.1.2) hperm

/-! ## Following the pointers -/

/-- `for(b = …; b != &head; b = step(b)) if(test b) …`: the first item that meets the test, if the
loop ends within the given number of rounds. -/
def scan (step : Option α → Option α) (test : α → Bool) : Nat → Option α → Option (Option α)
  | 0, _ => none
  | _ + 1, none => some none
  | n + 1, some a => if test a then some (some a) else scan step test n (step (some a))

section Scan

variable {r : Links α} {x : Option α} {l : List α} {n : Nat} {test : α → Bool}

theorem Seg.scan_next (h : r.Seg x l none) (hn : l.length < n) :
    scan r.next test n (r.next x) = some (l.find? test) := by
  induction l generalizing x n with
  | nil =>
    obtain ⟨n, rfl⟩ := Nat.exists_eq_add_one_of_ne_zero (Nat.ne_of_gt hn)
    rw [h.1]
    rfl
  | cons a l ih =>
    obtain ⟨n, rfl⟩ := Nat.exists_eq_add_one_of_ne_zero (Nat.ne_of_gt (Nat.zero_lt_of_lt hn))
    rw [h.1.1, scan, List.find?_cons]
    cases test a with
    | true => rfl
    | false => exact ih h.2 (Nat.lt_of_succ_lt_succ hn)

/-- **A scan along `next`** finds the first item of the list that meets the test. -/
theorem Holds.scan_next (h : r.Holds l) (hn : l.length < n) :
    scan r.next test n (r.next none) = some (l.find? test) :=
  h.seg.scan_next hn

/-- **A scan along `prev`** finds the last one. -/
theorem Holds.scan_prev (h : r.Holds l) (hn : l.length < n) :
    scan r.prev test n (r.prev none) = some (l.reverse.find? test) :=
  h.seg.flip.scan_next (by rwa [List.length_reverse])

theorem Seg.iterate_next (h : r.Seg x l none) :
    iterate r.next (r.next x) (l.length + 1) = l.map some ++ [none] := by
  induction l generalizing x with
  | nil =>
    rw [h.1]
    rfl
  | cons a l ih =>
    rw [h.1.1, List.length_cons, iterate, ih h.2]
    rfl

/-- **The ring read forwards.** -/
theorem Holds.iterate_next (h : r.Holds l) :
    iterate r.next (r.next none) (l.length + 1) = l.map some ++ [none] :=
  h.seg.iterate_next

/-- **The ring read backwards.** -/
theorem Holds.iterate_prev (h : r.Holds l) :
    iterate r.prev (r.prev none) (l.length + 1) = l.reverse.map some ++ [none] := by
  have hflip := h.seg.flip.iterate_next
  rw [List.length_reverse] at hflip
  exact hflip

end Scan

end Links

end LinkedRing
