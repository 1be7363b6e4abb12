import Mathlib.Algebra.Order.Ring.Int
import Mathlib.Data.List.Rotate
import Mathlib.Logic.Function.Basic

/-!
# Second chance on a queue

The textbook algorithm: look at the oldest entry; if its reference bit is clear it is the victim,
otherwise clear the bit, move the entry to the back and look again.  The bits belong to pages, the
queue holds slots; two slots may hold the same page and then share its bit.
-/

namespace SecondChance

variable {ι κ : Type} [DecidableEq κ] {page : ι → κ} {ref : κ → Bool} {q passed : List ι} {v : ι}

/-- On the queue `q`, oldest first, the algorithm passes over `passed` and picks `v`. -/
inductive Picks (page : ι → κ) : (κ → Bool) → List ι → ι → List ι → Prop
  | take {ref : κ → Bool} {h : ι} {q : List ι} (clear : ref (page h) = false) :
      Picks page ref (h :: q) h []
  | skip {ref : κ → Bool} {h v : ι} {q passed : List ι} (set : ref (page h) = true)
      (rest : Picks page (Function.update ref (page h) false) (q ++ [h]) v passed) :
      Picks page ref (h :: q) v (h :: passed)

namespace Picks

variable (h : Picks page ref q v passed)
include h

/-- **The algorithm is deterministic.** -/
theorem unique {v' : ι} {passed' : List ι}
    (h' : Picks page ref q v' passed') : v = v' ∧ passed = passed' := by
  induction h generalizing v' passed' with
  | take clear =>
    cases h' with
    | take _ => exact ⟨rfl, rfl⟩
    | skip set _ => rw [clear] at set; cases set
  | skip set rest ih =>
    cases h' with
    | take clear => rw [clear] at set; cases set
    | skip _ rest' =>
      obtain ⟨rfl, rfl⟩ := ih rest'
      exact ⟨rfl, rfl⟩

omit h in
theorem length_le {a b : List ι} {x : ι} (h : Picks page ref (a ++ x :: b) v passed)
    (hx : ref (page x) = false) : passed.length ≤ a.length := by
  -- by induction on the entries before it: each round moves one of them behind it
  induction a generalizing ref b passed with
  | nil =>
    cases h with
    | take _ => exact le_rfl
    | skip set _ => rw [hx] at set; cases set
  | cons y a ih =>
    rw [List.cons_append] at h
    cases h with
    | take _ => exact Nat.zero_le _
    | skip set rest =>
      rw [List.append_assoc] at rest
      have hx' : Function.update ref (page y) false (page x) = false := by
        rw [Function.update_apply]
        split
        · rfl
        · exact hx
      exact Nat.succ_le_succ (ih rest hx')

/-- **Every entry is passed over at most once**, from the front of the queue on. -/
theorem passed_eq : passed.length ≤ q.length ∧ passed = q.take passed.length := by
  induction h with
  | take _ => exact ⟨Nat.zero_le _, rfl⟩
  | @skip ref x v q passed set rest ih =>
    have hle : passed.length ≤ q.length := rest.length_le (Function.update_self _ _ _)
    refine ⟨Nat.succ_le_succ hle, ?_⟩
    have htake := ih.2
    rw [List.take_append_of_le_length hle] at htake
    rw [List.length_cons, List.take_succ_cons, ← htake]

theorem mem : v ∈ q := by
  induction h with
  | take _ => exact List.mem_cons_self
  | skip _ _ ih => exact (List.perm_append_singleton _ _).mem_iff.mp ih

omit h in
/-- The first entry whose bit is clear is picked, if no page is there twice. -/
theorem of_clear {pre post : List ι} (hset : ∀ x ∈ pre, ref (page x) = true)
    (hv : ref (page v) = false) (hnd : ((pre ++ v :: post).map page).Nodup) :
    Picks page ref (pre ++ v :: post) v pre := by
  induction pre generalizing ref post with
  | nil => exact .take hv
  | cons h pre ih =>
    rw [List.cons_append, List.map_cons, List.nodup_cons] at hnd
    rw [List.cons_append]
    refine .skip (hset h List.mem_cons_self) ?_
    have hne : ∀ x ∈ pre ++ v :: post, page x ≠ page h := by
      intro x hx heq
      exact hnd.1 (heq ▸ List.mem_map_of_mem hx)
    rw [List.append_assoc, List.cons_append]
    apply ih
    · intro x hx
      rw [Function.update_of_ne (hne x (List.mem_append_left _ hx))]
      exact hset x (List.mem_cons_of_mem _ hx)
    · rwa [Function.update_of_ne (hne v (List.mem_append_right _ List.mem_cons_self))]
    · rw [← List.cons_append, ← List.append_assoc, List.map_append, List.map_singleton,
        List.nodup_append_comm, List.singleton_append, List.nodup_cons]
      exact hnd

omit h in
/-- If all bits are set, all entries are passed over and the oldest is picked. -/
theorem of_set {t : List ι} (hset : ∀ x ∈ v :: t, ref (page x) = true)
    (hnd : ((v :: t).map page).Nodup) : Picks page ref (v :: t) v (v :: t) := by
  refine .skip (hset v List.mem_cons_self) ?_
  rw [List.map_cons, List.nodup_cons] at hnd
  apply of_clear
  · intro x hx
    have hne : page x ≠ page v := fun heq => hnd.1 (heq ▸ List.mem_map_of_mem hx)
    rw [Function.update_of_ne hne]
    exact hset x (List.mem_cons_of_mem _ hx)
  · exact Function.update_self _ _ _
  · rw [List.map_append, List.map_singleton, List.nodup_append_comm, List.singleton_append,
      List.nodup_cons]
    exact hnd

/-- **What the algorithm picks**, if no page is in the queue twice: the first entry whose bit is
clear, passing over those before it; or the oldest, passing over all, if all bits are set. -/
theorem closed_form (hnd : (q.map page).Nodup) :
    (∃ post, q = passed ++ v :: post ∧ (∀ x ∈ passed, ref (page x) = true) ∧ ref (page v) = false) ∨
    (q.head? = some v ∧ passed = q ∧ ∀ x ∈ q, ref (page x) = true) := by
  by_cases hall : ∀ x ∈ q, ref (page x) = true
  · cases q with
    | nil => exact absurd h.mem List.not_mem_nil
    | cons y t =>
      obtain ⟨rfl, rfl⟩ := h.unique (of_set hall hnd)
      exact .inr ⟨rfl, rfl, hall⟩
  · -- the queue splits at the first clear bit
    push Not at hall
    obtain ⟨x, hx, hclear⟩ := hall
    obtain ⟨pre, y, post, rfl, hy, hpre⟩ : ∃ pre y post, q = pre ++ y :: post ∧
        ref (page y) = false ∧ ∀ x ∈ pre, ref (page x) = true := by
      have hfind : (q.find? fun x => !ref (page x)).isSome := by
        rw [List.find?_isSome]
        exact ⟨x, hx, by simpa using hclear⟩
      obtain ⟨y, hy⟩ := Option.isSome_iff_exists.mp hfind
      obtain ⟨hclear', pre, post, hq, hpre⟩ := List.find?_eq_some_iff_append.mp hy
      exact ⟨pre, y, post, hq, by simpa using hclear', fun x hx => by simpa using hpre x hx⟩
    obtain ⟨rfl, rfl⟩ := h.unique (of_clear hpre hy hnd)
    exact .inl ⟨post, rfl, hpre, hy⟩

end Picks

end SecondChance
