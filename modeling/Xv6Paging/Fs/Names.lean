import Mathlib.Data.List.Basic
import Xv6Paging.Logic.CString

/-!
# The names in a path

A directory entry has room for 14 characters of a name, and a name of 14 characters has no NUL
there. `skipelem` takes the first element off a path and cuts it to this length.
-/

namespace Xv6Paging.Names

open CString

abbrev dirsiz : Nat := 14

def namecmp (s t : List UInt8) : Int := strncmp s t dirsiz

/-- The name that the kernel sees. -/
def key (s : List UInt8) : List UInt8 := upto dirsiz s

theorem namecmp_eq_zero {s t : List UInt8} : namecmp s t = 0 ↔ key s = key t := strncmp_eq_zero

/-- `*path == '/'`. -/
def isSlash (c : UInt8) : Bool := c = '/'.toUInt8

/-- `*path != '/' && *path != 0`. -/
def inElem (c : UInt8) : Bool := c ≠ '/'.toUInt8 ∧ c ≠ 0

/-- `skipelem`: the path after the first element, and the array `name` with the element, or nothing
if there is no element. -/
def skipelem (path name : List UInt8) : Option (List UInt8 × List UInt8) :=
  let s := path.dropWhile isSlash
  if char s 0 = 0 then none
  else
    let path := s.dropWhile inElem
    let len := s.length - path.length
    let name :=
      if len ≥ dirsiz then s.take dirsiz
      else s.take len ++ 0 :: name.drop (len + 1)
    some (path.dropWhile isSlash, name)

/-- The parts of a path between slashes. -/
def components (path : List UInt8) : List (List UInt8) :=
  (path.splitOn '/'.toUInt8).filter (· ≠ [])

section Components

variable {path s e r name : List UInt8}

theorem components_slash (s : List UInt8) : components ('/'.toUInt8 :: s) = components s := by
  rw [components, List.splitOn, List.splitOnP_cons_eq_if_modifyHead, if_pos (by simp),
    List.filter_cons_of_neg (by simp)]
  rfl

theorem components_dropWhile (path : List UInt8) :
    components (path.dropWhile isSlash) = components path := by
  induction path with
  | nil => rfl
  | cons c path ih =>
    by_cases hc : c = '/'.toUInt8
    · rw [List.dropWhile_cons_of_pos (by simpa [isSlash] using hc), ih, hc, components_slash]
    · rw [List.dropWhile_cons_of_neg (by simpa [isSlash] using hc)]

theorem splitOn_append_slash (he : '/'.toUInt8 ∉ e) :
    (e ++ '/'.toUInt8 :: r).splitOn '/'.toUInt8 = e :: r.splitOn '/'.toUInt8 := by
  induction e with
  | nil =>
    rw [List.nil_append, List.splitOn, List.splitOnP_cons_eq_if_modifyHead, if_pos (by simp)]
    rfl
  | cons c e ih =>
    rw [List.mem_cons, not_or] at he
    have hrest := ih he.2
    rw [List.splitOn] at hrest ⊢
    rw [List.cons_append, List.splitOnP_cons_eq_if_modifyHead, if_neg (by simp [Ne.symm he.1]),
      hrest]
    rfl

theorem components_append (hne : e ≠ []) (he : '/'.toUInt8 ∉ e)
    (hr : r = [] ∨ char r 0 = '/'.toUInt8) : components (e ++ r) = e :: components r := by
  cases r with
  | nil =>
    rw [List.append_nil, components, List.splitOn_eq_singleton he,
      List.filter_cons_of_pos (by simpa using hne)]
    rfl
  | cons c r =>
    rcases hr with hr | rfl
    · cases hr
    · rw [components_slash, components, splitOn_append_slash he,
        List.filter_cons_of_pos (by simpa using hne)]
      rfl

theorem elem_cases (hs : 0 ∉ s) (hslash : char s 0 ≠ '/'.toUInt8) : s = [] ∨
    ∃ e r, s = e ++ r ∧ e ≠ [] ∧ '/'.toUInt8 ∉ e ∧ (r = [] ∨ char r 0 = '/'.toUInt8) ∧
      s.dropWhile inElem = r := by
  by_cases hnil : s = []
  · exact .inl hnil
  refine .inr ⟨s.takeWhile inElem, s.dropWhile inElem, (List.takeWhile_append_dropWhile ..).symm,
    ?_, fun hmem => ?_, ?_, rfl⟩
  · cases s with
    | nil => exact absurd rfl hnil
    | cons c s =>
      have hc : inElem c = true := by
        rw [List.mem_cons, not_or] at hs
        exact decide_eq_true ⟨hslash, Ne.symm hs.1⟩
      rw [List.takeWhile_cons_of_pos hc]
      exact List.cons_ne_nil _ _
  · have := List.mem_takeWhile_imp hmem
    simp [inElem] at this
  · cases hr : s.dropWhile inElem with
    | nil => exact .inl rfl
    | cons c r =>
      have hstop := List.head_dropWhile_not inElem (l := s) (by rw [hr]; exact List.cons_ne_nil c r)
      have hc0 : c ≠ 0 := by
        rintro rfl
        have hmem : (0 : UInt8) ∈ s.dropWhile inElem := hr ▸ List.mem_cons_self
        exact hs (List.dropWhile_subset _ hmem)
      simp only [hr, List.head_cons, inElem, decide_eq_false_iff_not, not_and, not_not] at hstop
      by_contra hc
      exact hc0 (hstop fun h => hc (.inr h))

theorem not_slash_dropWhile (path : List UInt8) :
    char (path.dropWhile isSlash) 0 ≠ '/'.toUInt8 := by
  cases hs : path.dropWhile isSlash with
  | nil => decide
  | cons c s =>
    have := List.head_dropWhile_not isSlash (l := path) (by rw [hs]; exact List.cons_ne_nil c s)
    simpa [hs, isSlash] using this

theorem key_copied (he : 0 ∉ e) (r name : List UInt8) :
    key (if e.length ≥ dirsiz then (e ++ r).take dirsiz else e ++ 0 :: name.drop (e.length + 1)) =
      e.take dirsiz := by
  split
  · rename_i hlen
    rw [List.take_append_of_le_length hlen, key, upto_of_nonzero, List.take_take, min_self]
    exact fun h => he (List.mem_of_mem_take h)
  · rename_i hlen
    rw [key, upto_append_nul he (Nat.lt_of_not_le hlen), List.take_of_length_le (by omega)]

/-- **`skipelem`** takes off the first component, cut to 14 characters, and leaves the others. -/
theorem skipelem_cases (hpath : 0 ∉ path) (name : List UInt8) :
    (skipelem path name = none ∧ components path = []) ∨
      ∃ e path' name', skipelem path name = some (path', name') ∧
        components path = e :: components path' ∧ key name' = e.take dirsiz ∧ 0 ∉ path' ∧
        (components path' = [] ↔ path' = []) ∧ path'.length < path.length := by
  rw [← components_dropWhile path]
  have hlen := (List.dropWhile_sublist (l := path) isSlash).length_le
  have hs : 0 ∉ path.dropWhile isSlash := fun h => hpath (List.dropWhile_subset _ h)
  unfold skipelem
  dsimp only
  rcases elem_cases hs (not_slash_dropWhile path) with hnil | ⟨e, r, hsplit, hne, he, hr, hdrop⟩
  · rw [hnil, char_nil, if_pos rfl]
    exact .inl ⟨rfl, rfl⟩
  · right
    rw [hdrop, hsplit]
    rw [hsplit] at hs hlen
    rw [List.length_append] at hlen
    have he0 : 0 ∉ e := fun h => hs (List.mem_append_left r h)
    have hpos := List.length_pos_iff.mpr hne
    have hfirst : char (e ++ r) 0 ≠ 0 := by
      cases e with
      | nil => exact absurd rfl hne
      | cons c e => exact fun h => he0 (h ▸ List.mem_cons_self)
    rw [if_neg hfirst, List.length_append, Nat.add_sub_cancel, List.take_left]
    have hr0 : 0 ∉ r.dropWhile isSlash := fun h =>
      hs (List.mem_append_right e (List.dropWhile_subset _ h))
    refine ⟨e, r.dropWhile isSlash, _, rfl, ?_, key_copied he0 r name, hr0, ?_, ?_⟩
    · rw [components_append hne he hr, components_dropWhile]
    · rcases elem_cases hr0 (not_slash_dropWhile r) with hend | ⟨e', r', hsplit', hne', he', hr', _⟩
      · rw [hend]
        exact ⟨fun _ => rfl, fun _ => rfl⟩
      · rw [hsplit', components_append hne' he' hr']
        simp [hne']
    · have := (List.dropWhile_sublist (l := r) isSlash).length_le
      omega

end Components

/-! ## All elements -/

theorem length_skipelem {path name path' name' : List UInt8}
    (h : skipelem path name = some (path', name')) : path'.length < path.length := by
  unfold skipelem at h
  dsimp only at h
  split at h
  · cases h
  · rename_i hend
    have hrest := (Prod.mk.inj (Option.some.inj h)).1
    have hfront := (List.dropWhile_sublist (l := path) isSlash).length_le
    have hback := (List.dropWhile_sublist (l := (path.dropWhile isSlash).dropWhile inElem)
      isSlash).length_le
    rw [hrest] at hback
    have hslash := not_slash_dropWhile path
    cases hs : path.dropWhile isSlash with
    | nil =>
      rw [hs] at hend
      exact absurd rfl hend
    | cons c s =>
      rw [hs] at hend hslash hback hfront
      -- the first character of the element is skipped
      have hc : inElem c = true := decide_eq_true ⟨hslash, hend⟩
      rw [List.dropWhile_cons_of_pos hc] at hback
      have helem := (List.dropWhile_sublist (l := s) inElem).length_le
      rw [List.length_cons] at hfront
      omega

/-- The elements that repeated calls of `skipelem` yield; `name` is the array before the first
call. -/
def elems (path name : List UInt8) : List (List UInt8) :=
  match _h : skipelem path name with
  | none => []
  | some (path', name') => key name' :: elems path' name'
termination_by path.length
decreasing_by exact length_skipelem _h

/-- **Repeated calls of `skipelem`** yield the components of the path, each cut to 14 characters. -/
theorem elems_eq {path : List UInt8} (hpath : 0 ∉ path) (name : List UInt8) :
    elems path name = (components path).map (List.take dirsiz) := by
  induction hlen : path.length using Nat.strong_induction_on generalizing path name with
  | _ len ih =>
    subst hlen
    rw [elems]
    rcases skipelem_cases hpath name with
      ⟨hnone, hcomp⟩ | ⟨e, path', name', hsome, hcomp, hkey, h0, -, hlt⟩
    · rw [hcomp]
      split
      · rfl
      · rename_i heq
        rw [hnone] at heq
        cases heq
    · rw [hcomp, List.map_cons]
      split
      · rename_i heq
        rw [hsome] at heq
        cases heq
      · rename_i heq
        rw [hsome] at heq
        obtain ⟨rfl, rfl⟩ := Prod.mk.inj (Option.some.inj heq)
        rw [hkey, ih _ hlt h0 _ rfl]

end Xv6Paging.Names
