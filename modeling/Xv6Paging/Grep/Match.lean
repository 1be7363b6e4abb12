import Mathlib.Computability.Language
import Xv6Paging.Logic.CString

/-!
# The regular expressions of grep

`match`, `matchhere` and `matchstar` walk over a pattern and a text with pointers.  A pointer into a
string is what is left of it, and the character at its end is the NUL.

A pattern is a list of items, a character or a repeated character, and it may ask for the end of the
text.  Its language is the product of the languages of its items.  Which characters are operators
depends on their place: `*` is one only after another character, `$` only as the last character,
`^` only as the first.
-/

namespace Xv6Paging.Grep

open CString Computability
open List (drop_one mem_cons tail_cons)

mutual

def matchhere (re text : List UInt8) : Bool :=
  if char re 0 = 0 then true
  else if char re 1 = '*'.toUInt8 then matchstar (char re 0) (re.drop 2) text
  else if char re 0 = '$'.toUInt8 ∧ char re 1 = 0 then char text 0 = 0
  else if char text 0 ≠ 0 ∧ (char re 0 = '.'.toUInt8 ∨ char re 0 = char text 0) then
    matchhere (re.drop 1) (text.drop 1)
  else false
termination_by (re.length, text.length, 0)
decreasing_by
  all_goals
    have hpos := length_pos_of_char (by assumption)
    apply Prod.Lex.left
    rw [List.length_drop]
    omega

def matchstar (c : UInt8) (re text : List UInt8) : Bool :=
  if matchhere re text then true
  else if char text 0 ≠ 0 ∧ (char text 0 = c ∨ c = '.'.toUInt8) then
    matchstar c re (text.drop 1)
  else false
termination_by (re.length, text.length, 1)
decreasing_by
  · apply Prod.Lex.right
    apply Prod.Lex.right
    exact Nat.zero_lt_one
  · rename_i htext
    have hpos := length_pos_of_char htext.1
    apply Prod.Lex.right
    apply Prod.Lex.left
    rw [List.length_drop]
    omega

end

/-- The loop of `match`. -/
def matchLoop (re : List UInt8) : List UInt8 → Bool
  | [] => matchhere re []
  | x :: text => if matchhere re (x :: text) then true else matchLoop re text

/-- `match`. -/
def matchRe (re text : List UInt8) : Bool :=
  if char re 0 = '^'.toUInt8 then matchhere (re.drop 1) text
  else matchLoop re text

/-! ## The language of a pattern -/

/-- A part of a pattern. -/
inductive Item
  /-- A character, or any character for `.`. -/
  | once (c : UInt8)
  /-- The character before a `*`. -/
  | many (c : UInt8)
deriving DecidableEq

/-- The parts of a pattern; a final `$` is none. -/
def items : List UInt8 → List Item
  | [] => []
  | [c] => if c = '$'.toUInt8 then [] else [.once c]
  | c :: d :: re => if d = '*'.toUInt8 then .many c :: items re else .once c :: items (d :: re)

/-- The pattern has a final `$`. -/
def atEnd : List UInt8 → Bool
  | [] => false
  | [c] => c = '$'.toUInt8
  | _ :: d :: re => if d = '*'.toUInt8 then atEnd re else atEnd (d :: re)

/-- The words of one character that `c` stands for. -/
def single (c : UInt8) : Language UInt8 := { w | ∃ x, w = [x] ∧ (c = '.'.toUInt8 ∨ c = x) }

/-- The words that an item stands for. -/
def Item.language : Item → Language UInt8
  | .once c => single c
  | .many c => (single c)∗

/-- The words that the parts of a pattern stand for, one after the other. -/
def language (re : List UInt8) : Language UInt8 := ((items re).map Item.language).prod

/-- The text begins with a word of `L`; if `e`, it is this word. -/
def Begins (L : Language UInt8) (e : Bool) (text : List UInt8) : Prop :=
  ∃ v w, text = v ++ w ∧ v ∈ L ∧ (e = true → w = [])

section Begins

variable {L : Language UInt8} {e : Bool} {text : List UInt8} {c : UInt8}

theorem begins_one : Begins 1 e text ↔ (e = true → text = []) := by
  constructor
  · rintro ⟨v, w, rfl, hv, hw⟩
    rw [Language.mem_one] at hv
    rw [hv]
    exact hw
  · intro h
    exact ⟨[], text, rfl, Language.nil_mem_one, h⟩

theorem begins_single_mul : Begins (single c * L) e text ↔
    ∃ x rest, text = x :: rest ∧ (c = '.'.toUInt8 ∨ c = x) ∧ Begins L e rest := by
  constructor
  · rintro ⟨v, w, rfl, hv, hw⟩
    obtain ⟨_, ⟨x, rfl, hx⟩, b, hb, rfl⟩ := Language.mem_mul.mp hv
    exact ⟨x, b ++ w, rfl, hx, b, w, rfl, hb, hw⟩
  · rintro ⟨x, _, rfl, hx, v, w, rfl, hv, hw⟩
    refine ⟨x :: v, w, rfl, ?_, hw⟩
    exact Language.mem_mul.mpr ⟨[x], ⟨x, rfl, hx⟩, v, hv, rfl⟩

theorem begins_add {L' : Language UInt8} :
    Begins (L + L') e text ↔ Begins L e text ∨ Begins L' e text := by
  constructor
  · rintro ⟨v, w, ht, hv | hv, hw⟩
    · exact .inl ⟨v, w, ht, hv, hw⟩
    · exact .inr ⟨v, w, ht, hv, hw⟩
  · rintro (⟨v, w, ht, hv, hw⟩ | ⟨v, w, ht, hv, hw⟩)
    · exact ⟨v, w, ht, .inl hv, hw⟩
    · exact ⟨v, w, ht, .inr hv, hw⟩

theorem begins_many_mul : Begins ((single c)∗ * L) e text ↔
    Begins L e text ∨ ∃ x rest, text = x :: rest ∧ (c = '.'.toUInt8 ∨ c = x) ∧
      Begins ((single c)∗ * L) e rest := by
  have hunfold : (single c)∗ * L = L + single c * ((single c)∗ * L) := by
    conv_lhs => rw [← Language.one_add_self_mul_kstar_eq_kstar, add_mul, one_mul, mul_assoc]
  rw [← begins_single_mul, ← begins_add, ← hunfold]

end Begins

/-! ## The matcher -/

section Matcher

variable {re text : List UInt8} {L : Language UInt8} {e : Bool} {c : UInt8}

theorem matchhere_nil : matchhere [] text = true := by
  rw [matchhere, char_nil, if_pos rfl]

theorem matchstar_nil : matchstar c re [] = matchhere re [] := by
  rw [matchstar]
  simp

theorem matchstar_cons {x : UInt8} (hx : x ≠ 0) : matchstar c re (x :: text) = true ↔
    matchhere re (x :: text) = true ∨ (c = '.'.toUInt8 ∨ c = x) ∧ matchstar c re text = true := by
  rw [matchstar, char_cons_zero, drop_one, tail_cons]
  by_cases hhere : matchhere re (x :: text) = true
  · simp [hhere]
  · rw [if_neg hhere]
    by_cases hc : c = '.'.toUInt8 ∨ c = x
    · rw [if_pos ⟨hx, hc.symm.imp_left Eq.symm⟩]
      simp [hhere, hc]
    · rw [if_neg fun h => hc (h.2.symm.imp_right Eq.symm)]
      simp [hhere, hc]

theorem matchstar_iff (hhere : ∀ text, 0 ∉ text → (matchhere re text = true ↔ Begins L e text))
    (htext : 0 ∉ text) : matchstar c re text = true ↔ Begins ((single c)∗ * L) e text := by
  induction text with
  | nil =>
    rw [matchstar_nil, hhere [] htext, begins_many_mul]
    simp
  | cons x text ih =>
    rw [mem_cons, not_or] at htext
    have hx : 0 ∉ x :: text := by simp [htext]
    have hmany : Begins ((single c)∗ * L) e (x :: text) ↔ _ := begins_many_mul
    rw [matchstar_cons (Ne.symm htext.1), ih htext.2, hhere _ hx, hmany]
    apply or_congr_right
    constructor
    · intro h
      exact ⟨x, text, rfl, h⟩
    · rintro ⟨_, _, ⟨⟩, h⟩
      exact h

theorem matchhere_once {r : UInt8} {rest : List UInt8} (hr : r ≠ 0)
    (hstar : char rest 0 ≠ '*'.toUInt8) (hdollar : ¬(r = '$'.toUInt8 ∧ char rest 0 = 0))
    (htext : 0 ∉ text) : matchhere (r :: rest) text = true ↔
      ∃ x t, text = x :: t ∧ (r = '.'.toUInt8 ∨ r = x) ∧ matchhere rest t = true := by
  rw [matchhere, char_cons_zero, char_cons_succ, if_neg hr, if_neg hstar, if_neg hdollar]
  cases text with
  | nil => simp
  | cons x t =>
    rw [mem_cons, not_or] at htext
    rw [char_cons_zero, drop_one, drop_one, tail_cons, tail_cons]
    by_cases hc : r = '.'.toUInt8 ∨ r = x
    · rw [if_pos ⟨Ne.symm htext.1, hc⟩]
      constructor
      · intro h
        exact ⟨x, t, rfl, hc, h⟩
      · rintro ⟨_, _, ⟨⟩, _, h⟩
        exact h
    · rw [if_neg fun h => hc h.2]
      refine ⟨fun h => absurd h Bool.false_ne_true, ?_⟩
      rintro ⟨_, _, ⟨⟩, h, _⟩
      exact absurd h hc

/-- **`matchhere`** finds the words of the pattern at the beginning of the text. -/
theorem matchhere_iff (hre : 0 ∉ re) (htext : 0 ∉ text) :
    matchhere re text = true ↔ Begins (language re) (atEnd re) text := by
  -- the cases are the places of the operators
  induction re using items.induct generalizing text with
  | case1 =>
    rw [matchhere_nil]
    simp [language, items, atEnd, begins_one]
  | case2 =>
    have hend : matchhere [ '$'.toUInt8] text = decide (char text 0 = 0) := by
      rw [matchhere]
      rfl
    have hlang : language [ '$'.toUInt8] = 1 := rfl
    have hat : atEnd [ '$'.toUInt8] = true := rfl
    rw [hend, hlang, hat, begins_one]
    cases text with
    | nil => simp
    | cons x t =>
      rw [mem_cons, not_or] at htext
      simp [Ne.symm htext.1]
  | case3 c hc =>
    rw [List.mem_singleton] at hre
    rw [matchhere_once (Ne.symm hre) (by decide) (fun h => hc h.1) htext]
    have hlang : language [c] = single c * 1 := by
      simp [language, items, hc, Item.language]
    have hat : atEnd [c] = false := decide_eq_false hc
    rw [hlang, hat, begins_single_mul]
    refine exists_congr fun x => exists_congr fun t => and_congr_right fun _ => ?_
    refine and_congr_right fun _ => ?_
    rw [matchhere_nil, begins_one]
    simp
  | case4 c re ih =>
    rw [mem_cons, mem_cons, not_or, not_or] at hre
    have hstar : matchhere (c :: '*'.toUInt8 :: re) text = matchstar c re text := by
      rw [matchhere, char_cons_zero, char_cons_succ, char_cons_zero, if_neg (Ne.symm hre.1),
        if_pos rfl]
      rfl
    have hlang : language (c :: '*'.toUInt8 :: re) = (single c)∗ * language re := by
      simp [language, items, Item.language]
    have hat : atEnd (c :: '*'.toUInt8 :: re) = atEnd re := if_pos rfl
    rw [hstar, hlang, hat]
    exact matchstar_iff (fun text htext => ih hre.2.2 htext) htext
  | case5 c d re hd ih =>
    rw [mem_cons, not_or] at hre
    have hd0 : d ≠ 0 := fun h => hre.2 (h ▸ List.mem_cons_self)
    have hstar : char (d :: re) 0 ≠ '*'.toUInt8 := hd
    have hdollar : ¬(c = '$'.toUInt8 ∧ char (d :: re) 0 = 0) := fun h => hd0 h.2
    rw [matchhere_once (Ne.symm hre.1) hstar hdollar htext]
    have hlang : language (c :: d :: re) = single c * language (d :: re) := by
      simp [language, items, hd, Item.language]
    have hat : atEnd (c :: d :: re) = atEnd (d :: re) := if_neg hd
    rw [hlang, hat, begins_single_mul]
    constructor
    · rintro ⟨x, t, rfl, hx, h⟩
      rw [mem_cons, not_or] at htext
      exact ⟨x, t, rfl, hx, (ih hre.2 htext.2).mp h⟩
    · rintro ⟨x, t, rfl, hx, h⟩
      rw [mem_cons, not_or] at htext
      exact ⟨x, t, rfl, hx, (ih hre.2 htext.2).mpr h⟩

/-- The loop of `match` tries every position of the text, the end too. -/
theorem matchLoop_iff : matchLoop re text = true ↔
    ∃ u rest, text = u ++ rest ∧ matchhere re rest = true := by
  induction text with
  | nil =>
    rw [matchLoop]
    constructor
    · intro h
      exact ⟨[], [], rfl, h⟩
    · rintro ⟨u, rest, hnil, h⟩
      rw [(List.append_eq_nil_iff.mp hnil.symm).2] at h
      exact h
  | cons x text ih =>
    rw [matchLoop]
    by_cases hhere : matchhere re (x :: text) = true
    · rw [if_pos hhere]
      exact ⟨fun _ => ⟨[], x :: text, rfl, hhere⟩, fun _ => rfl⟩
    · rw [if_neg hhere, ih]
      constructor
      · rintro ⟨u, rest, rfl, h⟩
        exact ⟨x :: u, rest, rfl, h⟩
      · rintro ⟨u, rest, hu, h⟩
        cases u with
        | nil => exact absurd (hu ▸ h) hhere
        | cons y u =>
          obtain ⟨rfl, rfl⟩ := List.cons.inj hu
          exact ⟨u, rest, rfl, h⟩

end Matcher

/-- **The matcher is exact.**  If the pattern begins with `^`, `match` is nonzero exactly when the
text begins with a word of the rest of the pattern; otherwise exactly when a part of the text is a
word of the pattern.  If the pattern ends with the operator `$`, the word is at the end of the
text. -/
theorem matchRe_exact (re text : Str) : matchRe re.chars text.chars = true ↔
    if char re.chars 0 = '^'.toUInt8 then
      ∃ v w, text.chars = v ++ w ∧ v ∈ language (re.chars.drop 1) ∧
        (atEnd (re.chars.drop 1) = true → w = []) else
      ∃ u v w, text.chars = u ++ v ++ w ∧ v ∈ language re.chars ∧
        (atEnd re.chars = true → w = []) := by
  rw [matchRe]
  split
  · exact matchhere_iff (fun h => re.nonzero (List.mem_of_mem_drop h)) text.nonzero
  · rw [matchLoop_iff]
    constructor
    · rintro ⟨u, rest, htext, h⟩
      have hrest : 0 ∉ rest := fun h0 => text.nonzero (htext ▸ List.mem_append_right u h0)
      obtain ⟨v, w, rfl, hv, hw⟩ := (matchhere_iff re.nonzero hrest).mp h
      exact ⟨u, v, w, by rw [htext, List.append_assoc], hv, hw⟩
    · rintro ⟨u, v, w, htext, hv, hw⟩
      rw [List.append_assoc] at htext
      have hrest : 0 ∉ v ++ w := fun h0 => text.nonzero (htext ▸ List.mem_append_right u h0)
      exact ⟨u, v ++ w, htext, (matchhere_iff re.nonzero hrest).mpr ⟨v, w, rfl, hv, hw⟩⟩

end Xv6Paging.Grep
