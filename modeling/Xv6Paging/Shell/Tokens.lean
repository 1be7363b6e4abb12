import Mathlib.Data.List.GetD
import Mathlib.Data.List.TakeWhile
import Xv6Paging.Logic.Wp

/-!
# The tokens of a shell line

`gettoken` and `peek` walk over the line with a cursor.  Over the characters that are left, a line
is a list of tokens: the symbols, and the words between them and the whitespace.
-/

namespace Xv6Paging

open StateHalt

namespace Shell

/-- A line, without the zero at its end. -/
structure Line where
  chars : List UInt8
  nonzero : 0 ∉ chars

namespace Line

/-- `es`, the end of the line: `strlen`. -/
def es (l : Line) : Nat := l.chars.length

/-- The character at the position `s`; the one at `es` is the zero. -/
def char (l : Line) (s : Nat) : UInt8 := l.chars.getD s 0

end Line

/-- The string `whitespace`. -/
def whitespace : List UInt8 :=
  [ ' '.toUInt8, '\t'.toUInt8, '\r'.toUInt8, '\n'.toUInt8, '\x0b'.toUInt8]

/-- The string `symbols`. -/
def symbols : List UInt8 :=
  [ '<'.toUInt8, '|'.toUInt8, '>'.toUInt8, '&'.toUInt8, ';'.toUInt8, '('.toUInt8, ')'.toUInt8]

/-- `strchr`, as a condition; the terminating zero is not found. -/
def strchr (str : List UInt8) (c : UInt8) : Bool := str.contains c

def white (c : UInt8) : Bool := strchr whitespace c

/-- A character of a word. -/
def wordChar (c : UInt8) : Bool := !strchr whitespace c && !strchr symbols c

/-- The symbols; `append` is `>>`. -/
inductive Symbol
  | bar | lparen | rparen | semi | amp | less | greater | append
  deriving DecidableEq, Repr

/-- The first character of a symbol. -/
def Symbol.char : Symbol → UInt8
  | bar => '|'.toUInt8
  | lparen => '('.toUInt8
  | rparen => ')'.toUInt8
  | semi => ';'.toUInt8
  | amp => '&'.toUInt8
  | less => '<'.toUInt8
  | greater | append => '>'.toUInt8

/-- What `gettoken` returns: zero at the end of the line, a symbol (`append` is the character `+`),
or the character `a` for a word. -/
inductive Tok
  | eof
  | sym (x : Symbol)
  | word
  deriving DecidableEq, Repr

/-- The symbols of one character, apart from `>`. -/
def single (c : UInt8) : Option Symbol :=
  if c = '|'.toUInt8 then some .bar
  else if c = '('.toUInt8 then some .lparen
  else if c = ')'.toUInt8 then some .rparen
  else if c = ';'.toUInt8 then some .semi
  else if c = '&'.toUInt8 then some .amp
  else if c = '<'.toUInt8 then some .less
  else none

namespace Line

variable (l : Line)

/-- At most `n` rounds of `while(p(*s)) s++`. -/
def scan (p : UInt8 → Bool) : Nat → Nat → Nat
  | 0, s => s
  | n + 1, s => if p (l.char s) then scan p n (s + 1) else s

/-- `while(s < es && p(*s)) s++`. -/
def skipWhile (p : UInt8 → Bool) (s : Nat) : Nat := l.scan p (l.es - s) s

/-- The `switch` of `gettoken`: what is returned, and the end of the token. -/
def tokenAt (s : Nat) : Tok × Nat :=
  if l.char s = 0 then (.eof, s)
  else if l.char s = '>'.toUInt8 then
    if l.char (s + 1) = '>'.toUInt8 then (.sym .append, s + 2) else (.sym .greater, s + 1)
  else match single (l.char s) with
    | some x => (.sym x, s + 1)
    | none => (.word, l.skipWhile wordChar s)

/-- `gettoken`: the kind of the token, `q` and `eq`. -/
def gettoken {ε : Type} : EStateM ε Nat (Tok × Nat × Nat) := do
  let s ← get
  let q := l.skipWhile white s
  let (ret, eq) := l.tokenAt q
  modify fun _ => l.skipWhile white eq
  pure (ret, q, eq)

/-- `peek`: does the next token begin with one of the characters `toks`? -/
def peek {ε : Type} (toks : List UInt8) : EStateM ε Nat Bool := do
  let s ← get
  let s := l.skipWhile white s
  modify fun _ => s
  pure (l.char s != 0 && strchr toks (l.char s))

end Line

/-! ## Tokens -/

/-- A token; a word is the range of its characters. -/
inductive Token
  | sym (x : Symbol)
  | word (q eq : Nat)
  deriving DecidableEq, Repr

/-- What `gettoken` returns at the token. -/
def Token.tok : Token → Tok
  | sym x => .sym x
  | word _ _ => .word

/-- The tokens of the characters `cs`, the first of them at the position `s`. -/
def lex (s : Nat) : List UInt8 → List Token
  | [] => []
  | c :: cs =>
    if white c then lex (s + 1) cs
    else if c = '>'.toUInt8 then
      if cs.head? = some '>'.toUInt8 then .sym .append :: lex (s + 2) cs.tail
      else .sym .greater :: lex (s + 1) cs
    else match single c with
      | some x => .sym x :: lex (s + 1) cs
      | none =>
        .word s (s + 1 + (cs.takeWhile wordChar).length) ::
          lex (s + 1 + (cs.takeWhile wordChar).length) (cs.dropWhile wordChar)
termination_by cs => cs.length
decreasing_by
  · exact Nat.lt_succ_self _
  · exact Nat.lt_succ_of_le (by rw [List.length_tail]; exact Nat.sub_le _ _)
  · exact Nat.lt_succ_self _
  · exact Nat.lt_succ_self _
  · exact Nat.lt_succ_of_le (List.dropWhile_sublist _).length_le

section Scan

variable {l : Line} {s : Nat} {p : UInt8 → Bool}

theorem Line.char_of_cons {c : UInt8} {cs : List UInt8} (h : l.chars.drop s = c :: cs) :
    l.char s = c ∧ l.chars.drop (s + 1) = cs ∧ s < l.es ∧ c ≠ 0 := by
  have hlt : s < l.es := by
    by_contra hge
    rw [List.drop_eq_nil_of_le (by rw [Line.es] at hge; omega)] at h
    cases h
  rw [List.drop_eq_getElem_cons hlt] at h
  obtain ⟨rfl, rfl⟩ := List.cons.inj h
  refine ⟨List.getD_eq_getElem _ _ hlt, rfl, hlt, fun h0 => l.nonzero ?_⟩
  rw [← h0]
  exact List.getElem_mem hlt

theorem Line.char_of_nil (h : l.chars.drop s = []) : l.char s = 0 :=
  List.getD_eq_default _ _ (List.drop_eq_nil_iff.mp h)

theorem Line.char_es : l.char l.es = 0 :=
  Line.char_of_nil (List.drop_eq_nil_of_le le_rfl)

theorem Line.lt_of_char (h : l.char s ≠ 0) : s < l.es := by
  by_contra hge
  exact h (List.getD_eq_default _ _ (Nat.not_lt.mp hge))

theorem Line.head?_drop {c : UInt8} (hc : c ≠ 0) :
    (l.chars.drop s).head? = some c ↔ l.char s = c := by
  cases hd : l.chars.drop s with
  | nil =>
    rw [Line.char_of_nil hd]
    exact iff_of_false (Option.some_ne_none c).symm hc.symm
  | cons d ds =>
    rw [(Line.char_of_cons hd).1, List.head?_cons, Option.some_inj]

theorem Line.skipWhile_eq : l.skipWhile p s = s + ((l.chars.drop s).takeWhile p).length := by
  rw [Line.skipWhile]
  generalize hn : l.es - s = n
  induction n generalizing s with
  | zero =>
    rw [List.drop_eq_nil_of_le (by rw [Line.es] at hn; omega)]
    rfl
  | succ n ih =>
    have hlt : s < l.es := by omega
    have hdrop := List.drop_eq_getElem_cons hlt
    have hchar : l.char s = l.chars[s] := List.getD_eq_getElem _ _ hlt
    rw [Line.scan, hdrop, List.takeWhile_cons, hchar]
    split
    · rw [ih (by omega), List.length_cons]
      omega
    · rfl

theorem Line.drop_skipWhile : l.chars.drop (l.skipWhile p s) = (l.chars.drop s).dropWhile p := by
  have happ := List.takeWhile_append_dropWhile (p := p) (l := l.chars.drop s)
  have hdrop := congrArg (List.drop ((l.chars.drop s).takeWhile p).length) happ
  rw [List.drop_left] at hdrop
  rw [Line.skipWhile_eq, ← List.drop_drop, hdrop]

theorem Line.skipWhile_le (hs : s ≤ l.es) : l.skipWhile p s ≤ l.es := by
  have hle := (List.takeWhile_sublist p (l := l.chars.drop s)).length_le
  rw [List.length_drop] at hle
  rw [Line.skipWhile_eq, Line.es] at *
  omega

theorem Line.skipWhile_run {i : Nat} (hs : s ≤ i) (hi : i < l.skipWhile p s) :
    p (l.char i) = true := by
  rw [Line.skipWhile_eq] at hi
  have hlt : i - s < ((l.chars.drop s).takeWhile p).length := by omega
  have hmem := List.getElem_mem hlt
  have hle := (List.takeWhile_sublist p (l := l.chars.drop s)).length_le
  have hchar : ((l.chars.drop s).takeWhile p)[i - s] = l.char i := by
    rw [List.length_drop] at hle
    rw [(List.takeWhile_prefix p).getElem hlt, List.getElem_drop, Line.char,
      List.getD_eq_getElem _ _ (by omega)]
    congr 1
    omega
  rw [← hchar]
  exact List.mem_takeWhile_imp hmem

theorem Line.skipWhile_stop (hs : s ≤ l.es) :
    l.skipWhile p s = l.es ∨ p (l.char (l.skipWhile p s)) = false := by
  cases hd : l.chars.drop (l.skipWhile p s) with
  | nil =>
    refine .inl (Nat.le_antisymm (Line.skipWhile_le hs) ?_)
    exact List.drop_eq_nil_iff.mp hd
  | cons c cs =>
    rw [(Line.char_of_cons hd).1]
    rw [Line.drop_skipWhile] at hd
    have hne : (l.chars.drop s).dropWhile p ≠ [] := by
      rw [hd]
      exact List.cons_ne_nil _ _
    refine .inr ?_
    simpa only [hd, List.head_cons] using List.head_dropWhile_not p hne

theorem lex_dropWhile (s : Nat) (cs : List UInt8) :
    lex (s + (cs.takeWhile white).length) (cs.dropWhile white) = lex s cs := by
  induction cs generalizing s with
  | nil => rfl
  | cons c cs ih =>
    rw [List.takeWhile_cons, List.dropWhile_cons]
    by_cases hc : white c
    · rw [if_pos hc, if_pos hc, lex, if_pos hc, ← ih (s + 1), List.length_cons]
      congr 1
      omega
    · rw [if_neg hc, if_neg hc]
      rfl

end Scan

/-- The tokens from the cursor `s` on are `ts`. -/
structure Line.At (l : Line) (s : Nat) (ts : List Token) : Prop where
  le : s ≤ l.es
  tokens : lex s (l.chars.drop s) = ts

section Cursor

variable {l : Line} {s : Nat} {ts : List Token} {t : Token}

theorem Line.At.skip (h : l.At s ts) : l.At (l.skipWhile white s) ts := by
  refine ⟨Line.skipWhile_le h.le, ?_⟩
  rw [Line.drop_skipWhile, Line.skipWhile_eq, lex_dropWhile, h.tokens]

/-- After the whitespace there is a character of a token, or the end. -/
theorem Line.At.white_skip (h : l.At s ts) : white (l.char (l.skipWhile white s)) = false := by
  rcases Line.skipWhile_stop (p := white) h.le with hend | hstop
  · rw [hend, Line.char_es]
    decide
  · exact hstop

theorem single_symbols {c : UInt8} (h : single c = none) (hgt : c ≠ '>'.toUInt8) :
    strchr symbols c = false := by
  unfold single at h
  split_ifs at h with h1 h2 h3 h4 h5 h6
  simp [strchr, symbols, h1, h2, h3, h4, h5, h6, hgt]

theorem Symbol.char_single {c : UInt8} {x : Symbol} (h : single c = some x) : x.char = c := by
  unfold single at h
  split_ifs at h <;> cases h <;> simp [Symbol.char, *]

theorem Line.At.char_nil (h : l.At s []) (hw : white (l.char s) = false) : l.char s = 0 := by
  cases hd : l.chars.drop s with
  | nil => exact Line.char_of_nil hd
  | cons c cs =>
    -- a character that is not whitespace begins a token
    rw [(Line.char_of_cons hd).1] at hw
    have ht := h.tokens
    rw [hd, lex, if_neg (by rw [hw]; exact Bool.false_ne_true)] at ht
    split_ifs at ht
    split at ht <;> cases ht

/-- **The characters of a token**, and where the next one begins. -/
theorem Line.At.cons_cases (h : l.At s (t :: ts)) (hw : white (l.char s) = false) : l.char s ≠ 0 ∧
    ((t = .sym .append ∧ l.char s = '>'.toUInt8 ∧ l.char (s + 1) = '>'.toUInt8 ∧ l.At (s + 2) ts) ∨
    (t = .sym .greater ∧ l.char s = '>'.toUInt8 ∧ l.char (s + 1) ≠ '>'.toUInt8 ∧ l.At (s + 1) ts) ∨
    (∃ x, t = .sym x ∧ single (l.char s) = some x ∧ l.char s ≠ '>'.toUInt8 ∧ l.At (s + 1) ts) ∨
    (t = .word s (l.skipWhile wordChar s) ∧ single (l.char s) = none ∧ l.char s ≠ '>'.toUInt8 ∧
      wordChar (l.char s) = true ∧ l.At (l.skipWhile wordChar s) ts)) := by
  have ht := h.tokens
  cases hd : l.chars.drop s with
  | nil =>
    rw [hd, lex] at ht
    cases ht
  | cons c cs =>
    obtain ⟨hc, hcs, hlt, hne⟩ := Line.char_of_cons hd
    rw [hc] at hw ⊢
    refine ⟨hne, ?_⟩
    rw [hd, lex, if_neg (by rw [hw]; exact Bool.false_ne_true)] at ht
    by_cases hgt : c = '>'.toUInt8
    · have hhead : cs.head? = some '>'.toUInt8 ↔ l.char (s + 1) = '>'.toUInt8 := by
        rw [← hcs, Line.head?_drop (by decide)]
      rw [if_pos hgt] at ht
      by_cases hnext : l.char (s + 1) = '>'.toUInt8
      · rw [if_pos (hhead.mpr hnext)] at ht
        obtain ⟨rfl, rfl⟩ := List.cons.inj ht
        have hlt' := Line.lt_of_char (l := l) (s := s + 1) (by rw [hnext]; decide)
        exact .inl ⟨rfl, hgt, hnext, hlt', by rw [← hcs, List.tail_drop]⟩
      · rw [if_neg (mt hhead.mp hnext)] at ht
        obtain ⟨rfl, rfl⟩ := List.cons.inj ht
        exact .inr (.inl ⟨rfl, hgt, hnext, hlt, by rw [hcs]⟩)
    · rw [if_neg hgt] at ht
      refine .inr (.inr ?_)
      cases hx : single c with
      | some x =>
        rw [hx] at ht
        obtain ⟨rfl, rfl⟩ := List.cons.inj ht
        exact .inl ⟨x, rfl, rfl, hgt, hlt, by rw [hcs]⟩
      | none =>
        rw [hx] at ht
        obtain ⟨rfl, rfl⟩ := List.cons.inj ht
        have hword : wordChar c = true := by
          rw [wordChar, single_symbols hx hgt, show strchr whitespace c = false from hw]
          rfl
        have hend : l.skipWhile wordChar s = s + 1 + (cs.takeWhile wordChar).length := by
          rw [Line.skipWhile_eq, hd, List.takeWhile_cons_of_pos hword, List.length_cons]
          omega
        refine .inr ⟨by rw [hend], rfl, hgt, hword, Line.skipWhile_le h.le, ?_⟩
        rw [Line.drop_skipWhile, hd, List.dropWhile_cons_of_pos hword, hend]

theorem Line.tokenAt_nil (h : l.At s []) (hw : white (l.char s) = false) :
    l.tokenAt s = (.eof, s) := by
  rw [Line.tokenAt, if_pos (h.char_nil hw)]

/-- The `switch` of `gettoken` at a token: what is returned, and where the token ends. -/
theorem Line.tokenAt_cons (h : l.At s (t :: ts)) (hw : white (l.char s) = false) :
    (l.tokenAt s).1 = t.tok ∧ l.At (l.tokenAt s).2 ts ∧
      ∀ q e, t = .word q e → s = q ∧ (l.tokenAt s).2 = e := by
  obtain ⟨hne, hcases⟩ := h.cons_cases hw
  rw [Line.tokenAt, if_neg hne]
  rcases hcases with ⟨rfl, hgt, hnext, hat⟩ | ⟨rfl, hgt, hnext, hat⟩ | ⟨x, rfl, hx, hgt, hat⟩ |
    ⟨rfl, hx, hgt, -, hat⟩
  · rw [if_pos hgt, if_pos hnext]
    refine ⟨rfl, hat, fun q e hqe => ?_⟩
    cases hqe
  · rw [if_pos hgt, if_neg hnext]
    refine ⟨rfl, hat, fun q e hqe => ?_⟩
    cases hqe
  · rw [if_neg hgt, hx]
    refine ⟨rfl, hat, fun q e hqe => ?_⟩
    cases hqe
  · rw [if_neg hgt, hx]
    refine ⟨rfl, hat, fun q e hqe => ?_⟩
    exact Token.word.inj hqe

/-- The range `q`, `e` is a word of the line, and no longer one. -/
structure Line.IsWord (l : Line) (q e : Nat) : Prop where
  lt : q < e
  le : e ≤ l.es
  chars : ∀ i, q ≤ i → i < e → wordChar (l.char i) = true
  stop : e = l.es ∨ wordChar (l.char e) = false

theorem Line.At.isWord {q e : Nat} (h : l.At s ts) (hmem : .word q e ∈ ts) : l.IsWord q e := by
  induction ts generalizing s with
  | nil => cases hmem
  | cons t ts ih =>
    obtain ⟨hne, hcases⟩ := h.skip.cons_cases h.white_skip
    rcases List.mem_cons.mp hmem with rfl | hmem
    · rcases hcases with ⟨ht, -⟩ | ⟨ht, -⟩ | ⟨x, ht, -⟩ | ⟨ht, -, -, hword, -⟩
      · cases ht
      · cases ht
      · cases ht
      · obtain ⟨rfl, rfl⟩ := Token.word.inj ht
        refine ⟨?_, Line.skipWhile_le h.skip.le, fun i => Line.skipWhile_run,
          Line.skipWhile_stop h.skip.le⟩
        cases hd : l.chars.drop (l.skipWhile white s) with
        | nil => exact absurd (Line.char_of_nil hd) hne
        | cons c cs =>
          rw [(Line.char_of_cons hd).1] at hword
          rw [Line.skipWhile_eq (p := wordChar), hd, List.takeWhile_cons_of_pos hword,
            List.length_cons]
          omega
    · rcases hcases with ⟨-, -, -, hat⟩ | ⟨-, -, -, hat⟩ | ⟨x, -, -, -, hat⟩ | ⟨-, -, -, -, hat⟩
      all_goals exact ih hat hmem

variable {ε : Type} {E : ε → Nat → Prop}

/-- **`gettoken`** at the end of the line. -/
theorem wp_gettoken_nil {Q : Tok × Nat × Nat → Nat → Prop} (h : l.At s [])
    (hQ : ∀ q e s', l.At s' [] → Q (.eof, q, e) s') : wp l.gettoken Q E s := by
  simp only [Line.gettoken, wp_bind, wp_get, wp_modify, wp_pure,
    Line.tokenAt_nil h.skip h.white_skip]
  exact hQ _ _ _ h.skip.skip

/-- **`gettoken`** before a token returns it and moves on to the next one. -/
theorem wp_gettoken {Q : Tok × Nat × Nat → Nat → Prop} (h : l.At s (t :: ts))
    (hQ : ∀ q e s', (∀ q' e', t = .word q' e' → q = q' ∧ e = e') → l.At s' ts →
      Q (t.tok, q, e) s') : wp l.gettoken Q E s := by
  obtain ⟨htok, hend, hword⟩ := Line.tokenAt_cons h.skip h.white_skip
  simp only [Line.gettoken, wp_bind, wp_get, wp_modify, wp_pure, htok]
  exact hQ _ _ _ hword hend.skip

/-- Do the tokens begin with one of the characters? -/
def startsWith (toks : List UInt8) : List Token → Bool
  | .sym x :: _ => toks.contains x.char
  | _ => false

theorem Line.At.strchr_char {toks : List UInt8} (htoks : toks.all symbols.contains = true)
    (h : l.At s ts) (hw : white (l.char s) = false) :
    (l.char s != 0 && strchr toks (l.char s)) = startsWith toks ts := by
  cases ts with
  | nil =>
    rw [h.char_nil hw]
    rfl
  | cons t ts =>
    obtain ⟨hne, hcases⟩ := h.cons_cases hw
    rw [bne_iff_ne.mpr hne, Bool.true_and]
    rcases hcases with ⟨rfl, hc, -⟩ | ⟨rfl, hc, -⟩ | ⟨x, rfl, hx, -⟩ | ⟨rfl, -, -, hword, -⟩
    · rw [hc]
      rfl
    · rw [hc]
      rfl
    · rw [← Symbol.char_single hx]
      rfl
    · -- the first character of a word is no symbol
      rw [wordChar, Bool.and_eq_true, Bool.not_eq_true', Bool.not_eq_true'] at hword
      change strchr toks (l.char s) = false
      rw [Bool.eq_false_iff]
      intro hmem
      have hsym : strchr symbols (l.char s) = true :=
        List.all_eq_true.mp htoks _ (List.contains_iff_mem.mp hmem)
      rw [hsym] at hword
      cases hword.2

/-- **`peek`** looks at the next token, and leaves it. -/
theorem wp_peek {Q : Bool → Nat → Prop} {toks : List UInt8}
    (htoks : toks.all symbols.contains = true)
    (h : l.At s ts) (hQ : ∀ s', l.At s' ts → (s' = l.es ↔ ts = []) → Q (startsWith toks ts) s') :
    wp (l.peek toks) Q E s := by
  simp only [Line.peek, wp_bind, wp_get, wp_modify, wp_pure]
  rw [h.skip.strchr_char htoks h.white_skip]
  refine hQ _ h.skip ⟨fun hes => ?_, ?_⟩
  · cases ts with
    | nil => rfl
    | cons t ts => exact absurd (by rw [hes, Line.char_es]) (h.skip.cons_cases h.white_skip).1
  · rintro rfl
    by_contra hne
    have hlt := Nat.lt_of_le_of_ne h.skip.le hne
    have hmem := List.getElem_mem hlt
    rw [← List.getD_eq_getElem _ 0 hlt] at hmem
    exact l.nonzero (h.skip.char_nil h.white_skip ▸ hmem)

end Cursor

theorem length_lex_le (s : Nat) (cs : List UInt8) : (lex s cs).length ≤ cs.length := by
  fun_induction lex s cs with
  | case1 => exact le_rfl
  | case2 s c cs _ ih => exact Nat.le_succ_of_le ih
  | case3 s cs _ _ ih =>
    rw [List.length_tail] at ih
    rw [List.length_cons, List.length_cons]
    omega
  | case4 s cs _ _ ih => exact Nat.succ_le_succ ih
  | case5 s c cs _ _ x _ ih => exact Nat.succ_le_succ ih
  | case6 s c cs _ _ _ ih =>
    exact Nat.succ_le_succ (ih.trans (List.dropWhile_sublist _).length_le)

end Shell

end Xv6Paging
