import Mathlib.Data.List.Induction
import Xv6Paging.Shell.Parser

/-!
# The parser accepts its grammar

    line   ::= pipe '&'* [';' line]
    pipe   ::= exec ['|' pipe]
    exec   ::= '(' line ')' redirs | redirs (word redirs)*
    redirs ::= (('<' | '>' | '>>') word)*

with fewer than `MAXARGS` words in an `exec`.  The parser looks one token ahead.  What it returns is
the tree of a derivation of the tokens it has read; and where the tokens that follow a derived part
cannot continue it, the parser reads exactly this part.
-/

namespace Xv6Paging

open StateHalt
open List (append_assoc append_nil cons_append drop_zero getD_eq_getElem length_append length_cons
  length_nil map_cons mem_append mem_append_left mem_append_right mem_cons mem_cons_of_mem
  nil_append)

namespace Shell

/-! ## The grammar -/

/-- A redirection: its symbol and the range of the file's name. -/
structure Redir where
  op : Symbol
  file : Nat
  efile : Nat
  isRedir : op = .less ∨ op = .greater ∨ op = .append

/-- The tokens of redirections. -/
def redirTokens : List Redir → List Token
  | [] => []
  | r :: rs => .sym r.op :: .word r.file r.efile :: redirTokens rs

/-- The redirections around a command, the first one innermost. -/
def wrap (c : Cmd) (rs : List Redir) : Cmd :=
  rs.foldl (fun c r => redirect c (.sym r.op) r.file r.efile) c

/-- A word with the redirections behind it. -/
structure Arg where
  word : Nat × Nat
  redirs : List Redir

/-- The tokens of words with their redirections. -/
def argTokens : List Arg → List Token
  | [] => []
  | a :: as => .word a.word.1 a.word.2 :: (redirTokens a.redirs ++ argTokens as)

/-- The nonterminals. -/
inductive Nonterminal
  | line | pipe | exec

/-- A number of background commands. -/
def backs (k : Nat) (c : Cmd) : Cmd := Cmd.back^[k] c

/-- The tokens of `&`, repeated. -/
def amps (k : Nat) : List Token := List.replicate k (.sym .amp)

/-- The tokens derive the nonterminal, with the tree of the derivation. -/
inductive Derives : Nonterminal → List Token → Cmd → Prop
  | line {ts c} (k : Nat) : Derives .pipe ts c → Derives .line (ts ++ amps k) (backs k c)
  | list {ts c ts' c'} (k : Nat) : Derives .pipe ts c → Derives .line ts' c' →
      Derives .line (ts ++ amps k ++ .sym .semi :: ts') (.list (backs k c) c')
  | exec {ts c} : Derives .exec ts c → Derives .pipe ts c
  | pipe {ts c ts' c'} : Derives .exec ts c → Derives .pipe ts' c' →
      Derives .pipe (ts ++ .sym .bar :: ts') (.pipe c c')
  | block {ts c} (rs : List Redir) : Derives .line ts c →
      Derives .exec (.sym .lparen :: ts ++ .sym .rparen :: redirTokens rs) (wrap c rs)
  | args (rs : List Redir) (as : List Arg) : as.length < maxargs →
      Derives .exec (redirTokens rs ++ argTokens as)
        (wrap (.exec (as.map Arg.word)) (rs ++ as.flatMap Arg.redirs))

/-! ## The loops -/

section Loops

variable {l : Line} {s : Nat} {ts rest : List Token} {c : Cmd}
  {E : Stop → Nat → Prop} {n : Nat} {rs : List Redir}

/-- The parser did not run out of calls. -/
def Halted (e : Stop) (_ : Nat) : Prop := e ≠ .calls

theorem wrap_append (c : Cmd) (rs rs' : List Redir) : wrap c (rs ++ rs') = wrap (wrap c rs) rs' :=
  List.foldl_append

theorem addArg_wrap (argv : List (Nat × Nat)) (rs : List Redir) (q e : Nat) :
    (wrap (.exec argv) rs).addArg q e = wrap (.exec (argv ++ [(q, e)])) rs := by
  induction rs using List.reverseRecOn with
  | nil => rfl
  | append_singleton rs r ih =>
    rw [wrap_append, wrap_append, ← ih]
    obtain ⟨op, file, efile, rfl | rfl | rfl⟩ := r <;> rfl

theorem startsWith_cases {toks : List UInt8} (h : startsWith toks ts = true) :
    ∃ x rest, ts = .sym x :: rest ∧ x.char ∈ toks := by
  cases ts with
  | nil => cases h
  | cons t ts =>
    cases t with
    | word q e => cases h
    | sym x => exact ⟨x, ts, rfl, List.contains_iff_mem.mp h⟩

/-- **Redirections**, as far as there are any. -/
theorem parseredirs_sound (h : l.At s ts) (hn : ts.length < n) :
    wp (parseredirs l n c) (fun c' s' => ∃ rs rest, ts = redirTokens rs ++ rest ∧
      c' = wrap c rs ∧ l.At s' rest) Halted s := by
  -- by induction on the bound: a round reads two tokens
  induction n generalizing s ts c with
  | zero => omega
  | succ n ih =>
    rw [parseredirs, wp_bind]
    refine wp_peek rfl h fun s1 h1 _ => ?_
    apply wp_ite
    · intro hpeek
      obtain ⟨x, ts, rfl, hx⟩ := startsWith_cases hpeek
      have hop : x = .less ∨ x = .greater ∨ x = .append := by
        revert hx
        cases x <;> decide
      rw [wp_bind]
      refine wp_gettoken h1 fun _ _ s2 _ h2 => ?_
      rw [wp_bind]
      rcases ts with _ | ⟨_ | ⟨q', e'⟩, ts⟩
      · exact wp_gettoken_nil h2 fun _ _ _ _ => Stop.noConfusion
      · exact wp_gettoken h2 fun _ _ _ _ _ => Stop.noConfusion
      · refine wp_gettoken h2 fun q e s3 hword h3 => ?_
        obtain ⟨rfl, rfl⟩ := hword q' e' rfl
        rw [length_cons, length_cons] at hn
        refine wp_post (ih h3 (by omega)) ?_
        rintro c' s' ⟨rs, rest, rfl, rfl, hat⟩
        exact ⟨⟨x, q, e, hop⟩ :: rs, rest, rfl, rfl, hat⟩
    · intro _
      exact ⟨[], ts, rfl, rfl, h1⟩

/-- **The redirections of a derivation** are read, and no more. -/
theorem parseredirs_complete (h : l.At s (redirTokens rs ++ rest)) (hn : rs.length < n)
    (hrest : startsWith [ '<'.toUInt8, '>'.toUInt8] rest = false) :
    wp (parseredirs l n c) (fun c' s' => c' = wrap c rs ∧ l.At s' rest) E s := by
  induction rs generalizing s n c with
  | nil =>
    obtain ⟨n, rfl⟩ : ∃ m, n = m + 1 := ⟨n - 1, by omega⟩
    rw [parseredirs, wp_bind]
    refine wp_peek rfl h fun s1 h1 _ => ?_
    rw [redirTokens, nil_append] at h1 ⊢
    rw [hrest]
    exact ⟨rfl, h1⟩
  | cons r rs ih =>
    obtain ⟨n, rfl⟩ : ∃ m, n = m + 1 := ⟨n - 1, by omega⟩
    rw [parseredirs, wp_bind]
    refine wp_peek rfl h fun s1 h1 _ => ?_
    have hpeek : startsWith [ '<'.toUInt8, '>'.toUInt8] (redirTokens (r :: rs) ++ rest) = true := by
      obtain ⟨op, file, efile, rfl | rfl | rfl⟩ := r <;> rfl
    rw [if_pos hpeek, wp_bind]
    refine wp_gettoken h1 fun _ _ s2 _ h2 => ?_
    rw [wp_bind]
    refine wp_gettoken h2 fun q e s3 hword h3 => ?_
    obtain ⟨rfl, rfl⟩ := hword _ _ rfl
    exact ih h3 (Nat.lt_of_succ_lt_succ hn)

/-- **Background commands**, as far as there are any. -/
theorem backLoop_sound (h : l.At s ts) (hn : ts.length < n) :
    wp (backLoop l n c) (fun c' s' => ∃ k rest, ts = amps k ++ rest ∧ c' = backs k c ∧
      l.At s' rest) Halted s := by
  induction n generalizing s ts c with
  | zero => omega
  | succ n ih =>
    rw [backLoop, wp_bind]
    refine wp_peek rfl h fun s1 h1 _ => ?_
    apply wp_ite
    · intro hpeek
      obtain ⟨x, ts, rfl, hx⟩ := startsWith_cases hpeek
      have hop : x = .amp := by
        revert hx
        cases x <;> decide
      subst hop
      rw [wp_bind]
      refine wp_gettoken h1 fun _ _ s2 _ h2 => ?_
      refine wp_post (ih h2 (Nat.lt_of_succ_lt_succ hn)) ?_
      rintro c' s' ⟨k, rest, rfl, rfl, hat⟩
      exact ⟨k + 1, rest, rfl, rfl, hat⟩
    · intro _
      exact ⟨0, ts, rfl, rfl, h1⟩

theorem backLoop_complete {k : Nat} (h : l.At s (amps k ++ rest))
    (hn : k < n) (hrest : startsWith [ '&'.toUInt8] rest = false) :
    wp (backLoop l n c) (fun c' s' => c' = backs k c ∧ l.At s' rest) E s := by
  induction k generalizing s n c with
  | zero =>
    obtain ⟨n, rfl⟩ : ∃ m, n = m + 1 := ⟨n - 1, by omega⟩
    rw [backLoop, wp_bind]
    refine wp_peek rfl h fun s1 h1 _ => ?_
    rw [amps, List.replicate_zero, nil_append] at h1 ⊢
    rw [hrest]
    exact ⟨rfl, h1⟩
  | succ k ih =>
    obtain ⟨n, rfl⟩ : ∃ m, n = m + 1 := ⟨n - 1, by omega⟩
    rw [backLoop, wp_bind]
    refine wp_peek rfl h fun s1 h1 _ => ?_
    have hpeek : startsWith [ '&'.toUInt8] (amps (k + 1) ++ rest) = true := rfl
    rw [if_pos hpeek, wp_bind]
    refine wp_gettoken h1 fun _ _ s2 _ h2 => ?_
    exact ih h2 (Nat.lt_of_succ_lt_succ hn)

/-- **The words of a command**, as far as there are any. -/
theorem argLoop_sound {argv : List (Nat × Nat)} (h : l.At s ts)
    (hn : ts.length < n) (hargs : argv.length < maxargs) :
    wp (argLoop l n argv.length (wrap (.exec argv) rs)) (fun c' s' => ∃ as rest,
      ts = argTokens as ++ rest ∧ argv.length + as.length < maxargs ∧
      c' = wrap (.exec (argv ++ as.map Arg.word)) (rs ++ as.flatMap Arg.redirs) ∧
      l.At s' rest) Halted s := by
  induction n generalizing s ts argv rs with
  | zero => omega
  | succ n ih =>
    have hnone : ∀ rest s', l.At s' rest → ts = rest → ∃ as rest,
        ts = argTokens as ++ rest ∧ argv.length + as.length < maxargs ∧
        wrap (.exec argv) rs =
          wrap (.exec (argv ++ as.map Arg.word)) (rs ++ as.flatMap Arg.redirs) ∧
        l.At s' rest :=
      fun rest s' hat hts => ⟨[], rest, hts, hargs, by simp, hat⟩
    rw [argLoop, wp_bind]
    refine wp_peek rfl h fun s1 h1 _ => ?_
    apply wp_ite
    · intro _
      exact hnone ts s1 h1 rfl
    · intro _
      rw [wp_bind]
      rcases ts with _ | ⟨x | ⟨q', e'⟩, ts⟩
      · exact wp_gettoken_nil h1 fun _ _ s2 h2 => hnone [] s2 h2 rfl
      · exact wp_gettoken h1 fun _ _ _ _ _ => Stop.noConfusion
      · refine wp_gettoken h1 fun q e s2 hword h2 => ?_
        obtain ⟨rfl, rfl⟩ := hword q' e' rfl
        rw [length_cons] at hn
        change wp (if maxargs ≤ argv.length + 1 then _ else _) _ _ _
        apply wp_ite
        · exact fun _ => Stop.noConfusion
        · intro hfew
          rw [wp_bind, addArg_wrap]
          refine wp_post (parseredirs_sound h2 (by omega)) ?_
          rintro _ s3 ⟨rs1, rest, rfl, rfl, h3⟩
          have hlen : (argv ++ [(q, e)]).length = argv.length + 1 := length_append
          rw [length_append] at hn
          rw [← wrap_append, ← hlen]
          refine wp_post (ih h3 (by omega) (by omega)) ?_
          rintro c' s' ⟨as, rest, rfl, has, rfl, hat⟩
          refine ⟨⟨(q, e), rs1⟩ :: as, rest, ?_, ?_, ?_, hat⟩
          · rw [argTokens, cons_append, append_assoc]
          · rw [length_cons]
            omega
          · simp [append_assoc]

/-- The tokens are at an end, or begin with one of the symbols. -/
def Follow (xs : List Symbol) (ts : List Token) : Prop :=
  ts = [] ∨ ∃ x ∈ xs, ∃ rest, ts = .sym x :: rest

theorem Follow.startsWith {xs : List Symbol} {toks : List UInt8} (h : Follow xs ts)
    (hx : ∀ x ∈ xs, x.char ∉ toks) : startsWith toks ts = false := by
  rcases h with rfl | ⟨x, hmem, rest, rfl⟩
  · rfl
  · rw [Bool.eq_false_iff]
    exact fun hc => hx x hmem (List.contains_iff_mem.mp hc)

theorem Follow.mono {xs ys : List Symbol} (h : Follow xs ts) (hxy : ∀ x ∈ xs, x ∈ ys) :
    Follow ys ts := by
  rcases h with rfl | ⟨x, hmem, hrest⟩
  · exact .inl rfl
  · exact .inr ⟨x, hxy x hmem, hrest⟩

theorem Follow.cons {xs : List Symbol} {x : Symbol} (hx : x ∈ xs) (ts : List Token) :
    Follow xs (.sym x :: ts) := .inr ⟨x, hx, ts, rfl⟩

theorem length_redirTokens (rs : List Redir) : (redirTokens rs).length = 2 * rs.length := by
  induction rs with
  | nil => rfl
  | cons r rs ih =>
    rw [redirTokens, length_cons, length_cons, ih, length_cons]
    omega

theorem startsWith_argTokens {as : List Arg} (hrest : Follow [.bar, .rparen, .amp, .semi] rest) :
    startsWith [ '<'.toUInt8, '>'.toUInt8] (argTokens as ++ rest) = false := by
  cases as with
  | nil => exact hrest.startsWith (by decide)
  | cons a as => rfl

/-- **The words of a derivation** are read, and no more. -/
theorem argLoop_complete {argv : List (Nat × Nat)} {as : List Arg}
    (h : l.At s (argTokens as ++ rest))
    (hn : (argTokens as ++ rest).length < n) (hrest : Follow [.bar, .rparen, .amp, .semi] rest)
    (hargs : argv.length + as.length < maxargs) :
    wp (argLoop l n argv.length (wrap (.exec argv) rs)) (fun c' s' =>
      c' = wrap (.exec (argv ++ as.map Arg.word)) (rs ++ as.flatMap Arg.redirs) ∧
      l.At s' rest) E s := by
  induction as generalizing s n argv rs with
  | nil =>
    obtain ⟨n, rfl⟩ : ∃ m, n = m + 1 := ⟨n - 1, by omega⟩
    have hend : wrap (.exec argv) rs =
        wrap (.exec (argv ++ [].map Arg.word)) (rs ++ [].flatMap Arg.redirs) := by simp
    rw [argLoop, wp_bind]
    refine wp_peek rfl h fun s1 h1 _ => ?_
    rw [argTokens, nil_append] at h1 ⊢
    rcases hrest with rfl | ⟨x, hx, rest, rfl⟩
    · rw [if_neg (by decide), wp_bind]
      exact wp_gettoken_nil h1 fun _ _ s2 h2 => ⟨hend, h2⟩
    · have hpeek : startsWith [ '|'.toUInt8, ')'.toUInt8, '&'.toUInt8, ';'.toUInt8]
          (.sym x :: rest) = true := by
        change List.contains _ x.char = true
        revert hx
        cases x <;> decide
      rw [if_pos hpeek]
      exact ⟨hend, h1⟩
  | cons a as ih =>
    obtain ⟨n, rfl⟩ : ∃ m, n = m + 1 := ⟨n - 1, by omega⟩
    obtain ⟨⟨q', e'⟩, rs1⟩ := a
    rw [argTokens, cons_append, append_assoc] at h hn
    rw [length_cons, length_append, length_redirTokens] at hn
    rw [length_cons] at hargs
    rw [argLoop, wp_bind]
    refine wp_peek rfl h fun s1 h1 _ => ?_
    rw [if_neg (by exact Bool.false_ne_true), wp_bind]
    refine wp_gettoken h1 fun q e s2 hword h2 => ?_
    obtain ⟨rfl, rfl⟩ := hword q' e' rfl
    have hfew : ¬maxargs ≤ argv.length + 1 := by omega
    change wp (if maxargs ≤ argv.length + 1 then _ else _) _ _ _
    rw [if_neg hfew, wp_bind, addArg_wrap]
    refine wp_post (parseredirs_complete h2 (by omega) (startsWith_argTokens hrest)) ?_
    rintro _ s3 ⟨rfl, h3⟩
    have hlen : (argv ++ [(q, e)]).length = argv.length + 1 := length_append
    rw [← wrap_append, ← hlen]
    refine wp_post (ih h3 (by omega) (by omega)) ?_
    rintro c' s' ⟨rfl, hat⟩
    refine ⟨?_, hat⟩
    simp [append_assoc]

end Loops

/-! ## The parser -/

/-- The function that parses a nonterminal. -/
def parse (l : Line) : Nonterminal → Nat → SM Cmd
  | .line => parseline l
  | .pipe => parsepipe l
  | .exec => parseexec l

/-- The number of calls for `k` tokens. -/
def calls (k : Nat) : Nonterminal → Nat
  | .line => 4 * k + 4
  | .pipe => 4 * k + 3
  | .exec => 4 * k + 2

/-- The symbols that may follow a nonterminal. -/
def follow : Nonterminal → List Symbol
  | .line => [.rparen]
  | .pipe => [.rparen, .amp, .semi]
  | .exec => [.bar, .rparen, .amp, .semi]

section Parser

variable {l : Line} {s : Nat} {ts rest : List Token} {c : Cmd}

theorem startsWith_eq {x : Symbol} {toks : List UInt8} (h : startsWith toks ts = true)
    (hx : ∀ y : Symbol, y.char ∈ toks → y = x) : ∃ rest, ts = .sym x :: rest := by
  obtain ⟨y, rest, rfl, hy⟩ := startsWith_cases h
  exact ⟨rest, by rw [hx y hy]⟩

/-- What a function returns is a derivation of the tokens it has read. -/
def Yields (l : Line) (N : Nonterminal) (ts : List Token) (c : Cmd) (s' : Nat) : Prop :=
  ∃ pre rest, ts = pre ++ rest ∧ Derives N pre c ∧ l.At s' rest

/-- The functions with at most `n` calls. -/
def SoundBelow (l : Line) (n : Nat) : Prop :=
  ∀ m, m < n → ∀ N s ts, l.At s ts → calls ts.length N ≤ m →
    wp (parse l N m) (Yields l N ts) Halted s

theorem parseline_sound {n : Nat} (ih : SoundBelow l (n + 1)) (h : l.At s ts)
    (hn : calls ts.length .line ≤ n + 1) :
    wp (parseline l (n + 1)) (Yields l .line ts) Halted s := by
  simp only [calls] at hn
  rw [parseline, wp_bind]
  refine wp_post (ih n (Nat.lt_succ_self n) .pipe s ts h (by simp only [calls]; omega)) ?_
  rintro c1 s1 ⟨pre, ts1, rfl, hd1, h1⟩
  rw [length_append] at hn
  rw [wp_bind]
  refine wp_post (backLoop_sound h1 (by omega)) ?_
  rintro _ s2 ⟨k, ts2, rfl, rfl, h2⟩
  rw [length_append] at hn
  rw [wp_bind]
  refine wp_peek rfl h2 fun s3 h3 _ => ?_
  apply wp_ite
  · intro hpeek
    obtain ⟨ts3, rfl⟩ := startsWith_eq (x := .semi) hpeek (by intro y; cases y <;> decide)
    rw [wp_bind]
    refine wp_gettoken h3 fun _ _ s4 _ h4 => ?_
    rw [length_cons] at hn
    rw [wp_bind]
    refine wp_post (ih n (Nat.lt_succ_self n) .line s4 ts3 h4 (by simp only [calls]; omega)) ?_
    rintro c2 s5 ⟨pre2, rest, rfl, hd2, h5⟩
    refine ⟨pre ++ amps k ++ .sym .semi :: pre2, rest, ?_, hd1.list k hd2, h5⟩
    simp only [append_assoc, cons_append]
  · intro _
    exact ⟨pre ++ amps k, ts2, (append_assoc _ _ _).symm, hd1.line k, h3⟩

theorem parsepipe_sound {n : Nat} (ih : SoundBelow l (n + 1)) (h : l.At s ts)
    (hn : calls ts.length .pipe ≤ n + 1) :
    wp (parsepipe l (n + 1)) (Yields l .pipe ts) Halted s := by
  simp only [calls] at hn
  rw [parsepipe, wp_bind]
  refine wp_post (ih n (Nat.lt_succ_self n) .exec s ts h (by simp only [calls]; omega)) ?_
  rintro c1 s1 ⟨pre, ts1, rfl, hd1, h1⟩
  rw [length_append] at hn
  rw [wp_bind]
  refine wp_peek rfl h1 fun s2 h2 _ => ?_
  apply wp_ite
  · intro hpeek
    obtain ⟨ts2, rfl⟩ := startsWith_eq (x := .bar) hpeek (by intro y; cases y <;> decide)
    rw [wp_bind]
    refine wp_gettoken h2 fun _ _ s3 _ h3 => ?_
    rw [length_cons] at hn
    rw [wp_bind]
    refine wp_post (ih n (Nat.lt_succ_self n) .pipe s3 ts2 h3 (by simp only [calls]; omega)) ?_
    rintro c2 s4 ⟨pre2, rest, rfl, hd2, h4⟩
    refine ⟨pre ++ .sym .bar :: pre2, rest, ?_, hd1.pipe hd2, h4⟩
    simp only [append_assoc, cons_append]
  · intro _
    exact ⟨pre, ts1, rfl, hd1.exec, h2⟩

theorem parseblock_sound {n : Nat} (ih : SoundBelow l (n + 1))
    (h : l.At s (.sym .lparen :: ts)) (hn : 4 * ts.length + 4 ≤ n) :
    wp (parseblock l (n + 1)) (Yields l .exec (.sym .lparen :: ts)) Halted s := by
  rw [parseblock, wp_bind]
  refine wp_peek rfl h fun s1 h1 _ => ?_
  have hpeek : startsWith [ '('.toUInt8] (.sym .lparen :: ts) = true := rfl
  rw [if_pos hpeek, wp_bind]
  refine wp_gettoken h1 fun _ _ s2 _ h2 => ?_
  rw [wp_bind]
  refine wp_post (ih n (Nat.lt_succ_self n) .line s2 ts h2 (by simp only [calls]; omega)) ?_
  rintro c1 s3 ⟨pre, ts2, rfl, hd, h3⟩
  rw [length_append] at hn
  rw [wp_bind]
  refine wp_peek rfl h3 fun s4 h4 _ => ?_
  apply wp_ite
  · intro hclose
    obtain ⟨ts3, rfl⟩ := startsWith_eq (x := .rparen) hclose (by intro y; cases y <;> decide)
    rw [wp_bind]
    refine wp_gettoken h4 fun _ _ s5 _ h5 => ?_
    rw [length_cons] at hn
    refine wp_post (parseredirs_sound h5 (by omega)) ?_
    rintro _ s6 ⟨rs, rest, rfl, rfl, h6⟩
    refine ⟨_, rest, ?_, hd.block rs, h6⟩
    simp only [append_assoc, cons_append]
  · exact fun _ => Stop.noConfusion

theorem parseexec_sound {n : Nat} (ih : SoundBelow l (n + 1)) (h : l.At s ts)
    (hn : calls ts.length .exec ≤ n + 1) :
    wp (parseexec l (n + 1)) (Yields l .exec ts) Halted s := by
  simp only [calls] at hn
  rw [parseexec, wp_bind]
  refine wp_peek rfl h fun s1 h1 _ => ?_
  apply wp_ite
  · intro hpeek
    obtain ⟨ts1, rfl⟩ := startsWith_eq (x := .lparen) hpeek (by intro y; cases y <;> decide)
    rw [length_cons] at hn
    obtain ⟨n, rfl⟩ : ∃ m, n = m + 1 := ⟨n - 1, by omega⟩
    exact parseblock_sound (fun m hm => ih m (by omega)) h1 (by omega)
  · intro _
    rw [wp_bind]
    refine wp_post (parseredirs_sound h1 (by omega)) ?_
    rintro _ s2 ⟨rs, ts1, rfl, rfl, h2⟩
    rw [length_append] at hn
    have hnone : ([] : List (Nat × Nat)).length < maxargs := by decide
    refine wp_post (argLoop_sound h2 (by omega) hnone) ?_
    rintro _ s3 ⟨as, rest, rfl, has, rfl, h3⟩
    rw [length_nil, Nat.zero_add] at has
    exact ⟨_, rest, (append_assoc _ _ _).symm, Derives.args rs as has, h3⟩

/-- **Soundness**: a tree that is returned is the tree of a derivation. -/
theorem parse_sound {n : Nat} {N : Nonterminal} (h : l.At s ts) (hn : calls ts.length N ≤ n) :
    wp (parse l N n) (Yields l N ts) Halted s := by
  induction n using Nat.strong_induction_on generalizing N s ts with
  | _ n ih =>
    have hbelow : SoundBelow l n := fun m hm N s ts h hn => ih m hm h hn
    cases n with
    | zero =>
      cases N <;> simp only [calls] at hn <;> omega
    | succ n =>
      cases N with
      | line => exact parseline_sound hbelow h hn
      | pipe => exact parsepipe_sound hbelow h hn
      | exec => exact parseexec_sound hbelow h hn

/-- **Completeness**: the tokens of a derivation are read, and no more, if what follows them cannot
continue it. -/
theorem parse_complete {N : Nonterminal} {n : Nat} {E : Stop → Nat → Prop}
    (hd : Derives N ts c) (h : l.At s (ts ++ rest)) (hrest : Follow (follow N) rest)
    (hn : calls (ts ++ rest).length N ≤ n) :
    wp (parse l N n) (fun c' s' => c' = c ∧ l.At s' rest) E s := by
  -- by induction on the derivation
  induction hd generalizing s rest n with
  | @line ts c k hd ih =>
    simp only [calls] at hn
    obtain ⟨n, rfl⟩ : ∃ m, n = m + 1 := ⟨n - 1, by omega⟩
    rw [append_assoc] at h hn
    have hk : Follow (follow .pipe) (amps k ++ rest) := by
      cases k with
      | zero => exact hrest.mono (by decide)
      | succ k => exact Follow.cons (by decide) _
    rw [parse, parseline, wp_bind]
    refine wp_post (ih h hk (by simp only [calls]; omega)) ?_
    rintro _ s1 ⟨rfl, h1⟩
    rw [length_append, length_append, amps, List.length_replicate] at hn
    rw [wp_bind]
    refine wp_post (backLoop_complete h1 (by omega) (hrest.startsWith (by decide))) ?_
    rintro _ s2 ⟨rfl, h2⟩
    rw [wp_bind]
    refine wp_peek rfl h2 fun s3 h3 _ => ?_
    rw [hrest.startsWith (by decide), if_neg (by decide)]
    exact ⟨rfl, h3⟩
  | @list ts c ts' c' k hd hd' ih ih' =>
    simp only [calls] at hn
    obtain ⟨n, rfl⟩ : ∃ m, n = m + 1 := ⟨n - 1, by omega⟩
    rw [append_assoc, append_assoc, cons_append] at h hn
    have hk : Follow (follow .pipe) (amps k ++ .sym .semi :: (ts' ++ rest)) := by
      cases k with
      | zero => exact Follow.cons (by decide) _
      | succ k => exact Follow.cons (by decide) _
    rw [parse, parseline, wp_bind]
    refine wp_post (ih h hk (by simp only [calls]; omega)) ?_
    rintro _ s1 ⟨rfl, h1⟩
    rw [length_append, length_append, length_cons, amps,
      List.length_replicate] at hn
    rw [wp_bind]
    refine wp_post (backLoop_complete h1 (by omega) rfl) ?_
    rintro _ s2 ⟨rfl, h2⟩
    rw [wp_bind]
    refine wp_peek rfl h2 fun s3 h3 _ => ?_
    rw [if_pos (by rfl), wp_bind]
    refine wp_gettoken h3 fun _ _ s4 _ h4 => ?_
    rw [wp_bind]
    refine wp_post (ih' h4 hrest (by simp only [calls]; omega)) ?_
    rintro _ s5 ⟨rfl, h5⟩
    exact ⟨rfl, h5⟩
  | @exec ts c hd ih =>
    simp only [calls] at hn
    obtain ⟨n, rfl⟩ : ∃ m, n = m + 1 := ⟨n - 1, by omega⟩
    rw [parse, parsepipe, wp_bind]
    refine wp_post (ih h (hrest.mono (by decide)) (by simp only [calls]; omega)) ?_
    rintro _ s1 ⟨rfl, h1⟩
    rw [wp_bind]
    refine wp_peek rfl h1 fun s2 h2 _ => ?_
    rw [hrest.startsWith (by decide), if_neg (by decide)]
    exact ⟨rfl, h2⟩
  | @pipe ts c ts' c' hd hd' ih ih' =>
    simp only [calls] at hn
    obtain ⟨n, rfl⟩ : ∃ m, n = m + 1 := ⟨n - 1, by omega⟩
    rw [append_assoc, cons_append] at h hn
    rw [parse, parsepipe, wp_bind]
    refine wp_post (ih h (Follow.cons (by decide) _) (by simp only [calls]; omega)) ?_
    rintro _ s1 ⟨rfl, h1⟩
    rw [length_append, length_cons] at hn
    rw [wp_bind]
    refine wp_peek rfl h1 fun s2 h2 _ => ?_
    rw [if_pos (by rfl), wp_bind]
    refine wp_gettoken h2 fun _ _ s3 _ h3 => ?_
    rw [wp_bind]
    refine wp_post (ih' h3 hrest (by simp only [calls]; omega)) ?_
    rintro _ s4 ⟨rfl, h4⟩
    exact ⟨rfl, h4⟩
  | @block ts c rs hd ih =>
    simp only [calls] at hn
    rw [append_assoc, cons_append, cons_append] at h hn
    rw [length_cons] at hn
    obtain ⟨n, rfl⟩ : ∃ m, n = m + 2 := ⟨n - 2, by omega⟩
    have hpeek : startsWith [ '('.toUInt8]
        (.sym .lparen :: (ts ++ .sym .rparen :: (redirTokens rs ++ rest))) = true := rfl
    rw [parse, parseexec, wp_bind]
    refine wp_peek rfl h fun s1 h1 _ => ?_
    rw [if_pos hpeek, parseblock, wp_bind]
    refine wp_peek rfl h1 fun s2 h2 _ => ?_
    rw [if_pos hpeek, wp_bind]
    refine wp_gettoken h2 fun _ _ s3 _ h3 => ?_
    rw [wp_bind]
    refine wp_post (ih h3 (Follow.cons (by decide) _) (by simp only [calls]; omega)) ?_
    rintro _ s4 ⟨rfl, h4⟩
    rw [wp_bind]
    refine wp_peek rfl h4 fun s5 h5 _ => ?_
    rw [if_pos (by rfl), wp_bind]
    refine wp_gettoken h5 fun _ _ s6 _ h6 => ?_
    rw [length_append, length_cons, length_append, length_redirTokens] at hn
    exact parseredirs_complete h6 (by omega) (hrest.startsWith (by decide))
  | args rs as has =>
    simp only [calls] at hn
    obtain ⟨n, rfl⟩ : ∃ m, n = m + 1 := ⟨n - 1, by omega⟩
    rw [append_assoc] at h hn
    rw [length_append, length_redirTokens] at hn
    have hopen : startsWith [ '('.toUInt8] (redirTokens rs ++ (argTokens as ++ rest)) = false := by
      rcases rs with _ | ⟨⟨op, file, efile, rfl | rfl | rfl⟩, rs⟩
      · cases as with
        | nil => exact hrest.startsWith (by decide)
        | cons a as => rfl
      all_goals rfl
    rw [parse, parseexec, wp_bind]
    refine wp_peek rfl h fun s1 h1 _ => ?_
    rw [hopen, if_neg (by decide), wp_bind]
    refine wp_post (parseredirs_complete h1 (by omega) (startsWith_argTokens hrest)) ?_
    rintro _ s2 ⟨rfl, h2⟩
    have hnone : ([] : List (Nat × Nat)).length + as.length < maxargs := by
      rw [length_nil, Nat.zero_add]
      exact has
    exact argLoop_complete h2 (by omega) hrest hnone

/-- **`parsecmd`** before `nulterminate`: the tree of the whole line, or a syntax error. -/
theorem parsecmdTree_sound (l : Line) :
    wp (parsecmdTree l) (fun c _ => Derives .line (lex 0 l.chars) c) Halted 0 := by
  have hcalls : calls (lex 0 l.chars).length .line ≤ 4 * l.es + 4 := by
    have := length_lex_le 0 l.chars
    simp only [calls, Line.es]
    omega
  rw [parsecmdTree, wp_bind]
  refine wp_post (parse_sound (N := .line) ⟨Nat.zero_le _, by rw [drop_zero]⟩ hcalls) ?_
  rintro c s1 ⟨pre, rest, hts, hd, h1⟩
  rw [wp_bind]
  refine wp_peek rfl h1 fun s2 h2 hes => ?_
  rw [wp_bind, wp_get]
  apply wp_ite
  · exact fun _ => Stop.noConfusion
  · intro hend
    rw [hes.mp (not_not.mp hend), append_nil] at hts
    rw [hts]
    exact hd

theorem parsecmdTree_complete {E : Stop → Nat → Prop} (hd : Derives .line (lex 0 l.chars) c) :
    wp (parsecmdTree l) (fun c' _ => c' = c) E 0 := by
  have hcalls : calls (lex 0 l.chars ++ []).length .line ≤ 4 * l.es + 4 := by
    have := length_lex_le 0 l.chars
    rw [append_nil]
    simp only [calls, Line.es]
    omega
  have hstart : l.At 0 (lex 0 l.chars ++ []) :=
    ⟨Nat.zero_le _, by rw [drop_zero, append_nil]⟩
  rw [parsecmdTree, wp_bind]
  refine wp_post (parse_complete hd hstart (.inl rfl) hcalls) ?_
  rintro _ s1 ⟨rfl, h1⟩
  rw [wp_bind]
  refine wp_peek rfl h1 fun s2 h2 hes => ?_
  rw [wp_bind, wp_get, if_neg (not_not.mpr (hes.mpr rfl))]
  rfl

end Parser

/-! ## The words in memory -/

/-- The arguments and the files of a command. -/
def Cmd.words : Cmd → List (Nat × Nat)
  | exec argv => argv
  | redir cmd file efile _ _ => (file, efile) :: cmd.words
  | pipe left right | list left right => left.words ++ right.words
  | back cmd => cmd.words

/-- The C string at a position of the buffer. -/
def cString (buf : List UInt8) (q : Nat) : List UInt8 := (buf.drop q).takeWhile (· != 0)

/-- The characters of a range of the line. -/
def Line.text (l : Line) (q e : Nat) : List UInt8 := (l.chars.drop q).take (e - q)

section Words

variable {l : Line} {ts : List Token} {c : Cmd}

theorem mem_words_backs {w : Nat × Nat} (k : Nat) : w ∈ (backs k c).words ↔ w ∈ c.words := by
  induction k generalizing c with
  | zero => exact Iff.rfl
  | succ k ih => exact ih (c := .back c)

theorem mem_words_wrap {w : Nat × Nat} {rs : List Redir} :
    w ∈ (wrap c rs).words ↔ w ∈ c.words ∨ ∃ r ∈ rs, w = (r.file, r.efile) := by
  induction rs generalizing c with
  | nil => simp [wrap]
  | cons r rs ih =>
    have hstep : wrap c (r :: rs) = wrap (redirect c (.sym r.op) r.file r.efile) rs := rfl
    have hwords : w ∈ (redirect c (.sym r.op) r.file r.efile).words ↔
        w = (r.file, r.efile) ∨ w ∈ c.words := by
      obtain ⟨op, file, efile, rfl | rfl | rfl⟩ := r <;> exact mem_cons
    rw [hstep, ih, hwords]
    simp only [mem_cons, exists_eq_or_imp]
    tauto

theorem mem_redirTokens {r : Redir} {rs : List Redir} (h : r ∈ rs) :
    .word r.file r.efile ∈ redirTokens rs := by
  induction rs with
  | nil => cases h
  | cons r' rs ih =>
    rcases mem_cons.mp h with rfl | h
    · exact mem_cons_of_mem _ List.mem_cons_self
    · exact mem_cons_of_mem _ (mem_cons_of_mem _ (ih h))

theorem mem_argTokens {a : Arg} {as : List Arg} (h : a ∈ as) :
    .word a.word.1 a.word.2 ∈ argTokens as ∧ ∀ t ∈ redirTokens a.redirs, t ∈ argTokens as := by
  induction as with
  | nil => cases h
  | cons a' as ih =>
    rw [argTokens]
    rcases mem_cons.mp h with rfl | h
    · exact ⟨List.mem_cons_self, fun t ht =>
        mem_cons_of_mem _ (mem_append_left _ ht)⟩
    · obtain ⟨hw, hr⟩ := ih h
      exact ⟨mem_cons_of_mem _ (mem_append_right _ hw),
        fun t ht => mem_cons_of_mem _ (mem_append_right _ (hr t ht))⟩

theorem Derives.mem_words {N : Nonterminal} (hd : Derives N ts c) {w : Nat × Nat}
    (hw : w ∈ c.words) : .word w.1 w.2 ∈ ts := by
  induction hd with
  | line k hd ih => exact mem_append_left _ (ih ((mem_words_backs k).mp hw))
  | list k hd hd' ih ih' =>
    rw [Cmd.words, mem_append, mem_words_backs] at hw
    rcases hw with hw | hw
    · exact mem_append_left _ (mem_append_left _ (ih hw))
    · exact mem_append_right _ (mem_cons_of_mem _ (ih' hw))
  | exec hd ih => exact ih hw
  | pipe hd hd' ih ih' =>
    rw [Cmd.words, mem_append] at hw
    rcases hw with hw | hw
    · exact mem_append_left _ (ih hw)
    · exact mem_append_right _ (mem_cons_of_mem _ (ih' hw))
  | block rs hd ih =>
    rcases mem_words_wrap.mp hw with hw | ⟨r, hr, rfl⟩
    · exact mem_append_left _ (mem_cons_of_mem _ (ih hw))
    · exact mem_append_right _ (mem_cons_of_mem _ (mem_redirTokens hr))
  | args rs as has =>
    rcases mem_words_wrap.mp hw with hw | ⟨r, hr, rfl⟩
    · obtain ⟨a, ha, rfl⟩ := List.mem_map.mp hw
      exact mem_append_right _ (mem_argTokens ha).1
    · rcases mem_append.mp hr with hr | hr
      · exact mem_append_left _ (mem_redirTokens hr)
      · obtain ⟨a, ha, hr⟩ := List.mem_flatMap.mp hr
        exact mem_append_right _ ((mem_argTokens ha).2 _ (mem_redirTokens hr))

theorem getD_set_zero (buf : List UInt8) (e i : Nat) :
    (buf.set e 0).getD i 0 = if e = i then 0 else buf.getD i 0 := by
  rw [List.getD_eq_getElem?_getD, List.getD_eq_getElem?_getD, List.getElem?_set]
  split_ifs <;> rfl

/-- **`nulterminate`** writes a zero behind every word, and nothing else. -/
theorem nulterminate_getD (c : Cmd) (buf : List UInt8) (i : Nat) :
    (nulterminate c buf).getD i 0 = if i ∈ c.words.map Prod.snd then 0 else buf.getD i 0 := by
  induction c generalizing buf with
  | exec argv =>
    rw [nulterminate, Cmd.words]
    induction argv generalizing buf with
    | nil => rfl
    | cons arg argv ih =>
      rw [List.foldl_cons, ih, getD_set_zero, map_cons, ← ite_or]
      exact if_congr (or_comm.trans (by rw [mem_cons, eq_comm])) rfl rfl
  | redir cmd file efile mode fd ih =>
    rw [nulterminate, getD_set_zero, ih, Cmd.words, map_cons, ← ite_or]
    exact if_congr (by rw [mem_cons, eq_comm]) rfl rfl
  | pipe left right ihl ihr =>
    rw [nulterminate, ihr, ihl, Cmd.words, List.map_append, ← ite_or]
    exact if_congr (or_comm.trans mem_append.symm) rfl rfl
  | list left right ihl ihr =>
    rw [nulterminate, ihr, ihl, Cmd.words, List.map_append, ← ite_or]
    exact if_congr (or_comm.trans mem_append.symm) rfl rfl
  | back cmd ih => exact ih buf

theorem length_nulterminate (c : Cmd) (buf : List UInt8) :
    (nulterminate c buf).length = buf.length := by
  induction c generalizing buf with
  | exec argv =>
    rw [nulterminate]
    induction argv generalizing buf with
    | nil => rfl
    | cons arg argv ih => rw [List.foldl_cons, ih, List.length_set]
  | redir cmd file efile mode fd ih => rw [nulterminate, List.length_set, ih]
  | pipe left right ihl ihr => rw [nulterminate, ihr, ihl]
  | list left right ihl ihr => rw [nulterminate, ihr, ihl]
  | back cmd ih => exact ih buf

theorem cString_eq {buf str : List UInt8} {q : Nat} (hlen : q + str.length < buf.length)
    (hstr : ∀ k, k < str.length → buf.getD (q + k) 0 = str.getD k 0) (hne : 0 ∉ str)
    (hend : buf.getD (q + str.length) 0 = 0) : cString buf q = str := by
  induction str generalizing q with
  | nil =>
    rw [length_nil, Nat.add_zero] at hlen hend
    rw [getD_eq_getElem _ _ hlen] at hend
    rw [cString, List.drop_eq_getElem_cons hlen, hend]
    rfl
  | cons c str ih =>
    rw [length_cons] at hlen hend hstr
    have hq : q < buf.length := by omega
    have hc := hstr 0 (Nat.succ_pos _)
    rw [Nat.add_zero, getD_eq_getElem _ _ hq, List.getD_cons_zero] at hc
    rw [mem_cons, not_or] at hne
    have hrest := ih (q := q + 1) (by omega) (fun k hk => ?_) hne.2 ?_
    · have hcne : (c != 0) = true := bne_iff_ne.mpr (Ne.symm hne.1)
      rw [cString, List.drop_eq_getElem_cons hq, hc, List.takeWhile_cons, if_pos hcne]
      exact congrArg (c :: ·) hrest
    · have := hstr (k + 1) (Nat.succ_lt_succ hk)
      rwa [List.getD_cons_succ, ← Nat.add_assoc, Nat.add_right_comm] at this
    · rwa [← Nat.add_assoc, Nat.add_right_comm] at hend

theorem Line.length_text {q e : Nat} (h : l.IsWord q e) : (l.text q e).length = e - q := by
  have hle := h.le
  rw [Line.es] at hle
  rw [Line.text, List.length_take, List.length_drop]
  omega

theorem Line.text_getD {q e k : Nat} (h : l.IsWord q e) (hk : k < e - q) :
    (l.text q e).getD k 0 = l.char (q + k) := by
  have hle := h.le
  rw [Line.es] at hle
  rw [getD_eq_getElem _ _ (by rw [Line.length_text h]; exact hk), Line.char,
    getD_eq_getElem _ _ (by omega)]
  simp only [Line.text, List.getElem_take, List.getElem_drop]

/-- **The words are C strings** after `nulterminate`: a zero is written behind each word, and never
into one. -/
theorem nulterminate_cString (hwords : ∀ w ∈ c.words, l.IsWord w.1 w.2) {w : Nat × Nat}
    (hw : w ∈ c.words) : cString (nulterminate c (l.chars ++ [0])) w.1 = l.text w.1 w.2 := by
  have hword := hwords w hw
  have hlt := hword.lt
  have hle := hword.le
  have hlen := Line.length_text hword
  rw [Line.es] at hle
  apply cString_eq
  · rw [length_nulterminate, length_append, List.length_singleton, hlen]
    omega
  · intro k hk
    rw [hlen] at hk
    have hchar := hword.chars (w.1 + k) (by omega) (by omega)
    have hnot : w.1 + k ∉ c.words.map Prod.snd := by
      intro hmem
      obtain ⟨w', hw', heq⟩ := List.mem_map.mp hmem
      rcases (hwords w' hw').stop with hend | hstop
      · rw [Line.es] at hend
        omega
      · rw [heq, hchar] at hstop
        cases hstop
    rw [nulterminate_getD, if_neg hnot, Line.text_getD hword hk,
      List.getD_append _ _ _ _ (by omega), Line.char]
  · exact fun h0 => l.nonzero (List.mem_of_mem_drop (List.mem_of_mem_take h0))
  · have hmem : w.1 + (l.text w.1 w.2).length ∈ c.words.map Prod.snd := by
      rw [hlen, Nat.add_sub_cancel' hlt.le]
      exact List.mem_map_of_mem hw
    rw [nulterminate_getD, if_pos hmem]

end Words

/-- **The parser accepts its grammar.**  For every line `parsecmd` returns a tree iff the tokens
derive `line` with this tree; otherwise it ends with a syntax error, and never for want of calls.
Every argument and file of the tree is a word of the line, and the C string there is this word. -/
theorem parsecmd_accepts (l : Line) :
    (∀ c, (∃ buf, parsecmd l = .ok (c, buf)) ↔ Derives .line (lex 0 l.chars) c) ∧
    ((¬∃ c, Derives .line (lex 0 l.chars) c) → ∃ e, parsecmd l = .error e ∧ e ≠ .calls) ∧
    ∀ c buf, parsecmd l = .ok (c, buf) → ∀ w ∈ c.words,
      .word w.1 w.2 ∈ lex 0 l.chars ∧ w.2 < buf.length ∧ cString buf w.1 = l.text w.1 w.2 := by
  have hsound := parsecmdTree_sound l
  cases hrun : parsecmdTree l 0 with
  | ok c s =>
    have hparse : parsecmd l = .ok (c, nulterminate c (l.chars ++ [0])) := by
      rw [parsecmd, hrun]
    have hd := (wp_ok hrun).mp hsound
    refine ⟨fun c' => ⟨?_, fun hd' => ?_⟩, fun hnone => absurd ⟨c, hd⟩ hnone, ?_⟩
    · rintro ⟨buf, hok⟩
      rw [hparse] at hok
      obtain ⟨rfl, -⟩ := Prod.mk.inj (Except.ok.inj hok)
      exact hd
    · have hcomplete := parsecmdTree_complete (E := fun _ _ => False) hd'
      rw [← (wp_ok hrun).mp hcomplete]
      exact ⟨_, hparse⟩
    · intro c' buf hok w hw
      rw [hparse] at hok
      obtain ⟨rfl, rfl⟩ := Prod.mk.inj (Except.ok.inj hok)
      have hstart : l.At 0 (lex 0 l.chars) := ⟨Nat.zero_le _, by rw [drop_zero]⟩
      have hwords : ∀ w ∈ c.words, l.IsWord w.1 w.2 := fun w hw => hstart.isWord (hd.mem_words hw)
      refine ⟨hd.mem_words hw, ?_, nulterminate_cString hwords hw⟩
      have hle := (hwords w hw).le
      rw [length_nulterminate, length_append, List.length_singleton]
      exact Nat.lt_succ_of_le hle
  | error e s =>
    have hparse : parsecmd l = .error e := by rw [parsecmd, hrun]
    have hnone : ∀ c, ¬Derives .line (lex 0 l.chars) c := fun c hd =>
      (wp_error hrun).mp (parsecmdTree_complete (E := fun _ _ => False) hd)
    refine ⟨fun c => ⟨?_, fun hd => absurd hd (hnone c)⟩, fun _ => ?_, ?_⟩
    · rintro ⟨buf, hok⟩
      rw [hparse] at hok
      cases hok
    · exact ⟨e, hparse, (wp_error hrun).mp hsound⟩
    · intro c buf hok
      rw [hparse] at hok
      cases hok

end Shell

end Xv6Paging
