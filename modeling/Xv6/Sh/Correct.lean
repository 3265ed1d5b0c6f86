import Xv6.Sh.Grammar
import Xv6.Sh.Lexer

/-!
# The shell parses its grammar

What the parser accepts is derived by the grammar, and what the grammar derives is accepted. `Safe`
is for the first direction: the parser comes to an end, and if it does not panic it has read a part
of the tokens that has a derivation. `Takes` is for the second: tokens that have one, in front of
others that can follow, are read. With enough depth the parser always comes to an end, so the second
can leave open that it does not.

Strings are not copied. `nulterminate` writes NULs into the line, where words end, and those places
are in no word.

## Main results

* `parsecmd_derives` — the parser accepts exactly its grammar
* `nulterminate_exact` — words are what they were
-/

namespace Xv6.Sh

open List

variable {buf : List UInt8} {α β : Type} {cmd : Cmd} {cs : List Char} {r : Res α} {t : Tok}
  {k s : ℕ}

/-! ### What the parser reads -/

/-- The parser comes to an end, and if it does not panic, then with `P` of the result and of the
tokens that are left. -/
def Safe (buf : List UInt8) (P : α → List Tok → Prop) : Res α → Prop
  | .ok a s => ∃ ts, At buf s ts ∧ P a ts
  | .panic _ => True
  | .deep => False

theorem Safe.bind {P : α → List Tok → Prop} {Q : β → List Tok → Prop} {f : α → ℕ → Res β}
    (h : Safe buf P r) (hf : ∀ a s ts, At buf s ts → P a ts → Safe buf Q (f a s)) :
    Safe buf Q (r.bind f) := by
  cases r with
  | ok a s =>
    obtain ⟨ts, hts, ha⟩ := h
    exact hf a s ts hts ha
  | panic msg => trivial
  | deep => exact h.elim

theorem Safe.mono {P Q : α → List Tok → Prop} (h : Safe buf P r) (hPQ : ∀ a ts, P a ts → Q a ts) :
    Safe buf Q r := by
  cases r with
  | ok a s =>
    obtain ⟨ts, hts, ha⟩ := h
    exact ⟨ts, hts, hPQ a ts ha⟩
  | panic msg => trivial
  | deep => exact h.elim

/-- The tokens are read with this result, unless the calls are too deep. -/
def Takes (buf : List UInt8) (a : α) (ts : List Tok) (r : Res α) : Prop :=
  r = .deep ∨ ∃ s, r = .ok a s ∧ At buf s ts

theorem Takes.bind {a : α} {b : β} {ts ts' : List Tok} {f : α → ℕ → Res β} (h : Takes buf a ts r)
    (hf : ∀ s, At buf s ts → Takes buf b ts' (f a s)) :
    Takes buf b ts' (r.bind f) := by
  rcases h with rfl | ⟨s, rfl, hs⟩
  · exact Or.inl rfl
  · exact hf s hs

/-! ### Peeking -/

theorem ret_ne_zero (t : Tok) : t.ret ≠ 0 := by
  cases t with
  | word q eq => exact show 'a'.toUInt8 ≠ 0 by decide
  | _ => decide

theorem ret_word (q eq : ℕ) : (Tok.word q eq).ret = 'a'.toUInt8 := rfl

theorem ret_eq_word (h : t.ret = 'a'.toUInt8) : ∃ q eq, t = .word q eq := by
  cases t <;> first | exact ⟨_, _, rfl⟩ | exact absurd h (by decide)

/-- There is a token that starts with one of the symbols. -/
def Peeks (cs : List Char) (ts : List Tok) : Prop := ∃ t ∈ ts.head?, ∃ c ∈ cs, t.first = some c

section Peek

variable (hnul : 0 ∉ buf) {s : ℕ} {ts : List Tok}

include hnul

theorem peek_true (hcs : ∀ c ∈ cs, c ∈ ['<', '|', '>', '&', ';', '(', ')']) (h : At buf s ts)
    (hts : Peeks cs ts) :
    (peek buf cs s).1 = true ∧ At buf (peek buf cs s).2 ts := by
  obtain ⟨hiff, hat⟩ := peek_eq hnul cs hcs h
  exact ⟨hiff.mpr hts, hat⟩

theorem peek_false (hcs : ∀ c ∈ cs, c ∈ ['<', '|', '>', '&', ';', '(', ')']) (h : At buf s ts)
    (hts : ¬Peeks cs ts) :
    ¬(peek buf cs s).1 = true ∧ At buf (peek buf cs s).2 ts := by
  obtain ⟨hiff, hat⟩ := peek_eq hnul cs hcs h
  exact ⟨mt hiff.mp hts, hat⟩

end Peek

variable {ts : List Tok} {k s : ℕ}

theorem Peeks.cons {c : Char} (ht : t.first = some c) (hc : c ∈ cs) : Peeks cs (t :: ts) :=
  ⟨t, rfl, c, hc, ht⟩

/-- The symbol is this token, and starts no other. -/
def Tok.Is (t : Tok) (c : Char) : Prop :=
  c ∈ ['<', '|', '>', '&', ';', '(', ')'] ∧ ∀ u : Tok, u.first = some c ↔ u = t

theorem amp_is : Tok.amp.Is '&' := ⟨by decide, by rintro (_ | _) <;> simp [Tok.first]⟩

theorem semi_is : Tok.semi.Is ';' := ⟨by decide, by rintro (_ | _) <;> simp [Tok.first]⟩

theorem bar_is : Tok.bar.Is '|' := ⟨by decide, by rintro (_ | _) <;> simp [Tok.first]⟩

theorem lpar_is : Tok.lpar.Is '(' := ⟨by decide, by rintro (_ | _) <;> simp [Tok.first]⟩
theorem rpar_is : Tok.rpar.Is ')' := ⟨by decide, by rintro (_ | _) <;> simp [Tok.first]⟩

section Symbol

variable (hnul : 0 ∉ buf) {c : Char} {t : Tok} (ht : t.Is c)

include hnul ht

theorem peek_cons (h : At buf s (t :: ts)) :
    (peek buf [c] s).1 = true ∧ At buf (gettoken buf (peek buf [c] s).2).next ts := by
  obtain ⟨htrue, hat⟩ := peek_true hnul (by simpa using ht.1) h
    (Peeks.cons ((ht.2 t).mpr rfl) (mem_singleton_self c))
  obtain ⟨-, hnext, -⟩ := gettoken_cons hnul hat
  exact ⟨htrue, hnext⟩

theorem peek_ne (h : At buf s ts) (hts : Starts (· ≠ t) ts) :
    ¬(peek buf [c] s).1 = true ∧ At buf (peek buf [c] s).2 ts := by
  refine peek_false hnul (by simpa using ht.1) h ?_
  rintro ⟨u, hu, c', hc', hfirst⟩
  rw [mem_singleton.mp hc'] at hfirst
  exact hts u hu ((ht.2 u).mp hfirst)

theorem peek_cases (h : At buf s ts) : (∃ ts', ts = t :: ts' ∧ (peek buf [c] s).1 = true ∧
      At buf (gettoken buf (peek buf [c] s).2).next ts') ∨
    ¬(peek buf [c] s).1 = true ∧ At buf (peek buf [c] s).2 ts := by
  by_cases hts : Starts (· ≠ t) ts
  · exact Or.inr (peek_ne hnul ht h hts)
  · obtain ⟨u, hu, rfl⟩ : ∃ u ∈ ts.head?, u = t := by simpa [Starts] using hts
    obtain ⟨ts', rfl⟩ := head?_eq_some_iff.mp hu
    exact Or.inl ⟨ts', rfl, peek_cons hnul ht h⟩

end Symbol

theorem Peeks.eq_op (h : Peeks ['<', '>'] ts) :
    ∃ (op : Op) (ts' : List Tok), ts = op.tok :: ts' := by
  obtain ⟨t, ht, c, hc, hfirst⟩ := h
  cases ts with
  | nil => cases ht
  | cons u ts =>
    obtain rfl : u = t := Option.some.inj ht
    cases u with
    | lt => exact ⟨.lt, ts, rfl⟩
    | gt => exact ⟨.gt, ts, rfl⟩
    | gtgt => exact ⟨.gtgt, ts, rfl⟩
    | word q eq => cases hfirst
    | _ =>
      obtain rfl := Option.some.inj hfirst
      exact absurd hc (by decide)

theorem peeks_op (op : Op) (ts : List Tok) : Peeks ['<', '>'] (op.tok :: ts) := by
  cases op with
  | lt => exact Peeks.cons rfl (by decide)
  | gt => exact Peeks.cons rfl (by decide)
  | gtgt => exact Peeks.cons rfl (by decide)

theorem not_peeks_op (h : Starts Tok.NotOp ts) : ¬Peeks ['<', '>'] ts := by
  intro hpeeks
  obtain ⟨op, ts', rfl⟩ := hpeeks.eq_op
  exact h.head op rfl

theorem around_eq (cmd : Cmd) (op : Op) (q eq : ℕ) :
    (if op.tok.ret = '<'.toUInt8 then Cmd.redir cmd q eq oRdonly 0
      else if op.tok.ret = '>'.toUInt8 then Cmd.redir cmd q eq oWronlyCreate 1
      else if op.tok.ret = '+'.toUInt8 then Cmd.redir cmd q eq oWronlyCreate 1
      else cmd) = Redir.around cmd ⟨op, (q, eq)⟩ := by
  cases op <;> rfl

/-- A word, and what is behind it, are put on a command. -/
def Arg.onto (ret : Cmd) (a : Arg) : Cmd := a.redirs.foldl Redir.around (ret.addArg a.word)

theorem addArg_around (cmd : Cmd) (r : Redir) (w : ℕ × ℕ) :
    (r.around cmd).addArg w = r.around (cmd.addArg w) := by
  obtain ⟨op, file⟩ := r
  cases op <;> rfl

theorem addArg_foldl (rs : List Redir) (cmd : Cmd) (w : ℕ × ℕ) :
    (rs.foldl Redir.around cmd).addArg w = rs.foldl Redir.around (cmd.addArg w) := by
  induction rs generalizing cmd with
  | nil => rfl
  | cons r rs ih =>
    rw [foldl_cons, foldl_cons, ih, addArg_around]

/-- **The words are in order, and the redirections are around the command in order.** -/
theorem foldl_onto (args : List Arg) (rs : List Redir) (argv : List (ℕ × ℕ)) :
    args.foldl Arg.onto (rs.foldl Redir.around (.exec argv)) =
      (rs ++ args.flatMap Arg.redirs).foldl Redir.around (.exec (argv ++ args.map Arg.word)) := by
  induction args generalizing rs argv with
  | nil => simp
  | cons a args ih =>
    rw [foldl_cons, Arg.onto, addArg_foldl, ← foldl_append, Cmd.addArg, ih]
    simp

/-! ### What is accepted has a derivation -/

section Sound

variable (hnul : 0 ∉ buf)

include hnul

theorem parseamps_safe (h : At buf s ts) (hk : ts.length < k) :
    Safe buf (fun c ts' => ∃ n, ts = List.replicate n .amp ++ ts' ∧ c = Cmd.back^[n] cmd)
      (parseamps buf k cmd s) := by
  induction k generalizing s cmd ts with
  | zero => exact absurd hk (Nat.not_lt_zero _)
  | succ k ih =>
    rw [parseamps]
    rcases peek_cases hnul amp_is h with ⟨ts, rfl, htrue, hnext⟩ | ⟨hfalse, hat⟩
    · rw [if_pos htrue]
      refine (ih hnext (by simpa using hk)).mono ?_
      rintro c ts' ⟨n, rfl, rfl⟩
      exact ⟨n + 1, rfl, rfl⟩
    · rw [if_neg hfalse]
      exact ⟨ts, hat, 0, rfl, rfl⟩

theorem parseredirs_safe (h : At buf s ts) (hk : ts.length < k) :
    Safe buf (fun c ts' => ∃ rs : List Redir, ts = rs.flatMap Redir.yield ++ ts' ∧
      c = rs.foldl Redir.around cmd) (parseredirs buf k cmd s) := by
  induction k generalizing s cmd ts with
  | zero => exact absurd hk (Nat.not_lt_zero _)
  | succ k ih =>
    rw [parseredirs]
    by_cases hpeek : Peeks ['<', '>'] ts
    · obtain ⟨op, ts, rfl⟩ := hpeek.eq_op
      obtain ⟨htrue, hat⟩ := peek_true hnul (by decide) h hpeek
      obtain ⟨hret, hnext, -⟩ := gettoken_cons hnul hat
      dsimp only
      rw [if_pos htrue, hret]
      split
      next => trivial
      next hword =>
        -- Behind the operator is a token, and it is a word.
        cases ts with
        | nil =>
          rw [(gettoken_nil hnul hnext).1] at hword
          exact absurd hword (by decide)
        | cons t ts =>
          obtain ⟨hret', hnext', hpos⟩ := gettoken_cons hnul hnext
          rw [hret', not_not] at hword
          obtain ⟨q, eq, rfl⟩ := ret_eq_word hword
          obtain ⟨hq, heq⟩ := hpos q eq rfl
          rw [hq, heq, around_eq]
          refine (ih hnext' (by simp at hk; omega)).mono ?_
          rintro c ts' ⟨rs, rfl, rfl⟩
          exact ⟨⟨op, (q, eq)⟩ :: rs, rfl, rfl⟩
    · obtain ⟨hfalse, hat⟩ := peek_false hnul (by decide) h hpeek
      rw [if_neg hfalse]
      exact ⟨ts, hat, [], rfl, rfl⟩

theorem parseargs_safe {argc : ℕ} {ret : Cmd} (h : At buf s ts) (hk : ts.length < k)
    (hargc : argc < maxargs) :
    Safe buf (fun c ts' => ∃ args : List Arg, ts = args.flatMap Arg.yield ++ ts' ∧
      c = args.foldl Arg.onto ret ∧ argc + args.length < maxargs) (parseargs buf k ret argc s) := by
  induction k generalizing s argc ret ts with
  | zero => exact absurd hk (Nat.not_lt_zero _)
  | succ k ih =>
    rw [parseargs]
    by_cases hpeek : Peeks ['|', ')', '&', ';'] ts
    · obtain ⟨htrue, hat⟩ := peek_true hnul (by decide) h hpeek
      rw [if_pos htrue]
      exact ⟨ts, hat, [], rfl, rfl, hargc⟩
    · obtain ⟨hfalse, hat⟩ := peek_false hnul (by decide) h hpeek
      dsimp only
      rw [if_neg hfalse]
      cases ts with
      | nil =>
        obtain ⟨hret, hnext⟩ := gettoken_nil hnul hat
        rw [if_pos hret]
        exact ⟨[], hnext, [], rfl, rfl, hargc⟩
      | cons t ts =>
        obtain ⟨hret, hnext, hpos⟩ := gettoken_cons hnul hat
        rw [hret, if_neg (ret_ne_zero t)]
        split
        next => trivial
        next hword =>
          rw [not_not] at hword
          obtain ⟨q, eq, rfl⟩ := ret_eq_word hword
          obtain ⟨hq, heq⟩ := hpos q eq rfl
          rw [hq, heq]
          split
          next => trivial
          next hmax =>
            refine (parseredirs_safe hnul hnext (by simpa using hk)).bind ?_
            rintro c s' ts' hat' ⟨rs, rfl, rfl⟩
            refine (ih hat' (by simp at hk; omega) (Nat.not_le.mp hmax)).mono ?_
            rintro c ts'' ⟨args, rfl, rfl, hlen⟩
            refine ⟨⟨(q, eq), rs⟩ :: args, by simp [Arg.yield], rfl, ?_⟩
            rw [length_cons]
            omega

/-- What a function reads has a derivation, if it has so many calls to go. -/
def Accepts (buf : List UInt8) {δ : Type} (yield : δ → List Tok) (cmd : δ → Cmd) (short : δ → Prop)
    (calls k : ℕ) (parse : ℕ → Res Cmd) : Prop :=
  ∀ s ts, At buf s ts → 4 * ts.length + calls ≤ k →
    Safe buf (fun c ts' => ∃ d, ts = yield d ++ ts' ∧ c = cmd d ∧ short d) (parse s)

/-- What the four functions read, at this depth. -/
structure ParseSafe (buf : List UInt8) (k : ℕ) : Prop where
  line : Accepts buf Line.yield Line.cmd Line.Short 4 k (parseline buf k)
  pipe : Accepts buf Pipe.yield Pipe.cmd Pipe.Short 3 k (parsepipe buf k)
  exec : Accepts buf Exec.yield Exec.cmd Exec.Short 2 k (parseexec buf k)
  block : Accepts buf Exec.yield Exec.cmd Exec.Short 1 k (parseblock buf k)

section

variable (ih : ParseSafe buf k)

include ih

theorem ParseSafe.parseline :
    Accepts buf Line.yield Line.cmd Line.Short 4 (k + 1) (parseline buf (k + 1)) := by
  intro s ts h hk
  rw [Sh.parseline]
  refine (ih.pipe s ts h (by omega)).bind ?_
  rintro _ s₁ ts₁ h₁ ⟨p, rfl, rfl, hp⟩
  rw [length_append] at hk
  refine (parseamps_safe hnul h₁ (by omega)).bind ?_
  rintro _ s₂ ts₂ h₂ ⟨n, rfl, rfl⟩
  rw [length_append] at hk
  rcases peek_cases hnul semi_is h₂ with ⟨ts₃, rfl, htrue, hnext⟩ | ⟨hfalse, hat⟩
  · dsimp only
    rw [if_pos htrue]
    refine (ih.line _ _ hnext (by simp at hk; omega)).bind ?_
    rintro _ s₄ ts₄ h₄ ⟨l, rfl, rfl, hl⟩
    exact ⟨ts₄, h₄, .seq p n l, by simp [Line.yield], rfl, hp, hl⟩
  · dsimp only
    rw [if_neg hfalse]
    exact ⟨ts₂, hat, .last p n, by simp [Line.yield], rfl, hp⟩

theorem ParseSafe.parsepipe :
    Accepts buf Pipe.yield Pipe.cmd Pipe.Short 3 (k + 1) (parsepipe buf (k + 1)) := by
  intro s ts h hk
  rw [Sh.parsepipe]
  refine (ih.exec s ts h (by omega)).bind ?_
  rintro _ s₁ ts₁ h₁ ⟨e, rfl, rfl, he⟩
  rw [length_append] at hk
  rcases peek_cases hnul bar_is h₁ with ⟨ts₂, rfl, htrue, hnext⟩ | ⟨hfalse, hat⟩
  · dsimp only
    rw [if_pos htrue]
    refine (ih.pipe _ _ hnext (by simp at hk; omega)).bind ?_
    rintro _ s₃ ts₃ h₃ ⟨p, rfl, rfl, hp⟩
    exact ⟨ts₃, h₃, .bar e p, by simp [Pipe.yield], rfl, he, hp⟩
  · dsimp only
    rw [if_neg hfalse]
    exact ⟨ts₁, hat, .one e, rfl, rfl, he⟩

theorem ParseSafe.parseexec :
    Accepts buf Exec.yield Exec.cmd Exec.Short 2 (k + 1) (parseexec buf (k + 1)) := by
  intro s ts h hk
  rw [Sh.parseexec]
  by_cases hpeek : Peeks ['('] ts
  · obtain ⟨htrue, hat⟩ := peek_true hnul (by decide) h hpeek
    rw [if_pos htrue]
    exact ih.block _ _ hat (by omega)
  · obtain ⟨hfalse, hat⟩ := peek_false hnul (by decide) h hpeek
    rw [if_neg hfalse]
    refine (parseredirs_safe hnul hat (by omega)).bind ?_
    rintro _ s₁ ts₁ h₁ ⟨rs, rfl, rfl⟩
    rw [length_append] at hk
    refine (parseargs_safe hnul h₁ (by omega) (by decide)).mono ?_
    rintro c ts₂ ⟨args, rfl, rfl, hlen⟩
    refine ⟨.simple rs args, by simp [Exec.yield], ?_, by simpa [Exec.Short] using hlen⟩
    rw [foldl_onto, Exec.cmd, nil_append]

theorem ParseSafe.parseblock :
    Accepts buf Exec.yield Exec.cmd Exec.Short 1 (k + 1) (parseblock buf (k + 1)) := by
  intro s ts h hk
  rw [Sh.parseblock]
  rcases peek_cases hnul lpar_is h with ⟨ts, rfl, htrue, hnext⟩ | ⟨hfalse, -⟩
  · dsimp only
    rw [if_neg (by simp [htrue])]
    refine (ih.line _ _ hnext (by simp at hk; omega)).bind ?_
    rintro _ s₁ ts₁ h₁ ⟨l, rfl, rfl, hl⟩
    rcases peek_cases hnul rpar_is h₁ with ⟨ts₂, rfl, htrue₁, hnext₁⟩ | ⟨hfalse, -⟩
    · rw [if_neg (by simp [htrue₁])]
      refine (parseredirs_safe hnul hnext₁ (by simp at hk; omega)).mono ?_
      rintro c ts₃ ⟨rs, rfl, rfl⟩
      exact ⟨.block l rs, by simp [Exec.yield], rfl, hl⟩
    · rw [if_pos (by simp [hfalse])]
      trivial
  · dsimp only
    rw [if_pos (by simp [hfalse])]
    trivial

end

/-- **The parser comes to an end, and what it has read has a derivation.** The depth goes down with
each call, and of four calls one at least takes a token. -/
theorem parseSafe (k : ℕ) : ParseSafe buf k := by
  induction k with
  | zero =>
    refine ⟨?_, ?_, ?_, ?_⟩ <;> exact fun _ _ _ h => by omega
  | succ k ih => exact ⟨ih.parseline hnul, ih.parsepipe hnul, ih.parseexec hnul, ih.parseblock hnul⟩

end Sound

/-! ### What has a derivation is accepted -/

section Complete

variable (hnul : 0 ∉ buf)

include hnul

theorem parseamps_takes {n : ℕ} (h : At buf s (List.replicate n .amp ++ ts))
    (hts : Starts (· ≠ .amp) ts) :
    Takes buf (Cmd.back^[n] cmd) ts (parseamps buf k cmd s) := by
  induction n generalizing k s cmd with
  | zero =>
    cases k with
    | zero => exact Or.inl rfl
    | succ k =>
      obtain ⟨hfalse, hat⟩ := peek_ne hnul amp_is h hts
      rw [parseamps, if_neg hfalse]
      exact Or.inr ⟨_, rfl, hat⟩
  | succ n ih =>
    cases k with
    | zero => exact Or.inl rfl
    | succ k =>
      obtain ⟨htrue, hnext⟩ := peek_cons hnul amp_is h
      rw [parseamps, if_pos htrue]
      exact ih hnext

theorem parseredirs_takes {rs : List Redir} (h : At buf s (rs.flatMap Redir.yield ++ ts))
    (hts : Starts Tok.NotOp ts) :
    Takes buf (rs.foldl Redir.around cmd) ts (parseredirs buf k cmd s) := by
  induction rs generalizing k s cmd with
  | nil =>
    cases k with
    | zero => exact Or.inl rfl
    | succ k =>
      obtain ⟨hfalse, hat⟩ := peek_false hnul (by decide) h (not_peeks_op hts)
      rw [parseredirs, if_neg hfalse]
      exact Or.inr ⟨_, rfl, hat⟩
  | cons r rs ih =>
    cases k with
    | zero => exact Or.inl rfl
    | succ k =>
      obtain ⟨op, q, eq⟩ := r
      simp only [flatMap_cons, Redir.yield, cons_append, nil_append] at h
      obtain ⟨htrue, hat⟩ := peek_true hnul (by decide) h (peeks_op op _)
      obtain ⟨hret, hnext, -⟩ := gettoken_cons hnul hat
      obtain ⟨hret', hnext', hpos⟩ := gettoken_cons hnul hnext
      obtain ⟨hq, heq⟩ := hpos q eq rfl
      rw [parseredirs]
      dsimp only
      rw [if_pos htrue, hret', ret_word, if_neg (not_not.mpr rfl), hret, hq, heq, around_eq]
      exact ih hnext'

theorem parseargs_takes {args : List Arg} {argc : ℕ} {ret : Cmd}
    (h : At buf s (args.flatMap Arg.yield ++ ts)) (hts : Starts Tok.AfterExec ts)
    (hlen : argc + args.length < maxargs) :
    Takes buf (args.foldl Arg.onto ret) ts (parseargs buf k ret argc s) := by
  induction args generalizing k s argc ret with
  | nil =>
    cases k with
    | zero => exact Or.inl rfl
    | succ k =>
      rw [parseargs]
      cases ts with
      | nil =>
        -- The line is at its end.
        have hpeek : ¬Peeks ['|', ')', '&', ';'] [] := by rintro ⟨t, ⟨⟩, _⟩
        obtain ⟨hfalse, hat⟩ := peek_false hnul (by decide) h hpeek
        obtain ⟨hret, hnext⟩ := gettoken_nil hnul hat
        dsimp only
        rw [if_neg hfalse, if_pos hret]
        exact Or.inr ⟨_, rfl, hnext⟩
      | cons t ts =>
        have hpeek : Peeks ['|', ')', '&', ';'] (t :: ts) := by
          rcases hts.head with rfl | rfl | rfl | rfl <;> exact Peeks.cons rfl (by decide)
        obtain ⟨htrue, hat⟩ := peek_true hnul (by decide) h hpeek
        rw [if_pos htrue]
        exact Or.inr ⟨_, rfl, hat⟩
  | cons a args ih =>
    cases k with
    | zero => exact Or.inl rfl
    | succ k =>
      obtain ⟨⟨q, eq⟩, rs⟩ := a
      rw [length_cons] at hlen
      simp only [flatMap_cons, Arg.yield, cons_append, append_assoc] at h
      have hpeek (ts : List Tok) : ¬Peeks ['|', ')', '&', ';'] (.word q eq :: ts) := by
        rintro ⟨t, ⟨⟩, c, -, hfirst⟩
        cases hfirst
      obtain ⟨hfalse, hat⟩ := peek_false hnul (by decide) h (hpeek _)
      obtain ⟨hret, hnext, hpos⟩ := gettoken_cons hnul hat
      obtain ⟨hq, heq⟩ := hpos q eq rfl
      rw [parseargs]
      dsimp only
      rw [if_neg hfalse, hret, if_neg (ret_ne_zero _), ret_word, if_neg (not_not.mpr rfl),
        if_neg (by omega), hq, heq]
      refine (parseredirs_takes hnul hnext (starts_args hts)).bind fun s' hs' => ?_
      exact ih hs' (by omega)

end Complete

mutual

/-- **A line is read as its derivation says.** -/
theorem Line.takes (hnul : 0 ∉ buf) : ∀ (d : Line) {k s : ℕ} {r : List Tok},
    At buf s (d.yield ++ r) → Starts Tok.AfterLine r → d.Short →
      Takes buf d.cmd r (parseline buf k s)
  | _, 0, _, _, _, _, _ => Or.inl (by rw [parseline])
  | .last p n, k + 1, s, r, h, hr, hd => by
    rw [Line.yield, append_assoc] at h
    rw [parseline]
    refine (Pipe.takes hnul p h (starts_amps (hr.mono Tok.AfterLine.afterPipe)) hd).bind
      fun s₁ h₁ => ?_
    refine (parseamps_takes hnul h₁ (hr.mono Tok.AfterLine.ne_amp)).bind fun s₂ h₂ => ?_
    obtain ⟨hfalse, hat⟩ := peek_ne hnul semi_is h₂ (hr.mono (by rintro t rfl; simp))
    dsimp only
    rw [if_neg hfalse]
    exact Or.inr ⟨_, rfl, hat⟩
  | .seq p n l, k + 1, s, r, h, hr, hd => by
    simp only [Line.yield, append_assoc, cons_append] at h
    rw [parseline]
    refine (Pipe.takes hnul p h (starts_amps (Starts.cons (Or.inr (Or.inr rfl)) _)) hd.1).bind
      fun s₁ h₁ => ?_
    refine (parseamps_takes hnul h₁ (Starts.cons (fun heq => by cases heq) _)).bind fun s₂ h₂ => ?_
    obtain ⟨htrue, hnext⟩ := peek_cons hnul semi_is h₂
    dsimp only
    rw [if_pos htrue]
    refine (Line.takes hnul l hnext hr hd.2).bind fun s₃ h₃ => ?_
    exact Or.inr ⟨_, rfl, h₃⟩

theorem Pipe.takes (hnul : 0 ∉ buf) : ∀ (d : Pipe) {k s : ℕ} {r : List Tok},
    At buf s (d.yield ++ r) → Starts Tok.AfterPipe r → d.Short →
      Takes buf d.cmd r (parsepipe buf k s)
  | _, 0, _, _, _, _, _ => Or.inl (by rw [parsepipe])
  | .one e, k + 1, s, r, h, hr, hd => by
    rw [parsepipe]
    refine (Exec.takes hnul e h (hr.mono Tok.AfterPipe.afterExec) hd).bind fun s₁ h₁ => ?_
    obtain ⟨hfalse, hat⟩ :=
      peek_ne hnul bar_is h₁ (hr.mono (by rintro t (rfl | rfl | rfl) <;> simp))
    dsimp only
    rw [if_neg hfalse]
    exact Or.inr ⟨_, rfl, hat⟩
  | .bar e p, k + 1, s, r, h, hr, hd => by
    simp only [Pipe.yield, append_assoc, cons_append] at h
    rw [parsepipe]
    refine (Exec.takes hnul e h (Starts.cons (Or.inl rfl) _) hd.1).bind fun s₁ h₁ => ?_
    obtain ⟨htrue, hnext⟩ := peek_cons hnul bar_is h₁
    dsimp only
    rw [if_pos htrue]
    refine (Pipe.takes hnul p hnext hr hd.2).bind fun s₂ h₂ => ?_
    exact Or.inr ⟨_, rfl, h₂⟩

theorem Exec.takes (hnul : 0 ∉ buf) : ∀ (d : Exec) {k s : ℕ} {r : List Tok},
    At buf s (d.yield ++ r) → Starts Tok.AfterExec r → d.Short →
      Takes buf d.cmd r (parseexec buf k s)
  | _, 0, _, _, _, _, _ => Or.inl (by rw [parseexec])
  | .block l rs, 1, s, r, h, hr, hd => by
    simp only [Exec.yield, append_assoc, cons_append] at h
    obtain ⟨htrue, -⟩ := peek_true hnul (by decide) h (Peeks.cons rfl (mem_singleton_self _))
    rw [parseexec, if_pos htrue]
    exact Or.inl (by rw [parseblock])
  | .block l rs, k + 1 + 1, s, r, h, hr, hd => by
    simp only [Exec.yield, append_assoc, cons_append] at h
    -- `parseexec` and `parseblock` look at the same bracket.
    obtain ⟨htrue, hat⟩ := peek_true hnul (by decide) h (Peeks.cons rfl (mem_singleton_self _))
    obtain ⟨htrue', hnext⟩ := peek_cons hnul lpar_is hat
    rw [parseexec, if_pos htrue, parseblock]
    dsimp only
    rw [if_neg (by simp [htrue'])]
    have hrpar : Tok.AfterLine .rpar := rfl
    refine (Line.takes hnul l hnext (Starts.cons hrpar _) hd).bind fun s₁ h₁ => ?_
    obtain ⟨htrue₁, hnext₁⟩ := peek_cons hnul rpar_is h₁
    rw [if_neg (by simp [htrue₁])]
    exact parseredirs_takes hnul hnext₁ (hr.mono fun _ => Tok.AfterExec.notOp)
  | .simple rs args, k + 1, s, r, h, hr, hd => by
    rcases peek_cases hnul lpar_is h with ⟨ts, hts, -⟩ | ⟨hfalse, hat⟩
    · exact absurd hts (simple_ne_lpar hr)
    rw [Exec.yield, append_assoc] at hat
    rw [parseexec]
    rw [if_neg hfalse]
    refine (parseredirs_takes hnul hat (starts_args hr)).bind fun s₁ h₁ => ?_
    have hcmd := foldl_onto args rs []
    rw [nil_append] at hcmd
    rw [Exec.cmd, ← hcmd]
    exact parseargs_takes hnul h₁ hr (show 0 + args.length < maxargs by simpa [Exec.Short] using hd)

end

/-! ### The parser and the grammar -/

theorem at_start (buf : List UInt8) : At buf 0 (tokens buf) := ⟨Nat.zero_le _, rfl⟩

theorem length_tokensLoop_le (buf : List UInt8) (k s : ℕ) : (tokensLoop buf k s).length ≤ k := by
  induction k generalizing s with
  | zero => exact Nat.le_refl _
  | succ k ih =>
    rw [tokensLoop]
    split
    next => exact Nat.zero_le _
    next => exact Nat.succ_le_succ (ih _)

theorem peek_nil_eq (hnul : 0 ∉ buf) {s : ℕ} (h : At buf s ts) :
    (peek buf [] s).2 = buf.length ↔ ts = [] := by
  rcases h.cases hnul with ⟨hend, rfl⟩ | ⟨hlt, -, rfl⟩
  · exact ⟨fun _ => rfl, fun _ => hend⟩
  · exact ⟨fun hend => absurd hend hlt.ne, fun hnil => by cases hnil⟩

theorem parsecmd_of_ok {c : Cmd} (h : parseline buf k 0 = .ok c s) :
    parsecmd buf k = if (peek buf [] s).2 ≠ buf.length then .panic "syntax"
      else .ok (c, nulterminate c (byte buf)) (peek buf [] s).2 := by
  rw [parsecmd, h]
  rfl

theorem parsecmd_safe (hnul : 0 ∉ buf) {k : ℕ} (hk : 4 * buf.length + 4 ≤ k) :
    (∃ msg, parsecmd buf k = .panic msg) ∨ ∃ (d : Line) (s : ℕ), d.yield = tokens buf ∧ d.Short ∧
      parsecmd buf k = .ok (d.cmd, nulterminate d.cmd (byte buf)) s := by
  have hlen : (tokens buf).length ≤ buf.length := length_tokensLoop_le buf _ 0
  have hsafe := (parseSafe hnul k).line _ _ (at_start buf) (by omega)
  cases hline : parseline buf k 0 with
  | ok c s =>
    rw [hline] at hsafe
    obtain ⟨ts, hts, d, hyield, rfl, hshort⟩ := hsafe
    rw [parsecmd_of_ok hline]
    split
    next => exact Or.inl ⟨_, rfl⟩
    next hend =>
      obtain rfl := (peek_nil_eq hnul hts).mp (not_not.mp hend)
      exact Or.inr ⟨d, _, by rw [hyield, append_nil], hshort, rfl⟩
  | panic msg =>
    rw [parsecmd, hline]
    exact Or.inl ⟨msg, rfl⟩
  | deep =>
    rw [hline] at hsafe
    exact hsafe.elim

theorem parsecmd_takes (hnul : 0 ∉ buf) {d : Line} (hd : d.yield = tokens buf) (hshort : d.Short)
    (k : ℕ) : parsecmd buf k = .deep ∨
      ∃ s, parsecmd buf k = .ok (d.cmd, nulterminate d.cmd (byte buf)) s := by
  have hstart : At buf 0 (d.yield ++ []) := by
    rw [hd, append_nil]
    exact at_start buf
  rcases Line.takes hnul d (k := k) hstart (fun t ht => by cases ht)
    hshort with hdeep | ⟨s, hok, hs⟩
  · rw [parsecmd, hdeep]
    exact Or.inl rfl
  · rw [parsecmd_of_ok hok, if_neg (not_not.mpr ((peek_nil_eq hnul hs).mpr rfl))]
    exact Or.inr ⟨_, rfl⟩

/-- **The parser accepts exactly its grammar.** It always comes to an end. It returns a command if
and only if the tokens of the line have a derivation with fewer than `MAXARGS` words in each simple
command, and then it is the command that the derivation stands for; and there is one derivation at
most. -/
theorem parsecmd_derives (hnul : 0 ∉ buf) (k : ℕ) (hk : 4 * buf.length + 4 ≤ k) :
    parsecmd buf k ≠ .deep ∧
      (∀ cmd, (∃ mem s, parsecmd buf k = .ok (cmd, mem) s) ↔
        ∃ d : Line, d.yield = tokens buf ∧ d.Short ∧ d.cmd = cmd) ∧
      ∀ d d' : Line, d.yield = tokens buf → d'.yield = tokens buf → d = d' := by
  have hsafe := parsecmd_safe hnul hk
  have hnd : parsecmd buf k ≠ .deep := by
    rcases hsafe with ⟨msg, h⟩ | ⟨d, s, -, -, h⟩ <;> rw [h] <;> exact fun heq => by cases heq
  refine ⟨hnd, fun cmd => ⟨?_, ?_⟩, fun d d' hd hd' => Line.unique (hd.trans hd'.symm)⟩
  · rintro ⟨mem, s, hok⟩
    rcases hsafe with ⟨msg, h⟩ | ⟨d, s', hyield, hshort, h⟩
    · rw [h] at hok
      cases hok
    · rw [h] at hok
      cases hok
      exact ⟨d, hyield, hshort, rfl⟩
  · rintro ⟨d, hd, hshort, rfl⟩
    obtain ⟨s, hok⟩ := (parsecmd_takes hnul hd hshort k).resolve_left hnd
    exact ⟨_, s, hok⟩

/-- `ls > x; (a | b &)`. -/
def redirAndBlock : List UInt8 :=
  ['l', 's', ' ', '>', ' ', 'x', ';', ' ', '(', 'a', ' ', '|', ' ', 'b', ' ', '&', ')'].map
    Char.toUInt8

theorem parsecmd_derives_redirAndBlock : 0 ∉ redirAndBlock ∧ parsecmd redirAndBlock 72 ≠ .deep ∧
    ∃ d : Line, d.yield = tokens redirAndBlock ∧ d.Short ∧ d.cmd =
      .list (.redir (.exec [(0, 2)]) 5 6 oWronlyCreate 1)
        (.back (.pipe (.exec [(9, 10)]) (.exec [(13, 14)]))) := by
  have h := parsecmd_derives (show 0 ∉ redirAndBlock by decide) 72 (by decide)
  have hrun : (match parsecmd redirAndBlock 72 with
      | .ok r _ => decide (r.1 = .list (.redir (.exec [(0, 2)]) 5 6 oWronlyCreate 1)
        (.back (.pipe (.exec [(9, 10)]) (.exec [(13, 14)]))))
      | _ => false) = true := by
    decide +kernel
  refine ⟨by decide, h.1, (h.2.1 _).mp ?_⟩
  split at hrun
  next r s heq =>
    rw [heq, ← of_decide_eq_true hrun]
    exact ⟨r.2, s, rfl⟩
  next => cases hrun

/-! ### Strings -/

/-- The strings of a command. -/
def Cmd.words : Cmd → List (ℕ × ℕ)
  | .exec argv => argv
  | .redir cmd file efile _ _ => cmd.words ++ [(file, efile)]
  | .pipe left right => left.words ++ right.words
  | .list left right => left.words ++ right.words
  | .back cmd => cmd.words

/-- The bytes from `q` on, up to a NUL. -/
def IsString (mem : ℕ → UInt8) : ℕ → List UInt8 → Prop
  | q, [] => mem q = 0
  | q, c :: l => mem q = c ∧ c ≠ 0 ∧ IsString mem (q + 1) l

theorem ends_append (ws ws' : List (ℕ × ℕ)) (i : ℕ) (b : UInt8) :
    (if ∃ w ∈ ws ++ ws', w.2 = i then 0 else b) =
      if ∃ w ∈ ws', w.2 = i then 0 else if ∃ w ∈ ws, w.2 = i then 0 else b := by
  have happ : (∃ w ∈ ws ++ ws', w.2 = i) ↔ (∃ w ∈ ws', w.2 = i) ∨ ∃ w ∈ ws, w.2 = i := by
    simp only [mem_append, or_and_right, exists_or, or_comm]
  by_cases hws' : ∃ w ∈ ws', w.2 = i
  · rw [if_pos (happ.mpr (Or.inl hws')), if_pos hws']
  · rw [if_neg hws']
    exact if_congr (happ.trans (or_iff_right hws')) rfl rfl

theorem ends_singleton (w : ℕ × ℕ) (i : ℕ) (mem : ℕ → UInt8) :
    (if ∃ w' ∈ [w], w'.2 = i then 0 else mem i) = Function.update mem w.2 0 i := by
  simp [Function.update_apply, eq_comm]

/-- **NULs are written where strings end**, and nowhere else. -/
theorem nulterminate_eq (cmd : Cmd) (mem : ℕ → UInt8) (i : ℕ) :
    nulterminate cmd mem i = if ∃ w ∈ cmd.words, w.2 = i then 0 else mem i := by
  induction cmd generalizing mem with
  | exec argv =>
    rw [nulterminate, Cmd.words]
    induction argv generalizing mem with
    | nil => simp
    | cons w argv ih =>
      rw [foldl_cons, ih, ← ends_singleton]
      exact (ends_append [w] argv i _).symm
  | redir cmd file efile mode fd ih =>
    rw [nulterminate, Cmd.words, ends_append, ← ih]
    exact (ends_singleton (file, efile) i _).symm
  | pipe left right ihl ihr => rw [nulterminate, Cmd.words, ihr, ihl, ends_append]
  | list left right ihl ihr => rw [nulterminate, Cmd.words, ihr, ihl, ends_append]
  | back cmd ih => exact ih mem

theorem words_around {rs : List Redir} {cmd : Cmd} {w : ℕ × ℕ}
    (h : w ∈ (rs.foldl Redir.around cmd).words) :
    w ∈ cmd.words ∨ .word w.1 w.2 ∈ rs.flatMap Redir.yield := by
  induction rs generalizing cmd with
  | nil => exact Or.inl h
  | cons r rs ih =>
    rw [flatMap_cons, mem_append]
    rcases ih h with h | h
    · have hwords : (r.around cmd).words = cmd.words ++ [r.file] := by
        obtain ⟨op, file⟩ := r
        cases op <;> rfl
      rw [hwords, mem_append, mem_singleton] at h
      rcases h with h | rfl
      · exact Or.inl h
      · exact Or.inr (Or.inl (by simp [Redir.yield]))
    · exact Or.inr (Or.inr h)

theorem words_back (n : ℕ) (cmd : Cmd) : (Cmd.back^[n] cmd).words = cmd.words := by
  induction n generalizing cmd with
  | zero => rfl
  | succ n ih => exact ih (.back cmd)

theorem mem_yield_args {args : List Arg} {t : Tok}
    (h : t ∈ (args.flatMap Arg.redirs).flatMap Redir.yield ∨
      ∃ w ∈ args.map Arg.word, t = .word w.1 w.2) : t ∈ args.flatMap Arg.yield := by
  rcases h with h | ⟨w, hw, rfl⟩
  · obtain ⟨r, hr, ht⟩ := mem_flatMap.mp h
    obtain ⟨a, ha, hra⟩ := mem_flatMap.mp hr
    exact mem_flatMap.mpr ⟨a, ha, mem_cons_of_mem _ (mem_flatMap.mpr ⟨r, hra, ht⟩)⟩
  · obtain ⟨a, ha, rfl⟩ := mem_map.mp hw
    exact mem_flatMap.mpr ⟨a, ha, mem_cons_self⟩

mutual

/-- **The strings of a command are words of its line.** -/
theorem Line.words_mem : ∀ (d : Line) {w : ℕ × ℕ}, w ∈ d.cmd.words → .word w.1 w.2 ∈ d.yield
  | .last p n, w, h => by
    rw [Line.cmd, words_back] at h
    exact mem_append_left _ (Pipe.words_mem p h)
  | .seq p n l, w, h => by
    rw [Line.cmd, Cmd.words, words_back, mem_append] at h
    rcases h with h | h
    · exact mem_append_left _ (mem_append_left _ (Pipe.words_mem p h))
    · exact mem_append_right _ (mem_cons_of_mem _ (Line.words_mem l h))

theorem Pipe.words_mem : ∀ (d : Pipe) {w : ℕ × ℕ}, w ∈ d.cmd.words → .word w.1 w.2 ∈ d.yield
  | .one e, w, h => Exec.words_mem e h
  | .bar e p, w, h => by
    rw [Pipe.cmd, Cmd.words, mem_append] at h
    rcases h with h | h
    · exact mem_append_left _ (Exec.words_mem e h)
    · exact mem_append_right _ (mem_cons_of_mem _ (Pipe.words_mem p h))

theorem Exec.words_mem : ∀ (d : Exec) {w : ℕ × ℕ}, w ∈ d.cmd.words → .word w.1 w.2 ∈ d.yield
  | .block l rs, w, h => by
    rw [Exec.cmd] at h
    rcases words_around h with h | h
    · exact mem_append_left _ (mem_cons_of_mem _ (Line.words_mem l h))
    · exact mem_append_right _ (mem_cons_of_mem _ h)
  | .simple rs args, w, h => by
    rw [Exec.cmd] at h
    rw [Exec.yield, mem_append]
    rcases words_around h with h | h
    · exact Or.inr (mem_yield_args (Or.inr ⟨w, h, rfl⟩))
    · rw [flatMap_append, mem_append] at h
      exact h.imp_right fun h => mem_yield_args (Or.inl h)

end

/-- The bytes of a word, in the line. -/
def text (buf : List UInt8) (w : ℕ × ℕ) : List UInt8 := (buf.drop w.1).take (w.2 - w.1)

theorem isString_text {mem : ℕ → UInt8} {q n : ℕ} (hlen : q + n ≤ buf.length) (hnul : 0 ∉ buf)
    (hmem : ∀ i, q ≤ i → i < q + n → mem i = byte buf i) (hend : mem (q + n) = 0) :
    IsString mem q ((buf.drop q).take n) := by
  induction n generalizing q with
  | zero =>
    rw [take_zero]
    exact hend
  | succ n ih =>
    have hlt : q < buf.length := by omega
    have hbyte : buf[q] = byte buf q := (getD_eq_getElem _ _ hlt).symm
    rw [drop_eq_getElem_cons hlt, take_succ_cons, hbyte]
    refine ⟨hmem q (Nat.le_refl _) (by omega), byte_ne_zero hnul hlt, ?_⟩
    refine ih (by omega) (fun i hi hi' => hmem i (by omega) (by omega)) ?_
    rw [← hend]
    exact congrArg mem (by omega)

/-- **Words are what they were.** Of every command that is accepted, each argument and each file of
a redirection is a word of the line, and as a string, in the line with the NULs, it is the text that
the word was. -/
theorem nulterminate_exact (hnul : 0 ∉ buf) {k s : ℕ} (hk : 4 * buf.length + 4 ≤ k) {cmd : Cmd}
    {mem : ℕ → UInt8} (h : parsecmd buf k = .ok (cmd, mem) s) {w : ℕ × ℕ} (hw : w ∈ cmd.words) :
    .word w.1 w.2 ∈ tokens buf ∧ IsString mem w.1 (text buf w) := by
  rcases parsecmd_safe hnul hk with ⟨msg, hp⟩ | ⟨d, s', hyield, -, hp⟩
  · cases hp.symm.trans h
  cases hp.symm.trans h
  have hword : ∀ w ∈ d.cmd.words, .word w.1 w.2 ∈ tokens buf := fun w hw =>
    hyield ▸ d.words_mem hw
  have his : ∀ w ∈ d.cmd.words, IsWord buf w := fun w hw =>
    isWord_of_mem hnul (at_start buf) (hword w hw)
  have hthis := his w hw
  have hsub : w.1 + (w.2 - w.1) = w.2 := by have := hthis.lt; omega
  refine ⟨hword w hw, isString_text (by rw [hsub]; exact hthis.le) hnul
    (fun i hi hi' => ?_) ?_⟩
  · -- a NUL is written behind a word, and that byte is in no word
    rw [nulterminate_eq, if_neg]
    rintro ⟨w', hw', rfl⟩
    have hlt : w'.2 < w.2 := hsub ▸ hi'
    have hbyte := hthis.mem w'.2 hi hlt
    rw [(his w' hw').stop (Nat.lt_of_lt_of_le hlt hthis.le)] at hbyte
    cases hbyte
  · rw [hsub, nulterminate_eq, if_pos ⟨w, hw, rfl⟩]

theorem nulterminate_exact_redirAndBlock :
    ∃ cmd mem s, parsecmd redirAndBlock 72 = .ok (cmd, mem) s ∧
    (5, 6) ∈ cmd.words ∧ IsString mem 5 ['x'.toUInt8] := by
  have hrun : (match parsecmd redirAndBlock 72 with
      | .ok r _ => decide ((5, 6) ∈ r.1.words)
      | _ => false) = true := by
    decide +kernel
  split at hrun
  next r s heq =>
    have hmem := of_decide_eq_true hrun
    exact ⟨r.1, r.2, s, heq, hmem, (nulterminate_exact (by decide) (by decide) heq hmem).2⟩
  next => cases hrun

end Xv6.Sh
