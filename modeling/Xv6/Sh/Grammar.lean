import Mathlib.Logic.Function.Iterate
import Xv6.Sh.Parser

/-!
# The grammar of the shell

A line is made up of pipes, and those of simple commands and of lines in brackets:

```
line  ::= pipe '&'* [';' line]
pipe  ::= exec ['|' pipe]
exec  ::= '(' line ')' redir* | redir* (word redir*)*
redir ::= ('<' | '>' | '>>') word
```

The derivations of the grammar are trees of their own, `Line`, `Pipe` and `Exec`. One of them has
the tokens it derives and the command it stands for.

## Main results

* `Line.unique` — a sequence of tokens has one derivation at most
-/

namespace Xv6.Sh

open List

/-! ### Derivations -/

/-- The operators of redirections. -/
inductive Op
  | lt
  | gt
  | gtgt
  deriving DecidableEq

/-- The token. -/
def Op.tok : Op → Tok
  | .lt => .lt
  | .gt => .gt
  | .gtgt => .gtgt

/-- `redir`. -/
structure Redir where
  op : Op
  /-- The file, where its name starts and where it ends. -/
  file : ℕ × ℕ

/-- A word of a simple command, with the redirections behind it. -/
structure Arg where
  word : ℕ × ℕ
  redirs : List Redir

mutual

/-- `line`. -/
inductive Line
  /-- A pipe, and how often `&` follows. -/
  | last (p : Pipe) (amps : ℕ)
  /-- The same, and another line after `;`. -/
  | seq (p : Pipe) (amps : ℕ) (l : Line)

/-- `pipe`. -/
inductive Pipe
  | one (e : Exec)
  | bar (e : Exec) (p : Pipe)

/-- `exec`. -/
inductive Exec
  | block (l : Line) (redirs : List Redir)
  | simple (redirs : List Redir) (args : List Arg)

end

/-! ### What is derived -/

/-- The tokens of a redirection. -/
def Redir.yield (r : Redir) : List Tok := [r.op.tok, .word r.file.1 r.file.2]

/-- The tokens of a word and of what is behind it. -/
def Arg.yield (a : Arg) : List Tok := .word a.word.1 a.word.2 :: a.redirs.flatMap Redir.yield

mutual

/-- The tokens of a line. -/
def Line.yield : Line → List Tok
  | .last p amps => p.yield ++ List.replicate amps .amp
  | .seq p amps l => p.yield ++ List.replicate amps .amp ++ .semi :: l.yield

/-- The tokens of a pipe. -/
def Pipe.yield : Pipe → List Tok
  | .one e => e.yield
  | .bar e p => e.yield ++ .bar :: p.yield

/-- The tokens of a command. -/
def Exec.yield : Exec → List Tok
  | .block l redirs => .lpar :: l.yield ++ .rpar :: redirs.flatMap Redir.yield
  | .simple redirs args => redirs.flatMap Redir.yield ++ args.flatMap Arg.yield

end

/-! ### What it stands for -/

/-- A redirection is put around a command. -/
def Redir.around (cmd : Cmd) (r : Redir) : Cmd :=
  match r.op with
  | .lt => .redir cmd r.file.1 r.file.2 oRdonly 0
  | .gt => .redir cmd r.file.1 r.file.2 oWronlyCreate 1
  | .gtgt => .redir cmd r.file.1 r.file.2 oWronlyCreate 1

mutual

/-- The command that a line stands for. -/
def Line.cmd : Line → Cmd
  | .last p amps => Cmd.back^[amps] p.cmd
  | .seq p amps l => .list (Cmd.back^[amps] p.cmd) l.cmd

/-- The command that a pipe stands for. -/
def Pipe.cmd : Pipe → Cmd
  | .one e => e.cmd
  | .bar e p => .pipe e.cmd p.cmd

/-- The command that a command stands for: the words in order, and the redirections around it in
order, the last one outside. -/
def Exec.cmd : Exec → Cmd
  | .block l redirs => redirs.foldl Redir.around l.cmd
  | .simple redirs args =>
    (redirs ++ args.flatMap Arg.redirs).foldl Redir.around (.exec (args.map Arg.word))

end

mutual

/-- Simple commands have fewer than `MAXARGS` words. -/
def Line.Short : Line → Prop
  | .last p _ => p.Short
  | .seq p _ l => p.Short ∧ l.Short

/-- Simple commands have fewer than `MAXARGS` words. -/
def Pipe.Short : Pipe → Prop
  | .one e => e.Short
  | .bar e p => e.Short ∧ p.Short

/-- Simple commands have fewer than `MAXARGS` words. -/
def Exec.Short : Exec → Prop
  | .block l _ => l.Short
  | .simple _ args => args.length < maxargs

end

/-! ### One derivation -/

/-- If there is a token, it is one of these. -/
def Starts (first : Tok → Prop) (ts : List Tok) : Prop := ∀ t ∈ ts.head?, first t

variable {ts : List Tok} {first : Tok → Prop}

theorem Starts.mono {first' : Tok → Prop} (h : Starts first ts) (hsub : ∀ t, first t → first' t) :
    Starts first' ts :=
  fun t ht => hsub t (h t ht)

variable {t : Tok}

theorem Starts.cons (ht : first t) (ts : List Tok) :
    Starts first (t :: ts) := by
  rintro t' ⟨⟩
  exact ht

theorem Starts.head (h : Starts first (t :: ts)) :
    first t :=
  h t rfl

/-- What can follow a command. -/
def Tok.AfterExec (t : Tok) : Prop := t = .bar ∨ t = .rpar ∨ t = .amp ∨ t = .semi

/-- What can follow a pipe. -/
def Tok.AfterPipe (t : Tok) : Prop := t = .rpar ∨ t = .amp ∨ t = .semi

/-- What can follow a line. -/
def Tok.AfterLine (t : Tok) : Prop := t = .rpar

/-- A token that is no operator of a redirection. -/
def Tok.NotOp (t : Tok) : Prop := ∀ op : Op, t ≠ op.tok

theorem Op.tok_inj {op op' : Op} (h : op.tok = op'.tok) : op = op' := by
  cases op <;> cases op' <;> first | rfl | cases h

theorem Tok.AfterExec.notOp (h : t.AfterExec) : t.NotOp := by
  rintro (_ | _ | _) rfl <;> simp [Tok.AfterExec, Op.tok] at h

theorem notOp_word (q eq : ℕ) : (Tok.word q eq).NotOp := by
  rintro (_ | _ | _) h <;> cases h

variable {r r' : List Tok}

theorem amps_unique {n n' : ℕ} (hr : Starts (· ≠ .amp) r) (hr' : Starts (· ≠ .amp) r')
    (h : List.replicate n Tok.amp ++ r = List.replicate n' Tok.amp ++ r') : n = n' ∧ r = r' := by
  induction n generalizing n' with
  | zero =>
    cases n' with
    | zero => exact ⟨rfl, h⟩
    | succ n' =>
      rw [replicate_zero, nil_append] at h
      rw [h] at hr
      exact absurd rfl hr.head
  | succ n ih =>
    cases n' with
    | zero =>
      rw [replicate_zero, nil_append] at h
      rw [← h] at hr'
      exact absurd rfl hr'.head
    | succ n' =>
      obtain ⟨rfl, hrest⟩ := ih (List.cons.inj h).2
      exact ⟨rfl, hrest⟩

theorem redirs_unique {rs rs' : List Redir} (hr : Starts Tok.NotOp r) (hr' : Starts Tok.NotOp r')
    (h : rs.flatMap Redir.yield ++ r = rs'.flatMap Redir.yield ++ r') : rs = rs' ∧ r = r' := by
  induction rs generalizing rs' with
  | nil =>
    cases rs' with
    | nil => exact ⟨rfl, h⟩
    | cons a rs' =>
      rw [flatMap_nil, nil_append] at h
      rw [h] at hr
      exact absurd rfl (hr.head a.op)
  | cons a rs ih =>
    cases rs' with
    | nil =>
      rw [flatMap_nil, nil_append] at h
      rw [← h] at hr'
      exact absurd rfl (hr'.head a.op)
    | cons a' rs' =>
      obtain ⟨hop, htail⟩ := List.cons.inj h
      obtain ⟨hword, htail⟩ := List.cons.inj htail
      obtain ⟨hrs, hrest⟩ := ih htail
      refine ⟨?_, hrest⟩
      obtain ⟨op, q, eq⟩ := a
      obtain ⟨op', q', eq'⟩ := a'
      obtain rfl := Op.tok_inj hop
      cases hword
      rw [hrs]

variable {args : List Arg} {r : List Tok}

theorem starts_args (hr : Starts Tok.AfterExec r) :
    Starts Tok.NotOp (args.flatMap Arg.yield ++ r) := by
  cases args with
  | nil => exact hr.mono fun _ => Tok.AfterExec.notOp
  | cons a args => exact Starts.cons (notOp_word _ _) _

theorem args_unique {args' : List Arg} (hr : Starts Tok.AfterExec r) (hr' : Starts Tok.AfterExec r')
    (h : args.flatMap Arg.yield ++ r = args'.flatMap Arg.yield ++ r') : args = args' ∧ r = r' := by
  induction args generalizing args' with
  | nil =>
    cases args' with
    | nil => exact ⟨rfl, h⟩
    | cons a args' =>
      rw [flatMap_nil, nil_append] at h
      rw [h] at hr
      exact absurd hr.head (by simp [Tok.AfterExec])
  | cons a args ih =>
    cases args' with
    | nil =>
      rw [flatMap_nil, nil_append] at h
      rw [← h] at hr'
      exact absurd hr'.head (by simp [Tok.AfterExec])
    | cons a' args' =>
      simp only [flatMap_cons, Arg.yield, cons_append, append_assoc, List.cons.injEq] at h
      obtain ⟨hword, htail⟩ := h
      obtain ⟨hredirs, hrest⟩ := redirs_unique (starts_args hr) (starts_args hr') htail
      obtain ⟨rfl, hend⟩ := ih hrest
      refine ⟨?_, hend⟩
      obtain ⟨⟨q, eq⟩, redirs⟩ := a
      obtain ⟨⟨q', eq'⟩, redirs'⟩ := a'
      cases hword
      cases hredirs
      rfl

theorem simple_ne_lpar {redirs : List Redir} (hr : Starts Tok.AfterExec r)
    (h : (Exec.simple redirs args).yield ++ r = .lpar :: ts) :
    False := by
  rw [Exec.yield, append_assoc] at h
  cases redirs with
  | nil =>
    cases args with
    | nil =>
      rw [show r = .lpar :: ts from h] at hr
      exact absurd hr.head (by simp [Tok.AfterExec])
    | cons a args => cases (List.cons.inj h).1
  | cons a redirs =>
    have hop : a.op.tok = .lpar := (List.cons.inj h).1
    obtain ⟨_ | _ | _, file⟩ := a <;> cases hop

theorem starts_amps {n : ℕ} (hr : Starts Tok.AfterPipe r) :
    Starts Tok.AfterPipe (List.replicate n .amp ++ r) := by
  cases n with
  | zero => exact hr
  | succ n => exact Starts.cons (Or.inr (Or.inl rfl)) _

theorem Tok.AfterPipe.afterExec (t : Tok) (h : t.AfterPipe) : t.AfterExec := Or.inr h

theorem Tok.AfterLine.afterPipe (t : Tok) (h : t.AfterLine) : t.AfterPipe := Or.inl h

theorem Tok.AfterLine.ne_amp (t : Tok) (h : t.AfterLine) : t ≠ .amp := by
  rintro rfl
  cases h

mutual

/-- **A line has one derivation at most**, and ends where it can. -/
theorem Line.unique_append : ∀ (d d' : Line) {r r' : List Tok}, Starts Tok.AfterLine r →
    Starts Tok.AfterLine r' → d.yield ++ r = d'.yield ++ r' → d = d' ∧ r = r'
  | .last p n, .last p' n', r, r', hr, hr', h => by
    rw [Line.yield, Line.yield, append_assoc, append_assoc] at h
    obtain ⟨rfl, hamps⟩ := Pipe.unique_append p p' (starts_amps (hr.mono Tok.AfterLine.afterPipe))
      (starts_amps (hr'.mono Tok.AfterLine.afterPipe)) h
    obtain ⟨rfl, hrest⟩ :=
      amps_unique (hr.mono Tok.AfterLine.ne_amp) (hr'.mono Tok.AfterLine.ne_amp) hamps
    exact ⟨rfl, hrest⟩
  | .last p n, .seq p' n' l', r, r', hr, hr', h => by
    rw [Line.yield, Line.yield, append_assoc, append_assoc, append_assoc] at h
    obtain ⟨rfl, hamps⟩ := Pipe.unique_append p p' (starts_amps (hr.mono Tok.AfterLine.afterPipe))
      (starts_amps (Starts.cons (Or.inr (Or.inr rfl)) _)) h
    obtain ⟨-, hrest⟩ := amps_unique (hr.mono Tok.AfterLine.ne_amp)
      (Starts.cons (fun heq => by cases heq) _) hamps
    rw [hrest] at hr
    cases hr.head
  | .seq p n l, .last p' n', r, r', hr, hr', h => by
    rw [Line.yield, Line.yield, append_assoc, append_assoc, append_assoc] at h
    obtain ⟨rfl, hamps⟩ :=
      Pipe.unique_append p p' (starts_amps (Starts.cons (Or.inr (Or.inr rfl)) _))
      (starts_amps (hr'.mono Tok.AfterLine.afterPipe)) h
    obtain ⟨-, hrest⟩ := amps_unique (Starts.cons (fun heq => by cases heq) _)
      (hr'.mono Tok.AfterLine.ne_amp) hamps
    rw [← hrest] at hr'
    cases hr'.head
  | .seq p n l, .seq p' n' l', r, r', hr, hr', h => by
    simp only [Line.yield, append_assoc] at h
    obtain ⟨rfl, hamps⟩ :=
      Pipe.unique_append p p' (starts_amps (Starts.cons (Or.inr (Or.inr rfl)) _))
      (starts_amps (Starts.cons (Or.inr (Or.inr rfl)) _)) h
    obtain ⟨rfl, hrest⟩ := amps_unique (Starts.cons (fun heq => by cases heq) _)
      (Starts.cons (fun heq => by cases heq) _) hamps
    obtain ⟨rfl, hend⟩ := Line.unique_append l l' hr hr' (List.cons.inj hrest).2
    exact ⟨rfl, hend⟩

theorem Pipe.unique_append : ∀ (d d' : Pipe) {r r' : List Tok}, Starts Tok.AfterPipe r →
    Starts Tok.AfterPipe r' → d.yield ++ r = d'.yield ++ r' → d = d' ∧ r = r'
  | .one e, .one e', r, r', hr, hr', h => by
    obtain ⟨rfl, hrest⟩ := Exec.unique_append e e' (hr.mono Tok.AfterPipe.afterExec)
      (hr'.mono Tok.AfterPipe.afterExec) h
    exact ⟨rfl, hrest⟩
  | .one e, .bar e' p', r, r', hr, hr', h => by
    rw [Pipe.yield, Pipe.yield, append_assoc] at h
    obtain ⟨-, hrest⟩ := Exec.unique_append e e' (hr.mono Tok.AfterPipe.afterExec)
      (Starts.cons (Or.inl rfl) _) h
    rw [hrest] at hr
    exact absurd hr.head (by simp [Tok.AfterPipe])
  | .bar e p, .one e', r, r', hr, hr', h => by
    rw [Pipe.yield, Pipe.yield, append_assoc] at h
    obtain ⟨-, hrest⟩ := Exec.unique_append e e' (Starts.cons (Or.inl rfl) _)
      (hr'.mono Tok.AfterPipe.afterExec) h
    rw [← hrest] at hr'
    exact absurd hr'.head (by simp [Tok.AfterPipe])
  | .bar e p, .bar e' p', r, r', hr, hr', h => by
    rw [Pipe.yield, Pipe.yield, append_assoc, append_assoc] at h
    obtain ⟨rfl, hrest⟩ := Exec.unique_append e e' (Starts.cons (Or.inl rfl) _)
      (Starts.cons (Or.inl rfl) _) h
    obtain ⟨rfl, hend⟩ := Pipe.unique_append p p' hr hr' (List.cons.inj hrest).2
    exact ⟨rfl, hend⟩

theorem Exec.unique_append : ∀ (d d' : Exec) {r r' : List Tok}, Starts Tok.AfterExec r →
    Starts Tok.AfterExec r' → d.yield ++ r = d'.yield ++ r' → d = d' ∧ r = r'
  | .block l rs, .block l' rs', r, r', hr, hr', h => by
    simp only [Exec.yield, cons_append, append_assoc, List.cons.injEq, true_and] at h
    have hrpar : Tok.AfterLine .rpar := rfl
    obtain ⟨rfl, hrest⟩ := Line.unique_append l l' (Starts.cons hrpar _) (Starts.cons hrpar _) h
    obtain ⟨rfl, hend⟩ := redirs_unique (hr.mono fun _ => Tok.AfterExec.notOp)
      (hr'.mono fun _ => Tok.AfterExec.notOp) (List.cons.inj hrest).2
    exact ⟨rfl, hend⟩
  | .block l rs, .simple rs' args', r, r', hr, hr', h => (simple_ne_lpar hr' h.symm).elim
  | .simple rs args, .block l' rs', r, r', hr, hr', h => (simple_ne_lpar hr h).elim
  | .simple rs args, .simple rs' args', r, r', hr, hr', h => by
    rw [Exec.yield, Exec.yield, append_assoc, append_assoc] at h
    obtain ⟨rfl, hrest⟩ := redirs_unique (starts_args hr) (starts_args hr') h
    obtain ⟨rfl, hend⟩ := args_unique hr hr' hrest
    exact ⟨rfl, hend⟩

end

/-- **A sequence of tokens has one derivation at most.** -/
theorem Line.unique {d d' : Line} (h : d.yield = d'.yield) : d = d' := by
  have hnil : Starts Tok.AfterLine [] := fun t ht => by cases ht
  exact (Line.unique_append d d' hnil hnil (by rw [h])).1

end Xv6.Sh
