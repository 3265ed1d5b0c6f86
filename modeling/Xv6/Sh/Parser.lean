import Mathlib.Logic.Function.Basic
import Mathlib.Tactic.Common

/-!
# The parser of the shell

`parsecmd` of `sh.c` and what it calls. The line is a buffer with a NUL at its end, and pointers
into it are positions. `gettoken` takes the next token and `peek` looks at it; both pass over
blanks.

The five functions call one another, and a loop has as many rounds as it takes, so the functions
here have the depth of calls and the number of rounds that is enough as an argument.

## Main definitions

* `gettoken`, `peek` — tokens
* `parsecmd` — the parser
* `tokens` — the tokens of a line, as `gettoken` gives them
-/

namespace Xv6.Sh

/-! ### Tokens -/

/-- `whitespace`. -/
def whitespace : List UInt8 := [' ', '\t', '\r', '\n', '\x0b'].map Char.toUInt8

/-- `symbols`. -/
def symbols : List UInt8 := ['<', '|', '>', '&', ';', '(', ')'].map Char.toUInt8

/-- `strchr(whitespace, c)`. -/
def isWhite (c : UInt8) : Bool := decide (c ∈ whitespace)

/-- A byte that a word can have. -/
def isWord (c : UInt8) : Bool := decide (c ∉ whitespace) && decide (c ∉ symbols)

/-- What `gettoken` returns, and stores. -/
structure Got where
  ret : UInt8
  /-- `*q`: where the token starts. -/
  q : ℕ
  /-- `*eq`: where it ends. -/
  eq : ℕ
  /-- `*ps`: where the next one is. -/
  next : ℕ

section Lex

variable (buf : List UInt8)

/-- `*s`. -/
def byte (s : ℕ) : UInt8 := buf.getD s 0

/-- `while(s < es && p(*s)) s++;`, where `es` is so many bytes away. -/
def scanLoop (p : UInt8 → Bool) : ℕ → ℕ → ℕ
  | 0, s => s
  | k + 1, s => if p (byte buf s) then scanLoop p k (s + 1) else s

/-- `while(s < es && p(*s)) s++;`. -/
def scan (p : UInt8 → Bool) (s : ℕ) : ℕ := scanLoop buf p (buf.length - s) s

/-- The next token, and where it starts and ends. -/
def gettoken (s : ℕ) : Got :=
  let s := scan buf isWhite s
  let q := s
  let c := byte buf s
  let r : UInt8 × ℕ :=
    if c = 0 then (c, s)
    else if c ∈ ['|', '(', ')', ';', '&', '<'].map Char.toUInt8 then (c, s + 1)
    else if c = '>'.toUInt8 then
      if byte buf (s + 1) = '>'.toUInt8 then ('+'.toUInt8, s + 1 + 1) else (c, s + 1)
    else ('a'.toUInt8, scan buf isWord s)
  ⟨r.1, q, r.2, scan buf isWhite r.2⟩

/-- Is the next token one of `toks`? -/
def peek (toks : List Char) (s : ℕ) : Bool × ℕ :=
  let s := scan buf isWhite s
  (decide (byte buf s ≠ 0 ∧ byte buf s ∈ toks.map Char.toUInt8), s)

end Lex

/-! ### Commands -/

/-- `struct cmd`. A string is where it starts and where it ends. -/
inductive Cmd
  | exec (argv : List (ℕ × ℕ))
  | redir (cmd : Cmd) (file efile : ℕ) (mode fd : ℕ)
  | pipe (left right : Cmd)
  | list (left right : Cmd)
  | back (cmd : Cmd)
  deriving DecidableEq

/-- `O_RDONLY`. -/
def oRdonly : ℕ := 0

/-- `O_WRONLY|O_CREATE`. -/
def oWronlyCreate : ℕ := 0x001 ||| 0x200

/-- `MAXARGS`. -/
def maxargs : ℕ := 10

/-- `cmd->argv[argc] = q`, where `cmd` is the command that the redirections so far are around. -/
def Cmd.addArg (w : ℕ × ℕ) : Cmd → Cmd
  | .exec argv => .exec (argv ++ [w])
  | .redir cmd file efile mode fd => .redir (cmd.addArg w) file efile mode fd
  | c => c

/-- NUL-terminate all the counted strings. -/
def nulterminate : Cmd → (ℕ → UInt8) → ℕ → UInt8
  | .exec argv, mem => argv.foldl (fun mem w => Function.update mem w.2 0) mem
  | .redir cmd _ efile _ _, mem => Function.update (nulterminate cmd mem) efile 0
  | .pipe left right, mem => nulterminate right (nulterminate left mem)
  | .list left right, mem => nulterminate right (nulterminate left mem)
  | .back cmd, mem => nulterminate cmd mem

/-! ### The parser -/

/-- What comes of parsing. -/
inductive Res (α : Type)
  | ok (a : α) (s : ℕ)
  | panic (msg : String)
  /-- The calls are too deep, or a loop has too many rounds. -/
  | deep

/-- Go on with the result. -/
def Res.bind {α β : Type} (r : Res α) (f : α → ℕ → Res β) : Res β :=
  match r with
  | .ok a s => f a s
  | .panic msg => .panic msg
  | .deep => .deep

section Parse

variable (buf : List UInt8)

/-- The loop of `parseline`. -/
def parseamps : ℕ → Cmd → ℕ → Res Cmd
  | 0, _, _ => .deep
  | k + 1, cmd, s =>
    let p := peek buf ['&'] s
    if p.1 then parseamps k (.back cmd) (gettoken buf p.2).next else .ok cmd p.2

/-- Redirections, wrapped around the command one after the other. -/
def parseredirs : ℕ → Cmd → ℕ → Res Cmd
  | 0, _, _ => .deep
  | k + 1, cmd, s =>
    let p := peek buf ['<', '>'] s
    if p.1 then
      let tok := gettoken buf p.2
      let f := gettoken buf tok.next
      if f.ret ≠ 'a'.toUInt8 then .panic "missing file for redirection"
      else
        let cmd :=
          if tok.ret = '<'.toUInt8 then .redir cmd f.q f.eq oRdonly 0
          else if tok.ret = '>'.toUInt8 then .redir cmd f.q f.eq oWronlyCreate 1
          else if tok.ret = '+'.toUInt8 then .redir cmd f.q f.eq oWronlyCreate 1
          else cmd
        parseredirs k cmd f.next
    else .ok cmd p.2

/-- The loop of `parseexec`. -/
def parseargs : ℕ → Cmd → ℕ → ℕ → Res Cmd
  | 0, _, _, _ => .deep
  | k + 1, ret, argc, s =>
    let p := peek buf ['|', ')', '&', ';'] s
    if p.1 then .ok ret p.2
    else
      let tok := gettoken buf p.2
      if tok.ret = 0 then .ok ret tok.next
      else if tok.ret ≠ 'a'.toUInt8 then .panic "syntax"
      else if argc + 1 ≥ maxargs then .panic "too many args"
      else
        (parseredirs buf k (ret.addArg (tok.q, tok.eq)) tok.next).bind fun ret s =>
          parseargs k ret (argc + 1) s

mutual

/-- A pipe, then `&`s, then the rest behind a `;`. -/
def parseline : ℕ → ℕ → Res Cmd
  | 0, _ => .deep
  | k + 1, s =>
    (parsepipe k s).bind fun cmd s =>
      (parseamps buf k cmd s).bind fun cmd s =>
        let p := peek buf [';'] s
        if p.1 then
          (parseline k (gettoken buf p.2).next).bind fun right s => .ok (.list cmd right) s
        else .ok cmd p.2

/-- A command, then the rest behind a `|`. -/
def parsepipe : ℕ → ℕ → Res Cmd
  | 0, _ => .deep
  | k + 1, s =>
    (parseexec k s).bind fun cmd s =>
      let p := peek buf ['|'] s
      if p.1 then
        (parsepipe k (gettoken buf p.2).next).bind fun right s => .ok (.pipe cmd right) s
      else .ok cmd p.2

/-- A simple command, or a block. -/
def parseexec : ℕ → ℕ → Res Cmd
  | 0, _ => .deep
  | k + 1, s =>
    let p := peek buf ['('] s
    if p.1 then parseblock k p.2
    else (parseredirs buf k (.exec []) p.2).bind fun ret s => parseargs buf k ret 0 s

/-- A line in brackets, with redirections. -/
def parseblock : ℕ → ℕ → Res Cmd
  | 0, _ => .deep
  | k + 1, s =>
    let p := peek buf ['('] s
    if !p.1 then .panic "parseblock"
    else
      (parseline k (gettoken buf p.2).next).bind fun cmd s =>
        let p := peek buf [')'] s
        if !p.1 then .panic "syntax - missing )"
        else parseredirs buf k cmd (gettoken buf p.2).next

end

/-- `parsecmd`: the command, and the buffer with its strings terminated. -/
def parsecmd (k : ℕ) : Res (Cmd × (ℕ → UInt8)) :=
  (parseline buf k 0).bind fun cmd s =>
    let p := peek buf [] s
    if p.2 ≠ buf.length then .panic "syntax"
    else .ok (cmd, nulterminate cmd (byte buf)) p.2

end Parse

/-! ### The tokens of a line -/

/-- Tokens. -/
inductive Tok
  | bar
  | lpar
  | rpar
  | semi
  | amp
  | lt
  | gt
  | gtgt
  | word (q eq : ℕ)
  deriving DecidableEq

/-- What `gettoken` returns for the token. -/
def Tok.ret : Tok → UInt8
  | .bar => '|'.toUInt8
  | .lpar => '('.toUInt8
  | .rpar => ')'.toUInt8
  | .semi => ';'.toUInt8
  | .amp => '&'.toUInt8
  | .lt => '<'.toUInt8
  | .gt => '>'.toUInt8
  | .gtgt => '+'.toUInt8
  | .word _ _ => 'a'.toUInt8

/-- The token that `gettoken` has got. -/
def Got.tok (g : Got) : Tok :=
  ([.bar, .lpar, .rpar, .semi, .amp, .lt, .gt, .gtgt].find? fun t => t.ret = g.ret).getD
    (.word g.q g.eq)

/-- The tokens that `gettoken` gives until it returns `0`, at most so many. -/
def tokensLoop (buf : List UInt8) : ℕ → ℕ → List Tok
  | 0, _ => []
  | k + 1, s =>
    let g := gettoken buf s
    if g.ret = 0 then [] else g.tok :: tokensLoop buf k g.next

/-- The tokens from `s` on. There are not more than bytes. -/
def tokensFrom (buf : List UInt8) (s : ℕ) : List Tok := tokensLoop buf (buf.length - s) s

/-- The tokens of a line. -/
def tokens (buf : List UInt8) : List Tok := tokensFrom buf 0

end Xv6.Sh
