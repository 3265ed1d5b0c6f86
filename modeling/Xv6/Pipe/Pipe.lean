import Xv6.Library.Concurrent

/-!
# Pipes

The functions of `pipe.c`, with `sleep`, `wakeup` and `kill` as they are for processes that sleep on
one of the two counters of a pipe.

Two locks matter here, `p->lock` and `ptable.lock`. A process that calls `sleep` acquires the
second, gives up the first and sleeps. Nobody looks at whether a process sleeps without holding
`ptable.lock`, so giving up `p->lock` and going to sleep are one step. The scheduler then releases
`ptable.lock`, and it holds the lock again when the process runs on.

The `while` loops in which a process sleeps have a bound that is given with the call: a process that
would have to sleep more often stops. The bytes that a call of `pipewrite` is to write are given by
their addresses, so that the loop reads one at a time.

`stored`, `taken`, `began`, `reads` and `writes` record what has happened; no test looks at them.

## Main definitions

* `State` — a pipe, the two locks, and who sleeps
* `pipewrite`, `piperead`, `pipeclose`, `kill`
* `code` — what processes do
-/

namespace Xv6.Pipe

open Function

/-- `PIPESIZE`. -/
abbrev pipesize : ℕ := 512

/-- What a process can sleep on: `&p->nread` and `&p->nwrite`. -/
inductive Chan
  | nread | nwrite
  deriving DecidableEq

/-- `p->lock` and `ptable.lock`. -/
inductive Lock
  | pipe | ptable
  deriving DecidableEq

/-- How a process can fail. -/
inductive Panic
  | acquire | release
  deriving DecidableEq

/-- What a call of `pipewrite` has done. -/
structure Written (ι : Type) where
  proc : ι
  bytes : List UInt8
  /-- Their number, as it was given. -/
  n : ℤ
  sent : List UInt8
  ret : ℤ

/-- A pipe, and the processes that use it. -/
structure State (ι : Type) where
  data : ℕ → UInt8
  nread : UInt32
  nwrite : UInt32
  readopen : Bool
  writeopen : Bool
  /-- The page has been freed. -/
  freed : Bool
  lock : Lock → Option ι
  /-- Who is `SLEEPING`, and on what. -/
  asleep : ι → Option Chan
  killed : ι → Bool
  stored : List (ι × UInt8)
  taken : List UInt8
  /-- How many bytes had been stored when the current call began. -/
  began : ι → ℕ
  reads : List (ι × List UInt8)
  writes : List (Written ι)

variable {ι : Type}

namespace State

variable (s : State ι)

/-- The buffer is full. -/
def Full : Prop := s.nwrite = s.nread + UInt32.ofNat pipesize

instance : Decidable s.Full := inferInstanceAs (Decidable (_ = _))

variable [DecidableEq ι]

/-- The state with another holder of a lock. -/
def setLock (k : Lock) (p : Option ι) : State ι := { s with lock := update s.lock k p }

/-- The bytes that process `p` has stored in its current call, in their order. -/
def sent (p : ι) : List UInt8 := ((s.stored.drop (s.began p)).filter fun x => x.1 = p).map Prod.snd

end State

variable [DecidableEq ι]

/-- Programs. -/
abbrev Code (ι : Type) : Type → Type 1 := Prog (State ι) Panic

/-! ### Locks and sleeping -/

/-- Acquire a lock. -/
def acquire (p : ι) (k : Lock) : Code ι Unit :=
  .step fun s =>
    if s.lock k = some p then some (.error .acquire)
    else if s.lock k ≠ none then none
    else some (.ok ((), s.setLock k (some p)))

/-- A step that needs a lock, and fails if the process does not hold it. -/
def holding {β : Type} (p : ι) (k : Lock) (f : State ι → β × State ι) : Code ι β :=
  .step fun s => if s.lock k ≠ some p then some (.error .release) else some (.ok (f s))

/-- Release a lock. -/
def release (p : ι) (k : Lock) : Code ι Unit := holding p k fun s => ((), s.setLock k none)

/-- Wake up all processes sleeping on `chan`. -/
def wakeup (p : ι) (chan : Chan) : Code ι Unit := do
  acquire p .ptable
  Prog.modify fun s =>
    { s with asleep := fun q => if s.asleep q = some chan then none else s.asleep q }
  release p .ptable

/-- Release `p->lock` and sleep on `chan`; acquire the lock again when awakened. -/
def sleep (p : ι) (chan : Chan) : Code ι Unit := do
  acquire p .ptable
  holding p .pipe fun s =>
    ((), { s.setLock .pipe none with asleep := update s.asleep p (some chan) })
  -- in the scheduler
  release p .ptable
  .step fun s =>
    if s.asleep p ≠ none ∨ s.lock .ptable ≠ none then none
    else some (.ok ((), s.setLock .ptable (some p)))
  -- the process runs again
  release p .ptable
  acquire p .pipe

/-! ### Writing -/

/-- A call begins. -/
def start (p : ι) : Code ι Unit :=
  Prog.modify fun s => { s with began := update s.began p s.stored.length }

/-- The loop in which a writer waits for room. It gives up if nobody can read, or if the process has
been killed. -/
def waitRoom (p : ι) : ℕ → Code ι Bool
  | 0 => .step fun _ => none
  | fuel + 1 => do
    let full ← Prog.read fun s => decide s.Full
    if full then
      let stop ← Prog.read fun s => !s.readopen || s.killed p
      if stop then pure false
      else
        wakeup p .nread
        sleep p .nwrite
        waitRoom p fuel
    else pure true

/-- Store a byte. -/
def store (p : ι) (b : UInt8) : Code ι Unit :=
  Prog.modify fun s => { s with
    data := update s.data (s.nwrite.toNat % pipesize) b
    nwrite := s.nwrite + 1
    stored := s.stored ++ [(p, b)] }

/-- The loop over the bytes that are to be written; it tells whether it came to its end. -/
def writeLoop (p : ι) (fuel : ℕ) : List UInt8 → Code ι Bool
  | [] => pure true
  | b :: bs => do
    let room ← waitRoom p fuel
    if room then
      store p b
      writeLoop p fuel bs
    else pure false

/-- Release `p->lock`, and return from `pipewrite`. -/
def endWrite (p : ι) (bytes : List UInt8) (n ret : ℤ) : Code ι ℤ :=
  holding p .pipe fun s =>
    (ret, { s.setLock .pipe none with writes := ⟨p, bytes, n, s.sent p, ret⟩ :: s.writes })

/-- Write the `n` bytes at `addr`. -/
def pipewrite (p : ι) (addr : ℕ → UInt8) (n : ℤ) (fuel : ℕ) : Code ι ℤ := do
  let bytes := (List.range n.toNat).map addr
  start p
  acquire p .pipe
  let done ← writeLoop p fuel bytes
  if done then
    wakeup p .nread
    endWrite p bytes n n
  else endWrite p bytes n (-1)

/-! ### Reading -/

/-- The loop in which a reader waits for bytes. It gives up if the process has been killed. -/
def waitData (p : ι) : ℕ → Code ι Bool
  | 0 => .step fun _ => none
  | fuel + 1 => do
    let empty ← Prog.read fun s => decide (s.nread = s.nwrite) && s.writeopen
    if empty then
      let killed ← Prog.read fun s => s.killed p
      if killed then pure false
      else
        sleep p .nread
        waitData p fuel
    else pure true

/-- Copy a byte out. -/
def take : Code ι UInt8 :=
  .step fun s =>
    let b := s.data (s.nread.toNat % pipesize)
    some (.ok (b, { s with nread := s.nread + 1, taken := s.taken ++ [b] }))

/-- The loop that copies at most `n` bytes out. -/
def readLoop : ℕ → List UInt8 → Code ι (List UInt8)
  | 0, bs => pure bs
  | n + 1, bs => do
    let empty ← Prog.read fun s => decide (s.nread = s.nwrite)
    if empty then pure bs
    else
      let b ← take
      readLoop n (bs ++ [b])

/-- Release `p->lock`, and return the bytes from `piperead`. -/
def endRead (p : ι) (bs : List UInt8) : Code ι ℤ :=
  holding p .pipe fun s => (bs.length, { s.setLock .pipe none with reads := s.reads ++ [(p, bs)] })

/-- Read at most `n` bytes. -/
def piperead (p : ι) (n : ℤ) (fuel : ℕ) : Code ι ℤ := do
  acquire p .pipe
  let done ← waitData p fuel
  if done then
    let bs ← readLoop n.toNat []
    wakeup p .nwrite
    endRead p bs
  else
    release p .pipe
    pure (-1)

/-! ### Closing -/

/-- Close an end of the pipe, and free its page if the other one has been closed too. -/
def pipeclose (p : ι) (writable : Bool) : Code ι Unit := do
  acquire p .pipe
  if writable then
    Prog.modify fun s => { s with writeopen := false }
    wakeup p .nread
  else
    Prog.modify fun s => { s with readopen := false }
    wakeup p .nwrite
  let last ← Prog.read fun s => !s.readopen && !s.writeopen
  if last then
    release p .pipe
    Prog.modify fun s => { s with freed := true }
  else release p .pipe

/-- Kill process `q`. -/
def kill (p q : ι) : Code ι Unit := do
  acquire p .ptable
  Prog.modify fun s => { s with
    killed := update s.killed q true
    asleep := update s.asleep q none }
  release p .ptable

/-! ### Processes -/

/-- What a process can be called to do. -/
inductive Call (ι : Type)
  | write (addr : ℕ → UInt8) (n : ℤ) (fuel : ℕ)
  | read (n : ℤ) (fuel : ℕ)
  | close (writable : Bool)
  | kill (q : ι)

/-- What processes do. -/
def code (p : ι) : Call ι → Code ι Unit
  | .write addr n fuel => do
    let _ ← pipewrite p addr n fuel
    pure ()
  | .read n fuel => do
    let _ ← piperead p n fuel
    pure ()
  | .close writable => pipeclose p writable
  | .kill q => kill p q

/-- A new pipe, in a page with any contents. -/
def pipealloc (data : ℕ → UInt8) (killed : ι → Bool) : State ι where
  data := data
  nread := 0
  nwrite := 0
  readopen := true
  writeopen := true
  freed := false
  lock := fun _ => none
  asleep := fun _ => none
  killed := killed
  stored := []
  taken := []
  began := fun _ => 0
  reads := []
  writes := []

end Xv6.Pipe
