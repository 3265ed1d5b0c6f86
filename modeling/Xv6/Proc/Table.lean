import Mathlib.Data.Fintype.Basic
import Mathlib.Data.List.FinRange
import Xv6.Library.Concurrent

/-!
# The process table and the scheduler

The functions of `proc.c`, for any number of CPUs. A CPU executes a *thread*: its own scheduler
loop, or the kernel thread of a process. `swtch` makes it go on with another one. The only lock here
is `ptable.lock`. It is acquired in one thread and released in another: the scheduler switches to a
process with the lock held, and the process releases it.

Every function is a program of atomic steps. A statement that reads or writes the table is a step.
So is a loop over the table, except for that of `allocproc`: what loops look at is written with the
lock held. But slots become `UNUSED` without it when `fork` fails, which `allocproc` can see, and
`fork` sets `parent` without it, which no loop can see that another process runs: it compares with a
process of its own.

What the model leaves out is given with the call. Whether there was memory is an argument of `fork`.
What a process does at points where it does not hold the lock, in other kernel code or in interrupt
handlers, is an argument too: a list of calls of `sleep`, `wakeup` and `yield`. So is the number of
times that `wait` goes to sleep; a process that would have to do so more often stops.

## Main definitions

* `State` — the process table, and what each CPU executes
* `allocproc`, `fork`, `exit`, `wait`, `kill`, `yield`, `sleep`, `wakeup`, `scheduler`
* `kernel` — what threads do
-/

namespace Xv6.Sched

open Function (update)

/-- Maximum number of processes. -/
abbrev nproc : ℕ := 64

/-- The slots of the process table. -/
abbrev Slot : Type := Fin nproc

/-- All slots, in the order in which loops go through them. -/
def slots : List Slot := List.finRange nproc

theorem mem_slots (i : Slot) : i ∈ slots := List.mem_finRange i

/-- `enum procstate`. -/
inductive ProcState
  | unused | embryo | sleeping | runnable | running | zombie
  deriving DecidableEq, Repr

/-- What a process can sleep on: the address of a process, or another one. -/
inductive Chan
  | proc (i : Slot)
  | addr (a : ℕ)
  deriving DecidableEq, Repr

/-- `struct proc`. -/
structure Proc where
  state : ProcState
  pid : ℤ
  parent : Option Slot
  /-- If there is one, the process sleeps on it. -/
  chan : Option Chan
  killed : Bool
  /-- `swtch` here to run the process: which thread it is. -/
  context : ℕ
  deriving DecidableEq

/-- Threads: the kernel threads of processes, in the order in which they are set up, and the
schedulers. -/
inductive Thread (κ : Type)
  | proc (k : ℕ)
  | sched (c : κ)
  deriving DecidableEq

/-- What the calls of a run have done. -/
inductive Event
  /-- `allocproc` has given this process ID to slot `i`. -/
  | assigned (pid : ℤ) (i : Slot)
  /-- The process with this ID has called `exit`. -/
  | exited (pid : ℤ)
  /-- `wait`, called by the process in slot `i`, returns this ID. -/
  | waited (i : Slot) (pid : ℤ)
  /-- `kill` was called with this ID, and has marked slot `i`. -/
  | killed (pid : ℤ) (i : Slot)
  /-- `fork` fails after this ID was given to a slot. -/
  | failed (pid : ℤ)
  deriving DecidableEq

/-- How the machine can fail. -/
inductive Panic
  | acquire | release | schedLock | schedRunning | initExiting | zombieExit
  | noProc
  /-- A CPU is about to execute a thread that another one executes. -/
  | twice
  deriving DecidableEq

/-- The process table and the CPUs. -/
structure State (κ : Type) where
  lock : Option κ
  proc : Slot → Proc
  nextpid : ℤ
  initproc : Option Slot
  /-- `proc` of each CPU: the process it runs. -/
  cur : κ → Option Slot
  on : Thread κ → Option κ
  /-- The number of threads of processes that have been set up. -/
  born : ℕ
  /-- The slot that the thread was set up for. -/
  slot : ℕ → Slot
  /-- Whether the thread has left `forkret`. -/
  started : ℕ → Bool
  /-- What has been done, the latest first. -/
  trace : List Event

namespace State

variable {κ : Type} (s : State κ) (i : Slot)

/-- The state with another slot. -/
def setProc (p : Proc) : State κ := { s with proc := update s.proc i p }
/-- The state with another process state in a slot. -/
def setState (st : ProcState) : State κ := s.setProc i { s.proc i with state := st }
/-- The state with one more event. -/
def note (e : Event) : State κ := { s with trace := e :: s.trace }

end State

/-! ### Functions on the table -/

/-- Wake up all processes sleeping on `chan`. -/
def wakeup1 (chan : Option Chan) (f : Slot → Proc) : Slot → Proc := fun j =>
  if (f j).state = .sleeping ∧ (f j).chan = chan then { f j with state := .runnable } else f j

/-- The loop of `exit` that passes abandoned children of slot `i` to init. -/
def abandon (i : Slot) (initproc : Option Slot) : List Slot → (Slot → Proc) → Slot → Proc
  | [], f => f
  | j :: js, f =>
    if (f j).parent = some i then
      let f := update f j { f j with parent := initproc }
      abandon i initproc js
        (if (f j).state = .zombie then wakeup1 (initproc.map .proc) f else f)
    else abandon i initproc js f

/-- What `wait` finds when it scans the table. -/
inductive Scan
  | zombie (j : Slot)
  /-- There are children, and the process has not been killed. -/
  | children
  /-- There are none, or it has been killed. -/
  | done

/-- Scan through the table looking for zombie children of slot `i`. -/
def scan (i : Slot) (f : Slot → Proc) : Scan :=
  match slots.find? fun j => (f j).parent = some i ∧ (f j).state = .zombie with
  | some j => .zombie j
  | none =>
    if (slots.any fun j => (f j).parent = some i) ∧ !(f i).killed then .children else .done

/-- A slot after `wait` has freed it. -/
def freed (p : Proc) :
    Proc := { p with state := .unused, pid := 0, parent := none, killed := false }

/-- The increment of an `int`. -/
def incr (n : ℤ) : ℤ := Int.bmod (n + 1) (2 ^ 32)

variable {κ : Type} [DecidableEq κ]

/-- Programs. -/
abbrev Code (κ : Type) : Type → Type 1 := Prog (State κ) Panic

/-! ### Steps -/

/-- A step of a thread, which takes place when a CPU executes it. -/
def onCpu {β : Type} (t : Thread κ) (f : κ → State κ → Except Panic (β × State κ)) : Code κ β :=
  .step fun s => (s.on t).map fun c => f c s

/-- A step of the thread of a process, which is `proc` of the CPU. -/
def self {β : Type} (t : Thread κ) (f : Slot → State κ → β × State κ) : Code κ β :=
  onCpu t fun c s =>
    match s.cur c with
    | none => .error .noProc
    | some i => .ok (f i s)

/-- Acquire `ptable.lock`. -/
def acquire (t : Thread κ) : Code κ Unit :=
  .step fun s => (s.on t).bind fun c =>
    if s.lock = some c then some (.error .acquire)
    else if s.lock ≠ none then none
    else some (.ok ((), { s with lock := some c }))

/-- Release `ptable.lock`. -/
def release (t : Thread κ) : Code κ Unit :=
  onCpu t fun c s =>
    if s.lock ≠ some c then .error .release else .ok ((), { s with lock := none })

/-- Enter the scheduler. -/
def sched (t : Thread κ) : Code κ Unit :=
  onCpu t fun c s =>
    if s.lock ≠ some c then .error .schedLock
    else
      match s.cur c with
      | none => .error .noProc
      | some i =>
        if (s.proc i).state = .running then .error .schedRunning
        else .ok ((), { s with
          on := update (update s.on t none) (.sched c) (some c) })

/-! ### Sleeping -/

/-- Give up the CPU for one scheduling round. -/
def yield (t : Thread κ) : Code κ Unit := do
  acquire t
  self t fun i s => ((), s.setState i .runnable)
  sched t
  release t

/-- The part of `sleep` in which `ptable.lock` is held, before the process has been switched from.
-/
def doze (t : Thread κ) (chan : Slot → Chan) : Code κ Unit := do
  self t fun i s =>
    ((), s.setProc i { s.proc i with chan := some (chan i), state := .sleeping })
  sched t
  self t fun i s => ((), s.setProc i { s.proc i with chan := none })

/-- Release another lock and sleep on `chan`, which is not the address of a process. -/
def sleep (t : Thread κ) (a : ℕ) : Code κ Unit := do
  acquire t
  doze t fun _ => .addr a
  release t

/-- Wake up all processes sleeping on `chan`. -/
def wakeup (t : Thread κ) (chan : Chan) : Code κ Unit := do
  acquire t
  onCpu t fun _ s => .ok ((), { s with proc := wakeup1 (some chan) s.proc })
  release t

/-- What other kernel code can do. -/
inductive Work
  | yield
  | sleep (a : ℕ)
  | wakeup (chan : Chan)

/-- What happens while the process does not hold the lock. -/
def work (t : Thread κ) : List Work → Code κ Unit
  | [] => pure ()
  | .yield :: ws => do
    yield t
    work t ws
  | .sleep a :: ws => do
    sleep t a
    work t ws
  | .wakeup chan :: ws => do
    wakeup t chan
    work t ws

/-! ### Processes -/

/-- A step of the loop of `allocproc`: take the slot if it is `UNUSED`. -/
def allocTest (t : Thread κ) (j : Slot) : Code κ Bool :=
  onCpu t fun _ s =>
    if (s.proc j).state = .unused then
      .ok (true, ({ s.setProc j { s.proc j with state := .embryo, pid := s.nextpid } with
        nextpid := incr s.nextpid }).note (.assigned s.nextpid j))
    else .ok (false, s)

/-- Look in the process table for an `UNUSED` slot. -/
def allocLoop (t : Thread κ) : List Slot → Code κ (Option Slot)
  | [] => pure none
  | j :: js => do
    let found ← allocTest t j
    if found then pure (some j) else allocLoop t js

/-- Give up the slot that was allocated. It keeps its process ID. -/
def giveUp (t : Thread κ) (j : Slot) : Code κ Unit :=
  onCpu t fun _ s => .ok ((), (s.setState j .unused).note (.failed (s.proc j).pid))

/-- Look in the process table for an `UNUSED` slot. If found, initialize the state required to run
in the kernel; `kstack` is whether there was memory for the kernel stack. -/
def allocproc (t : Thread κ) (kstack : Bool) (w : List Work) : Code κ (Option Slot) := do
  acquire t
  let found ← allocLoop t slots
  release t
  work t w
  match found with
  | none => pure none
  | some j =>
    if kstack then
      onCpu t fun _ s => .ok ((), { s.setProc j { s.proc j with context := s.born } with
        born := s.born + 1, slot := update s.slot s.born j })
      pure (some j)
    else
      giveUp t j
      pure none

/-- Create a new process; `pgdir` is whether `copyuvm` has made a copy of the memory. `w n` is what
happens at the `n`th point where the lock is not held. -/
def fork (t : Thread κ) (kstack pgdir : Bool) (w : ℕ → List Work) : Code κ ℤ := do
  let np ← allocproc t kstack (w 0)
  match np with
  | none => pure (-1)
  | some j =>
    work t (w 1)
    if !pgdir then
      giveUp t j
      pure (-1)
    else
      self t fun i s => ((), s.setProc j { s.proc j with parent := some i })
      work t (w 2)
      let pid ← onCpu t fun _ s => .ok ((s.proc j).pid, s)
      acquire t
      onCpu t fun _ s => .ok ((), s.setState j .runnable)
      release t
      work t (w 3)
      pure pid

/-- Exit the current process. -/
def exit (t : Thread κ) (w : List Work) : Code κ Unit := do
  let init ← self t fun i s => (decide (s.initproc = some i), s)
  if init then Prog.panic .initExiting
  else
    -- close all open files, and leave the current directory
    work t w
    acquire t
    self t fun i s => ((), { s with proc := wakeup1 ((s.proc i).parent.map .proc) s.proc })
    self t fun i s => ((), { s with proc := abandon i s.initproc slots s.proc })
    self t fun i s => ((), (s.setState i .zombie).note (.exited (s.proc i).pid))
    sched t
    onCpu t fun _ _ => .error .zombieExit

/-- A scan of the table by `wait`, which frees a zombie that it finds. -/
def collect (t : Thread κ) : Code κ (Option ℤ) :=
  self t fun i s =>
    match scan i s.proc with
    | .zombie j =>
        (some (s.proc j).pid, (s.setProc j (freed (s.proc j))).note (.waited i (s.proc j).pid))
    | .children => (none, s)
    | .done => (some (-1), s)

/-- The loop of `wait`. -/
def waitLoop (t : Thread κ) : ℕ → Code κ ℤ
  | 0 => .step fun _ => none
  | n + 1 => do
    let found ← collect t
    match found with
    | some pid =>
      release t
      pure pid
    | none =>
      doze t .proc
      waitLoop t n

/-- Wait for a child process to exit and return its pid. -/
def wait (t : Thread κ) (n : ℕ) : Code κ ℤ := do
  acquire t
  waitLoop t n

/-- Kill the process with the given pid. -/
def kill (t : Thread κ) (pid : ℤ) : Code κ ℤ := do
  acquire t
  let found ← onCpu t fun _ s =>
    match slots.find? fun j => (s.proc j).pid = pid with
    | none => .ok (-1, s)
    | some j =>
      let st := (s.proc j).state
      .ok (0, (s.setProc j { s.proc j with
        killed := true, state := if st = .sleeping then .runnable else st }).note (.killed pid j))
  release t
  pure found

/-! ### The scheduler -/

/-- The scheduler switches to the process it has chosen. -/
def swtch (c : κ) : Code κ Unit :=
  onCpu (.sched c) fun c s =>
    match s.cur c with
    | none => .error .noProc
    | some i =>
      if s.on (.proc (s.proc i).context) ≠ none then .error .twice
      else .ok ((), { s with
        on := update (update s.on (.sched c) none) (.proc (s.proc i).context)
          (some c) })

/-- Loop over the process table looking for a process to run. -/
def schedulerLoop (c : κ) : List Slot → Code κ Unit
  | [] => pure ()
  | i :: is => do
    let found ← onCpu (.sched c) fun c s =>
      if (s.proc i).state ≠ .runnable then .ok (false, s)
      else .ok (true, { s with cur := update s.cur c (some i) })
    if found then
      onCpu (.sched c) fun _ s => .ok ((), s.setState i .running)
      swtch c
      -- the process is done running for now
      onCpu (.sched c) fun c s => .ok ((), { s with cur := update s.cur c none })
    schedulerLoop c is

/-- One round of the per-CPU process scheduler. -/
def scheduler (c : κ) : Code κ Unit := do
  acquire (.sched c)
  schedulerLoop c slots
  release (.sched c)

/-! ### Threads -/

/-- What a thread can be called to do. -/
inductive Call
  | fork (kstack pgdir : Bool) (w : ℕ → List Work)
  | exit (w : List Work)
  | wait (n : ℕ)
  | kill (pid : ℤ)
  | work (w : List Work)
  | round
  /-- An interrupt handler wakes somebody up, on a CPU that runs no process. -/
  | intr (chan : Chan)

/-- A process comes out of `swtch`: if it has never run, in `forkret`, where it releases the lock.
-/
def forkret (k : ℕ) : Code κ Unit := do
  let first ← onCpu (.proc k) fun _ s => .ok (!s.started k, s)
  if first then
    onCpu (.proc k) fun c s =>
      if s.lock ≠ some c then .error .release
      else .ok ((), { s with lock := none, started := update s.started k true })

/-- What threads do. -/
def kernel : Thread κ → Call → Code κ Unit
  | .sched c, .round => scheduler c
  | .sched c, .intr chan => wakeup (.sched c) chan
  | .sched _, _ => pure ()
  | .proc _, .round => pure ()
  | .proc _, .intr _ => pure ()
  | .proc k, .fork kstack pgdir w => do
    forkret k
    let _ ← fork (.proc k) kstack pgdir w
    pure ()
  | .proc k, .exit w => do
    forkret k
    exit (.proc k) w
  | .proc k, .wait n => do
    forkret k
    let _ ← wait (.proc k) n
    pure ()
  | .proc k, .kill pid => do
    forkret k
    let _ ← kill (.proc k) pid
    pure ()
  | .proc k, .work w => do
    forkret k
    work (.proc k) w

/-- The state in which `main` enters the scheduler: `userinit` has set up the first process. -/
def boot : State κ where
  lock := none
  proc := fun i =>
    if i = 0 then ⟨.runnable, 1, none, none, false, 0⟩ else ⟨.unused, 0, none, none, false, 0⟩
  nextpid := 2
  initproc := some 0
  cur := fun _ => none
  on := fun
    | .proc _ => none
    | .sched c => some c
  born := 1
  slot := fun _ => 0
  started := fun _ => false
  trace := [.assigned 1 0]

end Xv6.Sched
