import Xv6.Log.Buffer

/-!
# The disk driver

`ide.c`, with any number of processes that call `iderw`, the interrupt handler and the disk.
Requests are in a queue that is linked through the buffers; all of it is guarded by `idelock`. Every
statement that reads or writes what others see is a step, and so is every round of a loop.

The disk takes a command through its ports, executes it and raises an interrupt, one for each
command. It makes no errors. What is asked of processes is that they do not touch a buffer that is
in a call of `iderw`, and do not pass it to `iderw` again before the call returns.

`sleep` gives up `idelock` until the process is woken, by `wakeup` or by `kill`.

The state has three histories that no step looks at: the requests in the order in which `iderw`
appends them to the queue, the transfers between buffers and the disk, and the requests in the order
in which they complete. A request is a block and, if the buffer is dirty, the data for it.

## Main definitions

* `Drive` — the disk
* `iderw`, `ideintr`, `idestart` — the driver
* `Request.exec`, `Request.result` — what a request does
* `Reach` — the states of all runs
-/

namespace Xv6.Ide

open Function

variable {ι β δ : Type}

/-- `BSIZE / SECTOR_SIZE`. -/
abbrev sectorPerBlock : ℕ := 1

/-- `IDE_CMD_READ`. -/
abbrev ideCmdRead : ℕ := 0x20

/-- `IDE_CMD_WRITE`. -/
abbrev ideCmdWrite : ℕ := 0x30

/-! ### The disk -/

/-- What is written to the ports of the disk. -/
structure Ports where
  /-- 0x1f2: number of sectors. -/
  count : ℕ
  /-- 0x1f3: bits 0 to 7 of the sector. -/
  low : ℕ
  /-- 0x1f4: bits 8 to 15. -/
  mid : ℕ
  /-- 0x1f5: bits 16 to 23. -/
  high : ℕ
  /-- 0x1f6: the disk, and bits 24 to 27 of the sector. -/
  drive : ℕ
  /-- 0x1f7: the command. -/
  command : ℕ
  deriving DecidableEq

/-- The sector that the ports are about. -/
def Ports.sector (r : Ports) : ℕ :=
  r.low + r.mid * 2 ^ 8 + r.high * 2 ^ 16 + r.drive % 16 * 2 ^ 24

/-- The disk that the ports are about. -/
def Ports.disk (r : Ports) : ℕ := r.drive / 16 % 2

/-- What the disk is doing. -/
inductive Status
  | ready
  | busy
  /-- It has raised an interrupt, which nobody has taken yet. -/
  | raised
  deriving DecidableEq

/-- The disk. -/
structure Drive (δ : Type) where
  status : Status
  ports : Ports
  buffer : δ
  media : ℕ → ℕ → δ

/-- The disk has executed its command, and raises an interrupt. -/
def Drive.complete (d : Drive δ) : Drive δ :=
  if d.ports.command = ideCmdWrite then
    { d with
      status := .raised
      media := update d.media d.ports.disk
        (update (d.media d.ports.disk) d.ports.sector d.buffer) }
  else { d with status := .raised, buffer := d.media d.ports.disk d.ports.sector }

/-! ### The driver -/

/-- `struct buf`. The link of the queue is kept elsewhere. -/
structure Buf (δ : Type) where
  busy : Bool
  valid : Bool
  dirty : Bool
  dev : ℕ
  blockno : ℕ
  data : δ

/-- What a buffer asks for: a block, and the data if it is to be written. -/
structure Request (δ : Type) where
  dev : ℕ
  blockno : ℕ
  data : Option δ

/-- What passing the buffer to `iderw` asks for. -/
def Buf.request (x : Buf δ) : Request δ :=
  ⟨x.dev, x.blockno, if x.dirty then some x.data else none⟩

/-- The disks after a request. -/
def Request.exec (r : Request δ) (media : ℕ → ℕ → δ) : ℕ → ℕ → δ :=
  match r.data with
  | none => media
  | some x => update media (r.dev % 2) (update (media (r.dev % 2)) r.blockno x)

/-- The data that the buffer of a request has in the end. -/
def Request.result (r : Request δ) (media : ℕ → ℕ → δ) : δ :=
  r.data.getD (media (r.dev % 2) r.blockno)

/-- The disks after requests that are executed one after the other. -/
def execAll (media : ℕ → ℕ → δ) (l : List (β × Request δ)) : ℕ → ℕ → δ :=
  l.foldl (fun m r => r.2.exec m) media

/-- What `idestart` writes to the ports for a buffer. -/
def ports (x : Buf δ) : Ports :=
  let sector := x.blockno * sectorPerBlock
  { count := sectorPerBlock
    low := sector % 2 ^ 8
    mid := sector / 2 ^ 8 % 2 ^ 8
    high := sector / 2 ^ 16 % 2 ^ 8
    drive := 0xe0 + x.dev % 2 * 16 + sector / 2 ^ 24 % 16
    command := if x.dirty then ideCmdWrite else ideCmdRead }

/-- **The disk is asked for the block of the buffer.** -/
theorem ports_spec {x : Buf δ} (h : x.blockno < fssize) :
    (ports x).sector = x.blockno ∧ (ports x).disk = x.dev % 2 ∧
      ((ports x).command = ideCmdWrite ↔ x.dirty = true) := by
  refine ⟨?_, ?_, ?_⟩
  · simp only [ports, Ports.sector, sectorPerBlock, fssize] at *
    omega
  · simp only [ports, Ports.disk, sectorPerBlock, fssize] at *
    omega
  · by_cases hd : x.dirty = true
    · simp [ports, hd]
    · simp [ports, hd, ideCmdRead, ideCmdWrite]

/-- Where a process is in `iderw`. `k` is the number of its request. -/
inductive Rw (β : Type)
  | acquire
  /-- `b->qnext = 0`. -/
  | append
  /-- The loop over the queue. `pp` points to `idequeue` or to the link of a buffer. -/
  | walk (pp : Option β)
  | start (k : ℕ)
  | test (k : ℕ)
  | asleep (k : ℕ) (woken : Bool)
  /-- In `sleep`: `acquire(&idelock)`. -/
  | relock (k : ℕ)
  | release (k : ℕ)
  deriving DecidableEq

/-- Where the interrupt handler is. -/
inductive Intr (β : Type)
  | acquire
  | pop
  | read (b : β)
  | finish (b : β)
  | next
  | release
  deriving DecidableEq

/-- What a process does. -/
inductive Pc (β : Type)
  | out
  /-- It is in `iderw` with buffer `b`, which was dirty or not when it called. -/
  | rw (b : β) (dirty : Bool) (pos : Rw β)
  | intr (pos : Intr β)
  deriving DecidableEq

/-- The driver, the disk and the processes. -/
structure State (ι β δ : Type) where
  lock : Option ι
  idequeue : Option β
  qnext : β → Option β
  buf : β → Buf δ
  drive : Drive δ
  pc : ι → Pc β
  /-- The requests, as appended. -/
  asked : List (β × Request δ)
  /-- The requests whose data has been transferred. -/
  sent : List (β × Request δ)
  /-- The requests, as completed. -/
  done : List (β × Request δ)

/-- Why a step does not take place. -/
inductive Stuck
  | disabled
  | incorrectBlockno -- "incorrect blockno"
  | notBusy -- "iderw: buf not busy"
  | nothingToDo -- "iderw: nothing to do"
  | noDisk1 -- "iderw: ide disk 1 not present"
  deriving DecidableEq

/-- What can happen. -/
inductive Act (ι β δ : Type)
  | call (p : ι) (b : β)
  | go (p : ι)
  | complete
  | intr (p : ι)
  | kill (p : ι)
  /-- Somebody does something to a buffer. -/
  | touch (b : β) (x : Buf δ)

namespace State

variable [DecidableEq ι] [DecidableEq β] (s : State ι β δ)

/-- The state with process `p` somewhere else. -/
def setPc (p : ι) (c : Pc β) : State ι β δ := { s with pc := update s.pc p c }

omit [DecidableEq β] in
@[simp] theorem setPc_self (p : ι) (c : Pc β) : (s.setPc p c).pc p = c := update_self ..

omit [DecidableEq β] in
theorem setPc_of_ne {p q : ι} (h : q ≠ p) (c : Pc β) : (s.setPc p c).pc q = s.pc q :=
  update_of_ne h ..

/-- The state with another buffer. -/
def setBuf (b : β) (x : Buf δ) : State ι β δ := { s with buf := update s.buf b x }

/-- Take `idelock`, and go on at `c`. -/
def acquire (p : ι) (c : Pc β) : Except Stuck (State ι β δ) :=
  if s.lock = none then .ok { s.setPc p c with lock := some p } else .error .disabled

/-- Release `idelock`, and go on at `c`. -/
def release (p : ι) (c : Pc β) : State ι β δ := { s.setPc p c with lock := none }

/-- `*pp`. -/
def deref : Option β → Option β
  | none => s.idequeue
  | some x => s.qnext x

/-- `*pp = b`. -/
def assign (b : β) : Option β → State ι β δ
  | none => { s with idequeue := some b }
  | some x => { s with qnext := update s.qnext x (some b) }

section Assign

variable (b : β) (pp : Option β)

omit [DecidableEq ι]

@[simp] theorem assign_buf : (s.assign b pp).buf = s.buf := by cases pp <;> rfl
@[simp] theorem assign_drive : (s.assign b pp).drive = s.drive := by cases pp <;> rfl
@[simp] theorem assign_pc : (s.assign b pp).pc = s.pc := by cases pp <;> rfl
@[simp] theorem assign_lock : (s.assign b pp).lock = s.lock := by cases pp <;> rfl
@[simp] theorem assign_sent : (s.assign b pp).sent = s.sent := by cases pp <;> rfl
@[simp] theorem assign_done : (s.assign b pp).done = s.done := by cases pp <;> rfl

end Assign

/-- Start the request for `b`, when the disk is ready. -/
def idestart (b : β) : Except Stuck (State ι β δ) :=
  if fssize ≤ (s.buf b).blockno then .error .incorrectBlockno
  -- idewait(0)
  else if s.drive.status = .busy then .error .disabled
  else if (s.buf b).dirty then
    .ok { s with
      drive := { s.drive with
        status := .busy, ports := ports (s.buf b), buffer := (s.buf b).data }
      sent := s.sent ++ [(b, (s.buf b).request)] }
  else .ok { s with drive := { s.drive with status := .busy, ports := ports (s.buf b) } }

/-- What `wakeup` does to a process. -/
def woken (b : β) : Pc β → Pc β
  | .rw b' d (.asleep k w) => .rw b' d (.asleep k (w || b' = b))
  | c => c

/-- Wake up the processes that sleep on buffer `b`. -/
def wakeup (b : β) : State ι β δ := { s with pc := fun q => woken b (s.pc q) }

/-- The request is done. -/
def finish (b : β) : State ι β δ :=
  { s.setBuf b { s.buf b with valid := true, dirty := false } with
    done := s.done ++ [(b, (s.buf b).request)] }

/-- Interrupt handler. -/
def ideintr (p : ι) : Intr β → Except Stuck (State ι β δ)
  | .acquire => s.acquire p (.intr .pop)
  | .pop =>
    match s.idequeue with
    | none => .ok (s.setPc p (.intr .release))
    | some b => .ok { s.setPc p (.intr (.read b)) with idequeue := s.qnext b }
  | .read b =>
    if (s.buf b).dirty then .ok (s.setPc p (.intr (.finish b)))
    -- idewait(1)
    else if s.drive.status = .busy then .error .disabled
    else
      .ok { (s.setBuf b { s.buf b with data := s.drive.buffer }).setPc p (.intr (.finish b)) with
        sent := s.sent ++ [(b, (s.buf b).request)] }
  | .finish b => .ok (((s.finish b).wakeup b).setPc p (.intr .next))
  | .next =>
    match s.idequeue with
    | none => .ok (s.setPc p (.intr .release))
    | some b => (s.idestart b).map (·.setPc p (.intr .release))
  | .release => .ok (s.release p .out)

/-- Sync buf with disk. -/
def iderw (p : ι) (b : β) (d : Bool) : Rw β → Except Stuck (State ι β δ)
  | .acquire => s.acquire p (.rw b d .append)
  | .append =>
    .ok { s.setPc p (.rw b d (.walk none)) with qnext := update s.qnext b none }
  | .walk pp =>
    match s.deref pp with
    | some x => .ok (s.setPc p (.rw b d (.walk (some x))))
    | none =>
      .ok { (s.assign b pp).setPc p (.rw b d (.start s.asked.length)) with
        asked := s.asked ++ [(b, (s.buf b).request)] }
  | .start k =>
    if s.idequeue = some b then (s.idestart b).map (·.setPc p (.rw b d (.test k)))
    else .ok (s.setPc p (.rw b d (.test k)))
  | .test k =>
    if (s.buf b).valid ∧ ¬(s.buf b).dirty then .ok (s.setPc p (.rw b d (.release k)))
    else .ok (s.release p (.rw b d (.asleep k false)))
  | .asleep k w => if w then .ok (s.setPc p (.rw b d (.relock k))) else .error .disabled
  | .relock k => s.acquire p (.rw b d (.test k))
  | .release _ => .ok (s.release p .out)

/-- Process `p` calls `iderw`. `havedisk1` is whether there is a second disk. -/
def call (havedisk1 : Bool) (p : ι) (b : β) : Except Stuck (State ι β δ) :=
  if !(s.buf b).busy then .error .notBusy
  else if (s.buf b).valid ∧ ¬(s.buf b).dirty then .error .nothingToDo
  else if (s.buf b).dev ≠ 0 ∧ !havedisk1 then .error .noDisk1
  else .ok (s.setPc p (.rw b (s.buf b).dirty .acquire))

/-- One step. -/
def step (havedisk1 : Bool) : Act ι β δ → Except Stuck (State ι β δ)
  | .call p b => if s.pc p = .out then s.call havedisk1 p b else .error .disabled
  | .go p =>
    match s.pc p with
    | .out => .error .disabled
    | .rw b d pos => s.iderw p b d pos
    | .intr pos => s.ideintr p pos
  | .complete =>
    if s.drive.status = .busy then .ok { s with drive := s.drive.complete } else .error .disabled
  | .intr p =>
    if s.pc p = .out ∧ s.drive.status = .raised then
      .ok { s.setPc p (.intr .acquire) with drive := { s.drive with status := .ready } }
    else .error .disabled
  | .kill p =>
    match s.pc p with
    | .rw b d (.asleep k _) => .ok (s.setPc p (.rw b d (.asleep k true)))
    | _ => .ok s
  | .touch b x => .ok (s.setBuf b x)

end State

/-- Buffer `b` is in a call of `iderw`. -/
def InCall (s : State ι β δ) (b : β) : Prop := ∃ p d pos, s.pc p = .rw b d pos

/-- Processes leave a buffer alone that is in a call. -/
def Allowed (s : State ι β δ) : Act ι β δ → Prop
  | .call _ b | .touch b _ => ¬InCall s b
  | .go _ | .complete | .intr _ | .kill _ => True

/-- The states of all runs, from one in which nothing has been asked for, the disk is idle and
`media` is on the disks. -/
inductive Reach [DecidableEq ι] [DecidableEq β] (havedisk1 : Bool) (media : ℕ → ℕ → δ) :
    State ι β δ → Prop
  | init (buf : β → Buf δ) (qnext : β → Option β) (ports : Ports) (buffer : δ) :
      Reach havedisk1 media ⟨none, none, qnext, buf, ⟨.ready, ports, buffer, media⟩, fun _ => .out,
        [], [], []⟩
  | step {s s' : State ι β δ} (h : Reach havedisk1 media s) (act : Act ι β δ) (hact : Allowed s act)
      (hs : s.step havedisk1 act = .ok s') : Reach havedisk1 media s'

end Xv6.Ide
