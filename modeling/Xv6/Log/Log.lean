import Xv6.Library.ByteMemory
import Xv6.Library.RedoLog
import Xv6.Log.Buffer

/-!
# The file-system log

`log.c`: the header block, `begin_op`, `log_write`, `end_op`, `commit` and `recover_from_log`, and
the system of any number of processes that call them, with a restart possible at every moment.

## Granularity

A process's calls are interleaved with those of all others. `log_write` makes its two tests before
it takes the log's lock, so it is two steps here and others may come between them. Within `commit`
and `recover_from_log` one step is one pass through a loop or one `write_head`: each has exactly
one disk write, and a restart may come before and after it. While a process is in `commit` no
operation is open; others may read blocks in the meantime.

## Who does what

The calls of a process are those of a file-system operation: buffers are read, changed, handed to
`log_write` and released between `begin_op` and `end_op`. `Use` records what the holder of a buffer
has done with it, which is how the steps know that a changed buffer is logged before it is
released. Blocks may also be read outside an operation.

## Main definitions

* `readHead`, `writeHead`, `writeLogBody`, `installBody`
* `Sys`, `Act`, `step`
* `Hist`, `note`, `World` — what has happened, kept beside the system and never read by it
-/

namespace Xv6.Log

open ByteMemory Function

/-- `MAXOPBLOCKS`: the most blocks any operation writes. -/
abbrev maxopblocks : ℕ := 10
/-- `LOGSIZE`: the most data blocks in the on-disk log. -/
abbrev logsize : ℕ := maxopblocks * 3

/-- `log.start` and `log.size`, which the superblock gives. -/
structure Area where
  start : ℕ
  /-- How many blocks the log has, with the header. -/
  size : ℕ
  size_pos : 0 < size

namespace Area

/-- The block belongs to the log. -/
def Contains (a : Area) (b : ℕ) : Prop := a.start ≤ b ∧ b < a.start + a.size

instance (a : Area) (b : ℕ) : Decidable (a.Contains b) :=
  inferInstanceAs (Decidable (_ ∧ _))

end Area

/-- The log as `mkfs` lays it out. -/
def mkfsArea : Area := ⟨2, 30, by decide⟩

/-! ### The header block -/

/-- Store block numbers in `block[i]`, `block[i+1]`, … of a header. -/
def putBlocks (d : Block) (i : ℕ) : List ℕ → Block
  | [] => d
  | b :: L => putBlocks (store32 d (4 + 4 * i) b) (i + 1) L

/-- A header block as `write_head` fills it in. Entries past the last one stay as they were. -/
def putHead (d : Block) (L : List ℕ) : Block := putBlocks (store32 d 0 L.length) 0 L

/-- A header block as `read_head` understands it. The count is signed. -/
def getHead (d : Block) : List ℕ :=
  if load32 d 0 < 2147483648 then
    (List.range (load32 d 0)).map fun i => load32 d (4 + 4 * i)
  else []

/-! ### Commit and recovery -/

variable (a : Area)

/-- Read the log header from disk. -/
def readHead (io : Bio) : Except Stuck (List ℕ × Bio) :=
  match bread io a.start with
  | .error e => .error e
  | .ok (buf, io) =>
    match brelse io buf with
    | .error e => .error e
    | .ok io' => .ok (getHead (io.buf buf).data, io')

/-- Write the in-memory log header to disk. -/
def writeHead (io : Bio) (lh : List ℕ) : Except Stuck Bio :=
  match bread io a.start with
  | .error e => .error e
  | .ok (buf, io) =>
    match bwrite (putData io buf (putHead (io.buf buf).data lh)) buf with
    | .error e => .error e
    | .ok io => brelse io buf

/-- One pass of the loop of `write_log`: copy a modified block from the cache to the log. -/
def writeLogBody (io : Bio) (lh : List ℕ) (tail : ℕ) : Except Stuck Bio :=
  match bread io (a.start + tail + 1) with
  | .error e => .error e
  | .ok (dst, io) =>
    match bread io (lh.getD tail 0) with
    | .error e => .error e
    | .ok (src, io) => copyTo io dst src

/-- One pass of the loop of `install_trans`: copy a committed block from the log to its home. -/
def installBody (io : Bio) (lh : List ℕ) (tail : ℕ) : Except Stuck Bio :=
  match bread io (a.start + tail + 1) with
  | .error e => .error e
  | .ok (lbuf, io) =>
    match bread io (lh.getD tail 0) with
    | .error e => .error e
    | .ok (dbuf, io) => copyTo io dbuf lbuf

/-! ### Processes -/

/-- Where a process is. -/
inductive Pc
  | idle
  | inOp
  /-- In `log_write` for this buffer, past the tests and before the lock. -/
  | logging (i : Slot)
  deriving DecidableEq, Repr

/-- What has been done with a buffer since it was read. -/
inductive Use
  | free
  /-- The process holds it and has not changed it, or not since it called `log_write`. -/
  | clean (p : ℕ)
  /-- The process holds it and has changed it. -/
  | modified (p : ℕ)
  deriving DecidableEq, Repr

/-- The process holds the buffer. -/
def Use.By (u : Use) (p : ℕ) : Prop := u = .clean p ∨ u = .modified p

instance (u : Use) (p : ℕ) : Decidable (u.By p) := inferInstanceAs (Decidable (_ ∨ _))

/-- What the log is doing. -/
inductive Phase
  | running
  /-- `commit` is in `write_log`, with this `tail`; past the last entry, before `write_head`. -/
  | writeLog (tail : ℕ)
  /-- `commit` is in `install_trans`; past the last entry, before the header is cleared. -/
  | install (tail : ℕ)
  /-- `commit` has returned, and `committing` is still set. -/
  | done
  | readHead
  | reinstall (tail : ℕ)
  deriving DecidableEq, Repr

/-- `initlog` has returned, so processes can run. -/
def Phase.Booted : Phase → Prop
  | .readHead | .reinstall _ => False
  | _ => True

instance : DecidablePred Phase.Booted
  | .readHead | .reinstall _ => inferInstanceAs (Decidable False)
  | .running | .writeLog _ | .install _ | .done => inferInstanceAs (Decidable True)

/-- The whole system. -/
structure Sys where
  io : Bio
  lh : List ℕ
  outstanding : ℕ
  committing : Bool
  proc : ℕ → Pc
  use : Slot → Use
  phase : Phase

/-- The machine has just started: the disk is all there is. -/
def Sys.boot (disk : ℕ → Block) : Sys where
  io := binit disk
  lh := []
  outstanding := 0
  committing := false
  proc := fun _ => .idle
  use := fun _ => .free
  phase := .readHead

/-- What can happen. -/
inductive Act
  | beginOp (p : ℕ)
  | bread (p blockno : ℕ)
  | modify (p : ℕ) (i : Slot) (d : Block)
  | logTest (p : ℕ) (i : Slot)
  | logWrite (p : ℕ)
  | brelse (p : ℕ) (i : Slot)
  | endOp (p : ℕ)
  | commit
  | recover
  /-- The machine stops and starts again. Memory is lost. -/
  | crash

/-- The block of a buffer, if it is outside the log. -/
def homeBlock (s : Sys) (i : Slot) : Option ℕ :=
  match (s.io.buf i).blockno with
  | none => none
  | some b => if a.Contains b then none else some b

/-- `begin_op`, which sleeps while there may be no room for the operation in the log. -/
def beginOp (s : Sys) (p : ℕ) : Except Stuck Sys :=
  if s.phase.Booted ∧ s.proc p = .idle then
    if s.committing then .error .sleep
    else if s.lh.length + (s.outstanding + 1) * maxopblocks > logsize then .error .sleep
    else .ok { s with
      outstanding := s.outstanding + 1, proc := update s.proc p .inOp }
  else .error .disabled

/-- The tests of `log_write`. -/
def logTest (s : Sys) (p : ℕ) (i : Slot) : Except Stuck Sys :=
  if s.proc p = .inOp ∧ (s.use i).By p ∧ (homeBlock a s i).isSome then
    if s.lh.length ≥ logsize ∨ s.lh.length ≥ a.size - 1 then .error .tooBig
    else if s.outstanding < 1 then .error .outsideTrans
    else .ok { s with proc := update s.proc p (.logging i) }
  else .error .disabled

/-- The header with a block logged: a block that is in it already is not entered again. -/
def absorb (lh : List ℕ) (b : ℕ) : List ℕ := if b ∈ lh then lh else lh ++ [b]

theorem mem_absorb {lh : List ℕ} {b c : ℕ} : c ∈ absorb lh b ↔ c = b ∨ c ∈ lh := by
  unfold absorb
  split_ifs with hb
  · exact ⟨.inr, fun hc => hc.elim (fun hcb => hcb ▸ hb) id⟩
  · rw [List.mem_append, List.mem_singleton, or_comm]

theorem nodup_absorb {lh : List ℕ} (hnd : lh.Nodup) (b : ℕ) : (absorb lh b).Nodup := by
  unfold absorb
  split_ifs with hb
  · exact hnd
  · rw [← List.concat_eq_append]
    exact hnd.concat hb

/-- The locked part of `log_write`. -/
def logWrite (s : Sys) (p : ℕ) : Except Stuck Sys :=
  match s.proc p with
  | .logging i =>
    if (s.use i).By p then
      match homeBlock a s i with
      | none => .error .disabled
      | some b =>
        .ok { s with
          io := markDirty s.io i, lh := absorb s.lh b
          proc := update s.proc p .inOp, use := update s.use i (.clean p) }
    else .error .disabled
  | _ => .error .disabled

/-- `end_op` up to the call of `commit`, which does nothing if no block was logged. -/
def endOp (s : Sys) (p : ℕ) : Except Stuck Sys :=
  if s.proc p = .inOp ∧ ∀ i, ¬ (s.use i).By p then
    if s.committing then .error .committing
    else if s.outstanding - 1 = 0 then
      .ok { s with
        outstanding := 0, committing := true, proc := update s.proc p .idle
        phase := if s.lh = [] then .done else .writeLog 0 }
    else .ok { s with
      outstanding := s.outstanding - 1, proc := update s.proc p .idle }
  else .error .disabled

/-- `commit`, and the end of the `end_op` that called it. -/
def commit (s : Sys) : Except Stuck Sys :=
  match s.phase with
  | .writeLog tail =>
    if tail < s.lh.length then
      match writeLogBody a s.io s.lh tail with
      | .error e => .error e
      | .ok io => .ok { s with io := io, phase := .writeLog (tail + 1) }
    else
      match writeHead a s.io s.lh with
      | .error e => .error e
      | .ok io => .ok { s with io := io, phase := .install 0 }
  | .install tail =>
    if tail < s.lh.length then
      match installBody a s.io s.lh tail with
      | .error e => .error e
      | .ok io => .ok { s with io := io, phase := .install (tail + 1) }
    else
      match writeHead a s.io [] with
      | .error e => .error e
      | .ok io => .ok { s with io := io, lh := [], phase := .done }
  | .done => .ok { s with committing := false, phase := .running }
  | _ => .error .disabled

/-- `recover_from_log`. -/
def recover (s : Sys) : Except Stuck Sys :=
  match s.phase with
  | .readHead =>
    match readHead a s.io with
    | .error e => .error e
    | .ok (lh, io) => .ok { s with io := io, lh := lh, phase := .reinstall 0 }
  | .reinstall tail =>
    if tail < s.lh.length then
      match installBody a s.io s.lh tail with
      | .error e => .error e
      | .ok io => .ok { s with io := io, phase := .reinstall (tail + 1) }
    else
      match writeHead a s.io [] with
      | .error e => .error e
      | .ok io => .ok { s with io := io, lh := [], phase := .running }
  | _ => .error .disabled

/-- One step of the system. -/
def step (s : Sys) : Act → Except Stuck Sys
  | .beginOp p => beginOp s p
  | .bread p n =>
    if s.phase.Booted ∧ (s.proc p = .idle ∨ s.proc p = .inOp) then
      match Xv6.bread s.io n with
      | .error e => .error e
      | .ok (i, io) => .ok { s with io := io, use := update s.use i (.clean p) }
    else .error .disabled
  | .modify p i d =>
    if s.proc p = .inOp ∧ (s.use i).By p ∧ (homeBlock a s i).isSome then
      .ok { s with io := putData s.io i d, use := update s.use i (.modified p) }
    else .error .disabled
  | .logTest p i => logTest a s p i
  | .logWrite p => logWrite a s p
  | .brelse p i =>
    if s.use i = .clean p ∧ (s.proc p = .idle ∨ s.proc p = .inOp) then
      match Xv6.brelse s.io i with
      | .error e => .error e
      | .ok io => .ok { s with io := io, use := update s.use i .free }
    else .error .disabled
  | .endOp p => endOp s p
  | .commit => commit a s
  | .recover => recover a s
  | .crash => .ok (.boot s.io.disk)

/-! ### History -/

/-- What an operation does to the log. -/
inductive Event
  | beginOp (p : ℕ)
  | write (p b : ℕ) (d : Block)
  | endOp (p : ℕ)

/-- The disk contents an event asks for. -/
def Event.apply (D : ℕ → Block) : Event → ℕ → Block
  | .write _ b d => update D b d
  | _ => D

/-- The updates of a group, in order. -/
def applyEvents (D : ℕ → Block) (g : List Event) : ℕ → Block := g.foldl Event.apply D

/-- The updates of groups, in order. -/
def applyGroups (D : ℕ → Block) (gs : List (List Event)) : ℕ → Block := gs.foldl applyEvents D

/-- Which operations are open after an event, or `none` if no operation could have caused it. -/
def Event.opens (A : Finset ℕ) : Event → Option (Finset ℕ)
  | .beginOp p => if p ∈ A then none else some (insert p A)
  | .write p _ _ => if p ∈ A then some A else none
  | .endOp p => if p ∈ A then some (A.erase p) else none

/-- Which operations are open after these events. -/
def openAfter (g : List Event) : Option (Finset ℕ) := g.foldlM Event.opens ∅

/-- The group consists of whole operations: each begins in it, writes only while it is open, and
ends in it. -/
def Whole (g : List Event) : Prop := openAfter g = some ∅

/-- What has happened. -/
structure Hist where
  /-- The events since the last commit began. -/
  current : List Event
  /-- The groups whose commit has begun, oldest first. A group that a restart has undone is no
  longer among them. -/
  groups : List (List Event)
  /-- How many groups are committed on the disk. -/
  durable : ℕ
  /-- How many groups' `commit` has returned. -/
  returned : ℕ

/-- Nothing has happened. -/
def Hist.empty : Hist := ⟨[], [], 0, 0⟩

/-- The history after the step `act` from `s` to `s'`. -/
def note (s s' : Sys) (h : Hist) : Act → Hist
  | .beginOp p => { h with current := h.current ++ [.beginOp p] }
  | .logWrite p =>
    match s.proc p with
    | .logging i =>
      match (s.io.buf i).blockno with
      | some b => { h with current := h.current ++ [.write p b (s.io.buf i).data] }
      | none => h
    | _ => h
  | .endOp p =>
    -- the last operation closes the group
    if s'.outstanding = 0 then
      { h with current := [], groups := h.groups ++ [h.current ++ [.endOp p]] }
    else { h with current := h.current ++ [.endOp p] }
  | .commit =>
    match s.phase, s'.phase with
    | .writeLog _, .install _ => { h with durable := h.groups.length }
    | .install _, .done => { h with returned := h.groups.length }
    | .done, _ => { h with durable := h.groups.length, returned := h.groups.length }
    | _, _ => h
  | .recover =>
    -- what was not committed is lost
    if s'.phase = .running then
      { h with groups := h.groups.take h.durable, returned := h.durable }
    else h
  | .crash => { h with current := [] }
  | _ => h

/-- The system and its history. -/
structure World where
  sys : Sys
  hist : Hist

/-- One step, noted. -/
def World.step (w : World) (act : Act) : Except Stuck World :=
  match Log.step a w.sys act with
  | .error e => .error e
  | .ok s => .ok ⟨s, note w.sys s w.hist act⟩

/-- A machine is started for the first time, with `init` on its disk. -/
def World.boot (init : ℕ → Block) : World := ⟨Sys.boot init, Hist.empty⟩

end Xv6.Log
