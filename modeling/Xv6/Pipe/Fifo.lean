import Xv6.Pipe.Verify

/-!
# Pipes are queues

What holds in every state that is reached from a new pipe, for any number of processes and any
interleaving of `piperead`, `pipewrite`, `pipeclose` and `kill`.

`pipewrite` has an exit on which it does not call `wakeup`: if the buffer is full and the process
has been killed, it returns -1. The bytes that it has stored since it last woke up the readers are
in the pipe then, and readers that sleep since the pipe was empty go on sleeping.

## Main results

* `pipe_is_fifo` — bytes are read in the order in which they were written
* `pipe_locks_proper` — locks are taken and released in order
* `no_lost_wakeup` — who sleeps has a reason to, if nobody does when `pipewrite` returns -1
* `lost_wakeup` — otherwise a reader may sleep beside a full pipe
-/

namespace Xv6.Pipe

open Concurrent

variable {ι : Type} [DecidableEq ι] {data : ℕ → UInt8} {killed : ι → Bool}

/-- What processes know about a new pipe. -/
def idleLocal : Local := ⟨only false false, .nothing, none, [], []⟩

theorem inv_pipealloc (strict : Prop) :
    Inv strict (fun _ : ι => idleLocal) (pipealloc data killed) where
  own := fun p =>
    { locks := fun k => by cases k <;> exact ⟨nofun, nofun⟩
      plain := fun _ => ⟨rfl, rfl⟩
      knows := trivial
      began := le_rfl
      sent := rfl
      got := nofun }
  bytes := ⟨RingBuffer.Holds.empty _ _, rfl, rfl, nofun⟩
  free := fun _ => rfl
  wakes := fun _ => nofun

/-- **The invariant holds in every state that is reached from a new pipe.** -/
theorem reach_inv (strict : Prop) {t : Pool ι (State ι) Panic}
    (h : Reach code (contract strict).rel (.idle (pipealloc data killed)) t) :
    ∃ g, Inv strict g t.state := by
  have hidle : Idle idleLocal := ⟨rfl, rfl, rfl, rfl⟩
  have hv : Verified (Inv strict) (contract strict) Idle (.idle (pipealloc data killed)) :=
    ⟨_, inv_pipealloc strict, fun _ => hidle⟩
  obtain ⟨g, hI, -⟩ := h.sound (fun _ _ _ hl => code_wp hl) hv
  exact ⟨g, hI⟩

/-! ### Bytes -/

/-- The pipe is a queue. -/
structure Fifo (s : State ι) : Prop where
  size : (s.nwrite - s.nread).toNat ≤ pipesize
  order : s.returned <+: s.stored.map Prod.snd
  rest : s.stored.map Prod.snd = s.returned ++ (List.range (s.nwrite - s.nread).toNat).map fun j =>
    s.data ((s.nread + UInt32.ofNat j).toNat % pipesize)
  writes : ∀ w ∈ s.writes, 0 ≤ w.ret → w.ret = w.n ∧ w.sent = w.bytes

omit [DecidableEq ι] in
theorem Bytes.rest {s : State ι} (h : Bytes s) :
    s.stored.map Prod.snd = s.taken ++ (List.range (s.nwrite - s.nread).toNat).map fun j =>
      s.data ((s.nread + UInt32.ofNat j).toNat % pipesize) := by
  have hcontents := h.queue.contents
  rw [List.length_map] at hcontents
  rw [hcontents, h.sub_eq]
  congr 1
  refine List.map_congr_left fun j _ => ?_
  have hindex : (s.nread + UInt32.ofNat j).toNat % pipesize = (s.taken.length + j) % pipesize := by
    rw [UInt32.toNat_add, h.nread, UInt32.toNat_ofNat', ← Nat.add_mod, Nat.mod_mod_of_dvd _
      (by decide)]
  rw [hindex]

/-- **Pipes are queues**, in every state that is reached from a new pipe and in which `p->lock` is
free. The counters may have wrapped. -/
theorem pipe_is_fifo {t : Pool ι (State ι) Panic}
    (h : Reach code (fun _ _ => True) (.idle (pipealloc data killed)) t)
    (hlock : t.state.lock .pipe = none) : Fifo t.state := by
  obtain ⟨g, hI⟩ := reach_inv False (h.mono fun _ _ _ hf => hf.elim)
  have hrest := hI.bytes.rest
  rw [hI.free hlock] at hrest
  have hle := hI.bytes.le
  refine ⟨?_, ?_, hrest, hI.bytes.writes⟩
  · rw [hI.bytes.sub_eq]
    omega
  · rw [hrest]
    exact List.prefix_append _ _

/-- A pool after some turns with a new pipe. -/
def after {n : ℕ} (rel : State (Fin n) → State (Fin n) → Prop) [DecidableRel rel]
    (xs : List (Fin n × Option (Call (Fin n)) × ℕ)) : Pool (Fin n) (State (Fin n)) Panic :=
  xs.foldl (Pool.turn code rel) (.idle (pipealloc (fun _ => 0) fun _ => false))

theorem reach_after {n : ℕ} (rel : State (Fin n) → State (Fin n) → Prop) [DecidableRel rel]
    (xs : List (Fin n × Option (Call (Fin n)) × ℕ)) :
    Reach code rel (.idle (pipealloc (fun _ => 0) fun _ => false)) (after rel xs) :=
  Reach.turns .refl xs

/-- One process writes three bytes, and another one reads two of them. -/
def threeBytes : List (Fin 2 × Option (Call (Fin 2)) × ℕ) :=
  [(0, some (.write (fun i => UInt8.ofNat (i + 7)) 3 1), 100), (1, some (.read 2 1), 100)]

theorem pipe_is_fifo_threeBytes :
    (after (fun _ _ => True) threeBytes).state.returned = [7, 8] ∧
      (after (fun _ _ => True) threeBytes).state.nwrite = 3 ∧
      Fifo (after (fun _ _ => True) threeBytes).state :=
  ⟨by decide +kernel, by decide +kernel,
    pipe_is_fifo (reach_after _ threeBytes) (by decide +kernel)⟩

/-! ### Locks -/

/-- **The locks are used properly.** No process acquires a lock that it holds or releases one that
it does not hold, and between two calls it holds none. -/
theorem pipe_locks_proper {t : Pool ι (State ι) Panic}
    (h : Reach code (fun _ _ => True) (.idle (pipealloc data killed)) t) :
    (∀ m e, t.move code m ≠ .error (.panics e)) ∧ ∀ p k, t.Ready p → t.state.lock k ≠ some p := by
  have hstart : Idle idleLocal := ⟨rfl, rfl, rfl, rfl⟩
  have hnew : Verified (Inv False) (contract False) Idle (.idle (pipealloc data killed)) :=
    ⟨_, inv_pipealloc False, fun _ => hstart⟩
  have hv := (h.mono fun _ _ _ hf => hf.elim).sound (fun _ _ _ hl => code_wp hl) hnew
  refine ⟨fun m e hm => hv.panics hm, fun p k hp hk => ?_⟩
  obtain ⟨g, hI, hg⟩ := hv
  have hidle : Idle (g p) := Verified.idle hg hp
  have hholds := ((hI.own p).locks k).mp hk
  rw [hidle.1] at hholds
  cases k <;> cases hholds

/-- The first bytes fill the buffer, the writer sleeps, and a reader has begun to take bytes out. -/
def midRead : List (Fin 2 × Option (Call (Fin 2)) × ℕ) :=
  [(0, some (.write (fun i => UInt8.ofNat i) 513 1), 2000), (1, some (.read 2 1), 4)]

theorem pipe_locks_proper_midRead :
    (after (fun _ _ => True) midRead).state.asleep 0 = some .nwrite ∧
      (after (fun _ _ => True) midRead).state.lock .pipe = some 1 ∧
      ∀ m e, (after (fun _ _ => True) midRead).move code m ≠ .error (.panics e) :=
  ⟨by decide +kernel, by decide +kernel, (pipe_locks_proper (reach_after _ midRead)).1⟩

/-! ### Sleeping -/

/-- **No wakeup is lost**, in every run in which nobody sleeps on `&p->nread` when `pipewrite`
returns -1: whenever `p->lock` is free, who sleeps on `&p->nread` has an empty pipe with a writer,
and who sleeps on `&p->nwrite` a full pipe with a reader. -/
theorem no_lost_wakeup {t : Pool ι (State ι) Panic}
    (h : Reach code Heard (.idle (pipealloc data killed)) t) (hlock : t.state.lock .pipe = none)
    (q : ι) :
    (t.state.asleep q = some .nread → t.state.nread = t.state.nwrite ∧ t.state.writeopen = true) ∧
      (t.state.asleep q = some .nwrite → t.state.Full ∧ t.state.readopen = true) := by
  obtain ⟨g, hI⟩ := reach_inv True (h.mono fun _ _ hh _ => hh)
  have hwaits : ∀ c, t.state.asleep q = some c → Waits t.state c := by
    intro c hq
    refine (hI.wakes trivial q c hq).resolve_right ?_
    rintro ⟨p, hp, -⟩
    rw [((hI.own p).locks .pipe).mpr hp] at hlock
    cases hlock
  exact ⟨hwaits .nread, hwaits .nwrite⟩

instance {n : ℕ} : DecidableRel (Heard (ι := Fin n)) := fun s s' => by unfold Heard; infer_instance

/-- A reader goes to sleep. A writer fills the buffer, wakes the reader up, and goes to sleep. -/
def readerWriter : List (Fin 3 × Option (Call (Fin 3)) × ℕ) :=
  [(0, some (.read 1 2), 100), (1, some (.write (fun _ => 0) 513 1), 2000)]

theorem no_lost_wakeup_readerWriter :
    (after Heard (readerWriter.take 1)).state.asleep 0 = some .nread ∧
      (after Heard readerWriter).state.asleep 0 = none ∧
      (after Heard readerWriter).state.asleep 1 = some .nwrite ∧
      (after Heard readerWriter).state.Full :=
  ⟨by decide +kernel, by decide +kernel, by decide +kernel,
    ((no_lost_wakeup (reach_after Heard readerWriter) (by decide +kernel) 1).2
      (by decide +kernel)).1⟩

/-- A reader sleeps. A writer begins, is killed by a third process, and fills the buffer. -/
def killedWriter : List (Fin 3 × Option (Call (Fin 3)) × ℕ) :=
  [(0, some (.read 1 2), 100), (1, some (.write (fun _ => 0) 513 1), 1), (2, some (.kill 1), 100),
    (1, none, 2000)]

/-- **A wakeup is lost.** The writer has returned -1, all locks are free, and the reader sleeps
beside a full pipe. -/
theorem lost_wakeup : ∃ t : Pool (Fin 3) (State (Fin 3)) Panic,
    Reach code (fun _ _ => True) (.idle (pipealloc (fun _ => 0) fun _ => false)) t ∧
      t.state.lock .pipe = none ∧ t.state.lock .ptable = none ∧
      t.state.asleep 0 = some .nread ∧ t.state.nread ≠ t.state.nwrite ∧
      t.state.writes.map Written.ret = [-1] := by
  refine ⟨after (fun _ _ => True) killedWriter, reach_after _ killedWriter, ?_⟩
  decide +kernel

end Xv6.Pipe
