import Xv6.Proc.Verify

/-!
# The life of a process

What holds in every state that is reached from boot, for any number of CPUs and any interleaving of
`fork`, `exit`, `wait`, `kill`, `sleep`, `wakeup` and `yield`.

`nextpid` is an `int` that is never checked. Statements about process IDs are therefore about runs
in which fewer than 2^31 - 1 processes are made; the others are about all runs.

## Main results

* `process_lifecycle` — IDs are unique, parents are alive, and `wait` returns each ID once
* `no_wait_beside_zombie` — a process does not sleep in `wait` while one of its children is a zombie
* `runs_on_one_cpu` — a process that is `RUNNING` is the current process of exactly one CPU
* `kill_spares_the_unborn` — who is killed exists, and who is made has not been killed
-/

namespace Xv6.Sched

open Concurrent

variable {κ : Type} [DecidableEq κ] {few strict : Prop}

/-! ### Boot -/

/-- What threads know when `main` enters the scheduler. -/
def bootLocal : Thread κ → Local
  | .proc _ => ⟨.unborn, .none, .nothing⟩
  | .sched _ => ⟨.idle, .none, .nothing⟩

omit [DecidableEq κ] in
theorem boot_proc (i : Slot) : ((boot : State κ).proc i).context = 0 ∧
    ((boot : State κ).proc i).parent = none ∧ ((boot : State κ).proc i).killed = false := by
  simp only [boot]
  split_ifs <;> simp

omit [DecidableEq κ] in
theorem boot_state (i : Slot) : i = 0 ∧ ((boot : State κ).proc i).state = .runnable ∧
      ((boot : State κ).proc i).pid = 1 ∨
    i ≠ 0 ∧ ((boot : State κ).proc i).state = .unused ∧ ((boot : State κ).proc i).pid = 0 := by
  by_cases hi : i = 0
  · simp [boot, hi]
  · simp [boot, hi]

omit [DecidableEq κ] in
theorem cpus_boot : Cpus (fun t => (bootLocal t).place) (boot : State κ) where
  own := fun t => by
    cases t with
    | proc k => exact ⟨rfl, nofun⟩
    | sched c => exact ⟨rfl, rfl, nofun⟩
  one := fun t t' c ht ht' => by
    cases t <;> cases t' <;> cases ht <;> cases ht'
    rfl
  inj := nofun
  run := fun i hi => by
    rcases boot_state (κ := κ) i with ⟨-, hst, -⟩ | ⟨-, hst, -⟩ <;> cases hst.symm.trans hi
  cur := nofun
  live := fun i hi => by
    rcases boot_state (κ := κ) i with ⟨rfl, -, -⟩ | ⟨-, hst, -⟩
    · exact ⟨rfl, Nat.zero_lt_one, nofun, nofun⟩
    · simp [Live, hst] at hi
  fresh := fun _ _ => ⟨rfl, rfl⟩

omit [DecidableEq κ] in
/-- **The invariant holds at boot.** -/
theorem inv_boot : Inv few strict bootLocal (boot : State κ) where
  cpus := cpus_boot
  kid := fun t => by cases t <;> trivial
  kid_inj := fun t _ _ ht => by cases t <;> cases ht
  knows := fun t => by cases t <;> trivial
  family :=
    { parent := fun i hi hne => by
        rcases boot_state (κ := κ) i with ⟨rfl, -, -⟩ | ⟨-, hst, -⟩
        · exact absurd rfl hne
        · simp [Live, hst] at hi
      kin := fun i q hq => by cases (boot_proc i).2.1.symm.trans hq
      init := ⟨0, rfl, .inl rfl, rfl⟩
      quiet := fun i _ j hj => by cases (boot_proc j).2.1.symm.trans hj }
  past := fun _ =>
    { lt := fun i => by
        rcases boot_state (κ := κ) i with ⟨-, -, hpid⟩ | ⟨-, -, hpid⟩ <;> rw [hpid] <;> simp [boot]
      inj := fun i j hij heq => by
        rcases boot_state (κ := κ) i with ⟨rfl, -, hi⟩ | ⟨-, -, hi⟩
        · rcases boot_state (κ := κ) j with ⟨rfl, -, -⟩ | ⟨-, -, hj⟩
          · exact absurd rfl hij
          · rw [heq, hj]
        · exact hi
      ne := fun i hi => by
        rcases boot_state (κ := κ) i with ⟨-, -, hpid⟩ | ⟨-, hst, -⟩
        · simp [hpid]
        · exact absurd hst hi
      count := rfl
      exited := fun i hi => by
        rcases boot_state (κ := κ) i with ⟨-, hst, -⟩ | ⟨-, hst, -⟩ <;>
          cases hst.symm.trans hi
      waited := fun i pid hi => by simp [boot] at hi
      sound := trivial }
  kills := fun _ i => by
    refine ⟨fun hu => ⟨(boot_proc i).2.2, .inl ?_⟩,
      fun hk => by cases (boot_proc i).2.2.symm.trans hk⟩
    rcases boot_state (κ := κ) i with ⟨-, hst, -⟩ | ⟨-, -, hpid⟩
    · cases hst.symm.trans hu
    · exact hpid

theorem boot_verified :
    Verified (Inv few strict) (contract few strict) Idle (.idle (boot : State κ)) := by
  refine ⟨bootLocal, inv_boot, fun t => ?_⟩
  cases t with
  | proc k => exact ⟨.inl rfl, rfl, rfl⟩
  | sched c => exact ⟨.inr (.inr rfl), rfl, rfl⟩

/-- **The invariant holds in every state that is reached from boot.** -/
theorem reach_verified (few strict : Prop) {t : Pool (Thread κ) (State κ) Panic}
    (h : Reach kernel (contract few strict).rel (.idle boot) t) :
    Verified (Inv few strict) (contract few strict) Idle t :=
  h.sound (fun _ _ _ hl => kernel_wp hl) boot_verified

/-! ### Process IDs, parents and `wait` -/

/-- What holds of the processes in a state. -/
structure Lifecycle (s : State κ) : Prop where
  pid : ∀ i j, (s.proc i).state ≠ .unused → (s.proc j).state ≠ .unused →
    (s.proc i).pid = (s.proc j).pid → i = j
  parent : ∀ i, (s.proc i).state ≠ .unused → (s.proc i).state ≠ .embryo → s.initproc ≠ some i →
    ∃ q, (s.proc i).parent = some q ∧ (s.proc q).state ≠ .unused ∧ (s.proc q).state ≠ .zombie
  waited : ∀ later i pid earlier, s.trace = later ++ .waited i pid :: earlier →
    .exited pid ∈ earlier ∧ ∀ j, .waited j pid ∉ earlier

theorem Sound.split {later earlier : List Event} {i : Slot} {pid : ℤ}
    (h : Sound (later ++ .waited i pid :: earlier)) :
    .exited pid ∈ earlier ∧ ∀ j, .waited j pid ∉ earlier := by
  induction later with
  | nil => exact h.2
  | cons e later ih =>
    cases e with
    | waited j p => exact ih h.1
    | assigned | exited | killed | failed => exact ih h

omit [DecidableEq κ] in
theorem Inv.lifecycle {g : Thread κ → Local} {s : State κ} (h : Inv True strict g s) :
    Lifecycle s where
  pid := fun i j hi _ heq => by
    by_contra hij
    exact (h.past trivial).ne i hi ((h.past trivial).inj i j hij heq)
  parent := fun i hu he hinit => by
    have hst : Live (s.proc i) ∨ (s.proc i).state = .zombie := by
      rw [Live]
      cases hs : (s.proc i).state <;> simp_all
    obtain ⟨q, hq⟩ := Option.ne_none_iff_exists'.mp (h.family.parent i hst hinit)
    have hlive := (h.family.kin i q hq).2
    refine ⟨q, hq, ?_, ?_⟩ <;> intro hs <;> simp [Live, hs] at hlive
  waited := fun later i pid earlier htr => by
    have hsound := (h.past trivial).sound
    rw [htr] at hsound
    exact hsound.split

instance : DecidablePred (FewProcs (κ := κ)) := fun s => by unfold FewProcs; infer_instance

/-- The step of `wait` that returns an ID is made by the parent of the process, which is a zombie.
-/
def WaitsForChild (s s' : State κ) : Prop :=
  ∀ i pid, s'.trace = .waited i pid :: s.trace →
    ∃ j, (s.proc j).pid = pid ∧ (s.proc j).parent = some i ∧ (s.proc j).state = .zombie

/-- **The life of a process.** In every run from boot in which fewer than 2^31 - 1 processes are
made: process IDs are unique, every process but init has a parent that is alive, each ID is returned
by at most one call of `wait`, after the process has exited, and this call is made by its parent. -/
theorem process_lifecycle {t : Pool (Thread κ) (State κ) Panic}
    (h : Reach kernel (fun _ s => FewProcs s) (.idle boot) t) :
    Lifecycle t.state ∧ ∀ m t', t.move kernel m = .ok t' → FewProcs t'.state →
      WaitsForChild t.state t'.state := by
  have hv := reach_verified True False
    (h.mono fun s s' hs => ⟨fun _ => hs, fun hf => hf.elim⟩)
  refine ⟨?_, fun m t' hm hfew => ?_⟩
  · obtain ⟨g, hI, -⟩ := hv
    exact hI.lifecycle
  · rcases (hv.move (fun _ _ _ hl => kernel_wp hl) hm
      ⟨fun _ => hfew, fun hf => hf.elim⟩).2 with heq | hg
    · rw [heq]
      exact (Honest.quiet rfl).waits
    · exact hg.waits

/-- Init makes a process and waits for it, and the process exits. -/
def oneChild : List (Thread Unit × Option Call × ℕ) :=
  [(.sched (), some .round, 100), (.proc 0, some (.fork true true fun _ => []), 100),
    (.proc 0, some (.wait 2), 100), (.sched (), none, 100), (.proc 1, some (.exit []), 100),
    (.sched (), none, 100), (.sched (), some .round, 100), (.proc 0, none, 100)]

/-- A pool after some turns from boot. -/
def after (rel : State κ → State κ → Prop) [DecidableRel rel]
    (xs : List (Thread κ × Option Call × ℕ)) : Pool (Thread κ) (State κ) Panic :=
  xs.foldl (Pool.turn kernel rel) (.idle boot)

theorem reach_after (rel : State κ → State κ → Prop) [DecidableRel rel]
    (xs : List (Thread κ × Option Call × ℕ)) : Reach kernel rel (.idle boot) (after rel xs) :=
  Reach.turns .refl xs

theorem process_lifecycle_oneChild :
    (after (fun _ s => FewProcs s) oneChild).state.trace =
        [.waited 0 2, .exited 2, .assigned 2 1, .assigned 1 0] ∧
      Lifecycle (after (fun _ s => FewProcs s) oneChild).state :=
  ⟨by decide +kernel, (process_lifecycle (reach_after _ oneChild)).1⟩

/-! ### Sleeping in `wait` -/

/-- **A parent that waits is woken up.** In every state that is reached from boot, a process that
sleeps in `wait` has no child that is a zombie. -/
theorem no_wait_beside_zombie {t : Pool (Thread κ) (State κ) Panic}
    (h : Reach kernel (fun _ _ => True) (.idle boot) t) (p i : Slot)
    (hp : (t.state.proc p).state = .sleeping) (hchan : (t.state.proc p).chan = some (.proc p))
    (hi : (t.state.proc i).parent = some p) : (t.state.proc i).state ≠ .zombie := by
  obtain ⟨g, hI, -⟩ := reach_verified False False
    (h.mono fun _ _ _ => ⟨fun hf => hf.elim, fun hf => hf.elim⟩)
  exact hI.family.quiet p ⟨hp, hchan⟩ i hi

theorem no_wait_beside_zombie_oneChild :
    ((after (fun _ _ => True) (oneChild.take 3)).state.proc 0).chan = some (.proc 0) ∧
      ((after (fun _ _ => True) (oneChild.take 3)).state.proc 1).state ≠ .zombie :=
  ⟨by decide +kernel, no_wait_beside_zombie (reach_after _ (oneChild.take 3)) 0 1
    (by decide +kernel) (by decide +kernel) (by decide +kernel)⟩

/-! ### CPUs -/

/-- What CPUs run when the lock is free. -/
structure OneCpu (s : State κ) : Prop where
  running : ∀ i, (s.proc i).state = .running ↔ ∃! c, s.cur c = some i
  inj : ∀ c c' i, s.cur c = some i → s.cur c' = some i → c = c'

omit [DecidableEq κ] in
theorem Inv.oneCpu {g : Thread κ → Local} {s : State κ} (h : Inv few strict g s)
    (hlock : s.lock = none) : OneCpu s where
  running := fun i => by
    constructor
    · intro hi
      obtain ⟨c, hc⟩ := h.cpus.run i hi
      exact ⟨c, hc, fun c' hc' => h.cpus.inj c' c i hc' hc⟩
    · rintro ⟨c, hc, -⟩
      refine (h.cpus.cur c i hc).resolve_right fun hl => ?_
      cases hlock.symm.trans hl
  inj := h.cpus.inj

/-- **No process runs on two CPUs.** In every state that is reached from boot and in which the lock
is free, a process is `RUNNING` if and only if exactly one CPU runs it. No CPU is ever switched to a
thread that another one executes, or to one that has exited: the panic after the last `sched` of
`exit` is not reached. -/
theorem runs_on_one_cpu {t : Pool (Thread κ) (State κ) Panic}
    (h : Reach kernel (fun _ _ => True) (.idle boot) t) :
    (t.state.lock = none → OneCpu t.state) ∧
      ∀ m, t.move kernel m ≠ .error (.panics .twice) ∧
      t.move kernel m ≠ .error (.panics .zombieExit) := by
  have hv := reach_verified False False
    (h.mono fun _ _ _ => ⟨fun hf => hf.elim, fun hf => hf.elim⟩)
  refine ⟨fun hlock => ?_, fun m => ⟨fun hm => ?_, fun hm => ?_⟩⟩
  · obtain ⟨g, hI, -⟩ := hv
    exact hI.oneCpu hlock
  · exact (hv.panics hm).2 rfl
  · exact (hv.panics hm).1 rfl

/-- One CPU runs init, which makes a process, and another one runs this process, which yields and is
run again. -/
def twoCpus : List (Thread Bool × Option Call × ℕ) :=
  [(.sched false, some .round, 100), (.proc 0, some (.fork true true fun _ => []), 100),
    (.sched true, some .round, 100), (.proc 1, some (.work [.yield]), 100),
    (.sched true, none, 100), (.sched true, some .round, 100), (.proc 1, none, 100)]

theorem runs_on_one_cpu_twoCpus :
    ((after (fun _ _ => True) twoCpus).state.cur false = some 0 ∧
      (after (fun _ _ => True) twoCpus).state.cur true = some 1) ∧
      OneCpu (after (fun _ _ => True) twoCpus).state :=
  ⟨by decide +kernel, (runs_on_one_cpu (reach_after _ twoCpus)).1 (by decide +kernel)⟩

/-! ### Killing -/

/-- A step in which `kill` returns 0: there is a process with this ID. -/
def KillHits (s s' : State κ) : Prop :=
  ∀ pid j, s'.trace = .killed pid j :: s.trace →
    ∃ i, (s.proc i).state ≠ .unused ∧ (s.proc i).pid = pid

/-- A step in which `fork` makes a process `RUNNABLE`: if it is marked as killed, `kill` was called
with its ID since this was assigned. -/
def BornAlive (s s' : State κ) : Prop :=
  ∀ j, (s.proc j).state = .embryo → (s'.proc j).state = .runnable → (s'.proc j).killed = true →
    KilledSince j (s'.proc j).pid s'.trace

/-- **Who is killed exists, and who is made has not been killed**, in every run from boot in which
`kill` is called neither with 0 nor with an ID for which `fork` fails, before or after. -/
theorem kill_spares_the_unborn {t t' : Pool (Thread κ) (State κ) Panic} {m : Move (Thread κ) Call}
    (h : Reach kernel (fun _ s => Spares s.trace) (.idle boot) t) (hm : t.move kernel m = .ok t')
    (hspares : Spares t'.state.trace) :
    KillHits t.state t'.state ∧ BornAlive t.state t'.state := by
  have hv := reach_verified False True
    (h.mono fun _ _ hk => ⟨fun hf => hf.elim, fun _ => hk⟩)
  obtain ⟨⟨g', hI', -⟩, hstep⟩ :=
    hv.move (fun _ _ _ hl => kernel_wp hl) hm ⟨fun hf => hf.elim, fun _ => hspares⟩
  obtain ⟨g, hI, -⟩ := hv
  have hhonest : Honest t.state t'.state := hstep.elim (fun heq => heq ▸ .quiet rfl) id
  refine ⟨fun pid j hcons => ?_, fun j _ _ hk => (hI'.kills trivial j).2 hk⟩
  obtain rfl := hhonest.kills pid j hcons
  refine ⟨j, fun hu => ?_, rfl⟩
  rw [hcons] at hspares
  exact ((hI.kills trivial j).1 hu).2.elim hspares.1 hspares.2

instance : DecidablePred Spares := fun tr => by unfold Spares; split <;> infer_instance

/-- The turns of `oneChild` until the child is about to be made `RUNNABLE`, after init has called
`kill` with the given ID. -/
def killFirst (pid : ℤ) : List (Thread Unit × Option Call × ℕ) :=
  [(.sched (), some .round, 100), (.proc 0, some (.kill pid), 100),
    (.proc 0, some (.fork true true fun _ => []), 9)]

/-- `fork` fails for init, which then kills itself and makes a process. This one is alive. -/
def failFirst : List (Thread Unit × Option Call × ℕ) :=
  [(.sched (), some .round, 100), (.proc 0, some (.fork true false fun _ => []), 100),
    (.proc 0, some (.kill 1), 100), (.proc 0, some (.fork true true fun _ => []), 9)]

theorem kill_spares_the_unborn_init :
    ∃ t', (after (fun _ s => Spares s.trace) failFirst).move kernel (.go (.proc 0)) = .ok t' ∧
      t'.state.trace = [.assigned 3 1, .killed 1 0, .failed 2, .assigned 2 1, .assigned 1 0] ∧
      (t'.state.proc 1).state = .runnable ∧
      KillHits (after (fun _ s => Spares s.trace) failFirst).state t'.state ∧
      BornAlive (after (fun _ s => Spares s.trace) failFirst).state t'.state := by
  obtain ⟨t', hm, ht⟩ := Pool.exists_move kernel (after (fun _ s => Spares s.trace) failFirst)
    (.go (.proc 0)) (fun t' => decide (t'.state.trace =
      [.assigned 3 1, .killed 1 0, .failed 2, .assigned 2 1, .assigned 1 0] ∧
      (t'.state.proc 1).state = .runnable)) (by decide +kernel)
  obtain ⟨htr, hst⟩ := of_decide_eq_true ht
  exact ⟨t', hm, htr, hst,
    kill_spares_the_unborn (reach_after _ failFirst) hm (by rw [htr]; trivial)⟩

/-- **`kill(0)` returns 0**, although there is no process with this ID: it marks the first `UNUSED`
slot. The next process that is made there has been killed before it has run. -/
theorem killed_before_birth :
    (∃ (t t' : Pool (Thread Unit) (State Unit) Panic) (m : Move (Thread Unit) Call),
      Reach kernel (fun _ _ => True) (.idle boot) t ∧ t.move kernel m = .ok t' ∧
        ¬KillHits t.state t'.state) ∧
    ∃ (t t' : Pool (Thread Unit) (State Unit) Panic) (m : Move (Thread Unit) Call),
      Reach kernel (fun _ _ => True) (.idle boot) t ∧ t.move kernel m = .ok t' ∧
        ¬BornAlive t.state t'.state := by
  constructor
  · have hreach := reach_after (fun _ _ => True)
      [(.sched (), some .round, 100), (.proc 0, some (.kill 0), 3)]
    obtain ⟨t', hm, ht⟩ := Pool.exists_move kernel (after (fun _ _ => True)
        [(.sched (), some .round, 100), (.proc 0, some (.kill 0), 3)]) (.go (.proc 0))
      (fun t' => decide (t'.state.trace = [.killed 0 1, .assigned 1 0])) (by decide +kernel)
    refine ⟨_, t', _, hreach, hm, fun hhits => ?_⟩
    obtain ⟨i, hi⟩ := hhits 0 1 ((of_decide_eq_true ht).trans (by decide +kernel))
    revert i
    decide +kernel
  · obtain ⟨t', hm, ht⟩ := Pool.exists_move kernel (after (fun _ _ => True) (killFirst 0))
      (.go (.proc 0))
      (fun t' => decide ((t'.state.proc 1).state = .runnable ∧ (t'.state.proc 1).killed = true ∧
        t'.state.trace = [.assigned 2 1, .killed 0 1, .assigned 1 0])) (by decide +kernel)
    obtain ⟨hst, hk, htr⟩ := of_decide_eq_true ht
    refine ⟨_, t', _, reach_after _ (killFirst 0), hm, fun halive => ?_⟩
    have hsince := halive 1 (by decide +kernel) hst hk
    rw [htr] at hsince
    exact hsince.1 rfl

end Xv6.Sched
