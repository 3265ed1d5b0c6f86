import Xv6.Proc.Table

/-!
# No wakeup is lost

`sleep` and `wakeup` of `proc.c` with the lock that is passed to `sleep`. A process that has found a
condition false, with lock `lk` held, calls `sleep(chan, lk)`; a process that makes the condition
true, with `lk` held, calls `wakeup(chan)` before it releases `lk`. `sleep` gives `lk` up before the
process is `SLEEPING`, so it takes `ptable.lock` first, which `wakeup` needs; if `lk` is
`ptable.lock` itself it has it already.

There is any number of processes, locks and channels. The steps are those of `sleep`, `wakeup` and
`kill` between which another process can do something; in between calls a process does what it likes
with locks and with the data that `lk` guards. `Allowed` is what is asked of callers.

`sched` gives up `ptable.lock`, and when it returns the process has it again: whoever has had the
lock meanwhile, the scheduler included, has released it or passed it on.

## Main results

* `Inv.step` — what one step does to those who sleep on the channel
* `sleep_loses_no_wakeup` — with the lock free, nobody sleeps on the channel while the condition
  holds
-/

namespace Xv6.Sleep

open Sched (ProcState)
open Function (update_of_ne update_self)

variable {ι Λ χ σ : Type}

/-- What processes wait for. -/
structure Wait (Λ χ σ : Type) where
  ptable : Λ
  lk : Λ
  chan : χ
  cond : σ → Bool

/-- `struct proc`, as far as it matters here. -/
structure Proc (χ : Type) where
  state : ProcState
  /-- If there is one, the process sleeps on it. -/
  chan : Option χ
  killed : Bool

/-- Calls that do something to the process table with its lock held. -/
inductive Op (ι χ : Type)
  | wakeup (c : χ)
  | kill (q : ι)

/-- What a process does next. -/
inductive Pc (ι Λ χ : Type)
  | out
  | sleepLock (c : χ) (l : Λ)
  | sleepUnlock (c : χ) (l : Λ)
  /-- `sleep`: set `chan` and `state`, and call `sched`. -/
  | sleepSched (c : χ) (l : Λ)
  /-- `sleep`: return from `sched`. -/
  | asleep (l : Λ)
  | sleepRelease (l : Λ)
  | sleepAcquire (l : Λ)
  | tableLock (op : Op ι χ)
  | tableLoop (op : Op ι χ)
  | tableUnlock (op : Op ι χ)

/-- The locks, the data and the processes. -/
structure State (ι Λ χ σ : Type) where
  held : Λ → Option ι
  data : σ
  proc : ι → Proc χ
  pc : ι → Pc ι Λ χ
  /-- The process that has `lk` has made the condition true, and no call of `wakeup` has returned to
  it since. No step looks at it. -/
  owed : Bool

/-- Why a step does not take place. -/
inductive Stuck
  | disabled
  | acquire -- "acquire"
  | release -- "release"
  | sched -- "sched ptable.lock"
  deriving DecidableEq

/-- What a process can do when it is in none of the functions. -/
inductive Call (ι Λ χ σ : Type)
  | acquire (l : Λ)
  | release (l : Λ)
  | update (d : σ)
  | sleep (c : χ) (l : Λ)
  | wakeup (c : χ)
  | wakeup1 (c : χ)
  | kill (q : ι)

/-- What can happen. -/
inductive Act (ι Λ χ σ : Type)
  | call (p : ι) (x : Call ι Λ χ σ)
  | go (p : ι)

namespace State

variable [DecidableEq ι] [DecidableEq Λ] [DecidableEq χ] (w : Wait Λ χ σ) (s : State ι Λ χ σ)

/-- The state with process `p` somewhere else. -/
def setPc (p : ι) (c : Pc ι Λ χ) : State ι Λ χ σ := { s with pc := Function.update s.pc p c }

/-- The state with another holder of a lock. -/
def setHeld (l : Λ) (o : Option ι) : State ι Λ χ σ :=
  { s with held := Function.update s.held l o }

/-- The state with a process changed. -/
def setProc (p : ι) (x : Proc χ) : State ι Λ χ σ := { s with proc := Function.update s.proc p x }

/-- Acquire a lock; loops until the lock is acquired. -/
def acquire (p : ι) (l : Λ) : Except Stuck (State ι Λ χ σ) :=
  match s.held l with
  | none => .ok (s.setHeld l (some p))
  | some q => if q = p then .error .acquire else .error .disabled

/-- Release a lock. -/
def release (p : ι) (l : Λ) : Except Stuck (State ι Λ χ σ) :=
  if s.held l = some p then .ok (s.setHeld l none) else .error .release

/-- Wake up all processes sleeping on `c`. -/
def wakeup1 (c : χ) : State ι Λ χ σ :=
  { s with
    proc := fun q =>
      if (s.proc q).state = .sleeping ∧ (s.proc q).chan = some c then
        { s.proc q with state := .runnable }
      else s.proc q }

/-- `kill`, when it has found the process. -/
def kill (q : ι) : State ι Λ χ σ :=
  s.setProc q
    { s.proc q with
      killed := true
      state := if (s.proc q).state = .sleeping then .runnable else (s.proc q).state }

/-- Change the data. -/
def update (d : σ) : State ι Λ χ σ :=
  { s with data := d, owed := s.owed || (w.cond d && !w.cond s.data) }

/-- The part of `sleep` before `sched` returns. -/
def sched (p : ι) (c : χ) : Except Stuck (State ι Λ χ σ) :=
  if s.held w.ptable = some p then
    .ok ((s.setProc p { s.proc p with chan := some c, state := .sleeping }).setHeld w.ptable none)
  else .error .sched

/-- `sched` returns. -/
def resume (p : ι) : Except Stuck (State ι Λ χ σ) :=
  if (s.proc p).state = .runnable then
    (s.setProc p { s.proc p with chan := none, state := .running }).acquire p w.ptable
  else .error .disabled

/-- What `wakeup` and `kill` do with the lock held. -/
def loop : Op ι χ → State ι Λ χ σ
  | .wakeup c => s.wakeup1 c
  | .kill q => s.kill q

/-- What process `p`, which has called `wakeup` or `kill`, has done when the call returns. -/
def called (p : ι) : Op ι χ → State ι Λ χ σ
  | .wakeup c => { s with owed := s.owed && !decide (c = w.chan ∧ s.held w.lk = some p) }
  | .kill _ => s

/-- Process `p` goes on in the call it is in. -/
def go (p : ι) : Except Stuck (State ι Λ χ σ) :=
  match s.pc p with
  | .out => .error .disabled
  | .sleepLock c l => (s.acquire p w.ptable).map (·.setPc p (.sleepUnlock c l))
  | .sleepUnlock c l => (s.release p l).map (·.setPc p (.sleepSched c l))
  | .sleepSched c l => (s.sched w p c).map (·.setPc p (.asleep l))
  | .asleep l =>
    (s.resume w p).map (·.setPc p (if l = w.ptable then .out else .sleepRelease l))
  | .sleepRelease l => (s.release p w.ptable).map (·.setPc p (.sleepAcquire l))
  | .sleepAcquire l => (s.acquire p l).map (·.setPc p .out)
  | .tableLock op => (s.acquire p w.ptable).map (·.setPc p (.tableLoop op))
  | .tableLoop op => .ok ((s.loop op).setPc p (.tableUnlock op))
  | .tableUnlock op => ((s.called w p op).release p w.ptable).map (·.setPc p .out)

/-- Process `p`, which is in none of the functions, does something. -/
def call (p : ι) : Call ι Λ χ σ → Except Stuck (State ι Λ χ σ)
  | .acquire l => s.acquire p l
  | .release l => s.release p l
  | .update d => .ok (s.update w d)
  | .sleep c l => .ok (s.setPc p (if l = w.ptable then .sleepSched c l else .sleepLock c l))
  | .wakeup c => .ok (s.setPc p (.tableLock (.wakeup c)))
  | .wakeup1 c => .ok ((s.wakeup1 c).called w p (.wakeup c))
  | .kill q => .ok (s.setPc p (.tableLock (.kill q)))

/-- One step. -/
def step : Act ι Λ χ σ → Except Stuck (State ι Λ χ σ)
  | .call p x =>
    match s.pc p with
    | .out => s.call w p x
    | _ => .error .disabled
  | .go p => s.go w p

end State

/-- What is asked of callers: the data is guarded by the lock, who waits for the condition has found
it false and passes its lock, `wakeup1` is called with `ptable.lock` held, and nobody gives up the
lock of the condition, in `release` or in `sleep`, before `wakeup` if it has made the condition
true. -/
def Allowed (w : Wait Λ χ σ) (s : State ι Λ χ σ) : Act ι Λ χ σ → Prop
  | .call _ (.release l) => l = w.lk → s.owed = false
  | .call p (.update _) => s.held w.lk = some p
  | .call p (.sleep c l) => s.held l = some p ∧ (l = w.lk → s.owed = false) ∧
      (c = w.chan → l = w.lk ∧ w.cond s.data = false)
  | .call p (.wakeup1 _) => s.held w.ptable = some p
  | .call _ _ | .go _ => True

/-- The states of all runs in which callers do as they are asked, from any state in which no lock is
held, nobody sleeps and nobody is in one of the functions. -/
inductive Reach [DecidableEq ι] [DecidableEq Λ] [DecidableEq χ] (w : Wait Λ χ σ) :
    State ι Λ χ σ → Prop
  | init (d : σ) (proc : ι → Proc χ) (h : ∀ p, (proc p).state ≠ .sleeping) :
      Reach w ⟨fun _ => none, d, proc, fun _ => .out, false⟩
  | step {s s' : State ι Λ χ σ} (h : Reach w s) (act : Act ι Λ χ σ) (hact : Allowed w s act)
      (hs : s.step w act = .ok s') : Reach w s'

/-! ### The invariant -/

/-- Process `q` sleeps on the channel. -/
def State.Sleeps (w : Wait Λ χ σ) (s : State ι Λ χ σ) (q : ι) : Prop :=
  (s.proc q).state = .sleeping ∧ (s.proc q).chan = some w.chan

/-- The condition does not hold, or whoever made it true will call `wakeup`. -/
def State.Quiet (w : Wait Λ χ σ) (s : State ι Λ χ σ) : Prop := w.cond s.data = false ∨ s.owed = true

section Invariant

variable {w : Wait Λ χ σ} {s s' : State ι Λ χ σ} {p q : ι}

/-- Process `p` has the lock of the process table, and owes nothing if that is the lock of the
condition. -/
def HasTable (w : Wait Λ χ σ) (s : State ι Λ χ σ) (p : ι) : Prop :=
  s.held w.ptable = some p ∧ (w.ptable = w.lk → s.owed = false)

/-- Process `p` has lock `l` and may give it up to sleep on `c`. -/
def MaySleep (w : Wait Λ χ σ) (s : State ι Λ χ σ) (p : ι) (c : χ) (l : Λ) : Prop :=
  s.held l = some p ∧ (l = w.lk → s.owed = false) ∧
    (c = w.chan → l = w.lk ∧ w.cond s.data = false)

/-- What holds of a process where it is. -/
def At (w : Wait Λ χ σ) (s : State ι Λ χ σ) (p : ι) : Pc ι Λ χ → Prop
  | .sleepLock c l => MaySleep w s p c l
  | .sleepUnlock c l => MaySleep w s p c l ∧ HasTable w s p ∧ l ≠ w.ptable
  | .sleepSched c _ => HasTable w s p ∧ (c = w.chan → s.Quiet w)
  | .sleepRelease _ | .tableLoop _ => HasTable w s p
  | .tableUnlock op => HasTable w s p ∧ (op = .wakeup w.chan → ∀ q, ¬s.Sleeps w q)
  | .out | .asleep _ | .sleepAcquire _ | .tableLock _ => True

/-- What holds all the time. -/
structure Inv (w : Wait Λ χ σ) (s : State ι Λ χ σ) : Prop where
  place : ∀ p, At w s p (s.pc p)
  debt : s.owed = true → s.held w.lk ≠ none
  asleep : ∀ q, s.Sleeps w q → s.Quiet w

/-- What a step of process `p` can do to the others. -/
structure Effect (w : Wait Λ χ σ) (p : ι) (s s' : State ι Λ χ σ) : Prop where
  held : ∀ l q, q ≠ p → s.held l = some q → s'.held l = some q
  data : s.held w.lk ≠ some p → s'.data = s.data ∧ s'.owed = s.owed
  quiet : s.held w.ptable ≠ some p → s.Quiet w → s'.Quiet w
  sleeps : s.held w.ptable ≠ some p → ∀ q, s'.Sleeps w q → s.Sleeps w q
  pc : ∀ q, q ≠ p → s'.pc q = s.pc q

theorem Effect.hasTable (h : Effect w p s s') (hq : q ≠ p) (ht : HasTable w s q) :
    HasTable w s' q := by
  refine ⟨h.held _ _ hq ht.1, fun heq => ?_⟩
  have hne : s.held w.lk ≠ some p := by
    rw [← heq, ht.1]
    exact fun hqp => hq (Option.some.inj hqp)
  rw [(h.data hne).2]
  exact ht.2 heq

variable {l : Λ}

theorem Effect.maySleep (h : Effect w p s s') (hq : q ≠ p) {c : χ}
    (hm : MaySleep w s q c l) : MaySleep w s' q c l := by
  obtain ⟨hl, howed, hcond⟩ := hm
  have hdata : l = w.lk → s'.data = s.data ∧ s'.owed = s.owed := fun heq => by
    refine h.data ?_
    rw [← heq, hl]
    exact fun hqp => hq (Option.some.inj hqp)
  refine ⟨h.held _ _ hq hl, fun heq => ?_, fun hc => ?_⟩
  · rw [(hdata heq).2]
    exact howed heq
  · obtain ⟨heq, hfalse⟩ := hcond hc
    rw [(hdata heq).1]
    exact ⟨heq, hfalse⟩

/-- **The others are still where they should be.** -/
theorem Effect.place (h : Effect w p s s') (hq : q ≠ p) (hat : At w s q (s.pc q)) :
    At w s' q (s'.pc q) := by
  rw [h.pc q hq]
  cases hpc : s.pc q with
  | out => exact trivial
  | asleep l => exact trivial
  | sleepAcquire l => exact trivial
  | tableLock op => exact trivial
  | sleepLock c l =>
    rw [hpc] at hat
    exact h.maySleep hq hat
  | sleepUnlock c l =>
    rw [hpc] at hat
    exact ⟨h.maySleep hq hat.1, h.hasTable hq hat.2.1, hat.2.2⟩
  | sleepSched c l =>
    rw [hpc] at hat
    refine ⟨h.hasTable hq hat.1, fun hc => h.quiet ?_ (hat.2 hc)⟩
    rw [hat.1.1]
    exact fun hqp => hq (Option.some.inj hqp)
  | sleepRelease l =>
    rw [hpc] at hat
    exact h.hasTable hq hat
  | tableLoop op =>
    rw [hpc] at hat
    exact h.hasTable hq hat
  | tableUnlock op =>
    rw [hpc] at hat
    refine ⟨h.hasTable hq hat.1, fun hop r hr => hat.2 hop r (h.sleeps ?_ r hr)⟩
    rw [hat.1.1]
    exact fun hqp => hq (Option.some.inj hqp)

theorem Inv.of_effect (h : Inv w s) (he : Effect w p s s') (hat : At w s' p (s'.pc p))
    (hdebt : s'.owed = true → s'.held w.lk ≠ none) (hsleep : ∀ q, s'.Sleeps w q → s'.Quiet w) :
    Inv w s' := by
  refine ⟨fun q => ?_, hdebt, hsleep⟩
  by_cases hq : q = p
  · exact hq ▸ hat
  · exact he.place hq (h.place q)

/-! ### Steps -/

variable [DecidableEq ι] [DecidableEq Λ]

section Fields

variable (s : State ι Λ χ σ) (p : ι) (c : Pc ι Λ χ) (l : Λ) (o : Option ι) (x : Proc χ)

omit [DecidableEq Λ]

@[simp] theorem setPc_self : (s.setPc p c).pc p = c := update_self ..
theorem setPc_eq_self (h : s.pc p = c) : s.setPc p c = s := by
  subst h
  exact congrArg (fun f => { s with pc := f }) (Function.update_eq_self p s.pc)

@[simp] theorem setPc_held : (s.setPc p c).held = s.held := rfl

omit [DecidableEq ι]

variable [DecidableEq Λ]

@[simp] theorem setHeld_self : (s.setHeld l o).held l = o := update_self ..

theorem setHeld_of_ne {l' : Λ} (h : l' ≠ l) : (s.setHeld l o).held l' = s.held l' :=
  update_of_ne h ..

end Fields

theorem acquire_ok (h : s.acquire p l = .ok s') : s.held l = none ∧ s' = s.setHeld l (some p) := by
  rw [State.acquire] at h
  split at h
  case h_1 hl => exact ⟨hl, (Except.ok.inj h).symm⟩
  case h_2 q hl =>
    split_ifs at h

theorem release_ok (h : s.release p l = .ok s') : s.held l = some p ∧ s' = s.setHeld l none := by
  rw [State.release] at h
  split_ifs at h with hl
  exact ⟨hl, (Except.ok.inj h).symm⟩

omit [DecidableEq ι] in
theorem Effect.setHeld {o : Option ι}
    (hl : s.held l = none ∨ s.held l = some p) (hheld : s'.held = (s.setHeld l o).held)
    (hdata : s'.data = s.data) (howed : s'.owed = s.owed) (hpc : ∀ q, q ≠ p → s'.pc q = s.pc q)
    (hproc : s.held w.ptable ≠ some p → s'.proc = s.proc) : Effect w p s s' := by
  refine ⟨fun l' q hq hl' => ?_, fun _ => ⟨hdata, howed⟩, fun _ hquiet => ?_,
    fun hne q hq => ?_, hpc⟩
  · rw [hheld]
    refine (setHeld_of_ne _ _ _ ?_).trans hl'
    rintro rfl
    rcases hl with hl | hl
    · rw [hl] at hl'
      cases hl'
    · rw [hl] at hl'
      exact hq (Option.some.inj hl').symm
  · rwa [State.Quiet, hdata, howed]
  · rwa [State.Sleeps, hproc hne] at hq

section

variable (h : Inv w s)

include h

variable {c : Pc ι Λ χ}

theorem Inv.acquire (hl : s.held l = none)
    (hat : At w ((s.setHeld l (some p)).setPc p c) p c) :
    Inv w ((s.setHeld l (some p)).setPc p c) := by
  refine h.of_effect (.setHeld (.inl hl) rfl rfl rfl (fun q hq => update_of_ne hq ..) fun _ => rfl)
    ?_ (fun howed => ?_) h.asleep
  · rwa [setPc_self]
  · by_cases heq : w.lk = l
    · subst heq
      simp
    · rw [setPc_held, setHeld_of_ne _ _ _ heq]
      exact h.debt howed

theorem Inv.release (hl : s.held l = some p)
    (howed : l = w.lk → s.owed = false) (hat : At w ((s.setHeld l none).setPc p c) p c) :
    Inv w ((s.setHeld l none).setPc p c) := by
  refine h.of_effect (.setHeld (.inr hl) rfl rfl rfl (fun q hq => update_of_ne hq ..) fun _ => rfl)
    ?_ (fun howed' => ?_) h.asleep
  · rwa [setPc_self]
  · by_cases heq : w.lk = l
    · exact absurd ((howed heq.symm).symm.trans howed') Bool.false_ne_true
    · rw [setPc_held, setHeld_of_ne _ _ _ heq]
      exact h.debt howed'

omit [DecidableEq Λ] in
theorem Inv.setPc (hat : At w s p c) : Inv w (s.setPc p c) := by
  refine h.of_effect (p := p) ⟨fun _ _ _ => id, fun _ => ⟨rfl, rfl⟩, fun _ => id, fun _ _ => id,
    fun q hq => update_of_ne hq ..⟩ ?_ h.debt h.asleep
  rwa [setPc_self]

omit [DecidableEq ι] [DecidableEq Λ] in
theorem Inv.wakes {f : ι → Proc χ}
    (hf : ∀ q, State.Sleeps w { s with proc := f } q → s.Sleeps w q) :
    Inv w { s with proc := f } := by
  refine ⟨fun q => ?_, h.debt, fun q hq => h.asleep q (hf q hq)⟩
  have hat := h.place q
  change At w _ q (s.pc q)
  cases hpc : s.pc q with
  | tableUnlock op =>
    rw [hpc] at hat
    exact ⟨hat.1, fun hop r hr => hat.2 hop r (hf r hr)⟩
  | _ =>
    rw [hpc] at hat
    exact hat

omit [DecidableEq Λ] in
theorem Inv.setProc {x : Proc χ} (hx : x.state ≠ .sleeping) : Inv w (s.setProc q x) := by
  refine h.wakes fun r hr => ?_
  by_cases hrq : r = q
  · subst hrq
    simp only [State.Sleeps, update_self] at hr
    exact absurd hr.1 hx
  · simpa only [State.Sleeps, update_of_ne hrq] using hr

omit [DecidableEq Λ] in
theorem Inv.kill : Inv w (s.kill q) := by
  refine h.setProc ?_
  split_ifs with hq
  · exact fun heq => by cases heq
  · exact hq

/-- **`sched` is called to sleep.** The process has had `ptable.lock` since it held the lock of the
condition. -/
theorem Inv.sched {c : χ} (hpc : s.pc p = .sleepSched c l)
    (hs : s.sched w p c = .ok s') : Inv w (s'.setPc p (.asleep l)) := by
  have hat := h.place p
  rw [hpc] at hat
  obtain ⟨⟨hl, howed⟩, hquiet⟩ := hat
  rw [State.sched, if_pos hl] at hs
  obtain rfl := Except.ok.inj hs
  refine h.of_effect (.setHeld (.inr hl) rfl rfl rfl (fun q hq => update_of_ne hq ..)
    fun hne => absurd hl hne) (by rw [setPc_self]; exact trivial) (fun howed' => ?_) fun q hq => ?_
  · by_cases heq : w.lk = w.ptable
    · exact absurd ((howed heq.symm).symm.trans howed') Bool.false_ne_true
    · rw [setPc_held, setHeld_of_ne _ _ _ heq]
      exact h.debt howed'
  · by_cases hqp : q = p
    · subst hqp
      simp only [State.Sleeps, State.setPc, State.setHeld, State.setProc, update_self,
        Option.some.injEq] at hq
      exact hquiet hq.2
    · refine h.asleep q ?_
      simpa only [State.Sleeps, State.setPc, State.setHeld, State.setProc,
        update_of_ne hqp] using hq

end

variable [DecidableEq χ]

omit [DecidableEq ι] [DecidableEq Λ] in
theorem sleeps_wakeup1 {c : χ} (hq : (s.wakeup1 c).Sleeps w q) : s.Sleeps w q ∧ c ≠ w.chan := by
  simp only [State.Sleeps, State.wakeup1] at hq
  split_ifs at hq with hsleep
  · cases hq.1
  · refine ⟨hq, ?_⟩
    rintro rfl
    exact hsleep hq

omit [DecidableEq ι] [DecidableEq Λ] in
theorem Inv.wakeup1 (h : Inv w s) {c : χ} : Inv w (s.wakeup1 c) :=
  h.wakes fun _ hq => (sleeps_wakeup1 hq).1

omit [DecidableEq Λ] in
/-- **`wakeup` settles a debt if it has left nobody asleep on the channel.** -/
theorem Inv.called (h : Inv w s) (hp : s.held w.ptable = some p) {op : Op ι χ}
    (hnone : op = .wakeup w.chan → ∀ q, ¬s.Sleeps w q)
    (hat : At w (s.called w p op) p (s.pc p)) : Inv w (s.called w p op) := by
  cases op with
  | kill q => exact h
  | wakeup c =>
    refine h.of_effect (p := p) ⟨fun _ _ _ => id, fun hlk => ⟨rfl, ?_⟩, fun hne => absurd hp hne,
      fun _ _ => id, fun _ _ => rfl⟩ hat (fun ho => h.debt (Bool.and_eq_true_iff.mp ho).1)
      fun q hq => ?_
    · simp [State.called, hlk]
    · have hc : c ≠ w.chan := by
        rintro rfl
        exact hnone rfl q hq
      have hsame : (s.called w p (.wakeup c)).owed = s.owed := by simp [State.called, hc]
      rw [State.Quiet, hsame]
      exact h.asleep q hq

/-- **One step of a call.** -/
theorem Inv.go (h : Inv w s) (hs : s.go w p = .ok s') : Inv w s' := by
  have hat := h.place p
  rw [State.go] at hs
  cases hpc : s.pc p with
  | out =>
    rw [hpc] at hs
    cases hs
  | sleepLock c l =>
    rw [hpc] at hs hat
    obtain ⟨t, ht, rfl⟩ := Runs.of_map_ok hs
    obtain ⟨hfree, rfl⟩ := acquire_ok ht
    have hne : l ≠ w.ptable := fun heq => nomatch (heq ▸ hat.1).symm.trans hfree
    refine h.acquire hfree ⟨⟨?_, hat.2⟩, ⟨setHeld_self .., fun heq => ?_⟩, hne⟩
    · rw [setPc_held, setHeld_of_ne _ _ _ hne]
      exact hat.1
    · -- the lock was free, so nothing was owed
      by_contra hne
      exact h.debt (Bool.eq_true_of_not_eq_false hne) (heq ▸ hfree)
  | sleepUnlock c l =>
    rw [hpc] at hs hat
    obtain ⟨t, ht, rfl⟩ := Runs.of_map_ok hs
    obtain ⟨hl, rfl⟩ := release_ok ht
    obtain ⟨⟨-, howed, hcond⟩, htable, hne⟩ := hat
    refine h.release hl howed ⟨⟨?_, htable.2⟩, fun hc => .inl (hcond hc).2⟩
    rw [setPc_held, setHeld_of_ne _ _ _ hne.symm]
    exact htable.1
  | sleepSched c l =>
    rw [hpc] at hs
    obtain ⟨t, ht, rfl⟩ := Runs.of_map_ok hs
    exact h.sched hpc ht
  | asleep l =>
    rw [hpc] at hs
    obtain ⟨t, ht, rfl⟩ := Runs.of_map_ok hs
    rw [State.resume] at ht
    split_ifs at ht with hrun
    obtain ⟨hfree, rfl⟩ := acquire_ok ht
    refine (h.setProc (ne_of_beq_false rfl)).acquire hfree ?_
    split_ifs
    · exact trivial
    · refine ⟨setHeld_self .., fun heq => ?_⟩
      by_contra hne
      exact h.debt (Bool.eq_true_of_not_eq_false hne) (heq ▸ hfree)
  | sleepRelease l =>
    rw [hpc] at hs hat
    obtain ⟨t, ht, rfl⟩ := Runs.of_map_ok hs
    obtain ⟨hl, rfl⟩ := release_ok ht
    exact h.release hl hat.2 trivial
  | sleepAcquire l =>
    rw [hpc] at hs
    obtain ⟨t, ht, rfl⟩ := Runs.of_map_ok hs
    obtain ⟨hfree, rfl⟩ := acquire_ok ht
    exact h.acquire hfree trivial
  | tableLock op =>
    rw [hpc] at hs
    obtain ⟨t, ht, rfl⟩ := Runs.of_map_ok hs
    obtain ⟨hfree, rfl⟩ := acquire_ok ht
    refine h.acquire hfree ⟨setHeld_self .., fun heq => ?_⟩
    by_contra hne
    exact h.debt (Bool.eq_true_of_not_eq_false hne) (heq ▸ hfree)
  | tableLoop op =>
    rw [hpc] at hs hat
    obtain rfl := Except.ok.inj hs
    cases op with
    | wakeup c =>
      refine h.wakeup1.setPc ⟨hat, fun hop q hq => (sleeps_wakeup1 hq).2 ?_⟩
      cases hop
      rfl
    | kill q =>
      refine h.kill.setPc ⟨hat, fun hop => ?_⟩
      cases hop
  | tableUnlock op =>
    rw [hpc] at hs
    have hunlock : At w s p (.tableUnlock op) := hpc ▸ hat
    obtain ⟨t, ht, rfl⟩ := Runs.of_map_ok hs
    obtain ⟨hl, rfl⟩ := release_ok ht
    have hclean : At w (s.called w p op) p (.tableUnlock op) := by
      cases op with
      | kill q => exact hunlock
      | wakeup c =>
        refine ⟨⟨hunlock.1.1, fun heq => ?_⟩, hunlock.2⟩
        simp [State.called, hunlock.1.2 heq]
    have hcalled := h.called hunlock.1.1 hunlock.2 (by rw [hpc]; exact hclean)
    exact hcalled.release hl hclean.1.2 trivial

/-- **What a process does in none of the functions.** -/
theorem Inv.call (h : Inv w s) {x : Call ι Λ χ σ} (hpc : s.pc p = .out)
    (hact : Allowed w s (.call p x)) (hs : s.call w p x = .ok s') : Inv w s' := by
  have hsame : ∀ {t : State ι Λ χ σ}, t.pc p = .out → t = t.setPc p .out := fun ht =>
    (setPc_eq_self _ _ _ ht).symm
  cases x with
  | acquire l =>
    obtain ⟨hfree, rfl⟩ := acquire_ok hs
    rw [hsame (t := s.setHeld l (some p)) hpc]
    exact h.acquire hfree trivial
  | release l =>
    obtain ⟨hl, rfl⟩ := release_ok hs
    rw [hsame (t := s.setHeld l none) hpc]
    exact h.release hl hact trivial
  | update d =>
    obtain rfl := Except.ok.inj hs
    have hlk : s.held w.lk = some p := hact
    have hquiet : s.Quiet w → (s.update w d).Quiet w := by
      simp only [State.Quiet, State.update]
      cases s.owed <;> cases w.cond d <;> simp
    refine h.of_effect (p := p) ⟨fun _ _ _ => id, fun hne => absurd hlk hne, fun _ => hquiet,
      fun _ _ => id, fun _ _ => rfl⟩ ?_ (fun _ => hlk ▸ Option.some_ne_none p) fun q hq =>
      hquiet (h.asleep q hq)
    rw [show (s.update w d).pc p = .out from hpc]
    exact trivial
  | sleep c l =>
    obtain rfl := Except.ok.inj hs
    refine h.setPc ?_
    split_ifs with hl
    · subst hl
      exact ⟨⟨hact.1, hact.2.1⟩, fun hc => .inl (hact.2.2 hc).2⟩
    · exact hact
  | wakeup c =>
    obtain rfl := Except.ok.inj hs
    exact h.setPc trivial
  | wakeup1 c =>
    obtain rfl := Except.ok.inj hs
    refine h.wakeup1.called hact (fun hop q hq => (sleeps_wakeup1 hq).2 ?_)
      (by rw [show (s.wakeup1 c).pc p = .out from hpc]; exact trivial)
    cases hop
    rfl
  | kill q =>
    obtain rfl := Except.ok.inj hs
    exact h.setPc trivial

/-- **One step keeps the invariant.** -/
theorem Inv.step (h : Inv w s) {act : Act ι Λ χ σ} (hact : Allowed w s act)
    (hs : s.step w act = .ok s') : Inv w s' := by
  cases act with
  | go p => exact h.go hs
  | call p x =>
    rw [State.step] at hs
    split at hs
    case h_1 hpc => exact h.call hpc hact hs
    case h_2 => cases hs

theorem Reach.inv (h : Reach w s) : Inv w s := by
  induction h with
  | init d proc hproc =>
    exact ⟨fun _ => trivial, (fun ho => by cases ho), fun q hq => absurd hq.1 (hproc q)⟩
  | step _ act hact hs ih => exact ih.step hact hs

/-- **No wakeup is lost.** With the lock of the condition free, nobody sleeps on the channel while
the condition holds. -/
theorem sleep_loses_no_wakeup (h : Reach w s) (hlk : s.held w.lk = none)
    (hcond : w.cond s.data = true) (q : ι) :
    ¬((s.proc q).state = .sleeping ∧ (s.proc q).chan = some w.chan) := by
  intro hq
  rcases h.inv.asleep q hq with hfalse | howed
  · exact Bool.false_ne_true (hfalse.symm.trans hcond)
  · exact h.inv.debt howed hlk

end Invariant

/-- A flag, guarded by a lock that is not `ptable.lock`. -/
def flag : Wait Bool ℕ Bool := ⟨true, false, 7, id⟩

/-- A process sleeps until the flag is set. Another one sets it, calls `wakeup` and releases the
lock. -/
theorem sleep_loses_no_wakeup_flag : ∃ s s' : State ℕ Bool ℕ Bool,
    Reach flag s ∧ s.data = false ∧ (s.proc 0).state = .sleeping ∧ (s.proc 0).chan = some 7 ∧
    Reach flag s' ∧ s'.held false = none ∧ s'.data = true ∧ (s'.proc 0).state = .runnable ∧
    ∀ q, ¬((s'.proc q).state = .sleeping ∧ (s'.proc q).chan = some 7) := by
  have h₀ := Reach.init (w := flag) false (fun _ : ℕ => ⟨.running, none, false⟩)
    fun _ h => by cases h
  have h₁ := h₀.step (.call 0 (.acquire false)) trivial rfl
  have h₂ := h₁.step (.call 0 (.sleep 7 false))
    ⟨rfl, fun _ => rfl, fun _ => ⟨rfl, rfl⟩⟩ rfl
  have h₃ := h₂.step (.go 0) trivial rfl
  have h₄ := h₃.step (.go 0) trivial rfl
  have h₅ := h₄.step (.go 0) trivial rfl
  have h₆ := h₅.step (.call 1 (.acquire false)) trivial rfl
  have h₇ := h₆.step (.call 1 (.update true)) rfl rfl
  have h₈ := h₇.step (.call 1 (.wakeup 7)) trivial rfl
  have h₉ := h₈.step (.go 1) trivial rfl
  have h₁₀ := h₉.step (.go 1) trivial rfl
  have h₁₁ := h₁₀.step (.go 1) trivial rfl
  have h₁₂ := h₁₁.step (.call 1 (.release false)) (fun _ => rfl) rfl
  exact ⟨_, _, h₅, rfl, rfl, rfl, h₁₂, rfl, rfl, rfl, sleep_loses_no_wakeup h₁₂ rfl rfl⟩

end Xv6.Sleep
