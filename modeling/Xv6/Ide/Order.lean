import Xv6.Ide.Driver
import Xv6.Library.LinkedList
import Xv6.Library.Runs

/-!
# Requests complete in order

The queue of the driver and the command that the disk executes belong together: with `idelock` free,
the command is that of the first request in the queue, or the queue is empty and the disk idle. In
between, the interrupt handler has a request in hand that is no longer in the queue, or a request is
first in the queue that has not been started.

Who holds the lock says which of these it is, by where it is (`Phase`). What a process in `iderw`
knows about its request does not depend on the lock (`Knows`).

## Main results

* `Inv.step` — what holds after every step
* `requests_in_order` — the queue, the disk, and the histories
-/

namespace Xv6.Ide

open LinkedList Function List State
open Except (ok)

variable {ι β δ : Type}

/-! ### The invariant -/

/-- What the driver has to do, seen from outside. -/
structure View (β : Type) where
  /-- The request that the interrupt handler has taken from the queue. -/
  hand : List β
  queue : List β
  /-- The data of the first request has been transferred. -/
  moved : Bool
  /-- The disk has executed the first request. -/
  executed : Bool

/-- The requests that are not done, in their order. -/
def View.todo (v : View β) : List β := v.hand ++ v.queue

/-- The interrupt has been taken, and the request is still in the queue. -/
def InFlight : Pc β → Prop
  | .intr .acquire | .intr .pop => True
  | _ => False

/-- If it was to be read, the disk has the block of the buffer. -/
def Fetched (s : State ι β δ) (b : β) : Prop := (s.buf b).dirty = false →
  s.drive.buffer = s.drive.media ((s.buf b).dev % 2) (s.buf b).blockno

/-- Nothing has been started. -/
structure Free (s : State ι β δ) (v : View β) : Prop where
  hand : v.hand = []
  moved : v.moved = false
  executed : v.executed = false
  ready : s.drive.status = .ready
  noIntr : ∀ p, ¬InFlight (s.pc p)

/-- The disk has the first request of the queue. When its interrupt has been taken there is one
handler on its way, and otherwise none. -/
structure Running (s : State ι β δ) (v : View β) (b : β) : Prop where
  hand : v.hand = []
  head : v.queue.head? = some b
  ports : s.drive.ports = ports (s.buf b)
  block : (s.buf b).blockno < fssize
  moved : v.moved = (s.buf b).dirty
  busy : s.drive.status = .busy → v.executed = false ∧
    ((s.buf b).dirty = true → s.drive.buffer = (s.buf b).data)
  finished : s.drive.status ≠ .busy → v.executed = true ∧ Fetched s b
  intr : (s.drive.status ≠ .ready ∧ ∀ p, ¬InFlight (s.pc p)) ∨
    s.drive.status = .ready ∧ ∃ p, ∀ q, InFlight (s.pc q) ↔ q = p

/-- Whenever `idelock` is free, there is nothing to do or the disk does it. -/
def Rest (s : State ι β δ) (v : View β) : Prop :=
  v.queue = [] ∧ Free s v ∨ ∃ b, Running s v b

/-- The interrupt handler has a request in hand. -/
structure InHand (s : State ι β δ) (v : View β) (b : β) (moved : Bool) : Prop where
  hand : v.hand = [b]
  moved : v.moved = moved
  executed : v.executed = true
  ready : s.drive.status = .ready
  noIntr : ∀ p, ¬InFlight (s.pc p)

/-- What holds when a process has the lock, by where it is. -/
def Holding (s : State ι β δ) (v : View β) : Pc β → Prop
  | .rw _ _ .append | .rw _ _ (.test _) | .rw _ _ (.release _) => Rest s v
  | .rw b _ (.walk pp) => Rest s v ∧ s.qnext b = none ∧
      ∃ l l', v.queue = l ++ l' ∧ pp = l.getLast?
  | .rw b _ (.start _) => v.queue = [b] ∧ Free s v ∨ v.queue.head? ≠ some b ∧ Rest s v
  | .intr .pop | .intr .release => Rest s v
  | .intr (.read b) => InHand s v b (s.buf b).dirty ∧ Fetched s b
  | .intr (.finish b) => InHand s v b true ∧ (s.buf b).data = (s.buf b).request.result s.drive.media
  | .intr .next => Free s v
  | .out | .rw _ _ .acquire | .rw _ _ (.asleep _ _) | .rw _ _ (.relock _) | .intr .acquire => False

/-- What holds, by who has the lock. -/
def Phase (s : State ι β δ) (v : View β) : Prop :=
  match s.lock with
  | none => Rest s v
  | some p => Holding s v (s.pc p)

/-- Places where a process has the lock. -/
def HasLock : Pc β → Prop
  | .rw _ _ .append | .rw _ _ (.walk _) | .rw _ _ (.start _) | .rw _ _ (.test _)
  | .rw _ _ (.release _) | .intr .pop | .intr (.read _) | .intr (.finish _) | .intr .next
  | .intr .release => True
  | .out | .rw _ _ .acquire | .rw _ _ (.asleep _ _) | .rw _ _ (.relock _) | .intr .acquire => False

/-- The buffer has what was asked for. -/
def Buf.Synced (x : Buf δ) : Prop := x.valid = true ∧ x.dirty = false

/-- The request with number `k` is done, after those before it, or it is still to be done. -/
def Called (m : ℕ → ℕ → δ) (s : State ι β δ) (v : View β) (b : β) (d : Bool) (k : ℕ) : Prop :=
  ∃ r, s.asked[k]? = some (b, r) ∧ r.data.isSome = d ∧
    (k < s.done.length ∧ (s.buf b).Synced ∧ b ∉ v.todo ∧
        (s.buf b).data = r.result (execAll m (s.asked.take k)) ∨
      s.done.length ≤ k ∧ ¬(s.buf b).Synced ∧ b ∈ v.todo)

/-- What a process knows about its request. -/
def Knows (m : ℕ → ℕ → δ) (s : State ι β δ) (v : View β) : Pc β → Prop
  | .rw b d .acquire | .rw b d .append | .rw b d (.walk _) =>
    b ∉ v.todo ∧ (s.buf b).dirty = d ∧ ¬(s.buf b).Synced
  | .rw b d (.start k) | .rw b d (.test k) | .rw b d (.asleep k _) | .rw b d (.relock k) =>
    Called m s v b d k
  | .rw b d (.release k) => Called m s v b d k ∧ (s.buf b).Synced
  | .out | .intr _ => True

/-- What holds of the requests, whoever has the lock. -/
structure Core (m : ℕ → ℕ → δ) (s : State ι β δ) (v : View β) : Prop where
  chain : Chain s.qnext s.idequeue v.queue
  nodup : v.todo.Nodup
  asked : s.asked = s.done ++ v.todo.map fun b => (b, (s.buf b).request)
  sent : s.sent = s.done ++ (v.todo.take v.moved.toNat).map fun b => (b, (s.buf b).request)
  media : s.drive.media = execAll m (s.done ++
    (v.todo.take v.executed.toNat).map fun b => (b, (s.buf b).request))
  lock : ∀ p, HasLock (s.pc p) → s.lock = some p
  knows : ∀ p, Knows m s v (s.pc p)
  called : ∀ b ∈ v.todo, InCall s b
  alone : ∀ p q b d d' pos pos', s.pc p = .rw b d pos → s.pc q = .rw b d' pos' → p = q

/-- What holds all the time. -/
structure Inv (m : ℕ → ℕ → δ) (s : State ι β δ) (v : View β) : Prop extends Core m s v where
  phase : Phase s v

section

variable {m : ℕ → ℕ → δ} {s s' : State ι β δ} {v v' : View β} {b : β} {d : Bool} {k : ℕ} {p : ι}

theorem Free.todo (h : Free s v) : v.todo = v.queue := by rw [View.todo, h.hand, nil_append]

theorem Running.todo (h : Running s v b) : v.todo = v.queue := by
  rw [View.todo, h.hand, nil_append]

/-- A change that is not about the requests for buffer `b`. -/
structure Leaves (b : β) (s s' : State ι β δ) (v v' : View β) : Prop where
  asked : s.asked <+: s'.asked
  done : ∀ (k : ℕ) (r : Request δ), s.asked[k]? = some (b, r) →
    (k < s'.done.length ↔ k < s.done.length)
  data : b ∉ v.todo → (s'.buf b).data = (s.buf b).data
  valid : (s'.buf b).valid = (s.buf b).valid
  dirty : (s'.buf b).dirty = (s.buf b).dirty
  todo : b ∈ v'.todo ↔ b ∈ v.todo

theorem Leaves.called (h : Leaves b s s' v v') (hc : Called m s v b d k) :
    Called m s' v' b d k := by
  obtain ⟨r, hasked, hd, hc⟩ := hc
  have hlt := (List.getElem?_eq_some_iff.mp hasked).1
  obtain ⟨l, hl⟩ := h.asked
  refine ⟨r, ?_, hd, ?_⟩
  · rw [← hl, List.getElem?_append_left hlt, hasked]
  · rw [← hl, take_append_of_le_length (Nat.le_of_lt hlt)]
    simp only [Buf.Synced, h.valid, h.dirty, h.todo, h.done k r hasked, ← Nat.not_lt]
    rcases hc with ⟨hk, hsync, hnot, hdata⟩ | ⟨hk, hc⟩
    · exact .inl ⟨hk, hsync, hnot, (h.data hnot).trans hdata⟩
    · exact .inr ⟨Nat.not_lt.mpr hk, hc⟩

variable {c : Pc β}

theorem Knows.congr (h : Knows m s v c)
    (hb : ∀ b d pos, c = .rw b d pos → Leaves b s s' v v') : Knows m s' v' c := by
  cases c with
  | out => exact trivial
  | intr pos => exact trivial
  | rw b d pos =>
    have hl := hb b d pos rfl
    cases pos with
    | acquire | append | walk =>
      simpa only [Knows, Buf.Synced, hl.valid, hl.dirty, hl.todo] using h
    | start | test | asleep | relock => exact hl.called h
    | release k =>
      refine ⟨hl.called h.1, ?_⟩
      simpa only [Buf.Synced, hl.valid, hl.dirty] using h.2

theorem woken_iff [DecidableEq β] {P : Pc β → Prop}
    (h : ∀ b d k w w', P (.rw b d (.asleep k w)) ↔ P (.rw b d (.asleep k w'))) :
    P (woken b c) ↔ P c := by
  cases c with
  | out => exact Iff.rfl
  | intr pos => exact Iff.rfl
  | rw b' d pos =>
    cases pos with
    | asleep k w => exact h ..
    | acquire | append | walk | start | test | relock | release => exact Iff.rfl

theorem woken_eq_rw [DecidableEq β] {b' : β} {pos : Rw β}
    (h : woken b c = .rw b' d pos) : ∃ pos', c = .rw b' d pos' := by
  cases c with
  | out => cases h
  | intr pos => cases h
  | rw c' d' pos' => cases pos' <;> cases h <;> exact ⟨_, rfl⟩

theorem woken_rw [DecidableEq β] (b b' : β) (d : Bool) (pos : Rw β) :
    ∃ pos', woken b (.rw b' d pos) = .rw b' d pos' := by
  cases pos <;> exact ⟨_, rfl⟩

variable {l : List β}

/-- The first request that is not done has the number of those that are. -/
theorem Core.asked_head (h : Core m s v) (htodo : v.todo = b :: l) :
    s.asked[s.done.length]? = some (b, (s.buf b).request) := by
  rw [h.asked, htodo, List.getElem?_append_right (Nat.le_refl _)]
  simp

theorem Core.asked_todo (h : Core m s v) {r : Request δ} (hk : s.done.length ≤ k)
    (hasked : s.asked[k]? = some (b, r)) : v.todo[k - s.done.length]? = some b := by
  rw [h.asked, List.getElem?_append_right hk, List.getElem?_map, Option.map_eq_some_iff] at hasked
  obtain ⟨c, hc, heq⟩ := hasked
  cases heq
  exact hc

theorem Core.first (h : Core m s v) (htodo : v.todo = b :: l)
    (hc : Called m s v b d k) : k = s.done.length := by
  have hb : b ∈ v.todo := htodo ▸ mem_cons_self
  obtain ⟨r, hasked, -, ⟨-, -, hnot, -⟩ | ⟨hk, -, -⟩⟩ := hc
  · exact absurd hb hnot
  have hpos := h.asked_todo hk hasked
  have hzero : v.todo[0]? = some b := by rw [htodo]; rfl
  have hlt := (List.getElem?_eq_some_iff.mp hzero).1
  have heq := (List.getElem?_inj hlt h.nodup).mp (hzero.trans hpos.symm)
  omega

/-! ### The disk -/

theorem Free.congr (h : Free s v) (hdrive : s'.drive = s.drive)
    (hfl : ∀ q, InFlight (s'.pc q) ↔ InFlight (s.pc q)) : Free s' v :=
  ⟨h.hand, h.moved, h.executed, hdrive ▸ h.ready, fun q hq => h.noIntr q ((hfl q).mp hq)⟩

theorem InHand.congr {x : Bool} (h : InHand s v b x) (hdrive : s'.drive = s.drive)
    (hfl : ∀ q, InFlight (s'.pc q) ↔ InFlight (s.pc q)) : InHand s' v b x :=
  ⟨h.hand, h.moved, h.executed, hdrive ▸ h.ready, fun q hq => h.noIntr q ((hfl q).mp hq)⟩

theorem Rest.congr (h : Rest s v) (hdrive : s'.drive = s.drive)
    (hfl : ∀ q, InFlight (s'.pc q) ↔ InFlight (s.pc q))
    (hbuf : ∀ b ∈ v.queue, s'.buf b = s.buf b) : Rest s' v := by
  rcases h with ⟨hq, hfree⟩ | ⟨b, hrun⟩
  · exact .inl ⟨hq, hfree.congr hdrive hfl⟩
  · have hb := hbuf b (mem_of_head? hrun.head)
    refine .inr ⟨b, hrun.hand, hrun.head, ?_, hb ▸ hrun.block, hb ▸ hrun.moved, ?_, ?_, ?_⟩
    · rw [hdrive, hb]
      exact hrun.ports
    · rw [hdrive, hb]
      exact hrun.busy
    · rw [Fetched, hdrive, hb]
      exact hrun.finished
    · rw [hdrive]
      simpa only [hfl] using hrun.intr

theorem Holding.imp (h : Holding s v c) (hqueue : v'.queue = v.queue)
    (hrest : Rest s v → Rest s' v') (hfree : Free s v → Free s' v')
    (hhand : ∀ {b x}, InHand s v b x → InHand s' v' b x ∧ s'.drive = s.drive)
    (hbuf : ∀ b, v.hand = [b] → s'.buf b = s.buf b) (hnext : s'.qnext = s.qnext) :
    Holding s' v' c := by
  cases c with
  | out => exact h
  | rw b d pos =>
    cases pos with
    | acquire | asleep | relock => exact h
    | append | test | release => exact hrest h
    | walk pp =>
      rw [Holding, hqueue, hnext]
      exact ⟨hrest h.1, h.2⟩
    | start k =>
      rw [Holding, hqueue]
      exact Or.imp (And.imp_right hfree) (And.imp_right hrest) h
  | intr pos =>
    cases pos with
    | acquire => exact h
    | pop | release => exact hrest h
    | read b =>
      rw [Holding, Fetched, hbuf b h.1.hand, (hhand h.1).2]
      exact ⟨(hhand h.1).1, h.2⟩
    | finish b =>
      rw [Holding, hbuf b h.1.hand, (hhand h.1).2]
      exact ⟨(hhand h.1).1, h.2⟩
    | next => exact hfree h

theorem Holding.congr (h : Holding s v c) (hdrive : s'.drive = s.drive)
    (hfl : ∀ q, InFlight (s'.pc q) ↔ InFlight (s.pc q)) (hnext : s'.qnext = s.qnext)
    (hbuf : ∀ b ∈ v.todo, s'.buf b = s.buf b) : Holding s' v c :=
  h.imp rfl (fun hr => hr.congr hdrive hfl fun b hb => hbuf b (mem_append_right _ hb))
    (fun hf => hf.congr hdrive hfl) (fun hh => ⟨hh.congr hdrive hfl, hdrive⟩)
    (fun b hb => hbuf b (by simp [View.todo, hb])) hnext

theorem Holding.hasLock (h : Holding s v c) : HasLock c := by
  cases c with
  | out => exact h
  | rw b d pos =>
    cases pos with
    | acquire | asleep | relock => exact h
    | append | walk | start | test | release => exact trivial
  | intr pos =>
    cases pos with
    | acquire => exact h
    | pop | read | finish | next | release => exact trivial

theorem Rest.running (h : Rest s v) (hbusy : s.drive.status ≠ .ready) : ∃ b, Running s v b := by
  rcases h with ⟨-, hfree⟩ | hrun
  · exact absurd hfree.ready hbusy
  · exact hrun

/-- If the disk is at work, it is on the first request of the queue. -/
theorem Phase.running (h : Phase s v) (hbusy : s.drive.status ≠ .ready) : ∃ b, Running s v b := by
  rw [Phase] at h
  split at h
  case h_1 => exact h.running hbusy
  case h_2 p _ =>
    generalize s.pc p = c at h
    cases c with
    | out => exact absurd h id
    | rw b d pos =>
      cases pos with
      | acquire | asleep | relock => exact absurd h id
      | append | test | release => exact Rest.running h hbusy
      | walk pp => exact h.1.running hbusy
      | start k =>
        rcases h with ⟨-, hfree⟩ | ⟨-, hrest⟩
        · exact absurd hfree.ready hbusy
        · exact hrest.running hbusy
    | intr pos =>
      cases pos with
      | acquire => exact absurd h id
      | pop | release => exact Rest.running h hbusy
      | read | finish => exact absurd h.1.ready hbusy
      | next => exact absurd h.ready hbusy

theorem Rest.le_todo (h : Rest s v) :
    v.moved.toNat ≤ v.todo.length ∧ v.executed.toNat ≤ v.todo.length := by
  rcases h with ⟨-, hfree⟩ | ⟨b, hrun⟩
  · rw [hfree.moved, hfree.executed]
    exact ⟨Nat.zero_le _, Nat.zero_le _⟩
  · have hpos := length_pos_of_mem (mem_of_head? hrun.head)
    rw [hrun.todo]
    exact ⟨Nat.le_trans (Bool.toNat_le _) hpos, Nat.le_trans (Bool.toNat_le _) hpos⟩

/-- **A step that leaves the lock alone**, and the process that has it. -/
theorem Inv.phase_of_other (h : Inv m s v) (hpc : ∀ {q}, HasLock (s.pc q) → s'.pc q = s.pc q)
    (hlock : s'.lock = s.lock) (hrest : Rest s v → Rest s' v')
    (hholding : ∀ c, Holding s v c → Holding s' v' c) : Phase s' v' := by
  have hphase := h.phase
  rw [Phase] at hphase ⊢
  rw [hlock]
  cases hown : s.lock with
  | none =>
    rw [hown] at hphase
    exact hrest hphase
  | some q =>
    rw [hown] at hphase
    dsimp only
    rw [hpc hphase.hasLock]
    exact hholding _ hphase

theorem Inv.holding (h : Inv m s v) (hpc : s.pc p = c) (hp : HasLock c) :
    s.lock = some p ∧ Holding s v c := by
  have hlock := h.lock p (hpc ▸ hp)
  have hphase := h.phase
  rw [Phase, hlock] at hphase
  exact ⟨hlock, hpc ▸ hphase⟩

variable {o : Option ι}

theorem lock_other (hlock : s.lock = some p) (q : ι) (hq : q ≠ p)
    (hl : s.lock = some q) : o = some q :=
  absurd (Option.some.inj (hlock.symm.trans hl)).symm hq

theorem phase_of_holding (hlock : s'.lock = some p) (hpc : s'.pc p = c)
    (h : Holding s' v c) : Phase s' v := by
  rw [Phase, hlock]
  dsimp only
  rw [hpc]
  exact h

/-- **The disk executes the first request.** -/
theorem Running.complete (h : Running s v b) (hbusy : s.drive.status = .busy) :
    s.drive.complete.media = (s.buf b).request.exec s.drive.media ∧
      Fetched { s with drive := s.drive.complete } b := by
  obtain ⟨hsector, hdisk, hcommand⟩ := ports_spec h.block
  cases hd : (s.buf b).dirty with
  | true =>
    rw [Drive.complete, h.ports, if_pos (hcommand.mpr hd), hsector, hdisk, (h.busy hbusy).2 hd]
    refine ⟨?_, fun hclean => absurd (hd.symm.trans hclean) Bool.true_eq_false.mp⟩
    simp [Buf.request, Request.exec, hd]
  | false =>
    rw [hd] at hcommand
    rw [Fetched, Drive.complete, h.ports, if_neg fun h => Bool.false_ne_true (hcommand.mp h),
      hsector, hdisk]
    exact ⟨by simp [Buf.request, Request.exec, hd], fun _ => rfl⟩

theorem Request.result_exec (r : Request δ) : r.result (r.exec m) = r.result m := by
  cases hr : r.data <;> simp [Request.result, Request.exec, hr]

theorem execAll_append_singleton (l : List (β × Request δ)) (r : β × Request δ) :
    execAll m (l ++ [r]) = r.2.exec (execAll m l) := by
  simp [execAll]

theorem Inv.complete (h : Inv m s v) (hbusy : s.drive.status = .busy) :
    Inv m { s with drive := s.drive.complete } { v with executed := true } := by
  have hne : s.drive.status ≠ .ready := by rw [hbusy]; exact fun heq => by cases heq
  have hraised : s.drive.complete.status = .raised := by
    rw [Drive.complete]
    split_ifs <;> rfl
  have hports : s.drive.complete.ports = s.drive.ports := by
    rw [Drive.complete]
    split_ifs <;> rfl
  have hrest :
      Rest s v → Rest { s with drive := s.drive.complete } { v with executed := true } := by
    rintro (⟨-, hfree⟩ | ⟨b, hrun⟩)
    · exact absurd hfree.ready hne
    · refine .inr ⟨b, hrun.hand, hrun.head, hports.trans hrun.ports, hrun.block, hrun.moved,
        fun hb => ?_, fun _ => ⟨rfl, (hrun.complete hbusy).2⟩, .inl ⟨?_, ?_⟩⟩
      · rw [hraised] at hb
        cases hb
      · dsimp only
        rw [hraised]
        exact fun heq => by cases heq
      · rcases hrun.intr with ⟨-, hno⟩ | ⟨hready, -⟩
        · exact hno
        · exact absurd hready hne
  obtain ⟨b, hrun⟩ := h.phase.running hne
  obtain ⟨l, hqueue⟩ : ∃ l, v.queue = b :: l := List.head?_eq_some_iff.mp hrun.head
  have htodo : v.todo = b :: l := hrun.todo.trans hqueue
  have hmedia : s.drive.complete.media = execAll m (s.done ++ [(b, (s.buf b).request)]) := by
    rw [execAll_append_singleton, (hrun.complete hbusy).1, h.media, (hrun.busy hbusy).1]
    simp
  refine ⟨⟨h.chain, h.nodup, h.asked, h.sent, ?_, h.lock, fun q => (h.knows q).congr ?_, h.called,
    h.alone⟩, ?_⟩
  · change s.drive.complete.media = execAll m (s.done ++ (v.todo.take 1).map _)
    rw [hmedia, htodo]
    rfl
  · exact fun c _ _ _ => ⟨prefix_rfl, fun _ _ _ => Iff.rfl, fun _ => rfl, rfl, rfl, Iff.rfl⟩
  · exact h.phase_of_other (fun _ => rfl) rfl hrest fun c hc =>
      hc.imp rfl hrest (fun hf => absurd hf.ready hne) (fun hh => absurd hh.ready hne)
        (fun _ _ => rfl) rfl

/-! ### Requests -/

theorem idestart_ok (hs : s.idestart b = .ok s') : (s.buf b).blockno < fssize ∧ ∃ x,
    ((s.buf b).dirty = true → x = (s.buf b).data) ∧ s' = { s with
      drive := { s.drive with status := .busy, ports := ports (s.buf b), buffer := x }
      sent := s.sent ++ if (s.buf b).dirty then [(b, (s.buf b).request)] else [] } := by
  rw [idestart] at hs
  split_ifs at hs with hblock hbusy hd
  · exact ⟨Nat.not_le.mp hblock, _, fun _ => rfl, (ok.inj hs).symm.trans (by rw [if_pos hd])⟩
  · exact ⟨Nat.not_le.mp hblock, s.drive.buffer, fun h => absurd h hd,
      (ok.inj hs).symm.trans (by rw [if_neg hd, append_nil])⟩

/-- **The first request is started**, and the disk has it. -/
theorem Core.start (h : Core m s v) (hfree : Free s v) (hqueue : v.queue = b :: l)
    (hs : s.idestart b = .ok s') : Core m s' { v with moved := (s.buf b).dirty } ∧
      Running s' { v with moved := (s.buf b).dirty } b := by
  obtain ⟨hblock, x, hx, rfl⟩ := idestart_ok hs
  refine ⟨⟨h.chain, h.nodup, h.asked, ?_, h.media, h.lock, fun q => ?_, h.called, h.alone⟩,
    hfree.hand, congrArg List.head? hqueue, rfl, hblock, rfl, fun _ => ⟨hfree.executed, hx⟩,
    fun hbusy => absurd rfl hbusy, .inl ⟨(fun heq => by cases heq), hfree.noIntr⟩⟩
  · have htodo : View.todo { v with moved := (s.buf b).dirty } = b :: l := hfree.todo.trans hqueue
    dsimp only
    rw [htodo, h.sent, hfree.moved]
    cases hd : (s.buf b).dirty <;> simp
  · exact (h.knows q).congr fun c _ _ _ => ⟨prefix_rfl, fun _ _ _ => Iff.rfl, fun _ => rfl, rfl,
      rfl, Iff.rfl⟩

/-- **The first request is taken from the queue.** -/
theorem Core.pop (h : Core m s v) (hhand : v.hand = []) (hqueue : v.queue = b :: l) :
    Core m { s with idequeue := s.qnext b } { v with hand := [b], queue := l } := by
  have htodo : View.todo { v with hand := [b], queue := l } = v.todo := by
    simp only [View.todo, hhand, hqueue]
    rfl
  refine ⟨?_, htodo ▸ h.nodup, htodo ▸ h.asked, htodo ▸ h.sent, htodo ▸ h.media, h.lock,
    fun q => ?_, htodo ▸ h.called, h.alone⟩
  · have hchain := h.chain
    rw [hqueue] at hchain
    exact hchain.2
  · exact (h.knows q).congr fun c _ _ _ =>
      ⟨prefix_rfl, fun _ _ _ => Iff.rfl, fun _ => rfl, rfl, rfl, by rw [htodo]⟩

/-- Walking over the queue, the pointer leads to what is left of it. -/
theorem Core.deref (h : Core m s v) {l l' : List β} (hq : v.queue = l ++ l') :
    s.deref l.getLast? = l'.head? := by
  have hchain := h.chain
  rw [hq] at hchain
  rcases eq_nil_or_concat l with rfl | ⟨l, a, rfl⟩
  · exact hchain.head
  · rw [concat_eq_append, append_assoc] at hchain
    rw [concat_eq_append, List.getLast?_concat]
    exact hchain.after.head

section

variable [DecidableEq β]

theorem Core.clearNext (h : Core m s v) (hb : b ∉ v.todo) :
    Core m { s with qnext := update s.qnext b none } v := by
  refine ⟨h.chain.congr fun c hc => update_of_ne ?_ .., h.nodup, h.asked, h.sent, h.media, h.lock,
    h.knows, h.called, h.alone⟩
  rintro rfl
  exact hb (mem_append_right _ hc)

theorem chain_assign (h : Chain s.qnext s.idequeue l) (hnodup : l.Nodup) (hb : b ∉ l)
    (hnext : s.qnext b = none) :
    Chain (s.assign b l.getLast?).qnext (s.assign b l.getLast?).idequeue (l ++ [b]) := by
  rcases eq_nil_or_concat l with rfl | ⟨l, a, rfl⟩
  · exact ⟨rfl, hnext⟩
  · rw [concat_eq_append] at *
    rw [List.getLast?_concat, append_assoc]
    have ha : a ∉ l := fun hmem =>
      (nodup_append.mp hnodup).2.2 a hmem a (mem_singleton_self a) rfl
    refine h.snoc ha (fun heq => hb ?_) hnext
    rw [heq]
    exact mem_append_right _ (mem_singleton_self a)

/-- **The data of a request to read is transferred.** -/
theorem Core.insl (h : Core m s v) (hhand : v.hand = [b]) (hmoved : v.moved = false)
    (hd : (s.buf b).dirty = false) (x : δ) :
    Core m { s.setBuf b { s.buf b with data := x } with sent := s.sent ++ [(b, (s.buf b).request)] }
      { v with moved := true } := by
  have hsame :
      ∀ c, ((s.setBuf b { s.buf b with data := x }).buf c).request = (s.buf c).request := by
    intro c
    by_cases hc : c = b
    · simp [setBuf, Buf.request, hc, hd]
    · simp [setBuf, hc]
  have hflags : ∀ c, ((s.setBuf b { s.buf b with data := x }).buf c).valid = (s.buf c).valid ∧
      ((s.setBuf b { s.buf b with data := x }).buf c).dirty = (s.buf c).dirty := by
    intro c
    by_cases hc : c = b
    · simp [setBuf, hc]
    · simp [setBuf, hc]
  refine ⟨h.chain, h.nodup, ?_, ?_, ?_, h.lock, fun q => ?_, h.called, h.alone⟩
  · simp only [hsame]
    exact h.asked
  · simp only [hsame]
    rw [h.sent, hmoved]
    simp [View.todo, hhand, setBuf]
  · simp only [hsame]
    exact h.media
  · refine (h.knows q).congr fun c _ _ _ =>
      ⟨prefix_rfl, fun _ _ _ => Iff.rfl, fun hc => ?_, (hflags c).1, (hflags c).2, Iff.rfl⟩
    have hcb : c ≠ b := by
      rintro rfl
      exact hc (by simp [View.todo, hhand])
    exact congrArg Buf.data (update_of_ne hcb ..)

/-- **The request in hand is done.** Its caller finds the buffer in order. -/
theorem Core.finish (h : Core m s v) (hhand : v.hand = [b]) (hmoved : v.moved = true)
    (hexec : v.executed = true) (hdata : (s.buf b).data = (s.buf b).request.result s.drive.media) :
    Core m (s.finish b) { v with hand := [], moved := false, executed := false } := by
  have htodo : v.todo = b :: v.queue := by rw [View.todo, hhand]; rfl
  have htodo' : View.todo { v with hand := [], moved := false, executed := false } = v.queue := rfl
  have hnodup := h.nodup
  rw [htodo, nodup_cons] at hnodup
  have hself : (s.finish b).buf b = { s.buf b with valid := true, dirty := false } :=
    update_self ..
  have hne : ∀ c, c ≠ b → (s.finish b).buf c = s.buf c := fun c hc => update_of_ne hc ..
  have hmap : v.queue.map (fun c => (c, ((s.finish b).buf c).request)) =
      v.queue.map fun c => (c, (s.buf c).request) := by
    refine map_congr_left fun c hc => ?_
    rw [hne c]
    rintro rfl
    exact hnodup.1 hc
  have hmedia : s.drive.media = execAll m (s.done ++ [(b, (s.buf b).request)]) := by
    rw [h.media, hexec, htodo]
    rfl
  refine ⟨h.chain, ?_, ?_, ?_, ?_, h.lock, fun q => ?_, fun c hc => h.called c ?_, h.alone⟩
  · exact hnodup.2
  · rw [htodo', hmap]
    change s.asked = _
    rw [h.asked, htodo]
    simp [State.finish]
  · change s.sent = _
    rw [h.sent, hmoved, htodo]
    simp [State.finish]
  · change s.drive.media = _
    simp [hmedia, State.finish]
  · -- the call with the buffer, and other calls
    have hfirst := h.asked_head htodo
    have hknows := h.knows q
    by_cases hq : ∃ d pos, s.pc q = .rw b d pos
    · obtain ⟨d, pos, hq⟩ := hq
      change Knows m _ _ (s.pc q)
      have hb : b ∈ v.todo := htodo ▸ mem_cons_self
      have hsynced : ((s.finish b).buf b).Synced := by rw [hself]; exact ⟨rfl, rfl⟩
      have hcalled : ∀ k, Called m s v b d k → Called m (s.finish b)
          { v with hand := [], moved := false, executed := false } b d k := fun k hc => by
        obtain rfl := h.first htodo hc
        obtain ⟨r, hasked, hd, -⟩ := hc
        obtain ⟨-, rfl⟩ := Prod.mk.inj (Option.some.inj (hfirst.symm.trans hasked))
        refine ⟨_, hasked, hd, .inl ⟨?_, hsynced, hnodup.1, ?_⟩⟩
        · simp [State.finish]
        · rw [hself]
          change (s.buf b).data = Request.result _ (execAll m (s.asked.take s.done.length))
          rw [hdata, hmedia, execAll_append_singleton, Request.result_exec, h.asked, take_left]
      rw [hq] at hknows ⊢
      cases pos with
      | acquire | append | walk => exact absurd hb hknows.1
      | start | test | asleep | relock => exact hcalled _ hknows
      | release k => exact ⟨hcalled k hknows.1, hsynced⟩
    · refine hknows.congr fun c d pos hc => ?_
      have hcb : c ≠ b := by
        rintro rfl
        exact hq ⟨d, pos, hc⟩
      refine ⟨prefix_rfl, fun k r hk => ?_, fun _ => ?_, ?_, ?_, ?_⟩
      · have hne' : k ≠ s.done.length := by
          rintro rfl
          rw [hfirst] at hk
          exact hcb (congrArg Prod.fst (Option.some.inj hk)).symm
        simp only [State.finish, length_append, length_singleton]
        omega
      · rw [hne c hcb]
      · rw [hne c hcb]
      · rw [hne c hcb]
      · rw [htodo, htodo', mem_cons, or_iff_right hcb]
  · rw [htodo]
    exact mem_cons_of_mem _ hc

theorem Core.wakeup (h : Core m s v) : Core m (s.wakeup b) v := by
  refine ⟨h.chain, h.nodup, h.asked, h.sent, h.media, fun q hq => ?_, fun q => ?_, fun c hc => ?_,
    fun q q' c d d' pos pos' hq hq' => ?_⟩
  · exact h.lock q ((woken_iff fun _ _ _ _ _ => Iff.rfl).mp hq)
  · exact (woken_iff fun _ _ _ _ _ => Iff.rfl).mpr (h.knows q)
  · obtain ⟨q, d, pos, hq⟩ := h.called c hc
    obtain ⟨pos', hpos'⟩ := woken_rw b c d pos
    exact ⟨q, d, pos', (congrArg (woken b) hq).trans hpos'⟩
  · obtain ⟨pos, hq⟩ := woken_eq_rw hq
    obtain ⟨pos', hq'⟩ := woken_eq_rw hq'
    exact h.alone q q' c d d' pos pos' hq hq'

theorem Inv.touch (h : Inv m s v) (hb : ¬InCall s b) (x : Buf δ) : Inv m (s.setBuf b x) v := by
  have htodo : ∀ c ∈ v.todo, (s.setBuf b x).buf c = s.buf c := fun c hc => by
    refine update_of_ne ?_ ..
    rintro rfl
    exact hb (h.called c hc)
  have hmap : ∀ l : List β, l ⊆ v.todo → l.map (fun c => (c, ((s.setBuf b x).buf c).request)) =
      l.map fun c => (c, (s.buf c).request) := fun l hl =>
    map_congr_left fun c hc => by rw [htodo c (hl hc)]
  refine ⟨⟨h.chain, h.nodup, ?_, ?_, ?_, h.lock, fun q => ?_, h.called, h.alone⟩, ?_⟩
  · rw [hmap _ (List.Subset.refl _)]
    exact h.asked
  · rw [hmap _ (take_subset _ _)]
    exact h.sent
  · rw [hmap _ (take_subset _ _)]
    exact h.media
  · refine (h.knows q).congr fun c d pos hc => ?_
    have hcb : c ≠ b := by
      rintro rfl
      exact hb ⟨q, d, pos, hc⟩
    have hsame : (s.setBuf b x).buf c = s.buf c := update_of_ne hcb ..
    exact ⟨prefix_rfl, fun _ _ _ => Iff.rfl, fun _ => by rw [hsame], by rw [hsame], by rw [hsame],
      Iff.rfl⟩
  · refine h.phase_of_other (fun _ => rfl) rfl (fun hr => ?_) fun c hc => ?_
    · exact Rest.congr hr rfl (fun _ => Iff.rfl) fun c hc => htodo c (mem_append_right _ hc)
    · exact Holding.congr hc rfl (fun _ => Iff.rfl) rfl htodo

end

/-! ### Steps -/

variable [DecidableEq ι]

theorem Core.step (h : Core m s v) (hpc : s'.pc = update s.pc p c)
    (hchain : Chain s'.qnext s'.idequeue v'.queue) (hnodup : v'.todo.Nodup)
    (hasked : s'.asked = s'.done ++ v'.todo.map fun b => (b, (s'.buf b).request))
    (hsent : s'.sent = s'.done ++ (v'.todo.take v'.moved.toNat).map fun b =>
      (b, (s'.buf b).request))
    (hmedia : s'.drive.media = execAll m (s'.done ++
      (v'.todo.take v'.executed.toNat).map fun b => (b, (s'.buf b).request)))
    (hlock : HasLock c → s'.lock = some p)
    (hother : ∀ q, q ≠ p → s.lock = some q → s'.lock = some q)
    (hself : Knows m s' v' c) (hknows : ∀ q, q ≠ p → Knows m s' v' (s.pc q))
    (hcalled : ∀ b ∈ v'.todo, b ∈ v.todo ∨ ∃ d pos, c = .rw b d pos)
    (hstay : ∀ b d pos, s.pc p = .rw b d pos → (∃ d' pos', c = .rw b d' pos') ∨ b ∉ v'.todo)
    (halone : ∀ b d pos, c = .rw b d pos → ∀ q, q ≠ p → ∀ d' pos', s.pc q ≠ .rw b d' pos') :
    Core m s' v' := by
  have hp : s'.pc p = c := by rw [hpc, update_self]
  have hne : ∀ q, q ≠ p → s'.pc q = s.pc q := fun q hq => by rw [hpc, update_of_ne hq]
  refine ⟨hchain, hnodup, hasked, hsent, hmedia, fun q hq => ?_, fun q => ?_, fun b hb => ?_,
    fun q q' b d d' pos pos' hq hq' => ?_⟩
  · by_cases hqp : q = p
    · subst hqp
      exact hlock (hp ▸ hq)
    · exact hother q hqp (h.lock q (hne q hqp ▸ hq))
  · by_cases hqp : q = p
    · subst hqp
      exact hp.symm ▸ hself
    · exact (hne q hqp).symm ▸ hknows q hqp
  · rcases hcalled b hb with hold | ⟨d, pos, hc⟩
    · obtain ⟨q, d, pos, hq⟩ := h.called b hold
      by_cases hqp : q = p
      · subst hqp
        rcases hstay b d pos hq with ⟨d', pos', hc⟩ | hnot
        · exact ⟨q, d', pos', hp.trans hc⟩
        · exact absurd hb hnot
      · exact ⟨q, d, pos, (hne q hqp).trans hq⟩
    · exact ⟨p, d, pos, hp.trans hc⟩
  · by_cases hqp : q = p <;> by_cases hqp' : q' = p
    · rw [hqp, hqp']
    · subst hqp
      exact absurd ((hne q' hqp').symm.trans hq') (halone b d pos (hp.symm.trans hq) q' hqp' _ _)
    · subst hqp'
      exact absurd ((hne q hqp).symm.trans hq) (halone b d' pos' (hp.symm.trans hq') q hqp _ _)
    · exact h.alone q q' b d d' pos pos' ((hne q hqp).symm.trans hq) ((hne q' hqp').symm.trans hq')

theorem Core.setPc (h : Core m s v) (hlock : HasLock c → o = some p)
    (hother : ∀ q, q ≠ p → s.lock = some q → o = some q) (hknows : Knows m s v c)
    (hstay : ∀ b d pos, s.pc p = .rw b d pos → (∃ d' pos', c = .rw b d' pos') ∨ b ∉ v.todo)
    (halone : ∀ b d pos, c = .rw b d pos → ∀ q, q ≠ p → ∀ d' pos', s.pc q ≠ .rw b d' pos') :
    Core m { s.setPc p c with lock := o } v :=
  h.step rfl h.chain h.nodup h.asked h.sent h.media hlock hother hknows (fun q _ => h.knows q)
    (fun _ hb => .inl hb) hstay halone

theorem Core.move (h : Core m s v) {pos pos' : Rw β} {d' : Bool}
    (hpc : s.pc p = .rw b d pos) (hlock : HasLock (.rw b d' pos') → o = some p)
    (hother : ∀ q, q ≠ p → s.lock = some q → o = some q) (hknows : Knows m s v (.rw b d' pos')) :
    Core m { s.setPc p (.rw b d' pos') with lock := o } v := by
  refine h.setPc hlock hother hknows (fun b' d' pos hc => ?_) fun b' d' pos hc q hq d'' pos'' hq' =>
    ?_
  · rw [hpc] at hc
    cases hc
    exact .inl ⟨_, _, rfl⟩
  · cases hc
    exact hq (h.alone q p _ _ _ _ _ hq' hpc)

theorem Core.moveIntr (h : Core m s v)
    (hpc : ∀ b d pos, s.pc p ≠ .rw b d pos) (hc : ∀ b d pos, c ≠ .rw b d pos)
    (hlock : HasLock c → o = some p) (hother : ∀ q, q ≠ p → s.lock = some q → o = some q) :
    Core m { s.setPc p c with lock := o } v := by
  refine h.setPc hlock hother ?_ (fun b d pos hp => absurd hp (hpc b d pos)) fun b d pos hp =>
    absurd hp (hc b d pos)
  cases c with
  | out => exact trivial
  | intr pos => exact trivial
  | rw b d pos => exact absurd rfl (hc b d pos)

variable {c c' : Pc β}

theorem inFlight_setPc (hpc : s.pc p = c) (hc : InFlight c' ↔ InFlight c) (q : ι) :
    InFlight ((s.setPc p c').pc q) ↔ InFlight (s.pc q) := by
  by_cases hq : q = p
  · subst hq
    rw [setPc_self, hpc]
    exact hc
  · rw [setPc_of_ne _ hq]

theorem pc_of_hasLock (hp : ¬HasLock (s.pc p)) {q : ι} (hq : HasLock (s.pc q)) :
    (s.setPc p c).pc q = s.pc q := by
  refine setPc_of_ne _ ?_ c
  rintro rfl
  exact hp hq

theorem Inv.phase_setPc (h : Inv m s v) (hpc : s.pc p = c) (hno : ¬HasLock c)
    (hc : InFlight c' ↔ InFlight c) : Phase (s.setPc p c') v := by
  have hfl := inFlight_setPc hpc hc
  refine h.phase_of_other (pc_of_hasLock (hpc ▸ hno)) rfl (fun hr => ?_) fun c hc => ?_
  · exact hr.congr rfl hfl fun _ _ => rfl
  · exact hc.congr rfl hfl rfl fun _ _ => rfl

theorem Inv.acquire (h : Inv m s v) (hpc : s.pc p = c') (hs : s.acquire p c = .ok s')
    (hc : InFlight c ↔ InFlight c') (hrest : ∀ t : State ι β δ, Rest t v → Holding t v c)
    (hcore : ∀ {o : Option ι}, (HasLock c → o = some p) →
      (∀ q, q ≠ p → s.lock = some q → o = some q) → Core m { s.setPc p c with lock := o } v) :
    Inv m s' v := by
  rw [State.acquire] at hs
  split_ifs at hs with hlock
  obtain rfl := ok.inj hs
  have hphase := h.phase
  rw [Phase, hlock] at hphase
  refine ⟨hcore (fun _ => rfl) fun q _ hq => ?_, ?_⟩
  · rw [hlock] at hq
    cases hq
  · change Holding _ v ((s.setPc p c).pc p)
    rw [setPc_self]
    exact hrest _ (Rest.congr hphase rfl (inFlight_setPc hpc hc) fun _ _ => rfl)

theorem Core.keep (h : Core m s v) {pos pos' : Rw β} (hpc : s.pc p = .rw b d pos)
    (hlock : s.lock = some p) (hknows : Knows m s v (.rw b d pos'))
    (hhold : Holding (s.setPc p (.rw b d pos')) v (.rw b d pos')) :
    Inv m (s.setPc p (.rw b d pos')) v :=
  ⟨h.move hpc (fun _ => hlock) (fun _ _ => id) hknows, phase_of_holding hlock (setPc_self ..) hhold⟩

theorem Core.keepIntr (h : Core m s v) {pos : Intr β} (hpc : ∀ b d pos, s.pc p ≠ .rw b d pos)
    (hlock : s.lock = some p) (hhold : Holding (s.setPc p (.intr pos)) v (.intr pos)) :
    Inv m (s.setPc p (.intr pos)) v :=
  ⟨h.moveIntr hpc (fun _ _ _ heq => by cases heq) (fun _ => hlock) (fun _ _ => id),
    phase_of_holding hlock (setPc_self ..) hhold⟩

variable {havedisk1 : Bool}

theorem Inv.call (h : Inv m s v) (hb : ¬InCall s b) (hpc : s.pc p = .out)
    (hs : s.call havedisk1 p b = .ok s') : Inv m s' v := by
  rw [State.call] at hs
  split_ifs at hs with hbusy hsync hdev
  obtain rfl := ok.inj hs
  refine ⟨h.toCore.setPc (o := s.lock) (fun hl => absurd hl id) (fun _ _ => id)
    ⟨fun hmem => hb (h.called b hmem), rfl, fun hsy => hsync ⟨hsy.1, by simp [hsy.2]⟩⟩
    (fun c d pos hp => ?_) fun c d pos hc q hq d' pos' hq' => ?_, h.phase_setPc hpc id Iff.rfl⟩
  · rw [hpc] at hp
    cases hp
  · cases hc
    exact hb ⟨q, d', pos', hq'⟩

theorem Inv.intr (h : Inv m s v) (hpc : s.pc p = .out) (hraised : s.drive.status = .raised) :
    Inv m { s.setPc p (.intr .acquire) with drive := { s.drive with status := .ready } } v := by
  have hne : s.drive.status ≠ .ready := by rw [hraised]; exact fun heq => by cases heq
  have hrest : Rest s v →
      Rest { s.setPc p (.intr .acquire) with drive := { s.drive with status := .ready } } v := by
    rintro (⟨-, hfree⟩ | ⟨b, hrun⟩)
    · exact absurd hfree.ready hne
    · refine .inr ⟨b, hrun.hand, hrun.head, hrun.ports, hrun.block, hrun.moved,
        (fun hb => by cases hb),
        fun _ => hrun.finished (by rw [hraised]; exact fun heq => by cases heq),
        .inr ⟨rfl, p, fun q => ?_⟩⟩
      have hno : ∀ q, ¬InFlight (s.pc q) := by
        rcases hrun.intr with ⟨-, hno⟩ | ⟨hready, -⟩
        · exact hno
        · exact absurd hready hne
      by_cases hq : q = p
      · subst hq
        simp [setPc, InFlight]
      · simp [setPc, hq, hno q]
  have hcore : Core m (s.setPc p (.intr .acquire)) v :=
    h.toCore.moveIntr (o := s.lock) (fun b d pos hp => by rw [hpc] at hp; cases hp)
      (fun _ _ _ heq => by cases heq) (fun hl => absurd hl id) (fun _ _ => id)
  refine ⟨⟨hcore.chain, hcore.nodup, hcore.asked, hcore.sent, hcore.media, hcore.lock, hcore.knows,
    hcore.called, hcore.alone⟩, ?_⟩
  exact h.phase_of_other (pc_of_hasLock (by rw [hpc]; exact id)) rfl hrest fun c hc =>
    hc.imp rfl hrest (fun hf => absurd hf.ready hne) (fun hh => absurd hh.ready hne)
      (fun _ _ => rfl) rfl

variable [DecidableEq β]

/-- **A request is appended.** -/
theorem Core.link (h : Core m s v) {pp : Option β} (hpc : s.pc p = .rw b d (.walk pp))
    (hlock : s.lock = some p) (hpp : pp = v.queue.getLast?) (hnext : s.qnext b = none)
    (hrest : Rest s v) : Core m { (s.assign b pp).setPc p (.rw b d (.start s.asked.length)) with
        asked := s.asked ++ [(b, (s.buf b).request)] } { v with queue := v.queue ++ [b] } := by
  have hknows := h.knows p
  rw [hpc] at hknows
  obtain ⟨hb, hd, hsync⟩ := hknows
  have hqueue : b ∉ v.queue := fun hmem => hb (mem_append_right _ hmem)
  have htodo : View.todo { v with queue := v.queue ++ [b] } = v.todo ++ [b] :=
    (append_assoc ..).symm
  have hlen : s.done.length ≤ s.asked.length := by
    rw [h.asked, length_append]
    exact Nat.le_add_right ..
  refine h.step (p := p) (c := .rw b d (.start s.asked.length)) ?_ ?_ ?_ ?_ ?_ ?_
    (fun _ => ?_) ?_ ?_ (fun q hq => ?_) (fun c hc => ?_) ?_ ?_
  · simp [State.setPc]
  · rw [hpp]
    exact chain_assign h.chain (nodup_append.mp h.nodup).2.1 hqueue hnext
  · rw [htodo]
    exact nodup_append.mpr ⟨h.nodup, nodup_singleton b, fun x hx y hy => by
      rw [mem_singleton.mp hy]
      rintro rfl
      exact hb hx⟩
  · simp [htodo, h.asked, State.setPc]
  · simp only [htodo, State.setPc, State.assign_buf, State.assign_done, State.assign_sent]
    rw [take_append_of_le_length hrest.le_todo.1]
    exact h.sent
  · simp only [htodo, State.setPc, State.assign_buf, State.assign_done, State.assign_drive]
    rw [take_append_of_le_length hrest.le_todo.2]
    exact h.media
  · simpa [State.setPc] using hlock
  · simp [State.setPc]
  · refine ⟨_, List.getElem?_concat_length, ?_, .inr ⟨?_, ?_, ?_⟩⟩
    · cases d <;> simp [Buf.request, hd]
    · simpa [State.setPc] using hlen
    · simpa [State.setPc] using hsync
    · simp [htodo]
  · -- another process is in a call with another buffer
    refine (h.knows q).congr fun c d' pos hc =>
      ⟨prefix_append .., fun k _ _ => ?_, fun _ => ?_, ?_, ?_, ?_⟩
    · simp [State.setPc]
    · simp [State.setPc]
    · simp [State.setPc]
    · simp [State.setPc]
    · have hcb : c ≠ b := by
        rintro rfl
        exact hq (h.alone q p _ _ _ _ _ hc hpc)
      simp [htodo, hcb]
  · rw [htodo, mem_append, mem_singleton] at hc
    rcases hc with hc | rfl
    · exact .inl hc
    · exact .inr ⟨_, _, rfl⟩
  · intro b' d' pos hp
    rw [hpc] at hp
    cases hp
    exact .inl ⟨_, _, rfl⟩
  · intro b' d' pos hc q hq d'' pos' hq'
    cases hc
    exact hq (h.alone q p _ _ _ _ _ hq' hpc)

/-- The end of the loop over the queue: the request is the first one, or the disk is on another. -/
theorem Inv.link (h : Inv m s v) {pp : Option β} (hpc : s.pc p = .rw b d (.walk pp))
    (hlock : s.lock = some p) (hpp : pp = v.queue.getLast?) (hnext : s.qnext b = none)
    (hrest : Rest s v) : Inv m { (s.assign b pp).setPc p (.rw b d (.start s.asked.length)) with
        asked := s.asked ++ [(b, (s.buf b).request)] } { v with queue := v.queue ++ [b] } := by
  have hb : b ∉ v.todo := by
    have hknows := h.knows p
    rw [hpc] at hknows
    exact hknows.1
  refine ⟨h.toCore.link hpc hlock hpp hnext hrest,
    phase_of_holding (p := p) (by simpa [setPc] using hlock) (setPc_self ..) ?_⟩
  have hfl : ∀ q, InFlight (((s.assign b pp).setPc p
      (.rw b d (.start s.asked.length))).pc q) ↔ InFlight (s.pc q) := fun q => by
    rw [← inFlight_setPc hpc (Iff.refl (InFlight (.rw b d (.start s.asked.length)))) q,
      setPc, setPc, assign_pc]
  rcases hrest with ⟨hempty, hfree⟩ | ⟨c, hrun⟩
  · refine .inl ⟨by rw [hempty]; rfl, hfree.hand, hfree.moved, hfree.executed, ?_, fun q hq => ?_⟩
    · simpa [setPc] using hfree.ready
    · exact hfree.noIntr q ((hfl q).mp hq)
  · have hc := mem_of_head? hrun.head
    have hhead : (v.queue ++ [b]).head? = some c := by
      rw [List.head?_append, hrun.head]
      rfl
    refine .inr ⟨?_, .inr ⟨c, hrun.hand, hhead, ?_, ?_, ?_, ?_, ?_, ?_⟩⟩
    · rw [hhead]
      intro heq
      rw [Option.some.inj heq] at hc
      exact hb (mem_append_right _ hc)
    · simpa [setPc] using hrun.ports
    · simpa [setPc] using hrun.block
    · simpa [setPc] using hrun.moved
    · simpa [setPc] using hrun.busy
    · simpa [Fetched, setPc] using hrun.finished
    · have hintr := hrun.intr
      simp only [← hfl] at hintr
      simpa only [setPc, assign_drive] using hintr

theorem Inv.start (h : Inv m s v) (hpc : s.pc p = .rw b d (.start k))
    (hs : s.iderw p b d (.start k) = .ok s') : ∃ v', Inv m s' v' := by
  have hknows := h.knows p
  rw [hpc] at hknows
  obtain ⟨hlock, hhold⟩ := h.holding hpc trivial
  have hhead := h.chain.head
  have hfl := inFlight_setPc hpc (Iff.refl (InFlight (.rw b d (.test k))))
  rw [State.iderw] at hs
  split_ifs at hs with hfirst
  · rcases hhold with ⟨hq, hfree⟩ | ⟨hne, -⟩
    · obtain ⟨t, ht, rfl⟩ := Runs.of_map_ok hs
      obtain ⟨hcore, hrun⟩ := h.toCore.start hfree hq ht
      obtain ⟨-, x, -, rfl⟩ := idestart_ok ht
      exact ⟨_, hcore.keep hpc hlock hknows (Rest.congr (.inr ⟨b, hrun⟩) rfl hfl fun _ _ => rfl)⟩
    · exact absurd (hhead.symm.trans hfirst) hne
  · obtain rfl := ok.inj hs
    rcases hhold with ⟨hq, -⟩ | ⟨-, hrest⟩
    · rw [hq] at hhead
      exact absurd hhead hfirst
    · exact ⟨v, h.toCore.keep hpc hlock hknows (Rest.congr hrest rfl hfl fun _ _ => rfl)⟩

omit [DecidableEq β] in
/-- The call returns. Its request is done, so that no request is left without a call. -/
theorem Inv.leave (h : Inv m s v) (hpc : s.pc p = .rw b d (.release k)) :
    Inv m (s.release p .out) v := by
  obtain ⟨hlock, hrest⟩ := h.holding hpc trivial
  have hknows := h.knows p
  rw [hpc] at hknows
  obtain ⟨⟨r, -, -, hdone⟩, hsync⟩ := hknows
  have hnot : b ∉ v.todo := by
    rcases hdone with ⟨-, -, hnot, -⟩ | ⟨-, hnot, -⟩
    · exact hnot
    · exact absurd hsync hnot
  refine ⟨h.toCore.setPc (fun hl => absurd hl id) (lock_other hlock) trivial
    (fun b' d' pos hp => ?_) (fun _ _ _ hc => by cases hc),
    Rest.congr hrest rfl (inFlight_setPc hpc Iff.rfl) fun _ _ => rfl⟩
  rw [hpc] at hp
  cases hp
  exact .inr hnot

/-- **A step of `iderw`.** -/
theorem Inv.iderw (h : Inv m s v) {pos : Rw β} (hpc : s.pc p = .rw b d pos)
    (hs : s.iderw p b d pos = .ok s') : ∃ v', Inv m s' v' := by
  have hknows := h.knows p
  rw [hpc] at hknows
  have hfl : ∀ pos' q, InFlight ((s.setPc p (.rw b d pos')).pc q) ↔ InFlight (s.pc q) :=
    fun pos' => inFlight_setPc hpc Iff.rfl
  cases pos with
  | acquire =>
    refine ⟨v, h.acquire hpc hs Iff.rfl (fun _ => id) fun hl ho => ?_⟩
    exact h.toCore.move hpc hl ho hknows
  | append =>
    obtain ⟨hlock, hrest⟩ := h.holding hpc trivial
    obtain rfl := ok.inj hs
    refine ⟨v, (h.toCore.clearNext hknows.1).keep hpc hlock hknows ⟨?_, ?_, [], v.queue, rfl, rfl⟩⟩
    · exact Rest.congr hrest rfl (hfl _) fun _ _ => rfl
    · exact update_self ..
  | walk pp =>
    obtain ⟨hlock, hhold⟩ := h.holding hpc trivial
    obtain ⟨hrest, hnext, l, l', hq, rfl⟩ := hhold
    rw [State.iderw, h.deref hq] at hs
    cases l' with
    | cons x l' =>
      obtain rfl := ok.inj hs
      refine ⟨v, h.toCore.keep hpc hlock hknows ⟨?_, hnext, l ++ [x], l', ?_, ?_⟩⟩
      · exact Rest.congr hrest rfl (hfl _) fun _ _ => rfl
      · rw [hq, append_assoc]
        rfl
      · exact List.getLast?_concat.symm
    | nil =>
      obtain rfl := ok.inj hs
      rw [append_nil] at hq
      exact ⟨_, h.link hpc hlock (by rw [hq]) hnext hrest⟩
  | start k => exact h.start hpc hs
  | test k =>
    obtain ⟨hlock, hrest⟩ := h.holding hpc trivial
    rw [State.iderw] at hs
    split_ifs at hs with hsync
    · obtain rfl := ok.inj hs
      have hsync' : (s.buf b).Synced := ⟨hsync.1, by simpa using hsync.2⟩
      exact ⟨v, h.toCore.keep hpc hlock ⟨hknows, hsync'⟩
        (Rest.congr hrest rfl (hfl _) fun _ _ => rfl)⟩
    · obtain rfl := ok.inj hs
      exact ⟨v, h.toCore.move hpc (fun hl => absurd hl id) (lock_other hlock) hknows,
        Rest.congr hrest rfl (hfl _) fun _ _ => rfl⟩
  | asleep k w =>
    rw [State.iderw] at hs
    split_ifs at hs with hw
    obtain rfl := ok.inj hs
    exact ⟨v, h.toCore.move hpc (fun hl => absurd hl id) (fun _ _ => id) hknows,
      h.phase_setPc hpc id Iff.rfl⟩
  | relock k =>
    refine ⟨v, h.acquire hpc hs Iff.rfl (fun _ => id) fun hl ho => ?_⟩
    exact h.toCore.move hpc hl ho hknows
  | release k =>
    obtain rfl := ok.inj hs
    exact ⟨v, h.leave hpc⟩

/-- **A step of the interrupt handler.** -/
theorem Inv.ideintr (h : Inv m s v) {pos : Intr β} (hpc : s.pc p = .intr pos)
    (hs : s.ideintr p pos = .ok s') : ∃ v', Inv m s' v' := by
  have hnot : ∀ b d pos, s.pc p ≠ .rw b d pos := fun b d pos' heq => by
    rw [hpc] at heq
    cases heq
  cases pos with
  | acquire =>
    refine ⟨v, h.acquire hpc hs Iff.rfl (fun _ => id) fun hl ho => ?_⟩
    exact h.toCore.moveIntr hnot (fun _ _ _ heq => by cases heq) hl ho
  | pop =>
    obtain ⟨hlock, hrest⟩ := h.holding hpc trivial
    have hflight : InFlight (s.pc p) := by rw [hpc]; exact trivial
    -- the interrupt is that of the first request
    obtain ⟨b, hrun⟩ : ∃ b, Running s v b := by
      rcases hrest with ⟨-, hfree⟩ | hrun
      · exact absurd hflight (hfree.noIntr p)
      · exact hrun
    obtain ⟨hready, q, hq⟩ : s.drive.status = .ready ∧ ∃ q, ∀ q', InFlight (s.pc q') ↔ q' = q := by
      rcases hrun.intr with ⟨-, hno⟩ | hq
      · exact absurd hflight (hno p)
      · exact hq
    obtain rfl := (hq p).mp hflight
    obtain ⟨l, hqueue⟩ : ∃ l, v.queue = b :: l := List.head?_eq_some_iff.mp hrun.head
    have hfirst : s.idequeue = some b := h.chain.head.trans hrun.head
    simp only [State.ideintr, hfirst] at hs
    obtain rfl := ok.inj hs
    obtain ⟨hexec, hfetched⟩ := hrun.finished (by rw [hready]; exact fun heq => by cases heq)
    refine ⟨_, (h.toCore.pop hrun.hand hqueue).keepIntr hnot hlock
      ⟨⟨rfl, hrun.moved, hexec, hready, fun q' hq' => ?_⟩, hfetched⟩⟩
    by_cases heq : q' = p
    · subst heq
      exact absurd hq' (by simp [setPc, InFlight])
    · have : InFlight (s.pc q') := by simpa [setPc, heq] using hq'
      exact heq ((hq q').mp this)
  | read b =>
    obtain ⟨hlock, hhand, hfetched⟩ := h.holding hpc trivial
    have hfl := inFlight_setPc (s := s) hpc (Iff.refl (InFlight (.intr (.finish b))))
    rw [State.ideintr] at hs
    split_ifs at hs with hd hbusy
    · obtain rfl := ok.inj hs
      have hmoved : InHand s v b true := by
        rw [← hd]
        exact hhand
      refine ⟨v, h.toCore.keepIntr hnot hlock ⟨hmoved.congr rfl hfl, ?_⟩⟩
      simp [Buf.request, Request.result, State.setPc, hd]
    · obtain rfl := ok.inj hs
      have hclean : (s.buf b).dirty = false := by simpa using hd
      have hcore := h.toCore.insl hhand.hand (hhand.moved.trans hclean) hclean s.drive.buffer
      refine ⟨_, hcore.keepIntr hnot hlock ⟨⟨hhand.hand, rfl, hhand.executed, hhand.ready,
        fun q hq => hhand.noIntr q ((hfl q).mp hq)⟩, ?_⟩⟩
      simpa [Buf.request, Request.result, State.setPc, setBuf, hclean] using hfetched hclean
  | finish b =>
    obtain ⟨hlock, hhand, hdata⟩ := h.holding hpc trivial
    obtain rfl := ok.inj hs
    have hcore := (h.toCore.finish hhand.hand hhand.moved hhand.executed hdata).wakeup (b := b)
    refine ⟨_, hcore.keepIntr (p := p) (fun c d pos heq => ?_) hlock
      ⟨rfl, rfl, rfl, hhand.ready, fun q hq => ?_⟩⟩
    · obtain ⟨pos', hpos'⟩ := woken_eq_rw heq
      exact hnot _ _ _ hpos'
    · refine hhand.noIntr q ?_
      have hfl := inFlight_setPc (s := (s.finish b).wakeup b)
        (congrArg (woken b) hpc) (Iff.refl (InFlight (.intr .next)))
      exact (woken_iff fun _ _ _ _ _ => Iff.rfl).mp ((hfl q).mp hq)
  | next =>
    obtain ⟨hlock, hhold⟩ := h.holding hpc trivial
    have hfree : Free s v := hhold
    have hfl := inFlight_setPc hpc (Iff.refl (InFlight (.intr .release)))
    have hhead := h.chain.head
    rw [State.ideintr] at hs
    split at hs
    case h_1 hnone =>
      obtain rfl := ok.inj hs
      have hempty : v.queue = [] := List.head?_eq_none_iff.mp (hhead.symm.trans hnone)
      exact ⟨v, h.toCore.keepIntr hnot hlock (.inl ⟨hempty, hfree.congr rfl hfl⟩)⟩
    case h_2 b hsome =>
      obtain ⟨t, ht, rfl⟩ := Runs.of_map_ok hs
      have hfirst : v.queue.head? = some b := hhead.symm.trans hsome
      obtain ⟨l, hqueue⟩ : ∃ l, v.queue = b :: l := List.head?_eq_some_iff.mp hfirst
      obtain ⟨hcore, hrun⟩ := h.toCore.start hfree hqueue ht
      obtain ⟨-, x, -, rfl⟩ := idestart_ok ht
      exact ⟨_, hcore.keepIntr hnot hlock (Rest.congr (.inr ⟨b, hrun⟩) rfl hfl fun _ _ => rfl)⟩
  | release =>
    obtain ⟨hlock, hrest⟩ := h.holding hpc trivial
    obtain rfl := ok.inj hs
    exact ⟨v, h.toCore.moveIntr hnot (fun _ _ _ heq => by cases heq) (fun hl => absurd hl id)
      (lock_other hlock), Rest.congr hrest rfl (inFlight_setPc hpc Iff.rfl) fun _ _ => rfl⟩

/-- **One step keeps the invariant.** -/
theorem Inv.step (h : Inv m s v) {act : Act ι β δ} (hact : Allowed s act)
    (hs : s.step havedisk1 act = .ok s') : ∃ v', Inv m s' v' := by
  cases act with
  | call p b =>
    rw [State.step] at hs
    split_ifs at hs with hpc
    exact ⟨v, h.call hact hpc hs⟩
  | go p =>
    rw [State.step] at hs
    split at hs
    case h_1 => cases hs
    case h_2 b d pos hpc => exact h.iderw hpc hs
    case h_3 pos hpc => exact h.ideintr hpc hs
  | complete =>
    rw [State.step] at hs
    split_ifs at hs with hbusy
    obtain rfl := ok.inj hs
    exact ⟨_, h.complete hbusy⟩
  | intr p =>
    rw [State.step] at hs
    split_ifs at hs with hguard
    obtain rfl := ok.inj hs
    exact ⟨v, h.intr hguard.1 hguard.2⟩
  | kill p =>
    rw [State.step] at hs
    split at hs
    case h_1 b d k w hpc =>
      obtain rfl := ok.inj hs
      have hknows := h.knows p
      rw [hpc] at hknows
      exact ⟨v, h.toCore.move (o := s.lock) hpc (fun hl => absurd hl id) (fun _ _ => id) hknows,
        h.phase_setPc hpc id Iff.rfl⟩
    case h_2 =>
      obtain rfl := ok.inj hs
      exact ⟨v, h⟩
  | touch b x =>
    obtain rfl := ok.inj hs
    exact ⟨v, h.touch hact x⟩

variable {media : ℕ → ℕ → δ}

theorem Reach.inv (h : Reach havedisk1 media s) : ∃ v, Inv media s v := by
  induction h with
  | init buf qnext ports buffer =>
    refine ⟨⟨[], [], false, false⟩, ⟨rfl, nodup_nil, rfl, rfl, rfl, fun _ hl => absurd hl id,
      fun _ => trivial, fun b hb => absurd hb not_mem_nil,
      fun _ _ _ _ _ _ _ hp => by cases hp⟩, ?_⟩
    exact .inl ⟨rfl, rfl, rfl, rfl, rfl, fun _ => id⟩
  | step _ act hact hs ih =>
    obtain ⟨v, hv⟩ := ih
    exact hv.step hact hs

omit [DecidableEq ι] [DecidableEq β] in
theorem Core.executed (h : Core m s v) : ∃ n, s.done.length ≤ n ∧ n ≤ s.done.length + 1 ∧
    s.drive.media = execAll m (s.asked.take n) := by
  refine ⟨s.done.length + v.executed.toNat, Nat.le_add_right .., ?_, ?_⟩
  · exact Nat.add_le_add_left (Bool.toNat_le _) _
  · rw [h.media, h.asked, take_length_add_append, List.map_take]

/-- **Requests complete once and in order.** The queue is a list without repetitions. If the disk is
at work, it is on the first request of the queue; whenever `idelock` is free, the last command of
the disk is that of the first request, and what has been asked for is what is done and what is in
the queue. Transfers are made in the order of the requests, one for each and in the direction that
the request had, and requests complete in this order. The disks hold what the requests leave there
that are done, executed one after the other, and perhaps the next one. When `iderw` is about to
return, its own request has been transferred and is done, the buffer is valid and not dirty, and it
has the data that was to be written, or those of the block after the requests before. -/
theorem requests_in_order {havedisk1 : Bool} (h : Reach havedisk1 media s) :
    (∃ q, Chain s.qnext s.idequeue q ∧ q.Nodup ∧
      (s.drive.status ≠ .ready →
        ∃ b, q.head? = some b ∧ s.drive.ports = ports (s.buf b)) ∧
      (s.lock = none → s.asked = s.done ++ q.map (fun b => (b, (s.buf b).request)) ∧
        (∀ b, q.head? = some b → s.drive.ports = ports (s.buf b)) ∧
        (q = [] → s.drive.status = .ready))) ∧
    s.done <+: s.sent ∧ s.sent <+: s.asked ∧
    (∃ n, s.done.length ≤ n ∧ n ≤ s.done.length + 1 ∧
      s.drive.media = execAll media (s.asked.take n)) ∧
    ∀ p b d k, s.pc p = .rw b d (.release k) →
      (s.buf b).valid = true ∧ (s.buf b).dirty = false ∧ ∃ r, r.data.isSome = d ∧
        s.asked[k]? = some (b, r) ∧ s.sent[k]? = some (b, r) ∧ s.done[k]? = some (b, r) ∧
        (s.buf b).data = r.result (execAll media (s.asked.take k)) := by
  obtain ⟨v, hv⟩ := h.inv
  have hsent : s.done <+: s.sent := hv.sent ▸ prefix_append ..
  refine ⟨⟨v.queue, hv.chain, (nodup_append.mp hv.nodup).2.1, fun hbusy => ?_, fun hlock => ?_⟩,
    hsent, ?_, hv.executed, fun p b d k hpc => ?_⟩
  · obtain ⟨b, hrun⟩ := hv.phase.running hbusy
    exact ⟨b, hrun.head, hrun.ports⟩
  · have hphase := hv.phase
    rw [Phase, hlock] at hphase
    rcases hphase with ⟨hempty, hfree⟩ | ⟨b, hrun⟩
    · refine ⟨?_, fun b hb => ?_, fun _ => hfree.ready⟩
      · rw [← hfree.todo]
        exact hv.asked
      · rw [hempty] at hb
        cases hb
    · refine ⟨?_, fun c hc => ?_, fun hempty => ?_⟩
      · rw [← hrun.todo]
        exact hv.asked
      · rw [← Option.some.inj (hrun.head.symm.trans hc)]
        exact hrun.ports
      · have hhead := hrun.head
        rw [hempty] at hhead
        cases hhead
  · rw [hv.asked, hv.sent]
    exact (prefix_append_right_inj _).mpr (IsPrefix.map _ <| take_prefix _ _)
  · have hknows := hv.knows p
    rw [hpc] at hknows
    obtain ⟨⟨r, hk, hd, hdone⟩, hsync⟩ := hknows
    obtain ⟨hlt, hdata⟩ : k < s.done.length ∧
        (s.buf b).data = r.result (execAll media (s.asked.take k)) := by
      rcases hdone with ⟨hlt, -, -, hdata⟩ | ⟨-, hnot, -⟩
      · exact ⟨hlt, hdata⟩
      · exact absurd hsync hnot
    have hsome : s.done[k]? = some (b, r) := by
      rw [hv.asked, List.getElem?_append_left hlt] at hk
      exact hk
    refine ⟨hsync.1, hsync.2, r, hd, hk, ?_, hsome, hdata⟩
    rw [hv.sent, List.getElem?_append_left hlt]
    exact hsome

theorem Reach.goes (h : Reach havedisk1 media s) (ps : List ι)
    (hs : Runs.run (fun s p => State.step s havedisk1 (.go p)) ps s = .ok s') :
    Reach havedisk1 media s' :=
  Runs.run_induct (fun _ p _ h hs => h.step (.go p) trivial hs) h hs

end

/-- One process writes a block from buffer 5, and another one reads the same block into buffer 6.
The interrupts are handled by a third one. -/
theorem requests_in_order_twoCalls : ∃ s : State (Fin 3) ℕ ℕ, Reach true (fun _ _ => 0) s ∧
    s.pc 1 = .rw 6 false (.release 1) ∧ s.done = [(5, ⟨0, 17, some 5⟩), (6, ⟨0, 17, none⟩)] ∧
    s.drive.media 0 17 = 5 ∧ (s.buf 6).valid = true ∧ (s.buf 6).data = 5 := by
  have h₀ : Reach true (fun _ _ => 0) (⟨none, none, fun _ => none,
      fun b => ⟨true, false, b == 5, 0, 17, b⟩, ⟨.ready, ⟨0, 0, 0, 0, 0, 0⟩, 0, fun _ _ => 0⟩,
      fun _ => .out, [], [], []⟩ : State (Fin 3) ℕ ℕ) :=
    .init _ _ _ _
  -- both requests are appended, the first one is started, and the processes sleep
  have h₁ := h₀.step (.call 0 5) (by rintro ⟨_, _, _, hp⟩; cases hp) rfl
  have h₂ := h₁.goes [0, 0, 0, 0, 0] rfl
  have h₃ := h₂.step (.call 1 6) (by rintro ⟨p, _, _, hp⟩; fin_cases p <;> cases hp) rfl
  have h₄ := h₃.goes [1, 1, 1, 1, 1, 1] rfl
  -- the interrupt of the first request, and that of the second one
  have h₅ := (h₄.step .complete trivial rfl).step (.intr 2) trivial rfl
  have h₆ := h₅.goes [2, 2, 2, 2, 2, 2] rfl
  have h₇ := (h₆.step .complete trivial rfl).step (.intr 2) trivial rfl
  have h₈ := h₇.goes [2, 2, 2, 2, 2, 2, 1, 1, 1] rfl
  obtain ⟨-, -, -, -, hret⟩ := requests_in_order h₈
  obtain ⟨hvalid, -, r, -, hasked, -, -, hdata⟩ := hret 1 6 false 1 rfl
  cases hasked
  exact ⟨_, h₈, rfl, rfl, by decide +kernel, hvalid, hdata⟩

end Xv6.Ide
