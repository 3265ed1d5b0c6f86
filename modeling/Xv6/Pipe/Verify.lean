import Xv6.Pipe.Invariant

/-!
# The functions of `pipe.c` keep the invariant

For each function, what a process has to know to call it and what it knows afterwards.

## Main results

* `sleep_wp`, `wakeup_wp` — sleeping needs a reason; nobody sleeps on `chan` after `wakeup(chan)`
* `pipewrite_wp`, `piperead_wp`, `pipeclose_wp`, `kill_wp`
* `code_wp` — what processes do
-/

namespace Xv6.Pipe

open Concurrent Function

variable {ι : Type} [DecidableEq ι] {strict : Prop} {p : ι} {l : Local}

/-- What process `p` does keeps the invariant. -/
abbrev Does (strict : Prop) (p : ι) {α : Type} (m : Code ι α) (Q : α → Local → Prop) (l : Local) :
    Prop :=
  Wp (Inv strict) (contract strict) p m Q l

/-- The locks that a process holds. -/
def only (pipe ptable : Bool) : Lock → Bool
  | .pipe => pipe
  | .ptable => ptable

theorem update_only_pipe (a b c : Bool) : update (only a b) .pipe c = only c b := by
  funext k
  cases k <;> simp [only]

/-! ### Steps -/

theorem holding_wp {β : Type} {k : Lock} {f : State ι → β × State ι} {Q : β → Local → Prop}
    (hl : l.holds k = true) (hok : ∀ g s, Inv strict g s → g p = l → (strict → Heard s (f s).2) →
      ∃ l', Inv strict (update g p l') (f s).2 ∧ Q (f s).1 l') :
    Does strict p (holding p k f) Q l := by
  have hlock : ∀ g s, Inv strict g s → g p = l → s.lock k = some p := fun g s hI hg =>
    ((hI.own p).locks k).mpr (by rw [hg, hl])
  refine Wp.step (fun g s e hI hg he => ?_) fun g s b s' hI hg hs' hrel => ?_
  · rw [if_neg (by simp [hlock g s hI hg])] at he
    cases he
  · rw [if_neg (by simp [hlock g s hI hg])] at hs'
    obtain ⟨rfl, rfl⟩ := Prod.mk.inj (Except.ok.inj (Option.some.inj hs'))
    exact ⟨trivial, hok g s hI hg hrel⟩

variable {Q : Unit → Local → Prop}

theorem acquire_step {k : Lock} (hl : l.holds k = false)
    (hok : ∀ g s, Inv strict g s → g p = l → s.lock k = none →
      ∃ l', Inv strict (update g p l') (s.setLock k (some p)) ∧ Q () l') :
    Does strict p (acquire p k) Q l := by
  have hlock : ∀ g s, Inv strict g s → g p = l → s.lock k ≠ some p := by
    intro g s hI hg hs
    have hk := ((hI.own p).locks k).mp hs
    rw [hg, hl] at hk
    cases hk
  refine Wp.step (fun g s e hI hg he => ?_) fun g s b s' hI hg hs' _ => ?_
  · rw [if_neg (hlock g s hI hg)] at he
    split_ifs at he
    cases he
  · rw [if_neg (hlock g s hI hg)] at hs'
    split_ifs at hs' with hfree
    cases hs'
    exact ⟨trivial, hok g s hI hg (by simpa using hfree)⟩

theorem acquire_pipe {b : Bool} (hl : l.holds = only false b)
    (hQ : Q () { l with holds := only true b }) : Does strict p (acquire p .pipe) Q l := by
  refine acquire_step (by rw [hl]; rfl) fun g s hI hg hfree =>
    ⟨_, hI.acquire hfree (by rw [hg, hl]; rfl), ?_⟩
  rw [hg, hl, update_only_pipe]
  exact hQ

theorem Inv.acquire_ptable {g : ι → Local} {s : State ι} {a b : Bool} (h : Inv strict g s)
    (hfree : s.lock .ptable = none) (hl : (g p).holds = only a b) :
    Inv strict (update g p { g p with holds := only a true }) (s.setLock .ptable (some p)) := by
  refine h.relock ⟨rfl, rfl, rfl, rfl, rfl, rfl⟩ rfl rfl rfl rfl
    (setLock_of_ne s (k := .ptable) (by decide) _) (fun q hq => ?_)
    (by simp [only]) ⟨by simp [hl, only], rfl, rfl, rfl⟩ fun hs => ?_
  · simp [hfree, hq.symm]
  · refine (h.wakes hs).same ⟨rfl, rfl, rfl, rfl, rfl, rfl⟩ (fun _ => .inl rfl) fun hp _ =>
      ⟨?_, rfl⟩
    rwa [hl] at hp

theorem acquire_ptable {a : Bool} (hl : l.holds = only a false)
    (hQ : Q () { l with holds := only a true }) : Does strict p (acquire p .ptable) Q l := by
  refine acquire_step (by rw [hl]; rfl) fun g s hI hg hfree =>
    ⟨_, hI.acquire_ptable (a := a) (b := false) hfree (by rw [hg, hl]), ?_⟩
  rw [hg]
  exact hQ

theorem release_ptable {a : Bool} (hl : l.holds = only a true)
    (hQ : Q () { l with holds := only a false }) : Does strict p (release p .ptable) Q l := by
  refine holding_wp (by rw [hl]; rfl) fun g s hI hg _ => ⟨{ l with holds := only a false }, ?_, hQ⟩
  subst hg
  have hlock : s.lock .ptable = some p := ((hI.own p).locks .ptable).mpr (by rw [hl]; rfl)
  refine hI.relock ⟨rfl, rfl, rfl, rfl, rfl, rfl⟩ rfl rfl rfl rfl
    (setLock_of_ne s (k := .ptable) (by decide) _) (fun q hq => ?_)
    (by simp [only]) ⟨by simp [hl, only], rfl, rfl, rfl⟩ fun hs => ?_
  · simp [hlock, hq.symm]
  · refine (hI.wakes hs).same ⟨rfl, rfl, rfl, rfl, rfl, rfl⟩ (fun _ => .inl rfl) fun hp _ =>
      ⟨?_, rfl⟩
    rwa [hl] at hp

theorem look_wp {β : Type} {f : State ι → β} {Q : β → Local → Prop} (hl : l.holds .pipe = true)
    (w : β → Know) (hw : ∀ g s, Inv strict g s → g p = l → Knows s (w (f s)))
    (hQ : ∀ b, Q b { l with know := w b }) : Does strict p (Prog.read f) Q l := by
  refine Wp.read (fun _ => trivial) fun g s hI hg =>
    ⟨_, hI.learn (by rw [hg, hl]) (hw g s hI hg), ?_⟩
  rw [hg]
  exact hQ (f s)

/-! ### Sleeping -/

/-- **Nobody sleeps on `chan` after `wakeup(chan)`**, which is all that the process owed. -/
theorem wakeup_wp {chan : Chan} (hl : l.holds = only true false)
    (ho : l.owes = none ∨ l.owes = some chan) (hQ : Q () { l with owes := none }) :
    Does strict p (wakeup p chan) Q l := by
  refine Wp.bind (acquire_ptable hl (Wp.bind (Wp.modify fun g s hI hg _ =>
    ⟨trivial, { l with holds := only true true, owes := none }, ?_, release_ptable rfl ?_⟩)))
  · have hp : (g p).holds .pipe = true := by rw [hg]; rfl
    have hold := hI.own p
    rw [hg] at hold
    refine hI.inside hp rfl (by rw [hg]) rfl rfl le_rfl (fun _ _ => rfl) hold.sent (hold.got rfl)
      hold.knows
      ⟨hI.bytes.queue, hI.bytes.nwrite, hI.bytes.nread, hI.bytes.writes⟩ fun hs q c hq => ?_
    dsimp only at hq
    split_ifs at hq with hc
    rcases hI.waits hs hp hq with hw | howes
    · exact .inl hw
    · rw [hg] at howes
      rcases ho with ho | ho <;> rw [ho] at howes
      · cases howes
      · exact absurd (hq.trans howes.symm) hc
  · rw [← hl]
    exact hQ

/-- **Sleeping needs a reason**, and the process must not owe anything. -/
theorem sleep_wp {chan : Chan} (hl : l.holds = only true false)
    (hk : l.know = .waits chan) (ho : l.owes = none) (hgot : l.got = [])
    (hQ : Q () { l with know := .nothing }) : Does strict p (sleep p chan) Q l := by
  refine Wp.bind (acquire_ptable hl (Wp.bind (holding_wp rfl fun g s hI hg _ =>
    ⟨{ l with holds := only false true, know := .nothing }, ?_, ?_⟩)))
  · have hold := hI.own p
    have hp : (g p).holds .pipe = true := by rw [hg]; rfl
    have hleave := hI.leave s.reads s.writes (update s.asleep p (some chan)) hp
      (by rw [hold.got hp, hg, hgot, List.append_nil, State.returned]) hI.bytes.writes fun hs => ?_
    · rw [hg, update_only_pipe, ← hgot, ← ho] at hleave
      exact hleave
    · refine (forall_update_iff s.asleep fun _ x => ∀ c, x = some c → Waits s c).mpr
        ⟨fun c hc => ?_, fun q _ c hq => ?_⟩
      · cases hc
        have hknows := hold.knows
        rw [hg, hk] at hknows
        exact hknows
      · refine (hI.waits hs hp hq).resolve_right ?_
        rw [hg]
        simp [ho]
  refine Wp.bind (release_ptable rfl (Wp.bind (Wp.step (fun g s e hI hg he => ?_)
    fun g s b s' hI hg hs' _ => ?_)))
  · split_ifs at he
    cases he
  · split_ifs at hs' with hfree
    cases hs'
    rw [not_or, not_not, not_not] at hfree
    refine ⟨trivial, _, hI.acquire_ptable (a := false) (b := false) hfree.2 (by rw [hg]), ?_⟩
    rw [hg]
    refine Wp.bind (release_ptable rfl (acquire_pipe rfl ?_))
    rw [← hl]
    exact hQ

/-! ### Writing -/

variable {fuel : ℕ}

/-- **Waiting for room.** -/
theorem waitRoom_wp {Q : Bool → Local → Prop} (hl : l.holds = only true false)
    (hk : l.know = .nothing) (hgot : l.got = []) (ho : l.owes = none ∨ l.owes = some .nread)
    (htrue : ∀ o, o = none ∨ o = some .nread → Q true { l with know := .room, owes := o })
    (hfalse : ∀ o w, o = none ∨ o = some .nread → Q false { l with know := w, owes := o }) :
    Does strict p (waitRoom p fuel) Q l := by
  induction fuel generalizing l with
  | zero => exact fun g s _ _ => ⟨nofun, nofun⟩
  | succ fuel ih =>
    have hp : l.holds .pipe = true := congrFun hl .pipe
    refine Wp.bind (look_wp hp (fun b => if b then .full else .room) (fun g s _ _ => ?_)
      fun b => ?_)
    · by_cases hf : s.Full
      · rw [decide_eq_true hf]
        exact hf
      · rw [decide_eq_false hf]
        exact hf
    · cases b with
      | false => exact htrue _ ho
      | true =>
        refine Wp.bind (look_wp hp (fun b => if b then .nothing else .waits .nwrite)
          (fun g s hI hg => ?_) fun b => ?_)
        · have hknows := (hI.own p).knows
          rw [hg] at hknows
          cases hr : s.readopen <;> cases hkill : s.killed p <;> simp [Knows]
          exact ⟨hknows, hr⟩
        · cases b with
          | true => exact hfalse _ _ ho
          | false =>
            refine Wp.bind (wakeup_wp hl ho (Wp.bind (sleep_wp hl rfl rfl hgot ?_)))
            exact ih hl rfl hgot (.inl rfl) htrue hfalse

theorem store_wp {b : UInt8} (hl : l.holds .pipe = true) (hk : l.know = .room)
    (ho : l.owes ≠ some .nwrite)
    (hQ : Q () { l with know := .nothing, owes := some .nread, sent := l.sent ++ [b] }) :
    Does strict p (store p b) Q l := by
  refine Wp.modify fun g s hI hg _ => ⟨trivial, _, hI.store (by rw [hg, hl]) (by rw [hg, hk])
    (by rw [hg]; exact ho), ?_⟩
  rw [hg]
  exact hQ

variable {bs : List UInt8}

/-- **The bytes are stored in their order.** -/
theorem writeLoop_wp {Q : Bool → Local → Prop}
    (hl : l.holds = only true false) (hk : l.know = .nothing) (hgot : l.got = [])
    (ho : l.owes = none ∨ l.owes = some .nread)
    (htrue : ∀ o, o = none ∨ o = some .nread → Q true { l with sent := l.sent ++ bs, owes := o })
    (hfalse : ∀ o w x, o = none ∨ o = some .nread →
      Q false { l with know := w, owes := o, sent := x }) :
    Does strict p (writeLoop p fuel bs) Q l := by
  induction bs generalizing l with
  | nil =>
    have h := htrue l.owes ho
    rw [List.append_nil] at h
    exact h
  | cons b bs ih =>
    refine Wp.bind (waitRoom_wp hl hk hgot ho (fun o ho => ?_) fun o w ho => hfalse o w l.sent ho)
    refine Wp.bind (store_wp (by rw [hl]; rfl) rfl (by rcases ho with rfl | rfl <;> simp) ?_)
    refine ih hl rfl hgot (.inr rfl) (fun o ho => ?_) fun o w x ho => hfalse o w x ho
    have h := htrue o ho
    rw [hk] at h
    simpa using h

theorem endWrite_wp {Q : ℤ → Local → Prop} {bytes : List UInt8} {n ret : ℤ}
    (hl : l.holds = only true false) (hgot : l.got = [])
    (hret : ret = n ∧ l.sent = bytes ∧ l.owes = none ∨ ret = -1 ∧ l.owes ≠ some .nwrite)
    (hQ : Q ret { l with holds := only false false, know := .nothing, owes := none }) :
    Does strict p (endWrite p bytes n ret) Q l := by
  refine holding_wp (congrFun hl .pipe) fun g s hI hg hheard => ?_
  subst hg
  have hp : (g p).holds .pipe = true := congrFun hl .pipe
  have hold := hI.own p
  refine ⟨_, hI.leave s.reads _ s.asleep hp ?_ ?_ fun hs q c hq => ?_, ?_⟩
  · rw [hold.got hp, hgot, List.append_nil, State.returned]
  · intro w hw h0
    rcases List.mem_cons.mp hw with rfl | hw
    · rcases hret with ⟨rfl, hsent, -⟩ | ⟨hret, -⟩
      · exact ⟨rfl, hold.sent.trans hsent⟩
      · simp only at h0
        omega
    · exact hI.bytes.writes w hw h0
  · refine (hI.waits hs hp hq).resolve_right fun howes => ?_
    rcases hret with ⟨-, -, hnone⟩ | ⟨rfl, hne⟩
    · rw [hnone] at howes
      cases howes
    · cases c with
      | nread => exact hheard hs (by simp) _ rfl rfl q hq
      | nwrite => exact hne howes
  · rw [hl, update_only_pipe, ← hgot]
    exact hQ

/-- What a process knows that is not in a call. -/
structure Idle (l : Local) : Prop where
  holds : l.holds = only false false
  know : l.know = .nothing
  owes : l.owes = none
  got : l.got = []

theorem start_wp (hl : l.holds .pipe = false) (hQ : Q () { l with sent := [] }) :
    Does strict p (start p) Q l := by
  refine Wp.modify fun g s hI hg _ => ⟨trivial, { l with sent := [] }, ?_, hQ⟩
  subst hg
  have hold := hI.own p
  refine hI.step ⟨hold.locks, hold.plain, hold.knows, ?_, ?_, hold.got⟩ (fun _ _ _ => .rfl)
    (fun q hq => ?_) le_rfl (fun q hq => ?_) (.inr ⟨rfl, rfl, rfl, rfl, rfl, rfl⟩)
    ⟨hI.bytes.queue, hI.bytes.nwrite, hI.bytes.nread, hI.bytes.writes⟩ hI.free fun hs =>
      (hI.wakes hs).same ⟨rfl, rfl, rfl, rfl, rfl, rfl⟩ (fun _ => .inl rfl) fun hp _ => ⟨hp, rfl⟩
  · simp
  · simp [State.sent]
  · exact update_of_ne hq ..
  · simp [State.sent, hq]

/-- **`pipewrite`** returns `n` if it has stored its bytes, and has then woken up who sleeps on
`&p->nread`. -/
theorem pipewrite_wp {Q : ℤ → Local → Prop} {addr : ℕ → UInt8} {n : ℤ} (hl : Idle l)
    (hQ : ∀ r l, Idle l → Q r l) : Does strict p (pipewrite p addr n fuel) Q l := by
  refine Wp.bind (start_wp (congrFun hl.holds .pipe) ?_)
  refine Wp.bind (acquire_pipe hl.holds (Wp.bind (writeLoop_wp rfl hl.know hl.got (.inl hl.owes)
    (fun o ho => ?_) fun o w x ho => ?_)))
  · refine Wp.bind (wakeup_wp rfl ho (endWrite_wp rfl hl.got (.inl ⟨rfl, rfl, rfl⟩) (hQ _ _ ?_)))
    exact ⟨rfl, rfl, rfl, hl.got⟩
  · refine endWrite_wp rfl hl.got (.inr ⟨rfl, ?_⟩) (hQ _ _ ⟨rfl, rfl, rfl, hl.got⟩)
    rcases ho with rfl | rfl <;> simp

/-! ### Reading -/

theorem release_pipe (hl : l.holds = only true false) (ho : l.owes = none)
    (hgot : l.got = []) (hQ : Q () { l with holds := only false false, know := .nothing }) :
    Does strict p (release p .pipe) Q l := by
  refine holding_wp (congrFun hl .pipe) fun g s hI hg _ => ?_
  subst hg
  have hp : (g p).holds .pipe = true := congrFun hl .pipe
  refine ⟨_, hI.leave s.reads s.writes s.asleep hp ?_ hI.bytes.writes fun hs q c hq => ?_, ?_⟩
  · rw [(hI.own p).got hp, hgot, List.append_nil, State.returned]
  · exact (hI.waits hs hp hq).resolve_right (by simp [ho])
  · rw [hl, update_only_pipe, ← hgot, ← ho]
    exact hQ

/-- **Waiting for bytes.** -/
theorem waitData_wp {Q : Bool → Local → Prop} (hl : l.holds = only true false)
    (hk : l.know = .nothing) (hgot : l.got = []) (ho : l.owes = none)
    (hQ : ∀ b w, Q b { l with know := w }) : Does strict p (waitData p fuel) Q l := by
  induction fuel generalizing l with
  | zero => exact fun g s _ _ => ⟨nofun, nofun⟩
  | succ fuel ih =>
    have hp : l.holds .pipe = true := congrFun hl .pipe
    refine Wp.bind (look_wp hp (fun b => if b then .waits .nread else .nothing) (fun g s _ _ => ?_)
      fun b => ?_)
    · by_cases hempty : s.nread = s.nwrite
      · cases hw : s.writeopen
        · simp [Knows]
        · simpa [hempty, Knows, Waits] using hw
      · simp [hempty, Knows]
    · cases b with
      | false => exact hQ _ _
      | true =>
        refine Wp.bind (look_wp hp (fun _ => .waits .nread) (fun g s hI hg => ?_) fun b => ?_)
        · have hknows := (hI.own p).knows
          rw [hg] at hknows
          exact hknows
        · cases b with
          | true => exact hQ _ _
          | false => exact Wp.bind (sleep_wp hl rfl ho hgot (ih hl rfl hgot ho hQ))

theorem take_wp {Q : UInt8 → Local → Prop} (hl : l.holds .pipe = true) (hk : l.know = .data)
    (ho : l.owes ≠ some .nread)
    (hQ : ∀ b, Q b { l with know := .nothing, owes := some .nwrite, got := l.got ++ [b] }) :
    Does strict p take Q l := by
  refine Wp.step (fun g s e _ _ he => by cases he) fun g s b s' hI hg hs' _ => ?_
  cases hs'
  refine ⟨trivial, _, hI.take (by rw [hg, hl]) (by rw [hg, hk]) (by rw [hg]; exact ho), ?_⟩
  rw [hg]
  exact hQ _

/-- **The bytes are copied in their order.** -/
theorem readLoop_wp {Q : List UInt8 → Local → Prop} {n : ℕ}
    (hl : l.holds .pipe = true) (hgot : l.got = bs) (ho : l.owes = none ∨ l.owes = some .nwrite)
    (hQ : ∀ bs o w, o = none ∨ o = some .nwrite → Q bs { l with know := w, owes := o, got := bs }) :
    Does strict p (readLoop n bs) Q l := by
  induction n generalizing l bs with
  | zero =>
    have h := hQ bs l.owes l.know ho
    rw [← hgot] at h ⊢
    exact h
  | succ n ih =>
    refine Wp.bind (look_wp hl (fun b => if b then .nothing else .data) (fun g s _ _ => ?_)
      fun b => ?_)
    · by_cases hempty : s.nread = s.nwrite
      · simp [hempty, Knows]
      · simp [hempty, Knows]
    · cases b with
      | true =>
        have h := hQ bs l.owes .nothing ho
        rw [← hgot] at h ⊢
        exact h
      | false =>
        refine Wp.bind (take_wp hl rfl (by rcases ho with ho | ho <;> simp [ho]) fun b => ?_)
        exact ih hl (by rw [hgot]) (.inr rfl) hQ

/-- **The bytes are returned.** -/
theorem endRead_wp {Q : ℤ → Local → Prop} (hl : l.holds = only true false)
    (ho : l.owes = none) (hgot : l.got = bs)
    (hQ : ∀ r, Q r { l with holds := only false false, know := .nothing, got := [] }) :
    Does strict p (endRead p bs) Q l := by
  refine holding_wp (congrFun hl .pipe) fun g s hI hg _ => ?_
  subst hg
  have hp : (g p).holds .pipe = true := congrFun hl .pipe
  refine ⟨_, hI.leave _ s.writes s.asleep hp ?_ hI.bytes.writes fun hs q c hq => ?_, ?_⟩
  · rw [(hI.own p).got hp, hgot, List.map_append, List.flatten_append]
    simp [State.returned]
  · exact (hI.waits hs hp hq).resolve_right (by simp [ho])
  · rw [hl, update_only_pipe, ← ho]
    exact hQ _

/-- **`piperead`** wakes up who sleeps on `&p->nwrite`, if it has copied something. -/
theorem piperead_wp {Q : ℤ → Local → Prop} {n : ℤ} (hl : Idle l)
    (hQ : ∀ r l, Idle l → Q r l) : Does strict p (piperead p n fuel) Q l := by
  refine Wp.bind
    (acquire_pipe hl.holds (Wp.bind (waitData_wp rfl hl.know hl.got hl.owes fun b w => ?_)))
  cases b with
  | true =>
    refine Wp.bind (readLoop_wp rfl hl.got (.inl hl.owes) fun bs o w ho => ?_)
    refine Wp.bind (wakeup_wp rfl ho (endRead_wp rfl rfl rfl fun r => hQ _ _ ?_))
    exact ⟨rfl, rfl, rfl, rfl⟩
  | false =>
    refine Wp.bind (release_pipe rfl hl.owes hl.got (hQ _ _ ?_))
    exact ⟨rfl, rfl, hl.owes, hl.got⟩

/-! ### Closing and killing -/

/-- **`pipeclose`** wakes up who waits for the end that it closes. -/
theorem pipeclose_wp {writable : Bool} (hl : Idle l)
    (hQ : ∀ l, Idle l → Q () l) : Does strict p (pipeclose p writable) Q l := by
  have hlast : ∀ l : Local, l.holds = only true false → l.owes = none → l.got = [] →
      Does strict p (Prog.read (fun s : State ι => !s.readopen && !s.writeopen) >>= fun last =>
        if last then do
          release p .pipe
          Prog.modify fun s => { s with freed := true }
        else release p .pipe) Q l := by
    intro l hl ho hgot
    refine Wp.bind (look_wp (congrFun hl .pipe) (fun _ => .nothing) (fun _ _ _ _ => trivial)
      fun b => ?_)
    cases b with
    | false =>
      exact release_pipe hl ho hgot (hQ _ ⟨rfl, rfl, ho, hgot⟩)
    | true =>
      refine Wp.bind (release_pipe hl ho hgot (Wp.modify fun g s hI hg _ =>
        ⟨trivial, g p, ?_, hQ _ (hg ▸ ⟨rfl, rfl, ho, hgot⟩)⟩))
      have hold := hI.own p
      refine hI.step ⟨hold.locks, hold.plain, hold.knows, hold.began, hold.sent, hold.got⟩
        (fun _ _ _ => .rfl)
        (fun _ _ => rfl) le_rfl (fun _ _ => rfl) (.inr ⟨rfl, rfl, rfl, rfl, rfl, rfl⟩)
        ⟨hI.bytes.queue, hI.bytes.nwrite, hI.bytes.nread, hI.bytes.writes⟩ hI.free fun hs =>
          (hI.wakes hs).same ⟨rfl, rfl, rfl, rfl, rfl, rfl⟩ (fun _ => .inl rfl) fun hp _ =>
          ⟨hp, rfl⟩
  refine Wp.bind (acquire_pipe hl.holds ?_)
  cases writable with
  | true =>
    refine Wp.bind (Wp.modify fun g s hI hg _ => ⟨trivial, _, hI.close (by rw [hg]; rfl)
      (by rw [hg, ← hl.owes]) (.inl ⟨rfl, rfl⟩), ?_⟩)
    rw [hg]
    exact Wp.bind (wakeup_wp rfl (.inr rfl) (hlast _ rfl rfl hl.got))
  | false =>
    refine Wp.bind (Wp.modify fun g s hI hg _ => ⟨trivial, _, hI.close (by rw [hg]; rfl)
      (by rw [hg, ← hl.owes]) (.inr ⟨rfl, rfl⟩), ?_⟩)
    rw [hg]
    exact Wp.bind (wakeup_wp rfl (.inr rfl) (hlast _ rfl rfl hl.got))

theorem kill_wp {q : ι} (hl : Idle l) (hQ : Q () l) : Does strict p (kill p q) Q l := by
  refine Wp.bind (acquire_ptable hl.holds (Wp.bind (Wp.modify fun g s hI hg _ =>
    ⟨trivial, { l with holds := only false true }, ?_, release_ptable rfl ?_⟩)))
  · have hmine := (hI.own p).locks .ptable
    rw [hg] at hmine
    refine hI.relock ⟨rfl, rfl, rfl, rfl, rfl, rfl⟩ rfl rfl rfl rfl rfl (fun _ _ => .rfl) hmine
      (by rw [hg]; exact ⟨rfl, rfl, rfl, rfl⟩) fun hs =>
      (hI.wakes hs).same ⟨rfl, rfl, rfl, rfl, rfl, rfl⟩ (fun r => ?_) (by rw [hg]; exact nofun)
    by_cases hr : r = q
    · exact .inr (by simp [hr])
    · exact .inl (update_of_ne hr ..)
  · rw [← hl.holds]
    exact hQ

/-- **What processes do keeps the invariant.** -/
theorem code_wp {a : Call ι} (hl : Idle l) : Does strict p (code p a) (fun _ l => Idle l) l := by
  cases a with
  | write addr n fuel => exact Wp.bind (pipewrite_wp hl fun _ _ h => h)
  | read n fuel => exact Wp.bind (piperead_wp hl fun _ _ h => h)
  | close writable => exact pipeclose_wp hl fun _ h => h
  | kill q => exact kill_wp hl hl

end Xv6.Pipe
