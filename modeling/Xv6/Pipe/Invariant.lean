import Xv6.Library.RingBuffer
import Xv6.Pipe.Pipe

/-!
# The invariant of a pipe

What each process knows, and what holds in every state.

A process that holds `p->lock` can know what the counters say. It can also *owe* a call of `wakeup`:
there may be processes that sleep on a counter although what they wait for has happened. Whoever
makes that happen holds the lock, and owes the call from then on.

## Main definitions

* `Local` — what a process knows and owes
* `Inv` — the invariant
* `Heard` — the condition under which no call of `wakeup` is left out

## Main results

* `Inv.relock`, `Inv.store`, `Inv.take`, `Inv.wake`, `Inv.close`, `Inv.doze`, `Inv.leave` — the
  steps
-/

namespace Xv6.Pipe

open RingBuffer Function List

variable {ι : Type} {c : Chan} {q : ι}

/-- What a process knows about the pipe, as long as it holds `p->lock`. -/
inductive Know
  | nothing
  | room
  | full
  | data
  | waits (c : Chan)

/-- What a process knows. -/
structure Local where
  holds : Lock → Bool
  know : Know
  /-- What it has to wake processes up from. -/
  owes : Option Chan
  /-- The bytes that it has copied out in the current call. -/
  got : List UInt8
  /-- The bytes that it has stored in the current call. -/
  sent : List UInt8

/-- There is a reason to sleep on this. -/
def Waits (s : State ι) : Chan → Prop
  | .nread => s.nread = s.nwrite ∧ s.writeopen = true
  | .nwrite => s.Full ∧ s.readopen = true

/-- What it means to know this. -/
def Knows (s : State ι) : Know → Prop
  | .nothing => True
  | .room => ¬s.Full
  | .full => s.Full
  | .data => s.nread ≠ s.nwrite
  | .waits c => Waits s c

/-- The bytes that have been returned by calls of `piperead`. -/
def State.returned (s : State ι) : List UInt8 := (s.reads.map Prod.snd).flatten

/-- How the counters and the array fit what has happened. -/
structure Bytes (s : State ι) : Prop where
  queue : Holds pipesize s.data (s.stored.map Prod.snd) s.taken
  nwrite : s.nwrite.toNat = s.stored.length % 2 ^ 32
  nread : s.nread.toNat = s.taken.length % 2 ^ 32
  writes : ∀ w ∈ s.writes, 0 ≤ w.ret → w.ret = w.n ∧ w.sent = w.bytes

/-! ### What the counters tell -/

section Counters

variable {s : State ι} (h : Bytes s)

include h

theorem Bytes.le :
    s.taken.length ≤ s.stored.length ∧ s.stored.length ≤ s.taken.length + pipesize := by
  have hroom := h.queue.room
  have horder := h.queue.order.length_le
  rw [length_map] at hroom horder
  exact ⟨horder, hroom⟩

theorem Bytes.full_iff : s.Full ↔ s.stored.length = s.taken.length + pipesize := by
  obtain ⟨hle, hroom⟩ := h.le
  rw [State.Full, ← UInt32.toNat_inj, UInt32.toNat_add, h.nwrite, h.nread,
    show (UInt32.ofNat pipesize).toNat = pipesize from rfl]
  exact RingBuffer.full_iff hle hroom (by decide)

theorem Bytes.empty_iff : s.nread = s.nwrite ↔ s.stored.length = s.taken.length := by
  obtain ⟨hle, hroom⟩ := h.le
  rw [← UInt32.toNat_inj, h.nwrite, h.nread]
  exact mod_eq_iff hle (Nat.lt_of_le_of_lt (Nat.sub_le_iff_le_add'.mpr hroom) (by decide))

theorem Bytes.sub_eq : (s.nwrite - s.nread).toNat = s.stored.length - s.taken.length := by
  obtain ⟨hle, hroom⟩ := h.le
  rw [UInt32.toNat_sub, h.nwrite, h.nread]
  exact RingBuffer.sub_eq hle (Nat.lt_of_le_of_lt (Nat.sub_le_iff_le_add'.mpr hroom) (by decide))

/-- **A byte is stored.** -/
theorem Bytes.store {p : ι} {b : UInt8} (hroom : ¬s.Full) :
    Bytes { s with
      data := update s.data (s.nwrite.toNat % pipesize) b
      nwrite := s.nwrite + 1
      stored := s.stored ++ [(p, b)] } where
  queue := by
    have hlt : (s.stored.map Prod.snd).length < s.taken.length + pipesize := by
      rw [h.full_iff] at hroom
      have := h.le.2
      rw [length_map]
      omega
    have hput := h.queue.put b hlt
    have hindex : s.nwrite.toNat % pipesize = (s.stored.map Prod.snd).length % pipesize := by
      rw [h.nwrite, length_map]
      exact Nat.mod_mod_of_dvd _ (by decide)
    simp only [hindex, map_append]
    exact hput
  nwrite := by
    simp only [UInt32.toNat_add, h.nwrite, length_append, length_singleton]
    exact Nat.mod_add_mod ..
  nread := h.nread
  writes := h.writes

/-- **A byte is copied out.** -/
theorem Bytes.take (hne : s.nread ≠ s.nwrite) :
    Bytes { s with
      nread := s.nread + 1
      taken := s.taken ++ [s.data (s.nread.toNat % pipesize)] } where
  queue := by
    have hlt : s.taken.length < (s.stored.map Prod.snd).length := by
      rw [Ne, h.empty_iff] at hne
      have := h.le.1
      rw [length_map]
      omega
    have htake := h.queue.take hlt
    have hindex : s.nread.toNat % pipesize = s.taken.length % pipesize := by
      rw [h.nread]
      exact Nat.mod_mod_of_dvd _ (by decide)
    simp only [hindex]
    exact htake
  nwrite := h.nwrite
  nread := by
    simp only [UInt32.toNat_add, h.nread, length_append, length_singleton]
    exact Nat.mod_add_mod ..
  writes := h.writes

end Counters

/-! ### The invariant -/

/-- Who sleeps has a reason to, or is going to be woken up. -/
def Wakes (g : ι → Local) (s : State ι) : Prop :=
  ∀ q c, s.asleep q = some c → Waits s c ∨ ∃ p, (g p).holds .pipe = true ∧ (g p).owes = some c

variable [DecidableEq ι]

/-- What a process has to do with the state. -/
structure Own (s : State ι) (p : ι) (l : Local) : Prop where
  locks : ∀ k, s.lock k = some p ↔ l.holds k = true
  plain : l.holds .pipe = false → l.know = .nothing ∧ l.got = []
  knows : Knows s l.know
  began : s.began p ≤ s.stored.length
  sent : s.sent p = l.sent
  got : l.holds .pipe = true → s.taken = s.returned ++ l.got

/-- **The invariant.** -/
structure Inv (strict : Prop) (g : ι → Local) (s : State ι) : Prop where
  own : ∀ p, Own s p (g p)
  bytes : Bytes s
  free : s.lock .pipe = none → s.taken = s.returned
  wakes : strict → Wakes g s

/-- If `pipewrite` returns -1, nobody sleeps on `&p->nread`. -/
def Heard (s s' : State ι) : Prop :=
  s.writes.length < s'.writes.length → ∀ w ∈ s'.writes.head?, w.ret = -1 →
    ∀ q, s.asleep q ≠ some .nread

/-- What is assumed of each step: nothing, or that it meets the condition above. No step fails. -/
def contract (strict : Prop) : Concurrent.Contract (State ι) Panic where
  ok := fun _ => False
  rel := fun s s' => strict → Heard s s'
  guar := fun _ _ => True

/-! ### One process moves -/

section Step

variable {strict : Prop} {g : ι → Local} {s s' : State ι} {p : ι} {l : Local}

/-- Two states of a pipe that nobody can tell apart who holds `p->lock`. -/
structure Same (s s' : State ι) : Prop where
  nread : s'.nread = s.nread
  nwrite : s'.nwrite = s.nwrite
  readopen : s'.readopen = s.readopen
  writeopen : s'.writeopen = s.writeopen
  taken : s'.taken = s.taken
  reads : s'.reads = s.reads

omit [DecidableEq ι] in
theorem Same.waits (h : Same s s') (hc : Waits s c) : Waits s' c := by
  cases c with
  | nread => rwa [Waits, h.nread, h.nwrite, h.writeopen]
  | nwrite => rwa [Waits, State.Full, h.nread, h.nwrite, h.readopen]

omit [DecidableEq ι] in
theorem Same.knows (h : Same s s') {w : Know} (hw : Knows s w) : Knows s' w := by
  cases w with
  | nothing => trivial
  | room | full => rwa [Knows, State.Full, h.nread, h.nwrite]
  | data => rwa [Knows, h.nread, h.nwrite]
  | waits c => exact h.waits hw

omit [DecidableEq ι] in
theorem Same.returned (h : Same s s') : s'.returned = s.returned := by
  rw [State.returned, State.returned, h.reads]

theorem Own.frame (h : Own s q l) (hlock : ∀ k, s'.lock k = some q ↔ s.lock k = some q)
    (hbegan : s'.began q = s.began q) (hstored : s.stored.length ≤ s'.stored.length)
    (hsent : s'.sent q = s.sent q) (hsame : l.holds .pipe = true → Same s s') : Own s' q l where
  locks := fun k => (hlock k).trans (h.locks k)
  plain := h.plain
  knows := by
    cases hp : l.holds .pipe with
    | true => exact (hsame hp).knows h.knows
    | false =>
      rw [(h.plain hp).1]
      trivial
  began := by
    rw [hbegan]
    exact h.began.trans hstored
  sent := hsent.trans h.sent
  got := fun hp => by
    rw [(hsame hp).taken, (hsame hp).returned]
    exact h.got hp

theorem Inv.holder (h : Inv strict g s) {k : Lock} (hp : (g p).holds k = true) (hq : q ≠ p) :
    (g q).holds k = false := by
  rw [Bool.eq_false_iff]
  intro hk
  have hlock := ((h.own q).locks k).mpr hk
  rw [((h.own p).locks k).mpr hp] at hlock
  exact hq (Option.some.inj hlock).symm

/-- **A step.** What the other processes know is still so, and what the process that moves knows is.
-/
theorem Inv.step (h : Inv strict g s) (hown : Own s' p l)
    (hlock : ∀ q, q ≠ p → ∀ k, s'.lock k = some q ↔ s.lock k = some q)
    (hbegan : ∀ q, q ≠ p → s'.began q = s.began q) (hstored : s.stored.length ≤ s'.stored.length)
    (hsent : ∀ q, q ≠ p → s'.sent q = s.sent q)
    (hsame : (g p).holds .pipe = true ∨ Same s s') (hbytes : Bytes s')
    (hfree : s'.lock .pipe = none → s'.taken = s'.returned)
    (hwakes : strict → Wakes (update g p l) s') :
    Inv strict (update g p l) s' where
  own := by
    refine (forall_update_iff g fun q l => Own s' q l).mpr ⟨hown, fun q hq => ?_⟩
    refine (h.own q).frame (hlock q hq) (hbegan q hq) hstored (hsent q hq) fun hk => ?_
    refine hsame.resolve_left fun hp => ?_
    cases (h.holder hp hq).symm.trans hk
  bytes := hbytes
  free := hfree
  wakes := hwakes

/-! ### Who is woken up -/

theorem Wakes.same (h : Wakes g s) (hsame : Same s s')
    (hasleep : ∀ q, s'.asleep q = s.asleep q ∨ s'.asleep q = none)
    (hl : (g p).holds .pipe = true → (g p).owes ≠ none → l.holds .pipe = true ∧
      l.owes = (g p).owes) :
    Wakes (update g p l) s' := by
  intro q c hq
  have hold : s.asleep q = some c := by
    rcases hasleep q with heq | heq
    · rwa [heq] at hq
    · rw [heq] at hq
      cases hq
  rcases h q c hold with hw | ⟨p', hp', howes⟩
  · exact .inl (hsame.waits hw)
  · right
    by_cases hpp : p' = p
    · subst hpp
      obtain ⟨hl, hlo⟩ := hl hp' (by simp [howes])
      exact ⟨p', by simpa using hl, by simpa [hlo] using howes⟩
    · exact ⟨p', by simpa [hpp] using hp', by simpa [hpp] using howes⟩

/-- Whoever sleeps has a reason to, if the process that holds `p->lock` owes nothing. -/
theorem Inv.waits (h : Inv strict g s) (hs : strict) (hp : (g p).holds .pipe = true)
    (hq : s.asleep q = some c) : Waits s c ∨ (g p).owes = some c := by
  rcases h.wakes hs q c hq with hw | ⟨p', hp', howes⟩
  · exact .inl hw
  · by_cases hpp : p' = p
    · subst hpp
      exact .inr howes
    · cases (h.holder hp hpp).symm.trans hp'

/-! ### Locks -/

omit [DecidableEq ι] in
@[simp] theorem setLock_self (s : State ι) (k : Lock) (q : Option ι) : (s.setLock k q).lock k = q :=
  update_self ..

omit [DecidableEq ι] in
theorem setLock_of_ne (s : State ι) {k k' : Lock} (hk : k' ≠ k) (q : Option ι) :
    (s.setLock k q).lock k' = s.lock k' :=
  update_of_ne hk ..

section

variable (h : Inv strict g s)

include h

/-- **`ptable.lock` is acquired or released.** Some processes may be woken up meanwhile. -/
theorem Inv.relock (hsame : Same s s') (hstored : s'.stored = s.stored)
    (hdata : s'.data = s.data) (hwrites : s'.writes = s.writes) (hbegan : s'.began = s.began)
    (hpipe : s'.lock .pipe = s.lock .pipe)
    (hlock : ∀ q, q ≠ p → (s'.lock .ptable = some q ↔ s.lock .ptable = some q))
    (hmine : s'.lock .ptable = some p ↔ l.holds .ptable = true)
    (hl : l.holds .pipe = (g p).holds .pipe ∧ l.know = (g p).know ∧ l.got = (g p).got ∧
      l.sent = (g p).sent) (hwakes : strict → Wakes (update g p l) s') :
    Inv strict (update g p l) s' := by
  have hold := h.own p
  have hsent : ∀ q, s'.sent q = s.sent q := fun q => by rw [State.sent, State.sent, hstored, hbegan]
  refine h.step ⟨fun k => ?_, fun hp => ?_, ?_, ?_, ?_, fun hp => ?_⟩ (fun q hq k => ?_)
    (fun q _ => by rw [hbegan]) (by rw [hstored]) (fun q _ => hsent q) (.inr hsame)
    ⟨?_, ?_, ?_, ?_⟩ (fun hf => ?_) hwakes
  · cases k with
    | pipe =>
      rw [hpipe, hl.1]
      exact hold.locks .pipe
    | ptable => exact hmine
  · rw [hl.1] at hp
    rw [hl.2.1, hl.2.2.1]
    exact hold.plain hp
  · rw [hl.2.1]
    exact hsame.knows hold.knows
  · rw [hstored, hbegan]
    exact hold.began
  · rw [hl.2.2.2, hsent]
    exact hold.sent
  · rw [hl.1] at hp
    rw [hsame.taken, hsame.returned, hl.2.2.1]
    exact hold.got hp
  · cases k with
    | pipe => rw [hpipe]
    | ptable => exact hlock q hq
  · rw [hdata, hstored, hsame.taken]
    exact h.bytes.queue
  · rw [hstored, hsame.nwrite]
    exact h.bytes.nwrite
  · rw [hsame.taken, hsame.nread]
    exact h.bytes.nread
  · rw [hwrites]
    exact h.bytes.writes
  · rw [hpipe] at hf
    rw [hsame.taken, hsame.returned]
    exact h.free hf

/-- **`p->lock` is acquired.** -/
theorem Inv.acquire (hfree : s.lock .pipe = none) (hnot : (g p).holds .pipe = false) :
    Inv strict (update g p { g p with holds := update (g p).holds .pipe true })
      (s.setLock .pipe (some p)) := by
  have hold := h.own p
  have hnobody : ∀ q, (g q).holds .pipe = false := by
    intro q
    rw [Bool.eq_false_iff]
    intro hq
    rw [((h.own q).locks .pipe).mpr hq] at hfree
    cases hfree
  refine h.step ⟨fun k => ?_, nofun, hold.knows, hold.began, hold.sent, fun _ => ?_⟩
    (fun q hq k => ?_)
    (fun _ _ => rfl) le_rfl (fun _ _ => rfl) (.inr ⟨rfl, rfl, rfl, rfl, rfl, rfl⟩)
    ⟨h.bytes.queue, h.bytes.nwrite, h.bytes.nread, h.bytes.writes⟩ (fun hf => ?_) fun hs q c hq =>
      ?_
  · cases k with
    | pipe => simp
    | ptable => simpa [setLock_of_ne] using hold.locks .ptable
  · simp only [(hold.plain hnot).2, append_nil]
    exact h.free hfree
  · cases k with
    | pipe => simp [hfree, hq.symm]
    | ptable => simp [setLock_of_ne]
  · simp at hf
  · rcases h.wakes hs q c hq with hw | ⟨p', hp', -⟩
    · exact .inl hw
    · cases (hnobody p').symm.trans hp'

/-- **`p->lock` is released**, and some of what has happened is recorded. The process owes nothing,
or nobody sleeps on what it owes. -/
theorem Inv.leave (reads : List (ι × List UInt8)) (writes : List (Written ι))
    (asleep : ι → Option Chan) (hp : (g p).holds .pipe = true)
    (hreads : s.taken = (reads.map Prod.snd).flatten)
    (hwrites : ∀ w ∈ writes, 0 ≤ w.ret → w.ret = w.n ∧ w.sent = w.bytes)
    (hwakes : strict → ∀ q c, asleep q = some c → Waits s c) : Inv strict (update g p { g p with
        holds := update (g p).holds .pipe false, know := .nothing, owes := none, got := [] })
      { s.setLock .pipe none with reads := reads, writes := writes, asleep := asleep } := by
  have hold := h.own p
  have hlock := (hold.locks .pipe).mpr hp
  refine h.step ⟨fun k => ?_, fun _ => ⟨rfl, rfl⟩, trivial, hold.began, hold.sent, ?_⟩
    (fun q hq k => ?_) (fun _ _ => rfl) le_rfl (fun _ _ => rfl) (.inl hp)
    ⟨h.bytes.queue, h.bytes.nwrite, h.bytes.nread, hwrites⟩ (fun _ => hreads)
    fun hs q c hq => .inl (hwakes hs q c hq)
  · cases k with
    | pipe => simp
    | ptable => simpa [setLock_of_ne] using hold.locks .ptable
  · simp
  · cases k with
    | pipe => simp [hlock, hq.symm]
    | ptable => simp [setLock_of_ne]

/-! ### Inside -/

section

variable (hp : (g p).holds .pipe = true)

include hp

/-- **A step of the process that holds `p->lock`**, which keeps the lock and adds nothing to what
has been returned. -/
theorem Inv.inside (hlock : s'.lock = s.lock)
    (hl : l.holds = (g p).holds) (hreads : s'.reads = s.reads) (hbegan : s'.began = s.began)
    (hstored : s.stored.length ≤ s'.stored.length) (hsent : ∀ q, q ≠ p → s'.sent q = s.sent q)
    (hmine : s'.sent p = l.sent) (htaken : s'.taken = s.returned ++ l.got)
    (hknows : Knows s' l.know) (hbytes : Bytes s')
    (hwakes : strict → ∀ q c, s'.asleep q = some c → Waits s' c ∨ l.owes = some c) :
    Inv strict (update g p l) s' := by
  have hold := h.own p
  have hp' : l.holds .pipe = true := by rw [hl, hp]
  refine h.step ⟨fun k => ?_, fun hn => ?_, hknows, ?_, hmine, fun _ => ?_⟩
    (fun q _ k => by rw [hlock])
    (fun q _ => by rw [hbegan]) hstored hsent (.inl hp) hbytes (fun hf => ?_) fun hs q c hq => ?_
  · rw [hlock, hl]
    exact hold.locks k
  · cases hp'.symm.trans hn
  · rw [hbegan]
    exact hold.began.trans hstored
  · rw [htaken, State.returned, State.returned, hreads]
  · rw [hlock, (hold.locks .pipe).mpr hp] at hf
    cases hf
  · refine (hwakes hs q c hq).imp_right fun ho => ⟨p, ?_, ?_⟩
    · simpa using hp'
    · simpa using ho

/-- **A byte is stored.** Who sleeps on `&p->nread` has to be woken up. -/
theorem Inv.store (hk : (g p).know = .room)
    (ho : (g p).owes ≠ some .nwrite) {b : UInt8} :
    Inv strict
      (update g p { g p with
        know := .nothing, owes := some .nread, sent := (g p).sent ++ [b] })
      { s with
        data := update s.data (s.nwrite.toNat % pipesize) b
        nwrite := s.nwrite + 1
        stored := s.stored ++ [(p, b)] } := by
  have hold := h.own p
  have hroom : ¬s.Full := by
    have hknows := hold.knows
    rwa [hk] at hknows
  have hdrop :
      ∀ q, (s.stored ++ [(p, b)]).drop (s.began q) = s.stored.drop (s.began q) ++ [(p, b)] :=
    fun q => drop_append_of_le_length (h.own q).began
  refine h.inside hp rfl rfl rfl rfl (by simp) (fun q hq => ?_) ?_ (hold.got hp) trivial
    (h.bytes.store hroom) fun hs q c hq => ?_
  · simp [State.sent, hdrop, hq.symm]
  · simp only [State.sent, hdrop, filter_append, map_append]
    rw [← hold.sent, State.sent]
    simp
  · cases c with
    | nread => exact .inr rfl
    | nwrite =>
      rcases h.waits hs hp hq with hw | howes
      · exact absurd hw.1 hroom
      · exact absurd howes ho

/-- **A byte is copied out.** Who sleeps on `&p->nwrite` has to be woken up. -/
theorem Inv.take (hk : (g p).know = .data)
    (ho : (g p).owes ≠ some .nread) :
    Inv strict
      (update g p { g p with
        know := .nothing, owes := some .nwrite
        got := (g p).got ++ [s.data (s.nread.toNat % pipesize)] })
      { s with
        nread := s.nread + 1
        taken := s.taken ++ [s.data (s.nread.toNat % pipesize)] } := by
  have hold := h.own p
  have hne : s.nread ≠ s.nwrite := by
    have hknows := hold.knows
    rwa [hk] at hknows
  refine h.inside hp rfl rfl rfl rfl le_rfl (fun _ _ => rfl) hold.sent ?_ trivial (h.bytes.take hne)
    fun hs q c hq => ?_
  · simp [hold.got hp]
  · cases c with
    | nwrite => exact .inr rfl
    | nread =>
      rcases h.waits hs hp hq with hw | howes
      · exact absurd hw.1 hne
      · exact absurd howes ho

/-- **An end is closed.** Who waits for the other one has to be woken up. -/
theorem Inv.close (ho : (g p).owes = none) {readopen writeopen : Bool}
    (hc : c = .nread ∧ readopen = s.readopen ∨ c = .nwrite ∧ writeopen = s.writeopen) :
    Inv strict (update g p { g p with know := .nothing, owes := some c })
      { s with readopen := readopen, writeopen := writeopen } := by
  have hold := h.own p
  refine h.inside hp rfl rfl rfl rfl le_rfl (fun _ _ => rfl) hold.sent (hold.got hp) trivial
    ⟨h.bytes.queue, h.bytes.nwrite, h.bytes.nread, h.bytes.writes⟩ fun hs q c' hq => ?_
  have hw : Waits s c' := (h.waits hs hp hq).resolve_right (by simp [ho])
  rcases hc with ⟨rfl, rfl⟩ | ⟨rfl, rfl⟩ <;> cases c'
  · exact .inr rfl
  · exact .inl hw
  · exact .inl hw
  · exact .inr rfl

theorem Inv.learn {w : Know} (hw : Knows s w) :
    Inv strict (update g p { g p with know := w }) s := by
  have hold := h.own p
  exact h.inside hp rfl rfl rfl rfl le_rfl (fun _ _ => rfl) hold.sent (hold.got hp) hw h.bytes
    fun hs q c hq => h.waits hs hp hq

end

end

end Step

end Xv6.Pipe
