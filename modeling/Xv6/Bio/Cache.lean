import Xv6.Library.Ring
import Xv6.Library.Runs
import Xv6.Log.Buffer

/-!
# The buffer cache, shared by processes

`bio.c` with its list of buffers as the pointers make it, and any number of processes that call
`bread`, change what they hold, hand it to `log_write` or `bwrite`, and call `brelse`.

## Granularity

What a process does with `bcache.lock` held is one step, so between two steps the lock is free.
`bget` is such a step each time it gets the lock: when it is called, and again after each sleep. A
request to the disk takes effect when it completes; until then the buffer's holder is in `iderw`.
Only its holder changes a busy buffer's flags and data, so the tests that `bread` makes after it
has given back the lock are part of the same step.

Sleeping processes are woken by `brelse` and by the disk interrupt, which use the buffer as the
channel, and may be woken for no reason of the cache's.

## What is left out

The channel of `iderw` is the same buffer; a process waiting there is not woken early, since it
looks at the flags again. No caller passes the device number that marks an unused buffer.

## Main definitions

* `State`, `Act`, `State.step` — the system
* `Effect`, `step_effect` — what a step can do
-/

namespace Xv6.Bcache

open Function List

/-- The device number of a buffer that has not been used. -/
abbrev nodev : ℕ := 0xFFFFFFFF

/-- `struct buf`, without its pointers. -/
structure Buf where
  dev : ℕ
  blockno : ℕ
  busy : Bool
  valid : Bool
  dirty : Bool
  data : Block

/-- A node of the list: a buffer, or `bcache.head`. -/
abbrev Node : Type := Option Slot

/-- Where a process is. -/
inductive Pc
  | run
  | bget (dev blockno : ℕ)
  | asleep (i : Slot) (dev blockno : ℕ)
  /-- In `iderw`, called from `bread` for this block. -/
  | reading (i : Slot) (dev blockno : ℕ)
  /-- In `iderw`, called from `bwrite`. -/
  | writing (i : Slot)
  deriving DecidableEq

/-- The cache, the disk and the processes. -/
structure State where
  links : Links Node
  buf : Slot → Buf
  disk : ℕ → ℕ → Block
  pc : ℕ → Pc
  /-- The buffers each process has been given by `bget` and has not released. -/
  held : ℕ → Finset Slot

/-- What can happen. -/
inductive Act
  | bread (p dev blockno : ℕ)
  | go (p : ℕ)
  /-- Process `p` is woken, though its buffer has not been released. -/
  | wake (p : ℕ)
  | modify (p : ℕ) (i : Slot) (d : Block)
  | logWrite (p : ℕ) (i : Slot)
  | bwrite (p : ℕ) (i : Slot)
  | brelse (p : ℕ) (i : Slot)

/-- `binit`, in front of disks. -/
def binit (disk : ℕ → ℕ → Block) : State where
  links := (List.finRange nbuf).foldl (fun l i => l.insert none (some i))
    ⟨fun _ => none, fun _ => none⟩
  buf := fun _ => ⟨nodev, 0, false, false, false, fun _ => 0⟩
  disk := disk
  pc := fun _ => .run
  held := fun _ => ∅

namespace State

variable (s : State)

/-- The state with another buffer at `i`. -/
def setBuf (i : Slot) (b : Buf) : State := { s with buf := update s.buf i b }

/-- The state with process `p` somewhere else. -/
def setPc (p : ℕ) (c : Pc) : State := { s with pc := update s.pc p c }

/-- `wakeup`, on the channel of a buffer. -/
def wakeup (i : Slot) : State :=
  { s with
    pc := fun q =>
      match s.pc q with
      | .asleep j dev n => if j = i then .bget dev n else .asleep j dev n
      | c => c }

/-- A test of the nodes that are buffers. -/
def onBuf (f : Buf → Bool) : Node → Bool
  | none => false
  | some i => f (s.buf i)

/-- The first loop of `bget`: is the block already cached? -/
def lookup (dev n : ℕ) : Option Slot :=
  (Links.scan s.links.next none (s.onBuf fun b => decide (b.dev = dev ∧ b.blockno = n)) (nbuf + 1)
    (s.links.next none)).join

/-- The second loop of `bget`: find a buffer that is neither busy nor dirty, the least recently used
first. -/
def recyclable : Option Slot :=
  (Links.scan s.links.prev none (s.onBuf fun b => !b.busy && !b.dirty) (nbuf + 1)
    (s.links.prev none)).join

/-- The end of `bread`: process `p` has been given buffer `i`, which may have to be read. -/
def grant (p : ℕ) (i : Slot) (dev n : ℕ) : Option Slot × State :=
  let s := { s with held := update s.held p (insert i (s.held p)) }
  if (s.buf i).valid then (some i, s.setPc p .run) else (none, s.setPc p (.reading i dev n))

/-- `bget`, from where it has the lock, and the rest of `bread`. -/
def bget (p dev n : ℕ) : Except Stuck (Option Slot × State) :=
  match s.lookup dev n with
  | some i =>
    if (s.buf i).busy then .ok (none, s.setPc p (.asleep i dev n))
    else .ok ((s.setBuf i { s.buf i with busy := true }).grant p i dev n)
  | none =>
    match s.recyclable with
    | some i => .ok ((s.setBuf i ⟨dev, n, true, false, false, (s.buf i).data⟩).grant p i dev n)
    | none => .error .noBuffers

/-- `iderw` completes: a dirty buffer is written, another one read. -/
def iderw (i : Slot) : Except Stuck State :=
  let b := s.buf i
  if !b.busy then .error .bufNotBusy
  else if b.valid && !b.dirty then .error .nothingToDo
  else if fssize ≤ b.blockno then .error .incorrectBlockno
  else
    let s := s.wakeup i
    if b.dirty then
      .ok { s.setBuf i { b with valid := true, dirty := false } with
        disk := update s.disk b.dev (update (s.disk b.dev) b.blockno b.data) }
    else .ok (s.setBuf i { b with valid := true, data := s.disk b.dev b.blockno })

/-- `brelse`: move the buffer to the front of the list, unlock it and wake who waits for it. -/
def brelse (p : ℕ) (i : Slot) : Except Stuck State :=
  if !(s.buf i).busy then .error .brelse
  else
    let s := { s with links := (s.links.unlink (some i)).insert none (some i) }
    let s := (s.setBuf i { s.buf i with busy := false }).wakeup i
    .ok { s with held := update s.held p ((s.held p).erase i) }

/-- One step. What it returns is the buffer that a `bread` has returned in it. -/
def step : Act → Except Stuck (Option Slot × State)
  | .bread p dev n =>
    if s.pc p = .run ∧ dev ≠ nodev then .ok (none, s.setPc p (.bget dev n)) else .error .disabled
  | .go p =>
    match s.pc p with
    | .bget dev n => s.bget p dev n
    | .reading i _ _ =>
      match s.iderw i with
      | .error e => .error e
      | .ok s => .ok (some i, s.setPc p .run)
    | .writing i =>
      match s.iderw i with
      | .error e => .error e
      | .ok s => .ok (none, s.setPc p .run)
    | _ => .error .disabled
  | .wake p =>
    match s.pc p with
    | .asleep _ dev n => .ok (none, s.setPc p (.bget dev n))
    | _ => .error .disabled
  | .modify p i d =>
    if s.pc p = .run ∧ i ∈ s.held p then .ok (none, s.setBuf i { s.buf i with data := d })
    else .error .disabled
  | .logWrite p i =>
    if s.pc p = .run ∧ i ∈ s.held p then .ok (none, s.setBuf i { s.buf i with dirty := true })
    else .error .disabled
  | .bwrite p i =>
    if s.pc p = .run ∧ i ∈ s.held p then
      if !(s.buf i).busy then .error .bwrite
      else .ok (none, (s.setBuf i { s.buf i with dirty := true }).setPc p (.writing i))
    else .error .disabled
  | .brelse p i =>
    if s.pc p = .run ∧ i ∈ s.held p then
      match s.brelse p i with
      | .error e => .error e
      | .ok s => .ok (none, s)
    else .error .disabled

end State

/-- The state after a step. -/
def State.next (s : State) (act : Act) : Except Stuck State := (s.step act).map Prod.snd

/-- A run, until something goes wrong. -/
def State.run (s : State) (acts : List Act) : Except Stuck State := Runs.run State.next acts s

/-- The states that the cache can be in. -/
def Reachable (disk : ℕ → ℕ → Block) (s : State) : Prop :=
  ∃ acts, (binit disk).run acts = .ok s

variable {act : Act}

theorem State.next_ok {s s' : State} (h : s.next act = .ok s') : ∃ r, s.step act = .ok (r, s') := by
  rw [State.next] at h
  cases hs : s.step act with
  | error e =>
    rw [hs] at h
    cases h
  | ok rs =>
    rw [hs] at h
    cases h
    exact ⟨rs.1, rfl⟩

/-! ### The list -/

/-- The buffers on the list, most recently used first, are those of `l`, and that is all of them. -/
structure Order (s : State) (l : List Slot) : Prop where
  ring : s.links.IsRing none (l.map some)
  all : ∀ i, i ∈ l

variable {s s' : State} {l : List Slot}

theorem Order.nodup (ho : Order s l) : l.Nodup :=
  (nodup_cons.mp ho.ring.nodup).2.of_map _

theorem Order.length (ho : Order s l) : l.length = nbuf := by
  have hcard := toFinset_card_of_nodup ho.nodup
  rw [Finset.eq_univ_iff_forall.mpr fun i => mem_toFinset.mpr (ho.all i)] at hcard
  simpa using hcard.symm

theorem scan_map_some {p : Links Node} (hr : p.IsRing none (l.map some)) (hlen : l.length = nbuf)
    (f : Node → Bool) :
    (Links.scan p.next none f (nbuf + 1) (p.next none)).join = l.find? fun i => f (some i) := by
  rw [hr.scan_eq f (by rw [length_map, hlen]; exact Nat.lt_succ_self _), List.find?_map]
  change (Option.map some (l.find? fun i => f (some i))).join = _
  cases l.find? fun i => f (some i) with
  | none => rfl
  | some i => rfl

/-- **The first loop of `bget`** finds the most recently used buffer for the block. -/
theorem Order.lookup_eq (ho : Order s l) (dev n : ℕ) : s.lookup dev n =
      l.find? fun i => decide ((s.buf i).dev = dev ∧ (s.buf i).blockno = n) :=
  scan_map_some ho.ring ho.length _

/-- **The second loop of `bget`** finds the least recently used buffer that can be taken. -/
theorem Order.recyclable_eq (ho : Order s l) :
    s.recyclable = l.reverse.find? fun i => !(s.buf i).busy && !(s.buf i).dirty :=
  scan_map_some (p := s.links.flip) (map_reverse ▸ ho.ring.reverse)
    (by rw [length_reverse, ho.length]) _

theorem Order.binit (disk : ℕ → ℕ → Block) : Order (binit disk) (List.finRange nbuf).reverse := by
  refine ⟨?_, fun i => mem_reverse.mpr (mem_finRange i)⟩
  -- the buffers that have been inserted, and those still to come
  suffices hins : ∀ (l' l : List Slot) (p : Links Node), (l' ++ l).Nodup →
      p.IsRing none (l.map some) →
      (l'.foldl (fun p i => p.insert none (some i)) p).IsRing none ((l'.reverse ++ l).map some) by
    have h := hins (List.finRange nbuf) [] ⟨fun _ => none, fun _ => none⟩
      (by simpa using nodup_finRange nbuf) (Links.isRing_nil rfl rfl)
    rwa [append_nil] at h
  intro l'
  induction l' with
  | nil => exact fun l p _ hr => hr
  | cons i l' ih =>
    intro l p hnd hr
    rw [cons_append, nodup_cons] at hnd
    rw [foldl_cons, reverse_cons, append_assoc]
    refine ih (i :: l) _ ?_ ?_
    · rw [nodup_middle]
      exact nodup_cons.mpr hnd
    · refine hr.insert ?_
      simp only [mem_cons, mem_map, Option.some.injEq, exists_eq_right, reduceCtorEq, false_or]
      exact fun hi => hnd.1 (mem_append_right l' hi)

variable {i : Slot} {t : State}

/-- **`brelse` moves its buffer to the front.** -/
theorem Order.toFront (ho : Order s l)
    (ht : t.links = (s.links.unlink (some i)).insert none (some i)) : Order t (i :: l.erase i) := by
  obtain ⟨l₁, l₂, rfl⟩ := append_of_mem (ho.all i)
  have hnd := ho.nodup
  have hi : i ∉ l₁ ++ l₂ := (nodup_cons.mp (nodup_middle.mp hnd)).1
  have herase : (l₁ ++ i :: l₂).erase i = l₁ ++ l₂ := by
    rw [erase_append_right _ fun h => hi (mem_append_left l₂ h), erase_cons_head]
  have hr : s.links.IsRing none (l₁.map some ++ some i :: l₂.map some) := by
    simpa using ho.ring
  rw [herase]
  refine ⟨?_, fun j => ?_⟩
  · rw [ht, map_cons, map_append]
    refine hr.unlink.insert ?_
    rw [← map_append]
    simpa using hi
  · have hj := ho.all j
    simp only [mem_append, mem_cons] at hj ⊢
    tauto

/-! ### What a step can do -/

/-- Process `p` comes to `c`, and other processes may be woken. -/
structure Moves (s : State) (p : ℕ) (c : Pc) (pc : ℕ → Pc) : Prop where
  self : pc p = c
  others : ∀ q ≠ p, pc q = s.pc q ∨ ∃ i dev n, s.pc q = .asleep i dev n ∧ pc q = .bget dev n

/-- What a step does to the buffers, the disk and the holders. -/
inductive Effect (s : State) : Act → State → Prop
  | call {p dev n pc} (hp : s.pc p = .run) (hdev : dev ≠ nodev) (hpc : Moves s p (.bget dev n) pc) :
      Effect s (.bread p dev n) { s with pc := pc }
  | sleep {p i dev n pc} (hp : s.pc p = .bget dev n) (hpc : Moves s p (.asleep i dev n) pc) :
      Effect s (.go p) { s with pc := pc }
  | wake {p i dev n pc} (hp : s.pc p = .asleep i dev n) (hpc : Moves s p (.bget dev n) pc) :
      Effect s (.wake p) { s with pc := pc }
  | lock {p i dev n pc c} (hp : s.pc p = .bget dev n)
      (hkey : (s.buf i).dev = dev ∧ (s.buf i).blockno = n) (hfree : (s.buf i).busy = false)
      (hpc : Moves s p c pc)
      (hc : (s.buf i).valid = true ∧ c = .run ∨ (s.buf i).valid = false ∧ c = .reading i dev n) :
      Effect s (.go p) { s with
        buf := update s.buf i { s.buf i with busy := true }
        held := update s.held p (insert i (s.held p))
        pc := pc }
  | recycle {p i dev n pc} (hp : s.pc p = .bget dev n)
      (hnew : ∀ j, ¬((s.buf j).dev = dev ∧ (s.buf j).blockno = n))
      (hfree : (s.buf i).busy = false) (hclean : (s.buf i).dirty = false)
      (hpc : Moves s p (.reading i dev n) pc) :
      Effect s (.go p) { s with
        buf := update s.buf i ⟨dev, n, true, false, false, (s.buf i).data⟩
        held := update s.held p (insert i (s.held p))
        pc := pc }
  | read {p i pc} (hp : s.pc p = .writing i ∨ ∃ dev n, s.pc p = .reading i dev n)
      (hclean : (s.buf i).dirty = false) (hstale : (s.buf i).valid = false)
      (hpc : Moves s p .run pc) :
      Effect s (.go p) { s with
        buf := update s.buf i
          { s.buf i with valid := true, data := s.disk (s.buf i).dev (s.buf i).blockno }
        pc := pc }
  | write {p i pc} (hp : s.pc p = .writing i ∨ ∃ dev n, s.pc p = .reading i dev n)
      (hdirty : (s.buf i).dirty = true) (hpc : Moves s p .run pc) :
      Effect s (.go p) { s with
        buf := update s.buf i { s.buf i with valid := true, dirty := false }
        disk := update s.disk (s.buf i).dev
          (update (s.disk (s.buf i).dev) (s.buf i).blockno (s.buf i).data)
        pc := pc }
  | modify {p i d} (hp : s.pc p = .run) (hheld : i ∈ s.held p) :
      Effect s (.modify p i d) { s with
        buf := update s.buf i { s.buf i with data := d } }
  | logWrite {p i} (hp : s.pc p = .run) (hheld : i ∈ s.held p) :
      Effect s (.logWrite p i) { s with
        buf := update s.buf i { s.buf i with dirty := true } }
  | bwrite {p i pc} (hp : s.pc p = .run) (hheld : i ∈ s.held p)
      (hpc : Moves s p (.writing i) pc) :
      Effect s (.bwrite p i) { s with
        buf := update s.buf i { s.buf i with dirty := true }
        pc := pc }
  | brelse {p i pc} (hp : s.pc p = .run) (hheld : i ∈ s.held p) (hpc : Moves s p .run pc) :
      Effect s (.brelse p i) { s with
        links := (s.links.unlink (some i)).insert none (some i)
        buf := update s.buf i { s.buf i with busy := false }
        held := update s.held p ((s.held p).erase i)
        pc := pc }

theorem Moves.refl (s : State) (p : ℕ) : Moves s p (s.pc p) s.pc := ⟨rfl, fun _ _ => .inl rfl⟩

theorem moves_setPc (s : State) (p : ℕ) (c : Pc) : Moves s p c (update s.pc p c) :=
  ⟨update_self .., fun _ hq => .inl (update_of_ne hq ..)⟩

theorem wakeup_pc (s : State) (i : Slot) (q : ℕ) : (s.wakeup i).pc q = s.pc q ∨
      ∃ j dev n, s.pc q = .asleep j dev n ∧ (s.wakeup i).pc q = .bget dev n := by
  simp only [State.wakeup]
  cases hq : s.pc q with
  | asleep j dev n =>
    by_cases hj : j = i
    · exact .inr ⟨j, dev, n, rfl, if_pos hj⟩
    · exact .inl (if_neg hj)
  | run | bget | reading | writing => exact .inl rfl

theorem moves_wakeup (s : State) (p : ℕ) (c : Pc) (i : Slot) :
    Moves s p c (update (s.wakeup i).pc p c) := by
  refine ⟨update_self .., fun q hq => ?_⟩
  rw [update_of_ne hq]
  exact wakeup_pc s i q

variable {r : Option Slot}

theorem Order.bget_effect (ho : Order s l) {p dev n : ℕ}
    (hp : s.pc p = .bget dev n) (h : s.bget p dev n = .ok (r, s')) : Effect s (.go p) s' := by
  rw [State.bget, ho.lookup_eq, ho.recyclable_eq] at h
  cases hlook : l.find? fun i => decide ((s.buf i).dev = dev ∧ (s.buf i).blockno = n) with
  | some i =>
    have hkey : (s.buf i).dev = dev ∧ (s.buf i).blockno = n := by
      simpa using List.find?_some hlook
    simp only [hlook] at h
    by_cases hbusy : (s.buf i).busy = true
    · simp only [hbusy, if_true, Except.ok.injEq, Prod.mk.injEq] at h
      exact h.2 ▸ .sleep hp (moves_setPc s p _)
    · simp only [hbusy, Bool.false_eq_true, if_false, Except.ok.injEq, State.grant, State.setBuf,
        update_self] at h
      have hbusy := Bool.eq_false_of_not_eq_true hbusy
      split_ifs at h with hvalid
      · cases h
        exact .lock hp hkey hbusy (moves_setPc s p _) (.inl ⟨hvalid, rfl⟩)
      · cases h
        exact .lock hp hkey hbusy (moves_setPc s p _)
          (.inr ⟨Bool.eq_false_of_not_eq_true hvalid, rfl⟩)
  | none =>
    have hnew := fun j => of_decide_eq_false
      (Bool.eq_false_of_not_eq_true (List.find?_eq_none.mp hlook j (ho.all j)))
    simp only [hlook] at h
    cases hrec : l.reverse.find? fun i => !(s.buf i).busy && !(s.buf i).dirty with
    | none => simp [hrec] at h
    | some i =>
      have hfree := List.find?_some hrec
      simp only [Bool.and_eq_true, Bool.not_eq_true'] at hfree
      simp only [hrec, State.grant, State.setBuf, update_self, Bool.false_eq_true,
        if_false, Except.ok.injEq] at h
      cases h
      exact .recycle hp hnew hfree.1 hfree.2 (moves_setPc s p _)

variable {p : ℕ}

theorem iderw_effect
    (hp : s.pc p = .writing i ∨ ∃ dev n, s.pc p = .reading i dev n) (h : s.iderw i = .ok t) :
    Effect s (.go p) (t.setPc p .run) := by
  rw [State.iderw] at h
  split_ifs at h with hbusy hnothing hn hdirty
  · cases h
    exact .write hp hdirty (moves_wakeup s p _ i)
  · cases h
    have hclean := Bool.eq_false_of_not_eq_true hdirty
    refine .read hp hclean ?_ (moves_wakeup s p _ i)
    simpa [hclean] using hnothing

theorem brelse_effect (hp : s.pc p = .run) (hheld : i ∈ s.held p)
    (h : s.brelse p i = .ok s') : Effect s (.brelse p i) s' := by
  rw [State.brelse] at h
  split_ifs at h
  cases h
  refine .brelse hp hheld ⟨?_, fun q _ => wakeup_pc s i q⟩
  change (s.wakeup i).pc p = _
  simp only [State.wakeup, hp]

/-- **What a step can do.** -/
theorem Order.step_effect (ho : Order s l) (h : s.step act = .ok (r, s')) : Effect s act s' := by
  cases act with
  | bread p dev n =>
    rw [State.step] at h
    split_ifs at h with hp
    cases h
    exact .call hp.1 hp.2 (moves_setPc s p _)
  | go p =>
    simp only [State.step] at h
    cases hp : s.pc p with
    | bget dev n => exact ho.bget_effect hp (by simpa only [hp] using h)
    | reading i dev n =>
      cases ht : s.iderw i with
      | error e => simp [hp, ht] at h
      | ok t =>
        simp only [hp, ht] at h
        cases h
        exact iderw_effect (.inr ⟨dev, n, hp⟩) ht
    | writing i =>
      cases ht : s.iderw i with
      | error e => simp [hp, ht] at h
      | ok t =>
        simp only [hp, ht] at h
        cases h
        exact iderw_effect (.inl hp) ht
    | run | asleep => simp [hp] at h
  | wake p =>
    simp only [State.step] at h
    cases hp : s.pc p with
    | asleep i dev n =>
      simp only [hp] at h
      cases h
      exact .wake hp (moves_setPc s p _)
    | run | bget | reading | writing => simp [hp] at h
  | modify p i d =>
    rw [State.step] at h
    split_ifs at h with hp
    cases h
    exact .modify hp.1 hp.2
  | logWrite p i =>
    rw [State.step] at h
    split_ifs at h with hp
    cases h
    exact .logWrite hp.1 hp.2
  | bwrite p i =>
    rw [State.step] at h
    split_ifs at h with hp
    cases h
    exact .bwrite hp.1 hp.2 (moves_setPc s p _)
  | brelse p i =>
    rw [State.step] at h
    split_ifs at h with hp
    cases ht : s.brelse p i with
    | error e => simp [ht] at h
    | ok t =>
      simp only [ht] at h
      cases h
      exact brelse_effect hp.1 hp.2 ht

/-! ### The invariant -/

/-- Buffer `i` is for this block. -/
def State.Caches (s : State) (i : Slot) (dev n : ℕ) : Prop :=
  (s.buf i).dev = dev ∧ (s.buf i).blockno = n

/-- What holds of a process in a call. -/
def PcOk (s : State) (p : ℕ) : Pc → Prop
  | .run => True
  | .bget dev _ => dev ≠ nodev
  | .asleep _ dev _ => dev ≠ nodev
  | .reading i dev n => i ∈ s.held p ∧ s.Caches i dev n
  | .writing i => i ∈ s.held p

/-- The representation invariant. -/
structure Inv (s : State) : Prop where
  order : ∃ l, Order s l
  unique : ∀ i j, (s.buf i).dev ≠ nodev → s.Caches j (s.buf i).dev (s.buf i).blockno → j = i
  busy : ∀ i, (s.buf i).busy = true ↔ ∃ p, i ∈ s.held p
  sole : ∀ p q i, i ∈ s.held p → i ∈ s.held q → p = q
  used : ∀ i, (s.buf i).busy = true ∨ (s.buf i).dirty = true → (s.buf i).dev ≠ nodev
  calls : ∀ p, PcOk s p (s.pc p)

variable {disk : ℕ → ℕ → Block}

theorem Inv.binit (disk : ℕ → ℕ → Block) : Inv (binit disk) where
  order := ⟨_, Order.binit disk⟩
  unique := fun _ _ h => absurd rfl h
  busy := fun _ => by simp [Bcache.binit]
  sole := fun _ _ _ h => absurd h (Finset.notMem_empty _)
  used := fun _ h => by simp [Bcache.binit] at h
  calls := fun _ => trivial

theorem Inv.not_held (hi : Inv s) (hfree : (s.buf i).busy = false) (p : ℕ) : i ∉ s.held p :=
  fun h => Bool.false_ne_true (hfree.symm.trans ((hi.busy i).mpr ⟨p, h⟩))

/-- Process `p` still holds what it held, for the same blocks. -/
def Keeps (s t : State) (p : ℕ) : Prop :=
  ∀ i ∈ s.held p, i ∈ t.held p ∧ t.Caches i (s.buf i).dev (s.buf i).blockno

variable {c : Pc}

theorem PcOk.keep (hc : PcOk s p c) (hkeep : Keeps s t p) : PcOk t p c := by
  cases c with
  | run => trivial
  | bget dev n => exact hc
  | asleep i dev n => exact hc
  | reading i dev n =>
    obtain ⟨hheld, hdev, hn⟩ := hkeep i hc.1
    exact ⟨hheld, hdev.trans hc.2.1, hn.trans hc.2.2⟩
  | writing i => exact (hkeep i hc).1

section

variable (hi : Inv s)

include hi

theorem Inv.calls_moves (hm : Moves s p c t.pc)
    (hkeep : ∀ q ≠ p, Keeps s t q) (hc : PcOk t p c) (q : ℕ) : PcOk t q (t.pc q) := by
  by_cases hq : q = p
  · subst hq
    rwa [hm.self]
  have hok := (hi.calls q).keep (hkeep q hq)
  rcases hm.others q hq with h | ⟨i, dev, n, hs, ht⟩
  · rwa [h]
  · rw [ht]
    rw [hs] at hok
    exact hok

theorem Inv.same_holders (hlinks : t.links = s.links) (hheld : t.held = s.held)
    (hbuf : ∀ i, (t.buf i).dev = (s.buf i).dev ∧ (t.buf i).blockno = (s.buf i).blockno ∧
      (t.buf i).busy = (s.buf i).busy)
    (hdirty : ∀ i, (t.buf i).dirty = true → (s.buf i).busy = true ∨ (s.buf i).dirty = true)
    (hm : Moves s p c t.pc) (hc : PcOk s p c) : Inv t where
  order := by
    obtain ⟨l, ho⟩ := hi.order
    exact ⟨l, hlinks ▸ ho.ring, ho.all⟩
  unique := fun i j hdev hj => hi.unique i j ((hbuf i).1 ▸ hdev) (by
    obtain ⟨hd, hn⟩ := hj
    exact ⟨((hbuf j).1.symm.trans hd).trans (hbuf i).1,
      ((hbuf j).2.1.symm.trans hn).trans (hbuf i).2.1⟩)
  busy := fun i => by rw [(hbuf i).2.2, hheld]; exact hi.busy i
  sole := fun q r i => by rw [hheld]; exact hi.sole q r i
  used := fun i h => by
    rw [(hbuf i).1]
    exact hi.used i (h.elim (fun h => .inl ((hbuf i).2.2 ▸ h)) (hdirty i))
  calls := by
    have hkeep : ∀ q, Keeps s t q := fun q i h => ⟨hheld ▸ h, (hbuf i).1, (hbuf i).2.1⟩
    exact hi.calls_moves hm (fun q _ => hkeep q) (hc.keep (hkeep p))

/-- **A holder changes its buffer**, but not what it is for. -/
theorem Inv.change {b : Buf}
    (hheld : i ∈ s.held p) (hlinks : t.links = s.links) (hheld' : t.held = s.held)
    (hbuf : t.buf = update s.buf i b)
    (hb : b.dev = (s.buf i).dev ∧ b.blockno = (s.buf i).blockno ∧ b.busy = (s.buf i).busy)
    (hm : Moves s p c t.pc) (hc : PcOk s p c) : Inv t := by
  refine hi.same_holders hlinks hheld' (fun j => ?_) (fun j hj => ?_) hm hc
  · rw [hbuf]
    by_cases hj : j = i
    · subst hj
      rwa [update_self]
    · rw [update_of_ne hj]
      exact ⟨rfl, rfl, rfl⟩
  · by_cases hji : j = i
    · exact .inl (hji ▸ (hi.busy i).mpr ⟨p, hheld⟩)
    · rw [hbuf, update_of_ne hji] at hj
      exact .inr hj

theorem Inv.held_of_io
    (hp : s.pc p = .writing i ∨ ∃ dev n, s.pc p = .reading i dev n) : i ∈ s.held p := by
  have hok := hi.calls p
  rcases hp with hp | ⟨dev, n, hp⟩
  · rw [hp] at hok
    exact hok
  · rw [hp] at hok
    exact hok.1

/-- **`bget` gives a buffer** that nobody holds to process `p`, for a block that no other buffer is
for. -/
theorem Inv.give {p dev n : ℕ} {b : Buf}
    (hfree : (s.buf i).busy = false) (hdev : dev ≠ nodev) (hnew : ∀ j, s.Caches j dev n → j = i)
    (hlinks : t.links = s.links) (hbuf : t.buf = update s.buf i b)
    (hb : b.dev = dev ∧ b.blockno = n ∧ b.busy = true)
    (hheld : t.held = update s.held p (insert i (s.held p)))
    (hm : Moves s p c t.pc) (hc : c = .run ∨ c = .reading i dev n) : Inv t := by
  have hbi : t.buf i = b := by rw [hbuf, update_self]
  have hbj : ∀ j ≠ i, t.buf j = s.buf j := fun j hj => by rw [hbuf, update_of_ne hj]
  have hmem : ∀ q j, j ∈ t.held q ↔ j ∈ s.held q ∨ q = p ∧ j = i := by
    intro q j
    rw [hheld]
    by_cases hq : q = p
    · subst hq
      rw [update_self, Finset.mem_insert]
      tauto
    · rw [update_of_ne hq]
      tauto
  refine ⟨?_, fun j k hj hk => ?_, fun j => ?_, fun q r j hq hr => ?_, fun j hj => ?_, ?_⟩
  · obtain ⟨l, ho⟩ := hi.order
    exact ⟨l, hlinks ▸ ho.ring, ho.all⟩
  · obtain ⟨hkd, hkn⟩ := hk
    by_cases hji : j = i <;> by_cases hki : k = i
    · exact hki.trans hji.symm
    · subst hji
      rw [hbi, hbj k hki] at hkd hkn
      exact hnew k ⟨hkd.trans hb.1, hkn.trans hb.2.1⟩
    · subst hki
      rw [hbi, hbj j hji] at hkd hkn
      exact (hnew j ⟨hkd.symm.trans hb.1, hkn.symm.trans hb.2.1⟩).symm
    · rw [hbj j hji] at hj
      rw [hbj j hji, hbj k hki] at hkd hkn
      exact hi.unique j k hj ⟨hkd, hkn⟩
  · by_cases hji : j = i
    · subst hji
      rw [hbi]
      exact ⟨fun _ => ⟨p, (hmem p j).mpr (.inr ⟨rfl, rfl⟩)⟩, fun _ => hb.2.2⟩
    · rw [hbj j hji, hi.busy j]
      refine exists_congr fun q => ?_
      rw [hmem]
      tauto
  · rcases (hmem q j).mp hq with hq | ⟨hq, hj⟩ <;> rcases (hmem r j).mp hr with hr | ⟨hr, hj'⟩
    · exact hi.sole q r j hq hr
    · exact absurd (hj' ▸ hq) (hi.not_held hfree q)
    · exact absurd (hj ▸ hr) (hi.not_held hfree r)
    · exact hq.trans hr.symm
  · by_cases hji : j = i
    · subst hji
      rw [hbi, hb.1]
      exact hdev
    · rw [hbj j hji] at hj ⊢
      exact hi.used j hj
  · refine hi.calls_moves hm (fun q _ j hj => ⟨(hmem q j).mpr (.inl hj), ?_⟩) ?_
    · have hji : j ≠ i := fun h => hi.not_held hfree q (h ▸ hj)
      rw [State.Caches, hbj j hji]
      exact ⟨rfl, rfl⟩
    · rcases hc with rfl | rfl
      · trivial
      · refine ⟨(hmem p i).mpr (.inr ⟨rfl, rfl⟩), ?_⟩
        rw [State.Caches, hbi]
        exact ⟨hb.1, hb.2.1⟩

/-- **`brelse` takes a buffer** from its holder. -/
theorem Inv.take (hheld : i ∈ s.held p)
    (hlinks : t.links = (s.links.unlink (some i)).insert none (some i))
    (hbuf : t.buf = update s.buf i { s.buf i with busy := false })
    (hheld' : t.held = update s.held p ((s.held p).erase i)) (hm : Moves s p .run t.pc) :
    Inv t := by
  have hkey : ∀ j, (t.buf j).dev = (s.buf j).dev ∧ (t.buf j).blockno = (s.buf j).blockno ∧
      (t.buf j).dirty = (s.buf j).dirty := by
    intro j
    rw [hbuf]
    by_cases hj : j = i
    · subst hj
      rw [update_self]
      exact ⟨rfl, rfl, rfl⟩
    · rw [update_of_ne hj]
      exact ⟨rfl, rfl, rfl⟩
  have hbusy : ∀ j, (t.buf j).busy = true ↔ j ≠ i ∧ (s.buf j).busy = true := by
    intro j
    rw [hbuf]
    by_cases hj : j = i
    · subst hj
      simp
    · simp [hj]
  have hmem : ∀ q j, j ∈ t.held q ↔ j ∈ s.held q ∧ j ≠ i := by
    intro q j
    rw [hheld']
    by_cases hq : q = p
    · subst hq
      rw [update_self, Finset.mem_erase]
      tauto
    · rw [update_of_ne hq]
      refine ⟨fun h => ⟨h, ?_⟩, And.left⟩
      rintro rfl
      exact hq (hi.sole q p j h hheld)
  refine ⟨?_, fun j k hj hk => ?_, fun j => ?_, fun q r j hq hr => ?_, fun j hj => ?_, ?_⟩
  · obtain ⟨l, ho⟩ := hi.order
    exact ⟨_, ho.toFront hlinks⟩
  · rw [(hkey j).1] at hj
    rw [State.Caches, (hkey j).1, (hkey j).2.1, (hkey k).1, (hkey k).2.1] at hk
    exact hi.unique j k hj hk
  · rw [hbusy, hi.busy]
    simp only [hmem]
    tauto
  · exact hi.sole q r j ((hmem q j).mp hq).1 ((hmem r j).mp hr).1
  · rw [(hkey j).1]
    rw [hbusy, (hkey j).2.2] at hj
    exact hi.used j (hj.imp_left And.right)
  · refine hi.calls_moves hm (fun q hq j hj => ⟨(hmem q j).mpr ⟨hj, ?_⟩, (hkey j).1, (hkey j).2.1⟩)
      trivial
    rintro rfl
    exact hq (hi.sole q p j hj hheld)

/-- **Every step keeps the representation invariant.** -/
theorem Inv.effect (he : Effect s act s') : Inv s' := by
  cases he with
  | call hp hdev hpc =>
    exact hi.same_holders rfl rfl (fun _ => ⟨rfl, rfl, rfl⟩) (fun _ => .inr) hpc hdev
  | @sleep p i dev n pc hp hpc =>
    have hdev := hi.calls p
    rw [hp] at hdev
    exact hi.same_holders rfl rfl (fun _ => ⟨rfl, rfl, rfl⟩) (fun _ => .inr) hpc hdev
  | @wake p i dev n pc hp hpc =>
    have hdev := hi.calls p
    rw [hp] at hdev
    exact hi.same_holders rfl rfl (fun _ => ⟨rfl, rfl, rfl⟩) (fun _ => .inr) hpc hdev
  | @lock p i dev n pc c hp hkey hfree hpc hc =>
    have hdev := hi.calls p
    rw [hp] at hdev
    refine hi.give hfree hdev (fun j hj => ?_) rfl rfl ⟨hkey.1, hkey.2, rfl⟩ rfl hpc
      (hc.imp And.right And.right)
    exact hi.unique i j (hkey.1 ▸ hdev) (by rwa [hkey.1, hkey.2])
  | @recycle p i dev n pc hp hnew hfree hclean hpc =>
    have hdev := hi.calls p
    rw [hp] at hdev
    exact hi.give hfree hdev (fun j hj => absurd hj (hnew j)) rfl rfl ⟨rfl, rfl, rfl⟩ rfl hpc
      (.inr rfl)
  | read hp hclean hstale hpc =>
    exact hi.change (hi.held_of_io hp) rfl rfl rfl ⟨rfl, rfl, rfl⟩ hpc trivial
  | write hp hdirty hpc =>
    exact hi.change (hi.held_of_io hp) rfl rfl rfl ⟨rfl, rfl, rfl⟩ hpc trivial
  | @modify p i d hp hheld =>
    exact hi.change hheld rfl rfl rfl ⟨rfl, rfl, rfl⟩ (.refl s p) (hi.calls p)
  | @logWrite p i hp hheld =>
    exact hi.change hheld rfl rfl rfl ⟨rfl, rfl, rfl⟩ (.refl s p) (hi.calls p)
  | bwrite hp hheld hpc => exact hi.change hheld rfl rfl rfl ⟨rfl, rfl, rfl⟩ hpc hheld
  | brelse hp hheld hpc => exact hi.take hheld rfl rfl rfl hpc

theorem Inv.step_effect (h : s.step act = .ok (r, s')) : Effect s act s' := by
  obtain ⟨l, ho⟩ := hi.order
  exact ho.step_effect h

end

theorem reachable_inv (hr : Reachable disk s) : Inv s := by
  obtain ⟨acts, h⟩ := hr
  refine Runs.run_induct (fun s act s' hi hs => ?_) (Inv.binit disk) h
  obtain ⟨r, hs⟩ := State.next_ok hs
  exact hi.effect (hi.step_effect hs)

/-- **The representation invariant of the buffer cache.** Whenever `bcache.lock` is free, the list
is a ring of all the buffers, no block is cached twice, and a busy buffer has one holder. -/
theorem bcache_representation (hr : Reachable disk s) :
    (∀ x, s.links.prev (s.links.next x) = x ∧ s.links.next (s.links.prev x) = x) ∧
    (∀ i : Slot, ∃! k, k < nbuf ∧ s.links.next^[k + 1] none = some i) ∧
    s.links.next^[nbuf + 1] none = none ∧
    (∀ i j, (s.buf i).dev ≠ nodev → (s.buf i).dev = (s.buf j).dev →
      (s.buf i).blockno = (s.buf j).blockno → i = j) ∧
    ∀ i, (s.buf i).busy = true → ∃! p, i ∈ s.held p := by
  have hi := reachable_inv hr
  obtain ⟨l, ho⟩ := hi.order
  have hlen := ho.length
  have hlen' : (l.map some ++ [none]).length = nbuf + 1 := by
    rw [length_append, length_map, hlen, length_singleton]
  have hall : ∀ x : Node, x ∈ none :: l.map some := fun x => by
    cases x with
    | none => exact mem_cons_self
    | some i => exact mem_cons_of_mem _ (mem_map.mpr ⟨i, ho.all i, rfl⟩)
  have hnth :
      ∀ (k : ℕ) (hk : k < nbuf), s.links.next^[k + 1] none = some (l.get ⟨k, hlen ▸ hk⟩) := by
    intro k hk
    rw [ho.ring.iterate (hlen' ▸ Nat.lt_succ_of_lt hk),
      getElem_append_left (by rw [length_map, hlen]; exact hk), getElem_map]
    rfl
  refine ⟨fun x => ⟨ho.ring.prev_next (hall x), ?_⟩, fun i => ?_, ?_, fun i j hdev hd hn => ?_,
    fun i hb => ?_⟩
  · refine ho.ring.reverse.prev_next ?_
    rw [← map_reverse]
    simpa using hall x
  · obtain ⟨k, hk⟩ := mem_iff_get.mp (ho.all i)
    have hkn : k.val < nbuf := hlen ▸ k.isLt
    refine ⟨k, ⟨hkn, (hnth k hkn).trans (congrArg some hk)⟩, fun m hm => ?_⟩
    have hget := Option.some.inj ((hnth m hm.1).symm.trans hm.2)
    exact congrArg Fin.val (nodup_iff_injective_get.mp ho.nodup (hget.trans hk.symm))
  · rw [ho.ring.iterate (hlen'.symm ▸ Nat.lt_succ_self _)]
    simp [hlen]
  · exact (hi.unique i j hdev ⟨hd.symm, hn.symm⟩).symm
  · obtain ⟨p, hp⟩ := (hi.busy i).mp hb
    exact ⟨p, hp, fun q hq => hi.sole q p i hq hp⟩

/-- Two processes that want the same block: one holds the buffer and the other sleeps. -/
theorem bcache_representation_contended :
    ∃ s, (binit fun _ _ _ => 0).run [.bread 0 1 5, .go 0, .bread 1 1 5, .go 1] = .ok s ∧
      s.pc 1 = .asleep 0 1 5 ∧ ∃! p, 0 ∈ s.held p := by
  obtain ⟨s, hs, htest⟩ := Runs.exists_of_endsIn
    (fun s : State => decide (s.pc 1 = .asleep 0 1 5) && (s.buf 0).busy)
    ((binit fun _ _ _ => 0).run [.bread 0 1 5, .go 0, .bread 1 1 5, .go 1]) (by decide +kernel)
  simp only [Bool.and_eq_true, decide_eq_true_eq] at htest
  exact ⟨s, hs, htest.1, (bcache_representation ⟨_, hs⟩).2.2.2.2 0 htest.2⟩

end Xv6.Bcache
