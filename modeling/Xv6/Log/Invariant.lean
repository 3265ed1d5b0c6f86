import Xv6.Log.Log

/-!
# The invariant of the log

What `read_head`, `write_head` and the loop bodies of `write_log` and `install_trans` do to the
contents of the blocks, and what holds between any two steps of the system.

## The invariant

The disk always stands for the committed groups, in the sense of a redo log; that is the part that
a restart relies on. The rest is about memory and has one form for each phase. While operations
run, every block whose latest content is not on the disk is logged and pinned in the cache. While
`commit` installs, the pinned blocks are those it has not reached yet.

The log has `size - 1` blocks for data. `log_write` tests that there is room for one more, but
without the lock, so several processes can pass the test for the last one. If the log has
`LOGSIZE` blocks, as `mkfs` makes it, there are no more buffers than that, and a group that does
not fit has taken all of them: `commit` then stops at its first `bread` of a log block, before it
has written anything. That is the second alternative of `fits` below.

## Main results

* `getHead_putHead`
* `writeHead_spec`, `writeLogBody_spec`, `installBody_spec` — each is one disk write
* `Inv` — the invariant
-/

namespace Xv6.Log

open ByteMemory RedoLog Function

/-! ### The header block -/

theorem load32_putBlocks_of_lt {x : ℕ} (hx : x % 4 = 0) (L : List ℕ) (d : Block) (i : ℕ)
    (hlt : x < 4 + 4 * i) : load32 (putBlocks d i L) x = load32 d x := by
  induction L generalizing d i with
  | nil => rfl
  | cons b L ih =>
    rw [putBlocks, ih _ _ (by omega), load32_store32_of_ne (by omega) hx (by omega)]

theorem load32_putBlocks (L : List ℕ) (hL : ∀ b ∈ L, b < 2 ^ 32) (d : Block) (i j : ℕ)
    (hj : j < L.length) : load32 (putBlocks d i L) (4 + 4 * (i + j)) = L[j] := by
  induction L generalizing d i j with
  | nil => exact absurd hj (Nat.not_lt_zero j)
  | cons b L ih =>
    cases j with
    | zero =>
      rw [putBlocks, load32_putBlocks_of_lt (by omega) _ _ _ (by omega)]
      exact load32_store32_self (hL b List.mem_cons_self)
    | succ j =>
      have hj' : j < L.length := Nat.lt_of_succ_lt_succ hj
      rw [putBlocks, show i + (j + 1) = i + 1 + j by omega,
        ih (fun c hc => hL c (List.mem_cons_of_mem _ hc)) _ _ _ hj']
      rfl

/-- **The header round trip.** -/
theorem getHead_putHead (d : Block) {L : List ℕ} (hlen : L.length < 2147483648)
    (hL : ∀ b ∈ L, b < 2 ^ 32) : getHead (putHead d L) = L := by
  have hn : load32 (putHead d L) 0 = L.length := by
    rw [putHead, load32_putBlocks_of_lt rfl _ _ _ (by omega), load32_store32_self (by omega)]
  rw [getHead, hn, if_pos hlen]
  refine List.ext_getElem (by simp) fun j hj hj' => ?_
  rw [List.getElem_map, List.getElem_range]
  have h := load32_putBlocks L hL (store32 d 0 L.length) 0 j hj'
  rwa [Nat.zero_add] at h

theorem getHead_putHead_nil (d : Block) : getHead (putHead d []) = [] :=
  getHead_putHead d (by decide) fun b hb => absurd hb List.not_mem_nil

/-! ### The log as a redo log -/

/-- The blocks of the log area. The slot for entry `i` of the header is block `start + i + 1`. -/
def Area.layout (a : Area) : Layout ℕ Block where
  header := a.start
  slot := fun i => a.start + i + 1
  cap := a.size - 1
  home := {b | ¬ a.Contains b}
  entries := getHead
  header_notMem := fun h => h ⟨le_rfl, Nat.lt_add_of_pos_right a.size_pos⟩
  slot_notMem := fun i hi h => h ⟨by omega, by omega⟩
  slot_ne_header := fun i _ => by omega
  slot_inj := fun i _ j _ h => by omega

variable {a : Area} {io io' : Bio} {V : ℕ → Block} {pin : Set ℕ} {mod : Set Slot}
  {lh : List ℕ} {tail : ℕ}

section

variable (h : Coherent io V pin mod)

include h

theorem readHead_spec (hr : readHead a io = .ok (lh, io')) :
    Coherent io' V pin mod ∧ io'.disk = io.disk ∧ Undisturbed io io' ∧
    lh = getHead (V a.start) := by
  unfold readHead at hr
  cases hb : bread io a.start with
  | error e => simp [hb] at hr
  | ok r =>
    obtain ⟨i, io₁⟩ := r
    simp only [hb] at hr
    have ho := h.bread hb
    cases hrel : brelse io₁ i with
    | error e => simp [hrel] at hr
    | ok io₂ =>
      simp only [hrel] at hr
      obtain ⟨rfl, rfl⟩ := Prod.mk.inj (Except.ok.inj hr)
      obtain ⟨hc, hdisk, hbuf⟩ := ho.coherent.brelse (ho.notMem h) hrel
      exact ⟨hc, hdisk.trans ho.disk, ho.undisturbed_trans fun k hk _ => hbuf k hk,
        by rw [ho.data h]⟩

theorem writeHead_spec (hstart : a.start ∉ pin) (hw : writeHead a io lh = .ok io') :
    Coherent io' (update V a.start (putHead (V a.start) lh)) pin mod ∧
      io'.disk = update io.disk a.start (putHead (V a.start) lh) ∧ Undisturbed io io' := by
  unfold writeHead at hw
  cases hb : bread io a.start with
  | error e => simp [hb] at hw
  | ok r =>
    obtain ⟨i, io₁⟩ := r
    simp only [hb] at hw
    have ho := h.bread hb
    have hput := ho.coherent.putData ho.blockno ho.busy (putHead (io₁.buf i).data lh)
    have hself : (putData io₁ i (putHead (io₁.buf i).data lh)).buf i =
        { io₁.buf i with data := putHead (V a.start) lh } := by
      rw [putData, Bio.set_buf_self, ho.data h]
    cases hbw : bwrite (putData io₁ i (putHead (io₁.buf i).data lh)) i with
    | error e => simp [hbw] at hw
    | ok io₂ =>
      simp only [hbw] at hw
      obtain ⟨hc, hdisk, -, hbuf⟩ :=
        hput.bwrite (n := a.start) (by rw [hself]; exact ho.blockno) hbw
      rw [hself, Set.insert_sdiff_self_of_notMem (ho.notMem h),
        Set.sdiff_singleton_eq_self hstart] at hc
      obtain ⟨hc', hdisk', hbuf'⟩ := hc.brelse (ho.notMem h) hw
      refine ⟨hc', ?_, ho.undisturbed_trans fun k hk _ => ?_⟩
      · rw [hdisk', hdisk, hself]
        show update io₁.disk _ _ = _
        rw [ho.disk]
      · rw [hbuf' k hk, hbuf k hk, putData, Bio.set_buf_of_ne _ _ hk]

/-- A pass of `write_log` is one write of a log block, and shows that there was a buffer for it
beside those of the logged blocks. -/
theorem writeLogBody_spec (hslot : a.start + tail + 1 ∉ pin)
    (ht : tail < lh.length) (hw : writeLogBody a io lh tail = .ok io') :
    (Coherent io' (update V (a.start + tail + 1) (V lh[tail])) pin mod ∧
      io'.disk = update io.disk (a.start + tail + 1) (V lh[tail]) ∧ Undisturbed io io') ∧
      (lh.Nodup → (∀ b ∈ lh, b ∈ pin) → lh.length < nbuf) := by
  unfold writeLogBody at hw
  rw [List.getD_eq_getElem _ _ ht] at hw
  cases hb : bread io (a.start + tail + 1) with
  | error e => simp [hb] at hw
  | ok r =>
    obtain ⟨i, io₁⟩ := r
    simp only [hb] at hw
    cases hb' : bread io₁ lh[tail] with
    | error e => simp [hb'] at hw
    | ok r' =>
      obtain ⟨j, io₂⟩ := r'
      simp only [hb'] at hw
      obtain ⟨ho, ho', hkept⟩ := h.bread_two hb hb'
      obtain ⟨hc, hdisk, hbuf⟩ := ho'.coherent.copyTo (hkept ▸ ho.blockno)
        (ho'.data ho.coherent) (hkept ▸ ho.busy) (ho.notMem h) (ho'.notMem ho.coherent) hw
      rw [Set.sdiff_singleton_eq_self hslot] at hc
      refine ⟨⟨hc, ?_, ho.undisturbed_trans fun k hk hbusy => ?_⟩, fun hnd hpin => ?_⟩
      · rw [hdisk, ho'.disk, ho.disk]
      · rw [hbuf k hk (ho'.ne_of_busy hbusy), ho'.undisturbed k hbusy]
      · exact ho.coherent.length_lt hnd hpin (ho.clean hslot)

/-- A pass of `install_trans` is one write of a block outside the log. -/
theorem installBody_spec (ht : tail < lh.length) (hw : installBody a io lh tail = .ok io') :
    Coherent io' (update V lh[tail] (V (a.start + tail + 1))) (pin \ {lh[tail]}) mod ∧
      io'.disk = update io.disk lh[tail] (V (a.start + tail + 1)) ∧ Undisturbed io io' := by
  unfold installBody at hw
  rw [List.getD_eq_getElem _ _ ht] at hw
  cases hb : bread io (a.start + tail + 1) with
  | error e => simp [hb] at hw
  | ok r =>
    obtain ⟨i, io₁⟩ := r
    simp only [hb] at hw
    cases hb' : bread io₁ lh[tail] with
    | error e => simp [hb'] at hw
    | ok r' =>
      obtain ⟨j, io₂⟩ := r'
      simp only [hb'] at hw
      obtain ⟨ho, ho', hkept⟩ := h.bread_two hb hb'
      have hdata : (io₂.buf i).data = V (a.start + tail + 1) := by
        rw [hkept, ho.data h]
      obtain ⟨hc, hdisk, hbuf⟩ := ho'.coherent.copyTo ho'.blockno hdata ho'.busy
        (ho'.notMem ho.coherent) (ho.notMem h) hw
      refine ⟨hc, ?_, ho.undisturbed_trans fun k hk hbusy => ?_⟩
      · rw [hdisk, ho'.disk, ho.disk]
      · rw [hbuf k (ho'.ne_of_busy hbusy) hk, ho'.undisturbed k hbusy]

end

/-! ### The invariant -/

/-- The contents the disk stands for: those of the committed groups. -/
def Hist.committed (init : ℕ → Block) (h : Hist) : ℕ → Block :=
  applyGroups init (h.groups.take h.durable)

/-- The contents a process sees: those of all groups and of the one that is open. -/
def Hist.latest (init : ℕ → Block) (h : Hist) : ℕ → Block :=
  applyEvents (applyGroups init h.groups) h.current

/-- The blocks that are newer in the cache than on the disk. -/
def pinned : Phase → List ℕ → Set ℕ
  | .running, lh | .writeLog _, lh => {b | b ∈ lh}
  | .install tail, lh => {b | b ∈ lh.drop tail}
  | _, _ => ∅

/-- The buffers that have been changed and not logged. -/
def modifying (use : Slot → Use) : Set Slot := {i | ∃ p, use i = .modified p}

section

variable (a : Area) (init : ℕ → Block) (lh : List ℕ) (committing : Bool) (h : Hist) (V : ℕ → Block)

/-- Operations are running: the on-disk header is clear and every block that has changed is
logged. -/
structure Running : Prop where
  committing : committing = false
  clear : getHead (V a.start) = []
  nodup : lh.Nodup
  home : ∀ b ∈ lh, ¬ a.Contains b
  fits : lh.length < a.size ∨ logsize ≤ a.size
  view : ∀ b, ¬ a.Contains b → V b = h.latest init b
  durable : h.durable = h.groups.length

/-- `commit` is copying the logged blocks to the log. -/
structure WritingLog (tail : ℕ) : Prop where
  committing : committing = true
  clear : getHead (V a.start) = []
  ne_nil : lh ≠ []
  nodup : lh.Nodup
  home : ∀ b ∈ lh, ¬ a.Contains b
  /-- The log has a block for each, as the first copy shows if the tests of `log_write` did
  not. -/
  fits : lh.length < a.size ∨ tail = 0 ∧ logsize ≤ a.size
  view : ∀ b, ¬ a.Contains b → V b = h.latest init b
  current : h.current = []
  le_length : tail ≤ lh.length
  slots : SlotsHold a.layout V lh tail V

/-- `commit` is copying the log to the blocks' homes. -/
structure Installing (tail : ℕ) : Prop where
  committing : committing = true
  header : getHead (V a.start) = lh
  home : ∀ b ∈ lh, ¬ a.Contains b
  view : ∀ b, ¬ a.Contains b → V b = h.latest init b
  current : h.current = []
  le_length : tail ≤ lh.length
  durable : h.durable = h.groups.length

/-- `commit` has returned. -/
structure Done : Prop where
  committing : committing = true
  lh : lh = []
  clear : getHead (V a.start) = []
  view : ∀ b, ¬ a.Contains b → V b = h.latest init b
  current : h.current = []

/-- `recover_from_log` is copying the log to the blocks' homes. -/
structure Reinstalling (tail : ℕ) : Prop where
  committing : committing = false
  header : getHead (V a.start) = lh
  current : h.current = []
  le_length : tail ≤ lh.length
  installed : Installed lh tail V (h.committed init)

/-- What holds in each phase. `V` gives every block's content as a reader of the cache sees it. -/
def Stage : Phase → Prop
  | .running => Running a init lh committing h V
  | .writeLog tail => WritingLog a init lh committing h V tail
  | .install tail => Installing a init lh committing h V tail
  | .done => Done a init lh committing h V
  | .readHead => lh = [] ∧ committing = false ∧ h.current = []
  | .reinstall tail => Reinstalling a init lh committing h V tail

end

/-- These many operations are open, of these processes. -/
def Ops (g : List Event) (outstanding : ℕ) (proc : ℕ → Pc) : Prop :=
  ∃ A, openAfter g = some A ∧ A.card = outstanding ∧ ∀ p, p ∈ A ↔ proc p ≠ .idle

/-- The invariant of the log. -/
structure Inv (a : Area) (init : ℕ → Block) (s : Sys) (h : Hist) (V : ℕ → Block) : Prop where
  coherent : Coherent s.io V (pinned s.phase s.lh) (modifying s.use)
  held : ∀ i, s.use i ≠ .free → (s.io.buf i).busy = true
  recoverable : Recoverable a.layout s.io.disk (h.committed init)
  whole : ∀ g ∈ h.groups, Whole g
  returned_le : h.returned ≤ h.durable
  durable_le : h.durable ≤ h.groups.length
  ops : Ops h.current s.outstanding s.proc
  stage : Stage a init s.lh s.committing h V s.phase

variable {init : ℕ → Block} {s s' : Sys} {h h' : Hist} {p : ℕ}

theorem Inv.idle (hi : Inv a init s h V) (hc : h.current = []) : ∀ p, s.proc p = .idle := by
  obtain ⟨A, hA, -, hproc⟩ := hi.ops
  rw [hc] at hA
  obtain rfl : ∅ = A := Option.some.inj hA
  intro p
  by_contra hp
  exact absurd ((hproc p).mpr hp) (Finset.notMem_empty p)

theorem Inv.running (hi : Inv a init s h V) (hp : s.proc p ≠ .idle) : s.phase = .running := by
  have hst := hi.stage
  have hopen : h.current ≠ [] := fun hc => hp (hi.idle hc p)
  cases hph : s.phase with
  | running => rfl
  | writeLog t => rw [hph] at hst; exact absurd hst.current hopen
  | install t => rw [hph] at hst; exact absurd hst.current hopen
  | done => rw [hph] at hst; exact absurd hst.current hopen
  | readHead => rw [hph] at hst; exact absurd hst.2.2 hopen
  | reinstall t => rw [hph] at hst; exact absurd hst.current hopen

theorem Inv.running_of_booted (hi : Inv a init s h V) (hb : s.phase.Booted)
    (hc : s.committing = false) : s.phase = .running := by
  have hst := hi.stage
  cases hph : s.phase with
  | running => rfl
  | writeLog t => rw [hph] at hst; exact absurd (hc.symm.trans hst.committing) Bool.false_ne_true
  | install t => rw [hph] at hst; exact absurd (hc.symm.trans hst.committing) Bool.false_ne_true
  | done => rw [hph] at hst; exact absurd (hc.symm.trans hst.committing) Bool.false_ne_true
  | readHead => rw [hph] at hb; exact hb.elim
  | reinstall t => rw [hph] at hb; exact hb.elim

end Xv6.Log
