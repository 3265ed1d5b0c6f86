import Mathlib.Data.UInt
import Xv6.Library.RingBuffer
import Xv6.Library.Runs

/-!
# The line discipline of the console

`consoleintr` and `consoleread` of `console.c`. Characters that have been typed are in a ring buffer
with three free-running indices: readers take from `r` up to `w`, and from `w` to `e` is the line
that can still be edited.

The reference has a queue of committed bytes and the line, as lists. It sees the same things happen
in the same order: a character is typed, a process calls `consoleread`, and a call goes once round
its loop. The histories of what readers get are those of the code.

All of it is done with `cons.lock` held, which a reader gives up to sleep. A character, and a round
of the loop of a reader, are one step. What is printed is left out, and so is the process listing
that ^P asks for.

## Main definitions

* `Input`, `State` — the code
* `Line`, `Ref` — the reference

## Main results

* `Rep.key`, `Rep.take` — the code does to the ring buffer what the reference does to the lists
* `line_discipline` — readers get what the reference gives them
-/

namespace Xv6.Console

open RingBuffer Function List

/-! ### The code -/

/-- `INPUT_BUF`. -/
abbrev inputBuf : ℕ := 128

theorem inputBuf_lt : inputBuf < 2 ^ 32 := by decide

/-- `C(x)`. -/
def ctrl (x : Char) : UInt8 := x.toUInt8 - '@'.toUInt8

/-- `'\n'`. -/
def newline : UInt8 := '\n'.toUInt8

/-- `input`. -/
structure Input where
  buf : ℕ → UInt8
  r : UInt32
  w : UInt32
  e : UInt32

/-- `i % INPUT_BUF`. -/
def slot (i : UInt32) : ℕ := (i % UInt32.ofNat inputBuf).toNat

namespace Input

variable (x : Input)

/-- The loop that kills the line. Each round steps back towards `w`. -/
def killLoop : ℕ → Input → Input
  | 0, x => x
  | k + 1, x =>
    if x.e ≠ x.w ∧ x.buf (slot (x.e - 1)) ≠ newline then killLoop k { x with e := x.e - 1 } else x

/-- Store a character, and say whether readers are woken. -/
def put (c : UInt8) : Input × Bool :=
  if c ≠ 0 ∧ x.e - x.r < UInt32.ofNat inputBuf then
    let c := if c = '\r'.toUInt8 then newline else c
    let x := { x with buf := update x.buf (slot x.e) c, e := x.e + 1 }
    if c = newline ∨ c = ctrl 'D' ∨ x.e = x.r + UInt32.ofNat inputBuf then
      ({ x with w := x.e }, true)
    else (x, false)
  else (x, false)

/-- A round of the loop of `consoleintr`: what a character does, and whether readers are woken. -/
def key (c : UInt8) : Input × Bool :=
  if c = ctrl 'P' then (x, false)
  else if c = ctrl 'U' then (x.killLoop (x.e - x.w).toNat, false)
  else if c = ctrl 'H' ∨ c = 0x7f then
    (if x.e ≠ x.w then { x with e := x.e - 1 } else x, false)
  else x.put c

end Input

/-- Where a process is in `consoleread`. -/
inductive Rd
  | acquire
  | loop
  | asleep (woken : Bool)
  /-- In `sleep`: `acquire(&cons.lock)`. -/
  | relock
  | release

/-- What a process does. -/
inductive Pc
  | out
  | read (target n : ℕ) (pos : Rd)
  /-- `consoleintr` before it has the lock, with the characters to come. -/
  | intr (cs : List UInt8)
  | intrLoop (cs : List UInt8)

/-- What matters for readers. -/
inductive Event (ι : Type)
  | key (c : UInt8)
  | call (p : ι) (n : ℕ)
  | round (p : ι)
  | fail (p : ι)

/-- The console and the processes. -/
structure State (ι : Type) where
  lock : Option ι
  input : Input
  killed : ι → Bool
  pc : ι → Pc
  /-- The bytes that readers have got. No step looks at it. -/
  out : List (ι × UInt8)
  /-- What calls have returned. No step looks at it. -/
  results : List (ι × ℤ)
  /-- What has happened. No step looks at it. -/
  hist : List (Event ι)

/-- What can happen. -/
inductive Act (ι : Type)
  | call (p : ι) (n : ℕ)
  /-- `consoleintr` is called, and `getc` gives these characters. -/
  | intr (p : ι) (cs : List UInt8)
  | kill (p : ι)
  | go (p : ι)

/-- Why a step does not take place. -/
inductive Stuck
  | disabled

/-- What waking does to a process. -/
def Pc.wake : Pc → Pc
  | .read t n (.asleep _) => .read t n (.asleep true)
  | c => c

namespace State

variable {ι : Type} [DecidableEq ι] (s : State ι)

/-- The state with process `p` somewhere else. -/
def setPc (p : ι) (c : Pc) : State ι := { s with pc := update s.pc p c }

/-- The state with one more thing that has happened. -/
def note (ev : Event ι) : State ι := { s with hist := s.hist ++ [ev] }

/-- Take `cons.lock`, and go on at `c`. -/
def acquire (p : ι) (c : Pc) : Except Stuck (State ι) :=
  if s.lock = none then .ok { s.setPc p c with lock := some p } else .error .disabled

/-- A call leaves its loop. -/
def leave (p : ι) (target n : ℕ) (ret : ℤ) : State ι :=
  { s.setPc p (.read target n .release) with results := s.results ++ [(p, ret)] }

/-- A round of the loop of `consoleread` when there is input. -/
def take (p : ι) (target n : ℕ) : State ι :=
  let c := s.input.buf (slot s.input.r)
  let s' := { s with input := { s.input with r := s.input.r + 1 } }
  if c = ctrl 'D' then
    -- save ^D for next time, to make sure caller gets a 0-byte result
    if n < target then
      { s' with input := { s'.input with r := s'.input.r - 1 } }.leave p target n (target - n : ℕ)
    else s'.leave p target n (target - n : ℕ)
  else
    let s' := { s' with out := s'.out ++ [(p, c)] }
    let n := n - 1
    if c = newline then s'.leave p target n (target - n : ℕ)
    else s'.setPc p (.read target n .loop)

theorem take_hist (p : ι) (target n : ℕ) : (s.take p target n).hist = s.hist := by
  unfold take
  dsimp only
  repeat' split
  all_goals rfl

/-- The loop of `consoleread`. -/
def readLoop (p : ι) (target n : ℕ) : State ι :=
  if 0 < n then
    if s.input.r = s.input.w then
      if s.killed p then (s.leave p target n (-1)).note (.fail p)
      else { s.setPc p (.read target n (.asleep false)) with lock := none }
    else (s.take p target n).note (.round p)
  else (s.leave p target n (target - n : ℕ)).note (.round p)

/-- One step of `consoleread`. -/
def consoleread (p : ι) (target n : ℕ) : Rd → Except Stuck (State ι)
  | .acquire => s.acquire p (.read target n .loop)
  | .loop => .ok (s.readLoop p target n)
  | .asleep woken =>
    if woken then .ok (s.setPc p (.read target n .relock)) else .error .disabled
  | .relock => s.acquire p (.read target n .loop)
  | .release => .ok { s.setPc p .out with lock := none }

/-- Wake up the readers that sleep. -/
def wakeup : State ι := { s with pc := fun q => (s.pc q).wake }

/-- The loop of `consoleintr`. -/
def intrLoop (p : ι) : List UInt8 → State ι
  | [] => { s.setPc p .out with lock := none }
  | c :: cs =>
    let r := s.input.key c
    let s' := { s with input := r.1 }
    ((if r.2 then s'.wakeup else s').setPc p (.intrLoop cs)).note (.key c)

/-- One step. -/
def step : Act ι → Except Stuck (State ι)
  | .call p n =>
    match s.pc p with
    | .out => .ok ((s.setPc p (.read n n .acquire)).note (.call p n))
    | _ => .error .disabled
  | .intr p cs =>
    match s.pc p with
    | .out => .ok (s.setPc p (.intr cs))
    | _ => .error .disabled
  | .kill p =>
    .ok { s.setPc p (s.pc p).wake with killed := update s.killed p true }
  | .go p =>
    match s.pc p with
    | .out => .error .disabled
    | .read target n pos => s.consoleread p target n pos
    | .intr cs => s.acquire p (.intrLoop cs)
    | .intrLoop cs => .ok (s.intrLoop p cs)

end State

/-- The console when the machine has started. -/
def State.init {ι : Type} (buf : ℕ → UInt8) : State ι :=
  ⟨none, ⟨buf, 0, 0, 0⟩, fun _ => false, fun _ => .out, [], [], []⟩

/-! ### The reference -/

/-- The bytes that have been typed and not read. -/
structure Line where
  committed : List UInt8
  edit : List UInt8

/-- A character is typed. -/
def Line.key (l : Line) (c : UInt8) : Line :=
  if c = ctrl 'P' then l
  else if c = ctrl 'U' then { l with edit := [] }
  else if c = ctrl 'H' ∨ c = 0x7f then { l with edit := l.edit.dropLast }
  else if c = 0 ∨ inputBuf ≤ l.committed.length + l.edit.length then l
  else
    let c := if c = '\r'.toUInt8 then newline else c
    let edit := l.edit ++ [c]
    if c = newline ∨ c = ctrl 'D' ∨ l.committed.length + edit.length = inputBuf then
      ⟨l.committed ++ edit, []⟩
    else ⟨l.committed, edit⟩

/-- The reference: the bytes, the calls with what they asked for and what is left to get, and the
histories. -/
structure Ref (ι : Type) where
  line : Line
  reads : ι → Option (ℕ × ℕ)
  out : List (ι × UInt8)
  results : List (ι × ℤ)

namespace Ref

variable {ι : Type} [DecidableEq ι] (x : Ref ι)

/-- The call of process `p` is over. -/
def leave (p : ι) (ret : ℤ) : Ref ι :=
  { x with reads := update x.reads p none, results := x.results ++ [(p, ret)] }

/-- A reader gets the first of the committed bytes. The call is over at a newline, or at ^D, which
stays there unless the call has got nothing. -/
def take (p : ι) (target n : ℕ) (b : UInt8) (rest : List UInt8) : Ref ι :=
  if b = ctrl 'D' then
    if n < target then x.leave p (target - n : ℕ)
    else { x with line := { x.line with committed := rest } }.leave p 0
  else
    let x := { x with line := { x.line with committed := rest }, out := x.out ++ [(p, b)] }
    if b = newline then x.leave p (target - (n - 1) : ℕ)
    else { x with reads := update x.reads p (some (target, n - 1)) }

/-- What happens. A call waits while there are no committed bytes. -/
def step : Event ι → Option (Ref ι)
  | .key c => some { x with line := x.line.key c }
  | .call p n => some { x with reads := update x.reads p (some (n, n)) }
  | .round p =>
    match x.reads p, x.line.committed with
    | none, _ => none
    | some (target, 0), _ => some (x.leave p target)
    | some (_, _ + 1), [] => none
    | some (target, n + 1), b :: rest => some (x.take p target (n + 1) b rest)
  | .fail p => if x.line.committed = [] then some (x.leave p (-1)) else none

/-- Nothing has been typed. -/
def init : Ref ι := ⟨⟨[], []⟩, fun _ => none, [], []⟩

/-- All that happens. -/
def run (hist : List (Event ι)) : Option (Ref ι) :=
  hist.foldl (fun o ev => o.bind fun x => x.step ev) (some init)

theorem run_append {hist : List (Event ι)} {x : Ref ι} (h : run hist = some x) (ev : Event ι) :
    run (hist ++ [ev]) = x.step ev := by
  rw [run, foldl_append]
  exact congrArg (fun o => Option.bind o fun x => x.step ev) h

end Ref

/-! ### The ring buffer has the bytes of the reference -/

/-- The index counts to `n`, as far as it can. -/
def Counts (i : UInt32) (n : ℕ) : Prop := i.toNat = n % 2 ^ 32

section Counts

variable {i j : UInt32} {n m : ℕ}

theorem Counts.slot (h : Counts i n) : slot i = n % inputBuf := by
  rw [Console.slot, UInt32.toNat_mod, h]
  exact Nat.mod_mod_of_dvd n (by decide)

theorem Counts.succ (h : Counts i n) : Counts (i + 1) (n + 1) := by
  rw [Counts, UInt32.toNat_add, h]
  exact Nat.mod_add_mod n (2 ^ 32) 1

theorem Counts.pred (h : Counts i (n + 1)) : Counts (i - 1) n := by
  rw [Counts, UInt32.toNat_sub, h, show (1 : UInt32).toNat = 1 from rfl]
  omega

theorem Counts.sub (hi : Counts i n) (hj : Counts j m) (hle : m ≤ n) (hlt : n - m < 2 ^ 32) :
    (i - j).toNat = n - m := by
  rw [UInt32.toNat_sub, hi, hj]
  exact RingBuffer.sub_eq hle hlt

theorem Counts.eq_iff (hi : Counts i n) (hj : Counts j m) (hle : m ≤ n) (hlt : n - m < 2 ^ 32) :
    j = i ↔ n = m := by
  rw [← UInt32.toNat_inj, hi, hj]
  exact mod_eq_iff hle hlt

end Counts

/-- The ring buffer has the bytes of the reference, after those that have been taken. -/
structure Rep (x : Input) (taken : List UInt8) (l : Line) : Prop where
  holds : Holds inputBuf x.buf (taken ++ l.committed ++ l.edit) taken
  r : Counts x.r taken.length
  w : Counts x.w (taken.length + l.committed.length)
  e : Counts x.e (taken.length + l.committed.length + l.edit.length)

namespace Rep

variable {x : Input} {taken : List UInt8} {l : Line} (h : Rep x taken l)

include h

theorem room : l.committed.length + l.edit.length ≤ inputBuf := by
  have hroom := h.holds.room
  simp only [length_append] at hroom
  omega

theorem lt_two_pow : l.committed.length + l.edit.length < 2 ^ 32 :=
  h.room.trans_lt inputBuf_lt

theorem sub_w : (x.w - x.r).toNat = l.committed.length := by
  have hlt := h.lt_two_pow
  rw [h.w.sub h.r (Nat.le_add_right _ _) (by omega), Nat.add_sub_cancel_left]

theorem sub_e : (x.e - x.r).toNat = l.committed.length + l.edit.length := by
  have hlt := h.lt_two_pow
  rw [h.e.sub h.r (by omega) (by omega)]
  omega

theorem sub_edit : (x.e - x.w).toNat = l.edit.length := by
  have hlt := h.lt_two_pow
  rw [h.e.sub h.w (Nat.le_add_right _ _) (by omega), Nat.add_sub_cancel_left]

theorem r_eq_w : x.r = x.w ↔ l.committed = [] := by
  have hlt := h.lt_two_pow
  rw [h.w.eq_iff h.r (Nat.le_add_right _ _) (by omega), ← length_eq_zero_iff]
  omega

theorem e_eq_w : x.e = x.w ↔ l.edit = [] := by
  have hlt := h.lt_two_pow
  rw [eq_comm, h.e.eq_iff h.w (Nat.le_add_right _ _) (by omega), ← length_eq_zero_iff]
  omega

theorem e_sub_lt : x.e - x.r < UInt32.ofNat inputBuf ↔
    l.committed.length + l.edit.length < inputBuf := by
  rw [UInt32.lt_iff_toNat_lt, h.sub_e]
  rfl

theorem full_iff : x.e = x.r + UInt32.ofNat inputBuf ↔
    l.committed.length + l.edit.length = inputBuf := by
  have hroom := h.room
  rw [← UInt32.toNat_inj, UInt32.toNat_add, h.e, h.r,
    show (UInt32.ofNat inputBuf).toNat = inputBuf from rfl,
    RingBuffer.full_iff (by omega) (by omega) (by decide)]
  omega

theorem store (c : UInt8) (hroom : l.committed.length + l.edit.length < inputBuf) :
    Rep { x with buf := update x.buf (slot x.e) c, e := x.e + 1 } taken
      ⟨l.committed, l.edit ++ [c]⟩ := by
  refine ⟨?_, h.r, h.w, ?_⟩
  · have hput := h.holds.put c (by simp only [length_append]; omega)
    simp only [h.e.slot]
    simpa only [length_append, append_assoc, Nat.add_assoc] using hput
  · have hsucc := h.e.succ
    simpa only [length_append, length_singleton, ← Nat.add_assoc] using hsucc

theorem commit : Rep { x with w := x.e } taken ⟨l.committed ++ l.edit, []⟩ := by
  refine ⟨?_, h.r, ?_, ?_⟩
  · simpa using h.holds
  · simpa [Nat.add_assoc] using h.e
  · simpa [Nat.add_assoc] using h.e

theorem last {edit : List UInt8} {c : UInt8} (hedit : l.edit = edit ++ [c]) :
    x.buf (slot (x.e - 1)) = c := by
  have he := h.e
  have hslot := h.holds.slot (taken.length + l.committed.length + edit.length)
  rw [hedit, length_append, length_singleton, ← Nat.add_assoc] at he
  rw [he.pred.slot]
  rw [hedit] at hslot
  simpa [List.getElem?_append_right, Nat.add_assoc] using (hslot (by omega) (by simp; omega)).symm

theorem erase {edit : List UInt8} {c : UInt8} (hedit : l.edit = edit ++ [c]) :
    Rep { x with e := x.e - 1 } taken ⟨l.committed, edit⟩ := by
  have he := h.e
  have hholds := h.holds
  rw [hedit, length_append, length_singleton, ← Nat.add_assoc] at he
  rw [hedit, ← append_assoc] at hholds
  exact ⟨hholds.unput (by simp), h.r, h.w, he.pred⟩

omit h in
/-- **The line is killed.** There is no newline in it, so the loop comes to `w`. -/
theorem killLoop {committed edit : List UInt8} (h : Rep x taken ⟨committed, edit⟩)
    (hline : newline ∉ edit) : Rep (x.killLoop edit.length) taken ⟨committed, []⟩ := by
  induction edit using List.reverseRecOn generalizing x with
  | nil => exact h
  | append_singleton edit c ih =>
    have hne : x.e ≠ x.w := fun heq => by simpa using h.e_eq_w.mp heq
    have hc : x.buf (slot (x.e - 1)) ≠ newline := by
      rw [h.last rfl]
      rintro rfl
      exact hline (by simp)
    rw [length_append, length_singleton, Input.killLoop, if_pos ⟨hne, hc⟩]
    exact ih (h.erase rfl) fun hmem => hline (mem_append_left _ hmem)

/-- **A reader takes a byte.** -/
theorem take {b : UInt8} {rest : List UInt8} (hb : l.committed = b :: rest) : x.buf (slot x.r) = b ∧
      Rep { x with r := x.r + 1 } (taken ++ [b]) ⟨rest, l.edit⟩ := by
  have hholds := h.holds.take (by simp [hb])
  have hw := h.w
  have he := h.e
  rw [← h.r.slot] at hholds
  rw [hb, length_cons] at hw he
  obtain rfl : x.buf (slot x.r) = b := by
    have horder := hholds.order
    rw [hb, append_assoc, cons_append, prefix_append_right_inj] at horder
    simpa using horder
  refine ⟨rfl, ?_, ?_, ?_, ?_⟩
  · simpa [hb] using hholds
  · simpa using h.r.succ
  · simpa [Nat.add_assoc, Nat.add_comm, Nat.add_left_comm] using hw
  · simpa [Nat.add_assoc, Nat.add_comm, Nat.add_left_comm] using he

theorem put {c : UInt8} (hp : c ≠ ctrl 'P') (hu : c ≠ ctrl 'U') (hh : ¬(c = ctrl 'H' ∨ c = 0x7f))
    (hline : newline ∉ l.edit) : Rep (x.put c).1 taken (l.key c) ∧ newline ∉ (l.key c).edit ∧
      ((x.put c).2 = false → (l.key c).committed = l.committed) := by
  rw [Line.key, if_neg hp, if_neg hu, if_neg hh, Input.put]
  by_cases hdrop : c = 0 ∨ inputBuf ≤ l.committed.length + l.edit.length
  · rw [if_pos hdrop, if_neg fun hstore => ?_]
    · exact ⟨h, hline, fun _ => rfl⟩
    · rw [h.e_sub_lt] at hstore
      exact hdrop.elim hstore.1 (Nat.not_le.mpr hstore.2)
  obtain ⟨hc, hroom⟩ := not_or.mp hdrop
  rw [if_neg hdrop, if_pos ⟨hc, h.e_sub_lt.mpr (Nat.not_le.mp hroom)⟩]
  have hstore := h.store (if c = '\r'.toUInt8 then newline else c) (Nat.not_le.mp hroom)
  have hfull := hstore.full_iff
  generalize (if c = '\r'.toUInt8 then newline else c) = c' at hstore hfull ⊢
  dsimp only at hfull ⊢
  by_cases hcommit : c' = newline ∨ c' = ctrl 'D' ∨
      l.committed.length + (l.edit ++ [c']).length = inputBuf
  · rw [if_pos hcommit, if_pos (hcommit.imp_right (Or.imp_right hfull.mpr))]
    exact ⟨hstore.commit, not_mem_nil, fun hw => by cases hw⟩
  · rw [if_neg hcommit, if_neg fun h' => hcommit (h'.imp_right (Or.imp_right hfull.mp))]
    refine ⟨hstore, fun hmem => ?_, fun _ => rfl⟩
    rcases mem_append.mp hmem with hmem | hmem
    · exact hline hmem
    · exact hcommit (Or.inl (mem_singleton.mp hmem).symm)

/-- **A character does to the ring buffer what it does to the lists**, and readers are woken when
there is something for them. -/
theorem key (c : UInt8) (hline : newline ∉ l.edit) :
    Rep (x.key c).1 taken (l.key c) ∧ newline ∉ (l.key c).edit ∧
      ((x.key c).2 = false → (l.key c).committed = l.committed) := by
  rw [Input.key]
  by_cases hp : c = ctrl 'P'
  · rw [if_pos hp, Line.key, if_pos hp]
    exact ⟨h, hline, fun _ => rfl⟩
  rw [if_neg hp]
  by_cases hu : c = ctrl 'U'
  · rw [if_pos hu, Line.key, if_neg hp, if_pos hu, h.sub_edit]
    exact ⟨killLoop h hline, not_mem_nil, fun _ => rfl⟩
  rw [if_neg hu]
  by_cases hh : c = ctrl 'H' ∨ c = 0x7f
  · rw [if_pos hh, Line.key, if_neg hp, if_neg hu, if_pos hh]
    refine ⟨?_, fun hmem => hline (mem_of_mem_dropLast hmem), fun _ => rfl⟩
    rcases eq_nil_or_concat l.edit with hnil | ⟨edit, d, hedit⟩
    · rw [if_neg (not_not.mpr (h.e_eq_w.mpr hnil)), hnil, dropLast_nil, ← hnil]
      exact h
    · rw [if_pos fun heq => by simp [h.e_eq_w.mp heq] at hedit, hedit, concat_eq_append,
        dropLast_concat]
      exact h.erase (by rw [hedit, concat_eq_append])
  · rw [if_neg hh]
    exact h.put hp hu hh hline

end Rep

/-! ### The code does what the reference does -/

namespace Pc

/-- The call of `consoleread` that a process is in, until it leaves the loop. -/
def call : Pc → Option (ℕ × ℕ)
  | .read _ _ .release => none
  | .read target n _ => some (target, n)
  | _ => none

theorem wake_call (c : Pc) : c.wake.call = c.call := by
  unfold wake
  split <;> rfl

theorem wake_ne (c : Pc) (target n : ℕ) : c.wake ≠ .read target n (.asleep false) := by
  unfold wake
  split
  · simp
  · exact fun heq => absurd heq (by rename_i hne; exact hne target n false)

end Pc

section Sim

variable {ι : Type} {s s' : State ι} {taken : List UInt8} {x : Ref ι}

/-- The state and the reference agree. -/
structure Rel (s : State ι) (taken : List UInt8) (x : Ref ι) : Prop where
  rep : Rep s.input taken x.line
  line : newline ∉ x.line.edit
  reads : ∀ p, x.reads p = (s.pc p).call
  out : x.out = s.out
  results : x.results = s.results
  asleep : ∀ p target n, s.pc p = .read target n (.asleep false) → x.line.committed = []

namespace Rel

theorem init (buf : ℕ → UInt8) : Rel (State.init buf : State ι) [] Ref.init where
  rep := ⟨Holds.empty _ _, rfl, rfl, rfl⟩
  line := not_mem_nil
  reads _ := rfl
  out := rfl
  results := rfl
  asleep _ _ _ h := nomatch h

variable (h : Rel s taken x)

include h

theorem frame {lock : Option ι} {killed : ι → Bool} {hist : List (Event ι)} :
    Rel { s with lock := lock, killed := killed, hist := hist } taken x :=
  ⟨h.rep, h.line, h.reads, h.out, h.results, h.asleep⟩

theorem key (c : UInt8) :
    Rel (if (s.input.key c).2 then { s with input := (s.input.key c).1 }.wakeup
      else { s with input := (s.input.key c).1 }) taken { x with line := x.line.key c } := by
  obtain ⟨hrep, hline, hwoken⟩ := h.rep.key c h.line
  split
  · refine ⟨hrep, hline, fun p => ?_, h.out, h.results, fun p target n hp => ?_⟩
    · exact (h.reads p).trans (s.pc p).wake_call.symm
    · exact absurd hp (Pc.wake_ne _ _ _)
  · refine ⟨hrep, hline, h.reads, h.out, h.results, fun p target n hp => ?_⟩
    rw [hwoken (by simpa using ‹¬(s.input.key c).2 = true›)]
    exact h.asleep p target n hp

variable [DecidableEq ι]

theorem setPc (p : ι) (c : Pc)
    (hc : ∀ target n, c = .read target n (.asleep false) → x.line.committed = []) :
    Rel (s.setPc p c) taken { x with reads := update x.reads p c.call } := by
  refine ⟨h.rep, h.line, fun q => ?_, h.out, h.results, fun q target n hq => ?_⟩
  · by_cases hqp : q = p
    · subst hqp
      simp [State.setPc]
    · simp [State.setPc, hqp, h.reads q]
  · by_cases hqp : q = p
    · subst hqp
      exact hc target n (by simpa [State.setPc] using hq)
    · exact h.asleep q target n (by simpa [State.setPc, hqp] using hq)

theorem goOn {p : ι} {c : Pc} (hcall : c.call = (s.pc p).call)
    (hc : ∀ target n, c = .read target n (.asleep false) → x.line.committed = []) :
    Rel (s.setPc p c) taken x := by
  have hset := h.setPc p c hc
  rwa [hcall, ← h.reads, update_eq_self] at hset

theorem leave (p : ι) (target n : ℕ) (ret : ℤ) :
    Rel (s.leave p target n ret) taken (x.leave p ret) := by
  have hset := h.setPc p (.read target n .release) fun _ _ heq => by cases heq
  refine ⟨hset.rep, hset.line, hset.reads, hset.out, ?_, hset.asleep⟩
  exact congrArg (· ++ [(p, ret)]) h.results

theorem take (p : ι) (target n : ℕ) {b : UInt8} {rest : List UInt8}
    (hb : x.line.committed = b :: rest) :
    ∃ taken', Rel (s.take p target n) taken' (x.take p target n b rest) := by
  obtain ⟨hslot, hrep⟩ := h.rep.take hb
  -- Nobody sleeps, as there are committed bytes.
  have hawake : ∀ q t m, s.pc q ≠ .read t m (.asleep false) := fun q t m hq => by
    rw [h.asleep q t m hq] at hb
    cases hb
  have htaken : Rel { s with input := { s.input with r := s.input.r + 1 } } (taken ++ [b])
      { x with line := { x.line with committed := rest } } :=
    ⟨hrep, h.line, h.reads, h.out, h.results, fun q t m hq => absurd hq (hawake q t m)⟩
  rw [State.take, Ref.take, hslot]
  by_cases hd : b = ctrl 'D'
  · rw [if_pos hd, if_pos hd]
    by_cases hn : n < target
    · rw [if_pos hn, if_pos hn]
      dsimp only
      rw [UInt32.add_sub_cancel]
      exact ⟨taken, h.leave p target n _⟩
    · rw [if_neg hn, if_neg hn, Nat.sub_eq_zero_of_le (Nat.not_lt.mp hn)]
      exact ⟨_, htaken.leave p target n _⟩
  · rw [if_neg hd, if_neg hd]
    have hgot : Rel { s with
          input := { s.input with r := s.input.r + 1 }, out := s.out ++ [(p, b)] } (taken ++ [b])
        { x with line := { x.line with committed := rest }, out := x.out ++ [(p, b)] } :=
      ⟨hrep, h.line, h.reads, congrArg (· ++ [(p, b)]) h.out, h.results, htaken.asleep⟩
    by_cases hnl : b = newline
    · simp only [if_pos hnl]
      exact ⟨_, hgot.leave p target (n - 1) _⟩
    · simp only [if_neg hnl]
      exact ⟨_, hgot.setPc p (.read target (n - 1) .loop) fun _ _ heq => by cases heq⟩

end Rel

variable [DecidableEq ι]

/-- The reference, when it sees the same things happen, agrees with the state. -/
def Inv (s : State ι) : Prop := ∃ taken x, Ref.run s.hist = some x ∧ Rel s taken x

namespace Inv

theorem init (buf : ℕ → UInt8) : Inv (State.init buf : State ι) := ⟨[], _, rfl, Rel.init buf⟩

theorem quiet (hi : Inv s) (hhist : s'.hist = s.hist)
    (h : ∀ taken x, Rel s taken x → Rel s' taken x) : Inv s' := by
  obtain ⟨taken, x, hrun, hrel⟩ := hi
  exact ⟨taken, x, hhist ▸ hrun, h taken x hrel⟩

theorem event (hi : Inv s) {ev : Event ι} (hhist : s'.hist = s.hist ++ [ev])
    (h : ∀ taken x, Rel s taken x → ∃ taken' x', x.step ev = some x' ∧ Rel s' taken' x') :
    Inv s' := by
  obtain ⟨taken, x, hrun, hrel⟩ := hi
  obtain ⟨taken', x', hstep, hrel'⟩ := h taken x hrel
  exact ⟨taken', x', by rw [hhist, Ref.run_append hrun, hstep], hrel'⟩

variable {p : ι} {target n : ℕ}

section

variable (hi : Inv s)

include hi

theorem goTo {c : Pc} (hp : s.pc p = c) (d : Pc) (hcall : d.call = c.call)
    (hd : ∀ target n, d ≠ .read target n (.asleep false)) (lock : Option ι) (killed : ι → Bool) :
    Inv { s.setPc p d with lock := lock, killed := killed } := by
  subst hp
  exact hi.quiet rfl fun _ _ h => (h.goOn hcall fun t m heq => absurd heq (hd t m)).frame

theorem acquire {c d : Pc} (hp : s.pc p = c) (hs : s.acquire p d = .ok s')
    (hcall : d.call = c.call) (hd : ∀ target n, d ≠ .read target n (.asleep false)) : Inv s' := by
  unfold State.acquire at hs
  split at hs
  · cases hs
    exact hi.goTo hp d hcall hd _ _
  · cases hs

/-- **A round of the loop of `consoleread`.** -/
theorem readLoop (hp : s.pc p = .read target n .loop) : Inv (s.readLoop p target n) := by
  have hcall : (s.pc p).call = some (target, n) := by rw [hp]; rfl
  unfold State.readLoop
  cases n with
  | zero =>
    refine hi.event rfl fun taken x h => ⟨taken, x.leave p target, ?_, (h.leave p _ _ _).frame⟩
    rw [Ref.step, h.reads p, hcall]
  | succ n =>
    rw [if_pos n.succ_pos]
    split
    next hrw =>
      split
      next hkilled =>
        refine hi.event rfl fun taken x h => ⟨taken, x.leave p (-1), ?_, (h.leave p _ _ _).frame⟩
        rw [Ref.step, if_pos (h.rep.r_eq_w.mp hrw)]
      next =>
        refine hi.quiet rfl fun taken x h => (h.goOn ?_ fun _ _ _ => h.rep.r_eq_w.mp hrw).frame
        exact hcall.symm
    next hrw =>
      have hhist := congrArg (· ++ [Event.round p]) (s.take_hist p target (n + 1))
      refine hi.event hhist fun taken x h => ?_
      obtain ⟨b, rest, hb⟩ := exists_cons_of_ne_nil (mt h.rep.r_eq_w.mpr hrw)
      obtain ⟨taken', htake⟩ := h.take p target (n + 1) hb
      refine ⟨taken', _, ?_, htake.frame⟩
      rw [Ref.step, h.reads p, hcall, hb]

theorem consoleread {pos : Rd} (hp : s.pc p = .read target n pos)
    (hs : s.consoleread p target n pos = .ok s') : Inv s' := by
  cases pos with
  | acquire => exact hi.acquire hp hs rfl fun _ _ heq => by cases heq
  | loop =>
    cases hs
    exact hi.readLoop hp
  | asleep woken =>
    cases woken with
    | false => cases hs
    | true =>
      cases hs
      exact hi.goTo hp (.read target n .relock) rfl (fun _ _ heq => by cases heq) _ _
  | relock => exact hi.acquire hp hs rfl fun _ _ heq => by cases heq
  | release =>
    cases hs
    exact hi.goTo hp .out rfl (fun _ _ heq => by cases heq) _ _

theorem intrLoop {cs : List UInt8} (hp : s.pc p = .intrLoop cs) : Inv (s.intrLoop p cs) := by
  cases cs with
  | nil => exact hi.goTo hp .out rfl (fun _ _ heq => by cases heq) _ _
  | cons c cs =>
    have hhist : (s.intrLoop p (c :: cs)).hist = s.hist ++ [.key c] := by
      unfold State.intrLoop
      dsimp only
      split <;> rfl
    refine hi.event hhist fun taken x h => ⟨taken, _, rfl, ?_⟩
    refine ((h.key c).goOn (c := .intrLoop cs) ?_ fun _ _ heq => by cases heq).frame
    rw [← (h.key c).reads p]
    exact ((h.reads p).trans (by rw [hp]; rfl)).symm

/-- **Every step keeps the agreement.** -/
theorem step {act : Act ι} (hs : s.step act = .ok s') : Inv s' := by
  unfold State.step at hs
  cases act with
  | call p n =>
    dsimp only at hs
    split at hs
    · cases hs
      exact hi.event rfl fun taken x h => ⟨taken, _, rfl,
        (h.setPc p (.read n n .acquire) fun _ _ heq => by cases heq).frame⟩
    · cases hs
  | intr p cs =>
    dsimp only at hs
    split at hs
    next hp =>
      cases hs
      exact hi.goTo hp (.intr cs) rfl (fun _ _ heq => by cases heq) _ _
    next => cases hs
  | kill p =>
    cases hs
    exact hi.goTo rfl _ (Pc.wake_call _) (Pc.wake_ne _) _ _
  | go p =>
    dsimp only at hs
    split at hs
    next => cases hs
    next hp => exact hi.consoleread hp hs
    next hp => exact hi.acquire hp hs rfl fun _ _ heq => by cases heq
    next hp =>
      cases hs
      exact hi.intrLoop hp

end

end Inv

/-- **The line discipline.** However characters are typed and processes call `consoleread` and take
their steps, the indices are in order and no further apart than the buffer is long, modulo `2 ^ 32`.
The reference can do all that has happened, and readers have got from it the same bytes and the same
results, in the same order. Nobody who has not been woken sleeps while there are bytes to get. -/
theorem line_discipline (buf : ℕ → UInt8) (acts : List (Act ι)) (s : State ι)
    (h : Runs.run State.step acts (State.init buf) = .ok s) :
    (s.input.w - s.input.r).toNat ≤ (s.input.e - s.input.r).toNat ∧
      (s.input.e - s.input.r).toNat ≤ inputBuf ∧
      (∃ x, Ref.run s.hist = some x ∧ x.out = s.out ∧ x.results = s.results) ∧
      ∀ p target n, s.pc p = .read target n (.asleep false) → s.input.r = s.input.w := by
  obtain ⟨taken, x, hrun, hrel⟩ :=
    Runs.run_induct (fun _ _ _ hi hs => Inv.step hi hs) (Inv.init buf) h
  have hw := hrel.rep.sub_w
  have he := hrel.rep.sub_e
  refine ⟨by omega, ?_, ⟨x, hrun, hrel.out, hrel.results⟩, fun p target n hp => ?_⟩
  · rw [he]
    exact hrel.rep.room
  · exact hrel.rep.r_eq_w.mpr (hrel.asleep p target n hp)

end Sim

/-- Process `0` asks for five bytes and sleeps. Then come `x`, ^H, `a` and a carriage return. -/
def typedLine : List (Act ℕ) :=
  [.call 0 5, .go 0, .go 0, .intr 1 ['x'.toUInt8, ctrl 'H', 'a'.toUInt8, '\r'.toUInt8]] ++
    List.replicate 6 (.go 1) ++ List.replicate 5 (.go 0)

theorem line_discipline_typedLine : ∃ s : State ℕ,
    Runs.run State.step typedLine (State.init fun _ => 0) = .ok s ∧
      s.out = [(0, 'a'.toUInt8), (0, newline)] ∧ s.results = [(0, 2)] ∧
      (s.input.w - s.input.r).toNat ≤ (s.input.e - s.input.r).toNat ∧
      (s.input.e - s.input.r).toNat ≤ inputBuf ∧
      (∃ x, Ref.run s.hist = some x ∧ x.out = s.out ∧ x.results = s.results) ∧
      ∀ p target n, s.pc p = .read target n (.asleep false) → s.input.r = s.input.w := by
  obtain ⟨s, hs, htest⟩ := Runs.exists_of_endsIn
    (fun s : State ℕ => decide (s.out = [(0, 'a'.toUInt8), (0, newline)] ∧ s.results = [(0, 2)]))
    (Runs.run State.step typedLine (State.init fun _ => 0)) (by decide +kernel)
  obtain ⟨hout, hresults⟩ := of_decide_eq_true htest
  exact ⟨s, hs, hout, hresults, line_discipline _ typedLine s hs⟩

end Xv6.Console
