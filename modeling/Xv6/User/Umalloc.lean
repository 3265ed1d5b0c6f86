import Xv6.Library.ByteMemory
import Xv6.Library.LinkedList
import Xv6.Library.Runs

/-!
# The allocator of user programs

`malloc` and `free` of `umalloc.c`. Blocks are counted in units of a header, eight bytes, and the
first unit of a block is its header: a pointer, which links the free blocks to a circular list, and
the size. The list goes through `base`, a header in the data of the program.

Memory is bytes, so what the program writes to the blocks it has, and to memory that is not of the
heap, is there as well. `sbrk` fails or returns memory above all that there was before; which of the
two, and how far above, is up to the system.

A loop of the code has as many rounds as it takes, so the functions here have the number of rounds
that is enough as an argument, and give nothing if it is not.

## Main definitions

* `State.free`, `State.morecore`, `State.malloc` — the code
* `State.step` — what the program does with its memory
-/

namespace Xv6.Umalloc

open ByteMemory

/-! ### Headers -/

section Header

variable (mem : ℕ → UInt8) (p v : ℕ)

/-- `p->s.ptr`. -/
def ptr : ℕ := load32 mem p

/-- `p->s.size`. -/
def size : ℕ := load32 mem (p + 4)

/-- `p->s.ptr = v`. -/
def setPtr : ℕ → UInt8 := store32 mem p v

/-- `p->s.size = v`. -/
def setSize : ℕ → UInt8 := store32 mem (p + 4) v

end Header

/-- `p + n`, where `p` points to a header. -/
def plus (p n : ℕ) : ℕ := (p + 8 * n) % 2 ^ 32

/-! ### The code -/

/-- A program and its heap. -/
structure State where
  mem : ℕ → UInt8
  freep : ℕ
  brk : ℕ
  /-- What the system is going to do when `sbrk` is called: fail, or return this address. -/
  offers : List (Option ℕ)
  /-- Where the memory that came from `sbrk` starts and ends. No function looks at it. -/
  got : List (ℕ × ℕ)
  /-- What the program got from `malloc` and has not freed, and how many bytes it asked for. -/
  live : List (ℕ × ℕ)

/-- The block at `a` becomes the one before `*q`: it takes that in if the two meet. -/
def join (mem : ℕ → UInt8) (a : ℕ) (q : (ℕ → UInt8) → ℕ) : ℕ → UInt8 :=
  if plus a (size mem a) = q mem then
    let mem := setSize mem a ((size mem a + size mem (q mem)) % 2 ^ 32)
    setPtr mem a (ptr mem (q mem))
  else setPtr mem a (q mem)

namespace State

variable (base rounds : ℕ) (s : State)

/-- The test of the loop of `free`. -/
def freeStops (mem : ℕ → UInt8) (bp p : ℕ) : Bool :=
  (bp > p && bp < ptr mem p) || (p ≥ ptr mem p && (bp > p || bp < ptr mem p))

/-- Put a block on the list, where its address belongs. -/
def free (ap : ℕ) : Option State :=
  let bp := (ap + 2 ^ 32 - 8) % 2 ^ 32
  (LinkedList.search (ptr s.mem) (freeStops s.mem bp) rounds s.freep).map fun p =>
    let mem := join s.mem bp fun mem => ptr mem p
    let mem := join mem p fun _ => bp
    { s with mem := mem, freep := p }

/-- Nothing is left of the memory that came from `sbrk` from `e` on. -/
def cutGot (e : ℕ) : State := { s with got := s.got.map fun r => (min r.1 e, min r.2 e) }

/-- The system call. The end of the memory is the size of the process, which is a `uint`; the
argument is an `int`. -/
def sbrk (n : ℕ) : Option ℕ × State :=
  match s.offers with
  | [] => (none, s)
  | none :: offers => (none, { s with offers := offers })
  | some p :: offers =>
    let s := { s with offers := offers }
    if p < s.brk then (none, s)
    else if n < 2 ^ 31 then
      if p + n < 2 ^ 32 then (some p, { s with brk := p + n, got := (p, p + n) :: s.got })
      else (none, s)
    -- a negative argument; where it is larger than the size, `deallocuvm` does nothing
    else if p + n < 2 ^ 32 then (some p, s)
    -- `deallocuvm` returns the new size, and 0 is taken for a failure
    else if p + n = 2 ^ 32 then (none, s.cutGot 0)
    else (some p, { s.cutGot (p + n - 2 ^ 32) with brk := p + n - 2 ^ 32 })

/-- Get memory from the kernel, and put it on the list. -/
def morecore (nu : ℕ) : Option (ℕ × State) :=
  let nu := if nu < 4096 then 4096 else nu
  match s.sbrk ((nu * 8) % 2 ^ 32) with
  | (none, s) => some (0, s)
  | (some hp, s) =>
    (free rounds { s with mem := setSize s.mem hp nu } (plus hp 1)).map fun s => (s.freep, s)

/-- Take a block, or the end of one, off the list. -/
def take (nunits prevp p : ℕ) : ℕ × State :=
  if size s.mem p = nunits then
    (plus p 1, { s with mem := setPtr s.mem prevp (ptr s.mem p), freep := prevp })
  else
    let mem := setSize s.mem p (size s.mem p - nunits)
    let p := plus p (size mem p)
    (plus p 1, { s with mem := setSize mem p nunits, freep := prevp })

/-- The loop of `malloc`. -/
def mallocLoop (nunits : ℕ) : ℕ → State → ℕ → ℕ → Option (ℕ × State)
  | 0, _, _, _ => none
  | k + 1, s, prevp, p =>
    if nunits ≤ size s.mem p then some (s.take nunits prevp p)
    else if p = s.freep then
      (s.morecore rounds nunits).bind fun r =>
        if r.1 = 0 then some (0, r.2) else mallocLoop nunits k r.2 r.1 (ptr r.2.mem r.1)
    else mallocLoop nunits k s p (ptr s.mem p)

/-- How many units `malloc` takes. -/
def nunits (nbytes : ℕ) : ℕ := (nbytes + 8 - 1) % 2 ^ 32 / 8 + 1

/-- The empty list. -/
def start : State :=
  if s.freep = 0 then
    { s with mem := setSize (setPtr s.mem base base) base 0, freep := base }
  else s

/-- First fit, from where the last search ended. -/
def malloc (nbytes : ℕ) : Option (ℕ × State) :=
  let s := s.start base
  mallocLoop rounds (nunits nbytes) rounds s s.freep (ptr s.mem s.freep)

end State

/-! ### What a program does -/

/-- What a program does. -/
inductive Act
  | malloc (n : ℕ)
  | free (p : ℕ)
  | write (a : ℕ) (b : UInt8)

/-- Why a step does not take place. -/
inductive Stuck
  /-- A loop is not at its end after so many rounds. -/
  | endless
  | misuse

namespace State

variable (base rounds : ℕ) (s : State)

/-- The program may write there: to a block that it has, or somewhere that is not of the heap. -/
def Writable (a : ℕ) : Prop :=
  (∃ x ∈ s.live, x.1 ≤ a ∧ a < x.1 + x.2) ∨
    ¬(base ≤ a ∧ a < base + 8) ∧ ∀ r ∈ s.got, ¬(r.1 ≤ a ∧ a < r.2)

instance (a : ℕ) : Decidable (s.Writable base a) := by
  unfold Writable
  infer_instance

/-- One step. A request needs fewer than `2 ^ 28` units, and what is freed is what the program has.
-/
def step : Act → Except Stuck State
  | .malloc n =>
    if (n + 7) / 8 + 1 < 2 ^ 28 then
      match s.malloc base rounds n with
      | none => .error .endless
      | some (p, s) => .ok (if p = 0 then s else { s with live := (p, n) :: s.live })
    else .error .misuse
  | .free p =>
    if ∃ x ∈ s.live, x.1 = p then
      match s.free rounds p with
      | none => .error .endless
      | some s => .ok { s with live := s.live.eraseP fun x => x.1 = p }
    else .error .misuse
  | .write a b =>
    if s.Writable base a then .ok { s with mem := Function.update s.mem a b } else .error .misuse

/-- A program that has just started. -/
def init (mem : ℕ → UInt8) (brk : ℕ) (offers : List (Option ℕ)) : State :=
  ⟨mem, 0, brk, offers, [], []⟩

end State

end Xv6.Umalloc
