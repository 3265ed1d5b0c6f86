import Xv6.Vm.Growth

/-!
# A process and its memory

`struct proc`, the system calls that change a process's memory (`sbrk`, `set_page_allocator`), the
page-fault branch of `trap`, and the loads and stores of the user program that lead to it.

## The two allocators

With `page_allocator_type` 0, `growproc` maps pages at once. With 1 it only moves the break, and
the page-fault handler maps pages when they are touched. The field belongs to the process and can
be switched at any time; pages reserved under one allocator are touched under the other.

## Faults

The handler has five `return`s of its own and never reaches the end of `trap`, where a killed
process is made to exit. A return with `killed` set goes back to the instruction that faulted;
`access` therefore reports a process that was killed by its fault as one whose access did not
complete.

## Main definitions

* `growproc`, `sysSbrk`, `sysSetPageAllocator`, `trap`
* `step`, `run` — what a process can do, in any order
-/

namespace Xv6

open ByteMemory PhysMem Ownership

/-- `enum procstate`. -/
inductive ProcState
  | unused | embryo | sleeping | runnable | running | zombie
  deriving DecidableEq, Repr

/-- `struct proc`, the fields that memory management reads or writes. -/
structure Proc where
  sz : ℕ
  pgdir : ℕ
  /-- Set to 0 by `allocproc` and `userinit`, and never again. -/
  heapStart : ℕ
  /-- Kernel stack, 0 for none. -/
  kstack : ℕ
  state : ProcState
  pid : ℕ
  pageAllocatorType : ℤ
  parent : Option ℕ
  killed : Bool
  /-- Open files, as indices into the file table. -/
  ofile : ℕ → Option ℕ

/-- A running process and the memory it runs in. -/
structure Ctx where
  mem : PhysMem
  proc : Proc

namespace Ctx

/-- The context with another break. -/
def setSz (c : Ctx) (m : PhysMem) (sz : ℕ) : Ctx := ⟨m, { c.proc with sz := sz }⟩

/-- The context with the process marked killed. -/
def kill (c : Ctx) (m : PhysMem) : Ctx := ⟨m, { c.proc with killed := true }⟩

@[simp] theorem setSz_mem (c : Ctx) (m : PhysMem) (sz : ℕ) : (c.setSz m sz).mem = m := rfl
@[simp] theorem setSz_pgdir (c : Ctx) (m : PhysMem) (sz : ℕ) :
    (c.setSz m sz).proc.pgdir = c.proc.pgdir := rfl
@[simp] theorem kill_mem (c : Ctx) (m : PhysMem) : (c.kill m).mem = m := rfl

end Ctx

/-! ### System calls -/

/-- A value of C type `int`. -/
abbrev CInt : Type := {n : ℤ // -2147483648 ≤ n ∧ n < 2147483648}

/-- Grow the current process's memory by `n` bytes. Returns 0 on success, -1 on failure. -/
def growproc (c : Ctx) (n : ℤ) : Except Panic (ℤ × Ctx) :=
  let sz := c.proc.sz
  if n > 0 then
    if c.proc.pageAllocatorType = 1 then
      let sz := u32i (sz + n)
      if sz ≥ kernbase then .ok (-1, c) else .ok (0, c.setSz c.mem sz)
    else
      match allocuvm c.mem c.proc.pgdir sz (u32i (sz + n)) with
      | .error e => .error e
      | .ok (sz, m) => if sz = 0 then .ok (-1, { c with mem := m }) else .ok (0, c.setSz m sz)
  else if n < 0 then
    match deallocuvm c.mem c.proc.pgdir sz (u32i (sz + n)) with
    | .error e => .error e
    | .ok (sz, m) => if sz = 0 then .ok (-1, { c with mem := m }) else .ok (0, c.setSz m sz)
  else .ok (0, c)

/-- `sbrk`, with the argument that `argint` fetched. Returns the old break or -1. -/
def sysSbrk (c : Ctx) (n : CInt) : Except Panic (ℤ × Ctx) :=
  let addr : ℤ := c.proc.sz
  match growproc c n with
  | .error e => .error e
  | .ok (r, c) => if r < 0 then .ok (-1, c) else .ok (addr, c)

/-- `set_page_allocator`. Types other than 0 and 1 are refused. -/
def sysSetPageAllocator (c : Ctx) (a : CInt) : ℤ × Ctx :=
  if a.1 ≠ 0 ∧ a.1 ≠ 1 then (-1, c)
  else (0, { c with proc := { c.proc with pageAllocatorType := a } })

/-! ### Page faults -/

/-- The `T_PGFLT` branch of `trap` for a fault at the address in `cr2`. Each of its paths returns
from `trap`. -/
def pgflt (c : Ctx) (cr2 : ℕ) : Except Panic Ctx :=
  let faultingVa := pgrounddown cr2
  if c.proc.pageAllocatorType = 1 then
    if faultingVa ≥ c.proc.sz ∨ faultingVa < c.proc.heapStart then .ok (c.kill c.mem)
    else
      match kalloc c.mem with
      | (none, m) => .ok (c.kill m)
      | (some mem, m) =>
        match mappages (m.setPage mem 0) c.proc.pgdir faultingVa pgsize mem (pteW ||| pteU) with
        | .error e => .error e
        | .ok (r, m) =>
          if r < 0 then
            match kfree m mem with
            | .error e => .error e
            | .ok m => .ok (c.kill m)
          else .ok { c with mem := m }
  else .ok (c.kill c.mem)

/-- The privilege level a trap comes from, `tf->cs & 3`. -/
inductive Mode
  | user | kernel
  deriving DecidableEq, Repr

/-- What `trap` is called for. -/
inductive Trapno
  | syscall
  | pgflt
  /-- An interrupt of a device, handled and acknowledged. -/
  | irq
  | other
  deriving DecidableEq, Repr

/-- How `trap` ends: by returning to the interrupted instruction, through `exit`, or with the
kernel's "trap" panic. -/
inductive TrapEnd
  | returns (c : Ctx)
  | exits (c : Ctx)
  | panics

/-- `trap`. The system call dispatcher is a parameter. A process that yields the CPU on a timer
interrupt goes on later, and the test before its return is the same. -/
def trap (syscall : Ctx → Except Panic Ctx) (c : Ctx) (trapno : Trapno) (mode : Mode)
    (cr2 : ℕ) : Except Panic TrapEnd :=
  let tail (c : Ctx) : TrapEnd :=
    if c.proc.killed ∧ mode = .user then .exits c else .returns c
  match trapno with
  | .syscall =>
    if c.proc.killed then .ok (.exits c)
    else
      match syscall c with
      | .error e => .error e
      | .ok c => if c.proc.killed then .ok (.exits c) else .ok (.returns c)
  | .pgflt =>
    match pgflt c cr2 with
    | .error e => .error e
    | .ok c => .ok (.returns c)
  | .irq => .ok (tail c)
  | .other => if mode = .kernel then .ok .panics else .ok (tail (c.kill c.mem))

/-! ### Accesses of the program -/

/-- The page tables let user code access `va`. -/
def UserOk (m : PhysMem) (d va : ℕ) (write : Bool) : Prop :=
  HasTable m d (pdx va) ∧ pde m d (pdx va) &&& pteU ≠ 0 ∧
    (write → pde m d (pdx va) &&& pteW ≠ 0) ∧ Present m d va ∧ pteOf m d va &&& pteU ≠ 0 ∧
      (write → pteOf m d va &&& pteW ≠ 0)

instance (m : PhysMem) (d va : ℕ) (write : Bool) : Decidable (UserOk m d va write) := by
  unfold UserOk; infer_instance

/-- The page tables let the kernel access the user address `va`. It may read and write pages
without `PTE_U`. -/
def KernelOk (m : PhysMem) (d va : ℕ) (write : Bool) : Prop :=
  HasTable m d (pdx va) ∧ (write → pde m d (pdx va) &&& pteW ≠ 0) ∧ Present m d va ∧
    (write → pteOf m d va &&& pteW ≠ 0)

/-- The access faults. -/
def Faults (c : Ctx) (mode : Mode) (va : ℕ) (write : Bool) : Prop :=
  match mode with
  | .user => ¬ UserOk c.mem c.proc.pgdir va write
  | .kernel => ¬ KernelOk c.mem c.proc.pgdir va write

/-- The physical address of `va`. -/
def physAddr (m : PhysMem) (d va : ℕ) : ℕ := pageOf m d va + va % 4096

/-- A user access: the physical address it reaches, after a page fault if need be, or `none` if
the fault left the page inaccessible and the process killed. -/
def access (c : Ctx) (va : ℕ) (write : Bool) : Except Panic (Option ℕ × Ctx) :=
  if UserOk c.mem c.proc.pgdir va write then .ok (some (physAddr c.mem c.proc.pgdir va), c)
  else
    match pgflt c va with
    | .error e => .error e
    | .ok c =>
      if UserOk c.mem c.proc.pgdir va write then .ok (some (physAddr c.mem c.proc.pgdir va), c)
      else .ok (none, c)

/-- A virtual address. -/
abbrev Va : Type := {va : ℕ // va < 2 ^ 32}

/-- What a process does to its memory. -/
inductive Op
  | setPageAllocator (a : CInt)
  | sbrk (n : CInt)
  | load (va : Va)
  | store (va : Va) (v : UInt8)

/-- What the process sees of an operation. -/
inductive Obs
  | ret (r : ℤ)
  | byte (v : UInt8)
  | stored
  /-- An access that did not complete: the process has been marked killed. -/
  | killed
  deriving DecidableEq

/-- One operation of a process that has not been killed. -/
def step (c : Ctx) : Op → Except Panic (Obs × Ctx)
  | .setPageAllocator a => let (r, c) := sysSetPageAllocator c a; .ok (.ret r, c)
  | .sbrk n =>
    match sysSbrk c n with
    | .error e => .error e
    | .ok (r, c) => .ok (.ret r, c)
  | .load va =>
    match access c va false with
    | .error e => .error e
    | .ok (none, c) => .ok (.killed, c)
    | .ok (some pa, c) => .ok (.byte (c.mem.byte pa), c)
  | .store va v =>
    match access c va true with
    | .error e => .error e
    | .ok (none, c) => .ok (.killed, c)
    | .ok (some pa, c) => .ok (.stored, { c with mem := c.mem.setByte pa v })

/-- A run of operations, which ends where the process is killed. -/
def run : List Op → Ctx → Except Panic (List Obs × Ctx)
  | [], c => .ok ([], c)
  | op :: ops, c =>
    if c.proc.killed then .ok ([], c)
    else
      match step c op with
      | .error e => .error e
      | .ok (o, c) =>
        match run ops c with
        | .error e => .error e
        | .ok (os, c) => .ok (o :: os, c)

end Xv6
