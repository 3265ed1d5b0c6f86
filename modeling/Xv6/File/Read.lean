import Xv6.Log.Buffer
import Xv6.Vm.ProcessInv

/-!
# `read`

The way of a `read` from the system call's arguments to the bytes it stores through the user's
pointer: `argptr` and `argfd`, `fileread`, and below it `piperead`, `readi` and, for the console,
`consoleread`.

The length is a signed `int` in `sys_read`, `argptr`, `fileread`, `piperead` and `consoleread`, and
an unsigned `uint` in `readi`. `argptr` adds it to the pointer modulo 2 ^ 32, so it lets a negative
length pass when the sum is not negative; pipes and the console then transfer nothing, but `readi`
takes the length for a huge one and transfers the rest of the file.

What is modelled of the transfer is the list of the bytes that are stored, with their addresses.

## Main results

* `readiLoop_eq`, `pipereadLoop_addr`, `consolereadLoop_addr` — what each transfer stores
* `sysRead_confined_iff` — when `read` stays inside the buffer it was given
-/

namespace Xv6

open List

/-- `PIPESIZE`. -/
abbrev pipesize : ℕ := 512

/-- `NOFILE`. -/
abbrev nofile : ℕ := 16

/-- `CONSOLE`, the only major device number with an entry in `devsw`. -/
abbrev console : ℤ := 1

/-- `T_DIR`, `T_FILE` and `T_DEV`. -/
inductive InodeType
  | dir | file | dev
  deriving DecidableEq, Repr

/-- `struct inode`, the fields that reading uses. -/
structure Inode where
  type : InodeType
  major : ℤ
  size : ℕ
  /-- `writei` does not let a file grow beyond `MAXFILE` blocks. -/
  size_le : size ≤ maxfile * bsize
  /-- The contents of its blocks, as `bread` and `bmap` find them. -/
  block : ℕ → ℕ → UInt8

/-- `struct pipe`. -/
structure Pipe where
  data : ℕ → UInt8
  /-- Number of bytes read, modulo 2 ^ 32. -/
  nread : ℕ
  /-- Number of bytes written, modulo 2 ^ 32. -/
  nwrite : ℕ
  readopen : Bool
  writeopen : Bool

/-- `FD_NONE`, `FD_PIPE` and `FD_INODE`. -/
inductive FdType
  | none | pipe | inode
  deriving DecidableEq, Repr

/-- `struct file`. -/
structure File where
  type : FdType
  ref : ℕ
  readable : Bool
  writable : Bool
  /-- The page its pipe lies in. -/
  pipe : ℕ
  ip : ℕ
  off : ℕ

/-- The open files, and what they refer to. -/
structure Files where
  file : ℕ → File
  /-- The pipes, by the page they lie in. -/
  pipe : ℕ → Pipe
  inode : ℕ → Inode

/-- How far a `read` has come. -/
structure Outcome where
  /-- The value it returned; `none` while it sleeps. -/
  ret : Option ℤ
  stores : List (ℕ × UInt8)

namespace Outcome

/-- Returning without having stored anything. -/
def fails : Outcome := ⟨some (-1), []⟩

end Outcome

/-! ### Arguments -/

section Arguments

variable (arg : ℕ → Option CInt)

/-- `argfd`: the file of the descriptor in the `n`-th argument. What `argint` finds on the user's
stack is given by `arg`. -/
def argfd (proc : Proc) (n : ℕ) : Option ℕ :=
  match arg n with
  | none => none
  | some fd => if fd.1 < 0 ∨ fd.1 ≥ nofile then none else proc.ofile fd.1.toNat

/-- `argptr`: the `n`-th argument as a pointer to `size` bytes of user memory. -/
def argptr (proc : Proc) (n : ℕ) (size : ℤ) : Option ℕ :=
  match arg n with
  | none => none
  | some i =>
    if u32i i.1 ≥ proc.sz ∨ u32i (u32i i.1 + size) > proc.sz then none else some (u32i i.1)

end Arguments

/-! ### Transfers -/

/-- The loop of `piperead`, which goes round at most `k` more times. -/
def pipereadLoop : ℕ → Pipe → (addr : ℕ) → List (ℕ × UInt8) × Pipe
  | 0, p, _ => ([], p)
  | k + 1, p, addr =>
    if p.nread = p.nwrite then ([], p)
    else
      let (stores, p') := pipereadLoop k { p with nread := u32 (p.nread + 1) } (u32 (addr + 1))
      ((addr, p.data (p.nread % pipesize)) :: stores, p')

/-- `piperead`. It sleeps while the pipe is empty and has a writer. -/
def piperead (p : Pipe) (killed : Bool) (addr : ℕ) (n : ℤ) : Outcome × Pipe :=
  if p.nread = p.nwrite ∧ p.writeopen then (⟨if killed then some (-1) else none, []⟩, p)
  else
    let (stores, p) := pipereadLoop n.toNat p addr
    (⟨some stores.length, stores⟩, p)

/-- The loop of `consoleread`, with `n` bytes wanted and the given input to come. Control-D ends the
input and is kept for the next call unless it comes first. -/
def consolereadLoop (killed : Bool) (target : ℤ) :
    (input : List UInt8) → (dst : ℕ) → (n : ℤ) → Outcome × List UInt8
  | input, dst, n =>
    if n > 0 then
      match input with
      | [] => (⟨if killed then some (-1) else none, []⟩, [])
      | c :: input =>
        if c = 4 then (⟨some (target - n), []⟩, if n < target then c :: input else input)
        else if c = 10 then (⟨some (target - (n - 1)), [(dst, c)]⟩, input)
        else
          let (t, input) := consolereadLoop killed target input (u32 (dst + 1)) (n - 1)
          (⟨t.ret, (dst, c) :: t.stores⟩, input)
    else (⟨some (target - n), []⟩, input)

/-- The loop of `readi`, after `tot` bytes of `n`. Each round copies from one block. -/
def readiLoop (ip : Inode) (dst off n tot : ℕ) : List (ℕ × UInt8) :=
  if tot < n then
    let m := min (n - tot) (bsize - off % bsize)
    (List.range m).map (fun j => (u32 (dst + j), ip.block (off / bsize) (off % bsize + j))) ++
      readiLoop ip (u32 (dst + m)) (off + m) n (tot + m)
  else []
termination_by n - tot
decreasing_by
  have hpos : 0 < bsize - off % bsize := by simp only [bsize]; omega
  omega

/-- A `uint` as an `int`. -/
def toInt (n : ℕ) : ℤ := if n < 2147483648 then n else (n : ℤ) - 4294967296

/-- `readi`: read data from an inode. -/
def readi (ip : Inode) (killed : Bool) (input : List UInt8) (dst off n : ℕ) :
    Outcome × List UInt8 :=
  if ip.type = .dev then
    if ip.major = console then consolereadLoop killed (toInt n) input dst (toInt n)
    else (.fails, input)
  else if off > ip.size ∨ u32 (off + n) < off then (.fails, input)
  else
    let n := if u32 (off + n) > ip.size then ip.size - off else n
    (⟨some n, readiLoop ip dst off n 0⟩, input)

/-- `fileread`: read from a file. -/
def fileread (F : Files) (killed : Bool) (input : List UInt8) (f addr : ℕ) (n : ℤ) :
    Except Panic (Outcome × Files × List UInt8) :=
  let file := F.file f
  if file.readable = false then .ok (.fails, F, input)
  else
    match file.type with
    | .pipe =>
      let (t, p) := piperead (F.pipe file.pipe) killed addr n
      .ok (t, { F with pipe := Function.update F.pipe file.pipe p }, input)
    | .inode =>
      let (t, input) := readi (F.inode file.ip) killed input addr file.off (u32i n)
      match t.ret with
      | none => .ok (t, F, input)
      | some r =>
        let off := if r > 0 then u32i (file.off + r) else file.off
        .ok (t, { F with file := Function.update F.file f { file with off := off } }, input)
    | .none => .error .fileread

/-- `sys_read`, called by `c`. The characters typed at the console from now on are `input`. -/
def sysRead (c : Ctx) (F : Files) (arg : ℕ → Option CInt) (input : List UInt8) :
    Except Panic (Outcome × Files × List UInt8) :=
  match argfd arg c.proc 0 with
  | none => .ok (.fails, F, input)
  | some f =>
    match arg 2 with
    | none => .ok (.fails, F, input)
    | some n =>
      match argptr arg c.proc 1 n.1 with
      | none => .ok (.fails, F, input)
      | some p => fileread F c.proc.killed input f p n.1

/-! ### What the transfers store -/

section Stores

variable {ip : Inode} {dst off n tot addr : ℕ}

/-- The byte of a file at an offset. -/
def Inode.byte (ip : Inode) (off : ℕ) : UInt8 := ip.block (off / bsize) (off % bsize)

/-- Block by block, `readi` stores what the file holds, byte after byte. -/
theorem readiLoop_eq (ip : Inode) (dst off n tot : ℕ) : readiLoop ip dst off n tot =
      (List.range (n - tot)).map fun i => (u32 (dst + i), ip.byte (off + i)) := by
  fun_induction readiLoop ip dst off n tot with
  | case1 dst off tot hlt m ih =>
    have hm : m ≤ n - tot := Nat.min_le_left _ _
    have hblock : m ≤ bsize - off % bsize := Nat.min_le_right _ _
    have hsplit : n - tot = m + (n - (tot + m)) := by omega
    rw [ih, hsplit, range_add, map_append, map_map]
    congr 1
    · refine map_congr_left fun j hj => ?_
      have hj := mem_range.mp hj
      have hdiv : (off + j) / bsize = off / bsize := by simp only [bsize] at hblock ⊢; omega
      have hmod : (off + j) % bsize = off % bsize + j := by simp only [bsize] at hblock ⊢; omega
      rw [Inode.byte, hdiv, hmod]
    · refine map_congr_left fun j _ => ?_
      have hu : u32 (u32 (dst + m) + j) = u32 (dst + (m + j)) := by simp only [u32]; omega
      simp only [Function.comp_apply, hu, Nat.add_assoc]
  | case2 dst off tot hge =>
    rw [show n - tot = 0 by omega]
    rfl

theorem pipereadLoop_addr (k : ℕ) : ∀ {p : Pipe} {addr : ℕ}, addr + k < 2 ^ 32 →
    ∀ s ∈ (pipereadLoop k p addr).1, addr ≤ s.1 ∧ s.1 < addr + k := by
  induction k with
  | zero =>
    intro p addr _ s hs
    cases hs
  | succ k ih =>
    intro p addr hlt s hs
    have hnext : u32 (addr + 1) = addr + 1 := Nat.mod_eq_of_lt (by omega)
    rw [pipereadLoop] at hs
    split_ifs at hs with he
    · cases hs
    · rw [hnext] at hs
      rcases mem_cons.mp hs with rfl | hs
      · exact ⟨Nat.le_refl _, by omega⟩
      · have hin := ih (by omega) s hs
        omega

theorem consolereadLoop_addr (killed : Bool) (target : ℤ) (input : List UInt8) :
    ∀ {dst : ℕ} {n : ℤ}, dst + n.toNat < 2 ^ 32 →
      ∀ s ∈ (consolereadLoop killed target input dst n).1.stores,
        dst ≤ s.1 ∧ s.1 < dst + n.toNat := by
  induction input with
  | nil =>
    intro dst n _ s hs
    rw [consolereadLoop] at hs
    split_ifs at hs <;> cases hs
  | cons ch input ih =>
    intro dst n hlt s hs
    rw [consolereadLoop] at hs
    by_cases hn : n > 0
    · simp only [if_pos hn] at hs
      by_cases hd : ch = 4
      · rw [if_pos hd] at hs
        cases hs
      · rw [if_neg hd] at hs
        by_cases hnl : ch = 10
        · rw [if_pos hnl] at hs
          rw [mem_singleton.mp hs]
          omega
        · have hnext : u32 (dst + 1) = dst + 1 := Nat.mod_eq_of_lt (by omega)
          rw [if_neg hnl, hnext] at hs
          rcases mem_cons.mp hs with rfl | hs
          · omega
          · have hin := ih (by omega) s hs
            omega
    · rw [if_neg hn] at hs
      cases hs

end Stores

/-! ### Staying inside the buffer -/

/-- All stores lie in the `n` bytes from `p` on and below the break `sz`, and there are none if that
makes no sense. -/
structure Confined (sz p : ℕ) (n : ℤ) (stores : List (ℕ × UInt8)) : Prop where
  inside : ∀ s ∈ stores, p ≤ s.1 ∧ (s.1 : ℤ) < p + n ∧ s.1 < sz
  refused : n < 0 ∨ (sz : ℤ) < p + n → stores = []

/-- The same of the outcome of a system call, which is not a panic. -/
def ReadConfined (sz p : ℕ) (n : ℤ) : Except Panic (Outcome × Files × List UInt8) → Prop
  | .error _ => False
  | .ok (t, _) => Confined sz p n t.stores

/-- A negative length passes for a regular file that still has bytes to read, where the offset plus
the length is negative. -/
def Overreads (proc : Proc) (F : Files) (arg : ℕ → Option CInt) (p : ℕ) (n : ℤ) : Prop :=
  n < 0 ∧ p < proc.sz ∧ 0 ≤ p + n ∧ ∃ f, argfd arg proc 0 = some f ∧ (F.file f).readable = true ∧
    (F.file f).type = .inode ∧ (F.inode (F.file f).ip).type ≠ .dev ∧
      (F.file f).off < (F.inode (F.file f).ip).size ∧ (F.file f).off + n < 0

variable {sz p : ℕ} {stores : List (ℕ × UInt8)} {F : Files} {f : ℕ}

theorem Confined.nil (sz p : ℕ) (n : ℤ) : Confined sz p n [] :=
  ⟨fun _ hs => absurd hs not_mem_nil, fun _ => rfl⟩

theorem Confined.of_range {n : ℤ} (hn : p + n ≤ sz)
    (hs : ∀ s ∈ stores, p ≤ s.1 ∧ s.1 < p + n.toNat) : Confined sz p n stores := by
  refine ⟨fun s hin => ?_, fun hneg => eq_nil_iff_forall_not_mem.mpr fun s hin => ?_⟩
  · have hb := hs s hin
    omega
  · have hb := hs s hin
    omega

theorem u32i_lt (n : ℤ) : u32i n < 4294967296 := by simp only [u32i]; omega

/-- What `argptr` lets pass. The sum of pointer and length is taken modulo 2 ^ 32, so the length may
be negative. -/
theorem argptr_eq {arg : ℕ → Option CInt} {proc : Proc} {k : ℕ} {i n : CInt} (h : arg k = some i)
    (hsz : proc.sz < 0x80000000) : argptr arg proc k n.1 =
      if u32i i.1 < proc.sz ∧ 0 ≤ u32i i.1 + n.1 ∧ u32i i.1 + n.1 ≤ proc.sz then some (u32i i.1)
      else none := by
  obtain ⟨n, hlo, hhi⟩ := n
  have hlt := u32i_lt i.1
  rw [argptr, h]
  simp only
  generalize u32i i.1 = q at hlt ⊢
  have hiff : (q ≥ proc.sz ∨ u32i (q + n) > proc.sz) ↔
      ¬ (q < proc.sz ∧ 0 ≤ q + n ∧ q + n ≤ proc.sz) := by
    simp only [u32i]
    omega
  rw [if_congr hiff rfl rfl, ite_not]

/-- The number of bytes `readi` transfers from a regular file for a signed length. -/
def readCount (ip : Inode) (off : ℕ) (n : ℤ) : ℕ :=
  if off > ip.size then 0
  else if 0 ≤ n then min n.toNat (ip.size - off)
  else if off + n < 0 then ip.size - off
  else 0

theorem readi_stores {ip : Inode} (hreg : ip.type ≠ .dev) (killed : Bool) (input : List UInt8)
    (dst off : ℕ) (n : CInt) : (readi ip killed input dst off (u32i n.1)).1.stores =
      (List.range (readCount ip off n.1)).map fun i => (u32 (dst + i), ip.byte (off + i)) := by
  obtain ⟨n, hlo, hhi⟩ := n
  have hsize := ip.size_le
  simp only [maxfile, bsize] at hsize
  rw [readi, if_neg hreg]
  by_cases hoff : off > ip.size
  · rw [if_pos (.inl hoff), readCount, if_pos hoff]
    rfl
  · have hwrap : (off > ip.size ∨ u32 (off + u32i n) < off) ↔ n < 0 ∧ 0 ≤ off + n := by
      simp only [u32, u32i]
      omega
    rw [if_congr hwrap rfl rfl]
    by_cases hneg : n < 0 ∧ 0 ≤ off + n
    · have hcount : readCount ip off n = 0 := by
        rw [readCount, if_neg hoff, if_neg (by omega), if_neg (by omega)]
      rw [if_pos hneg, hcount]
      rfl
    · have hcount : (if u32 (off + u32i n) > ip.size then ip.size - off else u32i n) =
          readCount ip off n := by
        rw [readCount, if_neg hoff]
        by_cases hn : 0 ≤ n
        · have hu : u32i n = n.toNat := by simp only [u32i]; omega
          have hsum : u32 (off + n.toNat) = off + n.toNat := Nat.mod_eq_of_lt (by omega)
          rw [if_pos hn, hu, hsum]
          split_ifs <;> omega
        · have hbig : u32 (off + u32i n) > ip.size := by simp only [u32, u32i]; omega
          rw [if_pos hbig, if_neg hn, if_pos (by omega)]
      rw [if_neg hneg]
      simp only [readiLoop_eq, hcount, Nat.sub_zero]

theorem toInt_u32i (n : CInt) : toInt (u32i n.1) = n.1 := by
  obtain ⟨n, hlo, hhi⟩ := n
  simp only [toInt, u32i]
  split_ifs <;> omega

theorem fileread_pipe (hread : (F.file f).readable = true) (htype : (F.file f).type = .pipe)
    (killed : Bool) (input : List UInt8) (addr : ℕ) (n : ℤ) :
    ∃ r, fileread F killed input f addr n =
      .ok ((piperead (F.pipe (F.file f).pipe) killed addr n).1, r) := by
  rw [fileread, if_neg (by rw [hread]; decide), htype]
  exact ⟨_, rfl⟩

theorem fileread_inode (hread : (F.file f).readable = true) (htype : (F.file f).type = .inode)
    (killed : Bool) (input : List UInt8) (addr : ℕ) (n : ℤ) :
    ∃ r, fileread F killed input f addr n =
      .ok ((readi (F.inode (F.file f).ip) killed input addr (F.file f).off (u32i n)).1, r) := by
  rw [fileread, if_neg (by rw [hread]; decide), htype]
  simp only
  cases (readi (F.inode (F.file f).ip) killed input addr (F.file f).off (u32i n)).1.ret with
  | none => exact ⟨_, rfl⟩
  | some r => exact ⟨_, rfl⟩

theorem readi_confined_iff {ip : Inode} {killed : Bool} {input : List UInt8} {off : ℕ} {n : CInt}
    (hle : p + n.1 ≤ sz) (hsz : sz < 0x80000000) (hlt : p < sz) :
    Confined sz p n.1 (readi ip killed input p off (u32i n.1)).1.stores ↔
      ¬ (n.1 < 0 ∧ ip.type ≠ .dev ∧ off < ip.size ∧ off + n.1 < 0) := by
  have hfit : p + n.1.toNat < 2 ^ 32 := by omega
  by_cases hdev : ip.type = .dev
  · refine iff_of_true (.of_range hle ?_) fun hbad => hbad.2.1 hdev
    rw [readi, if_pos hdev]
    split_ifs
    · rw [toInt_u32i]
      exact consolereadLoop_addr _ _ _ hfit
    · exact fun s hs => absurd hs not_mem_nil
  · rw [readi_stores hdev]
    by_cases hn : 0 ≤ n.1
    · refine iff_of_true (.of_range hle fun s hs => ?_) fun hbad => absurd hbad.1 (by omega)
      obtain ⟨i, hi, rfl⟩ := mem_map.mp hs
      have hcount : readCount ip off n.1 ≤ n.1.toNat := by
        rw [readCount]
        split_ifs
        · exact Nat.zero_le _
        · exact Nat.min_le_left _ _
      have hi := mem_range.mp hi
      have hu : u32 (p + i) = p + i := Nat.mod_eq_of_lt (by omega)
      simp only [hu]
      omega
    · -- a negative length leaves no room at all
      have hnil : Confined sz p n.1 ((List.range (readCount ip off n.1)).map fun i =>
          (u32 (p + i), ip.byte (off + i))) ↔ readCount ip off n.1 = 0 := by
        constructor
        · intro hc
          simpa using hc.refused (.inl (by omega))
        · intro h0
          rw [h0]
          exact .nil _ _ _
      have hcount : readCount ip off n.1 = 0 ↔ ¬ (off < ip.size ∧ off + n.1 < 0) := by
        rw [readCount]
        split_ifs <;> omega
      rw [hnil, hcount]
      exact not_congr ⟨fun hbad => ⟨by omega, hdev, hbad⟩, fun hbad => hbad.2.2⟩

theorem fileread_confined_iff {killed : Bool} {input : List UInt8} {n : CInt}
    (hpass : p < sz ∧ 0 ≤ p + n.1 ∧ p + n.1 ≤ sz) (hsz : sz < 0x80000000)
    (hopen : (F.file f).type ≠ .none) : ReadConfined sz p n.1 (fileread F killed input f p n.1) ↔
      ¬ (n.1 < 0 ∧ (F.file f).readable = true ∧ (F.file f).type = .inode ∧
        (F.inode (F.file f).ip).type ≠ .dev ∧ (F.file f).off < (F.inode (F.file f).ip).size ∧
        (F.file f).off + n.1 < 0) := by
  obtain ⟨hlt, -, hle⟩ := hpass
  have hfit : p + n.1.toNat < 2 ^ 32 := by omega
  cases hread : (F.file f).readable with
  | false =>
    rw [fileread, if_pos hread]
    exact iff_of_true (.nil _ _ _) (by simp)
  | true =>
    cases htype : (F.file f).type with
    | none => exact absurd htype hopen
    | pipe =>
      obtain ⟨r, hr⟩ := fileread_pipe hread htype killed input p n.1
      rw [hr, ReadConfined]
      refine iff_of_true (.of_range hle ?_) (by simp)
      rw [piperead]
      split_ifs
      · exact fun s hs => absurd hs not_mem_nil
      · exact fun s hs => absurd hs not_mem_nil
      · exact pipereadLoop_addr _ hfit
    | inode =>
      obtain ⟨r, hr⟩ := fileread_inode hread htype killed input p n.1
      rw [hr, ReadConfined, readi_confined_iff hle hsz hlt]
      simp

/-- **`read` stays inside its buffer**, and refuses one that makes no sense, exactly if it does not
overread. -/
theorem sysRead_confined_iff {c : Ctx} (hr : Reachable c) (F : Files) (arg : ℕ → Option CInt)
    (input : List UInt8) {p n : CInt} (hp : arg 1 = some p) (hn : arg 2 = some n)
    (hopen : ∀ f, argfd arg c.proc 0 = some f → (F.file f).type ≠ .none) :
    ReadConfined c.proc.sz (u32i p.1) n.1 (sysRead c F arg input) ↔
      ¬ Overreads c.proc F arg (u32i p.1) n.1 := by
  obtain ⟨heap, h⟩ := reachable_inv hr
  have hsz := h.sz_lt
  rw [sysRead, hn]
  cases hfd : argfd arg c.proc 0 with
  | none =>
    refine iff_of_true (.nil _ _ _) ?_
    rintro ⟨-, -, -, f, hf, -⟩
    rw [hfd] at hf
    cases hf
  | some f =>
    simp only [argptr_eq hp hsz]
    by_cases hpass : u32i p.1 < c.proc.sz ∧ 0 ≤ u32i p.1 + n.1 ∧ u32i p.1 + n.1 ≤ c.proc.sz
    · rw [if_pos hpass, fileread_confined_iff hpass hsz (hopen f hfd)]
      refine not_congr ⟨?_, ?_⟩
      · rintro ⟨hneg, hover⟩
        exact ⟨hneg, hpass.1, hpass.2.1, f, hfd, hover⟩
      · rintro ⟨hneg, -, -, f', hf', hover⟩
        obtain rfl : f = f' := Option.some.inj (hfd.symm.trans hf')
        exact ⟨hneg, hover⟩
    · rw [if_neg hpass]
      refine iff_of_true (.nil _ _ _) ?_
      rintro ⟨hneg, hlt, hge, -⟩
      omega

/-- A process with the file 0 open as descriptor 3. -/
def Tiny.reader : Ctx :=
  { image [] with
    proc := { (image []).proc with ofile := fun fd => if fd = 3 then some 0 else none } }

theorem Tiny.reader_reachable : Reachable reader := by
  have h := image_isImage nodup_nil (by simp)
  exact ⟨_, reader, [], [], ⟨⟨h.wf, h.sz_pos, h.sz_lt, h.flags, h.kernel, h.heapStart, h.allocator⟩,
    h.alive, h.below⟩, rfl⟩

/-- The file is a regular one of 100 bytes, at its start. -/
def Tiny.files : Files where
  file _ := ⟨.inode, 1, true, false, 0, 0, 0⟩
  pipe _ := ⟨fun _ => 0, 0, 0, false, false⟩
  inode _ := ⟨.file, 0, 100, by decide, fun _ _ => 0⟩

/-- The arguments of `read(3, 0x2000, n)`. -/
def Tiny.readArgs (n : CInt) (k : ℕ) : Option CInt :=
  if k = 0 then some ⟨3, by decide⟩ else if k = 1 then some ⟨0x2000, by decide⟩ else some n

theorem sysRead_confined_iff_tiny :
    ReadConfined 0x3000 0x2000 16
      (sysRead Tiny.reader Tiny.files (Tiny.readArgs ⟨16, by decide⟩) []) :=
  (sysRead_confined_iff Tiny.reader_reachable Tiny.files (Tiny.readArgs ⟨16, by decide⟩) [] rfl rfl
    fun _ _ => nofun).mpr fun hbad => absurd hbad.1 (by decide)

/-- Reading -4096 bytes to 0x2000: all 100 bytes of the file are stored. -/
theorem read_negative_stores :
    ∃ t r, Reachable Tiny.reader ∧
      sysRead Tiny.reader Tiny.files (Tiny.readArgs ⟨-4096, by decide⟩) [] = .ok (t, r) ∧
      t.ret = some 100 ∧ t.stores.length = 100 ∧ (0x2000, 0) ∈ t.stores ∧
      ¬ Confined 0x3000 0x2000 (-4096) t.stores := by
  have hsys : sysRead Tiny.reader Tiny.files (Tiny.readArgs ⟨-4096, by decide⟩) [] =
      fileread Tiny.files false [] 0 0x2000 (-4096) := rfl
  obtain ⟨r, hr⟩ := fileread_inode (rfl : (Tiny.files.file 0).readable = true) rfl false [] 0x2000
    (-4096)
  have hstores : (readi (Tiny.files.inode (Tiny.files.file 0).ip) false [] 0x2000
      (Tiny.files.file 0).off (u32i (-4096))).1.stores = (List.range 100).map fun i =>
        (u32 (0x2000 + i), (Tiny.files.inode 0).byte (0 + i)) :=
    readi_stores (by decide : (Tiny.files.inode 0).type ≠ .dev) false [] 0x2000 0 ⟨-4096, by decide⟩
  refine ⟨_, r, Tiny.reader_reachable, hsys.trans hr, by decide, ?_, ?_, fun hc => ?_⟩
  · rw [hstores, length_map, length_range]
  · rw [hstores]
    exact mem_map.mpr ⟨0, mem_range.mpr (by decide), rfl⟩
  · have hnil := hc.refused (.inl (by decide))
    rw [hstores] at hnil
    cases hnil

end Xv6
