import Xv6.Library.ByteMemory
import Xv6.Library.Concurrent
import Xv6.Log.Buffer

/-!
# Blocks and inodes

The block allocator, the inode cache and the contents of inodes: `balloc`, `bfree`, `ilock`, `iput`,
`bmap`, `itrunc`, `readi` and `writei` of `fs.c`, as programs that any number of processes can run
at the same time.

## The disk

Blocks are what the buffer cache shows of them. The bitmap and the inode blocks are the bits and the
`struct dinode`s they contain; which block each lies in plays no part. All inodes are on one device.

## Granularity

A step is what a process does between a `bread` and the `brelse` of the same buffer, what it does
with `icache.lock` held, or an assignment to an inode in memory. `ilock` waits until it can set
`I_BUSY` and reads the inode in the same step: while `I_BUSY` is set only `ialloc` can change the
inode on the disk, and it could as well have come before.

The cache entry of an inode is found by its number. `iget` makes sure that there is at most one in
use, so a pointer to an entry and the number of its inode are the same to whoever has a reference.

## Main definitions

* `State`, `Panic`
* `balloc`, `bfree`, `bmap`, `itrunc`, `iupdate`
* `idup`, `ilock`, `iunlock`, `iput`
* `readi`, `writei`
-/

namespace Xv6.Fs

open ByteMemory Function Prog

/-- `NDIRECT`. -/
abbrev ndirect : ℕ := 12
/-- `NINDIRECT`: the block numbers in an indirect block. -/
abbrev nindirect : ℕ := 128
/-- `BPB`: bitmap bits per block. -/
abbrev bpb : ℕ := bsize * 8
/-- `NINODE`: maximum number of active inodes. -/
abbrev ninode : ℕ := 50
/-- `NDEV`: maximum major device number. -/
abbrev ndev : ℤ := 10

/-- `struct superblock`, without the log and the inode blocks. -/
structure Super where
  size : ℕ
  size_lt : size < 2 ^ 32
  ninodes : ℕ
  /-- Their numbers fit in the `ushort` of a directory entry. -/
  ninodes_le : ninodes ≤ 65536
  bmapstart : ℕ

/-- What a file is: the `type` of an inode, which is 0 if the inode is free. -/
inductive Kind
  | free | dir | file | dev
  deriving DecidableEq, Repr

/-- `struct dinode`, and the part of `struct inode` that is a copy of it. -/
structure Dinode where
  type : Kind
  major : ℤ
  minor : ℤ
  /-- A `short`, which does not wrap: a disk of `FSSIZE` blocks has room for fewer than 2^15
  entries, and it would take as many that are lost with the directory they are in to make a
  difference. -/
  nlink : ℤ
  size : ℕ
  /-- Data block addresses, and in `addrs[NDIRECT]` that of the indirect block. -/
  addrs : ℕ → ℕ

/-- An inode as `ialloc` leaves it. -/
def Dinode.new (type : Kind) : Dinode := ⟨type, 0, 0, 0, 0, fun _ => 0⟩

/-- `struct inode`. -/
structure Entry where
  ref : ℕ
  busy : Bool
  valid : Bool
  copy : Dinode

/-- The disk and the inode cache. -/
structure State where
  bitmap : ℕ → Bool
  data : ℕ → Block
  dinode : ℕ → Dinode
  icache : ℕ → Entry

/-- The panics of the file system. -/
inductive Panic
  | outOfBlocks -- "balloc: out of blocks"
  | freeingFree -- "freeing free block"
  | iallocNone -- "ialloc: no inodes"
  | igetNone -- "iget: no inodes"
  | ilock -- "ilock"
  | noType -- "ilock: no type"
  | iunlock -- "iunlock"
  | iputBusy -- "iput busy"
  | outOfRange -- "bmap: out of range"
  | notDir -- "dirlookup not DIR"
  /-- `panic("dirlink read")`, in `dirlookup` too. -/
  | dirlinkRead
  | dirlink -- "dirlink"
  | isdirempty -- "isdirempty: readi"
  | unlinkNlink -- "unlink: nlink < 1"
  | unlinkWritei -- "unlink: writei"
  | createDots -- "create dots"
  | createDirlink -- "create: dirlink"
  | shortFilewrite -- "short filewrite"
  | filedup -- "filedup"
  | fileclose -- "fileclose"
  | fileread -- "fileread"
  | filewrite -- "filewrite"
  deriving DecidableEq, Repr

/-- A program of this layer. -/
abbrev Code (α : Type) : Type 1 := Prog State Panic α

namespace State

variable (s : State)

/-- An inode in memory. -/
def copy (i : ℕ) : Dinode := (s.icache i).copy

/-- The state with another cache entry for inode `i`. -/
def setEntry (i : ℕ) (e : Entry) : State := { s with icache := update s.icache i e }

/-- The state with the inode in memory changed. -/
def setCopy (i : ℕ) (d : Dinode) : State := s.setEntry i { s.icache i with copy := d }

/-- The state with another address in the inode in memory. -/
def setAddr (i k b : ℕ) : State :=
  s.setCopy i { s.copy i with addrs := update (s.copy i).addrs k b }

/-- The state with other contents of a block. -/
def setData (b : ℕ) (d : Block) : State := { s with data := update s.data b d }

/-- The state with another bit in the bitmap. -/
def setBit (b : ℕ) (bit : Bool) : State := { s with bitmap := update s.bitmap b bit }

/-- The state with another inode on the disk. -/
def setDinode (i : ℕ) (d : Dinode) : State := { s with dinode := update s.dinode i d }

end State

/-! ### Blocks -/

/-- Zero a block. -/
def bzero (b : ℕ) : Code Unit := .modify (·.setData b fun _ => 0)

/-- The first free block of those that a bitmap block with `n` bits has bits for, from block `b` on.
-/
def firstFree (sb : Super) (s : State) (b n : ℕ) : Option ℕ :=
  ((List.range n).map (b + ·)).find? fun b => decide (b < sb.size) && !s.bitmap b

/-- Mark the first free block of a bitmap block. -/
def markFree (sb : Super) (b n : ℕ) (s : State) : Option ℕ × State :=
  match firstFree sb s b n with
  | some n => (some n, s.setBit n true)
  | none => (none, s)

/-- The loop of `balloc` over the bitmap blocks. -/
def ballocLoop (sb : Super) : List ℕ → Code ℕ
  | [] => .panic .outOfBlocks
  | b :: bs => do
    match ← step fun s => some (.ok (markFree sb b bpb s)) with
    | some n =>
      bzero n
      pure n
    | none => ballocLoop sb bs

/-- Allocate a zeroed disk block. -/
def balloc (sb : Super) : Code ℕ :=
  ballocLoop sb ((List.range ((sb.size + bpb - 1) / bpb)).map (· * bpb))

/-- Free a disk block. -/
def bfree (b : ℕ) : Code Unit :=
  .step fun s => some (if s.bitmap b then .ok ((), s.setBit b false) else .error .freeingFree)

/-! ### Inodes -/

/-- Copy a modified in-memory inode to disk. -/
def iupdate (i : ℕ) : Code Unit := .modify fun s => s.setDinode i (s.copy i)

/-- Increment the reference count. -/
def idup (i : ℕ) : Code Unit :=
  .modify fun s => s.setEntry i { s.icache i with ref := (s.icache i).ref + 1 }

/-- Lock the inode, and read it from disk if necessary. -/
def ilock (i : ℕ) : Code Unit :=
  .step fun s =>
    let e := s.icache i
    if e.ref < 1 then some (.error .ilock)
    else if e.busy then none
    else if e.valid then some (.ok ((), s.setEntry i { e with busy := true }))
    else if (s.dinode i).type = .free then some (.error .noType)
    else some (.ok ((), s.setEntry i { e with busy := true, valid := true, copy := s.dinode i }))

/-- Unlock the inode. -/
def iunlock (i : ℕ) : Code Unit :=
  .step fun s =>
    let e := s.icache i
    if !e.busy ∨ e.ref < 1 then some (.error .iunlock)
    else some (.ok ((), s.setEntry i { e with busy := false }))

/-- The block address in the inode, allocated if there is none. -/
def bmapAddr (sb : Super) (i k : ℕ) : Code ℕ := do
  let addr ← read fun s => (s.copy i).addrs k
  if addr = 0 then
    let addr ← balloc sb
    modify (·.setAddr i k addr)
    pure addr
  else pure addr

/-- The disk block address of the `bn`-th block of an inode. If there is no such block, `bmap`
allocates one. -/
def bmap (sb : Super) (i bn : ℕ) : Code ℕ :=
  if bn < ndirect then bmapAddr sb i bn
  else if bn - ndirect < nindirect then do
    let ind ← bmapAddr sb i ndirect
    let addr ← read fun s => load32 (s.data ind) (4 * (bn - ndirect))
    if addr = 0 then
      let addr ← balloc sb
      modify fun s => s.setData ind (store32 (s.data ind) (4 * (bn - ndirect)) addr)
      pure addr
    else pure addr
  else .panic .outOfRange

/-- Do something for each number. -/
def forEach (f : ℕ → Code Unit) : List ℕ → Code Unit
  | [] => pure ()
  | k :: ks => do
    f k
    forEach f ks

/-- Truncate an inode. -/
def itrunc (i : ℕ) : Code Unit := do
  forEach (fun k => do
    let addr ← read fun s => (s.copy i).addrs k
    if addr ≠ 0 then
      bfree addr
      modify (·.setAddr i k 0)) (List.range ndirect)
  let ind ← read fun s => (s.copy i).addrs ndirect
  if ind ≠ 0 then
    forEach (fun j => do
      let addr ← read fun s => load32 (s.data ind) (4 * j)
      if addr ≠ 0 then bfree addr) (List.range nindirect)
    bfree ind
    modify (·.setAddr i ndirect 0)
  modify fun s => s.setCopy i { s.copy i with size := 0 }
  iupdate i

/-- Drop a reference to an inode. If it was the last one and the inode has no links, free it. -/
def iput (i : ℕ) : Code Unit := do
  let last ← step fun s =>
    let e := s.icache i
    if e.ref = 1 ∧ e.valid ∧ e.copy.nlink = 0 then
      if e.busy then some (.error .iputBusy)
      else some (.ok (true, s.setEntry i { e with busy := true }))
    else some (.ok (false, s.setEntry i { e with ref := e.ref - 1 }))
  if last then
    itrunc i
    modify fun s => s.setCopy i { s.copy i with type := .free }
    iupdate i
    modify fun s =>
      s.setEntry i { s.icache i with busy := false, valid := false, ref := (s.icache i).ref - 1 }

/-! ### Contents -/

/-- What `readi` and `writei` return. -/
inductive Transfer (α : Type)
  | fail
  /-- What the device's own function returns. -/
  | device
  /-- The number of bytes, and the bytes if they are read. -/
  | done (n : ℕ) (bytes : α)
  deriving DecidableEq

/-- The loop of `readi`, with `left` bytes still to read. Each round copies from one block, so there
are not more rounds than bytes. -/
def readiLoop (sb : Super) (i : ℕ) : ℕ → (off left : ℕ) → Code (List UInt8)
  | 0, _, _ => pure []
  | k + 1, off, left =>
    if left = 0 then pure []
    else do
      let b ← bmap sb i (off / bsize)
      let m := min left (bsize - off % bsize)
      let bytes ← read fun s => (List.range m).map fun j => s.data b (off % bsize + j)
      let rest ← readiLoop sb i k (off + m) (left - m)
      pure (bytes ++ rest)

/-- Read data from an inode. `devread` are the devices that can be read. -/
def readi (sb : Super) (devread : ℤ → Bool) (i : ℕ) (off n : UInt32) :
    Code (Transfer (List UInt8)) := do
  let ip ← read (·.copy i)
  if ip.type = .dev then
    if ip.major < 0 ∨ ip.major ≥ ndev ∨ !devread ip.major then pure .fail else pure .device
  else if off.toNat > ip.size ∨ (off + n).toNat < off.toNat then pure .fail
  else
    let n := if (off + n).toNat > ip.size then ip.size - off.toNat else n.toNat
    let bytes ← readiLoop sb i n off.toNat n
    pure (.done n bytes)

/-- The loop of `writei`, with the bytes that are still to be written. -/
def writeiLoop (sb : Super) (i : ℕ) : ℕ → (off : ℕ) → List UInt8 → Code Unit
  | 0, _, _ => pure ()
  | k + 1, off, src =>
    if src.length = 0 then pure ()
    else do
      let b ← bmap sb i (off / bsize)
      let m := min src.length (bsize - off % bsize)
      modify fun s => s.setData b (place (s.data b) (off % bsize) (src.take m))
      writeiLoop sb i k (off + m) (src.drop m)

/-- Write data to an inode: the `n` bytes of `src`. `devwrite` are the devices that can be written.
-/
def writei (sb : Super) (devwrite : ℤ → Bool) (i : ℕ) (src : List UInt8) (off n : UInt32) :
    Code (Transfer Unit) := do
  let ip ← read (·.copy i)
  if ip.type = .dev then
    if ip.major < 0 ∨ ip.major ≥ ndev ∨ !devwrite ip.major then pure .fail else pure .device
  else if off.toNat > ip.size ∨ (off + n).toNat < off.toNat then pure .fail
  else if (off + n).toNat > maxfile * bsize then pure .fail
  else
    writeiLoop sb i n.toNat off.toNat (src.take n.toNat)
    let size ← read fun s => (s.copy i).size
    if 0 < n.toNat ∧ off.toNat + n.toNat > size then
      modify fun s => s.setCopy i { s.copy i with size := off.toNat + n.toNat }
      iupdate i
    pure (.done n.toNat ())

end Xv6.Fs
