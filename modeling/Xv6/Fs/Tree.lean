import Xv6.Fs.Syscalls

/-!
# Inodes as the system calls on names see them

An implementation of the inode operations that leaves the contents of files out: a directory is the
list of its entries, and nothing is said about blocks. What there is of an inode in memory and on
the disk is one thing here, apart from whether the inode is marked as allocated on the disk, which
is what `ialloc` looks at.

## Granularity

Assignments to an inode are seen by nobody before the inode is unlocked. So `iput` decides to free
an inode, truncates it and clears its type in one step, and marks it as free on the disk in the
next; and the read of the inode by `ilock` is one step with setting `I_BUSY`. `iupdate` has nothing
to do.

## Main definitions

* `State`, `inodes` — the implementation
* `Ino.ords`, `Ino.parent` — the ordinary entries of a directory, and its ".."
* `links`, `subdirs` — how many entries name an inode, and how many of its own name directories
-/

namespace Xv6.Fs.Tree

open Function

/-- What there is of an inode. `nlink`, a `short`, is an integer here, which does not wrap: a disk
of `FSSIZE` blocks has room for fewer than 2^15 entries, and it would take as many that are lost
with the directory they are in to make a difference. -/
structure Ino where
  type : Kind
  nlink : ℤ
  entries : List Dirent
  deriving DecidableEq

/-- An inode that has just been freed, or one with another type that has just been allocated. -/
def Ino.new (type : Kind) : Ino := ⟨type, 0, []⟩

/-- The inodes and the inode cache. -/
structure State where
  ino : ℕ → Ino
  /-- Is the inode allocated on the disk? -/
  used : ℕ → Bool
  ref : ℕ → ℕ
  busy : ℕ → Bool
  valid : ℕ → Bool

namespace State

variable (s : State) (i : ℕ)

/-- The state with another inode. -/
def setIno (v : Ino) : State := { s with ino := update s.ino i v }
/-- The state with the inode marked as free or not on the disk. -/
def setUsed (b : Bool) : State := { s with used := update s.used i b }
/-- The state with another reference count. -/
def setRef (n : ℕ) : State := { s with ref := update s.ref i n }
/-- The state with `I_BUSY` set or cleared. -/
def setBusy (b : Bool) : State := { s with busy := update s.busy i b }
/-- The state with `I_VALID` set or cleared. -/
def setValid (b : Bool) : State := { s with valid := update s.valid i b }

/-- How many inode cache entries are in use. -/
def inUse (sb : Super) : ℕ :=
  ((List.range sb.ninodes).filter fun j => decide (0 < s.ref j)).length

end State

/-! ### Operations -/

/-- Find the inode and make a reference to it. -/
def iget (sb : Super) (i : ℕ) : Prog State Panic Unit :=
  .step fun s =>
    if 0 < s.ref i then some (.ok ((), s.setRef i (s.ref i + 1)))
    else if ninode ≤ s.inUse sb then some (.error .igetNone)
    else some (.ok ((), ((s.setRef i 1).setBusy i false).setValid i false))

/-- Increment the reference count. -/
def idup (i : ℕ) : Prog State Panic Unit := .modify fun s => s.setRef i (s.ref i + 1)

/-- Lock the inode. -/
def ilock (i : ℕ) : Prog State Panic Unit :=
  .step fun s =>
    if s.ref i < 1 then some (.error .ilock)
    else if s.busy i then none
    else if s.valid i then some (.ok ((), s.setBusy i true))
    else if (s.ino i).type = .free then some (.error .noType)
    else some (.ok ((), (s.setBusy i true).setValid i true))

/-- Unlock the inode. -/
def iunlock (i : ℕ) : Prog State Panic Unit :=
  .step fun s =>
    if !s.busy i ∨ s.ref i < 1 then some (.error .iunlock)
    else some (.ok ((), s.setBusy i false))

/-- The first step of `iput`: drop the reference, or lock the inode and discard what is in it. -/
def iputTest (i : ℕ) : Prog State Panic Bool :=
  .step fun s =>
    if s.ref i = 1 ∧ s.valid i ∧ (s.ino i).nlink = 0 then
      if s.busy i then some (.error .iputBusy)
      else some (.ok (true, (s.setBusy i true).setIno i (.new .free)))
    else some (.ok (false, s.setRef i (s.ref i - 1)))

/-- Drop a reference to an inode. If it was the last one and the inode has no links, free it. -/
def iput (i : ℕ) : Prog State Panic Unit := do
  let last ← iputTest i
  if last then
    Prog.modify fun s => s.setUsed i false
    Prog.modify fun s => ((s.setBusy i false).setValid i false).setRef i (s.ref i - 1)

/-- A step of the loop of `ialloc`: allocate the inode if it is free. -/
def iallocTest (type : Kind) (i : ℕ) : Prog State Panic Bool :=
  .step fun s =>
    if s.used i then some (.ok (false, s))
    else some (.ok (true, (s.setUsed i true).setIno i (.new type)))

/-- The loop of `ialloc` over the inodes. -/
def iallocLoop (sb : Super) (type : Kind) : List ℕ → Prog State Panic ℕ
  | [] => .panic .iallocNone
  | i :: is => do
    let found ← iallocTest type i
    if found then
      iget sb i
      pure i
    else iallocLoop sb type is

/-- Allocate a new inode with the given type. -/
def ialloc (sb : Super) (type : Kind) : Prog State Panic ℕ :=
  iallocLoop sb type ((List.range (sb.ninodes - 1)).map (· + 1))

/-- Set the number of links. -/
def setNlink (i : ℕ) (n : ℤ) : Prog State Panic Unit :=
  .modify fun s => s.setIno i { s.ino i with nlink := n }

/-- The entries after entry `k`, or one behind the last, has been written. -/
def putAt (es : List Dirent) (k : ℕ) (de : Dirent) : List Dirent :=
  if k < es.length then es.set k de else es ++ [de]

/-- Write a directory entry. -/
def writede (i off : ℕ) (de : Dirent) : Prog State Panic Bool :=
  .step fun s =>
    let es := (s.ino i).entries
    if es.length * direntSize < off ∨ maxfile * bsize < off + direntSize then
      some (.ok (false, s))
    else
      some (.ok (true, s.setIno i { s.ino i with entries := putAt es (off / direntSize) de }))

/-- The inode operations. -/
def inodes (sb : Super) : (o : FsOp) → Prog State Panic o.Ret
  | .iget i => iget sb i
  | .idup i => idup i
  | .ilock i => ilock i
  | .iunlock i => iunlock i
  | .iput i => iput i
  | .ialloc type => ialloc sb type
  | .iupdate _ => .ret ()
  | .type i => .read fun s => (s.ino i).type
  | .nlink i => .read fun s => (s.ino i).nlink
  | .size i => .read fun s => (s.ino i).entries.length * direntSize
  | .setNlink i n => setNlink i n
  | .setDev _ _ _ => .ret ()
  | .readde i off => .read fun s => (s.ino i).entries[off / direntSize]?
  | .writede i off de => writede i off de
  | .panic e => .panic e

/-! ### The tree -/

/-- The inode numbers in the ordinary entries of a directory: those that are not "." or "..". -/
def Ino.ords (v : Ino) : List ℕ := ((v.entries.drop 2).map Dirent.inum).filter (· ≠ 0)

/-- The inode number in "..". -/
def Ino.parent (v : Ino) : Option ℕ := v.entries[1]?.map Dirent.inum

/-- How many ordinary entries name inode `i`. There are `n` inodes. -/
def links (n : ℕ) (ino : ℕ → Ino) (i : ℕ) : ℕ := ∑ d ∈ Finset.range n, (ino d).ords.count i

/-- How many of the ordinary entries of directory `i` name directories. -/
def subdirs (ino : ℕ → Ino) (i : ℕ) : ℕ := (ino i).ords.countP fun j => (ino j).type = .dir

end Xv6.Fs.Tree
