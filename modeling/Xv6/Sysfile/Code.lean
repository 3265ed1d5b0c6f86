import Xv6.Fs.Dirent
import Xv6.Log.Log

/-!
# The system calls on files

`sysfile.c` and `file.c`, with `namex` and the directory functions of `fs.c`, `pipealloc` and
`pipeclose` of `pipe.c`, and what `fork`, `exit` and `exec` do with files: as the code has them,
with pointers to inodes and to files. `Fs.Syscalls` has some of the same functions on inode numbers,
for one process at a time with its files.

The programs are written over an interface. `InodeOp` is what they ask of inodes, for any type `η`
of pointers to inodes; `FileOp` is what they do with the tables of processes, files and pipes. What
is done with a table in one step is what the code does with its lock held, or what no other process
can see.

`begin_op` and `end_op` are left out. They make calls wait, and so allow fewer interleavings. Calls
whose arguments cannot be fetched return -1 and do nothing. What a pipe holds is left out too.

## Main definitions

* `InodeOp`, `FileOp` — the interface
* `namex`, `create`, `fileclose`, `pipealloc`
* `Syscall`, `Syscall.code` — the system calls
* `Tables`, `FileOp.apply`, `syscalls` — the tables, and the calls with an implementation of inodes
-/

namespace Xv6.Sysfile

open Fs Function

/-! ### The interface -/

/-- What the system calls ask of inodes. -/
inductive InodeOp (η : Type)
  | iget (inum : ℕ) | idup (ip : η) | ilock (ip : η) | iunlock (ip : η) | iput (ip : η)
  | ialloc (type : Kind) | iupdate (ip : η)
  | inum (ip : η) | type (ip : η) | nlink (ip : η) | size (ip : η)
  | setNlink (ip : η) (n : ℤ) | setDev (ip : η) (major minor : ℤ)
  | readi (ip : η) (off n : UInt32) | writei (ip : η) (src : List UInt8) (off : UInt32)
  | panic (e : Panic)

/-- How inode operations are answered. -/
def InodeOp.Ret {η : Type} : InodeOp η → Type
  | .iget _ | .ialloc _ => η
  | .inum _ | .size _ => ℕ
  | .type _ => Kind
  | .nlink _ => ℤ
  | .readi _ _ _ => Transfer (List UInt8)
  | .writei _ _ _ => Transfer Unit
  | .idup _ | .ilock _ | .iunlock _ | .iput _ | .iupdate _ | .setNlink _ _ | .setDev _ _ _
  | .panic _ => Unit

/-- The type of a file, with what it is a file of. -/
inductive FdType (η : Type)
  | none
  | pipe (p : ℕ)
  | inode (ip : η)
  deriving DecidableEq

/-- `struct file`. -/
structure File (η : Type) where
  type : FdType η
  ref : ℕ
  readable : Bool
  writable : Bool
  off : UInt32
  deriving DecidableEq

/-- What the system calls do with processes, files and pipes. -/
inductive FileOp (ι η : Type)
  /-- Is there such a process? -/
  | running
  | cwd
  /-- `proc->cwd`, for `iput`. -/
  | dropCwd
  | setCwd (ip : Option η)
  | ofile (fd : Fin nofile)
  | setOfile (fd : Fin nofile) (f : Option (Fin nfile))
  | filealloc
  | filedup (f : Fin nfile)
  /-- What `fileclose` does with the lock of the table held: the file, if it is to be closed. -/
  | fileput (f : Fin nfile)
  | file (f : Fin nfile)
  | setFile (f : Fin nfile) (type : FdType η) (readable writable : Bool)
  | setOff (f : Fin nfile) (off : UInt32)
  | newpipe
  /-- Close an end of a pipe. Is the other one closed too? -/
  | pipeclose (p : ℕ) (writable : Bool)
  | kfree (p : ℕ)
  | allocproc (np : ι)
  /-- Give the process back that `allocproc` has returned. -/
  | unalloc (np : ι)
  /-- The new process has the same files and the same current directory, and can run. -/
  | runnable (np : ι)
  | zombie

/-- How these operations are answered. -/
def FileOp.Ret {ι η : Type} : FileOp ι η → Type
  | .running | .pipeclose _ _ | .allocproc _ => Bool
  | .cwd | .dropCwd => Option η
  | .ofile _ | .filealloc => Option (Fin nfile)
  | .fileput _ => Option (File η)
  | .file _ => File η
  | .newpipe => ℕ
  | .setCwd _ | .setOfile _ _ | .filedup _ | .setFile _ _ _ _ | .setOff _ _ | .kfree _
  | .unalloc _ | .runnable _ | .zombie => Unit

/-- An operation of one or the other kind. -/
abbrev Op (ι η : Type) : Type := InodeOp η ⊕ FileOp ι η

/-- How operations are answered. -/
abbrev Op.Ret {ι η : Type} : Op ι η → Type := Sum.elim InodeOp.Ret FileOp.Ret

/-- A program of this layer. -/
abbrev Sys (ι η α : Type) : Type 1 := Call (Op ι η) Op.Ret α

variable {ι η : Type}

namespace Sys

/-- Ask for an inode operation. -/
def ino (o : InodeOp η) : Sys ι η o.Ret := .ask (Sum.inl o)

/-- Ask for an operation on the tables. -/
def tab (o : FileOp ι η) : Sys ι η o.Ret := .ask (Sum.inr o)

def iget (inum : ℕ) : Sys ι η η := ino (.iget inum)
def idup (ip : η) : Sys ι η Unit := ino (.idup ip)
def ilock (ip : η) : Sys ι η Unit := ino (.ilock ip)
def iunlock (ip : η) : Sys ι η Unit := ino (.iunlock ip)
def iput (ip : η) : Sys ι η Unit := ino (.iput ip)
def ialloc (type : Kind) : Sys ι η η := ino (.ialloc type)
def iupdate (ip : η) : Sys ι η Unit := ino (.iupdate ip)
/-- `ip->inum`. -/
def getInum (ip : η) : Sys ι η ℕ := ino (.inum ip)
/-- `ip->type`. -/
def getType (ip : η) : Sys ι η Kind := ino (.type ip)
/-- `ip->nlink`. -/
def getNlink (ip : η) : Sys ι η ℤ := ino (.nlink ip)
/-- `ip->size`. -/
def getSize (ip : η) : Sys ι η ℕ := ino (.size ip)
/-- Set `ip->nlink`. -/
def setNlink (ip : η) (n : ℤ) : Sys ι η Unit := ino (.setNlink ip n)
/-- Set `ip->major` and `ip->minor`. -/
def setDev (ip : η) (major minor : ℤ) : Sys ι η Unit := ino (.setDev ip major minor)
def readi (ip : η) (off n : UInt32) : Sys ι η (Transfer (List UInt8)) := ino (.readi ip off n)
def writei (ip : η) (src : List UInt8) (off : UInt32) : Sys ι η (Transfer Unit) :=
  ino (.writei ip src off)
def panic (e : Panic) : Sys ι η Unit := ino (.panic e)
/-- `proc->cwd`. -/
def cwd : Sys ι η (Option η) := tab .cwd
/-- `proc->cwd`, for `iput`. -/
def dropCwd : Sys ι η (Option η) := tab .dropCwd
/-- Set `proc->cwd`. -/
def setCwd (ip : Option η) : Sys ι η Unit := tab (.setCwd ip)
/-- `proc->ofile[fd]`. -/
def ofile (fd : Fin nofile) : Sys ι η (Option (Fin nfile)) := tab (.ofile fd)
/-- Set `proc->ofile[fd]`. -/
def setOfile (fd : Fin nofile) (f : Option (Fin nfile)) : Sys ι η Unit := tab (.setOfile fd f)
/-- Allocate a file structure. -/
def filealloc : Sys ι η (Option (Fin nfile)) := tab .filealloc
/-- Increment the reference count of a file. -/
def filedup (f : Fin nfile) : Sys ι η Unit := tab (.filedup f)
/-- What `fileclose` does with the lock of the table held. -/
def fileput (f : Fin nfile) : Sys ι η (Option (File η)) := tab (.fileput f)
/-- The file. -/
def file (f : Fin nfile) : Sys ι η (File η) := tab (.file f)
/-- Set what the file is and how it is open. -/
def setFile (f : Fin nfile) (type : FdType η) (readable writable : Bool) : Sys ι η Unit :=
  tab (.setFile f type readable writable)
/-- Set `f->off`. -/
def setOff (f : Fin nfile) (off : UInt32) : Sys ι η Unit := tab (.setOff f off)
/-- Is there such a process? -/
def running : Sys ι η Bool := tab .running
/-- A new pipe with both ends open. -/
def newpipe : Sys ι η ℕ := tab .newpipe
/-- Close an end of a pipe. -/
def closeEnd (p : ℕ) (writable : Bool) : Sys ι η Bool := tab (.pipeclose p writable)
/-- `kfree` of a pipe. -/
def kfree (p : ℕ) : Sys ι η Unit := tab (.kfree p)
def allocproc (np : ι) : Sys ι η Bool := tab (.allocproc np)
/-- Give a process back. -/
def unalloc (np : ι) : Sys ι η Unit := tab (.unalloc np)
/-- The new process can run. -/
def runnable (np : ι) : Sys ι η Unit := tab (.runnable np)
/-- The process comes to its end. -/
def zombie : Sys ι η Unit := tab .zombie

/-! ### Directories -/

/-- Unlock, then put. -/
def iunlockput (ip : η) : Sys ι η Unit := do
  iunlock ip
  iput ip

/-- `readi` of a whole directory entry. -/
def readde (dp : η) (off : ℕ) : Sys ι η (Option (List UInt8)) := do
  match ← readi dp (.ofNat off) (.ofNat direntSize) with
  | .done n bytes => pure (if n = direntSize then some bytes else none)
  | _ => pure none

/-- `writei` of a whole directory entry. -/
def writede (dp : η) (off : ℕ) (de : List UInt8) : Sys ι η Bool := do
  match ← writei dp de (.ofNat off) with
  | .done n _ => pure (decide (n = direntSize))
  | _ => pure false

/-- The loop of `dirlookup`. -/
def dirlookupLoop (dp : η) (name : Name) : List ℕ → Sys ι η (Option (η × ℕ))
  | [] => pure none
  | off :: offs => do
    match ← readde dp off with
    | none =>
      panic .dirlinkRead
      pure none
    | some de =>
      if direntInum de = 0 then dirlookupLoop dp name offs
      else if namecmp name (direntName de) = 0 then do
        let ip ← iget (direntInum de)
        pure (some (ip, off))
      else dirlookupLoop dp name offs

/-- Look for a directory entry in a directory: the inode and the offset of the entry. -/
def dirlookup (dp : η) (name : Name) : Sys ι η (Option (η × ℕ)) := do
  let type ← getType dp
  if type ≠ .dir then panic .notDir
  let size ← getSize dp
  dirlookupLoop dp name (Fs.Sys.offsets 0 size)

/-- The loop of `dirlink` that looks for an empty entry. -/
def emptyEntry (dp : η) (size : ℕ) : List ℕ → Sys ι η ℕ
  | [] => pure size
  | off :: offs => do
    match ← readde dp off with
    | none =>
      panic .dirlinkRead
      pure off
    | some de => if direntInum de = 0 then pure off else emptyEntry dp size offs

/-- Write a new directory entry into the directory `dp`. -/
def dirlink (dp : η) (name : Name) (inum : ℕ) : Sys ι η Bool := do
  match ← dirlookup dp name with
  | some (ip, _) =>
    iput ip
    pure false
  | none =>
    let size ← getSize dp
    let off ← emptyEntry dp size (Fs.Sys.offsets 0 size)
    let ok ← writede dp off (direntBytes inum name)
    if !ok then panic .dirlink
    pure true

/-- The loop of `isdirempty`. -/
def isdiremptyLoop (dp : η) : List ℕ → Sys ι η Bool
  | [] => pure true
  | off :: offs => do
    match ← readde dp off with
    | none =>
      panic .isdirempty
      pure false
    | some de => if direntInum de ≠ 0 then pure false else isdiremptyLoop dp offs

/-- Is the directory `dp` empty except for "." and ".."? -/
def isdirempty (dp : η) : Sys ι η Bool := do
  let size ← getSize dp
  isdiremptyLoop dp (Fs.Sys.offsets 2 size)

/-! ### Paths -/

/-- The loop of `namex` over the elements of the path. It returns the inode and, if the parent is
wanted, the final element. -/
def namexLoop (nameiparent : Bool) : η → List Name → Sys ι η (Option (η × Name))
  | ip, [] => do
    if nameiparent then
      iput ip
      pure none
    else pure (some (ip, []))
  | ip, name :: rest => do
    ilock ip
    let type ← getType ip
    if type ≠ .dir then
      iunlockput ip
      pure none
    else if nameiparent ∧ rest = [] then
      iunlock ip
      pure (some (ip, name))
    else
      match ← dirlookup ip name with
      | none =>
        iunlockput ip
        pure none
      | some (next, _) =>
        iunlockput ip
        namexLoop nameiparent next rest

/-- Look up the inode for a path name, or for its parent. -/
def namex (path : Name) (nameiparent : Bool) : Sys ι η (Option (η × Name)) := do
  if path.head? = some slash then
    let ip ← iget rootino
    namexLoop nameiparent ip (elems path)
  else
    match ← cwd with
    | none => pure none
    | some dp =>
      idup dp
      namexLoop nameiparent dp (elems path)

/-- Look up the inode for a path name. -/
def namei (path : Name) : Sys ι η (Option η) := do
  let r ← namex path false
  pure (r.map Prod.fst)

/-- Look up the parent of a path name, and the final element. -/
def nameiparent (path : Name) : Sys ι η (Option (η × Name)) := namex path true

/-! ### Names of inodes -/

/-- The "." and ".." entries of a new directory. -/
def createDots (dp ip : η) : Sys ι η Unit := do
  let self ← getInum ip
  if !(← dirlink ip dot self) then panic .createDots
  else
    let parent ← getInum dp
    if !(← dirlink ip dotdot parent) then panic .createDots

/-- The end of `create`: the name of the new inode. -/
def createName (dp ip : η) (name : Name) : Sys ι η (Option η) := do
  let inum ← getInum ip
  if !(← dirlink dp name inum) then panic .createDirlink
  iunlockput dp
  pure (some ip)

/-- The part of `create` that makes a new inode and enters it into the locked directory `dp`. -/
def createNew (dp : η) (name : Name) (type : Kind) (major minor : ℤ) : Sys ι η (Option η) := do
  let ip ← ialloc type
  ilock ip
  setDev ip major minor
  setNlink ip 1
  iupdate ip
  if type = .dir then
    let n ← getNlink dp
    setNlink dp (n + 1)
    iupdate dp
    createDots dp ip
  createName dp ip name

/-- Create an inode with a name, or find the file that has it. The inode that is returned is locked.
-/
def create (path : Name) (type : Kind) (major minor : ℤ) : Sys ι η (Option η) := do
  match ← nameiparent path with
  | none => pure none
  | some (dp, name) =>
    ilock dp
    match ← dirlookup dp name with
    | some (ip, _) =>
      iunlockput dp
      ilock ip
      let iptype ← getType ip
      if type = .file ∧ iptype = .file then pure (some ip)
      else
        iunlockput ip
        pure none
    | none => createNew dp name type major minor

/-- `sys_mkdir` and `sys_mknod`: create, then unlock and put. -/
def sysMake (path : Name) (type : Kind) (major minor : ℤ) : Sys ι η ℤ := do
  match ← create path type major minor with
  | none => pure (-1)
  | some ip =>
    iunlockput ip
    pure 0

/-- Make a directory. -/
def sysMkdir (path : Name) : Sys ι η ℤ := sysMake path .dir 0 0

/-- Make a device file. -/
def sysMknod (path : Name) (major minor : ℤ) : Sys ι η ℤ := sysMake path .dev major minor

/-- The end of `sys_link` and of `sys_unlink`: a locked inode has a link less, and is put. -/
def dropLink (ip : η) : Sys ι η Unit := do
  let n ← getNlink ip
  setNlink ip (n - 1)
  iupdate ip
  iunlockput ip

/-- The end of `sys_link` when the new name could not be made. -/
def linkBad (ip : η) : Sys ι η ℤ := do
  ilock ip
  dropLink ip
  pure (-1)

/-- Create the path `new` as a link to the same inode as `old`. -/
def sysLink (old new : Name) : Sys ι η ℤ := do
  match ← namei old with
  | none => pure (-1)
  | some ip =>
    ilock ip
    let type ← getType ip
    if type = .dir then
      iunlockput ip
      pure (-1)
    else
      let n ← getNlink ip
      setNlink ip (n + 1)
      iupdate ip
      iunlock ip
      match ← nameiparent new with
      | none => linkBad ip
      | some (dp, name) =>
        ilock dp
        let inum ← getInum ip
        if !(← dirlink dp name inum) then
          iunlockput dp
          linkBad ip
        else
          iunlockput dp
          iput ip
          pure 0

/-- The part of `sys_unlink` that removes the entry at `off` of `dp`, which names `ip`. Both are
locked. -/
def unlinkEntry (dp ip : η) (off : ℕ) : Sys ι η ℤ := do
  let ok ← writede dp off (List.replicate direntSize 0)
  if !ok then panic .unlinkWritei
  let type ← getType ip
  if type = .dir then
    let n ← getNlink dp
    setNlink dp (n - 1)
    iupdate dp
  iunlockput dp
  dropLink ip
  pure 0

/-- Remove a name of a file, or an empty directory. -/
def sysUnlink (path : Name) : Sys ι η ℤ := do
  match ← nameiparent path with
  | none => pure (-1)
  | some (dp, name) =>
    ilock dp
    if namecmp name dot = 0 ∨ namecmp name dotdot = 0 then
      iunlockput dp
      pure (-1)
    else
      match ← dirlookup dp name with
      | none =>
        iunlockput dp
        pure (-1)
      | some (ip, off) =>
        ilock ip
        let n ← getNlink ip
        if n < 1 then
          panic .unlinkNlink
        let type ← getType ip
        let empty ← if type = .dir then isdirempty ip else pure true
        if !empty then
          iunlockput ip
          iunlockput dp
          pure (-1)
        else unlinkEntry dp ip off

/-- `iput(proc->cwd)`. -/
def putCwd : Sys ι η Unit := do
  match ← dropCwd with
  | none => pure ()
  | some dp => iput dp

/-- Change the current directory. -/
def sysChdir (path : Name) : Sys ι η ℤ := do
  match ← namei path with
  | none => pure (-1)
  | some ip =>
    ilock ip
    let type ← getType ip
    if type ≠ .dir then
      iunlockput ip
      pure (-1)
    else
      iunlock ip
      putCwd
      setCwd (some ip)
      pure 0

/-- The reads that `exec` makes, in any number and from anywhere in the file. The driver of a device
unlocks the inode while it waits. -/
def execReads (ip : η) : List (UInt32 × UInt32) → Sys ι η Unit
  | [] => pure ()
  | (off, n) :: reads => do
    match ← readi ip off n with
    | .device =>
      iunlock ip
      ilock ip
      execReads ip reads
    | _ => execReads ip reads

/-- `exec`, as far as files are concerned: however it ends, it puts the inode once. -/
def exec (path : Name) (reads : List (UInt32 × UInt32)) : Sys ι η ℤ := do
  match ← namei path with
  | none => pure (-1)
  | some ip =>
    ilock ip
    execReads ip reads
    iunlockput ip
    pure 0

/-! ### Files and descriptors -/

/-- Allocate a file descriptor, one of the given ones. -/
def fdalloc (f : Fin nfile) : List (Fin nofile) → Sys ι η (Option (Fin nofile))
  | [] => pure none
  | fd :: fds => do
    match ← ofile fd with
    | none =>
      setOfile fd (some f)
      pure (some fd)
    | some _ => fdalloc f fds

/-- Close one end of a pipe, and free it if both are closed. -/
def pipeclose (p : ℕ) (writable : Bool) : Sys ι η Unit := do
  if ← closeEnd p writable then kfree p

/-- Close a file. -/
def fileclose (f : Fin nfile) : Sys ι η Unit := do
  match ← fileput f with
  | none => pure ()
  | some ff =>
    match ff.type with
    | .none => pure ()
    | .pipe p => pipeclose p ff.writable
    | .inode ip => iput ip

/-- The inode that `sys_open` opens, locked. -/
def openInode (path : Name) (omode : ℕ) : Sys ι η (Option η) := do
  if Fs.Sys.ocreate omode then create path .file 0 0
  else
    match ← namei path with
    | none => pure none
    | some ip =>
      ilock ip
      let type ← getType ip
      if type = .dir ∧ omode ≠ 0 then
        iunlockput ip
        pure none
      else pure (some ip)

/-- Open a file, or create it. -/
def sysOpen (path : Name) (omode : ℕ) : Sys ι η ℤ := do
  match ← openInode path omode with
  | none => pure (-1)
  | some ip =>
    match ← filealloc with
    | none =>
      iunlockput ip
      pure (-1)
    | some f =>
      match ← fdalloc f (List.finRange nofile) with
      | none =>
        fileclose f
        iunlockput ip
        pure (-1)
      | some fd =>
        iunlock ip
        setFile f (.inode ip) (!Fs.Sys.wronly omode) (Fs.Sys.wronly omode || Fs.Sys.rdwr omode)
        pure fd

/-- Fetch a file descriptor: the descriptor and the file. -/
def argfd (fd : ℤ) : Sys ι η (Option (Fin nofile × Fin nfile)) := do
  if h : 0 ≤ fd ∧ fd < nofile then
    let fd : Fin nofile := ⟨fd.toNat, (Int.toNat_lt h.1).mpr h.2⟩
    let f ← ofile fd
    pure (f.map (fd, ·))
  else pure none

/-- Another descriptor for the same file. -/
def sysDup (fd : ℤ) : Sys ι η ℤ := do
  match ← argfd fd with
  | none => pure (-1)
  | some (_, f) =>
    match ← fdalloc f (List.finRange nofile) with
    | none => pure (-1)
    | some fd =>
      filedup f
      pure fd

/-- Close a descriptor. -/
def sysClose (fd : ℤ) : Sys ι η ℤ := do
  match ← argfd fd with
  | none => pure (-1)
  | some (fd, f) =>
    setOfile fd none
    fileclose f
    pure 0

/-- Get metadata about a file. -/
def filestat (f : Fin nfile) : Sys ι η ℤ := do
  let x ← file f
  match x.type with
  | .inode ip =>
    ilock ip
    iunlock ip
    pure 0
  | _ => pure (-1)

/-- Read from a file. `got` is what the console gives. -/
def fileread (f : Fin nfile) (n got : UInt32) : Sys ι η ℤ := do
  let x ← file f
  if !x.readable then pure (-1)
  else
    match x.type with
    | .none =>
      panic .fileread
      pure (-1)
    | .pipe _ => pure 0
    | .inode ip =>
      ilock ip
      let y ← file f
      match ← readi ip y.off n with
      | .fail =>
        iunlock ip
        pure (-1)
      | .device =>
        iunlock ip
        ilock ip
        let y ← file f
        setOff f (y.off + got)
        iunlock ip
        pure got.toNat
      | .done r _ =>
        setOff f (y.off + .ofNat r)
        iunlock ip
        pure r

/-- The most that `filewrite` writes in one transaction. -/
def maxWrite : ℕ := (Log.logsize - 1 - 1 - 2) / 2 * bsize

/-- The loop of `filewrite`. Each round writes at least one byte of the rest. -/
def filewriteLoop (f : Fin nfile) (ip : η) : ℕ → List UInt8 → Sys ι η Bool
  | 0, _ => pure true
  | k + 1, src =>
    if src.length = 0 then pure true
    else do
      let chunk := src.take maxWrite
      ilock ip
      let y ← file f
      match ← writei ip chunk y.off with
      | .fail =>
        iunlock ip
        pure false
      | .device =>
        iunlock ip
        ilock ip
        let y ← file f
        setOff f (y.off + .ofNat chunk.length)
        iunlock ip
        filewriteLoop f ip k (src.drop chunk.length)
      | .done r _ =>
        setOff f (y.off + .ofNat r)
        iunlock ip
        if r ≠ chunk.length then panic .shortFilewrite
        filewriteLoop f ip k (src.drop r)

/-- Write to a file. -/
def filewrite (f : Fin nfile) (src : List UInt8) : Sys ι η ℤ := do
  let x ← file f
  if !x.writable then pure (-1)
  else
    match x.type with
    | .none =>
      panic .filewrite
      pure (-1)
    | .pipe _ => pure 0
    | .inode ip =>
      if ← filewriteLoop f ip src.length src then pure src.length else pure (-1)

/-- `sys_read`, `sys_write` and `sys_fstat`: fetch the file, then do something with it. -/
def withFile (fd : ℤ) (k : Fin nfile → Sys ι η ℤ) : Sys ι η ℤ := do
  match ← argfd fd with
  | none => pure (-1)
  | some (_, f) => k f

/-! ### Pipes and processes -/

/-- Undo what has been done for a pipe. -/
def closeAll : List (Fin nfile) → Sys ι η Unit
  | [] => pure ()
  | f :: fs => do
    fileclose f
    closeAll fs

/-- `pipealloc`: the two files. `mem` says whether `kalloc` finds a page. -/
def pipealloc (mem : Bool) : Sys ι η (Option (Fin nfile × Fin nfile)) := do
  match ← filealloc with
  | none => pure none
  | some f0 =>
    match ← filealloc with
    | none =>
      closeAll [f0]
      pure none
    | some f1 =>
      if !mem then
        closeAll [f0, f1]
        pure none
      else
        let p ← newpipe
        setFile f0 (.pipe p) true false
        setFile f1 (.pipe p) false true
        pure (some (f0, f1))

/-- A pipe, with a descriptor for each end. -/
def sysPipe (mem : Bool) : Sys ι η ℤ := do
  match ← pipealloc mem with
  | none => pure (-1)
  | some (rf, wf) =>
    match ← fdalloc rf (List.finRange nofile) with
    | none =>
      closeAll [rf, wf]
      pure (-1)
    | some fd0 =>
      match ← fdalloc wf (List.finRange nofile) with
      | none =>
        setOfile fd0 none
        closeAll [rf, wf]
        pure (-1)
      | some _ => pure 0

/-- The loop of `fork` over the open files. -/
def dupFiles : List (Fin nofile) → Sys ι η Unit
  | [] => pure ()
  | fd :: fds => do
    match ← ofile fd with
    | none => dupFiles fds
    | some f =>
      filedup f
      dupFiles fds

/-- `idup(proc->cwd)`. -/
def dupCwd : Sys ι η Unit := do
  match ← cwd with
  | none => pure ()
  | some dp => idup dp

/-- `fork`, as far as files are concerned. `np` is the process that `allocproc` returns, and `mem`
says whether there is memory for it. -/
def fork (np : ι) (mem : Bool) : Sys ι η ℤ := do
  if !(← allocproc np) then pure (-1)
  else if !mem then
    unalloc np
    pure (-1)
  else
    dupFiles (List.finRange nofile)
    dupCwd
    -- nobody looks at the files of the new process before it can run
    runnable np
    pure 0

/-- The loop of `exit` that closes all open files. -/
def exitLoop : List (Fin nofile) → Sys ι η Unit
  | [] => pure ()
  | fd :: fds => do
    match ← ofile fd with
    | none => exitLoop fds
    | some f =>
      fileclose f
      setOfile fd none
      exitLoop fds

/-- `exit`, as far as files are concerned. -/
def exit : Sys ι η Unit := do
  exitLoop (List.finRange nofile)
  putCwd
  setCwd none
  zombie

end Sys

/-- The system calls. -/
inductive Syscall (ι : Type)
  | sysOpen (path : List UInt8) (omode : ℕ)
  | sysClose (fd : ℤ)
  | sysDup (fd : ℤ)
  | sysRead (fd : ℤ) (n got : UInt32)
  | sysWrite (fd : ℤ) (src : List UInt8)
  | sysFstat (fd : ℤ)
  | sysPipe (mem : Bool)
  | sysLink (old new : List UInt8)
  | sysUnlink (path : List UInt8)
  | sysMkdir (path : List UInt8)
  | sysMknod (path : List UInt8) (major minor : ℤ)
  | sysChdir (path : List UInt8)
  | exec (path : List UInt8) (reads : List (UInt32 × UInt32))
  | fork (np : ι) (mem : Bool)
  | exit

/-- A system call, with the strings that its arguments point to. -/
def Syscall.body : Syscall ι → Sys ι η ℤ
  | .sysOpen path omode => Sys.sysOpen (cstring path) omode
  | .sysClose fd => Sys.sysClose fd
  | .sysDup fd => Sys.sysDup fd
  | .sysRead fd n got => Sys.withFile fd fun f => Sys.fileread f n got
  | .sysWrite fd src => Sys.withFile fd fun f => Sys.filewrite f src
  | .sysFstat fd => Sys.withFile fd Sys.filestat
  | .sysPipe mem => Sys.sysPipe mem
  | .sysLink old new => Sys.sysLink (cstring old) (cstring new)
  | .sysUnlink path => Sys.sysUnlink (cstring path)
  | .sysMkdir path => Sys.sysMkdir (cstring path)
  | .sysMknod path major minor => Sys.sysMknod (cstring path) major minor
  | .sysChdir path => Sys.sysChdir (cstring path)
  | .exec path reads => Sys.exec (cstring path) reads
  | .fork np mem => Sys.fork np mem
  | .exit => do
    Sys.exit
    pure 0

/-- What a process does for a system call, if there is such a process. -/
def Syscall.code (c : Syscall ι) : Sys ι η Unit := do
  if ← Sys.running then
    let _ ← c.body
    pure ()

/-! ### The tables -/

/-- The state of a process, as far as it matters for its files. A process that has come to its end
is the same as one that has not been allocated: `wait` has nothing to do with files. -/
inductive Status
  | unused | embryo | running
  deriving DecidableEq, Repr

/-- The part of `struct proc` that has to do with files. -/
structure Tab (η : Type) where
  status : Status
  cwd : Option η
  /-- The reference of the current directory has not been handed to `iput`. No step looks at it. -/
  held : Bool
  ofile : Fin nofile → Option (Fin nfile)

/-- A process that has nothing. -/
def Tab.empty (status : Status) : Tab η := ⟨status, none, false, fun _ => none⟩

/-- A pipe, as far as its ends are concerned. -/
structure Ends where
  readopen : Bool
  writeopen : Bool
  /-- How often its page has been given to `kfree`. -/
  freed : ℕ
  deriving DecidableEq

/-- The tables of processes, files and pipes. -/
structure Tables (ι η : Type) where
  proc : ι → Tab η
  file : Fin nfile → File η
  pipe : ℕ → Ends
  npipe : ℕ

/-- Set one end of a pipe. -/
def Ends.close (e : Ends) (writable : Bool) : Ends :=
  if writable then { e with writeopen := false } else { e with readopen := false }

/-- Are both ends closed? -/
def Ends.closed (e : Ends) : Bool := !e.readopen && !e.writeopen

namespace Tables

variable [DecidableEq ι] (t : Tables ι η)

/-- The tables with another entry for process `p`. -/
def setProc (p : ι) (x : Tab η) : Tables ι η := { t with proc := update t.proc p x }

/-- The tables with another entry for file `f`. -/
def putFile (f : Fin nfile) (x : File η) : Tables ι η :=
  { t with file := update t.file f x }

/-- The tables with another pipe. -/
def setPipe (p : ℕ) (e : Ends) : Tables ι η := { t with pipe := update t.pipe p e }

variable {t} {p q : ι} {x : Tab η} {f k : Fin nfile} {y : File η} {r u : ℕ} {e : Ends}

@[simp] theorem setProc_self : (t.setProc p x).proc p = x := update_self ..
theorem setProc_of_ne (h : q ≠ p) : (t.setProc p x).proc q = t.proc q := update_of_ne h ..
@[simp] theorem setProc_file : (t.setProc p x).file = t.file := rfl
@[simp] theorem setProc_pipe : (t.setProc p x).pipe = t.pipe := rfl

omit [DecidableEq ι]

@[simp] theorem putFile_self : (t.putFile f y).file f = y := update_self ..
theorem putFile_of_ne (h : k ≠ f) : (t.putFile f y).file k = t.file k := update_of_ne h ..
@[simp] theorem putFile_pipe : (t.putFile f y).pipe = t.pipe := rfl
@[simp] theorem putFile_npipe : (t.putFile f y).npipe = t.npipe := rfl
@[simp] theorem setPipe_self : (t.setPipe r e).pipe r = e := update_self ..
theorem setPipe_of_ne (h : u ≠ r) : (t.setPipe r e).pipe u = t.pipe u := update_of_ne h ..
@[simp] theorem setPipe_file : (t.setPipe r e).file = t.file := rfl

end Tables

variable [DecidableEq ι]

/-- What the operations do with the tables, for process `p`. -/
def FileOp.apply (p : ι) (t : Tables ι η) : (o : FileOp ι η) → Except Panic (o.Ret × Tables ι η)
  | .running => .ok (decide ((t.proc p).status = .running), t)
  | .cwd => .ok ((t.proc p).cwd, t)
  | .dropCwd => .ok ((t.proc p).cwd, t.setProc p { t.proc p with held := false })
  | .setCwd ip => .ok ((), t.setProc p { t.proc p with cwd := ip, held := ip.isSome })
  | .ofile fd => .ok ((t.proc p).ofile fd, t)
  | .setOfile fd f =>
    .ok ((), t.setProc p { t.proc p with ofile := update (t.proc p).ofile fd f })
  | .filealloc =>
    match (List.finRange nfile).find? fun f => (t.file f).ref = 0 with
    | none => .ok (none, t)
    | some f => .ok (some f, t.putFile f { t.file f with ref := 1 })
  | .filedup f =>
    if (t.file f).ref < 1 then .error .filedup
    else .ok ((), t.putFile f { t.file f with ref := (t.file f).ref + 1 })
  | .fileput f =>
    if (t.file f).ref < 1 then .error .fileclose
    else if 1 < (t.file f).ref then
      .ok (none, t.putFile f { t.file f with ref := (t.file f).ref - 1 })
    else .ok (some (t.file f), t.putFile f { t.file f with ref := 0, type := .none })
  | .file f => .ok (t.file f, t)
  | .setFile f type readable writable =>
    .ok ((), t.putFile f ⟨type, (t.file f).ref, readable, writable, 0⟩)
  | .setOff f off => .ok ((), t.putFile f { t.file f with off := off })
  | .newpipe => .ok (t.npipe, { t.setPipe t.npipe ⟨true, true, 0⟩ with npipe := t.npipe + 1 })
  | .pipeclose q writable =>
    .ok (((t.pipe q).close writable).closed, t.setPipe q ((t.pipe q).close writable))
  | .kfree q => .ok ((), t.setPipe q { t.pipe q with freed := (t.pipe q).freed + 1 })
  | .allocproc np =>
    if (t.proc np).status = .unused then
      .ok (true, t.setProc np { t.proc np with status := .embryo })
    else .ok (false, t)
  | .unalloc np => .ok ((), t.setProc np { t.proc np with status := .unused })
  | .runnable np =>
    .ok ((), t.setProc np ⟨.running, (t.proc p).cwd, true, (t.proc p).ofile⟩)
  | .zombie => .ok ((), t.setProc p { t.proc p with status := .unused })

/-- An implementation of the interface, from one of the inode operations. -/
def implement {σ : Type} (inodes : (o : InodeOp η) → Prog σ Panic o.Ret) (p : ι) :
    (o : Op ι η) → Prog (σ × Tables ι η) Panic (Op.Ret o)
  | .inl o => (inodes o).onFst
  | .inr o => .step fun x => some ((o.apply p x.2).map fun y => (y.1, x.1, y.2))

/-- The programs that the processes of the system run. -/
def syscalls {σ : Type} (inodes : (o : InodeOp η) → Prog σ Panic o.Ret) (p : ι)
    (c : Syscall ι) : Prog (σ × Tables ι η) Panic Unit :=
  c.code.run (implement inodes p)

end Xv6.Sysfile
