import Xv6.Fs.Inode
import Xv6.Library.Interface

/-!
# Directories, path names and the system calls on them

`dirlookup`, `dirlink` and `namex` of `fs.c`, `filealloc` and `fileclose` of `file.c` as far as they
concern inodes, and `sys_open`, `sys_mkdir`, `sys_mknod`, `sys_link`, `sys_unlink`, `sys_chdir` and
`sys_close` of `sysfile.c`, with `exit`. They are written over an interface, `FsOp`, that has what
they ask of inodes, and `TabOp`, for the process's own table of files and its current directory.
What an inode operation does is not said here: there is the implementation with blocks, and there is
one that knows about directories only.

`begin_op` and `end_op` are left out. They make calls wait, and so allow fewer interleavings.

Every `struct file` has one reference: `dup` and `fork` are not among the calls.

## Main definitions

* `FsOp`, `TabOp` — the interface
* `dirlookup`, `dirlink`, `namex`, `create`
* `Syscall`, `Syscall.code` — the system calls
-/

namespace Xv6.Fs

/-- `DIRSIZ`. -/
abbrev dirsiz : ℕ := 14
/-- `ROOTINO`: root i-number. -/
abbrev rootino : ℕ := 1
/-- `NOFILE`: open files per process. -/
abbrev nofile : ℕ := 16
/-- `NFILE`: open files per system. -/
abbrev nfile : ℕ := 100

/-- A path name, or an element of one. -/
abbrev Name : Type := List UInt8

/-- `struct dirent`. The name is that up to the first NUL. -/
structure Dirent where
  /-- Inode number, 0 if the entry is empty. -/
  inum : ℕ
  name : Name
  deriving DecidableEq, Repr

/-- `sizeof(struct dirent)`. -/
abbrev direntSize : ℕ := 16

/-- `struct file`, for a file that is not a pipe, without what only reads and writes look at. -/
structure Desc where
  /-- The inode; none while the type is `FD_NONE`. -/
  ip : Option ℕ
  deriving DecidableEq

/-! ### Path names -/

/-- The character that separates path elements. -/
abbrev slash : UInt8 := 47
/-- The name `"."`. -/
abbrev dot : Name := [46]
/-- The name `".."`. -/
abbrev dotdot : Name := [46, 46]

/-- The string that a pointer points to, up to the first NUL. -/
def cstring (s : List UInt8) : Name := s.takeWhile (· ≠ 0)

/-- Copy the next path element: the element and the path behind it. -/
def skipelem (path : Name) : Option (Name × Name) :=
  match path.dropWhile (· = slash) with
  | [] => none
  | c :: path =>
    some (((c :: path).takeWhile (· ≠ slash)).take dirsiz,
      ((c :: path).dropWhile (· ≠ slash)).dropWhile (· = slash))

/-- The elements of a path, at most `n` of them. -/
def elemsUpTo : ℕ → Name → List Name
  | 0, _ => []
  | n + 1, path =>
    match skipelem path with
    | none => []
    | some (name, rest) => name :: elemsUpTo n rest

/-- The elements of a path. -/
def elems (path : Name) : List Name := elemsUpTo path.length path

/-! ### The interface -/

/-- What the system calls ask of inodes. -/
inductive FsOp
  | iget (i : ℕ) | idup (i : ℕ) | ilock (i : ℕ) | iunlock (i : ℕ) | iput (i : ℕ)
  | ialloc (type : Kind) | iupdate (i : ℕ)
  | type (i : ℕ) | nlink (i : ℕ) | size (i : ℕ)
  | setNlink (i : ℕ) (n : ℤ) | setDev (i : ℕ) (major minor : ℤ)
  /-- `readi` of one directory entry. -/
  | readde (i off : ℕ)
  /-- `writei` of one directory entry. -/
  | writede (i off : ℕ) (de : Dirent)
  | panic (e : Panic)

/-- How inode operations are answered. -/
def FsOp.Ret : FsOp → Type
  | .ialloc _ => ℕ
  | .type _ => Kind
  | .nlink _ => ℤ
  | .size _ => ℕ
  | .readde _ _ => Option Dirent
  | .writede _ _ _ => Bool
  | .iget _ | .idup _ | .ilock _ | .iunlock _ | .iput _ | .iupdate _ | .setNlink _ _
  | .setDev _ _ _ | .panic _ => Unit

/-- What the system calls do with the tables of open files. -/
inductive TabOp
  | cwd
  | setCwd (ip : Option ℕ)
  | ofile (fd : ℕ)
  | setOfile (fd : ℕ) (f : Option Desc)
  | filealloc
  | filefree

/-- How table operations are answered. -/
def TabOp.Ret : TabOp → Type
  | .cwd => Option ℕ
  | .ofile _ => Option Desc
  | .filealloc => Bool
  | .setCwd _ | .setOfile _ _ | .filefree => Unit

/-- An operation of one or the other kind. -/
abbrev Op : Type := FsOp ⊕ TabOp

/-- How operations are answered. -/
abbrev Op.Ret : Op → Type := Sum.elim FsOp.Ret TabOp.Ret

/-- A program of this layer. -/
abbrev Sys (α : Type) : Type 1 := Call Op Op.Ret α

variable {path rest name : Name}

theorem length_skipelem (h : skipelem path = some (name, rest)) : rest.length < path.length := by
  simp only [skipelem] at h
  cases hd : path.dropWhile (· = slash) with
  | nil => simp [hd] at h
  | cons c path' =>
    have hc : c ≠ slash := by
      have hhead := List.head_dropWhile_not (· = slash) (l := path) (by simp [hd])
      simpa [hd] using hhead
    have hle := (List.dropWhile_suffix (fun c => decide (c = slash)) (l := path)).length_le
    simp only [hd, Option.some.injEq, Prod.mk.injEq] at h
    rw [← h.2, List.dropWhile_cons_of_pos (by simpa using hc)]
    rw [hd, List.length_cons] at hle
    have h1 := (List.dropWhile_suffix (fun c => decide (c = slash))
      (l := path'.dropWhile fun c => decide (c ≠ slash))).length_le
    have h2 := (List.dropWhile_suffix (fun c => decide (c ≠ slash)) (l := path')).length_le
    omega

theorem elemsUpTo_eq {n : ℕ} (h : path.length ≤ n) : elemsUpTo n path = elems path := by
  rw [elems]
  suffices ∀ m n path, path.length ≤ m → m ≤ n → elemsUpTo n path = elemsUpTo m path from
    this path.length n path le_rfl h
  intro m
  induction m with
  | zero =>
    intro n path hlen _
    have hnil : path = [] := List.length_eq_zero_iff.mp (by omega)
    subst hnil
    cases n <;> rfl
  | succ m ih =>
    intro n path hlen hn
    obtain ⟨n, rfl⟩ : ∃ n', n = n' + 1 := ⟨n - 1, by omega⟩
    simp only [elemsUpTo]
    cases hs : skipelem path with
    | none => rfl
    | some x =>
      have hlt := length_skipelem (show skipelem path = some (x.1, x.2) from hs)
      simp only [ih n x.2 (by omega) (by omega)]

/-- **The elements of a path** are what `skipelem` finds, one after the other. -/
theorem elems_eq (path : Name) :
    elems path =
      match skipelem path with
      | none => []
      | some (name, rest) => name :: elems rest := by
  rw [← elemsUpTo_eq (Nat.le_succ path.length), elemsUpTo]
  cases hs : skipelem path with
  | none => rfl
  | some x =>
    have hlt := length_skipelem (show skipelem path = some (x.1, x.2) from hs)
    simp only [elemsUpTo_eq hlt.le]

namespace Sys

/-- Ask for an inode operation. -/
def fs (o : FsOp) : Sys o.Ret := .ask (Sum.inl o)

/-- Ask for a table operation. -/
def tab (o : TabOp) : Sys o.Ret := .ask (Sum.inr o)

def iget (i : ℕ) : Sys Unit := fs (.iget i)
def idup (i : ℕ) : Sys Unit := fs (.idup i)
def ilock (i : ℕ) : Sys Unit := fs (.ilock i)
def iunlock (i : ℕ) : Sys Unit := fs (.iunlock i)
def iput (i : ℕ) : Sys Unit := fs (.iput i)
def ialloc (type : Kind) : Sys ℕ := fs (.ialloc type)
def iupdate (i : ℕ) : Sys Unit := fs (.iupdate i)
/-- `ip->type`. -/
def getType (i : ℕ) : Sys Kind := fs (.type i)
/-- `ip->nlink`. -/
def getNlink (i : ℕ) : Sys ℤ := fs (.nlink i)
/-- `ip->size`. -/
def getSize (i : ℕ) : Sys ℕ := fs (.size i)
/-- Set `ip->nlink`. -/
def setNlink (i : ℕ) (n : ℤ) : Sys Unit := fs (.setNlink i n)
/-- Set `ip->major` and `ip->minor`. -/
def setDev (i : ℕ) (major minor : ℤ) : Sys Unit := fs (.setDev i major minor)
/-- `readi` of one directory entry. -/
def readde (i off : ℕ) : Sys (Option Dirent) := fs (.readde i off)
/-- `writei` of one directory entry. -/
def writede (i off : ℕ) (de : Dirent) : Sys Bool := fs (.writede i off de)
def panic (e : Panic) : Sys Unit := fs (.panic e)
/-- `proc->cwd`. -/
def cwd : Sys (Option ℕ) := tab .cwd
/-- Set `proc->cwd`. -/
def setCwd (ip : Option ℕ) : Sys Unit := tab (.setCwd ip)
/-- `proc->ofile[fd]`. -/
def ofile (fd : ℕ) : Sys (Option Desc) := tab (.ofile fd)
/-- Set `proc->ofile[fd]`, or what it points to. -/
def setOfile (fd : ℕ) (f : Option Desc) : Sys Unit := tab (.setOfile fd f)
def filealloc : Sys Bool := tab .filealloc
/-- Give a `struct file` back. -/
def filefree : Sys Unit := tab .filefree

/-! ### Directories -/

/-- Unlock, then put. -/
def iunlockput (ip : ℕ) : Sys Unit := do
  iunlock ip
  iput ip

/-- The offsets of the entries of a directory, from entry `k` on. -/
def offsets (k size : ℕ) : List ℕ :=
  ((List.range ((size + direntSize - 1) / direntSize)).drop k).map (· * direntSize)

/-- The loop of `dirlookup`. -/
def dirlookupLoop (dp : ℕ) (name : Name) : List ℕ → Sys (Option (ℕ × ℕ))
  | [] => pure none
  | off :: offs => do
    match ← readde dp off with
    | none =>
      panic .dirlinkRead
      pure none
    | some de =>
      if de.inum = 0 then dirlookupLoop dp name offs
      else if name = de.name then
        iget de.inum
        pure (some (de.inum, off))
      else dirlookupLoop dp name offs

/-- Look for a directory entry in a directory: the inode and the offset of the entry. -/
def dirlookup (dp : ℕ) (name : Name) : Sys (Option (ℕ × ℕ)) := do
  let type ← getType dp
  if type ≠ .dir then panic .notDir
  let size ← getSize dp
  dirlookupLoop dp name (offsets 0 size)

/-- The loop of `dirlink` that looks for an empty entry. -/
def emptyEntry (dp size : ℕ) : List ℕ → Sys ℕ
  | [] => pure size
  | off :: offs => do
    match ← readde dp off with
    | none =>
      panic .dirlinkRead
      pure off
    | some de => if de.inum = 0 then pure off else emptyEntry dp size offs

/-- Write a new directory entry into the directory `dp`. -/
def dirlink (dp : ℕ) (name : Name) (inum : ℕ) : Sys Bool := do
  match ← dirlookup dp name with
  | some (ip, _) =>
    iput ip
    pure false
  | none =>
    let size ← getSize dp
    let off ← emptyEntry dp size (offsets 0 size)
    let ok ← writede dp off ⟨inum, name⟩
    if !ok then panic .dirlink
    pure true

/-- The loop of `isdirempty`. -/
def isdiremptyLoop (dp : ℕ) : List ℕ → Sys Bool
  | [] => pure true
  | off :: offs => do
    match ← readde dp off with
    | none =>
      panic .isdirempty
      pure false
    | some de => if de.inum ≠ 0 then pure false else isdiremptyLoop dp offs

/-- Is the directory `dp` empty except for "." and ".."? -/
def isdirempty (dp : ℕ) : Sys Bool := do
  let size ← getSize dp
  isdiremptyLoop dp (offsets 2 size)

/-! ### Paths -/

/-- The loop of `namex` over the elements of the path. It returns the inode and, if the parent is
wanted, the final element. -/
def namexLoop (nameiparent : Bool) : ℕ → List Name → Sys (Option (ℕ × Name))
  | ip, [] => do
    if nameiparent then
      iput ip
      pure none
    else pure (some (ip, []))
  | ip, name :: rest => do
    ilock ip
    let type ← getType ip
    if type ≠ .dir then
      iunlockput ip
      pure none
    else if nameiparent ∧ rest = [] then
      iunlock ip
      pure (some (ip, name))
    else
      match ← dirlookup ip name with
      | none =>
        iunlockput ip
        pure none
      | some (next, _) =>
        iunlockput ip
        namexLoop nameiparent next rest

/-- Look up the inode for a path name, or for its parent. -/
def namex (path : Name) (nameiparent : Bool) : Sys (Option (ℕ × Name)) := do
  if path.head? = some slash then
    iget rootino
    namexLoop nameiparent rootino (elems path)
  else
    match ← cwd with
    | none => pure none
    | some dp =>
      idup dp
      namexLoop nameiparent dp (elems path)

/-- Look up the inode for a path name. -/
def namei (path : Name) : Sys (Option ℕ) := do
  let r ← namex path false
  pure (r.map Prod.fst)

/-- Look up the parent of a path name, and the final element. -/
def nameiparent (path : Name) : Sys (Option (ℕ × Name)) := namex path true

/-! ### System calls -/

/-- The "." and ".." entries of a new directory. -/
def createDots (dp ip : ℕ) : Sys Unit := do
  if !(← dirlink ip dot ip) then panic .createDots
  else if !(← dirlink ip dotdot dp) then panic .createDots

/-- Create an inode with a name, or find the file that has it. The inode that is returned is locked.
-/
def create (path : Name) (type : Kind) (major minor : ℤ) : Sys (Option ℕ) := do
  match ← nameiparent path with
  | none => pure none
  | some (dp, name) =>
    ilock dp
    match ← dirlookup dp name with
    | some (ip, _) =>
      iunlockput dp
      ilock ip
      let iptype ← getType ip
      if type = .file ∧ iptype = .file then pure (some ip)
      else
        iunlockput ip
        pure none
    | none =>
      let ip ← ialloc type
      ilock ip
      setDev ip major minor
      setNlink ip 1
      iupdate ip
      if type = .dir then
        let n ← getNlink dp
        setNlink dp (n + 1)
        iupdate dp
        createDots dp ip
      if !(← dirlink dp name ip) then panic .createDirlink
      iunlockput dp
      pure (some ip)

/-- Allocate a file descriptor, one of the given ones. -/
def fdalloc (f : Desc) : List ℕ → Sys (Option ℕ)
  | [] => pure none
  | fd :: fds => do
    match ← ofile fd with
    | none =>
      setOfile fd (some f)
      pure (some fd)
    | some _ => fdalloc f fds

/-- Close a file. -/
def fileclose (f : Desc) : Sys Unit := do
  filefree
  match f.ip with
  | none => pure ()
  | some ip => iput ip

/-- `O_WRONLY`, `O_RDWR` and `O_CREATE`, as the bits of the mode. -/
def wronly (omode : ℕ) : Bool := omode.testBit 0
@[inherit_doc wronly] def rdwr (omode : ℕ) : Bool := omode.testBit 1
@[inherit_doc wronly] def ocreate (omode : ℕ) : Bool := omode.testBit 9

/-- The inode that `sys_open` opens, locked. -/
def openInode (path : Name) (omode : ℕ) : Sys (Option ℕ) := do
  if ocreate omode then create path .file 0 0
  else
    match ← namei path with
    | none => pure none
    | some ip =>
      ilock ip
      let type ← getType ip
      if type = .dir ∧ omode ≠ 0 then
        iunlockput ip
        pure none
      else pure (some ip)

/-- Open a file, or create it: the lowest free descriptor. -/
def sysOpen (path : Name) (omode : ℕ) : Sys ℤ := do
  match ← openInode path omode with
  | none => pure (-1)
  | some ip =>
    if !(← filealloc) then
      iunlockput ip
      pure (-1)
    else
      match ← fdalloc ⟨none⟩ (List.range nofile) with
      | none =>
        fileclose ⟨none⟩
        iunlockput ip
        pure (-1)
      | some fd =>
        iunlock ip
        setOfile fd (some ⟨some ip⟩)
        pure fd

/-- `sys_mkdir` and `sys_mknod`: create, then unlock and put. -/
def sysMake (path : Name) (type : Kind) (major minor : ℤ) : Sys ℤ := do
  match ← create path type major minor with
  | none => pure (-1)
  | some ip =>
    iunlockput ip
    pure 0

/-- Make a directory. -/
def sysMkdir (path : Name) : Sys ℤ := sysMake path .dir 0 0

/-- Make a device file. -/
def sysMknod (path : Name) (major minor : ℤ) : Sys ℤ := sysMake path .dev major minor

/-- The end of `sys_link` when the new name could not be made. -/
def linkBad (ip : ℕ) : Sys ℤ := do
  ilock ip
  let n ← getNlink ip
  setNlink ip (n - 1)
  iupdate ip
  iunlockput ip
  pure (-1)

/-- Create the path `new` as a link to the same inode as `old`. -/
def sysLink (old new : Name) : Sys ℤ := do
  match ← namei old with
  | none => pure (-1)
  | some ip =>
    ilock ip
    let type ← getType ip
    if type = .dir then
      iunlockput ip
      pure (-1)
    else
      let n ← getNlink ip
      setNlink ip (n + 1)
      iupdate ip
      iunlock ip
      match ← nameiparent new with
      | none => linkBad ip
      | some (dp, name) =>
        ilock dp
        if !(← dirlink dp name ip) then
          iunlockput dp
          linkBad ip
        else
          iunlockput dp
          iput ip
          pure 0

/-- The part of `sys_unlink` that removes the entry at `off` of `dp`, which names `ip`. Both are
locked. -/
def unlinkEntry (dp ip off : ℕ) : Sys ℤ := do
  let ok ← writede dp off ⟨0, []⟩
  if !ok then panic .unlinkWritei
  let type ← getType ip
  if type = .dir then
    let n ← getNlink dp
    setNlink dp (n - 1)
    iupdate dp
  iunlockput dp
  let n ← getNlink ip
  setNlink ip (n - 1)
  iupdate ip
  iunlockput ip
  pure 0

/-- Remove a name of a file, or an empty directory. -/
def sysUnlink (path : Name) : Sys ℤ := do
  match ← nameiparent path with
  | none => pure (-1)
  | some (dp, name) =>
    ilock dp
    if name = dot ∨ name = dotdot then
      iunlockput dp
      pure (-1)
    else
      match ← dirlookup dp name with
      | none =>
        iunlockput dp
        pure (-1)
      | some (ip, off) =>
        ilock ip
        let n ← getNlink ip
        if n < 1 then
          panic .unlinkNlink
        let type ← getType ip
        let empty ← if type = .dir then isdirempty ip else pure true
        if !empty then
          iunlockput ip
          iunlockput dp
          pure (-1)
        else unlinkEntry dp ip off

/-- Another current directory, which has to be a directory. -/
def sysChdir (path : Name) : Sys ℤ := do
  match ← namei path with
  | none => pure (-1)
  | some ip =>
    ilock ip
    let type ← getType ip
    if type ≠ .dir then
      iunlockput ip
      pure (-1)
    else
      iunlock ip
      match ← cwd with
      | none => pure ()
      | some dp => iput dp
      setCwd (some ip)
      pure 0

/-- Close a descriptor. -/
def sysClose (fd : ℕ) : Sys ℤ := do
  if nofile ≤ fd then pure (-1)
  else
    match ← ofile fd with
    | none => pure (-1)
    | some f =>
      setOfile fd none
      fileclose f
      pure 0

/-- The loop of `exit` that closes all open files. -/
def exitLoop : List ℕ → Sys Unit
  | [] => pure ()
  | fd :: fds => do
    match ← ofile fd with
    | none => exitLoop fds
    | some f =>
      fileclose f
      setOfile fd none
      exitLoop fds

/-- `exit`, up to where the process becomes a zombie. -/
def exit : Sys Unit := do
  exitLoop (List.range nofile)
  match ← cwd with
  | none => pure ()
  | some dp => iput dp
  setCwd none

end Sys

/-- The system calls. -/
inductive Syscall
  | sysOpen (path : List UInt8) (omode : ℕ)
  | sysMkdir (path : List UInt8)
  | sysMknod (path : List UInt8) (major minor : ℤ)
  | sysLink (old new : List UInt8)
  | sysUnlink (path : List UInt8)
  | sysChdir (path : List UInt8)
  | sysClose (fd : ℕ)
  | exit

/-- A system call, with the strings that its arguments point to. -/
def Syscall.body : Syscall → Sys ℤ
  | .sysOpen path omode => Sys.sysOpen (cstring path) omode
  | .sysMkdir path => Sys.sysMkdir (cstring path)
  | .sysMknod path major minor => Sys.sysMknod (cstring path) major minor
  | .sysLink old new => Sys.sysLink (cstring old) (cstring new)
  | .sysUnlink path => Sys.sysUnlink (cstring path)
  | .sysChdir path => Sys.sysChdir (cstring path)
  | .sysClose fd => Sys.sysClose fd
  | .exit => do
    Sys.exit
    pure 0

/-- What a process does for a system call. A process that has exited makes no more. -/
def Syscall.code (c : Syscall) : Sys Unit := do
  match ← Sys.cwd with
  | none => pure ()
  | some _ =>
    let _ ← c.body
    pure ()

/-! ### The tables -/

/-- The part of `struct proc` that has to do with files. -/
structure Tab where
  /-- Current directory; none for a zombie. -/
  cwd : Option ℕ
  ofile : ℕ → Option Desc

/-- The tables of all processes, and how many `struct file`s are in use. -/
structure Tables (ι : Type) where
  proc : ι → Tab
  nopen : ℕ

variable {ι σ : Type} [DecidableEq ι]

/-- The tables with another one for process `p`. -/
def Tables.setTab (t : Tables ι) (p : ι) (x : Tab) : Tables ι :=
  { t with proc := Function.update t.proc p x }

/-- What table operations do, for process `p`. -/
def TabOp.apply (p : ι) (t : Tables ι) : (o : TabOp) → o.Ret × Tables ι
  | .cwd => ((t.proc p).cwd, t)
  | .setCwd ip => ((), t.setTab p { t.proc p with cwd := ip })
  | .ofile fd => ((t.proc p).ofile fd, t)
  | .setOfile fd f =>
    ((), t.setTab p { t.proc p with ofile := Function.update (t.proc p).ofile fd f })
  | .filealloc => if t.nopen < nfile then (true, { t with nopen := t.nopen + 1 }) else (false, t)
  | .filefree => ((), { t with nopen := t.nopen - 1 })

/-- An implementation of the interface, from one of the inode operations. -/
def implement (inodes : (o : FsOp) → Prog σ Panic o.Ret) (p : ι) :
    (o : Op) → Prog (σ × Tables ι) Panic (Op.Ret o)
  | .inl o => (inodes o).onFst
  | .inr o => .step fun x => some (.ok ((o.apply p x.2).1, x.1, (o.apply p x.2).2))

/-- The programs that the processes of the system run. -/
def syscalls (inodes : (o : FsOp) → Prog σ Panic o.Ret) (p : ι) (c : Syscall) :
    Prog (σ × Tables ι) Panic Unit :=
  c.code.run (implement inodes p)

end Xv6.Fs
