import Xv6.Fs.Contents
import Xv6.Fs.Dirent
import Xv6.Log.Log

/-!
# The file system image

`mkfs.c` writes the first image: the root directory and the files of its command line. It has its
own allocator, which takes one block after the other, and its own way of appending to an inode,
`iappend`. A host file is what `read` returns of it, one buffer after the other. Asserts that fail,
and sectors that are not there, end the program.

As in the kernel, inode blocks are the `struct dinode`s they contain. While `iappend` works on its
copy `din` of an inode, the image looks as the kernel's disk does while an inode is locked and has
not been written back, with a bitmap that marks the blocks before `freeblock`. So what is known
about blocks and contents there is used here.

## Main results

* `iappend_appends` — `iappend` appends
* `mkfs_holds` — what is in the image
* `mkfs_holeFree_iff` — which images have no holes
-/

namespace Xv6.Fs.Mkfs

open ByteMemory Function List State Option

/-! ### The code -/

/-- `NINODES`. -/
abbrev ninodes : ℕ := 200

/-- The superblock. -/
def super : Super := ⟨fssize, by decide, ninodes, by decide, 2 + Log.logsize + (ninodes / 8 + 1)⟩

/-- The image, and the variables of `mkfs`. -/
structure FsImage where
  dinode : ℕ → Dinode
  data : ℕ → Block
  bitmap : ℕ → Bool
  freeinode : ℕ
  freeblock : ℕ

/-- All sectors are zero. -/
def FsImage.blank : FsImage := ⟨fun _ => .new .free, fun _ _ => 0, fun _ => false, 1, super.nmeta⟩

/-- Read a sector. The image has `FSSIZE` of them. -/
def rsect (sec : ℕ) (img : FsImage) : Option Block :=
  if sec < fssize then some (img.data sec) else none

/-- Write a sector. -/
def wsect (sec : ℕ) (buf : Block) (img : FsImage) : FsImage :=
  { img with data := update img.data sec buf }

/-- Write an inode. -/
def winode (inum : ℕ) (din : Dinode) (img : FsImage) : FsImage :=
  { img with dinode := update img.dinode inum din }

/-- Allocate an inode. -/
def ialloc (type : Kind) (img : FsImage) : ℕ × FsImage :=
  (img.freeinode, winode img.freeinode { Dinode.new type with nlink := 1 }
    { img with freeinode := img.freeinode + 1 })

/-- `din.addrs[k]`, which is set to the next free block if it is 0. -/
def addrAt (din : Dinode) (k : ℕ) (img : FsImage) : ℕ × Dinode × FsImage :=
  if din.addrs k = 0 then
    (img.freeblock, { din with addrs := update din.addrs k img.freeblock },
      { img with freeblock := img.freeblock + 1 })
  else (din.addrs k, din, img)

/-- The sector for block `fbn` of an inode. -/
def sectorAt (din : Dinode) (fbn : ℕ) (img : FsImage) : Option (ℕ × Dinode × FsImage) :=
  if fbn < ndirect then some (addrAt din fbn img)
  else do
    let (ind, din, img) := addrAt din ndirect img
    let indirect ← rsect ind img
    let x := load32 indirect (4 * (fbn - ndirect))
    if x = 0 then
      pure (img.freeblock, din, wsect ind (store32 indirect (4 * (fbn - ndirect)) img.freeblock)
        { img with freeblock := img.freeblock + 1 })
    else pure (x, din, img)

/-- The loop of `iappend`. -/
def iappendLoop : ℕ → (din : Dinode) → (off : ℕ) → (p : List UInt8) → FsImage →
    Option (Dinode × ℕ × FsImage)
  | 0, din, off, _, img => some (din, off, img)
  | k + 1, din, off, p, img =>
    if p.length = 0 then some (din, off, img)
    else if ¬off / bsize < maxfile then none
    else do
      let (x, din, img) ← sectorAt din (off / bsize) img
      let n1 := min p.length ((off / bsize + 1) * bsize - off)
      let buf ← rsect x img
      iappendLoop k din (off + n1) (p.drop n1)
        (wsect x (place buf (off - off / bsize * bsize) (p.take n1)) img)

/-- Append to an inode. -/
def iappend (inum : ℕ) (p : List UInt8) (img : FsImage) : Option FsImage := do
  let (din, off, img) ← iappendLoop p.length (img.dinode inum) (img.dinode inum).size p img
  pure (winode inum { din with size := off } img)

/-- Write the bitmap. -/
def balloc (used : ℕ) (img : FsImage) : Option FsImage :=
  if used < bsize * 8 then some { img with bitmap := fun b => decide (b < used) } else none

/-- A file of the host. -/
structure HostFile where
  argv : Name
  /-- What `read` returns, as long as it returns something. -/
  bufs : List (List UInt8)

/-- The name without a leading underscore. -/
def HostFile.name (f : HostFile) : Name := if f.argv.headD 0 = 95 then f.argv.tail else f.argv

/-- Write a file and its entry in the root directory. -/
def addFile (img : FsImage) (f : HostFile) : Option FsImage :=
  if slash ∈ f.argv then none
  else do
    let (inum, img) := ialloc .file img
    let img ← iappend rootino (direntBytes inum f.name) img
    f.bufs.foldlM (fun img buf => iappend inum buf img) img

/-- Round up the size of the root directory. -/
def fixRoot (img : FsImage) : FsImage :=
  let din := img.dinode rootino
  winode rootino { din with size := (din.size / bsize + 1) * bsize } img

/-- `main`. -/
def mkfs (files : List HostFile) : Option FsImage := do
  let (rootino, img) := ialloc .dir .blank
  let img ← iappend rootino (direntBytes rootino dot) img
  let img ← iappend rootino (direntBytes rootino dotdot) img
  let img ← files.foldlM addFile img
  let img := fixRoot img
  balloc img.freeblock img

/-! ### The image as a disk -/

variable {i : ℕ} {din din' : Dinode} {img img' : FsImage} {p : List UInt8} {x : ℕ}

namespace FsImage

/-- What the kernel sees when it starts. -/
def boot (img : FsImage) : State :=
  ⟨img.bitmap, img.data, img.dinode, fun _ => ⟨0, false, false, .new .free⟩⟩

/-- Inode `i` has been locked. -/
def locked (img : FsImage) (i : ℕ) : State := img.boot.setEntry i ⟨1, true, true, img.dinode i⟩

/-- What the kernel would see with the blocks before `freeblock` marked. -/
def disk (img : FsImage) : State := boot { img with bitmap := fun b => decide (b < img.freeblock) }

/-- The image while `iappend` has a copy of an inode. -/
def editing (img : FsImage) (i : ℕ) (din : Dinode) : State :=
  img.disk.setEntry i ⟨0, false, true, din⟩

theorem node_disk (img : FsImage) (j : ℕ) : img.disk.node j = img.dinode j := rfl

theorem node_editing (img : FsImage) (i : ℕ) (din : Dinode) : (img.editing i din).node i = din := by
  simp [node, copy, editing, setEntry]

theorem valid_editing (img : FsImage) (i : ℕ) (din : Dinode) :
    ((img.editing i din).icache i).valid = true := by
  simp [editing, setEntry]

/-- The sectors that have not been used are zero. -/
def Zero (img : FsImage) : Prop := ∀ b, img.freeblock ≤ b → img.data b = fun _ => 0

theorem taken_editing (hz : img.Zero) : (img.editing i din).taken img.freeblock =
    ({ img with freeblock := img.freeblock + 1 } : FsImage).editing i din := by
  have hbit : update (fun b => decide (b < img.freeblock)) img.freeblock true =
      fun b => decide (b < img.freeblock + 1) := by
    funext b
    by_cases hb : b = img.freeblock
    · subst hb
      simp
    · rw [update_of_ne hb]
      exact decide_eq_decide.mpr (by omega)
  have hdata : update img.data img.freeblock (fun _ => 0) = img.data := by
    rw [← hz _ le_rfl, update_eq_self]
  simp only [taken, setBit, setData, editing, disk, boot, setEntry, hbit, hdata]

theorem setAddr_editing (k b : ℕ) : (img.editing i din).setAddr i k b =
    img.editing i { din with addrs := update din.addrs k b } := by
  simp [setAddr, setCopy, setEntry, editing, copy]

end FsImage

open FsImage

/-! ### Blocks -/

/-- The sector `x` is at a place of the inode, and no contents have changed. -/
structure Finds (i : ℕ) (pl : Place) (x : ℕ) (din din' : Dinode) (img img' : FsImage) : Prop where
  ne_zero : x ≠ 0
  own : (img'.editing i din').own (i, pl) = x
  maps : Maps super i (img.editing i din) (img'.editing i din')
  zero : img'.Zero
  freeinode : img'.freeinode = img.freeinode

theorem Finds.lt {pl : Place} (h : Finds i pl x din din' img img') (hx : x < fssize) :
    x < img'.freeblock :=
  of_decide_eq_true ((h.maps.owned.bit x hx).mpr (.inr ⟨_, h.own⟩))

theorem Zero.wsect (hz : img.Zero) (hx : x < img.freeblock) (d : Block) :
    (wsect x d img).Zero := fun b hb =>
  (update_of_ne (by rintro rfl; exact absurd hb (Nat.not_le_of_lt hx)) ..).trans (hz b hb)

section Blocks

variable {fbn k x : ℕ} {pl : Place} (h : Owned super (img.editing i din)) (hz : img.Zero)
  (ht : din.type ≠ .free)

theorem bitmap_freeblock (img : FsImage) (i : ℕ) (din : Dinode) :
    (img.editing i din).bitmap img.freeblock = false := decide_eq_false (Nat.lt_irrefl _)

theorem Zero.succ (hz : img.Zero) : ({ img with freeblock := img.freeblock + 1 } : FsImage).Zero :=
  fun b hb => hz b (Nat.le_of_succ_le hb)

include h hz

theorem addrAt_finds (haddr : din.addrs k = (img.editing i din).own (i, pl))
    (hgets : (img.editing i din).own (i, pl) = 0 → img.freeblock < fssize →
      Gets super i pl img.freeblock (img.editing i din)
        (((img.editing i din).taken img.freeblock).setAddr i k img.freeblock))
    (hrun : addrAt din k img = (x, din', img')) (hx : x < fssize) :
    Finds i pl x din din' img img' := by
  rw [addrAt] at hrun
  split_ifs at hrun with h0
  · cases hrun
    have hg := hgets (haddr ▸ h0) hx
    rw [taken_editing hz, setAddr_editing] at hg
    refine ⟨h.unmarked_ne_zero hx (bitmap_freeblock img i din), ?_, hg.maps h, Zero.succ hz, rfl⟩
    rw [hg.own, update_self]
  · cases hrun
    exact ⟨h0, haddr.symm, .refl h, hz, rfl⟩

include ht

theorem addrAt_indirect (hrun : addrAt din ndirect img = (x, din', img')) (hx : x < fssize) :
    Finds i .indirect x din din' img img' := by
  have htype : ((img.editing i din).node i).type ≠ .free := by rwa [node_editing]
  refine addrAt_finds h hz ?_ (fun h0 hb => ?_) hrun hx
  · rw [own_indirect htype, node_editing]
  · exact gets_indirect h (valid_editing img i din) htype hb (bitmap_freeblock img i din) h0

/-- **The sector of a block is found**, or is a fresh one. -/
theorem sectorAt_finds (hbn : fbn < maxfile) (hrun : sectorAt din fbn img = some (x, din', img'))
    (hx : x < fssize) : Finds i (.ofBlock fbn) x din din' img img' := by
  have htype : ((img.editing i din).node i).type ≠ .free := by rwa [node_editing]
  rw [sectorAt] at hrun
  by_cases hdir : fbn < ndirect
  · rw [if_pos hdir, some.injEq] at hrun
    rw [Place.ofBlock, dif_pos hdir]
    refine addrAt_finds h hz ?_ (fun h0 hb => ?_) hrun hx
    · rw [own_of_type htype, node_editing, addrOf]
    · exact gets_direct h (valid_editing img i din) htype hb (bitmap_freeblock img i din) h0
  have he : fbn - ndirect < nindirect := by
    simp only [maxfile, nindirect, ndirect] at *
    omega
  rw [Place.ofBlock_entry hdir he]
  obtain ⟨⟨ind, din₁, img₁⟩, hind⟩ : ∃ y, addrAt din ndirect img = y := ⟨_, rfl⟩
  simp only [if_neg hdir, hind, rsect, bind_eq_bind, bind_eq_some_iff,
    ite_none_right_eq_some, some.injEq] at hrun
  obtain ⟨indirect, ⟨hlt, rfl⟩, hrun⟩ := hrun
  have hf := addrAt_indirect h hz ht hind hlt
  have htype₁ : ((img₁.editing i din₁).node i).type ≠ .free := by rwa [hf.maps.frame.type]
  have haddr : load32 (img₁.data ind) (4 * (fbn - ndirect)) =
      (img₁.editing i din₁).own (i, .entry ⟨fbn - ndirect, he⟩) := by
    rw [own_of_type htype₁, addrOf, ← own_indirect htype₁, hf.own, if_neg hf.ne_zero]
    rfl
  split_ifs at hrun with h0
  · simp only [Option.pure_def, Option.some.injEq, Prod.mk.injEq] at hrun
    obtain ⟨rfl, rfl, rfl⟩ := hrun
    have hg := gets_entry hf.maps.owned htype₁ hx (bitmap_freeblock img₁ i din₁)
      (hf.own.symm ▸ hf.ne_zero) (haddr ▸ h0)
    rw [taken_editing hf.zero, hf.own] at hg
    refine ⟨hf.maps.owned.unmarked_ne_zero hx (bitmap_freeblock img₁ i din₁), ?_,
      hf.maps.trans (hg.maps hf.maps.owned), fun b hb => ?_, hf.freeinode⟩
    · exact (congrFun hg.own _).trans (update_self ..)
    · exact Zero.wsect hf.zero (hf.lt hlt) _ b (Nat.le_of_succ_le hb)
  · simp only [Option.pure_def, Option.some.injEq, Prod.mk.injEq] at hrun
    obtain ⟨rfl, rfl, rfl⟩ := hrun
    exact ⟨h0, haddr.symm, hf.maps, hf.zero, hf.freeinode⟩

end Blocks

theorem addrAt_addrs {k bn : ℕ} (hrun : addrAt din k img = (x, din', img'))
    (hne : din'.addrs bn ≠ 0) : din.addrs bn ≠ 0 ∨ bn = k := by
  by_cases hbn : bn = k
  · exact .inr hbn
  · rw [addrAt] at hrun
    split_ifs at hrun
    · cases hrun
      simp only [update_of_ne hbn] at hne
      exact .inl hne
    · cases hrun
      exact .inl hne

theorem sectorAt_addrs {fbn bn : ℕ} (hrun : sectorAt din fbn img = some (x, din', img'))
    (hbn : bn < ndirect) (hne : din'.addrs bn ≠ 0) : din.addrs bn ≠ 0 ∨ bn = fbn := by
  rw [sectorAt] at hrun
  split_ifs at hrun
  · exact addrAt_addrs (some.inj hrun) hne
  · obtain ⟨⟨ind, din₁, img₁⟩, hind⟩ : ∃ y, addrAt din ndirect img = y := ⟨_, rfl⟩
    have hdin : din' = din₁ := by
      simp only [hind, bind_eq_bind, bind_eq_some_iff] at hrun
      obtain ⟨indirect, -, hrun⟩ := hrun
      split_ifs at hrun <;> cases hrun <;> rfl
    exact (addrAt_addrs hind (hdin ▸ hne)).imp_right fun h => absurd h hbn.ne

/-! ### Appending -/

/-- **The loop of `iappend`** writes the bytes behind each other. -/
theorem iappendLoop_writes {k off off' : ℕ} (hk : p.length ≤ k)
    (h : Owned super (img.editing i din)) (hz : img.Zero) (ht : din.type ≠ .free)
    (hoff : off ≤ maxfile * bsize) (hrun : iappendLoop k din off p img = some (din', off', img')) :
    Writes super i off p (img.editing i din) (img'.editing i din') ∧ img'.Zero ∧
      img'.freeinode = img.freeinode ∧ off' = off + p.length ∧ off' ≤ maxfile * bsize ∧
      ∀ bn < ndirect, din'.addrs bn ≠ 0 → din.addrs bn ≠ 0 ∨ bn * bsize < off' := by
  induction k generalizing din off p img with
  | zero =>
    obtain rfl : p = [] := length_eq_zero_iff.mp (by omega)
    cases hrun
    exact ⟨.nil h _, hz, rfl, rfl, hoff, fun _ _ hne => .inl hne⟩
  | succ k ih =>
    rw [iappendLoop] at hrun
    split_ifs at hrun with hlen hbn
    · obtain rfl : p = [] := length_eq_zero_iff.mp hlen
      cases hrun
      exact ⟨.nil h _, hz, rfl, rfl, hoff, fun _ _ hne => .inl hne⟩
    simp only [rsect, bind_eq_bind, bind_eq_some_iff, ite_none_right_eq_some,
      some.injEq] at hrun
    obtain ⟨⟨x, din₁, img₁⟩, hsect, buf, ⟨hx, rfl⟩, hrun⟩ := hrun
    have hf := sectorAt_finds h hz ht hbn hsect hx
    have hmod : off - off / bsize * bsize = off % bsize := by
      simp only [bsize]
      omega
    generalize hn : min p.length ((off / bsize + 1) * bsize - off) = n1 at hrun
    have hroom : off % bsize + n1 ≤ bsize ∧ off + n1 ≤ maxfile * bsize ∧ 0 < n1 := by
      simp only [bsize, maxfile] at *
      omega
    have htake : (p.take n1).length = n1 := by
      rw [length_take]
      omega
    have hblock := Writes.block hf.maps.owned (hf.own.symm ▸ hf.ne_zero)
      (show off % bsize + (p.take n1).length ≤ bsize by omega) hbn
    have hw := (hf.maps.writes off).append hblock
    rw [nil_append, hf.own] at hw
    have hown : Owned super ((wsect x (place (img₁.data x) (off % bsize) (p.take n1))
      img₁).editing i din₁) := hw.owned
    rw [hmod] at hrun
    have ht₁ : din₁.type ≠ .free := by
      have htype := hf.maps.frame.type i
      rw [node_editing, node_editing] at htype
      rwa [htype]
    obtain ⟨hw', hz', hino, hlen', hmax, haddrs⟩ := ih (by rw [length_drop]; omega) hown
      (Zero.wsect hf.zero (hf.lt hx) _) ht₁ hroom.2.1 hrun
    rw [length_drop] at hlen'
    refine ⟨?_, hz', hino.trans hf.freeinode, by omega, hmax, fun bn hbn' hne => ?_⟩
    · rw [← take_append_drop n1 p]
      exact hw.append (by rwa [htake])
    · rcases haddrs bn hbn' hne with hne | hlt
      · refine (sectorAt_addrs hsect hbn' hne).imp_right fun heq => ?_
        subst heq
        have := Nat.div_mul_le_self off bsize
        omega
      · exact .inr hlt

theorem own_eq {s s' : State} (hdata : s'.data = s.data) (hnode : ∀ j,
    (s'.node j).type = (s.node j).type ∧ (s'.node j).addrs = (s.node j).addrs) : s'.own = s.own :=
  funext fun k => own_congr (hnode k.1).1 (hnode k.1).2 fun _ => by rw [hdata]

/-- What holds of the image while files are written. -/
structure Built (img : FsImage) : Prop where
  wf : Wf super img.disk
  zero : img.Zero
  exact : ∀ j, ∀ bn < ndirect, (img.dinode j).addrs bn ≠ 0 → bn * bsize < (img.dinode j).size
  free : ∀ j, img.freeinode ≤ j → img.dinode j = .new .free
  dev : ∀ j, (img.dinode j).type ≠ .dev

/-- Bytes have been appended to an inode. -/
structure Appends (i : ℕ) (p : List UInt8) (img img' : FsImage) : Prop where
  built : Built img'
  content : img'.disk.content i = img.disk.content i ++ p
  other : ∀ j ≠ i, img'.disk.content j = img.disk.content j
  type : ∀ j, (img'.dinode j).type = (img.dinode j).type
  freeinode : img'.freeinode = img.freeinode

theorem Appends.refl (h : Built img) (i : ℕ) : Appends i [] img img :=
  ⟨h, (append_nil _).symm, fun _ _ => rfl, fun _ => rfl, rfl⟩

theorem Appends.trans {img₁ : FsImage} {q : List UInt8} (h : Appends i p img img₁)
    (h' : Appends i q img₁ img') : Appends i (p ++ q) img img' :=
  ⟨h'.built, by rw [h'.content, h.content, append_assoc],
    fun j hj => (h'.other j hj).trans (h.other j hj), fun j => (h'.type j).trans (h.type j),
    h'.freeinode.trans h.freeinode⟩

/-- **`iappend` appends.** -/
theorem iappend_appends (h : Built img) (ht : (img.dinode i).type ≠ .free)
    (hrun : iappend i p img = some img') : Appends i p img img' := by
  have hsame : SameFiles img.disk (img.editing i (img.dinode i)) := .setEntry rfl
  have hwf := hsame.wf h.wf
  simp only [iappend, Option.bind_eq_bind, Option.bind_eq_some_iff, Option.pure_def,
    Option.some.injEq] at hrun
  obtain ⟨⟨din, off, img₁⟩, hloop, rfl⟩ := hrun
  have hle : (img.dinode i).size ≤ maxfile * bsize := h.wf.size_le i ht
  obtain ⟨hw, hz, hino, hoff, hmax, haddrs⟩ :=
    iappendLoop_writes le_rfl hwf.owned h.zero ht hle hloop
  have hdinode : img₁.dinode = img.dinode := hw.frame.dinode
  obtain ⟨addrs, hdin⟩ := hw.frame.node i
  rw [node_editing, node_editing] at hdin
  have hnode : ∀ j ≠ i, (winode i { din with size := off } img₁).disk.node j =
      (img₁.editing i din).node j := fun j hj => by
    simp [winode, node, editing, setEntry, hj, disk, boot]
  have hself : (winode i { din with size := off } img₁).disk.node i = { din with size := off } :=
    update_self ..
  have hown : (winode i { din with size := off } img₁).disk.own = (img₁.editing i din).own := by
    refine own_eq rfl fun j => ?_
    by_cases hj : j = i
    · rw [hj, hself, node_editing]
      exact ⟨rfl, rfl⟩
    · rw [hnode j hj]
      exact ⟨rfl, rfl⟩
  have hwritten := hw.written hwf (by rwa [node_editing]) (by rw [node_editing]) (hoff ▸ hmax) hown
    rfl (fun j bn => by rw [block, block, hown]; rfl) hnode
    (by rw [hself, node_editing])
    (by rw [hself, node_editing, ← hoff, max_eq_right (by omega)])
  have htypes : ∀ j, ((winode i { din with size := off } img₁).dinode j).type =
      (img.dinode j).type := fun j => by
    by_cases hj : j = i
    · subst hj
      simp [winode, hdin]
    · simp [winode, hj, hdinode]
  refine ⟨⟨hwritten.wf, hz, fun j bn hbn hne => ?_, fun j hj => ?_, fun j => htypes j ▸ h.dev j⟩,
    ?_, fun j hj => ?_, htypes, hino⟩
  · by_cases hj : j = i
    · subst hj
      simp only [winode, update_self] at hne ⊢
      rcases haddrs bn hbn hne with hne | hlt
      · have := h.exact j bn hbn hne
        omega
      · exact hlt
    · simp only [winode, update_of_ne hj, hdinode] at hne ⊢
      exact h.exact j bn hbn hne
  · have hji : j ≠ i := by
      rintro rfl
      exact ht (by rw [h.free j (hino ▸ hj)]; rfl)
    simp only [winode, update_of_ne hji, hdinode]
    exact h.free j (hino ▸ hj)
  · have hlen : (img.dinode i).size = (img.disk.content i).length :=
      (length_content img.disk i).symm
    rw [hwritten.content, hsame.content, hlen, patch, take_length,
      drop_of_length_le (by omega), append_nil]
  · rw [hwritten.other j hj, hsame.content]

theorem appendAll (h : Built img) (ht : (img.dinode i).type ≠ .free) {bufs : List (List UInt8)}
    (hrun : bufs.foldlM (fun img buf => iappend i buf img) img = some img') :
    Appends i bufs.flatten img img' := by
  induction bufs generalizing img with
  | nil =>
    cases hrun
    exact .refl h i
  | cons buf bufs ih =>
    simp only [foldlM_cons, bind_eq_bind, bind_eq_some_iff] at hrun
    obtain ⟨img₁, happ, hrest⟩ := hrun
    have ha := iappend_appends h ht happ
    exact ha.trans (ih ha.built (ha.type i ▸ ht) hrest)

theorem ialloc_built (h : Built img) (type : Kind) (hne : type ≠ .free) (hdev : type ≠ .dev) :
    Built (ialloc type img).2 ∧ (∀ j, (ialloc type img).2.disk.content j = img.disk.content j) ∧
      img.disk.content img.freeinode = [] := by
  have hfree : img.dinode img.freeinode = .new .free := h.free _ le_rfl
  have hself : (ialloc type img).2.disk.node img.freeinode = { Dinode.new type with nlink := 1 } :=
    update_self ..
  have hother : ∀ j, j ≠ img.freeinode → (ialloc type img).2.disk.node j = img.disk.node j :=
    fun j hj => update_of_ne hj ..
  have hsize : ∀ j, ((ialloc type img).2.disk.node j).size = (img.disk.node j).size := fun j => by
    by_cases hj : j = img.freeinode
    · rw [hj, hself, node_disk, hfree]
      rfl
    · rw [hother j hj]
  have hown : (ialloc type img).2.disk.own = img.disk.own := by
    funext k
    by_cases hk : k.1 = img.freeinode
    · have h0 : img.disk.own k = 0 := by
        rw [own, hk, node_disk, hfree]
        rfl
      rw [h0, own, hk, hself]
      refine (if_neg hne).trans ?_
      cases k.2 <;> rfl
    · refine own_congr ?_ ?_ fun _ => rfl
      · rw [hother _ hk]
      · rw [hother _ hk]
  have htype : ∀ j bn, bn * bsize < ((ialloc type img).2.disk.node j).size → j ≠ img.freeinode := by
    rintro _ bn hbn rfl
    rw [hself] at hbn
    exact absurd hbn (Nat.not_lt_zero _)
  refine ⟨⟨⟨?_, fun j hj bn hbn => ?_, fun j hj => ?_⟩, h.zero, fun j bn hbn hne' => ?_,
    fun j hj => ?_, fun j => ?_⟩, fun j => ?_, ?_⟩
  · rw [Owned, hown]
    exact h.wf.owned
  · have hji := htype j bn hbn
    rw [hother j hji] at hj hbn
    rw [hown]
    exact h.wf.filled j hj bn hbn
  · rw [hsize]
    by_cases hji : j = img.freeinode
    · rw [hji, node_disk, hfree]
      exact Nat.zero_le _
    · rw [hother j hji] at hj
      exact h.wf.size_le j hj
  · by_cases hji : j = img.freeinode
    · subst hji
      simp [ialloc, winode, Dinode.new] at hne'
    · simp only [ialloc, winode, update_of_ne hji] at hne' ⊢
      exact h.exact j bn hbn hne'
  · have hj' : img.freeinode + 1 ≤ j := hj
    simp only [ialloc, winode, update_of_ne (show j ≠ img.freeinode by omega)]
    exact h.free j (by omega)
  · by_cases hji : j = img.freeinode
    · subst hji
      simpa [ialloc, winode, Dinode.new] using hdev
    · simpa [ialloc, winode, hji] using h.dev j
  · rw [content, content, hsize]
    refine map_congr_left fun k _ => ?_
    rw [byte, byte, block, block, hown]
    rfl
  · rw [content, node_disk, hfree]
    rfl

/-! ### What is in the image -/

/-- The files have been written. -/
structure Holds (files : List HostFile) (img : FsImage) : Prop where
  built : Built img
  freeinode : img.freeinode = files.length + 2
  root : (img.dinode rootino).type = .dir
  entries : img.disk.content rootino = direntBytes rootino dot ++ direntBytes rootino dotdot ++
    (files.mapIdx fun k f => direntBytes (k + 2) f.name).flatten
  file : ∀ k f, files[k]? = some f →
    (img.dinode (k + 2)).type = .file ∧ img.disk.content (k + 2) = f.bufs.flatten

variable {files : List HostFile}

theorem addFile_holds {f : HostFile} (h : Holds files img)
    (hrun : addFile img f = some img') : Holds (files ++ [f]) img' := by
  rw [addFile] at hrun
  split_ifs at hrun
  simp only [bind_eq_bind, bind_eq_some_iff] at hrun
  obtain ⟨img₂, hroot, hbufs⟩ := hrun
  obtain ⟨hbuilt, hsame, hnil⟩ := ialloc_built h.built .file (by decide) (by decide)
  have hino : (ialloc .file img).1 = files.length + 2 := h.freeinode
  have hnew : ((ialloc .file img).2.dinode (files.length + 2)).type = .file := by
    rw [← h.freeinode]
    simp [ialloc, winode, Dinode.new]
  have hold : ∀ j, j ≠ files.length + 2 → (ialloc .file img).2.dinode j = img.dinode j :=
    fun j hj => update_of_ne (by rwa [h.freeinode]) ..
  rw [hino] at hroot hbufs
  have hdir : ((ialloc .file img).2.dinode rootino).type = .dir := by
    rw [hold rootino (by simp only [rootino]; omega), h.root]
  have ha := iappend_appends hbuilt (by rw [hdir]; decide) hroot
  have hb := appendAll ha.built (by rw [ha.type, hnew]; decide) hbufs
  refine ⟨hb.built, ?_, by rw [hb.type, ha.type, hdir], ?_, fun k f' hk => ?_⟩
  · rw [hb.freeinode, ha.freeinode, length_append]
    exact congrArg (· + 1) h.freeinode
  · rw [hb.other _ (by simp only [rootino]; omega), ha.content, hsame, h.entries,
      mapIdx_concat, flatten_append, append_assoc _ _ (List.flatten _)]
    simp
  · by_cases hlast : k = files.length
    · subst hlast
      obtain rfl : f = f' := by simpa using hk
      refine ⟨by rw [hb.type, ha.type, hnew], ?_⟩
      rw [hb.content, ha.other _ (by simp only [rootino]; omega), hsame, ← h.freeinode, hnil,
        nil_append]
    · have hlt : k < files.length := by
        have := (List.getElem?_eq_some_iff.mp hk).1
        rw [length_append, length_singleton] at this
        omega
      rw [List.getElem?_append_left hlt] at hk
      obtain ⟨htype, hcontent⟩ := h.file k f' hk
      refine ⟨by rw [hb.type, ha.type, hold _ (by omega), htype], ?_⟩
      rw [hb.other _ (by omega), ha.other _ (by simp only [rootino]; omega), hsame, hcontent]

theorem addFiles_holds {files rest : List HostFile} (h : Holds files img)
    (hrun : rest.foldlM addFile img = some img') : Holds (files ++ rest) img' := by
  induction rest generalizing files img with
  | nil =>
    cases hrun
    rwa [append_nil]
  | cons f rest ih =>
    simp only [foldlM_cons, bind_eq_bind, bind_eq_some_iff] at hrun
    obtain ⟨img₁, hadd, hrest⟩ := hrun
    rw [append_cons]
    exact ih (addFile_holds h hadd) hrest

theorem blank_built : Built .blank where
  wf := by
    have hown : ∀ k, FsImage.blank.disk.own k = 0 := fun _ => rfl
    refine ⟨⟨by decide, fun k hk => absurd (hown k) hk, fun k _ hk => absurd (hown k) hk,
      fun b hb => ?_⟩, fun _ hj => absurd rfl hj, fun _ hj => absurd rfl hj⟩
    refine decide_eq_true_iff.trans ⟨.inl, ?_⟩
    rintro (hlt | ⟨k, hk⟩)
    · exact hlt
    · rw [← hk, hown]
      decide
  zero := fun _ _ => rfl
  exact := fun _ _ _ hne => absurd rfl hne
  free := fun _ _ => rfl
  dev := fun _ h => by cases h

/-- **What is in the image**, before the size of the root directory is rounded up. -/
theorem mkfs_holds (hrun : mkfs files = some img) :
    ∃ img₁, Holds files img₁ ∧ img.dinode = (fixRoot img₁).dinode ∧
      img.boot = (fixRoot img₁).disk := by
  simp only [mkfs, bind_eq_bind, bind_eq_some_iff, balloc,
    ite_none_right_eq_some, some.injEq] at hrun
  obtain ⟨img₁, hdot, img₂, hdotdot, img₃, hfiles, -, rfl⟩ := hrun
  refine ⟨img₃, ?_, rfl, rfl⟩
  obtain ⟨hbuilt, hsame, hnil⟩ := ialloc_built blank_built .dir (by decide) (by decide)
  have hroot : ((ialloc .dir .blank).2.dinode rootino).type = .dir := rfl
  rw [show (ialloc .dir .blank).1 = rootino from rfl] at hdot hdotdot
  have ha := iappend_appends hbuilt (by rw [hroot]; decide) hdot
  have hb := iappend_appends ha.built (by rw [ha.type, hroot]; decide) hdotdot
  have hempty : Holds [] img₂ → Holds files img₃ := fun h => addFiles_holds h hfiles
  refine hempty ⟨hb.built, ?_, ?_, ?_, fun k f hk => by cases hk⟩
  · rw [hb.freeinode, ha.freeinode]
    rfl
  · rw [hb.type, ha.type, hroot]
  · rw [hb.content, ha.content, hsame]
    exact (congrArg (· ++ _ ++ _) hnil).trans (by simp)

/-! ### Holes -/

theorem own_fixRoot (img : FsImage) : (fixRoot img).disk.own = img.disk.own := by
  refine own_eq rfl fun j => ?_
  by_cases hj : j = rootino
  · subst hj
    exact ⟨rfl, rfl⟩
  · rw [show (fixRoot img).disk.node j = img.disk.node j from update_of_ne hj ..]
    exact ⟨rfl, rfl⟩

theorem Holds.size (h : Holds files img) :
    (img.dinode rootino).size = (files.length + 2) * direntSize := by
  have hlen : (img.disk.content rootino).length = (img.dinode rootino).size :=
    length_content img.disk rootino
  have hsum : ((files.mapIdx fun k f => direntBytes (k + 2) f.name).flatten).length =
      files.length * direntSize := by
    rw [length_flatten, sum_eq_card_nsmul _ direntSize fun n hn => ?_, length_map,
      length_mapIdx, smul_eq_mul]
    obtain ⟨e, he, rfl⟩ := mem_map.mp hn
    obtain ⟨k, hk, rfl⟩ := mem_mapIdx.mp he
    exact length_direntBytes ..
  rw [← hlen, h.entries, length_append, length_append, hsum, length_direntBytes, length_direntBytes]
  ring

/-- Every block below the end of an inode is there, is marked and has no other reference, and
reading allocates nothing. -/
structure HoleFree (img : FsImage) : Prop where
  block : ∀ i, (img.dinode i).type ≠ .free → ∀ bn < ((img.dinode i).size + bsize - 1) / bsize,
    img.boot.own (i, .ofBlock bn) ≠ 0 ∧ img.bitmap (img.boot.own (i, .ofBlock bn)) = true ∧
      ∀ k, img.boot.own k = img.boot.own (i, .ofBlock bn) → k = (i, .ofBlock bn)
  reads : ∀ i, (img.dinode i).type ≠ .free → ∀ devread off n, ∃ r,
    (readi super devread i off n).eval (img.locked i) = some (.ok (r, img.locked i))

theorem HoleFree.of_wf (h : Wf super img.boot) (hdev : ∀ j, (img.dinode j).type ≠ .dev) :
    HoleFree img where
  block := fun i ht bn hbn => by
    have hlt : bn * bsize < (img.boot.node i).size := by
      have hnode : img.boot.node i = img.dinode i := rfl
      rw [hnode]
      simp only [bsize] at *
      omega
    have hne := h.filled i ht bn hlt
    exact ⟨hne, (h.owned.bit _ (h.owned.range _ hne).1).mpr (.inr ⟨_, rfl⟩),
      fun k hk => (h.owned.inj _ _ hne hk.symm).symm⟩
  reads := fun i ht devread off n => by
    have hsame : SameFiles img.boot (img.locked i) := .setEntry rfl
    have hnode : (img.locked i).node i = img.dinode i := congrFun hsame.node i
    rw [readi_eval (hsame.wf h) (by simp [locked, setEntry]) (by rwa [hnode])
      (by rw [hnode]; exact hdev i)]
    split_ifs
    · exact ⟨_, rfl⟩
    · exact ⟨_, rfl⟩

/-- **Which images have no holes.** There are 32 entries in a block. If the entries of the root
directory fill its last block, rounding up the size adds one that is not there. -/
theorem mkfs_holeFree_iff {files : List HostFile} (hrun : mkfs files = some img)
    (hino : files.length + 1 < ninodes) : HoleFree img ↔ (files.length + 2) % 32 ≠ 0 := by
  obtain ⟨img₁, h, hdinode, hboot⟩ := mkfs_holds hrun
  have hsize := h.size
  simp only [ninodes] at hino
  have hown := own_fixRoot img₁
  have hroot : img.dinode rootino = { img₁.dinode rootino with
      size := ((img₁.dinode rootino).size / bsize + 1) * bsize } := by
    simp [hdinode, fixRoot, winode]
  have hother : ∀ j, j ≠ rootino → img.dinode j = img₁.dinode j := fun j hj => by
    simp [hdinode, fixRoot, winode, hj]
  have hnode : ∀ j, img.boot.node j = img.dinode j := fun _ => rfl
  have htypes : ∀ j, (img.dinode j).type = (img₁.dinode j).type := fun j => by
    by_cases hj : j = rootino
    · rw [hj, hroot]
    · rw [hother j hj]
  constructor
  · intro hfree hmod
    have hbn : (files.length + 2) / 32 < ndirect := by
      simp only [ndirect]
      omega
    have hblock := (hfree.block rootino (by rw [htypes, h.root]; decide) ((files.length + 2) / 32)
      (by rw [hroot]; simp only [hsize, bsize, direntSize]; omega)).1
    rw [hboot, hown, own_of_type (by rw [FsImage.node_disk, h.root]; decide), Place.ofBlock,
      dif_pos hbn] at hblock
    have hlt := h.built.exact rootino _ hbn hblock
    simp only [hsize, bsize, direntSize] at hlt
    omega
  · intro hmod
    refine .of_wf ⟨?_, fun j hj bn hbn => ?_, fun j hj => ?_⟩ fun j => htypes j ▸ h.built.dev j
    · rw [hboot, Owned, hown]
      exact h.built.wf.owned
    · rw [hboot, hown]
      rw [hnode, htypes] at hj
      refine h.built.wf.filled j hj bn ?_
      rw [hnode] at hbn
      rw [FsImage.node_disk]
      by_cases hjr : j = rootino
      · subst hjr
        rw [hroot] at hbn
        simp only [hsize, bsize, direntSize] at hbn ⊢
        omega
      · rwa [hother j hjr] at hbn
    · rw [hnode, htypes] at hj
      rw [hnode]
      by_cases hjr : j = rootino
      · rw [hjr, hroot]
        simp only [hsize, bsize, direntSize, maxfile]
        omega
      · rw [hother j hjr]
        exact h.built.wf.size_le j hj

/-- A file of two blocks and one of one byte. -/
def twoFiles : List HostFile := [⟨[97], [replicate 512 7, [8]]⟩, ⟨[95, 98], [[9]]⟩]

theorem mkfs_holeFree_twoFiles : ∃ img, mkfs twoFiles = some img ∧
    (img.dinode 2).size = 513 ∧ HoleFree img := by
  have hrun : (mkfs twoFiles).any (fun img => decide ((img.dinode 2).size = 513)) = true := by
    decide +kernel
  obtain ⟨img, himg, hsize⟩ := (Option.any_eq_true _ _).mp hrun
  exact ⟨img, himg, of_decide_eq_true hsize, (mkfs_holeFree_iff himg (by decide)).mpr (by decide)⟩

/-- Thirty files of one byte. -/
def thirtyFiles : List HostFile := (List.range 30).map fun k => ⟨[97, 65 + .ofNat k], [[7]]⟩

/-- **An image with a hole.** With thirty files the root directory has 32 entries, and no second
block for its size of 1024. -/
theorem mkfs_leaves_hole : ∃ img, mkfs thirtyFiles = some img ∧
    (img.dinode rootino).type = .dir ∧ (img.dinode rootino).size = 1024 ∧
      img.boot.own (rootino, .ofBlock 1) = 0 ∧ ¬HoleFree img := by
  have hrun : (mkfs thirtyFiles).any (fun img => decide ((img.dinode rootino).type = .dir ∧
      (img.dinode rootino).size = 1024 ∧ (img.dinode rootino).addrs 1 = 0)) = true := by
    decide +kernel
  obtain ⟨img, himg, hroot⟩ := (Option.any_eq_true _ _).mp hrun
  obtain ⟨htype, hsize, haddr⟩ := of_decide_eq_true hroot
  have hnode : img.boot.node rootino = img.dinode rootino := rfl
  have hown : img.boot.own (rootino, .ofBlock 1) = 0 := by
    rw [own_of_type (by rw [hnode, htype]; decide), hnode]
    exact haddr
  refine ⟨img, himg, htype, hsize, hown, fun h => ?_⟩
  exact (h.block rootino (by rw [htype]; decide) 1 (by rw [hsize]; decide)).1 hown

end Xv6.Fs.Mkfs
