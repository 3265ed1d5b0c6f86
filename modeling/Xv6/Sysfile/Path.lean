import Mathlib.Data.List.TakeWhile
import Xv6.Fs.Contents
import Xv6.Sysfile.Icache

/-!
# Path resolution

`skipelem` and `namex` of `fs.c` as they work on memory: a path is a pointer into a string that ends
with a NUL, and `name` is an array of `DIRSIZ` bytes, of which a shorter element leaves the end as
it was, behind a NUL. A list of bytes stands for a pointer, with NULs behind it.

What they are for is said without reference to the loops. The components of a path are what is
between slashes and not empty, cut to `DIRSIZ` bytes, and `walk` looks them up one after the other
in the directories on the disk. That the inode operations find these is proved for the operations
themselves, in a file system at rest (`Ready`): they only take references and locks (`Lent`).

## Main definitions

* `Path.skipelem`, `Path.namex` — the code
* `components`, `walk`, `walkParent` — what a path means
* `Cache.Lent` — the inode table after somebody has taken references

## Main results

* `Path.skipelem_eq` — with pointers `skipelem` does the same as with strings
* `elems_eq_components` — it finds the components
* `namei_resolves` — `namei` and `nameiparent` look up the components of the path
-/

namespace Xv6.Sysfile

open Fs List Sys Prog
open Function (update update_self update_of_ne)

/-! ### The code -/

namespace Path

/-- `while(*path == '/') path++;`. -/
def skipSlashes : List UInt8 → List UInt8
  | [] => []
  | c :: path => if c = slash then skipSlashes path else c :: path

/-- How far `while(*path != '/' && *path != 0) path++;` goes. -/
def elemLen : List UInt8 → ℕ
  | [] => 0
  | c :: path => if c ≠ slash ∧ c ≠ 0 then elemLen path + 1 else 0

/-- `memmove(name, s, n)`. -/
def memmove (name s : List UInt8) (n : ℕ) : List UInt8 := s.take n ++ name.drop n

/-- Copy the next path element from `path` into `name`: the path behind it, and `name`. -/
def skipelem (path name : List UInt8) : Option (List UInt8 × List UInt8) :=
  let s := skipSlashes path
  if s.headD 0 = 0 then none
  else
    let len := elemLen s
    let name := if len ≥ dirsiz then memmove name s dirsiz else (memmove name s len).set len 0
    some (skipSlashes (s.drop len), name)

variable {ι η : Type}

/-- The loop of `namex`. Each round takes a byte of the path at least, so there are not more rounds
than bytes. -/
def namexLoop (nameiparent : Bool) : ℕ → η → (path name : List UInt8) →
    Sys ι η (Option (η × List UInt8))
  | 0, _, _, _ => pure none
  | k + 1, ip, path, name =>
    match skipelem path name with
    | none =>
      if nameiparent then do
        iput ip
        pure none
      else pure (some (ip, name))
    | some (path, name) => do
      ilock ip
      let type ← getType ip
      if type ≠ .dir then
        iunlockput ip
        pure none
      else if nameiparent ∧ path.headD 0 = 0 then
        iunlock ip
        pure (some (ip, name))
      else
        match ← dirlookup ip name with
        | none =>
          iunlockput ip
          pure none
        | some (next, _) =>
          iunlockput ip
          namexLoop nameiparent k next path name

/-- Look up the inode for a path name, or for its parent. It returns the inode, and what is in
`name` then. -/
def namex (path : List UInt8) (nameiparent : Bool) (name : List UInt8) :
    Sys ι η (Option (η × List UInt8)) := do
  if path.headD 0 = slash then
    let ip ← iget rootino
    namexLoop nameiparent (path.length + 1) ip path name
  else
    match ← cwd with
    | none => pure none
    | some dp =>
      idup dp
      namexLoop nameiparent (path.length + 1) dp path name

/-- Look up the inode for a path name. The array `name` is not initialised. -/
def namei (path name : List UInt8) : Sys ι η (Option η) := do
  let r ← namex path false name
  pure (r.map Prod.fst)

/-- Look up the parent of a path name, and the final element. -/
def nameiparent (path name : List UInt8) : Sys ι η (Option (η × List UInt8)) := namex path true name

end Path

/-! ### Elements -/

namespace Path

theorem cstring_cons (c : UInt8) (s : List UInt8) :
    cstring (c :: s) = if c = 0 then [] else c :: cstring s := by
  rw [cstring_eq]
  rfl

theorem cstring_skipSlashes (s : List UInt8) :
    cstring (skipSlashes s) = (cstring s).dropWhile (· = slash) := by
  induction s with
  | nil => rfl
  | cons c s ih =>
    rw [skipSlashes]
    by_cases hc : c = slash
    · subst hc
      rw [if_pos rfl, ih, cstring_cons, if_neg (by decide), dropWhile_cons_of_pos (by simp)]
    · rw [if_neg hc, cstring_cons]
      split_ifs
      · rfl
      · rw [dropWhile_cons_of_neg (by simpa using hc)]

theorem take_elemLen (s : List UInt8) : s.take (elemLen s) = (cstring s).takeWhile (· ≠ slash) := by
  induction s with
  | nil => rfl
  | cons c s ih =>
    rw [elemLen, cstring_cons]
    by_cases h0 : c = 0
    · rw [if_pos h0, if_neg fun h => h.2 h0]
      rfl
    · rw [if_neg h0]
      by_cases hc : c = slash
      · rw [if_neg fun h => h.1 hc, takeWhile_cons_of_neg (by simpa using hc)]
        rfl
      · rw [if_pos ⟨hc, h0⟩, takeWhile_cons_of_pos (by simpa using hc), take_succ_cons, ih]

theorem cstring_drop_elemLen (s : List UInt8) :
    cstring (s.drop (elemLen s)) = (cstring s).dropWhile (· ≠ slash) := by
  induction s with
  | nil => rfl
  | cons c s ih =>
    rw [elemLen, cstring_cons]
    by_cases h0 : c = 0
    · rw [if_pos h0, if_neg fun h => h.2 h0, drop_zero, cstring_cons, if_pos h0]
      rfl
    · rw [if_neg h0]
      by_cases hc : c = slash
      · rw [if_neg fun h => h.1 hc, dropWhile_cons_of_neg (by simpa using hc), drop_zero,
          cstring_cons, if_neg h0]
      · rw [if_pos ⟨hc, h0⟩, dropWhile_cons_of_pos (by simpa using hc), drop_succ_cons, ih]

theorem elemLen_le (s : List UInt8) : elemLen s ≤ s.length := by
  induction s with
  | nil => exact Nat.le_refl _
  | cons c s ih =>
    rw [elemLen]
    split_ifs
    · exact Nat.succ_le_succ ih
    · exact Nat.zero_le _

theorem headD_eq_zero {s : List UInt8} : s.headD 0 = 0 ↔ cstring s = [] := by
  rw [cstring_eq]
  split_ifs with h
  · exact iff_of_true h rfl
  · exact iff_of_false h (by simp)

theorem cstring_append {e s : List UInt8} (h : ∀ c ∈ e, c ≠ 0) :
    cstring (e ++ s) = e ++ cstring s := by
  induction e with
  | nil => rfl
  | cons c e ih =>
    rw [cons_append, cstring_cons, if_neg (h c mem_cons_self),
      ih fun c hc => h c (mem_cons_of_mem _ hc), cons_append]

/-- **What `skipelem` leaves in `name`** is the element, cut to `DIRSIZ` bytes. -/
theorem trim_name {s name : List UInt8} (hname : name.length = dirsiz) :
    trim (if elemLen s ≥ dirsiz then memmove name s dirsiz
      else (memmove name s (elemLen s)).set (elemLen s) 0) = (s.take (elemLen s)).take dirsiz := by
  have hne : ∀ c ∈ s.take (elemLen s), c ≠ 0 := fun c hc => by
    rw [take_elemLen] at hc
    have hmem := (takeWhile_sublist _).subset hc
    simpa using mem_takeWhile_imp hmem
  have hle := elemLen_le s
  have hlen : (s.take (elemLen s)).length = elemLen s := by
    rw [length_take]
    omega
  split_ifs with h
  · have htake : memmove name s dirsiz = (s.take (elemLen s)).take dirsiz := by
      rw [memmove, drop_of_length_le hname.le, append_nil, take_take, min_eq_left h]
    rw [htake, trim, ← append_nil ((s.take (elemLen s)).take dirsiz),
      cstring_append fun c hc => hne c (mem_of_mem_take hc)]
    simp [cstring]
  · have hset : (memmove name s (elemLen s)).set (elemLen s) 0 =
        s.take (elemLen s) ++ 0 :: name.drop (elemLen s + 1) := by
      rw [memmove, drop_eq_getElem_cons (show elemLen s < name.length by omega),
        set_append_right _ _ hlen.le, hlen, Nat.sub_self, set_cons_zero]
    rw [hset, trim, cstring_append hne, cstring_cons, if_pos rfl, append_nil]

theorem ne_zero_of_mem_cstring {c : UInt8} {s : List UInt8} (hc : c ∈ cstring s) : c ≠ 0 := by
  simpa using mem_takeWhile_imp hc

theorem trim_trim (name : Name) : trim (trim name) = trim name := by
  have hne : ∀ c ∈ trim name, c ≠ 0 := fun c hc =>
    ne_zero_of_mem_cstring (mem_of_mem_take hc)
  rw [trim, ← append_nil (trim name), cstring_append hne]
  simp [cstring, trim]

theorem of_dropWhile_eq_cons {p : UInt8 → Bool} {c : UInt8} {s u : List UInt8}
    (h : s.dropWhile p = c :: u) : p c = false := by
  have hhead := List.head?_dropWhile_not p s
  rwa [h] at hhead

theorem elems_eq_nil {path : Name} : elems path = [] ↔ path.dropWhile (· = slash) = [] := by
  rw [elems_eq, Fs.skipelem]
  cases path.dropWhile (· = slash) with
  | nil => simp
  | cons c s => simp

/-- **`skipelem` on memory** is `skipelem` on strings. -/
theorem skipelem_eq (path : List UInt8) {name : List UInt8} (hname : name.length = dirsiz) :
    (skipelem path name = none ∧ Fs.skipelem (cstring path) = none) ∨
      ∃ rest name', skipelem path name = some (rest, name') ∧ name'.length = dirsiz ∧
        Fs.skipelem (cstring path) = some (trim name', cstring rest) ∧
        (rest.headD 0 = 0 ↔ elems (cstring rest) = []) := by
  have hskip := cstring_skipSlashes path
  by_cases hz : (skipSlashes path).headD 0 = 0
  · refine Or.inl ⟨if_pos hz, ?_⟩
    rw [Fs.skipelem, ← hskip, headD_eq_zero.mp hz]
  · refine Or.inr ⟨_, _, if_neg hz, ?_, ?_, ?_⟩
    · have hle := elemLen_le (skipSlashes path)
      split_ifs with hlen
      · simp only [memmove, length_append, length_take, length_drop, hname]
        omega
      · simp only [memmove, length_set, length_append, length_take, length_drop, hname]
        omega
    · have hne : cstring (skipSlashes path) ≠ [] := fun h => hz (headD_eq_zero.mpr h)
      obtain ⟨c, s, hcs⟩ := exists_cons_of_ne_nil hne
      rw [trim_name hname, cstring_skipSlashes, cstring_drop_elemLen, take_elemLen, Fs.skipelem,
        ← hskip, hcs]
    · rw [headD_eq_zero, elems_eq_nil, cstring_skipSlashes]
      cases hrest : (cstring ((skipSlashes path).drop (elemLen (skipSlashes path)))).dropWhile
        (· = slash) with
      | nil => exact Iff.rfl
      | cons c s => rw [dropWhile_cons_of_neg (by simp [of_dropWhile_eq_cons hrest])]

end Path

/-! ### Components -/

/-- What is between slashes and not empty, cut to `DIRSIZ` bytes. -/
def components (path : Name) : List Name :=
  ((path.splitOnP (· = slash)).filter (· ≠ [])).map (·.take dirsiz)

theorem components_slash (path : Name) : components (slash :: path) = components path := by
  rw [components, splitOnP_cons_eq_if_modifyHead]
  simp [components]

theorem components_dropWhile (path : Name) :
    components (path.dropWhile (· = slash)) = components path := by
  induction path with
  | nil => rfl
  | cons c path ih =>
    by_cases hc : c = slash
    · subst hc
      rw [dropWhile_cons_of_pos (by simp), ih, components_slash]
    · rw [dropWhile_cons_of_neg (by simpa using hc)]

theorem components_cons {e rest : Name} (hne : e ≠ []) (he : ∀ c ∈ e, c ≠ slash)
    (hrest : rest = [] ∨ ∃ s, rest = slash :: s) :
    components (e ++ rest) = e.take dirsiz :: components rest := by
  have hsplit : e.splitOnP (· = slash) = [e] :=
    splitOnP_eq_singleton fun c hc => by simpa using he c hc
  rcases hrest with rfl | ⟨s, rfl⟩
  · rw [append_nil, components, hsplit]
    simp [hne, components]
  · rw [components_slash, components, splitOnP_append_cons _ _ (by simp), hsplit]
    simp [hne, components]

/-- **The elements that `skipelem` finds are the components.** -/
theorem elems_eq_components (path : Name) : elems path = components path := by
  induction hn : path.length using Nat.strong_induction_on generalizing path with
  | _ n ih =>
    rw [elems_eq, ← components_dropWhile]
    cases hskip : Fs.skipelem path with
    | none =>
      have hnil : path.dropWhile (· = slash) = [] := by
        rw [Fs.skipelem] at hskip
        split at hskip
        · assumption
        · cases hskip
      rw [hnil]
      rfl
    | some x =>
      obtain ⟨elem, rest⟩ := x
      have hlt := length_skipelem hskip
      show elem :: elems rest = _
      rw [ih _ (hn ▸ hlt) rest rfl]
      rw [Fs.skipelem] at hskip
      split at hskip
      · cases hskip
      next c s hcs =>
        cases hskip
        have hc : c ≠ slash := by simpa using Path.of_dropWhile_eq_cons hcs
        rw [components_dropWhile, hcs]
        conv_rhs => rw [← takeWhile_append_dropWhile (p := (· ≠ slash)) (l := c :: s)]
        refine (components_cons ?_ ?_ ?_).symm
        · rw [takeWhile_cons_of_pos (by simpa using hc)]
          exact cons_ne_nil _ _
        · intro d hd
          simpa using mem_takeWhile_imp hd
        · cases hrest : (c :: s).dropWhile (· ≠ slash) with
          | nil => exact Or.inl rfl
          | cons d u =>
            have hd : d = slash := by simpa using Path.of_dropWhile_eq_cons hrest
            exact Or.inr ⟨u, by rw [hd]⟩

/-! ### Directories -/

/-- An inode, as far as paths are concerned. -/
structure Ino where
  type : Kind
  content : List UInt8

namespace Ino

variable (x : Ino)

/-- How many entries a directory has. -/
def nentries : ℕ := x.content.length / direntSize

/-- The `k`-th entry of a directory. -/
def entry (k : ℕ) : List UInt8 := (x.content.drop (k * direntSize)).take direntSize

/-- The entry has that name. -/
def Matches (name : Name) (k : ℕ) : Prop :=
  direntInum (x.entry k) ≠ 0 ∧ trim name = trim (direntName (x.entry k))

instance (name : Name) (k : ℕ) : Decidable (x.Matches name k) := inferInstanceAs (Decidable (_ ∧ _))

/-- The inode with that name in a directory. -/
def lookup (name : Name) : Option ℕ :=
  ((List.range x.nentries).find? fun k => decide (x.Matches name k)).map fun k =>
    direntInum (x.entry k)

theorem lookup_trim (name : Name) : x.lookup (trim name) = x.lookup name := by
  have hmatch : ∀ k, x.Matches (trim name) k ↔ x.Matches name k := fun k => by
    rw [Matches, Path.trim_trim, Matches]
  simp only [lookup, hmatch]

end Ino

/-- Names are looked up one after the other. -/
def walk (ino : ℕ → Ino) : ℕ → List Name → Option ℕ
  | d, [] => some d
  | d, name :: names =>
    if (ino d).type = .dir then ((ino d).lookup name).bind fun i => walk ino i names else none

/-- All names but the last are looked up, and what they lead to has to be a directory. -/
def walkParent (ino : ℕ → Ino) (d : ℕ) (names : List Name) : Option (ℕ × Name) :=
  names.getLast?.bind fun name => (walk ino d names.dropLast).bind fun d' =>
    if (ino d').type = .dir then some (d', name) else none

/-- What `namex` is to return: the inode that the names lead to, or the parent and the last name. -/
def Finds (ino : ℕ → Ino) (par : Bool) (d : ℕ) (names : List Name) (r : Option (ℕ × List UInt8)) :
    Prop :=
  if par then r.map (fun x => (x.1, trim x.2)) = walkParent ino d names
  else r.map Prod.fst = walk ino d names

section

variable {ino : ℕ → Ino} {d : ℕ} {name : Name} {names : List Name}

theorem walkParent_cons (d : ℕ) (name : Name) (hne : names ≠ []) :
    walkParent ino d (name :: names) = if (ino d).type = .dir then
      ((ino d).lookup name).bind fun i => walkParent ino i names else none := by
  obtain ⟨names, last, rfl⟩ := eq_nil_or_concat' names |>.resolve_left hne
  rw [walkParent, dropLast_cons_of_ne_nil hne, List.getLast?_cons, walk]
  simp only [List.getLast?_append, List.getLast?_singleton, Option.getD_some, dropLast_concat,
    Option.some_or, Option.bind_some]
  split_ifs
  · cases (ino d).lookup name with
    | none => rfl
    | some i => simp [walkParent]
  · rfl

theorem finds_cons {par : Bool} {r : Option (ℕ × List UInt8)} (hpar : ¬(par = true ∧ names = [])) :
    Finds ino par d (name :: names) r ↔ if (ino d).type = .dir then match (ino d).lookup name with
      | none => r = none | some i => Finds ino par i names r else r = none := by
  cases par with
  | true =>
    have hne : names ≠ [] := fun h => hpar ⟨rfl, h⟩
    simp only [Finds, if_true, walkParent_cons d name hne]
    split_ifs
    · cases (ino d).lookup name <;> simp
    · simp
  | false =>
    simp only [Finds, Bool.false_eq_true, if_false, walk]
    split_ifs
    · cases (ino d).lookup name <;> simp
    · simp

end

/-! ### The file system in memory -/

namespace Cache

/-- The disk. -/
def disk (c : Cache) : Fs.State :=
  ⟨c.bitmap, c.data, c.dinode, fun _ => ⟨0, false, false, .new .free⟩⟩

/-- The inodes on the disk, as far as paths are concerned. -/
def ino (c : Cache) (i : ℕ) : Ino := ⟨(c.dinode i).type, c.disk.content i⟩

/-- The table after somebody has taken the references `held`, and perhaps locked an entry. Nothing
has happened to the disk, and what is in memory is what is on the disk. -/
structure Lent (c c' : Cache) (held : List (Fin ninode)) (lk : Option (Fin ninode)) : Prop where
  disk : c'.disk = c.disk
  ref : ∀ x, c'.ref x = c.ref x + held.count x
  inum : c.Stays c'
  distinct : c'.Distinct
  sync : ∀ x, 0 < c'.ref x → (c'.slot x).entry.valid = true →
    (c'.slot x).entry.copy = c.dinode (c'.inum x)
  busy : ∀ x, 0 < c'.ref x → c'.busy x = decide (lk = some x)
  locked : ∀ x, lk = some x → 0 < c'.ref x ∧ (c'.slot x).entry.valid = true

/-- A file system at rest: nobody has locked an inode, and inodes without links are in use.
Directories consist of entries, whose blocks are there, and every entry names an allocated inode. -/
structure Ready (c : Cache) : Prop where
  rest : c.Lent c [] none
  linked : ∀ i, (c.dinode i).type ≠ .free → (c.dinode i).nlink = 0 → ∃ x, 0 < c.ref x ∧ c.inum x = i
  filled : ∀ d, (c.dinode d).type = .dir → ∀ bn, bn * bsize < (c.dinode d).size →
    c.disk.own (d, .ofBlock bn) ≠ 0
  size_le : ∀ d, (c.dinode d).type = .dir → (c.dinode d).size ≤ maxfile * bsize
  whole : ∀ d, (c.dinode d).type = .dir → (c.dinode d).size % direntSize = 0
  named : ∀ d, (c.dinode d).type = .dir → ∀ k < (c.ino d).nentries,
    direntInum ((c.ino d).entry k) ≠ 0 → (c.dinode (direntInum ((c.ino d).entry k))).type ≠ .free
  root_ne : (c.dinode rootino).type ≠ .free

variable {c c' : Cache} {held held' : List (Fin ninode)} {lk lk' : Option (Fin ninode)}
  {x : Fin ninode} {e : Entry}

theorem Ready.lookup_ne_free (h : c.Ready) {d i : ℕ} {name : Name} (hdir : (c.dinode d).type = .dir)
    (hi : (c.ino d).lookup name = some i) : (c.dinode i).type ≠ .free := by
  obtain ⟨k, hk, rfl⟩ := Option.map_eq_some_iff.mp hi
  have hm : (c.ino d).Matches name k := by simpa using List.find?_some hk
  exact h.named d hdir k (mem_range.mp (mem_of_find?_eq_some hk)) hm.1

theorem setView_view {n : ℕ} : c.setView x n (c.view x) = c := by
  simp [setView, view]

theorem via_eval (c' : Cache) {α : Type} {m : ℕ → Code α} {f : Fs.State →
    Option (Except Fs.Panic (α × Fs.State))} {b : α} (hm : m (c'.inum x) = .step f)
    (hf : f (c'.view x) = some (.ok (b, (c'.view x).setEntry (c'.inum x) e))) :
    (Icache.via x m).eval c' = some (.ok (b, c'.setEntry x e)) := by
  have hon : ((Prog.step f).on (Cache.view · x) (Cache.setView · x (c'.inum x))).eval c' =
      some (.ok (b, c'.setEntry x e)) := by
    simp [Prog.step, Prog.on, Prog.eval, hf, Except.map, setView_setEntry]
  rw [Icache.via, bind_eq, eval_bind, eval_read]
  simpa only [hm] using hon

namespace Lent

variable (h : c.Lent c' held lk)

include h

theorem dinode : c'.dinode = c.dinode := congrArg State.dinode h.disk

theorem put {i : ℕ} (hD : Distinct { c' with slot := update c'.slot x ⟨i, e⟩ })
    (hin : 0 < c.ref x → i = c.inum x)
    (href : ∀ y, update c'.ref x e.ref y = c.ref y + held'.count y)
    (hsync : e.valid = true → e.copy = c.dinode i) (hbusy : e.busy = decide (lk' = some x))
    (hother : ∀ y ≠ x, lk' = some y ↔ lk = some y)
    (hlocked : lk' = some x → 0 < e.ref ∧ e.valid = true) :
    c.Lent { c' with slot := update c'.slot x ⟨i, e⟩ } held' lk' := by
  refine ⟨h.disk, fun y => ?_, fun y hy => ?_, hD, fun y hy hv => ?_, fun y hy => ?_,
    fun y hy => ?_⟩
  all_goals rcases eq_or_ne y x with rfl | hyx
  · simpa [Cache.ref] using href y
  · simpa [Cache.ref, hyx] using href y
  · simpa [Cache.inum] using hin hy
  · simpa [Cache.inum, hyx] using h.inum y hy
  · simp only [Cache.inum, update_self] at hv ⊢
    exact hsync hv
  · simp only [Cache.ref, Cache.inum, update_of_ne hyx] at hy hv ⊢
    exact h.sync y hy hv
  · simpa [Cache.busy] using hbusy
  · simp only [Cache.ref, Cache.busy, update_of_ne hyx] at hy ⊢
    rw [show (c'.slot y).entry.busy = _ from h.busy y hy, decide_eq_decide]
    exact (hother y hyx).symm
  · simpa [Cache.ref] using hlocked hy
  · simpa [Cache.ref, hyx] using h.locked y ((hother y hyx).mp hy)

theorem setEntry (hpos : 0 < c'.ref x)
    (href : ∀ y, update c'.ref x e.ref y = c.ref y + held'.count y)
    (hsync : e.valid = true → e.copy = c.dinode (c'.inum x))
    (hbusy : e.busy = decide (lk' = some x)) (hother : ∀ y ≠ x, lk' = some y ↔ lk = some y)
    (hlocked : lk' = some x → 0 < e.ref ∧ e.valid = true) : c.Lent (c'.setEntry x e) held' lk' := by
  refine h.put (h.distinct.of_le (fun y hy => ?_) setEntry_inum) (h.inum x) href hsync hbusy hother
    hlocked
  rcases eq_or_ne y x with rfl | hyx
  · exact hpos
  · simpa [Cache.ref, hyx] using hy

theorem copy (hlk : lk = some x) : (c'.slot x).entry.copy = c.dinode (c'.inum x) :=
  h.sync x (h.locked x hlk).1 (h.locked x hlk).2

theorem room (hroom : ∃ x y, x ≠ y ∧ c.ref x = 0 ∧ c.ref y = 0) (hlen : held.length ≤ 1) :
    ∃ x, c'.ref x = 0 := by
  obtain ⟨x, y, hxy, hx, hy⟩ := hroom
  by_contra hno
  have hmem : ∀ z, c.ref z = 0 → z ∈ held := fun z hz => count_pos_iff.mp (by
    have hz' := h.ref z
    have hne : c'.ref z ≠ 0 := fun h0 => hno ⟨z, h0⟩
    omega)
  have hsub : [x, y] ⊆ held := fun z hz => by
    rcases List.mem_cons.mp hz with rfl | hz
    · exact hmem _ hx
    · exact List.mem_singleton.mp hz ▸ hmem y hy
  have hle := (List.nodup_cons.mpr ⟨by simpa using hxy, List.nodup_singleton y⟩).length_le_of_subset
    hsub
  simp only [length_cons, length_nil] at hle
  omega

theorem take_count (x y : Fin ninode) :
    update c'.ref x (c'.ref x + 1) y = c.ref y + (x :: held).count y := by
  rcases eq_or_ne y x with rfl | hyx
  · rw [update_self, h.ref y, count_cons_self, Nat.add_assoc]
  · rw [update_of_ne hyx, h.ref y, count_cons_of_ne hyx.symm]

theorem iget (hroom : ∃ x, c'.ref x = 0) (i : ℕ) : ∃ x c'', (Icache.iget i).eval c' =
    some (.ok (x, c'')) ∧ c''.inum x = i ∧ c'.Stays c'' ∧ c.Lent c'' (x :: held) lk := by
  rw [Icache.iget, eval_step]
  cases hfind : (finRange ninode).find? fun x => decide (0 < c'.ref x ∧ c'.inum x = i) with
  | some x =>
    have hx := find?_some hfind
    rw [decide_eq_true_eq] at hx
    exact ⟨x, _, rfl, by rw [setEntry_inum, hx.2], fun y _ => by rw [setEntry_inum],
      h.setEntry hx.1 (h.take_count x) (h.sync x hx.1) (h.busy x hx.1) (fun _ _ => Iff.rfl)
        fun hl => ⟨Nat.succ_pos _, (h.locked x hl).2⟩⟩
  | none =>
    cases hfree : (finRange ninode).find? fun x => decide (c'.ref x = 0) with
    | none =>
      obtain ⟨x, hx⟩ := hroom
      simpa [hx] using find?_eq_none.mp hfree x (mem_finRange x)
    | some x =>
      have hx := find?_some hfree
      rw [decide_eq_true_eq] at hx
      have hx₀ := h.ref x
      have hcount := h.take_count x
      rw [hx] at hcount
      have hl : lk ≠ some x := fun hl => by
        have := (h.locked x hl).1
        omega
      refine ⟨x, _, rfl, by simp [Cache.inum], fun y hy => ?_,
        h.put (h.distinct.fill fun y hy hin => ?_) (fun hpos => by omega) hcount nofun
          (decide_eq_false hl).symm (fun _ _ => Iff.rfl) fun hc => absurd hc hl⟩
      · have hyx : y ≠ x := by
          rintro rfl
          omega
        simp [Cache.inum, hyx]
      · simpa [hy, hin] using find?_eq_none.mp hfind y (mem_finRange y)

theorem idup (hx : 0 < c'.ref x) : ∃ c'', (Icache.via x Fs.idup).eval c' = some (.ok ((), c'')) ∧
    c''.inum = c'.inum ∧ c.Lent c'' (x :: held) lk :=
  ⟨_, via_eval c' rfl rfl, setEntry_inum, h.setEntry hx (h.take_count x) (h.sync x hx)
    (h.busy x hx) (fun _ _ => Iff.rfl) fun hl => ⟨Nat.succ_pos _, (h.locked x hl).2⟩⟩

theorem pos_of_mem (hx : x ∈ held) : 0 < c'.ref x := by
  rw [h.ref x]
  exact Nat.add_pos_right _ (count_pos_iff.mpr hx)

theorem same_count (x y : Fin ninode) : update c'.ref x (c'.ref x) y = c.ref y + held.count y := by
  rw [Function.update_eq_self, h.ref y]

theorem ilock (hlk : lk = none) (hx : x ∈ held) (ht : (c.dinode (c'.inum x)).type ≠ .free) :
    ∃ c'', (Icache.via x Fs.ilock).eval c' = some (.ok ((), c'')) ∧ c''.inum = c'.inum ∧
      c.Lent c'' held (some x) := by
  subst hlk
  have hpos := h.pos_of_mem hx
  have hbusy : (c'.slot x).entry.busy = false := h.busy x hpos
  have hnot : ¬ (c'.slot x).entry.ref < 1 := Nat.not_lt.mpr hpos
  have hother : ∀ y ≠ x, some x = some y ↔ none = some y := fun y hy =>
    iff_of_false (fun hc => hy (Option.some.inj hc).symm) nofun
  by_cases hv : (c'.slot x).entry.valid = true
  · refine ⟨_, via_eval c' rfl (e := { (c'.slot x).entry with busy := true }) ?_,
      setEntry_inum, h.setEntry hpos (h.same_count x) (h.sync x hpos) (by simp) hother fun _ =>
        ⟨hpos, hv⟩⟩
    simp [view, hnot, hbusy, hv]
  · refine ⟨_, via_eval c' rfl (e := { (c'.slot x).entry with
        busy := true, valid := true, copy := c'.dinode (c'.inum x) }) ?_,
      setEntry_inum, h.setEntry hpos (h.same_count x) (fun _ => by rw [h.dinode]) (by simp) hother
        fun _ => ⟨hpos, rfl⟩⟩
    rw [← h.dinode] at ht
    simp [view, hnot, hbusy, hv, ht]

theorem iunlock (hlk : lk = some x) : ∃ c'', (Icache.via x Fs.iunlock).eval c' =
    some (.ok ((), c'')) ∧ c''.inum = c'.inum ∧ c.Lent c'' held none := by
  subst hlk
  obtain ⟨hpos, hv⟩ := h.locked x rfl
  have hbusy : (c'.slot x).entry.busy = true := (h.busy x hpos).trans (by simp)
  have hnot : ¬ (c'.slot x).entry.ref < 1 := Nat.not_lt.mpr hpos
  refine ⟨_, via_eval c' rfl (e := { (c'.slot x).entry with busy := false }) ?_,
    setEntry_inum, h.setEntry hpos (h.same_count x) (h.sync x hpos) (by simp)
      (fun y hy => ?_) nofun⟩
  · simp [view, hbusy]
    omega
  · exact iff_of_false nofun fun hc => hy (Option.some.inj hc).symm

/-- The last reference to an inode without links is not dropped: there was one before. -/
theorem iput (hc : c.Ready) (hlk : lk = none) (hperm : held.Perm (x :: held'))
    (ht : (c.dinode (c'.inum x)).type ≠ .free) :
    ∃ c'', (Icache.via x Fs.iput).eval c' = some (.ok ((), c'')) ∧ c''.inum = c'.inum ∧
      c.Lent c'' held' none := by
  subst hlk
  have hpos := h.pos_of_mem (hperm.mem_iff.mpr mem_cons_self)
  have hlast : ¬ ((c'.slot x).entry.ref = 1 ∧ (c'.slot x).entry.valid = true ∧
      (c'.slot x).entry.copy.nlink = 0) := by
    rintro ⟨hone, hv, hlink⟩
    rw [h.sync x hpos hv] at hlink
    obtain ⟨z, hz, hzx⟩ := hc.linked _ ht hlink
    have hz' : 0 < c'.ref z := Nat.lt_of_lt_of_le hz (h.ref z ▸ Nat.le_add_right _ _)
    obtain rfl := h.distinct z x hz' hpos ((h.inum z hz).trans hzx)
    have hcount := hperm.count_eq z
    rw [count_cons_self] at hcount
    have href : (c'.slot z).entry.ref = _ := h.ref z
    omega
  refine ⟨c'.setEntry x { (c'.slot x).entry with ref := (c'.slot x).entry.ref - 1 }, ?_,
    setEntry_inum, h.setEntry hpos (fun y => ?_) (h.sync x hpos) (h.busy x hpos)
      (fun _ _ => Iff.rfl) nofun⟩
  · simp only [Icache.via, Fs.iput, bind_eq, eval_bind, eval_read, on_bind]
    simp [Prog.step, Prog.on, Prog.eval, view, hlast, Except.map]
    exact setView_setEntry
  · have hcount := hperm.count_eq y
    rcases eq_or_ne y x with rfl | hyx
    · have hy : (c'.slot y).entry.ref = _ := h.ref y
      rw [count_cons_self] at hcount
      rw [update_self]
      show (c'.slot y).entry.ref - 1 = _
      omega
    · rw [update_of_ne hyx, h.ref y, hcount, count_cons_of_ne hyx.symm]

/-- **Reading an entry** of a directory that is locked. -/
theorem readi (hc : c.Ready) (hlk : lk = some x) (hdir : (c.dinode (c'.inum x)).type = .dir) {k : ℕ}
    (hk : k < (c.ino (c'.inum x)).nentries) (sb : Super) (devread : ℤ → Bool) :
    (Icache.via x fun i => Fs.readi sb devread i (.ofNat (k * direntSize)) (.ofNat direntSize)).eval
      c' = some (.ok (.done direntSize ((c.ino (c'.inum x)).entry k), c')) := by
  have hv : ((c'.view x).icache (c'.inum x)).valid = true := (h.locked x hlk).2
  have hnode : (c'.view x).node (c'.inum x) = c.disk.node (c'.inum x) :=
    (node_of_valid hv).trans (h.copy hlk)
  have hdata : c'.disk.data = c.disk.data := congrArg State.data h.disk
  have hown : ∀ pl, (c'.view x).own (c'.inum x, pl) = c.disk.own (c'.inum x, pl) := fun pl =>
    own_congr (congrArg Dinode.type hnode) (congrArg Dinode.addrs hnode) fun _ => congrFun hdata _
  have hcontent : (c'.view x).content (c'.inum x) = (c.ino (c'.inum x)).content := by
    rw [State.content, hnode, ino, State.content]
    refine map_congr_left fun k _ => ?_
    simp only [State.byte, State.block, hown]
    rw [show (c'.view x).data = _ from hdata]
  have hsize : ((c'.view x).node (c'.inum x)).size = (c.ino (c'.inum x)).content.length := by
    rw [hnode, ino, length_content]
  have hmax := hc.size_le _ hdir
  rw [show maxfile * bsize = 71680 by decide] at hmax
  have hend : (k + 1) * direntSize ≤ (c.ino (c'.inum x)).content.length :=
    (Nat.le_div_iff_mul_le (by decide)).mp hk
  have hlen : (c.ino (c'.inum x)).content.length = (c.dinode (c'.inum x)).size := length_content ..
  have hoff : (UInt32.ofNat (k * direntSize)).toNat = k * direntSize :=
    UInt32.toNat_ofNat_of_lt' (by simp only [direntSize, UInt32.size] at *; omega)
  have hread := readi_looks sb hv (by rw [hnode]; exact hdir.symm ▸ by decide)
    (.ofNat (k * direntSize)) (.ofNat direntSize) devread
    (fun bn hbn => by rw [hown]; rw [hnode] at hbn; exact hc.filled _ hdir bn hbn)
    (by rw [hnode]; exact hc.size_le _ hdir)
  rw [hsize, hcontent, hoff, show (UInt32.ofNat direntSize).toNat = direntSize by decide,
    if_pos (by simp only [direntSize] at *; omega),
    Nat.min_eq_left (by simp only [direntSize] at *; omega)] at hread
  have hon := hread.on (Cache.view · x) (Cache.setView · x (c'.inum x)) setView_view
  exact (Looks.bind (.read _ c') hon).eval

end Lent

end Cache

/-! ### The programs -/

section Programs

open Cache

/-- The disk, the inode table and the other tables. -/
abbrev Machine (ι : Type) : Type := Cache × Tables ι (Fin ninode)

variable {ι : Type} [DecidableEq ι] {sb : Super} {devread devwrite : ℤ → Bool} {p : ι}
  {c c' : Cache} {tab : Tables ι (Fin ninode)} {x : Fin ninode}

variable (sb devread devwrite p) in
/-- What operations do when nobody else is on the machine. -/
abbrev alone : Spec (Op ι (Fin ninode)) Op.Ret (Machine ι) :=
  Call.alone (implement (Icache.code sb devread devwrite) p)

theorem ino_alone {o : InodeOp (Fin ninode)} {r : o.Ret} {Q : o.Ret → Machine ι → Prop}
    (h : (Icache.code sb devread devwrite o).eval c = some (.ok (r, c'))) (hQ : Q r (c', tab)) :
    (ino o : Sys ι _ _).wp (alone sb devread devwrite p) Q (c, tab) := by
  refine ⟨r, (c', tab), ?_, hQ⟩
  exact (eval_onFst _ _).trans (congrArg (Option.map _) h)

variable (hc : c.Ready)

include hc

theorem iunlockput_alone {held held' : List (Fin ninode)} {Q : Unit → Machine ι → Prop}
    (h : c.Lent c' held (some x)) (hperm : held.Perm (x :: held'))
    (ht : (c.dinode (c'.inum x)).type ≠ .free)
    (hQ : ∀ c'', c''.inum = c'.inum → c.Lent c'' held' none → Q () (c'', tab)) :
    (iunlockput x : Sys ι _ _).wp (alone sb devread devwrite p) Q (c', tab) := by
  obtain ⟨c₁, hun, hin₁, h₁⟩ := h.iunlock rfl
  obtain ⟨c₂, hput, hin₂, h₂⟩ := h₁.iput hc rfl hperm (hin₁ ▸ ht)
  rw [Sys.iunlockput, Call.wp_bind]
  exact ino_alone hun (ino_alone hput (hQ c₂ (hin₂.trans hin₁) h₂))

variable (hroom : ∃ x y, x ≠ y ∧ c.ref x = 0 ∧ c.ref y = 0)

include hroom

section

variable {name : Name} {Q : Option (Fin ninode × ℕ) → Machine ι → Prop}
  (h : c.Lent c' [x] (some x)) (hdir : (c.dinode (c'.inum x)).type = .dir)

include h hdir

theorem dirlookupLoop_alone {ks : List ℕ} (hks : ∀ k ∈ ks, k < (c.ino (c'.inum x)).nentries)
    (hnone : (ks.find? fun k => decide ((c.ino (c'.inum x)).Matches name k)) = none →
      Q none (c', tab))
    (hsome : ∀ k, (ks.find? fun k => decide ((c.ino (c'.inum x)).Matches name k)) = some k →
      ∀ y c'', c''.inum y = direntInum ((c.ino (c'.inum x)).entry k) → c''.inum x = c'.inum x →
        c.Lent c'' [y, x] (some x) → Q (some (y, k * direntSize)) (c'', tab)) :
    (dirlookupLoop x name (ks.map (· * direntSize)) : Sys ι _ _).wp (alone sb devread devwrite p) Q
      (c', tab) := by
  induction ks with
  | nil => exact hnone rfl
  | cons k ks ih =>
    have hrest := ih fun k hk => hks k (mem_cons_of_mem _ hk)
    rw [map_cons, Sys.dirlookupLoop, Sys.readde, Call.wp_bind, Call.wp_bind]
    refine ino_alone (h.readi hc rfl hdir (hks k mem_cons_self) sb devread) ?_
    simp only [if_true, Call.pure_eq, Call.wp_ret]
    by_cases hm : (c.ino (c'.inum x)).Matches name k
    · rw [find?_cons_of_pos (by simpa using hm)] at hsome
      simp only [if_neg hm.1, if_pos ((namecmp_eq_zero _ _).mpr hm.2)]
      obtain ⟨y, c₁, hget, hy, hst, h₁⟩ := h.iget (h.room hroom (Nat.le_refl _))
        (direntInum ((c.ino (c'.inum x)).entry k))
      rw [Call.wp_bind]
      exact ino_alone hget (hsome k rfl y c₁ hy (hst x (h.locked x rfl).1) h₁)
    · rw [find?_cons_of_neg (by simpa using hm)] at hnone hsome
      by_cases h0 : direntInum ((c.ino (c'.inum x)).entry k) = 0
      · simpa only [if_pos h0] using hrest hnone hsome
      · simpa only [if_neg h0, if_neg fun hc => hm ⟨h0, (namecmp_eq_zero _ _).mp hc⟩] using
          hrest hnone hsome

/-- **What `dirlookup` finds.** -/
theorem dirlookup_alone
    (hnone : (c.ino (c'.inum x)).lookup name = none → Q none (c', tab))
    (hsome : ∀ y off c'', (c.ino (c'.inum x)).lookup name = some (c''.inum y) →
      c''.inum x = c'.inum x → c.Lent c'' [y, x] (some x) → Q (some (y, off)) (c'', tab)) :
    (dirlookup x name : Sys ι _ _).wp (alone sb devread devwrite p) Q (c', tab) := by
  have hcopy := h.copy rfl
  have hwhole := hc.whole _ hdir
  have hoffsets : Fs.Sys.offsets 0 (c.dinode (c'.inum x)).size =
      (List.range (c.ino (c'.inum x)).nentries).map (· * direntSize) := by
    have hcount : ((c.dinode (c'.inum x)).size + direntSize - 1) / direntSize =
        (c.dinode (c'.inum x)).size / direntSize := by
      simp only [direntSize] at *
      omega
    rw [Fs.Sys.offsets, drop_zero, hcount, Ino.nentries, Cache.ino, length_content]
    rfl
  rw [Sys.dirlookup, Call.wp_bind]
  refine ino_alone (o := .type x) (r := (c.dinode (c'.inum x)).type) (by rw [← hcopy]; rfl) ?_
  rw [if_neg (not_not.mpr hdir), Call.wp_bind]
  refine ino_alone (o := .size x) (r := (c.dinode (c'.inum x)).size) (by rw [← hcopy]; rfl) ?_
  rw [hoffsets]
  refine dirlookupLoop_alone hc hroom h hdir (fun k hk => mem_range.mp hk) (fun hno => hnone ?_)
    fun k hk y c'' hy hx h'' => hsome y _ c'' ?_ hx h''
  · rw [Ino.lookup, hno]
    rfl
  · rw [Ino.lookup, hk, hy]
    rfl

end

omit hc hroom in
/-- What `namex` returns, with the reference it has taken. -/
def Found (c : Cache) (tab : Tables ι (Fin ninode)) (par : Bool) (d : ℕ) (names : List Name)
    (r : Option (Fin ninode × List UInt8)) (s : Machine ι) : Prop :=
  s.2 = tab ∧ c.Lent s.1 (r.map Prod.fst).toList none ∧
    Finds c.ino par d names (r.map fun y => (s.1.inum y.1, y.2))

section

variable (par : Bool) {path name : List UInt8} (hname : name.length = dirsiz)
  {Q : Option (Fin ninode × List UInt8) → Machine ι → Prop}

include hname

/-- **The loop of `namex`**, from an inode that is there. -/
theorem namexLoop_alone {k : ℕ} (hk : (cstring path).length < k) (h : c.Lent c' [x] none)
    (ht : (c.dinode (c'.inum x)).type ≠ .free)
    (hQ : ∀ r s, Found c tab par (c'.inum x) (elems (cstring path)) r s → Q r s) :
    (Path.namexLoop par k x path name : Sys ι _ _).wp (alone sb devread devwrite p) Q
    (c', tab) := by
  induction k generalizing x c' path name with
  | zero => exact absurd hk (Nat.not_lt_zero _)
  | succ k ih =>
    rw [Path.namexLoop]
    rw [elems_eq] at hQ
    rcases Path.skipelem_eq path hname with ⟨hs, hf⟩ | ⟨rest, name', hs, hname', hf, hend⟩
    · rw [hf] at hQ
      rw [hs]
      cases par with
      | true =>
        obtain ⟨c₁, hput, -, h₁⟩ := h.iput hc rfl (.refl _) ht
        exact ino_alone hput (hQ none _ ⟨rfl, h₁, rfl⟩)
      | false => exact hQ _ _ ⟨rfl, h, rfl⟩
    rw [hf] at hQ
    rw [hs]
    obtain ⟨c₁, hlock, hin, h₁⟩ := h.ilock rfl mem_cons_self ht
    simp only [← hin] at ht hQ
    -- the ways to fail end in the same way
    have hfail : Finds c.ino par (c₁.inum x) (trim name' :: elems (cstring rest)) none →
        (Sys.iunlockput x >>= fun _ => pure none : Sys ι _ _).wp (alone sb devread devwrite p) Q
          (c₁, tab) := by
      intro hno
      rw [Call.wp_bind]
      exact iunlockput_alone hc h₁ (.refl _) ht fun c'' _ h'' => hQ none _ ⟨rfl, h'', hno⟩
    simp only [Call.wp_bind]
    refine ino_alone hlock (ino_alone (o := .type x) (r := (c.dinode (c₁.inum x)).type)
      (by rw [← h₁.copy rfl]; rfl) ?_)
    by_cases hpar : par = true ∧ elems (cstring rest) = []
    · obtain ⟨rfl, hnil⟩ := hpar
      rw [hnil] at hfail hQ
      by_cases hdir : (c.dinode (c₁.inum x)).type = .dir
      · rw [if_neg (not_not.mpr hdir),
          if_pos (⟨rfl, hend.mpr hnil⟩ : true = true ∧ rest.headD 0 = 0), Call.wp_bind]
        obtain ⟨c₂, hun, hin₂, h₂⟩ := h₁.iunlock rfl
        refine ino_alone hun (hQ _ _ ⟨rfl, h₂, ?_⟩)
        simp [Finds, walkParent, walk, Cache.ino, hdir, hin₂]
      · rw [if_pos hdir]
        exact hfail (by simp [Finds, walkParent, walk, Cache.ino, hdir])
    have hfinds := fun r => (finds_cons hpar :
      Finds c.ino par (c₁.inum x) (trim name' :: elems (cstring rest)) r ↔ _)
    simp only [Ino.lookup_trim] at hfinds
    by_cases hdir : (c.dinode (c₁.inum x)).type = .dir
    · simp only [if_pos (show (c.ino (c₁.inum x)).type = .dir from hdir)] at hfinds
      rw [if_neg (not_not.mpr hdir), if_neg fun h => hpar ⟨h.1, hend.mp h.2⟩, Call.wp_bind]
      refine dirlookup_alone hc hroom h₁ hdir (fun hno => hfail ((hfinds none).mpr (by rw [hno])))
        fun y off c₂ hy hx h₂ => ?_
      show Call.wp _ (Sys.iunlockput x >>= fun _ => _) _ _
      rw [Call.wp_bind]
      refine iunlockput_alone hc h₂ (.swap ..) (hx ▸ ht) fun c₃ hin₃ h₃ => ?_
      have hlt := length_skipelem hf
      refine ih hname' (by omega) h₃ (hin₃ ▸ hc.lookup_ne_free hdir hy) fun r s hr =>
        hQ r s ⟨hr.1, hr.2.1, (hfinds _).mpr ?_⟩
      rw [hy, ← hin₃]
      exact hr.2.2
    · rw [if_pos hdir]
      exact hfail ((hfinds none).mpr (by rw [if_neg (show (c.ino _).type ≠ .dir from hdir)]))

/-- `namex` finds what the components of the path lead to. -/
theorem namex_alone (hcwd : (tab.proc p).cwd = some x) (hx : 0 < c.ref x)
    (ht : (c.dinode (c.inum x)).type ≠ .free)
    (hQ : ∀ r s, Found c tab par (if path.headD 0 = slash then rootino else c.inum x)
      (components (cstring path)) r s → Q r s) :
    (Path.namex path par name : Sys ι _ _).wp (alone sb devread devwrite p) Q (c, tab) := by
  have hlen : (cstring path).length < path.length + 1 :=
    Nat.lt_succ_of_le (takeWhile_sublist _).length_le
  rw [← elems_eq_components] at hQ
  rw [Path.namex]
  by_cases hslash : path.headD 0 = slash
  · rw [if_pos hslash] at hQ ⊢
    obtain ⟨y, c₁, hget, hy, -, h₁⟩ := hc.rest.iget (hc.rest.room hroom (Nat.zero_le _)) rootino
    rw [Call.wp_bind]
    refine ino_alone hget (namexLoop_alone hc hroom par hname hlen h₁ ?_ ?_)
    · rw [hy]
      exact hc.root_ne
    · rwa [hy]
  · rw [if_neg hslash] at hQ ⊢
    obtain ⟨c₁, hdup, hin, h₁⟩ := hc.rest.idup hx
    rw [Call.wp_bind]
    refine ⟨some x, (c, tab), by simp [implement, FileOp.apply, Except.map, hcwd], ?_⟩
    refine ino_alone hdup (namexLoop_alone hc hroom par hname hlen h₁ ?_ ?_)
    · rwa [hin]
    · rwa [hin]

end

end Programs

/-- The entries of a root with a file whose name has 14 bytes. -/
def oneFile : List UInt8 :=
  direntBytes 1 dot ++ direntBytes 1 dotdot ++ direntBytes 2 (List.replicate 14 98)

/-- They are in block 5. The root is in the inode table, since it is a current directory. -/
def oneFileCache : Cache where
  bitmap b := decide (b < 6)
  data b k := if b = 5 then oneFile.getD k 0 else 0
  dinode i := if i = 1 then ⟨.dir, 0, 0, 1, 48, fun k => if k = 0 then 5 else 0⟩
    else if i = 2 then ⟨.file, 0, 0, 1, 0, fun _ => 0⟩ else .new .free
  slot x := ⟨1, if x.1 = 0 then 1 else 0, false, false, .new .free⟩

theorem oneFileCache_ready : oneFileCache.Ready := by
  have hdir : ∀ d, (oneFileCache.dinode d).type = .dir → d = 1 := fun d hd => by
    simp only [oneFileCache] at hd
    split_ifs at hd with h1
    · exact h1
    · cases hd
  refine ⟨⟨rfl, fun _ => rfl, .refl _, ?_, nofun, fun _ _ => rfl, nofun⟩, fun i ht hl => ?_,
    fun d hd bn hbn => ?_, fun d hd => ?_, fun d hd => ?_, fun d hd => ?_, by decide⟩
  · unfold Cache.Distinct
    decide +kernel
  · simp only [oneFileCache] at ht hl
    split_ifs at ht hl
    · cases hl
    · cases hl
    · exact absurd rfl ht
  all_goals obtain rfl := hdir d hd
  · have hbn0 : bn = 0 := by
      have : bn * bsize < 48 := hbn
      simp only [bsize] at this
      omega
    subst hbn0
    decide
  · decide
  · decide
  · decide +kernel

/-- A process in the root. -/
def oneFileTables : Tables Unit (Fin ninode) :=
  ⟨fun _ => ⟨.running, some ⟨0, by decide⟩, true, fun _ => none⟩,
    fun _ => ⟨.none, 0, false, false, 0⟩, fun _ => ⟨false, false, 0⟩, 0⟩

end Xv6.Sysfile
