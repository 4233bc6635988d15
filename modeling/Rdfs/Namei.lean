import Mathlib.Data.Multiset.Count
import Mathlib.Data.Multiset.Filter
import Rdfs.Establish

/-!
# The namespace

`namei.c` implements the operations on directories with the primitives of `dir.c`. Here the entries
of all directories, `.` and `..` apart, are one finite map from directories and names to inodes, and
a primitive that fails leaves it alone; which calls fail is part of the input of an operation. Two
kinds of counters go with the entries : the link counts, and the `mapping_count` of the directories
that an operation maps into the kernel's address space while it works on them.

In every run of operations that the VFS admits, in which `rdfs_rename` is never left with an old
entry that it cannot delete, the link counts are right (`NamesRun.links_spec`).
-/

namespace Rdfs

open Function Option Multiset

/-! ## State and primitives -/

/-- An entry of a directory. -/
structure Entry where
  dir : ℕ
  name : List UInt8
  ino : ℕ
deriving DecidableEq

/-- The entries of all directories, and of every inode its kind, `i_nlink`, `mapping_count` and
`i_virt_addr`. -/
structure Names where
  entries : Multiset Entry
  isDir : ℕ → Bool
  nlink : ℕ → ℤ
  mappingCount : ℕ → ℤ
  virtAddr : ℕ → ℕ

namespace Names

/-- `rdfs_establish_mapping`; `area` is what `nvmalloc` returns if it is called. -/
def establish (s : Names) (i area : ℕ) : Names := { s with
  mappingCount := Function.update s.mappingCount i (s.mappingCount i + 1)
  virtAddr := Function.update s.virtAddr i (if s.virtAddr i = 0 then area else s.virtAddr i) }

/-- `rdfs_destroy_mapping`. -/
def destroy (s : Names) (i : ℕ) : Names :=
  if s.virtAddr i = 0 then s
  else { s with
    mappingCount := Function.update s.mappingCount i (s.mappingCount i - 1)
    virtAddr := Function.update s.virtAddr i
      (if 0 < s.mappingCount i - 1 then s.virtAddr i else 0) }

/-- `inode_inc_link_count`. -/
def incLink (s : Names) (i : ℕ) : Names :=
  { s with nlink := Function.update s.nlink i (s.nlink i + 1) }

/-- `inode_dec_link_count` and `drop_nlink`. -/
def decLink (s : Names) (i : ℕ) : Names :=
  { s with nlink := Function.update s.nlink i (s.nlink i - 1) }

/-- What `rdfs_new_inode` returns : an inode with one link that is not mapped. -/
def newInode (s : Names) (i : ℕ) (dir : Bool) : Names := { s with
  isDir := Function.update s.isDir i dir
  nlink := Function.update s.nlink i 1
  mappingCount := Function.update s.mappingCount i 0
  virtAddr := Function.update s.virtAddr i 0 }

/-- The directory has an entry of that name. -/
def Has (s : Names) (dir : ℕ) (name : List UInt8) : Prop :=
  ∃ e ∈ s.entries, e.dir = dir ∧ e.name = name

instance (s : Names) (dir : ℕ) (name : List UInt8) : Decidable (s.Has dir name) :=
  Multiset.decidableExistsMultiset

/-- `rdfs_add_link`, `none` if it fails. -/
def addLink (s : Names) (ok : Bool) (dir : ℕ) (name : List UInt8) (ino : ℕ) : Option Names :=
  if s.virtAddr dir = 0 ∨ s.Has dir name ∨ ok = false then none
  else some { s with entries := ⟨dir, name, ino⟩ ::ₘ s.entries }

/-- `rdfs_find_entry2`, which follows the address of a directory without a test; `none` if that is
a null pointer. -/
def findEntry (s : Names) (ok : Bool) (dir : ℕ) (name : List UInt8) : Option Bool :=
  if s.virtAddr dir = 0 then none else some (decide (s.Has dir name) && ok)

/-- `rdfs_delete_entry` when it succeeds. -/
def deleteEntry (s : Names) (dir : ℕ) (name : List UInt8) : Names :=
  { s with entries := s.entries.filter fun e => ¬(e.dir = dir ∧ e.name = name) }

/-- `rdfs_set_link` on an entry that is there. -/
def setLink (s : Names) (dir : ℕ) (name : List UInt8) (ino : ℕ) : Names :=
  { s with entries := ⟨dir, name, ino⟩ ::ₘ (s.deleteEntry dir name).entries }

/-- `rdfs_empty_dir`, `none` if it follows a null pointer. -/
def emptyDir (s : Names) (ok : Bool) (i : ℕ) : Option Bool :=
  if s.virtAddr i = 0 then none else some (decide (∀ e ∈ s.entries, e.dir ≠ i) && ok)

end Names

/-! ## Operations -/

/-- What the calls of `rdfs_create` return : `area` is the result of `nvmalloc`, which is 0 when it
fails. -/
structure CreateOutcome where
  newInode : Option ℕ
  area : ℕ
  addLink : Bool

/-- What the calls of `rdfs_symlink` return. -/
structure SymlinkOutcome where
  newInode : Option ℕ
  allocBlocks : Bool
  inodeArea : ℕ
  area : ℕ
  addLink : Bool

/-- What the calls of `rdfs_unlink` return. -/
structure UnlinkOutcome where
  area : ℕ
  find : Bool
  delete : Bool

/-- What the calls of `rdfs_mkdir` return. -/
structure MkdirOutcome where
  newInode : Option ℕ
  area : ℕ
  inodeArea : ℕ
  nvmap : Bool
  allocBlocks : Bool
  unnvmap : Bool
  addLink : Bool

/-- What the calls of `rdfs_rename` return. -/
structure RenameOutcome where
  oldDirArea : ℕ
  find : Bool
  oldInodeArea : ℕ
  newInodeArea : ℕ
  empty : Bool
  newDirArea : ℕ
  findNew : Bool
  addLink : Bool
  findAgain : Bool
  delete : Bool

namespace Names

/-- `rdfs_lookup`. -/
def lookup (s : Names) (dir : ℕ) (name : List UInt8) (area : ℕ) (find : Bool) : Option Names :=
  let s := s.establish dir area
  (s.findEntry find dir name).map fun _ => s.destroy dir

/-- `rdfs_readdir`; `atEnd` if nothing is left to be read. -/
def readdir (s : Names) (inode area : ℕ) (atEnd : Bool) : Option Names :=
  let s := s.establish inode area
  if atEnd = false ∧ s.virtAddr inode = 0 then none else some (s.destroy inode)

/-- `rdfs_add_nondir`. -/
def addNondir (s : Names) (ok : Bool) (dir : ℕ) (name : List UInt8) (inode : ℕ) : Names :=
  (s.addLink ok dir name inode).getD (s.decLink inode)

/-- `rdfs_create`. -/
def create (s : Names) (dir : ℕ) (name : List UInt8) (o : CreateOutcome) : Names :=
  match o.newInode with
  | none => s
  | some i =>
    (((s.newInode i false).establish dir o.area).addNondir o.addLink dir name i).destroy dir

/-- `rdfs_symlink` with a target that is short enough. `rdfs_page_symlink` writes to the address of
the inode without a test. -/
def symlink (s : Names) (dir : ℕ) (name : List UInt8) (o : SymlinkOutcome) : Option Names :=
  match o.newInode with
  | none => some s
  | some i =>
    let s := s.newInode i false
    if o.allocBlocks = false then some (s.decLink i)
    else
      let s := s.establish i o.inodeArea
      if s.virtAddr i = 0 then none
      else
        let s := (s.destroy i).establish dir o.area
        some ((s.addNondir o.addLink dir name i).destroy dir)

/-- `rdfs_link`. -/
def link (s : Names) (inode dir : ℕ) (name : List UInt8) (area : ℕ) (ok : Bool) : Names :=
  let s := (s.incLink inode).establish dir area
  ((s.addLink ok dir name inode).getD (s.decLink inode)).destroy dir

/-- `rdfs_unlink` : whether it succeeds, and the state. -/
def unlink (s : Names) (dir : ℕ) (name : List UInt8) (inode : ℕ) (o : UnlinkOutcome) :
    Option (Bool × Names) :=
  let s := s.establish dir o.area
  (s.findEntry o.find dir name).map fun found =>
    if found = true ∧ o.delete = true then
      (true, ((s.deleteEntry dir name).decLink inode).destroy dir)
    else (false, s.destroy dir)

/-- `rdfs_make_empty` on a new inode : whether it succeeds, and the state. -/
def makeEmpty (s : Names) (i : ℕ) (o : MkdirOutcome) : Bool × Names :=
  let s := s.establish i o.inodeArea
  if s.virtAddr i = 0 ∨ o.nvmap = false then (false, s)
  else if o.allocBlocks = false then (false, s)
  else (o.unnvmap, s.destroy i)

/-- `rdfs_mkdir`. -/
def mkdir (s : Names) (dir : ℕ) (name : List UInt8) (o : MkdirOutcome) : Names :=
  let s := s.incLink dir
  match o.newInode with
  | none => (s.decLink dir).destroy dir
  | some i =>
    let s := ((s.newInode i true).incLink i).establish dir o.area
    let r := s.makeEmpty i o
    let fail := (((r.2.decLink i).decLink i).decLink dir).destroy dir
    if r.1 = false then fail
    else ((r.2.addLink o.addLink dir name i).map fun s => s.destroy dir).getD fail

/-- `rdfs_rmdir`. -/
def rmdir (s : Names) (dir : ℕ) (name : List UInt8) (inode area : ℕ) (empty : Bool)
    (o : UnlinkOutcome) : Option Names :=
  let s := s.establish inode area
  (s.emptyDir empty inode).bind fun isEmpty =>
    if isEmpty = true then
      (s.unlink dir name inode o).map fun r =>
        (if r.1 = true then (r.2.decLink inode).decLink dir else r.2).destroy inode
    else some (s.destroy inode)

/-- `rdfs_rename` from the second search for the old entry on; the result of `rdfs_delete_entry` is
not looked at. -/
def renameEnd (s : Names) (oldDir : ℕ) (oldName : List UInt8) (newDir oldInode : ℕ)
    (newInode : Option ℕ) (o : RenameOutcome) : Option Names :=
  let isdir := s.isDir oldInode
  (s.findEntry o.findAgain oldDir oldName).bind fun found =>
    if found = false then none
    else
      let s := if o.delete = true then s.deleteEntry oldDir oldName else s
      let s := if isdir = true then s.decLink oldDir else s
      let s := newInode.elim s s.destroy
      let s := if isdir = true then s.destroy oldInode else s
      some ((s.destroy oldDir).destroy newDir)

/-- The labels `out_new_inode`, `out_old_inode` and `out_old_dir` of `rdfs_rename`. -/
def renameOut (s : Names) (oldDir oldInode : ℕ) (newInode : Option ℕ) : Names :=
  let s := newInode.elim s s.destroy
  let s := if s.isDir oldInode = true then s.destroy oldInode else s
  s.destroy oldDir

/-- `rdfs_rename` from its test of `new_inode` on. -/
def renameNew (s : Names) (oldDir : ℕ) (oldName : List UInt8) (newDir : ℕ) (newName : List UInt8)
    (oldInode : ℕ) (newInode : Option ℕ) (o : RenameOutcome) : Option Names :=
  let isdir := s.isDir oldInode
  match newInode with
  | some n =>
    let s := s.establish n o.newInodeArea
    (if isdir = true then s.emptyDir o.empty n else some true).bind fun isEmpty =>
      if isEmpty = false then some (s.renameOut oldDir oldInode (some n))
      else
        let s := s.establish newDir o.newDirArea
        (s.findEntry o.findNew newDir newName).bind fun foundNew =>
          if foundNew = false then some ((s.destroy newDir).renameOut oldDir oldInode (some n))
          else
            let s := s.setLink newDir newName oldInode
            let s := (if isdir = true then s.decLink n else s).decLink n
            s.renameEnd oldDir oldName newDir oldInode (some n) o
  | none =>
    let s := s.establish newDir o.newDirArea
    match s.addLink o.addLink newDir newName oldInode with
    | none => some ((s.destroy newDir).renameOut oldDir oldInode none)
    | some s =>
      let s := if isdir = true then s.incLink newDir else s
      s.renameEnd oldDir oldName newDir oldInode none o

/-- `rdfs_rename`. `rdfs_dotdot` follows the address of the inode without a test. -/
def rename (s : Names) (oldDir : ℕ) (oldName : List UInt8) (newDir : ℕ) (newName : List UInt8)
    (oldInode : ℕ) (newInode : Option ℕ) (o : RenameOutcome) : Option Names :=
  let s := s.establish oldDir o.oldDirArea
  (s.findEntry o.find oldDir oldName).bind fun found =>
    if found = false then some (s.destroy oldDir)
    else if s.isDir oldInode = true then
      let s := s.establish oldInode o.oldInodeArea
      if s.virtAddr oldInode = 0 then none
      else s.renameNew oldDir oldName newDir newName oldInode newInode o
    else s.renameNew oldDir oldName newDir newName oldInode newInode o

end Names

/-- An operation with what its calls return. -/
inductive NsOp
  | lookup (dir : ℕ) (name : List UInt8) (area : ℕ) (find : Bool)
  | readdir (inode area : ℕ) (atEnd : Bool)
  | create (dir : ℕ) (name : List UInt8) (o : CreateOutcome)
  | symlink (dir : ℕ) (name : List UInt8) (o : SymlinkOutcome)
  | link (inode dir : ℕ) (name : List UInt8) (area : ℕ) (ok : Bool)
  | unlink (dir : ℕ) (name : List UInt8) (inode : ℕ) (o : UnlinkOutcome)
  | mkdir (dir : ℕ) (name : List UInt8) (o : MkdirOutcome)
  | rmdir (dir : ℕ) (name : List UInt8) (inode area : ℕ) (empty : Bool) (o : UnlinkOutcome)
  | rename (oldDir : ℕ) (oldName : List UInt8) (newDir : ℕ) (newName : List UInt8) (oldInode : ℕ)
      (newInode : Option ℕ) (o : RenameOutcome)

namespace NsOp

/-- The state after an operation, `none` if it follows a null pointer. -/
def run (s : Names) : NsOp → Option Names
  | lookup dir name area find => s.lookup dir name area find
  | readdir inode area atEnd => s.readdir inode area atEnd
  | create dir name o => some (s.create dir name o)
  | symlink dir name o => s.symlink dir name o
  | link inode dir name area ok => some (s.link inode dir name area ok)
  | unlink dir name inode o => (s.unlink dir name inode o).map Prod.snd
  | mkdir dir name o => some (s.mkdir dir name o)
  | rmdir dir name inode area empty o => s.rmdir dir name inode area empty o
  | rename oldDir oldName newDir newName oldInode newInode o =>
    s.rename oldDir oldName newDir newName oldInode newInode o

end NsOp

/-! ## Link counts -/

variable {s t s' : Names} {dir i inode oldDir newDir oldInode : ℕ}
  {name oldName newName : List UInt8} {newInode : Option ℕ}

namespace Names

/-- Names in use are a matter of the entries. -/
theorem has_congr (h : t.entries = s.entries) (dir : ℕ) (name : List UInt8) :
    t.Has dir name ↔ s.Has dir name := by
  rw [Has, Has, h]

section links

variable (s : Names) (i j : ℕ) (area : ℕ)

@[simp] theorem establish_entries : (s.establish i area).entries = s.entries := rfl

@[simp] theorem establish_isDir : (s.establish i area).isDir = s.isDir := rfl

@[simp] theorem establish_nlink : (s.establish i area).nlink = s.nlink := rfl

@[simp] theorem destroy_entries : (s.destroy i).entries = s.entries := by
  unfold destroy
  split_ifs <;> rfl

@[simp] theorem destroy_isDir : (s.destroy i).isDir = s.isDir := by
  unfold destroy
  split_ifs <;> rfl

@[simp] theorem destroy_nlink : (s.destroy i).nlink = s.nlink := by
  unfold destroy
  split_ifs <;> rfl

theorem incLink_nlink : (s.incLink i).nlink j = s.nlink j + if i = j then 1 else 0 := by
  rcases eq_or_ne i j with rfl | hj
  · simp [incLink]
  · simp [incLink, hj, hj.symm]

theorem decLink_nlink : (s.decLink i).nlink j = s.nlink j - if i = j then 1 else 0 := by
  rcases eq_or_ne i j with rfl | hj
  · simp [decLink]
  · simp [decLink, hj, hj.symm]

theorem newInode_nlink (dir : Bool) :
    (s.newInode i dir).nlink j = if i = j then 1 else s.nlink j := by
  rcases eq_or_ne i j with rfl | hj
  · simp [newInode]
  · simp [newInode, hj, hj.symm]

end links

/-- The directory is the root, or an entry names it. -/
def Live (s : Names) (root d : ℕ) : Prop := d = root ∨ ∃ e ∈ s.entries, e.ino = d

/-- The entries that name an inode. -/
def named (s : Names) (i : ℕ) : ℕ := s.entries.countP fun e => e.ino = i

/-- The subdirectories of a directory. -/
def subdirs (s : Names) (d : ℕ) : ℕ := s.entries.countP fun e => e.dir = d ∧ s.isDir e.ino = true

/-- The link counts are right. -/
structure LinksOk (s : Names) (root : ℕ) : Prop where
  nondir : ∀ i, s.isDir i = false → s.nlink i = s.named i
  dir : ∀ d, s.isDir d = true → s.Live root d → s.nlink d = 2 + s.subdirs d

theorem deleteEntry_entries_cons {e : Entry} (he : t.entries = e ::ₘ s.entries)
    (hkey : ¬(e.dir = dir ∧ e.name = name)) :
    (t.deleteEntry dir name).entries = e ::ₘ (s.deleteEntry dir name).entries := by
  rw [deleteEntry, deleteEntry, he]
  exact filter_cons_of_pos _ hkey

/-- The entries have different names in each directory, no directory has two names, and the root
has none. -/
structure LinkInv (s : Names) (root : ℕ) : Prop extends LinksOk s root where
  keys : (s.entries.map fun e => (e.dir, e.name)).Nodup
  dirs : ∀ e ∈ s.entries, s.isDir e.dir = true
  once : ∀ d, s.isDir d = true → s.named d ≤ 1
  root_isDir : s.isDir root = true
  root_named : s.named root = 0

theorem named_eq_zero : s.named i = 0 ↔ ∀ e ∈ s.entries, e.ino ≠ i := countP_eq_zero

section step

variable {s s' : Names} {root : ℕ} {e : Entry}

section

variable (he : s'.entries = e ::ₘ s.entries)
include he

theorem named_cons (i : ℕ) : s'.named i = s.named i + if e.ino = i then 1 else 0 := by
  rw [named, he, countP_cons, named]

theorem subdirs_cons (hd : s'.isDir = s.isDir) (d : ℕ) :
    s'.subdirs d = s.subdirs d + if e.dir = d ∧ s.isDir e.ino = true then 1 else 0 := by
  rw [subdirs, he, hd, countP_cons, subdirs]

theorem live_cons {d : ℕ} : s'.Live root d ↔ e.ino = d ∨ s.Live root d := by
  simp only [Live, he, mem_cons, exists_eq_or_imp]
  tauto

end

namespace LinkInv

section

variable (h : LinkInv s root)
include h

/-- What the link counts are about. -/
theorem congr (he : s'.entries = s.entries) (hd : s'.isDir = s.isDir) (hn : s'.nlink = s.nlink) :
    LinkInv s' root := by
  obtain ⟨entries, isDir, nlink, c, v⟩ := s
  obtain ⟨entries', isDir', nlink', c', v'⟩ := s'
  obtain rfl : entries' = entries := he
  obtain rfl : isDir' = isDir := hd
  obtain rfl : nlink' = nlink := hn
  exact ⟨⟨h.nondir, h.dir⟩, h.keys, h.dirs, h.once, h.root_isDir, h.root_named⟩

theorem keys_cons (hnot : ¬s.Has e.dir e.name) (he : s'.entries = e ::ₘ s.entries) :
    (s'.entries.map fun e => (e.dir, e.name)).Nodup := by
  rw [he, map_cons, nodup_cons]
  refine ⟨fun hmem => hnot ?_, h.keys⟩
  obtain ⟨e', he', heq⟩ := Multiset.mem_map.1 hmem
  exact ⟨e', he', congrArg Prod.fst heq, congrArg Prod.snd heq⟩

/-- One entry more for an inode that is not a directory. -/
theorem add_nondir (hdir : s.isDir e.dir = true) (hnot : ¬s.Has e.dir e.name)
    (hino : s.isDir e.ino = false) (he : s'.entries = e ::ₘ s.entries) (hd : s'.isDir = s.isDir)
    (hn : ∀ j, s'.nlink j = s.nlink j + if e.ino = j then 1 else 0) : LinkInv s' root := by
  have hne : ∀ d, s.isDir d = true → e.ino ≠ d := by
    rintro d hd' rfl
    rw [hino] at hd'
    cases hd'
  refine ⟨⟨fun j hj => ?_, fun d hdd hlive => ?_⟩, ?_, ?_, fun d hdd => ?_, hd ▸ h.root_isDir, ?_⟩
  · rw [hn, named_cons he, h.nondir j (hd ▸ hj)]
    split_ifs <;> rfl
  · rw [hd] at hdd
    rw [live_cons he] at hlive
    rw [hn, subdirs_cons he hd, if_neg (hne d hdd), hino,
      h.dir d hdd (hlive.resolve_left (hne d hdd))]
    simp
  · exact h.keys_cons hnot he
  · rw [he, hd]
    exact forall_mem_cons.2 ⟨hdir, h.dirs⟩
  · rw [hd] at hdd
    rw [named_cons he, if_neg (hne d hdd)]
    exact h.once d hdd
  · rw [named_cons he, if_neg (hne root h.root_isDir), h.root_named]

/-- One entry less for an inode that is not a directory. -/
theorem remove_nondir (hino : s.isDir e.ino = false) (he : s.entries = e ::ₘ s'.entries)
    (hd : s'.isDir = s.isDir) (hn : ∀ j, s'.nlink j = s.nlink j - if e.ino = j then 1 else 0) :
    LinkInv s' root := by
  have hne : ∀ d, s.isDir d = true → e.ino ≠ d := by
    rintro d hd' rfl
    rw [hino] at hd'
    cases hd'
  have hkeys := h.keys
  have hdirs := h.dirs
  rw [he, map_cons, nodup_cons] at hkeys
  rw [he, forall_mem_cons] at hdirs
  refine ⟨⟨fun j hj => ?_, fun d hdd hlive => ?_⟩, hkeys.2, hd ▸ hdirs.2, fun d hdd => ?_,
    hd ▸ h.root_isDir, ?_⟩
  · rw [hn, h.nondir j (hd ▸ hj), named_cons he]
    split_ifs <;> simp
  · rw [hd] at hdd
    rw [hn, if_neg (hne d hdd), h.dir d hdd ((live_cons he).2 (Or.inr hlive)),
      subdirs_cons he hd.symm, hd, hino]
    simp
  · rw [hd] at hdd
    have := h.once d hdd
    rwa [named_cons he, if_neg (hne d hdd)] at this
  · have := h.root_named
    rwa [named_cons he, if_neg (hne root h.root_isDir)] at this

/-- An entry for a directory that had none. -/
theorem add_dir (hdir : s.isDir e.dir = true) (hnot : ¬s.Has e.dir e.name)
    (hino : s.isDir e.ino = true) (hnamed : s.named e.ino = 0) (hroot : e.ino ≠ root)
    (hne : e.ino ≠ e.dir) (he : s'.entries = e ::ₘ s.entries) (hd : s'.isDir = s.isDir)
    (hn : ∀ j, e.ino ≠ j → s'.nlink j = s.nlink j + if e.dir = j then 1 else 0)
    (hi : s'.nlink e.ino = 2 + s.subdirs e.ino) : LinkInv s' root := by
  refine ⟨⟨fun j hj => ?_, fun d hdd hlive => ?_⟩, ?_, ?_, fun d hdd => ?_, hd ▸ h.root_isDir, ?_⟩
  · rw [hd] at hj
    have hj' : e.ino ≠ j := by
      rintro rfl
      rw [hino] at hj
      cases hj
    have hj'' : e.dir ≠ j := by
      rintro rfl
      rw [hdir] at hj
      cases hj
    rw [hn j hj', if_neg hj'', named_cons he, if_neg hj', h.nondir j hj]
    simp
  · rw [hd] at hdd
    by_cases heq : e.ino = d
    · subst heq
      rw [hi, subdirs_cons he hd, if_neg fun hc => hne hc.1.symm]
      simp
    · rw [hn d heq, subdirs_cons he hd, h.dir d hdd (((live_cons he).1 hlive).resolve_left heq)]
      simp only [hino, and_true]
      split_ifs <;> omega
  · exact h.keys_cons hnot he
  · rw [he, hd]
    exact forall_mem_cons.2 ⟨hdir, h.dirs⟩
  · rw [hd] at hdd
    rw [named_cons he]
    split_ifs with heq
    · rw [← heq, hnamed]
    · exact h.once d hdd
  · rw [named_cons he, if_neg hroot, h.root_named]

/-- The entry of a directory removed, which is then dead. -/
theorem remove_dir (hino : s.isDir e.ino = true) (he : s.entries = e ::ₘ s'.entries)
    (hd : s'.isDir = s.isDir)
    (hn : ∀ j, e.ino ≠ j → s'.nlink j = s.nlink j - if e.dir = j then 1 else 0) :
    LinkInv s' root := by
  have hkeys := h.keys
  have hdirs := h.dirs
  rw [he, map_cons, nodup_cons] at hkeys
  rw [he, forall_mem_cons] at hdirs
  have hdead : s'.named e.ino = 0 := by
    have := h.once e.ino hino
    rw [named_cons he, if_pos rfl] at this
    omega
  have hroot : e.ino ≠ root := by
    rintro heq
    have := h.root_named
    rw [named_cons he, if_pos heq] at this
    omega
  refine ⟨⟨fun j hj => ?_, fun d hdd hlive => ?_⟩, hkeys.2, hd ▸ hdirs.2, fun d hdd => ?_,
    hd ▸ h.root_isDir, ?_⟩
  · rw [hd] at hj
    have hj' : e.ino ≠ j := by
      rintro rfl
      rw [hino] at hj
      cases hj
    have hj'' : e.dir ≠ j := by
      rintro rfl
      rw [hdirs.1] at hj
      cases hj
    rw [hn j hj', if_neg hj'', h.nondir j hj, named_cons he, if_neg hj']
    simp
  · rw [hd] at hdd
    have hne : e.ino ≠ d := by
      rintro rfl
      rcases hlive with heq | ⟨e', he', heq⟩
      · exact hroot heq
      · exact named_eq_zero.1 hdead e' he' heq
    rw [hn d hne, h.dir d hdd ((live_cons he).2 (Or.inr hlive)), subdirs_cons he hd.symm, hd]
    simp only [hino, and_true]
    split_ifs <;> omega
  · rw [hd] at hdd
    have := h.once d hdd
    rw [named_cons he] at this
    omega
  · have := h.root_named
    rwa [named_cons he, if_neg hroot] at this

/-- A new inode that no entry names. -/
theorem new_inode (hroot : i ≠ root) (hfresh : ∀ e ∈ s.entries, e.dir ≠ i ∧ e.ino ≠ i)
    (he : s'.entries = s.entries) (hd : ∀ j, i ≠ j → s'.isDir j = s.isDir j)
    (hn : ∀ j, i ≠ j → s'.nlink j = s.nlink j) (hi : s'.nlink i = 0) : LinkInv s' root := by
  have hnamed : ∀ j, s'.named j = s.named j := fun j => by rw [named, he, named]
  have hsub : ∀ d, s'.subdirs d = s.subdirs d := fun d => by
    rw [subdirs, he]
    exact countP_congr rfl fun e hmem => by rw [hd _ (hfresh e hmem).2.symm]
  have hzero : s'.named i = 0 := by
    rw [hnamed, named_eq_zero]
    exact fun e hmem => (hfresh e hmem).2
  refine ⟨⟨fun j hj => ?_, fun d hdd hlive => ?_⟩, he ▸ h.keys, ?_, fun d hdd => ?_, ?_, ?_⟩
  · by_cases hij : i = j
    · subst hij
      rw [hi, hzero]
      rfl
    · rw [hn j hij, hnamed, h.nondir j (hd j hij ▸ hj)]
  · have hid : i ≠ d := by
      rintro rfl
      rcases hlive with heq | ⟨e, hmem, heq⟩
      · exact hroot heq
      · exact (hfresh e (he ▸ hmem)).2 heq
    rw [hn d hid, hsub, h.dir d (hd d hid ▸ hdd)]
    rcases hlive with heq | ⟨e, hmem, heq⟩
    · exact Or.inl heq
    · exact Or.inr ⟨e, he ▸ hmem, heq⟩
  · rw [he]
    exact fun e hmem => (hd _ (hfresh e hmem).1.symm).trans (h.dirs e hmem)
  · by_cases hid : i = d
    · rw [← hid, hzero]
      exact Nat.zero_le 1
    · rw [hnamed]
      exact h.once d (hd d hid ▸ hdd)
  · rw [hd root hroot, h.root_isDir]
  · rw [hnamed, h.root_named]

/-- The entry of a name, and the other entries. -/
theorem delete_eq (hmem : e ∈ s.entries) :
    s.entries = e ::ₘ (s.deleteEntry e.dir e.name).entries := by
  obtain ⟨B, hB⟩ := exists_cons_of_mem hmem
  have hkeys := h.keys
  rw [hB, map_cons, nodup_cons] at hkeys
  show s.entries = e ::ₘ s.entries.filter fun e' => ¬(e'.dir = e.dir ∧ e'.name = e.name)
  rw [hB, filter_cons_of_neg _ (by simp), filter_eq_self.2]
  rintro e' he' ⟨h1, h2⟩
  exact hkeys.1 (Multiset.mem_map.2 ⟨e', he', Prod.ext h1 h2⟩)

end

end LinkInv

end step

/-- The inode is not in use. -/
def Fresh (s : Names) (root i : ℕ) : Prop := i ≠ root ∧ ∀ e ∈ s.entries, e.dir ≠ i ∧ e.ino ≠ i

/-- The VFS allows a new entry : the directory is alive and has none of that name. -/
def CanAdd (s : Names) (root dir : ℕ) (name : List UInt8) : Prop :=
  s.isDir dir = true ∧ s.Live root dir ∧ ¬s.Has dir name

theorem Fresh.ne_of_live {root i d : ℕ} (h : s.Fresh root i) (hd : s.Live root d) : i ≠ d := by
  rintro rfl
  rcases hd with heq | ⟨e, he, heq⟩
  · exact h.1 heq
  · exact (h.2 e he).2 heq

section operations

variable {s : Names} {root : ℕ}

section

variable (h : LinkInv s root) (hadd : s.CanAdd root dir name)
include h hadd

/-- A new inode, with an entry or without. -/
theorem LinkInv.addNondir (hf : s.Fresh root i) (he : t.entries = s.entries)
    (hd : t.isDir = Function.update s.isDir i false) (hn : t.nlink = Function.update s.nlink i 1)
    (ok : Bool) : LinkInv (t.addNondir ok dir name i) root := by
  have hne := hf.ne_of_live hadd.2.1
  have hmid : LinkInv { t with nlink := Function.update s.nlink i 0 } root :=
    h.new_inode hf.1 hf.2 he (fun j hj => by simp [hd, hj.symm]) (fun j hj => by simp [hj.symm])
      (by simp)
  unfold Names.addNondir Names.addLink
  split_ifs with hfail
  · refine hmid.congr rfl rfl (funext fun j => ?_)
    simp [decLink, hn]
  · refine hmid.add_nondir (e := ⟨dir, name, i⟩) ?_ ?_ (by simp [hd]) rfl rfl fun j => ?_
    · simp [hd, hne.symm, hadd.1]
    · rintro ⟨e, hmem, heq⟩
      exact hadd.2.2 ⟨e, he ▸ hmem, heq⟩
    · rcases eq_or_ne i j with rfl | hj
      · simp [hn]
      · simp [hn, hj, hj.symm]

theorem LinkInv.create {o : CreateOutcome} (hf : ∀ i ∈ o.newInode, s.Fresh root i) :
    LinkInv (s.create dir name o) root := by
  unfold Names.create
  cases hi : o.newInode with
  | none => exact h
  | some i =>
    exact (h.addNondir hadd (hf i hi) (t := (s.newInode i false).establish dir o.area) rfl rfl rfl
      o.addLink).congr (destroy_entries _ _) (destroy_isDir _ _) (destroy_nlink _ _)

theorem LinkInv.symlink {o : SymlinkOutcome} (hf : ∀ i ∈ o.newInode, s.Fresh root i)
    (hr : s.symlink dir name o = some s') : LinkInv s' root := by
  unfold Names.symlink at hr
  cases hi : o.newInode with
  | none =>
    rw [hi] at hr
    exact some_inj.1 hr ▸ h
  | some i =>
    rw [hi] at hr
    simp only at hr
    split_ifs at hr
    · obtain rfl := some_inj.1 hr
      exact h.new_inode (hf i hi).1 (hf i hi).2 rfl (fun j hj => update_of_ne hj.symm _ _)
        (fun j hj => by simp [decLink, newInode, hj.symm]) (by simp [decLink, newInode])
    · obtain rfl := some_inj.1 hr
      exact (h.addNondir hadd (hf i hi) (by simp [newInode]) (by simp [newInode])
        (by simp [newInode]) o.addLink).congr (destroy_entries _ _) (destroy_isDir _ _)
        (destroy_nlink _ _)

theorem LinkInv.link (hino : s.isDir inode = false) (area : ℕ) (ok : Bool) :
    LinkInv (s.link inode dir name area ok) root := by
  unfold Names.link Names.addLink
  refine LinkInv.congr ?_ (destroy_entries _ _) (destroy_isDir _ _) (destroy_nlink _ _)
  split_ifs with hfail
  · refine h.congr rfl rfl (funext fun j => ?_)
    simp [decLink, incLink]
  · refine h.add_nondir (e := ⟨dir, name, inode⟩) hadd.1 hadd.2.2 hino rfl rfl fun j => ?_
    exact incLink_nlink s inode j

end

/-- What `rdfs_unlink` does to the entries and the link counts. -/
theorem unlink_cases {o : UnlinkOutcome} {r : Bool × Names}
    (hr : s.unlink dir name inode o = some r) : r.2.isDir = s.isDir ∧
      ((r.1 = true ∧ r.2.entries = (s.deleteEntry dir name).entries ∧
          r.2.nlink = (s.decLink inode).nlink) ∨
        (r.1 = false ∧ r.2.entries = s.entries ∧ r.2.nlink = s.nlink)) := by
  obtain ⟨found, -, rfl⟩ := map_eq_some_iff.1 hr
  split_ifs with hdel
  · exact ⟨by simp [decLink, deleteEntry], Or.inl ⟨rfl, by simp [decLink, deleteEntry],
      by simp [decLink, deleteEntry]⟩⟩
  · exact ⟨by simp, Or.inr ⟨rfl, by simp, by simp⟩⟩

theorem LinkInv.unlink (h : LinkInv s root) (hmem : ⟨dir, name, inode⟩ ∈ s.entries)
    (hino : s.isDir inode = false) {o : UnlinkOutcome} {r : Bool × Names}
    (hr : s.unlink dir name inode o = some r) : LinkInv r.2 root := by
  obtain ⟨hd, ⟨-, he, hn⟩ | ⟨-, he, hn⟩⟩ := unlink_cases hr
  · refine h.remove_nondir hino ((h.delete_eq hmem).trans (by rw [he])) hd fun j => ?_
    rw [hn, decLink_nlink]
  · exact h.congr he hd hn

theorem makeEmpty_links (s : Names) (i : ℕ) (o : MkdirOutcome) :
    (s.makeEmpty i o).2.entries = s.entries ∧ (s.makeEmpty i o).2.isDir = s.isDir ∧
      (s.makeEmpty i o).2.nlink = s.nlink := by
  simp only [makeEmpty]
  split_ifs <;> simp

theorem LinkInv.mkdir (h : LinkInv s root) (hadd : s.CanAdd root dir name) {o : MkdirOutcome}
    (hf : ∀ i ∈ o.newInode, s.Fresh root i) : LinkInv (s.mkdir dir name o) root := by
  cases hi : o.newInode with
  | none =>
    simp only [Names.mkdir, hi]
    refine h.congr (by simp [decLink, incLink]) (by simp [decLink, incLink]) ?_
    rw [destroy_nlink]
    exact funext fun j => by simp [decLink, incLink]
  | some i =>
    have hne := (hf i hi).ne_of_live hadd.2.1
    simp only [Names.mkdir, hi]
    obtain ⟨he, hd, hn⟩ := makeEmpty_links
      ((((s.incLink dir).newInode i true).incLink i).establish dir o.area) i o
    generalize ((((s.incLink dir).newInode i true).incLink i).establish dir o.area).makeEmpty i o =
      r at he hd hn
    have hnl : ∀ j, r.2.nlink j = if i = j then 2 else s.nlink j + if dir = j then 1 else 0 := by
      intro j
      rw [hn, establish_nlink, incLink_nlink, newInode_nlink, incLink_nlink]
      split_ifs <;> omega
    have hmid : LinkInv { r.2 with nlink := Function.update s.nlink i 0 } root := by
      refine h.new_inode (hf i hi).1 (hf i hi).2 he (fun j hj => ?_) (fun j hj => ?_) ?_
      · rw [hd]
        exact update_of_ne hj.symm _ _
      · exact update_of_ne hj.symm _ _
      · exact update_self _ _ _
    have hfail : LinkInv ((((r.2.decLink i).decLink i).decLink dir).destroy dir) root := by
      refine hmid.congr (by simp [decLink]) (by simp [decLink]) ?_
      rw [destroy_nlink]
      refine funext fun j => ?_
      simp only [decLink_nlink, hnl, update_apply]
      split_ifs <;> omega
    unfold addLink
    split_ifs with h1 h2
    · exact hfail
    · exact hfail
    · refine LinkInv.congr ?_ (destroy_entries _ _) (destroy_isDir _ _) (destroy_nlink _ _)
      refine hmid.add_dir (e := ⟨dir, name, i⟩) ?_ ?_ ?_ ?_ (hf i hi).1 hne rfl rfl
        (fun j hj => ?_) ?_
      · simp [hd, newInode, incLink, hne.symm, hadd.1]
      · rintro ⟨e, hmem, heq⟩
        exact hadd.2.2 ⟨e, he ▸ hmem, heq⟩
      · simp [hd, newInode, incLink]
      · exact named_eq_zero.2 fun e hmem => ((hf i hi).2 e (he ▸ hmem)).2
      · simp [hnl, hj, hj.symm]
      · have hsub : r.2.entries.countP (fun e => e.dir = i ∧ r.2.isDir e.ino = true) = 0 :=
          countP_eq_zero.2 fun e hmem hc => ((hf i hi).2 e (he ▸ hmem)).1 hc.1
        simp [hnl, subdirs, hsub]

/-- What `rdfs_rmdir` does to the entries and the link counts. -/
theorem rmdir_cases {dir inode area : ℕ} {empty : Bool} {o : UnlinkOutcome}
    (hr : s.rmdir dir name inode area empty o = some s') : s'.isDir = s.isDir ∧
      ((s'.entries = (s.deleteEntry dir name).entries ∧
          s'.nlink = (((s.decLink inode).decLink inode).decLink dir).nlink) ∨
        (s'.entries = s.entries ∧ s'.nlink = s.nlink)) := by
  obtain ⟨isEmpty, -, hr⟩ := bind_eq_some_iff.1 hr
  split_ifs at hr
  · obtain ⟨r, hu, rfl⟩ := map_eq_some_iff.1 hr
    obtain ⟨hd, ⟨hok, he, hn⟩ | ⟨hok, he, hn⟩⟩ := unlink_cases hu
    · refine ⟨?_, Or.inl ⟨?_, ?_⟩⟩
      · simp [hok, hd, decLink]
      · simp [hok, he, decLink, deleteEntry]
      · simp [hok, hn, decLink]
    · exact ⟨by simp [hok, hd], Or.inr ⟨by simp [hok, he], by simp [hok, hn]⟩⟩
  · obtain rfl := some_inj.1 hr
    exact ⟨by simp, Or.inr ⟨by simp, by simp⟩⟩

theorem LinkInv.rmdir (h : LinkInv s root) {dir inode area : ℕ}
    (hmem : ⟨dir, name, inode⟩ ∈ s.entries) (hino : s.isDir inode = true) {empty : Bool}
    {o : UnlinkOutcome} (hr : s.rmdir dir name inode area empty o = some s') : LinkInv s' root := by
  obtain ⟨hd, ⟨he, hn⟩ | ⟨he, hn⟩⟩ := rmdir_cases hr
  · refine h.remove_dir hino ((h.delete_eq hmem).trans (by rw [he])) hd fun j hj => ?_
    simp only [hn, decLink_nlink, if_neg hj]
    omega
  · exact h.congr he hd hn

/-- An entry that moves to another name. -/
theorem LinkInv.move (h : LinkInv s root) {e₀ : Entry} (e₁ : Entry) {B : Multiset Entry}
    (he : s.entries = e₀ ::ₘ B) (hino : e₁.ino = e₀.ino) (hdir : s.isDir e₁.dir = true)
    (hne : e₁.ino ≠ e₁.dir) (hkey : ∀ e ∈ B, ¬(e.dir = e₁.dir ∧ e.name = e₁.name))
    (he' : s'.entries = e₁ ::ₘ B) (hd : s'.isDir = s.isDir)
    (hn : ∀ j, s'.nlink j = s.nlink j + if s.isDir e₀.ino = true then
      (if e₁.dir = j then 1 else 0) - (if e₀.dir = j then 1 else 0) else 0) : LinkInv s' root := by
  cases hk : s.isDir e₀.ino with
  | false =>
    have hmid : LinkInv { s with
        entries := B, nlink := fun j => s.nlink j - if e₀.ino = j then 1 else 0 } root :=
      h.remove_nondir hk he rfl fun j => rfl
    refine hmid.add_nondir hdir (fun ⟨e, hmem, hc⟩ => hkey e hmem hc) (hino ▸ hk) he' hd fun j => ?_
    simp [hn, hk, hino]
  | true =>
    have hmid : LinkInv { s with
        entries := B, nlink := fun j => s.nlink j - if e₀.dir = j then 1 else 0 } root :=
      h.remove_dir hk he rfl fun j _ => rfl
    have hmem : e₀ ∈ s.entries := he ▸ mem_cons_self _ _
    have hdead : B.countP (fun e => e.ino = e₀.ino) = 0 := by
      have := h.once e₀.ino hk
      rw [named, he, countP_cons, if_pos rfl] at this
      omega
    refine hmid.add_dir hdir (fun ⟨e, hmem, hc⟩ => hkey e hmem hc) (hino ▸ hk) (hino ▸ hdead) ?_ hne
      he' hd (fun j _ => ?_) ?_
    · rintro rfl
      exact named_eq_zero.1 h.root_named e₀ hmem hino.symm
    · rw [hn, if_pos hk]
      simp only
      omega
    · have hsub := h.dir e₀.ino hk (Or.inr ⟨e₀, hmem, rfl⟩)
      rw [subdirs, he, countP_cons] at hsub
      rw [hn, if_pos hk, if_neg (Ne.symm hne), hino, hsub]
      simp only [hk, and_true, subdirs]
      split_ifs <;> omega

/-- The state of `rdfs_rename` before it looks for the old entry a second time. -/
def renamed (s : Names) (newDir : ℕ) (newName : List UInt8) (oldInode : ℕ) : Option ℕ → Names
  | some n =>
    let t := s.setLink newDir newName oldInode
    (if s.isDir oldInode = true then t.decLink n else t).decLink n
  | none =>
    let t := { s with entries := ⟨newDir, newName, oldInode⟩ ::ₘ s.entries }
    if s.isDir oldInode = true then t.incLink newDir else t

theorem renamed_none_entries (s : Names) (newDir : ℕ) (newName : List UInt8) (oldInode : ℕ) :
    (s.renamed newDir newName oldInode none).entries =
      ⟨newDir, newName, oldInode⟩ ::ₘ s.entries := by
  unfold renamed
  split_ifs <;> rfl

theorem renamed_some_entries (s : Names) (newDir : ℕ) (newName : List UInt8) (oldInode n : ℕ) :
    (s.renamed newDir newName oldInode (some n)).entries =
      ⟨newDir, newName, oldInode⟩ ::ₘ (s.deleteEntry newDir newName).entries := by
  unfold renamed
  split_ifs <;> rfl

/-- Two states with the same entries and link counts. -/
def SameLinks (s t : Names) : Prop := t.entries = s.entries ∧ t.isDir = s.isDir ∧ t.nlink = s.nlink

theorem SameLinks.trans {s u : Names} (h : SameLinks s t) (h' : SameLinks t u) : SameLinks s u :=
  ⟨h'.1.trans h.1, h'.2.1.trans h.2.1, h'.2.2.trans h.2.2⟩

theorem sameLinks_establish (s : Names) (i area : ℕ) : SameLinks s (s.establish i area) :=
  ⟨rfl, rfl, rfl⟩

theorem sameLinks_destroy (s : Names) (i : ℕ) : SameLinks s (s.destroy i) :=
  ⟨destroy_entries s i, destroy_isDir s i, destroy_nlink s i⟩

theorem renameOut_links (t : Names) (oldDir oldInode : ℕ) (newInode : Option ℕ) :
    SameLinks t (t.renameOut oldDir oldInode newInode) := by
  unfold SameLinks
  cases hd : t.isDir oldInode <;> cases newInode <;> simp [renameOut, hd]

theorem renameEnd_links {o : RenameOutcome}
    (hr : t.renameEnd oldDir oldName newDir oldInode newInode o = some s') :
    s'.entries = (if o.delete = true then t.deleteEntry oldDir oldName else t).entries ∧
      s'.isDir = t.isDir ∧
        s'.nlink = (if t.isDir oldInode = true then t.decLink oldDir else t).nlink := by
  obtain ⟨found, -, hr⟩ := bind_eq_some_iff.1 hr
  cases found with
  | false => cases hr
  | true =>
    obtain rfl := some_inj.1 hr
    cases newInode <;> simp only [elim_none, elim_some] <;> split_ifs <;>
      simp [decLink, deleteEntry]

/-- What `rdfs_rename` does to the entries and the link counts when it gets to its end. -/
def RenamesTo (s s' : Names) (oldDir : ℕ) (oldName : List UInt8) (newDir : ℕ)
    (newName : List UInt8) (oldInode : ℕ) (newInode : Option ℕ) (delete : Bool) : Prop :=
  ∃ t, t = s.renamed newDir newName oldInode newInode ∧
    s'.entries = (if delete = true then t.deleteEntry oldDir oldName else t).entries ∧
      s'.isDir = s.isDir ∧
      s'.nlink = (if s.isDir oldInode = true then t.decLink oldDir else t).nlink

theorem RenamesTo.congr {s : Names} {delete : Bool} (hst : SameLinks s t)
    (h : RenamesTo t s' oldDir oldName newDir newName oldInode newInode delete) :
    RenamesTo s s' oldDir oldName newDir newName oldInode newInode delete := by
  obtain ⟨entries, isDir, nlink, c, v⟩ := s
  obtain ⟨entries', isDir', nlink', c', v'⟩ := t
  obtain ⟨rfl, rfl, rfl⟩ := hst
  obtain ⟨-, rfl, he, hd, hn⟩ := h
  refine ⟨_, rfl, he.trans ?_, hd, hn.trans ?_⟩
  · cases newInode <;> cases delete <;> cases hk : isDir' oldInode <;>
      simp [renamed, deleteEntry, setLink, decLink, incLink, hk]
  · cases newInode <;> cases hk : isDir' oldInode <;>
      simp [renamed, setLink, decLink, incLink, hk]

theorem renameNew_cases {o : RenameOutcome}
    (hr : s.renameNew oldDir oldName newDir newName oldInode newInode o = some s') :
    SameLinks s s' ∨ RenamesTo s s' oldDir oldName newDir newName oldInode newInode o.delete := by
  cases newInode with
  | none =>
    simp only [renameNew] at hr
    split at hr
    · obtain rfl := some_inj.1 hr
      exact Or.inl (((sameLinks_establish s _ _).trans (sameLinks_destroy _ _)).trans
        (renameOut_links _ _ _ _))
    · rename_i t ht
      obtain ⟨-, rfl⟩ : _ ∧ _ = t := by simpa [addLink] using ht
      obtain ⟨he, hd, hn⟩ := renameEnd_links hr
      refine Or.inr ⟨_, rfl, he.trans ?_, hd.trans ?_, hn.trans ?_⟩
      · cases hk : s.isDir oldInode <;> cases o.delete <;>
          simp [renamed, deleteEntry, incLink, hk]
      · cases hk : s.isDir oldInode <;> simp [incLink]
      · cases hk : s.isDir oldInode <;> simp [renamed, decLink, incLink, hk]
  | some n =>
    obtain ⟨isEmpty, -, hr⟩ := bind_eq_some_iff.1 hr
    split at hr
    · obtain rfl := some_inj.1 hr
      exact Or.inl ((sameLinks_establish s _ _).trans (renameOut_links _ _ _ _))
    obtain ⟨foundNew, -, hr⟩ := bind_eq_some_iff.1 hr
    split at hr
    · obtain rfl := some_inj.1 hr
      exact Or.inl ((((sameLinks_establish s _ _).trans (sameLinks_establish _ _ _)).trans
        (sameLinks_destroy _ _)).trans (renameOut_links _ _ _ _))
    obtain ⟨he, hd, hn⟩ := renameEnd_links hr
    refine Or.inr ⟨_, rfl, he.trans ?_, hd.trans ?_, hn.trans ?_⟩
    · cases hk : s.isDir oldInode <;> cases o.delete <;>
        simp [renamed, deleteEntry, setLink, decLink, hk]
    · cases hk : s.isDir oldInode <;> simp [decLink, setLink]
    · cases hk : s.isDir oldInode <;> simp [renamed, setLink, decLink, hk]

theorem rename_cases {o : RenameOutcome}
    (hr : s.rename oldDir oldName newDir newName oldInode newInode o = some s') : SameLinks s s' ∨
      RenamesTo s s' oldDir oldName newDir newName oldInode newInode o.delete := by
  obtain ⟨found, -, hr⟩ := bind_eq_some_iff.1 hr
  simp only at hr
  have hold := sameLinks_establish s oldDir o.oldDirArea
  split_ifs at hr
  · obtain rfl := some_inj.1 hr
    exact Or.inl (hold.trans (sameLinks_destroy _ _))
  · have hino := hold.trans (sameLinks_establish _ oldInode o.oldInodeArea)
    exact (renameNew_cases hr).imp hino.trans (RenamesTo.congr hino)
  · exact (renameNew_cases hr).imp hold.trans (RenamesTo.congr hold)

/-- What the VFS checks before it calls `rdfs_rename`. -/
structure CanRename (s : Names) (root oldDir : ℕ) (oldName : List UInt8) (newDir : ℕ)
    (newName : List UInt8) (oldInode : ℕ) (newInode : Option ℕ) : Prop where
  old : ⟨oldDir, oldName, oldInode⟩ ∈ s.entries
  target : ∀ n ∈ newInode, ⟨newDir, newName, n⟩ ∈ s.entries ∧ n ≠ oldInode ∧
    s.isDir n = s.isDir oldInode
  free : newInode = none → s.CanAdd root newDir newName
  ne_newDir : oldInode ≠ newDir

theorem LinkInv.rename (h : LinkInv s root) {o : RenameOutcome}
    (hadm : s.CanRename root oldDir oldName newDir newName oldInode newInode)
    (hdel : o.delete = true)
    (hr : s.rename oldDir oldName newDir newName oldInode newInode o = some s') :
    LinkInv s' root := by
  rcases rename_cases hr with ⟨he, hd, hn⟩ | ⟨t, rfl, he, hd, hn⟩
  · exact h.congr he hd hn
  rw [if_pos hdel] at he
  cases newInode with
  | none =>
    obtain ⟨hdir, -, hfree⟩ := hadm.free rfl
    refine h.move ⟨newDir, newName, oldInode⟩ (h.delete_eq hadm.old) rfl hdir
      hadm.ne_newDir ?_ ?_ hd fun j => ?_
    · exact fun e hmem hc => hfree ⟨e, mem_of_mem_filter hmem, hc⟩
    · rw [he]
      exact deleteEntry_entries_cons (renamed_none_entries _ _ _ _) fun hc =>
        hfree ⟨_, hadm.old, hc.1.symm, hc.2.symm⟩
    · rw [hn]
      cases hk : s.isDir oldInode
      · simp [renamed, hk]
      · simp only [renamed, hk, if_true, decLink_nlink, incLink_nlink]
        omega
  | some n =>
    obtain ⟨hmem, hne, hk⟩ := hadm.target n rfl
    have hkey : ¬(newDir = oldDir ∧ newName = oldName) := by
      rintro ⟨rfl, rfl⟩
      have hn := hmem
      rw [h.delete_eq hadm.old, mem_cons] at hn
      rcases hn with heq | hn
      · exact hne (congrArg Entry.ino heq)
      · exact (mem_filter.1 hn).2 ⟨rfl, rfl⟩
    obtain ⟨mid, hmid⟩ : ∃ mid : Names, mid = { s with
        entries := (s.deleteEntry newDir newName).entries
        nlink := fun j => (s.renamed newDir newName oldInode (some n)).nlink j -
          if s.isDir oldInode = true ∧ newDir = j then 1 else 0 } := ⟨_, rfl⟩
    have hinv : LinkInv mid root := by
      rw [hmid]
      cases hk' : s.isDir oldInode
      · refine h.remove_nondir (hk.trans hk') (h.delete_eq hmem) rfl fun j => ?_
        simp [renamed, hk', decLink_nlink, setLink]
      · refine h.remove_dir (hk.trans hk') (h.delete_eq hmem) rfl fun j hj => ?_
        simp [renamed, hk', decLink_nlink, setLink, hj]
    have hold : ⟨oldDir, oldName, oldInode⟩ ∈ mid.entries := by
      rw [hmid]
      exact mem_filter.2 ⟨hadm.old, fun hc => hkey ⟨hc.1.symm, hc.2.symm⟩⟩
    refine hinv.move ⟨newDir, newName, oldInode⟩ (hinv.delete_eq hold) rfl ?_
      hadm.ne_newDir ?_ ?_ (hd.trans ?_) fun j => ?_
    · rw [hmid]
      exact h.dirs ⟨newDir, newName, n⟩ hmem
    · rw [hmid]
      exact fun e he => (mem_filter.1 (mem_of_mem_filter he)).2
    · rw [he]
      refine deleteEntry_entries_cons ?_ hkey
      rw [renamed_some_entries, hmid]
    · rw [hmid]
    · rw [hn, hmid]
      cases hk' : s.isDir oldInode
      · simp
      · simp only [if_true, true_and, decLink_nlink]
        omega

end operations

end Names

/-- What the VFS checks before it calls an operation, and that a new inode is one that is not in
use. -/
def NsOp.Admitted (s : Names) (root : ℕ) : NsOp → Prop
  | lookup _ _ _ _ | readdir _ _ _ => True
  | create dir name o => s.CanAdd root dir name ∧ ∀ i ∈ o.newInode, s.Fresh root i
  | symlink dir name o => s.CanAdd root dir name ∧ ∀ i ∈ o.newInode, s.Fresh root i
  | mkdir dir name o => s.CanAdd root dir name ∧ ∀ i ∈ o.newInode, s.Fresh root i
  | link inode dir name _ _ => s.CanAdd root dir name ∧ s.isDir inode = false
  | unlink dir name inode _ => ⟨dir, name, inode⟩ ∈ s.entries ∧ s.isDir inode = false
  | rmdir dir name inode _ _ _ => ⟨dir, name, inode⟩ ∈ s.entries ∧ s.isDir inode = true
  | rename oldDir oldName newDir newName oldInode newInode _ =>
    s.CanRename root oldDir oldName newDir newName oldInode newInode

/-- The deletion that `rdfs_rename` does not check succeeds. -/
def NsOp.DeletesOld : NsOp → Prop
  | rename _ _ _ _ _ _ o => o.delete = true
  | _ => True

/-- Runs of operations that the VFS admits and that meet `C`, from a file system with an empty
root directory. -/
inductive NamesRun (C : NsOp → Prop) (root : ℕ) : Names → Prop
  | init {s : Names} (he : s.entries = 0) (hd : ∀ i, s.isDir i = true ↔ i = root)
      (hn : ∀ i, s.nlink i = if i = root then 2 else 0) : NamesRun C root s
  | step {s s' : Names} (h : NamesRun C root s) (op : NsOp) (hadm : op.Admitted s root) (hc : C op)
      (hr : op.run s = some s') : NamesRun C root s'

namespace NamesRun

variable {root : ℕ} {s : Names}

theorem linkInv_init (he : s.entries = 0) (hd : ∀ i, s.isDir i = true ↔ i = root)
    (hn : ∀ i, s.nlink i = if i = root then 2 else 0) : s.LinkInv root := by
  have hnamed : ∀ i, s.named i = 0 := fun i => by rw [Names.named, he, countP_zero]
  refine ⟨⟨fun i hi => ?_, fun d hdd _ => ?_⟩, ?_, ?_, fun d _ => ?_, (hd root).2 rfl, hnamed root⟩
  · have : i ≠ root := fun heq => by simp [(hd i).2 heq] at hi
    rw [hn, if_neg this, hnamed]
    rfl
  · rw [hn, if_pos ((hd d).1 hdd), Names.subdirs, he, countP_zero]
    rfl
  · rw [he]
    exact nodup_zero
  · rw [he]
    exact fun e hmem => absurd hmem (notMem_zero e)
  · rw [hnamed]
    exact Nat.zero_le 1

theorem linkInv (h : NamesRun NsOp.DeletesOld root s) : s.LinkInv root := by
  induction h with
  | init he hd hn => exact linkInv_init he hd hn
  | @step s s' _ op hadm hc hr ih =>
    cases op with
    | lookup dir name area find =>
      obtain ⟨found, -, rfl⟩ := map_eq_some_iff.1 hr
      exact ih.congr (by simp) (by simp) (by simp)
    | readdir inode area atEnd =>
      simp only [NsOp.run, Names.readdir] at hr
      split at hr
      · cases hr
      · obtain rfl := some_inj.1 hr
        exact ih.congr (by simp) (by simp) (by simp)
    | create dir name o =>
      obtain rfl := some_inj.1 hr
      exact ih.create hadm.1 hadm.2
    | symlink dir name o => exact ih.symlink hadm.1 hadm.2 hr
    | link inode dir name area ok =>
      obtain rfl := some_inj.1 hr
      exact ih.link hadm.1 hadm.2 area ok
    | unlink dir name inode o =>
      obtain ⟨r, hu, rfl⟩ := map_eq_some_iff.1 hr
      exact ih.unlink hadm.1 hadm.2 hu
    | mkdir dir name o =>
      obtain rfl := some_inj.1 hr
      exact ih.mkdir hadm.1 hadm.2
    | rmdir dir name inode area empty o => exact ih.rmdir hadm.1 hadm.2 hr
    | rename oldDir oldName newDir newName oldInode newInode o => exact ih.rename hadm hc hr

/-- The link counts after any run in which the deletion in `rdfs_rename` succeeds. -/
theorem links_spec (h : NamesRun NsOp.DeletesOld root s) : s.LinksOk root := h.linkInv.toLinksOk

end NamesRun

/-- A file system with an empty root directory. -/
def someNames : Names where
  entries := 0
  isDir i := i = 0
  nlink i := if i = 0 then 2 else 0
  mappingCount _ := 0
  virtAddr _ := 0

/-- A file `a` is created in it. -/
def createA : NsOp := .create 0 [97] ⟨some 1, 4096, true⟩

/-- The file is renamed to `b`. -/
def renameA (delete : Bool) : NsOp :=
  .rename 0 [97] 0 [98] 1 none ⟨4096, true, 0, 0, true, 4096, true, true, true, delete⟩

theorem namesRun_renameA (C : NsOp → Prop) (delete : Bool) (hcreate : C createA)
    (hrename : C (renameA delete)) (hs : createA.run someNames = some s)
    (hs' : (renameA delete).run s = some s') : NamesRun C 0 s' := by
  have hinit : NamesRun C 0 someNames := .init rfl (fun i => by simp [someNames]) fun i => rfl
  have hfresh : ∀ i ∈ some 1, someNames.Fresh 0 i := by simp [Names.Fresh, someNames]
  have hadd : someNames.CanAdd 0 0 [97] := by simp [Names.CanAdd, Names.Live, Names.Has, someNames]
  obtain rfl := some_inj.1 hs
  refine (hinit.step createA ⟨hadd, hfresh⟩ hcreate hs).step _ ?_ hrename hs'
  exact ⟨by decide, by simp, fun _ => ⟨by decide, Or.inl rfl, by decide⟩, by decide⟩

theorem NamesRun.links_spec_renameA : ∃ s, NamesRun NsOp.DeletesOld 0 s ∧
    s.entries = {⟨0, [98], 1⟩} ∧ s.LinksOk 0 :=
  have h := namesRun_renameA NsOp.DeletesOld true trivial rfl rfl rfl
  ⟨_, h, by decide, h.links_spec⟩

/-- With both names in the directory, the link count of the file is still 1. -/
theorem rename_keeps_old_entry : ∃ s, NamesRun (fun _ => True) 0 s ∧ ¬s.LinksOk 0 := by
  have h := namesRun_renameA (fun _ => True) false trivial trivial rfl rfl
  exact ⟨_, h, fun hok => absurd (hok.nondir 1 (by decide)) (by decide)⟩

end Rdfs
