import Rdfs.Directory
import Rdfs.Namei

/-!
# What the makers of entries return

`rdfs_create`, `rdfs_mkdir` and `rdfs_symlink` make an inode and an entry for it, in several steps
that may fail, and return one number. Here they are with what their steps return, on the states of
`Names` (`rdfsCreate_snd`, `rdfsMkdir_snd`, `rdfsSymlink_eq`).

A call `Reports` what happened if it returns 0 exactly when the entry is there and its inode has a
link, and otherwise the error of the step that failed, with the name not in use. `rdfs_mkdir` does
so for every name that is not in use. `rdfs_symlink` follows a null pointer when there is no area
for the new inode, and `rdfs_create` returns what `rdfs_destroy_mapping` returns, whatever the steps
before it did (`newEntry_reports_iff`).
-/

namespace Rdfs

open Function Option

/-! ## Steps -/

/-- An error as the kernel's functions return it. -/
abbrev Errno := { err : ℤ // err < 0 }

/-- The return value of a step. -/
def errCode : Option Errno → ℤ
  | none => 0
  | some err => err

theorem errCode_eq_zero {code : Option Errno} : errCode code = 0 ↔ code = none := by
  rcases code with _ | ⟨err, herr⟩
  · simp [errCode]
  · simp only [errCode, reduceCtorEq, iff_false]
    omega

theorem errCode_le (code : Option Errno) : errCode code ≤ 0 := by
  rcases code with _ | ⟨err, herr⟩
  · exact Int.le_refl 0
  · exact Int.le_of_lt herr

/-- The steps of `rdfs_create` : `newInode` is what `rdfs_new_inode` returns, `area` what `nvmalloc`
does, and `addLink` what `rdfs_add_link` returns for a new name. -/
structure CreateSteps where
  newInode : Except Errno ℕ
  area : ℕ
  addLink : Option Errno
  unnvmap : Option Errno

/-- The steps of `rdfs_symlink`, with the length of the target and `s_blocksize`. -/
structure SymlinkSteps where
  length : ℕ
  blocksize : ℕ
  newInode : Except Errno ℕ
  allocBlocks : Option Errno
  inodeArea : ℕ
  area : ℕ
  addLink : Option Errno

/-- The steps of `rdfs_mkdir`, with those of `rdfs_make_empty`. -/
structure MkdirSteps where
  newInode : Except Errno ℕ
  area : ℕ
  inodeArea : ℕ
  nvmap : Option Errno
  allocBlocks : Option Errno
  unnvmap : Option Errno
  addLink : Option Errno

def CreateSteps.outcome (o : CreateSteps) : CreateOutcome :=
  ⟨o.newInode.toOption, o.area, o.addLink.isNone⟩

def SymlinkSteps.outcome (o : SymlinkSteps) : SymlinkOutcome :=
  ⟨o.newInode.toOption, o.allocBlocks.isNone, o.inodeArea, o.area, o.addLink.isNone⟩

def MkdirSteps.outcome (o : MkdirSteps) : MkdirOutcome :=
  ⟨o.newInode.toOption, o.area, o.inodeArea, o.nvmap.isNone, o.allocBlocks.isNone,
    o.unnvmap.isNone, o.addLink.isNone⟩

/-- `ENAMETOOLONG`. -/
def enametoolong : ℤ := 36

namespace Names

/-- What `rdfs_add_link` returns. -/
def addLinkReturn (s : Names) (code : Option Errno) (dir : ℕ) (name : List UInt8) : ℤ :=
  if s.virtAddr dir = 0 then -enomem else if s.Has dir name then -eexist else errCode code

/-- What `rdfs_destroy_mapping` returns. -/
def destroyReturn (s : Names) (i : ℕ) (unnvmap : Option Errno) : ℤ :=
  if s.virtAddr i = 0 then 0 else if 0 < s.mappingCount i - 1 then 0 else errCode unnvmap

/-- What `rdfs_make_empty` returns for a new inode : -1 from `rdfs_establish_mapping` if there is no
area, and what `rdfs_destroy_mapping` returns at its end. -/
def makeEmptyReturn (s : Names) (i : ℕ) (o : MkdirSteps) : ℤ :=
  let s := s.establish i o.inodeArea
  if s.virtAddr i = 0 then -1
  else if errCode o.nvmap ≠ 0 then errCode o.nvmap
  else if errCode o.allocBlocks ≠ 0 then errCode o.allocBlocks
  else s.destroyReturn i o.unnvmap

/-- `rdfs_create`. The result of `rdfs_add_nondir` is overwritten. -/
def rdfsCreate (s : Names) (dir : ℕ) (name : List UInt8) (o : CreateSteps) : ℤ × Names :=
  match o.newInode with
  | .error err => (err, s)
  | .ok i =>
    let s := (s.newInode i false).establish dir o.area
    let s := s.addNondir o.addLink.isNone dir name i
    (s.destroyReturn dir o.unnvmap, s.destroy dir)

/-- `rdfs_symlink`, `none` if `rdfs_page_symlink` follows a null pointer. -/
def rdfsSymlink (s : Names) (dir : ℕ) (name : List UInt8) (o : SymlinkSteps) :
    Option (ℤ × Names) :=
  if o.blocksize < o.length + 1 then some (-enametoolong, s)
  else
    match o.newInode with
    | .error err => some (err, s)
    | .ok i =>
      let s := s.newInode i false
      if errCode o.allocBlocks ≠ 0 then some (errCode o.allocBlocks, s.decLink i)
      else
        let s := s.establish i o.inodeArea
        if s.virtAddr i = 0 then none
        else
          let s := (s.destroy i).establish dir o.area
          some (s.addLinkReturn o.addLink dir name,
            (s.addNondir o.addLink.isNone dir name i).destroy dir)

/-- The labels `out_fail` and `out_dir` of `rdfs_mkdir`. -/
def mkdirFail (s : Names) (dir i : ℕ) : Names :=
  (((s.decLink i).decLink i).decLink dir).destroy dir

/-- `rdfs_mkdir`. -/
def rdfsMkdir (s : Names) (dir : ℕ) (name : List UInt8) (o : MkdirSteps) : ℤ × Names :=
  let s := s.incLink dir
  match o.newInode with
  | .error err => (err, (s.decLink dir).destroy dir)
  | .ok i =>
    let s := ((s.newInode i true).incLink i).establish dir o.area
    let made := (s.makeEmpty i o.outcome).2
    if s.makeEmptyReturn i o ≠ 0 then (s.makeEmptyReturn i o, made.mkdirFail dir i)
    else
      (made.addLinkReturn o.addLink dir name,
        ((made.addLink o.addLink.isNone dir name i).map fun s => s.destroy dir).getD
          (made.mkdirFail dir i))

end Names

/-! ## What a call is to report -/

/-- A call that has to do with the inode `new` and in which the step `failed` failed returns 0 if
and only if the name is bound to the inode and that has a link, and otherwise the error, with the
name not in use. -/
def Reports (dir : ℕ) (name : List UInt8) (new : Except Errno ℕ) (failed : Option ℤ)
    (r : ℤ × Names) : Prop :=
  (r.1 = 0 ↔ ∃ i, new = .ok i ∧ ⟨dir, name, i⟩ ∈ r.2.entries ∧ 0 < r.2.nlink i) ∧
    (r.1 ≠ 0 → r.1 < 0 ∧ failed = some r.1 ∧ ¬r.2.Has dir name)

/-- The error in a return value. -/
def failure (err : ℤ) : Option ℤ := if err = 0 then none else some err

section steps

variable (s : Names) (dir : ℕ) (name : List UInt8)

/-- The address of a directory that gets mapped. -/
def dirAddr (area : ℕ) : ℕ := if s.virtAddr dir = 0 then area else s.virtAddr dir

/-- What `rdfs_add_link` returns after `rdfs_establish_mapping`. -/
def linkCode (area : ℕ) (addLink : Option Errno) : ℤ :=
  if dirAddr s dir area = 0 then -enomem
  else if s.Has dir name then -eexist
  else errCode addLink

/-- What `rdfs_destroy_mapping` returns after `rdfs_establish_mapping`. -/
def unmapCode (area : ℕ) (unnvmap : Option Errno) : ℤ :=
  if dirAddr s dir area = 0 ∨ 0 < s.mappingCount dir then 0 else errCode unnvmap

/-- The step of `rdfs_create` that fails. -/
def CreateSteps.failed (o : CreateSteps) : Option ℤ :=
  match o.newInode with
  | .error err => some err
  | .ok _ => failure (linkCode s dir name o.area o.addLink)

/-- The step of `rdfs_symlink` that fails. -/
def SymlinkSteps.failed (o : SymlinkSteps) : Option ℤ :=
  if o.blocksize < o.length + 1 then some (-enametoolong)
  else
    match o.newInode with
    | .error err => some err
    | .ok _ => (failure (errCode o.allocBlocks)).or
      (failure (linkCode s dir name o.area o.addLink))

/-- The step of `rdfs_mkdir` that fails. -/
def MkdirSteps.failed (o : MkdirSteps) : Option ℤ :=
  match o.newInode with
  | .error err => some err
  | .ok _ =>
    (if o.inodeArea = 0 then some (-1) else none).or
      ((failure (errCode o.nvmap)).or ((failure (errCode o.allocBlocks)).or
        ((failure (errCode o.unnvmap)).or (failure (linkCode s dir name o.area o.addLink)))))

end steps

/-! ## The states -/

theorem Names.rdfsCreate_snd (s : Names) (dir : ℕ) (name : List UInt8) (o : CreateSteps) :
    (s.rdfsCreate dir name o).2 = s.create dir name o.outcome := by
  rcases o with ⟨err | i, area, addLink, unnvmap⟩ <;> rfl

/-- With a target that is short enough, the states are those of `Names.symlink`. -/
theorem Names.rdfsSymlink_eq (s : Names) (dir : ℕ) (name : List UInt8) (o : SymlinkSteps)
    (hlen : o.length + 1 ≤ o.blocksize) :
    (s.rdfsSymlink dir name o).map Prod.snd = s.symlink dir name o.outcome := by
  rw [rdfsSymlink, if_neg (by omega)]
  rcases o with ⟨length, blocksize, err | i, _ | alloc, inodeArea, area, addLink⟩
  · rfl
  · rfl
  · change _ = s.symlink dir name ⟨some i, true, inodeArea, area, addLink.isNone⟩
    simp only [symlink]
    by_cases haddr : ((s.newInode i false).establish i inodeArea).virtAddr i = 0
    · rw [if_pos haddr, if_pos haddr]
      rfl
    · rw [if_neg haddr, if_neg haddr]
      rfl
  · have hne : (alloc : ℤ) ≠ 0 := Int.ne_of_lt alloc.2
    change _ = s.symlink dir name ⟨some i, false, inodeArea, area, addLink.isNone⟩
    simp [symlink, errCode, hne]

section establish

variable {s : Names} {i : ℕ}

@[simp] theorem Names.establish_virtAddr (s : Names) (i area : ℕ) :
    (s.establish i area).virtAddr i = dirAddr s i area := update_self ..

theorem Names.establish_virtAddr_of_ne {j : ℕ} (h : j ≠ i) (area : ℕ) :
    (s.establish i area).virtAddr j = s.virtAddr j := update_of_ne h ..

/-- A new inode is mapped by `rdfs_make_empty` alone. -/
theorem Names.destroyReturn_establish (hmap : s.mappingCount i = 0) (area : ℕ)
    (unnvmap : Option Errno) (haddr : dirAddr s i area ≠ 0) :
    (s.establish i area).destroyReturn i unnvmap = errCode unnvmap := by
  have hcount : (s.establish i area).mappingCount i = 1 := by simp [establish, hmap]
  rw [destroyReturn, establish_virtAddr, if_neg haddr, hcount, if_neg (by decide)]

theorem Names.makeEmptyReturn_eq_zero (hmap : s.mappingCount i = 0) (o : MkdirSteps) :
    s.makeEmptyReturn i o = 0 ↔ (s.makeEmpty i o.outcome).1 = true := by
  rw [makeEmptyReturn, makeEmpty, MkdirSteps.outcome]
  simp only [establish_virtAddr]
  by_cases haddr : dirAddr s i o.inodeArea = 0
  · simp [haddr]
  rw [destroyReturn_establish hmap _ _ haddr]
  simp only [haddr, ne_eq, errCode_eq_zero]
  rcases o.nvmap with _ | e
  · rcases o.allocBlocks with _ | e
    · simp [errCode_eq_zero]
    · simpa [errCode] using Int.ne_of_lt e.2
  · simpa [errCode] using Int.ne_of_lt e.2

end establish

theorem Names.rdfsMkdir_snd (s : Names) (dir : ℕ) (name : List UInt8) (o : MkdirSteps)
    (hdir : ∀ i, o.newInode = .ok i → i ≠ dir) :
    (s.rdfsMkdir dir name o).2 = s.mkdir dir name o.outcome := by
  rcases hnew : o.newInode with err | i
  · simp [rdfsMkdir, mkdir, MkdirSteps.outcome, hnew, Except.toOption]
  · have hne := hdir i hnew
    simp only [rdfsMkdir, mkdir, hnew]
    have hout : o.outcome.newInode = some i := by simp [MkdirSteps.outcome, hnew, Except.toOption]
    have harea : o.outcome.area = o.area := rfl
    simp only [hout, harea]
    generalize hs : (((s.incLink dir).newInode i true).incLink i).establish dir o.area = t
    have hmap : t.mappingCount i = 0 := by
      simp [← hs, establish, incLink, newInode, hne]
    have hret := makeEmptyReturn_eq_zero hmap o
    by_cases hzero : t.makeEmptyReturn i o = 0
    · rw [if_neg (not_not_intro hzero), if_neg (by rw [hret.mp hzero]; decide)]
      rfl
    · rw [if_pos hzero, if_pos (by rw [← Bool.not_eq_true]; exact fun h => hzero (hret.mpr h))]
      rfl

/-! ## When a call reports what happened -/

theorem failure_eq_some {err : ℤ} (h : err ≠ 0) : failure err = some err := if_neg h

section reports

variable {dir : ℕ} {name : List UInt8} {new : Except Errno ℕ} {failed : Option ℤ} {r : ℤ × Names}

/-- What a call has to return that made an entry. -/
theorem reports_iff_of_linked
    (h : ∃ i, new = .ok i ∧ ⟨dir, name, i⟩ ∈ r.2.entries ∧ 0 < r.2.nlink i) :
    Reports dir name new failed r ↔ r.1 = 0 :=
  ⟨fun hr => hr.1.mpr h, fun hz => ⟨iff_of_true hz h, fun hne => absurd hz hne⟩⟩

/-- What a call has to return that made none. -/
theorem reports_iff_of_unlinked
    (h : ¬∃ i, new = .ok i ∧ ⟨dir, name, i⟩ ∈ r.2.entries ∧ 0 < r.2.nlink i) :
    Reports dir name new failed r ↔ r.1 < 0 ∧ failed = some r.1 ∧ ¬r.2.Has dir name := by
  constructor
  · intro hr
    exact hr.2 fun hz => h (hr.1.mp hz)
  · rintro ⟨hneg, hfailed, hnot⟩
    exact ⟨iff_of_false (by omega) h, fun _ => ⟨hneg, hfailed, hnot⟩⟩

end reports

section link

variable {s t : Names} {dir : ℕ} {name : List UInt8}

theorem Names.addLinkReturn_eq {area : ℕ} (hentries : t.entries = s.entries)
    (haddr : t.virtAddr dir = dirAddr s dir area) (code : Option Errno) :
    t.addLinkReturn code dir name = linkCode s dir name area code := by
  unfold addLinkReturn linkCode
  rw [haddr]
  simp only [has_congr hentries]

/-- `rdfs_add_link` returns 0 and adds the entry, or an error and adds none. -/
theorem Names.addLink_cases (t : Names) (code : Option Errno) (dir : ℕ) (name : List UInt8)
    (i : ℕ) : (t.addLinkReturn code dir name = 0 ∧ ¬t.Has dir name ∧
      t.addLink code.isNone dir name i = some { t with entries := ⟨dir, name, i⟩ ::ₘ t.entries }) ∨
    (t.addLinkReturn code dir name < 0 ∧ t.addLink code.isNone dir name i = none) := by
  unfold addLinkReturn addLink
  by_cases haddr : t.virtAddr dir = 0
  · exact Or.inr ⟨by simp [haddr, enomem], by simp [haddr]⟩
  by_cases hhas : t.Has dir name
  · exact Or.inr ⟨by simp [haddr, hhas, eexist], by simp [hhas]⟩
  rcases code with _ | ⟨err, herr⟩
  · exact Or.inl ⟨by simp [haddr, hhas, errCode], hhas, by simp [haddr, hhas]⟩
  · exact Or.inr ⟨by simpa [haddr, hhas, errCode] using herr, by simp⟩

/-- `rdfs_add_nondir` leaves the mapping counts and the addresses alone. -/
theorem Names.addNondir_mapping (t : Names) (ok : Bool) (dir : ℕ) (name : List UInt8) (i : ℕ) :
    (t.addNondir ok dir name i).virtAddr = t.virtAddr ∧
      (t.addNondir ok dir name i).mappingCount = t.mappingCount := by
  unfold addNondir addLink
  split <;> exact ⟨rfl, rfl⟩

end link

section calls

variable {s t : Names} {dir i : ℕ} {name : List UInt8}

/-- A call that returns an error and leaves the entries as they are. -/
theorem reports_iff_of_error {new : Except Errno ℕ} {failed : Option ℤ} {r : ℤ × Names}
    (hneg : r.1 < 0) (hentries : r.2.entries = s.entries) (hfailed : failed = some r.1) :
    Reports dir name new failed r ↔ ¬s.Has dir name := by
  rw [← Names.has_congr hentries dir name]
  constructor
  · exact fun hr => (hr.2 (Int.ne_of_lt hneg)).2.2
  · intro hnot
    refine (reports_iff_of_unlinked ?_).mpr ⟨hneg, hfailed, hnot⟩
    rintro ⟨i, -, hmem, -⟩
    exact hnot ⟨_, hmem, rfl, rfl⟩

/-- What is to be returned after `rdfs_add_nondir` for a new inode. -/
theorem reports_addNondir_iff {area : ℕ} (hentries : t.entries = s.entries)
    (haddr : t.virtAddr dir = dirAddr s dir area) (hlinks : t.nlink i = 1)
    (code : Option Errno) (ret : ℤ) :
    Reports dir name (.ok i) (failure (linkCode s dir name area code))
        (ret, (t.addNondir code.isNone dir name i).destroy dir) ↔
      ¬s.Has dir name ∧ ret = linkCode s dir name area code := by
  have hcode : t.addLinkReturn code dir name = linkCode s dir name area code :=
    Names.addLinkReturn_eq hentries haddr code
  rcases t.addLink_cases code dir name i with ⟨hzero, hnot, hadd⟩ | ⟨hneg, hadd⟩
  · rw [hcode] at hzero
    rw [Names.addNondir, hadd, getD_some,
      reports_iff_of_linked ⟨i, rfl, by simp, by simp [hlinks]⟩, hzero]
    exact (and_iff_right fun h => hnot ((Names.has_congr hentries _ _).mpr h)).symm
  · rw [hcode] at hneg
    have hhas : ((t.decLink i).destroy dir).Has dir name ↔ s.Has dir name :=
      Names.has_congr (by rw [Names.destroy_entries]; exact hentries) dir name
    rw [Names.addNondir, hadd, getD_none, reports_iff_of_unlinked (by simp [Names.decLink, hlinks]),
      failure_eq_some (Int.ne_of_lt hneg), hhas, some.injEq]
    constructor
    · rintro ⟨-, heq, hnot⟩
      exact ⟨hnot, heq.symm⟩
    · rintro ⟨hnot, heq⟩
      exact ⟨heq ▸ hneg, heq.symm, hnot⟩

/-- `rdfs_create` reports what happened exactly if the name was not in use, and
`rdfs_destroy_mapping` returns what `rdfs_add_link` did. -/
theorem create_reports_iff (o : CreateSteps) (hdir : ∀ i, o.newInode = .ok i → i ≠ dir) :
    Reports dir name o.newInode (o.failed s dir name) (s.rdfsCreate dir name o) ↔
      ¬s.Has dir name ∧ ∀ i, o.newInode = .ok i →
        unmapCode s dir o.area o.unnvmap = linkCode s dir name o.area o.addLink := by
  rcases hnew : o.newInode with err | i
  · have hret : s.rdfsCreate dir name o = (err.1, s) := by rw [Names.rdfsCreate, hnew]
    rw [hret, reports_iff_of_error err.2 rfl (by rw [CreateSteps.failed, hnew])]
    simp
  have hne := hdir i hnew
  generalize ht : (s.newInode i false).establish dir o.area = t
  have hentries : t.entries = s.entries := by rw [← ht]; rfl
  have haddr : t.virtAddr dir = dirAddr s dir o.area := by
    simp [← ht, Names.newInode, dirAddr, Ne.symm hne]
  have hcount : t.mappingCount dir = s.mappingCount dir + 1 := by
    simp [← ht, Names.newInode, Names.establish, Ne.symm hne]
  have hlinks : t.nlink i = 1 := by simp [← ht, Names.newInode]
  have hret : s.rdfsCreate dir name o = (unmapCode s dir o.area o.unnvmap,
      (t.addNondir o.addLink.isNone dir name i).destroy dir) := by
    obtain ⟨hv, hm⟩ := t.addNondir_mapping o.addLink.isNone dir name i
    have hunmap : (t.addNondir o.addLink.isNone dir name i).destroyReturn dir o.unnvmap =
        unmapCode s dir o.area o.unnvmap := by
      rw [Names.destroyReturn, hv, hm, haddr, hcount, Int.add_sub_cancel, unmapCode, ite_or]
    rw [Names.rdfsCreate, hnew, ← hunmap, ← ht]
  have hfailed : o.failed s dir name = failure (linkCode s dir name o.area o.addLink) := by
    rw [CreateSteps.failed, hnew]
  rw [hret, hfailed, reports_addNondir_iff hentries haddr hlinks]
  simp

/-- The address that `rdfs_symlink` writes the target to. -/
theorem Names.virtAddr_establish_newInode (s : Names) (i area : ℕ) :
    ((s.newInode i false).establish i area).virtAddr i = area := by
  simp [dirAddr, Names.newInode]

/-- `rdfs_symlink` once the new inode has its block and its area : the link remains to be made. -/
theorem symlink_reports_of_area (s : Names) (name : List UInt8) {o : SymlinkSteps}
    (hlen : ¬o.blocksize < o.length + 1)
    (hnew : o.newInode = .ok i) (hne : i ≠ dir) (halloc : errCode o.allocBlocks = 0)
    (harea : o.inodeArea ≠ 0) : ∃ r, s.rdfsSymlink dir name o = some r ∧
      (Reports dir name o.newInode (o.failed s dir name) r ↔ ¬s.Has dir name) := by
  generalize ht : (((s.newInode i false).establish i o.inodeArea).destroy i).establish dir
    o.area = t
  have hentries : t.entries = s.entries := by simp [← ht, Names.newInode]
  have haddr : t.virtAddr dir = dirAddr s dir o.area := by
    simp [← ht, dirAddr, Names.destroy, Names.establish, Names.newInode, harea, Ne.symm hne]
  have hlinks : t.nlink i = 1 := by simp [← ht, Names.newInode]
  have hret : s.rdfsSymlink dir name o = some (linkCode s dir name o.area o.addLink,
      (t.addNondir o.addLink.isNone dir name i).destroy dir) := by
    rw [Names.rdfsSymlink, if_neg hlen, hnew, ← Names.addLinkReturn_eq hentries haddr, ← ht]
    dsimp only
    rw [if_neg (not_not_intro halloc),
      if_neg (by rw [Names.virtAddr_establish_newInode]; exact harea)]
  have hfailed : o.failed s dir name = failure (linkCode s dir name o.area o.addLink) := by
    rw [SymlinkSteps.failed, if_neg hlen, hnew, halloc]
    rfl
  refine ⟨_, hret, ?_⟩
  rw [hnew, hfailed, reports_addNondir_iff hentries haddr hlinks]
  exact and_iff_left rfl

/-- `rdfs_symlink` reports what happened exactly if the name was not in use and there is an area for
the inode when that is to be written to. -/
theorem symlink_reports_iff (o : SymlinkSteps) (hdir : ∀ i, o.newInode = .ok i → i ≠ dir) :
    (∃ r, s.rdfsSymlink dir name o = some r ∧ Reports dir name o.newInode (o.failed s dir name) r) ↔
      ¬s.Has dir name ∧ (o.length + 1 ≤ o.blocksize → ∀ i, o.newInode = .ok i →
        o.allocBlocks = none → o.inodeArea ≠ 0) := by
  have hsome : ∀ r, s.rdfsSymlink dir name o = some r → ((∃ r, s.rdfsSymlink dir name o = some r ∧
        Reports dir name o.newInode (o.failed s dir name) r) ↔
        Reports dir name o.newInode (o.failed s dir name) r) := by
    intro r hr
    simp [hr]
  by_cases hlen : o.blocksize < o.length + 1
  · have hret : s.rdfsSymlink dir name o = some (-enametoolong, s) := by
      rw [Names.rdfsSymlink, if_pos hlen]
    have hfailed : o.failed s dir name = some (-enametoolong) := by
      rw [SymlinkSteps.failed, if_pos hlen]
    rw [hsome _ hret, reports_iff_of_error (by decide : -enametoolong < 0) rfl hfailed]
    exact (and_iff_left fun h => by omega).symm
  rcases hnew : o.newInode with err | i
  · have hret : s.rdfsSymlink dir name o = some (err.1, s) := by
      rw [Names.rdfsSymlink, if_neg hlen, hnew]
    have hfailed : o.failed s dir name = some err.1 := by
      rw [SymlinkSteps.failed, if_neg hlen, hnew]
    rw [← hnew, hsome _ hret, reports_iff_of_error err.2 rfl hfailed]
    simp [hnew]
  have hne := hdir i hnew
  by_cases halloc : errCode o.allocBlocks = 0
  swap
  · have hneg : errCode o.allocBlocks < 0 := by
      have := errCode_le o.allocBlocks
      omega
    have hret : s.rdfsSymlink dir name o =
        some (errCode o.allocBlocks, (s.newInode i false).decLink i) := by
      rw [Names.rdfsSymlink, if_neg hlen, hnew]
      exact if_pos halloc
    have hfailed : o.failed s dir name = some (errCode o.allocBlocks) := by
      rw [SymlinkSteps.failed, if_neg hlen, hnew, failure_eq_some halloc]
      rfl
    rw [← hnew, hsome _ hret, reports_iff_of_error hneg rfl hfailed]
    refine (and_iff_left fun _ j _ hnone => ?_).symm
    exact absurd (errCode_eq_zero.mpr hnone) halloc
  by_cases harea : o.inodeArea = 0
  · -- the new inode has no address to write to
    have hret : s.rdfsSymlink dir name o = none := by
      rw [Names.rdfsSymlink, if_neg hlen, hnew]
      dsimp only
      rw [if_neg (not_not_intro halloc),
        if_pos ((s.virtAddr_establish_newInode i o.inodeArea).trans harea)]
    rw [hret]
    refine iff_of_false (by simp) fun h => ?_
    exact h.2 (by omega) i rfl (errCode_eq_zero.mp halloc) harea
  · obtain ⟨r, hret, hiff⟩ := symlink_reports_of_area s name hlen hnew hne halloc harea
    rw [← hnew, hsome _ hret, hiff]
    exact (and_iff_left fun _ _ _ _ => harea).symm

/-- What `rdfs_make_empty` returns for a new inode. -/
theorem Names.failure_makeEmptyReturn (hvirt : t.virtAddr i = 0) (hmap : t.mappingCount i = 0)
    (o : MkdirSteps) : t.makeEmptyReturn i o ≤ 0 ∧ failure (t.makeEmptyReturn i o) =
      (if o.inodeArea = 0 then some (-1) else none).or ((failure (errCode o.nvmap)).or
        ((failure (errCode o.allocBlocks)).or (failure (errCode o.unnvmap)))) := by
  have haddr : dirAddr t i o.inodeArea = o.inodeArea := if_pos hvirt
  rw [makeEmptyReturn]
  simp only [establish_virtAddr, haddr]
  by_cases harea : o.inodeArea = 0
  · rw [if_pos harea, if_pos harea]
    exact ⟨by decide, rfl⟩
  rw [if_neg harea, if_neg harea, destroyReturn_establish hmap _ _ (by rwa [haddr])]
  by_cases hnvmap : errCode o.nvmap = 0
  swap
  · rw [if_pos hnvmap, failure_eq_some hnvmap]
    exact ⟨errCode_le _, rfl⟩
  rw [if_neg (not_not_intro hnvmap), hnvmap]
  by_cases halloc : errCode o.allocBlocks = 0
  · rw [if_neg (not_not_intro halloc), halloc]
    exact ⟨errCode_le _, rfl⟩
  · rw [if_pos halloc, failure_eq_some halloc]
    exact ⟨errCode_le _, rfl⟩

/-- `rdfs_make_empty` is about the new inode alone. -/
theorem Names.makeEmpty_frame (t : Names) (i : ℕ) (o : MkdirOutcome) :
    (t.makeEmpty i o).2.entries = t.entries ∧ (t.makeEmpty i o).2.nlink = t.nlink ∧
      ∀ j, j ≠ i → (t.makeEmpty i o).2.virtAddr j = t.virtAddr j := by
  have hmap : ∀ j, j ≠ i → (t.establish i o.inodeArea).virtAddr j = t.virtAddr j :=
    fun j hj => establish_virtAddr_of_ne hj _
  unfold makeEmpty
  dsimp only
  split
  · exact ⟨rfl, rfl, hmap⟩
  split
  · exact ⟨rfl, rfl, hmap⟩
  · refine ⟨by simp, by simp, fun j hj => ?_⟩
    rw [destroy]
    split
    · exact hmap j hj
    · rw [← hmap j hj]
      exact update_of_ne hj ..

/-- `rdfs_mkdir` reports what happened exactly if the name was not in use. -/
theorem mkdir_reports_iff (o : MkdirSteps) (hdir : ∀ i, o.newInode = .ok i → i ≠ dir) :
    Reports dir name o.newInode (o.failed s dir name) (s.rdfsMkdir dir name o) ↔
      ¬s.Has dir name := by
  rcases hnew : o.newInode with err | i
  · have hret : s.rdfsMkdir dir name o = (err.1, ((s.incLink dir).decLink dir).destroy dir) := by
      rw [Names.rdfsMkdir, hnew]
    have hentries : (((s.incLink dir).decLink dir).destroy dir).entries = s.entries := by
      simp [Names.decLink, Names.incLink]
    rw [hret, reports_iff_of_error err.2 hentries (by rw [MkdirSteps.failed, hnew])]
  have hne := hdir i hnew
  generalize ht : (((s.incLink dir).newInode i true).incLink i).establish dir o.area = t
  obtain ⟨hmadeEntries, hmadeLinks, hmadeAddr⟩ := t.makeEmpty_frame i o.outcome
  have hvirt : t.virtAddr i = 0 := by
    simp [← ht, Names.establish, Names.incLink, Names.newInode, hne]
  have hmap : t.mappingCount i = 0 := by
    simp [← ht, Names.establish, Names.incLink, Names.newInode, hne]
  obtain ⟨hle, hfailure⟩ := Names.failure_makeEmptyReturn hvirt hmap o
  generalize hmade : (t.makeEmpty i o.outcome).2 = u at hmadeEntries hmadeLinks hmadeAddr
  have hentries : u.entries = s.entries := by
    rw [hmadeEntries, ← ht]
    rfl
  have haddr : u.virtAddr dir = dirAddr s dir o.area := by
    rw [hmadeAddr dir (Ne.symm hne), ← ht]
    simp [dirAddr, Names.incLink, Names.newInode, Ne.symm hne]
  have hlinks : u.nlink i = 2 := by
    rw [hmadeLinks, ← ht]
    simp [Names.incLink, Names.newInode]
  have hfail : (u.mkdirFail dir i).entries = s.entries := by
    simp [Names.mkdirFail, Names.decLink, hentries]
  have hfailed : o.failed s dir name = (failure (t.makeEmptyReturn i o)).or
      (failure (linkCode s dir name o.area o.addLink)) := by
    rw [MkdirSteps.failed, hnew, hfailure]
    simp only [Option.or_assoc]
  by_cases hmake : t.makeEmptyReturn i o = 0
  swap
  · have hret : s.rdfsMkdir dir name o = (t.makeEmptyReturn i o, u.mkdirFail dir i) := by
      rw [Names.rdfsMkdir, hnew]
      dsimp only
      rw [ht, if_pos hmake, hmade]
    rw [hret, reports_iff_of_error (by omega) hfail (by
      rw [hfailed, failure_eq_some hmake]
      rfl)]
  have hret : s.rdfsMkdir dir name o = (linkCode s dir name o.area o.addLink,
      ((u.addLink o.addLink.isNone dir name i).map fun s => s.destroy dir).getD
        (u.mkdirFail dir i)) := by
    rw [Names.rdfsMkdir, hnew]
    dsimp only
    rw [ht, if_neg (not_not_intro hmake), hmade, Names.addLinkReturn_eq hentries haddr]
  have hcode : u.addLinkReturn o.addLink dir name = linkCode s dir name o.area o.addLink :=
    Names.addLinkReturn_eq hentries haddr o.addLink
  rw [hret]
  rcases u.addLink_cases o.addLink dir name i with ⟨hzero, hnot, hadd⟩ | ⟨hneg, hadd⟩
  · rw [hadd, map_some, getD_some, reports_iff_of_linked ⟨i, rfl, by simp, by simp [hlinks]⟩]
    exact iff_of_true (hcode ▸ hzero) fun h => hnot ((Names.has_congr hentries _ _).mpr h)
  · rw [hcode] at hneg
    rw [hadd, map_none, getD_none, reports_iff_of_error hneg hfail (by
      rw [hfailed, hmake, failure_eq_some (Int.ne_of_lt hneg)]
      rfl)]

/-- When `rdfs_create`, `rdfs_mkdir` and `rdfs_symlink` report what happened. -/
theorem newEntry_reports_iff (s : Names) (dir : ℕ) (name : List UInt8) (create : CreateSteps)
    (mkdir : MkdirSteps) (symlink : SymlinkSteps) (hcreate : ∀ i, create.newInode = .ok i → i ≠ dir)
    (hmkdir : ∀ i, mkdir.newInode = .ok i → i ≠ dir)
    (hsymlink : ∀ i, symlink.newInode = .ok i → i ≠ dir) :
    (Reports dir name create.newInode (create.failed s dir name) (s.rdfsCreate dir name create) ↔
      ¬s.Has dir name ∧ ∀ i, create.newInode = .ok i → unmapCode s dir create.area create.unnvmap =
          linkCode s dir name create.area create.addLink) ∧
    (Reports dir name mkdir.newInode (mkdir.failed s dir name) (s.rdfsMkdir dir name mkdir) ↔
      ¬s.Has dir name) ∧
    ((∃ r, s.rdfsSymlink dir name symlink = some r ∧
        Reports dir name symlink.newInode (symlink.failed s dir name) r) ↔
      ¬s.Has dir name ∧ (symlink.length + 1 ≤ symlink.blocksize → ∀ i,
        symlink.newInode = .ok i → symlink.allocBlocks = none → symlink.inodeArea ≠ 0)) :=
  ⟨create_reports_iff create hcreate, mkdir_reports_iff mkdir hmkdir,
    symlink_reports_iff symlink hsymlink⟩

end calls

/-- No entries, and nothing mapped. -/
def quietNames : Names where
  entries := 0
  isDir _ := true
  nlink _ := 2
  mappingCount _ := 0
  virtAddr _ := 0

theorem newEntry_reports_quiet : Reports 1 [97] (.ok 2) none
      (quietNames.rdfsCreate 1 [97] ⟨.ok 2, rdfsStart, none, none⟩) ∧
    Reports 1 [97] (.ok 2) (some (-1))
      (quietNames.rdfsMkdir 1 [97] ⟨.ok 2, rdfsStart, 0, none, none, none, none⟩) ∧
    ∃ r, quietNames.rdfsSymlink 1 [97] ⟨5, 4096, .ok 2, none, rdfsStart, rdfsStart, none⟩ =
      some r ∧ Reports 1 [97] (.ok 2) none r := by
  obtain ⟨hcreate, hmkdir, hsymlink⟩ := newEntry_reports_iff quietNames 1 [97]
    ⟨.ok 2, rdfsStart, none, none⟩ ⟨.ok 2, rdfsStart, 0, none, none, none, none⟩
    ⟨5, 4096, .ok 2, none, rdfsStart, rdfsStart, none⟩
    (by rintro i ⟨⟩; decide) (by rintro i ⟨⟩; decide) (by rintro i ⟨⟩; decide)
  exact ⟨hcreate.mpr ⟨by decide, fun _ _ => by decide⟩, hmkdir.mpr (by decide),
    hsymlink.mpr ⟨by decide, fun _ _ _ _ => by decide⟩⟩

/-- A new inode, and no link to it. -/
def lostSteps : CreateSteps := ⟨.ok 2, rdfsStart, some ⟨-1, by decide⟩, none⟩

/-- The link is not made, and `rdfs_create` returns 0. -/
theorem create_loses_error : (quietNames.rdfsCreate 1 [97] lostSteps).1 = 0 ∧
      ¬Reports 1 [97] lostSteps.newInode (lostSteps.failed quietNames 1 [97])
        (quietNames.rdfsCreate 1 [97] lostSteps) := by
  refine ⟨by decide, fun h => ?_⟩
  have hcodes := ((create_reports_iff lostSteps (by rintro i ⟨⟩; decide)).mp h).2 2 rfl
  exact absurd hcodes (by decide)

end Rdfs
