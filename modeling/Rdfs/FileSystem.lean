import Rdfs.Files
import Rdfs.InodeImage

/-!
# The file system as a whole

`Fs` is a mounted file system : the space of Establish with the slots in use. `FsOp` are the
operations that create and delete inodes, append blocks to them, remove their tables, change their
attributes, and map and unmap them. A run (`FsRun`) starts from a fresh mount and makes any of them
in any order, each on an inode in use.

Two parts of one invariant hold along every run whose steps meet `FsOp.Sound`. `PagesInv` ties the
pages of the region to their owners : the tables of the inodes, the pages of directories and
symbolic links, the pages of pte values, which regular files share, and the page of the buffer.
`KernelInv` ties the entries of the kernel's page table to the tables of the inodes that have an
area.
-/

namespace Rdfs

/-! ## State and operations -/

/-- A mounted file system : the space, `next_numa_id`, and the inodes in use besides the root. -/
structure Fs extends Space where
  nextNumaId : ℕ
  live : List ℕ

/-- The inodes in use; `RDFS_ROOT_INO` is 1. -/
def Fs.files (s : Fs) : List ℕ := 1 :: s.live

/-- The state with another space. -/
def Fs.put (s : Fs) (f : ℕ) (r : Inode × Master × NvmLists) : Fs :=
  { s with toSpace := s.toSpace.put f r }

/-- The state with another region. -/
def Fs.setNvm (s : Fs) (nvm : Nvm) : Fs := { s with master := { s.master with nvm := nvm } }

/-- The part of `rdfs_nvm_init` that makes the root. -/
def rdfsInitRoot (sb : Super) (cpu : ℕ) (st : Nvm) (mode uid gid : ℕ) : Nvm :=
  let root := getRdfsInodePhyAddr sb 1
  let m := inodeStruct.putFields st.mem root
    [(.iMode, mode), (.iUid, uid), (.iGid, gid), (.iLinkCounts, 2),
      (.listPro, getRdfsInode sb 1), (.listNext, getRdfsInode sb 1)]
  let st := (rdfsInitPgTable sb cpu { st with mem := m } 1).2
  let m := rdfsSyncInode st.mem root
  { st with
    mem := if sb.sNumaFlag = true then
        inodeStruct.putFields m (getRdfsInodePhyAddr sb 2)
          [(.listPro, getRdfsInode sb 2), (.listNext, getRdfsInode sb 2)]
      else m }

/-- What `rdfs_new_inode` makes of a `struct inode` with the owner, the times and the flags of
`attrs`. -/
def freshInode (attrs : Inode) (ino : ℕ) : Inode :=
  { attrs with
    iIno := ino, iNlink := 1, iSize := 0, iBlocks := 0, iFileAcl := 0, iDirAcl := 0, iDtime := 0
    iVirtAddr := 0, iPCounter := 0, mappingCount := 0, bitmaps := default }

/-- `rdfs_init_acl` on a mount without access control lists. A mask has nine bits. -/
def rdfsInitAcl (inode : Inode) (umask : ℕ) : Inode :=
  { inode with
    iMode := if SIsLnk inode.iMode then inode.iMode
      else inode.iMode &&& (0xffff - umask % 2 ^ 9) }

/-- The mount : the region laid out, the root with an empty table, no area in use and the pte
cursor at the end of a page. -/
def Fs.mount {sb : Super} (R : Region sb) (m : Mem) (cpu : ℕ) (root : Inode) (slaves : SlaveInfos)
    (nextNumaId : ℕ) : Fs where
  master := ⟨rdfsInitRoot sb cpu (R.mount m) root.iMode root.iUid root.iGid,
    ⟨fun _ => 0, fun _ => 0⟩, pagePteNums, 0, slaves⟩
  areas := nvmallocInit
  flag := false
  globalPhyAddr := 0
  inode := Function.update (fun _ => default) 1 { freshInode root 1 with iNlink := 2 }
  nextNumaId := nextNumaId
  live := []

/-- `rdfs_new_inode`. -/
def Fs.newInode (sb : Super) (s : Fs) (cpu : ℕ) (attrs : Inode) (umask : ℕ) : Fs :=
  match rdfsNewInodeTake sb s.master.nvm s.nextNumaId with
  | (none, nvm, next) => { s.setNvm nvm with nextNumaId := next }
  | (some ino, nvm, next) =>
    let inode := freshInode attrs ino
    let nvm := { nvm with mem := rdfsUpdateInode sb nvm.mem inode }
    let nvm := (rdfsInitPgTable sb cpu nvm ino).2
    { s.put ino (rdfsInitAcl inode umask, { s.master with nvm := nvm }, s.areas) with
      nextNumaId := next, live := s.live ++ [ino] }

/-- The inode number of the slot that `rdfs_new_inode` takes. -/
def Fs.freeIno (sb : Super) (s : Fs) : ℕ :=
  getRdfsInodenr sb (s.master.nvm.numaDes (getANuma sb s.nextNumaId).1).freeInodePhy

/-- The stores of `rdfs_new_inode` to that slot, if there is one. -/
def Fs.newInodeStores (sb : Super) (s : Fs) (cpu : ℕ) (attrs : Inode) : List (InodeField × ℕ) :=
  if (s.master.nvm.numaDes (getANuma sb s.nextNumaId).1).freeInodeCount = 0 then []
  else newInodeFields ++ updateFields (freshInode attrs (s.freeIno sb)) ++
    [(.iPgAddr, (s.master.nvm.numaDes (getCpuNuma sb cpu)).freePagePhy)]

/-- `struct iattr` with the attributes that `ia_valid` names, what `inode_change_ok` says about it,
and whether the caller may keep `S_ISGID`. -/
structure Iattr where
  iaMode : Option ℕ
  iaUid : Option ℕ
  iaGid : Option ℕ
  iaSize : Option ℕ
  iaAtime : Option ℕ
  iaMtime : Option ℕ
  iaCtime : Option ℕ
  changeOk : ℤ
  keepsSgid : Bool
deriving Inhabited

/-- `setattr_copy`; `S_ISGID` is `02000`. -/
def setattrCopy (inode : Inode) (attr : Iattr) : Inode :=
  { inode with
    iUid := attr.iaUid.getD inode.iUid
    iGid := attr.iaGid.getD inode.iGid
    iAtime := attr.iaAtime.getD inode.iAtime
    iMtime := attr.iaMtime.getD inode.iMtime
    iCtime := attr.iaCtime.getD inode.iCtime
    iMode := attr.iaMode.elim inode.iMode fun mode =>
      if attr.keepsSgid then mode else mode &&& (0xffff - 0x400) }

/-- The size `rdfs_notify_change` calls `rdfs_setsize` with. -/
def newSize (sb : Super) (m : Mem) (inode : Inode) (attr : Iattr) : Option ℕ :=
  attr.iaSize.filter fun size => size ≠ inode.iSize ∨ EofBlocks sb m inode.iIno

/-- `rdfs_notify_change` at time `now`, on a mount without access control lists; `none` for a page
fault. -/
def rdfsNotifyChange (sb : Super) (g : Master) (inode : Inode) (attr : Iattr) (now : ℕ) :
    Option (ℤ × Inode × Master) :=
  if attr.changeOk ≠ 0 then some (attr.changeOk, inode, g)
  else
    let sized := match newSize sb g.nvm.mem inode attr with
      | some size => rdfsSetsize sb g inode size now
      | none => some (0, inode, g)
    sized.map fun r =>
      if r.1 ≠ 0 then r
      else
        let inode := setattrCopy r.2.1 attr
        let nvm := r.2.2.nvm
        (0, inode, { r.2.2 with nvm := { nvm with mem := rdfsUpdateInode sb nvm.mem inode } })

/-- The operations. -/
inductive FsOp
  | newInode (cpu : ℕ) (attrs : Inode) (umask : ℕ)
  | alloc (f cpu num zeroing : ℕ) (type : AllocType) (phys : ℕ)
  | truncate (f start stop : ℕ)
  | updateInode (f : ℕ)
  | notifyChange (f : ℕ) (attr : Iattr) (now : ℕ)
  | freeInode (f seconds : ℕ)
  | establish (f inodePtr : ℕ)
  | destroy (f : ℕ)
  | rwBuffer (cpu : ℕ)

namespace FsOp

/-- What an operation does, `none` if it follows a null pointer. -/
def run (sb : Super) (s : Fs) : FsOp → Option Fs
  | newInode cpu attrs umask => some (s.newInode sb cpu attrs umask)
  | alloc f cpu num zeroing type phys =>
    let r := rdfsAllocBlocks sb cpu s.master (s.inode f) num zeroing type phys
    some (s.put f (r.2.inode, r.2.master, s.areas))
  | truncate f start stop =>
    let r := rawRdfsTruncateBlocks sb s.master (s.inode f) start stop
    some (s.put f (r.1, r.2, s.areas))
  | updateInode f =>
    some (s.setNvm { s.master.nvm with mem := rdfsUpdateInode sb s.master.nvm.mem (s.inode f) })
  | notifyChange f attr now =>
    (rdfsNotifyChange sb s.master (s.inode f) attr now).map fun r => s.put f (r.2.1, r.2.2, s.areas)
  | freeInode f seconds =>
    some { s.setNvm (rdfsFreeInode sb s.master.nvm f seconds) with live := s.live.erase f }
  | establish f inodePtr => some { s with toSpace := (s.toSpace.establish sb f inodePtr).2 }
  | destroy f => (s.toSpace.destroy sb f).map fun r => { s with toSpace := r.2 }
  | rwBuffer cpu => some { s with toSpace := rdfsInitLocalRwBuffer sb cpu s.toSpace }

/-- The operation is on an inode in use, the root is not deleted, blocks are appended as the callers
do, of slaves to regular files and pages to all others, and a new mode is of the old kind. -/
def Valid (s : Fs) : FsOp → Prop
  | newInode _ _ _ | rwBuffer _ => True
  | alloc f _ num _ type _ =>
    f ∈ s.files ∧ num < 2 ^ 31 ∧ (type = .pte ↔ SIsReg (s.inode f).iMode)
  | truncate f _ _ | updateInode f | establish f _ | destroy f => f ∈ s.files
  | notifyChange f attr _ =>
    f ∈ s.files ∧ ∀ mode ∈ attr.iaMode, mode &&& 0xf000 = (s.inode f).iMode &&& 0xf000
  | freeInode f _ => f ∈ s.live

end FsOp

/-- The inode has a table. -/
def HasTable (sb : Super) (m : Mem) (ino : ℕ) : Prop :=
  inodeStruct.getField m (getRdfsInodePhyAddr sb ino) .iPgAddr ≠ 0

instance (sb : Super) (m : Mem) (ino : ℕ) : Decidable (HasTable sb m ino) :=
  inferInstanceAs (Decidable (_ ≠ _))

/-- `__rdfs_truncate_blocks` removes the table. -/
def CutsTable (sb : Super) (m : Mem) (ino start stop : ℕ) : Prop :=
  HasTable sb m ino ∧ (start + 4096 - 1) >>> 12 ≤ lastBlocknr sb m ino stop

instance (sb : Super) (m : Mem) (ino start stop : ℕ) : Decidable (CutsTable sb m ino start stop) :=
  inferInstanceAs (Decidable (_ ∧ _))

/-- How many pages the table of an inode has. -/
def Fs.tableHeld (sb : Super) (s : Fs) (f : ℕ) : ℕ :=
  if HasTable sb s.master.nvm.mem f then tableSize (s.inode f).iBlocks else 0

/-- How many pages `rdfs_alloc_blocks` takes besides those of the table. -/
def Fs.blockPages (s : Fs) (num : ℕ) : AllocType → ℕ
  | .page => num
  | .pte => (s.master.pteCnt + num - 1) / 512

/-- What an operation takes for granted. A new inode finds a slot that does not end at the first
page, and three pages for its table. Blocks find an area with room for them, or stay below a
gigabyte if there is none, and find the pages they need. A regular file has no blocks when its
table is removed, and an inode has no table when it is deleted. A regular file that is mapped gets
one of the first areas. -/
def FsOp.Sound {sb : Super} (R : Region sb) (s : Fs) : FsOp → Prop
  | newInode cpu _ _ =>
    let n := (getANuma sb s.nextNumaId).1
    let d := s.master.nvm.numaDes n
    d.freeInodeCount ≠ 0 → d.freeInodePhy + 136 ≤ (R.des n).freePagePhy ∧
      3 ≤ (s.master.nvm.numaDes (getCpuNuma sb cpu)).freePageCount
  | alloc f cpu num _ type _ =>
    Placed (s.inode f).iVirtAddr ((s.inode f).iBlocks + num) ∧
    ∀ j, (if j = getCpuNuma sb cpu then
        tableSize ((s.inode f).iBlocks + num) - s.tableHeld sb f else 0) +
      (if j = rdfsGetNumaByInode sb (getRdfsInode sb f) then s.blockPages num type else 0) ≤
        (s.master.nvm.numaDes j).freePageCount
  | truncate f start stop =>
    CutsTable sb s.master.nvm.mem f start stop → SIsReg (s.inode f).iMode →
      (s.inode f).iBlocks = 0
  | notifyChange f attr _ =>
    ∀ size ∈ newSize sb s.master.nvm.mem (s.inode f) attr,
      CutsTable sb s.master.nvm.mem f size (s.inode f).iSize → SIsReg (s.inode f).iMode →
        (s.inode f).iBlocks = 0
  | freeInode f _ => ¬HasTable sb s.master.nvm.mem f
  | establish f _ => LowArea s.toSpace f
  | updateInode _ | destroy _ | rwBuffer _ => True

instance (s : Fs) : (o : FsOp) → Decidable (o.Valid s)
  | .newInode _ _ _ | .rwBuffer _ => isTrue trivial
  | .alloc f _ num _ type _ => inferInstanceAs
      (Decidable (f ∈ s.files ∧ num < 2 ^ 31 ∧ (type = .pte ↔ SIsReg (s.inode f).iMode)))
  | .truncate f _ _ | .updateInode f | .establish f _ | .destroy f =>
    inferInstanceAs (Decidable (f ∈ s.files))
  | .notifyChange f attr _ => inferInstanceAs (Decidable
      (f ∈ s.files ∧ ∀ mode ∈ attr.iaMode, mode &&& 0xf000 = (s.inode f).iMode &&& 0xf000))
  | .freeInode f _ => inferInstanceAs (Decidable (f ∈ s.live))

theorem placed_iff {v n : ℕ} : Placed v n ↔
    (rdfsStart + 2 ^ 35 ≤ v ∧ v < rdfsStart + 2 ^ 35 * 959 ∧ (v - rdfsStart) % 2 ^ 35 = 0 ∧
      n ≤ 2 ^ 23) ∨
    (rdfsStart ≤ v ∧ v < rdfsStart + 2 ^ 35 ∧ (v - rdfsStart) % 2 ^ 21 = 0 ∧ n ≤ 512 ∧
      (v + maxDirSize = rdfsStart + dirAreaSize → n ≤ 1)) ∨ (v = 0 ∧ n ≤ 2 ^ 18) := by
  have hreg : v ∈ regAreas ↔
      rdfsStart + 2 ^ 35 ≤ v ∧ v < rdfsStart + 2 ^ 35 * 959 ∧ (v - rdfsStart) % 2 ^ 35 = 0 := by
    rw [mem_regAreas]
    refine ⟨fun ⟨i, hi, hv⟩ => by omega, fun h => ⟨(v - rdfsStart) / 2 ^ 35 - 1, by omega⟩⟩
  have hdir : v ∈ dirAreas ↔
      rdfsStart ≤ v ∧ v < rdfsStart + 2 ^ 35 ∧ (v - rdfsStart) % 2 ^ 21 = 0 := by
    rw [mem_dirAreas]
    refine ⟨fun ⟨i, hi, hv⟩ => by omega, fun h => ⟨(v - rdfsStart) / 2 ^ 21, by omega⟩⟩
  rw [Placed, Fits, hreg, hdir]
  simp only [and_assoc, or_assoc]

instance (v n : ℕ) : Decidable (Placed v n) := decidable_of_iff' _ placed_iff

instance (s : Space) (f : ℕ) : Decidable (LowArea s f) :=
  inferInstanceAs (Decidable (_ → _ → _ ∧ _))

instance {sb : Super} (R : Region sb) (s : Fs) : (o : FsOp) → Decidable (o.Sound R s)
  | .newInode _ _ _ => inferInstanceAs (Decidable (_ ≠ _ → _ ∧ _))
  | .alloc _ _ _ _ _ _ => inferInstanceAs (Decidable (Placed _ _ ∧ ∀ _, _ ≤ _))
  | .truncate f start stop => inferInstanceAs
      (Decidable (CutsTable sb s.master.nvm.mem f start stop → SIsReg _ → _ = _))
  | .notifyChange f attr _ => inferInstanceAs (Decidable
      (∀ size ∈ newSize sb s.master.nvm.mem (s.inode f) attr,
        CutsTable sb s.master.nvm.mem f size (s.inode f).iSize → SIsReg _ → _ = _))
  | .freeInode f _ => inferInstanceAs (Decidable (¬HasTable sb s.master.nvm.mem f))
  | .establish f _ => inferInstanceAs (Decidable (LowArea s.toSpace f))
  | .updateInode _ | .destroy _ | .rwBuffer _ => isTrue trivial

/-- States reached from a fresh mount by operations that meet the condition `C`. -/
inductive FsRun {sb : Super} (R : Region sb) (C : Fs → FsOp → Prop) : Fs → Prop
  | mount (m : Mem) (cpu : ℕ) (root : Inode) (slaves : SlaveInfos) (nextNumaId : ℕ)
      (hroot : SIsDir root.iMode) (hroom : 3 ≤ (R.des (getCpuNuma sb cpu)).freePageCount) :
      FsRun R C (Fs.mount R m cpu root slaves nextNumaId)
  | op {s s' : Fs} (h : FsRun R C s) (o : FsOp) (hv : o.Valid s) (hc : C s o)
      (hr : o.run sb s = some s') : FsRun R C s'

end Rdfs
