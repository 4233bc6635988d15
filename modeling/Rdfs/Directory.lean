import Rdfs.InodeImage

/-!
# Directories

The blocks of a directory hold records one behind another, each with the number of the inode it
names, its own length and a name (`struct rdfs_dir_entry`). A record with inode number 0 is not in
use. `Dir` is a directory while it is mapped : its inode, and the bytes behind `i_virt_addr`, in
which a record is known by its offset.

The definitions here are the functions of `dir.c`. Every walk over the records stops at a record of
length 0, and so comes to an end in every memory. What the functions do to directories whose records
are in order is said from `DirRecords` on.
-/

namespace Rdfs

/-! ## `struct rdfs_dir_entry` -/

/-- The fields of `struct rdfs_dir_entry` in front of its name. -/
inductive DirField
  | inode | recLen | nameLen | fileType
deriving DecidableEq, Repr

/-- `__le64`, `__le16` and `__u8`. -/
def DirField.size : DirField → ℕ
  | .inode => 8
  | .recLen => 2
  | .nameLen => 1
  | .fileType => 1

/-- `struct rdfs_dir_entry` up to its name. -/
def dirEntryStruct : CStruct DirField where
  fields := [.inode, .recLen, .nameLen, .fileType]
  size := DirField.size
  size_pos f := by cases f <;> decide

/-- The offset of `name`. -/
def dirNameOffset : ℕ := 12

/-- `RDFS_DIR_REC_LEN`. -/
def rdfsDirRecLen (nameLen : ℕ) : ℕ := (nameLen + 12 + 3) / 4 * 4

/-- A field of the record at `de`. -/
def deField (m : Mem) (de : ℕ) (f : DirField) : ℕ := dirEntryStruct.getField m de f

/-- A field of the record at `de` set to `v`. -/
def putDe (m : Mem) (de : ℕ) (f : DirField) (v : ℕ) : Mem := dirEntryStruct.putField m de f v

/-- `rdfs_type_by_mode`; no mode has the index 15, for which the table has no entry. -/
def rdfsTypeByMode : ℕ → ℕ
  | 8 => 1
  | 4 => 2
  | 2 => 3
  | 6 => 4
  | 1 => 5
  | 12 => 6
  | 10 => 7
  | _ => 0

/-- `rdfs_filetype_table`. -/
def rdfsFiletypeTable : ℕ → ℕ
  | 1 => 8
  | 2 => 4
  | 3 => 2
  | 4 => 6
  | 5 => 1
  | 6 => 12
  | 7 => 10
  | _ => 0

/-- The type of the entries of an inode. -/
def Inode.deType (inode : Inode) : ℕ := rdfsTypeByMode (inode.iMode / 2 ^ 12 % 2 ^ 4)

theorem Inode.deType_lt (inode : Inode) : inode.deType < 8 := by
  unfold Inode.deType rdfsTypeByMode
  split <;> omega

theorem Inode.deType_lt_byte (inode : Inode) : inode.deType < 2 ^ 8 :=
  Nat.lt_trans inode.deType_lt (by decide)

/-- `rdfs_set_de_type`. -/
def rdfsSetDeType (m : Mem) (de : ℕ) (inode : Inode) : Mem := putDe m de .fileType inode.deType

/-! ## Directories -/

/-- `ENOENT`. -/
def enoent : ℤ := 2

/-- `ENOMEM`. -/
def enomem : ℤ := 12

/-- `EEXIST`. -/
def eexist : ℤ := 17

/-- A mapped directory : the inode, and what lies behind `i_virt_addr`. -/
structure Dir where
  inode : Inode
  mem : Mem

/-- `cpu_to_le32` of a 64-bit number. -/
def le32 (n : ℕ) : ℕ := n % 2 ^ 32

/-- `rdfs_match`. -/
def rdfsMatch (name : List UInt8) (m : Mem) (de : ℕ) : Bool :=
  if name.length ≠ deField m de .nameLen then false
  else if deField m de .inode = 0 then false
  else decide (m.bytes name.length (de + dirNameOffset) = name)

/-- `rdfs_next_entry`. -/
def rdfsNextEntry (m : Mem) (p : ℕ) : ℕ := p + deField m p .recLen

/-- What most functions end with : new times, and `RDFS_BTREE_FL` cleared. -/
def Inode.touch (inode : Inode) (now : ℕ) : Inode :=
  { inode with iMtime := now, iCtime := now, iFlags := inode.iFlags &&& (2 ^ 32 - 1 - 0x1000) }

/-- The loop of `rdfs_find_entry2`. -/
def rdfsFindLoop (m : Mem) (stop : ℕ) (name : List UInt8) (prev nde : ℕ) : Option (ℕ × ℕ) :=
  if nde < stop then
    if deField m nde .recLen = 0 then none
    else if rdfsMatch name m nde = true then some (nde, prev)
    else rdfsFindLoop m stop name nde (rdfsNextEntry m nde)
  else none
termination_by stop - nde
decreasing_by
  unfold rdfsNextEntry
  omega

/-- `rdfs_find_entry2` : the record and `*up_nde`. -/
def rdfsFindEntry2 (dir : Dir) (name : List UInt8) : Option (ℕ × ℕ) :=
  rdfsFindLoop dir.mem dir.inode.iSize name 0 0

/-- `rdfs_set_link` on the record at `de`. -/
def rdfsSetLink (dir : Dir) (de : ℕ) (inode : Inode) (updateTimes : Bool) (now : ℕ) : Dir where
  inode :=
    let touched := dir.inode.touch now
    if updateTimes = true then touched else { dir.inode with iFlags := touched.iFlags }
  mem := rdfsSetDeType (putDe dir.mem de .inode inode.iIno) de inode

/-! ## `rdfs_add_link` -/

/-- How the search of `rdfs_add_link` ends : at one of its two labels, or with an error. -/
inductive LinkSearch
  | needNewBlock (de : ℕ)
  | gotIt (de nameLen recLen : ℕ)
  | error (err : ℤ)
deriving DecidableEq, Repr

/-- The inner loop of the search : how it ends, or the first record behind `dirEnd`. -/
def scanWindow (m : Mem) (eaddr reclen : ℕ) (name : List UInt8) (dirEnd de : ℕ) : LinkSearch ⊕ ℕ :=
  if de ≤ dirEnd then
    if de = eaddr then .inl (.needNewBlock de)
    else if deField m de .recLen = 0 then .inl (.error (-eio))
    else if rdfsMatch name m de = true then .inl (.error (-eexist))
    else
      let nameLen := rdfsDirRecLen (deField m de .nameLen)
      let recLen := deField m de .recLen
      if deField m de .inode = 0 ∧ reclen ≤ recLen then .inl (.gotIt de nameLen recLen)
      else if nameLen + reclen ≤ recLen then .inl (.gotIt de nameLen recLen)
      else scanWindow m eaddr reclen name dirEnd (de + recLen)
  else .inr de
termination_by dirEnd + 1 - de

/-- The outer loop of the search, with `n` windows to go. -/
def scanWindows (m : Mem) (eaddr reclen : ℕ) (name : List UInt8) : ℕ → ℕ → LinkSearch
  | 0, _ => .error (-einval)
  | n + 1, de =>
    match scanWindow m eaddr reclen name (de + (4096 - reclen)) de with
    | .inl found => found
    | .inr de => scanWindows m eaddr reclen name n de

/-- A page of a directory : one of its blocks, or a page of its table. -/
inductive DirPart
  | block (k : ℕ)
  | table
deriving DecidableEq, Repr

/-- The directory has blocks, and the page is one of them or of the table that maps them. -/
def DirPart.Of (blocks : ℕ) : DirPart → Prop
  | block k => k < blocks
  | table => 0 < blocks

/-- What `rdfs_alloc_blocks` does for a directory : it enters a page that it has cleared, or fails
to enter it, when `i_blocks` counts it already. That `rdfs_new_block` finds no page is not looked
at. The page is then the one that `phys`, which nothing has set, happens to name : a page of the
directory itself (`own`), or one that has nothing to do with it. -/
inductive AllocOutcome
  | entered
  | notEntered
  | unset (own : Option DirPart) (entered : Bool)
deriving DecidableEq, Repr

namespace AllocOutcome

/-- What `rdfs_alloc_blocks` returns. -/
def ret : AllocOutcome → ℤ
  | .entered | .unset _ true => 0
  | .notEntered | .unset _ false => -1

theorem ret_eq : ∀ {alloc : AllocOutcome}, alloc.ret ≠ 0 → alloc.ret = -1
  | .entered, h | .unset _ true, h => absurd rfl h
  | .notEntered, _ | .unset _ false, _ => rfl

/-- The page of the directory that is cleared. -/
def own : AllocOutcome → Option DirPart
  | .unset own _ => own
  | _ => none

/-- The bytes of the directory once the page has been cleared, and entered behind its blocks. No
block is mapped any more when a page of the table has been cleared; there are zeros then. -/
def clear (alloc : AllocOutcome) (blocks : ℕ) (m : Mem) : Mem :=
  let m := match alloc.own with
    | some (.block k) => m.fill 4096 (4096 * k) 0
    | some .table => m.fill (4096 * blocks) 0 0
    | none => m
  if alloc.ret = 0 then m.fill 4096 (4096 * blocks) 0 else m

/-- What is written to the new page is written to the block that it is. -/
def shown (alloc : AllocOutcome) (blocks : ℕ) (m : Mem) : Mem :=
  match alloc.own with
  | some (.block k) => m.blit (4096 * k) (m.bytes 4096 (4096 * blocks))
  | _ => m

end AllocOutcome

/-- The new entry written to the record at `de`. -/
def writeEntry (m : Mem) (de : ℕ) (name : List UInt8) (inode : Inode) : Mem :=
  let m := putDe m de .nameLen name.length
  let m := m.blit (de + dirNameOffset) name
  rdfsSetDeType (putDe m de .inode inode.iIno) de inode

/-- `rdfs_add_link` from its label `got_it` on : a record in use is cut behind its name first. -/
def addLinkAt (dir : Dir) (de nameLen recLen : ℕ) (name : List UInt8) (inode : Inode)
    (now : ℕ) : Dir :=
  if deField dir.mem de .inode ≠ 0 then
    let de1 := de + nameLen
    let m := putDe (putDe dir.mem de1 .recLen (recLen - nameLen)) de .recLen nameLen
    { inode := dir.inode.touch now, mem := writeEntry m de1 name inode }
  else { inode := dir.inode.touch now, mem := writeEntry dir.mem de name inode }

/-- `rdfs_add_link` from its label `need_new_block` on. -/
def addLinkNewBlock (dir : Dir) (de : ℕ) (name : List UInt8) (inode : Inode) (alloc : AllocOutcome)
    (now : ℕ) : ℤ × Dir :=
  if dir.inode.iSize + 4096 ≤ maxDirSize then
    let grown := { dir.inode with
      iBlocks := dir.inode.iBlocks + 1, iSize := dir.inode.iSize + 4096 }
    let m := alloc.clear dir.inode.iBlocks dir.mem
    if alloc.ret ≠ 0 then (alloc.ret, ⟨grown, m⟩)
    else
      let m := putDe (putDe m de .recLen 4096) de .inode 0
      let new := addLinkAt ⟨grown, m⟩ de 0 4096 name inode now
      (0, { new with mem := alloc.shown dir.inode.iBlocks new.mem })
  else (-eio, dir)

/-- `rdfs_add_link` : the return value and the directory. -/
def rdfsAddLink (dir : Dir) (name : List UInt8) (inode : Inode) (alloc : AllocOutcome) (now : ℕ) :
    ℤ × Dir :=
  if dir.inode.iVirtAddr = 0 then (-enomem, dir)
  else
    let reclen := rdfsDirRecLen name.length
    let nrpages := dir.inode.iSize / 4096
    match scanWindows dir.mem dir.inode.iSize reclen name (nrpages + 1) 0 with
    | .needNewBlock de => addLinkNewBlock dir de name inode alloc now
    | .gotIt de nameLen recLen => (0, addLinkAt dir de nameLen recLen name inode now)
    | .error err => (err, dir)

/-! ## Removing entries and whole directories -/

/-- `rdfs_delete_entry` on the record at `de`, with the record before it; lengths have 16 bits. -/
def rdfsDeleteEntry (de prev : ℕ) (parent : Dir) (now : ℕ) : ℤ × Dir :=
  if deField parent.mem de .recLen = 0 then (-eio, parent)
  else
    let recLen := deField parent.mem de .recLen
    let m := putDe parent.mem de .inode 0
    let temp := (deField m prev .recLen + recLen) % 2 ^ 16
    (0, { inode := parent.inode.touch now, mem := putDe m prev .recLen temp })

/-- The two records `rdfs_make_empty` writes. -/
def writeDots (m : Mem) (inode parent : Inode) : Mem :=
  let m := putDe m 0 .nameLen 1
  let m := putDe m 0 .recLen (rdfsDirRecLen 1)
  let m := m.blit (0 + dirNameOffset) [46, 0, 0, 0]
  let m := rdfsSetDeType (putDe m 0 .inode (le32 inode.iIno)) 0 inode
  let de := rdfsDirRecLen 1
  let m := putDe m de .nameLen 2
  let m := putDe m de .recLen (4096 - rdfsDirRecLen 1)
  let m := putDe m de .inode (le32 parent.iIno)
  let m := m.blit (de + dirNameOffset) [46, 46, 0, 0]
  rdfsSetDeType m de inode

/-- `rdfs_make_empty` on a directory that `rdfs_establish_mapping` has been called for : what the
calls return, the return value and the directory. -/
def rdfsMakeEmpty (dir : Dir) (parent : Inode) (establish : ℤ) (alloc : AllocOutcome)
    (destroy : ℤ) : ℤ × Dir :=
  if establish ≠ 0 then (establish, dir)
  else if dir.inode.iSize = 0 then
    let grown := { dir.inode with iBlocks := dir.inode.iBlocks + 1, iSize := 4096 }
    let m := alloc.clear dir.inode.iBlocks dir.mem
    if alloc.ret ≠ 0 then (alloc.ret, ⟨grown, m⟩)
    else if dir.inode.iVirtAddr = 0 then (destroy, ⟨grown, m⟩)
    else (destroy, ⟨grown, alloc.shown dir.inode.iBlocks (writeDots m dir.inode parent)⟩)
  else (destroy, dir)

/-- `rdfs_dotdot`. -/
def rdfsDotdot (dir : Dir) : ℕ := rdfsNextEntry dir.mem 0

/-- The loop of `rdfs_empty_dir`. -/
def rdfsEmptyLoop (m : Mem) (ino size de : ℕ) : Bool :=
  if de + rdfsDirRecLen 1 ≤ size then
    if deField m de .recLen = 0 then false
    else if deField m de .inode ≠ 0 ∧ (m (de + dirNameOffset) ≠ 46 ∨ 2 < deField m de .nameLen ∨
        (if deField m de .nameLen < 2 then deField m de .inode ≠ le32 ino
          else m (de + dirNameOffset + 1) ≠ 46)) then false
    else rdfsEmptyLoop m ino size (rdfsNextEntry m de)
  else true
termination_by size - de
decreasing_by
  unfold rdfsNextEntry
  have : rdfsDirRecLen 1 = 16 := rfl
  omega

/-- `rdfs_empty_dir`. -/
def rdfsEmptyDir (dir : Dir) : Bool := rdfsEmptyLoop dir.mem dir.inode.iIno dir.inode.iSize 0

end Rdfs
