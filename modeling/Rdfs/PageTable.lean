import Rdfs.Balloc
import Rdfs.InodeTable

/-!
# Page tables of inodes

`pgtable.c` keeps for every inode a three-level table of its blocks, in pages of the region
itself : `i_pg_addr` is the page of level `pud`, whose entries are the pages of level `pmd`,
whose entries are the pages of level `pte`, whose entries are the blocks in order. An entry is
the address of a page with flag bits in the low 12 bits (and bit 63), and zero when empty.

The functions of this module work on the region alone. `rdfsInitPgTable` builds the empty
table, `rdfsPudAlloc`, `rdfsPmdAlloc` and `rdfsPteAlloc` find the entry of a block, level by
level, and `rdfsRmPgTable` frees a table with everything its entries point to.
-/

namespace Rdfs

/-! ## Entries -/

/-- `_PAGE_TABLE`, the flags of an entry for a table page. -/
def pageTable : ℕ := 0x67

/-- `__PAGE_KERNEL`, the flags of an entry for a block. -/
def pageKernel : ℕ := 0x8000000000000163

/-- `PAGE_MASK`. -/
def pageMask : ℕ := 0xfffffffffffff000

/-- The mask `rdfs_get_phy_from_pte` and its siblings apply. -/
def physMask : ℕ := 0x7ffffffffffff000

/-- `RDFS_START`, where the virtual areas of directories begin. -/
def rdfsStart : ℕ := 0xffffcb0000000000

/-- `RDFS_END`, where the virtual areas of regular files end. -/
def rdfsEnd : ℕ := 0xffffe8ffffffffff

/-- `DIR_AREA_SIZE`. -/
def dirAreaSize : ℕ := 2 ^ 35

/-- `MAX_DIR_SIZE`, the size of the virtual area of a directory. -/
def maxDirSize : ℕ := 2 ^ 21

/-- `MAX_FILE_SIZE`, the size of the virtual area of a regular file. -/
def maxFileSize : ℕ := 2 ^ 35

/-- The address lies in the virtual areas of directories. -/
def InDirArea (addr : ℕ) : Prop :=
  rdfsStart ≤ addr ∧ addr + maxDirSize - 1 < rdfsStart + dirAreaSize

instance (addr : ℕ) : Decidable (InDirArea addr) := inferInstanceAs (Decidable (_ ∧ _))

/-- `rdfs_set_pte`. -/
def rdfsSetPte (sb : Super) (m : Mem) (pte phys : ℕ) : Mem :=
  m.store 8 (rdfsPa sb pte) (phys ||| pageKernel)

/-- `rdfs_set_pmd`. -/
def rdfsSetPmd (sb : Super) (m : Mem) (pmd pte : ℕ) : Mem :=
  m.store 8 (rdfsPa sb pmd) (rdfsPa sb pte ||| pageTable)

/-- `rdfs_set_pud`. -/
def rdfsSetPud (sb : Super) (m : Mem) (pud pmd : ℕ) : Mem :=
  m.store 8 (rdfsPa sb pud) (rdfsPa sb pmd ||| pageTable)

/-- `rdfs_get_pud` : the table of an inode, `NULL` if it has none. -/
def rdfsGetPud (sb : Super) (m : Mem) (ino : ℕ) : ℕ :=
  let a := inodeStruct.getField m (getRdfsInodePhyAddr sb ino) .iPgAddr
  if a = 0 then 0 else rdfsVa sb a

/-- `rdfs_get_pmd`. -/
def rdfsGetPmd (sb : Super) (m : Mem) (pud : ℕ) : ℕ := rdfsVa sb (deref sb m pud &&& pageMask)

/-- `rdfs_get_pte`. -/
def rdfsGetPte (sb : Super) (m : Mem) (pmd : ℕ) : ℕ := rdfsVa sb (deref sb m pmd &&& pageMask)

/-- `pmd_index`. -/
def pmdIndex (addr : ℕ) : ℕ := addr >>> 21 &&& 511

/-- `pte_index`. -/
def pteIndex (addr : ℕ) : ℕ := addr >>> 12 &&& 511

/-- `pud_present`. -/
def pudPresent (e : ℕ) : Bool := e &&& 1 != 0

/-- `pmd_present`. -/
def pmdPresent (e : ℕ) : Bool := e &&& 0x181 != 0

/-! ## Building tables -/

/-- `rdfs_get_zeroed_page` : a cleared page, `NULL` if there is none. -/
def rdfsGetZeroedPage (sb : Super) (cpu : ℕ) (st : Nvm) : ℕ × Nvm :=
  let r := rdfsNewBlock sb cpu st 0 1 none
  let physaddr := r.2.1
  if physaddr ≠ 0 then
    (rdfsVa sb physaddr, { r.2.2 with mem := r.2.2.mem.fill 4096 physaddr 0 })
  else (0, r.2.2)

/-- `__rdfs_pmd_alloc` and `__rdfs_pte_alloc`, which differ in the test whether the entry has
been filled in the meantime : a cleared page for an empty entry of a table. -/
def tableAlloc (present : ℕ → Bool) (sb : Super) (cpu : ℕ) (st : Nvm) (entry : ℕ) : ℤ × Nvm :=
  let new := rdfsGetZeroedPage sb cpu st
  if new.1 = 0 then (-12, new.2)
  else if present (deref sb new.2.mem entry) then (0, rdfsFreeBlock sb new.2 (rdfsPa sb new.1))
  else (0, { new.2 with mem := rdfsSetPmd sb new.2.mem entry new.1 })

/-- `rdfs_pmd_alloc` outside the directory area and `rdfs_pte_alloc` : the slot `index` of the
page an entry of a table points to, with a new page if the entry is empty, `NULL` if there is
none. -/
def entryAlloc (present : ℕ → Bool) (sb : Super) (cpu : ℕ) (st : Nvm) (entry index : ℕ) :
    ℕ × Nvm :=
  let r := if deref sb st.mem entry = 0 then tableAlloc present sb cpu st entry else (0, st)
  if r.1 ≠ 0 then (0, r.2)
  else (rdfsVa sb (deref sb r.2.mem entry &&& physMask) + 8 * index, r.2)

/-- `rdfs_pmd_alloc`. -/
def rdfsPmdAlloc (sb : Super) (cpu : ℕ) (st : Nvm) (pud addr : ℕ) : ℕ × Nvm :=
  if InDirArea addr then (rdfsGetPmd sb st.mem pud, st)
  else entryAlloc pudPresent sb cpu st pud (pmdIndex addr)

/-- `rdfs_pte_alloc`. -/
def rdfsPteAlloc (sb : Super) (cpu : ℕ) (st : Nvm) (pmd addr : ℕ) : ℕ × Nvm :=
  entryAlloc pmdPresent sb cpu st pmd (pteIndex addr)

/-- `PGFAILD`. -/
def pgFaild : ℤ := 0x10003

/-- `rdfs_init_pg_table` : an empty table for an inode. -/
def rdfsInitPgTable (sb : Super) (cpu : ℕ) (st : Nvm) (ino : ℕ) : ℤ × Nvm :=
  let ni := getRdfsInodePhyAddr sb ino
  let pud := rdfsGetZeroedPage sb cpu st
  let pmd := rdfsGetZeroedPage sb cpu pud.2
  let pte := rdfsGetZeroedPage sb cpu pmd.2
  if pud.1 = 0 ∨ pmd.1 = 0 ∨ pte.1 = 0 then (-pgFaild, pte.2)
  else
    let m := rdfsSetPmd sb pte.2.mem pmd.1 pte.1
    let m := rdfsSetPud sb m pud.1 pmd.1
    (0, { pte.2 with mem := inodeStruct.putField m ni .iPgAddr (rdfsPa sb pud.1) })

/-- `rdfs_pud_alloc` : the entry for the gigabyte at `offset`, whose number is an `int`. -/
def rdfsPudAlloc (sb : Super) (m : Mem) (ino offset : ℕ) : ℕ :=
  rdfsGetPud sb m ino + 8 * (i32 (offset >>> 30 : ℕ)).toNat

/-! ## Removing tables -/

/-- `rdfs_get_phy_from_pte`. -/
def rdfsGetPhyFromPte (sb : Super) (m : Mem) (pte : ℕ) : ℕ := deref sb m pte &&& physMask

/-- `pte_is_sn` : the entry is a block of a disk. -/
def pteIsSn (sb : Super) (m : Mem) (pte : ℕ) : Bool := deref sb m pte &&& 0xfff == 0

/-- The loops of `rdfs_rm_pte_range`, `rdfs_rm_pmd_range` and `rdfs_rm_pg_table` : `rm` at the
entries of a table up to the first empty one, with `cnt` entries to go at most. -/
def rmLoop (sb : Super) (rm : Nvm → ℕ → Nvm) : ℕ → ℕ → Nvm → Nvm
  | 0, _, st => st
  | cnt + 1, entry, st =>
    if deref sb st.mem entry = 0 then st else rmLoop sb rm cnt (entry + 8) (rm st entry)

/-- What `rdfs_rm_pte_range` does with an entry. Disk blocks go back to their device, which is
not part of the region. -/
def rmPte (sb : Super) (st : Nvm) (pte : ℕ) : Nvm :=
  if pteIsSn sb st.mem pte then st
  else rdfsFreeBlock sb st (rdfsGetPhyFromPte sb st.mem pte)

/-- `rdfs_rm_pte_range`. -/
def rdfsRmPteRange (sb : Super) (st : Nvm) (pmd : ℕ) : Nvm :=
  let p := rdfsGetPte sb st.mem pmd
  rdfsFreeBlock sb (rmLoop sb (rmPte sb) 512 p st) (rdfsPa sb p)

/-- `rdfs_rm_pmd_range`. -/
def rdfsRmPmdRange (sb : Super) (st : Nvm) (pud : ℕ) : Nvm :=
  let p := rdfsGetPmd sb st.mem pud
  rdfsFreeBlock sb (rmLoop sb (rdfsRmPteRange sb) 512 p st) (rdfsPa sb p)

/-- `rdfs_rm_pg_table`. -/
def rdfsRmPgTable (sb : Super) (st : Nvm) (ino : ℕ) : Nvm :=
  let p := rdfsGetPud sb st.mem ino
  let st := rdfsFreeBlock sb (rmLoop sb (rdfsRmPmdRange sb) 512 p st) (rdfsPa sb p)
  { st with mem := inodeStruct.putField st.mem (getRdfsInodePhyAddr sb ino) .iPgAddr 0 }

end Rdfs
