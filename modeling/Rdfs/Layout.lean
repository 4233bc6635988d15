import Rdfs.Bytes
import Rdfs.CStruct

/-!
# The NVM region of a mount

The master keeps its metadata in one region of non-volatile memory. `Super` is the part
of the mount that no operation changes : where the region is mapped and whether it is
split into two memory nodes at `rdfsNumaLine`. `Nvm` is the part every operation works
on : the bytes of the region, indexed by physical address, and the two node descriptors
with the heads and lengths of their free lists. `rdfsVa` and `rdfsPa` translate between
the physical addresses stored in the region and the pointers the code follows.

`inodeStruct` is `struct rdfs_inode` with the offsets of the 64-bit C layout. Its slots in
the inode table are `rdfsInodeSize` = 128 bytes apart, and `sizeof_inodeStruct` says that
the structure itself is 8 bytes longer.
-/

namespace Rdfs

/-! ## The mount -/

/-- `rdfs_NUMA_LINE`, the physical address where the second node begins. -/
def rdfsNumaLine : ℕ := 0x1880000000

/-- `NUMA_MASK`, the processors of the second node. -/
def numaMask : ℕ := 0xfc0fc0

/-- `sizeof(struct numa_des)`. -/
def sizeofNumaDes : ℕ := 128

/-- What a mount fixes : `phy_addr` and `virt_addr` of `struct rdfs_sb_info`, `s_numa_flag`
and `s_numa_des` of `struct rdfs_super_block`. Kernel addresses of the region lie above its
physical addresses. -/
structure Super where
  phyAddr : ℕ
  virtAddr : ℕ
  sNumaFlag : Bool
  sNumaDes : Fin 2 → ℕ
  phy_le_virt : phyAddr ≤ virtAddr

/-- `rdfs_va` : the pointer to a physical address of the region. -/
def rdfsVa (sb : Super) (phys : ℕ) : ℕ := phys + sb.virtAddr - sb.phyAddr

/-- `rdfs_pa` : the physical address a pointer into the region stands for. -/
def rdfsPa (sb : Super) (virt : ℕ) : ℕ := virt + sb.phyAddr - sb.virtAddr

@[simp] theorem rdfsPa_rdfsVa (sb : Super) (phys : ℕ) : rdfsPa sb (rdfsVa sb phys) = phys := by
  have := sb.phy_le_virt
  unfold rdfsPa rdfsVa
  omega

/-- The numerals of nodes. -/
instance neZero_two : NeZero 2 := ⟨Nat.succ_ne_zero 1⟩

/-- A region of one node at physical address 0. -/
def oneNode : Super where
  phyAddr := 0
  virtAddr := 0
  sNumaFlag := false
  sNumaDes _ := 0
  phy_le_virt := le_rfl

/-- A region of two nodes, the first at physical address 0. -/
def twoNodes : Super where
  phyAddr := 0
  virtAddr := 0
  sNumaFlag := true
  sNumaDes n := if n = 0 then 0 else rdfsNumaLine
  phy_le_virt := le_rfl

/-- `twoNodes` is no region of one node. -/
theorem twoNodes_single (h : twoNodes.sNumaFlag = false) : 2 = 0 := by cases h

/-- A signed value converted to an unsigned 64-bit one. -/
def u64 (z : ℤ) : ℕ := (z % 0x10000000000000000).toNat

theorem u64_natCast {n : ℕ} (h : n < 2 ^ 64) : u64 n = n := by
  unfold u64
  omega

theorem u64_neg_one : u64 (-1) = 2 ^ 64 - 1 := by
  unfold u64
  omega

/-- A value converted to an `int`. -/
def i32 (z : ℤ) : ℤ := (z + 0x80000000) % 0x100000000 - 0x80000000

theorem i32_eq {z : ℤ} (h : -2 ^ 31 ≤ z) (h' : z < 2 ^ 31) : i32 z = z := by
  unfold i32
  omega

/-- A value converted to a signed 64-bit one. -/
def i64 (z : ℤ) : ℤ := (z + 0x8000000000000000) % 0x10000000000000000 - 0x8000000000000000

theorem i64_natCast {n : ℕ} (h : n < 2 ^ 63) : i64 n = n := by
  unfold i64
  omega

/-! ## Node descriptors and the region -/

/-- The list heads and lengths of `struct numa_des`. -/
structure NumaDes where
  freeInodeCount : ℕ
  freePageCount : ℕ
  freeInodePhy : ℕ
  freePagePhy : ℕ
deriving DecidableEq, Repr, Inhabited

/-- The NVM region : its bytes by physical address, and the node descriptors. -/
structure Nvm where
  mem : Mem
  numaDes : Fin 2 → NumaDes

namespace Nvm

/-- The descriptor of node `n` replaced. -/
def setNuma (st : Nvm) (n : Fin 2) (d : NumaDes) : Nvm :=
  { st with numaDes := Function.update st.numaDes n d }

@[simp] theorem setNuma_mem (st : Nvm) (n : Fin 2) (d : NumaDes) : (st.setNuma n d).mem = st.mem :=
  rfl

@[simp] theorem setNuma_self (st : Nvm) (n : Fin 2) (d : NumaDes) :
    (st.setNuma n d).numaDes n = d := by
  simp [setNuma]

theorem setNuma_of_ne (st : Nvm) {n k : Fin 2} (d : NumaDes) (h : k ≠ n) :
    (st.setNuma n d).numaDes k = st.numaDes k := by
  simp [setNuma, h]

end Nvm

theorem node_cases (n : Fin 2) : n = 0 ∨ n = 1 := by
  revert n
  decide

/-- `rdfs_get_phys_numa_id` : the node a physical address belongs to. -/
def rdfsGetPhysNumaId (sb : Super) (phys : ℕ) : Fin 2 :=
  if sb.sNumaFlag = true ∧ rdfsNumaLine < phys then 1 else 0

/-- `get_cpu_numa` : the node of the processor the caller runs on. -/
def getCpuNuma (sb : Super) (cpu : ℕ) : Fin 2 :=
  if sb.sNumaFlag = true ∧ (1 <<< cpu) &&& numaMask ≠ 0 then 1 else 0

/-- `rdfs_get_numa_by_inode` : the node of a stored inode, given by its pointer. -/
def rdfsGetNumaByInode (sb : Super) (ni : ℕ) : Fin 2 := rdfsGetPhysNumaId sb (rdfsPa sb ni)

/-! ## `struct rdfs_inode` -/

/-- The fields of `struct rdfs_inode`. -/
inductive InodeField
  | iSum | iMode | iLinkCounts | iBytes | iFlags | iFileAcl | iDirAcl
  | iAtime | iCtime | iMtime | iDtime | iUid | iGid | iGeneration
  | iBlocks | iSize | iPgAddr
  | iAccessedCount | listPro | listNext
  | iHotPageNum | iColdDram | iHotDram | iColdPageStart | iColdPageNum
deriving DecidableEq, Repr

/-- The size of a field : `__u8`, `__le64` and pointers, `__le32`. -/
def InodeField.size : InodeField → ℕ
  | .iHotPageNum => 1
  | .iBlocks | .iSize | .iPgAddr | .iAccessedCount | .listPro | .listNext => 8
  | .iColdDram | .iHotDram => 8
  | _ => 4

/-- `struct rdfs_inode` in declaration order. -/
def inodeStruct : CStruct InodeField where
  fields := [.iSum, .iMode, .iLinkCounts, .iBytes, .iFlags, .iFileAcl, .iDirAcl,
    .iAtime, .iCtime, .iMtime, .iDtime, .iUid, .iGid, .iGeneration,
    .iBlocks, .iSize, .iPgAddr, .iAccessedCount, .listPro, .listNext,
    .iHotPageNum, .iColdDram, .iHotDram, .iColdPageStart, .iColdPageNum]
  size := InodeField.size
  size_pos f := by cases f <;> decide

/-- `RDFS_INODE_SIZE`, the distance between inode slots. -/
def rdfsInodeSize : ℕ := 128

theorem mem_inodeStruct_fields (f : InodeField) : f ∈ inodeStruct.fields := by
  cases f <;> decide

theorem offset_iPgAddr : inodeStruct.offset .iPgAddr = 72 := by decide

/-- The structure is eight bytes longer than its slot. -/
theorem sizeof_inodeStruct : inodeStruct.sizeof = rdfsInodeSize + 8 := by decide

/-- The two last fields are the ones that lie past the slot. -/
theorem offset_lt_rdfsInodeSize_iff (f : InodeField) :
    inodeStruct.offset f + inodeStruct.size f ≤ rdfsInodeSize ↔
      f ≠ .iColdPageStart ∧ f ≠ .iColdPageNum := by
  cases f <;> decide

/-- Writes to other fields stay in the slot. -/
theorem sameOff_putFields_slot (m : Mem) (p : ℕ) (ws : List (InodeField × ℕ))
    (h : ∀ w ∈ ws, w.1 ≠ .iColdPageStart ∧ w.1 ≠ .iColdPageNum) :
    Mem.SameOff m (inodeStruct.putFields m p ws) 128 p :=
  inodeStruct.sameOff_putFields p ws m fun w hw => (offset_lt_rdfsInodeSize_iff w.1).2 (h w hw)

end Rdfs
