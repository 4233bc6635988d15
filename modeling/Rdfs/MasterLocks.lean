import Rdfs.AllocBlocks
import Rdfs.DiskPool
import Rdfs.InodeImage
import Rdfs.LockOrder
import Rdfs.Nvmalloc

/-!
# The spinlocks of the master

For every function of the master that takes a spinlock, the trace of the locks it takes and gives
back on each of its branches (`MasterOp.locks`). The values a branch depends on are inputs of the
call. A trace is that of a call which returns : a branch that follows a null pointer is not one.

Two functions do not give back what they take. `rdfs_read_inode` jumps over its `spin_unlock` when
the checksum does not fit or the inode is a deleted one, and `rdfs_free_slave_bitmap_memory` has
no `spin_unlock`, which `rdfs_free_file_used_bitmap` inherits from it. All other functions keep
the locks held as they are on every branch, and a run that avoids these branches ends with no
lock held (`masterLocks_iff`).

Sections stand inside others in four places : `rdfs_new_inode` calls `rdfs_write_inode` with the
lock of the node held, the block device and the reserve are locked inside the pool of the
processor, and pages are taken and given back inside pools and ptes. In all of them the locks come
in the order of `Lock.rank`, so threads that call the functions at the same time never wait for
each other in a circle (`masterThreads_iff`).
-/

namespace Rdfs

open List

/-! ## The code -/

/-- The spinlocks : two of the inodes, those of the nodes, pools and block devices, `list_lock`,
those of the page tables, slaves, files and groups, of the ptes, of the tasks, and of the request
numbers. -/
inductive Lock
  | readInode
  | updateInode
  | inode (n : Fin 2)
  | freeList (n : Fin 2)
  | pool (bdev : ℕ) (cpu : Fin (cpuNr + 1))
  | bdev (bdev : ℕ)
  | list
  | pageTable (mm : ℕ)
  | slaveFreeList (s : ℕ)
  | usedBitmapList (riInfo : ℕ)
  | bitmap (preBitmap : ℕ)
  | pte
  | taskList
  | reqId (s : ℕ)
deriving DecidableEq, Repr

/-- The locks taken and given back by a call. -/
abbrev LockTrace := List (LockOp Lock)

/-- A call of `rdfs_new_block` : the node, `free_page_count` at the first test and, with the lock
held, at the second, and `num`. -/
structure PageCall where
  node : Fin 2
  freePageCount : ℕ
  lockedCount : ℕ
  num : ℤ

/-- `rdfs_new_block`. -/
def rdfsNewBlockLocks (c : PageCall) : LockTrace :=
  if c.freePageCount < u64 c.num then []
  else .lock (.freeList c.node) ::
    if c.lockedCount < u64 c.num then [.unlock (.freeList c.node)]
    else [.unlock (.freeList c.node)]

/-- `rdfs_free_block` of a page of the node. -/
def rdfsFreeBlockLocks (n : Fin 2) : LockTrace := [.lock (.freeList n), .unlock (.freeList n)]

/-- A page is allocated or freed. -/
inductive PageOp
  | new (c : PageCall)
  | free (n : Fin 2)

/-- `rdfs_new_block` or `rdfs_free_block`. -/
def PageOp.locks : PageOp → LockTrace
  | .new c => rdfsNewBlockLocks c
  | .free n => rdfsFreeBlockLocks n

/-- `rdfs_pre_free_list`; the pages of node `i` are `freeCount i`. -/
def rdfsPreFreeListLocks (freeCount : Fin 2 → ℕ) : LockTrace :=
  [0, 1].flatMap fun i =>
    if freeCount i ≠ 0 then [.lock (.freeList i), .unlock (.freeList i)] else []

/-- `rdfs_read_inode`. -/
def rdfsReadInodeLocks (sb : Super) (m : Mem) (ni : ℕ) : LockTrace :=
  let get := inodeStruct.getField m (rdfsPa sb ni)
  .lock .readInode ::
    if rdfsCalcChecksum m (rdfsPa sb ni) rdfsInodeSize ≠ 0 then []
    else if get .iLinkCounts = 0 ∧ (get .iMode % 2 ^ 16 = 0 ∨ get .iDtime ≠ 0) then []
    else [.unlock .readInode]

/-- `rdfs_update_inode`; `get_rdfs_inode` may give `NULL`. -/
def rdfsUpdateInodeLocks (ni : Option ℕ) : LockTrace :=
  if ni = none then [] else [.lock .updateInode, .unlock .updateInode]

/-- `rdfs_free_inode` of an inode of the node. -/
def rdfsFreeInodeLocks (n : Fin 2) : LockTrace := [.lock (.inode n), .unlock (.inode n)]

/-- A call of `rdfs_new_inode` : the inode of the kernel, the node and its free slots, the inode
of the directory, what the steps return, and the pages of the new page table. `ni` is the slot that
`rdfs_write_inode` finds for the new inode. -/
structure NewInodeCall where
  inode : Option ℕ
  node : Fin 2
  freeInodeCount : ℕ
  diri : Option ℕ
  insertInodeLocked : ℤ
  ni : Option ℕ
  initAcl : ℤ
  initSecurity : ℤ
  pgTable : List PageOp

/-- `rdfs_new_inode`, up to the `iput` of an inode that could not be made. `rdfs_write_inode` is
`rdfs_update_inode`, which fails without a slot. -/
def rdfsNewInodeLocks (c : NewInodeCall) : LockTrace :=
  let fail1 : LockTrace := [.unlock (.inode c.node)]
  let fail2 : LockTrace := [.unlock (.inode c.node)]
  if c.inode = none then []
  else .lock (.inode c.node) ::
    if c.freeInodeCount = 0 then fail1
    else if c.diri = none then fail1
    else if c.insertInodeLocked < 0 then fail1
    else rdfsUpdateInodeLocks c.ni ++
      if c.ni = none then fail2
      else if c.initAcl ≠ 0 then fail2
      else if c.initSecurity ≠ 0 then fail2
      else .unlock (.inode c.node) :: c.pgTable.flatMap PageOp.locks

/-- `__rdfs_alloc_a_disk_block` from device `b`. -/
def rdfsAllocADiskBlockLocks (b : ℕ) (cpu : Fin cpuNr) (d : BdevDes) : LockTrace :=
  .lock (.pool b (poolOf cpu)) ::
    if (d.blockPool (poolOf cpu)).post = 0 then
      .lock (.bdev b) ::
        if (d.blockPool reserved).post = 0 then
          if d.start = d.stop then [.unlock (.bdev b), .unlock (.pool b (poolOf cpu))]
          else [.unlock (.bdev b), .unlock (.pool b (poolOf cpu))]
        else [.unlock (.bdev b), .unlock (.pool b (poolOf cpu))]
    else [.unlock (.pool b (poolOf cpu))]

/-- `free_into_pool`; `pages` are the pages `bdev_insert_a_page` takes and gives back. -/
def freeIntoPoolLocks (pool : BlockPool) (pages : List PageOp) : LockTrace :=
  if pool.capacity ≤ pool.post then pages.flatMap PageOp.locks else []

/-- `__rdfs_free_a_disk_block` to device `b`. -/
def rdfsFreeADiskBlockLocks (b : ℕ) (cpu : Fin cpuNr) (d : BdevDes) (pages : List PageOp) :
    LockTrace :=
  let pool := d.blockPool (poolOf cpu)
  .lock (.pool b (poolOf cpu)) ::
    ((if pool.post = pool.capacity then
        .lock (.pool b reserved) ::
          (freeIntoPoolLocks (d.blockPool reserved) pages ++ [.unlock (.pool b reserved)])
      else freeIntoPoolLocks pool pages) ++
    [.unlock (.pool b (poolOf cpu))])

/-- `nvmalloc`. -/
def nvmallocLocks (mode : ℤ) (l : NvmLists) : LockTrace :=
  .lock .list ::
    if mode = 0 ∨ mode = 1 then
      if 0 < (l.lists (if mode = 0 then 0 else 1)).freeCnt then [.unlock .list]
      else [.unlock .list]
    else [.unlock .list]

/-- `nvfree`. -/
def nvfreeLocks (l : NvmLists) (addr : ℕ) : LockTrace :=
  if addr = 0 then []
  else .lock .list ::
    match nvfreeMode addr with
    | none => [.unlock .list]
    | some i =>
      let used := (l.lists i).usedList
      if used = addr then [.unlock .list]
      else match findPre l.next addr areaCount used (l.next used) with
        | none => [.unlock .list]
        | some _ => [.unlock .list]

/-- `nvmap_dir`. -/
def nvmapDirLocks (mm : ℕ) : LockTrace := [.lock (.pageTable mm), .unlock (.pageTable mm)]

/-- The loop of `nvmap_file`; `puds` says for each round if `pud_alloc` gives an entry. -/
def nvmapFileLoopLocks (mm : ℕ) : List Bool → LockTrace
  | [] => []
  | pud :: puds =>
    if pud then .lock (.pageTable mm) :: .unlock (.pageTable mm) :: nvmapFileLoopLocks mm puds
    else []

/-- `nvmap_file`. -/
def nvmapFileLocks (mm addr ppud : ℕ) (puds : List Bool) : LockTrace :=
  if addr = 0 ∨ ppud = 0 then [] else nvmapFileLoopLocks mm puds

/-- `rdfs_free_slave_memory_bitmap_list` of slave `s`. -/
def rdfsFreeSlaveMemoryBitmapListLocks (s : ℕ) : LockTrace :=
  [.lock (.slaveFreeList s), .unlock (.slaveFreeList s)]

/-- `rdfs_alloc_slave_memory_bitmap` from slave `s`. -/
def rdfsAllocSlaveMemoryBitmapLocks (s : ℕ) (info : SlaveInfo) : LockTrace :=
  if info.freeBlockNums = 0 ∨ info.bitmapHead = [] then []
  else [.lock (.slaveFreeList s), .unlock (.slaveFreeList s)]

/-- `rdfs_free_slave_memoryt_bitmap` to slave `s`. -/
def rdfsFreeSlaveMemorytBitmapLocks (s : ℕ) : LockTrace :=
  [.lock (.slaveFreeList s), .unlock (.slaveFreeList s)]

/-- A fresh group from the selected slave. -/
def newGroupLocks (slaves : SlaveInfos) : LockTrace :=
  rdfsAllocSlaveMemoryBitmapLocks rdfsSelectSlave (slaves rdfsSelectSlave)

/-- `rdfs_alloc_slave_bitmap_memory`; `ri_info` may be `NULL`. A group just taken has index 0. -/
def rdfsAllocSlaveBitmapMemoryLocks (slaves : SlaveInfos) : Option BitmapInfo → LockTrace
  | none => []
  | some ri =>
    match ri.preBitmap with
    | none => newGroupLocks slaves
    | some pre => if pre.preIndex = 64 then newGroupLocks slaves else []

/-- Where pointers lead : `pre_bitmap` of what is passed as a `struct rdfs_inode_info`, and
`&slave_infos[s]`. -/
structure BitmapPointers where
  preBitmap : ℕ → ℕ
  slaveInfo : ℕ → ℕ

/-- `rdfs_free_slave_bitmap_memory`; `ri_info` may be `NULL`. -/
def rdfsFreeSlaveBitmapMemoryLocks (p : BitmapPointers) : Option ℕ → LockTrace
  | none => []
  | some riInfo => [.lock (.bitmap (p.preBitmap riInfo))]

/-- `rdfs_free_file_used_bitmap` of a file with the current group `pre`. It passes the slave where
the inode is expected. -/
def rdfsFreeFileUsedBitmapLocks (p : BitmapPointers) (riInfo : ℕ) (used : List MemBitmapBlock)
    (pre : PreAllocBitmap) : LockTrace :=
  (if used = [] then []
    else .lock (.usedBitmapList riInfo) ::
      (used.flatMap (fun tmp =>
          rdfsFreeSlaveBitmapMemoryLocks p (some (p.slaveInfo tmp.slaveId))) ++
        [.unlock (.usedBitmapList riInfo)])) ++
  if pre.preIndex = 0 then
    rdfsFreeSlaveBitmapMemoryLocks p (some (p.slaveInfo (u64 pre.preAllocSlaveId)))
  else []

/-- `rdfs_init_pte_free_list`. -/
def rdfsInitPteFreeListLocks (c : PageCall) : LockTrace := rdfsNewBlockLocks c

/-- `rdfs_free_pte_free_list`; `pages` are the nodes of the pages. -/
def rdfsFreePteFreeListLocks (pages : List (Fin 2)) : LockTrace :=
  .lock .pte :: (pages.flatMap rdfsFreeBlockLocks ++ [.unlock .pte])

/-- `rdfs_new_pte`. -/
def rdfsNewPteLocks (freePteNums : ℤ) (slaves : SlaveInfos) (riInfo : Option BitmapInfo) :
    LockTrace :=
  if freePteNums < 1 then []
  else .lock .pte :: .unlock .pte :: rdfsAllocSlaveBitmapMemoryLocks slaves riInfo

/-- `rdfs_free_pte`. -/
def rdfsFreePteLocks : LockTrace := [.lock .pte, .unlock .pte]

/-- `rdfs_new_page_pte`. -/
def rdfsNewPagePteLocks (pteCnt : ℕ) (c : PageCall) (slaves : SlaveInfos)
    (riInfo : Option BitmapInfo) : LockTrace :=
  (if pteCnt = pagePteNums then rdfsNewBlockLocks c else []) ++
    rdfsAllocSlaveBitmapMemoryLocks slaves riInfo

/-- `rdfs_add_task`. -/
def rdfsAddTaskLocks : LockTrace := [.lock .taskList, .unlock .taskList]

/-- `rdfs_remove_task`; the list may be `NULL`. -/
def rdfsRemoveTaskLocks (taskList : Option ℕ) : LockTrace :=
  .lock .taskList :: if taskList = none then [.unlock .taskList] else [.unlock .taskList]

/-- `rdfs_rdma_block_rw` to slave `s`. -/
def rdfsRdmaBlockRwLocks (s : ℕ) : LockTrace := [.lock (.reqId s), .unlock (.reqId s)]

/-- A call of a function of the master that takes a spinlock. -/
inductive MasterOp
  | readInode (sb : Super) (m : Mem) (ni : ℕ)
  | updateInode (ni : Option ℕ)
  | newInode (c : NewInodeCall)
  | freeInode (n : Fin 2)
  | page (o : PageOp)
  | preFreeList (freeCount : Fin 2 → ℕ)
  | allocADiskBlock (b : ℕ) (cpu : Fin cpuNr) (d : BdevDes)
  | freeADiskBlock (b : ℕ) (cpu : Fin cpuNr) (d : BdevDes) (pages : List PageOp)
  | nvmalloc (mode : ℤ) (l : NvmLists)
  | nvfree (l : NvmLists) (addr : ℕ)
  | nvmapDir (mm : ℕ)
  | nvmapFile (mm addr ppud : ℕ) (puds : List Bool)
  | freeSlaveMemoryBitmapList (s : ℕ)
  | allocSlaveMemoryBitmap (s : ℕ) (info : SlaveInfo)
  | freeSlaveMemorytBitmap (s : ℕ)
  | allocSlaveBitmapMemory (slaves : SlaveInfos) (riInfo : Option BitmapInfo)
  | freeSlaveBitmapMemory (p : BitmapPointers) (riInfo : Option ℕ)
  | freeFileUsedBitmap (p : BitmapPointers) (riInfo : ℕ) (used : List MemBitmapBlock)
      (pre : PreAllocBitmap)
  | initPteFreeList (c : PageCall)
  | freePteFreeList (pages : List (Fin 2))
  | newPte (freePteNums : ℤ) (slaves : SlaveInfos) (riInfo : Option BitmapInfo)
  | freePte
  | newPagePte (pteCnt : ℕ) (c : PageCall) (slaves : SlaveInfos) (riInfo : Option BitmapInfo)
  | addTask
  | removeTask (taskList : Option ℕ)
  | rdmaBlockRw (s : ℕ)

/-- The locks a call takes and gives back. -/
def MasterOp.locks : MasterOp → LockTrace
  | .readInode sb m ni => rdfsReadInodeLocks sb m ni
  | .updateInode ni => rdfsUpdateInodeLocks ni
  | .newInode c => rdfsNewInodeLocks c
  | .freeInode n => rdfsFreeInodeLocks n
  | .page o => o.locks
  | .preFreeList freeCount => rdfsPreFreeListLocks freeCount
  | .allocADiskBlock b cpu d => rdfsAllocADiskBlockLocks b cpu d
  | .freeADiskBlock b cpu d pages => rdfsFreeADiskBlockLocks b cpu d pages
  | .nvmalloc mode l => nvmallocLocks mode l
  | .nvfree l addr => nvfreeLocks l addr
  | .nvmapDir mm => nvmapDirLocks mm
  | .nvmapFile mm addr ppud puds => nvmapFileLocks mm addr ppud puds
  | .freeSlaveMemoryBitmapList s => rdfsFreeSlaveMemoryBitmapListLocks s
  | .allocSlaveMemoryBitmap s info => rdfsAllocSlaveMemoryBitmapLocks s info
  | .freeSlaveMemorytBitmap s => rdfsFreeSlaveMemorytBitmapLocks s
  | .allocSlaveBitmapMemory slaves riInfo => rdfsAllocSlaveBitmapMemoryLocks slaves riInfo
  | .freeSlaveBitmapMemory p riInfo => rdfsFreeSlaveBitmapMemoryLocks p riInfo
  | .freeFileUsedBitmap p riInfo used pre => rdfsFreeFileUsedBitmapLocks p riInfo used pre
  | .initPteFreeList c => rdfsInitPteFreeListLocks c
  | .freePteFreeList pages => rdfsFreePteFreeListLocks pages
  | .newPte freePteNums slaves riInfo => rdfsNewPteLocks freePteNums slaves riInfo
  | .freePte => rdfsFreePteLocks
  | .newPagePte pteCnt c slaves riInfo => rdfsNewPagePteLocks pteCnt c slaves riInfo
  | .addTask => rdfsAddTaskLocks
  | .removeTask taskList => rdfsRemoveTaskLocks taskList
  | .rdmaBlockRw s => rdfsRdmaBlockRwLocks s

/-! ## The branches that leave a lock -/

/-- The image of an inode has the right checksum and is not that of a deleted inode. -/
def ReadableInode (sb : Super) (m : Mem) (ni : ℕ) : Prop :=
  let get := inodeStruct.getField m (rdfsPa sb ni)
  rdfsCalcChecksum m (rdfsPa sb ni) rdfsInodeSize = 0 ∧
    ¬(get .iLinkCounts = 0 ∧ (get .iMode % 2 ^ 16 = 0 ∨ get .iDtime ≠ 0))

variable {sb : Super} {m : Mem} {ni : ℕ}

/-- An inode is read if its image is readable. -/
theorem exists_rdfsReadInode_iff {inode : Inode} :
    (∃ out, rdfsReadInode sb m inode ni = .ok out) ↔ ReadableInode sb m ni := by
  have herr : ∀ e : ℤ, ¬∃ out : Inode, (Except.error e : Except ℤ Inode) = .ok out := by
    rintro e ⟨out, h⟩
    cases h
  rw [rdfsReadInode]
  by_cases hsum : rdfsCalcChecksum m (rdfsPa sb ni) rdfsInodeSize = 0
  · rw [if_neg (not_not.2 hsum)]
    by_cases hdel : inodeStruct.getField m (rdfsPa sb ni) .iLinkCounts = 0 ∧
        (inodeStruct.getField m (rdfsPa sb ni) .iMode % 2 ^ 16 = 0 ∨
          inodeStruct.getField m (rdfsPa sb ni) .iDtime ≠ 0)
    · rw [if_pos hdel]
      exact iff_of_false (herr _) fun h => h.2 hdel
    · rw [if_neg hdel]
      exact iff_of_true ⟨_, rfl⟩ ⟨hsum, hdel⟩
  · rw [if_pos hsum]
    exact iff_of_false (herr _) fun h => hsum h.1

/-- A call does not take a branch that leaves a lock. -/
def MasterOp.GivesBack : MasterOp → Prop
  | .readInode sb m ni => ReadableInode sb m ni
  | .freeSlaveBitmapMemory _ riInfo => riInfo = none
  | .freeFileUsedBitmap _ _ used pre => used = [] ∧ pre.preIndex ≠ 0
  | _ => True

theorem rdfsReadInodeLocks_of_readable (h : ReadableInode sb m ni) :
    rdfsReadInodeLocks sb m ni = [.lock .readInode, .unlock .readInode] := by
  rw [rdfsReadInodeLocks, if_neg (not_not.2 h.1), if_neg h.2]

theorem rdfsReadInodeLocks_of_not_readable (h : ¬ ReadableInode sb m ni) :
    rdfsReadInodeLocks sb m ni = [.lock .readInode] := by
  rw [rdfsReadInodeLocks]
  by_cases hsum : rdfsCalcChecksum m (rdfsPa sb ni) rdfsInodeSize = 0
  · rw [if_neg (not_not.2 hsum), if_pos (not_not.1 fun hdel => h ⟨hsum, hdel⟩)]
  · rw [if_pos hsum]

theorem leaves_freeSlaveBitmapMemory (p : BitmapPointers) (riInfo : ℕ) :
    Leaves (rdfsFreeSlaveBitmapMemoryLocks p (some riInfo)) :=
  Leaves.lock _

/-- The first group of the list leaves a lock, and the others take no lock back. -/
theorem leaves_used (p : BitmapPointers) : ∀ {used : List MemBitmapBlock}, used ≠ [] →
    Leaves (used.flatMap fun tmp =>
      rdfsFreeSlaveBitmapMemoryLocks p (some (p.slaveInfo tmp.slaveId)))
  | [], h => absurd rfl h
  | [_], _ => Leaves.lock _
  | _ :: tmp :: used, _ =>
    (leaves_freeSlaveBitmapMemory p _).append_left (leaves_used p (cons_ne_nil tmp used)).onlyAdds

theorem leaves_freeFileUsedBitmap (p : BitmapPointers) (riInfo : ℕ) {used : List MemBitmapBlock}
    {pre : PreAllocBitmap} (h : ¬(used = [] ∧ pre.preIndex ≠ 0)) :
    Leaves (rdfsFreeFileUsedBitmapLocks p riInfo used pre) := by
  unfold rdfsFreeFileUsedBitmapLocks
  by_cases hpre : pre.preIndex = 0
  · rw [if_pos hpre]
    refine Leaves.append_right ?_ (leaves_freeSlaveBitmapMemory p _)
    split_ifs with hused
    · exact Bracketed.nil.onlyAdds
    · exact (leaves_used p hused).hold.onlyAdds
  · have hused : used ≠ [] := fun he => h ⟨he, hpre⟩
    rw [if_neg hused, if_neg hpre]
    exact (leaves_used p hused).hold.append_left Bracketed.nil.onlyAdds

theorem MasterOp.leaves {op : MasterOp} (h : ¬ op.GivesBack) : Leaves op.locks := by
  cases op with
  | readInode sb m ni =>
    rw [locks, rdfsReadInodeLocks_of_not_readable h]
    exact Leaves.lock _
  | freeSlaveBitmapMemory p riInfo =>
    obtain ⟨ri, rfl⟩ := Option.ne_none_iff_exists'.1 h
    exact leaves_freeSlaveBitmapMemory p ri
  | freeFileUsedBitmap p riInfo used pre => exact leaves_freeFileUsedBitmap p riInfo h
  | _ => exact absurd trivial h

/-! ## The order of the locks -/

/-- A lock is taken with none but locks of lower ranks held. -/
def Lock.rank : Lock → ℕ
  | .freeList _ => 2
  | .bdev _ => 1
  | .updateInode => 1
  | .pool _ i => if i = reserved then 1 else 0
  | _ => 0

theorem Lock.rank_lt (l : Lock) : l.rank < 3 := by
  unfold rank
  split
  any_goals decide
  split_ifs <;> decide

/-- Pages take the lock of a free list. -/
theorem taken_page {o : PageOp} {l : Lock} (h : l ∈ taken o.locks) : ∃ n, l = .freeList n := by
  cases o with
  | new c =>
    refine ⟨c.node, ?_⟩
    simp only [PageOp.locks, rdfsNewBlockLocks] at h
    split_ifs at h
    · exact absurd h not_mem_nil
    · simpa [taken] using h
    · simpa [taken] using h
  | free n => exact ⟨n, by simpa [PageOp.locks, rdfsFreeBlockLocks, taken] using h⟩

theorem taken_freeIntoPool {pool : BlockPool} {pages : List PageOp} {l : Lock}
    (h : l ∈ taken (freeIntoPoolLocks pool pages)) : ∃ n, l = .freeList n := by
  unfold freeIntoPoolLocks at h
  split_ifs at h
  · rw [taken_flatMap, mem_flatMap] at h
    obtain ⟨o, -, h⟩ := h
    exact taken_page h
  · exact absurd h not_mem_nil

theorem nests_updateInode (ni : Option ℕ) : Nests Lock.rank (rdfsUpdateInodeLocks ni) :=
  .ite .nil (.pair _)

theorem nests_page (o : PageOp) : Nests Lock.rank o.locks := by
  cases o with
  | new c =>
    simp only [PageOp.locks, rdfsNewBlockLocks]
    split_ifs
    · exact .nil
    · exact .pair _
    · exact .pair _
  | free n => exact .pair _

/-- The section of `rdfs_write_inode` stands inside that of the node. -/
theorem nests_newInode (c : NewInodeCall) : Nests Lock.rank (rdfsNewInodeLocks c) := by
  have hheld : Nests Lock.rank (.lock (.inode c.node) ::
      (rdfsUpdateInodeLocks c.ni ++ [.unlock (.inode c.node)])) := by
    refine .hold (nests_updateInode c.ni) fun k hk => ?_
    unfold rdfsUpdateInodeLocks at hk
    split_ifs at hk <;> simp_all [taken, Lock.rank]
  have hpages : Nests Lock.rank (c.pgTable.flatMap PageOp.locks) := .flatMap fun o _ => nests_page o
  simp only [rdfsNewInodeLocks]
  split_ifs
  · exact .nil
  · exact .pair _
  · exact .pair _
  · exact .pair _
  · exact hheld
  · exact hheld
  · exact hheld
  · simpa using hheld.append hpages

theorem nests_allocADiskBlock (b : ℕ) (cpu : Fin cpuNr) (d : BdevDes) :
    Nests Lock.rank (rdfsAllocADiskBlockLocks b cpu d) := by
  have hrefill : Nests Lock.rank [.lock (.pool b (poolOf cpu)), .lock (.bdev b),
      .unlock (.bdev b), .unlock (.pool b (poolOf cpu))] :=
    .hold (.pair _) (by simp [taken, Lock.rank, poolOf_ne_reserved])
  unfold rdfsAllocADiskBlockLocks
  split_ifs
  · exact hrefill
  · exact hrefill
  · exact hrefill
  · exact .pair _

/-- The pages of a pool are behind both its lock and that of the reserve. -/
theorem nests_freeADiskBlock (b : ℕ) (cpu : Fin cpuNr) (d : BdevDes) (pages : List PageOp) :
    Nests Lock.rank (rdfsFreeADiskBlockLocks b cpu d pages) := by
  have hinto : ∀ pool, Nests Lock.rank (freeIntoPoolLocks pool pages) := fun pool =>
    .ite (.flatMap fun o _ => nests_page o) .nil
  have hlow : ∀ {pool : BlockPool} {i : Fin (cpuNr + 1)},
      ∀ k ∈ taken (freeIntoPoolLocks pool pages), (Lock.pool b i).rank < k.rank := by
    intro pool i k hk
    obtain ⟨n, rfl⟩ := taken_freeIntoPool hk
    simp only [Lock.rank]
    split_ifs <;> decide
  refine .hold ?_ fun k hk => ?_
  · exact .ite (.hold (hinto _) hlow) (hinto _)
  · split_ifs at hk
    · rcases mem_cons.1 hk with rfl | hk
      · simp [Lock.rank, poolOf_ne_reserved]
      · rw [taken_append, mem_append] at hk
        exact hk.elim (hlow k) (absurd · not_mem_nil)
    · exact hlow k hk

theorem nests_freePteFreeList (pages : List (Fin 2)) :
    Nests Lock.rank (rdfsFreePteFreeListLocks pages) := by
  refine .hold (.flatMap fun n _ => nests_page (.free n)) fun k hk => ?_
  rw [taken_flatMap, mem_flatMap] at hk
  obtain ⟨n, -, hk⟩ := hk
  obtain ⟨n', rfl⟩ := taken_page (o := .free n) hk
  exact Nat.zero_lt_two

theorem nests_nvfree (l : NvmLists) (addr : ℕ) : Nests Lock.rank (nvfreeLocks l addr) := by
  unfold nvfreeLocks
  split_ifs
  · exact .nil
  · split
    · exact .pair _
    · dsimp only
      split_ifs
      · exact .pair _
      · split <;> exact .pair _

theorem nests_nvmapFileLoop (mm : ℕ) : ∀ puds : List Bool,
    Nests Lock.rank (nvmapFileLoopLocks mm puds)
  | [] => .nil
  | true :: puds => (Nests.pair _).append (nests_nvmapFileLoop mm puds)
  | false :: _ => .nil

theorem nests_allocSlaveBitmapMemory (slaves : SlaveInfos) (riInfo : Option BitmapInfo) :
    Nests Lock.rank (rdfsAllocSlaveBitmapMemoryLocks slaves riInfo) := by
  unfold rdfsAllocSlaveBitmapMemoryLocks newGroupLocks
  split
  · exact .nil
  · split
    · exact .ite .nil (.pair _)
    · exact .ite (.ite .nil (.pair _)) .nil

/-- Every call that gives back its locks takes them in their order. -/
theorem MasterOp.nests {op : MasterOp} (h : op.GivesBack) : Nests Lock.rank op.locks := by
  cases op with
  | readInode sb m ni =>
    simp only [locks, rdfsReadInodeLocks_of_readable h]
    exact .pair _
  | updateInode ni => exact nests_updateInode ni
  | newInode c => exact nests_newInode c
  | page o => exact nests_page o
  | preFreeList freeCount => exact .flatMap fun i _ => .ite (.pair _) .nil
  | allocADiskBlock b cpu d => exact nests_allocADiskBlock b cpu d
  | freeADiskBlock b cpu d pages => exact nests_freeADiskBlock b cpu d pages
  | nvmalloc mode l =>
    simp only [locks, nvmallocLocks]
    split_ifs <;> exact .pair _
  | nvfree l addr => exact nests_nvfree l addr
  | nvmapFile mm addr ppud puds => exact .ite .nil (nests_nvmapFileLoop mm puds)
  | allocSlaveMemoryBitmap s info => exact .ite .nil (.pair _)
  | allocSlaveBitmapMemory slaves riInfo => exact nests_allocSlaveBitmapMemory slaves riInfo
  | freeSlaveBitmapMemory p riInfo =>
    obtain rfl : riInfo = none := h
    exact .nil
  | freeFileUsedBitmap p riInfo used pre =>
    simp only [locks, rdfsFreeFileUsedBitmapLocks, if_pos h.1, if_neg h.2]
    exact .nil
  | initPteFreeList c => exact nests_page (.new c)
  | freePteFreeList pages => exact nests_freePteFreeList pages
  | newPte freePteNums slaves riInfo =>
    exact .ite .nil ((Nests.pair _).append (nests_allocSlaveBitmapMemory slaves riInfo))
  | newPagePte pteCnt c slaves riInfo =>
    exact .append (.ite (nests_page (.new c)) .nil) (nests_allocSlaveBitmapMemory slaves riInfo)
  | removeTask taskList =>
    simp only [locks, rdfsRemoveTaskLocks]
    split_ifs <;> exact .pair _
  | _ => exact .pair _

/-! ## Calls and runs of calls -/

/-- A call gives back exactly the locks it takes, and takes none that it holds, exactly if it
avoids the branches that leave a lock. A run of calls gets to its end with no lock held exactly if
all of its calls do. -/
theorem masterLocks_iff (op : MasterOp) (ops : List MasterOp) :
    (KeepsHeld op.locks ↔ op.GivesBack) ∧
      (exec (ops.flatMap MasterOp.locks) ∅ = some ∅ ↔ ∀ op ∈ ops, op.GivesBack) :=
  ⟨keepsHeld_iff_of_family (fun _ h => (MasterOp.nests h).bracketed) (fun _ => MasterOp.leaves) op,
    exec_flatMap_iff (fun _ h => (MasterOp.nests h).bracketed) (fun _ => MasterOp.leaves) ops⟩

/-- Reading the image of an inode that is all zero keeps the lock, and the next read blocks. -/
theorem readInode_keeps_lock : let op := MasterOp.readInode oneNode (fun _ => 0) 128
    ¬ KeepsHeld op.locks ∧ exec op.locks ∅ = some {.readInode} ∧
      exec (op.locks ++ op.locks) ∅ = none := by
  have hlocks : (MasterOp.readInode oneNode (fun _ => 0) 128).locks = [.lock .readInode] :=
    rdfsReadInodeLocks_of_not_readable fun h => h.2 ⟨by decide, Or.inl (by decide)⟩
  simp only [hlocks]
  exact ⟨(Leaves.lock _).not_keepsHeld, by decide, by decide⟩

/-- Any number of threads make calls, each one after another, and take their steps in any order.
From every state they come to, they can all get to their ends without a lock, exactly if no call
takes a branch that leaves a lock. -/
theorem masterThreads_iff {n : ℕ} (calls : Fin n → List MasterOp) :
    (∀ s, Threads.Run (.start fun i => (calls i).flatMap MasterOp.locks) s →
      ∃ s', s.Run s' ∧ s'.Finished) ↔ ∀ i, ∀ op ∈ calls i, op.GivesBack :=
  threads_finish_iff Lock.rank_lt (fun _ => MasterOp.nests) (fun _ => MasterOp.leaves) calls

end Rdfs
