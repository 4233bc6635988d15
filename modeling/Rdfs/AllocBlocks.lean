import Rdfs.Mapping

/-!
# Allocating blocks

`rdfs_alloc_blocks` appends blocks to an inode. For a directory or a symbolic link the blocks
are pages of the region (`ALLOC_PAGE`). For a regular file (`ALLOC_PTE`) the blocks are on the
slaves : `rdfsNewPagePte` obtains one, writes its pte value at a cursor that all files share,
`pte_phy_addr` and `pte_cnt`, and the page of the cursor is what goes into the table of the
inode.

`Master` is the state these functions work on besides the inode, and `Inode` is
`struct rdfs_inode_info` with its `struct inode`. `rdfsAllocBlocks_inode` says what a call does
to the inode, whatever it allocates. A slave that has run out of groups is not noticed on any
level : the call obtains block -1, whose pte value does not even name the slave
(`rdfsAllocBlocks_exhausted`).
-/

namespace Rdfs

/-! ## State -/

/-- `struct inode` and `struct rdfs_inode_info` : what the modelled functions use of them. -/
structure Inode where
  iIno : ℕ
  iMode : ℕ
  iUid : ℕ
  iGid : ℕ
  iNlink : ℕ
  iSize : ℕ
  iBlocks : ℕ
  iAtime : ℕ
  iCtime : ℕ
  iMtime : ℕ
  iGeneration : ℕ
  /-- `i_flags` of `struct inode`. -/
  vfsFlags : ℕ
  /-- `i_flags` of `struct rdfs_inode_info`. -/
  iFlags : ℕ
  iFileAcl : ℕ
  iDirAcl : ℕ
  iDtime : ℕ
  iVirtAddr : ℕ
  /-- An `atomic_t` of 32 bits. It counts processes, of which there are fewer than 2^31. -/
  iPCounter : ℤ
  /-- An `int`. It counts the mappings that are held, fewer than 2^31 as well. -/
  mappingCount : ℤ
  bitmaps : BitmapInfo
deriving Inhabited

/-- The state of the master : the region, the kernel's page table, the pte cursor, and the
slaves. -/
structure Master where
  nvm : Nvm
  kernel : KernelMap
  pteCnt : ℕ
  ptePhyAddr : ℕ
  slaves : SlaveInfos

/-- `PAGE_PTE_NUMS`. -/
def pagePteNums : ℕ := 512

/-- `ALLOC_PAGE` and `ALLOC_PTE`. -/
inductive AllocType
  | page | pte
deriving DecidableEq, Repr

/-! ## The code -/

/-- What `rdfs_new_page_pte` obtains : the page of the pte, and the slave and the block. -/
structure NewPte where
  phyaddr : ℕ
  sId : ℕ
  blockId : ℕ
deriving DecidableEq, Repr

/-- `rdfs_new_page_pte` : the return value, what it obtains, and the inode and the master
afterwards. -/
def rdfsNewPagePte (sb : Super) (cpu : ℕ) (g : Master) (riInfo : BitmapInfo) (ni : ℕ) :
    ℤ × NewPte × BitmapInfo × Master :=
  let g := if g.pteCnt = pagePteNums then
      let r := rdfsNewBlock sb cpu g.nvm g.ptePhyAddr 1 (some ni)
      { g with nvm := r.2.2, ptePhyAddr := r.2.1, pteCnt := 0 }
    else g
  let b := allocBlock g.slaves riInfo
  let pteAddr := g.ptePhyAddr + g.pteCnt * 8
  let m := g.nvm.mem.store 8 (rdfsPa sb (rdfsVa sb pteAddr)) (pteValue b.2.1 b.1)
  (0, ⟨g.ptePhyAddr, b.2.1, b.1⟩, b.2.2.1,
    { g with nvm := { g.nvm with mem := m }, pteCnt := g.pteCnt + 1, slaves := b.2.2.2 })

/-- What the loop of `rdfs_alloc_blocks` works on; `obtained` are the slaves and blocks
obtained so far. -/
structure AllocState where
  phys : ℕ
  obtained : List (ℕ × ℕ)
  inode : Inode
  master : Master

/-- The block of one round of `rdfs_alloc_blocks` : the page to enter in the table. -/
def takeBlock (sb : Super) (cpu zeroing : ℕ) (type : AllocType) (s : AllocState) : ℕ × AllocState :=
  match type with
  | .page =>
    let temp := rdfsVa sb s.phys
    let nvm := s.master.nvm
    let m := if zeroing = 0 then nvm.mem.fill 4096 (rdfsPa sb temp) 0 else nvm.mem
    (rdfsPa sb temp, { s with
      phys := deref sb nvm.mem temp
      master := { s.master with nvm := { nvm with mem := m } } })
  | .pte =>
    let r := rdfsNewPagePte sb cpu s.master s.inode.bitmaps (getRdfsInode sb s.inode.iIno)
    (r.2.1.phyaddr, { s with
      obtained := s.obtained ++ [(r.2.1.sId, r.2.1.blockId)]
      inode := { s.inode with bitmaps := r.2.2.1 }
      master := r.2.2.2 })

/-- The region once the slot of the inode has one block more, counted in 32 bits. -/
def countBlock (sb : Super) (nvm : Nvm) (inode : Inode) : Nvm :=
  let ni := getRdfsInodePhyAddr sb inode.iIno
  { nvm with mem := inodeStruct.putField nvm.mem ni .iBlocks ((inode.iBlocks + 1) % 2 ^ 32) }

/-- The rest of the round : one block more, in the inode, in its slot, and in its table. -/
def enterBlock (sb : Super) (cpu : ℕ) (target : ℕ) (s : AllocState) : ℤ × AllocState :=
  let r := rdfsInsertPage sb cpu (countBlock sb s.master.nvm s.inode) s.master.kernel s.inode.iIno
    s.inode.iVirtAddr (s.inode.iBlocks + 1) target
  (r.1, { s with
    inode := { s.inode with iBlocks := s.inode.iBlocks + 1 }
    master := { s.master with nvm := r.2.1, kernel := r.2.2 } })

/-- The loop of `rdfs_alloc_blocks`, with `num` rounds to go. -/
def allocLoop (sb : Super) (cpu zeroing : ℕ) (type : AllocType) : ℕ → AllocState → ℤ × AllocState
  | 0, s => (0, s)
  | num + 1, s =>
    let t := takeBlock sb cpu zeroing type s
    let r := enterBlock sb cpu t.1 t.2
    if r.1 ≠ 0 then r else allocLoop sb cpu zeroing type num r.2

/-- The table `rdfs_alloc_blocks` gives an inode that has none, with the kernel's entries. -/
def ensureTable (sb : Super) (cpu : ℕ) (g : Master) (inode : Inode) : Master :=
  if inodeStruct.getField g.nvm.mem (getRdfsInodePhyAddr sb inode.iIno) .iPgAddr = 0 then
    let nvm := (rdfsInitPgTable sb cpu g.nvm inode.iIno).2
    let pud := rdfsGetPud sb nvm.mem inode.iIno
    { g with nvm := nvm, kernel := (nvmap sb nvm.mem g.kernel inode.iVirtAddr pud).2 }
  else g

/-- The state the loop of `rdfs_alloc_blocks` starts in. For pages of the region they are all
allocated beforehand; a failure of `rdfs_new_block` is overwritten before it is looked at. -/
def allocStart (sb : Super) (cpu : ℕ) (g : Master) (inode : Inode) (num : ℤ) (type : AllocType)
    (phys : ℕ) : AllocState :=
  match type with
  | .page =>
    let r := rdfsNewBlock sb cpu g.nvm phys num (some (getRdfsInode sb inode.iIno))
    ⟨r.2.1, [], inode, { g with nvm := r.2.2 }⟩
  | .pte => ⟨phys, [], inode, g⟩

/-- `rdfs_alloc_blocks`; `phys` is what the uninitialised local variable holds. The code keeps
`i_ino` in an `int`, where it fits as long as a region has fewer than 2^31 inodes. -/
def rdfsAllocBlocks (sb : Super) (cpu : ℕ) (g : Master) (inode : Inode) (num : ℤ) (zeroing : ℕ)
    (type : AllocType) (phys : ℕ) : ℤ × AllocState :=
  allocLoop sb cpu zeroing type num.toNat
    (allocStart sb cpu (ensureTable sb cpu g inode) inode num type phys)

/-! ## What a call does to the inode -/

/-- Two inodes that differ in `i_blocks` and in the bitmaps at most. -/
def SameFile (i j : Inode) : Prop :=
  j = { i with iBlocks := j.iBlocks, bitmaps := j.bitmaps }

/-- The rest of a round, given what `rdfs_insert_page` returns. -/
theorem enterBlock_eq {sb : Super} {cpu target : ℕ} {s : AllocState} {r : ℤ × Nvm × KernelMap}
    (hr : rdfsInsertPage sb cpu (countBlock sb s.master.nvm s.inode) s.master.kernel s.inode.iIno
      s.inode.iVirtAddr (s.inode.iBlocks + 1) target = r) :
    enterBlock sb cpu target s = (r.1, { s with
      inode := { s.inode with iBlocks := s.inode.iBlocks + 1 }
      master := { s.master with nvm := r.2.1, kernel := r.2.2 } }) := by
  subst hr
  rfl

theorem SameFile.trans {i j k : Inode} (h : SameFile i j) (h' : SameFile j k) : SameFile i k := by
  unfold SameFile at *
  rw [h', h]

theorem enterBlock_ret (sb : Super) (cpu target : ℕ) (s : AllocState) :
    (enterBlock sb cpu target s).1 = 0 ∨ (enterBlock sb cpu target s).1 = -1 := by
  obtain ⟨r, hr⟩ : ∃ r, rdfsInsertPage sb cpu (countBlock sb s.master.nvm s.inode) s.master.kernel
    s.inode.iIno s.inode.iVirtAddr (s.inode.iBlocks + 1) target = r := ⟨_, rfl⟩
  have h := hr ▸ rdfsInsertPage_ret sb cpu (countBlock sb s.master.nvm s.inode) s.master.kernel
    s.inode.iIno s.inode.iVirtAddr (s.inode.iBlocks + 1) target
  rw [enterBlock_eq hr]
  exact h

section

variable (sb : Super) (cpu zeroing : ℕ) (type : AllocType)

/-- What a round leaves of the inode, also one that fails. -/
theorem round_inode (s : AllocState) :
    let t := takeBlock sb cpu zeroing type s
    let r := enterBlock sb cpu t.1 t.2
    SameFile s.inode r.2.inode ∧ r.2.inode.iBlocks = s.inode.iBlocks + 1 := by
  cases type <;> exact ⟨rfl, rfl⟩

/-- The loop leaves everything but the blocks of the inode alone, and appends one block for
each round if it succeeds. -/
theorem allocLoop_inode (num : ℕ) (s : AllocState) :
    SameFile s.inode (allocLoop sb cpu zeroing type num s).2.inode ∧
      ((allocLoop sb cpu zeroing type num s).1 = 0 →
        (allocLoop sb cpu zeroing type num s).2.inode.iBlocks = s.inode.iBlocks + num) := by
  fun_induction allocLoop sb cpu zeroing type num s with
  | case1 s => exact ⟨rfl, fun _ => rfl⟩
  | case2 num s t r h => exact ⟨(round_inode sb cpu zeroing type s).1, fun h0 => absurd h0 h⟩
  | case3 num s t r h ih =>
    obtain ⟨hsame, hblocks⟩ := round_inode sb cpu zeroing type s
    refine ⟨hsame.trans ih.1, fun h0 => ?_⟩
    rw [ih.2 h0, hblocks]
    omega

/-- Every round counts a block, also one that fails. -/
theorem allocLoop_iBlocks_ge (num : ℕ) (s : AllocState) :
    s.inode.iBlocks + min num 1 ≤ (allocLoop sb cpu zeroing type num s).2.inode.iBlocks := by
  fun_induction allocLoop sb cpu zeroing type num s with
  | case1 s => exact le_rfl
  | case2 num s t r h =>
    have hblocks : r.2.inode.iBlocks = _ := (round_inode sb cpu zeroing type s).2
    omega
  | case3 num s t r h ih =>
    have hblocks : r.2.inode.iBlocks = _ := (round_inode sb cpu zeroing type s).2
    omega

/-- `rdfs_alloc_blocks` returns 0 or what `rdfs_insert_page` failed with. -/
theorem allocLoop_ret (num : ℕ) (s : AllocState) :
    (allocLoop sb cpu zeroing type num s).1 = 0 ∨
      (allocLoop sb cpu zeroing type num s).1 = -1 := by
  fun_induction allocLoop sb cpu zeroing type num s with
  | case1 s => exact Or.inl rfl
  | case2 num s t r h => exact enterBlock_ret sb cpu t.1 t.2
  | case3 num s t r h ih => exact ih

/-- The loop only appends to what has been obtained. -/
theorem obtained_prefix_allocLoop (num : ℕ) (s : AllocState) :
    s.obtained <+: (allocLoop sb cpu zeroing type num s).2.obtained := by
  have hround : ∀ s, s.obtained <+: (takeBlock sb cpu zeroing type s).2.obtained := fun s => by
    cases type <;> simp [takeBlock]
  fun_induction allocLoop sb cpu zeroing type num s with
  | case1 s => exact List.prefix_rfl
  | case2 num s t r h => exact hround s
  | case3 num s t r h ih => exact (hround s).trans ih

end

@[simp] theorem allocStart_inode (sb : Super) (cpu : ℕ) (g : Master) (inode : Inode) (num : ℤ)
    (type : AllocType) (phys : ℕ) : (allocStart sb cpu g inode num type phys).inode = inode := by
  cases type <;> rfl

/-- A call leaves everything but the blocks of the inode alone, and appends `num` blocks if
it succeeds. -/
theorem rdfsAllocBlocks_inode (sb : Super) (cpu : ℕ) (g : Master) (inode : Inode) (num : ℤ)
    (zeroing : ℕ) (type : AllocType) (phys : ℕ) :
    SameFile inode (rdfsAllocBlocks sb cpu g inode num zeroing type phys).2.inode ∧
    ((rdfsAllocBlocks sb cpu g inode num zeroing type phys).1 = 0 →
      (rdfsAllocBlocks sb cpu g inode num zeroing type phys).2.inode.iBlocks =
        inode.iBlocks + num.toNat) := by
  have hloop := allocLoop_inode sb cpu zeroing type num.toNat
    (allocStart sb cpu (ensureTable sb cpu g inode) inode num type phys)
  rwa [allocStart_inode] at hloop

theorem rdfsAllocBlocks_ret (sb : Super) (cpu : ℕ) (g : Master) (inode : Inode) (num : ℤ)
    (zeroing : ℕ) (type : AllocType) (phys : ℕ) :
    (rdfsAllocBlocks sb cpu g inode num zeroing type phys).1 = 0 ∨
      (rdfsAllocBlocks sb cpu g inode num zeroing type phys).1 = -1 :=
  allocLoop_ret sb cpu zeroing type num.toNat _

/-- A call for blocks counts one at least. -/
theorem rdfsAllocBlocks_counts (sb : Super) (cpu : ℕ) (g : Master) (inode : Inode) {num : ℤ}
    (hnum : 0 < num) (zeroing : ℕ) (type : AllocType) (phys : ℕ) :
    inode.iBlocks < (rdfsAllocBlocks sb cpu g inode num zeroing type phys).2.inode.iBlocks := by
  have hloop := allocLoop_iBlocks_ge sb cpu zeroing type num.toNat
    (allocStart sb cpu (ensureTable sb cpu g inode) inode num type phys)
  rwa [allocStart_inode, Nat.min_eq_right (by omega)] at hloop

/-- A call that fails has counted a block. -/
theorem rdfsAllocBlocks_iBlocks_lt {sb : Super} {cpu : ℕ} {g : Master} {inode : Inode} {num : ℤ}
    {zeroing : ℕ} {type : AllocType} {phys : ℕ}
    (h : (rdfsAllocBlocks sb cpu g inode num zeroing type phys).1 ≠ 0) :
    inode.iBlocks < (rdfsAllocBlocks sb cpu g inode num zeroing type phys).2.inode.iBlocks := by
  refine rdfsAllocBlocks_counts sb cpu g inode ?_ zeroing type phys
  by_contra hnum
  rw [rdfsAllocBlocks, show num.toNat = 0 by omega] at h
  exact h rfl

/-! ## A slave without groups -/

@[simp] theorem ensureTable_slaves (sb : Super) (cpu : ℕ) (g : Master) (inode : Inode) :
    (ensureTable sb cpu g inode).slaves = g.slaves := by
  unfold ensureTable
  split_ifs <;> rfl

/-- What `rdfs_new_page_pte` obtains from the slaves, whether the cursor needs a page or not. -/
theorem rdfsNewPagePte_slaves (sb : Super) (cpu : ℕ) (g : Master) (ri : BitmapInfo) (ni : ℕ) :
    let r := rdfsNewPagePte sb cpu g ri ni
    r.2.1.sId = (allocBlock g.slaves ri).2.1 ∧ r.2.1.blockId = (allocBlock g.slaves ri).1 ∧
      r.2.2.1 = (allocBlock g.slaves ri).2.2.1 ∧
      r.2.2.2.slaves = (allocBlock g.slaves ri).2.2.2 := by
  unfold rdfsNewPagePte
  by_cases hc : g.pteCnt = pagePteNums <;> simp only [hc, if_true, if_false, and_self]

/-- The first block of a call that appends blocks of slaves is obtained from the slaves as
they are. -/
theorem mem_obtained (sb : Super) (cpu : ℕ) (g : Master) (inode : Inode) {num : ℤ}
    (hnum : 0 < num) (zeroing phys : ℕ) :
    ((allocBlock g.slaves inode.bitmaps).2.1, (allocBlock g.slaves inode.bitmaps).1) ∈
      (rdfsAllocBlocks sb cpu g inode num zeroing .pte phys).2.obtained := by
  obtain ⟨k, hk⟩ : ∃ k, num.toNat = k + 1 := Nat.exists_eq_succ_of_ne_zero (by omega)
  rw [rdfsAllocBlocks, hk, allocLoop, allocStart]
  set t := takeBlock sb cpu zeroing .pte ⟨phys, [], inode, ensureTable sb cpu g inode⟩ with ht
  obtain ⟨hsId, hblockId, -⟩ := rdfsNewPagePte_slaves sb cpu (ensureTable sb cpu g inode)
    inode.bitmaps (getRdfsInode sb inode.iIno)
  rw [ensureTable_slaves] at hsId hblockId
  have hfirst : ((allocBlock g.slaves inode.bitmaps).2.1, (allocBlock g.slaves inode.bitmaps).1) ∈
      (enterBlock sb cpu t.1 t.2).2.obtained := by
    rw [show (enterBlock sb cpu t.1 t.2).2.obtained = t.2.obtained from rfl, ht, ← hsId,
      ← hblockId]
    simp [takeBlock]
  by_cases h : (enterBlock sb cpu t.1 t.2).1 ≠ 0
  · rwa [if_pos h]
  · rw [if_neg h]
    exact (obtained_prefix_allocLoop sb cpu zeroing .pte k _).subset hfirst

/-- What `rdfs_new_page_pte` obtains, and the word it stores. -/
theorem rdfsNewPagePte_spec (sb : Super) (cpu : ℕ) (g : Master) (ri : BitmapInfo) (ni : ℕ) :
    let r := rdfsNewPagePte sb cpu g ri ni
    r.1 = 0 ∧ r.2.1.sId = (allocBlock g.slaves ri).2.1 ∧
      r.2.1.blockId = (allocBlock g.slaves ri).1 ∧
      ∃ pteAddr, r.2.2.2.nvm.mem.load 8 pteAddr =
        pteValue (allocBlock g.slaves ri).2.1 (allocBlock g.slaves ri).1 := by
  have hlt : pteValue (allocBlock g.slaves ri).2.1 (allocBlock g.slaves ri).1 < 256 ^ 8 :=
    Nat.mod_lt _ (by decide)
  unfold rdfsNewPagePte
  by_cases hc : g.pteCnt = pagePteNums
  · simp only [hc, if_true, true_and]
    exact ⟨_, Mem.load_store_of_lt _ _ hlt⟩
  · simp only [hc, if_false, true_and]
    exact ⟨_, Mem.load_store_of_lt _ _ hlt⟩

/-- Block -1 of slave 0 is stored as a block of slave 4095. -/
theorem decodePte_neg_one : decodePte (pteValue 0 (2 ^ 64 - 1)) = (4095, 2 ^ 40 - 1) := by decide

/-- With no group left and an inode that needs one, no level reports a failure : all obtain
block -1 of slave 0, which is no block of the slave, and store a pte value that decodes to
slave 4095; the block after it is block 0. -/
theorem rdfsAllocBlocks_exhausted (sb : Super) (cpu : ℕ) (g : Master) (inode : Inode) (num : ℤ)
    (zeroing phys : ℕ) (hlist : (g.slaves rdfsSelectSlave).bitmapHead = [])
    (htotal : (g.slaves rdfsSelectSlave).totalBlockNums < 2 ^ 31)
    (hneeds : inode.bitmaps.NeedsGroup) (hnum : 0 < num) :
    (∀ blockId sId, ∃ ri', rdfsAllocSlaveBitmapMemory g.slaves blockId sId (some inode.bitmaps) =
        (0, 2 ^ 64 - 1, 0, some ri', g.slaves) ∧
      (rdfsAllocSlaveBitmapMemory g.slaves blockId sId (some ri')).2.1 = 0) ∧
    ¬((2 ^ 64 - 1 : ℕ) : ℤ) < (g.slaves rdfsSelectSlave).totalBlockNums ∧
    (∀ ni, (rdfsNewPagePte sb cpu g inode.bitmaps ni).1 = 0 ∧ ∃ pteAddr,
      decodePte ((rdfsNewPagePte sb cpu g inode.bitmaps ni).2.2.2.nvm.mem.load 8 pteAddr) =
        (4095, 2 ^ 40 - 1) ∧
      (rdfsNewPagePte sb cpu g inode.bitmaps ni).2.1.sId = 0) ∧
    (0, 2 ^ 64 - 1) ∈ (rdfsAllocBlocks sb cpu g inode num zeroing .pte phys).2.obtained := by
  obtain ⟨ri', hr, hnext⟩ := allocBlock_exhausted hlist hneeds
  refine ⟨fun blockId sId => ⟨ri', by rw [rdfsAllocSlaveBitmapMemory, hr], hnext⟩, by omega,
    fun ni => ?_, ?_⟩
  · obtain ⟨hret, hs, -, pteAddr, hload⟩ := rdfsNewPagePte_spec sb cpu g inode.bitmaps ni
    rw [hr] at hs hload
    exact ⟨hret, pteAddr, by rw [hload]; exact decodePte_neg_one, hs⟩
  · have hmem := mem_obtained sb cpu g inode hnum zeroing phys
    rwa [hr] at hmem

/-- A master all of whose slaves have no blocks. -/
def noBlocks : Master where
  nvm := ⟨fun _ => 0, fun _ => default⟩
  kernel := ⟨fun _ => 0, fun _ => 0⟩
  pteCnt := 0
  ptePhyAddr := 4096
  slaves _ := default

theorem rdfsAllocBlocks_exhausted_noBlocks :
    (0, 2 ^ 64 - 1) ∈ (rdfsAllocBlocks oneNode 0 noBlocks default 1 1 .pte 0).2.obtained :=
  (rdfsAllocBlocks_exhausted oneNode 0 noBlocks default 1 1 0 rfl (by decide)
    (by intro pre h; cases h) (by decide)).2.2.2

/-- A slave of 64 blocks : one inode takes the only group and gets block 0. A second inode
then gets block -1, and after it block 0 again, both without a failure. -/
theorem exhausted_slave_hands_out_blocks :
    let slaves : SlaveInfos := fun _ => rdfsInitSlaveMemoryBitmapList default 64
    let r := allocBlock slaves ⟨none, []⟩
    (r.2.2.2 rdfsSelectSlave).bitmapHead = [] ∧ r.1 = 0 ∧
    (rdfsAllocSlaveBitmapMemory r.2.2.2 0 0 (some ⟨none, []⟩)).1 = 0 ∧
    (rdfsAllocSlaveBitmapMemory r.2.2.2 0 0 (some ⟨none, []⟩)).2.1 = 2 ^ 64 - 1 ∧
    ¬((2 ^ 64 - 1 : ℕ) : ℤ) < (r.2.2.2 rdfsSelectSlave).totalBlockNums ∧
    decodePte (pteValue 0 (2 ^ 64 - 1)) = (4095, 2 ^ 40 - 1) ∧
    (allocBlock r.2.2.2 (allocBlock r.2.2.2 ⟨none, []⟩).2.2.1).1 = r.1 := by
  decide

end Rdfs
