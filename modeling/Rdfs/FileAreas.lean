import Rdfs.AllocRounds
import Rdfs.BlockSize
import Rdfs.Truncate

/-!
# Blocks behind the end of an area

Every block that `rdfs_alloc_blocks` appends to a file goes through `rdfs_insert_page`, which walks
`i_blocks` down the table of the file and adds `i_blocks` pages to `i_virt_addr` for the kernel's.
The area of a regular file has room for `2 ^ 23` blocks, its table for `2 ^ 27`, and no function
compares the range of a write with either.

An insertion below block `2 ^ 23` keeps to the area whatever the memory holds
(`InsertInside.of_lt`). The first block of every gigabyte behind that is mapped into the area of
another file. `writeInside_iff` says which writes and requests of clients get so far : those over
more blocks, if the node of the processor has the pages that the blocks before need (`pagesNeeded`).
The cursor takes pages as well, but a round does not fail without one (`takeBlock_startOver`).
-/

namespace Rdfs

open List Option

/-! ## The code -/

/-- How far `rdfs_pud_alloc` moves into the table for block `blocks - 1`. -/
def topIndex (blocks : ℕ) : ℕ := (i32 ((blocks - 1) <<< 12 >>> 30 : ℕ)).toNat

/-- The address `rdfs_insert_page` maps with `nvmap_pmd`, `none` if it maps nothing : the entry of
the first level is there already, or the address is null. -/
def nvmapAddr (sb : Super) (m : Mem) (ino addr blocks : ℕ) : Option ℕ :=
  let offset := (blocks - 1) <<< 12
  let newAddr := (addr + offset) % 2 ^ 64
  let pud := rdfsPudAlloc sb m ino offset
  if pud = 0 ∨ deref sb m pud ≠ 0 ∨ newAddr = 0 then none else some newAddr

/-- The insertion uses an entry of the file's own page of the first level, and what it maps, a
gigabyte, lies in `[addr, addr + MAX_FILE_SIZE)`. -/
structure InsertInside (sb : Super) (m : Mem) (ino addr blocks : ℕ) : Prop where
  index : topIndex blocks < 512
  mapping : ∀ a ∈ nvmapAddr sb m ino addr blocks,
    addr ≤ a / 2 ^ 30 * 2 ^ 30 ∧ a / 2 ^ 30 * 2 ^ 30 + 2 ^ 30 ≤ addr + maxFileSize

/-- Every `rdfs_insert_page` that the loop of `rdfs_alloc_blocks` performs for blocks of slaves is
inside, with `num` rounds to go. -/
def InsertsInside (sb : Super) (cpu : ℕ) : ℕ → AllocState → Prop
  | 0, _ => True
  | num + 1, s =>
    let t := (takeBlock sb cpu 1 .pte s).2
    InsertInside sb (countBlock sb t.master.nvm t.inode).mem t.inode.iIno t.inode.iVirtAddr
      (t.inode.iBlocks + 1) ∧
    ((allocRound sb cpu 1 .pte s).1 = 0 → InsertsInside sb cpu num (allocRound sb cpu 1 .pte s).2)

/-- The state in which the loop of `rdfs_alloc_blocks` starts for blocks of slaves. -/
def loopStart (sb : Super) (cpu : ℕ) (g : Master) (inode : Inode) (phys : ℕ) : AllocState :=
  ⟨phys, [], inode, ensureTable sb cpu g inode⟩

/-- A write through the master or a request of a client keeps to the area of its file : every
insertion does, and the kernel's entries for other areas are as before. -/
structure WriteInside (bs : BlockSize) (sb : Super) (cpu : ℕ) (g : Master) (inode : Inode)
    (pos length phys : ℕ) : Prop where
  inserts : InsertsInside sb cpu (bs.blocksAsked inode.iSize pos length)
    (loopStart sb cpu g inode phys)
  others : ∀ x, ¬(inode.iVirtAddr / 2 ^ 30 ≤ x ∧ x < inode.iVirtAddr / 2 ^ 30 + 32) →
    (allocLoop sb cpu 1 .pte (bs.blocksAsked inode.iSize pos length)
      (loopStart sb cpu g inode phys)).2.master.kernel.pud x =
      (loopStart sb cpu g inode phys).master.kernel.pud x

/-- The insertions of a write are those of `rdfs_alloc_blocks`. -/
theorem BlockSize.allocForWrite_eq_allocLoop {bs : BlockSize} {sb : Super} {cpu : ℕ} {g : Master}
    {inode : Inode} {pos length phys : ℕ} (h : 0 < bs.pagesToAlloc inode.iSize pos length) :
    bs.allocForWrite sb cpu g inode pos length phys =
      allocLoop sb cpu 1 .pte (bs.blocksAsked inode.iSize pos length)
        (loopStart sb cpu g inode phys) := by
  rw [BlockSize.allocForWrite, BlockSize.blocksAsked, if_pos h, if_pos h]
  rfl

/-! ## One insertion -/

variable {sb : Super} {R : Region sb} {cpu ino v i : ℕ}

/-- What an insertion does to the kernel's page table. -/
theorem rdfsInsertPage_kernel (sb : Super) (cpu : ℕ) (st : Nvm) (k : KernelMap)
    (ino addr blocks phys : ℕ) : ∃ e, (rdfsInsertPage sb cpu st k ino addr blocks phys).2.2 =
      (nvmapAddr sb st.mem ino addr blocks).elim k fun a => k.setPud a e := by
  simp only [rdfsInsertPage, nvmapAddr]
  generalize (addr + (blocks - 1) <<< 12) % 2 ^ 64 = newAddr
  generalize rdfsPudAlloc sb st.mem ino ((blocks - 1) <<< 12) = pud
  by_cases hpud : pud = 0
  · exact ⟨0, by simp [hpud]⟩
  by_cases hentry : deref sb st.mem pud = 0
  · refine ⟨rdfsPa sb (rdfsGetPmd sb (rdfsPmdAlloc sb cpu st pud newAddr).2.mem pud) |||
      pageTable, ?_⟩
    simp only [hpud, hentry, if_false, nvmapPmd, false_or, ne_eq, not_true]
    split_ifs <;> rfl
  · refine ⟨0, ?_⟩
    simp only [hpud, hentry, false_or, ne_eq, not_false_iff, true_or]
    split_ifs <;> rfl

variable {st : Nvm} {own : List ℕ} {t : Option Tree} {s : AllocState} {num : ℕ} {n : Fin 2}

/-- An insertion that is inside leaves the entries of other areas alone. -/
theorem InsertInside.others {addr blocks : ℕ} (h : InsertInside sb st.mem ino addr blocks) (cpu : ℕ)
    (k : KernelMap) (phys : ℕ) {x : ℕ} (hx : ¬(addr / 2 ^ 30 ≤ x ∧ x < addr / 2 ^ 30 + 32)) :
    (rdfsInsertPage sb cpu st k ino addr blocks phys).2.2.pud x = k.pud x := by
  obtain ⟨e, he⟩ := rdfsInsertPage_kernel sb cpu st k ino addr blocks phys
  rw [he]
  rcases ha : nvmapAddr sb st.mem ino addr blocks with _ | a
  · rfl
  · have hin := h.mapping a ha
    unfold maxFileSize at hin
    rw [elim_some, KernelMap.setPud_pud, if_neg]
    rw [Nat.shiftRight_eq_div_pow]
    omega

theorem topIndex_succ (hi : i ≤ 2 ^ 27) : topIndex (i + 1) = i / 2 ^ 18 := by
  have hshift : i <<< 12 >>> 30 = i / 2 ^ 18 := by
    rw [Nat.shiftLeft_eq, Nat.shiftRight_eq_div_pow]
    omega
  rw [topIndex, Nat.add_sub_cancel, hshift, i32_eq (by omega) (by omega), Int.toNat_natCast]

/-- The addresses of areas : whole gigabytes, with room behind the last one. -/
def AreaStart (v : ℕ) : Prop := v = 0 ∨ v ∈ regAreas

theorem AreaStart.bounds (h : AreaStart v) : v % 2 ^ 30 = 0 ∧ v + 2 ^ 40 < 2 ^ 64 := by
  rcases h with rfl | h
  · decide
  · obtain ⟨j, hj, rfl⟩ := mem_regAreas.1 h
    unfold rdfsStart
    omega

theorem AreaStart.addrOk (h : AreaStart v) (hi : i < 2 ^ 27) : AddrOk v i := by
  obtain ⟨hmod, hlt⟩ := h.bounds
  refine ⟨hi, by omega, ?_⟩
  rw [if_neg]
  · exact hmod
  · rcases h with rfl | h
    · unfold InDirArea rdfsStart
      omega
    · obtain ⟨j, hj, rfl⟩ := mem_regAreas.1 h
      unfold InDirArea rdfsStart dirAreaSize maxDirSize
      omega

theorem newAddr_eq (h : AreaStart v) (hi : i ≤ 2 ^ 27) :
    (v + (i + 1 - 1) <<< 12) % 2 ^ 64 = v + 4096 * i := by
  have := h.bounds
  rw [Nat.add_sub_cancel, Nat.shiftLeft_eq]
  omega

/-- An insertion of one of the first `2 ^ 23` blocks is inside, whatever the memory holds. -/
theorem InsertInside.of_lt (h : AreaStart v) (hi : i < 2 ^ 23) (m : Mem) :
    InsertInside sb m ino v (i + 1) := by
  refine ⟨by rw [topIndex_succ (by omega)]; omega, fun a ha => ?_⟩
  obtain rfl : v + 4096 * i = a := by
    simp only [nvmapAddr, newAddr_eq h (show i ≤ 2 ^ 27 by omega)] at ha
    split_ifs at ha
    · cases ha
    · exact some_inj.1 ha
  have := h.bounds
  unfold maxFileSize
  omega

/-- What the insertion behind the last block of a table maps : the first block of a gigabyte. -/
theorem FileRep.nvmapAddr_eq {t : Tree} (h : FileRep R st ino t own) (hv : AreaStart v)
    (hlt : t.ents.length < 2 ^ 27) : nvmapAddr sb st.mem ino v (t.ents.length + 1) =
      if t.ents.length % 2 ^ 18 = 0 ∧ t.ents.length ≠ 0 then some (v + 4096 * t.ents.length)
      else none := by
  have hpud : t.pud ≠ 0 := fun h0 => R.not_isPage_zero (h0 ▸ h.owned.isPage (by simp [Tree.pages]))
  have hword := h.rep.top 0 t.pud rfl (t.ents.length / 2 ^ 18) (by omega)
  have hlen := h.rep.length_pmds
  have hzero : deref sb st.mem (rdfsVa sb (t.pud + 8 * (t.ents.length / 2 ^ 18))) = 0 ↔
      t.ents.length % 2 ^ 18 = 0 ∧ t.ents.length ≠ 0 := by
    rw [deref_rdfsVa, hword, tableWord_eq_zero_iff (by decide), hlen]
    omega
  have hnull : rdfsVa sb (t.pud + 8 * (t.ents.length / 2 ^ 18)) ≠ 0 := rdfsVa_ne_zero sb (by omega)
  simp only [nvmapAddr, newAddr_eq hv hlt.le]
  rw [Nat.add_sub_cancel, rdfsPudAlloc_eq h.pgAddr hpud hlt]
  by_cases hfirst : t.ents.length % 2 ^ 18 = 0 ∧ t.ents.length ≠ 0
  · rw [if_pos hfirst, if_neg]
    rintro (h0 | h0 | h0)
    · exact hnull h0
    · exact h0 (hzero.2 hfirst)
    · omega
  · rw [if_neg hfirst, if_pos (.inr (.inl (mt hzero.1 hfirst)))]

/-- The insertion behind the last block of a table keeps to the area unless it is the first block
of a gigabyte behind the end. -/
theorem FileRep.insertInside_iff {t : Tree} (h : FileRep R st ino t own) (hv : AreaStart v)
    (hle : t.ents.length ≤ 2 ^ 27) : InsertInside sb st.mem ino v (t.ents.length + 1) ↔
      t.ents.length < 2 ^ 23 ∨ t.ents.length % 2 ^ 18 ≠ 0 := by
  refine ⟨fun hin => ?_, fun hor => ?_⟩
  · by_contra hnot
    obtain ⟨hge, hfirst⟩ : 2 ^ 23 ≤ t.ents.length ∧ t.ents.length % 2 ^ 18 = 0 := by omega
    have hindex := hin.index
    rw [topIndex_succ hle] at hindex
    have hmap := hin.mapping (v + 4096 * t.ents.length) (by
      rw [h.nvmapAddr_eq hv (by omega), if_pos ⟨hfirst, by omega⟩]
      rfl)
    unfold maxFileSize at hmap
    omega
  · rcases Nat.lt_or_ge t.ents.length (2 ^ 23) with hlt | hge
    · exact InsertInside.of_lt hv hlt _
    · refine ⟨by rw [topIndex_succ hle]; omega, fun a ha => ?_⟩
      rw [h.nvmapAddr_eq hv (by omega), if_neg (by omega)] at ha
      cases ha

/-! ## The rounds of a call -/

/-- The node `rdfs_new_block` takes pages for the cursor from. -/
def cursorNode (sb : Super) (inode : Inode) : Fin 2 :=
  rdfsGetNumaByInode sb (getRdfsInode sb inode.iIno)

/-- The pte cursor is in a page of its own, or at address 0 if it has not had one yet. -/
def CursorReady (g : Master) (own : List ℕ) : Prop :=
  g.pteCnt ≤ 512 ∧ (g.ptePhyAddr ∈ own ∨ g.ptePhyAddr = 0)

/-- How many pages the cursor takes for the next block : one at the end of its page, if node `i`
has another. -/
def cursorTakes (g : Master) (i : Fin 2) : ℕ :=
  if g.pteCnt = 512 ∧ 0 < (g.nvm.numaDes i).freePageCount then 1 else 0

theorem Region.Behind.page_le (hR : R.Behind) : 4096 ≤ R.start 0 := by
  have hspace : 4096 ≤ addressToInoSpace := by decide
  exact le_trans (by omega) hR

/-- A pte value at the cursor changes no table. -/
theorem FileState.store_cursor {p c : ℕ} (h : FileState R st ino t own) (hR : R.Behind)
    (hp : p ∈ own ∨ p = 0) (hc : c < 512) (value : ℕ) :
    FileState R ⟨st.mem.store 8 (p + 8 * c) value, st.numaDes⟩ ino t own := by
  have hstore : Mem.SameOff st.mem (st.mem.store 8 (p + 8 * c) value) 8 (p + 8 * c) :=
    Mem.sameOff_store _ _ _ _
  have hstart := hR.page_le
  refine h.congr (fun _ => ⟨rfl, rfl⟩) (fun q hq hqn => hstore.sameOn ?_) (hstore.sameOn ?_)
  · rcases hp with hp | rfl
    · have hpage := h.owned.isPage (mem_append_right _ hp)
      have := hpage.disjoint hq fun heq => hqn (heq ▸ hp)
      omega
    · have := R.start_le_isPage hq
      omega
  · rcases hp with hp | rfl
    · have := R.isSlot_disjoint_page h.isSlot (h.owned.isPage (mem_append_right _ hp))
      omega
    · have := R.start_le_isSlot h.isSlot
      omega

/-- A cursor at the end of its page that finds no other starts over in the same one. -/
theorem takeBlock_startOver (hcnt : s.master.pteCnt = 512)
    (hno : (s.master.nvm.numaDes (cursorNode sb s.inode)).freePageCount = 0) :
    takeBlock sb cpu 1 .pte s =
      takeBlock sb cpu 1 .pte { s with master := { s.master with pteCnt := 0 } } := by
  have hnode : newBlockNode sb cpu (some (getRdfsInode sb s.inode.iIno)) =
      cursorNode sb s.inode := rfl
  have hfail : rdfsNewBlock sb cpu s.master.nvm s.master.ptePhyAddr 1
      (some (getRdfsInode sb s.inode.iIno)) = (-1, s.master.ptePhyAddr, s.master.nvm) :=
    rdfsNewBlock_fail _ (by rw [hnode, hno]; decide)
  have hend : s.master.pteCnt = pagePteNums := hcnt
  have hstart : ¬(0 : ℕ) = pagePteNums := by decide
  simp only [takeBlock, rdfsNewPagePte, if_pos hend, if_neg hstart, hfail]

/-- What the first part of a round has done : it has entered nothing yet, the cursor has moved on,
and it is in the page `target`. -/
structure TookCursor (R : Region sb) (s s₁ : AllocState) (t : Option Tree) (own : List ℕ)
    (target : ℕ) : Prop where
  state : FileState R s₁.master.nvm s.inode.iIno t own
  cursor : CursorReady s₁.master own
  ptePhyAddr : s₁.master.ptePhyAddr = target
  pteCnt : s₁.master.pteCnt = s.master.pteCnt % 512 + 1
  took : Took (cursorNode sb s.inode) (cursorTakes s.master (cursorNode sb s.inode))
    s.master.nvm s₁.master.nvm

section

variable {s₁ : AllocState} {target : ℕ} (h : TookCursor R s s₁ t own target)
include h

/-- What is entered is the page of the cursor. -/
theorem TookCursor.target_lt : target ||| pageKernel < 2 ^ 64 := by
  rw [← h.ptePhyAddr]
  rcases h.cursor.2 with hown | hzero
  · exact (blockEntry_and (h.state.owned.isPage (mem_append_right _ hown))).2.2
  · rw [hzero]
    decide

/-- The free pages of a node, in the terms of `roundTakes`. -/
theorem TookCursor.count (n : Fin 2) : (s₁.master.nvm.numaDes n).freePageCount +
        (if n = cursorNode sb s.inode then cursorTakes s.master n else 0) =
      (s.master.nvm.numaDes n).freePageCount := by
  have hcount := h.took.count n
  by_cases hsame : n = cursorNode sb s.inode
  · rw [if_pos hsame] at hcount ⊢
    rwa [← hsame] at hcount
  · rwa [if_neg hsame] at hcount ⊢

end

section

variable (h : FileState R s.master.nvm s.inode.iIno t own) (hR : R.Behind)
  (hcur : CursorReady s.master own)
include h hR hcur

/-- A cursor inside its page stays there. -/
theorem FileState.take_inPage (hlt : s.master.pteCnt < 512) (cpu : ℕ) :
    ∃ target s₁, takeBlock sb cpu 1 .pte s = (target, s₁) ∧ TookCursor R s s₁ t own target := by
  have hne : ¬s.master.pteCnt = pagePteNums := hlt.ne
  have hnone : cursorTakes s.master (cursorNode sb s.inode) = 0 := if_neg (by omega)
  simp only [takeBlock, rdfsNewPagePte, if_neg hne, rdfsPa_rdfsVa, Nat.mul_comm s.master.pteCnt]
  refine ⟨_, _, rfl, h.store_cursor hR hcur.2 hlt _, ⟨hlt, hcur.2⟩, rfl, ?_, ?_⟩
  · rw [Nat.mod_eq_of_lt hlt]
  · rw [hnone]
    exact (Took.refl _ s.master.nvm).write _

/-- The first part of a round. -/
theorem FileState.take_ready (cpu : ℕ) :
    ∃ target s₁ own', takeBlock sb cpu 1 .pte s = (target, s₁) ∧
      TookCursor R s s₁ t own' target := by
  rcases Nat.lt_or_eq_of_le hcur.1 with hlt | heq
  · obtain ⟨target, s₁, htake, htook⟩ := h.take_inPage hR hcur hlt cpu
    exact ⟨target, s₁, own, htake, htook⟩
  generalize hi : cursorNode sb s.inode = i
  by_cases hfree : 0 < (s.master.nvm.numaDes i).freePageCount
  · -- the cursor moves to a new page
    obtain ⟨new, p, c, nvm', htake, hp, hc, hown, hm, htook, hplace⟩ := h.owned.takePte cpu 1
      (⟨hcur.1, fun hlt => absurd heq hlt.ne⟩) hi (fun _ => hfree) rfl
    obtain ⟨-, rfl, rfl⟩ := hplace.resolve_right fun hno => hno.1.ne heq
    have hone : cursorTakes s.master (cursorNode sb s.inode) = 1 := if_pos ⟨heq, hi.symm ▸ hfree⟩
    have hstore : SameOffPages s.master.nvm.mem nvm'.mem [p] :=
      hm ▸ SameOffPages.of_sameOff (Mem.sameOff_store _ _ _ _) (by omega) (by omega)
    refine ⟨p, _, [p] ++ own, htake, h.of_sameOffPages hown (hstore.mono (by simp)),
      ⟨show 0 + 1 ≤ 512 by decide, .inl hp⟩, rfl, by rw [heq], ?_⟩
    rw [hone, hi]
    exact htook
  · have hnone : cursorTakes s.master (cursorNode sb s.inode) = 0 :=
      if_neg fun hno => hfree (hi ▸ hno.2)
    obtain ⟨target, s₁, htake, htook⟩ := FileState.take_inPage
      (s := { s with master := { s.master with pteCnt := 0 } }) h hR ⟨Nat.zero_le _, hcur.2⟩
      (show 0 < 512 by decide) cpu
    rw [← takeBlock_startOver heq (by rw [hi]; omega)] at htake
    refine ⟨target, s₁, own, htake, htook.state, htook.cursor, htook.ptePhyAddr, ?_, ?_⟩
    · have hcnt := htook.pteCnt
      dsimp only at hcnt
      omega
    · rw [hnone]
      exact htook.took

end

/-- Before a round the table holds the blocks of the inode, and the cursor is ready. -/
def Ready (R : Region sb) (s : AllocState) : Prop :=
  ∃ t own, FileRep R s.master.nvm s.inode.iIno t own ∧ t.ents.length = s.inode.iBlocks ∧
    CursorReady s.master own

/-- The pages of node `n` that a round takes. -/
def roundTakes (sb : Super) (n : Fin 2) (s : AllocState) : ℕ :=
  tableSize (s.inode.iBlocks + 1) - tableSize s.inode.iBlocks +
    if n = cursorNode sb s.inode then cursorTakes s.master n else 0

namespace Ready

variable {s s' : AllocState}

section

variable (h : Ready R s) (hR : R.Behind)
include h hR

/-- The first half of a round, which leaves the table and the inode ready for the second. -/
theorem take (cpu : ℕ) : ∃ t target s₁ own, takeBlock sb cpu 1 .pte s = (target, s₁) ∧
      TookCursor R s s₁ (some t) own target ∧ FileRep R s₁.master.nvm s₁.inode.iIno t own ∧
      t.ents.length = s₁.inode.iBlocks ∧ s₁.inode.iBlocks = s.inode.iBlocks ∧
      s₁.inode.iVirtAddr = s.inode.iVirtAddr := by
  obtain ⟨t, own, hrep, hlen, hcur⟩ := h
  obtain ⟨target, s₁, own', htake, htook⟩ := FileState.take_ready hrep.fileState hR hcur cpu
  obtain ⟨b, hinode⟩ := takeBlock_inode htake
  have hino : s₁.inode.iIno = s.inode.iIno := by rw [hinode]
  have hblocks : s₁.inode.iBlocks = s.inode.iBlocks := by rw [hinode]
  refine ⟨t, target, s₁, own', htake, htook, ?_, hlen.trans hblocks.symm, hblocks, by rw [hinode]⟩
  rw [hino]
  exact htook.state.fileRep

/-- A round that succeeds. -/
theorem round (haddr : AddrOk s.inode.iVirtAddr s.inode.iBlocks)
    (hround : allocRound sb cpu 1 .pte s = (0, s')) :
    Ready R s' ∧ s'.master.pteCnt = s.master.pteCnt % 512 + 1 ∧
      (s'.master.nvm.numaDes (getCpuNuma sb cpu)).freePageCount +
        roundTakes sb (getCpuNuma sb cpu) s =
      (s.master.nvm.numaDes (getCpuNuma sb cpu)).freePageCount := by
  generalize hn : getCpuNuma sb cpu = n
  obtain ⟨t, target, s₁, own, htake, htook, hrep, hlen, hblocks, hvirt⟩ := h.take hR cpu
  have henter : enterBlock sb cpu target s₁ = (0, s') := by
    rw [allocRound, htake] at hround
    exact hround
  rw [← hvirt, ← hblocks] at haddr
  obtain ⟨t', nvm', k', rfl, hrep', hlen', htable, -⟩ :=
    hrep.enterBlock_zero hlen haddr hn htook.target_lt henter
  refine ⟨⟨t', own, hrep', hlen', htook.cursor⟩, htook.pteCnt, ?_⟩
  have hcount := htook.count n
  have hcount' := htable.count n
  rw [if_pos rfl, hblocks] at hcount'
  rw [roundTakes]
  dsimp only
  omega

/-- A round succeeds if the pages it takes are there. -/
theorem round_zero_iff (haddr : AddrOk s.inode.iVirtAddr s.inode.iBlocks) (cpu : ℕ) :
    (allocRound sb cpu 1 .pte s).1 = 0 ↔ roundTakes sb (getCpuNuma sb cpu) s ≤
      (s.master.nvm.numaDes (getCpuNuma sb cpu)).freePageCount := by
  obtain ⟨n, hn⟩ : ∃ n, getCpuNuma sb cpu = n := ⟨_, rfl⟩
  obtain ⟨⟨r, s'⟩, hround⟩ : ∃ r, allocRound sb cpu 1 .pte s = r := ⟨_, rfl⟩
  refine ⟨fun hzero => ?_, fun hle => ?_⟩
  · rw [hround] at hzero
    subst hzero
    have hcount := (h.round hR haddr hround).2.2
    omega
  · obtain ⟨t, target, s₁, own, htake, htook, hrep, hlen, hblocks, hvirt⟩ := h.take hR cpu
    rw [← hvirt, ← hblocks] at haddr
    have hroom : tableSize (s₁.inode.iBlocks + 1) ≤
        (s₁.master.nvm.numaDes n).freePageCount + tableSize s₁.inode.iBlocks := by
      have hcount := htook.count n
      rw [hn, roundTakes] at hle
      rw [hblocks]
      omega
    obtain ⟨t', nvm', k', henter, -⟩ := hrep.enterBlock hlen haddr htook.target_lt hn hroom
    rw [allocRound, htake]
    exact congrArg Prod.fst henter

/-- When the insertion of the next round is inside. -/
theorem insertInside_iff (hv : AreaStart s.inode.iVirtAddr) (hle : s.inode.iBlocks ≤ 2 ^ 27)
    (cpu : ℕ) : let t := (takeBlock sb cpu 1 .pte s).2
    InsertInside sb (countBlock sb t.master.nvm t.inode).mem t.inode.iIno t.inode.iVirtAddr
        (t.inode.iBlocks + 1) ↔
      s.inode.iBlocks < 2 ^ 23 ∨ s.inode.iBlocks % 2 ^ 18 ≠ 0 := by
  obtain ⟨t, target, s₁, own, htake, -, hrep, hlen, hblocks, hvirt⟩ := h.take hR cpu
  rw [htake]
  dsimp only
  rw [← hvirt] at hv
  rw [← hblocks, ← hlen] at hle ⊢
  exact hrep.countBlock.insertInside_iff hv hle

end

end Ready

/-- The first block from `b` on whose insertion maps something outside the area. -/
def firstOutside (b : ℕ) : ℕ := max (2 ^ 23) ((b + 2 ^ 18 - 1) / 2 ^ 18 * 2 ^ 18)

theorem le_firstOutside (b : ℕ) : b ≤ firstOutside b := by
  unfold firstOutside
  omega

theorem lt_firstOutside_iff {b : ℕ} : b < firstOutside b ↔ b < 2 ^ 23 ∨ b % 2 ^ 18 ≠ 0 := by
  unfold firstOutside
  omega

theorem firstOutside_succ {b : ℕ} (h : b < firstOutside b) :
    firstOutside (b + 1) = firstOutside b := by
  unfold firstOutside at *
  omega

theorem allocLoop_succ_of_ne (h : (allocRound sb cpu 1 .pte s).1 ≠ 0) :
    allocLoop sb cpu 1 .pte (num + 1) s = allocRound sb cpu 1 .pte s := by
  unfold allocLoop
  exact if_pos h

theorem allocLoop_succ_of_eq (h : (allocRound sb cpu 1 .pte s).1 = 0) :
    allocLoop sb cpu 1 .pte (num + 1) s =
      allocLoop sb cpu 1 .pte num (allocRound sb cpu 1 .pte s).2 := by
  rw [allocLoop]
  exact if_neg (not_not.2 h)

/-- Rounds of a file whose table is in order keep to its area unless the first block outside is
reached. -/
theorem Ready.insertsInside_iff (hR : R.Behind) (cpu num : ℕ) : ∀ {s : AllocState}, Ready R s →
    AreaStart s.inode.iVirtAddr → s.inode.iBlocks ≤ 2 ^ 27 →
    (InsertsInside sb cpu num s ↔ s.inode.iBlocks + num ≤ firstOutside s.inode.iBlocks ∨
      (allocLoop sb cpu 1 .pte (firstOutside s.inode.iBlocks - s.inode.iBlocks) s).1 ≠ 0) := by
  induction num with
  | zero => exact fun _ _ _ => iff_of_true trivial (.inl (le_firstOutside _))
  | succ num ih =>
    intro s h hv hle
    have hinsert := h.insertInside_iff hR hv hle cpu
    dsimp only at hinsert
    rw [← lt_firstOutside_iff] at hinsert
    by_cases hlt : s.inode.iBlocks < firstOutside s.inode.iBlocks
    · obtain ⟨k, hk⟩ : ∃ k, firstOutside s.inode.iBlocks - s.inode.iBlocks = k + 1 :=
        ⟨_, (Nat.succ_pred_eq_of_pos (by omega)).symm⟩
      rcases hround : allocRound sb cpu 1 .pte s with ⟨r, s₁⟩
      rw [InsertsInside, hinsert, and_iff_right hlt, hk, hround]
      by_cases hret : r = 0
      · subst hret
        obtain ⟨b, hinode⟩ := allocRound_inode hround
        have hlt' : s.inode.iBlocks < 2 ^ 27 := by
          unfold firstOutside at hlt
          omega
        have hblocks : s₁.inode.iBlocks = s.inode.iBlocks + 1 := by rw [hinode]
        have hnext := ih (h.round hR (hv.addrOk hlt') hround).1 (by rwa [hinode]) (by omega)
        rw [hblocks, firstOutside_succ hlt, show firstOutside s.inode.iBlocks -
          (s.inode.iBlocks + 1) = k by omega, Nat.add_assoc, Nat.add_comm 1 num] at hnext
        rw [imp_iff_right rfl, hnext, allocLoop_succ_of_eq (by rw [hround]), hround]
      · rw [allocLoop_succ_of_ne (by rwa [hround]), hround]
        exact iff_of_true (fun h0 => absurd h0 hret) (.inr hret)
    · have heq := le_antisymm (le_firstOutside s.inode.iBlocks) (not_lt.1 hlt)
      refine iff_of_false (fun hin => hlt (hinsert.1 hin.1)) ?_
      rw [← heq, Nat.sub_self]
      rintro (hsum | hfail)
      · omega
      · exact hfail rfl

/-- The pages of node `n` that `num` rounds need if a table of `held` pages is there : those the
table lacks and, if the cursor takes its pages from the same node, those it takes before the last of
these. -/
def pagesNeeded (n i : Fin 2) (held blocks cnt num : ℕ) : ℕ :=
  if tableSize (blocks + num) = held then 0
  else tableSize (blocks + num) - held +
    if n = i then (cnt + ((blocks + num - 1) / 512 * 512 - blocks)) / 512 else 0

theorem tableSize_eq_iff {a b : ℕ} (h : a ≤ b) :
    tableSize b = tableSize a ↔ (b - 1) / 512 = (a - 1) / 512 := by
  unfold tableSize
  omega

/-- One round takes its pages, and the others need the rest. -/
theorem pagesNeeded_succ (n i : Fin 2) (blocks num : ℕ) {cnt : ℕ} (free : ℕ) (hcnt : cnt ≤ 512) :
    let takes := tableSize (blocks + 1) - tableSize blocks +
      if n = i then (if cnt = 512 ∧ 0 < free then 1 else 0) else 0
    pagesNeeded n i (tableSize blocks) blocks cnt (num + 1) ≤ free ↔ takes ≤ free ∧
      pagesNeeded n i (tableSize (blocks + 1)) (blocks + 1) (cnt % 512 + 1) num + takes ≤ free := by
  intro takes
  have hrest := tableSize_eq_iff (show blocks + 1 ≤ blocks + (num + 1) by omega)
  have hmono := tableSize_mono (Nat.le_succ blocks)
  have hmono' := tableSize_mono (show blocks + 1 ≤ blocks + (num + 1) by omega)
  simp only [takes, pagesNeeded, show blocks + 1 + num = blocks + (num + 1) by omega]
  generalize tableSize blocks = x at *
  generalize tableSize (blocks + 1) = y at *
  generalize tableSize (blocks + (num + 1)) = z at *
  split_ifs <;> omega

/-- What a table that is not there yet needs besides : its first three pages. -/
theorem pagesNeeded_none_iff (n i : Fin 2) (cnt free : ℕ) (h : 512 < num) :
    pagesNeeded n i (tableSize 0) 0 cnt num ≤ free ↔
      pagesNeeded n i 0 0 cnt num ≤ free + tableSize 0 := by
  have hlt : tableSize 0 < tableSize (0 + num) := by
    unfold tableSize
    omega
  have hne : tableSize (0 + num) ≠ tableSize 0 := hlt.ne'
  have hne' : tableSize (0 + num) ≠ 0 := Nat.ne_zero_of_lt hlt
  rw [pagesNeeded, pagesNeeded, if_neg hne, if_neg hne']
  omega

/-- When `num` rounds all succeed. -/
theorem Ready.allocLoop_zero_iff (hR : R.Behind) (hn : getCpuNuma sb cpu = n) (num : ℕ) :
    ∀ {s : AllocState}, Ready R s → AreaStart s.inode.iVirtAddr → s.inode.iBlocks + num ≤ 2 ^ 27 →
    ((allocLoop sb cpu 1 .pte num s).1 = 0 ↔
      pagesNeeded n (cursorNode sb s.inode) (tableSize s.inode.iBlocks) s.inode.iBlocks
        s.master.pteCnt num ≤ (s.master.nvm.numaDes n).freePageCount) := by
  induction num with
  | zero =>
    intro s _ _ _
    rw [pagesNeeded, Nat.add_zero, if_pos rfl]
    exact iff_of_true rfl (Nat.zero_le _)
  | succ num ih =>
    intro s h hv hle
    have haddr : AddrOk s.inode.iVirtAddr s.inode.iBlocks := hv.addrOk (by omega)
    obtain ⟨-, -, -, -, hcnt, -⟩ := id h
    have hstep : pagesNeeded n (cursorNode sb s.inode) (tableSize s.inode.iBlocks) s.inode.iBlocks
          s.master.pteCnt (num + 1) ≤ (s.master.nvm.numaDes n).freePageCount ↔
        roundTakes sb n s ≤ (s.master.nvm.numaDes n).freePageCount ∧
          pagesNeeded n (cursorNode sb s.inode) (tableSize (s.inode.iBlocks + 1))
            (s.inode.iBlocks + 1) (s.master.pteCnt % 512 + 1) num + roundTakes sb n s ≤
            (s.master.nvm.numaDes n).freePageCount :=
      pagesNeeded_succ n _ s.inode.iBlocks num _ hcnt
    have hround := h.round_zero_iff hR haddr cpu
    rcases hr : allocRound sb cpu 1 .pte s with ⟨r, s₁⟩
    rw [hn, hr] at hround
    rw [hstep]
    by_cases hret : r = 0
    · subst hret
      obtain ⟨b, hinode⟩ := allocRound_inode hr
      obtain ⟨hready, hcnt', hfree⟩ := h.round hR haddr hr
      have hblocks : s₁.inode.iBlocks = s.inode.iBlocks + 1 := by rw [hinode]
      have hnode : cursorNode sb s₁.inode = cursorNode sb s.inode := by rw [hinode]; rfl
      have hrest := ih hready (by rwa [hinode]) (by omega)
      rw [hblocks, hnode, hcnt'] at hrest
      rw [hn] at hfree
      rw [allocLoop_succ_of_eq (by rw [hr]), hr, hrest]
      omega
    · rw [allocLoop_succ_of_ne (by rwa [hr]), hr]
      exact iff_of_false hret fun hno => hret (hround.2 hno.1)

theorem takeBlock_kernel (sb : Super) (cpu : ℕ) (s : AllocState) :
    (takeBlock sb cpu 1 .pte s).2.master.kernel = s.master.kernel := by
  simp only [takeBlock, rdfsNewPagePte]
  by_cases h : s.master.pteCnt = pagePteNums
  · simp only [if_pos h]
  · simp only [if_neg h]

/-- Rounds that are inside leave the entries of other areas alone. -/
theorem InsertsInside.others (num : ℕ) : ∀ {s : AllocState}, InsertsInside sb cpu num s →
    ∀ x, ¬(s.inode.iVirtAddr / 2 ^ 30 ≤ x ∧ x < s.inode.iVirtAddr / 2 ^ 30 + 32) →
      (allocLoop sb cpu 1 .pte num s).2.master.kernel.pud x = s.master.kernel.pud x := by
  induction num with
  | zero => exact fun _ _ _ => rfl
  | succ num ih =>
    intro s h x hx
    rcases htake : takeBlock sb cpu 1 .pte s with ⟨target, s₁⟩
    rcases hround : allocRound sb cpu 1 .pte s with ⟨r, s₂⟩
    have hkernel := takeBlock_kernel sb cpu s
    obtain ⟨hin, hrest⟩ := h
    obtain ⟨b, hinode⟩ := takeBlock_inode htake
    obtain ⟨b', hinode'⟩ := allocRound_inode hround
    rw [htake] at hin hkernel
    dsimp only at hin
    have hfirst : s₂.master.kernel.pud x = s.master.kernel.pud x := by
      rcases hr : rdfsInsertPage sb cpu (countBlock sb s₁.master.nvm s₁.inode) s₁.master.kernel
        s₁.inode.iIno s₁.inode.iVirtAddr (s₁.inode.iBlocks + 1) target with ⟨e, nvm', k'⟩
      have hother := hin.others cpu s₁.master.kernel target (x := x) (by rwa [hinode])
      rw [hr] at hother
      rw [allocRound, htake, enterBlock_eq hr] at hround
      obtain ⟨-, rfl⟩ := Prod.mk.inj hround
      rw [← hkernel]
      exact hother
    rw [hround] at hrest
    by_cases hret : r = 0
    · rw [allocLoop_succ_of_eq (by rwa [hround]), hround,
        ih (hrest hret) x (by rwa [hinode']), hfirst]
    · rw [allocLoop_succ_of_ne (by rwa [hround]), hround, hfirst]

/-! ## A call -/

section Call

variable {g : Master} {inode : Inode} {t : Option Tree} {own : List ℕ}

theorem CursorReady.mono {g : Master} {own own' : List ℕ} (h : CursorReady g own)
    (hsub : own ⊆ own') : CursorReady g own' :=
  ⟨h.1, h.2.imp_left fun hp => hsub hp⟩

/-- The cursor is not moved by `ensureTable`. -/
theorem ensureTable_cursor (sb : Super) (cpu : ℕ) (g : Master) (inode : Inode) :
    (ensureTable sb cpu g inode).pteCnt = g.pteCnt ∧
      (ensureTable sb cpu g inode).ptePhyAddr = g.ptePhyAddr := by
  rw [ensureTable]
  split_ifs
  · exact ⟨rfl, rfl⟩
  · exact ⟨rfl, rfl⟩

theorem CursorReady.ensureTable {g : Master} {own : List ℕ} (h : CursorReady g own) (sb : Super)
    (cpu : ℕ) (inode : Inode) : CursorReady (ensureTable sb cpu g inode) own := by
  obtain ⟨hcnt, hphy⟩ := ensureTable_cursor sb cpu g inode
  rw [CursorReady, hcnt, hphy]
  exact h

/-- The first round of an inode without a table fails. -/
theorem FileState.round_ne_zero_ready (h : FileState R s.master.nvm s.inode.iIno none own)
    (hR : R.Behind) (h0 : s.inode.iBlocks = 0) (hcur : CursorReady s.master own) :
    (allocRound sb cpu 1 .pte s).1 ≠ 0 := by
  obtain ⟨target, s₁, own', htake, htook⟩ := FileState.take_ready h hR hcur cpu
  obtain ⟨b, hinode⟩ := takeBlock_inode htake
  have hino : s₁.inode.iIno = s.inode.iIno := by rw [hinode]
  have hstate := htook.state
  rw [← hino] at hstate
  rcases henter : enterBlock sb cpu target s₁ with ⟨r, s'⟩
  rw [allocRound, htake]
  rw [henter]
  rintro rfl
  exact hstate.enterBlock_ne_zero (by rw [hinode, ← h0]) henter

theorem loopStart_master (sb : Super) (cpu : ℕ) (g : Master) (inode : Inode) (phys : ℕ) :
    (loopStart sb cpu g inode phys).master = ensureTable sb cpu g inode := by
  simp only [loopStart]

theorem loopStart_inode (sb : Super) (cpu : ℕ) (g : Master) (inode : Inode) (phys : ℕ) :
    (loopStart sb cpu g inode phys).inode = inode := rfl

/-- The loop starts with the table in order, or its first round fails because there is none. -/
theorem FileState.loopStart_ready (h : FileState R g.nvm inode.iIno t own) (hR : R.Behind)
    (hlen : (fileEnts t).length = inode.iBlocks) (hcur : CursorReady g own)
    (hn : getCpuNuma sb cpu = n) (phys : ℕ) : (Ready R (loopStart sb cpu g inode phys) ∧
        ((loopStart sb cpu g inode phys).master.nvm.numaDes n).freePageCount +
          (tableSize inode.iBlocks - heldSize t) = (g.nvm.numaDes n).freePageCount) ∨
      t = none ∧ (g.nvm.numaDes n).freePageCount < 3 ∧
        (allocRound sb cpu 1 .pte (loopStart sb cpu g inode phys)).1 ≠ 0 := by
  have hcur' := hcur.ensureTable sb cpu inode
  by_cases hroom : 3 ≤ (g.nvm.numaDes n).freePageCount + heldSize t
  · obtain ⟨t', nvm', k', htable, hrep, hents, htook, -⟩ := h.ensureTable hn hroom
    have hcount := htook.count n
    rw [if_pos rfl, hents, hlen] at hcount
    rw [htable] at hcur'
    refine .inl ⟨⟨t', own, ?_, ?_, ?_⟩, ?_⟩
    · rw [loopStart_master, loopStart_inode, htable]
      exact hrep
    · rw [loopStart_inode, hents, hlen]
    · rw [loopStart_master, htable]
      exact hcur'
    · rw [loopStart_master, htable]
      exact hcount
  · cases t with
    | none =>
      have hfew : (g.nvm.numaDes n).freePageCount < 3 := by
        simp only [heldSize, elim_none] at hroom
        omega
      obtain ⟨lost, hstate⟩ := h.ensureTable_fails hn hfew
      rw [← loopStart_master sb cpu g inode phys] at hstate hcur'
      exact .inr ⟨rfl, hfew, FileState.round_ne_zero_ready hstate hR hlen.symm
        (hcur'.mono (subset_append_right lost own))⟩
    | some t =>
      simp only [heldSize, elim_some, tableSize] at hroom
      omega

theorem rdfsAllocBlocks_eq_allocLoop (sb : Super) (cpu : ℕ) (g : Master) (inode : Inode)
    (num phys : ℕ) : rdfsAllocBlocks sb cpu g inode num 1 .pte phys =
      allocLoop sb cpu 1 .pte num (loopStart sb cpu g inode phys) := by
  simp only [rdfsAllocBlocks, Int.toNat_natCast, allocStart, loopStart]

/-- The entries of other areas are as before if every insertion is inside. -/
theorem writeInside_iff_inserts {bs : BlockSize} {pos length phys : ℕ} :
    WriteInside bs sb cpu g inode pos length phys ↔
      InsertsInside sb cpu (bs.blocksAsked inode.iSize pos length)
        (loopStart sb cpu g inode phys) := by
  refine ⟨WriteInside.inserts, fun h => ⟨h, fun x hx => ?_⟩⟩
  exact h.others _ x (by rwa [loopStart_inode])

section

variable (h : FileState R g.nvm inode.iIno t own) (hR : R.Behind)
  (hlen : (fileEnts t).length = inode.iBlocks)
include h hR hlen

/-- When a call of `rdfs_alloc_blocks` appends all of its blocks, if there are enough of them for a
table that is new to grow. -/
theorem FileState.allocBlocks_zero_iff (hcur : CursorReady g own) (hv : AreaStart inode.iVirtAddr)
    (hn : getCpuNuma sb cpu = n) (hle : inode.iBlocks + num ≤ 2 ^ 27) (hnum : t = none → 512 < num)
    (phys : ℕ) : (rdfsAllocBlocks sb cpu g inode num 1 .pte phys).1 = 0 ↔
      pagesNeeded n (cursorNode sb inode) (heldSize t) inode.iBlocks g.pteCnt num ≤
        (g.nvm.numaDes n).freePageCount := by
  rw [rdfsAllocBlocks_eq_allocLoop]
  rcases h.loopStart_ready hR hlen hcur hn phys with ⟨hready, hfree⟩ | ⟨rfl, hfew, hfail⟩
  · have hiff := hready.allocLoop_zero_iff hR hn num hv hle
    rw [loopStart_inode, loopStart_master, (ensureTable_cursor sb cpu g inode).1] at hiff
    rw [loopStart_master] at hfree
    rw [hiff, ← hfree]
    cases t with
    | some t =>
      rw [show heldSize (some t) = tableSize inode.iBlocks from congrArg tableSize hlen,
        Nat.sub_self, Nat.add_zero]
    | none =>
      have h0 : inode.iBlocks = 0 := hlen.symm
      rw [h0, show heldSize none = 0 from rfl, Nat.sub_zero]
      exact pagesNeeded_none_iff n _ _ _ (hnum rfl)
  · have hlt := hnum rfl
    have hthree : 3 ≤ tableSize (inode.iBlocks + num) := by
      unfold tableSize
      omega
    refine iff_of_false ?_ ?_
    · obtain ⟨k, rfl⟩ : ∃ k, num = k + 1 := ⟨num - 1, by omega⟩
      rw [allocLoop_succ_of_ne hfail]
      exact hfail
    · rw [pagesNeeded, show heldSize none = 0 from rfl, if_neg (by omega)]
      omega

/-- A call of `rdfs_alloc_blocks` on a file in order keeps to the area of the file if it stays below
the first block outside, or if the pages for the blocks before that are not there. -/
theorem FileState.insertsInside_iff (hle : inode.iBlocks ≤ 2 ^ 27) (hv : AreaStart inode.iVirtAddr)
    (hcur : CursorReady g own) (num phys : ℕ) :
    InsertsInside sb cpu num (loopStart sb cpu g inode phys) ↔
      inode.iBlocks + num ≤ firstOutside inode.iBlocks ∨
        (g.nvm.numaDes (getCpuNuma sb cpu)).freePageCount < pagesNeeded (getCpuNuma sb cpu)
          (cursorNode sb inode) (heldSize t) inode.iBlocks g.pteCnt
          (firstOutside inode.iBlocks - inode.iBlocks) := by
  have hend : inode.iBlocks + (firstOutside inode.iBlocks - inode.iBlocks) ≤ 2 ^ 27 := by
    unfold firstOutside
    omega
  have hnum : t = none → 512 < firstOutside inode.iBlocks - inode.iBlocks := by
    rintro rfl
    rw [hlen.symm]
    decide
  have hpages := h.allocBlocks_zero_iff hR hlen hcur hv (show getCpuNuma sb cpu = _ from rfl) hend
    hnum phys
  rw [← not_le, ← hpages, rdfsAllocBlocks_eq_allocLoop]
  rcases h.loopStart_ready hR hlen hcur (show getCpuNuma sb cpu = _ from rfl) phys with
    ⟨hready, -⟩ | ⟨rfl, -, hfail⟩
  · have hiff := hready.insertsInside_iff hR cpu num hv hle
    rw [loopStart_inode] at hiff
    exact hiff
  · have h0 : inode.iBlocks = 0 := hlen.symm
    refine iff_of_true ?_ (.inr ?_)
    · cases num with
      | zero => trivial
      | succ num =>
        rcases htake : takeBlock sb cpu 1 .pte (loopStart sb cpu g inode phys) with ⟨target, s₁⟩
        obtain ⟨b, hinode⟩ := takeBlock_inode htake
        rw [loopStart_inode] at hinode
        refine ⟨?_, fun hz => absurd hz hfail⟩
        rw [htake]
        rw [hinode]
        exact InsertInside.of_lt hv (by dsimp only; omega) _
    · rw [h0, show firstOutside 0 - 0 = 8388607 + 1 by decide, allocLoop_succ_of_ne hfail]
      exact hfail

end

/-- A write through the master or a request of a client on a regular file in order keeps to the area
of the file if and only if it stays below the first block outside, or the node of the processor
lacks pages for the blocks before that. -/
theorem writeInside_iff {size b : ℕ} (hopt : bsOption size = .ok b) (hR : R.Behind)
    (h : FileState R g.nvm inode.iIno t own) (hlen : (fileEnts t).length = inode.iBlocks)
    (hle : inode.iBlocks ≤ 2 ^ 27) (hs : inode.iSize < 2 ^ 63) (hv : AreaStart inode.iVirtAddr)
    (hcur : CursorReady g own) (pos length phys : ℕ) :
    WriteInside (rdfsSetBlocksize b) sb cpu g inode pos length phys ↔
      inode.iBlocks + blocksLacking b inode.iSize pos length ≤ firstOutside inode.iBlocks ∨
        (g.nvm.numaDes (getCpuNuma sb cpu)).freePageCount < pagesNeeded (getCpuNuma sb cpu)
          (cursorNode sb inode) (heldSize t) inode.iBlocks g.pteCnt
          (firstOutside inode.iBlocks - inode.iBlocks) := by
  obtain ⟨rfl, hsize⟩ := bsOption_ok_iff.1 hopt
  rw [writeInside_iff_inserts, blocksAsked_eq hsize hs]
  exact h.insertsInside_iff hR hlen hle hv hcur _ phys

end Call

theorem areaStart_emptyFile : AreaStart emptyFile.iVirtAddr :=
  .inr (mem_regAreas.2 ⟨0, by decide, rfl⟩)

/-- The first byte of a file. -/
theorem writeInside_firstByte :
    WriteInside (rdfsSetBlocksize 4096) Region.behindTables 0 freshMaster emptyFile 0 1 0 :=
  (writeInside_iff (bsOption_ok_iff.2 ⟨rfl, .inl rfl⟩) behind_plain fileState_emptyFile rfl
    (by decide) (by decide) areaStart_emptyFile ⟨by decide, .inr rfl⟩ 0 1 0).2 (.inl (by decide))

/-! ## A byte behind the area -/

/-- A mount of 512 MB. -/
def Region.large : Region Region.behindTables where
  start n := if n = 0 then 0x100003000 else 0
  stop n := if n = 0 then 0x120003000 else 0
  percentage := 1
  des_zero := plain.des_zero
  des_one := plain.des_one
  line h := by cases h
  single := plain.single
  fits := by decide
  stop_lt := by decide
  count_lt := by decide

/-- That mount, with the cursor at the end of its page. -/
def largeMaster : Master := { freshMaster with nvm := Region.large.mount fun _ => 0 }

theorem fileState_large : FileState Region.large largeMaster.nvm emptyFile.iIno none [] := by
  refine ⟨⟨0, 0, .inl rfl, Nat.zero_le _, rfl⟩, Region.large.owned_mount _, by simp, ?_⟩
  have hstart : Region.large.start 0 = 0x100003000 := rfl
  have hslot : getRdfsInodePhyAddr Region.behindTables emptyFile.iIno = 0x100003080 := by decide
  have hzero : ∀ x, 0x100003080 + 72 ≤ x → x < 0x100003080 + 72 + 8 →
      (Region.large.mount fun _ => 0).mem x = 0 := fun x hlo hhi =>
    Region.large.mount_apply_zero _ rfl (by rw [hstart]; omega) (by rw [hstart]; omega)
  rw [hslot]
  exact Mem.load_eq_zero hzero

/-- A write of one byte 32 GB behind the beginning of an empty file appends all blocks before it,
and maps the last one into the area of the next file. -/
theorem byte_behind_area : FileState Region.large largeMaster.nvm emptyFile.iIno none [] ∧
      ¬WriteInside (rdfsSetBlocksize 4096) Region.behindTables 0 largeMaster emptyFile (2 ^ 35) 1
        0 := by
  have hR : Region.large.Behind := by
    unfold Region.Behind
    decide
  refine ⟨fileState_large, fun h => ?_⟩
  rw [writeInside_iff_inserts, blocksAsked_eq (.inl rfl) (by decide),
    fileState_large.insertsInside_iff hR rfl (by decide) areaStart_emptyFile
      ⟨by decide, .inr rfl⟩] at h
  rcases h with hle | hfew
  · exact absurd hle (by decide)
  · exact absurd hfew (by decide +kernel)

end Rdfs
