import Rdfs.AllocBlocks

/-!
# Writing to a file

A write through the master (`rdfs_local_file_write`) and a write request of a client
(`rdfs_client_search_metadata`) first append the blocks the file lacks, then look up the
blocks of the range one after another, and set the size at the end. The number of blocks to
append comes from `i_size`, their position from `i_blocks`, so a file is in order when
`i_blocks` is `i_size` in blocks, rounded up (`SizeInBlocks`).

Both set the size to the end of the range whether it lies behind the old end or not.
`write_keeps_size_iff` says when a write leaves the size and the blocks as they should be, for
one write and along every sequence of writes (`WriteRun`).
-/

namespace Rdfs

/-! ## The code -/

/-- `pages_needed - pages_exist`, a difference of two values of type `long`. -/
def pagesToAlloc (iSize pos length : ℕ) : ℤ :=
  let pagesNeeded := ((pos + length + 4096 - 1) % 2 ^ 64) >>> 12
  let pagesExist := ((iSize + 4096 - 1) % 2 ^ 64) >>> 12
  (pagesNeeded : ℤ) - pagesExist

/-- The first half of a write : the blocks the file lacks. `rdfs_alloc_blocks` takes their
number as an `int`. -/
def allocForWrite (sb : Super) (cpu : ℕ) (g : Master) (inode : Inode) (pos length phys : ℕ) :
    ℤ × AllocState :=
  if 0 < pagesToAlloc inode.iSize pos length then
    rdfsAllocBlocks sb cpu g inode (i32 (pagesToAlloc inode.iSize pos length)) 1 .pte phys
  else (0, ⟨phys, [], inode, g⟩)

/-- The loop over the blocks of a range : where the block starts in the file, and the offset
and the size of the part of the range in it. Every round moves `i` on, so `fuel` rounds are
enough for a range of `fuel` bytes. -/
def blockRange (stop : ℕ) : ℕ → ℕ → List (ℕ × ℕ × ℕ)
  | 0, _ => []
  | fuel + 1, i =>
    if i < stop then
      let blockOffset := i &&& 0xFFF
      let size := 4096 - blockOffset
      (i >>> 12 <<< 12, blockOffset, if stop < i + size then stop - i else size) ::
        blockRange stop fuel (i + size)
    else []

theorem and_blockOffsetMask (i : ℕ) : i &&& 0xFFF = i % 4096 := Nat.and_two_pow_sub_one_eq_mod i 12

theorem shift_blockShift (i : ℕ) : i >>> 12 <<< 12 = i / 4096 * 4096 := by
  simp only [Nat.shiftRight_eq_div_pow, Nat.shiftLeft_eq]

/-- One round of the loop over a range. -/
theorem blockRange_succ (stop fuel i : ℕ) : blockRange stop (fuel + 1) i = if i < stop then
      (i / 4096 * 4096, i % 4096, min (stop - i) (4096 - i % 4096)) ::
        blockRange stop fuel (i + (4096 - i % 4096)) else [] := by
  have hsize : (if stop < i + (4096 - i % 4096) then stop - i else 4096 - i % 4096) =
      min (stop - i) (4096 - i % 4096) := by
    split_ifs <;> omega
  simp only [blockRange, and_blockOffsetMask, shift_blockShift, hsize]

/-- A block of a write : slave and block (`none` for a page fault), offset and size. -/
abbrev BlockRequest := Option (ℕ × ℕ) × ℕ × ℕ

/-- The requests for the blocks of a range, in order. -/
def blockRequests (k : KernelMap) (m : Mem) (iVirtAddr pos length : ℕ) : List BlockRequest :=
  (blockRange (pos + length) length pos).map fun p =>
    (rdfsSearchMetadata k m iVirtAddr p.1, p.2)

/-- The sizes a write sets : once if it ends behind the old end, and then once more. -/
def writeSize (iSize pos length : ℕ) (inode : Inode) : Inode :=
  let inode := if iSize < pos + length then { inode with iSize := pos + length } else inode
  { inode with iSize := pos + length }

/-- `rdfs_local_file_write` : the requests sent to the slaves, the inode, and the master. The
data is staged at `global_phy_addr`, followed by a zero byte. The return value of
`rdfs_alloc_blocks` is kept in an unsigned variable, so a failure is not noticed. -/
def rdfsLocalFileWrite (sb : Super) (cpu : ℕ) (g : Master) (inode : Inode) (globalPhyAddr : ℕ)
    (buf : List UInt8) (pos phys : ℕ) : List BlockRequest × Inode × Master :=
  let s := (allocForWrite sb cpu g inode pos buf.length phys).2
  let staging := rdfsPa sb (rdfsVa sb globalPhyAddr)
  let m := (s.master.nvm.mem.blit staging buf).store 1 (staging + buf.length) 0
  let master := { s.master with nvm := { s.master.nvm with mem := m } }
  (blockRequests master.kernel m s.inode.iVirtAddr pos buf.length,
    writeSize inode.iSize pos buf.length s.inode, master)

/-- `rdfs_client_search_metadata` : the return value, the blocks sent back to the client, the
inode, and the master. -/
def rdfsClientSearchMetadata (sb : Super) (cpu : ℕ) (g : Master) (inode : Inode)
    (offset length phys : ℕ) : ℤ × List BlockRequest × Inode × Master :=
  let r := allocForWrite sb cpu g inode offset length phys
  if r.1 < 0 then (r.1, [], r.2.inode, r.2.master)
  else (0, blockRequests r.2.master.kernel r.2.master.nvm.mem r.2.inode.iVirtAddr offset length,
    writeSize inode.iSize offset length r.2.inode, r.2.master)

/-! ## Size and blocks -/

/-- `i_blocks` is `i_size` in blocks, rounded up. -/
def SizeInBlocks (inode : Inode) : Prop := inode.iBlocks = (inode.iSize + 4095) / 4096

/-- The write keeps the larger of the old size and its own end, and the blocks in order. -/
def KeepsSize (inode inode' : Inode) (pos length : ℕ) : Prop :=
  inode'.iSize = max inode.iSize (pos + length) ∧ SizeInBlocks inode'

/-- The write ends at or behind the end of the file, and lacks fewer blocks than an `int` can
count. -/
def ExtendsFile (inode : Inode) (pos length : ℕ) : Prop :=
  inode.iSize ≤ pos + length ∧
    (pos + length + 4095) / 4096 - (inode.iSize + 4095) / 4096 < 2 ^ 31

theorem pagesToAlloc_eq {iSize pos length : ℕ} (hs : iSize < 2 ^ 63) (hp : pos + length < 2 ^ 63) :
    pagesToAlloc iSize pos length =
      ((pos + length + 4095) / 4096 : ℕ) - ((iSize + 4095) / 4096 : ℕ) := by
  simp only [pagesToAlloc]
  omega

@[simp] theorem writeSize_iSize (iSize pos length : ℕ) (inode : Inode) :
    (writeSize iSize pos length inode).iSize = pos + length := rfl

@[simp] theorem writeSize_iBlocks (iSize pos length : ℕ) (inode : Inode) :
    (writeSize iSize pos length inode).iBlocks = inode.iBlocks := by
  unfold writeSize
  split_ifs <;> rfl

variable {sb : Super} {cpu : ℕ} {g : Master} {inode : Inode}

/-- The blocks of an inode once the `n` blocks it lacks, if any, have been appended. -/
theorem iBlocks_of_lacking {phys : ℕ} {n : ℤ} {r : ℤ × AllocState}
    (hr : (if 0 < n then rdfsAllocBlocks sb cpu g inode (i32 n) 1 .pte phys
      else (0, ⟨phys, [], inode, g⟩)) = r) (h : r.1 = 0) :
    r.2.inode.iBlocks = inode.iBlocks + if 0 < n then (i32 n).toNat else 0 := by
  subst hr
  by_cases hn : 0 < n
  · rw [if_pos hn] at h ⊢
    rw [if_pos hn]
    exact (rdfsAllocBlocks_inode sb cpu g inode _ 1 .pte phys).2 h
  · rw [if_neg hn, if_neg hn]
    rfl

/-- The blocks of the file once the first half of a write has succeeded. -/
theorem allocForWrite_iBlocks {pos length phys : ℕ}
    (h : (allocForWrite sb cpu g inode pos length phys).1 = 0) :
    (allocForWrite sb cpu g inode pos length phys).2.inode.iBlocks = inode.iBlocks +
      if 0 < pagesToAlloc inode.iSize pos length then
        (i32 (pagesToAlloc inode.iSize pos length)).toNat else 0 :=
  iBlocks_of_lacking rfl h

/-- A file in order after a write whose blocks were appended. -/
theorem keepsSize_iff {pos length phys : ℕ} (horder : SizeInBlocks inode)
    (hs : inode.iSize < 2 ^ 63) (hp : pos + length < 2 ^ 63)
    (hok : (allocForWrite sb cpu g inode pos length phys).1 = 0) :
    KeepsSize inode (writeSize inode.iSize pos length
      (allocForWrite sb cpu g inode pos length phys).2.inode) pos length ↔
      ExtendsFile inode pos length := by
  unfold SizeInBlocks at horder
  simp only [KeepsSize, ExtendsFile, SizeInBlocks, writeSize_iSize, writeSize_iBlocks,
    allocForWrite_iBlocks hok, pagesToAlloc_eq hs hp]
  unfold i32
  split_ifs with hpos
  · omega
  · omega

theorem allocForWrite_ret (sb : Super) (cpu : ℕ) (g : Master) (inode : Inode)
    (pos length phys : ℕ) : (allocForWrite sb cpu g inode pos length phys).1 = 0 ∨
      (allocForWrite sb cpu g inode pos length phys).1 = -1 := by
  unfold allocForWrite
  split_ifs
  · exact rdfsAllocBlocks_ret sb cpu g inode _ 1 .pte phys
  · exact Or.inl rfl

/-- The second half of a client's request that has succeeded. -/
theorem rdfsClientSearchMetadata_inode {offset length phys : ℕ}
    (hok : (rdfsClientSearchMetadata sb cpu g inode offset length phys).1 = 0) :
    (allocForWrite sb cpu g inode offset length phys).1 = 0 ∧
    (rdfsClientSearchMetadata sb cpu g inode offset length phys).2.2.1 =
      writeSize inode.iSize offset length
        (allocForWrite sb cpu g inode offset length phys).2.inode := by
  have hret := allocForWrite_ret sb cpu g inode offset length phys
  by_cases hneg : (allocForWrite sb cpu g inode offset length phys).1 < 0
  · rw [rdfsClientSearchMetadata, if_pos hneg] at hok
    omega
  · rw [rdfsClientSearchMetadata, if_neg hneg]
    exact ⟨by omega, rfl⟩

/-! ## Sequences of writes -/

/-- The inode after a sequence of successful writes, local ones and requests of clients, each
of which meets `P`. -/
inductive WriteRun (sb : Super) (P : Inode → ℕ → ℕ → Prop) (inode : Inode) : Inode → Prop
  | refl : WriteRun sb P inode inode
  | write {inode' : Inode} {cpu : ℕ} {g : Master} {globalPhyAddr pos phys : ℕ} {buf : List UInt8}
      (h : WriteRun sb P inode inode') (hlen : 0 < buf.length)
      (hp : pos + buf.length < 2 ^ 63) (hP : P inode' pos buf.length)
      (hok : (allocForWrite sb cpu g inode' pos buf.length phys).1 = 0) :
      WriteRun sb P inode (rdfsLocalFileWrite sb cpu g inode' globalPhyAddr buf pos phys).2.1
  | client {inode' : Inode} {cpu : ℕ} {g : Master} {offset length phys : ℕ}
      (h : WriteRun sb P inode inode') (hlen : 0 < length) (hp : offset + length < 2 ^ 63)
      (hP : P inode' offset length)
      (hok : (rdfsClientSearchMetadata sb cpu g inode' offset length phys).1 = 0) :
      WriteRun sb P inode (rdfsClientSearchMetadata sb cpu g inode' offset length phys).2.2.1

namespace WriteRun

variable {sb : Super} {P : Inode → ℕ → ℕ → Prop} {inode inode' : Inode}

/-- A run of writes that each extend the file keeps it in order, and keeps its size from
shrinking. -/
theorem sizeInBlocks (h : WriteRun sb ExtendsFile inode inode') (horder : SizeInBlocks inode)
    (hs : inode.iSize < 2 ^ 63) :
    SizeInBlocks inode' ∧ inode'.iSize < 2 ^ 63 ∧ inode.iSize ≤ inode'.iSize := by
  induction h with
  | refl => exact ⟨horder, hs, le_rfl⟩
  | write _ _ hp hP hok ih =>
    obtain ⟨ho, hlt, hle⟩ := ih
    have hkeep := (keepsSize_iff ho hlt hp hok).2 hP
    exact ⟨hkeep.2, hp, hle.trans hP.1⟩
  | client _ _ hp hP hok ih =>
    obtain ⟨ho, hlt, hle⟩ := ih
    obtain ⟨halloc, hinode⟩ := rdfsClientSearchMetadata_inode hok
    rw [hinode]
    have hkeep := (keepsSize_iff ho hlt hp halloc).2 hP
    exact ⟨hkeep.2, hp, hle.trans hP.1⟩

end WriteRun

/-- A successful write to a file in order, local or for a client, leaves the larger size and
the blocks in order exactly when it ends at or behind the end of the file (and lacks fewer
than 2 ^ 31 blocks); so the blocks stay in order along every sequence of such writes. -/
theorem write_keeps_size_iff (sb : Super) (inode : Inode) (horder : SizeInBlocks inode)
    (hs : inode.iSize < 2 ^ 63) :
    (∀ (cpu : ℕ) (g : Master) (globalPhyAddr pos phys : ℕ) (buf : List UInt8),
      0 < buf.length → pos + buf.length < 2 ^ 63 →
      (allocForWrite sb cpu g inode pos buf.length phys).1 = 0 →
      (KeepsSize inode (rdfsLocalFileWrite sb cpu g inode globalPhyAddr buf pos phys).2.1 pos
        buf.length ↔ ExtendsFile inode pos buf.length)) ∧
    (∀ (cpu : ℕ) (g : Master) (offset length phys : ℕ), 0 < length → offset + length < 2 ^ 63 →
      (rdfsClientSearchMetadata sb cpu g inode offset length phys).1 = 0 →
      (KeepsSize inode (rdfsClientSearchMetadata sb cpu g inode offset length phys).2.2.1 offset
        length ↔ ExtendsFile inode offset length)) ∧
    ∀ inode', WriteRun sb ExtendsFile inode inode' → SizeInBlocks inode' := by
  refine ⟨fun cpu g globalPhyAddr pos phys buf _ hp hok => keepsSize_iff horder hs hp hok,
    fun cpu g offset length phys _ hp hok => ?_, fun inode' hrun => (hrun.sizeInBlocks horder hs).1⟩
  obtain ⟨halloc, hinode⟩ := rdfsClientSearchMetadata_inode hok
  rw [hinode]
  exact keepsSize_iff horder hs hp halloc

/-- A file of two full blocks. -/
def twoBlocks : Inode := { (default : Inode) with iSize := 8192, iBlocks := 2 }

/-- Writing the last byte of the file once more. -/
theorem write_keeps_size_twoBlocks :
    KeepsSize twoBlocks (rdfsLocalFileWrite oneNode 0 noBlocks twoBlocks 0 [7] 8191 0).2.1 8191 1 :=
  ((write_keeps_size_iff oneNode twoBlocks rfl (by decide)).1 0 noBlocks 0 8191 0 [7] (by decide)
    (by decide) (by decide)).2 (by unfold ExtendsFile; decide)

/-- Writing the first byte of the file once more, locally or for a client, cuts the file down
to that byte. -/
theorem overwrite_shrinks_file :
    SizeInBlocks twoBlocks ∧ (allocForWrite oneNode 0 noBlocks twoBlocks 0 1 0).1 = 0 ∧
    ¬KeepsSize twoBlocks (rdfsLocalFileWrite oneNode 0 noBlocks twoBlocks 0 [7] 0 0).2.1 0 1 ∧
    (rdfsClientSearchMetadata oneNode 0 noBlocks twoBlocks 0 1 0).1 = 0 ∧
    ¬KeepsSize twoBlocks (rdfsClientSearchMetadata oneNode 0 noBlocks twoBlocks 0 1 0).2.2.1 0 1 :=
  ⟨rfl, by decide, fun h => absurd h.1 (by decide), by decide, fun h => absurd h.1 (by decide)⟩

end Rdfs
