import Rdfs.FileIo

/-!
# The block size of a mount

`rdfs_parse_options` takes a block size from the option `bs=` : a power of two of one or two
pages (`bsOption_ok_iff`). `rdfs_set_blocksize` keeps it in the super block, and a write counts
the blocks a file lacks in blocks of that size. The blocks themselves, the entries of the page
table and the loop over the range of a write have 4096 bytes whatever was mounted.

`write_covered_iff` says when the blocks a write appends are enough for the loop that follows.
With blocks of one page they are (`EnoughBlocks.of_page`), up to what an `int` can count ; with
blocks of two pages a write appends half of what it needs (`enoughBlocks_double_iff`).
-/

namespace Rdfs

open List

/-! ## The code -/

/-- `is_power_of_2` of the kernel. -/
def isPowerOf2 (n : ℕ) : Bool := n ≠ 0 && n &&& (n - 1) = 0

/-- The check of the option `bs=` : `sbi->blocksize`, or `-EINVAL`. -/
def bsOption (blocksize : ℕ) : Except ℤ ℕ :=
  if blocksize < 4096 ∨ 2 * 4096 < blocksize ∨ ¬isPowerOf2 blocksize then .error (-22)
  else .ok blocksize

/-- `fls` of the kernel : the position of the highest bit of an `int`, from 1. -/
def fls (x : ℕ) : ℕ := if x % 2 ^ 32 = 0 then 0 else (x % 2 ^ 32).log2 + 1

/-- `s_blocksize_bits` and `s_blocksize`. -/
structure BlockSize where
  bits : ℕ
  size : ℕ
  deriving DecidableEq

/-- `rdfs_set_blocksize`. -/
def rdfsSetBlocksize (size : ℕ) : BlockSize :=
  let bits := fls size - 1
  ⟨bits, 1 <<< bits⟩

/-- `pages_to_alloc` with the block size of the mount. -/
def BlockSize.pagesToAlloc (bs : BlockSize) (iSize pos length : ℕ) : ℤ :=
  let pagesNeeded := ((pos + length + bs.size - 1) % 2 ^ 64) >>> bs.bits
  let pagesExist := ((iSize + bs.size - 1) % 2 ^ 64) >>> bs.bits
  (pagesNeeded : ℤ) - pagesExist

/-- The first half of a write through the master or of a request of a client, with the block
size of the mount. -/
def BlockSize.allocForWrite (bs : BlockSize) (sb : Super) (cpu : ℕ) (g : Master) (inode : Inode)
    (pos length phys : ℕ) : ℤ × AllocState :=
  if 0 < bs.pagesToAlloc inode.iSize pos length then
    rdfsAllocBlocks sb cpu g inode (i32 (bs.pagesToAlloc inode.iSize pos length)) 1 .pte phys
  else (0, ⟨phys, [], inode, g⟩)

/-- The number of blocks that half appends. -/
def BlockSize.blocksAsked (bs : BlockSize) (iSize pos length : ℕ) : ℕ :=
  if 0 < bs.pagesToAlloc iSize pos length then (i32 (bs.pagesToAlloc iSize pos length)).toNat
  else 0

/-- The end of a round of the loop over a range. The loop variable is an `unsigned long`. -/
def nextBlock (i : ℕ) : ℕ := (i + (4096 - (i &&& 0xFFF))) % 2 ^ 64

/-- The offsets the first rounds of the loop hand to `rdfs_search_metadata`. -/
def lookups (stop : ℕ) : ℕ → ℕ → List ℕ
  | 0, _ => []
  | rounds + 1, i =>
    if i < stop then i >>> 12 <<< 12 :: lookups stop rounds (nextBlock i) else []

/-- Every entry the loop over the range looks up is below the blocks of the file, with those the
write has appended. The end of the range is a sum of two `unsigned long`. -/
def SegmentsCovered (bs : BlockSize) (iBlocks iSize pos length : ℕ) : Prop :=
  ∀ rounds, ∀ pte ∈ lookups ((pos + length) % 2 ^ 64) rounds pos,
    pte / 4096 < iBlocks + bs.blocksAsked iSize pos length

/-- The blocks of the mount that a file lacks for a range, as an `int` counts them. -/
def blocksLacking (size iSize pos length : ℕ) : ℕ :=
  let stop := (pos + length) % 2 ^ 64
  let lacking := (stop + size - 1) / size - (iSize + size - 1) / size
  if stop + size ≤ 2 ^ 64 ∧ lacking % 2 ^ 32 < 2 ^ 31 then lacking % 2 ^ 32 else 0

/-- The blocks a file has, or has after the write, reach the end of the range. The blocks the
file lacks are counted in blocks of the mount, up to a multiple of `2 ^ 32`. -/
def EnoughBlocks (size iBlocks iSize pos length : ℕ) : Prop :=
  let stop := (pos + length) % 2 ^ 64
  let lacking := (stop + size - 1) / size - (iSize + size - 1) / size
  stop ≤ pos ∨ (stop + 4095) / 4096 ≤ iBlocks ∨
    stop + size ≤ 2 ^ 64 ∧ lacking % 2 ^ 32 < 2 ^ 31 ∧
      (stop + 4095) / 4096 ≤ iBlocks + lacking % 2 ^ 32

/-! ## The sizes the options admit -/

theorem isPowerOf2_iff {n : ℕ} : isPowerOf2 n ↔ n.isPowerOfTwo := by
  rw [← Nat.ne_zero_and_sub_one_eq_zero_iff_isPowerOfTwo]
  simp [isPowerOf2]

/-- The two sizes a mount can have. -/
theorem bsOption_ok_iff {size b : ℕ} :
    bsOption size = .ok b ↔ b = size ∧ (size = 4096 ∨ size = 8192) := by
  unfold bsOption
  split_ifs with h
  · refine iff_of_false (by simp) ?_
    rintro ⟨-, rfl | rfl⟩
    · exact absurd h (by decide)
    · exact absurd h (by decide)
  · obtain ⟨hlo, hhi, hpow⟩ : 4096 ≤ size ∧ size ≤ 8192 ∧ isPowerOf2 size := by
      simpa [not_or] using h
    obtain ⟨k, rfl⟩ := isPowerOf2_iff.1 hpow
    have hk : 12 ≤ k := (Nat.pow_le_pow_iff_right (by omega : 1 < 2)).1 (by simpa using hlo)
    have hk' : k ≤ 13 := (Nat.pow_le_pow_iff_right (by omega : 1 < 2)).1 (by simpa using hhi)
    obtain rfl | rfl : k = 12 ∨ k = 13 := by omega
    · simp [eq_comm]
    · simp [eq_comm]

theorem rdfsSetBlocksize_page : rdfsSetBlocksize 4096 = ⟨12, 4096⟩ := by decide

theorem rdfsSetBlocksize_double : rdfsSetBlocksize 8192 = ⟨13, 8192⟩ := by decide

/-- With blocks of one page this is the first half of a write as before. -/
theorem allocForWrite_page (sb : Super) (cpu : ℕ) (g : Master) (inode : Inode)
    (pos length phys : ℕ) :
    (rdfsSetBlocksize 4096).allocForWrite sb cpu g inode pos length phys =
      allocForWrite sb cpu g inode pos length phys := by
  rw [rdfsSetBlocksize_page]
  rfl

/-! ## The blocks appended -/

variable {size iBlocks iSize pos length : ℕ}

/-- The blocks of the file once the first half of a write has succeeded. -/
theorem BlockSize.allocForWrite_iBlocks {bs : BlockSize} {sb : Super} {cpu : ℕ} {g : Master}
    {inode : Inode} {phys : ℕ}
    (h : (bs.allocForWrite sb cpu g inode pos length phys).1 = 0) :
    (bs.allocForWrite sb cpu g inode pos length phys).2.inode.iBlocks =
      inode.iBlocks + bs.blocksAsked inode.iSize pos length :=
  iBlocks_of_lacking rfl h

/-- The cut of a number of blocks to an `int`. -/
theorem toNat_i32_natCast (n : ℕ) :
    (i32 n).toNat = if n % 2 ^ 32 < 2 ^ 31 then n % 2 ^ 32 else 0 := by
  unfold i32
  split_ifs with h <;> omega

/-- The blocks of the range less those of the file. A range that ends in the last block of the
address space seems to need none. -/
theorem pagesToAlloc_setBlocksize (hsize : size = 4096 ∨ size = 8192) (hs : iSize < 2 ^ 63) :
    (rdfsSetBlocksize size).pagesToAlloc iSize pos length =
      (if (pos + length) % 2 ^ 64 + size ≤ 2 ^ 64 then
        (((pos + length) % 2 ^ 64 + size - 1) / size : ℕ) else 0) -
          ((iSize + size - 1) / size : ℕ) := by
  rcases hsize with rfl | rfl
  · rw [rdfsSetBlocksize_page]
    simp only [BlockSize.pagesToAlloc]
    split_ifs <;> omega
  · rw [rdfsSetBlocksize_double]
    simp only [BlockSize.pagesToAlloc]
    split_ifs <;> omega

/-- The number of blocks a write appends, from the blocks of the range and of the file. -/
theorem blocksAsked_eq (hsize : size = 4096 ∨ size = 8192) (hs : iSize < 2 ^ 63) :
    (rdfsSetBlocksize size).blocksAsked iSize pos length =
      blocksLacking size iSize pos length := by
  simp only [BlockSize.blocksAsked, blocksLacking, pagesToAlloc_setBlocksize hsize hs]
  generalize ((pos + length) % 2 ^ 64 + size - 1) / size = needed
  generalize (iSize + size - 1) / size = exist
  by_cases hstop : (pos + length) % 2 ^ 64 + size ≤ 2 ^ 64
  · simp only [hstop, if_true, true_and]
    rcases Nat.lt_or_ge exist needed with hlt | hge
    · rw [if_pos (by omega), ← Int.ofNat_sub hlt.le, toNat_i32_natCast]
    · rw [if_neg (by omega), Nat.sub_eq_zero_of_le hge]
      rfl
  · rw [if_neg hstop, if_neg (by omega), if_neg (fun h => hstop h.1)]

/-! ## The loop over a range -/

variable {stop : ℕ}

theorem nextBlock_eq (i : ℕ) : nextBlock i = (i / 4096 + 1) * 4096 % 2 ^ 64 := by
  rw [nextBlock, and_blockOffsetMask]
  omega

/-- One round of the loop. -/
theorem lookups_succ (stop rounds i : ℕ) :
    lookups stop (rounds + 1) i = if i < stop then
      i / 4096 * 4096 :: lookups stop rounds ((i / 4096 + 1) * 4096 % 2 ^ 64) else [] := by
  rw [lookups, shift_blockShift, nextBlock_eq]

/-- The loop is the one over the blocks of the range, for a range that ends a page below the
largest `unsigned long`. -/
theorem lookups_eq_blockRange (hstop : stop + 4096 ≤ 2 ^ 64) (rounds : ℕ) :
    ∀ i, lookups stop rounds i = (blockRange stop rounds i).map Prod.fst := by
  induction rounds with
  | zero => exact fun i => rfl
  | succ rounds ih =>
    intro i
    rw [lookups_succ, blockRange_succ]
    split_ifs with hlt
    · rw [Nat.mod_eq_of_lt (by omega), ih, map_cons]
      rw [show i + (4096 - i % 4096) = (i / 4096 + 1) * 4096 by omega]
    · rfl

theorem lt_stop_of_mem_lookups (rounds : ℕ) :
    ∀ {i : ℕ}, ∀ pte ∈ lookups stop rounds i, pte < stop := by
  induction rounds with
  | zero => exact fun pte hp => absurd hp not_mem_nil
  | succ rounds ih =>
    intro i pte hp
    rw [lookups_succ] at hp
    split_ifs at hp with hlt
    · rcases mem_cons.1 hp with rfl | hp
      · omega
      · exact ih pte hp
    · exact absurd hp not_mem_nil

/-- The loop gets to the last block of the range. -/
theorem last_mem_lookups (hstop : stop < 2 ^ 64) (n : ℕ) :
    ∀ {i : ℕ}, i < stop → (stop - 1) / 4096 = i / 4096 + n →
      (stop - 1) / 4096 * 4096 ∈ lookups stop (n + 1) i := by
  induction n with
  | zero =>
    intro i hi hn
    rw [lookups_succ, if_pos hi, hn]
    exact mem_cons_self
  | succ n ih =>
    intro i hi hn
    rw [lookups_succ, if_pos hi, Nat.mod_eq_of_lt (by omega)]
    exact mem_cons_of_mem _ (ih (by omega) (by omega))

/-- The entries of a range are below a number of blocks when its last one is. -/
theorem lookups_lt_iff (hstop : stop < 2 ^ 64) {i n : ℕ} (hi : i < stop) :
    (∀ rounds, ∀ pte ∈ lookups stop rounds i, pte / 4096 < n) ↔ (stop + 4095) / 4096 ≤ n := by
  refine ⟨fun h => ?_, fun h rounds pte hp => ?_⟩
  · have hlast := h _ _ (last_mem_lookups hstop ((stop - 1) / 4096 - i / 4096) hi (by omega))
    omega
  · have hlt := lt_stop_of_mem_lookups rounds pte hp
    omega

/-! ## Blocks and range -/

/-- In blocks of one page a write of fewer than `2 ^ 31` new blocks appends all it needs to a
file whose blocks cover its size. -/
theorem EnoughBlocks.of_page (hcover : (iSize + 4095) / 4096 ≤ iBlocks)
    (hstop : pos + length + 4096 ≤ 2 ^ 64)
    (hlack : (pos + length + 4095) / 4096 < (iSize + 4095) / 4096 + 2 ^ 31) :
    EnoughBlocks 4096 iBlocks iSize pos length := by
  have hmod : (pos + length) % 2 ^ 64 = pos + length := Nat.mod_eq_of_lt (by omega)
  unfold EnoughBlocks
  rw [hmod]
  exact .inr (.inr ⟨hstop, by omega, by omega⟩)

/-- In blocks of two pages it appends half of them. -/
theorem enoughBlocks_double_iff (hlen : 0 < length) (hstop : pos + length + 8192 ≤ 2 ^ 64)
    (hlack : (pos + length + 8191) / 8192 < (iSize + 8191) / 8192 + 2 ^ 31) :
    EnoughBlocks 8192 iBlocks iSize pos length ↔
      (pos + length + 4095) / 4096 ≤ iBlocks ∨
        (pos + length + 4095) / 4096 / 2 + (iSize + 8191) / 8192 ≤ iBlocks := by
  have hmod : (pos + length) % 2 ^ 64 = pos + length := Nat.mod_eq_of_lt (by omega)
  unfold EnoughBlocks
  rw [hmod]
  omega

/-- When the blocks a write appends are enough for the loop over its range. -/
theorem segmentsCovered_iff {b : ℕ} (hopt : bsOption size = .ok b) (hs : iSize < 2 ^ 63) :
    SegmentsCovered (rdfsSetBlocksize b) iBlocks iSize pos length ↔
      EnoughBlocks b iBlocks iSize pos length := by
  obtain ⟨rfl, hsize⟩ := bsOption_ok_iff.1 hopt
  unfold SegmentsCovered EnoughBlocks
  rw [blocksAsked_eq hsize hs, blocksLacking]
  rcases Nat.lt_or_ge pos ((pos + length) % 2 ^ 64) with hlt | hge
  · rw [lookups_lt_iff (Nat.mod_lt _ (by omega)) hlt]
    split_ifs with hfit <;> omega
  · refine iff_of_true (fun rounds pte hp => ?_) (.inl hge)
    cases rounds with
    | zero => exact absurd hp not_mem_nil
    | succ rounds =>
      rw [lookups_succ, if_neg (by omega)] at hp
      exact absurd hp not_mem_nil

/-- The blocks of a file after the first half of a write, and when they are enough for the loop
over the range. -/
theorem write_covered_iff {b : ℕ} (hopt : bsOption size = .ok b) (sb : Super) (cpu : ℕ)
    (g : Master) (inode : Inode) (hs : inode.iSize < 2 ^ 63) (pos length phys : ℕ) :
    let bs := rdfsSetBlocksize b
    let r := bs.allocForWrite sb cpu g inode pos length phys
    (r.1 = 0 → r.2.inode.iBlocks = inode.iBlocks + bs.blocksAsked inode.iSize pos length) ∧
      (SegmentsCovered bs inode.iBlocks inode.iSize pos length ↔
        EnoughBlocks b inode.iBlocks inode.iSize pos length) :=
  ⟨BlockSize.allocForWrite_iBlocks, segmentsCovered_iff hopt hs⟩

/-- Two blocks of one page for an empty file. -/
theorem write_covered_onePage :
    SegmentsCovered (rdfsSetBlocksize 4096) (default : Inode).iBlocks (default : Inode).iSize
      0 8192 :=
  (write_covered_iff (bsOption_ok_iff.2 ⟨rfl, .inl rfl⟩) oneNode 0 noBlocks default (by decide)
    0 8192 0).2.2 (.of_page (by decide) (by decide) (by decide))

/-- With blocks of two pages a write of two pages to an empty file appends one block and looks up
two. -/
theorem two_pages_one_block :
    bsOption 8192 = .ok 8192 ∧ (rdfsSetBlocksize 8192).blocksAsked 0 0 8192 = 1 ∧
      ¬SegmentsCovered (rdfsSetBlocksize 8192) 0 0 0 8192 := by
  have hasked : (rdfsSetBlocksize 8192).blocksAsked 0 0 8192 = 1 := by decide
  refine ⟨bsOption_ok_iff.2 ⟨rfl, .inr rfl⟩, hasked, fun h => ?_⟩
  have hlast := h 2 4096 (by decide)
  rw [hasked] at hlast
  omega

end Rdfs
