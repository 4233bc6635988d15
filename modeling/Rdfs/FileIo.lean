import Rdfs.FileSize

/-!
# Reading and writing through the staging page

`rdfs_local_file_read` and `rdfs_local_file_write` move data between the user and the slaves through
one page, which `rdfs_init_local_rw_buffer` takes off the free list. Byte `x` of the request is byte
`x` of the page. The loop over the blocks of the range makes one call of `rdfs_rdma_block_rw` for
each, with the local address behind that of the last (`rangeTransfers`).

None of the calls is looked after : the results of `rdfs_rdma_block_rw`, of the user copies and of
`rdfs_alloc_blocks` are dropped or kept in an unsigned variable, and nothing compares the length
with the size of the page. `readsRange_iff` says when a read returns what is there,
`staging_inPage_iff` when the page is large enough, and `writesAll_iff` when a write has done what
its return value says. A read request of a client is handled as if it were a write
(`rdfsClientReadTask`), and `readOnly_iff` says when it changes nothing.
-/

namespace Rdfs

open List

/-! ## The code -/

/-- What the calls of a read or a write give : the slave and the block that `rdfs_search_metadata`
finds for the block at an offset, whether the call of `rdfs_rdma_block_rw` with a given number
returns its size or -1, and how many bytes the user copy leaves. -/
structure IoCalls where
  found : ℕ → ℕ × ℕ
  rdma : ℕ → Bool
  uncopied : ℕ

/-- A call of `rdfs_rdma_block_rw` : the distance of the local address from `local_rw_addr`, where
the block starts in the file, slave and block, the offset in it, the size, and the outcome. -/
structure Transfer where
  rwOffset : ℕ
  pte : ℕ
  found : ℕ × ℕ
  blockOffset : ℕ
  size : ℕ
  ok : Bool
deriving DecidableEq, Repr

/-- The calls for a list of parts of blocks, from call `n` and the local address `cur` on. The local
address moves on by the size, whatever the outcome. -/
def transfers (c : IoCalls) : ℕ → ℕ → List (ℕ × ℕ × ℕ) → List Transfer
  | _, _, [] => []
  | n, cur, p :: ps =>
    ⟨cur, p.1, c.found p.1, p.2.1, p.2.2, c.rdma n⟩ :: transfers c (n + 1) (cur + p.2.2) ps

/-- The calls for the range from `pos` to `stop`. -/
def rangeTransfers (c : IoCalls) (pos stop : ℕ) : List Transfer :=
  transfers c 0 0 (blockRange stop (stop - pos) pos)

/-- What a read does : the return value, `*ppos`, the calls, and how many bytes of the staging page
the user copy is given. -/
structure ReadEnd where
  ret : ℤ
  ppos : ℕ
  transfers : List Transfer
  copied : ℕ
deriving DecidableEq, Repr

/-- `rdfs_local_file_read`. The sum of position and length and the length itself are unsigned. -/
def rdfsLocalFileRead (c : IoCalls) (iSize length pos : ℕ) : ReadEnd :=
  if iSize = 0 then ⟨i64 length, pos, [], 0⟩
  else
    let length := if iSize < (pos + length) % 2 ^ 64 then u64 ((iSize : ℤ) - pos) else length
    if length = 0 then ⟨i64 length, pos, [], 0⟩
    else
      let stop := (pos + length) % 2 ^ 64
      ⟨i64 length, stop, rangeTransfers c pos stop, length⟩

/-- What a write does : the return value, the inode, the bytes of the staging page (offset and
size) that the user copy and the store of the zero byte behind it are for, and the calls. -/
structure WriteEnd where
  ret : ℤ
  inode : Inode
  stored : List (ℕ × ℕ)
  transfers : List Transfer

/-- `rdfs_local_file_write` with the outcomes of its calls. The test whether the unsigned `retval`
is negative never holds. -/
def rdfsLocalFileWriteIo (sb : Super) (cpu : ℕ) (g : Master) (inode : Inode) (c : IoCalls)
    (length pos phys : ℕ) : WriteEnd :=
  let s := (allocForWrite sb cpu g inode pos length phys).2
  { ret := i64 length
    inode := writeSize inode.iSize pos length s.inode
    stored := [(0, length), (length, 1)]
    transfers := rangeTransfers c pos ((pos + length) % 2 ^ 64) }

/-- What a read request of a client does : the return value of `rdfs_client_search_metadata`, the
parts of blocks that the reply describes (where the block starts in the file, the offset and the
size), the inode, and the master. -/
structure ClientReadEnd where
  ret : ℤ
  reply : List (ℕ × ℕ × ℕ)
  inode : Inode
  master : Master

/-- `rdfs_client_read`, which handles read requests and write requests alike, for an offset and a
length of type `long`. The size is set whether the range ends behind the old end or not. -/
def rdfsClientReadTask (sb : Super) (cpu : ℕ) (g : Master) (inode : Inode) (offset length : ℤ)
    (phys : ℕ) : ClientReadEnd :=
  let r := allocForWrite sb cpu g inode (u64 offset) (u64 length) phys
  if r.1 < 0 then ⟨r.1, [], r.2.inode, r.2.master⟩
  else
    let stop := u64 (offset + length)
    ⟨0, blockRange stop (stop - u64 offset) (u64 offset), { r.2.inode with iSize := stop },
      r.2.master⟩

/-! ## The calls for a range -/

variable {c : IoCalls} {pos stop x : ℕ}

/-- The call moves byte `x` of the staging page. -/
def Transfer.Covers (t : Transfer) (x : ℕ) : Prop := t.rwOffset ≤ x ∧ x < t.rwOffset + t.size

/-- A call that succeeds moves byte `x` of the staging page. -/
def Delivered (ts : List Transfer) (x : ℕ) : Prop := ∃ t ∈ ts, t.ok = true ∧ t.Covers x

theorem blockRange_of_le {fuel i : ℕ} (h : stop ≤ i) : blockRange stop fuel i = [] := by
  cases fuel with
  | zero => rfl
  | succ fuel => rw [blockRange_succ, if_neg (by omega)]

/-- Every call is for a part of one block, in the range, at its place in the staging page. -/
theorem mem_transfers_blockRange (fuel : ℕ) : ∀ {i n cur : ℕ} {t : Transfer},
    t ∈ transfers c n cur (blockRange stop fuel i) →
      t.pte + t.blockOffset + cur = i + t.rwOffset ∧ i ≤ t.pte + t.blockOffset ∧
      t.pte + t.blockOffset + t.size ≤ stop ∧ t.pte % 4096 = 0 ∧ t.blockOffset + t.size ≤ 4096 ∧
      0 < t.size ∧ t.ok = c.rdma (n + (t.pte / 4096 - i / 4096)) := by
  induction fuel with
  | zero => exact fun h => absurd h not_mem_nil
  | succ fuel ih =>
    intro i n cur t h
    rw [blockRange_succ] at h
    split_ifs at h with hlt
    · rcases mem_cons.1 h with rfl | h
      · dsimp only
        refine ⟨by omega, by omega, by omega, by omega, by omega, by omega, ?_⟩
        rw [show i / 4096 * 4096 / 4096 - i / 4096 = 0 by omega, Nat.add_zero]
      · rcases Nat.lt_or_ge (i + (4096 - i % 4096)) stop with hcut | hcut
        · obtain ⟨h1, h2, h3, h4, h5, h6, h7⟩ := ih h
          dsimp only at h1
          refine ⟨by omega, by omega, h3, h4, h5, h6, ?_⟩
          rw [h7]
          congr 1
          omega
        · rw [blockRange_of_le hcut] at h
          exact absurd h not_mem_nil
    · exact absurd h not_mem_nil

/-- Every byte of the range is in one of the calls. -/
theorem exists_transfer_blockRange (fuel : ℕ) : ∀ (n cur : ℕ) {i x : ℕ}, i ≤ x → x < stop →
    stop - i ≤ fuel → ∃ t ∈ transfers c n cur (blockRange stop fuel i),
      t.pte + t.blockOffset ≤ x ∧ x < t.pte + t.blockOffset + t.size := by
  induction fuel with
  | zero =>
    intro n cur i x hi hx hfuel
    omega
  | succ fuel ih =>
    intro n cur i x hi hx hfuel
    rw [blockRange_succ, if_pos (by omega)]
    rcases Nat.lt_or_ge x (i + (4096 - i % 4096)) with hlt | hge
    · refine ⟨_, mem_cons_self, ?_⟩
      dsimp only
      omega
    · obtain ⟨t, ht, hcov⟩ := ih (n + 1) (cur + min (stop - i) (4096 - i % 4096)) hge hx (by omega)
      exact ⟨t, mem_cons_of_mem _ ht, hcov⟩

theorem mem_rangeTransfers {t : Transfer} (h : t ∈ rangeTransfers c pos stop) :
    t.pte + t.blockOffset = pos + t.rwOffset ∧ pos + t.rwOffset + t.size ≤ stop ∧ 0 < t.size ∧
      ∀ x, t.Covers x → t.ok = c.rdma ((pos + x) / 4096 - pos / 4096) := by
  obtain ⟨h1, h2, h3, h4, h5, h6, h7⟩ := mem_transfers_blockRange _ h
  refine ⟨h1, by omega, h6, fun x ⟨hlo, hhi⟩ => ?_⟩
  rw [h7, Nat.zero_add, show (pos + x) / 4096 = t.pte / 4096 by omega]

theorem exists_transfer (h : pos + x < stop) : ∃ t ∈ rangeTransfers c pos stop, t.Covers x := by
  obtain ⟨t, ht, h1, h2⟩ := exists_transfer_blockRange (c := c) (stop - pos) 0 0
    (Nat.le_add_right pos x) h le_rfl
  have := (mem_rangeTransfers ht).1
  exact ⟨t, ht, by omega, by omega⟩

/-- Byte `x` of the range is moved if and only if the call for its block succeeds. -/
theorem delivered_iff (h : pos + x < stop) : Delivered (rangeTransfers c pos stop) x ↔
    c.rdma ((pos + x) / 4096 - pos / 4096) = true := by
  constructor
  · rintro ⟨t, ht, hok, hcov⟩
    rw [← (mem_rangeTransfers ht).2.2.2 x hcov, hok]
  · intro hok
    obtain ⟨t, ht, hcov⟩ := exists_transfer (c := c) h
    exact ⟨t, ht, ((mem_rangeTransfers ht).2.2.2 x hcov).trans hok, hcov⟩

theorem rangeTransfers_of_le (h : stop ≤ pos) : rangeTransfers c pos stop = [] := by
  rw [rangeTransfers, blockRange_of_le h, transfers]

/-- With lookups that find `c.found` the calls of a write are the requests of
`rdfsLocalFileWrite`. -/
theorem rdfsLocalFileWrite_eq {sb : Super} {cpu : ℕ} {g : Master} {inode : Inode}
    {globalPhyAddr phys : ℕ} {buf : List UInt8} {r : List BlockRequest × Inode × Master}
    (hr : rdfsLocalFileWrite sb cpu g inode globalPhyAddr buf pos phys = r)
    (hp : pos + buf.length < 2 ^ 64) (hfound : ∀ p,
      rdfsSearchMetadata r.2.2.kernel r.2.2.nvm.mem r.2.1.iVirtAddr p = some (c.found p)) :
    let w := rdfsLocalFileWriteIo sb cpu g inode c buf.length pos phys
    r.1 = w.transfers.map (fun t => (some t.found, t.blockOffset, t.size)) ∧ r.2.1 = w.inode := by
  subst hr
  refine ⟨?_, rfl⟩
  have hmap : ∀ (ps : List (ℕ × ℕ × ℕ)) n cur, (transfers c n cur ps).map
      (fun t => (some t.found, t.blockOffset, t.size)) =
        ps.map fun p => (some (c.found p.1), p.2.1, p.2.2) := by
    intro ps
    induction ps with
    | nil => exact fun _ _ => rfl
    | cons p ps ih => exact fun n cur => congrArg _ (ih (n + 1) _)
  simp only [rdfsLocalFileWriteIo, rangeTransfers, hmap, Nat.mod_eq_of_lt hp,
    Nat.add_sub_cancel_left]
  refine map_congr_left fun p _ => ?_
  have hvirt : ∀ i : Inode, (writeSize inode.iSize pos buf.length i).iVirtAddr = i.iVirtAddr :=
    fun i => by unfold writeSize; split_ifs <;> rfl
  rw [← hfound p.1]
  simp only [rdfsLocalFileWrite, hvirt]

/-! ## Reading -/

/-- The read returns how many bytes there are to read, up to `length`, moves the position by as
much, asks the slaves for bytes of that range of the file, and passes bytes to the user that it
got. -/
structure ReadsRange (iSize length pos : ℕ) (r : ReadEnd) : Prop where
  ret : r.ret = (min length (iSize - pos) : ℕ)
  ppos : r.ppos = pos + min length (iSize - pos)
  asked : ∀ t ∈ r.transfers, pos ≤ t.pte + t.blockOffset ∧
    t.pte + t.blockOffset + t.size ≤ pos + min length (iSize - pos)
  copied : r.copied ≤ min length (iSize - pos) ∧ ∀ x < r.copied, Delivered r.transfers x

/-- A read that begins in the file or at its end, and whose end does not wrap round. -/
theorem rdfsLocalFileRead_eq {iSize length n : ℕ} (h0 : 0 < iSize) (hs : iSize < 2 ^ 63)
    (hle : pos ≤ iSize) (hsum : pos + length < 2 ^ 64) (hn : min length (iSize - pos) = n) :
    rdfsLocalFileRead c iSize length pos = ⟨n, pos + n, rangeTransfers c pos (pos + n), n⟩ := by
  have hlen :
      (if iSize < (pos + length) % 2 ^ 64 then u64 ((iSize : ℤ) - pos) else length) = n := by
    rw [Nat.mod_eq_of_lt hsum, show ((iSize : ℤ) - pos) = ((iSize - pos : ℕ) : ℤ) by omega,
      u64_natCast (by omega)]
    split_ifs <;> omega
  have hret : i64 n = n := i64_natCast (by omega)
  have hstop : (pos + n) % 2 ^ 64 = pos + n := Nat.mod_eq_of_lt (by omega)
  simp only [rdfsLocalFileRead, if_neg h0.ne', hlen, hret, hstop]
  split_ifs with hz
  · rw [hz, Nat.add_zero, rangeTransfers_of_le le_rfl]
  · rfl

/-- A read behind the end of the file returns a negative value, and one whose end wraps round
returns its length. -/
theorem rdfsLocalFileRead_ret_ne {iSize length : ℕ} (h0 : 0 < iSize) (hs : iSize < 2 ^ 63)
    (hp : pos < 2 ^ 63) (hl : length < 2 ^ 64) (hbad : iSize < pos ∨ 2 ^ 64 ≤ pos + length) :
    (rdfsLocalFileRead c iSize length pos).ret ≠ (min length (iSize - pos) : ℕ) := by
  generalize hn : (if iSize < (pos + length) % 2 ^ 64 then u64 ((iSize : ℤ) - pos) else length) = n
  have hret : (rdfsLocalFileRead c iSize length pos).ret = i64 n := by
    simp only [rdfsLocalFileRead, if_neg h0.ne', hn]
    split_ifs <;> rfl
  rw [hret]
  unfold u64 at hn
  unfold i64
  split_ifs at hn <;> omega

/-- For every file size, position and length : a read does what it should if and only if the file
is empty and nothing is asked for, or the file is not empty, the position is not behind its end,
the end of the range does not wrap round, and every call for a block of the range succeeds. -/
theorem readsRange_iff (c : IoCalls) {iSize length pos : ℕ} (hs : iSize < 2 ^ 63)
    (hp : pos < 2 ^ 63) (hl : length < 2 ^ 64) :
    ReadsRange iSize length pos (rdfsLocalFileRead c iSize length pos) ↔ (iSize = 0 ∧ length = 0) ∨
        (0 < iSize ∧ pos ≤ iSize ∧ pos + length < 2 ^ 64 ∧
          ∀ x < min length (iSize - pos), c.rdma ((pos + x) / 4096 - pos / 4096) = true) := by
  rcases Nat.eq_zero_or_pos iSize with rfl | h0
  · have hr : rdfsLocalFileRead c 0 length pos = ⟨i64 length, pos, [], 0⟩ := if_pos rfl
    rw [hr, or_iff_left (by omega)]
    constructor
    · intro h
      have hret : i64 length = (min length (0 - pos) : ℕ) := h.ret
      unfold i64 at hret
      omega
    · rintro ⟨-, rfl⟩
      exact ⟨by simp [i64], by simp, by simp, by simp⟩
  · rw [or_iff_right (by omega), and_iff_right h0]
    by_cases hgood : pos ≤ iSize ∧ pos + length < 2 ^ 64
    · generalize hn : min length (iSize - pos) = n
      rw [rdfsLocalFileRead_eq h0 hs hgood.1 hgood.2 hn, and_iff_right hgood.1,
        and_iff_right hgood.2]
      constructor
      · exact fun h x hx => (delivered_iff (by omega)).1 (h.copied.2 x hx)
      · intro hok
        refine ⟨by rw [hn], by rw [hn], fun t ht => ?_, hn.ge, fun x hx => ?_⟩
        · obtain ⟨h1, h2, -⟩ := mem_rangeTransfers ht
          omega
        · exact (delivered_iff (Nat.add_lt_add_left hx pos)).2 (hok x hx)
    · refine iff_of_false (fun h => ?_) fun h => hgood ⟨h.1, h.2.1⟩
      exact rdfsLocalFileRead_ret_ne h0 hs hp hl (by omega) h.ret

/-- Reading five bytes of a file of eight, with every call succeeding. -/
theorem readsRange_five :
    ReadsRange 8 5 2 (rdfsLocalFileRead ⟨fun _ => (0, 0), fun _ => true, 0⟩ 8 5 2) :=
  (readsRange_iff _ (by decide) (by decide) (by decide)).2
    (Or.inr ⟨by decide, by decide, by decide, fun _ _ => rfl⟩)

/-- A read of an empty file returns the length asked for, and one behind the end of a file a
negative value, which moves the position back to the end. -/
theorem empty_read_returns_length :
    ¬ReadsRange 0 5 0 (rdfsLocalFileRead ⟨fun _ => (0, 0), fun _ => true, 0⟩ 0 5 0) ∧
      (rdfsLocalFileRead ⟨fun _ => (0, 0), fun _ => true, 0⟩ 0 5 0).ret = 5 ∧
      (rdfsLocalFileRead ⟨fun _ => (0, 0), fun _ => true, 0⟩ 8 5 10).ret = -2 ∧
      (rdfsLocalFileRead ⟨fun _ => (0, 0), fun _ => true, 0⟩ 8 5 10).ppos = 8 :=
  ⟨fun h => absurd h.ret (by decide), by decide, by decide, by decide⟩

/-! ## The staging page -/

/-- The ranges, each with its offset and its size, lie in the staging page. -/
def InPage (ranges : List (ℕ × ℕ)) : Prop :=
  ∀ r ∈ ranges, ∀ x, r.1 ≤ x → x < r.1 + r.2 → x < 4096

/-- The part of the staging page that a call is for. -/
def Transfer.staged (t : Transfer) : ℕ × ℕ := (t.rwOffset, t.size)

/-- The calls for a range of more than a page leave the staging page. -/
theorem inPage_rangeTransfers_iff (h : pos ≤ stop) :
    InPage ((rangeTransfers c pos stop).map Transfer.staged) ↔ stop - pos ≤ 4096 := by
  constructor
  · intro hin
    by_contra hlt
    obtain ⟨t, ht, hcov⟩ := exists_transfer (c := c) (show pos + 4096 < stop by omega)
    exact absurd (hin _ (mem_map_of_mem ht) 4096 hcov.1 hcov.2) (lt_irrefl _)
  · intro hle r hr x hlo hhi
    obtain ⟨t, ht, rfl⟩ := mem_map.1 hr
    obtain ⟨-, hend, -⟩ := mem_rangeTransfers ht
    have hhi' : x < t.rwOffset + t.size := hhi
    omega

/-- The calls of a read that starts behind the end of the file, or whose end wraps round. -/
theorem rdfsLocalFileRead_transfers_nil {iSize length : ℕ} (hs : iSize < 2 ^ 63)
    (hp : pos < 2 ^ 63) (hl : length < 2 ^ 64)
    (hbad : iSize = 0 ∨ iSize < pos ∨ 2 ^ 64 ≤ pos + length) :
    (rdfsLocalFileRead c iSize length pos).transfers = [] := by
  generalize hn : (if iSize < (pos + length) % 2 ^ 64 then u64 ((iSize : ℤ) - pos) else length) = n
  simp only [rdfsLocalFileRead, hn]
  split_ifs with h0
  · rfl
  · rfl
  · refine rangeTransfers_of_le ?_
    unfold u64 at hn
    split_ifs at hn <;> omega

/-- For every position and every length : what a read addresses in the staging page lies in it if
and only if no more than a page is read, or the end of the range wraps round, and what a write
stores there and addresses if and only if it is shorter than a page. -/
theorem staging_inPage_iff (c : IoCalls) {iSize length pos : ℕ} (hs : iSize < 2 ^ 63)
    (hp : pos < 2 ^ 63) (hl : length < 2 ^ 64) :
    (InPage ((rdfsLocalFileRead c iSize length pos).transfers.map Transfer.staged) ↔
      2 ^ 64 ≤ pos + length ∨ min length (iSize - pos) ≤ 4096) ∧
    ∀ sb cpu g inode phys, let r := rdfsLocalFileWriteIo sb cpu g inode c length pos phys
      (InPage (r.stored ++ r.transfers.map Transfer.staged) ↔ length < 4096) := by
  constructor
  · by_cases hbad : iSize = 0 ∨ iSize < pos ∨ 2 ^ 64 ≤ pos + length
    · rw [rdfsLocalFileRead_transfers_nil hs hp hl hbad]
      exact iff_of_true (fun r hr => absurd hr not_mem_nil) (by omega)
    · rw [rdfsLocalFileRead_eq (by omega) hs (by omega) (by omega) rfl,
        inPage_rangeTransfers_iff (Nat.le_add_right _ _)]
      omega
  · intro sb cpu g inode phys r
    constructor
    · intro hin
      exact hin (length, 1) (by simp [r, rdfsLocalFileWriteIo]) length le_rfl
        (Nat.lt_succ_self length)
    · intro hlt r' hr' x hlo hhi
      have hstop : (pos + length) % 2 ^ 64 = pos + length := Nat.mod_eq_of_lt (by omega)
      rcases mem_append.1 hr' with hr' | hr'
      · rcases mem_cons.1 hr' with rfl | hr'
        · omega
        · rw [mem_singleton.1 hr'] at hhi
          omega
      · have hin := (inPage_rangeTransfers_iff (c := c) (Nat.le_add_right pos length)).2 (by omega)
        refine hin r' ?_ x hlo hhi
        rwa [← hstop]

/-- Reading and writing five bytes. -/
theorem staging_inPage_five :
    InPage ((rdfsLocalFileRead ⟨fun _ => (0, 0), fun _ => true, 0⟩ 8 5 2).transfers.map
      Transfer.staged) ∧
    let r := rdfsLocalFileWriteIo oneNode 0 noBlocks twoBlocks
      ⟨fun _ => (0, 0), fun _ => true, 0⟩ 5 2 0
    InPage (r.stored ++ r.transfers.map Transfer.staged) := by
  obtain ⟨hread, hwrite⟩ := staging_inPage_iff ⟨fun _ => (0, 0), fun _ => true, 0⟩
    (show 8 < 2 ^ 63 by decide) (show 2 < 2 ^ 63 by decide) (show 5 < 2 ^ 64 by decide)
  exact ⟨hread.2 (by decide), (hwrite oneNode 0 noBlocks twoBlocks 0).2 (by decide)⟩

/-- The zero byte behind a page of data is stored behind the staging page, and the second page of a
read goes there. -/
theorem page_of_data_leaves_staging : let c : IoCalls := ⟨fun _ => (0, 0), fun _ => true, 0⟩
    let r := rdfsLocalFileWriteIo oneNode 0 noBlocks twoBlocks c 4096 0 0
    ¬InPage (r.stored ++ r.transfers.map Transfer.staged) ∧
      ¬InPage ((rdfsLocalFileRead c 8192 8192 0).transfers.map Transfer.staged) := by
  refine ⟨fun h => ?_, fun h => ?_⟩
  · exact absurd (h (4096, 1) (by simp [rdfsLocalFileWriteIo]) 4096 le_rfl (by decide)) (by decide)
  · exact absurd (h (4096, 4096) (by decide +kernel) 4096 le_rfl (by decide)) (by decide)

/-! ## Writing -/

/-- User byte `x` has been copied to the staging page, and a call that succeeded has moved it from
there to its place in the slave's block. -/
def Transferred (c : IoCalls) (length pos : ℕ) (ts : List Transfer) (x : ℕ) : Prop :=
  x < length - c.uncopied ∧
    ∃ t ∈ ts, t.ok = true ∧ t.Covers x ∧ t.pte + t.blockOffset + (x - t.rwOffset) = pos + x

/-- A positive return value counts bytes that have all been transferred, and if `rdfs_alloc_blocks`
has failed with `errval` the return value is negative and the size is as before. -/
structure WritesAll (c : IoCalls) (errval : ℤ) (inode : Inode) (length pos : ℕ) (r : WriteEnd) :
    Prop where
  transferred : ∀ n : ℕ, 0 < n → r.ret = n → ∀ x < n, Transferred c length pos r.transfers x
  failed : errval < 0 → r.ret < 0 ∧ r.inode.iSize = inode.iSize

theorem transferred_iff {length : ℕ} (hx : x < length) :
    Transferred c length pos (rangeTransfers c pos (pos + length)) x ↔
      x < length - c.uncopied ∧ c.rdma ((pos + x) / 4096 - pos / 4096) = true := by
  refine and_congr_right fun _ => ?_
  rw [← delivered_iff (c := c) (Nat.add_lt_add_left hx pos)]
  refine exists_congr fun t => and_congr_right fun ht => and_congr_right fun _ =>
    and_iff_left_of_imp fun hcov => ?_
  have := (mem_rangeTransfers ht).1
  have := hcov.1
  omega

/-- For every write and every outcome of its calls : the return value of a write is honest if and
only if `rdfs_alloc_blocks` has not failed, the user copy has left no bytes, and every call for a
block of the range has succeeded. -/
theorem writesAll_iff (sb : Super) (cpu : ℕ) (g : Master) (inode : Inode) (c : IoCalls)
    {length pos : ℕ} (phys : ℕ) (hp : pos + length < 2 ^ 63) (hc : c.uncopied ≤ length) :
    WritesAll c (allocForWrite sb cpu g inode pos length phys).1 inode length pos
        (rdfsLocalFileWriteIo sb cpu g inode c length pos phys) ↔
      0 ≤ (allocForWrite sb cpu g inode pos length phys).1 ∧ c.uncopied = 0 ∧
        ∀ x < length, c.rdma ((pos + x) / 4096 - pos / 4096) = true := by
  have hret : (rdfsLocalFileWriteIo sb cpu g inode c length pos phys).ret = length :=
    i64_natCast (by omega)
  have hts : (rdfsLocalFileWriteIo sb cpu g inode c length pos phys).transfers =
      rangeTransfers c pos (pos + length) := by
    rw [rdfsLocalFileWriteIo, Nat.mod_eq_of_lt (by omega)]
  constructor
  · intro h
    have htrans : ∀ x < length, x < length - c.uncopied ∧
        c.rdma ((pos + x) / 4096 - pos / 4096) = true := fun x hx => by
      rw [← transferred_iff hx, ← hts]
      exact h.transferred length (by omega) hret x hx
    refine ⟨?_, ?_, fun x hx => (htrans x hx).2⟩
    · by_contra hneg
      have := (h.failed (by omega)).1
      omega
    · by_contra hne
      have := (htrans (length - 1) (by omega)).1
      omega
  · rintro ⟨hok, h0, hrdma⟩
    refine ⟨fun n hn hn' x hx => ?_, fun hneg => absurd hok (by omega)⟩
    obtain rfl : n = length := by omega
    rw [hts, transferred_iff hx]
    exact ⟨by omega, hrdma x hx⟩

/-- Writing the last byte of the file once more, with every call succeeding. -/
theorem writesAll_lastByte : WritesAll ⟨fun _ => (0, 0), fun _ => true, 0⟩
      (allocForWrite oneNode 0 noBlocks twoBlocks 8191 1 0).1 twoBlocks 1 8191
      (rdfsLocalFileWriteIo oneNode 0 noBlocks twoBlocks ⟨fun _ => (0, 0), fun _ => true, 0⟩ 1 8191
        0) :=
  (writesAll_iff oneNode 0 noBlocks twoBlocks ⟨fun _ => (0, 0), fun _ => true, 0⟩ 0 (by decide)
    (by decide)).2 ⟨by decide, rfl, fun _ _ => rfl⟩

/-- A write for which there are no blocks returns its length all the same, and sets the size; so
does one whose transfer fails. -/
theorem failed_write_returns_length : let good : IoCalls := ⟨fun _ => (0, 0), fun _ => true, 0⟩
    let bad : IoCalls := ⟨fun _ => (0, 0), fun _ => false, 0⟩
    let noRoom := rdfsLocalFileWriteIo oneNode 0 noBlocks default good 1 0 0
    let noLink := rdfsLocalFileWriteIo oneNode 0 noBlocks twoBlocks bad 1 8191 0
    (allocForWrite oneNode 0 noBlocks default 0 1 0).1 < 0 ∧ noRoom.ret = 1 ∧
      noRoom.inode.iSize = 1 ∧
      ¬WritesAll good (allocForWrite oneNode 0 noBlocks default 0 1 0).1 default 1 0 noRoom ∧
      noLink.ret = 1 ∧
      ¬WritesAll bad (allocForWrite oneNode 0 noBlocks twoBlocks 8191 1 0).1 twoBlocks 1 8191
        noLink := by
  refine ⟨by decide, by decide, rfl, fun h => ?_, by decide, fun h => ?_⟩
  · exact absurd (h.failed (by decide)).1 (by decide)
  · have hmoved := h.transferred 1 (by decide) (by decide) 0 (by decide)
    exact absurd ((transferred_iff (by decide)).1 hmoved).2 (by decide)

/-! ## Read requests of clients -/

/-- The request leaves the size and the number of blocks, the table of the file, the free pages and
the groups of the slaves as they are, and the reply describes bytes of the file. -/
structure ReadOnly (g : Master) (inode : Inode) (r : ClientReadEnd) : Prop where
  iSize : r.inode.iSize = inode.iSize
  iBlocks : r.inode.iBlocks = inode.iBlocks
  master : r.master = g
  reply : ∀ p ∈ r.reply, p.1 + p.2.1 + p.2.2 ≤ inode.iSize

theorem blockRange_le_stop (fuel : ℕ) :
    ∀ {i : ℕ}, ∀ p ∈ blockRange stop fuel i, p.1 + p.2.1 + p.2.2 ≤ stop := by
  induction fuel with
  | zero => exact fun p hp => absurd hp not_mem_nil
  | succ fuel ih =>
    intro i p hp
    rw [blockRange_succ] at hp
    split_ifs at hp with hlt
    · rcases mem_cons.1 hp with rfl | hp
      · dsimp only
        omega
      · exact ih p hp
    · exact absurd hp not_mem_nil

/-- For a range of the file's own offsets this is `rdfs_client_search_metadata`. -/
theorem rdfsClientReadTask_eq {sb : Super} {cpu : ℕ} {g : Master} {inode : Inode}
    {offset length phys : ℕ} (hsum : offset + length < 2 ^ 63) :
    let r := rdfsClientReadTask sb cpu g inode offset length phys
    rdfsClientSearchMetadata sb cpu g inode offset length phys =
      (r.ret, r.reply.map fun p =>
        (rdfsSearchMetadata r.master.kernel r.master.nvm.mem r.inode.iVirtAddr p.1, p.2), r.inode,
        r.master) := by
  have ho : u64 offset = offset := u64_natCast (by omega)
  have hl : u64 length = length := u64_natCast (by omega)
  have hs : u64 ((offset : ℤ) + length) = offset + length :=
    u64_natCast (n := offset + length) (by omega)
  simp only [rdfsClientReadTask, rdfsClientSearchMetadata, ho, hl, hs]
  split_ifs with hneg
  · rfl
  · have hsize : ∀ i : Inode, writeSize inode.iSize offset length i =
        { i with iSize := offset + length } := fun i => by
      unfold writeSize
      split_ifs <;> rfl
    simp only [hsize, blockRequests, Nat.add_sub_cancel_left]

/-- For every file and every read request : the request changes nothing and is answered with bytes
of the file if and only if it ends where the file ends. -/
theorem readOnly_iff (sb : Super) (cpu : ℕ) (g : Master) (inode : Inode) (offset length : ℤ)
    (phys : ℕ) (hs : inode.iSize < 2 ^ 63) (hlo : -2 ^ 63 ≤ offset + length)
    (hhi : offset + length < 2 ^ 63) :
    ReadOnly g inode (rdfsClientReadTask sb cpu g inode offset length phys) ↔
      offset + length = inode.iSize := by
  constructor
  · intro h
    by_cases hneg : (allocForWrite sb cpu g inode (u64 offset) (u64 length) phys).1 < 0
    · -- a failed call has counted a block
      have hblocks : (allocForWrite sb cpu g inode (u64 offset) (u64 length) phys).2.inode.iBlocks =
          inode.iBlocks := by
        have := h.iBlocks
        rwa [rdfsClientReadTask, if_pos hneg] at this
      rw [allocForWrite] at hneg hblocks
      split_ifs at hneg hblocks with hpos
      · have := rdfsAllocBlocks_iBlocks_lt hneg.ne
        omega
      · exact absurd hneg (lt_irrefl 0)
    · have hsize := h.iSize
      rw [rdfsClientReadTask, if_neg hneg] at hsize
      have hu : u64 (offset + length) = inode.iSize := hsize
      unfold u64 at hu
      omega
  · intro heq
    have hpages : ¬0 < pagesToAlloc inode.iSize (u64 offset) (u64 length) := by
      have hsum : (u64 offset + u64 length + 4096 - 1) % 2 ^ 64 =
          (inode.iSize + 4096 - 1) % 2 ^ 64 := by
        unfold u64
        omega
      simp only [pagesToAlloc]
      omega
    have hstop : u64 (offset + length) = inode.iSize := by
      rw [heq, u64_natCast (by omega)]
    simp only [rdfsClientReadTask, allocForWrite, if_neg hpages, hstop]
    exact ⟨rfl, rfl, rfl, blockRange_le_stop _⟩

/-- Reading the second block of a file of two. -/
theorem readOnly_twoBlocks :
    ReadOnly noBlocks twoBlocks (rdfsClientReadTask oneNode 0 noBlocks twoBlocks 4096 4096 0) :=
  (readOnly_iff oneNode 0 noBlocks twoBlocks 4096 4096 0 (by decide) (by decide) (by decide)).2 rfl

/-- Reading the first byte cuts the file down to that byte. -/
theorem read_request_shrinks_file :
    (rdfsClientReadTask oneNode 0 noBlocks twoBlocks 0 1 0).inode.iSize = 1 ∧
      ¬ReadOnly noBlocks twoBlocks (rdfsClientReadTask oneNode 0 noBlocks twoBlocks 0 1 0) :=
  ⟨by decide, fun h => absurd h.iSize (by decide)⟩

end Rdfs
