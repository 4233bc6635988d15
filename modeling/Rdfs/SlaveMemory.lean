import Rdfs.Layout

/-!
# Blocks of the slaves

The master hands out the blocks of a slave in two levels (`memory.c`). The blocks of a slave
are cut into groups of 64, and the groups that no inode has taken yet form a list,
`bitmap_head`. An inode takes a whole group, hands out its blocks one after another by the
cursor `pre_index`, and moves the group to its used list once all 64 are gone.

In a run (`SlaveRun`) any number of inodes ask for blocks of a slave in any order, each time
with a group left if they need a new one. The invariant `SlaveInv` ties together the list,
the current group of every inode and the blocks handed out so far; `SlaveRun.blocks_spec`
reads off that no block is handed out twice or past the end of the slave. Once the list is
empty the same call still reports success (`allocBlock_exhausted`). In every state, after such calls
too, several blocks for an inode are new ones if and only if there are so many left in its group and
on the list, and none of them is in use (`SlaveState.handed_iff`).
-/

namespace Rdfs

open List Function Option

/-! ## The code -/

/-- `struct mem_bitmap_block`, a group of 64 blocks; the `next` pointers are the list. -/
structure MemBitmapBlock where
  slaveId : ℕ
  startBlockId : ℕ
deriving DecidableEq, Repr

/-- `struct pre_alloc_bitmap`, the group an inode is handing out. -/
structure PreAllocBitmap where
  preAllocBitmap : ℕ
  preStartBlockId : ℕ
  preAllocSlaveId : ℤ
  preIndex : ℤ
deriving DecidableEq, Repr

/-- The block accounting of `struct slave_info`. -/
structure SlaveInfo where
  slaveId : ℤ
  freeBlockNums : ℤ
  totalBlockNums : ℤ
  bitmapHead : List MemBitmapBlock
deriving DecidableEq, Repr, Inhabited

/-- `pre_bitmap` and `used_bitmap_list` of `struct rdfs_inode_info`. -/
structure BitmapInfo where
  preBitmap : Option PreAllocBitmap
  usedBitmapList : List MemBitmapBlock
deriving DecidableEq, Repr, Inhabited

/-- `slave_infos`. -/
abbrev SlaveInfos := ℕ → SlaveInfo

/-- `rdfs_init_slave_memory_bitmap_list` for a slave that offers `rem_block_nums` blocks. -/
def rdfsInitSlaveMemoryBitmapList (s : SlaveInfo) (remBlockNums : ℕ) : SlaveInfo :=
  let blockNums := i32 remBlockNums
  let bitmapNums := blockNums.tdiv 64
  { s with
    freeBlockNums := blockNums
    totalBlockNums := blockNums
    bitmapHead := (List.range bitmapNums.toNat).map fun i => ⟨u64 s.slaveId, i * 64⟩ }

/-- `rdfs_alloc_slave_memory_bitmap` : the first block of the group at the head of the list,
or -1 as an unsigned number. -/
def rdfsAllocSlaveMemoryBitmap (s : SlaveInfo) : ℕ × SlaveInfo :=
  match s.bitmapHead with
  | [] => (u64 (-1), s)
  | use :: tmp =>
    if s.freeBlockNums = 0 then (u64 (-1), s)
    else (use.startBlockId, { s with bitmapHead := tmp, freeBlockNums := s.freeBlockNums - 64 })

/-- `rdfs_select_slave`. -/
def rdfsSelectSlave : ℕ := 0

/-- A fresh group from the selected slave, with the cursor at its start. -/
def newGroup (slaves : SlaveInfos) : PreAllocBitmap × SlaveInfos :=
  let sId := rdfsSelectSlave
  let r := rdfsAllocSlaveMemoryBitmap (slaves sId)
  ({ preAllocBitmap := 0, preStartBlockId := r.1, preAllocSlaveId := sId, preIndex := 0 },
    Function.update slaves sId r.2)

/-- The first half of `rdfs_alloc_slave_bitmap_memory` : an inode without a group, or with one
that is used up, gets a new one; the old one moves to the used list. -/
def refill (slaves : SlaveInfos) (ri : BitmapInfo) : PreAllocBitmap × BitmapInfo × SlaveInfos :=
  let first := match ri.preBitmap with
    | none => newGroup slaves
    | some pre => (pre, slaves)
  let pre := first.1
  if pre.preIndex = 64 then
    let used := if pre.preAllocSlaveId ≠ -1 then
        ⟨u64 pre.preAllocSlaveId, pre.preStartBlockId⟩ :: ri.usedBitmapList
      else ri.usedBitmapList
    let next := newGroup first.2
    (next.1, { preBitmap := some next.1, usedBitmapList := used }, next.2)
  else (pre, { ri with preBitmap := some pre }, first.2)

/-- The second half of `rdfs_alloc_slave_bitmap_memory` : `*block_id` and `*s_id` by the
cursor, and the inode and the slaves afterwards. -/
def allocBlock (slaves : SlaveInfos) (ri : BitmapInfo) : ℕ × ℕ × BitmapInfo × SlaveInfos :=
  let r := refill slaves ri
  let pre := r.1
  let pre' := { pre with
    preAllocBitmap := pre.preAllocBitmap ||| 1 <<< pre.preIndex.toNat
    preIndex := pre.preIndex + 1 }
  (u64 (pre.preIndex + pre.preStartBlockId), u64 pre.preAllocSlaveId,
    { r.2.1 with preBitmap := some pre' }, r.2.2)

/-- `rdfs_alloc_slave_bitmap_memory` : the return value, `*block_id`, `*s_id`, and the inode
and the slaves afterwards. `ri_info` may be `NULL`. -/
def rdfsAllocSlaveBitmapMemory (slaves : SlaveInfos) (blockId sId : ℕ) :
    Option BitmapInfo → ℤ × ℕ × ℕ × Option BitmapInfo × SlaveInfos
  | none => (-1, blockId, sId, none, slaves)
  | some ri =>
    let r := allocBlock slaves ri
    (0, r.1, r.2.1, some r.2.2.1, r.2.2.2)

/-- The inode has no group, or has used its group up. -/
def BitmapInfo.NeedsGroup (ri : BitmapInfo) : Prop := ∀ pre ∈ ri.preBitmap, pre.preIndex = 64

instance (ri : BitmapInfo) : Decidable ri.NeedsGroup :=
  inferInstanceAs (Decidable (∀ pre ∈ ri.preBitmap, pre.preIndex = 64))

/-! ## One call -/

variable {ri ri' : BitmapInfo} {i : ℕ}

/-- An inode with blocks left in its group : the next one, and the slaves stay as they are. -/
theorem allocBlock_of_pre (slaves : SlaveInfos) {pre : PreAllocBitmap} (h : ri.preBitmap = some pre)
    (hi : pre.preIndex ≠ 64) :
    ∃ ri', allocBlock slaves ri =
        (u64 (pre.preIndex + pre.preStartBlockId), u64 pre.preAllocSlaveId, ri', slaves) ∧
      ∃ bits, ri'.preBitmap =
        some { pre with preAllocBitmap := bits, preIndex := pre.preIndex + 1 } := by
  refine ⟨(allocBlock slaves ri).2.2.1, ?_, pre.preAllocBitmap ||| 1 <<< pre.preIndex.toNat, ?_⟩
  · simp [allocBlock, refill, h, hi]
  · simp [allocBlock, refill, h, hi]

/-- An inode that needs a group : the first block of the next group. -/
theorem allocBlock_of_needsGroup (slaves : SlaveInfos) (h : ri.NeedsGroup) :
    ∃ ri', allocBlock slaves ri =
        (u64 (rdfsAllocSlaveMemoryBitmap (slaves 0)).1, 0, ri',
          Function.update slaves 0 (rdfsAllocSlaveMemoryBitmap (slaves 0)).2) ∧
      ∃ bits, ri'.preBitmap = some
        { preAllocBitmap := bits, preAllocSlaveId := 0, preIndex := 1,
          preStartBlockId := (rdfsAllocSlaveMemoryBitmap (slaves 0)).1 } := by
  refine ⟨(allocBlock slaves ri).2.2.1, ?_, 1, ?_⟩
  · cases hp : ri.preBitmap with
    | none => simp [allocBlock, refill, hp, newGroup, rdfsSelectSlave, u64]
    | some pre => simp [allocBlock, refill, hp, h pre hp, newGroup, rdfsSelectSlave, u64]
  · cases hp : ri.preBitmap with
    | none => simp [allocBlock, refill, hp, newGroup, rdfsSelectSlave]
    | some pre => simp [allocBlock, refill, hp, h pre hp, newGroup, rdfsSelectSlave]

/-! ## Runs -/

/-- States reached when inodes ask for blocks of a fresh slave with `blocks` blocks, always
with a group left when they need one. `ids` are the blocks handed out, in order. -/
inductive SlaveRun (blocks : ℕ) : SlaveInfos → (ℕ → BitmapInfo) → List ℕ → Prop
  | start (slaves : SlaveInfos) (s : SlaveInfo)
      (h : slaves rdfsSelectSlave = rdfsInitSlaveMemoryBitmapList s blocks) :
      SlaveRun blocks slaves (fun _ => ⟨none, []⟩) []
  | alloc {slaves : SlaveInfos} {inodes : ℕ → BitmapInfo} {ids : List ℕ} (i : ℕ)
      (hgroup : (inodes i).NeedsGroup → (slaves rdfsSelectSlave).bitmapHead ≠ [])
      (h : SlaveRun blocks slaves inodes ids) :
      SlaveRun blocks (allocBlock slaves (inodes i)).2.2.2
        (Function.update inodes i (allocBlock slaves (inodes i)).2.2.1)
        (ids ++ [(allocBlock slaves (inodes i)).1])

/-- After `t` groups have been taken : the list holds the other groups in order; every inode
works on a taken group of its own, from its cursor on; and the blocks handed out are distinct
blocks of taken groups, before the cursor where the group is still in work. -/
structure SlaveInv (blocks t : ℕ) (s : SlaveInfo) (inodes : ℕ → BitmapInfo) (ids : List ℕ) :
    Prop where
  le : t ≤ blocks / 64
  total : s.totalBlockNums = blocks
  free : s.freeBlockNums = blocks - 64 * t
  list : s.bitmapHead.map MemBitmapBlock.startBlockId =
    (List.range' t (blocks / 64 - t)).map (64 * ·)
  index : ∀ i, ∀ pre ∈ (inodes i).preBitmap, 0 ≤ pre.preIndex ∧ pre.preIndex ≤ 64
  group : ∀ i, ∀ pre ∈ (inodes i).preBitmap,
    pre.preAllocSlaveId = 0 ∧ ∃ g < t, pre.preStartBlockId = 64 * g
  own : ∀ i j, i ≠ j → ∀ pre ∈ (inodes i).preBitmap, ∀ pre' ∈ (inodes j).preBitmap,
    pre.preStartBlockId ≠ pre'.preStartBlockId
  taken : ∀ b ∈ ids, b / 64 < t
  before : ∀ b ∈ ids, ∀ i, ∀ pre ∈ (inodes i).preBitmap,
    pre.preStartBlockId = 64 * (b / 64) → (b % 64 : ℤ) < pre.preIndex
  nodup : ids.Nodup

namespace SlaveInv

variable {blocks t : ℕ} {s : SlaveInfo} {inodes : ℕ → BitmapInfo} {ids : List ℕ}

theorem start (hb : blocks < 2 ^ 31) (s : SlaveInfo) :
    SlaveInv blocks 0 (rdfsInitSlaveMemoryBitmapList s blocks) (fun _ => ⟨none, []⟩) [] := by
  have hi : i32 blocks = blocks := i32_eq (by omega) (by omega)
  refine ⟨Nat.zero_le _, hi, by simp [rdfsInitSlaveMemoryBitmapList, hi], ?_, by simp, by simp,
    by simp, by simp, by simp, nodup_nil⟩
  simp only [rdfsInitSlaveMemoryBitmapList, hi, List.map_map, ← range_eq_range']
  exact map_congr_left fun i _ => Nat.mul_comm i 64

/-- The next group of a slave that has one left. -/
theorem pop (h : SlaveInv blocks t s inodes ids) (hne : s.bitmapHead ≠ []) :
    t < blocks / 64 ∧ ∃ tmp, rdfsAllocSlaveMemoryBitmap s =
        (64 * t, { s with bitmapHead := tmp, freeBlockNums := s.freeBlockNums - 64 }) ∧
      tmp.map MemBitmapBlock.startBlockId =
        (List.range' (t + 1) (blocks / 64 - (t + 1))).map (64 * ·) := by
  obtain ⟨use, tmp, hs⟩ := exists_cons_of_ne_nil hne
  have hlist := h.list
  obtain ⟨k, hk⟩ : ∃ k, blocks / 64 - t = k + 1 := by
    refine Nat.exists_eq_succ_of_ne_zero fun h0 => ?_
    rw [hs, h0] at hlist
    simp at hlist
  rw [hs, hk, range'_succ, map_cons, map_cons, cons.injEq] at hlist
  have hfree := h.free
  refine ⟨by omega, tmp, ?_, ?_⟩
  · rw [rdfsAllocSlaveMemoryBitmap, hs, ← hlist.1]
    exact if_neg (by omega)
  · rw [hlist.2, show blocks / 64 - (t + 1) = k by omega]

/-- Inode `i` hands out block `k` of group `g`, which no other inode works on and of which
only earlier blocks have been handed out. -/
theorem hand (h : SlaveInv blocks t s inodes ids) {t' g k i b w : ℕ} {s' : SlaveInfo} (ht : t ≤ t')
    (hg : g < t') (hk : k < 64) (hb : b = 64 * g + k) (hle : t' ≤ blocks / 64)
    (htotal : s'.totalBlockNums = blocks) (hfree : s'.freeBlockNums = blocks - 64 * t')
    (hlist : s'.bitmapHead.map MemBitmapBlock.startBlockId =
      (List.range' t' (blocks / 64 - t')).map (64 * ·))
    (hri : ri'.preBitmap = some ⟨w, 64 * g, 0, k + 1⟩)
    (hown : ∀ j ≠ i, ∀ pre ∈ (inodes j).preBitmap, pre.preStartBlockId ≠ 64 * g)
    (hbefore : ∀ c ∈ ids, c / 64 = g → c % 64 < k) :
    SlaveInv blocks t' s' (Function.update inodes i ri') (ids ++ [b]) := by
  have hcase : ∀ j, ∀ q ∈ (Function.update inodes i ri' j).preBitmap,
      (j ≠ i ∧ q ∈ (inodes j).preBitmap) ∨ (j = i ∧ q = ⟨w, 64 * g, 0, k + 1⟩) := by
    intro j q hq
    by_cases hj : j = i
    · subst hj
      rw [update_self, hri, mem_some_iff] at hq
      exact Or.inr ⟨rfl, hq.symm⟩
    · rw [update_of_ne hj] at hq
      exact Or.inl ⟨hj, hq⟩
  refine ⟨hle, htotal, hfree, hlist, fun j q hq => ?_, fun j q hq => ?_,
    fun j l hjl q hq q' hq' => ?_, fun c hc => ?_, fun c hc j q hq hqc => ?_, ?_⟩
  · rcases hcase j q hq with ⟨-, hq⟩ | ⟨-, rfl⟩
    · exact h.index j q hq
    · simp only
      omega
  · rcases hcase j q hq with ⟨-, hq⟩ | ⟨-, rfl⟩
    · obtain ⟨hs, g', hg', hstart⟩ := h.group j q hq
      exact ⟨hs, g', by omega, hstart⟩
    · exact ⟨rfl, g, hg, rfl⟩
  · rcases hcase j q hq with ⟨hj, hin⟩ | ⟨hj, rfl⟩ <;>
      rcases hcase l q' hq' with ⟨hl, hin'⟩ | ⟨hl, rfl⟩
    · exact h.own j l hjl q hin q' hin'
    · exact hown j hj q hin
    · exact (hown l hl q' hin').symm
    · exact absurd (hj.trans hl.symm) hjl
  · rcases mem_append.1 hc with hc | hc
    · have := h.taken c hc
      omega
    · rw [mem_singleton.1 hc]
      omega
  · rcases mem_append.1 hc with hc | hc
    · rcases hcase j q hq with ⟨-, hq⟩ | ⟨-, rfl⟩
      · exact h.before c hc j q hq hqc
      · have := hbefore c hc (by simp only at hqc; omega)
        simp only
        omega
    · obtain rfl := mem_singleton.1 hc
      rcases hcase j q hq with ⟨hj, hq⟩ | ⟨-, rfl⟩
      · exact absurd (hqc.trans (by omega)) (hown j hj q hq)
      · simp only
        omega
  · refine nodup_append.2 ⟨h.nodup, by simp, ?_⟩
    rintro c hc _ hc' rfl
    obtain rfl := mem_singleton.1 hc'
    have := hbefore c hc (by omega)
    omega

/-- A block from the group the inode is working on. -/
theorem allocPre (h : SlaveInv blocks t s inodes ids) (hblocks : blocks < 2 ^ 31)
    {pre : PreAllocBitmap} {bits : ℕ} (hpre : (inodes i).preBitmap = some pre)
    (hi : pre.preIndex ≠ 64)
    (hri : ri'.preBitmap = some { pre with preAllocBitmap := bits, preIndex := pre.preIndex + 1 }) :
    SlaveInv blocks t s (Function.update inodes i ri')
      (ids ++ [u64 (pre.preIndex + pre.preStartBlockId)]) := by
  obtain ⟨h0, h64⟩ := h.index i pre hpre
  obtain ⟨hs, g, hg, hstart⟩ := h.group i pre hpre
  have hle := h.le
  refine h.hand (g := g) (k := pre.preIndex.toNat) (w := bits) le_rfl hg (by omega)
    (by unfold u64; omega) hle h.total h.free h.list ?_ (fun j hj q hq => ?_) fun c hc hcg => ?_
  · rw [hri, hs, hstart, Int.toNat_of_nonneg h0]
  · rw [← hstart]
    exact h.own j i hj q hq pre hpre
  · have := h.before c hc i pre hpre (by rw [hcg, hstart])
    omega

/-- The first block of a group fresh from the list. -/
theorem allocGroup (h : SlaveInv blocks t s inodes ids) (hblocks : blocks < 2 ^ 31)
    (hne : s.bitmapHead ≠ []) {bits : ℕ}
    (hri : ri'.preBitmap = some ⟨bits, (rdfsAllocSlaveMemoryBitmap s).1, 0, 1⟩) :
    SlaveInv blocks (t + 1) (rdfsAllocSlaveMemoryBitmap s).2 (Function.update inodes i ri')
      (ids ++ [u64 (rdfsAllocSlaveMemoryBitmap s).1]) := by
  obtain ⟨hlt, tmp, hr, htmp⟩ := h.pop hne
  have hfree := h.free
  rw [hr] at hri ⊢
  refine h.hand (g := t) (k := 0) (by omega) (by omega) (by omega)
    (u64_natCast (by omega)) hlt h.total (by simp only; omega) htmp hri
    (fun j hj q hq heq => ?_) fun c hc hct => ?_
  · obtain ⟨-, g, hg, hstart⟩ := h.group j q hq
    omega
  · have := h.taken c hc
    omega

end SlaveInv

namespace SlaveRun

variable {blocks : ℕ} {slaves : SlaveInfos} {inodes : ℕ → BitmapInfo} {ids : List ℕ}

section

variable (h : SlaveRun blocks slaves inodes ids) (hblocks : blocks < 2 ^ 31)
include h hblocks

/-- The invariant holds along every run. -/
theorem slaveInv : ∃ t, SlaveInv blocks t (slaves rdfsSelectSlave) inodes ids := by
  induction h with
  | start slaves s h => exact ⟨0, h ▸ SlaveInv.start hblocks s⟩
  | @alloc slaves inodes ids i hgroup _ ih =>
    obtain ⟨t, ht⟩ := ih
    by_cases hneeds : (inodes i).NeedsGroup
    · obtain ⟨ri', hr, bits, hri⟩ := allocBlock_of_needsGroup slaves hneeds
      rw [hr]
      refine ⟨t + 1, ?_⟩
      simpa [rdfsSelectSlave] using ht.allocGroup hblocks (hgroup hneeds) hri
    · obtain ⟨pre, hpre, hi⟩ : ∃ pre, (inodes i).preBitmap = some pre ∧ pre.preIndex ≠ 64 := by
        simpa [BitmapInfo.NeedsGroup] using hneeds
      obtain ⟨ri', hr, bits, hri⟩ := allocBlock_of_pre slaves hpre hi
      rw [hr]
      exact ⟨t, ht.allocPre hblocks hpre hi hri⟩

/-- The next block is a block of slave 0 that has not been handed out. -/
theorem next (hgroup : (inodes i).NeedsGroup → (slaves rdfsSelectSlave).bitmapHead ≠ []) :
    (allocBlock slaves (inodes i)).2.1 = 0 ∧ (allocBlock slaves (inodes i)).1 ∉ ids ∧
      (allocBlock slaves (inodes i)).1 < blocks := by
  obtain ⟨t, ht⟩ := (h.alloc i hgroup).slaveInv hblocks
  have hnodup := nodup_append.1 ht.nodup
  have htaken := ht.taken _ (mem_append_right ids mem_cons_self)
  have hle := ht.le
  refine ⟨?_, fun hmem => hnodup.2.2 _ hmem _ mem_cons_self rfl, by omega⟩
  by_cases hneeds : (inodes i).NeedsGroup
  · obtain ⟨ri', hr, -⟩ := allocBlock_of_needsGroup slaves hneeds
    rw [hr]
  · obtain ⟨pre, hpre, hi⟩ : ∃ pre, (inodes i).preBitmap = some pre ∧ pre.preIndex ≠ 64 := by
      simpa [BitmapInfo.NeedsGroup] using hneeds
    obtain ⟨ri', hr, -⟩ := allocBlock_of_pre slaves hpre hi
    obtain ⟨t₀, ht₀⟩ := h.slaveInv hblocks
    rw [hr, (ht₀.group i pre hpre).1]
    rfl

end

/-- In every state of a run : the blocks handed out are distinct and lie in the slave, every
cursor lies in 0..64, and the free count is what the list and the cut-off rest hold. -/
theorem blocks_spec (h : SlaveRun blocks slaves inodes ids) (hblocks : blocks < 2 ^ 31) :
    ids.Nodup ∧
    (∀ b ∈ ids, (b : ℤ) < (slaves rdfsSelectSlave).totalBlockNums) ∧
    (∀ i, ∀ pre ∈ (inodes i).preBitmap, 0 ≤ pre.preIndex ∧ pre.preIndex ≤ 64) ∧
    (slaves rdfsSelectSlave).freeBlockNums =
      64 * (slaves rdfsSelectSlave).bitmapHead.length +
        (slaves rdfsSelectSlave).totalBlockNums % 64 := by
  obtain ⟨t, ht⟩ := h.slaveInv hblocks
  have hle := ht.le
  refine ⟨ht.nodup, fun b hb => ?_, ht.index, ?_⟩
  · have := ht.taken b hb
    rw [ht.total]
    omega
  · have hlen := congrArg List.length ht.list
    rw [length_map, length_map, length_range'] at hlen
    rw [ht.free, ht.total, hlen]
    omega

/-- Two inodes share a slave of 130 blocks : the second gets the second group. -/
theorem blocks_spec_twoInodes :
    let slaves : SlaveInfos := fun _ => rdfsInitSlaveMemoryBitmapList default 130
    let r := allocBlock slaves ⟨none, []⟩
    let r' := allocBlock r.2.2.2 ⟨none, []⟩
    [r.1, r'.1] = [0, 64] ∧ (r'.2.2.2 rdfsSelectSlave).freeBlockNums = 2 := by
  intro slaves r r'
  have hstart : SlaveRun 130 slaves (fun _ => ⟨none, []⟩) [] := .start slaves default rfl
  have hrun := (hstart.alloc 0 fun _ => by decide).alloc 1 fun _ => by decide
  have hspec := blocks_spec hrun (by decide)
  exact ⟨by decide, hspec.2.2.2⟩

end SlaveRun

/-- With no group left a call hands out block -1, and the next one block 0. -/
theorem allocBlock_exhausted {slaves : SlaveInfos} (h : (slaves rdfsSelectSlave).bitmapHead = [])
    (hri : ri.NeedsGroup) :
    ∃ ri', allocBlock slaves ri = (2 ^ 64 - 1, 0, ri', slaves) ∧
      (allocBlock slaves ri').1 = 0 := by
  have hfail : rdfsAllocSlaveMemoryBitmap (slaves 0) = (2 ^ 64 - 1, slaves 0) := by
    rw [rdfsAllocSlaveMemoryBitmap, show (slaves 0).bitmapHead = [] from h, ← u64_neg_one]
  obtain ⟨ri', hr, bits, hpre⟩ := allocBlock_of_needsGroup slaves hri
  rw [hfail] at hr hpre
  refine ⟨ri', by rw [hr, update_eq_self, u64_natCast (by omega)], ?_⟩
  obtain ⟨ri'', hr', -⟩ := allocBlock_of_pre slaves hpre (by simp)
  rw [hr']
  simp only [u64]
  omega

/-! ## Several blocks for one inode -/

/-- Every group that `num` blocks need is there. -/
def GroupsFound : ℕ → SlaveInfos → BitmapInfo → Prop
  | 0, _, _ => True
  | num + 1, slaves, ri =>
    (ri.NeedsGroup → (slaves rdfsSelectSlave).bitmapHead ≠ []) ∧
      GroupsFound num (allocBlock slaves ri).2.2.2 (allocBlock slaves ri).2.2.1

instance decidableGroupsFound : ∀ num slaves ri, Decidable (GroupsFound num slaves ri)
  | 0, _, _ => .isTrue trivial
  | num + 1, slaves, ri =>
    haveI := decidableGroupsFound num (allocBlock slaves ri).2.2.2 (allocBlock slaves ri).2.2.1
    inferInstanceAs (Decidable (_ ∧ _))

/-- The slaves and blocks that `num` calls for one inode hand out. -/
def handed : ℕ → SlaveInfos → BitmapInfo → List (ℕ × ℕ)
  | 0, _, _ => []
  | num + 1, slaves, ri =>
    ((allocBlock slaves ri).2.1, (allocBlock slaves ri).1) ::
      handed num (allocBlock slaves ri).2.2.2 (allocBlock slaves ri).2.2.1

@[simp] theorem length_handed (num : ℕ) (slaves : SlaveInfos) (ri : BitmapInfo) :
    (handed num slaves ri).length = num := by
  induction num generalizing slaves ri with
  | zero => rfl
  | succ num ih => rw [handed, length_cons, ih]

/-- The blocks of a group from the cursor on. -/
def groupBlocks (start : ℕ) (index : ℤ) : List ℕ :=
  (List.range (64 - index).toNat).map fun k : ℕ => u64 (index + k + start)

theorem groupBlocks_of_lt (start : ℕ) {index : ℤ} (h : index < 64) :
    groupBlocks start index = u64 (index + start) :: groupBlocks start (index + 1) := by
  obtain ⟨k, hk⟩ : ∃ k, (64 - index).toNat = k + 1 := ⟨(64 - index).toNat - 1, by omega⟩
  simp only [groupBlocks, hk, show (64 - (index + 1)).toNat = k by omega, range_succ_eq_map,
    map_cons, List.map_map]
  refine congrArg₂ List.cons (by simp) (map_congr_left fun i _ => ?_)
  simp only [comp_apply]
  congr 1
  push_cast
  omega

/-- What there is for an inode : the blocks left in its group, and those of the groups on the list
of the slave. -/
def nextBlocks (slaves : SlaveInfos) (ri : BitmapInfo) : List ℕ :=
  (ri.preBitmap.elim [] fun pre => groupBlocks pre.preStartBlockId pre.preIndex) ++
    (slaves rdfsSelectSlave).bitmapHead.flatMap fun group => groupBlocks group.startBlockId 0

/-- What is true of a slave and of each of its inodes in every state, with or without groups left :
the cursor stands in the group, and the counter covers the list. -/
structure SlaveState (slaves : SlaveInfos) (ri : BitmapInfo) : Prop where
  index : ∀ pre ∈ ri.preBitmap, pre.preAllocSlaveId = 0 ∧ 0 ≤ pre.preIndex ∧ pre.preIndex ≤ 64
  free : 64 * ((slaves rdfsSelectSlave).bitmapHead.length : ℤ) ≤
    (slaves rdfsSelectSlave).freeBlockNums

namespace SlaveState

variable {slaves : SlaveInfos} {ri : BitmapInfo} {blocks b : ℕ} {ids rest : List ℕ}

theorem init (hb : blocks < 2 ^ 31) {s : SlaveInfo}
    (hs : slaves rdfsSelectSlave = rdfsInitSlaveMemoryBitmapList s blocks) (used) :
    SlaveState slaves ⟨none, used⟩ := by
  obtain ⟨-, -, hfree, hlist, -⟩ := SlaveInv.start hb s
  have hlen := congrArg List.length hlist
  rw [length_map, length_map, length_range'] at hlen
  refine ⟨by simp, ?_⟩
  rw [hs, hlen, hfree]
  omega

section

variable (h : SlaveState slaves ri)
include h

/-- The group of the inode is used up, or the cursor stands on a block. -/
theorem cases : ri.NeedsGroup ∧ nextBlocks slaves ri =
      (slaves rdfsSelectSlave).bitmapHead.flatMap (groupBlocks ·.startBlockId 0) ∨
    ∃ pre, ri.preBitmap = some pre ∧ pre.preIndex < 64 := by
  rcases hpre : ri.preBitmap with _ | pre
  · exact .inl ⟨by simp [BitmapInfo.NeedsGroup, hpre], by simp [nextBlocks, hpre]⟩
  · by_cases hlt : pre.preIndex < 64
    · exact .inr ⟨pre, rfl, hlt⟩
    · have heq : pre.preIndex = 64 := by
        have := (h.index pre hpre).2.2
        omega
      exact .inl ⟨by simp [BitmapInfo.NeedsGroup, hpre, heq],
        by simp [nextBlocks, hpre, heq, groupBlocks]⟩

/-- A call hands out the first of the blocks. -/
theorem alloc (hnext : nextBlocks slaves ri = b :: rest) :
    ∃ ri' slaves', allocBlock slaves ri = (b, 0, ri', slaves') ∧ SlaveState slaves' ri' ∧
      nextBlocks slaves' ri' = rest := by
  rcases h.cases with ⟨hneeds, hlist⟩ | ⟨pre, hpre, hlt⟩
  · obtain ⟨use, tmp, hhead⟩ : ∃ use tmp, (slaves rdfsSelectSlave).bitmapHead = use :: tmp := by
      refine exists_cons_of_ne_nil fun h0 => ?_
      rw [hlist, h0] at hnext
      cases hnext
    have hfree := h.free
    rw [hhead, length_cons] at hfree
    obtain ⟨s', hpop, hhead', hfree'⟩ : ∃ s',
        rdfsAllocSlaveMemoryBitmap (slaves rdfsSelectSlave) = (use.startBlockId, s') ∧
        s'.bitmapHead = tmp ∧
        s'.freeBlockNums = (slaves rdfsSelectSlave).freeBlockNums - 64 := by
      rw [rdfsAllocSlaveMemoryBitmap, hhead]
      exact ⟨_, if_neg (by omega), rfl, rfl⟩
    rw [hlist, hhead, flatMap_cons, groupBlocks_of_lt _ (by decide), cons_append,
      cons.injEq] at hnext
    obtain ⟨ri', hr, bits, hri⟩ := allocBlock_of_needsGroup slaves hneeds
    rw [show rdfsAllocSlaveMemoryBitmap (slaves 0) = _ from hpop] at hr hri
    have hself : Function.update slaves 0 s' rdfsSelectSlave = s' := update_self ..
    refine ⟨ri', Function.update slaves 0 s', by rw [hr, ← hnext.1, zero_add], ⟨?_, ?_⟩, ?_⟩
    · rintro pre hpre
      obtain rfl := some.inj (hri.symm.trans hpre)
      exact ⟨rfl, Int.one_nonneg, (by decide : (1 : ℤ) ≤ 64)⟩
    · rw [hself, hhead', hfree']
      omega
    · rw [nextBlocks, hri, hself, hhead']
      exact hnext.2
  · obtain ⟨hslave, h0, -⟩ := h.index pre hpre
    rw [nextBlocks, hpre, elim_some, groupBlocks_of_lt _ hlt, cons_append,
      cons.injEq] at hnext
    obtain ⟨ri', hr, bits, hri⟩ := allocBlock_of_pre slaves hpre (by omega)
    refine ⟨ri', slaves, by rw [hr, hslave, hnext.1]; rfl, ⟨?_, h.free⟩, ?_⟩
    · rintro pre' hpre'
      obtain rfl := some.inj (hri.symm.trans hpre')
      exact ⟨hslave, by simp only; omega, by simp only; omega⟩
    · rw [nextBlocks, hri]
      exact hnext.2

/-- A call that finds no block. -/
theorem exhausted (hnext : nextBlocks slaves ri = []) :
    ∃ ri', allocBlock slaves ri = (2 ^ 64 - 1, 0, ri', slaves) ∧ SlaveState slaves ri' := by
  rcases h.cases with ⟨hneeds, hlist⟩ | ⟨pre, hpre, hlt⟩
  · have hempty : (slaves rdfsSelectSlave).bitmapHead = [] := by
      rcases hhead : (slaves rdfsSelectSlave).bitmapHead with _ | ⟨use, tmp⟩
      · rfl
      · rw [hlist, hhead, flatMap_cons, groupBlocks_of_lt _ (by decide)] at hnext
        cases hnext
    obtain ⟨ri', hr, -⟩ := allocBlock_exhausted hempty hneeds
    obtain ⟨ri'', hr', bits, hri⟩ := allocBlock_of_needsGroup slaves hneeds
    obtain rfl : ri'' = ri' := (Prod.mk.inj (Prod.mk.inj (Prod.mk.inj (hr'.symm.trans hr)).2).2).1
    refine ⟨ri'', hr, fun pre hpre => ?_, h.free⟩
    obtain rfl := some.inj (hri.symm.trans hpre)
    exact ⟨rfl, Int.one_nonneg, (by decide : (1 : ℤ) ≤ 64)⟩
  · rw [nextBlocks, hpre, elim_some, groupBlocks_of_lt _ hlt] at hnext
    cases hnext

/-- Every call keeps it so, for the inode and for all others. -/
theorem step {other : BitmapInfo} (h' : SlaveState slaves other) :
    SlaveState (allocBlock slaves ri).2.2.2 (allocBlock slaves ri).2.2.1 ∧
      SlaveState (allocBlock slaves ri).2.2.2 other := by
  rcases hnext : nextBlocks slaves ri with _ | ⟨b, rest⟩
  · obtain ⟨ri', hr, hstate⟩ := h.exhausted hnext
    rw [hr]
    exact ⟨hstate, h'⟩
  · obtain ⟨ri', slaves', hr, hstate, -⟩ := h.alloc hnext
    rw [hr]
    exact ⟨hstate, h'.index, hstate.free⟩

/-- The first blocks of several are those that are there, and they are all there or block -1 is
among them. -/
theorem handed_cases (num : ℕ) :
    (num ≤ (nextBlocks slaves ri).length ∧
      handed num slaves ri = ((nextBlocks slaves ri).take num).map (0, ·)) ∨
    (nextBlocks slaves ri).length < num ∧ (0, 2 ^ 64 - 1) ∈ handed num slaves ri := by
  induction num generalizing slaves ri with
  | zero => exact .inl ⟨Nat.zero_le _, rfl⟩
  | succ num ih =>
    rcases hnext : nextBlocks slaves ri with _ | ⟨b, rest⟩
    · obtain ⟨ri', hr, -⟩ := h.exhausted hnext
      rw [handed, hr]
      exact .inr ⟨Nat.succ_pos num, mem_cons_self⟩
    · obtain ⟨ri', slaves', hr, hstate, hrest⟩ := h.alloc hnext
      rw [handed, hr]
      rcases ih hstate with ⟨hle, heq⟩ | ⟨hlt, hmem⟩
      · rw [hrest] at hle heq
        exact .inl ⟨Nat.succ_le_succ hle, by rw [heq, take_succ_cons, map_cons]⟩
      · rw [hrest] at hlt
        exact .inr ⟨Nat.succ_lt_succ hlt, mem_cons_of_mem _ hmem⟩

end

end SlaveState

/-- There are `num` blocks for the inode, different blocks of a slave with `blocks` blocks that are
not among `ids`. -/
def FreshBlocks (blocks : ℕ) (ids : List ℕ) (num : ℕ) (slaves : SlaveInfos) (ri : BitmapInfo) :
    Prop :=
  num ≤ (nextBlocks slaves ri).length ∧ ((nextBlocks slaves ri).take num).Nodup ∧
    ∀ b ∈ (nextBlocks slaves ri).take num, b < blocks ∧ b ∉ ids

instance (blocks : ℕ) (ids : List ℕ) (num : ℕ) (slaves : SlaveInfos) (ri : BitmapInfo) :
    Decidable (FreshBlocks blocks ids num slaves ri) :=
  inferInstanceAs (Decidable (_ ∧ _ ∧ _))

/-- The blocks handed out to an inode are new blocks of slave 0 if and only if there are such. -/
theorem SlaveState.handed_iff {slaves : SlaveInfos} (h : SlaveState slaves ri) {blocks : ℕ}
    (hblocks : blocks < 2 ^ 31) (ids : List ℕ) (num : ℕ) :
    ((handed num slaves ri).Nodup ∧
      ∀ b ∈ handed num slaves ri, b.1 = 0 ∧ b.2 < blocks ∧ b.2 ∉ ids) ↔
        FreshBlocks blocks ids num slaves ri := by
  rcases h.handed_cases num with ⟨hle, heq⟩ | ⟨hlt, hmem⟩
  · rw [heq, FreshBlocks, and_iff_right hle]
    generalize (nextBlocks slaves ri).take num = bs
    simp [List.Nodup, pairwise_map]
  · refine iff_of_false (fun hall => ?_) fun hall => absurd hall.1 (by omega)
    have := (hall.2 _ hmem).2.1
    omega

end Rdfs
