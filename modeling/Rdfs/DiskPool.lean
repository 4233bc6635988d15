import Mathlib.Algebra.BigOperators.Group.Finset.Basic
import Mathlib.Data.Fintype.BigOperators
import Mathlib.Data.Multiset.Range
import Rdfs.Layout

/-!
# Blocks of a block device

The blocks of a block device are handed out from a range that only shrinks, in portions of 512,
through one stack of block numbers per processor (`BlockPool`). Freed blocks go back to the stack
of the processor, and when it is full to a reserve that all processors refill from.

* Without frees, the calls serve every block of the device and then report that it is full,
  exactly for devices whose last block is neither 0 nor 1 modulo 512 and below `2 ^ 31`
  (`allocOk_iff`).
* With frees, no block is handed out twice and none is lost as long as the reserve is never used
  for a refill, but at a size where the refill happens to copy the right entries
  (`DiskRun.diskBlocks_spec`).
-/

namespace Rdfs

open List Function

/-! ## The code -/

/-- `CPU_NR`. -/
abbrev cpuNr : ℕ := 24

/-- `COUNT_PER_ALLOC`. -/
def countPerAlloc : ℕ := 512

/-- `DEFAYLT_CAPACITY`. -/
def defayltCapacity : ℤ := 512

/-- `struct block_pool_per_cpu`; `address` are the entries, those above `post` included. -/
structure BlockPool where
  post : ℤ
  capacity : ℤ
  address : ℤ → ℕ

/-- `struct bdev_des` : the range of blocks that have not been issued, from `start` to `stop`, the
pools of the processors, and the reserve. -/
structure BdevDes where
  start : ℕ
  stop : ℕ
  blockPool : Fin (cpuNr + 1) → BlockPool

/-- The pool of a processor. -/
def poolOf (cpu : Fin cpuNr) : Fin (cpuNr + 1) := cpu.castSucc

/-- The reserve. -/
def reserved : Fin (cpuNr + 1) := Fin.last cpuNr

/-- `rdfs_init_bdev` and `__rdfs_init_bdev_pool`; `content` is what the pages of the pools hold. -/
def rdfsInitBdev (stop : ℕ) (content : ℤ → ℕ) : BdevDes where
  start := 1
  stop := stop
  blockPool _ := ⟨0, defayltCapacity, content⟩

/-- The loop of `__rdfs_alloc_a_disk_block` that fills a pool from the range, with `count` rounds
to go; `start` is an `int`. -/
def fillLoop : ℕ → ℤ → ℤ → (ℤ → ℕ) → ℤ → ℕ
  | 0, _, _, address => address
  | count + 1, i, start, address =>
    fillLoop count (i + 1) (i32 (start + 1)) (Function.update address i (u64 start))

/-- The blocks one refill takes from the range. -/
def refillCount (d : BdevDes) : ℕ :=
  if d.start + countPerAlloc - 1 ≤ d.stop then countPerAlloc else d.stop + 1 - d.start

/-- The pool of a processor once it is refilled from the range. -/
def refillRange (d : BdevDes) (pool : BlockPool) : BlockPool :=
  { pool with
    post := refillCount d
    address := fillLoop (refillCount d) 0 (i32 d.start) pool.address }

/-- The blocks one refill takes from the reserve. -/
def reserveCount (reserve : BlockPool) : ℤ :=
  if (countPerAlloc : ℤ) < reserve.post then countPerAlloc else reserve.post

/-- The pool of a processor once it is refilled from the reserve. The offset of the copy is scaled
by the size of an entry twice. -/
def refillReserve (reserve pool : BlockPool) : BlockPool :=
  { pool with
    post := pool.post + reserveCount reserve
    address := fun i => if 0 ≤ i ∧ i < reserveCount reserve then
        reserve.address (8 * reserveCount reserve + i)
      else pool.address i }

/-- The end of `__rdfs_alloc_a_disk_block` : the entry below `post`. -/
def popBlock (cpu : Fin cpuNr) (d : BdevDes) (pool : BlockPool) : ℕ × BdevDes :=
  (pool.address (pool.post - 1), { d with
    blockPool := Function.update d.blockPool (poolOf cpu) { pool with post := pool.post - 1 } })

/-- The call finds its pool, the reserve and the range empty, and reports that the device is
full. -/
def ReportsFull (cpu : Fin cpuNr) (d : BdevDes) : Prop :=
  (d.blockPool (poolOf cpu)).post = 0 ∧ (d.blockPool reserved).post = 0 ∧ d.start = d.stop

instance (cpu : Fin cpuNr) (d : BdevDes) : Decidable (ReportsFull cpu d) :=
  inferInstanceAs (Decidable (_ ∧ _))

/-- `__rdfs_alloc_a_disk_block` on processor `cpu`. -/
def rdfsAllocADiskBlock (cpu : Fin cpuNr) (d : BdevDes) : ℕ × BdevDes :=
  let pool := d.blockPool (poolOf cpu)
  let reserve := d.blockPool reserved
  if pool.post = 0 then
    if reserve.post = 0 then
      if d.start = d.stop then (u64 (-1), d)
      else
        let start := if d.start + countPerAlloc - 1 ≤ d.stop then d.start + countPerAlloc
          else d.stop
        popBlock cpu { d with start := start } (refillRange d pool)
    else
      let reserve' := { reserve with post := reserve.post - reserveCount reserve }
      popBlock cpu { d with blockPool := Function.update d.blockPool reserved reserve' }
        (refillReserve reserve pool)
  else popBlock cpu d pool

/-- `free_into_pool`. -/
def freeIntoPool (pool : BlockPool) (sn : ℕ) : BlockPool :=
  { capacity := if pool.capacity ≤ pool.post then pool.capacity + 4096 / 8 else pool.capacity
    address := Function.update pool.address pool.post sn
    post := pool.post + 1 }

/-- `__rdfs_free_a_disk_block` on processor `cpu`. -/
def rdfsFreeADiskBlock (cpu : Fin cpuNr) (d : BdevDes) (sn : ℕ) : BdevDes :=
  let pool := d.blockPool (poolOf cpu)
  let i := if pool.post = pool.capacity then reserved else poolOf cpu
  { d with blockPool := Function.update d.blockPool i (freeIntoPool (d.blockPool i) sn) }

/-! ## Refills -/

theorem poolOf_ne_reserved (cpu : Fin cpuNr) : poolOf cpu ≠ reserved := Fin.castSucc_ne_last cpu

@[simp] theorem popBlock_pool (cpu : Fin cpuNr) (d : BdevDes) (pool : BlockPool) :
    (popBlock cpu d pool).2.blockPool (poolOf cpu) = { pool with post := pool.post - 1 } :=
  update_self _ _ _

@[simp] theorem popBlock_reserved (cpu : Fin cpuNr) (d : BdevDes) (pool : BlockPool) :
    (popBlock cpu d pool).2.blockPool reserved = d.blockPool reserved :=
  update_of_ne (poolOf_ne_reserved cpu).symm _ _

variable {cpu : Fin cpuNr} {d : BdevDes} {stop : ℕ} {issued : List ℕ} {pool : BlockPool}
  {out freed : Multiset ℕ}

theorem popBlock_other {c : Fin cpuNr} (h : c ≠ cpu) (d : BdevDes) (pool : BlockPool) :
    (popBlock cpu d pool).2.blockPool (poolOf c) = d.blockPool (poolOf c) :=
  update_of_ne (fun heq => h (Fin.castSucc_injective _ heq)) _ _

section

variable (hpost : (d.blockPool (poolOf cpu)).post = 0)
include hpost

theorem alloc_eq_full (hres : (d.blockPool reserved).post = 0) (hfull : d.start = d.stop) :
    rdfsAllocADiskBlock cpu d = (u64 (-1), d) := by
  rw [rdfsAllocADiskBlock, if_pos hpost, if_pos hres, if_pos hfull]

theorem alloc_eq_range (hres : (d.blockPool reserved).post = 0) (hne : d.start ≠ d.stop) :
    rdfsAllocADiskBlock cpu d = popBlock cpu { d with
      start := if d.start + countPerAlloc - 1 ≤ d.stop then d.start + countPerAlloc else d.stop }
      (refillRange d (d.blockPool (poolOf cpu))) := by
  rw [rdfsAllocADiskBlock, if_pos hpost, if_pos hres, if_neg hne]

theorem alloc_eq_reserve (hres : (d.blockPool reserved).post ≠ 0) :
    let reserve := d.blockPool reserved
    let reserve' := { reserve with post := reserve.post - reserveCount reserve }
    rdfsAllocADiskBlock cpu d = popBlock cpu
      { d with blockPool := Function.update d.blockPool reserved reserve' }
      (refillReserve reserve (d.blockPool (poolOf cpu))) := by
  rw [rdfsAllocADiskBlock, if_pos hpost, if_neg hres]

end

theorem alloc_eq_pop (hpost : (d.blockPool (poolOf cpu)).post ≠ 0) :
    rdfsAllocADiskBlock cpu d = popBlock cpu d (d.blockPool (poolOf cpu)) := by
  rw [rdfsAllocADiskBlock, if_neg hpost]

theorem fillLoop_apply : ∀ {count : ℕ} {i start : ℤ} {address : ℤ → ℕ},
    -2 ^ 31 ≤ start → start < 2 ^ 31 → ∀ j : ℤ, fillLoop count i start address j =
        if i ≤ j ∧ j < i + count then u64 (i32 (start + (j - i))) else address j
  | 0, i, start, address, _, _, j => by
    rw [fillLoop, if_neg (by omega)]
  | count + 1, i, start, address, h1, h2, j => by
    have hr : -2 ^ 31 ≤ i32 (start + 1) ∧ i32 (start + 1) < 2 ^ 31 := by
      unfold i32
      omega
    rw [fillLoop, fillLoop_apply hr.1 hr.2]
    by_cases hj : j = i
    · subst hj
      rw [if_neg (by omega), if_pos (by omega), update_self, Int.sub_self, Int.add_zero,
        i32_eq h1 h2]
    · rw [update_of_ne hj]
      refine if_congr (by omega) ?_ rfl
      congr 1
      unfold i32
      omega

/-- The entries of a refill from the range are the blocks from `start` on, as long as they fit in
an `int`. -/
theorem refillRange_apply (pool : BlockPool) (h : d.start + refillCount d ≤ 2 ^ 31)
    (hc : 0 < refillCount d) {i : ℕ} (hi : i < refillCount d) :
    (refillRange d pool).address i = d.start + i := by
  have hstart : i32 d.start = d.start := i32_eq (by omega) (by omega)
  show fillLoop (refillCount d) 0 (i32 d.start) pool.address i = d.start + i
  rw [hstart, fillLoop_apply (by omega) (by omega), if_pos (by omega),
    i32_eq (by omega) (by omega), Int.sub_zero, ← Int.natCast_add, u64_natCast (by omega)]

/-- A refill takes at least one block, at most 512, and only blocks of the device. -/
theorem refillCount_bounds (h : d.start ≤ d.stop) :
    0 < refillCount d ∧ refillCount d ≤ 512 ∧ d.start + refillCount d ≤ d.stop + 1 := by
  unfold refillCount countPerAlloc
  split_ifs <;> omega

/-- A refill takes 512 blocks if there are so many. -/
theorem refillCount_eq (h : d.start + 511 ≤ d.stop) : refillCount d = 512 := by
  unfold refillCount countPerAlloc
  exact if_pos (by omega)

/-! ## Allocation only -/

/-- The blocks a call takes from the range, as it writes them to the pool. -/
def issuedBy (cpu : Fin cpuNr) (d : BdevDes) : List ℕ :=
  if (d.blockPool (poolOf cpu)).post = 0 ∧ (d.blockPool reserved).post = 0 ∧ d.start ≠ d.stop then
    (List.range (refillCount d)).map fun i : ℕ =>
      (refillRange d (d.blockPool (poolOf cpu))).address i
  else []

theorem issuedBy_pop (hpost : (d.blockPool (poolOf cpu)).post ≠ 0) : issuedBy cpu d = [] :=
  if_neg fun hc => hpost hc.1

theorem issuedBy_range (hpost : (d.blockPool (poolOf cpu)).post = 0)
    (hres : (d.blockPool reserved).post = 0) (hne : d.start ≠ d.stop)
    (h : d.start + refillCount d ≤ 2 ^ 31) (hc : 0 < refillCount d) :
    issuedBy cpu d = List.range' d.start (refillCount d) := by
  rw [issuedBy, if_pos ⟨hpost, hres, hne⟩, range'_eq_map_range]
  exact map_congr_left fun i hi => refillRange_apply _ h hc (mem_range.1 hi)

/-- Runs of `__rdfs_alloc_a_disk_block` on any processors, with all blocks taken from the range so
far. -/
inductive AllocRun (stop : ℕ) : BdevDes → List ℕ → Prop
  | init (content : ℤ → ℕ) : AllocRun stop (rdfsInitBdev stop content) []
  | alloc {d : BdevDes} {issued : List ℕ} (h : AllocRun stop d issued) (cpu : Fin cpuNr) :
      AllocRun stop (rdfsAllocADiskBlock cpu d).2 (issued ++ issuedBy cpu d)

/-- What is expected of a call. It reports that the device is full, and changes nothing, if and
only if its pools are empty and all blocks have been issued. Otherwise the block it returns is one
of the device, and all entries it accesses lie below the capacity. -/
def AllocOk (stop : ℕ) (issued : List ℕ) (cpu : Fin cpuNr) (d : BdevDes) : Prop :=
  let r := rdfsAllocADiskBlock cpu d
  (ReportsFull cpu d → ∀ b, 1 ≤ b → b ≤ stop → b ∈ issued) ∧
  ((d.blockPool (poolOf cpu)).post = 0 → (d.blockPool reserved).post = 0 →
    (∀ b, 1 ≤ b → b ≤ stop → b ∈ issued) → r = (u64 (-1), d)) ∧
  (¬ReportsFull cpu d → 1 ≤ r.1 ∧ r.1 ≤ stop ∧ 0 ≤ (r.2.blockPool (poolOf cpu)).post ∧
    (r.2.blockPool (poolOf cpu)).post < (r.2.blockPool (poolOf cpu)).capacity ∧
    ((issuedBy cpu d).length : ℤ) ≤ (r.2.blockPool (poolOf cpu)).capacity)

/-- A pool holds blocks of the device. -/
structure PoolOk (stop : ℕ) (pool : BlockPool) : Prop where
  nonneg : 0 ≤ pool.post
  le : pool.post ≤ 512
  capacity : pool.capacity = 512
  entry : ∀ i : ℕ, (i : ℤ) < pool.post → 1 ≤ pool.address i ∧ pool.address i ≤ stop

/-- The pools hold blocks of the device, the reserve is empty, and what has been issued is what
lies before the range. -/
structure AllocInv (stop : ℕ) (issued : List ℕ) (d : BdevDes) : Prop where
  stop_eq : d.stop = stop
  reserve : (d.blockPool reserved).post = 0
  pool : ∀ cpu, PoolOk stop (d.blockPool (poolOf cpu))
  range : (∃ k, d.start = 1 + 512 * k ∧ d.start ≤ stop ∧ issued = List.range' 1 (512 * k)) ∨
    (d.start = stop ∧ ∀ b, 1 ≤ b → b ≤ stop → b ∈ issued)

/-- The pool of a processor replaced, and a block popped from it. -/
theorem AllocInv.pop (h : AllocInv stop issued d) (start : ℕ) (issued' : List ℕ) (cpu : Fin cpuNr)
    (hpool : PoolOk stop pool) (hpos : 0 < pool.post)
    (hrange : (∃ k, start = 1 + 512 * k ∧ start ≤ stop ∧ issued' = List.range' 1 (512 * k)) ∨
      (start = stop ∧ ∀ b, 1 ≤ b → b ≤ stop → b ∈ issued')) :
    let r := popBlock cpu { d with start := start } pool
    AllocInv stop issued' r.2 ∧ 1 ≤ r.1 ∧ r.1 ≤ stop ∧
      r.2.blockPool (poolOf cpu) = { pool with post := pool.post - 1 } := by
  intro r
  obtain ⟨n, hn⟩ : ∃ n : ℕ, pool.post - 1 = n := ⟨(pool.post - 1).toNat, by omega⟩
  have hself : r.2.blockPool (poolOf cpu) = { pool with post := pool.post - 1 } :=
    popBlock_pool cpu _ pool
  have hle := hpool.le
  have hentry : r.1 = pool.address n := congrArg pool.address hn
  have hlast := hpool.entry n (by omega)
  refine ⟨⟨h.stop_eq, ?_, fun c => ?_, hrange⟩, hentry ▸ hlast.1, hentry ▸ hlast.2, hself⟩
  · rw [popBlock_reserved]
    exact h.reserve
  · by_cases hc : c = cpu
    · rw [hc, hself]
      refine ⟨show 0 ≤ pool.post - 1 by omega, show pool.post - 1 ≤ 512 by omega, hpool.capacity,
        fun i hi => hpool.entry i ?_⟩
      replace hi : (i : ℤ) < pool.post - 1 := hi
      omega
    · rw [popBlock_other hc]
      exact h.pool c

section

variable {stop : ℕ} {issued : List ℕ} {d : BdevDes}

section

variable (h : AllocInv stop issued d)
include h

/-- A call that finds its pools and the range empty. -/
theorem AllocInv.alloc_full (hmod : 1 < stop % 512) (hpost : (d.blockPool (poolOf cpu)).post = 0)
    (hfull : d.start = d.stop) :
    AllocInv stop (issued ++ issuedBy cpu d) (rdfsAllocADiskBlock cpu d).2 ∧
      AllocOk stop issued cpu d := by
  have hstop := h.stop_eq
  have hissued : issuedBy cpu d = [] := if_neg fun hc => hc.2.2 hfull
  have hall : ∀ b, 1 ≤ b → b ≤ stop → b ∈ issued := by
    rcases h.range with ⟨k, hk, -⟩ | ⟨-, hall⟩
    · omega
    · exact hall
  unfold AllocOk
  rw [alloc_eq_full hpost h.reserve hfull, hissued, append_nil]
  exact ⟨h, fun _ => hall, fun _ _ _ => rfl, fun hn => absurd ⟨hpost, h.reserve, hfull⟩ hn⟩

/-- The next portion of the range. -/
theorem AllocInv.portion (hfull : d.start ≠ d.stop) :
    ∃ k, d.start = 1 + 512 * k ∧ d.start ≤ stop ∧ issued = List.range' 1 (512 * k) := by
  rcases h.range with hk | ⟨hc, -⟩
  · exact hk
  · exact absurd (hc.trans h.stop_eq.symm) hfull

theorem AllocInv.poolOk_refill (hlt : stop < 2 ^ 31) (hpos : 0 < d.start) (hle : d.start ≤ d.stop) :
    PoolOk stop (refillRange d (d.blockPool (poolOf cpu))) := by
  have hstop := h.stop_eq
  obtain ⟨hc0, hc512, hcle⟩ := refillCount_bounds hle
  refine ⟨Int.natCast_nonneg _, show ((refillCount d : ℕ) : ℤ) ≤ 512 by omega,
    (h.pool cpu).capacity, fun i hi => ?_⟩
  replace hi : (i : ℤ) < refillCount d := hi
  rw [refillRange_apply _ (by omega) hc0 (by omega)]
  omega

/-- A call that refills its pool from the range. -/
theorem AllocInv.alloc_refill (hmod : 1 < stop % 512) (hlt : stop < 2 ^ 31)
    (hpost : (d.blockPool (poolOf cpu)).post = 0) (hfull : d.start ≠ d.stop) :
    AllocInv stop (issued ++ issuedBy cpu d) (rdfsAllocADiskBlock cpu d).2 ∧
      AllocOk stop issued cpu d := by
  obtain rfl := h.stop_eq
  have hcap := (h.pool cpu).capacity
  obtain ⟨k, hk, hle, hiss⟩ := h.portion hfull
  obtain ⟨hc0, hc512, hcle⟩ := refillCount_bounds hle
  have hissued := issuedBy_range hpost h.reserve hfull (by omega) hc0
  have hnew : issued ++ issuedBy cpu d = List.range' 1 (512 * k + refillCount d) := by
    rw [hissued, hiss, hk, ← range'_append_1]
  obtain ⟨hinv, h1, h2, hself⟩ := h.pop
    (if d.start + countPerAlloc - 1 ≤ d.stop then d.start + countPerAlloc else d.stop)
    (issued ++ issuedBy cpu d) cpu (h.poolOk_refill hlt (by omega) hle)
    (show (0 : ℤ) < (refillCount d : ℕ) by omega) (by
      rw [hnew]
      unfold refillCount countPerAlloc
      split_ifs with hc
      · exact Or.inl ⟨k + 1, by omega, by omega, rfl⟩
      · refine Or.inr ⟨rfl, fun b hb1 hb2 => ?_⟩
        rw [mem_range'_1]
        omega)
  unfold AllocOk
  rw [alloc_eq_range hpost h.reserve hfull]
  refine ⟨hinv, fun hc => absurd hc.2.2 hfull, fun _ _ hall => ?_, fun _ => ⟨h1, h2, ?_⟩⟩
  · have := hall d.stop (by omega) le_rfl
    rw [hiss, mem_range'_1] at this
    omega
  · rw [hself, hissued, length_range']
    refine ⟨show (0 : ℤ) ≤ (refillCount d : ℕ) - 1 by omega,
      show ((refillCount d : ℕ) : ℤ) - 1 < (d.blockPool (poolOf cpu)).capacity by omega,
      show ((refillCount d : ℕ) : ℤ) ≤ (d.blockPool (poolOf cpu)).capacity by omega⟩

/-- A call that finds a block in its pool. -/
theorem AllocInv.alloc_pool (hpost : (d.blockPool (poolOf cpu)).post ≠ 0) :
    AllocInv stop (issued ++ issuedBy cpu d) (rdfsAllocADiskBlock cpu d).2 ∧
      AllocOk stop issued cpu d := by
  have hpool := h.pool cpu
  have hcap := hpool.capacity
  have hnonneg := hpool.nonneg
  have hle := hpool.le
  obtain ⟨hinv, h1, h2, hself⟩ := h.pop d.start issued cpu hpool (by omega) h.range
  unfold AllocOk
  rw [alloc_eq_pop hpost, issuedBy_pop hpost, append_nil]
  refine ⟨hinv, fun hc => absurd hc.1 hpost, fun hc => absurd hc hpost, fun _ => ⟨h1, h2, ?_⟩⟩
  rw [hself]
  refine ⟨show 0 ≤ (d.blockPool (poolOf cpu)).post - 1 by omega,
    show (d.blockPool (poolOf cpu)).post - 1 < (d.blockPool (poolOf cpu)).capacity by omega,
    show ((0 : ℕ) : ℤ) ≤ (d.blockPool (poolOf cpu)).capacity by omega⟩

/-- One call, for a device of a good size. -/
theorem AllocInv.alloc (hmod : 1 < stop % 512) (hlt : stop < 2 ^ 31) (cpu : Fin cpuNr) :
    AllocInv stop (issued ++ issuedBy cpu d) (rdfsAllocADiskBlock cpu d).2 ∧
      AllocOk stop issued cpu d := by
  by_cases hpost : (d.blockPool (poolOf cpu)).post = 0
  · by_cases hfull : d.start = d.stop
    · exact h.alloc_full hmod hpost hfull
    · exact h.alloc_refill hmod hlt hpost hfull
  · exact h.alloc_pool hpost

end

end

theorem AllocRun.inv (h : AllocRun stop d issued) (hmod : 1 < stop % 512) (hlt : stop < 2 ^ 31) :
    AllocInv stop issued d := by
  induction h with
  | init content =>
    refine ⟨rfl, rfl, fun cpu => ⟨le_rfl, (by decide : (0 : ℤ) ≤ 512), rfl, fun i hi => ?_⟩,
      Or.inl ⟨0, rfl, ?_, rfl⟩⟩
    · exact absurd hi (Int.not_lt.2 (Int.natCast_nonneg i))
    · show 1 ≤ stop
      omega
  | alloc _ cpu ih => exact (ih.alloc hmod hlt cpu).1

/-- Calls of one processor until its pool is empty. -/
theorem AllocRun.drain (cpu : Fin cpuNr) :
    ∀ (n : ℕ) {d : BdevDes}, AllocRun stop d issued → (d.blockPool (poolOf cpu)).post = n →
      ∃ d', AllocRun stop d' issued ∧ (d'.blockPool (poolOf cpu)).post = 0 ∧
        d'.start = d.start ∧ d'.stop = d.stop ∧ d'.blockPool reserved = d.blockPool reserved
  | 0, d, h, hpost => ⟨d, h, hpost, rfl, rfl, rfl⟩
  | n + 1, d, h, hpost => by
    have hne : (d.blockPool (poolOf cpu)).post ≠ 0 := by omega
    have hnext := h.alloc cpu
    rw [issuedBy_pop hne, append_nil, alloc_eq_pop hne] at hnext
    obtain ⟨d', hrun, h0, hstart, hstop, hres⟩ := AllocRun.drain cpu n hnext (by
      rw [popBlock_pool]
      show (d.blockPool (poolOf cpu)).post - 1 = n
      omega)
    exact ⟨d', hrun, h0, hstart, hstop, hres.trans (popBlock_reserved cpu d _)⟩

/-- The first processor alone takes all blocks up to `512 * k`. -/
theorem allocRun_portions (stop : ℕ) : ∀ k : ℕ, 512 * k ≤ stop → 512 * k < 2 ^ 31 → ∃ d,
      AllocRun stop d (List.range' 1 (512 * k)) ∧ d.start = 1 + 512 * k ∧ d.stop = stop ∧
      (d.blockPool (poolOf 0)).post = 0 ∧ (d.blockPool reserved).post = 0
  | 0, _, _ => ⟨_, AllocRun.init fun _ => 0, rfl, rfl, rfl, rfl⟩
  | k + 1, hle, hlt => by
    obtain ⟨d, hrun, hstart, hstop, hpost, hres⟩ := allocRun_portions stop k (by omega) (by omega)
    have hle' : d.start + 511 ≤ d.stop := by omega
    have hcount := refillCount_eq hle'
    have hne : d.start ≠ d.stop := by omega
    have hnext := hrun.alloc 0
    rw [alloc_eq_range hpost hres hne, if_pos (show d.start + countPerAlloc - 1 ≤ d.stop from hle'),
      issuedBy_range hpost hres hne (by omega) (by omega), hcount, hstart, range'_append_1,
      ← Nat.mul_succ] at hnext
    obtain ⟨d', hrun', h0, hstart', hstop', hres'⟩ := AllocRun.drain 0 511 hnext (by
      rw [popBlock_pool]
      show ((refillCount d : ℕ) : ℤ) - 1 = (511 : ℕ)
      rw [hcount]
      rfl)
    refine ⟨d', hrun', ?_, hstop'.trans hstop, h0, ?_⟩
    · rw [hstart']
      show 1 + 512 * k + 512 = 1 + 512 * (k + 1)
      omega
    · rw [hres', popBlock_reserved]
      exact hres

/-- A device whose size is a multiple of 512 : the range is left by one, the next refill takes no
block, and `post` becomes negative. -/
theorem not_allocOk_of_mod_zero (hmod : stop % 512 = 0) (hlt : stop < 2 ^ 31) :
    ∃ d issued, AllocRun stop d issued ∧
      ((rdfsAllocADiskBlock 0 d).2.blockPool (poolOf 0)).post < 0 ∧ ¬AllocOk stop issued 0 d := by
  obtain ⟨d, hrun, hstart, hstop, hpost, hres⟩ := allocRun_portions stop
    (stop / 512) (by omega) (by omega)
  have hcount : refillCount d = 0 := by
    rw [refillCount, if_neg]
    · omega
    · unfold countPerAlloc
      omega
  have hr : ((rdfsAllocADiskBlock 0 d).2.blockPool (poolOf 0)).post = -1 := by
    rw [alloc_eq_range hpost hres (by omega), popBlock_pool]
    show ((refillCount d : ℕ) : ℤ) - 1 = -1
    rw [hcount]
    rfl
  refine ⟨d, _, hrun, by omega, fun hok => ?_⟩
  have hfull := hok.2.1 hpost hres fun b h1 h2 => by
    rw [mem_range'_1]
    omega
  rw [hfull] at hr
  simp only at hr
  omega

/-- A device whose size is one more : it is full before the last block is issued. -/
theorem not_allocOk_of_mod_one (hmod : stop % 512 = 1) (hlt : stop < 2 ^ 31) :
    ∃ d issued, AllocRun stop d issued ∧ ReportsFull 0 d ∧ stop ∉ issued ∧
      ¬AllocOk stop issued 0 d := by
  obtain ⟨d, hrun, hstart, hstop, hpost, hres⟩ := allocRun_portions stop
    (stop / 512) (by omega) (by omega)
  have hfull : ReportsFull 0 d := ⟨hpost, hres, by omega⟩
  have hlast : stop ∉ List.range' 1 (512 * (stop / 512)) := by
    rw [mem_range'_1]
    omega
  exact ⟨d, _, hrun, hfull, hlast, fun hok => hlast (hok.1 hfull stop (by omega) le_rfl)⟩

/-- A device with block `2 ^ 31` : its number is not an `int`. -/
theorem not_allocOk_of_large (hle : 2 ^ 31 ≤ stop) (hlt : stop < 2 ^ 61) :
    ∃ d issued, AllocRun stop d issued ∧ stop < (rdfsAllocADiskBlock 0 d).1 ∧
      ¬AllocOk stop issued 0 d := by
  obtain ⟨d, hrun, hstart, hstop, hpost, hres⟩ := allocRun_portions stop
    (2 ^ 22 - 1) (by omega) (by omega)
  have hne : d.start ≠ d.stop := by omega
  have hr : (rdfsAllocADiskBlock 0 d).1 = 2 ^ 64 - 2 ^ 31 := by
    rw [alloc_eq_range hpost hres hne]
    show fillLoop (refillCount d) 0 (i32 d.start) _ ((refillCount d : ℕ) - 1) = _
    rw [refillCount_eq (by omega), hstart, fillLoop_apply (by decide) (by decide),
      if_pos (by decide)]
    decide
  refine ⟨d, _, hrun, by omega, fun hok => ?_⟩
  obtain ⟨-, h2, -⟩ := hok.2.2 fun hc => hne hc.2.2
  omega

/-- Without frees, the calls do what is expected of them exactly for devices whose last block is
neither 0 nor 1 modulo 512 and is below `2 ^ 31`. The size of a device is a number of sectors
divided by eight. -/
theorem allocOk_iff {stop : ℕ} (hstop : stop < 2 ^ 61) :
    (∀ d issued cpu, AllocRun stop d issued → AllocOk stop issued cpu d) ↔
      1 < stop % 512 ∧ stop < 2 ^ 31 := by
  constructor
  · intro hok
    have hlt : stop < 2 ^ 31 := by
      by_contra hge
      obtain ⟨d, issued, hrun, -, hnot⟩ := not_allocOk_of_large (Nat.le_of_not_lt hge) hstop
      exact hnot (hok d issued 0 hrun)
    refine ⟨?_, hlt⟩
    by_contra hle
    have hcases : stop % 512 = 0 ∨ stop % 512 = 1 := by omega
    rcases hcases with hmod | hmod
    · obtain ⟨d, issued, hrun, -, hnot⟩ := not_allocOk_of_mod_zero hmod hlt
      exact hnot (hok d issued 0 hrun)
    · obtain ⟨d, issued, hrun, -, -, hnot⟩ := not_allocOk_of_mod_one hmod hlt
      exact hnot (hok d issued 0 hrun)
  · rintro ⟨hmod, hlt⟩ d issued cpu hrun
    exact ((hrun.inv hmod hlt).alloc hmod hlt cpu).2

/-- A device of 1000 blocks. -/
theorem allocOk_thousand : (1 < 1000 % 512 ∧ 1000 < 2 ^ 31) ∧
    ∀ d issued cpu, AllocRun 1000 d issued → AllocOk 1000 issued cpu d :=
  ⟨by decide, (allocOk_iff (by decide)).2 (by decide)⟩

/-- A device of 512 blocks : once all are handed out, `post` is -1. -/
theorem alloc_below_pool : ∃ d issued, AllocRun 512 d issued ∧
      ((rdfsAllocADiskBlock 0 d).2.blockPool (poolOf 0)).post < 0 ∧ ¬AllocOk 512 issued 0 d :=
  not_allocOk_of_mod_zero (by decide) (by decide)

/-! ## Allocation and frees -/

/-- The blocks in a pool. -/
def BlockPool.entries (pool : BlockPool) : Multiset ℕ :=
  (Multiset.range pool.post.toNat).map fun i : ℕ => pool.address i

/-- The blocks in all pools. -/
def BdevDes.pooled (d : BdevDes) : Multiset ℕ := ∑ i, (d.blockPool i).entries

/-- The blocks of the range that can still be issued. -/
def BdevDes.unissued (d : BdevDes) : Multiset ℕ :=
  if d.start < d.stop then Multiset.ofList (List.range' d.start (d.stop + 1 - d.start)) else 0

/-- The condition on a call that finds its pool empty : the reserve is empty too and the range has
not been left, or the reserve has a size for which the refill copies its last entries. -/
def RefillOk (cpu : Fin cpuNr) (d : BdevDes) : Prop :=
  (d.blockPool (poolOf cpu)).post = 0 →
    ((d.blockPool reserved).post = 0 ∧ d.start ≤ d.stop ∧ d.stop < 2 ^ 31) ∨
      (d.blockPool reserved).post = 9 * countPerAlloc

/-- Runs of `__rdfs_alloc_a_disk_block` and `__rdfs_free_a_disk_block` on any processors, in which
calls meet `C` and only blocks that are allocated are freed. `out` are the blocks that are
allocated, `freed` all blocks that have ever been freed. -/
inductive DiskRun (C : Fin cpuNr → BdevDes → Prop) (stop : ℕ) :
    BdevDes → Multiset ℕ → Multiset ℕ → Prop
  | init (content : ℤ → ℕ) : DiskRun C stop (rdfsInitBdev stop content) 0 0
  | alloc {d : BdevDes} {out freed : Multiset ℕ} (h : DiskRun C stop d out freed)
      (cpu : Fin cpuNr) (hc : C cpu d) :
      DiskRun C stop (rdfsAllocADiskBlock cpu d).2
        (if ReportsFull cpu d then out else (rdfsAllocADiskBlock cpu d).1 ::ₘ out) freed
  | free {d : BdevDes} {out freed : Multiset ℕ} (h : DiskRun C stop d out freed)
      (cpu : Fin cpuNr) {sn : ℕ} (hsn : sn ∈ out) :
      DiskRun C stop (rdfsFreeADiskBlock cpu d sn) (out.erase sn) (sn ::ₘ freed)

/-- The pools have their entries between 0 and their capacity. -/
def PoolsIn (d : BdevDes) : Prop :=
  ∀ i, 0 ≤ (d.blockPool i).post ∧ (d.blockPool i).post ≤ (d.blockPool i).capacity ∧
    512 ≤ (d.blockPool i).capacity

/-- One pool replaced. -/
theorem pooled_update (d : BdevDes) (start : ℕ) (i : Fin (cpuNr + 1)) (pool : BlockPool) :
    BdevDes.pooled { d with start := start, blockPool := Function.update d.blockPool i pool } +
      (d.blockPool i).entries = d.pooled + pool.entries := by
  have hsplit : ∀ f : Fin (cpuNr + 1) → BlockPool, ∑ j, (f j).entries =
      (f i).entries + ∑ j ∈ Finset.univ.erase i, (f j).entries := fun f =>
    (Finset.add_sum_erase _ _ (Finset.mem_univ i)).symm
  have hrest : ∑ j ∈ Finset.univ.erase i, (Function.update d.blockPool i pool j).entries =
      ∑ j ∈ Finset.univ.erase i, (d.blockPool j).entries :=
    Finset.sum_congr rfl fun j hj => by rw [update_of_ne (Finset.ne_of_mem_erase hj)]
  unfold BdevDes.pooled
  rw [hsplit (Function.update d.blockPool i pool), hsplit d.blockPool, hrest, update_self,
    add_comm pool.entries, add_comm (d.blockPool i).entries, add_right_comm]

/-- The entry below `post`, and the entries below it. -/
theorem entries_pop (h : 0 < pool.post) : pool.entries =
      pool.address (pool.post - 1) ::ₘ { pool with post := pool.post - 1 }.entries := by
  obtain ⟨n, hn⟩ : ∃ n : ℕ, pool.post = n + 1 := ⟨(pool.post - 1).toNat, by omega⟩
  have h1 : pool.post.toNat = n + 1 := by omega
  have h2 : (pool.post - 1).toNat = n := by omega
  have h3 : pool.post - 1 = n := by omega
  simp only [BlockPool.entries, h1, h2, Multiset.range_succ, Multiset.map_cons]
  rw [h3]

theorem entries_push (h : 0 ≤ pool.post) (sn : ℕ) :
    (freeIntoPool pool sn).entries = sn ::ₘ pool.entries := by
  have hpop := entries_pop (show 0 < (freeIntoPool pool sn).post from Int.lt_add_one_of_le h)
  have htop : (freeIntoPool pool sn).address ((freeIntoPool pool sn).post - 1) = sn := by
    show Function.update pool.address pool.post sn (pool.post + 1 - 1) = sn
    rw [Int.add_sub_cancel, update_self]
  rw [hpop, htop]
  congr 1
  have hpost : (freeIntoPool pool sn).post - 1 = pool.post := by
    show pool.post + 1 - 1 = pool.post
    omega
  rw [hpost]
  refine Multiset.map_congr rfl fun i hi => update_of_ne ?_ _ _
  have := Multiset.mem_range.1 hi
  omega

theorem entries_eq_zero (h : pool.post = 0) : pool.entries = 0 := by
  simp [BlockPool.entries, h]

theorem entries_one (h : pool.post = 1) : pool.entries = {pool.address 0} := by
  simp [BlockPool.entries, h]

theorem PoolsIn.update (h : PoolsIn d) (start : ℕ) (i : Fin (cpuNr + 1)) (pool : BlockPool)
    (h0 : 0 ≤ pool.post) (hle : pool.post ≤ pool.capacity) (hcap : 512 ≤ pool.capacity) :
    PoolsIn { d with start := start, blockPool := Function.update d.blockPool i pool } := by
  intro j
  by_cases hj : j = i
  · subst hj
    simpa only [update_self] using ⟨h0, hle, hcap⟩
  · simpa only [update_of_ne hj] using h j

theorem PoolsIn.popBlock (h : PoolsIn d) (start : ℕ) (cpu : Fin cpuNr) (pool : BlockPool)
    (hpos : 0 < pool.post) (hle : pool.post ≤ pool.capacity) (hcap : 512 ≤ pool.capacity) :
    PoolsIn (popBlock cpu { d with start := start } pool).2 := by
  refine h.update start (poolOf cpu) { pool with post := pool.post - 1 } ?_ ?_ hcap
  · show 0 ≤ pool.post - 1
    omega
  · show pool.post - 1 ≤ pool.capacity
    omega

/-- The pool of a processor, which is empty or as it was, gets new entries, and the last one is
popped. -/
theorem pooled_popBlock (d : BdevDes) (start : ℕ) (cpu : Fin cpuNr) (pool : BlockPool)
    (hpos : 0 < pool.post) :
    (popBlock cpu { d with start := start } pool).2.pooled + (d.blockPool (poolOf cpu)).entries +
      {(popBlock cpu { d with start := start } pool).1} = d.pooled + pool.entries := by
  have hupdate := pooled_update d start (poolOf cpu) { pool with post := pool.post - 1 }
  rw [entries_pop hpos, ← Multiset.singleton_add, add_comm {_}, ← add_assoc, ← hupdate]
  rfl

/-- What a call does to the blocks, with the allocated blocks before and after : those in the
pools and the allocated ones stay, and new ones come from the range only. -/
structure BlocksKept (d d' : BdevDes) (out out' : Multiset ℕ) : Prop where
  pools : PoolsIn d'
  kept : d.pooled + out ≤ d'.pooled + out'
  total : d'.pooled + out' + d'.unissued ≤ d.pooled + out + d.unissued

theorem BlocksKept.of_pooled_eq {d' : BdevDes} {out' : Multiset ℕ} (h : PoolsIn d')
    (heq : d'.pooled + out' = d.pooled + out) (hu : d'.unissued = d.unissued) :
    BlocksKept d d' out out' :=
  ⟨h, heq.ge, by rw [heq, hu]⟩

/-- A block from the pool. -/
theorem blocksKept_pop (h : PoolsIn d) (hpost : (d.blockPool (poolOf cpu)).post ≠ 0)
    (out : Multiset ℕ) : let r := popBlock cpu d (d.blockPool (poolOf cpu))
    BlocksKept d r.2 out (r.1 ::ₘ out) := by
  intro r
  obtain ⟨h0, hle, hcap⟩ := h (poolOf cpu)
  have hpop := pooled_popBlock d d.start cpu (d.blockPool (poolOf cpu)) (by omega)
  rw [add_right_comm] at hpop
  refine BlocksKept.of_pooled_eq (h.popBlock d.start cpu _ (by omega) hle hcap) ?_ rfl
  rw [← Multiset.singleton_add, ← add_assoc]
  exact congrArg (· + out) (add_right_cancel hpop)

theorem entries_refillRange (h : d.start + refillCount d ≤ 2 ^ 31) (hc : 0 < refillCount d) :
    (refillRange d pool).entries = Multiset.ofList (List.range' d.start (refillCount d)) := by
  have hpost : (refillRange d pool).post.toNat = refillCount d := Int.toNat_natCast _
  rw [BlockPool.entries, hpost, range'_eq_map_range, ← Multiset.coe_range, Multiset.map_coe]
  refine congrArg Multiset.ofList (map_congr_left fun i hi => ?_)
  exact refillRange_apply pool h hc (mem_range.1 hi)

/-- A refill from the range. -/
theorem blocksKept_range (h : PoolsIn d) (hpost : (d.blockPool (poolOf cpu)).post = 0)
    (hlt : d.start < d.stop) (hint : d.stop < 2 ^ 31) (out : Multiset ℕ) :
    let start := if d.start + countPerAlloc - 1 ≤ d.stop then d.start + countPerAlloc else d.stop
    let r := popBlock cpu { d with start := start } (refillRange d (d.blockPool (poolOf cpu)))
    BlocksKept d r.2 out (r.1 ::ₘ out) := by
  intro start r
  obtain ⟨hc0, hc512, hcle⟩ := refillCount_bounds hlt.le
  have hcap := (h (poolOf cpu)).2.2
  have hpop := pooled_popBlock d start cpu (refillRange d (d.blockPool (poolOf cpu)))
    (show (0 : ℤ) < (refillCount d : ℕ) by omega)
  rw [entries_eq_zero hpost, add_zero, entries_refillRange (by omega) hc0] at hpop
  have heq : r.2.pooled + (r.1 ::ₘ out) =
      d.pooled + out + Multiset.ofList (List.range' d.start (refillCount d)) := by
    rw [← Multiset.singleton_add, ← add_assoc, add_right_comm d.pooled]
    exact congrArg (· + out) hpop
  have hsplit : d.unissued = Multiset.ofList (List.range' d.start (refillCount d)) +
      Multiset.ofList (List.range' (d.start + refillCount d)
        (d.stop + 1 - (d.start + refillCount d))) := by
    rw [BdevDes.unissued, if_pos hlt, Multiset.coe_add, range'_append_1]
    congr 2
    omega
  have hrest : r.2.unissued ≤ Multiset.ofList (List.range' (d.start + refillCount d)
      (d.stop + 1 - (d.start + refillCount d))) := by
    show
      (if start < d.stop then Multiset.ofList (List.range' start (d.stop + 1 - start)) else 0) ≤ _
    split_ifs with hs
    · have hfull : start = d.start + refillCount d := by
        simp only [start, refillCount] at hs ⊢
        split_ifs at hs ⊢ <;> omega
      rw [hfull]
    · exact Multiset.zero_le _
  refine ⟨h.popBlock start cpu (refillRange d (d.blockPool (poolOf cpu)))
    (show (0 : ℤ) < (refillCount d : ℕ) by omega)
    (show ((refillCount d : ℕ) : ℤ) ≤ (d.blockPool (poolOf cpu)).capacity by omega) hcap, ?_, ?_⟩
  · rw [heq]
    exact Multiset.le_add_right _ _
  · rw [heq, hsplit, add_assoc, ← add_assoc (d.pooled + out), ← add_assoc (d.pooled + out)]
    exact Multiset.add_le_add_left hrest

/-- The entries of the reserve that a refill takes at the size `9 * countPerAlloc`, and the rest. -/
theorem entries_refillReserve {reserve : BlockPool} (h : reserve.post = 9 * countPerAlloc)
    (hpost : pool.post = 0) : { reserve with post := reserve.post - reserveCount reserve }.entries +
      (refillReserve reserve pool).entries = reserve.entries := by
  have hc : reserveCount reserve = 512 := by
    rw [reserveCount, h, countPerAlloc, if_pos (by decide)]
    rfl
  have hr : reserve.post.toNat = 4096 + 512 := by rw [h]; rfl
  have hr' : (reserve.post - 512).toNat = 4096 := by rw [h]; rfl
  have hp : (refillReserve reserve pool).post.toNat = 512 := by
    show (pool.post + reserveCount reserve).toNat = 512
    rw [hpost, hc]
    rfl
  have hcopy : ((Multiset.range 512).map fun i : ℕ => (refillReserve reserve pool).address i) =
      ((Multiset.range 512).map fun i : ℕ => 4096 + i).map fun i : ℕ => reserve.address i := by
    rw [Multiset.map_map]
    refine Multiset.map_congr rfl fun i hi => ?_
    have hlt := Multiset.mem_range.1 hi
    show (if 0 ≤ (i : ℤ) ∧ (i : ℤ) < reserveCount reserve then
      reserve.address (8 * reserveCount reserve + i) else pool.address i) = _
    rw [hc, if_pos ⟨by omega, by omega⟩]
    rfl
  simp only [BlockPool.entries, hc, hr, hr', hp]
  rw [hcopy, Multiset.range_add, Multiset.map_add]

/-- A refill from the reserve. -/
theorem blocksKept_reserve (h : PoolsIn d) (hpost : (d.blockPool (poolOf cpu)).post = 0)
    (hres : (d.blockPool reserved).post = 9 * countPerAlloc) (out : Multiset ℕ) :
    let reserve := d.blockPool reserved
    let reserve' := { reserve with post := reserve.post - reserveCount reserve }
    let r := popBlock cpu { d with blockPool := Function.update d.blockPool reserved reserve' }
      (refillReserve reserve (d.blockPool (poolOf cpu)))
    BlocksKept d r.2 out (r.1 ::ₘ out) := by
  intro reserve reserve' r
  obtain ⟨hr0, hrle, hrcap⟩ := h reserved
  obtain ⟨-, -, hcap⟩ := h (poolOf cpu)
  have hc : reserveCount reserve = 512 := by
    rw [reserveCount, hres, countPerAlloc, if_pos (by decide)]
    rfl
  have hentries := entries_refillReserve hres hpost
  have hin : PoolsIn { d with blockPool := Function.update d.blockPool reserved reserve' } := by
    refine h.update d.start reserved reserve' ?_ ?_ hrcap
    · show 0 ≤ (d.blockPool reserved).post - reserveCount reserve
      rw [hc, hres]
      decide
    · show (d.blockPool reserved).post - reserveCount reserve ≤ (d.blockPool reserved).capacity
      omega
  have hupdate := pooled_update d d.start reserved reserve'
  have hpos : 0 < (refillReserve reserve (d.blockPool (poolOf cpu))).post := by
    show 0 < (d.blockPool (poolOf cpu)).post + reserveCount reserve
    omega
  have hpop : r.2.pooled + (Function.update d.blockPool reserved reserve' (poolOf cpu)).entries +
      {r.1} = _ :=
    pooled_popBlock { d with blockPool := Function.update d.blockPool reserved reserve' }
      d.start cpu (refillReserve reserve (d.blockPool (poolOf cpu))) hpos
  rw [update_of_ne (poolOf_ne_reserved cpu), entries_eq_zero hpost, add_zero] at hpop
  have heq : r.2.pooled + {r.1} = d.pooled := by
    refine hpop.trans (add_right_cancel (b := reserve.entries) ?_)
    rw [add_right_comm, hupdate, add_assoc, hentries]
  refine BlocksKept.of_pooled_eq (hin.popBlock d.start cpu _ hpos ?_ hcap) ?_ rfl
  · show (d.blockPool (poolOf cpu)).post + reserveCount reserve ≤
      (d.blockPool (poolOf cpu)).capacity
    omega
  · rw [← Multiset.singleton_add, ← add_assoc, heq]

theorem PoolsIn.alloc (h : PoolsIn d) (hc : RefillOk cpu d) (out : Multiset ℕ) :
    BlocksKept d (rdfsAllocADiskBlock cpu d).2 out
      (if ReportsFull cpu d then out else (rdfsAllocADiskBlock cpu d).1 ::ₘ out) := by
  by_cases hpost : (d.blockPool (poolOf cpu)).post = 0
  · rcases hc hpost with ⟨hres, hle, hint⟩ | hres
    · by_cases hfull : d.start = d.stop
      · rw [if_pos ⟨hpost, hres, hfull⟩, alloc_eq_full hpost hres hfull]
        exact BlocksKept.of_pooled_eq h rfl rfl
      · rw [if_neg fun hf => hfull hf.2.2, alloc_eq_range hpost hres hfull]
        exact blocksKept_range h hpost (by omega) hint out
    · have hne : (d.blockPool reserved).post ≠ 0 := by
        rw [hres]
        decide
      rw [if_neg fun hf => hne hf.2.1, alloc_eq_reserve hpost hne]
      exact blocksKept_reserve h hpost hres out
  · rw [if_neg fun hf => hpost hf.1, alloc_eq_pop hpost]
    exact blocksKept_pop h hpost out

/-- A free adds the block to the pools. -/
theorem PoolsIn.free (h : PoolsIn d) (cpu : Fin cpuNr) (sn : ℕ) :
    PoolsIn (rdfsFreeADiskBlock cpu d sn) ∧
      (rdfsFreeADiskBlock cpu d sn).pooled = sn ::ₘ d.pooled := by
  obtain ⟨i, hi⟩ : ∃ i, (if (d.blockPool (poolOf cpu)).post = (d.blockPool (poolOf cpu)).capacity
    then reserved else poolOf cpu) = i := ⟨_, rfl⟩
  rw [rdfsFreeADiskBlock, hi]
  obtain ⟨h0, hle, hcap⟩ := h i
  refine ⟨h.update d.start i _ (Int.le_add_one h0) ?_ ?_, ?_⟩
  · show (d.blockPool i).post + 1 ≤ if (d.blockPool i).capacity ≤ (d.blockPool i).post
      then (d.blockPool i).capacity + 4096 / 8 else (d.blockPool i).capacity
    split_ifs <;> omega
  · show 512 ≤ if (d.blockPool i).capacity ≤ (d.blockPool i).post
      then (d.blockPool i).capacity + 4096 / 8 else (d.blockPool i).capacity
    split_ifs <;> omega
  · have hupdate := pooled_update d d.start i (freeIntoPool (d.blockPool i) sn)
    rw [entries_push h0, Multiset.add_cons, ← Multiset.cons_add] at hupdate
    exact add_right_cancel hupdate

theorem DiskRun.inv (h : DiskRun RefillOk stop d out freed) :
    PoolsIn d ∧ (d.pooled + out + d.unissued).Nodup ∧ ∀ b ∈ freed, b ∈ d.pooled + out := by
  induction h with
  | init content =>
    have hempty : (rdfsInitBdev stop content).pooled = 0 :=
      Finset.sum_eq_zero fun i _ => entries_eq_zero rfl
    refine ⟨fun i => (by decide : (0 : ℤ) ≤ 0 ∧ (0 : ℤ) ≤ 512 ∧ (512 : ℤ) ≤ 512), ?_,
      fun b hb => absurd hb (Multiset.notMem_zero b)⟩
    rw [hempty, add_zero, zero_add, BdevDes.unissued]
    split_ifs
    · exact Multiset.coe_nodup.2 (nodup_range' 1)
    · exact Multiset.nodup_zero
  | @alloc d out freed _ cpu hc ih =>
    obtain ⟨hin, hnodup, hfreed⟩ := ih
    have hkept := hin.alloc hc out
    exact ⟨hkept.pools, Multiset.nodup_of_le hkept.total hnodup,
      fun b hb => Multiset.mem_of_le hkept.kept (hfreed b hb)⟩
  | @free d out freed _ cpu sn hsn ih =>
    obtain ⟨hin, hnodup, hfreed⟩ := ih
    obtain ⟨hin', heq⟩ := hin.free cpu sn
    have hsame : (rdfsFreeADiskBlock cpu d sn).pooled + out.erase sn = d.pooled + out := by
      rw [heq, Multiset.cons_add, ← Multiset.add_cons, Multiset.cons_erase hsn]
    refine ⟨hin', by rwa [hsame], fun b hb => ?_⟩
    rw [hsame]
    rcases Multiset.mem_cons.1 hb with rfl | hb
    · exact Multiset.mem_add.2 (Or.inr hsn)
    · exact hfreed b hb

/-- In every run in which the calls meet `RefillOk`, the blocks in the pools, the allocated ones
and the ones not issued never repeat, and every block that was freed is in a pool or allocated. -/
theorem DiskRun.diskBlocks_spec {stop : ℕ} {d : BdevDes} {out freed : Multiset ℕ}
    (h : DiskRun RefillOk stop d out freed) :
    (d.pooled + out + d.unissued).Nodup ∧ ∀ b ∈ freed, b ∈ d.pooled + out :=
  h.inv.2

/-- A device of 2000 blocks. -/
def someDisk : BdevDes := rdfsInitBdev 2000 fun _ => 0

theorem DiskRun.alloc_block {C : Fin cpuNr → BdevDes → Prop} (h : DiskRun C stop d out freed)
    (cpu : Fin cpuNr) (hc : C cpu d) (hfull : ¬ReportsFull cpu d) :
    DiskRun C stop (rdfsAllocADiskBlock cpu d).2 ((rdfsAllocADiskBlock cpu d).1 ::ₘ out) freed := by
  have hrun := h.alloc cpu hc
  rwa [if_neg hfull] at hrun

/-- A block that is allocated and freed again. -/
theorem DiskRun.diskBlocks_spec_freedOnce : let r := rdfsAllocADiskBlock 0 someDisk
    let d := rdfsFreeADiskBlock 0 r.2 r.1
    ∃ out freed, DiskRun RefillOk 2000 d out freed ∧ r.1 ∈ freed ∧
      (d.pooled + out + d.unissued).Nodup ∧ ∀ b ∈ freed, b ∈ d.pooled + out := by
  intro r d
  have hinit : DiskRun RefillOk 2000 someDisk 0 0 := DiskRun.init _
  have hrun := (hinit.alloc_block 0 (fun _ => Or.inl (by decide)) (by decide)).free 0
    (Multiset.mem_cons_self r.1 0)
  exact ⟨_, _, hrun, Multiset.mem_cons_self _ _, DiskRun.diskBlocks_spec hrun⟩

theorem DiskRun.mono {C C' : Fin cpuNr → BdevDes → Prop} (hC : ∀ cpu d, C cpu d → C' cpu d)
    (h : DiskRun C stop d out freed) : DiskRun C' stop d out freed := by
  induction h with
  | init content => exact .init content
  | alloc _ cpu hc ih => exact ih.alloc cpu (hC _ _ hc)
  | free _ cpu hsn ih => exact ih.free cpu hsn

/-- A refill from a reserve of one entry : the block in the reserve is gone, unless the entry eight
places further on happens to be the same. -/
theorem refill_loses_block (cpu : Fin cpuNr) (hnodup : (d.pooled + out).Nodup)
    (hpost : (d.blockPool (poolOf cpu)).post = 0) (hres : (d.blockPool reserved).post = 1)
    (hne : (d.blockPool reserved).address 0 ≠ (d.blockPool reserved).address 8) :
    (d.blockPool reserved).address 0 ∉
      (rdfsAllocADiskBlock cpu d).2.pooled + ((rdfsAllocADiskBlock cpu d).1 ::ₘ out) := by
  obtain ⟨reserve, hreserve⟩ : ∃ reserve, d.blockPool reserved = reserve := ⟨_, rfl⟩
  obtain ⟨pool, hpool⟩ : ∃ pool, d.blockPool (poolOf cpu) = pool := ⟨_, rfl⟩
  obtain ⟨d', hd'⟩ : ∃ d', { d with
    blockPool := Function.update d.blockPool reserved { reserve with post := 0 } } = d' := ⟨_, rfl⟩
  rw [hreserve] at hres hne ⊢
  rw [hpool] at hpost
  have hc : reserveCount reserve = 1 := by
    rw [reserveCount, hres]
    rfl
  have halloc : rdfsAllocADiskBlock cpu d = popBlock cpu d' (refillReserve reserve pool) := by
    rw [rdfsAllocADiskBlock, hpool, if_pos hpost, hreserve, if_neg (by omega), hc, hres, ← hd']
    rfl
  have hupdate := pooled_update d d.start reserved { reserve with post := 0 }
  have hzero : { reserve with post := 0 }.entries = 0 := entries_eq_zero rfl
  rw [hd', hreserve, hzero, add_zero, entries_one hres] at hupdate
  have hpop := pooled_popBlock d' d'.start cpu (refillReserve reserve pool)
    (show 0 < pool.post + reserveCount reserve by omega)
  have hpool' : d'.blockPool (poolOf cpu) = pool := by
    rw [← hd', ← hpool]
    exact update_of_ne (poolOf_ne_reserved cpu) _ _
  rw [hpool', entries_eq_zero hpost, add_zero,
    entries_one (show pool.post + reserveCount reserve = 1 by omega)] at hpop
  have haddr : (refillReserve reserve pool).address 0 = reserve.address 8 := by
    simp [refillReserve, hc]
  have hmoved : (popBlock cpu d' (refillReserve reserve pool)).2.pooled +
      ((popBlock cpu d' (refillReserve reserve pool)).1 ::ₘ out) =
        d'.pooled + out + {reserve.address 8} := by
    rw [← Multiset.singleton_add, ← add_assoc, add_right_comm d'.pooled, ← haddr]
    exact congrArg (· + out) hpop
  rw [halloc, hmoved]
  rw [← hupdate, add_right_comm] at hnodup
  have hdisj := (Multiset.nodup_add.1 hnodup).2.2
  rw [Multiset.mem_add, Multiset.mem_singleton, not_or]
  exact ⟨fun hmem => Multiset.disjoint_left.1 hdisj hmem (Multiset.mem_singleton_self _), hne⟩

/-- Two blocks are allocated on two processors and freed on the first one, whose pool is full
after the first free, so that the second block goes to the reserve. -/
def overflowed : BdevDes :=
  let d := (rdfsAllocADiskBlock 1 (rdfsAllocADiskBlock 0 someDisk).2).2
  rdfsFreeADiskBlock 0 (rdfsFreeADiskBlock 0 d 512) 1024

theorem diskRun_overflowed : DiskRun RefillOk 2000 overflowed 0 {1024, 512} := by
  have hinit : DiskRun RefillOk 2000 someDisk 0 0 := DiskRun.init _
  have hrun := (hinit.alloc_block 0 (fun _ => Or.inl (by decide)) (by decide)).alloc_block 1
    (fun _ => Or.inl (by decide)) (by decide)
  have hfirst : (rdfsAllocADiskBlock 0 someDisk).1 = 512 := by decide +kernel
  have hsecond : (rdfsAllocADiskBlock 1 (rdfsAllocADiskBlock 0 someDisk).2).1 = 1024 := by
    decide +kernel
  rw [hfirst, hsecond] at hrun
  exact (hrun.free 0 (by decide)).free 0 (by decide)

/-- The next call on a third processor refills from the reserve and loses the block. -/
theorem refill_loses_freed_block : ∃ d out freed b,
    DiskRun (fun _ _ => True) 2000 d out freed ∧ b ∈ freed ∧ b ∉ d.pooled + out := by
  have hnodup := (Multiset.nodup_add.1 diskRun_overflowed.inv.2.1).1
  have hlost := refill_loses_block 2 hnodup (by decide) (by decide) (by decide)
  have hrun : DiskRun (fun _ _ => True) 2000 overflowed 0 {1024, 512} :=
    diskRun_overflowed.mono fun _ _ _ => trivial
  exact ⟨_, _, _, 1024, hrun.alloc_block 2 trivial (by decide), by decide, hlost⟩

end Rdfs
