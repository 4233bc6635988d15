import Rdfs.ReplyBounds
import Rdfs.Tiling

/-!
# The loops over a range of a file

`rdfs_local_file_read`, `rdfs_local_file_write` and `rdfs_client_search_metadata` go over a range
from `start` to `end` with the same loop : a round takes what is left of the block that `i` lies
in, or of the range, looks the block up, and moves `i` to the next block. The first two hand the
segment to `rdfs_rdma_block_rw` and move `rw_addr` on by its size, the third prints it.

All numbers are of type `unsigned long`, so `i` can pass the end of the numbers when the range
ends in the last block below it. For every other range the loops end, and their segments cover the
range (`rangeLoops_cover`) : they are those that the models of the read, the write and the reply
work with (`rwCalls_eq_transfers`, `printedSegments_eq`).
-/

namespace Rdfs

open List

/-! ## The code -/

/-- The locals of a round : the start of the block in the file, the offset in the block, and the
size of the segment. -/
structure Part where
  pte : ℕ
  blockOffset : ℕ
  size : ℕ
deriving DecidableEq

/-- The first byte of a segment, as an offset in the file. -/
def Part.first (p : Part) : ℕ := p.pte + p.blockOffset

/-- The locals of the round at `i`. -/
def partAt (stop i : ℕ) : Part :=
  let blockOffset := i &&& 0xFFF
  let size := 4096 - blockOffset
  ⟨i >>> 12 <<< 12, blockOffset, if stop < (i + size) % 2 ^ 64 then u64 (stop - i) else size⟩

section

variable {σ β : Type}

/-- The loop : what `visit` makes of its segments, where `visit` also moves on a local of the
function. `none` is a loop that is still running after `fuel` rounds. -/
def segmentLoop (visit : σ → Part → β × σ) (stop : ℕ) : ℕ → ℕ → σ → Option (List β)
  | 0, i, _ => if i < stop then none else some []
  | fuel + 1, i, s =>
    if i < stop then
      let r := visit s (partAt stop i)
      (segmentLoop visit stop fuel (nextBlock i) r.2).map (r.1 :: ·)
    else some []

end

/-- `RDFS_READ` and `RDFS_WRITE`. -/
inductive RwOp
  | read
  | write
deriving DecidableEq

/-- A call of `rdfs_rdma_block_rw`, with the slave and the block that `rdfs_search_metadata` found
for the segment. -/
structure RwCall extends Part where
  rwAddr : ℕ
  found : ℕ × ℕ
  op : RwOp
deriving DecidableEq

/-- The end of a round that transfers its segment. -/
def rwVisit (op : RwOp) (found : ℕ → ℕ × ℕ) (rwAddr : ℕ) (p : Part) : RwCall × ℕ :=
  (⟨p, rwAddr, found p.pte, op⟩, (rwAddr + p.size) % 2 ^ 64)

/-- The loop of `rdfs_local_file_read`. -/
def localFileReadLoop (found : ℕ → ℕ × ℕ) (localRwAddr start stop fuel : ℕ) :
    Option (List RwCall) :=
  segmentLoop (rwVisit .read found) stop fuel start localRwAddr

/-- The loop of `rdfs_local_file_write`. -/
def localFileWriteLoop (found : ℕ → ℕ × ℕ) (localRwAddr start stop fuel : ℕ) :
    Option (List RwCall) :=
  segmentLoop (rwVisit .write found) stop fuel start localRwAddr

/-- A call of `sprintf` in `rdfs_client_search_metadata` : the segment and the place in `m_data`. -/
structure Printed extends Part where
  cnt : ℕ
  segment : Segment

/-- The end of a round that prints its segment. -/
def printVisit (found : ℕ → ℕ × ℕ) (cnt : ℕ) (p : Part) : Printed × ℕ :=
  let s : Segment := ⟨(found p.pte).1, (found p.pte).2, p.blockOffset, p.size⟩
  (⟨p, cnt, s⟩, cnt + s.text.length)

/-- The loop of `rdfs_client_search_metadata`. -/
def clientSearchMetadataLoop (found : ℕ → ℕ × ℕ) (start stop fuel : ℕ) : Option (List Printed) :=
  segmentLoop (printVisit found) stop fuel start 0

/-- The segments are consecutive and not empty, each lies in the block of its first byte, and a
byte is in a segment if and only if it is in the range. -/
structure CoversRange (start stop : ℕ) (parts : List Part) : Prop where
  first : ∀ k p, parts[k]? = some p → p.first = start + ((parts.take k).map Part.size).sum
  total : start + (parts.map Part.size).sum = stop
  size_pos : ∀ p ∈ parts, 0 < p.size
  block : ∀ p ∈ parts, p.pte = p.first / 4096 * 4096 ∧ p.blockOffset = p.first % 4096 ∧
    p.blockOffset + p.size ≤ 4096
  covers : ∀ x, (∃ p ∈ parts, p.first ≤ x ∧ x < p.first + p.size) ↔ start ≤ x ∧ x < stop

/-! ## The segments of a range -/

/-- The segments of the range from `start` to `stop`. -/
def rangeParts (start stop : ℕ) : List Part :=
  (blockRange stop (stop - start) start).map fun p => ⟨p.1, p.2.1, p.2.2⟩

variable {start stop i : ℕ}

/-- Rounds past the end of a range add nothing. -/
theorem blockRange_fuel {fuel fuel' : ℕ} (h : stop - i ≤ fuel) (h' : stop - i ≤ fuel') :
    blockRange stop fuel i = blockRange stop fuel' i := by
  induction fuel generalizing fuel' i with
  | zero => rw [blockRange_of_le (by omega), blockRange_of_le (by omega)]
  | succ fuel ih =>
    cases fuel' with
    | zero => rw [blockRange_of_le (by omega), blockRange_of_le (by omega)]
    | succ fuel' =>
      rw [blockRange_succ, blockRange_succ]
      split_ifs with hlt
      · rw [@ih _ fuel' (by omega) (by omega)]
      · rfl

/-- The first segment of a range, and the rest. -/
theorem rangeParts_of_lt (h : i < stop) :
    rangeParts i stop = ⟨i / 4096 * 4096, i % 4096, min (stop - i) (4096 - i % 4096)⟩ ::
      rangeParts ((i / 4096 + 1) * 4096) stop := by
  obtain ⟨fuel, hfuel⟩ : ∃ fuel, stop - i = fuel + 1 := ⟨stop - i - 1, by omega⟩
  have hnext : i + (4096 - i % 4096) = (i / 4096 + 1) * 4096 := by omega
  rw [rangeParts, blockRange_fuel le_rfl hfuel.le, blockRange_succ, if_pos h, map_cons, hnext,
    rangeParts, blockRange_fuel (by omega) le_rfl]

theorem rangeParts_of_le (h : stop ≤ i) : rangeParts i stop = [] := by
  rw [rangeParts, blockRange_of_le h, map_nil]

/-- Induction along the blocks of a range. -/
theorem range_induction (stop : ℕ) {motive : ℕ → Prop} (done : ∀ i, stop ≤ i → motive i)
    (round : ∀ i, i < stop → motive ((i / 4096 + 1) * 4096) → motive i) (i : ℕ) : motive i := by
  induction h : stop - i using Nat.strong_induction_on generalizing i with
  | _ n ih =>
    rcases Nat.lt_or_ge i stop with hlt | hle
    · exact round i hlt (ih _ (by omega) _ rfl)
    · exact done i hle

theorem tiles_rangeParts (h : start ≤ stop) :
    Tiles start stop ((rangeParts start stop).map fun p => (p.first, p.size)) := by
  induction start using range_induction stop with
  | done i hle =>
    rw [rangeParts_of_le hle]
    exact le_antisymm h hle
  | round i hlt ih =>
    rw [rangeParts_of_lt hlt, map_cons]
    refine ⟨Nat.div_add_mod' i 4096, by dsimp only; omega, ?_⟩
    -- A segment cut short by the end of the range is the last one.
    rcases Nat.lt_or_ge stop ((i / 4096 + 1) * 4096) with hcut | hcut
    · rw [rangeParts_of_le hcut.le]
      show i + min (stop - i) (4096 - i % 4096) = stop
      omega
    · have hnext : i + min (stop - i) (4096 - i % 4096) = (i / 4096 + 1) * 4096 := by omega
      rw [hnext]
      exact ih hcut

theorem block_of_mem_rangeParts : ∀ p ∈ rangeParts start stop,
    p.pte = p.first / 4096 * 4096 ∧ p.blockOffset = p.first % 4096 ∧ 0 < p.size ∧
      p.blockOffset + p.size ≤ 4096 := by
  induction start using range_induction stop with
  | done i hle => simp [rangeParts_of_le hle]
  | round i hlt ih =>
    rw [rangeParts_of_lt hlt, forall_mem_cons]
    refine ⟨?_, ih⟩
    dsimp only [Part.first]
    rw [Nat.div_add_mod']
    exact ⟨rfl, rfl, by omega, by omega⟩

theorem coversRange_rangeParts (h : start ≤ stop) :
    CoversRange start stop (rangeParts start stop) := by
  have htiles := tiles_rangeParts h
  have hsnd : (Prod.snd ∘ fun p : Part => (p.first, p.size)) = Part.size := rfl
  refine ⟨fun k p hp => ?_, ?_, fun p hp => (block_of_mem_rangeParts p hp).2.2.1,
    fun p hp => ?_, fun x => ?_⟩
  · have hk : ((rangeParts start stop).map fun p => (p.first, p.size))[k]? =
        some (p.first, p.size) := by
      rw [getElem?_map, hp, Option.map_some]
    have hfirst := htiles.first_eq hk
    rwa [← map_take, map_map, hsnd] at hfirst
  · have hsum := htiles.sum_eq
    rwa [map_map, hsnd] at hsum
  · obtain ⟨hpte, hoff, -, hsize⟩ := block_of_mem_rangeParts p hp
    exact ⟨hpte, hoff, hsize⟩
  · rw [← htiles.exists_mem_iff x]
    simp only [mem_map, exists_exists_and_eq_and]

/-! ## The rounds of the loop -/

/-- The locals of a round are the first segment of what is left of the range. -/
theorem partAt_eq (hlt : i < stop) (hstop : stop + 4096 < 2 ^ 64) :
    partAt stop i = ⟨i / 4096 * 4096, i % 4096, min (stop - i) (4096 - i % 4096)⟩ := by
  have hcast : (stop : ℤ) - i = ((stop - i : ℕ) : ℤ) := (Nat.cast_sub hlt.le).symm
  simp only [partAt, and_blockOffsetMask, shift_blockShift, hcast,
    u64_natCast (show stop - i < 2 ^ 64 by omega)]
  congr 1
  split_ifs <;> omega

section

variable {σ β : Type}

/-- What a run over the segments `parts` makes of them. -/
def visitAll (visit : σ → Part → β × σ) : σ → List Part → List β
  | _, [] => []
  | s, p :: parts => (visit s p).1 :: visitAll visit (visit s p).2 parts

/-- The loop ends, and has visited the segments of the range. -/
theorem segmentLoop_eq (visit : σ → Part → β × σ) (hstop : stop + 4096 < 2 ^ 64) {fuel : ℕ}
    (hfuel : stop - i ≤ fuel) (s : σ) :
    segmentLoop visit stop fuel i s = some (visitAll visit s (rangeParts i stop)) := by
  induction fuel generalizing i s with
  | zero =>
    rw [segmentLoop, if_neg (by omega), rangeParts_of_le (by omega), visitAll]
  | succ fuel ih =>
    rw [segmentLoop]
    split_ifs with hlt
    · have hnext : nextBlock i = (i / 4096 + 1) * 4096 := by
        rw [nextBlock_eq, Nat.mod_eq_of_lt (by omega)]
      dsimp only
      rw [hnext, @ih ((i / 4096 + 1) * 4096) (by omega), rangeParts_of_lt hlt,
        ← partAt_eq hlt hstop]
      rfl
    · rw [rangeParts_of_le (by omega), visitAll]

/-- A visit that keeps its segment covers the range. -/
theorem coversRange_visitAll {visit : σ → Part → β × σ} {f : β → Part}
    (hf : ∀ s p, f (visit s p).1 = p) (s : σ) (hle : start ≤ stop) :
    CoversRange start stop ((visitAll visit s (rangeParts start stop)).map f) := by
  have hmap (parts : List Part) (s : σ) : (visitAll visit s parts).map f = parts := by
    induction parts generalizing s with
    | nil => rfl
    | cons p parts ih => rw [visitAll, map_cons, hf, ih]
  rw [hmap]
  exact coversRange_rangeParts hle

end

/-! ## Where a transfer lies in the local buffer -/

theorem visitAll_eq_transfers {c : IoCalls} {op : RwOp} {localRwAddr : ℕ}
    {ps : List (ℕ × ℕ × ℕ)} {n cur rwAddr : ℕ} (haddr : u64 ((rwAddr : ℤ) - localRwAddr) = cur)
    (hsum : cur + (ps.map fun p => p.2.2).sum < 2 ^ 64) :
    (visitAll (rwVisit op c.found) rwAddr (ps.map fun p => ⟨p.1, p.2.1, p.2.2⟩)).map
        (fun r => (u64 ((r.rwAddr : ℤ) - localRwAddr), r.pte, r.found, r.blockOffset, r.size)) =
      (transfers c n cur ps).map fun t => (t.rwOffset, t.pte, t.found, t.blockOffset, t.size) := by
  induction ps generalizing n cur rwAddr with
  | nil => rfl
  | cons p ps ih =>
    rw [map_cons, sum_cons] at hsum
    have hnext : u64 (((rwAddr + p.2.2) % 2 ^ 64 : ℕ) - (localRwAddr : ℤ)) = cur + p.2.2 := by
      unfold u64 at haddr ⊢
      omega
    rw [map_cons, visitAll, transfers, map_cons, map_cons]
    exact congrArg₂ List.cons (by rw [← haddr]; rfl) (ih hnext (by omega))

/-- The calls are those of the model of the read and of the write, which counts from the start of
the local buffer. -/
theorem rwCalls_eq_transfers (c : IoCalls) (op : RwOp) (localRwAddr : ℕ) (hle : start ≤ stop)
    (hstop : stop < 2 ^ 64) :
    (visitAll (rwVisit op c.found) localRwAddr (rangeParts start stop)).map
        (fun r => (u64 ((r.rwAddr : ℤ) - localRwAddr), r.pte, r.found, r.blockOffset, r.size)) =
      (rangeTransfers c start stop).map
        fun t => (t.rwOffset, t.pte, t.found, t.blockOffset, t.size) := by
  have htotal : start + ((blockRange stop (stop - start) start).map fun p => p.2.2).sum = stop := by
    have h := (coversRange_rangeParts hle).total
    rw [rangeParts, map_map] at h
    exact h
  exact visitAll_eq_transfers (by simp [u64]) (by omega)

/-- `rw_addr` is as far from `local_rw_addr` as the segment is from the start of the range. -/
theorem rwAddr_of_mem_visitAll {op : RwOp} {found : ℕ → ℕ × ℕ} {localRwAddr : ℕ}
    (hle : start ≤ stop) (hstop : stop < 2 ^ 64) :
    ∀ call ∈ visitAll (rwVisit op found) localRwAddr (rangeParts start stop),
      u64 ((call.rwAddr : ℤ) - localRwAddr) = call.first - start := by
  intro call hcall
  have hmem := mem_map_of_mem (f := fun r : RwCall =>
    (u64 ((r.rwAddr : ℤ) - localRwAddr), r.pte, r.found, r.blockOffset, r.size)) hcall
  rw [rwCalls_eq_transfers ⟨found, fun _ => true, 0⟩ op localRwAddr hle hstop] at hmem
  obtain ⟨t, ht, heq⟩ := mem_map.1 hmem
  obtain ⟨h1, h2, -, h3, -⟩ : t.rwOffset = _ ∧ t.pte = _ ∧ _ ∧ t.blockOffset = _ ∧ _ := by
    simpa only [Prod.mk.injEq] using heq
  have hfirst := (mem_rangeTransfers ht).1
  rw [← h1, Part.first, ← h2, ← h3]
  omega

/-! ## What a client is told -/

/-- What is printed are the segments of the model of the reply. -/
theorem printedSegments_eq (found : ℕ → ℕ × ℕ) (hstop : stop + 4096 < 2 ^ 64) {fuel : ℕ}
    (hfuel : stop - i ≤ fuel) (cnt : ℕ) :
    (visitAll (printVisit found) cnt (rangeParts i stop)).map Printed.segment =
      printedSegments (fun pte => some (found pte)) stop fuel i := by
  induction fuel generalizing i cnt with
  | zero => rw [rangeParts_of_le (by omega)]; rfl
  | succ fuel ih =>
    rw [printedSegments]
    split_ifs with hlt
    · have hnext : nextBlock i = (i / 4096 + 1) * 4096 := by
        rw [nextBlock_eq, Nat.mod_eq_of_lt (by omega)]
      have hcast : (stop : ℤ) - i = ((stop - i : ℕ) : ℤ) := (Nat.cast_sub hlt.le).symm
      rw [rangeParts_of_lt hlt, ← partAt_eq hlt hstop, visitAll, map_cons,
        @ih ((i / 4096 + 1) * 4096) (by omega), ← hnext]
      simp only [clientSegment, printVisit, partAt, Option.map_some, hcast,
        u64_natCast (show stop - i < 2 ^ 64 by omega)]
    · rw [rangeParts_of_le (by omega)]
      rfl

/-! ## The three loops -/

/-- For a range that does not end in the last block of the numbers the three loops end, in as many
rounds as the range has bytes or fewer, and cover the range. The transfers of a read and of a write
are as far into the local buffer as they are into the range. -/
theorem rangeLoops_cover (hle : start ≤ stop) (hstop : stop + 4096 < 2 ^ 64)
    (found : ℕ → ℕ × ℕ) (localRwAddr : ℕ) : (∃ calls, (∀ fuel, stop - start ≤ fuel →
          localFileReadLoop found localRwAddr start stop fuel = some calls) ∧
        CoversRange start stop (calls.map RwCall.toPart) ∧
        ∀ call ∈ calls, u64 ((call.rwAddr : ℤ) - localRwAddr) = call.first - start) ∧
    (∃ calls, (∀ fuel, stop - start ≤ fuel →
          localFileWriteLoop found localRwAddr start stop fuel = some calls) ∧
        CoversRange start stop (calls.map RwCall.toPart) ∧
        ∀ call ∈ calls, u64 ((call.rwAddr : ℤ) - localRwAddr) = call.first - start) ∧
    ∃ printed, (∀ fuel, stop - start ≤ fuel →
        clientSearchMetadataLoop found start stop fuel = some printed) ∧
      CoversRange start stop (printed.map Printed.toPart) := by
  refine ⟨⟨_, fun fuel hfuel => segmentLoop_eq _ hstop hfuel _, ?_,
      rwAddr_of_mem_visitAll hle (by omega)⟩,
    ⟨_, fun fuel hfuel => segmentLoop_eq _ hstop hfuel _, ?_,
      rwAddr_of_mem_visitAll hle (by omega)⟩,
    ⟨_, fun fuel hfuel => segmentLoop_eq _ hstop hfuel _, ?_⟩⟩
  all_goals exact coversRange_visitAll (fun _ _ => rfl) _ hle

/-- Bytes 100 to 4999 of a file, that lie in two blocks. -/
theorem rangeLoops_cover_two_blocks : 100 ≤ 5000 ∧ 5000 + 4096 < 2 ^ 64 ∧
    ∃ calls, localFileReadLoop (fun _ => (0, 7)) 0x1000 100 5000 4900 = some calls ∧
      CoversRange 100 5000 (calls.map RwCall.toPart) := by
  obtain ⟨⟨calls, hrun, hcover, -⟩, -⟩ := rangeLoops_cover (show 100 ≤ 5000 by decide)
    (by decide) (fun _ => (0, 7)) 0x1000
  exact ⟨by decide, by decide, calls, hrun 4900 le_rfl, hcover⟩

example : localFileReadLoop (fun _ => (0, 7)) 0x1000 100 5000 4900 = some
    [⟨⟨0, 100, 3996⟩, 0x1000, (0, 7), .read⟩, ⟨⟨4096, 0, 904⟩, 0x1F9C, (0, 7), .read⟩] := by
  rfl

end Rdfs
