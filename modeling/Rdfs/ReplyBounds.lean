import Mathlib.Algebra.BigOperators.Intervals
import Mathlib.Algebra.Order.BigOperators.Group.Finset
import Rdfs.BlockSize
import Rdfs.Reply

/-!
# The length of a reply

`rdfs_client_search_metadata` prints one segment for every block of the range a client asks for,
each with a terminator that the next one overwrites, into the `MAX_MESSAGE_LENGTH` bytes of
`m_data`. The range is the client's, and nothing compares what has been printed with the room.

The printed bytes of a run of the loop are a sum over its rounds (`length_printedSegments`). A block
inside the range takes at most 25 of them, with numerals of 4 and 13 digits for the slave and the
block. So a request is safe whatever the table of the file holds if and only if it is for at most
163 blocks (`FewBlocks`, `clientReply_inside_iff`).
-/

namespace Rdfs

open List Option Finset

/-! ## The code -/

/-- The segment of a round of the loop, `none` for a page fault. `find` stands for
`rdfs_search_metadata` on the file. -/
def clientSegment (find : ℕ → Option (ℕ × ℕ)) (stop i : ℕ) : Option Segment :=
  let blockOffset := i &&& 0xFFF
  let size := 4096 - blockOffset
  (find (i >>> 12 <<< 12)).map fun p =>
    ⟨p.1, p.2, blockOffset, if stop < (i + size) % 2 ^ 64 then stop - i else size⟩

/-- The segments that the first rounds of the loop print. A page fault ends it. -/
def printedSegments (find : ℕ → Option (ℕ × ℕ)) (stop : ℕ) : ℕ → ℕ → List Segment
  | 0, _ => []
  | rounds + 1, i =>
    if i < stop then
      match clientSegment find stop i with
      | some s => s :: printedSegments find stop rounds (nextBlock i)
      | none => []
    else []

/-- The places in `m_data` that the calls of `sprintf` store to, from `cnt` on. -/
def printedBytes (cnt : ℕ) : List Segment → List ℕ
  | [] => []
  | s :: segs => List.range' cnt (s.text.length + 1) ++ printedBytes (cnt + s.text.length) segs

/-- What `rdfs_client_search_metadata` prints in the first rounds of its loop, for an offset and a
length of type `long` : nothing if the blocks the file lacks cannot be appended. -/
def clientPrints (bs : BlockSize) (sb : Super) (cpu : ℕ) (g : Master) (inode : Inode)
    (offset length : ℤ) (phys rounds : ℕ) : List Segment :=
  let r := bs.allocForWrite sb cpu g inode (u64 offset) (u64 length) phys
  if r.1 < 0 then []
  else
    let find := rdfsSearchMetadata r.2.master.kernel r.2.master.nvm.mem r.2.inode.iVirtAddr
    printedSegments find (u64 (offset + length)) rounds (u64 offset)

/-- Everything printed lies inside `m_data`, terminators included. -/
def ClientReplyInside (bs : BlockSize) (sb : Super) (cpu : ℕ) (g : Master) (inode : Inode)
    (offset length : ℤ) (phys : ℕ) : Prop :=
  ∀ rounds, ∀ x ∈ printedBytes 0 (clientPrints bs sb cpu g inode offset length phys rounds),
    x < maxMessageLength

/-! ## What is asked for -/

/-- The number of decimal digits. -/
def decimals (n : ℕ) : ℕ := Nat.log 10 n + 1

/-- Where round `j` over a range from `start` on begins. -/
def roundStart (start j : ℕ) : ℕ :=
  if j = 0 then start else (start / 4096 + j) * 4096 % 2 ^ 64

/-- The range has a round `j`. A range that ends in the last page of the address space has all of
them : the loop variable passes zero and never gets to the end. -/
def HasRound (start stop j : ℕ) : Prop :=
  start < stop ∧ (stop + 4096 ≤ 2 ^ 64 → start / 4096 + j < (stop + 4095) / 4096)

/-- The part of a block from `i` on that belongs to the range. -/
def partSize (stop i : ℕ) : ℕ :=
  if stop + 4096 ≤ 2 ^ 64 then min (stop - i) (4096 - i % 4096) else 4096 - i % 4096

/-- The bytes of four numerals and three colons. -/
def segmentWidth (find : ℕ → Option (ℕ × ℕ)) (stop i : ℕ) : ℕ :=
  match find (i / 4096 * 4096) with
  | some (sId, blockId) =>
    decimals sId + decimals blockId + decimals (i % 4096) + decimals (partSize stop i) + 3
  | none => 0

/-- The range is empty, or it lies in at most `k` blocks and ends before the last page of the
address space. -/
def FewBlocks (k start stop : ℕ) : Prop :=
  stop ≤ start ∨ stop + 4096 ≤ 2 ^ 64 ∧ (stop + 4095) / 4096 ≤ start / 4096 + k

/-- The segments of the range, up to a page fault, leave room for the last terminator. -/
def ReplyFits (find : ℕ → Option (ℕ × ℕ)) (start stop : ℕ) : Prop :=
  ∀ n, (∀ j < n, HasRound start stop j ∧ (find (roundStart start j / 4096 * 4096)).isSome) →
    ∑ j ∈ Finset.range n, segmentWidth find stop (roundStart start j) + 1 ≤ maxMessageLength

/-! ## The bytes of a list of segments -/

/-- The bytes reach from `cnt` to the terminator behind the last segment. -/
theorem printedBytes_lt_iff {limit : ℕ} : ∀ {segs : List Segment} {cnt : ℕ}, segs ≠ [] →
    ((∀ x ∈ printedBytes cnt segs, x < limit) ↔ cnt + (replyText segs).length + 1 ≤ limit)
  | [], _, h => absurd rfl h
  | s :: segs, cnt, _ => by
    have hfirst : (∀ x ∈ List.range' cnt (s.text.length + 1), x < limit) ↔
        cnt + s.text.length + 1 ≤ limit := by
      refine ⟨fun h => h (cnt + s.text.length) ?_, fun h x hx => ?_⟩
      · exact mem_range'_1.2 ⟨by omega, by omega⟩
      · have hx' := mem_range'_1.1 hx
        omega
    rw [printedBytes, forall_mem_append, hfirst, replyText_cons, length_append]
    rcases segs with _ | ⟨s', segs⟩
    · simp [printedBytes, replyText]
    · rw [printedBytes_lt_iff (cons_ne_nil _ _)]
      omega

/-- Room for a text and its terminator. -/
theorem printedBytes_inside_iff (segs : List Segment) :
    (∀ x ∈ printedBytes 0 segs, x < maxMessageLength) ↔
      (replyText segs).length + 1 ≤ maxMessageLength := by
  rcases segs with _ | ⟨s, segs⟩
  · exact iff_of_true (fun x hx => absurd hx not_mem_nil) (by decide)
  · rw [printedBytes_lt_iff (cons_ne_nil _ _), Nat.zero_add]

/-! ## The rounds of the loop -/

section rounds

variable {find : ℕ → Option (ℕ × ℕ)} {start stop i : ℕ}

/-- A round prints a segment. -/
def Prints (find : ℕ → Option (ℕ × ℕ)) (stop i : ℕ) : Prop :=
  i < stop ∧ (clientSegment find stop i).isSome

/-- The length of the text of a round. -/
def roundLength (find : ℕ → Option (ℕ × ℕ)) (stop i : ℕ) : ℕ :=
  ((clientSegment find stop i).map fun s => s.text.length).getD 0

theorem printedSegments_of_prints (rounds : ℕ) (h : Prints find stop i) :
    (replyText (printedSegments find stop (rounds + 1) i)).length = roundLength find stop i +
        (replyText (printedSegments find stop rounds (nextBlock i))).length := by
  obtain ⟨s, hs⟩ := isSome_iff_exists.1 h.2
  rw [printedSegments, if_pos h.1, hs, roundLength, hs]
  simp [replyText_cons]

theorem printedSegments_of_not_prints (rounds : ℕ) (h : ¬Prints find stop i) :
    printedSegments find stop (rounds + 1) i = [] := by
  rw [printedSegments]
  split_ifs with hi
  · rw [not_isSome_iff_eq_none.1 fun hs => h ⟨hi, hs⟩]
  · rfl

/-- The length of what a number of rounds prints that all print : the sum over the rounds. -/
theorem length_printedSegments (n : ℕ) : ∀ {i : ℕ}, (∀ j < n, Prints find stop (nextBlock^[j] i)) →
    (replyText (printedSegments find stop n i)).length =
      ∑ j ∈ Finset.range n, roundLength find stop (nextBlock^[j] i) := by
  induction n with
  | zero => exact fun _ => rfl
  | succ n ih =>
    intro i h
    have hi : Prints find stop i := h 0 n.succ_pos
    rw [printedSegments_of_prints n hi, ih fun j hj => h (j + 1) (by omega),
      Finset.sum_range_succ', Nat.add_comm]
    rfl

/-- Any number of rounds prints what the rounds up to the end or a page fault do. -/
theorem exists_printedSegments_eq (find : ℕ → Option (ℕ × ℕ)) (stop n : ℕ) : ∀ i : ℕ, ∃ k,
    (∀ j < k, Prints find stop (nextBlock^[j] i)) ∧
      printedSegments find stop n i = printedSegments find stop k i := by
  induction n with
  | zero => exact fun i => ⟨0, fun j hj => absurd hj (Nat.not_lt_zero j), rfl⟩
  | succ n ih =>
    intro i
    by_cases hi : Prints find stop i
    · obtain ⟨k, hk, heq⟩ := ih (nextBlock i)
      refine ⟨k + 1, fun j hj => ?_, ?_⟩
      · cases j with
        | zero => exact hi
        | succ j => exact hk j (by omega)
      · rw [printedSegments, printedSegments, heq]
    · exact ⟨0, fun j hj => absurd hj (Nat.not_lt_zero j), printedSegments_of_not_prints n hi⟩

/-- The loop stays inside `m_data` if and only if the sums over its rounds do. -/
theorem printedSegments_inside_iff :
    (∀ n, (replyText (printedSegments find stop n start)).length + 1 ≤ maxMessageLength) ↔
      ∀ n, (∀ j < n, Prints find stop (nextBlock^[j] start)) →
        ∑ j ∈ Finset.range n, roundLength find stop (nextBlock^[j] start) + 1 ≤
          maxMessageLength := by
  refine ⟨fun h n hn => ?_, fun h n => ?_⟩
  · rw [← length_printedSegments n hn]
    exact h n
  · obtain ⟨k, hk, heq⟩ := exists_printedSegments_eq find stop n start
    rw [heq, length_printedSegments k hk]
    exact h k hk

/-! ## Rounds and blocks -/

theorem iterate_nextBlock (start j : ℕ) : nextBlock^[j] start = roundStart start j := by
  induction j with
  | zero => rfl
  | succ j ih =>
    rw [Function.iterate_succ_apply', ih, nextBlock_eq]
    unfold roundStart
    by_cases hj : j = 0
    · simp [hj]
    · rw [if_neg hj, if_neg (by omega)]
      omega

theorem HasRound.lt {j : ℕ} (h : HasRound start stop j) : roundStart start j < stop := by
  obtain ⟨hlt, hlast⟩ := h
  unfold roundStart
  split_ifs with hj <;> omega

/-- The rounds of a loop are those before the first that begins behind the end. -/
theorem roundStart_lt_iff {n : ℕ} :
    (∀ j < n, roundStart start j < stop) ↔ ∀ j < n, HasRound start stop j := by
  refine ⟨fun h j hj => ?_, fun h j hj => (h j hj).lt⟩
  have hlt : start < stop := h 0 (by omega)
  refine ⟨hlt, fun hend => ?_⟩
  by_contra hge
  have hend' := h ((stop + 4095) / 4096 - start / 4096) (by omega)
  rw [roundStart, if_neg (by omega)] at hend'
  omega

theorem length_numeral (n : ℕ) : (numeral 10 n).length = decimals n := by
  unfold numeral decimals
  split_ifs with hn
  · simp [hn]
  · rw [length_map, length_reverse, Nat.length_digits 10 n (by decide) hn]

theorem clientSegment_eq (find : ℕ → Option (ℕ × ℕ)) (hi : i < stop) (hstop : stop < 2 ^ 64) :
    clientSegment find stop i =
      (find (i / 4096 * 4096)).map fun p => ⟨p.1, p.2, i % 4096, partSize stop i⟩ := by
  have hsize : (if stop < (i + (4096 - i % 4096)) % 2 ^ 64 then stop - i else 4096 - i % 4096) =
      partSize stop i := by
    unfold partSize
    by_cases hend : stop + 4096 ≤ 2 ^ 64
    · rw [if_pos hend]
      by_cases hcut : stop < (i + (4096 - i % 4096)) % 2 ^ 64
      · rw [if_pos hcut]
        omega
      · rw [if_neg hcut]
        omega
    · rw [if_neg hend, if_neg (by omega)]
  unfold clientSegment
  rw [and_blockOffsetMask, shift_blockShift]
  simp only [hsize]

/-- The numbers of a segment, as `rdfs_search_metadata` decodes them from an entry. -/
def FoundOk (find : ℕ → Option (ℕ × ℕ)) : Prop :=
  ∀ offset p, find offset = some p → p.1 < 2 ^ 12 ∧ p.2 < 2 ^ 40

theorem foundOk_rdfsSearchMetadata (k : KernelMap) (m : Mem) (iVirtAddr : ℕ) :
    FoundOk (rdfsSearchMetadata k m iVirtAddr) := by
  intro offset p h
  obtain ⟨pa, -, rfl⟩ := map_eq_some_iff.1 h
  exact decodePte_lt _

theorem clientSegment_ok (hfind : FoundOk find) (hi : i < stop) (hstop : stop < 2 ^ 64)
    {s : Segment} (h : clientSegment find stop i = some s) : s.Ok := by
  rw [clientSegment_eq find hi hstop] at h
  obtain ⟨p, hp, rfl⟩ := map_eq_some_iff.1 h
  obtain ⟨hs, hb⟩ := hfind _ _ hp
  refine ⟨hs, hb, Nat.mod_lt _ (by decide), ?_, ?_⟩ <;> dsimp only [partSize] <;>
    split_ifs <;> omega

theorem roundLength_eq (hfind : FoundOk find) (hi : i < stop) (hstop : stop < 2 ^ 64) :
    roundLength find stop i = segmentWidth find stop i := by
  have hok := fun s => clientSegment_ok (s := s) hfind hi hstop
  rw [roundLength, segmentWidth]
  rw [clientSegment_eq find hi hstop] at hok ⊢
  rcases hp : find (i / 4096 * 4096) with _ | ⟨sId, blockId⟩
  · rfl
  · rw [hp] at hok
    simp only [map_some, getD_some, (hok _ rfl).text_eq, length_append, length_cons, length_numeral]
    omega

theorem decimals_le {n k : ℕ} (hk : k ≠ 0) (h : n < 10 ^ k) : decimals n ≤ k :=
  Nat.log_lt_of_lt_pow' hk h

theorem lt_decimals {n k : ℕ} (h : 10 ^ k ≤ n) : k < decimals n :=
  Nat.lt_succ_of_le (Nat.le_log_of_pow_le (by decide) h)

theorem partSize_le (stop i : ℕ) : partSize stop i ≤ 4096 := by
  unfold partSize
  split_ifs <;> omega

/-- The slave and the block take at most 17 digits, the size at most four. -/
theorem segmentWidth_le (hfind : FoundOk find) (stop i : ℕ) :
    segmentWidth find stop i ≤ decimals (i % 4096) + 24 := by
  unfold segmentWidth
  split
  · rename_i sId blockId hp
    obtain ⟨hs, hb⟩ := hfind _ _ hp
    have h1 : decimals sId ≤ 4 := decimals_le (by decide) (hs.trans (by decide))
    have h2 : decimals blockId ≤ 13 := decimals_le (by decide) (hb.trans (by decide))
    have h3 : decimals (partSize stop i) ≤ 4 :=
      decimals_le (by decide) ((partSize_le stop i).trans_lt (by decide))
    omega
  · exact Nat.zero_le _

/-- The rounds behind the first begin at the beginning of a block. -/
theorem roundStart_succ_mod (start j : ℕ) : roundStart start (j + 1) % 4096 = 0 := by
  rw [roundStart, if_neg (Nat.succ_ne_zero j)]
  omega

/-- 163 blocks fit, whatever their numbers. -/
theorem FewBlocks.replyFits (hfind : FoundOk find) (h : FewBlocks 163 start stop) :
    ReplyFits find start stop := by
  rintro (_ | n) hn
  · rw [sum_range_zero]
    decide
  · have hle : n ≤ 162 := by
      by_contra hgt
      obtain ⟨hlt, hlast⟩ := (hn 163 (by omega)).1
      obtain ⟨hend, hfew⟩ := h.resolve_left (by omega)
      omega
    have hfirst : segmentWidth find stop (roundStart start 0) ≤ 28 :=
      (segmentWidth_le hfind _ _).trans (Nat.add_le_add_right
        (decimals_le (by decide) ((Nat.mod_lt _ (by decide)).trans (by decide : 4096 < 10 ^ 4))) 24)
    have hlater : ∀ j ∈ Finset.range n, segmentWidth find stop (roundStart start (j + 1)) ≤ 25 := by
      intro j _
      have hwidth := segmentWidth_le hfind stop (roundStart start (j + 1))
      rwa [roundStart_succ_mod] at hwidth
    have hsum := Finset.sum_le_card_nsmul _ _ 25 hlater
    rw [card_range, Nat.nsmul_eq_mul] at hsum
    rw [Finset.sum_range_succ']
    unfold maxMessageLength
    omega

/-- A block that another one follows belongs to the range up to its end. -/
theorem HasRound.partSize_eq {j : ℕ} (h : HasRound start stop (j + 1)) :
    partSize stop (roundStart start j) = 4096 - roundStart start j % 4096 := by
  obtain ⟨hlt, hlast⟩ := h
  unfold partSize roundStart
  split_ifs with hend hj <;> omega

/-- One of the offset in a block and the size of the rest has four digits. -/
theorem five_le_decimals {o : ℕ} (ho : o < 4096) : 5 ≤ decimals o + decimals (4096 - o) := by
  have h1 : 0 < decimals o := Nat.succ_pos _
  have h2 : 0 < decimals (4096 - o) := Nat.succ_pos _
  by_cases hlarge : 10 ^ 3 ≤ o
  · have := lt_decimals hlarge
    omega
  · have := lt_decimals (show 10 ^ 3 ≤ 4096 - o by omega)
    omega

/-- More than 163 blocks do not fit if their numbers have all the digits they can have. -/
theorem FewBlocks.of_replyFits (hfind : ∀ offset, find offset = some (4095, 2 ^ 40 - 1))
    (h : ReplyFits find start stop) : FewBlocks 163 start stop := by
  have hids : decimals 4095 + decimals (2 ^ 40 - 1) = 17 := by decide
  have hwidth : ∀ i, segmentWidth find stop i =
      decimals (i % 4096) + decimals (partSize stop i) + 20 := by
    intro i
    simp only [segmentWidth, hfind]
    omega
  by_contra hmany
  obtain ⟨hlt, hblocks⟩ := not_or.1 hmany
  have hround : ∀ j < 164, HasRound start stop j := fun j hj =>
    ⟨not_le.1 hlt, fun hend => by
      omega⟩
  have hfull : ∀ j ∈ Finset.range 163, 25 ≤ segmentWidth find stop (roundStart start j) := by
    intro j hj
    have hj' := Finset.mem_range.1 hj
    rw [hwidth, (hround (j + 1) (by omega)).partSize_eq]
    exact Nat.add_le_add_right (five_le_decimals (Nat.mod_lt _ (by decide))) 20
  have hlast : 22 ≤ segmentWidth find stop (roundStart start 163) := by
    rw [hwidth]
    have h1 : 0 < decimals (roundStart start 163 % 4096) := Nat.succ_pos _
    have h2 : 0 < decimals (partSize stop (roundStart start 163)) := Nat.succ_pos _
    omega
  have hsum := Finset.card_nsmul_le_sum _ _ 25 hfull
  rw [card_range, Nat.nsmul_eq_mul] at hsum
  have htotal := h 164 fun j hj => ⟨hround j hj, by rw [hfind]; rfl⟩
  rw [Finset.sum_range_succ] at htotal
  unfold maxMessageLength at htotal
  omega

/-- The loop over a range stays inside `m_data` if and only if the numerals of its blocks do. -/
theorem replyFits_iff (hfind : FoundOk find) (hstop : stop < 2 ^ 64) :
    (∀ n, (replyText (printedSegments find stop n start)).length + 1 ≤ maxMessageLength) ↔
      ReplyFits find start stop := by
  rw [printedSegments_inside_iff]
  simp only [iterate_nextBlock]
  have hprints : ∀ {i}, i < stop →
      (Prints find stop i ↔ (find (i / 4096 * 4096)).isSome) := by
    intro i hi
    rw [Prints, clientSegment_eq find hi hstop, isSome_map]
    exact and_iff_right hi
  have hsum : ∀ {n}, (∀ j < n, roundStart start j < stop) →
      ∑ j ∈ Finset.range n, roundLength find stop (roundStart start j) =
        ∑ j ∈ Finset.range n, segmentWidth find stop (roundStart start j) := fun h =>
    sum_congr rfl fun j hj => roundLength_eq hfind (h j (Finset.mem_range.1 hj)) hstop
  refine forall_congr' fun n => ⟨fun h hn => ?_, fun h hn => ?_⟩
  · have hlt := roundStart_lt_iff.2 fun j hj => (hn j hj).1
    rw [← hsum hlt]
    exact h fun j hj => (hprints (hlt j hj)).2 (hn j hj).2
  · have hlt : ∀ j < n, roundStart start j < stop := fun j hj => (hn j hj).1
    rw [hsum hlt]
    exact h fun j hj => ⟨roundStart_lt_iff.1 hlt j hj, (hprints (hlt j hj)).1 (hn j hj)⟩

end rounds

/-! ## Requests of clients -/

theorem u64_lt (z : ℤ) : u64 z < 2 ^ 64 := by
  unfold u64
  omega

/-- The reply to a request stays inside `m_data` if the blocks cannot be appended, or if the
numerals of the segments and the terminator fit, for the page table the loop reads. -/
theorem clientReplyInside_iff (bs : BlockSize) (sb : Super) (cpu : ℕ) (g : Master)
    (inode : Inode) (offset length : ℤ) (phys : ℕ) :
    let r := bs.allocForWrite sb cpu g inode (u64 offset) (u64 length) phys
    ClientReplyInside bs sb cpu g inode offset length phys ↔ r.1 < 0 ∨
      ReplyFits (rdfsSearchMetadata r.2.master.kernel r.2.master.nvm.mem r.2.inode.iVirtAddr)
        (u64 offset) (u64 (offset + length)) := by
  intro r
  simp only [ClientReplyInside, printedBytes_inside_iff, clientPrints]
  by_cases hret : r.1 < 0
  · simp only [show (bs.allocForWrite sb cpu g inode (u64 offset) (u64 length) phys).1 < 0 from
      hret, if_true]
    exact iff_of_true (fun _ => by decide) (.inl hret)
  · rw [or_iff_right hret, ← replyFits_iff (foundOk_rdfsSearchMetadata _ _ _) (u64_lt _)]
    simp only [show ¬(bs.allocForWrite sb cpu g inode (u64 offset) (u64 length) phys).1 < 0 from
      hret]
    rfl

/-- For a request that has no blocks appended, the table is the one before the call. -/
theorem clientReplyInside_iff_of_le {bs : BlockSize} {inode : Inode} {offset length : ℤ}
    (h : bs.pagesToAlloc inode.iSize (u64 offset) (u64 length) ≤ 0) (sb : Super) (cpu : ℕ)
    (g : Master) (phys : ℕ) : ClientReplyInside bs sb cpu g inode offset length phys ↔
      ReplyFits (rdfsSearchMetadata g.kernel g.nvm.mem inode.iVirtAddr) (u64 offset)
        (u64 (offset + length)) := by
  have hiff := clientReplyInside_iff bs sb cpu g inode offset length phys
  rw [BlockSize.allocForWrite, if_neg (not_lt.2 h)] at hiff
  exact hiff.trans (or_iff_right (lt_irrefl 0))

/-- The kernel's table leads to words whose bits are all set. -/
def fullMaster : Master :=
  { noBlocks with
    nvm := { noBlocks.nvm with mem := fun _ => 255 }
    kernel := ⟨fun _ => 0, fun _ => 4096⟩ }

theorem rdfsSearchMetadata_fullMaster (iVirtAddr offset : ℕ) :
    rdfsSearchMetadata fullMaster.kernel fullMaster.nvm.mem iVirtAddr offset =
      some (4095, 2 ^ 40 - 1) := by
  have hload : ∀ a, fullMaster.nvm.mem.load 8 a = 2 ^ 64 - 1 := fun a => by
    have hbyte : ∀ x, fullMaster.nvm.mem x = 255 := fun _ => rfl
    simp [Mem.load, hbyte]
  simp only [rdfsSearchMetadata, translate, hload]
  rfl

/-- A file that ends where the request does. -/
def fileOfSize (size : ℕ) : Inode := { (default : Inode) with iSize := size }

theorem pagesToAlloc_fileOfSize (bs : BlockSize) {offset length : ℤ}
    (h : u64 offset < u64 (offset + length)) :
    bs.pagesToAlloc (fileOfSize (u64 (offset + length))).iSize (u64 offset) (u64 length) = 0 := by
  have hsum : (u64 offset + u64 length + bs.size - 1) % 2 ^ 64 =
      (u64 (offset + length) + bs.size - 1) % 2 ^ 64 := by
    unfold u64 at h ⊢
    omega
  simp only [BlockSize.pagesToAlloc, fileOfSize, hsum, sub_self]

/-- When the reply to a request stays inside `m_data` whatever the file, its table and the numbers
of its blocks are : the range is empty, or it lies in at most 163 blocks. For a file that has all
of the blocks, the reply stays inside if and only if the numerals in its table fit. -/
theorem clientReply_inside_iff (bs : BlockSize) (sb : Super) (cpu : ℕ) (offset length : ℤ)
    (phys : ℕ) : ((∀ g inode, ClientReplyInside bs sb cpu g inode offset length phys) ↔
      FewBlocks 163 (u64 offset) (u64 (offset + length))) ∧
    ∀ (g : Master) (inode : Inode), bs.pagesToAlloc inode.iSize (u64 offset) (u64 length) ≤ 0 →
      (ClientReplyInside bs sb cpu g inode offset length phys ↔
        ReplyFits (rdfsSearchMetadata g.kernel g.nvm.mem inode.iVirtAddr) (u64 offset)
          (u64 (offset + length))) := by
  refine ⟨⟨fun h => ?_, fun hfew g inode => ?_⟩, fun g inode h =>
    clientReplyInside_iff_of_le h sb cpu g phys⟩
  · by_cases hlt : u64 offset < u64 (offset + length)
    · have hfits := (clientReplyInside_iff_of_le (pagesToAlloc_fileOfSize bs hlt).le sb cpu
        fullMaster phys).1 (h _ _)
      exact .of_replyFits (rdfsSearchMetadata_fullMaster _) hfits
    · exact .inl (not_lt.1 hlt)
  · exact (clientReplyInside_iff bs sb cpu g inode offset length phys).2
      (.inr (hfew.replyFits (foundOk_rdfsSearchMetadata _ _ _)))

theorem load_mappedMaster {a : ℕ} (h : a % 8 = 0) : mappedMaster.nvm.mem.load 8 a = 1 := by
  have hbyte : ∀ k < 8, mappedMaster.nvm.mem (a + k) = if k = 0 then 1 else 0 := by
    intro k hk
    change (if (a + k) % 8 = 0 then (1 : UInt8) else 0) = _
    congr 1
    exact propext (by omega)
  have h0 := hbyte 0 (by decide)
  simp only [Nat.add_zero] at h0
  simp [Mem.load, Nat.add_assoc, h0, hbyte]

theorem mappedMaster_pud (x : ℕ) : mappedMaster.kernel.pud x = 0 := rfl

theorem mappedMaster_pmd (x : ℕ) : mappedMaster.kernel.pmd x = 4096 := rfl

theorem rdfsSearchMetadata_mappedMaster (offset : ℕ) :
    rdfsSearchMetadata mappedMaster.kernel mappedMaster.nvm.mem 0 offset = some (0, 0) := by
  have htable : (4096 : ℕ) &&& physMask = 4096 := by decide
  have hpage : (1 : ℕ) &&& physMask = 0 := by decide
  have hentry : translate mappedMaster.kernel mappedMaster.nvm.mem (0 + offset / 4096 * 8) =
      some ((0 + offset / 4096 * 8) % 4096) := by
    simp only [translate, mappedMaster_pud, mappedMaster_pmd, if_true]
    rw [load_mappedMaster (by omega), hpage, Nat.zero_add]
    rfl
  rw [rdfsSearchMetadata, hentry, map_some, load_mappedMaster (by omega)]
  decide

/-- A file of `2 ^ 30` bytes. -/
def largeFile : Inode := { (default : Inode) with iSize := 2 ^ 30, iBlocks := 2 ^ 18 }

theorem segmentWidth_mappedMaster {j : ℕ} (hj : j < 410) :
    segmentWidth (rdfsSearchMetadata mappedMaster.kernel mappedMaster.nvm.mem 0) 1679360
      (roundStart 0 j) = 10 := by
  have hstart : roundStart 0 j = j * 4096 := by
    unfold roundStart
    split_ifs <;> omega
  have hsize : partSize 1679360 (j * 4096) = 4096 := by
    unfold partSize
    rw [if_pos (by decide)]
    omega
  rw [hstart, segmentWidth, rdfsSearchMetadata_mappedMaster, hsize, Nat.mul_mod_left]
  decide

/-- A client asks for the first 410 blocks of a file whose blocks are all block 0 of slave 0 : ten
bytes are printed for each, and the last ones lie behind `m_data`. -/
theorem reply_behind_mData :
    ¬ClientReplyInside (rdfsSetBlocksize 4096) oneNode 0 mappedMaster largeFile 0 1679360 0 := by
  intro h
  have hfits : ReplyFits (rdfsSearchMetadata mappedMaster.kernel mappedMaster.nvm.mem 0)
      0 1679360 :=
    (replyFits_iff (foundOk_rdfsSearchMetadata _ _ _) (by decide)).1 fun n =>
      (printedBytes_inside_iff _).1 (h n)
  have hsum := hfits 410 fun j hj => ⟨⟨by decide, fun _ => by omega⟩, by
    rw [rdfsSearchMetadata_mappedMaster]
    rfl⟩
  rw [sum_congr rfl fun j hj => segmentWidth_mappedMaster (Finset.mem_range.1 hj),
    sum_const, card_range] at hsum
  exact absurd hsum (by decide)

end Rdfs
