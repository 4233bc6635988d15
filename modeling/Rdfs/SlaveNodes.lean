import Rdfs.Links
import Rdfs.SlaveMemory

/-!
# The nodes of a slave's list

`bitmap_head` of a slave points to nodes from `kmalloc`, one for every group of 64 blocks that no
inode has taken. This is the list of `SlaveMemory` with its pointers : the functions on the nodes
do to them what those on the list do (`Rep.init`, `Rep.alloc`), and `freed` keeps the arguments of
`kfree`.

`rdfs_free_slave_memory_bitmap_list` takes the number of its rounds from `free_block_nums`, and
frees the same node in every round. Along every history of a slave (`SlaveHistory`) the counter and
the length of the list are known from the groups handed out and given back, so that the function
frees every node once if and only if at most one is left and the counter still counts it
(`releasesAll_iff_lastGroup`).
-/

namespace Rdfs

open List Function

/-! ## The code -/

/-- The block accounting of `struct slave_info` with the nodes in memory : the fields of a node by
its address, and the arguments of `kfree` so far. -/
structure SlaveNodes where
  slaveId : ℤ
  freeBlockNums : ℤ
  totalBlockNums : ℤ
  bitmapHead : ℕ
  next : ℕ → ℕ
  node : ℕ → MemBitmapBlock
  freed : List ℕ

namespace SlaveNodes

/-- Round `i` of the loop of `rdfs_init_slave_memory_bitmap_list`, that gets the node
`kmalloc i`. -/
def initNode (kmalloc : ℕ → ℕ) (i pre : ℕ) (s : SlaveNodes) : SlaveNodes :=
  let tmp := kmalloc i
  let s := { s with
    next := Function.update s.next tmp 0
    node := Function.update s.node tmp ⟨u64 s.slaveId, i * 64⟩ }
  if i = 0 then { s with bitmapHead := tmp }
  else { s with next := Function.update s.next pre tmp }

/-- The rounds from `i` on. -/
def initLoop (kmalloc : ℕ → ℕ) : ℕ → ℕ → ℕ → SlaveNodes → SlaveNodes
  | 0, _, _, s => s
  | rounds + 1, i, pre, s =>
    initLoop kmalloc rounds (i + 1) (kmalloc i) (initNode kmalloc i pre s)

/-- `rdfs_init_slave_memory_bitmap_list`. -/
def rdfsInitSlaveMemoryBitmapList (s : SlaveNodes) (remBlockNums : ℕ) (kmalloc : ℕ → ℕ) :
    SlaveNodes :=
  let blockNums := i32 remBlockNums
  let bitmapNums := blockNums.tdiv 64
  initLoop kmalloc bitmapNums.toNat 0 0
    { s with freeBlockNums := blockNums, totalBlockNums := blockNums, bitmapHead := 0 }

/-- The loop of `rdfs_free_slave_memory_bitmap_list` : nothing moves `tmp` on. `none` is the null
pointer followed. -/
def freeLoop (tmp : ℕ) : ℕ → SlaveNodes → Option SlaveNodes
  | 0, s => some s
  | rounds + 1, s =>
    if tmp = 0 then none else freeLoop tmp rounds { s with freed := s.freed ++ [tmp] }

/-- `rdfs_free_slave_memory_bitmap_list`. -/
def rdfsFreeSlaveMemoryBitmapList (s : SlaveNodes) : Option SlaveNodes :=
  let bitmapNums := s.freeBlockNums.tdiv 64
  (freeLoop s.bitmapHead bitmapNums.toNat s).map fun s => { s with bitmapHead := 0 }

/-- `rdfs_alloc_slave_memory_bitmap`. -/
def rdfsAllocSlaveMemoryBitmap (s : SlaveNodes) : ℕ × SlaveNodes :=
  if s.freeBlockNums = 0 ∨ s.bitmapHead = 0 then (u64 (-1), s)
  else
    let use := s.bitmapHead
    ((s.node use).startBlockId, { s with
      bitmapHead := s.next use
      freeBlockNums := s.freeBlockNums - 64
      freed := s.freed ++ [use] })

/-- `rdfs_free_slave_memoryt_bitmap` : `free_block_nums` stays as it is. -/
def rdfsFreeSlaveMemorytBitmap (s : SlaveNodes) (tmp : ℕ) : SlaveNodes :=
  { s with next := Function.update s.next tmp s.bitmapHead, bitmapHead := tmp }

/-- `rdfs_free_slave_memory_bitmap_list` frees every node of the list once and nothing else, and
has as many rounds as there are nodes. -/
def ReleasesAll (s : SlaveNodes) : Prop :=
  ∃ s' nodes released, s.rdfsFreeSlaveMemoryBitmapList = some s' ∧
    LinkedTo s.next s.bitmapHead nodes ∧ s'.freed = s.freed ++ released ∧
    (∀ p, released.count p = if p ∈ nodes then 1 else 0) ∧
    s.freeBlockNums.tdiv 64 = nodes.length

/-! ## The list in memory -/

/-- The nodes hold the list `info`. -/
structure Rep (s : SlaveNodes) (info : SlaveInfo) (nodes : List ℕ) : Prop where
  linked : LinkedTo s.next s.bitmapHead nodes
  nodup : nodes.Nodup
  slaveId : s.slaveId = info.slaveId
  free : s.freeBlockNums = info.freeBlockNums
  total : s.totalBlockNums = info.totalBlockNums
  node : nodes.map s.node = info.bitmapHead

variable {s : SlaveNodes} {info : SlaveInfo} {nodes : List ℕ}

theorem Rep.length_eq (h : s.Rep info nodes) : info.bitmapHead.length = nodes.length := by
  rw [← h.node, length_map]

theorem Rep.head_eq_zero_iff (h : s.Rep info nodes) : s.bitmapHead = 0 ↔ nodes = [] := by
  cases nodes with
  | nil => exact iff_of_true h.linked rfl
  | cons p nodes =>
    obtain ⟨hp, h0, -⟩ := h.linked
    exact iff_of_false (fun heq => h0 (hp ▸ heq)) (cons_ne_nil _ _)

/-- The first `n` nodes from `kmalloc` are different ones. -/
structure Fresh (kmalloc : ℕ → ℕ) (n : ℕ) : Prop where
  ne_zero : ∀ i < n, kmalloc i ≠ 0
  ne : ∀ i < n, ∀ j < i, kmalloc j ≠ kmalloc i

section

variable {kmalloc : ℕ → ℕ} {n i pre : ℕ}

theorem Fresh.mono (h : Fresh kmalloc n) (hi : i ≤ n) : Fresh kmalloc i :=
  ⟨fun j hj => h.ne_zero j (by omega), fun j hj => h.ne j (by omega)⟩

theorem Fresh.nodup (h : Fresh kmalloc n) : ((List.range n).map kmalloc).Nodup := by
  refine nodup_range.map_on fun i hi j hj heq => ?_
  rcases Nat.lt_trichotomy i j with hlt | rfl | hlt
  · exact absurd heq (h.ne j (mem_range.1 hj) i hlt)
  · rfl
  · exact absurd heq.symm (h.ne i (mem_range.1 hi) j hlt)

theorem Fresh.notMem (h : Fresh kmalloc n) (hi : i < n) :
    kmalloc i ∉ (List.range i).map kmalloc := by
  intro hmem
  obtain ⟨j, hj, heq⟩ := mem_map.1 hmem
  exact h.ne i hi j (mem_range.1 hj) heq

/-- The list after the first `i` rounds of the loop, with `pre` at its last node. -/
structure Built (kmalloc : ℕ → ℕ) (i pre : ℕ) (s : SlaveNodes) : Prop where
  linked : LinkedTo s.next s.bitmapHead ((List.range i).map kmalloc)
  node : ∀ j < i, s.node (kmalloc j) = ⟨u64 s.slaveId, j * 64⟩
  pre_eq : ∀ j, i = j + 1 → pre = kmalloc j

theorem initNode_slaveId (s : SlaveNodes) : (initNode kmalloc i pre s).slaveId = s.slaveId := by
  unfold initNode
  split_ifs <;> rfl

theorem initNode_node (s : SlaveNodes) : (initNode kmalloc i pre s).node =
    Function.update s.node (kmalloc i) ⟨u64 s.slaveId, i * 64⟩ := by
  unfold initNode
  split_ifs <;> rfl

/-- One round puts its node behind the last one. -/
theorem Built.initNode (hfresh : Fresh kmalloc n) (hi : i < n) (h : Built kmalloc i pre s) :
    Built kmalloc (i + 1) (kmalloc i) (initNode kmalloc i pre s) := by
  refine ⟨?_, fun j hj => ?_, fun j hj => by rw [Nat.succ.inj hj]⟩
  · cases i with
    | zero => exact ⟨rfl, hfresh.ne_zero 0 hi, update_self _ _ _⟩
    | succ j =>
      obtain rfl := h.pre_eq j rfl
      have hrange : (List.range (j + 1)).map kmalloc =
          (List.range j).map kmalloc ++ [kmalloc j] := by
        rw [range_succ, map_append, map_cons, map_nil]
      have hsnoc := (hrange ▸ h.linked).snoc (hrange ▸ (hfresh.mono hi.le).nodup)
        (hfresh.ne_zero _ hi) (hrange ▸ hfresh.notMem hi)
      rw [range_succ, map_append, hrange, append_assoc]
      exact hsnoc
  · rw [initNode_node, initNode_slaveId]
    rcases Nat.lt_succ_iff_lt_or_eq.1 hj with hlt | rfl
    · rw [update_of_ne (hfresh.ne i hi j hlt), h.node j hlt]
    · rw [update_self]

theorem Built.initLoop (rounds : ℕ) (hfresh : Fresh kmalloc (i + rounds))
    (h : Built kmalloc i pre s) :
    ∃ pre', Built kmalloc (i + rounds) pre' (initLoop kmalloc rounds i pre s) := by
  induction rounds generalizing i pre s with
  | zero => exact ⟨pre, h⟩
  | succ rounds ih =>
    rw [← Nat.add_assoc, Nat.add_right_comm] at hfresh ⊢
    exact ih hfresh (h.initNode hfresh (by omega))

/-- The loop leaves the counters alone. -/
theorem initLoop_counters (kmalloc : ℕ → ℕ) (rounds i pre : ℕ) (s : SlaveNodes) :
    (initLoop kmalloc rounds i pre s).slaveId = s.slaveId ∧
      (initLoop kmalloc rounds i pre s).freeBlockNums = s.freeBlockNums ∧
      (initLoop kmalloc rounds i pre s).totalBlockNums = s.totalBlockNums := by
  induction rounds generalizing i pre s with
  | zero => exact ⟨rfl, rfl, rfl⟩
  | succ rounds ih =>
    obtain ⟨h1, h2, h3⟩ := ih (i + 1) (kmalloc i) (SlaveNodes.initNode kmalloc i pre s)
    refine ⟨h1.trans (initNode_slaveId s), h2.trans ?_, h3.trans ?_⟩
    · unfold SlaveNodes.initNode
      split_ifs <;> rfl
    · unfold SlaveNodes.initNode
      split_ifs <;> rfl

/-- The loop builds a list of `n` groups. -/
theorem rep_initLoop (hfresh : Fresh kmalloc n) (hhead : s.bitmapHead = 0) :
    (initLoop kmalloc n 0 0 s).Rep ⟨s.slaveId, s.freeBlockNums, s.totalBlockNums,
        (List.range n).map fun i => ⟨u64 s.slaveId, i * 64⟩⟩ ((List.range n).map kmalloc) := by
  obtain ⟨h1, h2, h3⟩ := initLoop_counters kmalloc n 0 0 s
  have hstart : Built kmalloc 0 0 s := ⟨hhead, by simp, by simp⟩
  obtain ⟨pre', hbuilt⟩ := hstart.initLoop n (by rwa [Nat.zero_add])
  rw [Nat.zero_add] at hbuilt
  refine ⟨hbuilt.linked, hfresh.nodup, h1, h2, h3, ?_⟩
  rw [map_map]
  refine map_congr_left fun j hj => ?_
  rw [comp_apply, hbuilt.node j (mem_range.1 hj), h1]

end

/-! ## The functions on the list -/

/-- The number of groups of a slave that offers `blocks` blocks. -/
def groups (blocks : ℕ) : ℕ := ((i32 blocks).tdiv 64).toNat

theorem Rep.init {kmalloc : ℕ → ℕ} {blocks : ℕ} (hfresh : Fresh kmalloc (groups blocks))
    (hslave : s.slaveId = info.slaveId) : (s.rdfsInitSlaveMemoryBitmapList blocks kmalloc).Rep
      (Rdfs.rdfsInitSlaveMemoryBitmapList info blocks)
      ((List.range (groups blocks)).map kmalloc) := by
  simp only [Rdfs.rdfsInitSlaveMemoryBitmapList, ← hslave]
  exact rep_initLoop hfresh rfl

/-- `rdfs_alloc_slave_memory_bitmap` finds no group, by the counter or by the list. -/
def Refuses (s : SlaveNodes) : Prop := s.freeBlockNums = 0 ∨ s.bitmapHead = 0

theorem alloc_of_refuses (h : s.Refuses) : s.rdfsAllocSlaveMemoryBitmap = (u64 (-1), s) := if_pos h

theorem Rep.alloc_of_refuses (h : s.Rep info nodes) (hr : s.Refuses) :
    Rdfs.rdfsAllocSlaveMemoryBitmap info = (u64 (-1), info) := by
  have hlist := h.node
  rw [Rdfs.rdfsAllocSlaveMemoryBitmap]
  rcases hr with hfree | hhead
  · rw [h.free] at hfree
    split
    · rfl
    · rw [if_pos hfree]
  · rw [h.head_eq_zero_iff.1 hhead, map_nil] at hlist
    rw [← hlist]

/-- The first group of the list is handed out, and its node freed. -/
theorem Rep.alloc {p : ℕ} (h : s.Rep info (p :: nodes)) (hr : ¬s.Refuses) :
    ∃ s' info', s.rdfsAllocSlaveMemoryBitmap = ((s.node p).startBlockId, s') ∧
      Rdfs.rdfsAllocSlaveMemoryBitmap info = ((s.node p).startBlockId, info') ∧
      s'.Rep info' nodes ∧ s'.freeBlockNums = s.freeBlockNums - 64 ∧ s'.freed = s.freed ++ [p] := by
  obtain ⟨hp, -, hlinked⟩ := h.linked
  have hfree : info.freeBlockNums ≠ 0 := fun heq => hr (Or.inl (h.free.trans heq))
  have hcons : info.bitmapHead = s.node p :: nodes.map s.node := by
    rw [← h.node, map_cons]
  have hrun : s.rdfsAllocSlaveMemoryBitmap = _ := if_neg hr
  rw [hrun, Rdfs.rdfsAllocSlaveMemoryBitmap, hcons, hp]
  refine ⟨_, _, rfl, if_neg hfree, ⟨hlinked, h.nodup.tail, h.slaveId, ?_, h.total, rfl⟩, rfl, rfl⟩
  exact congrArg (· - 64) h.free

theorem Rep.giveBack (h : s.Rep info nodes) {tmp : ℕ} (h0 : tmp ≠ 0) (hnot : tmp ∉ nodes) :
    (s.rdfsFreeSlaveMemorytBitmap tmp).Rep
      { info with bitmapHead := s.node tmp :: info.bitmapHead } (tmp :: nodes) :=
  ⟨h.linked.push h0 hnot, nodup_cons.2 ⟨hnot, h.nodup⟩, h.slaveId, h.free, h.total,
    congrArg (s.node tmp :: ·) h.node⟩

/-! ## Freeing the list -/

/-- The same node is freed in every round. -/
theorem freeLoop_eq (tmp rounds : ℕ) (s : SlaveNodes) :
    freeLoop tmp rounds s = if rounds = 0 ∨ tmp ≠ 0 then
      some { s with freed := s.freed ++ List.replicate rounds tmp } else none := by
  induction rounds generalizing s with
  | zero => simp [freeLoop]
  | succ rounds ih =>
    rw [freeLoop]
    by_cases h0 : tmp = 0
    · rw [if_pos h0, if_neg (by simp [h0])]
    · rw [if_neg h0, ih, if_pos (Or.inr h0), if_pos (Or.inr h0)]
      simp only [append_assoc, replicate_succ, singleton_append]

theorem freeList_eq (s : SlaveNodes) : s.rdfsFreeSlaveMemoryBitmapList =
      if (s.freeBlockNums.tdiv 64).toNat = 0 ∨ s.bitmapHead ≠ 0 then
        some { s with
          bitmapHead := 0
          freed := s.freed ++ List.replicate (s.freeBlockNums.tdiv 64).toNat s.bitmapHead }
      else none := by
  rw [rdfsFreeSlaveMemoryBitmapList, freeLoop_eq]
  split_ifs <;> rfl

theorem Rep.releasesAll_iff (h : s.Rep info nodes) :
    s.ReleasesAll ↔ s.freeBlockNums.tdiv 64 = nodes.length ∧ nodes.length ≤ 1 := by
  have hrun := s.freeList_eq
  constructor
  · rintro ⟨s', nodes', released, hfree, hlinked, hfreed, hcount, hbound⟩
    obtain rfl := hlinked.unique h.linked
    refine ⟨hbound, ?_⟩
    cases nodes' with
    | nil => exact Nat.zero_le 1
    | cons p nodes' =>
      obtain ⟨hp, h0, -⟩ := hlinked
      rw [hrun, hbound, Int.toNat_natCast, hp, if_pos (Or.inr h0)] at hfree
      obtain rfl := Option.some.inj hfree
      have hrel := append_cancel_left hfreed
      have hp1 := hcount p
      rw [← hrel, count_replicate_self, if_pos mem_cons_self] at hp1
      exact hp1.le
  · rintro ⟨hbound, hle⟩
    rw [hbound, Int.toNat_natCast] at hrun
    cases nodes with
    | nil =>
      rw [length_nil, if_pos (Or.inl rfl)] at hrun
      exact ⟨_, [], [], hrun, h.linked, rfl, by simp, hbound⟩
    | cons p nodes =>
      obtain rfl : nodes = [] := by simpa using hle
      obtain ⟨hp, h0, -⟩ := h.linked
      rw [hp, if_pos (Or.inr h0)] at hrun
      refine ⟨_, [p], [p], hrun, h.linked, rfl, fun q => ?_, hbound⟩
      simp only [count_singleton, beq_iff_eq, mem_singleton]
      exact if_congr eq_comm rfl rfl

end SlaveNodes

/-! ## Histories -/

/-- States of a slave that offers `blocks` blocks, after `handed` groups have been handed out and
`back` nodes given back. A node that is given back is not in the list. -/
inductive SlaveHistory (blocks : ℕ) : ℕ → ℕ → SlaveNodes → Prop
  | init (s : SlaveNodes) (kmalloc : ℕ → ℕ)
      (hfresh : SlaveNodes.Fresh kmalloc (SlaveNodes.groups blocks)) :
      SlaveHistory blocks 0 0 (s.rdfsInitSlaveMemoryBitmapList blocks kmalloc)
  | refuse {handed back : ℕ} {s : SlaveNodes} (hr : s.Refuses)
      (h : SlaveHistory blocks handed back s) :
      SlaveHistory blocks handed back s.rdfsAllocSlaveMemoryBitmap.2
  | handOut {handed back : ℕ} {s : SlaveNodes} (hr : ¬s.Refuses)
      (h : SlaveHistory blocks handed back s) :
      SlaveHistory blocks (handed + 1) back s.rdfsAllocSlaveMemoryBitmap.2
  | giveBack {handed back : ℕ} {s : SlaveNodes} (tmp : ℕ) (h0 : tmp ≠ 0)
      (hnot : ∀ nodes, LinkedTo s.next s.bitmapHead nodes → tmp ∉ nodes)
      (h : SlaveHistory blocks handed back s) :
      SlaveHistory blocks handed (back + 1) (s.rdfsFreeSlaveMemorytBitmap tmp)

/-- The counter goes down with every group handed out ; the list also grows with every node given
back. -/
theorem SlaveHistory.rep {blocks handed back : ℕ} {s : SlaveNodes}
    (h : SlaveHistory blocks handed back s) :
    ∃ info nodes, s.Rep info nodes ∧ s.freeBlockNums = i32 blocks - 64 * handed ∧
      nodes.length + handed = SlaveNodes.groups blocks + back := by
  induction h with
  | init s kmalloc hfresh =>
    have hslave : s.slaveId = SlaveInfo.slaveId ⟨s.slaveId, 0, 0, []⟩ := rfl
    have hrep := SlaveNodes.Rep.init hfresh hslave
    refine ⟨_, _, hrep, ?_, by simp⟩
    rw [hrep.free]
    simp [rdfsInitSlaveMemoryBitmapList]
  | refuse hr _ ih => rwa [SlaveNodes.alloc_of_refuses hr]
  | @handOut handed back s hr _ ih =>
    obtain ⟨info, nodes, hrep, hfree, hlen⟩ := ih
    cases nodes with
    | nil => exact absurd (Or.inr hrep.linked) hr
    | cons p nodes =>
      obtain ⟨s', info', hs', -, hrep', hfree', -⟩ := hrep.alloc hr
      rw [length_cons] at hlen
      rw [hs']
      refine ⟨info', nodes, hrep', ?_, by omega⟩
      dsimp only
      omega
  | giveBack tmp h0 hnot _ ih =>
    obtain ⟨info, nodes, hrep, hfree, hlen⟩ := ih
    refine ⟨_, _, hrep.giveBack h0 (hnot nodes hrep.linked), hfree, ?_⟩
    rw [length_cons]
    omega

/-- At most one group is left, and the counter counts it : no node has been given back, or the one
that was has been handed out on the blocks that are no whole group. -/
def LastGroup (blocks handed back : ℕ) : Prop :=
  -64 < i32 blocks ∧ SlaveNodes.groups blocks + back ≤ handed + 1 ∧
    (back = 0 ∨ back = 1 ∧ handed = SlaveNodes.groups blocks + 1 ∧
      64 * (SlaveNodes.groups blocks : ℤ) < i32 blocks)

instance (blocks handed back : ℕ) : Decidable (LastGroup blocks handed back) :=
  inferInstanceAs (Decidable (_ ∧ _ ∧ _))

theorem tdiv_sixtyFour (z : ℤ) : z.tdiv 64 = if 0 ≤ z then z / 64 else -(-z / 64) := by
  split_ifs with h
  · exact Int.tdiv_eq_ediv_of_nonneg h
  · rw [← Int.tdiv_eq_ediv_of_nonneg (by omega), Int.neg_tdiv, Int.neg_neg]

/-- In every state of every history, `rdfs_free_slave_memory_bitmap_list` frees every node of the
list once, and has as many rounds as there are nodes, if and only if the last group is reached. -/
theorem releasesAll_iff_lastGroup {blocks handed back : ℕ} {s : SlaveNodes}
    (h : SlaveHistory blocks handed back s) : s.ReleasesAll ↔ LastGroup blocks handed back := by
  obtain ⟨info, nodes, hrep, hfree, hlen⟩ := h.rep
  rw [hrep.releasesAll_iff, hfree, LastGroup]
  have hgroups : SlaveNodes.groups blocks = ((i32 blocks).tdiv 64).toNat := rfl
  generalize SlaveNodes.groups blocks = q at *
  generalize i32 blocks = b at *
  rw [tdiv_sixtyFour] at hgroups ⊢
  split_ifs at hgroups ⊢ <;> omega

/-- A slave before it has a list. -/
def newSlave : SlaveNodes := ⟨0, 0, 0, 0, fun _ => 0, fun _ => ⟨0, 0⟩, []⟩

/-- Nodes from `kmalloc` one behind the other. -/
def nodeAt (i : ℕ) : ℕ := 32 * (i + 1)

theorem fresh_nodeAt (n : ℕ) : SlaveNodes.Fresh nodeAt n :=
  ⟨fun i _ => by unfold nodeAt; omega, fun i _ j hj => by unfold nodeAt; omega⟩

/-- A slave with one group. -/
theorem releasesAll_iff_lastGroup_one :
    SlaveHistory 64 0 0 (newSlave.rdfsInitSlaveMemoryBitmapList 64 nodeAt) ∧
      (newSlave.rdfsInitSlaveMemoryBitmapList 64 nodeAt).ReleasesAll := by
  have hrun : SlaveHistory 64 0 0 (newSlave.rdfsInitSlaveMemoryBitmapList 64 nodeAt) :=
    .init newSlave nodeAt (fresh_nodeAt _)
  exact ⟨hrun, (releasesAll_iff_lastGroup hrun).2 (by decide)⟩

/-- A slave with two groups that have not been handed out : the first node is freed twice, the
second one not at all. -/
theorem twoGroups_freed_twice :
    SlaveHistory 128 0 0 (newSlave.rdfsInitSlaveMemoryBitmapList 128 nodeAt) ∧
      LinkedTo (newSlave.rdfsInitSlaveMemoryBitmapList 128 nodeAt).next
        (newSlave.rdfsInitSlaveMemoryBitmapList 128 nodeAt).bitmapHead [32, 64] ∧
      (newSlave.rdfsInitSlaveMemoryBitmapList 128 nodeAt).rdfsFreeSlaveMemoryBitmapList.map
        SlaveNodes.freed = some [32, 32] ∧
      ¬(newSlave.rdfsInitSlaveMemoryBitmapList 128 nodeAt).ReleasesAll := by
  have hfresh := fresh_nodeAt (SlaveNodes.groups 128)
  have hrep := SlaveNodes.Rep.init hfresh
    (show newSlave.slaveId = SlaveInfo.slaveId ⟨0, 0, 0, []⟩ from rfl)
  have hnodes : (List.range (SlaveNodes.groups 128)).map nodeAt = [32, 64] := by decide
  rw [hnodes] at hrep
  refine ⟨.init newSlave nodeAt hfresh, hrep.linked, by decide, fun hall => ?_⟩
  exact absurd (hrep.releasesAll_iff.1 hall).2 (by decide)

end Rdfs
