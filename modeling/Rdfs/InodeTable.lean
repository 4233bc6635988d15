import Rdfs.Layout
import Rdfs.Pool

/-!
# The inode table

Each node starts with its descriptor, and its inode slots follow at intervals of
`rdfsInodeSize` bytes. `getRdfsInode` and `getRdfsInodenr` translate between inode numbers
and slots : with two nodes, odd numbers are slots of node 0 and even numbers slots of node 1.
The slots that are not in use are linked through `i_pg_addr`, the field that holds the page
table of an inode in use.

`InodeLayout` is where the slots lie. The two translations are inverse to each other
(`InodeLayout.getRdfsInodePhyAddr_ino`, `InodeLayout.getRdfsInodenr_slot`). A run (`InodeRun`)
interleaves the slot allocation of `rdfs_new_inode`, `rdfs_free_inode` on inodes in use, and
whatever else leaves the unused slots alone; along every run the unused slots and the slots
in use are the slots of the node, each once (`InodeRun.inodeInv`).
-/

namespace Rdfs

open List Option

/-! ## The code -/

/-- `get_rdfs_inode` : the slot of an inode number, as a pointer. Inode numbers start at 1. -/
def getRdfsInode (sb : Super) (ino : ℕ) : ℕ :=
  if sb.sNumaFlag = true then
    if ino &&& 1 = 1 then sb.sNumaDes 0 + sizeofNumaDes + ((ino - 1) >>> 1 <<< 7)
    else sb.sNumaDes 1 + sizeofNumaDes + ((ino - 2) >>> 1 <<< 7)
  else sb.sNumaDes 0 + sizeofNumaDes + ((ino - 1) <<< 7)

/-- `get_rdfs_inode_phy_addr`. -/
def getRdfsInodePhyAddr (sb : Super) (ino : ℕ) : ℕ := rdfsPa sb (getRdfsInode sb ino)

/-- `get_rdfs_inodenr` : the inode number of the slot at a physical address. -/
def getRdfsInodenr (sb : Super) (inodePhy : ℕ) : ℕ :=
  if sb.sNumaFlag = true then
    if rdfsNumaLine < inodePhy then
      ((inodePhy - rdfsPa sb (sb.sNumaDes 1) - sizeofNumaDes) >>> 7 <<< 1) + 2
    else ((inodePhy - rdfsPa sb (sb.sNumaDes 0) - sizeofNumaDes) >>> 7 <<< 1) + 1
  else ((inodePhy - rdfsPa sb (sb.sNumaDes 0) - sizeofNumaDes) >>> 7) + 1

/-- `get_a_numa` : the nodes in turn; returns the node and the new `next_numa_id`. -/
def getANuma (sb : Super) (nextNumaId : ℕ) : Fin 2 × ℕ :=
  if sb.sNumaFlag = true then (Fin.ofNat 2 (nextNumaId + 1), nextNumaId + 1) else (0, nextNumaId)

/-- `get_rdfs_inode_numa` : the node a slot lies in. -/
def getRdfsInodeNuma (sb : Super) (ni : ℕ) : Fin 2 := rdfsGetPhysNumaId sb (rdfsPa sb ni)

/-- The fields `rdfs_new_inode` clears in the slot it takes. -/
def newInodeFields : List (InodeField × ℕ) :=
  [(.iPgAddr, 0), (.listPro, 0), (.listNext, 0), (.iAccessedCount, 0), (.iColdPageStart, 0),
    (.iColdPageNum, 0)]

/-- `rdfs_new_inode`, the section under `inode_lock` that takes a slot off the free list :
the inode number, the region, and the new `next_numa_id`. -/
def rdfsNewInodeTake (sb : Super) (st : Nvm) (nextNumaId : ℕ) : Option ℕ × Nvm × ℕ :=
  let n := (getANuma sb nextNumaId).1
  let d := st.numaDes n
  if d.freeInodeCount = 0 then (none, st, (getANuma sb nextNumaId).2)
  else
    let ino := getRdfsInodenr sb d.freeInodePhy
    let ni := getRdfsInodePhyAddr sb ino
    let m := inodeStruct.putFields st.mem ni newInodeFields
    let d' := { d with
      freeInodePhy := inodeStruct.getField st.mem ni .iPgAddr
      freeInodeCount := d.freeInodeCount - 1 }
    (some ino, { st with mem := m }.setNuma n d', (getANuma sb nextNumaId).2)

/-- `rdfs_free_inode` : the slot goes back in front of the free list of its node. -/
def rdfsFreeInode (sb : Super) (st : Nvm) (ino seconds : ℕ) : Nvm :=
  let n := getRdfsInodeNuma sb (getRdfsInode sb ino)
  let d := st.numaDes n
  let inodePhy := getRdfsInodePhyAddr sb ino
  let m := inodeStruct.putFields st.mem inodePhy [(.iDtime, seconds), (.iPgAddr, 0)]
  { st with mem := inodeStruct.putField m inodePhy .iPgAddr d.freeInodePhy }.setNuma n
    { d with freeInodePhy := inodePhy, freeInodeCount := d.freeInodeCount + 1 }

/-- `rdfs_init_free_inode_list_offset` : every slot but the first of the node linked to the
next. The count is kept in an `unsigned int`. -/
def rdfsInitFreeInodeListOffset (d : NumaDes) (m : Mem) : Mem :=
  linkUp rdfsInodeSize (inodeStruct.offset .iPgAddr) (d.freeInodeCount % 2 ^ 32) d.freeInodePhy m

/-- The slots visited from `free_inode_phy` in `free_inode_count` steps along `i_pg_addr`. -/
def freeInodes (st : Nvm) (n : Fin 2) : List ℕ :=
  chain st.mem (inodeStruct.offset .iPgAddr) (st.numaDes n).freeInodePhy
    (st.numaDes n).freeInodeCount

/-! ## Where the slots are -/

/-- The slots of each node, `count` of them after the first : behind the descriptor of the
node, node 0 below the NUMA line and node 1 from the line on when there are two nodes. -/
structure InodeLayout (sb : Super) where
  start : Fin 2 → ℕ
  count : Fin 2 → ℕ
  des_zero : sb.sNumaDes 0 = rdfsVa sb (start 0)
  des_one : sb.sNumaFlag = true → sb.sNumaDes 1 = rdfsVa sb (start 1)
  bound : ∀ n, start n + 128 + 128 * (count n + 1) < 2 ^ 63
  below : sb.sNumaFlag = true → start 0 + 128 + 128 * (count 0 + 1) ≤ rdfsNumaLine
  above : sb.sNumaFlag = true → rdfsNumaLine ≤ start 1
  single : sb.sNumaFlag = false → count 1 = 0

namespace InodeLayout

variable {sb : Super} (L : InodeLayout sb)

/-- The `i`-th slot of node `n`. -/
def slot (n : Fin 2) (i : ℕ) : ℕ := L.start n + 128 + 128 * i

/-- The slots of node `n` that are handed out, all but the first. -/
def slots (n : Fin 2) : List ℕ := (List.range (L.count n)).map fun i => L.slot n (i + 1)

/-- `p` is a slot of the table, the first of each node included. -/
def IsSlot (p : ℕ) : Prop :=
  ∃ n i, (n = 0 ∨ sb.sNumaFlag = true) ∧ i ≤ L.count n ∧ p = L.slot n i

/-- `ino` is the number of a slot of the table. -/
def IsIno (ino : ℕ) : Prop :=
  if sb.sNumaFlag = true then
    (ino % 2 = 1 ∧ (ino - 1) / 2 ≤ L.count 0) ∨ (ino % 2 = 0 ∧ 2 ≤ ino ∧ (ino - 2) / 2 ≤ L.count 1)
  else 1 ≤ ino ∧ ino ≤ L.count 0 + 1

/-- The number of the `i`-th slot of node `n`. -/
def ino (_ : InodeLayout sb) (n : Fin 2) (i : ℕ) : ℕ :=
  if sb.sNumaFlag = true then 2 * i + 1 + n else i + 1

/-- The numbers of the first slots, which are never handed out. -/
def reserved (_ : InodeLayout sb) : List ℕ := if sb.sNumaFlag = true then [1, 2] else [1]

variable {L}

theorem mem_slots {n : Fin 2} {p : ℕ} : p ∈ L.slots n ↔ ∃ i < L.count n, p = L.slot n (i + 1) := by
  simp only [slots, List.mem_map, mem_range]
  exact ⟨fun ⟨i, hi, h⟩ => ⟨i, hi, h.symm⟩, fun ⟨i, hi, h⟩ => ⟨i, hi, h.symm⟩⟩

theorem nodup_slots (n : Fin 2) : (L.slots n).Nodup :=
  nodup_range.map fun i j h => by simp only [slot] at h; omega

/-- A node that hands out slots is a node of the region. -/
theorem node_of_pos {n : Fin 2} (h : 0 < L.count n) : n = 0 ∨ sb.sNumaFlag = true := by
  rcases node_cases n with rfl | rfl
  · exact Or.inl rfl
  · refine Or.inr (Bool.eq_true_of_not_eq_false fun hf => ?_)
    rw [L.single hf] at h
    exact lt_irrefl _ h

theorem isSlot_of_mem {n : Fin 2} {p : ℕ} (h : p ∈ L.slots n) : L.IsSlot p := by
  obtain ⟨i, hi, rfl⟩ := mem_slots.1 h
  exact ⟨n, i + 1, node_of_pos (Nat.zero_lt_of_lt hi), hi, rfl⟩

section

variable {n : Fin 2} (hn : n = 0 ∨ sb.sNumaFlag = true)
include hn

/-- The address of a slot tells its node. -/
theorem rdfsGetPhysNumaId_slot {i : ℕ} (hi : i ≤ L.count n) :
    rdfsGetPhysNumaId sb (L.slot n i) = n := by
  unfold rdfsGetPhysNumaId slot
  by_cases hf : sb.sNumaFlag = true
  · rcases node_cases n with rfl | rfl
    · have := L.below hf
      rw [if_neg (by omega)]
    · have := L.above hf
      rw [if_pos ⟨hf, by omega⟩]
  · rw [if_neg (by simp [hf]), hn.resolve_right hf]

/-- The slot of an inode number. -/
theorem getRdfsInode_ino (i : ℕ) : getRdfsInode sb (L.ino n i) = rdfsVa sb (L.slot n i) := by
  have hv := sb.phy_le_virt
  unfold getRdfsInode ino
  by_cases hf : sb.sNumaFlag = true
  · simp only [if_pos hf, sizeofNumaDes]
    rcases node_cases n with rfl | rfl
    · rw [if_pos (by simp), L.des_zero]
      simp only [rdfsVa, slot]
      omega
    · rw [if_neg (by simp; omega), L.des_one hf]
      simp only [rdfsVa, slot]
      omega
  · obtain rfl := hn.resolve_right hf
    simp only [if_neg hf, sizeofNumaDes, L.des_zero, rdfsVa, slot]
    omega

theorem getRdfsInodePhyAddr_ino (i : ℕ) : getRdfsInodePhyAddr sb (L.ino n i) = L.slot n i := by
  rw [getRdfsInodePhyAddr, getRdfsInode_ino hn, rdfsPa_rdfsVa]

/-- The inode number of a slot. -/
theorem getRdfsInodenr_slot {i : ℕ} (hi : i ≤ L.count n) :
    getRdfsInodenr sb (L.slot n i) = L.ino n i := by
  unfold getRdfsInodenr ino slot
  by_cases hf : sb.sNumaFlag = true
  · simp only [if_pos hf, sizeofNumaDes, L.des_zero, L.des_one hf, rdfsPa_rdfsVa]
    rcases node_cases n with rfl | rfl
    · have := L.below hf
      rw [if_neg (by omega)]
      omega
    · have := L.above hf
      rw [if_pos (by omega)]
      omega
  · obtain rfl := hn.resolve_right hf
    simp only [if_neg hf, Nat.shiftRight_eq_div_pow, sizeofNumaDes, L.des_zero, rdfsPa_rdfsVa]
    omega

end

theorem isIno_iff {k : ℕ} :
    L.IsIno k ↔ ∃ n i, (n = 0 ∨ sb.sNumaFlag = true) ∧ i ≤ L.count n ∧ k = L.ino n i := by
  unfold IsIno ino
  by_cases hf : sb.sNumaFlag = true
  · simp only [hf, if_true, or_true, true_and]
    constructor
    · rintro (⟨h1, h2⟩ | ⟨h1, h2, h3⟩)
      · exact ⟨0, (k - 1) / 2, h2, by omega⟩
      · exact ⟨1, (k - 2) / 2, h3, by omega⟩
    · rintro ⟨n, i, hi, rfl⟩
      rcases node_cases n with rfl | rfl
      · omega
      · omega
  · rw [Bool.not_eq_true] at hf
    simp only [hf, Bool.false_eq_true, if_false, or_false]
    constructor
    · intro h
      exact ⟨0, k - 1, rfl, by omega, by omega⟩
    · rintro ⟨n, i, rfl, hi, rfl⟩
      omega

/-- Every inode number is the number of its slot. -/
theorem of_isIno {k : ℕ} (h : L.IsIno k) :
    L.IsSlot (getRdfsInodePhyAddr sb k) ∧ getRdfsInodenr sb (getRdfsInodePhyAddr sb k) = k := by
  obtain ⟨n, i, hn, hi, rfl⟩ := isIno_iff.1 h
  rw [getRdfsInodePhyAddr_ino hn]
  exact ⟨⟨n, i, hn, hi, rfl⟩, getRdfsInodenr_slot hn hi⟩

theorem isIno_of_mem_reserved {k : ℕ} (h : k ∈ L.reserved) : L.IsIno k := by
  unfold reserved at h
  unfold IsIno
  split_ifs at h ⊢
  · simp only [mem_cons, not_mem_nil, or_false] at h
    omega
  · simp only [mem_cons, not_mem_nil, or_false] at h
    omega

/-- Distinct slots do not overlap. -/
theorem slot_disjoint {n k : Fin 2} {i j : ℕ} (hn : n = 0 ∨ sb.sNumaFlag = true)
    (hk : k = 0 ∨ sb.sNumaFlag = true) (hi : i ≤ L.count n) (hj : j ≤ L.count k)
    (hne : L.slot n i ≠ L.slot k j) :
    L.slot n i + 128 ≤ L.slot k j ∨ L.slot k j + 128 ≤ L.slot n i := by
  by_cases hnk : n = k
  · subst hnk
    simp only [slot] at hne ⊢
    omega
  · have hf : sb.sNumaFlag = true := by
      rcases hn with rfl | hf
      · exact hk.resolve_left (Ne.symm hnk)
      · exact hf
    have hb := L.below hf
    have ha := L.above hf
    simp only [slot]
    rcases node_cases n with rfl | rfl <;> rcases node_cases k with rfl | rfl
    · exact absurd rfl hnk
    · omega
    · omega
    · exact absurd rfl hnk

theorem isSlot_disjoint {p q : ℕ} (hp : L.IsSlot p) (hq : L.IsSlot q) (hne : p ≠ q) :
    p + 128 ≤ q ∨ q + 128 ≤ p := by
  obtain ⟨n, i, hn, hi, rfl⟩ := hp
  obtain ⟨k, j, hk, hj, rfl⟩ := hq
  exact slot_disjoint hn hk hi hj hne

theorem sep_slots (n : Fin 2) : Sep 8 (L.slots n) := by
  intro p hp q hq hne
  have := isSlot_disjoint (isSlot_of_mem hp) (isSlot_of_mem hq) hne
  omega

/-- Slot, number and node of a slot that is handed out. -/
theorem of_mem_slots {n : Fin 2} {p : ℕ} (h : p ∈ L.slots n) :
    getRdfsInodePhyAddr sb (getRdfsInodenr sb p) = p ∧ rdfsGetPhysNumaId sb p = n ∧
      L.IsIno (getRdfsInodenr sb p) ∧ getRdfsInodenr sb p ∉ L.reserved := by
  obtain ⟨i, hi, rfl⟩ := mem_slots.1 h
  have hn := node_of_pos (Nat.zero_lt_of_lt hi)
  rw [getRdfsInodenr_slot hn hi, getRdfsInodePhyAddr_ino hn]
  refine ⟨rfl, rdfsGetPhysNumaId_slot hn hi, isIno_iff.2 ⟨n, i + 1, hn, hi, rfl⟩, ?_⟩
  unfold ino reserved
  by_cases hf : sb.sNumaFlag = true
  · simp [hf]
    omega
  · simp [hf]

/-- Two nodes that hand out two slots each. -/
def twoByTwo : InodeLayout twoNodes where
  start n := if n = 0 then 0 else rdfsNumaLine
  count _ := 2
  des_zero := rfl
  des_one _ := rfl
  bound := by decide
  below _ := by decide
  above _ := le_rfl
  single := twoNodes_single

/-- The region once `rdfs_init_free_inode_list_offset` has linked up both nodes. -/
def init (L : InodeLayout sb) (m : Mem) (d : Fin 2 → NumaDes) : Nvm :=
  let des : Fin 2 → NumaDes := fun n =>
    { d n with freeInodePhy := L.slot n 1, freeInodeCount := L.count n }
  { mem := rdfsInitFreeInodeListOffset (des 1) (rdfsInitFreeInodeListOffset (des 0) m)
    numaDes := des }

/-- At the start every slot but the first of a node is free, in ascending order, if their number
fits an `unsigned int`. -/
theorem freeInodes_init (hcount : ∀ n, L.count n < 2 ^ 32) (m : Mem) (d : Fin 2 → NumaDes)
    (n : Fin 2) : freeInodes (L.init m d) n = L.slots n := by
  have hchain : ∀ m', chain (linkUp 128 72 (L.count n) (L.slot n 1) m') 72 (L.slot n 1)
      (L.count n) = L.slots n := by
    intro m'
    have hb := L.bound n
    rw [chain_linkUp _ (by decide) m' (by simp only [slot]; omega)]
    refine map_congr_left fun i _ => ?_
    simp only [slot]
    omega
  have hmod : ∀ n, L.count n % 2 ^ 32 = L.count n := fun n => Nat.mod_eq_of_lt (hcount n)
  unfold freeInodes init rdfsInitFreeInodeListOffset
  simp only [offset_iPgAddr, rdfsInodeSize, hmod]
  rcases node_cases n with rfl | rfl
  · refine (chain_congr fun p hp x h1 h2 => linkUp_apply _ fun i hi => ?_).trans (hchain m)
    rw [hchain m] at hp
    have hq : L.slot 1 (i + 1) ∈ L.slots 1 := mem_slots.2 ⟨i, hi, rfl⟩
    have hne : p ≠ L.slot 1 (i + 1) := by
      rintro rfl
      exact absurd ((of_mem_slots hp).2.1.symm.trans (of_mem_slots hq).2.1) (by decide)
    have := isSlot_disjoint (isSlot_of_mem hp) (isSlot_of_mem hq) hne
    simp only [slot] at this ⊢
    omega
  · exact hchain _

end InodeLayout

/-! ## Runs -/

variable {sb : Super}

/-- States reached from linked-up tables by taking slots, freeing inodes in use, and anything
that changes neither a free slot nor the inode list of a node. `live` are the numbers of the
inodes in use. -/
inductive InodeRun (L : InodeLayout sb) : Nvm → ℕ → List ℕ → Prop
  | start (m : Mem) (d : Fin 2 → NumaDes) (nextNumaId : ℕ) :
      InodeRun L (L.init m d) nextNumaId []
  | newInode {st : Nvm} {nextNumaId : ℕ} {live : List ℕ} (h : InodeRun L st nextNumaId live) :
      InodeRun L (rdfsNewInodeTake sb st nextNumaId).2.1 (rdfsNewInodeTake sb st nextNumaId).2.2
        (live ++ (rdfsNewInodeTake sb st nextNumaId).1.toList)
  | freeInode {st : Nvm} {nextNumaId : ℕ} {live : List ℕ} {ino : ℕ} (seconds : ℕ)
      (hino : ino ∈ live) (h : InodeRun L st nextNumaId live) :
      InodeRun L (rdfsFreeInode sb st ino seconds) nextNumaId (live.erase ino)
  | other {st st' : Nvm} {nextNumaId : ℕ} {live : List ℕ}
      (hphy : ∀ n, (st'.numaDes n).freeInodePhy = (st.numaDes n).freeInodePhy)
      (hcnt : ∀ n, (st'.numaDes n).freeInodeCount = (st.numaDes n).freeInodeCount)
      (hm : ∀ n, ∀ p ∈ L.slots n, getRdfsInodenr sb p ∉ live → Mem.SameOn st.mem st'.mem 128 p)
      (h : InodeRun L st nextNumaId live) : InodeRun L st' nextNumaId live

/-- The slots of node `n` in use. -/
def liveSlots (sb : Super) (live : List ℕ) (n : Fin 2) : List ℕ :=
  (live.map (getRdfsInodePhyAddr sb)).filter fun p => rdfsGetPhysNumaId sb p = n

/-- The free slots and the slots in use of a node are its slots, each once. -/
structure InodeInv (L : InodeLayout sb) (st : Nvm) (live : List ℕ) : Prop where
  pool : ∀ n, Pool (L.slots n) st.mem 72 (st.numaDes n).freeInodePhy
    (st.numaDes n).freeInodeCount (liveSlots sb live n)
  isIno : ∀ ino ∈ live, L.IsIno ino
  nodup : live.Nodup

section

variable {ino p : ℕ} {n : Fin 2} (live : List ℕ) (hp : getRdfsInodePhyAddr sb ino = p)
  (hn : rdfsGetPhysNumaId sb p = n)
include live hp hn

theorem liveSlots_append_self : liveSlots sb (live ++ [ino]) n = liveSlots sb live n ++ [p] := by
  simp [liveSlots, hp, hn]

theorem liveSlots_append_of_ne {k : Fin 2} (hk : k ≠ n) :
    liveSlots sb (live ++ [ino]) k = liveSlots sb live k := by
  simp [liveSlots, hp, hn, Ne.symm hk]

end

theorem mem_liveSlots (sb : Super) {ino : ℕ} {live : List ℕ} (h : ino ∈ live) :
    getRdfsInodePhyAddr sb ino ∈
      liveSlots sb live (rdfsGetPhysNumaId sb (getRdfsInodePhyAddr sb ino)) :=
  mem_filter.2 ⟨List.mem_map_of_mem h, by simp⟩

theorem liveSlots_erase_self (sb : Super) {ino : ℕ} {live : List ℕ} (h : ino ∈ live) :
    (liveSlots sb (live.erase ino) (rdfsGetPhysNumaId sb (getRdfsInodePhyAddr sb ino))).Perm
      ((liveSlots sb live (rdfsGetPhysNumaId sb (getRdfsInodePhyAddr sb ino))).erase
        (getRdfsInodePhyAddr sb ino)) := by
  have hperm := ((perm_cons_erase h).map (getRdfsInodePhyAddr sb)).filter fun p =>
    rdfsGetPhysNumaId sb p = rdfsGetPhysNumaId sb (getRdfsInodePhyAddr sb ino)
  rw [map_cons, filter_cons_of_pos (by simp)] at hperm
  exact (cons_perm_iff_perm_erase.1 hperm.symm).2

theorem liveSlots_erase_of_ne (sb : Super) {ino : ℕ} {live : List ℕ} {k : Fin 2} (h : ino ∈ live)
    (hk : k ≠ rdfsGetPhysNumaId sb (getRdfsInodePhyAddr sb ino)) :
    (liveSlots sb (live.erase ino) k).Perm (liveSlots sb live k) := by
  have hperm := ((perm_cons_erase h).map (getRdfsInodePhyAddr sb)).filter fun p =>
    rdfsGetPhysNumaId sb p = k
  rw [map_cons, filter_cons_of_neg (by simpa using Ne.symm hk)] at hperm
  exact hperm.symm

namespace InodeInv

variable {L : InodeLayout sb} {st : Nvm} {nextNumaId : ℕ} {live : List ℕ}

/-- What the slot allocation can do : find no slot and leave the region as it is, or take
the slot at the head of the list, writing to 136 bytes from its address on. -/
theorem take_cases (h : InodeInv L st live) (nextNumaId : ℕ) {n : Fin 2}
    (hn : (getANuma sb nextNumaId).1 = n) : ((st.numaDes n).freeInodeCount = 0 ∧
      rdfsNewInodeTake sb st nextNumaId = (none, st, (getANuma sb nextNumaId).2)) ∨
    ∃ (ino p : ℕ) (st' : Nvm), 0 < (st.numaDes n).freeInodeCount ∧
      (st.numaDes n).freeInodePhy = p ∧ p ∈ L.slots n ∧ getRdfsInodenr sb p = ino ∧
      getRdfsInodePhyAddr sb ino = p ∧
      rdfsNewInodeTake sb st nextNumaId = (some ino, st', (getANuma sb nextNumaId).2) ∧
      st'.mem = inodeStruct.putFields st.mem p newInodeFields ∧ st'.numaDes n = { st.numaDes n with
        freeInodePhy := st.mem.load 8 (p + 72)
        freeInodeCount := (st.numaDes n).freeInodeCount - 1 } ∧
      ∀ j ≠ n, st'.numaDes j = st.numaDes j := by
  subst hn
  unfold rdfsNewInodeTake
  by_cases hc : (st.numaDes (getANuma sb nextNumaId).1).freeInodeCount = 0
  · exact Or.inl ⟨hc, by simp [hc]⟩
  · have hhead : (st.numaDes (getANuma sb nextNumaId).1).freeInodePhy ∈
        L.slots (getANuma sb nextNumaId).1 := by
      refine (h.pool _).mem_free ?_
      obtain ⟨c, hc'⟩ := Nat.exists_eq_succ_of_ne_zero hc
      rw [hc']
      exact mem_cons_self
    have hphy := (InodeLayout.of_mem_slots hhead).1
    refine Or.inr ⟨_, _, _, by omega, rfl, hhead, rfl, hphy, by rw [if_neg hc], ?_, ?_, ?_⟩
    · simp only [Nvm.setNuma_mem, hphy]
    · simp only [Nvm.setNuma_self, hphy]
      rfl
    · exact fun j hj => Nvm.setNuma_of_ne _ _ hj

theorem sameOff_newInodeFields (m : Mem) (p : ℕ) :
    Mem.SameOff m (inodeStruct.putFields m p newInodeFields) 136 p :=
  inodeStruct.sameOff_putFields p newInodeFields m (by decide)

section

variable (h : InodeInv L st live)
include h

theorem newInode : InodeInv L (rdfsNewInodeTake sb st nextNumaId).2.1
      (live ++ (rdfsNewInodeTake sb st nextNumaId).1.toList) := by
  obtain ⟨-, hr⟩ | ⟨ino, p, st', hpos, hhead, hp, rfl, hphy, hr, hm, hd, ho⟩ :=
    h.take_cases nextNumaId rfl
  · simpa [hr] using h
  · generalize (getANuma sb nextNumaId).1 = n at *
    have hnode := (InodeLayout.of_mem_slots hp).2.1
    have hframe : Mem.SameOff st.mem st'.mem 136 p := hm ▸ sameOff_newInodeFields _ _
    have hkeep : ∀ q, L.IsSlot q → q ≠ p → Mem.SameOn st.mem st'.mem 8 (q + 72) := by
      intro q hq hne
      have := InodeLayout.isSlot_disjoint hq (InodeLayout.isSlot_of_mem hp) hne
      exact hframe.sameOn (by omega)
    rw [hr]
    refine ⟨fun j => ?_, fun k hk => ?_, ?_⟩
    · by_cases hj : j = n
      · subst hj
        have hpop := (h.pool j).pop (k := 1)
        have htake : (chain st.mem 72 (st.numaDes j).freeInodePhy
            (st.numaDes j).freeInodeCount).take 1 = [p] := by
          rw [take_chain _ _ _ hpos, hhead]
          rfl
        rw [htake, hhead] at hpop
        rw [toList_some, liveSlots_append_self live hphy hnode, hd]
        refine hpop.congr fun q hq => hkeep q (InodeLayout.isSlot_of_mem (hpop.mem_free hq)) ?_
        exact hpop.ne_of_mem hq (by simp)
      · rw [toList_some, liveSlots_append_of_ne live hphy hnode hj, ho j hj]
        refine (h.pool j).congr fun q hq => hkeep q
          (InodeLayout.isSlot_of_mem ((h.pool j).mem_free hq)) ?_
        rintro rfl
        exact hj ((InodeLayout.of_mem_slots ((h.pool j).mem_free hq)).2.1.symm.trans hnode)
    · rcases mem_append.1 hk with hk | hk
      · exact h.isIno k hk
      · obtain rfl := mem_singleton.1 hk
        exact (InodeLayout.of_mem_slots hp).2.2.1
    · refine nodup_append.2 ⟨h.nodup, nodup_singleton _, ?_⟩
      rintro k hk _ hk' rfl
      obtain rfl := mem_singleton.1 hk'
      have hout := mem_liveSlots sb hk
      rw [hphy, hnode] at hout
      refine (h.pool n).ne_of_mem ?_ hout rfl
      obtain ⟨c, hc⟩ := Nat.exists_eq_succ_of_ne_zero hpos.ne'
      rw [hc, hhead]
      exact mem_cons_self

theorem freeInode {ino : ℕ} (hino : ino ∈ live) (seconds : ℕ) :
    InodeInv L (rdfsFreeInode sb st ino seconds) (live.erase ino) := by
  have hout := mem_liveSlots sb hino
  have hperm := liveSlots_erase_self sb hino
  have hother := fun {k} => liveSlots_erase_of_ne sb (k := k) hino
  simp only [rdfsFreeInode, getRdfsInodeNuma]
  rw [← getRdfsInodePhyAddr]
  generalize getRdfsInodePhyAddr sb ino = p at *
  generalize hn : rdfsGetPhysNumaId sb p = n at *
  have hp := (h.pool n).mem_out hout
  have hframe : Mem.SameOff st.mem
      (inodeStruct.putFields st.mem p [(.iDtime, seconds), (.iPgAddr, 0)]) 128 p :=
    sameOff_putFields_slot st.mem p _ (by simp)
  generalize inodeStruct.putFields st.mem p [(.iDtime, seconds), (.iPgAddr, 0)] = m at *
  have hfar : ∀ q, L.IsSlot q → q ≠ p → q + 80 ≤ p ∨ p + 128 ≤ q := by
    intro q hq hne
    have := InodeLayout.isSlot_disjoint hq (InodeLayout.isSlot_of_mem hp) hne
    omega
  refine ⟨fun j => ?_, fun k hk => h.isIno k (mem_of_mem_erase hk), h.nodup.erase _⟩
  by_cases hj : j = n
  · subst hj
    have hclear : Pool (L.slots j) m 72 (st.numaDes j).freeInodePhy
        (st.numaDes j).freeInodeCount (liveSlots sb live j) := by
      refine (h.pool j).congr fun q hq => hframe.sameOn ?_
      have := hfar q (InodeLayout.isSlot_of_mem ((h.pool j).mem_free hq))
        ((h.pool j).ne_of_mem hq hout)
      omega
    rw [Nvm.setNuma_self]
    refine (hclear.push (InodeLayout.sep_slots j) hout ?_).of_perm hperm
    obtain ⟨i, hi, rfl⟩ := InodeLayout.mem_slots.1 hp
    have := L.bound j
    simp only [InodeLayout.slot]
    omega
  · rw [Nvm.setNuma_of_ne _ _ hj]
    refine ((h.pool j).of_perm (hother hj)).congr fun q hq => ?_
    have hq' := (h.pool j).mem_free hq
    have hsep := hfar q (InodeLayout.isSlot_of_mem hq') (by
      rintro rfl
      exact hj ((InodeLayout.of_mem_slots hq').2.1.symm.trans hn))
    have hstore := (Mem.sameOff_store m 8 (p + 72) (st.numaDes n).freeInodePhy).mono
      (n := 128) (a := p) (by omega) (by omega)
    exact (hframe.trans hstore).sameOn (by omega)

theorem not_live {n : Fin 2} {p : ℕ} (hp : p ∈ freeInodes st n) : getRdfsInodenr sb p ∉ live := by
  obtain ⟨hphys, hnode, -, -⟩ := InodeLayout.of_mem_slots ((h.pool n).mem_free hp)
  intro hmem
  have hout := mem_liveSlots sb hmem
  rw [hphys, hnode] at hout
  exact (h.pool n).ne_of_mem hp hout rfl

theorem not_reserved {ino : ℕ} (hino : ino ∈ live) : ino ∉ L.reserved := by
  have hslot := (h.pool _).mem_out (mem_liveSlots sb hino)
  have hres := (InodeLayout.of_mem_slots hslot).2.2.2
  rwa [(InodeLayout.of_isIno (h.isIno ino hino)).2] at hres

theorem isSlot {ino : ℕ} (hino : ino ∈ L.reserved ++ live) : L.IsSlot (getRdfsInodePhyAddr sb ino) ∧
      getRdfsInodenr sb (getRdfsInodePhyAddr sb ino) = ino := by
  rcases mem_append.1 hino with hres | hlive
  · exact InodeLayout.of_isIno (InodeLayout.isIno_of_mem_reserved hres)
  · exact InodeLayout.of_isIno (h.isIno ino hlive)

/-- A slot that is not in use is none of an inode in use. -/
theorem ne_slot {ino : ℕ} (hino : ino ∈ L.reserved ++ live) {n : Fin 2} {p : ℕ} (hp : p ∈ L.slots n)
    (hnot : getRdfsInodenr sb p ∉ live) : p ≠ getRdfsInodePhyAddr sb ino := by
  rintro rfl
  have hres := (InodeLayout.of_mem_slots hp).2.2.2
  rw [(h.isSlot hino).2] at hnot hres
  exact (mem_append.1 hino).elim hres hnot

theorem other {st' : Nvm} (hphy : ∀ n, (st'.numaDes n).freeInodePhy = (st.numaDes n).freeInodePhy)
    (hcnt : ∀ n, (st'.numaDes n).freeInodeCount = (st.numaDes n).freeInodeCount)
    (hm : ∀ n, ∀ p ∈ L.slots n, getRdfsInodenr sb p ∉ live → Mem.SameOn st.mem st'.mem 128 p) :
    InodeInv L st' live := by
  refine ⟨fun n => ?_, h.isIno, h.nodup⟩
  rw [hphy, hcnt]
  refine (h.pool n).congr fun p hp => ?_
  have hsame := hm n p ((h.pool n).mem_free hp) (h.not_live hp)
  exact fun x h1 h2 => hsame x (by omega) (by omega)

end

end InodeInv

namespace InodeRun

variable {L : InodeLayout sb} {st : Nvm} {nextNumaId : ℕ} {live : List ℕ}

/-- Along every run a slot is free or in use, and not both. -/
theorem inodeInv (hcount : ∀ n, L.count n < 2 ^ 32) (h : InodeRun L st nextNumaId live) :
    InodeInv L st live := by
  induction h with
  | start m d nextNumaId =>
    refine ⟨fun n => ?_, by simp, nodup_nil⟩
    have hb := L.bound n
    refine Pool.start (InodeLayout.freeInodes_init hcount m d n) (InodeLayout.nodup_slots n) ?_
    simp only [InodeLayout.init, InodeLayout.slot]
    omega
  | newInode _ ih => exact ih.newInode
  | freeInode seconds hino _ ih => exact ih.freeInode hino seconds
  | other hphy hcnt hm _ ih => exact ih.other hphy hcnt hm

/-- In every state of a run, with fewer than `2 ^ 32` slots on a node : inode numbers and slots
translate into each other, distinct numbers have disjoint slots, the inodes in use have distinct
numbers, none of them reserved, a number that is handed out is fresh, and the free list of a node
visits distinct slots of the node, none of them in use. -/
theorem inode_table_spec (hcount : ∀ n, L.count n < 2 ^ 32) (h : InodeRun L st nextNumaId live) :
    (∀ p, L.IsSlot p → L.IsIno (getRdfsInodenr sb p) ∧
      getRdfsInode sb (getRdfsInodenr sb p) = rdfsVa sb p) ∧
    (∀ ino, L.IsIno ino → L.IsSlot (getRdfsInodePhyAddr sb ino) ∧
      getRdfsInodenr sb (getRdfsInodePhyAddr sb ino) = ino) ∧
    (∀ i j, L.IsIno i → L.IsIno j → i ≠ j →
      getRdfsInodePhyAddr sb i + rdfsInodeSize ≤ getRdfsInodePhyAddr sb j ∨
        getRdfsInodePhyAddr sb j + rdfsInodeSize ≤ getRdfsInodePhyAddr sb i) ∧
    live.Nodup ∧ (∀ ino ∈ live, L.IsIno ino ∧ ino ∉ L.reserved) ∧
    (∀ ino, (rdfsNewInodeTake sb st nextNumaId).1 = some ino →
      L.IsIno ino ∧ ino ∉ L.reserved ∧ ino ∉ live) ∧
    ∀ n, (freeInodes st n).Nodup ∧
      ∀ p ∈ freeInodes st n, p ∈ L.slots n ∧ getRdfsInodenr sb p ∉ live := by
  have hinv := h.inodeInv hcount
  have hafter := (InodeRun.newInode h).inodeInv hcount
  refine ⟨fun p hp => ?_, fun k hk => ?_, fun i j hi hj hne => ?_, hinv.nodup,
    fun k hk => ⟨hinv.isIno k hk, hinv.not_reserved hk⟩, fun k hk => ?_,
    fun n => ⟨?_, fun p hp => ?_⟩⟩
  · obtain ⟨n, i, hn, hi, rfl⟩ := hp
    rw [InodeLayout.getRdfsInodenr_slot hn hi, InodeLayout.getRdfsInode_ino hn]
    exact ⟨InodeLayout.isIno_iff.2 ⟨n, i, hn, hi, rfl⟩, rfl⟩
  · exact InodeLayout.of_isIno hk
  · obtain ⟨hsi, hni⟩ := InodeLayout.of_isIno hi
    obtain ⟨hsj, hnj⟩ := InodeLayout.of_isIno hj
    refine InodeLayout.isSlot_disjoint hsi hsj fun heq => hne ?_
    rw [← hni, ← hnj, heq]
  · rw [hk, toList_some] at hafter
    have hmem : k ∈ live ++ [k] := by simp
    refine ⟨hafter.isIno k hmem, hafter.not_reserved hmem, fun hlive => ?_⟩
    exact (nodup_append.1 hafter.nodup).2.2 k hlive k (by simp) rfl
  · exact (nodup_append.1 (hinv.pool n).nodup_append).1
  · exact ⟨(hinv.pool n).mem_free hp, hinv.not_live hp⟩

/-- Two nodes with two slots each : the first inode is number 4, on node 1. -/
theorem inode_table_spec_twoByTwo :
    let r := rdfsNewInodeTake twoNodes (InodeLayout.twoByTwo.init (fun _ => 0) fun _ => default) 0
    r.1 = some 4 ∧ ∀ n, ∀ p ∈ freeInodes r.2.1 n, getRdfsInodenr twoNodes p ≠ 4 := by
  intro r
  have hr : r.1 = some 4 := by decide
  have hrun := InodeRun.newInode
    (InodeRun.start (L := InodeLayout.twoByTwo) (fun _ => 0) (fun _ => default) 0)
  refine ⟨hr, fun n p hp heq => ?_⟩
  have hfree := (((inode_table_spec (by decide) hrun).2.2.2.2.2.2 n).2 p hp).2
  exact hfree (by rw [heq]; simp [show (rdfsNewInodeTake twoNodes _ 0).1 = some 4 from hr])

/-- One node that hands out `2 ^ 32` slots. -/
def hugeNode : InodeLayout oneNode where
  start n := n
  count n := if n = 0 then 2 ^ 32 else 0
  des_zero := by decide
  des_one h := by cases h
  bound := by decide
  below h := by cases h
  above h := by cases h
  single _ := rfl

/-- The `unsigned int` holds 0, so no slot is linked : the list leaves the slots with its first
step. -/
theorem hugeNode_not_linked : let st := hugeNode.init (fun _ => 0) fun _ => default
    InodeRun hugeNode st 0 [] ∧ ∃ p ∈ freeInodes st 0, p ∉ hugeNode.slots 0 := by
  intro st
  refine ⟨.start _ _ _, 0, ?_, fun hmem => ?_⟩
  · have hsecond : ∀ k, 0 ∈ chain (fun _ => 0) 72 256 (k + 2) := fun k =>
      mem_cons_of_mem _ (mem_cons.2 (.inl (by decide)))
    exact hsecond (2 ^ 32 - 2)
  · obtain ⟨i, -, hi⟩ := InodeLayout.mem_slots.1 hmem
    unfold InodeLayout.slot at hi
    omega

end InodeRun

end Rdfs
