import Rdfs.NvmInit

/-!
# The layout of one node

`rdfs_init_numa` puts a descriptor, the slot of the root inode, the other slots and the pages of a
node one behind another, and links up the slots and the pages. `NodeLaidOut` says that it did so :
all of them are apart and inside of the node, there is at least one slot and one page to hand out,
and both lists go through them in ascending order.

It does so, or refuses, unless one of two things happens (`initNuma_lays_out_iff`). In a node of
less than 12800 bytes the number of slots wraps round, and the test for 0 does not notice it. And
the slots are counted down in an `unsigned int`, so that of `2 ^ 32` slots or more the last ones are
not linked.
-/

namespace Rdfs

open List Function

/-- What is in a node, with the lengths : the descriptor, the slot of the root inode, and the slots
and the pages of the two lists. -/
def nodeBlocks (st : Nvm) (n : Fin 2) (start : ℕ) : List (ℕ × ℕ) :=
  (start, sizeofNumaDes) :: (start + sizeofNumaDes, rdfsInodeSize) ::
    ((freeInodes st n).map (·, rdfsInodeSize) ++ (freePages st n).map (·, 4096))

/-- Node `n` is laid out between `start` and `stop`. -/
structure NodeLaidOut (st : Nvm) (n : Fin 2) (start stop : ℕ) : Prop where
  slots_pos : 1 ≤ (st.numaDes n).freeInodeCount
  pages_pos : 1 ≤ (st.numaDes n).freePageCount
  slots : freeInodes st n = (List.range (st.numaDes n).freeInodeCount).map
    fun i => (st.numaDes n).freeInodePhy + rdfsInodeSize * i
  pages : freePages st n = (List.range (st.numaDes n).freePageCount).map
    fun i => (st.numaDes n).freePagePhy + 4096 * i
  aligned : ∀ p ∈ freePages st n, 4096 ∣ p
  inside : ∀ b ∈ nodeBlocks st n start, start ≤ b.1 ∧ b.1 + b.2 ≤ stop
  apart : (nodeBlocks st n start).Pairwise fun a b => a.1 + a.2 ≤ b.1 ∨ b.1 + b.2 ≤ a.1

/-- The slots of a node of that many bytes, without the first. -/
def slotCount (bytes : ℕ) : ℕ := bytes / 12800 - 1

section layout

variable {st : Nvm} {n : Fin 2} {start stop : ℕ}

/-- `2 ^ 64 - 1` slots do not fit in a node. -/
theorem NodeLaidOut.count_ne (h : NodeLaidOut st n start stop) (hlt : stop < 2 ^ 64) :
    (st.numaDes n).freeInodeCount ≠ 2 ^ 64 - 1 := by
  intro hcount
  have hmem : ((st.numaDes n).freeInodePhy + rdfsInodeSize * (2 ^ 64 - 2), rdfsInodeSize) ∈
      nodeBlocks st n start := by
    refine mem_cons_of_mem _ (mem_cons_of_mem _ (mem_append_left _ ?_))
    rw [h.slots]
    exact mem_map_of_mem (mem_map.mpr ⟨2 ^ 64 - 2, mem_range.mpr (by omega), rfl⟩)
  have hstop := (h.inside _ hmem).2
  simp only [rdfsInodeSize] at hstop
  omega

/-- The blocks of a node whose lists are in order. -/
theorem nodeBlocks_pairwise
    (hslots : freeInodes st n = (List.range (st.numaDes n).freeInodeCount).map
      fun i => (st.numaDes n).freeInodePhy + rdfsInodeSize * i)
    (hpages : freePages st n = (List.range (st.numaDes n).freePageCount).map
      fun i => (st.numaDes n).freePagePhy + 4096 * i)
    (hinode : (st.numaDes n).freeInodePhy = start + 256)
    (hle : start + 256 + 128 * (st.numaDes n).freeInodeCount ≤ (st.numaDes n).freePagePhy) :
    (nodeBlocks st n start).Pairwise fun a b => a.1 + a.2 ≤ b.1 := by
  have hslot : ∀ b ∈ (freeInodes st n).map (·, rdfsInodeSize),
      ∃ i < (st.numaDes n).freeInodeCount, b = (start + 256 + 128 * i, 128) := by
    rw [hslots, hinode]
    simp [rdfsInodeSize]
  have hpage : ∀ b ∈ (freePages st n).map (·, 4096),
      ∃ i < (st.numaDes n).freePageCount, b = ((st.numaDes n).freePagePhy + 4096 * i, 4096) := by
    rw [hpages]
    simp [eq_comm]
  have hrest : ∀ b ∈ (freeInodes st n).map (·, rdfsInodeSize) ++ (freePages st n).map (·, 4096),
      start + 256 ≤ b.1 := by
    intro b hb
    rcases mem_append.mp hb with hb | hb
    · obtain ⟨i, -, rfl⟩ := hslot b hb
      exact Nat.le_add_right _ _
    · obtain ⟨i, -, rfl⟩ := hpage b hb
      omega
  unfold nodeBlocks
  simp only [pairwise_cons, mem_cons, forall_eq_or_imp, sizeofNumaDes, rdfsInodeSize]
  simp only [rdfsInodeSize] at hrest hslots hslot
  refine ⟨⟨Nat.le_refl _, fun b hb => ?_⟩, fun b hb => ?_, pairwise_append.mpr
    ⟨?_, ?_, fun a ha b hb => ?_⟩⟩
  · have := hrest b hb
    omega
  · exact hrest b hb
  · rw [hslots, map_map, pairwise_map]
    refine pairwise_lt_range.imp fun {i j} hij => ?_
    dsimp only [comp_apply]
    omega
  · rw [hpages, map_map, pairwise_map]
    refine pairwise_lt_range.imp fun {i j} hij => ?_
    dsimp only [comp_apply]
    omega
  · obtain ⟨i, hi, rfl⟩ := hslot a ha
    obtain ⟨j, -, rfl⟩ := hpage b hb
    omega

theorem nodeLaidOut_of_lists
    (hslots : freeInodes st n = (List.range (st.numaDes n).freeInodeCount).map
      fun i => (st.numaDes n).freeInodePhy + rdfsInodeSize * i)
    (hpages : freePages st n = (List.range (st.numaDes n).freePageCount).map
      fun i => (st.numaDes n).freePagePhy + 4096 * i)
    (hinode : (st.numaDes n).freeInodePhy = start + 256)
    (hle : start + 256 + 128 * (st.numaDes n).freeInodeCount ≤ (st.numaDes n).freePagePhy)
    (hslot : 1 ≤ (st.numaDes n).freeInodeCount) (hpage : 1 ≤ (st.numaDes n).freePageCount)
    (hstop : (st.numaDes n).freePagePhy + 4096 * (st.numaDes n).freePageCount ≤ stop)
    (haligned : 4096 ∣ (st.numaDes n).freePagePhy) : NodeLaidOut st n start stop := by
  have hpairwise := nodeBlocks_pairwise hslots hpages hinode hle
  refine ⟨hslot, hpage, hslots, hpages, fun p hp => ?_, fun b hb => ?_, hpairwise.imp Or.inl⟩
  · rw [hpages] at hp
    obtain ⟨i, -, rfl⟩ := mem_map.mp hp
    exact Nat.dvd_add haligned (Nat.dvd_mul_right _ _)
  · unfold nodeBlocks at hb
    simp only [mem_cons, mem_append, hslots, hpages, map_map, mem_map,
      mem_range, comp_apply, sizeofNumaDes, rdfsInodeSize] at hb
    rcases hb with rfl | rfl | ⟨i, hi, rfl⟩ | ⟨i, hi, rfl⟩ <;> dsimp only <;> omega

/-- The links of the slots, after both lists have been linked up. -/
theorem Nvm.load_layOut {d : NumaDes} (hinode : d.freeInodePhy = start + 256)
    (hle : start + 256 + 128 * d.freeInodeCount ≤ d.freePagePhy)
    (hlt : d.freePagePhy < 2 ^ 64) {i : ℕ} (hi : i < d.freeInodeCount) :
    (st.layOut n start d).mem.load 8 (start + 256 + 128 * i + inodeStruct.offset .iPgAddr) =
      if i < d.freeInodeCount % 2 ^ 32 then start + 256 + 128 * (i + 1)
      else st.mem.load 8 (start + 256 + 128 * i + inodeStruct.offset .iPgAddr) := by
  have hoff := offset_iPgAddr
  have hmod : d.freeInodeCount % 2 ^ 32 ≤ d.freeInodeCount := Nat.mod_le _ _
  rw [layOut, setNuma_mem]
  dsimp only [rdfsInitFreeBlockListOffset, rdfsInitFreeInodeListOffset, rdfsInodeSize]
  rw [hoff, hinode]
  generalize d.freeInodeCount % 2 ^ 32 = r at hmod ⊢
  -- the pages lie behind the slots
  have hpages : Mem.SameOn
      (linkUp 128 72 r (start + 256) (st.mem.fill (sizeofNumaDes + 128) start 0))
      (linkUp 4096 0 d.freePageCount d.freePagePhy
        (linkUp 128 72 r (start + 256) (st.mem.fill (sizeofNumaDes + 128) start 0)))
      8 (start + 256 + 128 * i + 72) :=
    fun x h1 h2 => linkUp_apply _ fun j _ => by omega
  rw [Mem.load_congr hpages]
  by_cases hir : i < r
  · rw [if_pos hir]
    exact load_linkUp (by decide) _ (by omega) i hir
  · rw [if_neg hir]
    refine Mem.load_congr fun x h1 h2 => ?_
    rw [linkUp_apply _ fun j hj => by omega]
    exact Mem.sameOff_fill _ _ _ 0 x (by simp only [sizeofNumaDes]; omega)

/-- A node of at least 25600 bytes : its slots are linked up exactly if those that are not counted
were linked up before. -/
theorem Nvm.layOut_laidOut_iff (hlt : stop < 2 ^ 64) (hle : start + 25600 ≤ stop) :
    NodeLaidOut (st.layOut n start (initNumaDes64 start stop 1)) n start stop ↔
      ∀ i, slotCount (stop - start) % 2 ^ 32 ≤ i → i + 1 < slotCount (stop - start) →
        st.mem.load 8 (start + 256 + 128 * i + inodeStruct.offset .iPgAddr) =
          start + 256 + 128 * (i + 1) := by
  generalize hd : initNumaDes64 start stop 1 = d
  obtain ⟨hcount, hinode, hpage, hpages⟩ := initNumaDes64_eq hlt hle hd
  obtain ⟨-, -, hslots, hstop⟩ := initNumaDes64_bounds hlt hle hd
  have hcount' : d.freeInodeCount = slotCount (stop - start) := hcount
  have hdes : (st.layOut n start d).numaDes n = d := setNuma_self _ _ _
  have hpageList : freePages (st.layOut n start d) n =
      (List.range d.freePageCount).map fun i => d.freePagePhy + 4096 * i :=
    (st.layOut_spec n hinode hslots (by omega)).1
  -- the list of the slots is in order if all links are, the last one apart
  have hlist : freeInodes (st.layOut n start d) n = ((List.range d.freeInodeCount).map
      fun i => d.freeInodePhy + rdfsInodeSize * i) ↔
      ∀ i, d.freeInodeCount % 2 ^ 32 ≤ i → i + 1 < d.freeInodeCount →
        st.mem.load 8 (start + 256 + 128 * i + inodeStruct.offset .iPgAddr) =
          start + 256 + 128 * (i + 1) := by
    rw [freeInodes, hdes, chain_eq_stride_iff, hinode]
    simp only [rdfsInodeSize]
    constructor
    · intro h i hi hlast
      have hlink := h i hlast
      rwa [load_layOut hinode hslots (by omega) (by omega), if_neg (by omega)] at hlink
    · intro h i hlast
      rw [load_layOut hinode hslots (by omega) (by omega)]
      split_ifs with hi
      · rfl
      · exact h i (by omega) hlast
  rw [← hcount', ← hlist]
  constructor
  · intro h
    have hs := h.slots
    rwa [hdes] at hs
  · intro hslotList
    generalize st.layOut n start d = st' at hdes hpageList hslotList ⊢
    subst hdes
    exact nodeLaidOut_of_lists hslotList hpageList hinode hslots (by omega) (by omega) hstop
      (hpage ▸ Nat.dvd_mul_left _ _)

end layout

/-- A node of less than 12800 bytes is neither refused nor laid out. -/
theorem initNuma_tiny (st : Nvm) (n : Fin 2) {start stop : ℕ} (hle : start ≤ stop)
    (hlt : stop < 2 ^ 64) (htiny : stop < start + 12800) :
    (rdfsInitNumaNode st n start stop 1).1 = 0 ∧
      ¬NodeLaidOut (rdfsInitNumaNode st n start stop 1).2 n start stop := by
  have hcount : (initNumaDes64 start stop 1).freeInodeCount = 2 ^ 64 - 1 :=
    freeInodeCount_wraps hlt htiny
  have hnode : rdfsInitNumaNode st n start stop 1 =
      (0, st.layOut n start (initNumaDes64 start stop 1)) := by
    rw [rdfsInitNumaNode, if_neg (by omega)]
    exact if_neg (by rw [hcount]; decide)
  rw [hnode]
  refine ⟨rfl, fun hlaid => hlaid.count_ne hlt ?_⟩
  rw [Nvm.layOut, Nvm.setNuma_self, hcount]

/-- `rdfs_init_numa` refuses a node or lays it out, exactly if the number of slots does not wrap
round, and the slots that do not count in 32 bits were linked before. -/
theorem initNuma_lays_out_iff (st : Nvm) (n : Fin 2) {start stop : ℕ} (hle : start ≤ stop)
    (hlt : stop < 2 ^ 64) : ((rdfsInitNumaNode st n start stop 1).1 = -1 ∨
        (rdfsInitNumaNode st n start stop 1).1 = 0 ∧
          NodeLaidOut (rdfsInitNumaNode st n start stop 1).2 n start stop) ↔
      start + 12800 ≤ stop ∧
        ∀ i, slotCount (stop - start) % 2 ^ 32 ≤ i → i + 1 < slotCount (stop - start) →
          st.mem.load 8 (start + 256 + 128 * i + inodeStruct.offset .iPgAddr) =
            start + 256 + 128 * (i + 1) := by
  rcases Nat.lt_or_ge stop (start + 25600) with hshort | hlong
  swap
  · rw [rdfsInitNumaNode_ok st n hlt hlong, Nvm.layOut_laidOut_iff hlt hlong]
    exact ⟨fun h => ⟨by omega, (h.resolve_left (by simp)).2⟩, fun h => Or.inr ⟨rfl, h.2⟩⟩
  rcases Nat.lt_or_ge stop (start + 12800) with htiny | hsmall
  · obtain ⟨hret, hnot⟩ := initNuma_tiny st n hle hlt htiny
    refine iff_of_false ?_ fun h => by omega
    rintro (hneg | ⟨-, hlaid⟩)
    · rw [hret] at hneg
      exact absurd hneg (by decide)
    · exact hnot hlaid
  · have hcount := freeInodeCount_eq_zero hlt hsmall hshort
    have hret : (rdfsInitNumaNode st n start stop 1).1 = -1 := by
      rw [rdfsInitNumaNode, if_neg (by omega)]
      simp only [hcount, if_true]
    refine iff_of_true (Or.inl hret) ⟨hsmall, fun i _ hi => ?_⟩
    unfold slotCount at hi
    omega

/-- 64 kB are laid out. -/
theorem initNuma_lays_out_small :
    (rdfsInitNumaNode ⟨fun _ => 0, fun _ => default⟩ 0 0x100000 0x110000 1).1 = 0 ∧
      NodeLaidOut (rdfsInitNumaNode ⟨fun _ => 0, fun _ => default⟩ 0 0x100000 0x110000 1).2 0
        0x100000 0x110000 := by
  have hcount : slotCount (0x110000 - 0x100000) = 4 := rfl
  refine ((initNuma_lays_out_iff ⟨fun _ => 0, fun _ => default⟩ 0 (by decide) (by decide)).mpr
    ⟨by decide, fun i h1 h2 => by omega⟩).resolve_left ?_
  rw [rdfsInitNumaNode_ok _ _ (by decide) (by decide)]
  decide

/-- One page is taken for a node with `2 ^ 64 - 1` slots. -/
theorem initNuma_page_not_laid_out :
    (rdfsInitNumaNode ⟨fun _ => 0, fun _ => default⟩ 0 0x100000 0x101000 1).1 = 0 ∧
      ¬NodeLaidOut (rdfsInitNumaNode ⟨fun _ => 0, fun _ => default⟩ 0 0x100000 0x101000 1).2 0
        0x100000 0x101000 :=
  initNuma_tiny _ 0 (by decide) (by decide) (by decide)

end Rdfs
