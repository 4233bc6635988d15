import Rdfs.Region

/-!
# Laying out the nodes

`rdfs_nvm_init` decides whether the region has one node or two that meet at the NUMA line, and has
`rdfs_init_numa` lay out each of them. Nothing looks at what `rdfs_init_numa` returns, and the
number of slots is computed in 64 bits : a node of less than 12800 bytes gets `2 ^ 64 - 1` of them,
and one of less than 25600 bytes none, which is an error. `NvmMount.Ok` is what the operations on
pages and slots take for granted of the nodes. It holds exactly when every node has room for a slot
to hand out (`rdfsNvmInit_spec`), which the descriptors of the block devices can prevent by reaching
over the line (`first_node_not_laid_out`).
-/

namespace Rdfs

open List

/-! ## The code -/

/-- The list heads and lengths `rdfs_init_numa` computes, in 64 bits. -/
def initNumaDes64 (start stop percentage : ℕ) : NumaDes :=
  let freeInodePhy := (start + sizeofNumaDes + rdfsInodeSize) % 2 ^ 64
  let share : ℕ := (stop - start) * percentage % 2 ^ 64 / 100 / rdfsInodeSize
  let freeInodeCount := u64 (share - 1)
  let freePagePhy : ℕ :=
    (freeInodePhy + freeInodeCount * rdfsInodeSize + 4096 - 1) % 2 ^ 64 / 4096 * 4096
  { freeInodePhy, freeInodeCount, freePagePhy, freePageCount := u64 (stop - freePagePhy) >>> 12 }

/-- The node with its descriptor `d`, and both lists linked up. -/
def Nvm.layOut (st : Nvm) (n : Fin 2) (start : ℕ) (d : NumaDes) : Nvm :=
  { st with
    mem := rdfsInitFreeBlockListOffset d (rdfsInitFreeInodeListOffset d
      (st.mem.fill (sizeofNumaDes + rdfsInodeSize) start 0)) }.setNuma n d

/-- `rdfs_init_numa` for node `n`, with its return value. -/
def rdfsInitNumaNode (st : Nvm) (n : Fin 2) (start stop percentage : ℕ) : ℤ × Nvm :=
  if stop < start then (-1, st)
  else
    let d := initNumaDes64 start stop percentage
    if d.freeInodeCount = 0 then
      (-1, { st with mem := st.mem.fill (sizeofNumaDes + rdfsInodeSize) start 0 }.setNuma n
        ⟨0, 0, d.freeInodePhy, 0⟩)
    else (0, st.layOut n start d)

/-- What `rdfs_nvm_init` reads of `struct rdfs_sb_info`. -/
structure SbInfo where
  phyAddr : ℕ
  virtAddr : ℕ
  blocksize : ℕ
  bpi : ℕ
  phy_le_virt : phyAddr ≤ virtAddr

/-- `s_blocksize` : `rdfs_set_blocksize` rounds an `int` down to a power of two. -/
def SbInfo.sBlocksize (sbi : SbInfo) : ℕ :=
  2 ^ ((if sbi.blocksize = 0 then 4096 else sbi.blocksize) % 2 ^ 32).log2

/-- `bpi`, 1 by default. -/
def SbInfo.percentage (sbi : SbInfo) : ℕ := if sbi.bpi = 0 then 1 else sbi.bpi

/-- `rdfs_va` before the super block is written. -/
def SbInfo.va (sbi : SbInfo) (phys : ℕ) : ℕ := phys + sbi.virtAddr - sbi.phyAddr

/-- `rdfs_pa` before the super block is written. -/
def SbInfo.pa (sbi : SbInfo) (virt : ℕ) : ℕ := virt + sbi.phyAddr - sbi.virtAddr

theorem SbInfo.pa_va (sbi : SbInfo) (phys : ℕ) : sbi.pa (sbi.va phys) = phys := by
  have := sbi.phy_le_virt
  unfold pa va
  omega

/-- The super block with `s_numa_flag` and `s_numa_des`. -/
def SbInfo.super (sbi : SbInfo) (sNumaFlag : Bool) (endBdev : ℕ) : Super where
  phyAddr := sbi.phyAddr
  virtAddr := sbi.virtAddr
  sNumaFlag := sNumaFlag
  sNumaDes n :=
    if n = 0 then endBdev
    else if sNumaFlag then sbi.va rdfsNumaLine
    else 0
  phy_le_virt := sbi.phy_le_virt

/-- The super block and the nodes after `rdfs_nvm_init`; `ret` is what `rdfs_init_numa` returned for
each node. -/
structure NvmMount where
  super : Super
  ret : Fin 2 → ℤ
  nvm : Nvm

/-- The part of `rdfs_nvm_init` that lays out the nodes. -/
def layOutNodes (sbi : SbInfo) (st : Nvm) (size endBdev : ℕ) : NvmMount :=
  let physaddr := sbi.phyAddr
  let physBdevEnd := sbi.pa endBdev
  if physaddr + size < rdfsNumaLine ∨ rdfsNumaLine < physaddr then
    let r := rdfsInitNumaNode st 0 physBdevEnd (physaddr + size) sbi.percentage
    ⟨sbi.super false endBdev, fun _ => r.1, r.2⟩
  else
    let r₀ := rdfsInitNumaNode st 0 physBdevEnd rdfsNumaLine sbi.percentage
    let r₁ := rdfsInitNumaNode r₀.2 1 rdfsNumaLine (physaddr + size) sbi.percentage
    ⟨sbi.super true endBdev, fun n => if n = 0 then r₀.1 else r₁.1, r₁.2⟩

/-- `rdfs_nvm_init`, up to the nodes. -/
def rdfsNvmInit (sbi : SbInfo) (st : Nvm) (size endBdev : ℕ) : Except ℤ NvmMount :=
  if sbi.virtAddr = 0 then .error (-22)
  else if size < sbi.sBlocksize then .error (-22)
  else .ok (layOutNodes sbi st size endBdev)

theorem rdfsNvmInit_eq (sbi : SbInfo) {size : ℕ} (st : Nvm) (endBdev : ℕ) (h : sbi.virtAddr ≠ 0)
    (hsize : sbi.sBlocksize ≤ size) :
    rdfsNvmInit sbi st size endBdev = .ok (layOutNodes sbi st size endBdev) := by
  rw [rdfsNvmInit, if_neg h, if_neg (not_lt.2 hsize)]

/-! ## What is expected of the nodes -/

namespace NvmMount

/-- The nodes that `s_numa_des` leads to. -/
def nodes (r : NvmMount) : List (Fin 2) := if r.super.sNumaFlag then [0, 1] else [0]

theorem zero_mem_nodes (r : NvmMount) : 0 ∈ r.nodes := by
  unfold nodes
  split_ifs <;> simp

theorem one_mem_nodes {r : NvmMount} (h : r.super.sNumaFlag = true) : 1 ∈ r.nodes := by
  rw [nodes, if_pos h]
  simp

/-- The `i`-th slot behind the descriptor of node `n`, in 64 bits. -/
def slot (r : NvmMount) (n : Fin 2) (i : ℕ) : ℕ :=
  (rdfsPa r.super (r.super.sNumaDes n) + sizeofNumaDes + rdfsInodeSize * i) % 2 ^ 64

/-- The free pages and the slots of node `n`, each with its length. -/
def blocks (r : NvmMount) (n : Fin 2) : List (ℕ × ℕ) :=
  (freePages r.nvm n).map (·, 4096) ++
    (List.range ((r.nvm.numaDes n).freeInodeCount + 1)).map fun i => (r.slot n i, rdfsInodeSize)

/-- Every node has been laid out, its free pages lie in the region behind the descriptors of the
block devices, pages and slots are apart from each other, and their addresses tell their node. -/
structure Ok (r : NvmMount) (physaddr size physBdevEnd : ℕ) : Prop where
  init : ∀ n ∈ r.nodes, r.ret n = 0
  inside : ∀ n ∈ r.nodes, ∀ p ∈ freePages r.nvm n,
    physaddr ≤ p ∧ physBdevEnd ≤ p ∧ p + 4096 ≤ physaddr + size
  apart : (r.nodes.flatMap r.blocks).Pairwise fun a b => a.1 + a.2 ≤ b.1 ∨ b.1 + b.2 ≤ a.1
  node : ∀ n ∈ r.nodes, ∀ b ∈ r.blocks n, rdfsGetPhysNumaId r.super b.1 = n

end NvmMount

/-- Every node has room for its descriptor, the first slot, one to hand out and the pages. -/
def NodesFit (physaddr size physBdevEnd : ℕ) : Prop :=
  if physaddr + size < rdfsNumaLine ∨ rdfsNumaLine < physaddr then
    physBdevEnd + 25600 ≤ physaddr + size
  else physBdevEnd + 25600 ≤ rdfsNumaLine ∧ rdfsNumaLine + 25600 ≤ physaddr + size

/-! ## One node -/

section Node

variable {start stop : ℕ}

section

variable (h : stop < 2 ^ 64)
include h

theorem initNumaDes64_freeInodeCount :
    (initNumaDes64 start stop 1).freeInodeCount = u64 (((stop - start) / 12800 : ℕ) - 1) := by
  simp only [initNumaDes64, rdfsInodeSize, mul_one]
  rw [Nat.mod_eq_of_lt (by omega), Nat.div_div_eq_div_mul]

/-- A node of less than 12800 bytes : the number of slots wraps round. -/
theorem freeInodeCount_wraps (hlt : stop < start + 12800) :
    (initNumaDes64 start stop 1).freeInodeCount = 2 ^ 64 - 1 := by
  rw [initNumaDes64_freeInodeCount h, Nat.div_eq_of_lt (by omega)]
  rfl

/-- A node of less than 25600 bytes : only the first slot. -/
theorem freeInodeCount_eq_zero (hle : start + 12800 ≤ stop) (hlt : stop < start + 25600) :
    (initNumaDes64 start stop 1).freeInodeCount = 0 := by
  have hone : (stop - start) / 12800 = 1 := by omega
  rw [initNumaDes64_freeInodeCount h, hone]
  rfl

section

variable {d : NumaDes} (hle : start + 25600 ≤ stop) (hd : initNumaDes64 start stop 1 = d)
include hle hd

/-- A larger node : nothing wraps round. -/
theorem initNumaDes64_eq :
    d.freeInodeCount = (stop - start) / 12800 - 1 ∧ d.freeInodePhy = start + 256 ∧
      d.freePagePhy = (start + 256 + d.freeInodeCount * 128 + 4095) / 4096 * 4096 ∧
      d.freePageCount = (stop - d.freePagePhy) / 4096 := by
  generalize hk : (stop - start) / 12800 = k
  have hcount : d.freeInodeCount = k - 1 := by
    rw [← hd, initNumaDes64_freeInodeCount h, hk,
      show ((k : ℕ) : ℤ) - 1 = ((k - 1 : ℕ) : ℤ) by omega, u64_natCast (by omega)]
  have hinode : d.freeInodePhy = start + 256 := by
    rw [← hd]
    exact Nat.mod_eq_of_lt (by simp only [sizeofNumaDes, rdfsInodeSize]; omega)
  have hpage : d.freePagePhy = (start + 256 + d.freeInodeCount * 128 + 4095) / 4096 * 4096 := by
    have hdef : d.freePagePhy = (d.freeInodePhy + d.freeInodeCount * 128 + 4096 - 1) % 2 ^ 64 /
        4096 * 4096 := by rw [← hd]; rfl
    rw [hdef, hinode, hcount, Nat.mod_eq_of_lt (by omega)]
    rfl
  have hpages : d.freePageCount = (stop - d.freePagePhy) / 4096 := by
    have hdef : d.freePageCount = u64 (stop - d.freePagePhy) >>> 12 := by rw [← hd]; rfl
    rw [hdef, show ((stop : ℤ) - d.freePagePhy) = ((stop - d.freePagePhy : ℕ) : ℤ) by omega,
      u64_natCast (by omega), Nat.shiftRight_eq_div_pow]
  exact ⟨hk ▸ hcount, hinode, hpage, hpages⟩

/-- Slots and pages fit in it, one behind the other. -/
theorem initNumaDes64_bounds : d.freeInodeCount ≠ 0 ∧ d.freeInodePhy = start + 256 ∧
      start + 256 + 128 * d.freeInodeCount ≤ d.freePagePhy ∧
      d.freePagePhy + 4096 * d.freePageCount ≤ stop := by
  obtain ⟨hcount, hinode, hpage, hpages⟩ := initNumaDes64_eq h hle hd
  refine ⟨by omega, hinode, by omega, by omega⟩

end

end

/-- `rdfs_init_numa` returns 0 for a node of at least 25600 bytes, and for one whose count wraps
round. -/
theorem rdfsInitNumaNode_ret (st : Nvm) (n : Fin 2) (h : stop < 2 ^ 64)
    (hr : (rdfsInitNumaNode st n start stop 1).1 = 0) :
    (rdfsInitNumaNode st n start stop 1).2.numaDes n = initNumaDes64 start stop 1 ∧
      (start + 25600 ≤ stop ∨ (initNumaDes64 start stop 1).freeInodeCount = 2 ^ 64 - 1) := by
  unfold rdfsInitNumaNode at hr ⊢
  by_cases hlt : stop < start
  · simp [hlt] at hr
  rw [if_neg hlt] at hr ⊢
  by_cases hzero : (initNumaDes64 start stop 1).freeInodeCount = 0
  · simp [hzero] at hr
  rw [if_neg hzero]
  refine ⟨Nvm.setNuma_self _ _ _, ?_⟩
  rcases Nat.lt_or_ge stop (start + 12800) with hshort | hlong
  · exact Or.inr (freeInodeCount_wraps h hshort)
  · refine Or.inl (not_lt.1 fun hshort => hzero ?_)
    exact freeInodeCount_eq_zero h hlong hshort

/-- What is behind a node that fits between its ends. -/
theorem Nvm.layOut_spec (st : Nvm) (n : Fin 2) {d : NumaDes} (hinode : d.freeInodePhy = start + 256)
    (hslots : start + 256 + 128 * d.freeInodeCount ≤ d.freePagePhy)
    (hpages : d.freePagePhy + 4096 * d.freePageCount < 2 ^ 64) : freePages (st.layOut n start d) n =
        (List.range d.freePageCount).map (fun i => d.freePagePhy + 4096 * i) ∧
      ∀ x < start, (st.layOut n start d).mem x = st.mem x := by
  refine ⟨?_, fun x hx => ?_⟩
  · rw [freePages, layOut, setNuma_self, setNuma_mem]
    exact chain_linkUp 0 (by decide) _ hpages
  · rw [layOut, setNuma_mem]
    dsimp only [rdfsInitFreeBlockListOffset, rdfsInitFreeInodeListOffset]
    rw [linkUp_apply _ fun i hi => by omega, linkUp_apply _ fun i hi => by omega]
    exact Mem.sameOff_fill _ _ _ 0 x (by omega)

/-- A node of at least 25600 bytes is laid out. -/
theorem rdfsInitNumaNode_ok (st : Nvm) (n : Fin 2) (h : stop < 2 ^ 64)
    (hle : start + 25600 ≤ stop) :
    rdfsInitNumaNode st n start stop 1 = (0, st.layOut n start (initNumaDes64 start stop 1)) := by
  have hcount := (initNumaDes64_bounds h hle rfl).1
  rw [rdfsInitNumaNode, if_neg (by omega)]
  exact if_neg hcount

end Node

theorem rdfsInitNumaNode_numaDes_of_ne (st : Nvm) {n k : Fin 2} (start stop percentage : ℕ)
    (hk : k ≠ n) : (rdfsInitNumaNode st n start stop percentage).2.numaDes k = st.numaDes k := by
  unfold rdfsInitNumaNode
  by_cases hlt : stop < start
  · rw [if_pos hlt]
  · rw [if_neg hlt]
    dsimp only
    split_ifs
    · exact Nvm.setNuma_of_ne _ _ hk
    · exact Nvm.setNuma_of_ne _ _ hk

/-! ## Regions

`Region` computes without bounds. Where the share of the slots does not wrap round and a node has a
slot to hand out, this is what `rdfs_init_numa` does. -/

namespace Region

variable {sb : Super} (R : Region sb)

/-- Node `n` has a slot to hand out, and the product its number is computed from fits 64 bits. -/
def HasSlots (n : Fin 2) : Prop :=
  0 < (R.des n).freeInodeCount ∧ (R.stop n - R.start n) * R.percentage < 2 ^ 64

variable {R}

section

variable {n : Fin 2} (h : R.HasSlots n) (hn : n = 0 ∨ sb.sNumaFlag = true)
include h hn

theorem HasSlots.initNumaDes64 : initNumaDes64 (R.start n) (R.stop n) R.percentage = R.des n := by
  obtain ⟨hpos, hshare⟩ := h
  have hstop := R.stop_lt n
  have hfits : (R.des n).freePagePhy ≤ R.stop n := R.fits n hn
  simp only [des, initNumaDes, Rdfs.initNumaDes64, sizeofNumaDes, rdfsInodeSize] at hpos hfits ⊢
  rw [Nat.mod_eq_of_lt hshare]
  obtain ⟨c, hc⟩ : ∃ c, (R.stop n - R.start n) * R.percentage / 100 / 128 = c := ⟨_, rfl⟩
  rw [hc] at hpos hfits ⊢
  have hcount : u64 ((c : ℤ) - 1) = c - 1 := by
    rw [show (c : ℤ) - 1 = ((c - 1 : ℕ) : ℤ) by omega, u64_natCast (by omega)]
  rw [hcount, Nat.mod_eq_of_lt (by omega),
    Nat.mod_eq_of_lt (by omega), ← Int.ofNat_sub hfits, u64_natCast (by omega)]

theorem HasSlots.initNumaNode (st : Nvm) :
    rdfsInitNumaNode st n (R.start n) (R.stop n) R.percentage =
      (0, { st with mem := rdfsInitNuma st.mem (R.start n) (R.stop n) R.percentage }.setNuma n
        (R.des n)) := by
  have hle : R.start n ≤ R.stop n := by
    have := (R.des_bounds n).2.1
    have : (R.des n).freePagePhy ≤ R.stop n := R.fits n hn
    omega
  rw [rdfsInitNumaNode, if_neg (by omega), h.initNumaDes64 hn]
  exact if_neg h.1.ne'

end

/-- The nodes of a region once `rdfs_init_numa` has been called for each of them. -/
theorem initNumaNode_mount (h : ∀ n, n = 0 ∨ sb.sNumaFlag = true → R.HasSlots n) (st : Nvm) :
    let r₀ := rdfsInitNumaNode st 0 (R.start 0) (R.stop 0) R.percentage
    let r₁ := if sb.sNumaFlag = true then
        rdfsInitNumaNode r₀.2 1 (R.start 1) (R.stop 1) R.percentage
      else r₀
    r₀.1 = 0 ∧ r₁.1 = 0 ∧ r₁.2.mem = (R.mount st.mem).mem ∧
      ∀ n, n = 0 ∨ sb.sNumaFlag = true → r₁.2.numaDes n = (R.mount st.mem).numaDes n := by
  simp only [(h 0 (.inl rfl)).initNumaNode (.inl rfl), mount]
  by_cases hf : sb.sNumaFlag = true
  · simp only [if_pos hf, (h 1 (.inr hf)).initNumaNode (.inr hf)]
    refine ⟨trivial, trivial, rfl, fun n _ => ?_⟩
    rcases node_cases n with rfl | rfl
    · rw [Nvm.setNuma_of_ne _ _ (by decide)]
      dsimp only
      exact Nvm.setNuma_self _ _ _
    · exact Nvm.setNuma_self _ _ _
  · simp only [if_neg hf]
    refine ⟨trivial, trivial, rfl, fun n hn => ?_⟩
    obtain rfl := hn.resolve_right hf
    exact Nvm.setNuma_self _ _ _

end Region

/-! ## All nodes -/

namespace NvmMount

variable {r : NvmMount} {n : Fin 2} {start stop physaddr size physBdevEnd : ℕ}

/-- Node `n` has been laid out between `start` and `stop`. -/
structure Laid (r : NvmMount) (n : Fin 2) (start stop : ℕ) : Prop where
  ret : r.ret n = 0
  des : rdfsPa r.super (r.super.sNumaDes n) = start
  pages : freePages r.nvm n = (List.range (r.nvm.numaDes n).freePageCount).map
    fun i => (r.nvm.numaDes n).freePagePhy + 4096 * i
  slots_le : start + 256 + 128 * (r.nvm.numaDes n).freeInodeCount ≤ (r.nvm.numaDes n).freePagePhy
  pages_le : (r.nvm.numaDes n).freePagePhy + 4096 * (r.nvm.numaDes n).freePageCount ≤ stop
  stop_lt : stop < 2 ^ 64

namespace Laid

section

variable (h : r.Laid n start stop)
include h

theorem page_mem {p : ℕ} (hp : p ∈ freePages r.nvm n) :
    ∃ i < (r.nvm.numaDes n).freePageCount, p = (r.nvm.numaDes n).freePagePhy + 4096 * i := by
  rw [h.pages, mem_map] at hp
  obtain ⟨i, hi, rfl⟩ := hp
  exact ⟨i, mem_range.1 hi, rfl⟩

theorem slot_eq {i : ℕ} (hi : i ≤ (r.nvm.numaDes n).freeInodeCount) :
    r.slot n i = start + 128 + 128 * i := by
  have := h.slots_le
  have := h.pages_le
  have := h.stop_lt
  rw [slot, h.des]
  exact Nat.mod_eq_of_lt (by simp only [sizeofNumaDes, rdfsInodeSize]; omega)

/-- The pages and the slots of the node lie between its ends, behind its descriptor. -/
theorem block_bounds {b : ℕ × ℕ} (hb : b ∈ r.blocks n) : start < b.1 ∧ b.1 + b.2 ≤ stop := by
  have hslots := h.slots_le
  have hpages := h.pages_le
  rcases mem_append.1 hb with hb | hb
  · obtain ⟨p, hp, rfl⟩ := mem_map.1 hb
    obtain ⟨i, hi, rfl⟩ := h.page_mem hp
    omega
  · obtain ⟨i, hi, rfl⟩ := mem_map.1 hb
    have hi := mem_range.1 hi
    rw [h.slot_eq (by omega)]
    simp only [rdfsInodeSize]
    omega

theorem page_bounds {p : ℕ} (hp : p ∈ freePages r.nvm n) : start < p ∧ p + 4096 ≤ stop :=
  h.block_bounds (mem_append_left _ (mem_map.2 ⟨p, hp, rfl⟩))

theorem pairwise : (r.blocks n).Pairwise fun a b => a.1 + a.2 ≤ b.1 ∨ b.1 + b.2 ≤ a.1 := by
  have hslots := h.slots_le
  refine pairwise_append.2 ⟨?_, ?_, fun a ha b hb => ?_⟩
  · rw [h.pages, map_map, pairwise_map]
    refine pairwise_lt_range.imp fun {i j} hij => ?_
    dsimp only [Function.comp_apply]
    omega
  · rw [pairwise_map]
    refine pairwise_lt_range.imp_of_mem fun {i j} hi hj hij => ?_
    have hj := mem_range.1 hj
    rw [h.slot_eq (by omega), h.slot_eq (by omega)]
    simp only [rdfsInodeSize]
    omega
  · obtain ⟨p, hp, rfl⟩ := mem_map.1 ha
    obtain ⟨i, hi, rfl⟩ := h.page_mem hp
    obtain ⟨j, hj, rfl⟩ := mem_map.1 hb
    have hj := mem_range.1 hj
    rw [h.slot_eq (by omega)]
    simp only [rdfsInodeSize]
    omega

end

end Laid

/-- A node of at least 25600 bytes that has the descriptor and the list it was given. -/
theorem Laid.of_des (hret : r.ret n = 0) (hdes : rdfsPa r.super (r.super.sNumaDes n) = start)
    (hnuma : r.nvm.numaDes n = initNumaDes64 start stop 1) (h : stop < 2 ^ 64)
    (hle : start + 25600 ≤ stop)
    (hpages : freePages r.nvm n = (List.range (initNumaDes64 start stop 1).freePageCount).map
      fun i => (initNumaDes64 start stop 1).freePagePhy + 4096 * i) : r.Laid n start stop := by
  obtain ⟨-, -, hslots, hstop⟩ := initNumaDes64_bounds h hle rfl
  rw [← hnuma] at hpages hslots hstop
  exact ⟨hret, hdes, hpages, hslots, hstop, h⟩

/-- One node. -/
theorem Laid.ok (h : r.Laid 0 start stop) (hflag : r.super.sNumaFlag = false)
    (hstart : physaddr ≤ start) (hstop : stop = physaddr + size) : r.Ok physaddr size start := by
  have hnodes : r.nodes = [0] := by rw [nodes, hflag]; rfl
  refine ⟨?_, ?_, ?_, ?_⟩ <;> rw [hnodes]
  · simpa using h.ret
  · simp only [mem_singleton, forall_eq]
    intro p hp
    have := h.page_bounds hp
    omega
  · rw [flatMap_singleton]
    exact h.pairwise
  · simp only [mem_singleton, forall_eq]
    intro b _
    rw [rdfsGetPhysNumaId, hflag]
    simp

/-- Two nodes that meet at the line. -/
theorem Laid.ok_two (h₀ : r.Laid 0 start rdfsNumaLine) (h₁ : r.Laid 1 rdfsNumaLine stop)
    (hflag : r.super.sNumaFlag = true) (hstart : physaddr ≤ start) (hstop : stop = physaddr + size)
    (hline : rdfsNumaLine ≤ stop) : r.Ok physaddr size start := by
  have hnodes : r.nodes = [0, 1] := by rw [nodes, hflag]; rfl
  have hbelow : start ≤ rdfsNumaLine := by
    have := h₀.slots_le
    have := h₀.pages_le
    omega
  refine ⟨?_, ?_, ?_, ?_⟩ <;> rw [hnodes]
  · simpa using ⟨h₀.ret, h₁.ret⟩
  · simp only [mem_cons, not_mem_nil, or_false, forall_eq_or_imp, forall_eq]
    refine ⟨fun p hp => ?_, fun p hp => ?_⟩
    · have := h₀.page_bounds hp
      omega
    · have := h₁.page_bounds hp
      omega
  · simp only [flatMap_cons, flatMap_nil, append_nil]
    refine pairwise_append.2 ⟨h₀.pairwise, h₁.pairwise, fun a ha b hb => Or.inl ?_⟩
    have := h₀.block_bounds ha
    have := h₁.block_bounds hb
    omega
  · simp only [mem_cons, not_mem_nil, or_false, forall_eq_or_imp, forall_eq]
    refine ⟨fun b hb => ?_, fun b hb => ?_⟩
    · have := h₀.block_bounds hb
      exact if_neg fun hc => by omega
    · exact if_pos ⟨hflag, (h₁.block_bounds hb).1⟩

/-- Two of `2 ^ 64` slots have the same address. -/
theorem Ok.freeInodeCount_ne (h : r.Ok physaddr size physBdevEnd) (hn : n ∈ r.nodes) :
    (r.nvm.numaDes n).freeInodeCount ≠ 2 ^ 64 - 1 := by
  intro hcount
  have hapart : (r.blocks n).Pairwise fun a b => a.1 + a.2 ≤ b.1 ∨ b.1 + b.2 ≤ a.1 :=
    (pairwise_flatMap.1 h.apart).1 n hn
  have hslots := (pairwise_append.1 hapart).2.1
  rw [pairwise_map, pairwise_iff_getElem] at hslots
  have hlen : 2 ^ 57 < (List.range ((r.nvm.numaDes n).freeInodeCount + 1)).length := by
    rw [length_range]
    omega
  have hpair := hslots 0 (2 ^ 57) (Nat.zero_lt_of_lt hlen) hlen (by decide)
  rw [getElem_range, getElem_range] at hpair
  have hsame : r.slot n 0 = r.slot n (2 ^ 57) := by
    rw [slot, slot, rdfsInodeSize]
    omega
  rw [hsame] at hpair
  simp only [rdfsInodeSize] at hpair
  omega

/-- A node that is as expected has room for a slot to hand out. -/
theorem Ok.fits (h : r.Ok physaddr size physBdevEnd) (hn : n ∈ r.nodes) (st : Nvm)
    (hret : r.ret n = (rdfsInitNumaNode st n start stop 1).1)
    (hdes : r.nvm.numaDes n = (rdfsInitNumaNode st n start stop 1).2.numaDes n)
    (hlt : stop < 2 ^ 64) : start + 25600 ≤ stop := by
  obtain ⟨hnode, hfit | hwraps⟩ := rdfsInitNumaNode_ret st n hlt (hret.symm.trans (h.init n hn))
  · exact hfit
  · refine absurd ?_ (h.freeInodeCount_ne hn)
    rw [hdes, hnode, hwraps]

end NvmMount

section

variable {sbi : SbInfo} {st : Nvm} {r : NvmMount} {size b : ℕ}

/-- What `rdfs_nvm_init` does, the descriptors of the block devices ending at `b`. -/
theorem rdfsNvmInit_cases (hbpi : sbi.bpi = 0) (hr : rdfsNvmInit sbi st size (sbi.va b) = .ok r) :
    (∃ f : ℤ × Nvm, (sbi.phyAddr + size < rdfsNumaLine ∨ rdfsNumaLine < sbi.phyAddr) ∧
      rdfsInitNumaNode st 0 b (sbi.phyAddr + size) 1 = f ∧
      r = ⟨sbi.super false (sbi.va b), fun _ => f.1, f.2⟩) ∨
    ∃ f g : ℤ × Nvm, ¬(sbi.phyAddr + size < rdfsNumaLine ∨ rdfsNumaLine < sbi.phyAddr) ∧
      rdfsInitNumaNode st 0 b rdfsNumaLine 1 = f ∧
      rdfsInitNumaNode f.2 1 rdfsNumaLine (sbi.phyAddr + size) 1 = g ∧
      r = ⟨sbi.super true (sbi.va b), fun n => if n = 0 then f.1 else g.1, g.2⟩ := by
  have hone : sbi.percentage = 1 := by rw [SbInfo.percentage, if_pos hbpi]
  unfold rdfsNvmInit at hr
  split_ifs at hr with hvirt hsize
  obtain rfl := Except.ok.inj hr
  rw [layOutNodes, sbi.pa_va, hone]
  split_ifs with hline
  · exact Or.inl ⟨_, hline, rfl, rfl⟩
  · exact Or.inr ⟨_, _, hline, rfl, rfl, rfl⟩

/-- One node with room. -/
theorem laid_single (hlt : sbi.phyAddr + size < 2 ^ 64) (hfit : b + 25600 ≤ sbi.phyAddr + size)
    {f : ℤ × Nvm} (hf : rdfsInitNumaNode st 0 b (sbi.phyAddr + size) 1 = f) :
    NvmMount.Laid ⟨sbi.super false (sbi.va b), fun _ => f.1, f.2⟩ 0 b (sbi.phyAddr + size) := by
  obtain ⟨-, hinode, hslots, hpages⟩ := initNumaDes64_bounds hlt hfit rfl
  rw [rdfsInitNumaNode_ok st 0 hlt hfit] at hf
  subst hf
  exact NvmMount.Laid.of_des rfl (sbi.pa_va b) (Nvm.setNuma_self _ _ _) hlt hfit
    (Nvm.layOut_spec st 0 hinode hslots (by omega)).1

/-- Two nodes with room : the second is laid out behind the first. -/
theorem laid_two (hlt : sbi.phyAddr + size < 2 ^ 64) (hfit₀ : b + 25600 ≤ rdfsNumaLine)
    (hfit₁ : rdfsNumaLine + 25600 ≤ sbi.phyAddr + size) {f g : ℤ × Nvm}
    (hf : rdfsInitNumaNode st 0 b rdfsNumaLine 1 = f)
    (hg : rdfsInitNumaNode f.2 1 rdfsNumaLine (sbi.phyAddr + size) 1 = g) {r : NvmMount}
    (hr : r = ⟨sbi.super true (sbi.va b), fun n => if n = 0 then f.1 else g.1, g.2⟩) :
    r.Laid 0 b rdfsNumaLine ∧ r.Laid 1 rdfsNumaLine (sbi.phyAddr + size) := by
  have hline : rdfsNumaLine < 2 ^ 64 := by decide
  obtain ⟨-, hinode₀, hslots₀, hpages₀⟩ := initNumaDes64_bounds hline hfit₀ rfl
  obtain ⟨-, hinode₁, hslots₁, hpages₁⟩ := initNumaDes64_bounds hlt hfit₁ rfl
  rw [rdfsInitNumaNode_ok st 0 hline hfit₀] at hf
  subst hf
  rw [rdfsInitNumaNode_ok _ 1 hlt hfit₁] at hg
  subst hg
  obtain ⟨hlist₀, -⟩ := Nvm.layOut_spec st 0 hinode₀ hslots₀ (by omega)
  generalize hst₀ : st.layOut 0 b (initNumaDes64 b rdfsNumaLine 1) = st₀
  have hdes₀ : st₀.numaDes 0 = initNumaDes64 b rdfsNumaLine 1 := hst₀ ▸ Nvm.setNuma_self _ _ _
  rw [hst₀] at hlist₀ hr
  obtain ⟨hlist₁, hsame⟩ := Nvm.layOut_spec st₀ 1 hinode₁ hslots₁ (by omega)
  subst hr
  refine ⟨NvmMount.Laid.of_des rfl (sbi.pa_va b) ?_ hline hfit₀ ?_,
    NvmMount.Laid.of_des rfl (sbi.pa_va _) (Nvm.setNuma_self _ _ _) hlt hfit₁ hlist₁⟩
  · exact (Nvm.setNuma_of_ne _ _ (by decide)).trans hdes₀
  · rw [← hlist₀]
    refine freePages_congr ?_ ?_ fun p hp x _ hx => hsame x ?_
    · rw [Nvm.layOut, Nvm.setNuma_of_ne _ _ (by decide)]
    · rw [Nvm.layOut, Nvm.setNuma_of_ne _ _ (by decide)]
    · rw [hlist₀] at hp
      obtain ⟨i, hi, rfl⟩ := mem_map.1 hp
      have := mem_range.1 hi
      omega

/-- The nodes are as expected exactly when every one has room for a slot to hand out. -/
theorem rdfsNvmInit_spec (hbpi : sbi.bpi = 0)
    (hr : rdfsNvmInit sbi st size (sbi.va b) = .ok r) (hb : sbi.phyAddr ≤ b)
    (hlt : sbi.phyAddr + size < 2 ^ 64) :
    r.Ok sbi.phyAddr size b ↔ NodesFit sbi.phyAddr size b := by
  rcases rdfsNvmInit_cases hbpi hr with ⟨f, hcond, hf, rfl⟩ | ⟨f, g, hcond, hf, hg, hr⟩
  · rw [NodesFit, if_pos hcond]
    refine ⟨fun hok => ?_, fun hfit => (laid_single hlt hfit hf).ok rfl hb rfl⟩
    subst hf
    exact hok.fits (NvmMount.zero_mem_nodes _) st rfl rfl hlt
  · rw [NodesFit, if_neg hcond]
    have hflag : r.super.sNumaFlag = true := by rw [hr]; rfl
    refine ⟨fun hok => ?_, fun hfit => ?_⟩
    · have hkept : r.nvm.numaDes 0 = (rdfsInitNumaNode st 0 b rdfsNumaLine 1).2.numaDes 0 := by
        rw [hr, hf, ← hg]
        exact rdfsInitNumaNode_numaDes_of_ne _ _ _ _ (by decide)
      refine ⟨hok.fits (NvmMount.zero_mem_nodes _) st ?_ hkept (by decide),
        hok.fits (NvmMount.one_mem_nodes hflag) f.2 ?_ ?_ hlt⟩
      · rw [hr, hf]
        rfl
      · rw [hr, hg]
        rfl
      · rw [hr, hg]
    · obtain ⟨h₀, h₁⟩ := laid_two hlt hfit.1 hfit.2 hf hg hr
      exact h₀.ok_two h₁ hflag hb rfl (by omega)

end

/-- A region that is mapped where it lies. -/
def mappedAt (phyAddr : ℕ) : SbInfo where
  phyAddr := phyAddr
  virtAddr := phyAddr
  blocksize := 0
  bpi := 0
  phy_le_virt := le_rfl

/-- In 64 kB behind two pages of descriptors there is room. -/
theorem rdfsNvmInit_spec_small : ∃ r : NvmMount,
    rdfsNvmInit (mappedAt 0x100000000) ⟨fun _ => 0, fun _ => default⟩ 0x10000
        ((mappedAt 0x100000000).va 0x100002000) = .ok r ∧
      r.Ok 0x100000000 0x10000 0x100002000 := by
  have hr := rdfsNvmInit_eq (mappedAt 0x100000000) ⟨fun _ => 0, fun _ => default⟩
    ((mappedAt 0x100000000).va 0x100002000) (by decide) (show 4096 ≤ 0x10000 by decide)
  exact ⟨_, hr, (rdfsNvmInit_spec rfl hr (by decide) (by decide)).2 (by unfold NodesFit; decide)⟩

/-- Descriptors of block devices that reach one page over the line : `rdfs_init_numa` refuses the
first node, which `s_numa_des` leads to all the same. -/
theorem first_node_not_laid_out : ∃ r : NvmMount,
    rdfsNvmInit (mappedAt 0x187f000000) ⟨fun _ => 0, fun _ => default⟩ 0x2000000
        ((mappedAt 0x187f000000).va 0x1880001000) = .ok r ∧
      r.super.sNumaFlag = true ∧ r.ret 0 = -1 ∧ ¬r.Ok 0x187f000000 0x2000000 0x1880001000 := by
  have hr := rdfsNvmInit_eq (mappedAt 0x187f000000) ⟨fun _ => 0, fun _ => default⟩
    ((mappedAt 0x187f000000).va 0x1880001000) (by decide) (show 4096 ≤ 0x2000000 by decide)
  have hret : (layOutNodes (mappedAt 0x187f000000) ⟨fun _ => 0, fun _ => default⟩ 0x2000000
      ((mappedAt 0x187f000000).va 0x1880001000)).ret 0 = -1 := by
    rw [layOutNodes, if_neg (by decide)]
    dsimp only
    rw [if_pos rfl, rdfsInitNumaNode, if_pos (by decide)]
  refine ⟨_, hr, ?_, hret, fun hok => ?_⟩
  · rw [layOutNodes, if_neg (by decide)]
    rfl
  · have hzero := hok.init 0 (NvmMount.zero_mem_nodes _)
    rw [hret] at hzero
    exact absurd hzero (by decide)

end Rdfs
