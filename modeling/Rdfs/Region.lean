import Rdfs.InodeTable
import Rdfs.Owned

/-!
# A fresh region

`rdfs_init_numa` lays out a node : its descriptor, the inode slots, and from the next page
boundary on the pages, and links up both free lists. `Region` is what `rdfs_nvm_init` calls it
with, once for each node. It gives the `PageLayout` and the `InodeLayout` of the mount, with
slots and pages apart from each other (`Region.slot_disjoint_page`), and in the region it leaves
behind (`Region.mount`) every page and every slot but the first of a node is free
(`Region.owned_mount`, `Region.inodeInv_mount`).
-/

namespace Rdfs

/-! ## The code -/

/-- The list heads and lengths `rdfs_init_numa` computes for the node from `start` to `stop`. -/
def initNumaDes (start stop percentage : ℕ) : NumaDes :=
  let freeInodePhy := start + sizeofNumaDes + rdfsInodeSize
  let freeInodeCount := (stop - start) * percentage / 100 / rdfsInodeSize - 1
  let freePagePhy := (freeInodePhy + freeInodeCount * rdfsInodeSize + 4096 - 1) / 4096 * 4096
  { freeInodePhy, freeInodeCount, freePagePhy, freePageCount := (stop - freePagePhy) >>> 12 }

/-- `rdfs_init_numa` : descriptor and first slot cleared, both lists linked up. -/
def rdfsInitNuma (m : Mem) (start stop percentage : ℕ) : Mem :=
  let d := initNumaDes start stop percentage
  rdfsInitFreeBlockListOffset d
    (rdfsInitFreeInodeListOffset d (m.fill (sizeofNumaDes + rdfsInodeSize) start 0))

/-! ## Regions -/

/-- The nodes of a mount : one node, or two that meet at the NUMA line. `percentage` is the
share of inodes. -/
structure Region (sb : Super) where
  start : Fin 2 → ℕ
  stop : Fin 2 → ℕ
  percentage : ℕ
  des_zero : sb.sNumaDes 0 = rdfsVa sb (start 0)
  des_one : sb.sNumaFlag = true → sb.sNumaDes 1 = rdfsVa sb (start 1)
  line : sb.sNumaFlag = true → stop 0 = rdfsNumaLine ∧ start 1 = rdfsNumaLine
  single : sb.sNumaFlag = false → start 1 = 0 ∧ stop 1 = 0
  fits : ∀ n, n = 0 ∨ sb.sNumaFlag = true →
    (initNumaDes (start n) (stop n) percentage).freePagePhy ≤ stop n
  stop_lt : ∀ n, stop n < 2 ^ 63
  count_lt : ∀ n, (initNumaDes (start n) (stop n) percentage).freeInodeCount < 2 ^ 32

namespace Region

variable {sb : Super} (R : Region sb)

/-- The descriptor of node `n` after `rdfs_init_numa`. -/
def des (n : Fin 2) : NumaDes := initNumaDes (R.start n) (R.stop n) R.percentage

/-- The slots of a node and its first page. -/
theorem des_bounds (n : Fin 2) : (R.des n).freeInodePhy = R.start n + 256 ∧
      R.start n + 256 + 128 * (R.des n).freeInodeCount ≤ (R.des n).freePagePhy ∧
      (R.des n).freePageCount = (R.stop n - (R.des n).freePagePhy) / 4096 ∧
      4096 ∣ (R.des n).freePagePhy := by
  simp only [des, initNumaDes, sizeofNumaDes, rdfsInodeSize, Nat.shiftRight_eq_div_pow]
  generalize (R.stop n - R.start n) * R.percentage / 100 / 128 - 1 = c
  exact ⟨trivial, by omega, trivial, Nat.dvd_mul_left _ _⟩

theorem des_single (hf : sb.sNumaFlag = false) : R.des 1 = ⟨0, 0, 256, 4096⟩ := by
  obtain ⟨h1, h2⟩ := R.single hf
  simp [des, initNumaDes, h1, h2, sizeofNumaDes, rdfsInodeSize]

/-- Every node ends before `2 ^ 63`. -/
theorem des_lt (n : Fin 2) : (R.des n).freePagePhy + 4096 * (R.des n).freePageCount < 2 ^ 63 ∧
      (n = 0 ∨ sb.sNumaFlag = true →
        (R.des n).freePagePhy + 4096 * (R.des n).freePageCount ≤ R.stop n) := by
  have hstop := R.stop_lt n
  obtain ⟨-, -, hcount, -⟩ := R.des_bounds n
  by_cases hn : n = 0 ∨ sb.sNumaFlag = true
  · have hfits : (R.des n).freePagePhy ≤ R.stop n := R.fits n hn
    exact ⟨by omega, fun _ => by omega⟩
  · simp only [not_or, Bool.not_eq_true] at hn
    obtain rfl := (node_cases n).resolve_left hn.1
    rw [R.des_single hn.2]
    exact ⟨by decide, fun h => by simp [hn.2] at h⟩

/-- Where the pages are. -/
def pages : PageLayout sb where
  base n := (R.des n).freePagePhy
  count n := (R.des n).freePageCount
  aligned n := (R.des_bounds n).2.2.2
  bound n := (R.des_lt n).1
  below hf := (R.line hf).1 ▸ (R.des_lt 0).2 (Or.inl rfl)
  above hf := by
    have := (R.line hf).2
    have := (R.des_bounds 1).2.1
    omega
  single hf := by rw [R.des_single hf]

/-- Where the slots are. -/
def inodes : InodeLayout sb where
  start := R.start
  count n := (R.des n).freeInodeCount
  des_zero := R.des_zero
  des_one := R.des_one
  bound n := by
    have := (R.des_bounds n).2.1
    have := (R.des_lt n).1
    omega
  below hf := by
    have := (R.line hf).1
    have := (R.des_bounds 0).2.1
    have := (R.des_lt 0).2 (Or.inl rfl)
    omega
  above hf := (R.line hf).2.ge
  single hf := by rw [R.des_single hf]

theorem isPage_iff {p : ℕ} : R.pages.IsPage p ↔
    ∃ n, (n = 0 ∨ sb.sNumaFlag = true) ∧ ∃ i < (R.des n).freePageCount,
      p = (R.des n).freePagePhy + 4096 * i := by
  constructor
  · rintro ⟨n, hp⟩
    obtain ⟨i, hi, rfl⟩ := PageLayout.mem_pages.1 hp
    refine ⟨n, ?_, i, hi, rfl⟩
    rcases node_cases n with rfl | rfl
    · exact Or.inl rfl
    · refine Or.inr (Bool.eq_true_of_not_eq_false fun hf => ?_)
      rw [R.pages.single hf] at hi
      exact absurd hi (Nat.not_lt_zero i)
  · rintro ⟨n, -, i, hi, rfl⟩
    exact ⟨n, PageLayout.mem_pages.2 ⟨i, hi, rfl⟩⟩

/-- The null pointer is no page. -/
theorem not_isPage_zero : ¬R.pages.IsPage 0 := by
  rw [isPage_iff]
  rintro ⟨n, -, i, -, h⟩
  have := (R.des_bounds n).2.1
  omega

/-- A slot and a page are apart, and so is what starts in a slot and ends before the first
page of the node. -/
theorem slot_disjoint_page {n : Fin 2} {i k p : ℕ} (hn : n = 0 ∨ sb.sNumaFlag = true)
    (hi : R.inodes.slot n i + k ≤ (R.des n).freePagePhy) (hp : R.pages.IsPage p) :
    R.inodes.slot n i + k ≤ p ∨ p + 4096 ≤ R.inodes.slot n i := by
  obtain ⟨l, hl, j, hj, rfl⟩ := R.isPage_iff.1 hp
  by_cases hnl : n = l
  · subst hnl
    omega
  · have hf : sb.sNumaFlag = true := by
      rcases hn with rfl | hf
      · exact hl.resolve_left (Ne.symm hnl)
      · exact hf
    obtain ⟨hstop, hstart⟩ := R.line hf
    have h0 := (R.des_lt 0).2 (Or.inl rfl)
    have h1 := (R.des_bounds 1).2.1
    have hslot : R.inodes.slot n i = R.start n + 128 + 128 * i := rfl
    rcases node_cases n with rfl | rfl <;> rcases node_cases l with rfl | rfl
    · exact absurd rfl hnl
    · omega
    · omega
    · exact absurd rfl hnl

theorem isSlot_disjoint_page {s p : ℕ} (hs : R.inodes.IsSlot s) (hp : R.pages.IsPage p) :
    s + 128 ≤ p ∨ p + 4096 ≤ s := by
  obtain ⟨n, i, hn, hi, rfl⟩ := hs
  refine R.slot_disjoint_page hn ?_ hp
  have hslot : R.inodes.slot n i = R.start n + 128 + 128 * i := rfl
  have hi' : i ≤ (R.des n).freeInodeCount := hi
  have := (R.des_bounds n).2.1
  omega

/-! ## The region after `rdfs_init_numa` -/

/-- `rdfs_nvm_init`, the part that lays out the nodes. -/
def mount (m : Mem) : Nvm where
  mem :=
    let m := rdfsInitNuma m (R.start 0) (R.stop 0) R.percentage
    if sb.sNumaFlag = true then rdfsInitNuma m (R.start 1) (R.stop 1) R.percentage else m
  numaDes := R.des

/-- The two lists of a node, one over the other. -/
theorem rdfsInitNuma_eq (m : Mem) (n : Fin 2) : rdfsInitNuma m (R.start n) (R.stop n) R.percentage =
      linkUp 4096 0 (R.des n).freePageCount (R.des n).freePagePhy
        (linkUp 128 72 (R.des n).freeInodeCount (R.des n).freeInodePhy
          (m.fill 256 (R.start n) 0)) := by
  have hcount : (R.des n).freeInodeCount % 2 ^ 32 = (R.des n).freeInodeCount :=
    Nat.mod_eq_of_lt (R.count_lt n)
  rw [rdfsInitNuma, ← des, rdfsInitFreeBlockListOffset, rdfsInitFreeInodeListOffset, hcount,
    offset_iPgAddr]
  rfl

/-- `rdfs_init_numa` writes to its node only. -/
theorem rdfsInitNuma_apply (m : Mem) (n : Fin 2) {x : ℕ}
    (hx : x < R.start n ∨ (R.des n).freePagePhy + 4096 * (R.des n).freePageCount ≤ x) :
    rdfsInitNuma m (R.start n) (R.stop n) R.percentage x = m x := by
  obtain ⟨hphy, hbase, -, -⟩ := R.des_bounds n
  rw [rdfsInitNuma_eq, linkUp_apply _ fun i hi => by omega, linkUp_apply _ fun i hi => by omega]
  exact Mem.sameOff_fill m _ _ 0 x (by omega)

/-- The descriptor and the first slot of the only node are cleared. -/
theorem mount_apply_zero (m : Mem) (hf : sb.sNumaFlag = false) {x : ℕ} (hlo : R.start 0 ≤ x)
    (hhi : x < R.start 0 + 256) : (R.mount m).mem x = 0 := by
  obtain ⟨hphy, hbase, -, -⟩ := R.des_bounds 0
  simp only [mount, hf, Bool.false_eq_true, if_false]
  rw [rdfsInitNuma_eq, linkUp_apply _ fun i hi => by omega, linkUp_apply _ fun i hi => by omega]
  exact if_pos ⟨hlo, hhi⟩

/-- A list that `rdfs_init_numa` links up in its node is there once all nodes are laid out. -/
theorem chain_mount (m : Mem) {n : Fin 2} (hn : n = 0 ∨ sb.sNumaFlag = true) {off head k : ℕ}
    {cells : List ℕ}
    (h : ∀ m', chain (rdfsInitNuma m' (R.start n) (R.stop n) R.percentage) off head k = cells)
    (hin : ∀ p ∈ cells, p + off + 8 ≤ (R.des n).freePagePhy + 4096 * (R.des n).freePageCount) :
    chain (R.mount m).mem off head k = cells := by
  by_cases hf : sb.sNumaFlag = true
  · simp only [mount, if_pos hf]
    rcases node_cases n with rfl | rfl
    · refine (chain_congr fun p hp x h1 h2 => R.rdfsInitNuma_apply _ 1 (Or.inl ?_)).trans (h m)
      rw [h m] at hp
      have := hin p hp
      have := (R.des_lt 0).2 hn
      have := R.line hf
      omega
    · exact h _
  · simp only [mount, if_neg hf]
    obtain rfl := hn.resolve_right hf
    exact h m

/-- In a fresh region all pages are free. -/
theorem owned_mount (m : Mem) : Owned R.pages (R.mount m) [] := by
  refine ⟨fun _ => [], fun n => ?_, List.Perm.refl _⟩
  have hlt := (R.des_lt n).1
  refine Pool.start ?_ (R.pages.nodup_pages n) (show (R.des n).freePagePhy < 2 ^ 64 by omega)
  by_cases hn : n = 0 ∨ sb.sNumaFlag = true
  · refine R.chain_mount m hn (fun m' => ?_) fun p hp => ?_
    · rw [rdfsInitNuma_eq]
      exact chain_linkUp _ (by decide) _ (lt_trans hlt (by decide))
    · obtain ⟨i, hi, rfl⟩ := PageLayout.mem_pages.1 hp
      have hi' : i < (R.des n).freePageCount := hi
      have hbase : R.pages.base n = (R.des n).freePagePhy := rfl
      omega
  · simp only [not_or, Bool.not_eq_true] at hn
    obtain rfl := (node_cases n).resolve_left hn.1
    have hzero : (R.des 1).freePageCount = 0 := R.pages.single hn.2
    simp [PageLayout.pages, mount, pages, hzero, chain]

/-- In a fresh region no inode is in use. -/
theorem inodeInv_mount (m : Mem) : InodeInv R.inodes (R.mount m) [] := by
  refine ⟨fun n => ?_, by simp, List.nodup_nil⟩
  obtain ⟨hphy, hbase, -, -⟩ := R.des_bounds n
  have hlt := (R.des_lt n).1
  refine Pool.start ?_ (InodeLayout.nodup_slots n) (show (R.des n).freeInodePhy < 2 ^ 64 by omega)
  by_cases hn : n = 0 ∨ sb.sNumaFlag = true
  · refine R.chain_mount m hn (fun m' => ?_) fun p hp => ?_
    · have hchain := fun m' => chain_linkUp 72 (by decide) m'
        (show (R.des n).freeInodePhy + 128 * (R.des n).freeInodeCount < 2 ^ 64 by omega)
      rw [rdfsInitNuma_eq]
      refine (chain_congr fun p hp x h1 h2 => linkUp_apply _ fun i hi => ?_).trans
        ((hchain _).trans (List.map_congr_left fun i _ => ?_))
      · have hmem := (congrArg (p ∈ ·) (hchain _)).mp hp
        simp only [List.mem_map, List.mem_range] at hmem
        omega
      · have hslot : R.inodes.slot n (i + 1) = R.start n + 128 + 128 * (i + 1) := rfl
        omega
    · obtain ⟨i, hi, rfl⟩ := InodeLayout.mem_slots.1 hp
      have hi' : i < (R.des n).freeInodeCount := hi
      have hslot : R.inodes.slot n (i + 1) = R.start n + 128 + 128 * (i + 1) := rfl
      omega
  · simp only [not_or, Bool.not_eq_true] at hn
    obtain rfl := (node_cases n).resolve_left hn.1
    have hzero : (R.des 1).freeInodeCount = 0 := R.inodes.single hn.2
    simp [InodeLayout.slots, mount, inodes, hzero, chain]

/-- A region of 64 kB in one node, with four slots to hand out and 15 pages. -/
def small : Region oneNode where
  start _ := 0
  stop n := if n = 0 then 65536 else 0
  percentage := 1
  des_zero := rfl
  des_one h := by cases h
  line h := by cases h
  single _ := ⟨rfl, rfl⟩
  fits := by decide
  stop_lt := by decide
  count_lt := by decide

/-- A mount without block devices : the node begins behind the super block and the table of
areas. -/
def behindTables : Super where
  phyAddr := 0x100000000
  virtAddr := 0xffff880100000000
  sNumaFlag := false
  sNumaDes _ := 0xffff880100003000
  phy_le_virt := by decide

/-- Such a mount, with four slots to hand out and 15 pages. -/
def plain : Region behindTables where
  start n := if n = 0 then 0x100003000 else 0
  stop n := if n = 0 then 0x100013000 else 0
  percentage := 1
  des_zero := rfl
  des_one h := by cases h
  line h := by cases h
  single _ := ⟨rfl, rfl⟩
  fits := by decide
  stop_lt := by decide
  count_lt := by decide

end Region

end Rdfs
