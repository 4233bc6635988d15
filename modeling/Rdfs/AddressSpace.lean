import Rdfs.InodeOps
import Rdfs.Nvmalloc

/-!
# Virtual areas of open files

An open file has a virtual area of the kernel. `rdfs_establish_mapping` takes an area for a file
that has none and enters the table of the inode in the kernel's page table, and
`rdfs_destroy_mapping` takes it out again. The areas that `nvmalloc` hands out are apart from each
other, and all functions that look at the address of an area agree on its kind
(`AreaRun.areas_spec`).

`Mapped k v t` says that the kernel's page table `k` leads from the area at `v` to the tree `t`.
Both functions change the entries of one area only (`OnlyArea`), and through a mapped area the
processor finds the blocks of the tree (`Mapped.translate`).
-/

namespace Rdfs

/-! ## The code -/

/-- `rdfs_address_to_ino` : the place for the inode of an area. The table begins one page into
the region and has room for `MAX_FILE_NUM` = 1024 pointers, and its index is scaled twice. -/
def rdfsAddressToIno (sb : Super) (address : ℕ) : ℕ :=
  let index := u64 ((address : ℤ) - rdfsStart - dirAreaSize) / maxFileSize
  sb.virtAddr + 4096 + 8 * (8 * index)

/-- The part of `rdfs_establish_mapping` that gives an inode an area; `inodePtr` is the address
of the `struct inode`, which goes to the table of regular files. -/
def takeArea (sb : Super) (m : Mem) (areas : NvmLists) (inode : Inode) (inodePtr : ℕ) :
    Inode × Mem × NvmLists :=
  if inode.iVirtAddr ≠ 0 then (inode, m, areas)
  else if SIsDir inode.iMode ∨ SIsLnk inode.iMode then
    let r := nvmalloc 1 areas
    ({ inode with iVirtAddr := r.1 }, m, r.2)
  else if SIsReg inode.iMode then
    let r := nvmalloc 0 areas
    ({ inode with iVirtAddr := r.1 },
      m.store 8 (rdfsPa sb (rdfsAddressToIno sb r.1)) inodePtr, r.2)
  else (inode, m, areas)

/-- `rdfs_establish_mapping`. -/
def rdfsEstablishMapping (sb : Super) (g : Master) (areas : NvmLists) (inode : Inode)
    (inodePtr : ℕ) : ℤ × Inode × Master × NvmLists :=
  let pud := rdfsGetPud sb g.nvm.mem inode.iIno
  let inode := { inode with mappingCount := inode.mappingCount + 1 }
  let r := takeArea sb g.nvm.mem areas inode inodePtr
  let vaddr := r.1.iVirtAddr
  let g := { g with nvm := { g.nvm with mem := r.2.1 } }
  if InDirArea vaddr ∨ (rdfsStart + dirAreaSize ≤ vaddr ∧ vaddr < rdfsEnd) then
    let k := nvmap sb g.nvm.mem g.kernel vaddr pud
    (k.1, r.1, { g with kernel := k.2 }, r.2.2)
  else (-1, r.1, g, r.2.2)

/-- `rdfs_destroy_mapping`, `none` if `nvfree` follows a null pointer. -/
def rdfsDestroyMapping (sb : Super) (g : Master) (areas : NvmLists) (inode : Inode) :
    Option (ℤ × Inode × Master × NvmLists) :=
  let pud := rdfsGetPud sb g.nvm.mem inode.iIno
  if inode.iVirtAddr = 0 then some (0, inode, g, areas)
  else
    let inode := { inode with mappingCount := inode.mappingCount - 1 }
    if 0 < inode.mappingCount then some (0, inode, g, areas)
    else
      let k := unnvmap sb g.nvm.mem g.kernel inode.iVirtAddr pud
      (nvfree areas inode.iVirtAddr).map fun areas =>
        (k.1, { inode with iVirtAddr := 0 }, { g with kernel := k.2 }, areas)

section destroy

variable (sb : Super) (g : Master) {areas areas' : NvmLists} {inode : Inode}

theorem rdfsDestroyMapping_unmapped (hv : inode.iVirtAddr = 0) :
    rdfsDestroyMapping sb g areas inode = some (0, inode, g, areas) := by
  rw [rdfsDestroyMapping, if_pos hv]

theorem rdfsDestroyMapping_counted (hv : inode.iVirtAddr ≠ 0) (hc : 1 < inode.mappingCount) :
    rdfsDestroyMapping sb g areas inode =
      some (0, { inode with mappingCount := inode.mappingCount - 1 }, g, areas) := by
  rw [rdfsDestroyMapping, if_neg hv, if_pos (by simp only; omega)]

theorem rdfsDestroyMapping_last (hv : inode.iVirtAddr ≠ 0) (hc : inode.mappingCount ≤ 1)
    (hfree : nvfree areas inode.iVirtAddr = some areas') : rdfsDestroyMapping sb g areas inode =
      some ((unnvmap sb g.nvm.mem g.kernel inode.iVirtAddr (rdfsGetPud sb g.nvm.mem inode.iIno)).1,
        { inode with mappingCount := inode.mappingCount - 1, iVirtAddr := 0 },
        { g with kernel := (unnvmap sb g.nvm.mem g.kernel inode.iVirtAddr
          (rdfsGetPud sb g.nvm.mem inode.iIno)).2 }, areas') := by
  rw [rdfsDestroyMapping, if_neg hv, if_neg (by simp only; omega)]
  simp only [hfree, Option.map_some]

end destroy

/-! ## Areas -/

/-- In every run of `nvmalloc` and `nvfree` the lists of each mode are together the areas of that
mode, each once, and the counters are their lengths. Areas in use lie in the region of their mode
and apart from each other, and the address of an area tells `nvfree`, `nvmap`, `unnvmap` and
`rdfs_establish_mapping` the mode it was allocated for. -/
theorem AreaRun.areas_spec {l : NvmLists} {out : Fin 2 → List ℕ} (h : AreaRun l out) :
    ∃ free : Fin 2 → List ℕ, (∀ i, AreaRep l.next (l.lists i) (free i) (out i) ∧
        (free i ++ out i).Perm (areasOf i) ∧ (free i ++ out i).Nodup) ∧
      (∀ p ∈ out 0, rdfsStart + dirAreaSize ≤ p ∧ p + maxFileSize ≤ rdfsEnd) ∧
      (∀ p ∈ out 1, rdfsStart ≤ p ∧ p + maxDirSize ≤ rdfsStart + dirAreaSize) ∧
      (∀ i j, ∀ p ∈ out i, ∀ q ∈ out j, p ≠ q → p + areaSize i ≤ q ∨ q + areaSize j ≤ p) ∧
      ∀ i, ∀ p ∈ out i, nvfreeMode p = some i ∧ (∃ l', nvfree l p = some l') ∧
        (InDirArea p ↔ i = 1) ∧ (rdfsStart + dirAreaSize ≤ p ∧ p < rdfsEnd ↔ i = 0) ∧
        ∀ sb m k ppud, ppud ≠ 0 → nvmap sb m k p ppud =
            (0, if i = 0 then nvmapFile sb m k p ppud else nvmapDir sb m k p ppud) ∧
          unnvmap sb m k p ppud =
            (0, if i = 0 then unnvmapFile sb m k p ppud else k.setPmd p 0) := by
  obtain ⟨free, hinv⟩ := h.inv
  have hreg : ∀ p ∈ out 0, ∃ i < 958, p = rdfsStart + 2 ^ 35 + 2 ^ 35 * i := fun p hp =>
    mem_regAreas.1 (hinv.mem_of_used hp)
  have hdir : ∀ p ∈ out 1, ∃ i < 2 ^ 14, p = rdfsStart + 2 ^ 21 * i := fun p hp =>
    mem_dirAreas.1 (hinv.mem_of_used hp)
  refine ⟨free, fun i => ⟨hinv.rep i, hinv.perm i, hinv.nodup i⟩, fun p hp => ?_, fun p hp => ?_,
    fun i j p hp q hq hne => ?_, fun i p hp => ?_⟩
  · obtain ⟨i, hi, rfl⟩ := hreg p hp
    unfold rdfsStart dirAreaSize maxFileSize rdfsEnd
    omega
  · obtain ⟨i, hi, rfl⟩ := hdir p hp
    unfold rdfsStart dirAreaSize maxDirSize
    omega
  · unfold areaSize maxFileSize maxDirSize
    rcases node_cases i with rfl | rfl <;> rcases node_cases j with rfl | rfl
    · obtain ⟨a, ha, rfl⟩ := hreg p hp
      obtain ⟨b, hb, rfl⟩ := hreg q hq
      rw [if_pos rfl]
      omega
    · obtain ⟨a, ha, rfl⟩ := hreg p hp
      obtain ⟨b, hb, rfl⟩ := hdir q hq
      rw [if_pos rfl, if_neg (by decide)]
      omega
    · obtain ⟨a, ha, rfl⟩ := hdir p hp
      obtain ⟨b, hb, rfl⟩ := hreg q hq
      rw [if_pos rfl, if_neg (by decide)]
      omega
    · obtain ⟨a, ha, rfl⟩ := hdir p hp
      obtain ⟨b, hb, rfl⟩ := hdir q hq
      rw [if_neg (by decide)]
      omega
  · have harea := hinv.mem_of_used hp
    have hp0 := ne_zero_of_mem_areasOf harea
    obtain ⟨l', hl', -⟩ := hinv.nvfree hp
    refine ⟨nvfreeMode_of_mem harea, ⟨l', hl'⟩, ?_⟩
    rcases node_cases i with rfl | rfl
    · obtain ⟨hout, hrange, -⟩ := inRegArea_of_mem harea
      refine ⟨by simp [hout], by simp [hrange], fun sb m k ppud hppud => ⟨?_, ?_⟩⟩
      · rw [nvmap, if_neg (by simp [hp0, hppud]), if_neg hout, if_pos hrange, if_pos rfl]
      · rw [unnvmap, if_neg hppud, if_neg hp0, if_neg hout, if_pos hrange, if_pos rfl]
    · obtain ⟨hin, -⟩ := inDirArea_of_mem harea
      have hrange : ¬(rdfsStart + dirAreaSize ≤ p ∧ p < rdfsEnd) := by
        obtain ⟨-, hlt⟩ := hin
        unfold maxDirSize at hlt
        omega
      refine ⟨by simp [hin], by simp [hrange], fun sb m k ppud hppud => ⟨?_, ?_⟩⟩
      · rw [nvmap, if_neg (by simp [hp0, hppud]), if_pos hin, if_neg (by decide)]
      · rw [unnvmap, if_neg hppud, if_neg hp0, if_pos hin, if_neg (by decide)]

/-- The first area of each mode. -/
theorem AreaRun.areas_spec_first :
    ∃ l out, AreaRun l out ∧ out 0 = [rdfsStart + dirAreaSize] ∧ out 1 = [rdfsStart] ∧
      nvfreeMode rdfsStart = some 1 := by
  obtain ⟨l₁, hr₁, hinv₁⟩ := areaInv_nvmallocInit.nvmalloc (i := 0) (rfl)
  obtain ⟨l₂, hr₂, -⟩ := hinv₁.nvmalloc (i := 1) (rfl)
  have h₁ := AreaRun.init.take 0
  rw [hr₁] at h₁
  have h₂ := h₁.take 1
  rw [hr₂] at h₂
  obtain ⟨-, -, -, -, -, hmode⟩ := h₂.areas_spec
  exact ⟨_, _, h₂, rfl, rfl, (hmode 1 rdfsStart List.mem_cons_self).1⟩

/-- `n` blocks fit in the area at `v` : 32 GB in an area of regular files, 2 MB in one of
directories. The last area of directories takes one block only, the others lie where the code no
longer sees a directory. -/
def Fits (v n : ℕ) : Prop :=
  (v ∈ regAreas ∧ n ≤ 2 ^ 23) ∨
    (v ∈ dirAreas ∧ n ≤ 512 ∧ (v + maxDirSize = rdfsStart + dirAreaSize → n ≤ 1))

variable {v n : ℕ} {k k' : KernelMap} {t : Tree} {m : Mem}

theorem Fits.area (h : Fits v n) : v ∈ dirAreas ∨ v ∈ regAreas := by
  rcases h with h | h
  · exact Or.inr h.1
  · exact Or.inl h.1

theorem Fits.le (h : Fits v n) : n ≤ 2 ^ 23 := by
  rcases h with ⟨-, h⟩ | ⟨-, h, -⟩ <;> omega

theorem Fits.mono {v n k : ℕ} (h : Fits v n) (hk : k ≤ n) : Fits v k := by
  rcases h with ⟨hv, h⟩ | ⟨hv, h, h'⟩
  · exact Or.inl ⟨hv, by omega⟩
  · exact Or.inr ⟨hv, by omega, fun heq => by omega⟩

theorem Fits.addrOk {v n i : ℕ} (h : Fits v n) (hi : i < n) : AddrOk v i := by
  rcases h with ⟨hv, h⟩ | ⟨hv, h, h'⟩
  · obtain ⟨j, hj, rfl⟩ := mem_regAreas.1 hv
    refine ⟨by omega, by unfold rdfsStart; omega, ?_⟩
    rw [if_neg (by unfold InDirArea rdfsStart dirAreaSize maxDirSize; omega)]
    unfold rdfsStart
    omega
  · obtain ⟨j, hj, rfl⟩ := mem_dirAreas.1 hv
    unfold maxDirSize rdfsStart dirAreaSize at h'
    refine ⟨by omega, by unfold rdfsStart; omega, ?_⟩
    rw [if_pos (by unfold InDirArea rdfsStart dirAreaSize maxDirSize; omega)]
    unfold rdfsStart
    omega

/-- The entries of `n` blocks are where the tree has them : the blocks fit in the area at `v`, or
there is no area and they stay in the first gigabyte, of which the kernel is not told. -/
def Placed (v n : ℕ) : Prop := Fits v n ∨ (v = 0 ∧ n ≤ 2 ^ 18)

theorem ne_zero_of_area (hv : v ∈ dirAreas ∨ v ∈ regAreas) : v ≠ 0 := by
  rcases hv with hv | hv
  · exact ne_zero_of_mem_areasOf (show v ∈ areasOf 1 from hv)
  · exact ne_zero_of_mem_areasOf (show v ∈ areasOf 0 from hv)

theorem Placed.le (h : Placed v n) : n ≤ 2 ^ 23 := by
  rcases h with h | ⟨-, h⟩
  · exact h.le
  · omega

theorem Placed.mono {v n k : ℕ} (h : Placed v n) (hk : k ≤ n) : Placed v k := by
  rcases h with h | ⟨hv, h⟩
  · exact Or.inl (h.mono hk)
  · exact Or.inr ⟨hv, by omega⟩

theorem Placed.area (h : Placed v n) : v = 0 ∨ v ∈ dirAreas ∨ v ∈ regAreas := by
  rcases h with h | ⟨hv, -⟩
  · exact Or.inr h.area
  · exact Or.inl hv

theorem Placed.addrOk {v n i : ℕ} (h : Placed v n) (hi : i < n) : AddrOk v i := by
  rcases h with h | ⟨rfl, h⟩
  · exact h.addrOk hi
  · refine ⟨by omega, by omega, ?_⟩
    rw [if_neg (by unfold InDirArea rdfsStart; omega)]
    rfl

/-- From `k` to `k'` only entries of the area at `v` have changed. -/
structure OnlyArea (k k' : KernelMap) (v : ℕ) : Prop where
  pud : ∀ g, ¬(v ∈ regAreas ∧ v / 2 ^ 30 ≤ g ∧ g < v / 2 ^ 30 + 32) → k'.pud g = k.pud g
  pmd : ∀ g, ¬(v ∈ dirAreas ∧ g = v / 2 ^ 21) → k'.pmd g = k.pmd g

theorem OnlyArea.refl (k : KernelMap) (v : ℕ) : OnlyArea k k v := ⟨fun _ _ => rfl, fun _ _ => rfl⟩

theorem OnlyArea.trans {k'' : KernelMap} (h : OnlyArea k k' v) (h' : OnlyArea k' k'' v) :
    OnlyArea k k'' v :=
  ⟨fun g hg => (h'.pud g hg).trans (h.pud g hg), fun g hg => (h'.pmd g hg).trans (h.pmd g hg)⟩

/-- The kernel's page table leads from the area at `v` to the tree. -/
def Mapped (k : KernelMap) (v : ℕ) (t : Tree) : Prop :=
  (v ∈ dirAreas → k.pmd (v / 2 ^ 21) = tableWord t.ptes pageTable 0) ∧
    (v ∈ regAreas → ∀ a < t.pmds.length, k.pud (v / 2 ^ 30 + a) = tableWord t.pmds pageTable a)

/-- The entries of the area at `v` are those of the tree `t`, and none if there is no tree. -/
def AreaHolds (k : KernelMap) (v : ℕ) (t : Option Tree) : Prop :=
  (v ∈ dirAreas → k.pmd (v / 2 ^ 21) = t.elim 0 fun t => tableWord t.ptes pageTable 0) ∧
    (v ∈ regAreas → ∀ a < 32,
      k.pud (v / 2 ^ 30 + a) = t.elim 0 fun t => tableWord t.pmds pageTable a)

theorem areaHolds_zero (k : KernelMap) (t : Option Tree) : AreaHolds k 0 t :=
  ⟨fun h => absurd rfl (ne_zero_of_area (Or.inl h)),
    fun h => absurd rfl (ne_zero_of_area (Or.inr h))⟩

theorem AreaHolds.mapped (h : AreaHolds k v (some t)) (hlen : t.pmds.length ≤ 32) : Mapped k v t :=
  ⟨h.1, fun hv a ha => h.2 hv a (by omega)⟩

/-- Changes to another area. -/
theorem AreaHolds.other {v v' : ℕ} {t : Option Tree} (h : AreaHolds k v t) (hk : OnlyArea k k' v')
    (hne : v ≠ v') : AreaHolds k' v t := by
  refine ⟨fun hv => ?_, fun hv a ha => ?_⟩
  · rw [hk.pmd, h.1 hv]
    rintro ⟨hv', heq⟩
    obtain ⟨-, h1⟩ := inDirArea_of_mem hv
    obtain ⟨-, h2⟩ := inDirArea_of_mem hv'
    omega
  · rw [hk.pud, h.2 hv a ha]
    rintro ⟨hv', heq⟩
    obtain ⟨-, -, h1⟩ := inRegArea_of_mem hv
    obtain ⟨-, -, h2⟩ := inRegArea_of_mem hv'
    omega

/-- A tree is entered over what was there, if it has as many pages of the second level. -/
theorem Mapped.areaHolds {t : Option Tree} {t' : Tree} (hm : Mapped k' v t') (h : AreaHolds k v t)
    (hlen : ∀ t₀ ∈ t, t₀.pmds.length ≤ t'.pmds.length)
    (hrest : ∀ g, v / 2 ^ 30 + t'.pmds.length ≤ g → k'.pud g = k.pud g) :
    AreaHolds k' v (some t') := by
  refine ⟨hm.1, fun hv a ha => ?_⟩
  rcases Nat.lt_or_ge a t'.pmds.length with hlt | hge
  · exact hm.2 hv a hlt
  · rw [hrest _ (by omega), h.2 hv a ha]
    cases t with
    | none => exact (tableWord_of_le _ hge).symm
    | some t₀ =>
      exact (tableWord_of_le _ ((hlen t₀ rfl).trans hge)).trans (tableWord_of_le _ hge).symm

/-! ## Entering a tree -/

variable {sb : Super} {R : Region sb}

/-- The loop of `nvmap_file` from entry `a` of the table on. -/
theorem nvmapFileLoop_pud (hv : v % 2 ^ 35 = 0) (htop : Table m [t.pud] t.pmds pageTable)
    (hpage : ∀ p ∈ t.pmds, R.pages.IsPage p) (hlen : t.pmds.length ≤ 32) :
    ∀ (cnt a : ℕ) (k : KernelMap), a < t.pmds.length → t.pmds.length ≤ a + cnt →
      (nvmapFileLoop sb m (v + maxFileSize - 1) cnt (v + 2 ^ 30 * a)
        (rdfsVa sb (t.pud + 8 * a)) k).pmd = k.pmd ∧
      ∀ g, (nvmapFileLoop sb m (v + maxFileSize - 1) cnt (v + 2 ^ 30 * a)
        (rdfsVa sb (t.pud + 8 * a)) k).pud g =
          if v / 2 ^ 30 + a ≤ g ∧ g < v / 2 ^ 30 + t.pmds.length then
            tableWord t.pmds pageTable (g - v / 2 ^ 30)
          else k.pud g
  | 0, a, k, ha, hcnt => absurd hcnt (by omega)
  | cnt + 1, a, k, ha, hcnt => by
    have hword : ∀ b < 512, m.load 8 (t.pud + 8 * b) = tableWord t.pmds pageTable b := by
      intro b hb
      simpa using htop 0 t.pud rfl b hb
    have hentry : rdfsPa sb (rdfsGetPmd sb m (rdfsVa sb (t.pud + 8 * a))) = t.pmds[a] := by
      rw [rdfsGetPmd, rdfsPa_rdfsVa, deref_rdfsVa, hword a (by omega), tableWord_of_lt _ ha]
      exact (tableEntry_and (hpage _ (List.getElem_mem ha))).1
    have hindex : (v + 2 ^ 30 * a) >>> 30 = v / 2 ^ 30 + a := by
      rw [Nat.shiftRight_eq_div_pow]
      omega
    rw [nvmapFileLoop, hentry, ← rdfsVa_add, deref_rdfsVa,
      show t.pud + 8 * a + 8 = t.pud + 8 * (a + 1) by omega, hword (a + 1) (by omega)]
    by_cases hlast : tableWord t.pmds pageTable (a + 1) = 0
    · have hend := (tableWord_eq_zero_iff (by decide)).1 hlast
      rw [if_pos hlast]
      refine ⟨rfl, fun g => ?_⟩
      rw [KernelMap.setPud_pud, hindex]
      by_cases hg : g = v / 2 ^ 30 + a
      · subst hg
        rw [if_pos rfl, if_pos (by omega), Nat.add_sub_cancel_left, tableWord_of_lt _ ha]
      · rw [if_neg hg, if_neg (by omega)]
    · have hmore : a + 1 < t.pmds.length := by
        rw [tableWord_eq_zero_iff (by decide)] at hlast
        omega
      have hnext : pudAddrEnd (v + 2 ^ 30 * a) (v + maxFileSize - 1) = v + 2 ^ 30 * (a + 1) := by
        unfold pudAddrEnd maxFileSize
        rw [show (v + 2 ^ 30 * a + 2 ^ 30) / 2 ^ 30 * 2 ^ 30 = v + 2 ^ 30 * (a + 1) by omega]
        exact if_pos (by omega)
      obtain ⟨ih, ih'⟩ := nvmapFileLoop_pud hv htop hpage hlen cnt (a + 1)
        (k.setPud (v + 2 ^ 30 * a) (t.pmds[a] ||| pageTable)) hmore (by omega)
      rw [if_neg hlast, hnext]
      refine ⟨ih, fun g => ?_⟩
      rw [ih', KernelMap.setPud_pud, hindex]
      by_cases hg : g = v / 2 ^ 30 + a
      · subst hg
        rw [if_neg (by omega), if_pos rfl, if_pos (by omega), Nat.add_sub_cancel_left,
          tableWord_of_lt _ ha]
      · rw [if_neg hg]
        refine if_congr ?_ rfl rfl
        omega

/-- The loop of `unnvmap_file` from entry `a` of the table on. -/
theorem unnvmapFileLoop_pud (sb : Super) (hv : v % 2 ^ 35 = 0)
    (htop : Table m [t.pud] t.pmds pageTable) (hlen : t.pmds.length ≤ 32) :
    ∀ (cnt a addr : ℕ) (k : KernelMap), a ≤ t.pmds.length → t.pmds.length ≤ a + cnt →
      (a < t.pmds.length → addr = v + 2 ^ 30 * a) →
      (unnvmapFileLoop sb m (v + maxFileSize - 1) cnt addr (rdfsVa sb (t.pud + 8 * a)) k).pmd =
        k.pmd ∧
      ∀ g,
        (unnvmapFileLoop sb m (v + maxFileSize - 1) cnt addr (rdfsVa sb (t.pud + 8 * a)) k).pud g =
          if v / 2 ^ 30 + a ≤ g ∧ g < v / 2 ^ 30 + t.pmds.length then 0 else k.pud g
  | 0, a, addr, k, _, hcnt, _ => ⟨rfl, fun g => by rw [if_neg (by omega)]; rfl⟩
  | cnt + 1, a, addr, k, ha, hcnt, haddr => by
    have hword : m.load 8 (t.pud + 8 * a) = tableWord t.pmds pageTable a := by
      simpa using htop 0 t.pud rfl a (by omega)
    rw [unnvmapFileLoop, deref_rdfsVa, hword]
    by_cases hlast : tableWord t.pmds pageTable a = 0
    · rw [if_pos hlast]
      have hend := (tableWord_eq_zero_iff (by decide)).1 hlast
      exact ⟨rfl, fun g => by rw [if_neg (by omega)]⟩
    · have hlt : a < t.pmds.length := by
        rw [tableWord_eq_zero_iff (by decide)] at hlast
        omega
      obtain rfl := haddr hlt
      have hindex : (v + 2 ^ 30 * a) >>> 30 = v / 2 ^ 30 + a := by
        rw [Nat.shiftRight_eq_div_pow]
        omega
      have hnext : a + 1 < t.pmds.length →
          pudAddrEnd (v + 2 ^ 30 * a) (v + maxFileSize - 1) = v + 2 ^ 30 * (a + 1) := by
        intro hmore
        unfold pudAddrEnd maxFileSize
        rw [show (v + 2 ^ 30 * a + 2 ^ 30) / 2 ^ 30 * 2 ^ 30 = v + 2 ^ 30 * (a + 1) by omega]
        exact if_pos (by omega)
      obtain ⟨ih, ih'⟩ := unnvmapFileLoop_pud sb hv htop hlen cnt (a + 1) _
        (k.setPud (v + 2 ^ 30 * a) 0) hlt (by omega) hnext
      rw [if_neg hlast, ← rdfsVa_add, show t.pud + 8 * a + 8 = t.pud + 8 * (a + 1) by omega]
      refine ⟨ih, fun g => ?_⟩
      rw [ih', KernelMap.setPud_pud, hindex]
      by_cases hg : g = v / 2 ^ 30 + a
      · rw [if_neg (by omega), if_pos hg, if_pos (by omega)]
      · rw [if_neg hg]
        refine if_congr ?_ rfl rfl
        omega

/-- `nvmap` enters a tree and changes nothing else. -/
theorem nvmap_tree (hv : v ∈ dirAreas ∨ v ∈ regAreas) (ht : TreeRep m t)
    (hpage : ∀ p ∈ t.pages, R.pages.IsPage p) (hlen : t.pmds.length ≤ 32) (k : KernelMap) :
    ∃ k', nvmap sb m k v (rdfsVa sb t.pud) = (0, k') ∧ Mapped k' v t ∧ OnlyArea k k' v ∧
      ∀ g, v / 2 ^ 30 + t.pmds.length ≤ g → k'.pud g = k.pud g := by
  have hpud : rdfsVa sb t.pud ≠ 0 := rdfsVa_ne_zero sb fun h0 =>
    R.not_isPage_zero (h0 ▸ hpage t.pud (by simp [Tree.pages]))
  have hpmds : 0 < t.pmds.length := by rw [ht.length_pmds]; omega
  have hptes : 0 < t.ptes.length := by rw [ht.length_ptes]; omega
  have htop : m.load 8 t.pud = t.pmds[0] ||| pageTable := by
    have := ht.top 0 t.pud rfl 0 (by omega)
    rwa [tableWord_of_lt _ hpmds] at this
  have hmid : m.load 8 t.pmds[0] = tableWord t.ptes pageTable 0 := by
    simpa using ht.mid 0 t.pmds[0] (List.getElem?_eq_getElem hpmds) 0 (by omega)
  have hne := ne_zero_of_area hv
  have hpmd : R.pages.IsPage t.pmds[0] := hpage _ (by simp [Tree.pages])
  have hpte : R.pages.IsPage t.ptes[0] := hpage _ (by simp [Tree.pages])
  rcases hv with hv | hv
  · obtain ⟨hin, hmod⟩ := inDirArea_of_mem hv
    have hreg : v ∉ regAreas := fun h => (inRegArea_of_mem h).1 hin
    refine ⟨nvmapDir sb m k v (rdfsVa sb t.pud),
      by rw [nvmap, if_neg (by simp [hne, hpud]), if_pos hin], ⟨fun _ => ?_, fun h => ?_⟩,
      ⟨fun g _ => rfl, fun g hg => ?_⟩, fun g _ => rfl⟩
    · rw [nvmapDir, KernelMap.setPmd_pmd, Nat.shiftRight_eq_div_pow, if_pos rfl, rdfsGetPte,
        rdfsPa_rdfsVa, rdfsGetPmd, deref_rdfsVa, deref_rdfsVa, htop, (tableEntry_and hpmd).1, hmid,
        tableWord_of_lt _ hptes, (tableEntry_and hpte).1]
    · exact absurd h hreg
    · rw [nvmapDir, KernelMap.setPmd_pmd, Nat.shiftRight_eq_div_pow, if_neg]
      exact fun heq => hg ⟨hv, heq⟩
  · obtain ⟨hout, hrange, hmod⟩ := inRegArea_of_mem hv
    have hdir : v ∉ dirAreas := fun h => hout (inDirArea_of_mem h).1
    obtain ⟨hk, hk'⟩ := nvmapFileLoop_pud (R := R) hmod ht.top
      (fun p hp => hpage p (by simp [Tree.pages, hp])) hlen 512 0 k hpmds (by omega)
    have hr : nvmap sb m k v (rdfsVa sb t.pud) =
        (0, nvmapFileLoop sb m (v + maxFileSize - 1) 512 v (rdfsVa sb t.pud) k) := by
      rw [nvmap, if_neg (by simp [hne, hpud]), if_neg hout, if_pos hrange, nvmapFile]
    generalize nvmapFileLoop sb m _ 512 v (rdfsVa sb t.pud) k = k' at hr hk hk'
    refine ⟨k', hr, ⟨fun h => absurd h hdir, fun _ a ha => ?_⟩, ⟨fun g hg => ?_, fun g _ => ?_⟩,
      fun g hg => ?_⟩
    · rw [hk', if_pos (by omega), Nat.add_sub_cancel_left]
    · rw [hk', if_neg fun hin => hg ⟨hv, by omega⟩]
    · rw [hk]
    · rw [hk', if_neg (by omega)]

/-- `unnvmap` takes a tree out and changes nothing else. -/
theorem unnvmap_tree (hv : v ∈ dirAreas ∨ v ∈ regAreas) (ht : TreeRep m t) (hpud : t.pud ≠ 0)
    (hlen : t.pmds.length ≤ 32) (hk : AreaHolds k v (some t)) :
    AreaHolds (unnvmap sb m k v (rdfsVa sb t.pud)).2 v none ∧
      OnlyArea k (unnvmap sb m k v (rdfsVa sb t.pud)).2 v := by
  have hva := rdfsVa_ne_zero sb hpud
  have hne := ne_zero_of_area hv
  rcases hv with hv | hv
  · obtain ⟨hin, hmod⟩ := inDirArea_of_mem hv
    have hreg : v ∉ regAreas := fun h => (inRegArea_of_mem h).1 hin
    rw [unnvmap, if_neg hva, if_neg hne, if_pos hin]
    refine ⟨⟨fun _ => ?_, fun h => absurd h hreg⟩, fun g _ => rfl, fun g hg => ?_⟩
    · rw [KernelMap.setPmd_pmd, Nat.shiftRight_eq_div_pow, if_pos rfl]
      rfl
    · rw [KernelMap.setPmd_pmd, Nat.shiftRight_eq_div_pow, if_neg]
      exact fun heq => hg ⟨hv, heq⟩
  · obtain ⟨hout, hrange, hmod⟩ := inRegArea_of_mem hv
    have hdir : v ∉ dirAreas := fun h => hout (inDirArea_of_mem h).1
    obtain ⟨hpmd, hpuds⟩ := unnvmapFileLoop_pud sb hmod ht.top hlen 512 0 v k (Nat.zero_le _)
      (by omega) (fun _ => by omega)
    rw [unnvmap, if_neg hva, if_neg hne, if_neg hout, if_pos hrange, unnvmapFile]
    generalize unnvmapFileLoop sb m _ 512 v (rdfsVa sb t.pud) k = k' at hpmd hpuds
    refine ⟨⟨fun h => absurd h hdir, fun _ a ha => ?_⟩, fun g hg => ?_, fun g _ => by rw [hpmd]⟩
    · rw [hpuds]
      split_ifs with hin
      · rfl
      · rw [hk.2 hv a ha]
        exact tableWord_of_le _ (by omega)
    · rw [hpuds, if_neg fun hin => hg ⟨hv, by omega⟩]

/-! ## Reading through a mapped area -/

/-- The walk of the processor once it has found a page of the lowest level. -/
theorem translate_of_pmd {addr pmd p w : ℕ}
    (hpmd : (if k.pud (addr >>> 30) = 0 then k.pmd (addr >>> 21)
      else m.load 8 ((k.pud (addr >>> 30) &&& physMask) + 8 * pmdIndex addr)) = pmd)
    (hp : R.pages.IsPage p) (hpmdp : pmd = p ||| pageTable)
    (hload : m.load 8 (p + 8 * pteIndex addr) = w) :
    translate k m addr = if w = 0 then none else some ((w &&& physMask) + addr % 4096) := by
  have hpmd0 : pmd ≠ 0 := fun h0 =>
    absurd (Nat.or_eq_zero_iff.1 (hpmdp.symm.trans h0)).2 (by decide)
  simp only [Rdfs.translate, hpmd, if_neg hpmd0]
  rw [hpmdp, (tableEntry_and hp).2.1, hload]

section

variable {v : ℕ} (h : Mapped k v t) (hv : v ∈ dirAreas ∨ v ∈ regAreas)
  (hdir : v ∈ dirAreas → k.pud (v / 2 ^ 30) = 0) (ht : TreeRep m t)
include h hv hdir ht

/-- Through a mapped area the processor finds the entries of the tree. -/
theorem Mapped.translate_word {x : ℕ} (hpage : ∀ p ∈ t.pages, R.pages.IsPage p)
    (hfit : v ∈ dirAreas → x < 2 ^ 21) (hpte : x / 2 ^ 21 < t.ptes.length) {w : ℕ}
    (hw : tableWord t.ents pageKernel (x / 4096) = w) : Rdfs.translate k m (v + x) =
      if w = 0 then none else some ((w &&& physMask) + x % 4096) := by
  have hpmd : x / 2 ^ 30 < t.pmds.length := by
    have := ht.length_ptes
    rw [ht.length_pmds]
    omega
  have hmod : v % 2 ^ 21 = 0 := by
    rcases hv with hv | hv
    · exact (inDirArea_of_mem hv).2
    · have := (inRegArea_of_mem hv).2.2
      omega
  have hpteIndex : pteIndex (v + x) = x / 4096 % 512 := by
    rw [pteIndex, show (511 : ℕ) = 2 ^ 9 - 1 from rfl, Nat.and_two_pow_sub_one_eq_mod,
      Nat.shiftRight_eq_div_pow]
    omega
  have hlow : m.load 8 (t.ptes[x / 2 ^ 21] + 8 * (x / 4096 % 512)) = w := by
    rw [ht.low _ _ (List.getElem?_eq_getElem hpte) _ (Nat.mod_lt _ (by decide)),
      show 512 * (x / 2 ^ 21) + x / 4096 % 512 = x / 4096 by omega, hw]
  rw [show x % 4096 = (v + x) % 4096 by omega]
  refine translate_of_pmd (R := R) (p := t.ptes[x / 2 ^ 21]) rfl
    (hpage _ (by simp [Tree.pages])) ?_ (by rw [hpteIndex, hlow])
  rcases hv with hv | hv
  · have hsmall := hfit hv
    have h30 : (v + x) >>> 30 = v / 2 ^ 30 := by
      obtain ⟨i, hi, rfl⟩ := mem_dirAreas.1 hv
      rw [Nat.shiftRight_eq_div_pow, rdfsStart]
      omega
    have h21 : (v + x) >>> 21 = v / 2 ^ 21 := by
      rw [Nat.shiftRight_eq_div_pow]
      omega
    rw [h30, hdir hv, if_pos rfl, h21, h.1 hv, tableWord_of_lt _ (by omega)]
    simp only [show x / 2 ^ 21 = 0 by omega]
  · have h35 := (inRegArea_of_mem hv).2.2
    have h30 : (v + x) >>> 30 = v / 2 ^ 30 + x / 2 ^ 30 := by
      rw [Nat.shiftRight_eq_div_pow]
      omega
    have hpmdIndex : pmdIndex (v + x) = x / 2 ^ 21 % 512 := by
      rw [pmdIndex, show (511 : ℕ) = 2 ^ 9 - 1 from rfl, Nat.and_two_pow_sub_one_eq_mod,
        Nat.shiftRight_eq_div_pow]
      omega
    have hentry : k.pud (v / 2 ^ 30 + x / 2 ^ 30) = t.pmds[x / 2 ^ 30] ||| pageTable := by
      rw [h.2 hv _ hpmd, tableWord_of_lt _ hpmd]
    have hne : t.pmds[x / 2 ^ 30] ||| pageTable ≠ 0 := fun h0 =>
      absurd (Nat.or_eq_zero_iff.1 h0).2 (by decide)
    rw [h30, hentry, if_neg hne, (tableEntry_and (hpage _ (by simp [Tree.pages]))).2.1, hpmdIndex,
      ht.mid _ _ (List.getElem?_eq_getElem hpmd) _ (Nat.mod_lt _ (by decide)),
      show 512 * (x / 2 ^ 30) + x / 2 ^ 21 % 512 = x / 2 ^ 21 by omega, tableWord_of_lt _ hpte]

/-- Through a mapped area the processor finds the blocks of the tree. -/
theorem Mapped.translate {x e : ℕ} (hpage : ∀ p ∈ t.pages ++ t.ents, R.pages.IsPage p)
    (hfit : v ∈ dirAreas → t.ents.length ≤ 512) (he : t.ents[x / 4096]? = some e) :
    Rdfs.translate k m (v + x) = some (e + x % 4096) := by
  obtain ⟨hx, rfl⟩ := List.getElem?_eq_some_iff.1 he
  have hne : t.ents[x / 4096] ||| pageKernel ≠ 0 := fun h0 =>
    absurd (Nat.or_eq_zero_iff.1 h0).2 (by decide)
  rw [h.translate_word (R := R) hv hdir ht (fun p hp => hpage p (List.mem_append_left _ hp))
    (fun hd => ?_) (by rw [ht.length_ptes]; omega) (tableWord_of_lt _ hx), if_neg hne,
    (blockEntry_and (hpage _ (by simp))).1]
  have := hfit hd
  omega

end

end Rdfs
