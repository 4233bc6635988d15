import Rdfs.PageOwners

/-!
# The kernel's entries for open files

What is expected of the kernel's page table is `EntriesOk` : no entry is present in a free area, and
an entry that is present in an area in use points to a page of the table of the inode that has the
area, and that no other inode has. `FsRun.entries_spec` says that this holds in every run whose
steps find what they take for granted (`FsOp.Sound`).

The entries are copied from the table of the inode, so they are as good as the table is. When the
table of a regular file with blocks is removed, the page of pte values is free but the cursor stays
in it. The page may become the table of another inode, and the next pte value is written into that
table. Mapping the inode then enters the pte value in the kernel's page table
(`establish_enters_pte_value`).
-/

namespace Rdfs

variable {sb : Super}

/-- The entries of the kernel's page table for an address. -/
def entriesAt (k : KernelMap) (x : ℕ) : List ℕ := [k.pud (x >>> 30), k.pmd (x >>> 21)]

/-- The tables of the inodes in use hold the trees `tree`, the areas are `free` and `used`, no entry
is present in a free area, and those in an area in use point to the inode's own table. -/
structure EntriesOk (R : Region sb) (s : Fs) (tree : ℕ → Option Tree)
    (free used : Fin 2 → List ℕ) : Prop where
  rep : ∀ f ∈ s.files, ∀ t ∈ tree f, TreeRep s.master.nvm.mem t
  pgAddr : ∀ f ∈ s.files, inodeStruct.getField s.master.nvm.mem (getRdfsInodePhyAddr sb f)
    .iPgAddr = (tree f).elim 0 Tree.pud
  areas : AreaInv s.areas free used
  inUse : ∀ f ∈ s.files, (s.inode f).iVirtAddr ≠ 0 → ∃ i, (s.inode f).iVirtAddr ∈ used i
  free : ∀ i, ∀ v ∈ free i, ∀ x, v ≤ x → x < v + areaSize i →
    ∀ e ∈ entriesAt s.master.kernel x, e = 0
  used : ∀ i, ∀ v ∈ used i, ∀ x, v ≤ x → x < v + areaSize i →
    ∀ e ∈ entriesAt s.master.kernel x, e ≠ 0 → ∃ f ∈ s.files, (s.inode f).iVirtAddr = v ∧
      ∃ t ∈ tree f, ∃ p ∈ t.pages, R.pages.IsPage p ∧ e = p ||| pageTable ∧
        ∀ g ∈ s.files, g ≠ f → p ∉ treePages tree g

variable {R : Region sb} {s : Fs} {tree : ℕ → Option Tree} {metas staging : List ℕ}

theorem tableWord_ne_zero {ents : List ℕ} {f i : ℕ} (hf : f ≠ 0) (h : tableWord ents f i ≠ 0) :
    ∃ p ∈ ents, tableWord ents f i = p ||| f := by
  rw [Ne, tableWord_eq_zero_iff hf, not_le] at h
  exact ⟨ents[i], List.getElem_mem h, tableWord_of_lt f h⟩

/-- An entry that is present is one of a list of pages of a tree. -/
theorem exists_page_of_word {t : Option Tree} {pages : Tree → List ℕ}
    (hpages : ∀ t, pages t ⊆ t.pages) {i : ℕ}
    (hne : (t.elim 0 fun t => tableWord (pages t) pageTable i) ≠ 0) : ∃ t₀ ∈ t, ∃ p ∈ t₀.pages,
      (t.elim 0 fun t => tableWord (pages t) pageTable i) = p ||| pageTable := by
  cases t with
  | none => exact absurd rfl hne
  | some t =>
    obtain ⟨p, hp, hword⟩ := tableWord_ne_zero (by decide) hne
    exact ⟨t, rfl, p, hpages t hp, hword⟩

/-- The entries that are present in an area are those of the tree it holds. -/
theorem KernelInv.entry (h : KernelInv s tree) {v : ℕ} {i : Fin 2} {t : Option Tree}
    (hv : v ∈ areasOf i) (hholds : AreaHolds s.master.kernel v t) {x e : ℕ} (hx : v ≤ x)
    (hx' : x < v + areaSize i) (he : e ∈ entriesAt s.master.kernel x) (hne : e ≠ 0) :
    ∃ t₀ ∈ t, ∃ p ∈ t₀.pages, e = p ||| pageTable := by
  simp only [entriesAt, Nat.shiftRight_eq_div_pow, List.mem_cons, List.not_mem_nil, or_false] at he
  rcases node_cases i with rfl | rfl
  · obtain ⟨j, hj, hvj⟩ := mem_regAreas.1 hv
    unfold rdfsStart at hvj
    rw [show areaSize 0 = 2 ^ 35 from rfl] at hx'
    rcases he with rfl | rfl
    · have hpud := hholds.2 hv (x / 2 ^ 30 - v / 2 ^ 30) (by omega)
      rw [show v / 2 ^ 30 + (x / 2 ^ 30 - v / 2 ^ 30) = x / 2 ^ 30 by omega] at hpud
      rw [hpud] at hne ⊢
      exact exists_page_of_word (fun t => by simp [Tree.pages]) hne
    · obtain ⟨w, hw, heq⟩ := h.pmd _ hne
      obtain ⟨l, hl, hwl⟩ := mem_dirAreas.1 hw
      unfold rdfsStart at hwl
      omega
  · obtain ⟨j, hj, hvj⟩ := mem_dirAreas.1 hv
    unfold rdfsStart at hvj
    rw [show areaSize 1 = 2 ^ 21 from rfl] at hx'
    rcases he with rfl | rfl
    · obtain ⟨w, hw, hle, hlt⟩ := h.pud _ hne
      obtain ⟨l, hl, hwl⟩ := mem_regAreas.1 hw
      unfold rdfsStart at hwl
      omega
    · have hpmd := hholds.1 hv
      rw [show v / 2 ^ 21 = x / 2 ^ 21 by omega] at hpmd
      rw [hpmd] at hne ⊢
      exact exists_page_of_word (fun t => by simp [Tree.pages]) hne

theorem KernelInv.entriesOk (h : KernelInv s tree) (hp : PagesInv R s tree metas staging) :
    ∃ free used, EntriesOk R s tree free used := by
  obtain ⟨free, used, hinv⟩ := h.space
  refine ⟨free, used, hp.files.rep, hp.files.pgAddr, hinv.areas, fun f _ hv => ?_,
    fun i v hv x hx hx' e he => ?_, fun i v hv x hx hx' e he hne => ?_⟩
  · obtain ⟨i, -, hused⟩ := hinv.inUse f hv
    exact ⟨i, hused⟩
  · by_contra hne
    obtain ⟨t, ht, -⟩ := h.entry (hinv.areas.mem_of_free hv) (h.empty v (hinv.ne_of_free hv)) hx hx'
      he hne
    cases ht
  · have harea := hinv.areas.mem_of_used hv
    by_cases hex : ∃ f, (s.inode f).iVirtAddr = v
    · obtain ⟨f, rfl⟩ := hex
      obtain ⟨t, ht, p, hpt, heq⟩ := h.entry harea (h.holds f) hx hx' he hne
      have hf : f ∈ s.files := by
        by_contra hf
        rw [hp.gone f hf] at ht
        cases ht
      refine ⟨f, hf, rfl, t, ht, p, hpt, hp.files.isPage hf ht hpt, heq, fun g hg hgf hin => ?_⟩
      have hfile := hp.files.file hf
      rw [ht] at hfile
      exact (hfile.apart p (List.mem_append_left _ hpt)).2
        (List.mem_flatMap.2 ⟨g, hp.files.nodup.mem_erase_iff.2 ⟨hgf, hg⟩, hin⟩)
    · obtain ⟨t, ht, -⟩ := h.entry harea (h.empty v fun f hf => hex ⟨f, hf⟩) hx hx' he hne
      cases ht

/-- In every run whose steps find what they take for granted, no entry is present in a free area,
and the entries of an area in use point to the inode's own table. -/
theorem FsRun.entries_spec (hR : R.Behind) (h : FsRun R (FsOp.Sound R) s) :
    ∃ tree free used, EntriesOk R s tree free used := by
  obtain ⟨tree, metas, staging, hp, hk⟩ := h.inv hR
  exact ⟨tree, hk.entriesOk hp⟩

/-- The file of two blocks, once it is unmapped. -/
theorem FsRun.entries_spec_plain :
    ∃ s, FsRun Region.plain (FsOp.Sound Region.plain) s ∧ (s.inode 2).iVirtAddr = 0 ∧
      ∃ tree free used, EntriesOk Region.plain s tree free used := by
  have hv : ((FsOp.runAll Region.behindTables (FsOp.Sound Region.plain)
      (growTwoBlocks ++ [.destroy 2]) plainFs).map fun s => (s.inode 2).iVirtAddr) = some 0 := by
    decide +kernel
  obtain ⟨s, hr, hs⟩ := Option.map_eq_some_iff.1 hv
  have hrun := (fsRun_plainFs (FsOp.Sound Region.plain)).runAll hr
  exact ⟨s, hrun, hs, FsRun.entries_spec behind_plain hrun⟩

/-- A file of one block is truncated, two inodes are created, the file gets a block again, and the
second inode is mapped. -/
def staleCursor : List FsOp :=
  [.newInode 0 regAttrs 0, .establish 2 0, .alloc 2 0 1 1 .pte 0, .truncate 2 0 4096,
    .newInode 0 regAttrs 0, .newInode 0 regAttrs 0, .alloc 2 0 1 1 .pte 0, .establish 4 0]

/-- Block 1 of the slave has the pte value 4096, and that is where the second gigabyte of the mapped
inode leads. -/
theorem establish_enters_pte_value : ∃ s, FsRun Region.plain (fun _ _ => True) s ∧ 4 ∈ s.files ∧
      4096 ||| pageTable ∈ entriesAt s.master.kernel ((s.inode 4).iVirtAddr + 2 ^ 30) ∧
      ¬∃ tree free used, EntriesOk Region.plain s tree free used := by
  have hentry : ((FsOp.runAll Region.behindTables (fun _ _ => True) staleCursor plainFs).map
      fun s => (s.live, (s.inode 4).iVirtAddr,
        s.master.kernel.pud ((s.inode 4).iVirtAddr / 2 ^ 30 + 1))) =
        some ([2, 3, 4], rdfsStart + dirAreaSize + 2 ^ 35, 4096 ||| pageTable) := by decide +kernel
  obtain ⟨s, hr, hs⟩ := Option.map_eq_some_iff.1 hentry
  simp only [Prod.mk.injEq] at hs
  obtain ⟨hlive, hv, hpud⟩ := hs
  have hmem : 4 ∈ s.files := by simp [Fs.files, hlive]
  have harea : (s.inode 4).iVirtAddr ∈ areasOf 0 := by
    rw [hv]
    exact mem_regAreas.2 ⟨1, by decide, rfl⟩
  have hin : 4096 ||| pageTable ∈ entriesAt s.master.kernel ((s.inode 4).iVirtAddr + 2 ^ 30) := by
    rw [entriesAt, Nat.shiftRight_eq_div_pow, show ((s.inode 4).iVirtAddr + 2 ^ 30) / 2 ^ 30 =
      (s.inode 4).iVirtAddr / 2 ^ 30 + 1 by omega, hpud]
    exact List.mem_cons_self
  refine ⟨s, (fsRun_plainFs _).runAll hr, hmem, hin, ?_⟩
  rintro ⟨tree, free, used, hok⟩
  obtain ⟨i, hused⟩ := hok.inUse 4 hmem (ne_zero_of_mem_areasOf harea)
  obtain rfl := mode_unique harea (hok.areas.mem_of_used hused)
  obtain ⟨-, -, -, -, -, p, -, hpage, heq, -⟩ := hok.used 0 _ hused _ (Nat.le_add_right _ _)
    (Nat.add_lt_add_left (by decide) _) _ hin (by decide)
  -- the entry leads to physical page 1, which is no page of the region
  have hp : 4096 = p := by
    rw [← (tableEntry_and hpage).1, ← heq]
    decide
  subst hp
  have := Region.plain.start_le_isPage hpage
  exact absurd this (by decide)

end Rdfs
