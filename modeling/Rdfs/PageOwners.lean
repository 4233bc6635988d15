import Rdfs.FsSteps

/-!
# Who owns a page

What is expected of the pages of the region is `PagesOk` : a page is on the free list of its node,
once, or it belongs to an inode in use or to the buffer, and not both. Pages belong to an inode as
pages of its table or because its table points to them. `FsRun.pages_spec` says that this holds in
every run whose steps find what they take for granted (`FsOp.Sound`), and that the pages passed to
`rdfs_free_block` are not free then and that no other inode has them.

For regular files that is too much to ask of the code. The table of a regular file points to the
same page of pte values once for every block, other files share that page, and the cursor is still
in it; but when the table is removed the page is passed to `rdfs_free_block` for every block
(`truncate_frees_twice`).
-/

namespace Rdfs

variable {sb : Super}

/-- The page belongs to an inode in use, or to the buffer. -/
def PageOwner (s : Fs) (tree : ℕ → Option Tree) (staging : List ℕ) (p : ℕ) : Prop :=
  (∃ f ∈ s.files, p ∈ treePages tree f ∨ p ∈ fileEnts (tree f)) ∨ p ∈ staging

/-- The tables of the inodes in use hold the trees `tree`, `staging` is the page of the buffer if
there is one, and every page is on the free list of its node, once, or has an owner. -/
structure PagesOk (R : Region sb) (s : Fs) (tree : ℕ → Option Tree) (staging : List ℕ) : Prop where
  rep : ∀ f ∈ s.files, ∀ t ∈ tree f, TreeRep s.master.nvm.mem t
  pgAddr : ∀ f ∈ s.files, inodeStruct.getField s.master.nvm.mem (getRdfsInodePhyAddr sb f)
    .iPgAddr = (tree f).elim 0 Tree.pud
  buffer : staging ⊆ [s.globalPhyAddr] ∧ (s.flag = false → staging = [])
  nodup : ∀ n, (freePages s.master.nvm n).Nodup
  node : ∀ n, ∀ p ∈ freePages s.master.nvm n, p ∈ R.pages.pages n
  free_iff : ∀ n, ∀ p ∈ R.pages.pages n,
    p ∈ freePages s.master.nvm n ↔ ¬PageOwner s tree staging p

/-- Removing the table of `f` passes to `rdfs_free_block` pages that are not free, each once, and
that the table of no other inode has or points to. -/
def FreesOwn (sb : Super) (s : Fs) (tree : ℕ → Option Tree) (f : ℕ) : Prop :=
  ∃ ps, (∃ m, rdfsRmPgTable sb s.master.nvm f = { freeBlocks sb s.master.nvm ps with mem := m }) ∧
    ps.Nodup ∧ (∀ p ∈ ps, ∀ n, p ∉ freePages s.master.nvm n) ∧
    ∀ g ∈ s.files, g ≠ f → ∀ p ∈ ps, p ∉ treePages tree g ∧ p ∉ fileEnts (tree g)

variable {R : Region sb} {s : Fs} {tree : ℕ → Option Tree} {metas staging : List ℕ}

/-- The pages that are owned are those with an owner. -/
theorem PagesInv.mem_owned_iff (h : PagesInv R s tree metas staging) (p : ℕ) :
    p ∈ s.files.flatMap (treePages tree) ++ (s.files.flatMap (s.data tree) ++ (metas ++ staging)) ↔
      PageOwner s tree staging p := by
  simp only [List.mem_append, List.mem_flatMap]
  constructor
  · rintro (⟨f, hf, hp⟩ | ⟨f, hf, hp⟩ | hp | hp)
    · exact Or.inl ⟨f, hf, Or.inl hp⟩
    · unfold Fs.data at hp
      split_ifs at hp
      · simp at hp
      · exact Or.inl ⟨f, hf, Or.inr hp⟩
    · obtain ⟨f, hf, -, hpf⟩ := h.enters p hp
      exact Or.inl ⟨f, hf, Or.inr hpf⟩
    · exact Or.inr hp
  · rintro (⟨f, hf, hp | hp⟩ | hp)
    · exact Or.inl ⟨f, hf, hp⟩
    · by_cases hreg : SIsReg (s.inode f).iMode
      · exact Or.inr (Or.inr (Or.inl (h.entered f hf hreg hp)))
      · exact Or.inr (Or.inl ⟨f, hf, by rwa [Fs.data, if_neg hreg]⟩)
    · exact Or.inr (Or.inr (Or.inr hp))

theorem PagesInv.pagesOk (h : PagesInv R s tree metas staging) : PagesOk R s tree staging := by
  have hown := h.files.owned
  obtain ⟨out, hfree, -⟩ := h.files.owned
  refine ⟨h.files.rep, h.files.pgAddr, h.buffer, fun n =>
    (List.nodup_append.1 (hfree n).nodup_append).1, fun n p hp => (hfree n).mem_free hp,
    fun n p hp => ?_⟩
  rw [← h.mem_owned_iff]
  refine ⟨hown.not_free, fun hnot => ?_⟩
  obtain ⟨k, hk⟩ := (hown.free_or_owned ⟨n, hp⟩).resolve_right hnot
  obtain rfl := PageLayout.node_eq_of_mem hp ((hfree k).mem_free hk)
  exact hk

/-- In every run whose steps find what they take for granted, every page is free, once, or has an
owner, and never both, and removing a table frees pages of its inode only, each once. -/
theorem FsRun.pages_spec (hR : R.Behind) (h : FsRun R (FsOp.Sound R) s) :
    ∃ tree staging, PagesOk R s tree staging ∧
      ∀ f start stop, (FsOp.truncate f start stop).Valid s →
        (FsOp.truncate f start stop).Sound R s →
          CutsTable sb s.master.nvm.mem f start stop → FreesOwn sb s tree f := by
  obtain ⟨tree, metas, staging, hp, -⟩ := h.inv hR
  refine ⟨tree, staging, hp.pagesOk, fun f start stop hf hs hc => ?_⟩
  obtain ⟨t, ht⟩ := (hp.hasTable_iff hf).1 hc.1
  exact hp.cut_frees hf ht (hs hc)

/-! ## A small mount -/

/-- Operations one after another, `none` if one of them is on no inode in use or does not meet the
condition. -/
def FsOp.runAll (sb : Super) (C : Fs → FsOp → Prop) [∀ s o, Decidable (C s o)] :
    List FsOp → Fs → Option Fs
  | [], s => some s
  | o :: os, s => if o.Valid s ∧ C s o then (o.run sb s).bind (runAll sb C os) else none

theorem FsRun.runAll {C : Fs → FsOp → Prop} [∀ s o, Decidable (C s o)] :
    ∀ {os : List FsOp} {s s' : Fs}, FsRun R C s → FsOp.runAll sb C os s = some s' → FsRun R C s'
  | [], _, _, h, hr => Option.some_inj.1 hr ▸ h
  | o :: os, s, s', h, hr => by
    rw [FsOp.runAll] at hr
    split_ifs at hr with hc
    obtain ⟨s₁, h₁, hr⟩ := Option.bind_eq_some_iff.1 hr
    exact runAll (h.op o hc.1 hc.2 h₁) hr

/-- The small mount, with an empty root and a slave of 64 blocks. -/
def plainFs : Fs :=
  Fs.mount Region.plain (fun _ => 0) 0 { (default : Inode) with iMode := 0x41ed }
    (fun _ => rdfsInitSlaveMemoryBitmapList default 64) 0

/-- A regular file. -/
def regAttrs : Inode := { (default : Inode) with iMode := 0x81a4 }

theorem fsRun_plainFs (C : Fs → FsOp → Prop) : FsRun Region.plain C plainFs :=
  FsRun.mount _ _ _ _ _ (by decide) (by decide)

/-- A regular file is created, mapped, and gets two blocks. -/
def growTwoBlocks : List FsOp := [.newInode 0 regAttrs 0, .establish 2 0, .alloc 2 0 2 1 .pte 0]

/-- The file of two blocks, and a symbolic link that is created, gets a block and is truncated. -/
theorem FsRun.pages_spec_plain :
    ∃ s, FsRun Region.plain (FsOp.Sound Region.plain) s ∧ s.live = [2, 3] ∧
      (s.inode 2).iBlocks = 2 ∧ ∃ tree staging, PagesOk Region.plain s tree staging := by
  have hlive : ((FsOp.runAll Region.behindTables (FsOp.Sound Region.plain) (growTwoBlocks ++
      [.newInode 0 { (default : Inode) with iMode := 0xa1ff } 0, .alloc 3 0 1 0 .page 0,
        .truncate 3 0 4096]) plainFs).map fun s =>
          (s.live, (s.inode 2).iBlocks)) = some ([2, 3], 2) := by decide +kernel
  obtain ⟨s, hr, hs⟩ := Option.map_eq_some_iff.1 hlive
  rw [Prod.mk.injEq] at hs
  have hrun := (fsRun_plainFs (FsOp.Sound Region.plain)).runAll hr
  obtain ⟨tree, staging, hok, -⟩ := FsRun.pages_spec behind_plain hrun
  exact ⟨s, hrun, hs.1, hs.2, tree, staging, hok⟩

/-- When the file of two blocks is truncated, its page of pte values is on the free list twice. -/
theorem truncate_frees_twice : ∃ s, FsRun Region.plain (fun _ _ => True) s ∧
      ¬∃ tree staging, PagesOk Region.plain s tree staging := by
  have hdup : ((FsOp.runAll Region.behindTables (fun _ _ => True)
      (growTwoBlocks ++ [.truncate 2 0 8192]) plainFs).map fun s =>
        decide (freePages s.master.nvm 0).Nodup) = some false := by decide +kernel
  obtain ⟨s, hr, hs⟩ := Option.map_eq_some_iff.1 hdup
  refine ⟨s, (fsRun_plainFs _).runAll hr, ?_⟩
  rintro ⟨tree, staging, hok⟩
  exact of_decide_eq_false hs (hok.nodup 0)

end Rdfs
