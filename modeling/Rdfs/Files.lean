import Rdfs.Opening
import Rdfs.Truncate

/-!
# The tables of all files

`Files R nvm files tree own` says of several inodes at a time that their tables hold the trees
`tree`, that their slots are apart, and that the pages of the tables are owned next to the pages
`own`, each once. Seen from one of the inodes this is a `FileState` in which the pages of the
others are owned too (`Files.file`). An operation on one inode that is right about that state, and
writes to its slot and to pages of no other table only, is right about all of them
(`Files.update`).
-/

namespace Rdfs

open List Function

variable {sb : Super} {R : Region sb}

/-- The pages of the table of an inode. -/
def treePages (tree : ℕ → Option Tree) (f : ℕ) : List ℕ := (tree f).elim [] Tree.pages

/-- The tables of the inodes `files` hold the trees `tree`, and their pages are owned next to
`own`. -/
structure Files (R : Region sb) (nvm : Nvm) (files : List ℕ) (tree : ℕ → Option Tree)
    (own : List ℕ) : Prop where
  nodup : files.Nodup
  isSlot : ∀ f ∈ files, R.inodes.IsSlot (getRdfsInodePhyAddr sb f)
  slot_inj : ∀ f ∈ files, ∀ g ∈ files,
    getRdfsInodePhyAddr sb f = getRdfsInodePhyAddr sb g → f = g
  owned : Owned R.pages nvm (files.flatMap (treePages tree) ++ own)
  rep : ∀ f ∈ files, ∀ t ∈ tree f, TreeRep nvm.mem t
  pgAddr : ∀ f ∈ files, inodeStruct.getField nvm.mem (getRdfsInodePhyAddr sb f) .iPgAddr =
    (tree f).elim 0 Tree.pud

/-- What one of several inodes has, and what the others have. -/
theorem flatMap_perm_erase {files : List ℕ} {f : ℕ} (hf : f ∈ files) (g : ℕ → List ℕ) :
    (files.flatMap g).Perm (g f ++ (files.erase f).flatMap g) := by
  simpa using (perm_cons_erase hf).flatMap_right g

@[simp] theorem treePages_update_self (tree : ℕ → Option Tree) (f : ℕ) (t : Option Tree) :
    treePages (Function.update tree f t) f = t.elim [] Tree.pages := by
  simp [treePages]

theorem treePages_update_of_ne (tree : ℕ → Option Tree) {f j : ℕ} (t : Option Tree) (hj : j ≠ f) :
    treePages (Function.update tree f t) j = treePages tree j := by
  simp [treePages, hj]

namespace Files

variable {nvm nvm' : Nvm} {files : List ℕ} {tree : ℕ → Option Tree} {own own' : List ℕ} {f : ℕ}

theorem of_perm (h : Files R nvm files tree own) (hp : own.Perm own') :
    Files R nvm files tree own' :=
  ⟨h.nodup, h.isSlot, h.slot_inj, h.owned.of_perm (hp.append_left _), h.rep, h.pgAddr⟩

/-- One of the inodes. -/
theorem file (h : Files R nvm files tree own) (hf : f ∈ files) :
    FileState R nvm f (tree f) ((files.erase f).flatMap (treePages tree) ++ own) := by
  refine ⟨h.isSlot f hf, h.owned.of_perm ?_, h.rep f hf, h.pgAddr f hf⟩
  rw [← append_assoc]
  exact (flatMap_perm_erase hf _).append_right own

theorem mem_of_tree (hf : f ∈ files) {t : Tree} (ht : t ∈ tree f) {p : ℕ} (hp : p ∈ t.pages) :
    p ∈ files.flatMap (treePages tree) := by
  refine mem_flatMap.2 ⟨f, hf, ?_⟩
  rw [treePages, ht]
  exact hp

theorem isPage (h : Files R nvm files tree own) (hf : f ∈ files) {t : Tree} (ht : t ∈ tree f)
    {p : ℕ} (hp : p ∈ t.pages) : R.pages.IsPage p :=
  h.owned.isPage (mem_append_left _ (mem_of_tree hf ht hp))

/-- Slots of distinct inodes are apart. -/
theorem slot_disjoint (h : Files R nvm files tree own) (hf : f ∈ files) {g : ℕ} (hg : g ∈ files)
    (hne : g ≠ f) : getRdfsInodePhyAddr sb f + 128 ≤ getRdfsInodePhyAddr sb g ∨
      getRdfsInodePhyAddr sb g + 128 ≤ getRdfsInodePhyAddr sb f :=
  InodeLayout.isSlot_disjoint (h.isSlot f hf) (h.isSlot g hg) fun heq =>
    hne (h.slot_inj g hg f hf heq.symm)

/-- An operation on one inode. -/
theorem update (h : Files R nvm files tree own) (hf : f ∈ files) {t' : Option Tree} {ws : List ℕ}
    (hfile : FileState R nvm' f t' ((files.erase f).flatMap (treePages tree) ++ own'))
    (hsame : SameBut nvm.mem nvm'.mem (getRdfsInodePhyAddr sb f) ws)
    (hws : ∀ w ∈ ws, R.pages.IsPage w ∧ w ∉ (files.erase f).flatMap (treePages tree)) :
    Files R nvm' files (Function.update tree f t') own' := by
  refine ⟨h.nodup, h.isSlot, h.slot_inj, ?_, fun g hg t ht => ?_, fun g hg => ?_⟩
  · refine hfile.owned.of_perm ?_
    rw [← append_assoc]
    refine Perm.append_right own' ?_
    have hperm := flatMap_perm_erase hf (treePages (Function.update tree f t'))
    rw [flatMap_congr fun j hj => treePages_update_of_ne tree t' (h.nodup.mem_erase_iff.1 hj).1,
      treePages_update_self] at hperm
    exact hperm.symm
  · rcases eq_or_ne g f with rfl | hne
    · rw [update_self] at ht
      exact hfile.rep t ht
    · rw [update_of_ne hne] at ht
      refine (h.rep g hg t ht).congr fun p hp => hsame.sameOn ?_ fun w hw => ?_
      · exact R.isSlot_disjoint_page (h.isSlot f hf) (h.isPage hg ht hp)
      · obtain ⟨hpage, hnot⟩ := hws w hw
        exact hpage.disjoint (h.isPage hg ht hp) fun heq =>
          hnot (heq ▸ mem_of_tree (h.nodup.mem_erase_iff.2 ⟨hne, hg⟩) ht hp)
  · rcases eq_or_ne g f with rfl | hne
    · rw [update_self]
      exact hfile.pgAddr
    · rw [update_of_ne hne, ← h.pgAddr g hg]
      refine Mem.load_congr (hsame.sameOn ?_ fun w hw => ?_)
      · have := h.slot_disjoint hf hg hne
        rw [offset_iPgAddr]
        show _ ∨ getRdfsInodePhyAddr sb g + 72 + 8 ≤ _
        omega
      · have := R.isSlot_disjoint_page (h.isSlot g hg) (hws w hw).1
        rw [offset_iPgAddr]
        show _ ∨ getRdfsInodePhyAddr sb g + 72 + 8 ≤ _
        omega

/-- Writes that leave the tables, the free pages and `i_pg_addr` alone. -/
theorem congr (h : Files R nvm files tree own)
    (hdes : ∀ n, (nvm'.numaDes n).freePagePhy = (nvm.numaDes n).freePagePhy ∧
      (nvm'.numaDes n).freePageCount = (nvm.numaDes n).freePageCount)
    (hm : ∀ p, R.pages.IsPage p → p ∉ own → Mem.SameOn nvm.mem nvm'.mem 4096 p)
    (hpg : ∀ f ∈ files, Mem.SameOn nvm.mem nvm'.mem 8 (getRdfsInodePhyAddr sb f + 72)) :
    Files R nvm' files tree own := by
  have hfile := fun f hf => (h.file hf).congr hdes
    (fun p hp hnot => hm p hp fun hown => hnot (mem_append_right _ hown)) (hpg f hf)
  refine ⟨h.nodup, h.isSlot, h.slot_inj, h.owned.congr hdes fun p hp hnot => hm p hp ?_,
    fun f hf => (hfile f hf).rep, fun f hf => (hfile f hf).pgAddr⟩
  exact fun hown => hnot (mem_append_right _ hown)

/-- Pages taken off the free lists. -/
theorem took (h : Files R nvm files tree own) {ps : List ℕ}
    (hown : Owned R.pages nvm' (ps ++ (files.flatMap (treePages tree) ++ own)))
    (hm : nvm'.mem = nvm.mem) : Files R nvm' files tree (own ++ ps) := by
  refine ⟨h.nodup, h.isSlot, h.slot_inj, hown.of_perm ?_, hm ▸ h.rep, hm ▸ h.pgAddr⟩
  rw [← append_assoc _ own]
  exact perm_append_comm

/-- Writes to a slot that leave `i_pg_addr` alone. -/
theorem write_slot (h : Files R nvm files tree own) (hf : f ∈ files)
    (hdes : ∀ n, (nvm'.numaDes n).freePagePhy = (nvm.numaDes n).freePagePhy ∧
      (nvm'.numaDes n).freePageCount = (nvm.numaDes n).freePageCount)
    (hm : Mem.SameOff nvm.mem nvm'.mem 128 (getRdfsInodePhyAddr sb f))
    (hpg : inodeStruct.getField nvm'.mem (getRdfsInodePhyAddr sb f) .iPgAddr =
      inodeStruct.getField nvm.mem (getRdfsInodePhyAddr sb f) .iPgAddr) :
    Files R nvm' files tree own := by
  have hfile := h.file hf
  have hpage : ∀ p, R.pages.IsPage p → Mem.SameOn nvm.mem nvm'.mem 4096 p := fun p hp =>
    hm.sameOn (R.isSlot_disjoint_page hfile.isSlot hp).symm
  have hfile' : FileState R nvm' f (tree f) ((files.erase f).flatMap (treePages tree) ++ own) :=
    ⟨hfile.isSlot, hfile.owned.congr hdes fun p hp _ => hpage p hp, fun t ht =>
      (hfile.rep t ht).congr fun p hp => hpage p (h.isPage hf ht hp), hpg.trans hfile.pgAddr⟩
  have hupd := h.update hf hfile' (sameBut_of_sameOff hm []) (by simp)
  rwa [update_eq_self] at hupd

/-- An inode without a table more. -/
theorem append (h : Files R nvm files tree own) (hf : f ∉ files)
    (hslot : R.inodes.IsSlot (getRdfsInodePhyAddr sb f))
    (hinj : ∀ g ∈ files, getRdfsInodePhyAddr sb g ≠ getRdfsInodePhyAddr sb f)
    (hpg : inodeStruct.getField nvm.mem (getRdfsInodePhyAddr sb f) .iPgAddr = 0)
    (htree : tree f = none) : Files R nvm (files ++ [f]) tree own := by
  have hpages : (files ++ [f]).flatMap (treePages tree) = files.flatMap (treePages tree) := by
    simp [treePages, htree]
  refine ⟨nodup_append.2 ⟨h.nodup, nodup_singleton f, ?_⟩, ?_, ?_, hpages ▸ h.owned, ?_, ?_⟩
  · rintro g hg _ hf' rfl
    rw [mem_singleton] at hf'
    exact hf (hf' ▸ hg)
  · intro g hg
    rcases mem_append.1 hg with hg | hg
    · exact h.isSlot g hg
    · rwa [mem_singleton.1 hg]
  · intro g hg j hj heq
    rw [mem_append, mem_singleton] at hg hj
    rcases hg with hg | rfl <;> rcases hj with hj | rfl
    · exact h.slot_inj g hg j hj heq
    · exact absurd heq (hinj g hg)
    · exact absurd heq.symm (hinj j hj)
    · rfl
  · intro g hg t ht
    rcases mem_append.1 hg with hg | hg
    · exact h.rep g hg t ht
    · rw [mem_singleton.1 hg, htree] at ht
      cases ht
  · intro g hg
    rcases mem_append.1 hg with hg | hg
    · exact h.pgAddr g hg
    · rw [mem_singleton.1 hg, htree]
      exact hpg

/-- An inode without a table less. -/
theorem erase (h : Files R nvm files tree own) (hf : f ∈ files) (htree : tree f = none) :
    Files R nvm (files.erase f) tree own := by
  have hsub : files.erase f ⊆ files := erase_subset
  have hown := (h.file hf).owned
  rw [htree] at hown
  exact ⟨h.nodup.erase f, fun g hg => h.isSlot g (hsub hg),
    fun g hg j hj => h.slot_inj g (hsub hg) j (hsub hj), hown, fun g hg => h.rep g (hsub hg),
    fun g hg => h.pgAddr g (hsub hg)⟩

end Files

/-! ## Removing the table of a file -/

/-- `rdfs_rm_pg_table` on an inode whose blocks are its own pages passes each page of the table
and each block to `rdfs_free_block` once. -/
theorem FileState.rmPgTable {nvm : Nvm} {ino : ℕ} {t : Tree} {own : List ℕ}
    (h : FileState R nvm ino (some t) (t.ents ++ own)) (hlen : t.ents.length ≤ 2 ^ 27) :
    (∃ ps, ps.Perm (t.pages ++ t.ents) ∧ ∃ m, rdfsRmPgTable sb nvm ino =
        { freeBlocks sb nvm ps with mem := m }) ∧
      FileState R (rdfsRmPgTable sb nvm ino) ino none own ∧
      Stored nvm.mem (rdfsRmPgTable sb nvm ino).mem (getRdfsInodePhyAddr sb ino)
        [(.iPgAddr, 0)] (t.pages ++ t.ents) ∧
      SameInodes nvm (rdfsRmPgTable sb nvm ino) := by
  have hown : Owned R.pages nvm ((t.pages ++ t.ents) ++ own) := by
    rw [append_assoc]
    exact h.owned
  obtain ⟨ps, hperm, hr⟩ := (h.rep t rfl).rmPgTable (R := R)
    (fun p hp => hown.isPage (mem_append_left _ hp)) (nodup_append.1 hown.nodup).1 rfl h.pgAddr hlen
  obtain ⟨hfree, hinodes⟩ := (hown.of_perm (hperm.symm.append_right own)).freeBlocks
  have hput : Mem.SameOff (freeBlocks sb nvm ps).mem
      (inodeStruct.putField (freeBlocks sb nvm ps).mem (getRdfsInodePhyAddr sb ino) .iPgAddr 0)
      128 (getRdfsInodePhyAddr sb ino) :=
    (inodeStruct.sameOff_putField _ _ _ _).mono (by omega)
      (by rw [offset_iPgAddr]; show _ + 72 + 8 ≤ _; omega)
  refine ⟨⟨ps, hperm, _, hr⟩, ?_, ?_, ?_⟩
  · rw [hr]
    refine ⟨h.isSlot, hfree.write_slot h.isSlot hput fun n => ⟨rfl, rfl⟩, by simp, ?_⟩
    exact inodeStruct.getField_putField _ _ _ _
  · rw [hr]
    exact (((sameOffPages_freeBlocks ps nvm).mono hperm.subset).stored _).trans
      (stored_putFields _ _ [(.iPgAddr, 0)] _)
  · rw [hr]
    exact hinodes

end Rdfs
