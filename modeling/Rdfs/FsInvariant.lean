import Rdfs.FileSystem

/-!
# The invariant of the file system

`PagesInv` and `KernelInv` are the two parts of the invariant, each with one lemma for an operation
that changes one inode (`PagesInv.put`, `KernelInv.put`). The sections below go through the
operations.
-/

namespace Rdfs

open List Function Option

variable {sb : Super} {R : Region sb} {s : Fs} {tree : ℕ → Option Tree} {metas staging : List ℕ}
  {f : ℕ}

/-! ## Pages -/

/-- The pages that an inode has to itself besides its table : those of a directory or a symbolic
link. The entries of a regular file are pages of pte values. -/
def Fs.data (s : Fs) (tree : ℕ → Option Tree) (f : ℕ) : List ℕ :=
  if SIsReg (s.inode f).iMode then [] else fileEnts (tree f)

/-- The inodes in use have slots and tables in order, and the pages of the region that are not
free are the pages of the tables, the pages of directories and symbolic links, the pages `metas`
of pte values, which are those that regular files have entered, and the page `staging` of the
buffer. -/
structure PagesInv (R : Region sb) (s : Fs) (tree : ℕ → Option Tree) (metas staging : List ℕ) :
    Prop where
  table : InodeInv R.inodes s.master.nvm s.live
  files : Files R s.master.nvm s.files tree (s.files.flatMap (s.data tree) ++ (metas ++ staging))
  iIno : ∀ f ∈ s.files, (s.inode f).iIno = f
  blocks : ∀ f ∈ s.files, (fileEnts (tree f)).length = (s.inode f).iBlocks
  le : ∀ f ∈ s.files, (s.inode f).iBlocks ≤ 2 ^ 23
  entered : ∀ f ∈ s.files, SIsReg (s.inode f).iMode → fileEnts (tree f) ⊆ metas
  enters : ∀ p ∈ metas, ∃ f ∈ s.files, SIsReg (s.inode f).iMode ∧ p ∈ fileEnts (tree f)
  cursor : CursorIn s.master metas
  buffer : staging ⊆ [s.globalPhyAddr] ∧ (s.flag = false → staging = [])
  gone : ∀ f, f ∉ s.files → tree f = none

theorem Fs.mem_reserved (R : Region sb) (hf : f ∈ s.files) : f ∈ R.inodes.reserved ++ s.live := by
  rcases mem_cons.1 hf with rfl | hf
  · refine mem_append_left _ ?_
    unfold InodeLayout.reserved
    split_ifs <;> simp
  · exact mem_append_right _ hf

@[simp] theorem Fs.put_files (s : Fs) (f : ℕ) (r : Inode × Master × NvmLists) :
    (s.put f r).files = s.files := rfl

theorem Fs.put_inode_self (s : Fs) (f : ℕ) (r : Inode × Master × NvmLists) :
    (s.put f r).inode f = r.1 := by
  simp [Fs.put]

theorem Fs.put_inode_of_ne (s : Fs) (r : Inode × Master × NvmLists) {j : ℕ} (hj : j ≠ f) :
    (s.put f r).inode j = s.inode j := by
  simp [Fs.put, hj]

variable {r : Inode × Master × NvmLists} {t : Tree} {cpu num zeroing phys ino e : ℕ} {n : Fin 2}
  {inode : Inode} {nvm : Nvm}

/-- The pages of the inodes, after a change to one of them. -/
theorem Fs.data_put_perm {t' : Option Tree} (hnodup : s.files.Nodup) (hf : f ∈ s.files)
    (hmode : r.1.iMode = (s.inode f).iMode) :
    (s.files.flatMap ((s.put f r).data (Function.update tree f t'))).Perm
      ((if SIsReg (s.inode f).iMode then [] else fileEnts t') ++
        (s.files.erase f).flatMap (s.data tree)) := by
  have hperm := flatMap_perm_erase hf ((s.put f r).data (Function.update tree f t'))
  have hrest : (s.files.erase f).flatMap ((s.put f r).data (Function.update tree f t')) =
      (s.files.erase f).flatMap (s.data tree) := flatMap_congr fun j hj => by
    have hne := (hnodup.mem_erase_iff.1 hj).1
    rw [Fs.data, Fs.data, Fs.put_inode_of_ne s r hne, update_of_ne hne]
  rwa [hrest, Fs.data, Fs.put_inode_self, hmode, update_self] at hperm

/-- An operation on one inode. -/
theorem PagesInv.put (h : PagesInv R s tree metas staging) (hf : f ∈ s.files) {t' : Option Tree}
    {metas' ws : List ℕ} (hino : r.1.iIno = f) (hmode : r.1.iMode = (s.inode f).iMode)
    (hblocks : (fileEnts t').length = r.1.iBlocks) (hle : r.1.iBlocks ≤ 2 ^ 23)
    (hfile : FileState R r.2.1.nvm f t' ((s.files.erase f).flatMap (treePages tree) ++
      ((if SIsReg (s.inode f).iMode then [] else fileEnts t') ++
        (s.files.erase f).flatMap (s.data tree) ++ (metas' ++ staging))))
    (hsame : SameBut s.master.nvm.mem r.2.1.nvm.mem (getRdfsInodePhyAddr sb f) ws)
    (hws : ∀ w ∈ ws, R.pages.IsPage w ∧ w ∉ (s.files.erase f).flatMap (treePages tree))
    (hinodes : SameInodes s.master.nvm r.2.1.nvm)
    (hentered : SIsReg (s.inode f).iMode → fileEnts t' ⊆ metas' ∧ fileEnts (tree f) ⊆ fileEnts t')
    (hold : metas ⊆ metas')
    (hnew : ∀ p ∈ metas', p ∈ metas ∨ SIsReg (s.inode f).iMode ∧ p ∈ fileEnts t')
    (hcur : CursorIn r.2.1 metas') :
    PagesInv R (s.put f r) (Function.update tree f t') metas' staging := by
  have hnodup := h.files.nodup
  refine ⟨?_, ?_, fun j hj => ?_, fun j hj => ?_, fun j hj => ?_, fun j hj hreg => ?_,
    fun p hp => ?_, hcur, h.buffer, fun j hj => ?_⟩
  · exact h.table.write_slot (Fs.mem_reserved R hf) (fun w hw => (hws w hw).1) hsame hinodes
  · have hfiles := h.files.update hf hfile hsame hws
    exact hfiles.of_perm ((Fs.data_put_perm hnodup hf hmode).symm.append_right _)
  · rcases eq_or_ne j f with rfl | hne
    · rw [Fs.put_inode_self, hino]
    · rw [Fs.put_inode_of_ne s r hne, h.iIno j hj]
  · rcases eq_or_ne j f with rfl | hne
    · rw [Fs.put_inode_self, update_self, hblocks]
    · rw [Fs.put_inode_of_ne s r hne, update_of_ne hne, h.blocks j hj]
  · rcases eq_or_ne j f with rfl | hne
    · rwa [Fs.put_inode_self]
    · rw [Fs.put_inode_of_ne s r hne]
      exact h.le j hj
  · rcases eq_or_ne j f with rfl | hne
    · rw [Fs.put_inode_self, hmode] at hreg
      rw [update_self]
      exact (hentered hreg).1
    · rw [Fs.put_inode_of_ne s r hne] at hreg
      rw [update_of_ne hne]
      exact Subset.trans (h.entered j hj hreg) hold
  · have hself : SIsReg (s.inode f).iMode → p ∈ fileEnts t' →
        ∃ j ∈ (s.put f r).files, SIsReg ((s.put f r).inode j).iMode ∧
          p ∈ fileEnts (Function.update tree f t' j) := fun hreg hp =>
      ⟨f, hf, by rwa [Fs.put_inode_self, hmode], by rwa [update_self]⟩
    rcases hnew p hp with hp | ⟨hreg, hp⟩
    · obtain ⟨j, hj, hreg, hpj⟩ := h.enters p hp
      rcases eq_or_ne j f with rfl | hne
      · exact hself hreg ((hentered hreg).2 hpj)
      · exact ⟨j, hj, by rwa [Fs.put_inode_of_ne s r hne], by rwa [update_of_ne hne]⟩
    · exact hself hreg hp
  · have hne : j ≠ f := fun heq => hj (heq ▸ hf)
    rw [update_of_ne hne, h.gone j hj]

/-! ## The kernel's page table -/

/-- The areas are in order, the entries of an area are those of the table of the inode that has
it, an area that no inode has is without entries, and outside of areas there are none. -/
structure KernelInv (s : Fs) (tree : ℕ → Option Tree) : Prop where
  space : ∃ free used, SpaceInv s.toSpace free used
  holds : ∀ f, AreaHolds s.master.kernel (s.inode f).iVirtAddr (tree f)
  empty : ∀ v, (∀ f, (s.inode f).iVirtAddr ≠ v) → AreaHolds s.master.kernel v none
  pud : ∀ g, s.master.kernel.pud g ≠ 0 → ∃ v ∈ regAreas, v / 2 ^ 30 ≤ g ∧ g < v / 2 ^ 30 + 32
  pmd : ∀ g, s.master.kernel.pmd g ≠ 0 → ∃ v ∈ dirAreas, g = v / 2 ^ 21

/-- An operation on one inode, which had the area `v` or gets it. -/
theorem KernelInv.put (h : KernelInv s tree) {t' : Option Tree} {v : ℕ}
    (hspace : ∃ free used, SpaceInv (s.put f r).toSpace free used)
    (hold : (s.inode f).iVirtAddr = v ∨ ((s.inode f).iVirtAddr = 0 ∧ r.1.iVirtAddr = v))
    (hnew : r.1.iVirtAddr = v ∨ (r.1.iVirtAddr = 0 ∧ AreaHolds r.2.1.kernel v none))
    (honly : OnlyArea s.master.kernel r.2.1.kernel v)
    (hholds : AreaHolds r.2.1.kernel r.1.iVirtAddr t') :
    KernelInv (s.put f r) (Function.update tree f t') := by
  obtain ⟨free, used, hinv⟩ := h.space
  obtain ⟨free', used', hinv'⟩ := hspace
  -- no other inode has the area
  have hother : ∀ j, j ≠ f → (s.inode j).iVirtAddr = v → v = 0 := by
    intro j hj hjv
    by_contra hv
    rcases hold with hold | ⟨-, hnew⟩
    · exact hj (hinv.unique j f (hjv.trans hold.symm) (hjv ▸ hv))
    · have hj' : ((s.put f r).inode j).iVirtAddr = v := by rw [Fs.put_inode_of_ne s r hj, hjv]
      have hf' : ((s.put f r).inode f).iVirtAddr = v := by rw [Fs.put_inode_self, hnew]
      exact hj (hinv'.unique j f (hj'.trans hf'.symm) (hj' ▸ hv))
  refine ⟨⟨free', used', hinv'⟩, fun j => ?_, fun v' hv' => ?_, fun g hg => ?_, fun g hg => ?_⟩
  · rcases eq_or_ne j f with rfl | hne
    · rwa [Fs.put_inode_self, update_self]
    · rw [Fs.put_inode_of_ne s r hne, update_of_ne hne]
      rcases eq_or_ne (s.inode j).iVirtAddr v with hjv | hjv
      · rw [hjv, hother j hne hjv]
        exact areaHolds_zero _ _
      · exact (h.holds j).other honly hjv
  · rcases eq_or_ne v' v with rfl | hne
    · have hf' := hv' f
      rw [Fs.put_inode_self] at hf'
      exact (hnew.resolve_left hf').2
    · rcases eq_or_ne v' 0 with rfl | h0
      · exact areaHolds_zero _ _
      · refine (h.empty v' fun j hj => ?_).other honly hne
        rcases eq_or_ne j f with rfl | hjf
        · rcases hold with hold | ⟨hold, -⟩
          · exact hne (hj.symm.trans hold)
          · exact h0 (hj.symm.trans hold)
        · exact hv' j (by rw [Fs.put_inode_of_ne s r hjf, hj])
  · by_cases hin : v ∈ regAreas ∧ v / 2 ^ 30 ≤ g ∧ g < v / 2 ^ 30 + 32
    · exact ⟨v, hin.1, hin.2⟩
    · exact h.pud g (honly.pud g hin ▸ hg)
  · by_cases hin : v ∈ dirAreas ∧ g = v / 2 ^ 21
    · exact ⟨v, hin.1, hin.2⟩
    · exact h.pmd g (honly.pmd g hin ▸ hg)

/-- An operation that leaves the inodes and the entries alone. -/
theorem KernelInv.congr {s' : Fs} (h : KernelInv s tree) (hareas : s'.areas = s.areas)
    (hinode : s'.inode = s.inode) (hk : s'.master.kernel = s.master.kernel) :
    KernelInv s' tree := by
  obtain ⟨free, used, hinv⟩ := h.space
  refine ⟨⟨free, used, hinv.congr hareas (fun j => by rw [hinode]) fun j _ => by rw [hinode]⟩,
    fun f => ?_, fun v hv => ?_, ?_, ?_⟩
  · rw [hk, hinode]
    exact h.holds f
  · rw [hk]
    exact h.empty v fun f => by rw [← hinode]; exact hv f
  · rw [hk]
    exact h.pud
  · rw [hk]
    exact h.pmd

/-! ## Appending blocks -/

/-- The pages of a table, and pages owned next to it, are none of the other pages that are owned
next to it. -/
theorem FileState.apart {st : Nvm} {ps qs : List ℕ} (h : FileState R st f (some t) (ps ++ qs)) :
    ∀ w ∈ t.pages ++ qs, R.pages.IsPage w ∧ w ∉ ps := by
  have hown : Owned R.pages st (ps ++ (t.pages ++ qs)) := h.owned.of_perm (by
    rw [elim_some, ← append_assoc, ← append_assoc]
    exact perm_append_comm.append_right qs)
  exact fun w hw => ⟨hown.isPage (mem_append_right _ hw), fun hin =>
    (nodup_append.1 hown.nodup).2.2 w hin w hw rfl⟩

section

variable (h : PagesInv R s tree metas staging) (hf : f ∈ s.files)
include h hf

/-- The inode `f` as its own number says. -/
theorem PagesInv.file : FileState R s.master.nvm (s.inode f).iIno (tree f)
    ((s.files.erase f).flatMap (treePages tree) ++
      (s.files.flatMap (s.data tree) ++ (metas ++ staging))) := by
  rw [h.iIno f hf]
  exact h.files.file hf

theorem PagesInv.pud_ne_zero (ht : t ∈ tree f) : t.pud ≠ 0 := fun h0 =>
  R.not_isPage_zero (h0 ▸ h.files.isPage hf ht (by simp [Tree.pages]))

/-- The slot says whether there is a table. -/
theorem PagesInv.hasTable_iff : HasTable sb s.master.nvm.mem f ↔ ∃ t, tree f = some t := by
  rw [HasTable, h.files.pgAddr f hf]
  cases htree : tree f with
  | none => simp
  | some t => simpa using h.pud_ne_zero hf htree

theorem PagesInv.heldSize_eq : heldSize (tree f) = s.tableHeld sb f := by
  unfold Fs.tableHeld
  cases htree : tree f with
  | none =>
    rw [if_neg fun hc => by simpa [htree] using (h.hasTable_iff hf).1 hc]
    rfl
  | some t =>
    rw [if_pos ((h.hasTable_iff hf).2 ⟨t, htree⟩), ← h.blocks f hf, htree]
    rfl

/-- `rdfs_alloc_blocks` with pages. -/
theorem PagesInv.alloc_page (hv : (FsOp.alloc f cpu num zeroing .page phys).Valid s)
    (hs : (FsOp.alloc f cpu num zeroing .page phys).Sound R s) :
    ∃ t' a es, rdfsAllocBlocks sb cpu s.master (s.inode f) num zeroing .page phys = (0, a) ∧
      Grown sb (getCpuNuma sb cpu) s.master a.master (s.inode f) a.inode (tree f) t' es es ∧
      PagesInv R (s.put f (a.inode, a.master, s.areas)) (Function.update tree f (some t')) metas
        staging := by
  obtain ⟨-, hnum, hkind⟩ := hv
  have hreg : ¬SIsReg (s.inode f).iMode := fun hreg => by simpa using hkind.2 hreg
  obtain ⟨hplaced, hroom⟩ := hs
  obtain ⟨t', a, es, hr, hes, hrep, hgrown, -, hmaster⟩ := (h.file hf).allocBlocks_page
    (h.blocks f hf) (rfl) (by rw [h.iIno f hf]) hplaced hnum
    (by rw [h.heldSize_eq hf]; exact hroom) zeroing phys
  obtain ⟨b, hinode⟩ := hgrown.inode_eq
  have hents : fileEnts (some t') = fileEnts (tree f) ++ es := hgrown.ents
  have hfile : FileState R a.master.nvm f (some t') ((s.files.erase f).flatMap (treePages tree) ++
      ((if SIsReg (s.inode f).iMode then [] else fileEnts (some t')) ++
        (s.files.erase f).flatMap (s.data tree) ++ (metas ++ staging))) := by
    have hperm := flatMap_perm_erase hf (s.data tree)
    rw [h.iIno f hf] at hrep
    refine hrep.fileState.of_perm (perm_iff_count.2 fun x => ?_)
    have := hperm.count_eq x
    rw [Fs.data, if_neg hreg] at this
    simp only [count_append, if_neg hreg, hents] at this ⊢
    omega
  refine ⟨t', a, es, hr, hgrown, h.put hf ?_ ?_ ?_ ?_ hfile
    (by have := hgrown.sameBut; rwa [h.iIno f hf] at this) (fun w hw => hfile.apart w ?_)
    hgrown.sameInodes (fun h' => absurd h' hreg) (Subset.refl _) (fun p hp => Or.inl hp) ?_⟩
  · rw [hinode]
    exact h.iIno f hf
  · rw [hinode]
  · rw [hents, hinode, length_append, h.blocks f hf]
  · rw [hinode, hes]
    exact hplaced.le
  · rw [if_neg hreg, hents]
    simp only [mem_append] at hw ⊢
    tauto
  · rw [hmaster]
    exact h.cursor

/-- A regular file has got the blocks `es` of slaves, for which the pages `new` of pte values have
been taken. -/
theorem PagesInv.put_pte (hreg : SIsReg (s.inode f).iMode) {a : AllocState} {t' : Tree}
    {new es : List ℕ} (hrep : FileRep R a.master.nvm (s.inode f).iIno t'
      (new ++ ((s.files.erase f).flatMap (treePages tree) ++
        (s.files.flatMap (s.data tree) ++ (metas ++ staging)))))
    (hgrown : Grown sb n s.master a.master (s.inode f) a.inode (tree f) t' es es)
    (hle : (s.inode f).iBlocks + es.length ≤ 2 ^ 23) (hsub : es ⊆ new ++ metas) (hnew : new ⊆ es)
    (hcur : CursorIn a.master (new ++ metas)) :
    PagesInv R (s.put f (a.inode, a.master, s.areas)) (Function.update tree f (some t'))
      (new ++ metas) staging := by
  obtain ⟨b, hinode⟩ := hgrown.inode_eq
  have hents : fileEnts (some t') = fileEnts (tree f) ++ es := hgrown.ents
  have hfile : FileState R a.master.nvm f (some t') ((s.files.erase f).flatMap (treePages tree) ++
      ((if SIsReg (s.inode f).iMode then [] else fileEnts (some t')) ++
        (s.files.erase f).flatMap (s.data tree) ++ (new ++ metas ++ staging))) := by
    have hperm := flatMap_perm_erase hf (s.data tree)
    rw [h.iIno f hf] at hrep
    refine hrep.fileState.of_perm (perm_iff_count.2 fun x => ?_)
    have := hperm.count_eq x
    rw [Fs.data, if_pos hreg] at this
    simp only [count_append, if_pos hreg] at this ⊢
    omega
  refine h.put hf ?_ ?_ ?_ ?_ hfile
    (by have := hgrown.sameBut; rwa [h.iIno f hf] at this) (fun w hw => hfile.apart w ?_)
    hgrown.sameInodes (fun _ => ⟨?_, ?_⟩) (subset_append_right _ _) (fun p hp => ?_) hcur
  · rw [hinode]
    exact h.iIno f hf
  · rw [hinode]
  · rw [hents, hinode, length_append, h.blocks f hf]
  · rw [hinode]
    exact hle
  · have hsub' := fun hes => mem_append.1 (hsub (a := w) hes)
    simp only [mem_append] at hw ⊢
    tauto
  · rw [hents]
    exact append_subset.2 ⟨fun p hp => mem_append_right _ (h.entered f hf hreg hp), hsub⟩
  · rw [hents]
    exact subset_append_left _ _
  · rcases mem_append.1 hp with hp | hp
    · exact Or.inr ⟨hreg, by rw [hents]; exact mem_append_right _ (hnew hp)⟩
    · exact Or.inl hp

/-- `rdfs_alloc_blocks` returns 0, and the blocks are behind the old ones. -/
theorem PagesInv.alloc {type : AllocType} (hv : (FsOp.alloc f cpu num zeroing type phys).Valid s)
    (hs : (FsOp.alloc f cpu num zeroing type phys).Sound R s) :
    ∃ t' a es metas', rdfsAllocBlocks sb cpu s.master (s.inode f) num zeroing type phys = (0, a) ∧
      Grown sb (getCpuNuma sb cpu) s.master a.master (s.inode f) a.inode (tree f) t' es es ∧
      PagesInv R (s.put f (a.inode, a.master, s.areas)) (Function.update tree f (some t')) metas'
        staging := by
  cases type with
  | page =>
    obtain ⟨t', a, es, hr, hgrown, hinv⟩ := h.alloc_page hf hv hs
    exact ⟨t', a, es, metas, hr, hgrown, hinv⟩
  | pte =>
    obtain ⟨hplaced, hroom⟩ := hs
    obtain ⟨t', a, new, es, hr, hes, hrep, hgrown, hsub, hnew, hcur⟩ := (h.file hf).allocBlocks_pte
      (h.blocks f hf) h.cursor (fun p hp => by simp [hp]) num rfl (by rw [h.iIno f hf]) hplaced
      (by rw [h.heldSize_eq hf]; exact hroom) zeroing phys
    exact ⟨t', a, es, new ++ metas, hr, hgrown,
      h.put_pte hf (hv.2.2.1 rfl) hrep hgrown (hes ▸ hplaced.le) hsub hnew hcur⟩

end

/-- Blocks that are appended. -/
theorem KernelInv.grown (h : KernelInv s tree) {a : AllocState} {t' : Tree} {es ws : List ℕ}
    (hg : Grown sb n s.master a.master (s.inode f) a.inode (tree f) t' es ws) :
    KernelInv (s.put f (a.inode, a.master, s.areas)) (Function.update tree f (some t')) := by
  obtain ⟨free, used, hinv⟩ := h.space
  obtain ⟨b, hinode⟩ := hg.inode_eq
  have hv : a.inode.iVirtAddr = (s.inode f).iVirtAddr := by rw [hinode]
  refine h.put ⟨free, used, hinv.congr rfl (Space.put_iVirtAddr_of_eq hv) fun j _ =>
    Space.put_iMode (by rw [hinode]) j⟩ (Or.inl rfl) (Or.inl hv) hg.onlyArea ?_
  rw [hv]
  exact hg.holds (h.holds f)

/-! ## Removing tables -/

theorem Fs.put_self (s : Fs) (f : ℕ) : s.put f (s.inode f, s.master, s.areas) = s := by
  simp [Fs.put, Space.put]

/-- What `__rdfs_truncate_blocks` does. -/
theorem rawRdfsTruncateBlocks_cases (sb : Super) (g : Master) (hino : inode.iIno = ino)
    (start stop : ℕ) : (¬CutsTable sb g.nvm.mem ino start stop →
      rawRdfsTruncateBlocks sb g inode start stop = (inode, g)) ∧
    (CutsTable sb g.nvm.mem ino start stop →
      rawRdfsTruncateBlocks sb g inode start stop = ({ inode with iBlocks := 0 }, { g with
        nvm := rdfsRmPgTable sb g.nvm ino
        kernel := (unnvmap sb g.nvm.mem g.kernel inode.iVirtAddr
          (rdfsGetPud sb g.nvm.mem ino)).2 })) := by
  subst hino
  unfold CutsTable HasTable rawRdfsTruncateBlocks
  refine ⟨fun hc => ?_, fun hc => ?_⟩
  · dsimp only
    split_ifs with h0 h1
    · rfl
    · rfl
    · exact absurd ⟨h0, by omega⟩ hc
  · dsimp only
    rw [if_neg hc.1, if_neg (by omega)]

section

variable (h : PagesInv R s tree metas staging) (hf : f ∈ s.files) (ht : tree f = some t)
include h hf ht

/-- The blocks of an inode whose table is removed are its own pages. -/
theorem PagesInv.cut_file (hreg : SIsReg (s.inode f).iMode → (s.inode f).iBlocks = 0) :
    FileState R s.master.nvm f (some t) (t.ents ++ ((s.files.erase f).flatMap (treePages tree) ++
      ((s.files.erase f).flatMap (s.data tree) ++ (metas ++ staging)))) := by
  have hfile := h.files.file hf
  have hperm := flatMap_perm_erase hf (s.data tree)
  rw [ht] at hfile
  have hdata : s.data tree f = t.ents := by
    rw [Fs.data]
    split_ifs with hr
    · have hlen := h.blocks f hf
      rw [hreg hr, ht] at hlen
      exact (length_eq_zero_iff.1 hlen).symm
    · rw [ht]
      rfl
  rw [hdata] at hperm
  refine hfile.of_perm (perm_iff_count.2 fun x => ?_)
  have := hperm.count_eq x
  simp only [count_append] at this ⊢
  omega

theorem PagesInv.ents_length_le : t.ents.length ≤ 2 ^ 23 := by
  have := h.le f hf
  rwa [← h.blocks f hf, ht] at this

section

variable (hreg : SIsReg (s.inode f).iMode → (s.inode f).iBlocks = 0)
include hreg

/-- `rdfs_rm_pg_table` passes to `rdfs_free_block` pages that are not free, each once, and that no
other inode has. -/
theorem PagesInv.cut_frees : ∃ ps, (∃ m, rdfsRmPgTable sb s.master.nvm f =
        { freeBlocks sb s.master.nvm ps with mem := m }) ∧
      ps.Nodup ∧ (∀ p ∈ ps, ∀ n, p ∉ freePages s.master.nvm n) ∧
      ∀ g ∈ s.files, g ≠ f → ∀ p ∈ ps, p ∉ treePages tree g ∧ p ∉ fileEnts (tree g) := by
  have hfile := h.cut_file hf ht hreg
  have hlen := h.ents_length_le hf ht
  obtain ⟨⟨ps, hperm, m, hm⟩, -⟩ := hfile.rmPgTable (by omega)
  have hown := hfile.owned
  rw [elim_some, ← append_assoc] at hown
  refine ⟨ps, ⟨m, hm⟩, hperm.nodup_iff.2 (nodup_append.1 hown.nodup).1,
    fun p hp n hfree => hown.not_free hfree (mem_append_left _ (hperm.subset hp)),
    fun g hg hne p hp => ?_⟩
  have hg' := h.files.nodup.mem_erase_iff.2 ⟨hne, hg⟩
  have hnot := (nodup_append.1 hown.nodup).2.2 p (hperm.subset hp) p
  refine ⟨fun hin => hnot ?_ rfl, fun hin => hnot ?_ rfl⟩
  · exact mem_append_left _ (mem_flatMap.2 ⟨g, hg', hin⟩)
  · refine mem_append_right _ ?_
    by_cases hr : SIsReg (s.inode g).iMode
    · exact mem_append_right _ (mem_append_left _ (h.entered g hg hr hin))
    · exact mem_append_left _ (mem_flatMap.2 ⟨g, hg', by rwa [Fs.data, if_neg hr]⟩)

/-- Removing the table of an inode writes to its slot, its table and its own pages. -/
theorem PagesInv.cut_stored : ∃ ps, (∀ p ∈ ps, R.pages.IsPage p) ∧ Stored s.master.nvm.mem
      (rdfsRmPgTable sb s.master.nvm f).mem (getRdfsInodePhyAddr sb f) [(.iPgAddr, 0)] ps := by
  have hfile := h.cut_file hf ht hreg
  have hlen := h.ents_length_le hf ht
  obtain ⟨-, -, hst, -⟩ := hfile.rmPgTable (by omega)
  refine ⟨_, fun p hp => hfile.owned.isPage ?_, hst⟩
  rw [elim_some, ← append_assoc]
  exact mem_append_left _ hp

/-- Removing the table of an inode. -/
theorem PagesInv.cut (k : KernelMap) : PagesInv R (s.put f ({ s.inode f with iBlocks := 0 },
        { s.master with nvm := rdfsRmPgTable sb s.master.nvm f, kernel := k }, s.areas))
      (Function.update tree f none) metas staging := by
  have hfile := h.cut_file hf ht hreg
  have hlen := h.ents_length_le hf ht
  obtain ⟨-, hfile', hsame, hinodes⟩ := hfile.rmPgTable (by omega)
  have hapart : ∀ w ∈ t.pages ++ t.ents,
      R.pages.IsPage w ∧ w ∉ (s.files.erase f).flatMap (treePages tree) := fun w hw => by
    have hown := hfile.owned
    rw [elim_some, ← append_assoc] at hown
    exact ⟨hown.isPage (mem_append_left _ hw), fun hin =>
      (nodup_append.1 hown.nodup).2.2 w hw w (mem_append_left _ hin) rfl⟩
  refine h.put hf (h.iIno f hf) rfl rfl (Nat.zero_le _) ?_ (hsame.sameBut (by simp)) hapart hinodes
    (fun hr => ?_) (Subset.refl _) (fun p hp => Or.inl hp) h.cursor
  · rwa [show (if SIsReg (s.inode f).iMode then [] else fileEnts none) = ([] : List ℕ) from
      ite_self _, nil_append]
  · have hnil : fileEnts (tree f) = [] := length_eq_zero_iff.1 (by rw [h.blocks f hf, hreg hr])
    rw [hnil]
    exact ⟨nil_subset _, Subset.refl _⟩

end

end

section

variable {s : Space} {free used : Fin 2 → List ℕ} (h : SpaceInv s free used)
include h

/-- The area of an inode. -/
theorem SpaceInv.area (f : ℕ) : (s.inode f).iVirtAddr = 0 ∨ (s.inode f).iVirtAddr ∈ dirAreas ∨
      (s.inode f).iVirtAddr ∈ regAreas := by
  rcases eq_or_ne (s.inode f).iVirtAddr 0 with hv | hv
  · exact Or.inl hv
  · obtain ⟨i, -, hused⟩ := h.inUse f hv
    have harea := h.areas.mem_of_used hused
    rcases node_cases i with rfl | rfl
    · exact Or.inr (Or.inr harea)
    · exact Or.inr (Or.inl harea)

/-- A free area belongs to no inode. -/
theorem SpaceInv.ne_of_free {i : Fin 2} {p : ℕ} (hp : p ∈ free i) (f : ℕ) :
    (s.inode f).iVirtAddr ≠ p := by
  intro hf
  have harea := h.areas.mem_of_free hp
  obtain ⟨i', -, hused⟩ := h.inUse f (hf ▸ ne_zero_of_mem_areasOf harea)
  rw [hf] at hused
  obtain rfl := mode_unique harea (h.areas.mem_of_used hused)
  exact (nodup_append.1 (h.areas.nodup i)).2.2 p hp p hused rfl

end

section

variable (h : KernelInv s tree) (hp : PagesInv R s tree metas staging) (hf : f ∈ s.files)
  (ht : tree f = some t)
include h hp hf ht

/-- `unnvmap` with the table of an inode takes out the entries of its area. -/
theorem KernelInv.unnvmap :
    AreaHolds (Rdfs.unnvmap sb s.master.nvm.mem s.master.kernel (s.inode f).iVirtAddr
        (rdfsGetPud sb s.master.nvm.mem f)).2 (s.inode f).iVirtAddr none ∧
      OnlyArea s.master.kernel (Rdfs.unnvmap sb s.master.nvm.mem s.master.kernel
        (s.inode f).iVirtAddr (rdfsGetPud sb s.master.nvm.mem f)).2 (s.inode f).iVirtAddr := by
  have hpud := hp.pud_ne_zero hf ht
  have hget : rdfsGetPud sb s.master.nvm.mem f = rdfsVa sb t.pud := by
    rw [rdfsGetPud, hp.files.pgAddr f hf, ht]
    exact if_neg hpud
  have hlen := hp.ents_length_le hf ht
  have hrep := hp.files.rep f hf t ht
  have hpmds := hrep.length_pmds
  have hholds := h.holds f
  rw [ht] at hholds
  rw [hget]
  obtain ⟨free, used, hinv⟩ := h.space
  rcases hinv.area f with hv | hv
  · rw [hv, Rdfs.unnvmap, if_neg (rdfsVa_ne_zero sb hpud), if_pos rfl]
    exact ⟨areaHolds_zero _ _, OnlyArea.refl _ _⟩
  · exact unnvmap_tree hv hrep hpud (by omega) hholds

theorem KernelInv.cut (nvm : Nvm) :
    KernelInv (s.put f ({ s.inode f with iBlocks := 0 }, { s.master with
        nvm := nvm
        kernel := (Rdfs.unnvmap sb s.master.nvm.mem s.master.kernel (s.inode f).iVirtAddr
          (rdfsGetPud sb s.master.nvm.mem f)).2 }, s.areas)) (Function.update tree f none) := by
  obtain ⟨free, used, hinv⟩ := h.space
  obtain ⟨hholds, honly⟩ := h.unnvmap hp hf ht
  generalize (Rdfs.unnvmap sb _ _ _ _).2 = k' at hholds honly ⊢
  exact h.put ⟨free, used, hinv.congr rfl (Space.put_iVirtAddr_of_eq rfl) fun j _ =>
    Space.put_iMode rfl j⟩ (Or.inl rfl) (Or.inl rfl) honly hholds

end

/-! ## Slots -/

/-- A change that leaves the numbers, the kinds and the blocks of inodes alone. -/
theorem PagesInv.congr {s' : Fs} (h : PagesInv R s tree metas staging) (hlive : s'.live = s.live)
    (hcore : ∀ j, (s'.inode j).iIno = (s.inode j).iIno ∧
      (SIsReg (s'.inode j).iMode ↔ SIsReg (s.inode j).iMode) ∧
      (s'.inode j).iBlocks = (s.inode j).iBlocks)
    (hcur : s'.master.pteCnt = s.master.pteCnt ∧ s'.master.ptePhyAddr = s.master.ptePhyAddr)
    (hbuf : s'.flag = s.flag ∧ s'.globalPhyAddr = s.globalPhyAddr)
    (htable : InodeInv R.inodes s'.master.nvm s.live) (hfiles : Files R s'.master.nvm s.files tree
      (s.files.flatMap (s.data tree) ++ (metas ++ staging))) :
    PagesInv R s' tree metas staging := by
  have heq : s'.files = s.files := by rw [Fs.files, hlive]; rfl
  have hdata : s'.data tree = s.data tree := by
    funext j
    simp only [Fs.data, (hcore j).2.1]
  refine ⟨hlive ▸ htable, by rw [heq, hdata]; exact hfiles, fun f hf => ?_, fun f hf => ?_,
    fun f hf => ?_, fun f hf hreg => ?_, fun p hp => ?_, ?_, ?_, fun f hf => h.gone f (heq ▸ hf)⟩
  · rw [(hcore f).1, h.iIno f (heq ▸ hf)]
  · rw [(hcore f).2.2, h.blocks f (heq ▸ hf)]
  · rw [(hcore f).2.2]
    exact h.le f (heq ▸ hf)
  · rw [(hcore f).2.1] at hreg
    exact h.entered f (heq ▸ hf) hreg
  · obtain ⟨f, hf, hreg, hpf⟩ := h.enters p hp
    exact ⟨f, heq ▸ hf, by rwa [(hcore f).2.1], hpf⟩
  · rw [CursorIn, hcur.1, hcur.2]
    exact h.cursor
  · rw [hbuf.1, hbuf.2]
    exact h.buffer

/-- Stores to a slot that leave `i_pg_addr` alone. -/
theorem PagesInv.store (h : PagesInv R s tree metas staging) (hf : f ∈ s.files)
    {ws : List (InodeField × ℕ)}
    (hws : ∀ w ∈ ws, w.1 ≠ .iColdPageStart ∧ w.1 ≠ .iColdPageNum ∧ w.1 ≠ .iPgAddr) :
    PagesInv R (s.setNvm { s.master.nvm with
      mem := inodeStruct.putFields s.master.nvm.mem (getRdfsInodePhyAddr sb f) ws })
      tree metas staging := by
  have hoff := sameOff_putFields_slot s.master.nvm.mem (getRdfsInodePhyAddr sb f) ws fun w hw =>
    ⟨(hws w hw).1, (hws w hw).2.1⟩
  have hpg := inodeStruct.getField_putFields_of_notMem (mem_inodeStruct_fields .iPgAddr)
    (getRdfsInodePhyAddr sb f) ws s.master.nvm.mem (fun w _ => mem_inodeStruct_fields w.1)
    fun hin => by
      obtain ⟨w, hw, heq⟩ := List.mem_map.1 hin
      exact (hws w hw).2.2 heq
  refine h.congr rfl (fun j => ⟨rfl, Iff.rfl, rfl⟩) ⟨rfl, rfl⟩ ⟨rfl, rfl⟩ ?_
    (h.files.write_slot hf (fun n => ⟨rfl, rfl⟩) hoff hpg)
  exact h.table.write_slot (Fs.mem_reserved R hf) (by simp) (sameBut_of_sameOff hoff [])
    (SameInodes.refl _)

/-- The blocks of an inode are pages that it has to itself, or pages of pte values. -/
theorem PagesInv.ent_mem (h : PagesInv R s tree metas staging) (hf : f ∈ s.files)
    (he : e ∈ fileEnts (tree f)) : e ∈ s.files.flatMap (s.data tree) ++ (metas ++ staging) := by
  by_cases hreg : SIsReg (s.inode f).iMode
  · exact mem_append_right _ (mem_append_left _ (h.entered f hf hreg he))
  · exact mem_append_left _ (mem_flatMap.2 ⟨f, hf, by rwa [Fs.data, if_neg hreg]⟩)

theorem PagesInv.ent_isPage (h : PagesInv R s tree metas staging) (hf : f ∈ s.files)
    (he : e ∈ fileEnts (tree f)) : R.pages.IsPage e :=
  h.files.owned.isPage (mem_append_right _ (h.ent_mem hf he))

/-- Writes to a page that an inode or the buffer has besides the tables. -/
theorem PagesInv.write_page (h : PagesInv R s tree metas staging) {m : Mem}
    (he : e ∈ s.files.flatMap (s.data tree) ++ (metas ++ staging))
    (hm : SameOffPages s.master.nvm.mem m [e]) :
    PagesInv R (s.setNvm { s.master.nvm with mem := m }) tree metas staging := by
  have hpage : R.pages.IsPage e := h.files.owned.isPage (mem_append_right _ he)
  have hpages : ∀ p ∈ [e], R.pages.IsPage p := by simpa using hpage
  refine h.congr rfl (fun j => ⟨rfl, Iff.rfl, rfl⟩) ⟨rfl, rfl⟩ ⟨rfl, rfl⟩
    (h.table.write_slot (Fs.mem_reserved R mem_cons_self) hpages
      (hm.sameBut (Subset.refl _) _) (SameInodes.refl _))
    (h.files.congr (fun n => ⟨rfl, rfl⟩) (fun p hp hpn => hm.sameOn fun q hq => ?_)
      fun g hg => hm.sameOn fun q hq => ?_)
  · obtain rfl := mem_singleton.1 hq
    exact hpage.disjoint hp fun heq => hpn (heq ▸ he)
  · obtain rfl := mem_singleton.1 hq
    have := R.isSlot_disjoint_page (h.files.isSlot g hg) hpage
    omega

theorem PagesInv.erase_files (h : PagesInv R s tree metas staging) (hf : f ∈ s.live) :
    s.files.erase f = 1 :: s.live.erase f ∧ f ∈ s.files := by
  have hne : (1 : ℕ) ≠ f := fun heq => by
    refine h.table.not_reserved hf ?_
    rw [← heq]
    unfold InodeLayout.reserved
    split_ifs <;> simp
  exact ⟨erase_cons_tail (by simpa using hne), mem_cons_of_mem _ hf⟩

/-- `rdfs_free_inode` on an inode without a table. -/
theorem PagesInv.freeInode (h : PagesInv R s tree metas staging) (hf : f ∈ s.live)
    (hnone : ¬HasTable sb s.master.nvm.mem f) (seconds : ℕ) :
    PagesInv R { s.setNvm (rdfsFreeInode sb s.master.nvm f seconds) with live := s.live.erase f }
      tree metas staging := by
  obtain ⟨herase, hf'⟩ := h.erase_files hf
  have htree : tree f = none := by
    rw [← not_isSome_iff_eq_none]
    exact fun hsome => hnone ((h.hasTable_iff hf').2 (isSome_iff_exists.1 hsome))
  have hnil : fileEnts (tree f) = [] := by rw [htree]; rfl
  have hsub : ∀ j ∈ s.files.erase f, j ∈ s.files := fun j hj => mem_of_mem_erase hj
  have hoff : Mem.SameOff s.master.nvm.mem (rdfsFreeInode sb s.master.nvm f seconds).mem 128 _ :=
    sameOff_rdfsFreeInode s.master.nvm f seconds
  have hfiles : Files R (rdfsFreeInode sb s.master.nvm f seconds) (s.files.erase f) tree
      ((s.files.erase f).flatMap (s.data tree) ++ (metas ++ staging)) := by
    refine ((h.files.erase hf' htree).of_perm ?_).congr (rdfsFreeInode_pages _ f seconds)
      (fun p hp _ => hoff.sameOn (R.isSlot_disjoint_page (h.files.isSlot f hf') hp).symm)
      fun g hg => hoff.sameOn ?_
    · have hperm := flatMap_perm_erase hf' (s.data tree)
      rw [show s.data tree f = [] by rw [Fs.data, hnil, ite_self]] at hperm
      exact hperm.append_right _
    · have hg' := h.files.nodup.mem_erase_iff.1 hg
      have := h.files.slot_disjoint hf' hg'.2 hg'.1
      omega
  refine ⟨h.table.freeInode hf seconds, ?_, fun j hj => h.iIno j (hsub j ?_),
    fun j hj => h.blocks j (hsub j ?_), fun j hj => h.le j (hsub j ?_),
    fun j hj => h.entered j (hsub j ?_), fun p hp => ?_, h.cursor, h.buffer, fun j hj => ?_⟩
  · rw [herase] at hfiles
    exact hfiles
  · rwa [herase]
  · rwa [herase]
  · rwa [herase]
  · rwa [herase]
  · obtain ⟨j, hj, hreg, hpj⟩ := h.enters p hp
    refine ⟨j, ?_, hreg, hpj⟩
    have hne : j ≠ f := by
      rintro rfl
      rw [hnil] at hpj
      simp at hpj
    show j ∈ 1 :: s.live.erase f
    rw [← herase]
    exact h.files.nodup.mem_erase_iff.2 ⟨hne, hj⟩
  · rcases eq_or_ne j f with rfl | hne
    · exact htree
    · refine h.gone j fun hin => hj ?_
      show j ∈ 1 :: s.live.erase f
      rw [← herase]
      exact h.files.nodup.mem_erase_iff.2 ⟨hne, hin⟩

/-! ## Mapping and unmapping -/

/-- A store to the table of areas changes no slot and no page. -/
theorem PagesInv.of_table {nvm' : Nvm} (h : PagesInv R s tree metas staging) (hR : R.Behind)
    (hdes : nvm'.numaDes = s.master.nvm.numaDes)
    (hm : Mem.SameOff s.master.nvm.mem nvm'.mem addressToInoSpace (rdfsPa sb (pAddressToIno sb))) :
    InodeInv R.inodes nvm' s.live ∧ Files R nvm' s.files tree
      (s.files.flatMap (s.data tree) ++ (metas ++ staging)) := by
  unfold Region.Behind at hR
  refine ⟨h.table.other (fun n => by rw [hdes]) (fun n => by rw [hdes])
    fun n p hp _ => hm.sameOn ?_, h.files.congr (fun n => by rw [hdes]; exact ⟨rfl, rfl⟩)
    (fun p hp _ => hm.sameOn ?_) fun g hg => hm.sameOn ?_⟩
  · have := R.start_le_isSlot (InodeLayout.isSlot_of_mem hp)
    omega
  · have := R.start_le_isPage hp
    omega
  · have := R.start_le_isSlot (h.files.isSlot g hg)
    omega

/-- `rdfs_establish_mapping`. -/
theorem PagesInv.establish (h : PagesInv R s tree metas staging) (hR : R.Behind) {ptr : ℕ}
    (htable : TableOk sb s.toSpace f ptr) :
    PagesInv R { s with toSpace := (s.toSpace.establish sb f ptr).2 } tree metas staging := by
  obtain ⟨-, hm, hdes, -⟩ := htable
  obtain ⟨hinodes, hfiles⟩ := h.of_table hR hdes hm
  refine h.congr rfl (fun j => ?_) ?_ ?_ hinodes hfiles
  · obtain ⟨r, hr⟩ : ∃ r, takeArea sb s.master.nvm.mem s.areas
        { s.inode f with mappingCount := (s.inode f).mappingCount + 1 } ptr = r := ⟨_, rfl⟩
    obtain ⟨v, hv⟩ := takeArea_inode sb s.master.nvm.mem s.areas
      { s.inode f with mappingCount := (s.inode f).mappingCount + 1 } ptr
    rw [hr] at hv
    rw [Space.establish_eq hr, Space.put_inode]
    rcases eq_or_ne j f with rfl | hne
    · rw [update_self, hv]
      exact ⟨rfl, Iff.rfl, rfl⟩
    · rw [update_of_ne hne]
      exact ⟨rfl, Iff.rfl, rfl⟩
  · obtain ⟨r, hr⟩ : ∃ r, takeArea sb s.master.nvm.mem s.areas
        { s.inode f with mappingCount := (s.inode f).mappingCount + 1 } ptr = r := ⟨_, rfl⟩
    rw [Space.establish_eq hr]
    exact ⟨rfl, rfl⟩
  · exact ⟨rfl, rfl⟩

/-- `rdfs_establish_mapping` enters the table of an inode in its area, if it has one. -/
theorem FileState.enter_area {st : Nvm} {m : Mem} {ino v : ℕ} {t : Option Tree} {own : List ℕ}
    (h : FileState R st ino t own)
    (hpg : inodeStruct.getField m (getRdfsInodePhyAddr sb ino) .iPgAddr = t.elim 0 Tree.pud)
    (hv : v = 0 ∨ v ∈ dirAreas ∨ v ∈ regAreas) (hlen : ∀ t' ∈ t, t'.pmds.length ≤ 32)
    (k : KernelMap) : ∃ k', (if InDirArea v ∨ (rdfsStart + dirAreaSize ≤ v ∧ v < rdfsEnd) then
        (nvmap sb st.mem k v (rdfsGetPud sb m ino)).2 else k) = k' ∧ OnlyArea k k' v ∧
      ∀ t₀, t₀ = t ∨ t₀ = none → AreaHolds k v t₀ → AreaHolds k' v t := by
  refine ⟨_, rfl, ?_⟩
  rcases hv with rfl | hv
  · rw [if_neg (by decide)]
    exact ⟨OnlyArea.refl _ _, fun _ _ _ => areaHolds_zero _ _⟩
  · have hcond : InDirArea v ∨ (rdfsStart + dirAreaSize ≤ v ∧ v < rdfsEnd) := by
      rcases hv with hv | hv
      · exact Or.inl (inDirArea_of_mem hv).1
      · exact Or.inr (inRegArea_of_mem hv).2.1
    rw [if_pos hcond]
    obtain ⟨honly, -, hholds⟩ := h.nvmap_area hpg hv hlen k
    exact ⟨honly, hholds⟩

/-- The areas after `rdfs_establish_mapping`, and what the area of the inode held before. -/
theorem KernelInv.establish_space (h : KernelInv s tree) (f ptr : ℕ) {s' : Space}
    (hs' : (s.toSpace.establish sb f ptr).2 = s') : (∃ free used, SpaceInv s' free used) ∧
    ((s.inode f).iVirtAddr = (s'.inode f).iVirtAddr ∨ (s.inode f).iVirtAddr = 0) ∧
    ∃ t₀, (t₀ = tree f ∨ t₀ = none) ∧ AreaHolds s.master.kernel (s'.inode f).iVirtAddr t₀ := by
  subst hs'
  obtain ⟨free, used, hinv⟩ := h.space
  obtain ⟨hmode, ⟨hareas, hv, -⟩ | ⟨i, p, rest, hv0, hi, hfree, hareas, hv⟩⟩ :=
    hinv.establish_cases sb f ptr
  · refine ⟨⟨free, used, hinv.congr hareas hv fun j _ => hmode j⟩, Or.inl (hv f).symm, tree f,
      Or.inl rfl, ?_⟩
    rw [hv f]
    exact h.holds f
  · refine ⟨⟨_, _, hinv.take hi hfree hareas hmode hv⟩, Or.inr hv0, none, Or.inr rfl, ?_⟩
    rw [hv f, if_pos rfl]
    exact h.empty p (hinv.ne_of_free (hfree ▸ mem_cons_self))

theorem KernelInv.establish (h : KernelInv s tree) (hp : PagesInv R s tree metas staging)
    (hR : R.Behind) (hf : f ∈ s.files) {ptr : ℕ} (htable : TableOk sb s.toSpace f ptr) :
    KernelInv { s with toSpace := (s.toSpace.establish sb f ptr).2 } tree := by
  obtain ⟨-, hm, hdes, -⟩ := htable
  have hfile := (hp.of_table hR hdes hm).2.file hf
  have hlen : ∀ t ∈ tree f, t.pmds.length ≤ 32 := fun t ht => by
    have hle := hp.ents_length_le hf ht
    rw [(hp.files.rep f hf t ht).length_pmds]
    omega
  obtain ⟨r, hr⟩ : ∃ r, takeArea sb s.master.nvm.mem s.areas
      { s.inode f with mappingCount := (s.inode f).mappingCount + 1 } ptr = r := ⟨_, rfl⟩
  have hs' := Space.establish_eq hr
  obtain ⟨⟨free, used, hspace⟩, hold, t₀, ht₀, hholds⟩ := h.establish_space f ptr hs'
  have harea := hspace.area f
  rw [hs'] at hfile ⊢
  rw [Space.put_inode, update_self] at hold hholds harea
  obtain ⟨k', hk', honly, hnew⟩ :=
    hfile.enter_area (hp.files.pgAddr f hf) harea hlen s.master.kernel
  rw [hp.iIno f hf] at hspace ⊢
  have hput : KernelInv (s.put f (r.1, { s.master with
      nvm := { s.master.nvm with mem := r.2.1 }, kernel := k' }, r.2.2))
      (Function.update tree f (tree f)) :=
    h.put ⟨free, used, by rw [← hk']; exact hspace⟩ (hold.imp id fun ho => ⟨ho, rfl⟩) (Or.inl rfl)
      honly (hnew t₀ ht₀ hholds)
  rw [update_eq_self, ← hk'] at hput
  exact hput

/-- A change to one inode in core. -/
theorem PagesInv.put_core (h : PagesInv R s tree metas staging) (hino : r.1.iIno = (s.inode f).iIno)
    (hreg : SIsReg r.1.iMode ↔ SIsReg (s.inode f).iMode)
    (hblocks : r.1.iBlocks = (s.inode f).iBlocks) (hnvm : r.2.1.nvm = s.master.nvm)
    (hcur : r.2.1.pteCnt = s.master.pteCnt ∧ r.2.1.ptePhyAddr = s.master.ptePhyAddr) :
    PagesInv R (s.put f r) tree metas staging := by
  have hnvm' : (s.put f r).master.nvm = s.master.nvm := hnvm
  refine h.congr rfl (fun j => ?_) hcur ⟨rfl, rfl⟩ (hnvm' ▸ h.table) (hnvm' ▸ h.files)
  rcases eq_or_ne j f with rfl | hne
  · rw [Fs.put_inode_self]
    exact ⟨hino, hreg, hblocks⟩
  · rw [Fs.put_inode_of_ne s r hne]
    exact ⟨rfl, Iff.rfl, rfl⟩

/-- `rdfs_destroy_mapping`. -/
theorem KernelInv.destroy (h : KernelInv s tree) (hp : PagesInv R s tree metas staging)
    (hf : f ∈ s.files) :
    ∃ r s', s.toSpace.destroy sb f = some (r, s') ∧ KernelInv { s with toSpace := s' } tree ∧
      PagesInv R { s with toSpace := s' } tree metas staging ∧ s'.master.nvm = s.master.nvm := by
  obtain ⟨free, used, hinv⟩ := h.space
  rcases eq_or_ne (s.inode f).iVirtAddr 0 with hv | hv
  · refine ⟨_, _, by rw [Space.destroy, rdfsDestroyMapping_unmapped sb s.master hv]; rfl,
      ?_, ?_, ?_⟩
    · show KernelInv (s.put f (s.inode f, s.master, s.areas)) tree
      rwa [Fs.put_self]
    · show PagesInv R (s.put f (s.inode f, s.master, s.areas)) tree metas staging
      rwa [Fs.put_self]
    · rfl
  have hupd := update_eq_self f tree
  rcases lt_or_ge 1 (s.inode f).mappingCount with hc | hc
  · refine ⟨_, _, by rw [Space.destroy, rdfsDestroyMapping_counted sb s.master hv hc]; rfl, ?_,
      hp.put_core rfl Iff.rfl rfl rfl ⟨rfl, rfl⟩, rfl⟩
    rw [← hupd]
    exact h.put ⟨free, used, hinv.congr rfl (Space.put_iVirtAddr_of_eq rfl) fun j _ =>
      Space.put_iMode rfl j⟩ (Or.inl rfl) (Or.inl rfl) (OnlyArea.refl _ _) (h.holds f)
  · obtain ⟨i, -, hused⟩ := hinv.inUse f hv
    obtain ⟨l', hfree, hareas⟩ := hinv.areas.nvfree hused
    refine ⟨_, _, by rw [Space.destroy, rdfsDestroyMapping_last sb s.master hv hc hfree]; rfl, ?_,
      hp.put_core rfl Iff.rfl rfl rfl ⟨rfl, rfl⟩, ?_⟩
    · have hout : AreaHolds (Rdfs.unnvmap sb s.master.nvm.mem s.master.kernel (s.inode f).iVirtAddr
            (rdfsGetPud sb s.master.nvm.mem (s.inode f).iIno)).2 (s.inode f).iVirtAddr none ∧
          OnlyArea s.master.kernel (Rdfs.unnvmap sb s.master.nvm.mem s.master.kernel
            (s.inode f).iVirtAddr (rdfsGetPud sb s.master.nvm.mem (s.inode f).iIno)).2
            (s.inode f).iVirtAddr := by
        rw [hp.iIno f hf]
        cases htree : tree f with
        | some t => exact h.unnvmap hp hf htree
        | none =>
          have hget : rdfsGetPud sb s.master.nvm.mem f = 0 := by
            rw [rdfsGetPud, hp.files.pgAddr f hf, htree]
            rfl
          have hholds := h.holds f
          rw [htree] at hholds
          rw [hget, Rdfs.unnvmap, if_pos rfl]
          exact ⟨hholds, OnlyArea.refl _ _⟩
      obtain ⟨hholds, honly⟩ := hout
      generalize (Rdfs.unnvmap sb _ _ _ _).2 = k' at hholds honly ⊢
      rw [← hupd]
      refine h.put ⟨_, _, hinv.give (f := f) hused hareas (Space.put_iMode rfl)
        (Space.put_iVirtAddr s.toSpace f _)⟩ (Or.inl rfl) (Or.inr ⟨rfl, hholds⟩) honly ?_
      exact areaHolds_zero _ _
    · simp only [Space.put]

/-! ## The page of the buffer -/

section

variable (h : PagesInv R s tree metas staging)
include h

/-- `rdfs_init_local_rw_buffer` takes a free page. -/
theorem PagesInv.rwBuffer_take (hflag : s.flag = false)
    (hc : 0 < (s.master.nvm.numaDes (getCpuNuma sb cpu)).freePageCount) {s' : Space}
    (hs : rdfsInitLocalRwBuffer sb cpu s.toSpace = s') :
    PagesInv R { s with toSpace := s' } tree metas [s'.globalPhyAddr] ∧
      s'.master.nvm.mem = s.master.nvm.mem := by
  rw [rdfsInitLocalRwBuffer, hflag, if_neg Bool.false_ne_true] at hs
  obtain rfl := h.buffer.2 hflag
  obtain ⟨nvm', hr, hown, hm, htook⟩ := h.files.owned.newBlock cpu 1 none s.globalPhyAddr rfl hc
    (by decide)
  have hfiles := h.files.took hown hm
  rw [append_assoc, append_nil] at hfiles
  replace hr : rdfsNewBlock sb cpu s.master.nvm s.globalPhyAddr 1 none = _ := hr
  rw [hr] at hs
  subst hs
  exact ⟨⟨h.table.other (fun n => (htook.sameInodes n).1) (fun n => (htook.sameInodes n).2)
    fun n p _ _ x _ _ => by rw [hm], hfiles, h.iIno, h.blocks, h.le, h.entered, h.enters,
    h.cursor, ⟨Subset.refl _, fun hc => by cases hc⟩, h.gone⟩, hm⟩

/-- `rdfs_init_local_rw_buffer` takes a free page once, or finds none. -/
theorem PagesInv.rwBuffer (cpu : ℕ) :
    ∃ staging', PagesInv R { s with toSpace := rdfsInitLocalRwBuffer sb cpu s.toSpace } tree metas
      staging' ∧ (rdfsInitLocalRwBuffer sb cpu s.toSpace).master.nvm.mem = s.master.nvm.mem := by
  by_cases hflag : s.flag = true
  · rw [rdfsInitLocalRwBuffer, if_pos hflag]
    exact ⟨staging, h, rfl⟩
  rcases Nat.eq_zero_or_pos (s.master.nvm.numaDes (getCpuNuma sb cpu)).freePageCount with hc | hc
  · obtain rfl := h.buffer.2 (by simpa using hflag)
    have hr : rdfsNewBlock sb cpu s.master.nvm s.globalPhyAddr 1 none =
        (-1, s.globalPhyAddr, s.master.nvm) := rdfsNewBlock_fail _ (hc ▸ by decide)
    rw [rdfsInitLocalRwBuffer, if_neg hflag, hr]
    exact ⟨[], ⟨h.table, h.files, h.iIno, h.blocks, h.le, h.entered, h.enters, h.cursor,
      ⟨by simp, fun _ => rfl⟩, h.gone⟩, rfl⟩
  · exact ⟨_, h.rwBuffer_take (by simpa using hflag) hc rfl⟩

/-! ## New inodes -/

/-- Taking a slot whose end is not the first page of its node. -/
theorem PagesInv.take {ino p : ℕ} {nvm' : Nvm} {next : ℕ} (hp : p ∈ R.inodes.slots n)
    (hphy : getRdfsInodePhyAddr sb ino = p)
    (hr : rdfsNewInodeTake sb s.master.nvm s.nextNumaId = (some ino, nvm', next))
    (hm : nvm'.mem = inodeStruct.putFields s.master.nvm.mem p newInodeFields)
    (hspill : p + 136 ≤ (R.des n).freePagePhy) :
    InodeInv R.inodes nvm' (s.live ++ [ino]) ∧ ino ∉ s.files ∧ Files R nvm' (s.files ++ [ino]) tree
        (s.files.flatMap (s.data tree) ++ (metas ++ staging)) := by
  have hafter : InodeInv R.inodes nvm' (s.live ++ [ino]) := by
    have hnew : InodeInv R.inodes (rdfsNewInodeTake sb s.master.nvm s.nextNumaId).2.1 _ :=
      h.table.newInode
    rwa [hr] at hnew
  have hlive : ino ∉ s.live := fun hin =>
    (nodup_append.1 hafter.nodup).2.2 ino hin ino (by simp) rfl
  have hino : ino ∉ s.files := fun hin => by
    rcases mem_append.1 (Fs.mem_reserved R hin) with hres | hin
    · exact hafter.not_reserved (by simp) hres
    · exact hlive hin
  have hslot : R.inodes.IsSlot p := InodeLayout.isSlot_of_mem hp
  have hne : ∀ g ∈ s.files, getRdfsInodePhyAddr sb g ≠ p := fun g hg heq => by
    have hnr : getRdfsInodenr sb p = ino := by
      rw [← hphy]
      exact (hafter.isSlot (by simp)).2
    exact h.table.ne_slot (Fs.mem_reserved R hg) hp (hnr ▸ hlive) heq.symm
  have hoff := InodeInv.sameOff_newInodeFields s.master.nvm.mem p
  rw [← hm] at hoff
  have hpages := h.table.newInode_pages s.nextNumaId
  rw [hr] at hpages
  have hfiles : Files R nvm' s.files tree
      (s.files.flatMap (s.data tree) ++ (metas ++ staging)) := by
    refine h.files.congr hpages (fun q hq _ => hoff.sameOn ?_) fun g hg => hoff.sameOn ?_
    · obtain ⟨i, hi, rfl⟩ := InodeLayout.mem_slots.1 hp
      exact (R.slot_disjoint_page (InodeLayout.node_of_pos (Nat.zero_lt_of_lt hi)) hspill hq).symm
    · have := InodeLayout.isSlot_disjoint hslot (h.files.isSlot g hg) (hne g hg).symm
      omega
  refine ⟨hafter, hino, hfiles.append hino (hphy ▸ hslot) (hphy ▸ hne) ?_ (h.gone ino hino)⟩
  have hmem : (InodeField.iPgAddr, 0) ∈ newInodeFields := by simp [newInodeFields]
  rw [hphy, hm]
  exact inodeStruct.getField_putFields_of_mem p newInodeFields s.master.nvm.mem
    (fun w _ => mem_inodeStruct_fields w.1) (by decide) hmem

end

/-- The slot of a new inode is written, and the inode gets an empty table. -/
theorem Files.initTable {files live own : List ℕ} (h : Files R nvm files tree own)
    (htable : InodeInv R.inodes nvm live) (hf : f ∈ files) (hlive : f ∈ live)
    (htree : tree f = none) (hino : inode.iIno = f)
    (hroom : 3 ≤ (nvm.numaDes (getCpuNuma sb cpu)).freePageCount) :
    let nvm' := (rdfsInitPgTable sb cpu { nvm with mem := rdfsUpdateInode sb nvm.mem inode } f).2
    ∃ t, t.ents = [] ∧ InodeInv R.inodes nvm' live ∧
      Files R nvm' files (Function.update tree f (some t)) own ∧
      Stored nvm.mem nvm'.mem (getRdfsInodePhyAddr sb f) (updateFields inode ++
        [(.iPgAddr, (nvm.numaDes (getCpuNuma sb cpu)).freePagePhy)]) t.pages := by
  subst hino
  have hoff : Mem.SameOff nvm.mem (rdfsUpdateInode sb nvm.mem inode) 128 _ :=
    sameOff_rdfsUpdateInode nvm.mem inode
  have hpg : inodeStruct.getField (rdfsUpdateInode sb nvm.mem inode)
      (getRdfsInodePhyAddr sb inode.iIno) .iPgAddr = _ :=
    getField_update_of_notMem sb nvm.mem (by simp [updateFields])
  have hfiles : Files R { nvm with mem := rdfsUpdateInode sb nvm.mem inode } files tree own :=
    h.write_slot hf (fun n => ⟨rfl, rfl⟩) hoff hpg
  have hres : inode.iIno ∈ R.inodes.reserved ++ live := mem_append_right _ hlive
  have htable₁ : InodeInv R.inodes { nvm with mem := rdfsUpdateInode sb nvm.mem inode } live :=
    htable.write_slot hres (by simp) (sameBut_of_sameOff hoff []) (SameInodes.refl _)
  have hfile := hfiles.file hf
  rw [htree] at hfile
  obtain ⟨t, nvm', hr, hents, hrep, hown, hpud, htook, hsame⟩ :=
    Owned.initPgTable (show Owned R.pages _
      ((files.erase inode.iIno).flatMap (treePages tree) ++ own) from hfile.owned) rfl hfile.isSlot
      rfl hroom
  have hfile' := (FileRep.mk hfile.isSlot hown hrep hpud).fileState
  rw [hr]
  refine ⟨t, hents, htable₁.write_slot hres (fun p hp => ?_) (hsame.sameBut (by simp))
    htook.sameInodes, hfiles.update hf hfile' (hsame.sameBut (by simp)) fun w hw =>
      hfile'.apart w (mem_append_left _ hw), (stored_putFields _ _ _ _).trans hsame⟩
  exact hown.isPage (mem_append_left _ hp)

/-- An inode in core whose table has no blocks yet. -/
theorem PagesInv.add (h : PagesInv R s tree metas staging) (hino : ino ∉ s.files)
    (hnum : inode.iIno = ino) (hblocks : inode.iBlocks = 0) (hents : t.ents = [])
    (htable : InodeInv R.inodes nvm (s.live ++ [ino]))
    (hfiles : Files R nvm (s.files ++ [ino]) (Function.update tree ino (some t))
      (s.files.flatMap (s.data tree) ++ (metas ++ staging))) (next : ℕ) :
    PagesInv R { s.put ino (inode, { s.master with nvm := nvm }, s.areas) with
        nextNumaId := next, live := s.live ++ [ino] }
      (Function.update tree ino (some t)) metas staging := by
  set s' : Fs := { s.put ino (inode, { s.master with nvm := nvm }, s.areas) with
    nextNumaId := next, live := s.live ++ [ino] } with hs'
  have hself : s'.inode ino = inode := Fs.put_inode_self s ino _
  have hother : ∀ j ∈ s.files, s'.inode j = s.inode j ∧
      Function.update tree ino (some t) j = tree j := fun j hj => by
    have hne : j ≠ ino := fun heq => hino (heq ▸ hj)
    exact ⟨Fs.put_inode_of_ne s _ hne, update_of_ne hne _ _⟩
  have hnil : fileEnts (Function.update tree ino (some t) ino) = [] := by
    rw [update_self]
    exact hents
  have hcases : ∀ j ∈ s'.files, j ∈ s.files ∨ j = ino := fun j hj => by
    have : j ∈ s.files ++ [ino] := hj
    simpa using this
  have hdata : s'.files.flatMap (s'.data (Function.update tree ino (some t))) =
      s.files.flatMap (s.data tree) := by
    show (s.files ++ [ino]).flatMap _ = _
    rw [flatMap_append, flatMap_cons, flatMap_nil, append_nil, Fs.data, hnil, ite_self, append_nil]
    refine flatMap_congr fun j hj => ?_
    rw [Fs.data, (hother j hj).1, (hother j hj).2]
    rfl
  refine ⟨htable, hdata ▸ hfiles, fun j hj => ?_, fun j hj => ?_, fun j hj => ?_,
    fun j hj hreg => ?_, fun p hp => ?_, h.cursor, h.buffer, fun j hj => ?_⟩
  · rcases hcases j hj with hj | rfl
    · rw [(hother j hj).1, h.iIno j hj]
    · rw [hself, hnum]
  · rcases hcases j hj with hj | rfl
    · rw [(hother j hj).1, (hother j hj).2, h.blocks j hj]
    · rw [hnil, hself, hblocks]
      rfl
  · rcases hcases j hj with hj | rfl
    · rw [(hother j hj).1]
      exact h.le j hj
    · rw [hself, hblocks]
      exact Nat.zero_le _
  · rcases hcases j hj with hj | rfl
    · rw [(hother j hj).1] at hreg
      rw [(hother j hj).2]
      exact h.entered j hj hreg
    · rw [hnil]
      exact nil_subset _
  · obtain ⟨j, hj, hreg, hpj⟩ := h.enters p hp
    exact ⟨j, mem_append_left [ino] hj, by rwa [(hother j hj).1], by rwa [(hother j hj).2]⟩
  · have hj' : j ∉ s.files ++ [ino] := hj
    rw [mem_append, mem_singleton, not_or] at hj'
    rw [update_of_ne hj'.2]
    exact h.gone j hj'.1

/-- An inode in core that replaces one without a table. -/
theorem KernelInv.add (h : KernelInv s tree) (hnone : tree ino = none) (hv : inode.iVirtAddr = 0)
    (t : Option Tree) : KernelInv (s.put ino (inode, { s.master with nvm := nvm }, s.areas))
      (Function.update tree ino t) := by
  obtain ⟨free, used, hinv⟩ := h.space
  have hholds := h.holds ino
  rw [hnone] at hholds
  refine h.put ⟨free, used, hinv.areas, fun j hj => ?_, fun i j hij hi => ?_⟩ (Or.inl rfl)
    (Or.inr ⟨hv, hholds⟩) (OnlyArea.refl _ _) ?_
  · have hne : j ≠ ino := by
      rintro rfl
      rw [Fs.put_inode_self] at hj
      exact hj hv
    rw [Fs.put_inode_of_ne s _ hne] at hj ⊢
    exact hinv.inUse j hj
  · have hni : i ≠ ino := by
      rintro rfl
      rw [Fs.put_inode_self] at hi
      exact hi hv
    have hnj : j ≠ ino := by
      rintro rfl
      rw [hij, Fs.put_inode_self] at hi
      exact hi hv
    rw [Fs.put_inode_of_ne s _ hni] at hij hi
    rw [Fs.put_inode_of_ne s _ hnj] at hij
    exact hinv.unique i j hij hi
  · show AreaHolds _ inode.iVirtAddr _
    rw [hv]
    exact areaHolds_zero _ _

/-- `rdfs_new_inode`. -/
theorem PagesInv.newInode (h : PagesInv R s tree metas staging) {cpu umask : ℕ} {attrs : Inode}
    (hs : (FsOp.newInode cpu attrs umask).Sound R s) :
    ∃ tree', PagesInv R (s.newInode sb cpu attrs umask) tree' metas staging ∧
      (KernelInv s tree → KernelInv (s.newInode sb cpu attrs umask) tree') ∧
      ∃ ps, (∀ p ∈ ps, R.pages.IsPage p) ∧
        Stored s.master.nvm.mem (s.newInode sb cpu attrs umask).master.nvm.mem
          (getRdfsInodePhyAddr sb (s.freeIno sb)) (s.newInodeStores sb cpu attrs) ps := by
  rcases h.table.take_cases s.nextNumaId rfl with ⟨hzero, hr⟩ | ⟨ino, p, nvm', hpos, hhead, hp,
    hnr, hphy, hr, hm, -⟩
  · have hnone : (s.master.nvm.numaDes (getANuma sb s.nextNumaId).1).freeInodeCount = 0 := hzero
    rw [Fs.newInode, hr, Fs.newInodeStores, if_pos hnone]
    exact ⟨tree, h.congr rfl (fun _ => ⟨rfl, Iff.rfl, rfl⟩) ⟨rfl, rfl⟩ ⟨rfl, rfl⟩ h.table h.files,
      fun hk => hk.congr rfl rfl rfl, [], by simp, SameOffPages.refl _ _⟩
  · obtain ⟨hspill, hroom⟩ := hs hpos.ne'
    have hpages := h.table.newInode_pages s.nextNumaId (getCpuNuma sb cpu)
    rw [hr] at hpages
    obtain ⟨htable, hino, hfiles⟩ := h.take hp hphy hr hm (hhead ▸ hspill)
    obtain ⟨t, hents, htable', hfiles', hstored⟩ := hfiles.initTable htable (by simp) (by simp)
      (h.gone ino hino) (show (freshInode attrs ino).iIno = ino from rfl) (hpages.2.symm ▸ hroom)
    have hfree : s.freeIno sb = ino := by rw [Fs.freeIno, hhead, hnr]
    rw [Fs.newInode, hr, Fs.newInodeStores, if_neg hpos.ne', hfree]
    refine ⟨Function.update tree ino (some t), h.add hino rfl rfl hents htable' hfiles' _,
      fun hk => (hk.add (h.gone ino hino) rfl (some t)).congr rfl rfl rfl, t.pages,
      fun p hp => ?_, ?_⟩
    · exact hfiles'.isPage (by simp) (update_self ino (some t) tree) hp
    · rw [hpages.1] at hstored
      rw [append_assoc]
      refine Stored.trans ?_ hstored
      rw [hm, hphy]
      exact stored_putFields _ _ _ _

/-! ## The mount -/

theorem sameOff_rdfsSyncInode (m : Mem) (pi : ℕ) : Mem.SameOff m (rdfsSyncInode m pi) 4 pi :=
  Mem.SameOff.trans (inodeStruct.sameOff_putField m pi .iSum 0)
    (inodeStruct.sameOff_putField _ pi .iSum _)

/-- The reserved inodes have slots, and those of the root and of the second node are apart. -/
theorem Region.reserved_slots (R : Region sb) :
    (1 ∈ R.inodes.reserved ∧ R.inodes.IsSlot (getRdfsInodePhyAddr sb 1)) ∧
    (sb.sNumaFlag = true → 2 ∈ R.inodes.reserved ∧ R.inodes.IsSlot (getRdfsInodePhyAddr sb 2) ∧
      (getRdfsInodePhyAddr sb 2 + 128 ≤ getRdfsInodePhyAddr sb 1 ∨
        getRdfsInodePhyAddr sb 1 + 128 ≤ getRdfsInodePhyAddr sb 2)) := by
  have hone : 1 ∈ R.inodes.reserved := by
    unfold InodeLayout.reserved
    split_ifs <;> simp
  obtain ⟨hslot, hnr⟩ := InodeLayout.of_isIno (InodeLayout.isIno_of_mem_reserved hone)
  refine ⟨⟨hone, hslot⟩, fun hflag => ?_⟩
  have htwo : 2 ∈ R.inodes.reserved := by
    rw [InodeLayout.reserved, if_pos hflag]
    simp
  obtain ⟨hslot₂, hnr₂⟩ := InodeLayout.of_isIno (InodeLayout.isIno_of_mem_reserved htwo)
  have hne : getRdfsInodePhyAddr sb 2 ≠ getRdfsInodePhyAddr sb 1 := fun heq => by
    rw [← heq, hnr₂] at hnr
    exact absurd hnr (by decide)
  exact ⟨htwo, hslot₂, InodeLayout.isSlot_disjoint hslot₂ hslot hne⟩

/-- The root has an empty table, and everything else is free. -/
theorem Files.initRoot (R : Region sb) (m : Mem) (mode uid gid : ℕ)
    (hroom : 3 ≤ (R.des (getCpuNuma sb cpu)).freePageCount) :
    ∃ t, t.ents = [] ∧ InodeInv R.inodes (rdfsInitRoot sb cpu (R.mount m) mode uid gid) [] ∧
      Files R (rdfsInitRoot sb cpu (R.mount m) mode uid gid) [1]
        (Function.update (fun _ => none) 1 (some t)) [] := by
  obtain ⟨⟨hone, hslot⟩, htwo⟩ := R.reserved_slots
  have hres : 1 ∈ R.inodes.reserved ++ [] := mem_append_left _ hone
  -- the attributes of the root
  generalize hm₁ : inodeStruct.putFields (R.mount m).mem (getRdfsInodePhyAddr sb 1) [(.iMode, mode),
    (.iUid, uid), (.iGid, gid), (.iLinkCounts, 2), (.listPro, getRdfsInode sb 1), (.listNext,
    getRdfsInode sb 1)] = m₁
  have hoff₁ : Mem.SameOff (R.mount m).mem m₁ 128 (getRdfsInodePhyAddr sb 1) :=
    hm₁ ▸ sameOff_putFields_slot _ _ _ (by simp)
  have hown₁ : Owned R.pages { R.mount m with mem := m₁ } [] :=
    (R.owned_mount m).write_slot hslot hoff₁ fun n => ⟨rfl, rfl⟩
  have htable₁ : InodeInv R.inodes { R.mount m with mem := m₁ } [] :=
    (R.inodeInv_mount m).write_slot hres (by simp) (sameBut_of_sameOff hoff₁ []) (SameInodes.refl _)
  -- its table
  obtain ⟨t, nvm₂, hr, hents, hrep, hown, hpud, htook, hsame⟩ :=
    hown₁.initPgTable (show getRdfsInodePhyAddr sb 1 = _ from rfl) hslot rfl hroom
  have htable₂ := htable₁.write_slot hres (fun p hp => hown.isPage (mem_append_left _ hp))
    (hsame.sameBut (by simp)) htook.sameInodes
  have hfiles₂ : Files R nvm₂ [1] (Function.update (fun _ => none) 1 (some t)) [] := by
    refine ⟨nodup_singleton 1, ?_, ?_, ?_, ?_, ?_⟩
    · simpa using hslot
    · simp
    · simpa using hown
    · simpa using hrep
    · simpa using hpud
  -- its checksum
  have hoff₃ := sameOff_rdfsSyncInode nvm₂.mem (getRdfsInodePhyAddr sb 1)
  have hpg₃ : inodeStruct.getField (rdfsSyncInode nvm₂.mem (getRdfsInodePhyAddr sb 1))
      (getRdfsInodePhyAddr sb 1) .iPgAddr =
        inodeStruct.getField nvm₂.mem (getRdfsInodePhyAddr sb 1) .iPgAddr :=
    Mem.load_congr (hoff₃.sameOn (by rw [offset_iPgAddr]; omega))
  generalize hm₃ : rdfsSyncInode nvm₂.mem (getRdfsInodePhyAddr sb 1) = m₃
  rw [hm₃] at hoff₃ hpg₃
  have hoff₃' : Mem.SameOff nvm₂.mem m₃ 128 (getRdfsInodePhyAddr sb 1) :=
    hoff₃.mono le_rfl (by omega)
  have hfiles₃ : Files R { nvm₂ with mem := m₃ } [1]
      (Function.update (fun _ => none) 1 (some t)) [] :=
    hfiles₂.write_slot (by simp) (fun n => ⟨rfl, rfl⟩) hoff₃' hpg₃
  have htable₃ : InodeInv R.inodes { nvm₂ with mem := m₃ } [] :=
    htable₂.write_slot hres (by simp) (sameBut_of_sameOff hoff₃' []) (SameInodes.refl _)
  refine ⟨t, hents, ?_⟩
  rw [rdfsInitRoot]
  simp only [hm₁, hr, hm₃]
  split_ifs with hflag
  · -- the first slot of the second node
    obtain ⟨htwo, hslot₂, hapart⟩ := htwo hflag
    have hoff₄ := sameOff_putFields_slot m₃ (getRdfsInodePhyAddr sb 2)
      [(.listPro, getRdfsInode sb 2), (.listNext, getRdfsInode sb 2)] (by simp)
    refine ⟨htable₃.write_slot (mem_append_left _ htwo) (by simp)
        (sameBut_of_sameOff hoff₄ []) (SameInodes.refl _),
      hfiles₃.congr (fun n => ⟨rfl, rfl⟩)
        (fun p hp _ => hoff₄.sameOn (R.isSlot_disjoint_page hslot₂ hp).symm) fun g hg => ?_⟩
    rw [mem_singleton.1 hg]
    exact hoff₄.sameOn (by omega)
  · exact ⟨htable₃, hfiles₃⟩

/-- The invariant holds after the mount. -/
theorem PagesInv.mount (R : Region sb) (m : Mem) (root : Inode) (slaves : SlaveInfos)
    (nextNumaId : ℕ) (hroom : 3 ≤ (R.des (getCpuNuma sb cpu)).freePageCount) :
    ∃ tree, PagesInv R (Fs.mount R m cpu root slaves nextNumaId) tree [] [] ∧
      KernelInv (Fs.mount R m cpu root slaves nextNumaId) tree := by
  obtain ⟨t, hents, htable, hfiles⟩ := Files.initRoot R m root.iMode root.iUid root.iGid hroom
  have hnil : fileEnts (Function.update (fun _ => none) 1 (some t) 1) = [] := by
    rw [update_self]
    exact hents
  have hroot : (Fs.mount R m cpu root slaves nextNumaId).inode 1 =
      { freshInode root 1 with iNlink := 2 } := rfl
  have hv : ∀ f, ((Fs.mount R m cpu root slaves nextNumaId).inode f).iVirtAddr = 0 := fun f => by
    show ((Function.update _ 1 _ : ℕ → Inode) f).iVirtAddr = 0
    rw [update_apply]
    split_ifs <;> rfl
  have hone : ∀ f ∈ (Fs.mount R m cpu root slaves nextNumaId).files, f = 1 := fun f hf =>
    mem_singleton.1 hf
  refine ⟨Function.update (fun _ => none) 1 (some t), ⟨htable, ?_, fun f hf => ?_, fun f hf => ?_,
    fun f hf => ?_, fun f hf _ => ?_, by simp, ⟨le_rfl, fun hlt => absurd hlt (lt_irrefl _)⟩,
    ⟨by simp, fun _ => rfl⟩, fun f hf => ?_⟩, ?_⟩
  · have hdata : (Fs.mount R m cpu root slaves nextNumaId).data
        (Function.update (fun _ => none) 1 (some t)) 1 = [] := by
      rw [Fs.data, hnil, ite_self]
    show Files R _ [1] _ ([1].flatMap _ ++ _)
    rw [flatMap_cons, hdata]
    exact hfiles
  · rw [hone f hf, hroot]
    rfl
  · rw [hone f hf, hnil, hroot]
    rfl
  · rw [hone f hf, hroot]
    exact Nat.zero_le _
  · rw [hone f hf, hnil]
    exact nil_subset _
  · have hne : f ≠ 1 := fun h1 => hf (mem_singleton.2 h1)
    exact update_of_ne hne _ _
  · refine ⟨⟨areasOf, fun _ => [], areaInv_nvmallocInit, fun f hf => absurd (hv f) hf,
      fun f _ _ hf => absurd (hv f) hf⟩, fun f => ?_, fun v _ => ⟨fun _ => rfl, fun _ _ _ => rfl⟩,
      fun g hg => absurd rfl hg, fun g hg => absurd rfl hg⟩
    rw [hv f]
    exact areaHolds_zero _ _

/-- Both parts of the invariant, with the trees. -/
def FsInv (R : Region sb) (s : Fs) : Prop :=
  ∃ tree metas staging, PagesInv R s tree metas staging ∧ KernelInv s tree

end Rdfs
