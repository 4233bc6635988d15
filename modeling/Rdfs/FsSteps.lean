import Rdfs.FsInvariant

/-!
# What the operations store

Every operation that meets `FsOp.Sound` keeps the invariant, and stores the fields `FsOp.stores` in
the slot of one inode, `FsOp.target`, and nothing else in the slots of inodes in use
(`FsOp.Sound.step`). So the invariant holds along every run (`FsRun.inv`).

`rdfs_notify_change` is a sequence of smaller steps on one inode, most of them through
`rdfs_setsize`. `OnFile` is what such a step does, and steps are put together by `OnFile.trans`.
-/

namespace Rdfs

open List Function Option

variable {sb : Super} {R : Region sb} {s s' s'' : Fs} {f : ℕ} {ws ws' : List (InodeField × ℕ)}

/-! ## Steps on one inode -/

/-- From `s` to `s'` only the inode `f` in core and the state of the master have changed, the
invariant holds, and besides pages only the fields `ws` of the slot of `f` have been stored. -/
structure OnFile (R : Region sb) (f : ℕ) (s s' : Fs) (ws : List (InodeField × ℕ)) : Prop where
  inv : FsInv R s'
  only : s' = s.put f (s'.inode f, s'.master, s.areas)
  stored : ∃ ps, (∀ p ∈ ps, R.pages.IsPage p) ∧
    Stored s.master.nvm.mem s'.master.nvm.mem (getRdfsInodePhyAddr sb f) ws ps

theorem Fs.put_put (s : Fs) (f : ℕ) (r r' : Inode × Master × NvmLists) :
    (s.put f r).put f r' = s.put f r' := by
  simp [Fs.put, Space.put]

theorem Fs.setNvm_eq_put (s : Fs) (f : ℕ) (nvm : Nvm) :
    s.setNvm nvm = s.put f ((s.setNvm nvm).inode f, (s.setNvm nvm).master, s.areas) := by
  simp [Fs.setNvm, Fs.put, Space.put]

namespace OnFile

theorem refl (h : FsInv R s) : OnFile R f s s [] :=
  ⟨h, (Fs.put_self s f).symm, [], by simp, SameOffPages.refl _ _⟩

theorem trans (h : OnFile R f s s' ws) (h' : OnFile R f s' s'' ws') :
    OnFile R f s s'' (ws ++ ws') := by
  obtain ⟨ps, hps, hst⟩ := h.stored
  obtain ⟨ps', hps', hst'⟩ := h'.stored
  have hareas : s'.areas = s.areas := by rw [h.only]; rfl
  refine ⟨h'.inv, ?_, ps ++ ps', fun p hp => (mem_append.1 hp).elim (hps p) (hps' p),
    (hst.mono (subset_append_left _ _)).trans (hst'.mono (subset_append_right _ _))⟩
  have honly := h'.only
  rw [hareas] at honly
  rw [honly, h.only, Fs.put_put, Fs.put_inode_self]
  rfl

theorem files (h : OnFile R f s s' ws) : s'.files = s.files := by
  rw [h.only]
  rfl

/-- What is stored in the slots of the inodes. -/
theorem sameOn (h : OnFile R f s s' ws) {g : ℕ} (hg : g ∈ s.files) :
    Mem.SameOn (inodeStruct.putFields s.master.nvm.mem (getRdfsInodePhyAddr sb f) ws)
      s'.master.nvm.mem 128 (getRdfsInodePhyAddr sb g) := by
  obtain ⟨tree, metas, staging, hp, -⟩ := h.inv
  obtain ⟨ps, hps, hst⟩ := h.stored
  refine SameOffPages.sameOn hst fun p hin => ?_
  exact (R.isSlot_disjoint_page (hp.files.isSlot g (h.files ▸ hg)) (hps p hin)).symm

end OnFile

theorem kind_congr {mode mode' : ℕ} (h : mode' &&& 0xf000 = mode &&& 0xf000) :
    (SIsReg mode' ↔ SIsReg mode) ∧ areaMode mode' = areaMode mode := by
  have hreg : SIsReg mode' ↔ SIsReg mode := by rw [SIsReg, h]; rfl
  have hdir : SIsDir mode' ↔ SIsDir mode := by rw [SIsDir, h]; rfl
  have hlnk : SIsLnk mode' ↔ SIsLnk mode := by rw [SIsLnk, h]; rfl
  exact ⟨hreg, by simp only [areaMode, hreg, hdir, hlnk]⟩

namespace FsInv

theorem iIno (h : FsInv R s) (hf : f ∈ s.files) : (s.inode f).iIno = f := by
  obtain ⟨tree, metas, staging, hp, -⟩ := h
  exact hp.iIno f hf

/-- Other attributes of an inode in core. -/
theorem attrs (h : FsInv R s) (f : ℕ) (inode : Inode) (hino : inode.iIno = (s.inode f).iIno)
    (hkind : inode.iMode &&& 0xf000 = (s.inode f).iMode &&& 0xf000)
    (hblocks : inode.iBlocks = (s.inode f).iBlocks)
    (hv : inode.iVirtAddr = (s.inode f).iVirtAddr) :
    OnFile R f s (s.put f (inode, s.master, s.areas)) [] := by
  obtain ⟨tree, metas, staging, hp, hk⟩ := h
  obtain ⟨free, used, hinv⟩ := hk.space
  obtain ⟨hreg, hmode⟩ := kind_congr hkind
  refine ⟨⟨tree, metas, staging, hp.put_core hino hreg hblocks rfl ⟨rfl, rfl⟩, ?_⟩, ?_, [],
    by simp, SameOffPages.refl _ _⟩
  · rw [← update_eq_self f tree]
    refine hk.put ⟨free, used, hinv.congr_kind rfl (Space.put_iVirtAddr_of_eq hv) fun j _ => ?_⟩
      (Or.inl rfl) (Or.inl hv) (OnlyArea.refl _ _) (hv ▸ hk.holds f)
    rcases eq_or_ne j f with rfl | hne
    · rw [← hmode]
      exact congrArg (fun i => areaMode i.iMode) (Fs.put_inode_self s j _)
    · exact congrArg (fun i => areaMode i.iMode) (Fs.put_inode_of_ne s _ hne)
  · rw [Fs.put_inode_self]
    rfl

/-- Stores to the slot of an inode that leave `i_pg_addr` alone. -/
theorem store (h : FsInv R s) (hf : f ∈ s.files) (ws : List (InodeField × ℕ))
    (hws : ∀ w ∈ ws, w.1 ≠ .iColdPageStart ∧ w.1 ≠ .iColdPageNum ∧ w.1 ≠ .iPgAddr) :
    OnFile R f s (s.setNvm { s.master.nvm with
      mem := inodeStruct.putFields s.master.nvm.mem (getRdfsInodePhyAddr sb f) ws }) ws := by
  obtain ⟨tree, metas, staging, hp, hk⟩ := h
  exact ⟨⟨tree, metas, staging, hp.store hf hws, hk.congr rfl rfl rfl⟩, Fs.setNvm_eq_put s f _, [],
    by simp, stored_putFields _ _ _ _⟩

theorem updateFields_inSlot (inode : Inode) : ∀ w ∈ updateFields inode,
    w.1 ≠ .iColdPageStart ∧ w.1 ≠ .iColdPageNum ∧ w.1 ≠ .iPgAddr := by
  simp [updateFields]

/-- `rdfs_update_inode` stores attributes, and `i_pg_addr` is none. -/
theorem updateInode (h : FsInv R s) (hf : f ∈ s.files) :
    OnFile R f s (s.setNvm { s.master.nvm with
      mem := rdfsUpdateInode sb s.master.nvm.mem (s.inode f) }) (updateFields (s.inode f)) := by
  have hstore := h.store hf _ (updateFields_inSlot (s.inode f))
  rw [rdfsUpdateInode, h.iIno hf]
  exact hstore

/-- Other attributes of an inode, in core and in the slot. -/
theorem updateAttrs (h : FsInv R s) (hf : f ∈ s.files) (inode : Inode)
    (hino : inode.iIno = (s.inode f).iIno)
    (hkind : inode.iMode &&& 0xf000 = (s.inode f).iMode &&& 0xf000)
    (hblocks : inode.iBlocks = (s.inode f).iBlocks)
    (hv : inode.iVirtAddr = (s.inode f).iVirtAddr) :
    OnFile R f s (s.put f (inode, { s.master with nvm := { s.master.nvm with
      mem := rdfsUpdateInode sb s.master.nvm.mem inode } }, s.areas)) (updateFields inode) := by
  have h₁ := h.attrs f inode hino hkind hblocks hv
  have h₂ := h₁.inv.updateInode (h₁.files ▸ hf)
  rw [Fs.put_inode_self] at h₂
  have hall := h₁.trans h₂
  rw [nil_append] at hall
  exact hall

/-- `__rdfs_truncate_blocks`. -/
theorem truncate (h : FsInv R s) (hf : f ∈ s.files) (start stop : ℕ) {r : Inode × Master}
    (hreg : CutsTable sb s.master.nvm.mem f start stop → SIsReg (s.inode f).iMode →
      (s.inode f).iBlocks = 0)
    (hr : rawRdfsTruncateBlocks sb s.master (s.inode f) start stop = r) :
    OnFile R f s (s.put f (r.1, r.2, s.areas))
      (if CutsTable sb s.master.nvm.mem f start stop then [(.iPgAddr, 0)] else []) := by
  have h' := h
  obtain ⟨tree, metas, staging, hp, hk⟩ := h
  obtain ⟨hkeep, hcut⟩ := rawRdfsTruncateBlocks_cases sb s.master (hp.iIno f hf) start stop
  by_cases hc : CutsTable sb s.master.nvm.mem f start stop
  · obtain ⟨t, ht⟩ := (hp.hasTable_iff hf).1 hc.1
    rw [hcut hc] at hr
    subst hr
    obtain ⟨ps, hps, hst⟩ := hp.cut_stored hf ht (hreg hc)
    rw [if_pos hc]
    refine ⟨⟨_, metas, staging, hp.cut hf ht (hreg hc) _, hk.cut hp hf ht _⟩, ?_, ps, hps, hst⟩
    rw [Fs.put_inode_self]
    rfl
  · rw [hkeep hc] at hr
    subst hr
    rw [if_neg hc, Fs.put_self]
    exact OnFile.refl h'

end FsInv

/-! ## Setting the size -/

/-- Outside of its own level an area has no entries. -/
theorem KernelInv.other_level {tree : ℕ → Option Tree} (h : KernelInv s tree) {v x : ℕ}
    (hx : x < 4096) :
    (v ∈ dirAreas → s.master.kernel.pud (v / 2 ^ 30) = 0) ∧
      (v ∈ regAreas → s.master.kernel.pmd ((v + x) / 2 ^ 21) = 0) := by
  refine ⟨fun hv => ?_, fun hv => ?_⟩
  · by_contra hne
    obtain ⟨w, hw, hle, hlt⟩ := h.pud _ hne
    obtain ⟨i, hi, hvi⟩ := mem_dirAreas.1 hv
    obtain ⟨j, hj, hwj⟩ := mem_regAreas.1 hw
    unfold rdfsStart at hvi hwj
    omega
  · by_contra hne
    obtain ⟨w, hw, heq⟩ := h.pmd _ hne
    obtain ⟨i, hi, hvi⟩ := mem_regAreas.1 hv
    obtain ⟨j, hj, hwj⟩ := mem_dirAreas.1 hw
    unfold rdfsStart at hvi hwj
    omega

/-- In the first page of the area of an inode the processor finds the first block. -/
theorem KernelInv.translate_first {tree : ℕ → Option Tree} {metas staging : List ℕ}
    (h : KernelInv s tree) (hp : PagesInv R s tree metas staging) (hf : f ∈ s.files)
    (hv : (s.inode f).iVirtAddr ≠ 0) {x bp : ℕ} (hx : x < 4096)
    (hbp : translate s.master.kernel s.master.nvm.mem ((s.inode f).iVirtAddr + x) = some bp) :
    ∃ e ∈ fileEnts (tree f), bp = e + x := by
  obtain ⟨free, used, hinv⟩ := h.space
  have harea := (hinv.area f).resolve_left hv
  have hholds := h.holds f
  obtain ⟨hdir, hreg⟩ := h.other_level (v := (s.inode f).iVirtAddr) hx
  generalize (s.inode f).iVirtAddr = v at *
  cases htree : tree f with
  | none =>
    rw [htree] at hholds
    have hnone : translate s.master.kernel s.master.nvm.mem (v + x) = none := by
      rw [translate]
      simp only [Nat.shiftRight_eq_div_pow]
      rcases harea with hd | hr
      · obtain ⟨i, hi, hvi⟩ := mem_dirAreas.1 hd
        unfold rdfsStart at hvi
        rw [show (v + x) / 2 ^ 30 = v / 2 ^ 30 by omega, hdir hd, if_pos rfl,
          show (v + x) / 2 ^ 21 = v / 2 ^ 21 by omega, hholds.1 hd]
        exact if_pos rfl
      · obtain ⟨i, hi, hvi⟩ := mem_regAreas.1 hr
        have hpud := hholds.2 hr 0 (by decide)
        unfold rdfsStart at hvi
        rw [show (v + x) / 2 ^ 30 = v / 2 ^ 30 + 0 by omega, hpud, hreg hr]
        rfl
    rw [hnone] at hbp
    cases hbp
  | some t =>
    rw [htree] at hholds
    have hlen := hp.ents_length_le hf htree
    have hrep := hp.files.rep f hf t htree
    have hpmds := hrep.length_pmds
    have hword := (hholds.mapped (by omega)).translate_word (R := R) harea hdir hrep
      (fun p hin => hp.files.isPage hf htree hin) (fun _ => by omega)
      (show x / 2 ^ 21 < t.ptes.length by rw [hrep.length_ptes]; omega) rfl
    rw [hbp, show x / 4096 = 0 by omega, show x % 4096 = x by omega] at hword
    cases hents : t.ents with
    | nil =>
      rw [hents, tableWord_of_le _ (by simp), if_pos rfl] at hword
      cases hword
    | cons e es =>
      have hin : e ∈ fileEnts (tree f) := by
        rw [htree]
        show e ∈ t.ents
        rw [hents]
        exact mem_cons_self
      have hpage := hp.ent_isPage hf hin
      have hne : e ||| pageKernel ≠ 0 := fun h0 => absurd (Nat.or_eq_zero_iff.1 h0).2 (by decide)
      rw [hents, tableWord_of_lt _ (by simp), getElem_cons_zero, if_neg hne,
        (blockEntry_and hpage).1] at hword
      exact ⟨e, by rwa [← htree], some_inj.1 hword⟩

/-- Clearing the end of the first page of the area of an inode. -/
theorem FsInv.clear (h : FsInv R s) (hf : f ∈ s.files) (hv : (s.inode f).iVirtAddr ≠ 0) {x bp : ℕ}
    (hx : x < 4096)
    (hbp : translate s.master.kernel s.master.nvm.mem ((s.inode f).iVirtAddr + x) = some bp) :
    OnFile R f s (s.setNvm { s.master.nvm with
      mem := s.master.nvm.mem.fill (4096 - x) bp 0 }) [] := by
  obtain ⟨tree, metas, staging, hp, hk⟩ := h
  obtain ⟨e, he, rfl⟩ := hk.translate_first hp hf hv hx hbp
  have hm : SameOffPages s.master.nvm.mem (s.master.nvm.mem.fill (4096 - x) (e + x) 0) [e] :=
    SameOffPages.of_sameOff (Mem.sameOff_fill _ _ _ _) (by omega) (by omega)
  exact ⟨⟨tree, metas, staging, hp.write_page (hp.ent_mem hf he) hm, hk.congr rfl rfl rfl⟩,
    Fs.setNvm_eq_put s f _, [e], by simpa using hp.ent_isPage hf he, hm⟩

/-- The error of `rdfs_setsize`, 0 if there is none. -/
def setsizeError (inode : Inode) (size : ℕ) : ℤ :=
  if ¬(SIsReg inode.iMode ∨ SIsDir inode.iMode ∨ SIsLnk inode.iMode) then -22
  else if inode.Protected then -1
  else if size ≠ inode.iSize ∧ ¬(size % 4096 = 0 ∨ inode.iSize < size) ∧ inode.iVirtAddr = 0 then
    -13
  else 0

variable {inode : Inode} {size now : ℕ}

/-- What `rdfs_setsize` does when it returns : nothing, or it clears the end of the first page of
the area, or not, and goes on to the blocks. -/
theorem rdfsSetsize_cases {g : Master} {r : ℤ × Inode × Master}
    (hr : rdfsSetsize sb g inode size now = some r) :
    (setsizeError inode size ≠ 0 ∧ r = (setsizeError inode size, inode, g)) ∨
    (setsizeError inode size = 0 ∧ ∃ g', r = (0, cutBlocks sb g' inode size now) ∧
      (g' = g ∨ (inode.iVirtAddr ≠ 0 ∧ ∃ bp,
        translate g.kernel g.nvm.mem (inode.iVirtAddr + size % 4096) = some bp ∧
          g' = { g with
            nvm := { g.nvm with mem := g.nvm.mem.fill (4096 - size % 4096) bp 0 } }))) := by
  unfold rdfsSetsize at hr
  unfold setsizeError
  by_cases hkind : SIsReg inode.iMode ∨ SIsDir inode.iMode ∨ SIsLnk inode.iMode
  · rw [if_neg (not_not.2 hkind)] at hr ⊢
    by_cases hprot : inode.Protected
    · rw [if_pos hprot] at hr ⊢
      exact Or.inl ⟨by decide, (some_inj.1 hr).symm⟩
    · rw [if_neg hprot] at hr ⊢
      by_cases hne : size ≠ inode.iSize
      · simp only [if_pos hne, rdfsBlockTruncatePage] at hr
        by_cases hoff : size % 4096 = 0 ∨ inode.iSize < size
        · rw [if_pos hoff] at hr
          rw [if_neg fun hc => hc.2.1 hoff]
          exact Or.inr ⟨rfl, g, (some_inj.1 hr).symm, Or.inl rfl⟩
        · rw [if_neg hoff] at hr
          by_cases hv : inode.iVirtAddr = 0
          · rw [if_pos hv] at hr
            rw [if_pos ⟨hne, hoff, hv⟩]
            exact Or.inl ⟨by decide, (some_inj.1 hr).symm⟩
          · rw [if_neg hv] at hr
            rw [if_neg fun hc => hv hc.2.2]
            rw [Option.map_map] at hr
            obtain ⟨bp, hbp, rfl⟩ := map_eq_some_iff.1 hr
            exact Or.inr ⟨rfl, _, rfl, Or.inr ⟨hv, bp, hbp, rfl⟩⟩
      · rw [if_neg hne] at hr
        rw [if_neg fun hc => hne hc.1]
        exact Or.inr ⟨rfl, g, (some_inj.1 hr).symm, Or.inl rfl⟩
  · rw [if_pos hkind] at hr ⊢
    exact Or.inl ⟨by decide, (some_inj.1 hr).symm⟩

/-- The store of `check_eof_blocks` to the slot of an inode with `blocks` blocks. -/
def eofStores (sb : Super) (m : Mem) (ino blocks size : ℕ) : List (InodeField × ℕ) :=
  if EofBlocks sb m ino ∧ blocks <<< 12 ≤ size + 4096 then
    [(.iFlags, inodeStruct.getField m (getRdfsInodePhyAddr sb ino) .iFlags &&&
      (0xffffffff - rdfsEofblocksFl))]
  else []

theorem checkEofBlocks_eq (sb : Super) (m : Mem) (inode : Inode) (size : ℕ) :
    checkEofBlocks sb m inode size = inodeStruct.putFields m (getRdfsInodePhyAddr sb inode.iIno)
      (eofStores sb m inode.iIno inode.iBlocks size) := by
  unfold checkEofBlocks eofStores
  split_ifs <;> rfl

/-- The inode once `rdfs_setsize` has succeeded. -/
def cutInode (sb : Super) (m : Mem) (inode : Inode) (size now : ℕ) : Inode :=
  { inode with
    iSize := size
    iBlocks := if CutsTable sb m inode.iIno size inode.iSize then 0 else inode.iBlocks
    iMtime := now, iCtime := now }

/-- The stores of `rdfs_setsize` when it succeeds. -/
def cutStores (sb : Super) (m : Mem) (inode : Inode) (size now : ℕ) : List (InodeField × ℕ) :=
  (if CutsTable sb m inode.iIno size inode.iSize then [(.iPgAddr, 0)] else []) ++
    eofStores sb m inode.iIno (cutInode sb m inode size now).iBlocks size ++
      updateFields (cutInode sb m inode size now)

/-- A field of the slot that is not stored. -/
theorem OnFile.getField_eq (h : OnFile R f s s' ws) (hf : f ∈ s.files) (fld : InodeField)
    (hfld : fld ≠ .iColdPageStart ∧ fld ≠ .iColdPageNum) (hnot : fld ∉ ws.map Prod.fst) :
    inodeStruct.getField s'.master.nvm.mem (getRdfsInodePhyAddr sb f) fld =
      inodeStruct.getField s.master.nvm.mem (getRdfsInodePhyAddr sb f) fld := by
  rw [← inodeStruct.getField_putFields_of_notMem (mem_inodeStruct_fields fld)
    (getRdfsInodePhyAddr sb f) ws s.master.nvm.mem (fun w _ => mem_inodeStruct_fields w.1) hnot]
  have hend := (offset_lt_rdfsInodeSize_iff fld).2 hfld
  unfold rdfsInodeSize at hend
  exact Mem.load_congr fun x h1 h2 => h.sameOn hf x (by omega) (by omega)

theorem OnFile.eofBlocks_iff (h : OnFile R f s s' ws) (hf : f ∈ s.files)
    (hnot : InodeField.iFlags ∉ ws.map Prod.fst) :
    EofBlocks sb s'.master.nvm.mem f ↔ EofBlocks sb s.master.nvm.mem f := by
  rw [EofBlocks, h.getField_eq hf .iFlags (by simp) hnot]
  rfl

theorem OnFile.cutsTable_iff (h : OnFile R f s s' []) (hf : f ∈ s.files) (start stop : ℕ) :
    CutsTable sb s'.master.nvm.mem f start stop ↔ CutsTable sb s.master.nvm.mem f start stop := by
  have hpg := h.getField_eq hf .iPgAddr (by simp) (by simp)
  simp only [CutsTable, HasTable, lastBlocknr, h.eofBlocks_iff hf (by simp), hpg]

theorem OnFile.eofStores_eq (h : OnFile R f s s' ws) (hf : f ∈ s.files)
    (hnot : InodeField.iFlags ∉ ws.map Prod.fst) (blocks size : ℕ) :
    eofStores sb s'.master.nvm.mem f blocks size = eofStores sb s.master.nvm.mem f blocks size := by
  simp only [eofStores, h.eofBlocks_iff hf hnot, h.getField_eq hf .iFlags (by simp) hnot]

/-- The inode in core after `__rdfs_truncate_blocks`. -/
theorem rawRdfsTruncateBlocks_inode (sb : Super) (g : Master) (hino : inode.iIno = f)
    (start stop : ℕ) :
    (rawRdfsTruncateBlocks sb g inode start stop).1 = { inode with
      iBlocks := if CutsTable sb g.nvm.mem f start stop then 0 else inode.iBlocks } := by
  obtain ⟨hkeep, hcut⟩ := rawRdfsTruncateBlocks_cases sb g hino start stop
  by_cases hc : CutsTable sb g.nvm.mem f start stop
  · rw [hcut hc, if_pos hc]
  · rw [hkeep hc, if_neg hc]

/-- The flag for blocks behind the end. -/
theorem FsInv.checkEof (h : FsInv R s) (hf : f ∈ s.files) (size : ℕ) :
    OnFile R f s (s.setNvm { s.master.nvm with
        mem := checkEofBlocks sb s.master.nvm.mem (s.inode f) size })
      (eofStores sb s.master.nvm.mem f (s.inode f).iBlocks size) := by
  have hstore := h.store hf (eofStores sb s.master.nvm.mem f (s.inode f).iBlocks size)
    (by unfold eofStores; split_ifs <;> simp)
  rw [checkEofBlocks_eq, h.iIno hf]
  exact hstore

/-- The blocks, the flags and the attributes. -/
theorem FsInv.cutBlocks (h : FsInv R s) (hf : f ∈ s.files) (size now : ℕ)
    (hreg : CutsTable sb s.master.nvm.mem f size (s.inode f).iSize → SIsReg (s.inode f).iMode →
      (s.inode f).iBlocks = 0) :
    (Rdfs.cutBlocks sb s.master (s.inode f) size now).1 =
        cutInode sb s.master.nvm.mem (s.inode f) size now ∧
      OnFile R f s (s.put f ((Rdfs.cutBlocks sb s.master (s.inode f) size now).1,
        (Rdfs.cutBlocks sb s.master (s.inode f) size now).2, s.areas))
        (cutStores sb s.master.nvm.mem (s.inode f) size now) := by
  have hino := h.iIno hf
  obtain ⟨r, hr⟩ : ∃ r, rawRdfsTruncateBlocks sb s.master { s.inode f with iSize := size } size
      (s.inode f).iSize = r := ⟨_, rfl⟩
  have hcut := rawRdfsTruncateBlocks_inode sb s.master
    (show ({ s.inode f with iSize := size } : Inode).iIno = f from hino) size (s.inode f).iSize
  rw [hr] at hcut
  have hlast : cutInode sb s.master.nvm.mem (s.inode f) size now =
      { r.1 with iMtime := now, iCtime := now } := by
    simp only [hcut, cutInode, hino]
  obtain ⟨inode, hinode⟩ : ∃ inode, ({ r.1 with iMtime := now, iCtime := now } : Inode) = inode :=
    ⟨_, rfl⟩
  rw [hinode] at hlast
  -- the three parts, each on the state that the one before it leaves
  have h₀ := h.attrs f { s.inode f with iSize := size } rfl rfl rfl rfl
  have h₁ := h₀.trans (h₀.inv.truncate (h₀.files ▸ hf) size (s.inode f).iSize (r := r)
    (by rw [Fs.put_inode_self]; exact hreg) (by rw [Fs.put_inode_self]; exact hr))
  rw [nil_append, Fs.put_put] at h₁
  have h₂ := h₁.inv.checkEof (h₁.files ▸ hf) size
  have hflags := h₁.eofStores_eq hf (by split_ifs <;> simp) r.1.iBlocks size
  rw [Fs.put_inode_self, hflags] at h₂
  obtain ⟨s₂, hs₂⟩ : ∃ s₂, (s.put f (r.1, r.2, s.areas)).setNvm { r.2.nvm with
      mem := checkEofBlocks sb r.2.nvm.mem r.1 size } = s₂ := ⟨_, rfl⟩
  have hcore : s₂.inode f = r.1 := by
    rw [← hs₂]
    exact Fs.put_inode_self s f _
  change OnFile R f _ ((s.put f (r.1, r.2, s.areas)).setNvm { r.2.nvm with
      mem := checkEofBlocks sb r.2.nvm.mem r.1 size }) _ at h₂
  rw [hs₂] at h₂
  have h₃ := h₂.inv.updateAttrs (h₂.files ▸ h₁.files ▸ hf) inode (by rw [← hinode, hcore])
    (by rw [← hinode, hcore]) (by rw [← hinode, hcore]) (by rw [← hinode, hcore])
  have hfirst : Rdfs.cutBlocks sb s.master (s.inode f) size now =
      (inode, { r.2 with nvm := { r.2.nvm with
        mem := rdfsUpdateInode sb (checkEofBlocks sb r.2.nvm.mem r.1 size) inode } }) := by
    rw [Rdfs.cutBlocks, ← hinode]
    simp only [hr]
  have hend : s₂.put f (inode, { s₂.master with nvm := { s₂.master.nvm with
        mem := rdfsUpdateInode sb s₂.master.nvm.mem inode } }, s₂.areas) =
      s.put f ((Rdfs.cutBlocks sb s.master (s.inode f) size now).1,
        (Rdfs.cutBlocks sb s.master (s.inode f) size now).2, s.areas) := by
    rw [hfirst, ← hs₂]
    simp only [Fs.put, Fs.setNvm, Space.put, update_idem]
  have hall := (h₁.trans h₂).trans h₃
  rw [hend] at hall
  refine ⟨by rw [hfirst, hlast], ?_⟩
  rw [cutStores, hlast, hino, ← hinode]
  rw [← hinode] at hall
  exact hall

/-- `rdfs_setsize` fails and does nothing, or it succeeds. -/
theorem FsInv.setsize (h : FsInv R s) (hf : f ∈ s.files) {r : ℤ × Inode × Master}
    (hreg : CutsTable sb s.master.nvm.mem f size (s.inode f).iSize → SIsReg (s.inode f).iMode →
      (s.inode f).iBlocks = 0) (hr : rdfsSetsize sb s.master (s.inode f) size now = some r) :
    (setsizeError (s.inode f) size ≠ 0 ∧
      r = (setsizeError (s.inode f) size, s.inode f, s.master)) ∨
    (setsizeError (s.inode f) size = 0 ∧ r.1 = 0 ∧
      r.2.1 = cutInode sb s.master.nvm.mem (s.inode f) size now ∧
      OnFile R f s (s.put f (r.2.1, r.2.2, s.areas))
        (cutStores sb s.master.nvm.mem (s.inode f) size now)) := by
  obtain herr | ⟨hok, g', rfl, hg'⟩ := rdfsSetsize_cases hr
  · exact Or.inl herr
  refine Or.inr ⟨hok, rfl, ?_⟩
  obtain rfl | ⟨hv, bp, hbp, hg'⟩ := hg'
  · exact h.cutBlocks hf size now hreg
  have hino := h.iIno hf
  have h₁ := h.clear hf hv (Nat.mod_lt size (by decide)) hbp
  obtain ⟨s₁, hs₁⟩ : ∃ s₁, s.setNvm { s.master.nvm with
      mem := s.master.nvm.mem.fill (4096 - size % 4096) bp 0 } = s₁ := ⟨_, rfl⟩
  rw [hs₁] at h₁
  have hmaster : s₁.master = g' := by rw [← hs₁, hg']; rfl
  have hcore : s₁.inode = s.inode := by rw [← hs₁]; rfl
  have hareas : s₁.areas = s.areas := by rw [← hs₁]; rfl
  have hput : ∀ r, s₁.put f r = s.put f r := fun r => by rw [← hs₁]; rfl
  have hcuts := h₁.cutsTable_iff hf size (s.inode f).iSize
  have hinode : cutInode sb s₁.master.nvm.mem (s.inode f) size now =
      cutInode sb s.master.nvm.mem (s.inode f) size now := by
    simp only [cutInode, hino, hcuts]
  have hstores : cutStores sb s₁.master.nvm.mem (s.inode f) size now =
      cutStores sb s.master.nvm.mem (s.inode f) size now := by
    simp only [cutStores, hinode, hino, hcuts, h₁.eofStores_eq hf (by simp)]
  obtain ⟨hfirst, h₂⟩ := h₁.inv.cutBlocks (h₁.files ▸ hf) size now
    (by rw [hcore, hcuts]; exact hreg)
  rw [hcore, hinode, hmaster] at hfirst
  rw [hcore, hstores, hmaster, hareas, hput] at h₂
  have hall := h₁.trans h₂
  rw [nil_append] at hall
  exact ⟨hfirst, hall⟩

/-! ## Attributes -/

/-- The stores of `rdfs_notify_change` to the slot. -/
def notifyStores (sb : Super) (m : Mem) (inode : Inode) (attr : Iattr) (now : ℕ) :
    List (InodeField × ℕ) :=
  if attr.changeOk ≠ 0 then []
  else match newSize sb m inode attr with
    | none => updateFields (setattrCopy inode attr)
    | some size =>
      if setsizeError inode size ≠ 0 then []
      else cutStores sb m inode size now ++
        updateFields (setattrCopy (cutInode sb m inode size now) attr)

theorem setattrCopy_kind {attr : Iattr}
    (h : ∀ mode ∈ attr.iaMode, mode &&& 0xf000 = inode.iMode &&& 0xf000) :
    (setattrCopy inode attr).iMode &&& 0xf000 = inode.iMode &&& 0xf000 := by
  unfold setattrCopy
  cases hmode : attr.iaMode with
  | none => rfl
  | some mode =>
    rw [← h mode hmode]
    dsimp only [Option.elim]
    split_ifs
    · rfl
    · rw [Nat.and_assoc]
      rfl

/-- The last part of `rdfs_notify_change` : attributes in core and in the slot. -/
theorem FsInv.setattr (h : FsInv R s) (hf : f ∈ s.files) (attr : Iattr)
    (hkind : ∀ mode ∈ attr.iaMode, mode &&& 0xf000 = (s.inode f).iMode &&& 0xf000) :
    OnFile R f s (s.put f (setattrCopy (s.inode f) attr, { s.master with
      nvm := { s.master.nvm with
        mem := rdfsUpdateInode sb s.master.nvm.mem (setattrCopy (s.inode f) attr) } }, s.areas))
      (updateFields (setattrCopy (s.inode f) attr)) := by
  exact h.updateAttrs hf _ rfl (setattrCopy_kind hkind) rfl rfl

/-- `rdfs_notify_change`. -/
theorem FsInv.notifyChange (h : FsInv R s) {attr : Iattr} {r : ℤ × Inode × Master}
    (hv : (FsOp.notifyChange f attr now).Valid s) (hs : (FsOp.notifyChange f attr now).Sound R s)
    (hr : rdfsNotifyChange sb s.master (s.inode f) attr now = some r) :
    OnFile R f s (s.put f (r.2.1, r.2.2, s.areas))
      (notifyStores sb s.master.nvm.mem (s.inode f) attr now) := by
  obtain ⟨hf, hkind⟩ := hv
  unfold rdfsNotifyChange at hr
  unfold notifyStores
  by_cases hok : attr.changeOk ≠ 0
  · rw [if_pos hok] at hr ⊢
    obtain rfl := some_inj.1 hr
    rw [Fs.put_self]
    exact OnFile.refl h
  rw [if_neg hok] at hr ⊢
  cases hsize : newSize sb s.master.nvm.mem (s.inode f) attr with
  | none =>
    rw [hsize] at hr
    obtain rfl := some_inj.1 hr
    exact h.setattr hf attr hkind
  | some size =>
    rw [hsize] at hr
    obtain ⟨r₁, hr₁, rfl⟩ := map_eq_some_iff.1 hr
    obtain ⟨herr, rfl⟩ | ⟨herr, hzero, hinode, h₁⟩ := h.setsize hf (hs size hsize) hr₁
    · simp only [if_pos herr]
      rw [Fs.put_self]
      exact OnFile.refl h
    · simp only [herr, hzero, ne_eq, not_true_eq_false, if_false]
      have h₂ := h₁.inv.setattr (h₁.files ▸ hf) attr (by
        rw [Fs.put_inode_self, hinode]
        exact hkind)
      rw [Fs.put_inode_self, Fs.put_put] at h₂
      have hall := h₁.trans h₂
      rw [hinode] at hall ⊢
      exact hall

/-! ## Every operation -/

/-- The inode whose slot an operation stores fields in. -/
def FsOp.target (sb : Super) (s : Fs) : FsOp → ℕ
  | newInode _ _ _ => s.freeIno sb
  | alloc f _ _ _ _ _ | truncate f _ _ | updateInode f | notifyChange f _ _ | freeInode f _
  | establish f _ | destroy f => f
  | rwBuffer _ => 1

/-- The fields an operation stores in the slot of an inode that stays in use, in order. -/
def FsOp.stores (sb : Super) (s : Fs) : FsOp → List (InodeField × ℕ)
  | newInode cpu attrs _ => s.newInodeStores sb cpu attrs
  | alloc f cpu num _ _ _ =>
    (if HasTable sb s.master.nvm.mem f then []
      else [(.iPgAddr, (s.master.nvm.numaDes (getCpuNuma sb cpu)).freePagePhy)]) ++
        blockStores (s.inode f).iBlocks num
  | truncate f start stop =>
    if CutsTable sb s.master.nvm.mem f start stop then [(.iPgAddr, 0)] else []
  | updateInode f => updateFields (s.inode f)
  | notifyChange f attr now => notifyStores sb s.master.nvm.mem (s.inode f) attr now
  | freeInode _ _ | establish _ _ | destroy _ | rwBuffer _ => []

/-- The memory in which only the fields are stored. -/
def FsOp.storedMem (sb : Super) (s : Fs) (o : FsOp) : Mem :=
  inodeStruct.putFields s.master.nvm.mem (getRdfsInodePhyAddr sb (o.target sb s)) (o.stores sb s)

/-- `rdfs_alloc_blocks`. -/
theorem FsInv.alloc (h : FsInv R s) {cpu num zeroing phys : ℕ} {type : AllocType}
    (hv : (FsOp.alloc f cpu num zeroing type phys).Valid s)
    (hs : (FsOp.alloc f cpu num zeroing type phys).Sound R s)
    (hr : (FsOp.alloc f cpu num zeroing type phys).run sb s = some s') :
    OnFile R f s s' ((FsOp.alloc f cpu num zeroing type phys).stores sb s) := by
  obtain ⟨tree, metas, staging, hp, hk⟩ := h
  obtain ⟨t', a, es, metas', ha, hgrown, hp'⟩ := hp.alloc hv.1 hv hs
  rw [FsOp.run, ha] at hr
  obtain rfl := some_inj.1 hr
  obtain ⟨b, hinode⟩ := hgrown.inode_eq
  have hnum : es.length = num := by
    have hblocks := (rdfsAllocBlocks_inode sb cpu s.master (s.inode f) num zeroing type phys).2
    rw [ha, hinode] at hblocks
    simpa using hblocks rfl
  have htable : tableStores (s.master.nvm.numaDes (getCpuNuma sb cpu)).freePagePhy (tree f) =
      if HasTable sb s.master.nvm.mem f then []
      else [(.iPgAddr, (s.master.nvm.numaDes (getCpuNuma sb cpu)).freePagePhy)] := by
    have hiff := hp.hasTable_iff hv.1
    cases htree : tree f with
    | none =>
      rw [if_neg fun hc => by simpa [htree] using hiff.1 hc]
      rfl
    | some t =>
      rw [if_pos (hiff.2 ⟨t, htree⟩)]
      rfl
  refine ⟨⟨_, metas', staging, hp', hk.grown hgrown⟩, ?_, t'.pages ++ es, fun p hin => ?_, ?_⟩
  · rw [Fs.put_inode_self]
    rfl
  · rcases mem_append.1 hin with hin | hin
    · exact hp'.files.isPage hv.1 (update_self f (some t') tree) hin
    · refine hp'.ent_isPage hv.1 ?_
      rw [update_self]
      show p ∈ t'.ents
      rw [hgrown.ents]
      exact mem_append_right _ hin
  · have hsame := hgrown.same
    rwa [hp.iIno f hv.1, hnum, htable] at hsame

/-- The invariant holds in `s'`, and in the slots of inodes in use there is what `m` has. -/
def Settled (R : Region sb) (m : Mem) (s' : Fs) : Prop :=
  FsInv R s' ∧ ∀ g ∈ s'.files, Mem.SameOn m s'.master.nvm.mem 128 (getRdfsInodePhyAddr sb g)

theorem OnFile.settled (h : OnFile R f s s' ws) :
    Settled R (inodeStruct.putFields s.master.nvm.mem (getRdfsInodePhyAddr sb f) ws) s' :=
  ⟨h.inv, fun _ hg => h.sameOn (h.files ▸ hg)⟩

theorem FsInv.settled (h : FsInv R s') {m : Mem} (hm : s'.master.nvm.mem = m) :
    Settled R m s' :=
  ⟨h, fun _ _ x _ _ => by rw [hm]⟩

namespace FsInv

section

variable (h : FsInv R s)
include h

/-- `rdfs_new_inode`. -/
theorem newInode {cpu umask : ℕ} {attrs : Inode} (hs : (FsOp.newInode cpu attrs umask).Sound R s) :
    Settled R ((FsOp.newInode cpu attrs umask).storedMem sb s) (s.newInode sb cpu attrs umask) := by
  obtain ⟨tree, metas, staging, hp, hk⟩ := h
  obtain ⟨tree', hp', hk', ps, hps, hst⟩ := hp.newInode hs
  refine ⟨⟨tree', metas, staging, hp', hk' hk⟩, fun g hg => SameOffPages.sameOn hst fun p hin => ?_⟩
  exact (R.isSlot_disjoint_page (hp'.files.isSlot g hg) (hps p hin)).symm

/-- `rdfs_free_inode` writes to the slot of the inode that is no longer in use. -/
theorem freeInode (hf : f ∈ s.live) (hnone : ¬HasTable sb s.master.nvm.mem f) (seconds : ℕ) :
    Settled R s.master.nvm.mem
      { s.setNvm (rdfsFreeInode sb s.master.nvm f seconds) with live := s.live.erase f } := by
  obtain ⟨tree, metas, staging, hp, hk⟩ := h
  obtain ⟨herase, hf'⟩ := hp.erase_files hf
  refine ⟨⟨tree, metas, staging, hp.freeInode hf hnone seconds, hk.congr rfl rfl rfl⟩,
    fun g hg => (sameOff_rdfsFreeInode s.master.nvm f seconds).sameOn ?_⟩
  have hg' : g ∈ s.files.erase f := by
    rw [herase]
    exact hg
  obtain ⟨hne, hg'⟩ := hp.files.nodup.mem_erase_iff.1 hg'
  exact hp.files.slot_disjoint hg' hf' (Ne.symm hne)

/-- `rdfs_establish_mapping` writes to the table of areas. -/
theorem establish (hR : R.Behind) (hf : f ∈ s.files) {ptr : ℕ} (hlow : LowArea s.toSpace f) :
    Settled R s.master.nvm.mem
      { s with toSpace := (s.toSpace.establish sb f ptr).2 } := by
  obtain ⟨tree, metas, staging, hp, hk⟩ := h
  obtain ⟨free, used, hinv⟩ := hk.space
  have htable := (hinv.tableOk_iff sb f ptr).2 hlow
  refine ⟨⟨tree, metas, staging, hp.establish hR htable, hk.establish hp hR hf htable⟩,
    fun g hg => htable.2.1.sameOn ?_⟩
  have := R.start_le_isSlot (hp.files.isSlot g hg)
  unfold Region.Behind at hR
  omega

theorem destroy (hf : f ∈ s.files) (hr : (FsOp.destroy f).run sb s = some s') :
    Settled R s.master.nvm.mem s' := by
  obtain ⟨tree, metas, staging, hp, hk⟩ := h
  obtain ⟨r, s₁, hr₁, hk', hp', hnvm⟩ := hk.destroy hp hf
  rw [FsOp.run, hr₁] at hr
  obtain rfl := some_inj.1 hr
  exact FsInv.settled ⟨tree, metas, staging, hp', hk'⟩ (congrArg Nvm.mem hnvm)

theorem rwBuffer (cpu : ℕ) : Settled R s.master.nvm.mem
    { s with toSpace := rdfsInitLocalRwBuffer sb cpu s.toSpace } := by
  obtain ⟨tree, metas, staging, hp, hk⟩ := h
  obtain ⟨staging', hp', hm⟩ := hp.rwBuffer cpu
  refine FsInv.settled ⟨tree, metas, staging', hp', hk.congr ?_ ?_ ?_⟩ hm
  all_goals
    obtain ⟨nvm', flag, phys, heq, -⟩ := rdfsInitLocalRwBuffer_eq sb cpu s.toSpace
    rw [heq]

end

end FsInv

/-- Every operation that finds what it takes for granted keeps the invariant, and stores its fields
and nothing else in the slots of inodes in use. -/
theorem FsOp.Sound.step {o : FsOp} (hs : o.Sound R s) (hv : o.Valid s) (hR : R.Behind)
    (h : FsInv R s) (hr : o.run sb s = some s') : Settled R (o.storedMem sb s) s' := by
  cases o with
  | newInode cpu attrs umask => exact some_inj.1 hr ▸ h.newInode hs
  | alloc f cpu num zeroing type phys => exact (h.alloc hv hs hr).settled
  | truncate f start stop =>
    generalize hr₁ : rawRdfsTruncateBlocks sb s.master (s.inode f) start stop = r
    rw [FsOp.run, hr₁] at hr
    exact some_inj.1 hr ▸ (h.truncate hv start stop hs hr₁).settled
  | updateInode f => exact some_inj.1 hr ▸ (h.updateInode hv).settled
  | notifyChange f attr now =>
    obtain ⟨r, hr₁, hr₂⟩ := map_eq_some_iff.1 hr
    exact hr₂ ▸ (h.notifyChange hv hs hr₁).settled
  | freeInode f seconds => exact some_inj.1 hr ▸ h.freeInode hv hs seconds
  | establish f ptr => exact some_inj.1 hr ▸ h.establish hR hv hs
  | destroy f => exact h.destroy hv hr
  | rwBuffer cpu => exact some_inj.1 hr ▸ h.rwBuffer cpu

/-- The invariant holds along every run whose steps find what they take for granted. -/
theorem FsRun.inv (hR : R.Behind) (h : FsRun R (FsOp.Sound R) s) : FsInv R s := by
  induction h with
  | mount m cpu root slaves nextNumaId hroot hroom =>
    obtain ⟨tree, hp, hk⟩ := PagesInv.mount R m root slaves nextNumaId hroom
    exact ⟨tree, [], [], hp, hk⟩
  | op h o hv hc hr ih => exact (hc.step hv hR ih hr).1

end Rdfs
