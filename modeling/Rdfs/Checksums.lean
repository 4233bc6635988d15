import Rdfs.PageOwners

/-!
# The checksums of stored inodes

A stored inode starts with the checksum of the bytes behind it, and `rdfs_read_inode` refuses an
inode whose checksum is not the one stored. Only the mount computes one, for the root : what an
operation stores in a slot keeps the checksum exactly when the change of the bytes has the change of
the stored checksum as its own (`SumKept`, from the linearity of the checksum), and a new inode has
the checksum that its slot was left with. So the images stay good along every run whose steps meet
`FsOp.KeepsSums`, and a step from such a state keeps them good only if it does
(`FsRun.sums_spec`). A new mode of the root is enough to make it unreadable
(`chmod_root_unreadable`).
-/

namespace Rdfs

open List Option

variable {sb : Super} {R : Region sb} {s s' : Fs} {m m' : Mem} {p : ℕ}

/-! ## The checksum of an image -/

/-- The image at `p` passes `rdfs_calc_checksum`. -/
def SumOk (m : Mem) (p : ℕ) : Prop := rdfsCalcChecksum m p rdfsInodeSize = 0

/-- The change of the image from `m` to `m'` has the change of the stored checksum as its own. -/
def SumKept (m m' : Mem) (p : ℕ) : Prop :=
  crc32 0#32 (List.zipWith (· ^^^ ·) (m.bytes 124 (p + 4)) (m'.bytes 124 (p + 4))) =
    BitVec.ofNat 32 (m.load 4 p) ^^^ BitVec.ofNat 32 (m'.load 4 p)

theorem sumOk_iff : SumOk m p ↔
    BitVec.ofNat 32 (m.load 4 p) = crc32 0xffffffff#32 (m.bytes 124 (p + 4)) := by
  have hlt : m.load 4 p < 2 ^ 32 := m.load_lt 4 p
  rw [SumOk, rdfsCalcChecksum, ite_eq_left_iff, imp_iff_not_or, not_not,
    or_iff_left (by decide), BitVec.toNat_inj.symm, BitVec.toNat_ofNat, Nat.mod_eq_of_lt hlt]
  rfl

/-- A good image stays good exactly when its checksum changes with it. -/
theorem SumOk.iff_sumKept (h : SumOk m p) : SumOk m' p ↔ SumKept m m' p := by
  have hlen : (m.bytes 124 (p + 4)).length = (m'.bytes 124 (p + 4)).length := by
    simp [Mem.bytes]
  rw [sumOk_iff] at h
  rw [sumOk_iff, SumKept, crc32_eq_xor 0xffffffff#32 hlen, ← h]
  constructor
  · intro heq
    rw [heq, ← BitVec.xor_assoc, BitVec.xor_self, BitVec.zero_xor]
  · intro heq
    rw [heq, ← BitVec.xor_assoc, BitVec.xor_self, BitVec.zero_xor]

theorem SumOk.congr (h : SumOk m p) (hm : Mem.SameOn m m' 128 p) : SumOk m' p := by
  have hload : m'.load 4 p = m.load 4 p := Mem.load_congr fun x h1 h2 => hm x h1 (by omega)
  have hbytes : m'.bytes 124 (p + 4) = m.bytes 124 (p + 4) :=
    map_congr_left fun i hi => hm _ (by omega) (by
      have := mem_range.1 hi
      omega)
  rw [sumOk_iff] at h ⊢
  rw [hload, hbytes, h]

theorem sumOk_congr (hm : Mem.SameOn m m' 128 p) : SumOk m' p ↔ SumOk m p :=
  ⟨fun h => h.congr fun x h1 h2 => (hm x h1 h2).symm, fun h => h.congr hm⟩

/-- `rdfs_sync_inode` stores the checksum. -/
theorem sumOk_rdfsSyncInode (m : Mem) (p : ℕ) : SumOk (rdfsSyncInode m p) p := by
  generalize hm₁ : inodeStruct.putField m p .iSum 0 = m₁
  have hbytes : (rdfsSyncInode m p).bytes 124 (p + 4) = m₁.bytes 124 (p + 4) := by
    refine map_congr_left fun i _ => ?_
    rw [rdfsSyncInode, hm₁]
    exact inodeStruct.sameOff_putField m₁ p .iSum _ _ (by
      have : inodeStruct.offset .iSum + inodeStruct.size .iSum = 4 := by decide
      omega)
  generalize hc : crc32 0xffffffff#32 (m₁.bytes 124 (p + 4)) = c
  have hload : (rdfsSyncInode m p).load 4 p = c.toNat := by
    have hfield := inodeStruct.getField_putField m₁ p .iSum c.toNat
    rw [Nat.mod_eq_of_lt (show c.toNat < 256 ^ inodeStruct.size .iSum from c.isLt)] at hfield
    rw [rdfsSyncInode, hm₁]
    exact hc ▸ hfield
  rw [sumOk_iff, hbytes, hload, hc, BitVec.ofNat_toNat, BitVec.setWidth_eq]

/-! ## Runs -/

/-- The images of all inodes in use are good. -/
def SumsOk (sb : Super) (s : Fs) : Prop :=
  ∀ f ∈ s.files, SumOk s.master.nvm.mem (getRdfsInodePhyAddr sb f)

/-- The inodes in use that an operation leaves in use. -/
def FsOp.kept (s : Fs) : FsOp → List ℕ
  | freeInode f _ => s.files.erase f
  | _ => s.files

/-- The inode that an operation puts in use, if any. -/
def FsOp.created (sb : Super) (s : Fs) : FsOp → List ℕ
  | newInode _ _ _ =>
    if (s.master.nvm.numaDes (getANuma sb s.nextNumaId).1).freeInodeCount = 0 then []
    else [s.freeIno sb]
  | _ => []

/-- The fields that the operation stores change no checksum, and the slot that a new inode gets has
held the checksum of what is stored in it all along. -/
def FsOp.KeepsSums (sb : Super) (s : Fs) (o : FsOp) : Prop :=
  (∀ f ∈ s.files, SumKept s.master.nvm.mem (o.storedMem sb s) (getRdfsInodePhyAddr sb f)) ∧
  ∀ f ∈ o.created sb s, BitVec.ofNat 32 (s.master.nvm.mem.load 4 (getRdfsInodePhyAddr sb f)) =
    crc32 0xffffffff#32 ((o.storedMem sb s).bytes 124 (getRdfsInodePhyAddr sb f + 4))

/-- The root is mounted with its checksum. -/
theorem sumsOk_mount (R : Region sb) (m : Mem) (cpu : ℕ) (root : Inode) (slaves : SlaveInfos)
    (nextNumaId : ℕ) : SumsOk sb (Fs.mount R m cpu root slaves nextNumaId) := by
  intro f hf
  obtain rfl := mem_singleton.1 hf
  show SumOk (rdfsInitRoot sb cpu (R.mount m) root.iMode root.iUid root.iGid).mem _
  rw [rdfsInitRoot]
  generalize (rdfsInitPgTable sb cpu _ 1).2 = st
  split_ifs with hflag
  · obtain ⟨-, -, hapart⟩ := R.reserved_slots.2 hflag
    exact (sumOk_rdfsSyncInode st.mem _).congr
      ((sameOff_putFields_slot _ _ _ (by simp)).sameOn (by omega))
  · exact sumOk_rdfsSyncInode st.mem _

theorem SumKept.refl (m : Mem) (p : ℕ) : SumKept m m p := by
  have hzeros : List.zipWith (· ^^^ ·) (m.bytes 124 (p + 4)) (m.bytes 124 (p + 4)) =
      List.replicate 124 0 := by
    rw [zipWith_self, Mem.bytes, List.map_map]
    exact eq_replicate_iff.2 ⟨by simp, by simp⟩
  rw [SumKept, hzeros, crc32_zeros, BitVec.xor_self]

/-- No operation stores a checksum. -/
theorem FsOp.load_storedMem (o : FsOp) : (o.storedMem sb s).load 4
    (getRdfsInodePhyAddr sb (o.target sb s)) =
      s.master.nvm.mem.load 4 (getRdfsInodePhyAddr sb (o.target sb s)) := by
  have hstores : .iSum ∉ (o.stores sb s).map Prod.fst := by
    cases o <;> simp only [FsOp.stores, Fs.newInodeStores, notifyStores, cutStores, eofStores] <;>
      (repeat' split) <;> simp [updateFields, newInodeFields, blockStores]
  exact inodeStruct.getField_putFields_of_notMem (mem_inodeStruct_fields _) _ _ _
    (fun w _ => mem_inodeStruct_fields _) hstores

/-- So it has to keep the one that is there. -/
theorem FsOp.sumKept_iff {o : FsOp} {f : ℕ} (hf : o.target sb s = f) :
    SumKept s.master.nvm.mem (o.storedMem sb s) (getRdfsInodePhyAddr sb f) ↔
      crc32 0#32 (List.zipWith (· ^^^ ·) (s.master.nvm.mem.bytes 124 (getRdfsInodePhyAddr sb f + 4))
        ((o.storedMem sb s).bytes 124 (getRdfsInodePhyAddr sb f + 4))) = 0#32 := by
  rw [SumKept, ← hf, o.load_storedMem, BitVec.xor_self]

/-- The inodes in use after an operation. -/
theorem FsInv.run_files (h : FsInv R s) {o : FsOp} (hv : o.Valid s)
    (hr : o.run sb s = some s') : s'.files = o.kept s ++ o.created sb s := by
  obtain ⟨tree, metas, staging, hp, -⟩ := h
  cases o with
  | newInode cpu attrs umask =>
    obtain rfl := some_inj.1 hr
    show _ = s.files ++ ite _ _ _
    rcases hp.table.take_cases s.nextNumaId rfl with ⟨hzero, htake⟩ | ⟨ino, p, nvm', hpos, hhead, -,
      hnr, -, htake, -⟩
    · rw [Fs.newInode, htake, if_pos hzero]
      exact (append_nil _).symm
    · rw [Fs.newInode, htake, if_neg hpos.ne', Fs.freeIno, hhead, hnr]
      rfl
  | freeInode f seconds =>
    obtain rfl := some_inj.1 hr
    exact (hp.erase_files hv).1.symm.trans (append_nil _).symm
  | notifyChange f attr now =>
    obtain ⟨r, -, rfl⟩ := map_eq_some_iff.1 hr
    exact (append_nil s.files).symm
  | destroy f =>
    obtain ⟨r, -, rfl⟩ := map_eq_some_iff.1 hr
    exact (append_nil s.files).symm
  | alloc f cpu num zeroing type phys =>
    rw [FsOp.run] at hr
    generalize rdfsAllocBlocks sb cpu s.master (s.inode f) num zeroing type phys = r at hr
    exact some_inj.1 hr ▸ (append_nil s.files).symm
  | truncate f start stop =>
    rw [FsOp.run] at hr
    generalize rawRdfsTruncateBlocks sb s.master (s.inode f) start stop = r at hr
    exact some_inj.1 hr ▸ (append_nil s.files).symm
  | updateInode f | establish f ptr | rwBuffer cpu =>
    exact some_inj.1 hr ▸ (append_nil s.files).symm

/-- An operation keeps good images good exactly when it meets `FsOp.KeepsSums`. -/
theorem SumsOk.step_iff (h : SumsOk sb s) (hinv : FsInv R s) (hR : R.Behind) {o : FsOp}
    (hv : o.Valid s) (hs : o.Sound R s) (hr : o.run sb s = some s') :
    SumsOk sb s' ↔ o.KeepsSums sb s := by
  have hafter : SumsOk sb s' ↔
      ∀ f ∈ s'.files, SumOk (o.storedMem sb s) (getRdfsInodePhyAddr sb f) :=
    forall₂_congr fun f hf => sumOk_congr ((hs.step hv hR hinv hr).2 f hf)
  have hbefore : (∀ f ∈ o.kept s, SumOk (o.storedMem sb s) (getRdfsInodePhyAddr sb f)) ↔
      ∀ f ∈ s.files, SumKept s.master.nvm.mem (o.storedMem sb s) (getRdfsInodePhyAddr sb f) := by
    cases o with
    | freeInode f seconds =>
      exact iff_of_true (fun g hg => h g (mem_of_mem_erase hg)) fun g _ => SumKept.refl _ _
    | _ => exact forall₂_congr fun f hf => (h f hf).iff_sumKept
  have hcreated : ∀ f ∈ o.created sb s, f = o.target sb s := by
    cases o with
    | newInode cpu attrs umask =>
      intro f hf
      simp only [FsOp.created] at hf
      split_ifs at hf
      · cases hf
      · exact mem_singleton.1 hf
    | _ => exact fun f hf => by cases hf
  rw [hafter, hinv.run_files hv hr, forall_mem_append, hbefore]
  refine and_congr_right' (forall₂_congr fun f hf => ?_)
  rw [hcreated f hf, sumOk_iff, o.load_storedMem]

/-- The images stay good along every run whose steps keep the checksums, so no inode becomes
unreadable, and from every state of such a run on exactly the steps that meet the condition keep
them good. -/
theorem FsRun.sums_spec (hR : R.Behind)
    (h : FsRun R (fun s o => o.Sound R s ∧ o.KeepsSums sb s) s) :
    (∀ f ∈ s.files, rdfsCalcChecksum s.master.nvm.mem (getRdfsInodePhyAddr sb f) rdfsInodeSize = 0 ∧
      ∀ inode, rdfsReadInode sb s.master.nvm.mem inode (getRdfsInode sb f) ≠ .error (-eio)) ∧
    ∀ (o : FsOp) (s' : Fs), o.Valid s → o.Sound R s → o.run sb s = some s' → ((∀ f ∈ s'.files,
        rdfsCalcChecksum s'.master.nvm.mem (getRdfsInodePhyAddr sb f) rdfsInodeSize = 0) ↔
          o.KeepsSums sb s) := by
  have hinv : FsInv R s ∧ SumsOk sb s := by
    induction h with
    | mount m cpu root slaves nextNumaId hroot hroom =>
      exact ⟨(FsRun.mount m cpu root slaves nextNumaId hroot hroom).inv hR,
        sumsOk_mount R m cpu root slaves nextNumaId⟩
    | op h o hv hc hr ih =>
      exact ⟨(hc.1.step hv hR ih.1 hr).1, (ih.2.step_iff ih.1 hR hv hc.1 hr).2 hc.2⟩
  refine ⟨fun f hf => ⟨hinv.2 f hf, fun inode hread => ?_⟩, fun o s' hv hs hr =>
    hinv.2.step_iff hinv.1 hR hv hs hr⟩
  have hok : rdfsCalcChecksum s.master.nvm.mem (rdfsPa sb (getRdfsInode sb f)) rdfsInodeSize = 0 :=
    hinv.2 f hf
  rw [rdfsReadInode, if_neg (not_not.2 hok)] at hread
  dsimp only at hread
  split_ifs at hread
  all_goals simp [einval, eio] at hread

/-- Two times that leave the checksum of zeros what it is. -/
def touched : Iattr :=
  { (default : Iattr) with iaAtime := some 1, iaCtime := some 0xb8bc6765 }

/-- The root gets these times after the mount, and its checksum is still that of its image. -/
theorem FsRun.sums_spec_plain : ∃ s, FsRun Region.plain
      (fun s o => o.Sound Region.plain s ∧ o.KeepsSums Region.behindTables s) s ∧
    (FsOp.notifyChange 1 touched 0).run Region.behindTables plainFs = some s ∧ 1 ∈ s.files ∧
      (s.inode 1).iCtime = 0xb8bc6765 ∧
      rdfsCalcChecksum s.master.nvm.mem (getRdfsInodePhyAddr Region.behindTables 1) rdfsInodeSize =
        0 := by
  have hchange : List.zipWith (· ^^^ ·)
      (plainFs.master.nvm.mem.bytes 124 (getRdfsInodePhyAddr Region.behindTables 1 + 4))
      (((FsOp.notifyChange 1 touched 0).storedMem Region.behindTables plainFs).bytes 124
        (getRdfsInodePhyAddr Region.behindTables 1 + 4)) =
      List.replicate 24 0 ++ ([1, 0, 0, 0, 0x65, 0x67, 0xbc, 0xb8] ++ List.replicate 92 0) := by
    decide +kernel
  have hkeeps : (FsOp.notifyChange 1 touched 0).KeepsSums Region.behindTables plainFs := by
    refine ⟨fun f hf => ?_, by simp [FsOp.created]⟩
    obtain rfl := mem_singleton.1 hf
    have htarget : (FsOp.notifyChange 1 touched 0).target Region.behindTables plainFs = 1 := rfl
    have htimes : crc32 0#32 [1, 0, 0, 0, 0x65, 0x67, 0xbc, 0xb8] = 0#32 := by decide +kernel
    rw [FsOp.sumKept_iff htarget, hchange, crc32_append, crc32_append, crc32_zeros, htimes]
    exact crc32_zeros 92
  have hs : (FsOp.notifyChange 1 touched 0).Sound Region.plain plainFs := fun size hsize => by
    cases hsize
  obtain ⟨s, hr⟩ :
      ∃ s, (FsOp.notifyChange 1 touched 0).run Region.behindTables plainFs = some s := ⟨_, rfl⟩
  have htime : ((FsOp.notifyChange 1 touched 0).run Region.behindTables plainFs).map
      (fun s => (s.inode 1).iCtime) = some 0xb8bc6765 := by decide +kernel
  rw [hr, map_some, some_inj] at htime
  have hrun : FsRun Region.plain
      (fun s o => o.Sound Region.plain s ∧ o.KeepsSums Region.behindTables s) s :=
    (fsRun_plainFs _).op _ (by decide) ⟨hs, hkeeps⟩ hr
  exact ⟨s, hrun, hr, mem_cons_self, htime,
    ((FsRun.sums_spec behind_plain hrun).1 1 mem_cons_self).1⟩

/-- The mode of a directory that only its owner may use. -/
def ownerOnly : Iattr := { (default : Iattr) with iaMode := some 0x41c0 }

/-- The root gets another mode after the mount : its checksum is no longer that of its image, and it
cannot be read again. -/
theorem chmod_root_unreadable : ∃ s, FsRun Region.plain (FsOp.Sound Region.plain) s ∧
    (FsOp.notifyChange 1 ownerOnly 0).run Region.behindTables plainFs = some s ∧ 1 ∈ s.files ∧
    rdfsCalcChecksum plainFs.master.nvm.mem (getRdfsInodePhyAddr Region.behindTables 1)
      rdfsInodeSize = 0 ∧
    rdfsCalcChecksum s.master.nvm.mem (getRdfsInodePhyAddr Region.behindTables 1) rdfsInodeSize ≠
      0 ∧
    rdfsReadInode Region.behindTables s.master.nvm.mem default
      (getRdfsInode Region.behindTables 1) = .error (-eio) := by
  have hchange : List.zipWith (· ^^^ ·)
      (plainFs.master.nvm.mem.bytes 124 (getRdfsInodePhyAddr Region.behindTables 1 + 4))
      (((FsOp.notifyChange 1 ownerOnly 0).storedMem Region.behindTables plainFs).bytes 124
        (getRdfsInodePhyAddr Region.behindTables 1 + 4)) = 0x2d :: List.replicate 123 0 := by
    decide +kernel
  have hv : (FsOp.notifyChange 1 ownerOnly 0).Valid plainFs := by decide
  have hs : (FsOp.notifyChange 1 ownerOnly 0).Sound Region.plain plainFs := fun size hsize => by
    cases hsize
  obtain ⟨s, hr⟩ :
      ∃ s, (FsOp.notifyChange 1 ownerOnly 0).run Region.behindTables plainFs = some s := ⟨_, rfl⟩
  have hok : SumOk plainFs.master.nvm.mem (getRdfsInodePhyAddr Region.behindTables 1) :=
    sumsOk_mount _ _ _ _ _ _ 1 mem_cons_self
  have hbad : ¬SumOk s.master.nvm.mem (getRdfsInodePhyAddr Region.behindTables 1) := by
    have hstep := hs.step hv behind_plain ((fsRun_plainFs _).inv behind_plain) hr
    have htarget : (FsOp.notifyChange 1 ownerOnly 0).target Region.behindTables plainFs = 1 := rfl
    rw [sumOk_congr (hstep.2 1 mem_cons_self), hok.iff_sumKept,
      FsOp.sumKept_iff htarget, hchange, crc32_cons]
    exact crc32_zeros_ne_zero 123 (by decide)
  refine ⟨s, (fsRun_plainFs _).op _ hv hs hr, hr, mem_cons_self, hok, hbad, ?_⟩
  exact if_pos hbad

end Rdfs
