import Rdfs.Crc
import Rdfs.InodeOps

/-!
# Stored inodes and inodes in memory

`rdfs_update_inode` stores the attributes of an inode in its slot, and `rdfs_read_inode` loads them
again when the inode has left the cache, after a test of the checksum. The two list the attributes
independently : what is loaded is what was stored exactly when the flags in the slot, which
`rdfs_update_inode` does not store, are those of the inode and none of them stands for an `S_` flag,
the inode is of a kind that keeps its size, and it is not taken for a deleted one
(`rdfsReadInode_update_iff`).
-/

namespace Rdfs

/-! ## The code -/

/-- `rdfs_calc_checksum` : 0 if the checksum in the first four bytes is that of the others. -/
def rdfsCalcChecksum (m : Mem) (data n : ℕ) : ℤ :=
  if m.load 4 data = (crc32 0xffffffff#32 (m.bytes (n - 4) (data + 4))).toNat then 0 else 1

/-- `rdfs_sync_inode`. -/
def rdfsSyncInode (m : Mem) (pi : ℕ) : Mem :=
  let m := inodeStruct.putField m pi .iSum 0
  inodeStruct.putField m pi .iSum
    (crc32 0xffffffff#32 (m.bytes (rdfsInodeSize - 4) (pi + 4))).toNat

/-- `rdfs_set_inode_flags` : the flags of `struct inode` from the ones of the file system. -/
def rdfsSetInodeFlags (inode : Inode) : ℕ :=
  inodeFlagPairs.foldl (fun flags p => if inode.iFlags &&& p.2 ≠ 0 then flags ||| p.1 else flags)
    (inode.vfsFlags &&& (0xffffffff - 0x4f))

/-- `EIO`. -/
def eio : ℤ := 5

/-- `EINVAL`. -/
def einval : ℤ := 22

/-- `rdfs_read_inode` into the inode `inode`; `i_mode` has 16 bits. -/
def rdfsReadInode (sb : Super) (m : Mem) (inode : Inode) (ni : ℕ) : Except ℤ Inode :=
  let get := inodeStruct.getField m (rdfsPa sb ni)
  if rdfsCalcChecksum m (rdfsPa sb ni) rdfsInodeSize ≠ 0 then .error (-eio)
  else
    let inode := { inode with
      iMode := get .iMode % 2 ^ 16, iUid := get .iUid, iGid := get .iGid
      iNlink := get .iLinkCounts, iSize := get .iSize
      iAtime := get .iAtime, iCtime := get .iCtime, iMtime := get .iMtime
      iGeneration := get .iGeneration }
    let inode := { inode with vfsFlags := rdfsSetInodeFlags inode }
    if inode.iNlink = 0 ∧ (inode.iMode = 0 ∨ get .iDtime ≠ 0) then .error (-einval)
    else
      let inode := { inode with
        iBlocks := get .iBlocks, iFileAcl := get .iFileAcl, iDirAcl := 0, iDtime := 0
        iFlags := get .iFlags, iIno := getRdfsInodenr sb (rdfsPa sb ni) }
      .ok (if SIsReg inode.iMode ∨ SIsDir inode.iMode ∨ SIsLnk inode.iMode then inode
        else { inode with iSize := 0 })

/-! ## Storing and loading -/

/-- The attributes are in the ranges of their types. -/
structure InodeWidths (inode : Inode) : Prop where
  iMode : inode.iMode < 2 ^ 16
  iUid : inode.iUid < 2 ^ 32
  iGid : inode.iGid < 2 ^ 32
  iNlink : inode.iNlink < 2 ^ 32
  iSize : inode.iSize < 2 ^ 64
  iBlocks : inode.iBlocks < 2 ^ 64
  iAtime : inode.iAtime < 2 ^ 32
  iCtime : inode.iCtime < 2 ^ 32
  iMtime : inode.iMtime < 2 ^ 32
  iGeneration : inode.iGeneration < 2 ^ 32

/-- The attributes of `out` are those of `inode`, and its `S_` flags are those of the stored flags
`flags`. -/
structure Restored (inode out : Inode) (flags : ℕ) : Prop where
  iMode : out.iMode = inode.iMode
  owner : out.iUid = inode.iUid ∧ out.iGid = inode.iGid
  iNlink : out.iNlink = inode.iNlink
  iSize : out.iSize = inode.iSize
  iBlocks : out.iBlocks = inode.iBlocks
  times : out.iAtime = inode.iAtime ∧ out.iCtime = inode.iCtime ∧ out.iMtime = inode.iMtime
  iGeneration : out.iGeneration = inode.iGeneration
  iFlags : out.iFlags = inode.iFlags
  vfsFlags : ∀ p ∈ inodeFlagPairs, out.vfsFlags &&& p.1 ≠ 0 ↔ flags &&& p.2 ≠ 0

/-- What loading takes for granted about the inode and about the flags and `i_dtime` in its slot. -/
structure Reloads (inode : Inode) (flags dtime : ℕ) : Prop where
  stored : flags = inode.iFlags
  plain : ∀ p ∈ inodeFlagPairs, inode.iFlags &&& p.2 = 0
  kind : (SIsReg inode.iMode ∨ SIsDir inode.iMode ∨ SIsLnk inode.iMode) ∨ inode.iSize = 0
  active : ¬(inode.iNlink = 0 ∧ (inode.iMode = 0 ∨ dtime ≠ 0))

variable {inode : Inode} {sb : Super}

/-- A fresh inode has no flags, and gets none. -/
theorem rdfsSetInodeFlags_fresh (hv : inode.vfsFlags = 0) (hf : inode.iFlags = 0) :
    rdfsSetInodeFlags inode = 0 := by
  rw [rdfsSetInodeFlags, hv, hf]
  decide

/-- The fields that `rdfs_update_inode` stores. -/
def updateFields (inode : Inode) : List (InodeField × ℕ) :=
  [(.iMode, inode.iMode), (.iUid, inode.iUid), (.iGid, inode.iGid), (.iLinkCounts, inode.iNlink),
    (.iSize, inode.iSize), (.iBlocks, inode.iBlocks), (.iAtime, inode.iAtime),
    (.iCtime, inode.iCtime), (.iMtime, inode.iMtime), (.iGeneration, inode.iGeneration)]

theorem nodup_updateFields (inode : Inode) : ((updateFields inode).map Prod.fst).Nodup :=
  (by decide : [InodeField.iMode, .iUid, .iGid, .iLinkCounts, .iSize, .iBlocks, .iAtime, .iCtime,
    .iMtime, .iGeneration].Nodup)

theorem getField_update (m : Mem) {f : InodeField} {v : ℕ} (hmem : (f, v) ∈ updateFields inode)
    (hv : v < 256 ^ f.size) :
    inodeStruct.getField (rdfsUpdateInode sb m inode) (getRdfsInodePhyAddr sb inode.iIno) f = v :=
  (inodeStruct.getField_putFields_of_mem _ (updateFields inode) m
    (fun _ _ => mem_inodeStruct_fields _) (nodup_updateFields inode) hmem).trans
      (Nat.mod_eq_of_lt hv)

theorem getField_update_of_notMem (sb : Super) (m : Mem) {f : InodeField}
    (hnot : f ∉ (updateFields inode).map Prod.fst) :
    inodeStruct.getField (rdfsUpdateInode sb m inode) (getRdfsInodePhyAddr sb inode.iIno) f =
      inodeStruct.getField m (getRdfsInodePhyAddr sb inode.iIno) f :=
  inodeStruct.getField_putFields_of_notMem (mem_inodeStruct_fields f) _ (updateFields inode) m
    (fun _ _ => mem_inodeStruct_fields _) hnot

/-- What is loaded of an inode that was stored. -/
theorem rdfsReadInode_update {m : Mem} (hw : InodeWidths inode) {p : ℕ}
    (hp : getRdfsInodePhyAddr sb inode.iIno = p)
    (hsum : rdfsCalcChecksum (rdfsUpdateInode sb m inode) p rdfsInodeSize = 0) :
    rdfsReadInode sb (rdfsUpdateInode sb m inode) default (getRdfsInode sb inode.iIno) =
      if inode.iNlink = 0 ∧ (inode.iMode = 0 ∨ inodeStruct.getField m p .iDtime ≠ 0) then
        .error (-einval)
      else .ok { inode with
        iSize := if SIsReg inode.iMode ∨ SIsDir inode.iMode ∨ SIsLnk inode.iMode then inode.iSize
          else 0
        vfsFlags := 0, iFlags := inodeStruct.getField m p .iFlags
        iFileAcl := inodeStruct.getField m p .iFileAcl, iDirAcl := 0, iDtime := 0, iVirtAddr := 0
        iPCounter := 0, mappingCount := 0, bitmaps := default, iIno := getRdfsInodenr sb p } := by
  have hpa : rdfsPa sb (getRdfsInode sb inode.iIno) = p := hp
  have hget : ∀ {f : InodeField} {v : ℕ}, (f, v) ∈ updateFields inode → v < 256 ^ f.size →
      inodeStruct.getField (rdfsUpdateInode sb m inode) p f = v := fun hmem hv =>
    hp ▸ getField_update m hmem hv
  have hkept : ∀ f, f ∉ (updateFields inode).map Prod.fst →
      inodeStruct.getField (rdfsUpdateInode sb m inode) p f = inodeStruct.getField m p f :=
    fun f hnot => hp ▸ getField_update_of_notMem sb m hnot
  have hmode := hget (f := .iMode) (by simp [updateFields]) (lt_trans hw.iMode (by decide))
  have huid := hget (f := .iUid) (by simp [updateFields]) hw.iUid
  have hgid := hget (f := .iGid) (by simp [updateFields]) hw.iGid
  have hnlink := hget (f := .iLinkCounts) (by simp [updateFields]) hw.iNlink
  have hsize := hget (f := .iSize) (by simp [updateFields]) hw.iSize
  have hblocks := hget (f := .iBlocks) (by simp [updateFields]) hw.iBlocks
  have hatime := hget (f := .iAtime) (by simp [updateFields]) hw.iAtime
  have hctime := hget (f := .iCtime) (by simp [updateFields]) hw.iCtime
  have hmtime := hget (f := .iMtime) (by simp [updateFields]) hw.iMtime
  have hgen := hget (f := .iGeneration) (by simp [updateFields]) hw.iGeneration
  have hdtime := hkept .iDtime (by simp [updateFields])
  have hflags := hkept .iFlags (by simp [updateFields])
  have hacl := hkept .iFileAcl (by simp [updateFields])
  generalize rdfsUpdateInode sb m inode = m' at *
  simp only [rdfsReadInode, hpa, hsum, hmode, huid, hgid, hnlink, hsize, hblocks, hatime, hctime,
    hmtime, hgen, hdtime, hflags, hacl, Nat.mod_eq_of_lt hw.iMode, ne_eq, not_true_eq_false,
    if_false]
  rw [rdfsSetInodeFlags_fresh rfl rfl]
  refine if_congr Iff.rfl rfl (congrArg Except.ok ?_)
  split_ifs <;> rfl

/-- Every inode has a checksum with which it passes the test once it is stored. -/
theorem exists_checksum (m : Mem) {p : ℕ} (hp : getRdfsInodePhyAddr sb inode.iIno = p) :
    ∃ sum, rdfsCalcChecksum (rdfsUpdateInode sb (inodeStruct.putField m p .iSum sum) inode) p
      rdfsInodeSize = 0 := by
  generalize hc : crc32 0xffffffff#32 ((rdfsUpdateInode sb m inode).bytes (rdfsInodeSize - 4) (p +
    4)) = c
  have hsum := getField_update_of_notMem sb (inodeStruct.putField m p .iSum c.toNat)
    (show InodeField.iSum ∉ (updateFields inode).map Prod.fst by simp [updateFields])
  rw [hp, inodeStruct.getField_putField,
    Nat.mod_eq_of_lt (show c.toNat < 256 ^ inodeStruct.size .iSum from c.isLt)] at hsum
  refine ⟨c.toNat, ?_⟩
  rw [rdfsCalcChecksum, if_pos]
  have hbytes : (rdfsUpdateInode sb (inodeStruct.putField m p .iSum c.toNat) inode).bytes
      (rdfsInodeSize - 4) (p + 4) =
        (rdfsUpdateInode sb m inode).bytes (rdfsInodeSize - 4) (p + 4) := by
    refine List.map_congr_left fun i _ => inodeStruct.putFields_congr _ _ ?_
    exact inodeStruct.sameOff_putField m p .iSum _ _ (by
      have : inodeStruct.offset .iSum + inodeStruct.size .iSum = 4 := by decide
      omega)
  rw [hbytes, hc]
  exact hsum

/-- An inode that was stored is loaded as it was exactly when it meets `Reloads`. -/
theorem rdfsReadInode_update_iff {sb : Super} {m : Mem} {inode : Inode} (hw : InodeWidths inode)
    {p : ℕ} (hp : getRdfsInodePhyAddr sb inode.iIno = p)
    (hsum : rdfsCalcChecksum (rdfsUpdateInode sb m inode) p rdfsInodeSize = 0) :
    (∃ out, rdfsReadInode sb (rdfsUpdateInode sb m inode) default (getRdfsInode sb inode.iIno) =
        .ok out ∧
        Restored inode out (inodeStruct.getField (rdfsUpdateInode sb m inode) p .iFlags)) ↔
      Reloads inode (inodeStruct.getField m p .iFlags) (inodeStruct.getField m p .iDtime) := by
  have hflags : inodeStruct.getField (rdfsUpdateInode sb m inode) p .iFlags =
      inodeStruct.getField m p .iFlags :=
    hp ▸ getField_update_of_notMem sb m (by simp [updateFields])
  rw [rdfsReadInode_update hw hp hsum, hflags]
  constructor
  · rintro ⟨out, hout, hrest⟩
    by_cases hdeleted : inode.iNlink = 0 ∧ (inode.iMode = 0 ∨ inodeStruct.getField m p .iDtime ≠ 0)
    · rw [if_pos hdeleted] at hout
      cases hout
    · rw [if_neg hdeleted] at hout
      obtain rfl := Except.ok.inj hout
      have hstored : inodeStruct.getField m p .iFlags = inode.iFlags := hrest.iFlags
      refine ⟨hstored, fun q hq => ?_, ?_, hdeleted⟩
      · have hnone : 0 &&& q.1 ≠ 0 ↔ _ := hrest.vfsFlags q hq
        rw [Nat.zero_and, hstored] at hnone
        exact not_not.1 (mt hnone.2 (not_not.2 rfl))
      · have hsize : (if SIsReg inode.iMode ∨ SIsDir inode.iMode ∨ SIsLnk inode.iMode
          then inode.iSize else 0) = inode.iSize := hrest.iSize
        split_ifs at hsize with hkind
        · exact Or.inl hkind
        · exact Or.inr hsize.symm
  · rintro ⟨hstored, hplain, hkind, hactive⟩
    rw [if_neg hactive]
    refine ⟨_, rfl, rfl, ⟨rfl, rfl⟩, rfl, ?_, rfl, ⟨rfl, rfl, rfl⟩, rfl, hstored, fun q hq => ?_⟩
    · split_ifs with hnot
      · rfl
      · exact (hkind.resolve_left hnot).symm
    · rw [hstored, hplain q hq]
      simp

/-- A file, with the flags `flags`. -/
def someFile (flags : ℕ) : Inode :=
  { (default : Inode) with iIno := 1, iMode := 0x81a4, iNlink := 1, iFlags := flags }

theorem inodeWidths_someFile (flags : ℕ) : InodeWidths (someFile flags) := by
  have h32 : 0 < 2 ^ 32 := by decide
  have h64 : 0 < 2 ^ 64 := by decide
  exact ⟨(by decide : 0x81a4 < 2 ^ 16), h32, h32, (by decide : 1 < 2 ^ 32), h64, h64, h32, h32, h32,
    h32⟩

/-- A file without flags. -/
theorem rdfsReadInode_update_someFile :
    ∃ m, rdfsCalcChecksum (rdfsUpdateInode oneNode m (someFile 0)) 128 rdfsInodeSize = 0 ∧
      ∃ out, rdfsReadInode oneNode (rdfsUpdateInode oneNode m (someFile 0)) default 128 = .ok out ∧
        Restored (someFile 0) out
          (inodeStruct.getField (rdfsUpdateInode oneNode m (someFile 0)) 128 .iFlags) := by
  obtain ⟨sum, hsum⟩ := exists_checksum (fun _ => 0) (rfl)
  have hkept : ∀ f, f ≠ .iSum →
      inodeStruct.getField (inodeStruct.putField (fun _ => 0) 128 .iSum sum) 128 f =
        inodeStruct.getField (fun _ => 0) 128 f := fun f hne =>
    inodeStruct.getField_putField_of_ne (mem_inodeStruct_fields _) (mem_inodeStruct_fields _)
      hne.symm _ _ _
  refine ⟨_, hsum, (rdfsReadInode_update_iff (inodeWidths_someFile 0) rfl hsum).2 ⟨?_, ?_, ?_, ?_⟩⟩
  · exact (hkept .iFlags (by decide)).trans (by decide)
  · decide
  · exact Or.inl (Or.inl (by decide))
  · exact fun h => absurd h.1 (by decide)

/-- An immutable file whose flags are in its slot : the flag is loaded, but the inode does not get
`S_IMMUTABLE`. -/
theorem immutable_file_reloads_mutable :
    ∃ m out, rdfsCalcChecksum (rdfsUpdateInode oneNode m (someFile 0x10)) 128 rdfsInodeSize = 0 ∧
      rdfsReadInode oneNode (rdfsUpdateInode oneNode m (someFile 0x10)) default 128 = .ok out ∧
      out.iFlags = 0x10 ∧ out.vfsFlags &&& 0x8 = 0 ∧ ¬Restored (someFile 0x10) out
        (inodeStruct.getField (rdfsUpdateInode oneNode m (someFile 0x10)) 128 .iFlags) := by
  generalize hm₀ : inodeStruct.putField (fun _ => 0) 128 .iFlags 0x10 = m₀
  obtain ⟨sum, hsum⟩ := exists_checksum m₀
    (show getRdfsInodePhyAddr oneNode (someFile 0x10).iIno = 128 from rfl)
  have hstored :
      inodeStruct.getField (inodeStruct.putField m₀ 128 .iSum sum) 128 .iFlags = 0x10 := by
    rw [inodeStruct.getField_putField_of_ne (mem_inodeStruct_fields _) (mem_inodeStruct_fields _)
      (by decide), ← hm₀, inodeStruct.getField_putField]
    rfl
  have hread := rdfsReadInode_update (inodeWidths_someFile 0x10) rfl hsum
  rw [if_neg fun h => absurd h.1 (by decide)] at hread
  refine ⟨_, _, hsum, hread, hstored, (by decide : 0 &&& 0x8 = 0), fun hrest => ?_⟩
  have hkept := getField_update_of_notMem oneNode (inodeStruct.putField m₀ 128 .iSum sum)
    (show InodeField.iFlags ∉ (updateFields (someFile 0x10)).map Prod.fst by simp [updateFields])
  have hflag : 0 &&& 0x8 ≠ 0 ↔ _ := hrest.vfsFlags (0x8, 0x10) (by decide)
  rw [show inodeStruct.getField (rdfsUpdateInode oneNode _ _) 128 _ = 0x10 from
    hkept.trans hstored] at hflag
  exact hflag.2 (by decide) (by decide)

end Rdfs
