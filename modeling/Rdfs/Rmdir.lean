import Rdfs.Rename

/-!
# Removing directories

A directory may be removed when it has no entries but `.` and `..`. `rdfs_empty_dir` decides that in
one walk over the records, which looks at the first two bytes of a name, at its length, and for a
name of one byte at the inode number, and which ends 16 bytes before the end of the directory.

For a directory whose records are in order and whose `.` is its own, the walk decides just that
(`Proper.rdfsEmptyDir_iff`). So `rdfs_rmdir` refuses the directories that are not empty and no
others, and `rdfs_rename` replaces no directory that is not empty (`emptyDir_spec`).
-/

namespace Rdfs

open List

/-! ## `rdfs_unlink` and `rdfs_rmdir` -/

/-- `inode_dec_link_count`. -/
def Inode.decLink (inode : Inode) : Inode :=
  { inode with iNlink := (inode.iNlink + (2 ^ 32 - 1)) % 2 ^ 32 }

/-- `rdfs_unlink` in a directory that gets mapped : the return value, the directory and the inode.
-/
def rdfsUnlink (dir : Dir) (name : List UInt8) (inode : Inode) (now : ℕ) : ℤ × Dir × Inode :=
  match rdfsFindEntry2 dir name with
  | none => (-enoent, dir, inode)
  | some (de, pde) =>
    let deleted := rdfsDeleteEntry de pde dir now
    if deleted.1 ≠ 0 then (deleted.1, deleted.2, inode)
    else (0, deleted.2, ({ inode with iCtime := deleted.2.inode.iCtime } : Inode).decLink)

/-- `rdfs_rmdir` with directories that get mapped : the return value, the parent and the
directory. -/
def rdfsRmdir (dir : Dir) (name : List UInt8) (target : Dir) (now : ℕ) : ℤ × Dir × Dir :=
  if rdfsEmptyDir target = true then
    let unlinked := rdfsUnlink dir name target.inode now
    if unlinked.1 = 0 then
      (0, { unlinked.2.1 with inode := unlinked.2.1.inode.decLink },
        { target with inode := ({ unlinked.2.2 with iSize := 0 } : Inode).decLink })
    else (unlinked.1, unlinked.2.1, { target with inode := unlinked.2.2 })
  else (-enotempty, dir, target)

/-! ## When a directory is empty -/

/-- There is nothing in a directory but `.` and `..`. -/
def OnlyDots (rs : List DirRec) : Prop := ∀ name ∈ liveNames rs, name = [46] ∨ name = [46, 46]

/-- What `rdfs_empty_dir` passes over in the directory `ino`. -/
def DirEnt.Passable (ino : ℕ) (e : DirEnt) : Prop :=
  e.name = [46] ∧ e.inode = le32 ino ∨ e.name = [46, 46]

section walk

variable {m : Mem} {ino size : ℕ}

theorem HoldsRec.name_byte {a i : ℕ} {r : DirRec} (h : HoldsRec m a r)
    (hi : i < r.ent.name.length) : r.ent.name[i]? = some (m (a + dirNameOffset + i)) := by
  rw [← Mem.getElem?_bytes m (a + dirNameOffset) hi, h.name]

/-- The test of `rdfs_empty_dir` on a record in use. -/
theorem HoldsRec.emptyTest_iff {a : ℕ} {r : DirRec} (h : HoldsRec m a r)
    (hne : r.ent.name ≠ []) (ino : ℕ) : (m (a + dirNameOffset) ≠ 46 ∨ 2 < r.ent.name.length ∨
      (if r.ent.name.length < 2 then r.ent.inode ≠ le32 ino
        else m (a + dirNameOffset + 1) ≠ 46)) ↔ ¬r.ent.Passable ino := by
  have hbyte : ∀ {i}, i < r.ent.name.length → r.ent.name[i]? = some (m (a + dirNameOffset + i)) :=
    h.name_byte
  unfold DirEnt.Passable
  rcases hname : r.ent.name with _ | ⟨b, _ | ⟨c, _ | ⟨d, t⟩⟩⟩
  · exact absurd hname hne
  all_goals rw [hname] at hbyte
  · have h0 : b = m (a + dirNameOffset) := by simpa using hbyte (i := 0) (by simp)
    simp [h0]
    tauto
  · have h0 : b = m (a + dirNameOffset) := by simpa using hbyte (i := 0) (by simp)
    have h1 : c = m (a + dirNameOffset + 1) := by simpa using hbyte (i := 1) (by simp)
    simp [h0, h1]
    tauto
  · simp

/-- A record in use with a name has at least the bytes of one. -/
theorem sixteen_le_total {rs : List DirRec} {e : DirEnt} (he : e ∈ liveEnts rs)
    (hne : e.name ≠ []) : 16 ≤ total rs := by
  obtain ⟨-, r, hr, rfl⟩ := mem_liveEnts.mp he
  have hlen : 0 < r.ent.name.length := length_pos_iff.mpr hne
  have hfits := r.fits
  obtain ⟨pre, post, rfl⟩ := append_of_mem hr
  rw [total_append, total_cons]
  unfold DirEnt.need rdfsDirRecLen at hfits
  omega

/-- The walk of `rdfs_empty_dir`. -/
theorem rdfsEmptyLoop_iff : ∀ {rs : List DirRec} {a : ℕ}, Holds m a rs → a + total rs = size →
      (∀ e ∈ liveEnts rs, e.name ≠ []) →
      (rdfsEmptyLoop m ino size a = true ↔ ∀ e ∈ liveEnts rs, e.Passable ino)
  | [], a, _, ha, _ => by
    rw [rdfsEmptyLoop, if_neg (by rw [total_nil] at ha; simp [rdfsDirRecLen]; omega)]
    simp [liveEnts]
  | r :: rs, a, ⟨hr, h⟩, ha, hne => by
    have hlen : rdfsDirRecLen 1 = 16 := rfl
    have hpos := r.recLen_pos
    rw [rdfsEmptyLoop, hlen]
    by_cases hend : a + 16 ≤ size
    swap
    · -- what is left is too short for a record in use
      rw [if_neg hend]
      refine iff_of_true rfl fun e he => ?_
      have := sixteen_le_total he (hne e he)
      omega
    rw [total_cons] at ha
    have hrest : ∀ e ∈ liveEnts rs, e.name ≠ [] := fun e he => hne e (by
      obtain ⟨hl, r', hr', rfl⟩ := mem_liveEnts.mp he
      exact mem_liveEnts.mpr ⟨hl, r', mem_cons_of_mem _ hr', rfl⟩)
    have ih := rdfsEmptyLoop_iff h (by omega) hrest
    rw [if_pos hend, hr.recLen, if_neg (by omega), hr.inode, hr.nameLen, rdfsNextEntry, hr.recLen]
    by_cases hl : r.ent.Live
    · have hlive : liveEnts (r :: rs) = r.ent :: liveEnts rs := liveEnts_cons_of_live hl rs
      have hne0 : r.ent.inode ≠ 0 := hl
      have hname : r.ent.name ≠ [] := hne r.ent (hlive ▸ mem_cons_self)
      have htest := hr.emptyTest_iff hname ino
      rw [hlive, forall_mem_cons]
      by_cases hp : r.ent.Passable ino
      · rw [if_neg fun hstop => htest.mp hstop.2 hp, ih]
        exact (and_iff_right hp).symm
      · rw [if_pos ⟨hne0, htest.mpr hp⟩]
        simp [hp]
    · have hlive : liveEnts (r :: rs) = liveEnts rs := by simp [liveEnts, hl]
      rw [hlive, if_neg fun hstop => hl hstop.1, ih]

end walk

/-- A directory whose names are different and not empty, and whose `.` is its own. -/
structure Proper (dir : Dir) (rs : List DirRec) : Prop where
  rep : dir.Rep rs
  nodup : (liveNames rs).Nodup
  names : [] ∉ liveNames rs
  dot : ∃ e ∈ liveEnts rs, e.name = [46] ∧ e.inode = le32 dir.inode.iIno

theorem Proper.rdfsEmptyDir_iff {dir : Dir} {rs : List DirRec} (h : Proper dir rs) :
    rdfsEmptyDir dir = true ↔ OnlyDots rs := by
  have hnames : ∀ e ∈ liveEnts rs, e.name ≠ [] :=
    fun e he hnil => h.names (hnil ▸ mem_map_of_mem he)
  have hsize : 0 + total rs = dir.inode.iSize := by rw [Nat.zero_add, h.rep.size]
  rw [rdfsEmptyDir, rdfsEmptyLoop_iff h.rep.holds hsize hnames]
  constructor
  · intro hpass name hname
    obtain ⟨e, he, rfl⟩ := mem_map.mp hname
    exact (hpass e he).imp_left And.left
  · intro honly e he
    refine (honly e.name (mem_map_of_mem he)).imp_left fun hdot => ⟨hdot, ?_⟩
    -- there is only one entry of that name
    obtain ⟨e', he', hname, hino⟩ := h.dot
    rw [inj_on_of_nodup_map h.nodup he he' (hdot.trans hname.symm), hino]

/-- An entry that is there is unlinked. -/
theorem Dir.Rep.rdfsUnlink_zero {dir : Dir} {rs : List DirRec} (h : dir.Rep rs)
    {name : List UInt8} (hname : name ∈ liveNames rs) (inode : Inode) (now : ℕ) :
    (rdfsUnlink dir name inode now).1 = 0 := by
  obtain ⟨pre, r, post, hf⟩ := exists_firstNamed (mem_liveNames.mp hname)
  obtain ⟨prev, hfind, -⟩ := h.find_first hf
  have hholds := h.holds
  rw [hf.eq, holds_append, Nat.zero_add] at hholds
  have hpos := r.recLen_pos
  have hdel : (rdfsDeleteEntry (total pre) prev dir now).1 = 0 := by
    rw [rdfsDeleteEntry, hholds.2.1.recLen, if_neg (by omega)]
  simp only [rdfsUnlink, hfind, hdel, ne_eq, not_true_eq_false, if_false]

/-- A directory that is not empty is not replaced. -/
theorem rdfsRename_of_not_empty {D P I : Type} {prims : DirPrims D P I} {ino : I → ℕ}
    {isDir : I → Bool} {a : RenameArgs I} {s : ℕ → D} {newInode : I}
    (hnew : a.newInode = some newInode) (hdir : isDir a.oldInode = true)
    (hempty : prims.emptyDir (s (ino newInode)) = false) :
    ∃ err < 0, rdfsRename prims ino isDir a s = some (err, s) := by
  rw [rdfsRename, hnew]
  rcases prims.findEntry (s (ino a.oldDir)) a.oldName with _ | found
  · exact ⟨-enoent, by decide, rfl⟩
  · refine ⟨-enotempty, by decide, ?_⟩
    have hsome : (dirDe prims ino isDir a s).isSome = true := by
      rw [dirDe, if_pos hdir]
      rfl
    exact if_pos ⟨hsome, hempty⟩

/-- `rdfs_empty_dir` finds a directory empty if it has no entries but `.` and `..`. So `rdfs_rmdir`
and `rdfs_rename` leave a directory with an entry as it is, with everything else, and `rdfs_rmdir`
returns 0 for one without. -/
theorem emptyDir_spec {target : Dir} {rs : List DirRec} (h : Proper target rs) :
    (rdfsEmptyDir target = true ↔ OnlyDots rs) ∧
    (¬OnlyDots rs → ∀ (dir : Dir) (name : List UInt8) (now : ℕ),
      rdfsRmdir dir name target now = (-enotempty, dir, target)) ∧
    (¬OnlyDots rs → ∀ (alloc : AllocOutcome) (now : ℕ) (a : RenameArgs NumberedInode)
      (s : ℕ → Dir) (newInode : NumberedInode), a.newInode = some newInode →
      s newInode.1.iIno = target → a.oldInode.1.isDir = true →
      ∃ err < 0, rdfsRename (rdfsPrims alloc now) (fun inode => inode.1.iIno)
        (fun inode => inode.1.isDir) a s = some (err, s)) ∧
    (OnlyDots rs → ∀ (dir : Dir) (drs : List DirRec) (name : List UInt8) (now : ℕ),
      dir.Rep drs → name ∈ liveNames drs → (rdfsRmdir dir name target now).1 = 0) := by
  have hiff := h.rdfsEmptyDir_iff
  have hfalse : ¬OnlyDots rs → rdfsEmptyDir target = false :=
    fun hn => Bool.eq_false_iff.mpr fun htrue => hn (hiff.mp htrue)
  refine ⟨hiff, fun hn dir name now => ?_, fun hn alloc now a s newInode hnew hs hdir => ?_,
    fun honly dir drs name now hdir hname => ?_⟩
  · rw [rdfsRmdir, if_neg (by rw [hfalse hn]; decide)]
  · exact rdfsRename_of_not_empty hnew hdir (hs ▸ hfalse hn)
  · rw [rdfsRmdir, if_pos (hiff.mpr honly), if_pos (hdir.rdfsUnlink_zero hname target.inode now)]

theorem proper_freshDir : Proper (freshDir linkDir rootInode) (freshRecs linkDir rootInode) where
  rep := rep_freshDir linkDir rootInode
  nodup := by decide
  names := by decide
  dot := ⟨(dotRec linkDir).ent, by decide, rfl, rfl⟩

theorem emptyDir_spec_freshDir : rdfsEmptyDir (freshDir linkDir rootInode) = true ∧
      ∀ (dir : Dir) (drs : List DirRec) (name : List UInt8) (now : ℕ), dir.Rep drs →
        name ∈ liveNames drs → (rdfsRmdir dir name (freshDir linkDir rootInode) now).1 = 0 := by
  obtain ⟨hiff, -, -, hremoves⟩ := emptyDir_spec proper_freshDir
  have honly : OnlyDots (freshRecs linkDir rootInode) := by
    unfold OnlyDots
    decide
  exact ⟨hiff.mpr honly, hremoves honly⟩

end Rdfs
