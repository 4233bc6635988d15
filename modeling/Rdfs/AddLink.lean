import Mathlib.Data.List.TakeWhile
import Rdfs.DirRecords

/-!
# Adding an entry

`rdfs_add_link` puts the new entry in a record that is not in use, or cuts a record in use behind
its name, or appends a page to the directory. `DirRec.place` is what it makes of the record it
finds, and `Dir.Rep.rdfsAddLink_eq` says which record that is. If it succeeds, the directory has one
more entry and is well-formed again, and it has written to nothing but the record it found, or the
new page. That is so unless there was no page to be had : the page that is entered then may be one
of the directory's own, whose entries are lost (`addLink_spec`).

Whether it succeeds is another matter. Every window of the search starts at a record and covers less
than a page, so a directory of many full pages has more windows than pages, and the search gives up
before its end (`addLink_succeeds_iff`); with few pages that cannot happen
(`addLink_succeeds_of_few_pages`). When no page can be had for the new entry, the directory has
grown all the same (`addLink_failure_iff`).
-/

namespace Rdfs

open List

/-! ## The new record -/

/-- A name and an inode as `rdfs_add_link` is called with; inode numbers start at 1. -/
structure Linkable (name : List UInt8) (inode : Inode) : Prop where
  name_pos : 1 ≤ name.length
  name_le : name.length ≤ 255
  ino_pos : 0 < inode.iIno
  ino_lt : inode.iIno < 2 ^ 64

/-- The entry of an inode. -/
def Linkable.ent {name : List UInt8} {inode : Inode} (h : Linkable name inode) : DirEnt where
  inode := inode.iIno
  name := name
  fileType := inode.deType
  inode_lt := h.ino_lt
  name_lt := Nat.lt_succ_of_le h.name_le
  fileType_lt := inode.deType_lt_byte

theorem Linkable.ent_live {name : List UInt8} {inode : Inode} (h : Linkable name inode) :
    h.ent.Live :=
  Nat.pos_iff_ne_zero.1 h.ino_pos

/-- The record found with the new entry : as a whole, or what is left of it behind its name. -/
def DirRec.place (r : DirRec) (e : DirEnt) (h : r.Room e.need) : List DirRec :=
  if hl : r.ent.Live then
    have hroom : r.ent.need + e.need ≤ r.recLen := h.resolve_left fun h => h.1 hl
    [⟨r.ent, r.ent.need, four_dvd_rdfsDirRecLen _, Nat.le_refl _,
        Nat.lt_of_le_of_lt r.fits r.recLen_lt⟩,
      ⟨e, r.recLen - r.ent.need, Nat.dvd_sub r.four_dvd (four_dvd_rdfsDirRecLen _),
        Nat.le_sub_of_add_le' hroom, Nat.lt_of_le_of_lt (Nat.sub_le _ _) r.recLen_lt⟩]
  else
    [⟨e, r.recLen, r.four_dvd, h.elim And.right fun h => Nat.le_trans (Nat.le_add_left _ _) h,
      r.recLen_lt⟩]

/-- The record of a new page. -/
def pageRec (e : DirEnt) : DirRec where
  ent := e
  recLen := 4096
  four_dvd := by decide
  fits := Nat.le_trans (rdfsDirRecLen_le e.name_lt) (by decide)
  recLen_lt := by decide

theorem total_place (r : DirRec) (e : DirEnt) (h : r.Room e.need) :
    total (r.place e h) = r.recLen := by
  unfold DirRec.place
  split_ifs
  · exact Nat.add_sub_cancel' r.fits
  · rfl

variable {r : DirRec} {alloc : AllocOutcome} {now : ℕ}

theorem liveEnts_place {e : DirEnt} (h : r.Room e.need) (he : e.Live) :
    liveEnts (r.place e h) = liveEnts [r] ++ [e] := by
  unfold DirRec.place
  split_ifs with hl
  · simp [liveEnts, hl, he]
  · simp [liveEnts, hl, he]

/-- The record where the new entry goes, or the new page. -/
inductive Added (e : DirEnt) (rs : List DirRec) : List DirRec → Prop
  | place {pre : List DirRec} {r : DirRec} {post : List DirRec} (heq : rs = pre ++ r :: post)
      (hroom : r.Room e.need) : Added e rs (pre ++ r.place e hroom ++ post)
  | page : Added e rs (rs ++ [pageRec e])

theorem Added.liveEnts_perm {e : DirEnt} {rs rs' : List DirRec} (h : Added e rs rs') (he : e.Live) :
    (liveEnts rs').Perm (e :: liveEnts rs) := by
  cases h with
  | @place pre r post heq hroom =>
    have hlive : liveEnts rs = liveEnts pre ++ (liveEnts [r] ++ liveEnts post) := by
      rw [← liveEnts_append, ← liveEnts_append]
      exact congrArg liveEnts heq
    rw [liveEnts_append, liveEnts_append, liveEnts_place hroom he, hlive]
    simp only [append_assoc]
    exact (Perm.append_left _ perm_middle).trans perm_middle
  | page =>
    have hpage : liveEnts [pageRec e] = [e] := by
      simp [liveEnts, pageRec, he]
    rw [liveEnts_append, hpage]
    exact perm_append_singleton _ _

/-! ## Writing it -/

section write

variable {m : Mem} {de len : ℕ} {name : List UInt8} {inode : Inode}

theorem sameOff_writeEntry (m : Mem) (de : ℕ) (name : List UInt8) (inode : Inode) :
    Mem.SameOff m (writeEntry m de name inode) (dirNameOffset + name.length) de := by
  have hput : ∀ (m : Mem) (f : DirField) (v : ℕ),
      Mem.SameOff m (putDe m de f v) (dirNameOffset + name.length) de := fun m f v =>
    (sameOff_putDe m de f v).mono (Nat.le_refl _) (by omega)
  have hblit : ∀ m : Mem, Mem.SameOff m (m.blit (de + dirNameOffset) name)
      (dirNameOffset + name.length) de := fun m =>
    (Mem.sameOff_blit m _ name).mono (by omega) (by omega)
  exact (((hput _ _ _).trans (hblit _)).trans (hput _ _ _)).trans (hput _ _ _)

theorem deField_blit_name (m : Mem) (de : ℕ) (bs : List UInt8) (f : DirField) :
    deField (m.blit (de + dirNameOffset) bs) de f = deField m de f :=
  deField_congr ((Mem.sameOff_blit m _ bs).sameOn (Or.inl (Nat.le_refl _))) f

theorem bytes_putDe (m : Mem) (de n : ℕ) (f : DirField) (v : ℕ) :
    (putDe m de f v).bytes n (de + dirNameOffset) = m.bytes n (de + dirNameOffset) :=
  Mem.bytes_congr ((sameOff_putDe m de f v).sameOn (Or.inr (Nat.le_refl _)))

/-- The record holds the new entry, and keeps its length. -/
theorem holdsRec_writeEntry (h : Linkable name inode) (hr : r.ent = h.ent)
    (hlen : deField m de .recLen = r.recLen) : HoldsRec (writeEntry m de name inode) de r := by
  have hino := h.ino_lt
  have hname := h.name_le
  have htype := inode.deType_lt
  unfold writeEntry rdfsSetDeType
  constructor
  · rw [deField_putDe_of_ne (by decide), deField_putDe, hr]
    exact Nat.mod_eq_of_lt hino
  · rw [deField_putDe_of_ne (by decide), deField_putDe_of_ne (by decide), deField_blit_name,
      deField_putDe_of_ne (by decide), hlen]
  · rw [deField_putDe_of_ne (by decide), deField_putDe_of_ne (by decide), deField_blit_name,
      deField_putDe, hr]
    exact Nat.mod_eq_of_lt (Nat.lt_succ_of_le hname)
  · rw [deField_putDe, hr]
    exact Nat.mod_eq_of_lt (Nat.lt_trans htype (by decide))
  · rw [hr, bytes_putDe, bytes_putDe]
    exact Mem.bytes_blit _ _ _

end write

section place

variable {dir : Dir} {a : ℕ} {r : DirRec} {name : List UInt8} {inode : Inode}

theorem DirRec.need_le (r : DirRec) : dirNameOffset + r.ent.name.length ≤ r.ent.need :=
  add_le_rdfsDirRecLen _

theorem Linkable.le_need (h : Linkable name inode) : dirNameOffset + name.length ≤ h.ent.need :=
  add_le_rdfsDirRecLen _

/-- What `rdfs_add_link` does with the record it finds. -/
theorem holds_addLinkAt (hr : HoldsRec dir.mem a r) (h : Linkable name inode)
    (hroom : r.Room h.ent.need) (now : ℕ) :
    Holds (addLinkAt dir a r.ent.need r.recLen name inode now).mem a (r.place h.ent hroom) ∧
      Mem.SameOff dir.mem (addLinkAt dir a r.ent.need r.recLen name inode now).mem r.recLen a := by
  have hneed := h.le_need
  have hle := r.need_le
  have hlt := r.recLen_lt
  by_cases hl : r.ent.Live
  · -- the record is cut : first the length of the second part, then that of the first
    have hslack : r.ent.need + h.ent.need ≤ r.recLen := hroom.resolve_left fun h => h.1 hl
    have hcond : deField dir.mem a .inode ≠ 0 := hr.inode ▸ hl
    have hplace : r.place h.ent hroom = [_, _] := dif_pos hl
    rw [addLinkAt, if_pos hcond, hplace]
    set m1 := putDe dir.mem (a + r.ent.need) .recLen (r.recLen - r.ent.need) with hm1
    set m2 := putDe m1 a .recLen r.ent.need with hm2
    have h1 : Mem.SameOff dir.mem m1 dirNameOffset (a + r.ent.need) := sameOff_putDe _ _ _ _
    have h2 : Mem.SameOff m1 m2 dirNameOffset a := sameOff_putDe _ _ _ _
    have h3 := sameOff_writeEntry m2 (a + r.ent.need) name inode
    have hold : HoldsRec m1 a r := hr.congr (h1.sameOn (by omega))
    refine ⟨⟨?_, ?_, trivial⟩, ?_⟩
    · refine HoldsRec.congr ?_ (h3.sameOn (Or.inl (Nat.add_le_add_left hle a)))
      constructor
      · rw [hm2, deField_putDe_of_ne (by decide)]
        exact hold.inode
      · rw [hm2, deField_putDe]
        exact Nat.mod_eq_of_lt (show r.ent.need < 65536 by omega)
      · rw [hm2, deField_putDe_of_ne (by decide)]
        exact hold.nameLen
      · rw [hm2, deField_putDe_of_ne (by decide)]
        exact hold.fileType
      · rw [hm2, bytes_putDe]
        exact hold.name
    · refine holdsRec_writeEntry h rfl ?_
      rw [deField_congr (h2.sameOn (by omega)), hm1, deField_putDe]
      exact Nat.mod_eq_of_lt (show r.recLen - r.ent.need < 65536 by omega)
    · exact ((h1.mono (by omega) (by omega)).trans (h2.mono (by omega) (by omega))).trans
        (h3.mono (by omega) (by omega))
  · have hcond : ¬deField dir.mem a .inode ≠ 0 := hr.inode ▸ hl
    have hplace : r.place h.ent hroom = [_] := dif_neg hl
    have hfits : h.ent.need ≤ r.recLen :=
      hroom.elim And.right fun h => Nat.le_trans (Nat.le_add_left _ _) h
    rw [addLinkAt, if_neg hcond, hplace]
    exact ⟨⟨holdsRec_writeEntry h rfl hr.recLen, trivial⟩,
      (sameOff_writeEntry dir.mem a name inode).mono (Nat.le_refl _) (by omega)⟩

end place

/-! ## The directory afterwards -/

/-- Records exchanged for records of the same length. -/
theorem Dir.Rep.splice {dir dir' : Dir} {pre mid mid' post : List DirRec}
    (h : dir.Rep (pre ++ mid ++ post)) (hmapped : dir'.inode.iVirtAddr = dir.inode.iVirtAddr)
    (hsize : dir'.inode.iSize = dir.inode.iSize) (hblocks : dir'.inode.iBlocks = dir.inode.iBlocks)
    (hlen : total mid' = total mid) (hmid : Holds dir'.mem (total pre) mid')
    (hoff : Mem.SameOff dir.mem dir'.mem (total mid) (total pre)) :
    dir'.Rep (pre ++ mid' ++ post) := by
  obtain ⟨hpm, hpost⟩ := holds_append.1 h.holds
  obtain ⟨hpre, -⟩ := holds_append.1 hpm
  have htotal := h.size
  simp only [total_append, Nat.zero_add] at hpost htotal
  refine ⟨hmapped ▸ h.mapped, ?_, ?_, by rw [hsize, hblocks, h.blocks]⟩
  · rw [holds_append, holds_append, total_append, hlen, Nat.zero_add, Nat.zero_add]
    exact ⟨⟨hpre.congr (hoff.sameOn (by omega)), hmid⟩, hpost.congr (hoff.sameOn (by omega))⟩
  · simp only [total_append]
    omega

theorem Dir.Rep.pages {dir : Dir} {rs : List DirRec} (h : dir.Rep rs) :
    dir.inode.iSize / 4096 = dir.inode.iBlocks := by
  rw [h.blocks]
  omega

section newBlock

variable {dir : Dir} {rs : List DirRec} {name : List UInt8} {inode : Inode}

/-- The entry is written to the beginning of a page that is new. -/
theorem addLinkAt_new (m : Mem) (grown : Inode) (de now : ℕ) :
    addLinkAt ⟨grown, putDe (putDe m de .recLen 4096) de .inode 0⟩ de 0 4096 name inode now =
      ⟨grown.touch now,
        writeEntry (putDe (putDe m de .recLen 4096) de .inode 0) de name inode⟩ := by
  have hdead : ¬deField (putDe (putDe m de .recLen 4096) de .inode 0) de .inode ≠ 0 := by
    rw [deField_putDe]
    simp
  rw [addLinkAt, if_neg hdead]

theorem sameOff_new (m : Mem) (de : ℕ) (name : List UInt8) (inode : Inode) :
    Mem.SameOff m (writeEntry (putDe (putDe m de .recLen 4096) de .inode 0) de name inode)
      (dirNameOffset + name.length) de := by
  have hput : ∀ (m : Mem) (f : DirField) (v : ℕ),
      Mem.SameOff m (putDe m de f v) (dirNameOffset + name.length) de := fun m f v =>
    (sameOff_putDe m de f v).mono le_rfl (by omega)
  exact ((hput _ _ _).trans (hput _ _ _)).trans (sameOff_writeEntry _ de name inode)

section

variable (h : dir.Rep rs) (hl : Linkable name inode) (hsize : dir.inode.iSize + 4096 ≤ maxDirSize)
include h hl hsize

/-- The page that `rdfs_add_link` appends when it gets one. -/
theorem Dir.Rep.newBlock (now : ℕ) :
    ∃ dir', addLinkNewBlock dir dir.inode.iSize name inode .entered now = (0, dir') ∧
      dir'.Rep (rs ++ [pageRec hl.ent]) ∧ dir'.inode.iSize = dir.inode.iSize + 4096 ∧
      Mem.SameOff dir.mem dir'.mem 4096 dir.inode.iSize := by
  set m := dir.mem.fill 4096 (4096 * dir.inode.iBlocks) 0 with hm
  have hneed := hl.le_need
  have hle : hl.ent.need ≤ 4096 := (pageRec hl.ent).fits
  have hoff : Mem.SameOff dir.mem (writeEntry (putDe (putDe m dir.inode.iSize .recLen 4096)
      dir.inode.iSize .inode 0) dir.inode.iSize name inode) 4096 dir.inode.iSize := by
    have hfill : Mem.SameOff dir.mem m 4096 dir.inode.iSize := by
      rw [hm, ← h.blocks]
      exact Mem.sameOff_fill _ _ _ _
    exact hfill.trans ((sameOff_new m _ name inode).mono le_rfl (by omega))
  refine ⟨_, by rw [addLinkNewBlock, if_pos hsize]; exact if_neg (by decide), ?_⟩
  rw [addLinkAt_new]
  refine ⟨⟨h.mapped, ?_, ?_, ?_⟩, rfl, hoff⟩
  · rw [holds_append, Nat.zero_add, h.size]
    refine ⟨h.holds.congr (hoff.sameOn (by rw [h.size]; omega)), holdsRec_writeEntry hl rfl ?_,
      trivial⟩
    rw [deField_putDe_of_ne (by decide), deField_putDe]
    rfl
  · rw [total_append, h.size]
    rfl
  · have := h.blocks
    show dir.inode.iSize + 4096 = 4096 * (dir.inode.iBlocks + 1)
    omega

/-- If the page is one of the directory, some block is empty afterwards, but for the new entry. -/
theorem Dir.Rep.unset_mem (halloc : alloc.ret = 0) {part : DirPart} (hpart : alloc.own = some part)
    (hof : part.Of dir.inode.iBlocks) (now : ℕ) : ∃ k < dir.inode.iBlocks, ∀ o, 268 ≤ o → o < 4096 →
      (addLinkNewBlock dir dir.inode.iSize name inode alloc now).2.mem (4096 * k + o) = 0 := by
  have hname := hl.name_le
  have hblocks := h.blocks
  simp only [addLinkNewBlock, if_pos hsize, halloc, ne_eq, not_true_eq_false, if_false,
    addLinkAt_new]
  have hnew := sameOff_new (alloc.clear dir.inode.iBlocks dir.mem) dir.inode.iSize name inode
  rw [AllocOutcome.shown, hpart]
  cases part with
  | block k =>
    refine ⟨k, hof, fun o ho hlt => ?_⟩
    have hclear : alloc.clear dir.inode.iBlocks dir.mem (4096 * dir.inode.iBlocks + o) = 0 := by
      rw [AllocOutcome.clear, if_pos halloc]
      exact if_pos ⟨by omega, by omega⟩
    simp only [Mem.blit]
    rw [if_pos (by omega), Nat.add_sub_cancel_left, Mem.getElem?_bytes _ _ hlt, Option.getD_some,
      hnew _ (by unfold dirNameOffset; omega), hclear]
  | table =>
    have hpos : 0 < dir.inode.iBlocks := hof
    refine ⟨0, hpos, fun o ho hlt => ?_⟩
    dsimp only
    rw [hnew _ (by omega), AllocOutcome.clear, if_pos halloc, hpart]
    simp only [Mem.fill]
    rw [if_neg (by omega), if_pos (by omega)]

end

end newBlock

/-! ## Full pages -/

/-- The inode of a directory. -/
def linkDir : Inode := { (default : Inode) with iIno := 5, iMode := 0x41ed }

/-- The inode of a regular file. -/
def linkFile : Inode := { (default : Inode) with iIno := 7, iMode := 0x81a4 }

/-- The names of a directory of short names. -/
def denseName : ℕ → List UInt8
  | 0 => [46]
  | 1 => [46, 46]
  | k =>
    [UInt8.ofNat (97 + k / 676 % 26), UInt8.ofNat (97 + k / 26 % 26), UInt8.ofNat (97 + k % 26)]

theorem length_denseName (k : ℕ) : 1 ≤ (denseName k).length ∧ (denseName k).length ≤ 3 := by
  unfold denseName
  split <;> simp

theorem need_denseName (k : ℕ) : rdfsDirRecLen (denseName k).length = 16 := by
  have := length_denseName k
  unfold rdfsDirRecLen
  omega

theorem four_dvd_sixteen : 4 ∣ 16 := by decide

theorem sixteen_lt : 16 < 2 ^ 16 := by decide

/-- The records of a directory of short names, each as short as it can be. -/
def denseRec (k : ℕ) : DirRec where
  ent := {
    inode := k % 2 ^ 32 + 1
    name := denseName k
    fileType := 1
    inode_lt := by omega
    name_lt := Nat.lt_of_le_of_lt (length_denseName k).2 (by decide)
    fileType_lt := by decide }
  recLen := 16
  four_dvd := four_dvd_sixteen
  fits := Nat.le_of_eq (need_denseName k)
  recLen_lt := sixteen_lt

/-- `n` pages of such records. -/
def denseRecs (n : ℕ) : List DirRec := (List.range (256 * n)).map denseRec

theorem recLens_denseRecs (n : ℕ) : recLens (denseRecs n) = List.replicate (256 * n) 16 := by
  simp [recLens, denseRecs, denseRec, Function.comp_def]

theorem total_denseRecs (n : ℕ) : total (denseRecs n) = 4096 * n := by
  rw [total, recLens_denseRecs]
  simp only [sum_replicate_nat]
  omega

/-- A directory of `n` pages of short names. -/
def denseDir (n : ℕ) : Dir := dirOf linkDir (denseRecs n)

theorem rep_denseDir (n : ℕ) : (denseDir n).Rep (denseRecs n) :=
  rep_dirOf linkDir (by rw [total_denseRecs]; exact Nat.dvd_mul_right _ _)

theorem denseDir_size (n : ℕ) : (denseDir n).inode.iSize = 4096 * n := total_denseRecs n

theorem denseDir_blocks (n : ℕ) : (denseDir n).inode.iBlocks = n := by
  rw [← (rep_denseDir n).pages, denseDir_size]
  omega

/-- The longest name. -/
def longName : List UInt8 := List.replicate 255 97

theorem length_longName : longName.length = 255 := length_replicate

theorem linkable_longName : Linkable longName linkFile where
  name_pos := by rw [length_longName]; decide
  name_le := by rw [length_longName]
  ino_pos := by decide
  ino_lt := by decide

theorem longName_new {n : ℕ} : ∀ e ∈ liveEnts (denseRecs n), e.name ≠ longName := by
  intro e he hname
  obtain ⟨-, r, hr, rfl⟩ := mem_liveEnts.1 he
  obtain ⟨k, -, rfl⟩ := mem_map.1 hr
  have hlen := (length_denseName k).2
  rw [show denseName k = longName from hname, length_longName] at hlen
  omega

theorem denseRecs_no_room (n len : ℕ) (hlen : 0 < len) : ∀ r ∈ denseRecs n, ¬r.Room len := by
  intro r hr hroom
  obtain ⟨k, -, rfl⟩ := mem_map.1 hr
  rcases hroom with ⟨hdead, -⟩ | hslack
  · exact hdead (Nat.succ_ne_zero _)
  · have : (denseRec k).ent.need = 16 := need_denseName k
    have : (denseRec k).recLen = 16 := rfl
    omega

/-! ## What a call does -/

section addLink

variable {dir : Dir} {rs : List DirRec} {name : List UInt8} {inode : Inode}

/-- The search of `rdfs_add_link` for a place for `name` comes to its end : at most as many places
where records meet are more than a window apart as there are windows. -/
def Reaches (name : List UInt8) (pages : ℕ) (rs : List DirRec) : Prop :=
  ∀ ds : List ℕ, ds.Sublist (bounds 0 (recLens rs)) → Spaced (reach name) ds → ds.length ≤ pages + 1

theorem reaches_iff {pages : ℕ} :
    Reaches name pages rs ↔ moves (reach name) 0 (recLens rs) ≤ pages := by
  have h : pages + 1 ≤ moves (reach name) 0 (recLens rs) ↔ ∃ ds : List ℕ,
      ds.Sublist (bounds 0 (recLens rs)) ∧ Spaced (reach name) ds ∧ pages + 1 < ds.length :=
    le_moves_iff
  constructor
  · intro hall
    by_contra hlt
    obtain ⟨ds, hsub, hs, hlen⟩ := h.1 (by omega)
    have := hall ds hsub hs
    omega
  · intro hle ds hsub hs
    by_contra hlt
    have := h.2 ⟨ds, hsub, hs, by omega⟩
    omega

instance (name : List UInt8) (pages : ℕ) (rs : List DirRec) : Decidable (Reaches name pages rs) :=
  decidable_of_iff _ reaches_iff.symm

/-- What `rdfs_add_link` does, by the records of the directory. -/
theorem Dir.Rep.rdfsAddLink_eq (h : dir.Rep rs) (alloc : AllocOutcome) (now : ℕ) :
    rdfsAddLink dir name inode alloc now = if Reaches name dir.inode.iBlocks (passed name rs) then
        match ahead name rs with
        | [] => addLinkNewBlock dir dir.inode.iSize name inode alloc now
        | r :: _ =>
          if r.ent.Named name then (-eexist, dir)
          else (0, addLinkAt dir (total (passed name rs)) r.ent.need r.recLen name inode now)
      else (-einval, dir) := by
  have hscan := scanWindows_eq h.holds (by rw [Nat.zero_add, h.size]) name dir.inode.iBlocks
  have hsplit := congrArg total (passed_append_ahead name rs)
  rw [total_append, h.size] at hsplit
  rw [rdfsAddLink, if_neg h.mapped]
  simp only
  rw [h.pages, hscan, Nat.zero_add]
  by_cases hm : Reaches name dir.inode.iBlocks (passed name rs)
  · rw [if_pos hm, if_neg (Nat.not_lt.2 (reaches_iff.1 hm))]
    cases hahead : ahead name rs with
    | nil =>
      rw [hahead, total_nil, Nat.add_zero] at hsplit
      rw [stopAt, hsplit]
    | cons r post =>
      rw [stopAt]
      by_cases hn : r.ent.Named name
      · rw [if_pos hn]
        simp only [if_pos hn]
      · rw [if_neg hn]
        simp only [if_neg hn]
  · rw [if_neg hm, if_pos (Nat.lt_of_not_le (mt reaches_iff.2 hm))]

theorem stops_of_ahead {post : List DirRec} (h : ahead name rs = r :: post) : r.Stops name := by
  have hhead := head?_dropWhile_not (fun r : DirRec => decide ¬r.Stops name) rs
  rw [show rs.dropWhile _ = r :: post from h] at hhead
  simpa using hhead

@[simp] theorem addLinkAt_inode (a nameLen recLen now : ℕ) :
    (addLinkAt dir a nameLen recLen name inode now).inode = dir.inode.touch now := by
  unfold addLinkAt
  split_ifs <;> rfl

/-- The ways a call of `rdfs_add_link` ends : the search does not get anywhere, it wants a page and
the directory is too large, or gets none or one, it finds the name, or it finds room. -/
inductive AddLinkEnd (dir : Dir) (rs : List DirRec) (name : List UInt8) (inode : Inode) (now : ℕ)
    (alloc : AllocOutcome) : ℤ × Dir → Prop
  | lost (hm : ¬Reaches name dir.inode.iBlocks (passed name rs)) :
      AddLinkEnd dir rs name inode now alloc (-einval, dir)
  | tooLarge (hahead : ahead name rs = []) (hsize : ¬dir.inode.iSize + 4096 ≤ maxDirSize) :
      AddLinkEnd dir rs name inode now alloc (-eio, dir)
  | noPage {dir' : Dir} (halloc : alloc.ret ≠ 0)
      (hm : Reaches name dir.inode.iBlocks (passed name rs)) (hahead : ahead name rs = [])
      (hsize : dir.inode.iSize + 4096 ≤ maxDirSize) :
      AddLinkEnd dir rs name inode now alloc (alloc.ret, dir')
  | newPage {dir' : Dir} (halloc : alloc.ret = 0)
      (hm : Reaches name dir.inode.iBlocks (passed name rs)) (hahead : ahead name rs = [])
      (hsize : dir.inode.iSize + 4096 ≤ maxDirSize)
      (hnew : addLinkNewBlock dir dir.inode.iSize name inode alloc now = (0, dir')) :
      AddLinkEnd dir rs name inode now alloc (0, dir')
  | inUse (hm : Reaches name dir.inode.iBlocks (passed name rs)) {r : DirRec} {post : List DirRec}
      (hahead : ahead name rs = r :: post) (hn : r.ent.Named name) :
      AddLinkEnd dir rs name inode now alloc (-eexist, dir)
  | room {r : DirRec} {post : List DirRec} (hahead : ahead name rs = r :: post)
      (hn : ¬r.ent.Named name) :
      AddLinkEnd dir rs name inode now alloc
        (0, addLinkAt dir (total (passed name rs)) r.ent.need r.recLen name inode now)

theorem Dir.Rep.addLinkEnd (h : dir.Rep rs) {p : ℤ × Dir}
    (hp : rdfsAddLink dir name inode alloc now = p) : AddLinkEnd dir rs name inode now alloc p := by
  rw [h.rdfsAddLink_eq] at hp
  by_cases hm : Reaches name dir.inode.iBlocks (passed name rs)
  · rw [if_pos hm] at hp
    cases hahead : ahead name rs with
    | nil =>
      simp only [hahead] at hp
      by_cases hsize : dir.inode.iSize + 4096 ≤ maxDirSize
      · by_cases halloc : alloc.ret = 0
        · have hzero := hp
          simp only [addLinkNewBlock, if_pos hsize, halloc] at hzero
          subst hzero
          exact .newPage halloc hm hahead hsize hp
        · simp only [addLinkNewBlock, if_pos hsize, ne_eq, halloc] at hp
          subst hp
          exact .noPage halloc hm hahead hsize
      · rw [addLinkNewBlock, if_neg hsize] at hp
        subst hp
        exact .tooLarge hahead hsize
    | cons r post =>
      simp only [hahead] at hp
      by_cases hn : r.ent.Named name
      · rw [if_pos hn] at hp
        subst hp
        exact .inUse hm hahead hn
      · rw [if_neg hn] at hp
        subst hp
        exact .room hahead hn
  · rw [if_neg hm] at hp
    subst hp
    exact .lost hm

theorem ahead_eq_nil_iff : ahead name rs = [] ↔ ∀ r ∈ rs, ¬r.Stops name := by
  unfold ahead
  rw [dropWhile_eq_nil_iff]
  simp

theorem passed_of_ahead_nil (h : ahead name rs = []) : passed name rs = rs := by
  have hsplit := passed_append_ahead name rs
  rwa [h, append_nil] at hsplit

/-- A directory that should grow when there is no page to be had, or none that can be entered. -/
def Starved (dir : Dir) (rs : List DirRec) (name : List UInt8) (alloc : AllocOutcome) : Prop :=
  alloc ≠ .entered ∧ dir.inode.iSize + 4096 ≤ maxDirSize ∧
    (∀ r ∈ rs, ¬r.ent.Named name ∧ ¬r.Room (rdfsDirRecLen name.length)) ∧
    Reaches name dir.inode.iBlocks rs

theorem Starved.addLink (hs : Starved dir rs name alloc) (h : dir.Rep rs) (now : ℕ) :
    rdfsAddLink dir name inode alloc now =
      addLinkNewBlock dir dir.inode.iSize name inode alloc now := by
  have hahead : ahead name rs = [] := ahead_eq_nil_iff.2 fun r hr => not_or.2 (hs.2.2.1 r hr)
  rw [h.rdfsAddLink_eq, passed_of_ahead_nil hahead, if_pos hs.2.2.2, hahead]

theorem Starved.addLink_ret (hs : Starved dir rs name alloc) (h : dir.Rep rs) (now : ℕ) :
    (rdfsAddLink dir name inode alloc now).1 = alloc.ret := by
  rw [hs.addLink h, addLinkNewBlock, if_pos hs.2.1]
  split_ifs with h0
  · rfl
  · exact (not_not.1 h0).symm

/-- Where a new entry ends up : in the record at which the search stops, or in a new page. -/
theorem Dir.Rep.addLink_zero (h : dir.Rep rs) (hl : Linkable name inode)
    (hs : ¬Starved dir rs name alloc) (hret : (rdfsAddLink dir name inode alloc now).1 = 0) :
    ∃ dir', rdfsAddLink dir name inode alloc now = (0, dir') ∧
      ((∃ r post, ∃ hroom : r.Room hl.ent.need, ahead name rs = r :: post ∧ ¬r.ent.Named name ∧
          dir'.Rep (passed name rs ++ r.place hl.ent hroom ++ post) ∧
          Mem.SameOff dir.mem dir'.mem r.recLen (total (passed name rs)) ∧
          dir'.inode.iSize = dir.inode.iSize) ∨
        ahead name rs = [] ∧ dir'.Rep (rs ++ [pageRec hl.ent]) ∧
          Mem.SameOff dir.mem dir'.mem 4096 dir.inode.iSize ∧
          dir'.inode.iSize = dir.inode.iSize + 4096) := by
  obtain ⟨p, hp⟩ : ∃ p, rdfsAddLink dir name inode alloc now = p := ⟨_, rfl⟩
  rw [hp] at hret ⊢
  cases h.addLinkEnd hp with
  | lost => exact absurd hret (by decide : -einval ≠ 0)
  | tooLarge => exact absurd hret (by decide : -eio ≠ 0)
  | noPage halloc => exact absurd hret halloc
  | newPage _ hm hahead hsize hnew =>
    have halloc : alloc = .entered := by
      rw [passed_of_ahead_nil hahead] at hm
      by_contra hne
      exact hs ⟨hne, hsize, fun r hr => not_or.1 (ahead_eq_nil_iff.1 hahead r hr), hm⟩
    subst halloc
    obtain ⟨dir', heq, hrep, hgrown, hoff⟩ := h.newBlock hl hsize now
    rw [← hnew]
    exact ⟨dir', heq, Or.inr ⟨hahead, hrep, hoff, hgrown⟩⟩
  | inUse => exact absurd hret (by decide : -eexist ≠ 0)
  | @room r post hahead hn =>
    have hroom : r.Room hl.ent.need := (stops_of_ahead hahead).resolve_left hn
    have hrep : dir.Rep (passed name rs ++ [r] ++ post) := by
      rw [append_assoc, singleton_append, ← hahead, passed_append_ahead]
      exact h
    have hr : HoldsRec dir.mem (total (passed name rs)) r := by
      have := (holds_append.1 (holds_append.1 hrep.holds).1).2.1
      rwa [Nat.zero_add] at this
    obtain ⟨hplace, hoff⟩ := holds_addLinkAt hr hl hroom now
    refine ⟨_, rfl, Or.inl ⟨r, post, hroom, hahead, hn, ?_, hoff, ?_⟩⟩
    · exact hrep.splice (by rw [addLinkAt_inode]; rfl) (by rw [addLinkAt_inode]; rfl)
        (by rw [addLinkAt_inode]; rfl) (total_place r hl.ent hroom) hplace hoff
    · rw [addLinkAt_inode]
      rfl

/-! ### Whether it succeeds -/

/-- The records in front of the first one with room for `name`. -/
def roomless (name : List UInt8) (rs : List DirRec) : List DirRec :=
  rs.takeWhile fun r => ¬r.Room (rdfsDirRecLen name.length)

theorem passed_eq_roomless (hnew : ∀ e ∈ liveEnts rs, e.name ≠ name) :
    passed name rs = roomless name rs := by
  have hnamed : ∀ r ∈ rs, ¬r.ent.Named name := fun r hr hn =>
    hnew r.ent (mem_liveEnts.2 ⟨hn.1, r, hr, rfl⟩) hn.2
  unfold passed roomless
  clear hnew
  induction rs with
  | nil => rfl
  | cons r rs ih =>
    have hstops : r.Stops name ↔ r.Room (rdfsDirRecLen name.length) :=
      or_iff_right (hnamed r (by simp))
    rw [takeWhile_cons, takeWhile_cons, ih fun r' hr' => hnamed r' (by simp [hr'])]
    simp only [hstops]

/-- With a page to be had if one is needed, a new name is added if the search gets to its end. -/
theorem Dir.Rep.addLink_zero_iff (h : dir.Rep rs) (hsize : dir.inode.iSize + 4096 ≤ maxDirSize)
    (hl : Linkable name inode) (hnew : ∀ e ∈ liveEnts rs, e.name ≠ name) (now : ℕ) :
    (rdfsAddLink dir name inode .entered now).1 = 0 ↔
      Reaches name dir.inode.iBlocks (roomless name rs) := by
  rw [h.rdfsAddLink_eq, passed_eq_roomless hnew]
  by_cases hm : Reaches name dir.inode.iBlocks (roomless name rs)
  · rw [if_pos hm]
    refine iff_of_true ?_ hm
    cases hahead : ahead name rs with
    | nil =>
      obtain ⟨dir', heq, -⟩ := h.newBlock hl hsize now
      simp only [heq]
    | cons r post =>
      have hmem : r ∈ rs := by
        rw [← passed_append_ahead name rs, hahead]
        simp
      have hn : ¬r.ent.Named name := fun hn =>
        hnew r.ent (mem_liveEnts.2 ⟨hn.1, r, hmem, rfl⟩) hn.2
      simp only [if_neg hn]
  · rw [if_neg hm]
    exact iff_of_false (by decide : -einval ≠ 0) hm

/-- With a page to be had if one is needed, `rdfs_add_link` adds a new name exactly if no more
places in front of the first record with room are a window apart than the directory has pages, and
one. -/
theorem addLink_succeeds_iff (h : dir.Rep rs) (hsize : dir.inode.iSize + 4096 ≤ maxDirSize)
    (hl : Linkable name inode) (hnew : ∀ e ∈ liveEnts rs, e.name ≠ name) (now : ℕ) :
    (rdfsAddLink dir name inode .entered now).1 = 0 ↔
      ∀ ds : List ℕ, ds.Sublist (bounds 0 (recLens (roomless name rs))) →
        Spaced (4096 - rdfsDirRecLen name.length) ds → ds.length ≤ dir.inode.iSize / 4096 + 1 := by
  rw [h.pages]
  exact h.addLink_zero_iff hsize hl hnew now

theorem denseDir_succeeds_iff : (rdfsAddLink (denseDir 1) longName linkFile .entered 0).1 = 0 ↔
      ∀ ds : List ℕ, ds.Sublist (bounds 0 (recLens (roomless longName (denseRecs 1)))) →
        Spaced (4096 - rdfsDirRecLen longName.length) ds →
        ds.length ≤ (denseDir 1).inode.iSize / 4096 + 1 :=
  addLink_succeeds_iff (rep_denseDir 1) (by rw [denseDir_size]; decide) linkable_longName
    longName_new 0

/-- Fifteen full pages of short names, and a long name : the sixteen windows end before the pages
do. -/
theorem denseDir_search_gives_up :
    (denseDir 15).Rep (denseRecs 15) ∧ (denseDir 15).inode.iSize + 4096 ≤ maxDirSize ∧
      Linkable longName linkFile ∧ (∀ e ∈ liveEnts (denseRecs 15), e.name ≠ longName) ∧
      (rdfsAddLink (denseDir 15) longName linkFile .entered 0).1 ≠ 0 := by
  have hsize : (denseDir 15).inode.iSize + 4096 ≤ maxDirSize := by
    rw [denseDir_size]
    decide
  refine ⟨rep_denseDir 15, hsize, linkable_longName, longName_new, fun hret => ?_⟩
  have hreach := ((rep_denseDir 15).addLink_zero_iff hsize linkable_longName longName_new 0).1 hret
  have hreclen : rdfsDirRecLen longName.length = 268 := by
    rw [length_longName]
    rfl
  have hall : roomless longName (denseRecs 15) = denseRecs 15 :=
    takeWhile_eq_self_iff.2 fun r hr => decide_eq_true (denseRecs_no_room 15 _ (by omega) r hr)
  have hmoves : moves (4096 - 268) 0 (List.replicate (256 * 15) 16) = 16 := by decide +kernel
  rw [reaches_iff, hall, recLens_denseRecs, reach, hreclen, hmoves, denseDir_blocks] at hreach
  omega

/-- The windows cover few pages, whatever the records are. -/
theorem reaches_of_few_pages {pages : ℕ} (hname : name.length ≤ 255)
    (htotal : total rs ≤ 4096 * pages)
    (hfew : pages * (rdfsDirRecLen name.length - 4) < 4100 - rdfsDirRecLen name.length) :
    Reaches name pages rs := by
  have hle : rdfsDirRecLen name.length ≤ 268 := rdfsDirRecLen_le (Nat.lt_succ_of_le hname)
  have hge : 12 ≤ rdfsDirRecLen name.length :=
    Nat.le_trans (Nat.le_add_right _ _) (add_le_rdfsDirRecLen name.length)
  -- every move of the window leaves at least `4100 - RDFS_DIR_REC_LEN` bytes behind it
  have hmoves : moves (reach name) 0 (recLens rs) * (4100 - rdfsDirRecLen name.length) ≤
      4096 * pages := by
    have hdvd : 4 ∣ reach name := Nat.dvd_sub (by decide) (four_dvd_rdfsDirRecLen _)
    have hlens : ∀ l ∈ recLens rs, 4 ∣ l := by
      simpa [recLens] using fun r (_ : r ∈ rs) => r.four_dvd
    have := moves_mul_le (by decide) hdvd hlens (Nat.dvd_zero 4)
    rw [Nat.zero_add, show reach name + 4 = 4100 - rdfsDirRecLen name.length by
      unfold reach; omega] at this
    exact this.trans htotal
  have hsum : pages * (4100 - rdfsDirRecLen name.length) +
      pages * (rdfsDirRecLen name.length - 4) = 4096 * pages := by
    rw [← Nat.mul_add,
      show 4100 - rdfsDirRecLen name.length + (rdfsDirRecLen name.length - 4) = 4096 by omega,
      Nat.mul_comm]
  rw [reaches_iff]
  refine Nat.le_of_lt_succ (Nat.lt_of_mul_lt_mul_right (a := 4100 - rdfsDirRecLen name.length) ?_)
  rw [Nat.succ_mul]
  omega

/-- In a directory of few pages, for the length of the name, the search never gives up. -/
theorem addLink_succeeds_of_few_pages (h : dir.Rep rs)
    (hsize : dir.inode.iSize + 4096 ≤ maxDirSize) (hl : Linkable name inode)
    (hnew : ∀ e ∈ liveEnts rs, e.name ≠ name) (now : ℕ)
    (hfew : dir.inode.iBlocks * (rdfsDirRecLen name.length - 4) <
      4100 - rdfsDirRecLen name.length) :
    (rdfsAddLink dir name inode .entered now).1 = 0 := by
  rw [h.addLink_zero_iff hsize hl hnew now]
  refine reaches_of_few_pages hl.name_le ?_ hfew
  have hsplit : total (roomless name rs ++ _) = total rs :=
    congrArg total (takeWhile_append_dropWhile
      (p := fun r : DirRec => decide ¬r.Room (rdfsDirRecLen name.length)))
  rw [total_append, h.size, h.blocks] at hsplit
  omega

/-! ### The entries afterwards -/

/-- A directory is well-formed with one more entry, and only bytes of one of its records or of a
page behind it have been written. -/
def EntryAdded (dir : Dir) (rs : List DirRec) (e : DirEnt) (dir' : Dir) : Prop :=
  ∃ rs', dir'.Rep rs' ∧ (liveEnts rs').Perm (e :: liveEnts rs) ∧
    ((∃ pre r post, rs = pre ++ r :: post ∧ Mem.SameOff dir.mem dir'.mem r.recLen (total pre) ∧
        dir'.inode.iSize = dir.inode.iSize) ∨
      Mem.SameOff dir.mem dir'.mem 4096 dir.inode.iSize ∧
        dir'.inode.iSize = dir.inode.iSize + 4096)

theorem Dir.Rep.entryAdded (h : dir.Rep rs) (hl : Linkable name inode)
    (hs : ¬Starved dir rs name alloc) (hret : (rdfsAddLink dir name inode alloc now).1 = 0) :
    EntryAdded dir rs hl.ent (rdfsAddLink dir name inode alloc now).2 := by
  have hsplit := passed_append_ahead name rs
  obtain ⟨dir', heq, ⟨r, post, hroom, hahead, -, hrep, hoff, hsize⟩ | ⟨-, hrep, hoff, hsize⟩⟩ :=
    h.addLink_zero hl hs hret
  all_goals rw [heq]
  · rw [hahead] at hsplit
    exact ⟨_, hrep, (Added.place hsplit.symm hroom).liveEnts_perm hl.ent_live,
      Or.inl ⟨_, r, post, hsplit.symm, hoff, hsize⟩⟩
  · exact ⟨_, hrep, Added.page.liveEnts_perm hl.ent_live, Or.inr ⟨hoff, hsize⟩⟩

/-- Where records are short, one of them begins soon behind any place. -/
theorem exists_record {len : ℕ} (hpos : 0 < len) : ∀ {rs : List DirRec} {p : ℕ},
    (∀ r ∈ rs, r.recLen < len) → p + len ≤ total rs →
    ∃ pre r post, rs = pre ++ r :: post ∧ p ≤ total pre ∧ total pre < p + len
  | [], p, _, hle => by
    rw [total_nil] at hle
    omega
  | r :: rs, p, hlen, hle => by
    have hr := hlen r (by simp)
    rw [total_cons] at hle
    rcases Nat.eq_zero_or_pos p with rfl | hp0
    · exact ⟨[], r, rs, rfl, by simp, by simp; omega⟩
    · by_cases hp : p ≤ r.recLen
      · obtain ⟨r', rs', rfl⟩ : ∃ r' rs', rs = r' :: rs' := by
          refine exists_cons_of_ne_nil fun h0 => ?_
          rw [h0, total_nil] at hle
          omega
        exact ⟨[r], r', rs', rfl, by simpa using hp, by simp; omega⟩
      · obtain ⟨pre, r', post, heq, hge, hlt⟩ := exists_record hpos
          (fun r' hr' => hlen r' (mem_cons_of_mem r hr'))
          (show p - r.recLen + len ≤ total rs by omega)
        exact ⟨r :: pre, r', post, by rw [heq, cons_append], by rw [total_cons]; omega,
          by rw [total_cons]; omega⟩

/-- A page of the directory that is entered once more has been cleared. -/
theorem Dir.Rep.not_entryAdded (h : dir.Rep rs) (hl : Linkable name inode) {part : DirPart}
    (hpart : alloc.own = some part) (hof : part.Of dir.inode.iBlocks)
    (hroom : ∀ r ∈ rs, ¬r.Room (rdfsDirRecLen name.length))
    (hret : (rdfsAddLink dir name inode alloc now).1 = 0) :
    ¬EntryAdded dir rs hl.ent (rdfsAddLink dir name inode alloc now).2 := by
  have hreclen : rdfsDirRecLen name.length ≤ 268 := rdfsDirRecLen_le (Nat.lt_succ_of_le hl.name_le)
  obtain ⟨p, hp⟩ : ∃ p, rdfsAddLink dir name inode alloc now = p := ⟨_, rfl⟩
  rw [hp] at hret ⊢
  cases h.addLinkEnd hp with
  | lost => exact absurd hret (by decide : -einval ≠ 0)
  | tooLarge => exact absurd hret (by decide : -eio ≠ 0)
  | noPage halloc => exact absurd hret halloc
  | inUse => exact absurd hret (by decide : -eexist ≠ 0)
  | @room r post hahead hn =>
    have hmem : r ∈ rs := by
      rw [← passed_append_ahead name rs, hahead]
      simp
    exact absurd ((stops_of_ahead hahead).resolve_left hn) (hroom r hmem)
  | @newPage dir' halloc hm hahead hsize hnew =>
    rintro ⟨rs', -, -, ⟨pre, r, post, -, -, hsame⟩ | ⟨hoff, -⟩⟩
    · have hgrown : (addLinkNewBlock dir dir.inode.iSize name inode alloc now).2.inode.iSize =
          dir.inode.iSize + 4096 := by
        simp only [addLinkNewBlock, if_pos hsize, halloc, addLinkAt_new]
        rfl
      rw [hnew] at hgrown
      exact absurd (hsame.symm.trans hgrown) (by omega)
    · -- some record of the page is behind the new entry, where there is nothing any more
      have hshort : ∀ r ∈ rs, r.recLen < 536 := by
        intro r hr
        have hneed : r.ent.need ≤ 268 := rdfsDirRecLen_le r.ent.name_lt
        have := not_le.1 (not_or.1 (hroom r hr)).2
        omega
      have hblocks := h.blocks
      obtain ⟨k, hlt, hempty⟩ := h.unset_mem hl hsize halloc hpart hof now
      rw [hnew] at hempty
      obtain ⟨pre, r, post, heq, hge, hend⟩ := exists_record (by decide) hshort
        (show 4096 * k + 268 + 536 ≤ total rs by rw [h.size, hblocks]; omega)
      have hrec : HoldsRec dir.mem (total pre) r := by
        have hholds := h.holds
        rw [heq, holds_append, Nat.zero_add] at hholds
        exact hholds.2.1
      have hzero : ∀ x, total pre ≤ x → x < total pre + dirNameOffset → dir.mem x = 0 := by
        intro x hx hx'
        have hx'' : x < total pre + 12 := hx'
        rw [← hoff x (by omega), show x = 4096 * k + (x - 4096 * k) by omega]
        exact hempty _ (by omega) (by omega)
      have hlen : deField dir.mem (total pre) .recLen = 0 :=
        Mem.load_eq_zero fun x hx hx' => hzero x (by omega) (by
          have := offset_add_size_le .recLen
          omega)
      exact absurd (hrec.recLen.symm.trans hlen) r.recLen_pos.ne'

/-- A call that fails leaves the directory alone, unless it does not get a page. -/
theorem Dir.Rep.addLink_fail (h : dir.Rep rs) (hret : (rdfsAddLink dir name inode alloc now).1 ≠ 0)
    (hs : ¬Starved dir rs name alloc) : (rdfsAddLink dir name inode alloc now).2 = dir := by
  obtain ⟨p, hp⟩ : ∃ p, rdfsAddLink dir name inode alloc now = p := ⟨_, rfl⟩
  rw [hp] at hret ⊢
  cases h.addLinkEnd hp with
  | lost => rfl
  | tooLarge => rfl
  | noPage halloc hm hahead hsize =>
    rw [passed_of_ahead_nil hahead] at hm
    refine absurd ⟨?_, hsize, fun r hr => not_or.1 (ahead_eq_nil_iff.1 hahead r hr), hm⟩ hs
    rintro rfl
    exact halloc rfl
  | newPage => exact absurd rfl hret
  | inUse => rfl
  | room => exact absurd rfl hret

/-- A call that fails leaves the size and the records of the directory as they are exactly if the
directory does not have to grow, or gets its page. -/
theorem addLink_failure_iff (h : dir.Rep rs) (alloc : AllocOutcome) (now : ℕ)
    (hret : (rdfsAddLink dir name inode alloc now).1 ≠ 0) :
    ((rdfsAddLink dir name inode alloc now).2.inode.iSize = dir.inode.iSize ∧
        (rdfsAddLink dir name inode alloc now).2.Rep rs) ↔
      ¬(alloc.ret ≠ 0 ∧ dir.inode.iSize + 4096 ≤ maxDirSize ∧
        (∀ r ∈ rs, ¬r.ent.Named name ∧ ¬r.Room (rdfsDirRecLen name.length)) ∧
        Reaches name dir.inode.iBlocks rs) := by
  by_cases hs : Starved dir rs name alloc
  · rw [hs.addLink_ret h] at hret
    refine iff_of_false (fun hsame => ?_) (not_not.2 ⟨hret, hs.2⟩)
    have hgrown := hsame.1
    simp only [hs.addLink h, addLinkNewBlock, if_pos hs.2.1, ne_eq, hret, not_false_eq_true,
      if_true] at hgrown
    omega
  · rw [h.addLink_fail hret hs]
    refine iff_of_true ⟨rfl, h⟩ fun hno => hs ⟨?_, hno.2⟩
    rintro rfl
    exact hno.1 rfl

/-- A full page, and a long name : the directory has to grow. -/
theorem starved_dense (halloc : alloc ≠ .entered) :
    Starved (denseDir 1) (denseRecs 1) longName alloc := by
  refine ⟨halloc, ?_, fun r hr => ⟨fun hn => ?_, ?_⟩, reaches_of_few_pages ?_ ?_ ?_⟩
  · rw [denseDir_size]
    decide
  · exact longName_new r.ent (mem_liveEnts.2 ⟨hn.1, r, hr, rfl⟩) hn.2
  · exact denseRecs_no_room 1 _ (by rw [length_longName]; decide) r hr
  · rw [length_longName]
  · rw [total_denseRecs, denseDir_blocks]
  · rw [denseDir_blocks, length_longName]
    decide

theorem addLink_failure_iff_dense :
    ((rdfsAddLink (denseDir 1) longName linkFile .notEntered 0).2.inode.iSize =
          (denseDir 1).inode.iSize ∧
        (rdfsAddLink (denseDir 1) longName linkFile .notEntered 0).2.Rep
          (denseRecs 1)) ↔ ¬Starved (denseDir 1) (denseRecs 1) longName .notEntered := by
  have hiff := addLink_failure_iff (rep_denseDir 1) .notEntered 0
    (by rw [(starved_dense (by decide)).addLink_ret (rep_denseDir 1)]; decide :
      (rdfsAddLink (denseDir 1) longName linkFile .notEntered 0).1 ≠ 0)
  exact hiff.trans (not_congr (and_congr_left fun _ => iff_of_true (by decide) (by decide)))

/-- A full page, and no page to be had : the size grows, but no record does. -/
theorem addLink_grows_without_page : (denseDir 1).Rep (denseRecs 1) ∧
      (rdfsAddLink (denseDir 1) longName linkFile .notEntered 0).1 = -1 ∧
      (denseDir 1).inode.iSize = 4096 ∧
      (rdfsAddLink (denseDir 1) longName linkFile .notEntered 0).2.inode.iSize = 8192 := by
  have hs := starved_dense (by decide : AllocOutcome.notEntered ≠ .entered)
  rw [hs.addLink (rep_denseDir 1), addLinkNewBlock, if_pos hs.2.1]
  have hrep := rep_denseDir 1
  have hsize := denseDir_size 1
  generalize denseDir 1 = dir at hrep hsize ⊢
  exact ⟨hrep, rfl, hsize, congrArg (· + 4096) hsize⟩

end addLink

end Rdfs
