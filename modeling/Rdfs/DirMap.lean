import Mathlib.Data.List.Sigma
import Rdfs.NewDir

/-!
# Directories as maps

`namei.c` works on directories through a few functions of `dir.c`, which hand out pointers to
records and take them back. `DirPrims` is such a set of functions, for any directories and pointers,
and `ActsAsMap` says that they act on directories as operations on finite maps from names to inode
numbers. A pointer is good for the directory it was found in, and not for one that has changed
since : an entry that is added may be put behind any other one.

The functions of `dir.c` act as maps (`actsAsMap_rdfsPrims`) on directories whose records are in
order as long as they are small enough for every record to take in any other one (`Ordered`).
-/

namespace Rdfs

open List Function Option

/-! ## Primitives -/

/-- The functions of `dir.c` that `rdfs_rename` is written with. -/
structure DirPrims (D P I : Type) where
  findEntry : D → List UInt8 → Option (P × P)
  setLink : D → P → I → Bool → D
  addLink : D → List UInt8 → I → ℤ × D
  deleteEntry : P → P → D → ℤ × D
  dotdot : D → P
  emptyDir : D → Bool

/-- The names of entries that the VFS adds, renames and removes. -/
structure EntryName (name : List UInt8) : Prop where
  pos : 1 ≤ name.length
  le : name.length ≤ 255
  ne_dot : name ≠ [46]
  ne_dotdot : name ≠ [46, 46]

/-- The primitives act on directories as operations on the maps `lookup`. Entries can be added to a
directory that is `Ready`, and the other operations work on those that are `Good`. -/
structure ActsAsMap {D P I : Type} (prims : DirPrims D P I) (ino : I → ℕ)
    (lookup : D → List UInt8 → Option ℕ) (Ready Good : D → Prop) : Prop where
  good {d : D} (h : Ready d) : Good d
  find_eq_none {d : D} {name : List UInt8} (h : Good d) :
    prims.findEntry d name = none ↔ lookup d name = none
  setLink {d : D} {name : List UInt8} {p q : P} (h : Good d)
    (hfind : prims.findEntry d name = some (p, q)) (i : I) (updateTimes : Bool) :
    Good (prims.setLink d p i updateTimes) ∧
      lookup (prims.setLink d p i updateTimes) = Function.update (lookup d) name (some (ino i))
  dotdot {d : D} (h : Good d) (i : I) (updateTimes : Bool) :
    lookup (prims.setLink d (prims.dotdot d) i updateTimes) =
      Function.update (lookup d) [46, 46] (some (ino i))
  add {d d' : D} {name : List UInt8} {i : I} (h : Ready d) (hname : EntryName name)
    (hnew : lookup d name = none) (hadd : prims.addLink d name i = (0, d')) :
    Good d' ∧ lookup d' = Function.update (lookup d) name (some (ino i))
  add_fail {d d' : D} {name : List UInt8} {i : I} {err : ℤ} (h : Ready d)
    (hadd : prims.addLink d name i = (err, d')) (herr : err ≠ 0) : lookup d' = lookup d
  delete {d : D} {name : List UInt8} {p q : P} (h : Good d) (hname : EntryName name)
    (hfind : prims.findEntry d name = some (p, q)) :
    lookup (prims.deleteEntry p q d).2 = Function.update (lookup d) name none

/-! ## The map of a list of entries -/

/-- The names and inode numbers of entries. -/
def entryList (es : List DirEnt) : List (Σ _ : List UInt8, ℕ) :=
  es.map fun e => ⟨e.name, e.inode⟩

theorem keys_entryList (es : List DirEnt) : (entryList es).keys = es.map DirEnt.name := by
  rw [entryList, List.keys, List.map_map]
  rfl

/-- The inode number of the first entry with a name. -/
def entryMap (es : List DirEnt) (name : List UInt8) : Option ℕ := (entryList es).dlookup name

theorem entryMap_cons (e : DirEnt) (es : List DirEnt) :
    entryMap (e :: es) = Function.update (entryMap es) e.name (some e.inode) := by
  funext name
  by_cases h : name = e.name
  · subst h
    rw [update_self]
    exact dlookup_cons_eq _ _ _
  · rw [update_of_ne h]
    exact dlookup_cons_ne (entryList es) (⟨e.name, e.inode⟩ : Σ _ : List UInt8, ℕ) h

theorem entryMap_perm {es es' : List DirEnt} (hp : es.Perm es')
    (hnodup : (es.map DirEnt.name).Nodup) : entryMap es = entryMap es' := by
  funext name
  have hkeys : (entryList es).NodupKeys := by
    rw [List.NodupKeys, keys_entryList]
    exact hnodup
  exact perm_dlookup name hkeys (hp.map _)

theorem entryMap_eq_none {es : List DirEnt} {name : List UInt8} :
    entryMap es name = none ↔ name ∉ es.map DirEnt.name := by
  rw [entryMap, dlookup_eq_none, keys_entryList]

section middle

variable {es es' : List DirEnt} {e e' : DirEnt}

section

variable (hnodup : ((es ++ e :: es').map DirEnt.name).Nodup)
include hnodup

/-- The entry in the middle gives its name, if there is no other entry of that name. -/
theorem entryMap_middle :
    entryMap (es ++ e :: es') = Function.update (entryMap (es ++ es')) e.name (some e.inode) := by
  rw [entryMap_perm perm_middle hnodup, entryMap_cons]

theorem entryMap_replace (hname : e'.name = e.name) : entryMap (es ++ e' :: es') =
      Function.update (entryMap (es ++ e :: es')) e.name (some e'.inode) := by
  have hnodup' : ((es ++ e' :: es').map DirEnt.name).Nodup := by
    rw [map_append, map_cons, hname]
    simpa using hnodup
  rw [entryMap_middle hnodup, entryMap_middle hnodup', update_idem, hname]

theorem entryMap_remove :
    entryMap (es ++ es') = Function.update (entryMap (es ++ e :: es')) e.name none := by
  have hnot : e.name ∉ (es ++ es').map DirEnt.name := by
    have hp : ((es ++ e :: es').map DirEnt.name).Perm (e.name :: (es ++ es').map DirEnt.name) :=
      perm_middle.map _
    exact (nodup_cons.mp (hp.nodup_iff.mp hnodup)).1
  rw [entryMap_middle hnodup, update_idem, ← entryMap_eq_none.mpr hnot, update_eq_self]

end

end middle

/-! ## The functions of `dir.c` -/

/-- An inode with a number that an entry can have. -/
abbrev NumberedInode := { inode : Inode // 0 < inode.iIno ∧ inode.iIno < 2 ^ 64 }

/-- The functions of `dir.c`, at the time `now`. -/
def rdfsPrims (alloc : AllocOutcome) (now : ℕ) : DirPrims Dir ℕ NumberedInode where
  findEntry := rdfsFindEntry2
  setLink dir de inode updateTimes := rdfsSetLink dir de inode.1 updateTimes now
  addLink dir name inode := rdfsAddLink dir name inode.1 alloc now
  deleteEntry de prev dir := rdfsDeleteEntry de prev dir now
  dotdot := rdfsDotdot
  emptyDir := rdfsEmptyDir

/-- The inode number of the entry that `rdfs_find_entry2` finds. -/
def lookupEntry (dir : Dir) (name : List UInt8) : Option ℕ :=
  (rdfsFindEntry2 dir name).map fun found => deField dir.mem found.1 .inode

/-- The directory has less than `limit` bytes, its records are in order and start with `.` and `..`,
and the names in use are different. -/
def Ordered (limit : ℕ) (dir : Dir) : Prop :=
  ∃ rs, dir.Rep rs ∧ (liveNames rs).Nodup ∧ Dots rs ∧ dir.inode.iSize < limit

variable {r : DirRec} {pre post : List DirRec} {de prev : ℕ}

theorem liveEnts_cons_of_live (h : r.ent.Live) (rs : List DirRec) :
    liveEnts (r :: rs) = r.ent :: liveEnts rs := by
  simp [liveEnts, h]

theorem FirstNamed.liveEnts_eq {name : List UInt8} {rs : List DirRec}
    (h : FirstNamed name rs pre r post) : liveEnts rs = liveEnts pre ++ r.ent :: liveEnts post := by
  rw [h.eq, liveEnts_append, liveEnts_cons_of_live h.named.1]

section rep

variable {dir : Dir} {rs : List DirRec} {name : List UInt8}

/-- `rdfs_find_entry2` finds the first record with the name. -/
theorem Dir.Rep.find_first (h : dir.Rep rs) (hf : FirstNamed name rs pre r post) :
    ∃ prev, rdfsFindEntry2 dir name = some (total pre, prev) ∧
      ∀ pre' p, pre = pre' ++ [p] → prev = total pre' := by
  obtain ⟨prev, hfind, hprev⟩ := hf.findRec 0 0
  rw [h.rdfsFindEntry2_eq]
  refine ⟨prev, by rw [hfind, Nat.zero_add], fun pre' p hpre => ?_⟩
  rw [hprev pre' p hpre, Nat.zero_add]

theorem Dir.Rep.find_none (h : dir.Rep rs) (hnot : name ∉ liveNames rs) :
    rdfsFindEntry2 dir name = none := by
  rw [h.rdfsFindEntry2_eq]
  exact findRec_eq_none fun r hr hn => hnot (mem_liveNames.mpr ⟨r, hr, hn⟩)

/-- The map of a directory is that of its entries in use. -/
theorem Dir.Rep.lookupEntry_eq (h : dir.Rep rs) (hnodup : (liveNames rs).Nodup) :
    lookupEntry dir = entryMap (liveEnts rs) := by
  funext name
  by_cases hmem : name ∈ liveNames rs
  · obtain ⟨pre, r, post, hf⟩ := exists_firstNamed (mem_liveNames.mp hmem)
    obtain ⟨prev, hfind, -⟩ := h.find_first hf
    have hholds := h.holds
    rw [hf.eq, holds_append] at hholds
    have hrec : HoldsRec dir.mem (0 + total pre) r := hholds.2.1
    rw [Nat.zero_add] at hrec
    unfold liveNames at hnodup
    rw [hf.liveEnts_eq] at hnodup ⊢
    rw [lookupEntry, hfind, map_some, hrec.inode, entryMap_middle hnodup, hf.named.2, update_self]
  · rw [lookupEntry, h.find_none hmem, entryMap_eq_none.mpr hmem]
    rfl

theorem lookupEntry_eq_none : lookupEntry dir name = none ↔ rdfsFindEntry2 dir name = none :=
  map_eq_none_iff

/-- The first record with a name that is found. -/
theorem Dir.Rep.exists_first (h : dir.Rep rs) (hfind : rdfsFindEntry2 dir name = some (de, prev)) :
    ∃ pre r post, FirstNamed name rs pre r post ∧ de = total pre ∧
      ∀ pre' p, pre = pre' ++ [p] → prev = total pre' := by
  have hmem : name ∈ liveNames rs := by
    by_contra hnot
    rw [h.find_none hnot] at hfind
    exact absurd hfind (by simp)
  obtain ⟨pre, r, post, hf⟩ := exists_firstNamed (mem_liveNames.mp hmem)
  obtain ⟨prev', hfind', hprev⟩ := h.find_first hf
  rw [hfind] at hfind'
  obtain ⟨rfl, rfl⟩ := Prod.mk.inj (some.inj hfind')
  exact ⟨pre, r, post, hf, rfl, hprev⟩

end rep

section laws

variable {dir : Dir} {limit : ℕ} {name : List UInt8}

/-- What `rdfs_set_link` does to the record between `pre` and `post`. -/
theorem Dir.Rep.map_setLink (h : dir.Rep (pre ++ r :: post))
    (hnodup : (liveNames (pre ++ r :: post)).Nodup) (hd : Dots (pre ++ r :: post))
    (hsize : dir.inode.iSize < limit) (hlive : r.ent.Live) (inode : NumberedInode)
    (updateTimes : Bool) (now : ℕ) :
    Ordered limit (rdfsSetLink dir (total pre) inode.1 updateTimes now) ∧
      lookupEntry (rdfsSetLink dir (total pre) inode.1 updateTimes now) =
        Function.update (lookupEntry dir) r.ent.name (some inode.1.iIno) := by
  have hrep := h.setLink inode.2.2 updateTimes now
  have hlive' : (r.relink inode.1 inode.2.2).ent.Live := Nat.pos_iff_ne_zero.mp inode.2.1
  have hnodup' : (liveNames (pre ++ r.relink inode.1 inode.2.2 :: post)).Nodup := by
    rw [liveNames_append, liveNames_cons_congr (iff_of_true hlive' hlive) rfl, ← liveNames_append]
    exact hnodup
  have hsize' : (rdfsSetLink dir (total pre) inode.1 updateTimes now).inode.iSize =
      dir.inode.iSize := by
    cases updateTimes <;> rfl
  refine ⟨⟨_, hrep, hnodup', hd.relink inode.2.1 inode.2.2, hsize' ▸ hsize⟩, ?_⟩
  rw [hrep.lookupEntry_eq hnodup', h.lookupEntry_eq hnodup]
  have hents : liveEnts (pre ++ r :: post) = liveEnts pre ++ r.ent :: liveEnts post := by
    rw [liveEnts_append, liveEnts_cons_of_live hlive]
  unfold liveNames at hnodup
  rw [hents] at hnodup
  rw [hents, liveEnts_append, liveEnts_cons_of_live hlive']
  exact entryMap_replace hnodup rfl

theorem Ordered.setLink (h : Ordered limit dir) (hfind : rdfsFindEntry2 dir name = some (de, prev))
    (inode : NumberedInode) (updateTimes : Bool) (now : ℕ) :
    Ordered limit (rdfsSetLink dir de inode.1 updateTimes now) ∧
      lookupEntry (rdfsSetLink dir de inode.1 updateTimes now) =
        Function.update (lookupEntry dir) name (some inode.1.iIno) := by
  obtain ⟨rs, hrep, hnodup, hd, hsize⟩ := h
  obtain ⟨pre, r, post, hf, rfl, -⟩ := hrep.exists_first hfind
  obtain rfl := hf.eq
  rw [← hf.named.2]
  exact hrep.map_setLink hnodup hd hsize hf.named.1 inode updateTimes now

/-- The second record is that of `..`. -/
theorem Ordered.dotdot (h : Ordered limit dir) (inode : NumberedInode) (updateTimes : Bool)
    (now : ℕ) : lookupEntry (rdfsSetLink dir (rdfsDotdot dir) inode.1 updateTimes now) =
      Function.update (lookupEntry dir) [46, 46] (some inode.1.iIno) := by
  obtain ⟨rs, hrep, hnodup, hd, hsize⟩ := h
  obtain ⟨d, dd, rest, rfl, -, -, hdd⟩ := id hd
  have hplace : rdfsDotdot dir = total [d] := by
    rw [rdfsDotdot, rdfsNextEntry, hrep.holds.1.recLen, total_cons, total_nil]
    omega
  have hrep' : dir.Rep ([d] ++ dd :: rest) := hrep
  rw [hplace, (hrep'.map_setLink hnodup hd hsize hdd.1 inode updateTimes now).2, hdd.2]

/-- An entry is added to a directory with room for another page. -/
theorem Ordered.add (h : Ordered limit dir) {inode : NumberedInode} {now : ℕ} {dir' : Dir}
    (hname : EntryName name) (hnew : lookupEntry dir name = none)
    (hadd : rdfsAddLink dir name inode.1 .entered now = (0, dir')) : Ordered (limit + 4096) dir' ∧
      lookupEntry dir' = Function.update (lookupEntry dir) name (some inode.1.iIno) := by
  obtain ⟨rs, hrep, hnodup, hd, hsize⟩ := h
  have hl : Linkable name inode.1 := ⟨hname.pos, hname.le, inode.2.1, inode.2.2⟩
  obtain ⟨rs', hrep', hadded, hsize'⟩ : ∃ rs', dir'.Rep rs' ∧ Added hl.ent rs rs' ∧
      dir'.inode.iSize ≤ dir.inode.iSize + 4096 := by
    have hsplit := passed_append_ahead name rs
    obtain ⟨d, heq, ⟨r, post, hroom, hahead, -, hr, -, hs⟩ | ⟨-, hr, -, hs⟩⟩ :=
      hrep.addLink_zero hl (fun hs => hs.1 rfl) (congrArg Prod.fst hadd)
    all_goals obtain rfl : dir' = d := congrArg Prod.snd (hadd.symm.trans heq)
    · rw [hahead] at hsplit
      exact ⟨_, hr, Added.place hsplit.symm hroom, by omega⟩
    · exact ⟨_, hr, Added.page, by omega⟩
  have hperm := hadded.liveEnts_perm hl.ent_live
  have hnot : name ∉ liveNames rs := by
    rw [hrep.lookupEntry_eq hnodup] at hnew
    exact entryMap_eq_none.mp hnew
  have hnodup' : (liveNames rs').Nodup :=
    (hperm.map DirEnt.name).nodup_iff.mpr (nodup_cons.mpr ⟨hnot, hnodup⟩)
  refine ⟨⟨rs', hrep', hnodup', hd.added hadded, by omega⟩, ?_⟩
  rw [hrep'.lookupEntry_eq hnodup', hrep.lookupEntry_eq hnodup, entryMap_perm hperm hnodup',
    entryMap_cons]
  rfl

/-- An entry is deleted from a directory of less than 64 KB. -/
theorem Ordered.delete (h : Ordered (2 ^ 16) dir) (hname : EntryName name)
    (hfind : rdfsFindEntry2 dir name = some (de, prev)) (now : ℕ) :
    lookupEntry (rdfsDeleteEntry de prev dir now).2 =
      Function.update (lookupEntry dir) name none := by
  obtain ⟨rs, hrep, hnodup, hd, hsize⟩ := h
  obtain ⟨pre, r, post, hf, rfl, hprev⟩ := hrep.exists_first hfind
  obtain ⟨d, dd, pre', hpre, -⟩ := hd.pre_eq hf ⟨hname.ne_dot, hname.ne_dotdot⟩
  obtain ⟨front, p, rfl⟩ : ∃ front p, pre = front ++ [p] :=
    ⟨_, _, (dropLast_concat_getLast (by rw [hpre]; exact cons_ne_nil _ _)).symm⟩
  have hents := hf.liveEnts_eq
  obtain rfl := hf.eq
  obtain rfl := hprev front p rfl
  rw [append_assoc, singleton_append] at hrep
  have hsum : p.recLen + r.recLen < 2 ^ 16 := by
    have htotal := hrep.size
    rw [total_append, total_cons, total_cons] at htotal
    omega
  obtain ⟨dir', hdel, hinode, -, hmerged, hoff⟩ := hrep.deleteEntry now
  have hrep' := hrep.merge hinode (hmerged hsum) hoff
  have hlive : liveEnts (front ++ p.merge r hsum :: post) =
      liveEnts (front ++ [p]) ++ liveEnts post := by
    simp only [liveEnts, DirRec.merge, map_append, map_cons, filter_append, filter_cons,
      append_assoc]
    split <;> rfl
  have hplace : total (front ++ [p]) = total front + p.recLen := by simp
  rw [hplace, hdel]
  rw [append_assoc, singleton_append] at hnodup hents
  rw [hrep.lookupEntry_eq hnodup, hents]
  unfold liveNames at hnodup
  rw [hents] at hnodup
  rw [hrep'.lookupEntry_eq (by
    unfold liveNames
    rw [hlive]
    exact hnodup.sublist ((sublist_cons_self _ _).append_left _ |>.map _)), hlive,
    entryMap_remove hnodup, hf.named.2]

end laws

theorem ordered_freshDir {inode parent : Inode} (hino : le32 inode.iIno ≠ 0)
    (hparent : le32 parent.iIno ≠ 0) {limit : ℕ} (hlimit : 4096 < limit) :
    Ordered limit (freshDir inode parent) := by
  refine ⟨_, rep_freshDir inode parent, ?_, dots_freshRecs hino hparent, hlimit⟩
  rw [liveNames_freshRecs hino hparent]
  decide

/-- The functions of `dir.c` act as maps on small directories whose records are in order. -/
theorem actsAsMap_rdfsPrims (now : ℕ) :
    ActsAsMap (rdfsPrims .entered now) (fun inode => inode.1.iIno) lookupEntry
      (Ordered (2 ^ 16 - 4096)) (Ordered (2 ^ 16)) where
  good := fun ⟨rs, hrep, hnodup, hd, hsize⟩ => ⟨rs, hrep, hnodup, hd, by omega⟩
  find_eq_none _ := lookupEntry_eq_none.symm
  setLink h hfind i updateTimes := h.setLink hfind i updateTimes now
  dotdot h i updateTimes := h.dotdot i updateTimes now
  add h hname hnew hadd := h.add hname hnew hadd
  add_fail := by
    rintro d d' name i err ⟨rs, hrep, -⟩ hadd herr
    have hfail : (rdfsAddLink d name i.1 .entered now).2 = d := by
      refine hrep.addLink_fail ?_ fun hs => hs.1 rfl
      rw [show rdfsAddLink d name i.1 .entered now = (err, d') from hadd]
      exact herr
    have hd : d' = d := (congrArg Prod.snd hadd).symm.trans hfail
    rw [hd]
  delete h hname hfind := h.delete hname hfind now

end Rdfs
