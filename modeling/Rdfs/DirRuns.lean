import Mathlib.Data.Finset.Basic
import Rdfs.AddLink
import Rdfs.Trace

/-!
# Histories of a directory

`rdfs_find_entry2` finds the first record with a name and the record before it
(`rdfsFindEntry2_spec`), `rdfs_delete_entry` adds the length of a record to that of the record
before it, and `rdfs_set_link` gives a record another inode. `DirOp` are the operations on the
entries of one directory, and `DirState` goes along with the names that have been added and not
deleted since.

The length of a record has 16 bits, so a record can only take in another one while the sum stays
below `2 ^ 16`. And the search of `rdfs_add_link` stops at the first record with room, whether or
not the name is in use behind it (`eexist_iff`). In every run whose steps keep clear of both, and
always get the page they need, the records are in order and the names in use are the ones expected
(`dirRun_spec`).
-/

namespace Rdfs

open List Option

/-! ## Finding an entry -/

/-- `r` is the first record in use with the name, between `pre` and `post`. -/
structure FirstNamed (name : List UInt8) (rs pre : List DirRec) (r : DirRec)
    (post : List DirRec) : Prop where
  eq : rs = pre ++ r :: post
  named : r.ent.Named name
  first : ∀ r' ∈ pre, ¬r'.ent.Named name

variable {name : List UInt8} {rs post : List DirRec} {dir : Dir} {r : DirRec} {now : ℕ}
  {inode : Inode}

theorem exists_firstNamed :
    ∀ {rs : List DirRec}, (∃ r ∈ rs, r.ent.Named name) → ∃ pre r post, FirstNamed name rs pre r post
  | [], h => absurd h (by simp)
  | r :: rs, h => by
    by_cases hr : r.ent.Named name
    · exact ⟨[], r, rs, rfl, hr, by simp⟩
    · have htail : ∃ r ∈ rs, r.ent.Named name := by simpa [hr] using h
      obtain ⟨pre, r', post, heq, hn, hf⟩ := exists_firstNamed htail
      exact ⟨r :: pre, r', post, by rw [heq]; rfl, hn, by simpa [hr] using hf⟩

theorem named_iff_live : (∃ r ∈ rs, r.ent.Named name) ↔ ∃ e ∈ liveEnts rs, e.name = name := by
  constructor
  · rintro ⟨r, hr, hl, hn⟩
    exact ⟨r.ent, mem_liveEnts.2 ⟨hl, r, hr, rfl⟩, hn⟩
  · rintro ⟨e, he, hn⟩
    obtain ⟨hl, r, hr, rfl⟩ := mem_liveEnts.1 he
    exact ⟨r, hr, hl, hn⟩

/-- The first record with the name and the record before it, by their places. -/
def findRec (name : List UInt8) : ℕ → ℕ → List DirRec → Option (ℕ × ℕ)
  | _, _, [] => none
  | prev, a, r :: rs =>
    if r.ent.Named name then some (a, prev) else findRec name a (a + r.recLen) rs

theorem rdfsFindLoop_eq {m : Mem} {stop : ℕ} :
    ∀ {rs : List DirRec} {prev a : ℕ}, Holds m a rs → a + total rs = stop →
      rdfsFindLoop m stop name prev a = findRec name prev a rs
  | [], prev, a, _, ha => by
    rw [rdfsFindLoop, if_neg (by rw [total_nil] at ha; omega)]
    rfl
  | r :: rs, prev, a, ⟨hr, h⟩, ha => by
    have hpos := r.recLen_pos
    rw [total_cons] at ha
    rw [rdfsFindLoop, if_pos (by omega), hr.recLen, if_neg (by omega), findRec, rdfsNextEntry,
      hr.recLen, rdfsFindLoop_eq h (by omega)]
    exact if_congr hr.rdfsMatch_iff rfl rfl

theorem Dir.Rep.rdfsFindEntry2_eq (h : dir.Rep rs) (name : List UInt8) :
    rdfsFindEntry2 dir name = findRec name 0 0 rs :=
  rdfsFindLoop_eq h.holds (by rw [Nat.zero_add, h.size])

theorem findRec_eq_none : ∀ {rs : List DirRec} {prev a : ℕ}, (∀ r ∈ rs, ¬r.ent.Named name) →
      findRec name prev a rs = none
  | [], _, _, _ => rfl
  | r :: rs, prev, a, h => by
    rw [findRec, if_neg (h r (by simp)), findRec_eq_none fun r' hr' => h r' (by simp [hr'])]

theorem FirstNamed.findRec : ∀ {pre rs : List DirRec} (prev a : ℕ), FirstNamed name rs pre r post →
      ∃ prev', findRec name prev a rs = some (a + total pre, prev') ∧
        ∀ pre' p, pre = pre' ++ [p] → prev' = a + total pre'
  | [], _, prev, a, h => by
    refine ⟨prev, ?_, by simp⟩
    rw [h.eq, nil_append, Rdfs.findRec, if_pos h.named]
    rfl
  | q :: pre, _, prev, a, h => by
    have htail : FirstNamed name (pre ++ r :: post) pre r post :=
      ⟨rfl, h.named, fun r' hr' => h.first r' (by simp [hr'])⟩
    obtain ⟨prev', heq, hprev⟩ := htail.findRec a (a + q.recLen)
    refine ⟨prev', ?_, fun pre' p hp => ?_⟩
    · rw [h.eq, cons_append, Rdfs.findRec, if_neg (h.first q (by simp)), heq, total_cons,
        Nat.add_assoc]
    · cases pre' with
      | nil =>
        obtain ⟨rfl, rfl⟩ := cons.inj hp
        rw [nil_append, Rdfs.findRec, if_pos h.named] at heq
        simp only [some.injEq, Prod.mk.injEq] at heq
        simpa using heq.2.symm
      | cons q' pre' =>
        obtain ⟨rfl, hpre⟩ := cons.inj hp
        rw [hprev pre' p hpre, total_cons, Nat.add_assoc]

/-! ## Deleting an entry -/

/-- The record `p` with the bytes of the record behind it. -/
def DirRec.merge (p r : DirRec) (h : p.recLen + r.recLen < 2 ^ 16) : DirRec where
  ent := p.ent
  recLen := p.recLen + r.recLen
  four_dvd := Nat.dvd_add p.four_dvd r.four_dvd
  fits := Nat.le_trans p.fits (Nat.le_add_right _ _)
  recLen_lt := h

section delete

variable {dir : Dir} {pre post : List DirRec} {p r : DirRec}

section

variable (h : dir.Rep (pre ++ p :: r :: post))
include h

/-- The two records in memory. -/
theorem Dir.Rep.holds_pair :
    HoldsRec dir.mem (total pre) p ∧ HoldsRec dir.mem (total pre + p.recLen) r := by
  obtain ⟨-, hp, hr, -⟩ := holds_append.1 h.holds
  rw [Nat.zero_add] at hp hr
  exact ⟨hp, hr⟩

/-- What `rdfs_delete_entry` writes : the inode number of the record, and the length of the record
before it, both in the bytes of the two records. -/
theorem Dir.Rep.deleteEntry (now : ℕ) :
    ∃ dir', rdfsDeleteEntry (total pre + p.recLen) (total pre) dir now = (0, dir') ∧
      dir'.inode = dir.inode.touch now ∧
      deField dir'.mem (total pre) .recLen = (p.recLen + r.recLen) % 2 ^ 16 ∧
      (∀ hsum : p.recLen + r.recLen < 2 ^ 16, HoldsRec dir'.mem (total pre) (p.merge r hsum)) ∧
      Mem.SameOff dir.mem dir'.mem (p.recLen + r.recLen) (total pre) := by
  obtain ⟨hp, hr⟩ := h.holds_pair
  have hpos := r.recLen_pos
  have hple := p.name_le
  have hrle := r.name_le
  set m1 := putDe dir.mem (total pre + p.recLen) .inode 0 with hm1
  have h1 : Mem.SameOff dir.mem m1 dirNameOffset (total pre + p.recLen) := sameOff_putDe _ _ _ _
  have hp1 : HoldsRec m1 (total pre) p := hp.congr (h1.sameOn (by omega))
  set m2 := putDe m1 (total pre) .recLen ((p.recLen + r.recLen) % 2 ^ 16) with hm2
  have h2 : Mem.SameOff m1 m2 dirNameOffset (total pre) := sameOff_putDe _ _ _ _
  have hlen : deField m2 (total pre) .recLen = (p.recLen + r.recLen) % 2 ^ 16 := by
    rw [hm2, deField_putDe]
    exact Nat.mod_mod _ _
  refine ⟨⟨dir.inode.touch now, m2⟩, ?_, rfl, hlen, fun hsum => ?_, ?_⟩
  · rw [rdfsDeleteEntry, hr.recLen, if_neg (by omega)]
    simp only
    rw [← hm1, hp1.recLen]
  · refine ⟨?_, hlen.trans (Nat.mod_eq_of_lt hsum), ?_, ?_, ?_⟩
    · exact (deField_putDe_of_ne (by decide) _ _ _).trans hp1.inode
    · exact (deField_putDe_of_ne (by decide) _ _ _).trans hp1.nameLen
    · exact (deField_putDe_of_ne (by decide) _ _ _).trans hp1.fileType
    · exact (bytes_putDe _ _ _ _ _).trans hp1.name
  · exact (h1.mono (by omega) (by omega)).trans (h2.mono (by omega) (by omega))

theorem Dir.Rep.merge {dir' : Dir} (hinode : dir'.inode = dir.inode.touch now)
    {hsum : p.recLen + r.recLen < 2 ^ 16} (hrec : HoldsRec dir'.mem (total pre) (p.merge r hsum))
    (hoff : Mem.SameOff dir.mem dir'.mem (p.recLen + r.recLen) (total pre)) :
    dir'.Rep (pre ++ p.merge r hsum :: post) := by
  have hrep : dir.Rep (pre ++ [p, r] ++ post) := by simpa using h
  have hmerge : dir'.Rep (pre ++ [p.merge r hsum] ++ post) :=
    hrep.splice (by rw [hinode]; rfl) (by rw [hinode]; rfl) (by rw [hinode]; rfl) rfl
      ⟨hrec, trivial⟩ hoff
  simpa using hmerge

end

end delete

/-! ## What is found -/

theorem Dir.Rep.exists_firstNamed_of_find (h : dir.Rep rs) {nde upNde : ℕ}
    (hfind : rdfsFindEntry2 dir name = some (nde, upNde)) :
    ∃ pre r post, FirstNamed name rs pre r post ∧ nde = total pre ∧
      ∀ pre' p, pre = pre' ++ [p] → upNde = total pre' := by
  rw [h.rdfsFindEntry2_eq] at hfind
  have hnamed : ∃ r ∈ rs, r.ent.Named name := by
    by_contra hnone
    rw [findRec_eq_none fun r hr hn => hnone ⟨r, hr, hn⟩] at hfind
    exact absurd hfind (by simp)
  obtain ⟨pre, r, post, hfirst⟩ := exists_firstNamed hnamed
  obtain ⟨prev, heq, hprev⟩ := hfirst.findRec 0 0
  simp only [hfind, Nat.zero_add, some.injEq, Prod.mk.injEq] at heq hprev
  exact ⟨pre, r, post, hfirst, heq.1, fun pre' p hp => heq.2.trans (hprev pre' p hp)⟩

/-- `rdfs_find_entry2` finds a record exactly when an entry in use has the name. The record is the
first one with it. When there is a record before it, that is `*up_nde` : its length leads to the
record found, and `rdfs_delete_entry` merges the two. -/
theorem rdfsFindEntry2_spec {dir : Dir} {rs : List DirRec} (h : dir.Rep rs) (name : List UInt8) :
    ((rdfsFindEntry2 dir name).isSome = true ↔ ∃ e ∈ liveEnts rs, e.name = name) ∧
    ∀ nde upNde, rdfsFindEntry2 dir name = some (nde, upNde) →
      ∃ pre r post, FirstNamed name rs pre r post ∧ nde = total pre ∧ HoldsRec dir.mem nde r ∧
        ∀ pre' p, pre = pre' ++ [p] →
          upNde = total pre' ∧ HoldsRec dir.mem upNde p ∧ rdfsNextEntry dir.mem upNde = nde ∧
          ∀ now, ∃ dir', rdfsDeleteEntry nde upNde dir now = (0, dir') ∧
            deField dir'.mem upNde .recLen = (p.recLen + r.recLen) % 2 ^ 16 ∧
            ∀ hsum : p.recLen + r.recLen < 2 ^ 16, dir'.Rep (pre' ++ p.merge r hsum :: post) := by
  refine ⟨⟨fun hsome => ?_, fun hlive => ?_⟩, fun nde upNde hfind => ?_⟩
  · obtain ⟨⟨nde, upNde⟩, hfind⟩ := isSome_iff_exists.1 hsome
    obtain ⟨pre, r, post, hfirst, -⟩ := h.exists_firstNamed_of_find hfind
    exact named_iff_live.1 ⟨r, by simp [hfirst.eq], hfirst.named⟩
  · obtain ⟨pre, r, post, hfirst⟩ := exists_firstNamed (named_iff_live.2 hlive)
    obtain ⟨prev, heq, -⟩ := hfirst.findRec 0 0
    rw [h.rdfsFindEntry2_eq, heq]
    rfl
  · obtain ⟨pre, r, post, hfirst, rfl, hprev⟩ := h.exists_firstNamed_of_find hfind
    have hrs := h
    rw [hfirst.eq] at hrs
    obtain ⟨-, hr, -⟩ := holds_append.1 hrs.holds
    rw [Nat.zero_add] at hr
    refine ⟨pre, r, post, hfirst, rfl, hr, ?_⟩
    rintro pre' p rfl
    obtain rfl := hprev pre' p rfl
    have hpair : dir.Rep (pre' ++ p :: r :: post) := by simpa using hrs
    have htotal : total (pre' ++ [p]) = total pre' + p.recLen := by
      rw [total_append, total_cons, total_nil, Nat.add_zero]
    have hp := hpair.holds_pair.1
    rw [htotal]
    refine ⟨rfl, hp, by rw [rdfsNextEntry, hp.recLen], fun now => ?_⟩
    obtain ⟨dir', hdel, hinode, hlen, hrec, hoff⟩ := hpair.deleteEntry now
    exact ⟨dir', hdel, hlen, fun hsum => hpair.merge hinode (hrec hsum) hoff⟩

/-- `..` is found in a directory of one page. -/
theorem rdfsFindEntry2_spec_denseDir : (denseDir 1).Rep (denseRecs 1) ∧
    (rdfsFindEntry2 (denseDir 1) (denseName 1)).isSome = true := by
  have hmem : denseRec 1 ∈ denseRecs 1 := List.mem_map_of_mem (mem_range.2 (by decide))
  have hlive : (denseRec 1).ent ∈ liveEnts (denseRecs 1) :=
    mem_liveEnts.2 ⟨by decide, denseRec 1, hmem, rfl⟩
  exact ⟨rep_denseDir 1, (rdfsFindEntry2_spec (rep_denseDir 1) (denseName 1)).1.2 ⟨_, hlive, rfl⟩⟩

/-! ## Giving an entry another inode -/

/-- The record `r` with the number and the type of another inode. -/
def DirRec.relink (r : DirRec) (inode : Inode) (h : inode.iIno < 2 ^ 64) : DirRec where
  ent := {
    inode := inode.iIno
    name := r.ent.name
    fileType := inode.deType
    inode_lt := h
    name_lt := r.ent.name_lt
    fileType_lt := inode.deType_lt_byte }
  recLen := r.recLen
  four_dvd := r.four_dvd
  fits := r.fits
  recLen_lt := r.recLen_lt

/-- What `rdfs_set_link` does to a record of the directory. -/
theorem Dir.Rep.setLink {pre : List DirRec} (h : dir.Rep (pre ++ r :: post))
    (hino : inode.iIno < 2 ^ 64) (updateTimes : Bool) (now : ℕ) :
    (rdfsSetLink dir (total pre) inode updateTimes now).Rep
      (pre ++ r.relink inode hino :: post) := by
  have hr : HoldsRec dir.mem (total pre) r := by
    have := (holds_append.1 h.holds).2.1
    rwa [Nat.zero_add] at this
  have htype := inode.deType_lt
  have hle := r.name_le
  have hrep : dir.Rep (pre ++ [r] ++ post) := by simpa using h
  have hinode : ∀ f : Inode → ℕ, f (dir.inode.touch now) = f dir.inode →
      f { dir.inode with iFlags := (dir.inode.touch now).iFlags } = f dir.inode →
      f (rdfsSetLink dir (total pre) inode updateTimes now).inode = f dir.inode := by
    intro f h1 h2
    unfold rdfsSetLink
    cases updateTimes
    exacts [h2, h1]
  suffices hlink : (rdfsSetLink dir (total pre) inode updateTimes now).Rep
      (pre ++ [r.relink inode hino] ++ post) by simpa using hlink
  refine hrep.splice (hinode _ rfl rfl) (hinode _ rfl rfl) (hinode _ rfl rfl) rfl
    ⟨⟨?_, ?_, ?_, ?_, ?_⟩, trivial⟩ ?_
  · refine (deField_putDe_of_ne (by decide) _ _ _).trans ?_
    rw [deField_putDe]
    exact Nat.mod_eq_of_lt hino
  · exact ((deField_putDe_of_ne (by decide) _ _ _).trans
      (deField_putDe_of_ne (by decide) _ _ _)).trans hr.recLen
  · exact ((deField_putDe_of_ne (by decide) _ _ _).trans
      (deField_putDe_of_ne (by decide) _ _ _)).trans hr.nameLen
  · refine (deField_putDe _ _ _ _).trans ?_
    exact Nat.mod_eq_of_lt (Nat.lt_trans htype (by decide))
  · exact ((bytes_putDe _ _ _ _ _).trans (bytes_putDe _ _ _ _ _)).trans hr.name
  · have hput : ∀ (m : Mem) (f : DirField) (v : ℕ),
        Mem.SameOff m (putDe m (total pre) f v) r.recLen (total pre) := fun m f v =>
      (sameOff_putDe m _ f v).mono (Nat.le_refl _) (by omega)
    exact (hput _ _ _).trans (hput _ _ _)

/-! ## Names that are in use already -/

/-- The search of `rdfs_add_link` gets to the first record with the name : no record in front of it
has room, and it is within the windows. -/
def Notices (name : List UInt8) (pages : ℕ) (rs : List DirRec) : Prop :=
  ∀ pre r post, FirstNamed name rs pre r post →
    (∀ r' ∈ pre, ¬r'.Room (rdfsDirRecLen name.length)) ∧ Reaches name pages pre

section notices

variable {dir : Dir} {rs pre post : List DirRec} {r : DirRec} {name : List UInt8} {inode : Inode}
  {alloc : AllocOutcome} {now : ℕ}

theorem FirstNamed.pre_eq (h : FirstNamed name rs pre r post) :
    pre = rs.takeWhile fun r => ¬r.ent.Named name := by
  have hall : ∀ r' ∈ pre, decide (¬r'.ent.Named name) = true := fun r' hr' =>
    decide_eq_true (h.first r' hr')
  rw [h.eq, takeWhile_append_of_pos hall, takeWhile_cons_of_neg (by simp [h.named]), append_nil]

theorem FirstNamed.passed_eq (h : FirstNamed name rs pre r post)
    (hroom : ∀ r' ∈ pre, ¬r'.Room (rdfsDirRecLen name.length)) :
    passed name rs = pre ∧ ahead name rs = r :: post := by
  obtain ⟨hp, ha⟩ := passed_append (fun r' hr' => not_or.2 ⟨h.first r' hr', hroom r' hr'⟩)
    (r :: post)
  obtain ⟨hp', ha'⟩ := passed_cons_of_stops (Or.inl h.named : r.Stops name) post
  rw [h.eq, hp, ha, hp', ha', append_nil]
  exact ⟨rfl, rfl⟩

theorem not_stops_of_mem_passed {r' : DirRec} (h : r' ∈ passed name rs) : ¬r'.Stops name := by
  simpa using mem_takeWhile_imp h

/-- The search stops at a record with the name exactly if that is the first one. -/
theorem firstNamed_of_ahead (hahead : ahead name rs = r :: post) (hn : r.ent.Named name) :
    FirstNamed name rs (passed name rs) r post where
  eq := by rw [← hahead, passed_append_ahead]
  named := hn
  first _ hr' hn' := not_stops_of_mem_passed hr' (Or.inl hn')

theorem Dir.Rep.addLink_eexist_iff (h : dir.Rep rs) :
    rdfsAddLink dir name inode alloc now = (-eexist, dir) ↔
      Reaches name dir.inode.iBlocks (passed name rs) ∧
        ∃ r post, ahead name rs = r :: post ∧ r.ent.Named name := by
  generalize hp : rdfsAddLink dir name inode alloc now = p
  cases h.addLinkEnd hp with
  | lost hm =>
    refine iff_of_false (fun heq => ?_) fun h => hm h.1
    exact absurd (congrArg Prod.fst heq) (by decide : -einval ≠ -eexist)
  | tooLarge hahead =>
    refine iff_of_false (fun heq => ?_) (by simp [hahead])
    exact absurd (congrArg Prod.fst heq) (by decide : -eio ≠ -eexist)
  | noPage hfail hm hahead =>
    have halloc := AllocOutcome.ret_eq hfail
    refine iff_of_false (fun heq => ?_) (by simp [hahead])
    exact absurd (halloc.symm.trans (congrArg Prod.fst heq)) (by decide : (-1 : ℤ) ≠ -eexist)
  | newPage _ _ hahead =>
    refine iff_of_false (fun heq => ?_) (by simp [hahead])
    exact absurd (congrArg Prod.fst heq) (by decide : (0 : ℤ) ≠ -eexist)
  | inUse hm hahead hn => exact iff_of_true rfl ⟨hm, _, _, hahead, hn⟩
  | room hahead hn =>
    refine iff_of_false (fun heq => ?_) ?_
    · exact absurd (congrArg Prod.fst heq) (by decide : (0 : ℤ) ≠ -eexist)
    · rintro ⟨-, r', post', heq, hn'⟩
      exact hn ((cons.inj (hahead.symm.trans heq)).1 ▸ hn')

/-- A name in use is refused exactly if the search gets to it. -/
theorem Dir.Rep.addLink_eexist_iff_notices (h : dir.Rep rs) :
    (rdfsAddLink dir name inode alloc now = (-eexist, dir) ↔ ∃ e ∈ liveEnts rs, e.name = name) ↔
      Notices name dir.inode.iBlocks rs := by
  rw [h.addLink_eexist_iff, ← named_iff_live]
  constructor
  · intro hiff pre r post hfirst
    obtain ⟨hm, r', post', hahead, hn⟩ := hiff.2 ⟨r, by rw [hfirst.eq]; simp, hfirst.named⟩
    have hpre : pre = passed name rs :=
      hfirst.pre_eq.trans (firstNamed_of_ahead hahead hn).pre_eq.symm
    rw [hpre]
    exact ⟨fun r'' hr'' hroom => not_stops_of_mem_passed hr'' (Or.inr hroom), hm⟩
  · intro hnotices
    constructor
    · rintro ⟨-, r, post, hahead, hn⟩
      exact ⟨r, by rw [(firstNamed_of_ahead hahead hn).eq]; simp, hn⟩
    · intro hlive
      obtain ⟨pre, r, post, hfirst⟩ := exists_firstNamed hlive
      obtain ⟨hroom, hm⟩ := hnotices pre r post hfirst
      obtain ⟨hpassed, hahead⟩ := hfirst.passed_eq hroom
      rw [hpassed]
      exact ⟨hm, r, post, hahead, hfirst.named⟩

end notices

/-! ## Operations -/

/-- The names in use, in order. -/
def liveNames (rs : List DirRec) : List (List UInt8) := (liveEnts rs).map DirEnt.name

@[simp] theorem liveNames_append (rs rs' : List DirRec) :
    liveNames (rs ++ rs') = liveNames rs ++ liveNames rs' := by
  simp [liveNames]

theorem mem_liveNames : name ∈ liveNames rs ↔ ∃ r ∈ rs, r.ent.Named name := by
  rw [named_iff_live, liveNames, List.mem_map]

theorem liveNames_cons_of_live (h : r.ent.Live) (rs : List DirRec) :
    liveNames (r :: rs) = r.ent.name :: liveNames rs := by
  simp [liveNames, liveEnts, h]

theorem liveNames_cons_congr {r' : DirRec} (hl : r.ent.Live ↔ r'.ent.Live)
    (hn : r.ent.name = r'.ent.name) (rs : List DirRec) :
    liveNames (r :: rs) = liveNames (r' :: rs) := by
  by_cases h : r.ent.Live
  · rw [liveNames_cons_of_live h, liveNames_cons_of_live (hl.1 h), hn]
  · have h' : ¬r'.ent.Live := fun h' => h (hl.2 h')
    simp [liveNames, liveEnts, h, h']

/-- The operations on the entries of a directory. A name is looked up before its entry is deleted or
given another inode. -/
inductive DirOp
  | add (name : List UInt8) (inode : Inode) (alloc : AllocOutcome) (now : ℕ)
  | delete (name : List UInt8) (now : ℕ)
  | setLink (name : List UInt8) (inode : Inode) (updateTimes : Bool) (now : ℕ)

/-- A directory, and the names that have been added to it and not deleted since. -/
structure DirState where
  dir : Dir
  names : Finset (List UInt8)

namespace DirState

def step (s : DirState) : DirOp → DirState
  | .add name inode alloc now =>
    let r := rdfsAddLink s.dir name inode alloc now
    ⟨r.2, if r.1 = 0 then insert name s.names else s.names⟩
  | .delete name now =>
    match rdfsFindEntry2 s.dir name with
    | none => s
    | some (de, prev) =>
      let r := rdfsDeleteEntry de prev s.dir now
      ⟨r.2, if r.1 = 0 then s.names.erase name else s.names⟩
  | .setLink name inode updateTimes now =>
    match rdfsFindEntry2 s.dir name with
    | none => s
    | some (de, _) => { s with dir := rdfsSetLink s.dir de inode updateTimes now }

end DirState

namespace DirOp

/-- The names and inodes are such as the file system has. -/
def Valid : DirOp → Prop
  | add name inode _ _ => Linkable name inode
  | delete _ _ => True
  | setLink _ inode _ _ => 0 < inode.iIno ∧ inode.iIno < 2 ^ 64

/-- The step stays clear of the limits of the code : a name in use is noticed, a page that is needed
is to be had, and a record is not taken in by one that gets too long. -/
def Safe (dir : Dir) : DirOp → Prop
  | add name _ alloc _ => ∀ rs, dir.Rep rs →
    Notices name dir.inode.iBlocks rs ∧ ¬Starved dir rs name alloc
  | delete name _ => ∀ rs, dir.Rep rs → ∀ pre p r post, FirstNamed name rs (pre ++ [p]) r post →
    p.recLen + r.recLen < 2 ^ 16
  | setLink _ _ _ _ => True

/-- The first record, which has none before it, is not deleted. -/
def NotFirst (dir : Dir) : DirOp → Prop
  | delete name _ => ∀ rs, dir.Rep rs → ∀ r post, ¬FirstNamed name rs [] r post
  | _ => True

end DirOp

/-- The records of a directory, with different names, which are the ones expected. -/
structure DirInv (s : DirState) (rs : List DirRec) : Prop where
  rep : s.dir.Rep rs
  nodup : (liveNames rs).Nodup
  names : s.names = (liveNames rs).toFinset

/-- In a directory of less than 64 KB no record gets too long. -/
theorem safe_delete (h : dir.inode.iSize < 2 ^ 16) : (DirOp.delete name now).Safe dir := by
  intro rs hrep pre p r post hf
  have htotal := hrep.size
  rw [hf.eq] at htotal
  simp only [total_append, total_cons] at htotal
  omega

section steps

variable {s : DirState} {rs : List DirRec}

/-- An entry is added, or nothing changes. -/
theorem DirInv.add (h : DirInv s rs) {alloc : AllocOutcome} (hl : Linkable name inode)
    (hsafe : (DirOp.add name inode alloc now).Safe s.dir) :
    ∃ rs', DirInv (s.step (.add name inode alloc now)) rs' ∧ (rs' = rs ∨
      Added hl.ent rs rs' ∧ ∀ r ∈ rs, ¬r.ent.Named name) := by
  obtain ⟨hnotices, hfed⟩ := hsafe rs h.rep
  by_cases hret : (rdfsAddLink s.dir name inode alloc now).1 = 0
  · -- a call that succeeds is not one that is refused
    have hnew : ∀ r ∈ rs, ¬r.ent.Named name := by
      intro r hr hn
      have hex : rdfsAddLink s.dir name inode alloc now = (-eexist, s.dir) :=
        (h.rep.addLink_eexist_iff_notices.2 hnotices).2 (named_iff_live.1 ⟨r, hr, hn⟩)
      rw [hex] at hret
      exact absurd hret (by decide : -eexist ≠ 0)
    have hnotMem : name ∉ liveNames rs := fun hmem => by
      obtain ⟨r, hr, hn⟩ := mem_liveNames.1 hmem
      exact hnew r hr hn
    obtain ⟨rs', hadded, hrep⟩ : ∃ rs', Added hl.ent rs rs' ∧
        (rdfsAddLink s.dir name inode alloc now).2.Rep rs' := by
      have hsplit := passed_append_ahead name rs
      obtain ⟨dir', heq, ⟨r, post, hroom, hahead, -, hrep, -⟩ | ⟨-, hrep, -⟩⟩ :=
        h.rep.addLink_zero hl hfed hret
      all_goals rw [heq]
      · rw [hahead] at hsplit
        exact ⟨_, .place hsplit.symm hroom, hrep⟩
      · exact ⟨_, .page, hrep⟩
    have hperm : (liveNames rs').Perm (name :: liveNames rs) :=
      (hadded.liveEnts_perm hl.ent_live).map DirEnt.name
    refine ⟨rs', ⟨hrep, ?_, ?_⟩, Or.inr ⟨hadded, hnew⟩⟩
    · exact hperm.nodup_iff.2 (nodup_cons.2 ⟨hnotMem, h.nodup⟩)
    · rw [toFinset_eq_of_perm _ _ hperm, toFinset_cons, ← h.names]
      exact if_pos hret
  · refine ⟨rs, ⟨?_, h.nodup, ?_⟩, Or.inl rfl⟩
    · show (rdfsAddLink s.dir name inode alloc now).2.Rep rs
      rw [h.rep.addLink_fail hret hfed]
      exact h.rep
    · exact (if_neg hret).trans h.names

/-- What a deletion does that finds a record behind another one. -/
theorem Dir.Rep.step_delete (h : s.dir.Rep rs) {pre : List DirRec} {p : DirRec}
    (hf : FirstNamed name rs (pre ++ [p]) r post) (now : ℕ) :
    ∃ dir', s.step (.delete name now) = ⟨dir', s.names.erase name⟩ ∧
      deField dir'.mem (total pre) .recLen = (p.recLen + r.recLen) % 2 ^ 16 ∧
      (∀ hsum, dir'.Rep (pre ++ p.merge r hsum :: post)) ∧ dir'.inode = s.dir.inode.touch now ∧
      Mem.SameOff s.dir.mem dir'.mem (p.recLen + r.recLen) (total pre) := by
  have heq : rs = pre ++ p :: r :: post := by rw [hf.eq]; simp
  have hrep : s.dir.Rep (pre ++ p :: r :: post) := heq ▸ h
  obtain ⟨prev, hfind, hprev⟩ := hf.findRec 0 0
  obtain ⟨dir', hdel, hinode, hlen, hrec, hoff⟩ := hrep.deleteEntry now
  rw [hprev pre p rfl, total_append, Nat.zero_add, Nat.zero_add, total_cons, total_nil,
    Nat.add_zero, ← h.rdfsFindEntry2_eq] at hfind
  refine ⟨dir', ?_, hlen, fun hsum => hrep.merge hinode (hrec hsum) hoff, hinode, hoff⟩
  simp only [DirState.step, hfind, hdel, if_pos]

/-- An entry is deleted and its record taken in by the one before it, or nothing changes. -/
theorem DirInv.delete (h : DirInv s rs) (hsafe : (DirOp.delete name now).Safe s.dir)
    (hfirst : ∀ r post, ¬FirstNamed name rs [] r post) :
    ∃ rs', DirInv (s.step (.delete name now)) rs' ∧ (rs' = rs ∨
      ∃ pre p r post, ∃ hsum, FirstNamed name rs (pre ++ [p]) r post ∧
        rs' = pre ++ p.merge r hsum :: post) := by
  by_cases hlive : ∃ r ∈ rs, r.ent.Named name
  · obtain ⟨pre, r, post, hf⟩ := exists_firstNamed hlive
    rcases eq_nil_or_concat' pre with rfl | ⟨pre, p, rfl⟩
    · exact absurd hf (hfirst r post)
    · have hsum := hsafe rs h.rep pre p r post hf
      obtain ⟨dir', hstep, -, hmerge, -⟩ := h.rep.step_delete hf now
      have hname : r.ent.name = name := hf.named.2
      have hnames : liveNames rs = liveNames (pre ++ [p]) ++ name :: liveNames post := by
        rw [hf.eq, liveNames_append, liveNames_cons_of_live hf.named.1, hname]
      have hnames' : liveNames (pre ++ p.merge r hsum :: post) =
          liveNames (pre ++ [p]) ++ liveNames post := by
        rw [← liveNames_append, append_assoc, singleton_append, liveNames_append, liveNames_append]
        exact congrArg _ (liveNames_cons_congr Iff.rfl rfl post)
      have hnodup := h.nodup
      rw [hnames, nodup_middle, nodup_cons] at hnodup
      refine ⟨_, ?_, Or.inr ⟨pre, p, r, post, hsum, hf, rfl⟩⟩
      rw [hstep]
      refine ⟨hmerge hsum, hnames' ▸ hnodup.2, ?_⟩
      rw [h.names, hnames, hnames']
      ext n
      simp only [Finset.mem_erase, List.mem_toFinset, mem_append, mem_cons]
      constructor
      · tauto
      · intro hn
        refine ⟨?_, by tauto⟩
        rintro rfl
        exact hnodup.1 (mem_append.2 hn)
  · refine ⟨rs, ?_, Or.inl rfl⟩
    have hfind := h.rep.rdfsFindEntry2_eq name
    rw [findRec_eq_none fun r hr hn => hlive ⟨r, hr, hn⟩] at hfind
    have hstep : s.step (.delete name now) = s := by
      simp only [DirState.step, hfind]
    rwa [hstep]

/-- An entry is given another inode, or nothing changes. -/
theorem DirInv.setLink (h : DirInv s rs) {updateTimes : Bool}
    (hino : 0 < inode.iIno ∧ inode.iIno < 2 ^ 64) :
    ∃ rs', DirInv (s.step (.setLink name inode updateTimes now)) rs' ∧ (rs' = rs ∨
      ∃ pre r post, rs = pre ++ r :: post ∧ r.ent.Live ∧
        rs' = pre ++ r.relink inode hino.2 :: post) := by
  by_cases hlive : ∃ r ∈ rs, r.ent.Named name
  · obtain ⟨pre, r, post, hf⟩ := exists_firstNamed hlive
    have hrep : s.dir.Rep (pre ++ r :: post) := hf.eq ▸ h.rep
    obtain ⟨prev, hfind, -⟩ := hf.findRec 0 0
    rw [Nat.zero_add, ← h.rep.rdfsFindEntry2_eq] at hfind
    have hstep : s.step (.setLink name inode updateTimes now) =
        { s with dir := rdfsSetLink s.dir (total pre) inode updateTimes now } := by
      simp only [DirState.step, hfind]
    have hnames : liveNames (pre ++ r.relink inode hino.2 :: post) = liveNames rs := by
      rw [hf.eq, liveNames_append, liveNames_append]
      have hrelink : (r.relink inode hino.2).ent.Live := Nat.pos_iff_ne_zero.1 hino.1
      exact congrArg _ (liveNames_cons_congr (iff_of_true hrelink hf.named.1) rfl post)
    refine ⟨_, ?_, Or.inr ⟨pre, r, post, hf.eq, hf.named.1, rfl⟩⟩
    rw [hstep]
    exact ⟨hrep.setLink hino.2 updateTimes now, hnames ▸ h.nodup, hnames ▸ h.names⟩
  · refine ⟨rs, ?_, Or.inl rfl⟩
    have hfind := h.rep.rdfsFindEntry2_eq name
    rw [findRec_eq_none fun r hr hn => hlive ⟨r, hr, hn⟩] at hfind
    have hstep : s.step (.setLink name inode updateTimes now) = s := by
      simp only [DirState.step, hfind]
    rwa [hstep]

/-- A step that is valid and safe, and does not delete the first record, keeps the records in
order. -/
theorem DirInv.step (h : DirInv s rs) {op : DirOp} (hv : op.Valid) (hsafe : op.Safe s.dir)
    (hfirst : op.NotFirst s.dir) : ∃ rs', DirInv (s.step op) rs' := by
  cases op with
  | add name inode alloc now => exact (h.add hv hsafe).imp fun _ h => h.1
  | delete name now => exact (h.delete hsafe (hfirst rs h.rep)).imp fun _ h => h.1
  | setLink name inode updateTimes now => exact (h.setLink hv).imp fun _ h => h.1

end steps

/-! ## Names in use are refused -/

/-- The record of `..` with a long tail. -/
def slackRec : DirRec := { denseRec 1 with
  recLen := 4064
  four_dvd := by decide
  fits := by decide
  recLen_lt := by decide }

/-- The records left when `..`, `a` and `b` were there and `a` has been deleted. -/
def slackRecs : List DirRec := [denseRec 0, slackRec, denseRec 2]

theorem rep_slackDir : (dirOf linkDir slackRecs).Rep slackRecs := rep_dirOf linkDir (by decide)

theorem linkable_denseTwo : Linkable (denseName 2) linkFile where
  name_pos := by decide
  name_le := by decide
  ino_pos := by decide
  ino_lt := by decide

/-- A name is refused exactly if it is in use, for the names that the search gets to if they are in
use. If that is so for all names added, no two entries in use get the same name. -/
theorem eexist_iff {dir : Dir} {rs : List DirRec} (h : dir.Rep rs) :
    (∀ (name : List UInt8) (inode : Inode) (alloc : AllocOutcome) (now : ℕ),
      (rdfsAddLink dir name inode alloc now = (-eexist, dir) ↔ ∃ e ∈ liveEnts rs, e.name = name) ↔
        Notices name dir.inode.iBlocks rs) ∧
    ((liveNames rs).Nodup → ∀ ops : List DirOp,
      Each DirState.step (fun s op => op.Valid ∧ op.Safe s.dir ∧ op.NotFirst s.dir)
        ⟨dir, (liveNames rs).toFinset⟩ ops →
      Always DirState.step (fun s => ∃ rs, s.dir.Rep rs ∧ (liveNames rs).Nodup)
        ⟨dir, (liveNames rs).toFinset⟩ ops) := by
  refine ⟨fun name inode alloc now => h.addLink_eexist_iff_notices, fun hnodup ops hops => ?_⟩
  have hstep : ∀ (s : DirState) (op : DirOp), (∃ rs, DirInv s rs) →
      (op.Valid ∧ op.Safe s.dir ∧ op.NotFirst s.dir) → ∃ rs, DirInv (s.step op) rs := by
    rintro s op ⟨rs, hs⟩ ⟨hv, hsafe, hfirst⟩
    exact hs.step hv hsafe hfirst
  refine (Each.always hstep ⟨rs, h, hnodup, rfl⟩ hops).imp ?_
  rintro s ⟨rs, hs⟩
  exact ⟨rs, hs.rep, hs.nodup⟩

theorem eexist_iff_slackDir :
    ((rdfsAddLink (dirOf linkDir slackRecs) (denseName 2) linkFile .entered 0 =
        (-eexist, dirOf linkDir slackRecs) ↔ ∃ e ∈ liveEnts slackRecs, e.name = denseName 2) ↔
      Notices (denseName 2) (dirOf linkDir slackRecs).inode.iBlocks slackRecs) ∧
    Always DirState.step (fun s => ∃ rs, s.dir.Rep rs ∧ (liveNames rs).Nodup)
      ⟨dirOf linkDir slackRecs, (liveNames slackRecs).toFinset⟩ [.delete (denseName 2) 0] := by
  obtain ⟨hcall, hrun⟩ := eexist_iff rep_slackDir
  refine ⟨hcall _ _ _ _, hrun (by decide) _ ⟨⟨trivial, ?_, ?_⟩, trivial⟩⟩
  · exact safe_delete (by decide : (dirOf linkDir slackRecs).inode.iSize < 2 ^ 16)
  · intro rs hrep r post hf
    obtain rfl := hrep.unique rep_slackDir
    obtain ⟨rfl, -⟩ := cons.inj hf.eq
    exact absurd hf.named (by decide)

/-- A name is added a second time, in front of the first one. -/
theorem slackDir_adds_twice :
    (dirOf linkDir slackRecs).Rep slackRecs ∧ denseName 2 ∈ liveNames slackRecs ∧
      (rdfsAddLink (dirOf linkDir slackRecs) (denseName 2) linkFile .entered 0).1 = 0 ∧
      ∃ rs', (rdfsAddLink (dirOf linkDir slackRecs) (denseName 2) linkFile .entered 0).2.Rep rs' ∧
        ¬(liveNames rs').Nodup := by
  have hmem : denseName 2 ∈ liveNames slackRecs := by decide
  have hahead : ahead (denseName 2) slackRecs = [slackRec, denseRec 2] := by decide
  have hreach : Reaches (denseName 2) (dirOf linkDir slackRecs).inode.iBlocks
      (passed (denseName 2) slackRecs) := by decide
  have hret : (rdfsAddLink (dirOf linkDir slackRecs) (denseName 2) linkFile .entered 0).1 = 0 := by
    have hn : ¬slackRec.ent.Named (denseName 2) := by decide
    rw [rep_slackDir.rdfsAddLink_eq, if_pos hreach, hahead]
    simp only [if_neg hn]
  refine ⟨rep_slackDir, hmem, hret, ?_⟩
  obtain ⟨dir', heq, ⟨r, post, hroom, hpost, -, hrep, -⟩ | ⟨hnil, -⟩⟩ :=
    rep_slackDir.addLink_zero linkable_denseTwo (fun hs => hs.1 rfl) hret
  · rw [heq]
    refine ⟨_, hrep, fun hnodup => ?_⟩
    have hsplit := passed_append_ahead (denseName 2) slackRecs
    rw [hpost] at hsplit
    have hperm := ((Added.place hsplit.symm hroom).liveEnts_perm linkable_denseTwo.ent_live).map
      DirEnt.name
    exact (nodup_cons.1 (hperm.nodup_iff.1 hnodup)).1 hmem
  · exact absurd (hahead.symm.trans hnil) (cons_ne_nil _ _)

end Rdfs
