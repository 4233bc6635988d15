import Rdfs.Eviction

/-!
# Creating an inode, and giving up

`rdfs_new_inode` takes a slot off the free list and then makes five calls that can fail : it looks
up the directory, enters the new inode into the inode cache, writes it, and initialises its access
control list and its security label. A failure drops the inode, and the eviction that follows is to
put the slot back. The calls are parameters (`NewInodeCalls`), so that every branch can be taken.
An inode that did not get into the cache is marked bad before it is dropped, and
`rdfs_evict_inode` deletes no bad inode : its slot is lost (`slotBack_iff`).

Behind the last call `rdfs_init_pg_table` takes three pages for the table of the inode. It looks at
the three results when it has all of them, and keeps the pages it got if one is missing;
`rdfs_new_inode` does not look at its result at all (`initPgTable_newInode_iff`).
-/

namespace Rdfs

open List Function Option

/-! ## The code -/

/-- What the calls of `rdfs_new_inode` return : `new_inode`, with the owner, the mode, the times and
the flags the inode is going to have; `get_rdfs_inode` of the directory; `insert_inode_locked`;
`rdfs_write_inode`, which stores nothing when it fails; `rdfs_init_acl` with the mode it leaves; and
`rdfs_init_security`. -/
structure NewInodeCalls where
  newInode : Option Inode
  diri : ℕ
  inserted : ℤ
  written : ℤ
  acl : ℤ × ℕ
  security : ℤ

/-- How `rdfs_new_inode` ends : with the inode, without one, or with an error and an inode, marked
bad or not, whose last reference it drops. -/
inductive NewInodeEnd
  | inode (inode : Inode)
  | noMemory
  | dropped (errval : ℤ) (inode : Inode) (bad : Bool)

/-- `make_bad_inode`, but for the operations of the inode. -/
def makeBadInode (inode : Inode) (now : ℕ) : Inode :=
  { inode with iMode := 0x8000, iAtime := now, iMtime := now, iCtime := now }

/-- `rdfs_new_inode` at time `now` : how it ends, the region and `next_numa_id`. Up to the first
test behind the slot the inode has the number of the inode that was in its place. -/
def rdfsNewInode (sb : Super) (st : Nvm) (nextNumaId cpu now : ℕ) (c : NewInodeCalls) :
    NewInodeEnd × Nvm × ℕ :=
  match c.newInode with
  | none => (.noMemory, st, nextNumaId)
  | some attrs =>
    match rdfsNewInodeTake sb st nextNumaId with
    | (none, st, next) =>
      (.dropped (-28) (makeBadInode (freshInode attrs attrs.iIno) now) true, st, next)
    | (some ino, st, next) =>
      if c.diri = 0 then
        (.dropped (-13) (makeBadInode (freshInode attrs attrs.iIno) now) true, st, next)
      else
        let inode := freshInode attrs ino
        if c.inserted < 0 then (.dropped (-22) (makeBadInode inode now) true, st, next)
        else if c.written ≠ 0 then (.dropped c.written { inode with iNlink := 0 } false, st, next)
        else
          let st := { st with mem := rdfsUpdateInode sb st.mem inode }
          let inode := { inode with iMode := c.acl.2 }
          if c.acl.1 ≠ 0 then (.dropped c.acl.1 { inode with iNlink := 0 } false, st, next)
          else if c.security ≠ 0 then
            (.dropped c.security { inode with iNlink := 0 } false, st, next)
          else (.inode inode, (rdfsInitPgTable sb cpu st ino).2, next)

/-- `rdfs_evict_inode` of an inode that may be bad, whose `struct inode` is at `inodePtr`; `none` if
`nvfree` follows a null pointer. -/
def rdfsEvictInode (sb : Super) (g : Master) (areas : NvmLists) (inode : Inode) (bad : Bool)
    (inodePtr : ℕ) (stateNew : Bool) (now : ℕ) : Option (Inode × Master × NvmLists) :=
  let e := (rdfsEstablishMapping sb g areas inode inodePtr).2
  let wantDelete : Bool := e.1.iNlink = 0 ∧ ¬bad
  let d := if wantDelete then dropInode sb e.2.1 e.1 stateNew now else (e.1, e.2.1)
  (rdfsDestroyMapping sb d.2 e.2.2 d.1).map fun r =>
    let g := r.2.2.1
    (r.2.1, if wantDelete then { g with nvm := rdfsFreeInode sb g.nvm r.2.1.iIno now } else g,
      r.2.2.2)

/-- `rdfs_new_inode` with the eviction of the inode it drops, if it does. -/
def newInodeIput (sb : Super) (g : Master) (areas : NvmLists) (nextNumaId cpu now : ℕ)
    (c : NewInodeCalls) (inodePtr : ℕ) (stateNew : Bool) : Option Master :=
  match rdfsNewInode sb g.nvm nextNumaId cpu now c with
  | (.dropped _ inode bad, st, _) =>
    (rdfsEvictInode sb { g with nvm := st } areas inode bad inodePtr stateNew now).map
      fun r => r.2.1
  | (_, st, _) => some { g with nvm := st }

/-- All calls succeed. -/
structure NewInodeCalls.Succeed (c : NewInodeCalls) : Prop where
  newInode : c.newInode ≠ none
  diri : c.diri ≠ 0
  inserted : 0 ≤ c.inserted
  written : c.written = 0
  acl : c.acl.1 = 0
  security : c.security = 0

/-- The file system creates inodes with calls that succeed; the mask is applied by
`rdfs_init_acl`. -/
theorem Fs.newInode_eq (sb : Super) (s : Fs) (cpu : ℕ) (attrs : Inode) (umask now : ℕ) {diri : ℕ}
    {inserted : ℤ} (hd : diri ≠ 0) (hi : 0 ≤ inserted) : s.newInode sb cpu attrs umask =
      match rdfsNewInode sb s.master.nvm s.nextNumaId cpu now
        ⟨some attrs, diri, inserted, 0, (0, (rdfsInitAcl attrs umask).iMode), 0⟩ with
      | (.inode inode, nvm, next) =>
        { s.put inode.iIno (inode, { s.master with nvm := nvm }, s.areas) with
          nextNumaId := next, live := s.live ++ [inode.iIno] }
      | (_, nvm, next) => { s.setNvm nvm with nextNumaId := next } := by
  rcases hr : rdfsNewInodeTake sb s.master.nvm s.nextNumaId with ⟨_ | ino, nvm, next⟩
  · simp only [Fs.newInode, rdfsNewInode, hr]
  · simp only [Fs.newInode, rdfsNewInode, hr, if_neg hd, if_neg hi.not_gt]
    rfl

/-! ## Three pages for a table -/

variable {sb : Super} {R : Region sb} {st : Nvm} {own : List ℕ} {cpu ino : ℕ} {n : Fin 2}

/-- Each call takes a page as long as there is one. -/
theorem Owned.afterZeroed_count (h : Owned R.pages st own) (hn : getCpuNuma sb cpu = n) : ∀ k,
    ((afterZeroed sb cpu k st).numaDes n).freePageCount = (st.numaDes n).freePageCount - k := by
  intro k
  induction k generalizing st own with
  | zero => rfl
  | succ k ih =>
    rw [afterZeroed]
    rcases Nat.eq_zero_or_pos (st.numaDes n).freePageCount with hc | hc
    · rw [rdfsGetZeroedPage_none hn hc, ih h, hc]
      simp
    · obtain ⟨p, st', hr, -, hown, -, htook, -⟩ := h.getZeroedPage hn hc
      have hcount := htook.count n
      rw [if_pos rfl] at hcount
      rw [hr, ih hown]
      omega

/-- What `rdfs_init_pg_table` is to do : give the inode an empty table of three pages that were
free, or fail and leave the inode and the free pages as they are. -/
def InitSpec (sb : Super) (cpu : ℕ) (st : Nvm) (ino : ℕ) : Prop :=
  let r := rdfsInitPgTable sb cpu st ino
  let pgAddr := fun st : Nvm => inodeStruct.getField st.mem (getRdfsInodePhyAddr sb ino) .iPgAddr
  (r.1 = 0 ∧ ∃ pud pmd pte, pgAddr r.2 = pud ∧ TreeRep r.2.mem ⟨pud, [pmd], [pte], []⟩ ∧
    [pud, pmd, pte].Nodup ∧ ∀ p ∈ [pud, pmd, pte], (∃ n, p ∈ freePages st n) ∧
      ∀ n, p ∉ freePages r.2 n) ∨
  (r.1 < 0 ∧ pgAddr r.2 = pgAddr st ∧ ∀ n, freePages r.2 n = freePages st n ∧
    (r.2.numaDes n).freePageCount = (st.numaDes n).freePageCount)

/-- `rdfs_init_pg_table` does so if and only if the node of the processor has three pages, or
none. -/
theorem Owned.initSpec_iff (h : Owned R.pages st own)
    (hslot : R.inodes.IsSlot (getRdfsInodePhyAddr sb ino)) (hn : getCpuNuma sb cpu = n) :
    InitSpec sb cpu st ino ↔
      (st.numaDes n).freePageCount = 0 ∨ 3 ≤ (st.numaDes n).freePageCount := by
  rcases Nat.lt_or_ge (st.numaDes n).freePageCount 3 with hlt | hge
  · have hfail : (rdfsInitPgTable sb cpu st ino).1 ≠ 0 := fun h0 =>
      absurd (h.threeLinked_iff.1 ((rdfsInitPgTable_eq_zero_iff hn ino).1 h0)) (by omega)
    rcases Nat.eq_zero_or_pos (st.numaDes n).freePageCount with hc | hc
    · refine iff_of_true (Or.inr ?_) (Or.inl hc)
      have hget := rdfsGetZeroedPage_none hn hc
      have hr : rdfsInitPgTable sb cpu st ino = (-pgFaild, st) := by
        simp only [rdfsInitPgTable, hget, true_or, if_true]
      rw [hr]
      exact ⟨show -pgFaild < 0 by decide, rfl, fun _ => ⟨rfl, rfl⟩⟩
    · refine iff_of_false ?_ (by omega)
      rintro (⟨h0, -⟩ | ⟨-, -, hsame⟩)
      · exact hfail h0
      · obtain ⟨m, hr, -⟩ := rdfsInitPgTable_cases sb cpu st ino
        have hcount := (hsame n).2
        rw [hr] at hcount
        have hleft := h.afterZeroed_count hn 3
        simp only at hcount
        omega
  · refine iff_of_true (Or.inl ?_) (Or.inr hge)
    obtain ⟨⟨pud, pmds, ptes, ents⟩, st', hr, hents, hrep, hown, hpg, -⟩ :=
      h.initPgTable rfl hslot hn hge
    subst hents
    obtain ⟨pmd, rfl⟩ := length_eq_one_iff.1 (by simpa using hrep.length_pmds)
    obtain ⟨pte, rfl⟩ := length_eq_one_iff.1 (by simpa using hrep.length_ptes)
    rw [hr]
    refine ⟨rfl, pud, pmd, pte, hpg, hrep, hown.nodup.of_append_left, fun p hp =>
      ⟨?_, fun k hk => ?_⟩⟩
    · have hpage := hown.isPage (mem_append_left own hp)
      exact (h.free_or_owned hpage).resolve_right fun hown' =>
        disjoint_of_nodup_append hown.nodup hp hown'
    · exact hown.not_free hk (mem_append_left own hp)

/-! ## An inode with or without a table -/

/-- The memory when `rdfs_new_inode` calls `rdfs_init_pg_table` : the fields of the slot at the head
of the free list are cleared, and the inode is written. -/
def slotMem (sb : Super) (st : Nvm) (nextNumaId : ℕ) (attrs : Inode) : Mem :=
  let slot := (st.numaDes (getANuma sb nextNumaId).1).freeInodePhy
  rdfsUpdateInode sb (inodeStruct.putFields st.mem slot newInodeFields)
    (freshInode attrs (getRdfsInodenr sb slot))

variable {nextNumaId now : ℕ} {live : List ℕ} {c : NewInodeCalls} {attrs : Inode}

/-- `rdfs_new_inode` when there is a slot and all calls succeed. -/
theorem InodeInv.newInode_succeed (h : InodeInv R.inodes st live) (hc : c.Succeed)
    (hattrs : c.newInode = some attrs)
    (hcount : (st.numaDes (getANuma sb nextNumaId).1).freeInodeCount ≠ 0) :
    ∃ ino st₁ next, rdfsNewInode sb st nextNumaId cpu now c =
        (.inode { freshInode attrs ino with iMode := c.acl.2 },
          (rdfsInitPgTable sb cpu st₁ ino).2, next) ∧
      R.inodes.IsSlot (getRdfsInodePhyAddr sb ino) ∧ st₁.mem = slotMem sb st nextNumaId attrs ∧
      inodeStruct.getField st₁.mem (getRdfsInodePhyAddr sb ino) .iPgAddr = 0 ∧
      ∀ n, (st₁.numaDes n).freePagePhy = (st.numaDes n).freePagePhy ∧
        (st₁.numaDes n).freePageCount = (st.numaDes n).freePageCount := by
  have hpages := fun n => h.newInode_pages nextNumaId n
  rcases h.take_cases nextNumaId rfl with ⟨h0, -⟩ |
    ⟨ino, p, st', -, hhead, hp, hnr, hphy, hr, hm, -⟩
  · exact absurd h0 hcount
  rw [hr] at hpages
  refine ⟨ino, { st' with mem := rdfsUpdateInode sb st'.mem (freshInode attrs ino) },
    (getANuma sb nextNumaId).2, ?_, ?_, ?_, ?_, hpages⟩
  · simp only [rdfsNewInode, hattrs, hr, if_neg hc.diri, if_neg hc.inserted.not_gt, hc.written,
      hc.acl, hc.security, ne_eq, not_true_eq_false, if_false]
  · rw [hphy]
    exact InodeLayout.isSlot_of_mem hp
  · simp only [slotMem, hm, hhead, hnr]
  · have hkept : inodeStruct.getField (rdfsUpdateInode sb st'.mem (freshInode attrs ino))
        (getRdfsInodePhyAddr sb ino) .iPgAddr = _ :=
      getField_update_of_notMem sb st'.mem (by simp [updateFields])
    refine hkept.trans ?_
    rw [show (freshInode attrs ino).iIno = ino from rfl, hphy, hm]
    exact inodeStruct.getField_putFields_of_mem (f := .iPgAddr) (v := 0) p newInodeFields st.mem
      (fun w _ => mem_inodeStruct_fields w.1) (by decide) (by simp [newInodeFields])

/-- An inode that is returned has passed all calls. -/
theorem rdfsNewInode_inode {next : ℕ} {inode : Inode} {st' : Nvm}
    (h : rdfsNewInode sb st nextNumaId cpu now c = (.inode inode, st', next)) :
    c.Succeed ∧ (st.numaDes (getANuma sb nextNumaId).1).freeInodeCount ≠ 0 := by
  rcases hattrs : c.newInode with _ | attrs
  · simp [rdfsNewInode, hattrs] at h
  by_cases hcount : (st.numaDes (getANuma sb nextNumaId).1).freeInodeCount = 0
  · have hr : rdfsNewInodeTake sb st nextNumaId = (none, st, (getANuma sb nextNumaId).2) := by
      rw [rdfsNewInodeTake, if_pos hcount]
    simp [rdfsNewInode, hattrs, hr] at h
  obtain ⟨ino, r, hr⟩ : ∃ ino r, rdfsNewInodeTake sb st nextNumaId = (some ino, r) := by
    rw [rdfsNewInodeTake, if_neg hcount]
    exact ⟨_, _, rfl⟩
  simp only [rdfsNewInode, hattrs, hr] at h
  split_ifs at h with hd hi hw ha hs
  all_goals simp at h
  exact ⟨⟨by simp [hattrs], hd, not_lt.1 hi, not_not.1 hw, not_not.1 ha, not_not.1 hs⟩, hcount⟩

/-- Fields that are zero stay zero when pages are cleared. -/
theorem getField_afterZeroed {slot : ℕ} {f : InodeField} :
    ∀ (k : ℕ) {st : Nvm}, inodeStruct.getField st.mem slot f = 0 →
      inodeStruct.getField (afterZeroed sb cpu k st).mem slot f = 0
  | 0, _, h => h
  | k + 1, st, h => by
    refine getField_afterZeroed k ?_
    rcases rdfsGetZeroedPage_cases sb cpu st with ⟨-, hm⟩ | ⟨p, -, -, hm⟩
    · rw [hm]
      exact h
    · rw [hm]
      exact Mem.load_fill_zero _ _ _ h

/-- An inode without a table has one afterwards if and only if `rdfs_init_pg_table` succeeds. -/
theorem hasTable_initPgTable_iff (hn : getCpuNuma sb cpu = n)
    (hzero : inodeStruct.getField st.mem (getRdfsInodePhyAddr sb ino) .iPgAddr = 0)
    (hlt : (st.numaDes n).freePagePhy < 2 ^ 64) :
    HasTable sb (rdfsInitPgTable sb cpu st ino).2.mem ino ↔ ThreeLinked st n := by
  rw [← rdfsInitPgTable_eq_zero_iff hn ino]
  generalize h₁ : rdfsGetZeroedPage sb cpu st = r₁
  generalize h₂ : rdfsGetZeroedPage sb cpu r₁.2 = r₂
  generalize h₃ : rdfsGetZeroedPage sb cpu r₂.2 = r₃
  have hkept : inodeStruct.getField (afterZeroed sb cpu 3 st).mem _ _ = 0 :=
    getField_afterZeroed 3 hzero
  simp only [afterZeroed, h₁, h₂, h₃] at hkept
  by_cases hnull : r₁.1 = 0 ∨ r₂.1 = 0 ∨ r₃.1 = 0
  · simp only [rdfsInitPgTable, h₁, h₂, h₃, if_pos hnull]
    exact iff_of_false (not_not.2 hkept) (by decide)
  · have hpos : ¬((st.numaDes n).freePageCount = 0 ∨ (st.numaDes n).freePagePhy = 0) := by
      rw [← rdfsGetZeroedPage_eq_zero_iff hn, h₁]
      exact fun h => hnull (Or.inl h)
    obtain ⟨hc, hp⟩ := not_or.1 hpos
    obtain ⟨st₁, hr₁, -⟩ := rdfsGetZeroedPage_head hn (Nat.pos_of_ne_zero hc) hp
    have hpud : rdfsPa sb r₁.1 = (st.numaDes n).freePagePhy := by
      rw [← h₁, hr₁, rdfsPa_rdfsVa]
    simp only [HasTable, rdfsInitPgTable, h₁, h₂, h₃, if_neg hnull, hpud]
    refine iff_of_true ?_ trivial
    rw [inodeStruct.getField_putField]
    exact fun h => hp ((Nat.mod_eq_of_lt hlt).symm.trans h)

/-- Unless the slot ends at the first page of its node, writing it leaves the free pages alone. -/
theorem Owned.threeLinked_slotMem (h : Owned R.pages st own) (hi : InodeInv R.inodes st live)
    (attrs : Inode) (hcount : (st.numaDes (getANuma sb nextNumaId).1).freeInodeCount ≠ 0)
    (hend : (st.numaDes (getANuma sb nextNumaId).1).freeInodePhy + 136 ≤
      (R.des (getANuma sb nextNumaId).1).freePagePhy) :
    ThreeLinked { st with mem := slotMem sb st nextNumaId attrs } n ↔
      3 ≤ (st.numaDes n).freePageCount := by
  rcases hi.take_cases nextNumaId rfl with ⟨h0, -⟩ | ⟨ino, p, st', -, hhead, hp, hnr, hphy, -⟩
  · exact absurd h0 hcount
  rw [hhead] at hend
  have hoff : Mem.SameOff st.mem (slotMem sb st nextNumaId attrs) 136 p := by
    rw [slotMem, hhead, hnr]
    have hupdate : Mem.SameOff _ (rdfsUpdateInode sb (inodeStruct.putFields st.mem p newInodeFields)
        (freshInode attrs ino)) 128 p := hphy ▸ sameOff_rdfsUpdateInode _ (freshInode attrs ino)
    exact (InodeInv.sameOff_newInodeFields st.mem p).trans (hupdate.mono le_rfl (by omega))
  have hown : Owned R.pages { st with mem := slotMem sb st nextNumaId attrs } own := by
    refine h.congr (fun _ => ⟨rfl, rfl⟩) fun q hq _ => hoff.sameOn ?_
    obtain ⟨i, hlt, rfl⟩ := InodeLayout.mem_slots.1 hp
    exact (R.slot_disjoint_page (InodeLayout.node_of_pos (Nat.zero_lt_of_lt hlt)) hend hq).symm
  exact hown.threeLinked_iff

/-- In every state with free lists in order : `rdfs_init_pg_table` gives the inode a table or
changes nothing if and only if the node of the processor has three pages or none, and
`rdfs_new_inode` returns an inode with a table, if it returns one, if and only if a call fails,
there is no slot, or three pages can be taken once the slot is written. The last means three pages
in the node, unless the slot ends at the first page of its own node. -/
theorem initPgTable_newInode_iff (h : Owned R.pages st own) (hi : InodeInv R.inodes st live)
    (hslot : R.inodes.IsSlot (getRdfsInodePhyAddr sb ino)) (cpu nextNumaId now : ℕ)
    (c : NewInodeCalls) :
    (InitSpec sb cpu st ino ↔ (st.numaDes (getCpuNuma sb cpu)).freePageCount = 0 ∨
      3 ≤ (st.numaDes (getCpuNuma sb cpu)).freePageCount) ∧
    ((∀ inode st' next, rdfsNewInode sb st nextNumaId cpu now c = (.inode inode, st', next) →
        HasTable sb st'.mem inode.iIno) ↔
      (c.Succeed → (st.numaDes (getANuma sb nextNumaId).1).freeInodeCount ≠ 0 →
        ∀ attrs ∈ c.newInode,
          ThreeLinked { st with mem := slotMem sb st nextNumaId attrs } (getCpuNuma sb cpu))) ∧
    ∀ attrs, (st.numaDes (getANuma sb nextNumaId).1).freeInodeCount ≠ 0 →
      (st.numaDes (getANuma sb nextNumaId).1).freeInodePhy + 136 ≤
        (R.des (getANuma sb nextNumaId).1).freePagePhy →
      (ThreeLinked { st with mem := slotMem sb st nextNumaId attrs } (getCpuNuma sb cpu) ↔
        3 ≤ (st.numaDes (getCpuNuma sb cpu)).freePageCount) := by
  refine ⟨h.initSpec_iff hslot rfl, ?_, fun attrs => h.threeLinked_slotMem hi attrs⟩
  have htable : ∀ attrs, c.Succeed → c.newInode = some attrs →
      (st.numaDes (getANuma sb nextNumaId).1).freeInodeCount ≠ 0 →
      ∃ inode st' next, rdfsNewInode sb st nextNumaId cpu now c = (.inode inode, st', next) ∧
        (HasTable sb st'.mem inode.iIno ↔
          ThreeLinked { st with mem := slotMem sb st nextNumaId attrs } (getCpuNuma sb cpu)) := by
    intro attrs hc hattrs hcount
    obtain ⟨ino, st₁, next, hr, -, hm, hzero, hpages⟩ := hi.newInode_succeed hc hattrs hcount
    refine ⟨_, _, _, hr, ?_⟩
    obtain ⟨out, hinv, -⟩ := h
    have hlt := (hinv (getCpuNuma sb cpu)).head_lt
    rw [← (hpages _).1] at hlt
    refine (hasTable_initPgTable_iff rfl hzero hlt).trans ?_
    simp only [ThreeLinked, hm, hpages]
  constructor
  · intro hret hc hcount attrs hattrs
    obtain ⟨inode, st', next, hr, hiff⟩ := htable attrs hc hattrs hcount
    exact hiff.1 (hret inode st' next hr)
  · intro hcond inode st' next hr
    obtain ⟨hc, hcount⟩ := rdfsNewInode_inode hr
    obtain ⟨attrs, hattrs⟩ := ne_none_iff_exists'.1 hc.newInode
    obtain ⟨inode', st'', next', hr', hiff⟩ := htable attrs hc hattrs hcount
    obtain ⟨hinode, hst, -⟩ : inode' = inode ∧ st'' = st' ∧ next' = next := by
      simpa [hr'] using hr
    rw [← hinode, ← hst]
    exact hiff.2 (hcond hc hcount attrs hattrs)

/-- The calls for a new regular file, which all succeed. -/
def allPass : NewInodeCalls := ⟨some regAttrs, 1, 0, 0, (0, regAttrs.iMode), 0⟩

/-- A fresh region has enough pages for a table. -/
theorem initPgTable_newInode_small : InitSpec oneNode 0 (Region.small.mount fun _ => 0) 1 ∧
      ∀ inode st' next, rdfsNewInode oneNode (Region.small.mount fun _ => 0) 0 0 0 allPass =
        (.inode inode, st', next) → HasTable oneNode st'.mem inode.iIno := by
  obtain ⟨hinit, hnew, -⟩ := initPgTable_newInode_iff (Region.small.owned_mount fun _ => 0)
    (Region.small.inodeInv_mount fun _ => 0)
    (show Region.small.inodes.IsSlot (getRdfsInodePhyAddr oneNode 1) from
      ⟨0, 0, Or.inl rfl, Nat.zero_le _, rfl⟩) 0 0 0 allPass
  refine ⟨hinit.2 (by decide), hnew.2 fun _ _ attrs hattrs => ?_⟩
  obtain rfl : regAttrs = attrs := some.inj hattrs
  decide +kernel

/-- The small region once 13 of its 15 pages have been handed out. -/
def twoPagesLeft : Nvm := (rdfsNewBlock oneNode 0 (Region.small.mount fun _ => 0) 0 13 none).2.2

/-- With two pages left `rdfs_init_pg_table` fails and keeps both, and `rdfs_new_inode` returns an
inode without a table. -/
theorem table_pages_lost : (∃ own, Owned Region.small.pages twoPagesLeft own) ∧
    InodeInv Region.small.inodes twoPagesLeft [] ∧
    (rdfsInitPgTable oneNode 0 twoPagesLeft 1).1 = -pgFaild ∧
    (twoPagesLeft.numaDes 0).freePageCount = 2 ∧
    ((rdfsInitPgTable oneNode 0 twoPagesLeft 1).2.numaDes 0).freePageCount = 0 ∧
    ¬InitSpec oneNode 0 twoPagesLeft 1 ∧
    ∃ inode st' next, rdfsNewInode oneNode twoPagesLeft 0 0 0 allPass = (.inode inode, st', next) ∧
      ¬HasTable oneNode st'.mem inode.iIno := by
  obtain ⟨st', hr, hown, hm, htook⟩ := (Region.small.owned_mount fun _ => 0).newBlock 0 13 none 0
    rfl (by decide) (by decide)
  have hst : twoPagesLeft = st' := by
    rw [twoPagesLeft, show (13 : ℤ) = (13 : ℕ) from rfl, hr]
  rw [← hst] at hown hm htook
  have hi : InodeInv Region.small.inodes twoPagesLeft [] :=
    (Region.small.inodeInv_mount fun _ => 0).other (fun n => (htook.sameInodes n).1)
      (fun n => (htook.sameInodes n).2) fun n p _ _ x _ _ => congrFun hm x
  have hspec := hown.initSpec_iff (show Region.small.inodes.IsSlot (getRdfsInodePhyAddr oneNode 1)
    from ⟨0, 0, Or.inl rfl, Nat.zero_le _, rfl⟩) (show getCpuNuma oneNode 0 = 0 from rfl)
  refine ⟨⟨_, hown⟩, hi, by decide +kernel, by decide +kernel, by decide +kernel, ?_, _, _, _, rfl,
    ?_⟩
  · rw [hspec]
    decide +kernel
  · decide +kernel

/-! ## The slot of an inode that is dropped -/

theorem sameInodes_rdfsFreeBlock (sb : Super) (st : Nvm) (phys : ℕ) :
    SameInodes st (rdfsFreeBlock sb st phys) := by
  intro n
  by_cases hn : n = rdfsGetPhysNumaId sb phys
  · subst hn
    simp [rdfsFreeBlock]
  · rw [rdfsFreeBlock_numaDes_of_ne st hn]
    exact ⟨rfl, rfl⟩

theorem sameInodes_rmLoop {rm : Nvm → ℕ → Nvm} (h : ∀ st entry, SameInodes st (rm st entry)) :
    ∀ (cnt entry : ℕ) (st : Nvm), SameInodes st (rmLoop sb rm cnt entry st)
  | 0, _, st => SameInodes.refl st
  | cnt + 1, entry, st => by
    rw [rmLoop]
    split_ifs
    · exact SameInodes.refl st
    · exact (h st entry).trans (sameInodes_rmLoop h cnt _ _)

theorem sameInodes_rdfsRmPgTable (sb : Super) (st : Nvm) (ino : ℕ) :
    SameInodes st (rdfsRmPgTable sb st ino) := by
  have hpte : ∀ st pte, SameInodes st (rmPte sb st pte) := by
    intro st pte
    rw [rmPte]
    split_ifs
    · exact SameInodes.refl st
    · exact sameInodes_rdfsFreeBlock sb st _
  have hpmd : ∀ st pmd, SameInodes st (rdfsRmPteRange sb st pmd) := fun st pmd =>
    (sameInodes_rmLoop hpte 512 _ st).trans (sameInodes_rdfsFreeBlock sb _ _)
  have hpud : ∀ st pud, SameInodes st (rdfsRmPmdRange sb st pud) := fun st pud =>
    (sameInodes_rmLoop hpmd 512 _ st).trans (sameInodes_rdfsFreeBlock sb _ _)
  exact (sameInodes_rmLoop hpud 512 _ st).trans (sameInodes_rdfsFreeBlock sb _ _)

/-- What an eviction needs to find the slot and the area of an inode is the same, and so are the
lists of slots. -/
structure SameSlots (inode inode' : Inode) (st st' : Nvm) : Prop where
  iIno : inode'.iIno = inode.iIno
  iNlink : inode'.iNlink = inode.iNlink
  iVirtAddr : inode'.iVirtAddr = inode.iVirtAddr
  mappingCount : inode'.mappingCount = inode.mappingCount
  sameInodes : SameInodes st st'

theorem SameSlots.rdfsTruncateBlocks (sb : Super) (g : Master) (inode : Inode)
    (start stop now : ℕ) : SameSlots inode (rdfsTruncateBlocks sb g inode start stop now).1 g.nvm
      (rdfsTruncateBlocks sb g inode start stop now).2.nvm := by
  have hraw : SameSlots inode (rawRdfsTruncateBlocks sb g inode start stop).1 g.nvm
      (rawRdfsTruncateBlocks sb g inode start stop).2.nvm := by
    rw [rawRdfsTruncateBlocks]
    dsimp only
    split_ifs
    · exact ⟨rfl, rfl, rfl, rfl, SameInodes.refl _⟩
    · exact ⟨rfl, rfl, rfl, rfl, SameInodes.refl _⟩
    · exact ⟨rfl, rfl, rfl, rfl, sameInodes_rdfsRmPgTable sb g.nvm inode.iIno⟩
  generalize hr : rawRdfsTruncateBlocks sb g inode start stop = r
  rw [hr] at hraw
  rw [Rdfs.rdfsTruncateBlocks, hr]
  split_ifs
  · exact ⟨hraw.iIno, hraw.iNlink, hraw.iVirtAddr, hraw.mappingCount, hraw.sameInodes⟩
  · exact ⟨rfl, rfl, rfl, rfl, SameInodes.refl _⟩

theorem SameSlots.dropInode (sb : Super) (g : Master) (inode : Inode) (stateNew : Bool) (now : ℕ) :
    SameSlots inode (dropInode sb g inode stateNew now).1 g.nvm
      (dropInode sb g inode stateNew now).2.nvm := by
  obtain ⟨w, hw⟩ : ∃ w, rawRdfsWriteInode sb
    (rdfsUpdateInode sb g.nvm.mem { inode with iDtime := now }) { inode with iDtime := now }
    stateNew = w := ⟨_, rfl⟩
  have hwritten : w.1.iIno = inode.iIno ∧ w.1.iNlink = inode.iNlink ∧
      w.1.iVirtAddr = inode.iVirtAddr ∧ w.1.mappingCount = inode.mappingCount := by
    rw [← hw]
    exact ⟨rfl, rfl, rfl, rfl⟩
  have h := SameSlots.rdfsTruncateBlocks sb { g with nvm := { g.nvm with mem := w.2 } } w.1 0
    w.1.iSize now
  simp only [Rdfs.dropInode, hw]
  exact ⟨h.iIno.trans hwritten.1, h.iNlink.trans hwritten.2.1, h.iVirtAddr.trans hwritten.2.2.1,
    h.mappingCount.trans hwritten.2.2.2, h.sameInodes⟩

theorem rdfsEstablishMapping_iIno (sb : Super) (g : Master) (areas : NvmLists) (inode : Inode)
    (ptr : ℕ) : (rdfsEstablishMapping sb g areas inode ptr).2.1.iIno = inode.iIno ∧
      (rdfsEstablishMapping sb g areas inode ptr).2.1.iNlink = inode.iNlink := by
  obtain ⟨v, hv⟩ := takeArea_inode sb g.nvm.mem areas
    { inode with mappingCount := inode.mappingCount + 1 } ptr
  simp only [rdfsEstablishMapping, hv]
  split_ifs <;> exact ⟨rfl, rfl⟩

theorem rdfsDestroyMapping_iIno {sb : Super} {g : Master} {areas : NvmLists} {inode : Inode}
    {r : ℤ × Inode × Master × NvmLists} (hr : rdfsDestroyMapping sb g areas inode = some r) :
    r.2.1.iIno = inode.iIno := by
  rw [rdfsDestroyMapping] at hr
  dsimp only at hr
  split_ifs at hr
  · cases hr
    rfl
  · cases hr
    rfl
  · obtain ⟨_, -, rfl⟩ := map_eq_some_iff.1 hr
    rfl

/-- The file system evicts inodes that are not bad. -/
theorem Fs.evictInode_eq (sb : Super) (s : Fs) {f : ℕ} (hino : (s.inode f).iIno = f) (ptr : ℕ)
    (stateNew : Bool) (now : ℕ) : s.evictInode sb f ptr stateNew now =
      (rdfsEvictInode sb s.master s.areas (s.inode f) false ptr stateNew now).map fun r =>
        { s.put f r with live := if (s.inode f).iNlink = 0 then s.live.erase f else s.live } := by
  have hest := rdfsEstablishMapping_iIno sb s.master s.areas (s.inode f) ptr
  generalize he : rdfsEstablishMapping sb s.master s.areas (s.inode f) ptr = e
  rw [he, hino] at hest
  by_cases hn : (s.inode f).iNlink = 0
  · have hdrop := (SameSlots.dropInode sb e.2.2.1 e.2.1 stateNew now).iIno.trans hest.1
    generalize hd : dropInode sb e.2.2.1 e.2.1 stateNew now = d
    rw [hd] at hdrop
    simp only [Fs.evictInode, rdfsEvictInode, Space.establish, Space.destroy, Fs.put, Space.put, he,
      hest.2, hn, update_self, hd]
    rcases hr : rdfsDestroyMapping sb d.2 e.2.2.2 d.1 with _ | r
    · simp [hr]
    · have hrino := (rdfsDestroyMapping_iIno hr).trans hdrop
      simp [hr, Fs.setNvm, hrino]
  · simp only [Fs.evictInode, rdfsEvictInode, Space.establish, Space.destroy, Fs.put, Space.put, he,
      hest.2, hn, update_self]
    rcases hr : rdfsDestroyMapping sb e.2.2.1 e.2.2.2 e.2.1 with _ | r
    · simp [hr]
    · simp [hr]

variable {g : Master} {areas : NvmLists} {free used : Fin 2 → List ℕ} {inode : Inode}

/-- An inode without an area gets one that `nvfree` takes back, if there is one. -/
theorem AreaInv.establish (h : AreaInv areas free used) (sb : Super) (g : Master)
    (hv : inode.iVirtAddr = 0) (hcnt : inode.mappingCount = 0) (ptr : ℕ)
    {e : ℤ × Inode × Master × NvmLists} (he : rdfsEstablishMapping sb g areas inode ptr = e) :
    e.2.1.iIno = inode.iIno ∧ e.2.1.iNlink = inode.iNlink ∧ e.2.1.mappingCount = 1 ∧
      SameInodes g.nvm e.2.2.1.nvm ∧
      ∃ areas', Rdfs.nvfree e.2.2.2 e.2.1.iVirtAddr = some areas' := by
  obtain ⟨r, hr⟩ : ∃ r, takeArea sb g.nvm.mem areas
      { inode with mappingCount := inode.mappingCount + 1 } ptr = r := ⟨_, rfl⟩
  have hkept : r.1.iIno = inode.iIno ∧ r.1.iNlink = inode.iNlink ∧ r.1.mappingCount = 1 ∧
      ∃ areas', Rdfs.nvfree r.2.2 r.1.iVirtAddr = some areas' := by
    rw [takeArea_eq, if_neg (not_not.2 hv)] at hr
    rcases hmode : areaMode inode.iMode with _ | i
    · simp only [hmode] at hr
      rw [← hr]
      exact ⟨rfl, rfl, by simp [hcnt], areas, by rw [hv]; rfl⟩
    simp only [hmode] at hr
    rw [← hr]
    refine ⟨rfl, rfl, by simp [hcnt], ?_⟩
    rcases hfree : free i with _ | ⟨p, rest⟩
    · rw [h.nvmalloc_none hfree]
      exact ⟨areas, rfl⟩
    · obtain ⟨areas₁, hnew, hinv⟩ := h.nvmalloc hfree
      rw [hnew]
      obtain ⟨areas₂, hback, -⟩ := hinv.nvfree (i := i) (p := p) (by simp)
      exact ⟨areas₂, hback⟩
  rw [← he]
  simp only [rdfsEstablishMapping, hr]
  split_ifs
  · exact ⟨hkept.1, hkept.2.1, hkept.2.2.1, SameInodes.refl _, hkept.2.2.2⟩
  · exact ⟨hkept.1, hkept.2.1, hkept.2.2.1, SameInodes.refl _, hkept.2.2.2⟩

/-- The only user of a mapping gives the area back, if it has one. -/
theorem rdfsDestroyMapping_only (sb : Super) (g : Master) {areas' : NvmLists}
    (hcnt : inode.mappingCount = 1) (hfree : nvfree areas inode.iVirtAddr = some areas') :
    ∃ r, rdfsDestroyMapping sb g areas inode = some r ∧ r.2.1.iIno = inode.iIno ∧
      r.2.2.1.nvm = g.nvm := by
  by_cases hv : inode.iVirtAddr = 0
  · exact ⟨_, rdfsDestroyMapping_unmapped sb g hv, rfl, rfl⟩
  · exact ⟨_, rdfsDestroyMapping_last sb g hv hcnt.le hfree, rfl, rfl⟩

/-- An eviction puts the slot of an inode without links back unless the inode is bad, and leaves the
slots alone otherwise. -/
theorem AreaInv.evictInode (h : AreaInv areas free used) (sb : Super) (g : Master)
    (hv : inode.iVirtAddr = 0) (hcnt : inode.mappingCount = 0) (bad : Bool) (ptr : ℕ)
    (stateNew : Bool) (now : ℕ) :
    ∃ r, rdfsEvictInode sb g areas inode bad ptr stateNew now = some r ∧ ∃ st,
      SameInodes g.nvm st ∧ r.2.1.nvm =
        if inode.iNlink = 0 ∧ bad = false then rdfsFreeInode sb st inode.iIno now else st := by
  generalize he : rdfsEstablishMapping sb g areas inode ptr = e
  obtain ⟨hino, hnlink, hcount, hsame, areas', hback⟩ := h.establish sb g hv hcnt ptr he
  by_cases hdel : inode.iNlink = 0 ∧ bad = false
  · have hdrop := SameSlots.dropInode sb e.2.2.1 e.2.1 stateNew now
    generalize hd : dropInode sb e.2.2.1 e.2.1 stateNew now = d
    rw [hd] at hdrop
    obtain ⟨r, hr, hrino, hrnvm⟩ := rdfsDestroyMapping_only sb d.2
      (hdrop.mappingCount.trans hcount) (hdrop.iVirtAddr ▸ hback)
    have hevict : rdfsEvictInode sb g areas inode bad ptr stateNew now = some (r.2.1,
        { r.2.2.1 with nvm := rdfsFreeInode sb r.2.2.1.nvm r.2.1.iIno now }, r.2.2.2) := by
      simp [rdfsEvictInode, he, hnlink, hdel.1, hdel.2, hd, hr]
    refine ⟨_, hevict, d.2.nvm, hsame.trans hdrop.sameInodes, ?_⟩
    rw [if_pos hdel, hrnvm, hrino, hdrop.iIno, hino]
  · obtain ⟨r, hr, -, hrnvm⟩ := rdfsDestroyMapping_only sb e.2.2.1 hcount hback
    have hevict : rdfsEvictInode sb g areas inode bad ptr stateNew now =
        some (r.2.1, r.2.2.1, r.2.2.2) := by
      rw [← hnlink] at hdel
      simp [rdfsEvictInode, he, if_neg hdel, hr]
    exact ⟨_, hevict, e.2.2.1.nvm, hsame, by rw [if_neg hdel, hrnvm]⟩

/-- The slot at the head of the free list is back on the list of its node, and the counts are those
before the call. -/
def SlotBack (sb : Super) (st : Nvm) (nextNumaId : ℕ) (st' : Nvm) : Prop :=
  (st.numaDes (getANuma sb nextNumaId).1).freeInodePhy ∈
      freeInodes st' (getANuma sb nextNumaId).1 ∧
    ∀ n, (st'.numaDes n).freeInodeCount = (st.numaDes n).freeInodeCount

/-- Freeing the inode in a slot that has just been taken. -/
theorem InodeInv.slotBack (h : InodeInv R.inodes st live) (hcount :
      (st.numaDes (getANuma sb nextNumaId).1).freeInodeCount ≠ 0) {st₁ : Nvm}
    (hsame : SameInodes (rdfsNewInodeTake sb st nextNumaId).2.1 st₁)
    (hino : (rdfsNewInodeTake sb st nextNumaId).1 = some ino) (now : ℕ) :
    SlotBack sb st nextNumaId (rdfsFreeInode sb st₁ ino now) := by
  rcases h.take_cases nextNumaId rfl with ⟨h0, -⟩ |
    ⟨ino', p, st', hpos, hhead, hp, hnr, hphy, hr, -, hd, ho⟩
  · exact absurd h0 hcount
  rw [hr] at hino hsame
  obtain rfl : ino' = ino := some.inj hino
  generalize hk : (getANuma sb nextNumaId).1 = k
  rw [hk] at hpos hhead hp hd ho
  have hnode : getRdfsInodeNuma sb (getRdfsInode sb ino') = k := by
    rw [← (InodeLayout.of_mem_slots hp).2.1, ← hphy]
    rfl
  have hdes : (rdfsFreeInode sb st₁ ino' now).numaDes =
      Function.update st₁.numaDes k { st₁.numaDes k with
        freeInodePhy := p, freeInodeCount := (st₁.numaDes k).freeInodeCount + 1 } := by
    simp only [rdfsFreeInode, hnode, hphy, Nvm.setNuma]
  refine ⟨?_, fun j => ?_⟩
  · rw [hk, hhead, freeInodes, hdes, update_self, chain, List.iterate]
    exact mem_cons_self
  · rw [hdes]
    by_cases hj : j = k
    · subst hj
      have hc := (hsame j).2
      rw [hd] at hc
      rw [update_self]
      simp only at hc ⊢
      omega
    · rw [update_of_ne hj, (hsame j).2, ho j hj]

/-- The inode `rdfs_new_inode` drops when a call behind the slot fails, and what it has done to the
slots. -/
theorem rdfsNewInode_dropped (hattrs : c.newInode = some attrs)
    (hcount : (st.numaDes (getANuma sb nextNumaId).1).freeInodeCount ≠ 0) (hfail : ¬c.Succeed)
    (cpu now : ℕ) : ∃ e inode bad st₁ next ino, rdfsNewInode sb st nextNumaId cpu now c =
        (.dropped e inode bad, st₁, next) ∧ inode.iVirtAddr = 0 ∧ inode.mappingCount = 0 ∧
      (rdfsNewInodeTake sb st nextNumaId).1 = some ino ∧
      SameInodes (rdfsNewInodeTake sb st nextNumaId).2.1 st₁ ∧
      (c.diri ≠ 0 ∧ 0 ≤ c.inserted → inode.iIno = ino ∧ inode.iNlink = 0 ∧ bad = false) ∧
      (¬(c.diri ≠ 0 ∧ 0 ≤ c.inserted) → bad = true) := by
  obtain ⟨ino, st', next, hr⟩ : ∃ ino st' next,
      rdfsNewInodeTake sb st nextNumaId = (some ino, st', next) := by
    rw [rdfsNewInodeTake, if_neg hcount]
    exact ⟨_, _, _, rfl⟩
  simp only [rdfsNewInode, hattrs, hr]
  split_ifs with hd hi hw ha hs
  · exact ⟨_, _, _, _, _, ino, rfl, rfl, rfl, rfl, SameInodes.refl _, fun hc => absurd hd hc.1,
      fun _ => rfl⟩
  · exact ⟨_, _, _, _, _, ino, rfl, rfl, rfl, rfl, SameInodes.refl _,
      fun hc => absurd hc.2 (not_le.2 hi), fun _ => rfl⟩
  · exact ⟨_, _, _, _, _, ino, rfl, rfl, rfl, rfl, SameInodes.refl _, fun _ => ⟨rfl, rfl, rfl⟩,
      fun hc => absurd ⟨hd, not_lt.1 hi⟩ hc⟩
  · exact ⟨_, _, _, _, _, ino, rfl, rfl, rfl, rfl, SameInodes.refl _, fun _ => ⟨rfl, rfl, rfl⟩,
      fun hc => absurd ⟨hd, not_lt.1 hi⟩ hc⟩
  · exact ⟨_, _, _, _, _, ino, rfl, rfl, rfl, rfl, SameInodes.refl _, fun _ => ⟨rfl, rfl, rfl⟩,
      fun hc => absurd ⟨hd, not_lt.1 hi⟩ hc⟩
  · exact absurd ⟨by simp [hattrs], hd, not_lt.1 hi, not_not.1 hw, not_not.1 ha, not_not.1 hs⟩ hfail

section iput

variable (h : InodeInv R.inodes g.nvm live) (ha : AreaInv areas free used)
  (hattrs : c.newInode = some attrs)
  (hcount : (g.nvm.numaDes (getANuma sb nextNumaId).1).freeInodeCount ≠ 0) (hfail : ¬c.Succeed)
  (cpu now ptr : ℕ) (stateNew : Bool)

include h ha hattrs hcount hfail

/-- An inode that is not bad gives its slot back. -/
theorem newInodeIput_good (hc : c.diri ≠ 0 ∧ 0 ≤ c.inserted) :
    ∃ g', newInodeIput sb g areas nextNumaId cpu now c ptr stateNew = some g' ∧
      SlotBack sb g.nvm nextNumaId g'.nvm := by
  obtain ⟨e, inode, bad, st₁, next, ino, hr, hv, hcnt, hino, hsame, hback, -⟩ :=
    rdfsNewInode_dropped hattrs hcount hfail cpu now
  obtain ⟨r, hevict, st₂, hsame', hnvm⟩ :=
    ha.evictInode sb { g with nvm := st₁ } hv hcnt bad ptr stateNew now
  refine ⟨r.2.1, by simp only [newInodeIput, hr, hevict, map_some], ?_⟩
  obtain ⟨hnumber, hnlink, hgood⟩ := hback hc
  rw [hnvm, if_pos ⟨hnlink, hgood⟩, hnumber]
  exact h.slotBack hcount (hsame.trans hsame') hino now

/-- A bad inode keeps its slot. -/
theorem newInodeIput_bad (hc : ¬(c.diri ≠ 0 ∧ 0 ≤ c.inserted)) :
    ∃ g', newInodeIput sb g areas nextNumaId cpu now c ptr stateNew = some g' ∧
      (g'.nvm.numaDes (getANuma sb nextNumaId).1).freeInodeCount + 1 =
        (g.nvm.numaDes (getANuma sb nextNumaId).1).freeInodeCount := by
  obtain ⟨e, inode, bad, st₁, next, ino, hr, hv, hcnt, -, hsame, -, hbad⟩ :=
    rdfsNewInode_dropped hattrs hcount hfail cpu now
  obtain ⟨r, hevict, st₂, hsame', hnvm⟩ :=
    ha.evictInode sb { g with nvm := st₁ } hv hcnt bad ptr stateNew now
  refine ⟨r.2.1, by simp only [newInodeIput, hr, hevict, map_some], ?_⟩
  rw [hnvm, if_neg (by simp [hbad hc]), ((hsame.trans hsame') _).2]
  rcases h.take_cases nextNumaId rfl with ⟨h0, -⟩ | ⟨_, _, _, hpos, _, _, _, _, hr', _, hd, _⟩
  · exact absurd h0 hcount
  · rw [hr', hd]
    simp only
    omega

/-- When a call behind the slot fails, the eviction of the inode puts the slot back if and only if
the directory was found and the inode got into the cache. -/
theorem slotBack_iff : (∃ g', newInodeIput sb g areas nextNumaId cpu now c ptr stateNew = some g' ∧
      SlotBack sb g.nvm nextNumaId g'.nvm) ↔ c.diri ≠ 0 ∧ 0 ≤ c.inserted := by
  refine ⟨fun hback => not_not.1 fun hc => ?_, newInodeIput_good h ha hattrs hcount hfail _ _ _ _⟩
  obtain ⟨g', hr, -, hcounts⟩ := hback
  obtain ⟨g'', hr', hless⟩ := newInodeIput_bad h ha hattrs hcount hfail cpu now ptr stateNew hc
  obtain rfl : g'' = g' := some.inj (hr'.symm.trans hr)
  have := hcounts (getANuma sb nextNumaId).1
  omega

end iput

/-- The small region, freshly mounted. -/
def smallMaster : Master :=
  ⟨Region.small.mount fun _ => 0, ⟨fun _ => 0, fun _ => 0⟩, pagePteNums, 0, fun _ => default⟩

theorem smallMaster_freeInodeCount :
    (smallMaster.nvm.numaDes (getANuma oneNode 0).1).freeInodeCount = 4 := by decide +kernel

/-- The access control list of a new file cannot be initialised : its slot comes back. -/
theorem slotBack_acl : ∃ g', newInodeIput oneNode smallMaster nvmallocInit 0 0 0
        { allPass with acl := (-12, regAttrs.iMode) } 0 false = some g' ∧
      SlotBack oneNode smallMaster.nvm 0 g'.nvm := by
  have hinv : InodeInv Region.small.inodes smallMaster.nvm [] := Region.small.inodeInv_mount _
  refine (slotBack_iff hinv areaInv_nvmallocInit rfl ?_ (fun hc => absurd hc.acl (by decide)) 0 0 0
    false).2 ⟨by decide, by decide⟩
  rw [smallMaster_freeInodeCount]
  decide

/-- The number of a new file is in the cache already : its slot, one of four, is lost. -/
theorem bad_inode_keeps_slot :
    ∃ g', newInodeIput oneNode smallMaster nvmallocInit 0 0 0 { allPass with inserted := -16 } 0
        false = some g' ∧ (g'.nvm.numaDes (getANuma oneNode 0).1).freeInodeCount = 3 ∧
      ¬SlotBack oneNode smallMaster.nvm 0 g'.nvm := by
  have hinv : InodeInv Region.small.inodes smallMaster.nvm [] := Region.small.inodeInv_mount _
  have hcount := smallMaster_freeInodeCount
  have hne : (smallMaster.nvm.numaDes (getANuma oneNode 0).1).freeInodeCount ≠ 0 := by omega
  obtain ⟨g', hr, hless⟩ := newInodeIput_bad hinv areaInv_nvmallocInit rfl hne
    (fun hc => absurd hc.inserted (by decide)) 0 0 0 false
    (show ¬({ allPass with inserted := -16 }.diri ≠ 0 ∧ (0 : ℤ) ≤ -16) by decide)
  refine ⟨g', hr, by omega, fun hback => ?_⟩
  have := hback.2 (getANuma oneNode 0).1
  omega

end Rdfs
