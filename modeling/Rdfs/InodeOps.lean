import Rdfs.AllocBlocks
import Rdfs.PageTree

/-!
# What an operation on an inode writes

An inode is stored in a slot of 128 bytes, through a structure of 136 bytes. `InodeOp` are the
operations that write to the stored inode : `rdfs_new_inode` when it takes the slot,
`rdfs_update_inode`, `__rdfs_write_inode`, `rdfs_init_pg_table` and `rdfs_free_inode`. An
operation is `Confined` if it writes to the slot and to the pages it allocates only, so that all
other slots and the page behind the last slot stay as they are.

The last two fields of the structure lie in the next slot, and `rdfs_new_inode` clears them. In
every state that operations reach (`TableRun`) an operation is confined exactly when it does not
do that, or the bytes it clears are zero already (`TableRun.confined_iff`).
-/

namespace Rdfs

open List

/-! ## The code -/

/-- `S_ISREG`. -/
def SIsReg (mode : ℕ) : Prop := mode &&& 0xf000 = 0x8000

/-- `S_ISDIR`. -/
def SIsDir (mode : ℕ) : Prop := mode &&& 0xf000 = 0x4000

/-- `S_ISLNK`. -/
def SIsLnk (mode : ℕ) : Prop := mode &&& 0xf000 = 0xa000

instance (mode : ℕ) : Decidable (SIsReg mode) := inferInstanceAs (Decidable (_ = _))

instance (mode : ℕ) : Decidable (SIsDir mode) := inferInstanceAs (Decidable (_ = _))

instance (mode : ℕ) : Decidable (SIsLnk mode) := inferInstanceAs (Decidable (_ = _))

/-- `rdfs_update_inode`. -/
def rdfsUpdateInode (sb : Super) (m : Mem) (inode : Inode) : Mem :=
  inodeStruct.putFields m (getRdfsInodePhyAddr sb inode.iIno)
    [(.iMode, inode.iMode), (.iUid, inode.iUid), (.iGid, inode.iGid), (.iLinkCounts, inode.iNlink),
      (.iSize, inode.iSize), (.iBlocks, inode.iBlocks), (.iAtime, inode.iAtime),
      (.iCtime, inode.iCtime), (.iMtime, inode.iMtime), (.iGeneration, inode.iGeneration)]

/-- The pairs of an `S_` flag of `struct inode` and the stored flag for it. -/
def inodeFlagPairs : List (ℕ × ℕ) :=
  [(0x1, 0x8), (0x4, 0x20), (0x8, 0x10), (0x2, 0x80), (0x40, 0x10000)]

/-- `get_rdfs_inode_flags` : the flags of `struct inode` taken over. -/
def getRdfsInodeFlags (inode : Inode) : ℕ :=
  inodeFlagPairs.foldl (fun flags p => if inode.vfsFlags &&& p.1 ≠ 0 then flags ||| p.2 else flags)
    (inode.iFlags &&& (0xffffffff - 0x100b8))

/-- `s_inode_size` of `struct rdfs_sb_info`, which nothing sets. -/
def sInodeSize : ℕ := 0

/-- `__rdfs_write_inode`; `stateNew` is `RDFS_STATE_NEW` of `i_state`. -/
def rawRdfsWriteInode (sb : Super) (m : Mem) (inode : Inode) (stateNew : Bool) : Inode × Mem :=
  let ni := getRdfsInodePhyAddr sb inode.iIno
  let m := if stateNew then m.fill sInodeSize ni 0 else m
  let inode := { inode with iFlags := getRdfsInodeFlags inode }
  let dirAcl := if SIsReg inode.iMode then [] else [(InodeField.iDirAcl, inode.iDirAcl)]
  (inode, inodeStruct.putFields m ni
    ([(.iMode, inode.iMode), (.iUid, inode.iUid), (.iGid, inode.iGid), (.iLinkCounts, inode.iNlink),
      (.iSize, inode.iSize), (.iAtime, inode.iAtime), (.iCtime, inode.iCtime),
      (.iMtime, inode.iMtime), (.iBlocks, inode.iBlocks % 2 ^ 32), (.iDtime, inode.iDtime),
      (.iFlags, inode.iFlags), (.iFileAcl, inode.iFileAcl)] ++ dirAcl ++
      [(.iGeneration, inode.iGeneration)]))

/-- The pages that the first `k` calls of `rdfs_get_zeroed_page` return. -/
def zeroedPages (sb : Super) (cpu : ℕ) : ℕ → Nvm → List ℕ
  | 0, _ => []
  | k + 1, st =>
    let r := rdfsGetZeroedPage sb cpu st
    if r.1 = 0 then zeroedPages sb cpu k r.2 else rdfsPa sb r.1 :: zeroedPages sb cpu k r.2

/-- An operation on a stored inode. -/
inductive InodeOp
  | newInode
  | updateInode (inode : Inode)
  | writeInode (inode : Inode) (stateNew : Bool)
  | initPgTable (cpu ino : ℕ)
  | freeInode (ino seconds : ℕ)

namespace InodeOp

/-- What an operation does to the region and to `next_numa_id`. -/
def run (sb : Super) (st : Nvm) (nextNumaId : ℕ) : InodeOp → Nvm × ℕ
  | newInode => (rdfsNewInodeTake sb st nextNumaId).2
  | updateInode inode => ({ st with mem := rdfsUpdateInode sb st.mem inode }, nextNumaId)
  | writeInode inode stateNew =>
    ({ st with mem := (rawRdfsWriteInode sb st.mem inode stateNew).2 }, nextNumaId)
  | initPgTable cpu ino => ((rdfsInitPgTable sb cpu st ino).2, nextNumaId)
  | freeInode ino seconds => (rdfsFreeInode sb st ino seconds, nextNumaId)

/-- The slot an operation acts on : the head of the free list for a new inode. -/
def slot (sb : Super) (st : Nvm) (nextNumaId : ℕ) : InodeOp → ℕ
  | newInode => (st.numaDes (getANuma sb nextNumaId).1).freeInodePhy
  | updateInode inode | writeInode inode _ => getRdfsInodePhyAddr sb inode.iIno
  | initPgTable _ ino | freeInode ino _ => getRdfsInodePhyAddr sb ino

/-- The pages an operation allocates. -/
def allocated (sb : Super) (st : Nvm) : InodeOp → List ℕ
  | initPgTable cpu _ => zeroedPages sb cpu 3 st
  | _ => []

/-- The inodes in use after an operation. -/
def live (sb : Super) (st : Nvm) (nextNumaId : ℕ) (live : List ℕ) : InodeOp → List ℕ
  | newInode => live ++ (rdfsNewInodeTake sb st nextNumaId).1.toList
  | freeInode ino _ => live.erase ino
  | _ => live

/-- The operation is on an inode in use, or on one of the first slots if it is no deletion. -/
def Valid {sb : Super} (L : InodeLayout sb) (live : List ℕ) : InodeOp → Prop
  | newInode => True
  | updateInode inode | writeInode inode _ => inode.iIno ∈ L.reserved ++ live
  | initPgTable _ ino => ino ∈ L.reserved ++ live
  | freeInode ino _ => ino ∈ live

instance {sb : Super} (L : InodeLayout sb) (live : List ℕ) :
    (o : InodeOp) → Decidable (o.Valid L live)
  | newInode => isTrue trivial
  | updateInode _ | writeInode _ _ | initPgTable _ _ | freeInode _ _ =>
    inferInstanceAs (Decidable (_ ∈ (_ : List ℕ)))

/-- The operation takes no slot, or the eight bytes behind the slot it takes are zero. -/
def SpillClear (sb : Super) (st : Nvm) (nextNumaId : ℕ) : InodeOp → Prop
  | newInode =>
    let d := st.numaDes (getANuma sb nextNumaId).1
    d.freeInodeCount ≠ 0 → ∀ i < 8, st.mem (d.freeInodePhy + 128 + i) = 0
  | _ => True

instance (sb : Super) (st : Nvm) (nextNumaId : ℕ) :
    (o : InodeOp) → Decidable (o.SpillClear sb st nextNumaId)
  | newInode => inferInstanceAs (Decidable (_ ≠ 0 → ∀ i < 8, _ = _))
  | updateInode _ | writeInode _ _ | initPgTable _ _ | freeInode _ _ => isTrue trivial

/-- The operation writes to its slot and to the pages it allocates only : no other slot changes,
and neither does the first page of a node unless it is one of those. -/
def Confined {sb : Super} (R : Region sb) (st : Nvm) (nextNumaId : ℕ) (o : InodeOp) : Prop :=
  let m' := (o.run sb st nextNumaId).1.mem
  SameBut st.mem m' (o.slot sb st nextNumaId) (o.allocated sb st) ∧
    (∀ s, R.inodes.IsSlot s → s ≠ o.slot sb st nextNumaId → Mem.SameOn st.mem m' 128 s) ∧
    ∀ n, R.pages.IsPage (R.des n).freePagePhy → (R.des n).freePagePhy ∉ o.allocated sb st →
      Mem.SameOn st.mem m' 4096 (R.des n).freePagePhy

end InodeOp

/-! ## What each operation writes -/

variable {sb : Super}

/-- The fields `rdfs_new_inode` clears lie in the slot except for eight bytes behind it. -/
theorem sameOff_newInodeFields_iff (m : Mem) (p : ℕ) :
    Mem.SameOff m (inodeStruct.putFields m p newInodeFields) 128 p ↔
      ∀ i < 8, m (p + 128 + i) = 0 := by
  have hspill : ∀ x, p + 128 ≤ x → x < p + 136 →
      inodeStruct.putFields m p newInodeFields x = 0 := by
    intro x h1 h2
    have hnum : inodeStruct.offset .iColdPageNum = 132 := by decide
    simp only [CStruct.putFields, newInodeFields, foldl_cons, foldl_nil, CStruct.putField, hnum]
    rcases Nat.lt_or_ge x (p + 132) with h | h
    · rw [Mem.sameOff_store _ _ _ _ x (by omega)]
      exact (if_pos ⟨h1, h⟩).trans (by simp)
    · exact (if_pos ⟨h, h2⟩).trans (by simp)
  constructor
  · intro h i hi
    rw [← h (p + 128 + i) (by omega), hspill _ (by omega) (by omega)]
  · intro h x hx
    by_cases hin : p + 128 ≤ x ∧ x < p + 136
    · have hzero := h (x - (p + 128)) (by omega)
      rw [show p + 128 + (x - (p + 128)) = x by omega] at hzero
      rw [hspill x hin.1 hin.2, hzero]
    · exact InodeInv.sameOff_newInodeFields m p x (by omega)

theorem sameOff_rdfsUpdateInode (m : Mem) (inode : Inode) :
    Mem.SameOff m (rdfsUpdateInode sb m inode) 128 (getRdfsInodePhyAddr sb inode.iIno) :=
  sameOff_putFields_slot m _ _ (by simp)

theorem sameOff_rawRdfsWriteInode (m : Mem) (inode : Inode) (stateNew : Bool) :
    Mem.SameOff m (rawRdfsWriteInode sb m inode stateNew).2 128
      (getRdfsInodePhyAddr sb inode.iIno) := by
  have hclear : (if stateNew then m.fill sInodeSize (getRdfsInodePhyAddr sb inode.iIno) 0 else m) =
      m := by
    split_ifs
    · ext x
      rw [Mem.sameOff_fill m sInodeSize _ 0 x (by simp [sInodeSize])]
    · rfl
  simp only [rawRdfsWriteInode, hclear]
  refine sameOff_putFields_slot m _ _ ?_
  split_ifs <;> simp

theorem sameOff_rdfsFreeInode (st : Nvm) (ino seconds : ℕ) :
    Mem.SameOff st.mem (rdfsFreeInode sb st ino seconds).mem 128 (getRdfsInodePhyAddr sb ino) :=
  sameOff_putFields_slot st.mem _ [(.iDtime, seconds), (.iPgAddr, 0), (.iPgAddr, _)] (by simp)

theorem rdfsFreeInode_pages (st : Nvm) (ino seconds : ℕ) (n : Fin 2) :
    ((rdfsFreeInode sb st ino seconds).numaDes n).freePagePhy = (st.numaDes n).freePagePhy ∧
      ((rdfsFreeInode sb st ino seconds).numaDes n).freePageCount =
        (st.numaDes n).freePageCount := by
  by_cases hn : n = getRdfsInodeNuma sb (getRdfsInode sb ino)
  · subst hn
    simp only [rdfsFreeInode, Nvm.setNuma_self, and_self]
  · simp only [rdfsFreeInode, Nvm.setNuma_of_ne _ _ hn, and_self]

/-- `rdfs_get_zeroed_page` finds no page and changes nothing in memory, or clears a page. -/
theorem rdfsGetZeroedPage_cases (sb : Super) (cpu : ℕ) (st : Nvm) :
    ((rdfsGetZeroedPage sb cpu st).1 = 0 ∧ (rdfsGetZeroedPage sb cpu st).2.mem = st.mem) ∨
      ∃ p, p ≠ 0 ∧ (rdfsGetZeroedPage sb cpu st).1 = rdfsVa sb p ∧
        (rdfsGetZeroedPage sb cpu st).2.mem = st.mem.fill 4096 p 0 := by
  have hmem : (rdfsNewBlock sb cpu st 0 1 none).2.2.mem = st.mem := by
    simp only [rdfsNewBlock]
    split_ifs <;> rfl
  unfold rdfsGetZeroedPage
  by_cases h : (rdfsNewBlock sb cpu st 0 1 none).2.1 = 0
  · exact Or.inl ⟨by simp [h], by simp [h, hmem]⟩
  · exact Or.inr ⟨_, h, by simp [h], by simp [h, hmem]⟩

/-- The region after `k` calls of `rdfs_get_zeroed_page`. -/
def afterZeroed (sb : Super) (cpu : ℕ) : ℕ → Nvm → Nvm
  | 0, st => st
  | k + 1, st => afterZeroed sb cpu k (rdfsGetZeroedPage sb cpu st).2

theorem sameOffPages_afterZeroed (sb : Super) (cpu : ℕ) : ∀ (k : ℕ) (st : Nvm),
    SameOffPages st.mem (afterZeroed sb cpu k st).mem (zeroedPages sb cpu k st)
  | 0, st => SameOffPages.refl _ _
  | k + 1, st => by
    have ih := sameOffPages_afterZeroed sb cpu k (rdfsGetZeroedPage sb cpu st).2
    rw [afterZeroed, zeroedPages]
    obtain ⟨hr, hm⟩ | ⟨p, hp, hr, hm⟩ := rdfsGetZeroedPage_cases sb cpu st
    · rw [if_pos hr, ← hm]
      exact ih
    · rw [if_neg (hr ▸ rdfsVa_ne_zero sb hp), hr, rdfsPa_rdfsVa]
      rw [hm] at ih
      have hfill := SameOffPages.of_sameOff (p := p) (Mem.sameOff_fill st.mem 4096 p 0) le_rfl
        le_rfl
      exact (hfill.mono (by simp)).trans (ih.mono (by simp))

/-- `rdfs_init_pg_table` writes to the pages it obtains and to `i_pg_addr`. -/
theorem rdfsInitPgTable_cases (sb : Super) (cpu : ℕ) (st : Nvm) (ino : ℕ) :
    ∃ m, (rdfsInitPgTable sb cpu st ino).2 = { afterZeroed sb cpu 3 st with mem := m } ∧
      SameBut (afterZeroed sb cpu 3 st).mem m (getRdfsInodePhyAddr sb ino)
        (zeroedPages sb cpu 3 st) := by
  generalize h₁ : rdfsGetZeroedPage sb cpu st = r₁
  generalize h₂ : rdfsGetZeroedPage sb cpu r₁.2 = r₂
  generalize h₃ : rdfsGetZeroedPage sb cpu r₂.2 = r₃
  simp only [rdfsInitPgTable, afterZeroed, zeroedPages, h₁, h₂, h₃]
  by_cases h : r₁.1 = 0 ∨ r₂.1 = 0 ∨ r₃.1 = 0
  · exact ⟨r₃.2.mem, by rw [if_pos h], fun _ _ _ => rfl⟩
  · refine ⟨_, by rw [if_neg h], ?_⟩
    simp only [not_or] at h
    rw [if_neg h.1, if_neg h.2.1, if_neg h.2.2]
    have hpmd : SameOffPages r₃.2.mem (rdfsSetPmd sb r₃.2.mem r₂.1 r₃.1) [rdfsPa sb r₂.1] :=
      SameOffPages.of_sameOff (Mem.sameOff_store _ _ _ _) le_rfl (by omega)
    have hpud := SameOffPages.of_sameOff (p := rdfsPa sb r₁.1) (Mem.sameOff_store
      (rdfsSetPmd sb r₃.2.mem r₂.1 r₃.1) 8 (rdfsPa sb r₁.1) (rdfsPa sb r₂.1 ||| pageTable)) le_rfl
      (by omega)
    refine ((hpmd.sameBut (by simp) _).trans (hpud.sameBut (by simp) _)).trans
      (sameBut_of_sameOff ?_ _)
    exact sameOff_putFields_slot _ _ [(.iPgAddr, rdfsPa sb r₁.1)] (by simp)

theorem sameBut_rdfsInitPgTable (sb : Super) (cpu : ℕ) (st : Nvm) (ino : ℕ) :
    SameBut st.mem (rdfsInitPgTable sb cpu st ino).2.mem (getRdfsInodePhyAddr sb ino)
      (zeroedPages sb cpu 3 st) := by
  obtain ⟨m, hr, hm⟩ := rdfsInitPgTable_cases sb cpu st ino
  have hoff := sameOffPages_afterZeroed sb cpu 3 st
  generalize afterZeroed sb cpu 3 st = st₃ at hr hm hoff
  rw [hr]
  exact (hoff.sameBut (Subset.refl _) _).trans hm

variable {R : Region sb} {st : Nvm} {nextNumaId : ℕ} {live own : List ℕ}

/-- Whatever calls of `rdfs_get_zeroed_page` return is owned afterwards. -/
theorem Owned.getZeroedPages (cpu : ℕ) : ∀ (k : ℕ) {st : Nvm} {own : List ℕ}, Owned R.pages st own →
    Owned R.pages (afterZeroed sb cpu k st) (zeroedPages sb cpu k st ++ own) ∧
      SameInodes st (afterZeroed sb cpu k st)
  | 0, st, own, h => ⟨h, SameInodes.refl st⟩
  | k + 1, st, own, h => by
    rw [zeroedPages, afterZeroed]
    rcases Nat.eq_zero_or_pos (st.numaDes (getCpuNuma sb cpu)).freePageCount with hc | hc
    · rw [rdfsGetZeroedPage_none rfl hc, if_pos rfl]
      exact Owned.getZeroedPages cpu k h
    · obtain ⟨p, st', hr, hp, hown, -, htook, -⟩ := h.getZeroedPage rfl hc
      obtain ⟨hown', hsame⟩ := Owned.getZeroedPages cpu k hown
      rw [hr, if_neg (rdfsVa_ne_zero sb hp), rdfsPa_rdfsVa]
      exact ⟨hown'.of_perm perm_middle, htook.sameInodes.trans hsame⟩

/-- Writes to a slot leave the pages alone. -/
theorem Owned.write_slot (h : Owned R.pages st own) {st' : Nvm} {s : ℕ} (hs : R.inodes.IsSlot s)
    (hm : Mem.SameOff st.mem st'.mem 128 s)
    (hdes : ∀ n, (st'.numaDes n).freePagePhy = (st.numaDes n).freePagePhy ∧
      (st'.numaDes n).freePageCount = (st.numaDes n).freePageCount) : Owned R.pages st' own :=
  h.congr hdes fun p hp _ => hm.sameOn (by have := R.isSlot_disjoint_page hs hp; omega)

theorem Owned.initPgTable_any (h : Owned R.pages st own) (cpu : ℕ) {ino : ℕ}
    (hs : R.inodes.IsSlot (getRdfsInodePhyAddr sb ino)) :
    Owned R.pages (rdfsInitPgTable sb cpu st ino).2 (zeroedPages sb cpu 3 st ++ own) ∧
      SameInodes st (rdfsInitPgTable sb cpu st ino).2 := by
  obtain ⟨m, hr, hm⟩ := rdfsInitPgTable_cases sb cpu st ino
  obtain ⟨hown, hsame⟩ := h.getZeroedPages cpu 3
  generalize afterZeroed sb cpu 3 st = st₃ at hr hm hown hsame
  rw [hr]
  refine ⟨hown.congr (fun n => ⟨rfl, rfl⟩) fun p hp hnot => hm.sameOn ?_ fun q hq => ?_, hsame⟩
  · exact R.isSlot_disjoint_page hs hp
  · have hq' := hown.isPage (mem_append_left own hq)
    exact hq'.disjoint hp fun heq => hnot (heq ▸ mem_append_left _ hq)

/-- Writes to the slot of an inode in use and to pages leave the unused slots alone. -/
theorem InodeInv.write_slot (h : InodeInv R.inodes st live) {st' : Nvm} {ino : ℕ} {ps : List ℕ}
    (hino : ino ∈ R.inodes.reserved ++ live) (hps : ∀ p ∈ ps, R.pages.IsPage p)
    (hm : SameBut st.mem st'.mem (getRdfsInodePhyAddr sb ino) ps) (hsame : SameInodes st st') :
    InodeInv R.inodes st' live := by
  refine h.other (fun n => (hsame n).1) (fun n => (hsame n).2) fun n p hp hnot => ?_
  have hslot := InodeLayout.isSlot_of_mem hp
  refine hm.sameOn ?_ fun q hq => (R.isSlot_disjoint_page hslot (hps q hq)).symm
  exact InodeLayout.isSlot_disjoint (h.isSlot hino).1 hslot (h.ne_slot hino hp hnot).symm

/-! ## Runs -/

/-- States reached from a fresh region by operations on inodes in use none of which clears
anything behind a slot, and by anything else that leaves the unused slots and both kinds of
lists in order. -/
inductive TableRun (R : Region sb) : Nvm → ℕ → List ℕ → Prop
  | mount (m : Mem) (nextNumaId : ℕ) : TableRun R (R.mount m) nextNumaId []
  | op {st : Nvm} {nextNumaId : ℕ} {live : List ℕ} (o : InodeOp) (hv : o.Valid R.inodes live)
      (hc : o.SpillClear sb st nextNumaId) (h : TableRun R st nextNumaId live) :
      TableRun R (o.run sb st nextNumaId).1 (o.run sb st nextNumaId).2
        (o.live sb st nextNumaId live)
  | other {st st' : Nvm} {nextNumaId : ℕ} {live : List ℕ} (hsame : SameInodes st st')
      (hm : ∀ n, ∀ p ∈ R.inodes.slots n, getRdfsInodenr sb p ∉ live →
        Mem.SameOn st.mem st'.mem 128 p)
      (hpages : ∃ own, Owned R.pages st' own) (h : TableRun R st nextNumaId live) :
      TableRun R st' nextNumaId live

section

variable (h : InodeInv R.inodes st live)
include h

/-- Taking a slot writes to the slot only exactly when nothing behind it changes. -/
theorem InodeInv.newInode_sameOff_iff (nextNumaId : ℕ) :
    Mem.SameOff st.mem (rdfsNewInodeTake sb st nextNumaId).2.1.mem 128
        (InodeOp.newInode.slot sb st nextNumaId) ↔
      InodeOp.newInode.SpillClear sb st nextNumaId := by
  simp only [InodeOp.slot, InodeOp.SpillClear]
  obtain ⟨hc, hr⟩ | ⟨ino, p, st', hpos, hhead, -, -, -, hr, hm, -, -⟩ := h.take_cases nextNumaId rfl
  · simp only [hr, hc, ne_eq, not_true_eq_false, false_implies, iff_true]
    exact fun _ _ => rfl
  · rw [hr, hm, hhead, sameOff_newInodeFields_iff]
    exact ⟨fun h _ => h, fun h => h hpos.ne'⟩

theorem InodeInv.newInode_pages (nextNumaId : ℕ) (n : Fin 2) :
    ((rdfsNewInodeTake sb st nextNumaId).2.1.numaDes n).freePagePhy = (st.numaDes n).freePagePhy ∧
      ((rdfsNewInodeTake sb st nextNumaId).2.1.numaDes n).freePageCount =
        (st.numaDes n).freePageCount := by
  obtain ⟨-, hr⟩ | ⟨ino, p, st', -, -, -, -, -, hr, -, hd, ho⟩ := h.take_cases nextNumaId rfl
  · rw [hr]
    exact ⟨rfl, rfl⟩
  · rw [hr]
    by_cases hn : n = (getANuma sb nextNumaId).1
    · rw [hn, hd]
      exact ⟨rfl, rfl⟩
    · rw [ho n hn]
      exact ⟨rfl, rfl⟩

/-- The slot a new inode takes, when there is one. -/
theorem InodeInv.isSlot_head {n : Fin 2} (hpos : 0 < (st.numaDes n).freeInodeCount) :
    R.inodes.IsSlot (st.numaDes n).freeInodePhy := by
  refine InodeLayout.isSlot_of_mem ((h.pool n).mem_free ?_)
  obtain ⟨c, hc⟩ := Nat.exists_eq_succ_of_ne_zero hpos.ne'
  rw [hc]
  exact mem_cons_self

/-- Every operation writes to its slot and its pages only, up to what `rdfs_new_inode` clears. -/
theorem InodeInv.op_sameBut_iff (nextNumaId : ℕ) (o : InodeOp) :
    SameBut st.mem (o.run sb st nextNumaId).1.mem (o.slot sb st nextNumaId) (o.allocated sb st) ↔
      o.SpillClear sb st nextNumaId := by
  cases o with
  | newInode =>
    rw [← h.newInode_sameOff_iff nextNumaId]
    exact ⟨fun hm x hx => hm x hx (by simp [InodeOp.allocated]), fun hm => sameBut_of_sameOff hm _⟩
  | updateInode inode =>
    simp only [InodeOp.run]
    exact iff_of_true (sameBut_of_sameOff (sameOff_rdfsUpdateInode st.mem inode) _) trivial
  | writeInode inode stateNew =>
    simp only [InodeOp.run]
    exact iff_of_true (sameBut_of_sameOff (sameOff_rawRdfsWriteInode st.mem inode stateNew) _)
      trivial
  | initPgTable cpu ino =>
    exact iff_of_true (sameBut_rdfsInitPgTable sb cpu st ino) trivial
  | freeInode ino seconds =>
    exact iff_of_true (sameBut_of_sameOff (sameOff_rdfsFreeInode st ino seconds) _) trivial

/-- An operation acts on a slot of the table, unless it finds none and changes nothing. -/
theorem InodeInv.op_isSlot (nextNumaId : ℕ) {o : InodeOp} (hv : o.Valid R.inodes live) :
    R.inodes.IsSlot (o.slot sb st nextNumaId) ∨ (o.run sb st nextNumaId).1.mem = st.mem := by
  cases o with
  | newInode =>
    obtain ⟨-, hr⟩ | ⟨ino, p, st', hpos, -, -, -, -, -, -, -, -⟩ := h.take_cases nextNumaId rfl
    · exact Or.inr (by simp only [InodeOp.run, hr])
    · exact Or.inl (h.isSlot_head hpos)
  | updateInode inode => exact Or.inl (h.isSlot hv).1
  | writeInode inode stateNew => exact Or.inl (h.isSlot hv).1
  | initPgTable cpu ino => exact Or.inl (h.isSlot hv).1
  | freeInode ino seconds => exact Or.inl (h.isSlot (mem_append_right _ hv)).1

end

theorem Owned.op_isPage (h : Owned R.pages st own) {o : InodeOp} {p : ℕ}
    (hp : p ∈ o.allocated sb st) : R.pages.IsPage p := by
  cases o with
  | initPgTable cpu ino => exact (h.getZeroedPages cpu 3).1.isPage (mem_append_left _ hp)
  | _ => cases hp

namespace TableRun

theorem write (h : InodeInv R.inodes st live) (hown : Owned R.pages st own) {m : Mem} {ino : ℕ}
    (hino : ino ∈ R.inodes.reserved ++ live)
    (hm : Mem.SameOff st.mem m 128 (getRdfsInodePhyAddr sb ino)) :
    InodeInv R.inodes { st with mem := m } live ∧ ∃ own, Owned R.pages { st with mem := m } own :=
  ⟨h.write_slot hino (by simp) (sameBut_of_sameOff hm []) fun _ => ⟨rfl, rfl⟩, own,
    hown.write_slot (h.isSlot hino).1 hm fun _ => ⟨rfl, rfl⟩⟩

/-- Along every run both kinds of lists are in order. -/
theorem inv (h : TableRun R st nextNumaId live) :
    InodeInv R.inodes st live ∧ ∃ own, Owned R.pages st own := by
  induction h with
  | mount m _ => exact ⟨R.inodeInv_mount m, [], R.owned_mount m⟩
  | @op st nextNumaId live o hv hc _ ih =>
    obtain ⟨hinv, own, hown⟩ := ih
    cases o with
    | newInode =>
      refine ⟨hinv.newInode, own, ?_⟩
      obtain ⟨-, hr⟩ | ⟨ino, p, st', hpos, -, -, -, -, hr, -, -, -⟩ :=
        hinv.take_cases nextNumaId rfl
      · simpa only [InodeOp.run, hr] using hown
      · exact hown.write_slot (hinv.isSlot_head hpos) ((hinv.newInode_sameOff_iff nextNumaId).2 hc)
          (hinv.newInode_pages nextNumaId)
    | updateInode inode => exact write hinv hown hv (sameOff_rdfsUpdateInode st.mem inode)
    | writeInode inode stateNew =>
      exact write hinv hown hv (sameOff_rawRdfsWriteInode st.mem inode stateNew)
    | initPgTable cpu ino =>
      obtain ⟨hown', hsame⟩ := hown.initPgTable_any cpu (hinv.isSlot hv).1
      exact ⟨hinv.write_slot hv (fun p hp => hown'.isPage (mem_append_left _ hp))
        (sameBut_rdfsInitPgTable sb cpu st ino) hsame, _, hown'⟩
    | freeInode ino seconds =>
      refine ⟨hinv.freeInode hv seconds, own, ?_⟩
      exact hown.write_slot (hinv.isSlot (mem_append_right _ hv)).1
        (sameOff_rdfsFreeInode st ino seconds) fun n => rdfsFreeInode_pages st ino seconds n
  | other hsame hm hpages _ ih =>
    exact ⟨ih.1.other (fun n => (hsame n).1) (fun n => (hsame n).2) hm, hpages⟩

/-- In every state a run reaches, an operation on an inode in use writes to its slot and to the
pages it allocates only exactly when it is not `rdfs_new_inode` taking a slot, or the eight bytes
behind the slot are zero. -/
theorem confined_iff (h : TableRun R st nextNumaId live) (o : InodeOp)
    (hv : o.Valid R.inodes live) : o.Confined R st nextNumaId ↔ o.SpillClear sb st nextNumaId := by
  obtain ⟨hinv, own, hown⟩ := h.inv
  refine ⟨fun hc => (hinv.op_sameBut_iff nextNumaId o).1 hc.1, fun hc => ?_⟩
  have hm := (hinv.op_sameBut_iff nextNumaId o).2 hc
  rcases hinv.op_isSlot nextNumaId hv with hslot | hnone
  · refine ⟨hm, fun s hs hne => hm.sameOn ?_ fun q hq => ?_, fun n hn hnot => hm.sameOn ?_ ?_⟩
    · exact InodeLayout.isSlot_disjoint hslot hs hne.symm
    · exact (R.isSlot_disjoint_page hs (hown.op_isPage hq)).symm
    · exact R.isSlot_disjoint_page hslot hn
    · exact fun q hq => (hown.op_isPage hq).disjoint hn fun heq => hnot (heq ▸ hq)
  · refine ⟨hm, fun s _ _ x _ _ => ?_, fun n _ _ x _ _ => ?_⟩
    · rw [hnone]
    · rw [hnone]

/-- The first inode of a fresh region whose memory is zero. -/
theorem confined_iff_small :
    InodeOp.newInode.Confined Region.small (Region.small.mount fun _ => 0) 0 :=
  (confined_iff (TableRun.mount _ 0) .newInode trivial).2 (by decide +kernel)

/-- An inode number 3 with mode `S_IFREG | 0644`. -/
def fileThree : Inode := { (default : Inode) with iIno := 3, iMode := 0x81a4 }

/-- Two inodes are created, the second gets its mode, the first is deleted. -/
def neighbourOps : List InodeOp :=
  [.newInode, .newInode, .updateInode fileThree, .freeInode 2 0]

def neighbourState : Nvm × ℕ :=
  neighbourOps.foldl (fun s o => o.run oneNode s.1 s.2) (Region.small.mount fun _ => 0, 0)

theorem tableRun_neighbourState : TableRun Region.small neighbourState.1 neighbourState.2 [3] := by
  have h0 := TableRun.mount (R := Region.small) (fun _ => 0) 0
  have h1 := h0.op .newInode trivial (by decide +kernel)
  have h2 := h1.op .newInode trivial (by decide +kernel)
  have h3 := h2.op (.updateInode fileThree) (by decide +kernel) trivial
  have h4 := h3.op (.freeInode 2 0) (by decide +kernel) trivial
  exact h4

/-- The next inode takes slot 2 again, and the mode of the inode in slot 3 is gone. -/
theorem new_inode_clears_mode : let st := neighbourState.1
    let st' := (InodeOp.newInode.run oneNode st neighbourState.2).1
    TableRun Region.small st neighbourState.2 [3] ∧
    inodeStruct.getField st.mem (getRdfsInodePhyAddr oneNode 3) .iMode = 0x81a4 ∧
    inodeStruct.getField st'.mem (getRdfsInodePhyAddr oneNode 3) .iMode = 0 ∧
    ¬InodeOp.newInode.Confined Region.small st neighbourState.2 := by
  intro st st'
  have hbefore : inodeStruct.getField st.mem (getRdfsInodePhyAddr oneNode 3) .iMode = 0x81a4 := by
    decide +kernel
  have hafter : inodeStruct.getField st'.mem (getRdfsInodePhyAddr oneNode 3) .iMode = 0 := by
    decide +kernel
  refine ⟨tableRun_neighbourState, hbefore, hafter, fun hc => ?_⟩
  have hsame := hc.2.1 (getRdfsInodePhyAddr oneNode 3) ⟨0, 2, Or.inl rfl, by decide, by decide⟩
    (by decide +kernel)
  have hload := Mem.load_congr (n := 4) (a := getRdfsInodePhyAddr oneNode 3 + 4)
    fun x h1 h2 => hsame x (by omega) (by omega)
  exact absurd (hafter.symm.trans (hload.trans hbefore)) (by decide)

end TableRun

end Rdfs
