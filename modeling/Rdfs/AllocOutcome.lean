import Rdfs.AllocRounds
import Rdfs.Directory

/-!
# What an allocation leaves behind

`rdfs_alloc_blocks` has no code for a failure half way. It enters its blocks one after the other,
counting each before it is entered, and returns at the first that cannot be entered, with what was
done so far left as it is; that `rdfs_new_block` has found no pages, or the slave no group, is
never looked at. So a call either appends all of its blocks or leaves something behind, and
`allOrNothing_iff` says when it is the former :

* the table has places for the blocks, and none of them is a later page of the last directory area;
* the nodes of the processor and of the inode have the pages for the table, for the blocks and for
  the cursor;
* for blocks of slaves, there are as many left in the group of the inode and on the list, and none
  of them is in use.

For a page of a directory, a call that finds none goes on with whatever `phys` names. The functions
of `dir.c` see this as an `AllocOutcome` (`FileRep.dirOutcome`).
-/

namespace Rdfs

open List

variable {sb : Super} {R : Region sb} {cpu zeroing : ℕ} {type : AllocType}

/-! ## What is expected -/

/-- `rdfs_new_block` fails in a call of `rdfs_alloc_blocks`, once the inode has its table : for the
blocks themselves, or for a page of the cursor in one of the rounds. -/
def NewBlockFails (sb : Super) (cpu zeroing : ℕ) (type : AllocType) (num : ℕ) (g : Master)
    (inode : Inode) (phys : ℕ) : Prop :=
  match type with
  | .page => (rdfsNewBlock sb cpu g.nvm phys num (some (getRdfsInode sb inode.iIno))).1 ≠ 0
  | .pte => NoCursorPage sb cpu zeroing num (allocStart sb cpu g inode num .pte phys)

/-- The blocks are new. Pages of the region were on the free list. Blocks of slaves are blocks of
slave 0 that have not been handed out, and what is entered for them are pages of the cursor. -/
def NewBlocks (blocks : ℕ) (ids own new es : List ℕ) (obtained : List (ℕ × ℕ)) :
    AllocType → Prop
  | .page => new = es ∧ obtained = []
  | .pte => es ⊆ new ++ own ∧ obtained.length = es.length ∧ obtained.Nodup ∧
      ∀ b ∈ obtained, b.1 = 0 ∧ b.2 < blocks ∧ b.2 ∉ ids

/-- The call has returned 0 and `i_blocks` is larger by `num`. In the `2 ^ 27` places of a table
there are, behind the blocks the file had, `num` new ones. -/
structure Appends (R : Region sb) (blocks : ℕ) (ids : List ℕ) (inode : Inode) (t : Option Tree)
    (own : List ℕ) (num : ℕ) (type : AllocType) (r : ℤ × AllocState) : Prop where
  ret : r.1 = 0
  iBlocks : r.2.inode.iBlocks = inode.iBlocks + num
  places : inode.iBlocks + num ≤ 2 ^ 27
  table : ∃ t' new es, FileRep R r.2.master.nvm inode.iIno t' (new ++ own) ∧
    t'.ents = fileEnts t ++ es ∧ es.length = num ∧ NewBlocks blocks ids own new es r.2.obtained type

/-- The call has returned an error, and `i_blocks`, the table of the file, the free lists and the
groups of the slaves are as they were. -/
structure LeftAlone (R : Region sb) (g : Master) (inode : Inode) (t : Option Tree) (own : List ℕ)
    (r : ℤ × AllocState) : Prop where
  ret : r.1 < 0
  iBlocks : r.2.inode.iBlocks = inode.iBlocks
  table : FileState R r.2.master.nvm inode.iIno t own
  free : ∀ n, freePages r.2.master.nvm n = freePages g.nvm n
  slaves : r.2.master.slaves = g.slaves
  bitmaps : r.2.inode.bitmaps = inode.bitmaps

/-- All of the blocks or none, and `-ENOSPC` if `rdfs_new_block` fails. -/
def AllOrNothing (R : Region sb) (blocks : ℕ) (ids : List ℕ) (cpu zeroing : ℕ)
    (type : AllocType) (num : ℕ) (g : Master) (inode : Inode) (t : Option Tree) (own : List ℕ)
    (phys : ℕ) : Prop :=
  let r := rdfsAllocBlocks sb cpu g inode num zeroing type phys
  (NewBlockFails sb cpu zeroing type num (ensureTable sb cpu g inode) inode phys → r.1 = -28) ∧
    (Appends R blocks ids inode t own num type r ∨ LeftAlone R g inode t own r)

/-- How many pages of the node of the inode `num` blocks take : one each, or those of the cursor
if the blocks are on slaves. -/
def blockPages (type : AllocType) (cnt num : ℕ) : ℕ :=
  match type with
  | .page => num
  | .pte => (cnt + num - 1) / 512

/-- What a call needs. -/
structure CanAlloc (sb : Super) (blocks : ℕ) (ids : List ℕ) (cpu : ℕ) (type : AllocType) (num : ℕ)
    (g : Master) (inode : Inode) (t : Option Tree) : Prop where
  places : inode.iBlocks + num ≤ 2 ^ 27
  seen : SeenInArea inode.iVirtAddr (inode.iBlocks + num - 1)
  pages : ∀ j, (if j = getCpuNuma sb cpu then tableSize (inode.iBlocks + num) - heldSize t else 0) +
    (if j = rdfsGetNumaByInode sb (getRdfsInode sb inode.iIno) then blockPages type g.pteCnt num
      else 0) ≤ (g.nvm.numaDes j).freePageCount
  fresh : type = .pte → FreshBlocks blocks ids num g.slaves inode.bitmaps

/-! ## The blocks obtained -/

variable {s s' : AllocState} {num : ℕ} {g : Master} {own : List ℕ} {t : Tree}

/-- One round obtains one block. -/
theorem allocRound_obtained {r : ℤ} (h : allocRound sb cpu zeroing .pte s = (r, s')) :
    s'.obtained = s.obtained ++ [((allocBlock s.master.slaves s.inode.bitmaps).2.1,
      (allocBlock s.master.slaves s.inode.bitmaps).1)] ∧
    s'.inode.bitmaps = (allocBlock s.master.slaves s.inode.bitmaps).2.2.1 ∧
    s'.master.slaves = (allocBlock s.master.slaves s.inode.bitmaps).2.2.2 := by
  obtain ⟨hsId, hblockId, hbitmaps, hslaves⟩ := rdfsNewPagePte_slaves sb cpu s.master
    s.inode.bitmaps (getRdfsInode sb s.inode.iIno)
  generalize hr' : rdfsNewPagePte sb cpu s.master s.inode.bitmaps (getRdfsInode sb s.inode.iIno) =
    r'
  rw [hr'] at hsId hblockId hbitmaps hslaves
  obtain ⟨r'', hr''⟩ : ∃ r'', rdfsInsertPage sb cpu (countBlock sb r'.2.2.2.nvm
      { s.inode with bitmaps := r'.2.2.1 }) r'.2.2.2.kernel s.inode.iIno s.inode.iVirtAddr
    (s.inode.iBlocks + 1) r'.2.1.phyaddr = r'' := ⟨_, rfl⟩
  simp only [allocRound, takeBlock, hr', enterBlock, hr''] at h
  obtain ⟨-, rfl⟩ := Prod.mk.inj h
  rw [← hsId, ← hblockId, ← hbitmaps, ← hslaves]
  exact ⟨rfl, rfl, rfl⟩

/-- A loop that succeeds has obtained a block in each round. -/
theorem allocLoop_obtained (h : allocLoop sb cpu zeroing .pte num s = (0, s')) :
    s'.obtained = s.obtained ++ handed num s.master.slaves s.inode.bitmaps := by
  induction num generalizing s with
  | zero =>
    obtain rfl := (Prod.mk.inj h).2
    simp [handed]
  | succ num ih =>
    obtain ⟨s₁, hround, hrest⟩ := allocLoop_first h
    obtain ⟨hobt, hbitmaps, hslaves⟩ := allocRound_obtained hround
    rw [ih hrest, hobt, hbitmaps, hslaves, handed, append_assoc, singleton_append]

/-! ## The start of the loop -/

/-- Once `rdfs_new_block` has found the pages for the blocks, if they are pages of the region, the
loop starts with all it takes besides the pages of the table. -/
theorem Owned.started {inode : Inode} {tab : List ℕ} {i : Fin 2}
    (h : Owned R.pages g.nvm (tab ++ own)) (hcur : CursorIn g own)
    (hi : rdfsGetNumaByInode sb (getRdfsInode sb inode.iIno) = i) {num phys : ℕ}
    (hlt : num < 2 ^ 31) (hok : ¬NewBlockFails sb cpu zeroing type num g inode phys) :
    ∃ new nvm₀ phys₀, allocStart sb cpu g inode num type phys =
        ⟨phys₀, [], inode, { g with nvm := nvm₀ }⟩ ∧
      Owned R.pages nvm₀ (tab ++ (new ++ own)) ∧ nvm₀.mem = g.nvm.mem ∧
      Took i new.length g.nvm nvm₀ ∧
      (∀ cnt, blockPages type cnt num = new.length + cursorPages type cnt num) ∧
      Supplied sb cpu zeroing type num ⟨phys₀, [], inode, { g with nvm := nvm₀ }⟩ (new ++ own) ∧
      (type = .page → chain nvm₀.mem 0 phys₀ num = new) := by
  cases type with
  | page =>
    have hret : (rdfsNewBlock sb cpu g.nvm phys num (some (getRdfsInode sb inode.iIno))).1 = 0 :=
      not_not.1 hok
    obtain ⟨nvm₀, hr, hown, hm, htook⟩ := h.newBlock cpu num
      (some (getRdfsInode sb inode.iIno)) phys hi (le_of_rdfsNewBlock hret hi hlt) hlt
    generalize hps : pagesFrom g.nvm (g.nvm.numaDes i).freePagePhy num = ps
    have hlen : ps.length = num := by rw [← hps, pagesFrom, length_chain]
    have hchain : chain nvm₀.mem 0 (g.nvm.numaDes i).freePagePhy num = ps := by rw [hm, ← hps]; rfl
    rw [hps] at hown
    refine ⟨ps, nvm₀, (g.nvm.numaDes i).freePagePhy, by simp only [allocStart, hr],
      hown.of_perm ?_, hm, hlen ▸ htook, fun _ => hlen.symm, ⟨?_, ?_⟩, fun _ => hchain⟩
    · rw [← append_assoc, ← append_assoc]
      exact perm_append_comm.append_right _
    · rw [hchain]
      exact (nodup_append.1 hown.nodup).1
    · rw [hchain]
      exact subset_append_left _ _
  | pte =>
    exact ⟨[], g.nvm, phys, rfl, h, rfl, Took.refl i _, fun _ => (Nat.zero_add _).symm,
      ⟨hcur, hok⟩, fun hp => by cases hp⟩

/-- The cursor is not moved by `ensureTable`. -/
theorem CursorIn.ensureTable (h : CursorIn g own) (sb : Super) (cpu : ℕ) (inode : Inode) :
    CursorIn (ensureTable sb cpu g inode) own := by
  rw [Rdfs.ensureTable]
  split_ifs
  · exact h
  · exact h

namespace FileState

variable {g : Master} {inode : Inode} {t : Option Tree} {own : List ℕ} {n i : Fin 2}
  {num phys : ℕ}

section

variable (h : FileState R g.nvm inode.iIno t own) (hlen : (fileEnts t).length = inode.iBlocks)
  (hcur : CursorIn g own) (hn : getCpuNuma sb cpu = n)
  (hi : rdfsGetNumaByInode sb (getRdfsInode sb inode.iIno) = i)
include h hlen hcur hn hi

/-- A call that succeeds has a table, or three pages for one. -/
theorem table_found (hnum : 0 < num) (hlt : num < 2 ^ 31)
    (hok : ¬NewBlockFails sb cpu zeroing type num (Rdfs.ensureTable sb cpu g inode) inode phys)
    (hr : rdfsAllocBlocks sb cpu g inode num zeroing type phys = (0, s')) :
    3 ≤ (g.nvm.numaDes n).freePageCount + heldSize t := by
  cases t with
  | some t =>
    have hheld : 3 ≤ tableSize t.ents.length := by
      unfold tableSize
      omega
    exact le_add_left hheld
  | none =>
    by_contra hno
    obtain ⟨lost, hfile⟩ := h.ensureTable_fails hn
      (show (g.nvm.numaDes n).freePageCount < 3 by omega)
    have hown : Owned R.pages (Rdfs.ensureTable sb cpu g inode).nvm ([] ++ (lost ++ own)) :=
      hfile.owned
    have hcur' : CursorIn (Rdfs.ensureTable sb cpu g inode) (lost ++ own) :=
      have hcur₁ := hcur.ensureTable sb cpu inode
      ⟨hcur₁.1, fun hc => mem_append_right lost (hcur₁.2 hc)⟩
    obtain ⟨new, nvm₀, phys₀, hstart, hown₀, hm, -, -, hs, -⟩ := hown.started hcur' hi hlt hok
    have hfile₀ : FileState R nvm₀ inode.iIno none (new ++ (lost ++ own)) :=
      hfile.of_sameOffPages hown₀ (by rw [hm]; exact SameOffPages.refl _ _)
    obtain ⟨k, rfl⟩ := Nat.exists_eq_succ_of_ne_zero hnum.ne'
    rw [rdfsAllocBlocks, hstart, Int.toNat_natCast] at hr
    obtain ⟨s₁, hround, -⟩ := allocLoop_first hr
    exact round_ne_zero (s := ⟨phys₀, [], inode, _⟩) hfile₀ hlen.symm hi hs hround

/-- A call whose inode has a table once the loop starts : what the loop starts with, and the pages
it still takes in relation to those the call takes. -/
theorem loop_start (hlt : num < 2 ^ 31) (htab : 3 ≤ (g.nvm.numaDes n).freePageCount + heldSize t)
    (hok : ¬NewBlockFails sb cpu zeroing type num (Rdfs.ensureTable sb cpu g inode) inode phys) :
    ∃ t₁ new s₀, rdfsAllocBlocks sb cpu g inode num zeroing type phys =
        allocLoop sb cpu zeroing type num s₀ ∧
      s₀.inode = inode ∧ s₀.obtained = [] ∧ s₀.master.pteCnt = g.pteCnt ∧
      s₀.master.slaves = g.slaves ∧ FileRep R s₀.master.nvm inode.iIno t₁ (new ++ own) ∧
      t₁.ents = fileEnts t ∧ Supplied sb cpu zeroing type num s₀ (new ++ own) ∧
      (type = .page → chain s₀.master.nvm.mem 0 s₀.phys num = new) ∧ (type = .pte → new = []) ∧
      ∀ j, (if j = n then tableSize (inode.iBlocks + num) - heldSize t else 0) +
          (if j = i then blockPages type g.pteCnt num else 0) ≤ (g.nvm.numaDes j).freePageCount ↔
        roundPages n i type inode.iBlocks g.pteCnt num j ≤
          (s₀.master.nvm.numaDes j).freePageCount := by
  obtain ⟨t₁, nvm₁, k₁, hens, hrep₁, hents₁, htook₁, -⟩ := h.ensureTable hn htab
  have hcur₁ := hcur.ensureTable sb cpu inode
  rw [hens] at hok hcur₁
  obtain ⟨new, nvm₀, phys₀, hstart, hown₀, hm, htook₀, hpages, hs, hchain⟩ :=
    Owned.started (g := { g with nvm := nvm₁, kernel := k₁ }) hrep₁.owned hcur₁ hi hlt hok
  refine ⟨t₁, new, _, by rw [rdfsAllocBlocks, hens, hstart, Int.toNat_natCast], rfl, rfl, rfl, rfl,
    hrep₁.of_sameOffPages hown₀ ?_, hents₁, hs, hchain, ?_, fun j => ?_⟩
  · rw [hm]
    exact SameOffPages.refl _ _
  · rintro rfl
    have := hpages 0
    simp only [blockPages, cursorPages] at this
    exact length_eq_zero_iff.1 (by omega)
  · have h0 := htook₀.count j
    have h1 := htook₁.count j
    have h2 := hpages g.pteCnt
    have hheld := heldSize_le hlen
    have hmono : tableSize inode.iBlocks ≤ tableSize (inode.iBlocks + num) :=
      tableSize_mono (by omega)
    rw [hents₁, hlen] at h1
    simp only [roundPages] at h0 h1 ⊢
    split_ifs at h0 h1 ⊢ <;> omega

end

end FileState

/-! ## When all blocks are appended -/

/-- Rounds behind the first block of a directory in the last area do not build a tree. -/
theorem FileRep.not_lastArea {n : Fin 2} {t' : Tree} {own' : List ℕ}
    (h : FileRep R s.master.nvm s.inode.iIno t own) (hlen : t.ents.length = s.inode.iBlocks)
    (hi : rdfsGetNumaByInode sb (getRdfsInode sb s.inode.iIno) = n)
    (hs : Supplied sb cpu zeroing type num s own)
    (hv : s.inode.iVirtAddr + maxDirSize = rdfsStart + dirAreaSize) (hpos : 0 < s.inode.iBlocks)
    (hlt : s.inode.iBlocks < 512) (hle : s.inode.iBlocks + num ≤ 512)
    (hloop : allocLoop sb cpu zeroing type num s = (0, s'))
    (h' : FileRep R s'.master.nvm s.inode.iIno t' own') : t'.ents.length ≤ s.inode.iBlocks := by
  obtain ⟨pmd, pte, hstray⟩ := h.strayed (by omega)
  obtain ⟨tab', own'', hstray'⟩ := hstray.rounds hi hv hpos hle hs hloop
  exact hlen ▸ hstray'.length_le h'

/-- Blocks that have a place in a table and are not later pages of the last directory area have
their entries where the tree has them. -/
theorem addrOk_of_seen {mode : Fin 2} {v b num : ℕ} (hv : v = 0 ∨ v ∈ areasOf mode)
    (hdir : mode = 1 → b + num ≤ 512) (hplaces : b + num ≤ 2 ^ 27)
    (hseen : SeenInArea v (b + num - 1)) : ∀ i < num, AddrOk v (b + i) := by
  intro i hi
  by_cases hmode : mode = 1
  · have hroom := hdir hmode
    subst hmode
    refine (show Insertion 1 v (b + i) from ⟨hv, lt_of_lt_of_le (show b + i < 512 by omega)
      (by decide)⟩).addrOk_iff.2 fun hlast => ?_
    have := hseen hlast
    omega
  · -- a file is where the code takes the entry from the address
    obtain rfl : mode = 0 := (node_cases mode).resolve_right hmode
    have hnot : ¬InDirArea (v + 4096 * (b + i)) ∧ v % 2 ^ 30 = 0 ∧ v + 4096 * (b + i) < 2 ^ 64 := by
      unfold InDirArea rdfsStart dirAreaSize maxDirSize
      rcases hv with rfl | hv
      · omega
      · obtain ⟨k, hk, rfl⟩ := mem_regAreas.1 hv
        unfold rdfsStart
        omega
    exact ⟨by omega, hnot.2.2, by rw [if_neg hnot.1]; exact hnot.2.1⟩

/-- Rounds that build a tree stay off the later pages of the last directory area. -/
theorem FileRep.seen {n i : Fin 2} (hn : getCpuNuma sb cpu = n) (hnum : 0 < num) {t' : Tree}
    {own' : List ℕ} (h : FileRep R s.master.nvm s.inode.iIno t own)
    (hlen : t.ents.length = s.inode.iBlocks)
    (hi : rdfsGetNumaByInode sb (getRdfsInode sb s.inode.iIno) = i)
    (hs : Supplied sb cpu zeroing type num s own)
    (hdir : s.inode.iVirtAddr ∈ areasOf 1 → s.inode.iBlocks + num ≤ 512)
    (hloop : allocLoop sb cpu zeroing type num s = (0, s'))
    (h' : FileRep R s'.master.nvm s.inode.iIno t' own')
    (hlen' : t'.ents.length = s.inode.iBlocks + num) :
    SeenInArea s.inode.iVirtAddr (s.inode.iBlocks + num - 1) := by
  by_contra hno
  obtain ⟨hv, hpos⟩ := Classical.not_imp.1 hno
  have hmem := Insertion.last_mem hv
  have hle := hdir hmem
  rcases Nat.eq_zero_or_pos s.inode.iBlocks with h0 | hblocks
  · -- the first block goes where it should, the others do not
    obtain ⟨k, rfl⟩ := Nat.exists_eq_succ_of_ne_zero hnum.ne'
    obtain ⟨s₁, hround, hrest⟩ := allocLoop_first hloop
    have hfirst : Insertion 1 s.inode.iVirtAddr s.inode.iBlocks :=
      ⟨.inr hmem, lt_of_lt_of_le (show s.inode.iBlocks < 512 by omega) (by decide)⟩
    obtain ⟨t₁, new, hrep₁, hlen₁, hs₁, -⟩ := h.round hn hlen hi hs
      (hfirst.addrOk_iff.2 fun _ => h0) hround
    obtain ⟨b, hinode⟩ := allocRound_inode hround
    have hino : s₁.inode.iIno = s.inode.iIno := by rw [hinode]
    have hb : s₁.inode.iBlocks = s.inode.iBlocks + 1 := by rw [hinode]
    have hvirt : s₁.inode.iVirtAddr = s.inode.iVirtAddr := by rw [hinode]
    have hle := FileRep.not_lastArea (s := s₁) (hino ▸ hrep₁) (hlen₁.trans hb.symm) (hino ▸ hi) hs₁
      (hvirt ▸ hv) (by omega) (by omega) (by omega) hrest (hino ▸ h')
    omega
  · have hle := h.not_lastArea hlen hi hs hv hblocks (by omega) (by omega) hloop h'
    omega

section Call

variable {g : Master} {inode : Inode} {t : Option Tree} {own ids : List ℕ} {mode : Fin 2}
  {blocks num phys : ℕ}

/-- A call that appends all of its blocks has found what it needs. -/
theorem CanAlloc.of_appends (h : FileState R g.nvm inode.iIno t own)
    (hlen : (fileEnts t).length = inode.iBlocks)
    (hv : inode.iVirtAddr = 0 ∨ inode.iVirtAddr ∈ areasOf mode)
    (hdir : mode = 1 → inode.iBlocks + num ≤ 512) (hcur : CursorIn g own)
    (hslave : SlaveState g.slaves inode.bitmaps) (hblocks : blocks < 2 ^ 31) (hnum : 0 < num)
    (hlt : num < 2 ^ 31)
    (hok : ¬NewBlockFails sb cpu zeroing type num (ensureTable sb cpu g inode) inode phys)
    (happ : Appends R blocks ids inode t own num type
      (rdfsAllocBlocks sb cpu g inode num zeroing type phys)) :
    CanAlloc sb blocks ids cpu type num g inode t := by
  rcases hr : rdfsAllocBlocks sb cpu g inode num zeroing type phys with ⟨r, s'⟩
  rw [hr] at happ
  obtain ⟨rfl, -, hplaces, t', new', es, hrep', hents', hes, hnew'⟩ := happ
  have htab := h.table_found hlen hcur rfl rfl hnum hlt hok hr
  obtain ⟨t₁, new, s₀, hcall, hinode, hobt, hcnt, hslaves, hrep, hents, hs, -, -, hpages⟩ :=
    h.loop_start hlen hcur rfl rfl hlt htab hok
  rw [hcall] at hr
  subst hinode
  have hlen₁ : t₁.ents.length = s₀.inode.iBlocks := by rw [hents, hlen]
  have hseen := hrep.seen rfl hnum hlen₁ rfl hs
    (fun hmem => hdir (mode_unique (hv.resolve_left (ne_zero_of_mem_areasOf hmem)) hmem)) hr hrep'
    (by rw [hents', length_append, hlen, hes])
  refine ⟨hplaces, hseen, fun j => (hpages j).2 ?_, ?_⟩
  · rw [← hcnt]
    exact hrep.rounds_room rfl hlen₁ rfl hs (addrOk_of_seen hv hdir hplaces hseen) hr j
  · rintro rfl
    obtain ⟨-, -, hnodup, hall⟩ := hnew'
    have hobtained := allocLoop_obtained hr
    rw [hobt, nil_append, hslaves] at hobtained
    rw [← hslave.handed_iff hblocks ids num, ← hobtained]
    exact ⟨hnodup, hall⟩

/-- `rdfs_new_block` finds the pages a call needs. -/
theorem CanAlloc.newBlock_found (h : FileState R g.nvm inode.iIno t own)
    (hlen : (fileEnts t).length = inode.iBlocks)
    (hv : inode.iVirtAddr = 0 ∨ inode.iVirtAddr ∈ areasOf mode)
    (hdir : mode = 1 → inode.iBlocks + num ≤ 512) (hcur : CursorIn g own) (hlt : num < 2 ^ 31)
    (hcan : CanAlloc sb blocks ids cpu type num g inode t) :
    ¬NewBlockFails sb cpu zeroing type num (ensureTable sb cpu g inode) inode phys := by
  obtain ⟨t₁, nvm₁, k₁, hens, hrep₁, hents₁, -, hroom₁, -⟩ := h.ensureRoom hlen rfl hcan.pages
  have hcur₁ := hcur.ensureTable sb cpu inode
  rw [hens] at hcur₁ ⊢
  cases type with
  | page =>
    have hpages := hroom₁ (rdfsGetNumaByInode sb (getRdfsInode sb inode.iIno))
    rw [if_pos rfl] at hpages
    obtain ⟨st', hr, -⟩ := rdfsNewBlock_ok phys
      (show newBlockNode sb cpu (some (getRdfsInode sb inode.iIno)) = _ from rfl)
      (show num < 2 ^ 64 by omega) (le_trans (Nat.le_add_left _ _) hpages)
    simp only [NewBlockFails, hr, ne_eq, not_true_eq_false, not_false_eq_true]
  | pte =>
    exact FileRep.not_noCursorPage (s := ⟨phys, [], inode, { g with nvm := nvm₁, kernel := k₁ }⟩)
      rfl hrep₁ (by rw [hents₁, hlen]) hcur₁ rfl (addrOk_of_seen hv hdir hcan.places hcan.seen)
      hroom₁

/-- A call that finds what it needs appends all of its blocks. -/
theorem CanAlloc.appends (h : FileState R g.nvm inode.iIno t own)
    (hlen : (fileEnts t).length = inode.iBlocks)
    (hv : inode.iVirtAddr = 0 ∨ inode.iVirtAddr ∈ areasOf mode)
    (hdir : mode = 1 → inode.iBlocks + num ≤ 512) (hcur : CursorIn g own)
    (hslave : SlaveState g.slaves inode.bitmaps) (hblocks : blocks < 2 ^ 31) (hlt : num < 2 ^ 31)
    (hcan : CanAlloc sb blocks ids cpu type num g inode t) :
    Appends R blocks ids inode t own num type
      (rdfsAllocBlocks sb cpu g inode num zeroing type phys) := by
  have hok : ¬NewBlockFails sb cpu zeroing type num (ensureTable sb cpu g inode) inode phys :=
    hcan.newBlock_found h hlen hv hdir hcur hlt
  have htab : 3 ≤ (g.nvm.numaDes (getCpuNuma sb cpu)).freePageCount + heldSize t := by
    have hpages := hcan.pages (getCpuNuma sb cpu)
    rw [if_pos rfl] at hpages
    have h3 : 3 ≤ tableSize (inode.iBlocks + num) := by unfold tableSize; omega
    omega
  obtain ⟨t₁, new, s₀, hcall, hinode, hobt, hcnt, hslaves, hrep, hents, hs, hchain, hnil, hpages⟩ :=
    h.loop_start hlen hcur rfl rfl hlt htab hok
  rw [hcall]
  subst hinode
  have hlen₁ : t₁.ents.length = s₀.inode.iBlocks := by rw [hents, hlen]
  have haddr := addrOk_of_seen hv hdir hcan.places hcan.seen
  have hroom := fun j => (hpages j).1 (hcan.pages j)
  cases type with
  | page =>
    have hnew := hchain rfl
    have hnewLen : new.length = num := by rw [← hnew, length_chain]
    have htable : tableSize (s₀.inode.iBlocks + num) ≤
        (s₀.master.nvm.numaDes (getCpuNuma sb cpu)).freePageCount + tableSize s₀.inode.iBlocks := by
      have hr := hroom (getCpuNuma sb cpu)
      rw [roundPages, if_pos rfl] at hr
      omega
    obtain ⟨t', s', hloop, hrep', hrounds, hobt', -⟩ := hrep.allocLoop_page zeroing num rfl hlen₁
      hnew (hnew ▸ hs.1) (subset_append_left _ _) haddr htable
    obtain ⟨b, hb⟩ := hrounds.inode
    rw [hloop]
    exact ⟨rfl, by rw [hb, hnewLen], hcan.places, t', new, new, hrep',
      by rw [hrounds.appended.ents, hents], hnewLen, rfl, hobt'.trans hobt⟩
  | pte =>
    obtain rfl := hnil rfl
    obtain ⟨t', s', new', es, hloop, hes, hrep', hrounds, hsub, -, -⟩ := hrep.allocLoop_pte
      zeroing num rfl hlen₁ hs.1 (Subset.refl _) rfl haddr (fun j => hcnt ▸ hroom j)
    obtain ⟨b, hb⟩ := hrounds.inode
    have hobtained := allocLoop_obtained hloop
    rw [hobt, nil_append, hslaves] at hobtained
    obtain ⟨hnodup, hall⟩ := (hslave.handed_iff hblocks ids num).2 (hcan.fresh rfl)
    rw [hloop]
    refine ⟨rfl, by rw [hb, hes], hcan.places, t', new', es, hrep',
      by rw [hrounds.appended.ents, hents], hes, hsub, ?_, ?_, ?_⟩ <;> rw [hobtained]
    · rw [length_handed, hes]
    · exact hnodup
    · exact hall

/-- That `rdfs_new_block` fails is never reported, and `i_blocks` is not what it was. -/
theorem NewBlockFails.unreported (hnum : 0 < num)
    (h : NewBlockFails sb cpu zeroing type num (ensureTable sb cpu g inode) inode phys) :
    (rdfsAllocBlocks sb cpu g inode num zeroing type phys).1 ≠ -28 ∧
      (rdfsAllocBlocks sb cpu g inode num zeroing type phys).2.inode.iBlocks ≠ inode.iBlocks ∧
      ¬AllOrNothing R blocks ids cpu zeroing type num g inode t own phys := by
  have hret := rdfsAllocBlocks_ret sb cpu g inode num zeroing type phys
  have hne : (rdfsAllocBlocks sb cpu g inode num zeroing type phys).1 ≠ -28 := by omega
  have hcount := rdfsAllocBlocks_counts sb cpu g inode (show (0 : ℤ) < num by omega) zeroing type
    phys
  exact ⟨hne, hcount.ne', fun hall => hne (hall.1 h)⟩

end Call

/-! ## Pages of a directory -/

/-- The bytes of the blocks of a directory, one block behind another. -/
def blockBytes (m : Mem) (ents : List ℕ) : Mem :=
  fun x => ((ents[x / 4096]?).map fun p => m (p + x % 4096)).getD 0

/-- What `dir.c` sees of a call that has entered the page `p` behind the blocks `ents`. -/
def pageOutcome (found : Bool) (ents : List ℕ) (p : ℕ) : AllocOutcome :=
  if found then .entered
  else .unset (if p ∈ ents then some (.block (ents.idxOf p)) else none) true

/-- A page is cleared, and is the last block of a directory afterwards. -/
theorem blockBytes_append {m m' : Mem} {ents : List ℕ} {p : ℕ} (hnodup : ents.Nodup)
    (hp : ∀ o < 4096, m' (p + o) = 0)
    (hother : ∀ q ∈ ents, q ≠ p → ∀ o < 4096, m' (q + o) = m (q + o)) {found : Bool}
    (hnew : found = true → p ∉ ents) : blockBytes m' (ents ++ [p]) =
      (pageOutcome found ents p).clear ents.length (blockBytes m ents) := by
  have hret : (pageOutcome found ents p).ret = 0 := by cases found <;> rfl
  have hown : (pageOutcome found ents p).own =
      if p ∈ ents then some (.block (ents.idxOf p)) else none := by
    cases found with
    | false => rfl
    | true => rw [if_neg (hnew rfl)]; rfl
  funext x
  have hx : x % 4096 < 4096 := Nat.mod_lt _ (by decide)
  simp only [AllocOutcome.clear, hret, if_true, hown, Mem.fill]
  rcases lt_trichotomy (x / 4096) ents.length with hlt | heq | hgt
  · obtain ⟨q, hq⟩ : ∃ q, ents[x / 4096]? = some q := ⟨_, getElem?_eq_getElem hlt⟩
    have hlast : ¬(4096 * ents.length ≤ x ∧ x < 4096 * ents.length + 4096) := by omega
    have hview : ∀ m, blockBytes m (ents ++ [p]) x = m (q + x % 4096) ∧
        blockBytes m ents x = m (q + x % 4096) := fun m => by
      simp [blockBytes, getElem?_append_left hlt, hq]
    rw [(hview m').1, if_neg hlast]
    by_cases hmem : p ∈ ents
    · simp only [if_pos hmem, Mem.fill]
      by_cases hqp : q = p
      · have hk : ents.idxOf p = x / 4096 := by
          subst hqp
          obtain ⟨hk, rfl⟩ := List.getElem?_eq_some_iff.1 hq
          exact hnodup.idxOf_getElem _ hk
        rw [hqp, hp _ hx, if_pos (by omega)]
      · have hk : ents.idxOf p ≠ x / 4096 := by
          rintro hk
          rw [← hk, getElem?_idxOf hmem] at hq
          exact hqp (Option.some.inj hq).symm
        rw [if_neg (by omega), (hview m).2, hother q (mem_of_getElem? hq) hqp _ hx]
    · have hqp : q ≠ p := fun h0 => hmem (h0 ▸ mem_of_getElem? hq)
      simp only [if_neg hmem]
      rw [(hview m).2, hother q (mem_of_getElem? hq) hqp _ hx]
  · have hview : blockBytes m' (ents ++ [p]) x = m' (p + x % 4096) := by
      simp [blockBytes, heq]
    rw [hview, hp _ hx, if_pos (by omega)]
  · have hview : ∀ m (l : List ℕ), l.length ≤ x / 4096 → blockBytes m l x = 0 := fun m l hl => by
      simp [blockBytes, getElem?_eq_none hl]
    rw [hview m' _ (by simp; omega), if_neg (by omega)]
    split_ifs with hmem
    · have hk := idxOf_lt_length_of_mem hmem
      simp only [Mem.fill]
      rw [if_neg (by omega), hview m _ hgt.le]
    · exact (hview m _ hgt.le).symm

/-- A round with a page, in a table that has a place for it. -/
theorem FileRep.enterPage (h : FileRep R s.master.nvm s.inode.iIno t own)
    (hlen : t.ents.length = s.inode.iBlocks) (haddr : AddrOk s.inode.iVirtAddr s.inode.iBlocks)
    (hlt : s.inode.iBlocks < 512) (hphys : s.phys ∈ own) (cpu : ℕ) :
    ∃ t' s', allocLoop sb cpu 0 .page 1 s = (0, s') ∧
      s'.inode = { s.inode with iBlocks := s.inode.iBlocks + 1 } ∧
      FileRep R s'.master.nvm s.inode.iIno t' own ∧ t'.ents = t.ents ++ [s.phys] ∧
      ∀ p ∈ own, ∀ o < 4096, s'.master.nvm.mem (p + o) =
        if p = s.phys then 0 else s.master.nvm.mem (p + o) := by
  have hpage : ∀ p ∈ own, R.pages.IsPage p := fun p hp =>
    h.owned.isPage (mem_append_right _ hp)
  have htake := takeBlock_page sb cpu 0 s
  generalize hm₁ : clearBlock 0 s.master.nvm.mem s.phys = m₁
  have hclear : Mem.SameOff s.master.nvm.mem m₁ 4096 s.phys := hm₁ ▸ sameOff_clearBlock 0 _ _
  rw [hm₁] at htake
  have hrep₁ : FileRep R { s.master.nvm with mem := m₁ } s.inode.iIno t own := by
    refine h.of_sameOffPages (h.owned.congr (fun _ => ⟨rfl, rfl⟩) fun p hp hpn => hclear.sameOn ?_)
      ((SameOffPages.of_sameOff hclear le_rfl le_rfl).mono (by simpa using hphys))
    exact hp.disjoint (hpage _ hphys) fun h0 => hpn (h0 ▸ mem_append_right _ hphys)
  obtain ⟨t', nvm', k', henter, hrep', happ, -, hsame⟩ := FileRep.enterBlock (s := { s with
    phys := s.master.nvm.mem.load 8 s.phys
    master := { s.master with nvm := { s.master.nvm with mem := m₁ } } }) hrep₁ hlen haddr
    (blockEntry_and (hpage _ hphys)).2.2 (show getCpuNuma sb cpu = _ from rfl)
    (by unfold tableSize; dsimp only; omega)
  refine ⟨t', _, by rw [allocLoop_succ htake henter]; rfl, rfl, hrep', happ.ents,
    fun p hp o ho => ?_⟩
  have hslot := R.isSlot_disjoint_page h.isSlot (hpage p hp)
  have hkept : Mem.SameOn m₁ nvm'.mem 4096 p :=
    (hsame.sameBut blockStores_inSlot).sameOn (by omega) fun q hq =>
      hrep'.owned.disjoint_append hq hp
  refine (hkept (p + o) (by omega) (by omega)).trans ?_
  by_cases heq : p = s.phys
  · rw [if_pos heq, ← hm₁, clearBlock, if_pos rfl, heq]
    exact if_pos ⟨by omega, by omega⟩
  · rw [if_neg heq]
    have := (hpage p hp).disjoint (hpage _ hphys) heq
    exact hclear _ (by omega)

/-- A call for a directory that has a table. It enters a page of the free list, or one that is in
use. -/
theorem FileRep.dirOutcome {inode : Inode} {phys : ℕ} (h : FileRep R g.nvm inode.iIno t own)
    (hlen : t.ents.length = inode.iBlocks) (haddr : AddrOk inode.iVirtAddr inode.iBlocks)
    (hlt : inode.iBlocks < 512) (hents : t.ents ⊆ own) (hnodup : t.ents.Nodup)
    (hcur : CursorIn g own) (hphys : phys ∈ own) (cpu : ℕ) : ∃ found t' new p s', (found = true ↔
        (rdfsNewBlock sb cpu g.nvm phys 1 (some (getRdfsInode sb inode.iIno))).1 = 0) ∧
      (found = false → p = phys) ∧
      rdfsAllocBlocks sb cpu g inode 1 0 .page phys = ((pageOutcome found t.ents p).ret, s') ∧
      s'.inode.iBlocks = inode.iBlocks + 1 ∧
      FileRep R s'.master.nvm inode.iIno t' (new ++ own) ∧ t'.ents = t.ents ++ [p] ∧
      blockBytes s'.master.nvm.mem t'.ents =
        (pageOutcome found t.ents p).clear inode.iBlocks (blockBytes g.nvm.mem t.ents) := by
  have hens : ensureTable sb cpu g inode = g := by
    have hne : inodeStruct.getField g.nvm.mem (getRdfsInodePhyAddr sb inode.iIno) .iPgAddr ≠ 0 := by
      rw [h.pgAddr]
      exact fun h0 => R.not_isPage_zero (h0 ▸ h.owned.isPage (by simp [Tree.pages]))
    rw [ensureTable, if_neg hne]
  obtain ⟨found, hfound⟩ : ∃ found : Bool, found = true ↔
      (rdfsNewBlock sb cpu g.nvm phys 1 (some (getRdfsInode sb inode.iIno))).1 = 0 :=
    ⟨decide _, decide_eq_true_iff⟩
  obtain ⟨new, nvm₀, p, hstart, hown₀, hm, hp, hnew, hold⟩ : ∃ new nvm₀ p,
      allocStart sb cpu g inode 1 .page phys = ⟨p, [], inode, { g with nvm := nvm₀ }⟩ ∧
      Owned R.pages nvm₀ (t.pages ++ (new ++ own)) ∧ nvm₀.mem = g.nvm.mem ∧ p ∈ new ++ own ∧
      (found = true → p ∉ t.ents) ∧ (found = false → p = phys) := by
    cases found with
    | true =>
      obtain ⟨new, nvm₀, p, hstart, hown₀, hm, -, -, hs, hchain⟩ := h.owned.started hcur rfl
        (show 1 < 2 ^ 31 by decide)
        (show ¬NewBlockFails sb cpu 0 .page 1 g inode phys from not_not.2 (hfound.1 rfl))
      have hp : p ∈ new := hchain rfl ▸ mem_singleton_self p
      refine ⟨new, nvm₀, p, hstart, hown₀, hm, mem_append_left _ hp, fun _ hmem => ?_,
        fun hc => absurd hc (by decide)⟩
      exact (nodup_append.1 (nodup_append.1 hown₀.nodup).2.1).2.2 p hp p (hents hmem) rfl
    | false =>
      have heq : rdfsNewBlock sb cpu g.nvm phys 1 (some (getRdfsInode sb inode.iIno)) =
          (-1, phys, g.nvm) := by
        refine rdfsNewBlock_fail phys (not_le.1 fun hle => Bool.false_ne_true (hfound.2 ?_))
        obtain ⟨st', hr, -⟩ := rdfsNewBlock_ok phys rfl (by decide) hle
        exact congrArg Prod.fst hr
      exact ⟨[], g.nvm, phys, by simp only [allocStart, heq], h.owned, rfl, hphys,
        fun hc => absurd hc (by decide), fun _ => rfl⟩
  have hrep₀ : FileRep R nvm₀ inode.iIno t (new ++ own) :=
    h.of_sameOffPages hown₀ (by rw [hm]; exact SameOffPages.refl _ _)
  obtain ⟨t', s', hloop, hinode, hrep', hents', hbytes⟩ := FileRep.enterPage
    (s := ⟨p, [], inode, { g with nvm := nvm₀ }⟩) hrep₀ hlen haddr hlt hp cpu
  have hret : (pageOutcome found t.ents p).ret = 0 := by cases found <;> rfl
  refine ⟨found, t', new, p, s', hfound, hold, ?_, by rw [hinode], hrep', hents', ?_⟩
  · rw [rdfsAllocBlocks, hens, hstart, hret]
    exact hloop
  · have hkept : ∀ q ∈ t.ents, q ≠ p → ∀ o < 4096, s'.master.nvm.mem (q + o) =
        g.nvm.mem (q + o) := fun q hq hne o ho => by
      rw [hbytes q (mem_append_right _ (hents hq)) o ho, if_neg hne, ← hm]
    rw [hents', ← hlen]
    exact blockBytes_append hnodup (fun o ho => by rw [hbytes p hp o ho, if_pos rfl]) hkept hnew

/-! ## A file without blocks -/

/-- The small mount with a slave that has just offered 128 blocks. -/
def slaveMaster : Master :=
  { freshMaster with slaves := fun _ => rdfsInitSlaveMemoryBitmapList default 128 }

theorem canAlloc_emptyFile (type : AllocType) :
    CanAlloc Region.behindTables 128 [] 0 type 2 slaveMaster emptyFile none := by
  refine ⟨by decide, by decide, ?_, fun _ => by decide +kernel⟩
  cases type <;> decide +kernel

end Rdfs
