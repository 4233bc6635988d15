import Rdfs.TableBuilds

/-!
# The rounds of an allocation

`FileRep.allocLoop_page` and `FileRep.allocLoop_pte` say that `rdfs_alloc_blocks` enters its blocks
if it finds the pages it needs. This module goes the other way : what a call needs that has entered
them. A round (`allocRound`) takes a page, which the free list or the cursor has to supply
(`Supplied`), and enters it in the table. As long as the entries go where the tree has them, rounds
that succeed have found a page for every part of the table and of the cursor
(`FileRep.rounds_room`). Without a table not even the first round succeeds
(`FileState.round_ne_zero`). And in the last directory area, where the entries of the later pages go
astray, the block that the tree should have next is never there, however many rounds follow
(`Strayed.rounds`).
-/

namespace Rdfs

open List

variable {sb : Super} {R : Region sb} {cpu zeroing : ℕ} {type : AllocType}

/-! ## Rounds -/

/-- One round of the loop of `rdfs_alloc_blocks`. -/
def allocRound (sb : Super) (cpu zeroing : ℕ) (type : AllocType) (s : AllocState) :
    ℤ × AllocState :=
  enterBlock sb cpu (takeBlock sb cpu zeroing type s).1 (takeBlock sb cpu zeroing type s).2

variable {num target ino : ℕ} {s s' s₁ : AllocState} {st : Nvm} {i n : Fin 2} {tab own : List ℕ}
  {t : Tree}

/-- A loop that succeeds has succeeded in its first round and in the others. -/
theorem allocLoop_first (h : allocLoop sb cpu zeroing type (num + 1) s = (0, s')) :
    ∃ s₁, allocRound sb cpu zeroing type s = (0, s₁) ∧
      allocLoop sb cpu zeroing type num s₁ = (0, s') := by
  rcases hr : allocRound sb cpu zeroing type s with ⟨r, s₁⟩
  have hloop : allocLoop sb cpu zeroing type (num + 1) s =
      if r ≠ 0 then (r, s₁) else allocLoop sb cpu zeroing type num s₁ := by
    rw [allocRound] at hr
    simp only [allocLoop, hr]
  rw [h] at hloop
  by_cases h0 : r = 0
  · rw [if_neg (not_not.2 h0)] at hloop
    exact ⟨s₁, by rw [h0], hloop.symm⟩
  · rw [if_pos h0] at hloop
    exact absurd (Prod.mk.inj hloop).1.symm h0

/-- What every round that succeeds keeps, with one round less to go, a loop that succeeds keeps. -/
theorem allocLoop_inv {Q : ℕ → AllocState → Prop}
    (hround : ∀ num s s₁, Q (num + 1) s → allocRound sb cpu zeroing type s = (0, s₁) → Q num s₁)
    (h : Q num s) (hloop : allocLoop sb cpu zeroing type num s = (0, s')) : Q 0 s' := by
  induction num generalizing s with
  | zero => exact (Prod.mk.inj hloop).2 ▸ h
  | succ num ih =>
    obtain ⟨s₁, hfirst, hrest⟩ := allocLoop_first hloop
    exact ih (hround num s s₁ h hfirst) hrest

/-- What the first part of a round leaves of the inode. -/
theorem takeBlock_inode (h : takeBlock sb cpu zeroing type s = (target, s₁)) :
    ∃ bitmaps, s₁.inode = { s.inode with bitmaps := bitmaps } := by
  obtain rfl : s₁ = (takeBlock sb cpu zeroing type s).2 := by rw [h]
  cases type <;> exact ⟨_, rfl⟩

/-- What a round leaves of the inode. -/
theorem allocRound_inode {r : ℤ} (h : allocRound sb cpu zeroing type s = (r, s')) :
    ∃ bitmaps, s'.inode = { s.inode with iBlocks := s.inode.iBlocks + 1, bitmaps := bitmaps } := by
  obtain rfl : s' = (allocRound sb cpu zeroing type s).2 := by rw [h]
  cases type <;> exact ⟨_, rfl⟩

/-- What `rdfs_insert_page` has done if the second part of a round succeeds. -/
theorem insertPage_of_enterBlock (h : enterBlock sb cpu target s = (0, s')) :
    ∃ nvm' k', rdfsInsertPage sb cpu (countBlock sb s.master.nvm s.inode) s.master.kernel
        s.inode.iIno s.inode.iVirtAddr (s.inode.iBlocks + 1) target = (0, nvm', k') ∧
      s' = { s with
        inode := { s.inode with iBlocks := s.inode.iBlocks + 1 }
        master := { s.master with nvm := nvm', kernel := k' } } := by
  rcases hr : rdfsInsertPage sb cpu (countBlock sb s.master.nvm s.inode) s.master.kernel
    s.inode.iIno s.inode.iVirtAddr (s.inode.iBlocks + 1) target with ⟨r, nvm', k'⟩
  rw [enterBlock_eq hr] at h
  obtain ⟨h0, hs⟩ := Prod.mk.inj h
  simp only at h0
  exact ⟨nvm', k', by rw [h0], hs.symm⟩

/-! ## What the rounds take -/

/-- In one of the next `num` rounds with blocks of slaves the cursor is at the end of its page, and
`rdfs_new_block` finds no page for it. -/
def NoCursorPage (sb : Super) (cpu zeroing : ℕ) : ℕ → AllocState → Prop
  | 0, _ => False
  | num + 1, s =>
    (s.master.pteCnt = pagePteNums ∧ (rdfsNewBlock sb cpu s.master.nvm s.master.ptePhyAddr 1
      (some (getRdfsInode sb s.inode.iIno))).1 ≠ 0) ∨
    ((allocRound sb cpu zeroing .pte s).1 = 0 ∧
      NoCursorPage sb cpu zeroing num (allocRound sb cpu zeroing .pte s).2)

/-- The pages that `num` rounds enter are there : pages linked to each other from `phys` on, or
those of the cursor and what `rdfs_new_block` finds for it. -/
def Supplied (sb : Super) (cpu zeroing : ℕ) (type : AllocType) (num : ℕ) (s : AllocState)
    (own : List ℕ) : Prop :=
  match type with
  | .page => (chain s.master.nvm.mem 0 s.phys num).Nodup ∧
      chain s.master.nvm.mem 0 s.phys num ⊆ own
  | .pte => CursorIn s.master own ∧ ¬NoCursorPage sb cpu zeroing num s

/-- How many pages `num` rounds take for the cursor. -/
def cursorPages (type : AllocType) (cnt num : ℕ) : ℕ :=
  match type with
  | .page => 0
  | .pte => (cnt + num - 1) / 512

/-- What the first part of a round has done : the page `target` is one of `own` or of the pages
`new` the round has taken for the cursor, these are all it has written to, and the next rounds are
supplied unless the table is in their way. -/
structure Taken (R : Region sb) (cpu zeroing : ℕ) (type : AllocType) (num : ℕ) (i : Fin 2)
    (tab own new : List ℕ) (s : AllocState) (target : ℕ) (s₁ : AllocState) : Prop where
  owned : Owned R.pages s₁.master.nvm (tab ++ (new ++ own))
  target_mem : target ∈ new ++ own
  same : SameOffPages s.master.nvm.mem s₁.master.nvm.mem (new ++ own)
  took : Took i new.length s.master.nvm s₁.master.nvm
  cursor : ∀ k, cursorPages type s.master.pteCnt (k + 1) =
    new.length + cursorPages type s₁.master.pteCnt k
  supplied : ∀ s₂, enterBlock sb cpu target s₁ = (0, s₂) →
    (∀ p ∈ new ++ own, Mem.SameOn s₁.master.nvm.mem s₂.master.nvm.mem 4096 p) →
    Supplied sb cpu zeroing type num s₂ (new ++ own)

/-- A node in which `rdfs_new_block` finds `num` pages has them. -/
theorem le_of_rdfsNewBlock {num phys : ℕ} {ni : Option ℕ}
    (h : (rdfsNewBlock sb cpu st phys num ni).1 = 0) (hi : newBlockNode sb cpu ni = i)
    (hnum : num < 2 ^ 31) : num ≤ (st.numaDes i).freePageCount := by
  by_contra hlt
  have hu : u64 (num : ℤ) = num := by
    unfold u64
    omega
  rw [rdfsNewBlock_fail phys (by rw [hi, hu]; omega)] at h
  cases h

section

variable (h : Owned R.pages s.master.nvm (tab ++ own))
include h

/-- The first part of a round with a page of the region. -/
theorem Owned.taken_page (hs : Supplied sb cpu zeroing .page (num + 1) s own)
    (htake : takeBlock sb cpu zeroing .page s = (target, s₁)) :
    Taken R cpu zeroing .page num i tab own [] s target s₁ := by
  obtain ⟨hnodup, hsub⟩ := hs
  obtain ⟨hnot, hnodup'⟩ := nodup_cons.1 hnodup
  obtain ⟨hphys, hsub'⟩ := cons_subset.1 hsub
  have hclear := sameOff_clearBlock zeroing s.master.nvm.mem s.phys
  rw [takeBlock_page] at htake
  obtain ⟨rfl, rfl⟩ := Prod.mk.inj htake
  generalize clearBlock zeroing s.master.nvm.mem s.phys = m₁ at hclear
  have hpage : ∀ p ∈ own, R.pages.IsPage p := fun p hp => h.isPage (mem_append_right tab hp)
  refine ⟨h.congr (fun _ => ⟨rfl, rfl⟩) fun p hp hpn => hclear.sameOn ?_, hphys,
    (SameOffPages.of_sameOff hclear le_rfl le_rfl).mono (by simpa using hphys),
    (Took.refl i _).write m₁, fun k => rfl, fun s₂ henter hsame => ?_⟩
  · exact hp.disjoint (hpage _ hphys) fun heq => hpn (heq ▸ mem_append_right tab hphys)
  · -- the other pages are linked as before
    have hlinks : chain s₂.master.nvm.mem 0 s₂.phys num =
        chain s.master.nvm.mem 0 (s.master.nvm.mem.load 8 s.phys) num := by
      obtain ⟨nvm', k', -, rfl⟩ := insertPage_of_enterBlock henter
      refine chain_congr fun p hp => ?_
      have hapart := (hpage p (hsub' hp)).disjoint (hpage _ hphys) (ne_of_mem_of_not_mem hp hnot)
      have hfirst : Mem.SameOn s.master.nvm.mem m₁ 8 (p + 0) := hclear.sameOn (by omega)
      have hthen : Mem.SameOn m₁ nvm'.mem 8 (p + 0) :=
        (hsame p (hsub' hp)).mono (by omega) (by omega)
      exact fun x h1 h2 => (hthen x h1 h2).trans (hfirst x h1 h2)
    refine ⟨?_, ?_⟩ <;> rw [hlinks]
    · exact hnodup'
    · exact hsub'

section

variable (hi : rdfsGetNumaByInode sb (getRdfsInode sb s.inode.iIno) = i)
include hi

/-- The first part of a round with a block of a slave. -/
theorem Owned.taken_pte (hs : Supplied sb cpu zeroing .pte (num + 1) s own)
    (htake : takeBlock sb cpu zeroing .pte s = (target, s₁)) :
    ∃ new, Taken R cpu zeroing .pte num i tab own new s target s₁ := by
  obtain ⟨hcur, hpages⟩ := hs
  obtain ⟨hpage, hrest⟩ := not_or.1 hpages
  have hroom : s.master.pteCnt = 512 → 0 < (s.master.nvm.numaDes i).freePageCount := by
    intro hcnt
    have hret : (rdfsNewBlock sb cpu s.master.nvm s.master.ptePhyAddr (1 : ℕ)
        (some (getRdfsInode sb s.inode.iIno))).1 = 0 := not_not.1 fun hne => hpage ⟨hcnt, hne⟩
    exact le_of_rdfsNewBlock hret hi (by decide)
  obtain ⟨new, p, c, nvm', htake', hp, hc, hown, hm, htook, hplace⟩ :=
    h.takePte cpu zeroing hcur hi hroom rfl
  rw [htake'] at htake
  obtain ⟨rfl, rfl⟩ := Prod.mk.inj htake
  have hstore : SameOffPages s.master.nvm.mem nvm'.mem [p] :=
    hm ▸ SameOffPages.of_sameOff (Mem.sameOff_store _ _ _ _) (by omega) (by omega)
  refine ⟨new, hown, hp, hstore.mono (by simpa using hp), htook, fun k => ?_,
    fun s₂ henter _ => ⟨?_, fun hno => hrest ?_⟩⟩
  · simp only [cursorPages]
    rcases hplace with ⟨hcnt, rfl, rfl⟩ | ⟨hcnt, rfl, -, rfl⟩
    · rw [hcnt, length_singleton]
      omega
    · rw [length_nil]
      omega
  · obtain ⟨nvm₂, k₂, -, rfl⟩ := insertPage_of_enterBlock henter
    exact ⟨hc, fun _ => hp⟩
  · have hround : allocRound sb cpu zeroing .pte s = (0, s₂) := by
      rw [allocRound, htake']
      exact henter
    rw [hround]
    exact ⟨rfl, hno⟩

/-- The first part of a round. -/
theorem Owned.taken (hs : Supplied sb cpu zeroing type (num + 1) s own)
    (htake : takeBlock sb cpu zeroing type s = (target, s₁)) :
    ∃ new, Taken R cpu zeroing type num i tab own new s target s₁ := by
  cases type with
  | page => exact ⟨[], h.taken_page hs htake⟩
  | pte => exact h.taken_pte hi hs htake

end

end

/-! ## Rounds in order -/

/-- The pages of the two nodes that `num` rounds take, for the table in node `n` and for the cursor
in node `i`. -/
def roundPages (n i : Fin 2) (type : AllocType) (blocks cnt num : ℕ) (j : Fin 2) : ℕ :=
  (if j = n then tableSize (blocks + num) - tableSize blocks else 0) +
    if j = i then cursorPages type cnt num else 0

section

variable (h : FileRep R s.master.nvm s.inode.iIno t own) (hlen : t.ents.length = s.inode.iBlocks)
  (haddr : AddrOk s.inode.iVirtAddr s.inode.iBlocks) (hn : getCpuNuma sb cpu = n)
include h hlen haddr hn

/-- A block that was entered where the tree has it has found the pages for the table. -/
theorem FileRep.enterBlock_room (henter : Rdfs.enterBlock sb cpu target s = (0, s')) :
    tableSize (s.inode.iBlocks + 1) ≤
      (s.master.nvm.numaDes n).freePageCount + tableSize s.inode.iBlocks := by
  obtain ⟨nvm', k', hr, -⟩ := insertPage_of_enterBlock henter
  rw [← hlen] at hr haddr ⊢
  have hcount := h.countBlock
  exact hcount.owned.insertPage_room hcount.rep hcount.pgAddr haddr hn (by rw [hr])

/-- A block that was entered where the tree has it is the last block of the table. -/
theorem FileRep.enterBlock_zero (htarget : target ||| pageKernel < 2 ^ 64)
    (henter : Rdfs.enterBlock sb cpu target s = (0, s')) : ∃ t' nvm' k', s' = { s with
        inode := { s.inode with iBlocks := s.inode.iBlocks + 1 }
        master := { s.master with nvm := nvm', kernel := k' } } ∧
      FileRep R nvm' s.inode.iIno t' own ∧ t'.ents.length = s.inode.iBlocks + 1 ∧
      Took n (tableSize (s.inode.iBlocks + 1) - tableSize s.inode.iBlocks) s.master.nvm nvm' ∧
      Stored s.master.nvm.mem nvm'.mem (getRdfsInodePhyAddr sb s.inode.iIno)
        (blockStores s.inode.iBlocks 1) t'.pages := by
  -- the entry was made, so there was a page for every level that needed one
  have hroom := h.enterBlock_room hlen haddr hn henter
  obtain ⟨t', nvm', k', henter', hrep', happ, htook, hsame⟩ := h.enterBlock hlen haddr htarget hn
    hroom
  rw [henter'] at henter
  obtain ⟨-, rfl⟩ := Prod.mk.inj henter
  refine ⟨t', nvm', k', rfl, hrep', ?_, htook, hsame⟩
  rw [happ.ents, length_append, hlen, length_singleton]

end

section

variable (hn : getCpuNuma sb cpu = n) (h : FileRep R s.master.nvm s.inode.iIno t own)
  (hlen : t.ents.length = s.inode.iBlocks)
include hn h hlen

section

variable (hi : rdfsGetNumaByInode sb (getRdfsInode sb s.inode.iIno) = i)
include hi

/-- A round that succeeds, and puts its entry where the tree has it, has found the pages it needs
for the table and for the cursor. -/
theorem FileRep.round (hs : Supplied sb cpu zeroing type (num + 1) s own)
    (haddr : AddrOk s.inode.iVirtAddr s.inode.iBlocks)
    (hround : allocRound sb cpu zeroing type s = (0, s')) :
    ∃ t' new, FileRep R s'.master.nvm s.inode.iIno t' (new ++ own) ∧
      t'.ents.length = s.inode.iBlocks + 1 ∧ Supplied sb cpu zeroing type num s' (new ++ own) ∧
      ∀ j, roundPages n i type s.inode.iBlocks s.master.pteCnt (num + 1) j +
          (s'.master.nvm.numaDes j).freePageCount =
        roundPages n i type (s.inode.iBlocks + 1) s'.master.pteCnt num j +
          (s.master.nvm.numaDes j).freePageCount := by
  rcases htake : takeBlock sb cpu zeroing type s with ⟨target, s₁⟩
  obtain ⟨new, htaken⟩ := h.owned.taken hi hs htake
  obtain ⟨b, hinode⟩ := takeBlock_inode htake
  have hino : s₁.inode.iIno = s.inode.iIno := by rw [hinode]
  have hblocks : s₁.inode.iBlocks = s.inode.iBlocks := by rw [hinode]
  have haddr₁ : AddrOk s₁.inode.iVirtAddr s₁.inode.iBlocks := by rwa [hinode]
  have henter : Rdfs.enterBlock sb cpu target s₁ = (0, s') := by
    rw [allocRound, htake] at hround
    exact hround
  have hrep₁ : FileRep R s₁.master.nvm s₁.inode.iIno t (new ++ own) :=
    hino ▸ h.of_sameOffPages htaken.owned htaken.same
  have hlen₁ : t.ents.length = s₁.inode.iBlocks := by rw [hlen, hblocks]
  obtain ⟨t', nvm', k', rfl, hrep', hlen', htook, hsame⟩ :=
    hrep₁.enterBlock_zero hlen₁ haddr₁ hn (blockEntry_and (hrep₁.owned.isPage
      (mem_append_right _ htaken.target_mem))).2.2 henter
  rw [hblocks] at htook hlen'
  refine ⟨t', new, hino ▸ hrep', hlen', htaken.supplied _ henter fun p hp => ?_, fun j => ?_⟩
  · have hpage := htaken.owned.isPage (mem_append_right _ hp)
    have hslot := R.isSlot_disjoint_page hrep₁.isSlot hpage
    exact (hsame.sameBut blockStores_inSlot).sameOn (by omega) fun q hq =>
      hrep'.owned.disjoint_append hq hp
  · have h1 := htaken.took.count j
    have h2 := htook.count j
    have h3 := htaken.cursor num
    have hmono : tableSize s.inode.iBlocks ≤ tableSize (s.inode.iBlocks + 1) :=
      tableSize_mono (by omega)
    have hmono' : tableSize (s.inode.iBlocks + 1) ≤ tableSize (s.inode.iBlocks + 1 + num) :=
      tableSize_mono (by omega)
    rw [show s.inode.iBlocks + 1 + num = s.inode.iBlocks + (num + 1) by omega] at hmono'
    simp only [roundPages] at h2 ⊢
    rw [show s.inode.iBlocks + 1 + num = s.inode.iBlocks + (num + 1) by omega]
    split_ifs at h1 h2 ⊢ <;> omega

/-- Rounds that succeed, and put their entries where the tree has them, have found the pages they
need for the table and for the cursor. -/
theorem FileRep.rounds_room (hs : Supplied sb cpu zeroing type num s own)
    (haddr : ∀ i < num, AddrOk s.inode.iVirtAddr (s.inode.iBlocks + i))
    (hloop : allocLoop sb cpu zeroing type num s = (0, s')) (j : Fin 2) :
    roundPages n i type s.inode.iBlocks s.master.pteCnt num j ≤
      (s.master.nvm.numaDes j).freePageCount := by
  induction num generalizing s t own with
  | zero =>
    have hcur : cursorPages type s.master.pteCnt 0 = 0 := by
      cases type with
      | page => rfl
      | pte =>
        have hcnt := hs.1.1
        exact Nat.div_eq_of_lt (by omega)
    simp [roundPages, hcur]
  | succ num ih =>
    obtain ⟨s₁, hround, hrest⟩ := allocLoop_first hloop
    obtain ⟨t₁, new, hrep₁, hlen₁, hs₁, hcount⟩ :=
      h.round hn hlen hi hs (haddr 0 (Nat.succ_pos num)) hround
    obtain ⟨b, hinode⟩ := allocRound_inode hround
    have hblocks : s₁.inode.iBlocks = s.inode.iBlocks + 1 := by rw [hinode]
    have hino : s₁.inode.iIno = s.inode.iIno := by rw [hinode]
    have haddr₁ : ∀ i < num, AddrOk s₁.inode.iVirtAddr (s₁.inode.iBlocks + i) := by
      rw [hblocks, hinode]
      exact addrOk_next haddr
    have hroom := ih (hino ▸ hrep₁) (hlen₁.trans hblocks.symm) (hino ▸ hi) hs₁ haddr₁ hrest
    rw [hblocks] at hroom
    have := hcount j
    omega

end

/-- Rounds with blocks of slaves that have the pages they need find one whenever the cursor is at
the end of its page. -/
theorem FileRep.not_noCursorPage (hcur : CursorIn s.master own)
    (hi : rdfsGetNumaByInode sb (getRdfsInode sb s.inode.iIno) = i)
    (haddr : ∀ i < num, AddrOk s.inode.iVirtAddr (s.inode.iBlocks + i))
    (hroom : PteRoom s.master.nvm n i s.inode.iBlocks s.master.pteCnt num) :
    ¬NoCursorPage sb cpu zeroing num s := by
  induction num generalizing s t own with
  | zero => exact fun hno => hno
  | succ num ih =>
    rintro (⟨hcnt, hfail⟩ | ⟨-, hno⟩)
    · have hr := hroom i
      rw [if_pos rfl, show s.master.pteCnt = 512 from hcnt] at hr
      obtain ⟨st', hr', -⟩ := rdfsNewBlock_ok (k := 1) s.master.ptePhyAddr
        (show newBlockNode sb cpu (some (getRdfsInode sb s.inode.iIno)) = i from hi) (by decide)
        (show 1 ≤ (s.master.nvm.numaDes i).freePageCount by omega)
      rw [show ((1 : ℕ) : ℤ) = 1 from rfl] at hr'
      rw [hr'] at hfail
      exact hfail rfl
    · obtain ⟨t₁, s₁, new, p, c, hround, -, hrep₁, hr₁, hpte, hcount⟩ :=
        h.pteRound zeroing hn hlen hcur hi (haddr 0 (Nat.succ_pos num)) hroom.one
      obtain ⟨s₂, hfirst, hrest⟩ := allocLoop_first (hround 0)
      obtain rfl := (Prod.mk.inj hrest).2
      rw [hfirst] at hno
      obtain ⟨b, hinode⟩ := hr₁.inode
      have hino : s₂.inode.iIno = s.inode.iIno := by rw [hinode]
      have hblocks : s₂.inode.iBlocks = s.inode.iBlocks + 1 := by rw [hinode]; rfl
      have hlen₁ : t₁.ents.length = s₂.inode.iBlocks := by
        rw [hr₁.appended.ents, hblocks, length_append, hlen, length_singleton]
      exact ih (hino ▸ hrep₁) hlen₁ (hpte.cursorIn hcur).2 (hino ▸ hi)
        (by rw [hblocks, hinode]; exact addrOk_next haddr) (hblocks ▸ hpte.room hcount hroom) hno

end

/-! ## No table -/

/-- What `rdfs_get_zeroed_page` takes and writes to, if anything. -/
theorem Owned.getZeroedPage_any (h : Owned R.pages st own) (cpu : ℕ) :
    ∃ new, Owned R.pages (rdfsGetZeroedPage sb cpu st).2 (new ++ own) ∧
      SameOffPages st.mem (rdfsGetZeroedPage sb cpu st).2.mem new := by
  rcases Nat.eq_zero_or_pos (st.numaDes (getCpuNuma sb cpu)).freePageCount with hc | hc
  · rw [rdfsGetZeroedPage_none rfl hc]
    exact ⟨[], h, SameOffPages.refl _ _⟩
  · obtain ⟨p, st', hr, -, hown, hm, -⟩ := h.getZeroedPage rfl hc
    rw [hr]
    exact ⟨[p], hown, hm ▸ SameOffPages.of_sameOff (Mem.sameOff_fill st.mem 4096 p 0) le_rfl le_rfl⟩

/-- A call of `rdfs_init_pg_table` that fails leaves the inode without a table, and loses the pages
it has taken. -/
theorem Owned.initPgTable_fails (h : Owned R.pages st own)
    (hr : (rdfsInitPgTable sb cpu st ino).1 ≠ 0) :
    ∃ lost, Owned R.pages (rdfsInitPgTable sb cpu st ino).2 (lost ++ own) ∧
      SameOffPages st.mem (rdfsInitPgTable sb cpu st ino).2.mem lost := by
  generalize hr₁ : rdfsGetZeroedPage sb cpu st = r₁
  generalize hr₂ : rdfsGetZeroedPage sb cpu r₁.2 = r₂
  generalize hr₃ : rdfsGetZeroedPage sb cpu r₂.2 = r₃
  have hnull : r₁.1 = 0 ∨ r₂.1 = 0 ∨ r₃.1 = 0 := by
    by_contra hno
    exact hr (by rw [rdfsInitPgTable_fst hr₁ hr₂ hr₃, if_neg hno])
  have hstate : (rdfsInitPgTable sb cpu st ino).2 = r₃.2 := by
    simp only [rdfsInitPgTable, hr₁, hr₂, hr₃, if_pos hnull]
  obtain ⟨a, ha, hsa⟩ := h.getZeroedPage_any cpu
  rw [hr₁] at ha hsa
  obtain ⟨b, hb, hsb⟩ := ha.getZeroedPage_any cpu
  rw [hr₂] at hb hsb
  obtain ⟨c, hc, hsc⟩ := hb.getZeroedPage_any cpu
  rw [hr₃] at hc hsc
  rw [hstate]
  refine ⟨c ++ (b ++ a), by simpa using hc, ?_⟩
  exact ((hsa.mono (by simp)).trans (hsb.mono (by simp))).trans (hsc.mono (by simp))

/-- The inode has no table, and gets none. -/
theorem FileState.ensureTable_fails {g : Master} {inode : Inode}
    (h : FileState R g.nvm inode.iIno none own) (hn : getCpuNuma sb cpu = n)
    (hroom : (g.nvm.numaDes n).freePageCount < 3) :
    ∃ lost, FileState R (Rdfs.ensureTable sb cpu g inode).nvm inode.iIno none (lost ++ own) := by
  have hown : Owned R.pages g.nvm own := h.owned
  have hfails : (rdfsInitPgTable sb cpu g.nvm inode.iIno).1 ≠ 0 := fun h0 => by
    have := hown.threeLinked_iff.1 ((rdfsInitPgTable_eq_zero_iff hn _).1 h0)
    omega
  obtain ⟨lost, hlost, hsame⟩ := hown.initPgTable_fails hfails
  refine ⟨lost, ?_⟩
  have hnvm : (Rdfs.ensureTable sb cpu g inode).nvm =
      (rdfsInitPgTable sb cpu g.nvm inode.iIno).2 := by
    have h0 : inodeStruct.getField g.nvm.mem (getRdfsInodePhyAddr sb inode.iIno) .iPgAddr = 0 :=
      h.pgAddr
    rw [Rdfs.ensureTable, if_pos h0]
  rw [hnvm]
  exact h.of_sameOffPages hlost (hsame.mono (subset_append_left _ _))

section

variable (h : FileState R s.master.nvm s.inode.iIno none own) (h0 : s.inode.iBlocks = 0)
include h h0

/-- No block is entered without a table. -/
theorem FileState.enterBlock_ne_zero : enterBlock sb cpu target s ≠ (0, s') := by
  intro henter
  obtain ⟨nvm', k', hins, -⟩ := insertPage_of_enterBlock henter
  have hfield : inodeStruct.getField (Rdfs.countBlock sb s.master.nvm s.inode).mem
    (getRdfsInodePhyAddr sb s.inode.iIno) .iPgAddr = 0 := h.countBlock.pgAddr
  simp [rdfsInsertPage, rdfsPudAlloc, rdfsGetPud, hfield, h0, show i32 0 = 0 from rfl] at hins

/-- The first round of an inode without a table fails. -/
theorem FileState.round_ne_zero (hi : rdfsGetNumaByInode sb (getRdfsInode sb s.inode.iIno) = i)
    (hs : Supplied sb cpu zeroing type (num + 1) s own) :
    allocRound sb cpu zeroing type s ≠ (0, s') := by
  rcases htake : takeBlock sb cpu zeroing type s with ⟨target, s₁⟩
  have hown : Owned R.pages s.master.nvm ([] ++ own) := h.owned
  obtain ⟨new, htaken⟩ := hown.taken hi hs htake
  obtain ⟨b, hinode⟩ := takeBlock_inode htake
  have hino : s₁.inode.iIno = s.inode.iIno := by rw [hinode]
  have hblocks : s₁.inode.iBlocks = 0 := by rw [hinode, ← h0]
  have hstate := h.of_sameOffPages htaken.owned htaken.same
  rw [← hino] at hstate
  rw [allocRound, htake]
  exact hstate.enterBlock_ne_zero hblocks

end

/-! ## The last directory area -/

/-- A directory in the last area whose table has the pages `pud`, `pmd` and `pte`. Block `i` is not
there, and entries made since are in one of the pages `tab`, which the last entry of the second
level leads to. -/
structure Strayed (R : Region sb) (st : Nvm) (ino pud pmd pte i : ℕ) (tab own : List ℕ) :
    Prop where
  isSlot : R.inodes.IsSlot (getRdfsInodePhyAddr sb ino)
  owned : Owned R.pages st (pud :: pmd :: pte :: (tab ++ own))
  pgAddr : inodeStruct.getField st.mem (getRdfsInodePhyAddr sb ino) .iPgAddr = pud
  top : st.mem.load 8 pud = pmd ||| pageTable
  mid : st.mem.load 8 pmd = pte ||| pageTable
  last : st.mem.load 8 (pmd + 8 * 511) = 0 ∨
    ∃ q ∈ tab, st.mem.load 8 (pmd + 8 * 511) = q ||| pageTable
  lt : i < 512
  low : st.mem.load 8 (pte + 8 * i) = 0

/-- The table before the first entry that goes astray. -/
theorem FileRep.strayed (h : FileRep R st ino t own) (hlt : t.ents.length < 512) :
    ∃ pmd pte, Strayed R st ino t.pud pmd pte t.ents.length [] own := by
  have hpmds := h.rep.length_pmds
  have hptes := h.rep.length_ptes
  obtain ⟨pmd, hpmd⟩ := length_eq_one_iff.1 (show t.pmds.length = 1 by omega)
  obtain ⟨pte, hpte⟩ := length_eq_one_iff.1 (show t.ptes.length = 1 by omega)
  have hown := h.owned
  rw [Tree.pages, hpmd, hpte] at hown
  refine ⟨pmd, pte, h.isSlot, hown, h.pgAddr, ?_, ?_, Or.inl ?_, hlt, ?_⟩
  · have hword := h.rep.top 0 t.pud rfl 0 (by decide)
    rwa [hpmd, tableWord_of_lt _ (by simp)] at hword
  · have hword := h.rep.mid 0 pmd (by rw [hpmd]; rfl) 0 (by decide)
    rwa [hpte, tableWord_of_lt _ (by simp)] at hword
  · have hword := h.rep.mid 0 pmd (by rw [hpmd]; rfl) 511 (by decide)
    rwa [tableWord_of_le _ (by simp [hpte])] at hword
  · have hword := h.rep.low 0 pte (by rw [hpte]; rfl) t.ents.length hlt
    rwa [tableWord_of_le _ (by omega)] at hword

namespace Strayed

variable {st st' : Nvm} {ino pud pmd pte i : ℕ} {tab tab' own own' : List ℕ}

/-- A tree with block `i` is not in the table. -/
theorem length_le (h : Strayed R st ino pud pmd pte i tab own) (ht : FileRep R st ino t own') :
    t.ents.length ≤ i := by
  by_contra hlt
  have hi := h.lt
  have hpage : ∀ p ∈ t.pages, R.pages.IsPage p := fun p hp =>
    ht.owned.isPage (mem_append_left own' hp)
  have hpud : t.pud = pud := by rw [← ht.pgAddr, h.pgAddr]
  have hpmds : 0 < t.pmds.length := by rw [ht.rep.length_pmds]; omega
  have hptes : 0 < t.ptes.length := by rw [ht.rep.length_ptes]; omega
  have heq : ∀ {p q : ℕ}, R.pages.IsPage p → R.pages.IsPage q →
      p ||| pageTable = q ||| pageTable → p = q := fun hp hq h' => by
    rw [← (tableEntry_and hp).2.1, h', (tableEntry_and hq).2.1]
  have hpmd : t.pmds[0] = pmd := by
    have hword := ht.rep.top 0 t.pud rfl 0 (by decide)
    rw [tableWord_of_lt _ (by omega), hpud] at hword
    exact heq (hpage _ (by simp [Tree.pages])) (h.owned.isPage (by simp)) (hword.symm.trans h.top)
  have hpte : t.ptes[0] = pte := by
    have hword := ht.rep.mid 0 t.pmds[0] (getElem?_eq_getElem hpmds) 0 (by decide)
    rw [tableWord_of_lt _ (by omega), hpmd] at hword
    exact heq (hpage _ (by simp [Tree.pages])) (h.owned.isPage (by simp)) (hword.symm.trans h.mid)
  have hword := ht.rep.low 0 t.ptes[0] (getElem?_eq_getElem hptes) i hi
  rw [tableWord_of_lt _ (by omega), hpte, h.low] at hword
  exact absurd (Nat.or_eq_zero_iff.1 hword.symm).2 (by decide)

/-- Writes that leave the three pages of the table and `i_pg_addr` alone. -/
theorem congr (h : Strayed R st ino pud pmd pte i tab own)
    (hown : Owned R.pages st' (pud :: pmd :: pte :: (tab ++ own')))
    (hsame : ∀ p ∈ [pud, pmd, pte], Mem.SameOn st.mem st'.mem 4096 p)
    (hpg : Mem.SameOn st.mem st'.mem 8 (getRdfsInodePhyAddr sb ino + 72)) :
    Strayed R st' ino pud pmd pte i tab own' := by
  have hi := h.lt
  have hload : ∀ p ∈ [pud, pmd, pte], ∀ j < 512,
      st'.mem.load 8 (p + 8 * j) = st.mem.load 8 (p + 8 * j) := fun p hp j hj =>
    Mem.load_congr ((hsame p hp).mono (by omega) (by omega))
  refine ⟨h.isSlot, hown, ?_, ?_, ?_, ?_, hi, ?_⟩
  · rw [← h.pgAddr]
    exact Mem.load_congr hpg
  · rw [← h.top]
    exact hload pud (by simp) 0 (by decide)
  · rw [← h.mid]
    exact hload pmd (by simp) 0 (by decide)
  · rw [hload pmd (by simp) 511 (by decide)]
    exact h.last
  · rw [← h.low]
    exact hload pte (by simp) i hi

/-- Writes to one of the pages `tab` and to the last entry of the second level. -/
theorem write (h : Strayed R st ino pud pmd pte i tab own)
    (hown : Owned R.pages st' (pud :: pmd :: pte :: (tab' ++ own))) {q : ℕ} (hq : q ∈ tab')
    (hlast : st'.mem.load 8 (pmd + 8 * 511) = q ||| pageTable)
    (hsame : ∀ x, ¬(q ≤ x ∧ x < q + 4096) → ¬(pmd + 8 * 511 ≤ x ∧ x < pmd + 4096) →
      st'.mem x = st.mem x) :
    Strayed R st' ino pud pmd pte i tab' own ∧ ∀ p ∈ own, Mem.SameOn st.mem st'.mem 4096 p := by
  have hi := h.lt
  have hrest : Owned R.pages st' ([pud, pmd, pte] ++ (tab' ++ own)) := hown
  have hqIn : q ∈ tab' ++ own := mem_append_left own hq
  have hload : ∀ a k, (a + k ≤ q ∨ q + 4096 ≤ a) → (a + k ≤ pmd + 8 * 511 ∨ pmd + 4096 ≤ a) →
      Mem.SameOn st.mem st'.mem k a := fun a k h1 h2 x hx hx' =>
    hsame x (by omega) (by omega)
  have hfar : ∀ p ∈ [pud, pmd, pte], p + 4096 ≤ q ∨ q + 4096 ≤ p := fun p hp =>
    hrest.disjoint_append hp hqIn
  have hnodup := hown.nodup
  simp only [nodup_cons, mem_cons, not_or] at hnodup
  have hpudFar : pud + 4096 ≤ pmd ∨ pmd + 4096 ≤ pud := hown.disjoint (by simp) (by simp) hnodup.1.1
  have hpteFar : pmd + 4096 ≤ pte ∨ pte + 4096 ≤ pmd :=
    hown.disjoint (by simp) (by simp) hnodup.2.1.1
  have h1 := hfar pud (by simp)
  have h2 := hfar pmd (by simp)
  have h3 := hfar pte (by simp)
  refine ⟨⟨h.isSlot, hown, ?_, ?_, ?_, Or.inr ⟨q, hq, hlast⟩, hi, ?_⟩, fun p hp => ?_⟩
  · have hslot := R.isSlot_disjoint_page h.isSlot (hrest.isPage (mem_append_right _ hqIn))
    have hslot' := R.isSlot_disjoint_page h.isSlot (hrest.isPage (p := pmd) (by simp))
    rw [← h.pgAddr]
    exact Mem.load_congr (hload (getRdfsInodePhyAddr sb ino + 72) 8 (by omega) (by omega))
  · rw [← h.top]
    exact Mem.load_congr (hload pud 8 (by omega) (by omega))
  · rw [← h.mid]
    exact Mem.load_congr (hload pmd 8 (by omega) (by omega))
  · rw [← h.low]
    exact Mem.load_congr (hload (pte + 8 * i) 8 (by omega) (by omega))
  · have htab : Owned R.pages st' ((pud :: pmd :: pte :: tab') ++ own) := hown
    have hpq := htab.disjoint_append (p := q) (by simp [hq]) hp
    have hpp := htab.disjoint_append (p := pmd) (by simp) hp
    exact hload p 4096 (by omega) (by omega)

/-- The entry of a further page is made in the page `q`, where the last entry of the second level
leads. -/
theorem insertPage_at (h : Strayed R st ino pud pmd pte i tab own) {v j phys : ℕ}
    (hv : v + maxDirSize = rdfsStart + dirAreaSize) (hpos : 0 < j) (hj : j < 512)
    {k k' : KernelMap} (hr : rdfsInsertPage sb cpu st k ino v (j + 1) phys = (0, st', k'))
    {q : ℕ} {st₁ : Nvm} (hq : q ∈ tab')
    (hown : Owned R.pages st₁ (pud :: pmd :: pte :: (tab' ++ own)))
    (hpte : rdfsPteAlloc sb cpu st (rdfsVa sb (pmd + 8 * 511)) (v + 4096 * j) =
      (rdfsVa sb q + 8 * j, st₁))
    (hlast : st₁.mem.load 8 (pmd + 8 * 511) = q ||| pageTable)
    (hsame : ∀ x, ¬(q ≤ x ∧ x < q + 4096) → ¬(pmd + 8 * 511 ≤ x ∧ x < pmd + 4096) →
      st₁.mem x = st.mem x) :
    Strayed R st' ino pud pmd pte i tab' own ∧ ∀ p ∈ own, Mem.SameOn st.mem st'.mem 4096 p := by
  have hne : ∀ {p a : ℕ}, R.pages.IsPage p → rdfsVa sb (p + a) ≠ 0 := fun {p a} hp =>
    rdfsVa_ne_zero sb fun h0 => R.not_isPage_zero (by rwa [show p = 0 by omega] at hp)
  have hpudPage : R.pages.IsPage pud := h.owned.isPage (by simp)
  have hpmdPage : R.pages.IsPage pmd := h.owned.isPage (by simp)
  have hqIn : q ∈ pud :: pmd :: pte :: (tab' ++ own) := by simp [hq]
  have hqPage := hown.isPage hqIn
  rw [← rdfsVa_add] at hpte
  have hins := rdfsInsertPage_eq (lastArea_addr hv hj).1 (rdfsPudAlloc_dir hpudPage h.pgAddr hj)
    (rdfsPmdAlloc_lastArea hpmdPage h.top hv hpos hj cpu) hpte (hne (a := 0) hpudPage)
    (hne hpmdPage) (hne hqPage) k phys
  obtain ⟨rfl, -⟩ := Prod.mk.inj (Prod.mk.inj (hr.symm.trans hins)).2
  rw [rdfsSetPte, rdfsPa_rdfsVa]
  have hstore := Mem.sameOff_store st₁.mem 8 (q + 8 * j) (phys ||| pageKernel)
  have hfar : pmd + 4096 ≤ q ∨ q + 4096 ≤ pmd := by
    have hparts : Owned R.pages st₁ ([pud, pmd, pte] ++ (tab' ++ own)) := hown
    exact hparts.disjoint_append (by simp) (mem_append_left own hq)
  refine h.write (hown.congr (fun _ => ⟨rfl, rfl⟩) fun p hp hpn => ?_) hq ?_ fun x hx hx' => ?_
  · have := hp.disjoint hqPage fun heq => hpn (heq ▸ hqIn)
    exact hstore.sameOn (by omega)
  · rw [← hlast]
    exact Mem.load_congr (hstore.sameOn (by omega))
  · exact (hstore x (by omega)).trans (hsame x hx hx')

/-- A further page goes astray, too. -/
theorem insertPage (h : Strayed R st ino pud pmd pte i tab own) {v j phys : ℕ}
    (hv : v + maxDirSize = rdfsStart + dirAreaSize) (hpos : 0 < j) (hj : j < 512)
    {k k' : KernelMap} (hr : rdfsInsertPage sb cpu st k ino v (j + 1) phys = (0, st', k')) :
    ∃ tab', Strayed R st' ino pud pmd pte i tab' own ∧
      ∀ p ∈ own, Mem.SameOn st.mem st'.mem 4096 p := by
  obtain ⟨hnew, -, -, hindex⟩ := lastArea_addr hv hj
  rcases h.last with hzero | ⟨q, hq, hword⟩
  · rcases Nat.eq_zero_or_pos (st.numaDes (getCpuNuma sb cpu)).freePageCount with hc | hc
    · rw [← deref_rdfsVa sb] at hzero
      have hpud := rdfsPudAlloc_dir (h.owned.isPage mem_cons_self) h.pgAddr hj
      have hpmd := rdfsPmdAlloc_lastArea (h.owned.isPage (by simp)) h.top hv hpos hj cpu
      exact absurd (by rw [hr])
        (rdfsInsertPage_noPte hnew hpud hpmd (entryAlloc_full rfl hc hzero _))
    · obtain ⟨q, st₁, hpte, hown, hlt, hm, -⟩ := h.owned.entryAlloc_empty
        (show pmdPresent 0 = false from rfl) (p := pmd) (by simp) (by decide) hzero rfl hc j
      have hperm : ([pud, pmd, pte] ++ q :: (tab ++ own)).Perm
          (q :: ([pud, pmd, pte] ++ (tab ++ own))) := perm_middle
      have hown' : Owned R.pages st₁ (pud :: pmd :: pte :: ((q :: tab) ++ own)) :=
        hown.of_perm hperm.symm
      refine ⟨q :: tab, h.insertPage_at hv hpos hj hr mem_cons_self hown' ?_ ?_ fun x hx hx' => ?_⟩
      · rw [rdfsPteAlloc, hindex, hpte]
      · rw [hm, Mem.load_store_of_lt _ _ hlt]
      · rw [hm, Mem.sameOff_store _ _ _ _ x (by omega), Mem.sameOff_fill _ _ _ _ x hx]
  · refine ⟨tab, h.insertPage_at hv hpos hj hr hq h.owned ?_ hword fun _ _ _ => rfl⟩
    rw [rdfsPteAlloc, hindex, entryAlloc_present (h.owned.isPage (by simp [hq])) hword]

/-- Writes to pages that are owned afterwards and are none of the table. -/
theorem of_sameOffPages (h : Strayed R st ino pud pmd pte i tab own)
    (hown : Owned R.pages st' (pud :: pmd :: pte :: (tab ++ own')))
    (hsame : SameOffPages st.mem st'.mem own') : Strayed R st' ino pud pmd pte i tab own' := by
  have hparts : Owned R.pages st' ([pud, pmd, pte] ++ (tab ++ own')) := hown
  refine h.congr hown (fun p hp => hsame.sameOn fun q hq => ?_) (hsame.sameOn fun q hq => ?_)
  · exact (hparts.disjoint_append hp (mem_append_right tab hq)).symm
  · have := R.isSlot_disjoint_page h.isSlot (hown.isPage (p := q) (by simp [hq]))
    omega

/-- Counting a block writes to the slot. -/
theorem countBlock {inode : Inode} (h : Strayed R st inode.iIno pud pmd pte i tab own) :
    Strayed R (countBlock sb st inode) inode.iIno pud pmd pte i tab own := by
  have hm : Mem.SameOff st.mem (Rdfs.countBlock sb st inode).mem 8
      (getRdfsInodePhyAddr sb inode.iIno + 56) := Mem.sameOff_store _ _ _ _
  have hpage : ∀ p, R.pages.IsPage p →
      Mem.SameOn st.mem (Rdfs.countBlock sb st inode).mem 4096 p := fun p hp => by
    have := R.isSlot_disjoint_page h.isSlot hp
    exact hm.sameOn (by omega)
  refine h.congr (h.owned.congr (fun _ => ⟨rfl, rfl⟩) fun p hp _ => hpage p hp)
    (fun p hp => hpage p (h.owned.isPage ?_)) (hm.sameOn (by omega))
  exact mem_append_left (tab ++ own) hp

section

variable (h : Strayed R s.master.nvm s.inode.iIno pud pmd pte i tab own)
  (hn : rdfsGetNumaByInode sb (getRdfsInode sb s.inode.iIno) = n)
  (hv : s.inode.iVirtAddr + maxDirSize = rdfsStart + dirAreaSize) (hpos : 0 < s.inode.iBlocks)
include h hn hv hpos

/-- A round keeps the directory astray. -/
theorem round (hlt : s.inode.iBlocks < 512) (hs : Supplied sb cpu zeroing type (num + 1) s own)
    (hround : allocRound sb cpu zeroing type s = (0, s')) :
    ∃ tab' own', Strayed R s'.master.nvm s.inode.iIno pud pmd pte i tab' own' ∧
      Supplied sb cpu zeroing type num s' own' := by
  rcases htake : takeBlock sb cpu zeroing type s with ⟨target, s₁⟩
  have hown : Owned R.pages s.master.nvm ((pud :: pmd :: pte :: tab) ++ own) := h.owned
  obtain ⟨new, htaken⟩ := hown.taken hn hs htake
  obtain ⟨b, hinode⟩ := takeBlock_inode htake
  have hino : s₁.inode.iIno = s.inode.iIno := by rw [hinode]
  have hblocks : s₁.inode.iBlocks = s.inode.iBlocks := by rw [hinode]
  have hvirt : s₁.inode.iVirtAddr = s.inode.iVirtAddr := by rw [hinode]
  have henter : enterBlock sb cpu target s₁ = (0, s') := by
    rw [allocRound, htake] at hround
    exact hround
  have h₁ : Strayed R s₁.master.nvm s₁.inode.iIno pud pmd pte i tab (new ++ own) :=
    hino ▸ h.of_sameOffPages htaken.owned htaken.same
  obtain ⟨nvm', k', hins, hs'⟩ := insertPage_of_enterBlock henter
  rw [← hblocks] at hpos hlt
  rw [← hvirt] at hv
  obtain ⟨tab', h', hsame⟩ := h₁.countBlock.insertPage hv hpos hlt hins
  refine ⟨tab', new ++ own, by rw [hs', ← hino]; exact h', htaken.supplied s' henter fun p hp => ?_⟩
  have hpage := htaken.owned.isPage (mem_append_right _ hp)
  have hslot := R.isSlot_disjoint_page h₁.isSlot hpage
  have hcount : Mem.SameOff s₁.master.nvm.mem (Rdfs.countBlock sb s₁.master.nvm s₁.inode).mem 8
      (getRdfsInodePhyAddr sb s₁.inode.iIno + 56) := Mem.sameOff_store _ _ _ _
  have hfirst : Mem.SameOn s₁.master.nvm.mem (Rdfs.countBlock sb s₁.master.nvm s₁.inode).mem 4096
      p := hcount.sameOn (by omega)
  rw [hs']
  exact fun x hx hx' => (hsame p hp x hx hx').trans (hfirst x hx hx')

/-- However many rounds succeed, block `i` is not there. -/
theorem rounds (hlt : s.inode.iBlocks + num ≤ 512) (hs : Supplied sb cpu zeroing type num s own)
    (hloop : allocLoop sb cpu zeroing type num s = (0, s')) :
    ∃ tab' own', Strayed R s'.master.nvm s.inode.iIno pud pmd pte i tab' own' := by
  let Q : ℕ → AllocState → Prop := fun k r =>
    (∃ bitmaps, r.inode = { s.inode with iBlocks := r.inode.iBlocks, bitmaps := bitmaps }) ∧
      0 < r.inode.iBlocks ∧ r.inode.iBlocks + k ≤ 512 ∧
      ∃ tab' own', Strayed R r.master.nvm s.inode.iIno pud pmd pte i tab' own' ∧
        Supplied sb cpu zeroing type k r own'
  have hkeep : ∀ k r r₁, Q (k + 1) r → allocRound sb cpu zeroing type r = (0, r₁) → Q k r₁ := by
    rintro k r r₁ ⟨⟨b, hb⟩, hpos', hlt', tab', own', hr, hsup⟩ hround
    obtain ⟨b', hb'⟩ := allocRound_inode hround
    have hino : r.inode.iIno = s.inode.iIno := by rw [hb]
    have hvirt : r.inode.iVirtAddr = s.inode.iVirtAddr := by rw [hb]
    have hblocks : r₁.inode.iBlocks = r.inode.iBlocks + 1 := by rw [hb']
    obtain ⟨tab'', own'', hr₁, hsup₁⟩ := (show Strayed R _ r.inode.iIno _ _ _ _ _ _ from
      hino ▸ hr).round (n := n) (by rwa [hino]) (by rwa [hvirt]) hpos' (by omega) hsup hround
    exact ⟨⟨b', by rw [hb', hb]⟩, by omega, by omega, tab'', own'', hino ▸ hr₁, hsup₁⟩
  obtain ⟨-, -, -, tab', own', h', -⟩ := allocLoop_inv hkeep
    (⟨⟨_, rfl⟩, hpos, hlt, tab, own, h, hs⟩ : Q num s) hloop
  exact ⟨tab', own', h'⟩

end

end Strayed

end Rdfs
