import Rdfs.AddressSpace
import Rdfs.TreeRemoval

/-!
# Appending blocks to a file

`FileRep R st ino t own` says that the table of the inode `ino` holds the tree `t`, whose pages
are owned next to the pages `own`. Each round of `rdfs_alloc_blocks` puts one block behind the
last (`FileRep.enterBlock`). For pages of the region the blocks are the pages that
`rdfs_new_block` has taken off the free list beforehand (`FileState.allocBlocks_page`), for
blocks of slaves it is the page of the pte cursor every time (`FileState.allocBlocks_pte`).
-/

namespace Rdfs

open List Option

variable {sb : Super} {R : Region sb}

/-- The table of an inode holds the tree `t`, and its pages are owned next to `own`. -/
structure FileRep (R : Region sb) (st : Nvm) (ino : ℕ) (t : Tree) (own : List ℕ) : Prop where
  isSlot : R.inodes.IsSlot (getRdfsInodePhyAddr sb ino)
  owned : Owned R.pages st (t.pages ++ own)
  rep : TreeRep st.mem t
  pgAddr : inodeStruct.getField st.mem (getRdfsInodePhyAddr sb ino) .iPgAddr = t.pud

/-- `t'` is `t` with the blocks `es` behind it, and the kernel's page table has got the entries
for the pages of the second level that are new, in the area that starts at `v`. -/
structure Appended (v : ℕ) (t t' : Tree) (es : List ℕ) (k k' : KernelMap) : Prop where
  grows : t.Grows t'
  ents : t'.ents = t.ents ++ es
  kernel_pmd : k'.pmd = k.pmd
  kernel_new : ∀ a p, t.pmds.length ≤ a → t'.pmds[a]? = some p →
    k'.pud (v / 2 ^ 30 + a) = p ||| pageTable
  kernel_old : ∀ g, (∀ a, t.pmds.length ≤ a → a < t'.pmds.length → g ≠ v / 2 ^ 30 + a) →
    k'.pud g = k.pud g

theorem Appended.refl (v : ℕ) (t : Tree) (k : KernelMap) : Appended v t t [] k k := by
  refine ⟨Tree.Grows.refl t, by simp, rfl, fun a p ha hp => ?_, fun _ _ => rfl⟩
  rw [getElem?_eq_none ha] at hp
  cases hp

variable {v ino cpu : ℕ} {t' : Tree} {es own metas : List ℕ} {k k' : KernelMap} {m : Mem}
  {st' st : Nvm} {inode : Inode} {n i : Fin 2} {s s' : AllocState} {g : Master}

theorem Appended.trans {t t'' : Tree} {es' : List ℕ} {k'' : KernelMap} (h : Appended v t t' es k k')
    (h' : Appended v t' t'' es' k' k'') : Appended v t t'' (es ++ es') k k'' := by
  have hle := h.grows.pmds.length_le
  have hle' := h'.grows.pmds.length_le
  refine ⟨h.grows.trans h'.grows, by rw [h'.ents, h.ents, append_assoc],
    h'.kernel_pmd.trans h.kernel_pmd, fun a p ha hp => ?_, fun g hg => ?_⟩
  · rcases Nat.lt_or_ge a t'.pmds.length with hlt | hge
    · rw [h'.kernel_old _ fun b hb _ => by omega]
      refine h.kernel_new a p ha ?_
      obtain ⟨l, hl⟩ := h'.grows.pmds
      rw [← hp, ← hl, getElem?_append_left hlt]
    · exact h'.kernel_new a p hge hp
  · rw [h'.kernel_old g fun a ha => hg a (by omega),
      h.kernel_old g fun a ha ha' => hg a ha (by omega)]

/-- One block more, as `rdfs_insert_page` enters it. -/
theorem Appended.insert {v phys : ℕ} {t : Tree} {m' : Mem} (hrep : TreeRep m t)
    (hrep' : TreeRep m' t') (haddr : AddrOk v t.ents.length) (hgrows : t.Grows t')
    (hents : t'.ents = t.ents ++ [phys])
    (hk : (t'.pmds = t.pmds ∧ k' = k) ∨ ∃ q, t'.pmds = t.pmds ++ [q] ∧
      k' = nvmapPmd sb k (v + 4096 * t.ents.length) (rdfsVa sb q)) :
    Appended v t t' [phys] k k' := by
  rcases hk with ⟨hp, rfl⟩ | ⟨q, hp, hk⟩
  · refine ⟨hgrows, hents, rfl, fun a p ha hq => ?_, fun _ _ => rfl⟩
    rw [hp, getElem?_eq_none ha] at hq
    cases hq
  · have hlen := hrep.length_pmds
    have hlen' := hrep'.length_pmds
    rw [hp, hents, length_append, length_append, length_singleton, length_singleton] at hlen'
    have hv : v % 2 ^ 30 = 0 := by
      have := haddr.2.2
      split_ifs at this with hd
      · omega
      · exact this
    have hindex : (v + 4096 * t.ents.length) >>> 30 = v / 2 ^ 30 + t.pmds.length := by
      rw [Nat.shiftRight_eq_div_pow]
      omega
    have hk' : k' = k.setPud (v + 4096 * t.ents.length) (q ||| pageTable) := by
      rw [hk, nvmapPmd, if_neg (by omega), rdfsPa_rdfsVa]
    refine ⟨hgrows, hents, by rw [hk']; rfl, fun a p ha hq => ?_, fun g hg => ?_⟩
    · rw [hp, getElem?_append_right ha] at hq
      obtain ⟨hz, rfl⟩ : a - t.pmds.length = 0 ∧ q = p := by
        simpa [getElem?_singleton] using hq
      rw [hk', KernelMap.setPud_pud, hindex, if_pos (by omega)]
    · rw [hk', KernelMap.setPud_pud, hindex, if_neg]
      exact hg _ le_rfl (by rw [hp]; simp)

/-- The area leads to the new tree. -/
theorem Appended.holds {t : Tree} (h : Appended v t t' es k k') (hptes : t.ptes ≠ [])
    (hk : AreaHolds k v (some t)) : AreaHolds k' v (some t') := by
  obtain ⟨l, hl⟩ := h.grows.pmds
  obtain ⟨l', hl'⟩ := h.grows.ptes
  refine ⟨fun hv => ?_, fun hv a ha => ?_⟩
  · obtain ⟨p, ps, hp⟩ := exists_cons_of_ne_nil hptes
    rw [h.kernel_pmd, hk.1 hv, elim_some, elim_some, ← hl', hp]
    rfl
  · rw [elim_some]
    rcases Nat.lt_or_ge a t.pmds.length with hlt | hge
    · rw [h.kernel_old _ fun b hb _ => by omega, hk.2 hv a ha, elim_some, ← hl, tableWord,
        tableWord, getElem?_append_left hlt]
    · rcases Nat.lt_or_ge a t'.pmds.length with hlt' | hge'
      · have hp := getElem?_eq_getElem hlt'
        rw [h.kernel_new a _ hge hp, tableWord_of_getElem? _ hp]
      · rw [h.kernel_old _ fun b hb hb' => by omega, hk.2 hv a ha, elim_some,
          tableWord_of_le _ hge, tableWord_of_le _ hge']

/-- Only entries of the area are new. -/
theorem Appended.onlyArea {t : Tree} (h : Appended v t t' es k k') (hrep : TreeRep m t')
    (hpmds : 0 < t.pmds.length) (hv : Placed v t'.ents.length) : OnlyArea k k' v := by
  have hlen' := hrep.length_pmds
  have hle := hv.le
  refine ⟨fun g hg => h.kernel_old g fun a ha ha' heq => ?_, fun g _ => by rw [h.kernel_pmd]⟩
  rcases hv with ⟨hv, -⟩ | ⟨-, hlen, -⟩ | ⟨-, hlen⟩
  · exact hg ⟨hv, by omega, by omega⟩
  · omega
  · omega

/-- Writes to pages leave `i_pg_addr` of a slot alone. -/
theorem SameOffPages.iPgAddr {m' : Mem} {ps : List ℕ} (h : SameOffPages m m' ps) {slot : ℕ}
    (hslot : R.inodes.IsSlot slot) (hps : ∀ p ∈ ps, R.pages.IsPage p) :
    inodeStruct.getField m' slot .iPgAddr = inodeStruct.getField m slot .iPgAddr := by
  have hfield := h.sameOn (q := slot + 72) (k := 8) fun p hp => by
    have := R.isSlot_disjoint_page hslot (hps p hp)
    omega
  exact Mem.load_congr hfield

/-- The inode has no table, or one that holds a tree. -/
structure FileState (R : Region sb) (st : Nvm) (ino : ℕ) (t : Option Tree) (own : List ℕ) :
    Prop where
  isSlot : R.inodes.IsSlot (getRdfsInodePhyAddr sb ino)
  owned : Owned R.pages st (t.elim [] Tree.pages ++ own)
  rep : ∀ t' ∈ t, TreeRep st.mem t'
  pgAddr : inodeStruct.getField st.mem (getRdfsInodePhyAddr sb ino) .iPgAddr = t.elim 0 Tree.pud

theorem FileRep.fileState {t : Tree} (h : FileRep R st ino t own) :
    FileState R st ino (some t) own := by
  refine ⟨h.isSlot, h.owned, fun t' ht' => ?_, h.pgAddr⟩
  obtain rfl := some_inj.1 ht'
  exact h.rep

theorem FileState.fileRep {t : Tree} (h : FileState R st ino (some t) own) :
    FileRep R st ino t own :=
  ⟨h.isSlot, h.owned, h.rep t rfl, h.pgAddr⟩

section

variable {t : Option Tree} {own' : List ℕ}

/-- Writes that leave the pages of the table, the free pages and `i_pg_addr` alone. -/
theorem FileState.congr (h : FileState R st ino t own)
    (hdes : ∀ n, (st'.numaDes n).freePagePhy = (st.numaDes n).freePagePhy ∧
      (st'.numaDes n).freePageCount = (st.numaDes n).freePageCount)
    (hm : ∀ p, R.pages.IsPage p → p ∉ own → Mem.SameOn st.mem st'.mem 4096 p)
    (hpg : Mem.SameOn st.mem st'.mem 8 (getRdfsInodePhyAddr sb ino + 72)) :
    FileState R st' ino t own := by
  refine ⟨h.isSlot, h.owned.congr hdes fun p hp hp' => hm p hp ?_,
    fun t' ht' => (h.rep t' ht').congr fun p hp => ?_, ?_⟩
  · exact fun hown => hp' (mem_append_right _ hown)
  · obtain rfl : t = some t' := ht'
    refine hm p (h.owned.isPage (mem_append_left _ hp)) fun hown => ?_
    exact (nodup_append.1 h.owned.nodup).2.2 p hp p hown rfl
  · rw [← h.pgAddr]
    exact Mem.load_congr hpg

theorem FileRep.congr {t : Tree} (h : FileRep R st ino t own)
    (hdes : ∀ n, (st'.numaDes n).freePagePhy = (st.numaDes n).freePagePhy ∧
      (st'.numaDes n).freePageCount = (st.numaDes n).freePageCount)
    (hm : ∀ p, R.pages.IsPage p → p ∉ own → Mem.SameOn st.mem st'.mem 4096 p)
    (hpg : Mem.SameOn st.mem st'.mem 8 (getRdfsInodePhyAddr sb ino + 72)) :
    FileRep R st' ino t own :=
  (h.fileState.congr hdes hm hpg).fileRep

/-- Writes to pages that are owned afterwards and are none of the table. -/
theorem FileState.of_sameOffPages (h : FileState R st ino t own)
    (hown : Owned R.pages st' (t.elim [] Tree.pages ++ own'))
    (hsame : SameOffPages st.mem st'.mem own') : FileState R st' ino t own' := by
  refine ⟨h.isSlot, hown, fun t' ht' => (h.rep t' ht').congr fun p hp => ?_, ?_⟩
  · obtain rfl : t = some t' := ht'
    exact hsame.sameOn fun q hq => (hown.disjoint_append hp hq).symm
  · rw [← h.pgAddr]
    exact hsame.iPgAddr h.isSlot fun p hp => hown.isPage (mem_append_right _ hp)

theorem FileRep.of_sameOffPages {t : Tree} (h : FileRep R st ino t own)
    (hown : Owned R.pages st' (t.pages ++ own')) (hsame : SameOffPages st.mem st'.mem own') :
    FileRep R st' ino t own' :=
  (h.fileState.of_sameOffPages hown hsame).fileRep

end

/-! ## One round -/

/-- Counting a block writes to the slot. -/
theorem FileState.countBlock {t : Option Tree} (h : FileState R st inode.iIno t own) :
    FileState R (countBlock sb st inode) inode.iIno t own := by
  have hm : Mem.SameOff st.mem (Rdfs.countBlock sb st inode).mem 8
      (getRdfsInodePhyAddr sb inode.iIno + 56) := Mem.sameOff_store _ _ _ _
  refine h.congr (fun n => ⟨rfl, rfl⟩) (fun p hp _ => hm.sameOn ?_) (hm.sameOn (by omega))
  have := R.isSlot_disjoint_page h.isSlot hp
  omega

theorem FileRep.countBlock {t : Tree} (h : FileRep R st inode.iIno t own) :
    FileRep R (countBlock sb st inode) inode.iIno t own :=
  h.fileState.countBlock.fileRep

/-- The stores of `n` rounds to a slot that has `b` blocks. -/
def blockStores (b n : ℕ) : List (InodeField × ℕ) :=
  (List.range' (b + 1) n).map fun i => (.iBlocks, i % 2 ^ 32)

theorem blockStores_add (b n n' : ℕ) :
    blockStores b (n + n') = blockStores b n ++ blockStores (b + n) n' := by
  unfold blockStores
  rw [← map_append, Nat.add_right_comm, range'_append_1]

theorem blockStores_inSlot {b n : ℕ} :
    ∀ w ∈ blockStores b n, w.1 ≠ .iColdPageStart ∧ w.1 ≠ .iColdPageNum := by
  intro w hw
  obtain ⟨i, -, rfl⟩ := List.mem_map.1 hw
  simp

/-- `rdfs_insert_page` for a file whose table holds a tree. -/
theorem FileRep.insertPage {t : Tree} (h : FileRep R st ino t own) {v phys : ℕ}
    (haddr : AddrOk v t.ents.length) (hphys : phys ||| pageKernel < 2 ^ 64)
    (hn : getCpuNuma sb cpu = n)
    (hroom : tableSize (t.ents.length + 1) ≤ (st.numaDes n).freePageCount + tableSize t.ents.length)
    (k : KernelMap) :
    ∃ t' st' k', rdfsInsertPage sb cpu st k ino v (t.ents.length + 1) phys = (0, st', k') ∧
      FileRep R st' ino t' own ∧ Appended v t t' [phys] k k' ∧
      Took n (tableSize (t.ents.length + 1) - tableSize t.ents.length) st st' ∧
      SameOffPages st.mem st'.mem t'.pages := by
  obtain ⟨t', st', k', hr, hgrows, hents, hrep, hown, htook, hsame, hkernel⟩ :=
    h.owned.insertPage h.rep h.pgAddr haddr hphys hn hroom k
  refine ⟨t', st', k', hr, ⟨h.isSlot, hown, hrep, ?_⟩,
    Appended.insert h.rep hrep haddr hgrows hents hkernel, htook, hsame⟩
  rw [hgrows.pud, ← h.pgAddr]
  exact hsame.iPgAddr h.isSlot fun p hp => hown.isPage (mem_append_left own hp)

/-- One round of `rdfs_alloc_blocks` once the page to enter is there : it becomes the last
block. -/
theorem FileRep.enterBlock {t : Tree} (h : FileRep R s.master.nvm s.inode.iIno t own)
    (hlen : t.ents.length = s.inode.iBlocks) (haddr : AddrOk s.inode.iVirtAddr s.inode.iBlocks)
    {target : ℕ} (htarget : target ||| pageKernel < 2 ^ 64) (hn : getCpuNuma sb cpu = n)
    (hroom : tableSize (s.inode.iBlocks + 1) ≤
      (s.master.nvm.numaDes n).freePageCount + tableSize s.inode.iBlocks) :
    ∃ t' nvm' k', enterBlock sb cpu target s = (0, { s with
        inode := { s.inode with iBlocks := s.inode.iBlocks + 1 }
        master := { s.master with nvm := nvm', kernel := k' } }) ∧
      FileRep R nvm' s.inode.iIno t' own ∧
      Appended s.inode.iVirtAddr t t' [target] s.master.kernel k' ∧
      Took n (tableSize (s.inode.iBlocks + 1) - tableSize s.inode.iBlocks) s.master.nvm nvm' ∧
      Stored s.master.nvm.mem nvm'.mem (getRdfsInodePhyAddr sb s.inode.iIno)
        (blockStores s.inode.iBlocks 1) t'.pages := by
  have hcount := h.countBlock
  have htook : Took n 0 s.master.nvm (Rdfs.countBlock sb s.master.nvm s.inode) :=
    (Took.refl n s.master.nvm).write _
  obtain ⟨t', st', k', hins, hrep, happ, htook', hsame⟩ :=
    hcount.insertPage (hlen ▸ haddr) htarget hn (hlen ▸ hroom) s.master.kernel
  rw [hlen] at hins htook'
  refine ⟨t', st', k', enterBlock_eq hins, hrep, happ, ?_, hsame⟩
  simpa using htook.trans htook'

theorem tableSize_mono {a b : ℕ} (h : a ≤ b) : tableSize a ≤ tableSize b := by
  unfold tableSize
  omega

/-- From `s` to `s'` rounds have entered the blocks `es`, writing to the slot, to the pages of the
table and to the pages `written`. -/
structure Rounds (R : Region sb) (s s' : AllocState) (t t' : Tree) (es written : List ℕ) :
    Prop where
  inode : ∃ bitmaps, s'.inode =
    { s.inode with iBlocks := s.inode.iBlocks + es.length, bitmaps := bitmaps }
  appended : Appended s.inode.iVirtAddr t t' es s.master.kernel s'.master.kernel
  same : Stored s.master.nvm.mem s'.master.nvm.mem (getRdfsInodePhyAddr sb s.inode.iIno)
    (blockStores s.inode.iBlocks es.length) (t'.pages ++ written)
  sameInodes : SameInodes s.master.nvm s'.master.nvm

theorem Rounds.refl (s : AllocState) (t : Tree) : Rounds R s s t t [] [] :=
  ⟨⟨s.inode.bitmaps, rfl⟩, Appended.refl _ t _, fun _ _ => rfl, SameInodes.refl _⟩

theorem Rounds.trans {s'' : AllocState} {t t'' : Tree} {es' w w' : List ℕ}
    (h : Rounds R s s' t t' es w) (h' : Rounds R s' s'' t' t'' es' w') :
    Rounds R s s'' t t'' (es ++ es') (w ++ w') := by
  obtain ⟨b, hb⟩ := h.inode
  obtain ⟨b', hb'⟩ := h'.inode
  have hslot : s'.inode.iIno = s.inode.iIno := by rw [hb]
  have hv : s'.inode.iVirtAddr = s.inode.iVirtAddr := by rw [hb]
  have hblocks : s'.inode.iBlocks = s.inode.iBlocks + es.length := by rw [hb]
  have hsame' := h'.same
  rw [hslot, hblocks] at hsame'
  refine ⟨⟨b', ?_⟩, h.appended.trans (hv ▸ h'.appended), ?_, h.sameInodes.trans h'.sameInodes⟩
  · rw [hb', hb, length_append, Nat.add_assoc]
  · rw [length_append, blockStores_add]
    refine (h.same.mono fun p hp => ?_).trans (hsame'.mono fun p hp => ?_)
    · rcases mem_append.1 hp with hp | hp
      · exact mem_append_left _ (h'.appended.grows.pages hp)
      · exact mem_append_right _ (mem_append_left _ hp)
    · rcases mem_append.1 hp with hp | hp
      · exact mem_append_left _ hp
      · exact mem_append_right _ (mem_append_right _ hp)

theorem allocLoop_succ {cpu zeroing target num : ℕ} {type : AllocType} {s₁ s₂ : AllocState}
    (htake : takeBlock sb cpu zeroing type s = (target, s₁))
    (henter : enterBlock sb cpu target s₁ = (0, s₂)) :
    allocLoop sb cpu zeroing type (num + 1) s = allocLoop sb cpu zeroing type num s₂ := by
  simp only [allocLoop, htake, henter, ne_eq, not_true_eq_false, if_false]

/-- The blocks behind the first. -/
theorem addrOk_next {v b num : ℕ} (h : ∀ i < num + 1, AddrOk v (b + i)) :
    ∀ i < num, AddrOk v (b + 1 + i) := by
  intro i hi
  have := h (i + 1) (by omega)
  rwa [show b + (i + 1) = b + 1 + i by omega] at this

/-! ## Pages of the region -/

/-- The memory once `rdfs_alloc_blocks` has cleared a page, or not. -/
def clearBlock (zeroing : ℕ) (m : Mem) (p : ℕ) : Mem := if zeroing = 0 then m.fill 4096 p 0 else m

theorem sameOff_clearBlock (zeroing : ℕ) (m : Mem) (p : ℕ) :
    Mem.SameOff m (clearBlock zeroing m p) 4096 p := by
  unfold clearBlock
  split_ifs
  · exact Mem.sameOff_fill m 4096 p 0
  · exact fun _ _ => rfl

theorem takeBlock_page (sb : Super) (cpu zeroing : ℕ) (s : AllocState) :
    takeBlock sb cpu zeroing .page s = (s.phys, { s with
      phys := s.master.nvm.mem.load 8 s.phys
      master := { s.master with
        nvm := { s.master.nvm with mem := clearBlock zeroing s.master.nvm.mem s.phys } } }) := by
  simp only [takeBlock, rdfsPa_rdfsVa, deref_rdfsVa]
  rfl

/-- One round with a page of the region. -/
theorem FileRep.pageRound (zeroing : ℕ) (hn : getCpuNuma sb cpu = n) {t : Tree}
    (h : FileRep R s.master.nvm s.inode.iIno t own) (hlen : t.ents.length = s.inode.iBlocks)
    (hphys : s.phys ∈ own) (haddr : AddrOk s.inode.iVirtAddr s.inode.iBlocks)
    (hroom : tableSize (s.inode.iBlocks + 1) ≤
      (s.master.nvm.numaDes n).freePageCount + tableSize s.inode.iBlocks) :
    ∃ t' s', (∀ num, allocLoop sb cpu zeroing .page (num + 1) s =
        allocLoop sb cpu zeroing .page num s') ∧
      s'.phys = s.master.nvm.mem.load 8 s.phys ∧ FileRep R s'.master.nvm s.inode.iIno t' own ∧
      Rounds R s s' t t' [s.phys] [s.phys] ∧ s'.obtained = s.obtained ∧
      s'.master = { s.master with nvm := s'.master.nvm, kernel := s'.master.kernel } ∧
      (s'.master.nvm.numaDes n).freePageCount + tableSize (s.inode.iBlocks + 1) =
        (s.master.nvm.numaDes n).freePageCount + tableSize s.inode.iBlocks := by
  have hpage : R.pages.IsPage s.phys := h.owned.isPage (mem_append_right _ hphys)
  have htake := takeBlock_page sb cpu zeroing s
  have hclear := sameOff_clearBlock zeroing s.master.nvm.mem s.phys
  generalize clearBlock zeroing s.master.nvm.mem s.phys = m₁ at htake hclear
  have hrep₁ : FileRep R { s.master.nvm with mem := m₁ } s.inode.iIno t own := by
    refine h.congr (fun _ => ⟨rfl, rfl⟩) (fun p hp hpn => hclear.sameOn ?_) (hclear.sameOn ?_)
    · exact hp.disjoint hpage fun heq => hpn (heq ▸ hphys)
    · have := R.isSlot_disjoint_page h.isSlot hpage
      omega
  obtain ⟨t', nvm', k', henter, hrep', happ, htook, hsame⟩ := FileRep.enterBlock (s := { s with
    phys := s.master.nvm.mem.load 8 s.phys
    master := { s.master with nvm := { s.master.nvm with mem := m₁ } } }) hrep₁ hlen haddr
    (blockEntry_and hpage).2.2 hn hroom
  have hcount := htook.count n
  rw [if_pos rfl] at hcount
  have hmono : tableSize s.inode.iBlocks ≤ tableSize (s.inode.iBlocks + 1) :=
    tableSize_mono (Nat.le_succ _)
  refine ⟨t', _, fun num => allocLoop_succ htake henter, rfl, hrep',
    ⟨⟨s.inode.bitmaps, rfl⟩, happ, ?_, htook.sameInodes⟩, rfl, rfl, ?_⟩
  · have hfirst := (SameOffPages.of_sameOff hclear le_rfl le_rfl).stored
      (getRdfsInodePhyAddr sb s.inode.iIno)
    exact (hfirst.mono (by simp)).trans (hsame.mono (subset_append_left _ _))
  · simp only at hcount ⊢
    omega

/-- The rounds that enter pages `rdfs_new_block` has taken off the free list, which are linked to
each other as they were there. -/
theorem FileRep.allocLoop_page (zeroing num : ℕ) (hn : getCpuNuma sb cpu = n) {t : Tree}
    {ps : List ℕ} (h : FileRep R s.master.nvm s.inode.iIno t own)
    (hlen : t.ents.length = s.inode.iBlocks) (hps : chain s.master.nvm.mem 0 s.phys num = ps)
    (hnodup : ps.Nodup) (hsub : ps ⊆ own)
    (haddr : ∀ i < num, AddrOk s.inode.iVirtAddr (s.inode.iBlocks + i))
    (hroom : tableSize (s.inode.iBlocks + num) ≤
      (s.master.nvm.numaDes n).freePageCount + tableSize s.inode.iBlocks) :
    ∃ t' s', allocLoop sb cpu zeroing .page num s = (0, s') ∧
      FileRep R s'.master.nvm s.inode.iIno t' own ∧ Rounds R s s' t t' ps ps ∧
      s'.obtained = s.obtained ∧
      s'.master = { s.master with nvm := s'.master.nvm, kernel := s'.master.kernel } := by
  induction num generalizing s t ps with
  | zero =>
    subst hps
    exact ⟨t, s, rfl, h, Rounds.refl s t, rfl, rfl⟩
  | succ num ih =>
    obtain ⟨ps', rfl, hps'⟩ : ∃ ps', ps = s.phys :: ps' ∧
        chain s.master.nvm.mem 0 (s.master.nvm.mem.load 8 s.phys) num = ps' := ⟨_, hps.symm, rfl⟩
    obtain ⟨hnot, hnodup'⟩ := nodup_cons.1 hnodup
    obtain ⟨hphys, hsub'⟩ := cons_subset.1 hsub
    obtain ⟨t₁, s₁, hround, hphys₁, hrep₁, hr₁, hobt₁, hm₁, hcount⟩ :=
      h.pageRound zeroing hn hlen hphys (haddr 0 (Nat.succ_pos num))
        (le_trans (tableSize_mono (by omega)) hroom)
    obtain ⟨b, hinode⟩ := hr₁.inode
    have hlinks : chain s₁.master.nvm.mem 0 s₁.phys num = ps' := by
      rw [hphys₁, ← hps']
      refine chain_congr fun p hp => ?_
      rw [hps'] at hp
      have hpage := h.owned.isPage (mem_append_right _ (hsub' hp))
      have hslot := R.isSlot_disjoint_page h.isSlot hpage
      refine (hr₁.same.sameBut blockStores_inSlot).sameOn (by omega) fun q hq => ?_
      have hapart : q + 4096 ≤ p ∨ p + 4096 ≤ q := by
        rcases mem_append.1 hq with hq | hq
        · exact hrep₁.owned.disjoint_append hq (hsub' hp)
        · obtain rfl := mem_singleton.1 hq
          refine (h.owned.isPage (mem_append_right _ hphys)).disjoint hpage fun heq => hnot ?_
          rwa [heq]
      omega
    obtain ⟨t', s', hloop, hrep', hr', hobt', hm'⟩ := ih (s := s₁) (t := t₁)
      (by rwa [hinode]) (by rw [hr₁.appended.ents, hinode]; simp [hlen]) hlinks hnodup' hsub'
      (by rw [hinode]; exact addrOk_next haddr)
      (by
        rw [hinode]
        simp only [length_singleton]
        rw [show s.inode.iBlocks + 1 + num = s.inode.iBlocks + (num + 1) by omega, hcount]
        exact hroom)
    refine ⟨t', s', (hround num).trans hloop, ?_, hr₁.trans hr', hobt'.trans hobt₁, ?_⟩
    · rwa [hinode] at hrep'
    · rw [hm', hm₁]

/-! ## Blocks of slaves -/

/-- The pte cursor is in the page it points to, or at the end of it. -/
def CursorIn (g : Master) (own : List ℕ) : Prop :=
  g.pteCnt ≤ 512 ∧ (g.pteCnt < 512 → g.ptePhyAddr ∈ own)

/-- `rdfs_new_page_pte` : the cursor stays in its page, or moves to a new page if it is at the
end, and the pte value of the block goes to its place. -/
theorem Owned.newPagePte (h : Owned R.pages g.nvm own) (hcur : CursorIn g own) (cpu : ℕ) {ni : ℕ}
    (hn : rdfsGetNumaByInode sb ni = n)
    (hroom : g.pteCnt = 512 → 0 < (g.nvm.numaDes n).freePageCount) {ri : BitmapInfo}
    {b : ℕ × ℕ × BitmapInfo × SlaveInfos} (hb : allocBlock g.slaves ri = b) :
    ∃ new p c nvm', rdfsNewPagePte sb cpu g ri ni = (0, ⟨p, b.2.1, b.1⟩, b.2.2.1,
        ⟨⟨g.nvm.mem.store 8 (p + 8 * c) (pteValue b.2.1 b.1), nvm'.numaDes⟩, g.kernel, c + 1, p,
          b.2.2.2⟩) ∧
      Owned R.pages nvm' (new ++ own) ∧ nvm'.mem = g.nvm.mem ∧ p ∈ new ++ own ∧ c < 512 ∧
      Took n new.length g.nvm nvm' ∧ ((g.pteCnt = 512 ∧ new = [p] ∧ c = 0) ∨
        (g.pteCnt < 512 ∧ new = [] ∧ p = g.ptePhyAddr ∧ c = g.pteCnt)) := by
  subst hb
  rcases Nat.lt_or_eq_of_le hcur.1 with hlt | heq
  · refine ⟨[], g.ptePhyAddr, g.pteCnt, g.nvm, ?_, h, rfl, hcur.2 hlt, hlt, Took.refl n _,
      Or.inr ⟨hlt, rfl, rfl, rfl⟩⟩
    have hne : g.pteCnt ≠ pagePteNums := hlt.ne
    simp only [rdfsNewPagePte, if_neg hne, rdfsPa_rdfsVa, Nat.mul_comm g.pteCnt]
  · obtain ⟨nvm', hr, hown, hm, htook⟩ := h.newBlock cpu 1 (some ni)
      g.ptePhyAddr hn (hroom heq) (by decide)
    refine ⟨[_], (g.nvm.numaDes n).freePagePhy, 0, nvm', ?_, hown, hm, by simp, by decide, htook,
      Or.inl ⟨heq, rfl, rfl⟩⟩
    have hr' : rdfsNewBlock sb cpu g.nvm g.ptePhyAddr 1 (some ni) =
      (0, (g.nvm.numaDes n).freePagePhy, nvm') := hr
    have heq' : g.pteCnt = pagePteNums := heq
    simp only [rdfsNewPagePte, if_pos heq', hr', rdfsPa_rdfsVa, hm]

/-- What a round with a block of a slave does besides entering a page : it has moved the cursor
behind place `c` of the page `p`, having taken the pages `new` for it, and has written the pte
value of the block it obtained there. -/
structure PteRound (s s' : AllocState) (new : List ℕ) (p c : ℕ) : Prop where
  lt : c < 512
  ptePhyAddr : s'.master.ptePhyAddr = p
  pteCnt : s'.master.pteCnt = c + 1
  place : (s.master.pteCnt = 512 ∧ new = [p] ∧ c = 0) ∨
    (s.master.pteCnt < 512 ∧ new = [] ∧ p = s.master.ptePhyAddr ∧ c = s.master.pteCnt)
  obtained : s'.obtained = s.obtained ++ [((allocBlock s.master.slaves s.inode.bitmaps).2.1,
    (allocBlock s.master.slaves s.inode.bitmaps).1)]
  bitmaps : s'.inode.bitmaps = (allocBlock s.master.slaves s.inode.bitmaps).2.2.1
  slaves : s'.master.slaves = (allocBlock s.master.slaves s.inode.bitmaps).2.2.2
  word : Mem.SameOn (s.master.nvm.mem.store 8 (p + 8 * c)
    (pteValue (allocBlock s.master.slaves s.inode.bitmaps).2.1
      (allocBlock s.master.slaves s.inode.bitmaps).1)) s'.master.nvm.mem 4096 p

/-- The nodes `n` and `i` have the pages that `num` rounds take for the table and for the
cursor. -/
def PteRoom (nvm : Nvm) (n i : Fin 2) (blocks cnt num : ℕ) : Prop :=
  ∀ j, (if j = n then tableSize (blocks + num) - tableSize blocks else 0) +
    (if j = i then (cnt + num - 1) / 512 else 0) ≤ (nvm.numaDes j).freePageCount

/-- The first part of a round with a block of a slave : the pte value of the block `b` is written
at the cursor. -/
theorem Owned.takePte (cpu zeroing : ℕ) {tab : List ℕ} (h : Owned R.pages s.master.nvm (tab ++ own))
    (hcur : CursorIn s.master own) (hi : rdfsGetNumaByInode sb (getRdfsInode sb s.inode.iIno) = i)
    (hroom : s.master.pteCnt = 512 → 0 < (s.master.nvm.numaDes i).freePageCount)
    {b : ℕ × ℕ × BitmapInfo × SlaveInfos} (hb : allocBlock s.master.slaves s.inode.bitmaps = b) :
    ∃ new p c nvm', takeBlock sb cpu zeroing .pte s = (p, { s with
        obtained := s.obtained ++ [(b.2.1, b.1)]
        inode := { s.inode with bitmaps := b.2.2.1 }
        master := ⟨nvm', s.master.kernel, c + 1, p, b.2.2.2⟩ }) ∧
      p ∈ new ++ own ∧ c < 512 ∧ Owned R.pages nvm' (tab ++ (new ++ own)) ∧
      nvm'.mem = s.master.nvm.mem.store 8 (p + 8 * c) (pteValue b.2.1 b.1) ∧
      Took i new.length s.master.nvm nvm' ∧
      ((s.master.pteCnt = 512 ∧ new = [p] ∧ c = 0) ∨
        (s.master.pteCnt < 512 ∧ new = [] ∧ p = s.master.ptePhyAddr ∧ c = s.master.pteCnt)) := by
  have hcurOwn : CursorIn s.master (tab ++ own) :=
    ⟨hcur.1, fun hlt => mem_append_right _ (hcur.2 hlt)⟩
  obtain ⟨new, p, c, nvm₁, hnew, hown, hm, hp, hc, htook, hplace⟩ :=
    h.newPagePte hcurOwn cpu hi hroom hb
  have hpOwn : p ∈ new ++ own := by
    rcases hplace with ⟨-, rfl, -⟩ | ⟨hlt, rfl, rfl, -⟩
    · simp
    · exact hcur.2 hlt
  have hpage : R.pages.IsPage p := hown.isPage hp
  generalize hm₁ : s.master.nvm.mem.store 8 (p + 8 * c) (pteValue b.2.1 b.1) = m₁
  rw [hm₁] at hnew
  have hown' : Owned R.pages nvm₁ (tab ++ (new ++ own)) :=
    hown.of_perm (by
      rw [← append_assoc, ← append_assoc]
      exact perm_append_comm.append_right _)
  refine ⟨new, p, c, ⟨m₁, nvm₁.numaDes⟩, by simp only [takeBlock, hnew], hpOwn, hc, ?_, hm₁.symm,
    htook.write m₁, hplace⟩
  refine hown'.congr (fun _ => ⟨rfl, rfl⟩) fun q hq hqn => ?_
  have hapart := hpage.disjoint hq fun heq => hqn (heq ▸ mem_append_right tab hpOwn)
  rw [hm, ← hm₁]
  exact (Mem.sameOff_store _ _ _ _).sameOn (by omega)

/-- One round with a block of a slave. -/
theorem FileRep.pteRound (zeroing : ℕ) (hn : getCpuNuma sb cpu = n) {t : Tree}
    (h : FileRep R s.master.nvm s.inode.iIno t own) (hlen : t.ents.length = s.inode.iBlocks)
    (hcur : CursorIn s.master own) (hi : rdfsGetNumaByInode sb (getRdfsInode sb s.inode.iIno) = i)
    (haddr : AddrOk s.inode.iVirtAddr s.inode.iBlocks)
    (hroom : PteRoom s.master.nvm n i s.inode.iBlocks s.master.pteCnt 1) :
    ∃ t' s' new p c, (∀ num, allocLoop sb cpu zeroing .pte (num + 1) s =
        allocLoop sb cpu zeroing .pte num s') ∧ p ∈ new ++ own ∧
      FileRep R s'.master.nvm s.inode.iIno t' (new ++ own) ∧ Rounds R s s' t t' [p] [p] ∧
      PteRound s s' new p c ∧
      ∀ j, (s'.master.nvm.numaDes j).freePageCount + (if j = i then new.length else 0) +
        (if j = n then tableSize (s.inode.iBlocks + 1) - tableSize s.inode.iBlocks else 0) =
          (s.master.nvm.numaDes j).freePageCount := by
  generalize hb : allocBlock s.master.slaves s.inode.bitmaps = b
  obtain ⟨new, p, c, nvm₁, htake, hpOwn, hc, hown₁, hm₁, htook, hplace⟩ :=
    h.owned.takePte cpu zeroing hcur hi (fun heq => by
      have := hroom i
      rw [if_pos rfl, heq] at this
      omega) hb
  have hpage : R.pages.IsPage p := hown₁.isPage (mem_append_right _ hpOwn)
  have hstore : SameOffPages s.master.nvm.mem nvm₁.mem [p] :=
    hm₁ ▸ SameOffPages.of_sameOff (Mem.sameOff_store _ _ _ _) (by omega) (by omega)
  have hrep₁ := h.of_sameOffPages hown₁ (hstore.mono (by simpa using hpOwn))
  have hcount₁ := htook.count n
  have hroom₁ : tableSize (s.inode.iBlocks + 1) ≤
      (nvm₁.numaDes n).freePageCount + tableSize s.inode.iBlocks := by
    have hr := hroom n
    rw [if_pos rfl] at hr
    have hnew' : new.length = s.master.pteCnt / 512 := by
      rcases hplace with ⟨hcnt, rfl, -⟩ | ⟨hcnt, rfl, -⟩
      · rw [hcnt]; rfl
      · rw [Nat.div_eq_of_lt hcnt]; rfl
    split_ifs at hr hcount₁ <;> omega
  obtain ⟨t', nvm', k', henter, hrep', happ, htook', hsame⟩ := FileRep.enterBlock (s := { s with
    obtained := s.obtained ++ [(b.2.1, b.1)]
    inode := { s.inode with bitmaps := b.2.2.1 }
    master := ⟨nvm₁, s.master.kernel, c + 1, p, b.2.2.2⟩ }) hrep₁ hlen haddr
    (blockEntry_and hpage).2.2 hn hroom₁
  refine ⟨t', _, new, p, c, fun num => allocLoop_succ htake henter, hpOwn, hrep',
    ⟨⟨b.2.2.1, rfl⟩, happ, ?_, ?_⟩,
    ⟨hc, rfl, rfl, hplace, by rw [hb], by rw [hb], by rw [hb], ?_⟩, fun j => ?_⟩
  · exact ((hstore.stored _).mono (subset_append_right _ _)).trans
      (hsame.mono (subset_append_left _ _))
  · exact htook.sameInodes.trans htook'.sameInodes
  · rw [hb, ← hm₁]
    have hslot := R.isSlot_disjoint_page h.isSlot hpage
    exact (hsame.sameBut blockStores_inSlot).sameOn (by omega) fun q hq =>
      hrep'.owned.disjoint_append hq hpOwn
  · have h1 := htook.count j
    have h2 := htook'.count j
    simp only at h1 h2 ⊢
    omega

theorem PteRound.cursorIn {new : List ℕ} {p c : ℕ} (h : PteRound s s' new p c)
    (hcur : CursorIn s.master metas) : p ∈ new ++ metas ∧ CursorIn s'.master (new ++ metas) := by
  have hp : p ∈ new ++ metas := by
    rcases h.place with ⟨-, rfl, -⟩ | ⟨hlt, rfl, rfl, -⟩
    · simp
    · exact hcur.2 hlt
  have hlt := h.lt
  exact ⟨hp, by rw [h.pteCnt]; omega, fun _ => h.ptePhyAddr ▸ hp⟩

/-- What is left of the room after a round. -/
theorem PteRound.room {new : List ℕ} {p c num blocks : ℕ} (h : PteRound s s' new p c)
    (hcount : ∀ j, (s'.master.nvm.numaDes j).freePageCount + (if j = i then new.length else 0) +
      (if j = n then tableSize (blocks + 1) - tableSize blocks else 0) =
        (s.master.nvm.numaDes j).freePageCount)
    (hroom : PteRoom s.master.nvm n i blocks s.master.pteCnt (num + 1)) :
    PteRoom s'.master.nvm n i (blocks + 1) s'.master.pteCnt num := by
  intro j
  have hr := hroom j
  have hc := hcount j
  rw [h.pteCnt, show blocks + 1 + num = blocks + (num + 1) by omega]
  have h1 : tableSize blocks ≤ tableSize (blocks + 1) := tableSize_mono (by omega)
  have h2 : tableSize (blocks + 1) ≤ tableSize (blocks + (num + 1)) := tableSize_mono (by omega)
  have hnew : (s.master.pteCnt + (num + 1) - 1) / 512 = (c + 1 + num - 1) / 512 + new.length := by
    rcases h.place with ⟨hcnt, rfl, rfl⟩ | ⟨hcnt, rfl, -, rfl⟩
    · rw [hcnt, length_singleton]
      omega
    · rw [length_nil]
      omega
  rw [hnew] at hr
  split_ifs at hr hc ⊢ <;> omega

theorem PteRoom.one {nvm : Nvm} {blocks cnt num : ℕ} (h : PteRoom nvm n i blocks cnt (num + 1)) :
    PteRoom nvm n i blocks cnt 1 := by
  intro j
  have hr := h j
  have h1 : tableSize (blocks + 1) ≤ tableSize (blocks + (num + 1)) := tableSize_mono (by omega)
  split_ifs at hr ⊢ <;> omega

/-- The rounds that enter blocks of slaves : every page entered is one of the cursor. -/
theorem FileRep.allocLoop_pte (zeroing num : ℕ) (hn : getCpuNuma sb cpu = n) {t : Tree}
    (h : FileRep R s.master.nvm s.inode.iIno t own) (hlen : t.ents.length = s.inode.iBlocks)
    (hcur : CursorIn s.master metas) (hmetas : metas ⊆ own)
    (hi : rdfsGetNumaByInode sb (getRdfsInode sb s.inode.iIno) = i)
    (haddr : ∀ i < num, AddrOk s.inode.iVirtAddr (s.inode.iBlocks + i))
    (hroom : PteRoom s.master.nvm n i s.inode.iBlocks s.master.pteCnt num) :
    ∃ t' s' new es, allocLoop sb cpu zeroing .pte num s = (0, s') ∧ es.length = num ∧
      FileRep R s'.master.nvm s.inode.iIno t' (new ++ own) ∧ Rounds R s s' t t' es es ∧
      es ⊆ new ++ metas ∧ new ⊆ es ∧ CursorIn s'.master (new ++ metas) := by
  induction num generalizing s t own metas with
  | zero => exact ⟨t, s, [], [], rfl, rfl, h, Rounds.refl s t, by simp, by simp, hcur⟩
  | succ num ih =>
    obtain ⟨t₁, s₁, new, p, c, hround, -, hrep₁, hr₁, hpte, hcount⟩ := h.pteRound
      zeroing hn hlen ⟨hcur.1, fun hlt => hmetas (hcur.2 hlt)⟩ hi
      (haddr 0 (Nat.succ_pos num)) hroom.one
    obtain ⟨hp, hcur₁⟩ := hpte.cursorIn hcur
    have hroom₁ := hpte.room hcount hroom
    obtain ⟨b, hinode⟩ := hr₁.inode
    have hlen₁ : t₁.ents.length = s₁.inode.iBlocks := by
      rw [hr₁.appended.ents, hinode]
      simp [hlen]
    have hnew : new ⊆ [p] := by
      rcases hpte.place with ⟨-, rfl, -⟩ | ⟨-, rfl, -⟩ <;> simp
    obtain ⟨t', s', new', es, hloop, hes, hrep', hr', hsub', hnew', hcur'⟩ := ih (s := s₁) (t := t₁)
      (by rwa [hinode]) hlen₁ hcur₁ (append_subset.2
        ⟨subset_append_left _ _, Subset.trans hmetas (subset_append_right _ _)⟩)
      (by rwa [hinode]) (by rw [hinode]; exact addrOk_next haddr) (by rw [hinode]; exact hroom₁)
    refine ⟨t', s', new' ++ new, p :: es, (hround num).trans hloop, by simp [hes], ?_,
      hr₁.trans hr', ?_, append_subset.2 ⟨subset_cons_of_subset _ hnew',
        fun q hq => mem_append_left es (hnew hq)⟩, ?_⟩
    · rw [hinode] at hrep'
      rwa [append_assoc]
    · rw [append_assoc]
      exact cons_subset.2 ⟨mem_append_right _ hp, hsub'⟩
    · rwa [append_assoc]

/-! ## `rdfs_alloc_blocks` -/

theorem FileState.of_perm {t : Option Tree} {own' : List ℕ} (h : FileState R st ino t own)
    (hp : own.Perm own') : FileState R st ino t own' :=
  ⟨h.isSlot, h.owned.of_perm (hp.append_left _), h.rep, h.pgAddr⟩

/-- The blocks of an inode. -/
def fileEnts (t : Option Tree) : List ℕ := t.elim [] Tree.ents

/-- How many pages the table of an inode has. -/
def heldSize (t : Option Tree) : ℕ := t.elim 0 fun t => tableSize t.ents.length

theorem heldSize_le {t : Option Tree} {blocks : ℕ} (hlen : (fileEnts t).length = blocks) :
    heldSize t ≤ tableSize blocks := by
  cases t with
  | none => exact Nat.zero_le _
  | some t => exact le_of_eq (congrArg tableSize hlen)

/-- The stores of `ensureTable` to a slot, if the page `head` is the next free one. -/
def tableStores (head : ℕ) (t : Option Tree) : List (InodeField × ℕ) :=
  t.elim [(.iPgAddr, head)] fun _ => []

theorem tableStores_inSlot {head : ℕ} {t : Option Tree} :
    ∀ w ∈ tableStores head t, w.1 ≠ .iColdPageStart ∧ w.1 ≠ .iColdPageNum := by
  cases t <;> simp [tableStores]

/-- Before the first block an inode without a table gets one. -/
theorem FileState.ensureTable {t : Option Tree} (h : FileState R g.nvm inode.iIno t own)
    (hn : getCpuNuma sb cpu = n) (hroom : 3 ≤ (g.nvm.numaDes n).freePageCount + heldSize t) :
    ∃ t' nvm' k', ensureTable sb cpu g inode = { g with nvm := nvm', kernel := k' } ∧
      FileRep R nvm' inode.iIno t' own ∧ t'.ents = fileEnts t ∧
      Took n (tableSize t'.ents.length - heldSize t) g.nvm nvm' ∧
      Stored g.nvm.mem nvm'.mem (getRdfsInodePhyAddr sb inode.iIno)
        (tableStores (g.nvm.numaDes n).freePagePhy t) t'.pages ∧
      (∀ t₀ ∈ t, t' = t₀ ∧ nvm' = g.nvm ∧ k' = g.kernel) ∧
      (t = none → k' = (nvmap sb nvm'.mem g.kernel inode.iVirtAddr (rdfsVa sb t'.pud)).2) := by
  cases t with
  | some t =>
    have hne : inodeStruct.getField g.nvm.mem (getRdfsInodePhyAddr sb inode.iIno) .iPgAddr ≠ 0 := by
      rw [h.pgAddr]
      exact fun h0 => R.not_isPage_zero (h0 ▸ h.owned.isPage (by simp [Tree.pages]))
    refine ⟨t, g.nvm, g.kernel, by rw [Rdfs.ensureTable, if_neg hne], h.fileRep, rfl, ?_,
      fun _ _ => rfl, ?_, fun h0 => by cases h0⟩
    · rw [show tableSize t.ents.length - heldSize (some t) = 0 from Nat.sub_self _]
      exact Took.refl n g.nvm
    · rintro t₀ ht₀
      exact ⟨some_inj.1 ht₀, rfl, rfl⟩
  | none =>
    obtain ⟨t', nvm', hr, hents, hrep, hown, hpg, htook, hsame⟩ :=
      Owned.initPgTable (show Owned R.pages _ own from h.owned) rfl h.isSlot hn hroom
    have hpud : t'.pud ≠ 0 := fun h0 =>
      R.not_isPage_zero (h0 ▸ hown.isPage (by simp [Tree.pages]))
    have hget : rdfsGetPud sb nvm'.mem inode.iIno = rdfsVa sb t'.pud := by
      rw [rdfsGetPud, hpg, if_neg hpud]
    refine ⟨t', nvm', _, ?_, ⟨h.isSlot, hown, hrep, hpg⟩, hents, ?_, hsame, by simp, fun _ => rfl⟩
    · simp only [Rdfs.ensureTable, h.pgAddr, elim_none, if_true, hr, hget]
    · rw [hents]
      exact htook

/-- The table, with room for `num` blocks and for `extra` pages besides it. -/
theorem FileState.ensureRoom {t : Option Tree} (h : FileState R g.nvm inode.iIno t own)
    (hlen : (fileEnts t).length = inode.iBlocks) {cpu num : ℕ} (hn : getCpuNuma sb cpu = n)
    {extra : Fin 2 → ℕ}
    (hroom : ∀ j, (if j = n then tableSize (inode.iBlocks + num) - heldSize t else 0) +
      extra j ≤ (g.nvm.numaDes j).freePageCount) :
    ∃ t' nvm' k', Rdfs.ensureTable sb cpu g inode = { g with nvm := nvm', kernel := k' } ∧
      FileRep R nvm' inode.iIno t' own ∧ t'.ents = fileEnts t ∧ SameInodes g.nvm nvm' ∧
      (∀ j, (if j = n then tableSize (inode.iBlocks + num) - tableSize inode.iBlocks else 0) +
        extra j ≤ (nvm'.numaDes j).freePageCount) ∧
      Stored g.nvm.mem nvm'.mem (getRdfsInodePhyAddr sb inode.iIno)
        (tableStores (g.nvm.numaDes n).freePagePhy t) t'.pages ∧
      (∀ t₀ ∈ t, t' = t₀ ∧ nvm' = g.nvm ∧ k' = g.kernel) ∧
      (t = none → k' = (nvmap sb nvm'.mem g.kernel inode.iVirtAddr (rdfsVa sb t'.pud)).2) := by
  have h3 : 3 ≤ tableSize (inode.iBlocks + num) := by unfold tableSize; omega
  have hroomn := hroom n
  rw [if_pos rfl] at hroomn
  obtain ⟨t', nvm', k', hens, hrep, hents, htook, hsame, hsome, hnone⟩ :=
    h.ensureTable hn (by omega)
  rw [hents, hlen] at htook
  have hheld := heldSize_le hlen
  have hmono : tableSize inode.iBlocks ≤ tableSize (inode.iBlocks + num) :=
    tableSize_mono (by omega)
  refine ⟨t', nvm', k', hens, hrep, hents, htook.sameInodes, fun j => ?_, hsame, hsome, hnone⟩
  have h1 := htook.count j
  have h2 := hroom j
  split_ifs at h1 h2 ⊢ <;> omega

/-- What a call that succeeds has done to the inode, to its table and to the entries of the
kernel for its area : the blocks `es` are behind the old ones, and besides the stores to the slot
only the table and the pages `written` have been written to. -/
structure Grown (sb : Super) (n : Fin 2) (g g' : Master) (inode inode' : Inode) (t : Option Tree)
    (t' : Tree) (es written : List ℕ) : Prop where
  inode_eq : ∃ bitmaps, inode' =
    { inode with iBlocks := inode.iBlocks + es.length, bitmaps := bitmaps }
  ents : t'.ents = fileEnts t ++ es
  same : Stored g.nvm.mem g'.nvm.mem (getRdfsInodePhyAddr sb inode.iIno)
    (tableStores (g.nvm.numaDes n).freePagePhy t ++ blockStores inode.iBlocks es.length)
    (t'.pages ++ written)
  sameInodes : SameInodes g.nvm g'.nvm
  onlyArea : OnlyArea g.kernel g'.kernel inode.iVirtAddr
  holds : AreaHolds g.kernel inode.iVirtAddr t → AreaHolds g'.kernel inode.iVirtAddr (some t')

theorem Grown.sameBut {g' : Master} {inode' : Inode} {t : Option Tree} {written : List ℕ}
    (h : Grown sb n g g' inode inode' t t' es written) :
    SameBut g.nvm.mem g'.nvm.mem (getRdfsInodePhyAddr sb inode.iIno) (t'.pages ++ written) :=
  h.same.sameBut fun w hw => (mem_append.1 hw).elim (tableStores_inSlot w) (blockStores_inSlot w)

/-- The entries of the kernel after `ensureTable`. -/
theorem FileState.ensured {t : Option Tree} {nvm' : Nvm} (hrep : FileRep R nvm' inode.iIno t' own)
    (hlen : t'.pmds.length ≤ 32)
    (hv : inode.iVirtAddr = 0 ∨ inode.iVirtAddr ∈ dirAreas ∨ inode.iVirtAddr ∈ regAreas)
    (hsome : ∀ t₀ ∈ t, t' = t₀ ∧ nvm' = g.nvm ∧ k' = g.kernel)
    (hnone : t = none → k' = (nvmap sb nvm'.mem g.kernel inode.iVirtAddr (rdfsVa sb t'.pud)).2) :
    OnlyArea g.kernel k' inode.iVirtAddr ∧
      (AreaHolds g.kernel inode.iVirtAddr t → AreaHolds k' inode.iVirtAddr (some t')) := by
  cases t with
  | some t =>
    obtain ⟨rfl, -, rfl⟩ := hsome t rfl
    exact ⟨OnlyArea.refl _ _, id⟩
  | none =>
    rw [hnone rfl]
    rcases hv with hv | hv
    · rw [hv, nvmap, if_pos (Or.inl rfl)]
      exact ⟨OnlyArea.refl _ _, fun _ => areaHolds_zero _ _⟩
    · obtain ⟨k₁, hk₁, hmap, honly, hrest⟩ := nvmap_tree (R := R) hv hrep.rep
        (fun p hp => hrep.owned.isPage (mem_append_left _ hp)) hlen g.kernel
      rw [hk₁]
      exact ⟨honly, fun h => hmap.areaHolds h (by simp) hrest⟩

/-- The table, and then the rounds. -/
theorem Rounds.grown {t : Option Tree} {t₁ : Tree} {own' written : List ℕ} {nvm₁ : Nvm}
    (hr : Rounds R s s' t₁ t' es written) (hrep₁ : FileRep R nvm₁ s.inode.iIno t₁ own)
    (hrep' : FileRep R s'.master.nvm s.inode.iIno t' own') (hents₁ : t₁.ents = fileEnts t)
    (hsame₁ : Stored g.nvm.mem nvm₁.mem (getRdfsInodePhyAddr sb s.inode.iIno)
      (tableStores (g.nvm.numaDes n).freePagePhy t) t₁.pages) (hm : s.master.nvm.mem = nvm₁.mem)
    (hinodes : SameInodes g.nvm s.master.nvm) (hplaced : Placed s.inode.iVirtAddr t'.ents.length)
    (hsome : ∀ t₀ ∈ t, t₁ = t₀ ∧ nvm₁ = g.nvm ∧ s.master.kernel = g.kernel)
    (hnone : t = none → s.master.kernel =
      (nvmap sb nvm₁.mem g.kernel s.inode.iVirtAddr (rdfsVa sb t₁.pud)).2) :
    Grown sb n g s'.master s.inode s'.inode t t' es written := by
  have hlen := hrep'.rep.length_pmds
  have hle := hplaced.le
  have hle₁ := hr.appended.grows.pmds.length_le
  have hpos : 0 < t₁.pmds.length := by rw [hrep₁.rep.length_pmds]; omega
  have hptes : t₁.ptes ≠ [] := ne_nil_of_length_pos (by rw [hrep₁.rep.length_ptes]; omega)
  obtain ⟨honly, hholds⟩ := FileState.ensured (g := g) hrep₁ (by omega) hplaced.area hsome hnone
  refine ⟨hr.inode, by rw [hr.appended.ents, hents₁], ?_, hinodes.trans hr.sameInodes, ?_,
    fun h => hr.appended.holds hptes (hholds h)⟩
  · have hsame := hr.same
    rw [hm] at hsame
    exact (hsame₁.mono fun p hp =>
      mem_append_left _ (hr.appended.grows.pages hp)).trans hsame
  · exact honly.trans (hr.appended.onlyArea hrep'.rep hpos hplaced)

/-- `rdfs_alloc_blocks` with pages of the region : the new blocks are free pages of the node of
the inode, and the new pages of the table are of the node of the processor. -/
theorem FileState.allocBlocks_page {t : Option Tree} (h : FileState R g.nvm inode.iIno t own)
    (hlen : (fileEnts t).length = inode.iBlocks) {cpu num : ℕ} (hn : getCpuNuma sb cpu = n)
    (hi : rdfsGetNumaByInode sb (getRdfsInode sb inode.iIno) = i)
    (hplaced : Placed inode.iVirtAddr (inode.iBlocks + num)) (hnum : num < 2 ^ 31)
    (hroom : ∀ j, (if j = n then tableSize (inode.iBlocks + num) - heldSize t else 0) +
      (if j = i then num else 0) ≤ (g.nvm.numaDes j).freePageCount) (zeroing phys : ℕ) :
    ∃ t' s' es, rdfsAllocBlocks sb cpu g inode num zeroing .page phys = (0, s') ∧
      es.length = num ∧ FileRep R s'.master.nvm inode.iIno t' (es ++ own) ∧
      Grown sb n g s'.master inode s'.inode t t' es es ∧ s'.obtained = [] ∧
      s'.master = { g with nvm := s'.master.nvm, kernel := s'.master.kernel } := by
  obtain ⟨t₁, nvm₁, k₁, hens, hrep₁, hents₁, hinodes₁, hroom₁, hsame₁, hsome, hnone⟩ :=
    h.ensureRoom hlen hn hroom
  have hlen₁ : t₁.ents.length = inode.iBlocks := by rw [hents₁, hlen]
  have hnew : num ≤ (nvm₁.numaDes i).freePageCount := by
    have h1 := hroom₁ i
    rw [if_pos rfl] at h1
    omega
  obtain ⟨nvm₂, hr₂, hown₂, hm₂, htook₂⟩ := hrep₁.owned.newBlock cpu num
    (some (getRdfsInode sb inode.iIno)) phys hi hnew hnum
  set ps := pagesFrom nvm₁ (nvm₁.numaDes i).freePagePhy num with hps
  have hstart : allocStart sb cpu (Rdfs.ensureTable sb cpu g inode) inode num .page phys =
      ⟨(nvm₁.numaDes i).freePagePhy, [], inode, { g with nvm := nvm₂, kernel := k₁ }⟩ := by
    simp only [allocStart, hens, hr₂]
  have hrep₂ : FileRep R nvm₂ inode.iIno t₁ (ps ++ own) := by
    refine ⟨h.isSlot, hown₂.of_perm ?_, hm₂ ▸ hrep₁.rep, hm₂ ▸ hrep₁.pgAddr⟩
    rw [← append_assoc, ← append_assoc]
    exact perm_append_comm.append_right _
  have hnodup : ps.Nodup := (nodup_append.1 hown₂.nodup).1
  obtain ⟨t', s', hloop, hrep', hrounds, hobt, hmaster⟩ := FileRep.allocLoop_page zeroing num hn
    (s := ⟨(nvm₁.numaDes i).freePagePhy, [], inode, { g with nvm := nvm₂, kernel := k₁ }⟩) hrep₂
    hlen₁ (hm₂ ▸ rfl) hnodup (subset_append_left _ _)
    (fun j hj => hplaced.addrOk (show inode.iBlocks + j < inode.iBlocks + num by omega)) (by
      have h1 := hroom₁ n
      have h2 := htook₂.count n
      simp only [if_true] at h1 h2 ⊢
      split_ifs at h1 h2 <;> omega)
  have hpslen : ps.length = num := length_chain _ _ _ _
  have hents' : t'.ents.length = inode.iBlocks + num := by
    rw [hrounds.appended.ents, length_append, hlen₁, hpslen]
  refine ⟨t', s', ps, by rw [rdfsAllocBlocks, hstart]; exact hloop, hpslen, hrep',
    hrounds.grown hrep₁ hrep' hents₁ hsame₁ hm₂ (hinodes₁.trans htook₂.sameInodes)
      (hents' ▸ hplaced) hsome hnone, hobt, hmaster⟩

/-- `rdfs_alloc_blocks` with blocks of slaves : the pages entered are pages of the cursor, the
old ones or new ones of the node of the inode. -/
theorem FileState.allocBlocks_pte {t : Option Tree} (h : FileState R g.nvm inode.iIno t own)
    (hlen : (fileEnts t).length = inode.iBlocks) (hcur : CursorIn g metas) (hmetas : metas ⊆ own)
    (num : ℕ) (hn : getCpuNuma sb cpu = n)
    (hi : rdfsGetNumaByInode sb (getRdfsInode sb inode.iIno) = i)
    (hplaced : Placed inode.iVirtAddr (inode.iBlocks + num))
    (hroom : ∀ j, (if j = n then tableSize (inode.iBlocks + num) - heldSize t else 0) +
      (if j = i then (g.pteCnt + num - 1) / 512 else 0) ≤ (g.nvm.numaDes j).freePageCount)
    (zeroing phys : ℕ) :
    ∃ t' s' new es, rdfsAllocBlocks sb cpu g inode num zeroing .pte phys = (0, s') ∧
      es.length = num ∧ FileRep R s'.master.nvm inode.iIno t' (new ++ own) ∧
      Grown sb n g s'.master inode s'.inode t t' es es ∧ es ⊆ new ++ metas ∧ new ⊆ es ∧
      CursorIn s'.master (new ++ metas) := by
  obtain ⟨t₁, nvm₁, k₁, hens, hrep₁, hents₁, hinodes₁, hroom₁, hsame₁, hsome, hnone⟩ :=
    h.ensureRoom hlen hn hroom
  have hlen₁ : t₁.ents.length = inode.iBlocks := by rw [hents₁, hlen]
  have hstart : allocStart sb cpu (Rdfs.ensureTable sb cpu g inode) inode num .pte phys =
      ⟨phys, [], inode, { g with nvm := nvm₁, kernel := k₁ }⟩ := by
    simp only [allocStart, hens]
  obtain ⟨t', s', new, es, hloop, hes, hrep', hrounds, hsub, hnew, hcur'⟩ := FileRep.allocLoop_pte
    zeroing num hn
    (s := ⟨phys, [], inode, { g with nvm := nvm₁, kernel := k₁ }⟩) hrep₁ hlen₁ hcur hmetas hi
    (fun j hj => hplaced.addrOk (show inode.iBlocks + j < inode.iBlocks + num by omega)) hroom₁
  have hents' : t'.ents.length = inode.iBlocks + num := by
    rw [hrounds.appended.ents, length_append, hlen₁, hes]
  refine ⟨t', s', new, es, by rw [rdfsAllocBlocks, hstart]; exact hloop, hes, hrep',
    hrounds.grown hrep₁ hrep' hents₁ hsame₁ rfl hinodes₁ (hents' ▸ hplaced) hsome hnone,
    hsub, hnew, hcur'⟩

end Rdfs
