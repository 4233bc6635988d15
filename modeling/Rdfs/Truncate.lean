import Rdfs.Lookups

/-!
# Truncating a file

`rdfs_setsize` clears the rest of the block the new size falls in, and lets
`__rdfs_truncate_blocks` release the blocks behind it. The clearing goes through the virtual area
of the file, to its page 0, which for a regular file is not the last block but the page of its
first 512 pte values. The releasing removes the table as a whole, or nothing.

`KeepsBlocks` is what the caller expects : the blocks below the new size are found as before,
they are all the file has, and only other blocks are released. `CutsNothing` is when the code
does that, for every open regular file (`rdfsSetsize_keepsBlocks_iff`) : the size goes to zero,
or the last block stays the last and the clearing misses the pte values in use.
-/

namespace Rdfs

open List Option

/-! ## The code -/

/-- `RDFS_EOFBLOCKS_FL`. -/
def rdfsEofblocksFl : ℕ := 0x20000000

/-- The stored `i_flags` say that there are blocks behind the end of the file. -/
def EofBlocks (sb : Super) (m : Mem) (ino : ℕ) : Prop :=
  inodeStruct.getField m (getRdfsInodePhyAddr sb ino) .iFlags &&& rdfsEofblocksFl ≠ 0

instance (sb : Super) (m : Mem) (ino : ℕ) : Decidable (EofBlocks sb m ino) :=
  inferInstanceAs (Decidable (_ ≠ _))

/-- `last_blocknr` of `__rdfs_truncate_blocks`. -/
def lastBlocknr (sb : Super) (m : Mem) (ino stop : ℕ) : ℕ :=
  if EofBlocks sb m ino then 2 ^ 18 - 1 else stop >>> 12

/-- `__rdfs_truncate_blocks`. -/
def rawRdfsTruncateBlocks (sb : Super) (g : Master) (inode : Inode) (start stop : ℕ) :
    Inode × Master :=
  let m := g.nvm.mem
  let pud := rdfsGetPud sb m inode.iIno
  if inodeStruct.getField m (getRdfsInodePhyAddr sb inode.iIno) .iPgAddr = 0 then (inode, g)
  else
    let firstBlocknr := (start + 4096 - 1) >>> 12
    if lastBlocknr sb m inode.iIno stop < firstBlocknr then (inode, g)
    else ({ inode with iBlocks := 0 }, { g with
      nvm := rdfsRmPgTable sb g.nvm inode.iIno
      kernel := (unnvmap sb m g.kernel inode.iVirtAddr pud).2 })

/-- `rdfs_truncate_blocks` at time `now`. -/
def rdfsTruncateBlocks (sb : Super) (g : Master) (inode : Inode) (start stop now : ℕ) :
    Inode × Master :=
  if SIsReg inode.iMode ∨ SIsDir inode.iMode ∨ SIsLnk inode.iMode then
    let r := rawRdfsTruncateBlocks sb g inode start stop
    let inode := { r.1 with iMtime := now, iCtime := now }
    (inode, { r.2 with nvm := { r.2.nvm with mem := rdfsUpdateInode sb r.2.nvm.mem inode } })
  else (inode, g)

/-- `rdfs_block_truncate_page`, `none` for a page fault. Areas begin at a page boundary, so what
is cleared lies in one page. -/
def rdfsBlockTruncatePage (g : Master) (inode : Inode) (newsize : ℕ) : Option (ℤ × Mem) :=
  let offset := newsize % 4096
  if offset = 0 ∨ inode.iSize < newsize then some (0, g.nvm.mem)
  else if inode.iVirtAddr = 0 then some (-13, g.nvm.mem)
  else (translate g.kernel g.nvm.mem (inode.iVirtAddr + offset)).map fun bp =>
    (0, g.nvm.mem.fill (4096 - offset) bp 0)

/-- `check_eof_blocks`. -/
def checkEofBlocks (sb : Super) (m : Mem) (inode : Inode) (size : ℕ) : Mem :=
  let ni := getRdfsInodePhyAddr sb inode.iIno
  if EofBlocks sb m inode.iIno ∧ inode.iBlocks <<< 12 ≤ size + 4096 then
    inodeStruct.putField m ni .iFlags
      (inodeStruct.getField m ni .iFlags &&& (0xffffffff - rdfsEofblocksFl))
  else m

/-- `IS_APPEND` or `IS_IMMUTABLE`. -/
def Inode.Protected (inode : Inode) : Prop :=
  inode.vfsFlags &&& 0x4 ≠ 0 ∨ inode.vfsFlags &&& 0x8 ≠ 0

instance (inode : Inode) : Decidable inode.Protected := inferInstanceAs (Decidable (_ ∨ _))

/-- The rest of `rdfs_setsize`, once the block of the new size is cleared. -/
def cutBlocks (sb : Super) (g : Master) (inode : Inode) (newsize now : ℕ) : Inode × Master :=
  let r := rawRdfsTruncateBlocks sb g { inode with iSize := newsize } newsize inode.iSize
  let m := checkEofBlocks sb r.2.nvm.mem r.1 newsize
  let inode := { r.1 with iMtime := now, iCtime := now }
  (inode, { r.2 with nvm := { r.2.nvm with mem := rdfsUpdateInode sb m inode } })

/-- `rdfs_setsize` at time `now`, on a mount without XIP; `none` for a page fault. -/
def rdfsSetsize (sb : Super) (g : Master) (inode : Inode) (newsize now : ℕ) :
    Option (ℤ × Inode × Master) :=
  if ¬(SIsReg inode.iMode ∨ SIsDir inode.iMode ∨ SIsLnk inode.iMode) then some (-22, inode, g)
  else if inode.Protected then some (-1, inode, g)
  else
    let cleared := if newsize ≠ inode.iSize then rdfsBlockTruncatePage g inode newsize
      else some (0, g.nvm.mem)
    cleared.map fun c =>
      if c.1 ≠ 0 then (c.1, inode, g)
      else (0, cutBlocks sb { g with nvm := { g.nvm with mem := c.2 } } inode newsize now)

/-! ## Clearing a part of a word -/

/-- A word whose bytes from `a` on are cleared. -/
theorem Mem.load_cleared {m m' : Mem} {a : ℕ} :
    ∀ {k b : ℕ}, (∀ x, b ≤ x → x < a → m' x = m x) → (∀ x, a ≤ x → x < b + k → m' x = 0) →
      m'.load k b = m.load k b % 256 ^ (a - b)
  | 0, b, _, _ => by simp [Mem.load]
  | k + 1, b, hold, hnew => by
    rcases Nat.lt_or_ge b a with hlt | hge
    · have ih : m'.load k (b + 1) = m.load k (b + 1) % 256 ^ (a - (b + 1)) :=
        Mem.load_cleared (fun x h1 h2 => hold x (by omega) h2) fun x h1 h2 => hnew x h1 (by omega)
      have hbyte : (m b).toNat < 256 := (m b).toNat_lt
      rw [Mem.load, Mem.load, ih, hold b le_rfl hlt, show a - b = a - (b + 1) + 1 by omega,
        Nat.pow_succ', Nat.mod_mul,
        show ((m b).toNat + 256 * m.load k (b + 1)) % 256 = (m b).toNat by omega,
        show ((m b).toNat + 256 * m.load k (b + 1)) / 256 = m.load k (b + 1) by omega]
    · rw [Nat.sub_eq_zero_of_le hge, Nat.pow_zero, Nat.mod_one]
      exact Mem.load_eq_zero fun x h1 h2 => hnew x (by omega) h2

/-- The pte value of a block names the block, if the slave and the block fit in their fields. -/
theorem decodePte_pteValue {sId blockId : ℕ} (hs : sId < 2 ^ 12) (hb : blockId < 2 ^ 40) :
    decodePte (pteValue sId blockId) = (sId, blockId) := by
  have hshift : blockId <<< 12 = blockId * 2 ^ 12 := Nat.shiftLeft_eq _ _
  have hlt : blockId <<< 12 < 2 ^ 52 := by omega
  have hvalue : pteValue sId blockId = sId * 2 ^ 52 + blockId * 2 ^ 12 := by
    rw [pteValue, ← Nat.shiftLeft_add_eq_or_of_lt hlt, Nat.shiftLeft_eq, hshift]
    omega
  rw [hvalue, decodePte_eq, Prod.mk.injEq]
  omega

/-- A pte value that loses its bytes from the `j`-th on names the same block exactly if it has
nothing there. The low 12 bits are not looked at. -/
theorem decodePte_mod_iff {w : ℕ} (hw : w < 2 ^ 64) (j : ℕ) :
    decodePte (w % 256 ^ j) = decodePte w ↔ w < max 4096 (256 ^ j) := by
  have hle : w % 256 ^ j ≤ w := Nat.mod_le _ _
  rw [decodePte_eq, decodePte_eq, Prod.mk.injEq, lt_max_iff]
  constructor
  · rintro ⟨h1, h2⟩
    by_contra hlt
    have hmod : w % 256 ^ j < 256 ^ j := Nat.mod_lt _ (Nat.pos_of_neZero _)
    rcases Nat.lt_or_ge j 2 with hj | hj
    · have : 256 ^ j ≤ 256 ^ 1 := Nat.pow_le_pow_right (by decide) (by omega)
      omega
    · obtain ⟨i, rfl⟩ : ∃ i, j = i + 2 := ⟨j - 2, by omega⟩
      rw [Nat.pow_add] at *
      omega
  · rintro (h | h)
    · omega
    · rw [Nat.mod_eq_of_lt h]
      exact ⟨rfl, rfl⟩

/-! ## Open regular files -/

variable {sb : Super} {R : Region sb}

/-- An open regular file : its area leads to the tree its table holds, if it has a table, and
pages of pte values are what the table points to. It has at most 2^23 blocks, which is
`MAX_FILE_SIZE`. -/
structure OpenFile (R : Region sb) (g : Master) (inode : Inode) (t : Option Tree)
    (own : List ℕ) : Prop where
  reg : SIsReg inode.iMode
  isSlot : R.inodes.IsSlot (getRdfsInodePhyAddr sb inode.iIno)
  area : inode.iVirtAddr ∈ regAreas
  owned : Owned R.pages g.nvm (t.elim [] Tree.pages ++ own)
  pgAddr : inodeStruct.getField g.nvm.mem (getRdfsInodePhyAddr sb inode.iIno) .iPgAddr =
    t.elim 0 Tree.pud
  blocks : inode.iBlocks = t.elim 0 fun t => t.ents.length
  tree : ∀ t' ∈ t, TreeRep g.nvm.mem t' ∧ t'.ents ⊆ own ∧ t'.ents.length ≤ 2 ^ 23 ∧
    Mapped g.kernel inode.iVirtAddr t'

/-- The page of pte values that the lookup of a block reads. -/
def ptePage (sb : Super) (m : Mem) (ino b : ℕ) : ℕ :=
  rdfsFindDataBlock sb m ino (b / 512) &&& physMask

/-- How many blocks a file of that size has. -/
def blocksOf (size : ℕ) : ℕ := (size + 4095) / 4096

/-- What is expected of `rdfs_setsize` : it returns 0, the blocks below the new size are found
as before and are all the file has, and only other blocks are released. -/
def KeepsBlocks (sb : Super) (g : Master) (inode : Inode) (newsize : ℕ)
    (r : Option (ℤ × Inode × Master)) : Prop :=
  ∃ inode' g', r = some (0, inode', g') ∧ inode'.iBlocks = blocksOf newsize ∧
    (∀ b < blocksOf newsize,
      rdfsSearchMetadata g'.kernel g'.nvm.mem inode'.iVirtAddr (b * 4096) =
        rdfsSearchMetadata g.kernel g.nvm.mem inode.iVirtAddr (b * 4096)) ∧
    ∀ b < inode.iBlocks,
      (∃ n, rdfsFindDataBlock sb g.nvm.mem inode.iIno b &&& physMask ∈ freePages g'.nvm n) →
        blocksOf newsize ≤ b

/-- The new size makes `__rdfs_truncate_blocks` remove the table. -/
def RemovesTable (sb : Super) (m : Mem) (inode : Inode) (newsize : ℕ) : Prop :=
  inodeStruct.getField m (getRdfsInodePhyAddr sb inode.iIno) .iPgAddr ≠ 0 ∧
    blocksOf newsize ≤ lastBlocknr sb m inode.iIno inode.iSize

/-- Where `rdfs_block_truncate_page` clears, the pte values in use are zero, but for the bits
that are not looked at. -/
def SparesPtes (sb : Super) (m : Mem) (inode : Inode) (newsize : ℕ) : Prop :=
  newsize % 4096 ≠ 0 → newsize ≠ inode.iSize → ∀ b < blocksOf newsize,
    ptePage sb m inode.iIno b = ptePage sb m inode.iIno 0 →
      m.load 8 (ptePage sb m inode.iIno b + 8 * (b % 512)) <
        max 4096 (256 ^ (newsize % 4096 - 8 * (b % 512)))

/-- The new size is zero, or it lies in the last block of the file and behind the pte values. -/
def CutsNothing (sb : Super) (m : Mem) (inode : Inode) (newsize : ℕ) : Prop :=
  (RemovesTable sb m inode newsize → newsize = 0) ∧
    (¬RemovesTable sb m inode newsize →
      inode.iBlocks = blocksOf newsize ∧ SparesPtes sb m inode newsize)

/-- Removing the table leaves no blocks. -/
theorem cutBlocks_iBlocks (sb : Super) (g : Master) (inode : Inode) (newsize now : ℕ) :
    (RemovesTable sb g.nvm.mem inode newsize → (cutBlocks sb g inode newsize now).1.iBlocks = 0) ∧
    (¬RemovesTable sb g.nvm.mem inode newsize → ∃ inode' m', cutBlocks sb g inode newsize now =
          (inode', { g with nvm := { g.nvm with mem := m' } }) ∧
        inode'.iBlocks = inode.iBlocks ∧ inode'.iVirtAddr = inode.iVirtAddr ∧
        Mem.SameOff g.nvm.mem m' 128 (getRdfsInodePhyAddr sb inode.iIno)) := by
  have hfirst : (newsize + 4096 - 1) >>> 12 = blocksOf newsize := by
    rw [Nat.shiftRight_eq_div_pow, blocksOf]
    omega
  constructor
  · rintro ⟨hpg, hle⟩
    simp only [cutBlocks, rawRdfsTruncateBlocks, hfirst, if_neg hpg, if_neg (Nat.not_lt.2 hle)]
  · intro hstay
    have hraw : rawRdfsTruncateBlocks sb g { inode with iSize := newsize } newsize inode.iSize =
        ({ inode with iSize := newsize }, g) := by
      simp only [rawRdfsTruncateBlocks, hfirst]
      by_cases hpg : inodeStruct.getField g.nvm.mem (getRdfsInodePhyAddr sb inode.iIno) .iPgAddr = 0
      · rw [if_pos hpg]
      · rw [if_neg hpg, if_pos]
        exact Nat.lt_of_not_ge fun hle => hstay ⟨hpg, hle⟩
    simp only [cutBlocks, hraw]
    refine ⟨_, _, rfl, rfl, rfl, Mem.SameOff.trans ?_ (sameOff_rdfsUpdateInode _ _)⟩
    unfold checkEofBlocks
    split_ifs
    · exact sameOff_putFields_slot g.nvm.mem _ [(.iFlags, _)] (by simp)
    · exact fun _ _ => rfl

/-- The lookup of a block in an area that leads to a tree reads the page of block `b / 512`. -/
theorem Mapped.search {k : KernelMap} {m : Mem} {v b e : ℕ} {t : Tree} (h : Mapped k v t)
    (hv : v ∈ regAreas) (ht : TreeRep m t) (hpage : ∀ p ∈ t.pages ++ t.ents, R.pages.IsPage p)
    (he : t.ents[b / 512]? = some e) :
    rdfsSearchMetadata k m v (b * 4096) = some (decodePte (m.load 8 (e + 8 * (b % 512)))) := by
  have hdir : v ∉ dirAreas := fun hd => (inRegArea_of_mem hv).1 (inDirArea_of_mem hd).1
  have hx : b * 4096 / 4096 * 8 = 8 * b := by omega
  rw [rdfsSearchMetadata, hx, h.translate (Or.inr hv) (fun hd => absurd hd hdir) ht hpage
    (fun hd => absurd hd hdir) (by rwa [show 8 * b / 4096 = b / 512 by omega]),
    map_some, show 8 * b % 4096 = 8 * (b % 512) by omega]

namespace OpenFile

variable {g : Master} {inode : Inode} {own : List ℕ} {newsize now : ℕ}

theorem iVirtAddr_ne_zero {t : Option Tree} (h : OpenFile R g inode t own) :
    inode.iVirtAddr ≠ 0 := by
  intro h0
  have := (inRegArea_of_mem h.area).2.1.1
  rw [h0] at this
  exact absurd this (by decide)

section

variable {t : Tree} (h : OpenFile R g inode (some t) own)
include h

theorem isPage : ∀ p ∈ t.pages ++ t.ents, R.pages.IsPage p := by
  intro p hp
  refine h.owned.isPage ?_
  rcases mem_append.1 hp with hp | hp
  · exact mem_append_left _ hp
  · exact mem_append_right _ ((h.tree t rfl).2.1 hp)

/-- What the lookup of a block reads. -/
theorem search {m : Mem} (ht : TreeRep m t) {b e : ℕ} (he : t.ents[b / 512]? = some e) :
    rdfsSearchMetadata g.kernel m inode.iVirtAddr (b * 4096) =
      some (decodePte (m.load 8 (e + 8 * (b % 512)))) :=
  (h.tree t rfl).2.2.2.search h.area ht h.isPage he

theorem ptePage_eq {b e : ℕ} (he : t.ents[b / 512]? = some e) :
    ptePage sb g.nvm.mem inode.iIno b = e := by
  obtain ⟨ht, -, hlen, -⟩ := h.tree t rfl
  rw [ptePage, ht.rdfsFindDataBlock h.pgAddr
    (fun p hp => h.isPage p (mem_append_left _ hp)) (by omega) he]
  exact (blockEntry_and (h.isPage _ (mem_append_right _ (mem_of_getElem? he)))).1

end

/-- What `rdfs_setsize` does before it looks at the table : nothing, or it clears the end of
page 0 of the area. -/
theorem setsize_eq {t : Option Tree} (h : OpenFile R g inode t own) (hprot : ¬inode.Protected)
    (hle : newsize ≤ inode.iSize) : rdfsSetsize sb g inode newsize now =
      (if newsize % 4096 ≠ 0 ∧ newsize ≠ inode.iSize then
        (translate g.kernel g.nvm.mem (inode.iVirtAddr + newsize % 4096)).map fun bp =>
          g.nvm.mem.fill (4096 - newsize % 4096) bp 0
      else some g.nvm.mem).map fun m =>
        (0, cutBlocks sb { g with nvm := { g.nvm with mem := m } } inode newsize now) := by
  rw [rdfsSetsize, if_neg (by simp [h.reg]), if_neg hprot]
  by_cases hsize : newsize = inode.iSize
  · simp [hsize]
  · by_cases hoff : newsize % 4096 = 0
    · simp [hoff, rdfsBlockTruncatePage]
    · have hcond : ¬(newsize % 4096 = 0 ∨ inode.iSize < newsize) := by omega
      have hboth : newsize % 4096 ≠ 0 ∧ newsize ≠ inode.iSize := ⟨hoff, hsize⟩
      simp only [rdfsBlockTruncatePage, if_pos hboth, if_pos hboth.2, if_neg hcond,
        if_neg h.iVirtAddr_ne_zero, Option.map_map]
      rfl

/-- Clearing the end of page 0 of a file that has one. -/
theorem cleared {t : Tree} (h : OpenFile R g inode (some t) own) (newsize : ℕ) {e₀ : ℕ}
    (he₀ : t.ents[0]? = some e₀) : ∃ m, (if newsize % 4096 ≠ 0 ∧ newsize ≠ inode.iSize then
        (translate g.kernel g.nvm.mem (inode.iVirtAddr + newsize % 4096)).map fun bp =>
          g.nvm.mem.fill (4096 - newsize % 4096) bp 0
      else some g.nvm.mem) = some m ∧ SameOffPages g.nvm.mem m [e₀] ∧
      ∀ e i, R.pages.IsPage e → i < 512 → m.load 8 (e + 8 * i) =
        if (newsize % 4096 ≠ 0 ∧ newsize ≠ inode.iSize) ∧ e = e₀ then
          g.nvm.mem.load 8 (e + 8 * i) % 256 ^ (newsize % 4096 - 8 * i)
        else g.nvm.mem.load 8 (e + 8 * i) := by
  have hmem₀ := mem_of_getElem? he₀
  have hpage₀ := h.isPage e₀ (mem_append_right _ hmem₀)
  by_cases hc : newsize % 4096 ≠ 0 ∧ newsize ≠ inode.iSize
  · have hdir : inode.iVirtAddr ∉ dirAreas := fun hd =>
      (inRegArea_of_mem h.area).1 (inDirArea_of_mem hd).1
    obtain ⟨ht, -, -, hmap⟩ := h.tree t rfl
    have hzero : t.ents[newsize % 4096 / 4096]? = some e₀ := by
      rw [Nat.div_eq_of_lt (Nat.mod_lt _ (by decide)), he₀]
    have htr := hmap.translate (Or.inr h.area) (fun hd => absurd hd hdir) ht h.isPage
      (fun hd => absurd hd hdir) hzero
    rw [Nat.mod_mod] at htr
    have hoff := Mem.sameOff_fill g.nvm.mem (4096 - newsize % 4096) (e₀ + newsize % 4096) 0
    refine ⟨_, by rw [if_pos hc, htr]; rfl, SameOffPages.of_sameOff hoff (by omega) (by omega),
      fun e i he hi => ?_⟩
    by_cases heq : e = e₀
    · subst heq
      rw [if_pos ⟨hc, rfl⟩, Mem.load_cleared (a := e + newsize % 4096)]
      · rw [show e + newsize % 4096 - (e + 8 * i) = newsize % 4096 - 8 * i by omega]
      · exact fun x h1 h2 => hoff x (by omega)
      · exact fun x h1 h2 => if_pos (by omega)
    · rw [if_neg fun hcon => heq hcon.2]
      refine Mem.load_congr (hoff.sameOn ?_)
      have := he.disjoint hpage₀ heq
      omega
  · exact ⟨g.nvm.mem, if_neg hc, SameOffPages.refl _ _,
      fun e i _ _ => (if_neg fun hcon => hc hcon.1).symm⟩

/-- With the table in place, the blocks below the new size are found as before exactly if the
clearing misses their pte values. -/
theorem search_iff {t : Tree} (h : OpenFile R g inode (some t) own) {e₀ : ℕ}
    (he₀ : t.ents[0]? = some e₀) (hlen : t.ents.length = blocksOf newsize) {m m' : Mem}
    (hm : SameOffPages g.nvm.mem m [e₀])
    (hword : ∀ e i, R.pages.IsPage e → i < 512 → m.load 8 (e + 8 * i) =
      if (newsize % 4096 ≠ 0 ∧ newsize ≠ inode.iSize) ∧ e = e₀ then
        g.nvm.mem.load 8 (e + 8 * i) % 256 ^ (newsize % 4096 - 8 * i)
      else g.nvm.mem.load 8 (e + 8 * i))
    (hm' : Mem.SameOff m m' 128 (getRdfsInodePhyAddr sb inode.iIno)) :
    (∀ b < blocksOf newsize, rdfsSearchMetadata g.kernel m' inode.iVirtAddr (b * 4096) =
      rdfsSearchMetadata g.kernel g.nvm.mem inode.iVirtAddr (b * 4096)) ↔
    SparesPtes sb g.nvm.mem inode newsize := by
  obtain ⟨ht, hsub, -, -⟩ := h.tree t rfl
  have hsame : ∀ p, R.pages.IsPage p → Mem.SameOn m m' 4096 p := fun p hp =>
    hm'.sameOn (by have := R.isSlot_disjoint_page h.isSlot hp; omega)
  have ht' : TreeRep m' t := ht.congr fun p hp x h1 h2 => by
    have hmem₀ := hsub (mem_of_getElem? he₀)
    have hdis := (h.owned).disjoint_append hp hmem₀
    rw [hsame p (h.isPage p (mem_append_left _ hp)) x h1 h2]
    refine hm x fun q hq => ?_
    obtain rfl := mem_singleton.1 hq
    omega
  have hstep : ∀ b < blocksOf newsize, (rdfsSearchMetadata g.kernel m' inode.iVirtAddr (b * 4096) =
        rdfsSearchMetadata g.kernel g.nvm.mem inode.iVirtAddr (b * 4096) ↔
      (newsize % 4096 ≠ 0 → newsize ≠ inode.iSize →
        ptePage sb g.nvm.mem inode.iIno b = ptePage sb g.nvm.mem inode.iIno 0 →
          g.nvm.mem.load 8 (ptePage sb g.nvm.mem inode.iIno b + 8 * (b % 512)) <
            max 4096 (256 ^ (newsize % 4096 - 8 * (b % 512))))) := by
    intro b hb
    obtain ⟨e, he⟩ : ∃ e, t.ents[b / 512]? = some e := ⟨_, getElem?_eq_getElem (by omega)⟩
    have hpage := h.isPage e (mem_append_right _ (mem_of_getElem? he))
    have hi : b % 512 < 512 := Nat.mod_lt _ (by decide)
    have hload : m'.load 8 (e + 8 * (b % 512)) = m.load 8 (e + 8 * (b % 512)) :=
      Mem.load_congr fun x h1 h2 => hsame e hpage x (by omega) (by omega)
    have hw : g.nvm.mem.load 8 (e + 8 * (b % 512)) < 2 ^ 64 := Mem.load_lt _ 8 _
    rw [h.search ht' he, h.search ht he, h.ptePage_eq he, h.ptePage_eq (b := 0) he₀, hload,
      hword _ _ hpage hi, some_inj]
    by_cases hc : (newsize % 4096 ≠ 0 ∧ newsize ≠ inode.iSize) ∧ e = e₀
    · rw [if_pos hc, decodePte_mod_iff hw]
      exact ⟨fun hlt _ _ _ => hlt, fun hall => hall hc.1.1 hc.1.2 hc.2⟩
    · rw [if_neg hc]
      exact ⟨fun _ h1 h2 h3 => absurd ⟨⟨h1, h2⟩, h3⟩ hc, fun _ => rfl⟩
  exact ⟨fun hall h1 h2 b hb => (hstep b hb).1 (hall b hb) h1 h2,
    fun hall b hb => (hstep b hb).2 fun h1 h2 => hall h1 h2 b hb⟩

/-- Clearing the end of page 0 does not change whether the table is removed. -/
theorem removesTable_congr {t : Option Tree} (h : OpenFile R g inode t own) (newsize : ℕ) {e₀ : ℕ}
    {m : Mem} (he₀ : R.pages.IsPage e₀) (hm : SameOffPages g.nvm.mem m [e₀]) :
    RemovesTable sb m inode newsize ↔ RemovesTable sb g.nvm.mem inode newsize := by
  have hslot : Mem.SameOn g.nvm.mem m 128 (getRdfsInodePhyAddr sb inode.iIno) :=
    hm.sameOn fun p hp => by
      obtain rfl := mem_singleton.1 hp
      exact (R.isSlot_disjoint_page h.isSlot he₀).symm
  have hfield : ∀ f : InodeField, inodeStruct.offset f + inodeStruct.size f ≤ 128 →
      inodeStruct.getField m (getRdfsInodePhyAddr sb inode.iIno) f =
        inodeStruct.getField g.nvm.mem (getRdfsInodePhyAddr sb inode.iIno) f := fun f hf =>
    Mem.load_congr fun x h1 h2 => hslot x (by omega) (by omega)
  have hlast : lastBlocknr sb m inode.iIno inode.iSize =
      lastBlocknr sb g.nvm.mem inode.iIno inode.iSize :=
    if_congr (by rw [EofBlocks, EofBlocks, hfield .iFlags (by decide)]) rfl rfl
  rw [RemovesTable, RemovesTable, hlast, hfield .iPgAddr (by decide)]

/-- No page of the table's blocks becomes free as long as the free lists stay as they are. -/
theorem not_released {t : Tree} (h : OpenFile R g inode (some t) own) (st : Nvm)
    (hdes : ∀ n, (st.numaDes n).freePagePhy = (g.nvm.numaDes n).freePagePhy ∧
      (st.numaDes n).freePageCount = (g.nvm.numaDes n).freePageCount)
    (hm : ∀ p, R.pages.IsPage p → p ∉ own → Mem.SameOn g.nvm.mem st.mem 4096 p) {b : ℕ}
    (hb : b < t.ents.length) (n : Fin 2) :
    rdfsFindDataBlock sb g.nvm.mem inode.iIno b &&& physMask ∉ freePages st n := by
  obtain ⟨e, he⟩ : ∃ e, t.ents[b]? = some e := ⟨_, getElem?_eq_getElem hb⟩
  have hmem := mem_of_getElem? he
  obtain ⟨ht, hsub, hlen, -⟩ := h.tree t rfl
  rw [ht.rdfsFindDataBlock h.pgAddr (fun p hp => h.isPage p (mem_append_left _ hp))
    (by omega) he, (blockEntry_and (h.isPage _ (mem_append_right _ hmem))).1]
  intro hfree
  have hown := h.owned.congr hdes fun p hp hp' =>
    hm p hp fun hin => hp' (mem_append_right _ hin)
  exact hown.not_free hfree (mem_append_right _ (hsub hmem))

end OpenFile

theorem blocksOf_eq_zero_iff {n : ℕ} : blocksOf n = 0 ↔ n = 0 := by
  unfold blocksOf
  omega

variable {g : Master} {inode : Inode} {own : List ℕ} {newsize now : ℕ}

/-- A result without blocks is what is expected for size zero only. -/
theorem keepsBlocks_iff_of_iBlocks_eq_zero {r : Inode × Master} (h0 : r.1.iBlocks = 0) :
    KeepsBlocks sb g inode newsize (some (0, r)) ↔ newsize = 0 := by
  constructor
  · rintro ⟨inode', g', hr, hb, -⟩
    obtain rfl : r = (inode', g') := by simpa using hr
    exact blocksOf_eq_zero_iff.1 (hb.symm.trans h0)
  · rintro rfl
    exact ⟨r.1, r.2, rfl, h0, fun b hb => absurd hb (Nat.not_lt_zero b), fun b _ _ => Nat.zero_le b⟩

/-- A file without blocks : size zero only. -/
theorem OpenFile.keepsBlocks_iff_of_empty {t : Option Tree} (h : OpenFile R g inode t own)
    (hprot : ¬inode.Protected) (hle : newsize ≤ inode.iSize) (h0 : inode.iBlocks = 0) :
    KeepsBlocks sb g inode newsize (rdfsSetsize sb g inode newsize now) ↔
      CutsNothing sb g.nvm.mem inode newsize := by
  have hcut : ∀ g', (cutBlocks sb g' inode newsize now).1.iBlocks = 0 := by
    intro g'
    by_cases hr : RemovesTable sb g'.nvm.mem inode newsize
    · exact (cutBlocks_iBlocks sb g' inode newsize now).1 hr
    · obtain ⟨inode', m', heq, hb, -⟩ := (cutBlocks_iBlocks sb g' inode newsize now).2 hr
      rw [heq, hb, h0]
  have hcond : CutsNothing sb g.nvm.mem inode newsize ↔ newsize = 0 := by
    constructor
    · rintro ⟨h1, h2⟩
      by_cases hr : RemovesTable sb g.nvm.mem inode newsize
      · exact h1 hr
      · exact blocksOf_eq_zero_iff.1 ((h2 hr).1.symm.trans h0)
    · rintro rfl
      exact ⟨fun _ => rfl, fun _ => ⟨h0, fun hoff => absurd rfl hoff⟩⟩
  rw [hcond, h.setsize_eq hprot hle]
  cases hc : (if newsize % 4096 ≠ 0 ∧ newsize ≠ inode.iSize then
      (translate g.kernel g.nvm.mem (inode.iVirtAddr + newsize % 4096)).map fun bp =>
        g.nvm.mem.fill (4096 - newsize % 4096) bp 0
    else some g.nvm.mem) with
  | none =>
    refine ⟨fun ⟨_, _, hr, _⟩ => by simp at hr, ?_⟩
    rintro rfl
    simp at hc
  | some m => exact keepsBlocks_iff_of_iBlocks_eq_zero (hcut _)

/-- `rdfs_setsize` does what is expected exactly if the new size is zero, or lies in the last
block of the file and its table and the clearing misses the pte values in use. -/
theorem rdfsSetsize_keepsBlocks_iff {t : Option Tree} (h : OpenFile R g inode t own)
    (hprot : ¬inode.Protected) (hle : newsize ≤ inode.iSize) :
    KeepsBlocks sb g inode newsize (rdfsSetsize sb g inode newsize now) ↔
      CutsNothing sb g.nvm.mem inode newsize := by
  by_cases h0 : inode.iBlocks = 0
  · exact h.keepsBlocks_iff_of_empty hprot hle h0
  have hblocks := h.blocks
  cases t with
  | none => exact absurd hblocks h0
  | some t =>
    replace hblocks : inode.iBlocks = t.ents.length := hblocks
    have hlen : 0 < t.ents.length := by omega
    obtain ⟨e₀, he₀⟩ : ∃ e, t.ents[0]? = some e := ⟨_, getElem?_eq_getElem hlen⟩
    have hmem₀ : e₀ ∈ own := (h.tree t rfl).2.1 (mem_of_getElem? he₀)
    have hpage₀ : R.pages.IsPage e₀ := h.owned.isPage (mem_append_right _ hmem₀)
    obtain ⟨m, hm, hoff, hword⟩ := h.cleared newsize he₀
    rw [h.setsize_eq hprot hle, hm, map_some]
    have hremoves := h.removesTable_congr newsize hpage₀ hoff
    by_cases hr : RemovesTable sb g.nvm.mem inode newsize
    · have hcut := (cutBlocks_iBlocks sb { g with nvm := { g.nvm with mem := m } } inode newsize
        now).1 (hremoves.2 hr)
      rw [keepsBlocks_iff_of_iBlocks_eq_zero hcut]
      exact ⟨fun hz => ⟨fun _ => hz, fun hn => absurd hr hn⟩, fun hc => hc.1 hr⟩
    · obtain ⟨inode', m', hcut, hb', hv', hm'⟩ := (cutBlocks_iBlocks sb
        { g with nvm := { g.nvm with mem := m } } inode newsize now).2 fun hr' =>
          hr (hremoves.1 hr')
      rw [hcut]
      constructor
      · rintro ⟨_, _, heq, hb, hsearch, -⟩
        obtain ⟨rfl, rfl⟩ : inode' = _ ∧ _ = _ := by simpa using heq
        rw [hb'] at hb
        refine ⟨fun hr' => absurd hr' hr, fun _ => ⟨hb, ?_⟩⟩
        rw [hv'] at hsearch
        exact (h.search_iff he₀ (hblocks.symm.trans hb) hoff hword hm').1 hsearch
      · rintro ⟨-, hstay⟩
        obtain ⟨hb, hspare⟩ := hstay hr
        refine ⟨_, _, rfl, hb'.trans hb, ?_, fun b hlt hfree => ?_⟩
        · rw [hv']
          exact (h.search_iff he₀ (hblocks.symm.trans hb) hoff hword hm').2 hspare
        · obtain ⟨n, hn⟩ := hfree
          rw [hblocks] at hlt
          have hsame : ∀ p, R.pages.IsPage p → p ∉ own → Mem.SameOn g.nvm.mem m' 4096 p := by
            intro p hp hpn x h1 h2
            have hslot := R.isSlot_disjoint_page h.isSlot hp
            refine (hm' x (by omega)).trans (hoff x fun q hq => ?_)
            obtain rfl := mem_singleton.1 hq
            have := hpage₀.disjoint hp fun heq => hpn (heq ▸ hmem₀)
            omega
          exact absurd hn (h.not_released ⟨m', g.nvm.numaDes⟩ (fun _ => ⟨rfl, rfl⟩) hsame hlt n)

/-! ## A file of a small mount -/

/-- The small mount, with the cursor at the end of its page. -/
def freshMaster : Master where
  nvm := Region.plain.mount fun _ => 0
  kernel := ⟨fun _ => 0, fun _ => 0⟩
  pteCnt := 512
  ptePhyAddr := 0
  slaves _ := default

/-- A regular file with no blocks, in the first area. -/
def emptyFile : Inode :=
  { (default : Inode) with iIno := 1, iMode := 0x8000, iVirtAddr := rdfsStart + dirAreaSize }

theorem fileState_emptyFile : FileState Region.plain freshMaster.nvm emptyFile.iIno none [] :=
  ⟨⟨0, 0, Or.inl rfl, Nat.zero_le _, rfl⟩, Region.plain.owned_mount _, by simp, by decide +kernel⟩

/-- Cutting a file of 4000 bytes in its only block, to 100 bytes. -/
theorem rdfsSetsize_keepsBlocks_emptyFile :
    ∃ g inode t own, OpenFile Region.plain g inode (some t) own ∧ inode.iBlocks = 1 ∧
      inode.iSize = 4000 ∧ KeepsBlocks Region.behindTables g inode 100
        (rdfsSetsize Region.behindTables g inode 100 0) := by
  have harea : emptyFile.iVirtAddr ∈ regAreas := mem_regAreas.2 ⟨0, by decide, rfl⟩
  obtain ⟨t, s, new, es, hr, hes, hrep, hgrown, hsub, -⟩ := fileState_emptyFile.allocBlocks_pte
    rfl (⟨le_rfl, fun h => absurd h (by decide)⟩)
    (nil_subset _) 1 (show getCpuNuma Region.behindTables 0 = _ from rfl) rfl
    (Or.inl (Or.inl ⟨harea, by decide⟩)) (by decide +kernel) 0 0
  obtain ⟨b, hinode⟩ := hgrown.inode_eq
  have hents : t.ents = es := hgrown.ents
  have hblocks : s.inode.iBlocks = 1 := by rw [hinode, hes]; rfl
  have hopen : OpenFile Region.plain s.master { s.inode with iSize := 4000 } (some t)
      (new ++ []) := by
    rw [hinode]
    refine ⟨(by decide : SIsReg emptyFile.iMode), fileState_emptyFile.isSlot, harea, hrep.owned,
      hrep.pgAddr, ?_, fun t' ht' => ?_⟩
    · rw [elim_some, hents, hes]
      rfl
    · obtain rfl := some_inj.1 ht'
      exact ⟨hrep.rep, hents ▸ hsub, by rw [hents, hes]; decide,
        (hgrown.holds ⟨fun _ => rfl, fun _ _ _ => rfl⟩).mapped
          (by rw [hrep.rep.length_pmds, hents, hes]; decide)⟩
  have hstays : ¬RemovesTable Region.behindTables s.master.nvm.mem
      { s.inode with iSize := 4000 } 100 := by
    have hs : s = (rdfsAllocBlocks Region.behindTables 0 freshMaster emptyFile 1 0 .pte 0).2 :=
      (congrArg Prod.snd hr).symm
    have heof : ¬EofBlocks Region.behindTables s.master.nvm.mem s.inode.iIno := by
      rw [hs]
      decide +kernel
    rintro ⟨-, hle⟩
    rw [lastBlocknr, if_neg heof] at hle
    exact absurd hle (show ¬blocksOf 100 ≤ 4000 >>> 12 by decide)
  refine ⟨s.master, _, t, new ++ [], hopen, hblocks, rfl, (rdfsSetsize_keepsBlocks_iff hopen
    (by rw [hinode]; exact (by decide : ¬emptyFile.Protected)) (show 100 ≤ 4000 by decide)).2
    ⟨fun hrm => absurd hrm hstays, fun _ => ⟨hblocks, fun _ _ b hb _ => ?_⟩⟩⟩
  -- the pte value is in front of byte 100
  obtain rfl : b = 0 := Nat.lt_one_iff.1 hb
  exact lt_of_lt_of_le (Mem.load_lt _ _ _) ((by decide : 256 ^ 8 ≤ 256 ^ 100).trans
    (le_max_right _ _))

/-- A file of two blocks that is cut to one block loses both. -/
theorem rdfsSetsize_loses_first_block :
    let s := (rdfsAllocBlocks Region.behindTables 0 freshMaster emptyFile 2 0 .pte 0).2
    let inode := { s.inode with iSize := 8192 }
    inode.iBlocks = 2 ∧ ¬KeepsBlocks Region.behindTables s.master inode 4096
      (rdfsSetsize Region.behindTables s.master inode 4096 0) := by
  intro s inode
  have hblocks : (rdfsSetsize Region.behindTables s.master inode 4096 0).map (·.2.1.iBlocks) =
      some 0 := by decide +kernel
  refine ⟨by decide +kernel, ?_⟩
  rintro ⟨inode', g', hr, hb, -⟩
  rw [hr] at hblocks
  simp [hb, blocksOf] at hblocks

end Rdfs
