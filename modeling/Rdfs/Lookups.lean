import Rdfs.FileTree

/-!
# Looking up blocks

`rdfs_find_data_block` goes down the table of an inode. On every level it takes the address out of
the entry, makes a pointer of it with `rdfs_va`, and stops if the pointer is null. But an empty
entry is the address 0, and `rdfs_va` of that is the distance between the virtual and the physical
address of the mount, which is not null unless the region is mapped where it lies. So the walk goes
on behind an empty entry, and reads words at the bottom of physical memory.

`findReads` is the walk with the words it reads. For a file whose table holds a tree,
`FileState.findsNothing_iff` says when it finds nothing and reads the table only. `rdfs_readpage`
fills a page of the cache with what the walk finds.
-/

namespace Rdfs

open List

/-! ## The code -/

/-- `rdfs_find_data_block` : the entry of a block in the table of an inode. -/
def rdfsFindDataBlock (sb : Super) (m : Mem) (ino fileBlocknr : ℕ) : ℕ :=
  let firstLev := rdfsVa sb (inodeStruct.getField m (getRdfsInodePhyAddr sb ino) .iPgAddr)
  if firstLev = 0 then 0
  else
    let secondLev := rdfsVa sb
      (deref sb m (firstLev + 8 * (fileBlocknr >>> 9 >>> 9 &&& 511)) &&& pageMask)
    if secondLev = 0 then 0
    else
      let thirdLev := rdfsVa sb
        (deref sb m (secondLev + 8 * (fileBlocknr >>> 9 &&& 511)) &&& pageMask)
      if thirdLev = 0 then 0 else deref sb m (thirdLev + 8 * (fileBlocknr &&& 511))

/-- The addresses of the words `rdfs_find_data_block` reads from the levels of the table, and what
it returns. -/
def findReads (sb : Super) (m : Mem) (ino fileBlocknr : ℕ) : List ℕ × ℕ :=
  let firstPhys := inodeStruct.getField m (getRdfsInodePhyAddr sb ino) .iPgAddr
  if rdfsVa sb firstPhys = 0 then ([], 0)
  else
    let first := firstPhys + 8 * (fileBlocknr >>> 9 >>> 9 &&& 511)
    let secondPhys := m.load 8 first &&& pageMask
    if rdfsVa sb secondPhys = 0 then ([first], 0)
    else
      let second := secondPhys + 8 * (fileBlocknr >>> 9 &&& 511)
      let thirdPhys := m.load 8 second &&& pageMask
      if rdfsVa sb thirdPhys = 0 then ([first, second], 0)
      else
        let third := thirdPhys + 8 * (fileBlocknr &&& 511)
        ([first, second, third], m.load 8 third)

theorem findReads_snd (sb : Super) (m : Mem) (ino b : ℕ) :
    (findReads sb m ino b).2 = rdfsFindDataBlock sb m ino b := by
  simp only [findReads, rdfsFindDataBlock, deref, rdfsPa_rdfsVa_add]
  split_ifs <;> rfl

/-- `rdfs_readpage` of page `index` of a file : the return value and what the page is filled with.
The block size is the page size, so the loop makes one round. -/
def rdfsReadpage (sb : Super) (m : Mem) (ino iSize index : ℕ) : ℤ × List UInt8 :=
  let offset := index * 4096
  if offset < iSize then
    let fillsize := if 4096 < iSize - offset then 4096 else iSize - offset
    let block := rdfsFindDataBlock sb m ino index
    if block ≠ 0 then
      let bp := rdfsVa sb (block &&& physMask)
      if bp = 0 then (-5, List.replicate 4096 0)
      else (0, m.bytes fillsize (rdfsPa sb bp) ++ List.replicate (4096 - fillsize) 0)
    else (0, List.replicate fillsize 0 ++ List.replicate (4096 - fillsize) 0)
  else (0, List.replicate 4096 0)

/-- A block that is not found reads as zeros. -/
theorem rdfsReadpage_zero {sb : Super} {m : Mem} {ino b : ℕ} (h : rdfsFindDataBlock sb m ino b = 0)
    (iSize : ℕ) : rdfsReadpage sb m ino iSize b = (0, List.replicate 4096 0) := by
  have hfill : ∀ k ≤ 4096, List.replicate k (0 : UInt8) ++ List.replicate (4096 - k) 0 =
      List.replicate 4096 0 := fun k hk => by
    rw [replicate_append_replicate, Nat.add_sub_cancel' hk]
  simp only [rdfsReadpage, h, ne_eq, not_true_eq_false, if_false]
  split_ifs with h1 h2
  · rw [hfill _ le_rfl]
  · rw [hfill _ (not_lt.1 h2)]
  · rfl

/-! ## The walk -/

variable {sb : Super} {R : Region sb}

/-- The walk sees the low 27 bits of a block number. -/
theorem findReads_mod (sb : Super) (m : Mem) (ino b : ℕ) :
    findReads sb m ino (b % 2 ^ 27) = findReads sb m ino b := by
  have hmask : ∀ x, x &&& 511 = x % 512 := fun x => Nat.and_two_pow_sub_one_eq_mod x 9
  have hfirst : (b % 2 ^ 27) >>> 9 >>> 9 &&& 511 = b >>> 9 >>> 9 &&& 511 := by
    rw [hmask, hmask]
    omega
  have hsecond : (b % 2 ^ 27) >>> 9 &&& 511 = b >>> 9 &&& 511 := by
    rw [hmask, hmask]
    omega
  have hthird : (b % 2 ^ 27) &&& 511 = b &&& 511 := by
    rw [hmask, hmask]
    omega
  simp only [findReads, hfirst, hsecond, hthird]

/-- The walk finds the same if the words it reads are the same. -/
theorem findReads_congr {m m' : Mem} {ino b : ℕ}
    (hpg : inodeStruct.getField m' (getRdfsInodePhyAddr sb ino) .iPgAddr =
      inodeStruct.getField m (getRdfsInodePhyAddr sb ino) .iPgAddr)
    (h : ∀ a ∈ (findReads sb m ino b).1, m'.load 8 a = m.load 8 a) :
    findReads sb m' ino b = findReads sb m ino b := by
  simp only [findReads, hpg] at h ⊢
  obtain ⟨p, hp⟩ : ∃ p, inodeStruct.getField m (getRdfsInodePhyAddr sb ino) .iPgAddr = p := ⟨_, rfl⟩
  obtain ⟨first, hfirst⟩ : ∃ a, p + 8 * (b >>> 9 >>> 9 &&& 511) = a := ⟨_, rfl⟩
  obtain ⟨second, hsecond⟩ : ∃ a, (m.load 8 first &&& pageMask) + 8 * (b >>> 9 &&& 511) = a :=
    ⟨_, rfl⟩
  simp only [hp, hfirst, hsecond] at h ⊢
  by_cases h1 : rdfsVa sb p = 0
  · simp only [if_pos h1]
  simp only [if_neg h1] at h ⊢
  by_cases h2 : rdfsVa sb (m.load 8 first &&& pageMask) = 0
  · rw [if_pos h2] at h
    simp only [h first mem_cons_self, if_pos h2]
  rw [if_neg h2] at h
  by_cases h3 : rdfsVa sb (m.load 8 second &&& pageMask) = 0
  · rw [if_pos h3] at h
    simp only [h first mem_cons_self, hsecond, h second (by simp), if_pos h3]
  · rw [if_neg h3] at h
    simp only [h first mem_cons_self, hsecond, h second (by simp),
      h _ (mem_cons_of_mem _ (mem_cons_of_mem _ mem_cons_self))]

/-- Every word lies in one of the pages. -/
def WordsIn (pages reads : List ℕ) : Prop := ∀ a ∈ reads, ∃ p ∈ pages, p ≤ a ∧ a + 8 ≤ p + 4096

/-- The walk finds nothing, reads words of the pages `pages` only, and the page of the cache is
filled with zeros, whatever the size of the file. -/
def FindsNothing (sb : Super) (m : Mem) (ino b : ℕ) (pages : List ℕ) : Prop :=
  (findReads sb m ino b).2 = 0 ∧ WordsIn pages (findReads sb m ino b).1 ∧
    ∀ iSize, rdfsReadpage sb m ino iSize b = (0, List.replicate 4096 0)

theorem findsNothing_iff_words {m : Mem} {ino b : ℕ} {pages : List ℕ} :
    FindsNothing sb m ino b pages ↔
      (findReads sb m ino b).2 = 0 ∧ WordsIn pages (findReads sb m ino b).1 :=
  ⟨fun h => ⟨h.1, h.2.1⟩, fun h => ⟨h.1, h.2, rdfsReadpage_zero (findReads_snd sb m ino b ▸ h.1)⟩⟩

/-- The bottom of memory is in no page of the region. -/
theorem not_wordsIn_low {pages reads : List ℕ} (hpages : ∀ p ∈ pages, R.pages.IsPage p) {j : ℕ}
    (hj : j < 512) (hmem : 8 * j ∈ reads) : ¬WordsIn pages reads := by
  intro h
  obtain ⟨p, hp, hle, -⟩ := h _ hmem
  have hpage := hpages p hp
  have hdvd := hpage.dvd
  have hne : p ≠ 0 := fun h0 => R.not_isPage_zero (h0 ▸ hpage)
  omega

/-! ## The walk in a tree -/

variable {m : Mem} {ino b : ℕ} {t : Tree}

/-- The walk with the places it reads from, for a block number of 27 bits. -/
theorem findReads_eq (hb : b < 2 ^ 27) {pud : ℕ}
    (hpg : inodeStruct.getField m (getRdfsInodePhyAddr sb ino) .iPgAddr = pud) (hpud : pud ≠ 0) :
    findReads sb m ino b =
      let first := pud + 8 * (b / 2 ^ 18)
      let secondPhys := m.load 8 first &&& pageMask
      if rdfsVa sb secondPhys = 0 then ([first], 0)
      else
        let second := secondPhys + 8 * (b / 512 % 512)
        let thirdPhys := m.load 8 second &&& pageMask
        if rdfsVa sb thirdPhys = 0 then ([first, second], 0)
        else
          ([first, second, thirdPhys + 8 * (b % 512)], m.load 8 (thirdPhys + 8 * (b % 512))) := by
  have hmask : ∀ x, x &&& 511 = x % 512 := fun x => Nat.and_two_pow_sub_one_eq_mod x 9
  have hfirst : b >>> 9 >>> 9 &&& 511 = b / 2 ^ 18 := by
    rw [hmask, Nat.shiftRight_eq_div_pow, Nat.shiftRight_eq_div_pow]
    omega
  have hsecond : b >>> 9 &&& 511 = b / 512 % 512 := by rw [hmask, Nat.shiftRight_eq_div_pow]
  simp only [findReads, hpg, hfirst, hsecond, hmask, if_neg (rdfsVa_ne_zero sb hpud)]

section tree

variable (ht : TreeRep m t)
  (hpg : inodeStruct.getField m (getRdfsInodePhyAddr sb ino) .iPgAddr = t.pud)
  (hpage : ∀ p ∈ t.pages, R.pages.IsPage p) (hb : b < 2 ^ 27)

include ht hpg hpage hb

/-- Where the table has a page for the block on every level. -/
theorem TreeRep.findReads_low {p q : ℕ} (hp : t.pmds[b / 2 ^ 18]? = some p)
    (hq : t.ptes[b / 512]? = some q) :
    findReads sb m ino b = ([t.pud + 8 * (b / 2 ^ 18), p + 8 * (b / 512 % 512), q + 8 * (b % 512)],
      tableWord t.ents pageKernel b) := by
  have hne : ∀ p ∈ t.pages, p ≠ 0 := fun p hp h0 => R.not_isPage_zero (h0 ▸ hpage p hp)
  have hpIn : p ∈ t.pages := by simp [Tree.pages, mem_of_getElem? hp]
  have hqIn : q ∈ t.pages := by simp [Tree.pages, mem_of_getElem? hq]
  have htop := ht.top 0 t.pud rfl (b / 2 ^ 18) (by omega)
  rw [Nat.mul_zero, Nat.zero_add, tableWord_of_getElem? _ hp] at htop
  have hmid := ht.mid _ _ hp _ (Nat.mod_lt (b / 512) (by decide))
  rw [show 512 * (b / 2 ^ 18) + b / 512 % 512 = b / 512 by omega,
    tableWord_of_getElem? _ hq] at hmid
  have hlow := ht.low _ _ hq _ (Nat.mod_lt b (by decide))
  rw [show 512 * (b / 512) + b % 512 = b by omega] at hlow
  simp only [findReads_eq hb hpg (hne _ mem_cons_self), htop,
    (tableEntry_and (hpage p hpIn)).1, if_neg (rdfsVa_ne_zero sb (hne p hpIn)), hmid,
    (tableEntry_and (hpage q hqIn)).1, if_neg (rdfsVa_ne_zero sb (hne q hqIn)), hlow]

omit hb in
/-- The entry of a block in a tree. -/
theorem TreeRep.rdfsFindDataBlock (hfit : t.ents.length ≤ 2 ^ 27) {e : ℕ}
    (he : t.ents[b]? = some e) : Rdfs.rdfsFindDataBlock sb m ino b = e ||| pageKernel := by
  have hb : b < t.ents.length := (List.getElem?_eq_some_iff.1 he).1
  obtain ⟨p, hp⟩ : ∃ p, t.pmds[b / 2 ^ 18]? = some p :=
    ⟨_, getElem?_eq_getElem (by rw [ht.length_pmds]; omega)⟩
  obtain ⟨q, hq⟩ : ∃ q, t.ptes[b / 512]? = some q :=
    ⟨_, getElem?_eq_getElem (by rw [ht.length_ptes]; omega)⟩
  rw [← findReads_snd, ht.findReads_low hpg hpage (by omega) hp hq, tableWord_of_getElem? _ he]

/-- Where the table has no page of the lowest level for the block. -/
theorem TreeRep.findReads_mid {p : ℕ} (hp : t.pmds[b / 2 ^ 18]? = some p)
    (hq : t.ptes.length ≤ b / 512) :
    findReads sb m ino b = if rdfsVa sb 0 = 0 then
        ([t.pud + 8 * (b / 2 ^ 18), p + 8 * (b / 512 % 512)], 0)
      else ([t.pud + 8 * (b / 2 ^ 18), p + 8 * (b / 512 % 512), 8 * (b % 512)],
        m.load 8 (8 * (b % 512))) := by
  have hne : ∀ p ∈ t.pages, p ≠ 0 := fun p hp h0 => R.not_isPage_zero (h0 ▸ hpage p hp)
  have hpIn : p ∈ t.pages := by simp [Tree.pages, mem_of_getElem? hp]
  have htop := ht.top 0 t.pud rfl (b / 2 ^ 18) (by omega)
  rw [Nat.mul_zero, Nat.zero_add, tableWord_of_getElem? _ hp] at htop
  have hmid := ht.mid _ _ hp _ (Nat.mod_lt (b / 512) (by decide))
  rw [show 512 * (b / 2 ^ 18) + b / 512 % 512 = b / 512 by omega, tableWord_of_le _ hq] at hmid
  simp only [findReads_eq hb hpg (hne _ mem_cons_self), htop,
    (tableEntry_and (hpage p hpIn)).1, if_neg (rdfsVa_ne_zero sb (hne p hpIn)), hmid,
    Nat.zero_and, Nat.zero_add]

/-- Where the table has no page of the second level for the block. -/
theorem TreeRep.findReads_top (hp : t.pmds.length ≤ b / 2 ^ 18) :
    (rdfsVa sb 0 = 0 → findReads sb m ino b = ([t.pud + 8 * (b / 2 ^ 18)], 0)) ∧
      (rdfsVa sb 0 ≠ 0 → 8 * (b / 512 % 512) ∈ (findReads sb m ino b).1) := by
  have hne : t.pud ≠ 0 := fun h0 => R.not_isPage_zero (h0 ▸ hpage _ mem_cons_self)
  have htop := ht.top 0 t.pud rfl (b / 2 ^ 18) (by omega)
  rw [Nat.mul_zero, Nat.zero_add, tableWord_of_le _ hp] at htop
  simp only [findReads_eq hb hpg hne, htop, Nat.zero_and]
  refine ⟨fun h0 => if_pos h0, fun h0 => ?_⟩
  rw [if_neg h0]
  split_ifs <;> simp

/-- In a file with a table : the walk finds nothing and reads the table only if and only if there is
no such block, and the table has a page for it, unless `rdfs_va` of an empty entry is null. -/
theorem TreeRep.findsNothing_iff : FindsNothing sb m ino b t.pages ↔
    t.ents.length ≤ b ∧ (rdfsVa sb 0 = 0 ∨ b / 512 < t.ptes.length) := by
  have hlen := ht.length_ptes
  have hlen' := ht.length_pmds
  have hin : ∀ p ∈ t.pages, ∀ j < 512, ∃ q ∈ t.pages, q ≤ p + 8 * j ∧ p + 8 * j + 8 ≤ q + 4096 :=
    fun p hp j hj => ⟨p, hp, by omega, by omega⟩
  have hfirst := hin t.pud mem_cons_self (b / 2 ^ 18) (by omega)
  rw [findsNothing_iff_words]
  rcases Nat.lt_or_ge (b / 512) t.ptes.length with hq | hq
  · -- a page on every level
    obtain ⟨q, hq'⟩ : ∃ q, t.ptes[b / 512]? = some q := ⟨_, getElem?_eq_getElem hq⟩
    obtain ⟨p, hp'⟩ : ∃ p, t.pmds[b / 2 ^ 18]? = some p :=
      ⟨_, getElem?_eq_getElem (by omega)⟩
    have hsecond := hin p (by simp [Tree.pages, mem_of_getElem? hp']) (b / 512 % 512)
      (Nat.mod_lt _ (by decide))
    have hthird := hin q (by simp [Tree.pages, mem_of_getElem? hq']) (b % 512)
      (Nat.mod_lt _ (by decide))
    rw [ht.findReads_low hpg hpage hb hp' hq', and_iff_left (Or.inr hq),
      tableWord_eq_zero_iff (by decide), and_iff_left]
    simp only [WordsIn, mem_cons, not_mem_nil, or_false, forall_eq_or_imp, forall_eq]
    exact ⟨hfirst, hsecond, hthird⟩
  · have hle : t.ents.length ≤ b := by omega
    rw [and_iff_right hle, or_iff_left (by omega)]
    rcases Nat.lt_or_ge (b / 2 ^ 18) t.pmds.length with hp | hp
    · obtain ⟨p, hp'⟩ : ∃ p, t.pmds[b / 2 ^ 18]? = some p := ⟨_, getElem?_eq_getElem hp⟩
      have hsecond := hin p (by simp [Tree.pages, mem_of_getElem? hp']) (b / 512 % 512)
        (Nat.mod_lt _ (by decide))
      rw [ht.findReads_mid hpg hpage hb hp' hq]
      by_cases h0 : rdfsVa sb 0 = 0
      · rw [if_pos h0]
        refine iff_of_true ⟨rfl, ?_⟩ h0
        simp only [WordsIn, mem_cons, not_mem_nil, or_false, forall_eq_or_imp, forall_eq]
        exact ⟨hfirst, hsecond⟩
      · rw [if_neg h0]
        exact iff_of_false (fun h => not_wordsIn_low hpage (Nat.mod_lt b (by decide)) (by simp) h.2)
          h0
    · obtain ⟨hzero, hlow⟩ := ht.findReads_top hpg hpage hb hp
      by_cases h0 : rdfsVa sb 0 = 0
      · rw [hzero h0]
        refine iff_of_true ⟨rfl, ?_⟩ h0
        simp only [WordsIn, mem_singleton, forall_eq]
        exact hfirst
      · exact iff_of_false
          (fun h => not_wordsIn_low hpage (Nat.mod_lt (b / 512) (by decide)) (hlow h0) h.2) h0

end tree

theorem findsNothing_mod {pages : List ℕ} :
    FindsNothing sb m ino (b % 2 ^ 27) pages ↔ FindsNothing sb m ino b pages := by
  rw [findsNothing_iff_words, findsNothing_iff_words, findReads_mod]

/-- The same for any block number, with or without a table. -/
theorem FileState.findsNothing_iff {st : Nvm} {t : Option Tree} {own : List ℕ}
    (h : FileState R st ino t own) (b : ℕ) :
    FindsNothing sb st.mem ino b (t.elim [] Tree.pages) ↔ (fileEnts t).length ≤ b % 2 ^ 27 ∧
      (rdfsVa sb 0 = 0 ∨ ∃ t' ∈ t, b % 2 ^ 27 / 512 < t'.ptes.length) := by
  rw [← findsNothing_mod]
  have hlt : b % 2 ^ 27 < 2 ^ 27 := Nat.mod_lt _ (by decide)
  generalize b % 2 ^ 27 = b at hlt
  rcases t with _ | t
  · have hpg : inodeStruct.getField st.mem (getRdfsInodePhyAddr sb ino) .iPgAddr = 0 := h.pgAddr
    have hempty : ¬∃ t' ∈ (none : Option Tree), b / 512 < t'.ptes.length := by simp
    rw [or_iff_left hempty, and_iff_right (show (fileEnts none).length ≤ b from Nat.zero_le b),
      findsNothing_iff_words]
    by_cases h0 : rdfsVa sb 0 = 0
    · simp [findReads, hpg, h0, WordsIn]
    · refine iff_of_false (fun hw => ?_) h0
      have hmem : 8 * (b >>> 9 >>> 9 &&& 511) ∈ (findReads sb st.mem ino b).1 := by
        simp only [findReads, hpg]
        split_ifs <;> simp
      obtain ⟨p, hp, -⟩ := hw.2 _ hmem
      exact absurd hp not_mem_nil
  · rw [show fileEnts (some t) = t.ents from rfl]
    simp only [Option.mem_some_iff, exists_eq_left']
    exact (h.rep t rfl).findsNothing_iff h.pgAddr
      (fun p hp => h.owned.isPage (mem_append_left own hp)) hlt

end Rdfs
