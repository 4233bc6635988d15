import Rdfs.Files

/-!
# Tables as they are built

A table is built by `rdfs_init_pg_table` and by insertions, one block after the other, while the
rest of the system takes, frees and writes pages of its own (`BuiltTable`). As long as every
insertion puts its block where the tree has it, the table holds the blocks in the order of their
insertion (`BuiltTable.fileRep`), and three things follow : the lookup of a block finds what was
inserted (`BuiltTable.lookup_spec`), when the lookup of a block that was never inserted finds
nothing is known (`FileTable.findsNothing_spec`), and `rdfs_rm_pg_table` frees the blocks and the
pages of the table (`BuiltTable.rmPgTable_spec`).

One area breaks this. `rdfs_pmd_alloc` tells the areas of directories from those of files by a test
that the pages of the last directory area fail, all but the first. Their entries go to the last
place of the second level, where no lookup of a directory looks and where the removal, which stops
at the first empty entry, never gets.
-/

namespace Rdfs

open List

variable {sb : Super} {R : Region sb} {st : Nvm} {own : List ℕ} {t : Tree} {ino cpu : ℕ} {n : Fin 2}

/-! ## Insertions that find no page -/

/-- An empty entry for which there is no page. -/
theorem entryAlloc_full {present : ℕ → Bool} {entry : ℕ} (hn : getCpuNuma sb cpu = n)
    (hc : (st.numaDes n).freePageCount = 0) (hzero : deref sb st.mem entry = 0) (index : ℕ) :
    entryAlloc present sb cpu st entry index = (0, st) := by
  have halloc : tableAlloc present sb cpu st entry = (-12, st) := by
    rw [tableAlloc, rdfsGetZeroedPage_none hn hc]
    rfl
  rw [entryAlloc, if_pos hzero, halloc]
  rfl

variable {k k' : KernelMap} {v phys : ℕ} {st' : Nvm} {P : ℕ → Prop}

section

variable {v blocks pud newAddr : ℕ} (hnew : (v + (blocks - 1) <<< 12) % 2 ^ 64 = newAddr)
  (hpud : rdfsPudAlloc sb st.mem ino ((blocks - 1) <<< 12) = pud)
include hnew hpud

/-- `rdfs_insert_page` without a page for the second level. -/
theorem rdfsInsertPage_noPmd {st₁ : Nvm} {phys : ℕ}
    (hpmd : rdfsPmdAlloc sb cpu st pud newAddr = (0, st₁)) :
    (rdfsInsertPage sb cpu st k ino v blocks phys).1 ≠ 0 := by
  simp only [rdfsInsertPage, hnew, hpud, hpmd]
  split_ifs <;> simp

/-- `rdfs_insert_page` without a page for the lowest level. -/
theorem rdfsInsertPage_noPte {st₁ st₂ : Nvm} {phys pmd : ℕ}
    (hpmd : rdfsPmdAlloc sb cpu st pud newAddr = (pmd, st₁))
    (hpte : rdfsPteAlloc sb cpu st₁ pmd newAddr = (0, st₂)) :
    (rdfsInsertPage sb cpu st k ino v blocks phys).1 ≠ 0 := by
  simp only [rdfsInsertPage, hnew, hpud, hpmd, hpte]
  split_ifs <;> simp

end

/-- An insertion that succeeds has found the pages it needed for the table. -/
theorem Owned.insertPage_room (h : Owned R.pages st (t.pages ++ own)) (hrep : TreeRep st.mem t)
    (hpg : inodeStruct.getField st.mem (getRdfsInodePhyAddr sb ino) .iPgAddr = t.pud)
    (haddr : AddrOk v t.ents.length) (hn : getCpuNuma sb cpu = n)
    (hr : (rdfsInsertPage sb cpu st k ino v (t.ents.length + 1) phys).1 = 0) :
    tableSize (t.ents.length + 1) ≤ (st.numaDes n).freePageCount + tableSize t.ents.length := by
  by_contra hno
  have hsize := tableSize_succ t.ents.length
  rw [← hrep.length_pmds, ← hrep.length_ptes] at hsize
  have hlen := hrep.length_pmds
  have hlen' := hrep.length_ptes
  have hlt := haddr.1
  have hpud : R.pages.IsPage t.pud := h.isPage (by simp [Tree.pages])
  have hpudAlloc := rdfsPudAlloc_eq hpg (fun h0 => R.not_isPage_zero (h0 ▸ hpud)) hlt
  by_cases hfull : t.ents.length / 2 ^ 18 = t.pmds.length ∧ (st.numaDes n).freePageCount = 0
  · -- no page for the second level
    have hd : ¬InDirArea (v + 4096 * t.ents.length) := fun hd => by
      have := (if_pos hd ▸ haddr.2.2 : _ ∧ _).2
      omega
    have hword := hrep.top 0 t.pud rfl (t.ents.length / 2 ^ 18) (by omega)
    rw [Nat.mul_zero, Nat.zero_add, tableWord_of_le _ hfull.1.ge, ← deref_rdfsVa sb] at hword
    have hpmd : Rdfs.entryAlloc pudPresent sb cpu st _ _ = (0, st) :=
      entryAlloc_full hn hfull.2 hword (pmdIndex (v + 4096 * t.ents.length))
    exact rdfsInsertPage_noPmd (newAddr_of_addrOk haddr) hpudAlloc
      (by rw [rdfsPmdAlloc, if_neg hd, hpmd]) hr
  · obtain ⟨mid, c, st₁, hr₁, hc, hmid, htab₁, -, htook₁, -⟩ :=
      h.pmdAlloc hrep haddr hn fun heq => Nat.pos_of_ne_zero fun h0 => hfull ⟨heq, h0⟩
    have hcount := htook₁.count n
    rw [if_pos rfl] at hcount
    -- no page for the lowest level
    have hlow : t.ents.length / 512 = t.ptes.length ∧ (st₁.numaDes n).freePageCount = 0 := by
      split_ifs at hmid hsize <;> omega
    have hword := htab₁.mid _ _ hc _ (Nat.mod_lt (t.ents.length / 512) (by decide))
    rw [show 512 * (t.ents.length / 2 ^ 18) + t.ents.length / 512 % 512 = t.ents.length / 512 by
      omega, tableWord_of_le _ hlow.1.ge, ← deref_rdfsVa sb] at hword
    exact rdfsInsertPage_noPte (newAddr_of_addrOk haddr) hpudAlloc hr₁
      (entryAlloc_full hn hlow.2 hword _) hr

/-! ## Building -/

/-- `BuiltTable R C ino st own ents` : the table of the inode `ino` has been built by
`rdfs_init_pg_table` and by insertions, in this order, of the pages `ents`. The insertion of page
`phys` as block `i` with the virtual area at `v` has met `C v i phys`. The pages `own` are neither
free nor pages of the table. In between the rest of the system has done what leaves the table and
`i_pg_addr` alone. -/
inductive BuiltTable (R : Region sb) (C : ℕ → ℕ → ℕ → Prop) (ino : ℕ) :
    Nvm → List ℕ → List ℕ → Prop
  | init {st st' : Nvm} {own : List ℕ} (cpu : ℕ) (howned : Owned R.pages st own)
      (hslot : R.inodes.IsSlot (getRdfsInodePhyAddr sb ino))
      (hr : rdfsInitPgTable sb cpu st ino = (0, st')) : BuiltTable R C ino st' own []
  | insert {st st' : Nvm} {own ents : List ℕ} {k k' : KernelMap} (cpu v phys : ℕ)
      (h : BuiltTable R C ino st own ents) (hC : C v ents.length phys)
      (hr : rdfsInsertPage sb cpu st k ino v (ents.length + 1) phys = (0, st', k')) :
      BuiltTable R C ino st' own (ents ++ [phys])
  | other {st st' : Nvm} {own own' ents : List ℕ} (h : BuiltTable R C ino st own ents)
      (htab : ∀ tab, Owned R.pages st (tab ++ own) →
        Owned R.pages st' (tab ++ own') ∧ ∀ p ∈ tab, Mem.SameOn st.mem st'.mem 4096 p)
      (hpg : Mem.SameOn st.mem st'.mem 8 (getRdfsInodePhyAddr sb ino + 72)) :
      BuiltTable R C ino st' own' ents

namespace BuiltTable

variable {C : ℕ → ℕ → ℕ → Prop} {ents : List ℕ}

/-- As long as every insertion puts its block where the tree has it, the table holds the blocks in
the order of their insertion. -/
theorem fileRep (hC : ∀ v i phys, C v i phys → AddrOk v i ∧ phys < 2 ^ 64)
    (h : BuiltTable R C ino st own ents) : ∃ t, t.ents = ents ∧ FileRep R st ino t own := by
  induction h with
  | init cpu howned hslot hr =>
    have hroom := howned.threeLinked_iff.1 ((rdfsInitPgTable_eq_zero_iff rfl ino).1 (by rw [hr]))
    obtain ⟨t, st₁, hr₁, hents, hrep, hown, hpg, -⟩ := howned.initPgTable rfl hslot rfl hroom
    obtain rfl : st₁ = _ := by simpa using hr₁.symm.trans hr
    exact ⟨t, hents, hslot, hown, hrep, hpg⟩
  | insert cpu v phys _ hins hr ih =>
    obtain ⟨t, rfl, hrep⟩ := ih
    obtain ⟨haddr, hphys⟩ := hC _ _ _ hins
    have hroom := hrep.owned.insertPage_room hrep.rep hrep.pgAddr haddr rfl (by rw [hr])
    obtain ⟨t', st₁, k₁, hr₁, hrep', happ, -⟩ :=
      hrep.insertPage haddr (Nat.or_lt_two_pow hphys (by decide)) rfl hroom _
    obtain ⟨rfl, -⟩ : st₁ = _ ∧ k₁ = _ := by simpa using hr₁.symm.trans hr
    exact ⟨t', happ.ents, hrep'⟩
  | other _ htab hpg ih =>
    obtain ⟨t, hents, hrep⟩ := ih
    obtain ⟨hown, hsame⟩ := htab t.pages hrep.owned
    refine ⟨t, hents, hrep.isSlot, hown, hrep.rep.congr hsame, ?_⟩
    rw [← hrep.pgAddr]
    exact Mem.load_congr hpg

end BuiltTable

/-! ## What can be inserted -/

/-- An insertion as block `i` of a file of the given mode. The area at `v` is one of that mode, or
there is none yet, and the areas of the mode have room for the block. -/
structure Insertion (mode : Fin 2) (v i : ℕ) : Prop where
  area : v = 0 ∨ v ∈ areasOf mode
  room : i < areaSize mode / 4096

/-- Not a later page of the last directory area. -/
def SeenInArea (v i : ℕ) : Prop := v + maxDirSize = rdfsStart + dirAreaSize → i = 0

instance (v i : ℕ) : Decidable (SeenInArea v i) := inferInstanceAs (Decidable (_ → _))

/-- The address of a page. -/
def IsPhys (phys : ℕ) : Prop := 4096 ∣ phys ∧ phys < 2 ^ 52

instance (phys : ℕ) : Decidable (IsPhys phys) := inferInstanceAs (Decidable (_ ∧ _))

theorem IsPhys.entry_and (h : IsPhys phys) : (phys ||| pageKernel) &&& physMask = phys := by
  rw [Nat.and_or_distrib_right, show pageKernel &&& physMask = 0 by decide, Nat.or_zero]
  exact and_mask_of_dvd (b := 51) h.1 (by have := h.2; omega)

namespace Insertion

variable {mode : Fin 2} {v i : ℕ}

theorem lt_pow (h : Insertion mode v i) : i < 2 ^ 23 := by
  have := h.room
  unfold areaSize maxFileSize maxDirSize at this
  split_ifs at this <;> omega

/-- The last directory area is one of a directory. -/
theorem last_mem {v : ℕ} (hv : v + maxDirSize = rdfsStart + dirAreaSize) : v ∈ areasOf 1 := by
  unfold maxDirSize rdfsStart dirAreaSize at hv
  exact mem_dirAreas.2 ⟨2 ^ 14 - 1, by decide, by unfold rdfsStart; omega⟩

/-- The later pages of the last directory area are no pages of directories for the code. -/
theorem not_seen (h : Insertion mode v i) (hno : ¬SeenInArea v i) :
    v + maxDirSize = rdfsStart + dirAreaSize ∧ 0 < i ∧ i < 512 := by
  obtain ⟨hv, hi⟩ := Classical.not_imp.1 hno
  refine ⟨hv, by omega, ?_⟩
  have hmem := last_mem hv
  have harea := h.area.resolve_left (ne_zero_of_mem_areasOf hmem)
  have := h.room
  rwa [mode_unique harea hmem] at this

/-- The other insertions put their block where the tree has it. -/
theorem addrOk_iff (h : Insertion mode v i) : AddrOk v i ↔ SeenInArea v i := by
  have hlt := h.lt_pow
  constructor
  · intro haddr
    by_contra hno
    obtain ⟨hv, hpos, hi⟩ := h.not_seen hno
    unfold maxDirSize rdfsStart dirAreaSize at hv
    have hadd := haddr.2.2
    rw [if_neg (by unfold InDirArea rdfsStart dirAreaSize maxDirSize; omega)] at hadd
    omega
  · intro hseen
    rcases h.area with rfl | hv
    · refine ⟨by omega, by omega, ?_⟩
      rw [if_neg (by unfold InDirArea rdfsStart; omega)]
      rfl
    · refine Fits.addrOk (n := i + 1) ?_ (Nat.lt_succ_self i)
      have hroom := h.room
      rcases node_cases mode with rfl | rfl
      · exact Or.inl ⟨hv, hroom⟩
      · exact Or.inr ⟨hv, hroom, fun heq => by rw [hseen heq]⟩

end Insertion

/-- The address of a page of the last directory area, and what the code makes of it. -/
theorem lastArea_addr {v i : ℕ} (hv : v + maxDirSize = rdfsStart + dirAreaSize) (hi : i < 512) :
    (v + (i + 1 - 1) <<< 12) % 2 ^ 64 = v + 4096 * i ∧ (0 < i → ¬InDirArea (v + 4096 * i)) ∧
      pmdIndex (v + 4096 * i) = 511 ∧ pteIndex (v + 4096 * i) = i := by
  have hvals : v = 0xffffcb0000000000 + 2 ^ 35 - 2 ^ 21 := by
    unfold maxDirSize rdfsStart dirAreaSize at hv
    omega
  have hmask : ∀ x, x &&& 511 = x % 512 := fun x => Nat.and_two_pow_sub_one_eq_mod x 9
  refine ⟨?_, fun hpos => ?_, ?_, ?_⟩
  · rw [Nat.add_sub_cancel, Nat.shiftLeft_eq]
    omega
  · unfold InDirArea rdfsStart dirAreaSize maxDirSize
    omega
  · rw [pmdIndex, hmask, Nat.shiftRight_eq_div_pow]
    omega
  · rw [pteIndex, hmask, Nat.shiftRight_eq_div_pow]
    omega

/-- The entry of the first level for a page of a directory. -/
theorem rdfsPudAlloc_dir {pud i : ℕ} {m : Mem} (hpage : R.pages.IsPage pud)
    (hpg : inodeStruct.getField m (getRdfsInodePhyAddr sb ino) .iPgAddr = pud) (hi : i < 512) :
    rdfsPudAlloc sb m ino ((i + 1 - 1) <<< 12) = rdfsVa sb pud := by
  rw [Nat.add_sub_cancel, rdfsPudAlloc_eq hpg (fun h0 => R.not_isPage_zero (h0 ▸ hpage)) (by omega)]
  rw [show i / 2 ^ 18 = 0 by omega, Nat.mul_zero, Nat.add_zero]

/-- For a later page of the last directory area the code takes the page of the second level, as it
should, but the last entry of it. -/
theorem rdfsPmdAlloc_lastArea {pud pmd v i : ℕ} (hpmd : R.pages.IsPage pmd)
    (htop : st.mem.load 8 pud = pmd ||| pageTable)
    (hv : v + maxDirSize = rdfsStart + dirAreaSize) (hpos : 0 < i) (hi : i < 512) (cpu : ℕ) :
    rdfsPmdAlloc sb cpu st (rdfsVa sb pud) (v + 4096 * i) = (rdfsVa sb (pmd + 8 * 511), st) := by
  obtain ⟨-, hd, hindex, -⟩ := lastArea_addr hv hi
  rw [rdfsPmdAlloc, if_neg (hd hpos), entryAlloc_present hpmd htop, hindex, rdfsVa_add]

/-- The first three levels on the way to a later page of the last directory area. -/
theorem FileRep.unseenEntry (h : FileRep R st ino t own) (hlt : t.ents.length < 512)
    (hv : v + maxDirSize = rdfsStart + dirAreaSize) {i : ℕ} (hpos : 0 < i) (hi : i < 512) (cpu : ℕ)
    :
    ∃ pmd pte, t.pmds = [pmd] ∧ t.ptes = [pte] ∧
      (v + (i + 1 - 1) <<< 12) % 2 ^ 64 = v + 4096 * i ∧
      rdfsPudAlloc sb st.mem ino ((i + 1 - 1) <<< 12) = rdfsVa sb t.pud ∧
      rdfsPmdAlloc sb cpu st (rdfsVa sb t.pud) (v + 4096 * i) = (rdfsVa sb (pmd + 8 * 511), st) ∧
      pteIndex (v + 4096 * i) = i ∧ st.mem.load 8 (pmd + 8 * 511) = 0 := by
  have hpmds := h.rep.length_pmds
  have hptes := h.rep.length_ptes
  obtain ⟨pmd, hpmd⟩ := length_eq_one_iff.1 (show t.pmds.length = 1 by omega)
  obtain ⟨pte, hpte⟩ := length_eq_one_iff.1 (show t.ptes.length = 1 by omega)
  obtain ⟨hnew, -, -, hindex⟩ := lastArea_addr hv hi
  have hpage : ∀ p ∈ t.pages, R.pages.IsPage p := fun p hp =>
    h.owned.isPage (mem_append_left own hp)
  refine ⟨pmd, pte, hpmd, hpte, hnew, rdfsPudAlloc_dir (hpage _ mem_cons_self) h.pgAddr hi,
    rdfsPmdAlloc_lastArea (hpage pmd (by simp [Tree.pages, hpmd])) ?_ hv hpos hi cpu, hindex, ?_⟩
  · have hword := h.rep.top 0 t.pud rfl 0 (by decide)
    rwa [hpmd, tableWord_of_lt _ (by simp)] at hword
  · have hword := h.rep.mid 0 pmd (by rw [hpmd]; rfl) 511 (by decide)
    rwa [tableWord_of_le _ (by simp [hpte])] at hword

/-- Such a page goes to a new page `q` of the lowest level. -/
theorem FileRep.insertPage_unseen (h : FileRep R st ino t own) (hpos : 0 < t.ents.length)
    (hlt : t.ents.length < 512) (hv : v + maxDirSize = rdfsStart + dirAreaSize)
    (hr : rdfsInsertPage sb cpu st k ino v (t.ents.length + 1) phys = (0, st', k')) :
    ∃ pmd pte q, t.pmds = [pmd] ∧ t.ptes = [pte] ∧ R.pages.IsPage q ∧ q ∉ t.pages ++ own ∧
      st'.mem = ((st.mem.fill 4096 q 0).store 8 (pmd + 8 * 511) (q ||| pageTable)).store 8
        (q + 8 * t.ents.length) (phys ||| pageKernel) := by
  obtain ⟨pmd, pte, hpmds, hptes, hnew, hpud, hpmd, hindex, hword⟩ :=
    h.unseenEntry hlt hv hpos hlt cpu
  have hin : pmd ∈ t.pages ++ own := by simp [Tree.pages, hpmds]
  rcases Nat.eq_zero_or_pos (st.numaDes (getCpuNuma sb cpu)).freePageCount with hc | hc
  · rw [← deref_rdfsVa sb] at hword
    exact absurd (by rw [hr])
      (rdfsInsertPage_noPte hnew hpud hpmd (entryAlloc_full rfl hc hword _))
  · obtain ⟨q, st₁, hpte, hown, -, hm, -⟩ := h.owned.entryAlloc_empty
      (show pmdPresent 0 = false from rfl) hin (by decide) hword rfl hc
      (pteIndex (v + 4096 * t.ents.length))
    have hne : ∀ {p j : ℕ}, R.pages.IsPage p → rdfsVa sb (p + j) ≠ 0 := fun {p j} hp =>
      rdfsVa_ne_zero sb fun h0 => R.not_isPage_zero (by rwa [show p = 0 by omega] at hp)
    have hq : R.pages.IsPage q := hown.isPage mem_cons_self
    rw [← rdfsVa_add] at hpte
    have hins := rdfsInsertPage_eq hnew hpud hpmd hpte
      (hne (j := 0) (h.owned.isPage (by simp [Tree.pages]))) (hne (h.owned.isPage hin)) (hne hq) k
      phys
    refine ⟨pmd, pte, q, hpmds, hptes, hq, (nodup_cons.1 hown.nodup).1, ?_⟩
    obtain ⟨rfl, -⟩ := Prod.mk.inj (Prod.mk.inj (hr.symm.trans hins)).2
    rw [rdfsSetPte, rdfsPa_rdfsVa, hm, hindex]

/-- The lookups of the directory stay as they are. -/
theorem FileRep.findReads_unseen (h : FileRep R st ino t own) (hpos : 0 < t.ents.length)
    (hlt : t.ents.length < 512) (hv : v + maxDirSize = rdfsStart + dirAreaSize)
    (hr : rdfsInsertPage sb cpu st k ino v (t.ents.length + 1) phys = (0, st', k')) {b : ℕ}
    (hb : b < 512) : findReads sb st'.mem ino b = findReads sb st.mem ino b := by
  obtain ⟨pmd, pte, q, hpmds, hptes, hq, hfresh, hmem⟩ := h.insertPage_unseen hpos hlt hv hr
  have hpage : ∀ p ∈ t.pages, R.pages.IsPage p := fun p hp =>
    h.owned.isPage (mem_append_left own hp)
  have hmid : pmd ∈ t.pages := by simp [Tree.pages, hpmds]
  -- what is apart from the new page and from the last entry of the second level
  have hload : ∀ a, a + 8 ≤ q ∨ q + 4096 ≤ a → a + 8 ≤ pmd + 8 * 511 ∨ pmd + 4096 ≤ a →
      st'.mem.load 8 a = st.mem.load 8 a := fun a h1 h2 => by
    rw [hmem, Mem.load_store_disjoint _ (by omega), Mem.load_store_disjoint _ (by omega)]
    exact Mem.load_congr ((Mem.sameOff_fill st.mem 4096 q 0).sameOn (by omega))
  have hfar : ∀ p ∈ t.pages, p + 4096 ≤ q ∨ q + 4096 ≤ p := fun p hp =>
    (hpage p hp).disjoint hq fun heq => hfresh (heq ▸ mem_append_left own hp)
  obtain ⟨hpudFar, hmidFar⟩ := h.owned.disjoint_pages
  have h1 := hpudFar pmd (by simp [hpmds])
  have h2 := hmidFar pmd (by simp [hpmds]) pte (by simp [hptes])
  refine findReads_congr ?_ fun a ha => ?_
  · have hslot := R.isSlot_disjoint_page h.isSlot hq
    have hslot' := R.isSlot_disjoint_page h.isSlot (hpage pmd hmid)
    exact hload (getRdfsInodePhyAddr sb ino + 72) (by omega) (by omega)
  · rw [h.rep.findReads_low h.pgAddr hpage (by omega) (p := pmd) (q := pte)
      (by rw [show b / 2 ^ 18 = 0 by omega, hpmds]; rfl)
      (by rw [show b / 512 = 0 by omega, hptes]; rfl)] at ha
    simp only [mem_cons, not_mem_nil, or_false] at ha
    rcases ha with rfl | rfl | rfl
    · have := hfar t.pud mem_cons_self
      exact hload _ (by omega) (by omega)
    · have := hfar pmd hmid
      exact hload _ (by omega) (by omega)
    · have := hfar pte (by simp [Tree.pages, hptes])
      exact hload _ (by omega) (by omega)

/-! ## Lookups -/

namespace BuiltTable

variable {C : ℕ → ℕ → ℕ → Prop} {ents : List ℕ} {mode : Fin 2}

theorem insert_of_eq (h : BuiltTable R C ino st own ents) {r : ℤ × Nvm × KernelMap}
    (hC : C v ents.length phys) (hr : rdfsInsertPage sb cpu st k ino v (ents.length + 1) phys = r)
    (h0 : r.1 = 0) : BuiltTable R C ino r.2.1 own (ents ++ [phys]) :=
  h.insert cpu v phys hC (hr.trans (Prod.ext h0 rfl))

/-- There are no more blocks than places for them. -/
theorem length_le {N : ℕ} (hC : ∀ v i phys, C v i phys → i < N)
    (h : BuiltTable R C ino st own ents) : ents.length ≤ N := by
  induction h with
  | init => exact Nat.zero_le N
  | insert cpu v phys _ hins _ _ =>
    rw [length_append]
    exact hC _ _ _ hins
  | other _ _ _ ih => exact ih

/-- What holds of every page inserted. -/
theorem forall_mem (hC : ∀ v i phys, C v i phys → P phys) (h : BuiltTable R C ino st own ents) :
    ∀ e ∈ ents, P e := by
  induction h with
  | init => exact fun e he => absurd he not_mem_nil
  | insert cpu v phys _ hins _ ih =>
    intro e he
    rcases mem_append.1 he with he | he
    · exact ih e he
    · exact mem_singleton.1 he ▸ hC _ _ _ hins
  | other _ _ _ ih => exact ih

/-- The insertions of a file that put their blocks, for which `P` holds, where the tree has
them. -/
def InTree (mode : Fin 2) (P : ℕ → Prop) (v i phys : ℕ) : Prop :=
  Insertion mode v i ∧ SeenInArea v i ∧ P phys

theorem tree (hP : ∀ phys, P phys → phys < 2 ^ 64)
    (h : BuiltTable R (InTree mode P) ino st own ents) :
    ∃ t, t.ents = ents ∧ FileRep R st ino t own :=
  h.fileRep fun _ _ _ hins => ⟨hins.1.addrOk_iff.2 hins.2.1, hP _ hins.2.2⟩

/-- The address that is looked up is the one that was inserted. -/
theorem lookup (h : BuiltTable R (InTree mode IsPhys) ino st own ents) {j : ℕ}
    (hj : j < ents.length) : rdfsFindDataBlock sb st.mem ino j &&& physMask = ents[j] := by
  obtain ⟨t, rfl, hrep⟩ := h.tree fun _ hphys => hphys.2.trans (by decide)
  have hlen := h.length_le fun _ _ _ hins => hins.1.lt_pow
  have hphys := h.forall_mem (fun _ _ _ hins => hins.2.2) _ (getElem_mem hj)
  rw [hrep.rep.rdfsFindDataBlock hrep.pgAddr
    (fun p hp => hrep.owned.isPage (mem_append_left own hp)) (by omega)
    (getElem?_eq_getElem hj)]
  exact hphys.entry_and

/-- After a further insertion the lookups are as before. The new block is found if and only if it
was put where the tree has it, unless it is the page at 0. -/
theorem lookup_insert (h : BuiltTable R (InTree mode IsPhys) ino st own ents)
    (hins : Insertion mode v ents.length) (hphys : IsPhys phys)
    (hr : rdfsInsertPage sb cpu st k ino v (ents.length + 1) phys = (0, st', k')) :
    (∀ j < ents.length,
      rdfsFindDataBlock sb st'.mem ino j &&& physMask =
        rdfsFindDataBlock sb st.mem ino j &&& physMask) ∧
    (rdfsFindDataBlock sb st'.mem ino ents.length &&& physMask = phys ↔
      SeenInArea v ents.length ∨ phys = 0) := by
  by_cases hseen : SeenInArea v ents.length
  · have h' := h.insert cpu v phys ⟨hins, hseen, hphys⟩ hr
    refine ⟨fun j hj => ?_, iff_of_true ?_ (Or.inl hseen)⟩
    · rw [h.lookup hj, h'.lookup (by simp; omega), getElem_append_left hj]
    · rw [h'.lookup (by simp), getElem_concat_length rfl]
  · obtain ⟨hv, hpos, hlt⟩ := hins.not_seen hseen
    obtain ⟨t, rfl, hrep⟩ := h.tree fun _ hphys => hphys.2.trans (by decide)
    have hfind : ∀ j < 512,
        rdfsFindDataBlock sb st'.mem ino j = rdfsFindDataBlock sb st.mem ino j := fun j hj => by
      rw [← findReads_snd, ← findReads_snd, hrep.findReads_unseen hpos hlt hv hr hj]
    have hpage : ∀ p ∈ t.pages, R.pages.IsPage p := fun p hp =>
      hrep.owned.isPage (mem_append_left own hp)
    have hzero : rdfsFindDataBlock sb st.mem ino t.ents.length = 0 := by
      have := hrep.rep.length_ptes
      rw [← findReads_snd]
      exact ((hrep.rep.findsNothing_iff hrep.pgAddr hpage (by omega)).2
        ⟨le_rfl, Or.inr (by omega)⟩).1
    refine ⟨fun j hj => by rw [hfind j (by omega)], ?_⟩
    rw [hfind _ hlt, hzero, Nat.zero_and, or_iff_right hseen, eq_comm]

/-- In every run whose insertions put their blocks where the tree has them, every lookup finds what
was inserted, and a further insertion changes none of them. With the further insertion every lookup
is right if and only if that one, too, puts its block where the tree has it, the page at 0 apart. -/
theorem lookup_spec (h : BuiltTable R (InTree mode IsPhys) ino st own ents) :
    (∀ j (hj : j < ents.length), rdfsFindDataBlock sb st.mem ino j &&& physMask = ents[j]) ∧
    ∀ cpu v phys k st' k', Insertion mode v ents.length → IsPhys phys →
      rdfsInsertPage sb cpu st k ino v (ents.length + 1) phys = (0, st', k') →
      (∀ j < ents.length, rdfsFindDataBlock sb st'.mem ino j &&& physMask =
        rdfsFindDataBlock sb st.mem ino j &&& physMask) ∧
      ((∀ j (hj : j < (ents ++ [phys]).length),
        rdfsFindDataBlock sb st'.mem ino j &&& physMask = (ents ++ [phys])[j]) ↔
          SeenInArea v ents.length ∨ phys = 0) := by
  refine ⟨fun j hj => h.lookup hj, fun cpu v phys k st' k' hins hphys hr => ?_⟩
  obtain ⟨hold, hnew⟩ := h.lookup_insert hins hphys hr
  refine ⟨hold, ?_⟩
  rw [← hnew]
  constructor
  · intro hall
    rw [hall ents.length (by simp), getElem_concat_length rfl]
  · intro heq j hj
    rw [length_append, length_singleton] at hj
    rcases Nat.lt_succ_iff_lt_or_eq.1 hj with hlt | rfl
    · rw [hold j hlt, h.lookup hlt, getElem_append_left hlt]
    · rw [heq, getElem_concat_length rfl]

end BuiltTable

/-! ## Blocks that were never inserted -/

/-- The table of the inode has been built from the pages `ents`, each where the tree has it, or
there is none. -/
def FileTable (R : Region sb) (mode : Fin 2) (ino : ℕ) (st : Nvm) (own ents : List ℕ) : Prop :=
  BuiltTable R (BuiltTable.InTree mode (· < 2 ^ 64)) ino st own ents ∨
    FileState R st ino none own ∧ ents = []

theorem findsNothing_perm {m : Mem} {b : ℕ} {ps qs : List ℕ} (hp : ps.Perm qs) :
    FindsNothing sb m ino b ps ↔ FindsNothing sb m ino b qs := by
  simp only [FindsNothing, WordsIn, hp.mem_iff]

theorem rdfsVa_zero_eq_zero_iff (sb : Super) : rdfsVa sb 0 = 0 ↔ sb.virtAddr = sb.phyAddr := by
  have := sb.phy_le_virt
  unfold rdfsVa
  omega

/-- Words at the bottom of physical memory, which the region leaves alone : entries that are present
and lead to the same page. -/
def lowBytes : Mem := fun x => if x < 4096 ∧ x % 8 = 0 then 0x67 else 0

namespace BuiltTable

variable {ents : List ℕ} {mode : Fin 2}

/-- In every run whose insertions put their blocks, distinct pages in use, where the tree has them
(`AddrOk` : at most `2 ^ 27` blocks, of a directory at most 512, and none of them a later page of
the last directory area), `rdfs_rm_pg_table` frees the blocks and the pages of the table, each once
and into the list of its node, writes to no other page, and clears `i_pg_addr`. -/
theorem rmPgTable_spec
    (h : BuiltTable R (fun v i phys => AddrOk v i ∧ R.pages.IsPage phys) ino st own ents)
    (hnodup : ents.Nodup) (hsub : ents ⊆ own) {tab : List ℕ}
    (htab : Owned R.pages st (tab ++ own)) :
    tab.length = tableSize ents.length ∧
    (∀ n, (freePages (rdfsRmPgTable sb st ino) n).Perm
        ((tab ++ ents).filter (· ∈ R.pages.pages n) ++ freePages st n) ∧
      ((rdfsRmPgTable sb st ino).numaDes n).freePageCount =
        ((tab ++ ents).filter (· ∈ R.pages.pages n)).length + (st.numaDes n).freePageCount) ∧
    (tab ++ ents).Nodup ∧ (∀ p ∈ tab ++ ents, ∃ n, p ∈ R.pages.pages n) ∧
    Stored st.mem (rdfsRmPgTable sb st ino).mem (getRdfsInodePhyAddr sb ino) [(.iPgAddr, 0)]
      (tab ++ ents) ∧
    inodeStruct.getField (rdfsRmPgTable sb st ino).mem (getRdfsInodePhyAddr sb ino) .iPgAddr =
      0 := by
  obtain ⟨t, rfl, hrep⟩ := h.fileRep fun _ _ _ hins => ⟨hins.1, by have := hins.2.lt; omega⟩
  have hlen := h.length_le fun _ _ _ hins => hins.1.1
  have hperm : t.pages.Perm tab := (perm_append_right_iff own).1 (hrep.owned.perm_unique htab)
  obtain ⟨rest, hrest⟩ : ∃ rest, own.Perm (t.ents ++ rest) := by
    obtain ⟨l, hl, hle⟩ := subperm_of_subset hnodup hsub
    obtain ⟨rest, hrest⟩ := hle.exists_perm_append
    exact ⟨rest, hrest.trans (hl.append_right rest)⟩
  obtain ⟨-, hstate, hstored, -⟩ := (hrep.fileState.of_perm hrest).rmPgTable (by omega)
  have hall : (t.pages ++ t.ents).Perm (tab ++ t.ents) := hperm.append_right _
  have hown : Owned R.pages st ((tab ++ t.ents) ++ rest) := by
    rw [append_assoc]
    exact htab.of_perm (hrest.append_left tab)
  have hfree := fun n => hown.freePages_perm hstate.owned n
  refine ⟨?_, fun n => ⟨hfree n, ?_⟩, (nodup_append.1 hown.nodup).1,
    fun p hp => hown.isPage (mem_append_left rest hp), hstored.mono hall.subset, hstate.pgAddr⟩
  · rw [← hperm.length_eq, hrep.rep.length_pages]
  · rw [← length_freePages, (hfree n).length_eq, length_append, length_freePages]

end BuiltTable

/-! ## Two blocks -/

/-- A new table, when two pages have been taken off the free list. -/
def tableEmpty : ℤ × Nvm :=
  rdfsInitPgTable oneNode 0 (rdfsNewBlock oneNode 0 (Region.small.mount fun _ => 0) 0 2 none).2.2 1

/-- The first of the two pages has been inserted, with the area at `v`. -/
def tableOne (v : ℕ) : ℤ × Nvm × KernelMap :=
  rdfsInsertPage oneNode 0 tableEmpty.2 ⟨fun _ => 0, fun _ => 0⟩ 1 v 1 4096

/-- Both pages have been inserted. -/
def tableTwo (v : ℕ) : ℤ × Nvm × KernelMap :=
  rdfsInsertPage oneNode 0 (tableOne v).2.1 ⟨fun _ => 0, fun _ => 0⟩ 1 v 2 8192

theorem builtTable_tableTwo {C : ℕ → ℕ → ℕ → Prop} (h₁ : C v 0 4096) (h₂ : C v 1 8192)
    (hr₁ : (tableOne v).1 = 0) (hr₂ : (tableTwo v).1 = 0) :
    BuiltTable Region.small C 1 (tableTwo v).2.1 [4096, 8192] [4096, 8192] := by
  obtain ⟨st, hr, hown, -⟩ := (Region.small.owned_mount fun _ => 0).newBlock 0 2 none 0
    (n := 0) rfl (by decide) (by decide)
  have hpages : pagesFrom (Region.small.mount fun _ => 0)
      ((Region.small.mount fun _ => 0).numaDes 0).freePagePhy 2 = [4096, 8192] := by decide +kernel
  rw [hpages, append_nil] at hown
  have hempty : rdfsInitPgTable oneNode 0 st 1 = tableEmpty := by
    rw [tableEmpty, show (2 : ℤ) = ((2 : ℕ) : ℤ) from rfl, hr]
  have hzero : tableEmpty.1 = 0 := by decide +kernel
  have hb : BuiltTable Region.small C 1 tableEmpty.2 [4096, 8192] [] :=
    .init 0 hown ⟨0, 0, Or.inl rfl, Nat.zero_le _, rfl⟩ (hempty.trans (Prod.ext hzero rfl))
  have hb₁ := hb.insert_of_eq (r := tableOne v) h₁ (by rw [tableOne]; rfl) hr₁
  exact hb₁.insert_of_eq (r := tableTwo v) h₂ (by rw [tableTwo]; rfl) hr₂

/-- The first area of regular files. -/
theorem inTree_tableTwo (h₁ : P 4096) (h₂ : P 8192) :
    BuiltTable Region.small (BuiltTable.InTree 0 P) 1 (tableTwo (rdfsStart + dirAreaSize)).2.1
      [4096, 8192] [4096, 8192] := by
  have hv : rdfsStart + dirAreaSize ∈ areasOf 0 := mem_regAreas.2 ⟨0, by decide, by decide⟩
  exact builtTable_tableTwo ⟨⟨Or.inr hv, by decide⟩, by decide, h₁⟩
    ⟨⟨Or.inr hv, by decide⟩, by decide, h₂⟩ (by decide +kernel) (by decide +kernel)

theorem lookup_spec_tableTwo : ∃ st own,
    BuiltTable Region.small (BuiltTable.InTree 0 IsPhys) 1 st own [4096, 8192] ∧
      ∀ j (hj : j < 2), rdfsFindDataBlock oneNode st.mem 1 j &&& physMask = [4096, 8192][j] :=
  have h := inTree_tableTwo (P := IsPhys) (by decide) (by decide)
  ⟨_, _, h, h.lookup_spec.1⟩

theorem rmPgTable_spec_tableTwo : ∃ st own tab,
    BuiltTable Region.small (fun v i phys => AddrOk v i ∧ Region.small.pages.IsPage phys) 1 st own
      [4096, 8192] ∧
      Owned Region.small.pages st (tab ++ own) ∧ tab.length = 3 ∧
      ∀ n, (freePages (rdfsRmPgTable oneNode st 1) n).Perm
        ((tab ++ [4096, 8192]).filter (· ∈ Region.small.pages.pages n) ++ freePages st n) := by
  have haddr : ∀ i < 2, AddrOk (rdfsStart + dirAreaSize) i := fun i hi =>
    (show Insertion 0 _ i from ⟨.inr (mem_regAreas.2 ⟨0, by decide, by decide⟩),
      hi.trans (by decide)⟩).addrOk_iff.2 fun heq => absurd heq (by decide)
  have h := builtTable_tableTwo (C := fun v i phys => AddrOk v i ∧ Region.small.pages.IsPage phys)
    (v := rdfsStart + dirAreaSize) ⟨haddr 0 (by decide), 0, by decide⟩
    ⟨haddr 1 (by decide), 0, by decide⟩ (by decide +kernel) (by decide +kernel)
  obtain ⟨t, -, hrep⟩ := h.fileRep fun _ _ _ hins => ⟨hins.1, by have := hins.2.lt; omega⟩
  obtain ⟨hlen, hfree, -⟩ := h.rmPgTable_spec (by decide) (Subset.refl _) hrep.owned
  exact ⟨_, _, t.pages, h, hrep.owned, hlen, fun n => (hfree n).1⟩

/-- The last area of directories. -/
def lastDirArea : ℕ := rdfsStart + dirAreaSize - maxDirSize

theorem builtTable_lastDirArea (h₁ : P 4096) (h₂ : P 8192) :
    BuiltTable Region.small (fun v i phys => Insertion 1 v i ∧ P phys) 1 (tableTwo lastDirArea).2.1
      [4096, 8192] [4096, 8192] := by
  have hv : lastDirArea ∈ areasOf 1 := mem_dirAreas.2 ⟨2 ^ 14 - 1, by decide, by decide⟩
  exact builtTable_tableTwo ⟨⟨Or.inr hv, by decide⟩, h₁⟩ ⟨⟨Or.inr hv, by decide⟩, h₂⟩
    (by decide +kernel) (by decide +kernel)

/-- The second page of a directory in the last area is not found. -/
theorem lastDirArea_block_lost : ∃ st own,
    BuiltTable Region.small (fun v i phys => Insertion 1 v i ∧ IsPhys phys) 1 st own [4096, 8192] ∧
      ¬∀ j (hj : j < 2), rdfsFindDataBlock oneNode st.mem 1 j &&& physMask = [4096, 8192][j] := by
  refine ⟨_, _, builtTable_lastDirArea (by decide) (by decide), fun hall => ?_⟩
  have hlost : rdfsFindDataBlock oneNode (tableTwo lastDirArea).2.1.mem 1 1 = 0 := by
    decide +kernel
  have hfound := hall 1 (by decide)
  rw [hlost] at hfound
  exact absurd hfound (by simp)

/-- Nor is it freed with the table. -/
theorem lastDirArea_block_leaks : ∃ st own,
    BuiltTable Region.small (fun v i phys => Insertion 1 v i ∧ Region.small.pages.IsPage phys) 1
      st own [4096, 8192] ∧ 8192 ∈ own ∧
      ∀ n, 8192 ∉ freePages (rdfsRmPgTable oneNode st 1) n :=
  ⟨_, _, builtTable_lastDirArea ⟨0, by decide⟩ ⟨0, by decide⟩, by decide, by decide +kernel⟩

end Rdfs
