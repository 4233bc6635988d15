import Mathlib.Data.List.Perm.Basic
import Mathlib.Data.Nat.Find
import Rdfs.Truncate

/-!
# What the removal of a table reads

The loops of `rdfs_rm_pte_range`, `rdfs_rm_pmd_range` and `rdfs_rm_pg_table` go over the 512 entries
of a table page and stop at the first empty one. Their condition reads the entry before it looks at
the counter, so behind a page without an empty entry they read one entry more, the first word of
whatever lies there.

`rmPgTableReads` are the entries that a removal reads. The pages below a table are freed one after
the other, which writes to them ; as long as the pages of the table are different ones and no block
is one of them (`TableTree`), a page is as it was when its loop comes to it (`Standing`). So the
removal reads inside the pages if and only if every page has an empty entry
(`tableReads_inside_iff`). For the tables that the code builds this means fewer than 512 blocks
(`FileRep.readsInside_iff`).
-/

namespace Rdfs

open List

/-! ## The code -/

/-- An entry read by one of the loops, and the table page the loop walks over. -/
structure EntryRead where
  page : ℕ
  entry : ℕ

/-- The entry is one of the 512 of the page. -/
def EntryRead.Inside (r : EntryRead) : Prop := ∃ i < 512, r.entry = r.page + 8 * i

/-- The entries that `rmLoop` reads from `entry` on, with `cnt` rounds to go at most. The condition
of the loop reads the entry first, and the counter then. `below` are the entries that `rm` reads. -/
def rmLoopReads (sb : Super) (rm : Nvm → ℕ → Nvm) (below : Nvm → ℕ → List EntryRead) (page : ℕ) :
    ℕ → ℕ → Nvm → List EntryRead
  | 0, entry, _ => [⟨page, entry⟩]
  | cnt + 1, entry, st =>
    ⟨page, entry⟩ ::
      if deref sb st.mem entry = 0 then []
      else below st entry ++ rmLoopReads sb rm below page cnt (entry + 8) (rm st entry)

/-- The entries that `rdfs_rm_pte_range` reads in its loop. -/
def rmPteRangeReads (sb : Super) (st : Nvm) (pmd : ℕ) : List EntryRead :=
  let p := rdfsGetPte sb st.mem pmd
  rmLoopReads sb (rmPte sb) (fun _ _ => []) p 512 p st

/-- The entries that the loops of `rdfs_rm_pmd_range` and below read. -/
def rmPmdRangeReads (sb : Super) (st : Nvm) (pud : ℕ) : List EntryRead :=
  let p := rdfsGetPmd sb st.mem pud
  rmLoopReads sb (rdfsRmPteRange sb) (rmPteRangeReads sb) p 512 p st

/-- The entries that the loops of `rdfs_rm_pg_table` and below read. -/
def rmPgTableReads (sb : Super) (st : Nvm) (ino : ℕ) : List EntryRead :=
  let p := rdfsGetPud sb st.mem ino
  rmLoopReads sb (rdfsRmPmdRange sb) (rmPmdRangeReads sb) p 512 p st

/-! ## The pages of a table -/

/-- The number of entries of a page before the first empty one. -/
def entryCount (m : Mem) (p : ℕ) : ℕ :=
  Nat.find (⟨512, Or.inl rfl⟩ : ∃ j, j = 512 ∨ m.load 8 (p + 8 * j) = 0)

/-- The pages that the entries of a page of an upper level point to. -/
def tablesBelow (m : Mem) (p : ℕ) : List ℕ :=
  (List.range (entryCount m p)).map fun j => m.load 8 (p + 8 * j) &&& pageMask

/-- A page of the second level and the pages of the lowest level below it. -/
def pmdTables (m : Mem) (p : ℕ) : List ℕ := p :: tablesBelow m p

/-- All pages of a table. -/
def tablePages (m : Mem) (pud : ℕ) : List ℕ := pud :: (tablesBelow m pud).flatMap (pmdTables m)

/-- The blocks that the entries of a page of the lowest level point to, those of disks apart. -/
def blocksBelow (m : Mem) (p : ℕ) : List ℕ :=
  (((List.range (entryCount m p)).map fun j => m.load 8 (p + 8 * j)).filter
    fun e => e &&& 0xfff ≠ 0).map (· &&& physMask)

/-- The pages of a table are different ones, and the blocks are none of them. -/
structure TableTree (m : Mem) (pud : ℕ) : Prop where
  aligned : 4096 ∣ pud
  nodup : (tablePages m pud).Nodup
  blocks : ∀ c ∈ tablesBelow m pud, ∀ p ∈ tablesBelow m c, ∀ b ∈ blocksBelow m p,
    b ∉ tablePages m pud

/-- One of the entries is empty. -/
def HasEmpty (m : Mem) (p : ℕ) : Prop := ∃ j < 512, m.load 8 (p + 8 * j) = 0

variable {sb : Super} {m : Mem} {p : ℕ}

theorem entryCount_le (m : Mem) (p : ℕ) : entryCount m p ≤ 512 := Nat.find_min' _ (Or.inl rfl)

theorem word_ne_zero {j : ℕ} (h : j < entryCount m p) : m.load 8 (p + 8 * j) ≠ 0 :=
  fun h0 => Nat.find_min _ h (Or.inr h0)

theorem lt_entryCount_iff {j : ℕ} (hj : j ≤ entryCount m p) (hlt : j < 512) :
    j < entryCount m p ↔ m.load 8 (p + 8 * j) ≠ 0 := by
  refine ⟨word_ne_zero, fun h0 => lt_of_le_of_ne hj fun heq => ?_⟩
  rcases Nat.find_spec (⟨512, Or.inl rfl⟩ : ∃ j, j = 512 ∨ m.load 8 (p + 8 * j) = 0) with h | h
  · exact hlt.ne (heq.trans h)
  · exact h0 (heq ▸ h)

theorem entryCount_lt_iff : entryCount m p < 512 ↔ HasEmpty m p := by
  constructor
  · intro h
    refine ⟨entryCount m p, h, ?_⟩
    by_contra h0
    exact absurd ((lt_entryCount_iff le_rfl h).2 h0) (lt_irrefl _)
  · rintro ⟨j, hj, h0⟩
    exact lt_of_le_of_lt (Nat.find_min' _ (Or.inr h0)) hj

theorem dvd_and_mask {mask : ℕ} (h : mask &&& 0xfff = 0) (w : ℕ) : 4096 ∣ w &&& mask := by
  have hlow : (w &&& mask) % 2 ^ 12 = 0 := by
    rw [← Nat.and_two_pow_sub_one_eq_mod, Nat.and_assoc]
    exact (congrArg (w &&& ·) h).trans (Nat.and_zero w)
  exact Nat.dvd_of_mod_eq_zero hlow

/-! ## Pages that are as they were -/

variable {m₀ : Mem} {rem : List ℕ} {st : Nvm}

/-- The pages still to be walked over are different ones, and as they were in `m₀`. -/
structure Standing (m₀ : Mem) (rem : List ℕ) (st : Nvm) : Prop where
  aligned : ∀ q ∈ rem, 4096 ∣ q
  nodup : rem.Nodup
  intact : ∀ q ∈ rem, Mem.SameOn m₀ st.mem 4096 q

theorem Standing.perm {rem' : List ℕ} (h : Standing m₀ rem st) (hp : rem.Perm rem') :
    Standing m₀ rem' st :=
  ⟨fun q hq => h.aligned q (hp.mem_iff.2 hq), hp.nodup_iff.1 h.nodup,
    fun q hq => h.intact q (hp.mem_iff.2 hq)⟩

theorem Standing.tail (h : Standing m₀ (p :: rem) st) : Standing m₀ rem st :=
  ⟨fun q hq => h.aligned q (mem_cons_of_mem p hq), (nodup_cons.1 h.nodup).2,
    fun q hq => h.intact q (mem_cons_of_mem p hq)⟩

/-- A page that is none of them is freed. -/
theorem Standing.freeBlock (h : Standing m₀ rem st) (hd : 4096 ∣ p) (hp : p ∉ rem) :
    Standing m₀ rem (rdfsFreeBlock sb st p) := by
  refine ⟨h.aligned, h.nodup, fun q hq x h1 h2 => ?_⟩
  have hne : p ≠ q := fun heq => hp (heq ▸ hq)
  have hfree : Mem.SameOn st.mem (rdfsFreeBlock sb st p).mem 4096 q :=
    (sameOff_rdfsFreeBlock sb st p).sameOn (by have := h.aligned q hq; omega)
  exact (hfree x h1 h2).trans (h.intact q hq x h1 h2)

theorem Standing.freeHead (h : Standing m₀ (p :: rem) st) :
    Standing m₀ rem (rdfsFreeBlock sb st p) :=
  h.tail.freeBlock (h.aligned p mem_cons_self) (nodup_cons.1 h.nodup).1

theorem Standing.word (sb : Super) (h : Standing m₀ rem st) (hp : p ∈ rem) {j : ℕ} (hj : j < 512) :
    deref sb st.mem (rdfsVa sb (p + 8 * j)) = m₀.load 8 (p + 8 * j) := by
  rw [deref_rdfsVa]
  exact Mem.load_congr fun x h1 h2 => h.intact p hp x (by omega) (by omega)

/-! ## One loop -/

/-- A loop over the entries of the page `p`. `rem i` are the pages that stand when entry `i` is
next, and `Q i` says that `rm` reads inside the pages at entry `i`. -/
theorem rmLoop_walk (rm : Nvm → ℕ → Nvm) (below : Nvm → ℕ → List EntryRead) (rem : ℕ → List ℕ)
    (Q : ℕ → Prop) (hmem : ∀ i, p ∈ rem i)
    (hstep : ∀ j < entryCount m₀ p, ∀ st, Standing m₀ (rem j) st →
      Standing m₀ (rem (j + 1)) (rm st (rdfsVa sb (p + 8 * j))) ∧
      ((∀ r ∈ below st (rdfsVa sb (p + 8 * j)), r.Inside) ↔ Q j)) :
    ∀ (cnt j : ℕ), j + cnt = 512 → j ≤ entryCount m₀ p → ∀ st, Standing m₀ (rem j) st →
      Standing m₀ (rem (entryCount m₀ p)) (rmLoop sb rm cnt (rdfsVa sb (p + 8 * j)) st) ∧
      ((∀ r ∈ rmLoopReads sb rm below (rdfsVa sb p) cnt (rdfsVa sb (p + 8 * j)) st, r.Inside) ↔
        entryCount m₀ p < 512 ∧ ∀ i, j ≤ i → i < entryCount m₀ p → Q i) := by
  intro cnt
  induction cnt with
  | zero =>
    intro j hj hle st h
    have hcount : entryCount m₀ p = j := le_antisymm (by have := entryCount_le m₀ p; omega) hle
    have hout : ¬EntryRead.Inside ⟨rdfsVa sb p, rdfsVa sb (p + 8 * j)⟩ := by
      rintro ⟨i, hi, heq⟩
      rw [rdfsVa_add] at heq
      dsimp only at heq
      omega
    refine ⟨by rw [hcount]; exact h, iff_of_false (fun hall => ?_) (by omega)⟩
    exact hout (hall _ (by simp [rmLoopReads]))
  | succ cnt ih =>
    intro j hj hle st h
    have hlt : j < 512 := by omega
    have hin : EntryRead.Inside ⟨rdfsVa sb p, rdfsVa sb (p + 8 * j)⟩ := ⟨j, hlt, rdfsVa_add sb p _⟩
    rw [rmLoop, rmLoopReads, h.word sb (hmem j) hlt, forall_mem_cons]
    split_ifs with hzero
    · have hcount : entryCount m₀ p = j :=
        le_antisymm (Nat.not_lt.1 fun hlt' => word_ne_zero hlt' hzero) hle
      refine ⟨by rw [hcount]; exact h, iff_of_true ⟨hin, by simp⟩ ⟨by omega, ?_⟩⟩
      intro i h1 h2
      omega
    · have hmore := (lt_entryCount_iff hle hlt).2 hzero
      obtain ⟨hnext, hQ⟩ := hstep j hmore st h
      obtain ⟨hend, hreads⟩ := ih (j + 1) (by omega) hmore _ hnext
      have haddr : rdfsVa sb (p + 8 * j) + 8 = rdfsVa sb (p + 8 * (j + 1)) := by
        rw [← rdfsVa_add, show p + 8 * j + 8 = p + 8 * (j + 1) by omega]
      rw [haddr, forall_mem_append, hQ, hreads]
      refine ⟨hend, ?_⟩
      constructor
      · rintro ⟨-, hj', hfull, hrest⟩
        refine ⟨hfull, fun i h1 h2 => ?_⟩
        rcases Nat.eq_or_lt_of_le h1 with rfl | h1
        · exact hj'
        · exact hrest i h1 h2
      · rintro ⟨hfull, hall⟩
        exact ⟨hin, hall j le_rfl hmore, hfull, fun i h1 h2 => hall i (by omega) h2⟩

/-- The whole loop. -/
theorem rmLoop_walk_page (rm : Nvm → ℕ → Nvm) (below : Nvm → ℕ → List EntryRead)
    (rem : ℕ → List ℕ) (Q : ℕ → Prop) (hmem : ∀ i, p ∈ rem i)
    (hstep : ∀ j < entryCount m₀ p, ∀ st, Standing m₀ (rem j) st →
      Standing m₀ (rem (j + 1)) (rm st (rdfsVa sb (p + 8 * j))) ∧
      ((∀ r ∈ below st (rdfsVa sb (p + 8 * j)), r.Inside) ↔ Q j))
    (h : Standing m₀ (rem 0) st) :
    Standing m₀ (rem (entryCount m₀ p)) (rmLoop sb rm 512 (rdfsVa sb p) st) ∧
      ((∀ r ∈ rmLoopReads sb rm below (rdfsVa sb p) 512 (rdfsVa sb p) st, r.Inside) ↔
        HasEmpty m₀ p ∧ ∀ i < entryCount m₀ p, Q i) := by
  obtain ⟨hend, hreads⟩ := rmLoop_walk rm below rem Q hmem hstep 512 0 rfl (Nat.zero_le _) st h
  rw [Nat.mul_zero, Nat.add_zero] at hend hreads
  refine ⟨hend, hreads.trans ?_⟩
  rw [entryCount_lt_iff]
  simp only [Nat.zero_le, true_implies]

/-! ## The three levels -/

theorem length_tablesBelow (m : Mem) (p : ℕ) : (tablesBelow m p).length = entryCount m p := by
  rw [tablesBelow, length_map, length_range]

theorem getElem?_tablesBelow {j : ℕ} (h : j < entryCount m p) :
    (tablesBelow m p)[j]? = some (m.load 8 (p + 8 * j) &&& pageMask) := by
  rw [tablesBelow, getElem?_map, getElem?_range h, Option.map_some]

theorem forall_tablesBelow {P : ℕ → Prop} :
    (∀ i < entryCount m p, P (m.load 8 (p + 8 * i) &&& pageMask)) ↔ ∀ q ∈ tablesBelow m p, P q := by
  rw [tablesBelow, forall_mem_map]
  simp only [mem_range]

theorem drop_entryCount (m : Mem) (p : ℕ) : (tablesBelow m p).drop (entryCount m p) = [] := by
  rw [← length_tablesBelow, drop_length]

/-- An entry of the lowest level : nothing but a block is freed. -/
theorem Standing.rmPte (h : Standing m₀ (p :: rem) st)
    (hblocks : ∀ b ∈ blocksBelow m₀ p, b ∉ p :: rem) {j : ℕ} (hj : j < entryCount m₀ p) :
    Standing m₀ (p :: rem) (rmPte sb st (rdfsVa sb (p + 8 * j))) := by
  have hword := h.word sb mem_cons_self (hj.trans_le (entryCount_le m₀ p))
  rw [Rdfs.rmPte, pteIsSn, rdfsGetPhyFromPte, hword]
  split_ifs with hsn
  · exact h
  · refine h.freeBlock (dvd_and_mask (by decide) _) (hblocks _ (mem_map_of_mem ?_))
    refine mem_filter.2 ⟨mem_map_of_mem (mem_range.2 hj), ?_⟩
    simpa using hsn

/-- `rdfs_rm_pte_range` on the entry of the page `p`. -/
theorem Standing.rmPteRange {e : ℕ} (h : Standing m₀ (p :: rem) st)
    (he : deref sb st.mem e &&& pageMask = p) (hblocks : ∀ b ∈ blocksBelow m₀ p, b ∉ p :: rem) :
    Standing m₀ rem (rdfsRmPteRange sb st e) ∧
      ((∀ r ∈ rmPteRangeReads sb st e, r.Inside) ↔ HasEmpty m₀ p) := by
  have hget : rdfsGetPte sb st.mem e = rdfsVa sb p := congrArg (rdfsVa sb) he
  obtain ⟨hend, hreads⟩ := rmLoop_walk_page (Rdfs.rmPte sb) (fun _ _ => []) (fun _ => p :: rem)
    (fun _ => True) (fun _ => mem_cons_self) (fun j hj st h => ⟨h.rmPte hblocks hj, by simp⟩) h
  refine ⟨?_, ?_⟩
  · rw [rdfsRmPteRange, hget, rdfsPa_rdfsVa]
    exact hend.freeHead
  · rw [rmPteRangeReads, hget, hreads]
    simp

/-- `rdfs_rm_pmd_range` on the entry of the page `c`. -/
theorem Standing.rmPmdRange {e c : ℕ} (h : Standing m₀ (pmdTables m₀ c ++ rem) st)
    (he : deref sb st.mem e &&& pageMask = c)
    (hblocks : ∀ p ∈ tablesBelow m₀ c, ∀ b ∈ blocksBelow m₀ p, b ∉ pmdTables m₀ c ++ rem) :
    Standing m₀ rem (rdfsRmPmdRange sb st e) ∧
      ((∀ r ∈ rmPmdRangeReads sb st e, r.Inside) ↔ ∀ p ∈ pmdTables m₀ c, HasEmpty m₀ p) := by
  have hget : rdfsGetPmd sb st.mem e = rdfsVa sb c := congrArg (rdfsVa sb) he
  have hstep : ∀ j < entryCount m₀ c, ∀ st,
      Standing m₀ (c :: ((tablesBelow m₀ c).drop j ++ rem)) st →
      Standing m₀ (c :: ((tablesBelow m₀ c).drop (j + 1) ++ rem))
        (rdfsRmPteRange sb st (rdfsVa sb (c + 8 * j))) ∧
      ((∀ r ∈ rmPteRangeReads sb st (rdfsVa sb (c + 8 * j)), r.Inside) ↔
        HasEmpty m₀ (m₀.load 8 (c + 8 * j) &&& pageMask)) := by
    intro j hj st h
    have hword := h.word sb mem_cons_self (hj.trans_le (entryCount_le m₀ c))
    have hsub : c :: ((tablesBelow m₀ c).drop j ++ rem) ⊆ pmdTables m₀ c ++ rem := by
      intro x hx
      simp only [pmdTables, cons_append, mem_cons, mem_append] at hx ⊢
      exact hx.imp_right (Or.imp_left mem_of_mem_drop)
    have hp := mem_of_getElem? (getElem?_tablesBelow hj)
    rw [drop_eq_cons (getElem?_tablesBelow hj)] at h hsub
    have hswap := List.Perm.swap (m₀.load 8 (c + 8 * j) &&& pageMask) c
      ((tablesBelow m₀ c).drop (j + 1) ++ rem)
    exact (h.perm hswap).rmPteRange (by rw [hword]) fun b hb hin =>
      hblocks _ hp b hb (hsub (hswap.mem_iff.2 hin))
  obtain ⟨hend, hreads⟩ := rmLoop_walk_page (rdfsRmPteRange sb) (rmPteRangeReads sb) _ _
    (fun _ => mem_cons_self) hstep h
  rw [drop_entryCount, nil_append] at hend
  refine ⟨?_, ?_⟩
  · rw [rdfsRmPmdRange, hget, rdfsPa_rdfsVa]
    exact hend.freeHead
  · rw [rmPmdRangeReads, hget, hreads, forall_tablesBelow, pmdTables, forall_mem_cons]

theorem dvd_of_mem_tablesBelow {q : ℕ} (h : q ∈ tablesBelow m p) : 4096 ∣ q := by
  obtain ⟨j, -, rfl⟩ := mem_map.1 h
  exact dvd_and_mask (by decide) _

theorem TableTree.dvd_of_mem {pud : ℕ} (h : TableTree m pud) :
    ∀ q ∈ tablePages m pud, 4096 ∣ q := by
  intro q hq
  rcases mem_cons.1 hq with rfl | hq
  · exact h.aligned
  obtain ⟨c, hc, hq⟩ := mem_flatMap.1 hq
  rcases mem_cons.1 hq with rfl | hq
  · exact dvd_of_mem_tablesBelow hc
  · exact dvd_of_mem_tablesBelow hq

/-- `rdfs_rm_pg_table`, whose loop starts at the page `pud`. -/
theorem TableTree.readsInside_iff {ino pud : ℕ} (h : TableTree st.mem pud)
    (hget : rdfsGetPud sb st.mem ino = rdfsVa sb pud) : (∀ r ∈ rmPgTableReads sb st ino, r.Inside) ↔
      ∀ p ∈ tablePages st.mem pud, HasEmpty st.mem p := by
  set m₀ := st.mem with hm₀
  have hstart : Standing m₀ (tablePages m₀ pud) st := ⟨h.dvd_of_mem, h.nodup, fun q _ x _ _ => rfl⟩
  have hstep : ∀ j < entryCount m₀ pud, ∀ st,
      Standing m₀ (pud :: ((tablesBelow m₀ pud).drop j).flatMap (pmdTables m₀)) st →
      Standing m₀ (pud :: ((tablesBelow m₀ pud).drop (j + 1)).flatMap (pmdTables m₀))
        (rdfsRmPmdRange sb st (rdfsVa sb (pud + 8 * j))) ∧
      ((∀ r ∈ rmPmdRangeReads sb st (rdfsVa sb (pud + 8 * j)), r.Inside) ↔
        ∀ p ∈ pmdTables m₀ (m₀.load 8 (pud + 8 * j) &&& pageMask), HasEmpty m₀ p) := by
    intro j hj st hst
    have hword := hst.word sb mem_cons_self (hj.trans_le (entryCount_le m₀ pud))
    have hsub : pud :: ((tablesBelow m₀ pud).drop j).flatMap (pmdTables m₀) ⊆
        tablePages m₀ pud := by
      intro x hx
      simp only [tablePages, mem_cons, mem_flatMap] at hx ⊢
      exact hx.imp_right fun ⟨c, hc, hxc⟩ => ⟨c, mem_of_mem_drop hc, hxc⟩
    have hc := mem_of_getElem? (getElem?_tablesBelow hj)
    rw [drop_eq_cons (getElem?_tablesBelow hj), flatMap_cons] at hst hsub
    exact (hst.perm perm_middle.symm).rmPmdRange (by rw [hword]) fun p hp b hb hin =>
      h.blocks _ hc p hp b hb (hsub (perm_middle.mem_iff.1 hin))
  obtain ⟨-, hreads⟩ := rmLoop_walk_page (rdfsRmPmdRange sb) (rmPmdRangeReads sb) _ _
    (fun _ => mem_cons_self) hstep hstart
  rw [rmPgTableReads, hget, hreads, tablePages, forall_mem_cons, forall_mem_flatMap]
  exact and_congr_right' (forall_tablesBelow (P := fun c => ∀ p ∈ pmdTables m₀ c, HasEmpty m₀ p))

/-- The removal of a table reads inside its pages if and only if each of them has an empty
entry. -/
theorem tableReads_inside_iff {ino pud : ℕ}
    (hpg : inodeStruct.getField st.mem (getRdfsInodePhyAddr sb ino) .iPgAddr = pud) (h0 : pud ≠ 0)
    (htree : TableTree st.mem pud) : (∀ r ∈ rmPgTableReads sb st ino, r.Inside) ↔
      ∀ p ∈ tablePages st.mem pud, HasEmpty st.mem p := by
  refine htree.readsInside_iff ?_
  rw [rdfsGetPud, hpg]
  exact if_neg h0

/-! ## The tables of files -/

section

variable {R : Region sb} {tabs ents : List ℕ} {f a : ℕ}

theorem Table.entryCount_eq (h : Table m tabs ents f) (hf : f ≠ 0) (hp : tabs[a]? = some p) :
    entryCount m p = min 512 (ents.length - 512 * a) := by
  have hzero : ∀ j < 512, m.load 8 (p + 8 * j) = 0 ↔ ents.length ≤ 512 * a + j := fun j hj => by
    rw [h a p hp j hj, tableWord_eq_zero_iff hf]
  rw [entryCount, Nat.find_eq_iff]
  refine ⟨?_, fun k hk => ?_⟩
  · rcases Nat.lt_or_ge (ents.length - 512 * a) 512 with hlt | hge
    · exact Or.inr ((hzero _ (by omega)).2 (by omega))
    · exact Or.inl (by omega)
  · rw [hzero k (by omega)]
    omega

/-- The pages below a page of an upper level are its part of the next level. -/
theorem Table.tablesBelow_eq (h : Table m tabs ents pageTable) (hp : tabs[a]? = some p)
    (hpage : ∀ q ∈ ents, R.pages.IsPage q) : tablesBelow m p = (ents.drop (512 * a)).take 512 := by
  have hcount := h.entryCount_eq (by decide) hp
  refine ext_getElem? fun j => ?_
  rcases Nat.lt_or_ge j (entryCount m p) with hj | hj
  · rw [getElem?_tablesBelow hj, h a p hp j (by omega), tableWord_of_lt _ (by omega),
      (tableEntry_and (hpage _ (getElem_mem _))).1, getElem?_take_of_lt (by omega),
      getElem?_drop, getElem?_eq_getElem]
  · rw [getElem?_eq_none (by rwa [length_tablesBelow]), getElem?_eq_none]
    rw [length_take, length_drop]
    omega

theorem Table.mem_ents_of_blocksBelow (h : Table m tabs ents pageKernel) (hp : tabs[a]? = some p)
    (hpage : ∀ q ∈ ents, R.pages.IsPage q) {b : ℕ} (hb : b ∈ blocksBelow m p) : b ∈ ents := by
  obtain ⟨e, he, rfl⟩ := mem_map.1 hb
  obtain ⟨j, hj, rfl⟩ := mem_map.1 (mem_filter.1 he).1
  have hcount := h.entryCount_eq (by decide) hp
  rw [mem_range] at hj
  rw [h a p hp j (by omega), tableWord_of_lt _ (by omega),
    (blockEntry_and (hpage _ (getElem_mem _))).1]
  exact getElem_mem _

/-- The pages `cs`, each followed by its part of `l`. -/
theorem flatMap_parts_perm {g : ℕ → List ℕ} {cs l : List ℕ}
    (hg : ∀ b c, cs[b]? = some c → g c = c :: (l.drop (512 * b)).take 512)
    (hlen : l.length ≤ 512 * cs.length) : (cs.flatMap g).Perm (cs ++ l) := by
  induction cs generalizing l with
  | nil =>
    obtain rfl : l = [] := eq_nil_of_length_eq_zero (Nat.le_zero.1 hlen)
    exact List.Perm.refl _
  | cons c cs ih =>
    rw [length_cons] at hlen
    have hrest : (cs.flatMap g).Perm (cs ++ l.drop 512) := by
      refine ih (fun b c' hb => ?_) (by rw [length_drop]; omega)
      rw [hg (b + 1) c' (by rwa [getElem?_cons_succ]), drop_drop,
        show 512 + 512 * b = 512 * (b + 1) by omega]
    have hcomm : (l.take 512 ++ (cs ++ l.drop 512)).Perm (cs ++ (l.take 512 ++ l.drop 512)) := by
      rw [← append_assoc, ← append_assoc]
      exact perm_append_comm.append_right _
    rw [take_append_drop] at hcomm
    rw [flatMap_cons, hg 0 c rfl, Nat.mul_zero, drop_zero]
    exact ((hrest.append_left _).trans hcomm).cons c

variable {t : Tree} {own : List ℕ} {ino : ℕ}

theorem TreeRep.tablesBelow_pud (h : TreeRep m t) (hpage : ∀ q ∈ t.pmds, R.pages.IsPage q)
    (hlen : t.ents.length ≤ 2 ^ 27) : tablesBelow m t.pud = t.pmds := by
  have hpmds := h.length_pmds
  rw [h.top.tablesBelow_eq (R := R) (a := 0) rfl hpage, Nat.mul_zero, drop_zero,
    take_of_length_le (by omega)]

/-- The pages found along the entries are those of the tree. -/
theorem TreeRep.tablePages_perm (h : TreeRep m t) (hpmd : ∀ q ∈ t.pmds, R.pages.IsPage q)
    (hpte : ∀ q ∈ t.ptes, R.pages.IsPage q) (hlen : t.ents.length ≤ 2 ^ 27) :
    (tablePages m t.pud).Perm t.pages := by
  have hpmds := h.length_pmds
  have hptes := h.length_ptes
  rw [tablePages, h.tablesBelow_pud hpmd hlen]
  refine (flatMap_parts_perm (fun b c hc => ?_) (by omega)).cons t.pud
  rw [pmdTables, h.mid.tablesBelow_eq hc hpte]

/-- Every page of the tree has an empty entry if and only if there are fewer than 512 blocks. -/
theorem TreeRep.hasEmpty_iff (h : TreeRep m t) :
    (∀ p ∈ t.pages, HasEmpty m p) ↔ t.ents.length < 512 := by
  have hpmds := h.length_pmds
  have hptes := h.length_ptes
  simp only [← entryCount_lt_iff, Tree.pages, forall_mem_cons, forall_mem_append]
  constructor
  · rintro ⟨-, -, hlow⟩
    have hfirst := getElem?_eq_getElem (show 0 < t.ptes.length by omega)
    have hcount := hlow _ (mem_of_getElem? hfirst)
    rw [h.low.entryCount_eq (by decide) hfirst] at hcount
    omega
  · intro hlt
    refine ⟨?_, fun p hp => ?_, fun p hp => ?_⟩
    · rw [h.top.entryCount_eq (by decide) (show [t.pud][0]? = some t.pud from rfl)]
      omega
    · obtain ⟨a, ha⟩ := mem_iff_getElem?.1 hp
      rw [h.mid.entryCount_eq (by decide) ha]
      omega
    · obtain ⟨a, ha⟩ := mem_iff_getElem?.1 hp
      rw [h.low.entryCount_eq (by decide) ha]
      omega

/-- The pages of the table of a file. -/
theorem FileRep.isPage (h : FileRep R st ino t own) {q : ℕ} (hq : q ∈ t.pages) :
    R.pages.IsPage q := h.owned.isPage (mem_append_left _ hq)

theorem FileRep.isPage_pmd (h : FileRep R st ino t own) : ∀ q ∈ t.pmds, R.pages.IsPage q :=
  fun _ hq => h.isPage (mem_cons_of_mem _ (mem_append_left _ hq))

theorem FileRep.isPage_pte (h : FileRep R st ino t own) : ∀ q ∈ t.ptes, R.pages.IsPage q :=
  fun _ hq => h.isPage (mem_cons_of_mem _ (mem_append_right _ hq))

theorem FileRep.pud_ne_zero (h : FileRep R st ino t own) : t.pud ≠ 0 :=
  fun h0 => R.not_isPage_zero (h0 ▸ h.isPage mem_cons_self)

theorem FileRep.tablePages_perm (h : FileRep R st ino t own) (hlen : t.ents.length ≤ 2 ^ 27) :
    (tablePages st.mem t.pud).Perm t.pages :=
  h.rep.tablePages_perm h.isPage_pmd h.isPage_pte hlen

/-- The table of a file whose blocks are not pages of the table. -/
theorem FileRep.tableTree (h : FileRep R st ino t own) (hents : t.ents ⊆ own)
    (hlen : t.ents.length ≤ 2 ^ 27) : TableTree st.mem t.pud := by
  have hperm := h.tablePages_perm hlen
  obtain ⟨hnodup, -, hdisj⟩ := nodup_append.1 h.owned.nodup
  refine ⟨(h.isPage mem_cons_self).dvd, hperm.nodup_iff.2 hnodup, fun c hc p hp b hb hin => ?_⟩
  rw [h.rep.tablesBelow_pud h.isPage_pmd hlen] at hc
  obtain ⟨i, hi⟩ := mem_iff_getElem?.1 hc
  rw [h.rep.mid.tablesBelow_eq hi h.isPage_pte] at hp
  obtain ⟨a, ha⟩ := mem_iff_getElem?.1 (mem_of_mem_drop (mem_of_mem_take hp))
  have hmem := h.rep.low.mem_ents_of_blocksBelow ha
    (fun q hq => h.owned.isPage (mem_append_right _ (hents hq))) hb
  exact hdisj b (hperm.subset hin) b (hents hmem) rfl

/-- The removal of the table of a file reads inside its pages if and only if the file has fewer
than 512 blocks. -/
theorem FileRep.readsInside_iff (h : FileRep R st ino t own) (hents : t.ents ⊆ own)
    (hlen : t.ents.length ≤ 2 ^ 27) :
    (∀ r ∈ rmPgTableReads sb st ino, r.Inside) ↔ t.ents.length < 512 := by
  have hget : rdfsGetPud sb st.mem ino = rdfsVa sb t.pud := by
    rw [rdfsGetPud, h.pgAddr]
    exact if_neg h.pud_ne_zero
  rw [(h.tableTree hents hlen).readsInside_iff hget, ← h.rep.hasEmpty_iff]
  exact forall_congr' fun p => imp_congr_left (h.tablePages_perm hlen).mem_iff

end

/-- A file of up to 512 blocks on a fresh mount. -/
theorem exists_file_of_blocks {num : ℕ} (hnum : num ≤ 512) :
    ∃ t s own, rdfsAllocBlocks Region.behindTables 0 freshMaster emptyFile num 1 .pte 0 = (0, s) ∧
      FileRep Region.plain s.master.nvm emptyFile.iIno t own ∧ t.ents ⊆ own ∧
      t.ents.length = num := by
  have harea : emptyFile.iVirtAddr ∈ regAreas := mem_regAreas.2 ⟨0, by decide, rfl⟩
  have hplaced : Placed emptyFile.iVirtAddr (emptyFile.iBlocks + num) :=
    Or.inl (Or.inl ⟨harea, show 0 + num ≤ 2 ^ 23 by omega⟩)
  have hfree : ∀ j : Fin 2, (if j = 0 then 4 else 0) ≤
      (freshMaster.nvm.numaDes j).freePageCount := by decide +kernel
  have hroom : ∀ j : Fin 2,
      (if j = 0 then tableSize (emptyFile.iBlocks + num) - heldSize none else 0) +
        (if j = 0 then (freshMaster.pteCnt + num - 1) / 512 else 0) ≤
          (freshMaster.nvm.numaDes j).freePageCount := by
    intro j
    have hj := hfree j
    have hsize : tableSize (0 + num) ≤ 3 := by unfold tableSize; omega
    have hcur : (512 + num - 1) / 512 ≤ 1 := by omega
    split_ifs at hj ⊢ with h0
    · exact (Nat.add_le_add ((Nat.sub_le _ _).trans hsize) hcur).trans hj
    · exact hj
  obtain ⟨t, s, new, es, hrun, hes, hrep, hgrown, hsub, -⟩ := fileState_emptyFile.allocBlocks_pte
    rfl (⟨le_rfl, fun h => absurd h (by decide)⟩) (nil_subset _) num (rfl) rfl hplaced hroom 1 0
  have hents : t.ents = es := hgrown.ents
  exact ⟨t, s, new ++ [], hrun, hrep, hents ▸ hsub, by rw [hents, hes]⟩

/-- The table of a file of one block is read inside its pages. -/
theorem tableReads_inside_iff_oneBlock : ∃ st pud, inodeStruct.getField (Nvm.mem st)
        (getRdfsInodePhyAddr Region.behindTables emptyFile.iIno) .iPgAddr = pud ∧ pud ≠ 0 ∧
      TableTree st.mem pud ∧
      ∀ r ∈ rmPgTableReads Region.behindTables st emptyFile.iIno, r.Inside := by
  obtain ⟨t, s, own, -, hrep, hents, hlen⟩ := exists_file_of_blocks (show 1 ≤ 512 by decide)
  have htree := hrep.tableTree hents (by omega)
  refine ⟨_, _, hrep.pgAddr, hrep.pud_ne_zero, htree,
    (tableReads_inside_iff hrep.pgAddr hrep.pud_ne_zero htree).2 fun p hp => ?_⟩
  exact hrep.rep.hasEmpty_iff.2 (by omega) p ((hrep.tablePages_perm (by omega)).mem_iff.1 hp)

/-- A file of 512 blocks, that fill a page of the lowest level : the loop over that page reads an
entry behind it. -/
theorem fullPage_read_behind :
    ∃ t s own, rdfsAllocBlocks Region.behindTables 0 freshMaster emptyFile (512 : ℕ) 1 .pte 0 =
        (0, s) ∧
      FileRep Region.plain s.master.nvm emptyFile.iIno t own ∧ t.ents.length = 512 ∧
      TableTree s.master.nvm.mem t.pud ∧
      ∃ r ∈ rmPgTableReads Region.behindTables s.master.nvm emptyFile.iIno, ¬r.Inside := by
  obtain ⟨t, s, own, hrun, hrep, hents, hlen⟩ := exists_file_of_blocks le_rfl
  refine ⟨t, s, own, hrun, hrep, hlen, hrep.tableTree hents (by omega), ?_⟩
  by_contra hnone
  have hall : ∀ r ∈ rmPgTableReads Region.behindTables s.master.nvm emptyFile.iIno, r.Inside :=
    fun r hr => by_contra fun hout => hnone ⟨r, hr, hout⟩
  have hlt := (hrep.readsInside_iff hents (by omega)).1 hall
  omega

end Rdfs
