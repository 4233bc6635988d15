import Rdfs.PageTree

/-!
# Removing a tree

`rdfs_rm_pg_table` walks the table of an inode and passes every block and every page of the
table to `rdfs_free_block`, children before their parent. The loops read an entry right before
they free what it points to, so what matters is that the pages not yet freed are as they were
(`Pending`). `TreeRep.rmPgTable` says that the pages passed to `rdfs_free_block` are those of the
tree and its blocks, in some order; `Owned.freeBlocks` turns that into ownership when they are
all owned.
-/

namespace Rdfs

open List

variable {sb : Super} {R : Region sb} {st : Nvm} {own : List ℕ} {m₀ : Mem} {t : Tree}

/-- `rdfs_free_block` on several pages in turn. -/
def freeBlocks (sb : Super) (st : Nvm) (ps : List ℕ) : Nvm := ps.foldl (rdfsFreeBlock sb) st

theorem freeBlocks_append (st : Nvm) (ps qs : List ℕ) :
    freeBlocks sb st (ps ++ qs) = freeBlocks sb (freeBlocks sb st ps) qs :=
  foldl_append

theorem freeBlocks_concat (st : Nvm) (ps : List ℕ) (p : ℕ) :
    freeBlocks sb st (ps ++ [p]) = rdfsFreeBlock sb (freeBlocks sb st ps) p :=
  freeBlocks_append st ps [p]

theorem sameOffPages_freeBlocks (ps : List ℕ) (st : Nvm) :
    SameOffPages st.mem (freeBlocks sb st ps).mem ps := by
  induction ps generalizing st with
  | nil => exact SameOffPages.refl _ _
  | cons p ps ih =>
    have hfirst : SameOffPages st.mem (rdfsFreeBlock sb st p).mem [p] :=
      SameOffPages.of_sameOff (sameOff_rdfsFreeBlock sb st p) le_rfl (by omega)
    exact (hfirst.mono (by simp)).trans ((ih _).mono (by simp))

/-- Freeing owned pages. -/
theorem Owned.freeBlocks {ps : List ℕ} (h : Owned R.pages st (ps ++ own)) :
    Owned R.pages (freeBlocks sb st ps) own ∧ SameInodes st (freeBlocks sb st ps) := by
  induction ps generalizing st with
  | nil => exact ⟨h, SameInodes.refl st⟩
  | cons p ps ih =>
    obtain ⟨hown, hsame⟩ := h.freeBlock
    obtain ⟨hown', hsame'⟩ := ih hown
    exact ⟨hown', hsame.trans hsame'⟩

/-! ## One level -/

/-- The pages still to be freed are distinct pages of the region and as they were in `m₀`. -/
structure Pending (R : Region sb) (m₀ : Mem) (rem : List ℕ) (st : Nvm) : Prop where
  isPage : ∀ p ∈ rem, R.pages.IsPage p
  nodup : rem.Nodup
  intact : ∀ p ∈ rem, Mem.SameOn m₀ st.mem 4096 p

theorem Pending.freeBlocks {rem ps rem' : List ℕ} (h : Pending R m₀ rem st)
    (hperm : rem.Perm (ps ++ rem')) : Pending R m₀ rem' (freeBlocks sb st ps) := by
  have hsub : rem' ⊆ rem := fun p hp => hperm.symm.subset (mem_append_right _ hp)
  have hsplit := nodup_append.1 (hperm.nodup_iff.1 h.nodup)
  refine ⟨fun p hp => h.isPage p (hsub hp), hsplit.2.1, fun p hp x h1 h2 => ?_⟩
  have hfree : Mem.SameOn st.mem (Rdfs.freeBlocks sb st ps).mem 4096 p :=
    (sameOffPages_freeBlocks ps st).sameOn fun q hq =>
    (h.isPage q (hperm.symm.subset (mem_append_left _ hq))).disjoint (h.isPage p (hsub hp))
      (hsplit.2.2 q hq p hp)
  exact (hfree x h1 h2).trans (h.intact p (hsub hp) x h1 h2)

/-- The word of a table page that is still there. -/
theorem Pending.word {rem tabs ents : List ℕ} {f a p j : ℕ} (h : Pending R m₀ rem st)
    (ht : Table m₀ tabs ents f) (hp : tabs[a]? = some p) (hmem : p ∈ rem) (hj : j < 512) :
    deref sb st.mem (rdfsVa sb (p + 8 * j)) = tableWord ents f (512 * a + j) := by
  have hsame := h.intact p hmem
  rw [deref_rdfsVa, ← ht a p hp j hj]
  exact Mem.load_congr fun x h1 h2 => hsame x (by omega) (by omega)

/-- A loop over the entries of the page `p` of a table. `rem i` is what is left to be freed
when entry `i` is next, and `rm` at entry `i` frees the difference. -/
theorem rmLoop_frees (rm : Nvm → ℕ → Nvm) (rem : ℕ → List ℕ) {tabs ents : List ℕ} {f a p : ℕ}
    (ht : Table m₀ tabs ents f) (hf : f ≠ 0) (hp : tabs[a]? = some p) (hmem : ∀ i, p ∈ rem i)
    (hstep : ∀ j < 512, 512 * a + j < ents.length → ∀ st, Pending R m₀ (rem (512 * a + j)) st →
      ∃ ps, rm st (rdfsVa sb (p + 8 * j)) = freeBlocks sb st ps ∧
        (rem (512 * a + j)).Perm (ps ++ rem (512 * a + j + 1)))
    (hend : ∀ i, ents.length ≤ i → rem i = rem ents.length) :
    ∀ (cnt j : ℕ), j + cnt = 512 → ∀ st, Pending R m₀ (rem (512 * a + j)) st →
      ∃ ps, rmLoop sb rm cnt (rdfsVa sb (p + 8 * j)) st = freeBlocks sb st ps ∧
        (rem (512 * a + j)).Perm (ps ++ rem (512 * (a + 1)))
  | 0, j, hj, st, h => ⟨[], rfl, by rw [show 512 * (a + 1) = 512 * a + j by omega]; rfl⟩
  | cnt + 1, j, hj, st, h => by
    have hword := h.word ht hp (hmem _) (show j < 512 by omega)
    rw [rmLoop, hword]
    split_ifs with hzero
    · have hle := (tableWord_eq_zero_iff hf).1 hzero
      refine ⟨[], rfl, ?_⟩
      rw [hend _ hle, nil_append, hend (512 * (a + 1)) (by omega)]
    · rw [tableWord_eq_zero_iff hf, Nat.not_le] at hzero
      obtain ⟨ps, hr, hperm⟩ := hstep j (by omega) hzero st h
      have hnext := h.freeBlocks hperm
      obtain ⟨qs, hr', hperm'⟩ :=
        rmLoop_frees rm rem ht hf hp hmem hstep hend cnt (j + 1) (by omega) _ hnext
      refine ⟨ps ++ qs, ?_, ?_⟩
      · rw [freeBlocks_append, ← hr', hr, ← rdfsVa_add,
          show p + 8 * j + 8 = p + 8 * (j + 1) by omega]
      · rw [append_assoc]
        exact hperm.trans (hperm'.append_left ps)

/-- The page behind an entry. -/
theorem drop_eq_cons {l : List ℕ} {i p : ℕ} (h : l[i]? = some p) :
    l.drop i = p :: l.drop (i + 1) := by
  obtain ⟨hi, rfl⟩ := List.getElem?_eq_some_iff.1 h
  exact drop_eq_getElem_cons hi

/-! ## The three levels -/

/-- An entry of the lowest level : the block it points to is freed. -/
theorem rmPte_frees {tabs ents rem rem' : List ℕ} {a p j : ℕ} (ht : Table m₀ tabs ents pageKernel)
    (hp : tabs[a]? = some p) (hj : j < 512) (hi : 512 * a + j < ents.length)
    (h : Pending R m₀ rem st) (hpmem : p ∈ rem) (hrem : rem = ents[512 * a + j] :: rem') :
    rmPte sb st (rdfsVa sb (p + 8 * j)) = freeBlocks sb st [ents[512 * a + j]] := by
  have hword := h.word ht hp hpmem hj
  rw [tableWord_of_lt _ hi] at hword
  obtain ⟨hphys, hsn, -⟩ := blockEntry_and (h.isPage ents[512 * a + j] (by simp [hrem]))
  simp only [rmPte, pteIsSn, rdfsGetPhyFromPte, hword, hphys, beq_iff_eq, if_neg hsn]
  rfl

/-- `rdfs_rm_pte_range` frees the blocks of a page of the lowest level, and the page. -/
theorem rmPteRange_frees (ht : t.Tables m₀) {a b c p : ℕ} {rest : List ℕ}
    (hc : t.pmds[b]? = some c) (hcmem : c ∈ rest) (ha : a = 512 * b + a % 512)
    (hp : t.ptes[a]? = some p)
    (h : Pending R m₀ (t.ents.drop (512 * a) ++ (t.ptes.drop a ++ rest)) st) :
    ∃ ps, rdfsRmPteRange sb st (rdfsVa sb (c + 8 * (a % 512))) = freeBlocks sb st ps ∧
      (t.ents.drop (512 * a) ++ (t.ptes.drop a ++ rest)).Perm
        (ps ++ (t.ents.drop (512 * (a + 1)) ++ (t.ptes.drop (a + 1) ++ rest))) := by
  have hpmem : ∀ i, p ∈ t.ents.drop i ++ (t.ptes.drop a ++ rest) := fun i => by
    simp [drop_eq_cons hp]
  have hword := h.word ht.mid hc (by simp [hcmem]) (Nat.mod_lt a (by decide))
  have hlt := (List.getElem?_eq_some_iff.1 hp).1
  rw [← ha, tableWord_of_lt _ hlt, (List.getElem?_eq_some_iff.1 hp).2] at hword
  obtain ⟨ps, hr, hperm⟩ := rmLoop_frees (R := R) (rmPte sb)
    (fun i => t.ents.drop i ++ (t.ptes.drop a ++ rest)) ht.low (by decide) hp hpmem
    (fun j hj hi st h => ⟨_, rmPte_frees ht.low hp hj hi h (hpmem _)
      (by rw [drop_eq_getElem_cons hi]; rfl), by
        rw [drop_eq_getElem_cons hi]
        exact List.Perm.refl _⟩)
    (fun i hi => by rw [drop_of_length_le hi, drop_of_length_le le_rfl])
    512 0 rfl st h
  refine ⟨ps ++ [p], ?_, ?_⟩
  · have hpte : rdfsGetPte sb st.mem (rdfsVa sb (c + 8 * (a % 512))) = rdfsVa sb p := by
      rw [rdfsGetPte, hword, (tableEntry_and (h.isPage p (hpmem _))).1]
    rw [Nat.mul_zero, Nat.add_zero] at hr
    simp only [rdfsRmPteRange, hpte, rdfsPa_rdfsVa, freeBlocks_concat, hr]
  · refine hperm.trans ?_
    rw [drop_eq_cons hp, append_assoc]
    exact (perm_middle.append_left ps)

/-- `rdfs_rm_pmd_range` frees what is below a page of the second level, and the page. -/
theorem rmPmdRange_frees (ht : t.Tables m₀) (hfit : t.ents.length ≤ 512 * t.ptes.length)
    {b c : ℕ} {rest : List ℕ} (hpud : t.pud ∈ rest) (hb : b < 512) (hc : t.pmds[b]? = some c)
    (h : Pending R m₀
      (t.ents.drop (512 * (512 * b)) ++ (t.ptes.drop (512 * b) ++ (t.pmds.drop b ++ rest))) st) :
    ∃ ps, rdfsRmPmdRange sb st (rdfsVa sb (t.pud + 8 * b)) = freeBlocks sb st ps ∧
      (t.ents.drop (512 * (512 * b)) ++ (t.ptes.drop (512 * b) ++ (t.pmds.drop b ++ rest))).Perm
        (ps ++ (t.ents.drop (512 * (512 * (b + 1))) ++
          (t.ptes.drop (512 * (b + 1)) ++ (t.pmds.drop (b + 1) ++ rest)))) := by
  have hcmem : c ∈ t.pmds.drop b ++ rest := by simp [drop_eq_cons hc]
  have hword := h.word ht.top (a := 0) rfl (by simp [hpud]) hb
  obtain ⟨hlt, hget⟩ := List.getElem?_eq_some_iff.1 hc
  rw [Nat.mul_zero, Nat.zero_add, tableWord_of_lt _ hlt, hget] at hword
  obtain ⟨ps, hr, hperm⟩ := rmLoop_frees (R := R) (rdfsRmPteRange sb)
    (fun i => t.ents.drop (512 * i) ++ (t.ptes.drop i ++ (t.pmds.drop b ++ rest))) ht.mid
    (by decide) hc (fun i => mem_append_right _ (mem_append_right _ hcmem))
    (fun j hj hi st h => by
      have hmod : (512 * b + j) % 512 = j := by omega
      have hrange := rmPteRange_frees ht hc hcmem (a := 512 * b + j) (by omega)
        (getElem?_eq_getElem hi) h
      rwa [hmod] at hrange)
    (fun i hi => by
      rw [drop_of_length_le hi, drop_of_length_le (le_refl t.ptes.length),
        drop_of_length_le (show t.ents.length ≤ 512 * i by omega), drop_of_length_le hfit])
    512 0 rfl st h
  refine ⟨ps ++ [c], ?_, ?_⟩
  · have hpmd : rdfsGetPmd sb st.mem (rdfsVa sb (t.pud + 8 * b)) = rdfsVa sb c := by
      have hpage := h.isPage c (mem_append_right _ (mem_append_right _ hcmem))
      rw [rdfsGetPmd, hword, (tableEntry_and hpage).1]
    rw [Nat.mul_zero, Nat.add_zero] at hr
    simp only [rdfsRmPmdRange, hpmd, rdfsPa_rdfsVa, freeBlocks_concat, hr]
  · refine hperm.trans ?_
    rw [drop_eq_cons hc, append_assoc]
    refine Perm.append_left ps (perm_iff_count.2 fun x => ?_)
    simp only [count_append, count_cons, cons_append, nil_append]
    omega

/-- `rdfs_rm_pg_table` passes the pages of the table and the blocks to `rdfs_free_block`, each
once, and clears `i_pg_addr`. -/
theorem TreeRep.rmPgTable (ht : TreeRep st.mem t)
    (hpage : ∀ p ∈ t.pages ++ t.ents, R.pages.IsPage p)
    (hnodup : (t.pages ++ t.ents).Nodup) {ino s : ℕ} (hs : getRdfsInodePhyAddr sb ino = s)
    (hpg : inodeStruct.getField st.mem s .iPgAddr = t.pud) (hlen : t.ents.length ≤ 2 ^ 27) :
    ∃ ps, ps.Perm (t.pages ++ t.ents) ∧ rdfsRmPgTable sb st ino = { freeBlocks sb st ps with
        mem := inodeStruct.putField (freeBlocks sb st ps).mem s .iPgAddr 0 } := by
  have hpmds := ht.length_pmds
  have hptes := ht.length_ptes
  have hfit : t.ents.length ≤ 512 * t.ptes.length := by omega
  have hfit' : t.ptes.length ≤ 512 * t.pmds.length := by omega
  have hpud : t.pud ≠ 0 := fun h0 =>
    R.not_isPage_zero (h0 ▸ hpage t.pud (by simp [Tree.pages]))
  have hstart : (t.pages ++ t.ents).Perm
      (t.ents.drop (512 * (512 * 0)) ++ (t.ptes.drop (512 * 0) ++ (t.pmds.drop 0 ++ [t.pud]))) :=
    perm_iff_count.2 fun x => by
      simp only [Tree.pages, count_append, count_cons, cons_append, Nat.mul_zero,
        drop_zero, count_nil]
      omega
  have hpending : Pending R st.mem _ st := ⟨fun p hp => hpage p (hstart.symm.subset hp),
    hstart.nodup_iff.1 hnodup, fun p _ x _ _ => rfl⟩
  obtain ⟨ps, hr, hperm⟩ := rmLoop_frees (R := R) (rdfsRmPmdRange sb)
    (fun i => t.ents.drop (512 * (512 * i)) ++ (t.ptes.drop (512 * i) ++
      (t.pmds.drop i ++ [t.pud]))) ht.top (by decide) (a := 0) rfl (fun i => by simp)
    (fun j hj hi st h => by
      rw [Nat.mul_zero, Nat.zero_add] at hi h ⊢
      exact rmPmdRange_frees ht.toTables hfit (by simp) hj (getElem?_eq_getElem hi) h)
    (fun i hi => by
      rw [drop_of_length_le hi, drop_of_length_le (le_refl t.pmds.length),
        drop_of_length_le (show t.ptes.length ≤ 512 * i by omega), drop_of_length_le hfit',
        drop_of_length_le (show t.ents.length ≤ 512 * (512 * i) by omega),
        drop_of_length_le (show t.ents.length ≤ 512 * (512 * t.pmds.length) by omega)])
    512 0 rfl st hpending
  have hend : t.ents.drop (512 * (512 * (512 * (0 + 1)))) ++
      (t.ptes.drop (512 * (512 * (0 + 1))) ++ (t.pmds.drop (512 * (0 + 1)) ++ [t.pud])) =
      [t.pud] := by
    rw [drop_of_length_le (by omega), drop_of_length_le (by omega), drop_of_length_le (by omega)]
    rfl
  refine ⟨ps ++ [t.pud], ?_, ?_⟩
  · exact (hend ▸ (hstart.trans hperm)).symm
  · have hget : rdfsGetPud sb st.mem ino = rdfsVa sb t.pud := by
      rw [rdfsGetPud, hs, hpg]
      exact if_neg hpud
    rw [Nat.mul_zero, Nat.add_zero] at hr
    simp only [rdfsRmPgTable, hget, hr, rdfsPa_rdfsVa, freeBlocks_concat, hs]

end Rdfs
