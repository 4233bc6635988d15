import Rdfs.Mapping
import Rdfs.Region
import Rdfs.WordTable

/-!
# The tree in a page table

`Tree` is what the table of an inode stands for : the page of level `pud`, the pages of the
two levels below it, and the blocks, in order. `TreeRep m t` says that the memory `m` holds
the tree `t`, every level being a `Table` over the pages of the level above.

Each operation on page tables is an operation on trees : `rdfs_init_pg_table` builds the tree
without blocks, `rdfs_insert_page` puts a block behind the last one, taking a page for a level
only when the ones there are full, and `rdfs_rm_pg_table` gives back the pages of the tree and
its blocks.
-/

namespace Rdfs

open List

variable {sb : Super}

/-! ## Entries -/

variable {p cpu a j v i slot : ℕ} {n : Fin 2} {present : ℕ → Bool} {tabs ents ps new : List ℕ}
  {m m' : Mem}

theorem and_mask_of_dvd {p b : ℕ} (hd : 4096 ∣ p) (hlt : p < 2 ^ (b + 12)) :
    p &&& (2 ^ b - 1) <<< 12 = p := by
  obtain ⟨q, rfl⟩ := hd
  have hq : q < 2 ^ b := by
    rw [Nat.pow_add] at hlt
    omega
  have hshift : 4096 * q = q <<< 12 := by rw [Nat.shiftLeft_eq, Nat.mul_comm]
  rw [hshift, ← Nat.shiftLeft_and_distrib, Nat.and_two_pow_sub_one_of_lt_two_pow hq]

variable {R : Region sb}

/-- The page an entry of an upper level points to. -/
theorem tableEntry_and (hp : R.pages.IsPage p) :
    (p ||| pageTable) &&& pageMask = p ∧ (p ||| pageTable) &&& physMask = p ∧
      p ||| pageTable < 2 ^ 64 := by
  have hlt := hp.lt
  refine ⟨?_, ?_, Nat.or_lt_two_pow (by omega) (by decide)⟩
  · rw [Nat.and_or_distrib_right, show pageTable &&& pageMask = 0 by decide, Nat.or_zero]
    exact and_mask_of_dvd (b := 52) hp.dvd (by omega)
  · rw [Nat.and_or_distrib_right, show pageTable &&& physMask = 0 by decide, Nat.or_zero]
    exact and_mask_of_dvd (b := 51) hp.dvd (by omega)

/-- The block an entry of the lowest level points to, which is no block of a disk. -/
theorem blockEntry_and (hp : R.pages.IsPage p) :
    (p ||| pageKernel) &&& physMask = p ∧ (p ||| pageKernel) &&& 0xfff ≠ 0 ∧
      p ||| pageKernel < 2 ^ 64 := by
  have hlt := hp.lt
  refine ⟨?_, ?_, Nat.or_lt_two_pow (by omega) (by decide)⟩
  · rw [Nat.and_or_distrib_right, show pageKernel &&& physMask = 0 by decide, Nat.or_zero]
    exact and_mask_of_dvd (b := 51) hp.dvd (by omega)
  · rw [Nat.and_or_distrib_right, show pageKernel &&& 0xfff = 0x163 by decide]
    intro h
    exact absurd (Nat.or_eq_zero_iff.1 h).2 (by decide)

@[simp] theorem rdfsPa_rdfsVa_add (sb : Super) (p k : ℕ) :
    rdfsPa sb (rdfsVa sb p + k) = p + k := by
  have := sb.phy_le_virt
  unfold rdfsPa rdfsVa
  omega

theorem deref_rdfsVa (sb : Super) (m : Mem) (p : ℕ) : deref sb m (rdfsVa sb p) = m.load 8 p := by
  rw [deref, rdfsPa_rdfsVa]

theorem rdfsVa_add (sb : Super) (p k : ℕ) : rdfsVa sb (p + k) = rdfsVa sb p + k := by
  have := sb.phy_le_virt
  unfold rdfsVa
  omega

theorem rdfsVa_ne_zero (sb : Super) (hp : p ≠ 0) : rdfsVa sb p ≠ 0 := by
  have := sb.phy_le_virt
  unfold rdfsVa
  omega

/-! ## Allocating pages for a table -/

variable {st : Nvm} {own : List ℕ}

/-- A cleared page from a node that has one. -/
theorem Owned.getZeroedPage (h : Owned R.pages st own) (hn : getCpuNuma sb cpu = n)
    (hc : 0 < (st.numaDes n).freePageCount) :
    ∃ p st', rdfsGetZeroedPage sb cpu st = (rdfsVa sb p, st') ∧ p ≠ 0 ∧
      Owned R.pages st' (p :: own) ∧ st'.mem = st.mem.fill 4096 p 0 ∧ Took n 1 st st' ∧
      p = (st.numaDes n).freePagePhy := by
  obtain ⟨st₁, hr, hown, hm, htook⟩ := h.newBlock cpu 1 none 0 hn hc (by decide)
  have hown' : Owned R.pages st₁ ((st.numaDes n).freePagePhy :: own) := hown
  have hp := hown'.isPage mem_cons_self
  generalize hhead : (st.numaDes n).freePagePhy = p at hr hp hown'
  have hne : p ≠ 0 := by
    rintro rfl
    exact R.not_isPage_zero hp
  refine ⟨p, { st₁ with mem := st₁.mem.fill 4096 p 0 }, ?_, hne, ?_, by rw [hm], htook.write _, rfl⟩
  · rw [rdfsGetZeroedPage]
    rw [show ((1 : ℕ) : ℤ) = 1 from rfl] at hr
    rw [hr]
    exact if_pos hne
  · refine hown'.congr (fun j => ⟨rfl, rfl⟩) fun q hq hnot => ?_
    have hsep := hq.disjoint hp fun heq => hnot (heq ▸ mem_cons_self)
    exact (Mem.sameOff_fill st₁.mem 4096 p 0).sameOn (by omega)

/-- A node without pages is left alone. -/
theorem rdfsGetZeroedPage_none (hn : getCpuNuma sb cpu = n) (hc : (st.numaDes n).freePageCount = 0)
    : rdfsGetZeroedPage sb cpu st = (0, st) := by
  have hlt : (st.numaDes (newBlockNode sb cpu none)).freePageCount < u64 1 := by
    rw [show newBlockNode sb cpu none = n from hn, hc]
    decide
  rw [rdfsGetZeroedPage, rdfsNewBlock_fail 0 hlt]
  rfl

/-- An entry that points to a page. -/
theorem entryAlloc_present {a q : ℕ} (hq : R.pages.IsPage q)
    (hword : st.mem.load 8 a = q ||| pageTable) (cpu index : ℕ) :
    entryAlloc present sb cpu st (rdfsVa sb a) index = (rdfsVa sb q + 8 * index, st) := by
  have hand := (tableEntry_and hq).2.1
  have hne : q ||| pageTable ≠ 0 := fun h => absurd (Nat.or_eq_zero_iff.1 h).2 (by decide)
  simp only [entryAlloc, deref_rdfsVa, hword, if_neg hne, hand, ne_eq, not_true_eq_false, if_false]

/-- An empty entry of an owned page gets a cleared page. -/
theorem Owned.entryAlloc_empty (h : Owned R.pages st own) (hpres : present 0 = false) (hp : p ∈ own)
    (hj : j < 512) (hword : st.mem.load 8 (p + 8 * j) = 0) (hn : getCpuNuma sb cpu = n)
    (hc : 0 < (st.numaDes n).freePageCount) (index : ℕ) :
    ∃ q st', entryAlloc present sb cpu st (rdfsVa sb (p + 8 * j)) index =
        (rdfsVa sb q + 8 * index, st') ∧
      Owned R.pages st' (q :: own) ∧ q ||| pageTable < 2 ^ 64 ∧
      st'.mem = (st.mem.fill 4096 q 0).store 8 (p + 8 * j) (q ||| pageTable) ∧
      (∀ x, q ≤ x → x < q + 4096 → st'.mem x = 0) ∧ Took n 1 st st' ∧
      SameOffPages st.mem st'.mem [q, p] := by
  obtain ⟨q, st₁, hr, hne, hown, hm, htook, -⟩ := h.getZeroedPage hn hc
  have hq : R.pages.IsPage q := hown.isPage mem_cons_self
  have hpq : p + 4096 ≤ q ∨ q + 4096 ≤ p := (h.isPage hp).disjoint hq fun heq =>
    (nodup_cons.1 hown.nodup).1 (heq ▸ hp)
  have hfill := Mem.sameOff_fill st.mem 4096 q 0
  have hword₁ : st₁.mem.load 8 (p + 8 * j) = 0 := by
    rw [hm, Mem.load_congr (hfill.sameOn (by omega)), hword]
  obtain ⟨-, hand, hlt⟩ := tableEntry_and hq
  have hstore := Mem.sameOff_store st₁.mem 8 (p + 8 * j) (q ||| pageTable)
  have hload := Mem.load_store_of_lt (n := 8) st₁.mem (p + 8 * j) hlt
  refine ⟨q, { st₁ with mem := st₁.mem.store 8 (p + 8 * j) (q ||| pageTable) }, ?_, ?_, hlt,
    by rw [hm], ?_, htook.write _, ?_⟩
  · simp only [entryAlloc, tableAlloc, deref_rdfsVa, hword, hr, if_true, rdfsVa_ne_zero sb hne,
      if_false, hword₁, hpres, Bool.false_eq_true, rdfsSetPmd, rdfsPa_rdfsVa, ne_eq,
      not_true_eq_false, hload, hand]
  · refine hown.congr (fun k => ⟨rfl, rfl⟩) fun r hr hnot => hstore.sameOn ?_
    have := hr.disjoint (h.isPage hp) fun heq => hnot (heq ▸ mem_cons_of_mem _ hp)
    omega
  · intro x h1 h2
    refine (hstore x (by omega)).trans ?_
    rw [hm]
    exact if_pos ⟨h1, h2⟩
  · intro x hx
    refine (hstore x fun hx' => hx p (by simp) (by omega)).trans ?_
    rw [hm]
    exact hfill x (hx q (by simp))

/-- Going down one level : the page of the next level that entry `512 * a + j` points to, a
new one if the entry is the first empty one. -/
theorem Owned.entryAlloc (h : Owned R.pages st own) (present : ℕ → Bool) (hpres : present 0 = false)
    (hsub : tabs ⊆ own) (hents : ents ⊆ own) (hnodup : tabs.Nodup)
    (ht : Table st.mem tabs ents pageTable) (hp : tabs[a]? = some p) (hj : j < 512)
    (hi : 512 * a + j ≤ ents.length) (hn : getCpuNuma sb cpu = n)
    (hc : 512 * a + j = ents.length → 0 < (st.numaDes n).freePageCount) (index : ℕ) :
    ∃ new c st', entryAlloc present sb cpu st (rdfsVa sb (p + 8 * j)) index =
        (rdfsVa sb c + 8 * index, st') ∧
      (ents ++ new)[512 * a + j]? = some c ∧
      new.length = (if 512 * a + j = ents.length then 1 else 0) ∧
      Owned R.pages st' (new ++ own) ∧ Table st'.mem tabs (ents ++ new) pageTable ∧
      (∀ q ∈ new, ∀ x, q ≤ x → x < q + 4096 → st'.mem x = 0) ∧ Took n new.length st st' ∧
      SameOffPages st.mem st'.mem (new ++ [p]) := by
  rcases Nat.lt_or_eq_of_le hi with hlt | heq
  · refine ⟨[], ents[512 * a + j], st, ?_, ?_, by simp [hlt.ne], h, ?_, by simp, Took.refl n st,
      SameOffPages.refl _ _⟩
    · have hword := ht a p hp j hj
      rw [tableWord_of_lt _ hlt] at hword
      exact entryAlloc_present (h.isPage (hents (getElem_mem hlt))) hword cpu index
    · simp [hlt]
    · rwa [append_nil]
  · have hword : st.mem.load 8 (p + 8 * j) = 0 := by
      rw [ht a p hp j hj, heq, tableWord_of_le _ le_rfl]
    obtain ⟨q, st', hr, hown, hlt, hm, hzero, htook, hsame⟩ :=
      h.entryAlloc_empty hpres (hsub (mem_of_getElem? hp)) hj hword hn (hc heq) index
    have hcleared : Table (st.mem.fill 4096 q 0) tabs ents pageTable := ht.congr fun r hr =>
      (Mem.sameOff_fill st.mem 4096 q 0).sameOn (by
        have := hown.disjoint (mem_cons_of_mem q (hsub hr)) mem_cons_self fun heq =>
          (nodup_cons.1 hown.nodup).1 (heq ▸ hsub hr)
        omega)
    refine ⟨[q], q, st', hr, by simp [heq], by simp [heq], hown, ?_, by simpa using hzero, htook,
      hsame⟩
    rw [hm]
    exact hcleared.push hnodup (h.sep tabs hsub) hp hj heq.symm hlt

/-! ## Trees -/

/-- What the table of an inode stands for : the pages of its three levels and the blocks. -/
structure Tree where
  pud : ℕ
  pmds : List ℕ
  ptes : List ℕ
  ents : List ℕ

/-- The pages the table itself takes. -/
def Tree.pages (t : Tree) : List ℕ := t.pud :: (t.pmds ++ t.ptes)

/-- `t'` has the pages of `t`, and more behind them on the lower levels. -/
structure Tree.Grows (t t' : Tree) : Prop where
  pud : t'.pud = t.pud
  pmds : t.pmds <+: t'.pmds
  ptes : t.ptes <+: t'.ptes

theorem Tree.Grows.refl (t : Tree) : t.Grows t := ⟨rfl, prefix_rfl, prefix_rfl⟩

theorem Tree.Grows.trans {t t' t'' : Tree} (h : t.Grows t') (h' : t'.Grows t'') : t.Grows t'' :=
  ⟨h'.pud.trans h.pud, h.pmds.trans h'.pmds, h.ptes.trans h'.ptes⟩

theorem Tree.Grows.pages {t t' : Tree} (h : t.Grows t') : t.pages ⊆ t'.pages := by
  intro p hp
  simp only [Tree.pages, mem_cons, mem_append] at hp ⊢
  rcases hp with rfl | hp | hp
  · exact Or.inl h.pud.symm
  · exact Or.inr (Or.inl (h.pmds.subset hp))
  · exact Or.inr (Or.inr (h.ptes.subset hp))

/-- How many pages a table for `n` blocks takes. -/
def tableSize (n : ℕ) : ℕ := 1 + ((n - 1) / 2 ^ 18 + 1) + ((n - 1) / 512 + 1)

/-- The memory holds the three levels of the tree. -/
structure Tree.Tables (m : Mem) (t : Tree) : Prop where
  top : Table m [t.pud] t.pmds pageTable
  mid : Table m t.pmds t.ptes pageTable
  low : Table m t.ptes t.ents pageKernel

/-- The memory holds the tree, which has as many pages on each level as its blocks need, one
at least. -/
structure TreeRep (m : Mem) (t : Tree) : Prop extends Tree.Tables m t where
  length_pmds : t.pmds.length = (t.ents.length - 1) / 2 ^ 18 + 1
  length_ptes : t.ptes.length = (t.ents.length - 1) / 512 + 1

theorem TreeRep.length_pages {t : Tree} (h : TreeRep m t) :
    t.pages.length = tableSize t.ents.length := by
  simp only [Tree.pages, length_cons, length_append, h.length_pmds, h.length_ptes, tableSize]
  omega

theorem TreeRep.congr {t : Tree} (h : TreeRep m t) (hm : ∀ p ∈ t.pages, Mem.SameOn m m' 4096 p) :
    TreeRep m' t := by
  simp only [Tree.pages, mem_cons, mem_append] at hm
  refine ⟨⟨h.top.congr fun p hp => hm p (Or.inl ?_), h.mid.congr fun p hp => hm p ?_,
    h.low.congr fun p hp => hm p ?_⟩, h.length_pmds, h.length_ptes⟩
  · exact mem_singleton.1 hp
  · exact Or.inr (Or.inl hp)
  · exact Or.inr (Or.inr hp)

/-- Block `i` of an inode whose virtual area starts at `v` has its entry where the tree has
it. In the area of directories the code looks at the first `pmd` entry only, elsewhere it
takes the entry from the address. -/
def AddrOk (v i : ℕ) : Prop :=
  i < 2 ^ 27 ∧ v + 4096 * i < 2 ^ 64 ∧
    if InDirArea (v + 4096 * i) then v % 2 ^ 21 = 0 ∧ i < 512 else v % 2 ^ 30 = 0

theorem newAddr_of_addrOk (h : AddrOk v i) : (v + (i + 1 - 1) <<< 12) % 2 ^ 64 = v + 4096 * i := by
  have := h.2.1
  rw [Nat.add_sub_cancel, Nat.shiftLeft_eq]
  omega

theorem pteIndex_of_addrOk (h : AddrOk v i) : pteIndex (v + 4096 * i) = i % 512 := by
  obtain ⟨-, -, hv⟩ := h
  rw [pteIndex, show (511 : ℕ) = 2 ^ 9 - 1 from rfl, Nat.and_two_pow_sub_one_eq_mod,
    Nat.shiftRight_eq_div_pow]
  split_ifs at hv <;> omega

theorem pmdIndex_of_addrOk (h : AddrOk v i) (hd : ¬InDirArea (v + 4096 * i)) :
    pmdIndex (v + 4096 * i) = i / 512 % 512 := by
  obtain ⟨-, -, hv⟩ := h
  rw [if_neg hd] at hv
  rw [pmdIndex, show (511 : ℕ) = 2 ^ 9 - 1 from rfl, Nat.and_two_pow_sub_one_eq_mod,
    Nat.shiftRight_eq_div_pow]
  omega

/-! ## The empty table -/

/-- The memories agree off a slot and the pages `ps`. -/
def SameBut (m m' : Mem) (slot : ℕ) (ps : List ℕ) : Prop :=
  ∀ x, ¬(slot ≤ x ∧ x < slot + 128) → (∀ p ∈ ps, ¬(p ≤ x ∧ x < p + 4096)) → m' x = m x

theorem SameBut.trans {m'' : Mem} (h : SameBut m m' slot ps) (h' : SameBut m' m'' slot ps) :
    SameBut m m'' slot ps :=
  fun x hx hps => (h' x hx hps).trans (h x hx hps)

theorem SameOffPages.sameBut {qs : List ℕ} (h : SameOffPages m m' ps) (hs : ps ⊆ qs) (slot : ℕ) :
    SameBut m m' slot qs :=
  fun x _ hps => h x fun p hp => hps p (hs hp)

theorem sameBut_of_sameOff (h : Mem.SameOff m m' 128 slot) (ps : List ℕ) : SameBut m m' slot ps :=
  fun x hx _ => h x hx

theorem SameBut.sameOn (h : SameBut m m' slot ps) {q k : ℕ} (hslot : slot + 128 ≤ q ∨ q + k ≤ slot)
    (hps : ∀ p ∈ ps, p + 4096 ≤ q ∨ q + k ≤ p) : Mem.SameOn m m' k q := by
  intro x h1 h2
  refine h x (by omega) fun p hp => ?_
  have := hps p hp
  omega

/-- The memories agree off the pages `ps`, but for the fields `ws` that are stored in a slot. -/
def Stored (m m' : Mem) (slot : ℕ) (ws : List (InodeField × ℕ)) (ps : List ℕ) : Prop :=
  SameOffPages (inodeStruct.putFields m slot ws) m' ps

namespace Stored

variable {m m' m'' : Mem} {slot : ℕ} {ws ws' : List (InodeField × ℕ)} {ps qs : List ℕ}

theorem trans (h : Stored m m' slot ws ps) (h' : Stored m' m'' slot ws' ps) :
    Stored m m'' slot (ws ++ ws') ps := by
  intro x hx
  rw [h' x hx, CStruct.putFields_append]
  exact inodeStruct.putFields_congr slot ws' (h x hx)

theorem mono (h : Stored m m' slot ws ps) (hs : ps ⊆ qs) : Stored m m' slot ws qs :=
  SameOffPages.mono h hs

theorem sameBut (h : Stored m m' slot ws ps)
    (hws : ∀ w ∈ ws, w.1 ≠ .iColdPageStart ∧ w.1 ≠ .iColdPageNum) : SameBut m m' slot ps :=
  fun x hx hps => (h x hps).trans (sameOff_putFields_slot m slot ws hws x hx)

end Stored

theorem SameOffPages.stored (h : SameOffPages m m' ps) (slot : ℕ) : Stored m m' slot [] ps := h

theorem stored_putFields (m : Mem) (slot : ℕ) (ws : List (InodeField × ℕ)) (ps : List ℕ) :
    Stored m (inodeStruct.putFields m slot ws) slot ws ps :=
  SameOffPages.refl _ _

/-- The stores of `rdfs_init_pg_table` to three zeroed pages. -/
theorem TreeRep.first {pud pmd pte slot : ℕ} (hslot : R.inodes.IsSlot slot)
    (hpud : R.pages.IsPage pud) (hpmd : R.pages.IsPage pmd) (hpte : R.pages.IsPage pte)
    (h₁ : pmd ≠ pud) (h₂ : pte ≠ pud) (h₃ : pte ≠ pmd)
    (hzero : ∀ p ∈ [pud, pmd, pte], ∀ x, p ≤ x → x < p + 4096 → m x = 0)
    (hm' : m' = inodeStruct.putField ((m.store 8 pmd (pte ||| pageTable)).store 8 pud
      (pmd ||| pageTable)) slot .iPgAddr pud) :
    TreeRep m' ⟨pud, [pmd], [pte], []⟩ ∧ inodeStruct.getField m' slot .iPgAddr = pud ∧
      Stored m m' slot [(.iPgAddr, pud)] [pud, pmd] := by
  have h21 := hpmd.disjoint hpud h₁
  have h31 := hpte.disjoint hpud h₂
  have h32 := hpte.disjoint hpmd h₃
  have hs₁ := R.isSlot_disjoint_page hslot hpud
  have hs₂ := R.isSlot_disjoint_page hslot hpmd
  have hs₃ := R.isSlot_disjoint_page hslot hpte
  simp only [mem_cons, not_mem_nil, or_false, forall_eq_or_imp, forall_eq] at hzero
  set m₁ := m.store 8 pmd (pte ||| pageTable) with hm₁
  set m₂ := m₁.store 8 pud (pmd ||| pageTable) with hm₂
  have hf₁ : Mem.SameOff m m₁ 8 pmd := Mem.sameOff_store _ _ _ _
  have hf₂ : Mem.SameOff m₁ m₂ 8 pud := Mem.sameOff_store _ _ _ _
  have hf₃ : Mem.SameOff m₂ m' 128 slot :=
    hm' ▸ sameOff_putFields_slot m₂ slot [(.iPgAddr, pud)] (by simp)
  have hsep : ∀ p : ℕ, Sep 4096 [p] := fun p a ha b hb hne => by simp_all
  refine ⟨⟨⟨?_, ?_, ?_⟩, by simp, by simp⟩, ?_, ?_⟩
  · have hpush := (Table.empty (m := m₁) (p := pud) (fun x h1 h2 => (hf₁ x (by omega)).trans
      (hzero.1 x h1 h2)) pageTable).push (a := 0) (j := 0) (e := pmd) (nodup_singleton _)
      (hsep pud) rfl (by decide) rfl (tableEntry_and hpmd).2.2
    refine hpush.congr fun p hp => ?_
    obtain rfl := mem_singleton.1 hp
    exact hf₃.sameOn (by omega)
  · have hpush := (Table.empty (m := m) (p := pmd) hzero.2.1 pageTable).push (a := 0) (j := 0)
      (e := pte) (nodup_singleton _) (hsep pmd) rfl (by decide) rfl (tableEntry_and hpte).2.2
    refine hpush.congr fun p hp x h1 h2 => ?_
    obtain rfl := mem_singleton.1 hp
    exact (hf₃ x (by omega)).trans (hf₂ x (by omega))
  · refine Table.empty (fun x h1 h2 => ?_) pageKernel
    exact (hf₃ x (by omega)).trans
      ((hf₂ x (by omega)).trans ((hf₁ x (by omega)).trans (hzero.2.2 x h1 h2)))
  · have hlt := hpud.lt
    rw [hm', CStruct.getField_putField]
    exact Nat.mod_eq_of_lt (lt_trans (show pud < 2 ^ 63 by omega) (by decide))
  · intro x hps
    simp only [mem_cons, not_mem_nil, or_false, forall_eq_or_imp, forall_eq] at hps
    rw [hm']
    refine inodeStruct.putFields_congr slot [(.iPgAddr, pud)] ?_
    exact (hf₂ x (by omega)).trans (hf₁ x (by omega))

/-- A new table has one page on each level and no blocks. -/
theorem Owned.initPgTable (h : Owned R.pages st own) {ino s : ℕ}
    (hs : getRdfsInodePhyAddr sb ino = s) (hslot : R.inodes.IsSlot s) (hn : getCpuNuma sb cpu = n)
    (hc : 3 ≤ (st.numaDes n).freePageCount) :
    ∃ t st', rdfsInitPgTable sb cpu st ino = (0, st') ∧ t.ents = [] ∧ TreeRep st'.mem t ∧
      Owned R.pages st' (t.pages ++ own) ∧ inodeStruct.getField st'.mem s .iPgAddr = t.pud ∧
      Took n 3 st st' ∧
      Stored st.mem st'.mem s [(.iPgAddr, (st.numaDes n).freePagePhy)] t.pages := by
  obtain ⟨pud, st₁, hr₁, hne₁, hown₁, hm₁, ht₁, hhead⟩ := h.getZeroedPage hn (by omega)
  have hc₁ := ht₁.count n
  rw [if_pos rfl] at hc₁
  obtain ⟨pmd, st₂, hr₂, hne₂, hown₂, hm₂, ht₂, -⟩ := hown₁.getZeroedPage hn (by omega)
  have hc₂ := ht₂.count n
  rw [if_pos rfl] at hc₂
  obtain ⟨pte, st₃, hr₃, hne₃, hown₃, hm₃, ht₃, -⟩ := hown₂.getZeroedPage hn (by omega)
  obtain ⟨hpte, hpmd, hpud, -⟩ : pte ∉ pmd :: pud :: own ∧ pmd ∉ pud :: own ∧ pud ∉ own ∧ _ := by
    simpa only [nodup_cons] using hown₃.nodup
  simp only [mem_cons, not_or] at hpte hpmd
  have hpage : ∀ p ∈ pte :: pmd :: pud :: own, R.pages.IsPage p := fun p hp => hown₃.isPage hp
  simp only [mem_cons, forall_eq_or_imp] at hpage
  obtain ⟨hpg₃, hpg₂, hpg₁, -⟩ := hpage
  have hzero : ∀ p ∈ [pud, pmd, pte], ∀ x, p ≤ x → x < p + 4096 → st₃.mem x = 0 := by
    intro p hp x hx hx'
    simp only [mem_cons, not_mem_nil, or_false] at hp
    rw [hm₃, hm₂, hm₁]
    unfold Mem.fill
    split_ifs <;> first | rfl | omega
  have hfill : SameOffPages st.mem st₃.mem [pud, pmd, pte] := by
    intro x hps
    simp only [mem_cons, not_mem_nil, or_false, forall_eq_or_imp, forall_eq] at hps
    rw [hm₃, hm₂, hm₁]
    unfold Mem.fill
    split_ifs <;> first | rfl | omega
  obtain ⟨m', hm'⟩ : ∃ m', m' = inodeStruct.putField ((st₃.mem.store 8 pmd
      (pte ||| pageTable)).store 8 pud (pmd ||| pageTable)) s .iPgAddr pud := ⟨_, rfl⟩
  obtain ⟨hrep, hpg, hstored⟩ := TreeRep.first hslot hpg₁ hpg₂ hpg₃ hpmd.1 hpte.2.1 hpte.1 hzero hm'
  refine ⟨⟨pud, [pmd], [pte], []⟩, { st₃ with mem := m' }, ?_, rfl, hrep, ?_, hpg,
    ((ht₁.trans ht₂).trans ht₃).write m', ?_⟩
  · have hnz : ¬(rdfsVa sb pud = 0 ∨ rdfsVa sb pmd = 0 ∨ rdfsVa sb pte = 0) := by
      simp [rdfsVa_ne_zero, hne₁, hne₂, hne₃]
    simp only [rdfsInitPgTable, hr₁, hr₂, hr₃, if_neg hnz, rdfsSetPmd, rdfsSetPud, rdfsPa_rdfsVa,
      hs, ← hm']
  · have hperm : (pte :: pmd :: pud :: own).Perm (pud :: pmd :: pte :: own) :=
      perm_iff_count.2 fun a => by simp only [count_cons]; omega
    refine (hown₃.of_perm hperm).congr (fun j => ⟨rfl, rfl⟩) fun q hq hnot => ?_
    simp only [mem_cons, not_or] at hnot
    refine (hstored.sameBut (by simp)).sameOn (R.isSlot_disjoint_page hslot hq) fun p hp => ?_
    simp only [mem_cons, not_mem_nil, or_false] at hp
    rcases hp with rfl | rfl
    · exact hpg₁.disjoint hq (Ne.symm hnot.1)
    · exact hpg₂.disjoint hq (Ne.symm hnot.2.1)
  · rw [← hhead]
    exact (hfill.stored s).trans (hstored.mono (by simp))

/-- A page from a node with a list that starts at a page. -/
theorem rdfsGetZeroedPage_head (hn : getCpuNuma sb cpu = n) (hc : 0 < (st.numaDes n).freePageCount)
    (hp : (st.numaDes n).freePagePhy ≠ 0) :
    ∃ st', rdfsGetZeroedPage sb cpu st = (rdfsVa sb (st.numaDes n).freePagePhy, st') ∧
      st'.mem = st.mem.fill 4096 (st.numaDes n).freePagePhy 0 ∧ st'.numaDes n = { st.numaDes n with
        freePagePhy := st.mem.load 8 (st.numaDes n).freePagePhy
        freePageCount := (st.numaDes n).freePageCount - 1 } := by
  obtain ⟨st₁, hr, hm, hd, -⟩ :=
    rdfsNewBlock_ok (k := 1) 0 (show newBlockNode sb cpu none = n from hn) (by decide) hc
  rw [show ((1 : ℕ) : ℤ) = 1 from rfl] at hr
  refine ⟨{ st₁ with mem := st₁.mem.fill 4096 (st.numaDes n).freePagePhy 0 }, ?_, by rw [hm], hd⟩
  rw [rdfsGetZeroedPage, hr]
  exact if_pos hp

/-- There is no page in a node that has none, or whose list starts with a null pointer. -/
theorem rdfsGetZeroedPage_eq_zero_iff (hn : getCpuNuma sb cpu = n) :
    (rdfsGetZeroedPage sb cpu st).1 = 0 ↔
      (st.numaDes n).freePageCount = 0 ∨ (st.numaDes n).freePagePhy = 0 := by
  rcases Nat.eq_zero_or_pos (st.numaDes n).freePageCount with hc | hc
  · exact iff_of_true (by rw [rdfsGetZeroedPage_none hn hc]) (Or.inl hc)
  · by_cases hp : (st.numaDes n).freePagePhy = 0
    · obtain ⟨st₁, hr, -⟩ :=
        rdfsNewBlock_ok (k := 1) 0 (show newBlockNode sb cpu none = n from hn) (by decide) hc
      rw [show ((1 : ℕ) : ℤ) = 1 from rfl, hp] at hr
      refine iff_of_true ?_ (Or.inr hp)
      rw [rdfsGetZeroedPage, hr]
      rfl
    · obtain ⟨st₁, hr, -⟩ := rdfsGetZeroedPage_head hn hc hp
      rw [hr]
      exact iff_of_false (rdfsVa_ne_zero sb hp) (not_or.2 ⟨hc.ne', hp⟩)

/-- Three pages can be taken from the list of node `n`, one after the other. A page is cleared when
it is taken. -/
def ThreeLinked (st : Nvm) (n : Fin 2) : Prop :=
  let p := (st.numaDes n).freePagePhy
  let q := st.mem.load 8 p
  3 ≤ (st.numaDes n).freePageCount ∧ p ≠ 0 ∧ q ≠ 0 ∧ (st.mem.fill 4096 p 0).load 8 q ≠ 0

instance (st : Nvm) (n : Fin 2) : Decidable (ThreeLinked st n) :=
  inferInstanceAs (Decidable (_ ∧ _))

/-- What `rdfs_init_pg_table` makes of the three results. -/
theorem rdfsInitPgTable_fst {r₁ r₂ r₃ : ℕ × Nvm} (h₁ : rdfsGetZeroedPage sb cpu st = r₁)
    (h₂ : rdfsGetZeroedPage sb cpu r₁.2 = r₂) (h₃ : rdfsGetZeroedPage sb cpu r₂.2 = r₃) (ino : ℕ) :
    (rdfsInitPgTable sb cpu st ino).1 = if r₁.1 = 0 ∨ r₂.1 = 0 ∨ r₃.1 = 0 then -pgFaild else 0 := by
  simp only [rdfsInitPgTable, h₁, h₂, h₃]
  split_ifs <;> rfl

/-- `rdfs_init_pg_table` succeeds if and only if it finds three pages. -/
theorem rdfsInitPgTable_eq_zero_iff (hn : getCpuNuma sb cpu = n) (ino : ℕ) :
    (rdfsInitPgTable sb cpu st ino).1 = 0 ↔ ThreeLinked st n := by
  generalize h₁ : rdfsGetZeroedPage sb cpu st = r₁
  generalize h₂ : rdfsGetZeroedPage sb cpu r₁.2 = r₂
  generalize h₃ : rdfsGetZeroedPage sb cpu r₂.2 = r₃
  have hcode : (rdfsInitPgTable sb cpu st ino).1 = 0 ↔ r₁.1 ≠ 0 ∧ r₂.1 ≠ 0 ∧ r₃.1 ≠ 0 := by
    rw [rdfsInitPgTable_fst h₁ h₂ h₃, ite_eq_right_iff]
    have hfail : -pgFaild ≠ 0 := by decide
    tauto
  rw [hcode]
  by_cases hs₀ : (st.numaDes n).freePageCount = 0 ∨ (st.numaDes n).freePagePhy = 0
  · have hnull := (rdfsGetZeroedPage_eq_zero_iff hn).2 hs₀
    rw [h₁] at hnull
    refine iff_of_false (fun h => h.1 hnull) fun h => ?_
    rcases hs₀ with hc | hp
    · have := h.1
      omega
    · exact h.2.1 hp
  obtain ⟨hc, hp⟩ := not_or.1 hs₀
  obtain ⟨st₁, hr₁, hm₁, hd₁⟩ := rdfsGetZeroedPage_head hn (Nat.pos_of_ne_zero hc) hp
  rw [hr₁] at h₁
  subst h₁
  by_cases hs₁ : (st₁.numaDes n).freePageCount = 0 ∨ (st₁.numaDes n).freePagePhy = 0
  · have hnull := (rdfsGetZeroedPage_eq_zero_iff hn).2 hs₁
    rw [h₂] at hnull
    refine iff_of_false (fun h => h.2.1 hnull) fun h => ?_
    rw [hd₁] at hs₁
    rcases hs₁ with hc₁ | hq
    · have := h.1
      simp only at hc₁
      omega
    · exact h.2.2.1 hq
  obtain ⟨hc₁, hq⟩ := not_or.1 hs₁
  obtain ⟨st₂, hr₂, -, hd₂⟩ := rdfsGetZeroedPage_head hn (Nat.pos_of_ne_zero hc₁) hq
  rw [hr₂] at h₂
  subst h₂
  have hlast : r₃.1 = 0 ↔ _ := h₃ ▸ rdfsGetZeroedPage_eq_zero_iff hn
  rw [hd₂, hd₁, hm₁] at hlast
  rw [and_iff_right (rdfsVa_ne_zero sb hp), and_iff_right (rdfsVa_ne_zero sb hq), ne_eq, hlast,
    not_or]
  rw [hd₁] at hc₁ hq
  simp only at hc₁ hq ⊢
  constructor
  · rintro ⟨hc₂, hz⟩
    exact ⟨by omega, hp, hq, hz⟩
  · rintro ⟨hc₃, -, -, hz⟩
    exact ⟨by omega, hz⟩

/-- The free list of a node with three pages. -/
theorem Owned.threeLinked_iff (h : Owned R.pages st own) :
    ThreeLinked st n ↔ 3 ≤ (st.numaDes n).freePageCount := by
  refine ⟨fun hlinked => hlinked.1, fun hc => ?_⟩
  obtain ⟨out, hinv, -⟩ := h
  generalize hp : (st.numaDes n).freePagePhy = p
  generalize hq : st.mem.load 8 p = q
  generalize hr : st.mem.load 8 q = r
  have hlist : (freePages st n).take 3 = [p, q, r] := by
    rw [freePages, take_chain _ _ _ hc, hp]
    simp only [chain, List.iterate, Nat.add_zero, hq, hr]
  have hmem : ∀ x ∈ [p, q, r], R.pages.IsPage x := fun x hx =>
    ⟨n, (hinv n).mem_free (mem_of_mem_take (hlist ▸ hx))⟩
  have hnodup : [p, q, r].Nodup := by
    rw [← hlist]
    exact ((hinv n).nodup_append.of_append_left).sublist (take_sublist _ _)
  simp only [mem_cons, not_mem_nil, or_false, forall_eq_or_imp, forall_eq] at hmem
  simp only [nodup_cons, mem_cons, not_mem_nil, or_false, not_or] at hnodup
  have hne : ∀ x, R.pages.IsPage x → x ≠ 0 := by
    rintro _ hx rfl
    exact R.not_isPage_zero hx
  have hsep := hmem.1.disjoint hmem.2.1 hnodup.1.1
  have hlink : (st.mem.fill 4096 p 0).load 8 q = r := by
    rw [← hr]
    exact Mem.load_congr ((Mem.sameOff_fill st.mem 4096 p 0).sameOn (by omega))
  simp only [ThreeLinked, hp, hq, hlink]
  exact ⟨hc, hne p hmem.1, hne q hmem.2.1, hne r hmem.2.2⟩

/-! ## Entering a block -/

variable {t : Tree}

/-- Distinct pages of a table are apart. -/
theorem Owned.disjoint_pages (h : Owned R.pages st (t.pages ++ own)) :
    (∀ p ∈ t.pmds ++ t.ptes, t.pud + 4096 ≤ p ∨ p + 4096 ≤ t.pud) ∧
      ∀ p ∈ t.pmds, ∀ q ∈ t.ptes, p + 4096 ≤ q ∨ q + 4096 ≤ p := by
  have hpages := nodup_cons.1 (nodup_append.1 h.nodup).1
  refine ⟨fun p hp => ?_, fun p hp q hq => ?_⟩
  · refine h.disjoint (by simp [Tree.pages]) ?_ fun heq => hpages.1 (heq ▸ hp)
    exact mem_append_left _ (mem_cons_of_mem _ hp)
  · exact h.disjoint (by simp [Tree.pages, hp]) (by simp [Tree.pages, hq])
      ((nodup_append.1 hpages.2).2.2 p hp q hq)

/-- A page more on the second level. -/
theorem Owned.addPmds (h : Owned R.pages st (t.pages ++ own)) (ht : t.Tables st.mem)
    (hfit : t.ptes.length ≤ 512 * t.pmds.length) {st' : Nvm}
    (hown : Owned R.pages st' (new ++ (t.pages ++ own)))
    (htop : Table st'.mem [t.pud] (t.pmds ++ new) pageTable)
    (hzero : ∀ q ∈ new, ∀ x, q ≤ x → x < q + 4096 → st'.mem x = 0)
    (hsame : SameOffPages st.mem st'.mem (new ++ [t.pud])) :
    { t with pmds := t.pmds ++ new }.Tables st'.mem ∧
      Owned R.pages st' ({ t with pmds := t.pmds ++ new }.pages ++ own) := by
  have hkeep : ∀ p ∈ t.pmds ++ t.ptes, Mem.SameOn st.mem st'.mem 4096 p := fun p hp =>
    hsame.sameOn fun q hq => by
      rcases mem_append.1 hq with hq | hq
      · exact hown.disjoint_append hq (mem_append_left _ (mem_cons_of_mem _ hp))
      · obtain rfl := mem_singleton.1 hq
        exact h.disjoint_pages.1 p hp
  refine ⟨⟨htop, (ht.mid.congr fun p hp => hkeep p ?_).grow hfit hzero,
    ht.low.congr fun p hp => hkeep p ?_⟩, hown.of_perm (perm_iff_count.2 fun a => ?_)⟩
  · exact mem_append_left _ hp
  · exact mem_append_right _ hp
  · simp only [Tree.pages, count_append, count_cons, cons_append]
    omega

/-- A page more on the lowest level, in an entry of the page `c` of the second. -/
theorem Owned.addPtes (h : Owned R.pages st (t.pages ++ own)) (ht : t.Tables st.mem)
    (hfit : t.ents.length ≤ 512 * t.ptes.length) {st' : Nvm}
    (hown : Owned R.pages st' (new ++ (t.pages ++ own)))
    (hmid : Table st'.mem t.pmds (t.ptes ++ new) pageTable)
    (hzero : ∀ q ∈ new, ∀ x, q ≤ x → x < q + 4096 → st'.mem x = 0) {c : ℕ} (hc : c ∈ t.pmds)
    (hsame : SameOffPages st.mem st'.mem (new ++ [c])) :
    { t with ptes := t.ptes ++ new }.Tables st'.mem ∧
      Owned R.pages st' ({ t with ptes := t.ptes ++ new }.pages ++ own) := by
  have hkeep : ∀ p ∈ t.pud :: t.ptes, Mem.SameOn st.mem st'.mem 4096 p := fun p hp =>
    hsame.sameOn fun q hq => by
      rcases mem_append.1 hq with hq | hq
      · refine hown.disjoint_append hq (mem_append_left _ ?_)
        simp only [Tree.pages, mem_cons, mem_append] at hp ⊢
        tauto
      · obtain rfl := mem_singleton.1 hq
        rcases mem_cons.1 hp with rfl | hp
        · exact (h.disjoint_pages.1 q (mem_append_left _ hc)).symm
        · exact h.disjoint_pages.2 q hc p hp
  refine ⟨⟨ht.top.congr fun p hp => hkeep p ?_, hmid,
    (ht.low.congr fun p hp => hkeep p ?_).grow hfit hzero⟩,
    hown.of_perm (perm_iff_count.2 fun a => ?_)⟩
  · exact mem_cons.2 (Or.inl (mem_singleton.1 hp))
  · exact mem_cons_of_mem _ hp
  · simp only [Tree.pages, count_append, count_cons, cons_append]
    omega

/-- A block more, in the first empty entry of the lowest level. -/
theorem Owned.addEnt (h : Owned R.pages st (t.pages ++ own)) (ht : t.Tables st.mem) {d : ℕ}
    (hd : t.ptes[t.ents.length / 512]? = some d) {phys : ℕ} (hphys : phys ||| pageKernel < 2 ^ 64) :
    let m := st.mem.store 8 (d + 8 * (t.ents.length % 512)) (phys ||| pageKernel)
    { t with ents := t.ents ++ [phys] }.Tables m ∧
      Owned R.pages { st with mem := m } ({ t with ents := t.ents ++ [phys] }.pages ++ own) ∧
      SameOffPages st.mem m t.pages := by
  intro m
  have hdmem : d ∈ t.ptes := mem_of_getElem? hd
  have hsame : SameOffPages st.mem m [d] :=
    SameOffPages.of_sameOff (Mem.sameOff_store _ _ _ _) (by omega) (by omega)
  have hptes : t.ptes.Nodup := (nodup_append.1 (nodup_cons.1 (nodup_append.1 h.nodup).1).2).2.1
  have hkeep : ∀ p ∈ t.pud :: t.pmds, Mem.SameOn st.mem m 4096 p := fun p hp =>
    hsame.sameOn fun q hq => by
      obtain rfl := mem_singleton.1 hq
      rcases mem_cons.1 hp with rfl | hp
      · exact (h.disjoint_pages.1 q (mem_append_right _ hdmem)).symm
      · exact (h.disjoint_pages.2 p hp q hdmem).symm
  refine ⟨⟨ht.top.congr fun p hp => hkeep p ?_, ht.mid.congr fun p hp => hkeep p ?_, ?_⟩, ?_, ?_⟩
  · exact mem_cons.2 (Or.inl (mem_singleton.1 hp))
  · exact mem_cons_of_mem _ hp
  · exact ht.low.push hptes (h.sep _ fun p hp => by simp [Tree.pages, hp]) hd (by omega) (by omega)
      hphys
  · refine h.congr (fun j => ⟨rfl, rfl⟩) fun q hq hnot => hsame.sameOn fun p hp => ?_
    obtain rfl := mem_singleton.1 hp
    have hp' : p ∈ t.pages ++ own := by simp [Tree.pages, hdmem]
    exact (h.isPage hp').disjoint hq fun heq => hnot (heq ▸ hp')
  · exact hsame.mono (by simp [Tree.pages, hdmem])

/-- The entry of the next block on the level of `pmd`. -/
theorem Owned.pmdAlloc (h : Owned R.pages st (t.pages ++ own)) (hrep : TreeRep st.mem t)
    (haddr : AddrOk v t.ents.length) (hn : getCpuNuma sb cpu = n)
    (hroom : t.ents.length / 2 ^ 18 = t.pmds.length → 0 < (st.numaDes n).freePageCount) :
    ∃ new c st', rdfsPmdAlloc sb cpu st (rdfsVa sb (t.pud + 8 * (t.ents.length / 2 ^ 18)))
        (v + 4096 * t.ents.length) = (rdfsVa sb (c + 8 * (t.ents.length / 512 % 512)), st') ∧
      (t.pmds ++ new)[t.ents.length / 2 ^ 18]? = some c ∧
      new.length = (if t.ents.length / 2 ^ 18 = t.pmds.length then 1 else 0) ∧
      { t with pmds := t.pmds ++ new }.Tables st'.mem ∧
      Owned R.pages st' ({ t with pmds := t.pmds ++ new }.pages ++ own) ∧ Took n new.length st st' ∧
      SameOffPages st.mem st'.mem { t with pmds := t.pmds ++ new }.pages := by
  have hlen := hrep.length_pmds
  have hlt := haddr.1
  by_cases hd : InDirArea (v + 4096 * t.ents.length)
  · rw [rdfsPmdAlloc, if_pos hd]
    have hsmall : t.ents.length < 512 := (if_pos hd ▸ haddr.2.2 : _ ∧ _).2
    have hfirst : t.ents.length / 2 ^ 18 = 0 := by omega
    have hpos : 0 < t.pmds.length := by omega
    have hword := hrep.top 0 t.pud rfl 0 (by decide)
    rw [tableWord_of_lt _ hpos] at hword
    refine ⟨[], t.pmds[0], st, ?_, ?_, ?_, ?_, ?_, Took.refl n st, SameOffPages.refl _ _⟩
    · have hpage : R.pages.IsPage t.pmds[0] := h.isPage (by simp [Tree.pages])
      rw [hfirst, show t.ents.length / 512 % 512 = 0 by omega, rdfsGetPmd, deref_rdfsVa, hword,
        (tableEntry_and hpage).1]
      rfl
    · rw [hfirst, append_nil, getElem?_eq_getElem hpos]
    · rw [if_neg (by omega)]
      rfl
    · simpa using hrep.toTables
    · simpa using h
  · rw [rdfsPmdAlloc, if_neg hd, pmdIndex_of_addrOk haddr hd]
    obtain ⟨new, c, st', hr, hc, hnew, hown, htop, hzero, htook, hsame⟩ :=
      h.entryAlloc pudPresent (a := 0) (j := t.ents.length / 2 ^ 18) (by decide)
        (by simp [Tree.pages]) (by simp [Tree.pages]) (nodup_singleton _) hrep.top rfl
        (by omega) (by omega) hn (by simpa using hroom) (t.ents.length / 512 % 512)
    rw [show 512 * 0 + t.ents.length / 2 ^ 18 = t.ents.length / 2 ^ 18 by omega] at hc hnew
    have hfit : t.ptes.length ≤ 512 * t.pmds.length := by
      have := hrep.length_ptes
      omega
    obtain ⟨htab, hown'⟩ := h.addPmds hrep.toTables hfit hown htop hzero hsame
    refine ⟨new, c, st', by rw [hr, rdfsVa_add], hc, hnew, htab, hown', htook,
      hsame.mono fun p hp => ?_⟩
    simp only [Tree.pages, mem_append, mem_cons, not_mem_nil, or_false] at hp ⊢
    rcases hp with hp | hp
    · exact Or.inr (Or.inl (Or.inr hp))
    · exact Or.inl hp

/-- The entry of the next block on the level of `pte`, in the page `c` of the level above. -/
theorem Owned.pteAlloc (h : Owned R.pages st (t.pages ++ own)) (ht : t.Tables st.mem)
    (hlen : t.ptes.length = (t.ents.length - 1) / 512 + 1) {c : ℕ}
    (hc : t.pmds[t.ents.length / 2 ^ 18]? = some c) (haddr : AddrOk v t.ents.length)
    (hn : getCpuNuma sb cpu = n)
    (hroom : t.ents.length / 512 = t.ptes.length → 0 < (st.numaDes n).freePageCount) :
    ∃ new d st', rdfsPteAlloc sb cpu st (rdfsVa sb (c + 8 * (t.ents.length / 512 % 512)))
        (v + 4096 * t.ents.length) = (rdfsVa sb (d + 8 * (t.ents.length % 512)), st') ∧
      (t.ptes ++ new)[t.ents.length / 512]? = some d ∧
      new.length = (if t.ents.length / 512 = t.ptes.length then 1 else 0) ∧
      { t with ptes := t.ptes ++ new }.Tables st'.mem ∧
      Owned R.pages st' ({ t with ptes := t.ptes ++ new }.pages ++ own) ∧ Took n new.length st st' ∧
      SameOffPages st.mem st'.mem { t with ptes := t.ptes ++ new }.pages := by
  have hindex : 512 * (t.ents.length / 2 ^ 18) + t.ents.length / 512 % 512 =
      t.ents.length / 512 := by omega
  have hpmds : t.pmds.Nodup := (nodup_append.1 (nodup_cons.1 (nodup_append.1 h.nodup).1).2).1
  obtain ⟨new, d, st', hr, hd, hnew, hown, hmid, hzero, htook, hsame⟩ :=
    h.entryAlloc pmdPresent (j := t.ents.length / 512 % 512) (by decide)
      (fun p hp => by simp [Tree.pages, hp]) (fun p hp => by simp [Tree.pages, hp]) hpmds ht.mid hc
      (by omega) (by omega) hn (by rwa [hindex]) (t.ents.length % 512)
  rw [hindex] at hd hnew
  have hcmem : c ∈ t.pmds := mem_of_getElem? hc
  obtain ⟨htab, hown'⟩ := h.addPtes ht (by omega) hown hmid hzero hcmem hsame
  refine ⟨new, d, st', ?_, hd, hnew, htab, hown', htook, hsame.mono fun p hp => ?_⟩
  · rw [rdfsPteAlloc, pteIndex_of_addrOk haddr, hr, rdfsVa_add]
  · simp only [Tree.pages, mem_append, mem_cons, not_mem_nil, or_false] at hp ⊢
    rcases hp with hp | rfl
    · exact Or.inr (Or.inr (Or.inr hp))
    · exact Or.inr (Or.inl hcmem)

theorem tableSize_succ (n : ℕ) : tableSize (n + 1) = tableSize n +
    (if n / 2 ^ 18 = (n - 1) / 2 ^ 18 + 1 then 1 else 0) +
    if n / 512 = (n - 1) / 512 + 1 then 1 else 0 := by
  unfold tableSize
  split_ifs <;> omega

theorem rdfsPudAlloc_eq {ino i pud : ℕ}
    (hpg : inodeStruct.getField m (getRdfsInodePhyAddr sb ino) .iPgAddr = pud) (hpud : pud ≠ 0)
    (hi : i < 2 ^ 27) : rdfsPudAlloc sb m ino (i <<< 12) = rdfsVa sb (pud + 8 * (i / 2 ^ 18)) := by
  have hshift : (i <<< 12) >>> 30 = i / 2 ^ 18 := by
    rw [Nat.shiftLeft_eq, Nat.shiftRight_eq_div_pow]
    omega
  have hi32 : i32 ((i / 2 ^ 18 : ℕ) : ℤ) = (i / 2 ^ 18 : ℕ) := i32_eq (by omega) (by omega)
  rw [rdfsPudAlloc, hshift, hi32, Int.toNat_natCast, rdfsGetPud, hpg]
  simp only [if_neg hpud, rdfsVa_add]

/-- The entry of the first level before and after : there already, or new. -/
theorem topEntry_cases {pud i : ℕ} {pmds : List ℕ} (h : Table m [pud] pmds pageTable)
    (h' : Table m' [pud] (pmds ++ new) pageTable) (hi : i < 512) (hle : i ≤ pmds.length)
    (hnew : new.length = if i = pmds.length then 1 else 0)
    (hpages : ∀ p ∈ pmds ++ new, R.pages.IsPage p) :
    (new = [] ∧ deref sb m (rdfsVa sb (pud + 8 * i)) ≠ 0) ∨
      ∃ q, new = [q] ∧ deref sb m (rdfsVa sb (pud + 8 * i)) = 0 ∧
        rdfsGetPmd sb m' (rdfsVa sb (pud + 8 * i)) = rdfsVa sb q := by
  have hword := h 0 pud rfl i hi
  have hword' := h' 0 pud rfl i hi
  rw [Nat.mul_zero, Nat.zero_add] at hword hword'
  rw [rdfsGetPmd, deref_rdfsVa, deref_rdfsVa, hword, hword']
  split_ifs at hnew with heq
  · obtain ⟨q, rfl⟩ := length_eq_one_iff.1 hnew
    refine Or.inr ⟨q, rfl, tableWord_of_le _ heq.ge, ?_⟩
    rw [heq, tableWord_append_self, (tableEntry_and (hpages q (by simp))).1]
  · refine Or.inl ⟨length_eq_zero_iff.1 hnew, fun h0 => ?_⟩
    have := (tableWord_eq_zero_iff (by decide)).1 h0
    omega

/-- `rdfs_insert_page` puts a block behind the last one of the tree. A page of the second
level more means one entry more in the kernel's page table. -/
theorem Owned.insertPage (h : Owned R.pages st (t.pages ++ own)) (hrep : TreeRep st.mem t) {ino : ℕ}
    (hpg : inodeStruct.getField st.mem (getRdfsInodePhyAddr sb ino) .iPgAddr = t.pud)
    (haddr : AddrOk v t.ents.length) {phys : ℕ} (hphys : phys ||| pageKernel < 2 ^ 64)
    (hn : getCpuNuma sb cpu = n)
    (hroom : tableSize (t.ents.length + 1) ≤ (st.numaDes n).freePageCount + tableSize t.ents.length)
    (k : KernelMap) :
    ∃ t' st' k', rdfsInsertPage sb cpu st k ino v (t.ents.length + 1) phys = (0, st', k') ∧
      t.Grows t' ∧ t'.ents = t.ents ++ [phys] ∧ TreeRep st'.mem t' ∧
      Owned R.pages st' (t'.pages ++ own) ∧
      Took n (tableSize (t.ents.length + 1) - tableSize t.ents.length) st st' ∧
      SameOffPages st.mem st'.mem t'.pages ∧
      ((t'.pmds = t.pmds ∧ k' = k) ∨ ∃ q, t'.pmds = t.pmds ++ [q] ∧
        k' = nvmapPmd sb k (v + 4096 * t.ents.length) (rdfsVa sb q)) := by
  have hpmds := hrep.length_pmds
  have hptes := hrep.length_ptes
  have hsize := tableSize_succ t.ents.length
  rw [← hpmds, ← hptes] at hsize
  obtain ⟨mid, c, st₁, hr₁, hc, hmid, htab₁, hown₁, htook₁, hsame₁⟩ :=
    h.pmdAlloc hrep haddr hn fun heq => by rw [if_pos heq] at hsize; omega
  have hcount := htook₁.count n
  rw [if_pos rfl] at hcount
  obtain ⟨low, d, st₂, hr₂, hd, hlow, htab₂, hown₂, htook₂, hsame₂⟩ :=
    hown₁.pteAlloc htab₁ hptes hc haddr hn fun heq => by
      rw [if_pos heq, ← hmid] at hsize
      omega
  replace hlow : low.length = if t.ents.length / 512 = t.ptes.length then 1 else 0 := hlow
  obtain ⟨htab₃, hown₃, hsame₃⟩ := hown₂.addEnt htab₂ hd hphys
  have hne : ∀ {p j : ℕ}, R.pages.IsPage p → rdfsVa sb (p + j) ≠ 0 := fun {p j} hp =>
    rdfsVa_ne_zero sb fun h0 => R.not_isPage_zero (by rwa [show p = 0 by omega] at hp)
  have hpud : R.pages.IsPage t.pud := h.isPage (by simp [Tree.pages])
  have hcpage : R.pages.IsPage c := hown₁.isPage (mem_append_left _
    (mem_cons_of_mem _ (mem_append_left _ (mem_of_getElem? hc))))
  have hdpage : R.pages.IsPage d := hown₂.isPage (mem_append_left _
    (mem_cons_of_mem _ (mem_append_right _ (mem_of_getElem? hd))))
  have hins := rdfsInsertPage_eq (newAddr_of_addrOk haddr)
    (rdfsPudAlloc_eq hpg (fun h0 => R.not_isPage_zero (h0 ▸ hpud)) haddr.1) hr₁ hr₂ (hne hpud)
    (hne hcpage) (hne hdpage) k phys
  rw [rdfsSetPte, rdfsPa_rdfsVa, Nat.add_sub_cancel] at hins
  refine ⟨⟨t.pud, t.pmds ++ mid, t.ptes ++ low, t.ents ++ [phys]⟩, _, _, hins,
    ⟨rfl, prefix_append _ _, prefix_append _ _⟩, rfl, ⟨htab₃, ?_, ?_⟩, hown₃, ?_, ?_, ?_⟩
  · simp only [length_append, length_singleton, hmid]
    split_ifs <;> omega
  · simp only [length_append, length_singleton, hlow]
    split_ifs <;> omega
  · have hsum : tableSize (t.ents.length + 1) - tableSize t.ents.length =
        mid.length + low.length := by
      omega
    rw [hsum]
    exact (htook₁.trans htook₂).write _
  · refine ((hsame₁.mono fun p hp => ?_).trans hsame₂).trans hsame₃
    simp only [Tree.pages, mem_cons, mem_append] at hp ⊢
    rcases hp with hp | hp | hp
    · exact Or.inl hp
    · exact Or.inr (Or.inl hp)
    · exact Or.inr (Or.inr (Or.inl hp))
  · obtain ⟨rfl, hzero⟩ | ⟨q, rfl, hzero, hget⟩ :=
      topEntry_cases hrep.top htab₁.top (by have := haddr.1; omega) (by omega) hmid fun p hp =>
        hown₁.isPage (mem_append_left _ (mem_cons_of_mem _ (mem_append_left _ hp)))
    · exact Or.inl ⟨append_nil _, if_neg hzero⟩
    · exact Or.inr ⟨q, rfl, by rw [if_pos hzero, hget]⟩

end Rdfs
