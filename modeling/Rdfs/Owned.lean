import Rdfs.Balloc

/-!
# Owned pages

The pages that are not on a free list belong to someone. `Owned L st own` says that the free
lists of both nodes and the list `own` together are the pages of the region, each once. It is
the form of the free list invariant (`FreeInv`) that the owners of pages work with : an
allocation adds to `own` (`Owned.newBlock`, `Owned.getZeroedPage`), a free takes away from it
(`Owned.freeBlock`), and owners may write to what they own (`Owned.congr`).
-/

namespace Rdfs

open List Function

variable {sb : Super}

/-- The free lists and `own` are the pages of the region. -/
def Owned (L : PageLayout sb) (st : Nvm) (own : List ℕ) : Prop :=
  ∃ out, FreeInv L st out ∧ (out 0 ++ out 1).Perm own

/-- The lists of free inode slots are the same in both states. -/
def SameInodes (st st' : Nvm) : Prop :=
  ∀ n, (st'.numaDes n).freeInodePhy = (st.numaDes n).freeInodePhy ∧
    (st'.numaDes n).freeInodeCount = (st.numaDes n).freeInodeCount

theorem SameInodes.refl (st : Nvm) : SameInodes st st := fun _ => ⟨rfl, rfl⟩

variable {st st' : Nvm} {n : Fin 2} {p q : ℕ}

theorem SameInodes.trans {st'' : Nvm} (h : SameInodes st st') (h' : SameInodes st' st'') :
    SameInodes st st'' :=
  fun n => ⟨(h' n).1.trans (h n).1, (h' n).2.trans (h n).2⟩

theorem perm_update_append (out : Fin 2 → List ℕ) (n : Fin 2) (ps : List ℕ) :
    (Function.update out n (out n ++ ps) 0 ++ Function.update out n (out n ++ ps) 1).Perm
      (ps ++ (out 0 ++ out 1)) := by
  rcases node_cases n with rfl | rfl
  · rw [update_self, update_of_ne (by decide), ← append_assoc]
    exact perm_append_comm.append_right _
  · rw [update_self, update_of_ne (by decide), ← append_assoc]
    exact perm_append_comm

theorem perm_update_erase {out : Fin 2 → List ℕ} (hp : p ∈ out n) :
    (p :: (Function.update out n ((out n).erase p) 0 ++
      Function.update out n ((out n).erase p) 1)).Perm (out 0 ++ out 1) := by
  rcases node_cases n with rfl | rfl
  · rw [update_self, update_of_ne (by decide), ← cons_append]
    exact (perm_cons_erase hp).symm.append_right _
  · rw [update_self, update_of_ne (by decide)]
    exact perm_middle.symm.trans ((perm_cons_erase hp).symm.append_left _)

/-- From `st` to `st'`, `k` pages were taken from node `n`, and no inode slots. -/
structure Took (n : Fin 2) (k : ℕ) (st st' : Nvm) : Prop where
  sameInodes : SameInodes st st'
  count : ∀ j, (st'.numaDes j).freePageCount + (if j = n then k else 0) =
    (st.numaDes j).freePageCount

theorem Took.refl (n : Fin 2) (st : Nvm) : Took n 0 st st := ⟨SameInodes.refl st, by simp⟩

theorem Took.trans {k l : ℕ} {st'' : Nvm} (h : Took n k st st') (h' : Took n l st' st'') :
    Took n (k + l) st st'' := by
  refine ⟨h.sameInodes.trans h'.sameInodes, fun j => ?_⟩
  have h1 := h.count j
  have h2 := h'.count j
  split_ifs at h1 h2 ⊢ <;> omega

/-- Writes to the region take nothing. -/
theorem Took.write {k : ℕ} (h : Took n k st st') (m : Mem) : Took n k st { st' with mem := m } :=
  ⟨h.sameInodes, h.count⟩

/-- The memories agree off the pages `ps`. -/
def SameOffPages (m m' : Mem) (ps : List ℕ) : Prop :=
  ∀ x, (∀ p ∈ ps, ¬(p ≤ x ∧ x < p + 4096)) → m' x = m x

namespace SameOffPages

variable {m m' m'' : Mem} {ps qs : List ℕ}

theorem refl (m : Mem) (ps : List ℕ) : SameOffPages m m ps := fun _ _ => rfl

theorem trans (h : SameOffPages m m' ps) (h' : SameOffPages m' m'' ps) : SameOffPages m m'' ps :=
  fun x hx => (h' x hx).trans (h x hx)

theorem mono (h : SameOffPages m m' ps) (hs : ps ⊆ qs) : SameOffPages m m' qs :=
  fun x hx => h x fun p hp => hx p (hs hp)

/-- A page apart from all of them is the same. -/
theorem sameOn (h : SameOffPages m m' ps) {q k : ℕ}
    (hq : ∀ p ∈ ps, p + 4096 ≤ q ∨ q + k ≤ p) : Mem.SameOn m m' k q := by
  intro x h1 h2
  refine h x fun p hp hx => ?_
  have := hq p hp
  omega

theorem of_sameOff {n a p : ℕ} (h : Mem.SameOff m m' n a) (h1 : p ≤ a) (h2 : a + n ≤ p + 4096) :
    SameOffPages m m' [p] :=
  fun x hx => h x fun hx' => hx p (by simp) (by omega)

end SameOffPages

namespace PageLayout

variable {L : PageLayout sb}

/-- `p` is a page of the region. -/
def IsPage (L : PageLayout sb) (p : ℕ) : Prop := ∃ n, p ∈ L.pages n

theorem IsPage.dvd (h : L.IsPage p) : 4096 ∣ p := dvd_of_mem_pages h.choose_spec

theorem IsPage.lt (h : L.IsPage p) : p + 4096 < 2 ^ 63 := lt_of_mem_pages h.choose_spec

theorem IsPage.disjoint (hp : L.IsPage p) (hq : L.IsPage q) (hne : p ≠ q) :
    p + 4096 ≤ q ∨ q + 4096 ≤ p :=
  disjoint_of_mem hp.choose_spec hq.choose_spec hne

end PageLayout

namespace Owned

variable {L : PageLayout sb} {st st' : Nvm} {own own' : List ℕ}

section

variable (h : Owned L st own)
include h

theorem of_perm (hp : own.Perm own') : Owned L st own' := by
  obtain ⟨out, hinv, hout⟩ := h
  exact ⟨out, hinv, hout.trans hp⟩

theorem isPage (hp : p ∈ own) : L.IsPage p := by
  obtain ⟨out, hinv, hout⟩ := h
  rcases mem_append.1 (hout.symm.subset hp) with h0 | h1
  · exact ⟨0, (hinv 0).mem_out h0⟩
  · exact ⟨1, (hinv 1).mem_out h1⟩

theorem nodup : own.Nodup := by
  obtain ⟨out, hinv, hout⟩ := h
  refine hout.nodup_iff.1 (nodup_append.2 ⟨?_, ?_, fun p hp q hq heq => ?_⟩)
  · exact (nodup_append.1 (hinv 0).nodup_append).2.1
  · exact (nodup_append.1 (hinv 1).nodup_append).2.1
  · subst heq
    exact absurd (PageLayout.node_eq_of_mem ((hinv 0).mem_out hp) ((hinv 1).mem_out hq)) (by decide)

theorem disjoint (hp : p ∈ own) (hq : q ∈ own) (hne : p ≠ q) : p + 4096 ≤ q ∨ q + 4096 ≤ p :=
  (h.isPage hp).disjoint (h.isPage hq) hne

end

/-- Two parts of the owned pages are apart. -/
theorem disjoint_append (h : Owned L st (own ++ own')) (hp : p ∈ own) (hq : q ∈ own') :
    p + 4096 ≤ q ∨ q + 4096 ≤ p :=
  h.disjoint (mem_append_left _ hp) (mem_append_right _ hq) ((nodup_append.1 h.nodup).2.2 p hp q hq)

section

variable (h : Owned L st own)
include h

theorem sep (ps : List ℕ) (hps : ps ⊆ own) : Sep 4096 ps :=
  fun _ hp _ hq hne => h.disjoint (hps hp) (hps hq) hne

theorem not_free (hp : p ∈ freePages st n) : p ∉ own := by
  obtain ⟨out, hinv, hout⟩ := h
  intro hown
  rcases mem_append.1 (hout.symm.subset hown) with h0 | h1
  · exact hinv.ne_of_mem hp h0 rfl
  · exact hinv.ne_of_mem hp h1 rfl

/-- Every page is free or owned. -/
theorem free_or_owned (hp : L.IsPage p) : (∃ n, p ∈ freePages st n) ∨ p ∈ own := by
  obtain ⟨out, hinv, hout⟩ := h
  obtain ⟨n, hn⟩ := hp
  rcases mem_append.1 ((hinv n).perm.symm.subset hn) with hf | ho
  · exact Or.inl ⟨n, hf⟩
  · refine Or.inr (hout.subset (mem_append.2 ?_))
    rcases node_cases n with rfl | rfl
    · exact Or.inl ho
    · exact Or.inr ho

/-- The free pages of a node are those nobody owns. -/
theorem mem_free_iff : p ∈ freePages st n ↔ p ∈ L.pages n ∧ p ∉ own := by
  refine ⟨fun hp => ⟨?_, h.not_free hp⟩, fun ⟨hp, hno⟩ => ?_⟩
  · obtain ⟨out, hinv, -⟩ := h
    exact (hinv n).mem_free hp
  · obtain ⟨out, hinv, hout⟩ := h
    refine (mem_append.1 ((hinv n).perm.symm.subset hp)).resolve_right fun ho => hno ?_
    refine hout.subset (mem_append.2 ?_)
    rcases node_cases n with rfl | rfl
    · exact Or.inl ho
    · exact Or.inr ho

theorem nodup_free (n : Fin 2) : (freePages st n).Nodup := by
  obtain ⟨out, hinv, -⟩ := h
  exact (nodup_append.1 (hinv n).nodup_append).1

/-- The free lists leave no choice of what is owned. -/
theorem perm_unique (h' : Owned L st own') : own.Perm own' := by
  have hsub : ∀ {l l' : List ℕ}, Owned L st l → Owned L st l' → ∀ p ∈ l, p ∈ l' :=
    fun hl hl' p hp => by
      by_contra hno
      obtain ⟨n, hn⟩ := hl.isPage hp
      exact hl.not_free (hl'.mem_free_iff.2 ⟨hn, hno⟩) hp
  exact (perm_ext_iff_of_nodup h.nodup h'.nodup).2 fun p => ⟨hsub h h' p, hsub h' h p⟩

end

/-- Once the pages `ps` are no longer owned they are free, each in the list of its node. -/
theorem freePages_perm {ps : List ℕ} (h : Owned L st (ps ++ own)) (h' : Owned L st' own)
    (n : Fin 2) : (freePages st' n).Perm (ps.filter (· ∈ L.pages n) ++ freePages st n) := by
  obtain ⟨hps, -, hdis⟩ := nodup_append.1 h.nodup
  refine (perm_ext_iff_of_nodup (h'.nodup_free n) ?_).2 fun p => ?_
  · refine nodup_append.2 ⟨hps.filter _, h.nodup_free n, fun p hp q hq => ?_⟩
    rintro rfl
    exact h.not_free hq (mem_append_left own (mem_of_mem_filter hp))
  · simp only [h'.mem_free_iff, mem_append, mem_filter, decide_eq_true_eq, h.mem_free_iff]
    constructor
    · rintro ⟨hp, hno⟩
      by_cases hin : p ∈ ps
      · exact Or.inl ⟨hin, hp⟩
      · exact Or.inr ⟨hp, fun hor => hor.elim hin hno⟩
    · rintro (⟨hin, hp⟩ | ⟨hp, hno⟩)
      · exact ⟨hp, fun hown => hdis p hin p hown rfl⟩
      · exact ⟨hp, fun hown => hno (Or.inr hown)⟩

/-- Anything that leaves the free lists and the pages nobody owns alone. -/
theorem congr (h : Owned L st own)
    (hdes : ∀ n, (st'.numaDes n).freePagePhy = (st.numaDes n).freePagePhy ∧
      (st'.numaDes n).freePageCount = (st.numaDes n).freePageCount)
    (hm : ∀ p, L.IsPage p → p ∉ own → Mem.SameOn st.mem st'.mem 4096 p) : Owned L st' own := by
  have hfree := fun {n p} (hp : p ∈ freePages st n) => h.not_free hp
  obtain ⟨out, hinv, hout⟩ := h
  refine ⟨out, fun n => ?_, hout⟩
  rw [(hdes n).1, (hdes n).2]
  refine (hinv n).congr fun p hp => ?_
  have hsame := hm p ⟨n, (hinv n).mem_free hp⟩ (hfree hp)
  exact fun x h1 h2 => hsame x (by omega) (by omega)

/-- An allocation of `k` pages from a node that has them. -/
theorem newBlock (h : Owned L st own) (cpu k : ℕ) (ni : Option ℕ) (physaddr : ℕ)
    (hn : newBlockNode sb cpu ni = n) (hk : k ≤ (st.numaDes n).freePageCount) (hlt : k < 2 ^ 31) :
    ∃ st', rdfsNewBlock sb cpu st physaddr k ni = (0, (st.numaDes n).freePagePhy, st') ∧
      Owned L st' (pagesFrom st (st.numaDes n).freePagePhy k ++ own) ∧ st'.mem = st.mem ∧
      Took n k st st' := by
  obtain ⟨out, hinv, hout⟩ := h
  have hnum : -2 ^ 31 ≤ (k : ℤ) ∧ (k : ℤ) < 2 ^ 31 := by omega
  have hnew := hinv.newBlock cpu physaddr ni hnum
  obtain ⟨hlt', -⟩ | ⟨k', st', hkk, hk', hr, hm, hd, ho⟩ := hinv.newBlock_cases cpu physaddr hn hnum
  · rw [length_freePages] at hlt'
    omega
  · obtain rfl : k = k' := by omega
    refine ⟨st', hr, ⟨_, by rwa [hr] at hnew, ?_⟩, hm, fun j => ?_, fun j => ?_⟩
    · rw [hn]
      simp only [takeOut, if_true, Int.toNat_natCast]
      exact (perm_update_append out n _).trans (hout.append_left _)
    · by_cases hj : j = n
      · subst hj
        rw [hd]
        exact ⟨rfl, rfl⟩
      · rw [ho j hj]
        exact ⟨rfl, rfl⟩
    · by_cases hj : j = n
      · subst hj
        rw [hd, if_pos rfl]
        simp only
        omega
      · rw [ho j hj, if_neg hj, Nat.add_zero]

/-- Freeing an owned page. -/
theorem freeBlock (h : Owned L st (p :: own)) :
    Owned L (rdfsFreeBlock sb st p) own ∧ SameInodes st (rdfsFreeBlock sb st p) := by
  obtain ⟨out, hinv, hout⟩ := h
  obtain ⟨n, hp⟩ : ∃ n, p ∈ out n := by
    rcases mem_append.1 (hout.symm.subset mem_cons_self) with h0 | h1
    · exact ⟨0, h0⟩
    · exact ⟨1, h1⟩
  refine ⟨⟨_, hinv.freeBlock hp, (perm_cons p).1 ?_⟩, fun j => ?_⟩
  · exact (perm_update_erase hp).trans hout
  · by_cases hj : j = rdfsGetPhysNumaId sb p
    · subst hj
      simp only [rdfsFreeBlock, Nvm.setNuma_self, and_self]
    · rw [rdfsFreeBlock_numaDes_of_ne st hj]
      exact ⟨rfl, rfl⟩

end Owned

end Rdfs
