import Rdfs.Balloc

/-!
# Freeing pages in batches

`rdfs_pre_free_block` links a page in front of a chain that belongs to nobody yet, one for each
node, and `rdfs_pre_free_list` puts each chain in front of the free list of its node
(`balloc.c`). Only the last page of a chain waits for its link until then : it is written when the
head of the free list is known.

`preFreeBlock_list` is the step : a page added to the chains and then everything spliced in is the
chains spliced in and then the page freed by `rdfs_free_block`. So a batch of distinct outstanding
pages ends in the region that freeing them one by one ends in (`PageRun.preFree_eq`).
-/

namespace Rdfs

open List Function

/-! ## The code -/

/-- `struct __pre_free_struct` : a chain of pages, from the last one freed to the first. -/
structure PreFree where
  freeStart : ℕ
  freeEnd : ℕ
  freeCount : ℕ

/-- `rdfs_pre_free_init`. -/
def rdfsPreFreeInit : Fin 2 → PreFree := fun _ => ⟨0, 0, 0⟩

/-- `rdfs_pre_free_block` : the chains and the memory. -/
def rdfsPreFreeBlock (sb : Super) (r : (Fin 2 → PreFree) × Mem) (phys : ℕ) :
    (Fin 2 → PreFree) × Mem :=
  let numaId := rdfsGetPhysNumaId sb phys
  let f := r.1 numaId
  if f.freeCount = 0 then (Function.update r.1 numaId ⟨phys, phys, f.freeCount + 1⟩, r.2)
  else (Function.update r.1 numaId ⟨phys, f.freeEnd, f.freeCount + 1⟩,
    r.2.store 8 (rdfsPa sb (rdfsVa sb phys)) f.freeStart)

/-- One round of the loop of `rdfs_pre_free_list`. -/
def spliceNode (sb : Super) (pre : Fin 2 → PreFree) (st : Nvm) (n : Fin 2) : Nvm :=
  let d := st.numaDes n
  let f := pre n
  if f.freeCount ≠ 0 then
    { st with mem := st.mem.store 8 (rdfsPa sb (rdfsVa sb f.freeEnd)) d.freePagePhy }.setNuma n
      { d with freePagePhy := f.freeStart, freePageCount := d.freePageCount + f.freeCount }
  else st

/-- `rdfs_pre_free_list`. -/
def rdfsPreFreeList (sb : Super) (st : Nvm) (pre : Fin 2 → PreFree) : Nvm :=
  spliceNode sb pre (spliceNode sb pre st 0) 1

/-- The chains and the memory once every page of `ps` has gone through `rdfs_pre_free_block`. -/
def preFreeBlocks (sb : Super) (m : Mem) (ps : List ℕ) : (Fin 2 → PreFree) × Mem :=
  ps.foldl (rdfsPreFreeBlock sb) (rdfsPreFreeInit, m)

/-- A batch : `rdfs_pre_free_init`, `rdfs_pre_free_block` for each page, `rdfs_pre_free_list`. -/
def preFree (sb : Super) (st : Nvm) (ps : List ℕ) : Nvm :=
  let r := preFreeBlocks sb st.mem ps
  rdfsPreFreeList sb { st with mem := r.2 } r.1

/-! ## One node -/

variable {sb : Super} {st : Nvm} {pre : Fin 2 → PreFree} {n k : Fin 2} {p : ℕ}

theorem spliceNode_zero (h : (pre n).freeCount = 0) : spliceNode sb pre st n = st := by
  simp [spliceNode, h]

theorem spliceNode_congr {pre' : Fin 2 → PreFree} (h : pre' n = pre n) :
    spliceNode sb pre' st n = spliceNode sb pre st n := by
  simp only [spliceNode, h]

/-- A page of another node can be freed before or after the splice. -/
theorem spliceNode_freeBlock (hk : n ≠ rdfsGetPhysNumaId sb p)
    (hd : (pre n).freeCount ≠ 0 → p + 8 ≤ (pre n).freeEnd ∨ (pre n).freeEnd + 8 ≤ p) :
    spliceNode sb pre (rdfsFreeBlock sb st p) n = rdfsFreeBlock sb (spliceNode sb pre st n) p := by
  by_cases hc : (pre n).freeCount = 0
  · rw [spliceNode_zero hc, spliceNode_zero hc]
  · simp only [spliceNode, if_pos hc, rdfsFreeBlock, rdfsPa_rdfsVa, Nvm.setNuma,
      update_of_ne hk, update_of_ne (Ne.symm hk)]
    rw [Mem.store_comm _ _ _ (hd hc), update_comm hk]

/-- A page of the node, added to the chain and spliced in with it. -/
theorem spliceNode_preFreeBlock (st : Nvm)
    (hd : (pre (rdfsGetPhysNumaId sb p)).freeCount ≠ 0 →
      p + 8 ≤ (pre (rdfsGetPhysNumaId sb p)).freeEnd ∨
        (pre (rdfsGetPhysNumaId sb p)).freeEnd + 8 ≤ p) :
    let r := rdfsPreFreeBlock sb (pre, st.mem) p
    spliceNode sb r.1 { st with mem := r.2 } (rdfsGetPhysNumaId sb p) =
      rdfsFreeBlock sb (spliceNode sb pre st (rdfsGetPhysNumaId sb p)) p := by
  intro r
  by_cases hc : (pre (rdfsGetPhysNumaId sb p)).freeCount = 0
  · simp [r, rdfsPreFreeBlock, spliceNode, rdfsFreeBlock, hc]
  · simp only [r, rdfsPreFreeBlock, if_neg hc, spliceNode, update_self, ne_eq,
      Nat.add_eq_zero_iff, one_ne_zero, and_false, not_false_eq_true, if_true, rdfsFreeBlock,
      rdfsPa_rdfsVa, Nvm.setNuma]
    rw [Mem.store_comm _ _ _ (hd hc), if_pos hc]
    simp only [update_self, update_idem, Nat.add_assoc]

/-! ## Both nodes -/

theorem rdfsPreFreeBlock_of_ne {m : Mem} (hn : n ≠ rdfsGetPhysNumaId sb p) :
    (rdfsPreFreeBlock sb (pre, m) p).1 n = pre n := by
  unfold rdfsPreFreeBlock
  dsimp only
  split_ifs <;> exact update_of_ne hn _ _

/-- The chains do not depend on the memory. -/
theorem rdfsPreFreeBlock_chains (m m' : Mem) :
    (rdfsPreFreeBlock sb (pre, m) p).1 = (rdfsPreFreeBlock sb (pre, m') p).1 := by
  unfold rdfsPreFreeBlock
  dsimp only
  split_ifs <;> rfl

/-- The link of a page added to a chain can be written before or after a splice. -/
theorem spliceNode_link
    (hd : (pre n).freeCount ≠ 0 → p + 8 ≤ (pre n).freeEnd ∨ (pre n).freeEnd + 8 ≤ p) :
    spliceNode sb pre { st with mem := (rdfsPreFreeBlock sb (pre, st.mem) p).2 } n =
      { spliceNode sb pre st n with
        mem := (rdfsPreFreeBlock sb (pre, (spliceNode sb pre st n).mem) p).2 } := by
  unfold rdfsPreFreeBlock
  dsimp only
  split_ifs with hz
  · rfl
  rw [rdfsPa_rdfsVa]
  by_cases hc : (pre n).freeCount = 0
  · rw [spliceNode_zero hc, spliceNode_zero hc]
  · simp only [spliceNode, if_pos hc, rdfsPa_rdfsVa, Nvm.setNuma]
    rw [Mem.store_comm _ _ _ (hd hc)]

/-- The ends of the chains are apart from the page at `p`. -/
def EndsApart (pre : Fin 2 → PreFree) (p : ℕ) : Prop :=
  ∀ n, (pre n).freeCount ≠ 0 → p + 8 ≤ (pre n).freeEnd ∨ (pre n).freeEnd + 8 ≤ p

theorem EndsApart.preFreeBlock {m : Mem} {q : ℕ} (h : EndsApart pre q)
    (hp : q + 8 ≤ p ∨ p + 8 ≤ q) : EndsApart (rdfsPreFreeBlock sb (pre, m) p).1 q := by
  intro n hc
  by_cases hn : n = rdfsGetPhysNumaId sb p
  · subst hn
    have hq := h (rdfsGetPhysNumaId sb p)
    unfold rdfsPreFreeBlock at hc ⊢
    dsimp only at hc ⊢
    split_ifs at hc ⊢ with hz
    · simpa using hp
    · simpa using hq hz
  · rw [rdfsPreFreeBlock_of_ne hn] at hc ⊢
    exact h n hc

/-- A page added to the chains and then everything spliced in is the chains spliced in and then
the page freed. -/
theorem preFreeBlock_list (h : EndsApart pre p) :
    let r := rdfsPreFreeBlock sb (pre, st.mem) p
    rdfsPreFreeList sb { st with mem := r.2 } r.1 =
      rdfsFreeBlock sb (rdfsPreFreeList sb st pre) p := by
  intro r
  unfold rdfsPreFreeList
  rcases node_cases (rdfsGetPhysNumaId sb p) with hn | hn
  · have hpush := spliceNode_preFreeBlock st (h (rdfsGetPhysNumaId sb p))
    have hone : (1 : Fin 2) ≠ rdfsGetPhysNumaId sb p := by rw [hn]; decide
    rw [hn] at hpush
    rw [hpush, spliceNode_congr (rdfsPreFreeBlock_of_ne hone), spliceNode_freeBlock hone (h 1)]
  · have hzero : (0 : Fin 2) ≠ rdfsGetPhysNumaId sb p := by rw [hn]; decide
    have hpush := spliceNode_preFreeBlock (spliceNode sb pre st 0) (h (rdfsGetPhysNumaId sb p))
    rw [hn] at hpush
    rw [← hpush, spliceNode_congr (rdfsPreFreeBlock_of_ne hzero), spliceNode_link (h 0),
      rdfsPreFreeBlock_chains st.mem]

/-- Pages added to the chains one after the other, and then everything spliced in. -/
theorem foldl_preFreeBlock (st : Nvm) (m : Mem) {ps : List ℕ}
    (hapart : ∀ p ∈ ps, EndsApart pre p) (hps : ps.Pairwise fun p q => p + 8 ≤ q ∨ q + 8 ≤ p) :
    let r := ps.foldl (rdfsPreFreeBlock sb) (pre, m)
    rdfsPreFreeList sb { st with mem := r.2 } r.1 =
      ps.foldl (rdfsFreeBlock sb) (rdfsPreFreeList sb { st with mem := m } pre) := by
  induction ps generalizing pre m with
  | nil => rfl
  | cons p ps ih =>
    obtain ⟨hp, hps⟩ := pairwise_cons.1 hps
    rw [foldl_cons, foldl_cons, ← preFreeBlock_list (hapart p mem_cons_self)]
    refine ih _ (fun q hq => ?_) hps
    exact (hapart q (mem_cons_of_mem _ hq)).preFreeBlock (hp q hq).symm

/-- A batch of pages that do not overlap is the pages freed one by one. -/
theorem preFree_eq_foldl {ps : List ℕ} (hps : ps.Pairwise fun p q => p + 8 ≤ q ∨ q + 8 ≤ p) :
    preFree sb st ps = ps.foldl (rdfsFreeBlock sb) st :=
  foldl_preFreeBlock st st.mem
    (fun _ _ n hc => absurd (show (rdfsPreFreeInit n).freeCount = 0 from rfl) hc) hps

/-- In every state of a run, a batch of distinct outstanding pages of both nodes, in any order,
leaves the region (the link words) and the descriptors of the nodes (heads and counts) as
`rdfs_free_block` leaves them that is called for the same pages in the same order. -/
theorem PageRun.preFree_eq {L : PageLayout sb} {out : Fin 2 → List ℕ} (h : PageRun L st out)
    {ps : List ℕ} (hnodup : ps.Nodup) (hps : ∀ p ∈ ps, ∃ n, p ∈ out n) :
    preFree sb st ps = ps.foldl (rdfsFreeBlock sb) st := by
  have hpage : ∀ p ∈ ps, ∃ n, p ∈ L.pages n := fun p hp => by
    obtain ⟨n, hn⟩ := hps p hp
    exact ⟨n, (h.freeInv n).mem_out hn⟩
  refine preFree_eq_foldl (hnodup.imp_of_mem fun {p q} hp hq hne => ?_)
  obtain ⟨n, hpn⟩ := hpage p hp
  obtain ⟨k, hqk⟩ := hpage q hq
  have := PageLayout.disjoint_of_mem hpn hqk hne
  omega

/-- A region of two nodes, with two pages each. -/
def PageLayout.twoEach : PageLayout twoNodes where
  base n := if n = 0 then 4096 else rdfsNumaLine + 4096
  count _ := 2
  aligned := by decide
  bound := by decide
  below := by decide
  above := by decide
  single := twoNodes_single

/-- A page of each node, freed in one batch, the page of node 1 first. -/
theorem PageRun.preFree_eq_twoEach : ∃ st out, PageRun PageLayout.twoEach st out ∧
    out 0 = [4096] ∧ out 1 = [rdfsNumaLine + 4096] ∧
    preFree twoNodes st [rdfsNumaLine + 4096, 4096] =
      [rdfsNumaLine + 4096, 4096].foldl (rdfsFreeBlock twoNodes) st := by
  have h := (PageRun.start (L := PageLayout.twoEach) (fun _ => 0) fun _ => default)
  have h₀ := PageRun.newBlock 0 0 1 (some 0) (by decide) h
  have h₁ := PageRun.newBlock 0 0 1 (some (rdfsNumaLine + 1)) (by decide) h₀
  refine ⟨_, _, h₁, rfl, rfl, h₁.preFree_eq (by decide) ?_⟩
  intro p hp
  rcases mem_pair.1 hp with rfl | rfl
  · exact ⟨1, mem_singleton.2 rfl⟩
  · exact ⟨0, mem_singleton.2 rfl⟩

end Rdfs
