import Rdfs.Layout
import Rdfs.Pool

/-!
# Page allocation

The free pages of a node form a list threaded through the first word of each page
(`balloc.c`). `rdfsNewBlock` takes the first `num` pages off the list of one node and
`rdfsFreeBlock` puts a page back in front of the list of the node its address belongs to.

`PageLayout` is where the pages of each node lie, as `rdfs_init_numa` computes it. A run
(`PageRun`) starts from the lists that `rdfsInitFreeBlockListOffset` links up and
interleaves allocations on any processor, with or without an inode, frees of outstanding
pages, and arbitrary writes to outstanding pages by whoever holds them. Along every run the
free list and the outstanding pages of a node are a permutation of the node's pages
(`PageRun.freeInv`), from which `PageRun.free_list_spec` reads off what the list holds and what
the next allocation and the next free do.
-/

namespace Rdfs

open List Function

/-! ## The code -/

/-- The word a pointer into the region points to. -/
def deref (sb : Super) (m : Mem) (virt : ℕ) : ℕ := m.load 8 (rdfsPa sb virt)

/-- The node `rdfs_new_block` allocates from : that of the inode if there is one, else that
of the processor. -/
def newBlockNode (sb : Super) (cpu : ℕ) : Option ℕ → Fin 2
  | none => getCpuNuma sb cpu
  | some ni => rdfsGetNumaByInode sb ni

/-- `rdfs_new_block` : the return value, `*physaddr` on return, and the region. `num` is an
`int` that the comparison with the 64-bit count converts to an unsigned value. -/
def rdfsNewBlock (sb : Super) (cpu : ℕ) (st : Nvm) (physaddr : ℕ) (num : ℤ) (ni : Option ℕ) :
    ℤ × ℕ × Nvm :=
  let n := newBlockNode sb cpu ni
  let d := st.numaDes n
  if d.freePageCount < u64 num then (-1, physaddr, st)
  else
    let next := (fun p => rdfsVa sb (deref sb st.mem p))^[num.toNat] (rdfsVa sb d.freePagePhy)
    (0, d.freePagePhy, st.setNuma n
      { d with freePageCount := (d.freePageCount - num).toNat, freePagePhy := rdfsPa sb next })

/-- `rdfs_free_block`. -/
def rdfsFreeBlock (sb : Super) (st : Nvm) (phys : ℕ) : Nvm :=
  let n := rdfsGetPhysNumaId sb phys
  let d := st.numaDes n
  { st with mem := st.mem.store 8 (rdfsPa sb (rdfsVa sb phys)) d.freePagePhy }.setNuma n
    { d with freePageCount := d.freePageCount + 1, freePagePhy := phys }

/-- `rdfs_init_free_block_list_offset` : every page of the node linked to the next. -/
def rdfsInitFreeBlockListOffset (d : NumaDes) (m : Mem) : Mem :=
  linkUp 4096 0 d.freePageCount d.freePagePhy m

/-- The pages visited from `free_page_phy` in `free_page_count` steps. -/
def freePages (st : Nvm) (n : Fin 2) : List ℕ :=
  chain st.mem 0 (st.numaDes n).freePagePhy (st.numaDes n).freePageCount

/-- The first `num` pages from `phys` on, following the links. -/
def pagesFrom (st : Nvm) (phys num : ℕ) : List ℕ := chain st.mem 0 phys num

@[simp] theorem length_freePages (st : Nvm) (n : Fin 2) :
    (freePages st n).length = (st.numaDes n).freePageCount :=
  length_chain _ _ _ _

variable {st st' : Nvm} {n : Fin 2} {num : ℤ} {ni : Option ℕ} {phys p : ℕ}

theorem freePages_congr (hphy : (st'.numaDes n).freePagePhy = (st.numaDes n).freePagePhy)
    (hcnt : (st'.numaDes n).freePageCount = (st.numaDes n).freePageCount)
    (hm : ∀ p ∈ freePages st n, Mem.SameOn st.mem st'.mem 8 p) :
    freePages st' n = freePages st n := by
  unfold freePages
  rw [hphy, hcnt]
  exact chain_congr hm

/-! ## One allocation, one free -/

theorem iterate_deref (sb : Super) (m : Mem) (k phys : ℕ) :
    (fun p => rdfsVa sb (deref sb m p))^[k] (rdfsVa sb phys) =
      rdfsVa sb ((fun p => m.load 8 (p + 0))^[k] phys) := by
  induction k generalizing phys with
  | zero => rfl
  | succ k ih =>
    rw [iterate_succ_apply, iterate_succ_apply, ← ih]
    simp [deref]

/-- A node with too few pages : nothing changes. -/
theorem rdfsNewBlock_fail {sb : Super} {cpu : ℕ} (physaddr : ℕ)
    (h : (st.numaDes (newBlockNode sb cpu ni)).freePageCount < u64 num) :
    rdfsNewBlock sb cpu st physaddr num ni = (-1, physaddr, st) := by
  simp [rdfsNewBlock, h]

/-- A node with enough pages : the call returns the head of the list and moves the head
`k` pages on. -/
theorem rdfsNewBlock_ok {sb : Super} {cpu : ℕ} {k : ℕ} (physaddr : ℕ)
    (hn : newBlockNode sb cpu ni = n) (hk : k < 2 ^ 64) (h : k ≤ (st.numaDes n).freePageCount) :
    ∃ st', rdfsNewBlock sb cpu st physaddr k ni = (0, (st.numaDes n).freePagePhy, st') ∧
      st'.mem = st.mem ∧ st'.numaDes n = { st.numaDes n with
        freePagePhy := (fun p => st.mem.load 8 (p + 0))^[k] (st.numaDes n).freePagePhy
        freePageCount := (st.numaDes n).freePageCount - k } ∧
      ∀ j ≠ n, st'.numaDes j = st.numaDes j := by
  subst hn
  simp only [rdfsNewBlock, u64_natCast hk, if_neg (not_lt.2 h), iterate_deref, rdfsPa_rdfsVa]
  refine ⟨_, rfl, rfl, ?_, fun j hj => Nvm.setNuma_of_ne _ _ hj⟩
  rw [Nvm.setNuma_self, NumaDes.mk.injEq]
  exact ⟨rfl, by omega, rfl, rfl⟩

theorem rdfsFreeBlock_numaDes_of_ne {sb : Super} (st : Nvm) {k : Fin 2}
    (hk : k ≠ rdfsGetPhysNumaId sb phys) : (rdfsFreeBlock sb st phys).numaDes k = st.numaDes k :=
  Nvm.setNuma_of_ne _ _ hk

theorem sameOff_rdfsFreeBlock (sb : Super) (st : Nvm) (phys : ℕ) :
    Mem.SameOff st.mem (rdfsFreeBlock sb st phys).mem 8 phys := by
  simpa [rdfsFreeBlock] using Mem.sameOff_store st.mem 8 phys _

/-! ## Where the pages are -/

/-- The pages of each node : aligned, node 0 below the NUMA line and node 1 above it when
the region has two nodes, and no page in node 1 when it has one. -/
structure PageLayout (sb : Super) where
  base : Fin 2 → ℕ
  count : Fin 2 → ℕ
  aligned : ∀ n, 4096 ∣ base n
  bound : ∀ n, base n + 4096 * count n < 2 ^ 63
  below : sb.sNumaFlag = true → base 0 + 4096 * count 0 ≤ rdfsNumaLine
  above : sb.sNumaFlag = true → rdfsNumaLine < base 1
  single : sb.sNumaFlag = false → count 1 = 0

namespace PageLayout

variable {sb : Super} (L : PageLayout sb)

/-- The pages of node `n`, in ascending order. -/
def pages (n : Fin 2) : List ℕ := (List.range (L.count n)).map fun i => L.base n + 4096 * i

theorem nodup_pages (n : Fin 2) : (L.pages n).Nodup := nodup_range.map fun i j h => by omega

variable {L}

theorem mem_pages : p ∈ L.pages n ↔ ∃ i < L.count n, p = L.base n + 4096 * i := by
  simp only [pages, mem_map, mem_range]
  exact ⟨fun ⟨i, hi, h⟩ => ⟨i, hi, h.symm⟩, fun ⟨i, hi, h⟩ => ⟨i, hi, h.symm⟩⟩

section

variable (h : p ∈ L.pages n)
include h

theorem dvd_of_mem_pages : 4096 ∣ p := by
  obtain ⟨i, -, rfl⟩ := mem_pages.1 h
  exact Nat.dvd_add (L.aligned n) (Nat.dvd_mul_right _ _)

theorem lt_of_mem_pages : p + 4096 < 2 ^ 63 := by
  obtain ⟨i, hi, rfl⟩ := mem_pages.1 h
  have := L.bound n
  omega

/-- The address of a page tells its node. -/
theorem rdfsGetPhysNumaId_of_mem : rdfsGetPhysNumaId sb p = n := by
  obtain ⟨i, hi, rfl⟩ := mem_pages.1 h
  unfold rdfsGetPhysNumaId
  by_cases hf : sb.sNumaFlag = true
  · rcases node_cases n with rfl | rfl
    · have := L.below hf
      rw [if_neg (by omega)]
    · have := L.above hf
      rw [if_pos ⟨hf, by omega⟩]
  · rcases node_cases n with rfl | rfl
    · rw [if_neg (by simp [hf])]
    · rw [L.single (by simpa using hf)] at hi
      omega

theorem node_eq_of_mem {k : Fin 2} (h' : p ∈ L.pages k) : n = k :=
  (rdfsGetPhysNumaId_of_mem h).symm.trans (rdfsGetPhysNumaId_of_mem h')

end

/-- Two distinct pages do not overlap. -/
theorem disjoint_of_mem {k : Fin 2} {p q : ℕ} (hp : p ∈ L.pages n) (hq : q ∈ L.pages k)
    (hne : p ≠ q) : p + 4096 ≤ q ∨ q + 4096 ≤ p := by
  obtain ⟨a, rfl⟩ := dvd_of_mem_pages hp
  obtain ⟨b, rfl⟩ := dvd_of_mem_pages hq
  omega

theorem sep_pages (L : PageLayout sb) (n : Fin 2) : Sep 8 (L.pages n) := by
  intro p hp q hq hne
  have := disjoint_of_mem hp hq hne
  omega

/-- A region of one node, mapped where it lies, with four pages. -/
def fourPages : PageLayout oneNode where
  base n := if n = 0 then 4096 else 0
  count n := if n = 0 then 4 else 0
  aligned := by decide
  bound := by decide
  below := by decide
  above := by decide
  single := by decide

/-- The region after `rdfs_init_free_block_list_offset` has linked up both nodes. -/
def start (L : PageLayout sb) (m : Mem) (d : Fin 2 → NumaDes) : Nvm :=
  let des : Fin 2 → NumaDes := fun n =>
    { d n with freePagePhy := L.base n, freePageCount := L.count n }
  { mem := rdfsInitFreeBlockListOffset (des 1) (rdfsInitFreeBlockListOffset (des 0) m)
    numaDes := des }

/-- At the start every page of a node is free, in ascending order. -/
theorem freePages_start (m : Mem) (d : Fin 2 → NumaDes) (n : Fin 2) :
    freePages (L.start m d) n = L.pages n := by
  have hb := L.bound n
  have hchain : ∀ m', chain (linkUp 4096 0 (L.count n) (L.base n) m') 0 (L.base n) (L.count n) =
      L.pages n := fun m' => chain_linkUp _ (by decide) m' (by omega)
  rcases node_cases n with rfl | rfl
  · have hsame : ∀ p ∈ chain (linkUp 4096 0 (L.count 0) (L.base 0) m) 0 (L.base 0) (L.count 0),
        Mem.SameOn (linkUp 4096 0 (L.count 0) (L.base 0) m) (L.start m d).mem 8 (p + 0) := by
      intro p hp x h1 h2
      refine linkUp_apply _ fun i hi => ?_
      rw [hchain m] at hp
      have hq : L.base 1 + 4096 * i ∈ L.pages 1 := mem_pages.2 ⟨i, hi, rfl⟩
      have hne : p ≠ L.base 1 + 4096 * i := by
        rintro rfl
        exact absurd (node_eq_of_mem hp hq) (by decide)
      have := disjoint_of_mem hp hq hne
      simp only
      omega
    exact (chain_congr hsame).trans (hchain m)
  · exact hchain _

end PageLayout

/-! ## Runs -/

variable {sb : Super}

/-- The pages `out` still holds once a call of `rdfs_new_block` has returned. -/
def takeOut (st : Nvm) (out : Fin 2 → List ℕ) (n : Fin 2) (num : ℤ) (ret : ℤ × ℕ × Nvm) :
    Fin 2 → List ℕ :=
  if ret.1 = 0 then Function.update out n (out n ++ pagesFrom st ret.2.1 num.toNat) else out

/-- States reached from linked-up lists by allocations, frees of outstanding pages, and
writes to outstanding pages; `out n` are the pages of node `n` that are outstanding. -/
inductive PageRun (L : PageLayout sb) : Nvm → (Fin 2 → List ℕ) → Prop
  | start (m : Mem) (d : Fin 2 → NumaDes) : PageRun L (L.start m d) fun _ => []
  | newBlock {st : Nvm} {out : Fin 2 → List ℕ} (cpu physaddr : ℕ) (num : ℤ) (ni : Option ℕ)
      (hnum : -2 ^ 31 ≤ num ∧ num < 2 ^ 31) (h : PageRun L st out) :
      PageRun L (rdfsNewBlock sb cpu st physaddr num ni).2.2
        (takeOut st out (newBlockNode sb cpu ni) num (rdfsNewBlock sb cpu st physaddr num ni))
  | freeBlock {st : Nvm} {out : Fin 2 → List ℕ} {n : Fin 2} {phys : ℕ} (hp : phys ∈ out n)
      (h : PageRun L st out) :
      PageRun L (rdfsFreeBlock sb st phys) (Function.update out n ((out n).erase phys))
  | write {st : Nvm} {out : Fin 2 → List ℕ} {m : Mem}
      (hm : ∀ x, (∀ n, ∀ p ∈ out n, ¬(p ≤ x ∧ x < p + 4096)) → m x = st.mem x)
      (h : PageRun L st out) : PageRun L { st with mem := m } out

/-- The free list and the outstanding pages of a node are its pages, each once. -/
def FreeInv (L : PageLayout sb) (st : Nvm) (out : Fin 2 → List ℕ) : Prop :=
  ∀ n, Pool (L.pages n) st.mem 0 (st.numaDes n).freePagePhy (st.numaDes n).freePageCount (out n)

namespace FreeInv

variable {L : PageLayout sb} {st : Nvm} {out : Fin 2 → List ℕ}

theorem ne_of_mem (h : FreeInv L st out) {k : Fin 2} {p q : ℕ} (hp : p ∈ freePages st n)
    (hq : q ∈ out k) : p ≠ q := by
  rintro rfl
  obtain rfl := PageLayout.node_eq_of_mem ((h n).mem_free hp) ((h k).mem_out hq)
  exact (h n).ne_of_mem hp hq rfl

/-- A negative `num` is read as more pages than a node has. -/
theorem count_lt_u64 (h : FreeInv L st out) (n : Fin 2) (hnum : -2 ^ 31 ≤ num ∧ num < 2 ^ 31) :
    (st.numaDes n).freePageCount < u64 num ↔ ((freePages st n).length : ℤ) < num ∨ num < 0 := by
  have hlen := (h n).count_le
  have hb := L.bound n
  rw [PageLayout.pages, length_map, length_range] at hlen
  rw [length_freePages]
  unfold u64
  omega

/-- What a call of `rdfs_new_block` can do. -/
theorem newBlock_cases (h : FreeInv L st out) (cpu physaddr : ℕ) (hn : newBlockNode sb cpu ni = n)
    (hnum : -2 ^ 31 ≤ num ∧ num < 2 ^ 31) : ((((freePages st n).length : ℤ) < num ∨ num < 0) ∧
      rdfsNewBlock sb cpu st physaddr num ni = (-1, physaddr, st)) ∨
    ∃ (k : ℕ) (st' : Nvm), num = k ∧ k ≤ (freePages st n).length ∧
      rdfsNewBlock sb cpu st physaddr num ni = (0, (st.numaDes n).freePagePhy, st') ∧
      st'.mem = st.mem ∧ st'.numaDes n = { st.numaDes n with
        freePagePhy := (fun p => st.mem.load 8 (p + 0))^[k] (st.numaDes n).freePagePhy
        freePageCount := (st.numaDes n).freePageCount - k } ∧
      ∀ j ≠ n, st'.numaDes j = st.numaDes j := by
  have hiff := h.count_lt_u64 n hnum
  by_cases hc : (st.numaDes n).freePageCount < u64 num
  · exact Or.inl ⟨hiff.1 hc, rdfsNewBlock_fail physaddr (hn ▸ hc)⟩
  · rw [hiff] at hc
    obtain ⟨k, rfl⟩ := Int.eq_ofNat_of_zero_le (show 0 ≤ num by omega)
    have hk : k ≤ (freePages st n).length := by omega
    obtain ⟨st', hr, hm, hd, ho⟩ := rdfsNewBlock_ok physaddr hn
      (show k < 2 ^ 64 by omega) (by simpa using hk)
    exact Or.inr ⟨k, st', rfl, hk, hr, hm, hd, ho⟩

theorem freePages_of_ne {k : Fin 2} (hm : st'.mem = st.mem)
    (ho : ∀ j ≠ n, st'.numaDes j = st.numaDes j) (hk : k ≠ n) :
    freePages st' k = freePages st k := by
  unfold freePages
  rw [hm, ho k hk]

/-- The pages an allocation takes are the first of the free list. -/
theorem pagesFrom_head {k : ℕ} (hk : k ≤ (freePages st n).length) :
    pagesFrom st (st.numaDes n).freePagePhy k = (freePages st n).take k :=
  (take_chain _ _ _ (by simpa using hk)).symm

section

variable (h : FreeInv L st out)
include h

theorem newBlock (cpu physaddr : ℕ) (ni : Option ℕ) (hnum : -2 ^ 31 ≤ num ∧ num < 2 ^ 31) :
    FreeInv L (rdfsNewBlock sb cpu st physaddr num ni).2.2
      (takeOut st out (newBlockNode sb cpu ni) num (rdfsNewBlock sb cpu st physaddr num ni)) := by
  generalize hn : newBlockNode sb cpu ni = n
  obtain ⟨-, hr⟩ | ⟨k, st', rfl, hk, hr, hm, hd, ho⟩ := h.newBlock_cases cpu physaddr hn hnum
  · simpa [hr, takeOut] using h
  · simp only [hr, takeOut, if_true, Int.toNat_natCast, pagesFrom_head hk]
    intro j
    rw [hm]
    by_cases hj : j = n
    · subst hj
      rw [update_self, hd]
      exact (h j).pop
    · rw [update_of_ne hj, ho j hj]
      exact h j

/-- A freed page goes back to the list of the node it came from, and to no other. -/
theorem freePages_free (hp : phys ∈ out n) :
    freePages (rdfsFreeBlock sb st phys) n = phys :: freePages st n ∧
      ∀ k ≠ n, freePages (rdfsFreeBlock sb st phys) k = freePages st k := by
  obtain rfl := PageLayout.rdfsGetPhysNumaId_of_mem ((h n).mem_out hp)
  refine ⟨?_, fun k hk => ?_⟩
  · unfold freePages
    simp only [rdfsFreeBlock, rdfsPa_rdfsVa, Nvm.setNuma_self]
    exact (h _).chain_push_out (PageLayout.sep_pages L _) hp
  · have hdes := rdfsFreeBlock_numaDes_of_ne st hk
    refine freePages_congr (by rw [hdes]) (by rw [hdes]) fun q hq => ?_
    have hsep := PageLayout.disjoint_of_mem ((h k).mem_free hq) ((h _).mem_out hp)
      (h.ne_of_mem hq hp)
    exact (sameOff_rdfsFreeBlock sb st phys).sameOn (by omega)

theorem freeBlock (hp : phys ∈ out n) :
    FreeInv L (rdfsFreeBlock sb st phys) (Function.update out n ((out n).erase phys)) := by
  have hpage := (h n).mem_out hp
  have hlt := PageLayout.lt_of_mem_pages hpage
  obtain rfl := PageLayout.rdfsGetPhysNumaId_of_mem hpage
  intro k
  by_cases hk : k = rdfsGetPhysNumaId sb phys
  · subst hk
    rw [update_self]
    simp only [rdfsFreeBlock, rdfsPa_rdfsVa, Nvm.setNuma_self]
    exact (h _).push (PageLayout.sep_pages L _) hp (by omega)
  · rw [update_of_ne hk, rdfsFreeBlock_numaDes_of_ne st hk]
    refine (h k).congr fun q hq => ?_
    have hsep := PageLayout.disjoint_of_mem ((h k).mem_free hq) hpage (h.ne_of_mem hq hp)
    exact (sameOff_rdfsFreeBlock sb st phys).sameOn (by omega)

theorem write {m : Mem} (hm : ∀ x, (∀ n, ∀ p ∈ out n, ¬(p ≤ x ∧ x < p + 4096)) → m x = st.mem x) :
    FreeInv L { st with mem := m } out := by
  intro n
  refine (h n).congr fun p hp x h1 h2 => hm x fun k q hq hx => ?_
  have := PageLayout.disjoint_of_mem ((h n).mem_free hp) ((h k).mem_out hq) (h.ne_of_mem hp hq)
  omega

end

end FreeInv

namespace PageRun

variable {L : PageLayout sb} {st : Nvm} {out : Fin 2 → List ℕ}

/-- Along every run a page is free or outstanding, and not both. -/
theorem freeInv (h : PageRun L st out) : FreeInv L st out := by
  induction h with
  | start m d =>
    intro n
    have hb := L.bound n
    refine Pool.start (PageLayout.freePages_start m d n) (L.nodup_pages n) ?_
    simp only [PageLayout.start]
    omega
  | newBlock cpu physaddr num ni hnum _ ih => exact ih.newBlock cpu physaddr ni hnum
  | freeBlock hp _ ih => exact ih.freeBlock hp
  | write hm _ ih => exact ih.write hm

/-- In every state of a run : the free list of a node holds distinct aligned pages of the
node, none of them outstanding; an allocation fails, changing nothing, exactly when the
node it draws on holds fewer than `num` pages (a negative `num` always fails), and otherwise
returns the head of `num` linked pages that leave the list; a freed page goes back to the
list of its node. -/
theorem free_list_spec (h : PageRun L st out) :
    (∀ n, (freePages st n).Nodup ∧ ∀ p ∈ freePages st n, 4096 ∣ p ∧ p ∈ L.pages n ∧
      ∀ k, p ∉ out k) ∧
    (∀ (cpu physaddr : ℕ) (num : ℤ) (ni : Option ℕ) (n : Fin 2),
      -2 ^ 31 ≤ num ∧ num < 2 ^ 31 → newBlockNode sb cpu ni = n →
      (0 ≤ num → ((rdfsNewBlock sb cpu st physaddr num ni).1 = -1 ↔
        ((freePages st n).length : ℤ) < num)) ∧
      (num < 0 → (rdfsNewBlock sb cpu st physaddr num ni).1 = -1) ∧
      ((rdfsNewBlock sb cpu st physaddr num ni).1 = -1 →
        rdfsNewBlock sb cpu st physaddr num ni = (-1, physaddr, st)) ∧
      ((rdfsNewBlock sb cpu st physaddr num ni).1 ≠ -1 →
        (rdfsNewBlock sb cpu st physaddr num ni).1 = 0 ∧
        (rdfsNewBlock sb cpu st physaddr num ni).2.2.mem = st.mem ∧
        pagesFrom st (rdfsNewBlock sb cpu st physaddr num ni).2.1 num.toNat ++
          freePages (rdfsNewBlock sb cpu st physaddr num ni).2.2 n = freePages st n ∧
        ∀ k ≠ n, freePages (rdfsNewBlock sb cpu st physaddr num ni).2.2 k = freePages st k)) ∧
    (∀ (n : Fin 2) (phys : ℕ), phys ∈ out n →
      freePages (rdfsFreeBlock sb st phys) n = phys :: freePages st n ∧
      ∀ k ≠ n, freePages (rdfsFreeBlock sb st phys) k = freePages st k) := by
  have hinv := h.freeInv
  refine ⟨fun n => ⟨(nodup_append.1 (hinv n).nodup_append).1, fun p hp => ?_⟩, ?_,
    fun n phys hp => hinv.freePages_free hp⟩
  · have hpage := (hinv n).mem_free hp
    exact ⟨PageLayout.dvd_of_mem_pages hpage, hpage, fun k hk => hinv.ne_of_mem hp hk rfl⟩
  · intro cpu physaddr num ni n hnum hn
    obtain ⟨hlt, hr⟩ | ⟨k, st', rfl, hk, hr, hm, hd, ho⟩ := hinv.newBlock_cases cpu physaddr hn hnum
    · rw [hr]
      exact ⟨fun h0 => ⟨fun _ => by omega, fun _ => rfl⟩, fun _ => rfl, fun _ => rfl,
        fun hne => absurd rfl hne⟩
    · rw [hr]
      refine ⟨fun _ => ⟨fun h0 => absurd h0 (by simp), fun h0 => by omega⟩, fun h0 => by omega,
        fun h0 => absurd h0 (by simp), fun _ => ⟨rfl, hm, ?_, ?_⟩⟩
      · rw [Int.toNat_natCast, FreeInv.pagesFrom_head hk]
        simp only [freePages, hm, hd, ← drop_chain, take_append_drop]
      · exact fun j hj => FreeInv.freePages_of_ne hm ho hj

/-- Four pages on one node, two of them allocated : a request for three more fails. -/
theorem free_list_spec_fourPages : let st := (rdfsNewBlock oneNode 0
      (PageLayout.fourPages.start (fun _ => 0) fun _ => default) 0 2 none).2.2
    (freePages st 0).length = 2 ∧ (rdfsNewBlock oneNode 0 st 0 3 none).1 = -1 := by
  intro st
  have hlen : (freePages st 0).length = 2 := by rw [length_freePages]; rfl
  have hrun := PageRun.newBlock 0 0 2 none (by decide)
    (PageRun.start (L := PageLayout.fourPages) (fun _ => 0) fun _ => default)
  have hspec := (free_list_spec hrun).2.1 0 0 3 none 0 (by decide) rfl
  exact ⟨hlen, (hspec.1 (by decide)).2 (by rw [hlen]; decide)⟩

/-- The test compares without a sign : a request for -1 pages fails on a node that holds four. -/
theorem newBlock_negative : let st := PageLayout.fourPages.start (fun _ => 0) fun _ => default
    PageRun PageLayout.fourPages st (fun _ => []) ∧ (freePages st 0).length = 4 ∧
      (rdfsNewBlock oneNode 0 st 0 (-1) none).1 = -1 ∧ ¬((freePages st 0).length : ℤ) < -1 := by
  intro st
  have hlen : (freePages st 0).length = 4 := by rw [length_freePages]; rfl
  exact ⟨.start _ _, hlen, rfl, by rw [hlen]; decide⟩

end PageRun

end Rdfs
