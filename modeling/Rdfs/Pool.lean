import Mathlib.Data.List.Perm.Basic
import Rdfs.Links

/-!
# Pools of cells

An allocator of fixed cells keeps the free ones on a chain threaded through the cells
themselves. `Pool cells m off head n out` says that the chain of `n` cells from `head` and
the outstanding cells `out` are the cells of the pool, each once. Taking cells off the front
of the chain (`Pool.pop`), putting an outstanding cell back (`Pool.push`) and writing
anywhere but to the links of free cells (`Pool.congr`) keep it so.
-/

namespace Rdfs

open List

/-- Distinct cells lie at least `s` bytes apart. -/
def Sep (s : ℕ) (cells : List ℕ) : Prop :=
  ∀ p ∈ cells, ∀ q ∈ cells, p ≠ q → p + s ≤ q ∨ q + s ≤ p

/-- The chain of `n` free cells from `head`, linked at offset `off`, and the outstanding
cells `out` are the cells of the pool. -/
structure Pool (cells : List ℕ) (m : Mem) (off head n : ℕ) (out : List ℕ) : Prop where
  perm : (chain m off head n ++ out).Perm cells
  nodup : cells.Nodup
  head_lt : head < 2 ^ 64

namespace Pool

variable {cells : List ℕ} {m m' : Mem} {off head n : ℕ} {out : List ℕ}

section

variable (h : Pool cells m off head n out)
include h

theorem mem_free {p : ℕ} (hp : p ∈ chain m off head n) : p ∈ cells :=
  h.perm.subset (mem_append_left _ hp)

theorem mem_out {p : ℕ} (hp : p ∈ out) : p ∈ cells := h.perm.subset (mem_append_right _ hp)

theorem nodup_append : (chain m off head n ++ out).Nodup := h.perm.nodup_iff.2 h.nodup

theorem ne_of_mem {p q : ℕ} (hp : p ∈ chain m off head n) (hq : q ∈ out) : p ≠ q :=
  (List.nodup_append.1 h.nodup_append).2.2 p hp q hq

theorem count_le : n ≤ cells.length := by
  have := h.perm.length_eq
  rw [length_append, length_chain] at this
  omega

end

/-- A pool none of whose cells is out, as it was linked up. -/
theorem start (hc : chain m off head n = cells) (hn : cells.Nodup) (hh : head < 2 ^ 64) :
    Pool cells m off head n [] :=
  ⟨by rw [hc, append_nil], hn, hh⟩

section

variable (h : Pool cells m off head n out)
include h

/-- The first `k` free cells are handed out. -/
theorem pop {k : ℕ} : Pool cells m off ((fun p => m.load 8 (p + off))^[k] head) (n - k)
      (out ++ (chain m off head n).take k) := by
  refine ⟨?_, h.nodup, ?_⟩
  · rw [← drop_chain]
    have hsplit : ((chain m off head n).drop k ++ (out ++ (chain m off head n).take k)).Perm
        ((chain m off head n).take k ++ (chain m off head n).drop k ++ out) := by
      rw [← append_assoc, append_assoc _ _ out]
      exact perm_append_comm
    rw [take_append_drop] at hsplit
    exact hsplit.trans h.perm
  · cases k with
    | zero => exact h.head_lt
    | succ k =>
      rw [Function.iterate_succ_apply']
      exact Mem.load_lt _ _ _

/-- A write that misses the links of the free cells. -/
theorem congr (hm : ∀ p ∈ chain m off head n, Mem.SameOn m m' 8 (p + off)) :
    Pool cells m' off head n out :=
  ⟨by rw [chain_congr hm]; exact h.perm, h.nodup, h.head_lt⟩

theorem of_perm {out' : List ℕ} (hp : out'.Perm out) : Pool cells m off head n out' :=
  ⟨(hp.append_left _).trans h.perm, h.nodup, h.head_lt⟩

/-- Putting an outstanding cell back in front of the chain. -/
theorem chain_push_out (hs : Sep 8 cells) {p : ℕ} (hp : p ∈ out) :
    chain (m.store 8 (p + off) head) off p (n + 1) = p :: chain m off head n :=
  chain_push h.head_lt fun q hq => hs q (h.mem_free hq) p (h.mem_out hp) (h.ne_of_mem hq hp)

theorem push (hs : Sep 8 cells) {p : ℕ} (hp : p ∈ out) (hlt : p < 2 ^ 64) :
    Pool cells (m.store 8 (p + off) head) off p (n + 1) (out.erase p) := by
  refine ⟨?_, h.nodup, hlt⟩
  rw [h.chain_push_out hs hp]
  have hmove : (p :: chain m off head n ++ out.erase p).Perm (chain m off head n ++ out) :=
    perm_middle.symm.trans ((perm_cons_erase hp).symm.append_left _)
  exact hmove.trans h.perm

end

end Pool

end Rdfs
