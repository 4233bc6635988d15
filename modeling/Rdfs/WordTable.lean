import Rdfs.Pool

/-!
# Tables of words

A table is an array of 64-bit words spread over pages of 512 words. It is filled from the
front : entry `i` holds the `i`-th of a list of addresses with flag bits added to it, and the
words behind the last entry are zero. `Table m tabs ents f` says that the pages `tabs` of the
memory `m` hold the addresses `ents` with flags `f`. Filling in the next word adds an entry
(`Table.push`), a cleared page adds room (`Table.grow`), and writes elsewhere do not matter
(`Table.congr`).
-/

namespace Rdfs

open List

/-- Word `i` of a table with the entries `ents`. -/
def tableWord (ents : List ℕ) (f i : ℕ) : ℕ := (ents[i]?).elim 0 (· ||| f)

variable {ents : List ℕ} {i : ℕ}

theorem tableWord_of_lt (f : ℕ) (h : i < ents.length) : tableWord ents f i = ents[i] ||| f := by
  simp [tableWord, h]

theorem tableWord_of_getElem? {i e : ℕ} (f : ℕ) (h : ents[i]? = some e) :
    tableWord ents f i = e ||| f := by
  simp [tableWord, h]

theorem tableWord_of_le (f : ℕ) (h : ents.length ≤ i) : tableWord ents f i = 0 := by
  simp [tableWord, h]

theorem tableWord_append_self (ents : List ℕ) (e f : ℕ) :
    tableWord (ents ++ [e]) f ents.length = e ||| f := by
  simp [tableWord]

theorem tableWord_append_of_ne (e f : ℕ) (h : i ≠ ents.length) :
    tableWord (ents ++ [e]) f i = tableWord ents f i := by
  rcases Nat.lt_or_gt_of_ne h with h | h
  · simp [tableWord, getElem?_append_left h]
  · rw [tableWord_of_le f (by simp; omega), tableWord_of_le f (by omega)]

/-- An entry is empty exactly where the list ends, flags being present in every other. -/
theorem tableWord_eq_zero_iff {f i : ℕ} (hf : f ≠ 0) :
    tableWord ents f i = 0 ↔ ents.length ≤ i := by
  refine ⟨fun h => ?_, tableWord_of_le f⟩
  by_contra hlt
  rw [tableWord_of_lt f (by omega), Nat.or_eq_zero_iff] at h
  exact hf h.2

/-- The pages `tabs` hold the entries `ents` with the flags `f`. -/
def Table (m : Mem) (tabs ents : List ℕ) (f : ℕ) : Prop :=
  ∀ a p, tabs[a]? = some p → ∀ j < 512, m.load 8 (p + 8 * j) = tableWord ents f (512 * a + j)

namespace Table

variable {m m' : Mem} {tabs ents : List ℕ} {f : ℕ}

theorem congr (h : Table m tabs ents f) (hm : ∀ p ∈ tabs, Mem.SameOn m m' 4096 p) :
    Table m' tabs ents f := by
  intro a p hp j hj
  have hsame := hm p (mem_of_getElem? hp)
  rw [← h a p hp j hj]
  exact Mem.load_congr fun x h1 h2 => hsame x (by omega) (by omega)

/-- A cleared page is an empty table. -/
theorem empty {p : ℕ} (h : ∀ x, p ≤ x → x < p + 4096 → m x = 0) (f : ℕ) : Table m [p] [] f := by
  intro a q hq j hj
  obtain rfl : q = p := by simpa using mem_of_getElem? hq
  rw [tableWord_of_le f (by simp)]
  exact Mem.load_eq_zero fun x h1 h2 => h x (by omega) (by omega)

/-- Cleared pages more. -/
theorem grow (h : Table m tabs ents f) (hfit : ents.length ≤ 512 * tabs.length) {ps : List ℕ}
    (hps : ∀ p ∈ ps, ∀ x, p ≤ x → x < p + 4096 → m x = 0) : Table m (tabs ++ ps) ents f := by
  intro a q hq j hj
  rcases Nat.lt_or_ge a tabs.length with ha | ha
  · rw [getElem?_append_left ha] at hq
    exact h a q hq j hj
  · rw [getElem?_append_right ha] at hq
    have hzero := hps q (mem_of_getElem? hq)
    rw [tableWord_of_le f (by omega)]
    exact Mem.load_eq_zero fun x h1 h2 => hzero x (by omega) (by omega)

/-- The next word filled in. -/
theorem push (h : Table m tabs ents f) (hn : tabs.Nodup) (hs : Sep 4096 tabs) {a p j e : ℕ}
    (hp : tabs[a]? = some p) (hj : j < 512) (hlen : ents.length = 512 * a + j)
    (he : e ||| f < 2 ^ 64) : Table (m.store 8 (p + 8 * j) (e ||| f)) tabs (ents ++ [e]) f := by
  intro b q hq i hi
  by_cases hhit : b = a ∧ i = j
  · obtain ⟨rfl, rfl⟩ := hhit
    obtain rfl : p = q := by simpa [hp] using hq
    rw [Mem.load_store_of_lt _ _ he, ← hlen, tableWord_append_self]
  · rw [tableWord_append_of_ne e f (by omega), ← h b q hq i hi]
    refine Mem.load_store_disjoint m ?_
    by_cases hpq : q = p
    · subst hpq
      have hab : b = a := (getElem?_inj (List.getElem?_eq_some_iff.1 hq).1 hn).1 (hq.trans hp.symm)
      omega
    · have := hs q (mem_of_getElem? hq) p (mem_of_getElem? hp) hpq
      omega

end Table

end Rdfs
