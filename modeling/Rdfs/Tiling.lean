import Mathlib.Algebra.BigOperators.Group.List.Basic
import Mathlib.Algebra.GroupWithZero.Nat

/-!
# Ranges cut into pieces

A loop that walks over a range of numbers and handles it piece by piece cuts it into pieces, each
given by its first number and its size. `Tiles a b l` says that the pieces `l` make up the range
from `a` to `b` : none is empty, the first starts at `a`, each next one starts where the one before
it ended, and the last ends at `b`. Then a number is in a piece exactly when it is in the range
(`Tiles.exists_mem_iff`), and a piece starts at `a` plus the sizes of the pieces before it
(`Tiles.first_eq`).
-/

namespace Rdfs

/-- The pieces `l`, each a first number and a size, make up the range from `a` to `b`. -/
def Tiles (a b : ℕ) : List (ℕ × ℕ) → Prop
  | [] => a = b
  | p :: l => p.1 = a ∧ 0 < p.2 ∧ Tiles (a + p.2) b l

variable {a b : ℕ} {l : List (ℕ × ℕ)}

theorem Tiles.le (h : Tiles a b l) : a ≤ b := by
  induction l generalizing a with
  | nil => exact Nat.le_of_eq h
  | cons p l ih => exact Nat.le_trans (Nat.le_add_right a p.2) (ih h.2.2)

/-- A piece starts at `a` plus the sizes of the pieces before it. -/
theorem Tiles.first_eq (h : Tiles a b l) {k : ℕ} {p : ℕ × ℕ} (hk : l[k]? = some p) :
    p.1 = a + ((l.take k).map Prod.snd).sum := by
  induction l generalizing a k with
  | nil => exact absurd hk (by simp)
  | cons q l ih =>
    obtain ⟨hq, -, h⟩ := h
    cases k with
    | zero =>
      obtain rfl : q = p := by simpa using hk
      simpa using hq
    | succ k =>
      rw [ih h (List.getElem?_cons_succ ▸ hk)]
      simp only [List.take_succ_cons, List.map_cons, List.sum_cons]
      omega

theorem Tiles.sum_eq (h : Tiles a b l) : a + (l.map Prod.snd).sum = b := by
  induction l generalizing a with
  | nil => exact h
  | cons p l ih =>
    rw [← ih h.2.2, List.map_cons, List.sum_cons]
    omega

/-- A number is in one of the pieces exactly when it is in the range. -/
theorem Tiles.exists_mem_iff (h : Tiles a b l) (x : ℕ) :
    (∃ p ∈ l, p.1 ≤ x ∧ x < p.1 + p.2) ↔ a ≤ x ∧ x < b := by
  induction l generalizing a with
  | nil =>
    obtain rfl : a = b := h
    refine iff_of_false (by simp) (by omega)
  | cons p l ih =>
    obtain ⟨hp, hpos, h⟩ := h
    have hle := h.le
    simp only [List.mem_cons, exists_eq_or_imp, ih h]
    omega

end Rdfs
