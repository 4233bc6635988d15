import Mathlib.Algebra.GroupWithZero.Nat
import Mathlib.Data.List.Basic
import Mathlib.Tactic.Common

/-!
# Moving a window over a row of pieces

Pieces of the lengths `ls` lie one behind another, and `bounds a ls` are the places where they meet,
from `a` on. A search goes through these places with a window of reach `w` : it starts with a window
at the first place, and whenever it comes to a place more than `w` behind the start of its window,
it moves the window there. `moves w k ls` is how often it does, if the window starts `k` before the
first place.

The search moves as late as it can, so no search does with fewer windows : `n + 1` places that are
more than `w` apart from one another are found exactly if it moves `n` times (`le_moves_iff`).
-/

namespace Rdfs

open List

/-- Where pieces of the lengths `ls` meet, from `a` to the end of the last one. -/
def bounds (a : ℕ) : List ℕ → List ℕ
  | [] => [a]
  | l :: ls => a :: bounds (a + l) ls

/-- How often a window of reach `w` that starts `k` before the first piece is moved. -/
def moves (w : ℕ) : ℕ → List ℕ → ℕ
  | _, [] => 0
  | k, l :: ls => if w < k + l then moves w 0 ls + 1 else moves w (k + l) ls

/-- Each place is more than `w` behind those before it. -/
abbrev Spaced (w : ℕ) (ds : List ℕ) : Prop := ds.Pairwise fun a b => a + w < b

theorem cons_sublist_bounds {a : ℕ} {ls ds : List ℕ} (h : ds.Sublist (bounds a ls))
    (hgt : ∀ x ∈ ds, a < x) : (a :: ds).Sublist (bounds a ls) := by
  cases ls with
  | nil =>
    rcases sublist_singleton.1 h with rfl | rfl
    · exact Sublist.refl _
    · exact absurd (hgt a (by simp)) (by omega)
  | cons l ls =>
    rcases sublist_cons_iff.1 h with h | ⟨ds', rfl, -⟩
    · exact h.cons_cons a
    · exact absurd (hgt a (by simp)) (by omega)

/-- Among places that are spaced, and that lie beyond the window, each needs a move of its own; the
first place of all can be had without one. -/
theorem length_le_moves {w : ℕ} :
    ∀ (ls : List ℕ) (a k : ℕ) {ds : List ℕ}, ds.Sublist (bounds a ls) → Spaced w ds →
      ds.length ≤ moves w k ls + 1 ∧ (k ≤ w → (∀ x ∈ ds, a + w < x + k) → ds.length ≤ moves w k ls)
  | [], a, k, ds, h, hs => by
    rcases sublist_singleton.1 h with rfl | rfl
    · simp
    · refine ⟨by simp, fun hk hx => absurd (hx a (by simp)) (by omega)⟩
  | l :: ls, a, k, ds, h, hs => by
    have hmoves : moves w k (l :: ls) =
        if w < k + l then moves w 0 ls + 1 else moves w (k + l) ls := rfl
    rcases sublist_cons_iff.1 h with h | ⟨ds', rfl, h'⟩
    · -- the first place is not among them
      by_cases hw : w < k + l
      · have := (length_le_moves ls (a + l) 0 h hs).1
        rw [hmoves, if_pos hw]
        exact ⟨by omega, fun _ _ => this⟩
      · have := length_le_moves ls (a + l) (k + l) h hs
        rw [hmoves, if_neg hw]
        exact ⟨this.1, fun _ hx => this.2 (by omega) fun x hxd => by
          have := hx x hxd
          omega⟩
    · obtain ⟨hgt, hs'⟩ := pairwise_cons.1 hs
      refine ⟨?_, fun hk hx => absurd (hx a (by simp)) (by omega)⟩
      by_cases hw : w < k + l
      · have := (length_le_moves ls (a + l) 0 h' hs').1
        rw [hmoves, if_pos hw, length_cons]
        omega
      · have := (length_le_moves ls (a + l) (k + l) h' hs').2 (by omega) fun x hx => by
          have := hgt x hx
          omega
        rw [hmoves, if_neg hw, length_cons]
        omega

/-- The places to which the window is moved. -/
theorem exists_spaced {w : ℕ} :
    ∀ (ls : List ℕ) (a k : ℕ), ∃ ds : List ℕ, ds.Sublist (bounds a ls) ∧ Spaced w ds ∧
      ds.length = moves w k ls ∧ ∀ x ∈ ds, a + w < x + k
  | [], a, k => ⟨[], by simp, .nil, rfl, by simp⟩
  | l :: ls, a, k => by
    by_cases hw : w < k + l
    · obtain ⟨ds, hsub, hs, hlen, hgt⟩ := exists_spaced (w := w) ls (a + l) 0
      refine ⟨(a + l) :: ds, ?_, ?_, ?_, ?_⟩
      · exact (cons_sublist_bounds hsub fun x hx => by have := hgt x hx; omega).cons a
      · exact pairwise_cons.2 ⟨by simpa using hgt, hs⟩
      · rw [moves, if_pos hw, length_cons, hlen]
      · intro x hx
        rcases mem_cons.1 hx with rfl | hx
        · omega
        · have := hgt x hx
          omega
    · obtain ⟨ds, hsub, hs, hlen, hgt⟩ := exists_spaced (w := w) ls (a + l) (k + l)
      refine ⟨ds, hsub.cons a, hs, by rw [moves, if_neg hw, hlen], fun x hx => ?_⟩
      have := hgt x hx
      omega

/-- There are `n + 1` places more than `w` apart exactly if the window is moved `n` times. -/
theorem le_moves_iff {w n a : ℕ} {ls : List ℕ} : n ≤ moves w 0 ls ↔
      ∃ ds : List ℕ, ds.Sublist (bounds a ls) ∧ Spaced w ds ∧ n < ds.length := by
  constructor
  · intro h
    obtain ⟨ds, hsub, hs, hlen, hgt⟩ := exists_spaced (w := w) ls a 0
    refine ⟨a :: ds, cons_sublist_bounds hsub fun x hx => by have := hgt x hx; omega, ?_, ?_⟩
    · exact pairwise_cons.2 ⟨by simpa using hgt, hs⟩
    · rw [length_cons]
      omega
  · rintro ⟨ds, hsub, hs, hlen⟩
    have := (length_le_moves ls a 0 hsub hs).1
    omega

/-- Between two moves lies more than the reach; with lengths that are multiples of `g`, at least `g`
more. -/
theorem moves_mul_le {w g : ℕ} (hg : 0 < g) (hw : g ∣ w) :
    ∀ {ls : List ℕ} {k : ℕ}, (∀ l ∈ ls, g ∣ l) → g ∣ k → moves w k ls * (w + g) ≤ k + ls.sum
  | [], k, _, _ => by simp [moves]
  | l :: ls, k, hls, hk => by
    have hl : g ∣ l := hls l (by simp)
    have hls' : ∀ x ∈ ls, g ∣ x := fun x hx => hls x (by simp [hx])
    rw [moves, sum_cons]
    split_ifs with h
    · have ih := moves_mul_le hg hw (k := 0) hls' (Nat.dvd_zero g)
      have hstep : w + g ≤ k + l := by
        obtain ⟨c, hc⟩ := Nat.dvd_add hk hl
        obtain ⟨b, rfl⟩ := hw
        rw [hc] at h ⊢
        have := Nat.lt_of_mul_lt_mul_left h
        calc g * b + g = g * (b + 1) := by rw [Nat.mul_add, Nat.mul_one]
          _ ≤ g * c := Nat.mul_le_mul_left g this
      rw [Nat.add_mul, Nat.one_mul]
      omega
    · have ih := moves_mul_le hg hw (k := k + l) hls' (Nat.dvd_add hk hl)
      omega

end Rdfs
