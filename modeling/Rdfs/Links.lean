import Mathlib.Data.List.Iterate
import Mathlib.Data.List.Nodup
import Rdfs.Bytes

/-!
# Linked chains

A singly linked list threaded through its own nodes is a successor function, a head and
a count : `List.iterate next a n` is the list of the `n` nodes visited from `a`. Cutting
the first `k` nodes off moves the head along `next` (`drop_iterate`), a change of `next`
off the visited nodes leaves the list alone (`iterate_congr`), and putting a node in
front of the list is one write of its successor (`iterate_push`).

`chain m off a n` is the same list when the successor of a node `p` is the 64-bit word
at `p + off` of a memory, as for free pages linked through their first word. A store that
misses the link words keeps the chain (`chain_congr`), a store to the link word of a new
node pushes it (`chain_push`), and `linkUp` builds the chain of nodes at a fixed stride
(`chain_linkUp`).

`LinkedTo next a l` is the list `l` from the head `a` to the null pointer. A node is put in front
with one write (`LinkedTo.push`) or behind the last one (`LinkedTo.snoc`), and taken out of the
middle by a write to the node before it (`LinkedTo.unlink`).
-/

namespace Rdfs

open List Function

variable {α : Type*}

/-- Successor functions that agree on the visited nodes visit the same nodes. -/
theorem iterate_congr {f g : α → α} : ∀ {n : ℕ} {a : α}, (∀ x ∈ List.iterate f a n, g x = f x) →
      List.iterate g a n = List.iterate f a n
  | 0, _, _ => rfl
  | n + 1, a, h => by
    simp only [List.iterate, mem_cons, forall_eq_or_imp] at h ⊢
    rw [h.1, iterate_congr h.2]

theorem drop_iterate (f : α → α) :
    ∀ (k n : ℕ) (a : α), (List.iterate f a n).drop k = List.iterate f (f^[k] a) (n - k)
  | 0, _, _ => by simp
  | k + 1, 0, _ => by simp
  | k + 1, n + 1, a => by
    simp only [Nat.reduceSubDiff]
    exact drop_iterate f k n (f a)

variable {n s off a : ℕ} {m : Mem}

theorem take_iterate_of_le (f : α → α) {k n : ℕ} (h : k ≤ n) (a : α) :
    (List.iterate f a n).take k = List.iterate f a k := by
  obtain ⟨d, rfl⟩ := Nat.exists_eq_add_of_le h
  rw [List.iterate_add, take_left' (length_iterate f a k)]

/-- A node in front of the list whose successor is the old head. -/
theorem iterate_push {f g : α → α} {a p : α} (hp : g p = a)
    (hl : ∀ x ∈ List.iterate f a n, g x = f x) :
    List.iterate g p (n + 1) = p :: List.iterate f a n := by
  rw [List.iterate, hp, iterate_congr hl]

/-- Nodes laid out at a fixed stride, each linked to the next. -/
theorem iterate_stride {f : ℕ → ℕ} : ∀ {n b : ℕ}, (∀ i < n, f (b + s * i) = b + s * (i + 1)) →
      List.iterate f b n = (List.range n).map fun i => b + s * i
  | 0, _, _ => rfl
  | n + 1, b, h => by
    have h0 : f b = b + s := by simpa using h 0 (by omega)
    have ih : List.iterate f (b + s) n = (List.range n).map fun i => b + s + s * i := by
      refine iterate_stride fun i hi => ?_
      have hstep := h (i + 1) (by omega)
      have hi1 : b + s + s * i = b + s * (i + 1) := by rw [Nat.mul_succ]; omega
      rw [hi1, hstep, Nat.mul_succ s (i + 1)]
      omega
    rw [List.iterate, h0, ih, range_succ_eq_map, map_cons, map_map]
    simp only [Nat.mul_zero, Nat.add_zero, cons.injEq, true_and]
    refine map_congr_left fun i _ => ?_
    simp only [comp_apply, Nat.succ_eq_add_one, Nat.mul_add]
    omega

/-! ## Chains threaded through a memory -/

/-- The `n` nodes visited from `a`, the successor of `p` being the word at `p + off`. -/
def chain (m : Mem) (off a n : ℕ) : List ℕ :=
  List.iterate (fun p => m.load 8 (p + off)) a n

@[simp] theorem length_chain (m : Mem) (off a n : ℕ) : (chain m off a n).length = n :=
  length_iterate _ _ _

theorem take_chain (m : Mem) (off a : ℕ) {k n : ℕ} (h : k ≤ n) :
    (chain m off a n).take k = chain m off a k :=
  take_iterate_of_le _ h a

theorem drop_chain (m : Mem) (off a k n : ℕ) : (chain m off a n).drop k =
      chain m off ((fun p => m.load 8 (p + off))^[k] a) (n - k) :=
  drop_iterate _ k n a

/-- A change of memory off the link words of the chain. -/
theorem chain_congr {m' : Mem} (h : ∀ p ∈ chain m off a n, Mem.SameOn m m' 8 (p + off)) :
    chain m' off a n = chain m off a n :=
  iterate_congr fun p hp => Mem.load_congr (h p hp)

/-- A store to the link word of a node off the chain puts the node in front. -/
theorem chain_push {off a n p : ℕ} (ha : a < 2 ^ 64)
    (h : ∀ q ∈ chain m off a n, q + 8 ≤ p ∨ p + 8 ≤ q) :
    chain (m.store 8 (p + off) a) off p (n + 1) = p :: chain m off a n := by
  refine iterate_push (Mem.load_store_of_lt m _ ha) fun q hq => ?_
  have := h q hq
  exact Mem.load_store_disjoint m (by omega)

/-- Link `n` nodes from `a` on, each to the node `s` bytes further. -/
def linkUp (s off : ℕ) : ℕ → ℕ → Mem → Mem
  | 0, _, m => m
  | n + 1, a, m => linkUp s off n (a + s) (m.store 8 (a + off) (a + s))

/-- `linkUp` writes only the link words of its nodes. -/
theorem linkUp_apply :
    ∀ {n a x : ℕ} (m : Mem), (∀ i < n, ¬(a + s * i + off ≤ x ∧ x < a + s * i + off + 8)) →
      linkUp s off n a m x = m x
  | 0, _, _, _, _ => rfl
  | n + 1, a, x, m, h => by
    have h0 := h 0 (by omega)
    rw [linkUp, linkUp_apply]
    · exact Mem.sameOff_store m _ _ _ x (by simpa using h0)
    · intro i hi
      have := h (i + 1) (by omega)
      rw [Nat.mul_succ] at this
      omega

theorem load_linkUp (hs : 8 ≤ s) : ∀ {n a : ℕ} (m : Mem), a + s * n < 2 ^ 64 → ∀ i < n,
      (linkUp s off n a m).load 8 (a + s * i + off) = a + s * (i + 1)
  | 0, _, _, _, i, hi => by omega
  | n + 1, a, m, hb, i, hi => by
    rw [Nat.mul_succ] at hb
    cases i with
    | zero =>
      have hsame : Mem.SameOn (m.store 8 (a + off) (a + s))
          (linkUp s off n (a + s) (m.store 8 (a + off) (a + s))) 8 (a + off) :=
        fun x h1 h2 => linkUp_apply _ fun i hi => by omega
      rw [linkUp, Nat.mul_zero, Nat.add_zero, Mem.load_congr hsame,
        Mem.load_store_of_lt _ _ (by omega), Nat.zero_add, Nat.mul_one]
    | succ i =>
      have ih : (linkUp s off n (a + s) (m.store 8 (a + off) (a + s))).load 8
          (a + s + s * i + off) = a + s + s * (i + 1) :=
        load_linkUp hs _ (by omega) i (by omega)
      have hi1 : a + s * (i + 1) + off = a + s + s * i + off := by rw [Nat.mul_succ]; omega
      rw [linkUp, hi1, ih, Nat.mul_succ s (i + 1)]
      omega

/-- The nodes `linkUp` linked form a chain. -/
theorem chain_linkUp (off : ℕ) (hs : 8 ≤ s) (m : Mem) (hb : a + s * n < 2 ^ 64) :
    chain (linkUp s off n a m) off a n = (List.range n).map fun i => a + s * i :=
  iterate_stride fun i hi => load_linkUp hs m hb i hi

/-- When the nodes from `a` on are linked up, the last one apart. -/
theorem chain_eq_stride_iff : chain m off a n = ((List.range n).map fun i => a + s * i) ↔
      ∀ i, i + 1 < n → m.load 8 (a + s * i + off) = a + s * (i + 1) := by
  have hget : chain m off a n = ((List.range n).map fun i => a + s * i) ↔
      ∀ i < n, (fun p => m.load 8 (p + off))^[i] a = a + s * i := by
    constructor
    · intro h i hi
      simpa [chain, hi] using congrArg (fun l => l[i]?) h
    · intro h
      refine ext_getElem (by simp) fun i h1 _ => ?_
      rw [length_chain] at h1
      simpa [chain] using h i h1
  rw [hget]
  constructor
  · intro h i hi
    have hnext := h (i + 1) hi
    rwa [iterate_succ_apply', h i (by omega)] at hnext
  · intro h i
    induction i with
    | zero => simp
    | succ i ih =>
      intro hi
      rw [iterate_succ_apply', ih (by omega)]
      exact h i hi

/-! ## Lists that end with the null pointer -/

/-- The nodes from `a` on up to the null pointer. -/
def LinkedTo (next : ℕ → ℕ) : ℕ → List ℕ → Prop
  | a, [] => a = 0
  | a, p :: ps => a = p ∧ p ≠ 0 ∧ LinkedTo next (next p) ps

namespace LinkedTo

variable {next next' : ℕ → ℕ} {a p pre : ℕ} {l l' : List ℕ}

section

variable (h : LinkedTo next a l)
include h

theorem congr (hn : ∀ q ∈ l, next' q = next q) : LinkedTo next' a l := by
  induction l generalizing a with
  | nil => exact h
  | cons q l ih =>
    obtain ⟨ha, hq, hl⟩ := h
    refine ⟨ha, hq, ?_⟩
    rw [hn q mem_cons_self]
    exact ih hl fun r hr => hn r (mem_cons_of_mem q hr)

theorem update_of_notMem (hp : p ∉ l) (b : ℕ) : LinkedTo (Function.update next p b) a l :=
  h.congr fun q hq => update_of_ne (fun heq : q = p => hp (heq ▸ hq)) _ _

theorem ne_zero (hp : p ∈ l) : p ≠ 0 := by
  induction l generalizing a with
  | nil => exact absurd hp (by simp)
  | cons q l ih =>
    obtain ⟨-, h0, hl⟩ := h
    rcases mem_cons.1 hp with rfl | hp
    · exact h0
    · exact ih hl hp

/-- The pointers determine the list. -/
theorem unique (h' : LinkedTo next a l') : l = l' := by
  induction l generalizing a l' with
  | nil =>
    cases l' with
    | nil => rfl
    | cons q l' => exact absurd (h'.1.symm.trans h) h'.2.1
  | cons p l ih =>
    obtain ⟨rfl, h0, hl⟩ := h
    cases l' with
    | nil => exact absurd h' h0
    | cons q l' =>
      obtain ⟨rfl, -, hl'⟩ := h'
      rw [ih hl hl']

/-- A node in front of the list. -/
theorem push (hp : p ≠ 0) (hmem : p ∉ l) : LinkedTo (Function.update next p a) p (p :: l) := by
  refine ⟨rfl, hp, ?_⟩
  rw [update_self]
  exact h.update_of_notMem hmem a

end

/-- A node behind the last one. -/
theorem snoc (h : LinkedTo next a (l ++ [pre])) (hnodup : (l ++ [pre]).Nodup) (hp : p ≠ 0)
    (hmem : p ∉ l ++ [pre]) :
    LinkedTo (Function.update (Function.update next p 0) pre p) a (l ++ [pre, p]) := by
  induction l generalizing a with
  | nil =>
    obtain ⟨ha, hpre, -⟩ := h
    have hne : p ≠ pre := fun heq => hmem (by simp [heq])
    refine ⟨ha, hpre, ?_⟩
    rw [update_self]
    refine ⟨rfl, hp, ?_⟩
    rw [update_of_ne hne, update_self]
    rfl
  | cons q l ih =>
    obtain ⟨ha, hq, hl⟩ := h
    obtain ⟨hnot, hnodup'⟩ := nodup_cons.1 hnodup
    have hpre : q ≠ pre := fun heq => hnot (by simp [heq])
    have hne : q ≠ p := fun heq => hmem (by simp [heq])
    refine ⟨ha, hq, ?_⟩
    rw [update_of_ne hpre, update_of_ne hne]
    exact ih hl hnodup' fun hm => hmem (mem_cons_of_mem q hm)

/-- The node behind `pre` taken out. -/
theorem unlink (h : LinkedTo next a (l ++ pre :: p :: l')) (hnodup : (l ++ pre :: p :: l').Nodup) :
    LinkedTo (Function.update next pre (next p)) a (l ++ pre :: l') := by
  induction l generalizing a with
  | nil =>
    obtain ⟨ha, hpre, -, -, hl'⟩ := h
    have hnot : pre ∉ l' := fun hm => (nodup_cons.1 hnodup).1 (mem_cons_of_mem p hm)
    refine ⟨ha, hpre, ?_⟩
    rw [update_self]
    exact hl'.update_of_notMem hnot _
  | cons q l ih =>
    obtain ⟨ha, hq, hl⟩ := h
    obtain ⟨hnot, hnodup'⟩ := nodup_cons.1 hnodup
    have hne : q ≠ pre := fun heq => hnot (by simp [heq])
    refine ⟨ha, hq, ?_⟩
    rw [update_of_ne hne]
    exact ih hl hnodup'

end LinkedTo

end Rdfs
