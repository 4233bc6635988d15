import Mathlib.Algebra.Group.Int.Defs
import Mathlib.Algebra.GroupWithZero.Nat
import Mathlib.Data.Nat.Basic
import Mathlib.Tactic.Common

/-!
# Byte-addressed memory

A memory is a function from addresses to bytes. `load n a` reads the `n` bytes at `a`
as a little-endian number and `store n a v` writes the low `n` bytes of `v` there;
`fill` is `memset` and `blit` is `memcpy` from a list of bytes. A load sees the last
store to its own range (`load_store`) and nothing of a store to a range disjoint from
it (`load_store_disjoint`); `SameOn` and `SameOff` say where two memories agree, and
`load_congr` and `bytes_congr` turn agreement on a range into equal loads.
-/

namespace Rdfs

open List Option

/-- Byte-addressed memory. -/
abbrev Mem := ℕ → UInt8

variable {m m' : Mem} {n a k b : ℕ}

namespace Mem

/-- The `n` bytes at `a` as a little-endian number. -/
def load (m : Mem) : ℕ → ℕ → ℕ
  | 0, _ => 0
  | n + 1, a => (m a).toNat + 256 * load m n (a + 1)

/-- The low `n` bytes of `v`, little-endian, written at `a`. -/
def store (m : Mem) (n a v : ℕ) : Mem :=
  fun x => if a ≤ x ∧ x < a + n then UInt8.ofNat (v / 256 ^ (x - a)) else m x

/-- The `n` bytes at `a` set to `b`. -/
def fill (m : Mem) (n a : ℕ) (b : UInt8) : Mem :=
  fun x => if a ≤ x ∧ x < a + n then b else m x

/-- The bytes `bs` copied to `a`. -/
def blit (m : Mem) (a : ℕ) (bs : List UInt8) : Mem :=
  fun x => if a ≤ x then (bs[x - a]?).getD (m x) else m x

/-- The `n` bytes at `a`, as a list. -/
def bytes (m : Mem) (n a : ℕ) : List UInt8 :=
  (List.range n).map fun i => m (a + i)

/-- Two memories agree on the `n` bytes at `a`. -/
def SameOn (m m' : Mem) (n a : ℕ) : Prop :=
  ∀ x, a ≤ x → x < a + n → m' x = m x

/-- Two memories agree off the `n` bytes at `a`. -/
def SameOff (m m' : Mem) (n a : ℕ) : Prop :=
  ∀ x, ¬(a ≤ x ∧ x < a + n) → m' x = m x

theorem load_congr : ∀ {n a : ℕ}, SameOn m m' n a → m'.load n a = m.load n a
  | 0, _, _ => rfl
  | n + 1, a, h => by
    have h' : SameOn m m' n (a + 1) := fun x h1 h2 => h x (by omega) (by omega)
    rw [load, load, h a le_rfl (by omega), load_congr h']

theorem load_lt (m : Mem) : ∀ n a : ℕ, m.load n a < 256 ^ n
  | 0, _ => by simp [load]
  | n + 1, a => by
    have h1 := (m a).toNat_lt
    have h2 := load_lt m n (a + 1)
    rw [load, Nat.pow_succ]
    omega

/-- A load of bytes that hold the digits of `v` is `v`, cut to the width loaded. -/
theorem load_of_digits : ∀ {n a v : ℕ}, (∀ i < n, m (a + i) = UInt8.ofNat (v / 256 ^ i)) →
      m.load n a = v % 256 ^ n
  | 0, _, v, _ => by simp [load, Nat.mod_one]
  | n + 1, a, v, h => by
    have h0 : m a = UInt8.ofNat v := by simpa using h 0 (by omega)
    have ih : m.load n (a + 1) = v / 256 % 256 ^ n := by
      refine load_of_digits fun i hi => ?_
      have := h (i + 1) (by omega)
      rw [Nat.pow_succ, Nat.mul_comm, ← Nat.div_div_eq_div_mul] at this
      rwa [show a + 1 + i = a + (i + 1) by omega]
    rw [load, h0, ih, UInt8.toNat_ofNat', Nat.pow_succ' (n := n), Nat.mod_mul]

/-! ## Stores -/

theorem sameOff_store (m : Mem) (n a v : ℕ) : SameOff m (m.store n a v) n a := fun _ h => if_neg h

theorem sameOff_fill (m : Mem) (n a : ℕ) (b : UInt8) : SameOff m (m.fill n a b) n a :=
  fun _ h => if_neg h

theorem sameOff_blit (m : Mem) (a : ℕ) (bs : List UInt8) : SameOff m (m.blit a bs) bs.length a := by
  intro x h
  unfold blit
  split_ifs with ha
  · rw [getElem?_eq_none (by omega), getD_none]
  · rfl

theorem SameOff.sameOn (h : SameOff m m' n a) (hd : b + k ≤ a ∨ a + n ≤ b) : SameOn m m' k b :=
  fun x h1 h2 => h x (by omega)

theorem SameOff.trans {m'' : Mem} (h : SameOff m m' n a) (h' : SameOff m' m'' n a) :
    SameOff m m'' n a :=
  fun x hx => (h' x hx).trans (h x hx)

theorem SameOff.mono (h : SameOff m m' k b) (h1 : a ≤ b) (h2 : b + k ≤ a + n) : SameOff m m' n a :=
  fun x hx => h x (by omega)

/-- A load sees what was last stored to its range. -/
theorem load_store (m : Mem) (n a v : ℕ) : (m.store n a v).load n a = v % 256 ^ n :=
  load_of_digits fun i hi => by
    unfold store
    rw [if_pos (by omega), Nat.add_sub_cancel_left]

theorem load_store_of_lt (m : Mem) {n v : ℕ} (a : ℕ) (hv : v < 256 ^ n) :
    (m.store n a v).load n a = v := by
  rw [load_store, Nat.mod_eq_of_lt hv]

/-- A load sees nothing of a store to a disjoint range. -/
theorem load_store_disjoint (m : Mem) {n a v k b : ℕ} (hd : b + k ≤ a ∨ a + n ≤ b) :
    (m.store n a v).load k b = m.load k b :=
  load_congr ((sameOff_store m n a v).sameOn hd)

/-- Two stores to disjoint ranges, in either order. -/
theorem store_comm (m : Mem) (v w : ℕ) (hd : a + n ≤ b ∨ b + k ≤ a) :
    (m.store n a v).store k b w = (m.store k b w).store n a v := by
  funext x
  simp only [store]
  by_cases ha : a ≤ x ∧ x < a + n
  · rw [if_neg (by omega), if_pos ha, if_pos ha]
  · rw [if_neg ha, if_neg ha]

theorem load_eq_zero : ∀ {n a : ℕ}, (∀ x, a ≤ x → x < a + n → m x = 0) → m.load n a = 0
  | 0, _, _ => rfl
  | n + 1, a, h => by
    rw [load, h a le_rfl (by omega), load_eq_zero fun x h1 h2 => h x (by omega) (by omega)]
    rfl

/-- Clearing bytes keeps a load of zero. -/
theorem load_fill_zero (m : Mem) (k b : ℕ) :
    ∀ {n a : ℕ}, m.load n a = 0 → (m.fill k b 0).load n a = 0
  | 0, _, _ => rfl
  | n + 1, a, h => by
    simp only [load] at h ⊢
    have hbyte : m a = 0 := UInt8.toNat_inj.1 (by simp; omega)
    rw [load_fill_zero m k b (n := n) (a := a + 1) (by omega), fill, hbyte, ite_self]
    rfl

/-! ## Lists of bytes -/

@[simp] theorem length_bytes (m : Mem) (n a : ℕ) : (m.bytes n a).length = n := by
  simp [bytes]

theorem getElem?_bytes (m : Mem) {n i : ℕ} (a : ℕ) (hi : i < n) :
    (m.bytes n a)[i]? = some (m (a + i)) := by
  simp [bytes, hi]

theorem bytes_take (m : Mem) (n k a : ℕ) : (m.bytes n a).take k = m.bytes (min k n) a := by
  rw [bytes, ← map_take, take_range, bytes]

theorem bytes_drop (m : Mem) (n k a : ℕ) : (m.bytes n a).drop k = m.bytes (n - k) (a + k) := by
  refine ext_getElem? fun i => ?_
  rw [getElem?_drop]
  by_cases hi : i < n - k
  · rw [getElem?_bytes m _ hi, getElem?_bytes m _ (by omega), Nat.add_assoc]
  · rw [getElem?_eq_none (by simp; omega), getElem?_eq_none (by simp; omega)]

theorem bytes_add (m : Mem) (n k a : ℕ) : m.bytes (n + k) a = m.bytes n a ++ m.bytes k (a + n) := by
  have htake := bytes_take m (n + k) n a
  have hdrop := bytes_drop m (n + k) n a
  rw [Nat.min_eq_left (Nat.le_add_right n k)] at htake
  rw [Nat.add_sub_cancel_left] at hdrop
  rw [← htake, ← hdrop, take_append_drop]

theorem bytes_congr (h : SameOn m m' n a) : m'.bytes n a = m.bytes n a :=
  map_congr_left fun _ hi => h _ (Nat.le_add_right _ _) (Nat.add_lt_add_left (mem_range.1 hi) _)

/-- The bytes that are copied are the bytes that are there afterwards. -/
theorem bytes_blit (m : Mem) (a : ℕ) (bs : List UInt8) : (m.blit a bs).bytes bs.length a = bs := by
  refine ext_getElem? fun i => ?_
  by_cases hi : i < bs.length
  · rw [getElem?_bytes _ _ hi, blit, if_pos (Nat.le_add_right _ _), Nat.add_sub_cancel_left,
      getElem?_eq_getElem hi, getD_some]
  · rw [getElem?_eq_none (by simp; omega), getElem?_eq_none (by omega)]

theorem sameOn_blit_bytes (m buf : Mem) (n a : ℕ) : SameOn m (buf.blit a (m.bytes n a)) n a := by
  intro x h1 h2
  rw [blit, if_pos h1, getElem?_bytes m a (by omega), getD_some, Nat.add_sub_cancel' h1]

theorem SameOn.mono (h : SameOn m m' n a) (h1 : a ≤ b) (h2 : b + k ≤ a + n) : SameOn m m' k b :=
  fun x hx hx' => h x (by omega) (by omega)

end Mem

end Rdfs
