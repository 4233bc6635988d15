import Mathlib.Logic.Function.Iterate
import Mathlib.Tactic.Common

/-!
# CRC-32

The cyclic redundancy check with the reversed polynomial `0xEDB88320`, a bit at a time, as the
kernel's `crc32` computes it : the start value is the caller's, and nothing is complemented at the
end. It is linear in exclusive or (`crc32_xor`), so the change of a checksum is the checksum of the
change (`crc32_eq_xor`). A single byte that changes is noticed (`crc32_zeros_ne_zero`).
-/

namespace Rdfs

/-- One bit of the remainder shifted out. -/
def crcBit (c : BitVec 32) : BitVec 32 :=
  if c.getLsbD 0 then (c >>> 1) ^^^ 0xEDB88320#32 else c >>> 1

/-- One byte more. -/
def crcByte (c : BitVec 32) (b : UInt8) : BitVec 32 :=
  crcBit^[8] (c ^^^ b.toBitVec.setWidth 32)

/-- `crc32`. -/
def crc32 (seed : BitVec 32) (data : List UInt8) : BitVec 32 := data.foldl crcByte seed

theorem crc32_cons (seed : BitVec 32) (b : UInt8) (data : List UInt8) :
    crc32 seed (b :: data) = crc32 (crcByte seed b) data := rfl

theorem crc32_append (seed : BitVec 32) (xs ys : List UInt8) :
    crc32 seed (xs ++ ys) = crc32 (crc32 seed xs) ys :=
  List.foldl_append

theorem xor_xor_xor_cancel (a b p : BitVec 32) : a ^^^ p ^^^ (b ^^^ p) = a ^^^ b := by
  rw [show a ^^^ p ^^^ (b ^^^ p) = a ^^^ b ^^^ (p ^^^ p) by ac_rfl, BitVec.xor_self,
    BitVec.xor_zero]

theorem crcBit_xor (a b : BitVec 32) : crcBit (a ^^^ b) = crcBit a ^^^ crcBit b := by
  unfold crcBit
  rw [BitVec.getLsbD_xor, BitVec.ushiftRight_xor_distrib]
  cases a.getLsbD 0 <;> cases b.getLsbD 0
  · rfl
  · exact BitVec.xor_assoc _ _ _
  · show a >>> 1 ^^^ b >>> 1 ^^^ _ = a >>> 1 ^^^ _ ^^^ b >>> 1
    ac_rfl
  · exact (xor_xor_xor_cancel _ _ _).symm

theorem crcBit_iterate_xor (n : ℕ) (a b : BitVec 32) :
    crcBit^[n] (a ^^^ b) = crcBit^[n] a ^^^ crcBit^[n] b := by
  induction n generalizing a b with
  | zero => rfl
  | succ n ih => rw [Function.iterate_succ_apply, crcBit_xor, ih]; rfl

theorem crcByte_xor (a b : BitVec 32) (x y : UInt8) :
    crcByte (a ^^^ b) (x ^^^ y) = crcByte a x ^^^ crcByte b y := by
  unfold crcByte
  rw [← crcBit_iterate_xor, UInt8.toBitVec_xor, BitVec.setWidth_xor]
  congr 1
  ac_rfl

/-- The checksum of an exclusive or. -/
theorem crc32_xor : ∀ {xs ys : List UInt8} (a b : BitVec 32), xs.length = ys.length →
    crc32 (a ^^^ b) (List.zipWith (· ^^^ ·) xs ys) = crc32 a xs ^^^ crc32 b ys
  | [], [], _, _, _ => rfl
  | x :: xs, y :: ys, a, b, h => by
    have ih := crc32_xor (crcByte a x) (crcByte b y) (Nat.succ.inj h)
    rw [← crcByte_xor] at ih
    exact ih

/-- The checksum after a change, from the checksum before and the change. -/
theorem crc32_eq_xor {xs ys : List UInt8} (seed : BitVec 32) (h : xs.length = ys.length) :
    crc32 seed ys = crc32 seed xs ^^^ crc32 0#32 (List.zipWith (· ^^^ ·) xs ys) := by
  have hxor := crc32_xor seed seed h
  rw [BitVec.xor_self] at hxor
  rw [hxor, ← BitVec.xor_assoc, BitVec.xor_self, BitVec.zero_xor]

/-- A remainder other than 0 stays other than 0, the polynomial having a last bit. -/
theorem crcBit_ne_zero {c : BitVec 32} (h : c ≠ 0#32) : crcBit c ≠ 0#32 := by
  intro hzero
  unfold crcBit at hzero
  split_ifs at hzero with hbit
  · have htop := congrArg (BitVec.getLsbD · 31) hzero
    simp at htop
  · refine h (BitVec.eq_of_getLsbD_eq fun i hi => ?_)
    cases i with
    | zero => simpa using hbit
    | succ i =>
      have hnext := congrArg (BitVec.getLsbD · i) hzero
      simpa [BitVec.getLsbD_ushiftRight, Nat.add_comm] using hnext

theorem crcByte_zero_ne_zero {c : BitVec 32} (h : c ≠ 0#32) : crcByte c 0 ≠ 0#32 := by
  have hiterate : ∀ n, crcBit^[n] c ≠ 0#32 := fun n => by
    induction n with
    | zero => exact h
    | succ n ih =>
      rw [Function.iterate_succ_apply']
      exact crcBit_ne_zero ih
  have hself : crcByte c 0 = crcBit^[8] c := by simp [crcByte]
  exact hself ▸ hiterate 8

/-- Zeros do not make a remainder 0 that is not. -/
theorem crc32_zeros_ne_zero (n : ℕ) {c : BitVec 32} (h : c ≠ 0#32) :
    crc32 c (List.replicate n 0) ≠ 0#32 := by
  induction n generalizing c with
  | zero => exact h
  | succ n ih => exact ih (crcByte_zero_ne_zero h)

/-- Nor do they change one that is 0. -/
theorem crc32_zeros (n : ℕ) : crc32 0#32 (List.replicate n 0) = 0#32 := by
  induction n with
  | zero => rfl
  | succ n ih => exact ih

end Rdfs
