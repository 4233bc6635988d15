import Mathlib.Data.Nat.Digits.Lemmas
import Mathlib.Tactic.Common

/-!
# Printing and scanning

`sprintf` and `sscanf` for formats made of single characters, integer conversions and words. A
conversion (`Conv`) has a base, a sign, the size of the argument it prints or stores, and a width :
the least number of digits printed, with zeros in front, and the greatest number of digits read.
Arguments are the words in memory, so that printing and storing cut to the size of the conversion.

`scanNum_print` is the round trip for one number that is followed by something that is no digit,
and `sscanf_sprintf` the one for a whole format in which a character separates the numbers
(`Readable`).
-/

namespace Rdfs

open List

/-- A text without its end. -/
abbrev Text := List UInt8

/-! ## Numerals -/

/-- The digit of value `d`, `0`..`9` or `a`..`f`. -/
def digitByte (d : ℕ) : UInt8 := UInt8.ofNat (if d < 10 then 48 + d else 87 + d)

/-- The value of a digit, 16 for any other character. -/
def digitValue (c : UInt8) : ℕ :=
  if 48 ≤ c.toNat ∧ c.toNat ≤ 57 then c.toNat - 48
  else if 97 ≤ c.toNat ∧ c.toNat ≤ 102 then c.toNat - 87
  else if 65 ≤ c.toNat ∧ c.toNat ≤ 70 then c.toNat - 55
  else 16

/-- The numeral of `n`. -/
def numeral (base n : ℕ) : Text :=
  if n = 0 then [digitByte 0] else (Nat.digits base n).reverse.map digitByte

/-- The number a text of digits stands for. -/
def Text.value (base : ℕ) (t : Text) : ℕ := Nat.ofDigits base (t.map digitValue).reverse

theorem digitValue_digitByte : ∀ {d : ℕ}, d < 16 → digitValue (digitByte d) = d := by
  decide

theorem Text.value_append (base : ℕ) (t t' : Text) :
    Text.value base (t ++ t') = Text.value base t * base ^ t'.length + Text.value base t' := by
  simp only [Text.value, map_append, reverse_append, Nat.ofDigits_append,
    length_reverse, length_map]
  ring

theorem Text.value_zeros (base k : ℕ) (t : Text) :
    Text.value base (List.replicate k (digitByte 0) ++ t) = Text.value base t := by
  have hzeros : Text.value base (List.replicate k (digitByte 0)) = 0 := by
    rw [Text.value, map_replicate, reverse_replicate]
    exact Nat.ofDigits_replicate_zero
  rw [Text.value_append, hzeros, Nat.zero_mul, Nat.zero_add]

section numeral

variable {base : ℕ}

theorem Text.value_digits (h16 : base ≤ 16) {ds : List ℕ} (hds : ∀ d ∈ ds, d < base) :
    Text.value base (ds.reverse.map digitByte) = Nat.ofDigits base ds := by
  have hmap : ds.reverse.map (digitValue ∘ digitByte) = ds.reverse := by
    refine (map_congr_left fun d hd => ?_).trans (map_id _)
    exact digitValue_digitByte ((hds d (mem_reverse.1 hd)).trans_le h16)
  rw [Text.value, map_map, hmap, reverse_reverse]

variable (h2 : 1 < base) (h16 : base ≤ 16)

include h2 h16

/-- Reading a numeral gives the number. -/
theorem value_numeral (n : ℕ) : Text.value base (numeral base n) = n := by
  unfold numeral
  split_ifs with h
  · rw [h]
    exact Text.value_zeros base 1 []
  · rw [Text.value_digits h16 fun d hd => Nat.digits_lt_base h2 hd, Nat.ofDigits_digits]

/-- A numeral is made of digits. -/
theorem digitValue_numeral (n : ℕ) : ∀ c ∈ numeral base n, digitValue c < base := by
  intro c hc
  unfold numeral at hc
  split_ifs at hc
  · rw [mem_singleton.1 hc, digitValue_digitByte (by decide)]
    omega
  · obtain ⟨d, hd, rfl⟩ := mem_map.1 hc
    have hlt := Nat.digits_lt_base h2 (mem_reverse.1 hd)
    rw [digitValue_digitByte (by omega)]
    exact hlt

end numeral

theorem numeral_ne_nil (base n : ℕ) : numeral base n ≠ [] := by
  unfold numeral
  split_ifs with h
  · exact cons_ne_nil _ _
  · simpa using Nat.digits_ne_nil_iff_ne_zero.2 h

variable {n : ℕ} {b : UInt8} {rest : Text}

theorem length_numeral_le {base : ℕ} (h2 : 1 < base) {n k : ℕ} (hk : k ≠ 0) (hn : n < base ^ k) :
    (numeral base n).length ≤ k := by
  unfold numeral
  split_ifs with h
  · simp only [length_singleton]
    omega
  · rw [length_map, length_reverse]
    exact (Nat.digits_length_le_iff h2 n).2 hn

/-! ## Conversions -/

/-- `-`. -/
def minus : UInt8 := 45

/-- `+`. -/
def plus : UInt8 := 43

/-- `:`. -/
def colon : UInt8 := 58

/-- An integer conversion. -/
structure Conv where
  base : ℕ
  signed : Bool
  bits : ℕ
  width : ℕ
deriving DecidableEq, Repr

namespace Conv

/-- `%d`. -/
def d : Conv := ⟨10, true, 32, 0⟩

/-- `%ld`. -/
def ld : Conv := ⟨10, true, 64, 0⟩

/-- `%u`. -/
def u : Conv := ⟨10, false, 32, 0⟩

/-- `%x`. -/
def x : Conv := ⟨16, false, 32, 0⟩

/-- `%lx`. -/
def lx : Conv := ⟨16, false, 64, 0⟩

/-- `%016Lx`. -/
def padLx : Conv := ⟨16, false, 64, 16⟩

/-- The digits of `n`, at least as many as the width. -/
def digits (c : Conv) (n : ℕ) : Text :=
  List.replicate (c.width - (numeral c.base n).length) (digitByte 0) ++ numeral c.base n

/-- The argument is a negative number. -/
def Negative (c : Conv) (n : ℕ) : Prop := c.signed = true ∧ 2 ^ (c.bits - 1) ≤ n % 2 ^ c.bits

instance (c : Conv) (n : ℕ) : Decidable (c.Negative n) := inferInstanceAs (Decidable (_ ∧ _))

/-- What the conversion prints. -/
def print (c : Conv) (n : ℕ) : Text :=
  if c.Negative n then minus :: c.digits (2 ^ c.bits - n % 2 ^ c.bits)
  else c.digits (n % 2 ^ c.bits)

end Conv

/-- Where a text is scanned : `simple_strtoull` of the kernel lets a number wrap around, `strtol`
and `strtoul` cut it to the range of their results. -/
inductive Libc
  | kernel | user
deriving DecidableEq, Repr

/-- The word that a number is stored as. -/
def Conv.stored (c : Conv) (lib : Libc) (neg : Bool) (n : ℕ) : ℕ :=
  let z : ℤ := if neg then -n else n
  let z : ℤ := match lib with
    | .kernel => z
    | .user =>
      if c.signed then max (-2 ^ 63) (min (2 ^ 63 - 1) z)
      else if 2 ^ 64 ≤ n then 2 ^ 64 - 1 else z
  (z % 2 ^ c.bits).toNat

/-- White space. The kernel counts the no-break space of Latin-1. -/
def isSpace (lib : Libc) (c : UInt8) : Bool :=
  c.toNat = 32 ∨ (9 ≤ c.toNat ∧ c.toNat ≤ 13) ∨ (lib = .kernel ∧ c.toNat = 160)

/-- `x` and `X`. -/
def isX (c : UInt8) : Bool := c.toNat = 120 ∨ c.toNat = 88

/-- A hexadecimal number may have `0x` in front. -/
def skipRadix (base : ℕ) : Text → Text
  | z :: c :: h :: t =>
    if base = 16 ∧ digitValue z = 0 ∧ isX c = true ∧ digitValue h < 16 then h :: t
    else z :: c :: h :: t
  | t => t

/-- The sign in front of a number. The kernel knows no `+`, and no sign of an unsigned number. -/
def scanSign (lib : Libc) (c : Conv) : Text → Bool × Text
  | b :: t =>
    if b = minus ∧ (c.signed = true ∨ lib = .user) then (true, t)
    else if b = plus ∧ lib = .user then (false, t)
    else (false, b :: t)
  | [] => (false, [])

/-- The digits in front, as many as the width allows. -/
def readDigits (c : Conv) (t : Text) : Text :=
  (if c.width = 0 then t else t.take c.width).takeWhile fun b => digitValue b < c.base

/-- One conversion of `sscanf` : the word to store and the rest of the text. -/
def scanNum (lib : Libc) (c : Conv) (t : Text) : Option (ℕ × Text) :=
  let s := scanSign lib c (t.dropWhile (isSpace lib))
  let t := skipRadix c.base s.2
  let ds := readDigits c t
  if ds = [] then none else some (c.stored lib s.1 (Text.value c.base ds), t.drop ds.length)

/-! ## Formats -/

/-- A part of a format : a character, an integer conversion, or `%s`. -/
inductive Item
  | lit (c : UInt8)
  | num (c : Conv)
  | str
deriving DecidableEq, Repr

/-- An argument : a word in memory, or a text. -/
inductive Arg
  | word (n : ℕ)
  | text (t : Text)
deriving DecidableEq, Repr

/-- `sprintf`, without the byte 0 at the end. -/
def sprintf : List Item → List Arg → Text
  | .lit c :: fmt, args => c :: sprintf fmt args
  | .num c :: fmt, .word n :: args => c.print n ++ sprintf fmt args
  | .str :: fmt, .text t :: args => t ++ sprintf fmt args
  | _, _ => []

/-- `sscanf` : what is stored, in order. For `%s` in a text of white space the kernel stores an
empty word. -/
def sscanf (lib : Libc) : List Item → Text → List Arg
  | .lit c :: fmt, b :: t => if b = c then sscanf lib fmt t else []
  | .num c :: fmt, t => match scanNum lib c t with
    | some (n, t) => .word n :: sscanf lib fmt t
    | none => []
  | .str :: fmt, t =>
    let s := t.dropWhile (isSpace lib)
    let w := s.takeWhile fun b => !isSpace lib b
    if w = [] ∧ (lib = .user ∨ t = []) then [] else .text w :: sscanf lib fmt (s.drop w.length)
  | _, _ => []

/-! ## Round trip of a number -/

/-- The base and the sizes are such that no argument is cut, and a width covers every argument. -/
structure Conv.Ok (c : Conv) : Prop where
  base_gt : 1 < c.base
  base_le : c.base ≤ 16
  bits_pos : 0 < c.bits
  bits_le : c.bits ≤ 64
  covers : c.width ≠ 0 → 2 ^ c.bits ≤ c.base ^ c.width

theorem Conv.ok_d : Conv.d.Ok := ⟨by decide, by decide, by decide, by decide, by decide⟩

theorem Conv.ok_ld : Conv.ld.Ok := ⟨by decide, by decide, by decide, by decide, by decide⟩

theorem Conv.ok_padLx : Conv.padLx.Ok := ⟨by decide, by decide, by decide, by decide, by decide⟩

theorem Conv.ok_u : Conv.u.Ok := ⟨by decide, by decide, by decide, by decide, by decide⟩

theorem Conv.ok_x : Conv.x.Ok := ⟨by decide, by decide, by decide, by decide, by decide⟩

theorem Conv.ok_lx : Conv.lx.Ok := ⟨by decide, by decide, by decide, by decide, by decide⟩

/-- The text does not go on with something that could belong to a number. -/
def Stops (t : Text) : Prop := ∀ b ∈ t.head?, digitValue b = 16 ∧ isX b = false

theorem not_isSpace_of_digit (lib : Libc) (h : digitValue b < 16) : isSpace lib b = false := by
  unfold digitValue at h
  unfold isSpace
  split_ifs at h <;> simp <;> omega

theorem not_isX_of_digit (h : digitValue b < 16) : isX b = false := by
  unfold digitValue at h
  unfold isX
  split_ifs at h <;> simp <;> omega

theorem digitValue_minus : digitValue minus = 16 := by decide

theorem digitValue_plus : digitValue plus = 16 := by decide

section scan

variable {c : Conv} {ds rest : Text}

theorem skipRadix_digits (base : ℕ) (hds : ∀ b ∈ ds, digitValue b < 16) (hne : ds ≠ [])
    (hrest : Stops rest) : skipRadix base (ds ++ rest) = ds ++ rest := by
  have hsecond : ∀ z d t, ds ++ rest = z :: d :: t → isX d = false := by
    intro z d t h
    match ds, hne with
    | [z'], _ =>
      obtain ⟨-, rfl⟩ := cons.inj h
      exact (hrest d rfl).2
    | z' :: d' :: t', _ =>
      have hd : d' = d := (cons.inj (cons.inj h).2).1
      exact not_isX_of_digit (hds d (by rw [← hd]; simp))
  generalize ds ++ rest = t at hsecond
  match t with
  | [] | [_] | [_, _] => rfl
  | z :: d :: h :: t =>
    rw [skipRadix, if_neg]
    rintro ⟨-, -, hx, -⟩
    rw [hsecond z d _ rfl] at hx
    cases hx

theorem readDigits_digits (hbase : c.base ≤ 16) (hds : ∀ b ∈ ds, digitValue b < c.base)
    (hwidth : c.width ≠ 0 → ds.length ≤ c.width) (hrest : Stops rest) :
    readDigits c (ds ++ rest) = ds := by
  have htake : ∀ t, Stops t →
      (ds ++ t).takeWhile (fun b => decide (digitValue b < c.base)) = ds := by
    intro t ht
    rw [takeWhile_append_of_pos (by simpa using hds)]
    cases t with
    | nil => simp
    | cons b t =>
      have := (ht b rfl).1
      rw [takeWhile_cons_of_neg (by simp only [decide_eq_true_eq]; omega), append_nil]
  unfold readDigits
  split_ifs with h0
  · exact htake rest hrest
  · rw [take_append, take_of_length_le (hwidth h0)]
    refine htake _ fun b hb => ?_
    cases rest with
    | nil => simp at hb
    | cons r rest =>
      cases hk : c.width - ds.length with
      | zero => simp [hk] at hb
      | succ k =>
        rw [hk, take_succ_cons] at hb
        exact hrest b hb

section

variable (lib : Libc) (hbase : c.base ≤ 16)
include lib hbase

theorem scanNum_of_sign {t : Text} {neg : Bool}
    (hsign : scanSign lib c (t.dropWhile (isSpace lib)) = (neg, ds ++ rest)) (hne : ds ≠ [])
    (hds : ∀ b ∈ ds, digitValue b < c.base) (hwidth : c.width ≠ 0 → ds.length ≤ c.width)
    (hrest : Stops rest) :
    scanNum lib c t = some (c.stored lib neg (Text.value c.base ds), rest) := by
  have hds16 : ∀ b ∈ ds, digitValue b < 16 := fun b hb => (hds b hb).trans_le hbase
  simp only [scanNum, hsign, skipRadix_digits c.base hds16 hne hrest,
    readDigits_digits hbase hds hwidth hrest, hne, if_false, drop_left]

/-- Digits that something else follows are read as their number. -/
theorem scanNum_digits (hne : ds ≠ []) (hds : ∀ b ∈ ds, digitValue b < c.base)
    (hwidth : c.width ≠ 0 → ds.length ≤ c.width) (hrest : Stops rest) :
    scanNum lib c (ds ++ rest) = some (c.stored lib false (Text.value c.base ds), rest) := by
  refine scanNum_of_sign lib hbase ?_ hne hds hwidth hrest
  obtain ⟨b, ds', rfl⟩ := exists_cons_of_ne_nil hne
  have hb : digitValue b < 16 := (hds b mem_cons_self).trans_le hbase
  have hminus : b ≠ minus := fun h => by rw [h, digitValue_minus] at hb; omega
  have hplus : b ≠ plus := fun h => by rw [h, digitValue_plus] at hb; omega
  rw [cons_append, dropWhile_cons_of_neg (by simp [not_isSpace_of_digit lib hb]),
    scanSign, if_neg fun h => hminus h.1, if_neg fun h => hplus h.1]

/-- Digits behind a minus are read as the negative number, where a sign is allowed. -/
theorem scanNum_minus (hsigned : c.signed = true) (hne : ds ≠ [])
    (hds : ∀ b ∈ ds, digitValue b < c.base) (hwidth : c.width ≠ 0 → ds.length ≤ c.width)
    (hrest : Stops rest) : scanNum lib c (minus :: (ds ++ rest)) =
      some (c.stored lib true (Text.value c.base ds), rest) := by
  refine scanNum_of_sign lib hbase ?_ hne hds hwidth hrest
  have hspace : ¬isSpace lib minus = true := by cases lib <;> decide
  rw [dropWhile_cons_of_neg hspace, scanSign, if_pos ⟨rfl, Or.inl hsigned⟩]

end

end scan

namespace Conv.Ok

variable {c : Conv} (hc : c.Ok)

include hc

theorem digits_lt (n : ℕ) : ∀ b ∈ c.digits n, digitValue b < c.base := by
  intro b hb
  rcases mem_append.1 hb with hb | hb
  · rw [eq_of_mem_replicate hb, digitValue_digitByte (by decide)]
    exact Nat.zero_lt_of_lt hc.base_gt
  · exact digitValue_numeral hc.base_gt hc.base_le n b hb

theorem value_digits (n : ℕ) : Text.value c.base (c.digits n) = n := by
  rw [Conv.digits, Text.value_zeros, value_numeral hc.base_gt hc.base_le]

theorem length_digits_le (hn : n ≤ 2 ^ c.bits - 1) (hw : c.width ≠ 0) :
    (c.digits n).length ≤ c.width := by
  have hpow := hc.covers hw
  have hpos := Nat.two_pow_pos c.bits
  have := length_numeral_le hc.base_gt hw (show n < c.base ^ c.width by omega)
  rw [Conv.digits, length_append, length_replicate]
  omega

omit hc in
theorem digits_ne_nil (n : ℕ) : c.digits n ≠ [] :=
  append_ne_nil_of_right_ne_nil _ (numeral_ne_nil _ _)

theorem half_le : 2 ^ (c.bits - 1) ≤ 2 ^ 63 := by
  have := hc.bits_le
  exact Nat.pow_le_pow_right (by decide) (by omega)

/-- A word that is no negative number is stored as it is. -/
theorem stored_pos (lib : Libc) (hn : n < 2 ^ c.bits) (hneg : ¬c.Negative n) :
    c.stored lib false n = n := by
  have h64 : 2 ^ c.bits ≤ 2 ^ 64 := Nat.pow_le_pow_right (by decide) hc.bits_le
  have hz : ((n : ℤ) % 2 ^ c.bits).toNat = n := by
    rw [Int.emod_eq_of_lt (by omega) (by exact_mod_cast hn)]
    rfl
  cases lib with
  | kernel => exact hz
  | user =>
    simp only [Conv.stored, Bool.false_eq_true, if_false]
    split_ifs with hs h
    · have h63 := hc.half_le
      have hlt : n < 2 ^ (c.bits - 1) := by
        by_contra hge
        exact hneg ⟨hs, by rw [Nat.mod_eq_of_lt hn]; omega⟩
      rw [show max (-2 ^ 63) (min (2 ^ 63 - 1) (n : ℤ)) = n by omega]
      exact hz
    · omega
    · exact hz

/-- A word that is a negative number is stored as it is. -/
theorem stored_neg (lib : Libc) (hn : n < 2 ^ c.bits) (hneg : c.Negative n) :
    c.stored lib true (2 ^ c.bits - n) = n := by
  have hmod : n % 2 ^ c.bits = n := Nat.mod_eq_of_lt hn
  have hge : 2 ^ (c.bits - 1) ≤ n := hmod ▸ hneg.2
  have hpow : 2 ^ c.bits = 2 * 2 ^ (c.bits - 1) := by
    rw [← Nat.pow_succ', Nat.succ_eq_add_one, Nat.sub_add_cancel hc.bits_pos]
  have hz : (-((2 ^ c.bits - n : ℕ) : ℤ) % 2 ^ c.bits).toNat = n := by
    have h1 : -((2 ^ c.bits - n : ℕ) : ℤ) = n - 2 ^ c.bits := by
      push_cast [Nat.cast_sub hn.le]
      ring
    rw [h1, Int.sub_emod_right, Int.emod_eq_of_lt (by omega) (by exact_mod_cast hn)]
    rfl
  cases lib with
  | kernel => exact hz
  | user =>
    have h63 := hc.half_le
    simp only [Conv.stored, hneg.1, if_true]
    rw [show max (-2 ^ 63) (min (2 ^ 63 - 1) (-((2 ^ c.bits - n : ℕ) : ℤ))) =
      -((2 ^ c.bits - n : ℕ) : ℤ) by omega]
    exact hz

end Conv.Ok

variable {c : Conv}

/-- A number that is printed and scanned with the same conversion, with something behind it that is
no digit. -/
theorem scanNum_print (hc : c.Ok) (lib : Libc) (hn : n < 2 ^ c.bits) (hrest : Stops rest) :
    scanNum lib c (c.print n ++ rest) = some (n, rest) := by
  have hmod : n % 2 ^ c.bits = n := Nat.mod_eq_of_lt hn
  unfold Conv.print
  rw [hmod]
  split_ifs with hneg
  · have hge : 0 < n := lt_of_lt_of_le (Nat.two_pow_pos _) (hmod ▸ hneg.2)
    rw [cons_append, scanNum_minus lib hc.base_le hneg.1 (Conv.Ok.digits_ne_nil _)
      (hc.digits_lt _) (hc.length_digits_le (by omega)) hrest, hc.value_digits,
      hc.stored_neg lib hn hneg]
  · rw [scanNum_digits lib hc.base_le (Conv.Ok.digits_ne_nil _) (hc.digits_lt _)
      (hc.length_digits_le (by omega)) hrest, hc.value_digits, hc.stored_pos lib hn hneg]

/-! ## Round trip of a format -/

/-- A format of characters and numbers in which a character that can belong to no number follows
every number, with arguments that fit. -/
def Readable : List Item → List Arg → Prop
  | [], [] => True
  | .lit _ :: fmt, args => Readable fmt args
  | .num c :: fmt, .word n :: args => c.Ok ∧ n < 2 ^ c.bits ∧
    (∀ i ∈ fmt.head?, ∃ b, i = .lit b ∧ digitValue b = 16 ∧ isX b = false) ∧ Readable fmt args
  | _, _ => False

theorem Readable.stops {fmt : List Item} {args : List Arg}
    (hfmt : ∀ i ∈ fmt.head?, ∃ b, i = .lit b ∧ digitValue b = 16 ∧ isX b = false)
    (hrest : Stops rest) (h : Readable fmt args) : Stops (sprintf fmt args ++ rest) := by
  cases fmt with
  | nil => exact hrest
  | cons i fmt =>
    obtain ⟨b, rfl, hb⟩ := hfmt i rfl
    rintro b' hb'
    obtain rfl := Option.some_inj.1 hb'
    exact hb

/-- What is printed is scanned. -/
theorem sscanf_sprintf (lib : Libc) (hrest : Stops rest) :
    ∀ {fmt : List Item} {args : List Arg}, Readable fmt args →
      sscanf lib fmt (sprintf fmt args ++ rest) = args
  | [], [], _ => by
    rfl
  | .lit c :: fmt, args, h => by
    rw [sprintf, cons_append, sscanf, if_pos rfl]
    exact sscanf_sprintf lib hrest h
  | .num c :: fmt, .word n :: args, ⟨hc, hn, hfmt, h⟩ => by
    rw [sprintf, append_assoc, sscanf, scanNum_print hc lib hn (h.stops hfmt hrest)]
    exact congrArg _ (sscanf_sprintf lib hrest h)

theorem ne_zero_of_digit (h : digitValue b < 16) : b ≠ 0 := by
  rintro rfl
  revert h
  decide

theorem Conv.Ok.zero_not_mem_print (hc : c.Ok) (n : ℕ) : 0 ∉ c.print n := by
  have hdigits : ∀ k, 0 ∉ c.digits k := fun k h =>
    ne_zero_of_digit ((hc.digits_lt k 0 h).trans_le hc.base_le) rfl
  unfold Conv.print
  split_ifs
  · rw [mem_cons, not_or]
    exact ⟨by decide, hdigits _⟩
  · exact hdigits _

/-- No text ends early. -/
theorem Readable.zero_not_mem :
    ∀ {fmt : List Item} {args : List Arg}, Readable fmt args → .lit 0 ∉ fmt → 0 ∉ sprintf fmt args
  | [], [], _, _ => by
    exact not_mem_nil
  | .lit c :: fmt, args, h, hlit => by
    rw [mem_cons, not_or] at hlit
    rw [sprintf, mem_cons, not_or]
    exact ⟨fun hc => hlit.1 (congrArg _ hc), zero_not_mem h hlit.2⟩
  | .num c :: fmt, .word n :: args, ⟨hc, _, _, h⟩, hlit => by
    rw [mem_cons, not_or] at hlit
    rw [sprintf, mem_append, not_or]
    exact ⟨hc.zero_not_mem_print n, zero_not_mem h hlit.2⟩

theorem Conv.Ok.length_print_le (hc : c.Ok) (hw : c.width ≤ 64) (n : ℕ) :
    (c.print n).length ≤ 65 := by
  have hdigits : ∀ k < 2 ^ c.bits, (c.digits k).length ≤ 64 := by
    intro k hk
    have hpow : 2 ^ c.bits ≤ c.base ^ 64 :=
      (Nat.pow_le_pow_right (by decide) hc.bits_le).trans (Nat.pow_le_pow_left hc.base_gt 64)
    have := length_numeral_le hc.base_gt (by decide) (hk.trans_le hpow)
    rw [Conv.digits, length_append, length_replicate]
    omega
  have hpos := Nat.two_pow_pos c.bits
  unfold Conv.print
  split_ifs with hneg
  · have hge := (Nat.two_pow_pos (c.bits - 1)).trans_le hneg.2
    rw [length_cons]
    exact Nat.succ_le_succ (hdigits _ (by omega))
  · exact (hdigits _ (Nat.mod_lt _ hpos)).trans (by decide)

/-- The width of an item, 0 if it has none. -/
def Item.width : Item → ℕ
  | .num c => c.width
  | _ => 0

/-- How long a text can be. -/
theorem Readable.length_sprintf_le : ∀ {fmt : List Item} {args : List Arg}, Readable fmt args →
      (∀ i ∈ fmt, i.width ≤ 64) → (sprintf fmt args).length ≤ 65 * fmt.length
  | [], [], _, _ => by
    exact Nat.zero_le _
  | .lit c :: fmt, args, h, hw => by
    have h' : Readable fmt args := h
    have := h'.length_sprintf_le fun i hi => hw i (mem_cons_of_mem _ hi)
    rw [sprintf, length_cons, length_cons]
    omega
  | .num c :: fmt, .word n :: args, ⟨hc, _, _, h⟩, hw => by
    have := length_sprintf_le h fun i hi => hw i (mem_cons_of_mem _ hi)
    have := hc.length_print_le (hw _ mem_cons_self) n
    rw [sprintf, length_append, length_cons]
    omega

end Rdfs
