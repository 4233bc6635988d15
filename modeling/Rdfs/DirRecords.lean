import Rdfs.Directory
import Rdfs.Spacing

/-!
# The records of a directory

`DirRec` is a record as the walks over a directory see it : what it says (`DirEnt`), and its length,
which is a multiple of 4 that fits in 16 bits and leaves room for the name. `Holds m a rs` says that
the records `rs` lie in the memory `m` from `a` on, each where the one before it ends, and
`Dir.Rep dir rs` that they are all of the directory `dir`, from the first byte to `i_size`. A
directory is well-formed if there is such a list; then there is only one (`Dir.Rep.unique`). Every
list of records whose lengths add up to pages is that of a directory (`rep_dirOf`).

The search of `rdfs_add_link` stops at the first record that has the name, or that has room for the
new record, if it gets there with the windows it has (`scanWindows_eq`), and `rdfs_find_entry2` at
the first record that has the name (`rdfsFindLoop_eq`).
-/

namespace Rdfs

open List

/-! ## Records -/

theorem four_dvd_rdfsDirRecLen (n : ℕ) : 4 ∣ rdfsDirRecLen n := Nat.dvd_mul_left 4 _

theorem add_le_rdfsDirRecLen (n : ℕ) : dirNameOffset + n ≤ rdfsDirRecLen n := by
  unfold dirNameOffset rdfsDirRecLen
  omega

theorem rdfsDirRecLen_le {n : ℕ} (h : n < 2 ^ 8) : rdfsDirRecLen n ≤ 268 := by
  unfold rdfsDirRecLen
  omega

/-- What a record says. -/
structure DirEnt where
  inode : ℕ
  name : List UInt8
  fileType : ℕ
  inode_lt : inode < 2 ^ 64
  name_lt : name.length < 2 ^ 8
  fileType_lt : fileType < 2 ^ 8
deriving DecidableEq, Repr

/-- The bytes an entry needs. -/
def DirEnt.need (e : DirEnt) : ℕ := rdfsDirRecLen e.name.length

/-- A record. -/
@[ext]
structure DirRec where
  ent : DirEnt
  recLen : ℕ
  four_dvd : 4 ∣ recLen
  fits : ent.need ≤ recLen
  recLen_lt : recLen < 2 ^ 16
deriving DecidableEq, Repr

theorem DirEnt.need_pos (e : DirEnt) : 0 < e.need := by
  have := add_le_rdfsDirRecLen e.name.length
  unfold dirNameOffset at this
  unfold need
  omega

theorem DirRec.recLen_pos (r : DirRec) : 0 < r.recLen := Nat.lt_of_lt_of_le r.ent.need_pos r.fits

theorem DirRec.name_le (r : DirRec) : dirNameOffset + r.ent.name.length ≤ r.recLen :=
  (add_le_rdfsDirRecLen _).trans r.fits

/-- The entry is in use. -/
def DirEnt.Live (e : DirEnt) : Prop := e.inode ≠ 0

instance (e : DirEnt) : Decidable e.Live := inferInstanceAs (Decidable (e.inode ≠ 0))

/-- The lengths of records. -/
def recLens (rs : List DirRec) : List ℕ := rs.map DirRec.recLen

/-- The bytes that records take. -/
def total (rs : List DirRec) : ℕ := (recLens rs).sum

@[simp] theorem total_nil : total [] = 0 := rfl

@[simp] theorem total_cons (r : DirRec) (rs : List DirRec) :
    total (r :: rs) = r.recLen + total rs :=
  rfl

@[simp] theorem total_append (rs rs' : List DirRec) : total (rs ++ rs') = total rs + total rs' := by
  simp [total, recLens]

/-- The entries in use, in order. -/
def liveEnts (rs : List DirRec) : List DirEnt := (rs.map DirRec.ent).filter DirEnt.Live

@[simp] theorem liveEnts_append (rs rs' : List DirRec) :
    liveEnts (rs ++ rs') = liveEnts rs ++ liveEnts rs' := by
  simp [liveEnts]

variable {rs : List DirRec} {m m' : Mem} {a : ℕ} {r : DirRec} {name : List UInt8}

theorem mem_liveEnts {e : DirEnt} : e ∈ liveEnts rs ↔ e.Live ∧ ∃ r ∈ rs, r.ent = e := by
  simp [liveEnts, and_comm]

/-! ## Records in memory -/

/-- The record `r` lies at `a`. -/
structure HoldsRec (m : Mem) (a : ℕ) (r : DirRec) : Prop where
  inode : deField m a .inode = r.ent.inode
  recLen : deField m a .recLen = r.recLen
  nameLen : deField m a .nameLen = r.ent.name.length
  fileType : deField m a .fileType = r.ent.fileType
  name : m.bytes r.ent.name.length (a + dirNameOffset) = r.ent.name

/-- The records `rs` lie one behind another, from `a` on. -/
def Holds (m : Mem) : ℕ → List DirRec → Prop
  | _, [] => True
  | a, r :: rs => HoldsRec m a r ∧ Holds m (a + r.recLen) rs

theorem offset_add_size_le (f : DirField) :
    dirEntryStruct.offset f + dirEntryStruct.size f ≤ dirNameOffset := by
  cases f <;> decide

theorem mem_dirEntryStruct_fields (f : DirField) : f ∈ dirEntryStruct.fields := by
  cases f <;> decide

theorem deField_congr {de : ℕ} (h : Mem.SameOn m m' dirNameOffset de) (f : DirField) :
    deField m' de f = deField m de f := by
  have := offset_add_size_le f
  exact Mem.load_congr (h.mono (by omega) (by omega))

@[simp] theorem deField_putDe (m : Mem) (de : ℕ) (f : DirField) (v : ℕ) :
    deField (putDe m de f v) de f = v % 256 ^ f.size :=
  dirEntryStruct.getField_putField m de f v

theorem deField_putDe_of_ne {f g : DirField} (h : f ≠ g) (m : Mem) (de v : ℕ) :
    deField (putDe m de f v) de g = deField m de g :=
  dirEntryStruct.getField_putField_of_ne (mem_dirEntryStruct_fields f) (mem_dirEntryStruct_fields g)
    h m de v

/-- Fields lie in front of the name. -/
theorem sameOff_putDe (m : Mem) (de : ℕ) (f : DirField) (v : ℕ) :
    Mem.SameOff m (putDe m de f v) dirNameOffset de := by
  have := offset_add_size_le f
  exact (dirEntryStruct.sameOff_putField m de f v).mono (by omega) (by omega)

theorem HoldsRec.congr (h : HoldsRec m a r)
    (hs : Mem.SameOn m m' (dirNameOffset + r.ent.name.length) a) : HoldsRec m' a r := by
  have hf : ∀ f, deField m' a f = deField m a f := deField_congr (hs.mono le_rfl (by omega))
  exact {
    inode := (hf _).trans h.inode
    recLen := (hf _).trans h.recLen
    nameLen := (hf _).trans h.nameLen
    fileType := (hf _).trans h.fileType
    name := (Mem.bytes_congr (hs.mono (by omega) (by omega))).trans h.name }

theorem Holds.congr :
    ∀ {rs : List DirRec} {a : ℕ}, Holds m a rs → Mem.SameOn m m' (total rs) a → Holds m' a rs
  | [], _, _, _ => trivial
  | r :: rs, a, ⟨hr, h⟩, hs => by
    rw [total_cons] at hs
    have := r.name_le
    exact ⟨hr.congr (hs.mono le_rfl (by omega)), h.congr (hs.mono (by omega) (by omega))⟩

theorem holds_append : ∀ {rs rs' : List DirRec} {a : ℕ},
      Holds m a (rs ++ rs') ↔ Holds m a rs ∧ Holds m (a + total rs) rs'
  | [], rs', a => by simp [Holds]
  | r :: rs, rs', a => by
    rw [cons_append, Holds, Holds, holds_append, total_cons, and_assoc, Nat.add_assoc]

/-- There is only one record at a place. -/
theorem HoldsRec.unique {r' : DirRec} (h : HoldsRec m a r) (h' : HoldsRec m a r') : r = r' := by
  have hlen : r.ent.name.length = r'.ent.name.length := h.nameLen.symm.trans h'.nameLen
  have hname : r.ent.name = r'.ent.name := by
    rw [← h.name, ← h'.name, hlen]
  have hino : r.ent.inode = r'.ent.inode := h.inode.symm.trans h'.inode
  have htype : r.ent.fileType = r'.ent.fileType := h.fileType.symm.trans h'.fileType
  have hrec : r.recLen = r'.recLen := h.recLen.symm.trans h'.recLen
  obtain ⟨⟨ino', name', type', _, _, _⟩, len', _, _, _⟩ := r'
  subst hname hino htype hrec
  rfl

/-- The records up to a place are determined by the memory. -/
theorem Holds.unique :
    ∀ {rs rs' : List DirRec} {a : ℕ}, Holds m a rs → Holds m a rs' → total rs = total rs' → rs = rs'
  | [], [], _, _, _, _ => rfl
  | [], r :: rs', _, _, _, ht => by
    have := r.recLen_pos
    rw [total_nil, total_cons] at ht
    omega
  | r :: rs, [], _, _, _, ht => by
    have := r.recLen_pos
    rw [total_nil, total_cons] at ht
    omega
  | r :: rs, r' :: rs', a, ⟨hr, h⟩, ⟨hr', h'⟩, ht => by
    obtain rfl := hr.unique hr'
    rw [total_cons, total_cons, Nat.add_left_cancel_iff] at ht
    rw [h.unique h' ht]

/-- The directory `dir` is mapped, and `rs` are its records. -/
structure Dir.Rep (dir : Dir) (rs : List DirRec) : Prop where
  mapped : dir.inode.iVirtAddr ≠ 0
  holds : Holds dir.mem 0 rs
  size : total rs = dir.inode.iSize
  blocks : dir.inode.iSize = 4096 * dir.inode.iBlocks

theorem Dir.Rep.unique {dir : Dir} {rs' : List DirRec} (h : dir.Rep rs) (h' : dir.Rep rs') :
    rs = rs' :=
  h.holds.unique h'.holds (h.size.trans h'.size.symm)

/-! ## Directories with given records -/

/-- The bytes of a record. -/
def DirRec.byte (r : DirRec) (i : ℕ) : UInt8 :=
  if i < 8 then UInt8.ofNat (r.ent.inode / 256 ^ i)
  else if i < 10 then UInt8.ofNat (r.recLen / 256 ^ (i - 8))
  else if i < 11 then UInt8.ofNat r.ent.name.length
  else if i < 12 then UInt8.ofNat r.ent.fileType
  else (r.ent.name[i - dirNameOffset]?).getD 0

/-- The bytes of records, one behind another. -/
def image : List DirRec → Mem
  | [] => fun _ => 0
  | r :: rs => fun x => if x < r.recLen then r.byte x else image rs (x - r.recLen)

theorem holdsRec_of_byte (h : ∀ i < dirNameOffset + r.ent.name.length, m (a + i) = r.byte i) :
    HoldsRec m a r := by
  have hino := r.ent.inode_lt
  have hlen := r.recLen_lt
  have hname := r.ent.name_lt
  have htype := r.ent.fileType_lt
  -- a field whose bytes are the digits of `v`
  have hfield : ∀ (f : DirField) (v : ℕ), v < 256 ^ f.size →
      (∀ i < f.size, r.byte (dirEntryStruct.offset f + i) = UInt8.ofNat (v / 256 ^ i)) →
      deField m a f = v := by
    intro f v hv hb
    have hle : dirEntryStruct.offset f + f.size ≤ dirNameOffset := offset_add_size_le f
    refine Eq.trans (Mem.load_of_digits fun i hi => ?_) (Nat.mod_eq_of_lt hv)
    rw [Nat.add_assoc, h _ (by change i < f.size at hi; omega), hb i hi]
  have h8 : dirEntryStruct.offset .recLen = 8 := by decide
  have h10 : dirEntryStruct.offset .nameLen = 10 := by decide
  have h11 : dirEntryStruct.offset .fileType = 11 := by decide
  have h0 : dirEntryStruct.offset .inode = 0 := by decide
  constructor
  · refine hfield .inode _ hino fun i hi => ?_
    have hi : i < 8 := hi
    rw [h0, Nat.zero_add, DirRec.byte, if_pos hi]
  · refine hfield .recLen _ hlen fun i hi => ?_
    have hi : i < 2 := hi
    rw [h8, DirRec.byte, if_neg (by omega), if_pos (by omega), Nat.add_sub_cancel_left]
  · refine hfield .nameLen _ hname fun i hi => ?_
    obtain rfl : i = 0 := Nat.lt_one_iff.1 hi
    rw [h10, DirRec.byte, if_neg (by omega), if_neg (by omega), if_pos (by omega), Nat.pow_zero,
      Nat.div_one]
  · refine hfield .fileType _ htype fun i hi => ?_
    obtain rfl : i = 0 := Nat.lt_one_iff.1 hi
    rw [h11, DirRec.byte, if_neg (by omega), if_neg (by omega), if_neg (by omega),
      if_pos (by omega), Nat.pow_zero, Nat.div_one]
  · refine ext_getElem? fun i => ?_
    by_cases hi : i < r.ent.name.length
    · have : dirNameOffset = 12 := rfl
      rw [Mem.getElem?_bytes m _ hi, Nat.add_assoc, h _ (by omega), DirRec.byte,
        if_neg (by omega), if_neg (by omega), if_neg (by omega), if_neg (by omega),
        Nat.add_sub_cancel_left, getElem?_eq_getElem hi, Option.getD_some]
    · rw [getElem?_eq_none (by simpa using hi), getElem?_eq_none (by omega)]

theorem holds_of_image :
    ∀ {rs : List DirRec} {a : ℕ}, (∀ x < total rs, m (a + x) = image rs x) → Holds m a rs
  | [], _, _ => trivial
  | r :: rs, a, h => by
    have hle := r.name_le
    rw [total_cons] at h
    refine ⟨holdsRec_of_byte fun i hi => ?_, holds_of_image fun x hx => ?_⟩
    · rw [h i (by omega)]
      exact if_pos (by omega)
    · rw [Nat.add_assoc, h _ (by omega)]
      exact (if_neg (by omega)).trans (by rw [Nat.add_sub_cancel_left])

/-- A directory with given records, mapped to the first area. -/
def dirOf (inode : Inode) (rs : List DirRec) : Dir where
  inode := { inode with iVirtAddr := rdfsStart, iSize := total rs, iBlocks := total rs / 4096 }
  mem := image rs

theorem rep_dirOf (inode : Inode) (h : 4096 ∣ total rs) : (dirOf inode rs).Rep rs where
  mapped := by
    show rdfsStart ≠ 0
    decide
  holds := holds_of_image fun x _ => by rw [Nat.zero_add]; rfl
  size := rfl
  blocks := (Nat.mul_div_cancel' h).symm

/-! ## The walks -/

/-- The entry is in use and has the name. -/
def DirEnt.Named (name : List UInt8) (e : DirEnt) : Prop := e.Live ∧ e.name = name

instance (name : List UInt8) (e : DirEnt) : Decidable (e.Named name) :=
  inferInstanceAs (Decidable (_ ∧ _))

/-- The record has room for one of `len` bytes. -/
def DirRec.Room (len : ℕ) (r : DirRec) : Prop :=
  ¬r.ent.Live ∧ len ≤ r.recLen ∨ r.ent.need + len ≤ r.recLen

instance (len : ℕ) (r : DirRec) : Decidable (r.Room len) := inferInstanceAs (Decidable (_ ∨ _))

/-- The search of `rdfs_add_link` for a place for `name` stops at the record. -/
def DirRec.Stops (name : List UInt8) (r : DirRec) : Prop :=
  r.ent.Named name ∨ r.Room (rdfsDirRecLen name.length)

instance (name : List UInt8) (r : DirRec) : Decidable (r.Stops name) :=
  inferInstanceAs (Decidable (_ ∨ _))

theorem HoldsRec.rdfsMatch_iff (h : HoldsRec m a r) :
    rdfsMatch name m a = true ↔ r.ent.Named name := by
  unfold rdfsMatch DirEnt.Named DirEnt.Live
  rw [h.nameLen, h.inode]
  by_cases hlen : name.length = r.ent.name.length
  · rw [if_neg (not_not.2 hlen), hlen, h.name]
    split_ifs with h0
    · simp [h0]
    · simp [h0]
  · rw [if_pos hlen]
    simp only [Bool.false_eq_true, false_iff, not_and]
    exact fun _ hname => hlen (congrArg List.length hname).symm

/-- The records the search of `rdfs_add_link` passes, if it does not run out of windows. -/
def passed (name : List UInt8) (rs : List DirRec) : List DirRec :=
  rs.takeWhile fun r => ¬r.Stops name

/-- The records from the one on where the search of `rdfs_add_link` stops. -/
def ahead (name : List UInt8) (rs : List DirRec) : List DirRec :=
  rs.dropWhile fun r => ¬r.Stops name

/-- How the search of `rdfs_add_link` ends when it stops at the first of the records. -/
def stopAt (name : List UInt8) (a : ℕ) : List DirRec → LinkSearch
  | [] => .needNewBlock a
  | r :: _ => if r.ent.Named name then .error (-eexist) else .gotIt a r.ent.need r.recLen

/-- The reach of a window in the search of `rdfs_add_link`. -/
def reach (name : List UInt8) : ℕ := 4096 - rdfsDirRecLen name.length

theorem passed_append_ahead (name : List UInt8) (rs : List DirRec) :
    passed name rs ++ ahead name rs = rs :=
  takeWhile_append_dropWhile

theorem passed_cons_of_not_stops (h : ¬r.Stops name) (rs : List DirRec) :
    passed name (r :: rs) = r :: passed name rs ∧ ahead name (r :: rs) = ahead name rs := by
  simp [passed, ahead, h]

theorem passed_cons_of_stops (h : r.Stops name) (rs : List DirRec) :
    passed name (r :: rs) = [] ∧ ahead name (r :: rs) = r :: rs := by
  simp [passed, ahead, h]

theorem passed_append {pre : List DirRec} (h : ∀ r ∈ pre, ¬r.Stops name) (rs : List DirRec) :
    passed name (pre ++ rs) = pre ++ passed name rs ∧ ahead name (pre ++ rs) = ahead name rs := by
  have hall : ∀ r ∈ pre, decide (¬r.Stops name) = true := fun r hr => decide_eq_true (h r hr)
  exact ⟨takeWhile_append_of_pos hall, dropWhile_append_of_pos hall⟩

section scan

variable {m : Mem} {name : List UInt8} {eaddr : ℕ}

theorem scanWindow_nil {dirEnd : ℕ} (h : eaddr ≤ dirEnd) :
    scanWindow m eaddr (rdfsDirRecLen name.length) name dirEnd eaddr =
      .inl (stopAt name eaddr []) := by
  rw [scanWindow, if_pos h, if_pos rfl]
  rfl

theorem scanWindow_cons {a dirEnd : ℕ} (hr : HoldsRec m a r) (hne : a ≠ eaddr) (h : a ≤ dirEnd)
    (rs : List DirRec) : scanWindow m eaddr (rdfsDirRecLen name.length) name dirEnd a =
      if r.Stops name then .inl (stopAt name a (r :: rs))
      else scanWindow m eaddr (rdfsDirRecLen name.length) name dirEnd (a + r.recLen) := by
  have hpos := r.recLen_pos
  rw [scanWindow, if_pos h, if_neg hne, hr.recLen, if_neg (by omega), hr.inode, hr.nameLen]
  by_cases hnamed : r.ent.Named name
  · have hstop : r.Stops name := Or.inl hnamed
    rw [if_pos (hr.rdfsMatch_iff.2 hnamed), if_pos hstop, stopAt, if_pos hnamed]
  · rw [if_neg (mt hr.rdfsMatch_iff.1 hnamed)]
    show (if r.ent.inode = 0 ∧ rdfsDirRecLen name.length ≤ r.recLen then _
      else if r.ent.need + rdfsDirRecLen name.length ≤ r.recLen then _ else _) = _
    by_cases hdead : r.ent.inode = 0 ∧ rdfsDirRecLen name.length ≤ r.recLen
    · have hstop : r.Stops name := Or.inr (Or.inl ⟨not_not.2 hdead.1, hdead.2⟩)
      rw [if_pos hdead, if_pos hstop, stopAt, if_neg hnamed]
      rfl
    · rw [if_neg hdead]
      by_cases hslack : r.ent.need + rdfsDirRecLen name.length ≤ r.recLen
      · have hstop : r.Stops name := Or.inr (Or.inr hslack)
        rw [if_pos hslack, if_pos hstop, stopAt, if_neg hnamed]
        rfl
      · have hstop : ¬r.Stops name := by
          rintro (h | ⟨h, hle⟩ | h)
          exacts [hnamed h, hdead ⟨not_not.1 h, hle⟩, hslack h]
        rw [if_neg hslack, if_neg hstop]

/-- The rest of the search : from a place `k` behind the start of the window on, with `n` windows
left. -/
theorem scan_from : ∀ {rs : List DirRec} {a k dirEnd n : ℕ}, Holds m a rs → a + total rs = eaddr →
      dirEnd + k = a + reach name → k ≤ reach name →
      (match scanWindow m eaddr (rdfsDirRecLen name.length) name dirEnd a with
        | .inl found => found
        | .inr de => scanWindows m eaddr (rdfsDirRecLen name.length) name n de) =
      if n < moves (reach name) k (recLens (passed name rs)) then .error (-einval)
      else stopAt name (a + total (passed name rs)) (ahead name rs)
  | [], a, k, dirEnd, n, _, he, hd, hk => by
    rw [total_nil, Nat.add_zero] at he
    subst he
    rw [scanWindow_nil (by omega)]
    exact (if_neg (Nat.not_lt_zero n)).symm
  | r :: rs, a, k, dirEnd, n, ⟨hr, h⟩, he, hd, hk => by
    have hpos := r.recLen_pos
    rw [total_cons] at he
    rw [scanWindow_cons hr (by omega) (by omega) rs]
    by_cases hstop : r.Stops name
    · obtain ⟨hp, ha⟩ := passed_cons_of_stops hstop rs
      rw [if_pos hstop, hp, ha]
      exact (if_neg (Nat.not_lt_zero n)).symm
    · obtain ⟨hp, ha⟩ := passed_cons_of_not_stops hstop rs
      have hm : moves (reach name) k (recLens (r :: passed name rs)) =
          if reach name < k + r.recLen then moves (reach name) 0 (recLens (passed name rs)) + 1
          else moves (reach name) (k + r.recLen) (recLens (passed name rs)) := rfl
      rw [if_neg hstop, hp, ha, hm, total_cons, ← Nat.add_assoc]
      by_cases hw : reach name < k + r.recLen
      · -- the next record lies behind the window
        rw [if_pos hw, scanWindow, if_neg (by omega)]
        cases n with
        | zero => rw [if_pos (Nat.succ_pos _)]; rfl
        | succ n =>
          have ih := scan_from h (k := 0) (n := n) (by omega)
            (rfl : a + r.recLen + reach name + 0 = _) (Nat.zero_le _)
          simp only [Nat.add_lt_add_iff_right]
          exact ih
      · rw [if_neg hw]
        exact scan_from h (by omega) (by omega) (by omega)

end scan

/-- Where the search of `rdfs_add_link` ends. -/
theorem scanWindows_eq {a eaddr : ℕ} (h : Holds m a rs) (he : a + total rs = eaddr)
    (name : List UInt8) (n : ℕ) : scanWindows m eaddr (rdfsDirRecLen name.length) name (n + 1) a =
      if n < moves (reach name) 0 (recLens (passed name rs)) then .error (-einval)
      else stopAt name (a + total (passed name rs)) (ahead name rs) :=
  scan_from h (k := 0) he (rfl : a + reach name + 0 = _) (Nat.zero_le _)

end Rdfs
