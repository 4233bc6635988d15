import Rdfs.Directory

/-!
# Stored access control lists

An access control list is stored as a header with the version and one entry after the other :
tag and permissions, and for a named user or group the id as well (`acl.c`). Nothing in the stored
form says how many entries there are. `rdfs_acl_count` computes the number from the size, as if a
list of four entries or more always had exactly four without an id.

`rdfsAclLoad` reads the stored bytes, big-endian. It reads no byte behind them, it accepts the
bytes that split into as many entries as `rdfs_acl_count` says, and it returns the fields of that
split (`rdfsAclLoad_spec`).

`rdfsAclSave` writes tag and permissions little-endian. For a list that `posix_acl_valid` accepts
it writes as many bytes as `rdfs_acl_size` says (`length_rdfsAclSave`), but the first tag read back
is 0x100, and `rdfs_acl_load` rejects every list that was saved (`not_roundTrips`).
-/

namespace Rdfs

open List Option

/-! ## The code -/

/-- The tags of entries that the code knows. -/
inductive AclTag
  | userObj | user | groupObj | group | mask | other
deriving DecidableEq, Repr

variable {t : AclTag} {bs : List UInt8}

namespace AclTag

/-- The `ACL_` constants. -/
def code : AclTag → ℕ
  | userObj => 0x01
  | user => 0x02
  | groupObj => 0x04
  | group => 0x08
  | mask => 0x10
  | other => 0x20

/-- The `switch` on `e_tag`, `none` for its default. -/
def ofCode : ℕ → Option AclTag
  | 0x01 => some userObj
  | 0x02 => some user
  | 0x04 => some groupObj
  | 0x08 => some group
  | 0x10 => some mask
  | 0x20 => some other
  | _ => none

/-- The tags whose entries carry an id. -/
def Named (t : AclTag) : Prop := t = user ∨ t = group

instance : DecidablePred Named := fun t => inferInstanceAs (Decidable (t = user ∨ t = group))

theorem ofCode_code (t : AclTag) : ofCode t.code = some t := by
  cases t <;> rfl

theorem code_of_ofCode {c : ℕ} (h : ofCode c = some t) : c = t.code := by
  unfold ofCode at h
  split at h <;> simp_all [code]
  all_goals subst h; rfl

theorem code_inj {t' : AclTag} (h : t.code = t'.code) : t = t' :=
  some_inj.1 ((ofCode_code t).symm.trans (h ▸ ofCode_code t'))

end AclTag

/-- `struct posix_acl_entry`. -/
structure PosixAclEntry where
  eTag : ℕ
  ePerm : ℕ
  eId : ℕ
deriving DecidableEq, Repr

/-- The entry is one of a named user or group. -/
def PosixAclEntry.HasId (e : PosixAclEntry) : Prop :=
  e.eTag = AclTag.user.code ∨ e.eTag = AclTag.group.code

instance : DecidablePred PosixAclEntry.HasId := fun e =>
  inferInstanceAs (Decidable (e.eTag = AclTag.user.code ∨ e.eTag = AclTag.group.code))

/-- The fields of an entry that mean something : the id only of named users and groups. -/
def PosixAclEntry.fields (e : PosixAclEntry) : ℕ × ℕ × Option ℕ :=
  (e.eTag, e.ePerm, if e.HasId then some e.eId else none)

variable {e : PosixAclEntry}

theorem PosixAclEntry.hasId_iff (ht : AclTag.ofCode e.eTag = some t) : e.HasId ↔ t.Named := by
  unfold HasId
  rw [AclTag.code_of_ofCode ht]
  exact ⟨Or.imp AclTag.code_inj AclTag.code_inj, Or.imp (congrArg _) (congrArg _)⟩

/-- Two bytes, the first one high. -/
def be16 (b₀ b₁ : UInt8) : ℕ := 256 * b₀.toNat + b₁.toNat

/-- Four bytes, the first one high. -/
def be32 (b₀ b₁ b₂ b₃ : UInt8) : ℕ := 65536 * be16 b₀ b₁ + be16 b₂ b₃

/-- The 16-bit field at `a`, `none` if a byte of it lies behind the bytes given. -/
def be16At (bs : List UInt8) (a : ℕ) : Option ℕ :=
  match bs.drop a with
  | b₀ :: b₁ :: _ => some (be16 b₀ b₁)
  | _ => none

/-- The 32-bit field at `a`, `none` if a byte of it lies behind the bytes given. -/
def be32At (bs : List UInt8) (a : ℕ) : Option ℕ :=
  match bs.drop a with
  | b₀ :: b₁ :: b₂ :: b₃ :: _ => some (be32 b₀ b₁ b₂ b₃)
  | _ => none

/-- What `rdfs_acl_load` comes to : a byte read behind the end, an error, `NULL`, or a list. -/
inductive AclLoad
  | overread
  | err (code : ℤ)
  | null
  | acl (entries : List PosixAclEntry)
deriving DecidableEq, Repr

/-- `rdfs_acl_count` for at least the four bytes of a header; the result is an `int`. -/
def rdfsAclCount (size : ℕ) : ℤ :=
  let size := size - 4
  let s : ℤ := (size : ℤ) - 4 * 4
  if s < 0 then if size % 4 ≠ 0 then -1 else i32 (size / 4 : ℕ)
  else if s % 8 ≠ 0 then -1
  else i32 (s / 8 + 4)

/-- The loop of `rdfs_acl_load` with `cnt` entries to go, at entry `n` and offset `value`, behind
the entries `acl`. `stale n` is what the field for the id held in the memory allocated. -/
def aclLoadLoop (bs : List UInt8) (stale : ℕ → ℕ) :
    ℕ → ℕ → ℕ → List PosixAclEntry → AclLoad
  | 0, _, value, acl => if value ≠ bs.length then .err (-einval) else .acl acl
  | cnt + 1, n, value, acl =>
    if bs.length < value + 4 then .err (-einval)
    else match be16At bs value, be16At bs (value + 2) with
      | some tag, some perm =>
        match AclTag.ofCode tag with
        | none => .err (-einval)
        | some t =>
          if t.Named then
            if bs.length < value + 8 then .err (-einval)
            else match be32At bs (value + 4) with
              | some id => aclLoadLoop bs stale cnt (n + 1) (value + 8) (acl ++ [⟨tag, perm, id⟩])
              | none => .overread
          else aclLoadLoop bs stale cnt (n + 1) (value + 4) (acl ++ [⟨tag, perm, stale n⟩])
      | _, _ => .overread

/-- `rdfs_acl_load` of the bytes `bs`; `alloc` is what `posix_acl_alloc` returns, `none` for
`NULL` and else what the fields for the ids hold. `make_kuid` and `make_kgid` are the identity. -/
def rdfsAclLoad (bs : List UInt8) (alloc : Option (ℕ → ℕ)) : AclLoad :=
  if bs.length < 4 then .err (-einval)
  else match be32At bs 0 with
    | none => .overread
    | some version =>
      if version ≠ 1 then .err (-einval)
      else
        let count := rdfsAclCount bs.length
        if count < 0 then .err (-einval)
        else if count = 0 then .null
        else match alloc with
          | none => .err (-enomem)
          | some stale => aclLoadLoop bs stale count.toNat 0 4 []

/-- `rdfs_acl_size`. -/
def rdfsAclSize (count : ℕ) : ℕ :=
  if count ≤ 4 then 4 + count * 4 else 4 + 4 * 4 + (count - 4) * 8

/-- The bytes of a 16-bit field on a little-endian machine. -/
def le16Bytes (v : ℕ) : List UInt8 := [UInt8.ofNat v, UInt8.ofNat (v / 256)]

/-- The bytes of a 32-bit field through `cpu_to_be32`. -/
def be32Bytes (v : ℕ) : List UInt8 :=
  [UInt8.ofNat (v / 2 ^ 24), UInt8.ofNat (v / 2 ^ 16), UInt8.ofNat (v / 2 ^ 8), UInt8.ofNat v]

/-- One round of `rdfs_acl_save` : the bytes it moves `e` over, `none` for an unknown tag. -/
def aclSaveEntry (e : PosixAclEntry) : Option (List UInt8) :=
  (AclTag.ofCode e.eTag).map fun t =>
    le16Bytes e.eTag ++ le16Bytes e.ePerm ++ if t.Named then be32Bytes e.eId else []

/-- `rdfs_acl_save` : `*size` and the bytes written, or the error. `kmalloc` has succeeded. -/
def rdfsAclSave (acl : List PosixAclEntry) : Except ℤ (ℕ × List UInt8) :=
  match acl.mapM aclSaveEntry with
  | none => .error (-einval)
  | some es => .ok (rdfsAclSize acl.length, be32Bytes 1 ++ es.flatten)

/-! ## Splitting bytes into entries -/

/-- The bytes are entries with known tags, one after the other, with these fields. -/
inductive Splits : List UInt8 → List (ℕ × ℕ × Option ℕ) → Prop
  | nil : Splits [] []
  | short {t₀ t₁ p₀ p₁ : UInt8} {t : AclTag} {bs : List UInt8} {items : List (ℕ × ℕ × Option ℕ)}
      (ht : AclTag.ofCode (be16 t₀ t₁) = some t) (hn : ¬t.Named) (h : Splits bs items) :
      Splits (t₀ :: t₁ :: p₀ :: p₁ :: bs) ((be16 t₀ t₁, be16 p₀ p₁, none) :: items)
  | named {t₀ t₁ p₀ p₁ i₀ i₁ i₂ i₃ : UInt8} {t : AclTag} {bs : List UInt8}
      {items : List (ℕ × ℕ × Option ℕ)}
      (ht : AclTag.ofCode (be16 t₀ t₁) = some t) (hn : t.Named) (h : Splits bs items) :
      Splits (t₀ :: t₁ :: p₀ :: p₁ :: i₀ :: i₁ :: i₂ :: i₃ :: bs)
        ((be16 t₀ t₁, be16 p₀ p₁, some (be32 i₀ i₁ i₂ i₃)) :: items)

namespace Splits

variable {bs : List UInt8} {items items' : List (ℕ × ℕ × Option ℕ)} {t₀ t₁ p₀ p₁ : UInt8}

/-- Fewer bytes than an entry are no entry. -/
theorem eq_nil (h : Splits bs items) (hlen : bs.length < 4) : items = [] := by
  cases h with
  | nil => rfl
  | short _ _ _ =>
    simp only [length_cons] at hlen
    omega
  | named _ _ _ =>
    simp only [length_cons] at hlen
    omega

/-- An entry with an unknown tag. -/
theorem ofCode_ne_none (h : Splits (t₀ :: t₁ :: p₀ :: p₁ :: bs) items) :
    AclTag.ofCode (be16 t₀ t₁) ≠ none := by
  cases h with
  | short ht _ _ => simp [ht]
  | named ht _ _ => simp [ht]

theorem short_iff (ht : AclTag.ofCode (be16 t₀ t₁) = some t) (hn : ¬t.Named) :
    Splits (t₀ :: t₁ :: p₀ :: p₁ :: bs) items ↔
      ∃ rest, items = (be16 t₀ t₁, be16 p₀ p₁, none) :: rest ∧ Splits bs rest := by
  refine ⟨fun h => ?_, fun ⟨rest, heq, h⟩ => heq ▸ h.short ht hn⟩
  cases h with
  | short _ _ h => exact ⟨_, rfl, h⟩
  | named ht' hn' _ =>
    obtain rfl := some_inj.1 (ht.symm.trans ht')
    exact absurd hn' hn

theorem named_inv (h : Splits (t₀ :: t₁ :: p₀ :: p₁ :: bs) items)
    (ht : AclTag.ofCode (be16 t₀ t₁) = some t) (hn : t.Named) :
    ∃ i₀ i₁ i₂ i₃ bs' rest, bs = i₀ :: i₁ :: i₂ :: i₃ :: bs' ∧
      items = (be16 t₀ t₁, be16 p₀ p₁, some (be32 i₀ i₁ i₂ i₃)) :: rest ∧ Splits bs' rest := by
  cases h with
  | short ht' hn' _ =>
    obtain rfl := some_inj.1 (ht.symm.trans ht')
    exact absurd hn hn'
  | named _ _ h => exact ⟨_, _, _, _, _, _, rfl, rfl, h⟩

theorem named_iff {i₀ i₁ i₂ i₃ : UInt8} (ht : AclTag.ofCode (be16 t₀ t₁) = some t) (hn : t.Named) :
    Splits (t₀ :: t₁ :: p₀ :: p₁ :: i₀ :: i₁ :: i₂ :: i₃ :: bs) items ↔
      ∃ rest, items = (be16 t₀ t₁, be16 p₀ p₁, some (be32 i₀ i₁ i₂ i₃)) :: rest ∧
        Splits bs rest := by
  refine ⟨fun h => ?_, fun ⟨rest, heq, h⟩ => heq ▸ h.named ht hn⟩
  obtain ⟨_, _, _, _, _, rest, hbs, rfl, h'⟩ := h.named_inv ht hn
  obtain ⟨rfl, rfl, rfl, rfl, rfl⟩ : _ ∧ _ ∧ _ ∧ _ ∧ _ := by simpa using hbs
  exact ⟨rest, rfl, h'⟩

/-- Bytes split in one way only. -/
theorem unique (h : Splits bs items) (h' : Splits bs items') : items = items' := by
  induction h generalizing items' with
  | nil => exact (h'.eq_nil (by simp)).symm
  | short ht hn _ ih =>
    obtain ⟨rest, rfl, hrest⟩ := (short_iff ht hn).1 h'
    rw [ih hrest]
  | named ht hn _ ih =>
    obtain ⟨rest, rfl, hrest⟩ := (named_iff ht hn).1 h'
    rw [ih hrest]

/-- The entries without an id. -/
def shorts (items : List (ℕ × ℕ × Option ℕ)) : ℕ := items.countP fun i => i.2.2 = none

/-- Four bytes for an entry without an id, eight for one with an id. -/
theorem length_add (h : Splits bs items) : bs.length + 4 * shorts items = 8 * items.length := by
  induction h with
  | nil => rfl
  | short _ _ _ ih =>
    simp only [shorts] at ih ⊢
    simp
    omega
  | named _ _ _ ih =>
    simp only [shorts] at ih ⊢
    simp
    omega

/-- The number that `rdfs_acl_count` computes is the number of entries exactly if all of them are
short in a body under 16 bytes, and four of them in a longer one. -/
theorem count_iff (h : Splits bs items) (hlen : bs.length + 4 < 2 ^ 31) :
    rdfsAclCount (bs.length + 4) = items.length ↔
      if bs.length < 16 then shorts items = items.length else shorts items = 4 := by
  have hadd := h.length_add
  simp only [rdfsAclCount]
  by_cases hs : bs.length < 16
  · rw [if_pos (by omega), if_pos hs]
    split_ifs with hr
    · omega
    · rw [i32_eq (by omega) (by omega)]
      omega
  · rw [if_neg (by omega), if_neg hs]
    split_ifs with hr
    · exact iff_of_false not_false fun h4 => hr (by omega)
    · rw [i32_eq (by omega) (by omega)]
      omega

end Splits

/-! ## Loading -/

variable {acl : List PosixAclEntry}

section load

variable {bs rest : List UInt8} {t₀ t₁ p₀ p₁ : UInt8} {a : ℕ}

section

variable (h : bs.drop a = t₀ :: t₁ :: p₀ :: p₁ :: rest)
include h

theorem drop_add_four : bs.drop (a + 4) = rest := by
  rw [← drop_drop, h]
  rfl

theorem be16At_eq : be16At bs a = some (be16 t₀ t₁) ∧ be16At bs (a + 2) = some (be16 p₀ p₁) := by
  have h2 : bs.drop (a + 2) = p₀ :: p₁ :: rest := by
    rw [← drop_drop, h]
    rfl
  exact ⟨by rw [be16At, h], by rw [be16At, h2]⟩

theorem be32At_eq : be32At bs a = some (be32 t₀ t₁ p₀ p₁) := by
  rw [be32At, h]

end

theorem exists_four (l : List UInt8) (h : 4 ≤ l.length) :
    ∃ b₀ b₁ b₂ b₃ tl, l = b₀ :: b₁ :: b₂ :: b₃ :: tl := by
  match l, h with
  | b₀ :: b₁ :: b₂ :: b₃ :: tl, _ => exact ⟨b₀, b₁, b₂, b₃, tl, rfl⟩

theorem fields_of_ofCode {tag perm id : ℕ} (ht : AclTag.ofCode tag = some t) :
    PosixAclEntry.fields ⟨tag, perm, id⟩ = (tag, perm, if t.Named then some id else none) := by
  have hiff := PosixAclEntry.hasId_iff (e := ⟨tag, perm, id⟩) ht
  simp only [PosixAclEntry.fields, hiff]

/-- From this place on the loop returns the entries of the split of what is left, or an error if
that does not split into `cnt` entries. -/
def LoadsSplit (bs : List UInt8) (stale : ℕ → ℕ) (cnt n value : ℕ) (acl : List PosixAclEntry) :
    Prop :=
  (∃ es, aclLoadLoop bs stale cnt n value acl = .acl (acl ++ es) ∧ es.length = cnt ∧
    Splits (bs.drop value) (es.map PosixAclEntry.fields)) ∨
  (aclLoadLoop bs stale cnt n value acl = .err (-einval) ∧
    ∀ items, Splits (bs.drop value) items → items.length ≠ cnt)

/-- One round that appends the entry `e` and goes on at `value'`. -/
theorem LoadsSplit.cons {stale : ℕ → ℕ} {cnt n value value' : ℕ}
    (h : LoadsSplit bs stale cnt (n + 1) value' (acl ++ [e]))
    (hloop : aclLoadLoop bs stale (cnt + 1) n value acl =
      aclLoadLoop bs stale cnt (n + 1) value' (acl ++ [e]))
    (hsplit : ∀ items, Splits (bs.drop value) items ↔
      ∃ items', items = e.fields :: items' ∧ Splits (bs.drop value') items') :
    LoadsSplit bs stale (cnt + 1) n value acl := by
  rcases h with ⟨es, hes, hlen, hs⟩ | ⟨herr, hno⟩
  · refine Or.inl ⟨e :: es, ?_, by rw [length_cons, hlen], (hsplit _).2 ⟨_, rfl, hs⟩⟩
    rw [hloop, hes, append_assoc, singleton_append]
  · refine Or.inr ⟨hloop.trans herr, fun items hi hlen => ?_⟩
    obtain ⟨items', rfl, hi'⟩ := (hsplit items).1 hi
    exact hno items' hi' (by simpa using hlen)

/-- Behind the last entry nothing may be left. -/
theorem loadsSplit_zero (bs : List UInt8) (stale : ℕ → ℕ) (n : ℕ) {value : ℕ}
    (acl : List PosixAclEntry) (hv : value ≤ bs.length) : LoadsSplit bs stale 0 n value acl := by
  by_cases hend : value = bs.length
  · refine Or.inl ⟨[], by simp [aclLoadLoop, hend], rfl, ?_⟩
    rw [hend, drop_length]
    exact .nil
  · refine Or.inr ⟨by rw [aclLoadLoop, if_pos hend], fun items h hlen => ?_⟩
    rw [length_eq_zero_iff.1 hlen] at h
    have := h.length_add
    simp [Splits.shorts] at this
    omega

theorem aclLoadLoop_split (bs : List UInt8) (stale : ℕ → ℕ) (cnt n value : ℕ)
    (acl : List PosixAclEntry) (hv : value ≤ bs.length) : LoadsSplit bs stale cnt n value acl := by
  induction cnt generalizing n value acl with
  | zero => exact loadsSplit_zero bs stale n acl hv
  | succ cnt ih =>
    by_cases hshort : bs.length < value + 4
    · refine Or.inr ⟨by rw [aclLoadLoop, if_pos hshort], fun items h hlen => ?_⟩
      rw [h.eq_nil (by rw [length_drop]; omega)] at hlen
      exact absurd hlen (by simp)
    obtain ⟨t₀, t₁, p₀, p₁, rest, hdrop⟩ := exists_four (bs.drop value) (by rw [length_drop]; omega)
    obtain ⟨htag, hperm⟩ := be16At_eq hdrop
    have hrest := drop_add_four hdrop
    cases ht : AclTag.ofCode (be16 t₀ t₁) with
    | none =>
      refine Or.inr ⟨by simp only [aclLoadLoop, if_neg hshort, htag, hperm, ht], fun items h => ?_⟩
      rw [hdrop] at h
      exact absurd ht h.ofCode_ne_none
    | some t =>
      by_cases hn : t.Named
      · by_cases hlong : bs.length < value + 8
        · refine Or.inr ⟨by simp only [aclLoadLoop, if_neg hshort, htag, hperm, ht, if_pos hn,
            if_pos hlong], fun items h => ?_⟩
          rw [hdrop] at h
          obtain ⟨_, _, _, _, bs', _, hbs', -, -⟩ := h.named_inv ht hn
          have hlen := congrArg List.length (hrest.trans hbs')
          simp only [length_drop, length_cons] at hlen
          omega
        · obtain ⟨i₀, i₁, i₂, i₃, bs', hbs'⟩ :=
            exists_four (bs.drop (value + 4)) (by rw [length_drop]; omega)
          have hnext := drop_add_four hbs'
          have hloop : aclLoadLoop bs stale (cnt + 1) n value acl =
              aclLoadLoop bs stale cnt (n + 1) (value + 8)
                (acl ++ [⟨be16 t₀ t₁, be16 p₀ p₁, be32 i₀ i₁ i₂ i₃⟩]) := by
            simp only [aclLoadLoop, if_neg hshort, htag, hperm, ht, if_pos hn, if_neg hlong,
              be32At_eq hbs']
          refine (ih (n + 1) (value + 8) _ (by omega)).cons hloop fun items => ?_
          rw [hdrop, hnext, ← hrest, hbs', fields_of_ofCode ht, if_pos hn]
          exact Splits.named_iff ht hn
      · have hloop : aclLoadLoop bs stale (cnt + 1) n value acl =
            aclLoadLoop bs stale cnt (n + 1) (value + 4)
              (acl ++ [⟨be16 t₀ t₁, be16 p₀ p₁, stale n⟩]) := by
          simp only [aclLoadLoop, if_neg hshort, htag, hperm, ht, if_neg hn]
        refine (ih (n + 1) (value + 4) _ (by omega)).cons hloop fun items => ?_
        rw [hdrop, hrest, fields_of_ofCode ht, if_neg hn]
        exact Splits.short_iff ht hn

end load

/-- The header has the supported version, and behind it the bytes are entries : only short ones in
less than 16 bytes, else exactly four short ones. -/
def StoredAcl (bs : List UInt8) (items : List (ℕ × ℕ × Option ℕ)) : Prop :=
  ∃ body, bs = be32Bytes 1 ++ body ∧ body ≠ [] ∧ Splits body items ∧
    if body.length < 16 then Splits.shorts items = items.length else Splits.shorts items = 4

theorem storedAcl_iff {body : List UInt8} {items : List (ℕ × ℕ × Option ℕ)} (hne : body ≠ [])
    (hlen : body.length + 4 < 2 ^ 31) : StoredAcl (be32Bytes 1 ++ body) items ↔
      Splits body items ∧ rdfsAclCount (body.length + 4) = items.length := by
  constructor
  · rintro ⟨body', heq, -, hs, hshorts⟩
    obtain rfl := append_cancel_left heq
    exact ⟨hs, (hs.count_iff hlen).2 hshorts⟩
  · rintro ⟨hs, hcount⟩
    exact ⟨body, rfl, hne, hs, (hs.count_iff hlen).1 hcount⟩

/-- `rdfs_acl_load` behind a header with the supported version. -/
theorem rdfsAclLoad_version (body : List UInt8) (stale : ℕ → ℕ) :
    rdfsAclLoad (be32Bytes 1 ++ body) (some stale) =
      if rdfsAclCount (body.length + 4) < 0 then .err (-einval)
      else if rdfsAclCount (body.length + 4) = 0 then .null
      else aclLoadLoop (be32Bytes 1 ++ body) stale (rdfsAclCount (body.length + 4)).toNat 0 4
        [] := by
  have hlen : (be32Bytes 1 ++ body).length = body.length + 4 := by simp [be32Bytes]
  have hversion : be32At (be32Bytes 1 ++ body) 0 = some 1 := rfl
  simp only [rdfsAclLoad, hlen, hversion]
  rw [if_neg (by omega), if_neg (by simp)]

theorem rdfsAclCount_pos {n : ℕ} (hn : n ≠ 0) (hlen : n + 4 < 2 ^ 31) :
    rdfsAclCount (n + 4) ≠ 0 := by
  simp only [rdfsAclCount]
  split_ifs with hs hr hr
  · simp
  · rw [i32_eq (by omega) (by omega)]
    omega
  · simp
  · rw [i32_eq (by omega) (by omega)]
    omega

/-- Entries behind a header with the supported version : they are returned, or rejected if the
bytes are no stored list. -/
theorem rdfsAclLoad_body {body : List UInt8} (hne : body ≠ []) (hlen : body.length + 4 < 2 ^ 31)
    (stale : ℕ → ℕ) : (∃ es, rdfsAclLoad (be32Bytes 1 ++ body) (some stale) = .acl es ∧
      StoredAcl (be32Bytes 1 ++ body) (es.map PosixAclEntry.fields)) ∨
    (rdfsAclLoad (be32Bytes 1 ++ body) (some stale) = .err (-einval) ∧
      ∀ items, ¬StoredAcl (be32Bytes 1 ++ body) items) := by
  have hpos := rdfsAclCount_pos (mt length_eq_zero_iff.1 hne) hlen
  simp only [storedAcl_iff hne hlen]
  rw [rdfsAclLoad_version]
  by_cases hneg : rdfsAclCount (body.length + 4) < 0
  · rw [if_pos hneg]
    exact Or.inr ⟨rfl, fun items h => by omega⟩
  rw [if_neg hneg, if_neg hpos]
  obtain ⟨es, hes, hcnt, hs⟩ | ⟨herr, hno⟩ := aclLoadLoop_split (be32Bytes 1 ++ body) stale
    (rdfsAclCount (body.length + 4)).toNat 0 4 [] (by simp [be32Bytes])
  · refine Or.inl ⟨es, hes, hs, ?_⟩
    rw [length_map]
    omega
  · exact Or.inr ⟨herr, fun items h => hno items h.1 (by omega)⟩

theorem eq_be32Bytes_one {b₀ b₁ b₂ b₃ : UInt8} (h : be32 b₀ b₁ b₂ b₃ = 1) :
    [b₀, b₁, b₂, b₃] = be32Bytes 1 := by
  unfold be32 be16 at h
  obtain rfl : b₀ = 0 := UInt8.toNat_inj.1 (by simp; omega)
  obtain rfl : b₁ = 0 := UInt8.toNat_inj.1 (by simp; omega)
  obtain rfl : b₂ = 0 := UInt8.toNat_inj.1 (by simp; omega)
  obtain rfl : b₃ = 1 := UInt8.toNat_inj.1 (by simp; omega)
  rfl

/-- Bytes without a header of the supported version. -/
theorem rdfsAclLoad_noVersion (h : ∀ body, bs ≠ be32Bytes 1 ++ body) (stale : ℕ → ℕ) :
    rdfsAclLoad bs (some stale) = .err (-einval) := by
  by_cases hlen : bs.length < 4
  · rw [rdfsAclLoad, if_pos hlen]
  obtain ⟨b₀, b₁, b₂, b₃, body, rfl⟩ := exists_four bs (by omega)
  have hversion : be32 b₀ b₁ b₂ b₃ ≠ 1 := fun heq =>
    h body (by rw [← eq_be32Bytes_one heq]; rfl)
  have hat : be32At (b₀ :: b₁ :: b₂ :: b₃ :: body) 0 = some (be32 b₀ b₁ b₂ b₃) := rfl
  simp only [rdfsAclLoad, if_neg hlen, hat, if_pos hversion]

theorem StoredAcl.unique {items items' : List (ℕ × ℕ × Option ℕ)} (h : StoredAcl bs items)
    (h' : StoredAcl bs items') : items = items' := by
  obtain ⟨body, rfl, -, hs, -⟩ := h
  obtain ⟨body', heq, -, hs', -⟩ := h'
  obtain rfl := append_cancel_left heq
  exact hs.unique hs'

/-- For any bytes, `rdfs_acl_load` reads none behind them. It returns a list exactly for stored
ones, with their fields, and rejects all others that are longer than a header. -/
theorem rdfsAclLoad_spec {bs : List UInt8} (hlen : bs.length < 2 ^ 31) (stale : ℕ → ℕ) :
    rdfsAclLoad bs (some stale) ≠ .overread ∧ (∀ items, StoredAcl bs items ↔
      ∃ es, rdfsAclLoad bs (some stale) = .acl es ∧ es.map PosixAclEntry.fields = items) ∧
    (4 < bs.length → (∀ items, ¬StoredAcl bs items) →
      rdfsAclLoad bs (some stale) = .err (-einval)) := by
  by_cases hversion : ∃ body, bs = be32Bytes 1 ++ body
  · obtain ⟨body, rfl⟩ := hversion
    by_cases hne : body = []
    · subst hne
      rw [append_nil]
      have hnull : rdfsAclLoad (be32Bytes 1) (some stale) = .null := rfl
      refine ⟨by simp [hnull], fun items => iff_of_false ?_ (by simp [hnull]), fun h => ?_⟩
      · rintro ⟨body', heq, hne, -⟩
        rw [self_eq_append_right] at heq
        exact hne heq
      · exact absurd h (by decide)
    · have hbody : body.length + 4 < 2 ^ 31 := by
        simp only [be32Bytes, length_append, length_cons, length_nil] at hlen
        omega
      obtain ⟨es, hes, hs⟩ | ⟨herr, hno⟩ := rdfsAclLoad_body hne hbody stale
      · refine ⟨by simp [hes], fun items => ⟨fun h => ⟨es, hes, hs.unique h⟩, ?_⟩,
          fun _ h => absurd hs (h _)⟩
        rintro ⟨es', hes', rfl⟩
        obtain rfl := AclLoad.acl.inj (hes.symm.trans hes')
        exact hs
      · exact ⟨by simp [herr], fun items => iff_of_false (hno items) (by simp [herr]),
          fun _ _ => herr⟩
  · have herr := rdfsAclLoad_noVersion (fun body h => hversion ⟨body, h⟩) stale
    refine ⟨by simp [herr], fun items => iff_of_false ?_ (by simp [herr]), fun _ _ => herr⟩
    rintro ⟨body, hbs, -⟩
    exact hversion ⟨body, hbs⟩

/-- Owner, the user 1000, group, mask and others, big-endian : accepted with five entries. -/
theorem rdfsAclLoad_spec_fiveEntries :
    let bs : List UInt8 := [0, 0, 0, 1, 0, 1, 0, 6, 0, 2, 0, 6, 0, 0, 3, 0xe8, 0, 4, 0, 4,
      0, 0x10, 0, 6, 0, 0x20, 0, 4]
    bs.length < 2 ^ 31 ∧ rdfsAclLoad bs (some 0) ≠ .overread ∧
      StoredAcl bs [(1, 6, none), (2, 6, some 1000), (4, 4, none), (0x10, 6, none),
        (0x20, 4, none)] := by
  intro bs
  have hspec := rdfsAclLoad_spec (show bs.length < 2 ^ 31 by decide) 0
  exact ⟨by decide, hspec.1, (hspec.2.1 _).2
    ⟨[⟨1, 6, 0⟩, ⟨2, 6, 1000⟩, ⟨4, 4, 0⟩, ⟨0x10, 6, 0⟩, ⟨0x20, 4, 0⟩], by decide, rfl⟩⟩

/-! ## Saving -/

/-- Where `posix_acl_valid` is in a list : the entry it needs next, or the end. -/
inductive AclState
  | userObj | user | group | other | done
deriving DecidableEq, Repr

/-- One entry of `posix_acl_valid` : the next state and whether a mask is needed, `none` for
`-EINVAL`. The order is owner, named users, group, named groups, mask, others; a mask is needed
once there is a named entry, and the id of a named entry is not the invalid one. -/
def aclValidStep (st : AclState × Bool) (e : PosixAclEntry) : Option (AclState × Bool) :=
  if e.ePerm &&& 7 ≠ e.ePerm then none
  else match AclTag.ofCode e.eTag, st.1 with
    | some .userObj, .userObj => some (.user, st.2)
    | some .user, .user => if e.eId = 2 ^ 32 - 1 then none else some (.user, true)
    | some .groupObj, .user => some (.group, st.2)
    | some .group, .group => if e.eId = 2 ^ 32 - 1 then none else some (.group, true)
    | some .mask, .group => some (.other, st.2)
    | some .other, .other => some (.done, st.2)
    | some .other, .group => if st.2 then none else some (.done, st.2)
    | _, _ => none

/-- `posix_acl_valid` accepts the list. -/
def PosixAclValid (acl : List PosixAclEntry) : Prop :=
  ∃ needsMask, acl.foldlM aclValidStep (.userObj, false) = some (.done, needsMask)

/-- `short` entries without and `named` entries with an id are what an accepted list still has in
this state. -/
def Remaining (st : AclState × Bool) (short named : ℕ) : Prop :=
  match st.1 with
  | .userObj => short = 4 ∨ (st.2 = false ∧ short = 3 ∧ named = 0)
  | .user => short = 3 ∨ (st.2 = false ∧ short = 2 ∧ named = 0)
  | .group => short = 2 ∨ (st.2 = false ∧ short = 1 ∧ named = 0)
  | .other => short = 1 ∧ named = 0
  | .done => short = 0 ∧ named = 0

variable {st : AclState × Bool}

/-- What one entry takes off. -/
theorem Remaining.step {st' : AclState × Bool} {short named : ℕ} (h : Remaining st' short named)
    (hstep : aclValidStep st e = some st') :
    Remaining st (short + if e.HasId then 0 else 1) (named + if e.HasId then 1 else 0) := by
  obtain ⟨s, needsMask⟩ := st
  unfold aclValidStep at hstep
  by_cases hperm : e.ePerm &&& 7 ≠ e.ePerm
  · simp [hperm] at hstep
  rw [if_neg hperm] at hstep
  cases ht : AclTag.ofCode e.eTag with
  | none => simp [ht] at hstep
  | some t =>
    have hid := PosixAclEntry.hasId_iff ht
    cases t <;> cases s <;> simp [ht] at hstep
    all_goals grind [Remaining, AclTag.Named]

/-- The entries of a list that is accepted from a state on. -/
theorem remaining_of_foldlM {needsMask : Bool}
    (h : acl.foldlM aclValidStep st = some (.done, needsMask)) :
    Remaining st (acl.countP fun e => ¬e.HasId) (acl.countP fun e => e.HasId) := by
  induction acl generalizing st with
  | nil =>
    obtain rfl : st = (.done, needsMask) := by simpa using h
    exact ⟨rfl, rfl⟩
  | cons e acl ih =>
    rw [foldlM_cons] at h
    obtain ⟨st', hstep, hrest⟩ := bind_eq_some_iff.1 h
    have := (ih hrest).step hstep
    by_cases hid : e.HasId <;> simpa [countP_cons, hid] using this

/-- An accepted list has four entries without an id, or three and no entry with one. -/
theorem PosixAclValid.counts (h : PosixAclValid acl) : acl.countP (fun e => ¬e.HasId) = 4 ∨
      (acl.countP (fun e => ¬e.HasId) = 3 ∧ acl.countP (fun e => e.HasId) = 0) := by
  obtain ⟨needsMask, hrun⟩ := h
  exact (remaining_of_foldlM hrun).imp_right And.right

/-- Every tag of an accepted list is known. -/
theorem aclValidStep_ofCode {st' : AclState × Bool} (h : aclValidStep st e = some st') :
    ∃ t, AclTag.ofCode e.eTag = some t := by
  unfold aclValidStep at h
  cases ht : AclTag.ofCode e.eTag with
  | none => simp [ht] at h
  | some t => exact ⟨t, rfl⟩

theorem length_aclSaveEntry (h : aclSaveEntry e = some bs) :
    bs.length = if e.HasId then 8 else 4 := by
  obtain ⟨t, ht, rfl⟩ := map_eq_some_iff.1 h
  simp only [PosixAclEntry.hasId_iff ht]
  split_ifs <;> rfl

/-- `rdfs_acl_save` finds a length for every entry of an accepted list. -/
theorem mapM_aclSaveEntry {needsMask : Bool}
    (h : acl.foldlM aclValidStep st = some (.done, needsMask)) :
    ∃ es, acl.mapM aclSaveEntry = some es ∧ es.flatten.length =
      4 * acl.countP (fun e => ¬e.HasId) + 8 * acl.countP (fun e => e.HasId) := by
  induction acl generalizing st with
  | nil => exact ⟨[], rfl, rfl⟩
  | cons e acl ih =>
    rw [foldlM_cons] at h
    obtain ⟨st', hstep, hrest⟩ := bind_eq_some_iff.1 h
    obtain ⟨t, ht⟩ := aclValidStep_ofCode hstep
    obtain ⟨es, hes, hlen⟩ := ih hrest
    obtain ⟨bs, hbs⟩ : ∃ bs, aclSaveEntry e = some bs := by simp [aclSaveEntry, ht]
    refine ⟨bs :: es, by simp [hbs, hes], ?_⟩
    rw [flatten_cons, length_append, hlen, length_aclSaveEntry hbs]
    by_cases hid : e.HasId <;> simp [hid] <;> omega

/-- `rdfs_acl_save` of an accepted list writes as many bytes as `rdfs_acl_size` says. -/
theorem length_rdfsAclSave (h : PosixAclValid acl) : ∃ es, acl.mapM aclSaveEntry = some es ∧
      (be32Bytes 1 ++ es.flatten).length = rdfsAclSize acl.length := by
  have hcounts := h.counts
  obtain ⟨needsMask, hrun⟩ := h
  obtain ⟨es, hes, hlen⟩ := mapM_aclSaveEntry hrun
  have hsum : acl.length = acl.countP (fun e => e.HasId) + acl.countP (fun e => ¬e.HasId) := by
    simpa using length_eq_countP_add_countP (fun e : PosixAclEntry => e.HasId) (l := acl)
  refine ⟨es, hes, ?_⟩
  rw [length_append, hlen, show (be32Bytes 1).length = 4 from rfl, rdfsAclSize]
  split_ifs <;> omega

/-- The bytes `rdfs_acl_save` produces are as many as `rdfs_acl_size` says, and `rdfs_acl_load`
returns the same entries from them. -/
def RoundTrips (acl : List PosixAclEntry) : Prop :=
  ∃ bs, rdfsAclSave acl = .ok (rdfsAclSize acl.length, bs) ∧
    bs.length = rdfsAclSize acl.length ∧
    ∀ stale, ∃ es, rdfsAclLoad bs (some stale) = .acl es ∧
      es.map PosixAclEntry.fields = acl.map PosixAclEntry.fields

/-- An accepted list begins with the owner. -/
theorem PosixAclValid.eq_cons (h : PosixAclValid acl) :
    ∃ e rest, acl = e :: rest ∧ e.eTag = AclTag.userObj.code := by
  obtain ⟨needsMask, hrun⟩ := h
  cases acl with
  | nil => simp at hrun
  | cons e rest =>
    rw [foldlM_cons] at hrun
    obtain ⟨st', hstep, -⟩ := bind_eq_some_iff.1 hrun
    obtain ⟨t, ht⟩ := aclValidStep_ofCode hstep
    refine ⟨e, rest, rfl, ?_⟩
    rw [AclTag.code_of_ofCode ht]
    unfold aclValidStep at hstep
    cases t <;> simp [ht] at hstep
    rfl

theorem rdfsAclLoad_unknown {t₀ t₁ p₀ p₁ : UInt8} (ht : AclTag.ofCode (be16 t₀ t₁) = none)
    (bs : List UInt8) (stale : ℕ → ℕ) (acl : List PosixAclEntry) :
    rdfsAclLoad (be32Bytes 1 ++ (t₀ :: t₁ :: p₀ :: p₁ :: bs)) (some stale) ≠ .acl acl := by
  rw [rdfsAclLoad_version]
  split_ifs
  · simp
  · simp
  · obtain ⟨_, -, -, hs⟩ | ⟨herr, -⟩ :=
      aclLoadLoop_split (be32Bytes 1 ++ (t₀ :: t₁ :: p₀ :: p₁ :: bs)) stale
        (rdfsAclCount ((t₀ :: t₁ :: p₀ :: p₁ :: bs).length + 4)).toNat 0 4 [] (by simp [be32Bytes])
    · exact absurd ht (Splits.ofCode_ne_none hs)
    · rw [herr]
      simp

/-- The tag of the first entry, saved little-endian, is no tag when read big-endian. -/
theorem rdfsAclLoad_saved (h : PosixAclValid acl) {es : List (List UInt8)}
    (hes : acl.mapM aclSaveEntry = some es) (stale : ℕ → ℕ) (acl' : List PosixAclEntry) :
    rdfsAclLoad (be32Bytes 1 ++ es.flatten) (some stale) ≠ .acl acl' := by
  obtain ⟨e, rest, rfl, htag⟩ := h.eq_cons
  rw [mapM_cons] at hes
  obtain ⟨b, hb, hes⟩ := bind_eq_some_iff.1 hes
  obtain ⟨bs, -, hes⟩ := bind_eq_some_iff.1 hes
  obtain rfl : b :: bs = es := some_inj.1 hes
  obtain ⟨t, -, rfl⟩ := map_eq_some_iff.1 hb
  rw [htag, flatten_cons, append_assoc]
  exact rdfsAclLoad_unknown (by decide) _ stale acl'

/-- `rdfs_acl_save` of any accepted list writes as many bytes as it should, and `rdfs_acl_load`
returns no list for them. -/
theorem not_roundTrips {acl : List PosixAclEntry} (h : PosixAclValid acl) :
    (∃ bs, rdfsAclSave acl = .ok (rdfsAclSize acl.length, bs) ∧ bs.length = rdfsAclSize acl.length ∧
      ∀ stale acl', rdfsAclLoad bs (some stale) ≠ .acl acl') ∧ ¬RoundTrips acl := by
  obtain ⟨es, hes, hlen⟩ := length_rdfsAclSave h
  have hsave : rdfsAclSave acl = .ok (rdfsAclSize acl.length, be32Bytes 1 ++ es.flatten) := by
    simp only [rdfsAclSave, hes]
  refine ⟨⟨_, hsave, hlen, rdfsAclLoad_saved h hes⟩, ?_⟩
  rintro ⟨bs, hbs, -, hload⟩
  obtain ⟨-, rfl⟩ := Prod.mk.inj (Except.ok.inj (hsave.symm.trans hbs))
  obtain ⟨acl', hacl', -⟩ := hload 0
  exact rdfsAclLoad_saved h hes 0 acl' hacl'

/-- Owner, the user 1000, group, mask and others. -/
theorem not_roundTrips_fiveEntries :
    PosixAclValid [⟨1, 6, 0⟩, ⟨2, 6, 1000⟩, ⟨4, 4, 0⟩, ⟨0x10, 6, 0⟩, ⟨0x20, 4, 0⟩] ∧
      ¬RoundTrips [⟨1, 6, 0⟩, ⟨2, 6, 1000⟩, ⟨4, 4, 0⟩, ⟨0x10, 6, 0⟩, ⟨0x20, 4, 0⟩] := by
  have hvalid : PosixAclValid [⟨1, 6, 0⟩, ⟨2, 6, 1000⟩, ⟨4, 4, 0⟩, ⟨0x10, 6, 0⟩, ⟨0x20, 4, 0⟩] :=
    ⟨true, by decide⟩
  exact ⟨hvalid, (not_roundTrips hvalid).2⟩

/-- Owner, group and others : the 16 bytes saved are rejected with `-EINVAL`. -/
theorem saved_acl_rejected : PosixAclValid [⟨1, 6, 0⟩, ⟨4, 4, 0⟩, ⟨0x20, 4, 0⟩] ∧
      (∃ bs, rdfsAclSave [⟨1, 6, 0⟩, ⟨4, 4, 0⟩, ⟨0x20, 4, 0⟩] = .ok (16, bs) ∧ bs.length = 16 ∧
        rdfsAclLoad bs (some 0) = .err (-einval)) ∧
      ¬RoundTrips [⟨1, 6, 0⟩, ⟨4, 4, 0⟩, ⟨0x20, 4, 0⟩] := by
  have hsave : rdfsAclSave [⟨1, 6, 0⟩, ⟨4, 4, 0⟩, ⟨0x20, 4, 0⟩] =
      .ok (16, [0, 0, 0, 1, 1, 0, 6, 0, 4, 0, 4, 0, 0x20, 0, 4, 0]) := rfl
  have hload : rdfsAclLoad [0, 0, 0, 1, 1, 0, 6, 0, 4, 0, 4, 0, 0x20, 0, 4, 0] (some 0) =
      .err (-einval) := by decide
  refine ⟨⟨false, by decide⟩, ⟨_, hsave, rfl, hload⟩, ?_⟩
  rintro ⟨bs, hbs, -, hround⟩
  obtain ⟨-, rfl⟩ := Prod.mk.inj (Except.ok.inj (hsave.symm.trans hbs))
  obtain ⟨es, hes, -⟩ := hround 0
  exact absurd (hload.symm.trans hes) (by simp)

end Rdfs
