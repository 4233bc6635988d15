import Rdfs.Bytes

/-!
# C structure layout

The offsets the C compiler gives the fields of a structure whose every field is aligned
to its own size : each field starts at the first multiple of its size past the field
before it, and the structure is padded to the largest alignment. Distinct fields then
occupy disjoint ranges (`offset_disjoint`), so that writing one field through
`putField` leaves every other field (`getField_putField_of_ne`) and every byte outside
the structure (`sameOff_putField`) alone.
-/

namespace Rdfs

open List

/-- The least multiple of `a` that is at least `n`. -/
def alignUp (n a : ℕ) : ℕ := (n + a - 1) / a * a

theorem le_alignUp (n : ℕ) {a : ℕ} (ha : 0 < a) : n ≤ alignUp n a := by
  unfold alignUp
  have h := Nat.div_add_mod (n + a - 1) a
  have h' := Nat.mod_lt (n + a - 1) ha
  rw [Nat.mul_comm] at h
  omega

/-- A structure : its fields in declaration order, each with a positive size. -/
structure CStruct (φ : Type*) where
  fields : List φ
  size : φ → ℕ
  size_pos : ∀ f, 0 < size f

namespace CStruct

variable {φ : Type*} [DecidableEq φ] (S : CStruct φ)

/-- The offset of `g` among the fields `fs`, laid out from `o` on. -/
def offsetFrom : List φ → ℕ → φ → ℕ
  | [], o, _ => o
  | f :: fs, o, g =>
    if f = g then alignUp o (S.size f) else offsetFrom fs (alignUp o (S.size f) + S.size f) g

/-- The first byte past the fields `fs`, laid out from `o` on. -/
def endFrom : List φ → ℕ → ℕ
  | [], o => o
  | f :: fs, o => endFrom fs (alignUp o (S.size f) + S.size f)

/-- `offsetof`. -/
def offset (f : φ) : ℕ := S.offsetFrom S.fields 0 f

/-- `sizeof`, the alignment of the structure being that of its widest field. -/
def sizeof : ℕ := alignUp (S.endFrom S.fields 0) ((S.fields.map S.size).foldr max 1)

theorem le_offsetFrom (g : φ) : ∀ (fs : List φ) (o : ℕ), o ≤ S.offsetFrom fs o g
  | [], _ => le_rfl
  | f :: fs, o => by
    have h := le_alignUp o (S.size_pos f)
    unfold offsetFrom
    split_ifs
    · exact h
    · have := le_offsetFrom g fs (alignUp o (S.size f) + S.size f)
      omega

theorem offsetFrom_disjoint {f g : φ} (hne : f ≠ g) : ∀ {fs : List φ} {o : ℕ}, f ∈ fs → g ∈ fs →
      S.offsetFrom fs o f + S.size f ≤ S.offsetFrom fs o g ∨
        S.offsetFrom fs o g + S.size g ≤ S.offsetFrom fs o f
  | [], _, hf, _ => absurd hf not_mem_nil
  | x :: fs, o, hf, hg => by
    unfold offsetFrom
    by_cases hxf : x = f
    · subst hxf
      rw [if_pos rfl, if_neg hne]
      exact Or.inl (S.le_offsetFrom g fs _)
    · by_cases hxg : x = g
      · subst hxg
        rw [if_neg hxf, if_pos rfl]
        exact Or.inr (S.le_offsetFrom f fs _)
      · rw [if_neg hxf, if_neg hxg]
        exact offsetFrom_disjoint hne ((mem_cons.1 hf).resolve_left (Ne.symm hxf))
          ((mem_cons.1 hg).resolve_left (Ne.symm hxg))

/-- Distinct fields of a structure occupy disjoint ranges. -/
theorem offset_disjoint {f g : φ} (hf : f ∈ S.fields) (hg : g ∈ S.fields) (hne : f ≠ g) :
    S.offset f + S.size f ≤ S.offset g ∨ S.offset g + S.size g ≤ S.offset f :=
  S.offsetFrom_disjoint hne hf hg

/-! ## Field access -/

/-- The field `f` of the structure at `a`. -/
def getField (m : Mem) (a : ℕ) (f : φ) : ℕ := m.load (S.size f) (a + S.offset f)

/-- The field `f` of the structure at `a` set to `v`. -/
def putField (m : Mem) (a : ℕ) (f : φ) (v : ℕ) : Mem := m.store (S.size f) (a + S.offset f) v

/-- Several fields set in order. -/
def putFields (m : Mem) (a : ℕ) (ws : List (φ × ℕ)) : Mem :=
  ws.foldl (fun m w => S.putField m a w.1 w.2) m

theorem putFields_append (m : Mem) (a : ℕ) (ws ws' : List (φ × ℕ)) :
    S.putFields m a (ws ++ ws') = S.putFields (S.putFields m a ws) a ws' :=
  foldl_append

theorem getField_putField (m : Mem) (a : ℕ) (f : φ) (v : ℕ) :
    S.getField (S.putField m a f v) a f = v % 256 ^ S.size f :=
  Mem.load_store m _ _ _

theorem getField_putField_of_ne {f g : φ} (hf : f ∈ S.fields) (hg : g ∈ S.fields)
    (hne : f ≠ g) (m : Mem) (a v : ℕ) : S.getField (S.putField m a f v) a g = S.getField m a g := by
  have h := S.offset_disjoint hf hg hne
  exact Mem.load_store_disjoint m (by omega)

theorem sameOff_putField (m : Mem) (a : ℕ) (f : φ) (v : ℕ) :
    Mem.SameOff m (S.putField m a f v) (S.size f) (a + S.offset f) :=
  Mem.sameOff_store m _ _ _

/-- Writes to fields that end within the first `n` bytes change only those bytes. -/
theorem sameOff_putFields {n : ℕ} (a : ℕ) :
    ∀ (ws : List (φ × ℕ)) (m : Mem), (∀ w ∈ ws, S.offset w.1 + S.size w.1 ≤ n) →
      Mem.SameOff m (S.putFields m a ws) n a
  | [], _, _ => fun _ _ => rfl
  | w :: ws, m, h => by
    have hw := h w (by simp)
    exact ((S.sameOff_putField m a w.1 w.2).mono (by omega) (by omega)).trans
      (sameOff_putFields a ws _ fun w' hw' => h w' (by simp [hw']))

/-- A field that is not written. -/
theorem getField_putFields_of_notMem {f : φ} (hf : f ∈ S.fields) (a : ℕ) :
    ∀ (ws : List (φ × ℕ)) (m : Mem), (∀ w ∈ ws, w.1 ∈ S.fields) → f ∉ ws.map Prod.fst →
      S.getField (S.putFields m a ws) a f = S.getField m a f
  | [], _, _, _ => rfl
  | w :: ws, m, hw, hnot => by
    rw [map_cons, mem_cons, not_or] at hnot
    have ih := getField_putFields_of_notMem hf a ws (S.putField m a w.1 w.2)
      (fun w' hw' => hw w' (mem_cons_of_mem _ hw')) hnot.2
    exact ih.trans (S.getField_putField_of_ne (hw w mem_cons_self) hf (Ne.symm hnot.1) m a w.2)

/-- A field that is written once. -/
theorem getField_putFields_of_mem {f : φ} {v : ℕ} (a : ℕ) :
    ∀ (ws : List (φ × ℕ)) (m : Mem), (∀ w ∈ ws, w.1 ∈ S.fields) → (ws.map Prod.fst).Nodup →
      (f, v) ∈ ws → S.getField (S.putFields m a ws) a f = v % 256 ^ S.size f
  | [], _, _, _, hmem => absurd hmem not_mem_nil
  | w :: ws, m, hw, hnodup, hmem => by
    rw [map_cons, nodup_cons] at hnodup
    have hw' : ∀ w' ∈ ws, w'.1 ∈ S.fields := fun w' h => hw w' (mem_cons_of_mem _ h)
    rcases mem_cons.1 hmem with rfl | hmem
    · exact (S.getField_putFields_of_notMem (hw _ mem_cons_self) a ws _ hw' hnodup.1).trans
        (S.getField_putField m a f v)
    · exact getField_putFields_of_mem a ws _ hw' hnodup.2 hmem

/-- What is written to an address does not depend on the memory. -/
theorem putFields_congr (a : ℕ) {x : ℕ} : ∀ (ws : List (φ × ℕ)) {m m' : Mem}, m x = m' x →
      S.putFields m a ws x = S.putFields m' a ws x
  | [], _, _, h => h
  | w :: ws, m, m', h => by
    refine putFields_congr a ws ?_
    show (if _ then _ else m x) = if _ then _ else m' x
    rw [h]

end CStruct

end Rdfs
