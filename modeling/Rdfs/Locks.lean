import Mathlib.Data.Finset.Basic

/-!
# Locks held along a trace

A trace is the list of locks a piece of code takes and gives back, in order. `exec` follows a
trace from a set of locks held : taking a lock that is held, or giving back one that is not, is
an error.

`KeepsHeld t` says that `t` runs without error and ends with the locks it started with, from every
set that has none of the locks it takes. A trace made of critical sections, one behind another or
one inside another (`Bracketed`), has this property. A trace that ends with more locks than it
started with whenever it runs to its end (`Leaves`) does not.

If the traces of a family are bracketed under a condition and leave a lock otherwise, a run of
several of them from no lock ends with no lock exactly if all of them meet the condition
(`exec_flatMap_iff`).
-/

namespace Rdfs

open List Option Finset

/-- Taking a lock and giving it back. -/
inductive LockOp (L : Type*)
  | lock (l : L)
  | unlock (l : L)
deriving DecidableEq, Repr

variable {L : Type*}

/-- The locks a trace takes. -/
def taken : List (LockOp L) → List L
  | [] => []
  | .lock l :: t => l :: taken t
  | .unlock _ :: t => taken t

@[simp] theorem taken_append : ∀ t u : List (LockOp L), taken (t ++ u) = taken t ++ taken u
  | [], _ => rfl
  | .lock l :: t, u => congrArg (l :: ·) (taken_append t u)
  | .unlock _ :: t, u => taken_append t u

@[simp] theorem taken_flatMap {ι : Type*} (f : ι → List (LockOp L)) :
    ∀ is : List ι, taken (is.flatMap f) = is.flatMap fun i => taken (f i)
  | [] => rfl
  | i :: is => by
    rw [flatMap_cons, taken_append, taken_flatMap f is, flatMap_cons]

/-- Critical sections one behind another and one inside another. -/
inductive Bracketed : List (LockOp L) → Prop
  | nil : Bracketed []
  | hold {l : L} {t : List (LockOp L)} :
      Bracketed t → l ∉ taken t → Bracketed (.lock l :: (t ++ [.unlock l]))
  | append {t u : List (LockOp L)} : Bracketed t → Bracketed u → Bracketed (t ++ u)

theorem Bracketed.flatMap {ι : Type*} {f : ι → List (LockOp L)} :
    ∀ {is : List ι}, (∀ i ∈ is, Bracketed (f i)) → Bracketed (is.flatMap f)
  | [], _ => nil
  | _ :: _, h =>
    (h _ List.mem_cons_self).append (flatMap fun i hi => h i (List.mem_cons_of_mem _ hi))

variable [DecidableEq L]

/-- The locks held after one step. -/
def LockOp.exec (held : Finset L) : LockOp L → Option (Finset L)
  | .lock l => if l ∈ held then none else some (insert l held)
  | .unlock l => if l ∈ held then some (held.erase l) else none

/-- The locks held after a trace. -/
def exec : List (LockOp L) → Finset L → Option (Finset L)
  | [], held => some held
  | o :: t, held => (o.exec held).bind (exec t)

theorem exec_append : ∀ (t u : List (LockOp L)) (held : Finset L),
    exec (t ++ u) held = (exec t held).bind (exec u)
  | [], _, _ => rfl
  | o :: t, u, held => by
    simp only [cons_append, exec, bind_assoc]
    congr 1
    funext h
    exact exec_append t u h

theorem exec_append_eq_some {t u : List (LockOp L)} {held held' : Finset L} :
    exec (t ++ u) held = some held' ↔ ∃ mid, exec t held = some mid ∧ exec u mid = some held' := by
  rw [exec_append, bind_eq_some_iff]

/-- A critical section runs to its end if its lock is free and its body ends with the lock. -/
theorem exec_hold_eq_some {l : L} {t : List (LockOp L)} {held held' : Finset L} :
    exec (.lock l :: (t ++ [.unlock l])) held = some held' ↔
      l ∉ held ∧ ∃ mid, exec t (insert l held) = some mid ∧ l ∈ mid ∧ mid.erase l = held' := by
  by_cases hl : l ∈ held
  · simp [exec, LockOp.exec, hl]
  · have hlast : ∀ mid : Finset L, exec [.unlock l] mid = some held' ↔
        l ∈ mid ∧ mid.erase l = held' := by
      intro mid
      by_cases h : l ∈ mid <;> simp [exec, LockOp.exec]
    have hfirst : exec (.lock l :: (t ++ [.unlock l])) held =
        exec (t ++ [.unlock l]) (insert l held) := by
      simp [exec, LockOp.exec, hl]
    rw [hfirst, exec_append_eq_some]
    simp only [hlast, hl, not_false_eq_true, true_and]

/-! ## Traces that give back what they take -/

/-- From locks among which none is that it takes, a trace runs to its end and ends with them. -/
def KeepsHeld (t : List (LockOp L)) : Prop :=
  ∀ held : Finset L, (∀ l ∈ taken t, l ∉ held) → exec t held = some held

theorem Bracketed.keepsHeld {t : List (LockOp L)} (h : Bracketed t) : KeepsHeld t := by
  induction h with
  | nil => exact fun held _ => rfl
  | @hold l t _ hl ih =>
    intro held hfree
    have hnot : l ∉ held := hfree l List.mem_cons_self
    refine exec_hold_eq_some.2 ⟨hnot, insert l held, ih _ ?_, Finset.mem_insert_self _ _,
      erase_insert hnot⟩
    intro k hk hmem
    rcases mem_insert.1 hmem with rfl | hmem
    · exact hl hk
    · exact hfree k (List.mem_cons_of_mem _ (by simp [hk])) hmem
  | @append t u _ _ iht ihu =>
    intro held hfree
    have ht := iht held fun l hl => hfree l (by simp [hl])
    have hu := ihu held fun l hl => hfree l (by simp [hl])
    exact exec_append_eq_some.2 ⟨held, ht, hu⟩

/-! ## Traces that leave a lock -/

/-- A trace that runs to its end has given back nothing but what it took. -/
def OnlyAdds (t : List (LockOp L)) : Prop :=
  ∀ held held' : Finset L, exec t held = some held' → held ⊆ held'

/-- A trace that runs to its end ends with a lock it did not start with. -/
def Leaves (t : List (LockOp L)) : Prop :=
  ∀ held held' : Finset L, exec t held = some held' → held ⊂ held'

theorem Bracketed.onlyAdds {t : List (LockOp L)} (h : Bracketed t) : OnlyAdds t := by
  induction h with
  | nil =>
    intro held held' h
    exact (some.inj h).subset
  | @hold l t _ _ ih =>
    intro held held' h k hk
    obtain ⟨hnot, mid, hmid, _, rfl⟩ := exec_hold_eq_some.1 h
    exact mem_erase.2 ⟨ne_of_mem_of_not_mem hk hnot, ih _ _ hmid (Finset.mem_insert_of_mem hk)⟩
  | append _ _ iht ihu =>
    intro held held' h
    obtain ⟨mid, hmid, h⟩ := exec_append_eq_some.1 h
    exact (iht _ _ hmid).trans (ihu _ _ h)

namespace Leaves

variable {t u : List (LockOp L)}

theorem onlyAdds (h : Leaves t) : OnlyAdds t := fun held held' ht => (h held held' ht).subset

theorem lock (l : L) : Leaves [LockOp.lock l] := by
  intro held held' h
  by_cases hl : l ∈ held
  · simp [exec, LockOp.exec, hl] at h
  · obtain rfl : insert l held = held' := by simpa [exec, LockOp.exec, hl] using h
    exact ssubset_insert hl

theorem append_left (h : Leaves t) (hu : OnlyAdds u) : Leaves (t ++ u) := by
  intro held held' hexec
  obtain ⟨mid, hmid, hexec⟩ := exec_append_eq_some.1 hexec
  exact (h _ _ hmid).trans_subset (hu _ _ hexec)

theorem append_right (ht : OnlyAdds t) (h : Leaves u) : Leaves (t ++ u) := by
  intro held held' hexec
  obtain ⟨mid, hmid, hexec⟩ := exec_append_eq_some.1 hexec
  exact (ht _ _ hmid).trans_ssubset (h _ _ hexec)

/-- A lock left inside a section is not the lock of the section. -/
theorem hold {l : L} (h : Leaves t) : Leaves (LockOp.lock l :: (t ++ [LockOp.unlock l])) := by
  intro held held' hexec
  obtain ⟨hnot, mid, hmid, _, rfl⟩ := exec_hold_eq_some.1 hexec
  have hsub := (h _ _ hmid).subset
  obtain ⟨k, hk, hnew⟩ := exists_of_ssubset (h _ _ hmid)
  rw [mem_insert, not_or] at hnew
  refine ssubset_iff_of_subset (fun x hx => ?_) |>.2 ⟨k, ?_, hnew.2⟩
  · exact mem_erase.2 ⟨ne_of_mem_of_not_mem hx hnot, hsub (Finset.mem_insert_of_mem hx)⟩
  · exact mem_erase.2 ⟨hnew.1, hk⟩

theorem not_keepsHeld (h : Leaves t) : ¬ KeepsHeld t := fun hk =>
  (h ∅ ∅ (hk ∅ fun l _ => notMem_empty l)).ne rfl

end Leaves

/-! ## Runs -/

section Family

variable {ι : Type*} {f : ι → List (LockOp L)} {P : ι → Prop}

section

variable (hgood : ∀ i, P i → Bracketed (f i)) (hbad : ∀ i, ¬ P i → Leaves (f i))
include hgood hbad

theorem keepsHeld_iff_of_family (i : ι) : KeepsHeld (f i) ↔ P i :=
  ⟨fun h => by_contra fun hp => (hbad i hp).not_keepsHeld h, fun hp => (hgood i hp).keepsHeld⟩

/-- A lock that is left stays held to the end of the run, or blocks it. -/
theorem exec_flatMap_iff (is : List ι) : exec (is.flatMap f) ∅ = some ∅ ↔ ∀ i ∈ is, P i := by
  have hadds : ∀ js : List ι, OnlyAdds (js.flatMap f) := by
    intro js
    induction js with
    | nil => exact Bracketed.nil.onlyAdds
    | cons j js ih =>
      by_cases hj : P j
      · intro held held' h
        obtain ⟨mid, hmid, h⟩ := exec_append_eq_some.1 h
        exact ((hgood j hj).onlyAdds _ _ hmid).trans (ih _ _ h)
      · exact ((hbad j hj).append_left ih).onlyAdds
  constructor
  · intro h i hi
    by_contra hp
    obtain ⟨pre, post, rfl⟩ := append_of_mem hi
    rw [flatMap_append, flatMap_cons] at h
    exact (((hbad i hp).append_left (hadds post)).append_right (hadds pre) ∅ ∅ h).ne rfl
  · exact fun h => (Bracketed.flatMap fun i hi => hgood i (h i hi)).keepsHeld ∅
      fun l _ => notMem_empty l

end

end Family

end Rdfs
