import Mathlib.Algebra.Order.BigOperators.Group.Finset
import Rdfs.Locks

/-!
# Threads that share locks

`Threads` have traces to run, each with the locks it holds. A thread takes a lock when no thread
holds it, and otherwise waits (`Threads.Step`).

If the traces consist of critical sections, with only sections of higher ranks inside others
(`Nests`), the threads are never stuck : one that waits for a lock waits for one that can go on, or
that waits for a lock of a higher rank (`Threads.exists_step`). So they all get to their ends, in
whatever order they take their steps (`threads_finish_iff`).
-/

namespace Rdfs

open List Finset

variable {L : Type*} {rank : L → ℕ} {t u : List (LockOp L)}

/-! ## One thread -/

/-- Critical sections one behind another, and inside others only those of higher ranks. -/
inductive Nests (rank : L → ℕ) : List (LockOp L) → Prop
  | nil : Nests rank []
  | hold {l : L} {t : List (LockOp L)} :
      Nests rank t → (∀ k ∈ taken t, rank l < rank k) → Nests rank (.lock l :: (t ++ [.unlock l]))
  | append {t u : List (LockOp L)} : Nests rank t → Nests rank u → Nests rank (t ++ u)

namespace Nests

theorem pair (l : L) : Nests rank [.lock l, .unlock l] := hold nil (by simp [taken])

theorem flatMap {ι : Type*} {f : ι → List (LockOp L)} :
    ∀ {is : List ι}, (∀ i ∈ is, Nests rank (f i)) → Nests rank (is.flatMap f)
  | [], _ => nil
  | _ :: _, h =>
    (h _ List.mem_cons_self).append (flatMap fun i hi => h i (List.mem_cons_of_mem _ hi))

theorem ite {c : Prop} [Decidable c] (ht : Nests rank t) (hu : Nests rank u) :
    Nests rank (if c then t else u) := by
  split_ifs
  · exact ht
  · exact hu

theorem bracketed (h : Nests rank t) : Bracketed t := by
  induction h with
  | nil => exact .nil
  | hold _ hl ih => exact .hold ih fun hmem => (hl _ hmem).false
  | append _ _ iht ihu => exact iht.append ihu

end Nests

variable [DecidableEq L]

/-- From the locks `held` on a trace takes each lock above those it holds, and ends with none. -/
def Ranked (rank : L → ℕ) : Finset L → List (LockOp L) → Prop
  | held, [] => held = ∅
  | held, o :: t => (∀ l, o = .lock l → ∀ k ∈ held, rank k < rank l) ∧
    ∃ held', o.exec held = some held' ∧ Ranked rank held' t

/-- Sections can run inside any others of lower ranks, before what is left of them. -/
theorem Nests.ranked_append (h : Nests rank t) : ∀ {held : Finset L} {u : List (LockOp L)},
    (∀ k ∈ held, ∀ l ∈ taken t, rank k < rank l) → Ranked rank held u →
      Ranked rank held (t ++ u) := by
  induction h with
  | nil => exact fun _ hu => hu
  | @hold l t _ hl ih =>
    intro held u hheld hu
    have hlow : ∀ k ∈ held, rank k < rank l := fun k hk => hheld k hk l List.mem_cons_self
    have hnot : l ∉ held := fun hmem => (hlow l hmem).false
    rw [cons_append, append_assoc]
    refine ⟨fun l' hl' => by cases hl'; exact hlow, insert l held, if_neg hnot,
      ih (fun k hk k' hk' => ?_) ⟨fun l' hl' => (by cases hl'), held, ?_, hu⟩⟩
    · rcases mem_insert.1 hk with rfl | hk
      · exact hl k' hk'
      · exact (hlow k hk).trans (hl k' hk')
    · rw [LockOp.exec, if_pos (Finset.mem_insert_self _ _), erase_insert hnot]
  | append _ _ iht ihu =>
    intro held v hheld hv
    rw [append_assoc]
    exact iht (fun k hk l hl => hheld k hk l (by simp [hl]))
      (ihu (fun k hk l hl => hheld k hk l (by simp [hl])) hv)

theorem Nests.ranked (h : Nests rank t) : Ranked rank ∅ t := by
  have hend := h.ranked_append (by simp) (show Ranked rank ∅ [] from rfl)
  rwa [append_nil] at hend

/-! ## Several threads -/

/-- What each thread has still to do, and the locks it holds. -/
structure Threads (ι L : Type*) where
  todo : ι → List (LockOp L)
  held : ι → Finset L

namespace Threads

variable {ι : Type*} [DecidableEq ι] {s s' : Threads ι L} {i : ι}

/-- No thread holds a lock. -/
def start (todo : ι → List (LockOp L)) : Threads ι L := ⟨todo, fun _ => ∅⟩

/-- A thread goes on to `t`, with other locks. -/
def put (s : Threads ι L) (i : ι) (t : List (LockOp L)) (locks : Finset L) : Threads ι L :=
  ⟨Function.update s.todo i t, Function.update s.held i locks⟩

/-- A thread takes a lock that no thread holds, or gives back one that it holds. -/
inductive Step (s : Threads ι L) : Threads ι L → Prop
  | op {i : ι} {o : LockOp L} {t : List (LockOp L)} {locks : Finset L} (htodo : s.todo i = o :: t)
      (hexec : o.exec (s.held i) = some locks) (hfree : ∀ l, o = .lock l → ∀ j, l ∉ s.held j) :
      Step s (s.put i t locks)

/-- Steps of the threads, in any order. -/
abbrev Run : Threads ι L → Threads ι L → Prop := Relation.ReflTransGen Step

/-- All threads are at their ends, without a lock. -/
def Finished (s : Threads ι L) : Prop := ∀ i, s.todo i = [] ∧ s.held i = ∅

theorem Step.ranked (h : s.Step s') (hs : ∀ i, Ranked rank (s.held i) (s.todo i)) :
    ∀ i, Ranked rank (s'.held i) (s'.todo i) := by
  obtain @⟨i, o, t, locks, htodo, hexec, -⟩ := h
  have hi := hs i
  rw [htodo] at hi
  obtain ⟨-, held', hexec', ht⟩ := hi
  rw [hexec, Option.some_inj] at hexec'
  subst hexec'
  intro j
  by_cases hj : j = i
  · subst hj
    simpa [put] using ht
  · simpa [put, hj] using hs j

theorem Run.ranked (h : s.Run s') (hs : ∀ i, Ranked rank (s.held i) (s.todo i)) :
    ∀ i, Ranked rank (s'.held i) (s'.todo i) := by
  induction h with
  | refl => exact hs
  | tail _ hstep ih => exact hstep.ranked ih

/-- As long as a thread is not at its end, some thread can take a step. -/
theorem exists_step {bound : ℕ} (hbound : ∀ l, rank l < bound)
    (hs : ∀ i, Ranked rank (s.held i) (s.todo i)) (hi : s.todo i ≠ []) : ∃ s', s.Step s' := by
  -- induction on how many ranks are above the lock that the thread is to take
  have hstep : ∀ (n : ℕ) {i : ι} {o : LockOp L} {t : List (LockOp L)}, s.todo i = o :: t →
      (∀ l, o = .lock l → bound ≤ rank l + n) → ∃ s', s.Step s' := by
    intro n
    induction n using Nat.strong_induction_on with
    | _ n ih =>
      intro i o t htodo hn
      have hrank := hs i
      rw [htodo] at hrank
      obtain ⟨-, locks, hexec, -⟩ := hrank
      by_cases hfree : ∀ l, o = .lock l → ∀ j, l ∉ s.held j
      · exact ⟨_, .op htodo hexec hfree⟩
      push Not at hfree
      obtain ⟨l, hl, j, hj⟩ := hfree
      have hrank := hs j
      rcases htodo' : s.todo j with _ | ⟨o', t'⟩
      all_goals rw [htodo'] at hrank
      · rw [show s.held j = ∅ from hrank] at hj
        exact absurd hj (notMem_empty l)
      · have hle := hn l hl
        have hlt := hbound l
        refine ih (n - 1) (by omega) htodo' fun l' hl' => ?_
        have hlt' := hrank.1 l' hl' l hj
        omega
  obtain ⟨o, t, htodo⟩ := exists_cons_of_ne_nil hi
  exact hstep bound htodo fun l _ => Nat.le_add_left _ _

/-- Every step leaves less to do. -/
theorem Step.length_lt [Fintype ι] (h : s.Step s') :
    ∑ i, (s'.todo i).length < ∑ i, (s.todo i).length := by
  obtain @⟨i, o, t, locks, htodo, -, -⟩ := h
  refine Finset.sum_lt_sum (fun j _ => ?_) ⟨i, mem_univ i, by simp [put, htodo]⟩
  by_cases hj : j = i
  · subst hj
    simp [put, htodo]
  · simp [put, hj]

/-- The threads get to their ends. -/
theorem exists_finished [Fintype ι] {bound : ℕ} (hbound : ∀ l, rank l < bound)
    (hs : ∀ i, Ranked rank (s.held i) (s.todo i)) : ∃ s', s.Run s' ∧ s'.Finished := by
  generalize hn : ∑ i, (s.todo i).length = n
  induction n using Nat.strong_induction_on generalizing s with
  | _ n ih =>
    by_cases hend : ∀ i, s.todo i = []
    · refine ⟨s, .refl, fun i => ⟨hend i, ?_⟩⟩
      have hi := hs i
      rwa [hend i] at hi
    · push Not at hend
      obtain ⟨i, hi⟩ := hend
      obtain ⟨s₁, hstep⟩ := exists_step hbound hs hi
      obtain ⟨s', hrun, hfin⟩ := ih _ (hn ▸ hstep.length_lt) (hstep.ranked hs) rfl
      exact ⟨s', .head hstep hrun, hfin⟩

/-- What a thread has done and has still to do is its trace. -/
theorem exec_eq {todo : ι → List (LockOp L)} (h : Run (start todo) s) (i : ι) :
    exec (todo i) ∅ = exec (s.todo i) (s.held i) := by
  induction h with
  | refl => rfl
  | @tail s s' _ hstep ih =>
    obtain @⟨j, o, t, locks, htodo, hexec, -⟩ := hstep
    rw [ih]
    by_cases hi : i = j
    · subst hi
      simp [put, htodo, exec, hexec]
    · simp [put, hi]

end Threads

/-- Threads that run traces of a family, one after another : from every state they come to, they can
get to their ends without a lock, exactly if all their traces give back what they take. -/
theorem threads_finish_iff {α ι : Type*} [DecidableEq ι] [Fintype ι] {f : α → List (LockOp L)}
    {P : α → Prop} {bound : ℕ} (hbound : ∀ l, rank l < bound) (hgood : ∀ a, P a → Nests rank (f a))
    (hbad : ∀ a, ¬P a → Leaves (f a)) (as : ι → List α) :
    (∀ s, Threads.Run (.start fun i => (as i).flatMap f) s → ∃ s', s.Run s' ∧ s'.Finished) ↔
      ∀ i, ∀ a ∈ as i, P a := by
  constructor
  · intro h i
    obtain ⟨s, hrun, hfin⟩ := h _ .refl
    have hexec := Threads.exec_eq hrun i
    rw [(hfin i).1, (hfin i).2] at hexec
    exact (exec_flatMap_iff (fun a ha => (hgood a ha).bracketed) hbad (as i)).1 hexec
  · intro h s hrun
    exact Threads.exists_finished hbound
      (hrun.ranked fun i => (Nests.flatMap fun a ha => hgood a (h i a ha)).ranked)

end Rdfs
