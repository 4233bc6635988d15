import Mathlib.Data.List.Basic

/-!
# Runs of a state machine

A machine is a function `step` from a state and an input to the next state, and a run is a list of
inputs. `Each` says that every input of a run meets a condition in the state it is taken in,
`Always` that a property holds in every state of a run.

If a step keeps an invariant whenever its input meets the condition, a run whose inputs meet it
keeps the invariant (`Each.always`). If in addition a step whose input does not meet the condition
breaks the property, the property holds in all of a run exactly if all inputs meet the condition
(`always_iff_each`).
-/

namespace Rdfs

variable {σ α : Type*} (step : σ → α → σ)

/-- Every input of a run meets `P` in the state it is taken in. -/
def Each (P : σ → α → Prop) : σ → List α → Prop
  | _, [] => True
  | s, a :: as => P s a ∧ Each P (step s a) as

/-- `Q` holds in every state of a run, the first and the last among them. -/
def Always (Q : σ → Prop) : σ → List α → Prop
  | s, [] => Q s
  | s, a :: as => Q s ∧ Always Q (step s a) as

instance Each.decidable (P : σ → α → Prop) [∀ s a, Decidable (P s a)] :
    ∀ s as, Decidable (Each step P s as)
  | _, [] => .isTrue trivial
  | s, a :: as =>
    haveI := Each.decidable P (step s a) as
    inferInstanceAs (Decidable (P s a ∧ Each step P (step s a) as))

variable {step}

variable {P P' : σ → α → Prop} {Q Inv : σ → Prop}

theorem Each.and : ∀ {s : σ} {as : List α}, Each step P s as → Each step P' s as →
      Each step (fun s a => P s a ∧ P' s a) s as
  | _, [], _, _ => trivial
  | _, _ :: _, ⟨hp, h⟩, ⟨hp', h'⟩ => ⟨⟨hp, hp'⟩, h.and h'⟩

theorem Each.imp (hp : ∀ s a, P s a → P' s a) :
    ∀ {s : σ} {as : List α}, Each step P s as → Each step P' s as
  | _, [], _ => trivial
  | _, _ :: _, ⟨h, ht⟩ => ⟨hp _ _ h, ht.imp hp⟩

/-- The last state of a run is one of its states. -/
theorem Always.last : ∀ {s : σ} {as : List α}, Always step Q s as → Q (as.foldl step s)
  | _, [], h => h
  | _, _ :: _, ⟨_, h⟩ => h.last

/-- A run whose inputs meet the condition keeps the invariant. -/
theorem Each.always (hstep : ∀ s a, Inv s → P s a → Inv (step s a)) :
    ∀ {s : σ} {as : List α}, Inv s → Each step P s as → Always step Inv s as
  | _, [], hs, _ => hs
  | _, _ :: _, hs, ⟨ha, h⟩ => ⟨hs, h.always hstep (hstep _ _ hs ha)⟩

theorem Always.imp {Q' : σ → Prop} (h : ∀ s, Q s → Q' s) :
    ∀ {s : σ} {as : List α}, Always step Q s as → Always step Q' s as
  | _, [], hs => h _ hs
  | _, _ :: _, ⟨hs, has⟩ => ⟨h _ hs, has.imp h⟩

/-- The steps keep the invariant if their inputs meet `P`, and break `Q` if not. -/
theorem always_iff_each {V : σ → α → Prop} (hQ : ∀ s, Inv s → Q s)
    (hkeep : ∀ s a, Inv s → V s a → P s a → Inv (step s a))
    (hbreak : ∀ s a, Inv s → V s a → ¬ P s a → ¬ Q (step s a)) :
    ∀ {s : σ} {as : List α}, Inv s → Each step V s as → (Always step Q s as ↔ Each step P s as)
  | s, [], hs, _ => iff_of_true (hQ s hs) trivial
  | s, a :: as, hs, ⟨ha, has⟩ => by
    by_cases hp : P s a
    · have ih := always_iff_each hQ hkeep hbreak (hkeep s a hs ha hp) has
      exact ⟨fun h => ⟨hp, ih.1 h.2⟩, fun h => ⟨hQ s hs, ih.2 h.2⟩⟩
    · refine iff_of_false (fun h => hbreak s a hs ha hp ?_) fun h => hp h.1
      cases as with
      | nil => exact h.2
      | cons b bs => exact h.2.1

/-- Two conditions that agree where the invariant holds agree along a run. -/
theorem each_iff_each {V : σ → α → Prop} (hkeep : ∀ s a, Inv s → V s a → Inv (step s a))
    (h : ∀ s a, Inv s → V s a → (P s a ↔ P' s a)) :
    ∀ {s : σ} {as : List α}, Inv s → Each step V s as → (Each step P s as ↔ Each step P' s as)
  | _, [], _, _ => Iff.rfl
  | s, a :: _, hs, ⟨ha, has⟩ =>
    and_congr (h s a hs ha) (each_iff_each hkeep h (hkeep s a hs ha) has)

end Rdfs
