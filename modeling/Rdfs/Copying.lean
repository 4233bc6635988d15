import Mathlib.Data.Set.Function
import Mathlib.Order.Interval.Set.Basic

/-!
# Copying a range piece by piece

`Copied ok src dst a b m m'` says that from `m` to `m'` the items `x` of the range from `a` to `b`
have been copied, each from the place `src x` to the place `dst x` if its copy went well (`ok x`),
and that nothing else has changed.

If no item is copied to where another one comes from or goes to, the pieces of a range can be
copied one after another (`Copied.trans`).
-/

namespace Rdfs

variable {α β : Type*} {ok ok' : ℕ → Bool} {src dst : ℕ → α} {a b c : ℕ} {m m' m'' : α → β}

/-- The items from `a` to `b` have been copied from `src` to `dst`, those whose copy went well, and
nothing else has changed. -/
structure Copied (ok : ℕ → Bool) (src dst : ℕ → α) (a b : ℕ) (m m' : α → β) : Prop where
  copied : ∀ x ∈ Set.Ico a b, m' (dst x) = if ok x then m (src x) else m (dst x)
  frame : ∀ p, (∀ x ∈ Set.Ico a b, p ≠ dst x) → m' p = m p

namespace Copied

theorem of_le (h : b ≤ a) (m : α → β) : Copied ok src dst a b m m :=
  ⟨fun _ hx => absurd (hx.1.trans_lt hx.2) (not_lt.2 h), fun _ _ => rfl⟩

theorem congr (h : Copied ok src dst a b m m') (hok : ∀ x ∈ Set.Ico a b, ok x = ok' x) :
    Copied ok' src dst a b m m' :=
  ⟨fun x hx => by rw [h.copied x hx, hok x hx], h.frame⟩

/-- One piece after another. -/
theorem trans (h : Copied ok src dst a c m m') (h' : Copied ok src dst c b m' m'') (hac : a ≤ c)
    (hcb : c ≤ b) (hinj : Set.InjOn dst (Set.Ico a b))
    (hapart : ∀ x ∈ Set.Ico a b, ∀ y ∈ Set.Ico a b, src x ≠ dst y) :
    Copied ok src dst a b m m'' := by
  have hleft : ∀ x ∈ Set.Ico a c, x ∈ Set.Ico a b := fun x hx => ⟨hx.1, hx.2.trans_le hcb⟩
  have hright : ∀ x ∈ Set.Ico c b, x ∈ Set.Ico a b := fun x hx => ⟨hac.trans hx.1, hx.2⟩
  refine ⟨fun x hx => ?_, fun p hp => ?_⟩
  · rcases Nat.lt_or_ge x c with hlt | hge
    · have hx' : x ∈ Set.Ico a c := ⟨hx.1, hlt⟩
      rw [h'.frame (dst x) fun y hy heq => ?_, h.copied x hx']
      have := hinj hx (hright y hy) heq
      exact absurd hy.1 (not_le.2 (this ▸ hlt))
    · have hx' : x ∈ Set.Ico c b := ⟨hge, hx.2⟩
      rw [h'.copied x hx', h.frame (src x) fun y hy => hapart x hx y (hleft y hy),
        h.frame (dst x) fun y hy heq => ?_]
      have := hinj hx (hleft y hy) heq
      exact absurd hy.2 (not_lt.2 (this ▸ hge))
  · rw [h'.frame p fun x hx => hp x (hright x hx), h.frame p fun x hx => hp x (hleft x hx)]

end Copied

end Rdfs
