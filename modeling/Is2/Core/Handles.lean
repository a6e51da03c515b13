import Mathlib.Logic.Function.Basic
import Mathlib.Logic.ExistsUnique

/-!
# Handles to pending things

An owner keeps a handle to a thing, and the thing is pending for an owner.  `Handles` says that the
two sides agree, so that an owner has at most one thing pending, and a thing has at most one owner.
A thing is armed for an owner without a handle (`arm`), and both sides forget it (`drop`).
-/

namespace Is2

/-- The owner `a` has the handle `b` exactly if `b` is pending for `a`. -/
def Handles {α β : Type} (held : α → Option β) (pending : β → Option α) : Prop :=
  ∀ a b, held a = some b ↔ pending b = some a

namespace Handles

variable {α β : Type} {held : α → Option β} {pending : β → Option α} {a : α} {b : β}

/-- Whoever has a handle has one thing pending. -/
lemma existsUnique (h : Handles held pending) (ha : held a ≠ none) :
    ∃! b, pending b = some a := by
  obtain ⟨b, hb⟩ := Option.ne_none_iff_exists'.mp ha
  refine ⟨b, (h a b).mp hb, ?_⟩
  intro b' hb'
  exact Option.some.inj (((h a b').mpr hb').symm.trans hb)

/-- Whoever has no handle has nothing pending. -/
lemma not_pending (h : Handles held pending) (ha : held a = none) (b : β) :
    pending b ≠ some a := by
  intro hb
  exact absurd ((h a b).mpr hb) (by simp [ha])

section Update

variable [DecidableEq α] [DecidableEq β]

/-- A thing that is not pending is armed for an owner without a handle. -/
lemma arm (h : Handles held pending) (ha : held a = none) (hb : pending b = none) :
    Handles (Function.update held a (some b)) (Function.update pending b (some a)) := by
  intro a' b'
  by_cases haa : a' = a <;> by_cases hbb : b' = b
  · subst haa hbb
    simp
  · subst haa
    have hnot := h.not_pending ha b'
    simp [Function.update_of_ne hbb, hnot, Ne.symm hbb]
  · subst hbb
    have hnot : held a' ≠ some b' := fun hh => absurd ((h a' b').mp hh) (by simp [hb])
    simp [Function.update_of_ne haa, hnot, Ne.symm haa]
  · rw [Function.update_of_ne haa, Function.update_of_ne hbb]
    exact h a' b'

/-- A thing is forgotten on both sides. -/
lemma drop (h : Handles held pending) (ha : held a = some b) :
    Handles (Function.update held a none) (Function.update pending b none) := by
  intro a' b'
  have hb := (h a b).mp ha
  by_cases haa : a' = a <;> by_cases hbb : b' = b
  · subst haa hbb
    simp
  · subst haa
    have hnot : pending b' ≠ some a' := fun hp =>
      hbb (Option.some.inj (((h a' b').mpr hp).symm.trans ha))
    simp [Function.update_of_ne hbb, hnot]
  · subst hbb
    have hnot : held a' ≠ some b' := fun hh =>
      haa (Option.some.inj (((h a' b').mp hh).symm.trans hb))
    simp [Function.update_of_ne haa, hnot]
  · rw [Function.update_of_ne haa, Function.update_of_ne hbb]
    exact h a' b'

end Update

end Handles

end Is2
