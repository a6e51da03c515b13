import Mathlib.Logic.Relation
import Mathlib.Order.WellFounded

/-!
# Recursions that may not end

`call s t` says that a call in state `s` makes a nested call in state `t`.  A call *ends* if every
chain of nested calls from it is finite.

`ends_iff` settles it for recursions that have a measure, except at some *stuck* states from which
they go on to stuck states for ever: a call ends exactly if it never comes to a stuck state.
-/

namespace Is2

variable {σ : Type*} {call : σ → σ → Prop}

/-- Every chain of nested calls from `s` is finite. -/
def Ends (call : σ → σ → Prop) (s : σ) : Prop := Acc (fun t s => call s t) s

lemma Ends.nested {s t : σ} (h : Ends call s) (hst : call s t) : Ends call t := h.inv hst

/-- A nested call that is reached ends too. -/
lemma Ends.reaches {s t : σ} (h : Ends call s) (hst : Relation.ReflTransGen call s t) :
    Ends call t := by
  induction hst with
  | refl => exact h
  | tail _ hlast ih => exact ih.nested hlast

/-- From a stuck state nothing ends. -/
lemma not_ends_of_stuck {stuck : σ → Prop} (hloop : ∀ s, stuck s → ∃ t, call s t ∧ stuck t) {s : σ}
    (h : Ends call s) : ¬ stuck s := by
  induction h with
  | intro s _ ih =>
      intro hs
      obtain ⟨t, hst, ht⟩ := hloop s hs
      exact ih t hst ht

/-- A measure that every nested call makes smaller. -/
lemma ends_of_measure {μ : σ → ℕ} (hμ : ∀ s t, call s t → μ t < μ s) (s : σ) : Ends call s :=
  Subrelation.accessible (fun h => hμ _ _ h) ((measure μ).wf.apply s)

/-- **A call ends exactly if it comes to no stuck state.** -/
theorem ends_iff {stuck : σ → Prop} {μ : σ → ℕ} (hloop : ∀ s, stuck s → ∃ t, call s t ∧ stuck t)
    (hμ : ∀ s t, call s t → ¬ stuck s → μ t < μ s) (s : σ) :
    Ends call s ↔ ∀ t, Relation.ReflTransGen call s t → ¬ stuck t := by
  constructor
  · intro h t hst
    exact not_ends_of_stuck hloop (h.reaches hst)
  · intro h
    induction hm : μ s using Nat.strong_induction_on generalizing s with
    | _ m ih =>
        subst hm
        refine Acc.intro s fun t hst => ?_
        exact ih (μ t) (hμ s t hst (h s .refl)) t (fun u htu => h u (.head hst htu)) rfl

end Is2
