import Mathlib.Tactic.SplitIfs

/-!
# Machines that take labelled steps

What all statements about runs are made in.  A machine has start states and labelled steps; a
state is reachable if some run ends in it.  A property of all reachable states is shown by
`Reachable.invariant`: it holds at the start and every step keeps it.

`guarded` keeps only the steps that meet a condition on the state before the step and on the
label.  Its runs are the runs of the machine whose steps all meet the condition.
-/

namespace Is2

/-- States `σ`, labels `α`. -/
structure Machine (σ α : Type*) where
  start : σ → Prop
  step : σ → α → σ → Prop

namespace Machine

variable {σ α : Type*}

/-- Some run from a start state ends in the state. -/
inductive Reachable (M : Machine σ α) : σ → Prop where
  | start {s : σ} : M.start s → Reachable M s
  | step {s t : σ} {a : α} : Reachable M s → M.step s a t → Reachable M t

/-- The machine that only takes steps which meet `ok`. -/
def guarded (M : Machine σ α) (ok : σ → α → Prop) : Machine σ α :=
  { M with step := fun s a t => ok s a ∧ M.step s a t }

lemma Reachable.of_guarded {M : Machine σ α} {ok : σ → α → Prop} {s : σ}
    (h : (M.guarded ok).Reachable s) : M.Reachable s := by
  induction h with
  | start hs => exact .start hs
  | step _ hst ih => exact ih.step hst.2

/-- **The invariant rule.** -/
theorem Reachable.invariant {M : Machine σ α} {P : σ → Prop} (hstart : ∀ s, M.start s → P s)
    (hstep : ∀ s a t, P s → M.step s a t → P t) {s : σ} (h : M.Reachable s) : P s := by
  induction h with
  | start hs => exact hstart _ hs
  | step _ hst ih => exact hstep _ _ _ ih hst

/-- Where the steps can be computed, a computed run is a run. -/
lemma Reachable.foldlM {M : Machine σ α} {next : σ → α → Option σ}
    (hn : ∀ s a t, next s a = some t → M.step s a t) {as : List α} :
    ∀ {s t : σ}, M.Reachable s → as.foldlM next s = some t → M.Reachable t := by
  induction as with
  | nil =>
      intro s t h he
      obtain rfl := Option.some.inj he
      exact h
  | cons a as ih =>
      intro s t h he
      obtain ⟨u, hu, he⟩ := Option.bind_eq_some_iff.mp he
      exact ih (h.step (hn s a u hu)) he

/-- A computed run in which every step is checked is a run of the guarded machine. -/
lemma Reachable.guarded_foldlM {M : Machine σ α} {next : σ → α → Option σ} {ok : σ → α → Prop}
    [∀ s a, Decidable (ok s a)] (hn : ∀ s a t, next s a = some t → M.step s a t) {as : List α}
    {s t : σ} (h : M.start s)
    (he : as.foldlM (fun s a => if ok s a then next s a else none) s = some t) :
    (M.guarded ok).Reachable t := by
  refine Reachable.foldlM ?_ (.start h) he
  intro s a t hst
  split_ifs at hst with hok
  exact ⟨hok, hn s a t hst⟩

end Machine

end Is2
