import Mathlib.Algebra.BigOperators.Group.List.Basic
import Mathlib.Algebra.Ring.Nat

/-!
# Patterns over a path

A pattern is a list of tokens: a literal, a *run* (everything up to the next separator, possibly
nothing) and a *rest* (everything that is left).  `eat` takes a pattern off the front of a path and
says what is left; a path matches if nothing is.  `bound` says what the names are bound to on the
way.

Two ways of taking patterns apart are used by tries over patterns:

* following a pattern in two steps: `eat_append_of_ne_nil` and `eat_append_some`.  A rest ends the
  match, so the second half is read only while something is left;
* cutting a list at a weight, `cutAt`: the front weighs exactly `n`, or there is no such cut.
-/

namespace Is2

/-! ## Tokens -/

/-- A token over the alphabet `α`; runs carry a name. -/
inductive Tok (α : Type*) where
  | lit (a : α)
  | run (name : List α)
  | rest
  deriving DecidableEq

namespace Tok

variable {α : Type*} [DecidableEq α]

/-- What is left of the path when the pattern is taken off its front. -/
def eat (sep : α) : List (Tok α) → List α → Option (List α)
  | [], p => some p
  | .lit _ :: _, [] => none
  | .lit a :: ts, b :: p => if a = b then eat sep ts p else none
  | .run _ :: ts, p => eat sep ts (p.dropWhile (· ≠ sep))
  | .rest :: _, _ => some []

/-- The pattern takes the whole path. -/
def Matches (sep : α) (ts : List (Tok α)) (p : List α) : Prop := eat sep ts p = some []

instance (sep : α) (ts : List (Tok α)) (p : List α) : Decidable (Matches sep ts p) :=
  inferInstanceAs (Decidable (_ = _))

variable {sep : α}

/-- While something is left, a pattern is taken in two steps. -/
lemma eat_append_of_ne_nil (us : List (Tok α)) {ts : List (Tok α)} {p s : List α}
    (h : eat sep ts p = some s) (hs : s ≠ []) : eat sep (ts ++ us) p = eat sep us s := by
  induction ts, p using eat.induct sep with
  | case1 p =>
      obtain rfl := Option.some.inj h
      rfl
  | case2 => cases h
  | case3 ts b p ih =>
      rw [eat, if_pos rfl] at h
      rw [List.cons_append, eat, if_pos rfl, ih h]
  | case4 a ts b p hab =>
      rw [eat, if_neg hab] at h
      cases h
  | case5 name ts p ih =>
      rw [eat] at h
      rw [List.cons_append, eat, ih h]
  | case6 => exact absurd (Option.some.inj h).symm hs

/-- A pattern in two halves takes something off the path only if the first half does, and the second
half takes its part off what the first one leaves. -/
lemma eat_append_some {ts us : List (Tok α)} {p r : List α} (h : eat sep (ts ++ us) p = some r) :
    ∃ s, eat sep ts p = some s ∧ (s ≠ [] → eat sep us s = some r) := by
  induction ts, p using eat.induct sep with
  | case1 p => exact ⟨p, rfl, fun _ => h⟩
  | case2 => cases h
  | case3 ts b p ih =>
      rw [List.cons_append, eat, if_pos rfl] at h
      rw [eat, if_pos rfl]
      exact ih h
  | case4 a ts b p hab =>
      rw [List.cons_append, eat, if_neg hab] at h
      cases h
  | case5 name ts p ih =>
      rw [List.cons_append, eat] at h
      rw [eat]
      exact ih h
  | case6 => exact ⟨[], rfl, fun hs => absurd rfl hs⟩

/-- What is left is an end of the path. -/
lemma eat_suffix {ts : List (Tok α)} {p s : List α} (h : eat sep ts p = some s) : s <:+ p := by
  induction ts, p using eat.induct sep with
  | case1 p =>
      obtain rfl := Option.some.inj h
      exact List.suffix_rfl
  | case2 => cases h
  | case3 ts b p ih =>
      rw [eat, if_pos rfl] at h
      exact (ih h).trans (List.suffix_cons b p)
  | case4 a ts b p hab =>
      rw [eat, if_neg hab] at h
      cases h
  | case5 name ts p ih =>
      rw [eat] at h
      exact (ih h).trans (List.dropWhile_suffix _)
  | case6 =>
      obtain rfl := Option.some.inj h
      exact List.nil_suffix

/-- What a name is bound to when the pattern is taken off the path: a run to what it takes, where a
later run of the same name overrides, and a rest, under the name `star`, to all that is left. -/
def bound (sep : α) (star : List α) : List (Tok α) → List α → List α → Option (List α)
  | [], _, _ => none
  | .lit _ :: ts, p, name => bound sep star ts (p.drop 1) name
  | .run n :: ts, p, name =>
    (bound sep star ts (p.dropWhile (· ≠ sep)) name).or
      (if name = n then some (p.takeWhile (· ≠ sep)) else none)
  | .rest :: _, p, name => if name = star then some p else none

/-- While something is left, the second half binds last. -/
lemma bound_append {star : List α} (us : List (Tok α)) {ts : List (Tok α)} {p s : List α}
    (h : eat sep ts p = some s) (hs : s ≠ []) (name : List α) :
    bound sep star (ts ++ us) p name =
      (bound sep star us s name).or (bound sep star ts p name) := by
  induction ts, p using eat.induct sep with
  | case1 p =>
      obtain rfl := Option.some.inj h
      simp [bound]
  | case2 => cases h
  | case3 ts b p ih =>
      rw [eat, if_pos rfl] at h
      rw [List.cons_append, bound, bound, List.drop_one, List.tail_cons, ih h]
  | case4 a ts b p hab =>
      rw [eat, if_neg hab] at h
      cases h
  | case5 n ts p ih =>
      rw [eat] at h
      rw [List.cons_append, bound, bound, ih h, Option.or_assoc]
  | case6 => exact absurd (Option.some.inj h).symm hs

lemma bound_lits {star : List α} (w : List α) (ts : List (Tok α)) (p name : List α) :
    bound sep star (w.map lit ++ ts) p name = bound sep star ts (p.drop w.length) name := by
  induction w generalizing p with
  | nil => simp
  | cons a w ih => simp [bound, ih]

/-- A word of literals is taken off if the path begins with it. -/
lemma eat_lits (w : List α) (ts : List (Tok α)) (p : List α) :
    eat sep (w.map lit ++ ts) p = if w <+: p then eat sep ts (p.drop w.length) else none := by
  induction w generalizing p with
  | nil => simp
  | cons a w ih =>
      cases p with
      | nil => simp [eat]
      | cons b p =>
          rw [List.map_cons, List.cons_append, eat, ih]
          by_cases hab : a = b
          · simp [hab]
          · simp [hab]

end Tok

/-! ## Cutting at a weight -/

section Cut

variable {α : Type*} (w : α → ℕ)

/-- The weight of a list. -/
def weight (xs : List α) : ℕ := (xs.map w).sum

/-- The list cut where the front weighs `n`. -/
def cutAt : List α → ℕ → Option (List α × List α)
  | xs, 0 => some ([], xs)
  | [], _ + 1 => none
  | x :: xs, n + 1 =>
    if w x ≤ n + 1 then (cutAt xs (n + 1 - w x)).map fun c => (x :: c.1, c.2) else none

variable {w}

@[simp] lemma weight_nil : weight w [] = 0 := rfl

@[simp] lemma weight_cons (x : α) (xs : List α) : weight w (x :: xs) = w x + weight w xs := by
  simp [weight]

@[simp] lemma weight_append (xs ys : List α) :
    weight w (xs ++ ys) = weight w xs + weight w ys := by
  simp [weight]

/-- A cut gives the list back, and its front has the weight asked for. -/
lemma cutAt_some {xs : List α} {n : ℕ} {l r : List α} (h : cutAt w xs n = some (l, r)) :
    xs = l ++ r ∧ weight w l = n := by
  induction xs, n using cutAt.induct w generalizing l r with
  | case1 xs =>
      rw [cutAt] at h
      obtain ⟨rfl, rfl⟩ := Prod.mk.inj (Option.some.inj h)
      exact ⟨rfl, rfl⟩
  | case2 => cases h
  | case3 x xs n hle ih =>
      rw [cutAt, if_pos hle] at h
      obtain ⟨c, hc, he⟩ := Option.map_eq_some_iff.mp h
      obtain ⟨rfl, rfl⟩ := Prod.mk.inj he
      obtain ⟨hxs, hw⟩ := ih hc
      refine ⟨by rw [hxs, List.cons_append], ?_⟩
      rw [weight_cons, hw]
      omega
  | case4 x xs n hle =>
      rw [cutAt, if_neg hle] at h
      cases h

end Cut

end Is2
