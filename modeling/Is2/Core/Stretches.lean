import Mathlib.Data.List.Basic
import Mathlib.Logic.Function.Basic
import Mathlib.Order.MinMax

/-!
# Stretches of a stream, reported buffer by buffer

A scanner goes through a stream and reports stretches of it.  It sets a mark where a stretch
starts, and reports the stretch from the mark on where it ends.  A stream that comes in several
buffers leaves it in the middle of a stretch: what is marked is reported at the end of the buffer,
and the next buffer starts with a mark of its own, or, for the lazy kinds, without one until the
stretch goes on.

What is reported of a buffer is then what is reported of the whole stream, clipped to the buffer
(`Scanner.reports_buffer`).  The scanner only has to keep to a few shapes of what it does on one
element, which say that at most one stretch is open at a time.
-/

namespace Is2

namespace Stretches

variable {K N σ α : Type}

/-! ## Marks and reports -/

/-- What is done at a place of the stream. -/
inductive Act (K N : Type) where
  /-- set a mark, if there is none -/
  | mark (k : K) (p : ℕ)
  /-- report the stretch from the mark up to `p`, if there is one, and clear the mark -/
  | flush (k : K) (p : ℕ)
  | note (n : N) (p : ℕ)
deriving DecidableEq, Repr

/-- What is reported. -/
inductive Report (K N : Type) where
  | span (k : K) (start stop : ℕ)
  | note (n : N) (p : ℕ)
deriving DecidableEq, Repr

/-- Where the stretch of each kind starts. -/
abbrev Marks (K : Type) := K → Option ℕ

namespace Act

def place : Act K N → ℕ
  | mark _ p => p
  | flush _ p => p
  | note _ p => p

def shift (d : ℕ) : Act K N → Act K N
  | mark k p => mark k (p + d)
  | flush k p => flush k (p + d)
  | note n p => note n (p + d)

@[simp] lemma place_shift (d : ℕ) (a : Act K N) : (a.shift d).place = a.place + d := by
  cases a <;> rfl

/-- Not about a lazy kind, and at the place itself. -/
def Plain (lazy : K → Bool) : Act K N → Prop
  | mark k p => lazy k = false ∧ p = 0
  | flush k p => lazy k = false ∧ p = 0
  | note _ p => p = 0

end Act

/-- The marks and flushes come in order, from `lo` to `hi`. -/
def Ordered : ℕ → List (Act K N) → ℕ → Prop
  | lo, [], hi => lo ≤ hi
  | lo, .note _ _ :: as, hi => Ordered lo as hi
  | lo, .mark _ p :: as, hi => lo ≤ p ∧ Ordered p as hi
  | lo, .flush _ p :: as, hi => lo ≤ p ∧ Ordered p as hi

lemma Ordered.le {as : List (Act K N)} {lo hi : ℕ} (h : Ordered lo as hi) : lo ≤ hi := by
  induction as generalizing lo with
  | nil => exact h
  | cons a as ih =>
      cases a with
      | note n p => exact ih h
      | mark k p => exact h.1.trans (ih h.2)
      | flush k p => exact h.1.trans (ih h.2)

lemma Ordered.mono {as : List (Act K N)} {lo hi hi' : ℕ} (h : Ordered lo as hi) (hle : hi ≤ hi') :
    Ordered lo as hi' := by
  induction as generalizing lo with
  | nil => exact Nat.le_trans h hle
  | cons a as ih =>
      cases a with
      | note n p => exact ih h
      | mark k p => exact ⟨h.1, ih h.2⟩
      | flush k p => exact ⟨h.1, ih h.2⟩

lemma Ordered.from_le {as : List (Act K N)} {lo lo' hi : ℕ} (h : Ordered lo as hi)
    (hle : lo' ≤ lo) :
    Ordered lo' as hi := by
  induction as with
  | nil => exact hle.trans h
  | cons a as ih =>
      cases a with
      | note n p => exact ih h
      | mark k p => exact ⟨hle.trans h.1, h.2⟩
      | flush k p => exact ⟨hle.trans h.1, h.2⟩

lemma Ordered.append {as bs : List (Act K N)} {lo mid hi : ℕ} (h : Ordered lo as mid)
    (h' : Ordered mid bs hi) : Ordered lo (as ++ bs) hi := by
  induction as generalizing lo with
  | nil => exact h'.from_le h
  | cons a as ih =>
      cases a with
      | note n p => exact ih h
      | mark k p => exact ⟨h.1, ih h.2⟩
      | flush k p => exact ⟨h.1, ih h.2⟩

lemma Ordered.shift {as : List (Act K N)} {lo hi : ℕ} (h : Ordered lo as hi) (d : ℕ) :
    Ordered (lo + d) (as.map (Act.shift d)) (hi + d) := by
  induction as generalizing lo with
  | nil => exact Nat.add_le_add_right h d
  | cons a as ih =>
      cases a with
      | note n p => exact ih h
      | mark k p => exact ⟨Nat.add_le_add_right h.1 d, ih h.2⟩
      | flush k p => exact ⟨Nat.add_le_add_right h.1 d, ih h.2⟩

section Run

variable [DecidableEq K]

def act (M : Marks K) : Act K N → Marks K × List (Report K N)
  | .mark k p => (if (M k).isSome then M else Function.update M k (some p), [])
  | .flush k p =>
      match M k with
      | some s => (Function.update M k none, [.span k s p])
      | none => (M, [])
  | .note n p => (M, [.note n p])

/-- One act after the other. -/
def run (M : Marks K) : List (Act K N) → Marks K × List (Report K N)
  | [] => (M, [])
  | a :: as => ((run (act M a).1 as).1, (act M a).2 ++ (run (act M a).1 as).2)

@[simp] lemma run_nil (M : Marks K) : run (N := N) M [] = (M, []) := rfl

lemma run_cons (M : Marks K) (a : Act K N) (as : List (Act K N)) :
    run M (a :: as) = ((run (act M a).1 as).1, (act M a).2 ++ (run (act M a).1 as).2) := rfl

lemma run_append (M : Marks K) (as bs : List (Act K N)) :
    run M (as ++ bs) = ((run (run M as).1 bs).1, (run M as).2 ++ (run (run M as).1 bs).2) := by
  induction as generalizing M with
  | nil => rfl
  | cons a as ih => rw [List.cons_append, run_cons, ih, run_cons, List.append_assoc]

lemma act_mark_none {M : Marks K} {k : K} (h : M k = none) (p : ℕ) :
    act (N := N) M (.mark k p) = (Function.update M k (some p), []) := by
  rw [act, h, Option.isSome_none, if_neg (by simp)]

lemma act_mark_some {M : Marks K} {k : K} {s : ℕ} (h : M k = some s) (p : ℕ) :
    act (N := N) M (.mark k p) = (M, []) := by
  rw [act, h, Option.isSome_some, if_pos rfl]

lemma act_flush_none {M : Marks K} {k : K} (h : M k = none) (p : ℕ) :
    act (N := N) M (.flush k p) = (M, []) := by
  rw [act, h]

lemma act_flush_some {M : Marks K} {k : K} {s : ℕ} (h : M k = some s) (p : ℕ) :
    act (N := N) M (.flush k p) = (Function.update M k none, [.span k s p]) := by
  rw [act, h]

/-- All marks are at places with a property. -/
def AllMarks (Q : K → ℕ → Prop) (M : Marks K) : Prop := ∀ k s, M k = some s → Q k s

lemma AllMarks.update {Q : K → ℕ → Prop} {M : Marks K} (h : AllMarks Q M) {k : K} {v : Option ℕ}
    (hv : ∀ s, v = some s → Q k s) : AllMarks Q (Function.update M k v) := by
  intro k' s hs
  by_cases hk : k' = k
  · subst hk
    rw [Function.update_self] at hs
    exact hv s hs
  · rw [Function.update_of_ne hk] at hs
    exact h k' s hs

lemma AllMarks.act {Q : K → ℕ → Prop} {M : Marks K} (h : AllMarks Q M) {a : Act K N}
    (ha : ∀ k, Q k a.place) : AllMarks Q (act M a).1 := by
  cases a with
  | mark k p =>
      cases hM : M k with
      | none =>
          rw [act_mark_none hM]
          exact h.update fun s hs => Option.some.inj hs ▸ ha k
      | some s =>
          rw [act_mark_some hM]
          exact h
  | flush k p =>
      cases hM : M k with
      | none =>
          rw [act_flush_none hM]
          exact h
      | some s =>
          rw [act_flush_some hM]
          exact h.update fun s hs => by simp at hs
  | note n p => exact h

/-- Acts in order report stretches that end where they start, or behind. -/
lemma run_ordered {M : Marks K} {as : List (Act K N)} {lo hi : ℕ}
    (hM : AllMarks (fun _ s => s ≤ lo) M) (has : Ordered lo as hi) :
    AllMarks (fun _ s => s ≤ hi) (run M as).1 ∧
      ∀ k s t, .span k s t ∈ (run M as).2 → s ≤ t ∧ t ≤ hi := by
  induction as generalizing M lo with
  | nil => exact ⟨fun k s hs => (hM k s hs).trans has, fun k s t h => by simp at h⟩
  | cons a as ih =>
      rw [run_cons]
      cases a with
      | note n p =>
          obtain ⟨h1, h2⟩ := ih hM has
          exact ⟨h1, fun k s t hmem => h2 k s t (by simpa [Stretches.act] using hmem)⟩
      | mark k p =>
          obtain ⟨hp, has⟩ := has
          have hM' : AllMarks (fun _ s => s ≤ p) (act (N := N) M (.mark k p)).1 :=
            AllMarks.act (fun k s hs => (hM k s hs).trans hp) fun _ => Nat.le_refl p
          obtain ⟨h1, h2⟩ := ih hM' has
          exact ⟨h1, fun k s t hmem => h2 k s t (by simpa [Stretches.act] using hmem)⟩
      | flush k p =>
          obtain ⟨hp, has⟩ := has
          have hM' : AllMarks (fun _ s => s ≤ p) (act (N := N) M (.flush k p)).1 :=
            AllMarks.act (fun k s hs => (hM k s hs).trans hp) fun _ => Nat.le_refl p
          obtain ⟨h1, h2⟩ := ih hM' has
          refine ⟨h1, fun k' s t hmem => ?_⟩
          rcases List.mem_append.mp hmem with hmem | hmem
          · cases hMk : M k with
            | none =>
                rw [act_flush_none hMk] at hmem
                simp at hmem
            | some q =>
                rw [act_flush_some hMk, List.mem_singleton] at hmem
                obtain ⟨rfl, rfl, rfl⟩ := Report.span.inj hmem
                exact ⟨(hM k' s hMk).trans hp, has.le⟩
          · exact h2 k' s t hmem

/-- A stretch that is reported starts at a mark. -/
lemma run_starts {Q : K → ℕ → Prop} {M : Marks K} {as : List (Act K N)} (hM : AllMarks Q M)
    (has : ∀ k p, .mark k p ∈ as → Q k p) :
    ∀ k s t, .span k s t ∈ (run M as).2 → Q k s := by
  induction as generalizing M with
  | nil => exact fun k s t h => by simp at h
  | cons a as ih =>
      have has' := fun k p h => has k p (List.mem_cons_of_mem _ h)
      rw [run_cons]
      cases a with
      | mark k p =>
          refine ih ?_ has'
          cases hMk : M k with
          | none =>
              rw [act_mark_none hMk]
              exact hM.update fun s hs => Option.some.inj hs ▸ has k p List.mem_cons_self
          | some s =>
              rw [act_mark_some hMk]
              exact hM
      | flush k p =>
          cases hMk : M k with
          | none =>
              rw [act_flush_none hMk]
              exact ih hM has'
          | some q =>
              rw [act_flush_some hMk]
              intro k' s t hmem
              rcases List.mem_cons.mp hmem with he | hmem
              · obtain ⟨rfl, rfl, rfl⟩ := Report.span.inj he
                exact hM k' s hMk
              · exact ih (hM.update fun s hs => by simp at hs) has' k' s t hmem
      | note n p => exact fun k s t hmem => ih hM has' k s t (by simpa [act] using hmem)

/-- A stretch that is reported ends at a flush. -/
lemma run_stops {M : Marks K} {as : List (Act K N)} :
    ∀ k s t, .span k s t ∈ (run M as).2 → .flush k t ∈ as := by
  induction as generalizing M with
  | nil => exact fun k s t h => by simp at h
  | cons a as ih =>
      intro k s t hmem
      rw [run_cons] at hmem
      rcases List.mem_append.mp hmem with hmem | hmem
      · cases a with
        | mark k' p => simp [act] at hmem
        | flush k' p =>
            cases hMk : M k' with
            | none =>
                rw [act_flush_none hMk] at hmem
                simp at hmem
            | some q =>
                rw [act_flush_some hMk, List.mem_singleton] at hmem
                obtain ⟨rfl, rfl, rfl⟩ := Report.span.inj hmem
                exact List.mem_cons_self
        | note n p => simp [act] at hmem
      · exact List.mem_cons_of_mem _ (ih k s t hmem)

/-- The flush at the end of a buffer. -/
def flushes (kinds : List K) (p : ℕ) : List (Act K N) := kinds.map fun k => .flush k p

omit [DecidableEq K] in
lemma ordered_flushes (kinds : List K) (p : ℕ) : Ordered (N := N) p (flushes kinds p) p := by
  induction kinds with
  | nil => exact Nat.le_refl p
  | cons k kinds ih => exact ⟨Nat.le_refl p, ih⟩

/-! ## Other places -/

def Report.shift (d : ℕ) : Report K N → Report K N
  | span k s t => span k (s + d) (t + d)
  | note n p => note n (p + d)

def shiftMarks (d : ℕ) (M : Marks K) : Marks K := fun k => (M k).map (· + d)

lemma shiftMarks_update (d : ℕ) (M : Marks K) (k : K) (s : Option ℕ) :
    shiftMarks d (Function.update M k s) =
      Function.update (shiftMarks d M) k (s.map (· + d)) := by
  funext k'
  by_cases hk : k' = k
  · subst hk
    simp [shiftMarks]
  · simp [shiftMarks, Function.update_of_ne hk]

lemma act_shift (d : ℕ) (M : Marks K) (a : Act K N) :
    act (shiftMarks d M) (a.shift d) =
      (shiftMarks d (act M a).1, (act M a).2.map (Report.shift d)) := by
  cases a with
  | mark k p =>
      cases hM : M k with
      | none =>
          have hM' : shiftMarks d M k = none := by rw [shiftMarks, hM]; rfl
          rw [Act.shift, act_mark_none hM, act_mark_none hM', shiftMarks_update]
          rfl
      | some s =>
          have hM' : shiftMarks d M k = some (s + d) := by rw [shiftMarks, hM]; rfl
          rw [Act.shift, act_mark_some hM, act_mark_some hM']
          rfl
  | flush k p =>
      cases hM : M k with
      | none =>
          have hM' : shiftMarks d M k = none := by rw [shiftMarks, hM]; rfl
          rw [Act.shift, act_flush_none hM, act_flush_none hM']
          rfl
      | some s =>
          have hM' : shiftMarks d M k = some (s + d) := by rw [shiftMarks, hM]; rfl
          rw [Act.shift, act_flush_some hM, act_flush_some hM', shiftMarks_update]
          rfl
  | note n p => rfl

/-- What is done elsewhere is reported elsewhere. -/
lemma run_shift (d : ℕ) (M : Marks K) (as : List (Act K N)) :
    run (shiftMarks d M) (as.map (Act.shift d)) =
      (shiftMarks d (run M as).1, (run M as).2.map (Report.shift d)) := by
  induction as generalizing M with
  | nil => rfl
  | cons a as ih => rw [List.map_cons, run_cons, act_shift, ih, run_cons, List.map_append]

end Run

/-! ## Reports in a row -/

/-- Stretches one behind the other, from `lo` to `hi`. -/
def InRow : ℕ → List (Report K N) → ℕ → Prop
  | lo, [], hi => lo ≤ hi
  | lo, .span _ s t :: R, hi => lo ≤ s ∧ s ≤ t ∧ InRow t R hi
  | lo, .note _ _ :: R, hi => InRow lo R hi

section InRow

variable {R R' : List (Report K N)} {lo mid hi : ℕ}

lemma InRow.le (h : InRow lo R hi) : lo ≤ hi := by
  induction R generalizing lo with
  | nil => exact h
  | cons r R ih =>
      cases r with
      | span k s t =>
          have := ih h.2.2
          have := h.1
          have := h.2.1
          omega
      | note n p => exact ih h

lemma InRow.from_le {lo' : ℕ} (h : InRow lo R hi) (hlo : lo' ≤ lo) : InRow lo' R hi := by
  induction R with
  | nil => exact Nat.le_trans hlo h
  | cons r R ih =>
      cases r with
      | span k s t => exact ⟨Nat.le_trans hlo h.1, h.2⟩
      | note n p => exact ih h

lemma InRow.append (h : InRow lo R mid) (h' : InRow mid R' hi) : InRow lo (R ++ R') hi := by
  induction R generalizing lo with
  | nil => exact h'.from_le h
  | cons r R ih =>
      cases r with
      | span k s t => exact ⟨h.1, h.2.1, ih h.2.2⟩
      | note n p => exact ih h

/-- A stretch in a row lies inside of it. -/
lemma InRow.mem (h : InRow lo R hi) {k : K} {s t : ℕ} (hmem : .span k s t ∈ R) :
    lo ≤ s ∧ s ≤ t ∧ t ≤ hi := by
  induction R generalizing lo with
  | nil => simp at hmem
  | cons r R ih =>
      rcases List.mem_cons.mp hmem with rfl | hrest
      · exact ⟨h.1, h.2.1, h.2.2.le⟩
      · cases r with
        | span k' s' t' =>
            have := ih h.2.2 hrest
            have := h.1
            have := h.2.1
            omega
        | note n p => exact ih h hrest

end InRow

/-! ## Clipping -/

/-- What a buffer from `lo` to `hi` sees of a report.  A stretch that ends where the buffer starts
is seen once more, without elements, unless its kind is lazy. -/
def clip (lazy : K → Bool) (lo hi : ℕ) : Report K N → Option (Report K N)
  | .span k s t =>
      if s < hi ∧ (lo < t ∨ (lo = t ∧ lazy k = false)) then some (.span k (max s lo) (min t hi))
      else none
  | .note n p => if lo ≤ p ∧ p < hi then some (.note n p) else none

/-- Not seen by a buffer from `lo` on. -/
def Act.Before (lazy : K → Bool) (lo : ℕ) : Act K N → Prop
  | .mark _ _ => True
  | .flush k p => p < lo ∨ (p = lo ∧ lazy k = true)
  | .note _ p => p < lo

/-! ## Scanners -/

/-- A scanner.  The acts of a step have places relative to the element. -/
structure Scanner (σ α K N : Type) where
  step : σ → α → Option (σ × List (Act K N))
  /-- nothing may follow the element -/
  last : σ → α → Bool
  /-- the kind of stretch the state is in -/
  openKind : σ → Option K
  lazy : K → Bool

/-- How a scan comes out. -/
inductive Verdict (σ α : Type) where
  /-- all of it has been scanned, and more may follow -/
  | through (s : σ)
  /-- an element cannot be scanned -/
  | refused
  /-- the scan stopped behind a last element, and this is left -/
  | stopped (s : σ) (left : List α)

/-- The kind that is open after some acts; one must be closed before another is opened. -/
def track [DecidableEq K] : Option K → List (Act K N) → Option (Option K)
  | o, [] => some o
  | o, .mark k _ :: as => if o = none ∨ o = some k then track (some k) as else none
  | o, .flush k _ :: as => if o = some k then track none as else none
  | o, .note _ _ :: as => track o as

/-- **What a scanner may do on one element**, with `o` open before and `o'` after.  A lazy stretch
is marked on each of its elements, and ends behind the element or in front of the next. -/
inductive Shape [DecidableEq K] (lazy : K → Bool) :
    Option K → List (Act K N) → Option K → Prop where
  | plain {o o' : Option K} {acts : List (Act K N)} (closed : ∀ k ∈ o, lazy k = false)
      (plain : ∀ a ∈ acts, a.Plain lazy) (hold : track o acts = some o') : Shape lazy o acts o'
  | enter {o : Option K} {acts : List (Act K N)} {k : K} (closed : ∀ k ∈ o, lazy k = false)
      (plain : ∀ a ∈ acts, a.Plain lazy) (hold : track o acts = some none)
      (hk : lazy k = true) : Shape lazy o acts (some k)
  | marked {k : K} (hk : lazy k = true) : Shape lazy (some k) [.mark k 0] (some k)
  | flushed {k : K} (hk : lazy k = true) : Shape lazy (some k) [.flush k 0] none
  | through {k : K} {acts : List (Act K N)} (hk : lazy k = true)
      (notes : ∀ a ∈ acts, ∃ n, a = .note n 0) :
      Shape lazy (some k) (.mark k 0 :: .flush k 1 :: acts) none

namespace Scanner

variable (S : Scanner σ α K N)

/-- All acts on some elements, of which the first is at `p`. -/
def scan : σ → ℕ → List α → Option (σ × List (Act K N))
  | s, _, [] => some (s, [])
  | s, p, x :: xs =>
      if S.last s x && !xs.isEmpty then none
      else
        match S.step s x with
        | none => none
        | some (s', acts) =>
            (scan s' (p + 1) xs).map fun r => (r.1, acts.map (Act.shift p) ++ r.2)

/-- The marks at the start of a buffer. -/
def resume [DecidableEq K] (s : σ) (p : ℕ) : Marks K := fun k =>
  if S.openKind s = some k ∧ S.lazy k = false then some p else none

/-- Each step has one of the shapes. -/
def Lawful [DecidableEq K] : Prop :=
  ∀ s x s' acts, S.step s x = some (s', acts) →
    Shape S.lazy (S.openKind s) acts (S.openKind s')

variable {S}

lemma scan_cons {s t : σ} {p : ℕ} {x : α} {xs : List α} {A : List (Act K N)}
    (h : S.scan s p (x :: xs) = some (t, A)) :
    ∃ s' acts A', S.step s x = some (s', acts) ∧ S.scan s' (p + 1) xs = some (t, A') ∧
      A = acts.map (Act.shift p) ++ A' ∧ (S.last s x = true → xs = []) := by
  rw [scan] at h
  split at h
  case isTrue => simp at h
  case isFalse hlast =>
      split at h
      case h_1 => simp at h
      case h_2 s' acts hstep =>
          obtain ⟨⟨t', A'⟩, hscan, he⟩ := Option.map_eq_some_iff.mp h
          obtain ⟨rfl, rfl⟩ := Prod.mk.inj he
          refine ⟨s', acts, A', hstep, hscan, rfl, fun hl => ?_⟩
          simpa [hl] using hlast

lemma scan_cons_of {s s' : σ} {p : ℕ} {x : α} {xs : List α} {acts : List (Act K N)}
    (hstep : S.step s x = some (s', acts)) (hlast : S.last s x = true → xs = []) :
    S.scan s p (x :: xs) =
      (S.scan s' (p + 1) xs).map fun r => (r.1, acts.map (Act.shift p) ++ r.2) := by
  rw [scan, if_neg, hstep]
  intro h
  rw [Bool.and_eq_true] at h
  simp [hlast h.1] at h

/-- A scan of two parts is a scan of the first and then of the second. -/
lemma scan_append {s t : σ} {p : ℕ} {xs ys : List α} {A : List (Act K N)}
    (h : S.scan s p (xs ++ ys) = some (t, A)) :
    ∃ u B C, S.scan s p xs = some (u, B) ∧ S.scan u (p + xs.length) ys = some (t, C) ∧
      A = B ++ C := by
  induction xs generalizing s p A with
  | nil => exact ⟨s, [], A, rfl, h, rfl⟩
  | cons x xs ih =>
      obtain ⟨s', acts, A', hstep, hscan, rfl, hlast⟩ := scan_cons h
      obtain ⟨u, B, C, hB, hC, rfl⟩ := ih hscan
      refine ⟨u, acts.map (Act.shift p) ++ B, C, ?_, ?_, (List.append_assoc _ _ _).symm⟩
      · rw [scan_cons_of hstep fun hl => (List.append_eq_nil_iff.mp (hlast hl)).1, hB]
        rfl
      · rwa [List.length_cons, show p + (xs.length + 1) = p + 1 + xs.length by omega]

variable (S) in
/-- How the scan of some elements comes out. -/
def verdict : σ → List α → Verdict σ α
  | s, [] => .through s
  | s, x :: xs =>
      match S.step s x with
      | none => .refused
      | some (s', _) => if S.last s x then .stopped s' xs else verdict s' xs

/-- What comes behind a part only counts where the part has been gone through. -/
lemma verdict_append (s : σ) (xs ys : List α) : S.verdict s (xs ++ ys) =
    match S.verdict s xs with
    | .through u => S.verdict u ys
    | .refused => .refused
    | .stopped u left => .stopped u (left ++ ys) := by
  induction xs generalizing s with
  | nil => rfl
  | cons x xs ih =>
      rw [List.cons_append, verdict, verdict]
      cases S.step s x with
      | none => rfl
      | some r =>
          dsimp only
          by_cases hlast : S.last s x = true
          · rw [if_pos hlast, if_pos hlast]
          · rw [if_neg hlast, if_neg hlast, ih]

/-- What has been gone through has been scanned. -/
lemma scan_of_through {s t : σ} {xs : List α} (h : S.verdict s xs = .through t) (p : ℕ) :
    ∃ A, S.scan s p xs = some (t, A) := by
  induction xs generalizing s p with
  | nil => exact ⟨[], by rw [scan, (Verdict.through.inj h)]⟩
  | cons x xs ih =>
      rw [verdict] at h
      cases hstep : S.step s x with
      | none => simp [hstep] at h
      | some r =>
          rw [hstep] at h
          dsimp only at h
          split_ifs at h with hlast
          obtain ⟨A, hA⟩ := ih h (p + 1)
          exact ⟨_, by rw [scan_cons_of hstep fun hl => absurd hl hlast, hA]; rfl⟩

/-- A scan that stopped has scanned a part that ends with a last element. -/
lemma scan_of_stopped {s t : σ} {xs left : List α} (h : S.verdict s xs = .stopped t left)
    (p : ℕ) : ∃ ys x u B acts, xs = ys ++ x :: left ∧ S.scan s p ys = some (u, B) ∧
      S.last u x = true ∧ S.step u x = some (t, acts) ∧
      S.scan s p (ys ++ [x]) = some (t, B ++ acts.map (Act.shift (p + ys.length))) := by
  induction xs generalizing s p with
  | nil => simp [verdict] at h
  | cons x xs ih =>
      rw [verdict] at h
      cases hstep : S.step s x with
      | none => simp [hstep] at h
      | some r =>
          obtain ⟨s', acts⟩ := r
          rw [hstep] at h
          dsimp only at h
          by_cases hlast : S.last s x = true
          · rw [if_pos hlast] at h
            obtain ⟨rfl, rfl⟩ := Verdict.stopped.inj h
            refine ⟨[], x, s, [], acts, rfl, rfl, hlast, hstep, ?_⟩
            rw [List.nil_append, scan_cons_of hstep fun _ => rfl]
            simp [scan]
          · rw [if_neg hlast] at h
            obtain ⟨ys, x', u, B, acts', rfl, hys, hl, hstep', hscan⟩ := ih h (p + 1)
            refine ⟨x :: ys, x', u, acts.map (Act.shift p) ++ B, acts', rfl, ?_, hl, hstep', ?_⟩
            · rw [scan_cons_of hstep fun hl => absurd hl hlast, hys]
              rfl
            · rw [List.cons_append, scan_cons_of hstep fun hl => absurd hl hlast, hscan,
                List.length_cons, show p + (ys.length + 1) = p + 1 + ys.length by omega]
              simp

variable (S) in
/-- The scanner that goes on behind a last element. -/
def endless : Scanner σ α K N := { S with last := fun _ _ => false }

lemma scan_endless {s : σ} {p : ℕ} {xs : List α} {r : σ × List (Act K N)}
    (h : S.scan s p xs = some r) : S.endless.scan s p xs = some r := by
  induction xs generalizing s p r with
  | nil => exact h
  | cons x xs ih =>
      obtain ⟨t, A⟩ := r
      obtain ⟨s', acts, A', hstep, hscan, rfl, -⟩ := scan_cons h
      rw [scan_cons_of (S := S.endless) hstep (by simp [endless]), ih hscan]
      rfl

/-- Without a last element, the scans of two parts make a scan. -/
lemma endless_append {s u : σ} {p : ℕ} {xs ys : List α} {B : List (Act K N)}
    (hxs : S.endless.scan s p xs = some (u, B)) :
    S.endless.scan s p (xs ++ ys) =
      (S.endless.scan u (p + xs.length) ys).map fun r => (r.1, B ++ r.2) := by
  induction xs generalizing s p B with
  | nil =>
      obtain ⟨rfl, rfl⟩ := Prod.mk.inj (Option.some.inj hxs)
      simp
  | cons x xs ih =>
      obtain ⟨s', acts, A', hstep, hscan, rfl, -⟩ := scan_cons hxs
      rw [List.cons_append, scan_cons_of (S := S.endless) hstep (by simp [endless]), ih hscan,
        Option.map_map, List.length_cons, show p + (xs.length + 1) = p + 1 + xs.length by omega]
      congr 1
      funext r
      simp [Function.comp]

end Scanner

/-! ## Which marks are set -/

section Fits

variable {lazy : K → Bool} {o o' : Option K} {b p : ℕ} {M : Marks K}

/-- Only the open kind has a mark, from before `b`, and it does have one unless it is lazy. -/
structure Fits (lazy : K → Bool) (o : Option K) (b : ℕ) (M : Marks K) : Prop where
  only : ∀ k s, M k = some s → o = some k ∧ s < b
  eager : ∀ k, lazy k = false → o = some k → (M k).isSome = true

lemma Fits.none_of_ne (h : Fits lazy o b M) {k : K} (hk : o ≠ some k) : M k = none := by
  cases hM : M k with
  | none => rfl
  | some s => exact absurd (h.only k s hM).1 hk

lemma Fits.mono {b' : ℕ} (h : Fits lazy o b M) (hb : b ≤ b') : Fits lazy o b' M :=
  ⟨fun k s hs => ⟨(h.only k s hs).1, Nat.lt_of_lt_of_le (h.only k s hs).2 hb⟩, h.eager⟩

/-- A state that entered a lazy stretch has no mark yet. -/
lemma Fits.enter {k : K} (h : Fits lazy none b M) (hk : lazy k = true) :
    Fits lazy (some k) b M := by
  constructor
  · intro k' s hs
    rw [h.none_of_ne (by simp)] at hs
    simp at hs
  · intro k' hk' he
    obtain rfl := Option.some.inj he
    simp [hk] at hk'

variable [DecidableEq K]

lemma Fits.mark {k : K} (h : Fits lazy o b M) (ho : o = none ∨ o = some k) (hp : p < b) :
    Fits lazy (some k) b (act (N := N) M (.mark k p)).1 := by
  cases hM : M k with
  | none =>
      rw [act_mark_none hM]
      dsimp only
      constructor
      · intro k' s hs
        by_cases hk : k' = k
        · subst hk
          rw [Function.update_self, Option.some.injEq] at hs
          exact ⟨rfl, hs ▸ hp⟩
        · rw [Function.update_of_ne hk] at hs
          have := (h.only k' s hs).1
          rcases ho with rfl | rfl
          · simp at this
          · exact absurd (Option.some.inj this) (Ne.symm hk)
      · intro k' _ hk
        obtain rfl := Option.some.inj hk
        rw [Function.update_self, Option.isSome_some]
  | some s =>
      rw [act_mark_some hM]
      obtain ⟨rfl, -⟩ := h.only k s hM
      exact h

lemma Fits.flush {k : K} (h : Fits lazy o b M) (ho : o = some k) :
    Fits lazy none b (act (N := N) M (.flush k p)).1 := by
  have hothers : ∀ k', k' ≠ k → M k' = none := fun k' hk =>
    h.none_of_ne fun he => hk (Option.some.inj (he.symm.trans ho))
  cases hM : M k with
  | none =>
      rw [act_flush_none hM]
      dsimp only
      refine ⟨fun k' s hs => ?_, fun k' _ hk => by simp at hk⟩
      by_cases hk : k' = k
      · rw [hk, hM] at hs
        simp at hs
      · rw [hothers k' hk] at hs
        simp at hs
  | some s =>
      rw [act_flush_some hM]
      dsimp only
      refine ⟨fun k' s hs => ?_, fun k' _ hk => by simp at hk⟩
      by_cases hk : k' = k
      · rw [hk, Function.update_self] at hs
        simp at hs
      · rw [Function.update_of_ne hk, hothers k' hk] at hs
        simp at hs

lemma Fits.plain {acts : List (Act K N)} (h : Fits lazy o (p + 1) M)
    (hplain : ∀ a ∈ acts, a.Plain lazy) (ht : track o acts = some o') :
    Fits lazy o' (p + 1) (run M (acts.map (Act.shift p))).1 := by
  induction acts generalizing o M with
  | nil =>
      obtain rfl := Option.some.inj ht
      exact h
  | cons a acts ih =>
      have hplain' := fun a' ha' => hplain a' (List.mem_cons_of_mem _ ha')
      have ha := hplain a List.mem_cons_self
      rw [List.map_cons, run_cons]
      cases a with
      | mark k q =>
          simp only [track] at ht
          split at ht
          case isFalse => simp at ht
          case isTrue ho =>
              exact ih (h.mark ho (by rw [ha.2]; omega)) hplain' ht
      | flush k q =>
          simp only [track] at ht
          split at ht
          case isFalse => simp at ht
          case isTrue ho => exact ih (h.flush ho) hplain' ht
      | note n q => exact ih h hplain' ht

/-- Acts at `p` report stretches in a row, up to the mark that is set behind them. -/
lemma Fits.row_plain {acts : List (Act K N)} {c : ℕ} (h : Fits lazy o (p + 1) M)
    (hplain : ∀ a ∈ acts, a.Plain lazy) (ht : track o acts = some o') (hc : c ≤ p)
    (hM : AllMarks (fun _ s => c ≤ s) M) :
    ∃ c', c' ≤ p ∧ InRow c (run M (acts.map (Act.shift p))).2 c' ∧
      AllMarks (fun _ s => c' ≤ s) (run M (acts.map (Act.shift p))).1 := by
  induction acts generalizing o M c with
  | nil => exact ⟨c, hc, Nat.le_refl c, hM⟩
  | cons a acts ih =>
      have hplain' := fun a' ha' => hplain a' (List.mem_cons_of_mem _ ha')
      have ha := hplain a List.mem_cons_self
      rw [List.map_cons, run_cons]
      cases a with
      | mark k q =>
          simp only [track] at ht
          split at ht
          case isFalse => simp at ht
          case isTrue ho =>
              have hM' : AllMarks (fun _ s => c ≤ s) (act (N := N) M (.mark k (q + p))).1 :=
                hM.act fun _ => show c ≤ q + p by omega
              exact ih (h.mark ho (by rw [ha.2]; omega)) hplain' ht hc hM'
      | flush k q =>
          simp only [track] at ht
          split at ht
          case isFalse => simp at ht
          case isTrue ho =>
              have hf := h.flush (N := N) (p := q + p) ho
              have hnone : AllMarks (fun _ s => p ≤ s) (act (N := N) M (.flush k (q + p))).1 :=
                fun k' s hs => by simp [hf.none_of_ne (k := k') (by simp)] at hs
              obtain ⟨c', hc', hrow, hM'⟩ := ih hf hplain' ht (Nat.le_refl p) hnone
              refine ⟨c', hc', InRow.append ?_ hrow, hM'⟩
              cases hMk : M k with
              | none =>
                  rw [Act.shift, act_flush_none hMk]
                  exact hc
              | some s =>
                  have := (h.only k s hMk).2
                  rw [Act.shift, act_flush_some hMk, ha.2, Nat.zero_add]
                  exact ⟨hM k s hMk, by omega, Nat.le_refl p⟩
      | note n q => exact ih h hplain' ht hc hM

lemma run_notes {acts : List (Act K N)} (hnotes : ∀ a ∈ acts, ∃ n, a = .note n 0) (M : Marks K) :
    (run M (acts.map (Act.shift p))).1 = M := by
  induction acts with
  | nil => rfl
  | cons a acts ih =>
      obtain ⟨n, rfl⟩ := hnotes a List.mem_cons_self
      rw [List.map_cons, run_cons]
      exact ih fun a' ha' => hnotes a' (List.mem_cons_of_mem _ ha')

/-- The marks keep fitting. -/
lemma Fits.step {acts : List (Act K N)} (hs : Shape lazy o acts o') (h : Fits lazy o (p + 1) M) :
    Fits lazy o' (p + 1) (run M (acts.map (Act.shift p))).1 := by
  cases hs with
  | plain _ hplain hold => exact h.plain hplain hold
  | enter _ hplain hold hk => exact (h.plain hplain hold).enter hk
  | marked hk => exact h.mark (Or.inr rfl) (by simp)
  | flushed hk => exact h.flush rfl
  | through hk hnotes =>
      rw [List.map_cons, List.map_cons, run_cons, run_cons]
      simp only [run_notes hnotes]
      exact (h.mark (Or.inr rfl) (by simp)).flush rfl

lemma row_notes {acts : List (Act K N)} {c : ℕ} (hnotes : ∀ a ∈ acts, ∃ n, a = .note n 0)
    (M : Marks K) : InRow c (run M (acts.map (Act.shift p))).2 c := by
  induction acts with
  | nil => exact Nat.le_refl c
  | cons a acts ih =>
      obtain ⟨n, rfl⟩ := hnotes a List.mem_cons_self
      rw [List.map_cons, run_cons]
      exact ih fun a' ha' => hnotes a' (List.mem_cons_of_mem _ ha')

/-- A step reports stretches in a row, up to the mark that is set behind it. -/
lemma Fits.row_step {acts : List (Act K N)} {c : ℕ} (hs : Shape lazy o acts o')
    (h : Fits lazy o (p + 1) M) (hc : c ≤ p) (hM : AllMarks (fun _ s => c ≤ s) M) :
    ∃ c', c' ≤ p + 1 ∧ InRow c (run M (acts.map (Act.shift p))).2 c' ∧
      AllMarks (fun _ s => c' ≤ s) (run M (acts.map (Act.shift p))).1 := by
  -- the end of the open stretch
  have hflush : ∀ {k : K} {q : ℕ} {M : Marks K}, Fits lazy (some k) (p + 1) M → p ≤ q →
      AllMarks (fun _ s => c ≤ s) M → InRow c (act (N := N) M (.flush k q)).2 q ∧
        AllMarks (fun _ s => q ≤ s) (act (N := N) M (.flush k q)).1 := by
    intro k q M h hq hM
    refine ⟨?_, fun k' s hs => ?_⟩
    · cases hMk : M k with
      | none =>
          rw [act_flush_none hMk]
          exact Nat.le_trans hc hq
      | some s =>
          have := (h.only k s hMk).2
          rw [act_flush_some hMk]
          exact ⟨hM k s hMk, by omega, Nat.le_refl q⟩
    · rw [(h.flush (N := N) (p := q) rfl).none_of_ne (by simp)] at hs
      simp at hs
  cases hs with
  | plain _ hplain hold =>
      obtain ⟨c', hc', hrow⟩ := h.row_plain hplain hold hc hM
      exact ⟨c', Nat.le_succ_of_le hc', hrow⟩
  | enter _ hplain hold hk =>
      obtain ⟨c', hc', hrow⟩ := h.row_plain hplain hold hc hM
      exact ⟨c', Nat.le_succ_of_le hc', hrow⟩
  | @marked k hk =>
      exact ⟨c, Nat.le_succ_of_le hc, Nat.le_refl c,
        hM.act (a := Act.mark (N := N) k (0 + p)) fun _ => show c ≤ 0 + p by omega⟩
  | @flushed k hk =>
      obtain ⟨hrow, hM'⟩ := hflush h (show p ≤ 0 + p by omega) hM
      refine ⟨0 + p, by omega, ?_, hM'⟩
      rw [List.map_singleton, run_cons, run_nil, List.append_nil]
      exact hrow
  | @through k acts hk hnotes =>
      have hm : Fits lazy (some k) (p + 1) (act (N := N) M (.mark k (0 + p))).1 :=
        h.mark (Or.inr rfl) (by omega)
      have hMm : AllMarks (fun _ s => c ≤ s) (act (N := N) M (.mark k (0 + p))).1 :=
        hM.act fun _ => show c ≤ 0 + p by omega
      obtain ⟨hrow, hM'⟩ := hflush hm (show p ≤ 1 + p by omega) hMm
      rw [List.map_cons, List.map_cons, run_cons, run_cons, run_notes hnotes]
      exact ⟨1 + p, by omega, InRow.append (Nat.le_refl c) (hrow.append (row_notes hnotes _)), hM'⟩

end Fits

/-! ## A buffer against the whole stream -/

section Buffer

variable {lazy : K → Bool} {o o' : Option K} {p lo hi : ℕ} {M M' : Marks K}

/-- The marks of a buffer from `lo` on, next to the marks of the whole stream. -/
def Agree (lo : ℕ) (M M' : Marks K) : Prop := ∀ k, M' k = (M k).map (max · lo)

/-- The same at `p`; a lazy stretch has no mark yet where the buffer starts. -/
def Follows (lazy : K → Bool) (lo p : ℕ) (M M' : Marks K) : Prop :=
  ∀ k, M' k = if lazy k = true ∧ p = lo then none else (M k).map (max · lo)

lemma Agree.follows (h : Agree lo M M') (hp : p ≠ lo) : Follows lazy lo p M M' := by
  intro k
  rw [if_neg (fun hk => hp hk.2), h k]

lemma clip_note {n : N} (hlo : lo ≤ p) (hhi : p < hi) :
    [Report.note n p].filterMap (clip lazy lo hi) = [.note (K := K) n p] := by
  rw [List.filterMap_cons_some (b := .note n p), List.filterMap_nil]
  rw [clip, if_pos ⟨hlo, hhi⟩]

variable [DecidableEq K]

lemma Agree.update (h : Agree lo M M') (k : K) (s : Option ℕ) :
    Agree lo (Function.update M k s) (Function.update M' k (s.map (max · lo))) := by
  intro k'
  by_cases hk : k' = k
  · subst hk
    simp
  · rw [Function.update_of_ne hk, Function.update_of_ne hk, h k']

/-- Setting a mark behind the start of the buffer. -/
lemma Agree.mark {k : K} (h : Agree lo M M') (hp : lo ≤ p) :
    Agree lo (act (N := N) M (.mark k p)).1 (act (N := N) M' (.mark k p)).1 := by
  cases hM : M k with
  | none =>
      rw [act_mark_none hM, act_mark_none (show M' k = none by rw [h k, hM]; rfl)]
      have hu := h.update k (some p)
      rwa [Option.map_some, max_eq_left hp] at hu
  | some s =>
      rw [act_mark_some hM, act_mark_some (show M' k = some (max s lo) by rw [h k, hM]; rfl)]
      exact h

/-- A report of the buffer is the report of the stream, clipped. -/
lemma Agree.flush {k : K} (h : Agree lo M M') (hs : ∀ s, M k = some s → s < hi) (hp : p ≤ hi)
    (hlo : lo < p ∨ (lo = p ∧ lazy k = false)) :
    Agree lo (act (N := N) M (.flush k p)).1 (act (N := N) M' (.flush k p)).1 ∧
      (act (N := N) M' (.flush k p)).2 = (act M (.flush k p)).2.filterMap (clip lazy lo hi) := by
  cases hM : M k with
  | none =>
      rw [act_flush_none hM, act_flush_none (show M' k = none by rw [h k, hM]; rfl)]
      exact ⟨h, rfl⟩
  | some s =>
      rw [act_flush_some hM, act_flush_some (show M' k = some (max s lo) by rw [h k, hM]; rfl)]
      refine ⟨h.update k none, ?_⟩
      dsimp only
      rw [List.filterMap_cons_some (b := .span k (max s lo) p), List.filterMap_nil]
      rw [clip, if_pos ⟨hs s hM, hlo⟩, min_eq_left hp]

/-- Acts that are not about lazy stretches. -/
lemma Agree.plain {acts : List (Act K N)} (h : Agree lo M M') (hlo : lo ≤ p) (hhi : p < hi)
    (hs : AllMarks (fun _ s => s < p + 1) M) (hplain : ∀ a ∈ acts, a.Plain lazy) :
    Agree lo (run M (acts.map (Act.shift p))).1 (run M' (acts.map (Act.shift p))).1 ∧
      (run M' (acts.map (Act.shift p))).2 =
        (run M (acts.map (Act.shift p))).2.filterMap (clip lazy lo hi) := by
  induction acts generalizing M M' with
  | nil => exact ⟨h, rfl⟩
  | cons a acts ih =>
      have ha := hplain a List.mem_cons_self
      have hplace : a.place = 0 := by
        cases a with
        | mark k q => exact ha.2
        | flush k q => exact ha.2
        | note n q => exact ha
      have hs' : AllMarks (fun _ s => s < p + 1) (act M (a.shift p)).1 := hs.act fun _ => by
        rw [Act.place_shift, hplace]
        omega
      have hone : Agree lo (act M (a.shift p)).1 (act M' (a.shift p)).1 ∧
          (act M' (a.shift p)).2 = (act M (a.shift p)).2.filterMap (clip lazy lo hi) := by
        cases a with
        | mark k q => exact ⟨h.mark (by omega), rfl⟩
        | flush k q =>
            obtain ⟨hk, rfl⟩ := ha
            refine h.flush (fun s hM => ?_) (by omega) ?_
            · have := hs k s hM
              omega
            · rw [Nat.zero_add]
              rcases Nat.lt_or_eq_of_le hlo with h | h
              · exact Or.inl h
              · exact Or.inr ⟨h, hk⟩
        | note n q =>
            refine ⟨h, (clip_note (by omega) ?_).symm⟩
            rw [show q = 0 from ha]
            omega
      obtain ⟨h1, h2⟩ := ih hone.1 hs' fun a' ha' => hplain a' (List.mem_cons_of_mem _ ha')
      rw [List.map_cons, run_cons, run_cons, List.filterMap_append]
      exact ⟨h1, by rw [h2, hone.2]⟩

lemma run_notes_reports {acts : List (Act K N)} (hnotes : ∀ a ∈ acts, ∃ n, a = .note n 0)
    (hlo : lo ≤ p) (hhi : p < hi) (M M' : Marks K) :
    (run M' (acts.map (Act.shift p))).2 =
      (run M (acts.map (Act.shift p))).2.filterMap (clip lazy lo hi) := by
  induction acts with
  | nil => rfl
  | cons a acts ih =>
      obtain ⟨n, rfl⟩ := hnotes a List.mem_cons_self
      have ih' := ih fun a' ha' => hnotes a' (List.mem_cons_of_mem _ ha')
      rw [List.map_cons, run_cons, run_cons, List.filterMap_append, Act.shift, Nat.zero_add]
      simp only [act, clip_note hlo hhi, ih']

/-- A lazy stretch that is marked at `p` has its mark in the buffer too. -/
lemma Follows.mark {k : K} (h : Follows lazy lo p M M') (hfit : Fits lazy (some k) p M)
    (hlo : lo ≤ p) :
    Agree lo (act (N := N) M (.mark k p)).1 (act (N := N) M' (.mark k p)).1 := by
  by_cases hp : p = lo
  · subst hp
    -- the marks of the stream are behind `p`, so their places in the buffer are `p`
    have hothers : ∀ k', k' ≠ k → M k' = none ∧ M' k' = none := by
      intro k' hk
      have hM : M k' = none := hfit.none_of_ne fun he => hk (Option.some.inj he).symm
      refine ⟨hM, ?_⟩
      rw [h k', hM]
      split <;> rfl
    intro k'
    by_cases hk : k' = k
    · subst hk
      cases hM : M k' with
      | none =>
          have hM' : M' k' = none := by rw [h k', hM]; split <;> rfl
          rw [act_mark_none hM, act_mark_none hM']
          simp
      | some s =>
          have hs := (hfit.only k' s hM).2
          rw [act_mark_some hM]
          cases hM' : M' k' with
          | none =>
              rw [act_mark_none hM']
              simp only [Function.update_self, hM, Option.map_some, Option.some.injEq]
              omega
          | some s' =>
              rw [act_mark_some hM']
              have := h k'
              rw [hM, hM'] at this
              split at this
              · simp at this
              · simp only [hM, hM', this]
    · obtain ⟨h1, h2⟩ := hothers k' hk
      cases hM : M k <;> cases hM' : M' k <;>
        simp only [act, hM, hM', Option.isSome_none, Option.isSome_some, if_true,
          Bool.false_eq_true, if_false, Function.update_of_ne hk, h1, h2, Option.map_none]
  · have hagree : Agree lo M M' := fun k' => by rw [h k', if_neg fun hk => hp hk.2]
    exact hagree.mark hlo

/-- **One element of a buffer.**  What it reports is what the stream reports, clipped. -/
lemma Follows.step {acts : List (Act K N)} (h : Follows lazy lo p M M') (hfit : Fits lazy o p M)
    (hshape : Shape lazy o acts o') (hlo : lo ≤ p) (hhi : p < hi) :
    Follows lazy lo (p + 1) (run M (acts.map (Act.shift p))).1
        (run M' (acts.map (Act.shift p))).1 ∧
      (run M' (acts.map (Act.shift p))).2 =
        (run M (acts.map (Act.shift p))).2.filterMap (clip lazy lo hi) := by
  have hlt : AllMarks (fun _ s => s < p + 1) M := fun k s hs => by
    have := (hfit.only k s hs).2
    omega
  -- where no lazy stretch is open, the two agree
  have hclosed : (∀ k ∈ o, lazy k = false) → Agree lo M M' := by
    intro hcl k
    rw [h k]
    split
    case isTrue hk =>
        rw [hfit.none_of_ne fun he => by simp [hcl k he] at hk]
        rfl
    case isFalse => rfl
  cases hshape with
  | plain hcl hplain _ | enter hcl hplain _ _ =>
      obtain ⟨h1, h2⟩ := (hclosed hcl).plain hlo hhi hlt hplain
      exact ⟨h1.follows (by omega), h2⟩
  | marked hk =>
      simp only [List.map_cons, List.map_nil, run_cons, run_nil, Act.shift, Nat.zero_add]
      exact ⟨(h.mark hfit hlo).follows (by omega), rfl⟩
  | @flushed k hk =>
      simp only [List.map_cons, List.map_nil, run_cons, run_nil, Act.shift, Nat.zero_add,
        List.append_nil]
      by_cases hp : p = lo
      · -- the stretch ends where the buffer starts
        subst hp
        have hM' : ∀ k', M' k' = none := by
          intro k'
          rw [h k']
          split
          case isTrue => rfl
          case isFalse hne =>
              rw [hfit.none_of_ne (k := k') fun he => hne ⟨by rwa [← Option.some.inj he], rfl⟩]
              rfl
        rw [act_flush_none (hM' k)]
        have hnone : ∀ k', (act (N := N) M (.flush k p)).1 k' = none := fun k' =>
          (hfit.flush rfl).none_of_ne (by simp)
        refine ⟨Agree.follows (fun k' => by rw [hnone k']; exact hM' k') (by omega), ?_⟩
        cases hM : M k with
        | none =>
            rw [act_flush_none hM]
            rfl
        | some s =>
            rw [act_flush_some hM, List.filterMap_cons_none, List.filterMap_nil]
            rw [clip, if_neg]
            simp [hk]
      · have hagree : Agree lo M M' := fun k' => by rw [h k', if_neg fun hk => hp hk.2]
        obtain ⟨h1, h2⟩ := @Agree.flush _ N lazy p _ hi _ _ _ k hagree
          (fun s hM => by have := hlt k s hM; omega) (Nat.le_of_lt hhi) (Or.inl (by omega))
        exact ⟨h1.follows (by omega), h2⟩
  | @through k acts hk hnotes =>
      simp only [List.map_cons, run_cons, Act.shift, Nat.zero_add, Nat.add_comm 1 p]
      have hagree := h.mark (N := N) hfit hlo
      have hlt' : AllMarks (fun _ s => s < p + 1) (act (N := N) M (.mark k p)).1 :=
        hlt.act fun _ => show p < p + 1 by omega
      obtain ⟨h1, h2⟩ := @Agree.flush _ N lazy (p + 1) _ hi _ _ _ k hagree
        (fun s hM => by have := hlt' k s hM; omega) (by omega) (Or.inl (by omega))
      refine ⟨?_, ?_⟩
      · rw [run_notes hnotes, run_notes hnotes]
        exact h1.follows (by omega)
      · rw [List.filterMap_append, List.filterMap_append, ← h2,
          run_notes_reports hnotes hlo hhi
            (act (N := N) (act (N := N) M (.mark k p)).1 (.flush k (p + 1))).1]
        rfl

/-- What was reported before the buffer is not seen in it. -/
lemma clip_before {acts : List (Act K N)} (hacts : ∀ a ∈ acts, a.Before lazy lo) (M : Marks K) :
    (run M acts).2.filterMap (clip lazy lo hi) = [] := by
  induction acts generalizing M with
  | nil => rfl
  | cons a acts ih =>
      have ha := hacts a List.mem_cons_self
      rw [run_cons, List.filterMap_append, ih fun a' ha' => hacts a' (List.mem_cons_of_mem _ ha'),
        List.append_nil]
      cases a with
      | mark k q => rfl
      | flush k q =>
          cases hM : M k with
          | none =>
              rw [act_flush_none hM]
              rfl
          | some s =>
              rw [act_flush_some hM, List.filterMap_cons_none, List.filterMap_nil]
              rw [clip, if_neg]
              rintro ⟨-, h | ⟨h, hk⟩⟩
              · rcases ha with ha | ⟨ha, -⟩ <;> omega
              · rcases ha with ha | ⟨-, hk'⟩
                · omega
                · simp [hk] at hk'
      | note n q =>
          have hq : q < lo := ha
          simp only [act]
          rw [List.filterMap_cons_none, List.filterMap_nil]
          rw [clip, if_neg (by omega)]

/-- Behind the buffer, no stretch that starts there is seen in it. -/
lemma clip_later {acts : List (Act K N)} (hacts : ∀ a ∈ acts, hi ≤ a.place)
    (hM : AllMarks (fun _ s => hi ≤ s) M) : (run M acts).2.filterMap (clip lazy lo hi) = [] := by
  induction acts generalizing M with
  | nil => rfl
  | cons a acts ih =>
      have ha := hacts a List.mem_cons_self
      rw [run_cons, List.filterMap_append, ih (fun a' ha' => hacts a' (List.mem_cons_of_mem _ ha'))
        (hM.act fun _ => ha), List.append_nil]
      cases a with
      | mark k q => rfl
      | flush k q =>
          cases hMk : M k with
          | none =>
              rw [act_flush_none hMk]
              rfl
          | some s =>
              have : hi ≤ s := hM k s hMk
              rw [act_flush_some hMk, List.filterMap_cons_none, List.filterMap_nil]
              rw [clip, if_neg (by omega)]
      | note n q =>
          have hq : hi ≤ q := ha
          simp only [act]
          rw [List.filterMap_cons_none, List.filterMap_nil]
          rw [clip, if_neg (by omega)]

/-- The one stretch that is open at the end of the buffer is seen up to there. -/
lemma clip_open {acts : List (Act K N)} {k : K} {s : ℕ} (hlohi : lo < hi)
    (hacts : ∀ a ∈ acts, hi ≤ a.place) (hk : M k = some s) (hs : s < hi)
    (hothers : AllMarks (fun k' s' => k' ≠ k → hi ≤ s') M) (hflush : ∃ p, .flush k p ∈ acts) :
    (run M acts).2.filterMap (clip lazy lo hi) = [.span k (max s lo) hi] := by
  induction acts generalizing M with
  | nil =>
      obtain ⟨p, hp⟩ := hflush
      simp at hp
  | cons a acts ih =>
      have ha := hacts a List.mem_cons_self
      have hacts' := fun a' ha' => hacts a' (List.mem_cons_of_mem a ha')
      rw [run_cons, List.filterMap_append]
      by_cases hself : ∃ p, a = .flush k p
      · obtain ⟨p, rfl⟩ := hself
        have hle : hi ≤ p := ha
        rw [act_flush_some hk]
        dsimp only
        rw [clip_later hacts' ?_, List.append_nil,
          List.filterMap_cons_some (b := .span k (max s lo) hi), List.filterMap_nil]
        · rw [clip, if_pos ⟨hs, Or.inl (by omega)⟩, min_eq_right hle]
        · intro k' s' hs'
          by_cases hk' : k' = k
          · rw [hk', Function.update_self] at hs'
            simp at hs'
          · rw [Function.update_of_ne hk'] at hs'
            exact hothers k' s' hs' hk'
      · -- the act leaves the mark where it is, and reports nothing from inside the buffer
        have hflush' : ∃ p, .flush k p ∈ acts := by
          obtain ⟨p, hp⟩ := hflush
          rcases List.mem_cons.mp hp with rfl | hp
          · exact absurd ⟨p, rfl⟩ hself
          · exact ⟨p, hp⟩
        have hkeep : (act M a).1 k = some s ∧ (act M a).2.filterMap (clip lazy lo hi) = [] := by
          cases a with
          | mark k' q =>
              refine ⟨?_, rfl⟩
              cases hM' : M k' with
              | none =>
                  have hne : k ≠ k' := fun he => by simp [← he, hk] at hM'
                  rw [act_mark_none hM']
                  simp only [Function.update_of_ne hne, hk]
              | some s' =>
                  rw [act_mark_some hM']
                  exact hk
          | flush k' q =>
              have hne : k ≠ k' := fun he => hself ⟨q, by rw [he]⟩
              cases hM' : M k' with
              | none =>
                  rw [act_flush_none hM']
                  exact ⟨hk, rfl⟩
              | some s' =>
                  have := hothers k' s' hM' (Ne.symm hne)
                  rw [act_flush_some hM']
                  refine ⟨by simp only [Function.update_of_ne hne, hk], ?_⟩
                  rw [List.filterMap_cons_none, List.filterMap_nil]
                  rw [clip, if_neg (by omega)]
          | note n q =>
              have hq : hi ≤ q := ha
              refine ⟨hk, ?_⟩
              simp only [act]
              rw [List.filterMap_cons_none, List.filterMap_nil]
              rw [clip, if_neg (by omega)]
        have hothers' := hothers.act (a := a) fun _ _ => ha
        rw [hkeep.2, List.nil_append]
        exact ih hacts' hkeep.1 hothers' hflush'

end Buffer

namespace Scanner

variable [DecidableEq K] {S : Scanner σ α K N}

lemma Shape.places {lazy : K → Bool} {o o' : Option K} {acts : List (Act K N)}
    (h : Shape lazy o acts o') {lo p : ℕ} (hp : p < lo) :
    ∀ a ∈ acts.map (Act.shift p), p ≤ a.place ∧ a.Before lazy lo := by
  have hplain : ∀ a : Act K N, a.Plain lazy → p ≤ (a.shift p).place ∧
      (a.shift p).Before lazy lo := by
    intro a ha
    cases a with
    | mark k q => exact ⟨Nat.le_add_left _ _, trivial⟩
    | flush k q =>
        obtain ⟨-, rfl⟩ := ha
        exact ⟨Nat.le_add_left _ _, Or.inl (by omega)⟩
    | note n q =>
        obtain rfl : q = 0 := ha
        exact ⟨Nat.le_add_left _ _, show 0 + p < lo by omega⟩
  intro a' ha'
  obtain ⟨a, ha, rfl⟩ := List.mem_map.mp ha'
  cases h with
  | plain _ hall _ | enter _ hall _ _ => exact hplain a (hall a ha)
  | marked hk =>
      rw [List.mem_singleton.mp ha]
      exact ⟨Nat.le_add_left _ _, trivial⟩
  | flushed hk =>
      rw [List.mem_singleton.mp ha]
      exact ⟨Nat.le_add_left _ _, Or.inl (by omega)⟩
  | through hk hnotes =>
      rcases List.mem_cons.mp ha with rfl | ha
      · exact ⟨Nat.le_add_left _ _, trivial⟩
      rcases List.mem_cons.mp ha with rfl | ha
      · refine ⟨Nat.le_add_left _ _, ?_⟩
        rcases Nat.lt_or_eq_of_le (show 1 + p ≤ lo by omega) with h | h
        · exact Or.inl h
        · exact Or.inr ⟨h, hk⟩
      · obtain ⟨n, rfl⟩ := hnotes a ha
        exact ⟨Nat.le_add_left _ _, show 0 + p < lo by omega⟩

/-- What is done on some elements is done at their places. -/
lemma scan_places (hlaw : S.Lawful) {s t : σ} {p : ℕ} {xs : List α} {A : List (Act K N)}
    (h : S.scan s p xs = some (t, A)) :
    ∀ a ∈ A, p ≤ a.place ∧ a.Before S.lazy (p + xs.length) := by
  induction xs generalizing s p A with
  | nil =>
      obtain ⟨-, rfl⟩ := Prod.mk.inj (Option.some.inj h)
      simp
  | cons x xs ih =>
      obtain ⟨s', acts, A', hstep, hscan, rfl, -⟩ := scan_cons h
      intro a ha
      rw [List.length_cons]
      rcases List.mem_append.mp ha with ha | ha
      · exact Shape.places (hlaw s x s' acts hstep) (by omega) a ha
      · obtain ⟨h1, h2⟩ := ih hscan a ha
        rw [show p + 1 + xs.length = p + (xs.length + 1) by omega] at h2
        exact ⟨by omega, h2⟩

lemma scan_fits (hlaw : S.Lawful) {s t : σ} {p : ℕ} {xs : List α} {A : List (Act K N)}
    {M : Marks K} (h : S.scan s p xs = some (t, A)) (hfit : Fits S.lazy (S.openKind s) p M) :
    Fits S.lazy (S.openKind t) (p + xs.length) (run M A).1 := by
  induction xs generalizing s p A M with
  | nil =>
      obtain ⟨rfl, rfl⟩ := Prod.mk.inj (Option.some.inj h)
      exact hfit
  | cons x xs ih =>
      obtain ⟨s', acts, A', hstep, hscan, rfl, -⟩ := scan_cons h
      rw [run_append, List.length_cons, show p + (xs.length + 1) = p + 1 + xs.length by omega]
      exact ih hscan ((hfit.mono (Nat.le_succ p)).step (hlaw s x s' acts hstep))

/-- What is reported of some elements comes in a row, up to the mark that is set behind them. -/
lemma scan_row (hlaw : S.Lawful) {s t : σ} {p c : ℕ} {xs : List α} {A : List (Act K N)}
    {M : Marks K} (h : S.scan s p xs = some (t, A)) (hfit : Fits S.lazy (S.openKind s) p M)
    (hc : c ≤ p) (hM : AllMarks (fun _ s => c ≤ s) M) :
    ∃ c', c' ≤ p + xs.length ∧ InRow c (run M A).2 c' ∧
      AllMarks (fun _ s => c' ≤ s) (run M A).1 := by
  induction xs generalizing s p c A M with
  | nil =>
      obtain ⟨rfl, rfl⟩ := Prod.mk.inj (Option.some.inj h)
      exact ⟨c, hc, Nat.le_refl c, hM⟩
  | cons x xs ih =>
      obtain ⟨s', acts, A', hstep, hscan, rfl, -⟩ := scan_cons h
      have hfit' := hfit.mono (Nat.le_succ p)
      obtain ⟨c', hc', hrow, hM'⟩ := hfit'.row_step (hlaw s x s' acts hstep) hc hM
      obtain ⟨c'', hc'', hrow', hM''⟩ := ih hscan (hfit'.step (hlaw s x s' acts hstep)) hc' hM'
      rw [run_append, List.length_cons]
      exact ⟨c'', by omega, hrow.append hrow', hM''⟩

/-- What holds of the reports of every step holds of all reports. -/
lemma scan_reports (hlaw : S.Lawful) {Q : Report K N → Prop}
    (hQ : ∀ s x s' acts p M, S.step s x = some (s', acts) → Fits S.lazy (S.openKind s) p M →
      ∀ r ∈ (run M (acts.map (Act.shift p))).2, Q r)
    {s t : σ} {p : ℕ} {xs : List α} {A : List (Act K N)} {M : Marks K}
    (h : S.scan s p xs = some (t, A)) (hfit : Fits S.lazy (S.openKind s) p M) :
    ∀ r ∈ (run M A).2, Q r := by
  induction xs generalizing s p A M with
  | nil =>
      obtain ⟨-, rfl⟩ := Prod.mk.inj (Option.some.inj h)
      simp
  | cons x xs ih =>
      obtain ⟨s', acts, A', hstep, hscan, rfl, -⟩ := scan_cons h
      have hfit' := (hfit.mono (Nat.le_succ p)).step (hlaw s x s' acts hstep)
      intro r hr
      rw [run_append] at hr
      exact (List.mem_append.mp hr).elim (hQ s x s' acts p M hstep hfit r) (ih hscan hfit' r)

/-- A lazy stretch is not empty. -/
lemma Shape.lazy_nonempty {lazy : K → Bool} {o o' : Option K} {acts : List (Act K N)} {p : ℕ}
    {M : Marks K} (h : Shape lazy o acts o') (hfit : Fits lazy o p M) {k : K} {s t : ℕ}
    (hk : lazy k = true) (hmem : .span k s t ∈ (run M (acts.map (Act.shift p))).2) : s < t := by
  have hstart := run_starts (Q := fun k s => s < p ∨ .mark k s ∈ acts.map (Act.shift p))
    (fun k s hs => Or.inl (hfit.only k s hs).2) (fun k s hs => Or.inr hs) k s t hmem
  obtain ⟨a, ha, hflush⟩ := List.mem_map.mp (run_stops k s t hmem)
  have hplain : a.Plain lazy → False := by
    intro hplain
    cases a with
    | flush k' q =>
        obtain ⟨rfl, -⟩ := Act.flush.inj hflush
        simp [Act.Plain, hk] at hplain
    | _ => simp [Act.shift] at hflush
  cases h with
  | plain _ hall _ | enter _ hall _ _ => exact (hplain (hall a ha)).elim
  | marked _ =>
      rw [List.mem_singleton.mp ha] at hflush
      simp [Act.shift] at hflush
  | flushed _ =>
      rw [List.mem_singleton.mp ha] at hflush
      obtain ⟨rfl, rfl⟩ := Act.flush.inj hflush
      simpa [Act.shift] using hstart
  | through _ hnotes =>
      rcases List.mem_cons.mp ha with rfl | ha
      · simp [Act.shift] at hflush
      rcases List.mem_cons.mp ha with rfl | ha
      · obtain ⟨rfl, rfl⟩ := Act.flush.inj hflush
        rcases hstart with hlt | hmark
        · omega
        · obtain ⟨b, hb, hbs⟩ := List.mem_map.mp hmark
          rcases List.mem_cons.mp hb with rfl | hb
          · obtain ⟨-, rfl⟩ := Act.mark.inj hbs
            omega
          rcases List.mem_cons.mp hb with rfl | hb
          · simp [Act.shift] at hbs
          · obtain ⟨n, rfl⟩ := hnotes b hb
            simp [Act.shift] at hbs
      · obtain ⟨n, rfl⟩ := hnotes a ha
        simp [Act.shift] at hflush

/-- A lazy stretch does not start with the first element. -/
lemma scan_lazy_later (hlaw : S.Lawful) {s t : σ} {p : ℕ} {xs : List α} {A : List (Act K N)}
    (hopen : S.openKind s = none) (h : S.scan s p xs = some (t, A)) :
    ∀ k q, .mark k q ∈ A → S.lazy k = true → p < q := by
  cases xs with
  | nil =>
      obtain ⟨-, rfl⟩ := Prod.mk.inj (Option.some.inj h)
      simp
  | cons x xs =>
      obtain ⟨s', acts, A', hstep, hscan, rfl, -⟩ := scan_cons h
      intro k q hmem hk
      rcases List.mem_append.mp hmem with hmem | hmem
      · obtain ⟨a, ha, hshift⟩ := List.mem_map.mp hmem
        have hplain : a.Plain S.lazy := by
          have hshape := hlaw s x s' acts hstep
          rw [hopen] at hshape
          generalize S.openKind s' = o' at hshape
          cases hshape with
          | plain _ hall _ | enter _ hall _ _ => exact hall a ha
        cases a with
        | mark k' q' =>
            obtain ⟨rfl, -⟩ := Act.mark.inj hshift
            simp [Act.Plain, hk] at hplain
        | _ => simp [Act.shift] at hshift
      · exact (scan_places hlaw hscan _ hmem).1

lemma scan_follows (hlaw : S.Lawful) {s t : σ} {p lo hi : ℕ} {xs : List α} {A : List (Act K N)}
    {M M' : Marks K} (h : S.scan s p xs = some (t, A)) (hfit : Fits S.lazy (S.openKind s) p M)
    (hfol : Follows S.lazy lo p M M') (hlo : lo ≤ p) (hhi : p + xs.length ≤ hi) :
    Follows S.lazy lo (p + xs.length) (run M A).1 (run M' A).1 ∧
      (run M' A).2 = (run M A).2.filterMap (clip S.lazy lo hi) := by
  induction xs generalizing s p A M M' with
  | nil =>
      obtain ⟨rfl, rfl⟩ := Prod.mk.inj (Option.some.inj h)
      exact ⟨hfol, rfl⟩
  | cons x xs ih =>
      obtain ⟨s', acts, A', hstep, hscan, rfl, -⟩ := scan_cons h
      rw [List.length_cons] at hhi ⊢
      have hshape := hlaw s x s' acts hstep
      obtain ⟨h1, h2⟩ := hfol.step hfit hshape hlo (show p < hi by omega)
      obtain ⟨h3, h4⟩ := ih hscan ((hfit.mono (Nat.le_succ p)).step hshape) h1 (by omega) (by omega)
      rw [run_append, run_append, List.filterMap_append, ← h2, ← h4,
        show p + (xs.length + 1) = p + 1 + xs.length by omega]
      exact ⟨h3, rfl⟩

/-- The marks at the start of a buffer follow those of the stream. -/
lemma resume_follows {s : σ} {lo : ℕ} {M : Marks K} (hfit : Fits S.lazy (S.openKind s) lo M) :
    Follows S.lazy lo lo M (S.resume s lo) := by
  intro k
  rw [resume]
  cases hk : S.lazy k with
  | true => simp
  | false =>
      simp only [Bool.false_eq_true, if_false, and_true]
      by_cases ho : S.openKind s = some k
      · obtain ⟨q, hq⟩ := Option.isSome_iff_exists.mp (hfit.eager k hk ho)
        have := (hfit.only k q hq).2
        rw [if_pos ho, hq, Option.map_some, max_eq_right (Nat.le_of_lt this)]
      · rw [if_neg ho, hfit.none_of_ne ho]
        rfl

lemma flushes_none {M : Marks K} (hM : ∀ k, M k = none) (kinds : List K) (p : ℕ) :
    (run (N := N) M (flushes kinds p)).2 = [] := by
  induction kinds with
  | nil => rfl
  | cons k kinds ih =>
      rw [flushes, List.map_cons, run_cons, act_flush_none (hM k)]
      exact ih

/-- Flushing all kinds reports the one that is open. -/
lemma flushes_one {M : Marks K} {k : K} {s p : ℕ} {kinds : List K} (hk : M k = some s)
    (hothers : ∀ k', k' ≠ k → M k' = none) (hmem : k ∈ kinds) :
    (run (N := N) M (flushes kinds p)).2 = [.span k s p] := by
  induction kinds with
  | nil => simp at hmem
  | cons k' kinds ih =>
      rw [flushes, List.map_cons, run_cons]
      by_cases he : k' = k
      · subst he
        have hnone : ∀ k'', Function.update M k' none k'' = none := fun k'' => by
          by_cases hk' : k'' = k'
          · rw [hk', Function.update_self]
          · rw [Function.update_of_ne hk', hothers k'' hk']
        rw [act_flush_some hk]
        dsimp only
        rw [← flushes, flushes_none hnone, List.append_nil]
      · rw [act_flush_none (hothers k' he)]
        exact ih ((List.mem_cons.mp hmem).resolve_left (Ne.symm he))

/-- The flush at the end of the buffer reports what the stream reports of the open stretch. -/
lemma flushes_eq_clip {lazy : K → Bool} {o : Option K} {lo hi : ℕ} {M M' : Marks K}
    {kinds : List K} (hkinds : ∀ k, k ∈ kinds) (hlohi : lo < hi) (hagree : Agree lo M M')
    (hfit : Fits lazy o hi M) {acts : List (Act K N)} (hacts : ∀ a ∈ acts, hi ≤ a.place)
    (hflush : ∀ k, ∃ p, .flush k p ∈ acts) :
    (run M' (flushes kinds hi)).2 = (run M acts).2.filterMap (clip lazy lo hi) := by
  by_cases hopen : ∃ k s, M k = some s
  · obtain ⟨k, s, hk⟩ := hopen
    obtain ⟨ho, hs⟩ := hfit.only k s hk
    have hothers : ∀ k', k' ≠ k → M k' = none := fun k' hne =>
      hfit.none_of_ne fun he => hne (Option.some.inj (he.symm.trans ho))
    rw [flushes_one (k := k) (s := max s lo) (by rw [hagree k, hk]; rfl)
        (fun k' hne => by rw [hagree k', hothers k' hne]; rfl) (hkinds k),
      clip_open hlohi hacts hk hs (fun k' s' hs' hne => by simp [hothers k' hne] at hs') (hflush k)]
  · have hnone : ∀ k, M k = none := fun k => by
      cases hk : M k with
      | none => rfl
      | some s => exact absurd ⟨k, s, hk⟩ hopen
    rw [flushes_none (fun k => by rw [hagree k, hnone k]; rfl),
      clip_later hacts fun k s hs => by simp [hnone k] at hs]

/-- **What is reported of a stream** are stretches one behind the other. -/
theorem reports_row (hlaw : S.Lawful) {kinds : List K} (hkinds : ∀ k, k ∈ kinds) {s t : σ}
    (hopen : S.openKind s = none) {xs : List α} {A : List (Act K N)}
    (h : S.scan s 0 xs = some (t, A)) :
    InRow 0 (run (fun _ => none) (A ++ flushes kinds xs.length)).2 xs.length := by
  have hfit0 : Fits S.lazy (S.openKind s) 0 (fun _ : K => none) :=
    ⟨fun k q hq => by simp at hq, fun k _ hk => by simp [hopen] at hk⟩
  obtain ⟨c, hc, hrow, hM⟩ := scan_row hlaw h hfit0 (Nat.le_refl 0) fun k s hs => by simp at hs
  have hfit := scan_fits hlaw h hfit0
  rw [Nat.zero_add] at hc hfit
  rw [run_append]
  refine hrow.append ?_
  by_cases hset : ∃ k q, (run (fun _ => none) A).1 k = some q
  · obtain ⟨k, q, hk⟩ := hset
    obtain ⟨ho, hq⟩ := hfit.only k q hk
    rw [flushes_one hk (fun k' hne => hfit.none_of_ne fun he =>
      hne (Option.some.inj (he.symm.trans ho))) (hkinds k)]
    exact ⟨hM k q hk, Nat.le_of_lt hq, Nat.le_refl _⟩
  · have hnone : ∀ k, (run (fun _ => none) A).1 k = none := fun k => by
      cases hk : (run (fun _ => none) A).1 k with
      | none => rfl
      | some q => exact absurd ⟨k, q, hk⟩ hset
    rw [flushes_none hnone]
    exact hc

/-- **A buffer in the middle of a stream.**  The stream is scanned from its start to its end, with
all kinds flushed there.  A buffer starts with the marks of its state and ends with a flush of its
own.  What it reports is what the stream reports, clipped to the buffer. -/
theorem reports_buffer (hlaw : S.Lawful) {kinds : List K} (hkinds : ∀ k, k ∈ kinds) {s t : σ}
    (hopen : S.openKind s = none) {xs ys zs : List α} (hys : ys ≠ []) {A : List (Act K N)}
    (h : S.scan s 0 (xs ++ ys ++ zs) = some (t, A)) :
    ∃ u v B C, S.scan s 0 xs = some (u, B) ∧ S.scan u xs.length ys = some (v, C) ∧
      (run (S.resume u xs.length) (C ++ flushes kinds (xs.length + ys.length))).2 =
        (run (fun _ => none) (A ++ flushes kinds (xs ++ ys ++ zs).length)).2.filterMap
          (clip S.lazy xs.length (xs.length + ys.length)) := by
  obtain ⟨v, BC, D, hBC, hD, rfl⟩ := scan_append h
  obtain ⟨u, B, C, hB, hC, rfl⟩ := scan_append hBC
  rw [Nat.zero_add] at hC hD
  refine ⟨u, v, B, C, hB, hC, ?_⟩
  have hpos := List.length_pos_of_ne_nil hys
  have hfit0 : Fits S.lazy (S.openKind s) 0 (fun _ : K => none) :=
    ⟨fun k q hq => by simp at hq, fun k _ hk => by simp [hopen] at hk⟩
  have hfit1 := scan_fits hlaw hB hfit0
  rw [Nat.zero_add] at hfit1
  have hfit2 := scan_fits hlaw hC hfit1
  obtain ⟨hfol, hrep⟩ := scan_follows hlaw hC hfit1 (resume_follows hfit1) (Nat.le_refl _)
    (Nat.le_refl _)
  -- the part behind the buffer, with the flush at the end of the stream
  have hlater : ∀ a ∈ D ++ flushes kinds (xs ++ ys ++ zs).length,
      xs.length + ys.length ≤ a.place := by
    intro a ha
    rcases List.mem_append.mp ha with ha | ha
    · have := (scan_places hlaw hD a ha).1
      rwa [List.length_append] at this
    · obtain ⟨k, -, rfl⟩ := List.mem_map.mp ha
      simp only [Act.place, List.length_append]
      omega
  have hbefore : (run (fun _ : K => none) B).2.filterMap
      (clip S.lazy xs.length (xs.length + ys.length)) = [] :=
    clip_before (fun a ha => by
      have := (scan_places hlaw hB a ha).2
      rwa [Nat.zero_add] at this) _
  have hagree : Agree xs.length (run (run (fun _ => none) B).1 C).1
      (run (S.resume u xs.length) C).1 := fun k => by rw [hfol k, if_neg (by omega)]
  rw [List.append_assoc, List.append_assoc, run_append, run_append, run_append]
  simp only [List.filterMap_append, hbefore, List.nil_append]
  rw [hrep, flushes_eq_clip hkinds (by omega) hagree hfit2 hlater fun k =>
    ⟨_, List.mem_append_right _ (List.mem_map.mpr ⟨k, hkinds k, rfl⟩)⟩]

end Scanner

end Stretches

end Is2
