import Is2.Evr.Timers
import Mathlib.Algebra.Order.BigOperators.Group.List
import Mathlib.Algebra.Order.Group.Nat
import Mathlib.Algebra.Ring.Nat

/-!
# The weight of a timer queue

An event weighs what its time and its callback say, and a queue what its events weigh together.  In
a well-formed queue (`Timers.Ok`) adding an event adds its weight, taking the top off takes it away,
and cancelling makes nothing heavier, if a callback weighs more than none.
-/

namespace Is2

namespace Evr

namespace Timers

variable {κ : Type} {t t' : Timers κ} {now delay p : ℕ} {cb : Option κ}

/-! ## Well-formed queues -/

/-- What is queued is allocated, and queued once. -/
structure Ok (t : Timers κ) : Prop where
  nodup : t.pq.Nodup
  queued : ∀ p ∈ t.pq, ∃ e, t.heap p = some e
  below : ∀ p e, t.heap p = some e → p < t.fresh

lemma ok_empty : (empty : Timers κ).Ok :=
  ⟨by simp [empty], by simp [empty], by simp [empty]⟩

lemma Ok.fresh_notMem (h : t.Ok) : t.fresh ∉ t.pq := by
  intro hm
  obtain ⟨e, he⟩ := h.queued _ hm
  exact Nat.lt_irrefl _ (h.below _ e he)

lemma Ok.addEvent (h : t.Ok) : (t.addEvent now delay cb).Ok := by
  refine ⟨List.nodup_cons.mpr ⟨h.fresh_notMem, h.nodup⟩, ?_, ?_⟩
  · intro q hq
    by_cases hqf : q = t.fresh
    · subst hqf
      exact ⟨_, Function.update_self ..⟩
    · obtain ⟨e, he⟩ := h.queued q ((List.mem_cons.mp hq).resolve_left hqf)
      exact ⟨e, by simpa [Timers.addEvent, Function.update_of_ne hqf] using he⟩
  · intro q e he
    by_cases hqf : q = t.fresh
    · subst hqf
      exact Nat.lt_succ_self _
    · simp only [Timers.addEvent, Function.update_of_ne hqf] at he
      exact Nat.lt_succ_of_lt (h.below q e he)

/-- Cancelling leaves the queue, and the times of its events. -/
lemma cancelEvent_cases {o : Option ℕ} {st : ℤ} (he : t.cancelEvent o = some (t', st)) :
    t' = t ∨ ∃ p e, t.heap p = some e ∧
      t' = { t with
        heap := Function.update t.heap p (some { e with cb := none, state := .cancelled }) } := by
  cases o with
  | none =>
      simp only [Timers.cancelEvent, Option.some.injEq, Prod.mk.injEq] at he
      exact .inl he.1.symm
  | some p =>
      obtain ⟨e, hev, he⟩ := Option.bind_eq_some_iff.mp he
      obtain ⟨rfl, -⟩ := Prod.mk.inj (Option.some.inj he)
      exact .inr ⟨p, e, hev, rfl⟩

lemma cancelEvent_pq {o : Option ℕ} {st : ℤ} (he : t.cancelEvent o = some (t', st)) :
    t'.pq = t.pq ∧ t'.fresh = t.fresh := by
  rcases cancelEvent_cases he with rfl | ⟨p, e, -, rfl⟩ <;> exact ⟨rfl, rfl⟩

lemma Ok.cancelEvent (h : t.Ok) {o : Option ℕ} {st : ℤ}
    (he : t.cancelEvent o = some (t', st)) : t'.Ok := by
  rcases cancelEvent_cases he with rfl | ⟨p, e, hev, rfl⟩
  · exact h
  refine ⟨h.nodup, ?_, ?_⟩
  · intro q hq
    by_cases hqp : q = p
    · subst hqp
      exact ⟨_, Function.update_self ..⟩
    · obtain ⟨e', he'⟩ := h.queued q hq
      exact ⟨e', by simpa [Function.update_of_ne hqp] using he'⟩
  · intro q e' he'
    by_cases hqp : q = p
    · subst hqp
      exact h.below q e hev
    · exact h.below q e' (by simpa [Function.update_of_ne hqp] using he')

lemma Ok.pop (h : t.Ok) : (t.pop p).Ok :=
  ⟨h.nodup.erase p, fun q hq => h.queued q (List.mem_of_mem_erase hq), h.below⟩

lemma Ok.notMem_pop (h : t.Ok) : p ∉ (t.pop p).pq := by
  intro hm
  exact (h.nodup.mem_erase_iff.mp hm).1 rfl

/-- An event that was taken off is not queued any more when it is freed. -/
lemma Ok.free (h : t.Ok) (hp : p ∉ t.pq) : (t.free p).Ok := by
  refine ⟨h.nodup, ?_, ?_⟩
  · intro q hq
    obtain ⟨e, he⟩ := h.queued q hq
    have hqp : q ≠ p := fun heq => hp (heq ▸ hq)
    exact ⟨e, by simpa [Timers.free, Function.update_of_ne hqp] using he⟩
  · intro q e he
    by_cases hqp : q = p
    · subst hqp
      simp [Timers.free] at he
    · exact h.below q e (by simpa [Timers.free, Function.update_of_ne hqp] using he)

/-! ## Weights -/

variable {w : ℕ → Option κ → ℕ}

/-- What the event at `p` weighs. -/
def weightAt (w : ℕ → Option κ → ℕ) (t : Timers κ) (p : ℕ) : ℕ :=
  w (t.timeMs p) ((t.heap p).bind Event.cb)

/-- What the queued events weigh together. -/
def weight (w : ℕ → Option κ → ℕ) (t : Timers κ) : ℕ := (t.pq.map (weightAt w t)).sum

lemma weight_addEvent (h : t.Ok) :
    (t.addEvent now delay cb).weight w = w (now + delay) cb + t.weight w := by
  have hnew : weightAt w (t.addEvent now delay cb) t.fresh = w (now + delay) cb := by
    simp [weightAt, timeMs, addEvent]
  have hold : t.pq.map (weightAt w (t.addEvent now delay cb)) = t.pq.map (weightAt w t) := by
    refine List.map_congr_left fun q hq => ?_
    have hne : q ≠ t.fresh := fun heq => h.fresh_notMem (heq ▸ hq)
    simp [weightAt, timeMs, addEvent, Function.update_of_ne hne]
  rw [weight, show (t.addEvent now delay cb).pq = t.fresh :: t.pq from rfl, List.map_cons,
    List.sum_cons, hnew, hold, weight]

lemma weight_cancelEvent (hw : ∀ time cb, w time none ≤ w time cb) {o : Option ℕ} {st : ℤ}
    (he : t.cancelEvent o = some (t', st)) : t'.weight w ≤ t.weight w := by
  rcases cancelEvent_cases he with rfl | ⟨p, e, hev, rfl⟩
  · exact Nat.le_refl _
  refine List.sum_le_sum fun q _ => ?_
  by_cases hqp : q = p
  · subst hqp
    simp only [weightAt, timeMs, Function.update_self, hev, Option.map_some, Option.bind_some]
    exact hw _ _
  · simp [weightAt, timeMs, Function.update_of_ne hqp]

/-- The event that is taken off was weighed. -/
lemma weight_pop (hp : p ∈ t.pq) {e : Event κ} (he : t.heap p = some e) :
    t.weight w = w e.timeMs e.cb + (t.pop p).weight w := by
  have hat : weightAt w t p = w e.timeMs e.cb := by
    simp [weightAt, timeMs, he]
  have hperm := (List.perm_cons_erase hp).map (weightAt w t)
  rw [weight, hperm.sum_eq, List.map_cons, List.sum_cons, hat]
  rfl

lemma weight_free (hp : p ∉ t.pq) : (t.free p).weight w = t.weight w := by
  have hold : t.pq.map (weightAt w (t.free p)) = t.pq.map (weightAt w t) := by
    refine List.map_congr_left fun q hq => ?_
    have hne : q ≠ p := fun heq => hp (heq ▸ hq)
    simp [weightAt, timeMs, free, Function.update_of_ne hne]
  rw [weight, weight, show (t.free p).pq = t.pq from rfl, hold]

/-! ## A turn of the loop -/

/-- What one turn of `dequeue_events` finds: nothing to do with the top, or nothing due, or the
callback of the top, which is due. -/
lemma turn_cases {r : Turn κ} (he : t.turn now p = some r) :
    (∃ t₁, r = .skip t₁ ∧ p ∈ t.pq ∧ (t₁ = t.pop p ∨ t₁ = (t.pop p).free p)) ∨
    (∃ ms, r = .wait ms) ∨
    ∃ e, r = .serve (t.pop p) e.timeMs e.cb ∧ p ∈ t.pq ∧ t.heap p = some e ∧ e.timeMs ≤ now := by
  unfold turn at he
  split_ifs at he with htop
  obtain ⟨e, hev, he⟩ := Option.bind_eq_some_iff.mp he
  split_ifs at he with hmagic hstate hlt
  · obtain rfl := Option.some.inj he
    exact .inl ⟨_, rfl, htop.1, .inl rfl⟩
  · obtain rfl := Option.some.inj he
    exact .inl ⟨_, rfl, htop.1, .inr rfl⟩
  · obtain rfl := Option.some.inj he
    exact .inr (.inl ⟨_, rfl⟩)
  · obtain rfl := Option.some.inj he
    exact .inr (.inr ⟨e, rfl, htop.1, hev, by omega⟩)

end Timers

end Evr

end Is2
