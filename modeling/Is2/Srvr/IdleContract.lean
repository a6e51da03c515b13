import Is2.Core.Handles
import Is2.Srvr.IdleTimer

/-!
# The idle timer keeps its contract

Two invariants, each shown for every function by itself and then for whole runs.

* `Wired` — the handles of the sessions and the events in the queue agree (`Handles`), and every
  session has a timeout, but for one that is *bare*: its timer has just fired, or it is being torn
  down.
* `Timed` — no session was heard of after its `m_last_active_ms`, and the log is right.

When an event is noted, the session must know of it (`Aware`): that is what `run_state_machine` does
with `m_last_active_ms`.

Most functions change handles and events only.  `Keeps` says so, and carries `Timed` along.
-/

namespace Is2

namespace IdleTimer

open Evr

variable {κ : Type} {t t' : Thread κ} {c now : ℕ}

/-! ## What is pending -/

/-- The session and the handle that a queued event is for. -/
def slots (timers : Timers (Callback κ)) (p : ℕ) : Option (Kind × ℕ) :=
  if p ∈ timers.pq then (timers.heap p).bind fun e =>
    if e.state = .active then e.cb.bind Callback.slot else none
  else none

lemma slot_eq_some_iff {cb : Callback κ} {k : Kind} :
    cb.slot = some (k, c) ↔ cb = .evr k c := by
  cases cb with
  | evr k' c' => simp [Callback.slot]
  | other x => simp [Callback.slot]

lemma slots_eq_some_iff {timers : Timers (Callback κ)} {p : ℕ} {k : Kind} :
    slots timers p = some (k, c) ↔ Pending timers p (.evr k c) := by
  rw [slots, Pending]
  by_cases hp : p ∈ timers.pq
  · simp only [hp, if_true, true_and, Option.bind_eq_some_iff]
    refine exists_congr fun e => and_congr_right fun _ => ?_
    by_cases hactive : e.state = .active
    · simp [hactive, Option.bind_eq_some_iff, slot_eq_some_iff]
    · simp [hactive]
  · simp [hp]

/-- The queue is well formed. -/
structure TimersSound (timers : Timers (Callback κ)) : Prop where
  nodup : timers.pq.Nodup
  below : ∀ p ∈ timers.pq, p < timers.fresh
  magic : ∀ p e, timers.heap p = some e → e.magic = eventMagic

section Timers

variable {timers timers' : Timers (Callback κ)}

lemma slots_of_notMem {p : ℕ} (h : p ∉ timers.pq) : slots timers p = none := if_neg h

lemma slots_addEvent (now ms : ℕ) (cb : Callback κ) :
    slots (timers.addEvent now ms (some cb)) =
      Function.update (slots timers) timers.fresh cb.slot := by
  funext p
  by_cases hp : p = timers.fresh
  · subst hp
    simp [slots, Timers.addEvent]
  · simp [slots, Timers.addEvent, hp]

lemma slots_cancelEvent {p : ℕ} {status : ℤ}
    (h : timers.cancelEvent (some p) = some (timers', status)) :
    slots timers' = Function.update (slots timers) p none := by
  obtain ⟨e, he, heq⟩ := Option.bind_eq_some_iff.mp h
  obtain ⟨rfl, -⟩ := Prod.mk.inj (Option.some.inj heq)
  funext q
  by_cases hq : q = p
  · subst hq
    simp [slots]
  · simp [slots, hq]

lemma slots_pop (h : timers.pq.Nodup) (p : ℕ) :
    slots (timers.pop p) = Function.update (slots timers) p none := by
  funext q
  by_cases hq : q = p
  · subst hq
    simp [slots, Timers.pop, h.not_mem_erase]
  · simp [slots, Timers.pop, hq, List.mem_erase_of_ne]

lemma slots_free {p : ℕ} (h : p ∉ timers.pq) : slots (timers.free p) = slots timers := by
  funext q
  by_cases hq : q = p
  · subst hq
    simp [slots, Timers.free, h]
  · simp [slots, Timers.free, hq]

lemma TimersSound.slots_fresh (h : TimersSound timers) : slots timers timers.fresh = none :=
  slots_of_notMem fun hp => Nat.lt_irrefl _ (h.below _ hp)

lemma TimersSound.addEvent (h : TimersSound timers) (now ms : ℕ) (cb : Option (Callback κ)) :
    TimersSound (timers.addEvent now ms cb) where
  nodup := List.nodup_cons.mpr ⟨fun hp => Nat.lt_irrefl _ (h.below _ hp), h.nodup⟩
  below := by
    intro p hp
    rcases List.mem_cons.mp hp with rfl | hp
    · exact Nat.lt_succ_self _
    · exact Nat.lt_succ_of_lt (h.below p hp)
  magic := by
    intro p e he
    by_cases hp : p = timers.fresh
    · subst hp
      simp only [Timers.addEvent, Function.update_self, Option.some.injEq] at he
      rw [← he]
    · simp only [Timers.addEvent, Function.update_of_ne hp] at he
      exact h.magic p e he

lemma TimersSound.cancelEvent (h : TimersSound timers) {p : ℕ} {status : ℤ}
    (hc : timers.cancelEvent (some p) = some (timers', status)) : TimersSound timers' := by
  obtain ⟨e, he, heq⟩ := Option.bind_eq_some_iff.mp hc
  obtain ⟨rfl, -⟩ := Prod.mk.inj (Option.some.inj heq)
  refine ⟨h.nodup, h.below, ?_⟩
  intro q e' he'
  by_cases hq : q = p
  · subst hq
    simp only [Function.update_self, Option.some.injEq] at he'
    rw [← he']
    exact h.magic q e he
  · simp only [Function.update_of_ne hq] at he'
    exact h.magic q e' he'

lemma TimersSound.pop (h : TimersSound timers) (p : ℕ) : TimersSound (timers.pop p) :=
  ⟨h.nodup.erase p, fun q hq => h.below q (List.mem_of_mem_erase hq), h.magic⟩

lemma TimersSound.free (h : TimersSound timers) (p : ℕ) : TimersSound (timers.free p) := by
  refine ⟨h.nodup, h.below, ?_⟩
  intro q e he
  by_cases hq : q = p
  · subst hq
    simp [Timers.free] at he
  · simp only [Timers.free, Function.update_of_ne hq] at he
    exact h.magic q e he

end Timers

/-! ## Handles and events agree -/

/-- The handles of all sessions. -/
def Thread.held (t : Thread κ) (a : Kind × ℕ) : Option ℕ := (t.sessions a.2).bind fun s => s.evr a.1

/-- The handles and the queue agree, and all sessions but one have their timer. -/
structure Wired (t : Thread κ) (bare : Option ℕ) : Prop where
  sound : TimersSound t.timers
  handles : Handles t.held (slots t.timers)
  armed : ∀ c, t.sessions c ≠ none → bare ≠ some c → t.held (.timeout, c) ≠ none

section Held

variable {s : Session} {k : Kind}

lemma held_eq (hs : t.sessions c = some s) (k : Kind) : t.held (k, c) = s.evr k := by
  simp [Thread.held, hs]

lemma held_setEvr (hs : t.sessions c = some s) (k : Kind) (p : Option ℕ) :
    (t.modify c (·.setEvr k p)).held = Function.update t.held (k, c) p := by
  funext a
  obtain ⟨k', c'⟩ := a
  by_cases hc : c' = c
  · subst hc
    by_cases hk : k' = k
    · subst hk
      simp [Thread.held, Thread.modify, hs, Session.setEvr]
    · simp [Thread.held, Thread.modify, hs, Session.setEvr, hk]
  · simp [Thread.held, Thread.modify, hc]

lemma held_modify {f : Session → Session} (hf : ∀ s, (f s).evr = s.evr) :
    (t.modify c f).held = t.held := by
  funext a
  obtain ⟨k', c'⟩ := a
  by_cases hc : c' = c
  · subst hc
    cases hs : t.sessions c' with
    | none => simp [Thread.held, Thread.modify, hs]
    | some s => simp [Thread.held, Thread.modify, hs, hf]
  · simp [Thread.held, Thread.modify, hc]

end Held

/-- What is not in the queue any more does not come back. -/
structure Grows (timers timers' : Timers (Callback κ)) : Prop where
  fresh : timers.fresh ≤ timers'.fresh
  pq : ∀ p ∈ timers'.pq, p ∈ timers.pq ∨ timers.fresh ≤ p

lemma Grows.refl (timers : Timers (Callback κ)) : Grows timers timers :=
  ⟨le_rfl, fun _ => Or.inl⟩

lemma Grows.trans {a b d : Timers (Callback κ)} (h : Grows a b) (h' : Grows b d) : Grows a d where
  fresh := h.fresh.trans h'.fresh
  pq := by
    intro p hp
    rcases h'.pq p hp with hp | hp
    · exact h.pq p hp
    · exact Or.inr (h.fresh.trans hp)

lemma grows_addEvent (timers : Timers (Callback κ)) (now ms : ℕ) (cb : Option (Callback κ)) :
    Grows timers (timers.addEvent now ms cb) where
  fresh := Nat.le_succ _
  pq := by
    intro p hp
    rcases List.mem_cons.mp hp with rfl | hp
    · exact Or.inr le_rfl
    · exact Or.inl hp

lemma grows_cancelEvent {timers timers' : Timers (Callback κ)} {p : ℕ} {status : ℤ}
    (h : timers.cancelEvent (some p) = some (timers', status)) : Grows timers timers' := by
  obtain ⟨e, -, heq⟩ := Option.bind_eq_some_iff.mp h
  obtain ⟨rfl, -⟩ := Prod.mk.inj (Option.some.inj heq)
  exact ⟨le_rfl, fun _ => Or.inl⟩

/-- The sessions are those of before, or fewer, and only their handles and the events differ. -/
structure Keeps (t t' : Thread κ) : Prop where
  sessions : ∀ c s', t'.sessions c = some s' → ∃ s, t.sessions c = some s ∧
    s'.lastActiveMs = s.lastActiveMs ∧ s'.timeoutMs = s.timeoutMs ∧ s'.state = s.state
  log : t'.log = t.log
  next : t'.next = t.next
  clock : t.clock ≤ t'.clock
  bounded : t.clock < 2 ^ 64 → t'.clock < 2 ^ 64
  grows : Grows t.timers t'.timers

lemma Keeps.refl (t : Thread κ) : Keeps t t :=
  ⟨fun _ s hs => ⟨s, hs, rfl, rfl, rfl⟩, rfl, rfl, le_rfl, id, .refl _⟩

lemma Keeps.trans {t'' : Thread κ} (h : Keeps t t') (h' : Keeps t' t'') : Keeps t t'' where
  sessions := by
    intro c s'' hs''
    obtain ⟨s', hs', ha', ht', hst'⟩ := h'.sessions c s'' hs''
    obtain ⟨s, hs, ha, ht, hst⟩ := h.sessions c s' hs'
    exact ⟨s, hs, ha'.trans ha, ht'.trans ht, hst'.trans hst⟩
  log := h'.log.trans h.log
  next := h'.next.trans h.next
  clock := h.clock.trans h'.clock
  bounded := fun hb => h'.bounded (h.bounded hb)
  grows := h.grows.trans h'.grows

lemma tick_eq (h : t.tick now = some t') :
    t' = { t with clock := now } ∧ t.clock ≤ now ∧ now < 2 ^ 64 := by
  rw [Thread.tick] at h
  split_ifs at h with hnow
  exact ⟨(Option.some.inj h).symm, hnow⟩

lemma keeps_tick (h : t.tick now = some t') : Keeps t t' := by
  obtain ⟨rfl, hle, hlt⟩ := tick_eq h
  exact ⟨fun _ s hs => ⟨s, hs, rfl, rfl, rfl⟩, rfl, rfl, hle, fun _ => hlt, .refl _⟩

lemma Wired.tick {bare : Option ℕ} (h : Wired t bare) (ht : t.tick now = some t') :
    Wired t' bare := by
  obtain ⟨rfl, -⟩ := tick_eq ht
  exact ⟨h.sound, h.handles, h.armed⟩

/-- Nothing but a handle changes. -/
lemma keeps_setEvr (t : Thread κ) (c : ℕ) (k : Kind) (p : Option ℕ) :
    Keeps t (t.modify c (·.setEvr k p)) := by
  refine ⟨?_, rfl, rfl, le_rfl, id, .refl _⟩
  intro d s' hs'
  by_cases hd : d = c
  · subst hd
    simp only [Thread.modify, Function.update_self] at hs'
    obtain ⟨s, hs, rfl⟩ := Option.map_eq_some_iff.mp hs'
    exact ⟨s, hs, rfl, rfl, rfl⟩
  · simp only [Thread.modify, Function.update_of_ne hd] at hs'
    exact ⟨s', hs', rfl, rfl, rfl⟩

lemma sessions_modify_ne_none {f : Session → Session} {d : ℕ}
    (h : (t.modify c f).sessions d ≠ none) : t.sessions d ≠ none := by
  by_cases hd : d = c
  · subst hd
    simpa [Thread.modify] using h
  · simpa [Thread.modify, hd] using h

/-- A handle and the queue change together. -/
lemma Wired.setEvr {bare bare' p : Option ℕ} {s : Session} {k : Kind}
    {timers' : Timers (Callback κ)} (h : Wired t bare) (hs : t.sessions c = some s)
    (hsound : TimersSound timers')
    (hh : Handles (Function.update t.held (k, c) p) (slots timers'))
    (hb : ∀ d, bare' ≠ some d →
      (Kind.timeout, d) = (k, c) ∧ p ≠ none ∨ (Kind.timeout, d) ≠ (k, c) ∧ bare ≠ some d) :
    Wired { t.modify c (·.setEvr k p) with timers := timers' } bare' := by
  have hheld : ({ t.modify c (·.setEvr k p) with timers := timers' } : Thread κ).held =
      Function.update t.held (k, c) p := held_setEvr hs k p
  refine ⟨hsound, hheld ▸ hh, ?_⟩
  intro d hd hbare
  rw [hheld]
  rcases hb d hbare with ⟨heq, hp⟩ | ⟨hne, hbare⟩
  · rw [heq, Function.update_self]
    exact hp
  · rw [Function.update_of_ne hne]
    exact h.armed d (sessions_modify_ne_none hd) hbare

/-! ## Adding and cancelling events -/

/-- An event is added for a session without a handle. -/
lemma Wired.addTimer {bare bare' : Option ℕ} {ms : ℕ} {k : Kind} (h : Wired t bare)
    (hc : t.sessions c ≠ none) (hk : t.held (k, c) = none)
    (hb : ∀ d, bare' ≠ some d → (Kind.timeout, d) = (k, c) ∨
      (Kind.timeout, d) ≠ (k, c) ∧ bare ≠ some d)
    (ht : t.addTimer now ms k c = some t') : Wired t' bare' ∧ Keeps t t' := by
  obtain ⟨m, hm, hnew⟩ := Option.bind_eq_some_iff.mp ht
  have hwired := h.tick hm
  have hkeeps := keeps_tick hm
  obtain ⟨rfl, -⟩ := tick_eq hm
  obtain rfl := Option.some.inj hnew
  obtain ⟨s, hs⟩ := Option.ne_none_iff_exists'.mp hc
  constructor
  · refine hwired.setEvr hs (h.sound.addEvent _ _ _) ?_ ?_
    · rw [slots_addEvent]
      exact h.handles.arm hk h.sound.slots_fresh
    · intro d hd
      rcases hb d hd with heq | hne
      · exact .inl ⟨heq, by simp⟩
      · exact .inr hne
  · have hset := hkeeps.trans (keeps_setEvr _ c k (some t.timers.fresh))
    exact ⟨hset.sessions, hset.log, hset.next, hset.clock, hset.bounded, grows_addEvent _ _ _ _⟩

lemma Wired.queueOutput {bare : Option ℕ} (h : Wired t bare)
    (ht : t.queueOutput now c = some t') : Wired t' bare ∧ Keeps t t' := by
  obtain ⟨s, hs, hnext⟩ := Option.bind_eq_some_iff.mp ht
  split_ifs at hnext with hqueued
  · obtain rfl := Option.some.inj hnext
    exact ⟨h, .refl _⟩
  · have hnone : t.held (.writeable, c) = none := by
      rw [held_eq hs]
      simpa using hqueued
    refine h.addTimer (by simp [hs]) hnone ?_ hnext
    intro d hd
    exact .inr ⟨by simp, hd⟩

/-- An event is cancelled, and its handle is cleared. -/
lemma Wired.cancelEvr {bare : Option ℕ} {k : Kind} (h : Wired t bare)
    (hb : ∀ d, bare = some d → d = c) (ht : Thread.cancelEvr k t c = some t') :
    Wired t' (some c) ∧ Keeps t t' ∧ t'.held = Function.update t.held (k, c) none := by
  obtain ⟨s, hs, hnext⟩ := Option.bind_eq_some_iff.mp ht
  have hheld := held_eq hs k
  have hbare : ∀ d, some c ≠ some d → d ≠ c ∧ bare ≠ some d := by
    intro d hd
    have hdc : d ≠ c := fun heq => hd (by rw [heq])
    exact ⟨hdc, fun heq => hdc (hb d heq)⟩
  cases hevr : s.evr k with
  | none =>
      rw [hevr] at hnext hheld
      obtain rfl := Option.some.inj hnext
      refine ⟨⟨h.sound, h.handles, ?_⟩, .refl _, ?_⟩
      · intro d hd hdc
        exact h.armed d hd (hbare d hdc).2
      · rw [← hheld, Function.update_eq_self]
  | some p =>
      rw [hevr] at hnext hheld
      obtain ⟨⟨timers, status⟩, hcancel, hset⟩ := Option.bind_eq_some_iff.mp hnext
      have hstatus : status = 0 := by
        obtain ⟨e, -, heq⟩ := Option.bind_eq_some_iff.mp hcancel
        exact (Prod.mk.inj (Option.some.inj heq)).2.symm
      simp only [hstatus, ne_eq, not_true_eq_false, if_false, Option.some_inj] at hset
      obtain rfl := hset
      refine ⟨?_, ?_, held_setEvr hs k none⟩
      · refine h.setEvr hs (h.sound.cancelEvent hcancel) ?_ ?_
        · rw [slots_cancelEvent hcancel]
          exact h.handles.drop hheld
        · intro d hd
          obtain ⟨hdc, hne⟩ := hbare d hd
          exact .inr ⟨fun heq => hdc (Prod.mk.inj heq).2, hne⟩
      · have hkeeps := keeps_setEvr t c k none
        exact ⟨hkeeps.sessions, rfl, rfl, le_rfl, id, grows_cancelEvent hcancel⟩

/-- Other code leaves the handles alone, but for `queue_output`. -/
lemma Wired.act {bare : Option ℕ} {a : Act κ} (h : Wired t bare) (ht : t.act a = some t') :
    Wired t' bare ∧ Keeps t t' := by
  cases a with
  | queueOutput now c => exact h.queueOutput ht
  | add now ms x =>
      obtain ⟨m, hm, hnew⟩ := Option.bind_eq_some_iff.mp ht
      have hwired := h.tick hm
      have hkeeps := keeps_tick hm
      obtain ⟨rfl, -⟩ := tick_eq hm
      obtain rfl := Option.some.inj hnew
      have hslots : slots (t.timers.addEvent now ms (some (.other x))) = slots t.timers := by
        rw [slots_addEvent]
        exact Function.update_eq_self_iff.mpr h.sound.slots_fresh.symm
      refine ⟨⟨h.sound.addEvent _ _ _, ?_, h.armed⟩, ?_⟩
      · change Handles t.held (slots (t.timers.addEvent now ms (some (.other x))))
        rw [hslots]
        exact h.handles
      · exact ⟨hkeeps.sessions, rfl, rfl, hkeeps.clock, hkeeps.bounded, grows_addEvent _ _ _ _⟩
  | cancel p =>
      simp only [Thread.act] at ht
      split_ifs at ht with hforeign
      obtain ⟨⟨timers, status⟩, hcancel, hset⟩ := Option.bind_eq_some_iff.mp ht
      obtain rfl := Option.some.inj hset
      have hnone : slots t.timers p = none := by
        rw [Option.eq_none_iff_forall_ne_some]
        rintro ⟨k, c⟩ hslot
        obtain ⟨-, e, he, -, hcb⟩ := slots_eq_some_iff.mp hslot
        simp [Foreign, he, hcb, Callback.slot] at hforeign
      refine ⟨⟨h.sound.cancelEvent hcancel, ?_, h.armed⟩, ?_⟩
      · change Handles t.held (slots timers)
        rw [slots_cancelEvent hcancel, Function.update_eq_self_iff.mpr hnone.symm]
        exact h.handles
      · exact ⟨fun _ s hs => ⟨s, hs, rfl, rfl, rfl⟩, rfl, rfl, le_rfl, id,
          grows_cancelEvent hcancel⟩

lemma Wired.perform {bare : Option ℕ} {acts : List (Act κ)} (h : Wired t bare)
    (ht : t.perform acts = some t') : Wired t' bare ∧ Keeps t t' := by
  induction acts generalizing t with
  | nil =>
      obtain rfl := Option.some.inj ht
      exact ⟨h, .refl _⟩
  | cons a acts ih =>
      obtain ⟨m, hm, hrest⟩ := Option.bind_eq_some_iff.mp ht
      obtain ⟨hwired, hkeeps⟩ := h.act hm
      obtain ⟨hwired', hkeeps'⟩ := ih hwired hrest
      exact ⟨hwired', hkeeps.trans hkeeps'⟩

/-! ## The end of a session -/

/-- All events of a session are cancelled before it is deleted. -/
lemma Wired.delete (h : Wired t (some c)) (ht : t.delete c = some t') :
    Wired t' none ∧ Keeps t t' ∧ t'.sessions c = none := by
  have hself : ∀ d, some c = some d → d = c := fun d heq => (Option.some.inj heq).symm
  obtain ⟨t₁, h₁, ht⟩ := Option.bind_eq_some_iff.mp ht
  obtain ⟨t₂, h₂, ht⟩ := Option.bind_eq_some_iff.mp ht
  obtain ⟨t₃, h₃, ht⟩ := Option.bind_eq_some_iff.mp ht
  obtain rfl := Option.some.inj ht
  obtain ⟨hw₁, hk₁, hheld₁⟩ := h.cancelEvr hself h₁
  obtain ⟨hw₂, hk₂, hheld₂⟩ := hw₁.cancelEvr hself h₂
  obtain ⟨hw₃, hk₃, hheld₃⟩ := hw₂.cancelEvr hself h₃
  have hkeeps := (hk₁.trans hk₂).trans hk₃
  have hnone : ∀ k, t₃.held (k, c) = none := by
    intro k
    rw [hheld₃, hheld₂, hheld₁]
    cases k with
    | timeout => simp
    | readable => simp
    | writeable => simp
  have hheld : ({ t₃ with sessions := Function.update t₃.sessions c none } : Thread κ).held =
      t₃.held := by
    funext a
    obtain ⟨k, d⟩ := a
    by_cases hd : d = c
    · subst hd
      rw [hnone k]
      simp [Thread.held]
    · simp [Thread.held, hd]
  refine ⟨⟨hw₃.sound, hheld ▸ hw₃.handles, ?_⟩, ?_, Function.update_self _ _ _⟩
  · intro d hd _
    rw [hheld]
    have hdc : d ≠ c := by
      rintro rfl
      simp at hd
    exact hw₃.armed d (by simpa [hdc] using hd) fun heq => hdc (Option.some.inj heq).symm
  · refine ⟨?_, hkeeps.log, hkeeps.next, hkeeps.clock, hkeeps.bounded, hkeeps.grows⟩
    intro d s' hs'
    by_cases hd : d = c
    · subst hd
      simp at hs'
    · exact hkeeps.sessions d s' (by simpa [hd] using hs')

/-- A session that is torn down leaves nothing behind. -/
lemma Wired.destroy {bare : Option ℕ} {acts : List (Act κ)} (h : Wired t bare)
    (hb : ∀ d, bare = some d → d = c) (ht : t.destroy c acts = some t') :
    Wired t' none ∧ Keeps t t' := by
  obtain ⟨m, hm, hdelete⟩ := Option.bind_eq_some_iff.mp ht
  obtain ⟨t₁, h₁, hacts⟩ := Option.bind_eq_some_iff.mp hm
  obtain ⟨hw₁, hk₁, -⟩ := h.cancelEvr hb h₁
  obtain ⟨hw₂, hk₂⟩ := hw₁.perform hacts
  obtain ⟨hw₃, hk₃, -⟩ := hw₂.delete hdelete
  exact ⟨hw₃, (hk₁.trans hk₂).trans hk₃⟩

/-! ## The times -/

/-- What is known of a session that is alive. -/
structure Heard (t : Thread κ) (c : ℕ) (s : Session) : Prop where
  past : s.lastActiveMs ≤ t.clock
  word : s.timeoutMs < 2 ^ 32
  state : s.state ≠ .free
  known : c < t.next
  heard : ∃ time, .active c time ∈ t.log
  last : ∀ time, .active c time ∈ t.log → time ≤ s.lastActiveMs

/-- The sessions know when they were heard of, and the log is right. -/
structure Timed (t : Thread κ) : Prop where
  bounded : t.clock < 2 ^ 64
  alive : ∀ c s, t.sessions c = some s → Heard t c s
  old : ∀ c time, .active c time ∈ t.log → c < t.next
  log : LogOk t.log

lemma Timed.keeps (h : Timed t) (hk : Keeps t t') : Timed t' where
  bounded := hk.bounded h.bounded
  alive := by
    intro c s' hs'
    obtain ⟨s, hs, ha, ht, hst⟩ := hk.sessions c s' hs'
    obtain ⟨hpast, hword, hstate, hknown, ⟨time, hheard⟩, hlast⟩ := h.alive c s hs
    refine ⟨?_, ht ▸ hword, hst ▸ hstate, hk.next ▸ hknown, ⟨time, hk.log ▸ hheard⟩, ?_⟩
    · rw [ha]
      exact hpast.trans hk.clock
    · intro time' hm
      rw [ha]
      exact hlast time' (hk.log ▸ hm)
  old := by
    intro c time hm
    rw [hk.next]
    exact h.old c time (hk.log ▸ hm)
  log := by
    rw [hk.log]
    exact h.log

/-- The events do not matter here. -/
lemma Timed.withTimers (h : Timed t) (timers : Timers (Callback κ)) :
    Timed { t with timers := timers } := by
  refine ⟨h.bounded, ?_, h.old, h.log⟩
  intro c s hs
  obtain ⟨hpast, hword, hstate, hknown, hheard, hlast⟩ := h.alive c s hs
  exact ⟨hpast, hword, hstate, hknown, hheard, hlast⟩

lemma Timed.note {o : Obs} (h : Timed t) (ho : o.Ok t.log) (hnew : ∀ c time, o ≠ .active c time) :
    Timed (t.note o) := by
  have hmem : ∀ {c time}, .active c time ∈ o :: t.log → .active c time ∈ t.log := by
    intro c time hm
    exact (List.mem_cons.mp hm).resolve_left fun heq => hnew c time heq.symm
  refine ⟨h.bounded, ?_, fun c time hm => h.old c time (hmem hm), ho, h.log⟩
  intro c s hs
  obtain ⟨hpast, hword, hstate, hknown, ⟨time, hheard⟩, hlast⟩ := h.alive c s hs
  exact ⟨hpast, hword, hstate, hknown, ⟨time, List.mem_cons_of_mem _ hheard⟩,
    fun time' hm => hlast time' (hmem hm)⟩

lemma Wired.note {bare : Option ℕ} (h : Wired t bare) (o : Obs) : Wired (t.note o) bare :=
  ⟨h.sound, h.handles, h.armed⟩

/-- The session was made, and if it is still alive, it knows that it was called at `now`. -/
structure Aware (t : Thread κ) (c now : ℕ) : Prop where
  known : c < t.next
  last : ∀ s, t.sessions c = some s → now ≤ s.lastActiveMs

lemma Aware.keeps (h : Aware t c now) (hk : Keeps t t') : Aware t' c now where
  known := hk.next ▸ h.known
  last := by
    intro s' hs'
    obtain ⟨s, hs, hlast, -⟩ := hk.sessions c s' hs'
    rw [hlast]
    exact h.last s hs

/-- An event that its session knows of is noted. -/
lemma Timed.hear (h : Timed t) (ha : Aware t c now) : Timed (t.note (.active c now)) := by
  refine ⟨h.bounded, ?_, ?_, trivial, h.log⟩
  · intro d s hs
    obtain ⟨hpast, hword, hstate, hknown, ⟨time, hheard⟩, hlast⟩ := h.alive d s hs
    refine ⟨hpast, hword, hstate, hknown, ⟨time, List.mem_cons_of_mem _ hheard⟩, ?_⟩
    intro time' hm
    rcases List.mem_cons.mp hm with heq | hm
    · obtain ⟨rfl, rfl⟩ := Obs.active.inj heq
      exact ha.last s hs
    · exact hlast time' hm
  · intro d time hm
    rcases List.mem_cons.mp hm with heq | hm
    · rw [(Obs.active.inj heq).1]
      exact ha.known
    · exact h.old d time hm

lemma Wired.modify {bare : Option ℕ} {f : Session → Session} (h : Wired t bare)
    (hf : ∀ s, (f s).evr = s.evr) : Wired (t.modify c f) bare := by
  have hheld := held_modify (t := t) (c := c) hf
  refine ⟨h.sound, hheld ▸ h.handles, ?_⟩
  intro d hd hbare
  rw [hheld]
  exact h.armed d (sessions_modify_ne_none hd) hbare

/-- What the functions below keep: at their end, no session is bare. -/
structure Kept (t t' : Thread κ) : Prop where
  wired : Wired t' none
  timed : Timed t'
  grows : Grows t.timers t'.timers

lemma Kept.hear (h : Kept t t') (ha : Aware t' c now) : Kept t (t'.note (.active c now)) :=
  ⟨h.wired.note _, h.timed.hear ha, h.grows⟩

/-! ## `run_state_machine` -/

section Delay

variable {last timeoutMs : ℕ}

/-- Truncated to 32 bits, the time that has passed is not longer than it is. -/
lemma timeout_le_elapsed (hlast : last ≤ now) (h : timeoutMs ≤ sub64 now last % 2 ^ 32) :
    last + timeoutMs ≤ now := by
  rw [sub64_of_le hlast] at h
  omega

/-- What is left is positive, and no more than the whole. -/
lemma delay_mem (hlast : last ≤ now) (hnow : now < 2 ^ 64) (hword : timeoutMs < 2 ^ 32)
    (h : ¬ timeoutMs ≤ sub64 now last % 2 ^ 32) :
    0 < sub64 timeoutMs (sub64 now last) % 2 ^ 32 ∧
      sub64 timeoutMs (sub64 now last) % 2 ^ 32 ≤ timeoutMs := by
  rw [sub64_of_le hlast] at h ⊢
  simp only [sub64]
  split_ifs with hle
  · omega
  · omega

end Delay

/-- A bare session is armed again. -/
lemma armed_again (d : ℕ) (_ : none ≠ some d) : (Kind.timeout, d) = (Kind.timeout, c) ∨
    (Kind.timeout, d) ≠ (Kind.timeout, c) ∧ some c ≠ some d := by
  by_cases hd : d = c
  · exact .inl (by rw [hd])
  · exact .inr ⟨by simp [hd], fun heq => hd (Option.some.inj heq).symm⟩

/-- The timer has fired: the session is torn down, or the timer is armed again. -/
lemma Wired.onTimeout {s : Session} {env : Env κ} (h : Wired t (some c)) (htimed : Timed t)
    (hs : t.sessions c = some s) (hevr : s.evr .timeout = none)
    (ht : t.onTimeout c s env = some t') : Kept t t' := by
  obtain ⟨m, hm, hnext⟩ := Option.bind_eq_some_iff.mp ht
  have hwired := h.tick hm
  have hkeeps := keeps_tick hm
  have htimed' := htimed.keeps hkeeps
  obtain ⟨rfl, hle, hlt⟩ := tick_eq hm
  have hheard := htimed.alive c s hs
  have hlast : s.lastActiveMs ≤ env.now := hheard.past.trans hle
  split_ifs at hnext with hout
  · have hok : (Obs.timedOut c env.now s.timeoutMs).Ok t.log := by
      refine ⟨hheard.heard, ?_⟩
      intro time hm
      have htime := hheard.last time hm
      have helapsed := timeout_le_elapsed hlast hout
      omega
    obtain ⟨hw, hk⟩ := (hwired.note _).destroy (fun d heq => (Option.some.inj heq).symm) hnext
    exact ⟨hw, (htimed'.note hok (by simp)).keeps hk, hk.grows⟩
  · have hok : (Obs.rearmed c _ s.timeoutMs).Ok t.log := delay_mem hlast hlt hheard.word hout
    have hnone : t.held (.timeout, c) = none := by rw [held_eq hs, hevr]
    have hc : t.sessions c ≠ none := by simp [hs]
    obtain ⟨hw, hk⟩ := (hwired.note _).addTimer hc hnone armed_again hnext
    exact ⟨hw, (htimed'.note hok (by simp)).keeps hk, hk.grows⟩

lemma Wired.transfer {env : Env κ} (h : Wired t none) (htimed : Timed t) (ha : Aware t c now)
    (ht : t.transfer c env = some t') : Kept t t' ∧ Aware t' c now := by
  obtain ⟨m, hm, hnext⟩ := Option.bind_eq_some_iff.mp ht
  obtain ⟨hw, hk⟩ := h.perform hm
  have htimed' := htimed.keeps hk
  have ha' := ha.keeps hk
  cases hend : env.ending with
  | back accepting =>
      rw [hend] at hnext
      obtain rfl := Option.some.inj hnext
      refine ⟨⟨hw.modify fun _ => rfl, ⟨htimed'.bounded, ?_, htimed'.old, htimed'.log⟩,
        hk.grows⟩, ha'.known, ?_⟩
      rotate_left
      · intro s' hs'
        simp only [Thread.modify, Function.update_self] at hs'
        obtain ⟨s, hs, rfl⟩ := Option.map_eq_some_iff.mp hs'
        exact ha'.last s hs
      intro d s' hs'
      by_cases hd : d = c
      · subst hd
        simp only [Thread.modify, Function.update_self] at hs'
        obtain ⟨s, hs, rfl⟩ := Option.map_eq_some_iff.mp hs'
        obtain ⟨hpast, hword, -, hknown, hheard, hlast⟩ := htimed'.alive d s hs
        refine ⟨hpast, hword, ?_, hknown, hheard, hlast⟩
        dsimp only
        split_ifs
        · simp
        · simp
      · simp only [Thread.modify, Function.update_of_ne hd] at hs'
        obtain ⟨hpast, hword, hstate, hknown, hheard, hlast⟩ := htimed'.alive d s' hs'
        exact ⟨hpast, hword, hstate, hknown, hheard, hlast⟩
  | done =>
      rw [hend] at hnext
      obtain ⟨hw', hk'⟩ := hw.destroy (by simp) hnext
      exact ⟨⟨hw', htimed'.keeps hk', hk.grows.trans hk'.grows⟩, ha'.keeps hk'⟩

/-- The session takes the time. -/
lemma Timed.touch (h : Timed t) (c : ℕ) :
    Timed (t.modify c fun s => { s with lastActiveMs := t.clock }) := by
  refine ⟨h.bounded, ?_, h.old, h.log⟩
  intro d s' hs'
  by_cases hd : d = c
  · subst hd
    simp only [Thread.modify, Function.update_self] at hs'
    obtain ⟨s, hs, rfl⟩ := Option.map_eq_some_iff.mp hs'
    obtain ⟨hpast, hword, hstate, hknown, hheard, hlast⟩ := h.alive d s hs
    exact ⟨le_rfl, hword, hstate, hknown, hheard, fun time hm => (hlast time hm).trans hpast⟩
  · simp only [Thread.modify, Function.update_of_ne hd] at hs'
    obtain ⟨hpast, hword, hstate, hknown, hheard, hlast⟩ := h.alive d s' hs'
    exact ⟨hpast, hword, hstate, hknown, hheard, hlast⟩

lemma Wired.onActive {s : Session} {env : Env κ} (h : Wired t none) (htimed : Timed t)
    (hs : t.sessions c = some s) (ht : t.onActive c s env = some t') :
    Kept t t' ∧ Aware t' c env.now := by
  obtain ⟨m, hm, hnext⟩ := Option.bind_eq_some_iff.mp ht
  have hwired := h.tick hm
  have htimed' := htimed.keeps (keeps_tick hm)
  obtain ⟨rfl, -⟩ := tick_eq hm
  rw [if_neg (htimed.alive c s hs).state] at hnext
  have hwired' :=
    hwired.modify (c := c) (f := fun s => { s with lastActiveMs := env.now }) (by simp)
  have haware : Aware ({ t with clock := env.now }.modify c
      fun s => { s with lastActiveMs := env.now }) c env.now := by
    refine ⟨(htimed.alive c s hs).known, ?_⟩
    intro s' hs'
    simp only [Thread.modify, Function.update_self] at hs'
    obtain ⟨s, -, rfl⟩ := Option.map_eq_some_iff.mp hs'
    exact le_rfl
  obtain ⟨hkept, haware'⟩ := hwired'.transfer (htimed'.touch c) haware hnext
  exact ⟨⟨hkept.wired, hkept.timed, hkept.grows⟩, haware'⟩

/-- The connection is read or written. -/
lemma Wired.runStateMachine {mode : Mode} {env : Env κ} (h : Wired t none) (htimed : Timed t)
    (hmode : mode = .read ∨ mode = .write) (ht : t.runStateMachine c mode env = some t') :
    Kept t t' ∧ Aware t' c env.now := by
  obtain ⟨s, hs, hnext⟩ := Option.bind_eq_some_iff.mp ht
  rcases hmode with rfl | rfl
  · exact h.onActive htimed hs hnext
  · exact h.onActive htimed hs hnext

/-- An error tears the session down. -/
lemma Wired.onError {env : Env κ} (h : Wired t none) (htimed : Timed t)
    (ht : t.runStateMachine c .error env = some t') : Kept t t' := by
  obtain ⟨s, hs, hnext⟩ := Option.bind_eq_some_iff.mp ht
  dsimp only at hnext
  rw [if_neg (htimed.alive c s hs).state] at hnext
  obtain ⟨hw, hk⟩ := h.destroy (by simp) hnext
  exact ⟨hw, htimed.keeps hk, hk.grows⟩

/-! ## The loop -/

/-- An event was taken off the queue, and its handle is cleared. -/
lemma Wired.fire {p : ℕ} {k : Kind} {s : Session} (h : Wired t none) (hs : t.sessions c = some s)
    (hp : s.evr k = some p) :
    Wired ({ t with timers := t.timers.pop p }.modify c (·.setEvr k none))
      (if k = .timeout then some c else none) := by
  have hheld : t.held (k, c) = some p := by rw [held_eq hs, hp]
  refine h.setEvr hs (h.sound.pop p) ?_ ?_
  · rw [slots_pop h.sound.nodup]
    exact h.handles.drop hheld
  · intro d hd
    refine .inr ⟨?_, by simp⟩
    rintro heq
    obtain ⟨rfl, rfl⟩ := Prod.mk.inj heq
    simp at hd

/-- The callback of an event runs after the event was taken off the queue; a readable or writeable
event is noted. -/
lemma Wired.call {p : ℕ} {k : Kind} {env : Env κ} (h : Wired t none) (htimed : Timed t)
    (hp : slots t.timers p = some (k, c))
    (ht : Thread.call { t with timers := t.timers.pop p } env (.evr k c) = some t') :
    Kept { t with timers := t.timers.pop p } t' := by
  have hheld := (h.handles (k, c) p).mpr hp
  obtain ⟨s, hs, hevr⟩ := Option.bind_eq_some_iff.mp hheld
  have hwired := h.fire hs hevr
  have htimed' := (htimed.withTimers (t.timers.pop p)).keeps (keeps_setEvr _ c k none)
  have hactive : ∀ mode, mode = .read ∨ mode = .write → k ≠ .timeout → ∀ m,
      ({ t with timers := t.timers.pop p }.modify c (·.setEvr k none)).runStateMachine c mode env =
        some m →
      Kept { t with timers := t.timers.pop p } (m.note (.active c env.now)) := by
    intro mode hmode hk m hm
    rw [if_neg hk] at hwired
    obtain ⟨hkept, haware⟩ := hwired.runStateMachine htimed' hmode hm
    exact Kept.hear ⟨hkept.wired, hkept.timed, hkept.grows⟩ haware
  cases k with
  | timeout =>
      obtain ⟨s', hs', hnext⟩ := Option.bind_eq_some_iff.mp ht
      have hnone : s'.evr .timeout = none := by
        simp only [Thread.modify, Function.update_self, hs, Option.map_some, Option.some_inj] at hs'
        simp [← hs', Session.setEvr]
      dsimp only [Thread.modeOf] at hnext
      rw [if_neg (htimed'.alive c s' hs').state] at hnext
      have hkept := hwired.onTimeout htimed' hs' hnone hnext
      exact ⟨hkept.wired, hkept.timed, hkept.grows⟩
  | readable =>
      obtain ⟨m, hm, rfl⟩ := Option.map_eq_some_iff.mp ht
      exact hactive .read (.inl rfl) (by simp) m hm
  | writeable =>
      obtain ⟨m, hm, rfl⟩ := Option.map_eq_some_iff.mp ht
      exact hactive .write (.inr rfl) (by simp) m hm

/-- An event that is for nobody is taken off the queue. -/
lemma Wired.popForeign {p : ℕ} (h : Wired t none) (hp : slots t.timers p = none) :
    Wired { t with timers := t.timers.pop p } none := by
  refine ⟨h.sound.pop p, ?_, h.armed⟩
  change Handles t.held (slots (t.timers.pop p))
  rw [slots_pop h.sound.nodup, Function.update_eq_self_iff.mpr hp.symm]
  exact h.handles

/-- An event that is not in the queue is freed. -/
lemma Wired.freeEvent {p : ℕ} (h : Wired t none) (hp : p ∉ t.timers.pq) :
    Wired { t with timers := t.timers.free p } none := by
  refine ⟨h.sound.free p, ?_, h.armed⟩
  change Handles t.held (slots (t.timers.free p))
  rw [slots_free hp]
  exact h.handles

/-- What has been taken off the queue is not in it when it is freed. -/
lemma TimersSound.notMem_of_grows {timers timers' : Timers (Callback κ)} {p : ℕ}
    (h : TimersSound timers) (hp : p ∈ timers.pq) (hg : Grows (timers.pop p) timers') :
    p ∉ timers'.pq := by
  intro hm
  rcases hg.pq p hm with hm | hm
  · exact h.nodup.not_mem_erase hm
  · exact absurd (h.below p hp) (Nat.not_lt.mpr hm)

lemma Wired.turn {p : ℕ} {env : Env κ} (h : Wired t none) (htimed : Timed t)
    (ht : t.turn now p env = some t') : Wired t' none ∧ Timed t' := by
  obtain ⟨m, hm, hnext⟩ := Option.bind_eq_some_iff.mp ht
  replace h := h.tick hm
  replace htimed := htimed.keeps (keeps_tick hm)
  obtain ⟨turn, hturn, hsettle⟩ := Option.bind_eq_some_iff.mp hnext
  rw [Timers.turn] at hturn
  split_ifs at hturn with htop
  obtain ⟨e, he, hturn⟩ := Option.bind_eq_some_iff.mp hturn
  rw [if_neg (fun hne => hne (h.sound.magic p e he))] at hturn
  split_ifs at hturn with hcancelled hearly
  · obtain rfl := Option.some.inj hturn
    obtain rfl := Option.some.inj hsettle
    have hnone : slots m.timers p = none := by
      simp [slots, he, hcancelled]
    refine ⟨(h.popForeign hnone).freeEvent ?_, htimed.withTimers _⟩
    exact h.sound.notMem_of_grows htop.1 (.refl _)
  · obtain rfl := Option.some.inj hturn
    obtain rfl := Option.some.inj hsettle
    exact ⟨h, htimed⟩
  · obtain rfl := Option.some.inj hturn
    obtain ⟨m', hcall, hfree⟩ := Option.bind_eq_some_iff.mp hsettle
    obtain rfl := Option.some.inj hfree
    suffices hkept : Kept { m with timers := m.timers.pop p } m' by
      refine ⟨hkept.wired.freeEvent ?_, hkept.timed.withTimers _⟩
      exact h.sound.notMem_of_grows htop.1 hkept.grows
    have hactive : e.state = .active := by
      cases hstate : e.state with
      | active => rfl
      | cancelled => exact absurd hstate hcancelled
    have hslot : slots m.timers p = e.cb.bind Callback.slot := by
      simp [slots, he, htop.1, hactive]
    cases hcb : e.cb with
    | none =>
        rw [hcb] at hcall hslot
        obtain rfl := Option.some.inj hcall
        exact ⟨h.popForeign hslot, htimed.withTimers _, .refl _⟩
    | some cb =>
        rw [hcb] at hcall hslot
        cases cb with
        | evr k c => exact h.call htimed hslot hcall
        | other x =>
            obtain ⟨hw, hk⟩ := (h.popForeign hslot).perform hcall
            exact ⟨hw, (htimed.withTimers _).keeps hk, hk.grows⟩

/-- A new session has its first timer. -/
lemma Wired.accept {later timeoutMs : ℕ} (h : Wired t none) (htimed : Timed t)
    (ht : t.accept now later timeoutMs = some t') : Wired t' none ∧ Timed t' := by
  rw [Thread.accept] at ht
  split_ifs at ht with hword
  obtain ⟨m, hm, hnext⟩ := Option.bind_eq_some_iff.mp ht
  replace h := h.tick hm
  replace htimed := htimed.keeps (keeps_tick hm)
  have hclock : m.clock = now := by
    obtain ⟨rfl, -⟩ := tick_eq hm
    rfl
  have hnew : m.sessions m.next = none := by
    rw [Option.eq_none_iff_forall_ne_some]
    intro s hs
    exact Nat.lt_irrefl _ (htimed.alive _ s hs).known
  set n : Thread κ := { m.note (.active m.next now) with
    sessions := Function.update m.sessions m.next
      (some ⟨fun _ => none, now, timeoutMs, .accepting⟩)
    next := m.next + 1 } with hn
  have hheld : n.held = m.held := by
    funext a
    obtain ⟨k, d⟩ := a
    by_cases hd : d = m.next
    · subst hd
      simp [hn, Thread.held, hnew]
    · simp [hn, Thread.held, Thread.note, hd]
  have hbare : Wired n (some m.next) := by
    refine ⟨h.sound, hheld ▸ h.handles, ?_⟩
    intro d hd hne
    have hdn : d ≠ m.next := fun heq => hne (by rw [heq])
    rw [hheld]
    exact h.armed d (by simpa [hn, Thread.note, hdn] using hd) (by simp)
  have htimed' : Timed n := by
    refine ⟨htimed.bounded, ?_, ?_, trivial, htimed.log⟩
    · intro d s hs
      by_cases hd : d = m.next
      · subst hd
        simp only [hn, Function.update_self, Option.some_inj] at hs
        obtain rfl := hs
        refine ⟨hclock.ge, hword, by simp, Nat.lt_succ_self _, ⟨now, List.mem_cons_self⟩, ?_⟩
        intro time hm
        rcases List.mem_cons.mp hm with heq | hm
        · exact (Obs.active.inj heq).2.le
        · exact absurd (htimed.old _ time hm) (Nat.lt_irrefl _)
      · simp only [hn, Function.update_of_ne hd] at hs
        obtain ⟨hpast, hword, hstate, hknown, ⟨time, hheard⟩, hlast⟩ := htimed.alive d s hs
        refine ⟨hpast, hword, hstate, Nat.lt_succ_of_lt hknown,
          ⟨time, List.mem_cons_of_mem _ hheard⟩, ?_⟩
        intro time' hm
        rcases List.mem_cons.mp hm with heq | hm
        · exact absurd (Obs.active.inj heq).1 hd
        · exact hlast time' hm
    · intro d time hm
      rcases List.mem_cons.mp hm with heq | hm
      · rw [(Obs.active.inj heq).1]
        exact Nat.lt_succ_self _
      · exact Nat.lt_succ_of_lt (htimed.old d time hm)
  have hc : n.sessions m.next ≠ none := by simp [hn]
  have hnone : n.held (.timeout, m.next) = none := by simp [hn, Thread.held]
  obtain ⟨hw, hk⟩ := hbare.addTimer hc hnone armed_again hnext
  exact ⟨hw, htimed'.keeps hk⟩

/-! ## Whole runs -/

/-- Between two steps, the handles and the queue agree, and the times are right. -/
structure Good (t : Thread κ) : Prop where
  wired : Wired t none
  timed : Timed t

lemma good_start {clock : ℕ} (h : clock < 2 ^ 64) :
    Good (⟨.empty, fun _ => none, 0, clock, []⟩ : Thread κ) where
  wired := by
    refine ⟨⟨List.nodup_nil, by simp [Timers.empty], by simp [Timers.empty]⟩, ?_, by simp⟩
    intro a p
    simp [Thread.held, slots, Timers.empty]
  timed := ⟨h, by simp, by simp, trivial⟩

lemma Good.step {l : Label κ} (h : Good t) (ht : step t l = some t') : Good t' := by
  cases l with
  | accept now later timeoutMs =>
      obtain ⟨hw, htimed⟩ := h.wired.accept h.timed ht
      exact ⟨hw, htimed⟩
  | readable c env =>
      obtain ⟨m, hm, rfl⟩ := Option.map_eq_some_iff.mp ht
      obtain ⟨hkept, haware⟩ := h.wired.runStateMachine h.timed (.inl rfl) hm
      exact ⟨hkept.wired.note _, hkept.timed.hear haware⟩
  | writeable c env =>
      obtain ⟨m, hm, rfl⟩ := Option.map_eq_some_iff.mp ht
      obtain ⟨hkept, haware⟩ := h.wired.runStateMachine h.timed (.inr rfl) hm
      exact ⟨hkept.wired.note _, hkept.timed.hear haware⟩
  | error c env =>
      have hkept := h.wired.onError h.timed ht
      exact ⟨hkept.wired, hkept.timed⟩
  | turn now p env =>
      obtain ⟨hw, htimed⟩ := h.wired.turn h.timed ht
      exact ⟨hw, htimed⟩
  | other acts =>
      obtain ⟨hw, hk⟩ := h.wired.perform ht
      exact ⟨hw, h.timed.keeps hk⟩

lemma Good.contract (h : Good t) : Contract t where
  one := by
    intro c s hs
    have hheld := h.wired.armed c (by simp [hs]) (by simp)
    have hone := h.wired.handles.existsUnique hheld
    simpa only [slots_eq_some_iff] using hone
  log := h.timed.log
  gone := by
    intro c hc p k hp
    have hheld : t.held (k, c) = none := by simp [Thread.held, hc]
    exact h.wired.handles.not_pending hheld p (slots_eq_some_iff.mpr hp)
  handles := by
    intro c s k p hs hevr
    have hheld : t.held (k, c) = some p := by rw [held_eq hs, hevr]
    exact slots_eq_some_iff.mp ((h.wired.handles (k, c) p).mp hheld)

/-- **The idle timer keeps its contract in every run**: while a session is alive exactly one timeout
is pending for it, its timer is armed again for delays in `(0, m_timeout_ms]`, it is torn down by
its timer only when `m_timeout_ms` have passed since it was last heard of, and once it is gone, no
pending event refers to it. -/
theorem idle_timer_contract (h : (machine κ).Reachable t) : Contract t := by
  have hgood : Good t := by
    refine h.invariant ?_ ?_
    · rintro s ⟨clock, hclock, rfl⟩
      exact good_start hclock
    · intro s l s' hs hstep
      exact hs.step hstep
  exact hgood.contract

/-- Something is heard of the first of two sessions, so its timer is armed again, and the second one
is torn down. -/
def twoSessions : List (Label Unit) :=
  [.accept 0 0 100, .accept 10 10 100, .readable 0 ⟨60, 60, [], .back false, []⟩,
    .turn 100 0 ⟨100, 100, [], .done, []⟩, .turn 110 1 ⟨110, 110, [], .done, []⟩]

theorem idle_timer_contract_two_sessions : ∃ t : Thread Unit, (machine Unit).Reachable t ∧
    Contract t ∧ (t.sessions 0).isSome ∧ t.sessions 1 = none ∧ t.log =
      [.timedOut 1 110 100, .rearmed 0 60 100, .active 0 60, .active 1 10, .active 0 0] := by
  have hrun : (twoSessions.foldlM step ⟨.empty, fun _ => none, 0, 0, []⟩).map
      (fun t => ((t.sessions 0).isSome, (t.sessions 1).isSome, t.log)) =
        some (true, false,
          [.timedOut 1 110 100, .rearmed 0 60 100, .active 0 60, .active 1 10, .active 0 0]) := by
    decide +kernel
  obtain ⟨t, ht, hobs⟩ := Option.map_eq_some_iff.mp hrun
  simp only [Prod.mk.injEq] at hobs
  have hreach : (machine Unit).Reachable t :=
    Machine.Reachable.foldlM (fun _ _ _ he => he) (.start ⟨0, by simp, rfl⟩) ht
  exact ⟨t, hreach, idle_timer_contract hreach, hobs.1, by simpa using hobs.2.1, hobs.2.2⟩

end IdleTimer

end Is2
