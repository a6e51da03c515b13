import Is2.Core.Machine
import Is2.Evr.Timers

/-!
# The contract of the timer queue

A run interleaves calls of `add_event`, `cancel_event` and `dequeue_events` in any order.  While
`dequeue_events` runs a callback, the callback itself may add and cancel events.  The clock is read
by `add_event` and at every turn of the drain loop, and never runs backwards.

What happens is written to a log, newest first.  The contract (`Log.Ok`) is a property of the log
alone: it says of every entry what must be true of it given the entries before it.  The log is kept
by the machine and read by nothing.
-/

namespace Is2

namespace Evr

variable {κ : Type}

/-! ## What is observed -/

/-- An entry of the log.  `served p due now ran`: the event was taken off the queue at reading
`now` as due at `due`; `ran` says whether it had a callback to run. -/
inductive Obs where
  | added (p time delay : ℕ)
  | cancelled (p : ℕ)
  | served (p due now : ℕ) (ran : Bool)
  | returned (wait now : ℕ)
deriving DecidableEq, Repr

/-- The event at `p` was added at `time` for `delay`, and was neither cancelled nor served. -/
structure Pending (log : List Obs) (p time delay : ℕ) : Prop where
  added : .added p time delay ∈ log
  live : .cancelled p ∉ log
  unserved : ∀ due now ran, .served p due now ran ∉ log

/-- What must be true of an entry, given the log before it. -/
def Obs.Ok (older : List Obs) : Obs → Prop
  -- a pointer names one event, and the delay is a `uint32_t`
  | added p _ delay => delay < 2 ^ 32 ∧ ∀ time' delay', .added p time' delay' ∉ older
  | cancelled _ => True
  -- its deadline is the time it was added plus its delay; it is not served early, not twice, not
  -- after it was cancelled, and not after an event with a later deadline
  | served p due now _ =>
      (∃ time delay, .added p time delay ∈ older ∧ due = time + delay) ∧ due ≤ now ∧
      (∀ due' now' ran', .served p due' now' ran' ∉ older) ∧ .cancelled p ∉ older ∧
      ∀ p' due' now' ran', .served p' due' now' ran' ∈ older → due' ≤ due
  -- nothing that is due is left behind, and the wait is that of the next event
  | returned wait now =>
      (∀ p time delay, Pending older p time delay → now < time + delay) ∧
      ((∀ p time delay, ¬ Pending older p time delay) ∧ wait = defaultTimeWaitMs ∨
        ∃ p time delay, Pending older p time delay ∧ wait = time + delay - now ∧
          ∀ p' time' delay', Pending older p' time' delay' → time + delay ≤ time' + delay')

/-- The contract: every entry is right, given those before it. -/
def Log.Ok : List Obs → Prop
  | [] => True
  | o :: older => o.Ok older ∧ Log.Ok older

/-! ## The machine -/

/-- Where control is: outside `dequeue_events`, at the head of its loop, or in a callback. -/
inductive Ctl where
  | idle
  | loop
  | calling (p : ℕ)
deriving DecidableEq, Repr

structure State (κ : Type) where
  timers : Timers κ
  clock : ℕ
  ctl : Ctl
  log : List Obs

inductive Label (κ : Type) where
  /-- `add_event`, at clock reading `now`. -/
  | add (now delay : ℕ) (cb : Option κ)
  /-- `cancel_event`. -/
  | cancel (p : Option ℕ)
  /-- `dequeue_events` is called. -/
  | call
  /-- A turn of its loop, at clock reading `now`, with `p` at the top of the queue. -/
  | turn (now p : ℕ)
  /-- The callback returns. -/
  | ret
  /-- The queue is empty, and the loop ends. -/
  | leave

/-- A step; `none` if it cannot be taken there. -/
def step (s : State κ) : Label κ → Option (State κ)
  | .add now delay cb =>
      if s.ctl ≠ .loop ∧ s.clock ≤ now ∧ delay < 2 ^ 32 then
        some { s with
          timers := s.timers.addEvent now delay cb
          clock := now
          log := .added s.timers.fresh now delay :: s.log }
      else none
  | .cancel p =>
      if s.ctl ≠ .loop then do
        let (t, _) ← s.timers.cancelEvent p
        some { s with timers := t, log := (p.toList.map Obs.cancelled) ++ s.log }
      else none
  | .call => if s.ctl = .idle then some { s with ctl := .loop } else none
  | .turn now p =>
      if s.ctl = .loop ∧ s.clock ≤ now then do
        match ← s.timers.turn now p with
        | .skip t => some { s with timers := t, clock := now }
        | .wait ms => some { s with clock := now, ctl := .idle, log := .returned ms now :: s.log }
        | .serve t due (some _) =>
            some { timers := t, clock := now, ctl := .calling p,
                   log := .served p due now true :: s.log }
        | .serve t due none =>
            some { s with
              timers := t.free p, clock := now, log := .served p due now false :: s.log }
      else none
  | .ret =>
      match s.ctl with
      | .calling p => some { s with timers := s.timers.free p, ctl := .loop }
      | _ => none
  | .leave =>
      if s.ctl = .loop ∧ s.timers.pq = [] then
        some { s with ctl := .idle, log := .returned defaultTimeWaitMs s.clock :: s.log }
      else none

/-- All runs from an empty queue, whatever the clock shows at first. -/
def machine (κ : Type) : Machine (State κ) (Label κ) where
  start s := ∃ clock, s = ⟨.empty, clock, .idle, []⟩
  step s l s' := step s l = some s'

/-! ## The invariant -/

/-- How the queue, the events and the log hang together. -/
structure Good (s : State κ) : Prop where
  nodup : s.timers.pq.Nodup
  queued : ∀ p ∈ s.timers.pq, ∃ e, s.timers.heap p = some e
  owned : ∀ p e, s.timers.heap p = some e → p ∈ s.timers.pq ∨ s.ctl = .calling p
  taken : ∀ p, s.ctl = .calling p → p ∉ s.timers.pq ∧ p < s.timers.fresh
  magic : ∀ p e, s.timers.heap p = some e → e.magic = eventMagic
  fresh : ∀ p time delay, .added p time delay ∈ s.log → p < s.timers.fresh
  named : ∀ p, .cancelled p ∈ s.log → p < s.timers.fresh
  /-- An event is due when its entry in the log says. -/
  added : ∀ p e, s.timers.heap p = some e →
    ∃ time delay, .added p time delay ∈ s.log ∧ e.timeMs = time + delay ∧ time ≤ s.clock ∧
      delay < 2 ^ 32
  unique : ∀ p time delay time' delay', .added p time delay ∈ s.log →
    .added p time' delay' ∈ s.log → time = time' ∧ delay = delay'
  /-- What was cancelled stays cancelled while it is queued, and nothing else is. -/
  cancelled : ∀ p e, p ∈ s.timers.pq → s.timers.heap p = some e →
    (e.state = .cancelled ↔ .cancelled p ∈ s.log)
  /-- What is pending is queued. -/
  pending : ∀ p time delay, Pending s.log p time delay → p ∈ s.timers.pq
  /-- What was served is not queued, and nothing that is queued is earlier. -/
  served : ∀ p due now ran, .served p due now ran ∈ s.log →
    p ∉ s.timers.pq ∧ p < s.timers.fresh ∧ due ≤ s.clock ∧
      ∀ p' ∈ s.timers.pq, due ≤ s.timers.timeMs p'
  log : Log.Ok s.log

lemma good_start (clock : ℕ) : Good (⟨.empty, clock, .idle, []⟩ : State κ) where
  nodup := by simp [Timers.empty]
  queued := by simp [Timers.empty]
  owned := by simp [Timers.empty]
  taken := by simp
  magic := by simp [Timers.empty]
  fresh := by simp
  named := by simp
  added := by simp [Timers.empty]
  unique := by simp
  cancelled := by simp [Timers.empty]
  pending := fun p time delay h => absurd h.added (by simp)
  served := by simp
  log := trivial

section Steps

variable {s : State κ}

lemma timeMs_of_heap {t : Timers κ} {p : ℕ} {e : Event κ} (h : t.heap p = some e) :
    t.timeMs p = e.timeMs := by
  simp [Timers.timeMs, h]

/-- The pointer `new` returns was not used before. -/
lemma Good.fresh_notMem (h : Good s) : s.timers.fresh ∉ s.timers.pq := by
  intro hm
  obtain ⟨e, he⟩ := h.queued _ hm
  obtain ⟨time, delay, ha, -⟩ := h.added _ e he
  exact Nat.lt_irrefl _ (h.fresh _ _ _ ha)

lemma Good.lt_fresh_of_heap (h : Good s) {p : ℕ} {e : Event κ} (he : s.timers.heap p = some e) :
    p ≠ s.timers.fresh := by
  obtain ⟨time, delay, ha, -⟩ := h.added _ e he
  exact Nat.ne_of_lt (h.fresh _ _ _ ha)

/-- `add_event`: the new event is later than everything served so far. -/
lemma Good.add (h : Good s) {now delay : ℕ} {cb : Option κ} (hnow : s.clock ≤ now)
    (hd : delay < 2 ^ 32) :
    Good { s with
      timers := s.timers.addEvent now delay cb
      clock := now
      log := .added s.timers.fresh now delay :: s.log } := by
  have hnew : ∀ time' delay', .added s.timers.fresh time' delay' ∉ s.log := fun _ _ ha =>
    Nat.lt_irrefl _ (h.fresh _ _ _ ha)
  have hold : ∀ p e, (s.timers.addEvent now delay cb).heap p = some e →
      (p = s.timers.fresh ∧ e = ⟨eventMagic, now + delay, cb, .active⟩) ∨
        s.timers.heap p = some e := by
    intro p e he
    by_cases hp : p = s.timers.fresh
    · subst hp
      simp only [Timers.addEvent, Function.update_self, Option.some.injEq] at he
      exact Or.inl ⟨rfl, he.symm⟩
    · simp only [Timers.addEvent, Function.update_of_ne hp] at he
      exact Or.inr he
  have htime : ∀ p ∈ s.timers.pq,
      (s.timers.addEvent now delay cb).timeMs p = s.timers.timeMs p := by
    intro p hp
    have hne : p ≠ s.timers.fresh := fun heq => h.fresh_notMem (heq ▸ hp)
    simp [Timers.timeMs, Timers.addEvent, Function.update_of_ne hne]
  refine
    { nodup := List.nodup_cons.mpr ⟨h.fresh_notMem, h.nodup⟩, queued := ?_, owned := ?_,
      taken := ?_, magic := ?_, fresh := ?_, named := ?_, added := ?_, unique := ?_,
      cancelled := ?_, pending := ?_, served := ?_, log := ⟨⟨hd, hnew⟩, h.log⟩ }
  · intro p hp
    rcases List.mem_cons.mp hp with rfl | hp
    · exact ⟨_, Function.update_self ..⟩
    · obtain ⟨e, he⟩ := h.queued p hp
      exact ⟨e, by simpa [Timers.addEvent, Function.update_of_ne (h.lt_fresh_of_heap he)] using he⟩
  · intro p e he
    rcases hold p e he with ⟨rfl, -⟩ | he
    · exact Or.inl List.mem_cons_self
    · exact (h.owned p e he).imp (List.mem_cons_of_mem _) id
  · intro p hp
    obtain ⟨hq, hlt⟩ := h.taken p hp
    exact ⟨fun hm => (List.mem_cons.mp hm).elim (Nat.ne_of_lt hlt) hq, Nat.lt_succ_of_lt hlt⟩
  · intro p e he
    rcases hold p e he with ⟨-, rfl⟩ | he
    · rfl
    · exact h.magic p e he
  · intro p time d hm
    rcases List.mem_cons.mp hm with heq | hm
    · obtain ⟨rfl, -⟩ := Obs.added.inj heq
      exact Nat.lt_succ_self _
    · exact Nat.lt_succ_of_lt (h.fresh p time d hm)
  · intro p hm
    exact Nat.lt_succ_of_lt (h.named p (by simpa using hm))
  · intro p e he
    rcases hold p e he with ⟨rfl, rfl⟩ | he
    · exact ⟨now, delay, List.mem_cons_self, rfl, Nat.le_refl _, hd⟩
    · obtain ⟨time, d, ha, ht, hle, hlt⟩ := h.added p e he
      exact ⟨time, d, List.mem_cons_of_mem _ ha, ht, Nat.le_trans hle hnow, hlt⟩
  · intro p time d time' d' h1 h2
    rcases List.mem_cons.mp h1 with h1 | h1 <;> rcases List.mem_cons.mp h2 with h2 | h2
    · obtain ⟨-, rfl, rfl⟩ := Obs.added.inj h1
      obtain ⟨-, rfl, rfl⟩ := Obs.added.inj h2
      exact ⟨rfl, rfl⟩
    · obtain ⟨rfl, -⟩ := Obs.added.inj h1
      exact absurd h2 (hnew _ _)
    · obtain ⟨rfl, -⟩ := Obs.added.inj h2
      exact absurd h1 (hnew _ _)
    · exact h.unique p time d time' d' h1 h2
  · intro p e hp he
    have hlog : Obs.cancelled p ∈ Obs.added s.timers.fresh now delay :: s.log ↔
        .cancelled p ∈ s.log := by simp
    rw [hlog]
    rcases hold p e he with ⟨rfl, rfl⟩ | he
    · exact ⟨fun hst => by simp at hst, fun hm => absurd (h.named _ hm) (Nat.lt_irrefl _)⟩
    · refine h.cancelled p e ?_ he
      exact (List.mem_cons.mp hp).resolve_left (h.lt_fresh_of_heap he)
  · intro p time d hp
    rcases List.mem_cons.mp hp.added with heq | hm
    · obtain ⟨rfl, -⟩ := Obs.added.inj heq
      exact List.mem_cons_self
    · refine List.mem_cons_of_mem _ (h.pending p time d ⟨hm, ?_, ?_⟩)
      · exact fun hl => hp.live (List.mem_cons_of_mem _ hl)
      · exact fun due n ran hl => hp.unserved due n ran (List.mem_cons_of_mem _ hl)
  · intro p due now' ran hm
    obtain ⟨hq, hlt, hdue, hmin⟩ := h.served p due now' ran (by simpa using hm)
    refine ⟨fun hm => (List.mem_cons.mp hm).elim (Nat.ne_of_lt hlt) hq, Nat.lt_succ_of_lt hlt,
      Nat.le_trans hdue hnow, ?_⟩
    intro p' hp'
    rcases List.mem_cons.mp hp' with rfl | hp'
    · rw [timeMs_of_heap (Function.update_self ..)]
      exact Nat.le_trans (Nat.le_trans hdue hnow) (Nat.le_add_right _ _)
    · rw [htime p' hp']
      exact hmin p' hp'

/-- `cancel_event`: the event stays where it is and is marked. -/
lemma Good.cancel (h : Good s) {p : ℕ} {e : Event κ} (he : s.timers.heap p = some e) :
    Good { s with
      timers := { s.timers with
        heap := Function.update s.timers.heap p (some { e with cb := none, state := .cancelled }) }
      log := .cancelled p :: s.log } := by
  set t : Timers κ := { s.timers with
    heap := Function.update s.timers.heap p (some { e with cb := none, state := .cancelled }) }
    with ht
  have hcase : ∀ p' e', t.heap p' = some e' →
      ∃ e₀, s.timers.heap p' = some e₀ ∧ e'.magic = e₀.magic ∧ e'.timeMs = e₀.timeMs ∧
        (p' = p ∧ e'.state = .cancelled ∨ p' ≠ p ∧ e' = e₀) := by
    intro p' e' he'
    by_cases hp : p' = p
    · subst hp
      simp only [ht, Function.update_self, Option.some.injEq] at he'
      exact ⟨e, he, by rw [← he'], by rw [← he'], Or.inl ⟨rfl, by rw [← he']⟩⟩
    · simp only [ht, Function.update_of_ne hp] at he'
      exact ⟨e', he', rfl, rfl, Or.inr ⟨hp, rfl⟩⟩
  have htime : ∀ p', t.timeMs p' = s.timers.timeMs p' := by
    intro p'
    by_cases hp : p' = p
    · subst hp
      simp [Timers.timeMs, ht, he]
    · simp [Timers.timeMs, ht, Function.update_of_ne hp]
  refine
    { nodup := h.nodup, queued := ?_, owned := ?_, taken := h.taken, magic := ?_, fresh := ?_,
      named := ?_, added := ?_, unique := ?_, cancelled := ?_, pending := ?_, served := ?_,
      log := ⟨trivial, h.log⟩ }
  · intro p' hp'
    by_cases hp : p' = p
    · subst hp
      exact ⟨_, Function.update_self ..⟩
    · obtain ⟨e', he'⟩ := h.queued p' hp'
      exact ⟨e', by simpa [ht, Function.update_of_ne hp] using he'⟩
  · intro p' e' he'
    obtain ⟨e₀, he₀, -⟩ := hcase p' e' he'
    exact h.owned p' e₀ he₀
  · intro p' e' he'
    obtain ⟨e₀, he₀, hm, -⟩ := hcase p' e' he'
    rw [hm]
    exact h.magic p' e₀ he₀
  · intro p' time d hm
    exact h.fresh p' time d (by simpa using hm)
  · intro p' hm
    rcases List.mem_cons.mp hm with heq | hm
    · obtain rfl := Obs.cancelled.inj heq
      obtain ⟨time, d, ha, -⟩ := h.added _ e he
      exact h.fresh _ _ _ ha
    · exact h.named p' hm
  · intro p' e' he'
    obtain ⟨e₀, he₀, -, htm, -⟩ := hcase p' e' he'
    obtain ⟨time, d, ha, heq, hrest⟩ := h.added p' e₀ he₀
    exact ⟨time, d, List.mem_cons_of_mem _ ha, by rw [htm, heq], hrest⟩
  · intro p' time d time' d' h1 h2
    exact h.unique p' time d time' d' (by simpa using h1) (by simpa using h2)
  · intro p' e' hp' he'
    obtain ⟨e₀, he₀, -, -, ⟨rfl, hst⟩ | ⟨hne, rfl⟩⟩ := hcase p' e' he'
    · exact ⟨fun _ => List.mem_cons_self, fun _ => hst⟩
    · rw [h.cancelled p' e' hp' he₀]
      simp [hne]
  · intro p' time d hp
    refine h.pending p' time d ⟨by simpa using hp.added, ?_, ?_⟩
    · exact fun hl => hp.live (List.mem_cons_of_mem _ hl)
    · exact fun due n ran hl => hp.unserved due n ran (List.mem_cons_of_mem _ hl)
  · intro p' due n ran hm
    obtain ⟨hq, hlt, hdue, hmin⟩ := h.served p' due n ran (by simpa using hm)
    exact ⟨hq, hlt, hdue, fun p'' hp'' => by rw [htime]; exact hmin p'' hp''⟩

/-- An event leaves the queue: it was cancelled, or it is written down as served.  It is freed
now, or its callback runs. -/
lemma Good.take (h : Good s) {p : ℕ} (hp : p ∈ s.timers.pq) (hc : s.ctl = .loop) {s' : State κ}
    (hpq : s'.timers.pq = s.timers.pq.erase p) (hfresh : s'.timers.fresh = s.timers.fresh)
    (hheap : ∀ p', p' ≠ p → s'.timers.heap p' = s.timers.heap p')
    (hself : s'.timers.heap p = none ∧ s'.ctl = .loop ∨
      s'.timers.heap p = s.timers.heap p ∧ s'.ctl = .calling p)
    (hclock : s.clock ≤ s'.clock) (hok : Log.Ok s'.log)
    (hlog : s'.log = s.log ∧ .cancelled p ∈ s.log ∨
      ∃ due now ran, s'.log = .served p due now ran :: s.log ∧ due ≤ s'.clock ∧
        ∀ p' ∈ s.timers.pq, due ≤ s.timers.timeMs p') : Good s' := by
  have hmem : ∀ p', p' ∈ s'.timers.pq ↔ p' ≠ p ∧ p' ∈ s.timers.pq := by
    intro p'
    rw [hpq, h.nodup.mem_erase_iff]
  have hheap' : ∀ p' e, s'.timers.heap p' = some e → s.timers.heap p' = some e := by
    intro p' e he
    by_cases hpp : p' = p
    · subst hpp
      rcases hself with ⟨hn, -⟩ | ⟨hs, -⟩
      · rw [hn] at he
        exact absurd he (by simp)
      · rwa [hs] at he
    · rwa [hheap p' hpp] at he
  have htime : ∀ p' ∈ s'.timers.pq, s'.timers.timeMs p' = s.timers.timeMs p' := by
    intro p' hp'
    simp [Timers.timeMs, hheap p' ((hmem p').mp hp').1]
  -- the log only grows by a `served` entry
  have hsub : ∀ o ∈ s.log, o ∈ s'.log := by
    intro o ho
    rcases hlog with ⟨hl, -⟩ | ⟨due, now, ran, hl, -⟩
    · rwa [hl]
    · rw [hl]
      exact List.mem_cons_of_mem _ ho
  have hback : ∀ o ∈ s'.log, o ∈ s.log ∨ ∃ due now ran, o = .served p due now ran ∧
      due ≤ s'.clock ∧ ∀ p' ∈ s.timers.pq, due ≤ s.timers.timeMs p' := by
    intro o ho
    rcases hlog with ⟨hl, -⟩ | ⟨due, now, ran, hl, hrest⟩
    · rw [hl] at ho
      exact Or.inl ho
    · rw [hl] at ho
      rcases List.mem_cons.mp ho with rfl | ho
      · exact Or.inr ⟨due, now, ran, rfl, hrest⟩
      · exact Or.inl ho
  have hadded : ∀ p' time d, .added p' time d ∈ s'.log → .added p' time d ∈ s.log := by
    intro p' time d hm
    rcases hback _ hm with hm | ⟨due, now, ran, heq, -⟩
    · exact hm
    · exact absurd heq (by simp)
  have hcanc : ∀ p', .cancelled p' ∈ s'.log → .cancelled p' ∈ s.log := by
    intro p' hm
    rcases hback _ hm with hm | ⟨due, now, ran, heq, -⟩
    · exact hm
    · exact absurd heq (by simp)
  have hlt : p < s.timers.fresh := by
    obtain ⟨e, he⟩ := h.queued p hp
    obtain ⟨time, d, ha, -⟩ := h.added p e he
    exact h.fresh _ _ _ ha
  refine
    { nodup := by rw [hpq]; exact h.nodup.erase p, queued := ?_, owned := ?_, taken := ?_,
      magic := fun p' e he => h.magic p' e (hheap' p' e he), fresh := ?_, named := ?_,
      added := ?_, unique := ?_, cancelled := ?_, pending := ?_, served := ?_, log := hok }
  · intro p' hp'
    obtain ⟨hne, hm⟩ := (hmem p').mp hp'
    rw [hheap p' hne]
    exact h.queued p' hm
  · intro p' e he
    by_cases hpp : p' = p
    · subst hpp
      rcases hself with ⟨hn, -⟩ | ⟨-, hc'⟩
      · rw [hn] at he
        exact absurd he (by simp)
      · exact Or.inr hc'
    · rcases h.owned p' e (hheap' p' e he) with hm | hcl
      · exact Or.inl ((hmem p').mpr ⟨hpp, hm⟩)
      · rw [hc] at hcl
        exact absurd hcl (by simp)
  · intro p' hp'
    rcases hself with ⟨-, hc'⟩ | ⟨-, hc'⟩
    · rw [hc'] at hp'
      exact absurd hp' (by simp)
    · rw [hc'] at hp'
      obtain rfl := Ctl.calling.inj hp'
      exact ⟨fun hm => ((hmem p).mp hm).1 rfl, by rw [hfresh]; exact hlt⟩
  · intro p' time d hm
    rw [hfresh]
    exact h.fresh p' time d (hadded _ _ _ hm)
  · intro p' hm
    rw [hfresh]
    exact h.named p' (hcanc p' hm)
  · intro p' e he
    obtain ⟨time, d, ha, heq, hle, hd⟩ := h.added p' e (hheap' p' e he)
    exact ⟨time, d, hsub _ ha, heq, Nat.le_trans hle hclock, hd⟩
  · intro p' time d time' d' h1 h2
    exact h.unique p' time d time' d' (hadded _ _ _ h1) (hadded _ _ _ h2)
  · intro p' e hp' he
    rw [h.cancelled p' e ((hmem p').mp hp').2 (hheap' p' e he)]
    exact ⟨hsub _, hcanc p'⟩
  · intro p' time d hpend
    have hm := h.pending p' time d ⟨hadded _ _ _ hpend.added, fun hl => hpend.live (hsub _ hl),
      fun due n ran hl => hpend.unserved due n ran (hsub _ hl)⟩
    refine (hmem p').mpr ⟨?_, hm⟩
    rintro rfl
    rcases hlog with ⟨hl, hcl⟩ | ⟨due, now, ran, hl, -⟩
    · exact hpend.live (hsub _ hcl)
    · exact hpend.unserved due now ran (by rw [hl]; exact List.mem_cons_self)
  · intro p' due n ran hm
    rcases hback _ hm with hm | ⟨due', now', ran', heq, hdue, hmin⟩
    · obtain ⟨hq, hf, hdue, hmin⟩ := h.served p' due n ran hm
      refine ⟨fun hm => hq ((hmem p').mp hm).2, by rw [hfresh]; exact hf,
        Nat.le_trans hdue hclock, fun p'' hp'' => ?_⟩
      rw [htime p'' hp'']
      exact hmin p'' ((hmem p'').mp hp'').2
    · obtain ⟨rfl, rfl, -⟩ := Obs.served.inj heq
      refine ⟨fun hm => ((hmem _).mp hm).1 rfl, by rw [hfresh]; exact hlt, hdue, fun p'' hp'' => ?_⟩
      rw [htime p'' hp'']
      exact hmin p'' ((hmem p'').mp hp'').2

/-- What `served` must say of the top of the queue. -/
lemma Good.served_ok (h : Good s) {p : ℕ} (htop : s.timers.IsTop p) {e : Event κ}
    (he : s.timers.heap p = some e) (hst : e.state ≠ .cancelled) {now : ℕ}
    (hnow : e.timeMs ≤ now) (ran : Bool) : (Obs.served p e.timeMs now ran).Ok s.log := by
  obtain ⟨time, d, ha, heq, -⟩ := h.added p e he
  refine ⟨⟨time, d, ha, heq⟩, hnow, ?_, ?_, ?_⟩
  · intro due' now' ran' hm
    exact (h.served p due' now' ran' hm).1 htop.1
  · intro hm
    exact hst ((h.cancelled p e htop.1 he).mpr hm)
  · intro p' due' now' ran' hm
    have := (h.served p' due' now' ran' hm).2.2.2 p htop.1
    rwa [timeMs_of_heap he] at this

/-- What `returned` must say when the top of the queue is not yet due. -/
lemma Good.wait_ok (h : Good s) {p : ℕ} (htop : s.timers.IsTop p) {e : Event κ}
    (he : s.timers.heap p = some e) (hst : e.state ≠ .cancelled) {now : ℕ}
    (hclock : s.clock ≤ now) (hnow : now < e.timeMs) :
    (Obs.returned ((e.timeMs - now) % 2 ^ 32) now).Ok s.log := by
  obtain ⟨time, d, ha, heq, hle, hd⟩ := h.added p e he
  have hmin : ∀ p' time' d', Pending s.log p' time' d' → e.timeMs ≤ time' + d' := by
    intro p' time' d' hp'
    have hm := h.pending p' time' d' hp'
    obtain ⟨e', he'⟩ := h.queued p' hm
    obtain ⟨t'', d'', ha', heq', -⟩ := h.added p' e' he'
    obtain ⟨rfl, rfl⟩ := h.unique p' _ _ _ _ ha' hp'.added
    have := htop.2 p' hm
    rwa [timeMs_of_heap he, timeMs_of_heap he', heq'] at this
  refine ⟨fun p' time' d' hp' => Nat.lt_of_lt_of_le hnow (hmin p' time' d' hp'), Or.inr ?_⟩
  refine ⟨p, time, d, ⟨ha, ?_, ?_⟩, ?_, ?_⟩
  · intro hm
    exact hst ((h.cancelled p e htop.1 he).mpr hm)
  · intro due' now' ran' hm
    exact (h.served p due' now' ran' hm).1 htop.1
  · -- the difference is at most the delay, so nothing is cut off
    rw [← heq, Nat.mod_eq_of_lt (by omega)]
  · rw [← heq]
    exact hmin

/-- `dequeue_events` returns. -/
lemma Good.returned (h : Good s) {wait now : ℕ} (hc : s.ctl = .loop) (hclock : s.clock ≤ now)
    (hok : (Obs.returned wait now).Ok s.log) :
    Good { s with clock := now, ctl := .idle, log := .returned wait now :: s.log } := by
  refine
    { nodup := h.nodup, queued := h.queued, owned := ?_, taken := by simp, magic := h.magic,
      fresh := fun p time d hm => h.fresh p time d (by simpa using hm),
      named := fun p hm => h.named p (by simpa using hm), added := ?_,
      unique := fun p time d time' d' h1 h2 =>
        h.unique p time d time' d' (by simpa using h1) (by simpa using h2),
      cancelled := fun p e hp he => by rw [h.cancelled p e hp he]; simp, pending := ?_,
      served := ?_, log := ⟨hok, h.log⟩ }
  · intro p e he
    refine Or.inl ((h.owned p e he).resolve_right ?_)
    rw [hc]
    simp
  · intro p e he
    obtain ⟨time, d, ha, heq, hle, hd⟩ := h.added p e he
    exact ⟨time, d, List.mem_cons_of_mem _ ha, heq, Nat.le_trans hle hclock, hd⟩
  · intro p time d hp
    exact h.pending p time d ⟨by simpa using hp.added, by simpa using hp.live,
      fun due n ran => by simpa using hp.unserved due n ran⟩
  · intro p due n ran hm
    obtain ⟨hq, hf, hdue, hmin⟩ := h.served p due n ran (by simpa using hm)
    exact ⟨hq, hf, Nat.le_trans hdue hclock, hmin⟩

/-- One turn of the drain loop. -/
lemma Good.turn (h : Good s) {now p : ℕ} {s' : State κ} (he : step s (.turn now p) = some s') :
    Good s' := by
  simp only [step] at he
  split_ifs at he with hcond
  obtain ⟨hc, hclock⟩ := hcond
  obtain ⟨turn, ht, he⟩ := Option.bind_eq_some_iff.mp he
  unfold Timers.turn at ht
  split_ifs at ht with htop
  obtain ⟨e, hev, ht⟩ := Option.bind_eq_some_iff.mp ht
  rw [if_neg (by simp [h.magic p e hev])] at ht
  by_cases hst : e.state = .cancelled
  · -- a cancelled event surfaces and is freed
    rw [if_pos hst] at ht
    obtain rfl := Option.some.inj ht
    obtain rfl := Option.some.inj he
    exact h.take htop.1 hc rfl rfl
      (fun p' hp' => by simp [Timers.pop, Timers.free, Function.update_of_ne hp'])
      (Or.inl ⟨Function.update_self .., hc⟩) hclock h.log
      (Or.inl ⟨rfl, (h.cancelled p e htop.1 hev).mp hst⟩)
  · rw [if_neg hst] at ht
    by_cases hdue : now < e.timeMs
    · rw [if_pos hdue] at ht
      obtain rfl := Option.some.inj ht
      obtain rfl := Option.some.inj he
      exact h.returned hc hclock (h.wait_ok htop hev hst hclock hdue)
    · rw [if_neg hdue] at ht
      obtain rfl := Option.some.inj ht
      have hle : e.timeMs ≤ now := Nat.not_lt.mp hdue
      have hmin : ∀ p' ∈ s.timers.pq, e.timeMs ≤ s.timers.timeMs p' := by
        intro p' hp'
        have := htop.2 p' hp'
        rwa [timeMs_of_heap hev] at this
      cases hcb : e.cb with
      | some cb =>
          rw [hcb] at he
          obtain rfl := Option.some.inj he
          exact h.take htop.1 hc rfl rfl (fun p' _ => rfl) (Or.inr ⟨rfl, rfl⟩) hclock
            ⟨h.served_ok htop hev hst hle true, h.log⟩ (Or.inr ⟨_, _, _, rfl, hle, hmin⟩)
      | none =>
          rw [hcb] at he
          obtain rfl := Option.some.inj he
          exact h.take htop.1 hc rfl rfl
            (fun p' hp' => by simp [Timers.pop, Timers.free, Function.update_of_ne hp'])
            (Or.inl ⟨Function.update_self .., hc⟩) hclock
            ⟨h.served_ok htop hev hst hle false, h.log⟩ (Or.inr ⟨_, _, _, rfl, hle, hmin⟩)

/-- The callback returns and its event is freed. -/
lemma Good.ret (h : Good s) {p : ℕ} (hc : s.ctl = .calling p) :
    Good { s with timers := s.timers.free p, ctl := .loop } := by
  have hp := (h.taken p hc).1
  have hne : ∀ p' ∈ s.timers.pq, p' ≠ p := fun p' hp' heq => hp (heq ▸ hp')
  have hheap : ∀ p' e, (s.timers.free p).heap p' = some e →
      p' ≠ p ∧ s.timers.heap p' = some e := by
    intro p' e he
    by_cases hpp : p' = p
    · subst hpp
      simp [Timers.free] at he
    · simp only [Timers.free, Function.update_of_ne hpp] at he
      exact ⟨hpp, he⟩
  refine
    { nodup := h.nodup, queued := ?_, owned := ?_, taken := by simp,
      magic := fun p' e he => h.magic p' e (hheap p' e he).2, fresh := h.fresh, named := h.named,
      added := fun p' e he => h.added p' e (hheap p' e he).2, unique := h.unique,
      cancelled := fun p' e hp' he => h.cancelled p' e hp' (hheap p' e he).2,
      pending := h.pending, served := ?_, log := h.log }
  · intro p' hp'
    obtain ⟨e, he⟩ := h.queued p' hp'
    exact ⟨e, by simpa [Timers.free, Function.update_of_ne (hne p' hp')] using he⟩
  · intro p' e he
    obtain ⟨hpp, he⟩ := hheap p' e he
    rcases h.owned p' e he with hm | hcl
    · exact Or.inl hm
    · rw [hc] at hcl
      exact absurd (Ctl.calling.inj hcl).symm hpp
  · intro p' due n ran hm
    obtain ⟨hq, hf, hdue, hmin⟩ := h.served p' due n ran hm
    refine ⟨hq, hf, hdue, fun p'' hp'' => ?_⟩
    have : (s.timers.free p).timeMs p'' = s.timers.timeMs p'' := by
      simp [Timers.timeMs, Timers.free, Function.update_of_ne (hne p'' hp'')]
    rw [this]
    exact hmin p'' hp''

/-- Every step keeps the invariant. -/
lemma Good.step (h : Good s) {l : Label κ} {s' : State κ} (he : step s l = some s') : Good s' := by
  cases l with
  | add now delay cb =>
      simp only [Evr.step] at he
      split_ifs at he with hcond
      obtain rfl := Option.some.inj he
      exact h.add hcond.2.1 hcond.2.2
  | cancel p =>
      simp only [Evr.step] at he
      split_ifs at he with hcond
      cases p with
      | none =>
          simp only [Timers.cancelEvent, Option.bind_eq_bind, Option.bind_some] at he
          obtain rfl := Option.some.inj he
          exact h
      | some p =>
          obtain ⟨⟨t, st⟩, ht, he⟩ := Option.bind_eq_some_iff.mp he
          obtain ⟨e, hev, ht⟩ := Option.bind_eq_some_iff.mp ht
          obtain ⟨rfl, -⟩ := Prod.mk.inj (Option.some.inj ht)
          obtain rfl := Option.some.inj he
          exact h.cancel hev
  | call =>
      simp only [Evr.step] at he
      split_ifs at he with hcond
      obtain rfl := Option.some.inj he
      exact
        { h with
          owned := fun p e hp => Or.inl ((h.owned p e hp).resolve_right (by rw [hcond]; simp))
          taken := by simp }
  | turn now p => exact h.turn he
  | ret =>
      simp only [Evr.step] at he
      split at he
      · rename_i p hc
        obtain rfl := Option.some.inj he
        exact h.ret hc
      · exact absurd he (by simp)
  | leave =>
      simp only [Evr.step] at he
      split_ifs at he with hcond
      obtain rfl := Option.some.inj he
      refine h.returned hcond.1 (Nat.le_refl _) ⟨?_, Or.inl ⟨?_, rfl⟩⟩
      · intro p time d hp
        have := h.pending p time d hp
        simp [hcond.2] at this
      · intro p time d hp
        have := h.pending p time d hp
        simp [hcond.2] at this

end Steps

/-- **The contract of the timer queue.**  In every run, each event is served at most once, not
before its deadline and not after it was cancelled; deadlines never decrease from one served event
to the next; and when `dequeue_events` returns nothing that is due is left, and the wait is the time
to the next deadline. -/
theorem timers_contract {s : State κ} (h : (machine κ).Reachable s) : Log.Ok s.log := by
  refine (Machine.Reachable.invariant (P := Good) ?_ ?_ h).log
  · rintro s ⟨clock, rfl⟩
    exact good_start clock
  · exact fun s l s' hs he => hs.step he

/-- Three timers; the callback of the first cancels the second and adds a fourth. -/
theorem timers_contract_run : ∃ s : State Unit, (machine Unit).Reachable s ∧
    s.log = [.returned 4 6, .served 3 6 6 true, .added 3 6 0, .cancelled 1, .served 0 5 6 true,
      .added 2 2 8, .added 1 2 3, .added 0 0 5] ∧ Log.Ok s.log := by
  have hrun : (([.add 0 5 (some ()), .add 2 3 (some ()), .add 2 8 (some ()), .call, .turn 6 0,
      .cancel (some 1), .add 6 0 (some ()), .ret, .turn 6 1, .turn 6 3, .ret, .turn 6 2] :
      List (Label Unit)).foldlM Evr.step ⟨.empty, 0, .idle, []⟩).map State.log
        = some [.returned 4 6, .served 3 6 6 true, .added 3 6 0, .cancelled 1, .served 0 5 6 true,
            .added 2 2 8, .added 1 2 3, .added 0 0 5] := by
    decide
  obtain ⟨s, hs, hlog⟩ := Option.map_eq_some_iff.mp hrun
  have h : (machine Unit).Reachable s :=
    Machine.Reachable.foldlM (fun _ _ _ he => he) (.start ⟨0, rfl⟩) hs
  exact ⟨s, h, hlog, timers_contract h⟩

end Evr

end Is2
