import Is2.Evr.Weight
import Is2.Srvr.UpsWork
import Is2.Srvr.Thread

/-!
# What the callbacks of a server thread leave to do

The callbacks that `dequeue_events` runs add timers to the queue that it drains.  What one of them
does to the timers and to the sessions is its `Effect`.  Timers with a delay are weighed
(`timerItem`), and so is what a session has to send besides its output (`sessionItem`).

* `Touch`: no timer with a delay is added, and the `TSrvr` does nothing.
* `Quiet`: no timer with a delay is added, and the `TSrvr` has no more to do than before.
* `Rearms`: at most one timer with a delay is added.
* `Wrote`: a pass of the writing callback leaves its session less to send, or fewer passes.
-/

namespace Is2

namespace Srvr

open Evr

variable {σ : Type} {P : RespParser σ} {cf : TConf} {T : ℕ} {th th' : Thread σ}

/-! ## What is left to do -/

/-- A timer with a delay weighs the more the sooner it is due, as long as the clock is not past
`T`. -/
def timerItem (T time : ℕ) : Option Callback → ℕ
  | none => 0
  | some .subrDequeue => 0
  | some (.writeable _) => 0
  | some _ => 2 * (T + 1 - time)

lemma timerItem_none_le (time : ℕ) (cb : Option Callback) :
    timerItem T time none ≤ timerItem T time cb := Nat.zero_le _

lemma timerItem_le (time : ℕ) (cb : Option Callback) :
    timerItem T time cb ≤ 2 * (T + 1 - time) := by
  unfold timerItem
  split <;> omega

/-- What a session still has to send besides its output: a file, by the bytes that were not read. -/
def BaseU.item : BaseU → ℕ
  | .file f => if f.fd < 0 then 1 else f.size - f.read + 2
  | .subr _ => 1

lemma BaseU.item_pos (u : BaseU) : 0 < u.item := by
  cases u with
  | file f =>
      simp only [BaseU.item]
      split_ifs <;> omega
  | subr s => exact Nat.one_pos

/-- A session, and what it has to send. -/
def sessionItem : Option ClientSession → ℕ
  | none => 0
  | some C => 1 + C.u.elim 0 BaseU.item

lemma sessionItem_eq_zero {o : Option ClientSession} : sessionItem o = 0 ↔ o = none := by
  cases o with
  | none => simp [sessionItem]
  | some C => simp [sessionItem]

/-! ## What the single changes do -/

/-- What code that runs inside a callback does to the timers and the sessions: it adds timers, which
weigh `n` at most, and cancels some; and the sessions get no more to send. -/
structure Effect (T n : ℕ) (th th' : Thread σ) : Prop where
  ok : th.timers.Ok → th'.timers.Ok
  fresh : th.timers.fresh ≤ th'.timers.fresh
  popped : ∀ p, p < th.timers.fresh → p ∉ th.timers.pq → p ∉ th'.timers.pq
  weight : th.timers.Ok → th'.timers.weight (timerItem T) ≤ th.timers.weight (timerItem T) + n
  sessions : ∀ c, sessionItem (th'.sessions c) ≤ sessionItem (th.sessions c)

lemma effect_of_eq (ht : th'.timers = th.timers)
    (hs : ∀ c, sessionItem (th'.sessions c) ≤ sessionItem (th.sessions c)) : Effect T 0 th th' := by
  refine ⟨?_, ?_, ?_, ?_, hs⟩ <;> rw [ht]
  · exact id
  · exact fun _ _ => id
  · exact fun _ => Nat.le_refl _

lemma Effect.trans {n m : ℕ} {th'' : Thread σ} (h : Effect T n th th') (h' : Effect T m th' th'') :
    Effect T (n + m) th th'' where
  ok hok := h'.ok (h.ok hok)
  fresh := h.fresh.trans h'.fresh
  popped p hlt hp := h'.popped p (hlt.trans_le h.fresh) (h.popped p hlt hp)
  weight hok := by
    have h₁ := h.weight hok
    have h₂ := h'.weight (h.ok hok)
    omega
  sessions c := (h'.sessions c).trans (h.sessions c)

/-- An effect is about the timers and the sessions only. -/
lemma Effect.congr {n : ℕ} {th₁ th₁' : Thread σ} (h : Effect T n th th')
    (ht : th₁.timers = th.timers) (hs : th₁.sessions = th.sessions)
    (ht' : th₁'.timers = th'.timers) (hs' : th₁'.sessions = th'.sessions) :
    Effect T n th₁ th₁' := by
  refine ⟨?_, ?_, ?_, ?_, ?_⟩
  all_goals simp only [ht, hs, ht', hs']
  · exact h.ok
  · exact h.fresh
  · exact h.popped
  · exact h.weight
  · exact h.sessions

/-- Effects on the timers and sessions only. -/
structure Touch (T : ℕ) (th th' : Thread σ) : Prop where
  effect : Effect T 0 th th'
  srvr : th'.srvr = th.srvr

lemma Touch.trans {th'' : Thread σ} (h : Touch T th th') (h' : Touch T th' th'') :
    Touch T th th'' := ⟨h.effect.trans h'.effect, h'.srvr.trans h.srvr⟩

lemma touch_of_eq (ht : th'.timers = th.timers)
    (hs : ∀ c, sessionItem (th'.sessions c) ≤ sessionItem (th.sessions c))
    (hsrvr : th'.srvr = th.srvr) : Touch T th th' := ⟨effect_of_eq ht hs, hsrvr⟩

lemma effect_addTimer (th : Thread σ) (now delay : ℕ) (cb : Callback) :
    Effect T (timerItem T (now + delay) (some cb)) th (th.addTimer now delay cb) where
  ok hok := hok.addEvent
  fresh := Nat.le_succ _
  popped p hlt hp hm := by
    rcases List.mem_cons.mp hm with rfl | hm
    · exact Nat.lt_irrefl _ hlt
    · exact hp hm
  weight hok := by
    rw [Thread.addTimer, Timers.weight_addEvent hok]
    omega
  sessions _ := Nat.le_refl _

lemma touch_cancelEvent {o : Option ℕ} (he : th.cancelEvent o = some th') : Touch T th th' := by
  obtain ⟨⟨t, st⟩, hc, rfl⟩ := Option.map_eq_some_iff.mp he
  obtain ⟨hpq, hfresh⟩ := Timers.cancelEvent_pq hc
  refine ⟨⟨fun hok => hok.cancelEvent hc, hfresh.ge, fun p _ hp => ?_, fun _ => ?_,
    fun _ => Nat.le_refl _⟩, rfl⟩
  · simpa only [hpq] using hp
  · exact Timers.weight_cancelEvent timerItem_none_le hc

lemma sessionItem_setSession {c : ℕ} {o : Option ClientSession}
    (h : sessionItem o ≤ sessionItem (th.sessions c)) (c' : ℕ) :
    sessionItem ((th.setSession c o).sessions c') ≤ sessionItem (th.sessions c') := by
  by_cases hc : c' = c
  · subst hc
    simpa [Thread.setSession] using h
  · simp [Thread.setSession, Function.update_of_ne hc]

lemma touch_setSession {c : ℕ} {o : Option ClientSession}
    (h : sessionItem o ≤ sessionItem (th.sessions c)) : Touch T th (th.setSession c o) :=
  touch_of_eq rfl (sessionItem_setSession h) rfl

lemma touch_queueOutput {now c : ℕ} (he : th.queueOutput now c = some th') : Touch T th th' := by
  obtain ⟨C, hC, he⟩ := Option.bind_eq_some_iff.mp he
  split at he
  case h_1 =>
    obtain rfl := Option.some.inj he
    exact touch_of_eq rfl (fun _ => Nat.le_refl _) rfl
  case h_2 =>
    obtain rfl := Option.some.inj he
    refine (touch_setSession ?_).trans ⟨effect_addTimer _ now 0 (.writeable c), rfl⟩
    rw [hC]
    exact Nat.le_refl _

lemma touch_callback {now len : ℕ} {k : ℕ × Call σ} (he : th.callback now len k = some th') :
    Touch T th th' := by
  unfold Thread.callback at he
  split at he
  case h_1 s _ =>
    obtain ⟨C, hC, he⟩ := Option.bind_eq_some_iff.mp he
    refine (touch_setSession ?_).trans (touch_queueOutput he)
    rw [hC]
    exact Nat.le_refl _
  case h_2 =>
    obtain rfl := Option.some.inj he
    exact touch_of_eq rfl (fun _ => Nat.le_refl _) rfl

lemma touch_cancelEvrTimer {e : ℕ} (he : th.cancelEvrTimer e = some th') : Touch T th th' := by
  obtain ⟨th₁, hc, rfl⟩ := Option.map_eq_some_iff.mp he
  exact (touch_cancelEvent hc).trans (touch_of_eq rfl (fun _ => Nat.le_refl _) rfl)

lemma touch_foldlM {α : Type} {f : Thread σ → α → Option (Thread σ)}
    (hf : ∀ {th th' : Thread σ} {x}, f th x = some th' → Touch T th th') {l : List α} :
    ∀ {th th' : Thread σ}, l.foldlM f th = some th' → Touch T th th' := by
  induction l with
  | nil =>
      intro th th' he
      obtain rfl := Option.some.inj he
      exact touch_of_eq rfl (fun _ => Nat.le_refl _) rfl
  | cons x l ih =>
      intro th th' he
      obtain ⟨th₁, h₁, he⟩ := Option.bind_eq_some_iff.mp he
      exact (hf h₁).trans (ih he)

/-! ## Following a step of the `TSrvr` -/

lemma effect_addEvrTimers (now delay : ℕ) (l : List ℕ) :
    ∀ th : Thread σ, Effect T (l.length * (2 * (T + 1 - (now + delay)))) th
      (l.foldl (Thread.addEvrTimer now delay) th) ∧
      (l.foldl (Thread.addEvrTimer now delay) th).srvr = th.srvr := by
  induction l with
  | nil =>
      intro th
      rw [List.length_nil, Nat.zero_mul]
      exact ⟨effect_of_eq rfl fun _ => Nat.le_refl _, rfl⟩
  | cons e l ih =>
      intro th
      obtain ⟨heff, hsrvr⟩ := ih (th.addEvrTimer now delay e)
      have hadd := effect_addTimer (T := T) th now delay (.upsTimeout e)
      have h : Effect T (2 * (T + 1 - (now + delay))) th (th.addEvrTimer now delay e) :=
        hadd.congr rfl rfl rfl rfl
      refine ⟨?_, hsrvr⟩
      rw [List.length_cons, Nat.succ_mul, Nat.add_comm]
      exact h.trans heff

lemma touch_posts (now : ℕ) (l : List ℕ) :
    ∀ th : Thread σ, Touch T th (l.foldl (fun th _ => th.addTimer now 0 .subrDequeue) th) := by
  induction l with
  | nil => exact fun _ => touch_of_eq rfl (fun _ => Nat.le_refl _) rfl
  | cons _ l ih =>
      exact fun th => Touch.trans ⟨effect_addTimer th now 0 .subrDequeue, rfl⟩ (ih _)

/-- What is added to the timers is what is new in the `TSrvr`. -/
lemma follow_effect {now delay len : ℕ} {t : TSrvr σ} (he : th.follow now delay len t = some th') :
    Effect T ((Thread.fresh t.timers th.srvr.timers).length * (2 * (T + 1 - (now + delay))))
      { th with srvr := t } th' ∧ th'.srvr = t := by
  obtain ⟨th₁, h₁, he⟩ := Option.bind_eq_some_iff.mp he
  obtain ⟨th₂, h₂, he⟩ := Option.bind_eq_some_iff.mp he
  obtain rfl := Option.some.inj he
  have ht₁ : Touch T { th with srvr := t } th₁ := touch_foldlM touch_callback h₁
  have ht₂ : Touch T th₁ th₂ := touch_foldlM touch_cancelEvrTimer h₂
  obtain ⟨heff, hsrvr⟩ := effect_addEvrTimers (T := T) now delay
    (Thread.fresh t.timers th.srvr.timers) th₂
  have ht₃ := touch_posts (T := T) now (Thread.fresh t.subrList th.srvr.subrList)
    ((Thread.fresh t.timers th.srvr.timers).foldl (Thread.addEvrTimer now delay) th₂)
  refine ⟨?_, ht₃.srvr.trans (hsrvr.trans (ht₂.srvr.trans ht₁.srvr))⟩
  have h := ((ht₁.effect.trans ht₂.effect).trans heff).trans ht₃.effect
  simpa only [Nat.zero_add, Nat.add_zero] using h

lemma fresh_eq_nil {α : Type} {new old : List (ℕ × α)}
    (h : new.map Prod.fst ⊆ old.map Prod.fst) : Thread.fresh new old = [] := by
  refine List.filter_eq_nil_iff.mpr fun x hx => ?_
  simpa using h hx

lemma length_fresh_append {α : Type} (old : List (ℕ × α)) (x : ℕ × α) :
    (Thread.fresh (old ++ [x]) old).length ≤ 1 := by
  have hold : Thread.fresh old old = [] := fresh_eq_nil (List.Subset.refl _)
  unfold Thread.fresh at hold ⊢
  rw [List.map_append, List.filter_append, hold, List.nil_append]
  exact List.length_filter_le _ _

/-- Nothing follows from a step that changes neither slots nor timers and calls nobody. -/
lemma follow_same {now delay len : ℕ} {t : TSrvr σ} (hc : t.calls = th.srvr.calls)
    (ht : t.timers = th.srvr.timers) (hs : t.subrList = th.srvr.subrList)
    (he : th.follow now delay len t = some th') : th' = { th with srvr := t } := by
  simp only [Thread.follow, hc, ht, hs, List.drop_length, fresh_eq_nil (List.Subset.refl _),
    List.foldlM_nil, List.foldl_nil] at he
  exact (Option.some.inj he).symm

/-- What leaves the `TSrvr` no more to do, and adds no timer with a delay. -/
structure Quiet (T : ℕ) (th th' : Thread σ) : Prop where
  effect : Effect T 0 th th'
  work : th'.srvr.work ≤ th.srvr.work

lemma Quiet.trans {th'' : Thread σ} (h : Quiet T th th') (h' : Quiet T th' th'') :
    Quiet T th th'' := ⟨h.effect.trans h'.effect, h'.work.trans h.work⟩

lemma Touch.quiet (h : Touch T th th') : Quiet T th th' :=
  ⟨h.effect, by rw [h.srvr]⟩

lemma follow_quiet {now delay len : ℕ} {t : TSrvr σ} (hleaves : th.srvr.Leaves t)
    (hctl : TSrvr.starting t.ctl = 0) (he : th.follow now delay len t = some th') :
    Quiet T th th' ∧ th'.srvr = t := by
  obtain ⟨heff, hsrvr⟩ := follow_effect (T := T) he
  rw [fresh_eq_nil hleaves.timers, List.length_nil, Nat.zero_mul] at heff
  refine ⟨⟨heff.congr rfl rfl rfl rfl, ?_⟩, hsrvr⟩
  rw [hsrvr]
  exact hleaves.work_le hctl

/-! ## The callbacks of a client session -/

lemma quiet_deleteU {now len s : ℕ} (he : th.deleteU P cf now len s = some th') :
    Quiet T th th' := by
  obtain ⟨t₁, h₁, he⟩ := Option.bind_eq_some_iff.mp he
  obtain ⟨th₁, hf₁, he⟩ := Option.bind_eq_some_iff.mp he
  obtain ⟨t₂, h₂, hf₂⟩ := Option.bind_eq_some_iff.mp he
  obtain ⟨hl₁, hc₁⟩ := TSrvr.step_sessionTeardown h₁
  obtain ⟨hl₂, hc₂⟩ := TSrvr.step_delete h₂
  exact (follow_quiet hl₁ hc₁ hf₁).1.trans (follow_quiet hl₂ hc₂ hf₂).1

lemma quiet_dropU {now len : ℕ} {u : Option BaseU} (he : th.dropU P cf now len u = some th') :
    Quiet T th th' := by
  unfold Thread.dropU at he
  split at he
  · exact quiet_deleteU he
  · obtain rfl := Option.some.inj he
    exact (touch_of_eq rfl (fun _ => Nat.le_refl _) rfl).quiet

/-- A destroyed session has nothing to send. -/
lemma quiet_destroy {now len c : ℕ} (he : th.destroy P cf now len c = some th') :
    Quiet T th th' ∧ th'.sessions c = none := by
  obtain ⟨C, -, he⟩ := Option.bind_eq_some_iff.mp he
  obtain ⟨th₁, h₁, he⟩ := Option.bind_eq_some_iff.mp he
  obtain ⟨th₂, h₂, he⟩ := Option.bind_eq_some_iff.mp he
  obtain ⟨C', -, he⟩ := Option.bind_eq_some_iff.mp he
  obtain ⟨th₃, h₃, he⟩ := Option.bind_eq_some_iff.mp he
  obtain rfl := Option.some.inj he
  have hq₂ := quiet_dropU (T := T) h₂
  have hset : Touch T th₃ (th₃.setSession c none) := touch_setSession (Nat.zero_le _)
  refine ⟨((touch_cancelEvent h₁).quiet.trans hq₂).trans
    ((touch_cancelEvent h₃).trans hset).quiet, ?_⟩
  exact Function.update_self _ _ _

/-- Whether a connection is still to be accepted, and how much output is left. -/
def outRank : Option ClientSession → ℕ
  | none => 0
  | some C => (if C.accepting then 1 else 0) + C.outQ

/-- What a pass of the writing callback of `c` leaves: the session has less to send; or no timer is
new, and if there is another pass, the connection was accepted or output was sent. -/
structure Wrote (T c : ℕ) (th : Thread σ) (r : Thread σ × Bool) : Prop where
  quiet : Quiet T th r.1
  progress : sessionItem (r.1.sessions c) < sessionItem (th.sessions c) ∨
    r.1.timers = th.timers ∧ (r.2 = true → outRank (r.1.sessions c) < outRank (th.sessions c))

section Write

variable {c : ℕ} {i : Input} {C : ClientSession} {r : Thread σ × Bool}

/-- The session had something less to send before. -/
lemma Wrote.of_lt {th₁ : Thread σ} (h : Wrote T c th₁ r) (hq : Quiet T th th₁)
    (hlt : sessionItem (th₁.sessions c) < sessionItem (th.sessions c)) : Wrote T c th r :=
  ⟨hq.trans h.quiet, .inl ((h.quiet.effect.sessions c).trans_lt hlt)⟩

/-- Some output was sent before. -/
lemma Wrote.of_set {o : ClientSession} (h : Wrote T c (th.setSession c (some o)) r)
    (hitem : sessionItem (some o) = sessionItem (th.sessions c))
    (hrank : outRank (some o) ≤ outRank (th.sessions c)) : Wrote T c th r := by
  have hself : (th.setSession c (some o)).sessions c = some o := Function.update_self _ _ _
  refine ⟨(touch_setSession hitem.le).quiet.trans h.quiet, ?_⟩
  rcases h.progress with hlt | ⟨ht, hmore⟩
  · rw [hself, hitem] at hlt
    exact .inl hlt
  · rw [hself] at hmore
    exact .inr ⟨ht, fun hr => (hmore hr).trans_le hrank⟩

lemma wrote_same (th : Thread σ) (c : ℕ) : Wrote T c th (th, false) :=
  ⟨(touch_of_eq rfl (fun _ => Nat.le_refl _) rfl).quiet, .inr ⟨rfl, by simp⟩⟩

lemma wrote_destroy {now len : ℕ} (hpos : 0 < sessionItem (th.sessions c))
    (he : (th.destroy P cf now len c).map (fun th => (th, false)) = some r) : Wrote T c th r := by
  obtain ⟨th', hd, rfl⟩ := Option.map_eq_some_iff.mp he
  obtain ⟨hq, hnone⟩ := quiet_destroy (T := T) hd
  refine ⟨hq, .inl ?_⟩
  rw [hnone]
  exact hpos

lemma wrote_respDone {shutdown : Bool} (hpos : 0 < sessionItem (th.sessions c))
    (he : th.respDone P cf c i C shutdown = some r) : Wrote T c th r := by
  unfold Thread.respDone at he
  split_ifs at he
  · obtain rfl := Option.some.inj he
    exact wrote_same th c
  · exact wrote_destroy hpos he

/-- Reading ahead leaves less of the file, or nothing was read. -/
lemma item_account (f : FileU) (n : ℕ) (hfd : 0 ≤ f.fd) :
    (BaseU.file ({ f with state := .sending }.account Thread.upsReadAheadSize n)).item ≤
      (BaseU.file f).item ∧
    (n ≠ 0 → (BaseU.file ({ f with state := .sending }.account Thread.upsReadAheadSize n)).item <
      (BaseU.file f).item) := by
  simp only [BaseU.item, FileU.account]
  split_ifs <;> simp_all <;> omega

lemma wrote_readAhead {f : FileU} (hC : th.sessions c = some C) (hu : C.u = some (.file f))
    (he : th.readAhead c i C f = some r) : Wrote T c th r := by
  unfold Thread.readAhead at he
  split_ifs at he with hfd
  · obtain rfl := Option.some.inj he
    exact wrote_same th c
  simp only at he
  split at he
  case h_1 =>
    obtain rfl := Option.some.inj he
    refine ⟨(touch_setSession ?_).quiet, .inr ⟨rfl, by simp⟩⟩
    rw [hC]
    simp [sessionItem, hu, BaseU.item]
  case h_2 n _ =>
    split_ifs at he with hlen hn
    · obtain rfl := Option.some.inj he
      obtain ⟨hle, -⟩ := item_account f n (not_lt.mp hfd)
      refine ⟨(touch_setSession ?_).quiet, .inr ⟨rfl, by simp⟩⟩
      rw [hC]
      simpa [sessionItem, hu] using hle
    · obtain ⟨th', hq, rfl⟩ := Option.map_eq_some_iff.mp he
      obtain ⟨-, hlt⟩ := item_account f n (not_lt.mp hfd)
      have hlt := hlt hn
      have hqueue := touch_queueOutput (T := T) hq
      have hset : sessionItem (some { C with
          u := some (.file ({ f with state := .sending }.account Thread.upsReadAheadSize n))
          outQ := n }) < sessionItem (th.sessions c) := by
        rw [hC]
        simpa [sessionItem, hu] using hlt
      refine ⟨((touch_setSession hset.le).trans hqueue).quiet, .inl ?_⟩
      refine (hqueue.effect.sessions c).trans_lt ?_
      simpa [Thread.setSession] using hset

lemma wrote_checkDone (hC : th.sessions c = some C) (he : th.checkDone P cf c i C = some r) :
    Wrote T c th r := by
  have hpos : 0 < sessionItem (th.sessions c) := by
    simp [hC, sessionItem]
  -- the session without `m_u`
  have hdrop : ∀ {C' : ClientSession}, sessionItem (some { C' with u := none }) = 1 := by
    intro C'
    simp [sessionItem]
  unfold Thread.checkDone at he
  split at he
  case h_1 => exact wrote_respDone hpos he
  case h_2 f hu =>
    split_ifs at he with hdone
    · have hlt : sessionItem (some { C with u := none }) < sessionItem (th.sessions c) := by
        have := (BaseU.file f).item_pos
        rw [hC, hdrop]
        simp only [sessionItem, hu, Option.elim_some]
        omega
      refine (wrote_respDone ?_ he).of_lt (touch_setSession hlt.le).quiet ?_
      · simp [Thread.setSession, hdrop]
      · simpa [Thread.setSession] using hlt
    · exact wrote_readAhead hC hu he
  case h_3 s hu =>
    obtain ⟨S, -, he⟩ := Option.bind_eq_some_iff.mp he
    split_ifs at he with hdone
    · obtain ⟨th₁, h₁, he⟩ := Option.bind_eq_some_iff.mp he
      obtain ⟨C₁, hC₁, he⟩ := Option.bind_eq_some_iff.mp he
      have hq := quiet_deleteU (T := T) h₁
      have hle : sessionItem (some { C₁ with u := none }) ≤ sessionItem (th₁.sessions c) := by
        rw [hC₁, hdrop]
        simp [sessionItem]
      refine (wrote_respDone ?_ he).of_lt (hq.trans (touch_setSession hle).quiet) ?_
      · simp [Thread.setSession, hdrop]
      · simp only [Thread.setSession, Function.update_self, hdrop]
        rw [hC]
        simp [sessionItem, hu, BaseU.item]
    · obtain rfl := Option.some.inj he
      exact wrote_same th c

/-- **A pass of the writing callback** brings the session on. -/
lemma wrote_writePass (he : th.writePass P cf c i = some r) : Wrote T c th r := by
  obtain ⟨C, hC, he⟩ := Option.bind_eq_some_iff.mp he
  split_ifs at he with hstop haccepting haccepted hempty
  · obtain rfl := Option.some.inj he
    exact wrote_same th c
  · obtain rfl := Option.some.inj he
    refine ⟨(touch_setSession ?_).quiet, .inr ⟨rfl, fun _ => ?_⟩⟩
    · rw [hC]
      exact Nat.le_refl _
    · simp [Thread.setSession, hC, outRank, haccepting]
  · obtain rfl := Option.some.inj he
    exact wrote_same th c
  · exact wrote_checkDone hC he
  · split at he
    case h_1 => cases he
    case h_2 k hk _ =>
      have hitem :
          sessionItem (some { C with outQ := C.outQ - k }) = sessionItem (th.sessions c) := by
        rw [hC]
        rfl
      have hrank : outRank (some { C with outQ := C.outQ - k }) < outRank (th.sessions c) := by
        rw [hC]
        have : k ≠ 0 := hk
        simp only [outRank]
        omega
      simp only at he
      split_ifs at he
      · exact (wrote_checkDone (Function.update_self _ _ _) he).of_set hitem hrank.le
      · obtain rfl := Option.some.inj he
        refine ⟨(touch_setSession hitem.le).quiet, .inr ⟨rfl, fun _ => ?_⟩⟩
        simpa [Thread.setSession] using hrank
    case h_3 =>
      obtain rfl := Option.some.inj he
      exact wrote_same th c
    case h_4 => exact wrote_destroy (by simp [hC, sessionItem]) he

end Write

/-! ## The other callbacks -/

lemma Effect.mono {n m : ℕ} (h : Effect T n th th') (hnm : n ≤ m) : Effect T m th th' where
  ok := h.ok
  fresh := h.fresh
  popped := h.popped
  weight hok := by
    have := h.weight hok
    omega
  sessions := h.sessions

/-- What leaves the `TSrvr` no more to do, and adds at most one timer, with a delay. -/
structure Rearms (T now : ℕ) (th th' : Thread σ) : Prop where
  effect : Effect T (2 * (T - now)) th th'
  work : th'.srvr.work ≤ th.srvr.work

lemma Quiet.rearms {now : ℕ} (h : Quiet T th th') : Rearms T now th th' :=
  ⟨h.effect.mono (Nat.zero_le _), h.work⟩

lemma Quiet.trans_rearms {now : ℕ} {th'' : Thread σ} (h : Quiet T th th')
    (h' : Rearms T now th' th'') : Rearms T now th th'' := by
  refine ⟨?_, h'.work.trans h.work⟩
  have := h.effect.trans h'.effect
  rwa [Nat.zero_add] at this

lemma rearms_addTimer {now delay : ℕ} (hd : 0 < delay) (cb : Callback) :
    Rearms T now th (th.addTimer now delay cb) := by
  refine ⟨(effect_addTimer th now delay cb).mono ?_, Nat.le_refl _⟩
  have := timerItem_le (T := T) (now + delay) (some cb)
  omega

/-- `session::evr_event_timeout_cb`. -/
lemma rearms_evrEventTimeoutCb {c : ℕ} {i : Input} (he : th.evrEventTimeoutCb P cf c i = some th') :
    Rearms T i.now th th' := by
  obtain ⟨C, hC, he⟩ := Option.bind_eq_some_iff.mp he
  have hitem : ∀ {e},
      sessionItem (some { C with evrTimeout := e }) = sessionItem (th.sessions c) := by
    intro e
    rw [hC]
    rfl
  have hset : Quiet T th (th.setSession c (some { C with evrTimeout := none })) :=
    (touch_setSession hitem.le).quiet
  simp only at he
  split_ifs at he with hexp
  · exact (hset.trans (quiet_destroy he).1).rearms
  · obtain rfl := Option.some.inj he
    refine hset.trans_rearms (Quiet.trans_rearms (touch_setSession ?_).quiet
      (rearms_addTimer (by omega) _))
    simp only [Thread.setSession, Function.update_self]
    exact Nat.le_refl _

lemma rearms_dnsTimeout {i : Input} : Rearms T i.now th (th.dnsTimeout i) := by
  unfold Thread.dnsTimeout
  split_ifs
  · have h : Rearms T i.now th (th.addTimer i.now 1000 .dnsTimeout) :=
      rearms_addTimer (by decide) _
    exact ⟨h.effect.congr rfl rfl rfl rfl, h.work⟩
  · exact (touch_of_eq rfl (fun _ => Nat.le_refl _) rfl).quiet.rearms

/-- What may happen when the `TSrvr` has less to do. -/
def Any (T : ℕ) (th th' : Thread σ) : Prop := ∃ n, Effect T n th th'

lemma follow_any {now delay len : ℕ} {t : TSrvr σ} (he : th.follow now delay len t = some th') :
    Any T th th' ∧ th'.srvr = t := by
  obtain ⟨heff, hsrvr⟩ := follow_effect (T := T) he
  exact ⟨⟨_, heff.congr rfl rfl rfl rfl⟩, hsrvr⟩

lemma jobEnds_lt {i : Input} {fate : Fate} (he : th.jobEnds P cf i fate = some th') :
    Any T th th' ∧ th'.srvr.work < th.srvr.work := by
  have key : ∀ {j : ℕ} {l : TSrvr.Label}, (∀ {t}, j ∈ th.srvr.jobs.map Prod.fst →
      th.srvr.step P cf l = some t → th.srvr.Leaves t ∧ t.jobs.length < th.srvr.jobs.length ∧
        t.ctl = th.srvr.ctl) →
      (if j ∈ th.srvr.jobs.map Prod.fst then do
        let t ← th.srvr.step P cf l
        th.follow i.now 0 i.errorLen t
      else none) = some th' → Any T th th' ∧ th'.srvr.work < th.srvr.work := by
    intro j l hl he
    split_ifs at he with hj
    obtain ⟨t, ht, he⟩ := Option.bind_eq_some_iff.mp he
    obtain ⟨hany, hsrvr⟩ := follow_any (T := T) he
    obtain ⟨hleaves, hjobs, hctl⟩ := hl hj ht
    refine ⟨hany, ?_⟩
    have hslots := hleaves.slots
    rw [hsrvr, TSrvr.work, TSrvr.work, hctl]
    omega
  cases fate with
  | timedOut j => exact key TSrvr.step_resolved he
  | lost j => exact key TSrvr.step_jobLost he

/-- A turn of `subr_dequeue` ends the loop, or leaves less to do. -/
lemma dequeueTurn_cases {i : Input} (he : th.dequeueTurn P cf i = some th')
    (hroom : ∀ m s rest S, th.srvr.subrListSize ≠ 0 → i.stopped = false →
      th.srvr.subrList = (m, some s) :: rest → th.srvr.subrs s = some S →
      th.srvr.Room cf S ⟨i.stopped, i.lookup, i.request⟩) :
    th' = { th with srvr := { th.srvr with ctl := .between } } ∨
      th'.srvr.work < th.srvr.work := by
  obtain ⟨t, ht, he⟩ := Option.bind_eq_some_iff.mp he
  obtain ⟨th₁, hf, he⟩ := Option.bind_eq_some_iff.mp he
  obtain rfl := Option.some.inj he
  rcases TSrvr.step_turn ht hroom with ⟨hctl, rfl⟩ | hlt
  · left
    have hasked : Thread.asked th.srvr { th.srvr with ctl := .between } = false := by
      unfold Thread.asked
      split
      · simp_all
      · rfl
    rw [hasked, if_neg (by simp)]
    exact follow_same rfl rfl rfl hf
  · obtain ⟨-, hsrvr⟩ := follow_any (T := 0) hf
    rw [← hsrvr] at hlt
    right
    split_ifs
    · exact (rearms_dnsTimeout (T := 0)).work.trans_lt hlt
    · exact hlt

lemma dequeueTurn_any {i : Input} (he : th.dequeueTurn P cf i = some th') : Any T th th' := by
  obtain ⟨t, -, he⟩ := Option.bind_eq_some_iff.mp he
  obtain ⟨th₁, hf, he⟩ := Option.bind_eq_some_iff.mp he
  obtain rfl := Option.some.inj he
  obtain ⟨⟨n, heff⟩, -⟩ := follow_any (T := T) hf
  split_ifs
  · exact ⟨_, heff.trans rearms_dnsTimeout.effect⟩
  · exact ⟨n, heff⟩

/-- Nothing but writes and timeouts happens to upstream sessions. -/
lemma passIn_eq {f : Frame} {i : Input} {a : TSrvr.PassIn} (he : th.passIn f i = some a) :
    f.mode ≠ .read ∧ a ≠ .write (.sent 0) ∧
      (f.mode = .timeout → a = .timeout (i.upsTimeoutMs ≤ i.upsElapsedMs)) := by
  unfold Thread.passIn at he
  split at he
  case h_1 hm =>
    obtain rfl := Option.some.inj he
    simp [hm]
  case h_2 hm =>
    obtain rfl := Option.some.inj he
    simp [hm]
  case h_3 hm =>
    obtain ⟨n, -, he⟩ := Option.bind_eq_some_iff.mp he
    refine ⟨by simp [hm], ?_, by simp [hm]⟩
    split at he
    · obtain rfl := Option.some.inj he
      simp
    · obtain rfl := Option.some.inj he
      simp
    · split_ifs at he with hs
      obtain rfl := Option.some.inj he
      simpa using hs
  case h_4 => cases he

/-- A pass through `state_top` leads to another one, or the callback comes to its end. -/
lemma upsPass_cases {f : Frame} {i : Input} (hctl : th.srvr.ctl = .running f)
    (he : th.upsPass P cf f i = some th') :
    (th'.timers = th.timers ∧ th'.sessions = th.sessions ∧ th'.srvr.ctl = .running f ∧
      th'.srvr.work = th.srvr.work ∧ th'.srvr.rank f < th.srvr.rank f) ∨
    (Effect T (2 * (T - i.now)) th th' ∧ th'.srvr.ctl = f.back ∧
      th'.srvr.work + TSrvr.starting (.running f) = th.srvr.work) := by
  obtain ⟨a, ha, he⟩ := Option.bind_eq_some_iff.mp he
  obtain ⟨t, ht, he⟩ := Option.bind_eq_some_iff.mp he
  obtain ⟨hread, hsent, hmode⟩ := passIn_eq ha
  rcases TSrvr.step_pass hctl hread hsent ht with
    ⟨hmore, hs, hj, htm, hc, hrank⟩ | ⟨hback, hs, hj, htm⟩
  · obtain rfl := follow_same hc htm hs he
    refine .inl ⟨rfl, rfl, hmore, ?_, hrank⟩
    simp only [TSrvr.work, hs, hj, hmore, hctl]
  · obtain ⟨heff, hsrvr⟩ := follow_effect (T := T) he
    refine .inr ⟨?_, by rw [hsrvr, hback], ?_⟩
    · refine Effect.congr (heff.mono ?_) rfl rfl rfl rfl
      rcases htm with hsub | ⟨hexp, htimeout, happ⟩
      · rw [fresh_eq_nil hsub, List.length_nil, Nat.zero_mul]
        exact Nat.zero_le _
      · -- the session was active, so that the delay is not zero
        have hpos : i.upsElapsedMs < i.upsTimeoutMs := by
          by_contra hle
          refine hexp ?_
          rw [hmode htimeout]
          simpa using hle
        have hone : (Thread.fresh t.timers th.srvr.timers).length ≤ 1 := by
          rw [happ]
          exact length_fresh_append _ _
        calc (Thread.fresh t.timers th.srvr.timers).length *
              (2 * (T + 1 - (i.now + (i.upsTimeoutMs - i.upsElapsedMs))))
            ≤ 1 * (2 * (T + 1 - (i.now + (i.upsTimeoutMs - i.upsElapsedMs)))) :=
              Nat.mul_le_mul_right _ hone
          _ ≤ 2 * (T - i.now) := by omega
    · have hstart : TSrvr.starting f.back = 0 := TSrvr.starting_back
      rw [hsrvr]
      simp only [TSrvr.work, hs, hj, hback, hctl, hstart]
      omega

end Srvr

end Is2
