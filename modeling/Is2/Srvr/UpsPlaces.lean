import Is2.Srvr.UpsCalls
import Is2.Srvr.UpsExclusive

/-!
# No subrequest is lost

A subrequest that was not answered is in exactly one place: in a slot of `m_subr_list`, with the
resolver, or with a session that has an active connection and a timer.  Some paths lead out of these
places without a callback.  `Undropped` says which ones, and `no_subr_lost` is the result for the
runs that take none of them.

The timers are followed with `Armed`.
-/

namespace Is2

/-- The session whose timer may be off: the one whose timeout is being handled, or whose request
could not be made. -/
def Ctl.silent : Ctl → Option ℕ
  | .running f => if f.mode = .timeout ∨ f.mode = .error then f.ups else none
  | _ => none

namespace Ctl

variable {ctl : Ctl} {f : Frame} {u : ℕ}

lemma Quiet.silent (h : ctl.Quiet) : ctl.silent = none := by
  cases ctl with
  | running f => exact absurd rfl (h f)
  | between => rfl
  | dequeuing => rfl
  | deleting s => rfl

lemma silent_of_ups (h : f.ups = none) : (running f).silent = none := by
  rw [silent]
  split_ifs
  · exact h
  · rfl

lemma ups_of_silent (h : (running f).silent = some u) : f.ups = some u := by
  rw [silent] at h
  split_ifs at h
  exact h

end Ctl

namespace TSrvr

variable {σ : Type} {P : RespParser σ} {cf : TConf} {t t' : TSrvr σ} {l : Label} {u s c : ℕ}
  {π : ℕ → Option (Place ℕ)}

/-! ## Timers -/

/-- The timers of the sessions are old, and all that should be are armed. -/
structure Alarms (t : TSrvr σ) : Prop where
  old : ∀ u e, evrTimeoutOf t.upsSessions u = some e → e < t.next
  armed : Armed (nconnOf t.upsSessions) (evrTimeoutOf t.upsSessions) t.timers t.ctl.silent

/-- No timeout is handled on a connection whose socket could not be set up. -/
def TimesOut (t : TSrvr σ) : Prop :=
  ∀ f ∈ t.frame, ∀ n ∈ t.conn f.nconn, f.mode = .timeout → f.ups ≠ none → n.state ≠ .free

instance (t : TSrvr σ) : Decidable t.TimesOut :=
  inferInstanceAs (Decidable (∀ f ∈ t.frame, ∀ n ∈ t.conn f.nconn, _))

namespace Alarms

/-- A step that leaves the sessions and the timers alone. -/
lemma same (h : t.Alarms) (hs : t.ctl.silent = none)
    (hn : nconnOf t'.upsSessions = nconnOf t.upsSessions)
    (he : evrTimeoutOf t'.upsSessions = evrTimeoutOf t.upsSessions) (ht : t'.timers = t.timers)
    (hnext : t.next ≤ t'.next) : t'.Alarms := by
  refine ⟨fun u e hu => ?_, ?_⟩
  · rw [he] at hu
    exact (h.old u e hu).trans_le hnext
  · have harmed := h.armed
    rw [hs] at harmed
    rw [hn, he, ht]
    exact harmed.weaken _

lemma old_update {a : Option ℕ} (h : t.Alarms)
    (he : evrTimeoutOf t'.upsSessions = Function.update (evrTimeoutOf t.upsSessions) u a)
    (ha : ∀ e, a = some e → e < t'.next) (hnext : t.next ≤ t'.next) :
    ∀ v e, evrTimeoutOf t'.upsSessions v = some e → e < t'.next := by
  intro v e hv
  rw [he] at hv
  by_cases hvu : v = u
  · subst hvu
    rw [Function.update_self] at hv
    exact ha e hv
  · rw [Function.update_of_ne hvu] at hv
    exact (h.old v e hv).trans_le hnext

/-- A session gives up its connection and its timer. -/
lemma torn {U : UpsSession σ} {x : Option (UpsSession σ)} (h : t.Alarms)
    (hs : ∀ v, t.ctl.silent = some v → v = u) (hU : t.upsSessions u = some U)
    (hx : x.bind UpsSession.nconn = none ∧ x.bind UpsSession.evrTimeout = none)
    (hu' : t'.upsSessions = Function.update t.upsSessions u x)
    (ht' : t'.timers = t.timers.filter fun p => some p.1 ≠ U.evrTimeout) (hn' : t'.next = t.next)
    (hs' : t'.ctl.silent = none) : t'.Alarms := by
  have he : evrTimeoutOf t'.upsSessions = Function.update (evrTimeoutOf t.upsSessions) u none := by
    rw [hu', evrTimeoutOf_update, hx.2]
  refine ⟨h.old_update he (fun e he => absurd he (by simp)) hn'.ge, ?_⟩
  rw [he, hu', nconnOf_update, hx.1, ht', hs', ← evrTimeoutOf_eq hU]
  exact h.armed.giveUp hs

lemma fresh (h : t.Alarms) {e : ℕ} (he : t.next ≤ e) (v : ℕ) :
    evrTimeoutOf t.upsSessions v ≠ some e :=
  fun hv => absurd (h.old v e hv) (not_lt.mpr he)

/-- The timer of a session fires. -/
lemma fired {e : ℕ} {n : UpsConn} {ctl : Ctl} (h : t.Alarms) (hl : t.Linked)
    (hap : t.nconnProxyPool.Apart) (hq : t.ctl.Quiet) (he : (e, c) ∈ t.timers)
    (hn : t.conn c = some n)
    (hctl : ctl = if n.cancelled then .between else .running ⟨c, .timeout, n.data, false, none⟩) :
    Alarms { t with
      timers := t.timers.filter (·.1 ≠ e)
      upsSessions := n.data.elim t.upsSessions fun u =>
        Function.update t.upsSessions u
          ((t.upsSessions u).map fun U => { U with evrTimeout := none })
      ctl := ctl } := by
  obtain ⟨u, hitem, halarm⟩ := hl.ties.isPending e c he
  obtain ⟨m, hm, rfl⟩ := Option.map_eq_some_iff.mp hn
  have hdata : m.rest.data = some u := by
    rw [← dataOf_eq_conn hn]
    refine (hl.ties.pointsBack u c hitem).resolve_right fun hg => ?_
    exact absurd (hm.symm.trans hg) (by simp)
  have hcan := not_cancelled hl.cleaned hap (hl.ties.isLive u c hitem) hm
  obtain ⟨U, hU, hc⟩ := exists_of_nconnOf hitem
  rw [hcan, if_neg (by simp)] at hctl
  subst hctl
  have hnc : nconnOf (Function.update t.upsSessions u (some { U with evrTimeout := none })) =
      nconnOf t.upsSessions := by
    rw [nconnOf_update, Function.update_eq_self_iff]
    exact (nconnOf_eq hU).symm
  have hev : evrTimeoutOf (Function.update t.upsSessions u (some { U with evrTimeout := none })) =
      Function.update (evrTimeoutOf t.upsSessions) u none := by
    rw [evrTimeoutOf_update]
    rfl
  have harmed := h.armed
  rw [hq.silent] at harmed
  simp only [hdata, Option.elim_some, hU, Option.map_some]
  refine ⟨h.old_update hev (fun e he => absurd he (by simp)) le_rfl, ?_⟩
  show Armed (nconnOf (Function.update t.upsSessions u _))
    (evrTimeoutOf (Function.update t.upsSessions u _)) _ (some u)
  rw [hnc, hev]
  exact harmed.fire halarm

/-- A timeout was handled, and the session gets a new timer. -/
lemma rearmed {f : Frame} {subrs : ℕ → Option Subr} (h : t.Alarms) (hl : t.Linked)
    (hf : t.ctl = .running f) (hu : f.ups = some u) :
    Alarms { t with
      timers := t.timers ++ [(t.next, f.nconn)]
      next := t.next + 1
      upsSessions := Function.update t.upsSessions u
        ((t.upsSessions u).map fun U => { U with evrTimeout := some t.next })
      subrs := subrs
      ctl := f.back } := by
  have hitem := (hl.attached hf hu).2
  obtain ⟨U, hU, hc⟩ := exists_of_nconnOf hitem
  rw [hU, Option.map_some]
  have hnc : nconnOf (Function.update t.upsSessions u (some { U with evrTimeout := some t.next })) =
      Function.update (nconnOf t.upsSessions) u (some f.nconn) := by
    rw [nconnOf_update, Option.bind_some]
    exact congrArg _ hc
  have hev : evrTimeoutOf (Function.update t.upsSessions u
      (some { U with evrTimeout := some t.next })) =
      Function.update (evrTimeoutOf t.upsSessions) u (some t.next) := by
    rw [evrTimeoutOf_update]
    rfl
  refine ⟨h.old_update hev ?_ (Nat.le_succ _), ?_⟩
  · rintro e he
    obtain rfl := Option.some.inj he
    exact Nat.lt_succ_self _
  · show Armed (nconnOf (Function.update t.upsSessions u _))
      (evrTimeoutOf (Function.update t.upsSessions u _)) _ f.back.silent
    rw [hnc, hev]
    refine h.armed.attach ?_ ?_ fun hnone => absurd hnone (by simp)
    · intro v hv
      rw [hf] at hv
      exact Option.some.inj ((Ctl.ups_of_silent hv).symm.trans hu)
    · intro e he
      obtain rfl := Option.some.inj he
      exact h.fresh le_rfl

/-- `subr_start` starts the timer of a new session, if the request was made. -/
lemma started {S : Subr} {p : NconnPool UpsConn} {rest : List (ℕ × Option ℕ)} {n : Nconn UpsConn}
    {request : Option ℕ} {ctl : Ctl} (h : t.Alarms) (hl : t.Linked)
    (hap : t.nconnProxyPool.Apart) (hq : t.ctl.Quiet) (hp : Gotten t S c p)
    (hn : p.nconns c = some n)
    (hctl : ctl = if n.rest.cancelled then .dequeuing
      else .running ⟨c, if request.isSome then .write else .error, some t.next, false, some s⟩) :
    Alarms (t.startedState P p rest s S c request ctl) := by
  obtain ⟨-, hcl, hact, -⟩ := hl.gotten hp
  have hcan := not_cancelled hcl (hp.apart hl hap) (hact ▸ Finset.mem_insert_self _ _) hn
  rw [hcan, if_neg (by simp)] at hctl
  have hev : evrTimeoutOf (t.startedState P p rest s S c request ctl).upsSessions =
      Function.update (evrTimeoutOf t.upsSessions) t.next (request.map fun _ => t.next + 1) :=
    evrTimeoutOf_update _ _ _
  have hnc : nconnOf (t.startedState P p rest s S c request ctl).upsSessions =
      Function.update (nconnOf t.upsSessions) t.next (some c) :=
    nconnOf_update _ _ _
  have hpend : t.timers ++ request.toList.map (fun _ => (t.next + 1, c)) =
      t.timers ++ (request.map fun _ => t.next + 1).toList.map fun e => (e, c) := by
    cases request <;> rfl
  have harmed := h.armed
  rw [hq.silent] at harmed
  refine ⟨h.old_update hev ?_ ?_, ?_⟩
  · intro e he
    obtain ⟨k, rfl, rfl⟩ := Option.map_eq_some_iff.mp he
    show t.next + 1 < t.next + 1 + 1
    omega
  · show t.next ≤ t.next + 1 + _
    omega
  · rw [hev, hnc]
    show Armed _ _ (t.timers ++ request.toList.map fun _ => (t.next + 1, c)) ctl.silent
    rw [hpend]
    refine harmed.attach (fun j hj => absurd hj (by simp)) ?_ ?_
    · intro e he
      obtain ⟨k, -, rfl⟩ := Option.map_eq_some_iff.mp he
      exact h.fresh (Nat.le_succ _)
    · intro hnone
      obtain rfl := Option.map_eq_none_iff.mp hnone
      rw [hctl]
      rfl

/-- **Every session with a connection keeps a timer.** -/
theorem step (h : t.Alarms) (hl : t.Linked) (hap : t.nconnProxyPool.Apart) (hok : t.TimesOut)
    (hd : Does P cf t l t') : t'.Alarms := by
  have hle := hd.next_le
  -- a step between two events that leaves the sessions and the timers alone
  have hidle : t.ctl.Quiet → t'.upsSessions = t.upsSessions → t'.timers = t.timers → t'.Alarms :=
    fun hq hu ht => h.same hq.silent (congrArg nconnOf hu) (congrArg evrTimeoutOf hu) ht hle
  cases hd with
  | enqueued _ hctl => exact hidle (Ctl.quiet_of_eq (.inl hctl)) rfl rfl
  | paused hb _ => exact hidle (Ctl.quiet_of_eq hb) rfl rfl
  | entered hctl _ _ _ => exact hidle (Ctl.quiet_of_eq (.inl hctl)) rfl rfl
  | dropped hctl _ => exact hidle (Ctl.quiet_of_eq (.inr hctl)) rfl rfl
  | requeued hctl _ _ => exact hidle (Ctl.quiet_of_eq (.inr hctl)) rfl rfl
  | unstarted hctl _ _ _ => exact hidle (Ctl.quiet_of_eq (.inr hctl)) rfl rfl
  | started hb _ _ hgot hn _ ha => exact h.started hl hap (Ctl.quiet_of_eq (.inr hb)) hgot hn ha
  | @ran f n n' ups more ok hf hn _ htouch hpass =>
      obtain ⟨hnc, hev⟩ := htouch.links
      refine h.same ?_ hnc hev rfl hle
      cases hu : f.ups with
      | none =>
          rw [hf]
          exact Ctl.silent_of_ups hu
      | some u =>
          have hmode : f.mode ≠ .timeout := by
            intro hto
            rcases (hpass.timeout hto).2 with hfree | hnone
            · exact hok f (frame_eq hf) n hn hto (by simp [hu]) hfree
            · exact absurd (hu.symm.trans hnone) (by simp)
          rw [hf, Ctl.silent, if_neg (not_or.mpr ⟨hmode, hpass.mode⟩)]
  | @tore f u U U' S S' p ks es hf hu hU _ _ hb _ _ =>
      refine h.torn ?_ hU (x := some U') ⟨hb.nconn, hb.evrTimeout⟩ rfl rfl rfl f.back_quiet.silent
      intro v hv
      rw [hf] at hv
      exact Option.some.inj ((Ctl.ups_of_silent hv).symm.trans hu)
  | released hf hu _ =>
      refine h.same ?_ rfl rfl rfl hle
      rw [hf]
      exact Ctl.silent_of_ups hu
  | @idled f n u U U' S S' p hf _ _ _ hu hU _ hb _ _ =>
      refine h.torn ?_ hU (x := some U') ⟨hb.nconn, hb.evrTimeout⟩ rfl rfl rfl
        (Ctl.silent_of_ups rfl)
      intro v hv
      rw [hf] at hv
      exact Option.some.inj ((Ctl.ups_of_silent hv).symm.trans hu)
  | parked hf hi _ _ _ =>
      refine h.same ?_ rfl rfl rfl hle
      rw [hf]
      exact Ctl.silent_of_ups ((hl.framed _ hf).idle hi).1
  | fired hb he hn ha => exact h.fired hl hap (Ctl.quiet_of_eq (.inl hb)) he hn ha
  | rearmed hf _ hu => exact h.rearmed hl hf hu
  | resolved hctl _ _ => exact hidle (Ctl.quiet_of_eq hctl) rfl rfl
  | unresolved hctl _ _ => exact hidle (Ctl.quiet_of_eq hctl) rfl rfl
  | lost _ hctl => exact hidle (Ctl.quiet_of_eq hctl) rfl rfl
  | left hb _ _ => exact hidle (Ctl.quiet_of_eq (.inl hb)) rfl rfl
  | cancelledNone hb _ _ _ _ => exact hidle (Ctl.quiet_of_eq (.inl hb)) rfl rfl
  | cancelledQueued hb _ _ _ => exact hidle (Ctl.quiet_of_eq (.inl hb)) rfl rfl
  | cancelledLookup _ hb _ _ _ => exact hidle (Ctl.quiet_of_eq (.inl hb)) rfl rfl
  | cancelledLoose hb _ _ _ _ => exact hidle (Ctl.quiet_of_eq (.inl hb)) rfl rfl
  | @cancelledActive s u c U U' S subrs ks p ctl hb _ _ _ hU _ _ hbare ha _ _ =>
      refine h.torn ?_ hU (x := some U') ⟨hbare.nconn, hbare.evrTimeout⟩ rfl rfl rfl
        (Ctl.quiet_of_deleting ha).silent
      intro v hv
      exact absurd ((Ctl.quiet_of_eq (.inl hb)).silent.symm.trans hv) (by simp)
  | deleted hctl _ _ => exact hidle (Ctl.quiet_of_deleting (.inr hctl)) rfl rfl
  | deletedUps hctl _ _ hU _ =>
      refine h.torn ?_ hU ⟨Option.bind_none _, Option.bind_none _⟩ rfl rfl rfl rfl
      intro v hv
      exact absurd ((Ctl.quiet_of_deleting (.inr hctl)).silent.symm.trans hv) (by simp)
  | reaped hctl _ => exact hidle (Ctl.quiet_of_eq (.inl hctl)) rfl rfl

end Alarms

/-! ## Places -/

/-- The subrequest is at `x`, in whatever state. -/
def At (t : TSrvr σ) (s : ℕ) : Place ℕ → Prop
  | .slot n => (n, some s) ∈ t.subrList
  | .job j => (j, s) ∈ t.jobs
  | .holder u => holds t.upsSessions u = some s

/-- The subrequest is at `x`, as it should be: in a slot, to which it points; with the resolver; or
with a session that has an active connection and, unless it is being handled, a timer. -/
inductive InPlace (t : TSrvr σ) (s : ℕ) (S : Subr) : Place ℕ → Prop where
  | slot {n : ℕ} (mem : (n, some s) ∈ t.subrList) (iQ : S.iQ = some n) (state : S.state = .queued) :
      InPlace t s S (.slot n)
  | job {j : ℕ} (mem : (j, s) ∈ t.jobs) (state : S.state = .dnsLookup) : InPlace t s S (.job j)
  | session {u c : ℕ} {U : UpsSession σ} (mem : t.upsSessions u = some U) (subr : U.subr = s)
      (nconn : U.nconn = some c) (active : c ∈ t.nconnProxyPool.active)
      (timer : t.ctl.silent ≠ some u → ∃ e, U.evrTimeout = some e ∧ (e, c) ∈ t.timers) :
      InPlace t s S (.holder u)

/-- Every subrequest with both callbacks that was not answered is in exactly one place. -/
structure NoneLost (t : TSrvr σ) : Prop where
  size : t.subrListSize = t.subrList.length
  slots : (t.subrList.map Prod.fst).Nodup
  placed : ∀ s S, t.subrs s = some S → S.conf.completionCb = true → S.conf.errorCb = true →
    (∀ p ∈ t.calls, p.1 ≠ s) → ∃ x, InPlace t s S x ∧ ∀ y, t.At s y → y = x

/-- What an event does not bring: a subrequest without a host, an error of `lookup_async`, a lost
job, or a failed write to an upstream. -/
def Harmless (t : TSrvr σ) : Label → Prop
  | .enqueue conf => conf.host ≠ ""
  | .turn i => ∀ jobLeft, i.lookup ≠ .asyncError jobLeft
  | .pass (.write i) => ∀ f ∈ t.frame, ∀ n ∈ t.conn f.nconn, (n.ncwrite i).2 ≠ .status .error
  | .jobLost _ => False
  | _ => True

instance (t : TSrvr σ) : DecidablePred t.Harmless
  | .enqueue _ => inferInstanceAs (Decidable (_ ≠ _))
  | .turn _ => inferInstanceAs (Decidable (∀ _ : Bool, _))
  | .pass (.write _) => inferInstanceAs (Decidable (∀ f ∈ t.frame, _))
  | .jobLost _ => .isFalse id
  | .pass (.setup _) | .pass (.connect _) | .pass (.read _) | .pass (.timeout _) | .pass .error
  | .dequeue | .fd _ _ | .timeout _ | .resolved _ _ | .cancel _ | .sessionTeardown _ | .delete
  | .reap => .isTrue trivial

/-- The paths that drop a subrequest are not taken: there is a resolver, events are `Harmless`, no
timeout is handled on a connection whose socket could not be set up, and no event on a connection
that the LRU would not find. -/
def Undropped (cf : TConf) (t : TSrvr σ) (l : Label) : Prop :=
  cf.nresolver = true ∧ t.TimesOut ∧ t.IdFits ∧ t.Harmless l

instance (cf : TConf) (t : TSrvr σ) (l : Label) : Decidable (t.Undropped cf l) :=
  inferInstanceAs (Decidable (_ ∧ _ ∧ _ ∧ _))

/-- What holds of the places along a run that drops nothing. -/
structure Safe (t : TSrvr σ) (π : ℕ → Option (Place ℕ)) : Prop where
  owned : t.Owned π
  alarms : t.Alarms
  found : ∀ s S, t.subrs s = some S → S.conf.completionCb = true → S.conf.errorCb = true →
    (∀ p ∈ t.calls, p.1 ≠ s) → π s ≠ none
  job : ∀ s S j, t.subrs s = some S → π s = some (.job j) → S.state = .dnsLookup
  host : ∀ s S, t.subrs s = some S → S.conf.host ≠ ""
  resp : ∀ u U, t.upsSessions u = some U → U.nconn ≠ none → U.resp.isSome

lemma safe_new (cf : TConf) : (new cf : TSrvr σ).Safe fun _ => none where
  owned := owned_new cf
  alarms := ⟨fun u e hu => absurd hu (by simp [new, evrTimeoutOf]), by
    constructor <;> simp [new, evrTimeoutOf, nconnOf]⟩
  found := fun s S hS => absurd hS (by simp [new])
  job := fun s S j hS => absurd hS (by simp [new])
  host := fun s S hS => absurd hS (by simp [new])
  resp := fun u U hU => absurd hU (by simp [new])

namespace Safe

/-- None of the reasons to drop a subrequest comes up. -/
lemma not_gone {S : Subr} (h : t.Safe π) (hok : t.Undropped cf l) (hh : S.conf.host ≠ "") :
    ¬ Gone P cf t l S := by
  obtain ⟨hres, -, -, hlab⟩ := hok
  rintro (hr | hh' | ⟨rfl, hi⟩ | ⟨hU, hc, hresp⟩ | ⟨rfl, hf, hn, hst⟩ | rfl)
  · exact absurd (hres.symm.trans hr) (by simp)
  · exact hh hh'
  · exact hlab _ hi
  · have hsome := h.resp _ _ hU (by simp [hc])
    rw [hresp] at hsome
    exact absurd hsome (by simp)
  · exact hlab _ (frame_eq hf) _ hn hst
  · exact hlab

lemma step (h : t.Safe π) (hl : t.Linked) (hap : t.nconnProxyPool.Apart) (hn : t.Named)
    (hb : t.Books) (hd : Does P cf t l t') (hok : t.Undropped cf l) : ∃ π', t'.Safe π' := by
  have hhost : ∀ s S', t'.subrs s = some S' → S'.conf.host ≠ "" := by
    intro s S' hS'
    rcases hd.subr hS' with ⟨S, hS, hconf⟩ | ⟨-, rfl, -⟩
    · rw [hconf]
      exact h.host s S hS
    · exact hok.2.2.2
  have hgone : ∀ s S', t'.subrs s = some S' → ¬ Gone P cf t l S' :=
    fun s S' hS' => h.not_gone hok (hhost s S' hS')
  have hcalls : ∀ p ∈ t.calls, p ∈ t'.calls := by
    intro p hp
    cases hd.newCall h.owned hl with
    | none hc => rwa [hc]
    | one hc _ _ =>
        rw [hc]
        exact List.mem_append_left _ hp
  obtain ⟨π', hπ', htracks⟩ := h.owned.step hl hn hb hd
  refine ⟨π', hπ', h.alarms.step hl hap hok.2.1 hd, ?_, ?_, hhost, ?_⟩
  · intro s S' hS' hcc hec hun hout
    rcases htracks.place s S' hS' hout with ⟨S, hS, hconf, hπ⟩ | hans | hg
    · rw [hconf] at hcc hec
      exact h.found s S hS hcc hec (fun p hp => hun p (hcalls p hp)) hπ
    · obtain ⟨p, hp, rfl⟩ := hans hcc hec
      exact hun p hp rfl
    · exact hgone s S' hS' hg
  · intro s S' j hS' hπ
    rcases htracks.job s S' j hS' hπ with hst | ⟨S, hS, hπ, hne⟩ | hg
    · exact hst
    · exact absurd (h.job s S j hS hπ) hne
    · exact absurd hg (hgone s S' hS')
  · intro u U' hU' hc
    rcases hd.session hl hU' with
      ⟨U, hU, hstay⟩ | ⟨m, s, c, rest, S, p, r, ctl, -, -, -, -, rfl, rfl⟩
    · refine hstay.resp hc (h.resp u U hU fun hnone => ?_)
      obtain ⟨c, hc⟩ := Option.ne_none_iff_exists'.mp hc
      exact absurd (hnone.symm.trans (hstay.nconn c hc)) (by simp)
    · rw [startedState_session] at hU'
      obtain rfl := Option.some.inj hU'
      rfl

lemma at_iff (h : t.Safe π) (x : Place ℕ) : t.At s x ↔ π s = some x := by
  cases x with
  | slot n => exact h.owned.custody.slot_iff s n
  | job j => exact h.owned.custody.job_iff s j
  | holder u => exact h.owned.custody.held_iff s u

lemma inPlace {S : Subr} {x : Place ℕ} (h : t.Safe π) (hl : t.Linked) (hS : t.subrs s = some S)
    (hx : π s = some x) : InPlace t s S x := by
  have hset := h.owned.settled s S hS
  rw [hx] at hset
  have hat := (h.at_iff x).mpr hx
  cases hset with
  | slot hst hq => exact .slot hat hq hst
  | job _ _ => exact .job hat (h.job s S _ hS hx)
  | @session u _ _ =>
      obtain ⟨U, c, hU, hsub, hc⟩ := exists_of_holds hat
      have hitem := (nconnOf_eq hU).trans hc
      refine .session hU hsub hc (hl.ties.isLive u c hitem) fun hsilent => ?_
      obtain ⟨e, he, hmem⟩ := h.alarms.armed.isArmed u c hitem hsilent
      exact ⟨e, (evrTimeoutOf_eq hU).symm.trans he, hmem⟩

end Safe

/-- **No subrequest is lost**, if no path is taken that drops one: in every state, every subrequest
with both callbacks that was not answered is in exactly one place, and the size of the list is
right. -/
theorem no_subr_lost (h : ((machine P cf).guarded (Undropped cf)).Reachable t) : t.NoneLost := by
  have hr := h.of_guarded
  have hb := books_of_reachable hr
  obtain ⟨π, hπ⟩ : ∃ π, t.Safe π := by
    clear hr hb
    induction h with
    | start hs =>
        obtain rfl := hs
        exact ⟨_, safe_new cf⟩
    | step hr hst ih =>
        obtain ⟨π, hπ⟩ := ih
        have hap := apart_of_reachable (fun _ _ hok => hok.2.2.1) hr
        have hr := hr.of_guarded
        exact hπ.step (linked_of_reachable hr) hap (named_of_reachable hr) (books_of_reachable hr)
          (does_of_step hst.2) hst.1
  refine ⟨hb.size, hπ.owned.custody.names, fun s S hS hcc hec hun => ?_⟩
  obtain ⟨x, hx⟩ := Option.ne_none_iff_exists'.mp (hπ.found s S hS hcc hec hun)
  refine ⟨x, hπ.inPlace (linked_of_reachable hr) hS hx, fun y hy => ?_⟩
  exact Option.some.inj (((hπ.at_iff y).mp hy).symm.trans hx)

/-- Of two subrequests one waits for the resolver, and the request of the other is being written. -/
def placesRun : List Label :=
  [.enqueue okSubr, .enqueue okSubr, .dequeue, .turn ⟨false, .asyncQueued, none⟩,
    .turn ⟨false, .fast, some 10⟩, .pass (.setup ⟨true, true, true⟩),
    .pass (.connect ⟨.connected true, .connected, true⟩), .pass (.write (.sent 4)),
    .pass (.write (.wouldBlock true)), .turn ⟨true, .fast, none⟩]

theorem no_subr_lost_two :
    ∃ t : TSrvr (List UInt8), ((machine okParser okConf).guarded (Undropped okConf)).Reachable t ∧
      t.calls = [] ∧ t.jobs = [(4, 0)] ∧ t.timers = [(6, 0)] ∧ t.NoneLost := by
  have hrun : (placesRun.foldlM (fun (t : TSrvr (List UInt8)) l =>
      if t.Undropped okConf l then t.step okParser okConf l else none) (new okConf)).map
        (fun t => (t.calls, t.jobs, t.timers)) = some ([], [(4, 0)], [(6, 0)]) := by
    decide +kernel
  obtain ⟨t, ht, he⟩ := Option.map_eq_some_iff.mp hrun
  obtain ⟨hcalls, he⟩ := Prod.mk.inj he
  obtain ⟨hjobs, htimers⟩ := Prod.mk.inj he
  have hr : ((machine okParser okConf).guarded (Undropped okConf)).Reachable t :=
    Machine.Reachable.guarded_foldlM (fun _ _ _ he => he) rfl ht
  exact ⟨t, hr, hcalls, hjobs, htimers, no_subr_lost hr⟩

/-- A request cannot be written: the session and the connection are given up, and nobody is told. -/
theorem subr_lost_on_write :
    ¬ ∀ t : TSrvr (List UInt8), (machine okParser okConf).Reachable t → t.NoneLost := by
  have hrun : ((writtenRun [.failed]).foldlM
      (fun (t : TSrvr (List UInt8)) l => t.step okParser okConf l) (new okConf)).map
        (fun t => ((t.subrs 0).map Subr.conf, decide (t.calls = [] ∧ t.subrList = [] ∧
          t.jobs = [] ∧ t.nconnProxyPool.active = ∅))) = some (some okSubr, true) := by
    decide +kernel
  intro hall
  obtain ⟨t, ht, he⟩ := Option.map_eq_some_iff.mp hrun
  obtain ⟨hconf, hempty⟩ := Prod.mk.inj he
  obtain ⟨hcalls, hlist, hjobs, hact⟩ := of_decide_eq_true hempty
  obtain ⟨S, hS, hconf⟩ := Option.map_eq_some_iff.mp hconf
  have hnone := hall t (Machine.Reachable.foldlM (fun _ _ _ he => he) (.start rfl) ht)
  obtain ⟨x, hx, -⟩ := hnone.placed 0 S hS (by rw [hconf]; rfl) (by rw [hconf]; rfl)
    (by simp [hcalls])
  cases hx with
  | slot hmem _ _ => exact absurd hmem (by simp [hlist])
  | job hmem _ => exact absurd hmem (by simp [hjobs])
  | session _ _ _ hmem _ => exact absurd hmem (by simp [hact])

end TSrvr

end Is2
