import Is2.Srvr.PoolSound
import Is2.Srvr.UpsSession

/-!
# What a step of a server thread can do

The functions of `Is2.Srvr.UpsSession` change a thread's state in several small moves.  Here their
results are written out, each as one state in terms of the state before (`Does`), and every step is
shown to be one of these (`does_of_step`).  The invariants are then proved from `Does` alone.
-/

namespace Is2

/-- Where the thread is after the return from `run_state_machine`. -/
def Frame.back (f : Frame) : Ctl :=
  match f.caller with
  | none => .between
  | some _ => .dequeuing

/-- The call can only end with `add_idle` or `release`: an idle connection is being read. -/
structure Frame.Parks (f : Frame) (n : UpsConn) : Prop where
  idle : f.idle = true
  mode : f.mode = .read
  state : n.state = .connected

/-- A return of `STATUS_OK` makes the subrequest active that is being started. -/
def Frame.activate (f : Frame) (subrs : ℕ → Option Subr) : ℕ → Option Subr :=
  match f.caller with
  | none => subrs
  | some s => Function.update subrs s ((subrs s).map fun S => { S with state := .active })

namespace UpsConn

/-! ## What the calls on a connection keep -/

/-- What no call on a connection changes before it is cleaned up. -/
structure Keeps (n n' : UpsConn) : Prop where
  scheme : n'.scheme = n.scheme
  state : n'.state = n.state
  cancelled : n'.cancelled = n.cancelled
  data : n'.data = n.data
  opts : n'.opts = n.opts

lemma Keeps.trans {n n' n'' : UpsConn} (h : Keeps n n') (h' : Keeps n' n'') : Keeps n n'' where
  scheme := h'.scheme.trans h.scheme
  state := h'.state.trans h.state
  cancelled := h'.cancelled.trans h.cancelled
  data := h'.data.trans h.data
  opts := h'.opts.trans h.opts

/-- `nc_cleanup` overwrites everything else. -/
lemma Keeps.ncCleanup {n n' : UpsConn} (h : Keeps n n') : n'.ncCleanup = n.ncCleanup := by
  unfold UpsConn.ncCleanup
  rw [h.scheme, h.opts]

lemma keeps_tcpSetup (n : UpsConn) (i : SetupIn) : Keeps n (n.tcpSetup i).1 := by
  unfold tcpSetup
  split_ifs <;> exact ⟨rfl, rfl, rfl, rfl, rfl⟩

lemma keeps_ncsetup (n : UpsConn) (i : SetupIn) : Keeps n (n.ncsetup i).1 := by
  have h := keeps_tcpSetup n i
  unfold ncsetup
  split
  · split
    case h_1 m hm =>
      rw [hm] at h
      split_ifs
      · exact h.trans ⟨rfl, rfl, rfl, rfl, rfl⟩
      · exact h
    case h_2 m hm =>
      rw [hm] at h
      exact h
  · exact h

lemma keeps_tcpConnect (n : UpsConn) (i : TcpConnect) : Keeps n (n.tcpConnect i).1 := by
  unfold tcpConnect
  split <;> exact ⟨rfl, rfl, rfl, rfl, rfl⟩

lemma keeps_tlsValidate (n : UpsConn) (certOk : Bool) : Keeps n (n.tlsValidate certOk).1 := by
  unfold tlsValidate
  split_ifs <;> exact ⟨rfl, rfl, rfl, rfl, rfl⟩

lemma keeps_tlsConnect (n : UpsConn) (ssl : SslConnect) (certOk : Bool) :
    Keeps n (n.tlsConnect ssl certOk).1 := by
  unfold tlsConnect
  split
  · exact ⟨rfl, rfl, rfl, rfl, rfl⟩
  · exact ⟨rfl, rfl, rfl, rfl, rfl⟩
  · exact ⟨rfl, rfl, rfl, rfl, rfl⟩
  · have h : Keeps n { n with tlsState := .connected } := ⟨rfl, rfl, rfl, rfl, rfl⟩
    exact h.trans (keeps_tlsValidate _ certOk)

lemma keeps_ncconnect (n : UpsConn) (i : ConnectIn) : Keeps n (n.ncconnect i).1 := by
  unfold ncconnect
  split
  · split
    · have h := keeps_tcpConnect n i.tcp
      split
      case h_1 m hm =>
        rw [hm] at h
        exact h
      case h_2 m st hst hm =>
        rw [hm] at h
        split_ifs
        · exact h
        · have h' : Keeps m { m with tlsState := .tlsConnecting } := ⟨rfl, rfl, rfl, rfl, rfl⟩
          exact (h.trans h').trans (keeps_tlsConnect _ i.ssl i.certOk)
    · exact keeps_tlsValidate n _
    · exact ⟨rfl, rfl, rfl, rfl, rfl⟩
    · exact keeps_tlsConnect n _ _
  · exact keeps_tcpConnect n _

lemma keeps_ncwrite (n : UpsConn) (i : Send) : Keeps n (n.ncwrite i).1 := by
  unfold ncwrite
  split <;> exact ⟨rfl, rfl, rfl, rfl, rfl⟩

lemma ncwrite_status {n : UpsConn} {i : Send} {st : NcStatus} (h : (n.ncwrite i).2 = .status st) :
    st = .again ∨ st = .error := by
  unfold ncwrite at h
  split at h
  · exact absurd h (by simp)
  · exact .inl (SockWrite.status.inj h).symm
  · exact .inr (SockWrite.status.inj h).symm
  · split_ifs at h
    · exact .inl (SockWrite.status.inj h).symm
    · exact .inr (SockWrite.status.inj h).symm
  · exact .inr (SockWrite.status.inj h).symm

end UpsConn

namespace TSrvr

variable {σ : Type} {P : RespParser σ} {cf : TConf} {t t' : TSrvr σ} {u s c : ℕ}
  {U : UpsSession σ} {S : Subr}

/-! ## The single changes written out -/

/-- What `call` adds to `calls`. -/
def called (s : ℕ) (isSet : Bool) (k : Call σ) : List (ℕ × Call σ) := if isSet then [(s, k)] else []

lemma call_eq (s : ℕ) (isSet : Bool) (k : Call σ) :
    t.call s isSet k = { t with calls := t.calls ++ called s isSet k } := by
  unfold call called
  split_ifs
  · rfl
  · rw [List.append_nil]

lemma modifyUps_eq (hU : t.upsSessions u = some U) (f : UpsSession σ → UpsSession σ) :
    t.modifyUps u f =
      { t with upsSessions := Function.update t.upsSessions u (some (f U)) } := by
  rw [modifyUps, hU, Option.map_some]

lemma modifySubr_eq (hS : t.subrs s = some S) (f : Subr → Subr) :
    t.modifySubr s f = { t with subrs := Function.update t.subrs s (some (f S)) } := by
  rw [modifySubr, hS, Option.map_some]

lemma cancelEvrTimer_eq {V : UpsSession σ} (hV : t.upsSessions u = some V)
    (he : V.evrTimeout = U.evrTimeout) :
    t.cancelEvrTimer u U = { t with
      timers := t.timers.filter fun p => some p.1 ≠ U.evrTimeout
      upsSessions := Function.update t.upsSessions u (some { V with evrTimeout := none }) } := by
  unfold cancelEvrTimer
  split
  case h_1 hnone =>
    have hself : { V with evrTimeout := none } = V := by rw [← hnone, ← he]
    rw [hself, ← hV, Function.update_eq_self, hnone]
    simp
  case h_2 e hsome =>
    rw [modifyUps_eq (t := { t with timers := t.timers.filter (·.1 ≠ e) }) hV, hsome]
    simp

lemma finish_false (f : Frame) : t.finish f false = { t with ctl := f.back } := by
  unfold finish Frame.back
  cases f.caller <;> rfl

lemma finish_true (f : Frame) :
    t.finish f true = { t with subrs := f.activate t.subrs, ctl := f.back } := by
  unfold finish Frame.back Frame.activate
  cases f.caller <;> rfl

lemma subrEnqueue_eq (hS : t.subrs s = some S) :
    t.subrEnqueue s = { t with
      subrList := t.subrList ++ [(t.next, some s)]
      subrListSize := t.subrListSize + 1
      next := t.next + 1
      subrs := Function.update t.subrs s
        (some { S with state := .queued, iQ := some t.next }) } := by
  unfold subrEnqueue modifySubr
  simp only [hS, Option.map_some]

lemma release_eq_some (he : t.release c = some t') :
    ∃ p, t.nconnProxyPool.release UpsConn.cls c = some p ∧ t' = { t with nconnProxyPool := p } := by
  obtain ⟨p, hp, rfl⟩ := Option.map_eq_some_iff.mp he
  exact ⟨p, hp, rfl⟩

/-- A change of a connection that `nc_cleanup` overwrites makes no difference to `release`. -/
lemma release_modifyConn {g : UpsConn → UpsConn}
    (hg : ∀ n, t.conn c = some n → (g n).ncCleanup = n.ncCleanup) :
    (t.modifyConn c g).release c = t.release c := by
  have hrel : (t.modifyConn c g).nconnProxyPool.release UpsConn.cls c =
      t.nconnProxyPool.release UpsConn.cls c := by
    refine NconnPool.release_update (fun _ => rfl) (fun _ => rfl) fun n hn => ?_
    exact hg n.rest (by rw [conn, hn, Option.map_some])
  rw [release, release, hrel]
  cases t.nconnProxyPool.release UpsConn.cls c <;> rfl

lemma conn_modifyConn_self (g : UpsConn → UpsConn) :
    (t.modifyConn c g).conn c = (t.conn c).map g := by
  unfold conn modifyConn
  rw [NconnPool.update_nconns_self, Option.map_map, Option.map_map]
  rfl

lemma modifyConn_self {n : UpsConn} (hn : t.conn c = some n) : t.modifyConn c (fun _ => n) = t := by
  obtain ⟨m, hm, rfl⟩ := Option.map_eq_some_iff.mp hn
  simp only [modifyConn, NconnPool.update, hm, Option.map_some]
  rw [← hm, Function.update_eq_self]

lemma modifyConn_modifyConn (f g : UpsConn → UpsConn) :
    (t.modifyConn c f).modifyConn c g = t.modifyConn c fun n => g (f n) := by
  simp only [modifyConn, NconnPool.update, Function.update_self, Function.update_idem,
    Option.map_map]
  rfl

/-! ## What tears a session from its connection -/

/-- The callbacks that are called when a session gives its connection up, and the responses cut off:
after an error; at an EOF; when the response is complete; and after a failed write. -/
inductive Torn (P : RespParser σ) (t : TSrvr σ) (l : Label) (U : UpsSession σ) (S : Subr) :
    List (ℕ × Call σ) → List (ℕ × σ) → Prop where
  | failed (status : HttpStatus) : Torn P t l U S (called U.subr S.conf.errorCb (.error status)) []
  | eof {p : σ} (label : l = .pass (.read .eof)) (resp : U.resp = some p) :
      Torn P t l U S (called U.subr S.conf.completionCb (.completion p)) [(U.subr, p)]
  | eofLate (label : l = .pass (.read .eof)) (resp : U.resp = none) : Torn P t l U S [] []
  | complete {p : σ} (complete : P.complete p = true) :
      Torn P t l U S (called U.subr S.conf.completionCb (.completion p)) []
  | writeFailed {f : Frame} {n : UpsConn} {i : UpsConn.Send} (label : l = .pass (.write i))
      (ctl : t.ctl = .running f) (conn : t.conn f.nconn = some n)
      (status : (n.ncwrite i).2 = .status .error) : Torn P t l U S [] []

/-- The state in which `u` has given up `c`. -/
def tornState (t : TSrvr σ) (p : NconnPool UpsConn) (u : ℕ) (U U' : UpsSession σ) (s : ℕ)
    (S' : Subr) (ks : List (ℕ × Call σ)) (es : List (ℕ × σ)) (ctl : Ctl) : TSrvr σ :=
  { t with
    nconnProxyPool := p
    upsSessions := Function.update t.upsSessions u (some U')
    subrs := Function.update t.subrs s (some S')
    timers := t.timers.filter fun p => some p.1 ≠ U.evrTimeout
    calls := t.calls ++ ks
    eofs := t.eofs ++ es
    ctl := ctl }

/-- What is left of a session that has given up its connection. -/
structure Bare (U U' : UpsSession σ) : Prop where
  subr : U'.subr = U.subr
  nconn : U'.nconn = none
  evrTimeout : U'.evrTimeout = none

/-- What a subrequest is after it was taken from its place. -/
structure Idle (S S' : Subr) : Prop where
  conf : S'.conf = S.conf
  state : S'.state = .none
  lookupJob : S'.lookupJob = S.lookupJob
  upsSession : S'.upsSession = S.upsSession
  upsDone : S.upsDone = true → S'.upsDone = true

/-- `teardown` of a session. -/
lemma teardown_eq_some {status : HttpStatus} (he : t.teardown (some u) c status = some t') :
    ∃ U S p U' S', t.upsSessions u = some U ∧ t.subrs U.subr = some S ∧
      t.nconnProxyPool.release UpsConn.cls c = some p ∧ Bare U U' ∧ Idle S S' ∧
      t' = t.tornState p u U U' U.subr S'
        (if status = .ok then [] else called U.subr S.conf.errorCb (.error status)) [] t.ctl := by
  obtain ⟨U, hU, he⟩ := Option.bind_eq_some_iff.mp he
  obtain ⟨S, hS, he⟩ := Option.bind_eq_some_iff.mp he
  obtain ⟨t₂, ht₂, he⟩ := Option.bind_eq_some_iff.mp he
  obtain rfl := Option.some.inj he
  rw [modifySubr_eq hS] at ht₂
  generalize hS' : { S with
    state := SubrState.none, upsDone := S.upsDone || S.conf.u == some UType.proxy } = S' at ht₂
  have hidle : Idle S S' := by
    subst hS'
    exact ⟨rfl, rfl, rfl, rfl, fun hd => by simp [hd]⟩
  -- in both cases only the rest of the request may be dropped from the session
  obtain ⟨V, hsub, htime, ht₁⟩ : ∃ V : UpsSession σ, V.subr = U.subr ∧ V.evrTimeout = U.evrTimeout ∧
      (if status = .ok then { t with subrs := Function.update t.subrs U.subr (some S') }
        else ({ t with subrs := Function.update t.subrs U.subr (some S') }.call U.subr
          S.conf.errorCb (.error status)).modifyUps u
            fun U => if S.conf.detachResp then { U with outQ := none } else U) =
      { t with
        subrs := Function.update t.subrs U.subr (some S')
        upsSessions := Function.update t.upsSessions u (some V)
        calls := t.calls ++
          if status = .ok then [] else called U.subr S.conf.errorCb (.error status) } := by
    by_cases hok : status = .ok
    · refine ⟨U, rfl, rfl, ?_⟩
      have hself : Function.update t.upsSessions u (some U) = t.upsSessions := by
        rw [← hU, Function.update_eq_self]
      simp only [if_pos hok, hself, List.append_nil]
    · simp only [if_neg hok]
      refine ⟨if S.conf.detachResp then { U with outQ := none } else U, ?_, ?_, ?_⟩
      · split_ifs <;> rfl
      · split_ifs <;> rfl
      · rw [call_eq, modifyUps_eq (by exact hU)]
  simp only [ht₁] at ht₂
  rw [cancelEvrTimer_eq (Function.update_self _ _ _) htime] at ht₂
  obtain ⟨p, hp, rfl⟩ := release_eq_some ht₂
  refine ⟨U, S, p, { V with evrTimeout := none, nconn := none }, S', hU, hS, hp,
    ⟨hsub, rfl, rfl⟩, hidle, ?_⟩
  rw [modifyUps_eq (Function.update_self _ _ _)]
  simp only [tornState, Function.update_idem, List.append_nil]

/-! ## What a step does -/

/-- The session of a frame may have changed if its connection is connected, but not in what ties it
to its subrequest, its connection and its timer, and it has not lost its response. -/
inductive Touched (f : Frame) (n : UpsConn) (ups : ℕ → Option (UpsSession σ)) :
    (ℕ → Option (UpsSession σ)) → Prop where
  | same : Touched f n ups ups
  | one {u : ℕ} {U U' : UpsSession σ} (frame : f.ups = some u) (state : n.state = .connected)
      (mem : ups u = some U) (subr : U'.subr = U.subr) (nconn : U'.nconn = U.nconn)
      (evrTimeout : U'.evrTimeout = U.evrTimeout) (resp : U.resp.isSome → U'.resp.isSome) :
      Touched f n ups (Function.update ups u (some U'))

/-- What a pass does to its connection, if the session keeps it. -/
inductive ConnMove (l : Label) (n : UpsConn) : UpsConn → Prop where
  | same : ConnMove l n n
  | setup {i : UpsConn.SetupIn} {m : UpsConn} (state : n.state = .free)
      (setup : n.ncsetup i = (m, true)) : ConnMove l n { m with state := .connecting }
  | setupFailed {i : UpsConn.SetupIn} {m : UpsConn} (state : n.state = .free)
      (label : l = .pass (.setup i)) (setup : n.ncsetup i = (m, false)) : ConnMove l n m
  | connecting {i : UpsConn.ConnectIn} (state : n.state = .connecting) :
      ConnMove l n (n.ncconnect i).1
  | connected {i : UpsConn.ConnectIn} (state : n.state = .connecting)
      (status : (n.ncconnect i).2 ≠ .error) (done : (n.ncconnect i).1.isConnecting = false) :
      ConnMove l n { (n.ncconnect i).1 with state := .connected }
  | wrote {i : UpsConn.Send} (label : l = .pass (.write i)) : ConnMove l n (n.ncwrite i).1

/-- What a pass through `state_top` leads to, if the session keeps its connection: `more` is whether
there is a next pass. -/
structure Passes (l : Label) (f : Frame) (n n' : UpsConn) (more : Bool) : Prop where
  parks : more = false → f.Parks n → f.ups ≠ none
  mode : f.mode ≠ .error
  timeout : f.mode = .timeout → more = false ∧ (n.state = .free ∨ f.ups = none)
  free : n'.state = .free → f.mode = .timeout ∨
    ∃ i m, l = .pass (.setup i) ∧ n.ncsetup i = (m, false)

/-- What `subr_start` leaves of a subrequest that it does not start: its state, its job, the jobs
and calls that are new, and how many names were used. -/
inductive Unstarted (cf : TConf) (l : Label) (s : ℕ) (S : Subr) (next : ℕ) :
    SubrState → Option ℕ → List (ℕ × ℕ) → List (ℕ × Call σ) → ℕ → Prop where
  | noResolver (resolver : cf.nresolver = false) : Unstarted cf l s S next .none S.lookupJob [] [] 0
  | syncFailed : Unstarted cf l s S next .none S.lookupJob []
      (called s S.conf.errorCb (.error .badGateway)) 0
  | noHost (host : S.conf.host = "") : Unstarted cf l s S next .dnsLookup S.lookupJob [] [] 0
  | queued (host : S.conf.host ≠ "") :
      Unstarted cf l s S next .dnsLookup (some next) [(next, s)] [] 1
  | failed (host : S.conf.host ≠ "") : Unstarted cf l s S next .dnsLookup (some next) []
      (called s S.conf.errorCb (.error .badGateway)) 1
  | error {i : TurnIn} {jobLeft : Bool} (label : l = .turn i)
      (lookup : i.lookup = .asyncError jobLeft) :
      Unstarted cf l s S next .none S.lookupJob [] [] 0
  | errorLeft {i : TurnIn} {jobLeft : Bool} (label : l = .turn i)
      (lookup : i.lookup = .asyncError jobLeft) (host : S.conf.host ≠ "") :
      Unstarted cf l s S next .none S.lookupJob [(next, s)] [] 1

/-- The connection a subrequest is started on, and the pool then: an idle one, or a new one. -/
inductive Gotten (t : TSrvr σ) (S : Subr) (c : ℕ) : NconnPool UpsConn → Prop where
  | idle {p : NconnPool UpsConn}
      (get : t.nconnProxyPool.getIdle S.conf.getLabel = some (p, some c)) : Gotten t S c p
  | new {p : NconnPool UpsConn}
      (get : t.nconnProxyPool.getNewActive UpsConn.cls S.conf.getLabel S.conf.scheme =
        some (p, some c)) :
      Gotten t S c (p.update c fun n => { n with rest := n.rest.setTlsOpts S.conf.tlsOpts })

/-- The state in which `subr_start` has attached the session `t.next` to `c`. -/
def startedState (P : RespParser σ) (t : TSrvr σ) (p : NconnPool UpsConn)
    (rest : List (ℕ × Option ℕ)) (s : ℕ) (S : Subr) (c : ℕ) (request : Option ℕ) (ctl : Ctl) :
    TSrvr σ :=
  { t with
    nconnProxyPool := p.update c fun n => { n with rest := { n.rest with data := some t.next } }
    subrList := rest
    subrListSize := t.subrListSize - 1
    subrs := Function.update t.subrs s
      (some { S with state := .none, iQ := none, upsSession := some t.next })
    upsSessions := Function.update t.upsSessions t.next (some
      { subr := s, nconn := some c, evrTimeout := request.map fun _ => t.next + 1
        resp := some P.init, outQ := request, detachResp := S.conf.detachResp, again := false })
    timers := t.timers ++ request.toList.map fun _ => (t.next + 1, c)
    next := t.next + 1 + request.toList.length
    ctl := ctl }

/-- The session that was started. -/
lemma startedState_session (p : NconnPool UpsConn) (rest : List (ℕ × Option ℕ)) (s : ℕ) (S : Subr)
    (c : ℕ) (request : Option ℕ) (ctl : Ctl) :
    (t.startedState P p rest s S c request ctl).upsSessions t.next = some
      { subr := s, nconn := some c, evrTimeout := request.map fun _ => t.next + 1
        resp := some P.init, outQ := request, detachResp := S.conf.detachResp, again := false } :=
  Function.update_self _ _ _

/-- What of a subrequest no step changes but `subr_start`. -/
structure Kin (S S' : Subr) : Prop where
  conf : S'.conf = S.conf
  upsSession : S'.upsSession = S.upsSession
  lookupJob : S'.lookupJob = S.lookupJob ∨ S'.lookupJob = none

lemma kin_refl (S : Subr) : Kin S S := ⟨rfl, rfl, .inl rfl⟩

lemma Idle.kin {S S' : Subr} (h : Idle S S') : Kin S S' := ⟨h.conf, h.upsSession, .inl h.lookupJob⟩

lemma Kin.trans {S S' S'' : Subr} (h : Kin S S') (h' : Kin S' S'') : Kin S S'' := by
  refine ⟨h'.conf.trans h.conf, h'.upsSession.trans h.upsSession, ?_⟩
  rcases h'.lookupJob with hj | hj
  · rw [hj]
    exact h.lookupJob
  · exact .inr hj

/-- All subrequests were there before. -/
def Kins (subrs subrs' : ℕ → Option Subr) : Prop :=
  ∀ r R', subrs' r = some R' → ∃ R, subrs r = some R ∧ Kin R R'

lemma kins_refl (subrs : ℕ → Option Subr) : Kins subrs subrs := fun _ R' h => ⟨R', h, kin_refl R'⟩

lemma Kins.trans {a b c : ℕ → Option Subr} (h : Kins a b) (h' : Kins b c) : Kins a c := by
  intro r R' hR'
  obtain ⟨R, hR, hk⟩ := h' r R' hR'
  obtain ⟨Q, hQ, hk'⟩ := h r R hR
  exact ⟨Q, hQ, hk'.trans hk⟩

lemma kins_map (subrs : ℕ → Option Subr) (s : ℕ) {f : Subr → Subr} (hf : ∀ S, Kin S (f S)) :
    Kins subrs (Function.update subrs s ((subrs s).map f)) := by
  intro r R' hR'
  by_cases hr : r = s
  · subst hr
    rw [Function.update_self] at hR'
    obtain ⟨R, hR, rfl⟩ := Option.map_eq_some_iff.mp hR'
    exact ⟨R, hR, hf R⟩
  · rw [Function.update_of_ne hr] at hR'
    exact ⟨R', hR', kin_refl R'⟩

lemma kins_update {subrs : ℕ → Option Subr} {s : ℕ} {S S' : Subr} (hS : subrs s = some S)
    (hk : Kin S S') : Kins subrs (Function.update subrs s (some S')) := by
  intro r R' hR'
  by_cases hr : r = s
  · subst hr
    rw [Function.update_self] at hR'
    obtain rfl := Option.some.inj hR'
    exact ⟨S, hS, hk⟩
  · rw [Function.update_of_ne hr] at hR'
    exact ⟨R', hR', kin_refl R'⟩

lemma of_update_none {subrs : ℕ → Option Subr} {s r : ℕ} {R : Subr}
    (hR : Function.update subrs s none r = some R) : r ≠ s ∧ subrs r = some R := by
  have hr : r ≠ s := by
    rintro rfl
    rw [Function.update_self] at hR
    exact absurd hR (by simp)
  rw [Function.update_of_ne hr] at hR
  exact ⟨hr, hR⟩

lemma kins_delete (subrs : ℕ → Option Subr) (s : ℕ) : Kins subrs (Function.update subrs s none) :=
  fun _ R' hR' => ⟨R', (of_update_none hR').2, kin_refl R'⟩

lemma kins_activate (f : Frame) (subrs : ℕ → Option Subr) : Kins subrs (f.activate subrs) := by
  unfold Frame.activate
  split
  · exact kins_refl subrs
  · exact kins_map subrs _ fun _ => ⟨rfl, rfl, .inl rfl⟩

lemma of_activate {f : Frame} {subrs : ℕ → Option Subr} {s : ℕ} {S' : Subr}
    (hS' : f.activate subrs s = some S') : subrs s = some S' ∨ S'.state = .active := by
  cases hr : f.caller with
  | none =>
      simp only [Frame.activate, hr] at hS'
      exact .inl hS'
  | some r =>
      simp only [Frame.activate, hr] at hS'
      by_cases hs : s = r
      · subst hs
        rw [Function.update_self] at hS'
        obtain ⟨S, -, rfl⟩ := Option.map_eq_some_iff.mp hS'
        exact .inr rfl
      · rw [Function.update_of_ne hs] at hS'
        exact .inl hS'

/-- What `subr::cancel` leaves.  It was called by itself, or from the teardown of the client
session, which then deletes the subrequest. -/
structure Cancelled (s : ℕ) (S S' : Subr) (ctl : Ctl) : Prop where
  idle : Idle S S'
  ctl : ctl = .between ∨ ctl = .deleting s

/-- What a step of a server thread can do. -/
inductive Does (P : RespParser σ) (cf : TConf) (t : TSrvr σ) (l : Label) : TSrvr σ → Prop where
  | enqueued {conf : SubrConf} (label : l = .enqueue conf) (ctl : t.ctl = .between) :
      Does P cf t l { t with
        subrs := Function.update t.subrs t.next
          (some ⟨conf, .queued, some (t.next + 1), none, none, false⟩)
        subrList := t.subrList ++ [(t.next + 1, some t.next)]
        subrListSize := t.subrListSize + 1
        next := t.next + 1 + 1 }
  | paused {ctl : Ctl} (before : t.ctl = .between ∨ t.ctl = .dequeuing)
      (after : ctl = .between ∨ ctl = .dequeuing) : Does P cf t l { t with ctl := ctl }
  | entered {c : ℕ} {n : UpsConn} {mode : EvrMode} (ctl : t.ctl = .between)
      (conn : t.conn c = some n) (alive : n.cancelled = false) (fd : mode ≠ .timeout) :
      Does P cf t l { t with ctl := .running ⟨c, mode, n.data, false, none⟩ }
  | dropped {m : ℕ} {rest : List (ℕ × Option ℕ)} (ctl : t.ctl = .dequeuing)
      (front : t.subrList = (m, none) :: rest) :
      Does P cf t l { t with subrList := rest, subrListSize := t.subrListSize - 1 }
  | requeued {m s : ℕ} {rest : List (ℕ × Option ℕ)} {S : Subr} (ctl : t.ctl = .dequeuing)
      (front : t.subrList = (m, some s) :: rest) (mem : t.subrs s = some S) :
      Does P cf t l { t with
        subrList := rest ++ [(t.next, some s)]
        subrListSize := t.subrListSize - 1 + 1
        subrs := Function.update t.subrs s (some { S with state := .queued, iQ := some t.next })
        next := t.next + 1
        ctl := .between }
  | unstarted {m s k : ℕ} {rest : List (ℕ × Option ℕ)} {S : Subr} {state : SubrState}
      {job : Option ℕ} {js : List (ℕ × ℕ)} {ks : List (ℕ × Call σ)} (ctl : t.ctl = .dequeuing)
      (front : t.subrList = (m, some s) :: rest) (mem : t.subrs s = some S)
      (why : Unstarted cf l s S t.next state job js ks k) :
      Does P cf t l { t with
        subrList := rest
        subrListSize := t.subrListSize - 1
        subrs := Function.update t.subrs s
          (some { S with state := state, iQ := none, lookupJob := job })
        jobs := t.jobs ++ js
        calls := t.calls ++ ks
        next := t.next + k }
  | started {m s c : ℕ} {rest : List (ℕ × Option ℕ)} {S : Subr} {p : NconnPool UpsConn}
      {n : Nconn UpsConn} {request : Option ℕ} {ctl : Ctl} (before : t.ctl = .dequeuing)
      (front : t.subrList = (m, some s) :: rest) (mem : t.subrs s = some S) (got : Gotten t S c p)
      (conn : p.nconns c = some n) (line : request ≠ some 0)
      (after : ctl = if n.rest.cancelled then .dequeuing
        else .running ⟨c, if request.isSome then .write else .error, some t.next, false, some s⟩) :
      Does P cf t l (t.startedState P p rest s S c request ctl)
  | ran {f : Frame} {n n' : UpsConn} {ups : ℕ → Option (UpsSession σ)} {more ok : Bool}
      (ctl : t.ctl = .running f) (conn : t.conn f.nconn = some n) (move : ConnMove l n n')
      (touched : Touched f n t.upsSessions ups) (pass : Passes l f n n' more) :
      Does P cf t l { t.modifyConn f.nconn fun _ => n' with
        upsSessions := ups
        subrs := if more || !ok then t.subrs else f.activate t.subrs
        ctl := if more then .running f else f.back }
  | tore {f : Frame} {u : ℕ} {U U' : UpsSession σ} {S S' : Subr} {p : NconnPool UpsConn}
      {ks : List (ℕ × Call σ)} {es : List (ℕ × σ)} (ctl : t.ctl = .running f) (ups : f.ups = some u)
      (mem : t.upsSessions u = some U) (subr : t.subrs U.subr = some S)
      (pool : t.nconnProxyPool.release UpsConn.cls f.nconn = some p) (bare : Bare U U')
      (idle : Idle S S') (why : Torn P t l U S ks es) :
      Does P cf t l (t.tornState p u U U' U.subr S' ks es f.back)
  | released {f : Frame} {p : NconnPool UpsConn} (ctl : t.ctl = .running f) (ups : f.ups = none)
      (pool : t.nconnProxyPool.release UpsConn.cls f.nconn = some p) :
      Does P cf t l { t with nconnProxyPool := p, ctl := f.back }
  | idled {f : Frame} {n : UpsConn} {u : ℕ} {U U' : UpsSession σ} {S S' : Subr} {p : σ}
      (ctl : t.ctl = .running f) (read : f.mode = .read) (conn : t.conn f.nconn = some n)
      (connected : n.state = .connected) (ups : f.ups = some u) (mem : t.upsSessions u = some U)
      (subr : t.subrs U.subr = some S) (bare : Bare U U') (idle : Idle S S')
      (complete : P.complete p = true) :
      Does P cf t l (t.tornState t.nconnProxyPool u U U' U.subr S'
        (called U.subr S.conf.completionCb (.completion p)) []
        (.running { f with ups := none, idle := true }))
  | parked {f : Frame} {n n' : UpsConn} {p : NconnPool UpsConn} {ok : Bool}
      (ctl : t.ctl = .running f) (idle : f.idle = true) (conn : t.conn f.nconn = some n)
      (move : ConnMove l n n')
      (pool : (t.modifyConn f.nconn fun _ => { n' with data := none }).nconnProxyPool.addIdle
        UpsConn.cls f.nconn = some (p, ok)) :
      Does P cf t l { t with
        nconnProxyPool := p
        subrs := if ok then f.activate t.subrs else t.subrs
        ctl := f.back }
  | fired {e c : ℕ} {n : UpsConn} {ctl : Ctl} (before : t.ctl = .between)
      (timer : (e, c) ∈ t.timers) (conn : t.conn c = some n)
      (after : ctl = if n.cancelled then .between
        else .running ⟨c, .timeout, n.data, false, none⟩) :
      Does P cf t l { t with
        timers := t.timers.filter (·.1 ≠ e)
        upsSessions := n.data.elim t.upsSessions fun u =>
          Function.update t.upsSessions u
            ((t.upsSessions u).map fun U => { U with evrTimeout := none })
        ctl := ctl }
  | rearmed {f : Frame} {u : ℕ} (ctl : t.ctl = .running f) (timeout : f.mode = .timeout)
      (ups : f.ups = some u) :
      Does P cf t l { t with
        timers := t.timers ++ [(t.next, f.nconn)]
        next := t.next + 1
        upsSessions := Function.update t.upsSessions u
          ((t.upsSessions u).map fun U => { U with evrTimeout := some t.next })
        subrs := f.activate t.subrs
        ctl := f.back }
  | resolved {j s : ℕ} {S : Subr} (ctl : t.ctl = .between ∨ t.ctl = .dequeuing)
      (job : (j, s) ∈ t.jobs) (mem : t.subrs s = some S) :
      Does P cf t l { t with
        jobs := t.jobs.filter (·.1 ≠ j)
        subrList := t.subrList ++ [(t.next, some s)]
        subrListSize := t.subrListSize + 1
        subrs := Function.update t.subrs s
          (some { S with state := .queued, iQ := some t.next, lookupJob := none })
        next := t.next + 1 }
  | unresolved {j s : ℕ} {S : Subr} (ctl : t.ctl = .between ∨ t.ctl = .dequeuing)
      (job : (j, s) ∈ t.jobs) (mem : t.subrs s = some S) :
      Does P cf t l { t with
        jobs := t.jobs.filter (·.1 ≠ j)
        subrs := Function.update t.subrs s (some { S with lookupJob := none })
        calls := t.calls ++ called s S.conf.errorCb (.error .badGateway) }
  | lost {j : ℕ} (label : l = .jobLost j) (ctl : t.ctl = .between ∨ t.ctl = .dequeuing) :
      Does P cf t l { t with jobs := t.jobs.filter (·.1 ≠ j) }
  | left {s : ℕ} {S : Subr} (before : t.ctl = .between) (mem : t.subrs s = some S)
      (upsDone : S.upsDone = true) : Does P cf t l { t with ctl := .deleting s }
  | cancelledNone {s : ℕ} {S S' : Subr} {ctl : Ctl} (before : t.ctl = .between)
      (mem : t.subrs s = some S) (state : S.state = .none) (how : Cancelled s S S' ctl)
      (same : ctl = .between → S' = S) :
      Does P cf t l { t with subrs := Function.update t.subrs s (some S'), ctl := ctl }
  | cancelledQueued {s : ℕ} {S S' : Subr} {ctl : Ctl} (before : t.ctl = .between)
      (mem : t.subrs s = some S) (state : S.state = .queued) (how : Cancelled s S S' ctl) :
      Does P cf t l { t with
        subrList := t.subrList.map fun (n, p) => (n, if some n = S.iQ then none else p)
        subrs := Function.update t.subrs s (some S')
        calls := t.calls ++ called s S.conf.errorCb (.error .gatewayTimeout)
        ctl := ctl }
  | cancelledLookup {s : ℕ} {S S' : Subr} {ctl : Ctl}
      (label : l = .cancel s ∨ l = .sessionTeardown s) (before : t.ctl = .between)
      (mem : t.subrs s = some S) (state : S.state = .dnsLookup) (how : Cancelled s S S' ctl) :
      Does P cf t l { t with
        jobs := t.jobs.filter fun p => some p.1 ≠ S.lookupJob
        subrs := Function.update t.subrs s (some S')
        calls := t.calls ++ called s S.conf.errorCb (.error .gatewayTimeout)
        ctl := ctl }
  | cancelledLoose {s : ℕ} {S S' : Subr} {ctl : Ctl} (before : t.ctl = .between)
      (mem : t.subrs s = some S) (state : S.state = .active) (ups : S.upsSession = none)
      (how : Cancelled s S S' ctl) :
      Does P cf t l { t with
        subrs := Function.update t.subrs s (some S')
        calls := t.calls ++ called s S.conf.errorCb (.error .gatewayTimeout)
        ctl := ctl }
  | cancelledActive {s u c : ℕ} {U U' : UpsSession σ} {S : Subr} {subrs : ℕ → Option Subr}
      {ks : List (ℕ × Call σ)} {p : NconnPool UpsConn} {ctl : Ctl} (before : t.ctl = .between)
      (mem : t.subrs s = some S) (state : S.state = .active) (ups : S.upsSession = some u)
      (sess : t.upsSessions u = some U) (nconn : U.nconn = some c)
      (pool : t.nconnProxyPool.release UpsConn.cls c = some p) (bare : Bare U U')
      (after : ctl = .between ∨ ctl = .deleting s)
      (kins : Kins t.subrs subrs)
      (how : U.subr = s → ∃ S', Cancelled s S S' ctl ∧
        subrs = Function.update t.subrs s (some S') ∧
        ks = called s S.conf.errorCb (.error .gatewayTimeout)) :
      Does P cf t l { t.tornState p u U U' s S ks [] ctl with subrs := subrs }
  | deleted {s : ℕ} {S : Subr} (ctl : t.ctl = .deleting s) (mem : t.subrs s = some S)
      (ups : S.upsSession = none) :
      Does P cf t l { t with subrs := Function.update t.subrs s none, ctl := .between }
  | deletedUps {s u : ℕ} {S : Subr} {U : UpsSession σ} {p : NconnPool UpsConn}
      (ctl : t.ctl = .deleting s) (mem : t.subrs s = some S) (ups : S.upsSession = some u)
      (sess : t.upsSessions u = some U)
      (pool : (∀ c, U.nconn = some c → t.nconnProxyPool.release UpsConn.cls c = some p) ∧
        (U.nconn = none → p = t.nconnProxyPool)) :
      Does P cf t l { t with
        nconnProxyPool := p
        subrs := Function.update t.subrs s none
        upsSessions := Function.update t.upsSessions u none
        timers := t.timers.filter fun p => some p.1 ≠ U.evrTimeout
        ctl := .between }
  | reaped {p : NconnPool UpsConn} (ctl : t.ctl = .between)
      (pool : t.nconnProxyPool.reap = some p) : Does P cf t l { t with nconnProxyPool := p }

/-! ## Every step does one of these things -/

variable {l : Label}

lemma does_enter {mode : EvrMode} (hctl : t.ctl = .between) (hm : mode ≠ .timeout)
    (he : t.enter c mode none = some t') : Does P cf t l t' := by
  obtain ⟨n, hn, he⟩ := Option.bind_eq_some_iff.mp he
  obtain rfl := Option.some.inj he
  split_ifs with hcan hskip
  · rw [finish_false]
    exact .paused (.inl hctl) (.inl rfl)
  · rw [finish_true]
    exact .paused (.inl hctl) (.inl rfl)
  · exact .entered hctl hn (by simpa using hcan) hm

/-- The end of `subr_start`, written out. -/
lemma startOn_eq_some {S₀ : Subr} {request : Option ℕ} (hS : t.subrs s = some S₀)
    (he : t.startOn P s S c request = some t') :
    ∃ n, t.nconnProxyPool.nconns c = some n ∧ request ≠ some 0 ∧ t' = { t with
      nconnProxyPool := t.nconnProxyPool.update c fun n =>
        { n with rest := { n.rest with data := some t.next } }
      subrs := Function.update t.subrs s (some { S₀ with upsSession := some t.next })
      upsSessions := Function.update t.upsSessions t.next (some
        { subr := s, nconn := some c, evrTimeout := request.map fun _ => t.next + 1
          resp := some P.init, outQ := request, detachResp := S.conf.detachResp, again := false })
      timers := t.timers ++ request.toList.map fun _ => (t.next + 1, c)
      next := t.next + 1 + request.toList.length
      ctl := if n.rest.cancelled then .dequeuing else
        .running ⟨c, if request.isSome then .write else .error, some t.next, false, some s⟩ } := by
  have hconn : ∀ {m}, (t.modifyConn c fun n => { n with data := some t.next }).conn c = some m →
      ∃ n, t.nconnProxyPool.nconns c = some n ∧ m = { n.rest with data := some t.next } := by
    intro m hm
    rw [conn_modifyConn_self] at hm
    obtain ⟨m', hm', rfl⟩ := Option.map_eq_some_iff.mp hm
    obtain ⟨n, hn, rfl⟩ := Option.map_eq_some_iff.mp hm'
    exact ⟨n, hn, rfl⟩
  unfold startOn at he
  simp only at he
  rw [modifySubr_eq (by exact hS)] at he
  split at he
  case h_1 =>
      obtain ⟨m, hm, he⟩ := Option.bind_eq_some_iff.mp he
      obtain rfl := Option.some.inj he
      obtain ⟨n, hn, rfl⟩ := hconn hm
      refine ⟨n, hn, by simp, ?_⟩
      by_cases hc : n.rest.cancelled = true
      · simp [hc, finish_false, Frame.back, modifyConn]
      · simp [hc, modifyConn]
  case h_2 => exact absurd he (by simp)
  case h_3 k hk =>
      simp only [addEvrTimer] at he
      rw [modifyUps_eq (Function.update_self _ _ _)] at he
      obtain ⟨m, hm, he⟩ := Option.bind_eq_some_iff.mp he
      obtain rfl := Option.some.inj he
      obtain ⟨n, hn, rfl⟩ := hconn hm
      refine ⟨n, hn, by simpa using hk, ?_⟩
      by_cases hc : n.rest.cancelled = true
      · simp [hc, finish_false, Frame.back, modifyConn]
      · simp [hc, modifyConn]

/-- A subrequest that was taken from the list. -/
def popped (t : TSrvr σ) (rest : List (ℕ × Option ℕ)) (s : ℕ) (S : Subr) : TSrvr σ :=
  { t with
    subrList := rest
    subrListSize := t.subrListSize - 1
    subrs := Function.update t.subrs s (some { S with state := .none, iQ := none }) }

section Popped

variable {rest : List (ℕ × Option ℕ)} {m : ℕ} {i : TurnIn}

lemma does_requeue (hctl : t.ctl = .dequeuing) (hl : t.subrList = (m, some s) :: rest)
    (hS : t.subrs s = some S) : Does P cf t l ((t.popped rest s S).requeue s) := by
  rw [requeue, subrEnqueue_eq (Function.update_self _ _ _)]
  simp only [popped, Function.update_idem]
  exact .requeued hctl hl hS

lemma does_startOn {p : NconnPool UpsConn} {request : Option ℕ} (hctl : t.ctl = .dequeuing)
    (hl : t.subrList = (m, some s) :: rest) (hS : t.subrs s = some S) (hp : Gotten t S c p)
    (he : { t.popped rest s S with nconnProxyPool := p }.startOn P s S c request = some t') :
    Does P cf t l t' := by
  obtain ⟨n, hn, hline, rfl⟩ := startOn_eq_some (Function.update_self _ _ _) he
  simp only [popped, Function.update_idem]
  exact .started hctl hl hS hp hn hline rfl

lemma does_startNew {request : Option ℕ} (hctl : t.ctl = .dequeuing)
    (hl : t.subrList = (m, some s) :: rest) (hS : t.subrs s = some S)
    (he : (t.popped rest s S).startNew P s S request = some t') : Does P cf t l t' := by
  obtain ⟨⟨p, o⟩, hget, he⟩ := Option.bind_eq_some_iff.mp he
  cases o with
  | none =>
      obtain rfl := Option.some.inj he
      exact does_requeue hctl hl hS
  | some c => exact does_startOn hctl hl hS (.new hget) he

/-- A subrequest that is not started. -/
lemma does_unstarted {state : SubrState} {job : Option ℕ} {js : List (ℕ × ℕ)}
    {ks : List (ℕ × Call σ)} {k : ℕ} (hctl : t.ctl = .dequeuing)
    (hl : t.subrList = (m, some s) :: rest) (hS : t.subrs s = some S)
    (hwhy : Unstarted cf l s S t.next state job js ks k)
    (ht : t' = { t.popped rest s S with
      subrs := Function.update t.subrs s
        (some { S with state := state, iQ := none, lookupJob := job })
      jobs := t.jobs ++ js
      calls := t.calls ++ ks
      next := t.next + k }) : Does P cf t l t' := by
  subst ht
  exact .unstarted hctl hl hS hwhy

lemma does_lookupAsync (hlab : l = .turn i) (hctl : t.ctl = .dequeuing)
    (hl : t.subrList = (m, some s) :: rest) (hS : t.subrs s = some S)
    (he : (t.popped rest s S).lookupAsync s S i.lookup = some t') : Does P cf t l t' := by
  have hself : (t.popped rest s S).subrs s = some { S with state := .none, iQ := none } :=
    Function.update_self _ _ _
  unfold lookupAsync at he
  split at he
  · split_ifs at he with hh
    · obtain rfl := Option.some.inj he
      refine does_unstarted hctl hl hS (.noHost hh) ?_
      rw [modifySubr_eq hself]
      simp [popped]
    · obtain rfl := Option.some.inj he
      refine does_unstarted hctl hl hS (.queued hh) ?_
      rw [modifySubr_eq (by exact hself)]
      simp [popped]
  · split_ifs at he with hh
    obtain rfl := Option.some.inj he
    refine does_unstarted hctl hl hS (.failed hh) ?_
    rw [call_eq, modifySubr_eq (by exact hself)]
    simp [popped]
  · rename_i jobLeft hlook
    split_ifs at he with hh
    · obtain rfl := Option.some.inj he
      refine does_unstarted hctl hl hS (.errorLeft hlab hlook hh.2) ?_
      simp [popped]
    · obtain rfl := Option.some.inj he
      refine does_unstarted hctl hl hS (.error hlab hlook) ?_
      simp [popped]
  · exact absurd he (by simp)

lemma does_startFresh (hlab : l = .turn i) (hctl : t.ctl = .dequeuing)
    (hl : t.subrList = (m, some s) :: rest) (hS : t.subrs s = some S)
    (he : (t.popped rest s S).startFresh P cf s S i = some t') : Does P cf t l t' := by
  unfold startFresh at he
  split_ifs at he with hfull hres hfast hsync
  · obtain rfl := Option.some.inj he
    exact does_requeue hctl hl hS
  · obtain rfl := Option.some.inj he
    refine does_unstarted hctl hl hS (.noResolver hres) ?_
    simp [popped]
  · exact does_startNew hctl hl hS he
  · split at he
    · exact does_startNew hctl hl hS he
    · obtain rfl := Option.some.inj he
      refine does_unstarted hctl hl hS .syncFailed ?_
      rw [call_eq]
      simp [popped]
    · exact absurd he (by simp)
  · exact does_lookupAsync hlab hctl hl hS he

lemma does_turn (hlab : l = .turn i) (hctl : t.ctl = .dequeuing) (he : t.turn P cf i = some t') :
    Does P cf t l t' := by
  unfold turn at he
  split_ifs at he with hstop
  · obtain rfl := Option.some.inj he
    exact .paused (.inr hctl) (.inl rfl)
  · split at he
    case h_1 => exact absurd he (by simp)
    case h_2 m rest hl =>
      obtain rfl := Option.some.inj he
      exact .dropped hctl hl
    case h_3 m s rest hl =>
      obtain ⟨S, hS, he⟩ := Option.bind_eq_some_iff.mp he
      rw [modifySubr_eq (by exact hS)] at he
      obtain ⟨⟨p, o⟩, hget, he⟩ := Option.bind_eq_some_iff.mp he
      cases o with
      | none => exact does_startFresh hlab hctl hl hS he
      | some c => exact does_startOn hctl hl hS (.idle hget) he

end Popped

section Running

variable {f : Frame} {n n' : UpsConn} {ups : ℕ → Option (UpsSession σ)} {status : HttpStatus}

/-- A pass in which the connection is, or gets, further than `FREE`. -/
lemma passes_of_ne {more : Bool} (hb : more = false → f.Parks n → f.ups ≠ none)
    (hmode : f.mode = .read ∨ f.mode = .write) (hst : n'.state ≠ .free) : Passes l f n n' more where
  parks := hb
  mode := by rcases hmode with h | h <;> simp [h]
  timeout := fun h => by rcases hmode with h' | h' <;> exact absurd (h.symm.trans h') (by simp)
  free := fun h => absurd h hst

/-- A pass for a timer. -/
lemma passes_of_timeout (hmode : f.mode = .timeout) (h : n.state = .free ∨ f.ups = none) :
    Passes l f n n false where
  parks := fun _ hp => absurd (hmode.symm.trans hp.mode) (by simp)
  mode := by simp [hmode]
  timeout := fun _ => ⟨rfl, h⟩
  free := fun _ => .inl hmode

/-- The pass goes on to the next. -/
lemma does_more (hctl : t.ctl = .running f) (hn : t.conn f.nconn = some n) (hm : ConnMove l n n')
    (hups : Touched f n t.upsSessions ups) (hpass : Passes l f n n' true) :
    Does P cf t l { t.modifyConn f.nconn fun _ => n' with upsSessions := ups } := by
  have hd : Does P cf t l { t.modifyConn f.nconn fun _ => n' with
      upsSessions := ups
      subrs := if true || !true then t.subrs else f.activate t.subrs
      ctl := if true then .running f else f.back } := .ran hctl hn hm hups hpass
  simp only [Bool.true_or, if_true, ← hctl] at hd
  exact hd

/-- `run_state_machine` returns. -/
lemma does_back (hctl : t.ctl = .running f) (hn : t.conn f.nconn = some n) (hm : ConnMove l n n')
    (hups : Touched f n t.upsSessions ups) (hpass : Passes l f n n' false) (ok : Bool) :
    Does P cf t l ({ t.modifyConn f.nconn fun _ => n' with upsSessions := ups }.finish f ok) := by
  have hd : Does P cf t l { t.modifyConn f.nconn fun _ => n' with
      upsSessions := ups
      subrs := if false || !ok then t.subrs else f.activate t.subrs
      ctl := if false then .running f else f.back } := .ran hctl hn hm hups hpass
  cases ok with
  | false =>
      rw [finish_false]
      exact hd
  | true =>
      rw [finish_true]
      exact hd

lemma does_stay (hctl : t.ctl = .running f) (hn : t.conn f.nconn = some n)
    (hups : Touched f n t.upsSessions ups) (hpass : Passes l f n n true) :
    Does P cf t l { t with upsSessions := ups } := by
  have hd : Does P cf t l { t.modifyConn f.nconn fun _ => n with upsSessions := ups } :=
    does_more hctl hn .same hups hpass
  rw [modifyConn_self hn] at hd
  exact hd

lemma does_return (hctl : t.ctl = .running f) (hn : t.conn f.nconn = some n)
    (hups : Touched f n t.upsSessions ups) (hpass : Passes l f n n false) (ok : Bool) :
    Does P cf t l ({ t with upsSessions := ups }.finish f ok) := by
  have hd : Does P cf t l
      ({ t.modifyConn f.nconn fun _ => n with upsSessions := ups }.finish f ok) :=
    does_back hctl hn .same hups hpass ok
  rw [modifyConn_self hn] at hd
  exact hd

/-- The session of the frame gives up the connection.  `V` and `S₁` are the session and the
subrequest when `teardown` is called. -/
lemma does_torn {t₁ : TSrvr σ} (V : UpsSession σ) (S₁ : Subr) (timers : List (ℕ × ℕ))
    (ks : List (ℕ × Call σ)) (es : List (ℕ × σ)) (hctl : t.ctl = .running f) (hu : f.ups = some u)
    (hU : t.upsSessions u = some U) (hS : t.subrs U.subr = some S) (hV : V.subr = U.subr)
    (htime : (timers.filter fun p => some p.1 ≠ V.evrTimeout) =
      t.timers.filter fun p => some p.1 ≠ U.evrTimeout)
    (hS₁ : Idle S { S₁ with state := .none })
    (ht₁ : t₁ = { t with
      upsSessions := Function.update t.upsSessions u (some V)
      subrs := Function.update t.subrs U.subr (some S₁)
      timers := timers
      calls := t.calls ++ ks
      eofs := t.eofs ++ es })
    (hwhy : Torn P t l U S
      (ks ++ if status = .ok then [] else called U.subr S.conf.errorCb (.error status)) es)
    (he : t₁.teardownDone f status = some t') : Does P cf t l t' := by
  obtain ⟨t₂, ht₂, rfl⟩ := Option.map_eq_some_iff.mp he
  rw [hu] at ht₂
  obtain ⟨W, S₂, p, U', S', hW, hS₂, hp, hbare, hidle, rfl⟩ := teardown_eq_some ht₂
  subst ht₁
  simp only [Function.update_self] at hW
  obtain rfl := Option.some.inj hW
  simp only [hV, Function.update_self] at hS₂
  obtain rfl := Option.some.inj hS₂
  rw [hV]
  have hbare' : Bare U U' := ⟨hbare.subr.trans hV, hbare.nconn, hbare.evrTimeout⟩
  have hidle' : Idle S S' :=
    ⟨hidle.conf.trans hS₁.conf, hidle.state, hidle.lookupJob.trans hS₁.lookupJob,
      hidle.upsSession.trans hS₁.upsSession, fun hd => hidle.upsDone (hS₁.upsDone hd)⟩
  have hconf : S₁.conf = S.conf := hS₁.conf
  have hd : Does P cf t l _ := .tore hctl hu hU hS hp hbare' hidle' hwhy
  rw [finish_false]
  simp only [tornState, Function.update_idem, htime, hconf, List.append_nil,
    ← List.append_assoc] at hd ⊢
  exact hd

/-- `teardown` as the first thing that a pass does. -/
lemma does_teardownDone (hctl : t.ctl = .running f) (hst : status ≠ .ok)
    (he : t.teardownDone f status = some t') : Does P cf t l t' := by
  cases hu : f.ups with
  | none =>
      obtain ⟨t₂, ht₂, rfl⟩ := Option.map_eq_some_iff.mp he
      rw [hu] at ht₂
      obtain ⟨p, hp, rfl⟩ := release_eq_some ht₂
      rw [finish_false]
      exact .released hctl hu hp
  | some u =>
      obtain ⟨t₂, ht₂, -⟩ := Option.map_eq_some_iff.mp he
      rw [hu] at ht₂
      obtain ⟨U, S, -, -, -, hU, hS, -⟩ := teardown_eq_some ht₂
      refine does_torn U S t.timers [] [] hctl hu hU hS rfl rfl ⟨rfl, rfl, rfl, rfl, id⟩ ?_ ?_ he
      · rw [← hU, ← hS, Function.update_eq_self, Function.update_eq_self, List.append_nil,
          List.append_nil]
      · rw [if_neg hst, List.nil_append]
        exact .failed status

/-- What a pass did to its connection before `teardown` does not matter. -/
lemma teardownDone_modifyConn {g : UpsConn → UpsConn}
    (hg : ∀ n, t.conn f.nconn = some n → (g n).ncCleanup = n.ncCleanup) :
    (t.modifyConn f.nconn g).teardownDone f status = t.teardownDone f status := by
  have hrel : ∀ t₁ : TSrvr σ, t₁.nconnProxyPool = t.nconnProxyPool →
      (t₁.modifyConn f.nconn g).release f.nconn = t₁.release f.nconn := by
    intro t₁ hp
    refine release_modifyConn fun n hn => hg n ?_
    rw [conn, ← hp]
    exact hn
  unfold teardownDone teardown
  congr 1
  cases f.ups with
  | none => exact hrel t rfl
  | some u =>
      refine Option.bind_congr fun U hU => Option.bind_congr fun S hS => ?_
      simp only
      generalize hX : (if status = HttpStatus.ok then _ else _ : TSrvr σ) = X
      generalize hY : (if status = HttpStatus.ok then _ else _ : TSrvr σ) = Y
      have hYX : X = Y.modifyConn f.nconn g ∧ Y.nconnProxyPool = t.nconnProxyPool := by
        rw [← hX, ← hY]
        by_cases hok : status = .ok
        · simp only [if_pos hok]
          exact ⟨rfl, rfl⟩
        · simp only [if_neg hok, call_eq]
          exact ⟨rfl, rfl⟩
      obtain ⟨rfl, hpool⟩ := hYX
      have htimer : (Y.modifyConn f.nconn g).cancelEvrTimer u U =
          (Y.cancelEvrTimer u U).modifyConn f.nconn g ∧
          (Y.cancelEvrTimer u U).nconnProxyPool = Y.nconnProxyPool := by
        unfold cancelEvrTimer
        split <;> exact ⟨rfl, rfl⟩
      rw [htimer.1, hrel _ (htimer.2.trans hpool)]

lemma does_passAgain (hctl : t.ctl = .running f) (hn : t.conn f.nconn = some n)
    (hm : ConnMove l n n') (hmode : f.mode = .read ∨ f.mode = .write) (hst : n'.state = .connected)
    (he : (t.modifyConn f.nconn fun _ => n').passAgain f = some t') : Does P cf t l t' := by
  unfold passAgain at he
  split_ifs at he with hidle
  · obtain ⟨⟨p, ok⟩, hp, rfl⟩ := Option.map_eq_some_iff.mp he
    rw [modifyConn_modifyConn] at hp
    have hd : Does P cf t l _ := .parked hctl hidle hn hm hp
    cases ok with
    | false =>
        simp only [finish_false]
        exact hd
    | true =>
        simp only [finish_true]
        exact hd
  · obtain rfl := Option.some.inj he
    exact does_back hctl hn hm .same
      (passes_of_ne (fun _ h => absurd h.idle hidle) hmode (by simp [hst])) true

lemma does_eof (hlab : l = .pass (.read .eof)) (hctl : t.ctl = .running f)
    (he : t.passRead P cf f .eof = some t') : Does P cf t l t' := by
  have hclear : ∀ n : UpsConn, ({ n with data := none } : UpsConn).ncCleanup = n.ncCleanup :=
    fun _ => rfl
  simp only [passRead] at he
  split at he
  case h_1 hu =>
    rw [teardownDone_modifyConn fun n _ => hclear n] at he
    obtain ⟨t₂, ht₂, rfl⟩ := Option.map_eq_some_iff.mp he
    rw [hu] at ht₂
    obtain ⟨p, hp, rfl⟩ := release_eq_some ht₂
    rw [finish_false]
    exact .released hctl hu hp
  case h_2 u hu =>
    obtain ⟨U, hU, he⟩ := Option.bind_eq_some_iff.mp he
    obtain ⟨S, hS, he⟩ := Option.bind_eq_some_iff.mp he
    rw [teardownDone_modifyConn fun n _ => hclear n] at he
    unfold eof at he
    split at he
    case h_1 hresp =>
      refine does_torn U S t.timers [] [] hctl hu hU hS rfl rfl ⟨rfl, rfl, rfl, rfl, id⟩ ?_
        (.eofLate hlab hresp) he
      rw [← hU, ← hS, Function.update_eq_self, Function.update_eq_self, List.append_nil,
        List.append_nil]
    case h_2 p hresp =>
      have hself : Function.update t.subrs U.subr (some S) = t.subrs := by
        rw [← hS, Function.update_eq_self]
      rw [call_eq, modifyUps_eq (by exact hU)] at he
      refine does_torn (if S.conf.detachResp then { U with resp := none } else U) S t.timers
        (called U.subr S.conf.completionCb (.completion p)) [(U.subr, p)] hctl hu hU hS ?_ ?_
        ⟨rfl, rfl, rfl, rfl, id⟩ (by rw [hself]) ?_ he
      · split_ifs <;> rfl
      · split_ifs <;> rfl
      · rw [if_pos rfl, List.append_nil]
        exact .eof hlab hresp

lemma does_complete {V : UpsSession σ} {S₁ : Subr} {q : σ} (hctl : t.ctl = .running f)
    (hread : f.mode = .read) (hn : t.conn f.nconn = some n) (hst : n.state = .connected)
    (hu : f.ups = some u) (hU : t.upsSessions u = some U) (hS : t.subrs U.subr = some S)
    (hV : V.subr = U.subr) (htime : V.evrTimeout = U.evrTimeout)
    (hS₁ : Idle S { S₁ with state := .none }) (hq : P.complete q = true)
    (he : { t with
      upsSessions := Function.update t.upsSessions u (some V)
      subrs := Function.update t.subrs U.subr (some S₁) }.complete P cf f u U S q = some t') :
    Does P cf t l t' := by
  unfold complete at he
  rw [cancelEvrTimer_eq (Function.update_self _ _ _) htime, call_eq,
    modifyUps_eq (Function.update_self _ _ _), modifySubr_eq (Function.update_self _ _ _)] at he
  simp only [Function.update_idem] at he
  generalize hW : (if V.detachResp = true then _ else _ : UpsSession σ) = W at he
  have hsub : W.subr = U.subr ∧ W.evrTimeout = none := by
    rw [← hW]
    split_ifs <;> exact ⟨hV, rfl⟩
  split_ifs at he with hreuse
  · obtain rfl := Option.some.inj he
    have hbare : Bare U { W with outQ := none, resp := none, nconn := none } :=
      ⟨hsub.1, rfl, hsub.2⟩
    have hd : Does P cf t l _ := .idled hctl hread hn hst hu hU hS hbare hS₁ hq
    rw [modifyUps_eq (Function.update_self _ _ _)]
    simp only [tornState, Function.update_idem, List.append_nil] at hd ⊢
    exact hd
  · refine does_torn W { S₁ with state := .none }
      (t.timers.filter fun p => some p.1 ≠ U.evrTimeout)
      (called U.subr S.conf.completionCb (.completion q)) [] hctl hu hU hS hsub.1 ?_ hS₁ ?_ ?_ he
    · rw [hsub.2]
      simp
    · simp only [List.append_nil]
    · rw [if_pos rfl, List.append_nil]
      exact .complete hq

lemma does_readData {bytes : List UInt8} {upsReadOk : Bool} (hctl : t.ctl = .running f)
    (hread : f.mode = .read) (hn : t.conn f.nconn = some n) (hst : n.state = .connected)
    (he : t.readData P cf f bytes upsReadOk = some t') : Does P cf t l t' := by
  have hpass : Passes l f n n true :=
    passes_of_ne (fun h => absurd h (by simp)) (.inl hread) (by simp [hst])
  unfold readData at he
  split at he
  case h_1 hu =>
    obtain rfl := Option.some.inj he
    exact does_stay hctl hn .same hpass
  case h_2 u hu =>
    obtain ⟨U, hU, he⟩ := Option.bind_eq_some_iff.mp he
    obtain ⟨S, hS, he⟩ := Option.bind_eq_some_iff.mp he
    split at he
    case h_1 hresp =>
      split_ifs at he
      · exact does_teardownDone hctl (by simp) he
      · obtain rfl := Option.some.inj he
        exact does_stay hctl hn .same hpass
    case h_2 q hresp =>
      generalize P.execute q bytes = r at he
      obtain ⟨q', parsed⟩ := r
      have hself : Function.update t.subrs U.subr (some S) = t.subrs := by
        rw [← hS, Function.update_eq_self]
      simp only [modifyUps_eq hU] at he
      generalize hV : ({ U with resp := some q' } : UpsSession σ) = V at he
      obtain ⟨hsub, hnc, htime, hresp'⟩ : V.subr = U.subr ∧ V.nconn = U.nconn ∧
          V.evrTimeout = U.evrTimeout ∧ V.resp.isSome := by
        subst hV
        exact ⟨rfl, rfl, rfl, rfl⟩
      by_cases hparse : parsed < bytes.length
      · rw [if_pos hparse] at he
        refine does_torn V S t.timers [] [] hctl hu hU hS hsub (by rw [htime])
          ⟨rfl, rfl, rfl, rfl, id⟩ ?_ (.failed .badGateway) he
        rw [hself, List.append_nil, List.append_nil]
      rw [if_neg hparse] at he
      -- the client's upstream object is done with the last byte of the response
      obtain ⟨S₁, hS₁, hS₁', hstate⟩ : ∃ S₁, Idle S { S₁ with state := .none } ∧
          (P.complete q' = false → S₁ = S) ∧
          (if (S.conf.u.isSome && P.complete q') = true then
            TSrvr.modifySubr { t with upsSessions := Function.update t.upsSessions u (some V) }
              U.subr fun S => { S with upsDone := true }
            else { t with upsSessions := Function.update t.upsSessions u (some V) }) =
          { t with
            upsSessions := Function.update t.upsSessions u (some V)
            subrs := Function.update t.subrs U.subr (some S₁) } := by
        by_cases hdone : (S.conf.u.isSome && P.complete q') = true
        · refine ⟨{ S with upsDone := true }, ⟨rfl, rfl, rfl, rfl, fun _ => rfl⟩, fun hc => ?_, ?_⟩
          · simp [hc] at hdone
          · rw [if_pos hdone, modifySubr_eq (by exact hS)]
        · refine ⟨S, ⟨rfl, rfl, rfl, rfl, id⟩, fun _ => rfl, ?_⟩
          rw [if_neg hdone, hself]
      simp only [hstate] at he
      split_ifs at he with hfail hcomp
      · refine does_torn V S₁ t.timers [] [] hctl hu hU hS hsub (by rw [htime]) hS₁ ?_
          (.failed .badGateway) he
        rw [List.append_nil, List.append_nil]
      · exact does_complete hctl hread hn hst hu hU hS hsub htime hS₁ hcomp he
      · obtain rfl := Option.some.inj he
        rw [hS₁' (by simpa using hcomp), hself]
        exact does_stay hctl hn (.one hu hst hU hsub hnc htime fun _ => hresp') hpass

lemma does_passRead {i : ReadIn} (hlab : l = .pass (.read i)) (hctl : t.ctl = .running f)
    (hread : f.mode = .read) (hn : t.conn f.nconn = some n) (hst : n.state = .connected)
    (he : t.passRead P cf f i = some t') : Does P cf t l t' := by
  cases i with
  | eof => exact does_eof hlab hctl he
  | data bytes upsReadOk =>
      simp only [passRead] at he
      split_ifs at he
      exact does_readData hctl hread hn hst he
  | again =>
      simp only [passRead] at he
      rw [← modifyConn_self hn] at he
      exact does_passAgain hctl hn .same (.inl hread) hst he
  | error => exact does_teardownDone hctl (by simp) he
  | readUnavailable =>
      simp only [passRead] at he
      split at he
      case h_1 =>
        obtain rfl := Option.some.inj he
        exact does_stay hctl hn .same
          (passes_of_ne (fun h => absurd h (by simp)) (.inl hread) (by simp [hst]))
      case h_2 u hu =>
        obtain rfl := Option.some.inj he
        have hpass : Passes l f n n false :=
          passes_of_ne (fun _ _ => by simp [hu]) (.inl hread) (by simp [hst])
        cases hU : t.upsSessions u with
        | none =>
            have hself : t.modifyUps u (fun U => { U with again := true }) = t := by
              rw [modifyUps, hU, Option.map_none, ← hU, Function.update_eq_self]
            rw [hself]
            exact does_return hctl hn .same hpass true
        | some U =>
            rw [modifyUps_eq hU]
            refine does_return hctl hn (.one hu hst hU ?_ ?_ ?_ ?_) hpass true
            · rfl
            · rfl
            · rfl
            · exact id

lemma does_passWrite {i : UpsConn.Send} (hlab : l = .pass (.write i)) (hctl : t.ctl = .running f)
    (hwrite : f.mode = .write) (hn : t.conn f.nconn = some n) (hst : n.state = .connected)
    (he : t.passWrite f n i = some t') : Does P cf t l t' := by
  have hst' : (n.ncwrite i).1.state = .connected := (UpsConn.keeps_ncwrite n i).state.trans hst
  have hpass : ∀ {n' : UpsConn} {more : Bool}, n'.state = .connected → Passes l f n n' more :=
    fun h => passes_of_ne (fun _ hp => absurd (hwrite.symm.trans hp.mode) (by simp)) (.inr hwrite)
      (by simp [h])
  unfold passWrite at he
  split at he
  case h_1 =>
    obtain rfl := Option.some.inj he
    exact does_return hctl hn .same (hpass hst) true
  case h_2 u hu =>
    obtain ⟨U, hU, he⟩ := Option.bind_eq_some_iff.mp he
    split at he
    case h_1 =>
      obtain rfl := Option.some.inj he
      exact does_return hctl hn .same (hpass hst) true
    case h_2 =>
      obtain rfl := Option.some.inj he
      exact does_return hctl hn .same (hpass hst) true
    case h_3 left hout hleft =>
      simp only at he
      split at he
      case h_1 k hw =>
        obtain rfl := Option.some.inj he
        have htouch : Touched f n t.upsSessions (Function.update t.upsSessions u
            (some { U with outQ := some (left - k) })) := .one hu hst hU rfl rfl rfl id
        rw [modifyUps_eq (t := t.modifyConn f.nconn _) hU]
        split_ifs
        · exact does_back hctl hn (.wrote hlab) htouch (hpass hst') true
        · exact does_more hctl hn (.wrote hlab) htouch (hpass hst')
      case h_2 hw => exact does_passAgain hctl hn (.wrote hlab) (.inr hwrite) hst' he
      case h_3 st hst hw =>
        have hcl : ∀ m, t.conn f.nconn = some m → (n.ncwrite i).1.ncCleanup = m.ncCleanup := by
          intro m hm
          rw [hn] at hm
          obtain rfl := Option.some.inj hm
          exact (UpsConn.keeps_ncwrite n i).ncCleanup
        rw [teardownDone_modifyConn hcl] at he
        have herr : (n.ncwrite i).2 = .status .error := by
          rcases UpsConn.ncwrite_status hw with rfl | rfl
          · exact absurd rfl hst
          · exact hw
        obtain ⟨t₂, ht₂, -⟩ := Option.map_eq_some_iff.mp (id he)
        rw [hu] at ht₂
        obtain ⟨U₂, S, -, -, -, hU₂, hS, -⟩ := teardown_eq_some ht₂
        rw [hU] at hU₂
        obtain rfl := Option.some.inj hU₂
        refine does_torn U S t.timers [] [] hctl hu hU hS rfl rfl ⟨rfl, rfl, rfl, rfl, id⟩ ?_
          (.writeFailed hlab hctl hn herr) he
        rw [← hU, ← hS, Function.update_eq_self, Function.update_eq_self, List.append_nil,
          List.append_nil]

/-- The socket of a new connection is set up, or could not be. -/
lemma does_setup {j : UpsConn.SetupIn} {m : UpsConn} (hlab : l = .pass (.setup j))
    (hctl : t.ctl = .running f) (hn : t.conn f.nconn = some n)
    (hmode : f.mode = .read ∨ f.mode = .write) (hfree : n.state = .free) :
    (n.ncsetup j = (m, true) →
      Does P cf t l (t.modifyConn f.nconn fun _ => { m with state := .connecting })) ∧
    (n.ncsetup j = (m, false) →
      Does P cf t l ((t.modifyConn f.nconn fun _ => m).finish f false)) := by
  constructor
  · intro hm
    exact does_more hctl hn (.setup hfree hm) .same
      (passes_of_ne (fun h => absurd h (by simp)) hmode (by simp))
  · intro hm
    refine does_back hctl hn (.setupFailed hfree hlab hm) .same ⟨fun _ h => ?_, ?_, ?_, ?_⟩ false
    · exact absurd (hfree.symm.trans h.state) (by simp)
    · rcases hmode with h | h <;> simp [h]
    · rcases hmode with h | h <;> simp [h]
    · exact fun _ => .inr ⟨j, m, hlab, hm⟩

/-- `ncconnect` fails, and the session gives the connection up. -/
lemma does_connect_error {j : UpsConn.ConnectIn} {m : UpsConn} (hctl : t.ctl = .running f)
    (hn : t.conn f.nconn = some n) (hm : n.ncconnect j = (m, .error))
    (he : (t.modifyConn f.nconn fun _ => m).teardownDone f .badGateway = some t') :
    Does P cf t l t' := by
  rw [teardownDone_modifyConn] at he
  · exact does_teardownDone hctl (by simp) he
  · intro n' hn'
    rw [hn] at hn'
    obtain rfl := Option.some.inj hn'
    have hcl := (UpsConn.keeps_ncconnect n j).ncCleanup
    rw [hm] at hcl
    exact hcl

/-- `ncconnect` does not fail: the connection is still connecting, or is connected. -/
lemma does_connect {j : UpsConn.ConnectIn} {m : UpsConn} {st : NcStatus}
    (hctl : t.ctl = .running f) (hn : t.conn f.nconn = some n)
    (hmode : f.mode = .read ∨ f.mode = .write) (hst : n.state = .connecting)
    (hm : n.ncconnect j = (m, st)) (hne : st ≠ .error) :
    (m.isConnecting = true → Does P cf t l ((t.modifyConn f.nconn fun _ => m).finish f true)) ∧
    (m.isConnecting = false →
      Does P cf t l (t.modifyConn f.nconn fun _ => { m with state := .connected })) := by
  have hst' : (n.ncconnect j).2 ≠ .error := by
    rw [hm]
    exact hne
  have hm₁ : (n.ncconnect j).1 = m := by rw [hm]
  constructor
  · intro hc
    have hmove : ConnMove l n m := hm₁ ▸ .connecting hst
    have hkeep := (UpsConn.keeps_ncconnect n j).state
    rw [hm₁] at hkeep
    exact does_back hctl hn hmove .same
      (passes_of_ne (fun _ h => absurd (hst.symm.trans h.state) (by simp)) hmode
        (by simp [hkeep, hst])) true
  · intro hc
    have hmove : ConnMove l n { m with state := .connected } := by
      rw [← hm₁]
      exact .connected hst hst' (by rw [hm₁]; exact hc)
    exact does_more hctl hn hmove .same
      (passes_of_ne (fun h => absurd h (by simp)) hmode (by simp))

lemma does_pass {i : PassIn} (hlab : l = .pass i) (hctl : t.ctl = .running f)
    (he : t.pass P cf f i = some t') : Does P cf t l t' := by
  obtain ⟨n, hn, he⟩ := Option.bind_eq_some_iff.mp he
  split at he
  case h_1 => exact does_teardownDone hctl (by simp) he
  case h_2 hmode hfree _ =>
    obtain rfl := Option.some.inj he
    exact does_return hctl hn .same (passes_of_timeout hmode (.inl hfree)) true
  case h_3 hmode hfree _ =>
    split at he
    case h_1 hu =>
      obtain rfl := Option.some.inj he
      exact does_return hctl hn .same (passes_of_timeout hmode (.inr hu)) false
    case h_2 u hu =>
      split_ifs at he
      · exact does_teardownDone hctl (by simp) he
      · obtain rfl := Option.some.inj he
        rw [finish_true]
        exact .rearmed hctl hmode hu
  case h_4 hmode hfree _ =>
    split at he
    case h_1 m hm =>
      obtain rfl := Option.some.inj he
      exact (does_setup hlab hctl hn (.inl hmode) hfree).1 hm
    case h_2 m hm =>
      obtain rfl := Option.some.inj he
      exact (does_setup hlab hctl hn (.inl hmode) hfree).2 hm
  case h_5 hmode hfree _ =>
    split at he
    case h_1 m hm =>
      obtain rfl := Option.some.inj he
      exact (does_setup hlab hctl hn (.inr hmode) hfree).1 hm
    case h_2 m hm =>
      obtain rfl := Option.some.inj he
      exact (does_setup hlab hctl hn (.inr hmode) hfree).2 hm
  case h_6 hmode hst _ =>
    split at he
    case h_1 m hm => exact does_connect_error hctl hn hm he
    case h_2 m st hne hm =>
      split_ifs at he with hc
      · obtain rfl := Option.some.inj he
        exact (does_connect hctl hn (.inl hmode) hst hm fun h => hne h).1 hc
      · obtain rfl := Option.some.inj he
        exact (does_connect hctl hn (.inl hmode) hst hm fun h => hne h).2 (by simpa using hc)
  case h_7 hmode hst _ =>
    split at he
    case h_1 m hm => exact does_connect_error hctl hn hm he
    case h_2 m st hne hm =>
      split_ifs at he with hc
      · obtain rfl := Option.some.inj he
        exact (does_connect hctl hn (.inr hmode) hst hm fun h => hne h).1 hc
      · obtain rfl := Option.some.inj he
        exact (does_connect hctl hn (.inr hmode) hst hm fun h => hne h).2 (by simpa using hc)
  case h_8 hmode hst _ => exact does_passRead hlab hctl hmode hn hst he
  case h_9 hmode hst _ => exact does_passWrite hlab hctl hmode hn hst he
  case h_10 => exact absurd he (by simp)

end Running

lemma does_evrEventTimeoutCb {e : ℕ} (hctl : t.ctl = .between)
    (he : t.evrEventTimeoutCb e = some t') : Does P cf t l t' := by
  obtain ⟨⟨e', c⟩, hfind, he⟩ := Option.bind_eq_some_iff.mp he
  obtain ⟨n, hn, he⟩ := Option.bind_eq_some_iff.mp he
  have hmem := List.mem_of_find?_eq_some hfind
  obtain rfl : e' = e := by simpa using List.find?_some hfind
  have henter : ∀ t₁ : TSrvr σ, t₁.conn c = some n → t₁.enter c .timeout none = some t' →
      t' = { t₁ with ctl :=
        if n.cancelled then .between else .running ⟨c, .timeout, n.data, false, none⟩ } := by
    intro t₁ hn₁ he₁
    obtain ⟨m, hm, he₁⟩ := Option.bind_eq_some_iff.mp he₁
    obtain rfl : n = m := Option.some.inj (hn₁.symm.trans hm)
    obtain rfl := Option.some.inj he₁
    by_cases hc : n.cancelled = true
    · simp [hc, finish_false, Frame.back]
    · simp [hc]
  have hd : Does P cf t l _ := .fired hctl hmem hn rfl
  cases hdata : n.data with
  | none =>
      simp only [hdata] at he hd
      rw [henter { t with timers := t.timers.filter (·.1 ≠ e') } hn he, hdata]
      exact hd
  | some u =>
      simp only [hdata] at he hd
      rw [henter ({ t with timers := t.timers.filter (·.1 ≠ e') }.modifyUps u
        fun U => { U with evrTimeout := none }) hn he, hdata]
      exact hd

lemma does_adnsResolvedCb {j : ℕ} {found : Bool} (hctl : t.ctl = .between ∨ t.ctl = .dequeuing)
    (he : t.adnsResolvedCb j found = some t') : Does P cf t l t' := by
  obtain ⟨⟨j', s⟩, hfind, he⟩ := Option.bind_eq_some_iff.mp he
  obtain ⟨S, hS, he⟩ := Option.bind_eq_some_iff.mp he
  have hmem := List.mem_of_find?_eq_some hfind
  obtain rfl : j' = j := by simpa using List.find?_some hfind
  obtain rfl := Option.some.inj he
  rw [modifySubr_eq (by exact hS)]
  split_ifs
  · rw [subrEnqueue_eq (Function.update_self _ _ _)]
    simp only [Function.update_idem]
    exact .resolved hctl hmem hS
  · rw [call_eq]
    exact .unresolved hctl hmem hS

/-- `subr::cancel`, of a subrequest whose upstream object may just have been marked done. -/
lemma does_cancel {S₁ : Subr} {ctl : Ctl} (hlab : l = .cancel s ∨ l = .sessionTeardown s)
    (hctl : t.ctl = .between) (hS : t.subrs s = some S) (hst : S₁.state = S.state)
    (hhow : Cancelled s S { S₁ with state := .none } ctl) (hsame : ctl = .between → S₁ = S)
    (he : { t with subrs := Function.update t.subrs s (some S₁) }.cancel s S = some t') :
    Does P cf t l { t' with ctl := ctl } := by
  unfold cancel at he
  split at he
  case h_1 hnone =>
    obtain rfl := Option.some.inj he
    have hS₁ : { S₁ with state := .none } = S₁ := by rw [← hnone, ← hst]
    rw [hS₁] at hhow
    exact .cancelledNone hctl hS hnone hhow hsame
  case h_2 hq =>
    obtain rfl := Option.some.inj he
    rw [modifySubr_eq (Function.update_self _ _ _), call_eq]
    simp only [Function.update_idem]
    exact .cancelledQueued hctl hS hq hhow
  case h_3 hdns =>
    obtain rfl := Option.some.inj he
    rw [call_eq, modifySubr_eq (Function.update_self _ _ _)]
    simp only [Function.update_idem]
    exact .cancelledLookup hlab hctl hS hdns hhow
  case h_4 hact =>
    split at he
    case h_1 hups =>
      obtain rfl := Option.some.inj he
      rw [call_eq, modifySubr_eq (Function.update_self _ _ _)]
      simp only [Function.update_idem]
      exact .cancelledLoose hctl hS hact hups hhow
    case h_2 u hups =>
      obtain ⟨U, hU, he⟩ := Option.bind_eq_some_iff.mp he
      obtain ⟨c, hc, he⟩ := Option.bind_eq_some_iff.mp he
      obtain ⟨t₂, ht₂, rfl⟩ := Option.map_eq_some_iff.mp he
      obtain ⟨U₂, S₂, p, U', S', hU₂, hS₂, hp, hbare, hidle, rfl⟩ := teardown_eq_some ht₂
      obtain rfl : U = U₂ := Option.some.inj (hU.symm.trans hU₂)
      refine .cancelledActive hctl hS hact hups hU hc hp hbare hhow.ctl ?_ fun hs => ?_
      · have h₁ : Kins t.subrs (Function.update t.subrs s (some S₁)) := by
          refine kins_update hS ⟨hhow.idle.conf, hhow.idle.upsSession, .inl hhow.idle.lookupJob⟩
        have h₂ : Kins (Function.update t.subrs s (some S₁))
            (Function.update (Function.update t.subrs s (some S₁)) U.subr (some S')) :=
          kins_update hS₂ hidle.kin
        exact (h₁.trans h₂).trans (kins_map _ s fun _ => ⟨rfl, rfl, .inl rfl⟩)
      simp only [hs, Function.update_self] at hS₂
      obtain rfl := Option.some.inj hS₂
      refine ⟨{ S' with state := .none }, ⟨⟨?_, rfl, ?_, ?_, ?_⟩, hhow.ctl⟩, ?_, ?_⟩
      · exact hidle.conf.trans hhow.idle.conf
      · exact hidle.lookupJob.trans hhow.idle.lookupJob
      · exact hidle.upsSession.trans hhow.idle.upsSession
      · exact fun hd => hidle.upsDone (hhow.idle.upsDone hd)
      · simp only [modifySubr, tornState, hs, Function.update_idem, Function.update_self,
          Option.map_some]
      · have hconf : S₁.conf = S.conf := hhow.idle.conf
        simp only [hs, hconf]
        rfl

lemma cancel_ctl (he : t.cancel s S = some t') : t'.ctl = t.ctl := by
  unfold cancel at he
  split at he
  · obtain rfl := Option.some.inj he
    rfl
  · obtain rfl := Option.some.inj he
    rw [call_eq]
    rfl
  · obtain rfl := Option.some.inj he
    rw [call_eq]
    rfl
  · split at he
    · obtain rfl := Option.some.inj he
      rw [call_eq]
      rfl
    · obtain ⟨U, hU, he⟩ := Option.bind_eq_some_iff.mp he
      obtain ⟨c, hc, he⟩ := Option.bind_eq_some_iff.mp he
      obtain ⟨t₂, ht₂, rfl⟩ := Option.map_eq_some_iff.mp he
      obtain ⟨U₂, S₂, p, U', S', -, -, -, -, -, rfl⟩ := teardown_eq_some ht₂
      rfl

lemma does_deleteSubr (hctl : t.ctl = .deleting s) (he : t.deleteSubr s = some t') :
    Does P cf t l t' := by
  obtain ⟨S, hS, he⟩ := Option.bind_eq_some_iff.mp he
  simp only at he
  split at he
  case h_1 hups =>
    obtain rfl := Option.some.inj he
    exact .deleted hctl hS hups
  case h_2 u hups =>
    obtain ⟨U, hU, he⟩ := Option.bind_eq_some_iff.mp he
    have hd : ∀ p, _ → Does P cf t l _ := fun p hp => .deletedUps (p := p) hctl hS hups hU hp
    unfold deleteUps at he
    rw [cancelEvrTimer_eq (by exact hU) rfl] at he
    simp only at he
    split at he
    case h_1 hnone =>
      obtain rfl := Option.some.inj he
      exact hd _ ⟨fun c hc => absurd (hnone.symm.trans hc) (by simp), fun _ => rfl⟩
    case h_2 c hsome =>
      obtain ⟨p, hp, rfl⟩ := release_eq_some he
      refine hd p ⟨fun c' hc' => ?_, fun hnone => absurd (hsome.symm.trans hnone) (by simp)⟩
      obtain rfl := Option.some.inj (hsome.symm.trans hc')
      exact hp

lemma does_sessionTeardown (hlab : l = .sessionTeardown s) (hctl : t.ctl = .between)
    (he : t.sessionTeardown s = some t') : Does P cf t l t' := by
  obtain ⟨S, hS, he⟩ := Option.bind_eq_some_iff.mp he
  split_ifs at he with hu hdone
  · obtain rfl := Option.some.inj he
    exact .left hctl hS hdone
  · obtain ⟨t₂, ht₂, rfl⟩ := Option.map_eq_some_iff.mp he
    rw [modifySubr_eq hS] at ht₂
    refine does_cancel (.inr hlab) hctl hS ?_ ⟨⟨?_, rfl, ?_, ?_, ?_⟩, .inr rfl⟩ ?_ ht₂
    all_goals first | rfl | simp

/-- **Every step of a server thread does one of these things.** -/
theorem does_of_step (he : t.step P cf l = some t') : Does P cf t l t' := by
  unfold step at he
  split at he
  case h_1 conf hctl =>
    obtain rfl := Option.some.inj he
    have hd : Does P cf t (.enqueue conf) _ := .enqueued rfl hctl
    rw [enqueue, subrEnqueue_eq (Function.update_self _ _ _)]
    simp only [Function.update_idem]
    exact hd
  case h_2 hctl =>
    obtain rfl := Option.some.inj he
    exact .paused (.inl hctl) (.inr rfl)
  case h_3 i hctl => exact does_turn rfl hctl he
  case h_4 c mode hctl =>
    split_ifs at he with hm
    exact does_enter hctl (not_or.mp hm).2 he
  case h_5 e hctl => exact does_evrEventTimeoutCb hctl he
  case h_6 f i hctl => exact does_pass rfl hctl he
  case h_7 j found hctl => exact does_adnsResolvedCb (.inl hctl) he
  case h_8 j found hctl => exact does_adnsResolvedCb (.inr hctl) he
  case h_9 j hctl =>
    obtain rfl := Option.some.inj he
    exact .lost rfl (.inl hctl)
  case h_10 j hctl =>
    obtain rfl := Option.some.inj he
    exact .lost rfl (.inr hctl)
  case h_11 s hctl =>
    obtain ⟨S, hS, he⟩ := Option.bind_eq_some_iff.mp he
    have hself : { t with subrs := Function.update t.subrs s (some S) } = t := by
      rw [← hS, Function.update_eq_self]
    rw [← hself] at he
    have hd : Does P cf t (.cancel s) { t' with ctl := .between } :=
      does_cancel (.inl rfl) hctl hS rfl ⟨⟨rfl, rfl, rfl, rfl, id⟩, .inl rfl⟩ (fun _ => rfl) he
    have hctl' : t'.ctl = .between := by
      rw [hself] at he
      exact (cancel_ctl he).trans hctl
    rw [← hctl'] at hd
    exact hd
  case h_12 s hctl => exact does_sessionTeardown rfl hctl he
  case h_13 s hctl => exact does_deleteSubr hctl he
  case h_14 hctl =>
    obtain ⟨p, hp, rfl⟩ := Option.map_eq_some_iff.mp he
    exact .reaped hctl hp
  case h_15 => exact absurd he (by simp)

end TSrvr

end Is2
