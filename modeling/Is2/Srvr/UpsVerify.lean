import Is2.Srvr.UpsConns

/-!
# TLS verification when a connection is used again

What OpenSSL verifies is fixed when a connection is set up (`SSL_set_verify`) and when its handshake
ends (the check of the host name).  `subr_start` sets the options of a new connection; an idle one
is found by its label, whatever options it was opened with.

`Opened` says of every connection that it was set up under the options of a subrequest with its
label.  Then a connection that a subrequest is on was verified as the subrequest wants if all
subrequests with one label are equally strict (`Compatible`), and not otherwise.
-/

namespace Is2

namespace UpsConn

/-! ## What a TLS connection verified -/

/-- The host name was checked if the options ask for it. -/
def Checked (n : UpsConn) : Prop :=
  n.opts.verify = true → n.opts.verifyNoHostCheck = false →
    n.validated = some (n.opts.hostname, !n.opts.verifyAllowSelfSigned)

/-- A TLS connection was set up under its own options, and checked before it was connected. -/
def Honest (n : UpsConn) : Prop :=
  n.scheme = .tls →
    (n.state ≠ .free → n.sslVerify = n.opts.sslVerify) ∧ (n.state = .connected → n.Checked)

lemma sslVerify_ncsetup {n m : UpsConn} {i : SetupIn} (h : n.ncsetup i = (m, true))
    (hs : n.scheme = .tls) : m.sslVerify = m.opts.sslVerify := by
  unfold ncsetup at h
  rw [hs] at h
  simp only at h
  split at h
  case h_1 m' hm' =>
    split_ifs at h
    · obtain ⟨rfl, -⟩ := Prod.mk.inj h
      rfl
    · exact absurd (Prod.mk.inj h).2 (by simp)
  case h_2 m' hm' => exact absurd (Prod.mk.inj h).2 (by simp)

lemma sslVerify_tlsConnect (n : UpsConn) (ssl : SslConnect) (certOk : Bool) :
    (n.tlsConnect ssl certOk).1.sslVerify = n.sslVerify := by
  unfold tlsConnect tlsValidate
  split
  · rfl
  · rfl
  · rfl
  · split_ifs <;> rfl

lemma sslVerify_tcpConnect (n : UpsConn) (i : TcpConnect) :
    (n.tcpConnect i).1.sslVerify = n.sslVerify := by
  unfold tcpConnect
  split <;> rfl

lemma sslVerify_ncconnect (n : UpsConn) (i : ConnectIn) :
    (n.ncconnect i).1.sslVerify = n.sslVerify := by
  have ht := sslVerify_tcpConnect n i.tcp
  unfold ncconnect
  split
  · split
    · split
      case h_1 m hm =>
        rw [hm] at ht
        exact ht
      case h_2 m st hst hm =>
        rw [hm] at ht
        split_ifs
        · exact ht
        · rw [sslVerify_tlsConnect]
          exact ht
    · unfold tlsValidate
      split_ifs <;> rfl
    · rfl
    · exact sslVerify_tlsConnect n _ _
  · exact ht

lemma checked_tlsValidate {n : UpsConn} {certOk : Bool} (h : (n.tlsValidate certOk).2 ≠ .error) :
    (n.tlsValidate certOk).1.Checked := by
  unfold tlsValidate at h ⊢
  split_ifs at h ⊢ with hask hcert
  · exact fun _ _ => rfl
  · exact absurd rfl h
  · intro hv hno
    exact absurd hask (by simp_all)

lemma checked_tlsConnect {n : UpsConn} {ssl : SslConnect} {certOk : Bool} (hs : n.scheme = .tls)
    (h : (n.tlsConnect ssl certOk).2 ≠ .error)
    (hc : (n.tlsConnect ssl certOk).1.isConnecting = false) :
    (n.tlsConnect ssl certOk).1.Checked := by
  cases ssl with
  | failed => exact absurd rfl h
  | wantRead => exact absurd hc (by simp [tlsConnect, isConnecting, hs])
  | wantWrite => exact absurd hc (by simp [tlsConnect, isConnecting, hs])
  | connected => exact checked_tlsValidate h

/-- A TLS connection is connected only after the check. -/
lemma checked_ncconnect {n : UpsConn} {i : ConnectIn} (hs : n.scheme = .tls)
    (h : (n.ncconnect i).2 ≠ .error) (hc : (n.ncconnect i).1.isConnecting = false) :
    (n.ncconnect i).1.Checked := by
  have hk := keeps_tcpConnect n i.tcp
  have htls : (n.tcpConnect i.tcp).1.tlsState = n.tlsState := by
    unfold tcpConnect
    split <;> rfl
  unfold ncconnect at h hc ⊢
  simp only [hs] at h hc ⊢
  cases hst : n.tlsState with
  | none =>
      simp only [hst] at h
      exact absurd rfl h
  | connecting =>
      simp only [hst] at h hc ⊢
      split at h
      case h_1 m hm => exact absurd rfl h
      case h_2 m st hne hm =>
        rw [hm] at hk htls
        simp only [hm] at hc ⊢
        split_ifs at h hc ⊢ with htcp
        · have hsch : m.scheme = .tls := hk.scheme.trans hs
          have hcon : m.tlsState = .connecting := htls.trans hst
          simp [isConnecting, hsch, hcon] at hc
        · exact checked_tlsConnect (hk.scheme.trans hs) h hc
  | tlsConnecting =>
      simp only [hst] at h hc ⊢
      exact checked_tlsConnect hs h hc
  | tlsConnectingWantRead =>
      simp only [hst] at h hc ⊢
      exact checked_tlsConnect hs h hc
  | tlsConnectingWantWrite =>
      simp only [hst] at h hc ⊢
      exact checked_tlsConnect hs h hc
  | connected =>
      simp only [hst] at h hc ⊢
      exact checked_tlsValidate h

end UpsConn

/-! ## What a subrequest wants verified -/

namespace SubrConf

/-- What `a` wants verified is verified under the options of `b`. -/
structure CoveredBy (a b : SubrConf) : Prop where
  scheme : b.scheme = .tls
  verify : b.tlsVerify = true
  selfOk : b.tlsSelfOk = true → a.tlsSelfOk = true
  host : a.tlsNoHostCheck = false → b.tlsNoHostCheck = false ∧ b.verifyHost = a.verifyHost

/-- Whatever has the label of a subrequest that wants verification is no less strict. -/
def Compatible (A : Set SubrConf) : Prop :=
  ∀ a ∈ A, ∀ b ∈ A, a.tlsVerify = true → a.getLabel = b.getLabel → a.CoveredBy b

/-- The handshake of `n` was completed under what `conf` asks for: the peer was verified, a
self-signed certificate was taken only if `conf` allows it, and the host name was checked against
the one of `conf` unless `conf` waives it. -/
structure VerifiedOn (conf : SubrConf) (n : UpsConn) : Prop where
  scheme : n.scheme = .tls
  peer : n.sslVerify = .peer ∨ n.sslVerify = .peerAllowSelfSigned ∧ conf.tlsSelfOk = true
  host : conf.tlsNoHostCheck = false → ∃ noSelf, n.validated = some (conf.verifyHost, noSelf) ∧
    (noSelf = true ∨ conf.tlsSelfOk = true)

lemma CoveredBy.verifiedOn {a b : SubrConf} {n : UpsConn} (h : a.CoveredBy b)
    (hs : n.scheme = b.scheme) (ho : n.opts = b.tlsOpts) (hn : n.Honest)
    (hst : n.state = .connected) : a.VerifiedOn n := by
  have htls : n.scheme = .tls := hs.trans h.scheme
  obtain ⟨hssl, hcheck⟩ := hn htls
  refine ⟨htls, ?_, fun hno => ?_⟩
  · rw [hssl (by simp [hst]), ho]
    simp only [tlsOpts, TlsOpts.sslVerify, h.verify, if_true]
    split_ifs with hself
    · exact .inr ⟨rfl, h.selfOk hself⟩
    · exact .inl rfl
  · obtain ⟨hbno, hhost⟩ := h.host hno
    have hval := hcheck hst
    rw [UpsConn.Checked, ho] at hval
    refine ⟨!b.tlsSelfOk, (hval h.verify hbno).trans ?_, ?_⟩
    · simp only [tlsOpts, hhost]
    · cases hb : b.tlsSelfOk with
      | false => exact .inl rfl
      | true => exact .inr (h.selfOk hb)

end SubrConf

namespace TSrvr

variable {σ : Type} {P : RespParser σ} {cf : TConf} {t t' : TSrvr σ} {l : Label} {u s c : ℕ}
  {A : Set SubrConf}

/-! ## The options of every connection -/

/-- The connection was opened for a subrequest of `A` with its label. -/
def Opened (A : Set SubrConf) (_ : ℕ) (_ : Prop) (label : String) (n : UpsConn) : Prop :=
  ∃ conf ∈ A, label = conf.getLabel ∧ n.scheme = conf.scheme ∧
    (n.scheme = .tls → n.opts = conf.tlsOpts) ∧ n.Honest

/-- The subrequests are of `A`. -/
def Asked (A : Set SubrConf) (t : TSrvr σ) : Prop := ∀ s S, t.subrs s = some S → S.conf ∈ A

lemma ConnMove.honest {n n' : UpsConn} (hm : ConnMove l n n') (h : n.Honest) : n'.Honest := by
  cases hm with
  | same => exact h
  | @setup i m _ hs =>
      have hk := UpsConn.keeps_ncsetup n i
      rw [hs] at hk
      refine fun htls => ⟨fun _ => ?_, fun hst => absurd hst (by simp)⟩
      have hssl := UpsConn.sslVerify_ncsetup hs (hk.scheme.symm.trans htls)
      exact hssl
  | @setupFailed i _ hst _ hs =>
      have hk := UpsConn.keeps_ncsetup n i
      rw [hs] at hk
      have hfree : n'.state = .free := hk.state.trans hst
      exact fun _ => ⟨fun hne => absurd hfree hne, fun hc => absurd (hfree.symm.trans hc) (by simp)⟩
  | @connecting i hst =>
      have hk := UpsConn.keeps_ncconnect n i
      refine fun htls => ⟨fun _ => ?_, fun hc => ?_⟩
      · rw [UpsConn.sslVerify_ncconnect, hk.opts]
        exact (h (hk.scheme.symm.trans htls)).1 (by simp [hst])
      · exact absurd (hst.symm.trans (hk.state.symm.trans hc)) (by simp)
  | @connected i hst hok hdone =>
      have hk := UpsConn.keeps_ncconnect n i
      refine fun htls => ⟨fun _ => ?_, fun _ => ?_⟩
      · show (n.ncconnect i).1.sslVerify = (n.ncconnect i).1.opts.sslVerify
        rw [UpsConn.sslVerify_ncconnect, hk.opts]
        exact (h (hk.scheme.symm.trans htls)).1 (by simp [hst])
      · have hc := UpsConn.checked_ncconnect (hk.scheme.symm.trans htls) hok hdone
        exact hc
  | @wrote i _ =>
      have hk := UpsConn.keeps_ncwrite n i
      have hsame : (n.ncwrite i).1.sslVerify = n.sslVerify ∧
          (n.ncwrite i).1.validated = n.validated := by
        unfold UpsConn.ncwrite
        split <;> exact ⟨rfl, rfl⟩
      intro htls
      obtain ⟨hssl, hcheck⟩ := h (hk.scheme.symm.trans htls)
      rw [UpsConn.Checked, hk.state, hk.opts, hsame.1, hsame.2]
      exact ⟨hssl, hcheck⟩

lemma ConnMove.opts {n n' : UpsConn} (hm : ConnMove l n n') :
    n'.scheme = n.scheme ∧ n'.opts = n.opts := by
  cases hm with
  | same => exact ⟨rfl, rfl⟩
  | @setup i _ _ hs =>
      have hk := UpsConn.keeps_ncsetup n i
      rw [hs] at hk
      exact ⟨hk.scheme, hk.opts⟩
  | @setupFailed i _ _ _ hs =>
      have hk := UpsConn.keeps_ncsetup n i
      rw [hs] at hk
      exact ⟨hk.scheme, hk.opts⟩
  | @connecting i _ =>
      have hk := UpsConn.keeps_ncconnect n i
      exact ⟨hk.scheme, hk.opts⟩
  | @connected i _ _ _ =>
      exact ⟨(UpsConn.keeps_ncconnect n i).scheme, (UpsConn.keeps_ncconnect n i).opts⟩
  | @wrote i _ => exact ⟨(UpsConn.keeps_ncwrite n i).scheme, (UpsConn.keeps_ncwrite n i).opts⟩

lemma stable_opened (h : Asked A t) : Stable t l (Opened A) where
  cleanup := by
    rintro _ _ _ n ⟨conf, hconf, hl, hs, ho, -⟩
    exact ⟨conf, hconf, hl, hs, ho, fun _ => ⟨fun hf => absurd rfl hf, fun hc => absurd hc (by
      simp [UpsConn.cls, UpsConn.ncCleanup])⟩⟩
  data := fun _ _ _ _ _ h => h
  move := by
    rintro _ _ _ n n' hm ⟨conf, hconf, hl, hs, ho, hh⟩
    obtain ⟨hs', ho'⟩ := hm.opts
    exact ⟨conf, hconf, hl, hs'.trans hs, fun htls => ho'.trans (ho (hs'.symm.trans htls)),
      hm.honest hh⟩
  new := by
    intro s S hS
    refine ⟨S.conf, h s S hS, rfl, ?_⟩
    unfold UpsConn.setTlsOpts
    split_ifs with htls
    · refine ⟨rfl, fun _ => rfl, fun _ => ⟨fun hf => absurd rfl hf, fun hc => ?_⟩⟩
      exact absurd hc (by simp [UpsConn.new])
    · exact ⟨rfl, fun h => absurd h htls, fun h => absurd h htls⟩

/-! ## The label of a session's connection -/

/-- A connection has the label of the subrequest that it is used for. -/
def Labelled (t : TSrvr σ) : Prop :=
  ∀ u U c m S, t.upsSessions u = some U → U.nconn = some c → t.nconnProxyPool.nconns c = some m →
    t.subrs U.subr = some S → m.label = S.conf.getLabel

lemma Gotten.label {S : Subr} {p : NconnPool UpsConn} {m : Nconn UpsConn} (h : t.Linked)
    (hp : Gotten t S c p) (hm : p.nconns c = some m) : m.label = S.conf.getLabel := by
  cases hp with
  | idle hget =>
      obtain ⟨-, -, -, -, -, hn, n, hn', hl⟩ := h.sound.getIdle hget
      rw [hn, hn'] at hm
      obtain rfl := Option.some.inj hm
      exact hl
  | new hget =>
      obtain ⟨-, rfl, -, -, -, -, r, -, hn⟩ := h.sound.getNewActive hget
      rw [NconnPool.update_nconns_self, hn, Function.update_self, Option.map_some] at hm
      obtain rfl := Option.some.inj hm
      rfl

/-- The label of a connection does not change. -/
lemma Does.label {m m' : Nconn UpsConn} (hd : Does P cf t l t') (h : t.Linked)
    (hm : t.nconnProxyPool.nconns c = some m) (hm' : t'.nconnProxyPool.nconns c = some m') :
    m'.label = m.label := by
  have hstable : Stable t l fun d _ k _ => d = c → k = m.label := by
    refine ⟨fun _ _ _ _ hq => hq, fun _ _ _ _ _ hq => hq, fun _ _ _ _ _ _ hq => hq, ?_⟩
    rintro s S - rfl
    exact absurd (hm.symm.trans (h.sound.fresh _ le_rfl).1) (by simp)
  refine hd.each h hstable (fun d k hk hdc => ?_) c m' hm' rfl
  subst hdc
  obtain rfl := Option.some.inj (hm.symm.trans hk)
  rfl

lemma Labelled.step (h : t.Labelled) (hl : t.Linked) (hn : t.Named) (hd : Does P cf t l t') :
    t'.Labelled := by
  intro u U' c m' S' hU' hc hm' hS'
  rcases hd.session hl hU' with
    ⟨U, hU, hstay⟩ | ⟨m, s, c', rest, S, p, r, ctl, -, hS, hgot, -, rfl, rfl⟩
  · have hUc := hstay.nconn c hc
    obtain ⟨k, hk⟩ := hd.exists_conn hl ((nconnOf_eq hU).trans hUc) (TSrvr.exists_conn hm')
    obtain ⟨m, hm, -⟩ := Option.map_eq_some_iff.mp hk
    rw [hstay.subr] at hS'
    rcases hd.subr hS' with ⟨S, hS, hconf⟩ | ⟨hs, -, -⟩
    · rw [hd.label hl hm hm', hconf]
      exact h u U c m S hU hUc hm hS
    · exact absurd hs (hn.session u U hU).ne
  · rw [startedState_session] at hU'
    obtain rfl := Option.some.inj hU'
    obtain rfl := Option.some.inj hc
    have hS'' := (Function.update_self _ _ _).symm.trans hS'
    obtain rfl := Option.some.inj hS''
    have hm'' := (NconnPool.update_nconns_self _).symm.trans hm'
    obtain ⟨n, hn, rfl⟩ := Option.map_eq_some_iff.mp hm''
    have hlabel := hgot.label hl hn
    exact hlabel

/-! ## The result -/

/-- The subrequests that are enqueued are of `A`. -/
def EnqueuesFrom (A : Set SubrConf) (_ : TSrvr σ) : Label → Prop
  | .enqueue conf => conf ∈ A
  | _ => True

instance [DecidablePred (· ∈ A)] (t : TSrvr σ) (l : Label) : Decidable (EnqueuesFrom A t l) := by
  cases l with
  | enqueue conf => exact inferInstanceAs (Decidable (conf ∈ A))
  | _ => exact isTrue trivial

lemma Asked.step (h : Asked A t) (hl : EnqueuesFrom A t l) (hd : Does P cf t l t') :
    Asked A t' := by
  intro s S' hS'
  rcases hd.subr hS' with ⟨S, hS, hconf⟩ | ⟨-, rfl, -⟩
  · rw [hconf]
    exact h s S hS
  · exact hl

/-- **Verification survives the reuse of connections**, if subrequests with one label are equally
strict: whenever a subrequest that wants verification is on a connection whose handshake is
complete, the handshake was verified as it wants. -/
theorem verified_on_reuse {U : UpsSession σ} {S : Subr} {n : UpsConn} (hA : SubrConf.Compatible A)
    (h : ((machine P cf).guarded (EnqueuesFrom A)).Reachable t) (hU : t.upsSessions u = some U)
    (hc : U.nconn = some c) (hS : t.subrs U.subr = some S) (hv : S.conf.tlsVerify = true)
    (hn : t.conn c = some n) (hst : n.state = .connected) : S.conf.VerifiedOn n := by
  have hinv : Asked A t ∧ t.nconnProxyPool.Each (Opened A) ∧ t.Labelled := by
    clear hU hS hn
    induction h with
    | start hs =>
        obtain rfl := hs
        exact ⟨fun s S hS => absurd hS (by simp [new]),
          fun c n hn => absurd hn (by simp [new, NconnPool.new]),
          fun u U c m S hU => absurd hU (by simp [new])⟩
    | step hr hst ih =>
        obtain ⟨hask, hopen, hlab⟩ := ih
        have hl := linked_of_reachable hr.of_guarded
        have hd := does_of_step hst.2
        exact ⟨hask.step hst.1 hd, hd.each hl (stable_opened hask) hopen,
          hlab.step hl (named_of_reachable hr.of_guarded) hd⟩
  obtain ⟨hask, hopen, hlab⟩ := hinv
  obtain ⟨m, hm, rfl⟩ := Option.map_eq_some_iff.mp hn
  obtain ⟨conf, hconf, hl, hs, ho, hh⟩ := hopen c m hm
  have hcov := hA S.conf (hask _ S hS) conf hconf hv ((hlab u U c m S hU hc hm hS).symm.trans hl)
  exact hcov.verifiedOn hs (ho (hs.trans hcov.scheme)) hh hst

/-- A subrequest for `https://up:443`, with or without verification. -/
def tlsSubr (verify : Bool) : SubrConf :=
  { okSubr with scheme := .tls, port := 443, tlsVerify := verify }

/-- A subrequest opens a connection that becomes idle, and a second one is started on it. -/
def reuseRun (first second : SubrConf) : List Label :=
  [.enqueue first, .dequeue, .turn ⟨false, .fast, some 10⟩, .pass (.setup ⟨true, true, true⟩),
    .pass (.connect ⟨.connected true, .connected, true⟩), .pass (.write (.sent 10)),
    .turn ⟨false, .fast, none⟩, .fd 0 .read, .pass (.read (.data okResponse true)),
    .pass (.read .again), .enqueue second, .dequeue, .turn ⟨false, .fast, some 10⟩]

/-- The session 6 of the subrequest 4 is on the connection 0, which is connected. -/
def Reused (t : TSrvr (List UInt8)) : Prop :=
  (t.upsSessions 6).map (fun U => (U.subr, U.nconn)) = some (4, some 0) ∧
    (t.subrs 4).map Subr.conf = some (tlsSubr true) ∧
    (t.conn 0).map UpsConn.state = some .connected

instance (t : TSrvr (List UInt8)) : Decidable (Reused t) := inferInstanceAs (Decidable (_ ∧ _ ∧ _))

lemma Reused.exists {t : TSrvr (List UInt8)} (h : Reused t) :
    ∃ U S n, t.upsSessions 6 = some U ∧ U.nconn = some 0 ∧ t.subrs U.subr = some S ∧
      S.conf = tlsSubr true ∧ t.conn 0 = some n ∧ n.state = .connected := by
  obtain ⟨hU, hS, hn⟩ := h
  obtain ⟨U, hU, he⟩ := Option.map_eq_some_iff.mp hU
  obtain ⟨S, hS, hconf⟩ := Option.map_eq_some_iff.mp hS
  obtain ⟨n, hn, hst⟩ := Option.map_eq_some_iff.mp hn
  obtain ⟨hsub, hc⟩ := Prod.mk.inj he
  exact ⟨U, S, n, hU, hc, by rw [hsub, hS], hconf, hn, hst⟩

theorem verified_on_reuse_twice :
    ∃ (t : TSrvr (List UInt8)) (n : UpsConn),
      ((machine okParser okConf).guarded (EnqueuesFrom {tlsSubr true})).Reachable t ∧ Reused t ∧
        t.conn 0 = some n ∧ (tlsSubr true).VerifiedOn n := by
  have hrun : ((reuseRun (tlsSubr true) (tlsSubr true)).foldlM (fun (t : TSrvr (List UInt8)) l =>
      if EnqueuesFrom {tlsSubr true} t l then t.step okParser okConf l else none) (new okConf)).map
        (fun t => decide (Reused t)) = some true := by
    decide +kernel
  obtain ⟨t, ht, he⟩ := Option.map_eq_some_iff.mp hrun
  have hr : ((machine okParser okConf).guarded (EnqueuesFrom {tlsSubr true})).Reachable t :=
    Machine.Reachable.guarded_foldlM (fun _ _ _ he => he) rfl ht
  have hreused : Reused t := of_decide_eq_true he
  obtain ⟨U, S, n, hU, hc, hS, hconf, hn, hst⟩ := hreused.exists
  have hA : SubrConf.Compatible {tlsSubr true} := by
    rintro a rfl b rfl - -
    exact ⟨rfl, rfl, id, fun h => ⟨h, rfl⟩⟩
  have hv := verified_on_reuse hA hr hU hc hS (by rw [hconf]; rfl) hn hst
  rw [hconf] at hv
  exact ⟨t, n, hr, hreused, hn, hv⟩

/-- A connection that was opened without verification is handed to a subrequest that wants it. -/
theorem unverified_on_reuse :
    ¬ ∀ (t : TSrvr (List UInt8)) u U c S n, (machine okParser okConf).Reachable t →
      t.upsSessions u = some U → U.nconn = some c → t.subrs U.subr = some S →
      S.conf.tlsVerify = true → t.conn c = some n → n.state = .connected → S.conf.VerifiedOn n := by
  have hrun : ((reuseRun (tlsSubr false) (tlsSubr true)).foldlM (fun (t : TSrvr (List UInt8)) l =>
      t.step okParser okConf l) (new okConf)).map
        (fun t => (decide (Reused t), (t.conn 0).map UpsConn.sslVerify)) =
      some (true, some .off) := by
    decide +kernel
  intro hall
  obtain ⟨t, ht, he⟩ := Option.map_eq_some_iff.mp hrun
  obtain ⟨hreused, hoff⟩ := Prod.mk.inj he
  obtain ⟨U, S, n, hU, hc, hS, hconf, hn, hst⟩ := (of_decide_eq_true hreused).exists
  have hr : (machine okParser okConf).Reachable t :=
    Machine.Reachable.foldlM (fun _ _ _ he => he) (.start rfl) ht
  have hv := hall t 6 U 0 S n hr hU hc hS (by rw [hconf]; rfl) hn hst
  rw [hn, Option.map_some] at hoff
  have hssl : n.sslVerify = .off := Option.some.inj hoff
  rcases hv.peer with hp | ⟨hp, -⟩
  · exact absurd (hssl.symm.trans hp) (by simp)
  · exact absurd (hssl.symm.trans hp) (by simp)

end TSrvr

end Is2
