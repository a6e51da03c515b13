import Is2.Srvr.UpsLinks

/-!
# What every upstream connection has in common

A property of connections that cleaning up, connecting, writing and the data pointer do not disturb,
and that new connections have, is kept by every step of a server thread (`Does.each`).  Its first
use is the registration of a connection's descriptor for reading, while a response is awaited: a
send that would block registers the descriptor for writing only, and nothing registers it for
reading again.
-/

namespace Is2

namespace UpsConn

/-! ## The mask of a connection -/

lemma read_mem_ncsetup {n m : UpsConn} {i : SetupIn} (h : n.ncsetup i = (m, true)) :
    .read ∈ m.mask := by
  have htcp : ∀ {m}, n.tcpSetup i = (m, true) → EvrFileAttr.read ∈ m.mask := by
    intro m hm
    unfold tcpSetup at hm
    split_ifs at hm
    · obtain ⟨rfl, -⟩ := Prod.mk.inj hm
      simp [setupMask]
    · exact absurd (Prod.mk.inj hm).2 (by simp)
  unfold ncsetup at h
  split at h
  · split at h
    case h_1 m' hm' =>
      split_ifs at h
      · obtain ⟨rfl, -⟩ := Prod.mk.inj h
        have hm := htcp hm'
        exact hm
      · exact absurd (Prod.mk.inj h).2 (by simp)
    case h_2 m' hm' => exact absurd (Prod.mk.inj h).2 (by simp)
  · exact htcp h

lemma read_mem_tcpConnect {n : UpsConn} (i : TcpConnect) (h : .read ∈ n.mask) :
    .read ∈ (n.tcpConnect i).1.mask := by
  unfold tcpConnect
  split
  · exact h
  · exact h
  · simp [connectMask]
  · exact h
  · simp [connectMask]

lemma mask_tlsConnect (n : UpsConn) (ssl : SslConnect) (certOk : Bool) :
    (n.tlsConnect ssl certOk).1.mask = n.mask := by
  unfold tlsConnect tlsValidate
  split
  · rfl
  · rfl
  · rfl
  · split_ifs <;> rfl

lemma read_mem_ncconnect {n : UpsConn} (i : ConnectIn) (h : .read ∈ n.mask) :
    .read ∈ (n.ncconnect i).1.mask := by
  unfold ncconnect
  split
  · split
    · have ht := read_mem_tcpConnect i.tcp h
      split
      case h_1 m hm =>
        rw [hm] at ht
        exact ht
      case h_2 m st hst hm =>
        rw [hm] at ht
        split_ifs
        · exact ht
        · rw [mask_tlsConnect]
          exact ht
    · unfold tlsValidate
      split_ifs <;> exact h
    · exact h
    · rw [mask_tlsConnect]
      exact h
  · exact read_mem_tcpConnect i.tcp h

lemma mask_ncwrite {n : UpsConn} {i : Send} (h : i ≠ .wouldBlock true) :
    (n.ncwrite i).1.mask = n.mask := by
  unfold ncwrite
  split
  · rfl
  · exact absurd rfl h
  · rfl
  · rfl
  · rfl

/-- A connection with a descriptor is registered for reading. -/
def Reads (_ : ℕ) (_ : Prop) (_ : String) (n : UpsConn) : Prop := n.state ≠ .free → .read ∈ n.mask

end UpsConn

namespace TSrvr

variable {σ : Type} {P : RespParser σ} {cf : TConf} {t t' : TSrvr σ} {l : Label} {u s c : ℕ}

/-! ## The rule -/

/-- What makes a property of connections one that a step keeps. -/
structure Stable (t : TSrvr σ) (l : Label) (Q : ℕ → Prop → String → UpsConn → Prop) : Prop where
  cleanup : ∀ c b k n, Q c b k n → Q c True k (UpsConn.cls.ncCleanup n)
  data : ∀ c b k n d, Q c b k n → Q c b k { n with data := d }
  move : ∀ c b k n n', ConnMove l n n' → Q c b k n → Q c b k n'
  new : ∀ s S, t.subrs s = some S → Q t.nconnProxyPool.next False S.conf.getLabel
    ((UpsConn.new S.conf.scheme).setTlsOpts S.conf.tlsOpts)

section Each

variable {Q : ℕ → Prop → String → UpsConn → Prop}

lemma Gotten.each {S : Subr} {p : NconnPool UpsConn} (h : t.Linked) (hQ : Stable t l Q)
    (he : t.nconnProxyPool.Each Q) (hS : t.subrs s = some S) (hp : Gotten t S c p) : p.Each Q := by
  cases hp with
  | idle hget => exact he.getIdle h.sound hget
  | new hget =>
      refine he.getNewActive h.sound (fun _ => rfl) (fun r hr => ?_) hget
      obtain rfl := create_eq hr
      exact hQ.new s S hS

/-- **What all connections have in common stays so.** -/
theorem Does.each (hd : Does P cf t l t') (h : t.Linked) (hQ : Stable t l Q)
    (he : t.nconnProxyPool.Each Q) : t'.nconnProxyPool.Each Q := by
  cases hd with
  | started _ _ hS hgot _ _ _ =>
      refine (hgot.each h hQ he hS).update fun n _ hn => ?_
      exact hQ.data _ _ _ _ _ hn
  | @ran f n n' ups more ok _ hn hm _ _ =>
      refine NconnPool.Each.update he fun m hm' hQm => ?_
      obtain rfl := Option.some.inj (hn.symm.trans (exists_conn hm'))
      exact hQ.move _ _ _ _ _ hm hQm
  | tore _ _ _ _ hp _ _ _ => exact he.release hQ.cleanup hp
  | released _ _ hp => exact he.release hQ.cleanup hp
  | @parked f n n' p ok _ _ hn hm hp =>
      refine NconnPool.Each.addIdle ?_ hQ.cleanup hp
      refine NconnPool.Each.update he fun m hm' hQm => ?_
      obtain rfl := Option.some.inj (hn.symm.trans (exists_conn hm'))
      exact hQ.data _ _ _ _ _ (hQ.move _ _ _ _ _ hm hQm)
  | cancelledActive _ _ _ _ _ _ hp _ _ _ _ => exact he.release hQ.cleanup hp
  | @deletedUps s u S U p _ _ _ _ hp =>
      cases hc : U.nconn with
      | none =>
          obtain rfl := hp.2 hc
          exact he
      | some c => exact he.release hQ.cleanup (hp.1 c hc)
  | reaped _ hp => exact he.reap h.sound hp
  | _ => exact he

end Each

/-! ## Registration for reading -/

lemma ConnMove.state_free {n n' : UpsConn} (h : ConnMove l n n') (hf : n'.state = .free) :
    n.state = .free := by
  cases h with
  | same => exact hf
  | setup hst _ => exact hst
  | setupFailed hst _ _ => exact hst
  | @connecting i _ => exact (UpsConn.keeps_ncconnect n i).state.symm.trans hf
  | connected _ _ _ => exact absurd hf (by simp)
  | @wrote i _ => exact (UpsConn.keeps_ncwrite n i).state.symm.trans hf

lemma stable_reads (h : l ≠ .pass (.write (.wouldBlock true))) : Stable t l UpsConn.Reads where
  cleanup := fun _ _ _ _ _ hf => absurd rfl hf
  data := fun _ _ _ _ _ hr => hr
  new := by
    intro s S _ hf
    refine absurd ?_ hf
    unfold UpsConn.setTlsOpts
    split_ifs <;> rfl
  move := by
    intro c b k n n' hm hr hf
    cases hm with
    | same => exact hr hf
    | setup _ hs =>
        have hm := UpsConn.read_mem_ncsetup hs
        exact hm
    | @setupFailed i _ hst _ hs =>
        have hk := (UpsConn.keeps_ncsetup n i).state
        rw [hs] at hk
        exact absurd (hk.trans hst) hf
    | @connecting i hst => exact UpsConn.read_mem_ncconnect i (hr (by simp [hst]))
    | @connected i hst _ _ => exact UpsConn.read_mem_ncconnect i (hr (by simp [hst]))
    | @wrote i hl =>
        rw [UpsConn.mask_ncwrite (fun hi => h (by rw [hl, hi]))]
        exact hr fun hst => hf ((UpsConn.keeps_ncwrite n i).state.trans hst)

/-- Nothing was written on a connection without a descriptor. -/
def Unwritten (t : TSrvr σ) : Prop :=
  ∀ u U c n, t.upsSessions u = some U → U.nconn = some c → t.conn c = some n → n.state = .free →
    U.outQ ≠ some 0

/-- A connection that has a descriptor keeps it until it is cleaned up. -/
lemma Does.free {n n' : UpsConn} (hd : Does P cf t l t') (h : t.Linked) (hn : t.conn c = some n)
    (hn' : t'.conn c = some n') (hc : c ∉ t'.nconnProxyPool.reapList) (hf : n'.state = .free) :
    n.state = .free := by
  by_contra hne
  obtain ⟨m, hm, rfl⟩ := Option.map_eq_some_iff.mp hn
  obtain ⟨m', hm', rfl⟩ := Option.map_eq_some_iff.mp hn'
  have hstable : Stable t l fun d b _ n => d = c → n.state = .free → b := by
    refine ⟨fun _ _ _ _ _ _ _ => trivial, fun _ _ _ _ _ hq => hq, ?_, ?_⟩
    · exact fun _ _ _ _ _ hm hq hd hf => hq hd (hm.state_free hf)
    · rintro s S - rfl -
      exact absurd (hm.symm.trans (h.sound.fresh _ le_rfl).1) (by simp)
  refine hc (hd.each h hstable (fun d k hk hdc hf => ?_) c m' hm' rfl hf)
  subst hdc
  obtain rfl := Option.some.inj (hm.symm.trans hk)
  exact absurd hf hne

/-- The connection of a session does not come into being. -/
lemma Does.exists_conn {n' : UpsConn} (hd : Does P cf t l t') (h : t.Linked)
    (hc : nconnOf t.upsSessions u = some c) (hn' : t'.conn c = some n') :
    ∃ n, t.conn c = some n := by
  by_contra hnone
  obtain ⟨m', hm', rfl⟩ := Option.map_eq_some_iff.mp hn'
  have hact := h.ties.isLive u c hc
  have hstable : Stable t l fun d _ _ _ => d ≠ c := by
    refine ⟨fun _ _ _ _ hq => hq, fun _ _ _ _ _ hq => hq, fun _ _ _ _ _ _ hq => hq, ?_⟩
    rintro s S - rfl
    exact (h.sound.fresh _ le_rfl).2.1 hact
  refine hd.each h hstable (fun d m hm hdc => ?_) c m' hm' rfl
  subst hdc
  exact hnone ⟨m.rest, TSrvr.exists_conn hm⟩

/-- The connection that a session keeps is not put on the reap list. -/
lemma Does.mem_reapList (hd : Does P cf t l t') (h : t.Linked)
    (hc : nconnOf t.upsSessions u = some c) (hc' : nconnOf t'.upsSessions u = some c)
    (hr : c ∈ t'.nconnProxyPool.reapList) : c ∈ t.nconnProxyPool.reapList := by
  -- the one that is released belongs to `v`, which gives it up
  have htorn : ∀ {v d : ℕ} {p : NconnPool UpsConn} {x : Option (UpsSession σ)},
      t.nconnProxyPool.release UpsConn.cls d = some p → c ∈ p.reapList →
      nconnOf t.upsSessions v = some d → x.bind UpsSession.nconn = none →
      nconnOf (Function.update t.upsSessions v x) u = some c → c ∈ t.nconnProxyPool.reapList := by
    intro v d p x hp hmem hv hx hu
    rw [(h.sound.release hp).2.2.1, List.mem_append, List.mem_singleton] at hmem
    refine hmem.resolve_right ?_
    rintro rfl
    obtain rfl := h.ties.inj hc hv
    rw [nconnOf_update, Function.update_self, hx] at hu
    exact absurd hu (by simp)
  cases hd with
  | started _ _ _ hgot _ _ _ =>
      cases hgot with
      | idle hget =>
          have hreap := (h.sound.getIdle hget).2.2.2.2.1
          exact hreap ▸ hr
      | new hget =>
          have hreap := (h.sound.getNewActive hget).2.2.2.2.1
          exact hreap ▸ hr
  | @tore f v U U' S S' p ks es hf hu hU _ hp hb _ _ =>
      exact htorn hp hr (h.attached hf hu).2 (x := some U') hb.nconn hc'
  | @released f p hf hu hp =>
      obtain ⟨-, -, hreap, -, n, hn, -⟩ := h.sound.release hp
      have hmem : c ∈ p.reapList := hr
      rw [hreap, List.mem_append, List.mem_singleton] at hmem
      refine hmem.resolve_right ?_
      rintro rfl
      exact h.unused hf hu (fun hg => absurd (hn.symm.trans hg) (by simp)) u hc
  | @parked f n n' p ok hf hi _ _ hp =>
      have hl : t.ctl.loose = some f.nconn := by
        rw [hf, Ctl.loose, hi]
        rfl
      obtain ⟨hact, hno⟩ := h.ties.isLoose _ hl
      have hs : (t.modifyConn f.nconn fun _ => { n' with data := none }).nconnProxyPool.Sound :=
        h.sound.update (fun m => { m with rest := { n' with data := none } }) (fun _ => rfl)
          (fun _ => rfl) _
      have hmem : c ∈ p.reapList := hr
      obtain ⟨-, -, ⟨-, hreap, -⟩ | ⟨k, d, hk, -, hreap, -⟩⟩ := hs.addIdle hact hp
      · exact hreap ▸ hmem
      · rw [hreap, List.mem_append, List.mem_singleton] at hmem
        refine hmem.resolve_right ?_
        rintro rfl
        have hin : c ∈ f.nconn :: t.nconnProxyPool.idle := by
          have hk : f.nconn :: t.nconnProxyPool.idle = k ++ [c] := hk
          rw [hk]
          simp
        rcases List.mem_cons.mp hin with rfl | hidle
        · exact hno u hc
        · exact h.sound.activeIdle c (h.ties.isLive u c hc) hidle
  | @cancelledActive s v d U U' S subrs ks p ctl _ _ _ _ hU hd hp hb _ _ _ =>
      exact htorn hp hr ((nconnOf_eq hU).trans hd) (x := some U') hb.nconn hc'
  | @deletedUps s v S U p _ _ _ hU hp =>
      cases hd : U.nconn with
      | none =>
          obtain rfl := hp.2 hd
          exact hr
      | some d => exact htorn (hp.1 d hd) hr ((nconnOf_eq hU).trans hd) (Option.bind_none _) hc'
  | reaped _ hp =>
      have hmem := (h.sound.reap hp).2.2.2.1 ▸ hr
      exact absurd hmem List.not_mem_nil
  | _ => exact hr

lemma Unwritten.step (h : t.Unwritten) (hl : t.Linked) (hd : Does P cf t l t') :
    t'.Unwritten := by
  intro u U' c n' hU' hc hn' hf
  rcases hd.session hl hU' with
    ⟨U, hU, hstay⟩ | ⟨m, s, c', rest, S, p, r, ctl, -, -, -, hline, rfl, rfl⟩
  · have hUc := hstay.nconn c hc
    have hitem := (nconnOf_eq hU).trans hUc
    obtain ⟨n, hn⟩ := hd.exists_conn hl hitem hn'
    have hfree : n.state = .free := by
      by_cases hreap : c ∈ t'.nconnProxyPool.reapList
      · have hmem := hd.mem_reapList hl hitem ((nconnOf_eq hU').trans hc) hreap
        obtain ⟨m, hm, rfl⟩ := Option.map_eq_some_iff.mp hn
        exact (hl.cleaned c m hm).2 hmem
      · exact hd.free hl hn hn' hreap hf
    have hout : U'.outQ = U.outQ := by
      by_contra hne
      obtain ⟨k, hk, hst⟩ := hstay.outQ c hc hne
      obtain rfl := Option.some.inj (hn.symm.trans hk)
      exact absurd (hfree.symm.trans hst) (by simp)
    rw [hout]
    exact h u U c n hU hUc hn hfree
  · rw [startedState_session] at hU'
    obtain rfl := Option.some.inj hU'
    exact hline

/-- The request of `u` was written completely, and its response is not complete. -/
def Awaits (P : RespParser σ) (t : TSrvr σ) (u : ℕ) (n : UpsConn) : Prop :=
  ∃ U c p, t.upsSessions u = some U ∧ U.nconn = some c ∧ t.conn c = some n ∧ U.outQ = some 0 ∧
    U.resp = some p ∧ P.complete p = false

/-- No send to an upstream would block. -/
def NeverBlocks (_ : TSrvr σ) (l : Label) : Prop := l ≠ .pass (.write (.wouldBlock true))

instance (t : TSrvr σ) (l : Label) : Decidable (NeverBlocks t l) :=
  inferInstanceAs (Decidable (l ≠ _))

/-- **A connection is registered for reading while its response is awaited**, if no send would
block. -/
theorem registered_while_awaiting {n : UpsConn}
    (h : ((machine P cf).guarded NeverBlocks).Reachable t) (hw : t.Awaits P u n) :
    .read ∈ n.mask ∧ .epollIn ∈ getEpollAttr n.mask := by
  have hinv : t.nconnProxyPool.Each UpsConn.Reads ∧ t.Unwritten := by
    clear hw
    induction h with
    | start hs =>
        obtain rfl := hs
        exact ⟨fun c n hn => absurd hn (by simp [new, NconnPool.new]),
          fun u U c n hU => absurd hU (by simp [new])⟩
    | step hr hst ih =>
        have hl := linked_of_reachable hr.of_guarded
        have hd := does_of_step hst.2
        exact ⟨hd.each hl (stable_reads hst.1) ih.1, ih.2.step hl hd⟩
  obtain ⟨U, c, p, hU, hc, hn, hout, -, -⟩ := hw
  have hfree : n.state ≠ .free := fun hf => hinv.2 u U c n hU hc hn hf hout
  obtain ⟨m, hm, rfl⟩ := Option.map_eq_some_iff.mp hn
  have hread := hinv.1 c m hm hfree
  exact ⟨hread, epollIn_mem_getEpollAttr.mpr hread⟩

/-- A session whose request is written, on the connection 0. -/
def writtenSession : UpsSession (List UInt8) := ⟨0, some 0, some 3, some [], some 0, false, false⟩

/-- A subrequest is started, and its request of ten bytes is written in the sends `sends`. -/
def writtenRun (sends : List UpsConn.Send) : List Label :=
  [.enqueue okSubr, .dequeue, .turn ⟨false, .fast, some 10⟩, .pass (.setup ⟨true, true, true⟩),
    .pass (.connect ⟨.connected true, .connected, true⟩)] ++ sends.map fun i => .pass (.write i)

lemma awaits_of_written {t : TSrvr (List UInt8)} {n : UpsConn}
    (hU : t.upsSessions 2 = some writtenSession) (hn : t.conn 0 = some n) : t.Awaits okParser 2 n :=
  ⟨writtenSession, 0, [], hU, rfl, hn, rfl, rfl, by decide⟩

theorem registered_while_awaiting_two_sends :
    ∃ (t : TSrvr (List UInt8)) (n : UpsConn),
      ((machine okParser okConf).guarded NeverBlocks).Reachable t ∧ t.Awaits okParser 2 n ∧
        .read ∈ n.mask ∧ .epollIn ∈ getEpollAttr n.mask := by
  have hrun : ((writtenRun [.sent 4, .sent 6]).foldlM (fun (t : TSrvr (List UInt8)) l =>
      if NeverBlocks t l then t.step okParser okConf l else none) (new okConf)).map
        (fun t => (t.upsSessions 2, (t.conn 0).isSome)) = some (some writtenSession, true) := by
    decide +kernel
  obtain ⟨t, ht, he⟩ := Option.map_eq_some_iff.mp hrun
  obtain ⟨hU, hsome⟩ := Prod.mk.inj he
  obtain ⟨n, hn⟩ := Option.isSome_iff_exists.mp hsome
  have hr : ((machine okParser okConf).guarded NeverBlocks).Reachable t :=
    Machine.Reachable.guarded_foldlM (fun _ _ _ he => he) rfl ht
  have hw := awaits_of_written hU hn
  exact ⟨t, n, hr, hw, registered_while_awaiting hr hw⟩

/-- The second of three sends would block; the last one comes with the next event. -/
def blockedRun : List Label :=
  writtenRun [.sent 4, .wouldBlock true] ++
    [.turn ⟨false, .fast, none⟩, .fd 0 .write, .pass (.write (.sent 6))]

/-- After a send that would block, the registration for reading does not come back. -/
theorem unregistered_while_awaiting :
    ¬ ∀ (t : TSrvr (List UInt8)) u n, (machine okParser okConf).Reachable t →
      t.Awaits okParser u n → .read ∈ n.mask := by
  have hrun : (blockedRun.foldlM (fun (t : TSrvr (List UInt8)) l => t.step okParser okConf l)
      (new okConf)).map
        (fun t => (t.upsSessions 2, (t.conn 0).map fun n => decide (.read ∈ n.mask))) =
      some (some writtenSession, some false) := by
    decide +kernel
  intro hall
  obtain ⟨t, ht, he⟩ := Option.map_eq_some_iff.mp hrun
  obtain ⟨hU, hmask⟩ := Prod.mk.inj he
  obtain ⟨n, hn, hread⟩ := Option.map_eq_some_iff.mp hmask
  have hr : (machine okParser okConf).Reachable t :=
    Machine.Reachable.foldlM (fun _ _ _ he => he) (.start rfl) ht
  exact of_decide_eq_false hread (hall t 2 n hr (awaits_of_written hU hn))

end TSrvr

end Is2
