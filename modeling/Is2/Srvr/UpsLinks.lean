import Is2.Core.Ties
import Is2.Srvr.UpsSteps

/-!
# Sessions and their connections

Which session uses which connection is kept in three places: in the session (`m_nconn`), in the
connection (its data pointer) and in the pool.  `Linked` says how they agree, with `Ties` for the
pointers and the timers.  While an idle connection is being read its data pointer is still that of
the session before; it is cleared with `add_idle`.  `Linked.step` is the step lemma, and
`linked_of_reachable` the invariant.

That a session's connection exists is not a part of it: one that is released while it is idle may
stay in the LRU, and is then handed out again before it is reaped (`Is2.Srvr.UpsExclusive`).
-/

namespace Is2

/-- A connection that was cleaned up waits to be reaped, and has no descriptor. -/
def Cleaned (_ : ℕ) (reaped : Prop) (_ : String) (n : UpsConn) : Prop :=
  (n.cancelled = true ↔ reaped) ∧ (reaped → n.state = .free)

lemma cleaned_ncCleanup (c : ℕ) (b : Prop) (l : String) (n : UpsConn) (_ : Cleaned c b l n) :
    Cleaned c True l (UpsConn.cls.ncCleanup n) :=
  ⟨by simp [UpsConn.cls, UpsConn.ncCleanup], fun _ => rfl⟩

lemma create_eq {scheme : Scheme} {n : UpsConn} (h : UpsConn.cls.create scheme = some n) :
    n = UpsConn.new scheme := by
  cases scheme with
  | none => exact absurd h (by simp [UpsConn.cls, UpsConn.create])
  | tcp => exact (Option.some.inj h).symm
  | tls => exact (Option.some.inj h).symm

lemma cleaned_new (c : ℕ) (l : String) (scheme : Scheme) : Cleaned c False l (UpsConn.new scheme) :=
  ⟨by simp [UpsConn.new], False.elim⟩

/-! ## Where the thread is -/

/-- The connection whose data pointer is out of date: an idle one that is being read. -/
def Ctl.loose : Ctl → Option ℕ
  | .running f => if f.idle then some f.nconn else none
  | _ => none

/-- No call of `run_state_machine` is going on. -/
def Ctl.Quiet (ctl : Ctl) : Prop := ∀ f, ctl ≠ .running f

lemma Ctl.Quiet.loose {ctl : Ctl} (h : ctl.Quiet) : ctl.loose = none := by
  cases ctl with
  | running f => exact absurd rfl (h f)
  | between => rfl
  | dequeuing => rfl
  | deleting s => rfl

lemma Ctl.quiet_of_eq {ctl : Ctl} (h : ctl = .between ∨ ctl = .dequeuing) : ctl.Quiet := by
  rcases h with rfl | rfl
  · exact fun f => by simp
  · exact fun f => by simp

lemma Ctl.quiet_of_deleting {ctl : Ctl} {s : ℕ} (h : ctl = .between ∨ ctl = .deleting s) :
    ctl.Quiet := by
  rcases h with rfl | rfl
  · exact fun f => by simp
  · exact fun f => by simp

lemma Frame.back_eq (f : Frame) : f.back = .between ∨ f.back = .dequeuing := by
  unfold Frame.back
  cases f.caller with
  | none => exact .inl rfl
  | some s => exact .inr rfl

lemma Frame.back_quiet (f : Frame) : f.back.Quiet := Ctl.quiet_of_eq f.back_eq

/-! ## Data pointers -/

namespace NconnPool

variable {p q : NconnPool UpsConn} {c : ℕ}

/-- The data pointer of a connection. -/
def dataOf (p : NconnPool UpsConn) (c : ℕ) : Option ℕ := (p.nconns c).bind fun n => n.rest.data

lemma dataOf_congr (h : q.nconns = p.nconns) : q.dataOf = p.dataOf := by
  funext d
  rw [dataOf, dataOf, h]

lemma dataOf_eq {n : Nconn UpsConn} (hn : p.nconns c = some n) : p.dataOf c = n.rest.data := by
  rw [dataOf, hn, Option.bind_some]

lemma dataOf_of_update {x : Option (Nconn UpsConn)}
    (h : q.nconns = Function.update p.nconns c x) :
    q.dataOf = Function.update p.dataOf c (x.bind fun n => n.rest.data) := by
  funext d
  by_cases hd : d = c
  · subst hd
    simp [dataOf, h]
  · simp [dataOf, h, hd]

lemma dataOf_update_same {f : Nconn UpsConn → Nconn UpsConn}
    (hf : ∀ n, p.nconns c = some n → (f n).rest.data = n.rest.data) :
    (p.update c f).dataOf = p.dataOf := by
  rw [dataOf_of_update (p := p) (c := c) (x := (p.nconns c).map f) rfl, Function.update_eq_self_iff]
  cases hn : p.nconns c with
  | none => rw [dataOf, hn, Option.map_none, Option.bind_none]
  | some n => rw [dataOf_eq hn, Option.map_some, Option.bind_some, hf n hn]

lemma dataOf_release (he : p.release UpsConn.cls c = some q) :
    q.dataOf = Function.update p.dataOf c none := by
  cases hn : p.nconns c with
  | none => simp [release, removeActive, hn] at he
  | some n =>
      rw [release_eq hn] at he
      obtain rfl := Option.some.inj he
      exact dataOf_of_update (x := some { n with rest := UpsConn.cls.ncCleanup n.rest }) rfl

lemma dataOf_getNewActive {label : String} {scheme : Scheme} (hs : p.Sound)
    (he : p.getNewActive UpsConn.cls label scheme = some (q, some c)) : q.dataOf = p.dataOf := by
  obtain ⟨-, rfl, -, -, -, -, r, hr, hn⟩ := hs.getNewActive he
  obtain rfl := create_eq hr
  have hnone : p.dataOf p.next = none := by
    rw [dataOf, (hs.fresh _ le_rfl).1, Option.bind_none]
  rw [dataOf_of_update hn, ← Function.update_eq_self p.next p.dataOf, hnone, Function.update_idem]
  rfl

lemma dataOf_reap (hs : p.Sound) (he : p.reap = some q) (d : ℕ) :
    q.dataOf d = p.dataOf d ∨ q.dataOf d = none ∧ q.nconns d = none := by
  obtain ⟨-, -, -, -, hn⟩ := hs.reap he
  by_cases hd : d ∈ p.reapList
  · have hnone : q.nconns d = none := by
      rw [hn]
      exact if_pos hd
    exact .inr ⟨by rw [dataOf, hnone, Option.bind_none], hnone⟩
  · left
    rw [dataOf, hn]
    exact congrArg (fun x : Option (Nconn UpsConn) => x.bind fun n => n.rest.data) (if_neg hd)

lemma dataOf_kept {l : List ℕ} (h : Kept UpsConn.cls l p q) (d : ℕ) :
    q.dataOf d = p.dataOf d ∨ q.dataOf d = none ∧ d ∈ l := by
  have hbind : ∀ x : Option (Nconn UpsConn),
      (x.bind fun n => n.rest.data) = (x.map Nconn.rest).bind UpsConn.data := by
    rintro (_ | n) <;> rfl
  by_cases hd : d ∈ l
  · obtain ⟨r, hr⟩ := (h d).2.2 hd
    refine .inr ⟨?_, hd⟩
    rw [dataOf, hbind, hr]
    rfl
  · left
    rw [dataOf, dataOf, hbind, hbind, (h d).2.1 hd]

/-- `add_idle` clears nothing but the data pointer of a connection that is evicted. -/
lemma dataOf_addIdle {ok : Bool} (hs : p.Sound) (hc : c ∈ p.active)
    (he : p.addIdle UpsConn.cls c = some (q, ok)) (d : ℕ) :
    q.dataOf d = p.dataOf d ∨ q.dataOf d = none ∧ (d ∉ p.active ∨ d = c) := by
  obtain ⟨-, -, ⟨-, -, -, hkept⟩ | ⟨l, e, hl, -, -, hkept⟩⟩ := hs.addIdle hc he
  · exact (dataOf_kept hkept d).imp_right fun hd => absurd hd.2 List.not_mem_nil
  · refine (dataOf_kept hkept d).imp_right fun hd => ⟨hd.1, ?_⟩
    obtain rfl := List.mem_singleton.mp hd.2
    have hmem : d ∈ c :: p.idle := by rw [hl]; simp
    rcases List.mem_cons.mp hmem with hdc | hdi
    · exact .inr hdc
    · exact .inl fun ha => hs.activeIdle d ha hdi

/-- The connections that do not exist. -/
def Gone (p : NconnPool UpsConn) (c : ℕ) : Prop := p.nconns c = none

lemma gone_of_kept {l : List ℕ} (h : Kept UpsConn.cls l p q) (hc : p.Gone c) : q.Gone c := by
  have hsome := (h c).1
  rw [hc] at hsome
  exact Option.isNone_iff_eq_none.mp (by simpa using hsome)

lemma gone_update {f : Nconn UpsConn → Nconn UpsConn} : (p.update c f).Gone = p.Gone := by
  funext d
  by_cases hd : d = c
  · subst hd
    simp [Gone]
  · rw [Gone, Gone, update_nconns_of_ne f hd]

end NconnPool

namespace TSrvr

variable {σ : Type} {P : RespParser σ} {cf : TConf} {t t' : TSrvr σ} {l : Label} {u s c : ℕ}

/-! ## The sessions' side -/

/-- `m_nconn` of a session. -/
def nconnOf (ups : ℕ → Option (UpsSession σ)) (u : ℕ) : Option ℕ := (ups u).bind UpsSession.nconn

/-- `m_evr_timeout` of a session. -/
def evrTimeoutOf (ups : ℕ → Option (UpsSession σ)) (u : ℕ) : Option ℕ :=
  (ups u).bind UpsSession.evrTimeout

lemma nconnOf_update (ups : ℕ → Option (UpsSession σ)) (u : ℕ) (x : Option (UpsSession σ)) :
    nconnOf (Function.update ups u x) = Function.update (nconnOf ups) u (x.bind UpsSession.nconn) :=
  Function.comp_update (fun x : Option (UpsSession σ) => x.bind UpsSession.nconn) ups u x

lemma evrTimeoutOf_update (ups : ℕ → Option (UpsSession σ)) (u : ℕ) (x : Option (UpsSession σ)) :
    evrTimeoutOf (Function.update ups u x) =
      Function.update (evrTimeoutOf ups) u (x.bind UpsSession.evrTimeout) :=
  Function.comp_update (fun x : Option (UpsSession σ) => x.bind UpsSession.evrTimeout) ups u x

lemma nconnOf_eq {U : UpsSession σ} (hU : t.upsSessions u = some U) :
    nconnOf t.upsSessions u = U.nconn := by
  rw [nconnOf, hU, Option.bind_some]

lemma evrTimeoutOf_eq {U : UpsSession σ} (hU : t.upsSessions u = some U) :
    evrTimeoutOf t.upsSessions u = U.evrTimeout := by
  rw [evrTimeoutOf, hU, Option.bind_some]

lemma exists_of_nconnOf (h : nconnOf t.upsSessions u = some c) :
    ∃ U, t.upsSessions u = some U ∧ U.nconn = some c :=
  Option.bind_eq_some_iff.mp h

section

variable {f : Frame} {n : UpsConn} {ups ups' : ℕ → Option (UpsSession σ)}

lemma Touched.links (h : Touched f n ups ups') :
    nconnOf ups' = nconnOf ups ∧ evrTimeoutOf ups' = evrTimeoutOf ups := by
  cases h with
  | same => exact ⟨rfl, rfl⟩
  | @one u U U' _ _ hU _ hnc htime _ =>
      rw [nconnOf_update, evrTimeoutOf_update, Option.bind_some, Option.bind_some, hnc, htime]
      constructor
      · refine Function.update_eq_self_iff.mpr ?_
        rw [nconnOf, hU, Option.bind_some]
      · refine Function.update_eq_self_iff.mpr ?_
        rw [evrTimeoutOf, hU, Option.bind_some]

lemma Touched.eq_none (h : Touched f n ups ups') (hu : ups u = none) : ups' u = none := by
  cases h with
  | same => exact hu
  | @one v U U' _ _ hU _ _ _ _ =>
      have huv : u ≠ v := by
        rintro rfl
        exact absurd (hu.symm.trans hU) (by simp)
      rw [Function.update_of_ne huv]
      exact hu

lemma Touched.exists_some {U : UpsSession σ} (h : Touched f n ups ups') (hU : ups u = some U) :
    ∃ U', ups' u = some U' ∧ U'.subr = U.subr ∧ (U.resp.isSome → U'.resp.isSome) := by
  cases h with
  | same => exact ⟨U, hU, rfl, id⟩
  | @one v V V' _ _ hV hsub _ _ hresp =>
      by_cases huv : u = v
      · subst huv
        obtain rfl := Option.some.inj (hU.symm.trans hV)
        exact ⟨V', Function.update_self _ _ _, hsub, hresp⟩
      · exact ⟨U, by rw [Function.update_of_ne huv, hU], rfl, id⟩

end

/-! ## The invariant -/

/-- What a call of `run_state_machine` knows. -/
structure Framed (t : TSrvr σ) (f : Frame) : Prop where
  alive : f.nconn ∉ t.nconnProxyPool.reapList
  ups : f.idle = false → f.ups = t.nconnProxyPool.dataOf f.nconn
  idle : f.idle = true → f.ups = none ∧ f.mode = .read ∧
    ∀ n, t.conn f.nconn = some n → n.state = .connected
  timeout : f.mode = .timeout → ∀ u, f.ups = some u → evrTimeoutOf t.upsSessions u = none
  caller : ∀ s, f.caller = some s → (f.mode = .write ∨ f.mode = .error) ∧
    ∃ u U, f.ups = some u ∧ t.upsSessions u = some U ∧ U.subr = s

/-- The sessions, the connections and the pool agree. -/
structure Linked (t : TSrvr σ) : Prop where
  sound : t.nconnProxyPool.Sound
  cleaned : t.nconnProxyPool.Each Cleaned
  ties : Ties t.nconnProxyPool.active t.nconnProxyPool.dataOf (nconnOf t.upsSessions)
    (evrTimeoutOf t.upsSessions) t.timers t.ctl.loose t.nconnProxyPool.Gone
  fresh : ∀ u, t.next ≤ u → t.upsSessions u = none
  framed : ∀ f, t.ctl = .running f → t.Framed f

lemma linked_new (cf : TConf) : (new cf : TSrvr σ).Linked where
  sound := NconnPool.sound_new _ _
  cleaned := fun c n hn => absurd hn (by simp [new, NconnPool.new])
  ties := by
    constructor <;> simp [new, NconnPool.new, NconnPool.dataOf, nconnOf, Ctl.loose]
  fresh := fun _ _ => rfl
  framed := fun f hf => absurd hf (by simp [new])

lemma ConnMove.kept {n n' : UpsConn} (h : ConnMove l n n') :
    n'.data = n.data ∧ n'.cancelled = n.cancelled ∧
      (n.state = .connected → n'.state = .connected) := by
  cases h with
  | same => exact ⟨rfl, rfl, id⟩
  | @setup i m hfree hm =>
      have hk := UpsConn.keeps_ncsetup n i
      rw [hm] at hk
      exact ⟨hk.data, hk.cancelled, fun h => absurd (hfree.symm.trans h) (by simp)⟩
  | @setupFailed i _ _ _ hm =>
      have hk := UpsConn.keeps_ncsetup n i
      rw [hm] at hk
      exact ⟨hk.data, hk.cancelled, hk.state.trans⟩
  | @connecting i hst =>
      have hk := UpsConn.keeps_ncconnect n i
      exact ⟨hk.data, hk.cancelled, hk.state.trans⟩
  | @connected i hst _ _ =>
      have hk := UpsConn.keeps_ncconnect n i
      exact ⟨hk.data, hk.cancelled, fun _ => rfl⟩
  | @wrote i _ =>
      have hk := UpsConn.keeps_ncwrite n i
      exact ⟨hk.data, hk.cancelled, hk.state.trans⟩

namespace Linked

lemma ties_quiet (h : t.Linked) (hq : t.ctl.Quiet) :
    Ties t.nconnProxyPool.active t.nconnProxyPool.dataOf (nconnOf t.upsSessions)
      (evrTimeoutOf t.upsSessions) t.timers none t.nconnProxyPool.Gone := by
  have := h.ties
  rwa [hq.loose] at this

/-- A step that leaves the pool, the sessions and the timers alone. -/
lemma same (h : t.Linked) (hq : t.ctl.Quiet) (hp : t'.nconnProxyPool = t.nconnProxyPool)
    (hu : t'.upsSessions = t.upsSessions) (ht : t'.timers = t.timers) (hn : t.next ≤ t'.next)
    (hq' : t'.ctl.Quiet) : t'.Linked where
  sound := by rw [hp]; exact h.sound
  cleaned := by rw [hp]; exact h.cleaned
  ties := by rw [hp, hu, ht, hq'.loose]; exact h.ties_quiet hq
  fresh := by rw [hu]; exact fun u hle => h.fresh u (hn.trans hle)
  framed := fun f hf => absurd hf (hq' f)

/-- `release` of a connection that nobody uses any more. -/
lemma release {p : NconnPool UpsConn} {loose : Option ℕ} (h : t.Linked)
    (hp : t.nconnProxyPool.release UpsConn.cls c = some p)
    (hties : Ties t.nconnProxyPool.active t.nconnProxyPool.dataOf (nconnOf t'.upsSessions)
      (evrTimeoutOf t'.upsSessions) t'.timers loose t.nconnProxyPool.Gone)
    (hl : ∀ d, loose = some d → d = c) (hno : ∀ u, nconnOf t'.upsSessions u ≠ some c)
    (hfresh : ∀ u, t'.next ≤ u → t'.upsSessions u = none) (hp' : t'.nconnProxyPool = p)
    (hq : t'.ctl.Quiet) : t'.Linked := by
  obtain ⟨hs, hact, -, hkept, -⟩ := h.sound.release hp
  subst hp'
  refine ⟨hs, h.cleaned.release cleaned_ncCleanup hp, ?_, hfresh, fun f hf => absurd hf (hq f)⟩
  rw [hq.loose, hact, NconnPool.dataOf_release hp]
  refine hties.drop hl hno (Function.update_self _ _ _) (fun d hd => .inl ?_)
    fun d => NconnPool.gone_of_kept hkept
  exact Function.update_of_ne hd _ _

/-- A session gives up its connection, which is released. -/
lemma torn {p : NconnPool UpsConn} {U : UpsSession σ} {x : Option (UpsSession σ)} (h : t.Linked)
    (hl : t.ctl.loose = none) (hU : t.upsSessions u = some U) (hc : U.nconn = some c)
    (hp : t.nconnProxyPool.release UpsConn.cls c = some p)
    (hx : x.bind UpsSession.nconn = none ∧ x.bind UpsSession.evrTimeout = none)
    (hu' : t'.upsSessions = Function.update t.upsSessions u x)
    (ht' : t'.timers = t.timers.filter fun p => some p.1 ≠ U.evrTimeout)
    (hn' : t'.next = t.next) (hp' : t'.nconnProxyPool = p) (hq : t'.ctl.Quiet) : t'.Linked := by
  have hties := h.ties
  rw [hl] at hties
  have hitem : nconnOf t.upsSessions u = some c := (nconnOf_eq hU).trans hc
  have hgive : Ties t.nconnProxyPool.active t.nconnProxyPool.dataOf (nconnOf t'.upsSessions)
      (evrTimeoutOf t'.upsSessions) t'.timers (some c) t.nconnProxyPool.Gone := by
    rw [hu', ht', nconnOf_update, evrTimeoutOf_update, hx.1, hx.2, ← evrTimeoutOf_eq hU]
    exact hties.giveUp hitem
  refine h.release hp hgive (fun d hd => (Option.some.inj hd).symm) (hgive.isLoose c rfl).2 ?_
    hp' hq
  intro v hv
  have huv : v ≠ u := by
    rintro rfl
    exact absurd (hU.symm.trans (h.fresh v (hn' ▸ hv))) (by simp)
  rw [hu', Function.update_of_ne huv]
  exact h.fresh v (hn' ▸ hv)

section Running

variable {f : Frame} {n n' : UpsConn}

lemma loose_running (hf : t.ctl = .running f) (hi : f.idle = false) : t.ctl.loose = none := by
  rw [hf, Ctl.loose, hi]
  rfl

/-- The session of a frame uses its connection. -/
lemma attached (h : t.Linked) (hf : t.ctl = .running f) (hu : f.ups = some u) :
    f.idle = false ∧ nconnOf t.upsSessions u = some f.nconn := by
  have hidle : f.idle = false := by
    by_contra hi
    have := ((h.framed f hf).idle (by simpa using hi)).1
    exact absurd (this.symm.trans hu) (by simp)
  have hties := h.ties
  rw [loose_running hf hidle] at hties
  exact ⟨hidle, hties.item_eq (((h.framed f hf).ups hidle).symm.trans hu)⟩

/-- Nobody uses the connection of a frame without a session. -/
lemma unused (h : t.Linked) (hf : t.ctl = .running f) (hu : f.ups = none)
    (hn : ¬ t.nconnProxyPool.Gone f.nconn) (u : ℕ) : nconnOf t.upsSessions u ≠ some f.nconn := by
  cases hi : f.idle with
  | true =>
      have hl : t.ctl.loose = some f.nconn := by
        rw [hf, Ctl.loose, hi]
        rfl
      exact (h.ties.isLoose _ hl).2 u
  | false => exact h.ties.item_ne hn (((h.framed f hf).ups hi).symm.trans hu) u

lemma loose_eq (hf : t.ctl = .running f) : ∀ d, t.ctl.loose = some d → d = f.nconn := by
  intro d hd
  rw [hf, Ctl.loose] at hd
  split_ifs at hd
  exact (Option.some.inj hd).symm

/-- A connection that was not cleaned up, and whose data pointer stays. -/
lemma modifyConn (h : t.Linked) (hn : t.conn c = some n) (hr : c ∉ t.nconnProxyPool.reapList)
    (hd : n'.data = n.data) (hc : n'.cancelled = n.cancelled) :
    let p := (t.modifyConn c fun _ => n').nconnProxyPool
    p.Sound ∧ p.Each Cleaned ∧ p.dataOf = t.nconnProxyPool.dataOf ∧
      p.Gone = t.nconnProxyPool.Gone := by
  obtain ⟨m, hm, rfl⟩ := Option.map_eq_some_iff.mp hn
  refine ⟨?_, ?_, ?_, NconnPool.gone_update⟩
  · exact h.sound.update (fun m => { m with rest := n' }) (fun _ => rfl) (fun _ => rfl) c
  · refine h.cleaned.update fun m' hm' hQ => ?_
    obtain rfl := Option.some.inj (hm.symm.trans hm')
    exact ⟨by rw [← hQ.1, ← hc], fun hx => absurd hx hr⟩
  · refine NconnPool.dataOf_update_same fun m' hm' => ?_
    obtain rfl := Option.some.inj (hm.symm.trans hm')
    exact hd

/-- A pass that keeps its session where it is. -/
lemma ran {ups : ℕ → Option (UpsSession σ)} {more : Bool} {subrs : ℕ → Option Subr} (h : t.Linked)
    (hf : t.ctl = .running f) (hn : t.conn f.nconn = some n) (hm : ConnMove l n n')
    (hups : Touched f n t.upsSessions ups) (hpass : Passes l f n n' more) :
    Linked { t.modifyConn f.nconn fun _ => n' with
      upsSessions := ups
      subrs := subrs
      ctl := if more then .running f else f.back } := by
  obtain ⟨hdata, hcan, hst⟩ := hm.kept
  have hfr := h.framed f hf
  obtain ⟨hs, hcl, hsame, hgone⟩ := h.modifyConn hn hfr.alive hdata hcan
  obtain ⟨hnc, htime⟩ := hups.links
  have hfresh : ∀ u, t.next ≤ u → ups u = none := fun u hu => hups.eq_none (h.fresh u hu)
  cases more with
  | true =>
      refine ⟨hs, hcl, ?_, hfresh, ?_⟩
      · have hties := h.ties
        rw [hf, ← hsame, ← hnc, ← htime, ← hgone] at hties
        exact hties
      · rintro g hg
        obtain rfl := Ctl.running.inj hg
        refine ⟨hfr.alive, fun hi => ?_, fun hi => ?_, fun hto => ?_, fun s hs => ?_⟩
        · exact (hfr.ups hi).trans (congrFun hsame f.nconn).symm
        · obtain ⟨h₁, h₂, h₃⟩ := hfr.idle hi
          refine ⟨h₁, h₂, fun m hm => ?_⟩
          have hm' := (conn_modifyConn_self (t := t) (c := f.nconn) fun _ => n').symm.trans hm
          rw [hn, Option.map_some] at hm'
          obtain rfl := Option.some.inj hm'
          exact hst (h₃ n hn)
        · exact fun u hu => (congrFun htime u).trans (hfr.timeout hto u hu)
        · obtain ⟨hmode, u, U, hu, hU, hsub⟩ := hfr.caller s hs
          obtain ⟨U', hU', hsub', -⟩ := hups.exists_some hU
          exact ⟨hmode, u, U', hu, hU', hsub'.trans hsub⟩
  | false =>
      have hidle : f.idle = false := by
        by_contra hi
        have hi : f.idle = true := by simpa using hi
        obtain ⟨h₁, h₂, h₃⟩ := hfr.idle hi
        exact hpass.parks rfl ⟨hi, h₂, h₃ n hn⟩ h₁
      refine ⟨hs, hcl, ?_, hfresh, fun g hg => absurd hg (f.back_quiet g)⟩
      have hties := h.ties
      rw [loose_running hf hidle, ← hsame, ← hnc, ← htime, ← hgone] at hties
      show Ties _ _ _ _ _ f.back.loose _
      rw [f.back_quiet.loose]
      exact hties

/-- `run_state_machine` is called for a connection that was not cleaned up. -/
lemma entered {mode : EvrMode} (h : t.Linked) (hq : t.ctl.Quiet) (hn : t.conn c = some n)
    (hc : n.cancelled = false)
    (hm : mode = .timeout → ∀ u, n.data = some u → evrTimeoutOf t.upsSessions u = none) :
    Linked { t with ctl := .running ⟨c, mode, n.data, false, none⟩ } := by
  obtain ⟨m, hm', rfl⟩ := Option.map_eq_some_iff.mp hn
  refine ⟨h.sound, h.cleaned, h.ties_quiet hq, h.fresh, ?_⟩
  rintro g hg
  obtain rfl := Ctl.running.inj hg
  refine ⟨fun hr => ?_, fun _ => (NconnPool.dataOf_eq hm').symm, fun hi => absurd hi (by simp),
    hm, fun s hs => absurd hs (by simp)⟩
  exact absurd (hc.symm.trans ((h.cleaned c m hm').1.mpr hr)) (by simp)

/-- The response is complete, and the connection is read until it is idle. -/
lemma idled {U U' : UpsSession σ} {S' : Subr} {ks : List (ℕ × Call σ)} (h : t.Linked)
    (hf : t.ctl = .running f) (hread : f.mode = .read) (hn : t.conn f.nconn = some n)
    (hst : n.state = .connected) (hu : f.ups = some u) (hU : t.upsSessions u = some U)
    (hb : Bare U U') :
    Linked (t.tornState t.nconnProxyPool u U U' s S' ks []
      (.running { f with ups := none, idle := true })) := by
  obtain ⟨hidle, hitem⟩ := h.attached hf hu
  have hties := h.ties
  rw [loose_running hf hidle] at hties
  refine ⟨h.sound, h.cleaned, ?_, ?_, ?_⟩
  · have hgive := hties.giveUp hitem
    rw [evrTimeoutOf_eq hU] at hgive
    show Ties _ _ (nconnOf (Function.update t.upsSessions u (some U')))
      (evrTimeoutOf (Function.update t.upsSessions u (some U'))) _ _ _
    rw [nconnOf_update, evrTimeoutOf_update, Option.bind_some, Option.bind_some, hb.nconn,
      hb.evrTimeout]
    exact hgive
  · intro v hv
    have huv : v ≠ u := by
      rintro rfl
      exact absurd (hU.symm.trans (h.fresh v hv)) (by simp)
    exact (Function.update_of_ne huv _ _).trans (h.fresh v hv)
  · rintro g hg
    obtain rfl := Ctl.running.inj hg
    refine ⟨(h.framed f hf).alive, fun hi => absurd hi (by simp), fun _ => ⟨rfl, hread, ?_⟩,
      fun hto => absurd (hread.symm.trans hto) (by simp), fun s hs => ?_⟩
    · intro m hm
      obtain rfl := Option.some.inj (hn.symm.trans hm)
      exact hst
    · rcases ((h.framed f hf).caller s hs).1 with hm | hm
      · exact absurd (hread.symm.trans hm) (by simp)
      · exact absurd (hread.symm.trans hm) (by simp)

/-- An idle connection goes to the LRU, and its data pointer is cleared. -/
lemma parked {p : NconnPool UpsConn} {ok : Bool} {subrs : ℕ → Option Subr} (h : t.Linked)
    (hf : t.ctl = .running f) (hi : f.idle = true) (hn : t.conn f.nconn = some n)
    (hm : ConnMove l n n')
    (hp : (t.modifyConn f.nconn fun _ => { n' with data := none }).nconnProxyPool.addIdle
      UpsConn.cls f.nconn = some (p, ok)) :
    Linked { t with nconnProxyPool := p, subrs := subrs, ctl := f.back } := by
  have hfr := h.framed f hf
  have hl : t.ctl.loose = some f.nconn := by
    rw [hf, Ctl.loose, hi]
    rfl
  obtain ⟨hact, hno⟩ := h.ties.isLoose _ hl
  obtain ⟨m, hm', rfl⟩ := Option.map_eq_some_iff.mp hn
  generalize hq : (t.modifyConn f.nconn fun _ => { n' with data := none }).nconnProxyPool = q at hp
  have hqs : q.Sound := by
    subst hq
    exact h.sound.update (fun m => { m with rest := { n' with data := none } }) (fun _ => rfl)
      (fun _ => rfl) _
  have hqc : q.Each Cleaned := by
    subst hq
    refine h.cleaned.update fun m' hm'' hQ => ?_
    obtain rfl := Option.some.inj (hm'.symm.trans hm'')
    exact ⟨by rw [← hQ.1, ← hm.kept.2.1], fun hx => absurd hx hfr.alive⟩
  have hqa : q.active = t.nconnProxyPool.active := by
    subst hq
    rfl
  have hqd : q.dataOf = Function.update t.nconnProxyPool.dataOf f.nconn none := by
    subst hq
    rw [NconnPool.dataOf_of_update (p := t.nconnProxyPool) (c := f.nconn) rfl, hm']
    rfl
  have hqg : q.Gone = t.nconnProxyPool.Gone := by
    subst hq
    exact NconnPool.gone_update
  have hqact : f.nconn ∈ q.active := hqa ▸ hact
  obtain ⟨hs, hpa, hwhere⟩ := hqs.addIdle hqact hp
  have hgone : ∀ d, t.nconnProxyPool.Gone d → p.Gone d := by
    intro d hd
    rw [← hqg] at hd
    rcases hwhere with ⟨-, -, -, hkept⟩ | ⟨l, e, -, -, -, hkept⟩
    · exact NconnPool.gone_of_kept hkept hd
    · exact NconnPool.gone_of_kept hkept hd
  refine ⟨hs, hqc.addIdle cleaned_ncCleanup hp, ?_, h.fresh, fun g hg => absurd hg (f.back_quiet g)⟩
  show Ties _ _ _ _ _ f.back.loose _
  have hmoved := NconnPool.dataOf_addIdle hqs hqact hp
  rw [f.back_quiet.loose, hpa, hqa]
  refine h.ties.drop (loose_eq hf) hno ?_ (fun d hd => ?_) hgone
  · rcases hmoved f.nconn with he | ⟨he, -⟩
    · rw [he, hqd, Function.update_self]
    · exact he
  · rcases hmoved d with he | ⟨he, hd'⟩
    · rw [hqd, Function.update_of_ne hd] at he
      exact .inl he
    · rw [hqa] at hd'
      exact .inr ⟨he, hd'.resolve_right hd⟩

/-- The idle timer of a connection that goes on is started again. -/
lemma rearmed {subrs : ℕ → Option Subr} (h : t.Linked) (hf : t.ctl = .running f)
    (hto : f.mode = .timeout) (hu : f.ups = some u) :
    Linked { t with
      timers := t.timers ++ [(t.next, f.nconn)]
      next := t.next + 1
      upsSessions := Function.update t.upsSessions u
        ((t.upsSessions u).map fun U => { U with evrTimeout := some t.next })
      subrs := subrs
      ctl := f.back } := by
  obtain ⟨hidle, hitem⟩ := h.attached hf hu
  obtain ⟨U, hU, hc⟩ := exists_of_nconnOf hitem
  have hties := h.ties
  rw [loose_running hf hidle] at hties
  refine ⟨h.sound, h.cleaned, ?_, ?_, fun g hg => absurd hg (f.back_quiet g)⟩
  · have harm := hties.arm hitem ((h.framed f hf).timeout hto u hu) t.next
    show Ties _ _ (nconnOf (Function.update t.upsSessions u _))
      (evrTimeoutOf (Function.update t.upsSessions u _)) _ f.back.loose _
    have hself : Function.update (nconnOf t.upsSessions) u U.nconn = nconnOf t.upsSessions :=
      Function.update_eq_self_iff.mpr (nconnOf_eq hU).symm
    rw [f.back_quiet.loose, nconnOf_update, evrTimeoutOf_update, hU, Option.map_some,
      Option.bind_some, Option.bind_some, hself]
    exact harm
  · intro v hv
    have hle : t.next ≤ v := Nat.le_of_succ_le hv
    have huv : v ≠ u := by
      rintro rfl
      exact absurd (hU.symm.trans (h.fresh v hle)) (by simp)
    exact (Function.update_of_ne huv _ _).trans (h.fresh v hle)

end Running

/-- A timer goes off. -/
lemma fired {e : ℕ} {n : UpsConn} {ctl : Ctl} (h : t.Linked) (hq : t.ctl.Quiet)
    (he : (e, c) ∈ t.timers) (hn : t.conn c = some n)
    (hctl : ctl = if n.cancelled then .between else .running ⟨c, .timeout, n.data, false, none⟩) :
    Linked { t with
      timers := t.timers.filter (·.1 ≠ e)
      upsSessions := n.data.elim t.upsSessions fun u =>
        Function.update t.upsSessions u
          ((t.upsSessions u).map fun U => { U with evrTimeout := none })
      ctl := ctl } := by
  have hties := h.ties_quiet hq
  obtain ⟨m, hm, rfl⟩ := Option.map_eq_some_iff.mp hn
  obtain ⟨u, hitem, htime⟩ := hties.isPending e c he
  obtain ⟨U, hU, -⟩ := exists_of_nconnOf hitem
  have hback : t.nconnProxyPool.dataOf c = some u := by
    refine (hties.pointsBack u c hitem).resolve_right fun hg => ?_
    exact absurd (hm.symm.trans hg) (by simp)
  have hdata : m.rest.data = some u := (NconnPool.dataOf_eq hm).symm.trans hback
  have hself : Function.update (nconnOf t.upsSessions) u U.nconn = nconnOf t.upsSessions :=
    Function.update_eq_self_iff.mpr (nconnOf_eq hU).symm
  have hbase : Linked { t with
      timers := t.timers.filter (·.1 ≠ e)
      upsSessions := Function.update t.upsSessions u (some { U with evrTimeout := none }) } := by
    refine ⟨h.sound, h.cleaned, ?_, fun v hv => ?_, fun g hg => absurd hg (hq g)⟩
    · show Ties _ _ (nconnOf (Function.update t.upsSessions u _))
        (evrTimeoutOf (Function.update t.upsSessions u _)) _ t.ctl.loose _
      rw [hq.loose, nconnOf_update, evrTimeoutOf_update, Option.bind_some, Option.bind_some, hself]
      exact hties.fire he hback
    · have huv : v ≠ u := by
        rintro rfl
        exact absurd (hU.symm.trans (h.fresh v hv)) (by simp)
      exact (Function.update_of_ne huv _ _).trans (h.fresh v hv)
  cases hcan : m.rest.cancelled with
  | true =>
      rw [hcan, if_pos rfl] at hctl
      subst hctl
      rw [hdata, Option.elim_some, hU, Option.map_some]
      exact hbase.same hq rfl rfl rfl le_rfl (Ctl.quiet_of_eq (.inl rfl))
  | false =>
      rw [hcan, if_neg (by simp)] at hctl
      subst hctl
      rw [hdata, Option.elim_some, hU, Option.map_some, ← hdata]
      refine hbase.entered hq hn hcan fun _ v hv => ?_
      obtain rfl := Option.some.inj (hdata.symm.trans hv)
      show evrTimeoutOf (Function.update t.upsSessions u _) u = none
      rw [evrTimeoutOf_update, Function.update_self, Option.bind_some]

/-- The connection that `subr_start` gets was not active. -/
lemma gotten {S : Subr} {p : NconnPool UpsConn} (h : t.Linked) (hp : Gotten t S c p) :
    p.Sound ∧ p.Each Cleaned ∧ p.active = insert c t.nconnProxyPool.active ∧
      p.dataOf = t.nconnProxyPool.dataOf ∧ c ∉ t.nconnProxyPool.active ∧
      ∀ d, d ≠ c → t.nconnProxyPool.Gone d → p.Gone d := by
  cases hp with
  | idle hget =>
      obtain ⟨hs, hc, hact, -, -, hn, -⟩ := h.sound.getIdle hget
      refine ⟨hs, h.cleaned.getIdle h.sound hget, hact, NconnPool.dataOf_congr hn,
        fun ha => h.sound.activeIdle c ha hc, fun d _ hd => ?_⟩
      rw [NconnPool.Gone, hn]
      exact hd
  | @new p hget =>
      obtain ⟨hs, rfl, hact, -, -, -, r, -, hn⟩ := h.sound.getNewActive hget
      have hkeep : ∀ n : UpsConn, (n.setTlsOpts S.conf.tlsOpts).data = n.data ∧
          (n.setTlsOpts S.conf.tlsOpts).cancelled = n.cancelled ∧
          (n.setTlsOpts S.conf.tlsOpts).state = n.state := by
        intro n
        unfold UpsConn.setTlsOpts
        split_ifs <;> exact ⟨rfl, rfl, rfl⟩
      refine ⟨?_, ?_, hact, ?_, (h.sound.fresh _ le_rfl).2.1, fun d hd hg => ?_⟩
      · exact hs.update (fun n => { n with rest := n.rest.setTlsOpts S.conf.tlsOpts })
          (fun _ => rfl) (fun _ => rfl) _
      · refine h.cleaned.getNewActive h.sound (fun _ => rfl) (fun r hr => ?_) hget
        obtain rfl := create_eq hr
        obtain ⟨-, hc, hst⟩ := hkeep (UpsConn.new S.conf.scheme)
        have hQ := cleaned_new t.nconnProxyPool.next S.conf.getLabel S.conf.scheme
        exact ⟨by rw [← hQ.1, ← hc], fun hr => hst.trans (hQ.2 hr)⟩
      · rw [NconnPool.dataOf_update_same fun n _ => (hkeep n.rest).1]
        exact NconnPool.dataOf_getNewActive h.sound hget
      · rw [NconnPool.gone_update, NconnPool.Gone, hn, Function.update_of_ne hd]
        exact hg

/-- `subr_start` attaches a new session to the connection it got. -/
lemma started {S : Subr} {p : NconnPool UpsConn} {rest : List (ℕ × Option ℕ)} {n : Nconn UpsConn}
    {request : Option ℕ} {ctl : Ctl} (h : t.Linked) (hq : t.ctl.Quiet) (hp : Gotten t S c p)
    (hn : p.nconns c = some n)
    (hctl : ctl = if n.rest.cancelled then .dequeuing
      else .running ⟨c, if request.isSome then .write else .error, some t.next, false, some s⟩) :
    Linked (t.startedState P p rest s S c request ctl) := by
  have hties := h.ties_quiet hq
  obtain ⟨hs, hcl, hact, hdata, hnot, hgone⟩ := h.gotten hp
  have hfresh := h.fresh t.next le_rfl
  have hnew : ∀ d, t.nconnProxyPool.dataOf d ≠ some t.next := by
    intro d hd
    obtain ⟨U, hU, -⟩ := exists_of_nconnOf (hties.item_eq hd)
    exact absurd (hfresh.symm.trans hU) (by simp)
  have hitem : nconnOf t.upsSessions t.next = none := by rw [nconnOf, hfresh, Option.bind_none]
  have hd' : ∀ ctl, (t.startedState P p rest s S c request ctl).nconnProxyPool.dataOf =
      Function.update p.dataOf c (some t.next) := by
    intro ctl
    refine (NconnPool.dataOf_of_update (p := p) (c := c) rfl).trans ?_
    rw [hn]
    rfl
  have hloose : ctl.loose = none := by
    rw [hctl]
    split_ifs <;> rfl
  refine ⟨?_, ?_, ?_, fun u hu => ?_, fun g hg => ?_⟩
  · exact hs.update (fun n => { n with rest := { n.rest with data := some t.next } })
      (fun _ => rfl) (fun _ => rfl) c
  · refine hcl.update fun m hm hQ => ?_
    exact hQ
  · have hatt := hties.attach hnot hitem hnew (request.map fun _ => t.next + 1) hgone
    show Ties p.active (NconnPool.dataOf _) (nconnOf (Function.update t.upsSessions t.next _))
      (evrTimeoutOf (Function.update t.upsSessions t.next _)) (t.timers ++ _) ctl.loose
      (p.update c fun n => { n with rest := { n.rest with data := some t.next } }).Gone
    rw [hd', nconnOf_update, evrTimeoutOf_update, Option.bind_some, Option.bind_some, hact, hdata,
      hloose, NconnPool.gone_update]
    cases request <;> exact hatt
  · have hu : t.next + 1 + request.toList.length ≤ u := hu
    have hne : u ≠ t.next := by omega
    have hle : t.next ≤ u := by omega
    exact (Function.update_of_ne hne _ _).trans (h.fresh u hle)
  · have hg : ctl = .running g := hg
    have hcan : ¬ n.rest.cancelled = true := by
      intro hcan
      rw [hctl, if_pos hcan] at hg
      exact absurd hg (by simp)
    rw [hctl, if_neg hcan] at hg
    obtain rfl := Ctl.running.inj hg
    refine ⟨fun hr => hcan ((hcl c n hn).1.mpr hr), fun _ => ?_, fun hi => absurd hi (by simp),
      fun hto => ?_, fun s' hs' => ?_⟩
    · show some t.next = NconnPool.dataOf _ c
      rw [hd', Function.update_self]
    · cases request <;> exact absurd hto (by simp)
    · obtain rfl := Option.some.inj hs'
      refine ⟨?_, t.next, _, rfl, Function.update_self _ _ _, rfl⟩
      cases request
      · exact .inr rfl
      · exact .inl rfl

/-- **Every step keeps sessions, connections and the pool in agreement.** -/
theorem step (h : t.Linked) (hd : Does P cf t l t') : t'.Linked := by
  cases hd with
  | enqueued _ hctl =>
      have hq : t.ctl.Quiet := Ctl.quiet_of_eq (.inl hctl)
      refine h.same hq rfl rfl rfl ?_ hq
      show t.next ≤ t.next + 1 + 1
      omega
  | paused hb ha => exact h.same (Ctl.quiet_of_eq hb) rfl rfl rfl le_rfl (Ctl.quiet_of_eq ha)
  | entered hctl hn hc hfd =>
      exact h.entered (Ctl.quiet_of_eq (.inl hctl)) hn hc fun hto => absurd hto hfd
  | dropped hctl _ =>
      have hq : t.ctl.Quiet := Ctl.quiet_of_eq (.inr hctl)
      exact h.same hq rfl rfl rfl le_rfl hq
  | requeued hctl _ _ =>
      exact h.same (Ctl.quiet_of_eq (.inr hctl)) rfl rfl rfl (Nat.le_succ _)
        (Ctl.quiet_of_eq (.inl rfl))
  | unstarted hctl _ _ _ =>
      have hq : t.ctl.Quiet := Ctl.quiet_of_eq (.inr hctl)
      exact h.same hq rfl rfl rfl (Nat.le_add_right _ _) hq
  | started hb _ _ hgot hn _ ha => exact h.started (Ctl.quiet_of_eq (.inr hb)) hgot hn ha
  | ran hctl hn hm hups hb => exact h.ran hctl hn hm hups hb
  | @tore f u U U' S S' p ks es hctl hu hU hS hp hb hi hwhy =>
      obtain ⟨hidle, hitem⟩ := h.attached hctl hu
      obtain ⟨V, hV, hc⟩ := exists_of_nconnOf hitem
      obtain rfl := Option.some.inj (hU.symm.trans hV)
      exact h.torn (loose_running hctl hidle) hU hc hp (x := some U') ⟨hb.nconn, hb.evrTimeout⟩ rfl
        rfl rfl rfl f.back_quiet
  | @released f p hctl hu hp =>
      have hn : ¬ t.nconnProxyPool.Gone f.nconn := by
        obtain ⟨n, hn, -⟩ := (h.sound.release hp).2.2.2.2
        exact fun hg => absurd (hn.symm.trans hg) (by simp)
      exact h.release hp h.ties (loose_eq hctl) (h.unused hctl hu hn) h.fresh rfl f.back_quiet
  | idled hctl hread hn hst hu hU _ hb _ _ => exact h.idled hctl hread hn hst hu hU hb
  | parked hctl hi hn hm hp => exact h.parked hctl hi hn hm hp
  | fired hb he hn ha => exact h.fired (Ctl.quiet_of_eq (.inl hb)) he hn ha
  | rearmed hctl hto hu => exact h.rearmed hctl hto hu
  | resolved hctl _ _ =>
      exact h.same (Ctl.quiet_of_eq hctl) rfl rfl rfl (Nat.le_succ _) (Ctl.quiet_of_eq hctl)
  | unresolved hctl _ _ =>
      exact h.same (Ctl.quiet_of_eq hctl) rfl rfl rfl le_rfl (Ctl.quiet_of_eq hctl)
  | lost _ hctl => exact h.same (Ctl.quiet_of_eq hctl) rfl rfl rfl le_rfl (Ctl.quiet_of_eq hctl)
  | left hb _ _ =>
      exact h.same (Ctl.quiet_of_eq (.inl hb)) rfl rfl rfl le_rfl fun f => by simp
  | cancelledNone hb _ _ how _ =>
      exact h.same (Ctl.quiet_of_eq (.inl hb)) rfl rfl rfl le_rfl
        (Ctl.quiet_of_deleting how.ctl)
  | cancelledQueued hb _ _ how =>
      exact h.same (Ctl.quiet_of_eq (.inl hb)) rfl rfl rfl le_rfl
        (Ctl.quiet_of_deleting how.ctl)
  | cancelledLookup _ hb _ _ how =>
      exact h.same (Ctl.quiet_of_eq (.inl hb)) rfl rfl rfl le_rfl
        (Ctl.quiet_of_deleting how.ctl)
  | cancelledLoose hb _ _ _ how =>
      exact h.same (Ctl.quiet_of_eq (.inl hb)) rfl rfl rfl le_rfl
        (Ctl.quiet_of_deleting how.ctl)
  | @cancelledActive s u c U U' S subrs ks p ctl hb _ _ _ hU hc hp hbare ha _ _ =>
      exact h.torn (Ctl.quiet_of_eq (.inl hb)).loose hU hc hp (x := some U')
        ⟨hbare.nconn, hbare.evrTimeout⟩ rfl rfl rfl rfl (Ctl.quiet_of_deleting ha)
  | deleted hctl _ _ =>
      refine h.same (fun f hf => ?_) rfl rfl rfl le_rfl (Ctl.quiet_of_eq (.inl rfl))
      exact absurd (hctl.symm.trans hf) (by simp)
  | @deletedUps s u S U p hctl _ _ hU hp =>
      have hq : t.ctl.Quiet := fun f hf => absurd (hctl.symm.trans hf) (by simp)
      have hq' : Ctl.between.Quiet := Ctl.quiet_of_eq (.inl rfl)
      cases hc : U.nconn with
      | some c =>
          exact h.torn hq.loose hU hc (hp.1 c hc) ⟨Option.bind_none _, Option.bind_none _⟩ rfl rfl
            rfl rfl hq'
      | none =>
          obtain rfl := hp.2 hc
          refine ⟨h.sound, h.cleaned, ?_, fun v hv => ?_, fun g hg => absurd hg (hq' g)⟩
          · have hitem : nconnOf t.upsSessions u = none := (nconnOf_eq hU).trans hc
            show Ties _ _ (nconnOf (Function.update t.upsSessions u none))
              (evrTimeoutOf (Function.update t.upsSessions u none)) _ none _
            have hself : Function.update (nconnOf t.upsSessions) u none = nconnOf t.upsSessions :=
              Function.update_eq_self_iff.mpr hitem.symm
            rw [nconnOf_update, evrTimeoutOf_update, Option.bind_none, Option.bind_none, hself]
            exact (h.ties_quiet hq).disarm hitem _
          · by_cases huv : v = u
            · subst huv
              exact Function.update_self _ _ _
            · exact (Function.update_of_ne huv _ _).trans (h.fresh v hv)
  | reaped hctl hp =>
      have hq : t.ctl.Quiet := Ctl.quiet_of_eq (.inl hctl)
      obtain ⟨hs, hact, -⟩ := h.sound.reap hp
      refine ⟨hs, h.cleaned.reap h.sound hp, ?_, h.fresh, fun g hg => absurd hg (hq g)⟩
      show Ties _ _ _ _ _ t.ctl.loose _
      rw [hact]
      refine h.ties.bury (fun d hd => ?_) (NconnPool.dataOf_reap h.sound hp)
      obtain ⟨-, -, -, -, hn⟩ := h.sound.reap hp
      rw [NconnPool.Gone, hn]
      show (if d ∈ t.nconnProxyPool.reapList then none else t.nconnProxyPool.nconns d) = none
      rw [hd, ite_self]

end Linked

lemma linked_of_reachable (h : (machine P cf).Reachable t) : t.Linked := by
  refine Machine.Reachable.invariant ?_ ?_ h
  · rintro t rfl
    exact linked_new cf
  · exact fun t l t' ht he => ht.step (does_of_step he)

/-! ## Sessions and subrequests after a step -/

/-- What a step leaves of a session: it may give its connection up, and only on a connected one is
anything written. -/
structure Stays (t : TSrvr σ) (U U' : UpsSession σ) : Prop where
  subr : U'.subr = U.subr
  nconn : ∀ c, U'.nconn = some c → U.nconn = some c
  resp : U'.nconn ≠ none → U.resp.isSome → U'.resp.isSome
  outQ : ∀ c, U'.nconn = some c → U'.outQ ≠ U.outQ → ∃ n, t.conn c = some n ∧ n.state = .connected

lemma stays_refl (U : UpsSession σ) : Stays t U U :=
  ⟨rfl, fun _ => id, fun _ => id, fun _ _ hne => absurd rfl hne⟩

lemma Bare.stays {U U' : UpsSession σ} (h : Bare U U') : Stays t U U' := by
  refine ⟨h.subr, fun c hc => ?_, fun hne => absurd h.nconn hne, fun c hc => ?_⟩
  · exact absurd (h.nconn.symm.trans hc) (by simp)
  · exact absurd (h.nconn.symm.trans hc) (by simp)

/-- A session was there before the step, or was just started. -/
lemma Does.session {U' : UpsSession σ} (hd : Does P cf t l t') (h : t.Linked)
    (hU' : t'.upsSessions u = some U') :
    (∃ U, t.upsSessions u = some U ∧ Stays t U U') ∨
      ∃ m s c rest S p request ctl, t.subrList = (m, some s) :: rest ∧ t.subrs s = some S ∧
        Gotten t S c p ∧ request ≠ some 0 ∧ u = t.next ∧
        t' = t.startedState P p rest s S c request ctl := by
  -- the step changes the session `v`
  have hone : ∀ {v : ℕ} {V V' : UpsSession σ}, t.upsSessions v = some V →
      Function.update t.upsSessions v (some V') u = some U' → Stays t V V' →
      ∃ U, t.upsSessions u = some U ∧ Stays t U U' := by
    intro v V V' hV hx hstay
    by_cases huv : u = v
    · subst huv
      rw [Function.update_self] at hx
      obtain rfl := Option.some.inj hx
      exact ⟨V, hV, hstay⟩
    · rw [Function.update_of_ne huv] at hx
      exact ⟨U', hx, stays_refl U'⟩
  -- only the timer of `v` changes
  have htimer : ∀ {v : ℕ} {x : Option ℕ}, Function.update t.upsSessions v
      ((t.upsSessions v).map fun U => { U with evrTimeout := x }) u = some U' →
      ∃ U, t.upsSessions u = some U ∧ Stays t U U' := by
    intro v x he
    cases hV : t.upsSessions v with
    | none =>
        rw [hV, Option.map_none, ← hV, Function.update_eq_self] at he
        exact ⟨U', he, stays_refl U'⟩
    | some V =>
        rw [hV, Option.map_some] at he
        exact hone hV he ⟨rfl, fun _ => id, fun _ => id, fun _ _ hne => absurd rfl hne⟩
  cases hd with
  | @started m s c rest S p n request ctl _ hfront hS hgot _ hline _ =>
      by_cases hu : u = t.next
      · exact .inr ⟨m, s, c, rest, S, p, request, ctl, hfront, hS, hgot, hline, hu, rfl⟩
      · exact .inl ⟨U', (Function.update_of_ne hu _ _).symm.trans hU', stays_refl U'⟩
  | @ran f n n' ups more ok hf hn _ hups _ =>
      left
      cases hups with
      | same => exact ⟨U', hU', stays_refl U'⟩
      | @one v V V' hv hst hV hsub hnc _ hresp =>
          refine hone hV hU' ⟨hsub, fun c hc => hnc.symm.trans hc, fun _ => hresp, fun c hc _ => ?_⟩
          have hitem := (h.attached hf hv).2
          rw [nconnOf_eq hV, ← hnc, hc] at hitem
          obtain rfl := Option.some.inj hitem
          exact ⟨n, hn, hst⟩
  | tore _ _ hU _ _ hb _ _ => exact .inl (hone hU hU' hb.stays)
  | idled _ _ _ _ _ hU _ hb _ _ => exact .inl (hone hU hU' hb.stays)
  | cancelledActive _ _ _ _ hU _ _ hb _ _ _ => exact .inl (hone hU hU' hb.stays)
  | @deletedUps s v S U p _ _ _ _ _ =>
      left
      by_cases huv : u = v
      · subst huv
        exact absurd ((Function.update_self _ _ _).symm.trans hU') (by simp)
      · exact ⟨U', (Function.update_of_ne huv _ _).symm.trans hU', stays_refl U'⟩
  | @fired e d n ctl _ _ _ _ =>
      left
      cases hdata : n.data with
      | none =>
          simp only [hdata] at hU'
          exact ⟨U', hU', stays_refl U'⟩
      | some v =>
          simp only [hdata] at hU'
          exact htimer hU'
  | rearmed _ _ _ => exact .inl (htimer hU')
  | _ => exact .inl ⟨U', hU', stays_refl U'⟩

lemma Does.next_le (hd : Does P cf t l t') : t.next ≤ t'.next := by
  cases hd with
  | enqueued _ _ =>
      show t.next ≤ t.next + 1 + 1
      omega
  | requeued _ _ _ => exact Nat.le_succ _
  | unstarted _ _ _ _ => exact Nat.le_add_right _ _
  | started _ _ _ _ _ _ _ =>
      show t.next ≤ t.next + 1 + _
      omega
  | rearmed _ _ _ => exact Nat.le_succ _
  | resolved _ _ _ => exact Nat.le_succ _
  | _ => exact le_rfl

/-- How a step leaves a subrequest: as it was but for its state, just enqueued, just started, or
with a new lookup job. -/
inductive SubrStep (t t' : TSrvr σ) (l : Label) (s : ℕ) (S' : Subr) : Prop where
  | kept {S : Subr} (mem : t.subrs s = some S) (kin : Kin S S')
  | enqueued (name : s = t.next) (label : l = .enqueue S'.conf) (lt : t.next < t'.next)
      (ups : S'.upsSession = none) (job : S'.lookupJob = none)
  | started {S : Subr} (mem : t.subrs s = some S) (conf : S'.conf = S.conf) (lt : t.next < t'.next)
      (ups : S'.upsSession = some t.next) (job : S'.lookupJob = S.lookupJob)
      (session : ∀ U, t'.upsSessions t.next = some U → U.subr = s)
  | looked {S : Subr} (mem : t.subrs s = some S) (conf : S'.conf = S.conf) (lt : t.next < t'.next)
      (ups : S'.upsSession = S.upsSession) (job : S'.lookupJob = some t.next)
      (jobs : ∀ r, (t.next, r) ∈ t'.jobs → (t.next, r) ∈ t.jobs ∨ r = s)

lemma Does.subrStep {S' : Subr} (hd : Does P cf t l t') (hS' : t'.subrs s = some S') :
    SubrStep t t' l s S' := by
  have hsame : Kins t.subrs t'.subrs → SubrStep t t' l s S' := by
    intro h
    obtain ⟨S, hS, hk⟩ := h s S' hS'
    exact .kept hS hk
  have hother : ∀ {r : ℕ} {x : Option Subr}, t'.subrs = Function.update t.subrs r x →
      (s = r → x = some S' → SubrStep t t' l s S') → SubrStep t t' l s S' := by
    intro r x hx hself
    rw [hx] at hS'
    by_cases hs : s = r
    · subst hs
      rw [Function.update_self] at hS'
      exact hself rfl hS'
    · rw [Function.update_of_ne hs] at hS'
      exact .kept hS' (kin_refl S')
  cases hd with
  | @enqueued conf hlab _ =>
      refine hother rfl fun hs he => ?_
      obtain rfl := Option.some.inj he
      refine .enqueued hs hlab ?_ rfl rfl
      show t.next < t.next + 1 + 1
      omega
  | requeued _ _ hS => exact hsame (kins_update hS ⟨rfl, rfl, .inl rfl⟩)
  | @unstarted m r k rest S state job js ks _ _ hS hwhy =>
      refine hother rfl fun hs he => ?_
      subst hs
      obtain rfl := Option.some.inj he
      cases hwhy with
      | noResolver _ => exact .kept hS ⟨rfl, rfl, .inl rfl⟩
      | syncFailed => exact .kept hS ⟨rfl, rfl, .inl rfl⟩
      | noHost _ => exact .kept hS ⟨rfl, rfl, .inl rfl⟩
      | queued _ =>
          refine .looked hS rfl (Nat.lt_succ_self _) rfl rfl fun r hr => ?_
          rcases List.mem_append.mp hr with hr | hr
          · exact .inl hr
          · exact .inr (Prod.mk.inj (List.mem_singleton.mp hr)).2
      | failed _ =>
          refine .looked hS rfl (Nat.lt_succ_self _) rfl rfl fun r hr => .inl ?_
          rwa [List.append_nil] at hr
      | error _ _ => exact .kept hS ⟨rfl, rfl, .inl rfl⟩
      | errorLeft _ _ _ => exact .kept hS ⟨rfl, rfl, .inl rfl⟩
  | @started m r c rest S p n request ctl _ _ hS _ _ _ _ =>
      refine hother rfl fun hs he => ?_
      subst hs
      obtain rfl := Option.some.inj he
      refine .started hS rfl ?_ rfl rfl fun U hU => ?_
      · show t.next < t.next + 1 + _
        omega
      · rw [startedState_session] at hU
        obtain rfl := Option.some.inj hU
        rfl
  | @ran f n n' ups more ok _ _ _ _ _ =>
      refine hsame ?_
      show Kins t.subrs (if more || !ok then t.subrs else f.activate t.subrs)
      split_ifs
      · exact kins_refl _
      · exact kins_activate f _
  | tore _ _ _ hS _ _ hi _ => exact hsame (kins_update hS hi.kin)
  | idled _ _ _ _ _ _ hS _ hi _ => exact hsame (kins_update hS hi.kin)
  | @parked f n n' p ok _ _ _ _ _ =>
      refine hsame ?_
      show Kins t.subrs (if ok then f.activate t.subrs else t.subrs)
      split_ifs
      · exact kins_activate f _
      · exact kins_refl _
  | rearmed _ _ _ => exact hsame (kins_activate _ _)
  | resolved _ _ hS => exact hsame (kins_update hS ⟨rfl, rfl, .inr rfl⟩)
  | unresolved _ _ hS => exact hsame (kins_update hS ⟨rfl, rfl, .inr rfl⟩)
  | cancelledNone _ hS _ how _ => exact hsame (kins_update hS how.idle.kin)
  | cancelledQueued _ hS _ how => exact hsame (kins_update hS how.idle.kin)
  | cancelledLookup _ _ hS _ how => exact hsame (kins_update hS how.idle.kin)
  | cancelledLoose _ hS _ _ how => exact hsame (kins_update hS how.idle.kin)
  | cancelledActive _ _ _ _ _ _ _ _ _ hkins _ => exact hsame hkins
  | deleted _ _ _ => exact hsame (kins_delete _ _)
  | deletedUps _ _ _ _ _ => exact hsame (kins_delete _ _)
  | _ => exact hsame (kins_refl _)

/-- A subrequest was there before the step, or was just enqueued. -/
lemma Does.subr {S' : Subr} (hd : Does P cf t l t') (hS' : t'.subrs s = some S') :
    (∃ S, t.subrs s = some S ∧ S'.conf = S.conf) ∨
      s = t.next ∧ l = .enqueue S'.conf ∧ t.next < t'.next := by
  cases hd.subrStep hS' with
  | kept hS hk => exact .inl ⟨_, hS, hk.conf⟩
  | enqueued hs hl hlt _ _ => exact .inr ⟨hs, hl, hlt⟩
  | started hS hc _ _ _ _ => exact .inl ⟨_, hS, hc⟩
  | looked hS hc _ _ _ _ => exact .inl ⟨_, hS, hc⟩

/-- The subrequests that are named are old. -/
structure Named (t : TSrvr σ) : Prop where
  subr : ∀ s S, t.subrs s = some S → s < t.next
  session : ∀ u U, t.upsSessions u = some U → U.subr < t.next

lemma Named.step (h : t.Named) (hl : t.Linked) (hd : Does P cf t l t') : t'.Named where
  subr := by
    intro s S' hS'
    rcases hd.subr hS' with ⟨S, hS, -⟩ | ⟨rfl, -, hlt⟩
    · exact (h.subr s S hS).trans_le hd.next_le
    · exact hlt
  session := by
    intro u U' hU'
    rcases hd.session hl hU' with
      ⟨U, hU, hstay⟩ | ⟨m, s, c, rest, S, p, r, ctl, -, hS, -, -, rfl, rfl⟩
    · rw [hstay.subr]
      exact (h.session u U hU).trans_le hd.next_le
    · rw [startedState_session] at hU'
      obtain rfl := Option.some.inj hU'
      exact (h.subr s S hS).trans_le hd.next_le

lemma named_of_reachable (h : (machine P cf).Reachable t) : t.Named := by
  refine (Machine.Reachable.invariant (P := fun t : TSrvr σ => t.Linked ∧ t.Named) ?_ ?_ h).2
  · rintro t rfl
    exact ⟨linked_new cf, fun s S hS => absurd hS (by simp [new]),
      fun u U hU => absurd hU (by simp [new])⟩
  · rintro t l t' ⟨hl, hn⟩ he
    exact ⟨hl.step (does_of_step he), hn.step hl (does_of_step he)⟩

/-! ## Connections -/

lemma dataOf_eq_conn {n : UpsConn} (hn : t.conn c = some n) :
    t.nconnProxyPool.dataOf c = n.data := by
  obtain ⟨m, hm, rfl⟩ := Option.map_eq_some_iff.mp hn
  exact NconnPool.dataOf_eq hm

lemma exists_conn {m : Nconn UpsConn} (hm : t.nconnProxyPool.nconns c = some m) :
    t.conn c = some m.rest := by
  rw [conn, hm, Option.map_some]

end TSrvr

end Is2
