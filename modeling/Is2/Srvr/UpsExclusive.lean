import Is2.Srvr.UpsConns

/-!
# Connections are used by one session

`add_idle` keeps 32 bits of the LRU id that a connection is filed under.  From the id `2 ^ 32` on,
`release` of an idle connection misses its entry, so that the connection is idle and on the reap
list at once; `get_idle` hands it out again, and `reap` deletes it under its new session.

As long as no event is handled on such a connection (`IdFits`), the places in the pool stay apart,
and every connection that a session uses exists and is its own (`upstream_connections_exclusive`).
-/

namespace Is2

namespace TSrvr

variable {σ : Type} {P : RespParser σ} {cf : TConf} {t t' : TSrvr σ} {l : Label} {u s c : ℕ}

/-- The call of `run_state_machine` that is going on. -/
def frame (t : TSrvr σ) : Option Frame :=
  match t.ctl with
  | .running f => some f
  | _ => none

lemma frame_eq {f : Frame} (hf : t.ctl = .running f) : t.frame = some f := by
  rw [frame, hf]

/-- The connection of the call that is going on, if it is in the LRU, has an id of 32 bits there. -/
def IdFits (t : TSrvr σ) : Prop :=
  ∀ f ∈ t.frame, ∀ item ∈ t.nconnProxyPool.idleConnLru.itemList, item.2 = f.nconn →
    item.1 < 2 ^ 32

instance (t : TSrvr σ) : Decidable t.IdFits :=
  inferInstanceAs (Decidable (∀ f ∈ t.frame, ∀ item ∈ t.nconnProxyPool.idleConnLru.itemList, _))

/-! ## The places in the pool stay apart -/

lemma Gotten.apart {S : Subr} {p : NconnPool UpsConn} (hp : Gotten t S c p) (hl : t.Linked)
    (h : t.nconnProxyPool.Apart) : p.Apart := by
  cases hp with
  | idle hget =>
      have hm : NconnPool.Moves UpsConn.cls t.nconnProxyPool p _ := hl.sound.moves_getIdle hget
      exact h.moves hl.sound hm (by simp)
  | new hget => exact (h.moves hl.sound (hl.sound.moves_getNewActive hget) (by simp)).update _

/-- A connection in its place was not cleaned up. -/
lemma not_cancelled {p : NconnPool UpsConn} {m : Nconn UpsConn} (hcl : p.Each Cleaned)
    (h : p.Apart) (hc : c ∈ p.active) (hm : p.nconns c = some m) : m.rest.cancelled = false := by
  by_contra hcan
  exact h.notMem c (.inl hc) ((hcl c m hm).1.mp (by simpa using hcan))

/-- The connection of a session is released. -/
lemma Linked.apart_release {p : NconnPool UpsConn} (hl : t.Linked) (h : t.nconnProxyPool.Apart)
    (hc : nconnOf t.upsSessions u = some c)
    (hp : t.nconnProxyPool.release UpsConn.cls c = some p) : p.Apart :=
  h.release hl.sound (hl.ties.isLive u c hc) hp

/-- **No connection is in two places**, if the LRU finds the idle ones that are released. -/
lemma Does.apart (hd : Does P cf t l t') (hl : t.Linked) (hfit : t.IdFits)
    (h : t.nconnProxyPool.Apart) : t'.nconnProxyPool.Apart := by
  cases hd with
  | started _ _ _ hgot _ _ _ => exact (hgot.apart hl h).update _
  | ran _ _ _ _ _ => exact h.update _
  | tore hf hu _ _ hp _ _ _ => exact hl.apart_release h (hl.attached hf hu).2 hp
  | @released f p hf hu hp =>
      refine h.moves hl.sound (hl.sound.moves_release hp) ?_
      rintro d hd
      obtain rfl := NconnPool.Op.release.inj hd
      exact ⟨hl.sound.found_of_lt (hfit f (frame_eq hf)), (hl.framed f hf).alive⟩
  | @parked f n n' p ok hf hi _ _ hp =>
      have hloose : t.ctl.loose = some f.nconn := by
        rw [hf, Ctl.loose, hi]
        rfl
      have hs : (t.modifyConn f.nconn fun _ => { n' with data := none }).nconnProxyPool.Sound :=
        hl.sound.update (fun m => { m with rest := { n' with data := none } }) (fun _ => rfl)
          (fun _ => rfl) _
      have hact := (hl.ties.isLoose _ hloose).1
      exact (h.update _).moves hs (hs.moves_addIdle hact hp) (by simp)
  | cancelledActive _ _ _ _ hU hc hp _ _ _ _ =>
      exact hl.apart_release h ((nconnOf_eq hU).trans hc) hp
  | @deletedUps s u S U p _ _ _ hU hp =>
      cases hc : U.nconn with
      | none =>
          obtain rfl := hp.2 hc
          exact h
      | some c => exact hl.apart_release h ((nconnOf_eq hU).trans hc) (hp.1 c hc)
  | reaped _ hp =>
      have hm : NconnPool.Moves UpsConn.cls t.nconnProxyPool _ .reap := hl.sound.moves_reap hp
      exact h.moves hl.sound hm (by simp)
  | _ => exact h

lemma apart_of_reachable {ok : TSrvr σ → Label → Prop} (hok : ∀ t l, ok t l → t.IdFits)
    (h : ((machine P cf).guarded ok).Reachable t) : t.nconnProxyPool.Apart := by
  induction h with
  | start hs =>
      obtain rfl := hs
      exact NconnPool.apart_new _ _
  | step hr hst ih =>
      exact (does_of_step hst.2).apart (linked_of_reachable hr.of_guarded) (hok _ _ hst.1) ih

/-! ## The result -/

/-- No two sessions use one connection; a connection that is used is active and points to its
session, and an idle one points to none and has no timer. -/
structure Exclusive (t : TSrvr σ) : Prop where
  distinct : ∀ u v U V, t.upsSessions u = some U → t.upsSessions v = some V → u ≠ v →
    U.nconn ≠ none → U.nconn ≠ V.nconn
  active : ∀ u U c, t.upsSessions u = some U → U.nconn = some c →
    c ∈ t.nconnProxyPool.active ∧ ∃ n, t.conn c = some n ∧ n.data = some u
  idle : ∀ c ∈ t.nconnProxyPool.idle,
    (∃ n, t.conn c = some n ∧ n.data = none) ∧ ∀ e, (e, c) ∉ t.timers

/-- The condition on a step: no event is handled on a connection that the LRU would not find. -/
def Fits (t : TSrvr σ) (_ : Label) : Prop := t.IdFits

instance (t : TSrvr σ) (l : Label) : Decidable (t.Fits l) := inferInstanceAs (Decidable t.IdFits)

/-- **Upstream connections are exclusive.**  Whatever the order of events, if none is handled on an
idle connection whose LRU id has more than 32 bits, every session has its connection for itself
between two of them. -/
theorem upstream_connections_exclusive (h : ((machine P cf).guarded Fits).Reachable t)
    (hb : t.ctl = .between) : t.Exclusive := by
  have hl := linked_of_reachable h.of_guarded
  have hap := apart_of_reachable (fun _ _ => id) h
  have hties := hl.ties_quiet (Ctl.quiet_of_eq (.inl hb))
  refine ⟨?_, ?_, ?_⟩
  · intro u v U V hU hV huv hne heq
    obtain ⟨c, hc⟩ := Option.ne_none_iff_exists'.mp hne
    exact huv (hties.inj ((nconnOf_eq hU).trans hc) ((nconnOf_eq hV).trans (heq ▸ hc)))
  · intro u U c hU hc
    have hitem := (nconnOf_eq hU).trans hc
    have hact := hties.isLive u c hitem
    obtain ⟨m, hm⟩ := Option.isSome_iff_exists.mp (hap.exists_of_held (.inl hact))
    refine ⟨hact, m.rest, exists_conn hm, ?_⟩
    rw [← dataOf_eq_conn (exists_conn hm)]
    exact (hties.pointsBack u c hitem).resolve_right fun hg => absurd (hm.symm.trans hg) (by simp)
  · intro c hc
    have hact : c ∉ t.nconnProxyPool.active := fun ha => hl.sound.activeIdle c ha hc
    obtain ⟨m, hm⟩ := Option.isSome_iff_exists.mp (hap.exists_of_held (.inr hc))
    refine ⟨⟨m.rest, exists_conn hm, ?_⟩, hties.notMem_pending hact⟩
    rw [← dataOf_eq_conn (exists_conn hm)]
    exact hties.back_eq_none hact

/-- Two subrequests: one is answered and its connection goes to the LRU, the other one is still
being written. -/
def parkedRun : List Label :=
  [.enqueue okSubr, .enqueue okSubr, .dequeue, .turn ⟨false, .fast, some 10⟩,
    .pass (.setup ⟨true, true, true⟩), .pass (.connect ⟨.connected true, .connected, true⟩),
    .pass (.write (.sent 10)), .turn ⟨false, .fast, some 10⟩,
    .pass (.setup ⟨true, true, true⟩), .pass (.connect ⟨.connected true, .connected, true⟩),
    .pass (.write (.sent 4)), .pass (.write (.wouldBlock true)), .turn ⟨false, .fast, some 10⟩,
    .fd 0 .read, .pass (.read (.data okResponse true)), .pass (.read .again)]

theorem upstream_connections_exclusive_parked :
    ∃ t : TSrvr (List UInt8), ((machine okParser okConf).guarded Fits).Reachable t ∧
      t.ctl = .between ∧ nconnOf t.upsSessions 6 = some 1 ∧ t.nconnProxyPool.idle = [0] ∧
      t.Exclusive := by
  have hrun : (parkedRun.foldlM (fun (t : TSrvr (List UInt8)) l =>
      if t.Fits l then t.step okParser okConf l else none) (new okConf)).map
        (fun t => (t.ctl, nconnOf t.upsSessions 6, t.nconnProxyPool.idle)) =
      some (.between, some 1, [0]) := by
    decide +kernel
  obtain ⟨t, ht, he⟩ := Option.map_eq_some_iff.mp hrun
  obtain ⟨hctl, hnc, hidle⟩ : t.ctl = .between ∧ nconnOf t.upsSessions 6 = some 1 ∧
      t.nconnProxyPool.idle = [0] := by simpa using he
  have hr : ((machine okParser okConf).guarded Fits).Reachable t :=
    Machine.Reachable.guarded_foldlM (fun _ _ _ he => he) rfl ht
  exact ⟨t, hr, hctl, hnc, hidle, upstream_connections_exclusive hr hctl⟩

/-! ## The ids run over -/

/-- The only connection of a thread, connected and used by `data`. -/
def onlyConn (data : Option ℕ) : UpsConn where
  scheme := .tcp
  state := .connected
  cancelled := false
  data := data
  mask := connectMask
  tcpState := .connected
  tlsState := .none
  opts := ⟨false, false, false, ""⟩
  sslVerify := .off
  validated := none

/-- The only connection waits in the LRU, under the id `k`. -/
structure Parked (k : ℕ) (t : TSrvr (List UInt8)) : Prop where
  reachable : (machine okParser okConf).Reachable t
  ctl : t.ctl = .between
  subrList : t.subrList = []
  subrListSize : t.subrListSize = 0
  timers : t.timers = []
  active : t.nconnProxyPool.activeConnMap = ∅
  reapList : t.nconnProxyPool.reapList = []
  item : t.nconnProxyPool.idleConnLru.itemList = [(k, 0)]
  maxEntries : t.nconnProxyPool.idleConnLru.maxEntries = 4096
  nextId : t.nconnProxyPool.idleConnLru.nextId = k + 1
  nconn : t.nconnProxyPool.nconns 0 = some ⟨okSubr.getLabel, k % 2 ^ 32, onlyConn none⟩

/-- The only connection, which was filed under `k`, is used by `u` for the subrequest `s`; `left`
bytes of the request are to be written. -/
structure Lent (k s u left : ℕ) (t : TSrvr (List UInt8)) : Prop where
  reachable : (machine okParser okConf).Reachable t
  subrList : t.subrList = []
  subrListSize : t.subrListSize = 0
  active : t.nconnProxyPool.activeConnMap = {(okSubr.getLabel, 0)}
  reapList : t.nconnProxyPool.reapList = []
  item : t.nconnProxyPool.idleConnLru.itemList = []
  maxEntries : t.nconnProxyPool.idleConnLru.maxEntries = 4096
  nextId : t.nconnProxyPool.idleConnLru.nextId = k + 1
  subr : ∃ S, t.subrs s = some S ∧ S.conf = okSubr
  session : ∃ e, t.timers = [(e, 0)] ∧
    t.upsSessions u = some ⟨s, some 0, some e, some [], some left, false, false⟩
  nconn : t.nconnProxyPool.nconns 0 = some ⟨okSubr.getLabel, k % 2 ^ 32, onlyConn (some u)⟩

section Overflow

variable {t : TSrvr (List UInt8)} {k : ℕ}

/-- A run goes on from a reachable state. -/
lemma exists_of_run {Q : TSrvr (List UInt8) → Prop} (ls : List Label)
    (h : (machine okParser okConf).Reachable t)
    (he : ∃ t', ls.foldlM (fun (t : TSrvr (List UInt8)) l => t.step okParser okConf l) t = some t' ∧
      ((machine okParser okConf).Reachable t' → Q t')) : ∃ t', Q t' := by
  obtain ⟨t', ht, hQ⟩ := he
  exact ⟨t', hQ (Machine.Reachable.foldlM (fun _ _ _ he => he) h ht)⟩

/-- One subrequest on a new connection. -/
def firstRun : List Label :=
  writtenRun [.sent 10] ++ [.turn ⟨false, .fast, none⟩, .fd 0 .read,
    .pass (.read (.data okResponse true)), .pass (.read .again)]

lemma exists_parked_zero : ∃ t, Parked 0 t := by
  have hrun : (firstRun.foldlM (fun (t : TSrvr (List UInt8)) l => t.step okParser okConf l)
      (new okConf)).map (fun t => decide (t.ctl = .between ∧ t.subrList = [] ∧
        t.subrListSize = 0 ∧ t.timers = [] ∧ t.nconnProxyPool.activeConnMap = ∅ ∧
        t.nconnProxyPool.reapList = [] ∧ t.nconnProxyPool.idleConnLru.itemList = [(0, 0)] ∧
        t.nconnProxyPool.idleConnLru.maxEntries = 4096 ∧
        t.nconnProxyPool.idleConnLru.nextId = 1 ∧
        t.nconnProxyPool.nconns 0 = some ⟨okSubr.getLabel, 0, onlyConn none⟩)) = some true := by
    decide +kernel
  obtain ⟨t, ht, he⟩ := Option.map_eq_some_iff.mp hrun
  obtain ⟨hctl, hlist, hsize, htimers, hact, hreap, hitem, hmax, hnext, hn⟩ := of_decide_eq_true he
  have hr : (machine okParser okConf).Reachable t :=
    Machine.Reachable.foldlM (fun _ _ _ he => he) (.start rfl) ht
  exact ⟨t, hr, hctl, hlist, hsize, htimers, hact, hreap, hitem, hmax, hnext, hn⟩

namespace Parked

lemma get (h : Parked k t) : t.nconnProxyPool.idleConnLru.get okSubr.getLabel =
    some (0, t.nconnProxyPool.idleConnLru.remove k) := by
  have hs := (linked_of_reachable h.reachable).sound
  exact hs.lru.get_single h.item (hs.filed k 0 _ (by simp [h.item]) h.nconn).2

/-- The connection is handed to the next subrequest. -/
lemma lent (h : Parked k t) : ∃ t' s u, Lent k s u 10 t' ∧
    t'.ctl = .running ⟨0, .write, some u, false, some s⟩ := by
  have hs := (linked_of_reachable h.reachable).sound
  refine exists_of_run [.enqueue okSubr, .dequeue, .turn ⟨false, .fast, some 10⟩] h.reachable ?_
  simp [List.foldlM, step, h.ctl, enqueue, subrEnqueue, modifySubr, turn, h.subrList,
    h.subrListSize, subrStart, NconnPool.getIdle, h.get, NconnPool.addActive, h.nconn, startOn,
    modifyConn, addEvrTimer, enter, modifyUps, conn, NconnPool.update, onlyConn]
  intro hr
  refine ⟨hr, rfl, rfl, ?_, h.reapList, ?_, ?_, ?_, ?_, ?_, ?_⟩
  · simp [h.active]
  · simp [hs.lru.remove_itemList, h.item]
  · simp [h.maxEntries]
  · simp [h.nextId]
  · exact ⟨_, Function.update_self _ _ _, rfl⟩
  · exact ⟨_, by rw [h.timers]; rfl, Function.update_self _ _ _⟩
  · simp [onlyConn]

end Parked

namespace Lent

variable {s u : ℕ}

/-- The request is written, and the connection becomes readable. -/
lemma written (h : Lent k s u 10 t) (hctl : t.ctl = .running ⟨0, .write, some u, false, some s⟩) :
    ∃ t', Lent k s u 0 t' ∧ t'.ctl = .running ⟨0, .read, some u, false, none⟩ := by
  obtain ⟨S, hS, hconf⟩ := h.subr
  obtain ⟨e, htimers, hU⟩ := h.session
  refine exists_of_run [.pass (.write (.sent 10)), .turn ⟨false, .fast, none⟩, .fd 0 .read]
    h.reachable ?_
  simp [List.foldlM, step, hctl, pass, conn, h.nconn, passWrite, hU, UpsConn.ncwrite, onlyConn,
    modifyConn, modifyUps, finish, turn, h.subrListSize, enter, NconnPool.update, modifySubr, hS]
  intro hr
  refine ⟨hr, h.subrList, rfl, h.active, h.reapList, h.item, h.maxEntries, h.nextId, ?_, ?_, ?_⟩
  · exact ⟨_, Function.update_self _ _ _, hconf⟩
  · exact ⟨e, htimers, Function.update_self _ _ _⟩
  · simp [onlyConn]

/-- The response is read, and the connection goes to the LRU under the next id. -/
lemma parked (h : Lent k s u 0 t) (hctl : t.ctl = .running ⟨0, .read, some u, false, none⟩) :
    ∃ t', Parked (k + 1) t' := by
  obtain ⟨S, hS, hconf⟩ := h.subr
  obtain ⟨e, htimers, hU⟩ := h.session
  have hset : S.conf.u = some .proxy ∧ S.conf.keepalive = true ∧ S.conf.completionCb = true := by
    rw [hconf]
    exact ⟨rfl, rfl, rfl⟩
  have hsize : t.nconnProxyPool.idleConnLru.itemListSize = 0 := by
    rw [(linked_of_reachable h.reachable).sound.lru.size, h.item, List.length_nil]
  have hne : okResponse ≠ [] := by decide
  refine exists_of_run [.pass (.read (.data okResponse true)), .pass (.read .again)]
    h.reachable ?_
  simp [List.foldlM, step, hctl, pass, conn, h.nconn, passRead, hne, readData, hU, hS, okParser,
    onlyConn, modifyConn, modifyUps, finish, h.subrListSize, NconnPool.update, modifySubr, complete,
    hset, TConf.canReuse, okConf, cancelEvrTimer, call, passAgain, NconnPool.addIdle,
    NconnPool.removeActive, h.active, Nlru.insert, hsize, Nlru.pushFront, h.maxEntries,
    NconnPool.deleteCb]
  intro hr
  refine ⟨hr, rfl, h.subrList, rfl, ?_, rfl, h.reapList, ?_, rfl, ?_, ?_⟩
  · simp [htimers]
  · simp [h.item, h.nextId]
  · simp [h.nextId]
  · simp [h.nextId, onlyConn]

end Lent

/-- Every request on the connection takes an id. -/
lemma exists_parked (k : ℕ) : ∃ t, Parked k t := by
  induction k with
  | zero => exact exists_parked_zero
  | succ k ih =>
      obtain ⟨t, ht⟩ := ih
      obtain ⟨t₁, s, u, ht₁, hctl₁⟩ := ht.lent
      obtain ⟨t₂, ht₂, hctl₂⟩ := ht₁.written hctl₁
      exact ht₂.parked hctl₂

/-- The upstream closes the connection, which stays in the LRU. -/
lemma Parked.closed (h : Parked (2 ^ 32) t) : ∃ t',
    (machine okParser okConf).Reachable t' ∧ t'.ctl = .between ∧ t'.subrList = [] ∧
      t'.subrListSize = 0 ∧ t'.nconnProxyPool.reapList = [0] ∧
      t'.nconnProxyPool.idleConnLru = t.nconnProxyPool.idleConnLru ∧
      t'.nconnProxyPool.nconns 0 = some ⟨okSubr.getLabel, 0, (onlyConn none).ncCleanup⟩ := by
  have hs := (linked_of_reachable h.reachable).sound
  have hsize : t.nconnProxyPool.idleConnLru.itemListSize = 1 := by
    rw [hs.lru.size, h.item, List.length_singleton]
  have hn : t.nconnProxyPool.nconns 0 = some ⟨okSubr.getLabel, 0, onlyConn none⟩ := h.nconn
  -- it was filed under `2 ^ 32`, and the id it has is 0
  have hmiss : t.nconnProxyPool.idleConnLru.remove 0 = t.nconnProxyPool.idleConnLru :=
    hs.lru.remove_of_notMem (by simp [Nlru.ids, h.item])
  refine exists_of_run [.fd 0 .read, .pass (.read .eof)] h.reachable ?_
  simp [List.foldlM, step, h.ctl, enter, conn, hn, onlyConn, pass, passRead, teardownDone,
    teardown, modifyConn, release, NconnPool.release, NconnPool.update, NconnPool.removeActive,
    h.active, NconnPool.removeIdle, hsize, hmiss, NconnPool.cleanup, finish, UpsConn.cls,
    UpsConn.ncCleanup, h.subrList, h.subrListSize, h.reapList]

/-- The next subrequest gets the connection, and then it is deleted. -/
lemma Parked.orphaned (h : Parked (2 ^ 32) t) :
    ∃ t' u U, (machine okParser okConf).Reachable t' ∧ t'.ctl = .between ∧
      t'.upsSessions u = some U ∧ U.nconn = some 0 ∧ t'.conn 0 = none := by
  obtain ⟨t₁, hr, hctl, hlist, hsize, hreap, hlru, hn⟩ := h.closed
  refine exists_of_run [.enqueue okSubr, .dequeue, .turn ⟨false, .fast, some 10⟩,
    .turn ⟨true, .fast, none⟩, .reap] hr ?_
  simp [List.foldlM, step, hctl, enter, conn, hn, onlyConn, modifyConn, NconnPool.update, finish,
    UpsConn.ncCleanup, enqueue, subrEnqueue, modifySubr, turn, hlist, hsize, subrStart,
    NconnPool.getIdle, NconnPool.addActive, hlru, h.get, startOn, addEvrTimer, modifyUps,
    NconnPool.reap, hreap]
  intro hr
  exact ⟨hr, _, _, Function.update_self _ _ _, rfl⟩

end Overflow

/-- After `2 ^ 32` more requests on one connection, its end leaves it in the LRU: a session is given
a connection that is about to be deleted. -/
theorem session_on_deleted_connection :
    ¬ ∀ t : TSrvr (List UInt8), (machine okParser okConf).Reachable t → t.ctl = .between →
      t.Exclusive := by
  intro hall
  obtain ⟨t, ht⟩ := exists_parked (2 ^ 32)
  obtain ⟨t', u, U, hr, hctl, hU, hc, hnone⟩ := ht.orphaned
  obtain ⟨-, n, hn, -⟩ := (hall t' hr hctl).active u U 0 hU hc
  exact absurd (hnone.symm.trans hn) (by simp)

end TSrvr

end Is2
