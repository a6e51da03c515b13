import Is2.Srvr.UpsSteps

/-!
# What the steps of a server thread leave to do

The loops of `subr_dequeue` and of `run_state_machine` come to an end.  What is still to be done is
counted in `work`: the slots of `m_subr_list`, the jobs of the resolver, and the subrequest that is
being started.  A turn of `subr_dequeue` makes it less, unless no connection can be had for the
subrequest at the front (`Room`), and no other step makes it more.  A pass through `state_top` that
leads to another one brings the connection or its output on (`rank`).
-/

namespace Is2

namespace TSrvr

variable {σ : Type} {P : RespParser σ} {cf : TConf} {t t' : TSrvr σ} {f : Frame} {c s : ℕ}

/-! ## What is to be done -/

/-- The item of a subrequest that is being started: `subr_start` called `run_state_machine`. -/
def starting : Ctl → ℕ
  | .running f => if f.caller.isSome then 2 else 0
  | _ => 0

lemma starting_back : starting f.back = 0 := by
  unfold Frame.back
  cases f.caller <;> rfl

/-- The slots, the jobs and the subrequest that is being started.  A subrequest that is taken from
its slot may become a job. -/
def work (t : TSrvr σ) : ℕ := 4 * t.subrList.length + t.jobs.length + starting t.ctl

/-- The names of the timers. -/
def timerNames (t : TSrvr σ) : List ℕ := t.timers.map Prod.fst

lemma timerNames_filter {q : ℕ × ℕ → Bool} (h : t'.timers = t.timers.filter q) :
    t'.timerNames ⊆ t.timerNames := by
  rw [timerNames, timerNames, h]
  exact List.map_subset _ (List.filter_subset_self _)

/-- No slot, no job and no timer is new. -/
structure Leaves (t t' : TSrvr σ) : Prop where
  slots : t'.subrList.length = t.subrList.length
  jobs : t'.jobs.length ≤ t.jobs.length
  timers : t'.timerNames ⊆ t.timerNames

lemma leaves_of_eq (hs : t'.subrList = t.subrList) (hj : t'.jobs = t.jobs)
    (ht : t'.timers = t.timers) : Leaves t t' := by
  refine ⟨by rw [hs], by rw [hj], ?_⟩
  rw [timerNames, ht]
  exact List.Subset.refl _

lemma Leaves.work_le (h : Leaves t t') (hc : starting t'.ctl = 0) : t'.work ≤ t.work := by
  have hs := h.slots
  have hj := h.jobs
  unfold work
  omega

/-! ## Steps outside the loops -/

lemma step_dequeue (he : t.step P cf .dequeue = some t') :
    t.ctl = .between ∧ t' = { t with ctl := .dequeuing } := by
  cases hctl : t.ctl <;> simp only [step, hctl, reduceCtorEq] at he
  exact ⟨rfl, (Option.some.inj he).symm⟩

lemma enter_eq {mode : EvrMode} (he : t.enter c mode none = some t') :
    ∃ ctl, t' = { t with ctl := ctl } ∧ starting ctl = 0 := by
  obtain ⟨n, -, he⟩ := Option.bind_eq_some_iff.mp he
  obtain rfl := Option.some.inj he
  split_ifs
  · exact ⟨.between, finish_false _, rfl⟩
  · exact ⟨.between, finish_true _, rfl⟩
  · exact ⟨_, rfl, rfl⟩

/-- A timer fires. -/
lemma step_timeout {e : ℕ} (he : t.step P cf (.timeout e) = some t') :
    Leaves t t' ∧ starting t'.ctl = 0 := by
  cases hctl : t.ctl <;> simp only [step, hctl, reduceCtorEq] at he
  obtain ⟨⟨e', c⟩, -, he⟩ := Option.bind_eq_some_iff.mp he
  obtain ⟨n, -, he⟩ := Option.bind_eq_some_iff.mp he
  simp only at he
  split at he
  all_goals
    obtain ⟨ctl, rfl, hctl⟩ := enter_eq he
    exact ⟨⟨rfl, Nat.le_refl _, timerNames_filter rfl⟩, hctl⟩

/-- The session of a client is torn down. -/
lemma step_sessionTeardown (he : t.step P cf (.sessionTeardown s) = some t') :
    Leaves t t' ∧ starting t'.ctl = 0 := by
  have hd := does_of_step he
  cases hctl : t.ctl <;> simp only [step, hctl, reduceCtorEq] at he
  have hafter : t'.ctl = .deleting s := by
    obtain ⟨S, -, he⟩ := Option.bind_eq_some_iff.mp he
    split_ifs at he
    · obtain rfl := Option.some.inj he
      rfl
    · obtain ⟨t₂, -, rfl⟩ := Option.map_eq_some_iff.mp he
      rfl
  refine ⟨?_, by rw [hafter]; rfl⟩
  cases hd
  case left => exact leaves_of_eq rfl rfl rfl
  case cancelledNone => exact leaves_of_eq rfl rfl rfl
  case cancelledQueued => exact ⟨List.length_map _, Nat.le_refl _, List.Subset.refl _⟩
  case cancelledLookup => exact ⟨rfl, List.length_filter_le _ _, List.Subset.refl _⟩
  case cancelledLoose => exact leaves_of_eq rfl rfl rfl
  case cancelledActive => exact ⟨rfl, Nat.le_refl _, timerNames_filter rfl⟩
  case fired => exact ⟨rfl, Nat.le_refl _, timerNames_filter rfl⟩
  -- the other steps begin or end elsewhere
  all_goals simp_all

/-- `m_u` is deleted. -/
lemma step_delete (he : t.step P cf .delete = some t') : Leaves t t' ∧ starting t'.ctl = 0 := by
  have hd := does_of_step he
  cases hctl : t.ctl <;> simp only [step, hctl, reduceCtorEq] at he
  cases hd
  case deleted => exact ⟨leaves_of_eq rfl rfl rfl, rfl⟩
  case deletedUps => exact ⟨⟨rfl, Nat.le_refl _, timerNames_filter rfl⟩, rfl⟩
  all_goals simp_all

lemma length_jobs_lt {j : ℕ} (hj : j ∈ t.jobs.map Prod.fst) :
    (t.jobs.filter (·.1 ≠ j)).length < t.jobs.length := by
  obtain ⟨p, hp, rfl⟩ := List.mem_map.mp hj
  exact List.length_filter_lt_length_iff_exists.mpr ⟨p, hp, by simp⟩

/-- A job of the resolver ends without an address. -/
lemma step_resolved {j : ℕ} (hj : j ∈ t.jobs.map Prod.fst)
    (he : t.step P cf (.resolved j false) = some t') :
    Leaves t t' ∧ t'.jobs.length < t.jobs.length ∧ t'.ctl = t.ctl := by
  have hctl : t.ctl = .between ∨ t.ctl = .dequeuing := by
    cases hctl : t.ctl <;> simp [step, hctl] at he ⊢
  have he : t.adnsResolvedCb j false = some t' := by
    rcases hctl with hctl | hctl <;> simpa only [step, hctl] using he
  obtain ⟨⟨j', s⟩, -, he⟩ := Option.bind_eq_some_iff.mp he
  obtain ⟨S, -, he⟩ := Option.bind_eq_some_iff.mp he
  obtain rfl := Option.some.inj he
  have hlt := length_jobs_lt hj
  simp only [Bool.false_eq_true, if_false, call_eq]
  exact ⟨⟨rfl, hlt.le, List.Subset.refl _⟩, hlt, rfl⟩

lemma step_jobLost {j : ℕ} (hj : j ∈ t.jobs.map Prod.fst)
    (he : t.step P cf (.jobLost j) = some t') :
    Leaves t t' ∧ t'.jobs.length < t.jobs.length ∧ t'.ctl = t.ctl := by
  have hlt := length_jobs_lt hj
  cases hctl : t.ctl <;> simp only [step, hctl, reduceCtorEq] at he
  all_goals
    obtain rfl := Option.some.inj he
    exact ⟨⟨rfl, hlt.le, List.Subset.refl _⟩, hlt, rfl⟩

/-! ## A turn of `subr_dequeue` -/

/-- `subr_start` comes to `get_new_active`, for what the resolver answers. -/
def Resolves (cf : TConf) : Lookup → Prop
  | .fast => cf.nresolver = true
  | .syncOk => cf.nresolver = true ∧ cf.dnsUseSync = true
  | _ => False

instance (cf : TConf) : DecidablePred (Resolves cf)
  | .fast => inferInstanceAs (Decidable (_ = _))
  | .syncOk => inferInstanceAs (Decidable (_ ∧ _))
  | .syncFailed | .asyncQueued | .asyncFailed | .asyncError _ => inferInstanceAs (Decidable False)

/-- A connection can be had for a subrequest: one with its label is idle, or the active set is below
its maximum, or the lookup does not get that far; in the last two cases `get_active_available` must
not be zero, a difference that wraps around above the maximum. -/
def Room (cf : TConf) (t : TSrvr σ) (S : Subr) (i : TurnIn) : Prop :=
  (t.nconnProxyPool.idleConnLru.get S.conf.getLabel).isSome ∨
    t.nconnProxyPool.getActiveAvailable ≠ 0 ∧
      (t.nconnProxyPool.activeConnMapSize < t.nconnProxyPool.activeConnMapMaxSize ∨
        ¬ Resolves cf i.lookup)

instance (cf : TConf) (t : TSrvr σ) (S : Subr) (i : TurnIn) : Decidable (Room cf t S i) :=
  inferInstanceAs (Decidable (_ ∨ _ ∧ _))

/-- A subrequest was taken from its slot, and not put back: it is being started, or was handed to
the resolver, or it is given up. -/
structure Taken (t t' : TSrvr σ) : Prop where
  slots : t'.subrList = t.subrList
  jobs : t'.jobs.length ≤ t.jobs.length + 1
  starting : starting t'.ctl ≤ 2

lemma startOn_taken {S : Subr} {request : Option ℕ} (hS : (t.subrs s).isSome)
    (he : t.startOn P s S c request = some t') : Taken t t' := by
  obtain ⟨S₀, hS⟩ := Option.isSome_iff_exists.mp hS
  obtain ⟨n, -, -, rfl⟩ := startOn_eq_some hS he
  refine ⟨rfl, Nat.le_succ _, ?_⟩
  simp only
  split_ifs <;> simp [TSrvr.starting]

lemma startNew_taken {S : Subr} {request : Option ℕ} (hS : (t.subrs s).isSome)
    (hroom : t.nconnProxyPool.activeConnMapSize < t.nconnProxyPool.activeConnMapMaxSize)
    (he : t.startNew P s S request = some t') : Taken t t' := by
  obtain ⟨⟨p, o⟩, hget, he⟩ := Option.bind_eq_some_iff.mp he
  cases o with
  | some c =>
      have h := startOn_taken (by exact hS) he
      exact ⟨h.slots, h.jobs, h.starting⟩
  | none =>
      -- the active set is not full
      rw [NconnPool.getNewActive, if_neg (Nat.not_le.mpr hroom)] at hget
      obtain ⟨r, -, hget⟩ := Option.bind_eq_some_iff.mp hget
      obtain ⟨q, -, hget⟩ := Option.bind_eq_some_iff.mp hget
      cases hget

lemma lookupAsync_taken {S : Subr} {lookup : Lookup} (hctl : starting t.ctl = 0)
    (he : t.lookupAsync s S lookup = some t') : Taken t t' := by
  unfold lookupAsync at he
  split at he
  case h_1 =>
    split_ifs at he
    all_goals
      obtain rfl := Option.some.inj he
      refine ⟨rfl, ?_, by simp [modifySubr, hctl]⟩
      simp [modifySubr]
  case h_2 =>
    split_ifs at he
    obtain rfl := Option.some.inj he
    rw [call_eq]
    exact ⟨rfl, Nat.le_succ _, by simp [modifySubr, hctl]⟩
  case h_3 =>
    split_ifs at he
    all_goals
      obtain rfl := Option.some.inj he
      exact ⟨rfl, by simp, by simp [hctl]⟩
  case h_4 => cases he

/-- `subr_start` does not answer `STATUS_AGAIN` to a subrequest that has room. -/
lemma subrStart_taken {S : Subr} {i : TurnIn} (hS : (t.subrs s).isSome)
    (hctl : starting t.ctl = 0) (hroom : Room cf t S i)
    (he : t.subrStart P cf s S i = some t') : Taken t t' := by
  obtain ⟨⟨p, o⟩, hget, he⟩ := Option.bind_eq_some_iff.mp he
  cases o with
  | some c =>
      have h := startOn_taken (by exact hS) he
      exact ⟨h.slots, h.jobs, h.starting⟩
  | none =>
      have hnone : t.nconnProxyPool.idleConnLru.get S.conf.getLabel = none := by
        unfold NconnPool.getIdle at hget
        split at hget
        · assumption
        · obtain ⟨q, -, hget⟩ := Option.bind_eq_some_iff.mp hget
          cases hget
      obtain ⟨hav, hnew⟩ := hroom.resolve_left (by simp [hnone])
      have hself : Taken t t := ⟨rfl, Nat.le_succ _, by omega⟩
      simp only [startFresh, if_neg hav] at he
      split_ifs at he with hres hfast hsync
      · obtain rfl := Option.some.inj he
        exact hself
      · exact startNew_taken hS (hnew.resolve_right (by simp_all [Resolves])) he
      · split at he
        case h_1 hlook =>
          exact startNew_taken hS (hnew.resolve_right (by simp_all [Resolves])) he
        case h_2 =>
          obtain rfl := Option.some.inj he
          rw [call_eq]
          exact ⟨hself.slots, hself.jobs, hself.starting⟩
        case h_3 => cases he
      · exact lookupAsync_taken hctl he

/-- **A turn of `subr_dequeue`** ends the loop, or leaves less to do, if the subrequest that it
takes has room. -/
theorem step_turn {i : TurnIn} (he : t.step P cf (.turn i) = some t')
    (hroom : ∀ m s rest S, t.subrListSize ≠ 0 → i.stopped = false →
      t.subrList = (m, some s) :: rest → t.subrs s = some S → Room cf t S i) :
    (t.ctl = .dequeuing ∧ t' = { t with ctl := .between }) ∨ t'.work < t.work := by
  cases hctl : t.ctl <;> simp only [step, hctl, reduceCtorEq] at he
  unfold turn at he
  split_ifs at he with hend
  · exact .inl ⟨rfl, (Option.some.inj he).symm⟩
  right
  obtain ⟨hsize, hrun⟩ := not_or.mp hend
  split at he
  case h_1 => cases he
  case h_2 hl =>
    obtain rfl := Option.some.inj he
    simp only [work, hl, hctl, List.length_cons]
    omega
  case h_3 m s rest hl =>
    obtain ⟨S, hS, he⟩ := Option.bind_eq_some_iff.mp he
    rw [modifySubr_eq (by exact hS)] at he
    have hroom : Room cf (t.popped rest s S) S i :=
      hroom m s rest S hsize (by simpa using hrun) hl hS
    have h := subrStart_taken (t := t.popped rest s S) (by simp [popped])
      (by simp [popped, hctl, starting]) hroom he
    have hs := h.slots
    have hj := h.jobs
    have hc := h.starting
    simp only [popped] at hs hj
    simp only [work, hs, hl, hctl, List.length_cons, starting] at hc hj ⊢
    omega

/-- The subrequest `s` waits alone, in the slot `m`, and the pool is full. -/
structure Starved (t : TSrvr σ) (m s : ℕ) : Prop where
  list : t.subrList = [(m, some s)]
  size : t.subrListSize = 1
  slot : m < t.next
  noIdle : ∃ S, t.subrs s = some S ∧ t.nconnProxyPool.idleConnLru.get S.conf.getLabel = none
  full : t.nconnProxyPool.getActiveAvailable = 0

/-- A turn of `subr_dequeue` puts it back, into a new slot, and ends the loop. -/
lemma Starved.turn {m : ℕ} {i : TurnIn} (h : t.Starved m s) (hctl : t.ctl = .dequeuing)
    (hrun : i.stopped = false) :
    ∃ t', t.step P cf (.turn i) = some t' ∧ t'.Starved t.next s ∧ t'.ctl = .between ∧
      t'.calls = t.calls ∧ t'.timers = t.timers := by
  obtain ⟨S, hS, hnone⟩ := h.noIdle
  have hstep : t.step P cf (.turn i) = some ((t.popped [] s S).requeue s) := by
    simp only [step, hctl, TSrvr.turn, h.size, hrun, h.list, hS, Option.bind_eq_bind,
      Option.bind_some]
    rw [if_neg (by simp), modifySubr_eq (by exact hS)]
    simp only [subrStart, NconnPool.getIdle, hnone, Option.bind_some, startFresh, h.full, if_true]
    simp [popped, h.size, hctl]
  refine ⟨_, hstep, ?_⟩
  have hrequeue : (t.popped [] s S).requeue s =
      { t.popped [] s S with
        subrList := [(t.next, some s)]
        subrListSize := 1
        next := t.next + 1
        ctl := .between
        subrs := Function.update t.subrs s
          (some { S with state := .queued, iQ := some t.next }) } := by
    rw [requeue, subrEnqueue_eq (Function.update_self _ _ _)]
    simp [popped, h.size]
  rw [hrequeue]
  exact ⟨⟨rfl, rfl, Nat.lt_succ_self _, ⟨_, Function.update_self _ _ _, hnone⟩, h.full⟩, rfl, rfl,
    rfl⟩

/-! ## A pass through `state_top` -/

/-- How far a connection is from being connected. -/
def stateRank : NcState → ℕ
  | .free => 2
  | .connecting => 1
  | _ => 0

/-- The bytes of the request that are left. -/
def outLeft (t : TSrvr σ) (f : Frame) : ℕ :=
  ((f.ups.bind t.upsSessions).bind UpsSession.outQ).getD 0

/-- What `state_top` has to do before it returns. -/
def rank (t : TSrvr σ) (f : Frame) : ℕ :=
  ((t.conn f.nconn).elim 0 fun n => stateRank n.state) + t.outLeft f

lemma rank_eq {n : UpsConn} (hn : t.conn f.nconn = some n) :
    t.rank f = stateRank n.state + t.outLeft f := by
  rw [rank, hn, Option.elim_some]

lemma rank_modifyConn {n n' : UpsConn} (hn : t.conn f.nconn = some n) :
    (t.modifyConn f.nconn fun _ => n').rank f = stateRank n'.state + t.outLeft f := by
  rw [rank, conn_modifyConn_self, hn]
  rfl

lemma back_ne_running (g : Frame) : f.back ≠ .running g := by
  unfold Frame.back
  cases f.caller <;> simp

lemma finish_ctl (ok : Bool) : (t.finish f ok).ctl = f.back := by
  cases ok
  · rw [finish_false]
  · rw [finish_true]

lemma teardownDone_ctl {status : HttpStatus} (he : t.teardownDone f status = some t') :
    t'.ctl = f.back := by
  obtain ⟨t₁, -, rfl⟩ := Option.map_eq_some_iff.mp he
  exact finish_ctl false

lemma passAgain_ctl (he : t.passAgain f = some t') : t'.ctl = f.back := by
  unfold passAgain at he
  split_ifs at he
  · obtain ⟨r, -, rfl⟩ := Option.map_eq_some_iff.mp he
    exact finish_ctl _
  · obtain rfl := Option.some.inj he
    exact finish_ctl true

/-- A write that leads to another pass sent something. -/
lemma passWrite_rank_lt {n : UpsConn} {i : UpsConn.Send} (hn : t.conn f.nconn = some n)
    (hst : n.state = .connected) (hi : i ≠ .sent 0) (he : t.passWrite f n i = some t')
    (hmore : t'.ctl = .running f) : t'.rank f < t.rank f := by
  have hback := back_ne_running f (f := f)
  unfold passWrite at he
  split at he
  case h_1 =>
    obtain rfl := Option.some.inj he
    exact absurd ((finish_ctl true).symm.trans hmore) hback
  case h_2 u hu =>
    obtain ⟨U, hU, he⟩ := Option.bind_eq_some_iff.mp he
    split at he
    case h_1 =>
      obtain rfl := Option.some.inj he
      exact absurd ((finish_ctl true).symm.trans hmore) hback
    case h_2 =>
      obtain rfl := Option.some.inj he
      exact absurd ((finish_ctl true).symm.trans hmore) hback
    case h_3 left hleft hq =>
      simp only at he
      split at he
      case h_1 k hk =>
        obtain rfl := Option.some.inj he
        split_ifs at hmore ⊢ with hall
        · exact absurd ((finish_ctl true).symm.trans hmore) hback
        have hpos : 0 < k := by
          cases i with
          | sent k' =>
              obtain rfl : k' = k := by simpa [UpsConn.ncwrite] using hk
              exact Nat.pos_of_ne_zero fun h0 => hi (by rw [h0])
          | wouldBlock ok => cases ok <;> cases hk
          | wantRead => cases hk
          | failed => cases hk
        have hst' : (n.ncwrite i).1.state = .connected :=
          (UpsConn.keeps_ncwrite n i).state.trans hst
        have hold : t.rank f = left := by
          rw [rank_eq hn, hst, outLeft, hu, Option.bind_some, hU, Option.bind_some, hq]
          exact Nat.zero_add _
        have hnew : ((t.modifyConn f.nconn fun _ => (n.ncwrite i).1).modifyUps u
            fun U => { U with outQ := some (left - k) }).rank f = left - k := by
          have hconn : (t.modifyConn f.nconn fun _ => (n.ncwrite i).1).conn f.nconn =
              some (n.ncwrite i).1 := by
            rw [conn_modifyConn_self, hn]
            rfl
          rw [modifyUps_eq (by exact hU), rank_eq (by exact hconn), hst', outLeft, hu]
          simp [stateRank]
        rw [hold, hnew]
        have := Nat.pos_of_ne_zero hleft
        omega
      case h_2 => exact absurd ((passAgain_ctl he).symm.trans hmore) hback
      case h_3 => exact absurd ((teardownDone_ctl he).symm.trans hmore) hback

/-- A pass that leads to another one brings the connection on, or sent something. -/
lemma pass_rank_lt {i : PassIn} (hread : f.mode ≠ .read) (hi : i ≠ .write (.sent 0))
    (he : t.pass P cf f i = some t') (hmore : t'.ctl = .running f) : t'.rank f < t.rank f := by
  have hback := back_ne_running f (f := f)
  obtain ⟨n, hn, he⟩ := Option.bind_eq_some_iff.mp he
  have hfree : ∀ {j m}, n.ncsetup j = (m, true) → n.state = .free →
      (t.modifyConn f.nconn fun _ => { m with state := .connecting }).rank f < t.rank f := by
    intro j m _ hst
    rw [rank_modifyConn hn, rank_eq hn, hst]
    exact Nat.add_lt_add_right Nat.one_lt_two _
  split at he
  case h_1 => exact absurd ((teardownDone_ctl he).symm.trans hmore) hback
  case h_2 =>
    obtain rfl := Option.some.inj he
    exact absurd ((finish_ctl true).symm.trans hmore) hback
  case h_3 =>
    split at he
    · obtain rfl := Option.some.inj he
      exact absurd ((finish_ctl false).symm.trans hmore) hback
    · split_ifs at he
      · exact absurd ((teardownDone_ctl he).symm.trans hmore) hback
      · obtain rfl := Option.some.inj he
        exact absurd ((finish_ctl true).symm.trans hmore) hback
  case h_4 hmode _ _ => exact absurd hmode hread
  case h_5 hmode hst _ =>
    split at he
    case h_1 m hm =>
      obtain rfl := Option.some.inj he
      exact hfree hm hst
    case h_2 =>
      obtain rfl := Option.some.inj he
      exact absurd ((finish_ctl false).symm.trans hmore) hback
  case h_6 hmode _ _ => exact absurd hmode hread
  case h_7 hmode hst _ =>
    split at he
    case h_1 => exact absurd ((teardownDone_ctl he).symm.trans hmore) hback
    case h_2 =>
      split_ifs at he
      · obtain rfl := Option.some.inj he
        exact absurd ((finish_ctl true).symm.trans hmore) hback
      · obtain rfl := Option.some.inj he
        rw [rank_modifyConn hn, rank_eq hn, hst]
        exact Nat.add_lt_add_right Nat.one_pos _
  case h_8 hmode _ _ => exact absurd hmode hread
  case h_9 hst _ =>
    refine passWrite_rank_lt hn hst (fun h => hi ?_) he hmore
    rw [h]
  case h_10 => cases he

/-- An upstream session that was not active for too long gets no new timer. -/
lemma pass_expired (he : t.pass P cf f (.timeout true) = some t') :
    t'.timerNames ⊆ t.timerNames := by
  have hfinish : ∀ {t₁ : TSrvr σ} {ok : Bool}, t₁.timerNames ⊆ t.timerNames →
      (t₁.finish f ok).timerNames ⊆ t.timerNames := by
    intro t₁ ok h
    cases ok
    · rw [finish_false]
      exact h
    · rw [finish_true]
      exact h
  obtain ⟨n, -, he⟩ := Option.bind_eq_some_iff.mp he
  split at he
  case h_2 =>
    obtain rfl := Option.some.inj he
    exact hfinish (List.Subset.refl _)
  case h_3 expired _ hi _ =>
    obtain rfl : expired = true := (PassIn.timeout.inj hi).symm
    split at he
    case h_1 =>
      obtain rfl := Option.some.inj he
      exact hfinish (List.Subset.refl _)
    case h_2 u hu =>
      obtain ⟨t₁, ht₁, rfl⟩ := Option.map_eq_some_iff.mp he
      rw [hu] at ht₁
      obtain ⟨U, S, p, U', S', -, -, -, -, -, rfl⟩ := teardown_eq_some ht₁
      exact hfinish (timerNames_filter rfl)
  all_goals simp_all

/-- **A pass through `state_top`** that leads to another one changes nothing but the session and its
connection, and brings them on; no other pass makes slots or jobs, and only the timeout of a session
that was active makes a timer. -/
theorem step_pass {i : PassIn} (hctl : t.ctl = .running f) (hread : f.mode ≠ .read)
    (hi : i ≠ .write (.sent 0)) (he : t.step P cf (.pass i) = some t') :
    (t'.ctl = .running f ∧ t'.subrList = t.subrList ∧ t'.jobs = t.jobs ∧ t'.timers = t.timers ∧
      t'.calls = t.calls ∧ t'.rank f < t.rank f) ∨
    (t'.ctl = f.back ∧ t'.subrList = t.subrList ∧ t'.jobs = t.jobs ∧
      (t'.timerNames ⊆ t.timerNames ∨
        i ≠ .timeout true ∧ f.mode = .timeout ∧ t'.timers = t.timers ++ [(t.next, f.nconn)])) := by
  have hd := does_of_step he
  simp only [step, hctl] at he
  have hlt := pass_rank_lt hread hi he
  cases hd
  case ran g n n' ups more ok hg hn move touched pass =>
    obtain rfl := Ctl.running.inj (hctl.symm.trans hg)
    cases more with
    | true => exact .inl ⟨rfl, rfl, rfl, rfl, rfl, hlt rfl⟩
    | false => exact .inr ⟨rfl, rfl, rfl, .inl (List.Subset.refl _)⟩
  case tore g _ _ _ _ _ _ _ _ hg _ _ _ _ _ _ _ =>
    obtain rfl := Ctl.running.inj (hctl.symm.trans hg)
    exact .inr ⟨rfl, rfl, rfl, .inl (timerNames_filter rfl)⟩
  case released g _ hg _ _ =>
    obtain rfl := Ctl.running.inj (hctl.symm.trans hg)
    exact .inr ⟨rfl, rfl, rfl, .inl (List.Subset.refl _)⟩
  case parked g _ _ _ _ hg _ _ _ _ =>
    obtain rfl := Ctl.running.inj (hctl.symm.trans hg)
    exact .inr ⟨rfl, rfl, rfl, .inl (List.Subset.refl _)⟩
  case rearmed g u hg htimeout _ =>
    obtain rfl := Ctl.running.inj (hctl.symm.trans hg)
    refine .inr ⟨rfl, rfl, rfl, ?_⟩
    by_cases hexp : i = .timeout true
    · subst hexp
      exact .inl (pass_expired he)
    · exact .inr ⟨hexp, htimeout, rfl⟩
  all_goals simp_all

end TSrvr

end Is2
