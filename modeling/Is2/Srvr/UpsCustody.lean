import Is2.Core.Custody
import Is2.Srvr.UpsLinks

/-!
# Where a subrequest is

A subrequest waits in a slot of `m_subr_list`, waits for the resolver, or is with a session that has
a connection.  `Owned` says that it is in at most one of these places, what its state is then, and
that it is in none of them once a callback was called.  The moves between the places are those of
`Custody`.

`Owned.step` also says what becomes of a subrequest that leaves its place (`Tracks`): a callback was
called, or it was dropped for one of the reasons that `Gone` lists.
-/

namespace Is2

namespace TSrvr

variable {σ : Type} {P : RespParser σ} {cf : TConf} {t t' : TSrvr σ} {l : Label} {u s c : ℕ}

/-! ## Names -/

/-- The size of the list and the names in use. -/
structure Books (t : TSrvr σ) : Prop where
  size : t.subrListSize = t.subrList.length
  slot : ∀ p ∈ t.subrList, p.1 < t.next
  job : ∀ p ∈ t.jobs, p.1 < t.next
  upsSession : ∀ s S u, t.subrs s = some S → S.upsSession = some u →
    u < t.next ∧ ∀ U, t.upsSessions u = some U → U.subr = s
  lookupJob : ∀ s S j, t.subrs s = some S → S.lookupJob = some j →
    j < t.next ∧ ∀ r, (j, r) ∈ t.jobs → r = s

lemma Does.jobs (hd : Does P cf t l t') {p : ℕ × ℕ} (hp : p ∈ t'.jobs) :
    p ∈ t.jobs ∨ p.1 = t.next ∧ t.next < t'.next := by
  cases hd with
  | @unstarted m r k rest S state job js ks _ _ _ hwhy =>
      rcases List.mem_append.mp hp with hold | hnew
      · exact .inl hold
      · cases hwhy with
        | queued _ => exact .inr ⟨by rw [List.mem_singleton.mp hnew], Nat.lt_succ_self _⟩
        | errorLeft _ _ _ => exact .inr ⟨by rw [List.mem_singleton.mp hnew], Nat.lt_succ_self _⟩
        | _ => exact absurd hnew (by simp)
  | resolved _ _ _ => exact .inl (List.mem_of_mem_filter hp)
  | unresolved _ _ _ => exact .inl (List.mem_of_mem_filter hp)
  | lost _ _ => exact .inl (List.mem_of_mem_filter hp)
  | cancelledLookup _ _ _ _ _ => exact .inl (List.mem_of_mem_filter hp)
  | _ => exact .inl hp

lemma Does.slots (hd : Does P cf t l t') (hsize : t.subrListSize = t.subrList.length) :
    t'.subrListSize = t'.subrList.length ∧
      ∀ p ∈ t'.subrList, (∃ q ∈ t.subrList, q.1 = p.1) ∨ p.1 < t'.next := by
  have hpush : ∀ {list : List (ℕ × Option ℕ)} {n : ℕ} {x : Option ℕ}, (∀ q ∈ list, q ∈ t.subrList) →
      n < t'.next → ∀ p ∈ list ++ [(n, x)], (∃ q ∈ t.subrList, q.1 = p.1) ∨ p.1 < t'.next := by
    intro list n x hlist hn p hp
    rcases List.mem_append.mp hp with hp | hp
    · exact .inl ⟨p, hlist p hp, rfl⟩
    · rw [List.mem_singleton.mp hp]
      exact .inr hn
  have hself : ∀ p ∈ t.subrList, (∃ q ∈ t.subrList, q.1 = p.1) ∨ p.1 < t'.next :=
    fun p hp => .inl ⟨p, hp, rfl⟩
  have htail : ∀ {a : ℕ × Option ℕ} {rest : List (ℕ × Option ℕ)}, t.subrList = a :: rest →
      t.subrListSize - 1 = rest.length ∧ ∀ q ∈ rest, q ∈ t.subrList := by
    intro a rest hfront
    rw [hsize, hfront]
    exact ⟨rfl, fun q hq => List.mem_cons_of_mem _ hq⟩
  cases hd with
  | enqueued _ _ =>
      refine ⟨?_, hpush (fun q hq => hq) ?_⟩
      · show t.subrListSize + 1 = _
        rw [hsize, List.length_append]
        rfl
      · show t.next + 1 < t.next + 1 + 1
        omega
  | dropped _ hfront =>
      obtain ⟨hlen, hmem⟩ := htail hfront
      exact ⟨hlen, fun p hp => .inl ⟨p, hmem p hp, rfl⟩⟩
  | requeued _ hfront _ =>
      obtain ⟨hlen, hmem⟩ := htail hfront
      refine ⟨?_, hpush hmem (Nat.lt_succ_self _)⟩
      show t.subrListSize - 1 + 1 = _
      rw [hlen, List.length_append]
      rfl
  | unstarted _ hfront _ _ =>
      obtain ⟨hlen, hmem⟩ := htail hfront
      exact ⟨hlen, fun p hp => .inl ⟨p, hmem p hp, rfl⟩⟩
  | started _ hfront _ _ _ _ _ =>
      obtain ⟨hlen, hmem⟩ := htail hfront
      exact ⟨hlen, fun p hp => .inl ⟨p, hmem p hp, rfl⟩⟩
  | resolved _ _ _ =>
      refine ⟨?_, hpush (fun q hq => hq) (Nat.lt_succ_self _)⟩
      show t.subrListSize + 1 = _
      rw [hsize, List.length_append]
      rfl
  | cancelledQueued _ _ _ _ =>
      refine ⟨hsize.trans (List.length_map _).symm, fun p hp => ?_⟩
      obtain ⟨q, hq, rfl⟩ := List.mem_map.mp hp
      exact .inl ⟨q, hq, rfl⟩
  | _ => exact ⟨hsize, hself⟩

lemma Books.step (h : t.Books) (hl : t.Linked) (hd : Does P cf t l t') : t'.Books := by
  obtain ⟨hsize, hslots⟩ := hd.slots h.size
  have hle := hd.next_le
  -- a session that was there works for the same subrequest
  have hups : ∀ {r v : ℕ}, v < t.next ∧ (∀ U, t.upsSessions v = some U → U.subr = r) →
      v < t'.next ∧ ∀ U, t'.upsSessions v = some U → U.subr = r := by
    rintro r v ⟨hv, hU⟩
    refine ⟨hv.trans_le hle, fun U' hU' => ?_⟩
    rcases hd.session hl hU' with ⟨U, hU₀, hstay⟩ | ⟨_, _, _, _, _, _, _, _, -, -, -, -, rfl, -⟩
    · exact hstay.subr.trans (hU U hU₀)
    · exact absurd hv (lt_irrefl _)
  -- a job that was there is about the same subrequest
  have hjobs : ∀ {r j : ℕ}, j < t.next ∧ (∀ q, (j, q) ∈ t.jobs → q = r) →
      j < t'.next ∧ ∀ q, (j, q) ∈ t'.jobs → q = r := by
    rintro r j ⟨hj, hr⟩
    refine ⟨hj.trans_le hle, fun q hq => ?_⟩
    rcases hd.jobs hq with hq | ⟨rfl, -⟩
    · exact hr q hq
    · exact absurd hj (lt_irrefl _)
  refine ⟨hsize, fun p hp => ?_, fun p hp => ?_, fun s S' v hS' hv => ?_, fun s S' j hS' hj => ?_⟩
  · rcases hslots p hp with ⟨q, hq, he⟩ | hlt
    · rw [← he]
      exact (h.slot q hq).trans_le hle
    · exact hlt
  · rcases hd.jobs hp with hp | ⟨he, hlt⟩
    · exact (h.job p hp).trans_le hle
    · rw [he]
      exact hlt
  · cases hd.subrStep hS' with
    | kept hS hk => exact hups (h.upsSession s _ v hS (hk.upsSession.symm.trans hv))
    | enqueued _ _ _ hnone _ => exact absurd (hnone.symm.trans hv) (by simp)
    | started _ _ hlt hsome _ hsess =>
        obtain rfl := Option.some.inj (hsome.symm.trans hv)
        exact ⟨hlt, hsess⟩
    | looked hS _ _ hsame _ _ => exact hups (h.upsSession s _ v hS (hsame.symm.trans hv))
  · cases hd.subrStep hS' with
    | kept hS hk =>
        rcases hk.lookupJob with hsame | hnone
        · exact hjobs (h.lookupJob s _ j hS (hsame.symm.trans hj))
        · exact absurd (hnone.symm.trans hj) (by simp)
    | enqueued _ _ _ _ hnone => exact absurd (hnone.symm.trans hj) (by simp)
    | started hS _ _ _ hsame _ => exact hjobs (h.lookupJob s _ j hS (hsame.symm.trans hj))
    | looked _ _ hlt _ hsome hnew =>
        obtain rfl := Option.some.inj (hsome.symm.trans hj)
        refine ⟨hlt, fun r hr => ?_⟩
        rcases hnew r hr with hr | rfl
        · exact absurd (h.job _ hr) (lt_irrefl _)
        · rfl

/-! ## Places -/

/-- The subrequest of a session that has a connection. -/
def holds (ups : ℕ → Option (UpsSession σ)) (u : ℕ) : Option ℕ :=
  (ups u).bind fun U => U.nconn.map fun _ => U.subr

lemma holds_update (ups : ℕ → Option (UpsSession σ)) (u : ℕ) (x : Option (UpsSession σ)) :
    holds (Function.update ups u x) =
      Function.update (holds ups) u (x.bind fun U => U.nconn.map fun _ => U.subr) :=
  Function.comp_update
    (fun x : Option (UpsSession σ) => x.bind fun U => U.nconn.map fun _ => U.subr) ups u x

lemma holds_eq {U : UpsSession σ} (hU : t.upsSessions u = some U) (hc : U.nconn = some c) :
    holds t.upsSessions u = some U.subr := by
  rw [holds, hU, Option.bind_some, hc, Option.map_some]

lemma exists_of_holds (h : holds t.upsSessions u = some s) :
    ∃ U c, t.upsSessions u = some U ∧ U.subr = s ∧ U.nconn = some c := by
  obtain ⟨U, hU, h⟩ := Option.bind_eq_some_iff.mp h
  obtain ⟨c, hc, rfl⟩ := Option.map_eq_some_iff.mp h
  exact ⟨U, c, hU, rfl, hc⟩

/-- A change of a session that keeps its subrequest and its connection. -/
lemma holds_same {ups : ℕ → Option (UpsSession σ)} {U U' : UpsSession σ} (hU : ups u = some U)
    (hs : U'.subr = U.subr) (hc : U'.nconn = U.nconn) :
    holds (Function.update ups u (some U')) = holds ups := by
  rw [holds_update, Function.update_eq_self_iff, Option.bind_some, hs, hc, holds, hU,
    Option.bind_some]

lemma holds_timer (ups : ℕ → Option (UpsSession σ)) (u : ℕ) (x : Option ℕ) :
    holds (Function.update ups u ((ups u).map fun U => { U with evrTimeout := x })) =
      holds ups := by
  cases hU : ups u with
  | none => rw [Option.map_none, ← hU, Function.update_eq_self]
  | some U =>
      rw [Option.map_some]
      exact holds_same hU rfl rfl

lemma Touched.holds {f : Frame} {n : UpsConn} {ups ups' : ℕ → Option (UpsSession σ)}
    (h : Touched f n ups ups') : holds ups' = TSrvr.holds ups := by
  cases h with
  | same => rfl
  | one _ _ hU hs hc _ _ => exact holds_same hU hs hc

/-- What the state of a subrequest has to do with its place. -/
inductive Settled (S : Subr) : Option (Place ℕ) → Prop where
  | out (state : S.state = .none ∨ S.state = .dnsLookup) : Settled S none
  | slot {n : ℕ} (state : S.state = .queued) (iQ : S.iQ = some n) : Settled S (some (.slot n))
  | job {j : ℕ} (state : S.state = .none ∨ S.state = .dnsLookup ∧ S.lookupJob = some j)
      (host : S.conf.host ≠ "") : Settled S (some (.job j))
  | session {u : ℕ} (state : S.state = .none ∨ S.state = .active) (ups : S.upsSession = some u) :
      Settled S (some (.holder u))

/-- Every subrequest is in the place that `π` gives for it, and in none once it was answered. -/
structure Owned (t : TSrvr σ) (π : ℕ → Option (Place ℕ)) : Prop where
  custody : Custody t.subrList t.jobs (holds t.upsSessions) π
  settled : ∀ s S, t.subrs s = some S → Settled S (π s)
  answered : ∀ p ∈ t.calls, π p.1 = none
  fresh : ∀ s, t.next ≤ s → π s = none ∧ ∀ p ∈ t.calls, p.1 ≠ s

lemma owned_new (cf : TConf) : (new cf : TSrvr σ).Owned fun _ => none where
  custody := by constructor <;> simp [new, holds]
  settled := fun s S hS => absurd hS (by simp [new])
  answered := fun p hp => absurd hp (by simp [new])
  fresh := fun _ _ => ⟨rfl, fun p hp => absurd hp (by simp [new])⟩

/-- A callback of the subrequest was called, if it has both. -/
def Answered (t : TSrvr σ) (s : ℕ) (S : Subr) : Prop :=
  S.conf.completionCb = true → S.conf.errorCb = true → ∃ p ∈ t.calls, p.1 = s

lemma fst_of_mem_called {b : Bool} {k : Call σ} {p : ℕ × Call σ} (hp : p ∈ called s b k) :
    p.1 = s := by
  unfold called at hp
  split_ifs at hp
  · rw [List.mem_singleton.mp hp]
  · exact absurd hp (by simp)

lemma answered_of_errorCb {S : Subr} {k : Call σ}
    (h : t'.calls = t.calls ++ called s S.conf.errorCb k) : Answered t' s S := by
  intro _ he
  refine ⟨(s, k), ?_, rfl⟩
  rw [h, he]
  exact List.mem_append_right _ List.mem_cons_self

lemma answered_of_completionCb {S : Subr} {k : Call σ}
    (h : t'.calls = t.calls ++ called s S.conf.completionCb k) : Answered t' s S := by
  intro hc _
  refine ⟨(s, k), ?_, rfl⟩
  rw [h, hc]
  exact List.mem_append_right _ List.mem_cons_self

/-- Why a subrequest that was not answered is in no place, or waits for a job in the wrong state. -/
inductive Gone (P : RespParser σ) (cf : TConf) (t : TSrvr σ) (l : Label) (S : Subr) : Prop where
  | noResolver (resolver : cf.nresolver = false)
  | noHost (host : S.conf.host = "")
  | lookupError {i : TurnIn} {jobLeft : Bool} (label : l = .turn i)
      (lookup : i.lookup = .asyncError jobLeft)
  | eofLate {u c : ℕ} {U : UpsSession σ} (mem : t.upsSessions u = some U) (nconn : U.nconn = some c)
      (resp : U.resp = none)
  | writeFailed {f : Frame} {n : UpsConn} {i : UpsConn.Send} (label : l = .pass (.write i))
      (ctl : t.ctl = .running f) (conn : t.conn f.nconn = some n)
      (status : (n.ncwrite i).2 = .status .error)
  | jobLost {j : ℕ} (label : l = .jobLost j)

/-- What becomes of the subrequests in a step. -/
structure Tracks (P : RespParser σ) (cf : TConf) (t : TSrvr σ) (l : Label) (t' : TSrvr σ)
    (π π' : ℕ → Option (Place ℕ)) : Prop where
  place : ∀ s S', t'.subrs s = some S' → π' s = none →
    (∃ S, t.subrs s = some S ∧ S'.conf = S.conf ∧ π s = none) ∨ Answered t' s S' ∨
      Gone P cf t l S'
  job : ∀ s S' j, t'.subrs s = some S' → π' s = some (.job j) → S'.state = .dnsLookup ∨
    (∃ S, t.subrs s = some S ∧ π s = some (.job j) ∧ S.state ≠ .dnsLookup) ∨ Gone P cf t l S'

/-- What is asked of a subrequest that a step moves to `x`. -/
structure Lands (P : RespParser σ) (cf : TConf) (t : TSrvr σ) (l : Label) (t' : TSrvr σ) (s : ℕ)
    (S' : Subr) (x : Option (Place ℕ)) : Prop where
  settled : Settled S' x
  out : x = none → Answered t' s S' ∨ Gone P cf t l S'
  job : ∀ j, x = some (.job j) → S'.state = .dnsLookup ∨ Gone P cf t l S'

namespace Owned

variable {π : ℕ → Option (Place ℕ)} {S S' : Subr}

lemma unanswered (h : t.Owned π) (hs : π s ≠ none) : ∀ p ∈ t.calls, p.1 ≠ s := by
  rintro p hp rfl
  exact hs (h.answered p hp)

lemma lt_next (h : t.Owned π) (hs : π s ≠ none) : s < t.next := by
  by_contra hge
  exact hs (h.fresh s (not_lt.mp hge)).1

/-- A step after which everything is where it was. -/
lemma same (h : t.Owned π) (hc : Custody t'.subrList t'.jobs (holds t'.upsSessions) π)
    (hcalls : t'.calls = t.calls) (hnext : t.next ≤ t'.next)
    (hsubrs : ∀ s S', t'.subrs s = some S' → ∃ S, t.subrs s = some S ∧ S'.conf = S.conf ∧
      Settled S' (π s) ∧ ∀ j, π s = some (.job j) → S'.state = S.state) :
    t'.Owned π ∧ Tracks P cf t l t' π π := by
  refine ⟨⟨hc, ?_, ?_, ?_⟩, ?_, ?_⟩
  · intro s S' hS'
    obtain ⟨S, -, -, hset, -⟩ := hsubrs s S' hS'
    exact hset
  · rw [hcalls]
    exact h.answered
  · rw [hcalls]
    exact fun s hs => h.fresh s (hnext.trans hs)
  · intro s S' hS' hπ
    obtain ⟨S, hS, hconf, -⟩ := hsubrs s S' hS'
    exact .inl ⟨S, hS, hconf, hπ⟩
  · intro s S' j hS' hπ
    obtain ⟨S, hS, -, -, hst⟩ := hsubrs s S' hS'
    by_cases hdns : S'.state = .dnsLookup
    · exact .inl hdns
    · exact .inr (.inl ⟨S, hS, hπ, by rwa [← hst j hπ]⟩)

/-- Subrequests that a step leaves alone. -/
lemma still (h : t.Owned π) {S' : Subr} (hS' : t.subrs s = some S') :
    ∃ S, t.subrs s = some S ∧ S'.conf = S.conf ∧ Settled S' (π s) ∧
      ∀ j, π s = some (.job j) → S'.state = S.state :=
  ⟨S', hS', rfl, h.settled s S' hS', fun _ _ => rfl⟩

/-- A step that moves `s` to `x`. -/
lemma moved {x : Option (Place ℕ)} (h : t.Owned π)
    (hc : Custody t'.subrList t'.jobs (holds t'.upsSessions) (Function.update π s x))
    (hother : ∀ r, r ≠ s → t'.subrs r = t.subrs r)
    (hcalls : ∀ p ∈ t'.calls, p ∈ t.calls ∨ p.1 = s)
    (hx : x = none ∨ t'.calls = t.calls ∧ ∀ p ∈ t.calls, p.1 ≠ s) (hnext : t.next ≤ t'.next)
    (hs : s < t'.next) (hself : ∀ S', t'.subrs s = some S' → Lands P cf t l t' s S' x) :
    t'.Owned (Function.update π s x) ∧ Tracks P cf t l t' π (Function.update π s x) := by
  refine ⟨⟨hc, ?_, ?_, ?_⟩, ?_, ?_⟩
  · intro r R' hR'
    by_cases hr : r = s
    · subst hr
      rw [Function.update_self]
      exact (hself R' hR').settled
    · rw [Function.update_of_ne hr]
      exact h.settled r R' ((hother r hr).symm.trans hR')
  · intro p hp
    by_cases hps : p.1 = s
    · rw [hps, Function.update_self]
      rcases hx with hx | ⟨hsame, hne⟩
      · exact hx
      · exact absurd hps (hne p (hsame ▸ hp))
    · rw [Function.update_of_ne hps]
      exact h.answered p ((hcalls p hp).resolve_right hps)
  · intro r hr
    have hrs : r ≠ s := (hs.trans_le hr).ne'
    rw [Function.update_of_ne hrs]
    refine ⟨(h.fresh r (hnext.trans hr)).1, fun p hp => ?_⟩
    rcases hcalls p hp with hp | hps
    · exact (h.fresh r (hnext.trans hr)).2 p hp
    · rw [hps]
      exact hrs.symm
  · intro r R' hR' hπ
    by_cases hr : r = s
    · subst hr
      rw [Function.update_self] at hπ
      exact .inr ((hself R' hR').out hπ)
    · rw [Function.update_of_ne hr] at hπ
      exact .inl ⟨R', (hother r hr).symm.trans hR', rfl, hπ⟩
  · intro r R' j hR' hπ
    by_cases hr : r = s
    · subst hr
      rw [Function.update_self] at hπ
      exact ((hself R' hR').job j hπ).elim .inl fun hg => .inr (.inr hg)
    · rw [Function.update_of_ne hr] at hπ
      by_cases hdns : R'.state = .dnsLookup
      · exact .inl hdns
      · exact .inr (.inl ⟨R', (hother r hr).symm.trans hR', hπ, hdns⟩)

/-- A step that takes `s` from its place. -/
lemma leaves {ks : List (ℕ × Call σ)} (h : t.Owned π) (hn : t.Named)
    (hc : Custody t'.subrList t'.jobs (holds t'.upsSessions) (Function.update π s none))
    (hS : t.subrs s = some S) (hsubrs : t'.subrs = Function.update t.subrs s (some S'))
    (hcalls : t'.calls = t.calls ++ ks) (hks : ∀ p ∈ ks, p.1 = s) (hnext : t.next ≤ t'.next)
    (hst : S'.state = .none ∨ S'.state = .dnsLookup) (hwhy : Answered t' s S' ∨ Gone P cf t l S') :
    t'.Owned (Function.update π s none) ∧ Tracks P cf t l t' π (Function.update π s none) := by
  refine h.moved hc ?_ ?_ (.inl rfl) hnext ((hn.subr s S hS).trans_le hnext) ?_
  · intro r hr
    rw [hsubrs, Function.update_of_ne hr]
  · intro p hp
    rw [hcalls] at hp
    exact (List.mem_append.mp hp).imp_right (hks p)
  · intro R' hR'
    rw [hsubrs, Function.update_self] at hR'
    obtain rfl := Option.some.inj hR'
    exact ⟨.out hst, fun _ => hwhy, fun j hj => absurd hj (by simp)⟩

/-- A step that puts `s` in a place. -/
lemma arrives {x : Place ℕ} (h : t.Owned π)
    (hc : Custody t'.subrList t'.jobs (holds t'.upsSessions) (Function.update π s (some x)))
    (hsubrs : t'.subrs = Function.update t.subrs s (some S')) (hcalls : t'.calls = t.calls)
    (hun : ∀ p ∈ t.calls, p.1 ≠ s) (hnext : t.next ≤ t'.next) (hs : s < t'.next)
    (hset : Settled S' (some x))
    (hjob : ∀ j, x = .job j → S'.state = .dnsLookup ∨ Gone P cf t l S') :
    t'.Owned (Function.update π s (some x)) ∧
      Tracks P cf t l t' π (Function.update π s (some x)) := by
  refine h.moved hc ?_ ?_ (.inr ⟨hcalls, hun⟩) hnext hs ?_
  · intro r hr
    rw [hsubrs, Function.update_of_ne hr]
  · intro p hp
    exact .inl (hcalls ▸ hp)
  · intro R' hR'
    rw [hsubrs, Function.update_self] at hR'
    obtain rfl := Option.some.inj hR'
    exact ⟨hset, fun hx => absurd hx (by simp), fun j hj => hjob j (Option.some.inj hj)⟩

/-- The subrequest that is made active is with its session. -/
lemma activate (h : t.Owned π) (hl : t.Linked) {f : Frame} (hf : t.ctl = .running f)
    (hS' : f.activate t.subrs s = some S') :
    ∃ S, t.subrs s = some S ∧ S'.conf = S.conf ∧ Settled S' (π s) ∧
      ∀ j, π s = some (.job j) → S'.state = S.state := by
  cases hr : f.caller with
  | none =>
      rw [Frame.activate, hr] at hS'
      exact h.still hS'
  | some r =>
      simp only [Frame.activate, hr] at hS'
      by_cases hs : s = r
      · subst hs
        rw [Function.update_self] at hS'
        obtain ⟨S, hS, rfl⟩ := Option.map_eq_some_iff.mp hS'
        obtain ⟨-, u, U, hu, hU, rfl⟩ := (hl.framed f hf).caller s hr
        have hc := (hl.attached hf hu).2
        rw [nconnOf_eq hU] at hc
        have hπ := (h.custody.held_iff U.subr u).mp (holds_eq hU hc)
        have hset := h.settled _ S hS
        rw [hπ] at hset ⊢
        cases hset with
        | session _ hups =>
            exact ⟨S, hS, rfl, .session (.inr rfl) hups, fun j hj => absurd hj (by simp)⟩
      · rw [Function.update_of_ne hs] at hS'
        exact h.still hS'

/-- A session gives up its connection. -/
lemma held (h : t.Owned π) (hl : t.Linked) {f : Frame} (hf : t.ctl = .running f)
    (hu : f.ups = some u) {U U' : UpsSession σ} (hU : t.upsSessions u = some U) (hb : Bare U U') :
    U.nconn = some f.nconn ∧
      Custody t.subrList t.jobs (holds (Function.update t.upsSessions u (some U')))
        (Function.update π U.subr none) := by
  have hc := (hl.attached hf hu).2
  rw [nconnOf_eq hU] at hc
  refine ⟨hc, ?_⟩
  rw [holds_update, Option.bind_some, hb.nconn, Option.map_none]
  exact h.custody.release (holds_eq hU hc)

lemma placed_of_frame (h : t.Owned π) (hl : t.Linked) {f : Frame} (hf : t.ctl = .running f)
    (hu : f.ups = some u) {U : UpsSession σ} (hU : t.upsSessions u = some U) : π U.subr ≠ none := by
  have hc := (hl.attached hf hu).2
  rw [nconnOf_eq hU] at hc
  rw [(h.custody.held_iff _ _).mp (holds_eq hU hc)]
  simp

/-- A turn of `subr_dequeue` that does not start the subrequest. -/
lemma unstarted {m k : ℕ} {rest : List (ℕ × Option ℕ)} {state : SubrState} {job : Option ℕ}
    {js : List (ℕ × ℕ)} {ks : List (ℕ × Call σ)} (h : t.Owned π) (hn : t.Named) (hb : t.Books)
    (hfront : t.subrList = (m, some s) :: rest) (hS : t.subrs s = some S)
    (hwhy : Unstarted cf l s S t.next state job js ks k)
    (ht' : t' = { t with
      subrList := rest
      subrListSize := t.subrListSize - 1
      subrs := Function.update t.subrs s
        (some { S with state := state, iQ := none, lookupJob := job })
      jobs := t.jobs ++ js
      calls := t.calls ++ ks
      next := t.next + k }) :
    ∃ π', t'.Owned π' ∧ Tracks P cf t l t' π π' := by
  subst ht'
  have hcust := h.custody
  rw [hfront] at hcust
  have hpop := hcust.pop
  have hun := h.unanswered (s := s)
    (by rw [(hcust.slot_iff s m).mp List.mem_cons_self]; simp)
  have hs := hn.subr s S hS
  have hjob : ∀ p ∈ t.jobs, p.1 ≠ t.next := fun p hp => (hb.job p hp).ne
  have hadd := hpop.add (Function.update_self s none π) hjob
  rw [Function.update_idem] at hadd
  cases hwhy with
  | noResolver hr =>
      exact ⟨_, h.leaves hn (by simpa using hpop) hS rfl rfl (by simp) le_rfl (.inl rfl)
        (.inr (.noResolver hr))⟩
  | syncFailed =>
      exact ⟨_, h.leaves hn (by simpa using hpop) hS rfl rfl (fun p => fst_of_mem_called) le_rfl
        (.inl rfl) (.inl (answered_of_errorCb rfl))⟩
  | noHost hh =>
      exact ⟨_, h.leaves hn (by simpa using hpop) hS rfl rfl (by simp) le_rfl (.inr rfl)
        (.inr (.noHost hh))⟩
  | queued hh =>
      exact ⟨_, h.arrives hadd rfl (List.append_nil _) hun (Nat.le_succ _)
        (Nat.lt_succ_of_lt hs) (.job (.inr ⟨rfl, rfl⟩) hh) fun _ _ => .inl rfl⟩
  | failed hh =>
      exact ⟨_, h.leaves hn (by simpa using hpop) hS rfl rfl (fun p => fst_of_mem_called)
        (Nat.le_succ _) (.inr rfl) (.inl (answered_of_errorCb rfl))⟩
  | error hl hi =>
      exact ⟨_, h.leaves hn (by simpa using hpop) hS rfl rfl (by simp) le_rfl (.inl rfl)
        (.inr (.lookupError hl hi))⟩
  | errorLeft hl hi hh =>
      exact ⟨_, h.arrives hadd rfl (List.append_nil _) hun (Nat.le_succ _)
        (Nat.lt_succ_of_lt hs) (.job (.inl rfl) hh) fun _ _ => .inr (.lookupError hl hi)⟩

/-- An active subrequest is with its session. -/
lemma active (h : t.Owned π) (hS : t.subrs s = some S) (hst : S.state = .active) :
    ∃ u, S.upsSession = some u ∧ holds t.upsSessions u = some s := by
  have hset := h.settled s S hS
  generalize hx : π s = x at hset
  cases hset with
  | out hno => exact absurd hst (by rcases hno with ha | ha <;> simp [ha])
  | slot hq _ => exact absurd (hq.symm.trans hst) (by simp)
  | job hno _ => exact absurd hst (by rcases hno with ha | ⟨ha, -⟩ <;> simp [ha])
  | @session u _ hu => exact ⟨u, hu, (h.custody.held_iff s u).mpr hx⟩

/-- A job is given up, whoever it was for. -/
lemma lost {j : ℕ} (h : t.Owned π) (hl : l = .jobLost j) :
    ∃ π', { t with jobs := t.jobs.filter (·.1 ≠ j) }.Owned π' ∧
      Tracks P cf t l { t with jobs := t.jobs.filter (·.1 ≠ j) } π π' := by
  by_cases hj : ∃ s, π s = some (.job j)
  · obtain ⟨s, hs⟩ := hj
    refine ⟨_, h.moved (h.custody.drop hs) (fun _ _ => rfl) (fun p => .inl) (.inl rfl) le_rfl
      (h.lt_next (by simp [hs])) fun S hS => ⟨.out ?_, fun _ => .inr (.jobLost hl), by simp⟩⟩
    have hset := h.settled s S hS
    rw [hs] at hset
    cases hset with
    | job hst _ => exact hst.imp_right And.left
  · have hall : t.jobs.filter (·.1 ≠ j) = t.jobs := by
      refine List.filter_eq_self.mpr fun p hp => ?_
      have hne : p.1 ≠ j := by
        rintro rfl
        exact hj ⟨p.2, (h.custody.job_iff _ _).mp hp⟩
      simpa using hne
    rw [hall]
    exact ⟨π, h.same h.custody rfl le_rfl fun s S hS => h.still hS⟩

/-- `subr::cancel` of a subrequest that is being looked up. -/
lemma cancelledLookup (h : t.Owned π) (hb : t.Books) (hS : t.subrs s = some S)
    (hst : S.state = .dnsLookup) :
    Custody t.subrList (t.jobs.filter fun p => some p.1 ≠ S.lookupJob) (holds t.upsSessions)
      (Function.update π s none) := by
  have hset := h.settled s S hS
  generalize hx : π s = x at hset
  cases hset with
  | out _ =>
      have hall : (t.jobs.filter fun p => some p.1 ≠ S.lookupJob) = t.jobs := by
        refine List.filter_eq_self.mpr fun p hp => ?_
        have hne : some p.1 ≠ S.lookupJob := by
          intro he
          have hr := (hb.lookupJob s S p.1 hS he.symm).2 p.2 hp
          have hplace := (h.custody.job_iff p.2 p.1).mp hp
          rw [hr, hx] at hplace
          exact absurd hplace (by simp)
        simpa using hne
      rw [hall, ← hx, Function.update_eq_self]
      exact h.custody
  | slot hq _ => exact absurd (hq.symm.trans hst) (by simp)
  | job hj _ =>
      rcases hj with hno | ⟨-, hj⟩
      · exact absurd (hno.symm.trans hst) (by simp)
      · have hdrop := h.custody.drop hx
        rw [hj]
        simpa using hdrop
  | session hact _ => exact absurd hst (by rcases hact with ha | ha <;> simp [ha])

/-- **Where subrequests go.**  After a step every subrequest is again in at most one place, and one
that left its place was answered, or is gone for a known reason. -/
theorem step (h : t.Owned π) (hl : t.Linked) (hn : t.Named) (hb : t.Books) (hd : Does P cf t l t') :
    ∃ π', t'.Owned π' ∧ Tracks P cf t l t' π π' := by
  have hslot : ∀ p ∈ t.subrList, p.1 ≠ t.next := fun p hp => (hb.slot p hp).ne
  cases hd with
  | @enqueued conf _ _ =>
      obtain ⟨hplace, hun⟩ := h.fresh t.next le_rfl
      have hpush := h.custody.push (n := t.next + 1) hplace
        fun p hp => ((hb.slot p hp).trans (Nat.lt_succ_self _)).ne
      refine ⟨_, h.arrives hpush rfl rfl hun ?_ ?_ (.slot rfl rfl) fun j hj => absurd hj (by simp)⟩
      · show t.next ≤ t.next + 1 + 1
        omega
      · show t.next < t.next + 1 + 1
        omega
  | dropped _ hfront =>
      have hcust := h.custody
      rw [hfront] at hcust
      exact ⟨π, h.same hcust.popNull rfl le_rfl fun s S hS => h.still hS⟩
  | @requeued m s rest S _ hfront hS =>
      have hcust := h.custody
      rw [hfront] at hcust
      have hplace := (hcust.slot_iff s m).mp List.mem_cons_self
      have hpush := hcust.pop.push (n := t.next) (Function.update_self s none π)
        fun p hp => hslot p (hfront ▸ List.mem_cons_of_mem _ hp)
      rw [Function.update_idem] at hpush
      exact ⟨_, h.arrives hpush rfl rfl (h.unanswered (by simp [hplace])) (Nat.le_succ _)
        (Nat.lt_succ_of_lt (hn.subr s S hS)) (.slot rfl rfl) fun j hj => absurd hj (by simp)⟩
  | unstarted _ hfront hS hwhy => exact h.unstarted hn hb hfront hS hwhy rfl
  | @started m s c rest S p n request ctl _ hfront hS _ _ _ _ =>
      have hcust := h.custody
      rw [hfront] at hcust
      have hplace := (hcust.slot_iff s m).mp List.mem_cons_self
      have hfree : holds t.upsSessions t.next = none := by
        rw [holds, hl.fresh _ le_rfl, Option.bind_none]
      have hhold := hcust.pop.hold (Function.update_self s none π) hfree
      rw [Function.update_idem] at hhold
      refine ⟨_, h.arrives (x := .holder t.next) ?_ rfl rfl (h.unanswered (by simp [hplace])) ?_ ?_
        (.session (.inl rfl) rfl) fun j hj => absurd hj (by simp)⟩
      · rw [startedState, holds_update]
        exact hhold
      · show t.next ≤ t.next + 1 + _
        omega
      · show s < t.next + 1 + _
        have := hn.subr s S hS
        omega
  | @ran f n n' ups more ok hf _ _ htouch _ =>
      refine ⟨π, h.same ?_ rfl le_rfl fun s S' hS' => ?_⟩
      · show Custody t.subrList t.jobs (holds ups) π
        rw [htouch.holds]
        exact h.custody
      · have hS' : (if more || !ok then t.subrs else f.activate t.subrs) s = some S' := hS'
        split_ifs at hS'
        · exact h.still hS'
        · exact h.activate hl hf hS'
  | @tore f u U U' S S' p ks es hf hu hU hS _ hbare hidle hwhy =>
      obtain ⟨hc, hcust⟩ := h.held hl hf hu hU hbare
      refine ⟨_, h.leaves hn hcust hS rfl rfl ?_ le_rfl (.inl hidle.state) ?_⟩
      · cases hwhy with
        | failed _ => exact fun p => fst_of_mem_called
        | eof _ _ => exact fun p => fst_of_mem_called
        | complete _ => exact fun p => fst_of_mem_called
        | eofLate _ _ => simp
        | writeFailed _ _ _ _ => simp
      · cases hwhy with
        | failed _ => exact .inl (answered_of_errorCb (by rw [hidle.conf]; rfl))
        | eof _ _ => exact .inl (answered_of_completionCb (by rw [hidle.conf]; rfl))
        | complete _ => exact .inl (answered_of_completionCb (by rw [hidle.conf]; rfl))
        | eofLate _ hresp => exact .inr (.eofLate hU hc hresp)
        | writeFailed hlab hctl hconn hst => exact .inr (.writeFailed hlab hctl hconn hst)
  | @idled f n u U U' S S' p hf _ _ _ hu hU hS hbare hidle _ =>
      obtain ⟨hc, hcust⟩ := h.held hl hf hu hU hbare
      exact ⟨_, h.leaves hn hcust hS rfl rfl (fun p => fst_of_mem_called) le_rfl (.inl hidle.state)
        (.inl (answered_of_completionCb (by rw [hidle.conf]; rfl)))⟩
  | @parked f n n' p ok hf _ _ _ _ =>
      refine ⟨π, h.same h.custody rfl le_rfl fun s S' hS' => ?_⟩
      have hS' : (if ok then f.activate t.subrs else t.subrs) s = some S' := hS'
      split_ifs at hS'
      · exact h.activate hl hf hS'
      · exact h.still hS'
  | @fired e c n ctl _ _ _ _ =>
      refine ⟨π, h.same ?_ rfl le_rfl fun s S hS => h.still hS⟩
      cases hdata : n.data with
      | none => exact h.custody
      | some u =>
          show Custody t.subrList t.jobs (holds (Function.update t.upsSessions u _)) π
          rw [holds_timer]
          exact h.custody
  | @rearmed f u hf _ _ =>
      refine ⟨π, h.same ?_ rfl (Nat.le_succ _) fun s S hS => h.activate hl hf hS⟩
      show Custody t.subrList t.jobs (holds (Function.update t.upsSessions u _)) π
      rw [holds_timer]
      exact h.custody
  | @resolved j s S _ hj hS =>
      have hplace := (h.custody.job_iff s j).mp hj
      have hpush := (h.custody.drop hplace).push (Function.update_self s none π) hslot
      rw [Function.update_idem] at hpush
      exact ⟨_, h.arrives hpush rfl rfl (h.unanswered (by simp [hplace])) (Nat.le_succ _)
        (Nat.lt_succ_of_lt (hn.subr s S hS)) (.slot rfl rfl) fun j hj => absurd hj (by simp)⟩
  | @unresolved j s S _ hj hS =>
      have hplace := (h.custody.job_iff s j).mp hj
      have hset := h.settled s S hS
      rw [hplace] at hset
      cases hset with
      | job hst _ =>
          exact ⟨_, h.leaves hn (h.custody.drop hplace) hS rfl rfl (fun p => fst_of_mem_called)
            le_rfl (hst.imp_right And.left) (.inl (answered_of_errorCb rfl))⟩
  | lost hlab _ => exact h.lost hlab
  | @cancelledNone s S S' ctl _ hS hst how _ =>
      refine ⟨π, h.same h.custody rfl le_rfl fun r R' hR' => ?_⟩
      by_cases hr : r = s
      · subst hr
        have hR' : Function.update t.subrs r (some S') r = some R' := hR'
        rw [Function.update_self] at hR'
        obtain rfl := Option.some.inj hR'
        refine ⟨S, hS, how.idle.conf, ?_, fun _ _ => how.idle.state.trans hst.symm⟩
        have hset := h.settled r S hS
        generalize π r = x at hset
        cases hset with
        | out _ => exact .out (.inl how.idle.state)
        | slot hq _ => exact absurd (hq.symm.trans hst) (by simp)
        | job _ hh => exact .job (.inl how.idle.state) (by rwa [how.idle.conf])
        | session _ hu => exact .session (.inl how.idle.state) (how.idle.upsSession.trans hu)
      · exact h.still ((Function.update_of_ne hr _ _).symm.trans hR')
  | @cancelledQueued s S S' ctl _ hS hst how =>
      have hset := h.settled s S hS
      generalize hx : π s = x at hset
      cases hset with
      | @slot n _ hq =>
          refine ⟨_, h.leaves hn ?_ hS rfl rfl (fun p => fst_of_mem_called) le_rfl
            (.inl how.idle.state) (.inl (answered_of_errorCb (by rw [how.idle.conf])))⟩
          have hclear := h.custody.clear hx
          simpa [hq] using hclear
      | out hno => exact absurd hst (by rcases hno with ha | ha <;> simp [ha])
      | job hno _ => exact absurd hst (by rcases hno with ha | ⟨ha, -⟩ <;> simp [ha])
      | session hno _ => exact absurd hst (by rcases hno with ha | ha <;> simp [ha])
  | @cancelledLookup s S S' ctl _ _ hS hst how =>
      exact ⟨_, h.leaves hn (h.cancelledLookup hb hS hst) hS rfl rfl (fun p => fst_of_mem_called)
        le_rfl (.inl how.idle.state) (.inl (answered_of_errorCb (by rw [how.idle.conf])))⟩
  | @cancelledLoose s S S' ctl _ hS hst hups _ =>
      obtain ⟨u, hu, -⟩ := h.active hS hst
      exact absurd (hups.symm.trans hu) (by simp)
  | @cancelledActive s u c U U' S subrs ks p ctl _ hS hst hups hU hc _ hbare _ _ how =>
      obtain ⟨v, hv, hheld⟩ := h.active hS hst
      obtain rfl := Option.some.inj (hups.symm.trans hv)
      obtain rfl : U.subr = s := by
        have := (holds_eq hU hc).symm.trans hheld
        exact Option.some.inj this
      obtain ⟨S', hcan, rfl, rfl⟩ := how rfl
      refine ⟨_, h.leaves hn ?_ hS rfl rfl (fun p => fst_of_mem_called) le_rfl
        (.inl hcan.idle.state) (.inl (answered_of_errorCb (by rw [hcan.idle.conf]; rfl)))⟩
      rw [tornState, holds_update, Option.bind_some, hbare.nconn, Option.map_none]
      exact h.custody.release hheld
  | @deleted s S _ _ _ =>
      exact ⟨π, h.same h.custody rfl le_rfl fun r R' hR' => h.still (of_update_none hR').2⟩
  | @deletedUps s u S U p _ hS hups hU _ =>
      cases hc : U.nconn with
      | none =>
          refine ⟨π, h.same ?_ rfl le_rfl fun r R' hR' => h.still (of_update_none hR').2⟩
          have hnone : holds t.upsSessions u = none := by
            rw [holds, hU, Option.bind_some, hc, Option.map_none]
          show Custody t.subrList t.jobs (holds (Function.update t.upsSessions u none)) π
          rw [holds_update, Option.bind_none, ← hnone, Function.update_eq_self]
          exact h.custody
      | some c =>
          obtain rfl := (hb.upsSession s S u hS hups).2 U hU
          refine ⟨_, h.moved (s := U.subr) (x := none) ?_ (fun r hr => Function.update_of_ne hr _ _)
            (fun p => .inl) (.inl rfl) le_rfl (hn.subr _ S hS)
            fun R' hR' => absurd rfl (of_update_none hR').1⟩
          show Custody t.subrList t.jobs (holds (Function.update t.upsSessions u none)) _
          rw [holds_update, Option.bind_none]
          exact h.custody.release (holds_eq hU hc)
  | _ => exact ⟨π, h.same h.custody rfl le_rfl fun s S hS => h.still hS⟩

end Owned

lemma books_of_reachable (h : (machine P cf).Reachable t) : t.Books := by
  induction h with
  | start hs =>
      obtain rfl := hs
      constructor <;> simp [new]
  | step hr hst ih => exact ih.step (linked_of_reachable hr) (does_of_step hst)

/-- Every subrequest is in at most one place. -/
lemma owned_of_reachable (h : (machine P cf).Reachable t) : ∃ π, t.Owned π := by
  induction h with
  | start hs =>
      obtain rfl := hs
      exact ⟨_, owned_new cf⟩
  | step hr hst ih =>
      obtain ⟨π, hπ⟩ := ih
      obtain ⟨π', hπ', -⟩ := hπ.step (linked_of_reachable hr) (named_of_reachable hr)
        (books_of_reachable hr) (does_of_step hst)
      exact ⟨π', hπ'⟩

end TSrvr

end Is2
