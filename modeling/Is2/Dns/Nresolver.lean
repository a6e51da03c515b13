import Is2.Core.Machine
import Is2.Core.Words
import Mathlib.Data.List.Sort

/-!
# The jobs of the asynchronous resolver

`nresolver::lookup_async` queues a job for a host, hands jobs from the front of the queue to udns
as long as fewer than `m_max_parallel` queries are active, and keeps what it has handed over in a
priority queue, out of which it should take the jobs that have expired.

**Model.**  udns is the list of the queries it works on: `dns_active` is how many they are, and a
query ends when udns calls back, between two calls of `lookup_async` or in its call of
`dns_timeouts`.  Whether `dns_submit_a4` takes a job is an input.  No time passes within a call.
The callbacks of the event loop (`evr_fd_readable_cb`, `evr_fd_timeout_cb`) look up an empty host.

The number of active queries stays within the limit, and jobs go out in the order in which they
were queued.  But the loop over the expired jobs runs while `!size()` where it should run while
`size()`: it looks at the top of an empty queue, and takes nothing out of another one
(`bookkeeping_iff`).
-/

namespace Is2

namespace Nresolver

/-- `nresolver::job`, with a number of its own. -/
structure Job where
  num : ℕ
  host : List Char
  port : UInt16
  data : ℕ
  startTime : ℕ
deriving DecidableEq, Repr

/-- `m_max_parallel`, `m_timeout_s` and `m_retries`. -/
structure Conf where
  maxParallel : UInt32
  timeoutS : UInt32
  retries : UInt32
deriving DecidableEq, Repr

/-- `l_expire_s` -/
def Conf.expireS (cf : Conf) : ℕ := (cf.timeoutS * cf.retries * 2).toNat

/-- A job whose start time and the expiry period lie in the past. -/
def Job.Expired (cf : Conf) (now : ℕ) (j : Job) : Prop := j.startTime + cf.expireS < now

instance (cf : Conf) (now : ℕ) (j : Job) : Decidable (j.Expired cf now) :=
  inferInstanceAs (Decidable (_ < _))

/-- `job_pq_t`: the job that started first is on top. -/
abbrev JobPq := List Job

def JobPq.push (pq : JobPq) (j : Job) : JobPq :=
  pq.orderedInsert (fun a b => a.startTime ≤ b.startTime) j

/-- There is no top of an empty queue. -/
def JobPq.top (pq : JobPq) : Option Job := pq.head?

def JobPq.pop (pq : JobPq) : JobPq := pq.tail

/-- `adns_ctx`, and what udns works on.  `queued` and `taken` are a history: the jobs that were put
into the queue so far and those that were taken out of it, in order. -/
structure AdnsCtx where
  jobQ : List Job
  jobPq : JobPq
  active : List Job
  timer : Bool
  next : ℕ
  queued : List Job
  taken : List Job
deriving DecidableEq, Repr

/-- The arguments of `lookup_async`, the time, which jobs `dns_submit_a4` takes, and which queries
end in `dns_timeouts`. -/
structure LookupIn where
  host : List Char
  port : UInt16
  data : ℕ
  now : ℕ
  submits : ℕ → Bool
  timesOut : ℕ → Bool

/-- What a call leaves behind: the context, `ao_job_handle`, and whether it returns `STATUS_OK`. -/
structure LookupOut where
  ctx : AdnsCtx
  handle : Option ℕ
  ok : Bool
deriving DecidableEq, Repr

namespace AdnsCtx

/-- The constructor. -/
def new : AdnsCtx := ⟨[], [], [], false, 0, [], []⟩

/-! ## `lookup_async` -/

/-- A job is made and queued, unless the host is empty. -/
def queueJob (s : AdnsCtx) (i : LookupIn) : AdnsCtx :=
  if i.host = [] then s
  else
    let j : Job := ⟨s.next, i.host, i.port, i.data, 0⟩
    { s with jobQ := s.jobQ ++ [j], queued := s.queued ++ [j], next := s.next + 1 }

/-- `ao_job_handle` -/
def jobHandle (s : AdnsCtx) (i : LookupIn) : Option ℕ := if i.host = [] then none else some s.next

/-- A job is taken by udns. -/
def submit (s : AdnsCtx) (now : ℕ) (j : Job) : AdnsCtx :=
  let j' : Job := { j with startTime := now }
  { s with
    jobPq := s.jobPq.push j'
    active := s.active ++ [j']
    taken := s.taken ++ [j] }

/-- The loop over the queue, with `l_submit`; and whether `dns_submit_a4` did not fail. -/
def submitJobs (i : LookupIn) : List Job → ℕ → AdnsCtx → AdnsCtx × Bool
  | [], _, s => ({ s with jobQ := [] }, true)
  | j :: q, budget, s =>
    if budget = 0 then ({ s with jobQ := j :: q }, true)
    else if i.submits j.num then submitJobs i q (budget - 1) (s.submit i.now j)
    else ({ s with jobQ := q, taken := s.taken ++ [j] }, false)

/-- `l_submit` -/
def budget (cf : Conf) (s : AdnsCtx) : ℕ := sub32 cf.maxParallel.toNat s.active.length

/-- The context behind that loop. -/
def submitted (cf : Conf) (s : AdnsCtx) (i : LookupIn) : AdnsCtx × Bool :=
  submitJobs i (s.queueJob i).jobQ (s.budget cf) (s.queueJob i)

/-- `dns_timeouts` -/
def dnsTimeouts (s : AdnsCtx) (i : LookupIn) : AdnsCtx :=
  { s with active := s.active.filter fun j => !i.timesOut j.num }

/-- The loop over the expired jobs, as it is written, for as many as `turns`. -/
def expireLoop (cf : Conf) (now : ℕ) : ℕ → JobPq → Option JobPq
  | 0, pq => some pq
  | turns + 1, pq =>
    if pq.length ≠ 0 then some pq
    else do
      let j ← pq.top
      if j.Expired cf now then expireLoop cf now turns pq.pop else some pq

/-- `get_active`; `dns_active` returns an `int`. -/
def getActive (s : AdnsCtx) : ℕ :=
  if toInt32 s.active.length < 0 then 0 else (toInt32 s.active.length).toNat

/-- A timer is added while queries are active. -/
def addTimer (s : AdnsCtx) : AdnsCtx :=
  if s.getActive ≠ 0 ∧ s.timer = false then { s with timer := true } else s

/-- `nresolver::lookup_async` -/
def lookupAsync (cf : Conf) (s : AdnsCtx) (i : LookupIn) : Option LookupOut :=
  let (t, ok) := s.submitted cf i
  if !ok then some ⟨t, s.jobHandle i, false⟩
  else do
    let t := t.dnsTimeouts i
    let pq ← expireLoop cf i.now (t.jobPq.length + 1) t.jobPq
    some ⟨{ t with jobPq := pq }.addTimer, s.jobHandle i, true⟩

/-- udns calls back for a query. -/
def complete (s : AdnsCtx) (num : ℕ) : AdnsCtx :=
  { s with active := s.active.filter (·.num ≠ num) }

end AdnsCtx

/-! ## Runs -/

/-- What happens to a context. -/
inductive AdnsAct where
  | lookup (i : LookupIn)
  | complete (num : ℕ)
  | timerFires

namespace AdnsCtx

/-- **What a call has to do.**  At no time are more queries active than may be, jobs go out in the
order in which they were queued, and no expired job is left. -/
structure Lawful (cf : Conf) (i : LookupIn) (s : AdnsCtx) (r : LookupOut) : Prop where
  peak : (s.submitted cf i).1.active.length ≤ cf.maxParallel.toNat
  active : r.ctx.active.length ≤ cf.maxParallel.toNat
  fifo : r.ctx.taken ++ r.ctx.jobQ = r.ctx.queued
  fresh : ∀ j ∈ r.ctx.jobPq, ¬ j.Expired cf i.now

/-- Every call of `lookup_async` is defined and does what it has to. -/
def Follows (cf : Conf) : AdnsCtx → List AdnsAct → Prop
  | _, [] => True
  | s, .lookup i :: as => ∃ r, s.lookupAsync cf i = some r ∧ s.Lawful cf i r ∧ Follows cf r.ctx as
  | s, .complete num :: as => Follows cf (s.complete num) as
  | s, .timerFires :: as => Follows cf { s with timer := false } as

/-- The priority queue is not empty, or a job can be handed over; and no job in it has expired. -/
def Safe (cf : Conf) (s : AdnsCtx) (i : LookupIn) : Prop :=
  (s.jobPq ≠ [] ∨ (s.queueJob i).jobQ ≠ [] ∧ s.active.length < cf.maxParallel.toNat) ∧
    ∀ j ∈ s.jobPq, ¬ j.Expired cf i.now

/-- Every call is safe where it is made. -/
def SafeRun (cf : Conf) : AdnsCtx → List AdnsAct → Prop
  | _, [] => True
  | s, .lookup i :: as =>
      s.Safe cf i ∧ ∀ r, s.lookupAsync cf i = some r → SafeRun cf r.ctx as
  | s, .complete num :: as => SafeRun cf (s.complete num) as
  | s, .timerFires :: as => SafeRun cf { s with timer := false } as

/-! ## The loop over the queue -/

variable {cf : Conf} {i : LookupIn} {s s' : AdnsCtx} {q : List Job} {n : ℕ} {ok : Bool}

lemma mem_push {pq : JobPq} {j k : Job} : k ∈ pq.push j ↔ k = j ∨ k ∈ pq :=
  List.mem_orderedInsert _

/-- **What the loop does**: it takes jobs from the front of the queue, at most as many as the budget
allows, and what it adds to the priority queue starts now. -/
structure Submits (i : LookupIn) (q : List Job) (budget : ℕ) (s s' : AdnsCtx) : Prop where
  active : s'.active.length ≤ s.active.length + budget
  fifo : s'.taken ++ s'.jobQ = s.taken ++ q
  queued : s'.queued = s.queued
  kept : ∀ j ∈ s.jobPq, j ∈ s'.jobPq
  added : ∀ j ∈ s'.jobPq, j ∈ s.jobPq ∨ j.startTime = i.now

lemma submitJobs_spec (i : LookupIn) (q : List Job) : ∀ (budget : ℕ) (s : AdnsCtx),
    Submits i q budget s (submitJobs i q budget s).1 := by
  induction q with
  | nil =>
      intro budget s
      exact ⟨Nat.le_add_right _ _, rfl, rfl, fun _ h => h, fun _ h => .inl h⟩
  | cons j q ih =>
      intro budget s
      rw [submitJobs]
      split_ifs with hb hj
      · exact ⟨Nat.le_add_right _ _, rfl, rfl, fun _ h => h, fun _ h => .inl h⟩
      · have h := ih (budget - 1) (s.submit i.now j)
        refine ⟨?_, ?_, h.queued, fun k hk => h.kept k (mem_push.mpr (.inr hk)), fun k hk => ?_⟩
        · have hlen : (s.submit i.now j).active.length = s.active.length + 1 := by
            simp [submit]
          have := h.active
          omega
        · rw [h.fifo, submit, List.append_assoc, List.singleton_append]
        · rcases h.added k hk with hk | hk
          · rcases mem_push.mp hk with rfl | hk
            · exact .inr rfl
            · exact .inl hk
          · exact .inr hk
      · exact ⟨Nat.le_add_right _ _, by simp, rfl, fun _ h => h, fun _ h => .inl h⟩

/-- Where a job can be handed over, it is, or the call fails. -/
lemma submitJobs_ne_nil {budget : ℕ} (hq : q ≠ []) (hb : budget ≠ 0)
    (hok : (submitJobs i q budget s).2 = true) : (submitJobs i q budget s).1.jobPq ≠ [] := by
  cases q with
  | nil => exact absurd rfl hq
  | cons j q =>
      rw [submitJobs, if_neg hb] at hok ⊢
      split_ifs at hok ⊢ with hj
      have hmem := (submitJobs_spec i q (budget - 1) (s.submit i.now j)).kept _
        (mem_push.mpr (.inl rfl))
      exact List.ne_nil_of_mem hmem

/-- Where none can be handed over, the call goes on as it was. -/
lemma submitJobs_idle {budget : ℕ} (h : q = [] ∨ budget = 0) :
    submitJobs i q budget s = ({ s with jobQ := q }, true) := by
  cases q with
  | nil => rfl
  | cons j q => rw [submitJobs, if_pos (h.resolve_left (List.cons_ne_nil _ _))]

/-! ## A call -/

/-- What holds between the calls. -/
structure Inv (cf : Conf) (s : AdnsCtx) : Prop where
  active : s.active.length ≤ cf.maxParallel.toNat
  fifo : s.taken ++ s.jobQ = s.queued

lemma budget_eq (h : Inv cf s) : s.budget cf = cf.maxParallel.toNat - s.active.length :=
  sub32_of_le h.active cf.maxParallel.toNat_lt

lemma queueJob_fields (s : AdnsCtx) (i : LookupIn) : (s.queueJob i).active = s.active ∧
    (s.queueJob i).jobPq = s.jobPq ∧ (s.queueJob i).taken = s.taken := by
  unfold queueJob
  split_ifs <;> exact ⟨rfl, rfl, rfl⟩

lemma Inv.queueJob (h : Inv cf s) (i : LookupIn) : Inv cf (s.queueJob i) := by
  refine ⟨(queueJob_fields s i).1 ▸ h.active, ?_⟩
  unfold AdnsCtx.queueJob
  split_ifs
  · exact h.fifo
  · rw [← List.append_assoc, h.fifo]

lemma Inv.submitted (h : Inv cf s) (i : LookupIn) : Inv cf (s.submitted cf i).1 := by
  have hq := h.queueJob i
  have hs := submitJobs_spec i (s.queueJob i).jobQ (s.budget cf) (s.queueJob i)
  refine ⟨hs.active.trans ?_, hs.fifo.trans (hq.fifo.trans hs.queued.symm)⟩
  have hle := h.active
  rw [budget_eq h, (queueJob_fields s i).1]
  omega

lemma addTimer_fields (s : AdnsCtx) : s.addTimer.active = s.active ∧ s.addTimer.jobPq = s.jobPq ∧
    s.addTimer.taken = s.taken ∧ s.addTimer.jobQ = s.jobQ ∧ s.addTimer.queued = s.queued := by
  unfold addTimer
  split_ifs <;> exact ⟨rfl, rfl, rfl, rfl, rfl⟩

/-- The loop over the expired jobs. -/
lemma expireLoop_eq (cf : Conf) (now turns : ℕ) (pq : JobPq) :
    expireLoop cf now (turns + 1) pq = if pq = [] then none else some pq := by
  cases pq with
  | nil => rfl
  | cons j pq => rfl

/-- A call that returns an error. -/
lemma lookupAsync_error (h : (s.submitted cf i).2 = false) :
    s.lookupAsync cf i = some ⟨(s.submitted cf i).1, s.jobHandle i, false⟩ := by
  simp [lookupAsync, h]

/-- Another call. -/
lemma lookupAsync_ok (h : (s.submitted cf i).2 = true) :
    s.lookupAsync cf i = if (s.submitted cf i).1.jobPq = [] then none
      else some ⟨((s.submitted cf i).1.dnsTimeouts i).addTimer, s.jobHandle i, true⟩ := by
  simp only [lookupAsync, h, expireLoop_eq, dnsTimeouts]
  split_ifs <;> simp_all

/-- Whether a job can be handed over. -/
lemma idle_iff (h : Inv cf s) : (s.queueJob i).jobQ = [] ∨ s.budget cf = 0 ↔
    ¬ ((s.queueJob i).jobQ ≠ [] ∧ s.active.length < cf.maxParallel.toNat) := by
  have hle := h.active
  rw [budget_eq h, not_and_or, not_not]
  refine or_congr_right ?_
  omega

lemma submitted_idle (hidle : (s.queueJob i).jobQ = [] ∨ s.budget cf = 0) :
    (s.submitted cf i).2 = true ∧ (s.submitted cf i).1.jobPq = s.jobPq := by
  rw [submitted, submitJobs_idle hidle]
  exact ⟨rfl, (queueJob_fields s i).2.1⟩

/-- A job in the priority queue behind the loop has expired only if it was there before. -/
lemma submitted_fresh (cf : Conf) (s : AdnsCtx) (i : LookupIn) :
    (∀ j ∈ (s.submitted cf i).1.jobPq, ¬ j.Expired cf i.now) ↔
      ∀ j ∈ s.jobPq, ¬ j.Expired cf i.now := by
  have hs := submitJobs_spec i (s.queueJob i).jobQ (s.budget cf) (s.queueJob i)
  have hpq := (queueJob_fields s i).2.1
  constructor
  · intro h j hj
    exact h j (hs.kept j (hpq ▸ hj))
  · intro h j hj
    rcases hs.added j hj with hj | hj
    · exact h j (hpq ▸ hj)
    · rw [Job.Expired, hj]
      omega

/-- Behind a call that is safe the priority queue is not empty. -/
lemma submitted_ne_nil (h : Inv cf s) (hok : (s.submitted cf i).2 = true) :
    (s.submitted cf i).1.jobPq ≠ [] ↔ s.jobPq ≠ [] ∨
      (s.queueJob i).jobQ ≠ [] ∧ s.active.length < cf.maxParallel.toNat := by
  have hs := submitJobs_spec i (s.queueJob i).jobQ (s.budget cf) (s.queueJob i)
  constructor
  · intro hne
    by_contra hnot
    rw [not_or, ← idle_iff h] at hnot
    exact hnot.1 ((submitted_idle hnot.2).2 ▸ hne)
  · rintro (hne | hbusy)
    · obtain ⟨j, hj⟩ := List.exists_mem_of_ne_nil _ hne
      exact List.ne_nil_of_mem (hs.kept j ((queueJob_fields s i).2.1 ▸ hj))
    · refine submitJobs_ne_nil hbusy.1 ?_ hok
      rw [budget_eq h]
      omega

/-- **One call** does what it has to if and only if it is safe. -/
lemma safe_iff (h : Inv cf s) :
    (∃ r, s.lookupAsync cf i = some r ∧ s.Lawful cf i r) ↔ s.Safe cf i := by
  have hinv := h.submitted i
  cases hok : (s.submitted cf i).2 with
  | false =>
      have hbusy : (s.queueJob i).jobQ ≠ [] ∧ s.active.length < cf.maxParallel.toNat := by
        by_contra hnot
        simp [(submitted_idle ((idle_iff h).mpr hnot)).1] at hok
      rw [lookupAsync_error hok, Safe, ← submitted_fresh]
      constructor
      · rintro ⟨r, hr, hl⟩
        obtain rfl := Option.some.inj hr
        exact ⟨.inr hbusy, hl.fresh⟩
      · rintro ⟨-, hfresh⟩
        exact ⟨_, rfl, hinv.active, hinv.active, hinv.fifo, hfresh⟩
  | true =>
      rw [lookupAsync_ok hok, Safe, ← submitted_ne_nil h hok, ← submitted_fresh]
      set t := (s.submitted cf i).1
      obtain ⟨hactive, hpq, htaken, hjobQ, hqueued⟩ := addTimer_fields (t.dnsTimeouts i)
      constructor
      · rintro ⟨r, hr, hl⟩
        split_ifs at hr with hnil
        obtain rfl := Option.some.inj hr
        refine ⟨hnil, fun j hj => hl.fresh j ?_⟩
        rw [hpq]
        exact hj
      · rintro ⟨hne, hfresh⟩
        refine ⟨_, if_neg hne, hinv.active, ?_, ?_, ?_⟩
        · rw [hactive]
          exact (List.length_filter_le _ _).trans hinv.active
        · rw [htaken, hjobQ, hqueued]
          exact hinv.fifo
        · intro j hj
          rw [hpq] at hj
          exact hfresh j hj

/-- A call keeps the invariant. -/
lemma Inv.lookupAsync (h : Inv cf s) {r : LookupOut} (hr : s.lookupAsync cf i = some r) :
    Inv cf r.ctx := by
  have hinv := h.submitted i
  cases hok : (s.submitted cf i).2 with
  | false =>
      rw [lookupAsync_error hok] at hr
      obtain rfl := Option.some.inj hr
      exact hinv
  | true =>
      rw [lookupAsync_ok hok] at hr
      split_ifs at hr
      obtain rfl := Option.some.inj hr
      obtain ⟨hactive, -, htaken, hjobQ, hqueued⟩ :=
        addTimer_fields ((s.submitted cf i).1.dnsTimeouts i)
      refine ⟨?_, ?_⟩
      · rw [hactive]
        exact (List.length_filter_le _ _).trans hinv.active
      · rw [htaken, hjobQ, hqueued]
        exact hinv.fifo

/-! ## What the jobs are for -/

/-- All jobs that are queued or that udns works on are of this kind. -/
def Jobs (P : List Char → UInt16 → ℕ → Prop) (s : AdnsCtx) : Prop :=
  (∀ j ∈ s.jobQ, P j.host j.port j.data) ∧ ∀ j ∈ s.active, P j.host j.port j.data

variable {P : List Char → UInt16 → ℕ → Prop}

lemma Jobs.queueJob (h : s.Jobs P) (hnew : i.host ≠ [] → P i.host i.port i.data) :
    (s.queueJob i).Jobs P := by
  unfold AdnsCtx.queueJob
  split_ifs with hhost
  · exact h
  · refine ⟨fun j hj => ?_, h.2⟩
    rcases List.mem_append.mp hj with hj | hj
    · exact h.1 j hj
    · obtain rfl := List.mem_singleton.mp hj
      exact hnew hhost

lemma Jobs.submitJobs (i : LookupIn) (q : List Job) : ∀ (budget : ℕ) {s : AdnsCtx},
    (∀ j ∈ q, P j.host j.port j.data) → (∀ j ∈ s.active, P j.host j.port j.data) →
      (submitJobs i q budget s).1.Jobs P := by
  induction q with
  | nil => exact fun _ _ _ ha => ⟨fun j hj => absurd hj List.not_mem_nil, ha⟩
  | cons j q ih =>
      intro budget s hq ha
      obtain ⟨hj, hq'⟩ := List.forall_mem_cons.mp hq
      rw [AdnsCtx.submitJobs]
      split_ifs
      · exact ⟨hq, ha⟩
      · refine ih _ hq' fun k hk => ?_
        rcases List.mem_append.mp hk with hk | hk
        · exact ha k hk
        · obtain rfl := List.mem_singleton.mp hk
          exact hj
      · exact ⟨hq', ha⟩

lemma Jobs.lookupAsync (h : s.Jobs P) (hnew : i.host ≠ [] → P i.host i.port i.data)
    {r : LookupOut} (hr : s.lookupAsync cf i = some r) : r.ctx.Jobs P := by
  have hq := h.queueJob hnew
  have hs : (s.submitted cf i).1.Jobs P := Jobs.submitJobs i _ _ hq.1 hq.2
  cases hok : (s.submitted cf i).2 with
  | false =>
      rw [lookupAsync_error hok] at hr
      obtain rfl := Option.some.inj hr
      exact hs
  | true =>
      rw [lookupAsync_ok hok] at hr
      split_ifs at hr
      obtain rfl := Option.some.inj hr
      obtain ⟨hactive, -, -, hjobQ, -⟩ := addTimer_fields ((s.submitted cf i).1.dnsTimeouts i)
      refine ⟨fun j hj => hs.1 j ?_, fun j hj => hs.2 j ?_⟩
      · rw [hjobQ] at hj
        exact hj
      · rw [hactive] at hj
        exact List.mem_of_mem_filter hj

lemma Jobs.complete (h : s.Jobs P) (num : ℕ) : (s.complete num).Jobs P :=
  ⟨h.1, fun j hj => h.2 j (List.mem_of_mem_filter hj)⟩

/-! ## Every run -/

lemma inv_new (cf : Conf) : Inv cf new := ⟨Nat.zero_le _, rfl⟩

lemma Inv.complete (h : Inv cf s) (num : ℕ) : Inv cf (s.complete num) :=
  ⟨(List.length_filter_le _ _).trans h.active, h.fifo⟩

lemma follows_of (acts : List AdnsAct) : ∀ {s : AdnsCtx}, Inv cf s →
    (Follows cf s acts ↔ SafeRun cf s acts) := by
  induction acts with
  | nil => exact fun _ => Iff.rfl
  | cons a as ih =>
      intro s h
      cases a with
      | complete num => exact ih (h.complete num)
      | timerFires => exact ih (s := { s with timer := false }) ⟨h.active, h.fifo⟩
      | lookup i =>
          rw [Follows, SafeRun, ← safe_iff h]
          constructor
          · rintro ⟨r, hr, hl, hf⟩
            refine ⟨⟨r, hr, hl⟩, fun r' hr' => ?_⟩
            obtain rfl := Option.some.inj (hr.symm.trans hr')
            exact (ih (h.lookupAsync hr)).mp hf
          · rintro ⟨⟨r, hr, hl⟩, hsafe⟩
            exact ⟨r, hr, hl, (ih (h.lookupAsync hr)).mpr (hsafe r hr)⟩

/-- **In every run of a new context** every lookup is defined, keeps to the limit and the order, and
leaves no expired job, if and only if it is safe where it is made. -/
theorem bookkeeping_iff (cf : Conf) (acts : List AdnsAct) :
    Follows cf new acts ↔ SafeRun cf new acts :=
  follows_of acts (inv_new cf)

/-- A lookup of a host that udns takes, or of none. -/
def lookupAt (host : List Char) (now : ℕ) : LookupIn :=
  ⟨host, 80, 0, now, fun _ => true, fun _ => false⟩

/-- The top of an empty queue is looked at when the first thing that happens is a datagram, and a
job of an hour ago is kept. -/
theorem empty_top_and_expired_job :
    new.lookupAsync ⟨100, 4, 3⟩ (lookupAt [] 0) = none ∧
    ((new.lookupAsync ⟨100, 4, 3⟩ (lookupAt "a".toList 0)).bind fun r =>
      r.ctx.lookupAsync ⟨100, 4, 3⟩ (lookupAt "b".toList 3600)).map
        (fun r => r.ctx.jobPq.map Job.startTime) = some [0, 3600] ∧
    ¬ Follows ⟨100, 4, 3⟩ new [.lookup (lookupAt [] 0)] ∧
    ¬ Follows ⟨100, 4, 3⟩ new [.lookup (lookupAt "a".toList 0),
      .lookup (lookupAt "b".toList 3600)] := by
  have hnone : new.lookupAsync ⟨100, 4, 3⟩ (lookupAt [] 0) = none := by decide
  have htwo : ((new.lookupAsync ⟨100, 4, 3⟩ (lookupAt "a".toList 0)).bind fun r =>
      r.ctx.lookupAsync ⟨100, 4, 3⟩ (lookupAt "b".toList 3600)).map
        (fun r => r.ctx.jobPq.map Job.startTime) = some [0, 3600] := by decide +kernel
  refine ⟨hnone, htwo, ?_, ?_⟩
  · rintro ⟨r, hr, -⟩
    cases hnone.symm.trans hr
  · rintro ⟨r, hr, -, r', hr', hl, -⟩
    rw [hr, Option.bind_some, hr', Option.map_some] at htwo
    have hold : ∀ t ∈ r'.ctx.jobPq.map Job.startTime,
        ¬ t + (Conf.mk 100 4 3).expireS < (lookupAt "b".toList 3600).now := by
      intro t ht
      obtain ⟨j, hj, rfl⟩ := List.mem_map.mp ht
      exact hl.fresh j hj
    rw [Option.some.inj htwo] at hold
    exact hold 0 (by simp) (by decide)

end AdnsCtx

end Nresolver

end Is2
