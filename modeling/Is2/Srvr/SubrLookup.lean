import Is2.Dns.AiCache
import Is2.Dns.Nresolver
import Mathlib.Logic.Function.Basic

/-!
# The address of a subrequest

`ups_session::subr_start` asks the resolver for the address of a subrequest: in its cache, or inline
if the host is an address already (`lookup_tryfast`).  Otherwise `lookup_async` queues a job, and
`dns_a4_cb` gives the answer to `adns_resolved_cb`, which stores it in the subrequest and queues the
subrequest again.

**Model.**  The cache is a function from keys; what `is_valid_ip_address` and `getaddrinfo` say is
given from outside.  `m_expires_s` has 32 bits.  `answer` is a history: what `adns_resolved_cb` has
stored since the subrequest was started.  Time passes between the steps.

The subrequest that is started again does not look at the answer that was stored in it, but into the
cache.  A cache that is used has it until it expires; where none is used, the same lookup is made
again (`goesOn_iff`).
-/

namespace Is2

namespace SubrLookup

open Nresolver

/-- `m_sa`, as far as it is about where to connect. -/
structure SockAddr where
  ip : List UInt8
  port : UInt16
deriving DecidableEq, Repr

/-- `host_info` -/
structure HostInfo where
  addr : SockAddr
  expires : ℕ
deriving DecidableEq, Repr

/-- The cache takes it for expired. -/
def HostInfo.Expired (now : ℕ) (h : HostInfo) : Prop := h.expires ≠ 0 ∧ h.expires < now

instance (now : ℕ) (h : HostInfo) : Decidable (h.Expired now) :=
  inferInstanceAs (Decidable (_ ∧ _))

/-- `ai_cache_map_t` -/
abbrev AiMap := List Char → Option HostInfo

/-- `ai_cache::lookup(a_label)` -/
def aiLookup (now : ℕ) (m : AiMap) (label : List Char) : Option HostInfo × AiMap :=
  (m label).elim (none, m) fun h =>
    if h.Expired now then (none, Function.update m label none) else (some h, m)

/-- `ai_cache::lookup(a_label, a_host_info)` -/
def aiLookupOr (now : ℕ) (m : AiMap) (label : List Char) (info : HostInfo) : HostInfo × AiMap :=
  let (found, m) := aiLookup now m label
  found.elim (info, Function.update m label (some info)) fun h => (h, m)

/-- The configuration: `m_use_cache` with a cache, `m_dns_use_sync`, the resolver's limits; and
`is_valid_ip_address`. -/
structure LookupConf where
  useCache : Bool
  dnsUseSync : Bool
  adns : Conf
  isIp : List Char → Bool

/-- `S_MIN_TTL_S` -/
abbrev minTtlS : ℕ := 10

/-- `nlookup`, with the address that `getaddrinfo` has, if it has one. -/
def nlookup (now : ℕ) (port : UInt16) (ip : Option (List UInt8)) : Option HostInfo :=
  ip.map fun ip => ⟨⟨ip, port⟩, (now + 3600) % 2 ^ 32⟩

/-- `nresolver::lookup_inline` -/
def lookupInline (cf : LookupConf) (now : ℕ) (m : AiMap) (host : List Char) (port : UInt16)
    (ip : Option (List UInt8)) : Option HostInfo × AiMap :=
  (nlookup now port ip).elim (none, m) fun info =>
    if cf.useCache then
      let (info, m) := aiLookupOr now m (AiCache.getCacheKey host port) info
      (some info, m)
    else (some info, m)

/-- `nresolver::lookup_tryfast` -/
def lookupTryfast (cf : LookupConf) (now : ℕ) (m : AiMap) (host : List Char) (port : UInt16)
    (ip : Option (List UInt8)) : Option HostInfo × AiMap :=
  let (found, m) :=
    if cf.useCache then aiLookup now m (AiCache.getCacheKey host port) else (none, m)
  if found.isSome then (found, m)
  else if cf.isIp host then lookupInline cf now m host port ip
  else (none, m)

/-- `nresolver::lookup_sync`, with what `getaddrinfo` has for each of its two lookups. -/
def lookupSync (cf : LookupConf) (now : ℕ) (m : AiMap) (host : List Char) (port : UInt16)
    (ip ip' : Option (List UInt8)) : Option HostInfo × AiMap :=
  let (found, m) := lookupTryfast cf now m host port ip
  if found.isSome then (found, m) else lookupInline cf now m host port ip'

/-- `subr`: the host, the port, `m_host_info`, and what `adns_resolved_cb` has stored since the
subrequest was started. -/
structure Sub where
  host : List Char
  port : UInt16
  hostInfo : HostInfo
  answer : Option HostInfo
deriving DecidableEq, Repr

/-- `m_host_info` of a new subrequest. -/
def Sub.new (host : List Char) (port : UInt16) : Sub := ⟨host, port, ⟨⟨[], 0⟩, 0⟩, none⟩

/-- The thread, as far as it is about addresses. -/
structure Lookups where
  now : ℕ
  cache : AiMap
  ctx : AdnsCtx
  subrs : ℕ → Option Sub

/-- What `subr_start` comes to. -/
inductive Started where
  | reused
  | again
  | connecting (info : HostInfo)
  | queuedAsyncDns
  | error
deriving DecidableEq, Repr

/-- What `subr_start` meets: whether a connection is idle, whether another one may be made and is,
what `getaddrinfo` has, and what udns does. -/
structure StartIn where
  idle : Bool
  available : Bool
  newActive : Bool
  ip : Option (List UInt8)
  ip' : Option (List UInt8)
  submits : ℕ → Bool
  timesOut : ℕ → Bool

namespace Lookups

/-- A subrequest is changed. -/
def modify (s : Lookups) (k : ℕ) (f : Sub → Sub) : Lookups :=
  { s with subrs := Function.update s.subrs k ((s.subrs k).map f) }

/-- `subr_start` from `get_new_active` on. -/
def connect (s : Lookups) (k : ℕ) (i : StartIn) (info : HostInfo) : Started × Lookups :=
  if i.newActive then
    (.connecting info, s.modify k fun S => { S with hostInfo := info, answer := none })
  else (.again, s)

/-- `lookup_async` in `subr_start`. -/
def lookupAsync (cf : LookupConf) (s : Lookups) (k : ℕ) (S : Sub) (i : StartIn) :
    Option (Started × Lookups) := do
  let r ← s.ctx.lookupAsync cf.adns ⟨S.host, S.port, k, s.now, i.submits, i.timesOut⟩
  let s := { s with ctx := r.ctx }.modify k fun S => { S with answer := none }
  some (if r.ok then .queuedAsyncDns else .error, s)

/-- The cache behind a lookup. -/
def withCache (s : Lookups) (found : Option HostInfo × AiMap) : Lookups :=
  { s with cache := found.2 }

/-- `lookup_sync` in `subr_start`. -/
def lookupSync (cf : LookupConf) (s : Lookups) (k : ℕ) (S : Sub) (i : StartIn) :
    Started × Lookups :=
  let slow := SubrLookup.lookupSync cf s.now s.cache S.host S.port i.ip i.ip'
  slow.1.elim (.error, (s.withCache slow).modify k fun S => { S with answer := none })
    ((s.withCache slow).connect k i)

/-- `subr_start` where no connection is idle and another one may be made. -/
def startFresh (cf : LookupConf) (s : Lookups) (k : ℕ) (S : Sub) (i : StartIn) :
    Option (Started × Lookups) :=
  let fast := lookupTryfast cf s.now s.cache S.host S.port i.ip
  fast.1.elim
    (if !cf.dnsUseSync then (s.withCache fast).lookupAsync cf k S i
    else some ((s.withCache fast).lookupSync cf k S i))
    fun info => some ((s.withCache fast).connect k i info)

/-- `ups_session::subr_start`, as far as it is about the address. -/
def subrStart (cf : LookupConf) (s : Lookups) (k : ℕ) (i : StartIn) :
    Option (Started × Lookups) := do
  let S ← s.subrs k
  if i.idle then some (.reused, s.modify k fun S => { S with answer := none })
  else if !i.available then some (.again, s)
  else s.startFresh cf k S i

/-- `adns_resolved_cb` with an address, for the subrequest `k`. -/
def adnsResolvedCb (s : Lookups) (k : ℕ) (info : HostInfo) : Lookups :=
  s.modify k fun S => { S with hostInfo := info, answer := some info }

/-- `nresolver::dns_a4_cb`, with the first address and its time to live, if there is one. -/
def dnsA4Cb (cf : LookupConf) (s : Lookups) (j : Job) (result : Option (List UInt8 × UInt32)) :
    Lookups :=
  result.elim s fun (ip, ttl) =>
    let ttlS := if ttl.toNat < minTtlS then 10 else ttl.toNat
    let info : HostInfo := ⟨⟨ip, j.port⟩, (s.now + ttlS) % 2 ^ 32⟩
    if cf.useCache then
      let (info, cache) := aiLookupOr s.now s.cache (AiCache.getCacheKey j.host j.port) info
      { s with cache := cache }.adnsResolvedCb j.data info
    else s.adnsResolvedCb j.data info

end Lookups

/-- What happens: time passes, a subrequest is made or started, udns calls back, the callbacks of
the event loop look for jobs to hand over, and someone else makes a lookup. -/
inductive LookupAct where
  | tick (d : ℕ)
  | make (k : ℕ) (host : List Char) (port : UInt16)
  | start (k : ℕ) (i : StartIn)
  | calledBack (num : ℕ) (result : Option (List UInt8 × UInt32))
  | retry (submits timesOut : ℕ → Bool)
  | sync (host : List Char) (port : UInt16) (ip ip' : Option (List UInt8))

namespace Lookups

/-- A new subrequest. -/
def make (s : Lookups) (k : ℕ) (S : Sub) : Lookups :=
  { s with subrs := Function.update s.subrs k (some S) }

/-- A step, where it can be made. -/
def step (cf : LookupConf) (s : Lookups) : LookupAct → Option Lookups
  | .tick d => some { s with now := s.now + d }
  | .make k host port =>
      if s.subrs k = none then some (s.make k (.new host port)) else none
  | .start k i => (s.subrStart cf k i).map Prod.snd
  | .calledBack num result => do
      let j ← s.ctx.active.find? (·.num = num)
      some ({ s with ctx := s.ctx.complete num }.dnsA4Cb cf j result)
  | .retry submits timesOut => do
      let r ← s.ctx.lookupAsync cf.adns ⟨[], 0, 0, s.now, submits, timesOut⟩
      some { s with ctx := r.ctx }
  | .sync host port ip ip' =>
      some (s.withCache (SubrLookup.lookupSync cf s.now s.cache host port ip ip'))

/-- **The thread**, from any cache on. -/
def machine (cf : LookupConf) : Machine Lookups LookupAct where
  start s := s.ctx = .new ∧ ∀ k, s.subrs k = none
  step s a t := s.step cf a = some t

/-- **The subrequest goes on**: it takes an idle connection, or it opens one to the address. -/
def GoesOn (cf : LookupConf) (s : Lookups) (k : ℕ) (i : StartIn) (addr : SockAddr) : Prop :=
  ∃ o t, s.subrStart cf k i = some (o, t) ∧
    (o = .reused ∨ ∃ info, o = .connecting info ∧ info.addr = addr)

end Lookups

/-! ## The cache -/

section Cache

variable {cf : LookupConf} {m m' m'' : AiMap} {now : ℕ} {label host : List Char} {h : HostInfo}
  {port : UInt16} {ip ip' : Option (List UInt8)}

lemma HostInfo.Expired.mono {now' : ℕ} (hle : now ≤ now') (hx : h.Expired now) : h.Expired now' :=
  ⟨hx.1, hx.2.trans_le hle⟩

/-- **An entry that has not expired stays** in a cache. -/
def Keeps (now : ℕ) (m m' : AiMap) : Prop :=
  ∀ label h, ¬ h.Expired now → m label = some h → m' label = some h

lemma Keeps.refl (now : ℕ) (m : AiMap) : Keeps now m m := fun _ _ _ h => h

lemma Keeps.trans (h₁ : Keeps now m m') (h₂ : Keeps now m' m'') :
    Keeps now m m'' :=
  fun label h hx hm => h₂ label h hx (h₁ label h hx hm)

lemma aiLookup_fresh (hm : m label = some h) (hx : ¬ h.Expired now) :
    aiLookup now m label = (some h, m) := by
  rw [aiLookup, hm, Option.elim_some, if_neg hx]

/-- What is found is in the cache and has not expired; what is not found is not there any more. -/
lemma aiLookup_cases (now : ℕ) (m : AiMap) (label : List Char) :
    (∃ h, m label = some h ∧ ¬ h.Expired now ∧ aiLookup now m label = (some h, m)) ∨
      ∃ m', aiLookup now m label = (none, m') ∧ m' label = none ∧ Keeps now m m' := by
  cases hm : m label with
  | none => exact .inr ⟨m, by rw [aiLookup, hm, Option.elim_none], hm, .refl _ _⟩
  | some h =>
      by_cases hx : h.Expired now
      · refine .inr ⟨Function.update m label none, ?_, Function.update_self _ _ _, ?_⟩
        · rw [aiLookup, hm, Option.elim_some, if_pos hx]
        · intro l h' hx' hl
          by_cases heq : l = label
          · subst heq
            obtain rfl := Option.some.inj (hm.symm.trans hl)
            exact absurd hx hx'
          · rw [Function.update_of_ne heq]
            exact hl
      · exact .inl ⟨h, rfl, hx, aiLookup_fresh hm hx⟩

lemma aiLookup_keeps (now : ℕ) (m : AiMap) (label : List Char) :
    Keeps now m (aiLookup now m label).2 := by
  rcases aiLookup_cases now m label with ⟨h, -, -, he⟩ | ⟨m', he, -, hk⟩
  · rw [he]
    exact .refl _ _
  · rw [he]
    exact hk

/-- What the second lookup returns is in the cache. -/
lemma aiLookupOr_spec (now : ℕ) (m : AiMap) (label : List Char) (info : HostInfo) :
    Keeps now m (aiLookupOr now m label info).2 ∧
      (aiLookupOr now m label info).2 label = some (aiLookupOr now m label info).1 := by
  rcases aiLookup_cases now m label with ⟨h, hm, -, he⟩ | ⟨m', he, hnone, hk⟩
  · simp only [aiLookupOr, he, Option.elim_some]
    exact ⟨.refl _ _, hm⟩
  · simp only [aiLookupOr, he, Option.elim_none]
    refine ⟨fun l h hx hl => ?_, Function.update_self _ _ _⟩
    have hl' := hk l h hx hl
    by_cases heq : l = label
    · rw [heq, hnone] at hl'
      cases hl'
    · rw [Function.update_of_ne heq]
      exact hl'

/-! ## The resolver -/

lemma lookupInline_keeps (cf : LookupConf) (now : ℕ) (m : AiMap) (host : List Char) (port : UInt16)
    (ip : Option (List UInt8)) : Keeps now m (lookupInline cf now m host port ip).2 := by
  rw [lookupInline]
  cases hn : nlookup now port ip with
  | none => exact .refl _ _
  | some info =>
      rw [Option.elim_some]
      split_ifs
      · exact (aiLookupOr_spec now m _ info).1
      · exact .refl _ _

lemma lookupTryfast_cached (hc : cf.useCache = true)
    (hm : m (AiCache.getCacheKey host port) = some h) (hx : ¬ h.Expired now) :
    lookupTryfast cf now m host port ip = (some h, m) := by
  simp [lookupTryfast, hc, aiLookup_fresh hm hx]

lemma lookupTryfast_uncached (hc : cf.useCache = false) :
    lookupTryfast cf now m host port ip =
      (if cf.isIp host then nlookup now port ip else none, m) := by
  simp only [lookupTryfast, hc, lookupInline]
  cases cf.isIp host <;> cases nlookup now port ip <;> rfl

lemma lookupTryfast_keeps (cf : LookupConf) (now : ℕ) (m : AiMap) (host : List Char)
    (port : UInt16) (ip : Option (List UInt8)) :
    Keeps now m (lookupTryfast cf now m host port ip).2 := by
  cases hc : cf.useCache with
  | false =>
      rw [lookupTryfast_uncached hc]
      exact .refl _ _
  | true =>
      have hk := aiLookup_keeps now m (AiCache.getCacheKey host port)
      simp only [lookupTryfast, hc, if_true]
      split_ifs
      · exact hk
      · exact hk.trans (lookupInline_keeps _ _ _ _ _ _)
      · exact hk

lemma lookupSync_keeps (cf : LookupConf) (now : ℕ) (m : AiMap) (host : List Char) (port : UInt16)
    (ip ip' : Option (List UInt8)) : Keeps now m (lookupSync cf now m host port ip ip').2 := by
  simp only [lookupSync]
  split_ifs
  · exact lookupTryfast_keeps _ _ _ _ _ _
  · exact (lookupTryfast_keeps _ _ _ _ _ _).trans (lookupInline_keeps _ _ _ _ _ _)

end Cache

namespace Lookups

variable {cf : LookupConf} {s t : Lookups} {k : ℕ} {h : HostInfo} {S : Sub} {i : StartIn}

/-! ## What is kept -/

/-- The host and the port of a subrequest. -/
def Names (s : Lookups) (host : List Char) (port : UInt16) (k : ℕ) : Prop :=
  ∃ S, s.subrs k = some S ∧ S.host = host ∧ S.port = port

/-- **The invariant**: a job is for the host and the port of its subrequest, and a cache that is
used has the answer until it expires. -/
structure Inv (cf : LookupConf) (s : Lookups) : Prop where
  jobs : s.ctx.Jobs s.Names
  cached : cf.useCache = true → ∀ k S h, s.subrs k = some S → S.answer = some h →
    ¬ h.Expired s.now → s.cache (AiCache.getCacheKey S.host S.port) = some h

/-- A change that keeps hosts, ports and what has not expired in the cache, and sets no answer. -/
structure Tame (s t : Lookups) : Prop where
  now : t.now = s.now
  cache : Keeps s.now s.cache t.cache
  names : ∀ k S, s.subrs k = some S → t.Names S.host S.port k
  answer : ∀ k T, t.subrs k = some T → ∃ S, s.subrs k = some S ∧ S.host = T.host ∧
    S.port = T.port ∧ (T.answer = none ∨ T.answer = S.answer)

lemma Tame.trans {u : Lookups} (h₁ : Tame s t) (h₂ : Tame t u) : Tame s u where
  now := h₂.now.trans h₁.now
  cache := h₁.cache.trans (h₁.now ▸ h₂.cache)
  names k S hS := by
    obtain ⟨T, hT, hhost, hport⟩ := h₁.names k S hS
    rw [← hhost, ← hport]
    exact h₂.names k T hT
  answer k U hU := by
    obtain ⟨T, hT, hhost, hport, ha⟩ := h₂.answer k U hU
    obtain ⟨S, hS, hhost', hport', ha'⟩ := h₁.answer k T hT
    refine ⟨S, hS, hhost'.trans hhost, hport'.trans hport, ?_⟩
    rcases ha with ha | ha
    · exact .inl ha
    · rw [ha]
      exact ha'

lemma tame_of_subrs (hn : t.now = s.now) (hc : Keeps s.now s.cache t.cache)
    (hs : t.subrs = s.subrs) : Tame s t where
  now := hn
  cache := hc
  names k S hS := ⟨S, by rw [hs, hS], rfl, rfl⟩
  answer k T hT := ⟨T, by rw [← hs, hT], rfl, rfl, .inr rfl⟩

lemma modify_subrs (f : Sub → Sub) (k' : ℕ) :
    (s.modify k f).subrs k' = if k' = k then (s.subrs k).map f else s.subrs k' := by
  exact Function.update_apply _ _ _ _

lemma make_subrs (k' : ℕ) : (s.make k S).subrs k' = if k' = k then some S else s.subrs k' :=
  Function.update_apply _ _ _ _

lemma tame_modify {f : Sub → Sub} (hhost : ∀ S, (f S).host = S.host)
    (hport : ∀ S, (f S).port = S.port) (ha : ∀ S, (f S).answer = none) :
    Tame s (s.modify k f) where
  now := rfl
  cache := .refl _ _
  names k' S hS := by
    rw [Names, modify_subrs]
    split_ifs with heq
    · subst heq
      exact ⟨f S, by rw [hS, Option.map_some], hhost S, hport S⟩
    · exact ⟨S, hS, rfl, rfl⟩
  answer k' T hT := by
    rw [modify_subrs] at hT
    split_ifs at hT with heq
    · subst heq
      obtain ⟨S, hS, rfl⟩ := Option.map_eq_some_iff.mp hT
      exact ⟨S, hS, (hhost S).symm, (hport S).symm, .inl (ha S)⟩
    · exact ⟨T, hT, rfl, rfl, .inr rfl⟩

lemma Inv.tame (hi : Inv cf s) (ht : Tame s t) (hj : t.ctx.Jobs s.Names) : Inv cf t where
  jobs := by
    have hnames : ∀ host port k, s.Names host port k → t.Names host port k := by
      rintro _ _ k ⟨S, hS, rfl, rfl⟩
      exact ht.names k S hS
    exact ⟨fun j hm => hnames _ _ _ (hj.1 j hm), fun j hm => hnames _ _ _ (hj.2 j hm)⟩
  cached hc k T h hT ha hx := by
    obtain ⟨S, hS, hhost, hport, hans⟩ := ht.answer k T hT
    rw [ht.now] at hx
    rcases hans with hans | hans
    · rw [hans] at ha
      cases ha
    · rw [← hhost, ← hport]
      exact ht.cache _ _ hx (hi.cached hc k S h hS (hans ▸ ha) hx)

/-! ## `subr_start` -/

/-- `answer` is forgotten. -/
lemma tame_forget (s : Lookups) (k : ℕ) :
    Tame s (s.modify k fun S => { S with answer := none }) :=
  tame_modify (fun _ => rfl) (fun _ => rfl) fun _ => rfl

lemma Inv.connect (hi : Inv cf s) (k : ℕ) (i : StartIn) (info : HostInfo) :
    Inv cf (s.connect k i info).2 := by
  rw [Lookups.connect]
  split_ifs
  · exact hi.tame (tame_modify (fun _ => rfl) (fun _ => rfl) fun _ => rfl) hi.jobs
  · exact hi

lemma Inv.withCache (hi : Inv cf s) {found : Option HostInfo × AiMap}
    (hk : Keeps s.now s.cache found.2) : Inv cf (s.withCache found) :=
  hi.tame (tame_of_subrs rfl hk rfl) hi.jobs

lemma Inv.lookupAsync (hi : Inv cf s) (hS : s.subrs k = some S) {o : Started}
    (he : s.lookupAsync cf k S i = some (o, t)) : Inv cf t := by
  obtain ⟨r, hr, he⟩ := Option.bind_eq_some_iff.mp he
  obtain ⟨-, rfl⟩ := Prod.mk.inj (Option.some.inj he)
  have htame : Tame s { s with ctx := r.ctx } := tame_of_subrs rfl (.refl _ _) rfl
  refine hi.tame (htame.trans (tame_forget _ k)) ?_
  exact hi.jobs.lookupAsync (fun _ => ⟨S, hS, rfl, rfl⟩) hr

lemma Inv.lookupSync (hi : Inv cf s) (k : ℕ) (S : Sub) (i : StartIn) :
    Inv cf (s.lookupSync cf k S i).2 := by
  have hslow := hi.withCache (lookupSync_keeps cf s.now s.cache S.host S.port i.ip i.ip')
  rw [Lookups.lookupSync]
  cases (SubrLookup.lookupSync cf s.now s.cache S.host S.port i.ip i.ip').1 with
  | none => exact hslow.tame (tame_forget _ k) hslow.jobs
  | some info => exact hslow.connect k i info

lemma Inv.startFresh (hi : Inv cf s) (hS : s.subrs k = some S) {o : Started}
    (he : s.startFresh cf k S i = some (o, t)) : Inv cf t := by
  have hfast := hi.withCache (lookupTryfast_keeps cf s.now s.cache S.host S.port i.ip)
  rw [Lookups.startFresh] at he
  cases hfound : (lookupTryfast cf s.now s.cache S.host S.port i.ip).1 with
  | some info =>
      rw [hfound, Option.elim_some] at he
      obtain rfl := congrArg Prod.snd (Option.some.inj he)
      exact hfast.connect k i info
  | none =>
      rw [hfound, Option.elim_none] at he
      by_cases hsync : (!cf.dnsUseSync) = true
      · rw [if_pos hsync] at he
        exact hfast.lookupAsync hS he
      · rw [if_neg hsync] at he
        obtain rfl := congrArg Prod.snd (Option.some.inj he)
        exact hfast.lookupSync k S i

lemma Inv.subrStart (hi : Inv cf s) {o : Started} (he : s.subrStart cf k i = some (o, t)) :
    Inv cf t := by
  obtain ⟨S, hS, he⟩ := Option.bind_eq_some_iff.mp he
  split_ifs at he
  · obtain ⟨-, rfl⟩ := Prod.mk.inj (Option.some.inj he)
    exact hi.tame (tame_forget s k) hi.jobs
  · obtain ⟨-, rfl⟩ := Prod.mk.inj (Option.some.inj he)
    exact hi
  · exact hi.startFresh hS he

/-! ## `dns_a4_cb` -/

/-- An answer is set that is in the cache. -/
lemma Inv.adnsResolvedCb (hi : Inv cf s) {host : List Char} {port : UInt16}
    (hnames : s.Names host port k)
    (hc : cf.useCache = true → s.cache (AiCache.getCacheKey host port) = some h) :
    Inv cf (s.adnsResolvedCb k h) where
  jobs := by
    have hkept : ∀ host port k', s.Names host port k' →
        (s.adnsResolvedCb k h).Names host port k' := by
      rintro _ _ k' ⟨S, hS, rfl, rfl⟩
      rw [Names, Lookups.adnsResolvedCb, modify_subrs]
      split_ifs with heq
      · subst heq
        exact ⟨_, congrArg _ hS, rfl, rfl⟩
      · exact ⟨S, hS, rfl, rfl⟩
    exact ⟨fun j hj => hkept _ _ _ (hi.jobs.1 j hj), fun j hj => hkept _ _ _ (hi.jobs.2 j hj)⟩
  cached huse k' T h' hT ha hx := by
    rw [Lookups.adnsResolvedCb, modify_subrs] at hT
    split_ifs at hT with heq
    · subst heq
      obtain ⟨S, hS, rfl, rfl⟩ := hnames
      rw [hS] at hT
      obtain rfl := Option.some.inj hT
      obtain rfl := Option.some.inj ha
      exact hc huse
    · exact hi.cached huse k' T h' hT ha hx

lemma Inv.dnsA4Cb (hi : Inv cf s) {j : Job} (hj : s.Names j.host j.port j.data)
    (result : Option (List UInt8 × UInt32)) : Inv cf (s.dnsA4Cb cf j result) := by
  cases result with
  | none => exact hi
  | some found =>
      obtain ⟨ip, ttl⟩ := found
      simp only [Lookups.dnsA4Cb, Option.elim_some]
      by_cases huse : cf.useCache = true
      · rw [if_pos huse]
        generalize HostInfo.mk ⟨ip, j.port⟩
          ((s.now + if ttl.toNat < minTtlS then 10 else ttl.toNat) % 2 ^ 32) = info
        have hor := aiLookupOr_spec s.now s.cache (AiCache.getCacheKey j.host j.port) info
        have hcache : Inv cf { s with
            cache := (aiLookupOr s.now s.cache (AiCache.getCacheKey j.host j.port) info).2 } :=
          hi.tame (tame_of_subrs rfl hor.1 rfl) hi.jobs
        exact hcache.adnsResolvedCb hj fun _ => hor.2
      · rw [if_neg huse]
        exact hi.adnsResolvedCb hj fun h => absurd h huse

/-! ## Every run -/

lemma Inv.step (hi : Inv cf s) {a : LookupAct} (he : s.step cf a = some t) : Inv cf t := by
  cases a with
  | tick d =>
      obtain rfl := Option.some.inj he
      refine ⟨hi.jobs, fun huse k S h hS ha hx => hi.cached huse k S h hS ha fun hx' => ?_⟩
      exact hx (hx'.mono (Nat.le_add_right _ _))
  | make k host port =>
      rw [Lookups.step] at he
      split_ifs at he with hk
      obtain rfl := Option.some.inj he
      constructor
      · have hkept : ∀ host' port' k', s.Names host' port' k' →
            (s.make k (.new host port)).Names host' port' k' := by
          rintro _ _ k' ⟨S, hS, rfl, rfl⟩
          refine ⟨S, ?_, rfl, rfl⟩
          rw [make_subrs, if_neg, hS]
          rintro rfl
          cases hk.symm.trans hS
        exact ⟨fun j hj => hkept _ _ _ (hi.jobs.1 j hj), fun j hj => hkept _ _ _ (hi.jobs.2 j hj)⟩
      · intro huse k' S h hS ha hx
        rw [make_subrs] at hS
        split_ifs at hS
        · obtain rfl := Option.some.inj hS
          cases ha
        · exact hi.cached huse k' S h hS ha hx
  | start k i =>
      obtain ⟨⟨o, u⟩, hu, rfl⟩ := Option.map_eq_some_iff.mp he
      exact hi.subrStart hu
  | calledBack num result =>
      obtain ⟨j, hj, he⟩ := Option.bind_eq_some_iff.mp he
      obtain rfl := Option.some.inj he
      have hnames := hi.jobs.2 j (List.mem_of_find?_eq_some hj)
      have hdone : Inv cf { s with ctx := s.ctx.complete num } :=
        hi.tame (tame_of_subrs rfl (.refl _ _) rfl) (hi.jobs.complete num)
      exact hdone.dnsA4Cb hnames result
  | retry submits timesOut =>
      obtain ⟨r, hr, he⟩ := Option.bind_eq_some_iff.mp he
      obtain rfl := Option.some.inj he
      refine hi.tame (tame_of_subrs rfl (.refl _ _) rfl) ?_
      exact hi.jobs.lookupAsync (fun hne => absurd rfl hne) hr
  | sync host port ip ip' =>
      obtain rfl := Option.some.inj he
      exact hi.withCache (lookupSync_keeps _ _ _ _ _ _ _)

lemma inv_of_reachable (hs : (machine cf).Reachable s) : Inv cf s := by
  refine hs.invariant ?_ fun s a t hi he => hi.step he
  rintro s ⟨hctx, hnone⟩
  refine ⟨?_, fun _ k S h hS => ?_⟩
  · rw [hctx]
    exact ⟨fun j hj => absurd hj List.not_mem_nil, fun j hj => absurd hj List.not_mem_nil⟩
  · rw [hnone k] at hS
    cases hS

/-- A lookup in the queue does not connect. -/
lemma lookupAsync_started {o : Started} (he : s.lookupAsync cf k S i = some (o, t)) :
    ¬ (o = .reused ∨ ∃ info, o = .connecting info ∧ info.addr = h.addr) := by
  obtain ⟨r, -, he⟩ := Option.bind_eq_some_iff.mp he
  obtain ⟨rfl, -⟩ := Prod.mk.inj (Option.some.inj he)
  split_ifs <;> simp

/-- Where no connection is idle, the subrequest goes where the fast lookup sends it. -/
lemma startFresh_goesOn (hasync : cf.dnsUseSync = false) (hnew : i.newActive = true) :
    (∃ o t, s.startFresh cf k S i = some (o, t) ∧
      (o = .reused ∨ ∃ info, o = .connecting info ∧ info.addr = h.addr)) ↔
      (lookupTryfast cf s.now s.cache S.host S.port i.ip).1.map HostInfo.addr = some h.addr := by
  rw [startFresh]
  cases (lookupTryfast cf s.now s.cache S.host S.port i.ip).1 with
  | none =>
      simp only [hasync, Option.elim_none, Option.map_none, reduceCtorEq, iff_false]
      rintro ⟨o, t, he, ho⟩
      exact lookupAsync_started he ho
  | some info =>
      simp only [Option.elim_some, connect, if_pos hnew, Option.map_some, Option.some.injEq]
      constructor
      · rintro ⟨o, t, he, ho⟩
        obtain ⟨rfl, -⟩ := Prod.mk.inj he
        rcases ho with ho | ⟨info', ho, haddr⟩
        · cases ho
        · obtain rfl := Started.connecting.inj ho
          exact haddr
      · exact fun haddr => ⟨_, _, rfl, .inr ⟨info, rfl, haddr⟩⟩

/-- **The next start of a resolved subrequest goes on to the address** that was stored in it, before
the entry has expired, if and only if a connection is idle, or the resolver uses a cache, or the
host is an address itself that is resolved to the same. -/
theorem goesOn_iff (hasync : cf.dnsUseSync = false) (hs : (machine cf).Reachable s)
    (hS : s.subrs k = some S) (ha : S.answer = some h) (hx : ¬ h.Expired s.now)
    (havail : i.available = true) (hnew : i.newActive = true) :
    s.GoesOn cf k i h.addr ↔ i.idle = true ∨ cf.useCache = true ∨
      cf.isIp S.host = true ∧ ∃ ip, i.ip = some ip ∧ h.addr = ⟨ip, S.port⟩ := by
  have hi := inv_of_reachable hs
  have hstart : s.subrStart cf k i = if i.idle = true then
      some (.reused, s.modify k fun S => { S with answer := none })
      else s.startFresh cf k S i := by
    rw [subrStart, hS, Option.bind_eq_bind, Option.bind_some, havail]
    rfl
  rw [GoesOn, hstart]
  cases hidle : i.idle with
  | true => exact iff_of_true ⟨_, _, rfl, .inl rfl⟩ (.inl rfl)
  | false =>
      simp only [Bool.false_eq_true, if_false, false_or]
      rw [startFresh_goesOn hasync hnew]
      cases huse : cf.useCache with
      | true =>
          have hcached := hi.cached huse k S h hS ha hx
          rw [lookupTryfast_cached huse hcached hx]
          exact iff_of_true rfl (.inl rfl)
      | false =>
          rw [lookupTryfast_uncached huse]
          cases cf.isIp S.host <;> cases i.ip <;> simp [nlookup, eq_comm]

/-- A start where no connection is idle. -/
def plainStart : StartIn := ⟨false, true, true, none, none, fun _ => true, fun _ => false⟩

/-- A subrequest for the port 80 of `a` is made, started and resolved. -/
def resolvedOnce (cf : LookupConf) : Option Lookups :=
  [.make 0 "a".toList 80, .start 0 plainStart, .calledBack 0 (some ([10, 0, 0, 1], 60))].foldlM
    (step cf) ⟨1000, fun _ => none, .new, fun _ => none⟩

lemma resolvedOnce_reachable {cf : LookupConf} {s : Lookups} (h : resolvedOnce cf = some s) :
    (machine cf).Reachable s :=
  Machine.Reachable.foldlM (fun _ _ _ he => he) (.start ⟨rfl, fun _ => rfl⟩) h

/-- The resolver with and without a cache. -/
def dnsConf (useCache : Bool) : LookupConf := ⟨useCache, false, ⟨100, 4, 3⟩, fun _ => false⟩

/-- What was stored in it. -/
def resolvedSub : Sub :=
  ⟨"a".toList, 80, ⟨⟨[10, 0, 0, 1], 80⟩, 1060⟩, some ⟨⟨[10, 0, 0, 1], 80⟩, 1060⟩⟩

theorem goesOn_cached : ∃ s, (machine (dnsConf true)).Reachable s ∧
    s.subrs 0 = some resolvedSub ∧ s.GoesOn (dnsConf true) 0 plainStart ⟨[10, 0, 0, 1], 80⟩ := by
  have hrun : (resolvedOnce (dnsConf true)).map (fun s => (s.subrs 0, s.now)) =
      some (some resolvedSub, 1000) := by decide +kernel
  obtain ⟨s, hs, he⟩ := Option.map_eq_some_iff.mp hrun
  obtain ⟨hsub, hnow⟩ := Prod.mk.inj he
  have hx : ¬ (HostInfo.mk ⟨[10, 0, 0, 1], 80⟩ 1060).Expired s.now := by
    rw [hnow]
    decide
  have hreach := resolvedOnce_reachable hs
  exact ⟨s, hreach, hsub, (goesOn_iff rfl hreach hsub rfl hx rfl rfl).mpr (.inr (.inl rfl))⟩

/-- Without a cache the lookup is made again. -/
theorem resolved_again : ∃ s, (machine (dnsConf false)).Reachable s ∧
    s.subrs 0 = some resolvedSub ∧ s.now < 1060 ∧
    (s.subrStart (dnsConf false) 0 plainStart).map Prod.fst = some .queuedAsyncDns ∧
    ¬ s.GoesOn (dnsConf false) 0 plainStart ⟨[10, 0, 0, 1], 80⟩ := by
  have hrun : (resolvedOnce (dnsConf false)).map (fun s => (s.subrs 0, s.now,
      (s.subrStart (dnsConf false) 0 plainStart).map Prod.fst)) =
      some (some resolvedSub, 1000, some .queuedAsyncDns) := by decide +kernel
  obtain ⟨s, hs, he⟩ := Option.map_eq_some_iff.mp hrun
  obtain ⟨hsub, he⟩ := Prod.mk.inj he
  obtain ⟨hnow, hagain⟩ := Prod.mk.inj he
  refine ⟨s, resolvedOnce_reachable hs, hsub, by omega, hagain, ?_⟩
  rintro ⟨o, t, hstart, ho⟩
  rw [hstart] at hagain
  obtain rfl := Option.some.inj hagain
  simp at ho

end Lookups

end SubrLookup

end Is2
