import Is2.Core.Lists
import Is2.Core.OrderedMap
import Mathlib.Data.Finset.Card
import Mathlib.Data.List.Perm.Subperm

/-!
# `evr_select`: what a wait reports

The descriptors are kept in a map with what they were registered for, and in the two sets for
`select()`.  A wait asks `select()` and writes an event for each descriptor of the map that is
reported into the array it is given, from slot 0.

**Model.**  `select()` is what its documentation says: after any number of interruptions it fails,
or it reports some of the descriptors of each set that are less than its bound, clears the others,
and counts those it reports.  (Linux leaves the bits at and above the bound as they are.  That
`select()` clears all it does not report is assumed here.)  The array belongs to the state, as
`evr_loop::run` gives the same one to all calls, and holds anything at first, as it comes from
`malloc`.  A descriptor of `FD_SETSIZE` or more is undefined (`none`).  The timeout is only handed
on to `select()`.

**Result.**  A wait adds the bits of a descriptor to what is in its slot, and never clears the slot.
So the bits of an earlier descriptor stay there: `runLaw_iff_runClean`.
-/

namespace Is2

/-! ## The code -/

/-- `evr_events_t` -/
structure EvrEvent where
  events : ℕ
  ptr : ℕ
  deriving DecidableEq, Repr

/-- `evr_select`: `m_conn_map`, `m_rfdset`, `m_wfdset` and the end of `m_ctrl_fd` that is read. -/
structure EvrSelect where
  connMap : OrderedMap.Entries ℕ ℕ
  rfdset : Finset ℕ
  wfdset : Finset ℕ
  ctrlFd : ℕ
  deriving DecidableEq

namespace EvrSelect

open OrderedMap

/-- `STATUS_ERROR` -/
abbrev statusError : ℤ := -1

/-- `FD_SETSIZE` -/
abbrev fdSetSize : ℕ := 1024

/-- `EVR_EV_IN` -/
abbrev evIn : ℕ := 0x001

/-- `EVR_EV_OUT` -/
abbrev evOut : ℕ := 0x004

/-- `EVR_FILE_ATTR_MASK_READ` -/
abbrev maskRead : ℕ := 1 <<< 0

/-- `EVR_FILE_ATTR_MASK_WRITE` -/
abbrev maskWrite : ℕ := 1 <<< 1

/-- `EVR_FILE_ATTR_MASK_STATUS_ERROR` -/
abbrev maskStatusError : ℕ := 1 <<< 2

/-- `EVR_FILE_ATTR_MASK_RD_HUP` -/
abbrev maskRdHup : ℕ := 1 <<< 3

/-- `EVR_FILE_ATTR_MASK_HUP` -/
abbrev maskHup : ℕ := 1 <<< 4

/-- The order of `m_conn_map`. -/
def less (a b : ℕ) : Bool := decide (a < b)

/-- `evr_select::evr_select`, with the pipe that was made. -/
def new (ctrlFd : ℕ) : EvrSelect := ⟨[], {ctrlFd}, ∅, ctrlFd⟩

/-- `FD_SET`, if a bit of the mask is set. -/
def fdSetIf (mask bit fd : ℕ) (set : Finset ℕ) : Finset ℕ :=
  if mask &&& bit ≠ 0 then insert fd set else set

/-- `evr_select::mod` -/
def mod (s : EvrSelect) (fd mask : ℕ) : EvrSelect :=
  let w := s.wfdset.erase fd
  let r := s.rfdset.erase fd
  let r := fdSetIf mask maskRead fd r
  let w := fdSetIf mask maskWrite fd w
  let r := fdSetIf mask maskRdHup fd r
  let r := fdSetIf mask maskHup fd r
  let r := fdSetIf mask maskStatusError fd r
  { s with rfdset := r, wfdset := w }

/-- `m_conn_map[a_fd] = a_evr_fd_event` -/
def assign (m : Entries ℕ ℕ) (fd ptr : ℕ) : Entries ℕ ℕ :=
  if (lookup less m fd).isSome then update less m fd fun _ => ptr
  else OrderedMap.insert less m fd ptr

/-- `evr_select::add` -/
def add (s : EvrSelect) (fd mask ptr : ℕ) : EvrSelect :=
  { s with connMap := assign s.connMap fd ptr }.mod fd mask

/-- `evr_select::del` -/
def del (s : EvrSelect) (fd : ℕ) : EvrSelect :=
  { s with
    connMap := erase less s.connMap fd
    rfdset := s.rfdset.erase fd
    wfdset := s.wfdset.erase fd }

/-- What one call of `select()` answers. -/
inductive Reply where
  | eintr
  | failed
  | ready (r w : Finset ℕ)

/-- The loop over `EINTR`: `some none` if `select()` fails, and `none` if it cannot answer so.  What
it does not report is cleared, also at and above the bound. -/
def select (fdsize : ℕ) (r w : Finset ℕ) : List Reply → Option (Option (Finset ℕ × Finset ℕ))
  | [] => none
  | .eintr :: replies => select fdsize r w replies
  | .failed :: _ => some none
  | .ready r' w' :: _ =>
    if r' ⊆ r.filter (· < fdsize) ∧ w' ⊆ w.filter (· < fdsize) then some (some (r', w')) else none

/-- What is written to the slot of a descriptor that is reported. -/
def mark (r w : Finset ℕ) (conn : ℕ × ℕ) (e : EvrEvent) : EvrEvent :=
  let events := if conn.1 ∈ w then e.events ||| evOut else e.events
  let events := if conn.1 ∈ r then events ||| evIn else events
  ⟨events, conn.2⟩

/-- The loop over `m_conn_map`, with `l_s` and `l_p`. -/
def collect (r w : Finset ℕ) (numSelected : ℕ) :
    ℕ → Entries ℕ ℕ → List EvrEvent → Option (ℤ × List EvrEvent)
  | p, [], ev => some (p, ev)
  | p, conn :: conns, ev =>
    if conn.1 ∈ w ∨ conn.1 ∈ r then do
      let e ← ev[p]?
      let ev := ev.set p (mark r w conn e)
      if numSelected < p + 1 then some (statusError, ev)
      else collect r w numSelected (p + 1) conns ev
    else collect r w numSelected p conns ev

/-- `l_fdsize` -/
def fdsize (s : EvrSelect) : ℕ := (s.connMap.getLast?.map fun conn => conn.1 + 1).getD 1

/-- `evr_select::wait` -/
def wait (s : EvrSelect) (ev : List EvrEvent) (maxEvents : ℕ) (replies : List Reply) :
    Option (ℤ × List EvrEvent) := do
  match ← select s.fdsize s.rfdset s.wfdset replies with
  | none => some (statusError, ev)
  | some (r, w) =>
    let numSelected := r.card + w.card
    if maxEvents < numSelected then some (statusError, ev)
    else if s.ctrlFd ∈ r then some (0, ev)
    else collect r w numSelected 0 s.connMap ev

/-! ## Histories -/

/-- The object, and the array that is given to all waits. -/
structure State where
  sel : EvrSelect
  ev : List EvrEvent
  deriving DecidableEq

inductive Call where
  | add (fd mask ptr : ℕ)
  | mod (fd mask : ℕ)
  | del (fd : ℕ)
  | wait (maxEvents : ℕ) (replies : List Reply)

/-- A call, with what it returns; `none` if it is undefined. -/
def State.call (s : State) : Call → Option (ℤ × State)
  | .add fd mask ptr =>
    if fd < fdSetSize then some (0, { s with sel := s.sel.add fd mask ptr }) else none
  | .mod fd mask => if fd < fdSetSize then some (0, { s with sel := s.sel.mod fd mask }) else none
  | .del fd => if fd < fdSetSize then some (0, { s with sel := s.sel.del fd }) else none
  | .wait maxEvents replies =>
    -- the array has room for as many events as the call may write
    if maxEvents ≤ s.ev.length then
      (s.sel.wait s.ev maxEvents replies).map fun res => (res.1, { s with ev := res.2 })
    else none

/-- A call as a step. -/
def State.step (s : State) (c : Call) : Option State := (s.call c).map Prod.snd

/-- A new object, and an array that may hold anything. -/
def State.Start (s : State) : Prop := ∃ ctrlFd < fdSetSize, s.sel = new ctrlFd

/-! ## The law -/

/-- The readable bit is set. -/
def readable (e : EvrEvent) : Bool := e.events &&& evIn ≠ 0

/-- The writeable bit is set. -/
def writeable (e : EvrEvent) : Bool := e.events &&& evOut ≠ 0

/-- The event is that of a registered descriptor, with the bits that were reported. -/
structure Reports (s : EvrSelect) (r w : Finset ℕ) (fd : ℕ) (e : EvrEvent) : Prop where
  registered : (fd, e.ptr) ∈ s.connMap
  readable : readable e = true ↔ fd ∈ r
  writeable : writeable e = true ↔ fd ∈ w

/-- **What a wait that returns `n > 0` should leave**: in slots `0` to `n - 1` the events of `n`
distinct descriptors, with the bits that `select()` reported. -/
def State.Lawful (s : State) : Call → Prop
  | .wait maxEvents replies =>
    ∀ n t, s.call (.wait maxEvents replies) = some (n, t) → 0 < n →
      ∃ r w, select s.sel.fdsize s.sel.rfdset s.sel.wfdset replies = some (some (r, w)) ∧
        ∃ fds : List ℕ, fds.Nodup ∧ fds.length = n ∧
          List.Forall₂ (Reports s.sel r w) fds (t.ev.take fds.length)
  | _ => True

/-- The descriptors of the map that are reported, in its order. -/
def reported (r w : Finset ℕ) (conns : Entries ℕ ℕ) : Entries ℕ ℕ :=
  conns.filter fun conn => conn.1 ∈ w ∨ conn.1 ∈ r

/-- The slot holds no bit that is not set for the descriptor that will be written there. -/
def CleanFor (r w : Finset ℕ) (conn : ℕ × ℕ) (e : EvrEvent) : Prop :=
  (readable e = true → conn.1 ∈ r) ∧ (writeable e = true → conn.1 ∈ w)

/-- **No stale bits**: the slots that a wait will write to hold none that it would not set. -/
def State.Clean (s : State) : Call → Prop
  | .wait maxEvents replies =>
    maxEvents ≤ s.ev.length →
      ∀ r w, select s.sel.fdsize s.sel.rfdset s.sel.wfdset replies = some (some (r, w)) →
        r.card + w.card ≤ maxEvents → s.sel.ctrlFd ∉ r →
          List.Forall₂ (CleanFor r w) (reported r w s.sel.connMap)
            (s.ev.take (reported r w s.sel.connMap).length)
  | _ => True

/-- Every call of a history meets the condition, in the state in front of it. -/
def State.Along (ok : State → Call → Prop) (s : State) : List Call → Prop
  | [] => True
  | c :: cs => ok s c ∧ ∀ t, s.step c = some t → Along ok t cs

/-! ## The map -/

lemma strictWeak (ks : List ℕ) : StrictWeak less ks where
  irrefl a _ := by simp [less]
  trans a _ b _ c _ hab hbc := by
    simp only [less, decide_eq_true_eq] at hab hbc ⊢
    omega
  tied a _ b _ c _ hab hbc := by
    simp only [Tied, less, decide_eq_false_iff_not] at hab hbc ⊢
    omega

lemma sorted_assign {m : Entries ℕ ℕ} (h : Sorted less m) (fd ptr : ℕ) :
    Sorted less (assign m fd ptr) := by
  rw [assign]
  split_ifs with hl
  · exact sorted_update h _
  · exact sorted_insert h (strictWeak _) (by simpa using hl)

lemma sorted_call {s t : State} (h : Sorted less s.sel.connMap) {c : Call}
    (hst : s.step c = some t) : Sorted less t.sel.connMap := by
  obtain ⟨⟨n, t⟩, hcall, rfl⟩ := Option.map_eq_some_iff.mp hst
  cases c with
  | add fd mask ptr =>
      simp only [State.call, Option.ite_none_right_eq_some, Option.some.injEq, Prod.mk.injEq]
        at hcall
      obtain ⟨-, -, rfl⟩ := hcall
      exact sorted_assign h fd ptr
  | mod fd mask =>
      simp only [State.call, Option.ite_none_right_eq_some, Option.some.injEq, Prod.mk.injEq]
        at hcall
      obtain ⟨-, -, rfl⟩ := hcall
      exact h
  | del fd =>
      simp only [State.call, Option.ite_none_right_eq_some, Option.some.injEq, Prod.mk.injEq]
        at hcall
      obtain ⟨-, -, rfl⟩ := hcall
      exact sorted_erase h
  | wait maxEvents replies =>
      simp only [State.call, Option.ite_none_right_eq_some, Option.map_eq_some_iff,
        Prod.mk.injEq] at hcall
      obtain ⟨-, res, -, -, rfl⟩ := hcall
      exact h

/-- No descriptor is reported twice. -/
lemma nodup_reported {conns : Entries ℕ ℕ} (h : Sorted less conns) (r w : Finset ℕ) :
    ((reported r w conns).map Prod.fst).Nodup := by
  have hless := (sorted_iff.mp h).imp fun {a b} (hab : less a b = true) =>
    Nat.ne_of_lt (of_decide_eq_true hab)
  exact hless.sublist (List.filter_sublist.map _)

lemma mem_reported {r w : Finset ℕ} {conns : Entries ℕ ℕ} {conn : ℕ × ℕ} :
    conn ∈ reported r w conns ↔ conn ∈ conns ∧ (conn.1 ∈ w ∨ conn.1 ∈ r) := by
  simp [reported]

/-- No more are reported than `select()` counts. -/
lemma length_reported_le {conns : Entries ℕ ℕ} (h : Sorted less conns) (r w : Finset ℕ) :
    (reported r w conns).length ≤ r.card + w.card := by
  rw [← List.length_map (f := Prod.fst), ← List.toFinset_card_of_nodup (nodup_reported h r w)]
  refine (Finset.card_le_card fun fd hfd => ?_).trans (Finset.card_union_le r w)
  obtain ⟨conn, hconn, rfl⟩ := List.mem_map.mp (List.mem_toFinset.mp hfd)
  exact Finset.mem_union.mpr (mem_reported.mp hconn).2.symm

/-! ## The loop over the map -/

lemma reported_cons_of_pos {r w : Finset ℕ} {conn : ℕ × ℕ} (h : conn.1 ∈ w ∨ conn.1 ∈ r)
    (conns : Entries ℕ ℕ) : reported r w (conn :: conns) = conn :: reported r w conns :=
  List.filter_cons_of_pos (decide_eq_true h)

lemma reported_cons_of_neg {r w : Finset ℕ} {conn : ℕ × ℕ} (h : ¬ (conn.1 ∈ w ∨ conn.1 ∈ r))
    (conns : Entries ℕ ℕ) : reported r w (conn :: conns) = reported r w conns :=
  List.filter_cons_of_neg (by simpa using h)

/-- **The loop** marks a slot for each descriptor that is reported, in the order of the map. -/
lemma collect_append {r w : Finset ℕ} {numSelected : ℕ} {conns : Entries ℕ ℕ}
    (pre post : List EvrEvent) (hroom : (reported r w conns).length ≤ post.length)
    (hcount : pre.length + (reported r w conns).length ≤ numSelected) :
    collect r w numSelected pre.length conns (pre ++ post) =
      some (((pre.length + (reported r w conns).length : ℕ) : ℤ),
        pre ++ (List.zipWith (mark r w) (reported r w conns) post ++
          post.drop (reported r w conns).length)) := by
  induction conns generalizing pre post with
  | nil => simp [collect, reported]
  | cons conn conns ih =>
      by_cases hin : conn.1 ∈ w ∨ conn.1 ∈ r
      · rw [reported_cons_of_pos hin] at hroom hcount ⊢
        rw [List.length_cons] at hroom hcount ⊢
        obtain ⟨e, post, rfl⟩ := List.exists_cons_of_length_pos (by omega : 0 < post.length)
        rw [List.length_cons] at hroom
        have hget : (pre ++ e :: post)[pre.length]? = some e := by simp
        have hset : (pre ++ e :: post).set pre.length (mark r w conn e) =
            (pre ++ [mark r w conn e]) ++ post := by
          simp
        have hlen : (pre ++ [mark r w conn e]).length = pre.length + 1 := by simp
        have hle : ¬ numSelected < pre.length + 1 := by omega
        rw [collect, if_pos hin, hget]
        simp only [Option.bind_eq_bind, Option.bind_some, if_neg hle, hset]
        rw [← hlen, ih _ _ (by omega) (by rw [hlen]; omega), hlen, Nat.add_right_comm,
          Nat.add_assoc, List.append_assoc]
        rfl
      · rw [reported_cons_of_neg hin] at hroom hcount ⊢
        rw [collect, if_neg hin, ih _ _ hroom hcount]

/-- **A wait that gets so far** marks the slots from the first on. -/
lemma call_wait {s : State} (hs : Sorted less s.sel.connMap) {maxEvents : ℕ}
    {replies : List Reply} {r w : Finset ℕ} (hmax : maxEvents ≤ s.ev.length)
    (hsel : select s.sel.fdsize s.sel.rfdset s.sel.wfdset replies = some (some (r, w)))
    (hcount : r.card + w.card ≤ maxEvents) (hctrl : s.sel.ctrlFd ∉ r) :
    s.call (.wait maxEvents replies) =
      some (((reported r w s.sel.connMap).length : ℤ), { s with
        ev := List.zipWith (mark r w) (reported r w s.sel.connMap) s.ev ++
          s.ev.drop (reported r w s.sel.connMap).length }) := by
  have hle := length_reported_le hs r w
  have hroom : (reported r w s.sel.connMap).length ≤ s.ev.length := by omega
  have hcollect : collect r w (r.card + w.card) 0 s.sel.connMap s.ev =
      some (((reported r w s.sel.connMap).length : ℤ),
        List.zipWith (mark r w) (reported r w s.sel.connMap) s.ev ++
          s.ev.drop (reported r w s.sel.connMap).length) := by
    simpa using collect_append [] s.ev hroom (by simpa using hle)
  have hlt : ¬ maxEvents < r.card + w.card := by omega
  simp [State.call, hmax, wait, hsel, hlt, hctrl, hcollect]

/-- **A wait that returns more than zero** got so far. -/
lemma call_wait_pos {s t : State} {maxEvents : ℕ} {replies : List Reply} {n : ℤ}
    (h : s.call (.wait maxEvents replies) = some (n, t)) (hn : 0 < n) :
    maxEvents ≤ s.ev.length ∧ ∃ r w,
      select s.sel.fdsize s.sel.rfdset s.sel.wfdset replies = some (some (r, w)) ∧
        r.card + w.card ≤ maxEvents ∧ s.sel.ctrlFd ∉ r := by
  simp only [State.call, Option.ite_none_right_eq_some, Option.map_eq_some_iff,
    Prod.mk.injEq] at h
  obtain ⟨hmax, ⟨n', ev⟩, hwait, rfl, rfl⟩ := h
  refine ⟨hmax, ?_⟩
  obtain ⟨answer, hsel, hwait⟩ := Option.bind_eq_some_iff.mp hwait
  cases answer with
  | none =>
      obtain ⟨rfl, rfl⟩ := Prod.mk.inj (Option.some.inj hwait)
      simp at hn
  | some answer =>
      obtain ⟨r, w⟩ := answer
      refine ⟨r, w, hsel, ?_⟩
      by_cases hlt : maxEvents < r.card + w.card
      · simp only [if_pos hlt, Option.some.injEq, Prod.mk.injEq] at hwait
        rw [← hwait.1] at hn
        simp at hn
      · by_cases hctrl : s.sel.ctrlFd ∈ r
        · simp only [if_neg hlt, if_pos hctrl, Option.some.injEq, Prod.mk.injEq] at hwait
          rw [← hwait.1] at hn
          simp at hn
        · exact ⟨by omega, hctrl⟩

/-! ## The bits of a slot -/

lemma readable_mark (r w : Finset ℕ) (conn : ℕ × ℕ) (e : EvrEvent) :
    readable (mark r w conn e) = (readable e || decide (conn.1 ∈ r)) := by
  by_cases hw : conn.1 ∈ w <;> by_cases hr : conn.1 ∈ r <;>
    simp [readable, mark, hw, hr]

lemma writeable_mark (r w : Finset ℕ) (conn : ℕ × ℕ) (e : EvrEvent) :
    writeable (mark r w conn e) = (writeable e || decide (conn.1 ∈ w)) := by
  by_cases hw : conn.1 ∈ w <;> by_cases hr : conn.1 ∈ r <;>
    simp [writeable, mark, hw, hr, Nat.and_or_distrib_right, Nat.or_eq_zero_iff]

/-- The number of bits of an event. -/
def bits (e : EvrEvent) : ℕ := (readable e).toNat + (writeable e).toNat

/-- The number of sets a descriptor is reported in. -/
def sets (r w : Finset ℕ) (fd : ℕ) : ℕ := (decide (fd ∈ r)).toNat + (decide (fd ∈ w)).toNat

lemma sets_le_bits_mark (r w : Finset ℕ) (conn : ℕ × ℕ) (e : EvrEvent) :
    sets r w conn.1 ≤ bits (mark r w conn e) := by
  have hbits : ∀ a b c d : Bool, c.toNat + d.toNat ≤ (a || c).toNat + (b || d).toNat := by decide
  rw [sets, bits, readable_mark, writeable_mark]
  exact hbits _ _ _ _

/-- A slot was clean if it holds no more bits than are set. -/
lemma cleanFor_of_bits_mark {r w : Finset ℕ} {conn : ℕ × ℕ} {e : EvrEvent}
    (h : sets r w conn.1 = bits (mark r w conn e)) : CleanFor r w conn e := by
  have hbits : ∀ a b c d : Bool, c.toNat + d.toNat = (a || c).toNat + (b || d).toNat →
      (a = true → c = true) ∧ (b = true → d = true) := by
    decide
  rw [sets, bits, readable_mark, writeable_mark] at h
  simpa [CleanFor] using hbits _ _ _ _ h

lemma Reports.sets {s : EvrSelect} {r w : Finset ℕ} {fd : ℕ} {e : EvrEvent}
    (h : Reports s r w fd e) : sets r w fd = bits e := by
  rw [EvrSelect.sets, bits, Bool.eq_iff_iff.mpr (h.readable.trans decide_eq_true_iff.symm),
    Bool.eq_iff_iff.mpr (h.writeable.trans decide_eq_true_iff.symm)]

lemma sets_pos_iff {r w : Finset ℕ} {fd : ℕ} : 0 < sets r w fd ↔ fd ∈ w ∨ fd ∈ r := by
  by_cases hr : fd ∈ r <;> by_cases hw : fd ∈ w <;> simp [sets, hr, hw]

/-! ## One wait -/

section Wait

variable {s : EvrSelect} {r w : Finset ℕ} {conns : Entries ℕ ℕ} {ev : List EvrEvent}

/-- Over clean slots, the events are those of the descriptors that are reported. -/
lemma reports_zipWith (hconns : ∀ conn ∈ conns, conn ∈ s.connMap)
    (h : List.Forall₂ (CleanFor r w) conns (ev.take conns.length)) :
    List.Forall₂ (Reports s r w) (conns.map Prod.fst) (List.zipWith (mark r w) conns ev) := by
  induction conns generalizing ev with
  | nil => exact .nil
  | cons conn conns ih =>
      cases ev with
      | nil => exact absurd h.length_eq (by simp)
      | cons e ev =>
          rw [List.length_cons, List.take_succ_cons, List.forall₂_cons] at h
          rw [List.forall_mem_cons] at hconns
          refine .cons ⟨hconns.1, ?_, ?_⟩ (ih hconns.2 h.2)
          · rw [readable_mark, Bool.or_eq_true, decide_eq_true_iff]
            exact ⟨fun hor => hor.elim h.1.1 id, .inr⟩
          · rw [writeable_mark, Bool.or_eq_true, decide_eq_true_iff]
            exact ⟨fun hor => hor.elim h.1.2 id, .inr⟩

/-- If the slots hold no more bits than are set, they were clean. -/
lemma clean_of_bits (hlen : conns.length ≤ ev.length)
    (h : conns.map (fun conn => sets r w conn.1) =
      (List.zipWith (mark r w) conns ev).map bits) :
    List.Forall₂ (CleanFor r w) conns (ev.take conns.length) := by
  induction conns generalizing ev with
  | nil => exact .nil
  | cons conn conns ih =>
      cases ev with
      | nil => exact absurd hlen (by simp)
      | cons e ev =>
          rw [List.zipWith_cons_cons, List.map_cons, List.map_cons, List.cons.injEq] at h
          rw [List.length_cons, List.take_succ_cons]
          exact .cons (cleanFor_of_bits_mark h.1) (ih (Nat.le_of_succ_le_succ hlen) h.2)

lemma forall₂_sets_le (hlen : conns.length ≤ ev.length) :
    List.Forall₂ (· ≤ ·) (conns.map fun conn => sets r w conn.1)
      ((List.zipWith (mark r w) conns ev).map bits) := by
  induction conns generalizing ev with
  | nil => exact .nil
  | cons conn conns ih =>
      cases ev with
      | nil => exact absurd hlen (by simp)
      | cons e ev =>
          exact .cons (sets_le_bits_mark r w conn e) (ih (Nat.le_of_succ_le_succ hlen))

/-- **If the events are those of any distinct descriptors**, then of those that are reported, and
the slots were clean. -/
lemma clean_of_reports {fds : List ℕ} (hnodup : fds.Nodup)
    (hlen : (reported r w s.connMap).length ≤ ev.length)
    (h : List.Forall₂ (Reports s r w) fds
      (List.zipWith (mark r w) (reported r w s.connMap) ev)) :
    List.Forall₂ (CleanFor r w) (reported r w s.connMap)
      (ev.take (reported r w s.connMap).length) := by
  set conns := reported r w s.connMap with hconns
  set m := List.zipWith (mark r w) conns ev with hm
  have hbits : fds.map (sets r w) = m.map bits := by
    rw [← List.forall₂_eq_eq_eq, List.forall₂_map_left_iff, List.forall₂_map_right_iff]
    exact h.imp fun _ _ hr => hr.sets
  have hmlen : m.length = conns.length := by
    rw [hm, List.length_zipWith]
    omega
  have hle := forall₂_sets_le (r := r) (w := w) hlen
  -- a descriptor of the list is registered, and its slot has a bit
  have hsub : fds ⊆ conns.map Prod.fst := by
    intro fd hfd
    obtain ⟨e, he, hr⟩ := exists_of_forall₂ h hfd
    have hpos : 0 < bits e := by
      obtain ⟨n, hn, hne⟩ := exists_of_forall₂ hle.flip (List.mem_map_of_mem he)
      obtain ⟨conn, hconn, rfl⟩ := List.mem_map.mp hn
      have hset := sets_pos_iff.mpr (mem_reported.mp (hconns ▸ hconn)).2
      exact hset.trans_le hne
    rw [← hr.sets, sets_pos_iff] at hpos
    exact List.mem_map.mpr ⟨(fd, e.ptr), mem_reported.mpr ⟨hr.registered, hpos⟩, rfl⟩
  have hperm : fds.Perm (conns.map Prod.fst) := by
    refine (hnodup.subperm hsub).perm_of_length_le ?_
    rw [List.length_map, h.length_eq, hmlen]
  have hsum : (m.map bits).sum = (conns.map fun conn => sets r w conn.1).sum := by
    rw [← hbits, (hperm.map (sets r w)).sum_eq, List.map_map]
    rfl
  exact clean_of_bits hlen (eq_of_forall₂_le hle hsum.le)

end Wait

/-- The slots that were written, of the array behind a wait. -/
lemma take_marked {r w : Finset ℕ} {conns : Entries ℕ ℕ} {ev : List EvrEvent} {n : ℕ}
    (hlen : conns.length ≤ ev.length) (hn : n = conns.length) :
    (List.zipWith (mark r w) conns ev ++ ev.drop conns.length).take n =
      List.zipWith (mark r w) conns ev := by
  refine List.take_left' ?_
  rw [List.length_zipWith]
  omega

/-- **A wait does what it should exactly if** the slots hold no stale bits. -/
theorem lawful_iff_clean {s : State} (hs : Sorted less s.sel.connMap) (c : Call) :
    s.Lawful c ↔ s.Clean c := by
  cases c with
  | add fd mask ptr => exact Iff.rfl
  | mod fd mask => exact Iff.rfl
  | del fd => exact Iff.rfl
  | wait maxEvents replies =>
      constructor
      · intro h hmax r w hsel hcount hctrl
        have hlen := (length_reported_le hs r w).trans (hcount.trans hmax)
        by_cases hnil : reported r w s.sel.connMap = []
        · simp [hnil]
        have hpos : (0 : ℤ) < (reported r w s.sel.connMap).length :=
          Int.natCast_pos.mpr (List.length_pos_iff.mpr hnil)
        obtain ⟨r', w', hsel', fds, hnodup, hn, hreports⟩ :=
          h _ _ (call_wait hs hmax hsel hcount hctrl) hpos
        rw [hsel] at hsel'
        obtain ⟨rfl, rfl⟩ := Prod.mk.inj (Option.some.inj (Option.some.inj hsel'))
        rw [take_marked hlen (Int.ofNat.inj hn)] at hreports
        exact clean_of_reports hnodup hlen hreports
      · intro h n t hcall hn
        obtain ⟨hmax, r, w, hsel, hcount, hctrl⟩ := call_wait_pos hcall hn
        have hlen := (length_reported_le hs r w).trans (hcount.trans hmax)
        rw [call_wait hs hmax hsel hcount hctrl] at hcall
        obtain ⟨rfl, rfl⟩ := Prod.mk.inj (Option.some.inj hcall)
        refine ⟨r, w, hsel, (reported r w s.sel.connMap).map Prod.fst, nodup_reported hs r w,
          by rw [List.length_map], ?_⟩
        rw [take_marked hlen (List.length_map _)]
        exact reports_zipWith (fun conn hconn => (mem_reported.mp hconn).1)
          (h hmax r w hsel hcount hctrl)

/-! ## Runs -/

lemma along_iff {s : State} (hs : Sorted less s.sel.connMap) (cs : List Call) :
    s.Along State.Lawful cs ↔ s.Along State.Clean cs := by
  induction cs generalizing s with
  | nil => exact Iff.rfl
  | cons c cs ih =>
      rw [State.Along, State.Along, lawful_iff_clean hs c]
      refine and_congr_right fun _ => forall_congr' fun t => ?_
      exact imp_congr_right fun hst => ih (sorted_call hs hst)

/-- The calls of a history, and those behind them. -/
lemma along_append {ok : State → Call → Prop} {s : State} {cs ds : List Call} :
    s.Along ok (cs ++ ds) ↔
      s.Along ok cs ∧ ∀ t, cs.foldlM State.step s = some t → t.Along ok ds := by
  induction cs generalizing s with
  | nil => simp [State.Along]
  | cons c cs ih =>
      simp only [List.cons_append, State.Along, ih, List.foldlM_cons, Option.bind_eq_bind,
        Option.bind_eq_some_iff]
      constructor
      · rintro ⟨hc, hall⟩
        exact ⟨⟨hc, fun t ht => (hall t ht).1⟩, fun u ⟨t, ht, hu⟩ => (hall t ht).2 u hu⟩
      · rintro ⟨⟨hc, hcs⟩, hds⟩
        exact ⟨hc, fun t ht => ⟨hcs t ht, fun u hu => hds u ⟨t, ht, hu⟩⟩⟩

/-- **All waits of a history do what they should exactly if** none finds a stale bit in a slot that
it writes to. -/
theorem runLaw_iff_runClean {s : State} (hs : s.Start) (cs : List Call) :
    s.Along State.Lawful cs ↔ s.Along State.Clean cs := by
  obtain ⟨ctrlFd, -, hsel⟩ := hs
  refine along_iff ?_ cs
  rw [hsel]
  exact .nil

/-- An object whose pipe has descriptor 5, and an array of two empty slots. -/
def twoSlots : State := ⟨new 5, [⟨0, 0⟩, ⟨0, 0⟩]⟩

lemma twoSlots_start : twoSlots.Start := ⟨5, by decide, rfl⟩

/-- A wait behind an interruption, in which descriptor 3 is readable. -/
def waitRead : Call := .wait 2 [.eintr, .ready {3} ∅]

/-- A wait in which descriptor 4 is writeable. -/
def waitWrite : Call := .wait 2 [.ready ∅ {4}]

/-- Descriptor 3 is waited for to read, and descriptor 4 to write. -/
def twoFds : List Call := [.add 3 maskRead 30, .add 4 maskWrite 40]

/-- The object with both. -/
def selTwo : EvrSelect := ⟨[(3, 30), (4, 40)], {3, 5}, {4}, 5⟩

theorem once_read_lawful :
    ((twoFds ++ [waitRead]).foldlM State.step twoSlots).isSome = true ∧
    twoSlots.Along State.Lawful (twoFds ++ [waitRead]) := by
  refine ⟨by decide +kernel, (runLaw_iff_runClean twoSlots_start (twoFds ++ [waitRead])).mpr ?_⟩
  refine along_append.mpr ⟨⟨trivial, fun _ _ => ⟨trivial, fun _ _ => trivial⟩⟩, fun s hs => ?_⟩
  have hrun : twoFds.foldlM State.step twoSlots = some ⟨selTwo, twoSlots.ev⟩ := by decide +kernel
  obtain rfl := Option.some.inj (hrun.symm.trans hs)
  refine ⟨?_, fun _ _ => trivial⟩
  intro _ r w hsel _ _
  have hsel' : select 5 {3, 5} {4} [.eintr, .ready {3} ∅] = some (some ({3}, ∅)) := by
    decide +kernel
  obtain ⟨rfl, rfl⟩ := Prod.mk.inj (Option.some.inj (Option.some.inj (hsel'.symm.trans hsel)))
  exact .cons ⟨by decide, by decide⟩ .nil

/-- **A stale bit**: descriptor 3 was readable.  Then descriptor 4 is writeable, and is reported
readable too. -/
theorem stale_bit_reported :
    (twoFds ++ [waitRead]).foldlM State.step twoSlots =
      some ⟨selTwo, [⟨evIn, 30⟩, ⟨0, 0⟩]⟩ ∧
    State.call ⟨selTwo, [⟨evIn, 30⟩, ⟨0, 0⟩]⟩ waitWrite =
      some (1, ⟨selTwo, [⟨evIn ||| evOut, 40⟩, ⟨0, 0⟩]⟩) ∧
    ¬ ∀ s : State, s.Start → ∀ cs, s.Along State.Lawful cs := by
  have hrun : (twoFds ++ [waitRead]).foldlM State.step twoSlots =
      some ⟨selTwo, [⟨evIn, 30⟩, ⟨0, 0⟩]⟩ := by
    decide +kernel
  have hcall : State.call ⟨selTwo, [⟨evIn, 30⟩, ⟨0, 0⟩]⟩ waitWrite =
      some (1, ⟨selTwo, [⟨evIn ||| evOut, 40⟩, ⟨0, 0⟩]⟩) := by
    decide +kernel
  refine ⟨hrun, hcall, fun hall => ?_⟩
  have hlaw := (along_append.mp (hall twoSlots twoSlots_start (twoFds ++ [waitRead] ++
    [waitWrite]))).2 _ hrun
  obtain ⟨r, w, hsel, fds, -, hlen, hreports⟩ := hlaw.1 1 _ hcall (by decide)
  have hsel' : select 5 {3, 5} {4} [.ready ∅ {4}] = some (some (∅, {4})) := by decide +kernel
  obtain ⟨rfl, rfl⟩ := Prod.mk.inj (Option.some.inj (Option.some.inj (hsel'.symm.trans hsel)))
  obtain ⟨fd, rfl⟩ := List.length_eq_one_iff.mp (Int.ofNat.inj hlen)
  obtain ⟨e, he, hr⟩ := exists_of_forall₂ hreports (List.mem_singleton_self fd)
  obtain rfl := List.mem_singleton.mp he
  -- nothing is readable
  exact absurd (hr.readable.mp (by decide)) (Finset.notMem_empty fd)

end EvrSelect

end Is2
