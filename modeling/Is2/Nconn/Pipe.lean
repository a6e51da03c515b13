import Is2.Core.Machine
import Is2.Nconn.Transfer

/-!
# One queue between two connections

When a request is proxied, the queue that `nc_read` fills from the upstream connection is the queue
that `nc_write` empties into the client's.  Nothing else touches it.  `set_max_read_queue` may have
put a limit on what it holds.

In every interleaving of the two, with any answers of the two sockets, what the client has accepted,
what is left in the queue and what was not read yet are together what the upstream has sent
(`pipe_preserves_bytes`).
-/

namespace Is2

/-! ## The limit is not touched -/

namespace Nbq

variable {q q' : Nbq}

lemma maxReadQueue_update {f : Nb → Nb} {it : Iter} (he : q.update f it = some q') :
    q'.maxReadQueue = q.maxReadQueue := by
  cases it with
  | block i =>
      simp only [update] at he
      split_ifs at he
      obtain rfl := Option.some.inj he
      rfl
  | stop => exact absurd he (by simp [update])
  | freed => exact absurd he (by simp [update])

/-- The reader moves on or stays. -/
lemma maxReadQueue_readerMoved {c : Prop} [Decidable c] {o : Option Iter}
    (he : (if c then o.bind fun it => some { q with curReadBlock := it } else some q) = some q') :
    q'.maxReadQueue = q.maxReadQueue := by
  split_ifs at he
  · obtain ⟨it, -, he⟩ := Option.bind_eq_some_iff.mp he
    obtain rfl := Option.some.inj he
    rfl
  · obtain rfl := Option.some.inj he
    rfl

lemma maxReadQueue_bWriteAddAvail {st : ℤ} (he : q.bWriteAddAvail = some (q', st)) :
    q'.maxReadQueue = q.maxReadQueue := by
  -- the block the writer is at afterwards is looked at for the room it has
  have hroom : ∀ {q₁ : Nbq}, (q₁.deref q₁.curWriteBlock).bind
      (fun b => some (q₁, toInt32 b.writeAvail)) = some (q', st) → q' = q₁ := by
    intro q₁ h₁
    obtain ⟨b, -, h₁⟩ := Option.bind_eq_some_iff.mp h₁
    exact (Prod.mk.inj (Option.some.inj h₁)).1.symm
  unfold bWriteAddAvail at he
  simp only [Option.bind_eq_bind, Option.bind_some] at he
  split_ifs at he
  · rw [hroom he]
  · obtain ⟨b, -, he⟩ := Option.bind_eq_some_iff.mp he
    obtain ⟨l, -, he⟩ := Option.bind_eq_some_iff.mp he
    split_ifs at he
    · obtain ⟨it, -, he⟩ := Option.bind_eq_some_iff.mp he
      rw [hroom he]
    · rw [hroom he]

lemma maxReadQueue_bWriteRoom {o : Option ℕ} (he : q.bWriteRoom = some (q', o)) :
    q'.maxReadQueue = q.maxReadQueue := by
  obtain ⟨avail, -, he⟩ := Option.bind_eq_some_iff.mp he
  split_ifs at he
  · obtain ⟨⟨q₁, st⟩, h₁, he⟩ := Option.bind_eq_some_iff.mp he
    have hm := maxReadQueue_bWriteAddAvail h₁
    simp only at he
    split_ifs at he
    · obtain ⟨rfl, -⟩ := Prod.mk.inj (Option.some.inj he)
      exact hm
    · obtain ⟨avail', -, he⟩ := Option.bind_eq_some_iff.mp he
      obtain ⟨rfl, -⟩ := Prod.mk.inj (Option.some.inj he)
      exact hm
  · obtain ⟨rfl, -⟩ := Prod.mk.inj (Option.some.inj he)
    rfl

lemma maxReadQueue_bWriteStore {bytes : List UInt8} (he : q.bWriteStore bytes = some q') :
    q'.maxReadQueue = q.maxReadQueue := by
  obtain ⟨b, -, he⟩ := Option.bind_eq_some_iff.mp he
  obtain ⟨b', -, he⟩ := Option.bind_eq_some_iff.mp he
  exact maxReadQueue_update he

lemma maxReadQueue_bWriteIncr {n : ℕ} (he : q.bWriteIncr n = some q') :
    q'.maxReadQueue = q.maxReadQueue := by
  -- the reader moves on last
  have hreader : ∀ {q₂ : Nbq}, (if 0 < n then (q₂.deref q₂.curReadBlock).bind fun r =>
      if r.readAvail = 0 then
        (q₂.next q₂.curReadBlock).bind fun it => some { q₂ with curReadBlock := it }
      else some q₂ else some q₂) = some q' → q'.maxReadQueue = q₂.maxReadQueue := by
    intro q₂ h₂
    split_ifs at h₂
    · obtain ⟨r, -, h₂⟩ := Option.bind_eq_some_iff.mp h₂
      exact maxReadQueue_readerMoved h₂
    · obtain rfl := Option.some.inj h₂
      rfl
  unfold bWriteIncr at he
  simp only [Option.bind_eq_bind, Option.bind_some] at he
  obtain ⟨q₁, h₁, he⟩ := Option.bind_eq_some_iff.mp he
  have hm₁ := maxReadQueue_update h₁
  obtain ⟨b, -, he⟩ := Option.bind_eq_some_iff.mp he
  obtain ⟨l, -, he⟩ := Option.bind_eq_some_iff.mp he
  by_cases hc : b.writeAvail = 0 ∧ q₁.curWriteBlock ≠ l
  · rw [if_pos hc] at he
    obtain ⟨it, -, he⟩ := Option.bind_eq_some_iff.mp he
    exact (hreader he).trans hm₁
  · rw [if_neg hc] at he
    exact (hreader he).trans hm₁

lemma maxReadQueue_bReadIncr {n : ℕ} (he : q.bReadIncr n = some q') :
    q'.maxReadQueue = q.maxReadQueue := by
  obtain ⟨avail, -, he⟩ := Option.bind_eq_some_iff.mp he
  obtain ⟨q₁, h₁, he⟩ := Option.bind_eq_some_iff.mp he
  have hm := maxReadQueue_update h₁
  exact (maxReadQueue_readerMoved he).trans hm

lemma maxReadQueue_shrinkLoop : ∀ {fuel : ℕ} {q : Nbq}, q.shrinkLoop fuel = some q' →
    q'.maxReadQueue = q.maxReadQueue := by
  intro fuel
  induction fuel with
  | zero =>
      intro q he
      unfold shrinkLoop at he
      split_ifs at he
      obtain rfl := Option.some.inj he
      rfl
  | succ fuel ih =>
      intro q he
      unfold shrinkLoop at he
      split_ifs at he
      · obtain rfl := Option.some.inj he
        rfl
      · split at he
        case h_1 heq _ =>
          obtain rfl := Nat.succ.inj heq
          have hm := ih he
          exact hm
        case h_2 => exact absurd he (by simp)

lemma maxReadQueue_shrink (he : q.shrink = some q') : q'.maxReadQueue = q.maxReadQueue := by
  obtain ⟨q₁, h₁, he⟩ := Option.bind_eq_some_iff.mp he
  have hm := maxReadQueue_shrinkLoop h₁
  split_ifs at he
  · obtain ⟨b, -, he⟩ := Option.bind_eq_some_iff.mp he
    split_ifs at he
    · obtain rfl := Option.some.inj he
      exact hm
    · obtain rfl := Option.some.inj he
      exact hm
  · obtain rfl := Option.some.inj he
    exact hm

end Nbq

lemma Nconn.ncRead_maxReadQueue {q : Nbq} {pending : List UInt8} {sock : SockRead} {r : NcRead}
    (he : Nconn.ncRead q pending sock = some r) : r.q.maxReadQueue = q.maxReadQueue := by
  unfold Nconn.ncRead at he
  split_ifs at he
  · obtain rfl := Option.some.inj he
    rfl
  obtain ⟨⟨q₁, o⟩, hroom, he⟩ := Option.bind_eq_some_iff.mp he
  have hm := Nbq.maxReadQueue_bWriteRoom hroom
  cases o with
  | none =>
      obtain rfl := Option.some.inj he
      exact hm
  | some avail =>
      cases sock with
      | status st =>
          obtain rfl := Option.some.inj he
          exact hm
      | data k =>
          simp only at he
          split_ifs at he
          · obtain rfl := Option.some.inj he
            exact hm
          · split at he
            · obtain ⟨b, -, he⟩ := Option.bind_eq_some_iff.mp he
              obtain ⟨q₂, h₂, he⟩ := Option.bind_eq_some_iff.mp he
              obtain ⟨q₃, h₃, he⟩ := Option.bind_eq_some_iff.mp he
              obtain rfl := Option.some.inj he
              exact (Nbq.maxReadQueue_bWriteIncr h₃).trans
                ((Nbq.maxReadQueue_bWriteStore h₂).trans hm)
            · exact absurd he (by simp)

lemma Nconn.ncWrite_maxReadQueue {q q' : Nbq} {sock : SockWrite} {st : NcStatus}
    {out : List UInt8} (he : Nconn.ncWrite q sock = some (q', st, out)) :
    q'.maxReadQueue = q.maxReadQueue := by
  unfold Nconn.ncWrite at he
  split_ifs at he
  · obtain ⟨rfl, -⟩ := Prod.mk.inj (Option.some.inj he)
    rfl
  cases sock with
  | status s => cases s <;> (obtain ⟨rfl, -⟩ := Prod.mk.inj (Option.some.inj he); rfl)
  | accept k =>
      obtain ⟨avail, -, he⟩ := Option.bind_eq_some_iff.mp he
      simp only at he
      split_ifs at he
      · obtain ⟨rfl, -⟩ := Prod.mk.inj (Option.some.inj he)
        rfl
      · obtain ⟨bytes, -, he⟩ := Option.bind_eq_some_iff.mp he
        obtain ⟨q₁, h₁, he⟩ := Option.bind_eq_some_iff.mp he
        obtain ⟨q₂, h₂, he⟩ := Option.bind_eq_some_iff.mp he
        obtain ⟨rfl, -⟩ := Prod.mk.inj (Option.some.inj he)
        exact (Nbq.maxReadQueue_shrink h₂).trans (Nbq.maxReadQueue_bReadIncr h₁)

namespace Nbq

/-- A queue with all blocks of its size that was just emptied. -/
lemma rep_resetWrite {q₀ : Nbq} {m : ℤ} (h0 : 0 < q₀.bsize) (h : q₀.bsize < 2 ^ 31)
    (hsize : ∀ b ∈ q₀.q, b.ref = false → b.size = q₀.bsize) :
    Rep { q₀.resetWrite with maxReadQueue := m, underflow := false } .empty := by
  have hmem : ∀ b ∈ q₀.resetWrite.q, b.size = q₀.bsize ∧ b.written = 0 ∧ b.read = 0 := by
    intro b hb
    obtain ⟨c, hc, rfl⟩ := List.mem_map.mp hb
    obtain ⟨hc, href⟩ := List.mem_filter.mp hc
    exact ⟨hsize c hc (by simpa using href), rfl, rfl⟩
  have hok : ∀ b ∈ q₀.resetWrite.q, b.Ok := by
    intro b hb
    obtain ⟨hs, hw, hr⟩ := hmem b hb
    exact ⟨by omega, by omega, by omega⟩
  obtain ⟨hwf, hcont, hcons⟩ := wf_of_empty_blocks
    (q := { q₀.resetWrite with maxReadQueue := m, underflow := false }) hok
    (fun b hb => (hmem b hb).2.1) (h.trans (by norm_num)) rfl rfl rfl rfl rfl
  refine ⟨0, 0, hwf, ?_, hcont, hcons⟩
  exact
    { bsize_pos := h0, bsize_lt_half := h, size := fun b hb => (hmem b hb).1
      full := fun i b _ hi => absurd hi (Nat.not_lt_zero i)
      room := fun hne => List.length_pos_iff.mpr hne
      live := fun _ _ _ => rfl }

end Nbq

/-! ## The pipe -/

/-- The queue, what the upstream has sent and how much of that was not read yet, what was received
and what the client accepted. -/
structure Pipe where
  q : Nbq
  sent : List UInt8
  pending : List UInt8
  received : List UInt8
  accepted : List UInt8
deriving DecidableEq, Repr

namespace Pipe

/-- The upstream sends, or one of the calls is made, with the answer of its socket. -/
inductive Act where
  | send (bytes : List UInt8)
  | ncRead (sock : SockRead)
  | ncWrite (sock : SockWrite)
deriving DecidableEq, Repr

def run (s : Pipe) : Act → Option Pipe
  | .send bytes => some { s with sent := s.sent ++ bytes, pending := s.pending ++ bytes }
  | .ncRead sock =>
      (Nconn.ncRead s.q s.pending sock).map fun r =>
        { s with q := r.q, pending := r.pending, received := s.received ++ r.bytes }
  | .ncWrite sock =>
      (Nconn.ncWrite s.q sock).map fun (q, _, out) =>
        { s with q := q, accepted := s.accepted ++ out }

/-- A queue of block size `bsize` that is new, or on which `reset_write` was just called, with its
limit set.  The blocks a queue owns were all allocated with its block size. -/
def Fresh (bsize : ℕ) (limit : ℤ) (q : Nbq) : Prop :=
  q = { Nbq.init bsize with maxReadQueue := limit } ∨
    ∃ q₀ : Nbq, q₀.bsize = bsize ∧ (∀ b ∈ q₀.q, b.ref = false → b.size = bsize) ∧
      q = { q₀.resetWrite with maxReadQueue := limit, underflow := false }

/-- Every interleaving of what the upstream sends and of the calls. -/
def machine (bsize : ℕ) (limit : ℤ) : Machine Pipe Act where
  start s := Fresh bsize limit s.q ∧ s.sent = s.pending ∧ s.received = [] ∧ s.accepted = []
  step s a t := s.run a = some t

/-- The queue holds exactly what was received and not accepted, and no more than its limit; what was
received is what the upstream sent, but for what was not read. -/
structure Inv (limit : ℤ) (s : Pipe) : Prop where
  rep : ∃ a, Nbq.Rep s.q a ∧ s.received = s.accepted ++ a.unread
  stream : s.sent = s.received ++ s.pending
  limit_eq : s.q.maxReadQueue = limit
  bound : 0 < limit → (s.q.readAvail : ℤ) ≤ limit

variable {bsize : ℕ} {limit : ℤ} {s t : Pipe}

lemma inv_start (h0 : 0 < bsize) (h : bsize < 2 ^ 31) (hs : (machine bsize limit).start s) :
    Inv limit s := by
  obtain ⟨hq, hsent, hrecv, hacc⟩ := hs
  have hempty : s.received = s.accepted ++ (SeekQueue.empty : SeekQueue UInt8).unread := by
    rw [hrecv, hacc]
    rfl
  have hstream : s.sent = s.received ++ s.pending := by rw [hrecv, hsent, List.nil_append]
  rcases hq with hq | ⟨q₀, rfl, hsize, hq⟩
  · have hrep : Nbq.Rep s.q .empty := by
      obtain ⟨r, w, hwf, hf, hc, hr⟩ := Nbq.rep_init h0 h
      rw [hq]
      exact ⟨r, w, { hwf with }, { hf with }, hc, hr⟩
    exact ⟨⟨_, hrep, hempty⟩, hstream, by rw [hq], fun hl => by rw [hq]; exact hl.le⟩
  · refine ⟨⟨_, ?_, hempty⟩, hstream, by rw [hq], fun hl => by rw [hq]; exact hl.le⟩
    rw [hq]
    exact Nbq.rep_resetWrite h0 h hsize

lemma readAvail_eq {q : Nbq} {a : SeekQueue UInt8} (h : Nbq.Rep q a) :
    q.readAvail = a.unread.length := by
  rw [h.readAvail, SeekQueue.unread, List.length_drop]

/-- What was read fits below the limit. -/
lemma read_bound {q q₁ : Nbq} {a : SeekQueue UInt8} {avail n : ℕ} (hrep : Nbq.Rep q a)
    (hl : 0 < q.maxReadQueue) (hmax : q.readAvailIsMaxLimit = false)
    (hroom : q.bWriteRoom = some (q₁, some avail)) (hn : n ≤ Nconn.readSize q₁ avail) :
    ((q.readAvail + n : ℕ) : ℤ) ≤ q.maxReadQueue := by
  obtain ⟨q₂, m, -, -, -, hroom', hrep₁, -⟩ := hrep.bWriteRoom
  rw [hroom] at hroom'
  obtain ⟨rfl, -⟩ := Prod.mk.inj (Option.some.inj hroom')
  have havail : q₁.readAvail = q.readAvail := by rw [readAvail_eq hrep₁, readAvail_eq hrep]
  have hlim : q₁.maxReadQueue = q.maxReadQueue := Nbq.maxReadQueue_bWriteRoom hroom
  have hlt : (q.readAvail : ℤ) < q.maxReadQueue := by
    simpa [Nbq.readAvailIsMaxLimit, hl, Nbq.readAvail] using hmax
  unfold Nconn.readSize at hn
  rw [havail, hlim] at hn
  split_ifs at hn with hc
  · omega
  · push Not at hc
    have := hc hl
    push_cast at this ⊢
    omega

/-- One call keeps the invariant. -/
lemma Inv.run {a : Act} (h : Inv limit s) (he : s.run a = some t) : Inv limit t := by
  obtain ⟨⟨q, hrep, hrecv⟩, hstream, hlim, hbound⟩ := h
  cases a with
  | send bytes =>
      obtain rfl := Option.some.inj he
      refine ⟨⟨q, hrep, hrecv⟩, ?_, hlim, hbound⟩
      rw [hstream, List.append_assoc]
  | ncRead sock =>
      obtain ⟨r, hr, rfl⟩ := Option.map_eq_some_iff.mp he
      have hlim' : r.q.maxReadQueue = limit := (Nconn.ncRead_maxReadQueue hr).trans hlim
      obtain ⟨r', hr', hcase⟩ := hrep.ncRead_run s.pending sock
      rw [hr] at hr'
      obtain rfl := Option.some.inj hr'
      rcases hcase with ⟨hnil, hpend, hrep'⟩ |
        ⟨hst, hne, hpend, hrep', q₁, avail, b, hroom, -, -, -, hn, -⟩
      · refine ⟨⟨q, hrep', ?_⟩, ?_, hlim', fun hl => ?_⟩
        · rw [hnil, List.append_nil]
          exact hrecv
        · rw [hnil, List.append_nil, hpend]
          exact hstream
        · rw [readAvail_eq hrep', ← readAvail_eq hrep]
          exact hbound hl
      · refine ⟨⟨_, hrep', ?_⟩, ?_, hlim', fun hl => ?_⟩
        · rw [q.unread_append, ← List.append_assoc, ← hrecv]
        · rw [List.append_assoc, ← hpend]
          exact hstream
        · have hmax : s.q.readAvailIsMaxLimit = false := by
            by_contra hc
            rw [Nconn.ncRead, if_pos (by simpa using hc)] at hr
            obtain rfl := Option.some.inj hr
            exact hne rfl
          have hle := read_bound hrep (hlim.symm ▸ hl) hmax hroom hn
          rw [readAvail_eq hrep', q.unread_append, List.length_append, ← readAvail_eq hrep]
          rw [hlim] at hle
          exact hle
  | ncWrite sock =>
      obtain ⟨⟨q', st, out⟩, hr, rfl⟩ := Option.map_eq_some_iff.mp he
      obtain ⟨a', hrep', hu⟩ := hrep.ncWrite hr
      refine ⟨⟨a', hrep', ?_⟩, hstream, (Nconn.ncWrite_maxReadQueue hr).trans hlim, fun hl => ?_⟩
      · rw [hrecv, hu, List.append_assoc]
      · have hlen := congrArg List.length hu
        rw [List.length_append] at hlen
        have hle := hbound hl
        rw [readAvail_eq hrep] at hle
        rw [readAvail_eq hrep']
        omega

/-- **The pipe loses, duplicates and reorders nothing.**  Whatever the block size, the limit and the
answers of the sockets, what the client accepted is the beginning of what was received and the rest
is in the queue, and what was received is the beginning of what the upstream sent and the rest is
still to be read; every call is defined, every read stores inside the block being written, and the
queue never holds more than its limit. -/
theorem pipe_preserves_bytes (bsize : ℕ) (limit : ℤ) (h0 : 0 < bsize) (h1 : bsize < 2 ^ 31)
    (s : Pipe)
    (h : (machine bsize limit).Reachable s) :
    s.accepted <+: s.received ∧ s.received = s.accepted ++ s.q.unread ∧
      s.sent = s.received ++ s.pending ∧
      (∀ pending sock, ∃ r, Nconn.ncRead s.q pending sock = some r ∧
        (r.bytes ≠ [] → r.Inside s.q)) ∧
      (∀ sock, (Nconn.ncWrite s.q sock).isSome) ∧
      (0 < limit → (s.q.readAvail : ℤ) ≤ limit) := by
  have hinv : Inv limit s := by
    refine Machine.Reachable.invariant ?_ ?_ h
    · exact fun s hs => inv_start h0 h1 hs
    · exact fun s a t hs he => hs.run he
  obtain ⟨⟨a, hrep, hrecv⟩, hstream, -, hbound⟩ := hinv
  refine ⟨⟨_, hrecv.symm⟩, ?_, hstream, ?_, ?_, hbound⟩
  · rw [hrep.unread]
    exact hrecv
  · intro pending sock
    obtain ⟨r, hr, hcase⟩ := hrep.ncRead_run pending sock
    refine ⟨r, hr, fun hne => ?_⟩
    rcases hcase with ⟨hnil, -⟩ | ⟨-, -, -, -, hin⟩
    · exact absurd hnil hne
    · exact hin
  · intro sock
    obtain ⟨q', st, out, -, hr, -⟩ := hrep.ncWrite_run sock
    rw [hr]
    rfl

/-- Blocks of two bytes and a limit of three: five bytes go through, the last two sent late, with
refused writes between. -/
theorem pipe_preserves_bytes_five : ∃ s : Pipe, (machine 2 3).Reachable s ∧
    s.sent = [1, 2, 3, 4, 5] ∧ s.accepted = [1, 2, 3, 4, 5] ∧ s.accepted <+: s.received ∧
    s.received = s.accepted ++ s.q.unread ∧ s.sent = s.received ++ s.pending := by
  let acts : List Act := [.ncRead (.data 9), .ncRead (.data 9), .send [4, 5], .ncRead (.data 9),
    .ncWrite (.accept 1), .ncRead (.data 9), .ncWrite (.status .again), .ncWrite (.accept 9),
    .ncWrite (.accept 9), .ncRead (.data 9), .ncWrite (.status .error), .ncWrite (.accept 9),
    .ncWrite (.accept 9)]
  have hrun : (acts.foldlM run
      ⟨{ Nbq.init 2 with maxReadQueue := 3 }, [1, 2, 3], [1, 2, 3], [], []⟩).map
        (fun s => (s.sent, s.accepted)) = some ([1, 2, 3, 4, 5], [1, 2, 3, 4, 5]) := by
    decide +kernel
  obtain ⟨s, hs, hobs⟩ := Option.map_eq_some_iff.mp hrun
  obtain ⟨hsent, hacc⟩ := Prod.mk.inj hobs
  have h : (machine 2 3).Reachable s :=
    Machine.Reachable.foldlM (fun _ _ _ he => he) (.start ⟨.inl rfl, rfl, rfl, rfl⟩) hs
  obtain ⟨hpre, hall, hstream, -⟩ := pipe_preserves_bytes 2 3 (by decide) (by decide) s h
  exact ⟨s, h, hsent, hacc, hpre, hall, hstream⟩

end Pipe

end Is2
