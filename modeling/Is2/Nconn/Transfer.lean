import Is2.Support.Nbq.Refinement

/-!
# Reading from and writing to the socket

`nc_read` appends to a queue what the socket has, up to the room in one block, and `nc_write`
takes from a queue what the socket accepts, up to what is left in one block.  The socket's answers
are parameters.

Both are followed by the abstract queue: `Rep.ncRead` and `Rep.ncWrite`.
-/

namespace Is2

/-- `nc_conn_state_t`. -/
inductive NcState where
  | free
  | listening
  | accepting
  | connecting
  | connected
  | done
deriving DecidableEq, Repr

/-- `evr_mode_t`. -/
inductive EvrMode where
  | none
  | read
  | write
  | timeout
  | error
deriving DecidableEq, Repr

/-- `NC_STATUS_*` below zero, and success. -/
inductive NcStatus where
  | ok
  | again
  | error
  | unsupported
  | eof
  | brk
  | idle
  | readUnavailable
  | none
deriving DecidableEq, Repr

/-- What `ncread` finds: up to `k` bytes can be taken, or a status. -/
inductive SockRead where
  | data (k : ℕ)
  | status (st : NcStatus)
deriving DecidableEq, Repr

/-- What `ncwrite` answers: up to `k` bytes are taken, or a status. -/
inductive SockWrite where
  | accept (k : ℕ)
  | status (st : NcStatus)
deriving DecidableEq, Repr

/-- The result of `nc_read`: the queue, what the peer still has to send, and what was read, with
the block and the place in the block it was read to. -/
structure NcRead where
  q : Nbq
  pending : List UInt8
  status : NcStatus
  block : ℕ
  pos : ℕ
  bytes : List UInt8
deriving DecidableEq, Repr

namespace Nconn

/-- `l_read_size` of `nc_read`, for a block with room for `avail` bytes. -/
def readSize (q : Nbq) (avail : ℕ) : ℕ :=
  if 0 < q.maxReadQueue ∧ q.maxReadQueue < ((q.readAvail + avail : ℕ) : ℤ) then
    (q.maxReadQueue - q.readAvail).toNat
  else avail

/-- `nconn::nc_read`. -/
def ncRead (q : Nbq) (pending : List UInt8) (sock : SockRead) : Option NcRead :=
  if q.readAvailIsMaxLimit then some ⟨q, pending, .readUnavailable, 0, 0, []⟩
  else do
    match ← q.bWriteRoom with
    | (q, none) => some ⟨q, pending, .error, 0, 0, []⟩
    | (q, some avail) =>
        match sock with
        | .status st => some ⟨q, pending, st, 0, 0, []⟩
        | .data k =>
            let bytes := pending.take (min k (readSize q avail))
            -- nothing there to take
            if bytes = [] then some ⟨q, pending, .again, 0, 0, []⟩
            else
              match q.curWriteBlock with
              | .block i =>
                  let b ← q.q[i]?
                  let q ← q.bWriteStore bytes
                  let q ← q.bWriteIncr bytes.length
                  some ⟨q, pending.drop bytes.length, .ok, i, b.written, bytes⟩
              | _ => none

/-- `nconn::nc_write`: the queue, the status and the bytes the socket took. -/
def ncWrite (q : Nbq) (sock : SockWrite) : Option (Nbq × NcStatus × List UInt8) :=
  if q.readAvail = 0 then some (q, .ok, [])
  else
    match sock with
    | .status .again => some (q, .again, [])
    | .status _ => some (q, .error, [])
    | .accept k => do
        let avail ← q.bReadAvail
        let n := min k (toUInt32 avail)
        if n = 0 then some (q, .ok, [])
        else
          let bytes ← q.bReadLoad n
          let q ← q.bReadIncr n
          let q ← q.shrink
          some (q, .ok, bytes)

end Nconn

/-- What a read stored lies in the block that was being written, behind what was written before; and
so does all the room that was offered to the socket. -/
def NcRead.Inside (r : NcRead) (q : Nbq) : Prop :=
  ∃ q₁ avail b, q.bWriteRoom = some (q₁, some avail) ∧ q₁.curWriteBlock = .block r.block ∧
    q₁.q[r.block]? = some b ∧ r.pos = b.written ∧ r.bytes.length ≤ Nconn.readSize q₁ avail ∧
    r.pos + Nconn.readSize q₁ avail ≤ b.size

/-! ## What they do to the abstract queue -/

namespace Nbq

variable {q : Nbq} {a : SeekQueue UInt8}

lemma Rep.bWriteRoom (h : Rep q a) : ∃ q' n r w b, q.bWriteRoom = some (q', some n) ∧ Rep q' a ∧
    Wf q' r w ∧ Filled q' r w ∧ q'.q[w]? = some b ∧ b.writeAvail = n ∧ 0 < n := by
  obtain ⟨r, w, h, hf, hc, hr⟩ := h
  obtain ⟨q', n, r', w', b, he, h', hf', ha, hb, hn, h0⟩ := hf.bWriteRoom h
  refine ⟨q', n, r', w', b, he, ⟨r', w', h', hf', ?_, ?_⟩, h', hf', hb, hn, h0⟩
  · rw [ha.contents, hc, List.append_nil]
  · rw [ha.consumed, hr]

lemma readSize_le (q : Nbq) (avail : ℕ) : Nconn.readSize q avail ≤ avail := by
  unfold Nconn.readSize
  split_ifs with h
  · omega
  · exact le_refl _

/-- `nc_read` is defined on every queue, and stores inside one block. -/
lemma Rep.ncRead_run (h : Rep q a) (pending : List UInt8) (sock : SockRead) :
    ∃ r, Nconn.ncRead q pending sock = some r ∧
      ((r.bytes = [] ∧ r.pending = pending ∧ Rep r.q a) ∨
        (r.status = .ok ∧ r.bytes ≠ [] ∧ pending = r.bytes ++ r.pending ∧
          Rep r.q (a.append r.bytes) ∧ r.Inside q)) := by
  unfold Nconn.ncRead
  split_ifs with hmax
  · exact ⟨_, rfl, Or.inl ⟨rfl, rfl, h⟩⟩
  obtain ⟨q₁, n, r₁, w₁, b, hroom, hrep₁, h₁, hf₁, hb, hn, h0⟩ := h.bWriteRoom
  simp only [hroom, Option.bind_eq_bind, Option.bind_some]
  cases sock with
  | status st => exact ⟨_, rfl, Or.inl ⟨rfl, rfl, hrep₁⟩⟩
  | data k =>
      simp only
      have hsize := readSize_le q₁ n
      generalize hbytes : pending.take (min k (Nconn.readSize q₁ n)) = bytes
      split_ifs with hnil
      · exact ⟨_, rfl, Or.inl ⟨rfl, rfl, hrep₁⟩⟩
      have hread : bytes.length ≤ Nconn.readSize q₁ n := by
        rw [← hbytes, List.length_take]
        omega
      obtain ⟨q₂, q₃, r₃, w₃, hstore, hincr, h₃, hf₃, ha₃⟩ := hf₁.bWriteChunk h₁ bytes hb
        (by omega) (List.length_pos_iff.mpr hnil)
      have hat : q₁.curWriteBlock = .block w₁ := by
        rw [h₁.writeAt]
        exact Iter.at_of_lt (lt_of_getElem? hb)
      simp only [hat, hb, hstore, hincr, Option.bind_some]
      obtain ⟨r', w', -, -, hc', hr'⟩ := hrep₁
      refine ⟨_, rfl, Or.inr ⟨rfl, hnil, ?_, ⟨r₃, w₃, h₃, hf₃, ?_, ?_⟩, ?_⟩⟩
      · have hpre : bytes <+: pending := by
          rw [← hbytes]
          exact List.take_prefix _ _
        exact (List.prefix_iff_eq_append.mp hpre).symm
      · rw [ha₃.contents, hc']
        rfl
      · rw [ha₃.consumed, hr', a.consumed_append]
      · refine ⟨q₁, n, b, hroom, hat, hb, rfl, hread, ?_⟩
        have hok := (h₁.mem_ok hb).written_le
        simp only [Nb.writeAvail] at hn
        show b.written + Nconn.readSize q₁ n ≤ b.size
        omega

/-- **`nc_read` appends what it read.** -/
lemma Rep.ncRead (h : Rep q a) {pending : List UInt8} {sock : SockRead} {r : NcRead}
    (he : Nconn.ncRead q pending sock = some r) :
    (r.bytes = [] ∧ r.pending = pending ∧ Rep r.q a) ∨
      (r.status = .ok ∧ r.bytes ≠ [] ∧ pending = r.bytes ++ r.pending ∧
        Rep r.q (a.append r.bytes)) := by
  obtain ⟨r', he', hr⟩ := h.ncRead_run pending sock
  rw [he] at he'
  obtain rfl := Option.some.inj he'
  exact hr.imp_right fun ⟨hst, hne, hp, hrep, _⟩ => ⟨hst, hne, hp, hrep⟩

/-- What `nc_read` does with a queue: nothing, it finds room, or it stores what it read there. -/
lemma ncRead_cases {pending : List UInt8} {sock : SockRead} {r : NcRead}
    (h : Nconn.ncRead q pending sock = some r) :
    (r.bytes = [] ∧ (r.q = q ∨ ∃ x, q.bWriteRoom = some (r.q, x))) ∨
      ∃ q₁ n b q₂, q.bWriteRoom = some (q₁, some n) ∧ q₁.curWriteBlock = .block r.block ∧
        q₁.q[r.block]? = some b ∧ r.pos = b.written ∧ r.bytes ≠ [] ∧ r.bytes.length ≤ n ∧
        q₁.bWriteStore r.bytes = some q₂ ∧ q₂.bWriteIncr r.bytes.length = some r.q := by
  unfold Nconn.ncRead at h
  split_ifs at h with hmax
  · obtain rfl := Option.some.inj h
    exact .inl ⟨rfl, .inl rfl⟩
  obtain ⟨⟨q₁, room⟩, hroom, h⟩ := Option.bind_eq_some_iff.mp h
  cases room with
  | none =>
      obtain rfl := Option.some.inj h
      exact .inl ⟨rfl, .inr ⟨_, hroom⟩⟩
  | some n =>
      cases sock with
      | status st =>
          obtain rfl := Option.some.inj h
          exact .inl ⟨rfl, .inr ⟨_, hroom⟩⟩
      | data k =>
          simp only at h
          split_ifs at h with hnil
          · obtain rfl := Option.some.inj h
            exact .inl ⟨rfl, .inr ⟨_, hroom⟩⟩
          cases hw : q₁.curWriteBlock with
          | block i =>
              rw [hw] at h
              obtain ⟨b, hb, h⟩ := Option.bind_eq_some_iff.mp h
              obtain ⟨q₂, hstore, h⟩ := Option.bind_eq_some_iff.mp h
              obtain ⟨q₃, hincr, h⟩ := Option.bind_eq_some_iff.mp h
              obtain rfl := Option.some.inj h
              refine .inr ⟨q₁, n, b, q₂, hroom, hw, hb, rfl, hnil, ?_, hstore, hincr⟩
              have := Nbq.readSize_le q₁ n
              dsimp only
              rw [List.length_take]
              omega
          | stop | freed =>
              rw [hw] at h
              cases h

/-- **Where a read goes**: to the place in its block that the count of the bytes held says; and the
block stays the one being written, unless the read fills it and there is a block behind it. -/
lemma Rep.ncRead_place (h : Rep q a) (hq : q.Ready) {pending : List UInt8} {sock : SockRead}
    {r : NcRead} (he : Nconn.ncRead q pending sock = some r) :
    r.q.bsize = q.bsize ∧ r.q.Ready ∧ (r.bytes ≠ [] → r.pos = a.contents.length % q.bsize ∧
      (¬ (a.contents.length % q.bsize + r.bytes.length = q.bsize ∧
        a.contents.length / q.bsize + 1 < q.q.length) → r.q.curWriteBlock = .block r.block)) := by
  obtain ⟨r₀, w₀, hwf, hf, hc, -⟩ := h
  obtain ⟨q₁, n, r₁, w, b, hroom, h₁, hf₁, ha, hb, hn, h0⟩ := hf.bWriteRoom hwf
  have hsize : q₁.bsize = q.bsize := ha.bsize
  rcases ncRead_cases he with ⟨hnil, hrq⟩ | ⟨q₁', n', b', q₂, hroom', hw, hb', hpos, hne, hle,
    hs, hi⟩
  · refine ⟨?_, ?_, fun hne => absurd hnil hne⟩
    · rcases hrq with hrq | ⟨x, hx⟩
      · rw [hrq]
      · rw [hroom] at hx
        rw [← (Prod.mk.inj (Option.some.inj hx)).1, hsize]
    · rcases hrq with hrq | ⟨x, hx⟩
      · rw [hrq]
        exact hq
      · rw [hroom] at hx
        rw [← (Prod.mk.inj (Option.some.inj hx)).1]
        exact .of_room h₁ hb (hn ▸ h0)
  rw [hroom] at hroom'
  obtain ⟨rfl, hnn⟩ := Prod.mk.inj (Option.some.inj hroom')
  obtain rfl := Option.some.inj hnn
  rw [h₁.writeAt_block hb] at hw
  obtain rfl := Iter.block.inj hw
  rw [hb] at hb'
  obtain rfl := Option.some.inj hb'
  obtain ⟨hb₃, hready, hstay⟩ := hf₁.bWriteChunk_ready h₁ hb (hn ▸ hle)
    (List.length_pos_iff.mpr hne) hs hi
  refine ⟨hb₃.trans hsize, hready, fun _ => ?_⟩
  -- the writer's block and the place in it, from the number of bytes held
  have hlen : a.contents.length = r.block * q.bsize + b.written := by
    rw [← hc, ← hsize, ← hf₁.length_contents h₁ hb, ha.contents, List.append_nil]
  have hroom_lt : b.written < q.bsize := by
    have := hf₁.size b (List.mem_of_getElem? hb)
    simp only [Nb.writeAvail] at hn
    omega
  have hmod : a.contents.length % q.bsize = b.written := by
    rw [hlen, Nat.mul_add_mod_self_right, Nat.mod_eq_of_lt hroom_lt]
  have hdiv : a.contents.length / q.bsize = r.block := by
    rw [hlen, Nat.mul_comm, Nat.mul_add_div (by omega), Nat.div_eq_of_lt hroom_lt, Nat.add_zero]
  rw [hmod, hdiv]
  refine ⟨hpos, fun hnot => hstay ?_⟩
  rintro ⟨hfull, hlt⟩
  refine hnot ⟨?_, ?_⟩
  · have := hf₁.size b (List.mem_of_getElem? hb)
    simp only [Nb.writeAvail] at hfull
    omega
  · rcases hf.bWriteRoom_cases hwf hq hroom with rfl | ⟨hmore, hall⟩
    · exact hlt
    · -- a block that was added is the last one
      have hw : r.block = q.q.length := by
        rw [← hdiv, ← hc, hall, Nat.mul_div_cancel _ (by omega)]
      omega

/-- `nc_write` is defined on every queue. -/
lemma Rep.ncWrite_run (h : Rep q a) (sock : SockWrite) :
    ∃ q' st out a', Nconn.ncWrite q sock = some (q', st, out) ∧ Rep q' a' ∧
      a.unread = out ++ a'.unread := by
  unfold Nconn.ncWrite
  split_ifs with h0
  · exact ⟨q, _, [], a, rfl, h, rfl⟩
  cases sock with
  | status s => cases s <;> exact ⟨q, _, [], a, rfl, h, rfl⟩
  | accept k =>
      have hu := h.unread
      obtain ⟨r, w, hwf, hf, hc, hr⟩ := id h
      have hne : q.q ≠ [] := by
        intro hnil
        rw [Nbq.readAvail, hwf.avail, hnil] at h0
        exact h0 rfl
      obtain ⟨b, hb⟩ : ∃ b, q.q[r]? = some b :=
        ⟨_, List.getElem?_eq_getElem (lt_of_le_of_lt hwf.read_le_write (hf.room hne))⟩
      simp only [hwf.bReadAvail hb, hwf.toUInt32_bReadAvail hb, Option.bind_eq_bind,
        Option.bind_some]
      split_ifs with hn
      · exact ⟨q, _, [], a, rfl, h, rfl⟩
      have hle : min k b.readAvail ≤ b.readAvail := Nat.min_le_right _ _
      obtain ⟨q₁, r₁, he₁, hwf₁, hrd, -, rfl⟩ := hwf.bReadIncr hb hle
      have hf₁ := hf.bReadIncr hwf hb hle he₁
      have hrep₁ : Rep q₁ (a.advance (min k b.readAvail)) := by
        refine ⟨_, w, hwf₁, hf₁, ?_, ?_⟩
        · rw [hrd.contents, hc]
          rfl
        · rw [hrd.consumed, hr, hu, a.consumed_advance]
      obtain ⟨q₂, d, hd, hshrink, hrep₂⟩ := hrep₁.shrink
      simp only [hwf.bReadLoad hb hle, he₁, hshrink, Option.bind_some]
      refine ⟨q₂, _, _, _, rfl, hrep₂, ?_⟩
      rw [SeekQueue.unread_forget, SeekQueue.unread_advance, hu, List.take_append_drop]

/-- **`nc_write` sends the next unread bytes** and drops only what was sent. -/
lemma Rep.ncWrite (h : Rep q a) {sock : SockWrite} {q' : Nbq} {st : NcStatus} {out : List UInt8}
    (he : Nconn.ncWrite q sock = some (q', st, out)) :
    ∃ a', Rep q' a' ∧ a.unread = out ++ a'.unread := by
  obtain ⟨q₁, st₁, out₁, a', he', hrep, hu⟩ := h.ncWrite_run sock
  rw [he] at he'
  obtain ⟨rfl, hrest⟩ := Prod.mk.inj (Option.some.inj he')
  obtain ⟨-, rfl⟩ := Prod.mk.inj hrest
  exact ⟨a', hrep, hu⟩

end Nbq

end Is2
