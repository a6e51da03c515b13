import Is2.Core.Machine
import Is2.Nconn.Transfer
import Is2.Srvr.CaseMaps
import Is2.Support.Nbq.Split

/-!
# The queue that a connection is read into

`nc_read` stores what it reads in the blocks of a queue; callbacks and handlers copy parts out of
the queue, and between two messages it may be reset.  Blocks may have any size.

* `streamed_of_inQueue`: the blocks of such a queue are full up to the writer.
* `Streamed.ncRead`: what is read is appended.
* `Readable.copyPart`: a part that is copied is what the range designates, with NULs for what is not
  there.
-/

namespace Is2

/-- What is done with the queue that a connection is read into. -/
inductive InAct where
  | ncRead (pending : Bytes) (sock : SockRead)
  | copyPart (off len : ℕ)
  | resetWrite

def InAct.run (q : Nbq) : InAct → Option Nbq
  | ncRead pending sock => (Nconn.ncRead q pending sock).map NcRead.q
  | copyPart off len => (q.copyPart off len).map Prod.fst
  | resetWrite => some q.resetWrite

/-- The queue of a connection, with blocks of any size. -/
def inQueue : Machine Nbq InAct where
  start q := ∃ bsize < 2 ^ 32, q = Nbq.init bsize
  step q a q' := a.run q = some q'

namespace Nbq

variable {q q' : Nbq}

lemma Streamed.copyPart (h : Streamed q) {off len : ℕ} {bytes : Bytes}
    (he : q.copyPart off len = some (q', bytes)) : Streamed q' ∧ q'.bsize = q.bsize := by
  obtain ⟨⟨q₂, xs, n⟩, hread, he⟩ := Option.bind_eq_some_iff.mp he
  obtain ⟨⟨q₁, m⟩, hseek, hread⟩ := Option.bind_eq_some_iff.mp hread
  obtain ⟨⟨q₀, ys, k⟩, hskip, hseek⟩ := Option.bind_eq_some_iff.mp hseek
  simp only [Option.some.injEq, Prod.mk.injEq] at he hseek
  obtain ⟨rfl, -⟩ := hseek
  obtain ⟨rfl, -⟩ := he
  have hr := (reread_readLoop hskip).trans (reread_readLoop hread)
  exact ⟨(h.resetRead.read hskip).read hread, hr.bsize⟩

lemma Streamed.resetWrite (h : Streamed q) : Streamed q.resetWrite := by
  obtain ⟨⟨r, w, h⟩, hp⟩ := h
  obtain ⟨hw, -⟩ := wf_resetWrite h.ok h.bsize_lt h.noUnderflow
  refine ⟨⟨0, 0, hw⟩, ?_, fun hne => ⟨0, if_neg hne⟩, ?_⟩
  · intro b hb
    simp only [Nbq.resetWrite, List.mem_map, List.mem_filter] at hb
    obtain ⟨c, ⟨hc, -⟩, rfl⟩ := hb
    exact hp.size c hc
  · intro v hv i b _ hi
    rw [hw.writeAt, Iter.at] at hv
    split_ifs at hv
    obtain rfl := Iter.block.inj hv
    omega

/-- `nc_read` appends what it reads. -/
lemma Streamed.ncRead (h : Streamed q) {pending : Bytes} {sock : SockRead} {r : NcRead}
    (he : Nconn.ncRead q pending sock = some r) :
    Streamed r.q ∧ r.q.contents = q.contents ++ r.bytes ∧ pending = r.bytes ++ r.pending := by
  obtain ⟨⟨i, w, h⟩, hp⟩ := h
  unfold Nconn.ncRead at he
  split_ifs at he with hmax
  · obtain rfl := Option.some.inj he
    exact ⟨⟨⟨i, w, h⟩, hp⟩, (List.append_nil _).symm, rfl⟩
  obtain ⟨⟨q₁, a⟩, hroom, he⟩ := Option.bind_eq_some_iff.mp he
  obtain ⟨r₁, w₁, h₁, ha₁, hn⟩ := h.bWriteRoom hroom
  have hst₁ : Streamed q₁ := ⟨⟨r₁, w₁, h₁⟩, hp.bWriteRoom h hroom⟩
  -- room was made, and nothing was read
  have hnone : ∀ {st : NcStatus}, r = ⟨q₁, pending, st, 0, 0, []⟩ →
      Streamed r.q ∧ r.q.contents = q.contents ++ r.bytes ∧ pending = r.bytes ++ r.pending := by
    rintro st rfl
    exact ⟨hst₁, ha₁.contents, rfl⟩
  cases a with
  | none => exact hnone (Option.some.inj he).symm
  | some n =>
      obtain ⟨hpos, b, hb, rfl⟩ := hn n rfl
      cases sock with
      | status st => exact hnone (Option.some.inj he).symm
      | data k =>
          simp only at he
          have hsize := readSize_le q₁ b.writeAvail
          generalize hbytes : pending.take (min k (Nconn.readSize q₁ b.writeAvail)) = bytes at he
          split_ifs at he with hnil
          · exact hnone (Option.some.inj he).symm
          have hlen : bytes.length ≤ b.writeAvail := by
            rw [← hbytes, List.length_take]
            omega
          have hpos := List.length_pos_iff.mpr hnil
          obtain ⟨c, hc⟩ : ∃ c, q₁.q[r₁]? = some c :=
            ⟨_, List.getElem?_eq_getElem (by
              have := h₁.read_le_write
              have := lt_of_getElem? hb
              omega)⟩
          obtain ⟨q₂, q₃, hs, hi, -, ha₃, h₃⟩ := h₁.bWriteChunk bytes hb hc hlen hpos
          simp only [h₁.writeAt_block hb, hb, hs, hi, Option.bind_eq_bind, Option.bind_some,
            Option.some.injEq] at he
          have hpre : bytes <+: pending := by
            rw [← hbytes]
            exact List.take_prefix _ _
          subst he
          refine ⟨⟨⟨_, _, h₃⟩, hst₁.2.bWriteChunk h₁ bytes hb hc hlen hpos hs hi⟩, ?_,
            (List.prefix_iff_eq_append.mp hpre).symm⟩
          rw [ha₃.contents, ha₁.contents, List.append_nil]

lemma streamed_of_inQueue (h : inQueue.Reachable q) : Streamed q := by
  refine h.invariant (P := Streamed) ?_ ?_
  · rintro q ⟨bsize, hlt, rfl⟩
    exact ⟨⟨0, 0, wf_init hlt⟩, packed_init bsize⟩
  · intro q a q' hq he
    cases a with
    | ncRead pending sock =>
        obtain ⟨r, hr, rfl⟩ := Option.map_eq_some_iff.mp he
        exact (hq.ncRead hr).1
    | copyPart off len =>
        obtain ⟨⟨q₁, bytes⟩, hr, rfl⟩ := Option.map_eq_some_iff.mp he
        exact (hq.copyPart hr).1
    | resetWrite =>
        obtain rfl := Option.some.inj he
        exact hq.resetWrite

end Nbq

/-! ## Copying parts of a queue -/

/-- What `copy_part` makes of a range: what is there of it, and NULs. -/
def Cr.padded (c : Cr) (bytes : Bytes) : Bytes :=
  c.slice bytes ++ List.replicate (c.len - (c.slice bytes).length) 0

lemma Cr.padded_of_le {c : Cr} {bytes : Bytes} (h : c.stop ≤ bytes.length) :
    c.padded bytes = c.slice bytes := by
  rw [Cr.padded, Cr.length_slice h, Nat.sub_self, List.replicate_zero, List.append_nil]

namespace Nbq

variable {q q' : Nbq} {xs : Bytes}

lemma Sound.copyPart (h : Sound q) (c : Cr) :
    ∃ q', q.copyPart c.off c.len = some (q', c.padded q.contents) ∧ Sound q' ∧
      q'.contents = q.contents := by
  obtain ⟨w, hw⟩ := h.exists_writer
  obtain ⟨h₁, hc, hr, -⟩ := hw.resetRead h.accounted.offset h.accounted.noUnderflow
  have hu : q.resetRead.unread = q.contents := by
    have := h₁.consumed_append_unread
    rwa [hr, List.nil_append, hc] at this
  obtain ⟨q₁, r₁, he₁, h₂, hrd, -⟩ := h₁.read c.off
  obtain ⟨q₂, r₂, he₂, h₃, hrd', -⟩ := h₂.read c.len
  have hu₁ : q₁.unread = q.contents.drop c.off := by
    have := hrd.unread h₁ h₂
    rw [hu] at this
    exact (List.append_cancel_left ((List.take_append_drop c.off q.contents).trans this)).symm
  rw [hu₁] at he₂
  refine ⟨q₂, ?_, .inl ⟨r₂, w, h₃⟩, ?_⟩
  · simp [Nbq.copyPart, Nbq.readFrom, Nbq.readSeek, he₁, he₂, Cr.padded, Cr.slice]
  · rw [hrd'.contents, hrd.contents, hc]

lemma Readable.copyPart (h : Readable q xs) (c : Cr) :
    ∃ q', q.copyPart c.off c.len = some (q', c.padded xs) ∧ Readable q' xs := by
  obtain ⟨p, hp, rfl, ha⟩ := h
  obtain ⟨p', he, hp', hc⟩ := hp.copyPart c
  obtain ⟨⟨p₂, ys, n⟩, hread, he⟩ := Option.bind_eq_some_iff.mp he
  obtain ⟨⟨p₁, m⟩, hseek, hread⟩ := Option.bind_eq_some_iff.mp hread
  obtain ⟨⟨p₀, zs, k⟩, hskip, hseek⟩ := Option.bind_eq_some_iff.mp hseek
  simp only [Option.some.injEq, Prod.mk.injEq] at he hseek
  obtain ⟨rfl, -⟩ := hseek
  obtain ⟨rfl, hbytes⟩ := he
  obtain ⟨q₁, he₁, ha₁⟩ := ha.resetRead.read hskip
  obtain ⟨q₂, he₂, ha₂⟩ := ha₁.read hread
  refine ⟨q₂, ?_, p₂, hp', hc, ha₂⟩
  simp [Nbq.copyPart, Nbq.readFrom, Nbq.readSeek, he₁, he₂, ← hbytes]

lemma Readable.contents_eq (h : Readable q xs) : q.contents = xs := by
  obtain ⟨p, -, rfl, a, u, m, rfl⟩ := h
  rfl

lemma Streamed.readable (h : Streamed q) : Readable q q.contents := Sound.readable (.inl h.1)

/-- `copy_part` leaves the bytes alone. -/
lemma Streamed.contents_copyPart (h : Streamed q) {off len : ℕ} {bytes : Bytes}
    (he : q.copyPart off len = some (q', bytes)) : q'.contents = q.contents := by
  obtain ⟨q₁, he₁, h₁⟩ := h.readable.copyPart ⟨off, len⟩
  obtain ⟨rfl, -⟩ := Prod.mk.inj (Option.some.inj (he.symm.trans he₁))
  exact h₁.contents_eq

end Nbq

end Is2
