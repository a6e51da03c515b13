import Is2.Core.SeekQueue
import Is2.Support.Nbq.Filled
import Mathlib.Logic.Function.Basic

/-!
# `nbq` refines a byte queue

Leaving `split` and `join_ref` aside, an `nbq` is a `SeekQueue` of bytes: a byte list and a
position in it.  The operations act on a pool of queues, because `write_q` has a source queue as
well as a destination.

* `Op.run` runs an operation of the code on the pool, `Op.Spec` says what the same operation does
  to a pool of abstract queues and what it answers.
* `Rep q a` relates a queue to the abstract one; `Rep.step` is the simulation of one operation.
* `Simulates` follows a whole sequence of operations: in every state both counters agree with the
  abstract queue, every operation of the code is defined, and it answers what the abstract one does.
-/

namespace Is2

namespace Nbq

/-! ## Operations on a pool of queues -/

/-- What a caller of `nbq` sees: a count, the bytes copied out with their count, or one byte. -/
inductive Answer where
  | done
  | count (n : ℤ)
  | bytes (xs : List UInt8) (n : ℕ)
  | byte (x : UInt8)
deriving DecidableEq, Repr

/-- The operations of a pool of queues named by `ι`; `write_q` takes another queue. -/
inductive Op (ι : Type) where
  | write (i : ι) (buf : List UInt8)
  | writeQ (i src : ι) (other : src ≠ i)
  | read (i : ι) (len : ℕ)
  | readSeek (i : ι) (off : ℕ)
  | readFrom (i : ι) (off len : ℕ)
  | peek (i : ι)
  | resetRead (i : ι)
  | resetWrite (i : ι)
  | reset (i : ι)
  | shrink (i : ι)

variable {ι : Type} [DecidableEq ι]

/-- One operation of the code on the pool; `none` if it has no defined behaviour. -/
def Op.run (Q : ι → Nbq) : Op ι → Option ((ι → Nbq) × Answer)
  | write i buf => do
      let (q, n) ← (Q i).write (some buf)
      some (Function.update Q i q, .count n)
  | writeQ i src _ => do
      let (q, s, n) ← (Q i).writeQ (Q src)
      some (Function.update (Function.update Q i q) src s, .count n)
  | read i len => do
      let (q, xs, n) ← (Q i).read len
      some (Function.update Q i q, .bytes xs n)
  | readSeek i off => do
      let (q, n) ← (Q i).readSeek off
      some (Function.update Q i q, .count n)
  | readFrom i off len => do
      let (q, xs, n) ← (Q i).readFrom off len
      some (Function.update Q i q, .bytes xs n)
  | peek i => do
      let x ← (Q i).peek
      some (Q, .byte x)
  | resetRead i => some (Function.update Q i (Q i).resetRead, .done)
  | resetWrite i => some (Function.update Q i (Q i).resetWrite, .done)
  | reset i => some (Function.update Q i (Q i).reset, .done)
  | shrink i => do
      let q ← (Q i).shrink
      some (Function.update Q i q, .done)

/-- What an operation is meant to do to the abstract queues, and to answer.  `shrink` alone is
free: it may forget any part of what was read. -/
def Op.Spec (A A' : ι → SeekQueue UInt8) (ans : Answer) : Op ι → Prop
  | write i buf => A' = Function.update A i ((A i).append buf) ∧ ans = .count buf.length
  | writeQ i src _ =>
      A' = Function.update (Function.update A i ((A i).append (A src).unread)) src
          ((A src).seek (A src).contents.length) ∧
        ans = .count (A src).unread.length
  | read i len =>
      A' = Function.update A i ((A i).advance len) ∧
        ans = .bytes ((A i).unread.take len) (min len ((A i).contents.length - (A i).pos))
  | readSeek i off =>
      A' = Function.update A i ((A i).seek off) ∧
        ans = .count (min off (A i).contents.length : ℕ)
  | readFrom i off len =>
      A' = Function.update A i (((A i).seek off).advance len) ∧
        ans = .bytes (((A i).contents.drop off).take len)
          (min len ((A i).contents.length - min off (A i).contents.length))
  | peek i => A' = A ∧ ans = .byte ((A i).unread.headD 0)
  | resetRead i => A' = Function.update A i ((A i).seek 0) ∧ ans = .done
  | resetWrite i => A' = Function.update A i .empty ∧ ans = .done
  | reset i => A' = Function.update A i .empty ∧ ans = .done
  | shrink i =>
      ∃ k, ∃ hk : k ≤ (A i).pos, A' = Function.update A i ((A i).forget k hk) ∧ ans = .done

/-! ## The relation between a queue and its meaning -/

/-- `q` holds what `a` holds and has read what `a` has read. -/
def Rep (q : Nbq) (a : SeekQueue UInt8) : Prop :=
  ∃ r w, Wf q r w ∧ Filled q r w ∧ q.contents = a.contents ∧ q.consumed = a.consumed

section Rep

variable {q : Nbq} {a : SeekQueue UInt8}

lemma Rep.unread (h : Rep q a) : q.unread = a.unread := by
  obtain ⟨r, w, h, -, hc, hr⟩ := h
  have h1 := h.consumed_append_unread
  rw [hc, hr, ← a.consumed_append_unread] at h1
  exact List.append_cancel_left h1

/-- `nbq::read_avail`. -/
lemma Rep.readAvail (h : Rep q a) : q.readAvail = a.contents.length - a.pos := by
  have hu := h.unread
  obtain ⟨r, w, h, -⟩ := h
  rw [Nbq.readAvail, h.avail_eq, hu, a.length_unread]

lemma Rep.curWriteOffset (h : Rep q a) : q.curWriteOffset = a.contents.length := by
  obtain ⟨r, w, h, -, hc, -⟩ := h
  rw [h.offset_eq, hc]

lemma rep_init {bsize : ℕ} (h0 : 0 < bsize) (h : bsize < 2 ^ 31) : Rep (init bsize) .empty :=
  ⟨0, 0, wf_init (by omega), filled_init h0 h, rfl, rfl⟩

lemma Rep.write (h : Rep q a) (buf : List UInt8) :
    ∃ q', q.write (some buf) = some (q', (buf.length : ℤ)) ∧ Rep q' (a.append buf) := by
  obtain ⟨r, w, h, hf, hc, hr⟩ := h
  obtain ⟨q', r', w', he, h', hf', ha⟩ := hf.write h buf
  refine ⟨q', he, r', w', h', hf', ?_, ?_⟩
  · rw [ha.contents, hc]
    rfl
  · rw [ha.consumed, hr, a.consumed_append]

lemma Rep.read (h : Rep q a) (len : ℕ) :
    ∃ q', q.read len = some (q', a.unread.take len, min len (a.contents.length - a.pos)) ∧
      Rep q' (a.advance len) := by
  have hu := h.unread
  obtain ⟨r, w, h, hf, hc, hr⟩ := h
  obtain ⟨q', r', he, h', hrd, hf'⟩ := h.read len
  rw [hu] at he hrd
  refine ⟨q', by rw [he, a.length_unread], r', w, h', hf' hf, ?_, ?_⟩
  · rw [hrd.contents, hc]
    rfl
  · rw [hrd.consumed, hr, a.consumed_advance]

lemma Rep.writeQ {src : Nbq} {b : SeekQueue UInt8} (h : Rep q a) (hs : Rep src b) :
    ∃ q' src', q.writeQ src = some (q', src', (b.unread.length : ℤ)) ∧
      Rep q' (a.append b.unread) ∧ Rep src' (b.seek b.contents.length) := by
  have hu := hs.unread
  obtain ⟨r, w, h, hf, hc, hr⟩ := h
  obtain ⟨r₀, w₀, hs, hfs, hcs, hrs⟩ := hs
  obtain ⟨q', src', r', w', r₁, he, h', hf', ha, hs', hfs', hrd⟩ := hf.writeQ h hfs hs
  rw [hu] at he ha hrd
  refine ⟨q', src', he, ⟨r', w', h', hf', ?_, ?_⟩, ⟨r₁, w₀, hs', hfs', ?_, ?_⟩⟩
  · rw [ha.contents, hc]
    rfl
  · rw [ha.consumed, hr, a.consumed_append]
  · rw [hrd.contents, hcs]
    rfl
  · rw [hrd.consumed, hrs, b.consumed_append_unread, b.consumed_seek, List.take_length]

lemma Rep.resetRead (h : Rep q a) : Rep q.resetRead (a.seek 0) := by
  obtain ⟨r, w, h, hf, hc, hr⟩ := h
  obtain ⟨h', hc', hr', -⟩ := h.resetRead
  refine ⟨0, w, h', hf.resetRead h, ?_, ?_⟩
  · rw [hc', hc]
    rfl
  · rw [hr', a.consumed_seek, List.take_zero]

lemma Rep.readSeek (h : Rep q a) (off : ℕ) :
    ∃ q', q.readSeek off = some (q', min off a.contents.length) ∧ Rep q' (a.seek off) := by
  obtain ⟨q', he, h'⟩ := h.resetRead.read off
  have hz : (a.seek 0).pos = 0 := Nat.zero_min _
  refine ⟨q', ?_, ?_⟩
  · rw [hz] at he
    simp only [Nbq.readSeek, he, Option.bind_eq_bind, Option.bind_some]
    rfl
  · rw [SeekQueue.advance, hz, Nat.zero_add] at h'
    exact h'

lemma Rep.readFrom (h : Rep q a) (off len : ℕ) :
    ∃ q', q.readFrom off len = some (q', (a.contents.drop off).take len,
        min len (a.contents.length - min off a.contents.length)) ∧
      Rep q' ((a.seek off).advance len) := by
  obtain ⟨q₁, he₁, h₁⟩ := h.readSeek off
  obtain ⟨q', he, h'⟩ := h₁.read len
  refine ⟨q', ?_, h'⟩
  have hu : (a.seek off).unread = a.contents.drop off := by
    simp only [SeekQueue.unread, SeekQueue.seek]
    rcases Nat.le_total off a.contents.length with hl | hl
    · rw [Nat.min_eq_left hl]
    · rw [Nat.min_eq_right hl, List.drop_length, List.drop_eq_nil_of_le hl]
  rw [hu] at he
  simp only [Nbq.readFrom, he₁, Option.bind_eq_bind, Option.bind_some, he]
  rfl

lemma Rep.peek (h : Rep q a) : q.peek = some (a.unread.headD 0) := by
  have hu := h.unread
  obtain ⟨r, w, h, hf, -, -⟩ := h
  rw [hf.peek h, hu]

lemma Rep.resetWrite (h : Rep q a) : Rep q.resetWrite .empty := by
  obtain ⟨r, w, h, hf, -, -⟩ := h
  obtain ⟨h', hc, hr⟩ := wf_resetWrite h.ok h.bsize_lt h.noUnderflow
  exact ⟨0, 0, h', hf.resetWrite, hc, hr⟩

lemma Rep.reset (h : Rep q a) : Rep q.reset .empty := by
  obtain ⟨r, w, h, hf, -, -⟩ := h
  obtain ⟨h', hc, hr⟩ := wf_reset h.bsize_lt h.noUnderflow
  exact ⟨0, 0, h', hf.reset, hc, hr⟩

/-- What `shrink` drops is a prefix of what was read. -/
lemma Rep.shrink (h : Rep q a) :
    ∃ q' k, ∃ hk : k ≤ a.pos, q.shrink = some q' ∧ Rep q' (a.forget k hk) := by
  obtain ⟨r, w, h, hf, hc, hr⟩ := h
  obtain ⟨q', w', xs, he, h', hf', hd⟩ := hf.shrink h
  have hcons : a.consumed = xs ++ q'.consumed := by rw [← hr, hd.consumed]
  have hk : xs.length ≤ a.pos := by
    rw [← a.length_consumed, hcons, List.length_append]
    omega
  refine ⟨q', xs.length, hk, he, 0, w', h', hf', ?_, ?_⟩
  · simp only [SeekQueue.forget]
    rw [← hc, hd.contents, List.drop_left]
  · rw [SeekQueue.consumed_forget, hcons, List.drop_left]

end Rep

/-! ## Runs -/

/-- A pool of queues represents a pool of abstract queues. -/
def PoolRep (Q : ι → Nbq) (A : ι → SeekQueue UInt8) : Prop := ∀ i, Rep (Q i) (A i)

lemma PoolRep.update {Q : ι → Nbq} {A : ι → SeekQueue UInt8} (h : PoolRep Q A)
    {i : ι} {q : Nbq} {a : SeekQueue UInt8} (hq : Rep q a) :
    PoolRep (Function.update Q i q) (Function.update A i a) := by
  intro j
  by_cases hj : j = i
  · subst hj
    simpa using hq
  · simpa [Function.update_of_ne hj] using h j

/-- One operation of the code is one operation of the abstract queues. -/
lemma PoolRep.step {Q : ι → Nbq} {A : ι → SeekQueue UInt8} (h : PoolRep Q A) (op : Op ι) :
    ∃ Q' A' ans, op.run Q = some (Q', ans) ∧ op.Spec A A' ans ∧ PoolRep Q' A' := by
  cases op with
  | write i buf =>
      obtain ⟨q, he, hq⟩ := (h i).write buf
      exact ⟨_, _, _, by simp [Op.run, he], ⟨rfl, rfl⟩, h.update hq⟩
  | writeQ i src other =>
      obtain ⟨q, s, he, hq, hs⟩ := (h i).writeQ (h src)
      exact ⟨_, _, _, by simp [Op.run, he], ⟨rfl, rfl⟩,
        (h.update hq).update hs⟩
  | read i len =>
      obtain ⟨q, he, hq⟩ := (h i).read len
      exact ⟨_, _, _, by simp [Op.run, he], ⟨rfl, rfl⟩, h.update hq⟩
  | readSeek i off =>
      obtain ⟨q, he, hq⟩ := (h i).readSeek off
      exact ⟨_, _, _, by simp [Op.run, he], ⟨rfl, rfl⟩, h.update hq⟩
  | readFrom i off len =>
      obtain ⟨q, he, hq⟩ := (h i).readFrom off len
      exact ⟨_, _, _, by simp [Op.run, he], ⟨rfl, rfl⟩, h.update hq⟩
  | peek i => exact ⟨_, _, _, by simp [Op.run, (h i).peek], ⟨rfl, rfl⟩, h⟩
  | resetRead i => exact ⟨_, _, _, rfl, ⟨rfl, rfl⟩, h.update (h i).resetRead⟩
  | resetWrite i => exact ⟨_, _, _, rfl, ⟨rfl, rfl⟩, h.update (h i).resetWrite⟩
  | reset i => exact ⟨_, _, _, rfl, ⟨rfl, rfl⟩, h.update (h i).reset⟩
  | shrink i =>
      obtain ⟨q, k, hk, he, hq⟩ := (h i).shrink
      exact ⟨_, _, _, by simp [Op.run, he], ⟨k, hk, rfl, rfl⟩, h.update hq⟩

/-- Both counters of every queue are those of the abstract queue. -/
def CountersAgree (Q : ι → Nbq) (A : ι → SeekQueue UInt8) : Prop :=
  ∀ i, (Q i).readAvail = (A i).contents.length - (A i).pos ∧
    (Q i).curWriteOffset = (A i).contents.length

/-- Running the operations on `Q`, the abstract queues `A` follow: every operation is defined,
does and answers what the abstract one does, and the counters agree in every state. -/
inductive Simulates : (ι → Nbq) → (ι → SeekQueue UInt8) → List (Op ι) → Prop where
  | nil {Q A} : CountersAgree Q A → Simulates Q A []
  | cons {Q A Q' A' op ops ans} : CountersAgree Q A → op.run Q = some (Q', ans) →
      op.Spec A A' ans → Simulates Q' A' ops → Simulates Q A (op :: ops)

omit [DecidableEq ι] in
lemma PoolRep.countersAgree {Q : ι → Nbq} {A : ι → SeekQueue UInt8} (h : PoolRep Q A) :
    CountersAgree Q A :=
  fun i => ⟨(h i).readAvail, (h i).curWriteOffset⟩

lemma PoolRep.simulates (ops : List (Op ι)) :
    ∀ {Q : ι → Nbq} {A : ι → SeekQueue UInt8}, PoolRep Q A → Simulates Q A ops := by
  induction ops with
  | nil => exact fun h => .nil h.countersAgree
  | cons op ops ih =>
      intro Q A h
      obtain ⟨Q', A', ans, he, hs, h'⟩ := h.step op
      exact .cons h.countersAgree he hs (ih h')

/-- **`nbq` refines a byte queue.**  Whatever the block sizes, every sequence of operations on
fresh queues is a sequence of operations of abstract byte queues, with the same answers. -/
theorem nbq_refines_seekQueue (bsize : ι → ℕ) (h0 : ∀ i, 0 < bsize i)
    (h : ∀ i, bsize i < 2 ^ 31) (ops : List (Op ι)) :
    Simulates (fun i => init (bsize i)) (fun _ => .empty) ops :=
  PoolRep.simulates ops fun i => rep_init (h0 i) (h i)

/-- Two queues with blocks of three bytes and of one byte; the first is read, shrunk and drained
into the second. -/
theorem nbq_refines_seekQueue_two :
    Simulates (fun i : Bool => init (if i then 3 else 1)) (fun _ => .empty)
      [.write true [1, 2, 3, 4], .read true 2, .writeQ false true (by decide), .shrink true,
        .peek false, .readFrom false 1 5] :=
  nbq_refines_seekQueue (fun i : Bool => if i then 3 else 1) (by decide) (by decide) _

end Nbq

end Is2
