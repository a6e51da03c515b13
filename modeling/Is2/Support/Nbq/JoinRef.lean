import Is2.Support.Nbq.Accounting
import Is2.Support.Nbq.Refinement

/-!
# What `join_ref` does to the bytes

`join_ref` should put the contents of the tail behind what the receiver has still to deliver, and
leave a queue that is read, peeked at and written to as before.

It leaves the write iterator at `end()`, and `b_write_add_avail` dereferences it as soon as the list
holds a block.  It leaves the read iterator of an empty receiver at `end()` too.  So the law holds
only for queues without a block (`joinLaw_iff`).

Reading and writing never look at `m_cur_write_offset`.  `Alike` relates queues that differ in what
they do not look at; an operation of one is an operation of the other.
-/

namespace Is2

namespace Nbq

variable {q q' : Nbq}

/-! ## Fields that no reader and no writer looks at -/

/-- The same blocks, iterators and count of readable bytes. -/
def Alike (q q' : Nbq) : Prop :=
  ∃ offset underflow limit,
    q' = { q with curWriteOffset := offset, underflow := underflow, maxReadQueue := limit }

lemma Alike.update (h : Alike q q') {f : Nb → Nb} {it : Iter} {q₁ : Nbq}
    (he : q.update f it = some q₁) : ∃ q₁', q'.update f it = some q₁' ∧ Alike q₁ q₁' := by
  obtain ⟨c, u, m, rfl⟩ := h
  cases it with
  | stop => cases he
  | freed => cases he
  | block i =>
      simp only [Nbq.update] at he ⊢
      split_ifs at he with hi
      obtain rfl := Option.some.inj he
      exact ⟨_, if_pos hi, c, u, m, rfl⟩

lemma Alike.decReadAvail (h : Alike q q') (n : ℕ) :
    Alike (q.decReadAvail n) (q'.decReadAvail n) := by
  obtain ⟨c, u, m, rfl⟩ := h
  refine ⟨c, u || decide (q.totalReadAvail < n), m, ?_⟩
  simp only [Nbq.decReadAvail]

lemma Alike.bReadAvail (h : Alike q q') : q'.bReadAvail = q.bReadAvail := by
  obtain ⟨c, u, m, rfl⟩ := h
  rfl

/-- The last step of `b_read_incr`: the reader moves on, or does not. -/
lemma Alike.readerMoves (h : Alike q q') {left : ℕ} {q₁ : Nbq}
    (he : (if left = 0 ∧ q.totalReadAvail ≠ 0 then
        (q.next q.curReadBlock).bind fun it => some { q with curReadBlock := it }
      else some q) = some q₁) :
    ∃ q₁', (if left = 0 ∧ q'.totalReadAvail ≠ 0 then
        (q'.next q'.curReadBlock).bind fun it => some { q' with curReadBlock := it }
      else some q') = some q₁' ∧ Alike q₁ q₁' := by
  obtain ⟨c, u, m, rfl⟩ := h
  split_ifs at he ⊢ with hl
  · obtain ⟨it, hit, he⟩ := Option.bind_eq_some_iff.mp he
    obtain rfl := Option.some.inj he
    exact ⟨_, Option.bind_eq_some_iff.mpr ⟨it, hit, rfl⟩, c, u, m, rfl⟩
  · obtain rfl := Option.some.inj he
    exact ⟨_, rfl, c, u, m, rfl⟩

lemma Alike.bReadIncr (h : Alike q q') {n : ℕ} {q₁ : Nbq} (he : q.bReadIncr n = some q₁) :
    ∃ q₁', q'.bReadIncr n = some q₁' ∧ Alike q₁ q₁' := by
  have hcur : (q'.decReadAvail n).curReadBlock = (q.decReadAvail n).curReadBlock := by
    obtain ⟨c, u, m, rfl⟩ := h
    rfl
  obtain ⟨avail, ha, he⟩ := Option.bind_eq_some_iff.mp he
  obtain ⟨q₂, hup, he⟩ := Option.bind_eq_some_iff.mp he
  obtain ⟨q₂', hup', h₂⟩ := (h.decReadAvail n).update hup
  obtain ⟨q₁', he', h₁⟩ := h₂.readerMoves he
  rw [← hcur] at hup'
  rw [← h.bReadAvail] at ha
  exact ⟨q₁', Option.bind_eq_some_iff.mpr ⟨avail, ha, Option.bind_eq_some_iff.mpr ⟨q₂', hup', he'⟩⟩,
    h₁⟩

lemma Alike.readLoop {fuel : ℕ} :
    ∀ {q q' q₁ : Nbq} {left done n : ℕ} {out xs : List UInt8}, Alike q q' →
      q.readLoop fuel left out done = some (q₁, xs, n) →
      ∃ q₁', q'.readLoop fuel left out done = some (q₁', xs, n) ∧ Alike q₁ q₁' := by
  induction fuel with
  | zero =>
      intro q q' q₁ left done n out xs h he
      cases left with
      | zero =>
          simp only [Nbq.readLoop, Option.some.injEq, Prod.mk.injEq] at he ⊢
          obtain ⟨rfl, rfl, rfl⟩ := he
          exact ⟨q', ⟨rfl, rfl, rfl⟩, h⟩
      | succ left => simp [Nbq.readLoop] at he
  | succ fuel ih =>
      intro q q' q₁ left done n out xs h he
      cases left with
      | zero =>
          simp only [Nbq.readLoop, Option.some.injEq, Prod.mk.injEq] at he ⊢
          obtain ⟨rfl, rfl, rfl⟩ := he
          exact ⟨q', ⟨rfl, rfl, rfl⟩, h⟩
      | succ left =>
          have hload : ∀ k, q'.bReadLoad k = q.bReadLoad k := by
            obtain ⟨c, u, m, rfl⟩ := h
            exact fun _ => rfl
          rw [Nbq.readLoop] at he
          obtain ⟨avail, ha, he⟩ := Option.bind_eq_some_iff.mp he
          obtain ⟨bytes, hl, he⟩ := Option.bind_eq_some_iff.mp he
          obtain ⟨q₂, hi, he⟩ := Option.bind_eq_some_iff.mp he
          obtain ⟨q₂', hi', h₂⟩ := h.bReadIncr hi
          obtain ⟨q₁', he', h₁⟩ := ih h₂ he
          refine ⟨q₁', ?_, h₁⟩
          rw [readLoop_succ fuel left done out (by rw [h.bReadAvail, ha]) (by rw [hload, hl]) hi']
          exact he'

lemma Alike.read (h : Alike q q') {len n : ℕ} {q₁ : Nbq} {xs : List UInt8}
    (he : q.read len = some (q₁, xs, n)) :
    ∃ q₁', q'.read len = some (q₁', xs, n) ∧ Alike q₁ q₁' := by
  obtain ⟨q₁', he', h₁⟩ := h.readLoop he
  obtain ⟨c, u, m, rfl⟩ := h
  exact ⟨q₁', he', h₁⟩

lemma Alike.resetRead (h : Alike q q') : Alike q.resetRead q'.resetRead := by
  obtain ⟨c, u, m, rfl⟩ := h
  exact ⟨c, u, m, rfl⟩

lemma Alike.peek (h : Alike q q') : q'.peek = q.peek := by
  obtain ⟨c, u, m, rfl⟩ := h
  rfl

/-- The last step of `b_write_add_avail`: the room in the block being written. -/
lemma Alike.writerRoom (h : Alike q q') {st : ℤ} {q₁ : Nbq}
    (he : ((q.deref q.curWriteBlock).bind fun b => some (q, toInt32 b.writeAvail))
      = some (q₁, st)) :
    ∃ q₁', ((q'.deref q'.curWriteBlock).bind fun b => some (q', toInt32 b.writeAvail))
      = some (q₁', st) ∧ Alike q₁ q₁' := by
  obtain ⟨c, u, m, rfl⟩ := h
  obtain ⟨b, hb, he⟩ := Option.bind_eq_some_iff.mp he
  obtain ⟨rfl, rfl⟩ := Prod.mk.inj (Option.some.inj he)
  exact ⟨_, Option.bind_eq_some_iff.mpr ⟨b, hb, rfl⟩, c, u, m, rfl⟩

lemma Alike.bWriteAddAvail (h : Alike q q') {st : ℤ} {q₁ : Nbq}
    (he : q.bWriteAddAvail = some (q₁, st)) :
    ∃ q₁', q'.bWriteAddAvail = some (q₁', st) ∧ Alike q₁ q₁' := by
  obtain ⟨c, u, m, rfl⟩ := h
  unfold Nbq.bWriteAddAvail at he ⊢
  simp only [Option.bind_eq_bind, Option.bind_some] at he ⊢
  by_cases hlen : (q.q ++ [Nb.alloc q.bsize]).length = 1
  · rw [if_pos hlen] at he ⊢
    exact Alike.writerRoom ⟨c, u, m, rfl⟩ he
  · rw [if_neg hlen] at he ⊢
    obtain ⟨b, hb, he⟩ := Option.bind_eq_some_iff.mp he
    obtain ⟨l, hl, he⟩ := Option.bind_eq_some_iff.mp he
    by_cases hf : b.writeAvail = 0 ∧ q.curWriteBlock ≠ l
    · rw [if_pos hf] at he
      obtain ⟨it, hit, he⟩ := Option.bind_eq_some_iff.mp he
      obtain ⟨q₁', he', h₁⟩ := Alike.writerRoom ⟨c, u, m, rfl⟩ he
      refine ⟨q₁', Option.bind_eq_some_iff.mpr ⟨b, hb, Option.bind_eq_some_iff.mpr ⟨l, hl, ?_⟩⟩, h₁⟩
      rw [if_pos hf]
      exact Option.bind_eq_some_iff.mpr ⟨it, hit, he'⟩
    · rw [if_neg hf] at he
      obtain ⟨q₁', he', h₁⟩ := Alike.writerRoom ⟨c, u, m, rfl⟩ he
      refine ⟨q₁', Option.bind_eq_some_iff.mpr ⟨b, hb, Option.bind_eq_some_iff.mpr ⟨l, hl, ?_⟩⟩, h₁⟩
      rw [if_neg hf]
      exact he'

lemma Alike.bWriteAvail (h : Alike q q') : q'.bWriteAvail = q.bWriteAvail := by
  obtain ⟨c, u, m, rfl⟩ := h
  rfl

lemma Alike.bWriteRoom (h : Alike q q') {a : Option ℕ} {q₁ : Nbq}
    (he : q.bWriteRoom = some (q₁, a)) :
    ∃ q₁', q'.bWriteRoom = some (q₁', a) ∧ Alike q₁ q₁' := by
  obtain ⟨avail, hav, he⟩ := Option.bind_eq_some_iff.mp he
  have hav' : q'.bWriteAvail = some avail := by rw [h.bWriteAvail, hav]
  split_ifs at he with h0
  · obtain ⟨⟨q₂, st⟩, hadd, he⟩ := Option.bind_eq_some_iff.mp he
    obtain ⟨q₂', hadd', h₂⟩ := h.bWriteAddAvail hadd
    simp only at he
    split_ifs at he with hst
    · obtain ⟨rfl, rfl⟩ := Prod.mk.inj (Option.some.inj he)
      exact ⟨q₂', by simp [Nbq.bWriteRoom, hav', h0, hadd', hst], h₂⟩
    · obtain ⟨n, hn, he⟩ := Option.bind_eq_some_iff.mp he
      obtain ⟨rfl, rfl⟩ := Prod.mk.inj (Option.some.inj he)
      refine ⟨q₂', ?_, h₂⟩
      simp [Nbq.bWriteRoom, hav', h0, hadd', hst, h₂.bWriteAvail, hn]
  · obtain ⟨rfl, rfl⟩ := Prod.mk.inj (Option.some.inj he)
    exact ⟨q', by simp [Nbq.bWriteRoom, hav', h0], h⟩

lemma Alike.bWriteStore (h : Alike q q') {xs : List UInt8} {q₁ : Nbq}
    (he : q.bWriteStore xs = some q₁) : ∃ q₁', q'.bWriteStore xs = some q₁' ∧ Alike q₁ q₁' := by
  obtain ⟨b, hb, he⟩ := Option.bind_eq_some_iff.mp he
  obtain ⟨b', hb', he⟩ := Option.bind_eq_some_iff.mp he
  obtain ⟨q₁', he', h₁⟩ := h.update he
  obtain ⟨c, u, m, rfl⟩ := h
  exact ⟨q₁', Option.bind_eq_some_iff.mpr ⟨b, hb, Option.bind_eq_some_iff.mpr ⟨b', hb', he'⟩⟩, h₁⟩

/-- The last step of `b_write_incr`. -/
lemma Alike.readerFollows (h : Alike q q') {n : ℕ} {q₁ : Nbq}
    (he : (if 0 < n then (q.deref q.curReadBlock).bind fun r =>
        if r.readAvail = 0 then
          (q.next q.curReadBlock).bind fun it => some { q with curReadBlock := it }
        else some q else some q) = some q₁) :
    ∃ q₁', (if 0 < n then (q'.deref q'.curReadBlock).bind fun r =>
        if r.readAvail = 0 then
          (q'.next q'.curReadBlock).bind fun it => some { q' with curReadBlock := it }
        else some q' else some q') = some q₁' ∧ Alike q₁ q₁' := by
  obtain ⟨c, u, m, rfl⟩ := h
  by_cases hn : 0 < n
  · rw [if_pos hn] at he ⊢
    obtain ⟨r, hr, he⟩ := Option.bind_eq_some_iff.mp he
    refine (?_ : ∃ q₁', _ ∧ _).imp fun q₁' h₁ =>
      ⟨Option.bind_eq_some_iff.mpr ⟨r, hr, h₁.1⟩, h₁.2⟩
    by_cases hz : r.readAvail = 0
    · rw [if_pos hz] at he ⊢
      obtain ⟨it, hit, he⟩ := Option.bind_eq_some_iff.mp he
      obtain rfl := Option.some.inj he
      exact ⟨_, Option.bind_eq_some_iff.mpr ⟨it, hit, rfl⟩, c, u, m, rfl⟩
    · rw [if_neg hz] at he ⊢
      obtain rfl := Option.some.inj he
      exact ⟨_, rfl, c, u, m, rfl⟩
  · rw [if_neg hn] at he ⊢
    obtain rfl := Option.some.inj he
    exact ⟨_, rfl, c, u, m, rfl⟩

lemma Alike.bWriteIncr (h : Alike q q') {n : ℕ} {q₁ : Nbq} (he : q.bWriteIncr n = some q₁) :
    ∃ q₁', q'.bWriteIncr n = some q₁' ∧ Alike q₁ q₁' := by
  have h' : Alike { q with curWriteOffset := q.curWriteOffset + n }
      { q' with curWriteOffset := q'.curWriteOffset + n } := by
    obtain ⟨c, u, m, rfl⟩ := h
    exact ⟨c + n, u, m, rfl⟩
  have hcur : q'.curWriteBlock = q.curWriteBlock := by
    obtain ⟨c, u, m, rfl⟩ := h
    rfl
  unfold Nbq.bWriteIncr at he ⊢
  simp only [Option.bind_eq_bind, Option.bind_some] at he ⊢
  obtain ⟨q₂, h₂, he⟩ := Option.bind_eq_some_iff.mp he
  obtain ⟨q₂', h₂', ha⟩ := h'.update h₂
  obtain ⟨b, hb, he⟩ := Option.bind_eq_some_iff.mp he
  obtain ⟨l, hl, he⟩ := Option.bind_eq_some_iff.mp he
  rw [← hcur] at h₂'
  obtain ⟨c, u, m, rfl⟩ := ha
  refine (?_ : ∃ q₁', _ ∧ _).imp fun q₁' h₁ =>
    ⟨Option.bind_eq_some_iff.mpr ⟨_, h₂', Option.bind_eq_some_iff.mpr ⟨b, hb,
      Option.bind_eq_some_iff.mpr ⟨l, hl, h₁.1⟩⟩⟩, h₁.2⟩
  by_cases hf : b.writeAvail = 0 ∧ q₂.curWriteBlock ≠ l
  · rw [if_pos hf] at he ⊢
    obtain ⟨it, hit, he⟩ := Option.bind_eq_some_iff.mp he
    obtain ⟨q₁', he', h₁⟩ := Alike.readerFollows ⟨c, u, m, rfl⟩ he
    exact ⟨q₁', Option.bind_eq_some_iff.mpr ⟨it, hit, he'⟩, h₁⟩
  · rw [if_neg hf] at he ⊢
    exact Alike.readerFollows ⟨c, u, m, rfl⟩ he

lemma Alike.writeLoop {fuel : ℕ} :
    ∀ {q q' q₁ : Nbq} {buf : List UInt8} {done : ℕ} {st : ℤ}, Alike q q' →
      q.writeLoop fuel buf done = some (q₁, st) →
      ∃ q₁', q'.writeLoop fuel buf done = some (q₁', st) ∧ Alike q₁ q₁' := by
  induction fuel with
  | zero =>
      intro q q' q₁ buf done st h he
      cases buf with
      | nil =>
          simp only [Nbq.writeLoop, Option.some.injEq, Prod.mk.injEq] at he ⊢
          obtain ⟨rfl, rfl⟩ := he
          exact ⟨q', ⟨rfl, rfl⟩, h⟩
      | cons x buf => simp [Nbq.writeLoop] at he
  | succ fuel ih =>
      intro q q' q₁ buf done st h he
      cases buf with
      | nil =>
          simp only [Nbq.writeLoop, Option.some.injEq, Prod.mk.injEq] at he ⊢
          obtain ⟨rfl, rfl⟩ := he
          exact ⟨q', ⟨rfl, rfl⟩, h⟩
      | cons x buf =>
          rw [Nbq.writeLoop] at he
          obtain ⟨⟨q₂, a⟩, hroom, he⟩ := Option.bind_eq_some_iff.mp he
          obtain ⟨q₂', hroom', h₂⟩ := h.bWriteRoom hroom
          cases a with
          | none =>
              simp only [Option.some.injEq, Prod.mk.injEq] at he
              obtain ⟨rfl, rfl⟩ := he
              exact ⟨q₂', by simp [Nbq.writeLoop, hroom'], h₂⟩
          | some avail =>
              obtain ⟨q₃, hst, he⟩ := Option.bind_eq_some_iff.mp he
              obtain ⟨q₄, hi, he⟩ := Option.bind_eq_some_iff.mp he
              obtain ⟨q₃', hst', h₃⟩ := h₂.bWriteStore hst
              obtain ⟨q₄', hi', h₄⟩ := h₃.bWriteIncr hi
              obtain ⟨q₁', he', h₁⟩ := ih h₄ he
              refine ⟨q₁', ?_, h₁⟩
              rw [Nbq.writeLoop]
              exact Option.bind_eq_some_iff.mpr ⟨(q₂', some avail), hroom',
                Option.bind_eq_some_iff.mpr ⟨q₃', hst',
                  Option.bind_eq_some_iff.mpr ⟨q₄', hi', he'⟩⟩⟩

lemma Alike.write (h : Alike q q') {buf : Option (List UInt8)} {st : ℤ} {q₁ : Nbq}
    (he : q.write buf = some (q₁, st)) : ∃ q₁', q'.write buf = some (q₁', st) ∧ Alike q₁ q₁' := by
  cases buf with
  | none =>
      simp only [Nbq.write, Option.some.injEq, Prod.mk.injEq] at he ⊢
      obtain ⟨rfl, rfl⟩ := he
      exact ⟨q', ⟨rfl, rfl⟩, h⟩
  | some buf => exact h.writeLoop he

/-! ## `join_ref`

A queue used as a stream: it is read, peeked at and written to.  `Streams q xs us` says that `q`
gives to the uses `us`, one after the other, the answers of a stream that holds `xs`. -/

inductive Use where
  | read (len : ℕ)
  | peek
  | write (buf : List UInt8)
deriving DecidableEq, Repr

/-- What the code does. -/
def Use.run (q : Nbq) : Use → Option (Nbq × Answer)
  | read len => do
      let (q, xs, n) ← q.read len
      some (q, .bytes xs n)
  | peek => do
      let x ← q.peek
      some (q, .byte x)
  | write buf => do
      let (q, n) ← q.write (some buf)
      some (q, .count n)

/-- What is left of a stream that holds `xs`. -/
def Use.rest (xs : List UInt8) : Use → List UInt8
  | read len => xs.drop len
  | peek => xs
  | write buf => xs ++ buf

/-- What a stream that holds `xs` answers. -/
def Use.answer (xs : List UInt8) : Use → Answer
  | read len => .bytes (xs.take len) (min len xs.length)
  | peek => .byte (xs.headD 0)
  | write buf => .count buf.length

inductive Streams : Nbq → List UInt8 → List Use → Prop where
  | nil {q xs} : Streams q xs []
  | cons {q q' xs u us} : u.run q = some (q', u.answer xs) → Streams q' (u.rest xs) us →
      Streams q xs (u :: us)

/-- A queue that represents an abstract one is a stream of what that has left to read. -/
lemma Rep.streams (us : List Use) :
    ∀ {q q' : Nbq} {a : SeekQueue UInt8}, Rep q a → Alike q q' → Streams q' a.unread us := by
  induction us with
  | nil => exact fun _ _ => .nil
  | cons u us ih =>
      intro q q' a h halike
      cases u with
      | read len =>
          obtain ⟨q₁, he, h₁⟩ := h.read len
          obtain ⟨q₁', he', ha₁⟩ := halike.read he
          have hrest := ih h₁ ha₁
          rw [a.unread_advance] at hrest
          exact .cons (by simp [Use.run, he', Use.answer, a.length_unread]) hrest
      | peek => exact .cons (by simp [Use.run, halike.peek, h.peek, Use.answer]) (ih h halike)
      | write buf =>
          obtain ⟨q₁, he, h₁⟩ := h.write buf
          obtain ⟨q₁', he', ha₁⟩ := halike.write he
          have hrest := ih h₁ ha₁
          rw [a.unread_append] at hrest
          exact .cons (by simp [Use.run, he', Use.answer]) hrest

/-- A queue without blocks is written like a fresh one, wherever its read iterator is. -/
lemma write_of_nil (hq : q.q = []) (hw : q.curWriteBlock = .stop) (ht : q.totalReadAvail = 0)
    (x : UInt8) (buf : List UInt8) :
    ∃ q₀, Alike (init q.bsize) q₀ ∧ q.write (some (x :: buf)) = q₀.write (some (x :: buf)) := by
  refine ⟨{ q with curReadBlock := .stop }, ⟨q.curWriteOffset, q.underflow, q.maxReadQueue, ?_⟩, ?_⟩
  · rcases q with ⟨l, bsize, wb, rb, off, avail, limit, uf⟩
    simp only at hq hw ht
    subst hq hw ht
    rfl
  · have hroom : q.bWriteRoom = Nbq.bWriteRoom { q with curReadBlock := .stop } := by
      have hadd : Nbq.bWriteAddAvail { q with curReadBlock := .stop } = q.bWriteAddAvail := by
        rw [bWriteAddAvail_nil hq]
        exact bWriteAddAvail_nil (q := { q with curReadBlock := .stop }) hq
      have hav : q.bWriteAvail = some 0 := by simp [bWriteAvail, hw]
      have hav' : Nbq.bWriteAvail { q with curReadBlock := .stop } = some 0 := hav
      simp only [Nbq.bWriteRoom, hadd, hav, hav', Option.bind_eq_bind, Option.bind_some, if_true]
    simp only [Nbq.write, List.length_cons, Nbq.writeLoop, hroom]

lemma streams_of_nil (us : List Use) (hq : q.q = []) (hw : q.curWriteBlock = .stop)
    (ht : q.totalReadAvail = 0) (h0 : 0 < q.bsize) (h : q.bsize < 2 ^ 31) : Streams q [] us := by
  induction us with
  | nil => exact .nil
  | cons u us ih =>
      cases u with
      | read len =>
          have he : q.read len = some (q, [], 0) := by
            rw [Nbq.read, readAvail, ht, Nat.min_zero]
            simp [Nbq.readLoop]
          have hrun : (Use.read len).run q = some (q, Use.answer [] (.read len)) := by
            simp [Use.run, he, Use.answer]
          exact .cons hrun (by simpa [Use.rest] using ih)
      | peek =>
          have he : q.peek = some 0 := by simp [Nbq.peek, readAvail, ht]
          exact .cons (by simp [Use.run, he, Use.answer]) ih
      | write buf =>
          cases buf with
          | nil =>
              have he : q.write (some []) = some (q, 0) := by simp [Nbq.write, Nbq.writeLoop]
              have hrun : (Use.write []).run q = some (q, Use.answer [] (.write [])) := by
                simp [Use.run, he, Use.answer]
              exact .cons hrun (by simpa [Use.rest] using ih)
          | cons x buf =>
              obtain ⟨q₀, ha, hsame⟩ := write_of_nil hq hw ht x buf
              obtain ⟨q₁, he, h₁⟩ := (rep_init h0 h).write (x :: buf)
              obtain ⟨q₁', he', ha₁⟩ := ha.write he
              have hrest := h₁.streams us ha₁
              exact .cons (by rw [Use.run, hsame, he']; rfl) hrest

/-- **The law of `join_ref`** for receiver `i` and tail `j`: afterwards the receiver is a stream of
what it had left to read and then of all that the tail holds, and the tail is as it was. -/
def JoinLaw (Q : List Nbq) (i j : ℕ) : Prop :=
  ∃ q t Q' q', Q[i]? = some q ∧ Q[j]? = some t ∧ (Act.joinRef i j).run Q = some Q' ∧
    Q'[i]? = some q' ∧ Q'[j]? = some t ∧ ∀ us, Streams q' (q.unread ++ t.contents) us

lemma joinRef_run {Q : List Nbq} {i j : ℕ} {q t : Nbq} (hij : i ≠ j) (hq : Q[i]? = some q)
    (ht : Q[j]? = some t) :
    ∃ Q', (Act.joinRef i j).run Q = some Q' ∧ Q'[i]? = some (q.joinRef t) ∧ Q'[j]? = some t := by
  refine ⟨Q.set i (q.joinRef t), ?_, ?_, ?_⟩
  · simp [Act.run, Act.result, hij, hq, ht]
  · rw [List.getElem?_set_self (List.getElem?_eq_some_iff.mp hq).1]
  · rw [List.getElem?_set_ne hij, ht]

/-- The first byte written to a joined queue: a block is pushed, and `end()` is dereferenced. -/
lemma joinRef_write {t : Nbq} (h : q.q ++ t.q ≠ []) (x : UInt8) :
    (q.joinRef t).write (some [x]) = none := by
  have hw : (q.joinRef t).curWriteBlock = .stop := rfl
  have hne : (q.joinRef t).q ≠ [] := by
    rw [joinRef_eq]
    simpa using h
  simp [Nbq.write, Nbq.writeLoop, Nbq.bWriteRoom, bWriteAvail, hw, bWriteAddAvail_stop hw hne]

section JoinLaw

variable {Q : List Nbq} {i j : ℕ} {t : Nbq} (hij : i ≠ j) (hq : Q[i]? = some q)
  (ht : Q[j]? = some t)

include hij hq ht

lemma JoinLaw.streams (h : JoinLaw Q i j) (us : List Use) :
    Streams (q.joinRef t) (q.unread ++ t.contents) us := by
  obtain ⟨Q', hrun, hi, -⟩ := joinRef_run hij hq ht
  obtain ⟨q₀, t₀, Q₁, q', hq₀, ht₀, hrun₀, hi₀, -, hall⟩ := h
  obtain rfl := Option.some.inj (hq.symm.trans hq₀)
  obtain rfl := Option.some.inj (ht.symm.trans ht₀)
  obtain rfl := Option.some.inj (hrun.symm.trans hrun₀)
  obtain rfl := Option.some.inj (hi.symm.trans hi₀)
  exact hall us

/-- The law fails as soon as one of the two queues has a block. -/
lemma JoinLaw.nil (h : JoinLaw Q i j) : q.q ++ t.q = [] := by
  by_contra hne
  cases h.streams hij hq ht [.write [0]] with
  | cons hr _ => simp [Use.run, joinRef_write hne] at hr

end JoinLaw

lemma deref_of_nil (h : q.q = []) (it : Iter) : q.deref it = none := by
  cases it <;> simp [deref, h]

/-- A block that has no room, or more than an `int32_t` counts, is no room for the writer. -/
lemma write_no_room (hq : q.q = []) (hw : q.curWriteBlock = .stop) (hst : toInt32 q.bsize ≤ 0)
    (x : UInt8) : ∃ q', q.write (some [x]) = some (q', -1) := by
  have hav : q.bWriteAvail = some 0 := by simp [bWriteAvail, hw]
  obtain ⟨q₁, st, hadd, h0⟩ : ∃ q₁ st, q.bWriteAddAvail = some (q₁, st) ∧ st ≤ 0 :=
    ⟨_, _, bWriteAddAvail_nil hq, hst⟩
  have hroom : q.bWriteRoom = some (q₁, none) := by simp [Nbq.bWriteRoom, hav, hadd, h0]
  exact ⟨q₁, by simp [Nbq.write, Nbq.writeLoop, hroom]⟩

/-- **`join_ref` meets its law only on queues that hold nothing.**  Whatever state the two queues
are in, the law holds exactly when neither has a block, nothing is counted as readable, and blocks
of the receiver can be made at all. -/
theorem joinLaw_iff {Q : List Nbq} {i j : ℕ} {q t : Nbq} (hij : i ≠ j) (hq : Q[i]? = some q)
    (ht : Q[j]? = some t) (hb : q.bsize < 2 ^ 32) :
    JoinLaw Q i j ↔
      q.q = [] ∧ t.q = [] ∧ q.totalReadAvail = 0 ∧ 0 < q.bsize ∧ q.bsize < 2 ^ 31 := by
  obtain ⟨Q', hrun, hi, hj⟩ := joinRef_run hij hq ht
  constructor
  · intro h
    have hall := h.streams hij hq ht
    obtain ⟨hqn, htn⟩ := List.append_eq_nil_iff.mp (h.nil hij hq ht)
    have hj₀ := joinRef_eq q t
    simp only [hqn, htn, List.map_nil, List.sum_nil, Nat.add_zero, List.append_nil] at hj₀
    have ha : q.totalReadAvail = 0 := by
      by_contra hne
      cases hall [.peek] with
      | cons hr _ => simp [Use.run, Nbq.peek, readAvail, hj₀, hne, deref_of_nil] at hr
    have hpos : ¬ toInt32 q.bsize ≤ 0 := by
      intro hst
      obtain ⟨q₁, he⟩ := write_no_room (q := q.joinRef t) (by rw [hj₀]) rfl
        (by simpa [hj₀] using hst) 0
      cases hall [.write [0]] with
      | cons hr _ => simp [Use.run, he, Use.answer] at hr
    refine ⟨hqn, htn, ha, ?_⟩
    by_contra hout
    refine hpos ?_
    unfold toInt32
    rw [Int.bmod_def]
    omega
  · rintro ⟨hqn, htn, ha, h0, h31⟩
    have hcon : q.unread ++ t.contents = [] := by simp [unread, contents, hqn, htn]
    refine ⟨q, t, Q', _, hq, ht, hrun, hi, hj, fun us => ?_⟩
    rw [hcon, joinRef_eq]
    exact streams_of_nil us (by simp [hqn, htn]) rfl (by simp [ha, htn]) h0 h31

/-- Two fresh queues joined: the receiver can be used like any other. -/
theorem joinLaw_iff_fresh : JoinLaw [init 4, init 4] 0 1 :=
  (joinLaw_iff (Q := [init 4, init 4]) (i := 0) (j := 1) (q := init 4) (t := init 4) (by decide) rfl
    rfl (by decide)).mpr ⟨rfl, rfl, rfl, by decide, by decide⟩

/-- One byte in each of two queues: after `join_ref` the next write has no defined result. -/
theorem write_after_joinRef_undefined :
    ¬ ∀ Q, machine.Reachable Q → ∀ i j, i ≠ j → i < Q.length → j < Q.length → JoinLaw Q i j := by
  intro hall
  have hrun : (([.write 0 (some [1]), .write 1 (some [2])] : List Act).foldlM Act.run
      [init 4, init 4]).map (fun Q => (Q.length, Q[0]?.map fun q => q.q.length))
        = some (2, some 1) := by
    decide
  obtain ⟨Q, hQ, hobs⟩ := Option.map_eq_some_iff.mp hrun
  obtain ⟨hlen, hblock⟩ := Prod.mk.inj hobs
  obtain ⟨q, hq, hl⟩ := Option.map_eq_some_iff.mp hblock
  have h : machine.Reachable Q :=
    Machine.Reachable.foldlM (fun _ _ _ he => he) (.start ⟨[4, 4], by decide, rfl⟩) hQ
  obtain ⟨t, ht⟩ : ∃ t, Q[1]? = some t := ⟨_, List.getElem?_eq_getElem (by omega)⟩
  have hnil := (hall Q h 0 1 (by decide) (by omega) (by omega)).nil (by decide) hq ht
  obtain ⟨hqn, -⟩ := List.append_eq_nil_iff.mp hnil
  simp [hqn] at hl

end Nbq

end Is2
