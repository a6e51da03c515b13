import Is2.Core.Lists
import Is2.Support.Nbq.Model

/-!
# What the blocks of a queue hold

The view of a block list that every statement about `nbq` is made in.  A block holds the bytes
written to it; those up to its read mark are consumed, the others unread.  A queue holds, consumes
and still has to deliver the concatenation of that over its blocks.

`Wf q r w` ties the iterators and the two counters to the blocks: the reader is at block `r`, the
writer at block `w`, behind the reader everything is consumed, ahead of it nothing is, and behind
the writer the blocks are empty.  It says nothing about how full the blocks are: blocks in the
middle may be partly filled, and may be references.

The block-level operations are computed here once (`bWriteIncr_eq`, `bReadIncr_eq`, …); the
invariants are derived from these equations and never unfold the operations again.
-/

namespace Is2

namespace Nb

/-- The bytes written to the block. -/
def bytes (b : Nb) : List UInt8 := b.data.take b.written

/-- The bytes read from it. -/
def consumed (b : Nb) : List UInt8 := b.data.take b.read

/-- The bytes written and not yet read. -/
def unread (b : Nb) : List UInt8 := b.bytes.drop b.read

/-- The marks of a block are in order, and its size is a 32-bit quantity. -/
structure Ok (b : Nb) : Prop where
  read_le : b.read ≤ b.written
  written_le : b.written ≤ b.size
  size_lt : b.size < 2 ^ 32

lemma Ok.alloc {n : ℕ} (h : n < 2 ^ 32) : (Nb.alloc n).Ok :=
  ⟨le_refl _, Nat.zero_le _, by simpa [Nb.alloc, size] using h⟩

lemma Ok.length_bytes {b : Nb} (h : b.Ok) : b.bytes.length = b.written := by
  have := h.written_le
  simp only [bytes, List.length_take, size] at *
  omega

lemma Ok.length_unread {b : Nb} (h : b.Ok) : b.unread.length = b.readAvail := by
  rw [unread, List.length_drop, h.length_bytes, readAvail]

lemma Ok.length_consumed {b : Nb} (h : b.Ok) : b.consumed.length = b.read := by
  have h1 := h.read_le
  have h2 := h.written_le
  simp only [consumed, List.length_take, size] at *
  omega

lemma Ok.consumed_append_unread {b : Nb} (h : b.Ok) : b.consumed ++ b.unread = b.bytes := by
  have hc : b.consumed = b.bytes.take b.read := by
    rw [consumed, bytes, List.take_take, Nat.min_eq_left h.read_le]
  rw [hc, unread, List.take_append_drop]

lemma consumed_of_read_zero {b : Nb} (h : b.read = 0) : b.consumed = [] := by
  simp [consumed, h]

lemma unread_of_read_eq {b : Nb} (h : b.read = b.written) : b.unread = [] := by
  rw [unread, List.drop_eq_nil_iff, bytes, List.length_take, h]
  exact Nat.min_le_left _ _

lemma unread_of_written_zero {b : Nb} (h : b.written = 0) : b.unread = [] := by
  simp [unread, bytes, h]

lemma bytes_of_written_zero {b : Nb} (h : b.written = 0) : b.bytes = [] := by
  simp [bytes, h]

/-- The block after `memcpy` to its write pointer and `write_inc`. -/
def append (b : Nb) (xs : List UInt8) : Nb :=
  { b with
    data := b.data.take b.written ++ xs ++ b.data.drop (b.written + xs.length)
    written := b.written + xs.length }

section Append

variable {b : Nb} {xs : List UInt8} (h : b.Ok) (hx : xs.length ≤ b.writeAvail)

include h hx

lemma append_size : (b.append xs).size = b.size := by
  have := h.written_le
  simp only [append, size, writeAvail, List.length_append, List.length_take,
    List.length_drop] at *
  omega

omit hx in
lemma append_bytes : (b.append xs).bytes = b.bytes ++ xs := by
  have := h.written_le
  have hl : (b.data.take b.written ++ xs).length = b.written + xs.length := by
    simp only [List.length_append, List.length_take, size] at *
    omega
  simp only [append, bytes]
  rw [List.take_append_of_le_length (by rw [hl]), ← hl, List.take_length]

omit hx in
lemma append_consumed : (b.append xs).consumed = b.consumed := by
  have h1 := h.read_le
  have h2 := h.written_le
  simp only [append, consumed, size, List.append_assoc] at *
  rw [List.take_append_of_le_length (by simp only [List.length_take]; omega), List.take_take,
    Nat.min_eq_left h1]

lemma Ok.append : (b.append xs).Ok := by
  have hs := append_size h hx
  have h1 := h.read_le
  have h2 := h.written_le
  have h3 := h.size_lt
  refine ⟨?_, ?_, by rw [hs]; exact h3⟩
  · simp only [Nb.append]; omega
  · rw [hs]; simp only [Nb.append, writeAvail] at *; omega

end Append

section ReadInc

variable {b : Nb} {n : ℕ} (h : b.Ok) (hn : n ≤ b.readAvail)

include h hn

lemma Ok.readInc : (b.readInc n).Ok := by
  have h1 := h.read_le
  refine ⟨?_, h.written_le, h.size_lt⟩
  simp only [Nb.readInc, readAvail] at *
  omega

omit h hn in
lemma readInc_unread : b.unread = b.unread.take n ++ (b.readInc n).unread := by
  have hd : (b.readInc n).unread = b.unread.drop n := by
    simp only [unread, bytes, Nb.readInc, List.drop_drop]
  rw [hd, List.take_append_drop]

lemma readInc_consumed : (b.readInc n).consumed = b.consumed ++ b.unread.take n := by
  have h' := (h.readInc hn).consumed_append_unread
  have hb : (b.readInc n).bytes = b.bytes := rfl
  rw [hb, ← h.consumed_append_unread, readInc_unread (b := b) (n := n), ← List.append_assoc] at h'
  exact List.append_cancel_right (by simpa using h')

lemma load_eq : b.load n = some (b.unread.take n) := by
  have h1 := h.read_le
  have h2 := h.written_le
  have hle : b.read + n ≤ b.size := by simp only [readAvail] at hn; omega
  rw [load, if_pos hle, unread, bytes, List.drop_take, List.take_take,
    Nat.min_eq_left (by simpa [readAvail] using hn)]

end ReadInc

lemma Ok.readReset {b : Nb} (h : b.Ok) : b.readReset.Ok :=
  ⟨Nat.zero_le _, h.written_le, h.size_lt⟩

lemma Ok.writeReset {b : Nb} (h : b.Ok) : b.writeReset.Ok :=
  ⟨le_refl _, Nat.zero_le _, h.size_lt⟩

end Nb

/-! ## Queues -/

/-- The iterator at position `i` of a list of `n` blocks; past the blocks it is `end()`. -/
def Iter.at (n i : ℕ) : Iter := if i < n then .block i else .stop

lemma Iter.at_of_lt {n i : ℕ} (h : i < n) : Iter.at n i = .block i := if_pos h

lemma Iter.at_ne {n i j : ℕ} (hi : i < n) (hij : i ≠ j) : Iter.at n i ≠ Iter.at n j := by
  intro heq
  rw [Iter.at_of_lt hi, Iter.at] at heq
  split_ifs at heq with hj
  exact hij (Iter.block.inj heq)

namespace Nbq

/-- Everything the blocks hold. -/
def contents (q : Nbq) : List UInt8 := q.q.flatMap Nb.bytes

/-- What has been read of it. -/
def consumed (q : Nbq) : List UInt8 := q.q.flatMap Nb.consumed

/-- What is still to be read. -/
def unread (q : Nbq) : List UInt8 := q.q.flatMap Nb.unread

/-- The two counters say what the blocks say, and no decrement of either has gone below zero. -/
structure Accounted (q : Nbq) : Prop where
  offset : q.curWriteOffset = (q.q.map Nb.written).sum
  avail : q.totalReadAvail = (q.q.map Nb.readAvail).sum
  noUnderflow : q.underflow = false

/-- The writer is at block `w`. -/
structure Writer (q : Nbq) (w : ℕ) : Prop where
  ok : ∀ b ∈ q.q, b.Ok
  bsize_lt : q.bsize < 2 ^ 32
  write_le : w ≤ q.q.length
  writeAt : q.curWriteBlock = Iter.at q.q.length w
  beyond : ∀ i b, q.q[i]? = some b → w < i → b.written = 0

/-- The reader is at block `r` and the writer at block `w`. -/
structure Wf (q : Nbq) (r w : ℕ) : Prop extends Accounted q, Writer q w where
  read_le_write : r ≤ w
  readAt : q.curReadBlock = Iter.at q.q.length r
  before : ∀ i b, q.q[i]? = some b → i < r → b.read = b.written
  after : ∀ i b, q.q[i]? = some b → r < i → b.read = 0

/-- The shape that queues have while no block was split off or joined on: all blocks have the
queue's block size, those behind the writer are full, the writer is at a block if there is one,
and the reader rests on an exhausted block only when nothing is left to read. -/
structure Filled (q : Nbq) (r w : ℕ) : Prop where
  bsize_pos : 0 < q.bsize
  bsize_lt_half : q.bsize < 2 ^ 31
  size : ∀ b ∈ q.q, b.size = q.bsize
  full : ∀ i b, q.q[i]? = some b → i < w → b.written = b.size
  room : q.q ≠ [] → w < q.q.length
  live : ∀ b, q.q[r]? = some b → b.readAvail = 0 → q.totalReadAvail = 0

/-- A fresh queue. -/
lemma wf_init {bsize : ℕ} (h : bsize < 2 ^ 32) : Wf (init bsize) 0 0 where
  offset := rfl
  avail := rfl
  noUnderflow := rfl
  ok := by simp [init]
  bsize_lt := h
  read_le_write := le_refl _
  write_le := Nat.zero_le _
  readAt := rfl
  writeAt := rfl
  before := by simp [init]
  after := by simp [init]
  beyond := by simp [init]

lemma filled_init {bsize : ℕ} (h0 : 0 < bsize) (h : bsize < 2 ^ 31) : Filled (init bsize) 0 0 where
  bsize_pos := h0
  bsize_lt_half := h
  size := by simp [init]
  full := by simp [init]
  room := by simp [init]
  live := by simp [init]

/-! ### Lengths -/

lemma length_flatMap_of {f : Nb → List UInt8} {g : Nb → ℕ} :
    ∀ {l : List Nb}, (∀ b ∈ l, (f b).length = g b) → (l.flatMap f).length = (l.map g).sum
  | [], _ => rfl
  | b :: l, h => by
      simp only [List.flatMap_cons, List.length_append, List.map_cons, List.sum_cons]
      rw [h b (by simp), length_flatMap_of fun c hc => h c (by simp [hc])]

section Wf

variable {q : Nbq} {r w : ℕ} (h : Wf q r w)

include h

lemma Wf.mem_ok {i : ℕ} {b : Nb} (hb : q.q[i]? = some b) : b.Ok :=
  h.ok b (List.mem_of_getElem? hb)

/-- `m_cur_write_offset` counts the bytes held. -/
lemma Wf.offset_eq : q.curWriteOffset = q.contents.length := by
  rw [h.offset, contents, length_flatMap_of fun b hb => (h.ok b hb).length_bytes]

/-- `m_total_read_avail` counts the bytes still to be read. -/
lemma Wf.avail_eq : q.totalReadAvail = q.unread.length := by
  rw [h.avail, unread, length_flatMap_of fun b hb => (h.ok b hb).length_unread]

/-- Reading went through the blocks in order. -/
lemma Wf.consumed_append_unread : q.consumed ++ q.unread = q.contents := by
  have key : ∀ (l : List Nb) (r : ℕ), (∀ b ∈ l, b.Ok) →
      (∀ i b, l[i]? = some b → i < r → b.read = b.written) →
      (∀ i b, l[i]? = some b → r < i → b.read = 0) →
      l.flatMap Nb.consumed ++ l.flatMap Nb.unread = l.flatMap Nb.bytes := by
    intro l
    induction l with
    | nil => intro r _ _ _; rfl
    | cons b l ih =>
        intro r hok hbef haft
        have hb : b.consumed ++ b.unread = b.bytes := (hok b (by simp)).consumed_append_unread
        cases r with
        | zero =>
            -- everything after the head is untouched
            have hl : l.flatMap Nb.consumed = [] := by
              rw [List.flatMap_eq_nil_iff]
              intro c hc
              obtain ⟨i, hi⟩ := List.mem_iff_getElem?.mp hc
              exact Nb.consumed_of_read_zero (haft (i + 1) c (by simpa using hi) (by omega))
            have ih' := ih 0 (fun c hc => hok c (by simp [hc])) (fun i c _ hi => by omega)
              (fun i c hi hr => haft (i + 1) c (by simpa using hi) (by omega))
            simp only [List.flatMap_cons, hl, List.append_nil, List.nil_append] at ih' ⊢
            rw [← List.append_assoc, hb, ih']
        | succ r =>
            -- the head is exhausted
            have hu : b.unread = [] := Nb.unread_of_read_eq (hbef 0 b (by simp) (by omega))
            have ih' := ih r (fun c hc => hok c (by simp [hc]))
              (fun i c hi hr => hbef (i + 1) c (by simpa using hi) (by omega))
              (fun i c hi hr => haft (i + 1) c (by simpa using hi) (by omega))
            rw [hu, List.append_nil] at hb
            simp only [List.flatMap_cons, hu, List.nil_append, List.append_assoc, ih', hb]
  exact key q.q r h.ok h.before h.after

/-- A block's unread bytes are among those left to read. -/
lemma Wf.readAvail_le {i : ℕ} {b : Nb} (hb : q.q[i]? = some b) :
    b.readAvail ≤ q.totalReadAvail := by
  rw [h.avail]
  exact List.single_le_sum (by simp) _ (List.mem_map_of_mem (List.mem_of_getElem? hb))

/-- When nothing is left to read behind the block being read, all of it is in that block. -/
lemma Wf.avail_of_only {b : Nb} (hb : q.q[r]? = some b)
    (hz : ∀ i c, q.q[i]? = some c → r < i → c.unread = []) : q.totalReadAvail = b.readAvail := by
  have key : ∀ (l : List Nb) (i : ℕ), l[i]? = some b →
      (∀ j c, l[j]? = some c → j ≠ i → c.unread = []) → l.flatMap Nb.unread = b.unread := by
    intro l
    induction l with
    | nil => intro i hi; simp at hi
    | cons c l ih =>
        intro i hi hz
        cases i with
        | zero =>
            simp only [List.getElem?_cons_zero, Option.some.injEq] at hi
            subst hi
            have hl : l.flatMap Nb.unread = [] := by
              rw [List.flatMap_eq_nil_iff]
              intro d hd
              obtain ⟨j, hj⟩ := List.mem_iff_getElem?.mp hd
              exact hz (j + 1) d (by simpa using hj) (by omega)
            simp [hl]
        | succ i =>
            have hc : c.unread = [] := hz 0 c (by simp) (by omega)
            simp only [List.flatMap_cons, hc, List.nil_append]
            exact ih i (by simpa using hi)
              (fun j d hj hji => hz (j + 1) d (by simpa using hj) (by omega))
  have hu : q.unread = b.unread := by
    refine key q.q r hb fun j c hj hjr => ?_
    rcases Nat.lt_or_gt_of_ne hjr with hlt | hgt
    · exact Nb.unread_of_read_eq (h.before j c hj hlt)
    · exact hz j c hj hgt
  rw [h.avail_eq, hu, (h.mem_ok hb).length_unread]

/-- The reader has caught up with the writer: what is left is in that one block. -/
lemma Wf.avail_of_same {b : Nb} (hrw : r = w) (hb : q.q[r]? = some b) :
    q.totalReadAvail = b.readAvail :=
  h.avail_of_only hb fun i c hi hri =>
    Nb.unread_of_written_zero (h.beyond i c hi (by omega))

end Wf

/-! ### What an operation does to the bytes -/

/-- `q'` is `q` with `xs` appended. -/
structure Appends (q q' : Nbq) (xs : List UInt8) : Prop where
  contents : q'.contents = q.contents ++ xs
  consumed : q'.consumed = q.consumed
  bsize : q'.bsize = q.bsize

/-- `q'` is `q` after `xs` was read. -/
structure Reads (q q' : Nbq) (xs : List UInt8) : Prop where
  contents : q'.contents = q.contents
  consumed : q'.consumed = q.consumed ++ xs
  bsize : q'.bsize = q.bsize

/-- `q'` is `q` without a prefix of bytes that had all been read. -/
structure Drops (q q' : Nbq) (xs : List UInt8) : Prop where
  contents : q.contents = xs ++ q'.contents
  consumed : q.consumed = xs ++ q'.consumed
  bsize : q'.bsize = q.bsize

lemma Appends.refl (q : Nbq) : Appends q q [] := ⟨by simp, rfl, rfl⟩

lemma Reads.refl (q : Nbq) : Reads q q [] := ⟨rfl, by simp, rfl⟩

lemma Appends.trans {q₁ q₂ q₃ : Nbq} {xs ys : List UInt8} (h₁ : Appends q₁ q₂ xs)
    (h₂ : Appends q₂ q₃ ys) : Appends q₁ q₃ (xs ++ ys) :=
  ⟨by rw [h₂.contents, h₁.contents, List.append_assoc], by rw [h₂.consumed, h₁.consumed],
    by rw [h₂.bsize, h₁.bsize]⟩

lemma Reads.trans {q₁ q₂ q₃ : Nbq} {xs ys : List UInt8} (h₁ : Reads q₁ q₂ xs)
    (h₂ : Reads q₂ q₃ ys) : Reads q₁ q₃ (xs ++ ys) :=
  ⟨by rw [h₂.contents, h₁.contents], by rw [h₂.consumed, h₁.consumed, List.append_assoc],
    by rw [h₂.bsize, h₁.bsize]⟩

lemma Drops.refl (q : Nbq) : Drops q q [] := ⟨by simp, by simp, rfl⟩

lemma Drops.trans {q₁ q₂ q₃ : Nbq} {xs ys : List UInt8} (h₁ : Drops q₁ q₂ xs)
    (h₂ : Drops q₂ q₃ ys) : Drops q₁ q₃ (xs ++ ys) :=
  ⟨by rw [h₁.contents, h₂.contents, List.append_assoc],
    by rw [h₁.consumed, h₂.consumed, List.append_assoc], by rw [h₂.bsize, h₁.bsize]⟩

/-- What is appended is what becomes readable. -/
lemma Appends.unread {q q' : Nbq} {xs : List UInt8} {r w r' w' : ℕ} (h : Wf q r w)
    (h' : Wf q' r' w') (ha : Appends q q' xs) : q'.unread = q.unread ++ xs := by
  have h1 := h.consumed_append_unread
  have h2 := h'.consumed_append_unread
  rw [ha.contents, ha.consumed, ← h1, List.append_assoc] at h2
  exact List.append_cancel_left h2

/-- What is dropped was not unread. -/
lemma Drops.unread {q q' : Nbq} {xs : List UInt8} {r w r' w' : ℕ} (h : Wf q r w)
    (h' : Wf q' r' w') (ha : Drops q q' xs) : q'.unread = q.unread := by
  have h1 := h.consumed_append_unread
  have h2 := h'.consumed_append_unread
  rw [ha.contents, ha.consumed, ← h2, List.append_assoc] at h1
  exact (List.append_cancel_left (List.append_cancel_left h1)).symm

/-- What is read is taken from the front of what was readable. -/
lemma Reads.unread {q q' : Nbq} {xs : List UInt8} {r w r' w' : ℕ} (h : Wf q r w)
    (h' : Wf q' r' w') (ha : Reads q q' xs) : q.unread = xs ++ q'.unread := by
  have h1 := h.consumed_append_unread
  have h2 := h'.consumed_append_unread
  rw [ha.contents, ha.consumed, ← h1, List.append_assoc] at h2
  exact (List.append_cancel_left h2).symm

end Nbq

end Is2
