import Is2.Core.Machine
import Is2.Support.Nbq.Operations

/-!
# The two counters over all operations

`split` and `join_ref` bring partly filled blocks, references and iterators at `end()` into a
queue.  Here the operations act on a list of queues; `split` adds the tail it returns to the list.

`Accounted` (each counter is the sum over the blocks, and neither was ever decremented below zero)
does not survive two of the operations:

* `split` at an offset inside a block moves the rest of that block to the tail, but leaves the
  bytes it moved in the `m_cur_write_offset` of the head;
* `shrink` subtracts the *size* of a block it drops, not what was written to it, and after
  `join_ref` on an empty queue, where the reader stays at `end()`, it drops blocks nobody read
  without touching `m_total_read_avail`.

`Act.Clean` excludes exactly these branches.  In runs of clean steps a queue is `Sound`: it is well
formed, or it is in the state `join_ref` leaves an empty queue in, with both iterators at `end()`.
-/

namespace Is2

namespace Nbq

/-! ## Operations on a list of queues -/

inductive Act where
  | write (i : ℕ) (buf : Option (List UInt8))
  | read (i len : ℕ)
  | readSeek (i off : ℕ)
  | resetRead (i : ℕ)
  | resetWrite (i : ℕ)
  | reset (i : ℕ)
  | shrink (i : ℕ)
  | split (i off : ℕ)
  | joinRef (i tail : ℕ)
deriving DecidableEq, Repr

/-- The queue an operation changes, the new queue and the queues it makes. -/
def Act.result (Q : List Nbq) : Act → Option (ℕ × Nbq × List Nbq)
  | write i buf => do
      let (q, _) ← (← Q[i]?).write buf
      some (i, q, [])
  | read i len => do
      let (q, _, _) ← (← Q[i]?).read len
      some (i, q, [])
  | readSeek i off => do
      let (q, _) ← (← Q[i]?).readSeek off
      some (i, q, [])
  | resetRead i => do some (i, (← Q[i]?).resetRead, [])
  | resetWrite i => do some (i, (← Q[i]?).resetWrite, [])
  | reset i => do some (i, (← Q[i]?).reset, [])
  | shrink i => do some (i, ← (← Q[i]?).shrink, [])
  | split i off => do
      let (_, q, tail) ← (← Q[i]?).split off
      some (i, q, tail.toList)
  -- a queue joined with itself would grow while it is walked
  | joinRef i t => if i = t then none else do some (i, (← Q[i]?).joinRef (← Q[t]?), [])

/-- One operation; `none` if it has no defined behaviour. -/
def Act.run (Q : List Nbq) (a : Act) : Option (List Nbq) :=
  (a.result Q).map fun r => Q.set r.1 r.2.1 ++ r.2.2

/-- Any number of fresh queues, of any block size, and all operations on them. -/
def machine : Machine (List Nbq) Act where
  start Q := ∃ bsizes : List ℕ, (∀ n ∈ bsizes, n < 2 ^ 32) ∧ Q = bsizes.map init
  step Q a Q' := a.run Q = some Q'

/-! ## The steps that keep the counters -/

/-- The blocks `shrink` drops: those before the reader, all of them if the reader is at `end()`. -/
def behind (q : Nbq) : List Nb :=
  match q.curReadBlock with
  | .block i => q.q.take i
  | _ => q.q

/-- What `shrink` drops is full and was read. -/
def Shrinkable (q : Nbq) : Prop := ∀ b ∈ q.behind, b.read = b.written ∧ b.written = b.size

/-- `split` at `off` cuts no block in two. -/
def Cut (q : Nbq) (off : ℕ) : Prop :=
  off = 0 ∨ q.curWriteOffset ≤ off ∨ (splitFind q.q 0 off).2 = 0

/-- The step stays clear of the two branches that miscount. -/
def Act.Clean (Q : List Nbq) : Act → Prop
  | shrink i => ∀ q ∈ Q[i]?, Shrinkable q
  | split i off => ∀ q ∈ Q[i]?, Cut q off
  | _ => True

instance (q : Nbq) : Decidable (Shrinkable q) :=
  inferInstanceAs (Decidable (∀ b ∈ q.behind, b.read = b.written ∧ b.written = b.size))

instance (q : Nbq) (off : ℕ) : Decidable (Cut q off) :=
  inferInstanceAs (Decidable (off = 0 ∨ q.curWriteOffset ≤ off ∨ (splitFind q.q 0 off).2 = 0))

instance (Q : List Nbq) : DecidablePred (Act.Clean Q)
  | .shrink i => inferInstanceAs (Decidable (∀ q ∈ Q[i]?, Shrinkable q))
  | .split i off => inferInstanceAs (Decidable (∀ q ∈ Q[i]?, Cut q off))
  | .write _ _ | .read _ _ | .readSeek _ _ | .resetRead _ | .resetWrite _ | .reset _
  | .joinRef _ _ => isTrue trivial

/-! ## Soundness of a queue -/

/-- The reader is at `end()`, whatever the blocks hold: `join_ref` on an empty queue. -/
structure Lost (q : Nbq) : Prop extends Accounted q, Writer q q.q.length where
  readAtEnd : q.curReadBlock = .stop

def Sound (q : Nbq) : Prop := (∃ r w, Wf q r w) ∨ Lost q

variable {q : Nbq}

lemma Sound.accounted (h : Sound q) : Accounted q := by
  rcases h with ⟨r, w, h⟩ | h
  · exact h.toAccounted
  · exact h.toAccounted

lemma Sound.exists_writer (h : Sound q) : ∃ w, Writer q w := by
  rcases h with ⟨r, w, h⟩ | h
  · exact ⟨w, h.toWriter⟩
  · exact ⟨_, h.toWriter⟩

lemma Lost.writeAtEnd (h : Lost q) : q.curWriteBlock = .stop := by
  rw [h.writeAt, Iter.at, if_neg (Nat.lt_irrefl _)]

/-- Without blocks there is nothing to be lost. -/
lemma Lost.wf_of_nil (h : Lost q) (hq : q.q = []) : Wf q 0 0 where
  toAccounted := h.toAccounted
  ok := h.ok
  bsize_lt := h.bsize_lt
  write_le := Nat.zero_le _
  writeAt := by rw [h.writeAtEnd, Iter.at, if_neg (by simp [hq])]
  beyond := by simp [hq]
  read_le_write := le_refl _
  readAt := by rw [h.readAtEnd, Iter.at, if_neg (by simp [hq])]
  before := by simp [hq]
  after := by simp [hq]

lemma sound_init {bsize : ℕ} (h : bsize < 2 ^ 32) : Sound (init bsize) := Or.inl ⟨0, 0, wf_init h⟩

/-! ### Writing and reading -/

/-- A lost queue with blocks cannot be written: asking for a block dereferences `end()`. -/
lemma Lost.write (h : Lost q) (hq : q.q ≠ []) {buf : Option (List UInt8)} {q' : Nbq} {st : ℤ}
    (he : q.write buf = some (q', st)) : q' = q := by
  have hw := h.writeAtEnd
  match buf with
  | none =>
      simp only [Nbq.write, Option.some.injEq, Prod.mk.injEq] at he
      exact he.1.symm
  | some [] =>
      simp only [Nbq.write, Nbq.writeLoop, Option.some.injEq, Prod.mk.injEq] at he
      exact he.1.symm
  | some (x :: buf) =>
      simp [Nbq.write, Nbq.writeLoop, Nbq.bWriteRoom, bWriteAvail, hw,
        bWriteAddAvail_stop hw hq] at he

lemma Sound.write (h : Sound q) {buf : Option (List UInt8)} {q' : Nbq} {st : ℤ}
    (he : q.write buf = some (q', st)) : Sound q' := by
  rcases h with ⟨r, w, h⟩ | h
  · obtain ⟨r', w', -, h', -⟩ := h.write he
    exact Or.inl ⟨r', w', h'⟩
  · by_cases hq : q.q = []
    · obtain ⟨r', w', -, h', -⟩ := (h.wf_of_nil hq).write he
      exact Or.inl ⟨r', w', h'⟩
    · rw [h.write hq he]
      exact Or.inr h

/-- Reading a lost queue reads nothing, or moves a reader that is at `end()`. -/
lemma Lost.read (h : Lost q) {len : ℕ} {q' : Nbq} {xs : List UInt8} {n : ℕ}
    (he : q.read len = some (q', xs, n)) : q' = q := by
  have hr := h.readAtEnd
  unfold Nbq.read at he
  cases hl : min len q.readAvail with
  | zero =>
      simp only [hl, Nbq.readLoop, Option.some.injEq, Prod.mk.injEq] at he
      exact he.1.symm
  | succ left =>
      have hav : q.bReadAvail = some 0 := by simp [Nbq.bReadAvail, hr]
      have hz : min (left + 1) (toUInt32 0) = 0 := by simp [toUInt32]
      have hincr : q.bReadIncr 0 = none := by
        simp [Nbq.bReadIncr, hav, decReadAvail, update, hr]
      simp only [hl] at he
      rw [show left + 1 + q.q.length = left + q.q.length + 1 by omega, Nbq.readLoop, hav] at he
      simp [hz, hincr, Nbq.bReadLoad] at he

lemma Sound.read (h : Sound q) {len : ℕ} {q' : Nbq} {xs : List UInt8} {n : ℕ}
    (he : q.read len = some (q', xs, n)) : Sound q' := by
  rcases h with ⟨r, w, h⟩ | h
  · obtain ⟨q'', r', he', h', -⟩ := h.read len
    rw [he'] at he
    obtain ⟨rfl, -⟩ := Prod.mk.inj (Option.some.inj he)
    exact Or.inl ⟨r', w, h'⟩
  · rw [h.read he]
    exact Or.inr h

lemma Sound.resetRead (h : Sound q) : ∃ w, Wf q.resetRead 0 w := by
  obtain ⟨w, hw⟩ := h.exists_writer
  exact ⟨w, (hw.resetRead h.accounted.offset h.accounted.noUnderflow).1⟩

lemma Sound.readSeek (h : Sound q) {off : ℕ} {q' : Nbq} {n : ℕ}
    (he : q.readSeek off = some (q', n)) : Sound q' := by
  obtain ⟨w, hw⟩ := h.resetRead
  obtain ⟨⟨q₁, xs, m⟩, hr, he⟩ := Option.bind_eq_some_iff.mp he
  simp only [Option.some.injEq, Prod.mk.injEq] at he
  obtain ⟨rfl, -⟩ := he
  exact Sound.read (Or.inl ⟨0, w, hw⟩) hr

lemma Sound.resetWrite (h : Sound q) : Sound q.resetWrite := by
  obtain ⟨w, hw⟩ := h.exists_writer
  exact Or.inl ⟨0, 0, (wf_resetWrite hw.ok hw.bsize_lt h.accounted.noUnderflow).1⟩

lemma Sound.reset (h : Sound q) : Sound q.reset := by
  obtain ⟨w, hw⟩ := h.exists_writer
  exact Or.inl ⟨0, 0, (wf_reset hw.bsize_lt h.accounted.noUnderflow).1⟩

/-! ### Shrinking -/

/-- With the reader at `end()`, `shrink` drops every block.  The counters survive that only when
all of them are full and were read. -/
lemma Lost.shrinkLoop :
    ∀ {fuel : ℕ} {q : Nbq}, Lost q → q.q.length ≤ fuel →
      (∀ b ∈ q.q, b.read = b.written ∧ b.written = b.size) →
      ∃ q', q.shrinkLoop fuel = some q' ∧ Lost q' ∧ q'.q = [] := by
  intro fuel
  induction fuel with
  | zero =>
      intro q h hfuel _
      have hq : q.q = [] := List.length_eq_zero_iff.mp (by omega)
      refine ⟨q, ?_, h, hq⟩
      rw [Nbq.shrinkLoop.eq_def, if_pos (by rw [h.readAtEnd, first, if_pos hq])]
  | succ fuel ih =>
      intro q h hfuel hall
      cases hq : q.q with
      | nil =>
          refine ⟨q, ?_, h, hq⟩
          rw [Nbq.shrinkLoop.eq_def, if_pos (by rw [h.readAtEnd, first, if_pos hq])]
      | cons b rest =>
          have hb := hall b (by simp [hq])
          have hoff := h.offset
          have havl := h.avail
          have hu := h.noUnderflow
          simp only [hq, List.map_cons, List.sum_cons] at hoff havl
          have hle : b.size ≤ q.curWriteOffset := by omega
          have h₁ : Lost (decWriteOffset
              { q with
                q := rest
                curReadBlock := q.curReadBlock.popFront
                curWriteBlock := q.curWriteBlock.popFront } b.size) := by
            refine
              { offset := ?_, avail := ?_, noUnderflow := ?_,
                ok := fun c hc => h.ok c (by rw [hq]; simp [show c ∈ rest from hc]),
                bsize_lt := h.bsize_lt, write_le := le_refl _, writeAt := ?_, beyond := ?_,
                readAtEnd := ?_ }
            · simp only [decWriteOffset, sub64_of_le hle]
              omega
            · simp only [decWriteOffset, Nb.readAvail] at havl ⊢
              omega
            · simp only [decWriteOffset, hu, Bool.false_or, decide_eq_false_iff_not]
              omega
            · simp only [decWriteOffset, h.writeAtEnd, Iter.popFront, Iter.at, Nat.lt_irrefl,
                if_false]
            · intro i c hi hlt
              have := lt_of_getElem? hi
              omega
            · simp only [decWriteOffset, h.readAtEnd, Iter.popFront]
          obtain ⟨q', he, h', hq'⟩ := ih h₁
            (by simp only [hq, List.length_cons] at hfuel; simpa [decWriteOffset] using hfuel)
            (fun c hc => hall c (by rw [hq]; simp [show c ∈ rest from hc]))
          refine ⟨q', ?_, h', hq'⟩
          have hne : ¬ q.first = q.curReadBlock := by simp [h.readAtEnd, first, hq]
          rw [Nbq.shrinkLoop.eq_def, if_neg hne]
          simp only [hq]
          exact he

lemma Sound.shrink (h : Sound q) (hs : Shrinkable q) {q' : Nbq} (he : q.shrink = some q') :
    Sound q' := by
  rcases h with ⟨r, w, h⟩ | h
  · -- the reader is at block `r`, or at the end of the list
    have hbehind : ∀ i b, q.q[i]? = some b → i < r → b ∈ q.behind := by
      intro i b hi hir
      rw [behind, h.readAt, Iter.at]
      split_ifs with hr
      · exact List.mem_of_getElem? (by rw [List.getElem?_take_of_lt hir]; exact hi)
      · exact List.mem_of_getElem? hi
    obtain ⟨q'', w', -, he', h', -⟩ :=
      h.shrink fun i b hi hir => (hs b (hbehind i b hi hir)).2
    rw [he] at he'
    obtain rfl := Option.some.inj he'
    exact Or.inl ⟨0, w', h'⟩
  · obtain ⟨q₁, he₁, h₁, hq₁⟩ := h.shrinkLoop (le_refl _) fun b hb =>
      hs b (by rw [behind, h.readAtEnd]; exact hb)
    rw [Nbq.shrink, he₁] at he
    simp only [Option.bind_eq_bind, Option.bind_some, h₁.readAtEnd, ne_eq, not_true_eq_false,
      false_and, if_false, Option.some.injEq] at he
    rw [← he]
    exact Or.inr h₁

/-! ### Joining -/

/-- The blocks `join_ref` appends are references to what the tail has written. -/
lemma joinRef_eq (q tail : Nbq) :
    q.joinRef tail =
      { q with
        q := q.q ++ tail.q.map fun b => Nb.refTo b.bytes
        curWriteOffset := q.curWriteOffset + (tail.q.map Nb.written).sum
        totalReadAvail := q.totalReadAvail + (tail.q.map Nb.written).sum
        curWriteBlock := .stop } := by
  unfold joinRef
  generalize tail.q = l
  induction l generalizing q with
  | nil => simp
  | cons b l ih =>
      rw [List.foldl_cons, ih]
      simp [Nb.bytes, Nat.add_assoc]

lemma Nb.Ok.refTo {b : Nb} (h : b.Ok) : (Nb.refTo b.bytes).Ok := by
  have h1 := h.written_le
  have h2 := h.size_lt
  have h3 := h.length_bytes
  exact ⟨Nat.zero_le _, le_refl _, by simp only [Nb.refTo, Nb.size]; omega⟩

lemma Sound.joinRef (h : Sound q) {tail : Nbq} (ht : Sound tail) : Sound (q.joinRef tail) := by
  obtain ⟨w, hw⟩ := h.exists_writer
  obtain ⟨wt, hwt⟩ := ht.exists_writer
  have hacc := h.accounted
  have href : ∀ l : List Nb, (∀ b ∈ l, b.Ok) →
      (l.map (fun b => (Nb.refTo b.bytes).written)).sum = (l.map Nb.written).sum ∧
      (l.map (fun b => (Nb.refTo b.bytes).readAvail)).sum = (l.map Nb.written).sum := by
    intro l hl
    constructor <;> congr 1 <;> refine List.map_congr_left fun b hb => ?_
    · exact (hl b hb).length_bytes
    · simp only [Nb.readAvail, Nb.refTo, Nat.sub_zero]
      exact (hl b hb).length_bytes
  obtain ⟨hr1, hr2⟩ := href tail.q hwt.ok
  have hnew : ∀ b ∈ q.q ++ tail.q.map (fun b => Nb.refTo b.bytes), b.Ok := by
    intro b hb
    rcases List.mem_append.mp hb with hb | hb
    · exact hw.ok b hb
    · obtain ⟨c, hc, rfl⟩ := List.mem_map.mp hb
      exact Nb.Ok.refTo (hwt.ok c hc)
  rw [joinRef_eq]
  set q' : Nbq := { q with
    q := q.q ++ tail.q.map fun b => Nb.refTo b.bytes
    curWriteOffset := q.curWriteOffset + (tail.q.map Nb.written).sum
    totalReadAvail := q.totalReadAvail + (tail.q.map Nb.written).sum
    curWriteBlock := .stop } with hq'
  have hacc' : Accounted q' := by
    refine ⟨?_, ?_, hacc.noUnderflow⟩
    · simp only [hq', List.map_append, List.sum_append, List.map_map, hacc.offset]
      exact congrArg _ hr1.symm
    · simp only [hq', List.map_append, List.sum_append, List.map_map, hacc.avail]
      exact congrArg _ hr2.symm
  have hwr : Writer q' q'.q.length :=
    { ok := hnew, bsize_lt := hw.bsize_lt, write_le := le_refl _
      writeAt := by simp [hq', Iter.at]
      beyond := fun i b hi hlt => by have := lt_of_getElem? hi; omega }
  rcases h with ⟨r, w, h⟩ | h
  · by_cases hr : r < q.q.length
    · -- the reader stays at its block
      refine Or.inl ⟨r, q'.q.length, ?_⟩
      have hlen : q.q.length ≤ q'.q.length := by simp [hq']
      refine
        { toAccounted := hacc', toWriter := hwr, read_le_write := by omega, readAt := ?_,
          before := ?_, after := ?_ }
      · simp only [hq']
        rw [h.readAt, Iter.at_of_lt hr, Iter.at_of_lt (by simp; omega)]
      · intro i b hi hir
        simp only [hq'] at hi
        rw [List.getElem?_append_left (by omega)] at hi
        exact h.before i b hi hir
      · intro i b hi hri
        simp only [hq'] at hi
        by_cases hil : i < q.q.length
        · rw [List.getElem?_append_left hil] at hi
          exact h.after i b hi hri
        · rw [List.getElem?_append_right (by omega), List.getElem?_map,
            Option.map_eq_some_iff] at hi
          obtain ⟨c, -, rfl⟩ := hi
          rfl
    · exact Or.inr
        { toAccounted := hacc', toWriter := hwr
          readAtEnd := by simp only [hq']; rw [h.readAt, Iter.at, if_neg hr] }
  · exact Or.inr { toAccounted := hacc', toWriter := hwr, readAtEnd := h.readAtEnd }

/-! ### Splitting -/

/-- The tail loop of `split` moves the blocks and their bytes. -/
lemma splitMove_eq :
    ∀ (bs : List Nb) (q tail : Nbq), (bs.map Nb.written).sum ≤ q.curWriteOffset →
      q.underflow = false →
      splitMove q tail bs =
        ({ q with curWriteOffset := q.curWriteOffset - (bs.map Nb.written).sum },
          { tail with
            q := tail.q ++ bs.map Nb.readReset
            curWriteOffset := tail.curWriteOffset + (bs.map Nb.written).sum }) := by
  intro bs
  induction bs with
  | nil => intro q tail _ _; simp [splitMove]
  | cons b bs ih =>
      intro q tail hle hu
      simp only [List.map_cons, List.sum_cons] at hle
      have hb : b.written ≤ q.curWriteOffset := by omega
      have hnu : decide (q.curWriteOffset < b.written) = false := by
        simp only [decide_eq_false_iff_not]
        omega
      rw [splitMove, ih _ _ (by simp only [decWriteOffset, sub64_of_le hb]; omega)
        (by simp only [decWriteOffset, hu, hnu, Bool.false_or])]
      simp [decWriteOffset, sub64_of_le hb, hu, hnu, Nat.add_assoc, Nat.sub_sub]

/-- Both halves of a cut are handed over with the writer at the last block and the reader reset. -/
lemma sound_half {l : List Nb} (hok : ∀ b ∈ l, b.Ok) (hbs : q.bsize < 2 ^ 32) (hl : l ≠ [])
    (hq : q.q = l) (ho : q.curWriteOffset = (l.map Nb.written).sum)
    (hu : q.underflow = false) :
    Sound (Nbq.resetRead { q with curWriteBlock := .block (l.length - 1) }) := by
  have hpos := List.length_pos_iff.mpr hl
  have hw : Writer { q with curWriteBlock := .block (l.length - 1) } (l.length - 1) :=
    { ok := by simpa [hq] using hok, bsize_lt := hbs
      write_le := by simp only [hq]; omega
      writeAt := by simp only [hq]; rw [Iter.at_of_lt (by omega)]
      beyond := fun i b hi hlt => by
        have := lt_of_getElem? hi
        simp only [hq] at this
        omega }
  exact Or.inl ⟨0, _, (hw.resetRead (by simpa [hq] using ho) hu).1⟩

lemma Sound.split (h : Sound q) {off : ℕ} (hc : Cut q off) {st : ℤ} {q' : Nbq}
    {tail : Option Nbq} (he : q.split off = some (st, q', tail)) :
    Sound q' ∧ ∀ t ∈ tail, Sound t := by
  obtain ⟨w, hw⟩ := h.exists_writer
  have hacc := h.accounted
  unfold Nbq.split at he
  by_cases h0 : off = 0
  · rw [if_pos h0] at he
    simp only [Option.pure_def, Option.some.injEq, Prod.mk.injEq] at he
    obtain ⟨-, rfl, rfl⟩ := he
    exact ⟨h, by simp⟩
  by_cases h1 : q.curWriteOffset ≤ off
  · rw [if_neg h0, if_pos h1] at he
    simp only [Option.pure_def, Option.some.injEq, Prod.mk.injEq] at he
    obtain ⟨-, rfl, rfl⟩ := he
    exact ⟨h, by simp⟩
  -- the offset falls between two blocks
  have hz : (splitFind q.q 0 off).2 = 0 := by
    rcases hc with hc | hc | hc
    · exact absurd hc h0
    · exact absurd hc h1
    · exact hc
  rw [if_neg h0, if_neg h1] at he
  generalize splitFind q.q 0 off = f at hz he
  obtain ⟨i, iOff⟩ := f
  obtain rfl : iOff = 0 := hz
  simp only [Nat.lt_irrefl, if_false, Option.pure_def, Option.bind_eq_bind, Option.bind_some] at he
  have hsum : (q.q.map Nb.written).sum
      = ((q.q.take (i + 1)).map Nb.written).sum + ((q.q.drop (i + 1)).map Nb.written).sum := by
    rw [← List.sum_append, ← List.map_append, List.take_append_drop]
  have hoff := hacc.offset
  have hmove := splitMove_eq (q.q.drop (i + 1)) { q with q := q.q.take (i + 1) } (init q.bsize)
    (by simp only; omega) hacc.noUnderflow
  by_cases hlen : q.q.length ≤ i
  · simp [hlen] at he
  simp only [hlen, if_false, hmove] at he
  simp only [init, List.nil_append, Nat.zero_add] at he
  obtain ⟨tw, htw, he⟩ := Option.bind_eq_some_iff.mp he
  obtain ⟨qw, hqw, he⟩ := Option.bind_eq_some_iff.mp he
  simp only [Option.some.injEq, Prod.mk.injEq] at he
  obtain ⟨-, rfl, rfl⟩ := he
  obtain ⟨hte, rfl⟩ := last_eq_some htw
  obtain ⟨hqe, rfl⟩ := last_eq_some hqw
  have hdrop : ((q.q.drop (i + 1)).map Nb.readReset).map Nb.written
      = (q.q.drop (i + 1)).map Nb.written := by
    rw [List.map_map]
    rfl
  constructor
  · refine sound_half
      (q := { q with
        q := q.q.take (i + 1)
        curWriteOffset := q.curWriteOffset - ((q.q.drop (i + 1)).map Nb.written).sum })
      (fun b hb => hw.ok b (List.mem_of_mem_take hb)) hw.bsize_lt hqe rfl ?_ hacc.noUnderflow
    simp only
    omega
  · intro t ht
    simp only [Option.mem_def, Option.some.injEq] at ht
    subst ht
    refine sound_half
      (q := { q := (q.q.drop (i + 1)).map Nb.readReset, bsize := q.bsize, curWriteBlock := .stop,
              curReadBlock := _, curWriteOffset := ((q.q.drop (i + 1)).map Nb.written).sum,
              totalReadAvail := 0, maxReadQueue := -1, underflow := false })
      ?_ hw.bsize_lt hte rfl (by rw [hdrop]) rfl
    intro b hb
    obtain ⟨c, hc, rfl⟩ := List.mem_map.mp hb
    exact (hw.ok c (List.mem_of_mem_drop hc)).readReset

/-! ## Runs -/

/-- A clean step keeps every queue sound, the tail that `split` makes included. -/
lemma Act.result_sound {Q : List Nbq} (h : ∀ q ∈ Q, Sound q) {a : Act} (ha : a.Clean Q) {i : ℕ}
    {q' : Nbq} {made : List Nbq} (he : a.result Q = some (i, q', made)) :
    Sound q' ∧ ∀ t ∈ made, Sound t := by
  have hat : ∀ {j : ℕ} {q : Nbq}, Q[j]? = some q → Sound q := fun hj =>
    h _ (List.mem_of_getElem? hj)
  cases a with
  | write j buf =>
      obtain ⟨q, hq, he⟩ := Option.bind_eq_some_iff.mp he
      obtain ⟨⟨q₁, st⟩, hw, he⟩ := Option.bind_eq_some_iff.mp he
      simp only [Option.some.injEq, Prod.mk.injEq] at he
      obtain ⟨-, rfl, rfl⟩ := he
      exact ⟨(hat hq).write hw, by simp⟩
  | read j len =>
      obtain ⟨q, hq, he⟩ := Option.bind_eq_some_iff.mp he
      obtain ⟨⟨q₁, xs, n⟩, hr, he⟩ := Option.bind_eq_some_iff.mp he
      simp only [Option.some.injEq, Prod.mk.injEq] at he
      obtain ⟨-, rfl, rfl⟩ := he
      exact ⟨(hat hq).read hr, by simp⟩
  | readSeek j off =>
      obtain ⟨q, hq, he⟩ := Option.bind_eq_some_iff.mp he
      obtain ⟨⟨q₁, n⟩, hr, he⟩ := Option.bind_eq_some_iff.mp he
      simp only [Option.some.injEq, Prod.mk.injEq] at he
      obtain ⟨-, rfl, rfl⟩ := he
      exact ⟨(hat hq).readSeek hr, by simp⟩
  | resetRead j =>
      obtain ⟨q, hq, he⟩ := Option.bind_eq_some_iff.mp he
      simp only [Option.some.injEq, Prod.mk.injEq] at he
      obtain ⟨-, rfl, rfl⟩ := he
      obtain ⟨w, hw⟩ := (hat hq).resetRead
      exact ⟨Or.inl ⟨0, w, hw⟩, by simp⟩
  | resetWrite j =>
      obtain ⟨q, hq, he⟩ := Option.bind_eq_some_iff.mp he
      simp only [Option.some.injEq, Prod.mk.injEq] at he
      obtain ⟨-, rfl, rfl⟩ := he
      exact ⟨(hat hq).resetWrite, by simp⟩
  | reset j =>
      obtain ⟨q, hq, he⟩ := Option.bind_eq_some_iff.mp he
      simp only [Option.some.injEq, Prod.mk.injEq] at he
      obtain ⟨-, rfl, rfl⟩ := he
      exact ⟨(hat hq).reset, by simp⟩
  | shrink j =>
      obtain ⟨q, hq, he⟩ := Option.bind_eq_some_iff.mp he
      obtain ⟨q₁, hs, he⟩ := Option.bind_eq_some_iff.mp he
      simp only [Option.some.injEq, Prod.mk.injEq] at he
      obtain ⟨-, rfl, rfl⟩ := he
      exact ⟨(hat hq).shrink (ha q hq) hs, by simp⟩
  | split j off =>
      obtain ⟨q, hq, he⟩ := Option.bind_eq_some_iff.mp he
      obtain ⟨⟨st, q₁, tail⟩, hs, he⟩ := Option.bind_eq_some_iff.mp he
      simp only [Option.some.injEq, Prod.mk.injEq] at he
      obtain ⟨-, rfl, rfl⟩ := he
      obtain ⟨h₁, h₂⟩ := (hat hq).split (ha q hq) hs
      exact ⟨h₁, fun t ht => h₂ t (by simpa using ht)⟩
  | joinRef j t =>
      rw [Act.result] at he
      split_ifs at he with hjt
      obtain ⟨q, hq, he⟩ := Option.bind_eq_some_iff.mp he
      obtain ⟨tail, ht, he⟩ := Option.bind_eq_some_iff.mp he
      simp only [Option.some.injEq, Prod.mk.injEq] at he
      obtain ⟨-, rfl, rfl⟩ := he
      exact ⟨(hat hq).joinRef (hat ht), by simp⟩

lemma Act.run_sound {Q Q' : List Nbq} (h : ∀ q ∈ Q, Sound q) {a : Act} (ha : a.Clean Q)
    (he : a.run Q = some Q') : ∀ q ∈ Q', Sound q := by
  obtain ⟨⟨i, q', made⟩, hres, rfl⟩ := Option.map_eq_some_iff.mp he
  obtain ⟨h₁, h₂⟩ := Act.result_sound h ha hres
  intro q hq
  rcases List.mem_append.mp hq with hq | hq
  · rcases List.mem_or_eq_of_mem_set hq with hq | rfl
    · exact h q hq
    · exact h₁
  · exact h₂ q hq

/-- **Accounting.**  In every state reached by clean steps, every queue and every tail that `split`
returned has both counters equal to the sums over its blocks, and no decrement of either went below
zero. -/
theorem accounted_of_clean_run {Q : List Nbq}
    (h : (machine.guarded fun Q a => a.Clean Q).Reachable Q) : ∀ q ∈ Q, Accounted q := by
  have hs : ∀ q ∈ Q, Sound q := by
    refine Machine.Reachable.invariant (P := fun Q => ∀ q ∈ Q, Sound q) ?_ ?_ h
    · rintro Q ⟨bsizes, hlt, rfl⟩ q hq
      obtain ⟨n, hn, rfl⟩ := List.mem_map.mp hq
      exact sound_init (hlt n hn)
    · rintro Q a Q' hQ ⟨ha, he⟩
      exact Act.run_sound hQ ha he
  exact fun q hq => (hs q hq).accounted

/-- A queue with blocks of two bytes, split between two blocks, and its tail joined back on. -/
theorem accounted_of_clean_run_split : ∃ Q,
    (machine.guarded fun Q a => a.Clean Q).Reachable Q ∧ Q.length = 2 ∧ ∀ q ∈ Q, Accounted q := by
  have hrun : (([.write 0 (some [1, 2, 3, 4, 5]), .split 0 2, .joinRef 0 1] : List Act).foldlM
      (fun Q a => if Act.Clean Q a then Act.run Q a else none) [init 2]).map List.length =
    some 2 := by
    decide
  obtain ⟨Q, hQ, hlen⟩ := Option.map_eq_some_iff.mp hrun
  have h : (machine.guarded fun Q a => a.Clean Q).Reachable Q :=
    .guarded_foldlM (fun _ _ _ he => he) ⟨[2], by decide, rfl⟩ hQ
  exact ⟨Q, h, hlen, accounted_of_clean_run h⟩

/-- Four bytes in a block of eight, split in the middle: the head keeps an offset of four for the
two bytes it has left. -/
theorem split_inside_block_miscounts :
    ¬ ∀ Q, machine.Reachable Q → ∀ q ∈ Q, Accounted q := by
  intro hall
  have hrun : (([.write 0 (some [1, 2, 3, 4]), .split 0 2] : List Act).foldlM Act.run [init 8]).map
      (List.map fun q => (q.curWriteOffset, (q.q.map Nb.written).sum)) = some [(4, 2), (2, 2)] := by
    decide
  obtain ⟨Q, hQ, hmap⟩ := Option.map_eq_some_iff.mp hrun
  have h : machine.Reachable Q :=
    Machine.Reachable.foldlM (fun _ _ _ he => he) (.start ⟨[8], by decide, rfl⟩) hQ
  obtain ⟨q, rest, rfl, hq, -⟩ := List.map_eq_cons_iff.mp hmap
  have ho := (hall _ h q (by simp)).offset
  simp only [Prod.mk.injEq] at hq
  omega

end Nbq

end Is2
