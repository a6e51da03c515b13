import Is2.Support.Nbq.Invariant

/-!
# The operations keep the iterators and counters in step with the blocks

One lemma per operation of `nbq`: from `Wf q r w` it gives the queue the operation leaves, again
well formed, and what it did to the bytes held and consumed.  The block-level operations come
first, each as an equation; the loops over them follow.
-/

namespace Is2

namespace Nbq

variable {q : Nbq} {r w : ℕ}

/-! ## Iterators -/

lemma first_eq_at (q : Nbq) : q.first = Iter.at q.q.length 0 := by
  unfold first Iter.at
  cases q.q <;> simp

lemma last_eq_some {it : Iter} (h : q.last = some it) :
    q.q ≠ [] ∧ it = .block (q.q.length - 1) := by
  unfold last at h
  split_ifs at h with hq
  exact ⟨hq, (Option.some.inj h).symm⟩

lemma lt_of_getElem? {i : ℕ} {b : Nb} (h : q.q[i]? = some b) : i < q.q.length :=
  (List.getElem?_eq_some_iff.mp h).1

lemma ne_nil_of_getElem? {i : ℕ} {b : Nb} (h : q.q[i]? = some b) : q.q ≠ [] := by
  rintro hq
  simp [hq] at h

lemma next_of_lt {i : ℕ} (h : i + 1 < q.q.length) : q.next (.block i) = some (.block (i + 1)) := by
  simp [next, h]

lemma next_eq_at {i : ℕ} (h : i < q.q.length) :
    q.next (.block i) = some (Iter.at q.q.length (i + 1)) := by
  unfold next Iter.at
  by_cases hi : i + 1 < q.q.length
  · simp [hi]
  · have he : i + 1 = q.q.length := by omega
    simp [he]

lemma update_of_lt {i : ℕ} (h : i < q.q.length) (f : Nb → Nb) :
    q.update f (.block i) = some { q with q := q.q.modify i f } := if_pos h

section Wf

variable (h : Wf q r w)

include h

lemma Wf.writeAt_block {b : Nb} (hb : q.q[w]? = some b) : q.curWriteBlock = .block w := by
  rw [h.writeAt, Iter.at_of_lt (lt_of_getElem? hb)]

lemma Wf.readAt_block {b : Nb} (hb : q.q[r]? = some b) : q.curReadBlock = .block r := by
  rw [h.readAt, Iter.at_of_lt (lt_of_getElem? hb)]

/-- While something is left to read the reader is at a block. -/
lemma Wf.exists_reader (ht : q.totalReadAvail ≠ 0) : ∃ b, q.q[r]? = some b := by
  by_contra hn
  have hlen : q.q.length ≤ r := by
    by_contra hlt
    exact hn ⟨q.q[r], by simp⟩
  have hz : q.unread = [] := by
    rw [unread, List.flatMap_eq_nil_iff]
    intro b hb
    obtain ⟨i, hi⟩ := List.mem_iff_getElem?.mp hb
    exact Nb.unread_of_read_eq (h.before i b hi (by have := lt_of_getElem? hi; omega))
  exact ht (by rw [h.avail_eq, hz]; rfl)

/-- An exhausted block with more to come is followed by another. -/
lemma Wf.reader_lt_writer {b : Nb} (hb : q.q[r]? = some b)
    (ht : q.totalReadAvail ≠ b.readAvail) : r < w := by
  rcases Nat.lt_or_eq_of_le h.read_le_write with hlt | heq
  · exact hlt
  · exact absurd (h.avail_of_same heq hb) ht

/-- `b_read_avail` is what the block being read still holds, whichever branch computes it. -/
lemma Wf.bReadAvail {b : Nb} (hb : q.q[r]? = some b) :
    q.bReadAvail = some (toInt32 b.readAvail) := by
  have hr := h.readAt_block hb
  unfold Nbq.bReadAvail
  rw [if_neg (by rw [hr]; simp)]
  by_cases hrw : r = w
  · subst hrw
    rw [if_pos (by rw [hr, h.writeAt_block hb]), h.avail_of_same rfl hb]
  · have hlt : r < w := by have := h.read_le_write; omega
    rw [if_neg, hr]
    · simp [deref, hb]
    · rw [hr, h.writeAt]
      unfold Iter.at
      split
      · simp; omega
      · simp

lemma Wf.toUInt32_bReadAvail {b : Nb} (hb : q.q[r]? = some b) :
    toUInt32 (toInt32 b.readAvail) = b.readAvail := by
  have ho := h.mem_ok hb
  refine toUInt32_toInt32_of_lt ?_
  have h1 := ho.written_le
  have h2 := ho.size_lt
  simp only [Nb.readAvail]
  omega

end Wf

/-! ## Reading -/

/-- `b_read_incr` at a block that holds `n` bytes or more. -/
lemma Wf.bReadIncr_eq (h : Wf q r w) {b : Nb} (hb : q.q[r]? = some b) {n : ℕ}
    (hn : n ≤ b.readAvail) :
    q.bReadIncr n = some
      { q with
        q := q.q.modify r (·.readInc n)
        totalReadAvail := q.totalReadAvail - n
        curReadBlock :=
          if n = b.readAvail ∧ q.totalReadAvail ≠ n then .block (r + 1) else .block r } := by
  have hr := h.readAt_block hb
  have hlt := lt_of_getElem? hb
  have hle := h.readAvail_le hb
  have hsmall : b.readAvail < 2 ^ 32 := by
    have h1 := (h.mem_ok hb).written_le
    have h2 := (h.mem_ok hb).size_lt
    simp only [Nb.readAvail]
    omega
  have hleft : (toUInt32 (toInt32 b.readAvail) + 2 ^ 32 - n) % 2 ^ 32 = b.readAvail - n := by
    rw [h.toUInt32_bReadAvail hb]
    omega
  have hu : q.underflow = false := h.noUnderflow
  simp only [Nbq.bReadIncr, h.bReadAvail hb, Option.bind_eq_bind, Option.bind_some, decReadAvail,
    hr, hleft, sub64_of_le (le_trans hn hle), hu, Bool.false_or]
  rw [update_of_lt (by exact hlt)]
  have hnu : decide (q.totalReadAvail < n) = false := by
    simp only [decide_eq_false_iff_not]
    omega
  by_cases hc : n = b.readAvail ∧ q.totalReadAvail ≠ n
  · have hnext : r + 1 < q.q.length := by
      -- the next block exists: what is left to read lies behind `r`
      by_contra hnl
      have := h.avail_of_only hb fun i c hi hri => by have := lt_of_getElem? hi; omega
      omega
    rw [if_pos hc]
    simp only [Option.bind_some, hnu]
    rw [if_pos (by omega), next_of_lt (by simpa using hnext)]
    rfl
  · rw [if_neg hc]
    simp only [Option.bind_some, hnu]
    rw [if_neg (by omega)]

/-- The next `n` bytes are those of the block being read, if it holds as many. -/
lemma Wf.unread_take (h : Wf q r w) {b : Nb} (hb : q.q[r]? = some b) {n : ℕ}
    (hn : n ≤ b.readAvail) : q.unread.take n = b.unread.take n := by
  have hfront := flatMap_modify_front Nb.unread (·.readInc n) _ hb (Nb.readInc_unread)
    (fun i c hi hir => Nb.unread_of_read_eq (h.before i c hi hir))
  have hl : (b.unread.take n).length = n := by
    rw [List.length_take, (h.mem_ok hb).length_unread]
    omega
  rw [unread, hfront, List.take_left' hl]

/-- Reading `n` bytes that the block being read holds. -/
lemma Wf.bReadIncr (h : Wf q r w) {b : Nb} (hb : q.q[r]? = some b) {n : ℕ}
    (hn : n ≤ b.readAvail) :
    ∃ q' r', q.bReadIncr n = some q' ∧ Wf q' r' w ∧ Reads q q' (q.unread.take n) ∧
      q'.q.length = q.q.length ∧
      r' = if n = b.readAvail ∧ q.totalReadAvail ≠ n then r + 1 else r := by
  have ho := h.mem_ok hb
  have hlt := lt_of_getElem? hb
  have hsum := sum_modify Nb.readAvail (·.readInc n) hb
  have hwsum := sum_modify Nb.written (·.readInc n) hb
  have hadv : n = b.readAvail ∧ q.totalReadAvail ≠ n → r < w := fun hc =>
    h.reader_lt_writer hb (by omega)
  refine ⟨_, _, h.bReadIncr_eq hb hn, ?_, ?_, by simp, rfl⟩
  · refine
      { offset := ?_, avail := ?_, noUnderflow := h.noUnderflow, ok := ?_, bsize_lt := h.bsize_lt,
        write_le := by simpa using h.write_le, writeAt := by simpa using h.writeAt,
        beyond := ?_, read_le_write := ?_, readAt := ?_, before := ?_, after := ?_ }
    · have := h.offset
      simp only [Nb.readInc] at hwsum ⊢
      omega
    · have := h.avail
      have hri : (b.readInc n).readAvail = b.readAvail - n := by
        simp only [Nb.readInc, Nb.readAvail]
        omega
      simp only [hri] at hsum ⊢
      omega
    · intro c hc
      rcases mem_modify hb hc with rfl | hc
      · exact ho.readInc hn
      · exact h.ok c hc
    · intro i c hi hwi
      rcases modify_getElem?_cases hb hi with ⟨rfl, rfl⟩ | ⟨_, hi⟩
      · have := h.read_le_write
        omega
      · exact h.beyond i c hi hwi
    · split_ifs with hc
      · exact hadv hc
      · exact h.read_le_write
    · simp only [List.length_modify]
      split_ifs with hc
      · have := hadv hc
        have := h.write_le
        rw [Iter.at_of_lt]
        by_contra hnl
        have := h.avail_of_only hb fun i c hi hri => by have := lt_of_getElem? hi; omega
        omega
      · rw [Iter.at_of_lt hlt]
    · intro i c hi hir
      rcases modify_getElem?_cases hb hi with ⟨rfl, rfl⟩ | ⟨hne, hi⟩
      · split_ifs at hir with hc
        · have := ho.read_le
          simp only [Nb.readInc, Nb.readAvail] at hc ⊢
          omega
        · omega
      · refine h.before i c hi ?_
        split_ifs at hir <;> omega
    · intro i c hi hri
      rcases modify_getElem?_cases hb hi with ⟨rfl, rfl⟩ | ⟨hne, hi⟩
      · split_ifs at hri <;> omega
      · refine h.after i c hi ?_
        split_ifs at hri <;> omega
  · refine ⟨?_, ?_, rfl⟩
    · exact flatMap_modify_same Nb.bytes (·.readInc n) hb rfl
    · rw [h.unread_take hb hn]
      exact flatMap_modify_append Nb.consumed (·.readInc n) _ hb (Nb.readInc_consumed ho hn)
        (fun i c hi hri => Nb.consumed_of_read_zero (h.after i c hi hri))

/-- Reading leaves the shape of the queue: when the reader goes to the next block, that block is
full, or it is the last one and holds all that is left. -/
lemma Filled.bReadIncr (hf : Filled q r w) (h : Wf q r w) {b : Nb} (hb : q.q[r]? = some b) {n : ℕ}
    (hn : n ≤ b.readAvail) {q' : Nbq} (he : q.bReadIncr n = some q') :
    Filled q' (if n = b.readAvail ∧ q.totalReadAvail ≠ n then r + 1 else r) w := by
  obtain ⟨q'', r', he', h', -, -, rfl⟩ := h.bReadIncr hb hn
  rw [he] at he'
  obtain rfl := Option.some.inj he'
  rw [h.bReadIncr_eq hb hn] at he
  obtain rfl := Option.some.inj he
  have hrw := h.read_le_write
  refine
    { bsize_pos := hf.bsize_pos, bsize_lt_half := hf.bsize_lt_half, size := ?_, full := ?_,
      room := ?_, live := ?_ }
  · intro c hc
    rcases mem_modify hb hc with rfl | hc
    · exact hf.size b (List.mem_of_getElem? hb)
    · exact hf.size c hc
  · intro i c hi hiw
    rcases modify_getElem?_cases hb hi with ⟨rfl, rfl⟩ | ⟨_, hi⟩
    · exact hf.full _ b hb hiw
    · exact hf.full i c hi hiw
  · intro _
    simpa using hf.room (ne_nil_of_getElem? hb)
  · intro c hc hz
    have hav := fun heq => h'.avail_of_same heq hc
    split_ifs at hc hav with hadv
    · -- the reader is at a new block
      have hlt := h.reader_lt_writer hb (by omega)
      rcases modify_getElem?_cases hb hc with ⟨heq, -⟩ | ⟨_, hc'⟩
      · omega
      · rcases Nat.lt_or_eq_of_le hlt with hlt' | heq
        · have h1 := hf.full _ c hc' hlt'
          have h2 := hf.size c (List.mem_of_getElem? hc')
          have h3 := h.after _ c hc' (by omega)
          have h4 := hf.bsize_pos
          simp only [Nb.readAvail] at hz
          omega
        · exact (hav heq).trans hz
    · rw [modify_getElem?_self hb] at hc
      obtain rfl := Option.some.inj hc
      have hz' : n = b.readAvail := by
        simp only [Nb.readInc, Nb.readAvail] at hz hn ⊢
        omega
      show q.totalReadAvail - n = 0
      omega

/-- The bytes `read` copies out of one block. -/
lemma Wf.bReadLoad (h : Wf q r w) {b : Nb} (hb : q.q[r]? = some b) {n : ℕ}
    (hn : n ≤ b.readAvail) : q.bReadLoad n = some (q.unread.take n) := by
  unfold Nbq.bReadLoad
  split_ifs with h0
  · simp [h0]
  · rw [h.readAt_block hb, h.unread_take hb hn]
    simp [deref, hb, Nb.load_eq (h.mem_ok hb) hn]

/-- One turn of the loop of `read`. -/
lemma readLoop_succ {avail : ℤ} {bytes : List UInt8} {q₁ : Nbq} (fuel left done : ℕ)
    (out : List UInt8) (ha : q.bReadAvail = some avail)
    (hl : q.bReadLoad (min (left + 1) (toUInt32 avail)) = some bytes)
    (hi : q.bReadIncr (min (left + 1) (toUInt32 avail)) = some q₁) :
    q.readLoop (fuel + 1) (left + 1) out done
      = q₁.readLoop fuel (left + 1 - min (left + 1) (toUInt32 avail)) (out ++ bytes)
          (done + min (left + 1) (toUInt32 avail)) := by
  rw [readLoop, ha]
  simp only [Option.bind_eq_bind, Option.bind_some, hl, hi]

/-- The loop of `read`: a turn takes bytes from the block being read or, when that block is
exhausted, goes to the next one.  Bytes and blocks both run out, so the loop ends. -/
lemma Wf.readLoop :
    ∀ {fuel left : ℕ} {q : Nbq} {r w : ℕ} (out : List UInt8) (done : ℕ), Wf q r w →
      left ≤ q.totalReadAvail → left + (q.q.length - r) ≤ fuel →
      ∃ q' r', q.readLoop fuel left out done
          = some (q', out ++ q.unread.take left, done + left) ∧
        Wf q' r' w ∧ Reads q q' (q.unread.take left) ∧ (Filled q r w → Filled q' r' w) := by
  intro fuel
  induction fuel with
  | zero =>
      intro left q r w out done h hle hfuel
      obtain rfl : left = 0 := by omega
      exact ⟨q, r, by simp [Nbq.readLoop], h, by simpa using Reads.refl q, id⟩
  | succ fuel ih =>
      intro left q r w out done h hle hfuel
      cases left with
      | zero => exact ⟨q, r, by simp [Nbq.readLoop], h, by simpa using Reads.refl q, id⟩
      | succ left =>
          obtain ⟨b, hb⟩ := h.exists_reader (by omega)
          have hn : min (left + 1) b.readAvail ≤ b.readAvail := Nat.min_le_right _ _
          have hlt := lt_of_getElem? hb
          obtain ⟨q₁, r₁, he₁, h₁, hr₁, hlen, hr₁'⟩ := h.bReadIncr hb hn
          have hu := hr₁.unread h h₁
          have ha := h.avail_eq
          have ha₁ := h₁.avail_eq
          set n := min (left + 1) b.readAvail with hnd
          have hlu : n ≤ q.unread.length := by omega
          have htl : (q.unread.take n).length = n := by
            rw [List.length_take]
            omega
          have hsplit : q.unread.length = n + q₁.unread.length := by
            conv_lhs => rw [hu]
            rw [List.length_append, htl]
          -- the measure drops: either bytes were read, or the reader moved on
          have hmeas : left + 1 - n + (q₁.q.length - r₁) ≤ fuel := by
            rw [hlen, hr₁']
            split_ifs with hc <;> omega
          obtain ⟨q₂, r₂, he₂, h₂, hr₂, hf₂⟩ :=
            ih (out ++ q.unread.take n) (done + n) h₁ (by omega) hmeas
          have htake : q.unread.take (left + 1)
              = q.unread.take n ++ q₁.unread.take (left + 1 - n) := by
            conv_lhs => rw [hu]
            rw [List.take_append, htl, List.take_of_length_le (by omega)]
          refine ⟨q₂, r₂, ?_, h₂, ?_, ?_⟩
          · have hdone : done + n + (left + 1 - n) = done + (left + 1) := by omega
            rw [hdone] at he₂
            have hav := h.toUInt32_bReadAvail hb
            rw [htake, ← List.append_assoc, ← he₂,
              readLoop_succ fuel left done out (h.bReadAvail hb)
                (by rw [hav]; exact h.bReadLoad hb hn) (by rw [hav]; exact he₁), hav]
          · rw [htake]
            exact hr₁.trans hr₂
          · intro hf
            have hf₁ := hf.bReadIncr h hb hn he₁
            rw [← hr₁'] at hf₁
            exact hf₂ hf₁

/-- `nbq::read` returns the next bytes and passes over them. -/
theorem Wf.read (h : Wf q r w) (len : ℕ) :
    ∃ q' r', q.read len = some (q', q.unread.take len, min len q.unread.length) ∧
      Wf q' r' w ∧ Reads q q' (q.unread.take len) ∧ (Filled q r w → Filled q' r' w) := by
  have ha := h.avail_eq
  obtain ⟨q', r', he, h', hr, hf⟩ := h.readLoop [] 0
    (show min len q.readAvail ≤ q.totalReadAvail by simp [readAvail])
    (show min len q.readAvail + (q.q.length - r) ≤ min len q.readAvail + q.q.length by omega)
  have htake : q.unread.take (min len q.readAvail) = q.unread.take len := by
    rw [readAvail, ha]
    rcases Nat.le_total len q.unread.length with hl | hl
    · rw [Nat.min_eq_left hl]
    · rw [Nat.min_eq_right hl, List.take_length, List.take_of_length_le hl]
  rw [htake] at he hr
  refine ⟨q', r', ?_, h', hr, hf⟩
  unfold Nbq.read
  simp only [he, List.nil_append, Nat.zero_add]
  rw [readAvail, ha]

/-! ## Writing -/

/-- Blocks pushed behind the writer are empty: pushing one changes no byte. -/
lemma Wf.pushBlock (h : Wf q r w) (r' w' : ℕ) (rit wit : Iter)
    (hr : rit = Iter.at (q.q.length + 1) r') (hw : wit = Iter.at (q.q.length + 1) w')
    (hrw : r' ≤ w') (hw' : w' ≤ q.q.length + 1) (hle : w ≤ w')
    (hbefore : ∀ i b, q.q[i]? = some b → i < r' → b.read = b.written)
    (hafter : ∀ i b, q.q[i]? = some b → r' < i → b.read = 0) :
    Wf { q with
          q := q.q ++ [Nb.alloc q.bsize], curReadBlock := rit, curWriteBlock := wit } r' w' ∧
      Appends q { q with
          q := q.q ++ [Nb.alloc q.bsize], curReadBlock := rit, curWriteBlock := wit } [] := by
  have hnew : ∀ i b, (q.q ++ [Nb.alloc q.bsize])[i]? = some b →
      q.q[i]? = some b ∨ (i = q.q.length ∧ b = Nb.alloc q.bsize) := by
    intro i b hi
    rcases Nat.lt_trichotomy i q.q.length with hlt | rfl | hgt
    · rw [List.getElem?_append_left hlt] at hi
      exact Or.inl hi
    · rw [List.getElem?_append_right (le_refl _)] at hi
      simp only [Nat.sub_self, List.getElem?_cons_zero, Option.some.injEq] at hi
      exact Or.inr ⟨rfl, hi.symm⟩
    · rw [List.getElem?_eq_none (by simp; omega)] at hi
      exact absurd hi (by simp)
  constructor
  · refine
      { offset := ?_, avail := ?_, noUnderflow := h.noUnderflow, ok := ?_, bsize_lt := h.bsize_lt,
        write_le := by simpa using hw', writeAt := by simpa using hw, beyond := ?_,
        read_le_write := hrw, readAt := by simpa using hr, before := ?_, after := ?_ }
    · simpa [Nb.alloc] using h.offset
    · simpa [Nb.alloc, Nb.readAvail] using h.avail
    · intro b hb
      rcases List.mem_append.mp hb with hb | hb
      · exact h.ok b hb
      · rw [List.mem_singleton.mp hb]
        exact Nb.Ok.alloc h.bsize_lt
    · intro i b hi hwi
      rcases hnew i b hi with hi | ⟨rfl, rfl⟩
      · exact h.beyond i b hi (by omega)
      · rfl
    · intro i b hi hir
      rcases hnew i b hi with hi | ⟨rfl, rfl⟩
      · exact hbefore i b hi hir
      · rfl
    · intro i b hi hri
      rcases hnew i b hi with hi | ⟨rfl, rfl⟩
      · exact hafter i b hi hri
      · rfl
  · refine ⟨?_, ?_, rfl⟩ <;> simp [contents, consumed, Nb.bytes, Nb.consumed, Nb.alloc]

/-- The first block of a queue. -/
lemma bWriteAddAvail_nil (h : q.q = []) :
    q.bWriteAddAvail = some
      ({ q with
          q := q.q ++ [Nb.alloc q.bsize]
          curReadBlock := .block 0
          curWriteBlock := .block 0 }, toInt32 q.bsize) := by
  simp [bWriteAddAvail, h, first, deref, Nb.writeAvail, Nb.size, Nb.alloc]

/-- A block behind a full one. -/
lemma bWriteAddAvail_full {b c : Nb} (hw : q.curWriteBlock = .block w) (hb : q.q[w]? = some b)
    (hf : b.writeAvail = 0) (hc : (q.q ++ [Nb.alloc q.bsize])[w + 1]? = some c) :
    q.bWriteAddAvail = some
      ({ q with q := q.q ++ [Nb.alloc q.bsize], curWriteBlock := .block (w + 1) },
        toInt32 c.writeAvail) := by
  have hlt := lt_of_getElem? hb
  have hb' : (q.q ++ [Nb.alloc q.bsize])[w]? = some b := by
    rw [List.getElem?_append_left hlt]
    exact hb
  have hne : ¬ (q.q.length = 0) := by omega
  simp only [bWriteAddAvail, hw, deref, hb', Option.bind_eq_bind, Option.bind_some, last, hf,
    next, List.length_append, List.length_singleton]
  obtain ⟨hlt', rfl⟩ := List.getElem?_eq_some_iff.mp hc
  simp [hne, hlt, Nat.ne_of_lt hlt]

/-- After `join_ref` the writer is at `end()`, and asking for a block is undefined. -/
lemma bWriteAddAvail_stop (hw : q.curWriteBlock = .stop) (hq : q.q ≠ []) :
    q.bWriteAddAvail = none := by
  simp [bWriteAddAvail, hw, deref, hq]

lemma bWriteAvail_block {b : Nb} (hw : q.curWriteBlock = .block w) (hb : q.q[w]? = some b) :
    q.bWriteAvail = some b.writeAvail := by
  simp [bWriteAvail, hw, deref, hb]

/-- `b_write_add_avail` on a queue whose current block is full, or that has no block. -/
lemma Wf.bWriteAddAvail (h : Wf q r w) (ha : q.bWriteAvail = some 0) {q' : Nbq} {st : ℤ}
    (he : q.bWriteAddAvail = some (q', st)) :
    ∃ r' w' b, Wf q' r' w' ∧ Appends q q' [] ∧ q'.q[w']? = some b ∧ st = toInt32 b.writeAvail := by
  by_cases hq : q.q = []
  · -- the first block
    rw [bWriteAddAvail_nil hq] at he
    obtain ⟨rfl, rfl⟩ := Prod.mk.inj (Option.some.inj he)
    have hp := h.pushBlock 0 0 (.block 0) (.block 0)
      (by simp [Iter.at, hq]) (by simp [Iter.at, hq]) (le_refl _) (Nat.zero_le _)
      (by have := h.write_le; simp only [hq, List.length_nil] at this; exact this)
      (fun i b _ hi => by omega) (fun i b hi => by simp [hq] at hi)
    exact ⟨0, 0, Nb.alloc q.bsize, hp.1, hp.2, by simp [hq],
      by simp [Nb.writeAvail, Nb.size, Nb.alloc]⟩
  · by_cases hlt : w < q.q.length
    · -- the writer moves to the block behind the full one
      obtain ⟨b, hb⟩ : ∃ b, q.q[w]? = some b := ⟨q.q[w], by simp⟩
      have hw := h.writeAt_block hb
      have hf : b.writeAvail = 0 := by
        rw [bWriteAvail_block hw hb] at ha
        exact Option.some.inj ha
      obtain ⟨c, hc⟩ : ∃ c, (q.q ++ [Nb.alloc q.bsize])[w + 1]? = some c :=
        ⟨_, List.getElem?_eq_getElem (by simp; omega)⟩
      rw [bWriteAddAvail_full hw hb hf hc] at he
      obtain ⟨rfl, rfl⟩ := Prod.mk.inj (Option.some.inj he)
      have hrw := h.read_le_write
      have hp := h.pushBlock r (w + 1) q.curReadBlock (.block (w + 1))
        (by rw [h.readAt, Iter.at_of_lt (by omega), Iter.at_of_lt (by omega)])
        (by rw [Iter.at_of_lt (by omega)]) (by omega) (by omega) (by omega) h.before h.after
      exact ⟨r, w + 1, c, hp.1, hp.2, hc, rfl⟩
    · -- the writer is at `end()`
      have hw : q.curWriteBlock = .stop := by rw [h.writeAt, Iter.at, if_neg hlt]
      rw [bWriteAddAvail_stop hw hq] at he
      exact absurd he (by simp)

/-- The head of a writing loop leaves the writer at a block with room, or gives up. -/
lemma Wf.bWriteRoom (h : Wf q r w) {q' : Nbq} {a : Option ℕ}
    (he : q.bWriteRoom = some (q', a)) :
    ∃ r' w', Wf q' r' w' ∧ Appends q q' [] ∧
      ∀ n, a = some n → 0 < n ∧ ∃ b, q'.q[w']? = some b ∧ b.writeAvail = n := by
  unfold Nbq.bWriteRoom at he
  obtain ⟨n, hn, he⟩ := Option.bind_eq_some_iff.mp he
  by_cases h0 : n = 0
  · subst h0
    rw [if_pos rfl] at he
    obtain ⟨⟨q₁, st⟩, hadd, he⟩ := Option.bind_eq_some_iff.mp he
    obtain ⟨r', w', b, h', ha, hb, hst'⟩ := h.bWriteAddAvail hn hadd
    simp only at he
    split_ifs at he with hst
    · obtain ⟨rfl, rfl⟩ := Prod.mk.inj (Option.some.inj he)
      exact ⟨r', w', h', ha, fun n hn => absurd hn (by simp)⟩
    · rw [bWriteAvail_block (h'.writeAt_block hb) hb] at he
      simp only [Option.bind_eq_bind, Option.bind_some] at he
      obtain ⟨rfl, rfl⟩ := Prod.mk.inj (Option.some.inj he)
      refine ⟨r', w', h', ha, fun n hn => ?_⟩
      obtain rfl := Option.some.inj hn
      refine ⟨?_, b, hb, rfl⟩
      by_contra hz
      have hz' : b.writeAvail = 0 := by omega
      rw [hst', hz'] at hst
      exact hst (by decide)
  · rw [if_neg h0] at he
    obtain ⟨rfl, rfl⟩ := Prod.mk.inj (Option.some.inj he)
    refine ⟨r, w, h, Appends.refl q, fun m hm => ?_⟩
    obtain rfl := Option.some.inj hm
    refine ⟨by omega, ?_⟩
    -- `b_write_avail` is positive only at a block
    by_cases hlt : w < q.q.length
    · obtain ⟨b, hb⟩ : ∃ b, q.q[w]? = some b := ⟨q.q[w], by simp⟩
      rw [bWriteAvail_block (h.writeAt_block hb) hb] at hn
      exact ⟨b, hb, Option.some.inj hn⟩
    · have hw : q.curWriteBlock = .stop := by rw [h.writeAt, Iter.at, if_neg hlt]
      simp only [bWriteAvail, hw, Option.some.injEq] at hn
      omega

/-- `b_write_incr` by a positive number of bytes. -/
lemma bWriteIncr_eq {b c : Nb} {n : ℕ} (hw : q.curWriteBlock = .block w)
    (hb : q.q[w]? = some b) (hr : q.curReadBlock = .block r)
    (hc : (q.q.modify w (·.writeInc n))[r]? = some c) (hn : 0 < n) :
    q.bWriteIncr n = some
      { q with
        q := q.q.modify w (·.writeInc n)
        curWriteOffset := q.curWriteOffset + n
        totalReadAvail := q.totalReadAvail + n
        curWriteBlock :=
          if (b.writeInc n).writeAvail = 0 ∧ w + 1 < q.q.length then .block (w + 1) else .block w
        curReadBlock :=
          if c.readAvail = 0 then Iter.at q.q.length (r + 1) else .block r } := by
  have hlt := lt_of_getElem? hb
  have hrlt : r < q.q.length := by simpa using (List.getElem?_eq_some_iff.mp hc).1
  have hb' := modify_getElem?_self hb (·.writeInc n)
  have hne : q.q.modify w (·.writeInc n) ≠ [] := by
    intro h0
    rw [h0] at hb'
    simp at hb'
  have hlast : (w ≠ q.q.length - 1) ↔ w + 1 < q.q.length := by omega
  unfold bWriteIncr
  simp only [hw]
  rw [update_of_lt (by exact hlt)]
  simp only [Option.bind_eq_bind, Option.bind_some, deref, hb', last, hne, if_false, ne_eq,
    Iter.block.injEq, List.length_modify, hn, if_true]
  by_cases hfull : (b.writeInc n).writeAvail = 0 ∧ w + 1 < q.q.length
  · rw [if_pos hfull, if_pos ⟨hfull.1, by omega⟩, next_of_lt (by simpa using hfull.2)]
    simp only [Option.bind_some, hr, hc]
    split_ifs with hz
    · rw [next_eq_at (by simpa using hrlt)]
      simp
    · rfl
  · rw [if_neg hfull, if_neg (by omega)]
    simp only [Option.bind_some, hr, hc]
    split_ifs with hz
    · rw [next_eq_at (by simpa using hrlt)]
      simp
    · simp

/-- `memcpy` into the current block. -/
lemma bWriteStore_eq {b : Nb} {xs : List UInt8} (hw : q.curWriteBlock = .block w)
    (hb : q.q[w]? = some b) (ho : b.Ok) (hx : xs.length ≤ b.writeAvail) :
    q.bWriteStore xs = some
      { q with q := q.q.modify w fun c => { c.append xs with written := c.written } } := by
  have hle : b.written + xs.length ≤ b.size := by
    have := ho.written_le
    simp only [Nb.writeAvail] at hx
    omega
  unfold bWriteStore
  simp only [hw, deref, hb, Option.bind_eq_bind, Option.bind_some, Nb.store, if_pos hle]
  rw [update_of_lt (lt_of_getElem? hb)]
  congr 2
  exact modify_congr hb rfl

/-- Writing a chunk that the current block has room for.  The writer moves on when the chunk fills
the block and another is there; the reader moves on when its block was exhausted. -/
lemma Wf.bWriteChunk (h : Wf q r w) (xs : List UInt8) {b c : Nb} (hb : q.q[w]? = some b)
    (hc : q.q[r]? = some c) (hx : xs.length ≤ b.writeAvail) (h0 : 0 < xs.length) :
    ∃ q₁ q', q.bWriteStore xs = some q₁ ∧ q₁.bWriteIncr xs.length = some q' ∧
      q'.q = q.q.modify w (·.append xs) ∧ Appends q q' xs ∧
      Wf q' (if r < w ∧ c.readAvail = 0 then r + 1 else r)
        (if b.writeAvail = xs.length ∧ w + 1 < q.q.length then w + 1 else w) := by
  have ho := h.mem_ok hb
  have hlt := lt_of_getElem? hb
  have hrw := h.read_le_write
  have hw := h.writeAt_block hb
  have hr := h.readAt_block hc
  set n := xs.length with hnd
  -- the block list after both updates
  have hmm : (q.q.modify w fun c => { c.append xs with written := c.written }).modify w
      (·.writeInc n) = q.q.modify w (·.append xs) := by
    rw [List.modify_modify_eq]
    exact modify_congr hb rfl
  have hb₁ := modify_getElem?_self hb fun c => { c.append xs with written := c.written }
  obtain ⟨d, hd⟩ : ∃ d, (q.q.modify w (·.append xs))[r]? = some d :=
    ⟨_, List.getElem?_eq_getElem (by simp; omega)⟩
  have hincr := bWriteIncr_eq
    (q := { q with q := q.q.modify w fun c => { c.append xs with written := c.written } })
    (n := n) hw hb₁ hr (by simp only [hmm]; exact hd) h0
  simp only [hmm, List.length_modify] at hincr
  -- which of the two iterators move
  have hfull : ((({ b.append xs with written := b.written } : Nb).writeInc n).writeAvail = 0) ↔
      b.writeAvail = n := by
    have hs := Nb.append_size ho hx
    have h1 := ho.written_le
    simp only [Nb.append, Nb.writeInc, Nb.writeAvail, Nb.size] at hs hx ⊢
    omega
  have hdz : d.readAvail = 0 ↔ r < w ∧ c.readAvail = 0 := by
    rcases modify_getElem?_cases hb hd with ⟨rfl, rfl⟩ | ⟨hne, hd⟩
    · have h1 := ho.read_le
      simp only [Nb.append, Nb.readAvail]
      omega
    · obtain rfl : d = c := by
        rw [hc] at hd
        exact (Option.some.inj hd).symm
      constructor
      · intro hz
        exact ⟨by omega, hz⟩
      · exact fun hz => hz.2
  have happ : (q.q.modify w (·.append xs)).flatMap Nb.bytes = q.contents ++ xs :=
    flatMap_modify_append Nb.bytes _ _ hb (Nb.append_bytes ho)
      (fun i e hi hwi => Nb.bytes_of_written_zero (h.beyond i e hi hwi))
  have hcons : (q.q.modify w (·.append xs)).flatMap Nb.consumed = q.consumed :=
    flatMap_modify_same Nb.consumed _ hb (Nb.append_consumed ho)
  have hwsum := sum_modify Nb.written (·.append xs) hb
  have hrsum := sum_modify Nb.readAvail (·.append xs) hb
  refine ⟨_, _, bWriteStore_eq hw hb ho hx, hincr, rfl, ⟨happ, hcons, rfl⟩, ?_⟩
  refine
    { offset := ?_, avail := ?_, noUnderflow := h.noUnderflow, ok := ?_, bsize_lt := h.bsize_lt,
      write_le := ?_, writeAt := ?_, beyond := ?_, read_le_write := ?_, readAt := ?_,
      before := ?_, after := ?_ }
  · have := h.offset
    simp only [Nb.append] at hwsum ⊢
    omega
  · have := h.avail
    have := ho.read_le
    simp only [Nb.append, Nb.readAvail] at hrsum this ⊢
    omega
  · intro e he
    rcases mem_modify hb he with rfl | he
    · exact ho.append hx
    · exact h.ok e he
  · simp only [List.length_modify]
    split_ifs <;> omega
  · simp only [hfull, List.length_modify]
    split_ifs with hf
    · rw [Iter.at_of_lt hf.2]
    · rw [Iter.at_of_lt hlt]
  · intro i e hi hwi
    rcases modify_getElem?_cases hb hi with ⟨rfl, rfl⟩ | ⟨_, hi⟩
    · split_ifs at hwi <;> omega
    · exact h.beyond i e hi (by split_ifs at hwi <;> omega)
  · split_ifs <;> omega
  · simp only [List.length_modify]
    split_ifs with h1 h2 h2
    · rfl
    · exact absurd (hdz.mp h1) h2
    · exact absurd (hdz.mpr h2) h1
    · rw [Iter.at_of_lt (by omega)]
  · intro i e hi hir
    rcases modify_getElem?_cases hb hi with ⟨rfl, rfl⟩ | ⟨_, hi'⟩
    · split_ifs at hir <;> omega
    · split_ifs at hir with hz
      · rcases Nat.lt_or_eq_of_le (Nat.lt_succ_iff.mp hir) with hlt' | rfl
        · exact h.before i e hi' hlt'
        · rw [hc] at hi'
          obtain rfl := Option.some.inj hi'
          have := (h.mem_ok hc).read_le
          have := hz.2
          simp only [Nb.readAvail] at this
          omega
      · exact h.before i e hi' hir
  · intro i e hi hri
    rcases modify_getElem?_cases hb hi with ⟨rfl, rfl⟩ | ⟨_, hi⟩
    · exact h.after _ b hb (by split_ifs at hri <;> omega)
    · exact h.after i e hi (by split_ifs at hri <;> omega)

/-- The loop of `write`, from any well-formed state it is defined on: all of the buffer is
appended, or the loop gave up on a block size that leaves no room. -/
lemma Wf.writeLoop :
    ∀ {fuel : ℕ} {q q' : Nbq} {r w : ℕ} {buf : List UInt8} {done : ℕ} {st : ℤ}, Wf q r w →
      q.writeLoop fuel buf done = some (q', st) →
      ∃ r' w' xs, Wf q' r' w' ∧ Appends q q' xs ∧
        (st = -1 ∨ (xs = buf ∧ st = done + buf.length)) := by
  intro fuel
  induction fuel with
  | zero =>
      intro q q' r w buf done st h he
      cases buf with
      | nil =>
          simp only [Nbq.writeLoop, Option.some.injEq, Prod.mk.injEq] at he
          obtain ⟨rfl, rfl⟩ := he
          exact ⟨r, w, [], h, Appends.refl q, Or.inr ⟨rfl, by simp⟩⟩
      | cons x buf => simp [Nbq.writeLoop] at he
  | succ fuel ih =>
      intro q q' r w buf done st h he
      cases buf with
      | nil =>
          simp only [Nbq.writeLoop, Option.some.injEq, Prod.mk.injEq] at he
          obtain ⟨rfl, rfl⟩ := he
          exact ⟨r, w, [], h, Appends.refl q, Or.inr ⟨rfl, by simp⟩⟩
      | cons x buf =>
          rw [Nbq.writeLoop] at he
          obtain ⟨⟨q₁, a⟩, hroom, he⟩ := Option.bind_eq_some_iff.mp he
          obtain ⟨r₁, w₁, h₁, ha₁, hn⟩ := h.bWriteRoom hroom
          cases a with
          | none =>
              simp only [Option.some.injEq, Prod.mk.injEq] at he
              obtain ⟨rfl, rfl⟩ := he
              exact ⟨r₁, w₁, [], h₁, ha₁, Or.inl rfl⟩
          | some n =>
              obtain ⟨hpos, b, hb, rfl⟩ := hn n rfl
              simp only [Option.bind_eq_bind] at he
              have hlt := lt_of_getElem? hb
              obtain ⟨c, hc⟩ : ∃ c, q₁.q[r₁]? = some c :=
                ⟨_, List.getElem?_eq_getElem (by have := h₁.read_le_write; omega)⟩
              set m := min (x :: buf).length b.writeAvail with hm
              have hlen : ((x :: buf).take m).length = m := by
                rw [List.length_take]
                omega
              have hmpos : 0 < m := by
                simp only [hm, List.length_cons]
                omega
              obtain ⟨q₂, q₃, hs, hi, -, ha₂, h₂⟩ :=
                h₁.bWriteChunk ((x :: buf).take m) hb hc (by omega) (by omega)
              rw [hlen] at hi
              rw [hs, Option.bind_some, hi, Option.bind_some] at he
              obtain ⟨r', w', ys, h', ha', hres⟩ := ih h₂ he
              refine ⟨r', w', (x :: buf).take m ++ ys, h', ?_, ?_⟩
              · simpa using (ha₁.trans ha₂).trans ha'
              · rcases hres with hres | ⟨rfl, rfl⟩
                · exact Or.inl hres
                · refine Or.inr ⟨List.take_append_drop _ _, ?_⟩
                  rw [List.length_drop]
                  push_cast
                  omega

/-- `nbq::write`, where it is defined. -/
theorem Wf.write (h : Wf q r w) {buf : Option (List UInt8)} {q' : Nbq} {st : ℤ}
    (he : q.write buf = some (q', st)) :
    ∃ r' w' xs, Wf q' r' w' ∧ Appends q q' xs ∧
      (st = -1 ∨ (buf = some xs ∧ st = xs.length)) := by
  cases buf with
  | none =>
      simp only [Nbq.write, Option.some.injEq, Prod.mk.injEq] at he
      obtain ⟨rfl, rfl⟩ := he
      exact ⟨r, w, [], h, Appends.refl q, Or.inl rfl⟩
  | some buf =>
      obtain ⟨r', w', xs, h', ha, hres⟩ := h.writeLoop he
      refine ⟨r', w', xs, h', ha, hres.imp id ?_⟩
      rintro ⟨rfl, rfl⟩
      exact ⟨rfl, by simp⟩

/-! ## Resetting -/

/-- `nbq::reset_read` needs the reader's part of the invariant for nothing: it rebuilds it. -/
lemma Writer.resetRead (h : Writer q w) (ho : q.curWriteOffset = (q.q.map Nb.written).sum)
    (hu : q.underflow = false) :
    Wf q.resetRead 0 w ∧ q.resetRead.contents = q.contents ∧ q.resetRead.consumed = [] ∧
      q.resetRead.bsize = q.bsize := by
  have hget : ∀ (i : ℕ) b, (q.q.map Nb.readReset)[i]? = some b →
      ∃ c : Nb, q.q[i]? = some c ∧ b = c.readReset := by
    intro i b hi
    rw [List.getElem?_map, Option.map_eq_some_iff] at hi
    obtain ⟨c, hc, rfl⟩ := hi
    exact ⟨c, hc, rfl⟩
  refine ⟨?_, ?_, ?_, rfl⟩
  · refine
      { offset := ?_, avail := rfl, noUnderflow := hu, ok := ?_, bsize_lt := h.bsize_lt,
        write_le := ?_, writeAt := ?_, beyond := ?_, read_le_write := Nat.zero_le _,
        readAt := first_eq_at _, before := fun i b _ hi => by omega, after := ?_ }
    · simp only [Nbq.resetRead, List.map_map]
      rw [ho]
      rfl
    · intro b hb
      simp only [Nbq.resetRead, List.mem_map] at hb
      obtain ⟨c, hc, rfl⟩ := hb
      exact (h.ok c hc).readReset
    · simpa [Nbq.resetRead] using h.write_le
    · simpa [Nbq.resetRead] using h.writeAt
    · intro i b hi hwi
      obtain ⟨c, hc, rfl⟩ := hget i b hi
      exact h.beyond i c hc hwi
    · intro i b hi _
      obtain ⟨c, -, rfl⟩ := hget i b hi
      rfl
  · simp only [contents, Nbq.resetRead, List.flatMap_map]
    rfl
  · simp only [consumed, Nbq.resetRead, List.flatMap_map, List.flatMap_eq_nil_iff]
    intro b _
    exact Nb.consumed_of_read_zero rfl

lemma Wf.resetRead (h : Wf q r w) :
    Wf q.resetRead 0 w ∧ q.resetRead.contents = q.contents ∧ q.resetRead.consumed = [] ∧
      q.resetRead.bsize = q.bsize :=
  h.toWriter.resetRead h.offset h.noUnderflow

/-- A queue whose blocks are all empty, with both iterators at the front. -/
lemma wf_of_empty_blocks (hok : ∀ b ∈ q.q, b.Ok) (hz : ∀ b ∈ q.q, b.written = 0)
    (hbs : q.bsize < 2 ^ 32) (hu : q.underflow = false) (ho : q.curWriteOffset = 0)
    (ha : q.totalReadAvail = 0) (hr : q.curReadBlock = q.first)
    (hw : q.curWriteBlock = q.first) : Wf q 0 0 ∧ q.contents = [] ∧ q.consumed = [] := by
  have hsum : ∀ (f : Nb → ℕ), (∀ b ∈ q.q, f b = 0) → (q.q.map f).sum = 0 := by
    intro f hf
    rw [List.sum_eq_zero_iff]
    intro x hx
    obtain ⟨b, hb, rfl⟩ := List.mem_map.mp hx
    exact hf b hb
  have hrz : ∀ b ∈ q.q, b.read = 0 := fun b hb => by
    have := (hok b hb).read_le
    have := hz b hb
    omega
  refine ⟨?_, ?_, ?_⟩
  · exact
      { offset := by rw [ho, hsum _ hz]
        avail := by rw [ha, hsum _ fun b hb => by simp [Nb.readAvail, hz b hb]]
        noUnderflow := hu, ok := hok, bsize_lt := hbs, write_le := Nat.zero_le _
        writeAt := by rw [hw, first_eq_at]
        beyond := fun i b hi _ => hz b (List.mem_of_getElem? hi)
        read_le_write := le_refl _
        readAt := by rw [hr, first_eq_at]
        before := fun i b _ hi => by omega
        after := fun i b hi _ => hrz b (List.mem_of_getElem? hi) }
  · rw [contents, List.flatMap_eq_nil_iff]
    exact fun b hb => Nb.bytes_of_written_zero (hz b hb)
  · rw [consumed, List.flatMap_eq_nil_iff]
    exact fun b hb => Nb.consumed_of_read_zero (hrz b hb)

/-- `nbq::reset_write`. -/
lemma wf_resetWrite (hok : ∀ b ∈ q.q, b.Ok) (hbs : q.bsize < 2 ^ 32)
    (hu : q.underflow = false) :
    Wf q.resetWrite 0 0 ∧ q.resetWrite.contents = [] ∧ q.resetWrite.consumed = [] := by
  have hmem : ∀ b ∈ q.resetWrite.q, ∃ c ∈ q.q, b = c.writeReset := by
    intro b hb
    simp only [resetWrite, List.mem_map, List.mem_filter] at hb
    obtain ⟨c, ⟨hc, -⟩, rfl⟩ := hb
    exact ⟨c, hc, rfl⟩
  refine wf_of_empty_blocks ?_ ?_ hbs hu rfl rfl rfl rfl
  · intro b hb
    obtain ⟨c, hc, rfl⟩ := hmem b hb
    exact (hok c hc).writeReset
  · intro b hb
    obtain ⟨c, -, rfl⟩ := hmem b hb
    rfl

/-- `nbq::reset`. -/
lemma wf_reset (hbs : q.bsize < 2 ^ 32) (hu : q.underflow = false) :
    Wf q.reset 0 0 ∧ q.reset.contents = [] ∧ q.reset.consumed = [] :=
  wf_of_empty_blocks (by simp [reset]) (by simp [reset]) hbs hu rfl rfl rfl rfl

/-! ## Shrinking -/

/-- The loop of `shrink` subtracts the *size* of every block it drops, so it needs the blocks
behind the reader to be full. -/
lemma Wf.shrinkLoop :
    ∀ {r : ℕ} {fuel : ℕ} {q : Nbq} {w : ℕ}, Wf q r w → r ≤ fuel →
      (∀ i b, q.q[i]? = some b → i < r → b.written = b.size) →
      ∃ q' xs, q.shrinkLoop fuel = some q' ∧ Wf q' 0 (w - r) ∧ Drops q q' xs ∧
        q'.q = q.q.drop r := by
  intro r
  induction r with
  | zero =>
      intro fuel q w h _ _
      refine ⟨q, [], ?_, h, Drops.refl q, rfl⟩
      rw [Nbq.shrinkLoop.eq_def, if_pos (by rw [h.readAt, first_eq_at])]
  | succ r ih =>
      intro fuel q w h hfuel hfull
      obtain ⟨fuel, rfl⟩ : ∃ n, fuel = n + 1 := ⟨fuel - 1, by omega⟩
      have hrw := h.read_le_write
      have hwl := h.write_le
      obtain ⟨b, rest, hq⟩ : ∃ b rest, q.q = b :: rest := by
        cases hl : q.q with
        | nil => simp [hl] at hwl; omega
        | cons b rest => exact ⟨b, rest, rfl⟩
      have hb0 : q.q[0]? = some b := by simp [hq]
      have hbr := h.before 0 b hb0 (by omega)
      have hbf := hfull 0 b hb0 (by omega)
      have hshift : ∀ i c, rest[i]? = some c → q.q[i + 1]? = some c := by
        intro i c hi
        simpa [hq] using hi
      have hpop : ∀ j, 1 ≤ j → (Iter.at q.q.length j).popFront = Iter.at rest.length (j - 1) := by
        intro j hj
        obtain ⟨j, rfl⟩ : ∃ m, j = m + 1 := ⟨j - 1, by omega⟩
        simp only [Iter.at, hq, List.length_cons, Nat.add_lt_add_iff_right, Nat.add_sub_cancel]
        split_ifs <;> rfl
      have hoff := h.offset
      have havl := h.avail
      simp only [hq, List.map_cons, List.sum_cons] at hoff havl
      have hle : b.size ≤ q.curWriteOffset := by omega
      have hu := h.noUnderflow
      -- the state after one turn
      have h₁ : Wf (decWriteOffset
          { q with
            q := rest
            curReadBlock := q.curReadBlock.popFront
            curWriteBlock := q.curWriteBlock.popFront } b.size) r (w - 1) := by
        refine
          { offset := ?_, avail := ?_, noUnderflow := ?_,
            ok := fun c hc => h.ok c (by rw [hq]; simp [show c ∈ rest from hc]),
            bsize_lt := h.bsize_lt, write_le := ?_, writeAt := ?_, beyond := ?_,
            read_le_write := by omega, readAt := ?_, before := ?_, after := ?_ }
        · simp only [decWriteOffset, sub64_of_le hle]
          omega
        · simp only [decWriteOffset, Nb.readAvail] at havl ⊢
          omega
        · simp only [decWriteOffset, hu, Bool.false_or, decide_eq_false_iff_not]
          omega
        · simp only [decWriteOffset]
          simp only [hq, List.length_cons] at hwl
          omega
        · simp only [decWriteOffset]
          rw [h.writeAt, hpop w (by omega)]
        · intro i c hi hwi
          exact h.beyond (i + 1) c (hshift i c hi) (by omega)
        · simp only [decWriteOffset]
          rw [h.readAt, hpop (r + 1) (by omega), Nat.add_sub_cancel]
        · intro i c hi hir
          exact h.before (i + 1) c (hshift i c hi) (by omega)
        · intro i c hi hri
          exact h.after (i + 1) c (hshift i c hi) (by omega)
      obtain ⟨q', xs, he, h', hd, hq'⟩ := ih h₁ (show r ≤ fuel by omega)
        (fun i c hi hir => hfull (i + 1) c (hshift i c hi) (by omega))
      refine ⟨q', b.bytes ++ xs, ?_, by rw [show w - (r + 1) = w - 1 - r by omega]; exact h', ?_,
        by rw [hq', hq]; rfl⟩
      · have hne : ¬ q.first = q.curReadBlock := by
          rw [h.readAt, first_eq_at]
          exact Iter.at_ne (by omega) (Nat.succ_ne_zero r).symm
        rw [Nbq.shrinkLoop.eq_def, if_neg hne]
        simp only [hq]
        exact he
      · have hturn : Drops q (decWriteOffset
            { q with
              q := rest
              curReadBlock := q.curReadBlock.popFront
              curWriteBlock := q.curWriteBlock.popFront } b.size) b.bytes := by
          refine ⟨?_, ?_, rfl⟩
          · simp [contents, hq, decWriteOffset]
          · simp only [consumed, hq, List.flatMap_cons, decWriteOffset]
            congr 1
            simp only [Nb.consumed, Nb.bytes, hbr]
        exact hturn.trans hd

/-- `nbq::shrink` drops bytes that had been read, and nothing else. -/
theorem Wf.shrink (h : Wf q r w)
    (hfull : ∀ i b, q.q[i]? = some b → i < r → b.written = b.size) :
    ∃ q' w' xs, q.shrink = some q' ∧ Wf q' 0 w' ∧ Drops q q' xs ∧
      (q'.q = [] ∨ q'.q = q.q.drop r ∧ w' = w - r) := by
  have hrl : r ≤ q.q.length := le_trans h.read_le_write h.write_le
  obtain ⟨q₁, xs, he, h₁, hd, hq₁⟩ := h.shrinkLoop hrl hfull
  unfold Nbq.shrink
  rw [he]
  simp only [Option.bind_eq_bind, Option.bind_some]
  by_cases hc : q₁.curReadBlock ≠ .stop ∧ q₁.curWriteBlock ≠ .stop ∧
      q₁.curReadBlock = q₁.curWriteBlock
  · rw [if_pos hc]
    have hpos : 0 < q₁.q.length := by
      by_contra hz
      refine hc.1 ?_
      rw [h₁.readAt, Iter.at, if_neg hz]
    obtain ⟨b, hb⟩ : ∃ b, q₁.q[0]? = some b := ⟨_, List.getElem?_eq_getElem hpos⟩
    have hw0 : w - r = 0 := by
      have h3 := hc.2.2
      have h2 := hc.2.1
      rw [h₁.readAt, h₁.writeAt, Iter.at_of_lt hpos] at h3
      unfold Iter.at at h3
      split_ifs at h3
      · simpa using h3.symm
    rw [h₁.readAt_block hb]
    simp only [deref, hb, Option.bind_some]
    split_ifs with hz
    · -- the last block is used up: the queue starts over
      have ht : q₁.unread = [] := by
        have := h₁.avail_of_same hw0.symm hb
        have := h₁.avail_eq
        rw [← List.length_eq_zero_iff]
        omega
      have hcu := h₁.consumed_append_unread
      rw [ht, List.append_nil] at hcu
      obtain ⟨hwf, hcont, hcons⟩ := wf_reset h₁.bsize_lt h₁.noUnderflow
      refine ⟨_, 0, xs ++ q₁.contents, rfl, hwf, hd.trans ⟨?_, ?_, rfl⟩, Or.inl rfl⟩
      · rw [hcont, List.append_nil]
      · rw [hcons, List.append_nil, hcu]
    · exact ⟨q₁, w - r, xs, rfl, h₁, hd, Or.inr ⟨hq₁, rfl⟩⟩
  · rw [if_neg hc]
    exact ⟨q₁, w - r, xs, rfl, h₁, hd, Or.inr ⟨hq₁, rfl⟩⟩

end Nbq

end Is2
