import Is2.Support.Nbq.Operations

/-!
# Queues of full blocks

A queue that is only written, read, rewound, emptied and shrunk keeps the shape `Filled`: full
blocks up to the writer, empty ones behind it, all of the same size.  On such a queue no operation
is ever undefined, every loop ends, and `shrink`, which subtracts block sizes from
`m_cur_write_offset`, subtracts the right number.

For each operation there is one lemma that gives the queue it leaves, the bytes it moved and the
shape again.
-/

namespace Is2

namespace Nbq

variable {q : Nbq} {r w : ℕ}

/-- An empty block of a filled queue has room. -/
lemma Filled.room_of_empty (hf : Filled q r w) {i : ℕ} {b : Nb} (hb : q.q[i]? = some b)
    (hz : b.written = 0) : b.writeAvail = q.bsize := by
  rw [Nb.writeAvail, hz, hf.size b (List.mem_of_getElem? hb)]
  omega

/-- Behind an exhausted reader, only the block being written can be. -/
lemma Filled.reader_exhausted (hf : Filled q r w) (h : Wf q r w) {b : Nb} (hb : q.q[r]? = some b)
    (hz : b.readAvail = 0) : w ≤ r + 1 := by
  by_contra hlt
  have hwl := h.write_le
  obtain ⟨c, hc⟩ : ∃ c, q.q[r + 1]? = some c := ⟨_, List.getElem?_eq_getElem (by omega)⟩
  have h1 := hf.full _ c hc (by omega)
  have h2 := hf.size c (List.mem_of_getElem? hc)
  have h3 := h.after _ c hc (by omega)
  have h4 := hf.bsize_pos
  have h5 := h.readAvail_le hc
  have h6 := hf.live b hb hz
  simp only [Nb.readAvail] at h5
  omega

/-! ## Writing -/

/-- Room in a block that had to be added. -/
lemma bWriteRoom_of_add {q₁ : Nbq} {st : ℤ} {n : ℕ} (ha : q.bWriteAvail = some 0)
    (hadd : q.bWriteAddAvail = some (q₁, st)) (hst : 0 < st) (hn : q₁.bWriteAvail = some n) :
    q.bWriteRoom = some (q₁, some n) := by
  have hst' : ¬ st ≤ 0 := by omega
  simp [Nbq.bWriteRoom, ha, hadd, hst', hn]

/-- A filled queue finds room for at least one byte. -/
lemma Filled.bWriteRoom (hf : Filled q r w) (h : Wf q r w) :
    ∃ q' n r' w' b, q.bWriteRoom = some (q', some n) ∧ Wf q' r' w' ∧ Filled q' r' w' ∧
      Appends q q' [] ∧ q'.q[w']? = some b ∧ b.writeAvail = n ∧ 0 < n := by
  have hbs := hf.bsize_pos
  have hpos : 0 < toInt32 q.bsize := by
    rw [toInt32_of_lt hf.bsize_lt_half]
    omega
  by_cases hq : q.q = []
  · -- the first block
    have hav : q.bWriteAvail = some 0 := by
      have hw : q.curWriteBlock = .stop := by
        rw [h.writeAt, Iter.at, if_neg (by simp [hq])]
      simp [bWriteAvail, hw]
    have hadd := bWriteAddAvail_nil hq
    obtain ⟨hp, ha⟩ := h.pushBlock 0 0 (.block 0) (.block 0)
      (by simp [Iter.at, hq]) (by simp [Iter.at, hq]) (le_refl _) (Nat.zero_le _)
      (by have := h.write_le; simp only [hq, List.length_nil] at this; exact this)
      (fun i b _ hi => by omega) (fun i b hi => by simp [hq] at hi)
    have hsz : (Nb.alloc q.bsize).writeAvail = q.bsize := by
      simp [Nb.alloc, Nb.writeAvail, Nb.size]
    have hb₀ : (q.q ++ [Nb.alloc q.bsize])[0]? = some (Nb.alloc q.bsize) := by simp [hq]
    refine ⟨_, q.bsize, 0, 0, Nb.alloc q.bsize, ?_, hp, ?_, ha, hb₀, hsz, hbs⟩
    · exact bWriteRoom_of_add hav hadd hpos (by rw [bWriteAvail_block (w := 0) rfl hb₀, hsz])
    · refine
        { bsize_pos := hbs, bsize_lt_half := hf.bsize_lt_half, size := ?_,
          full := fun i b _ hi => by omega, room := fun _ => by simp, live := ?_ }
      · intro b hb
        simp only [hq, List.nil_append, List.mem_singleton] at hb
        rw [hb]
        simp [Nb.alloc, Nb.size]
      · intro b _ _
        have := h.avail
        simpa [hq] using this
  · obtain ⟨b, hb⟩ : ∃ b, q.q[w]? = some b := ⟨_, List.getElem?_eq_getElem (hf.room hq)⟩
    have hw := h.writeAt_block hb
    have hav := bWriteAvail_block hw hb
    by_cases h0 : b.writeAvail = 0
    · -- the block is full, the one behind it is empty
      rw [h0] at hav
      obtain ⟨c, hc⟩ : ∃ c, (q.q ++ [Nb.alloc q.bsize])[w + 1]? = some c :=
        ⟨_, List.getElem?_eq_getElem (by have := lt_of_getElem? hb; simp; omega)⟩
      have hadd := bWriteAddAvail_full hw hb h0 hc
      have hlt := lt_of_getElem? hb
      have hrw := h.read_le_write
      obtain ⟨hp, ha⟩ := h.pushBlock r (w + 1) q.curReadBlock (.block (w + 1))
        (by rw [h.readAt, Iter.at_of_lt (by omega), Iter.at_of_lt (by omega)])
        (by rw [Iter.at_of_lt (by omega)]) (by omega) (by omega) (by omega) h.before h.after
      have hold : ∀ i d, (q.q ++ [Nb.alloc q.bsize])[i]? = some d → i ≤ w → q.q[i]? = some d := by
        intro i d hd hi
        rw [List.getElem?_append_left (by omega)] at hd
        exact hd
      have hfp : Filled { q with
          q := q.q ++ [Nb.alloc q.bsize], curReadBlock := q.curReadBlock,
          curWriteBlock := .block (w + 1) } r (w + 1) := by
        refine
          { bsize_pos := hbs, bsize_lt_half := hf.bsize_lt_half, size := ?_, full := ?_,
            room := fun _ => by simp; omega, live := ?_ }
        · intro d hd
          rcases List.mem_append.mp hd with hd | hd
          · exact hf.size d hd
          · rw [List.mem_singleton.mp hd]
            simp [Nb.alloc, Nb.size]
        · intro i d hd hi
          have hd' := hold i d hd (by omega)
          rcases Nat.lt_or_eq_of_le (Nat.lt_succ_iff.mp hi) with hi' | rfl
          · exact hf.full i d hd' hi'
          · rw [hb] at hd'
            obtain rfl := Option.some.inj hd'
            have := (h.mem_ok hb).written_le
            simp only [Nb.writeAvail] at h0
            omega
        · intro d hd hz
          exact hf.live d (hold r d hd hrw) hz
      have hcz : c.written = 0 := by
        by_cases hl : w + 1 < q.q.length
        · rw [List.getElem?_append_left hl] at hc
          exact h.beyond _ c hc (by omega)
        · rw [List.getElem?_append_right (by omega)] at hc
          have : w + 1 - q.q.length = 0 := by omega
          simp only [this, List.getElem?_cons_zero, Option.some.injEq] at hc
          rw [← hc]
          rfl
      have hcs := hfp.room_of_empty hc hcz
      refine ⟨_, q.bsize, r, w + 1, c, ?_, hp, hfp, ha, hc, hcs, hbs⟩
      rw [hcs] at hadd
      exact bWriteRoom_of_add hav hadd hpos (by rw [bWriteAvail_block (w := w + 1) rfl hc, hcs])
    · refine ⟨q, b.writeAvail, r, w, b, ?_, h, hf, Appends.refl q, hb, rfl, by omega⟩
      simp only [Nbq.bWriteRoom, hav, Option.bind_eq_bind, Option.bind_some, h0, if_false]

/-- A chunk leaves the shape: a block is left behind only when it is full, and the reader leaves
its block only for the one that was just written. -/
lemma Filled.bWriteChunk (hf : Filled q r w) (h : Wf q r w) (xs : List UInt8) {b : Nb}
    (hb : q.q[w]? = some b) (hx : xs.length ≤ b.writeAvail) (h0 : 0 < xs.length) :
    ∃ q₁ q' r' w', q.bWriteStore xs = some q₁ ∧ q₁.bWriteIncr xs.length = some q' ∧
      Wf q' r' w' ∧ Filled q' r' w' ∧ Appends q q' xs := by
  have hlt := lt_of_getElem? hb
  have hrw := h.read_le_write
  obtain ⟨c, hc⟩ : ∃ c, q.q[r]? = some c := ⟨_, List.getElem?_eq_getElem (by omega)⟩
  obtain ⟨q₁, q', hs, hi, hq', ha, h'⟩ := h.bWriteChunk xs hb hc hx h0
  refine ⟨q₁, q', _, _, hs, hi, h', ?_, ha⟩
  have hbs : q'.bsize = q.bsize := ha.bsize
  have ho := h.mem_ok hb
  have hsz := Nb.append_size ho hx
  refine
    { bsize_pos := by rw [hbs]; exact hf.bsize_pos
      bsize_lt_half := by rw [hbs]; exact hf.bsize_lt_half, size := ?_, full := ?_,
      room := ?_, live := ?_ }
  · intro d hd
    rw [hq'] at hd
    rw [hbs]
    rcases mem_modify hb hd with rfl | hd
    · rw [hsz]
      exact hf.size b (List.mem_of_getElem? hb)
    · exact hf.size d hd
  · intro i d hd hiw
    rw [hq'] at hd
    rcases modify_getElem?_cases hb hd with ⟨rfl, rfl⟩ | ⟨hne, hd⟩
    · split_ifs at hiw with hfull
      · have := ho.written_le
        rw [hsz]
        simp only [Nb.append, Nb.writeAvail] at hfull ⊢
        omega
      · omega
    · refine hf.full i d hd ?_
      split_ifs at hiw <;> omega
  · intro _
    rw [hq', List.length_modify]
    split_ifs <;> omega
  · intro d hd hz
    rw [hq'] at hd
    exfalso
    -- after a write the reader's block holds something
    split_ifs at hd with hmv
    · have hwr := hf.reader_exhausted h hc hmv.2
      obtain rfl : w = r + 1 := by omega
      rw [modify_getElem?_self hb] at hd
      obtain rfl := Option.some.inj hd
      have := ho.read_le
      simp only [Nb.append, Nb.readAvail] at hz
      omega
    · rcases modify_getElem?_cases hb hd with ⟨heq, rfl⟩ | ⟨hne, hd⟩
      · have := ho.read_le
        simp only [Nb.append, Nb.readAvail] at hz
        omega
      · rw [hc] at hd
        obtain rfl := Option.some.inj hd
        exact hmv ⟨by omega, hz⟩

/-- The loop of `write` takes the whole buffer. -/
lemma Filled.writeLoop :
    ∀ {fuel : ℕ} {q : Nbq} {r w : ℕ} (buf : List UInt8) (done : ℕ), Filled q r w → Wf q r w →
      buf.length ≤ fuel →
      ∃ q' r' w', q.writeLoop fuel buf done = some (q', ((done + buf.length : ℕ) : ℤ)) ∧
        Wf q' r' w' ∧ Filled q' r' w' ∧ Appends q q' buf := by
  intro fuel
  induction fuel with
  | zero =>
      intro q r w buf done hf h hfuel
      obtain rfl : buf = [] := List.length_eq_zero_iff.mp (by omega)
      exact ⟨q, r, w, by simp [Nbq.writeLoop], h, hf, Appends.refl q⟩
  | succ fuel ih =>
      intro q r w buf done hf h hfuel
      cases buf with
      | nil => exact ⟨q, r, w, by simp [Nbq.writeLoop], h, hf, Appends.refl q⟩
      | cons x buf =>
          obtain ⟨q₁, n, r₁, w₁, b, hroom, h₁, hf₁, ha₁, hb, hn, hpos⟩ := hf.bWriteRoom h
          set m := min (x :: buf).length n with hm
          have hlen : ((x :: buf).take m).length = m := by
            rw [List.length_take]
            omega
          have hmpos : 0 < m := by
            simp only [hm, List.length_cons]
            omega
          obtain ⟨q₂, q₃, r₂, w₂, hs, hi, h₂, hf₂, ha₂⟩ :=
            hf₁.bWriteChunk h₁ ((x :: buf).take m) hb (by omega) (by omega)
          rw [hlen] at hi
          obtain ⟨q₄, r₃, w₃, he, h₃, hf₃, ha₃⟩ := ih ((x :: buf).drop m) (done + m) hf₂ h₂
            (by rw [List.length_drop]; omega)
          refine ⟨q₄, r₃, w₃, ?_, h₃, hf₃, ?_⟩
          · have hd : done + m + ((x :: buf).drop m).length = done + (x :: buf).length := by
              rw [List.length_drop]
              omega
            rw [hd] at he
            rw [Nbq.writeLoop, hroom]
            simp only [Option.bind_eq_bind, Option.bind_some, ← hm, hs, hi, he]
          · have := (ha₁.trans ha₂).trans ha₃
            rwa [List.nil_append, List.take_append_drop] at this

/-- `nbq::write` appends the whole buffer. -/
theorem Filled.write (hf : Filled q r w) (h : Wf q r w) (buf : List UInt8) :
    ∃ q' r' w', q.write (some buf) = some (q', (buf.length : ℤ)) ∧ Wf q' r' w' ∧
      Filled q' r' w' ∧ Appends q q' buf := by
  obtain ⟨q', r', w', he, h', hf', ha⟩ := hf.writeLoop buf 0 h (le_refl _)
  refine ⟨q', r', w', ?_, h', hf', ha⟩
  rw [Nat.zero_add] at he
  exact he

/-- The loop of `write_q` moves all that the source has left to read. -/
lemma Filled.writeQLoop :
    ∀ {fuel : ℕ} {q src : Nbq} {r w r₀ w₀ : ℕ} (done : ℕ), Filled q r w → Wf q r w →
      Filled src r₀ w₀ → Wf src r₀ w₀ → src.unread.length ≤ fuel →
      ∃ q' src' r' w' r₁, q.writeQLoop fuel src src.unread.length done
          = some (q', src', ((done + src.unread.length : ℕ) : ℤ)) ∧
        Wf q' r' w' ∧ Filled q' r' w' ∧ Appends q q' src.unread ∧
        Wf src' r₁ w₀ ∧ Filled src' r₁ w₀ ∧ Reads src src' src.unread := by
  intro fuel
  induction fuel with
  | zero =>
      intro q src r w r₀ w₀ done hf h hfs hs hfuel
      have hnil : src.unread = [] := List.length_eq_zero_iff.mp (by omega)
      rw [hnil]
      exact ⟨q, src, r, w, r₀, by simp [Nbq.writeQLoop], h, hf, Appends.refl q, hs, hfs,
        Reads.refl src⟩
  | succ fuel ih =>
      intro q src r w r₀ w₀ done hf h hfs hs hfuel
      cases hl : src.unread.length with
      | zero =>
          have hnil : src.unread = [] := List.length_eq_zero_iff.mp hl
          rw [hnil]
          exact ⟨q, src, r, w, r₀, by simp [Nbq.writeQLoop], h, hf, Appends.refl q, hs, hfs,
            Reads.refl src⟩
      | succ left =>
          obtain ⟨q₁, n, r₁, w₁, b, hroom, h₁, hf₁, ha₁, hb, hn, hpos⟩ := hf.bWriteRoom h
          set m := min (left + 1) n with hm
          obtain ⟨src₁, r₂, hread, hs₁, hr₁, hfs₁⟩ := hs.read m
          have hmin : min m src.unread.length = m := by omega
          have htl : (src.unread.take m).length = m := by
            rw [List.length_take]
            omega
          have hsplit := hr₁.unread hs hs₁
          have hlen₁ : src₁.unread.length = left + 1 - m := by
            have := congrArg List.length hsplit
            rw [List.length_append] at this
            omega
          obtain ⟨q₂, q₃, r₃, w₃, hst, hi, h₂, hf₂, ha₂⟩ :=
            hf₁.bWriteChunk h₁ (src.unread.take m) hb (by omega) (by omega)
          rw [htl] at hi
          obtain ⟨q₄, src₂, r₄, w₄, r₅, he, h₃, hf₃, ha₃, hs₂, hfs₂, hr₂⟩ :=
            ih (done + m) hf₂ h₂ (hfs₁ hfs) hs₁ (by omega)
          refine ⟨q₄, src₂, r₄, w₄, r₅, ?_, h₃, hf₃, ?_, hs₂, hfs₂, ?_⟩
          · rw [hlen₁, show done + m + (left + 1 - m) = done + (left + 1) by omega] at he
            have hm0 : m ≠ 0 := by omega
            rw [hmin] at hread
            rw [Nbq.writeQLoop, hroom]
            simp only [Option.bind_eq_bind, Option.bind_some, ← hm, hread, hst, hm0, if_false, hi,
              he]
          · rw [hsplit]
            simpa using (ha₁.trans ha₂).trans ha₃
          · have := hr₁.trans hr₂
            rwa [← hsplit] at this

/-- `nbq::write_q` appends what the source has left and leaves the source fully read. -/
theorem Filled.writeQ (hf : Filled q r w) (h : Wf q r w) {src : Nbq} {r₀ w₀ : ℕ}
    (hfs : Filled src r₀ w₀) (hs : Wf src r₀ w₀) :
    ∃ q' src' r' w' r₁, q.writeQ src = some (q', src', (src.unread.length : ℤ)) ∧
      Wf q' r' w' ∧ Filled q' r' w' ∧ Appends q q' src.unread ∧
      Wf src' r₁ w₀ ∧ Filled src' r₁ w₀ ∧ Reads src src' src.unread := by
  obtain ⟨q', src', r', w', r₁, he, hrest⟩ := hf.writeQLoop 0 h hfs hs (le_refl _)
  refine ⟨q', src', r', w', r₁, ?_, hrest⟩
  rw [Nat.zero_add] at he
  rw [Nbq.writeQ, readAvail, hs.avail_eq]
  exact he

/-! ## Peeking, resetting, shrinking -/

/-- `nbq::peek` shows the next byte. -/
theorem Filled.peek (hf : Filled q r w) (h : Wf q r w) : q.peek = some (q.unread.headD 0) := by
  have ha := h.avail_eq
  unfold Nbq.peek
  rw [readAvail]
  split_ifs with h0
  · rw [List.length_eq_zero_iff.mp (by omega : q.unread.length = 0)]
    rfl
  · obtain ⟨b, hb⟩ := h.exists_reader h0
    have hpos : 1 ≤ b.readAvail := by
      by_contra hz
      exact h0 (hf.live b hb (by omega))
    have htake := h.unread_take hb hpos
    have hload := Nb.load_eq (h.mem_ok hb) hpos
    rw [← htake] at hload
    rw [h.readAt_block hb]
    simp only [deref, hb, Option.bind_eq_bind, Option.bind_some]
    cases hu : q.unread with
    | nil => rw [hu] at ha; exact absurd ha h0
    | cons x xs =>
        unfold Nb.load at hload
        split_ifs at hload with hle
        rw [hu, Option.some.injEq] at hload
        have hget := congrArg (·[0]?) hload
        simpa using hget

lemma Filled.resetRead (hf : Filled q r w) (h : Wf q r w) : Filled q.resetRead 0 w := by
  have h' := h.resetRead.1
  have hget : ∀ (i : ℕ) b, q.resetRead.q[i]? = some b →
      ∃ c : Nb, q.q[i]? = some c ∧ b = c.readReset := by
    intro i b hi
    rw [Nbq.resetRead, List.getElem?_map, Option.map_eq_some_iff] at hi
    obtain ⟨c, hc, rfl⟩ := hi
    exact ⟨c, hc, rfl⟩
  refine
    { bsize_pos := hf.bsize_pos, bsize_lt_half := hf.bsize_lt_half, size := ?_, full := ?_,
      room := ?_, live := ?_ }
  · intro b hb
    obtain ⟨i, hi⟩ := List.mem_iff_getElem?.mp hb
    obtain ⟨c, hc, rfl⟩ := hget i b hi
    exact hf.size c (List.mem_of_getElem? hc)
  · intro i b hi hiw
    obtain ⟨c, hc, rfl⟩ := hget i b hi
    exact hf.full i c hc hiw
  · intro hne
    have := hf.room (by simpa [Nbq.resetRead] using hne)
    simpa [Nbq.resetRead] using this
  · intro b hb hz
    rcases Nat.eq_zero_or_pos w with rfl | hpos
    · rw [h'.avail_of_same rfl hb, hz]
    · -- the first block is full
      obtain ⟨c, hc, rfl⟩ := hget 0 b hb
      have h1 := hf.full 0 c hc hpos
      have h2 := hf.size c (List.mem_of_getElem? hc)
      have h3 := hf.bsize_pos
      simp only [Nb.readReset, Nb.readAvail] at hz
      omega

lemma Filled.resetWrite (hf : Filled q r w) : Filled q.resetWrite 0 0 := by
  refine
    { bsize_pos := hf.bsize_pos, bsize_lt_half := hf.bsize_lt_half, size := ?_,
      full := fun i b _ hi => by omega, room := fun hne => List.length_pos_iff.mpr hne,
      live := fun _ _ _ => rfl }
  intro b hb
  simp only [Nbq.resetWrite, List.mem_map, List.mem_filter] at hb
  obtain ⟨c, ⟨hc, -⟩, rfl⟩ := hb
  exact hf.size c hc

lemma Filled.reset (hf : Filled q r w) : Filled q.reset 0 0 where
  bsize_pos := hf.bsize_pos
  bsize_lt_half := hf.bsize_lt_half
  size := by simp [Nbq.reset]
  full := by simp [Nbq.reset]
  room := by simp [Nbq.reset]
  live := by simp [Nbq.reset]

/-- `nbq::shrink` on a queue of full blocks. -/
theorem Filled.shrink (hf : Filled q r w) (h : Wf q r w) :
    ∃ q' w' xs, q.shrink = some q' ∧ Wf q' 0 w' ∧ Filled q' 0 w' ∧ Drops q q' xs := by
  have hrw := h.read_le_write
  obtain ⟨q', w', xs, he, h', hd, hq'⟩ :=
    h.shrink fun i b hi hir => hf.full i b hi (by omega)
  refine ⟨q', w', xs, he, h', ?_, hd⟩
  have hbp := hf.bsize_pos
  have hbl := hf.bsize_lt_half
  rw [← hd.bsize] at hbp hbl
  rcases hq' with hnil | ⟨hdrop, rfl⟩
  · have hw' : w' = 0 := by
      have := h'.write_le
      simp only [hnil, List.length_nil] at this
      omega
    exact
      { bsize_pos := hbp, bsize_lt_half := hbl, size := by simp [hnil], full := by simp [hnil],
        room := by simp [hnil], live := by simp [hnil] }
  · have hget : ∀ (i : ℕ) b, q'.q[i]? = some b → q.q[r + i]? = some b := by
      intro i b hi
      rwa [hdrop, List.getElem?_drop] at hi
    refine
      { bsize_pos := hbp, bsize_lt_half := hbl, size := ?_, full := ?_, room := ?_, live := ?_ }
    · intro b hb
      rw [hdrop] at hb
      rw [hd.bsize]
      exact hf.size b (List.mem_of_mem_drop hb)
    · intro i b hi hiw
      exact hf.full _ b (hget i b hi) (by omega)
    · intro hne
      have hl : 0 < q'.q.length := List.length_pos_iff.mpr hne
      rw [hdrop, List.length_drop] at hl ⊢
      have := hf.room (by intro h0; simp [h0] at hl)
      omega
    · intro b hb hz
      have := hf.live b (by simpa using hget 0 b hb) hz
      rw [h'.avail_eq, hd.unread h h', ← h.avail_eq]
      exact this

/-! ## Where the writer is -/

/-- Full blocks up to the writer, nothing behind it. -/
lemma Filled.length_contents (hf : Filled q r w) (h : Wf q r w) {b : Nb} (hb : q.q[w]? = some b) :
    q.contents.length = w * q.bsize + b.written := by
  obtain ⟨hlt, rfl⟩ := List.getElem?_eq_some_iff.mp hb
  have hbefore : (q.q.take w).map Nb.written = List.replicate w q.bsize := by
    rw [List.eq_replicate_iff, List.length_map, List.length_take, min_eq_left hlt.le]
    refine ⟨rfl, fun n hn => ?_⟩
    obtain ⟨c, hc, rfl⟩ := List.mem_map.mp hn
    obtain ⟨i, hi⟩ := List.mem_iff_getElem?.mp hc
    rw [List.getElem?_take] at hi
    split_ifs at hi with hiw
    rw [hf.full i c hi hiw, hf.size c (List.mem_of_getElem? hi)]
  have hbehind : ((q.q.drop (w + 1)).map Nb.written).sum = 0 := by
    refine List.sum_eq_zero fun n hn => ?_
    obtain ⟨c, hc, rfl⟩ := List.mem_map.mp hn
    obtain ⟨i, hi⟩ := List.mem_iff_getElem?.mp hc
    rw [List.getElem?_drop] at hi
    exact h.beyond _ c hi (by omega)
  rw [← h.offset_eq, h.offset]
  conv_lhs => rw [← List.take_append_drop w q.q, List.drop_eq_getElem_cons hlt]
  rw [List.map_append, List.sum_append, hbefore, List.map_cons, List.sum_cons, hbehind,
    List.sum_replicate, smul_eq_mul]
  omega

/-- A block that is full is left behind, unless it is the last one. -/
def Ready (q : Nbq) : Prop :=
  ∀ w b, q.curWriteBlock = .block w → q.q[w]? = some b → b.writeAvail = 0 → w + 1 = q.q.length

lemma Ready.of_room (h : Wf q r w) {b : Nb} (hb : q.q[w]? = some b) (h0 : 0 < b.writeAvail) :
    q.Ready := by
  intro i c hi hc hz
  rw [h.writeAt_block hb] at hi
  obtain rfl := Iter.block.inj hi
  rw [hb] at hc
  obtain rfl := Option.some.inj hc
  omega

lemma ready_init (bsize : ℕ) : (init bsize).Ready := fun w b _ hb => by simp [init] at hb

lemma Filled.ready_resetWrite (hf : Filled q r w) : q.resetWrite.Ready := by
  intro i b _ hb hz
  have hmem := List.mem_of_getElem? hb
  have hsize := hf.resetWrite.size b hmem
  have hpos := hf.resetWrite.bsize_pos
  simp only [Nbq.resetWrite, List.mem_map, List.mem_filter] at hmem
  obtain ⟨c, -, rfl⟩ := hmem
  simp only [Nb.writeReset, Nb.writeAvail] at hz hsize
  omega

/-- Room is found in the block being written, or in one that is put behind blocks that are all
full. -/
lemma Filled.bWriteRoom_cases (hf : Filled q r w) (h : Wf q r w) (hq : q.Ready) {q' : Nbq} {n : ℕ}
    (he : q.bWriteRoom = some (q', some n)) :
    q' = q ∨ (q'.q.length = q.q.length + 1 ∧ q.contents.length = q.q.length * q.bsize) := by
  obtain ⟨avail, hav, he⟩ := Option.bind_eq_some_iff.mp he
  split_ifs at he with h0
  · right
    subst h0
    obtain ⟨⟨q₁, st⟩, hadd, he⟩ := Option.bind_eq_some_iff.mp he
    have hq' : q' = q₁ := by
      simp only at he
      split_ifs at he with hst
      · cases he
      obtain ⟨m, -, he⟩ := Option.bind_eq_some_iff.mp he
      exact (Prod.mk.inj (Option.some.inj he)).1.symm
    subst hq'
    by_cases hnil : q.q = []
    · rw [bWriteAddAvail_nil hnil] at hadd
      obtain ⟨rfl, -⟩ := Prod.mk.inj (Option.some.inj hadd)
      simp [hnil, contents]
    · obtain ⟨b, hb⟩ : ∃ b, q.q[w]? = some b := ⟨_, List.getElem?_eq_getElem (hf.room hnil)⟩
      have hw := h.writeAt_block hb
      rw [bWriteAvail_block hw hb] at hav
      have hz := Option.some.inj hav
      have hlast := hq w b hw hb hz
      obtain ⟨c, hc⟩ : ∃ c, (q.q ++ [Nb.alloc q.bsize])[w + 1]? = some c :=
        ⟨_, List.getElem?_eq_getElem (by simp; omega)⟩
      rw [bWriteAddAvail_full hw hb hz hc] at hadd
      obtain ⟨rfl, -⟩ := Prod.mk.inj (Option.some.inj hadd)
      refine ⟨by simp, ?_⟩
      have hsize := hf.size b (List.mem_of_getElem? hb)
      have hok := (h.mem_ok hb).written_le
      simp only [Nb.writeAvail] at hz
      rw [hf.length_contents h hb, ← hlast, Nat.add_one_mul]
      omega
  · left
    exact (Prod.mk.inj (Option.some.inj he)).1.symm

/-- A chunk leaves the writer in its block, unless it fills it and there is one behind it. -/
lemma Filled.bWriteChunk_ready (hf : Filled q r w) (h : Wf q r w) {xs : List UInt8} {b : Nb}
    (hb : q.q[w]? = some b) (hx : xs.length ≤ b.writeAvail) (h0 : 0 < xs.length) {q₁ q' : Nbq}
    (hs : q.bWriteStore xs = some q₁) (hi : q₁.bWriteIncr xs.length = some q') :
    q'.bsize = q.bsize ∧ q'.Ready ∧
      (¬ (b.writeAvail = xs.length ∧ w + 1 < q.q.length) → q'.curWriteBlock = .block w) := by
  have hlt := lt_of_getElem? hb
  obtain ⟨c, hc⟩ : ∃ c, q.q[r]? = some c :=
    ⟨_, List.getElem?_eq_getElem (by have := h.read_le_write; omega)⟩
  obtain ⟨q₁', q'', hs', hi', hq, ha, h'⟩ := h.bWriteChunk xs hb hc hx h0
  obtain rfl : q₁ = q₁' := Option.some.inj (hs.symm.trans hs')
  obtain rfl : q' = q'' := Option.some.inj (hi.symm.trans hi')
  refine ⟨ha.bsize, ?_, fun hstay => ?_⟩
  · intro i d hw hd hz
    rw [h'.writeAt, hq, List.length_modify] at hw
    rw [hq] at hd ⊢
    rw [List.length_modify]
    split_ifs at hw with hmove
    · -- the block behind is empty
      rw [Iter.at_of_lt hmove.2] at hw
      obtain rfl := Iter.block.inj hw
      rcases modify_getElem?_cases hb hd with ⟨habs, -⟩ | ⟨-, hd⟩
      · omega
      · have h1 := h.beyond _ d hd (Nat.lt_succ_self w)
        have h2 := hf.size d (List.mem_of_getElem? hd)
        have h3 := hf.bsize_pos
        simp only [Nb.writeAvail] at hz
        omega
    · rw [Iter.at_of_lt hlt] at hw
      obtain rfl := Iter.block.inj hw
      rcases modify_getElem?_cases hb hd with ⟨-, rfl⟩ | ⟨hne, -⟩
      · have h1 := Nb.append_size (h.mem_ok hb) hx
        have h2 : (b.append xs).written = b.written + xs.length := rfl
        simp only [Nb.writeAvail, h1, h2] at hz hx hmove
        omega
      · exact absurd rfl hne
  · rw [h'.writeAt, hq, List.length_modify, if_neg hstay, Iter.at_of_lt hlt]

end Nbq

end Is2
