import Is2.Support.Nbq.JoinRef

/-!
# What `split` does to the bytes

`split` should hand out `contents.take off` and `contents.drop off`.  It looks for the block that
holds the offset and then steps over it.  When the offset is the first byte of that block there is
no remainder to copy, and the whole block stays with the head.

While a queue is only written and read, its blocks are full up to the writer (`Packed`), so the
blocks start at the multiples of the block size: `split` is right exactly at the other offsets
(`splitLaw_iff`).  The write offset of the head is then wrong, which no reader notices.
-/

namespace Is2

namespace Nbq

variable {q q' : Nbq}

/-! ## Queues that are written and read -/

/-- Writing and reading: the operations that a queue is built by before it is split. -/
def Act.Streaming : Act → Prop
  | write _ _ | read _ _ | readSeek _ _ | resetRead _ => True
  | _ => False

instance : DecidablePred Act.Streaming
  | .write _ _ | .read _ _ | .readSeek _ _ | .resetRead _ => .isTrue trivial
  | .resetWrite _ | .reset _ | .shrink _ | .split _ _ | .joinRef _ _ => .isFalse id

/-- All blocks have the size of the queue's blocks, and those behind the writer are full. -/
structure Packed (q : Nbq) : Prop where
  size : ∀ b ∈ q.q, b.size = q.bsize
  room : q.q ≠ [] → ∃ w, q.curWriteBlock = .block w
  full : ∀ w, q.curWriteBlock = .block w → ∀ i b, q.q[i]? = some b → i < w → b.written = b.size

lemma packed_init (bsize : ℕ) : Packed (init bsize) where
  size := by simp [init]
  room := by simp [init]
  full := by simp [init]

/-- Sizes and write marks of the blocks. -/
def shape (q : Nbq) : List (ℕ × ℕ) := q.q.map fun b => (b.size, b.written)

/-- A queue that differs only in what was read of it. -/
structure Reread (q q' : Nbq) : Prop where
  bsize : q'.bsize = q.bsize
  writer : q'.curWriteBlock = q.curWriteBlock
  shape : q'.shape = q.shape

lemma Reread.refl (q : Nbq) : Reread q q := ⟨rfl, rfl, rfl⟩

lemma Reread.trans {q₁ q₂ q₃ : Nbq} (h : Reread q₁ q₂) (h' : Reread q₂ q₃) : Reread q₁ q₃ :=
  ⟨h'.bsize.trans h.bsize, h'.writer.trans h.writer, h'.shape.trans h.shape⟩

lemma reread_bReadIncr {n : ℕ} (he : q.bReadIncr n = some q') : Reread q q' := by
  have hmove : ∀ {q₁ : Nbq} {c : Prop} [Decidable c],
      (if c then (q₁.next q₁.curReadBlock).bind fun it => some { q₁ with curReadBlock := it }
        else some q₁) = some q' → Reread q₁ q' := by
    intro q₁ c _ h₁
    split_ifs at h₁
    · obtain ⟨it, -, h₁⟩ := Option.bind_eq_some_iff.mp h₁
      obtain rfl := Option.some.inj h₁
      exact ⟨rfl, rfl, rfl⟩
    · obtain rfl := Option.some.inj h₁
      exact Reread.refl q₁
  obtain ⟨avail, -, he⟩ := Option.bind_eq_some_iff.mp he
  obtain ⟨q₁, hup, he⟩ := Option.bind_eq_some_iff.mp he
  refine Reread.trans ?_ (hmove he)
  cases hr : (q.decReadAvail n).curReadBlock with
  | stop => simp [hr, update] at hup
  | freed => simp [hr, update] at hup
  | block i =>
      rw [hr, update] at hup
      split_ifs at hup with hi
      obtain rfl := Option.some.inj hup
      refine ⟨rfl, rfl, ?_⟩
      apply List.ext_getElem?
      intro k
      simp only [Nbq.shape, List.getElem?_map, List.getElem?_modify, decReadAvail]
      cases q.q[k]? with
      | none => rfl
      | some b => by_cases hik : i = k <;> simp [hik, Nb.readInc, Nb.size]

lemma reread_readLoop {fuel : ℕ} :
    ∀ {q q' : Nbq} {left done n : ℕ} {out xs : List UInt8},
      q.readLoop fuel left out done = some (q', xs, n) → Reread q q' := by
  induction fuel with
  | zero =>
      intro q q' left done n out xs he
      cases left with
      | zero =>
          simp only [Nbq.readLoop, Option.some.injEq, Prod.mk.injEq] at he
          rw [← he.1]
          exact Reread.refl q
      | succ left => simp [Nbq.readLoop] at he
  | succ fuel ih =>
      intro q q' left done n out xs he
      cases left with
      | zero =>
          simp only [Nbq.readLoop, Option.some.injEq, Prod.mk.injEq] at he
          rw [← he.1]
          exact Reread.refl q
      | succ left =>
          rw [Nbq.readLoop] at he
          obtain ⟨avail, -, he⟩ := Option.bind_eq_some_iff.mp he
          obtain ⟨bytes, -, he⟩ := Option.bind_eq_some_iff.mp he
          obtain ⟨q₁, hi, he⟩ := Option.bind_eq_some_iff.mp he
          exact (reread_bReadIncr hi).trans (ih he)

lemma reread_resetRead (q : Nbq) : Reread q q.resetRead := by
  refine ⟨rfl, rfl, ?_⟩
  simp only [shape, Nbq.resetRead, List.map_map]
  rfl

lemma Packed.reread (h : Packed q) (hr : Reread q q') : Packed q' := by
  obtain ⟨hb, hw, hs⟩ := hr
  have hget : ∀ (k : ℕ) (b : Nb), q'.q[k]? = some b →
      ∃ c, q.q[k]? = some c ∧ c.size = b.size ∧ c.written = b.written := by
    intro k b hk
    have hk' : q.shape[k]? = some (b.size, b.written) := by
      rw [← hs]
      simp [shape, hk]
    rw [shape, List.getElem?_map, Option.map_eq_some_iff] at hk'
    obtain ⟨c, hc, hcb⟩ := hk'
    exact ⟨c, hc, Prod.mk.inj hcb⟩
  refine ⟨?_, ?_, ?_⟩
  · intro b hb'
    obtain ⟨k, hk⟩ := List.mem_iff_getElem?.mp hb'
    obtain ⟨c, hc, hcs, -⟩ := hget k b hk
    rw [← hcs, hb]
    exact h.size c (List.mem_of_getElem? hc)
  · intro hne
    rw [hw]
    refine h.room fun hq => hne ?_
    simpa [shape, hq] using hs
  · intro w hw' k b hk hkw
    obtain ⟨c, hc, hcs, hcw⟩ := hget k b hk
    rw [← hcs, ← hcw]
    exact h.full w (by rw [← hw, hw']) k c hc hkw

/-- A block with room, or none: the blocks behind the writer stay full. -/
lemma Packed.bWriteRoom (hp : Packed q) {r w : ℕ} (h : Wf q r w) {a : Option ℕ}
    (he : q.bWriteRoom = some (q', a)) : Packed q' := by
  obtain ⟨n, hn, he⟩ := Option.bind_eq_some_iff.mp he
  split_ifs at he with h0
  · subst h0
    obtain ⟨⟨q₁, st⟩, hadd, he⟩ := Option.bind_eq_some_iff.mp he
    have hq₁ : q' = q₁ := by
      simp only at he
      split_ifs at he
      · exact (Prod.mk.inj (Option.some.inj he)).1.symm
      · obtain ⟨m, -, he⟩ := Option.bind_eq_some_iff.mp he
        exact (Prod.mk.inj (Option.some.inj he)).1.symm
    subst hq₁
    have hsize : ∀ b ∈ q.q ++ [Nb.alloc q.bsize], b.size = q.bsize := by
      intro b hb
      rcases List.mem_append.mp hb with hb | hb
      · exact hp.size b hb
      · rw [List.mem_singleton.mp hb]
        simp [Nb.alloc, Nb.size]
    by_cases hq : q.q = []
    · rw [bWriteAddAvail_nil hq] at hadd
      obtain ⟨rfl, -⟩ := Prod.mk.inj (Option.some.inj hadd)
      refine ⟨hsize, fun _ => ⟨0, rfl⟩, fun w' hw' i b _ hi => ?_⟩
      obtain rfl := Iter.block.inj hw'
      omega
    · obtain ⟨w', hw'⟩ := hp.room hq
      obtain ⟨b, hb⟩ : ∃ b, q.q[w']? = some b := by
        simp only [bWriteAvail, hw', deref, Option.map_eq_some_iff] at hn
        obtain ⟨b, hb, -⟩ := hn
        exact ⟨b, hb⟩
      have hlt := lt_of_getElem? hb
      have hf : b.writeAvail = 0 := by
        rw [bWriteAvail_block hw' hb] at hn
        exact Option.some.inj hn
      obtain ⟨c, hc⟩ : ∃ c, (q.q ++ [Nb.alloc q.bsize])[w' + 1]? = some c :=
        ⟨_, List.getElem?_eq_getElem (by simp; omega)⟩
      rw [bWriteAddAvail_full hw' hb hf hc] at hadd
      obtain ⟨rfl, -⟩ := Prod.mk.inj (Option.some.inj hadd)
      refine ⟨hsize, fun _ => ⟨w' + 1, rfl⟩, fun v hv i d hd hi => ?_⟩
      obtain rfl := Iter.block.inj hv
      have hd' : q.q[i]? = some d := by
        rwa [List.getElem?_append_left (by omega)] at hd
      rcases Nat.lt_or_eq_of_le (Nat.lt_succ_iff.mp hi) with hi' | rfl
      · exact hp.full w' hw' i d hd' hi'
      · obtain rfl := Option.some.inj (hb.symm.trans hd')
        have := (h.mem_ok hb).written_le
        simp only [Nb.writeAvail] at hf
        omega
  · obtain ⟨rfl, -⟩ := Prod.mk.inj (Option.some.inj he)
    exact hp

lemma Packed.bWriteChunk (hp : Packed q) {r w : ℕ} (h : Wf q r w) (xs : List UInt8) {b c : Nb}
    (hb : q.q[w]? = some b) (hc : q.q[r]? = some c) (hx : xs.length ≤ b.writeAvail)
    (h0 : 0 < xs.length) {q₁ : Nbq} (hs : q.bWriteStore xs = some q₁)
    (hi : q₁.bWriteIncr xs.length = some q') : Packed q' := by
  obtain ⟨q₂, q₃, hs', hi', hq', ha, h'⟩ := h.bWriteChunk xs hb hc hx h0
  obtain rfl := Option.some.inj (hs.symm.trans hs')
  obtain rfl := Option.some.inj (hi.symm.trans hi')
  have ho := h.mem_ok hb
  have hsz := Nb.append_size ho hx
  have hlt := lt_of_getElem? hb
  refine ⟨?_, fun _ => ?_, ?_⟩
  · intro d hd
    rw [hq'] at hd
    rw [ha.bsize]
    rcases mem_modify hb hd with rfl | hd
    · rw [hsz]
      exact hp.size b (List.mem_of_getElem? hb)
    · exact hp.size d hd
  · rw [h'.writeAt, Iter.at_of_lt (by rw [hq', List.length_modify]; split_ifs <;> omega)]
    exact ⟨_, rfl⟩
  · intro v hv i d hd hiv
    rw [h'.writeAt, Iter.at_of_lt (by rw [hq', List.length_modify]; split_ifs <;> omega)] at hv
    obtain rfl := Iter.block.inj hv
    rw [hq'] at hd
    rcases modify_getElem?_cases hb hd with ⟨rfl, rfl⟩ | ⟨hne, hd⟩
    · split_ifs at hiv with hfull
      · have := ho.written_le
        rw [hsz]
        simp only [Nb.append, Nb.writeAvail] at hfull ⊢
        omega
      · omega
    · refine hp.full w (h.writeAt_block hb) i d hd ?_
      split_ifs at hiv <;> omega

lemma Packed.writeLoop {fuel : ℕ} :
    ∀ {q q' : Nbq} {r w : ℕ} {buf : List UInt8} {done : ℕ} {st : ℤ}, Packed q → Wf q r w →
      q.writeLoop fuel buf done = some (q', st) → Packed q' := by
  induction fuel with
  | zero =>
      intro q q' r w buf done st hp h he
      cases buf with
      | nil =>
          simp only [Nbq.writeLoop, Option.some.injEq, Prod.mk.injEq] at he
          rw [← he.1]
          exact hp
      | cons x buf => simp [Nbq.writeLoop] at he
  | succ fuel ih =>
      intro q q' r w buf done st hp h he
      cases buf with
      | nil =>
          simp only [Nbq.writeLoop, Option.some.injEq, Prod.mk.injEq] at he
          rw [← he.1]
          exact hp
      | cons x buf =>
          rw [Nbq.writeLoop] at he
          obtain ⟨⟨q₁, a⟩, hroom, he⟩ := Option.bind_eq_some_iff.mp he
          obtain ⟨r₁, w₁, h₁, -, hn⟩ := h.bWriteRoom hroom
          have hp₁ := hp.bWriteRoom h hroom
          cases a with
          | none =>
              simp only [Option.some.injEq, Prod.mk.injEq] at he
              rw [← he.1]
              exact hp₁
          | some n =>
              obtain ⟨hpos, b, hb, rfl⟩ := hn n rfl
              obtain ⟨q₂, hs, he⟩ := Option.bind_eq_some_iff.mp he
              obtain ⟨q₃, hi, he⟩ := Option.bind_eq_some_iff.mp he
              obtain ⟨c, hc⟩ : ∃ c, q₁.q[r₁]? = some c :=
                ⟨_, List.getElem?_eq_getElem (by
                  have := h₁.read_le_write
                  have := lt_of_getElem? hb
                  omega)⟩
              have hlen : ((x :: buf).take (min (x :: buf).length b.writeAvail)).length
                  = min (x :: buf).length b.writeAvail := by
                rw [List.length_take]
                omega
              have hle : ((x :: buf).take (min (x :: buf).length b.writeAvail)).length
                  ≤ b.writeAvail := by omega
              have h0 : 0 < ((x :: buf).take (min (x :: buf).length b.writeAvail)).length := by
                rw [hlen, List.length_cons]
                omega
              rw [← hlen] at hi
              obtain ⟨q₄, q₅, hs', hi', -, -, h₃⟩ := h₁.bWriteChunk _ hb hc hle h0
              obtain rfl := Option.some.inj (hs.symm.trans hs')
              obtain rfl := Option.some.inj (hi.symm.trans hi')
              exact ih (hp₁.bWriteChunk h₁ _ hb hc hle h0 hs hi) h₃ he

/-- A queue that was only written and read. -/
def Streamed (q : Nbq) : Prop := (∃ r w, Wf q r w) ∧ Packed q

lemma Streamed.write (h : Streamed q) {buf : Option (List UInt8)} {st : ℤ}
    (he : q.write buf = some (q', st)) : Streamed q' := by
  obtain ⟨⟨r, w, h⟩, hp⟩ := h
  obtain ⟨r', w', xs, h', -⟩ := h.write he
  refine ⟨⟨r', w', h'⟩, ?_⟩
  cases buf with
  | none =>
      simp only [Nbq.write, Option.some.injEq, Prod.mk.injEq] at he
      rw [← he.1]
      exact hp
  | some buf => exact hp.writeLoop h he

lemma Streamed.read (h : Streamed q) {len n : ℕ} {xs : List UInt8}
    (he : q.read len = some (q', xs, n)) : Streamed q' := by
  obtain ⟨⟨r, w, h⟩, hp⟩ := h
  obtain ⟨q₁, r', he', h', -⟩ := h.read len
  obtain ⟨rfl, -⟩ := Prod.mk.inj (Option.some.inj (he.symm.trans he'))
  exact ⟨⟨r', w, h'⟩, hp.reread (reread_readLoop he)⟩

lemma Streamed.resetRead (h : Streamed q) : Streamed q.resetRead := by
  obtain ⟨⟨r, w, h⟩, hp⟩ := h
  exact ⟨⟨0, w, h.resetRead.1⟩, hp.reread (reread_resetRead q)⟩

lemma Act.result_streamed {Q : List Nbq} (h : ∀ q ∈ Q, Streamed q) {a : Act} (ha : a.Streaming)
    {i : ℕ} {made : List Nbq} (he : a.result Q = some (i, q', made)) :
    Streamed q' ∧ made = [] := by
  have hat : ∀ {j : ℕ} {q : Nbq}, Q[j]? = some q → Streamed q := fun hj =>
    h _ (List.mem_of_getElem? hj)
  cases a with
  | write j buf =>
      obtain ⟨q, hq, he⟩ := Option.bind_eq_some_iff.mp he
      obtain ⟨⟨q₁, st⟩, hw, he⟩ := Option.bind_eq_some_iff.mp he
      simp only [Option.some.injEq, Prod.mk.injEq] at he
      obtain ⟨-, rfl, rfl⟩ := he
      exact ⟨(hat hq).write hw, rfl⟩
  | read j len =>
      obtain ⟨q, hq, he⟩ := Option.bind_eq_some_iff.mp he
      obtain ⟨⟨q₁, xs, n⟩, hr, he⟩ := Option.bind_eq_some_iff.mp he
      simp only [Option.some.injEq, Prod.mk.injEq] at he
      obtain ⟨-, rfl, rfl⟩ := he
      exact ⟨(hat hq).read hr, rfl⟩
  | readSeek j off =>
      obtain ⟨q, hq, he⟩ := Option.bind_eq_some_iff.mp he
      obtain ⟨⟨q₁, n⟩, hr, he⟩ := Option.bind_eq_some_iff.mp he
      obtain ⟨⟨q₂, xs, m⟩, hr', hr⟩ := Option.bind_eq_some_iff.mp hr
      simp only [Option.some.injEq, Prod.mk.injEq] at he hr
      obtain ⟨-, rfl, rfl⟩ := he
      obtain ⟨rfl, -⟩ := hr
      exact ⟨(hat hq).resetRead.read hr', rfl⟩
  | resetRead j =>
      obtain ⟨q, hq, he⟩ := Option.bind_eq_some_iff.mp he
      simp only [Option.some.injEq, Prod.mk.injEq] at he
      obtain ⟨-, rfl, rfl⟩ := he
      exact ⟨(hat hq).resetRead, rfl⟩
  | resetWrite j => cases ha
  | reset j => cases ha
  | shrink j => cases ha
  | split j off => cases ha
  | joinRef j t => cases ha

lemma streamed_of_run {Q : List Nbq} (h : (machine.guarded fun _ a => a.Streaming).Reachable Q) :
    ∀ q ∈ Q, Streamed q := by
  refine Machine.Reachable.invariant (P := fun Q => ∀ q ∈ Q, Streamed q) ?_ ?_ h
  · rintro Q ⟨bsizes, hlt, rfl⟩ q hq
    obtain ⟨n, hn, rfl⟩ := List.mem_map.mp hq
    exact ⟨⟨0, 0, wf_init (hlt n hn)⟩, packed_init n⟩
  · rintro Q a Q' hQ ⟨ha, he⟩ q hq
    obtain ⟨⟨i, q', made⟩, hres, rfl⟩ := Option.map_eq_some_iff.mp he
    obtain ⟨h₁, rfl⟩ := Act.result_streamed hQ ha hres
    rw [List.append_nil] at hq
    rcases List.mem_or_eq_of_mem_set hq with hq | rfl
    · exact hQ q hq
    · exact h₁

/-! ### Where the offset falls -/

/-- The search of `split` stops at the block that holds the offset. -/
lemma splitFind_spec :
    ∀ (l : List Nb) (i off : ℕ), off < (l.map Nb.written).sum →
      ∃ pre b post d, l = pre ++ b :: post ∧ splitFind l i off = (i + pre.length, d) ∧
        off = (pre.map Nb.written).sum + d ∧ d < b.written := by
  intro l
  induction l with
  | nil => intro i off h; simp at h
  | cons b l ih =>
      intro i off h
      rw [splitFind]
      split_ifs with hb
      · exact ⟨[], b, l, off, rfl, rfl, by simp, hb⟩
      · simp only [List.map_cons, List.sum_cons] at h
        obtain ⟨pre, c, post, d, rfl, hf, hoff, hd⟩ := ih (i + 1) (off - b.written) (by omega)
        refine ⟨b :: pre, c, post, d, rfl, ?_, ?_, hd⟩
        · rw [hf, List.length_cons]
          congr 1
          omega
        · simp only [List.map_cons, List.sum_cons]
          omega

/-- Blocks in front of a block that holds something are full. -/
lemma Packed.full_before (hp : Packed q) {r w : ℕ} (h : Wf q r w) {pre post : List Nb} {b : Nb}
    (hq : q.q = pre ++ b :: post) (hb : 0 < b.written) : ∀ c ∈ pre, c.written = q.bsize := by
  obtain ⟨w', hw'⟩ := hp.room (by simp [hq])
  have hget : q.q[pre.length]? = some b := by simp [hq]
  have hlt : pre.length ≤ w' := by
    have hat := h.writeAt
    rw [hw', Iter.at] at hat
    split_ifs at hat with hlt
    obtain rfl := Iter.block.inj hat
    by_contra hgt
    have := h.beyond _ b hget (by omega)
    omega
  intro c hc
  obtain ⟨i, hi, rfl⟩ := List.mem_iff_getElem.mp hc
  have hi' : q.q[i]? = some pre[i] := by
    rw [hq, List.getElem?_append_left hi]
    simp
  rw [hp.full w' hw' i _ hi' (by omega)]
  exact hp.size _ (List.mem_of_getElem? hi')

lemma Packed.sum_before (hp : Packed q) {r w : ℕ} (h : Wf q r w) {pre post : List Nb} {b : Nb}
    (hq : q.q = pre ++ b :: post) (hb : 0 < b.written) :
    (pre.map Nb.written).sum = pre.length * q.bsize := by
  have hmap : pre.map Nb.written = pre.map fun _ => q.bsize :=
    List.map_congr_left (hp.full_before h hq hb)
  simp [hmap]

/-- **The search stops in front of a block exactly at the multiples of the block size.** -/
lemma Streamed.splitFind (h : Streamed q) {off : ℕ} (hoff : off < q.contents.length) :
    ∃ pre b post d, q.q = pre ++ b :: post ∧ splitFind q.q 0 off = (pre.length, d) ∧
      off = (pre.map Nb.written).sum + d ∧ d < b.written ∧ (d = 0 ↔ q.bsize ∣ off) := by
  obtain ⟨⟨r, w, h⟩, hp⟩ := h
  rw [← h.offset_eq, h.offset] at hoff
  obtain ⟨pre, b, post, d, hq, hf, hoff, hd⟩ := splitFind_spec q.q 0 off hoff
  refine ⟨pre, b, post, d, hq, by rw [hf, Nat.zero_add], hoff, hd, ?_⟩
  have hsum := hp.sum_before h hq (by omega)
  have hbs : b.written ≤ q.bsize := by
    rw [← hp.size b (by simp [hq])]
    exact (h.ok b (by simp [hq])).written_le
  rw [hoff, hsum, Nat.dvd_add_right (Nat.dvd_mul_left _ _)]
  constructor
  · rintro rfl
    exact Nat.dvd_zero _
  · intro hdvd
    by_contra hne
    have := Nat.le_of_dvd (by omega) hdvd
    omega

/-! ### The law -/

/-- Reading the queue from its start yields `xs`. -/
def ReadsBack (q : Nbq) (xs : List UInt8) : Prop :=
  ∀ len, ∃ q' n, q.readFrom 0 len = some (q', xs.take len, n)

/-- Reading any queue whose writer and blocks are in order from its start yields its contents. -/
lemma Sound.readsBack (h : Sound q) : ReadsBack q q.contents := by
  intro len
  obtain ⟨w, hw⟩ := h.exists_writer
  obtain ⟨h₁, hc, hr, -⟩ := hw.resetRead h.accounted.offset h.accounted.noUnderflow
  have hu : q.resetRead.unread = q.contents := by
    have := h₁.consumed_append_unread
    rwa [hr, List.nil_append, hc] at this
  obtain ⟨q₁, r₁, he₁, h₂, hrd, -⟩ := h₁.read 0
  obtain ⟨q₂, r₂, he₂, -⟩ := h₂.read len
  have hu₁ : q₁.unread = q.contents := by
    have := hrd.unread h₁ h₂
    rw [List.take_zero, List.nil_append, hu] at this
    exact this.symm
  rw [hu₁] at he₂
  refine ⟨q₂, min len q.contents.length, ?_⟩
  simp [Nbq.readFrom, Nbq.readSeek, he₁, he₂]

lemma ReadsBack.alike {xs : List UInt8} (h : ReadsBack q xs) (ha : Alike q q') :
    ReadsBack q' xs := by
  intro len
  obtain ⟨q₁, n, he⟩ := h len
  obtain ⟨⟨q₂, k⟩, hs, he⟩ := Option.bind_eq_some_iff.mp he
  obtain ⟨⟨q₃, ys, m⟩, hr, hs⟩ := Option.bind_eq_some_iff.mp hs
  simp only [Option.some.injEq, Prod.mk.injEq] at hs
  obtain ⟨rfl, rfl⟩ := hs
  obtain ⟨q₃', hr', ha₃⟩ := ha.resetRead.read hr
  obtain ⟨q₁', he', -⟩ := ha₃.read he
  exact ⟨q₁', n, by simp [Nbq.readFrom, Nbq.readSeek, hr', he']⟩

lemma ReadsBack.unique {xs ys : List UInt8} (h : ReadsBack q xs) (h' : ReadsBack q ys) :
    xs = ys := by
  obtain ⟨q₁, n, he⟩ := h (xs.length + ys.length)
  obtain ⟨q₂, m, he'⟩ := h' (xs.length + ys.length)
  have heq := (Prod.mk.inj (Prod.mk.inj (Option.some.inj (he.symm.trans he'))).2).1
  rwa [List.take_of_length_le (by omega), List.take_of_length_le (by omega)] at heq

/-- The queue reads like one that is in order and holds `xs`. -/
def Readable (q : Nbq) (xs : List UInt8) : Prop := ∃ p, Sound p ∧ p.contents = xs ∧ Alike p q

lemma Sound.readable (h : Sound q) : Readable q q.contents :=
  ⟨q, h, rfl, q.curWriteOffset, q.underflow, q.maxReadQueue, rfl⟩

lemma Readable.readsBack {xs : List UInt8} (h : Readable q xs) : ReadsBack q xs := by
  obtain ⟨p, hp, rfl, ha⟩ := h
  exact hp.readsBack.alike ha

/-- **The law of `split`**: it succeeds, and every byte is in the half it belongs to. -/
def SplitLaw (q : Nbq) (off : ℕ) : Prop :=
  ∃ head tail, q.split off = some (0, head, some tail) ∧ ReadsBack head (q.contents.take off) ∧
    ReadsBack tail (q.contents.drop off)

/-- A buffer that fits into the block being written. -/
lemma Wf.write_fits {r w : ℕ} (h : Wf q r w) {b c : Nb} (hb : q.q[w]? = some b)
    (hc : q.q[r]? = some c) {buf : List UInt8} (hx : buf.length ≤ b.writeAvail)
    (h0 : 0 < buf.length) :
    ∃ q', q.write (some buf) = some (q', (buf.length : ℤ)) ∧
      q'.q = q.q.modify w (·.append buf) ∧ Appends q q' buf ∧ ∃ r' w', Wf q' r' w' := by
  obtain ⟨q₁, q', hs, hi, hq', ha, h'⟩ := h.bWriteChunk buf hb hc hx h0
  refine ⟨q', ?_, hq', ha, _, _, h'⟩
  obtain ⟨x, xs, rfl⟩ := List.exists_cons_of_length_pos h0
  have hroom : q.bWriteRoom = some (q, some b.writeAvail) := by
    have hne : b.writeAvail ≠ 0 := by omega
    simp [Nbq.bWriteRoom, bWriteAvail_block (h.writeAt_block hb) hb, hne]
  have hmin : min (x :: xs).length b.writeAvail = (x :: xs).length := Nat.min_eq_left hx
  have htake : (x :: xs).take (xs.length + 1) = x :: xs := List.take_of_length_le (by simp)
  have hdrop : (x :: xs).drop (xs.length + 1) = [] := List.drop_of_length_le (by simp)
  simp only [Nbq.write, Nbq.writeLoop, List.length_cons] at hmin hi ⊢
  simp only [hroom, hmin, htake, hdrop, hs, hi, Option.bind_eq_bind, Option.bind_some,
    Nbq.writeLoop, Nat.zero_add]

/-- The tail that `split` starts with: what is left of the block, in a block of its own. -/
lemma split_remainder {bsize : ℕ} (hbs : bsize < 2 ^ 32) (buf : List UInt8) (h0 : 0 < buf.length)
    (hx : buf.length ≤ bsize) :
    ∃ q₀ st tail, (init bsize).bWriteAddAvail = some (q₀, st) ∧
      q₀.write (some buf) = some (tail, (buf.length : ℤ)) ∧ (∀ b ∈ tail.q, b.Ok) ∧
      tail.contents = buf ∧ tail.curWriteOffset = (tail.q.map Nb.written).sum ∧
      tail.underflow = false ∧ tail.bsize = bsize := by
  obtain ⟨hp, ha⟩ := (wf_init hbs).pushBlock 0 0 (.block 0) (.block 0) rfl rfl (le_refl _)
    (Nat.zero_le _) (le_refl _) (by simp [init]) (by simp [init])
  have hroom : (Nb.alloc bsize).writeAvail = bsize := by simp [Nb.alloc, Nb.writeAvail, Nb.size]
  obtain ⟨tail, he, -, ha', r', w', h'⟩ := hp.write_fits (b := Nb.alloc bsize) (c := Nb.alloc bsize)
    rfl rfl (by rw [hroom]; exact hx) h0
  refine ⟨_, _, tail, bWriteAddAvail_nil rfl, he, h'.ok, ?_, h'.offset, h'.noUnderflow, ?_⟩
  · rw [ha'.contents, ha.contents]
    rfl
  · rw [ha'.bsize, ha.bsize]
    rfl

/-- The two halves of a queue of full blocks, where the offset falls inside block `b`. -/
lemma contents_split {l pre post : List Nb} {b : Nb} {d : ℕ} (hl : l = pre ++ b :: post)
    (hok : ∀ c ∈ l, c.Ok) (hd : d < b.written) :
    (l.flatMap Nb.bytes).take ((pre.map Nb.written).sum + d)
        = pre.flatMap Nb.bytes ++ b.bytes.take d ∧
      (l.flatMap Nb.bytes).drop ((pre.map Nb.written).sum + d)
        = b.bytes.drop d ++ post.flatMap Nb.bytes := by
  subst hl
  have hlen : (pre.flatMap Nb.bytes).length = (pre.map Nb.written).sum :=
    length_flatMap_of fun c hc => (hok c (by simp [hc])).length_bytes
  have hb : d ≤ b.bytes.length := by
    rw [(hok b (by simp)).length_bytes]
    omega
  rw [List.flatMap_append, List.flatMap_cons, ← hlen, List.take_length_add_append,
    List.drop_length_add_append, List.take_append_of_le_length hb,
    List.drop_append_of_le_length hb]
  exact ⟨rfl, rfl⟩

lemma contents_resetRead (q : Nbq) : q.resetRead.contents = q.contents := by
  simp only [contents, Nbq.resetRead, List.flatMap_map]
  rfl

/-- A half reads like what its blocks hold, whatever its write offset says. -/
lemma readable_half (hok : ∀ b ∈ q.q, b.Ok) (hbs : q.bsize < 2 ^ 32) (hq : q.q ≠ [])
    (hu : q.underflow = false) :
    Readable (Nbq.resetRead { q with curWriteBlock := .block (q.q.length - 1) }) q.contents := by
  have hs := sound_half (q := { q with curWriteOffset := (q.q.map Nb.written).sum }) hok hbs hq rfl
    rfl hu
  exact ⟨_, hs, contents_resetRead _, q.curWriteOffset, q.underflow, q.maxReadQueue, rfl⟩

/-- Off the boundaries `split` is right. -/
lemma Streamed.split_inside (h : Streamed q) {off : ℕ} {pre post : List Nb} {b : Nb} {d : ℕ}
    (hoff : off < q.contents.length) (hq : q.q = pre ++ b :: post)
    (hf : Nbq.splitFind q.q 0 off = (pre.length, d)) (hsum : off = (pre.map Nb.written).sum + d)
    (hd : d < b.written) (hpos : 0 < d) :
    ∃ head tail, q.split off = some (0, head, some tail) ∧ Readable head (q.contents.take off) ∧
      Readable tail (q.contents.drop off) := by
  obtain ⟨⟨r, w, h⟩, hp⟩ := h
  have hob := h.ok b (by simp [hq])
  have hbs : b.written ≤ q.bsize := by
    rw [← hp.size b (by simp [hq])]
    exact hob.written_le
  have hacc := h.offset
  have hoff' : off < q.curWriteOffset := by rw [h.offset_eq]; exact hoff
  -- the remainder of the block
  set rest := (b.data.drop d).take (b.written - d) with hrest
  have hrest' : rest = b.bytes.drop d := by rw [hrest, Nb.bytes, List.drop_take]
  have hlen : rest.length = b.written - d := by rw [hrest', List.length_drop, hob.length_bytes]
  obtain ⟨q₀, st, tail, hadd, hwr, htok, htc, hto, htu, htb⟩ :=
    split_remainder h.bsize_lt rest (by omega) (by omega)
  -- the blocks that move
  have hget : q.q[pre.length]? = some b := by simp [hq]
  have hblocks : q.q.modify pre.length (fun c => c.writeReset.writeInc d)
      = pre ++ b.writeReset.writeInc d :: post := by
    rw [hq, modify_append_cons]
  set b' := b.writeReset.writeInc d with hb'
  set head : Nbq :=
    { q with q := pre ++ [b'], curWriteOffset := q.curWriteOffset - (post.map Nb.written).sum }
    with hhead
  set tail' : Nbq :=
    { tail with
      q := tail.q ++ post.map Nb.readReset
      curWriteOffset := tail.curWriteOffset + (post.map Nb.written).sum } with htail'
  have hmove : splitMove { q with q := pre ++ [b'] } tail post = (head, tail') := by
    refine splitMove_eq post { q with q := pre ++ [b'] } tail ?_ h.noUnderflow
    simp only [hq, List.map_append, List.map_cons, List.sum_append, List.sum_cons] at hacc ⊢
    omega
  have htn : tail.q ≠ [] := by
    rintro h0
    rw [contents, h0] at htc
    rw [← htc] at hlen
    simp only [List.flatMap_nil, List.length_nil] at hlen
    omega
  have hsplit : q.split off = some (0,
      Nbq.resetRead { head with curWriteBlock := .block (head.q.length - 1) },
      some (Nbq.resetRead
        { tail' with
          curWriteBlock := .block (tail'.q.length - 1), curReadBlock := tail'.first })) := by
    have hh : head.last = some (.block (head.q.length - 1)) := if_neg (by simp [hhead])
    have ht : tail'.last = some (.block (tail'.q.length - 1)) := if_neg (by simp [htail', htn])
    have hfront : (pre ++ b' :: post).take (pre.length + 1) = pre ++ [b'] := by
      simp [List.take_append]
    have hback : (pre ++ b' :: post).drop (pre.length + 1) = post := by simp
    have hlen' : ¬ (pre ++ b' :: post).length ≤ pre.length := by simp
    unfold Nbq.split
    rw [if_neg (by omega), if_neg (by omega), hf]
    simp only [if_pos hpos, hget, hadd, ← hrest, hwr, Option.bind_eq_bind, Option.bind_some, update,
      if_pos (lt_of_getElem? hget), hblocks, hlen', if_false, hfront, hback, hmove, ht, hh]
    rfl
  obtain ⟨htake, hdrop⟩ := contents_split hq h.ok hd
  rw [← hsum] at htake hdrop
  have hb'ok : b'.Ok := by
    refine ⟨Nat.zero_le _, ?_, hob.size_lt⟩
    have := hob.written_le
    simp only [hb', Nb.writeReset, Nb.writeInc, Nb.size] at this ⊢
    omega
  refine ⟨_, _, hsplit, ?_, ?_⟩
  · have hc : head.contents = q.contents.take off := by
      have hbytes : b'.bytes = b.bytes.take d := by
        simp only [hb', Nb.bytes, Nb.writeReset, Nb.writeInc, Nat.zero_add, List.take_take]
        rw [Nat.min_eq_left (by omega)]
      rw [contents, contents, htake, hhead]
      simp [hbytes]
    rw [← hc]
    refine readable_half ?_ h.bsize_lt (by simp [hhead]) h.noUnderflow
    intro c hc
    rcases List.mem_append.mp hc with hc | hc
    · exact h.ok c (by simp [hq, hc])
    · rw [List.mem_singleton.mp hc]
      exact hb'ok
  · have hc : tail'.contents = q.contents.drop off := by
      have hpost : (post.map Nb.readReset).flatMap Nb.bytes = post.flatMap Nb.bytes := by
        rw [List.flatMap_map]
        rfl
      rw [contents, contents, hdrop, htail', ← hrest', ← htc, contents]
      simp only [List.flatMap_append, hpost]
    rw [← hc]
    refine readable_half (q := { tail' with curReadBlock := tail'.first }) ?_
      (by simpa [htail', htb] using h.bsize_lt) (by simp [htail', htn]) htu
    intro c hc
    rcases List.mem_append.mp hc with hc | hc
    · exact htok c hc
    · obtain ⟨c', hc', rfl⟩ := List.mem_map.mp hc
      exact (h.ok c' (by simp [hq, hc'])).readReset

/-- On a boundary the block that starts there stays with the head, and the tail has only those
behind it. -/
lemma Streamed.split_boundary (h : Streamed q) {off : ℕ} {pre post : List Nb} {b : Nb}
    (h0 : 0 < off) (hoff : off < q.contents.length) (hq : q.q = pre ++ b :: post)
    (hf : Nbq.splitFind q.q 0 off = (pre.length, 0)) :
    (post = [] → q.split off = none) ∧ (post ≠ [] → ∃ head tail,
      q.split off = some (0, head, some tail) ∧ Readable head ((pre ++ [b]).flatMap Nb.bytes) ∧
        Readable tail (post.flatMap Nb.bytes)) := by
  have hsound : Sound q := .inl h.1
  obtain ⟨⟨r, w, h⟩, -⟩ := h
  have hacc := h.offset
  have hoff' : off < q.curWriteOffset := by rw [h.offset_eq]; exact hoff
  have hfront : q.q.take (pre.length + 1) = pre ++ [b] := by simp [hq, List.take_append]
  have hback : q.q.drop (pre.length + 1) = post := by simp [hq]
  have hlen : ¬ q.q.length ≤ pre.length := by simp [hq]
  have hmove := splitMove_eq post { q with q := pre ++ [b] } (init q.bsize)
    (by
      simp only [hq, List.map_append, List.map_cons, List.sum_append, List.sum_cons] at hacc ⊢
      omega) h.noUnderflow
  set head : Nbq :=
    { q with q := pre ++ [b], curWriteOffset := q.curWriteOffset - (post.map Nb.written).sum }
    with hhead
  set tail : Nbq :=
    { init q.bsize with
      q := [] ++ post.map Nb.readReset
      curWriteOffset := 0 + (post.map Nb.written).sum } with htail
  have hsplit : q.split off = tail.last.bind fun tw => head.last.bind fun qw =>
      some (0, Nbq.resetRead { head with curWriteBlock := qw },
        some (Nbq.resetRead { tail with curWriteBlock := tw, curReadBlock := tail.first })) := by
    unfold Nbq.split
    rw [if_neg (by omega), if_neg (by omega), hf]
    simp only [Nat.lt_irrefl, if_false, Option.bind_eq_bind, Option.bind_some, hlen, hfront, hback]
    rw [hmove]
    rfl
  have hh : head.last = some (.block (head.q.length - 1)) := if_neg (by simp [hhead])
  constructor
  · rintro rfl
    rw [hsplit, Nbq.last, if_pos (by simp [htail]), Option.bind_none]
  · intro hpost
    have ht : tail.last = some (.block (tail.q.length - 1)) := if_neg (by simp [htail, hpost])
    rw [ht, hh, Option.bind_some, Option.bind_some] at hsplit
    obtain ⟨hsh, hst⟩ := hsound.split (Or.inr (Or.inr (by rw [hf]))) hsplit
    have hth := hsh.readable
    have htt := (hst _ rfl).readable
    rw [contents_resetRead] at hth htt
    have hpost' : (post.map Nb.readReset).flatMap Nb.bytes = post.flatMap Nb.bytes := by
      rw [List.flatMap_map]
      rfl
    refine ⟨_, _, hsplit, hth, ?_⟩
    rw [← hpost']
    exact htt

/-- What is behind a block that starts at a boundary starts at the next one. -/
lemma Streamed.drop_boundary (h : Streamed q) {pre post : List Nb} {b : Nb}
    (hq : q.q = pre ++ b :: post) :
    q.contents.drop ((pre.map Nb.written).sum + q.bsize) = post.flatMap Nb.bytes ∧
      (post.flatMap Nb.bytes ≠ [] → (pre ++ [b]).flatMap Nb.bytes =
        q.contents.take ((pre.map Nb.written).sum + q.bsize)) := by
  obtain ⟨⟨r, w, h⟩, hp⟩ := h
  have hall : ∀ c ∈ pre ++ [b], c.Ok := fun c hc => h.ok c (by
    rw [hq]
    rcases List.mem_append.mp hc with hc | hc
    · simp [hc]
    · simp [List.mem_singleton.mp hc])
  have hsplit : q.contents = (pre ++ [b]).flatMap Nb.bytes ++ post.flatMap Nb.bytes := by
    rw [contents, hq, ← List.flatMap_append, List.append_assoc, List.singleton_append]
  have hlen : ((pre ++ [b]).flatMap Nb.bytes).length = (pre.map Nb.written).sum + b.written := by
    rw [length_flatMap_of fun c hc => (hall c hc).length_bytes]
    simp
  by_cases hpost : post.flatMap Nb.bytes = []
  · refine ⟨?_, fun hne => absurd hpost hne⟩
    have hbs : b.written ≤ q.bsize := by
      rw [← hp.size b (by simp [hq])]
      exact (hall b (by simp)).written_le
    rw [hsplit, hpost, List.append_nil, List.drop_eq_nil_iff]
    omega
  · -- some block behind holds something, so this one is full
    obtain ⟨c, hc, hcne⟩ : ∃ c ∈ post, c.bytes ≠ [] := by
      simpa [List.flatMap_eq_nil_iff] using hpost
    obtain ⟨mid, rest, rfl⟩ := List.append_of_mem hc
    have hpos : 0 < c.written := by
      by_contra hz
      exact hcne (Nb.bytes_of_written_zero (by omega))
    have hq' : q.q = (pre ++ b :: mid) ++ c :: rest := by rw [hq]; simp
    have hfull : b.written = q.bsize := hp.full_before h hq' hpos b (by simp)
    rw [hfull] at hlen
    rw [hsplit, ← hlen, List.drop_left, List.take_left]
    exact ⟨rfl, fun _ => rfl⟩

/-- **`split` is right exactly off the block boundaries.**  For every queue built by writes and
reads and every offset inside what it holds. -/
theorem splitLaw_iff {Q : List Nbq} (h : (machine.guarded fun _ a => a.Streaming).Reachable Q)
    {q : Nbq} (hq : q ∈ Q) {off : ℕ} (h0 : 0 < off) (hoff : off < q.contents.length) :
    SplitLaw q off ↔ ¬ q.bsize ∣ off := by
  have hst := streamed_of_run h q hq
  obtain ⟨pre, b, post, d, hb, hf, hsum, hd, hdvd⟩ := hst.splitFind hoff
  rw [← hdvd]
  constructor
  · rintro ⟨head, tail, he, hr, -⟩ rfl
    obtain ⟨hnone, hsome⟩ := hst.split_boundary h0 hoff hb hf
    have hpost : post ≠ [] := by
      intro hpost
      rw [hnone hpost] at he
      cases he
    obtain ⟨head', tail', he', hh, -⟩ := hsome hpost
    obtain rfl := (Prod.mk.inj (Prod.mk.inj (Option.some.inj (he.symm.trans he'))).2).1
    have hlen := congrArg List.length (hr.unique hh.readsBack)
    obtain ⟨r, w, hwf⟩ := hst.1
    rw [List.length_take, Nat.min_eq_left (by omega),
      length_flatMap_of fun c hc => (hwf.ok c ?_).length_bytes] at hlen
    · simp only [List.map_append, List.map_singleton, List.sum_append, List.sum_singleton] at hlen
      omega
    · rw [hb]
      rcases List.mem_append.mp hc with hc | hc
      · simp [hc]
      · simp [List.mem_singleton.mp hc]
  · intro hne
    obtain ⟨head, tail, he, hh, ht⟩ := hst.split_inside hoff hb hf hsum hd (by omega)
    exact ⟨head, tail, he, hh.readsBack, ht.readsBack⟩

/-- Five bytes in blocks of two, partly read and split inside the second block. -/
theorem splitLaw_iff_inside : ∃ Q : List Nbq,
    (machine.guarded fun _ a => a.Streaming).Reachable Q ∧ ∃ q ∈ Q, SplitLaw q 3 := by
  have hrun : (([.write 0 (some [1, 2, 3, 4, 5]), .read 0 1] : List Act).foldlM
      (fun Q a => if Act.Streaming a then Act.run Q a else none) [init 2]).map
        (List.map fun q => (q.contents.length, q.bsize)) = some [(5, 2)] := by
    decide
  obtain ⟨Q, hQ, hobs⟩ := Option.map_eq_some_iff.mp hrun
  have h : (machine.guarded fun _ a => a.Streaming).Reachable Q :=
    .guarded_foldlM (fun _ _ _ he => he) ⟨[2], by decide, rfl⟩ hQ
  obtain ⟨q, rest, rfl, hq, -⟩ := List.map_eq_cons_iff.mp hobs
  obtain ⟨hlen, hbs⟩ := Prod.mk.inj hq
  refine ⟨_, h, q, by simp, (splitLaw_iff h (by simp) (by decide) (by omega)).mpr ?_⟩
  rw [hbs]
  decide

/-- The same queue split between the first two blocks: the head keeps the second one. -/
theorem split_at_boundary_keeps_block :
    ¬ ∀ Q : List Nbq, (machine.guarded fun _ a => a.Streaming).Reachable Q → ∀ q ∈ Q, ∀ off,
      0 < off → off < q.contents.length → SplitLaw q off := by
  intro hall
  have hrun : (([.write 0 (some [1, 2, 3, 4, 5]), .read 0 1] : List Act).foldlM
      (fun Q a => if Act.Streaming a then Act.run Q a else none) [init 2]).map
        (List.map fun q => (q.contents, ((q.split 2).bind fun r => r.2.1.readFrom 0 5).map
          fun r => r.2.1)) = some [([1, 2, 3, 4, 5], some [1, 2, 3, 4])] := by
    decide
  obtain ⟨Q, hQ, hobs⟩ := Option.map_eq_some_iff.mp hrun
  have h : (machine.guarded fun _ a => a.Streaming).Reachable Q :=
    .guarded_foldlM (fun _ _ _ he => he) ⟨[2], by decide, rfl⟩ hQ
  obtain ⟨q, rest, rfl, hq, -⟩ := List.map_eq_cons_iff.mp hobs
  obtain ⟨hc, hread⟩ := Prod.mk.inj hq
  obtain ⟨head, tail, he, hr, -⟩ := hall _ h q (by simp) 2 (by decide) (by simp [hc])
  obtain ⟨q', n, hr⟩ := hr 5
  simp [he, hr, hc] at hread

end Nbq

end Is2
