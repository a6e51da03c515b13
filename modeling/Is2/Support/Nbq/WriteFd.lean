import Is2.Nconn.Transfer

/-!
# `nbq::write_fd`

A file is read into the queue, one block at a time, until as many bytes are there as are asked for,
or there is nothing more to read.

What `::read` answers is a parameter: the list of its results, one for each call.  The bytes that
are in the results are in the queue afterwards, whatever the status is: `Rep.writeFd`.
-/

namespace Is2

/-- What `::read` answers: some bytes, the end of the file, `EAGAIN`, or another error. -/
inductive ReadRes where
  | data (xs : List UInt8)
  | eof
  | again
  | error
deriving DecidableEq, Repr

namespace ReadRes

/-- The bytes of a result. -/
def bytes : ReadRes → List UInt8
  | data xs => xs
  | _ => []

/-- The bytes of all results. -/
def taken (rs : List ReadRes) : List UInt8 := rs.flatMap bytes

/-- What can be answered when `n` bytes are asked for. -/
def Answers (n : ℕ) (r : ReadRes) : Prop := r ≠ data [] ∧ r.bytes.length ≤ n

/-- Some bytes. -/
def IsData (r : ReadRes) : Prop := ∃ xs, xs ≠ [] ∧ r = data xs

lemma taken_cons (r : ReadRes) (rs : List ReadRes) : taken (r :: rs) = r.bytes ++ taken rs := rfl

end ReadRes

namespace Nbq

/-- The loop of `nbq::write_fd`, and the results that are left.  A block of no bytes, or of more
than were asked for, is no result. -/
def writeFdLoop : List ReadRes → Nbq → ℕ → ℕ → Option (Nbq × ℤ × List ReadRes)
  | rs, q, 0, written => some (q, (written : ℤ), rs)
  | [], q, _ + 1, _ => do
      match ← q.bWriteRoom with
      | (q, none) => some (q, -1, [])
      | (_, some _) => none
  | r :: rs, q, left + 1, written => do
      match ← q.bWriteRoom with
      | (q, none) => some (q, -1, r :: rs)
      | (q, some avail) =>
          match r with
          | .data xs =>
              if xs = [] ∨ min (left + 1) avail < xs.length then none
              else do
                let q ← q.bWriteStore xs
                let q ← q.bWriteIncr xs.length
                let q ← q.bReadIncr 0
                writeFdLoop rs q (left + 1 - xs.length) (written + xs.length)
          | .eof => some (q, (written : ℤ), rs)
          | .again => some (q, (written : ℤ), rs)
          | .error => some (q, -1, rs)

/-- `nbq::write_fd`: the queue, what it returns, and the results that are left. -/
def writeFd (q : Nbq) (len : ℕ) (rs : List ReadRes) : Option (Nbq × ℤ × List ReadRes) :=
  if len = 0 then some (q, 0, rs) else q.writeFdLoop rs len 0

end Nbq

namespace ReadRes

/-- **How a call ends** that has to read `left` bytes, and what it adds to the number of bytes: with
all the bytes, at the end of the file, with `EAGAIN`, or with an error, where it adds nothing. -/
inductive CallEnds (left : ℕ) : List ReadRes → Option ℕ → Prop where
  | full {ds : List ReadRes} (hds : ∀ r ∈ ds, r.IsData) (hlen : (taken ds).length = left) :
      CallEnds left ds (some (taken ds).length)
  | eof {ds : List ReadRes} (hds : ∀ r ∈ ds, r.IsData) (hlen : (taken ds).length < left) :
      CallEnds left (ds ++ [.eof]) (some (taken ds).length)
  | again {ds : List ReadRes} (hds : ∀ r ∈ ds, r.IsData) (hlen : (taken ds).length < left) :
      CallEnds left (ds ++ [.again]) (some (taken ds).length)
  | error {ds : List ReadRes} (hds : ∀ r ∈ ds, r.IsData) (hlen : (taken ds).length < left) :
      CallEnds left (ds ++ [.error]) none

lemma taken_concat (ds : List ReadRes) {r : ReadRes} (hr : r.bytes = []) :
    taken (ds ++ [r]) = taken ds := by
  simp [taken, hr]

/-- A block in front of the other results. -/
lemma CallEnds.cons {left : ℕ} {rs : List ReadRes} {n : Option ℕ} {xs : List UInt8}
    (hne : xs ≠ []) (hx : xs.length ≤ left) (h : CallEnds (left - xs.length) rs n) :
    CallEnds left (.data xs :: rs) (n.map (xs.length + ·)) := by
  have hall : ∀ {ds : List ReadRes}, (∀ r ∈ ds, r.IsData) →
      ∀ r ∈ ReadRes.data xs :: ds, r.IsData := by
    intro ds hds
    exact List.forall_mem_cons.mpr ⟨⟨xs, hne, rfl⟩, hds⟩
  have hsum : ∀ ds : List ReadRes, (taken (.data xs :: ds)).length =
      xs.length + (taken ds).length := by
    intro ds
    rw [taken_cons, List.length_append]
    rfl
  cases h with
  | full hds hlen =>
      rw [Option.map_some, ← hsum]
      exact .full (hall hds) (by rw [hsum]; omega)
  | eof hds hlen =>
      rw [Option.map_some, ← hsum, ← List.cons_append]
      exact .eof (hall hds) (by rw [hsum]; omega)
  | again hds hlen =>
      rw [Option.map_some, ← hsum, ← List.cons_append]
      exact .again (hall hds) (by rw [hsum]; omega)
  | error hds hlen =>
      rw [Option.map_none, ← List.cons_append]
      exact .error (hall hds) (by rw [hsum]; omega)

end ReadRes

namespace Nbq

open ReadRes

variable {q : Nbq} {a : SeekQueue UInt8}

/-- Nothing is read, but the reader may go on to the next block. -/
lemma Rep.bReadIncr_zero (h : Rep q a) (hne : q.q ≠ []) :
    ∃ q', q.bReadIncr 0 = some q' ∧ Rep q' a := by
  obtain ⟨r, w, hwf, hf, hc, hr⟩ := h
  have hlt : r < q.q.length := lt_of_le_of_lt hwf.read_le_write (hf.room hne)
  obtain ⟨b, hb⟩ : ∃ b, q.q[r]? = some b := ⟨_, List.getElem?_eq_getElem hlt⟩
  obtain ⟨q', r', he, hwf', hrd, -, rfl⟩ := hwf.bReadIncr hb (Nat.zero_le _)
  refine ⟨q', he, _, w, hwf', hf.bReadIncr hwf hb (Nat.zero_le _) he, ?_, ?_⟩
  · rw [hrd.contents, hc]
  · rw [hrd.consumed, hr, List.take_zero, List.append_nil]

/-- A block that was read is put behind all others. -/
lemma Rep.chunk (h : Rep q a) {q₁ : Nbq} {avail : ℕ} (hroom : q.bWriteRoom = some (q₁, some avail))
    {xs : List UInt8} (hx : xs ≠ []) (hfits : xs.length ≤ avail) :
    ∃ q₂ q₃ q₄, q₁.bWriteStore xs = some q₂ ∧ q₂.bWriteIncr xs.length = some q₃ ∧
      q₃.bReadIncr 0 = some q₄ ∧ Rep q₄ (a.append xs) := by
  obtain ⟨q', n, r, w, b, hroom', hrep, hwf, hf, hb, hn, -⟩ := h.bWriteRoom
  rw [hroom'] at hroom
  obtain ⟨rfl, hav⟩ := Prod.mk.inj (Option.some.inj hroom)
  obtain rfl := Option.some.inj hav
  obtain ⟨q₂, q₃, r₃, w₃, hstore, hincr, hwf₃, hf₃, ha₃⟩ := hf.bWriteChunk hwf xs hb (by omega)
    (List.length_pos_iff.mpr hx)
  obtain ⟨r', w', -, -, hc, hr⟩ := hrep
  have hrep₃ : Rep q₃ (a.append xs) := by
    refine ⟨r₃, w₃, hwf₃, hf₃, ?_, ?_⟩
    · rw [ha₃.contents, hc]
      rfl
    · rw [ha₃.consumed, hr, a.consumed_append]
  have hne : q₃.q ≠ [] := by
    intro hnil
    have hcont := hrep₃
    obtain ⟨-, -, -, -, hcont, -⟩ := hcont
    rw [contents, hnil] at hcont
    exact hx (List.append_eq_nil_iff.mp hcont.symm).2
  obtain ⟨q₄, hread, hrep₄⟩ := hrep₃.bReadIncr_zero hne
  exact ⟨q₂, q₃, q₄, hstore, hincr, hread, hrep₄⟩

/-- **The bytes of the results are put into the queue.** -/
lemma Rep.writeFdLoop {rs : List ReadRes} :
    ∀ {q : Nbq} {a : SeekQueue UInt8} {left written : ℕ} {q' : Nbq} {st : ℤ}, Rep q a →
      Nbq.writeFdLoop rs q left written = some (q', st, []) →
      Rep q' (a.append (taken rs)) ∧
        ∃ n, CallEnds left rs n ∧ st = n.elim (-1) fun n => ((written + n : ℕ) : ℤ) := by
  induction rs with
  | nil =>
      intro q a left written q' st h he
      cases left with
      | zero =>
          rw [Nbq.writeFdLoop] at he
          obtain ⟨rfl, hst⟩ := Prod.mk.inj (Option.some.inj he)
          obtain ⟨rfl, -⟩ := Prod.mk.inj hst
          refine ⟨?_, _, .full (by simp) rfl, rfl⟩
          rw [taken, List.flatMap_nil, a.append_nil]
          exact h
      | succ left =>
          obtain ⟨q₁, n, -, -, -, hroom, -⟩ := h.bWriteRoom
          simp [Nbq.writeFdLoop, hroom] at he
  | cons r rs ih =>
      intro q a left written q' st h he
      cases left with
      | zero => simp [Nbq.writeFdLoop] at he
      | succ left =>
          obtain ⟨q₁, avail, -, -, -, hroom, hrep₁, -⟩ := h.bWriteRoom
          simp only [Nbq.writeFdLoop, hroom, Option.bind_eq_bind, Option.bind_some] at he
          -- the other results end the loop, and nothing is put into the queue
          have hends : ∀ {st₁ : ℤ}, some (q₁, st₁, rs) = some (q', st, []) → r.bytes = [] →
              rs = [] ∧ st₁ = st ∧ Rep q' (a.append (taken (r :: rs))) := by
            intro st₁ heq hr
            cases heq
            refine ⟨rfl, rfl, ?_⟩
            rw [taken_cons, hr, taken, List.flatMap_nil, List.append_nil, a.append_nil]
            exact hrep₁
          cases r with
          | data xs =>
              dsimp only at he
              split_ifs at he with hbad
              obtain ⟨hx, hfits⟩ := not_or.mp hbad
              rw [not_lt, le_min_iff] at hfits
              obtain ⟨q₂, q₃, q₄, hstore, hincr, hread, hrep₄⟩ := h.chunk hroom hx hfits.2
              simp only [hstore, hincr, hread, Option.bind_some] at he
              obtain ⟨hrep, n, hn, hst⟩ := ih hrep₄ he
              refine ⟨?_, _, CallEnds.cons hx hfits.1 hn, ?_⟩
              · rw [taken_cons, ← a.append_append]
                exact hrep
              · cases n with
                | none => exact hst
                | some n =>
                    rw [hst, Option.map_some, Option.elim_some, Option.elim_some, Nat.add_assoc]
          | eof =>
              obtain ⟨rfl, rfl, hrep⟩ := hends he rfl
              exact ⟨hrep, _, CallEnds.eof (List.forall_mem_nil IsData) (Nat.succ_pos _), rfl⟩
          | again =>
              obtain ⟨rfl, rfl, hrep⟩ := hends he rfl
              exact ⟨hrep, _, CallEnds.again (List.forall_mem_nil IsData) (Nat.succ_pos _), rfl⟩
          | error =>
              obtain ⟨rfl, rfl, hrep⟩ := hends he rfl
              exact ⟨hrep, _, CallEnds.error (List.forall_mem_nil IsData) (Nat.succ_pos _), rfl⟩

/-- What `write_fd` returns is the number of bytes, or an error. -/
lemma Rep.writeFd (h : Rep q a) {len : ℕ} {rs : List ReadRes} {q' : Nbq} {st : ℤ}
    (he : q.writeFd len rs = some (q', st, [])) :
    Rep q' (a.append (taken rs)) ∧
      ∃ n, CallEnds len rs n ∧ st = n.elim (-1) fun n => (n : ℤ) := by
  unfold Nbq.writeFd at he
  split_ifs at he with hlen
  · cases he
    subst hlen
    refine ⟨?_, _, .full (by simp) rfl, rfl⟩
    rw [taken, List.flatMap_nil, a.append_nil]
    exact h
  · simpa using h.writeFdLoop he

/-- Whatever `::read` answers, the loop goes on to its end. -/
lemma Rep.exists_writeFdLoop {answer : ℕ → ℕ → ReadRes}
    (hanswer : ∀ i n, 0 < n → (answer i n).Answers n) (left : ℕ) :
    ∀ {q : Nbq} {a : SeekQueue UInt8} (i written : ℕ), Rep q a →
      ∃ rs q' st, Nbq.writeFdLoop rs q left written = some (q', st, []) ∧
        ∀ j r, rs[j]? = some r → ∃ n, r = answer (i + j) n := by
  induction left using Nat.strong_induction_on with
  | _ left ih =>
      intro q a i written h
      cases left with
      | zero => exact ⟨[], q, written, rfl, by simp⟩
      | succ left =>
          obtain ⟨q₁, avail, -, -, -, hroom, -, -, -, -, -, hpos⟩ := h.bWriteRoom
          obtain ⟨hne, hlen⟩ := hanswer i (min (left + 1) avail) (by omega)
          have hfirst : ∀ {rs : List ReadRes},
              (∀ j r, rs[j]? = some r → ∃ n, r = answer (i + 1 + j) n) →
              ∀ j r, (answer i (min (left + 1) avail) :: rs)[j]? = some r →
                ∃ n, r = answer (i + j) n := by
            intro rs hrs j r hj
            cases j with
            | zero => exact ⟨_, (Option.some.inj hj).symm⟩
            | succ j =>
                obtain ⟨n, rfl⟩ := hrs j r hj
                exact ⟨n, by rw [Nat.add_assoc, Nat.add_comm 1 j]⟩
          have hlast := @hfirst [] (by simp)
          cases hr : answer i (min (left + 1) avail) with
          | data xs =>
              rw [hr] at hne hlen
              have hx : xs ≠ [] := fun hnil => hne (by rw [hnil])
              have hpos := List.length_pos_iff.mpr hx
              change xs.length ≤ _ at hlen
              obtain ⟨q₂, q₃, q₄, hstore, hincr, hread, hrep₄⟩ := h.chunk hroom hx (by omega)
              obtain ⟨rs, q', st, hrest, hrs⟩ := ih (left + 1 - xs.length) (by omega) (i + 1)
                (written + xs.length) hrep₄
              refine ⟨.data xs :: rs, q', st, ?_, hr ▸ hfirst hrs⟩
              have hok : ¬ (xs = [] ∨ min (left + 1) avail < xs.length) := by
                rw [not_or]
                exact ⟨hx, by omega⟩
              simp only [Nbq.writeFdLoop, hroom, Option.bind_eq_bind, Option.bind_some,
                if_neg hok, hstore, hincr, hread, hrest]
          | eof => exact ⟨[.eof], q₁, written, by simp [Nbq.writeFdLoop, hroom], hr ▸ hlast⟩
          | again => exact ⟨[.again], q₁, written, by simp [Nbq.writeFdLoop, hroom], hr ▸ hlast⟩
          | error => exact ⟨[.error], q₁, -1, by simp [Nbq.writeFdLoop, hroom], hr ▸ hlast⟩

end Nbq

end Is2
