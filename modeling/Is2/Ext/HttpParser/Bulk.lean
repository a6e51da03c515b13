import Is2.Ext.HttpParser.Shapes

/-!
# The loops inside the `switch`

The cases of a header name, a header value and a body go through as many bytes as they can, with
loops of their own.  What they come to is what the turns on the single bytes come to, one after the
other (`turn_split`), as long as no error occurs.

The inner loop of a value stops after 80 KiB and then passes over a byte without a look at it.  By
then the header is too long, and the parser stops with an error for that.
-/

namespace Is2

namespace Http

open Stretches

/-! ## Counting -/

section Counting

variable {P : Parser} {v n : ℕ} {k : Parser → Turn}

lemma counted_of_le (h : P.nread + v ≤ maxHeaderSize) :
    counted P v n k = k { P with nread := P.nread + v } := by
  rw [counted, Nat.mod_eq_of_lt (by rw [maxHeaderSize] at h; omega)]
  rw [if_neg (by dsimp only; omega)]

lemma counted_of_lt (h : maxHeaderSize < P.nread + v) (hv : P.nread + v < 2 ^ 32) :
    counted P v n k =
      .ret n { P with nread := P.nread + v, httpErrno := .headerOverflow } [] := by
  rw [counted, Nat.mod_eq_of_lt hv]
  rw [if_pos (by dsimp only; omega)]

end Counting

/-! ## Turns that come to the same -/

/-- The same for all marks and at every place. -/
def SameOps (ops ops' : List Op) : Prop :=
  ∀ M p, run M (ops.map (Act.shift p)) = run M (ops'.map (Act.shift p))

/-- Turns that cannot be told apart by the loop. -/
def Turn.Same : Turn → Turn → Prop
  | .next n P ops, .next m Q ops' => n = m ∧ P = Q ∧ SameOps ops ops'
  | .ret n P ops, .ret m Q ops' => n = m ∧ P = Q ∧ SameOps ops ops'
  | .abort, .abort => True
  | _, _ => False

/-- A turn without an error. -/
def Turn.Good : Turn → Prop
  | .next _ _ _ => True
  | .ret _ P _ => P.httpErrno = .ok
  | .abort => False

lemma Turn.Same.refl (t : Turn) : t.Same t := by
  cases t <;> first | trivial | exact ⟨rfl, rfl, fun _ _ => rfl⟩

lemma Turn.Same.good {t t' : Turn} (h : t.Same t') : t.Good ↔ t'.Good := by
  cases t <;> cases t' <;> first | exact h.elim | exact Iff.rfl | (obtain ⟨-, rfl, -⟩ := h; rfl)

/-- A turn that counts too much is no good one. -/
lemma Turn.Good.le {P : Parser} {v n : ℕ} {k : Parser → Turn} (h : (counted P v n k).Good)
    (hv : P.nread + v < 2 ^ 32) : P.nread + v ≤ maxHeaderSize := by
  by_contra hlt
  rw [counted_of_lt (by omega) hv] at h
  simp [Turn.Good] at h

/-! ## Names -/

section Names

variable {P P' : Parser} {ch : UInt8} {q : Bytes} {n v : ℕ}

/-- The count is passed through. -/
lemma fieldStep_nread (v : ℕ) :
    fieldStep { P with nread := v } ch =
      (fieldStep P ch).map fun P => { P with nread := v } := by
  rw [fieldStep, fieldStep]
  dsimp only
  split
  case isTrue => rfl
  case isFalse =>
      cases h : P.headerState <;> simp [fieldChar, h]

/-- What the inner loop passes over. -/
lemma skipped_tokens (q : Bytes) :
    ∀ c ∈ q.take ((q.take (maxHeaderSize - 1)).takeWhile (token · ≠ 0)).length, token c ≠ 0 := by
  intro c hc
  have hpre : q.take ((q.take (maxHeaderSize - 1)).takeWhile (token · ≠ 0)).length =
      (q.take (maxHeaderSize - 1)).takeWhile (token · ≠ 0) :=
    (List.prefix_iff_eq_take.mp ((List.takeWhile_prefix _).trans (List.take_prefix _ _))).symm
  rw [hpre] at hc
  simpa using List.mem_takeWhile_imp hc

/-- In `h_general` the inner loop passes over bytes the outer loop would pass over. -/
lemma fieldLoop_skip (hg : P.headerState = .general) :
    ∀ (q : Bytes) (k n : ℕ), (∀ c ∈ q.take k, token c ≠ 0) →
      fieldLoop P k n q = fieldLoop P 0 n q := by
  intro q
  induction q with
  | nil =>
      intro k n _
      cases k <;> rfl
  | cons c q ih =>
      intro k n hk
      cases k with
      | zero => rfl
      | succ k =>
          rw [List.take_succ_cons] at hk
          have hc := hk c List.mem_cons_self
          rw [fieldLoop, fieldLoop, if_neg hc, if_pos hg,
            ih k (n + 1) fun c' hc' => hk c' (List.mem_cons_of_mem _ hc'),
            ih _ (n + 1) (skipped_tokens q)]

/-- One byte of a name, and then the others. -/
lemma fieldLoop_cons (hc : token ch ≠ 0) :
    fieldLoop P 0 n (ch :: q) = (fieldStep P ch).bind fun P => fieldLoop P 0 (n + 1) q := by
  rw [fieldLoop, if_neg hc, fieldStep]
  split
  case isTrue hg =>
      rw [Option.bind_some]
      exact fieldLoop_skip hg q _ _ (skipped_tokens q)
  case isFalse => cases fieldChar P ch <;> rfl

lemma fieldLoop_stop (hc : token ch = 0) : fieldLoop P 0 n (ch :: q) = some (P, n, some ch) := by
  rw [fieldLoop, if_pos hc]

/-- The loop over a name: what it does is independent of the count, and of where it starts. -/
lemma fieldLoop_shift (v m : ℕ) :
    fieldLoop { P with nread := v } 0 (n + m) q =
      (fieldLoop P 0 n q).map fun r => ({ r.1 with nread := v }, r.2.1 + m, r.2.2) := by
  induction q generalizing P n with
  | nil => rfl
  | cons c q ih =>
      by_cases hc : token c = 0
      · rw [fieldLoop_stop hc, fieldLoop_stop hc]
        rfl
      · rw [fieldLoop_cons hc, fieldLoop_cons hc, fieldStep_nread]
        cases fieldStep P c with
        | none => rfl
        | some R =>
            simp only [Option.map_some, Option.bind_some]
            rw [show n + m + 1 = n + 1 + m by omega]
            exact ih

/-- How far the loop goes, and what it leaves as it is. -/
lemma fieldLoop_count {F : Parser} {m : ℕ} {t : Option UInt8}
    (h : fieldLoop P 0 n q = some (F, m, t)) :
    F.nread = P.nread ∧ n ≤ m ∧ m ≤ n + q.length ∧ (t = none → m = n + q.length) := by
  induction q generalizing P n with
  | nil =>
      obtain ⟨rfl, rfl, rfl⟩ : P = F ∧ n = m ∧ none = t := by simpa [fieldLoop] using h
      simp
  | cons c q ih =>
      by_cases hc : token c = 0
      · rw [fieldLoop_stop hc] at h
        obtain ⟨rfl, rfl, rfl⟩ : P = F ∧ n = m ∧ some c = t := by simpa using h
        simp
      · rw [fieldLoop_cons hc] at h
        obtain ⟨R, hR, h⟩ := Option.bind_eq_some_iff.mp h
        obtain ⟨h1, h2, h3, h4⟩ := ih h
        rw [List.length_cons]
        refine ⟨h1.trans (fieldStep_same hR).2.2, by omega, by omega, fun ht => ?_⟩
        have := h4 ht
        omega

end Names

/-! ## Values -/

/-- The parser with another count, and another state of the header. -/
def Parser.recount (v : ℕ) (g : HeaderState) (P : Parser) : Parser :=
  { P with nread := v, headerState := g }

/-- What the loop comes to for another count and another state of the header, started `m` bytes
before.  Errors are only compared as such. -/
def Alike (v : ℕ) (g : HeaderState) (m : ℕ) : ValueEnd → ValueEnd → Prop
  | .data P h n, t => t = .data (P.recount v g) h (n + m)
  | .cr P h n, t => t = .cr (P.recount v g) h (n + m)
  | .lf P h n, t => t = .lf (P.recount v g) h (n + m)
  | .err P _, t => P.httpErrno ≠ .ok ∧ ∃ Q k, t = .err Q k ∧ Q.httpErrno ≠ .ok
  | .abort, t => t = .abort

/-- The loop goes on for at least `m` bytes, or ends with an error. -/
def Long (m : ℕ) : ValueEnd → Prop
  | .data _ _ n => m < n
  | .cr _ _ n => m ≤ n
  | .lf _ _ n => m ≤ n
  | .err _ _ => True
  | .abort => True

section Values

variable {P : Parser} {h : HeaderState} {ch : UInt8} {q : Bytes} {j k m n v : ℕ} {e : RunEnd}

/-- The same step, for another count and another state of the header. -/
def SameStep (v : ℕ) (g : HeaderState) : ValueChar → ValueChar → Prop
  | .next R h, t => t = .next (R.recount v g) h
  | .err R, t => R.httpErrno ≠ .ok ∧ ∃ Q, t = .err Q ∧ Q.httpErrno ≠ .ok
  | .abort, t => t = .abort

lemma sameStep_contentLengthNum (v : ℕ) (g : HeaderState) :
    SameStep v g (contentLengthNum P ch) (contentLengthNum (P.recount v g) ch) := by
  rw [contentLengthNum, contentLengthNum]
  by_cases h1 : ch = sp
  · rw [if_pos h1, if_pos h1]
    rfl
  rw [if_neg h1, if_neg h1]
  by_cases h2 : (!isNum ch) = true
  · rw [if_pos h2, if_pos h2]
    exact ⟨by simp, _, rfl, by simp⟩
  rw [if_neg h2, if_neg h2]
  rw [show (P.recount v g).contentLength = P.contentLength from rfl]
  by_cases h3 : (ullongMax - 10) / 10 < P.contentLength
  · rw [if_pos h3, if_pos h3]
    exact ⟨by simp, _, rfl, by simp⟩
  · rw [if_neg h3, if_neg h3]
    rfl

lemma sameStep_valueChar (v : ℕ) (g : HeaderState) :
    SameStep v g (valueChar P h ch) (valueChar (P.recount v g) h ch) := by
  have hnum := @sameStep_contentLengthNum P ch v g
  cases h <;> simp only [valueChar] <;> (try split_ifs) <;>
    first | rfl | exact hnum | exact ⟨by simp, _, rfl, by simp⟩

lemma valueLoop_cr : valueLoop P h 0 n (cr :: q) = .cr P h n := by
  rw [valueLoop, if_pos rfl]

lemma valueLoop_lf : valueLoop P h 0 n (lf :: q) = .lf P h n := by
  rw [valueLoop, if_neg (by decide), if_pos rfl]

lemma valueLoop_bad (h1 : ch ≠ cr) (h2 : ch ≠ lf)
    (h3 : (!P.lenientHttpHeaders && !isHeaderChar ch) = true) :
    valueLoop P h 0 n (ch :: q) = .err { P with httpErrno := .invalidHeaderToken } n := by
  rw [valueLoop, if_neg h1, if_neg h2, if_pos h3]

lemma valueLoop_char (hp : passes P ch) (hg : h ≠ .general) :
    valueLoop P h 0 n (ch :: q) = match valueChar P h ch with
      | .next P h => valueLoop P h 0 (n + 1) q
      | .err P => .err P n
      | .abort => .abort := by
  obtain ⟨h1, h2, h3⟩ := hp
  cases hchar : valueChar P h ch <;>
    rw [valueLoop, if_neg h1, if_neg h2, if_neg h3, if_neg hg, hchar]

lemma valueLoop_general (hp : passes P ch) :
    valueLoop P .general 0 n (ch :: q) =
      match generalRun P.lenientHttpHeaders maxHeaderSize (ch :: q) with
      | (k, .line) => valueLoop P .general (k - 1) (n + 1) q
      | (k, .bad) => .err { P with httpErrno := .invalidHeaderToken } (n + k)
      | (k, .full) => valueLoop P .general k (n + 1) q := by
  obtain ⟨h1, h2, h3⟩ := hp
  rcases hrun : generalRun P.lenientHttpHeaders maxHeaderSize (ch :: q) with ⟨k, e⟩
  cases e <;> rw [valueLoop, if_neg h1, if_neg h2, if_neg h3, if_pos rfl, hrun]

/-- The three kinds of bytes. -/
lemma byte_cases (P : Parser) (ch : UInt8) : ch = cr ∨ ch = lf ∨
    (ch ≠ cr ∧ ch ≠ lf ∧ (!P.lenientHttpHeaders && !isHeaderChar ch) = true) ∨ passes P ch := by
  unfold passes
  tauto

/-- What the loop does is independent of the count, and of where it starts. -/
lemma valueLoop_alike (v : ℕ) (g : HeaderState) (m s : ℕ) :
    Alike v g m (valueLoop P h s n q) (valueLoop (P.recount v g) h s (n + m) q) := by
  induction q generalizing P h s n with
  | nil => cases s <;> rfl
  | cons c q ih =>
      have hnext : ∀ (P : Parser) (h : HeaderState) (s : ℕ),
          Alike v g m (valueLoop P h s (n + 1) q)
            (valueLoop (P.recount v g) h s (n + m + 1) q) := by
        intro P h s
        rw [show n + m + 1 = n + 1 + m by omega]
        exact ih s
      cases s with
      | succ s =>
          rw [valueLoop, valueLoop]
          exact hnext P h s
      | zero =>
          rcases byte_cases P c with rfl | rfl | ⟨h1, h2, h3⟩ | hp
          · rw [valueLoop_cr, valueLoop_cr]
            rfl
          · rw [valueLoop_lf, valueLoop_lf]
            rfl
          · rw [valueLoop_bad h1 h2 h3, valueLoop_bad (P := P.recount v g) h1 h2 h3]
            exact ⟨by simp, _, _, rfl, by simp⟩
          · by_cases hg : h = .general
            · subst hg
              rw [valueLoop_general hp, valueLoop_general (P := P.recount v g) hp]
              rw [show (P.recount v g).lenientHttpHeaders = P.lenientHttpHeaders from rfl]
              obtain ⟨k, e⟩ := generalRun P.lenientHttpHeaders maxHeaderSize (c :: q)
              cases e with
              | bad => exact ⟨by simp, _, _, rfl, by simp⟩
              | line | full => exact hnext P .general _
            · rw [valueLoop_char hp hg, valueLoop_char (P := P.recount v g) hp hg]
              have hchar := @sameStep_valueChar P h c v g
              cases hv : valueChar P h c with
              | next R h' =>
                  rw [hv] at hchar
                  rw [show valueChar (P.recount v g) h c = _ from hchar]
                  exact hnext R h' 0
              | err R =>
                  rw [hv] at hchar
                  obtain ⟨herr, Q, hQ, herr'⟩ := hchar
                  rw [hQ]
                  exact ⟨herr, Q, _, rfl, herr'⟩
              | abort =>
                  rw [hv] at hchar
                  rw [show valueChar (P.recount v g) h c = _ from hchar]
                  rfl

lemma Long.alike {t t' : ValueEnd} {g : HeaderState} (ht : Long k t) (ha : Alike v g 0 t t') :
    Long k t' := by
  cases t with
  | data F h n | cr F h n | lf F h n =>
      obtain rfl := ha
      exact ht
  | err F n =>
      obtain ⟨-, Q, j, rfl, -⟩ := ha
      trivial
  | abort =>
      obtain rfl := ha
      trivial

/-- The loop ends between two places, and has not counted. -/
def Reaches (r lo hi : ℕ) : ValueEnd → Prop
  | .data F _ n => F.nread = r ∧ n = hi
  | .cr F _ n => F.nread = r ∧ lo ≤ n ∧ n ≤ hi
  | .lf F _ n => F.nread = r ∧ lo ≤ n ∧ n ≤ hi
  | _ => True

lemma Reaches.mono {r lo lo' hi : ℕ} {t : ValueEnd} (ht : Reaches r lo hi t) (hlo : lo' ≤ lo) :
    Reaches r lo' hi t := by
  cases t with
  | data F h n => exact ht
  | cr F h n | lf F h n => exact ⟨ht.1, hlo.trans ht.2.1, ht.2.2⟩
  | err | abort => trivial

/-- The loop goes at least as far as it skips, and to the end where it finds no line end. -/
lemma valueLoop_reaches (s : ℕ) :
    Reaches P.nread (n + min s q.length) (n + q.length) (valueLoop P h s n q) := by
  induction q generalizing P h s n with
  | nil => cases s <;> exact ⟨rfl, by simp⟩
  | cons c q ih =>
      rw [List.length_cons, show n + (q.length + 1) = n + 1 + q.length by omega]
      cases s with
      | succ s =>
          rw [valueLoop]
          exact (ih s).mono (by omega)
      | zero =>
          rw [Nat.zero_min, Nat.add_zero]
          rcases byte_cases P c with rfl | rfl | ⟨h1, h2, h3⟩ | hp
          · rw [valueLoop_cr]
            exact ⟨rfl, Nat.le_refl _, by omega⟩
          · rw [valueLoop_lf]
            exact ⟨rfl, Nat.le_refl _, by omega⟩
          · rw [valueLoop_bad h1 h2 h3]
            trivial
          · by_cases hg : h = .general
            · subst hg
              rw [valueLoop_general hp]
              obtain ⟨k, e⟩ := generalRun P.lenientHttpHeaders maxHeaderSize (c :: q)
              cases e with
              | bad => trivial
              | line | full => exact (ih _).mono (by omega)
            · rw [valueLoop_char hp hg]
              cases hv : valueChar P h c with
              | next R h' =>
                  have hR := (valueChar_same.1 R h' hv).2.2.1
                  have := ih (P := R) (h := h') (n := n + 1) 0
                  rw [hR] at this
                  exact this.mono (by omega)
              | err R => trivial
              | abort => trivial

lemma generalRun_line {lenient : Bool} (hc : ch = cr ∨ ch = lf) :
    generalRun lenient maxHeaderSize (ch :: q) = (0, .line) := by
  rw [show maxHeaderSize = maxHeaderSize - 1 + 1 from rfl, generalRun, if_pos (by simpa using hc)]

lemma generalRun_bad {lenient : Bool} (h1 : ch ≠ cr) (h2 : ch ≠ lf)
    (h3 : (!lenient && !isHeaderChar ch) = true) :
    generalRun lenient maxHeaderSize (ch :: q) = (0, .bad) := by
  rw [show maxHeaderSize = maxHeaderSize - 1 + 1 from rfl, generalRun, if_neg (by simp [h1, h2]),
    if_pos h3]

lemma generalRun_le (lenient : Bool) (j : ℕ) (q : Bytes) :
    (generalRun lenient j q).1 ≤ q.length := by
  fun_induction generalRun lenient j q with
  | case1 | case2 | case3 | case4 => simp
  | case5 limit ch q _ _ ih => exact Nat.succ_le_succ ih

/-- Running to the end of the list, or of what it may look at. -/
lemma generalRun_full {lenient : Bool} (hr : (generalRun lenient j q).2 = .full) :
    (generalRun lenient j q).1 = min j q.length := by
  fun_induction generalRun lenient j q with
  | case1 | case2 => simp
  | case3 | case4 => simp at hr
  | case5 limit ch q _ _ ih =>
      rw [ih hr, List.length_cons]
      omega

/-- With a larger limit, a run goes at least as far. -/
lemma generalRun_mono {lenient : Bool} (hj : j ≤ m) :
    (generalRun lenient j q).1 ≤ (generalRun lenient m q).1 := by
  fun_induction generalRun lenient j q generalizing m with
  | case1 | case2 | case3 | case4 => exact Nat.zero_le _
  | case5 limit ch q h1 h2 ih =>
      obtain ⟨m, rfl⟩ : ∃ m', m = m' + 1 := ⟨m - 1, by omega⟩
      rw [generalRun, if_neg h1, if_neg h2]
      exact Nat.succ_le_succ (ih (by omega))

/-- A run that is not stopped by its limit is the same with a larger one. -/
lemma generalRun_eq {lenient : Bool} (hj : j ≤ m)
    (hstop : (generalRun lenient j q).2 ≠ .full ∨ (generalRun lenient j q).1 = q.length) :
    generalRun lenient m q = generalRun lenient j q := by
  fun_induction generalRun lenient j q generalizing m with
  | case1 q =>
      obtain rfl : q = [] := by
        rcases hstop with h | h
        · simp at h
        · exact List.length_eq_zero_iff.mp h.symm
      rw [generalRun_nil]
  | case2 => rw [generalRun_nil]
  | case3 limit ch q h1 =>
      obtain ⟨m, rfl⟩ : ∃ m', m = m' + 1 := ⟨m - 1, by omega⟩
      rw [generalRun, if_pos h1]
  | case4 limit ch q h1 h2 =>
      obtain ⟨m, rfl⟩ : ∃ m', m = m' + 1 := ⟨m - 1, by omega⟩
      rw [generalRun, if_neg h1, if_pos h2]
  | case5 limit ch q h1 h2 ih =>
      obtain ⟨m, rfl⟩ : ∃ m', m = m' + 1 := ⟨m - 1, by omega⟩
      rw [generalRun, if_neg h1, if_neg h2, ih (by omega) (by simpa using hstop)]

/-- A byte behind which the run goes on may be passed. -/
lemma passes_of_run {c : UInt8} (hk : 0 < (generalRun P.lenientHttpHeaders j (c :: q)).1) :
    passes P c := by
  cases j with
  | zero => simp [generalRun] at hk
  | succ j =>
      rw [generalRun] at hk
      split_ifs at hk with h1 h2
      · simp at hk
      · simp at hk
      · simp only [Bool.or_eq_true, decide_eq_true_eq, not_or] at h1
        exact ⟨h1.1, h1.2, h2⟩

/-- A value that begins with `j` bytes that may be there, and goes on. -/
lemma long_of_run (hr : j ≤ (generalRun P.lenientHttpHeaders j q).1) (hj : 0 < j)
    (hmax : j ≤ maxHeaderSize) (hq : j < q.length) : Long (n + j) (valueLoop P .general 0 n q) := by
  obtain ⟨c, q, rfl⟩ := List.exists_cons_of_length_pos (show 0 < q.length by omega)
  have hge := @generalRun_mono (c :: q) _ _ P.lenientHttpHeaders hmax
  have hle := generalRun_le P.lenientHttpHeaders maxHeaderSize (c :: q)
  rw [valueLoop_general (passes_of_run (Nat.lt_of_lt_of_le hj hr))]
  generalize generalRun P.lenientHttpHeaders maxHeaderSize (c :: q) = r at hge hle ⊢
  obtain ⟨k, e⟩ := r
  rw [List.length_cons] at hq hle
  dsimp only at hge hle
  have hlong : ∀ s, k - 1 ≤ s → Long (n + j) (valueLoop P .general s (n + 1) q) := by
    intro s hs
    have := valueLoop_reaches (P := P) (h := .general) (n := n + 1) (q := q) s
    cases hv : valueLoop P .general s (n + 1) q <;> rw [hv] at this <;>
      simp only [Long, Reaches] at this ⊢ <;> omega
  cases e with
  | line => exact hlong _ (Nat.le_refl _)
  | bad => trivial
  | full => exact hlong _ (by omega)

lemma valueLoop_skip_all {s : ℕ} (hs : q.length ≤ s) :
    valueLoop P h s n q = .data P h (n + q.length) := by
  induction q generalizing s n with
  | nil => cases s <;> rfl
  | cons c q ih =>
      rw [List.length_cons] at hs ⊢
      obtain ⟨s, rfl⟩ : ∃ s', s = s' + 1 := ⟨s - 1, by omega⟩
      rw [valueLoop, ih (by omega), show n + 1 + q.length = n + (q.length + 1) by omega]

/-- **The inner loop agrees with the outer one**, or the value is too long either way. -/
lemma valueLoop_general_cons (hp : passes P ch) :
    valueLoop P .general 0 n (ch :: q) = valueLoop P .general 0 (n + 1) q ∨
      (Long (n + maxHeaderSize) (valueLoop P .general 0 n (ch :: q)) ∧
        ∀ n', Long (n' + (maxHeaderSize - 1)) (valueLoop P .general 0 n' q)) := by
  have hcons := generalRun_cons hp (maxHeaderSize - 1) q
  rw [show maxHeaderSize - 1 + 1 = maxHeaderSize from rfl] at hcons
  have hmore := fun hstop => @generalRun_eq q _ _ P.lenientHttpHeaders
    (show maxHeaderSize - 1 ≤ maxHeaderSize by decide) hstop
  have hfull := @generalRun_full q (maxHeaderSize - 1) P.lenientHttpHeaders
  have hle := generalRun_le P.lenientHttpHeaders (maxHeaderSize - 1) q
  by_cases hcap : (generalRun P.lenientHttpHeaders (maxHeaderSize - 1) q).2 = .full ∧
      (generalRun P.lenientHttpHeaders (maxHeaderSize - 1) q).1 < q.length
  · -- the limit is reached
    right
    have hk := hfull hcap.1
    have hmax : (0 : ℕ) < maxHeaderSize - 1 := by decide
    refine ⟨long_of_run ?_ (by omega) (Nat.le_refl _) ?_,
      fun n' => long_of_run (by omega) hmax (by omega) (by omega)⟩
    · rw [hcons]
      dsimp only
      omega
    · rw [List.length_cons]
      omega
  · left
    have hstop : (generalRun P.lenientHttpHeaders (maxHeaderSize - 1) q).2 ≠ .full ∨
        (generalRun P.lenientHttpHeaders (maxHeaderSize - 1) q).1 = q.length := by
      rw [not_and_or] at hcap
      exact hcap.imp id fun h => by omega
    rw [valueLoop_general hp, hcons, ← hmore hstop]
    rw [← hmore hstop] at hstop
    cases q with
    | nil => rw [generalRun_nil]; rfl
    | cons c q =>
        by_cases hk : (generalRun P.lenientHttpHeaders maxHeaderSize (c :: q)).1 = 0
        · rcases byte_cases P c with rfl | rfl | ⟨h1, h2, h3⟩ | hpc
          · rw [generalRun_line (Or.inl rfl)]
            rfl
          · rw [generalRun_line (Or.inr rfl)]
            rfl
          · rw [generalRun_bad h1 h2 h3, valueLoop_bad h1 h2 h3]
          · have hpos := generalRun_cons hpc (maxHeaderSize - 1) q
            rw [show maxHeaderSize - 1 + 1 = maxHeaderSize from rfl] at hpos
            rw [hpos] at hk
            simp at hk
        · have hpc := passes_of_run (Nat.pos_of_ne_zero hk)
          rw [valueLoop_general hpc]
          generalize generalRun P.lenientHttpHeaders maxHeaderSize (c :: q) = r at hk hstop ⊢
          obtain ⟨k, e⟩ := r
          dsimp only at hk hstop ⊢
          obtain ⟨k, rfl⟩ : ∃ k', k = k' + 1 := ⟨k - 1, by omega⟩
          cases e with
          | line => rfl
          | bad =>
              simp only [ValueEnd.err.injEq, true_and]
              omega
          | full =>
              simp only [ne_eq, not_true_eq_false, false_or, List.length_cons] at hstop
              dsimp only
              rw [valueLoop_skip_all (by simp; omega), valueLoop_skip_all (by omega),
                List.length_cons, show n + 1 + (q.length + 1) = n + 1 + 1 + q.length by omega]

end Values

/-! ## Turns on more than one byte -/

/-- Either a turn only looks at one byte, or it goes on as the turn on the next byte does. -/
def Splits (set : Settings) (P : Parser) (x : UInt8) : Prop :=
  (∀ rest, turn set P x rest = turn set P x []) ∨
  ∃ Q ops, turn set P x [] = .next 1 Q ops ∧ ∀ y rest, rest.length < 2 ^ 31 →
    (turn set P x (y :: rest)).Good ∨ (turn set Q y rest).Good →
      (turn set P x (y :: rest)).Same (((turn set Q y rest).shift 1).after ops)

section Splits

variable {set : Settings} {P : Parser} {x : UInt8}

/-- If the byte is one too many, nothing else matters. -/
lemma splits_of_overflow (hp : P.state.parsingHeader = true) (hn : P.nread ≤ maxHeaderSize)
    (h : maxHeaderSize < P.nread + 1) : Splits set P x := by
  left
  intro rest
  have hsmall : P.nread + 1 < 2 ^ 32 := by
    rw [maxHeaderSize] at hn
    omega
  rw [turn, turn, if_pos hp, if_pos hp, counted_of_lt h hsmall, counted_of_lt h hsmall]

/-- How a turn on a name ends. -/
def fieldTurn : Option (Parser × ℕ × Option UInt8) → Turn
  | none => .abort
  | some (P, n, none) => counted P (n - 1) (n - 1) fun P => .next n P []
  | some (P, n, some ch) => counted P n n fun P =>
      if ch = 58 then
        .next (n + 1) { P with state := .headerValueDiscardWs } [.flush .headerField n]
      else .ret n { P with httpErrno := .invalidHeaderToken } []

lemma headerField_eq (bytes : Bytes) : headerField P bytes = fieldTurn (fieldLoop P 0 0 bytes) :=
  rfl

lemma splits_headerField (hs : P.state = .headerField) (hn : P.nread ≤ maxHeaderSize) :
    Splits set P x := by
  have hp : P.state.parsingHeader = true := by rw [hs]; rfl
  by_cases hover : maxHeaderSize < P.nread + 1
  · exact splits_of_overflow hp hn hover
  -- the turn is the loop over the name, for the parser that has counted the first byte
  have hturn : ∀ (P : Parser) (x : UInt8) (rest : Bytes), P.state = .headerField →
      P.nread + 1 ≤ maxHeaderSize →
      turn set P x rest = headerField { P with nread := P.nread + 1 } (x :: rest) := by
    intro P x rest hs hle
    rw [turn, if_pos (by rw [hs]; rfl), counted_of_le hle]
    simp only [switch, hs]
  have hle : P.nread + 1 ≤ maxHeaderSize := by omega
  by_cases hx : token x = 0
  · left
    intro rest
    rw [hturn P x rest hs hle, hturn P x [] hs hle, headerField, headerField, fieldLoop_stop hx,
      fieldLoop_stop hx]
  cases hR : fieldStep { P with nread := P.nread + 1 } x with
  | none =>
      left
      intro rest
      rw [hturn P x rest hs hle, hturn P x [] hs hle, headerField, headerField, fieldLoop_cons hx,
        fieldLoop_cons hx, hR]
      rfl
  | some R =>
      right
      obtain ⟨hRs, -, hRn⟩ := fieldStep_same hR
      dsimp only at hRs hRn
      refine ⟨R, [], ?_, ?_⟩
      · rw [hturn P x [] hs hle, headerField, fieldLoop_cons hx, hR]
        dsimp only [Option.bind_some, fieldLoop]
        rw [counted_of_le (by omega)]
        rfl
      · intro y rest hlen hgood
        have hloop := fieldLoop_shift (P := R) (n := 0) (q := y :: rest)
        have hlhs : turn set P x (y :: rest) = fieldTurn ((fieldLoop R 0 0 (y :: rest)).map
            fun r => ({ r.1 with nread := R.nread }, r.2.1 + 1, r.2.2)) := by
          rw [hturn P x _ hs hle, headerField_eq, fieldLoop_cons hx, hR, Option.bind_some]
          exact congrArg fieldTurn (hloop R.nread 1)
        have hrhs : R.nread + 1 ≤ maxHeaderSize →
            turn set R y rest = fieldTurn ((fieldLoop R 0 0 (y :: rest)).map
              fun r => ({ r.1 with nread := R.nread + 1 }, r.2)) := by
          intro hle'
          rw [hturn R y rest (hRs.trans hs) hle', headerField_eq]
          exact congrArg fieldTurn (hloop (R.nread + 1) 0)
        have hrhs_le : (turn set R y rest).Good → R.nread + 1 ≤ maxHeaderSize := by
          intro hg
          rw [turn, if_pos (by rw [hRs, hs]; rfl)] at hg
          exact hg.le (by rw [maxHeaderSize] at hle; omega)
        cases hL : fieldLoop R 0 0 (y :: rest) with
        | none =>
            rw [hL] at hlhs hrhs
            rcases hgood with hg | hg
            · rw [hlhs] at hg
              exact hg.elim
            · rw [hrhs (hrhs_le hg)] at hg
              exact hg.elim
        | some r =>
            obtain ⟨F, n, t⟩ := r
            obtain ⟨hF, -, hn2, hn3⟩ := fieldLoop_count hL
            rw [List.length_cons] at hn2 hn3
            have hFeq : ({ F with nread := R.nread } : Parser) = F := by rw [← hF]
            rw [hL, Option.map_some] at hlhs hrhs
            dsimp only at hlhs hrhs
            rw [hFeq] at hlhs
            rw [maxHeaderSize] at hle
            cases t with
            | none =>
                have hn := hn3 rfl
                rw [fieldTurn, Nat.add_sub_cancel] at hlhs
                rw [fieldTurn] at hrhs
                have htotal : R.nread + n ≤ maxHeaderSize := by
                  rcases hgood with hg | hg
                  · rw [hlhs] at hg
                    have := hg.le (by omega)
                    omega
                  · rw [hrhs (hrhs_le hg)] at hg
                    have := hg.le (by dsimp only; omega)
                    dsimp only at this
                    omega
                rw [hlhs, hrhs (by omega), counted_of_le (by omega),
                  counted_of_le (by dsimp only; omega)]
                refine ⟨rfl, ?_, fun _ _ => rfl⟩
                rw [hF]
                congr 1
                dsimp only
                omega
            | some ch =>
                rw [fieldTurn] at hlhs hrhs
                have htotal : R.nread + (n + 1) ≤ maxHeaderSize := by
                  rcases hgood with hg | hg
                  · rw [hlhs] at hg
                    have := hg.le (by omega)
                    omega
                  · rw [hrhs (hrhs_le hg)] at hg
                    have := hg.le (by dsimp only; omega)
                    dsimp only at this
                    omega
                rw [hlhs, hrhs (by omega), counted_of_le (by omega),
                  counted_of_le (by dsimp only; omega), hF,
                  show R.nread + (n + 1) = R.nread + 1 + n by omega]
                dsimp only
                split_ifs
                · exact ⟨rfl, rfl, fun _ _ => rfl⟩
                · exact ⟨rfl, rfl, fun _ _ => rfl⟩

/-- How a turn on a value ends. -/
def valueTurn : ValueEnd → Turn
  | .data P h n => counted { P with headerState := h } (n - 1) (n - 1) fun P => .next n P []
  | .cr P h n =>
      (counted { P with state := .headerAlmostDone, headerState := h } n n fun P =>
        .next (n + 1) P []).after [.flush .headerValue n]
  | .lf P h n =>
      counted { P with state := .headerAlmostDone } n n fun P =>
        ((headerAlmostDone { P with headerState := h } lf).shift n).after [.flush .headerValue n]
  | .err P n => .ret n P []
  | .abort => .abort

lemma headerValue_eq (bytes : Bytes) :
    headerValue P bytes = valueTurn (valueLoop P P.headerState 0 0 bytes) := by
  rw [headerValue]
  cases valueLoop P P.headerState 0 0 bytes <;> rfl

lemma turn_headerValue {rest : Bytes} (hs : P.state = .headerValue)
    (hle : P.nread + 1 ≤ maxHeaderSize) : turn set P x rest =
      valueTurn (valueLoop { P with nread := P.nread + 1 } P.headerState 0 0 (x :: rest)) := by
  rw [turn, if_pos (by rw [hs]; rfl), counted_of_le hle]
  simp only [switch, hs, headerValue_eq]

/-- What has been counted at the end of the loop. -/
def ValueEnd.total : ValueEnd → ℕ
  | .data P _ n => P.nread + (n - 1)
  | .cr P _ n => P.nread + n
  | .lf P _ n => P.nread + n
  | .err _ _ => 0
  | .abort => 0

lemma total_le {t : ValueEnd} (hg : (valueTurn t).Good) (ht : t.total < 2 ^ 32) :
    t.total ≤ maxHeaderSize := by
  by_contra hlt
  have hlt' : maxHeaderSize < t.total := by omega
  cases t with
  | data F h n | cr F h n | lf F h n =>
      rw [valueTurn, counted_of_lt (by exact hlt') (by exact ht)] at hg
      simp [Turn.Good, Turn.after] at hg
  | err F n | abort => simp [ValueEnd.total] at hlt'

/-- A good turn has counted at least the bytes its loop has passed. -/
lemma le_of_good {t : ValueEnd} {r lo hi : ℕ} (ht : Reaches r lo hi t) (hlt : lo < hi)
    (hhi : r + hi < 2 ^ 32) (herr : ∀ F n, t = .err F n → F.httpErrno ≠ .ok)
    (hg : (valueTurn t).Good) : r + lo ≤ maxHeaderSize := by
  have hle := total_le hg
  cases t with
  | data F h n | cr F h n | lf F h n =>
      simp only [Reaches, ValueEnd.total] at ht hle
      omega
  | err F n => exact absurd hg (herr F n rfl)
  | abort => exact hg.elim

/-- A value that is too long is an error. -/
lemma not_good_long {t : ValueEnd} {r lo hi m : ℕ} (ht : Reaches r lo hi t) (hlong : Long m t)
    (hm : maxHeaderSize < r + m) (hhi : r + hi < 2 ^ 32)
    (herr : ∀ F n, t = .err F n → F.httpErrno ≠ .ok) : ¬ (valueTurn t).Good := by
  intro hg
  have hle := total_le hg
  cases t with
  | data F h n | cr F h n | lf F h n =>
      simp only [Reaches, Long, ValueEnd.total] at ht hlong hle
      omega
  | err F n => exact herr F n rfl hg
  | abort => exact hg

/-- The turn on a value, and the turn that starts one byte later. -/
lemma same_valueTurn {t tl tr : ValueEnd} {r hi : ℕ} {g g' : HeaderState}
    (ht : Reaches r 0 hi t) (hl : Alike r g 1 t tl) (hr : Alike (r + 1) g' 0 t tr)
    (hhi : r + hi + 1 < 2 ^ 32) (hpos : 0 < hi)
    (hgood : (valueTurn tl).Good ∨ (valueTurn tr).Good) :
    (valueTurn tl).Same ((valueTurn tr).shift 1) := by
  cases t with
  | data F h n =>
      obtain ⟨-, rfl⟩ := ht
      obtain rfl := hl
      obtain rfl := hr
      have htotal : r + n ≤ maxHeaderSize := by
        rcases hgood with hg | hg
        all_goals
          have hle := total_le hg
          simp only [ValueEnd.total, Parser.recount] at hle
          omega
      rw [valueTurn, valueTurn, counted_of_le (by dsimp only [Parser.recount]; omega),
        counted_of_le (by dsimp only [Parser.recount]; omega)]
      refine ⟨rfl, ?_, fun _ _ => rfl⟩
      dsimp only [Parser.recount]
      congr 1
      omega
  | cr F h n | lf F h n =>
      obtain ⟨-, -, hn⟩ := ht
      obtain rfl := hl
      obtain rfl := hr
      have htotal : r + n + 1 ≤ maxHeaderSize := by
        rcases hgood with hg | hg
        all_goals
          have hle := total_le hg
          simp only [ValueEnd.total, Parser.recount] at hle
          omega
      rw [valueTurn, valueTurn, counted_of_le (by dsimp only [Parser.recount]; omega),
        counted_of_le (by dsimp only [Parser.recount]; omega)]
      dsimp only [Parser.recount]
      rw [show r + (n + 1) = r + 1 + n by omega]
      exact ⟨by omega, rfl, fun _ _ => rfl⟩
  | err F n =>
      obtain ⟨-, Q, k, rfl, hQ⟩ := hl
      obtain ⟨-, Q', k', rfl, hQ'⟩ := hr
      rcases hgood with hg | hg
      · exact absurd hg hQ
      · exact absurd hg hQ'
  | abort =>
      obtain rfl := hl
      obtain rfl := hr
      trivial

/-- Errors are errors. -/
lemma valueLoop_err {h : HeaderState} {q : Bytes} {n s k : ℕ} {F : Parser}
    (he : valueLoop P h s n q = .err F k) : F.httpErrno ≠ .ok := by
  have := valueLoop_alike (P := P) (h := h) (q := q) (n := n) P.nread P.headerState 0 s
  rw [he] at this
  exact this.1

lemma splits_headerValue (hs : P.state = .headerValue) (hn : P.nread ≤ maxHeaderSize) :
    Splits set P x := by
  have hp : P.state.parsingHeader = true := by rw [hs]; rfl
  by_cases hover : maxHeaderSize < P.nread + 1
  · exact splits_of_overflow hp hn hover
  have hle : P.nread + 1 ≤ maxHeaderSize := by omega
  have hleft : ∀ t, (∀ rest, valueLoop { P with nread := P.nread + 1 } P.headerState 0 0
      (x :: rest) = t) → Splits set P x := by
    intro t ht
    left
    intro rest
    rw [turn_headerValue hs hle, turn_headerValue hs hle, ht, ht]
  rcases byte_cases { P with nread := P.nread + 1 } x with rfl | rfl | ⟨h1, h2, h3⟩ | hpass
  · exact hleft _ fun _ => valueLoop_cr
  · exact hleft _ fun _ => valueLoop_lf
  · exact hleft _ fun _ => valueLoop_bad h1 h2 h3
  cases hstep : valueStep { P with nread := P.nread + 1 } P.headerState x with
  | err R =>
      have hg : P.headerState ≠ .general := fun hg => by simp [valueStep, hg] at hstep
      rw [valueStep, if_neg hg] at hstep
      exact hleft (.err R 0) fun _ => by rw [valueLoop_char hpass hg, hstep]
  | abort =>
      have hg : P.headerState ≠ .general := fun hg => by simp [valueStep, hg] at hstep
      rw [valueStep, if_neg hg] at hstep
      exact hleft .abort fun _ => by rw [valueLoop_char hpass hg, hstep]
  | next R h =>
      right
      have hR : R.state = P.state ∧ R.nread = P.nread + 1 := by
        rw [valueStep] at hstep
        split_ifs at hstep
        · obtain ⟨rfl, -⟩ := ValueChar.next.inj hstep
          exact ⟨rfl, rfl⟩
        · obtain ⟨h1, -, h3, -⟩ := valueChar_same.1 R h hstep
          exact ⟨h1, h3⟩
      refine ⟨{ R with headerState := h }, [], ?_, fun y rest hlen hgood => ?_⟩
      · rw [turn_headerValue hs hle, valueLoop_one _ _ hpass, hstep]
        dsimp only
        rw [valueTurn, counted_of_le (by dsimp only; omega)]
        rfl
      -- the two turns, through the loops they run
      have hlhs := @turn_headerValue set _ x (y :: rest) hs hle
      have hrhs_le : (turn set { R with headerState := h } y rest).Good →
          P.nread + 2 ≤ maxHeaderSize := by
        intro hg
        rw [turn, if_pos (by dsimp only; rw [hR.1, hs]; rfl)] at hg
        have := hg.le (by dsimp only; rw [maxHeaderSize] at hle; omega)
        dsimp only at this
        omega
      have hrhs : P.nread + 2 ≤ maxHeaderSize →
          turn set { R with headerState := h } y rest =
            valueTurn (valueLoop (R.recount (P.nread + 1 + 1) h) h 0 0 (y :: rest)) := by
        intro hle'
        rw [turn_headerValue (by dsimp only; rw [hR.1, hs]) (by dsimp only; omega)]
        dsimp only [Parser.recount]
        rw [hR.2]
      have hreach := valueLoop_reaches (P := R) (h := h) (n := 0) (q := y :: rest) 0
      rw [hR.2, Nat.zero_add, Nat.zero_add, Nat.zero_min] at hreach
      have hr := valueLoop_alike (P := R) (h := h) (n := 0) (q := y :: rest) (P.nread + 1 + 1) h 0 0
      have hl := valueLoop_alike (P := R) (h := h) (n := 0) (q := y :: rest) (P.nread + 1)
        R.headerState 1 0
      rw [show R.recount (P.nread + 1) R.headerState = R by rw [← hR.2]; rfl] at hl
      have hsmall : (y :: rest).length ≤ 2 ^ 31 := by
        rw [List.length_cons]
        omega
      rw [maxHeaderSize] at hle
      have hdone : valueLoop { P with nread := P.nread + 1 } P.headerState 0 0 (x :: y :: rest) =
          valueLoop R h 0 (0 + 1) (y :: rest) →
          (turn set P x (y :: rest)).Same
            (((turn set { R with headerState := h } y rest).shift 1).after []) := by
        intro he
        rw [he] at hlhs
        have hgood' : (valueTurn (valueLoop R h 0 (0 + 1) (y :: rest))).Good ∨
            (valueTurn (valueLoop (R.recount (P.nread + 1 + 1) h) h 0 0 (y :: rest))).Good := by
          rcases hgood with hg | hg
          · exact Or.inl (hlhs ▸ hg)
          · exact Or.inr (hrhs (hrhs_le hg) ▸ hg)
        have hsame := same_valueTurn hreach hl hr (by omega) (by simp) hgood'
        have hle' : P.nread + 2 ≤ maxHeaderSize := by
          rcases hgood with hg | hg
          · have hreach' := valueLoop_reaches (P := R) (h := h) (n := 1) (q := y :: rest) 0
            rw [hR.2, Nat.zero_min] at hreach'
            have := le_of_good hreach' (by simp) (by omega) (fun F n => valueLoop_err) (hlhs ▸ hg)
            omega
          · exact hrhs_le hg
        rw [hlhs, hrhs hle']
        have hafter : ∀ t : Turn, t.after [] = t := by
          intro t
          cases t <;> rfl
        rw [hafter]
        exact hsame
      by_cases hg : P.headerState = .general
      · rw [valueStep, if_pos hg] at hstep
        obtain ⟨rfl, rfl⟩ := ValueChar.next.inj hstep
        have hgen := congrArg (fun g => valueLoop { P with nread := P.nread + 1 } g 0 0
          (x :: y :: rest)) hg
        rcases valueLoop_general_cons hpass (n := 0) (q := y :: rest) with he | ⟨hlong, hlong'⟩
        · exact hdone (hgen.trans he)
        · exfalso
          rw [hgen] at hlhs
          have hbound : maxHeaderSize = 81920 := rfl
          rcases hgood with hgl | hgr
          · have hreach' := valueLoop_reaches (P := { P with nread := P.nread + 1 })
              (h := .general) (n := 0) (q := x :: y :: rest) 0
            refine not_good_long hreach' hlong ?_ ?_ (fun F n => valueLoop_err) (hlhs ▸ hgl)
            · dsimp only
              omega
            · rw [List.length_cons]
              dsimp only
              omega
          · have hreach' := valueLoop_reaches
              (P := Parser.recount (P.nread + 1 + 1) .general { P with nread := P.nread + 1 })
              (h := .general) (n := 0) (q := y :: rest) 0
            refine not_good_long hreach' ((hlong' 0).alike hr) ?_ ?_ (fun F n => valueLoop_err)
              (hrhs (hrhs_le hgr) ▸ hgr)
            · dsimp only [Parser.recount]
              omega
            · dsimp only [Parser.recount]
              omega
      · refine hdone ?_
        rw [valueLoop_char hpass hg]
        rw [valueStep, if_neg hg] at hstep
        rw [hstep]

/-- A second mark has no effect. -/
lemma sameOps_mark (k : DataKind) (n : ℕ) (ops : List Op) :
    SameOps (.mark k 0 :: ops) (.mark k 0 :: .mark k n :: ops) := by
  intro M p
  simp only [List.map_cons, Act.shift, Nat.zero_add]
  cases hM : M k with
  | none =>
      rw [run_cons, act_mark_none hM, run_cons, act_mark_none hM, run_cons,
        act_mark_some (Function.update_self k (some p) M)]
      rfl
  | some q =>
      rw [run_cons, act_mark_some hM, run_cons, act_mark_some hM, run_cons, act_mark_some hM]
      rfl

lemma splits_bodyIdentityEof (hs : P.state = .bodyIdentityEof) : Splits set P x := by
  have hturn : ∀ x rest, turn set P x rest = .next (rest.length + 1) P [.mark .body 0] := by
    intro x rest
    rw [turn, if_neg (by simp [hs, State.parsingHeader])]
    simp only [switch, hs]
  right
  refine ⟨P, [.mark .body 0], hturn x [], fun y rest _ _ => ?_⟩
  rw [hturn, hturn]
  exact ⟨rfl, rfl, sameOps_mark .body 1 []⟩

/-- A body that does not end in the buffer, and one that ends there. -/
lemma splits_bodyIdentity (hs : P.state = .bodyIdentity) (hc : P.contentLength ≤ ullongMax) :
    Splits set P x := by
  have hturn : ∀ (P : Parser) (x : UInt8) (rest : Bytes), P.state = .bodyIdentity →
      turn set P x rest = bodyIdentity P (x :: rest) := by
    intro P x rest hs
    rw [turn, if_neg (by simp [hs, State.parsingHeader])]
    simp only [switch, hs]
  by_cases hbad : P.contentLength = 0 ∨ P.contentLength = ullongMax
  · left
    intro rest
    rw [hturn P x _ hs, hturn P x _ hs, bodyIdentity, bodyIdentity, if_pos (by simpa using hbad),
      if_pos (by simpa using hbad)]
  have hgood : ¬ (decide (P.contentLength = 0) || decide (P.contentLength = ullongMax)) = true := by
    simpa using hbad
  rw [not_or] at hbad
  by_cases hone : P.contentLength = 1
  · left
    intro rest
    rw [hturn P x _ hs, hturn P x _ hs, bodyIdentity, bodyIdentity, hone]
    simp
  -- the byte is not the last one of the body
  right
  have hnext : ¬ (decide (P.contentLength - 1 = 0) ||
      decide (P.contentLength - 1 = ullongMax)) = true := by
    simp only [Bool.or_eq_true, decide_eq_true_eq]
    omega
  refine ⟨{ P with contentLength := P.contentLength - 1 }, [.mark .body 0], ?_,
    fun y rest _ _ => ?_⟩
  · rw [hturn P x _ hs, bodyIdentity, if_neg hgood, List.length_singleton,
      Nat.min_eq_right (by omega), if_neg (by dsimp only; omega)]
  · rw [hturn P x _ hs, hturn { P with contentLength := P.contentLength - 1 } y _ hs, bodyIdentity,
      bodyIdentity, if_neg hgood, if_neg hnext]
    dsimp only
    simp only [List.length_cons]
    have hmin : min P.contentLength (rest.length + 1 + 1) =
        min (P.contentLength - 1) (rest.length + 1) + 1 := by omega
    have hpos : 0 < min (P.contentLength - 1) (rest.length + 1) := by omega
    rw [hmin, Nat.sub_sub, Nat.add_comm 1]
    generalize min (P.contentLength - 1) (rest.length + 1) = r at hpos
    split
    case isTrue h0 =>
        -- the message ends, whatever that comes to
        have hops : ∀ ops : List Op, SameOps
            (.mark .body 0 :: .flush .body (r + 1) :: ops.map (Act.shift (r + 1 - 1)))
            (.mark .body 0 :: (([.mark .body 0, .flush .body r] : List Op) ++
              ops.map (Act.shift (r - 1))).map (Act.shift 1)) := by
          intro ops
          have hshift : (ops.map (Act.shift (r - 1))).map (Act.shift 1) =
              ops.map (Act.shift (r + 1 - 1)) := by
            rw [List.map_map]
            congr 1
            funext a
            cases a <;> simp only [Function.comp, Act.shift] <;> congr 1 <;> omega
          rw [List.map_append, hshift]
          exact sameOps_mark .body 1 _
        generalize messageDone _ = t
        cases t with
        | next n Q ops => exact ⟨by omega, rfl, hops ops⟩
        | ret n Q ops => exact ⟨by omega, rfl, hops ops⟩
        | abort => trivial
    case isFalse => exact ⟨rfl, rfl, sameOps_mark .body 1 []⟩

lemma splits_chunkData (hs : P.state = .chunkData) (hc : P.contentLength ≤ ullongMax) :
    Splits set P x := by
  have hturn : ∀ (P : Parser) (x : UInt8) (rest : Bytes), P.state = .chunkData →
      turn set P x rest = chunkData P (x :: rest) := by
    intro P x rest hs
    rw [turn, if_neg (by simp [hs, State.parsingHeader])]
    simp only [switch, hs]
  by_cases hchunked : P.flags.chunked = false
  · left
    intro rest
    rw [hturn P x _ hs, hturn P x _ hs, chunkData, chunkData, hchunked]
    rfl
  have hflag : ¬ (!P.flags.chunked) = true := by simpa using hchunked
  by_cases hbad : P.contentLength = 0 ∨ P.contentLength = ullongMax
  · left
    intro rest
    rw [hturn P x _ hs, hturn P x _ hs, chunkData, chunkData, if_neg hflag, if_neg hflag,
      if_pos (by simpa using hbad), if_pos (by simpa using hbad)]
  have hgood : ¬ (decide (P.contentLength = 0) || decide (P.contentLength = ullongMax)) = true := by
    simpa using hbad
  rw [not_or] at hbad
  by_cases hone : P.contentLength = 1
  · left
    intro rest
    rw [hturn P x _ hs, hturn P x _ hs, chunkData, chunkData, hone]
    simp
  right
  have hnext : ¬ (decide (P.contentLength - 1 = 0) ||
      decide (P.contentLength - 1 = ullongMax)) = true := by
    simp only [Bool.or_eq_true, decide_eq_true_eq]
    omega
  refine ⟨{ P with contentLength := P.contentLength - 1 }, [.mark .body 0], ?_,
    fun y rest _ _ => ?_⟩
  · rw [hturn P x _ hs, chunkData, if_neg hflag, if_neg hgood, List.length_singleton,
      Nat.min_eq_right (by omega)]
    dsimp only
    rw [if_neg (by omega)]
  · rw [hturn P x _ hs, hturn { P with contentLength := P.contentLength - 1 } y _ hs, chunkData,
      chunkData, if_neg hflag, if_neg hflag, if_neg hgood, if_neg hnext]
    dsimp only
    simp only [List.length_cons]
    have hmin : min P.contentLength (rest.length + 1 + 1) =
        min (P.contentLength - 1) (rest.length + 1) + 1 := by omega
    have hsub : P.contentLength - 1 - min (P.contentLength - 1) (rest.length + 1) =
        P.contentLength - (min (P.contentLength - 1) (rest.length + 1) + 1) := by omega
    simp only [hmin, hsub]
    exact ⟨rfl, rfl, sameOps_mark .body 1 []⟩

/-- **Turns on more than one byte.**  A turn on a buffer is the turn on its first byte, followed,
in the cases with a loop of their own, by the turn on the rest. -/
theorem turn_splits (hn : P.nread ≤ maxHeaderSize) (hc : P.contentLength ≤ ullongMax) :
    Splits set P x := by
  by_cases h1 : P.state = .headerField
  · exact splits_headerField h1 hn
  by_cases h2 : P.state = .headerValue
  · exact splits_headerValue h2 hn
  by_cases h3 : P.state = .bodyIdentity
  · exact splits_bodyIdentity h3 hc
  by_cases h4 : P.state = .bodyIdentityEof
  · exact splits_bodyIdentityEof h4
  by_cases h5 : P.state = .chunkData
  · exact splits_chunkData h5 hc
  left
  intro rest
  have hswitch : ∀ Q : Parser, Q.state = P.state → switch set Q x rest = switch set Q x [] := by
    intro Q hQ
    rw [switch.eq_def, switch.eq_def, hQ]
    cases hs : P.state <;> first | rfl | contradiction
  rw [turn, turn, counted, counted]
  dsimp only
  rw [hswitch P rfl, hswitch { P with nread := (P.nread + 1) % 2 ^ 32 } rfl]

end Splits

end Http

end Is2
