import Is2.Ext.HttpParser.Sound

/-!
# What a buffer comes to

`http_parser_execute` on a buffer, as long as it finds no error, is the scanner on the bytes of the
buffer, one after the other (`execute_scan`).  Two things have to be seen for that.  A turn on many
bytes is the turn on the first byte and then the turn on the rest (`turn_splits`), also where the
loop leaves bytes to skip.  And at the end of the buffer at most one mark is set.
-/

namespace Is2

namespace Http

open Stretches

/-- A result without an error. -/
def Fine (r : Option (List Call × Parser × ℕ)) (t : List Call × Parser × ℕ) : Prop :=
  r = some t ∧ t.2.1.httpErrno = .ok

/-- What is reported comes behind what has been reported. -/
def behind (R : List Call) (r : Option (List Call × Parser × ℕ)) :
    Option (List Call × Parser × ℕ) :=
  r.map fun t => (R ++ t.1, t.2)

/-- What follows on a turn. -/
def follow (set : Settings) (p : ℕ) (M : Marks DataKind) (rest : Bytes) :
    Turn → Option (List Call × Parser × ℕ)
  | .next n Q ops =>
      behind (run M (ops.map (Act.shift p))).2
        (loop set (n - 1) (p + 1) Q (run M (ops.map (Act.shift p))).1 rest)
  | .ret n Q ops => some ((run M (ops.map (Act.shift p))).2, Q, p + n)
  | .abort => none

section Loop

variable {set : Settings} {P Q P' : Parser} {M : Marks DataKind} {x : UInt8} {rest bytes : Bytes}
  {p n : ℕ} {R : List Call} {ops ops' : List Op} {t : List Call × Parser × ℕ}

lemma loop_cons : loop set 0 p P M (x :: rest) = follow set p M rest (turn set P x rest) := by
  rw [loop]
  cases turn set P x rest <;> rfl

lemma behind_behind (R R' : List Call) (r : Option (List Call × Parser × ℕ)) :
    behind R (behind R' r) = behind (R ++ R') r := by
  cases r <;> simp [behind]

lemma not_fine {T : Turn} (hT : ¬ T.Good) : ¬ Fine (follow set p M rest T) t := by
  rintro ⟨h, hok⟩
  cases T with
  | next => exact hT trivial
  | ret n Q ops =>
      obtain rfl := Option.some.inj h
      exact hT hok
  | abort => simp [follow] at h

/-- The turn on one byte goes on with the next one. -/
lemma turn_one (h : turn set P x [] = .next n Q ops) : n = 1 := by
  have hk := @keeps_turn set P x
  rw [h] at hk
  exact hk.one

/-- The loop always gets further. -/
lemma turn_pos (h : P.Sound) (hlen : rest.length ≤ 2 ^ 31)
    (ht : turn set P x rest = .next n Q ops) : 1 ≤ n := by
  rcases @turn_splits set _ x h.nread h.content with hs | ⟨Q', ops', h1, hs⟩
  · rw [hs] at ht
    exact (turn_one ht).ge
  · cases rest with
    | nil => exact (turn_one ht).ge
    | cons y rest =>
        rw [List.length_cons] at hlen
        have hsame := hs y rest (by omega) (Or.inl (by rw [ht]; trivial))
        rw [ht] at hsame
        cases hT : turn set Q' y rest with
        | next m R ops'' =>
            rw [hT] at hsame
            have := hsame.1
            omega
        | ret m R ops'' => rw [hT] at hsame; exact hsame.elim
        | abort => rw [hT] at hsame; exact hsame.elim

/-- The acts of the turn on the first byte, and those of the turn on the rest. -/
lemma SameOps.run_append {ops₁ ops ops₂ : List Op}
    (h : SameOps ops₁ (ops ++ ops₂.map (Act.shift 1)))
    (M : Marks DataKind) (p : ℕ) : run M (ops₁.map (Act.shift p)) =
      ((run (run M (ops.map (Act.shift p))).1 (ops₂.map (Act.shift (p + 1)))).1,
        (run M (ops.map (Act.shift p))).2 ++
          (run (run M (ops.map (Act.shift p))).1 (ops₂.map (Act.shift (p + 1)))).2) := by
  rw [h M p, List.map_append, List.map_map, Stretches.run_append]
  have hshift : (Act.shift p ∘ Act.shift 1 : Op → Op) = Act.shift (p + 1) := by
    funext a
    cases a <;> simp only [Function.comp, Act.shift] <;> congr 1 <;> omega
  rw [hshift]

/-- **A turn on the first byte.**  As far as there is no error, the loop may take the first byte
for itself. -/
lemma loop_stepped (h : P.Sound) (hlen : rest.length ≤ 2 ^ 31) :
    Fine (loop set 0 p P M (x :: rest)) t ↔ Fine (follow set p M rest (turn set P x [])) t := by
  rcases @turn_splits set _ x h.nread h.content with hs | ⟨Q, ops, h1, hs⟩
  · rw [loop_cons, hs rest]
  cases rest with
  | nil => rw [loop_cons]
  | cons y rest =>
      rw [List.length_cons] at hlen
      have hQ : Q.Sound := by
        have := @sound_turn set _ x [] h
        rw [h1] at this
        exact this.2
      rw [loop_cons, h1, follow, Nat.sub_self, loop_cons]
      by_cases hg : (turn set P x (y :: rest)).Good ∨ (turn set Q y rest).Good
      · -- the two turns go together
        have hsame := hs y rest (by omega) hg
        cases hT : turn set P x (y :: rest) with
        | next n R ops₁ =>
            cases hT' : turn set Q y rest with
            | next m R' ops₂ =>
                rw [hT, hT'] at hsame
                obtain ⟨rfl, rfl, hops⟩ := hsame
                have hm := turn_pos hQ (by omega) hT'
                obtain ⟨m, rfl⟩ : ∃ m', m = m' + 1 := ⟨m - 1, by omega⟩
                rw [follow, follow, behind_behind, hops.run_append]
                rfl
            | ret => rw [hT, hT'] at hsame; exact hsame.elim
            | abort => rw [hT, hT'] at hsame; exact hsame.elim
        | ret n R ops₁ =>
            cases hT' : turn set Q y rest with
            | ret m R' ops₂ =>
                rw [hT, hT'] at hsame
                obtain ⟨rfl, rfl, hops⟩ := hsame
                rw [follow, follow, hops.run_append, behind, Option.map_some,
                  show p + (m + 1) = p + 1 + m by omega]
            | next => rw [hT, hT'] at hsame; exact hsame.elim
            | abort => rw [hT, hT'] at hsame; exact hsame.elim
        | abort =>
            cases hT' : turn set Q y rest with
            | abort => rfl
            | next => rw [hT, hT'] at hsame; exact hsame.elim
            | ret => rw [hT, hT'] at hsame; exact hsame.elim
      · rw [not_or] at hg
        refine iff_of_false (not_fine hg.1) ?_
        rintro ⟨he, hok⟩
        obtain ⟨t', ht', rfl⟩ := Option.map_eq_some_iff.mp he
        exact not_fine hg.2 ⟨ht', hok⟩

/-- At most one mark is set, so that the last assertion holds. -/
lemma one_mark {o : Option DataKind} {b : ℕ} (h : Fits lazyKind o b M) :
    ¬ 1 < (kinds.filter fun k => (M k).isSome).length := by
  intro hlt
  have hset : ∀ k ∈ kinds.filter fun k => (M k).isSome, o = some k := by
    intro k hk
    obtain ⟨s, hs⟩ := Option.isSome_iff_exists.mp (List.mem_filter.mp hk).2
    exact (h.only k s hs).1
  have hnodup : (kinds.filter fun k => (M k).isSome).Nodup := List.Nodup.filter _ (by decide)
  generalize (kinds.filter fun k => (M k).isSome) = ks at hset hnodup hlt
  rcases ks with _ | ⟨a, _ | ⟨b, ks⟩⟩
  · simp at hlt
  · simp at hlt
  · have h1 := hset a List.mem_cons_self
    have h2 := hset b (List.mem_cons_of_mem _ List.mem_cons_self)
    obtain rfl := Option.some.inj (h1.symm.trans h2)
    exact (List.nodup_cons.mp hnodup).1 List.mem_cons_self

/-- Without a mark, nothing is flushed. -/
lemma run_flushes {b : ℕ} (h : Fits lazyKind none b M) (q : ℕ) :
    (run (N := Notice) M (flushes kinds q)).2 = [] :=
  Scanner.flushes_none (fun _ => h.none_of_ne (by simp)) _ _

/-- **The loop is the scanner**, up to the flush at the end, where it finds no error. -/
lemma loop_scan (h : P.Sound) (hfit : Fits lazyKind (openKind P.state) (p + 1) M)
    (hlen : bytes.length ≤ 2 ^ 31) :
    Fine (loop set 0 p P M bytes) (R, P', p + bytes.length) ↔
      ∃ A, (scanner set).scan P p bytes = some (P', A) ∧
        R = (run M (A ++ flushes kinds (p + bytes.length))).2 := by
  induction bytes generalizing P M R p with
  | nil =>
      rw [loop, if_neg (one_mark hfit)]
      constructor
      · rintro ⟨he, -⟩
        obtain ⟨rfl, rfl⟩ : (run M (flushes kinds p)).2 = R ∧ P = P' := by simpa using he
        exact ⟨[], rfl, rfl⟩
      · rintro ⟨A, hscan, rfl⟩
        obtain ⟨rfl, rfl⟩ := Prod.mk.inj (Option.some.inj hscan)
        exact ⟨rfl, h.errno⟩
  | cons x rest ih =>
      rw [List.length_cons] at hlen
      rw [loop_stepped h (by omega)]
      have hk := @keeps_turn set P x
      have hs := @sound_turn set _ x [] h
      cases hT : turn set P x [] with
      | next n Q ops =>
          rw [hT] at hk hs
          have hstep : (scanner set).step P x = some (Q, ops) := by
            simp only [scanner, byteStep, hT]
          have hlast : (scanner set).last P x = false := by simp only [scanner, hT]
          rw [Scanner.scan_cons_of hstep (by simp [hlast]), follow, turn_one hT, Nat.sub_self,
            List.length_cons, show p + (rest.length + 1) = p + 1 + rest.length by omega]
          have hfit' := (hfit.step hk.shape).mono (Nat.le_succ (p + 1))
          have hrest := fun R' => ih (R := R') hs.2 hfit' (by omega)
          have happ := fun A : List Op => Stretches.run_append M (ops.map (Act.shift p))
            (A ++ flushes kinds (p + 1 + rest.length))
          constructor
          · rintro ⟨he, hok⟩
            obtain ⟨⟨R', Q', q⟩, hloop, he⟩ := Option.map_eq_some_iff.mp he
            obtain ⟨rfl, hq⟩ := Prod.mk.inj he
            obtain ⟨rfl, rfl⟩ := Prod.mk.inj hq
            obtain ⟨A, hscan, rfl⟩ := (hrest R').mp ⟨hloop, hok⟩
            refine ⟨ops.map (Act.shift p) ++ A, by rw [hscan]; rfl, ?_⟩
            rw [List.append_assoc, happ]
          · rintro ⟨A, hscan, rfl⟩
            obtain ⟨⟨Q', A'⟩, hscan', he⟩ := Option.map_eq_some_iff.mp hscan
            obtain ⟨rfl, rfl⟩ := Prod.mk.inj he
            obtain ⟨hloop, hok⟩ := (hrest _).mpr ⟨A', hscan', rfl⟩
            refine ⟨?_, hok⟩
            rw [hloop, behind, Option.map_some, List.append_assoc, happ]
      | ret n Q ops =>
          rw [hT] at hk hs
          have hstep : (scanner set).step P x =
              if Q.httpErrno = .ok then some (Q, ops) else none := by
            simp only [scanner, byteStep, hT]
          have hlast : (scanner set).last P x = true := by simp only [scanner, hT]
          rw [follow, Scanner.scan, hlast, hstep, List.length_cons]
          constructor
          · rintro ⟨he, hok⟩
            obtain ⟨rfl, hq⟩ := Prod.mk.inj (Option.some.inj he)
            obtain ⟨rfl, hn⟩ := Prod.mk.inj hq
            obtain ⟨hkept, hopen, -⟩ := hk hok
            have hone := hkept.one
            obtain rfl : rest = [] := List.length_eq_zero_iff.mp (by omega)
            have hok' : Q.httpErrno = .ok := hok
            refine ⟨ops.map (Act.shift p), by simp [hok', Scanner.scan], ?_⟩
            have hfit' := hfit.step hkept.shape
            rw [hopen] at hfit'
            rw [Stretches.run_append, run_flushes hfit', List.append_nil]
          · rintro ⟨A, hscan, rfl⟩
            cases rest with
            | cons => simp at hscan
            | nil =>
                by_cases hok : Q.httpErrno = .ok
                · obtain ⟨hkept, hopen, -⟩ := hk hok
                  have hfit' := hfit.step hkept.shape
                  rw [hopen] at hfit'
                  rw [if_pos hok] at hscan
                  obtain ⟨rfl, rfl⟩ : Q = P' ∧ ops.map (Act.shift p) = A := by
                    simpa [Scanner.scan] using hscan
                  refine ⟨?_, hok⟩
                  rw [Stretches.run_append, run_flushes hfit', List.append_nil, hkept.one]
                  rfl
                · rw [if_neg hok] at hscan
                  simp at hscan
      | abort =>
          rw [hT] at hs
          exact hs.elim

end Loop

/-! ## A buffer -/

section Buffer

variable {set : Settings} {P P' : Parser} {bytes : Bytes} {data : ℕ} {R : List Call}

lemma startMarks_eq (P : Parser) (data : ℕ) :
    startMarks P.state data = (scanner set).resume P data := by
  have hstate : ∀ (s : State) (k : DataKind), startMarks s data k =
      if openKind s = some k ∧ lazyKind k = false then some data else none := by
    intro s k
    cases s with
    | url s => cases s <;> cases k <;> rfl
    | _ => cases k <;> rfl
  funext k
  exact hstate P.state k

lemma fits_resume (P : Parser) (data : ℕ) :
    Fits lazyKind (openKind P.state) (data + 1) ((scanner set).resume P data) := by
  constructor
  · intro k s hs
    simp only [Scanner.resume] at hs
    split at hs
    case isTrue ho =>
        obtain rfl := Option.some.inj hs
        exact ⟨ho.1, Nat.lt_succ_self _⟩
    case isFalse => simp at hs
  · intro k hk ho
    rw [Scanner.resume, if_pos ⟨ho, hk⟩]
    rfl

/-- **`http_parser_execute` is the scanner**, where it finds no error. -/
theorem execute_scan (h : P.Sound) (hne : bytes ≠ []) (hlen : bytes.length ≤ 2 ^ 31) :
    Fine (execute set P data bytes) (R, P', bytes.length) ↔
      ∃ A, (scanner set).scan P data bytes = some (P', A) ∧
        R = (run ((scanner set).resume P data) (A ++ flushes kinds (data + bytes.length))).2 := by
  rw [execute, if_neg (by simp [h.errno]), if_neg hne, @startMarks_eq set,
    ← loop_scan h (fits_resume P data) hlen]
  have hpos := List.length_pos_of_ne_nil hne
  constructor
  · rintro ⟨he, hok⟩
    obtain ⟨⟨R', Q, q⟩, hloop, he⟩ := Option.map_eq_some_iff.mp he
    obtain ⟨rfl, hq⟩ := Prod.mk.inj he
    obtain ⟨rfl, hq⟩ : Q = P' ∧ q - data = bytes.length := Prod.mk.inj hq
    obtain rfl : q = data + bytes.length := by omega
    exact ⟨hloop, hok⟩
  · rintro ⟨he, hok⟩
    refine ⟨?_, hok⟩
    rw [he, Option.map_some, Nat.add_sub_cancel_left]

end Buffer

end Http

end Is2
