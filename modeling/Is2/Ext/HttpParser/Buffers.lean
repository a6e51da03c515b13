import Is2.Ext.HttpParser.Runs

/-!
# One buffer after the other

The server reads what a connection has for it, block by block, and hands every block to
`http_parser_execute`; it gives up when the parser has not parsed all of a block (`feed`).  How the
stream is cut into blocks makes no difference (`feed_cut`): with every cutting the server gives up
at an error, or with every cutting it ends with the same parser, and every block reports its part
of the same calls.  The one exception is a stream that goes on behind a whole message with an
upgrade, where the parser stops and returns without an error.

The assertions of `http_parser_execute` hold for all blocks, also for those after an error.
-/

namespace Is2

namespace Http

open Stretches

section Assertions

variable {set : Settings} {P Q P' : Parser} {M : Marks DataKind} {x : UInt8} {rest bytes : Bytes}
  {p n : ℕ} {ops : List Op}

/-- The marks fit behind a turn on many bytes. -/
lemma turn_fits (h : P.Sound) (hlen : rest.length ≤ 2 ^ 31)
    (ht : turn set P x rest = .next n Q ops) (hfit : Fits lazyKind (openKind P.state) (p + 1) M) :
    Fits lazyKind (openKind Q.state) (p + n) (run M (ops.map (Act.shift p))).1 := by
  induction rest generalizing P M x p n ops with
  | nil =>
      have hk := @keeps_turn set P x
      rw [ht] at hk
      rw [hk.one]
      exact hfit.step hk.shape
  | cons y rest ih =>
      have hone : turn set P x [] = .next n Q ops →
          Fits lazyKind (openKind Q.state) (p + n) (run M (ops.map (Act.shift p))).1 := by
        intro h1
        have hk := @keeps_turn set P x
        rw [h1] at hk
        rw [hk.one]
        exact hfit.step hk.shape
      rw [List.length_cons] at hlen
      rcases @turn_splits set _ x h.nread h.content with hs | ⟨Q₁, ops₁, h1, hs⟩
      · exact hone ((hs (y :: rest)).symm.trans ht)
      · have hsame := hs y rest (by omega) (Or.inl (by rw [ht]; trivial))
        have hk := @keeps_turn set P x
        have hQ₁ := @sound_turn set _ x [] h
        rw [h1] at hk hQ₁
        rw [ht] at hsame
        cases hT : turn set Q₁ y rest with
        | next m R ops₂ =>
            rw [hT] at hsame
            obtain ⟨rfl, rfl, hops⟩ := hsame
            have hfit' := (hfit.step hk.shape).mono (Nat.le_succ (p + 1))
            have := ih hQ₁.2 (by omega) hT hfit'
            rw [hops.run_append, show p + (m + 1) = p + 1 + m by omega]
            exact this
        | ret => rw [hT] at hsame; exact hsame.elim
        | abort => rw [hT] at hsame; exact hsame.elim

/-- Bytes to skip are skipped. -/
lemma loop_skip (k : ℕ) : loop set k p P M bytes =
    loop set 0 (p + min k bytes.length) P M (bytes.drop k) := by
  induction bytes generalizing k p with
  | nil => cases k <;> rfl
  | cons x rest ih =>
      cases k with
      | zero => rfl
      | succ k =>
          rw [loop, ih, List.drop_succ_cons, List.length_cons]
          congr 1
          omega

/-- **The loop ends without a failed assertion.**  It ends in front of the end of the buffer with
an error, or in the buffer without one. -/
lemma loop_sound (h : P.Sound) (hfit : Fits lazyKind (openKind P.state) (p + 1) M)
    (hlen : bytes.length ≤ 2 ^ 31) : ∃ R Q q, loop set 0 p P M bytes = some (R, Q, q) ∧
      if Q.httpErrno = .ok then Q.Sound ∧ q ≤ p + bytes.length else q < p + bytes.length := by
  induction hl : bytes.length using Nat.strong_induction_on generalizing bytes P M p with
  | _ l ih =>
      cases bytes with
      | nil =>
          subst hl
          refine ⟨_, P, p, by rw [loop, if_neg (one_mark hfit)], ?_⟩
          rw [if_pos h.errno]
          exact ⟨h, Nat.le_refl _⟩
      | cons x rest =>
          rw [List.length_cons] at hlen hl
          have hs := @sound_turn set _ x rest h
          rw [loop_cons]
          cases hT : turn set P x rest with
          | next n Q ops =>
              rw [hT] at hs
              have hn := turn_pos h (by omega) hT
              have hfit' := turn_fits h (by omega) hT hfit
              obtain ⟨hle, hQ⟩ := hs
              have hmin : min (n - 1) rest.length = n - 1 := by omega
              rw [follow, loop_skip, hmin, show p + 1 + (n - 1) = p + n by omega]
              have hdrop : (rest.drop (n - 1)).length = rest.length - (n - 1) :=
                List.length_drop
              obtain ⟨R, Q', q, hloop, hq⟩ := ih _ (by omega) hQ (hfit'.mono (Nat.le_succ _))
                (by omega) hdrop
              refine ⟨_, Q', q, by rw [hloop]; rfl, ?_⟩
              rw [show p + l = p + n + (rest.length - (n - 1)) by omega]
              exact hq
          | ret n Q ops =>
              rw [hT, Turn.Sound] at hs
              refine ⟨_, Q, p + n, rfl, ?_⟩
              split at hs
              case isTrue hok =>
                  rw [if_pos hok]
                  exact ⟨hs.2, by omega⟩
              case isFalse hok =>
                  rw [if_neg hok]
                  omega
          | abort =>
              rw [hT] at hs
              exact hs.elim

/-- `http_parser_execute` ends without a failed assertion, and says that it has parsed all of the
bytes only if there is no error. -/
lemma execute_sound (h : P.Sound) (data : ℕ) (hlen : bytes.length ≤ 2 ^ 31) :
    ∃ R Q n, execute set P data bytes = some (R, Q, n) ∧
      if Q.httpErrno = .ok then Q.Sound ∧ n ≤ bytes.length else bytes ≠ [] → n < bytes.length := by
  rw [execute, if_neg (by simp [h.errno])]
  split
  case isTrue he =>
      subst he
      split
      case h_5 => exact ⟨_, _, _, rfl, by rw [if_neg (by simp)]; simp⟩
      all_goals exact ⟨_, _, _, rfl, by rw [if_pos h.errno]; exact ⟨h, Nat.le_refl _⟩⟩
  case isFalse hne =>
      obtain ⟨R, Q, q, hloop, hq⟩ := @loop_sound set _ _ _ data h
        (@fits_resume set P data) hlen
      refine ⟨R, Q, q - data, by rw [@startMarks_eq set, hloop]; rfl, ?_⟩
      have hpos := List.length_pos_of_ne_nil hne
      split at hq
      case isTrue hok =>
          rw [if_pos hok]
          exact ⟨hq.1, by omega⟩
      case isFalse hok =>
          rw [if_neg hok]
          omega

/-- Calls of `http_parser_execute` for buffers at any places, whatever the results. -/
def calls (set : Settings) : Parser → List (ℕ × Bytes) → Option Parser
  | P, [] => some P
  | P, (data, b) :: bs => (execute set P data b).bind fun r => calls set r.2.1 bs

lemma calls_error (herr : P.httpErrno ≠ .ok) (bs : List (ℕ × Bytes)) :
    calls set P bs = some P := by
  induction bs with
  | nil => rfl
  | cons b bs ih =>
      obtain ⟨data, b⟩ := b
      rw [calls, execute, if_pos herr, Option.bind_some]
      exact ih

lemma calls_sound (h : P.Sound) (bs : List (ℕ × Bytes)) (hlen : ∀ b ∈ bs, b.2.length ≤ 2 ^ 31) :
    ∃ Q, calls set P bs = some Q ∧ (Q.httpErrno = .ok → Q.Sound) := by
  induction bs generalizing P with
  | nil => exact ⟨P, rfl, fun _ => h⟩
  | cons b bs ih =>
      obtain ⟨data, b⟩ := b
      obtain ⟨R, Q, n, he, hQ⟩ := @execute_sound set _ _ h data (hlen _ List.mem_cons_self)
      rw [calls, he, Option.bind_some]
      by_cases hok : Q.httpErrno = .ok
      · rw [if_pos hok] at hQ
        exact ih hQ.1 fun b hb => hlen b (List.mem_cons_of_mem _ hb)
      · exact ⟨Q, calls_error hok bs, fun h => absurd h hok⟩

/-- **No assertion of `http_parser_execute` fails**, whatever the buffers are, how many there are,
and whatever was wrong with the ones before.  As long as there is no error, the members keep their
bounds, and the parser is as its state asks for. -/
theorem assertions_hold (set : Settings) (t : ParserType) (bs : List (ℕ × Bytes))
    (hlen : ∀ b ∈ bs, b.2.length ≤ 2 ^ 31) :
    ∃ P, calls set (.init t) bs = some P ∧ (P.httpErrno = .ok → P.Sound) :=
  calls_sound (sound_init t) bs hlen

/-- A request in two blocks. -/
def getBlocks : List Bytes := [ascii "GET / HT", ascii "TP/1.1\r\n\r\n"]

theorem assertions_hold_get :
    ∃ P, calls ⟨fun _ => 0⟩ (.init .request) (getBlocks.map fun b => (0, b)) = some P ∧
      (P.httpErrno = .ok → P.Sound) :=
  assertions_hold _ _ _ (by decide +kernel)

end Assertions

/-! ## Cutting a stream -/

/-- What the server does with the blocks of a stream, the first of which is at `data`: it hands
them to the parser, and gives up where a block is not parsed to its end. -/
def feed (set : Settings) : Parser → ℕ → List Bytes → Option (List (List Call) × Parser)
  | P, _, [] => some ([], P)
  | P, data, b :: bs =>
      match execute set P data b with
      | none => none
      | some (R, Q, n) =>
          if n < b.length then none
          else (feed set Q (data + b.length) bs).map fun r => (R :: r.1, r.2)

/-- A way to cut a stream into blocks. -/
structure Cut (stream : Bytes) (bufs : List Bytes) : Prop where
  flat : bufs.flatten = stream
  some : ∀ b ∈ bufs, b ≠ []
  short : ∀ b ∈ bufs, b.length ≤ 2 ^ 31

/-- What the blocks see of some calls. -/
def clips (R : List Call) : ℕ → List Bytes → List (List Call)
  | _, [] => []
  | lo, b :: bs => R.filterMap (clip lazyKind lo (lo + b.length)) :: clips R (lo + b.length) bs

section Cutting

variable {set : Settings} {P P' u : Parser} {xs stream : Bytes} {bufs : List Bytes} {data p : ℕ}
  {Rs : List (List Call)} {A B : List Op}

lemma scan_sound (h : P.Sound) (hscan : (scanner set).scan P p xs = some (u, B)) : u.Sound := by
  induction xs generalizing P p B with
  | nil =>
      obtain ⟨rfl, -⟩ := Prod.mk.inj (Option.some.inj hscan)
      exact h
  | cons x xs ih =>
      obtain ⟨Q, acts, A', hstep, hscan', -, -⟩ := Scanner.scan_cons hscan
      refine ih ?_ hscan'
      have hs := @sound_turn set _ x [] h
      simp only [scanner, byteStep] at hstep
      cases hT : turn set P x [] with
      | next n R ops =>
          rw [hT] at hs hstep
          obtain ⟨rfl, -⟩ := Prod.mk.inj (Option.some.inj hstep)
          exact hs.2
      | ret n R ops =>
          rw [hT, Turn.Sound] at hs
          rw [hT] at hstep
          dsimp only at hstep
          split at hstep
          case isTrue hok =>
              obtain ⟨rfl, -⟩ := Prod.mk.inj (Option.some.inj hstep)
              rw [if_pos hok] at hs
              exact hs.2
          case isFalse => simp at hstep
      | abort =>
          rw [hT] at hstep
          simp at hstep

/-- A block that is parsed to its end is scanned. -/
lemma execute_full (h : P.Sound) {b : Bytes} (hb : b ≠ []) (hlen : b.length ≤ 2 ^ 31)
    {R : List Call} {Q : Parser} {n : ℕ} (he : execute set P data b = some (R, Q, n))
    (hn : ¬ n < b.length) : ∃ C, (scanner set).scan P data b = some (Q, C) := by
  obtain ⟨R', Q', n', he', hQ⟩ := @execute_sound set _ _ h data hlen
  rw [he] at he'
  obtain ⟨rfl, rfl, rfl⟩ : R = R' ∧ Q = Q' ∧ n = n' := by simpa using he'
  by_cases hok : Q.httpErrno = .ok
  · rw [if_pos hok] at hQ
    obtain rfl : n = b.length := by omega
    obtain ⟨C, hC, -⟩ := (execute_scan h hb hlen).mp ⟨he, hok⟩
    exact ⟨C, hC⟩
  · rw [if_neg hok] at hQ
    exact absurd (hQ hb) hn

/-- What is parsed block by block is scanned from its start to its end. -/
lemma feed_endless (h : P.Sound) (hb : ∀ b ∈ bufs, b ≠ []) (hlen : ∀ b ∈ bufs, b.length ≤ 2 ^ 31)
    (hfeed : feed set P data bufs = some (Rs, P')) :
    ∃ A, (scanner set).endless.scan P data bufs.flatten = some (P', A) := by
  induction bufs generalizing P data Rs with
  | nil =>
      obtain ⟨-, rfl⟩ := Prod.mk.inj (Option.some.inj hfeed)
      exact ⟨[], rfl⟩
  | cons b bs ih =>
      rw [feed] at hfeed
      split at hfeed
      case h_1 => simp at hfeed
      case h_2 R Q n he =>
          split at hfeed
          case isTrue => simp at hfeed
          case isFalse hn =>
              obtain ⟨⟨Rs', Q'⟩, hrest, heq⟩ := Option.map_eq_some_iff.mp hfeed
              obtain ⟨-, rfl⟩ := Prod.mk.inj heq
              obtain ⟨C, hC⟩ := execute_full h (hb b List.mem_cons_self)
                (hlen b List.mem_cons_self) he hn
              obtain ⟨A, hA⟩ := ih (scan_sound h hC)
                (fun b hmem => hb b (List.mem_cons_of_mem _ hmem))
                (fun b hmem => hlen b (List.mem_cons_of_mem _ hmem)) hrest
              refine ⟨C ++ A, ?_⟩
              rw [List.flatten_cons, Scanner.endless_append (Scanner.scan_endless hC), hA]
              rfl

lemma mem_kinds (k : DataKind) : k ∈ kinds := by cases k <;> decide

/-- A stream that can be scanned is parsed with every cutting, and every block sees its part of
what there is to report. -/
lemma feed_clips (h : P.Sound) (hopen : openKind P.state = none) (hb : ∀ b ∈ bufs, b ≠ [])
    (hlen : ∀ b ∈ bufs, b.length ≤ 2 ^ 31) (hxs : (scanner set).scan P 0 xs = some (u, B))
    (hscan : (scanner set).scan P 0 (xs ++ bufs.flatten) = some (P', A)) :
    feed set u xs.length bufs = some (clips (run (fun _ => none)
      (A ++ flushes kinds (xs ++ bufs.flatten).length)).2 xs.length bufs, P') := by
  induction bufs generalizing xs u B with
  | nil =>
      rw [List.flatten_nil, List.append_nil, hxs] at hscan
      obtain ⟨rfl, -⟩ := Prod.mk.inj (Option.some.inj hscan)
      rfl
  | cons b bs ih =>
      have hne := hb b List.mem_cons_self
      have hshort := hlen b List.mem_cons_self
      rw [List.flatten_cons, ← List.append_assoc] at hscan ⊢
      obtain ⟨u', v, B', C, hB', hC, hreports⟩ :=
        Scanner.reports_buffer (scanner_lawful set) mem_kinds (s := P) hopen hne hscan
      rw [hxs] at hB'
      obtain ⟨rfl, rfl⟩ := Prod.mk.inj (Option.some.inj hB')
      obtain ⟨he, -⟩ := (execute_scan (scan_sound h hxs) hne hshort).mpr ⟨C, hC, rfl⟩
      -- the part up to the end of the block
      obtain ⟨w, BC, D, hBC, -, -⟩ := Scanner.scan_append hscan
      obtain ⟨w₁, B₁, C₁, h1, h2, -⟩ := Scanner.scan_append hBC
      rw [hxs] at h1
      obtain ⟨rfl, rfl⟩ := Prod.mk.inj (Option.some.inj h1)
      rw [Nat.zero_add, hC] at h2
      obtain ⟨rfl, rfl⟩ := Prod.mk.inj (Option.some.inj h2)
      have hrest := ih (fun b hmem => hb b (List.mem_cons_of_mem _ hmem))
        (fun b hmem => hlen b (List.mem_cons_of_mem _ hmem)) hBC hscan
      rw [List.length_append] at hrest
      rw [feed, he]
      dsimp only
      rw [if_neg (Nat.lt_irrefl _), hrest, hreports]
      rfl

lemma endless_lawful (set : Settings) : (scanner set).endless.Lawful := scanner_lawful set

/-- What the blocks report, when all of them are parsed to their ends: their parts of what there is
to report of the stream. -/
lemma feed_reports (hopen : openKind P.state = none) (hb : ∀ b ∈ bufs, b ≠ [])
    (hlen : ∀ b ∈ bufs, b.length ≤ 2 ^ 31)
    (hxs : (scanner set).endless.scan P 0 xs = some (u, B)) (hu : u.Sound)
    (hscan : (scanner set).endless.scan P 0 (xs ++ bufs.flatten) = some (P', A))
    (hfeed : feed set u xs.length bufs = some (Rs, P')) :
    Rs = clips (run (fun _ => none) (A ++ flushes kinds (xs ++ bufs.flatten).length)).2
      xs.length bufs := by
  induction bufs generalizing xs u B Rs with
  | nil =>
      obtain ⟨rfl, -⟩ := Prod.mk.inj (Option.some.inj hfeed)
      rfl
  | cons b bs ih =>
      have hne := hb b List.mem_cons_self
      have hshort := hlen b List.mem_cons_self
      rw [feed] at hfeed
      split at hfeed
      case h_1 => simp at hfeed
      case h_2 R Q n he =>
          split at hfeed
          case isTrue => simp at hfeed
          case isFalse hn =>
              obtain ⟨⟨Rs', Q'⟩, hrest, heq⟩ := Option.map_eq_some_iff.mp hfeed
              obtain ⟨rfl, rfl⟩ := Prod.mk.inj heq
              obtain ⟨C, hC⟩ := execute_full hu hne hshort he hn
              obtain ⟨he', -⟩ := (execute_scan hu hne hshort).mpr ⟨C, hC, rfl⟩
              rw [he] at he'
              obtain ⟨rfl, -⟩ := Prod.mk.inj (Option.some.inj he')
              rw [List.flatten_cons, ← List.append_assoc] at hscan ⊢
              obtain ⟨u', v, B', C', hB', hC', hreports⟩ := Scanner.reports_buffer
                (endless_lawful set) mem_kinds (s := P) hopen hne hscan
              rw [hxs] at hB'
              obtain ⟨rfl, rfl⟩ := Prod.mk.inj (Option.some.inj hB')
              have hCe := Scanner.scan_endless hC
              rw [hCe] at hC'
              obtain ⟨rfl, rfl⟩ := Prod.mk.inj (Option.some.inj hC')
              have hmore : (scanner set).endless.scan P 0 (xs ++ b) = some (Q, B ++ C) := by
                rw [Scanner.endless_append hxs, Nat.zero_add, hCe]
                rfl
              have := ih (fun b hmem => hb b (List.mem_cons_of_mem _ hmem))
                (fun b hmem => hlen b (List.mem_cons_of_mem _ hmem)) hmore (scan_sound hu hC) hscan
                (by rw [List.length_append]; exact hrest)
              have hl : (xs ++ b).length = xs.length + b.length := List.length_append
              rw [hl] at this
              rw [clips]
              exact congrArg₂ (· :: ·) hreports this

/-- The parser stopped behind a whole message, with an upgrade. -/
lemma last_upgrade {x : UInt8} {acts : List Op} (hlast : (scanner set).last P x = true)
    (hstep : (scanner set).step P x = some (Q, acts)) :
    openKind Q.state = none ∧ Q.upgrade = true ∧ EndsMessage acts := by
  have hk := @keeps_turn set P x
  simp only [scanner, byteStep] at hlast hstep
  cases hT : turn set P x [] with
  | next n R ops =>
      rw [hT] at hlast
      simp at hlast
  | ret n R ops =>
      rw [hT] at hk hstep
      dsimp only at hstep
      split at hstep
      case isTrue hok =>
          obtain ⟨rfl, rfl⟩ := Prod.mk.inj (Option.some.inj hstep)
          exact (hk hok).2
      case isFalse => simp at hstep
  | abort =>
      rw [hT] at hlast
      simp at hlast

/-! ## Where a stream is given up -/

/-- The error with which the server is left where it gives up. -/
def feedError (set : Settings) : Parser → ℕ → List Bytes → Option Errno
  | _, _, [] => none
  | P, data, b :: bs =>
      match execute set P data b with
      | none => none
      | some (_, Q, n) =>
          if n < b.length then some Q.httpErrno else feedError set Q (data + b.length) bs

lemma feed_none_of_feedError {e : Errno} (h : feedError set P data bufs = some e) :
    feed set P data bufs = none := by
  induction bufs generalizing P data with
  | nil => simp [feedError] at h
  | cons b bs ih =>
      rw [feedError] at h
      rw [feed]
      split at h
      case h_1 => rfl
      case h_2 =>
          split_ifs at h with hn
          · exact if_pos hn
          · rw [if_neg hn, ih h]
            rfl

lemma Fine.behind {r : Option (List Call × Parser × ℕ)} {R : List Call} {t : Parser × ℕ}
    (h : Fine r (R, t)) (R' : List Call) : Fine (behind R' r) (R' ++ R, t) := by
  obtain ⟨rfl, hok⟩ := h
  exact ⟨rfl, hok⟩

lemma Fine.of_behind {r : Option (List Call × Parser × ℕ)} {R' : List Call}
    {t : List Call × Parser × ℕ} (h : Fine (Http.behind R' r) t) : ∃ t', Fine r t' := by
  obtain ⟨he, hok⟩ := h
  obtain ⟨t', rfl, rfl⟩ := Option.map_eq_some_iff.mp he
  exact ⟨t', rfl, hok⟩

/-- **The loop, as the scan comes out.** -/
lemma loop_verdict (h : P.Sound) {M : Marks DataKind}
    (hfit : Fits lazyKind (openKind P.state) (p + 1) M) {bytes : Bytes}
    (hlen : bytes.length ≤ 2 ^ 31) :
    match (scanner set).verdict P bytes with
    | .through Q => ∃ R, Fine (loop set 0 p P M bytes) (R, Q, p + bytes.length)
    | .refused => ¬ ∃ t, Fine (loop set 0 p P M bytes) t
    | .stopped Q left => left.length < bytes.length ∧
        ∃ R, Fine (loop set 0 p P M bytes) (R, Q, p + (bytes.length - left.length)) := by
  induction bytes generalizing P M p with
  | nil => exact ⟨_, by rw [loop, if_neg (one_mark hfit)]; rfl, h.errno⟩
  | cons x rest ih =>
      rw [List.length_cons] at hlen
      have hstepped : ∀ t, Fine (loop set 0 p P M (x :: rest)) t ↔
          Fine (follow set p M rest (turn set P x [])) t := fun t => loop_stepped h (by omega)
      simp only [hstepped]
      have hk := @keeps_turn set P x
      have hs := @sound_turn set _ x [] h
      cases hT : turn set P x [] with
      | next n Q ops =>
          rw [hT] at hk hs
          have hstep : (scanner set).step P x = some (Q, ops) := by
            simp only [scanner, byteStep, hT]
          have hlast : (scanner set).last P x = false := by simp only [scanner, hT]
          have hfit' := (hfit.step hk.shape).mono (Nat.le_succ (p + 1))
          have hrest := ih hs.2 hfit' (by omega)
          have hnext : follow set p M rest (.next n Q ops) =
              behind (run M (ops.map (Act.shift p))).2
                (loop set 0 (p + 1) Q (run M (ops.map (Act.shift p))).1 rest) := by
            rw [follow, turn_one hT, Nat.sub_self]
          rw [Scanner.verdict, hstep, hnext]
          dsimp only
          rw [hlast, if_neg (by simp)]
          cases hv : (scanner set).verdict Q rest with
          | through u =>
              rw [hv] at hrest
              obtain ⟨R, hR⟩ := hrest
              rw [List.length_cons, Nat.add_comm rest.length, ← Nat.add_assoc]
              exact ⟨_, hR.behind _⟩
          | refused =>
              rw [hv] at hrest
              rintro ⟨t, ht⟩
              exact hrest ht.of_behind
          | stopped u left =>
              rw [hv] at hrest
              obtain ⟨hleft, R, hR⟩ := hrest
              rw [List.length_cons]
              refine ⟨by omega, (run M (ops.map (Act.shift p))).2 ++ R, ?_⟩
              rw [show p + (rest.length + 1 - left.length) =
                p + 1 + (rest.length - left.length) by omega]
              exact hR.behind _
      | ret n Q ops =>
          rw [hT] at hk
          have hlast : (scanner set).last P x = true := by simp only [scanner, hT]
          by_cases hok : Q.httpErrno = .ok
          · have hstep : (scanner set).step P x = some (Q, ops) := by
              simp only [scanner, byteStep, hT, if_pos hok]
            rw [Scanner.verdict, hstep]
            dsimp only
            rw [hlast, if_pos rfl, List.length_cons]
            refine ⟨Nat.lt_succ_self _, (run M (ops.map (Act.shift p))).2, ?_, hok⟩
            rw [follow, (hk hok).1.one, show rest.length + 1 - rest.length = 1 by omega]
          · have hstep : (scanner set).step P x = none := by
              simp only [scanner, byteStep, hT, if_neg hok]
            rw [Scanner.verdict, hstep]
            rintro ⟨t, ht⟩
            exact not_fine (T := .ret n Q ops) hok ht
      | abort =>
          rw [hT] at hs
          exact hs.elim

/-- **`http_parser_execute`, as the scan comes out**: it parses all of the buffer, ends with an
error, or stops without one. -/
lemma execute_verdict (h : P.Sound) {b : Bytes} (hb : b ≠ []) (hlen : b.length ≤ 2 ^ 31) :
    match (scanner set).verdict P b with
    | .through Q => ∃ R, Fine (execute set P data b) (R, Q, b.length)
    | .refused => ∃ R Q n, execute set P data b = some (R, Q, n) ∧ Q.httpErrno ≠ .ok ∧ n < b.length
    | .stopped Q left => left.length < b.length ∧
        ∃ R, Fine (execute set P data b) (R, Q, b.length - left.length) := by
  have hloop := @loop_verdict set P data h _ (@fits_resume set P data) b hlen
  have hexec : execute set P data b =
      (loop set 0 data P ((scanner set).resume P data) b).map fun r =>
        (r.1, r.2.1, r.2.2 - data) := by
    rw [execute, if_neg (by simp [h.errno]), if_neg hb, @startMarks_eq set]
  have hfine : ∀ {R Q n}, Fine (loop set 0 data P ((scanner set).resume P data) b)
      (R, Q, data + n) → Fine (execute set P data b) (R, Q, n) := by
    rintro R Q n ⟨he, hok⟩
    exact ⟨by rw [hexec, he, Option.map_some, Nat.add_sub_cancel_left], hok⟩
  cases hv : (scanner set).verdict P b with
  | through Q =>
      rw [hv] at hloop
      exact hloop.imp fun R hR => hfine hR
  | refused =>
      rw [hv] at hloop
      obtain ⟨R, Q, n, he, hQ⟩ := @execute_sound set _ _ h data hlen
      refine ⟨R, Q, n, he, ?_⟩
      by_cases hok : Q.httpErrno = .ok
      · rw [hexec] at he
        obtain ⟨t, ht, he⟩ := Option.map_eq_some_iff.mp he
        obtain ⟨-, hQ'⟩ := Prod.mk.inj he
        obtain ⟨rfl, -⟩ := Prod.mk.inj hQ'
        exact absurd ⟨t, ht, hok⟩ hloop
      · rw [if_neg hok] at hQ
        exact ⟨hok, hQ hb⟩
  | stopped Q left =>
      rw [hv] at hloop
      exact ⟨hloop.1, hloop.2.imp fun R hR => hfine hR⟩

lemma sound_of_through {Q : Parser} (h : P.Sound) {b : Bytes}
    (hv : (scanner set).verdict P b = .through Q) : Q.Sound := by
  obtain ⟨A, hA⟩ := Scanner.scan_of_through hv 0
  exact scan_sound h hA

/-- A stream with an error is given up with an error. -/
lemma feedError_refused (h : P.Sound) (hb : ∀ b ∈ bufs, b ≠ [])
    (hlen : ∀ b ∈ bufs, b.length ≤ 2 ^ 31)
    (hv : (scanner set).verdict P bufs.flatten = .refused) :
    ∃ e, e ≠ .ok ∧ feedError set P data bufs = some e := by
  induction bufs generalizing P data with
  | nil => simp [Scanner.verdict] at hv
  | cons b bs ih =>
      have hexec := @execute_verdict set P data h b (hb b List.mem_cons_self)
        (hlen b List.mem_cons_self)
      rw [List.flatten_cons, Scanner.verdict_append] at hv
      cases hvb : (scanner set).verdict P b with
      | through Q =>
          rw [hvb] at hexec hv
          obtain ⟨R, he, -⟩ := hexec
          obtain ⟨e, hne, hrest⟩ := ih (sound_of_through h hvb)
            (fun b hmem => hb b (List.mem_cons_of_mem _ hmem))
            (fun b hmem => hlen b (List.mem_cons_of_mem _ hmem)) hv
          exact ⟨e, hne, by rw [feedError, he]; exact (if_neg (Nat.lt_irrefl _)).trans hrest⟩
      | refused =>
          rw [hvb] at hexec
          obtain ⟨R, Q, n, he, hne, hn⟩ := hexec
          exact ⟨_, hne, by rw [feedError, he]; exact if_pos hn⟩
      | stopped Q left =>
          rw [hvb] at hv
          cases hv

/-- A stream that goes on behind a last byte is given up without an error, if no block begins
there. -/
lemma feedError_stopped (h : P.Sound) {left : Bytes} (hb : ∀ b ∈ bufs, b ≠ [])
    (hlen : ∀ b ∈ bufs, b.length ≤ 2 ^ 31)
    (hv : (scanner set).verdict P bufs.flatten = .stopped Q left)
    (hbegin : ∀ k, (bufs.drop k).flatten ≠ left) : feedError set P data bufs = some .ok := by
  induction bufs generalizing P data with
  | nil => simp [Scanner.verdict] at hv
  | cons b bs ih =>
      have hexec := @execute_verdict set P data h b (hb b List.mem_cons_self)
        (hlen b List.mem_cons_self)
      rw [List.flatten_cons, Scanner.verdict_append] at hv
      cases hvb : (scanner set).verdict P b with
      | through Q =>
          rw [hvb] at hexec hv
          obtain ⟨R, he, -⟩ := hexec
          rw [feedError, he]
          refine (if_neg (Nat.lt_irrefl _)).trans ?_
          exact ih (sound_of_through h hvb) (fun b hmem => hb b (List.mem_cons_of_mem _ hmem))
            (fun b hmem => hlen b (List.mem_cons_of_mem _ hmem)) hv fun k => hbegin (k + 1)
      | refused =>
          rw [hvb] at hv
          cases hv
      | stopped Q' left' =>
          rw [hvb] at hexec hv
          obtain ⟨rfl, rfl⟩ := Verdict.stopped.inj hv
          obtain ⟨hlt, R, he, hok⟩ := hexec
          have hne : left' ≠ [] := by
            rintro rfl
            exact hbegin 1 rfl
          have := List.length_pos_of_ne_nil hne
          rw [feedError, he]
          exact (if_pos (by omega)).trans (congrArg some hok)

/-! ## The cutting makes no difference -/

/-- Every cutting of the stream is parsed to its end, with the same parser behind it, and every
block sees its part of the same calls. -/
def Parsed (set : Settings) (t : ParserType) (stream : Bytes) : Prop :=
  ∃ R P', ∀ bufs, Cut stream bufs → feed set (.init t) 0 bufs = some (clips R 0 bufs, P')

/-- With every cutting of the stream the server gives up at an error. -/
def Refused (set : Settings) (t : ParserType) (stream : Bytes) : Prop :=
  ∀ bufs, Cut stream bufs → ∃ e, e ≠ .ok ∧ feedError set (.init t) 0 bufs = some e

/-- The stream goes on, with `ys`, behind a whole message with an upgrade: every cutting of the
part up to there is parsed to its end, the last of the calls being that the message is complete,
and with every cutting of the stream in which no block begins with `ys` the server gives up
without an error. -/
def Upgraded (set : Settings) (t : ParserType) (stream : Bytes) : Prop :=
  ∃ xs ys R ka Q, stream = xs ++ ys ∧ xs ≠ [] ∧ ys ≠ [] ∧ Q.upgrade = true ∧
    (∀ bufs, Cut xs bufs → feed set (.init t) 0 bufs =
      some (clips (R ++ [.note (.messageComplete ka) (xs.length - 1)]) 0 bufs, Q)) ∧
    ∀ bufs, Cut stream bufs → (∀ k, (bufs.drop k).flatten ≠ ys) →
      feedError set (.init t) 0 bufs = some .ok

/-- What is scanned to its end is parsed with every cutting. -/
lemma feed_of_scan {t : ParserType} {A : List Op}
    (hscan : (scanner set).scan (.init t) 0 stream = some (P', A)) (hcut : Cut stream bufs) :
    feed set (.init t) 0 bufs =
      some (clips (run (fun _ => none) (A ++ flushes kinds stream.length)).2 0 bufs, P') := by
  obtain rfl := hcut.flat
  have hnil : (scanner set).scan (.init t) 0 [] = some (.init t, []) := rfl
  exact feed_clips (sound_init t) (openKind_startState t) hcut.some hcut.short hnil hscan

/-- The calls end with the end of the message, if the scan does. -/
lemma run_endsMessage {A acts : List Op}
    (hscan : (scanner set).scan P 0 xs = some (P', A ++ acts.map (Act.shift p)))
    (hP : openKind P.state = none) (hP' : openKind P'.state = none) (hend : EndsMessage acts) :
    ∃ R ka, (run (fun _ => none) (A ++ acts.map (Act.shift p) ++ flushes kinds xs.length)).2 =
      R ++ [.note (.messageComplete ka) p] := by
  obtain ⟨ka, ops, rfl⟩ := hend
  have hinit : Fits lazyKind (openKind P.state) 0 (fun _ => none) := by
    rw [hP]
    exact ⟨fun k q hq => by simp at hq, fun k _ hk => by simp at hk⟩
  have hfit := Scanner.scan_fits (scanner_lawful set) hscan hinit
  have hnone : openKind P'.state = none := hP'
  change Fits lazyKind (openKind P'.state) _ _ at hfit
  rw [hnone] at hfit
  let last : Op := .note (.messageComplete ka) 0
  have hcalls : (run (fun _ => none) (A ++ (ops ++ [last]).map (Act.shift p))).2 =
      (run (fun _ => none) (A ++ ops.map (Act.shift p))).2 ++ [.note (.messageComplete ka) p] := by
    rw [List.map_append, ← List.append_assoc, Stretches.run_append]
    simp [last, Act.shift, run_cons, act]
  refine ⟨_, ka, Eq.trans ?_ hcalls⟩
  rw [Stretches.run_append, run_flushes hfit, List.append_nil]

/-- A stream in blocks of one byte. -/
def singles (s : Bytes) : List Bytes := s.map fun x => [x]

@[simp] lemma flatten_singles (s : Bytes) : (singles s).flatten = s := by
  induction s with
  | nil => rfl
  | cons x s ih => exact congrArg (x :: ·) ih

lemma mem_singles {s b : Bytes} (h : b ∈ singles s) : ∃ x, b = [x] := by
  obtain ⟨x, -, rfl⟩ := List.mem_map.mp h
  exact ⟨x, rfl⟩

lemma cut_singles (s : Bytes) : Cut s (singles s) := by
  refine ⟨flatten_singles s, ?_, ?_⟩ <;>
  · intro b hb
    obtain ⟨x, rfl⟩ := mem_singles hb
    simp

/-- There is a cutting of two parts in which no block begins with the second. -/
lemma exists_cut_across {ys : Bytes} (hxs : xs ≠ []) (hys : ys ≠ []) :
    ∃ bufs, Cut (xs ++ ys) bufs ∧ ∀ k, (bufs.drop k).flatten ≠ ys := by
  obtain ⟨xs, x, rfl⟩ := (List.eq_nil_or_concat' xs).resolve_left hxs
  obtain ⟨y, ys, rfl⟩ := List.exists_cons_of_ne_nil hys
  refine ⟨singles xs ++ [x, y] :: singles ys, ⟨by simp, ?_, ?_⟩, ?_⟩
  · intro b hb
    rcases List.mem_append.mp hb with hb | hb
    · exact (cut_singles xs).some b hb
    · rcases List.mem_cons.mp hb with rfl | hb
      · simp
      · exact (cut_singles ys).some b hb
  · intro b hb
    rcases List.mem_append.mp hb with hb | hb
    · exact (cut_singles xs).short b hb
    · rcases List.mem_cons.mp hb with rfl | hb
      · simp
      · exact (cut_singles ys).short b hb
  · intro k hk
    have hlen := congrArg List.length hk
    rw [List.drop_append] at hlen
    cases hj : k - (singles xs).length with
    | zero =>
        rw [hj] at hlen
        simp only [List.drop_zero, List.flatten_append, List.flatten_cons, flatten_singles,
          List.length_append, List.length_cons] at hlen
        omega
    | succ j =>
        have hle : (singles xs).length ≤ k := by omega
        have hsub : ((singles ys).drop j).flatten.length ≤ ys.length := by
          calc ((singles ys).drop j).flatten.length
            _ ≤ (singles ys).flatten.length :=
              ((List.drop_sublist j _).flatten).length_le
            _ = ys.length := by rw [flatten_singles]
        rw [hj, List.drop_eq_nil_of_le hle, List.nil_append, List.drop_succ_cons,
          List.length_cons] at hlen
        omega

/-- **The cutting makes no difference.**  Of a stream for a new parser exactly one is so: every
cutting is parsed to its end; the server gives up at an error with every cutting; or the stream
goes on behind a message with an upgrade, where the parser stops. -/
theorem feed_cut (set : Settings) (t : ParserType) (stream : Bytes) :
    (Parsed set t stream ∨ Refused set t stream ∨ Upgraded set t stream) ∧
      ¬ (Parsed set t stream ∧ Refused set t stream) ∧
      ¬ (Parsed set t stream ∧ Upgraded set t stream) ∧
      ¬ (Refused set t stream ∧ Upgraded set t stream) := by
  refine ⟨?_, ?_, ?_, ?_⟩
  · have hinit := sound_init t
    have hopen : openKind (Parser.init t).state = none := openKind_startState t
    cases hv : (scanner set).verdict (.init t) stream with
    | through Q =>
        obtain ⟨A, hA⟩ := Scanner.scan_of_through hv 0
        exact .inl ⟨_, Q, fun bufs hcut => feed_of_scan hA hcut⟩
    | refused =>
        refine .inr (.inl fun bufs hcut => ?_)
        exact feedError_refused hinit hcut.some hcut.short (by rw [hcut.flat, hv])
    | stopped Q ys =>
        obtain ⟨xs, x, u, B, acts, rfl, -, hlast, hstep, hscan⟩ := Scanner.scan_of_stopped hv 0
        obtain ⟨hQ, hup, hend⟩ := last_upgrade hlast hstep
        cases ys with
        | nil => exact .inl ⟨_, Q, fun bufs hcut => feed_of_scan hscan hcut⟩
        | cons y ys =>
            obtain ⟨R, ka, hR⟩ := run_endsMessage hscan hopen hQ hend
            refine .inr (.inr
              ⟨xs ++ [x], y :: ys, R, ka, Q, by simp, by simp, by simp, hup, ?_, ?_⟩)
            · intro bufs hcut
              rw [feed_of_scan hscan hcut, hR]
              simp
            · intro bufs hcut hbegin
              exact feedError_stopped hinit hcut.some hcut.short (by rw [hcut.flat, hv]) hbegin
  · rintro ⟨⟨R, P', hparsed⟩, hrefused⟩
    obtain ⟨e, -, he⟩ := hrefused _ (cut_singles stream)
    have hnone := feed_none_of_feedError he
    rw [hparsed _ (cut_singles stream)] at hnone
    cases hnone
  · rintro ⟨⟨R, P', hparsed⟩, xs, ys, R', ka, Q, rfl, hxs, hys, -, -, hgiven⟩
    obtain ⟨bufs, hcut, hbegin⟩ := exists_cut_across hxs hys
    have hnone := feed_none_of_feedError (hgiven bufs hcut hbegin)
    rw [hparsed bufs hcut] at hnone
    cases hnone
  · rintro ⟨hrefused, xs, ys, R', ka, Q, rfl, hxs, hys, -, -, hgiven⟩
    obtain ⟨bufs, hcut, hbegin⟩ := exists_cut_across hxs hys
    obtain ⟨e, hne, he⟩ := hrefused bufs hcut
    rw [hgiven bufs hcut hbegin] at he
    exact hne (Option.some.inj he).symm

end Cutting

end Http

end Is2
