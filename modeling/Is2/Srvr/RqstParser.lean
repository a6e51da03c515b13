import Is2.Ext.HttpParser.Places
import Is2.Srvr.Dispatch
import Is2.Srvr.Offsets

/-!
# The parser of the session

The session knows `http_parser` by what it reports (`HttpParser`), and the results on sessions and
upstreams assume that its places lie in the buffer (`InBounds`), or that a request is reported
piece by piece, whichever way it is cut (`Request`).

Here this is shown of `http_parser_execute` as it is: `httpParser` is the parser with its
callbacks, and `rqstParser` that of a request.  The places are in bounds in every state, and bytes
that are taken in one call, with one end of a message at the last of them (`ParsedAlone`), are
reported piece by piece whichever way they are cut.
-/

namespace Is2

namespace Http

open Stretches

/-- What the callbacks of `cb.cc` record of a call.  The difference is the length of the stretch,
as no stretch ends before it starts (`execute_within`). -/
def eventOf : Call → Option ParserEvent
  | .span k s t => some (.data k s (t - s))
  | .note (.messageComplete keepAlive) _ => some (.complete keepAlive)
  | .note _ _ => none

/-- `http_parser_init` and `http_parser_execute`, with the callbacks of `cb.cc`.  Where an assertion
fails, there is nothing to say. -/
def httpParser (set : Settings) (t : ParserType) : HttpParser Parser where
  init := .init t
  execute P bytes :=
    match execute set P 0 bytes with
    | some (R, Q, n) => (Q, R.filterMap eventOf, n)
    | none => (P, [], 0)

/-- `m_http_parser_settings`.  For a request `hp_on_headers_complete` returns 0. -/
def rqstSettings : Settings := ⟨fun _ => 0⟩

/-- `http_parser` as the session uses it. -/
def rqstParser : HttpParser Parser := httpParser rqstSettings .request

variable {set : Settings} {t : ParserType} {bytes : Bytes} {R : List Call} {P Q : Parser}
  {n m lo mid hi : ℕ}

lemma httpParser_execute (h : execute set P 0 bytes = some (R, Q, n)) :
    (httpParser set t).execute P bytes = (Q, R.filterMap eventOf, n) := by
  simp only [httpParser, h]

/-- **What the sessions assume of their parsers**: they pass pointers into their buffers only. -/
theorem httpParser_inBounds (set : Settings) (t : ParserType) : InBounds (httpParser set t) := by
  intro P bytes k off len hmem
  cases he : execute set P 0 bytes with
  | none => simp [httpParser, he] at hmem
  | some r =>
      obtain ⟨R, Q, n⟩ := r
      rw [httpParser_execute he] at hmem
      obtain ⟨c, hc, hev⟩ := List.mem_filterMap.mp hmem
      cases c with
      | span k' s t =>
          obtain ⟨rfl, rfl, rfl⟩ := ParserEvent.data.inj (Option.some.inj hev)
          obtain ⟨-, hle, hlen⟩ := execute_within he hc
          calc s + (t - s)
            _ = t := Nat.add_sub_cancel' hle
            _ ≤ bytes.length := by rwa [Nat.zero_add] at hlen
      | note m p => cases m <;> simp [eventOf] at hev

/-! ## The bytes of a call -/

/-- The bytes of a call that lie between `lo` and `hi`, each with its kind. -/
def bytesIn (bytes : Bytes) (lo hi : ℕ) : Call → List (DataKind × UInt8)
  | .span k s t => (Cr.slice ⟨max s lo, min t hi - max s lo⟩ bytes).map (k, ·)
  | .note _ _ => []

lemma bytesIn_above {k : DataKind} {s t : ℕ} (h : hi ≤ s) :
    bytesIn bytes lo hi (.span k s t) = [] := by
  rw [bytesIn, show min t hi - max s lo = 0 by omega]
  simp [Cr.slice]

lemma bytesIn_below {k : DataKind} {s t : ℕ} (h : t ≤ lo) :
    bytesIn bytes lo hi (.span k s t) = [] := by
  rw [bytesIn, show min t hi - max s lo = 0 by omega]
  simp [Cr.slice]

lemma bytesIn_split (hlo : lo ≤ mid) (hhi : mid ≤ hi) (c : Call) :
    bytesIn bytes lo hi c = bytesIn bytes lo mid c ++ bytesIn bytes mid hi c := by
  cases c with
  | note m p => rfl
  | span k s t =>
      by_cases hs : mid ≤ s
      · rw [bytesIn_above hs, List.nil_append, bytesIn, bytesIn, show max s lo = s by omega,
          show max s mid = s by omega]
      · by_cases ht : t ≤ mid
        · rw [bytesIn_below ht, List.append_nil, bytesIn, bytesIn, show min t hi = t by omega,
            show min t mid = t by omega]
        · rw [bytesIn, bytesIn, bytesIn, ← List.map_append]
          congr 1
          rw [Cr.slice, Cr.slice, Cr.slice]
          dsimp only
          rw [show min t hi - max s lo = (min t mid - max s lo) + (min t hi - max s mid) by omega,
            List.take_add, List.drop_drop,
            show max s lo + (min t mid - max s lo) = max s mid by omega]

/-- Behind `mid` there is nothing of what is below. -/
lemma bytesIn_row_above (h : InRow mid R n) : R.flatMap (bytesIn bytes lo mid) = [] := by
  rw [List.flatMap_eq_nil_iff]
  intro c hc
  cases c with
  | note m p => rfl
  | span k s t => exact bytesIn_above (h.mem hc).1

/-- The bytes of stretches in a row, up to a place and from there on. -/
lemma bytesIn_row (h : InRow n R m) (hlo : lo ≤ mid) (hhi : mid ≤ hi) :
    R.flatMap (bytesIn bytes lo hi) =
      R.flatMap (bytesIn bytes lo mid) ++ R.flatMap (bytesIn bytes mid hi) := by
  induction R generalizing n with
  | nil => rfl
  | cons c R ih =>
      rw [List.flatMap_cons, List.flatMap_cons, List.flatMap_cons, bytesIn_split hlo hhi c]
      cases c with
      | note a p =>
          rw [ih h]
          rfl
      | span k s t =>
          rw [ih h.2.2]
          by_cases ht : t ≤ mid
          · rw [bytesIn_below ht, List.append_nil, List.nil_append, List.append_assoc]
          · rw [bytesIn_row_above (h.2.2.from_le (Nat.le_of_not_le ht)), List.append_nil,
              List.nil_append, List.append_assoc]

lemma clip_stop {k : DataKind} {s t : ℕ} (h : .span k s t ∈ R.filterMap (clip lazyKind lo hi)) :
    t ≤ hi := by
  obtain ⟨c, -, hc⟩ := List.mem_filterMap.mp h
  cases c with
  | note a p =>
      rw [clip] at hc
      split at hc <;> simp at hc
  | span k' s' t' =>
      rw [clip] at hc
      split at hc
      case isTrue =>
          obtain ⟨-, -, rfl⟩ := Report.span.inj (Option.some.inj hc)
          exact Nat.min_le_right _ _
      case isFalse => simp at hc

/-- A slice of a piece is a slice of the whole. -/
lemma slice_piece {s t : ℕ} (h : t + lo ≤ hi) :
    Cr.slice ⟨s, t - s⟩ ((bytes.drop lo).take (hi - lo)) = Cr.slice ⟨s + lo, t - s⟩ bytes := by
  rw [Cr.slice, Cr.slice]
  dsimp only
  rw [List.drop_take, List.drop_drop, List.take_take,
    show min (t - s) (hi - lo - s) = t - s by omega, Nat.add_comm lo s]

/-- What a piece sees of the calls has their bytes in the piece. -/
lemma elements_clip {R₀ : List Call} (h : R₀.map (Report.shift lo) =
    R.filterMap (clip lazyKind lo hi)) :
    (R₀.filterMap eventOf).flatMap (elementsOf ((bytes.drop lo).take (hi - lo))) =
      R.flatMap (bytesIn bytes lo hi) := by
  -- the bytes of a call that lies in the piece, in the piece and in the whole
  have hpiece : ∀ c ∈ R₀, ((eventOf c).toList.flatMap
      (elementsOf ((bytes.drop lo).take (hi - lo)))) = bytesIn bytes lo hi (c.shift lo) := by
    intro c hc
    cases c with
    | note a p => cases a <;> rfl
    | span k s t =>
        have hmem : .span k (s + lo) (t + lo) ∈ R.filterMap (clip lazyKind lo hi) :=
          h ▸ List.mem_map_of_mem hc
        have ht : t + lo ≤ hi := clip_stop hmem
        rw [eventOf, Option.toList_some, List.flatMap_singleton, elementsOf, Report.shift, bytesIn,
          slice_piece ht, show max (s + lo) lo = s + lo by omega,
          show min (t + lo) hi - (s + lo) = t - s by omega]
  have hclip : ∀ c : Call, (clip lazyKind lo hi c).toList.flatMap (bytesIn bytes lo hi) =
      bytesIn bytes lo hi c := by
    intro c
    cases c with
    | note a p =>
        rw [clip]
        split <;> rfl
    | span k s t =>
        rw [clip]
        split
        case isTrue hsee =>
            rw [Option.toList_some, List.flatMap_singleton, bytesIn, bytesIn,
              show max (max s lo) lo = max s lo by omega,
              show min (min t hi) hi = min t hi by omega]
        case isFalse hmiss =>
            rw [bytesIn, show min t hi - max s lo = 0 by omega]
            simp [Cr.slice]
  calc (R₀.filterMap eventOf).flatMap (elementsOf ((bytes.drop lo).take (hi - lo)))
      = R₀.flatMap fun c => (eventOf c).toList.flatMap
          (elementsOf ((bytes.drop lo).take (hi - lo))) := by
        rw [List.filterMap_eq_flatMap_toList, List.flatMap_assoc]
    _ = R₀.flatMap fun c => bytesIn bytes lo hi (c.shift lo) := List.flatMap_congr hpiece
    _ = (R.filterMap (clip lazyKind lo hi)).flatMap (bytesIn bytes lo hi) := by
        rw [← h, List.flatMap_map]
    _ = R.flatMap (bytesIn bytes lo hi) := by
        rw [List.filterMap_eq_flatMap_toList, List.flatMap_assoc]
        exact List.flatMap_congr fun c _ => hclip c

/-! ## The end of a message -/

/-- Where the end of a message is reported, and what is said of the connection. -/
def endAt : Call → Option (Bool × ℕ)
  | .note (.messageComplete keepAlive) p => some (keepAlive, p)
  | _ => none

/-- A piece sees the ends that lie in it. -/
lemma ends_clip {R₀ : List Call} (h : R₀.map (Report.shift lo) =
    R.filterMap (clip lazyKind lo hi)) :
    (R₀.filterMap eventOf).filterMap endOf =
      ((R.filterMap endAt).filter fun e => lo ≤ e.2 ∧ e.2 < hi).map (·.1) := by
  have hpiece : ∀ c : Call, (eventOf c).bind endOf = (endAt (c.shift lo)).map (·.1) := by
    intro c
    cases c with
    | span k s t => rfl
    | note a p => cases a <;> rfl
  have hclip : ∀ c : Call, (clip lazyKind lo hi c).bind endAt =
      (endAt c).bind fun e => if lo ≤ e.2 ∧ e.2 < hi then some e else none := by
    intro c
    cases c with
    | span k s t =>
        rw [clip]
        split <;> rfl
    | note a p =>
        rw [clip]
        cases a <;> split <;> simp_all [endAt]
  calc (R₀.filterMap eventOf).filterMap endOf
      = R₀.filterMap fun c => (endAt (c.shift lo)).map (·.1) := by
        rw [List.filterMap_filterMap]
        exact List.filterMap_congr fun c _ => hpiece c
    _ = ((R.filterMap (clip lazyKind lo hi)).filterMap endAt).map (·.1) := by
        rw [← h, List.filterMap_map, List.map_filterMap]
        rfl
    _ = ((R.filterMap endAt).filter fun e => lo ≤ e.2 ∧ e.2 < hi).map (·.1) := by
        rw [List.filterMap_filterMap, ← List.filterMap_eq_filter, List.filterMap_filterMap]
        congr 1
        refine List.filterMap_congr fun c _ => (hclip c).trans ?_
        congr 1
        funext e
        simp [Option.guard]

/-- **A request that is parsed in one call**: all of it is taken, the parser reports the end of a
message with its last byte and nowhere else, with the connection to be kept, and is ready for the
next one. -/
structure ParsedAlone (bytes : Bytes) : Prop where
  nonempty : bytes ≠ []
  short : bytes.length ≤ 2 ^ 31
  parsed : ∃ R Q, execute rqstSettings (.init .request) 0 bytes = some (R, Q, bytes.length) ∧
    Q.httpErrno = .ok ∧ Q.state = .startReq ∧ R.filterMap endAt = [(true, bytes.length - 1)]

instance (bytes : Bytes) : Decidable (ParsedAlone bytes) :=
  decidable_of_iff (bytes ≠ [] ∧ bytes.length ≤ 2 ^ 31 ∧
      ∃ r ∈ execute rqstSettings (.init .request) 0 bytes, r.2.2 = bytes.length ∧
        r.2.1.httpErrno = .ok ∧ r.2.1.state = .startReq ∧
          r.1.filterMap endAt = [(true, bytes.length - 1)])
    ⟨fun ⟨h1, h2, ⟨R, Q, _⟩, he, hn, h3⟩ => ⟨h1, h2, R, Q, hn ▸ he, h3⟩,
      fun ⟨h1, h2, R, Q, he, h3⟩ => ⟨h1, h2, (R, Q, _), he, rfl, h3⟩⟩

section Alone

variable {A : List Op}

/-- Between two messages no mark is set at the start of a buffer. -/
lemma resume_init : (scanner rqstSettings).resume (.init .request) 0 = fun _ => none := by
  funext k
  simp [Scanner.resume, scanner, openKind, Parser.init, Parser.startState]

/-- What is reported of a request in one call. -/
def reportsOf (bytes : Bytes) : List Call :=
  (execute rqstSettings (.init .request) 0 bytes).elim [] (·.1)

/-- The parser behind the first `n` bytes of a request. -/
def stateAt (bytes : Bytes) (n : ℕ) : Parser :=
  ((scanner rqstSettings).scan (.init .request) 0 (bytes.take n)).elim (.init .request) (·.1)

lemma ParsedAlone.scanned (h : ParsedAlone bytes) :
    ∃ Q A, (scanner rqstSettings).scan (.init .request) 0 bytes = some (Q, A) ∧
      Q.state = .startReq ∧
        reportsOf bytes = (run (fun _ => none) (A ++ flushes kinds bytes.length)).2 := by
  obtain ⟨R, Q, he, hok, hQ, -⟩ := h.parsed
  obtain ⟨A, hA, hR⟩ := (execute_scan (sound_init .request) h.nonempty h.short).mp ⟨he, hok⟩
  rw [resume_init, Nat.zero_add] at hR
  exact ⟨Q, A, hA, hQ, by rw [reportsOf, he, Option.elim_some, hR]⟩

lemma ParsedAlone.row (h : ParsedAlone bytes) : InRow 0 (reportsOf bytes) bytes.length := by
  obtain ⟨Q, A, hA, -, hR⟩ := h.scanned
  rw [hR]
  exact Scanner.reports_row (scanner_lawful rqstSettings) mem_kinds (s := .init .request)
    (openKind_startState .request) hA

lemma ParsedAlone.ends (h : ParsedAlone bytes) :
    (reportsOf bytes).filterMap endAt = [(true, bytes.length - 1)] := by
  obtain ⟨R, Q, he, -, -, hend⟩ := h.parsed
  rw [reportsOf, he, Option.elim_some, hend]

/-- A piece of a request that is parsed alone. -/
lemma ParsedAlone.piece (h : ParsedAlone bytes) {k : ℕ} (hk : 0 < k) (hle : n + k ≤ bytes.length) :
    ∃ R₀, execute rqstSettings (stateAt bytes n) 0 ((bytes.drop n).take k) =
        some (R₀, stateAt bytes (n + k), k) ∧
      R₀.map (Report.shift n) = (reportsOf bytes).filterMap (clip lazyKind n (n + k)) := by
  obtain ⟨Q, A, hA, -, hR⟩ := h.scanned
  have hcut : bytes.take n ++ (bytes.drop n).take k ++ bytes.drop (n + k) = bytes := by
    rw [← List.take_add, List.take_append_drop]
  have hxs : (bytes.take n).length = n := by
    rw [List.length_take]
    omega
  have hys : ((bytes.drop n).take k).length = k := by
    rw [List.length_take, List.length_drop]
    omega
  have hne : (bytes.drop n).take k ≠ [] := List.ne_nil_of_length_pos (by omega)
  rw [← hcut] at hA
  obtain ⟨u, v, B, C, hB, hC, hrep⟩ := Scanner.reports_buffer (scanner_lawful rqstSettings)
    mem_kinds (s := .init .request) (openKind_startState .request) hne hA
  -- the parser before the piece and behind it
  have hu : stateAt bytes n = u := by rw [stateAt, hB, Option.elim_some]
  have hv : stateAt bytes (n + k) = v := by
    obtain ⟨w, BC, D, hBC, -, -⟩ := Scanner.scan_append hA
    obtain ⟨w₁, B₁, C₁, h1, h2, -⟩ := Scanner.scan_append hBC
    rw [hB] at h1
    obtain ⟨rfl, rfl⟩ := Prod.mk.inj (Option.some.inj h1)
    rw [Nat.zero_add, hC] at h2
    obtain ⟨rfl, rfl⟩ := Prod.mk.inj (Option.some.inj h2)
    rw [stateAt, List.take_add, hBC, Option.elim_some]
  have hshort := h.short
  obtain ⟨hex, -⟩ := (execute_scan (scan_sound (sound_init .request) hB) hne (by omega)).mpr
    ⟨C, hC, rfl⟩
  rw [hrep, hxs, hys, hcut, ← hR, ← hu, ← hv] at hex
  have hshift : execute rqstSettings (stateAt bytes n) (0 + n) ((bytes.drop n).take k) = _ :=
    execute_shift
  rw [Nat.zero_add, hex] at hshift
  obtain ⟨⟨R₀, r⟩, he₀, hr⟩ := Option.map_eq_some_iff.mp hshift.symm
  obtain ⟨hR₀, rfl⟩ := Prod.mk.inj hr
  exact ⟨R₀, he₀, hR₀⟩

/-- The bytes of the first `n` that are reported, each with its kind. -/
def reportedAt (bytes : Bytes) (n : ℕ) : List (DataKind × UInt8) :=
  (reportsOf bytes).flatMap (bytesIn bytes 0 n)

lemma reportedAt_zero (bytes : Bytes) : reportedAt bytes 0 = [] := by
  rw [reportedAt, List.flatMap_eq_nil_iff]
  intro c _
  cases c with
  | note a p => rfl
  | span k s t => exact bytesIn_above (Nat.zero_le _)

lemma ParsedAlone.reportsPiece (h : ParsedAlone bytes) {k : ℕ} (hk : 0 < k)
    (hle : n + k ≤ bytes.length) :
    ReportsPiece (rqstParser.execute (stateAt bytes n) ((bytes.drop n).take k))
      ((bytes.drop n).take k) (reportedAt bytes n) (reportedAt bytes (n + k))
      (stateAt bytes (n + k)) (n + k = bytes.length) := by
  obtain ⟨R₀, he₀, hR₀⟩ := h.piece hk hle
  have hends := ends_clip hR₀
  have helements := @elements_clip bytes _ _ _ _ hR₀
  rw [h.ends] at hends
  rw [Nat.add_sub_cancel_left] at helements
  rw [rqstParser, httpParser_execute he₀]
  refine ⟨?_, ?_, ?_, ?_⟩
  · dsimp only
    rw [List.length_take, List.length_drop]
    omega
  · dsimp only
    rw [helements, reportedAt, reportedAt,
      bytesIn_row h.row (Nat.zero_le n) (Nat.le_add_right n k)]
  · intro hlast
    rw [decide_eq_false_iff_not] at hlast
    refine ⟨rfl, hends.trans ?_⟩
    rw [List.filter_cons_of_neg (by simp; omega)]
    rfl
  · intro hlast
    rw [decide_eq_true_iff] at hlast
    refine hends.trans ?_
    rw [List.filter_cons_of_pos (by simp; omega)]
    rfl

/-- A request with a body. -/
def postOk : Bytes := ascii "POST /a HTTP/1.1\r\nContent-Length: 2\r\n\r\nok"

lemma postOk_alone : ParsedAlone postOk := by decide +kernel

end Alone

end Http

end Is2
