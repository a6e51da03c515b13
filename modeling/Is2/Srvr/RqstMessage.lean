import Is2.Ext.HttpParser.Order
import Is2.Srvr.RqstParser

/-!
# Messages of the parser

`Chunking` takes a message as its bytes and its elements, and says what `http_parser_execute`
reports of them for a buffer.  Here a request that the parser takes alone is shown to be such a
message: a `Request` of the session (`parsed_request`), and one of which the callbacks, whichever
way it is cut, make the record that `parse` makes (`parsed_message`).
-/

namespace Is2

namespace Http

open Stretches

variable {bytes : Bytes} {P Q : Parser} {A ops : List Op} {R : List Call} {x : UInt8}

/-! ## The elements -/

/-- A stretch that is reported, as an element of the message. -/
def elementOf : Call → Option Element
  | .span k s t => some ⟨k, ⟨s, t - s⟩⟩
  | .note _ _ => none

def elementsIn (R : List Call) : List Element := R.filterMap elementOf

lemma mem_elementsIn {e : Element} (h : e ∈ elementsIn R) :
    ∃ t, .span e.kind e.span.off t ∈ R ∧ e.span.len = t - e.span.off := by
  obtain ⟨c, hc, he⟩ := List.mem_filterMap.mp h
  cases c with
  | note a p => simp [elementOf] at he
  | span k s t =>
      obtain rfl := Option.some.inj he
      exact ⟨t, hc, rfl⟩

lemma elementsIn_ordered {lo hi : ℕ} (h : InRow lo R hi) :
    (elementsIn R).Pairwise fun e e' => e.span.stop ≤ e'.span.off := by
  induction R generalizing lo with
  | nil => exact List.Pairwise.nil
  | cons c R ih =>
      cases c with
      | note a p => exact ih h
      | span k s t =>
          refine List.pairwise_cons.mpr ⟨fun e he => ?_, ih h.2.2⟩
          obtain ⟨t', hmem, -⟩ := mem_elementsIn he
          have h1 := (h.2.2.mem hmem).1
          have h2 := h.2.1
          rw [Cr.stop]
          dsimp only
          omega

/-! ## One URL -/

/-- How many URLs there still are before the end of the message. -/
def Phase.urls : Phase → ℕ
  | .idle | .begun _ => 1
  | _ => 0

def urlMark : Op → Bool
  | .mark .url _ => true
  | _ => false

def endNote : Op → Bool
  | .note (.messageComplete _) _ => true
  | _ => false

lemma step_urls {φ ψ : Phase} {a : Op} (h : φ.step a = some ψ) :
    (if urlMark a then 1 else 0) + ψ.urls ≤ φ.urls + if endNote a then 1 else 0 := by
  cases a with
  | mark k p =>
      cases φ <;> cases k <;> simp only [Phase.step, Option.some.injEq, reduceCtorEq] at h <;>
        subst h <;> simp [urlMark, endNote, Phase.urls]
  | flush k p =>
      cases φ <;> cases k <;> simp only [Phase.step, Option.some.injEq, reduceCtorEq] at h <;>
        subst h <;> simp [urlMark, endNote, Phase.urls]
  | note n p =>
      cases φ with
      | lines t =>
          cases t <;> cases n <;>
            simp only [Phase.step, Option.some.injEq, reduceCtorEq] at h <;>
            subst h <;> simp [urlMark, endNote, Phase.urls]
      | chunks =>
          cases n with
          | chunkHeader m =>
              obtain rfl := Option.some.inj h
              by_cases hm : m = 0 <;> simp [hm, urlMark, endNote, Phase.urls]
          | _ => simp [Phase.step] at h
      | _ =>
          cases n <;> simp only [Phase.step, Option.some.injEq, reduceCtorEq] at h <;>
            subst h <;> simp [urlMark, endNote, Phase.urls]

/-- A message has one URL. -/
lemma Path.urls {φ ψ : Phase} (h : Path φ A ψ) :
    A.countP urlMark + ψ.urls ≤ φ.urls + A.countP endNote := by
  induction h with
  | nil φ => simp
  | cons hs _ ih =>
      have := step_urls hs
      rw [List.countP_cons, List.countP_cons]
      omega
  | @relax φ φ' ψ as hr _ ih =>
      have hle : φ'.urls ≤ φ.urls := by
        cases φ <;> cases φ' <;> simp [Phase.relax, Phase.urls] at hr ⊢
      omega

lemma countP_urls (R : List Call) :
    ((elementsIn R).filter (·.kind = .url)).length = (R.flatMap acts).countP urlMark := by
  induction R with
  | nil => rfl
  | cons c R ih =>
      rw [List.flatMap_cons, List.countP_append, ← ih]
      cases c with
      | note a p =>
          have hcons : elementsIn (.note a p :: R) = elementsIn R := rfl
          rw [hcons]
          simp [acts, urlMark]
      | span k s t =>
          have hcons : elementsIn (.span k s t :: R) = ⟨k, ⟨s, t - s⟩⟩ :: elementsIn R := rfl
          rw [hcons]
          cases k <;> simp [acts, urlMark, List.countP_cons, Nat.add_comm]

lemma countP_ends (R : List Call) :
    (R.flatMap acts).countP endNote = (R.filterMap endAt).length := by
  induction R with
  | nil => rfl
  | cons c R ih =>
      rw [List.flatMap_cons, List.countP_append, ih]
      cases c with
      | span k s t =>
          rw [List.filterMap_cons_none rfl]
          simp [acts, endNote]
      | note a p => cases a <;> simp [acts, endNote, endAt, List.filterMap_cons, Nat.add_comm]

/-! ## A request as a message -/

section Alone

lemma fits_init : Fits (scanner rqstSettings).lazy
    ((scanner rqstSettings).openKind (.init .request)) 0 fun _ => none :=
  ⟨fun k q hq => by simp at hq, fun k _ hk => by
    simp [scanner, openKind, Parser.init, Parser.startState] at hk⟩

/-- No stretch is open at the end of a request. -/
lemma ParsedAlone.closed (h : ParsedAlone bytes) :
    ∃ Q A, (scanner rqstSettings).scan (.init .request) 0 bytes = some (Q, A) ∧
      Q.state = .startReq ∧ reportsOf bytes = (run (fun _ => none) A).2 := by
  obtain ⟨Q, A, hA, hQ, hR⟩ := h.scanned
  refine ⟨Q, A, hA, hQ, ?_⟩
  have hfit := Scanner.scan_fits (scanner_lawful rqstSettings) hA (M := fun _ => none)
    fits_init
  rw [show (scanner rqstSettings).openKind Q = none by simp [scanner, openKind, hQ]] at hfit
  rw [hR, run_append, run_flushes hfit, List.append_nil]

lemma ParsedAlone.oneUrl (h : ParsedAlone bytes) :
    ((elementsIn (reportsOf bytes)).filter (·.kind = .url)).length ≤ 1 := by
  obtain ⟨Q, A, hA, hQ, hR⟩ := h.closed
  have hpath := scan_path (Scanner.scan_endless hA)
  have hmarks : MarksOf (phase (.init .request)) (fun _ => none) := fun k _ => by
    simp [phase, Parser.init, Parser.startState, Phase.opened]
  have hurls := (hpath.reports hmarks).2.urls
  have hends := countP_ends (reportsOf bytes)
  rw [h.ends] at hends
  rw [← hR, ← countP_urls, hends] at hurls
  simpa [phase, hQ, Parser.init, Parser.startState, Phase.base, Phase.urls] using hurls

/-- A name, a URL or a value ends before the last byte. -/
lemma ParsedAlone.delimited (h : ParsedAlone bytes) {k : DataKind} {s t : ℕ}
    (hmem : .span k s t ∈ reportsOf bytes) (hk : k ≠ .body) : t < bytes.length := by
  obtain ⟨Q, A, hA, -, hR⟩ := h.closed
  rw [hR] at hmem
  have hbefore := (Scanner.scan_places (scanner_lawful rqstSettings) hA _ (run_stops k s t hmem)).2
  rw [Act.Before, Nat.zero_add] at hbefore
  refine hbefore.resolve_right fun hlast => hk ?_
  simpa [scanner] using hlast.2

/-- A body does not start with the first byte. -/
lemma ParsedAlone.bodyLater (h : ParsedAlone bytes) {s t : ℕ}
    (hmem : .span .body s t ∈ reportsOf bytes) : 0 < s := by
  obtain ⟨Q, A, hA, -, hR⟩ := h.closed
  rw [hR] at hmem
  have hmark := run_starts (Q := fun k s => .mark k s ∈ A) (M := fun _ => none)
    (fun k s hs => by simp at hs) (fun k s hs => hs) _ s t hmem
  exact Scanner.scan_lazy_later (scanner_lawful rqstSettings) (s := .init .request)
    (openKind_startState .request) hA .body s hmark (by simp [scanner])

/-- What a step reports of a URL, a name or a body has bytes. -/
lemma step_nonempty {p : ℕ} {M : Marks DataKind}
    (hstep : (scanner rqstSettings).step P x = some (Q, ops))
    (hfit : Fits lazyKind ((scanner rqstSettings).openKind P) p M) {k : DataKind} {s t : ℕ}
    (hmem : .span k s t ∈ (run M (ops.map (Act.shift p))).2)
    (hk : k = .body ∨ k = .url ∨ k = .headerField) : s < t := by
  rcases hk with hk | hk
  · exact Scanner.Shape.lazy_nonempty (scanner_lawful rqstSettings P x Q ops hstep) hfit
      (by rw [hk]; rfl) hmem
  · have hstart := run_starts (Q := fun k s => s < p ∨ .mark k s ∈ ops.map (Act.shift p))
      (fun k s hs => Or.inl (hfit.only k s hs).2) (fun k s hs => Or.inr hs) k s t hmem
    obtain ⟨a, ha, hflush⟩ := List.mem_map.mp (run_stops k s t hmem)
    cases a with
    | flush k' q =>
        obtain ⟨rfl, rfl⟩ := Act.flush.inj hflush
        rcases hstart with hlt | hmark
        · omega
        · obtain ⟨b, hb, hmark⟩ := List.mem_map.mp hmark
          cases b with
          | mark k'' q' =>
              obtain ⟨rfl, -⟩ := Act.mark.inj hmark
              exact absurd ha ((orderly_step hstep).longer _ hk _ _ hb)
          | flush => simp [Act.shift] at hmark
          | note => simp [Act.shift] at hmark
    | mark => simp [Act.shift] at hflush
    | note => simp [Act.shift] at hflush

lemma ParsedAlone.nonempty_span (h : ParsedAlone bytes) {k : DataKind} {s t : ℕ}
    (hmem : .span k s t ∈ reportsOf bytes) (hk : k = .body ∨ k = .url ∨ k = .headerField) :
    s < t := by
  obtain ⟨Q, A, hA, -, hR⟩ := h.closed
  rw [hR] at hmem
  have hall := Scanner.scan_reports (scanner_lawful rqstSettings)
    (Q := fun c => ∀ k s t, c = .span k s t → k = .body ∨ k = .url ∨ k = .headerField → s < t)
    (fun P x Q ops p M hstep hfit r hr k s t hc hk => step_nonempty hstep hfit (hc ▸ hr) hk)
    hA fits_init
  exact hall _ hmem k s t rfl hk

/-- An element, as the stretch that is reported. -/
lemma ParsedAlone.span_of_mem (h : ParsedAlone bytes) {e : Element}
    (he : e ∈ elementsIn (reportsOf bytes)) :
    ∃ t, .span e.kind e.span.off t ∈ reportsOf bytes ∧ e.span.off ≤ t ∧ t ≤ bytes.length ∧
      e.span.len = t - e.span.off ∧ e.span.stop = t := by
  obtain ⟨t, hmem, hlen⟩ := mem_elementsIn he
  have hrow := h.row.mem hmem
  exact ⟨t, hmem, hrow.2.1, hrow.2.2, hlen, by rw [Cr.stop, hlen]; omega⟩

lemma ParsedAlone.fits (h : ParsedAlone bytes) : bytes.length < 2 ^ 64 := by
  have := h.short
  omega

lemma ParsedAlone.within (h : ParsedAlone bytes) :
    ∀ e ∈ elementsIn (reportsOf bytes), e.span.stop ≤ bytes.length := by
  intro e he
  obtain ⟨t, -, -, hle, -, hstop⟩ := h.span_of_mem he
  rwa [hstop]

lemma ParsedAlone.elements_delimited (h : ParsedAlone bytes) :
    ∀ e ∈ elementsIn (reportsOf bytes), e.kind ≠ .body → e.span.stop < bytes.length := by
  intro e he hk
  obtain ⟨t, hmem, -, -, -, hstop⟩ := h.span_of_mem he
  rw [hstop]
  exact h.delimited hmem hk

lemma ParsedAlone.elements_nonempty (h : ParsedAlone bytes) :
    ∀ e ∈ elementsIn (reportsOf bytes), e.kind ≠ .headerValue → e.kind ≠ .status →
      0 < e.span.len := by
  intro e he hvalue hstatus
  obtain ⟨t, hmem, -, -, hlen, -⟩ := h.span_of_mem he
  have hkind : e.kind = .body ∨ e.kind = .url ∨ e.kind = .headerField := by
    cases hk : e.kind with
    | url | headerField | body => simp
    | status => exact absurd hk hstatus
    | headerValue => exact absurd hk hvalue
  have := h.nonempty_span hmem hkind
  omega

lemma ParsedAlone.elements_bodyLater (h : ParsedAlone bytes) :
    ∀ e ∈ elementsIn (reportsOf bytes), e.kind = .body → 0 < e.span.off := by
  intro e he hk
  obtain ⟨t, hmem, -⟩ := h.span_of_mem he
  rw [hk] at hmem
  exact h.bodyLater hmem

/-- A request that is parsed alone is a message. -/
def ParsedAlone.message (h : ParsedAlone bytes) : Message where
  bytes := bytes
  elements := elementsIn (reportsOf bytes)
  fits := h.fits
  ordered := elementsIn_ordered h.row
  oneUrl := h.oneUrl
  within := h.within
  delimited := h.elements_delimited
  nonempty := h.elements_nonempty
  bodyLater := h.elements_bodyLater

end Alone

/-! ## A request of the session -/

section Request

/-- The data callback for a call, with places from `lo` on. -/
def dataOf (lo : ℕ) : Call → Option ParserEvent
  | .span k s t => some (.data k (s - lo) (t - s))
  | .note _ _ => none

/-- The data callbacks for a piece are those of the elements that fall into it. -/
lemma ParsedAlone.dataEvents (h : ParsedAlone bytes) {lo hi : ℕ} {R₀ : List Call}
    (hR : R₀.map (Report.shift lo) = (reportsOf bytes).filterMap (clip lazyKind lo hi)) :
    (R₀.filterMap eventOf).filter isData = h.message.eventsIn lo hi 0 := by
  have hpiece : ∀ c : Call, (eventOf c).bind (Option.guard isData) = dataOf lo (c.shift lo) := by
    intro c
    cases c with
    | note a p => cases a <;> rfl
    | span k s t =>
        rw [Report.shift, dataOf, Nat.add_sub_cancel, Nat.add_sub_add_right]
        rfl
  have hclip : ∀ c ∈ reportsOf bytes, (clip lazyKind lo hi c).bind (dataOf lo) =
      (elementOf c).bind fun e =>
        (Is2.piece e.kind ⟨0, lo, hi⟩ e.span).map fun p => .data e.kind (p.off - lo + 0) p.len := by
    intro c hc
    cases c with
    | note a p =>
        rw [clip]
        split <;> rfl
    | span k s t =>
        have hle := (h.row.mem hc).2.1
        have hsees : (s < hi ∧ (lo < t ∨ (lo = t ∧ lazyKind k = false))) ↔
            s < hi ∧ (lo < s + (t - s) ∨ (lo = s + (t - s) ∧ k ≠ .body)) := by
          rw [show s + (t - s) = t by omega]
          simp [lazyKind]
        rw [clip, elementOf, Option.bind_some, Is2.piece, Cr.stop]
        dsimp only
        by_cases hsee : s < hi ∧ (lo < t ∨ (lo = t ∧ lazyKind k = false))
        · rw [if_pos hsee, if_pos (hsees.mp hsee), Option.bind_some, Option.map_some, dataOf,
            fragment, Cr.stop]
          dsimp only
          rw [show s + (t - s) = t by omega]
          rfl
        · rw [if_neg hsee, if_neg (mt hsees.mpr hsee)]
          rfl
  calc (R₀.filterMap eventOf).filter isData
      = R₀.filterMap fun c => dataOf lo (c.shift lo) := by
        rw [← List.filterMap_eq_filter, List.filterMap_filterMap]
        exact List.filterMap_congr fun c _ => hpiece c
    _ = ((reportsOf bytes).filterMap (clip lazyKind lo hi)).filterMap (dataOf lo) := by
        rw [← hR, List.filterMap_map]
        rfl
    _ = h.message.eventsIn lo hi 0 := by
        rw [Message.eventsIn, List.filterMap_filterMap]
        refine (List.filterMap_congr hclip).trans ?_
        exact List.filterMap_filterMap.symm

lemma ParsedAlone.events (h : ParsedAlone bytes) {n k : ℕ} (hk : 0 < k)
    (hle : n + k ≤ bytes.length) :
    (rqstParser.execute (stateAt bytes n) ((bytes.drop n).take k)).2.1.filter isData =
      h.message.eventsIn n (n + k) 0 := by
  obtain ⟨R₀, he, hR⟩ := h.piece hk hle
  rw [rqstParser, httpParser_execute he]
  exact h.dataEvents hR

/-- A request that is parsed alone is a request of the session. -/
def ParsedAlone.request (h : ParsedAlone bytes) : Request rqstParser where
  message := h.message
  nonempty := h.nonempty
  state := stateAt bytes
  reported := reportedAt bytes
  state_zero := rfl
  reported_zero := reportedAt_zero bytes
  cut := fun _ _ => h.reportsPiece
  events := fun _ _ => h.events

lemma ParsedAlone.request_elements (h : ParsedAlone bytes) : h.request.elements =
    (rqstParser.execute rqstParser.init bytes).2.1.flatMap (elementsOf bytes) := by
  have hpos := List.length_pos_of_ne_nil h.nonempty
  have hwhole := (h.reportsPiece (n := 0) hpos (by omega)).2.1
  rw [reportedAt_zero, List.nil_append, List.drop_zero, List.take_length, Nat.zero_add] at hwhole
  exact hwhole

/-- **The assumption on requests is met.**  What the parser takes in one call, with the end of a
message at its last byte only, it takes in any pieces, with the same elements. -/
theorem parsed_request (h : ParsedAlone bytes) : ∃ r : Request rqstParser, r.bytes = bytes ∧
    r.elements = (rqstParser.execute rqstParser.init bytes).2.1.flatMap (elementsOf bytes) :=
  ⟨h.request, rfl, h.request_elements⟩

theorem parsed_request_post : ∃ r : Request rqstParser, r.bytes = postOk ∧
    r.elements = (rqstParser.execute rqstParser.init postOk).2.1.flatMap (elementsOf postOk) :=
  parsed_request postOk_alone

end Request

/-! ## The record -/

section Cuttings

/-- `http_parser_execute` on a buffer of a request, with the offset bases set for it. -/
def executeBuf (bytes : Bytes) (s : Parser × Hmsg) (b : Buf) : Parser × Hmsg :=
  let piece := Cr.slice ⟨b.lo, b.hi - b.lo⟩ bytes
  let r := rqstParser.execute s.1 piece
  (r.1, r.2.1.foldl (Hmsg.onEvent b.addr piece) { s.2 with curBuf := b.addr, curOff := b.lo })

/-- The record of a request, parsed buffer by buffer. -/
def parseRqst (bytes : Bytes) (bufs : List Buf) : Hmsg :=
  (bufs.foldl (executeBuf bytes) (rqstParser.init, Hmsg.init .rqst)).2

/-- **A buffer of a request** leaves the parser behind it, and in the record what the message says
of it; with the last one, the request is complete. -/
lemma ParsedAlone.executeBuf_eq (h : ParsedAlone bytes) {b : Buf} (hlo : b.lo < b.hi)
    (hhi : b.hi ≤ bytes.length) (m : Hmsg) : executeBuf bytes (stateAt bytes b.lo, m) b =
      (stateAt bytes b.hi, if b.hi = bytes.length
        then (Is2.execute h.message m b).hpOnMessageComplete true
        else Is2.execute h.message m b) := by
  obtain ⟨R₀, he, hR⟩ := h.piece (n := b.lo) (k := b.hi - b.lo) (by omega) (by omega)
  have hends := ends_clip hR
  rw [show b.lo + (b.hi - b.lo) = b.hi by omega] at he hR hends
  rw [h.ends] at hends
  rw [executeBuf, Cr.slice]
  dsimp only
  rw [rqstParser, httpParser_execute he, foldl_onEvent, hends]
  have hcb := h.message.callbacks_eventsIn hlo.le b.addr
  rw [← h.dataEvents hR, ← filterMap_dataCbOf] at hcb
  dsimp only
  rw [show (bytes.drop b.lo).take (b.hi - b.lo) =
    (h.message.bytes.drop b.lo).take (b.hi - b.lo) from rfl, hcb, Is2.execute]
  split
  case isTrue hlast =>
      rw [List.filter_cons_of_pos (by simp; omega)]
      rfl
  case isFalse hlast =>
      rw [List.filter_cons_of_neg (by simp; omega)]
      rfl

lemma covers_le {lo n : ℕ} {bufs : List Buf} (hc : Covers lo n bufs) : lo ≤ n := by
  induction bufs generalizing lo with
  | nil => exact Nat.le_of_eq hc
  | cons b bs ih => exact Nat.le_trans (Nat.le_of_lt hc.2.1) (ih hc.2.2)

lemma ParsedAlone.foldl_executeBuf (h : ParsedAlone bytes) {lo : ℕ} {bufs : List Buf}
    (hc : Covers lo bytes.length bufs) (hlo : lo < bytes.length) (m : Hmsg) :
    (bufs.foldl (executeBuf bytes) (stateAt bytes lo, m)).2 =
      (bufs.foldl (Is2.execute h.message) m).hpOnMessageComplete true := by
  induction bufs generalizing lo m with
  | nil => exact absurd hc (Nat.ne_of_lt hlo)
  | cons b bs ih =>
      obtain ⟨rfl, hlt, hrest⟩ := hc
      have hle := covers_le hrest
      rw [List.foldl_cons, List.foldl_cons, h.executeBuf_eq hlt hle]
      by_cases hlast : b.hi = bytes.length
      · rw [if_pos hlast]
        cases bs with
        | nil => rfl
        | cons b' bs' =>
            have := covers_le hrest.2.2
            have := hrest.2.1
            omega
      · rw [if_neg hlast]
        exact ih hrest (by omega) _

/-- **The assumption on messages is met.**  What the parser takes in one call, with the end of a
message at its last byte only, is a message: whichever way it is cut, the record that the callbacks
make of it is that of the message. -/
theorem parsed_message (h : ParsedAlone bytes) : ∃ m : Message, m.bytes = bytes ∧
    ∀ c : Cutting m.bytes.length,
      parseRqst bytes c.bufs = (parse m .rqst c).hpOnMessageComplete true :=
  ⟨h.message, rfl, fun c =>
    h.foldl_executeBuf c.covers (List.length_pos_of_ne_nil h.nonempty) _⟩

theorem parsed_message_post : ∃ m : Message, m.bytes = postOk ∧
    ∀ c : Cutting m.bytes.length,
      parseRqst postOk c.bufs = (parse m .rqst c).hpOnMessageComplete true :=
  parsed_message postOk_alone

end Cuttings

end Http

end Is2
