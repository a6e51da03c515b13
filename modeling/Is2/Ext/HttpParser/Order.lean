import Is2.Ext.HttpParser.Buffers

/-!
# The order of the callbacks

The callbacks of a message come in a fixed order: the start of the message, the URL or the reason
phrase, the names and values of the headers, the end of the headers, the body, in one stretch or in
chunks, the names and values of a trailer, the end of the message.  A value that is folded, or
empty and folded, is reported in several stretches; each name has at least one.

`Phase` has the places between two callbacks, `Path` the ways through them.  Each turn on one byte
is a way from the phase of the state before to the phase of the state behind it; marks are part of
that.  What is reported then follows the same ways (`Path.reports`).
-/

namespace Is2

namespace Http

open Stretches

/-- Where a message has got to.  The flag says that the headers are those of a trailer. -/
inductive Phase where
  | idle
  | begun (trailer : Bool)
  | url (trailer : Bool)
  /-- inside the reason phrase -/
  | reason (trailer : Bool)
  /-- a name may come, or the end of the headers -/
  | lines (trailer : Bool)
  | name (trailer : Bool)
  /-- behind a name -/
  | colon (trailer : Bool)
  /-- a value may come -/
  | valueLine (trailer : Bool)
  | value (trailer : Bool)
  /-- behind a value -/
  | ended (trailer : Bool)
  /-- behind the end of the headers -/
  | heard
  | body
  /-- between two chunks -/
  | chunks
  | chunk
  /-- behind the last chunk -/
  | closed
deriving DecidableEq, Repr

namespace Phase

/-- What may be done in a phase. -/
def step : Phase → Op → Option Phase
  | idle, .note .messageBegin _ => some (begun false)
  | begun t, .mark .url _ => some (url t)
  | begun t, .mark .status _ => some (reason t)
  | url t, .flush .url _ => some (lines t)
  | reason t, .flush .status _ => some (lines t)
  | lines t, .mark .headerField _ => some (name t)
  | name t, .flush .headerField _ => some (colon t)
  | valueLine t, .mark .headerValue _ => some (value t)
  | value t, .flush .headerValue _ => some (ended t)
  | lines false, .note (.headersComplete _ _ _ _) _ => some heard
  | lines true, .note .chunkComplete _ => some closed
  | heard, .note (.messageComplete _) _ => some idle
  | body, .mark .body _ => some body
  | body, .flush .body _ => some body
  | body, .note (.messageComplete _) _ => some idle
  | chunks, .note (.chunkHeader n) _ => some (if n = 0 then lines true else chunk)
  | chunk, .mark .body _ => some chunk
  | chunk, .flush .body _ => some chunk
  | chunk, .note .chunkComplete _ => some chunks
  | closed, .note (.messageComplete _) _ => some idle
  | _, _ => none

/-- Where several things may follow. -/
def relax : Phase → Phase → Bool
  | ended t, lines t' => t = t'
  | ended t, valueLine t' => t = t'
  | colon t, valueLine t' => t = t'
  | heard, body => true
  | heard, chunks => true
  | _, _ => false

end Phase

/-- The ways through the phases. -/
inductive Path : Phase → List Op → Phase → Prop where
  | nil (φ : Phase) : Path φ [] φ
  | cons {φ φ' ψ : Phase} {a : Op} {as : List Op} (h : φ.step a = some φ') (rest : Path φ' as ψ) :
      Path φ (a :: as) ψ
  | relax {φ φ' ψ : Phase} {as : List Op} (h : φ.relax φ' = true) (rest : Path φ' as ψ) :
      Path φ as ψ

/-- The phase of a state. -/
def phase (P : Parser) : Phase :=
  let t := P.flags.trailing
  match P.state with
  | .dead | .startRes | .startReq => .idle
  | .resH | .resHT | .resHTT | .resHTTP | .resHttpMajor | .resHttpDot | .resHttpMinor
  | .resHttpEnd | .resFirstStatusCode | .resStatusCode | .resStatusStart | .reqMethod
  | .url .spacesBeforeUrl => .begun t
  | .resStatus => .reason t
  | .url _ => .url t
  | .resLineAlmostDone | .reqHttpStart | .reqHttpH | .reqHttpHT | .reqHttpHTT | .reqHttpHTTP
  | .reqHttpI | .reqHttpIC | .reqHttpMajor | .reqHttpDot | .reqHttpMinor | .reqHttpEnd
  | .reqLineAlmostDone | .headerFieldStart | .headersAlmostDone => .lines t
  | .headerField => .name t
  | .headerValueDiscardWs | .headerValueDiscardWsAlmostDone | .headerValueDiscardLws => .colon t
  | .headerValueStart => .valueLine t
  | .headerValue => .value t
  | .headerAlmostDone | .headerValueLws => .ended t
  | .headersDone => .heard
  | .bodyIdentity | .bodyIdentityEof | .messageDone => .body
  | .chunkSizeStart | .chunkSize | .chunkParameters | .chunkSizeAlmostDone => .chunks
  | .chunkData | .chunkDataAlmostDone | .chunkDataDone => .chunk

section Path

variable {φ φ' ψ χ : Phase} {as bs : List Op} {a : Op}

lemma Path.append (h : Path φ as ψ) (h' : Path ψ bs χ) : Path φ (as ++ bs) χ := by
  induction h with
  | nil => exact h'
  | cons hs _ ih => exact .cons hs (ih h')
  | relax hr _ ih => exact .relax hr (ih h')

lemma Path.one (h : φ.step a = some ψ) : Path φ [a] ψ := .cons h (.nil ψ)

lemma Path.relaxed (h : φ.relax ψ = true) : Path φ [] ψ := .relax h (.nil ψ)

/-- The places do not matter. -/
lemma Phase.step_shift (φ : Phase) (a : Op) (d : ℕ) : φ.step (a.shift d) = φ.step a := by
  cases a with
  | mark k p => cases φ <;> cases k <;> rfl
  | flush k p => cases φ <;> cases k <;> rfl
  | note n p =>
      cases φ with
      | lines t => cases t <;> cases n <;> rfl
      | _ => cases n <;> rfl

lemma Path.shift (h : Path φ as ψ) (d : ℕ) : Path φ (as.map (Act.shift d)) ψ := by
  induction h with
  | nil φ => exact .nil φ
  | cons hs _ ih => exact .cons ((Phase.step_shift _ _ d).trans hs) ih
  | relax hr _ ih => exact .relax hr ih

end Path

/-! ## What is reported -/

/-- A call, as what is done for it. -/
def acts : Call → List Op
  | .span k s t => [.mark k s, .flush k t]
  | .note n p => [.note n p]

namespace Phase

/-- The phase in front of a stretch that is open. -/
def base : Phase → Phase
  | url t | reason t => begun t
  | name t => lines t
  | value t => valueLine t
  | φ => φ

/-- The kind that is open in a phase; a stretch of body may be, in its phases. -/
def opened : Phase → Option DataKind
  | url _ => some .url
  | reason _ => some .status
  | name _ => some .headerField
  | value _ => some .headerValue
  | _ => none

end Phase

/-- The marks of a phase, apart from that of a body. -/
def MarksOf (φ : Phase) (M : Marks DataKind) : Prop :=
  ∀ k, k ≠ .body → ((M k).isSome = true ↔ φ.opened = some k)

section Reports

variable {φ φ' ψ : Phase} {M : Marks DataKind} {a : Op} {as : List Op}

lemma marksOf_relax (h : φ.relax φ' = true) (hM : MarksOf φ M) :
    φ.base = φ ∧ φ'.base = φ' ∧ MarksOf φ' M := by
  cases φ <;> cases φ' <;> first | exact ⟨rfl, rfl, hM⟩ | simp [Phase.relax] at h

/-- Setting a mark. -/
lemma marksOf_mark {k : DataKind} {p : ℕ} (h : φ.step (.mark k p) = some φ') (hM : MarksOf φ M) :
    φ'.base = φ ∧ φ.base = φ ∧ MarksOf φ' (act (N := Notice) M (.mark k p)).1 := by
  have hopen : φ.base = φ ∧ φ'.base = φ ∧ φ.opened = none ∧
      φ'.opened = (if k = .body then none else some k) := by
    cases φ <;> cases k <;> simp only [Phase.step, Option.some.injEq, reduceCtorEq] at h <;>
      subst h <;> exact ⟨rfl, rfl, rfl, rfl⟩
  obtain ⟨h1, h2, h3, h4⟩ := hopen
  refine ⟨h2, h1, fun k' hk' => ?_⟩
  rw [h4]
  cases hMk : M k with
  | some s =>
      rw [act_mark_some hMk]
      by_cases hb : k = .body
      · rw [if_pos hb, hM k' hk', h3]
      · have := (hM k hb).mp (by rw [hMk]; rfl)
        rw [h3] at this
        simp at this
  | none =>
      rw [act_mark_none hMk]
      dsimp only
      by_cases he : k' = k
      · subst he
        rw [Function.update_self, if_neg hk']
        simp
      · rw [Function.update_of_ne he, hM k' hk', h3]
        split
        · exact Iff.rfl
        · simp only [reduceCtorEq, Option.some.injEq, false_iff]
          exact fun h => he h.symm

/-- The end of a stretch.  A stretch of body may be without a mark. -/
lemma marksOf_flush {k : DataKind} {p : ℕ} (h : φ.step (.flush k p) = some φ')
    (hM : MarksOf φ M) : φ'.base = φ' ∧ MarksOf φ' (act (N := Notice) M (.flush k p)).1 ∧
      Path φ.base ((act (N := Notice) M (.flush k p)).2.flatMap acts) φ' := by
  have hopen : (φ.opened = some k ∧ k ≠ .body ∨ φ.base = φ' ∧ φ.opened = none ∧ k = .body) ∧
      φ'.base = φ' ∧ φ'.opened = none ∧
      ∀ s, ∃ φ'', φ.base.step (.mark k s) = some φ'' ∧ φ''.step (.flush k p) = some φ' := by
    cases φ <;> cases k <;> simp only [Phase.step, Option.some.injEq, reduceCtorEq] at h <;>
      subst h <;> simp [Phase.base, Phase.opened, Phase.step]
  obtain ⟨hor, hbase, hnone, hpath⟩ := hopen
  refine ⟨hbase, ?_⟩
  cases hMk : M k with
  | some s =>
      rw [act_flush_some hMk]
      obtain ⟨φ'', h1, h2⟩ := hpath s
      refine ⟨fun k' hk' => ?_, .cons h1 (.one h2)⟩
      dsimp only
      by_cases he : k' = k
      · rw [he, Function.update_self, hnone]
        simp
      · rw [Function.update_of_ne he, hM k' hk', hnone]
        rcases hor with ⟨ho, -⟩ | ⟨-, ho, -⟩
        · rw [ho, Option.some.injEq]
          exact ⟨fun h => absurd h.symm he, fun h => by simp at h⟩
        · rw [ho]
  | none =>
      rw [act_flush_none hMk]
      rcases hor with ⟨ho, hne⟩ | ⟨hsame, ho, -⟩
      · have := (hM k hne).mpr ho
        rw [hMk] at this
        simp at this
      · refine ⟨fun k' hk' => ?_, by rw [hsame]; exact .nil _⟩
        rw [hM k' hk', hnone, ho]

/-- A callback without data is not made inside of a stretch. -/
lemma marksOf_note {n : Notice} {p : ℕ} (h : φ.step (.note n p) = some φ') :
    φ.base = φ ∧ φ'.base = φ' ∧ φ.opened = none ∧ φ'.opened = none := by
  cases φ with
  | lines t =>
      cases t <;> cases n <;> simp only [Phase.step, Option.some.injEq, reduceCtorEq] at h <;>
        subst h <;> exact ⟨rfl, rfl, rfl, rfl⟩
  | chunks =>
      cases n <;> simp only [Phase.step, Option.some.injEq, reduceCtorEq] at h
      subst h
      split <;> exact ⟨rfl, rfl, rfl, rfl⟩
  | _ =>
      cases n <;> simp only [Phase.step, Option.some.injEq, reduceCtorEq] at h <;>
        subst h <;> exact ⟨rfl, rfl, rfl, rfl⟩

/-- **What is reported follows the same ways**, from in front of the stretch that is open. -/
lemma Path.reports (h : Path φ as ψ) (hM : MarksOf φ M) :
    MarksOf ψ (run M as).1 ∧ Path φ.base ((run M as).2.flatMap acts) ψ.base := by
  induction h generalizing M with
  | nil φ => exact ⟨hM, .nil _⟩
  | @cons φ φ' ψ a as hs _ ih =>
      rw [run_cons]
      dsimp only
      rw [List.flatMap_append]
      cases a with
      | mark k p =>
          obtain ⟨h1, h2, h3⟩ := marksOf_mark hs hM
          obtain ⟨h4, h5⟩ := ih h3
          have hnil : (act (N := Notice) M (.mark k p)).2 = [] := rfl
          rw [h1] at h5
          rw [hnil, h2]
          exact ⟨h4, h5⟩
      | flush k p =>
          obtain ⟨h1, h2, h3⟩ := marksOf_flush hs hM
          obtain ⟨h4, h5⟩ := ih h2
          rw [h1] at h5
          exact ⟨h4, h3.append h5⟩
      | note n p =>
          obtain ⟨h1, h2, h3, h4⟩ := marksOf_note hs
          have hM' : MarksOf φ' M := fun k hk => by rw [hM k hk, h3, h4]
          obtain ⟨h5, h6⟩ := ih hM'
          rw [h2] at h6
          rw [h1]
          exact ⟨h5, .cons hs h6⟩
  | @relax φ φ' ψ as hr _ ih =>
      obtain ⟨h1, h2, h3⟩ := marksOf_relax hr hM
      obtain ⟨h4, h5⟩ := ih h3
      rw [h2] at h5
      rw [h1]
      exact ⟨h4, .relax hr h5⟩

end Reports

/-! ## Turns on one byte -/

/-- The acts lead to the phase of the state behind them, and a URL or a name that is begun is not
ended by the same byte. -/
structure Orderly (φ : Phase) (P : Parser) (ops : List Op) : Prop where
  path : Path φ ops (phase P)
  longer : ∀ k, k = .url ∨ k = .headerField → ∀ p q, .mark k p ∈ ops → .flush k q ∉ ops

/-- The same for a turn, unless it ends with an error. -/
def Turn.Orderly (φ : Phase) : Turn → Prop
  | .next _ P ops => Http.Orderly φ P ops
  | .ret _ P ops => P.httpErrno = .ok → Http.Orderly φ P ops
  | .abort => True

section Combinators

variable {φ ψ : Phase} {P : Parser} {s : State} {ch : UInt8} {ops : List Op} {n : ℕ} {a : Op}

lemma orderly_nil (h : φ = phase P) : Orderly φ P [] :=
  ⟨h ▸ .nil φ, fun _ _ _ _ h => by simp at h⟩

lemma orderly_relaxed (h : φ.relax (phase P) = true) : Orderly φ P [] :=
  ⟨.relaxed h, fun _ _ _ _ h => by simp at h⟩

/-- A single act. -/
lemma orderly_one (h : φ.step a = some (phase P)) : Orderly φ P [a] :=
  ⟨.one h, fun k _ p q hm hf => by
    have he := (List.mem_singleton.mp hm).trans (List.mem_singleton.mp hf).symm
    simp at he⟩

/-- An act that is about no URL and no name. -/
def Aside (a : Op) : Prop :=
  ∀ k, k = .url ∨ k = .headerField → ∀ p, a ≠ .mark k p ∧ a ≠ .flush k p

lemma Orderly.cons (h : Orderly ψ P ops) (hs : φ.step a = some ψ) (ha : Aside a) :
    Orderly φ P (a :: ops) :=
  ⟨.cons hs h.path, fun k hk p q hm hf =>
    h.longer k hk p q ((List.mem_cons.mp hm).resolve_left fun he => (ha k hk p).1 he.symm)
      ((List.mem_cons.mp hf).resolve_left fun he => (ha k hk q).2 he.symm)⟩

lemma Orderly.relax (h : Orderly ψ P ops) (hr : φ.relax ψ = true) : Orderly φ P ops :=
  ⟨.relax hr h.path, h.longer⟩

lemma orderly_fail {e : Errno} (he : e ≠ .ok) : (fail P e).Orderly φ := fun h => absurd h he

lemma orderly_go (h : φ = phase { P with state := s }) : (go P s).Orderly φ := orderly_nil h

lemma orderly_expect {lit : UInt8} {e : Errno} (he : e ≠ .ok)
    (h : φ = phase { P with state := s }) : (expect P ch lit e s).Orderly φ := by
  rw [expect]
  split
  · exact orderly_fail he
  · exact orderly_go h

lemma orderly_counted {v n : ℕ} {k : Parser → Turn}
    (h : ∀ w, (k { P with nread := w }).Orderly φ) : (counted P v n k).Orderly φ := by
  rw [counted]
  dsimp only
  split
  case isTrue => exact fun he => absurd he (by simp)
  case isFalse => exact h _

lemma Turn.Orderly.cons {t : Turn} (h : t.Orderly ψ) (hs : φ.step a = some ψ) (ha : Aside a) :
    (t.after [a]).Orderly φ := by
  cases t with
  | next m P ops => exact Http.Orderly.cons h hs ha
  | ret m P ops => exact fun hok => Http.Orderly.cons (h hok) hs ha
  | abort => trivial

lemma Turn.Orderly.relax {t : Turn} (h : t.Orderly ψ) (hr : φ.relax ψ = true) : t.Orderly φ := by
  cases t with
  | next m P ops => exact Http.Orderly.relax h hr
  | ret m P ops => exact fun hok => Http.Orderly.relax (h hok) hr
  | abort => trivial

end Combinators

section Cases

variable {set : Settings} {P : Parser} {ch : UInt8} {t : Bool}

lemma orderly_startRes (hs : phase P = .idle) : (startRes P ch).Orderly .idle := by
  rw [startRes]
  split_ifs
  · exact orderly_nil hs.symm
  · exact orderly_one rfl
  · exact orderly_fail (by simp)

lemma orderly_startReq (hs : phase P = .idle) : (startReq P ch).Orderly .idle := by
  rw [startReq]
  split_ifs
  · exact orderly_nil hs.symm
  · exact orderly_fail (by simp)
  · dsimp only
    split
    · exact orderly_one rfl
    · exact orderly_fail (by simp)

lemma orderly_resFirstStatusCode (hs : phase P = .begun P.flags.trailing) :
    (resFirstStatusCode P ch).Orderly (.begun P.flags.trailing) := by
  rw [resFirstStatusCode]
  split_ifs
  · exact orderly_nil hs.symm
  · exact orderly_fail (by simp)
  · exact orderly_nil rfl

lemma orderly_resStatus (hs : P.state = .resStatus) :
    (resStatus P ch).Orderly (.reason P.flags.trailing) := by
  rw [resStatus]
  split_ifs
  · exact orderly_one rfl
  · exact orderly_one rfl
  · exact orderly_nil (by simp only [phase, hs])

lemma orderly_resStatusStart : (resStatusStart P ch).Orderly (.begun P.flags.trailing) := by
  rw [resStatusStart]
  split_ifs
  · exact (orderly_resStatus rfl).cons rfl (by simp [Aside])
  · exact orderly_one rfl

lemma orderly_resStatusCode (hs : P.state = .resStatusCode) :
    (resStatusCode P ch).Orderly (.begun P.flags.trailing) := by
  rw [resStatusCode]
  split_ifs
  · exact orderly_go rfl
  · exact orderly_resStatusStart
  · exact orderly_fail (by simp)
  · dsimp only
    split_ifs
    · exact orderly_fail (by simp)
    · exact orderly_nil (by simp only [phase, hs])

lemma orderly_reqMethod (hs : P.state = .reqMethod) :
    (reqMethod P ch).Orderly (.begun P.flags.trailing) := by
  rw [reqMethod]
  dsimp only
  split_ifs
  · exact orderly_fail (by simp)
  · exact orderly_nil rfl
  · exact orderly_nil (by simp only [phase, hs])
  · split
    · exact orderly_nil (by simp only [phase, hs])
    · exact orderly_fail (by simp)
  · exact orderly_fail (by simp)

lemma phase_url {s : UrlState} (h : openKind (.url s) = some .url) :
    phase { P with state := .url s } = .url P.flags.trailing := by
  cases s <;> first | rfl | simp [openKind] at h

lemma orderly_url {s : UrlState} (hs : P.state = .url s) : (url P s ch).Orderly (phase P) := by
  -- behind the first character
  have hchar : ∀ u, openKind (.url u) = some .url →
      (urlChar P u ch).Orderly (.url P.flags.trailing) := by
    intro u hu
    rw [urlChar]
    split
    case h_1 s' he => exact orderly_go (phase_url (parseUrlChar_ne he)).symm
    case h_2 => exact orderly_fail (by simp)
  have hphase : openKind (.url s) = some .url → phase P = .url P.flags.trailing := by
    intro h
    have := phase_url (P := P) h
    rwa [← hs] at this
  have hafter : openKind (.url s) = some .url →
      (reqUrl P s ch).Orderly (phase P) ∧ (reqSchema P s ch).Orderly (phase P) := by
    intro hu
    rw [hphase hu, reqUrl, reqSchema]
    constructor
    · split_ifs
      · exact orderly_one rfl
      · exact orderly_one rfl
      · exact orderly_one rfl
      · exact hchar s hu
    · split_ifs
      · exact orderly_fail (by simp)
      · exact hchar s hu
  cases s with
  | spacesBeforeUrl =>
      have hbegun : phase P = .begun P.flags.trailing := by simp only [phase, hs]
      rw [url, reqSpacesBeforeUrl, hbegun]
      split_ifs
      · exact orderly_nil hbegun.symm
      all_goals
        rw [urlChar]
        split
        case h_1 s' he =>
            exact orderly_one (congrArg some (phase_url (parseUrlChar_ne he)).symm)
        case h_2 => exact fun h => absurd h (by simp)
  | schema | schemaSlash | schemaSlashSlash | serverStart => exact (hafter rfl).2
  | _ => exact (hafter rfl).1

lemma orderly_reqHttpStart (hs : P.state = .reqHttpStart) :
    (reqHttpStart P ch).Orderly (.lines P.flags.trailing) := by
  rw [reqHttpStart]
  split_ifs
  · exact orderly_nil (by simp only [phase, hs])
  · exact orderly_go rfl
  · exact orderly_go rfl
  · exact orderly_fail (by simp)

lemma orderly_reqHttpEnd : (reqHttpEnd P ch).Orderly (.lines P.flags.trailing) := by
  rw [reqHttpEnd]
  split_ifs
  · exact orderly_go rfl
  · exact orderly_go rfl
  · exact orderly_fail (by simp)

lemma phase_newMessage (P : Parser) : phase P.newMessage = .idle := by
  rw [Parser.newMessage]
  split
  · cases P.type <;> rfl
  · rfl

/-- The end of a message, from where it may come. -/
lemma orderly_end {φ : Phase} {ka : Bool}
    (h : φ.step (.note (.messageComplete ka) 0) = some .idle) :
    Orderly φ P.newMessage [.note (.messageComplete ka) 0] :=
  orderly_one (by rw [phase_newMessage, h])

lemma orderly_messageDone {φ : Phase}
    (h : ∀ ka, φ.step (.note (.messageComplete ka) 0) = some .idle) :
    (messageDone P).Orderly φ := by
  rw [messageDone]
  split
  · exact fun _ => orderly_end (h _)
  · exact orderly_end (h _)

lemma orderly_headersDone : (headersDone P ch).Orderly .heard := by
  rw [headersDone]
  dsimp only
  split_ifs
  · exact orderly_fail (by simp)
  · exact fun _ => orderly_end rfl
  · exact orderly_end (P := { P with nread := 0 }) rfl
  · exact orderly_relaxed rfl
  · exact orderly_fail (by simp)
  · exact orderly_relaxed rfl
  · exact orderly_end (P := { P with nread := 0 }) rfl
  · exact orderly_relaxed rfl
  · exact orderly_end (P := { P with nread := 0 }) rfl
  · exact orderly_relaxed rfl

lemma orderly_headersComplete {result : ℕ} :
    (headersComplete P result ch).Orderly .heard := by
  rcases result with _ | _ | _ | _
  · exact orderly_headersDone
  · exact orderly_headersDone
  · exact orderly_headersDone
  · exact orderly_fail (by simp)

lemma orderly_headersAlmostDone (ht : t = P.flags.trailing) :
    (headersAlmostDone set P ch).Orderly (.lines t) := by
  subst ht
  rw [headersAlmostDone]
  split
  case isTrue => exact orderly_fail (by simp)
  case isFalse =>
      split
      case isTrue htr =>
          rw [htr]
          exact (orderly_messageDone (φ := .closed) fun _ => rfl).cons rfl (by simp [Aside])
      case isFalse htr =>
          rw [show P.flags.trailing = false by simpa using htr]
          generalize (P.usesTransferEncoding && P.flags.contentlength && _ : Bool) = clash
          cases clash with
          | true => exact orderly_fail (by simp)
          | false =>
              simp only [Bool.false_eq_true, if_false]
              exact orderly_headersComplete.cons rfl (by simp [Aside])

lemma orderly_headerFieldStart (ht : t = P.flags.trailing) :
    (headerFieldStart set P ch).Orderly (.lines t) := by
  rw [headerFieldStart]
  dsimp only
  split_ifs
  · exact orderly_go (by rw [ht]; rfl)
  · exact orderly_headersAlmostDone ht
  · exact orderly_fail (by simp)
  all_goals
    subst ht
    exact orderly_one rfl

/-- The comparison of a name leaves the flags. -/
lemma fieldStep_flags {P' : Parser} (h : fieldStep P ch = some P') : P'.flags = P.flags := by
  rw [fieldStep] at h
  split at h
  case isTrue =>
      obtain rfl := Option.some.inj h
      rfl
  case isFalse =>
      rw [fieldChar] at h
      split at h <;>
        first
        | (obtain rfl := Option.some.inj h; rfl)
        | simp at h

lemma orderly_headerField (hs : P.state = .headerField) (ht : t = P.flags.trailing) :
    (headerField P [ch]).Orderly (.name t) := by
  subst ht
  rw [headerField, fieldLoop_one]
  split_ifs
  · refine orderly_counted fun w => ?_
    split_ifs
    · exact orderly_one rfl
    · exact fun h => absurd h (by simp)
  · cases hstep : fieldStep P ch with
    | none => trivial
    | some R =>
        have h1 := (fieldStep_same hstep).1
        have h2 := fieldStep_flags hstep
        exact orderly_counted fun w => orderly_nil (by simp only [phase, h1, h2, hs])

lemma orderly_headerValueStart (ht : t = P.flags.trailing) :
    (headerValueStart P ch).Orderly (.valueLine t) := by
  subst ht
  rw [headerValueStart]
  dsimp only
  split <;> (try split_ifs) <;>
    first
    | exact orderly_one rfl
    | exact fun h => absurd h (by simp)

lemma orderly_headerValueDiscardWs (hs : P.state = .headerValueDiscardWs) :
    (headerValueDiscardWs P ch).Orderly (.colon P.flags.trailing) := by
  rw [headerValueDiscardWs]
  split_ifs
  · exact orderly_nil (by simp only [phase, hs])
  · exact orderly_go rfl
  · exact orderly_go rfl
  · exact (orderly_headerValueStart rfl).relax (by simp [Phase.relax])

/-- A value leaves the flag of a trailer. -/
lemma valueChar_trailing {h h' : HeaderState} {P' : Parser} (he : valueChar P h ch = .next P' h') :
    P'.flags.trailing = P.flags.trailing := by
  cases h <;> simp only [valueChar, contentLengthNum] at he <;> (try split_ifs at he) <;>
    first
    | (obtain ⟨rfl, -⟩ := ValueChar.next.inj he; rfl)
    | simp at he

lemma orderly_headerAlmostDone :
    (headerAlmostDone P ch).Orderly (.ended P.flags.trailing) :=
  orderly_expect (by simp) rfl

lemma orderly_headerValue (hs : P.state = .headerValue) (ht : t = P.flags.trailing) :
    (headerValue P [ch]).Orderly (.value t) := by
  subst ht
  rcases byte_cases P ch with rfl | rfl | ⟨h1, h2, h3⟩ | hp
  · rw [headerValue, valueLoop_cr]
    exact Turn.Orderly.cons (ψ := .ended P.flags.trailing)
      (orderly_counted fun w => orderly_nil rfl) rfl (by simp [Aside])
  · rw [headerValue, valueLoop_lf]
    refine orderly_counted fun w => Turn.Orderly.cons (ψ := .ended P.flags.trailing) ?_ rfl
      (by simp [Aside])
    rw [headerAlmostDone, expect, if_neg (by simp)]
    exact orderly_nil rfl
  · rw [headerValue, valueLoop_bad h1 h2 h3]
    exact fun h => absurd h (by simp)
  · rw [headerValue, valueLoop_one P _ hp, valueStep]
    by_cases hg : P.headerState = .general
    · rw [if_pos hg]
      exact orderly_counted fun w => orderly_nil (by simp only [phase, hs])
    · rw [if_neg hg]
      cases he : valueChar P P.headerState ch with
      | next R h =>
          have h1 := (valueChar_same.1 R h he).1
          have h2 := valueChar_trailing he
          exact orderly_counted fun w => orderly_nil (by simp only [phase, h1, h2, hs])
      | err R =>
          have := valueChar_same.2 R he
          exact fun hok => by simp [this] at hok
      | abort => trivial

lemma finishHeader_trailing (P : Parser) :
    (finishHeader P).flags.trailing = P.flags.trailing := by
  rw [finishHeader]
  split <;> rfl

lemma orderly_headerValueLws : (headerValueLws set P ch).Orderly (.ended P.flags.trailing) := by
  rw [headerValueLws]
  split
  · exact Turn.Orderly.relax (ψ := .valueLine P.flags.trailing) (orderly_headerValueStart rfl)
      (by simp [Phase.relax])
  · exact Turn.Orderly.relax (ψ := .lines P.flags.trailing)
      (orderly_headerFieldStart (finishHeader_trailing P).symm) (by simp [Phase.relax])

/-- An empty value. -/
lemma orderly_headerValueDiscardLws :
    (headerValueDiscardLws set P ch).Orderly (.colon P.flags.trailing) := by
  rw [headerValueDiscardLws]
  split_ifs
  · exact orderly_go rfl
  · exact orderly_fail (by simp)
  · have h := @orderly_headerFieldStart set ch _
      (P := { finishHeader P with state := .headerFieldStart }) (finishHeader_trailing P).symm
    have h1 := h.relax (φ := .ended P.flags.trailing) (by simp [Phase.relax])
    have h2 := h1.cons (φ := .value P.flags.trailing) (a := .flush .headerValue 0) rfl
      (by simp [Aside])
    have h3 := h2.cons (φ := .valueLine P.flags.trailing) (a := .mark .headerValue 0) rfl
      (by simp [Aside])
    have hafter : ∀ (t : Turn) (a b : Op), (t.after [b]).after [a] = t.after [a, b] := by
      intro t a b
      cases t <;> rfl
    rw [hafter] at h3
    exact h3.relax (by simp [Phase.relax])

lemma orderly_bodyIdentity (hs : P.state = .bodyIdentity) :
    (bodyIdentity P [ch]).Orderly .body := by
  have hdone : ∀ (R : Parser) (n m : ℕ), (((messageDone R).shift n).after
      [.mark .body 0, .flush .body m]).Orderly .body := by
    intro R n m
    have hend : ∀ ka p, Orderly .body R.newMessage
        [.mark .body 0, .flush .body m, .note (.messageComplete ka) p] := fun ka p =>
      ⟨.cons rfl (.cons rfl (.one (by rw [phase_newMessage]; rfl))),
        fun k hk p q hm => by rcases hk with rfl | rfl <;> simp at hm⟩
    rw [messageDone]
    split
    · exact fun _ => hend _ _
    · exact hend _ _
  rw [bodyIdentity]
  dsimp only
  split_ifs
  · trivial
  · exact hdone _ _ _
  · exact orderly_one (by simp only [phase, hs, Phase.step])

lemma orderly_chunkSizeStart : (chunkSizeStart P ch).Orderly .chunks := by
  rw [chunkSizeStart]
  split_ifs
  · trivial
  · split
    · exact orderly_fail (by simp)
    · exact orderly_go rfl

lemma orderly_chunkSize (hs : P.state = .chunkSize) : (chunkSize P ch).Orderly .chunks := by
  rw [chunkSize]
  cases unhex ch with
  | none =>
      dsimp only
      split_ifs
      · trivial
      · exact orderly_go rfl
      · exact orderly_go rfl
      · exact orderly_fail (by simp)
  | some v =>
      dsimp only
      split_ifs
      · trivial
      · exact orderly_go rfl
      · exact orderly_fail (by simp)
      · exact orderly_nil (by simp only [phase, hs])

lemma orderly_chunkParameters (hs : P.state = .chunkParameters) :
    (chunkParameters P ch).Orderly .chunks := by
  rw [chunkParameters]
  split_ifs
  · trivial
  · exact orderly_go rfl
  · exact orderly_nil (by simp only [phase, hs])

lemma orderly_chunkSizeAlmostDone : (chunkSizeAlmostDone P ch).Orderly .chunks := by
  rw [chunkSizeAlmostDone]
  dsimp only
  split_ifs with h1 h2 h3
  · trivial
  · exact orderly_fail (by simp)
  · exact orderly_one (by simp [Phase.step, phase, h3])
  · exact orderly_one (by simp [Phase.step, phase, h3])

lemma orderly_chunkData (hs : P.state = .chunkData) : (chunkData P [ch]).Orderly .chunk := by
  rw [chunkData]
  dsimp only
  split_ifs
  · trivial
  · trivial
  · exact orderly_one rfl
  · exact orderly_one (by simp only [phase, hs, Phase.step])

lemma orderly_chunkDataAlmostDone : (chunkDataAlmostDone P ch).Orderly .chunk := by
  rw [chunkDataAlmostDone]
  split_ifs
  · trivial
  · trivial
  · exact orderly_fail (by simp)
  · exact orderly_one rfl

lemma orderly_chunkDataDone : (chunkDataDone P ch).Orderly .chunk := by
  rw [chunkDataDone]
  split_ifs
  · trivial
  · exact orderly_fail (by simp)
  · exact orderly_one rfl

lemma orderly_versionDigit {f : Parser → ℕ → Parser} {s : State} {φ : Phase}
    (h : ∀ d, φ = phase { f P d with state := s }) : (versionDigit P ch f s).Orderly φ := by
  rw [versionDigit]
  split_ifs
  · exact orderly_fail (by simp)
  · exact orderly_go (h _)

/-- **The `switch` on one byte is orderly.** -/
lemma orderly_switch : (switch set P ch []).Orderly (phase P) := by
  cases hs : P.state <;> simp only [switch, hs] <;> (try simp only [phase, hs])
  case url s =>
      have h := @orderly_url P ch _ hs
      simpa only [phase, hs] using h
  case dead =>
      split_ifs
      · exact orderly_nil (by simp only [phase, hs])
      · exact orderly_fail (by simp)
  case startRes => exact orderly_startRes (by simp only [phase, hs])
  case resFirstStatusCode => exact orderly_resFirstStatusCode (by simp only [phase, hs])
  case resStatusCode => exact orderly_resStatusCode hs
  case resStatusStart => exact orderly_resStatusStart
  case resStatus => exact orderly_resStatus hs
  case startReq => exact orderly_startReq (by simp only [phase, hs])
  case reqMethod => exact orderly_reqMethod hs
  case reqHttpStart => exact orderly_reqHttpStart hs
  case reqHttpEnd => exact orderly_reqHttpEnd
  case headerFieldStart => exact orderly_headerFieldStart rfl
  case headerField => exact orderly_headerField hs rfl
  case headerValueDiscardWs => exact orderly_headerValueDiscardWs hs
  case headerValueStart => exact orderly_headerValueStart rfl
  case headerValue => exact orderly_headerValue hs rfl
  case headerAlmostDone => exact orderly_headerAlmostDone
  case headerValueLws => exact orderly_headerValueLws
  case headerValueDiscardLws => exact orderly_headerValueDiscardLws
  case headersAlmostDone => exact orderly_headersAlmostDone rfl
  case headersDone => exact orderly_headersDone
  case bodyIdentity => exact orderly_bodyIdentity hs
  case bodyIdentityEof => exact orderly_one (by simp only [phase, hs, Phase.step])
  case messageDone => exact orderly_messageDone fun _ => rfl
  case chunkSizeStart => exact orderly_chunkSizeStart
  case chunkSize => exact orderly_chunkSize hs
  case chunkParameters => exact orderly_chunkParameters hs
  case chunkSizeAlmostDone => exact orderly_chunkSizeAlmostDone
  case chunkData => exact orderly_chunkData hs
  case chunkDataAlmostDone => exact orderly_chunkDataAlmostDone
  case chunkDataDone => exact orderly_chunkDataDone
  case resHttpMajor | resHttpMinor | reqHttpMajor | reqHttpMinor =>
      exact orderly_versionDigit fun _ => rfl
  all_goals exact orderly_expect (by simp) rfl

lemma orderly_turn : (turn set P ch []).Orderly (phase P) := by
  rw [turn]
  split
  · exact orderly_counted fun w => orderly_switch (P := { P with nread := w })
  · exact orderly_switch

end Cases

/-! ## Runs -/

section Runs

variable {set : Settings} {P Q : Parser} {x : UInt8} {xs : Bytes} {p : ℕ} {ops A : List Op}

lemma orderly_step (h : (scanner set).step P x = some (Q, ops)) : Orderly (phase P) Q ops := by
  have ho := @orderly_turn set P x
  simp only [scanner, byteStep] at h
  cases hT : turn set P x [] with
  | next n R acts =>
      rw [hT] at h ho
      obtain ⟨rfl, rfl⟩ := Prod.mk.inj (Option.some.inj h)
      exact ho
  | ret n R acts =>
      rw [hT] at h ho
      dsimp only at h
      split at h
      case isTrue hok =>
          obtain ⟨rfl, rfl⟩ := Prod.mk.inj (Option.some.inj h)
          exact ho hok
      case isFalse => simp at h
  | abort =>
      rw [hT] at h
      simp at h

/-- All that is done on some bytes leads from phase to phase. -/
lemma scan_path (h : (scanner set).endless.scan P p xs = some (Q, A)) :
    Path (phase P) A (phase Q) := by
  induction xs generalizing P p A with
  | nil =>
      obtain ⟨rfl, rfl⟩ := Prod.mk.inj (Option.some.inj h)
      exact .nil _
  | cons x xs ih =>
      obtain ⟨R, acts, A', hstep, hscan, rfl, -⟩ := Scanner.scan_cons h
      exact ((orderly_step hstep).path.shift p).append (ih hscan)

/-- A stretch that is cut off by the end of a buffer. -/
lemma open_path {k : DataKind} (h : openKind P.state = some k) :
    ∃ ψ, ∀ s q, Path (phase P).base [.mark k s, .flush k q] ψ := by
  have hstep : ∃ φ ψ, ∀ s q, (phase P).base.step (.mark k s) = some φ ∧
      φ.step (.flush k q) = some ψ := by
    cases hs : P.state <;> simp only [hs, openKind, reduceCtorEq, Option.some.injEq] at h
    case url u =>
        cases u <;> simp only [reduceCtorEq, Option.some.injEq] at h <;> subst h <;>
          simp only [phase, hs, Phase.base] <;> exact ⟨_, _, fun _ _ => ⟨rfl, rfl⟩⟩
    all_goals
      subst h
      simp only [phase, hs, Phase.base]
      exact ⟨_, _, fun _ _ => ⟨rfl, rfl⟩⟩
  obtain ⟨φ, ψ, hφ⟩ := hstep
  exact ⟨ψ, fun s q => .cons (hφ s q).1 (.one (hφ s q).2)⟩

lemma phase_base (h : openKind P.state = none) : (phase P).base = phase P := by
  cases hs : P.state <;> simp only [hs, openKind, reduceCtorEq] at h <;>
    simp only [phase, hs, Phase.base]
  case url u => cases u <;> first | rfl | simp at h

/-- The stretch that is open at the end of a stream is reported up to there. -/
lemma flushes_path {M : Marks DataKind} {b q : ℕ} (hfit : Fits lazyKind (openKind P.state) b M) :
    ∃ ψ, Path (phase P).base ((run (N := Notice) M (flushes kinds q)).2.flatMap acts) ψ ∧
      (openKind P.state = none → ψ = phase P) := by
  by_cases hopen : ∃ k s, M k = some s
  · obtain ⟨k, s, hk⟩ := hopen
    have ho := (hfit.only k s hk).1
    obtain ⟨ψ, hψ⟩ := open_path ho
    refine ⟨ψ, ?_, fun h => by simp [h] at ho⟩
    rw [Scanner.flushes_one hk (fun k' hne => hfit.none_of_ne fun he =>
      hne (Option.some.inj (he.symm.trans ho))) (mem_kinds k)]
    exact hψ s q
  · have hnone : ∀ k, M k = none := fun k => by
      cases hk : M k with
      | none => rfl
      | some s => exact absurd ⟨k, s, hk⟩ hopen
    rw [Scanner.flushes_none hnone]
    exact ⟨_, .nil _, fun h => phase_base h⟩

end Runs

/-- **The callbacks come in order.**  Whatever the blocks of a stream are, when they are parsed to
their ends, what they report are their parts of calls that follow the phases of messages, one
message after the other; and the phase they end in is the one the parser is in. -/
theorem calls_in_order (set : Settings) (t : ParserType) {stream : Bytes} {bufs : List Bytes}
    {Rs : List (List Call)} {P : Parser} (hcut : Cut stream bufs)
    (hfeed : feed set (.init t) 0 bufs = some (Rs, P)) :
    ∃ R ψ, Rs = clips R 0 bufs ∧ Path .idle (R.flatMap acts) ψ ∧
      (openKind P.state = none → ψ = phase P) := by
  have hinit := sound_init t
  have hopen : openKind (Parser.init t).state = none := openKind_startState t
  obtain ⟨A, hA⟩ := feed_endless hinit hcut.some hcut.short hfeed
  have hnil : (scanner set).endless.scan (.init t) 0 [] = some (.init t, []) := rfl
  have hreports := feed_reports hopen hcut.some hcut.short hnil hinit hA hfeed
  rw [List.nil_append] at hreports
  -- the calls of the stream, and those for the stretch that is open at its end
  have hphase : phase (Parser.init t) = .idle := by cases t <;> rfl
  have hpath := scan_path hA
  rw [hphase] at hpath
  have hmarks : MarksOf .idle (fun _ => none) := fun k _ => by simp [Phase.opened]
  obtain ⟨-, h1⟩ := hpath.reports hmarks
  have hfit := Scanner.scan_fits (endless_lawful set) hA
    (M := fun _ => none) ⟨fun k q hq => by simp at hq, fun k _ hk => by
      rw [show (scanner set).endless.openKind (Parser.init t) = none from hopen] at hk
      simp at hk⟩
  obtain ⟨ψ, h2, hψ⟩ := flushes_path (q := bufs.flatten.length) hfit
  refine ⟨_, ψ, hreports, ?_, hψ⟩
  rw [Stretches.run_append, List.flatMap_append]
  exact h1.append h2

theorem calls_in_order_get :
    ∃ Rs P R ψ, feed ⟨fun _ => 0⟩ (.init .request) 0 getBlocks = some (Rs, P) ∧
      Rs = clips R 0 getBlocks ∧ Path .idle (R.flatMap acts) ψ ∧
      (openKind P.state = none → ψ = phase P) := by
  have hsome : (feed ⟨fun _ => 0⟩ (.init .request) 0 getBlocks).isSome = true := by
    decide +kernel
  have hcut : Cut getBlocks.flatten getBlocks := ⟨rfl, by decide +kernel, by decide +kernel⟩
  obtain ⟨⟨Rs, P⟩, hfeed⟩ := Option.isSome_iff_exists.mp hsome
  obtain ⟨R, ψ, h⟩ := calls_in_order ⟨fun _ => 0⟩ .request hcut hfeed
  exact ⟨Rs, P, R, ψ, hfeed, h⟩

end Http

end Is2
