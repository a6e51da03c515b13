import Is2.Ext.HttpParser.Execute

/-!
# One byte at a time, the parser is a lawful scanner

`http_parser_execute` asserts that at most one mark is left at the end of a buffer.  The reason is
in what a turn on one byte may do (`Kept`): the marks it sets and the callbacks it makes have one
of the shapes of a scanner, between the kind of stretch its state is in and that of the next state.
The cases of the `switch` are gone through once, here.
-/

namespace Is2

namespace Http

open Stretches

/-- The one kind that is reported only with bytes. -/
def lazyKind (k : DataKind) : Bool := k = .body

/-- The step is one of a scanner, sets no error, and keeps within the size of a header. -/
structure Kept (o : Option DataKind) (P : Parser) (n : ℕ) (P' : Parser) (ops : List Op) : Prop where
  one : n = 1
  shape : Shape lazyKind o ops (openKind P'.state)
  errno : P'.httpErrno = P.httpErrno
  nread : P.nread ≤ maxHeaderSize → P'.nread ≤ maxHeaderSize

/-- The last of the operations reports that a message is complete. -/
def EndsMessage (ops : List Op) : Prop := ∃ ka, [.note (.messageComplete ka) 0] <:+ ops

/-- The same for a turn, unless it ends with an error.  Without one, the function only returns
behind a whole message, with an upgrade. -/
def Keeps (o : Option DataKind) (P : Parser) : Turn → Prop
  | .next n P' ops => Kept o P n P' ops
  | .ret n P' ops => P'.httpErrno = .ok →
      Kept o P n P' ops ∧ openKind P'.state = none ∧ P'.upgrade = true ∧ EndsMessage ops
  | .abort => True

lemma EndsMessage.append_left {ops : List Op} (h : EndsMessage ops) (ops' : List Op) :
    EndsMessage (ops' ++ ops) :=
  h.imp fun _ h => List.suffix_append_of_suffix h

section Combinators

variable {o : Option DataKind} {P P' : Parser} {s : State} {ch : UInt8} {ops : List Op}

lemma shape_nil (ho : ∀ k ∈ o, lazyKind k = false) : Shape (N := Notice) lazyKind o [] o :=
  .plain ho (by simp) rfl

lemma shape_enter : Shape (N := Notice) lazyKind none [] (some .body) :=
  .enter (by simp) (by simp) rfl rfl

lemma shape_note (n : Notice) : Shape lazyKind none [.note n 0] none :=
  .plain (by simp) (by simp [Act.Plain]) rfl

lemma shape_mark {k : DataKind} (hk : lazyKind k = false) :
    Shape (N := Notice) lazyKind none [.mark k 0] (some k) :=
  .plain (by simp) (by simp [Act.Plain, hk]) (by simp [track])

lemma shape_flush {k : DataKind} (hk : lazyKind k = false) :
    Shape (N := Notice) lazyKind (some k) [.flush k 0] none :=
  .plain (by simp [hk]) (by simp [Act.Plain, hk]) (by simp [track])

/-- With nothing open, a note may come first. -/
lemma Shape.cons_note {o' : Option DataKind} (n : Notice) (h : Shape lazyKind none ops o') :
    Shape lazyKind none (.note n 0 :: ops) o' := by
  cases h with
  | plain hc hp ht =>
      exact .plain hc (List.forall_mem_cons.mpr ⟨rfl, hp⟩) ht
  | enter hc hp ht hk =>
      exact .enter hc (List.forall_mem_cons.mpr ⟨rfl, hp⟩) ht hk

/-- With nothing open, an empty stretch may come first. -/
lemma Shape.cons_empty {o' : Option DataKind} {k : DataKind} (hk : lazyKind k = false)
    (h : Shape lazyKind none ops o') :
    Shape lazyKind none (.mark k 0 :: .flush k 0 :: ops) o' := by
  have htrack : track none (.mark k 0 :: .flush k 0 :: ops) = track none ops := by simp [track]
  cases h with
  | plain hc hp ht =>
      exact .plain hc (List.forall_mem_cons.mpr ⟨⟨hk, rfl⟩, List.forall_mem_cons.mpr
        ⟨⟨hk, rfl⟩, hp⟩⟩) (htrack.trans ht)
  | enter hc hp ht hb =>
      exact .enter hc (List.forall_mem_cons.mpr ⟨⟨hk, rfl⟩, List.forall_mem_cons.mpr
        ⟨⟨hk, rfl⟩, hp⟩⟩) (htrack.trans ht) hb

lemma keeps_next (h : Shape lazyKind o ops (openKind P'.state)) (he : P'.httpErrno = P.httpErrno)
    (hn : P.nread ≤ maxHeaderSize → P'.nread ≤ maxHeaderSize) : Keeps o P (.next 1 P' ops) :=
  ⟨rfl, h, he, hn⟩

lemma keeps_fail {e : Errno} (he : e ≠ .ok) : Keeps o P (fail P' e) := fun h => absurd h he

lemma keeps_go (h : Shape (N := Notice) lazyKind o [] (openKind s)) : Keeps o P (go P s) :=
  ⟨rfl, h, rfl, id⟩

/-- What a change of other members leaves. -/
lemma Keeps.of_eq {t : Turn} (h : Keeps o P t) (he : P.httpErrno = P'.httpErrno)
    (hn : P'.nread ≤ maxHeaderSize → P.nread ≤ maxHeaderSize) : Keeps o P' t := by
  cases t with
  | next n Q ops => exact ⟨h.one, h.shape, h.errno.trans he, fun hb => h.nread (hn hb)⟩
  | ret n Q ops =>
      intro hok
      obtain ⟨h1, h2⟩ := h hok
      exact ⟨⟨h1.one, h1.shape, h1.errno.trans he, fun hb => h1.nread (hn hb)⟩, h2⟩
  | abort => trivial

lemma keeps_expect {lit : UInt8} {e : Errno} (he : e ≠ .ok)
    (h : Shape (N := Notice) lazyKind o [] (openKind s)) : Keeps o P (expect P ch lit e s) := by
  rw [expect]
  split
  · exact keeps_fail he
  · exact keeps_go h

lemma keeps_counted {v n : ℕ} {k : Parser → Turn}
    (h : ∀ Q : Parser, Q = { P with nread := (P.nread + v) % 2 ^ 32 } →
      Q.nread ≤ maxHeaderSize → Keeps o Q (k Q)) : Keeps o P (counted P v n k) := by
  rw [counted]
  dsimp only
  split
  case isTrue => exact fun he => absurd he (by simp)
  case isFalse hle =>
      exact (h _ rfl (by simpa using hle)).of_eq rfl fun _ => by simpa using hle

end Combinators

/-! ## The cases -/

section Cases

variable {set : Settings} {P : Parser} {ch : UInt8}

lemma openKind_startState (t : ParserType) : openKind (Parser.startState t) = none := by
  cases t <;> rfl

lemma openKind_newMessage (P : Parser) : openKind P.newMessage.state = none := by
  simp only [Parser.newMessage]
  split
  · exact openKind_startState _
  · rfl

lemma keeps_complete : Keeps none P (complete P) :=
  keeps_next (by rw [openKind_newMessage]; exact shape_note _) rfl id

lemma keeps_messageDone : Keeps none P (messageDone P) := by
  rw [messageDone]
  split
  · exact fun _ => ⟨⟨rfl, by rw [openKind_newMessage]; exact shape_note _, rfl, id⟩,
      openKind_newMessage P, ‹_›, _, List.suffix_rfl⟩
  · exact keeps_complete

/-- Where nothing is open, a byte may be passed over. -/
lemma keeps_stay (hs : openKind P.state = none) : Keeps none P (.next 1 P []) :=
  keeps_next (by rw [hs]; exact shape_nil (by simp)) rfl id

lemma keeps_startRes (hs : openKind P.state = none) : Keeps none P (startRes P ch) := by
  rw [startRes]
  split_ifs
  · exact keeps_stay hs
  · exact keeps_next (shape_note _) rfl id
  · exact keeps_fail (by simp)

lemma keeps_versionDigit {f : Parser → ℕ → Parser} {s : State} (hs : openKind s = none)
    (he : ∀ d, (f P d).httpErrno = P.httpErrno) (hn : ∀ d, (f P d).nread = P.nread) :
    Keeps none P (versionDigit P ch f s) := by
  rw [versionDigit]
  split_ifs
  · exact keeps_fail (by simp)
  · exact keeps_next (by rw [hs]; exact shape_nil (by simp)) (he _) fun h => by
      dsimp only
      rwa [hn]

lemma keeps_resFirstStatusCode (hs : openKind P.state = none) :
    Keeps none P (resFirstStatusCode P ch) := by
  rw [resFirstStatusCode]
  split_ifs
  · exact keeps_stay hs
  · exact keeps_fail (by simp)
  · exact keeps_next (shape_nil (by simp)) rfl id

lemma keeps_resStatus (hs : openKind P.state = some .status) :
    Keeps (some .status) P (resStatus P ch) := by
  rw [resStatus]
  split_ifs
  · exact keeps_next (shape_flush rfl) rfl id
  · exact keeps_next (shape_flush rfl) rfl id
  · exact keeps_next (by rw [hs]; exact shape_nil (by simp [lazyKind])) rfl id

lemma keeps_resStatusStart : Keeps none P (resStatusStart P ch) := by
  rw [resStatusStart]
  split_ifs with hline
  · -- the status is empty
    rw [resStatus]
    split_ifs
    · exact keeps_next (Shape.cons_empty rfl (shape_nil (by simp))) rfl id
    · exact keeps_next (Shape.cons_empty rfl (shape_nil (by simp))) rfl id
    · simp_all
  · exact keeps_next (shape_mark rfl) rfl id

lemma keeps_resStatusCode (hs : openKind P.state = none) :
    Keeps none P (resStatusCode P ch) := by
  rw [resStatusCode]
  split_ifs
  · exact keeps_go (shape_nil (by simp))
  · exact keeps_resStatusStart.of_eq rfl id
  · exact keeps_fail (by simp)
  · dsimp only
    split_ifs
    · exact keeps_fail (by simp)
    · exact keeps_next (by dsimp only; rw [hs]; exact shape_nil (by simp)) rfl id

lemma keeps_startReq (hs : openKind P.state = none) : Keeps none P (startReq P ch) := by
  rw [startReq]
  split_ifs
  · exact keeps_stay hs
  · exact keeps_fail (by simp)
  · dsimp only
    split
    · exact keeps_next (shape_note _) rfl id
    · exact keeps_fail (by simp)

lemma keeps_reqMethod (hs : openKind P.state = none) : Keeps none P (reqMethod P ch) := by
  rw [reqMethod]
  dsimp only
  split_ifs
  · exact keeps_fail (by simp)
  · exact keeps_next (shape_nil (by simp)) rfl id
  · exact keeps_next (by dsimp only; rw [hs]; exact shape_nil (by simp)) rfl id
  · split
    · exact keeps_next (by dsimp only; rw [hs]; exact shape_nil (by simp)) rfl id
    · exact keeps_fail (by simp)
  · exact keeps_fail (by simp)

/-- `parse_url_char` never goes back in front of the URL. -/
lemma parseUrlChar_ne {s s' : UrlState} (h : parseUrlChar s ch = some s') :
    openKind (.url s') = some .url := by
  have hne : s' ≠ .spacesBeforeUrl := by
    rintro rfl
    cases s <;>
      simp only [parseUrlChar, parseUrlChar.serverChar, parseUrlChar.queryChar] at h <;>
      split_ifs at h <;> simp at h
  cases s' <;> first | rfl | exact absurd rfl hne

lemma keeps_url {s : UrlState} (hs : P.state = .url s) :
    Keeps (openKind (.url s)) P (url P s ch) := by
  have hchar : ∀ u, openKind (.url s) = some .url → Keeps (some .url) P (urlChar P u ch) := by
    intro u hu
    rw [urlChar]
    split
    case h_1 s' he =>
        exact keeps_go (by rw [parseUrlChar_ne he]; exact shape_nil (by simp [lazyKind]))
    case h_2 => exact keeps_fail (by simp)
  have hopen : s ≠ .spacesBeforeUrl → openKind (.url s) = some .url := by
    cases s <;> simp [openKind]
  have hafter : s ≠ .spacesBeforeUrl → Keeps (openKind (.url s)) P (reqUrl P s ch) ∧
      Keeps (openKind (.url s)) P (reqSchema P s ch) := by
    intro hne
    rw [hopen hne, reqUrl, reqSchema]
    constructor
    · split_ifs
      · exact keeps_next (shape_flush rfl) rfl id
      · exact keeps_next (shape_flush rfl) rfl id
      · exact keeps_next (shape_flush rfl) rfl id
      · exact hchar s (hopen hne)
    · split_ifs
      · exact keeps_fail (by simp)
      · exact hchar s (hopen hne)
  cases s with
  | spacesBeforeUrl =>
      simp only [url, reqSpacesBeforeUrl, openKind]
      split_ifs
      · exact keeps_stay (by rw [hs]; rfl)
      all_goals
        rw [urlChar]
        split
        case h_1 s' he =>
            exact keeps_next (by dsimp only; rw [parseUrlChar_ne he]; exact shape_mark rfl) rfl id
        case h_2 => exact fun h => absurd h (by simp)
  | schema | schemaSlash | schemaSlashSlash | serverStart => exact (hafter (by simp)).2
  | _ => exact (hafter (by simp)).1

lemma keeps_reqHttpStart (hs : openKind P.state = none) : Keeps none P (reqHttpStart P ch) := by
  rw [reqHttpStart]
  split_ifs
  · exact keeps_stay hs
  · exact keeps_go (shape_nil (by simp))
  · exact keeps_go (shape_nil (by simp))
  · exact keeps_fail (by simp)

lemma keeps_reqHttpEnd : Keeps none P (reqHttpEnd P ch) := by
  rw [reqHttpEnd]
  split_ifs
  · exact keeps_go (shape_nil (by simp))
  · exact keeps_go (shape_nil (by simp))
  · exact keeps_fail (by simp)

lemma keeps_headersDone : Keeps none P (headersDone P ch) := by
  rw [headersDone]
  dsimp only
  have hreset : ∀ {t : Turn}, Keeps none { P with nread := 0 } t → Keeps none P t :=
    fun h => h.of_eq rfl fun _ => Nat.zero_le _
  split_ifs with hlf hup
  · exact keeps_fail (by simp)
  · rw [Bool.and_eq_true] at hup
    exact hreset fun _ => ⟨⟨rfl, by rw [openKind_newMessage]; exact shape_note _, rfl, id⟩,
      openKind_newMessage _, hup.1, _, List.suffix_rfl⟩
  · exact hreset keeps_complete
  · exact hreset (keeps_go (shape_nil (by simp)))
  · exact keeps_fail (by simp)
  · exact hreset (keeps_go shape_enter)
  · exact hreset keeps_complete
  · exact hreset (keeps_go shape_enter)
  · exact hreset keeps_complete
  · exact hreset (keeps_go shape_enter)

lemma Keeps.after_note {t : Turn} (h : Keeps none P t) (n : Notice) :
    Keeps none P (t.after [.note n 0]) := by
  cases t with
  | next m Q ops => exact ⟨h.one, Shape.cons_note n h.shape, h.errno, h.nread⟩
  | ret m Q ops =>
      intro hok
      obtain ⟨h1, hopen, hup, hend⟩ := h hok
      exact ⟨⟨h1.one, Shape.cons_note n h1.shape, h1.errno, h1.nread⟩, hopen, hup,
        hend.append_left _⟩
  | abort => trivial

lemma keeps_headersComplete (result : ℕ) : Keeps none P (headersComplete P result ch) := by
  rcases result with _ | _ | _ | _
  · exact keeps_headersDone
  · exact keeps_headersDone.of_eq rfl id
  · exact keeps_headersDone.of_eq rfl id
  · exact keeps_fail (by simp)

lemma keeps_headersAlmostDone : Keeps none P (headersAlmostDone set P ch) := by
  rw [headersAlmostDone]
  split
  case isTrue => exact keeps_fail (by simp)
  case isFalse =>
      split
      case isTrue => exact (keeps_messageDone.of_eq rfl id).after_note _
      case isFalse =>
          -- whether the two lengths contradict each other, or not
          generalize (P.usesTransferEncoding && P.flags.contentlength && _ : Bool) = clash
          cases clash with
          | true => exact keeps_fail (by simp)
          | false =>
              simp only [Bool.false_eq_true, if_false]
              refine Keeps.after_note ?_ _
              exact (keeps_headersComplete _).of_eq rfl id

lemma keeps_headerFieldStart : Keeps none P (headerFieldStart set P ch) := by
  rw [headerFieldStart]
  dsimp only
  split_ifs
  · exact keeps_go (shape_nil (by simp))
  · exact keeps_headersAlmostDone.of_eq rfl id
  · exact keeps_fail (by simp)
  all_goals exact keeps_next (shape_mark rfl) rfl id

/-- One character of a name. -/
def fieldStep (P : Parser) (ch : UInt8) : Option Parser :=
  if P.headerState = .general then some P else fieldChar P ch

/-- The comparison of a name changes nothing that is asked for here. -/
lemma fieldStep_same {P' : Parser} (h : fieldStep P ch = some P') :
    P'.state = P.state ∧ P'.httpErrno = P.httpErrno ∧ P'.nread = P.nread := by
  rw [fieldStep] at h
  split at h
  case isTrue =>
      obtain rfl := Option.some.inj h
      exact ⟨rfl, rfl, rfl⟩
  case isFalse =>
      rw [fieldChar] at h
      split at h <;>
        first
        | (obtain rfl := Option.some.inj h; exact ⟨rfl, rfl, rfl⟩)
        | simp at h

lemma fieldLoop_one (P : Parser) (ch : UInt8) :
    fieldLoop P 0 0 [ch] = if token ch = 0 then some (P, 0, some ch)
      else (fieldStep P ch).map fun P => (P, 1, none) := by
  rw [fieldLoop, fieldStep]
  split
  case isTrue => rfl
  case isFalse =>
      split
      case isTrue => rfl
      case isFalse =>
          cases fieldChar P ch with
          | none => rfl
          | some Q => rfl

lemma keeps_headerField (hs : P.state = .headerField) :
    Keeps (some .headerField) P (headerField P [ch]) := by
  rw [headerField, fieldLoop_one]
  split_ifs with ht
  · refine keeps_counted fun Q hQ hn => ?_
    split_ifs
    · exact keeps_next (shape_flush rfl) rfl id
    · exact fun h => absurd h (by simp)
  · cases hstep : fieldStep P ch with
    | none => trivial
    | some R =>
        obtain ⟨h1, h2, h3⟩ := fieldStep_same hstep
        refine Keeps.of_eq (P := R) ?_ h2 (by rw [h3]; exact id)
        refine keeps_counted fun Q hQ hn => keeps_next ?_ rfl id
        rw [hQ]
        dsimp only
        rw [h1, hs]
        exact shape_nil (by simp [lazyKind])

lemma keeps_headerValueStart : Keeps none P (headerValueStart P ch) := by
  rw [headerValueStart]
  dsimp only
  split <;> (try split_ifs) <;>
    first
    | exact keeps_next (shape_mark rfl) rfl id
    | exact fun h => absurd h (by simp)

lemma keeps_headerValueDiscardWs (hs : openKind P.state = none) :
    Keeps none P (headerValueDiscardWs P ch) := by
  rw [headerValueDiscardWs]
  split_ifs
  · exact keeps_stay hs
  · exact keeps_go (shape_nil (by simp))
  · exact keeps_go (shape_nil (by simp))
  · exact keeps_headerValueStart

/-- The `switch` over a value changes nothing that is asked for here, and an error is one. -/
lemma valueChar_same {h : HeaderState} :
    (∀ P' h', valueChar P h ch = .next P' h' →
      P'.state = P.state ∧ P'.httpErrno = P.httpErrno ∧ P'.nread = P.nread ∧
        P'.lenientHttpHeaders = P.lenientHttpHeaders) ∧
    ∀ P', valueChar P h ch = .err P' → P'.httpErrno = .invalidContentLength := by
  constructor
  · intro P' h' he
    cases h <;> simp only [valueChar, contentLengthNum] at he <;> (try split_ifs at he) <;>
      first
      | (obtain ⟨rfl, -⟩ := ValueChar.next.inj he; exact ⟨rfl, rfl, rfl, rfl⟩)
      | simp at he
  · intro P' he
    cases h <;> simp only [valueChar, contentLengthNum] at he <;> (try split_ifs at he) <;>
      first
      | (obtain rfl := ValueChar.err.inj he; rfl)
      | simp at he

/-- One character of a value that is no line end and may be there. -/
def valueStep (P : Parser) (h : HeaderState) (ch : UInt8) : ValueChar :=
  if h = .general then .next P .general else valueChar P h ch

/-- A character that the loop over a value looks at more closely. -/
def passes (P : Parser) (ch : UInt8) : Prop :=
  ch ≠ cr ∧ ch ≠ lf ∧ ¬ (!P.lenientHttpHeaders && !isHeaderChar ch) = true

lemma generalRun_cons {P : Parser} (hp : passes P ch) (n : ℕ) (q : Bytes) :
    generalRun P.lenientHttpHeaders (n + 1) (ch :: q) =
      ((generalRun P.lenientHttpHeaders n q).1 + 1, (generalRun P.lenientHttpHeaders n q).2) := by
  obtain ⟨h1, h2, h3⟩ := hp
  rw [generalRun, if_neg (by simp [h1, h2]), if_neg h3]

lemma generalRun_nil (lenient : Bool) (n : ℕ) : generalRun lenient n [] = (0, .full) := by
  cases n <;> rfl

lemma valueLoop_one (P : Parser) (h : HeaderState) (hp : passes P ch) :
    valueLoop P h 0 0 [ch] = match valueStep P h ch with
      | .next P h => .data P h 1
      | .err P => .err P 0
      | .abort => .abort := by
  have hrun := generalRun_cons hp (maxHeaderSize - 1) []
  rw [generalRun_nil, show maxHeaderSize - 1 + 1 = maxHeaderSize from rfl] at hrun
  obtain ⟨h1, h2, h3⟩ := hp
  rw [valueLoop, if_neg h1, if_neg h2, if_neg h3, valueStep]
  split
  case isTrue hg =>
      rw [hrun, hg]
      rfl
  case isFalse => cases valueChar P h ch <;> rfl

lemma keeps_headerValue (hs : P.state = .headerValue) :
    Keeps (some .headerValue) P (headerValue P [ch]) := by
  rw [headerValue]
  by_cases hp : passes P ch
  · rw [valueLoop_one P _ hp]
    obtain ⟨hnext, herr⟩ := @valueChar_same P ch P.headerState
    rw [valueStep]
    have hdata : ∀ (R : Parser) (h : HeaderState), R.state = P.state →
        R.httpErrno = P.httpErrno → R.nread = P.nread →
        Keeps (some .headerValue) P
          (counted { R with headerState := h } (1 - 1) (1 - 1) fun P => .next 1 P []) := by
      intro R h h1 h2 h3
      refine Keeps.of_eq (P := { R with headerState := h }) ?_ h2 (by
        dsimp only
        rw [h3]
        exact id)
      refine keeps_counted fun Q hQ hn => keeps_next ?_ rfl id
      rw [hQ]
      dsimp only
      rw [h1, hs]
      exact shape_nil (by simp [lazyKind])
    split_ifs
    · exact hdata P _ rfl rfl rfl
    · cases he : valueChar P P.headerState ch with
      | next R h =>
          obtain ⟨h1, h2, h3, -⟩ := hnext R h he
          exact hdata R h h1 h2 h3
      | err R =>
          intro hok
          rw [herr R he] at hok
          simp at hok
      | abort => trivial
  · rw [valueLoop]
    split_ifs with h1 h2 h3
    · dsimp only [counted]
      split_ifs with hn
      · exact fun h => absurd h (by simp)
      · exact keeps_next (shape_flush rfl) rfl fun _ => by simpa using hn
    · refine Keeps.of_eq (P := { P with state := .headerAlmostDone }) ?_ rfl id
      refine keeps_counted fun Q _ _ => ?_
      rw [headerAlmostDone, expect, if_neg (by simp)]
      exact keeps_next (shape_flush rfl) rfl id
    · exact fun h => absurd h (by simp)
    all_goals exact absurd ⟨h1, h2, h3⟩ hp

lemma finishHeader_same (P : Parser) : (finishHeader P).state = P.state ∧
    (finishHeader P).httpErrno = P.httpErrno ∧ (finishHeader P).nread = P.nread := by
  rw [finishHeader]
  split <;> exact ⟨rfl, rfl, rfl⟩

lemma keeps_headerFieldStart_finish : Keeps none P
    (headerFieldStart set { finishHeader P with state := .headerFieldStart } ch) := by
  obtain ⟨-, h2, h3⟩ := finishHeader_same P
  exact keeps_headerFieldStart.of_eq h2 (by dsimp only; rw [h3]; exact id)

lemma keeps_headerValueLws : Keeps none P (headerValueLws set P ch) := by
  rw [headerValueLws]
  split
  case isTrue => exact keeps_headerValueStart.of_eq rfl id
  case isFalse => exact keeps_headerFieldStart_finish

lemma Keeps.after_empty {t : Turn} {k : DataKind} (hk : lazyKind k = false)
    (h : Keeps none P t) : Keeps none P (t.after [.mark k 0, .flush k 0]) := by
  cases t with
  | next m Q ops => exact ⟨h.one, Shape.cons_empty hk h.shape, h.errno, h.nread⟩
  | ret m Q ops =>
      intro hok
      obtain ⟨h1, hopen, hup, hend⟩ := h hok
      exact ⟨⟨h1.one, Shape.cons_empty hk h1.shape, h1.errno, h1.nread⟩, hopen, hup,
        hend.append_left _⟩
  | abort => trivial

lemma keeps_headerValueDiscardLws : Keeps none P (headerValueDiscardLws set P ch) := by
  rw [headerValueDiscardLws]
  split_ifs
  · exact keeps_go (shape_nil (by simp))
  · exact keeps_fail (by simp)
  · exact keeps_headerFieldStart_finish.after_empty rfl

lemma keeps_bodyIdentity (hs : P.state = .bodyIdentity) :
    Keeps (some .body) P (bodyIdentity P [ch]) := by
  rw [bodyIdentity]
  dsimp only
  split_ifs with habort hzero
  · trivial
  · -- the byte is the last one
    have hlen : min P.contentLength [ch].length = 1 := by
      simp only [Bool.or_eq_true, decide_eq_true_eq, not_or] at habort
      simp only [List.length_singleton] at hzero ⊢
      omega
    rw [hlen, messageDone]
    have hshape (n : Notice) :
        Shape lazyKind (some .body) [.mark .body 0, .flush .body 1, .note n 0] none :=
      .through rfl (by simp)
    split_ifs with hup
    · exact fun _ => ⟨⟨rfl, by rw [openKind_newMessage]; exact hshape _, rfl, id⟩,
        openKind_newMessage _, hup, _, [.mark .body 0, .flush .body 1], rfl⟩
    · exact keeps_next (by rw [openKind_newMessage]; exact hshape _) rfl id
  · have hlen : min P.contentLength [ch].length = 1 := by
      simp only [Bool.or_eq_true, decide_eq_true_eq, not_or] at habort
      simp only [List.length_singleton] at hzero ⊢
      omega
    rw [hlen]
    exact keeps_next (by dsimp only; rw [hs]; exact .marked rfl) rfl id

lemma keeps_chunkSizeStart : Keeps none P (chunkSizeStart P ch) := by
  rw [chunkSizeStart]
  split_ifs
  · trivial
  · split
    · exact keeps_fail (by simp)
    · exact keeps_next (shape_nil (by simp)) rfl id

lemma keeps_chunkSize (hs : openKind P.state = none) : Keeps none P (chunkSize P ch) := by
  rw [chunkSize]
  cases unhex ch with
  | none =>
      dsimp only
      split_ifs
      · trivial
      · exact keeps_go (shape_nil (by simp))
      · exact keeps_go (shape_nil (by simp))
      · exact keeps_fail (by simp)
  | some v =>
      dsimp only
      split_ifs
      · trivial
      · exact keeps_go (shape_nil (by simp))
      · exact keeps_fail (by simp)
      · exact keeps_next (by dsimp only; rw [hs]; exact shape_nil (by simp)) rfl id

lemma keeps_chunkParameters (hs : openKind P.state = none) :
    Keeps none P (chunkParameters P ch) := by
  rw [chunkParameters]
  split_ifs
  · trivial
  · exact keeps_go (shape_nil (by simp))
  · exact keeps_stay hs

lemma keeps_chunkSizeAlmostDone : Keeps none P (chunkSizeAlmostDone P ch) := by
  rw [chunkSizeAlmostDone]
  dsimp only
  split_ifs
  · trivial
  · exact keeps_fail (by simp)
  · exact keeps_next (shape_note _) rfl fun _ => Nat.zero_le _
  · exact keeps_next (Shape.cons_note _ shape_enter) rfl fun _ => Nat.zero_le _

lemma keeps_chunkData (hs : P.state = .chunkData) :
    Keeps (some .body) P (chunkData P [ch]) := by
  rw [chunkData]
  dsimp only
  split_ifs with hc habort hzero
  · trivial
  · trivial
  all_goals
    have hlen : min P.contentLength [ch].length = 1 := by
      simp only [Bool.or_eq_true, decide_eq_true_eq, not_or] at habort
      simp only [List.length_singleton]
      omega
    rw [hlen]
  · exact keeps_next (.marked rfl) rfl id
  · exact keeps_next (by dsimp only; rw [hs]; exact .marked rfl) rfl id

lemma keeps_chunkDataAlmostDone : Keeps (some .body) P (chunkDataAlmostDone P ch) := by
  rw [chunkDataAlmostDone]
  split_ifs
  · trivial
  · trivial
  · exact keeps_fail (by simp)
  · exact keeps_next (.flushed rfl) rfl id

lemma keeps_chunkDataDone : Keeps none P (chunkDataDone P ch) := by
  rw [chunkDataDone]
  split_ifs
  · trivial
  · exact keeps_fail (by simp)
  · exact keeps_next (shape_note _) rfl fun _ => Nat.zero_le _

/-- **The `switch` on one byte.** -/
lemma keeps_switch : Keeps (openKind P.state) P (switch set P ch []) := by
  have hnone : Shape (N := Notice) lazyKind none [] none := shape_nil (by simp)
  cases hs : P.state <;> simp only [switch, hs] <;> (try simp only [openKind])
  case url s =>
      have h := @keeps_url P ch _ hs
      rwa [openKind.eq_def] at h
  case dead =>
      split_ifs
      · exact keeps_stay (by rw [hs]; rfl)
      · exact keeps_fail (by simp)
  case startRes => exact keeps_startRes (by rw [hs]; rfl)
  case resFirstStatusCode => exact keeps_resFirstStatusCode (by rw [hs]; rfl)
  case resStatusCode => exact keeps_resStatusCode (by rw [hs]; rfl)
  case resStatusStart => exact keeps_resStatusStart
  case resStatus => exact keeps_resStatus (by rw [hs]; rfl)
  case startReq => exact keeps_startReq (by rw [hs]; rfl)
  case reqMethod => exact keeps_reqMethod (by rw [hs]; rfl)
  case reqHttpStart => exact keeps_reqHttpStart (by rw [hs]; rfl)
  case reqHttpEnd => exact keeps_reqHttpEnd
  case headerFieldStart => exact keeps_headerFieldStart
  case headerField => exact keeps_headerField hs
  case headerValueDiscardWs => exact keeps_headerValueDiscardWs (by rw [hs]; rfl)
  case headerValueStart => exact keeps_headerValueStart
  case headerValue => exact keeps_headerValue hs
  case headerAlmostDone => exact keeps_expect (by simp) hnone
  case headerValueLws => exact keeps_headerValueLws
  case headerValueDiscardLws => exact keeps_headerValueDiscardLws
  case headersAlmostDone => exact keeps_headersAlmostDone
  case headersDone => exact keeps_headersDone
  case bodyIdentity => exact keeps_bodyIdentity hs
  case bodyIdentityEof => exact keeps_next (by rw [hs]; exact .marked rfl) rfl id
  case messageDone => exact keeps_messageDone
  case chunkSizeStart => exact keeps_chunkSizeStart
  case chunkSize => exact keeps_chunkSize (by rw [hs]; rfl)
  case chunkParameters => exact keeps_chunkParameters (by rw [hs]; rfl)
  case chunkSizeAlmostDone => exact keeps_chunkSizeAlmostDone
  case chunkData => exact keeps_chunkData hs
  case chunkDataAlmostDone => exact keeps_chunkDataAlmostDone
  case chunkDataDone => exact keeps_chunkDataDone
  case resHttpMajor | resHttpMinor | reqHttpMajor | reqHttpMinor =>
      exact keeps_versionDigit rfl (fun _ => rfl) fun _ => rfl
  all_goals exact keeps_expect (by simp) hnone

/-- The same for the turn, which counts the byte first. -/
lemma keeps_turn : Keeps (openKind P.state) P (turn set P ch []) := by
  rw [turn]
  split
  · refine keeps_counted fun Q hQ _ => ?_
    rw [show openKind P.state = openKind Q.state by rw [hQ]]
    exact keeps_switch
  · exact keeps_switch

end Cases

/-- **The parser is a lawful scanner.** -/
theorem scanner_lawful (set : Settings) : (scanner set).Lawful := by
  intro P ch P' ops h
  have hk := @keeps_turn set P ch
  simp only [scanner, byteStep] at h
  cases ht : turn set P ch [] with
  | next n Q acts =>
      rw [ht] at h hk
      obtain ⟨rfl, rfl⟩ := Prod.mk.inj (Option.some.inj h)
      exact hk.shape
  | ret n Q acts =>
      rw [ht] at h hk
      dsimp only at h
      split at h
      case isTrue hok =>
          obtain ⟨rfl, rfl⟩ := Prod.mk.inj (Option.some.inj h)
          exact (hk hok).1.shape
      case isFalse => simp at h
  | abort =>
      rw [ht] at h
      simp at h

end Http

end Is2
