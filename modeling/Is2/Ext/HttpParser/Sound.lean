import Is2.Ext.HttpParser.Bulk
import Mathlib.Data.List.GetD

/-!
# What holds between two turns

`http_parser_execute` asserts what it expects of the parser: the flag and the length inside of a
chunk, the states of a header inside of a name or a value.  These are part of an invariant
(`Sound`), which every turn keeps, on however many bytes it runs.  The invariant also has the
bounds of the members: a matcher stays inside its word, and no member leaves its bit field.
-/

namespace Is2

namespace Http

open Stretches

/-- How far the matcher may be in a name, for the states of a header that occur there. -/
def HeaderState.inName : HeaderState → Option ℕ
  | .c => some 0
  | .co => some 1
  | .con => some 2
  | .matchingConnection => some (ascii "connection").length
  | .matchingProxyConnection => some (ascii "proxy-connection").length
  | .matchingContentLength => some (ascii "content-length").length
  | .matchingTransferEncoding => some (ascii "transfer-encoding").length
  | .matchingUpgrade => some (ascii "upgrade").length
  | .general | .connection | .contentLength | .transferEncoding | .upgrade => some 18
  | _ => none

/-- The same for a value. -/
def HeaderState.inValue : HeaderState → Option ℕ
  | .connection | .transferEncoding => none
  | .matchingTransferEncodingChunked => some (ascii "chunked").length
  | .matchingConnectionKeepAlive => some (ascii "keep-alive").length
  | .matchingConnectionClose => some (ascii "close").length
  | .matchingConnectionUpgrade => some (ascii "upgrade").length
  | .matchingTransferEncodingTokenStart | .matchingConnectionTokenStart => some 0
  | _ => some 18

/-- The bounds of the members. -/
structure Parser.Bounded (P : Parser) : Prop where
  errno : P.httpErrno = .ok
  nread : P.nread ≤ maxHeaderSize
  content : P.contentLength ≤ ullongMax
  version : P.httpMajor ≤ 9 ∧ P.httpMinor ≤ 9
  status : P.statusCode ≤ 999
  index : P.index ≤ 18

/-- What a state asks for; `v` is 1 once the byte has been counted. -/
def Parser.Inside (v : ℕ) (P : Parser) : Prop :=
  match P.state with
  | .reqMethod => P.index ≤ P.method.str.length
  | .headerField => ∃ n ∈ P.headerState.inName, P.index ≤ n
  | .headerValue => ∃ n ∈ P.headerState.inValue, P.index ≤ n
  | .bodyIdentity => P.contentLength ≠ 0 ∧ P.contentLength ≠ ullongMax
  | .chunkSizeStart => P.flags.chunked = true ∧ P.nread = v
  | .chunkSize | .chunkParameters | .chunkSizeAlmostDone =>
      P.flags.chunked = true ∧ P.contentLength < ullongMax
  | .chunkData => P.flags.chunked = true ∧ P.contentLength ≠ 0 ∧ P.contentLength ≠ ullongMax
  | .chunkDataAlmostDone => P.flags.chunked = true ∧ P.contentLength = 0
  | .chunkDataDone => P.flags.chunked = true
  | _ => True

/-- **The invariant of the parser.** -/
structure Parser.Sound (P : Parser) : Prop extends P.Bounded where
  inside : P.Inside 0

/-- A turn on `len` bytes keeps the invariant and stays in the buffer, or it ends with an error in
front of the end of the buffer.  No assertion fails. -/
def Turn.Sound (len : ℕ) : Turn → Prop
  | .next n P _ => n ≤ len ∧ P.Sound
  | .ret n P _ => if P.httpErrno = .ok then n ≤ len ∧ P.Sound else n < len
  | .abort => False

section Combinators

variable {P : Parser} {s : State} {ch : UInt8} {ops : List Op} {n len : ℕ}

lemma sound_next (h : P.Bounded) (hs : P.Inside 0) : (Turn.next 1 P ops).Sound 1 :=
  ⟨Nat.le_refl _, h, hs⟩

lemma sound_stay (h : P.Sound) : (Turn.next 1 P ops).Sound 1 := ⟨Nat.le_refl _, h⟩

lemma sound_ret (h : P.Sound) : (Turn.ret 1 P ops).Sound 1 := by
  rw [Turn.Sound, if_pos h.errno]
  exact ⟨Nat.le_refl _, h⟩

lemma sound_err (he : P.httpErrno ≠ .ok) (hn : n < len) : (Turn.ret n P ops).Sound len := by
  rw [Turn.Sound, if_neg he]
  exact hn

lemma sound_go (h : P.Bounded) (hs : Parser.Inside 0 { P with state := s }) : (go P s).Sound 1 :=
  sound_next ⟨h.errno, h.nread, h.content, h.version, h.status, h.index⟩ hs

lemma sound_fail {e : Errno} (he : e ≠ .ok) : (fail P e).Sound 1 := sound_err he Nat.one_pos

lemma sound_expect {lit : UInt8} {e : Errno} (h : P.Bounded) (he : e ≠ .ok)
    (hs : Parser.Inside 0 { P with state := s }) : (expect P ch lit e s).Sound 1 := by
  rw [expect]
  split
  · exact sound_fail he
  · exact sound_go h hs

lemma sound_counted {v : ℕ} {k : Parser → Turn} (hn : n < len)
    (h : ∀ w ≤ maxHeaderSize, w = (P.nread + v) % 2 ^ 32 → (k { P with nread := w }).Sound len) :
    (counted P v n k).Sound len := by
  rw [counted]
  dsimp only
  split
  case isTrue => exact sound_err (by simp) hn
  case isFalse hle => exact h _ (by simpa using hle) rfl

lemma Turn.Sound.after {t : Turn} (h : t.Sound len) : (t.after ops).Sound len := by
  cases t <;> exact h

lemma Turn.Sound.mono {t : Turn} {len' : ℕ} (h : t.Sound len) (hle : len ≤ len') :
    t.Sound len' := by
  cases t with
  | next m Q ops' => exact ⟨h.1.trans hle, h.2⟩
  | ret m Q ops' =>
      rw [Turn.Sound] at h ⊢
      split at h
      case isTrue hok =>
          rw [if_pos hok]
          exact ⟨h.1.trans hle, h.2⟩
      case isFalse hok =>
          rw [if_neg hok]
          exact h.trans_le hle
  | abort => exact h

lemma Turn.Sound.shift {t : Turn} (h : t.Sound len) (n : ℕ) : (t.shift n).Sound (len + n) := by
  cases t with
  | next m Q ops' => exact ⟨Nat.add_le_add_right h.1 n, h.2⟩
  | ret m Q ops' =>
      rw [Turn.shift, Turn.Sound]
      rw [Turn.Sound] at h
      split at h
      case isTrue hok =>
          rw [if_pos hok]
          exact ⟨Nat.add_le_add_right h.1 n, h.2⟩
      case isFalse hok =>
          rw [if_neg hok]
          exact Nat.add_lt_add_right h n
  | abort => exact h

end Combinators

/-! ## The first line -/

section FirstLine

variable {P : Parser} {s : State} {ch : UInt8}

lemma digit_le (h : isNum ch = true) : digit ch ≤ 9 := by
  simp only [isNum, Bool.and_eq_true, decide_eq_true_eq, UInt8.le_iff_toNat_le] at h
  simp only [UInt8.reduceToNat] at h
  rw [digit]
  omega

lemma sound_startRes (h : P.Sound) : (startRes P ch).Sound 1 := by
  rw [startRes]
  split_ifs
  · exact sound_stay h
  · exact sound_next ⟨h.errno, h.nread, Nat.le_refl _, h.version, h.status, h.index⟩ trivial
  · exact sound_fail (by simp)

lemma sound_resFirstStatusCode (h : P.Sound) : (resFirstStatusCode P ch).Sound 1 := by
  rw [resFirstStatusCode]
  split_ifs with hd
  · exact sound_stay h
  · exact sound_fail (by simp)
  · have := digit_le (by simpa using hd)
    exact sound_next ⟨h.errno, h.nread, h.content, h.version, by dsimp only; omega, h.index⟩ trivial

lemma sound_resStatus (h : P.Bounded) (hs : P.Inside 0) : (resStatus P ch).Sound 1 := by
  rw [resStatus]
  split_ifs
  · exact sound_next ⟨h.errno, h.nread, h.content, h.version, h.status, h.index⟩ trivial
  · exact sound_next ⟨h.errno, h.nread, h.content, h.version, h.status, h.index⟩ trivial
  · exact sound_next h hs

lemma sound_resStatusStart (h : P.Bounded) : (resStatusStart P ch).Sound 1 := by
  have hb : Parser.Bounded { P with state := .resStatus, index := 0 } :=
    ⟨h.errno, h.nread, h.content, h.version, h.status, Nat.zero_le _⟩
  rw [resStatusStart]
  split_ifs
  · exact (sound_resStatus hb trivial).after
  · exact sound_next hb trivial

lemma sound_resStatusCode (h : P.Sound) (hs : P.state = .resStatusCode) :
    (resStatusCode P ch).Sound 1 := by
  rw [resStatusCode]
  split_ifs
  · exact sound_go h.toBounded trivial
  · exact sound_resStatusStart ⟨h.errno, h.nread, h.content, h.version, h.status, h.index⟩
  · exact sound_fail (by simp)
  · dsimp only
    split_ifs with hle
    · exact sound_fail (by simp)
    · refine sound_next ⟨h.errno, h.nread, h.content, h.version, ?_, h.index⟩ ?_
      · dsimp only
        omega
      · simp [Parser.Inside, hs]

lemma str_length (m : Method) : 0 < m.str.length ∧ m.str.length ≤ 11 := by
  cases m <;> decide

lemma sound_startReq (h : P.Sound) : (startReq P ch).Sound 1 := by
  rw [startReq]
  split_ifs
  · exact sound_stay h
  · exact sound_fail (by simp)
  · dsimp only
    split
    case h_1 m hm =>
        exact sound_next ⟨h.errno, h.nread, Nat.le_refl _, h.version, h.status, by simp⟩
          (str_length m).1
    case h_2 => exact sound_fail (by simp)

/-- A method that takes over from another one has at least as many letters as have been read. -/
lemma otherMethod_length {m m' : Method} {pos : ℕ} (h : otherMethod m pos ch = some m') :
    pos + 1 ≤ m'.str.length := by
  rw [otherMethod.eq_def] at h
  split at h <;> (try split_ifs at h) <;>
    first
    | (obtain rfl := Option.some.inj h; decide)
    | simp at h

lemma sound_reqMethod (h : P.Sound) (hs : P.state = .reqMethod) : (reqMethod P ch).Sound 1 := by
  have hin : P.index ≤ P.method.str.length := by
    have := h.inside
    rwa [Parser.Inside, hs] at this
  have hlen := (str_length P.method).2
  have hgo : ∀ (m : Method), P.index + 1 ≤ m.str.length →
      Parser.Sound { P with method := m, index := P.index + 1 } := by
    intro m hm
    have := (str_length m).2
    refine ⟨⟨h.errno, h.nread, h.content, h.version, h.status, by dsimp only; omega⟩, ?_⟩
    rw [Parser.Inside, hs]
    exact hm
  rw [reqMethod]
  dsimp only
  split_ifs with h0 h1 h2
  · exact sound_fail (by simp)
  · exact sound_next ⟨h.errno, h.nread, h.content, h.version, h.status, by dsimp only; omega⟩
      trivial
  · -- the letter is not the zero behind the word
    refine sound_stay (hgo P.method ?_)
    by_contra hlt
    rw [List.getD_eq_default _ _ (by omega)] at h2
    exact h0 h2
  · split
    case h_1 m hm => exact sound_stay (hgo m (otherMethod_length hm))
    case h_2 => exact sound_fail (by simp)
  · exact sound_fail (by simp)

lemma sound_urlChar (h : P.Bounded) (u : UrlState) : (urlChar P u ch).Sound 1 := by
  rw [urlChar]
  split
  · exact sound_go h trivial
  · exact sound_fail (by simp)

lemma sound_url (h : P.Sound) (u : UrlState) : (url P u ch).Sound 1 := by
  have hschema : ∀ u, (reqSchema P u ch).Sound 1 := by
    intro u
    rw [reqSchema]
    split_ifs
    · exact sound_fail (by simp)
    · exact sound_urlChar h.toBounded u
  have hurl : ∀ u, (reqUrl P u ch).Sound 1 := by
    intro u
    rw [reqUrl]
    split_ifs
    · exact sound_next ⟨h.errno, h.nread, h.content, h.version, h.status, h.index⟩ trivial
    · exact sound_next ⟨h.errno, h.nread, h.content, by simp, h.status, h.index⟩ trivial
    · exact sound_next ⟨h.errno, h.nread, h.content, by simp, h.status, h.index⟩ trivial
    · exact sound_urlChar h.toBounded u
  cases u with
  | spacesBeforeUrl =>
      rw [url, reqSpacesBeforeUrl]
      split_ifs
      · exact sound_stay h
      · exact (sound_urlChar h.toBounded _).after
      · exact (sound_urlChar h.toBounded _).after
  | schema | schemaSlash | schemaSlashSlash | serverStart => exact hschema _
  | _ => exact hurl _

lemma sound_reqHttpStart (h : P.Sound) : (reqHttpStart P ch).Sound 1 := by
  rw [reqHttpStart]
  split_ifs
  · exact sound_stay h
  · exact sound_go h.toBounded trivial
  · exact sound_go h.toBounded trivial
  · exact sound_fail (by simp)

end FirstLine

/-! ## The end of a message -/

section Ends

variable {set : Settings} {P : Parser} {ch : UInt8}

lemma inside_newMessage (P : Parser) (v : ℕ) : P.newMessage.Inside v := by
  rw [Parser.newMessage]
  split
  · cases P.type <;> simp [Parser.Inside, Parser.startState]
  · trivial

lemma sound_newMessage (h : P.Bounded) : P.newMessage.Sound :=
  ⟨⟨h.errno, h.nread, h.content, h.version, h.status, h.index⟩, inside_newMessage P 0⟩

lemma sound_complete (h : P.Bounded) : (complete P).Sound 1 := sound_stay (sound_newMessage h)

lemma sound_messageDone (h : P.Bounded) : (messageDone P).Sound 1 := by
  rw [messageDone]
  split
  · exact sound_ret (sound_newMessage h)
  · exact sound_stay (sound_newMessage h)

lemma sound_headersDone (h : P.Bounded) : (headersDone P ch).Sound 1 := by
  have h0 : Parser.Bounded { P with nread := 0 } :=
    ⟨h.errno, Nat.zero_le _, h.content, h.version, h.status, h.index⟩
  rw [headersDone]
  dsimp only
  split_ifs with hlf hup hskip hchunked hte hreq hzero hmax heof
  · exact sound_fail (by simp)
  · exact sound_ret (sound_newMessage h0)
  · exact sound_complete h0
  · exact sound_go h0 ⟨hchunked, rfl⟩
  · exact sound_fail (by simp)
  · exact sound_go h0 trivial
  · exact sound_complete h0
  · exact sound_go h0 ⟨hzero, hmax⟩
  · exact sound_complete h0
  · exact sound_go h0 trivial

lemma sound_headersComplete {result : ℕ} (h : P.Bounded) :
    (headersComplete P result ch).Sound 1 := by
  have hskip : ∀ (f : Flags) (u : Bool), Parser.Bounded { P with flags := f, upgrade := u } :=
    fun _ _ => ⟨h.errno, h.nread, h.content, h.version, h.status, h.index⟩
  rcases result with _ | _ | _ | _
  · exact sound_headersDone h
  · exact sound_headersDone (hskip _ _)
  · exact sound_headersDone (hskip _ _)
  · exact sound_fail (by simp)

lemma sound_headersAlmostDone (h : P.Bounded) : (headersAlmostDone set P ch).Sound 1 := by
  rw [headersAlmostDone]
  split
  case isTrue => exact sound_fail (by simp)
  case isFalse =>
      split
      case isTrue =>
          exact (sound_messageDone
            ⟨h.errno, h.nread, h.content, h.version, h.status, h.index⟩).after
      case isFalse =>
          generalize (P.usesTransferEncoding && P.flags.contentlength && _ : Bool) = clash
          cases clash with
          | true => exact sound_fail (by simp)
          | false =>
              simp only [Bool.false_eq_true, if_false]
              refine Turn.Sound.after (sound_headersComplete ?_)
              exact ⟨h.errno, h.nread, h.content, h.version, h.status, h.index⟩

end Ends

/-! ## Headers -/

section Headers

variable {set : Settings} {P : Parser} {ch : UInt8} {q : Bytes} {n : ℕ} {h : HeaderState}

lemma sound_headerFieldStart (hb : P.Bounded) : (headerFieldStart set P ch).Sound 1 := by
  have hb' : Parser.Bounded { P with state := .headersAlmostDone } :=
    ⟨hb.errno, hb.nread, hb.content, hb.version, hb.status, hb.index⟩
  rw [headerFieldStart]
  dsimp only
  split_ifs
  · exact sound_go hb trivial
  · exact sound_headersAlmostDone hb'
  · exact sound_fail (by simp)
  all_goals
    exact sound_next ⟨hb.errno, hb.nread, hb.content, hb.version, hb.status, Nat.zero_le _⟩
      ⟨_, rfl, Nat.zero_le _⟩

/-- The comparison goes on only inside the word. -/
lemma compareChar_cases (word : Bytes) (i : ℕ) (c : UInt8) (miss hit more : HeaderState) :
    compareChar word i c miss hit more = miss ∨ compareChar word i c miss hit more = hit ∨
      (compareChar word i c miss hit more = more ∧ i ≤ word.length) := by
  rw [compareChar]
  split_ifs with h1 h2
  · exact Or.inl rfl
  · exact Or.inr (Or.inl rfl)
  · simp only [Bool.or_eq_true, decide_eq_true_eq, not_or] at h1
    exact Or.inr (Or.inr ⟨rfl, by omega⟩)

/-- Inside of a name. -/
structure Named (P : Parser) : Prop extends P.Bounded where
  named : ∃ n ∈ P.headerState.inName, P.index ≤ n

/-- A comparison that is inside its word before a character ends, or is inside its word behind
it. -/
lemma compareChar_in {limit : HeaderState → Option ℕ} {word : Bytes} {i : ℕ} {c : UInt8}
    {miss hit more : HeaderState} (hi : i ≤ 18) (hmiss : limit miss = some 18)
    (hhit : limit hit = some 18) (hmore : limit more = some word.length) :
    ∃ n ∈ limit (compareChar word i c miss hit more), i ≤ n := by
  rcases compareChar_cases word i c miss hit more with he | he | ⟨he, hle⟩ <;> rw [he]
  · exact ⟨18, hmiss, hi⟩
  · exact ⟨18, hhit, hi⟩
  · exact ⟨_, hmore, hle⟩

lemma named_fieldStep (hn : Named P) : ∃ R, fieldStep P ch = some R ∧ Named R := by
  obtain ⟨n, hlim, hi⟩ := hn.named
  rw [fieldStep]
  split
  case isTrue => exact ⟨P, rfl, hn⟩
  case isFalse hg =>
      cases hs : P.headerState <;> rw [hs] at hlim hg <;>
        simp [HeaderState.inName] at hlim <;> (try exact absurd rfl hg) <;>
        simp only [fieldChar, hs] <;> refine ⟨_, rfl, ?_⟩ <;> subst hlim
      case c | co =>
          refine ⟨⟨hn.errno, hn.nread, hn.content, hn.version, hn.status, by dsimp only; omega⟩, ?_⟩
          dsimp only
          split
          · exact ⟨_, rfl, by omega⟩
          · exact ⟨_, rfl, by omega⟩
      case con =>
          refine ⟨⟨hn.errno, hn.nread, hn.content, hn.version, hn.status, by dsimp only; omega⟩, ?_⟩
          dsimp only
          split_ifs
          · exact ⟨_, rfl, by simp [ascii]; omega⟩
          · exact ⟨_, rfl, by simp [ascii]; omega⟩
          · exact ⟨_, rfl, by omega⟩
      case connection | contentLength | transferEncoding | upgrade =>
          refine ⟨⟨hn.errno, hn.nread, hn.content, hn.version, hn.status, hn.index⟩, ?_⟩
          dsimp only
          split
          · exact ⟨18, rfl, hi⟩
          · exact ⟨18, rfl, hi⟩
      all_goals
        have hle : P.index + 1 ≤ 18 := Nat.succ_le_succ (hi.trans (by decide))
        exact ⟨⟨hn.errno, hn.nread, hn.content, hn.version, hn.status, hle⟩,
          compareChar_in hle rfl rfl rfl⟩

lemma named_fieldLoop (hn : Named P) :
    ∃ F m t, fieldLoop P 0 n q = some (F, m, t) ∧ Named F ∧ F.state = P.state := by
  induction q generalizing P n with
  | nil => exact ⟨P, n, none, rfl, hn, rfl⟩
  | cons c q ih =>
      by_cases hc : token c = 0
      · exact ⟨P, n, some c, fieldLoop_stop hc, hn, rfl⟩
      · obtain ⟨R, hR, hnR⟩ := @named_fieldStep _ c hn
        obtain ⟨F, m, t, hF, hnF, hs⟩ := ih (n := n + 1) hnR
        refine ⟨F, m, t, ?_, hnF, hs.trans (fieldStep_same hR).1⟩
        rw [fieldLoop_cons hc, hR]
        exact hF

/-- A byte that is no token is in the buffer. -/
lemma fieldLoop_stops {F : Parser} {m : ℕ} {c : UInt8}
    (h : fieldLoop P 0 n q = some (F, m, some c)) : m < n + q.length := by
  induction q generalizing P n with
  | nil => simp [fieldLoop] at h
  | cons x q ih =>
      rw [List.length_cons]
      by_cases hx : token x = 0
      · rw [fieldLoop_stop hx] at h
        obtain ⟨-, rfl, -⟩ : P = F ∧ n = m ∧ x = c := by simpa using h
        omega
      · rw [fieldLoop_cons hx] at h
        obtain ⟨R, -, h⟩ := Option.bind_eq_some_iff.mp h
        have := ih h
        omega

lemma sound_headerField (hn : Named P) (hs : P.state = .headerField) (hq : 0 < q.length) :
    (headerField P q).Sound q.length := by
  obtain ⟨F, m, t, hF, hnF, hsF⟩ := named_fieldLoop (n := 0) (q := q) hn
  have hm := (fieldLoop_count hF).2.2.1
  rw [headerField, hF]
  have hb : ∀ w ≤ maxHeaderSize, Parser.Bounded { F with nread := w } := fun w hw =>
    ⟨hnF.errno, hw, hnF.content, hnF.version, hnF.status, hnF.index⟩
  cases t with
  | none =>
      refine sound_counted (by omega) fun w hw _ => ⟨by omega, hb w hw, ?_⟩
      rw [Parser.Inside]
      dsimp only
      rw [hsF, hs]
      exact hnF.named
  | some ch =>
      have hlt := fieldLoop_stops hF
      refine sound_counted (by omega) fun w hw _ => ?_
      have := hb w hw
      split
      · exact ⟨by omega, ⟨this.errno, this.nread, this.content, this.version, this.status,
          this.index⟩, trivial⟩
      · exact sound_err (by simp) (by omega)

/-- Inside of a value; the state of the header is a local copy there. -/
structure Valued (P : Parser) (h : HeaderState) : Prop extends P.Bounded where
  valued : ∃ n ∈ h.inValue, P.index ≤ n

/-- What a character of a value comes to. -/
def ValueChar.Sound : ValueChar → Prop
  | .next P h => Valued P h
  | .err P => P.httpErrno ≠ .ok
  | .abort => False

lemma sound_contentLengthNum (hb : P.Bounded) : (contentLengthNum P ch).Sound := by
  rw [contentLengthNum]
  split_ifs with h1 h2 h3
  · exact ⟨hb, 18, rfl, hb.index⟩
  · exact by simp [ValueChar.Sound]
  · exact by simp [ValueChar.Sound]
  · have hd := digit_le (by simpa using h2)
    refine ⟨⟨hb.errno, hb.nread, ?_, hb.version, hb.status, hb.index⟩, 18, rfl, hb.index⟩
    dsimp only
    rw [ullongMax] at h3 ⊢
    omega

/-- The start of a token leads to a state of a value. -/
lemma tokenStart_in {c : UInt8} {words : List (UInt8 × HeaderState)} {token' start : HeaderState}
    (hwords : ∀ w ∈ words, w.2.inValue.isSome) (htoken : token'.inValue.isSome)
    (hstart : start.inValue.isSome) :
    (tokenStart c words token' start).inValue.isSome := by
  rw [tokenStart]
  cases hfind : words.find? fun w => w.1 = c with
  | some w => exact hwords w (List.mem_of_find?_eq_some hfind)
  | none =>
      dsimp only
      split_ifs
      · exact htoken
      · exact hstart
      · rfl

lemma sound_valueChar (hv : Valued P h) : (valueChar P h ch).Sound := by
  obtain ⟨n, hlim, hi⟩ := hv.valued
  -- the index is back at the start, or stays where it is
  have hrestart : ∀ (f : Flags) (g : HeaderState), g.inValue.isSome →
      Valued { P with index := 0, flags := f } g := fun f g hg =>
    ⟨⟨hv.errno, hv.nread, hv.content, hv.version, hv.status, Nat.zero_le _⟩, _,
      Option.get_mem hg, Nat.zero_le _⟩
  have hstay : ∀ (g : HeaderState), g.inValue = some 18 → Valued P g := fun g hg =>
    ⟨hv.toBounded, 18, hg, hv.index⟩
  have hword : ∀ (word : Bytes) (c : UInt8) (miss hit more : HeaderState), P.index + 1 ≤ 18 →
      miss.inValue = some 18 → hit.inValue = some 18 → more.inValue = some word.length →
      Valued { P with index := P.index + 1 }
        (compareChar word (P.index + 1) c miss hit more) := fun word c miss hit more hle h1 h2 h3 =>
    ⟨⟨hv.errno, hv.nread, hv.content, hv.version, hv.status, hle⟩, compareChar_in hle h1 h2 h3⟩
  have htoken : ∀ (g : HeaderState), P.index = 0 → g.inValue.isSome → Valued P g := fun g h0 hg =>
    ⟨hv.toBounded, _, Option.get_mem hg, by omega⟩
  cases h <;> simp [HeaderState.inValue] at hlim <;> subst hlim <;> simp only [valueChar]
  case contentLength =>
      split_ifs
      · exact hstay _ rfl
      · exact sound_contentLengthNum hv.toBounded
  case contentLengthNum => exact sound_contentLengthNum hv.toBounded
  case contentLengthWs =>
      split_ifs
      · exact hstay _ rfl
      · exact by simp [ValueChar.Sound]
  case matchingTransferEncodingTokenStart | matchingConnectionTokenStart =>
      exact htoken _ (by omega) (tokenStart_in (by simp [HeaderState.inValue]) rfl rfl)
  case matchingTransferEncodingChunked | matchingConnectionKeepAlive | matchingConnectionClose |
      matchingConnectionUpgrade =>
      exact hword _ _ _ _ _ (Nat.succ_le_succ (hi.trans (by decide))) rfl rfl rfl
  case matchingTransferEncodingToken | matchingConnectionToken =>
      split_ifs
      · exact hrestart _ _ rfl
      · exact hstay _ rfl
  case connectionKeepAlive | connectionClose | connectionUpgrade =>
      split_ifs
      · exact hrestart _ _ rfl
      · exact hstay _ rfl
      · exact hstay _ rfl
  case transferEncodingChunked =>
      split_ifs
      · exact hstay _ rfl
      · exact hstay _ rfl
  all_goals exact hstay _ rfl

/-- How the loop over a value ends, in front of `hi` or there. -/
def ValueEnd.Sound (hi : ℕ) : ValueEnd → Prop
  | .data P h n => Valued P h ∧ P.state = .headerValue ∧ n = hi
  | .cr P _ n => P.Bounded ∧ n < hi
  | .lf P _ n => P.Bounded ∧ n < hi
  | .err P n => P.httpErrno ≠ .ok ∧ n < hi
  | .abort => False

/-- The byte that stops the inner loop is in the buffer. -/
lemma generalRun_lt {lenient : Bool} {j : ℕ} (hr : (generalRun lenient j q).2 = .bad) :
    (generalRun lenient j q).1 < q.length := by
  fun_induction generalRun lenient j q with
  | case1 | case2 | case3 => simp at hr
  | case4 => simp
  | case5 limit ch q _ _ ih => exact Nat.succ_lt_succ (ih hr)

lemma sound_valueLoop (hv : Valued P h) (hs : P.state = .headerValue) (s : ℕ) :
    (valueLoop P h s n q).Sound (n + q.length) := by
  induction q generalizing P h s n with
  | nil => cases s <;> exact ⟨hv, hs, rfl⟩
  | cons c q ih =>
      have hhere : n < n + (c :: q).length := by simp
      have hnext : n + (c :: q).length = n + 1 + q.length := by
        rw [List.length_cons]
        omega
      cases s with
      | succ s =>
          rw [valueLoop, hnext]
          exact ih hv hs s
      | zero =>
          rcases byte_cases P c with rfl | rfl | ⟨h1, h2, h3⟩ | hp
          · rw [valueLoop_cr]
            exact ⟨hv.toBounded, hhere⟩
          · rw [valueLoop_lf]
            exact ⟨hv.toBounded, hhere⟩
          · rw [valueLoop_bad h1 h2 h3]
            exact ⟨by simp, hhere⟩
          · by_cases hg : h = .general
            · subst hg
              have hlt := @generalRun_lt (c :: q) P.lenientHttpHeaders maxHeaderSize
              rw [valueLoop_general hp]
              generalize generalRun P.lenientHttpHeaders maxHeaderSize (c :: q) = r at hlt
              obtain ⟨k, e⟩ := r
              cases e with
              | bad => exact ⟨by simp, Nat.add_lt_add_left (hlt rfl) n⟩
              | line | full =>
                  rw [hnext]
                  exact ih hv hs _
            · rw [valueLoop_char hp hg]
              have hchar := @sound_valueChar _ c _ hv
              cases he : valueChar P h c with
              | next R h' =>
                  rw [he] at hchar
                  rw [hnext]
                  exact ih hchar ((valueChar_same.1 R h' he).1.trans hs) 0
              | err R =>
                  rw [he] at hchar
                  exact ⟨hchar, hhere⟩
              | abort =>
                  rw [he] at hchar
                  exact hchar

lemma sound_headerAlmostDone (hb : P.Bounded) : (headerAlmostDone P ch).Sound 1 :=
  sound_expect hb (by simp) trivial

lemma sound_headerValue (hv : Valued P P.headerState) (hs : P.state = .headerValue)
    (hq : 0 < q.length) : (headerValue P q).Sound q.length := by
  have hloop := sound_valueLoop (n := 0) (q := q) hv hs 0
  rw [Nat.zero_add] at hloop
  rw [headerValue]
  cases he : valueLoop P P.headerState 0 0 q with
  | data R h n =>
      rw [he] at hloop
      obtain ⟨hR, hRs, hn⟩ := hloop
      refine sound_counted (by omega) fun w hw _ => ⟨hn.le, ?_, ?_⟩
      · exact ⟨hR.errno, hw, hR.content, hR.version, hR.status, hR.index⟩
      · rw [Parser.Inside]
        dsimp only
        rw [hRs]
        exact hR.valued
  | cr R h n =>
      rw [he] at hloop
      obtain ⟨hR, hn⟩ := hloop
      refine Turn.Sound.after (sound_counted hn fun w hw _ => ⟨hn, ?_, trivial⟩)
      exact ⟨hR.errno, hw, hR.content, hR.version, hR.status, hR.index⟩
  | lf R h n =>
      rw [he] at hloop
      obtain ⟨hR, hn⟩ := hloop
      refine sound_counted hn fun w hw _ => ?_
      refine (((sound_headerAlmostDone ?_).shift n).mono (by omega)).after
      exact ⟨hR.errno, hw, hR.content, hR.version, hR.status, hR.index⟩
  | err R n =>
      rw [he] at hloop
      exact sound_err hloop.1 hloop.2
  | abort =>
      rw [he] at hloop
      exact hloop

lemma sound_headerValueStart (hb : P.Bounded) : (headerValueStart P ch).Sound 1 := by
  -- every state that a value starts in has the index at the start
  have hstart : ∀ (R : Parser) (g : HeaderState), R.Bounded → R.state = .headerValue →
      R.headerState = g → R.index = 0 → g.inValue.isSome →
      (Turn.next 1 R []).Sound 1 := by
    intro R g hR hs hg hi hsome
    refine sound_next hR ?_
    rw [Parser.Inside, hs]
    exact ⟨_, by rw [hg]; exact Option.get_mem hsome, by omega⟩
  have hb0 : ∀ (f : Flags) (g : HeaderState) (c : ℕ), c ≤ ullongMax → Parser.Bounded
      { P with
        state := .headerValue, index := 0, flags := f, headerState := g, contentLength := c } :=
    fun f g c hc => ⟨hb.errno, hb.nread, hc, hb.version, hb.status, Nat.zero_le _⟩
  rw [headerValueStart]
  refine Turn.Sound.after ?_
  dsimp only
  split
  case h_1 => exact hstart _ _ (hb0 _ _ _ hb.content) rfl rfl rfl rfl
  case h_2 =>
      refine hstart _ _ (hb0 _ _ _ hb.content) rfl rfl rfl ?_
      split <;> rfl
  case h_3 =>
      split_ifs with hd
      · exact sound_fail (by simp)
      · exact sound_fail (by simp)
      · have := digit_le (by simpa using hd)
        exact hstart _ _ (hb0 _ _ _ (by rw [ullongMax]; omega)) rfl rfl rfl rfl
  case h_4 =>
      refine hstart _ _ (hb0 _ _ _ hb.content) rfl rfl rfl ?_
      split_ifs <;> rfl
  case h_5 he | h_6 he | h_7 he =>
      exact hstart _ _ (hb0 _ _ _ hb.content) rfl he rfl rfl
  case h_8 => exact hstart _ _ (hb0 _ _ _ hb.content) rfl rfl rfl rfl

lemma sound_headerValueDiscardWs (h : P.Sound) : (headerValueDiscardWs P ch).Sound 1 := by
  rw [headerValueDiscardWs]
  split_ifs
  · exact sound_stay h
  · exact sound_go h.toBounded trivial
  · exact sound_go h.toBounded trivial
  · exact sound_headerValueStart h.toBounded

lemma bounded_finishHeader (hb : P.Bounded) :
    Parser.Bounded { finishHeader P with state := .headerFieldStart } := by
  rw [finishHeader]
  split <;> exact ⟨hb.errno, hb.nread, hb.content, hb.version, hb.status, hb.index⟩

lemma sound_headerValueLws (hb : P.Bounded) : (headerValueLws set P ch).Sound 1 := by
  rw [headerValueLws]
  split
  · exact sound_headerValueStart
      ⟨hb.errno, hb.nread, hb.content, hb.version, hb.status, hb.index⟩
  · exact sound_headerFieldStart (bounded_finishHeader hb)

lemma sound_headerValueDiscardLws (hb : P.Bounded) :
    (headerValueDiscardLws set P ch).Sound 1 := by
  rw [headerValueDiscardLws]
  split_ifs
  · exact sound_go hb trivial
  · exact sound_fail (by simp)
  · exact (sound_headerFieldStart (bounded_finishHeader hb)).after

end Headers

/-! ## Bodies -/

section Bodies

variable {P : Parser} {ch : UInt8} {q : Bytes}

lemma sound_bodyIdentity (h : P.Sound) (hs : P.state = .bodyIdentity) (hq : 0 < q.length) :
    (bodyIdentity P q).Sound q.length := by
  obtain ⟨h0, hmax⟩ : P.contentLength ≠ 0 ∧ P.contentLength ≠ ullongMax := by
    have := h.inside
    rwa [Parser.Inside, hs] at this
  have hle := h.content
  have hb : ∀ s c, c ≤ P.contentLength → Parser.Bounded { P with state := s, contentLength := c } :=
    fun s c hc => ⟨h.errno, h.nread, hc.trans hle, h.version, h.status, h.index⟩
  rw [bodyIdentity, if_neg (by simp [h0, hmax])]
  dsimp only
  split
  case isTrue =>
      exact (((sound_messageDone (hb _ _ (Nat.sub_le _ _))).shift _).mono (by omega)).after
  case isFalse hne =>
      refine ⟨Nat.min_le_right _ _, hb _ _ (Nat.sub_le _ _), ?_⟩
      rw [Parser.Inside]
      dsimp only
      rw [hs]
      exact ⟨hne, by omega⟩

/-- The byte has been counted. -/
lemma sound_chunkSizeStart (hb : P.Bounded) (hc : P.flags.chunked = true) (hn : P.nread = 1) :
    (chunkSizeStart P ch).Sound 1 := by
  rw [chunkSizeStart, if_neg (by simp [hc, hn])]
  cases hv : unhex ch with
  | none => exact sound_fail (by simp)
  | some v =>
      have hlt := unhex_lt hv
      refine sound_go ⟨hb.errno, hb.nread, ?_, hb.version, hb.status, hb.index⟩ ⟨hc, ?_⟩
      all_goals
        dsimp only
        rw [ullongMax]
        omega

lemma sound_chunkSize (h : P.Sound) (hs : P.state = .chunkSize) : (chunkSize P ch).Sound 1 := by
  obtain ⟨hc, hlt⟩ : P.flags.chunked = true ∧ P.contentLength < ullongMax := by
    have := h.inside
    rwa [Parser.Inside, hs] at this
  rw [chunkSize, if_neg (by simp [hc])]
  split
  case isTrue => exact sound_go h.toBounded ⟨hc, hlt⟩
  case isFalse =>
      cases hv : unhex ch with
      | none =>
          dsimp only
          split
          · exact sound_go h.toBounded ⟨hc, hlt⟩
          · exact sound_fail (by simp)
      | some v =>
          have hv := unhex_lt hv
          dsimp only
          split
          case isTrue => exact sound_fail (by simp)
          case isFalse hle =>
              -- a further digit still leaves the length below the one that stands for none
              have hlt' : P.contentLength * 16 + v < ullongMax := by
                rw [ullongMax] at hle ⊢
                omega
              refine sound_next ⟨h.errno, h.nread, hlt'.le, h.version, h.status, h.index⟩ ?_
              rw [Parser.Inside]
              dsimp only
              rw [hs]
              exact ⟨hc, hlt'⟩

lemma sound_chunkParameters (h : P.Sound) (hs : P.state = .chunkParameters) :
    (chunkParameters P ch).Sound 1 := by
  obtain ⟨hc, hlt⟩ : P.flags.chunked = true ∧ P.contentLength < ullongMax := by
    have := h.inside
    rwa [Parser.Inside, hs] at this
  rw [chunkParameters, if_neg (by simp [hc])]
  split
  · exact sound_go h.toBounded ⟨hc, hlt⟩
  · exact sound_stay h

lemma sound_chunkSizeAlmostDone (h : P.Sound) (hs : P.state = .chunkSizeAlmostDone) :
    (chunkSizeAlmostDone P ch).Sound 1 := by
  obtain ⟨hc, hlt⟩ : P.flags.chunked = true ∧ P.contentLength < ullongMax := by
    have := h.inside
    rwa [Parser.Inside, hs] at this
  rw [chunkSizeAlmostDone, if_neg (by simp [hc])]
  split
  case isTrue => exact sound_fail (by simp)
  case isFalse =>
      dsimp only
      split
      case isTrue =>
          exact sound_next ⟨h.errno, Nat.zero_le _, h.content, h.version, h.status, h.index⟩ trivial
      case isFalse hne =>
          exact sound_next ⟨h.errno, Nat.zero_le _, h.content, h.version, h.status, h.index⟩
            ⟨hc, hne, hlt.ne⟩

lemma sound_chunkData (h : P.Sound) (hs : P.state = .chunkData) :
    (chunkData P q).Sound q.length := by
  obtain ⟨hc, h0, hmax⟩ :
      P.flags.chunked = true ∧ P.contentLength ≠ 0 ∧ P.contentLength ≠ ullongMax := by
    have := h.inside
    rwa [Parser.Inside, hs] at this
  have hle := h.content
  rw [chunkData, if_neg (by simp [hc]), if_neg (by simp [h0, hmax])]
  dsimp only
  split
  case isTrue hzero =>
      exact ⟨Nat.min_le_right _ _, ⟨h.errno, h.nread, (Nat.sub_le _ _).trans hle, h.version,
        h.status, h.index⟩, hc, hzero⟩
  case isFalse hne =>
      refine ⟨Nat.min_le_right _ _, ⟨h.errno, h.nread, (Nat.sub_le _ _).trans hle, h.version,
        h.status, h.index⟩, ?_⟩
      rw [Parser.Inside]
      dsimp only
      rw [hs]
      exact ⟨hc, hne, by omega⟩

lemma sound_chunkDataAlmostDone (h : P.Sound) (hs : P.state = .chunkDataAlmostDone) :
    (chunkDataAlmostDone P ch).Sound 1 := by
  obtain ⟨hc, h0⟩ : P.flags.chunked = true ∧ P.contentLength = 0 := by
    have := h.inside
    rwa [Parser.Inside, hs] at this
  rw [chunkDataAlmostDone, if_neg (by simp [hc]), if_neg (by simp [h0])]
  split
  · exact sound_fail (by simp)
  · exact sound_next ⟨h.errno, h.nread, h.content, h.version, h.status, h.index⟩ hc

lemma sound_chunkDataDone (h : P.Sound) (hs : P.state = .chunkDataDone) :
    (chunkDataDone P ch).Sound 1 := by
  have hc : P.flags.chunked = true := by
    have := h.inside
    rwa [Parser.Inside, hs] at this
  rw [chunkDataDone, if_neg (by simp [hc])]
  split
  · exact sound_fail (by simp)
  · exact sound_next ⟨h.errno, Nat.zero_le _, h.content, h.version, h.status, h.index⟩ ⟨hc, rfl⟩

end Bodies

/-! ## The turn -/

section Turns

variable {set : Settings} {P : Parser} {ch : UInt8} {rest : Bytes}

lemma sound_versionDigit {f : Parser → ℕ → Parser} {s : State}
    (hf : ∀ d ≤ 9, (f P d).Bounded) (hs : ∀ P : Parser, Parser.Inside 0 { P with state := s }) :
    (versionDigit P ch f s).Sound 1 := by
  rw [versionDigit]
  split
  case isTrue => exact sound_fail (by simp)
  case isFalse hd => exact sound_go (hf _ (digit_le (by simpa using hd))) (hs _)

/-- **The `switch` keeps the invariant**, and none of its assertions fails. -/
lemma sound_switch (h : P.Sound) (hne : P.state ≠ .chunkSizeStart) :
    (switch set P ch rest).Sound (rest.length + 1) := by
  have hb := h.toBounded
  have hin := h.inside
  have hpos : 0 < (ch :: rest).length := Nat.succ_pos _
  cases hs : P.state <;> simp only [switch, hs] <;> rw [Parser.Inside, hs] at hin
  -- the cases that look at more than one byte
  case headerField => exact sound_headerField ⟨hb, hin⟩ hs hpos
  case headerValue => exact sound_headerValue ⟨hb, hin⟩ hs hpos
  case bodyIdentity => exact sound_bodyIdentity h hs hpos
  case bodyIdentityEof => exact ⟨Nat.le_refl _, h⟩
  case chunkData => exact sound_chunkData h hs
  all_goals refine Turn.Sound.mono (?_ : Turn.Sound 1 _) hpos
  case dead =>
      split_ifs
      · exact sound_stay h
      · exact sound_fail (by simp)
  case startRes => exact sound_startRes h
  case resHttpMajor | reqHttpMajor =>
      exact sound_versionDigit (fun d hd => ⟨h.errno, h.nread, h.content, ⟨hd, h.version.2⟩,
        h.status, h.index⟩) fun _ => trivial
  case resHttpMinor | reqHttpMinor =>
      exact sound_versionDigit (fun d hd => ⟨h.errno, h.nread, h.content, ⟨h.version.1, hd⟩,
        h.status, h.index⟩) fun _ => trivial
  case resFirstStatusCode => exact sound_resFirstStatusCode h
  case resStatusCode => exact sound_resStatusCode h hs
  case resStatusStart => exact sound_resStatusStart hb
  case resStatus => exact sound_resStatus hb h.inside
  case startReq => exact sound_startReq h
  case reqMethod => exact sound_reqMethod h hs
  case url s => exact sound_url h s
  case reqHttpStart => exact sound_reqHttpStart h
  case reqHttpEnd =>
      rw [reqHttpEnd]
      split_ifs
      · exact sound_go hb trivial
      · exact sound_go hb trivial
      · exact sound_fail (by simp)
  case headerFieldStart => exact sound_headerFieldStart hb
  case headerValueDiscardWs => exact sound_headerValueDiscardWs h
  case headerValueStart => exact sound_headerValueStart hb
  case headerAlmostDone => exact sound_headerAlmostDone hb
  case headerValueLws => exact sound_headerValueLws hb
  case headerValueDiscardLws => exact sound_headerValueDiscardLws hb
  case headersAlmostDone => exact sound_headersAlmostDone hb
  case headersDone => exact sound_headersDone hb
  case messageDone => exact sound_messageDone hb
  case chunkSizeStart => exact absurd hs hne
  case chunkSize => exact sound_chunkSize h hs
  case chunkParameters => exact sound_chunkParameters h hs
  case chunkSizeAlmostDone => exact sound_chunkSizeAlmostDone h hs
  case chunkDataAlmostDone => exact sound_chunkDataAlmostDone h hs
  case chunkDataDone => exact sound_chunkDataDone h hs
  all_goals exact sound_expect hb (by simp) trivial

/-- **A turn keeps the invariant**, on however many bytes it runs. -/
theorem sound_turn (h : P.Sound) : (turn set P ch rest).Sound (rest.length + 1) := by
  rw [turn]
  split
  case isFalse hp =>
      exact sound_switch h fun hs => hp (by rw [hs]; rfl)
  case isTrue =>
      refine sound_counted (Nat.succ_pos _) fun w hw hcount => ?_
      have hb : Parser.Bounded { P with nread := w } :=
        ⟨h.errno, hw, h.content, h.version, h.status, h.index⟩
      by_cases hs : P.state = .chunkSizeStart
      · obtain ⟨hc, hn⟩ : P.flags.chunked = true ∧ P.nread = 0 := by
          have := h.inside
          rwa [Parser.Inside, hs] at this
        have hswitch : switch set { P with nread := w } ch rest =
            chunkSizeStart { P with nread := w } ch := by
          simp only [switch, hs]
        rw [hswitch]
        exact (sound_chunkSizeStart hb hc (by dsimp only; rw [hcount, hn]; rfl)).mono
          (Nat.succ_pos _)
      · refine sound_switch ⟨hb, ?_⟩ hs
        have hin := h.inside
        rw [Parser.Inside] at hin ⊢
        dsimp only
        cases hst : P.state <;> rw [hst] at hin hs <;> first | exact hin | exact absurd rfl hs

end Turns

lemma sound_init (t : ParserType) : (Parser.init t).Sound := by
  refine ⟨⟨rfl, ?_, ?_, ⟨?_, ?_⟩, ?_, ?_⟩, ?_⟩
  · exact Nat.zero_le _
  · exact Nat.zero_le _
  · exact Nat.zero_le _
  · exact Nat.zero_le _
  · exact Nat.zero_le _
  · exact Nat.zero_le _
  · cases t <;> trivial

end Http

end Is2
