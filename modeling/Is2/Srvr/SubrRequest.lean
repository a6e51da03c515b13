import Is2.Srvr.InQueue
import Is2.Srvr.RespText
import Is2.Srvr.SubrRqst
import Is2.Support.Nbq.Split

/-!
# The text of a subrequest

`subr::create_request` writes a request line, a line for each header, lines for `Host` and
`User-Agent` if there was none, and an empty line.  The body is joined on by reference.

The request line is made in an array of 2048 characters, but written with the length that it would
have without that limit.  Where it is too long by one character, the NUL is written as well; where
it is longer still, what is behind the array is read.  Otherwise the queue delivers what the
subrequest says, up to NULs in the verb or in the target, and lengths that are not 32-bit
(`requestLaw_iff`).
-/

namespace Is2

open OrderedMap CaseMaps HttpText

/-! ## Queues with a body behind them -/

namespace Nbq

variable {q t : Nbq} {a : SeekQueue UInt8} {r w : ℕ} {xs ys : Bytes}

/-- Whatever number of bytes is asked for, as many of `xs` are read. -/
def Delivers (q : Nbq) (xs : Bytes) : Prop :=
  ∀ len, ∃ q' n, q.read len = some (q', xs.take len, n)

lemma Delivers.unique (h : Delivers q xs) (h' : Delivers q ys) : xs = ys := by
  obtain ⟨q₁, n, he⟩ := h (xs.length + ys.length)
  obtain ⟨q₂, m, he'⟩ := h' (xs.length + ys.length)
  have heq := (Prod.mk.inj (Prod.mk.inj (Option.some.inj (he.symm.trans he'))).2).1
  rwa [List.take_of_length_le (by omega), List.take_of_length_le (by omega)] at heq

lemma Wf.delivers (h : Wf q r w) : Delivers q q.unread := by
  intro len
  obtain ⟨q', -, he, -⟩ := h.read len
  exact ⟨q', _, he⟩

lemma unread_joinRef (q t : Nbq) : (q.joinRef t).unread = q.unread ++ t.contents := by
  rw [joinRef_eq, unread, List.flatMap_append, List.flatMap_map]
  congr 1
  refine List.flatMap_congr fun b _ => ?_
  simp [Nb.unread, Nb.refTo, Nb.bytes]

/-- Behind what is still to be read, a joined body is read. -/
lemma Rep.joinRef (h : Rep q a) (hne : a.unread ≠ []) (ht : Readable t xs) :
    Delivers (q.joinRef t) (a.unread ++ xs) := by
  have hu := h.unread
  obtain ⟨r, w, hwf, -, -, -⟩ := h
  obtain ⟨p, hp, rfl, c, u, m, rfl⟩ := ht
  have hunread := unread_joinRef q p
  rw [hu] at hunread
  have hsound : Sound (q.joinRef p) := Sound.joinRef (.inl ⟨r, w, hwf⟩) hp
  change Delivers (q.joinRef p) _
  rcases hsound with ⟨r', w', h'⟩ | hlost
  · rw [← hunread]
    exact h'.delivers
  · -- the reader of a queue with something to read is not at the end
    exfalso
    have havail : q.totalReadAvail ≠ 0 := by
      rw [hwf.avail_eq, hu]
      simpa using hne
    obtain ⟨b, hb⟩ := hwf.exists_reader havail
    have hblock := hwf.readAt_block hb
    have hend := hlost.readAtEnd
    rw [joinRef_eq, hblock] at hend
    cases hend

end Nbq

namespace SubrRqst

/-! ## The property -/

/-- The header lines that a request has. -/
def fields (serverName : Bytes) (s : SubrRqst) : List (Bytes × Bytes) :=
  let hs := kvPairs s.headers
  hs ++ (if ∃ f ∈ hs, Tied caseIComp f.1 (ascii "Host") then [] else [(ascii "Host", s.host)]) ++
    if ∃ f ∈ hs, Tied caseIComp f.1 (ascii "User-Agent") then []
    else [(ascii "User-Agent", serverName)]

/-- The request line. -/
def line (s : SubrRqst) : Bytes := s.verb ++ ascii " " ++ s.pathRef ++ ascii " HTTP/1.1"

/-- The bytes of the body queue. -/
def HasBody (s : SubrRqst) (body : Bytes) : Prop :=
  s.bodyQ.elim (body = []) fun t => t.Readable body

/-- **The queue delivers the request**, behind what it still had to deliver. -/
def RequestLaw (serverName body : Bytes) (s : SubrRqst) (q : Nbq) : Prop :=
  ∃ q', createRequest serverName s q = some q' ∧
    q'.Delivers (q.unread ++ HttpText.render ⟨s.line, s.fields serverName, body⟩)

/-- The request line fits into the array, there is no NUL in it, and the lengths of the names and
values are 32-bit. -/
def Fits (serverName : Bytes) (s : SubrRqst) : Prop :=
  s.line.length < 2048 ∧ 0 ∉ s.verb ∧ 0 ∉ s.pathRef ∧
    ∀ f ∈ s.fields serverName, f.1.length < 2 ^ 32 ∧ f.2.length < 2 ^ 32

instance (serverName : Bytes) (s : SubrRqst) : Decidable (s.Fits serverName) :=
  inferInstanceAs (Decidable (_ ∧ _ ∧ _ ∧ _))

/-! ## What is written -/

variable {serverName body line : Bytes} {s : SubrRqst} {q q' : Nbq} {a : SeekQueue UInt8}

lemma specd_iff (hs : List (Bytes × Bytes)) {x y : Bytes} (hxy : lowerName x = lowerName y) :
    (hs.any fun f => strcasecmp f.1 x = 0) = true ↔ ∃ f ∈ hs, Tied caseIComp f.1 y := by
  simp [List.any_eq_true, strcasecmp_eq_zero_iff, tied_caseIComp, hxy]

lemma flatMap_headBuffers : (headBuffers serverName s).flatMap (·.getD []) =
    head ((s.fields serverName).map ApiResp.cutField) := by
  have hhost := specd_iff (kvPairs s.headers) (x := ascii "host") (y := ascii "Host")
    (by decide +kernel)
  have hua := specd_iff (kvPairs s.headers) (x := ascii "user-agent") (y := ascii "User-Agent")
    (by decide +kernel)
  -- a line of its own, for a default
  have hone : ∀ (c : Prop) [Decidable c] (f : Bytes × Bytes),
      (if c then [] else ApiResp.writeHeader f.1 f.2).flatMap (·.getD []) =
        ((if c then [] else [f]).map ApiResp.cutField).flatMap fieldLine := by
    intro c _ f
    split_ifs
    · rfl
    · simpa using ApiResp.flatMap_writeHeader [f]
  have hbody : (ApiResp.writeBody none).flatMap (·.getD []) = crlf := rfl
  simp only [headBuffers, fields, List.flatMap_append, ApiResp.flatMap_writeHeader, hhost, hua,
    hone _ (ascii "Host", s.host), hone _ (ascii "User-Agent", serverName), hbody, head,
    List.map_append]

/-- A request line that was not read from behind the array is delivered, and all that follows. -/
lemma createRequest_spec (serverName : Bytes) (hq : Nbq.Rep q a) (hb : s.HasBody body)
    (hl : requestLine s.lineText = some line) :
    ∃ q', createRequest serverName s q = some q' ∧ q'.Delivers (q.unread ++
      (line ++ crlf ++ head ((s.fields serverName).map ApiResp.cutField) ++ body)) := by
  obtain ⟨q₁, a₁, he, h₁, hu⟩ :=
    Nbq.Rep.writeBufs ([some line, some (ascii "\r\n")] ++ headBuffers serverName s) hq
  have hcrlf : ascii "\r\n" = crlf := by decide +kernel
  have htext : a₁.unread =
      q.unread ++ (line ++ crlf ++ head ((s.fields serverName).map ApiResp.cutField)) := by
    rw [hu, hq.unread, List.flatMap_append, flatMap_headBuffers, hcrlf]
    simp
  have hne : a₁.unread ≠ [] := by
    rw [htext]
    simp [crlf]
  refine ⟨s.bodyQ.elim q₁ q₁.joinRef, ?_, ?_⟩
  · simp only [createRequest, hl, Option.bind_eq_bind, Option.bind_some]
    rw [he, Option.bind_some]
  rw [← List.append_assoc, ← htext]
  cases hbq : s.bodyQ with
  | none =>
      rw [HasBody, hbq] at hb
      obtain rfl : body = [] := hb
      rw [List.append_nil, ← h₁.unread]
      obtain ⟨r, w, hwf, -⟩ := h₁
      exact hwf.delivers
  | some t =>
      rw [HasBody, hbq] at hb
      exact h₁.joinRef hne hb

/-! ## When it is the request -/

lemma length_cStr_le (s : Bytes) : (cStr s).length ≤ s.length :=
  (List.takeWhile_sublist _).length_le

lemma cStr_eq_iff {s : Bytes} : cStr s = s ↔ 0 ∉ s := by
  rw [cStr, List.takeWhile_eq_self_iff]
  constructor
  · intro h h0
    simpa using h 0 h0
  · intro h c hc
    simpa using fun h0 : c = 0 => h (h0 ▸ hc)

lemma cStr_eq_of_length {s : Bytes} (h : (cStr s).length = s.length) : cStr s = s :=
  (List.takeWhile_sublist _).eq_of_length h

lemma length_lineText (s : SubrRqst) : s.lineText.length =
    (cStr s.verb).length + 1 + (cStr s.pathRef).length + 9 := by
  have hspace : (ascii " ").length = 1 := by decide +kernel
  have hversion : (ascii " HTTP/1.1").length = 9 := by decide +kernel
  rw [lineText, List.length_append, List.length_append, List.length_append, hspace, hversion]

lemma length_line (s : SubrRqst) : s.line.length = s.verb.length + 1 + s.pathRef.length + 9 := by
  have hspace : (ascii " ").length = 1 := by decide +kernel
  have hversion : (ascii " HTTP/1.1").length = 9 := by decide +kernel
  rw [SubrRqst.line, List.length_append, List.length_append, List.length_append, hspace, hversion]

/-- What is written of a text has its length, and is the text if that is short enough. -/
lemma requestLine_some {text : Bytes} (h : requestLine text = some line) :
    line.length = text.length ∧
      (text.length < 2048 ∧ line = text ∨ text.length = 2048 ∧ line = text.take 2047 ++ [0]) := by
  unfold requestLine at h
  split_ifs at h with hlen
  obtain rfl := Option.some.inj h
  rcases Nat.lt_or_ge text.length 2048 with hlt | hge
  · have htake : (lineBuf text).take text.length = text := by
      have hall : text.take 2047 = text := List.take_of_length_le (by omega)
      rw [lineBuf, hall, List.take_left]
    exact ⟨congrArg List.length htake, .inl ⟨hlt, htake⟩⟩
  · have htake : (lineBuf text).take text.length = text.take 2047 ++ [0] := by
      rw [lineBuf, List.take_of_length_le]
      simp only [List.length_append, List.length_take, List.length_singleton]
      omega
    refine ⟨?_, .inr ⟨by omega, htake⟩⟩
    rw [htake]
    simp only [List.length_append, List.length_take, List.length_singleton]
    omega

lemma length_cut_eq_iff {s : Bytes} : (ApiResp.cut s).length = s.length ↔ s.length < 2 ^ 32 := by
  rw [← ApiResp.cut_eq_iff]
  exact ⟨fun h => (List.take_sublist _ _).eq_of_length h, congrArg List.length⟩

lemma length_head_cut_eq_iff {fs : List (Bytes × Bytes)} :
    (head (fs.map ApiResp.cutField)).length = (head fs).length ↔
      ∀ f ∈ fs, f.1.length < 2 ^ 32 ∧ f.2.length < 2 ^ 32 := by
  induction fs with
  | nil => simp [head]
  | cons f fs ih =>
      have h₁ := ApiResp.length_cut_le f.1
      have h₂ := ApiResp.length_cut_le f.2
      have hle := ApiResp.length_head_cut_le fs
      rw [List.forall_mem_cons, ← ih, ← length_cut_eq_iff, ← length_cut_eq_iff]
      simp only [head, List.map_cons, List.flatMap_cons, List.length_append, fieldLine,
        ApiResp.cutField] at hle ⊢
      omega

lemma line_ne_nul (s : SubrRqst) (l : Bytes) : s.line ≠ l ++ [0] := by
  intro h
  have hlast := congrArg List.getLast? h
  have hone : (ascii " HTTP/1.1").getLast? = some 49 := by decide +kernel
  rw [SubrRqst.line, List.getLast?_append, hone, List.getLast?_concat] at hlast
  exact absurd hlast (by simp)

/-- What is written is the request if everything fits. -/
lemma sent_eq_iff (hl : requestLine s.lineText = some line) :
    line ++ crlf ++ head ((s.fields serverName).map ApiResp.cutField) =
      s.line ++ crlf ++ head (s.fields serverName) ↔ s.Fits serverName := by
  obtain ⟨hlen, hline⟩ := requestLine_some hl
  constructor
  · intro h
    have htotal := congrArg List.length h
    have hhead := ApiResp.length_head_cut_le (s.fields serverName)
    have hverb := length_cStr_le s.verb
    have hpath := length_cStr_le s.pathRef
    have htext := length_lineText s
    have hfull := length_line s
    simp only [List.length_append] at htotal
    -- nothing that is written is longer than it should be, so nothing is shorter
    have heq : line = s.line := by
      simp only [List.append_assoc] at h
      exact (List.append_inj h (by omega)).1
    refine ⟨?_, cStr_eq_iff.mp (cStr_eq_of_length (by omega)),
      cStr_eq_iff.mp (cStr_eq_of_length (by omega)), length_head_cut_eq_iff.mp (by omega)⟩
    rcases hline with ⟨hlt, -⟩ | ⟨-, hnul⟩
    · omega
    · exact absurd (heq.symm.trans hnul) (line_ne_nul s _)
  · rintro ⟨hlt, hverb, hpath, hfields⟩
    have htext : s.lineText = s.line := by
      rw [lineText, cStr_eq_iff.mpr hverb, cStr_eq_iff.mpr hpath, SubrRqst.line]
    rw [htext] at hline
    rcases hline with ⟨-, rfl⟩ | ⟨hge, -⟩
    · rw [ApiResp.map_cutField_eq_iff.mpr hfields]
    · omega

/-! ## Every request -/

/-- **What a subrequest leaves in a queue** is what it says, and nothing is read from behind the
array, if and only if the request line has less than 2048 characters and no NUL, and no name or
value has 4 GiB or more. -/
theorem requestLaw_iff (hq : Nbq.Rep q a) (hb : s.HasBody body) :
    s.RequestLaw serverName body q ↔ s.Fits serverName := by
  cases hl : requestLine s.lineText with
  | none =>
      have hlong : 2048 < s.lineText.length := by
        unfold requestLine at hl
        split_ifs at hl with hlen
        omega
      have hverb := length_cStr_le s.verb
      have hpath := length_cStr_le s.pathRef
      rw [length_lineText] at hlong
      refine iff_of_false ?_ ?_
      · rintro ⟨q', he, -⟩
        simp [createRequest, hl] at he
      · rintro ⟨hlt, -⟩
        rw [length_line] at hlt
        omega
  | some line =>
      obtain ⟨q', he, hd⟩ := createRequest_spec serverName hq hb hl
      rw [← sent_eq_iff hl]
      constructor
      · rintro ⟨q₂, he₂, hd₂⟩
        obtain rfl := Option.some.inj (he.symm.trans he₂)
        have heq := List.append_cancel_left (hd.unique hd₂)
        simp only [render] at heq
        exact List.append_cancel_right heq
      · intro heq
        refine ⟨q', he, ?_⟩
        rw [render, ← heq]
        exact hd

/-- A request with a header, a query and a body. -/
def search : SubrRqst :=
  { new with
    host := ascii "a"
    path := ascii "/s"
    query := ascii "q=1"
    headers := [(ascii "Accept", [ascii "*/*"])]
    bodyQ := (Nconn.ncRead (.init 8) (ascii "hello") (.data 8)).map NcRead.q }

theorem requestLaw_search : search.RequestLaw (ascii "is2") (ascii "hello") (.init 16) := by
  have hq : Nbq.Rep (.init 16) .empty := Nbq.rep_init (by decide) (by decide)
  have hb : search.HasBody (ascii "hello") := by
    have hrun : ((Nconn.ncRead (.init 8) (ascii "hello") (.data 8)).map NcRead.q).map
        Nbq.contents = some (ascii "hello") := by decide +kernel
    obtain ⟨t, ht, hc⟩ := Option.map_eq_some_iff.mp hrun
    obtain ⟨r, hr, rfl⟩ := Option.map_eq_some_iff.mp ht
    have hst : Nbq.Streamed (.init 8) := ⟨⟨0, 0, Nbq.wf_init (by decide)⟩, Nbq.packed_init 8⟩
    rw [HasBody, search, hr, Option.map_some, Option.elim_some, ← hc]
    exact (hst.ncRead hr).1.readable
  exact (requestLaw_iff hq hb).mpr (by decide +kernel)

/-- A path of 2040 characters: what is behind the array is read. -/
def longPath : SubrRqst := { new with path := List.replicate 2040 97 }

theorem long_path_is_read_from_outside :
    longPath.createRequest (ascii "is2") (.init 16) = none ∧ longPath.HasBody [] ∧
      ¬ longPath.RequestLaw (ascii "is2") [] (.init 16) := by
  have hnone : longPath.createRequest (ascii "is2") (.init 16) = none := by
    have hline : requestLine longPath.lineText = none := by decide +kernel
    simp [createRequest, hline]
  refine ⟨hnone, rfl, ?_⟩
  rintro ⟨q', he, -⟩
  simp [hnone] at he

end SubrRqst

end Is2
