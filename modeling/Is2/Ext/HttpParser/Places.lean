import Is2.Ext.HttpParser.Buffers

/-!
# Places in a buffer

`http_parser_execute` does not look at addresses: a buffer elsewhere is parsed in the same way, and
what is reported lies elsewhere (`execute_shift`).  And it reports bytes of the buffer only
(`execute_within`), each stretch from its start to its stop, also in a buffer that it gives up on,
and whatever state it is in.
-/

namespace Is2

namespace Http

open Stretches

/-! ## A buffer elsewhere -/

section Shift

variable {set : Settings} {P : Parser} {M : Marks DataKind} {bytes : Bytes} {skip p data d : ℕ}

lemma loop_shift :
    loop set skip (p + d) P (shiftMarks d M) bytes =
      (loop set skip p P M bytes).map fun r => (r.1.map (Report.shift d), r.2.1, r.2.2 + d) := by
  have hops : ∀ (p : ℕ) (ops : List Op),
      ops.map (Act.shift (p + d)) = (ops.map (Act.shift p)).map (Act.shift d) := by
    intro p ops
    rw [List.map_map]
    refine List.map_congr_left fun a _ => ?_
    cases a <;> simp [Act.shift, Nat.add_assoc]
  fun_induction loop set skip p P M bytes with
  | case1 skip p P M hmarks =>
      rw [loop, if_pos (by simpa [shiftMarks] using hmarks)]
      rfl
  | case2 skip p P M hmarks =>
      have hflush : flushes (N := Notice) kinds (p + d) = (flushes kinds p).map (Act.shift d) := by
        rw [flushes, flushes, List.map_map]
        rfl
      rw [loop, if_neg (by simpa [shiftMarks] using hmarks), hflush, run_shift]
      rfl
  | case3 p P M skip ch rest ih =>
      rw [loop, Nat.add_right_comm, ih]
  | case4 p P M ch rest n Q ops hturn r ih =>
      rw [loop, hturn]
      simp only [hops, run_shift]
      rw [Nat.add_right_comm, ih, Option.map_map, Option.map_map]
      congr 1
      funext t
      simp [r]
  | case5 p P M ch rest n Q ops hturn =>
      rw [loop, hturn]
      simp only [hops, run_shift, Option.map_some, Nat.add_right_comm]
  | case6 p P M ch rest hturn =>
      rw [loop, hturn]
      rfl

/-- **A buffer elsewhere** is parsed in the same way. -/
theorem execute_shift :
    execute set P (data + d) bytes =
      (execute set P data bytes).map fun r => (r.1.map (Report.shift d), r.2) := by
  have hmarks : startMarks P.state (data + d) = shiftMarks d (startMarks P.state data) := by
    funext k
    rw [shiftMarks]
    unfold startMarks
    split <;> rfl
  rw [execute, execute]
  split_ifs with herr hnil
  · rfl
  · split <;> rfl
  · rw [hmarks, loop_shift, Option.map_map, Option.map_map]
    congr 1
    funext r
    simp [Nat.add_sub_add_right]

end Shift

/-! ## Inside the buffer -/

/-- What a turn does is done in order, from `lo` on, in the first `len` bytes and in the bytes
that it takes, or right behind them. -/
def Turn.Within (lo len : ℕ) : Turn → Prop
  | next n _ ops => Ordered lo ops (min len n)
  | ret _ _ ops => Ordered lo ops len
  | abort => True

section Within

variable {set : Settings} {P : Parser} {ch : UInt8} {rest bytes : Bytes} {lo mid len n v : ℕ}
  {T : Turn} {ops : List Op}

lemma within_go {s : State} : (go P s).Within 0 len := Nat.zero_le _

lemma within_fail {e : Errno} : (fail P e).Within 0 len := Nat.zero_le _

lemma within_counted {k : Parser → Turn} (hlo : lo ≤ len) (h : ∀ P, (k P).Within lo len) :
    (counted P v n k).Within lo len := by
  rw [counted]
  split_ifs
  · exact hlo
  · exact h _

lemma Turn.Within.after (h : T.Within mid len) (hops : Ordered lo ops mid) :
    (T.after ops).Within lo len := by
  cases T with
  | next n P ops' => exact hops.append h
  | ret n P ops' => exact hops.append h
  | abort => trivial

lemma Turn.Within.shift (h : T.Within lo len) : (T.shift n).Within (lo + n) (len + n) := by
  cases T with
  | next m P ops =>
      have hshift := Ordered.shift h n
      rw [Turn.shift, Turn.Within, Nat.add_min_add_right]
      exact hshift
  | ret m P ops => exact Ordered.shift h n
  | abort => trivial

lemma Turn.Within.mono {len' : ℕ} (h : T.Within lo len) (hle : len ≤ len') :
    T.Within lo len' := by
  cases T with
  | next n P ops => exact Ordered.mono h (by omega)
  | ret n P ops => exact Ordered.mono h hle
  | abort => trivial

lemma within_expect {lit : UInt8} {e : Errno} {s : State} : (expect P ch lit e s).Within 0 len := by
  rw [expect]
  split_ifs
  · exact within_fail
  · exact within_go

lemma within_versionDigit {f : Parser → ℕ → Parser} {s : State} :
    (versionDigit P ch f s).Within 0 len := by
  rw [versionDigit]
  split_ifs
  · exact within_fail
  · exact within_go

/-- A single operation on the byte itself. -/
lemma ordered_here {a : Op} (h : a.place = 0) : Ordered 0 [a] len := by
  cases a with
  | note n p => exact Nat.zero_le _
  | mark k p => exact ⟨Nat.zero_le _, by rw [show p = 0 from h]; exact Nat.zero_le _⟩
  | flush k p => exact ⟨Nat.zero_le _, by rw [show p = 0 from h]; exact Nat.zero_le _⟩

lemma within_startRes : (startRes P ch).Within 0 len := by
  rw [startRes]
  split_ifs
  · exact Nat.zero_le _
  · exact ordered_here rfl
  · exact within_fail

lemma within_resFirstStatusCode : (resFirstStatusCode P ch).Within 0 len := by
  rw [resFirstStatusCode]
  split_ifs
  · exact Nat.zero_le _
  · exact within_fail
  · exact within_go

lemma within_resStatus : (resStatus P ch).Within 0 len := by
  rw [resStatus]
  split_ifs
  · exact ordered_here rfl
  · exact ordered_here rfl
  · exact Nat.zero_le _

lemma within_resStatusStart : (resStatusStart P ch).Within 0 len := by
  rw [resStatusStart]
  split_ifs
  · exact within_resStatus.after (ordered_here rfl)
  · exact ordered_here rfl

lemma within_resStatusCode : (resStatusCode P ch).Within 0 len := by
  rw [resStatusCode]
  dsimp only
  split_ifs
  · exact within_go
  · exact within_resStatusStart
  · exact within_fail
  · exact within_fail
  · exact Nat.zero_le _

lemma within_startReq : (startReq P ch).Within 0 len := by
  rw [startReq]
  dsimp only
  split_ifs
  · exact Nat.zero_le _
  · exact within_fail
  · split
    · exact ordered_here rfl
    · exact within_fail

lemma within_reqMethod : (reqMethod P ch).Within 0 len := by
  rw [reqMethod]
  dsimp only
  split_ifs
  · exact within_fail
  · exact Nat.zero_le _
  · exact Nat.zero_le _
  · split
    · exact Nat.zero_le _
    · exact within_fail
  · exact within_fail

lemma within_urlChar {s : UrlState} : (urlChar P s ch).Within 0 len := by
  rw [urlChar]
  split
  · exact within_go
  · exact within_fail

lemma within_reqUrl {s : UrlState} : (reqUrl P s ch).Within 0 len := by
  rw [reqUrl]
  by_cases hsp : ch = sp
  · rw [if_pos hsp]
    exact ordered_here rfl
  · rw [if_neg hsp]
    by_cases hline : ch = cr || ch = lf
    · rw [if_pos hline]
      exact ordered_here rfl
    · rw [if_neg hline]
      exact within_urlChar

lemma within_reqSchema {s : UrlState} : (reqSchema P s ch).Within 0 len := by
  rw [reqSchema]
  split_ifs
  · exact within_fail
  · exact within_urlChar

lemma within_url {s : UrlState} : (url P s ch).Within 0 len := by
  cases s with
  | spacesBeforeUrl =>
      rw [url, reqSpacesBeforeUrl]
      split_ifs
      · exact Nat.zero_le _
      · exact within_urlChar.after (ordered_here rfl)
      · exact within_urlChar.after (ordered_here rfl)
  | schema | schemaSlash | schemaSlashSlash | serverStart => exact within_reqSchema
  | _ => exact within_reqUrl

lemma within_reqHttpStart : (reqHttpStart P ch).Within 0 len := by
  rw [reqHttpStart]
  split_ifs
  · exact Nat.zero_le _
  · exact within_go
  · exact within_go
  · exact within_fail

lemma within_reqHttpEnd : (reqHttpEnd P ch).Within 0 len := by
  rw [reqHttpEnd]
  split_ifs
  · exact within_go
  · exact within_go
  · exact within_fail

lemma within_messageDone (h : lo ≤ min len 1) : (messageDone P).Within lo len := by
  rw [messageDone]
  split_ifs
  · exact (show lo ≤ len by omega)
  · exact h

lemma within_headersDone : (headersDone P ch).Within 0 len := by
  rw [headersDone]
  by_cases hlf : ch ≠ lf
  · rw [if_pos hlf]
    exact within_fail
  · rw [if_neg hlf]
    dsimp only
    split_ifs <;> first | exact within_fail | exact within_go | exact ordered_here rfl

lemma within_headersComplete {result : ℕ} : (headersComplete P result ch).Within 0 len := by
  rcases result with _ | _ | _ | _
  · exact within_headersDone
  · exact within_headersDone
  · exact within_headersDone
  · exact within_fail

lemma within_headersAlmostDone : (headersAlmostDone set P ch).Within 0 len := by
  rw [headersAlmostDone]
  by_cases hlf : ch ≠ lf
  · rw [if_pos hlf]
    exact within_fail
  · rw [if_neg hlf]
    by_cases htrailing : P.flags.trailing = true
    · rw [if_pos htrailing]
      exact (within_messageDone (Nat.zero_le _)).after (ordered_here rfl)
    · rw [if_neg htrailing]
      by_cases hboth : (P.usesTransferEncoding && P.flags.contentlength &&
          (if P.flags.chunked then !P.allowChunkedLength else !P.lenientHttpHeaders)) = true
      · rw [if_pos hboth]
        exact within_fail
      · rw [if_neg hboth]
        exact within_headersComplete.after (ordered_here rfl)

lemma within_headerFieldStart : (headerFieldStart set P ch).Within 0 len := by
  rw [headerFieldStart]
  dsimp only
  split_ifs
  · exact within_go
  · exact within_headersAlmostDone
  · exact within_fail
  all_goals exact ordered_here rfl

lemma within_headerField (h : bytes.length ≤ len) : (headerField P bytes).Within 0 len := by
  rw [headerField]
  split
  case h_1 => trivial
  case h_2 Q n he => exact within_counted (Nat.zero_le _) fun _ => Nat.zero_le _
  case h_3 Q n c he =>
      have hn := fieldLoop_stops he
      refine within_counted (Nat.zero_le _) fun R => ?_
      split_ifs
      · exact ⟨Nat.zero_le _, show n ≤ min len (n + 1) by omega⟩
      · exact Nat.zero_le _

/-- The line end that stops the loop is in the buffer. -/
lemma valueLoop_stops {h g : HeaderState} {Q : Parser} {q : Bytes} {s n m : ℕ}
    (he : valueLoop P h s n q = .cr Q g m ∨ valueLoop P h s n q = .lf Q g m) :
    m < n + q.length := by
  fun_induction valueLoop P h s n q with
  | case1 => simp at he
  | case2 P h n c q s ih =>
      have := ih he
      rw [List.length_cons]
      omega
  | case3 P h n q => simp at he; simp [← he.2.2]
  | case4 P h n q => simp at he; simp [← he.2.2]
  | case5 => simp at he
  | case6 P n c q h1 h2 h3 k hrun ih =>
      have := ih he
      rw [List.length_cons]
      omega
  | case7 => simp at he
  | case8 P n c q h1 h2 h3 k hrun ih =>
      have := ih he
      rw [List.length_cons]
      omega
  | case9 P h n c q h1 h2 h3 hg R g hstep ih =>
      have := ih he
      rw [List.length_cons]
      omega
  | case10 => simp at he
  | case11 => simp at he

lemma within_headerValueStart : (headerValueStart P ch).Within 0 len := by
  rw [headerValueStart]
  refine Turn.Within.after (show Turn.Within 0 len _ from ?_) (ordered_here rfl)
  dsimp only
  split
  case h_3 =>
      split_ifs
      · exact within_fail
      · exact within_fail
      · exact Nat.zero_le _
  all_goals exact Nat.zero_le _

lemma within_headerValueDiscardWs : (headerValueDiscardWs P ch).Within 0 len := by
  rw [headerValueDiscardWs]
  split_ifs
  · exact Nat.zero_le _
  · exact within_go
  · exact within_go
  · exact within_headerValueStart

lemma within_headerValue (h : bytes.length ≤ len) : (headerValue P bytes).Within 0 len := by
  have hflush : ∀ n, Ordered 0 [(.flush .headerValue n : Op)] n :=
    fun n => ⟨Nat.zero_le n, Nat.le_refl n⟩
  rw [headerValue]
  split
  case h_1 => exact within_counted (Nat.zero_le _) fun _ => Nat.zero_le _
  case h_2 Q g n he =>
      have hn := valueLoop_stops (Or.inl he)
      refine Turn.Within.after (within_counted (by omega) fun R => ?_) (hflush n)
      exact show n ≤ min len (n + 1) by omega
  case h_3 Q g n he =>
      have hn := valueLoop_stops (Or.inr he)
      refine within_counted (Nat.zero_le _) fun R => Turn.Within.after ?_ (hflush n)
      have hdone := (@within_expect { R with headerState := g } lf 0 lf .lfExpected
        .headerValueLws).shift (n := n)
      rw [Nat.zero_add] at hdone
      exact hdone.mono (by omega)
  case h_4 => exact Nat.zero_le _
  case h_5 => trivial

lemma within_headerValueLws : (headerValueLws set P ch).Within 0 len := by
  rw [headerValueLws]
  by_cases hblank : (ch = sp || ch = ht) = true
  · rw [if_pos hblank]
    exact within_headerValueStart
  · rw [if_neg hblank]
    exact within_headerFieldStart

lemma within_headerValueDiscardLws : (headerValueDiscardLws set P ch).Within 0 len := by
  rw [headerValueDiscardLws]
  split_ifs
  · exact within_go
  · exact within_fail
  · exact within_headerFieldStart.after ⟨Nat.zero_le 0, ordered_here rfl⟩

lemma within_bodyIdentity (hpos : 0 < bytes.length) (h : bytes.length ≤ len) :
    (bodyIdentity P bytes).Within 0 len := by
  rw [bodyIdentity]
  dsimp only
  split_ifs
  · trivial
  · -- the end of the message is reported at the last byte, in front of the end of the body
    have hle : min P.contentLength bytes.length ≤ len :=
      Nat.le_trans (Nat.min_le_right _ _) h
    have hone : 0 < min P.contentLength bytes.length := by
      simp_all only [Bool.or_eq_true, decide_eq_true_eq, not_or]
      omega
    have hdone := (@within_messageDone { P with
      contentLength := P.contentLength - min P.contentLength bytes.length
      state := .messageDone } 1 1 (Nat.le_refl _)).shift (n := min P.contentLength bytes.length - 1)
    rw [Nat.add_sub_cancel' hone] at hdone
    exact (hdone.mono hle).after ⟨Nat.zero_le 0, Nat.zero_le _, Nat.le_refl _⟩
  · exact ordered_here rfl

lemma within_chunkData : (chunkData P bytes).Within 0 len := by
  rw [chunkData]
  dsimp only
  split_ifs
  · trivial
  · trivial
  all_goals exact ordered_here rfl

lemma within_chunkSizeStart : (chunkSizeStart P ch).Within 0 len := by
  rw [chunkSizeStart]
  split_ifs
  · trivial
  · split
    · exact within_fail
    · exact within_go

lemma within_chunkSize : (chunkSize P ch).Within 0 len := by
  rw [chunkSize]
  cases unhex ch with
  | none =>
      dsimp only
      split_ifs
      · trivial
      · exact within_go
      · exact within_go
      · exact within_fail
  | some v =>
      dsimp only
      split_ifs
      · trivial
      · exact within_go
      · exact within_fail
      · exact Nat.zero_le _

lemma within_chunkParameters : (chunkParameters P ch).Within 0 len := by
  rw [chunkParameters]
  split_ifs
  · trivial
  · exact within_go
  · exact Nat.zero_le _

lemma within_chunkSizeAlmostDone : (chunkSizeAlmostDone P ch).Within 0 len := by
  rw [chunkSizeAlmostDone]
  split_ifs
  · trivial
  · exact within_fail
  all_goals exact ordered_here rfl

lemma within_chunkDataAlmostDone : (chunkDataAlmostDone P ch).Within 0 len := by
  rw [chunkDataAlmostDone]
  split_ifs
  · trivial
  · trivial
  · exact within_fail
  · exact ordered_here rfl

lemma within_chunkDataDone : (chunkDataDone P ch).Within 0 len := by
  rw [chunkDataDone]
  split_ifs
  · trivial
  · exact within_fail
  · exact ordered_here rfl

lemma within_dead : (if ch = cr || ch = lf then .next 1 P [] else fail P .closedConnection :
    Turn).Within 0 len := by
  split_ifs
  · exact Nat.zero_le _
  · exact within_fail

lemma within_switch : (switch set P ch rest).Within 0 (rest.length + 1) := by
  have hlen : (ch :: rest).length ≤ rest.length + 1 := Nat.le_refl _
  cases hs : P.state with
  | url s =>
      simp only [switch, hs]
      exact within_url
  | _ =>
      simp only [switch, hs]
      first
        | exact within_dead
        | exact within_expect
        | exact within_versionDigit
        | exact within_startRes
        | exact within_resFirstStatusCode
        | exact within_resStatusCode
        | exact within_resStatusStart
        | exact within_resStatus
        | exact within_startReq
        | exact within_reqMethod
        | exact within_reqHttpStart
        | exact within_reqHttpEnd
        | exact within_headerFieldStart
        | exact within_headerField hlen
        | exact within_headerValueDiscardWs
        | exact within_headerValueStart
        | exact within_headerValue hlen
        | exact within_headerValueLws
        | exact within_headerValueDiscardLws
        | exact within_headersAlmostDone
        | exact within_headersDone
        | exact within_bodyIdentity (Nat.succ_pos _) hlen
        | exact ordered_here rfl
        | exact within_messageDone (Nat.zero_le _)
        | exact within_chunkSizeStart
        | exact within_chunkSize
        | exact within_chunkParameters
        | exact within_chunkSizeAlmostDone
        | exact within_chunkData
        | exact within_chunkDataAlmostDone
        | exact within_chunkDataDone

lemma within_turn : (turn set P ch rest).Within 0 (rest.length + 1) := by
  rw [turn]
  split_ifs
  · exact within_counted (Nat.zero_le _) fun _ => within_switch
  · exact within_switch

lemma loop_within {M : Marks DataKind} {skip p : ℕ} {r : List Call × Parser × ℕ}
    (hM : AllMarks (fun _ s => s ≤ min (p + skip) (p + bytes.length)) M)
    (hloop : loop set skip p P M bytes = some r) :
    ∀ k s t, .span k s t ∈ r.1 → s ≤ t ∧ t ≤ p + bytes.length := by
  fun_induction loop set skip p P M bytes generalizing r with
  | case1 => simp at hloop
  | case2 skip p P M hmarks =>
      obtain rfl := Option.some.inj hloop
      have hM' : AllMarks (fun _ s => s ≤ p) M :=
        fun k s hs => (hM k s hs).trans (Nat.min_le_right _ _)
      exact (run_ordered hM' (ordered_flushes kinds p)).2
  | case3 p P M skip ch rest ih =>
      have hlen : (ch :: rest).length = rest.length + 1 := List.length_cons
      have hrest := ih (fun k s hs => (hM k s hs).trans (by omega)) hloop
      exact fun k s t hmem => ⟨(hrest k s t hmem).1, (hrest k s t hmem).2.trans (by omega)⟩
  | case4 p P M ch rest n Q ops hturn r' =>
      rename_i ih
      have hlen : (ch :: rest).length = rest.length + 1 := List.length_cons
      have hwithin := @within_turn set P ch rest
      rw [hturn] at hwithin
      have hordered := Ordered.shift hwithin p
      rw [Nat.zero_add] at hordered
      have hM' : AllMarks (fun _ s => s ≤ p) M :=
        fun k s hs => (hM k s hs).trans (Nat.min_le_left _ _)
      obtain ⟨hmarks, hrun⟩ := run_ordered hM' hordered
      obtain ⟨t', ht', rfl⟩ := Option.map_eq_some_iff.mp hloop
      have hrest := ih (fun k s hs => (hmarks k s hs).trans (by omega)) ht'
      intro k s t hmem
      rcases List.mem_append.mp hmem with hmem | hmem
      · exact ⟨(hrun k s t hmem).1, (hrun k s t hmem).2.trans (by omega)⟩
      · exact ⟨(hrest k s t hmem).1, (hrest k s t hmem).2.trans (by omega)⟩
  | case5 p P M ch rest n Q ops hturn =>
      have hlen : (ch :: rest).length = rest.length + 1 := List.length_cons
      have hwithin := @within_turn set P ch rest
      rw [hturn] at hwithin
      have hordered := Ordered.shift hwithin p
      rw [Nat.zero_add] at hordered
      have hM' : AllMarks (fun _ s => s ≤ p) M :=
        fun k s hs => (hM k s hs).trans (Nat.min_le_left _ _)
      obtain rfl := Option.some.inj hloop
      have hrun := (run_ordered hM' hordered).2
      exact fun k s t hmem => ⟨(hrun k s t hmem).1, (hrun k s t hmem).2.trans (by omega)⟩
  | case6 => simp at hloop

/-- **No other bytes.**  A stretch that is reported of a buffer lies in the buffer and does not end
before it starts, whatever the parser was
in the middle of, and whatever comes of it. -/
theorem execute_within {data : ℕ} {R : List Call} {Q : Parser}
    (he : execute set P data bytes = some (R, Q, n)) {k : DataKind} {s t : ℕ}
    (hmem : .span k s t ∈ R) : data ≤ s ∧ s ≤ t ∧ t ≤ data + bytes.length := by
  rw [← Nat.zero_add data, execute_shift] at he
  obtain ⟨⟨R₀, r⟩, he₀, hr⟩ := Option.map_eq_some_iff.mp he
  obtain ⟨rfl, rfl⟩ := Prod.mk.inj hr
  obtain ⟨c, hc, hshift⟩ := List.mem_map.mp hmem
  cases c with
  | note n p => simp [Report.shift] at hshift
  | span k' s' t' =>
      obtain ⟨rfl, rfl, rfl⟩ := Report.span.inj hshift
      have hbounds : s' ≤ t' ∧ t' ≤ bytes.length := by
        rw [execute] at he₀
        split_ifs at he₀ with herr hnil
        · obtain ⟨rfl, -⟩ := Prod.mk.inj (Option.some.inj he₀)
          simp at hc
        · split at he₀ <;>
          · obtain ⟨rfl, -⟩ := Prod.mk.inj (Option.some.inj he₀)
            simp at hc
        · obtain ⟨r, hloop, hr⟩ := Option.map_eq_some_iff.mp he₀
          obtain ⟨rfl, -⟩ := Prod.mk.inj hr
          have hM : AllMarks (fun _ s => s ≤ min (0 + 0) (0 + bytes.length))
              (startMarks P.state 0) := by
            intro k s hs
            unfold startMarks at hs
            split at hs <;> simp at hs <;> omega
          have hwithin := loop_within hM hloop _ _ _ hc
          rwa [Nat.zero_add] at hwithin
      omega

end Within

end Http

end Is2
