import Mathlib.Data.List.TakeWhile

/-!
# `get_tls_options_str_val`: the options of a TLS context

A text such as `SSL_OP_NO_SSLv2 | SSL_OP_NO_SSLv3` is turned into the bits of the options that it
names.  `srvr::set_tls_server_ctx_options` has them written into the configuration of the server.

**Model.**  The values of the options are those of the TLS library, and are given.  The table of
options is filled by the first call.  A text is the list of its characters; the last token is read
behind the loop, as in the source.

**Result.**  The status and, if all tokens are known, the bits are right.  But the bits are
collected in the configuration itself: at an unknown token it holds those of the tokens in front of
it, and what was configured before is lost: `setTlsServerCtxOptions_iff`.
-/

namespace Is2

namespace TlsOptions

/-- `STATUS_OK` -/
abbrev statusOk : ℤ := 0

/-- `STATUS_ERROR` -/
abbrev statusError : ℤ := -1

/-- `long` -/
abbrev Long := BitVec 64

/-- The options of the TLS library that have a name here. -/
structure SslOps where
  noSSLv2 : Long
  noSSLv3 : Long
  noTLSv1 : Long
  noTLSv1_2 : Long
  noTLSv1_1 : Long

/-! ## The code -/

/-- What the first call writes to `g_tls_options_map`. -/
def SslOps.table (ops : SslOps) : List (List Char × Long) :=
  [("SSL_OP_NO_SSLv2".toList, ops.noSSLv2), ("SSL_OP_NO_SSLv3".toList, ops.noSSLv3),
    ("SSL_OP_NO_TLSv1".toList, ops.noTLSv1), ("SSL_OP_NO_TLSv1_2".toList, ops.noTLSv1_2),
    ("SSL_OP_NO_TLSv1_1".toList, ops.noTLSv1_1)]

/-- `g_tls_options_map`: it is empty, or was filled. -/
structure OptionsMap (ops : SslOps) where
  entries : List (List Char × Long)
  filled : entries = [] ∨ entries = ops.table

variable {ops : SslOps}

/-- The map as the program starts with it. -/
def OptionsMap.empty : OptionsMap ops := ⟨[], .inl rfl⟩

/-- The map is filled if it is empty. -/
def OptionsMap.fill (g : OptionsMap ops) : OptionsMap ops :=
  if g.entries.isEmpty then ⟨ops.table, .inr rfl⟩ else g

/-- `isspace` -/
def isspace (c : Char) : Bool := c = ' ' || (9 ≤ c.toNat && c.toNat ≤ 13)

/-- `erase(remove_if(..., ::isspace), ...)` -/
def eraseSpace (s : List Char) : List Char := s.filter fun c => !isspace c

/-- `l_options_str.find("|", a_start)`; `none` is `npos`. -/
def find (s : List Char) (start : ℕ) : Option ℕ :=
  ((s.drop start).findIdx? (· = '|')).map (start + ·)

/-- `std::string::substr`; a position behind the end throws. -/
def substr (s : List Char) (pos n : ℕ) : Option (List Char) :=
  if pos ≤ s.length then some ((s.drop pos).take n) else none

/-- A token: its bits are added to `ao_val`, and the rest follows; or it is unknown. -/
def addToken (entries : List (List Char × Long)) (token : List Char) (aoVal : Long)
    (k : Long → Option (ℤ × Long)) : Option (ℤ × Long) :=
  match entries.lookup token with
  | none => some (statusError, aoVal)
  | some bits => k (aoVal ||| bits)

/-- The loop over the tokens and the last token, with `l_start` and `l_end`, for as many as
`turns`. -/
def addTokens (entries : List (List Char × Long)) (s : List Char) :
    ℕ → ℕ → Option ℕ → Long → Option (ℤ × Long)
  | _, start, none, aoVal => do
    let token ← substr s start (s.length - start)
    addToken entries token aoVal fun aoVal => some (statusOk, aoVal)
  | 0, _, some _, _ => none
  | turns + 1, start, some stop, aoVal => do
    let token ← substr s start (stop - start)
    addToken entries token aoVal fun aoVal =>
      addTokens entries s turns (stop + 1) (find s (stop + 1)) aoVal

/-- `get_tls_options_str_val`: the status, `ao_val` and the map.  What `ao_val` was is not read. -/
def getTlsOptionsStrVal (g : OptionsMap ops) (optionsStr : List Char) :
    Option ((ℤ × Long) × OptionsMap ops) := do
  let g := g.fill
  let s := eraseSpace optionsStr
  let res ← addTokens g.entries s s.length 0 (find s 0) 0
  some (res, g)

/-- The member of the configuration that is set: `m_tls_server_ctx_options`. -/
structure Conf where
  tlsServerCtxOptions : Long
  deriving DecidableEq

/-- `srvr::set_tls_server_ctx_options` -/
def setTlsServerCtxOptions (g : OptionsMap ops) (conf : Conf) (tlsOptionsStr : List Char) :
    Option (ℤ × Conf × OptionsMap ops) := do
  let (res, g) ← getTlsOptionsStrVal g tlsOptionsStr
  let conf := { conf with tlsServerCtxOptions := res.2 }
  if res.1 ≠ statusOk then some (statusError, conf, g) else some (statusOk, conf, g)

/-! ## The law -/

/-- **The tokens of a text**: what is between the `|`, without its whitespace. -/
def tokens (s : List Char) : List (List Char) := (s.splitOn '|').map eraseSpace

/-- The token is the name of an option. -/
def Known (ops : SslOps) (token : List Char) : Prop := token ∈ ops.table.map Prod.fst

instance (ops : SslOps) (token : List Char) : Decidable (Known ops token) :=
  inferInstanceAs (Decidable (_ ∈ _))

/-- The bits of an option. -/
def bits (ops : SslOps) (token : List Char) : Long := (ops.table.lookup token).getD 0

/-- **The bitwise or** of the bits of all these. -/
def orAll (ops : SslOps) (ts : List (List Char)) : Long :=
  ts.foldr (fun token val => bits ops token ||| val) 0

/-! ## Tokens -/

lemma eraseSpace_cons (c : Char) (s : List Char) :
    eraseSpace (c :: s) = if isspace c then eraseSpace s else c :: eraseSpace s := by
  cases h : isspace c <;> simp [eraseSpace, h]

/-- Whitespace may be removed first. -/
lemma tokens_eq (s : List Char) : tokens s = (eraseSpace s).splitOn '|' := by
  induction s with
  | nil => rfl
  | cons c s ih =>
      rw [tokens] at ih ⊢
      rw [List.splitOn_cons_eq_if_modifyHead, eraseSpace_cons]
      by_cases hc : c = '|'
      · subst hc
        rw [if_pos (beq_self_eq_true _), if_neg (by decide), List.map_cons, ih,
          List.splitOn_cons_eq_if_modifyHead, if_pos (beq_self_eq_true _)]
        rfl
      · obtain ⟨t, ts, hts⟩ := List.exists_cons_of_ne_nil (List.splitOn_ne_nil '|' s)
        have hne : ¬ (c == '|') = true := by simpa using hc
        rw [hts, List.map_cons] at ih
        rw [if_neg hne, hts, List.modifyHead_cons, List.map_cons, eraseSpace_cons]
        split_ifs with hs
        · exact ih
        · rw [List.splitOn_cons_eq_if_modifyHead, if_neg hne, ← ih, List.modifyHead_cons]

/-- Where a delimiter is found, the text is cut. -/
lemma splitOn_of_find {s : List Char} {start stop : ℕ} (h : find s start = some stop) :
    start ≤ stop ∧ stop < s.length ∧
      (s.drop start).splitOn '|' =
        (s.drop start).take (stop - start) :: (s.drop (stop + 1)).splitOn '|' := by
  obtain ⟨i, hi, rfl⟩ := Option.map_eq_some_iff.mp h
  obtain ⟨hlt, hbar, hmin⟩ := List.findIdx?_eq_some_iff_getElem.mp hi
  have hlen : start + i < s.length := by
    rw [List.length_drop] at hlt
    omega
  refine ⟨Nat.le_add_right _ _, hlen, ?_⟩
  rw [Nat.add_sub_cancel_left]
  have hfront : '|' ∉ (s.drop start).take i := by
    intro hmem
    obtain ⟨j, hj, he⟩ := List.mem_take_iff_getElem.mp hmem
    exact hmin j (by omega) (by simpa using he)
  have hcut : s.drop start = (s.drop start).take i ++ '|' :: s.drop (start + i + 1) := by
    have hback := List.drop_eq_getElem_cons hlt
    rw [of_decide_eq_true hbar, List.drop_drop] at hback
    calc s.drop start = (s.drop start).take i ++ (s.drop start).drop i :=
          (List.take_append_drop _ _).symm
      _ = _ := by rw [List.drop_drop, hback, List.drop_drop, Nat.add_assoc]
  have hsplit := List.splitOn_append_cons_self_of_not_mem hfront (s.drop (start + i + 1))
  rwa [← hcut] at hsplit

lemma splitOn_of_find_none {s : List Char} {start : ℕ} (h : find s start = none) :
    (s.drop start).splitOn '|' = [s.drop start] := by
  refine List.splitOn_eq_singleton fun hmem => ?_
  have hnone := List.findIdx?_eq_none_iff.mp (Option.map_eq_none_iff.mp h) '|' hmem
  simp at hnone

/-! ## The bits -/

lemma lookup_table (ops : SslOps) (token : List Char) :
    ops.table.lookup token = if Known ops token then some (bits ops token) else none := by
  split_ifs with h
  · obtain ⟨e, he, rfl⟩ := List.mem_map.mp h
    have hsome : (ops.table.lookup e.1).isSome = true :=
      List.lookup_isSome_iff.mpr ⟨e, he, beq_self_eq_true _⟩
    obtain ⟨val, hval⟩ := Option.isSome_iff_exists.mp hsome
    rw [bits, hval, Option.getD_some]
  · rw [List.lookup_eq_none_iff]
    intro e he
    rw [bne_iff_ne]
    rintro rfl
    exact h (List.mem_map_of_mem he)

/-- The status for these tokens. -/
def statusOf (ops : SslOps) (ts : List (List Char)) : ℤ :=
  if ∀ token ∈ ts, Known ops token then statusOk else statusError

/-- The tokens in front of the first unknown one. -/
def knownFront (ops : SslOps) (ts : List (List Char)) : List (List Char) :=
  ts.takeWhile fun token => Known ops token

/-- What is returned for these tokens. -/
def outcome (ops : SslOps) (val : Long) (ts : List (List Char)) : ℤ × Long :=
  (statusOf ops ts, val ||| orAll ops (knownFront ops ts))

lemma outcome_cons_of_known {token : List Char} (h : Known ops token) (val : Long)
    (ts : List (List Char)) :
    outcome ops val (token :: ts) = outcome ops (val ||| bits ops token) ts := by
  simp [outcome, statusOf, knownFront, h, orAll, BitVec.or_assoc]

lemma outcome_cons_of_not {token : List Char} (h : ¬ Known ops token) (val : Long)
    (ts : List (List Char)) : outcome ops val (token :: ts) = (statusError, val) := by
  simp [outcome, statusOf, knownFront, h, orAll]

/-- A token is added, or ends the loop. -/
lemma addToken_eq {token : List Char} {ts : List (List Char)} {val : Long}
    {k : Long → Option (ℤ × Long)}
    (hk : k (val ||| bits ops token) = some (outcome ops (val ||| bits ops token) ts)) :
    addToken ops.table token val k = some (outcome ops val (token :: ts)) := by
  rw [addToken, lookup_table]
  by_cases h : Known ops token
  · rw [if_pos h, outcome_cons_of_known h]
    exact hk
  · rw [if_neg h, outcome_cons_of_not h]

/-- The last token, behind the loop. -/
lemma addTokens_last {s : List Char} {start : ℕ} (hstart : start ≤ s.length)
    (hfind : find s start = none) (turns : ℕ) (val : Long) :
    addTokens ops.table s turns start none val =
      some (outcome ops val ((s.drop start).splitOn '|')) := by
  have hall : (s.drop start).take (s.length - start) = s.drop start :=
    List.take_of_length_le (by rw [List.length_drop])
  have hnone (val : Long) : some (statusOk, val) = some (outcome ops val []) := by
    simp [outcome, statusOf, knownFront, orAll]
  rw [splitOn_of_find_none hfind, addTokens.eq_def]
  simp only [substr, if_pos hstart, hall, Option.bind_eq_bind, Option.bind_some]
  exact addToken_eq (hnone _)

/-- **The loop** collects the bits up to the first unknown token. -/
lemma addTokens_eq {s : List Char} {turns start : ℕ} (hstart : start ≤ s.length)
    (hturns : s.length ≤ start + turns) (val : Long) :
    addTokens ops.table s turns start (find s start) val =
      some (outcome ops val ((s.drop start).splitOn '|')) := by
  induction turns generalizing start val with
  | zero =>
      cases hfind : find s start with
      | none => exact addTokens_last hstart hfind 0 val
      | some stop =>
          have hstop := splitOn_of_find hfind
          omega
  | succ turns ih =>
      cases hfind : find s start with
      | none => exact addTokens_last hstart hfind _ val
      | some stop =>
          obtain ⟨hle, hlt, hsplit⟩ := splitOn_of_find hfind
          rw [addTokens, hsplit]
          simp only [substr, if_pos hstart, Option.bind_eq_bind, Option.bind_some]
          exact addToken_eq (ih (by omega) (by omega) _)

/-! ## The configuration -/

lemma fill_entries (g : OptionsMap ops) : g.fill.entries = ops.table := by
  rw [OptionsMap.fill]
  split_ifs with h
  · rfl
  · exact g.filled.resolve_left (by simpa using h)

/-- **The text is read** token by token, up to the first unknown one. -/
lemma getTlsOptionsStrVal_eq (g : OptionsMap ops) (s : List Char) :
    getTlsOptionsStrVal g s = some (outcome ops 0 (tokens s), g.fill) := by
  simp [getTlsOptionsStrVal, fill_entries, addTokens_eq, tokens_eq]

lemma setTlsServerCtxOptions_eq (g : OptionsMap ops) (conf : Conf) (s : List Char) :
    setTlsServerCtxOptions g conf s =
      some (statusOf ops (tokens s), ⟨orAll ops (knownFront ops (tokens s))⟩, g.fill) := by
  rw [setTlsServerCtxOptions, getTlsOptionsStrVal_eq]
  by_cases h : ∀ token ∈ tokens s, Known ops token
  · have hok : statusOf ops (tokens s) = statusOk := if_pos h
    simp [outcome, hok]
  · have herror : statusOf ops (tokens s) = statusError := if_neg h
    simp [outcome, herror]

lemma statusOf_eq_ok_iff {ts : List (List Char)} :
    statusOf ops ts = statusOk ↔ ∀ token ∈ ts, Known ops token := by
  by_cases h : ∀ token ∈ ts, Known ops token <;> simp [statusOf, h]

/-- If all tokens are known, there are none behind them. -/
lemma knownFront_of_known {ts : List (List Char)} (h : ∀ token ∈ ts, Known ops token) :
    knownFront ops ts = ts :=
  List.takeWhile_eq_self_iff.mpr fun token ht => decide_eq_true (h token ht)

/-- **The status and the bits are right** for every text, and for the configuration too where all
tokens are known.  Otherwise it is as it was only if it held the bits of the known tokens in front
of the first unknown one. -/
theorem setTlsServerCtxOptions_iff (g : OptionsMap ops) (conf : Conf) (s : List Char) :
    ∃ status val conf' g',
      getTlsOptionsStrVal g s = some ((status, val), g') ∧
      setTlsServerCtxOptions g conf s = some (status, conf', g') ∧
      (status = statusOk ∨ status = statusError) ∧
      (status = statusOk ↔ ∀ token ∈ tokens s, Known ops token) ∧
      (status = statusOk → val = orAll ops (tokens s) ∧ conf'.tlsServerCtxOptions = val) ∧
      ((status = statusError → conf' = conf) ↔
        (∀ token ∈ tokens s, Known ops token) ∨
          conf.tlsServerCtxOptions =
            orAll ops ((tokens s).takeWhile fun token => Known ops token)) := by
  refine ⟨_, _, _, _, getTlsOptionsStrVal_eq g s, setTlsServerCtxOptions_eq g conf s, ?_,
    statusOf_eq_ok_iff, ?_, ?_⟩
  · rw [statusOf]
    split_ifs
    · exact .inl rfl
    · exact .inr rfl
  · intro hok
    rw [statusOf_eq_ok_iff] at hok
    simp [knownFront_of_known hok]
  · by_cases h : ∀ token ∈ tokens s, Known ops token
    · have hok : statusOf ops (tokens s) = statusOk := if_pos h
      rw [hok]
      exact iff_of_true (fun he => absurd he (by decide)) (.inl h)
    · have herror : statusOf ops (tokens s) = statusError := if_neg h
      rw [or_iff_right h, herror]
      exact ⟨fun he => (congrArg Conf.tlsServerCtxOptions (he rfl)).symm,
        fun he _ => congrArg Conf.mk he.symm⟩

/-- The values of the library. -/
def openssl : SslOps := ⟨0, 0x02000000, 0x04000000, 0x08000000, 0x10000000⟩

/-- **What was configured is lost**: the second token is unknown, and the bits of the first one are
in the configuration. -/
theorem options_lost :
    (setTlsServerCtxOptions (.empty : OptionsMap openssl) ⟨0x18000000⟩
        "SSL_OP_NO_SSLv3 | SSL_OP_NO_TLS".toList).map (fun res => (res.1, res.2.1)) =
      some (statusError, ⟨0x02000000⟩) ∧
    ¬ ∀ (ops : SslOps) (g : OptionsMap ops) (conf : Conf) (s : List Char),
      (setTlsServerCtxOptions g conf s).map Prod.fst = some statusError →
        (setTlsServerCtxOptions g conf s).map (fun res => res.2.1) = some conf := by
  refine ⟨by decide +kernel, fun h => ?_⟩
  have hlost := h openssl .empty ⟨0x18000000⟩ "SSL_OP_NO_SSLv3 | SSL_OP_NO_TLS".toList
    (by decide +kernel)
  exact absurd hlost (by decide +kernel)

end TlsOptions

end Is2
