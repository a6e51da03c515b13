import Is2.Support.UrlDecode
import Mathlib.Algebra.Order.Group.Int

/-!
# `uri_encode` and `uri_decode`

`uri_decode` looks for escapes and for `+` up to the last two characters, and copies these as they
are.  `uri_encode` keeps letters and digits.

**Model.**  A string is the list of its bytes.  The length is kept in an `int`: where it is negative
no memory can be had, and where three times the length is no `int` the behaviour is undefined
(`none`).

* What is encoded can be decoded by both decoders exactly if the `int` is large enough:
  `roundTrip_iff`.
* The two decoders agree exactly if it is, and there is no `+` in the last two characters:
  `agree_iff`.
-/

namespace Is2

namespace Uri

open Percent UrlDecode

/-! ## The code -/

/-- A row of the tables that has nothing. -/
def row (n : ℤ) : List ℤ := List.replicate 16 n

/-- `G_HEX2DEC` -/
def hex2dec : List ℤ :=
  row (-1) ++ row (-1) ++ row (-1) ++
  [0, 1, 2, 3, 4, 5, 6, 7, 8, 9, -1, -1, -1, -1, -1, -1] ++
  [-1, 10, 11, 12, 13, 14, 15, -1, -1, -1, -1, -1, -1, -1, -1, -1] ++
  row (-1) ++
  [-1, 10, 11, 12, 13, 14, 15, -1, -1, -1, -1, -1, -1, -1, -1, -1] ++
  row (-1) ++ row (-1) ++ row (-1) ++ row (-1) ++ row (-1) ++ row (-1) ++ row (-1) ++ row (-1) ++
  row (-1)

/-- `G_SAFE` -/
def safe : List ℤ :=
  row 0 ++ row 0 ++ row 0 ++
  [1, 1, 1, 1, 1, 1, 1, 1, 1, 1, 0, 0, 0, 0, 0, 0] ++
  [0, 1, 1, 1, 1, 1, 1, 1, 1, 1, 1, 1, 1, 1, 1, 1] ++
  [1, 1, 1, 1, 1, 1, 1, 1, 1, 1, 1, 0, 0, 0, 0, 0] ++
  [0, 1, 1, 1, 1, 1, 1, 1, 1, 1, 1, 1, 1, 1, 1, 1] ++
  [1, 1, 1, 1, 1, 1, 1, 1, 1, 1, 1, 0, 0, 0, 0, 0] ++
  row 0 ++ row 0 ++ row 0 ++ row 0 ++ row 0 ++ row 0 ++ row 0 ++ row 0

/-- An entry of a table. -/
def entry (table : List ℤ) (c : UInt8) : ℤ := table.getD c.toNat 0

/-- `DEC2HEX` -/
def dec2hex : List UInt8 :=
  [48, 49, 50, 51, 52, 53, 54, 55, 56, 57, 65, 66, 67, 68, 69, 70, 0]

/-- `SRC_LEN` -/
def srcLen (s : List UInt8) : ℤ := (s.length : ℤ).bmod (2 ^ 32)

/-- The first loop of `uri_decode`, and the one for the last two characters. -/
def decodeLoop : List UInt8 → List UInt8
  | c :: h :: l :: s =>
    if c = plus then space :: decodeLoop (h :: l :: s)
    else
      let dec1 := entry hex2dec h
      let dec2 := entry hex2dec l
      if c = percent ∧ -1 ≠ dec1 ∧ -1 ≠ dec2 then UInt8.ofInt (dec1 * 16 + dec2) :: decodeLoop s
      else c :: decodeLoop (h :: l :: s)
  | s => s

/-- `uri_decode` -/
def uriDecode (s : List UInt8) : Option (List UInt8) :=
  if srcLen s < 0 then none else some (decodeLoop (s.take (srcLen s).toNat))

/-- The loop of `uri_encode`. -/
def encodeLoop : List UInt8 → List UInt8
  | [] => []
  | c :: s =>
    if entry safe c ≠ 0 then c :: encodeLoop s
    else
      percent :: dec2hex.getD (c >>> 4).toNat 0 :: dec2hex.getD (c &&& 0x0f).toNat 0 :: encodeLoop s

/-- `uri_encode` -/
def uriEncode (s : List UInt8) : Option (List UInt8) :=
  if srcLen s * 3 < 0 ∨ 2 ^ 31 ≤ srcLen s * 3 then none
  else some (encodeLoop (s.take (srcLen s).toNat))

/-! ## What is asked for -/

/-- **Both decoders give back what was encoded.** -/
def RoundTrip (s : List UInt8) : Prop :=
  (uriEncode s).bind uriDecode = some s ∧
    (s ≠ [] → ∀ out : Out, ∃ e b, uriEncode s = some e ∧
      urldecodeNs out (some e) (e.length % 2 ^ 32) =
        some (statusOk, ⟨some b, s.length, out.invalid⟩) ∧ b.take s.length = s)

/-- **The decoders agree.** -/
def Agree (s : List UInt8) : Prop :=
  ∀ out : Out, ∃ b n bad, urldecodeNs out (some s) (s.length % 2 ^ 32) =
    some (statusOk, ⟨some b, n, bad⟩) ∧ uriDecode s = some (b.take n)

/-- The last two characters. -/
def lastTwo (s : List UInt8) : List UInt8 := s.drop (s.length - 2)

/-- The length is a positive `int`, and there is no `+` in the last two characters. -/
def AgreeOk (s : List UInt8) : Prop :=
  0 < s.length % 2 ^ 32 ∧ s.length % 2 ^ 32 < 2 ^ 31 ∧ plus ∉ lastTwo (s.take (s.length % 2 ^ 32))

/-! ## The tables -/

lemma hexVal_table (c : UInt8) :
    hexVal c = if -1 ≠ entry hex2dec c then some (UInt8.ofInt (entry hex2dec c)) else none :=
  forall_byte (p := fun c =>
    hexVal c = if -1 ≠ entry hex2dec c then some (UInt8.ofInt (entry hex2dec c)) else none)
    (by decide +kernel) c

lemma pair_table (h l : UInt8) :
    pair h l = if -1 ≠ entry hex2dec h ∧ -1 ≠ entry hex2dec l then
      some (UInt8.ofInt (entry hex2dec h * 16 + entry hex2dec l)) else none := by
  rw [pair, hexVal_table, hexVal_table]
  by_cases hh : -1 = entry hex2dec h
  · simp [← hh]
  · by_cases hl : -1 = entry hex2dec l
    · simp [← hl]
    · simp only [ne_eq, hh, hl, not_false_eq_true, and_self, if_true, Option.bind_eq_bind,
        Option.bind_some, UInt8.ofInt_add, UInt8.ofInt_mul, UInt8.mul_comm]
      rfl

lemma safe_ne (c : UInt8) (h : decide (entry safe c ≠ 0) = true) : c ≠ percent ∧ c ≠ plus := by
  have hc := of_decide_eq_true h
  constructor
  · rintro rfl
    exact hc (by decide)
  · rintro rfl
    exact hc (by decide)

lemma hexVal_dec2hex (d : UInt8) (h : d < 16) : hexVal (dec2hex.getD d.toNat 0) = some d :=
  forall_byte (p := fun d => d < 16 → hexVal (dec2hex.getD d.toNat 0) = some d)
    (by decide +kernel) d h

/-! ## Lengths -/

lemma srcLen_eq {s : List UInt8} (h : s.length < 2 ^ 31) : srcLen s = s.length :=
  Int.bmod_eq_of_le (by omega) (by omega)

/-- An `int` of 32 bits. -/
lemma bmod_eq (n : ℕ) : (n : ℤ).bmod 4294967296 =
    if n % 4294967296 < 2147483648 then ((n % 4294967296 : ℕ) : ℤ)
    else ((n % 4294967296 : ℕ) : ℤ) - 4294967296 := by
  rw [Int.bmod]
  split_ifs
  · omega
  · omega
  · omega
  · omega

lemma srcLen_spec (s : List UInt8) :
    (s.length % 2 ^ 32 < 2 ^ 31 ∧ srcLen s = ((s.length % 2 ^ 32 : ℕ) : ℤ)) ∨
      (2 ^ 31 ≤ s.length % 2 ^ 32 ∧ srcLen s < 0) := by
  have h := bmod_eq s.length
  change srcLen s = _ at h
  split_ifs at h
  · omega
  · omega

/-! ## Encoding -/

lemma encodeLoop_eq (s : List UInt8) :
    encodeLoop s = encode (fun c => decide (entry safe c ≠ 0)) (fun d => dec2hex.getD d.toNat 0)
      s := by
  induction s with
  | nil => rfl
  | cons c s ih =>
      rw [encode_cons, encodeLoop, ih]
      by_cases hc : entry safe c ≠ 0
      · simp [hc]
      · simp [hc]

lemma decode_encodeLoop (s : List UInt8) : decode (encodeLoop s) = s := by
  rw [encodeLoop_eq]
  exact decode_encode safe_ne hexVal_dec2hex s

lemma invalid_encodeLoop (s : List UInt8) : invalid (encodeLoop s) = 0 := by
  rw [encodeLoop_eq]
  exact invalid_encode safe_ne hexVal_dec2hex s

lemma plus_notMem_encodeLoop (s : List UInt8) : plus ∉ encodeLoop s := by
  rw [encodeLoop_eq]
  exact plus_notMem_encode safe_ne hexVal_dec2hex s

lemma length_encodeLoop_le (s : List UInt8) : (encodeLoop s).length ≤ 3 * s.length := by
  rw [encodeLoop_eq]
  exact length_encode_le _ _ s

/-! ## Decoding -/

variable {c h l : UInt8} {s : List UInt8}

lemma lastTwo_cons (c : UInt8) (hs : 2 ≤ s.length) : lastTwo (c :: s) = lastTwo s := by
  have hlen : (c :: s).length - 2 = s.length - 2 + 1 := by
    rw [List.length_cons]
    omega
  rw [lastTwo, hlen, List.drop_succ_cons, lastTwo]

/-- There is no `+` in an escape. -/
lemma plus_mem_lastTwo_escape (hh : h ≠ plus) (hl : l ≠ plus) :
    plus ∈ lastTwo (c :: h :: l :: s) ↔ plus ∈ lastTwo s := by
  rw [lastTwo_cons c (by simp)]
  match s with
  | [] => simp [lastTwo, hh.symm, hl.symm]
  | [x] => simp [lastTwo, hl.symm]
  | x :: y :: s => rw [lastTwo_cons h (by simp), lastTwo_cons l (by simp)]

/-- Where no escape starts, both decoders go on with the next character. -/
lemma decode_of_ne_pair (hc : ¬ (c = percent ∧ -1 ≠ entry hex2dec h ∧ -1 ≠ entry hex2dec l)) :
    decode (c :: h :: l :: s) = plain c :: decode (h :: l :: s) := by
  refine decode_cons_of_none ?_
  rw [escape]
  split_ifs with hper
  · rw [pair_table, if_neg fun h' => hc ⟨hper, h'⟩]
  · rfl

lemma eq_plain_iff (c : UInt8) : c = plain c ↔ c ≠ plus := by
  unfold plain
  split_ifs with hc
  · subst hc
    decide
  · simp [hc]

/-- **`uri_decode` does what it should** exactly if there is no `+` in the last two characters. -/
lemma decodeLoop_eq_iff (s : List UInt8) : decodeLoop s = decode s ↔ plus ∉ lastTwo s := by
  fun_induction decodeLoop s with
  | case1 h l s ih =>
      have hne : ¬ (plus = percent ∧ -1 ≠ entry hex2dec h ∧ -1 ≠ entry hex2dec l) := fun h' =>
        absurd h'.1 (by decide)
      rw [decode_of_ne_pair hne, lastTwo_cons _ (by simp), ← ih, plain, if_pos rfl,
        List.cons_inj_right]
  | case2 c h l s hc dec1 dec2 hx ih =>
      obtain ⟨rfl, hh, hl⟩ := hx
      have hpair := pair_table h l
      rw [if_pos ⟨hh, hl⟩] at hpair
      obtain ⟨-, hhp, hlp⟩ := ne_of_pair hpair
      rw [decode_cons_of_pair hpair, List.cons_inj_right, ih, plus_mem_lastTwo_escape hhp hlp]
  | case3 c h l s hc dec1 dec2 hx ih =>
      rw [decode_of_ne_pair hx, lastTwo_cons _ (by simp), ← ih, plain, if_neg hc,
        List.cons_inj_right]
  | case4 s hs =>
      -- there is no room for an escape
      rcases s with _ | ⟨a, _ | ⟨b, _ | ⟨c, s⟩⟩⟩
      · exact iff_of_true rfl List.not_mem_nil
      · simp [decode, eq_plain_iff, lastTwo, eq_comm]
      · simp [decode, eq_plain_iff, lastTwo, eq_comm]
      · exact absurd rfl (hs a b c s)

/-! ## The round trip -/

/-- Where the length is an `int`, all of the text is decoded. -/
lemma uriDecode_eq (hlen : s.length < 2 ^ 31) : uriDecode s = some (decodeLoop s) := by
  have hnonneg : ¬ ((s.length : ℤ) < 0) := by omega
  rw [uriDecode, srcLen_eq hlen, if_neg hnonneg, Int.toNat_natCast, List.take_length]

/-- What is encoded, is the front of the text: all of it if three times its length is an `int`. -/
lemma uriEncode_eq_some {e : List UInt8} (he : uriEncode s = some e) :
    ∃ n, e = encodeLoop (s.take n) ∧ 3 * n < 2 ^ 31 ∧ n ≤ s.length := by
  unfold uriEncode at he
  split_ifs at he with hbad
  obtain ⟨hlow, hhigh⟩ := not_or.mp hbad
  obtain ⟨-, hlen⟩ | ⟨-, hneg⟩ := srcLen_spec s
  · refine ⟨(srcLen s).toNat, (Option.some.inj he).symm, by omega, ?_⟩
    have := Nat.mod_le s.length (2 ^ 32)
    omega
  · omega

lemma uriEncode_eq (hlen : 3 * s.length < 2 ^ 31) : uriEncode s = some (encodeLoop s) := by
  have hlen' : s.length < 2 ^ 31 := by omega
  have hok : ¬ ((s.length : ℤ) * 3 < 0 ∨ 2 ^ 31 ≤ (s.length : ℤ) * 3) := by omega
  rw [uriEncode, srcLen_eq hlen', if_neg hok, Int.toNat_natCast, List.take_length]

/-- There is no `+` in what is encoded, so `uri_decode` decodes all of it. -/
lemma uriDecode_encodeLoop (hlen : 3 * s.length < 2 ^ 31) :
    uriDecode (encodeLoop s) = some s := by
  have hle := length_encodeLoop_le s
  have hplus : plus ∉ lastTwo (encodeLoop s) := fun h =>
    plus_notMem_encodeLoop s (List.mem_of_mem_drop h)
  rw [uriDecode_eq (by omega), (decodeLoop_eq_iff _).mpr hplus, decode_encodeLoop]

lemma urldecodeNs_encodeLoop (hs : s ≠ []) (hlen : 3 * s.length < 2 ^ 31) (out : Out) :
    ∃ b, urldecodeNs out (some (encodeLoop s)) ((encodeLoop s).length % 2 ^ 32) =
      some (statusOk, ⟨some b, s.length, out.invalid⟩) ∧ b.take s.length = s := by
  have hle := length_encodeLoop_le s
  have hmod : (encodeLoop s).length % 2 ^ 32 = (encodeLoop s).length :=
    Nat.mod_eq_of_lt (by omega)
  have hdec := length_decode_le (encodeLoop s)
  rw [decode_encodeLoop] at hdec
  have hpos := List.length_pos_iff.mpr hs
  obtain ⟨b, hb, -, htake⟩ := urldecodeNs_eq out (by omega) (le_refl (encodeLoop s).length)
    (by omega)
  rw [List.take_length, decode_encodeLoop, invalid_encodeLoop] at hb
  rw [List.take_length, decode_encodeLoop] at htake
  refine ⟨b, ?_, take_of_concat htake⟩
  have hzero : UInt32.ofNat 0 = 0 := rfl
  rw [hmod, hb, hzero, UInt32.add_zero]

/-- **What is encoded can be decoded by both decoders exactly if** three times its length is an
`int`. -/
theorem roundTrip_iff (s : List UInt8) : RoundTrip s ↔ 3 * s.length < 2 ^ 31 := by
  constructor
  · rintro ⟨hround, -⟩
    obtain ⟨e, he, hdec⟩ := Option.bind_eq_some_iff.mp hround
    obtain ⟨n, rfl, hn, hle⟩ := uriEncode_eq_some he
    have hlen : (s.take n).length = n := List.length_take_of_le hle
    rw [uriDecode_encodeLoop (by omega)] at hdec
    have heq := congrArg List.length (Option.some.inj hdec)
    omega
  · intro hlen
    refine ⟨?_, fun hs out => ?_⟩
    · rw [uriEncode_eq hlen, Option.bind_some, uriDecode_encodeLoop hlen]
    · obtain ⟨b, hb, htake⟩ := urldecodeNs_encodeLoop hs hlen out
      exact ⟨_, b, uriEncode_eq hlen, hb, htake⟩

/-- Three times the length of this text is no `int`. -/
def longText : List UInt8 := List.replicate 715827883 0

/-- **A text of 700 MB is not encoded.** -/
theorem long_text_not_encoded : ¬ RoundTrip longText := by
  rintro ⟨hround, -⟩
  obtain ⟨e, he, hdec⟩ := Option.bind_eq_some_iff.mp hround
  obtain ⟨n, rfl, hn, hle⟩ := uriEncode_eq_some he
  have hlen : (longText.take n).length = n := List.length_take_of_le hle
  have htext : longText.length = 715827883 := List.length_replicate
  rw [uriDecode_encodeLoop (by omega)] at hdec
  have heq := congrArg List.length (Option.some.inj hdec)
  omega

/-! ## Agreement -/

/-- **The decoders agree exactly if** the length is a positive `int`, and there is no `+` in the
last two characters. -/
theorem agree_iff (s : List UInt8) : Agree s ↔ AgreeOk s := by
  have hle := Nat.mod_le s.length (2 ^ 32)
  have hlt := Nat.mod_lt s.length (by decide : 0 < 2 ^ 32)
  by_cases hpos : 0 < s.length % 2 ^ 32
  · obtain ⟨hshort, hlen⟩ | ⟨hlong, hneg⟩ := srcLen_spec s
    · have huri : uriDecode s = some (decodeLoop (s.take (s.length % 2 ^ 32))) := by
        have hnonneg : ¬ srcLen s < 0 := by omega
        rw [uriDecode, if_neg hnonneg, hlen, Int.toNat_natCast]
      have hagree : Agree s ↔
          decodeLoop (s.take (s.length % 2 ^ 32)) = decode (s.take (s.length % 2 ^ 32)) := by
        constructor
        · intro h
          obtain ⟨b, n, bad, hns, hsame⟩ := h ⟨none, 0, 0⟩
          obtain ⟨b', hb, -, htake⟩ := urldecodeNs_eq ⟨none, 0, 0⟩ hpos hle hlt
          rw [hb] at hns
          cases hns
          rw [huri, take_of_concat htake] at hsame
          exact Option.some.inj hsame
        · intro h out
          obtain ⟨b, hb, -, htake⟩ := urldecodeNs_eq out hpos hle hlt
          exact ⟨b, _, _, hb, by rw [huri, h, take_of_concat htake]⟩
      rw [hagree, decodeLoop_eq_iff, AgreeOk, and_iff_right hpos, and_iff_right hshort]
    · refine iff_of_false (fun h => ?_) (fun h => absurd h.2.1 (not_lt.mpr hlong))
      obtain ⟨b, n, bad, -, hsame⟩ := h ⟨none, 0, 0⟩
      rw [uriDecode, if_pos hneg] at hsame
      cases hsame
  · refine iff_of_false (fun h => ?_) (fun h => hpos h.1)
    obtain ⟨b, n, bad, hns, -⟩ := h ⟨none, 0, 0⟩
    have hzero : s.length % 2 ^ 32 = 0 := by omega
    rw [hzero] at hns
    cases hns

/-- **A `+` at the end is kept by one decoder only.** -/
theorem plus_at_end : ¬ Agree [plus] := by
  intro h
  obtain ⟨b, n, bad, hns, hsame⟩ := h ⟨none, 0, 0⟩
  have heval : urldecodeNs ⟨none, 0, 0⟩ (some [plus]) ([plus].length % 2 ^ 32) =
      some (statusOk, ⟨some [space, 0], 1, 0⟩) := by decide +kernel
  rw [heval] at hns
  cases hns
  exact absurd hsame (by decide +kernel)

end Uri

end Is2
