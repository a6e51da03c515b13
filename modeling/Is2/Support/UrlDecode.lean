import Is2.Core.Percent
import Mathlib.Algebra.Ring.Nat
import Mathlib.Data.List.TakeDrop

/-!
# `urldecode_ns`

The text is copied to a new buffer with a NUL behind it, and decoded in place: what is written never
comes in front of what is still to be read.

**Model.**  The buffer is the list of its bytes, and the indices have 32 bits.  An index outside of
the buffer is undefined (`none`).

For each text whose length fits, the buffer then starts with what the text stands for, and a NUL
behind it: `urldecodeNs_eq`.
-/

namespace Is2

namespace UrlDecode

open Percent

/-- `STATUS_OK` -/
abbrev statusOk : ℤ := 0

/-- `STATUS_ERROR` -/
abbrev statusError : ℤ := -1

/-! ## The code -/

/-- `VALID_HEX` -/
def validHex (x : UInt8) : Bool :=
  (decide (48 ≤ x) && decide (x ≤ 57)) || (decide (97 ≤ x) && decide (x ≤ 102)) ||
    (decide (65 ≤ x) && decide (x ≤ 70))

/-- A digit in `x2c`. -/
def nibble (x : UInt8) : UInt8 := if 65 ≤ x then ((x &&& 0xdf) - 65) + 10 else x - 48

/-- `x2c` -/
def x2c (a b : UInt8) : UInt8 := nibble a * 16 + nibble b

/-- The loop of `urldecode_ns`: `l_buf`, `i_char`, the index of `l_d`, `l_count` and
`ao_invalid_count`. -/
structure State where
  buf : List UInt8
  iChar : ℕ
  d : ℕ
  count : ℕ
  invalid : UInt32
deriving DecidableEq

/-- `*l_d` is written, and `k` characters are done. -/
def State.put (s : State) (x : UInt8) (k : ℕ) : Option State :=
  if s.d < s.buf.length then
    some { s with
      buf := s.buf.set s.d x
      iChar := (s.iChar + k) % 2 ^ 32
      d := s.d + 1
      count := (s.count + 1) % 2 ^ 32 }
  else none

/-- `++ao_invalid_count` -/
def State.skip (s : State) : State := { s with invalid := s.invalid + 1 }

/-- A turn of the loop. -/
def State.turn (s : State) (len : ℕ) : Option State := do
  let c ← s.buf[s.iChar]?
  if c = percent then
    if (s.iChar + 2) % 2 ^ 32 < len then do
      let c1 ← s.buf[(s.iChar + 1) % 2 ^ 32]?
      let c2 ← s.buf[(s.iChar + 2) % 2 ^ 32]?
      if validHex c1 && validHex c2 then s.put (x2c c1 c2) 3
      else s.skip.put c 1
    else s.skip.put c 1
  else if c = plus then s.put space 1
  else s.put c 1

/-- The loop; a turn does at least one character. -/
def loop (len : ℕ) : ℕ → State → Option State
  | 0, s => if s.iChar < len then none else some s
  | fuel + 1, s => if s.iChar < len then (s.turn len).bind (loop len fuel) else some s

/-- `*ao_buf`, `ao_len` and `ao_invalid_count`. -/
structure Out where
  buf : Option (List UInt8)
  len : ℕ
  invalid : UInt32
deriving DecidableEq

/-- `urldecode_ns`, from what was in the arguments before: the status, and what is in them. -/
def urldecodeNs (out : Out) (buf : Option (List UInt8)) (len : ℕ) : Option (ℤ × Out) :=
  match buf with
  | none => some (statusError, out)
  | some buf =>
    if len = 0 then some (statusError, out)
    else if buf.length < len then none
    else do
      let s ← loop len len ⟨buf.take len ++ [0], 0, 0, 0, out.invalid⟩
      if s.d < s.buf.length then some (statusOk, ⟨some (s.buf.set s.d 0), s.count, s.invalid⟩)
      else none

/-! ## Digits -/

/-- `VALID_HEX` and `x2c` are about the same digits. -/
lemma hexVal_eq (c : UInt8) : hexVal c = if validHex c then some (nibble c) else none :=
  forall_byte (p := fun c => hexVal c = if validHex c then some (nibble c) else none)
    (by decide +kernel) c

lemma pair_eq (a b : UInt8) :
    pair a b = if validHex a && validHex b then some (x2c a b) else none := by
  rw [pair, hexVal_eq, hexVal_eq, x2c]
  cases validHex a with
  | false => rfl
  | true =>
      cases validHex b with
      | false => rfl
      | true => exact congrArg some (by rw [UInt8.mul_comm])

/-! ## The loop -/

/-- **What is carried along the loop**: `t` is the text, the decoded bytes are in front, and what is
still to be read is as it was. -/
structure Inv (t : List UInt8) (s : State) : Prop where
  behind : s.d ≤ s.iChar
  within : s.iChar ≤ t.length
  rest : s.buf.drop s.iChar = t.drop s.iChar ++ [0]
  count : s.count = s.d

variable {t : List UInt8} {s : State}

lemma Inv.length_buf (h : Inv t s) : s.buf.length = t.length + 1 := by
  have hlen := congrArg List.length h.rest
  have hle := h.within
  rw [List.length_drop, List.length_append, List.length_drop, List.length_singleton] at hlen
  omega

/-- What is written does not change what is still to be read. -/
lemma Inv.put (h : Inv t s) (hsize : t.length < 2 ^ 32) (x : UInt8) {k : ℕ} (hk : 0 < k)
    (hfits : s.iChar + k ≤ t.length) :
    ∃ s', s.put x k = some s' ∧ Inv t s' ∧ s'.iChar = s.iChar + k ∧
      s'.buf.take s'.d = s.buf.take s.d ++ [x] ∧ s'.invalid = s.invalid := by
  have hlen := h.length_buf
  have hle := h.behind
  have hd : s.d < s.buf.length := by omega
  have hmod : (s.iChar + k) % 2 ^ 32 = s.iChar + k := Nat.mod_eq_of_lt (by omega)
  have hcount : (s.count + 1) % 2 ^ 32 = s.d + 1 := by
    rw [h.count]
    exact Nat.mod_eq_of_lt (by omega)
  refine ⟨_, if_pos hd, ⟨?_, ?_, ?_, hcount⟩, hmod, ?_, rfl⟩
  · simp only [hmod]
    omega
  · simp only [hmod]
    exact hfits
  · simp only [hmod]
    rw [List.drop_set_of_lt (by omega), ← List.drop_drop, h.rest,
      List.drop_append_of_le_length (by rw [List.length_drop]; omega), List.drop_drop]
  · simp only
    rw [List.take_succ_eq_append_getElem (by rwa [List.length_set]), List.getElem_set_self,
      List.take_set_of_le le_rfl]

/-- What a turn reads. -/
lemma Inv.getElem (h : Inv t s) (k : ℕ) :
    s.buf[s.iChar + k]? = (t.drop s.iChar ++ [0])[k]? := by
  rw [← h.rest, List.getElem?_drop]

section Turn

variable {c : UInt8} {rest : List UInt8} (h : Inv t s) (hsize : t.length < 2 ^ 32)
  (hrest : t.drop s.iChar = c :: rest)

include h hrest

lemma Inv.length_rest : s.iChar + (rest.length + 1) = t.length := by
  have hlen := congrArg List.length hrest
  have hle := h.within
  rw [List.length_drop, List.length_cons] at hlen
  omega

include hsize

/-- The digits are looked for where they are; at the last character of the longest text, the NUL
behind the text is looked at, and it is no digit. -/
lemma Inv.turn_eq : s.turn t.length =
    match escape c rest with
    | some x => s.put x 3
    | none => (if c = percent then s.skip else s).put (plain c) 1 := by
  have hlen := h.length_rest hrest
  have hc : s.buf[s.iChar]? = some c := by
    have := h.getElem 0
    rwa [hrest] at this
  simp only [State.turn, hc, Option.bind_eq_bind, Option.bind_some]
  by_cases hper : c = percent
  · subst hper
    rw [if_pos rfl, if_pos rfl]
    have hplain : plain percent = percent := by decide
    match rest with
    | [] =>
        rw [List.length_nil] at hlen
        by_cases hwrap : s.iChar + 2 = 2 ^ 32
        · have hnul : s.buf[(s.iChar + 1) % 2 ^ 32]? = some 0 := by
            rw [Nat.mod_eq_of_lt (by omega), h.getElem, hrest]
            rfl
          obtain ⟨x, hx⟩ : ∃ x, s.buf[(s.iChar + 2) % 2 ^ 32]? = some x := by
            refine ⟨_, List.getElem?_eq_getElem ?_⟩
            rw [h.length_buf, hwrap, Nat.mod_self]
            omega
          have hdigit : (validHex 0 && validHex x) = false := by
            rw [Bool.and_eq_false_iff]
            exact .inl (by decide)
          simp only [hnul, hx, hdigit, Option.bind_some, escape, hplain, Bool.false_eq_true,
            if_false, ite_self]
        · rw [if_neg (by rw [Nat.mod_eq_of_lt (by omega)]; omega)]
          rfl
    | [a] =>
        rw [List.length_singleton] at hlen
        rw [if_neg (by rw [Nat.mod_eq_of_lt (by omega)]; omega)]
        rfl
    | a :: b :: r =>
        rw [List.length_cons, List.length_cons] at hlen
        have ha : s.buf[(s.iChar + 1) % 2 ^ 32]? = some a := by
          rw [Nat.mod_eq_of_lt (by omega), h.getElem, hrest]
          rfl
        have hb : s.buf[(s.iChar + 2) % 2 ^ 32]? = some b := by
          rw [Nat.mod_eq_of_lt (by omega), h.getElem, hrest]
          rfl
        rw [if_pos (by rw [Nat.mod_eq_of_lt (by omega)]; omega), escape_percent, pair_eq]
        simp only [ha, hb, Option.bind_some]
        cases validHex a && validHex b with
        | true => rfl
        | false => rfl
  · have hesc : escape c rest = none := by
      by_contra hne
      obtain ⟨x, hx⟩ := Option.ne_none_iff_exists'.mp hne
      exact hper (escape_eq_some hx).1
    rw [if_neg hper, hesc]
    simp only [if_neg hper, plain]
    split_ifs
    · rfl
    · rfl

/-- **A turn** decodes what is in front of the text that is left. -/
lemma Inv.turn :
    ∃ s', s.turn t.length = some s' ∧ Inv t s' ∧ s.iChar < s'.iChar ∧
      s'.buf.take s'.d ++ decode (t.drop s'.iChar) = s.buf.take s.d ++ decode (t.drop s.iChar) ∧
      s'.invalid + UInt32.ofNat (invalid (t.drop s'.iChar)) =
        s.invalid + UInt32.ofNat (invalid (t.drop s.iChar)) := by
  have hlen := h.length_rest hrest
  rw [h.turn_eq hsize hrest, hrest]
  cases hesc : escape c rest with
  | some x =>
      obtain ⟨rfl, a, b, r, rfl, hpair⟩ := escape_eq_some hesc
      have hr : t.drop (s.iChar + 3) = r := by
        rw [← List.drop_drop, hrest]
        rfl
      obtain ⟨s', hput, hinv, hi, htake, hbad⟩ := h.put hsize x (k := 3) (by decide)
        (by rw [List.length_cons, List.length_cons] at hlen; omega)
      refine ⟨s', hput, hinv, by omega, ?_, ?_⟩
      · rw [hi, hr, htake, decode_cons_of_pair hpair, List.append_assoc, List.singleton_append]
      · rw [hi, hr, hbad, invalid_cons_of_pair hpair]
  | none =>
      have hr : t.drop (s.iChar + 1) = rest := by
        rw [← List.drop_drop, hrest]
        rfl
      by_cases hper : c = percent
      · subst hper
        have hskip : Inv t s.skip := ⟨h.behind, h.within, h.rest, h.count⟩
        obtain ⟨s', hput, hinv, hi, htake, hbad⟩ := hskip.put hsize (plain percent) (k := 1)
          (by decide) (by change s.iChar + 1 ≤ _; omega)
        change s'.iChar = s.iChar + 1 at hi
        refine ⟨s', hput, hinv, by omega, ?_, ?_⟩
        · rw [hi, hr, htake, decode_cons_of_none hesc, List.append_assoc]
          rfl
        · rw [hi, hr, hbad, invalid_percent_of_none hesc, UInt32.ofNat_add,
            UInt32.add_comm (UInt32.ofNat _), ← UInt32.add_assoc]
          rfl
      · obtain ⟨s', hput, hinv, hi, htake, hbad⟩ := h.put hsize (plain c) (k := 1) (by decide)
          (by omega)
        refine ⟨s', by simpa [hper] using hput, hinv, by omega, ?_, ?_⟩
        · rw [hi, hr, htake, decode_cons_of_none hesc, List.append_assoc]
          rfl
        · rw [hi, hr, hbad, invalid_cons_of_ne hper]

end Turn

/-- The whole loop. -/
lemma Inv.loop (hsize : t.length < 2 ^ 32) {fuel : ℕ} (hfuel : t.length ≤ s.iChar + fuel)
    (h : Inv t s) :
    ∃ s', loop t.length fuel s = some s' ∧ Inv t s' ∧
      s'.buf.take s'.d = s.buf.take s.d ++ decode (t.drop s.iChar) ∧
      s'.invalid = s.invalid + UInt32.ofNat (invalid (t.drop s.iChar)) := by
  have hend : ∀ {s : State}, Inv t s → ¬ s.iChar < t.length →
      s.buf.take s.d = s.buf.take s.d ++ decode (t.drop s.iChar) ∧
        s.invalid = s.invalid + UInt32.ofNat (invalid (t.drop s.iChar)) := by
    intro s h hge
    rw [List.drop_of_length_le (not_lt.mp hge)]
    exact ⟨(List.append_nil _).symm, (UInt32.add_zero _).symm⟩
  induction fuel generalizing s with
  | zero =>
      have hge : ¬ s.iChar < t.length := by omega
      exact ⟨s, if_neg hge, h, hend h hge⟩
  | succ fuel ih =>
      by_cases hlt : s.iChar < t.length
      · obtain ⟨c, rest, hrest⟩ := List.exists_cons_of_length_pos
          (by rw [List.length_drop]; omega : 0 < (t.drop s.iChar).length)
        obtain ⟨s₁, hturn, hinv, hi, htake, hbad⟩ := h.turn hsize hrest
        obtain ⟨s', hloop, hinv', htake', hbad'⟩ := ih (by omega) hinv
        refine ⟨s', ?_, hinv', ?_, ?_⟩
        · rw [UrlDecode.loop, if_pos hlt, hturn]
          exact hloop
        · rw [htake', htake]
        · rw [hbad', hbad]
      · exact ⟨s, if_neg hlt, h, hend h hlt⟩

/-- **`urldecode_ns` decodes its text**: the buffer starts with what the text stands for, and a NUL
behind it; the invalid `%` are added to those that were counted before. -/
theorem urldecodeNs_eq (out : Out) {buf : List UInt8} {len : ℕ} (hpos : 0 < len)
    (hlen : len ≤ buf.length) (hsize : len < 2 ^ 32) :
    ∃ b, urldecodeNs out (some buf) len = some (statusOk,
        ⟨some b, (decode (buf.take len)).length,
          out.invalid + UInt32.ofNat (invalid (buf.take len))⟩) ∧
      b.length = len + 1 ∧
      b.take ((decode (buf.take len)).length + 1) = decode (buf.take len) ++ [0] := by
  have ht : (buf.take len).length = len := List.length_take_of_le hlen
  have hinv : Inv (buf.take len) ⟨buf.take len ++ [0], 0, 0, 0, out.invalid⟩ :=
    ⟨le_rfl, Nat.zero_le _, rfl, rfl⟩
  obtain ⟨s, hloop, hs, htake, hbad⟩ := hinv.loop (by omega) (Nat.le_add_left _ 0)
  rw [ht] at hloop
  simp only [List.take_zero, List.nil_append, List.drop_zero] at htake hbad
  have hbehind := hs.behind
  have hwithin := hs.within
  have hbuf := hs.length_buf
  have hd : s.d < s.buf.length := by omega
  have hcount : (decode (buf.take len)).length = s.d := by
    rw [← htake, List.length_take]
    omega
  refine ⟨s.buf.set s.d 0, ?_, by rw [List.length_set]; omega, ?_⟩
  · have hnz : len ≠ 0 := by omega
    have hge : ¬ buf.length < len := by omega
    simp only [urldecodeNs, if_neg hnz, if_neg hge, hloop, Option.bind_eq_bind, Option.bind_some,
      if_pos hd, hcount, hs.count, hbad]
  · rw [hcount, List.take_succ_eq_append_getElem (by rwa [List.length_set]),
      List.getElem_set_self, List.take_set_of_le le_rfl, htake]

/-- The bytes that were decoded. -/
lemma take_of_concat {b t : List UInt8} (h : b.take (t.length + 1) = t ++ [0]) :
    b.take t.length = t := by
  have htake := congrArg (List.take t.length) h
  rwa [List.take_take, Nat.min_eq_left (Nat.le_succ _), List.take_left] at htake

end UrlDecode

end Is2
