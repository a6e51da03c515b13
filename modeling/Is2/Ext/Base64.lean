import Mathlib.Data.List.TakeDrop

/-!
# `base64_encode` and `base64_decode`

Both functions run one loop that fills a small array and empties it when it is full, and then deal
with what is left in the array.

**Model.**  The array is the list of what has been filled in so far; places that are not filled in
read as zero, which is what both functions put there before they use them.

Decoding inverts encoding (`base64Decode_encode`), and the encoded text is made of the characters of
the alphabet and `=` (`mem_base64Encode`), four for every three bytes (`length_base64Encode`).
-/

namespace Is2

namespace Base64

/-- `s_base64_chars` -/
def base64Chars : List Char :=
  "ABCDEFGHIJKLMNOPQRSTUVWXYZabcdefghijklmnopqrstuvwxyz0123456789+/".toList

/-- `is_base64` -/
def isBase64 (c : Char) : Bool := c.isAlphanum || c = '+' || c = '/'

/-- `s_base64_chars[i]` -/
def charAt (i : UInt8) : Char := base64Chars.getD i.toNat '\x00'

/-- `s_base64_chars.find(c)`, as an `unsigned char`. -/
def find (c : Char) : UInt8 :=
  if c ∈ base64Chars then UInt8.ofNat (base64Chars.idxOf c) else 0xff

/-! ## Encoding -/

/-- `char_array_4` from `char_array_3` -/
def fill4 (a : List UInt8) : List UInt8 :=
  let a0 := a.getD 0 0
  let a1 := a.getD 1 0
  let a2 := a.getD 2 0
  [(a0 &&& 0xfc) >>> 2,
    ((a0 &&& 0x03) <<< 4) + ((a1 &&& 0xf0) >>> 4),
    ((a1 &&& 0x0f) <<< 2) + ((a2 &&& 0xc0) >>> 6),
    a2 &&& 0x3f]

/-- The loop of `base64_encode`: what is left in the array, and the text. -/
def encodeLoop : List UInt8 → List UInt8 → List Char → List UInt8 × List Char
  | [], a, ret => (a, ret)
  | x :: xs, a, ret =>
    let a := a ++ [x]
    if a.length = 3 then encodeLoop xs [] (ret ++ (fill4 a).map charAt)
    else encodeLoop xs a ret

/-- `base64_encode` -/
def base64Encode (bytes : List UInt8) : List Char :=
  let (a, ret) := encodeLoop bytes [] []
  if a.length = 0 then ret
  else ret ++ ((fill4 a).take (a.length + 1)).map charAt ++ List.replicate (3 - a.length) '='

/-! ## Decoding -/

/-- `char_array_3` from `char_array_4` -/
def fill3 (a : List Char) : List UInt8 :=
  let a0 := find (a.getD 0 '\x00')
  let a1 := find (a.getD 1 '\x00')
  let a2 := find (a.getD 2 '\x00')
  let a3 := find (a.getD 3 '\x00')
  [(a0 <<< 2) + ((a1 &&& 0x30) >>> 4),
    ((a1 &&& 0xf) <<< 4) + ((a2 &&& 0x3c) >>> 2),
    ((a2 &&& 0x3) <<< 6) + a3]

/-- The loop of `base64_decode`. -/
def decodeLoop : List Char → List Char → List UInt8 → List Char × List UInt8
  | [], a, ret => (a, ret)
  | c :: cs, a, ret =>
    if c ≠ '=' ∧ isBase64 c then
      let a := a ++ [c]
      if a.length = 4 then decodeLoop cs [] (ret ++ fill3 a)
      else decodeLoop cs a ret
    else (a, ret)

/-- `base64_decode` -/
def base64Decode (text : List Char) : List UInt8 :=
  let (a, ret) := decodeLoop text [] []
  if a.length = 0 then ret else ret ++ (fill3 a).take (a.length - 1)

/-! ## The characters -/

lemma charAt_fin : ∀ i : Fin 64, charAt (UInt8.ofNat i) ∈ base64Chars ∧
    charAt (UInt8.ofNat i) ≠ '=' ∧ isBase64 (charAt (UInt8.ofNat i)) = true ∧
    find (charAt (UInt8.ofNat i)) = UInt8.ofNat i := by
  decide +kernel

section Index

variable {q : UInt8} (h : q.toNat < 64)

include h

lemma charAt_mem : charAt q ∈ base64Chars := by
  simpa using (charAt_fin ⟨q.toNat, h⟩).1

lemma charAt_ok : charAt q ≠ '=' ∧ isBase64 (charAt q) = true := by
  have hfin := charAt_fin ⟨q.toNat, h⟩
  simpa using And.intro hfin.2.1 hfin.2.2.1

lemma find_charAt : find (charAt q) = q := by
  simpa using (charAt_fin ⟨q.toNat, h⟩).2.2.2

end Index

/-! ## The bits -/

/-- The pieces that a byte is cut into. -/
lemma cut_fin : ∀ i : Fin 256, let a := UInt8.ofNat i
    ((a &&& 0xfc) >>> 2).toNat = i / 4 ∧ ((a &&& 0x03) <<< 4).toNat = i % 4 * 16 ∧
    ((a &&& 0xf0) >>> 4).toNat = i / 16 ∧ ((a &&& 0x0f) <<< 2).toNat = i % 16 * 4 ∧
    ((a &&& 0xc0) >>> 6).toNat = i / 64 ∧ (a &&& 0x3f).toNat = i % 64 := by
  decide +kernel

/-- The pieces that are put together again. -/
lemma join_fin : ∀ i : Fin 64, let q := UInt8.ofNat i
    (q <<< 2).toNat = i * 4 ∧ ((q &&& 0x30) >>> 4).toNat = i / 16 ∧
    ((q &&& 0xf) <<< 4).toNat = i % 16 * 16 ∧ ((q &&& 0x3c) >>> 2).toNat = i / 4 ∧
    ((q &&& 0x3) <<< 6).toNat = i % 4 * 64 := by
  decide +kernel

lemma cut (a : UInt8) :
    ((a &&& 0xfc) >>> 2).toNat = a.toNat / 4 ∧ ((a &&& 0x03) <<< 4).toNat = a.toNat % 4 * 16 ∧
    ((a &&& 0xf0) >>> 4).toNat = a.toNat / 16 ∧ ((a &&& 0x0f) <<< 2).toNat = a.toNat % 16 * 4 ∧
    ((a &&& 0xc0) >>> 6).toNat = a.toNat / 64 ∧ (a &&& 0x3f).toNat = a.toNat % 64 := by
  have hfin := cut_fin ⟨a.toNat, a.toNat_lt⟩
  rwa [UInt8.ofNat_toNat] at hfin

lemma join {q : UInt8} (h : q.toNat < 64) :
    (q <<< 2).toNat = q.toNat * 4 ∧ ((q &&& 0x30) >>> 4).toNat = q.toNat / 16 ∧
    ((q &&& 0xf) <<< 4).toNat = q.toNat % 16 * 16 ∧ ((q &&& 0x3c) >>> 2).toNat = q.toNat / 4 ∧
    ((q &&& 0x3) <<< 6).toNat = q.toNat % 4 * 64 := by
  have hfin := join_fin ⟨q.toNat, h⟩
  rwa [UInt8.ofNat_toNat] at hfin

section Group

variable (a b c : UInt8)

/-- The second piece is made of two bytes. -/
lemma piece1 : (((a &&& 0x03) <<< 4) + ((b &&& 0xf0) >>> 4)).toNat =
    a.toNat % 4 * 16 + b.toNat / 16 := by
  have hb := b.toNat_lt
  rw [UInt8.toNat_add, (cut a).2.1, (cut b).2.2.1]
  omega

lemma piece2 : (((b &&& 0x0f) <<< 2) + ((c &&& 0xc0) >>> 6)).toNat =
    b.toNat % 16 * 4 + c.toNat / 64 := by
  have hc := c.toNat_lt
  rw [UInt8.toNat_add, (cut b).2.2.2.1, (cut c).2.2.2.2.1]
  omega

/-- All four pieces are indices into the alphabet. -/
lemma fill4_lt (l : List UInt8) : ∀ q ∈ fill4 l, q.toNat < 64 := by
  have h0 := (cut (l.getD 0 0)).1
  have h1 := piece1 (l.getD 0 0) (l.getD 1 0)
  have h2 := piece2 (l.getD 1 0) (l.getD 2 0)
  have h3 := (cut (l.getD 2 0)).2.2.2.2.2
  have ha := (l.getD 0 0).toNat_lt
  have hb := (l.getD 1 0).toNat_lt
  have hc := (l.getD 2 0).toNat_lt
  simp only [fill4, List.forall_mem_cons, List.not_mem_nil, false_implies, implies_true, and_true]
  omega

lemma byte0 : (((a &&& 0xfc) >>> 2) <<< 2) +
    (((((a &&& 0x03) <<< 4) + ((b &&& 0xf0) >>> 4)) &&& 0x30) >>> 4) = a := by
  have ha := a.toNat_lt
  have hb := b.toNat_lt
  have h0 := (cut a).1
  have h1 := piece1 a b
  rw [← UInt8.toNat_inj, UInt8.toNat_add, (join (by omega)).1, (join (by omega)).2.1, h0, h1]
  omega

lemma byte1 : (((((a &&& 0x03) <<< 4) + ((b &&& 0xf0) >>> 4)) &&& 0xf) <<< 4) +
    (((((b &&& 0x0f) <<< 2) + ((c &&& 0xc0) >>> 6)) &&& 0x3c) >>> 2) = b := by
  have hb := b.toNat_lt
  have hc := c.toNat_lt
  have h1 := piece1 a b
  have h2 := piece2 b c
  rw [← UInt8.toNat_inj, UInt8.toNat_add, (join (by omega)).2.2.1, (join (by omega)).2.2.2.1, h1,
    h2]
  omega

lemma byte2 : (((((b &&& 0x0f) <<< 2) + ((c &&& 0xc0) >>> 6)) &&& 0x3) <<< 6) + (c &&& 0x3f) =
    c := by
  have hc := c.toNat_lt
  have h2 := piece2 b c
  rw [← UInt8.toNat_inj, UInt8.toNat_add, (join (by omega)).2.2.2.2, h2, (cut c).2.2.2.2.2]
  omega

/-! ## Groups of bytes -/

/-- The four characters of three bytes are decoded. -/
lemma fill3_fill4 : fill3 ((fill4 [a, b, c]).map charAt) = [a, b, c] := by
  have hlt := fill4_lt [a, b, c]
  simp only [fill4, List.getD_cons_zero, List.getD_cons_succ, List.forall_mem_cons] at hlt
  obtain ⟨h0, h1, h2, h3, -⟩ := hlt
  simp [fill3, fill4, find_charAt h0, find_charAt h1, find_charAt h2, find_charAt h3, byte0, byte1,
    byte2]

lemma fill3_fill4_two :
    (fill3 (((fill4 [a, b]).take 3).map charAt)).take 2 = [a, b] := by
  have hlt := fill4_lt [a, b, 0]
  simp only [fill4, List.getD_cons_zero, List.getD_cons_succ, List.forall_mem_cons] at hlt
  obtain ⟨h0, h1, h2, -⟩ := hlt
  simp only [fill3, fill4, List.take_succ_cons, List.take_zero, List.map_cons, List.map_nil,
    List.getD_cons_zero, List.getD_cons_succ, List.getD_nil, find_charAt h0, find_charAt h1,
    find_charAt h2, byte0, byte1]

lemma fill3_fill4_one : (fill3 (((fill4 [a]).take 2).map charAt)).take 1 = [a] := by
  have hlt := fill4_lt [a, 0, 0]
  simp only [fill4, List.getD_cons_zero, List.getD_cons_succ, List.forall_mem_cons] at hlt
  obtain ⟨h0, h1, -⟩ := hlt
  simp only [fill3, fill4, List.take_succ_cons, List.take_zero, List.map_cons, List.map_nil,
    List.getD_cons_zero, List.getD_cons_succ, List.getD_nil, find_charAt h0, find_charAt h1, byte0]

end Group

/-! ## The loops -/

lemma encodeLoop_group (a b c : UInt8) (bytes : List UInt8) (ret : List Char) :
    encodeLoop (a :: b :: c :: bytes) [] ret =
      encodeLoop bytes [] (ret ++ (fill4 [a, b, c]).map charAt) := rfl

/-- The text starts with what has been written already. -/
lemma encodeLoop_ret (bytes a : List UInt8) (ret : List Char) :
    encodeLoop bytes a ret = ((encodeLoop bytes a []).1, ret ++ (encodeLoop bytes a []).2) := by
  induction bytes generalizing a ret with
  | nil => simp [encodeLoop]
  | cons x bytes ih =>
      simp only [encodeLoop]
      split_ifs with hfull
      · rw [ih, ih _ ([] ++ _)]
        simp
      · exact ih _ _

/-- Three bytes are encoded in front of the others. -/
lemma base64Encode_group (a b c : UInt8) (bytes : List UInt8) :
    base64Encode (a :: b :: c :: bytes) = (fill4 [a, b, c]).map charAt ++ base64Encode bytes := by
  rw [base64Encode, base64Encode, encodeLoop_group, encodeLoop_ret]
  dsimp only
  split_ifs with hleft
  · rfl
  · simp

/-- Four characters of the alphabet are decoded in one piece. -/
lemma decodeLoop_group {l : List UInt8} (hl : ∀ q ∈ l, q.toNat < 64) (hlen : l.length = 4)
    (cs : List Char) (ret : List UInt8) :
    decodeLoop (l.map charAt ++ cs) [] ret = decodeLoop cs [] (ret ++ fill3 (l.map charAt)) := by
  match l, hlen with
  | [q0, q1, q2, q3], _ =>
      simp only [List.forall_mem_cons] at hl
      simp [decodeLoop, charAt_ok hl.1, charAt_ok hl.2.1, charAt_ok hl.2.2.1,
        charAt_ok hl.2.2.2.1]

/-- Fewer characters stay in the array, and the loop ends at the first `=`. -/
lemma decodeLoop_rest {l : List UInt8} (hl : ∀ q ∈ l, q.toNat < 64) (n : ℕ)
    {a : List Char} (hlen : a.length + l.length < 4) (ret : List UInt8) :
    decodeLoop (l.map charAt ++ List.replicate n '=') a ret = (a ++ l.map charAt, ret) := by
  induction l generalizing a with
  | nil =>
      cases n with
      | zero => simp [decodeLoop]
      | succ n => simp [decodeLoop, List.replicate_succ]
  | cons q l ih =>
      rw [List.length_cons] at hlen
      have hnot : ¬ (a ++ [charAt q]).length = 4 := by
        simp only [List.length_append, List.length_singleton]
        omega
      simp only [List.map_cons, List.cons_append, decodeLoop]
      rw [if_pos (charAt_ok (hl q List.mem_cons_self)), if_neg hnot,
        ih (fun q hq => hl q (List.mem_cons_of_mem _ hq)) (by simp; omega)]
      simp

lemma decodeLoop_ret (cs a : List Char) (ret : List UInt8) :
    decodeLoop cs a ret = ((decodeLoop cs a []).1, ret ++ (decodeLoop cs a []).2) := by
  induction cs generalizing a ret with
  | nil => simp [decodeLoop]
  | cons c cs ih =>
      simp only [decodeLoop]
      split_ifs with hok hfull
      · rw [ih, ih _ ([] ++ _)]
        simp
      · exact ih _ _
      · simp

/-- Four characters are decoded in front of the others. -/
lemma base64Decode_group {l : List UInt8} (hl : ∀ q ∈ l, q.toNat < 64) (hlen : l.length = 4)
    (cs : List Char) :
    base64Decode (l.map charAt ++ cs) = fill3 (l.map charAt) ++ base64Decode cs := by
  rw [base64Decode, base64Decode, decodeLoop_group hl hlen, decodeLoop_ret]
  dsimp only
  split_ifs with hleft
  · rfl
  · simp

/-- What is left at the end is decoded up to the `=`. -/
lemma base64Decode_rest {l : List UInt8} (hl : ∀ q ∈ l, q.toNat < 64) (hlen : l.length < 4)
    (hpos : l ≠ []) (n : ℕ) :
    base64Decode (l.map charAt ++ List.replicate n '=') =
      (fill3 (l.map charAt)).take (l.length - 1) := by
  rw [base64Decode, decodeLoop_rest hl n (by simpa using hlen)]
  simp [hpos]

lemma fill4_take_lt (l : List UInt8) (n : ℕ) : ∀ q ∈ (fill4 l).take n, q.toNat < 64 :=
  fun q hq => fill4_lt l q (List.mem_of_mem_take hq)

/-! ## The round trip -/

/-- **Decoding inverts encoding.** -/
theorem base64Decode_encode : ∀ bytes : List UInt8, base64Decode (base64Encode bytes) = bytes
  | [] => rfl
  | [a] =>
      (base64Decode_rest (fill4_take_lt [a] 2) (by simp [fill4]) (by simp [fill4]) 2).trans
        (fill3_fill4_one a)
  | [a, b] =>
      (base64Decode_rest (fill4_take_lt [a, b] 3) (by simp [fill4]) (by simp [fill4]) 1).trans
        (fill3_fill4_two a b)
  | a :: b :: c :: bytes => by
      rw [base64Encode_group, base64Decode_group (fill4_lt _) rfl, fill3_fill4,
        base64Decode_encode bytes]
      rfl

/-- Four characters for every three bytes. -/
lemma length_base64Encode : ∀ bytes : List UInt8,
    (base64Encode bytes).length = (bytes.length + 2) / 3 * 4
  | [] => rfl
  | [_] => by simp [base64Encode, encodeLoop, fill4]
  | [_, _] => by simp [base64Encode, encodeLoop, fill4]
  | a :: b :: c :: bytes => by
      have hfour : ((fill4 [a, b, c]).map charAt).length = 4 := rfl
      rw [base64Encode_group, List.length_append, hfour, length_base64Encode bytes]
      simp only [List.length_cons]
      omega

lemma mem_map_charAt {l : List UInt8} (hl : ∀ q ∈ l, q.toNat < 64) :
    ∀ c ∈ l.map charAt, c ∈ base64Chars := by
  simp only [List.forall_mem_map]
  exact fun q hq => charAt_mem (hl q hq)

/-- The encoded text is made of the alphabet and `=`. -/
lemma mem_base64Encode : ∀ bytes : List UInt8, ∀ c ∈ base64Encode bytes, c ∈ '=' :: base64Chars
  | [], c, hc => by cases hc
  | [a], c, hc => by
      rcases List.mem_append.mp (show c ∈ ((fill4 [a]).take 2).map charAt ++ ['=', '='] from hc)
        with hc | hc
      · exact List.mem_cons_of_mem _ (mem_map_charAt (fill4_take_lt _ _) c hc)
      · simp_all
  | [a, b], c, hc => by
      rcases List.mem_append.mp (show c ∈ ((fill4 [a, b]).take 3).map charAt ++ ['='] from hc)
        with hc | hc
      · exact List.mem_cons_of_mem _ (mem_map_charAt (fill4_take_lt _ _) c hc)
      · simp_all
  | a :: b :: d :: bytes, c, hc => by
      rw [base64Encode_group] at hc
      rcases List.mem_append.mp hc with hc | hc
      · exact List.mem_cons_of_mem _ (mem_map_charAt (fill4_lt _) c hc)
      · exact mem_base64Encode bytes c hc

end Base64

end Is2
