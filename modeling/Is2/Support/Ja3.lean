import Is2.Core.Words

/-!
# `ja3::extract_bytes`: reading a ClientHello

The function walks the nested, length prefixed fields of a TLS ClientHello and keeps what the
fingerprint is made of: the version, the ciphers, the types of the extensions, the groups and the
point formats.

**Model.**  The cursor is what is left of the buffer, with the count `l_left` beside it; a read past
the end is undefined (`none`).  The two macros `_INCR_BY` and `_INCR_EXT_BY` are functions that take
the rest of the function as an argument.  The `break` in `_INCR_EXT_BY` leaves the macro's own
`do … while (0)` and nothing else, so it has no effect.

**Encoding.**  `ClientHello` is a well-formed message, `encode` its bytes, and `fingerprint` what
should be read out of it.  `_INCR_BY` reports an error as soon as nothing is left, so a message that
ends behind the compression methods, or behind an empty extensions block, is refused, although the
line that follows is there for it.  And the loop stops at the padding extension, wherever it stands.
Otherwise parsing inverts encoding: `extractBytes_encode_iff`.
-/

namespace Is2

/-- What `ja3` collects: `m_fp_ssl_version`, `m_fp_cipher_list`, `m_fp_ssl_ext_list`,
`m_fp_ec_curve_list` and `m_fp_ec_pt_format_list`. -/
structure Ja3 where
  sslVersion : ℕ
  cipherList : List ℕ
  sslExtList : List ℕ
  ecCurveList : List ℕ
  ecPtFormatList : List ℕ
  deriving DecidableEq

namespace Ja3

/-- A fresh object. -/
def new : Ja3 := ⟨0, [], [], [], []⟩

/-- `STATUS_OK` -/
abbrev statusOk : ℤ := 0

/-- `STATUS_ERROR` -/
abbrev statusError : ℤ := -1

/-- The status that is returned and the object. -/
abbrev Result := Option (ℤ × Ja3)

/-- `l_cur`, as what it points at, and `l_left`. -/
structure Cursor where
  cur : List UInt8
  left : ℤ

/-- `*l_cur` as a byte. -/
def read8 (s : Cursor) (k : ℕ → Result) : Result :=
  match s.cur with
  | a :: _ => k a.toNat
  | [] => none

/-- `ntohs(*l_cur)` -/
def read16 (s : Cursor) (k : ℕ → Result) : Result :=
  match s.cur with
  | a :: b :: _ => k (ntohs a b)
  | _ => none

/-- `_INCR_BY` -/
def incrBy (out : Ja3) (val : ℕ) (s : Cursor) (k : Cursor → Result) : Result :=
  let s : Cursor := ⟨s.cur.drop val, s.left - val⟩
  if s.left ≤ 0 then some (statusError, out) else k s

/-- `_INCR_EXT_BY`; `l_ext_left` is a 16 bit count. -/
def incrExtBy (out : Ja3) (val : ℕ) (s : Cursor) (extLeft : ℕ) (k : Cursor → ℕ → Result) : Result :=
  let s : Cursor := ⟨s.cur.drop val, s.left - val⟩
  let extLeft := (extLeft + (2 ^ 16 - val % 2 ^ 16)) % 2 ^ 16
  if s.left < 0 then some (statusOk, out) else k s extLeft

/-- The loop over the cipher suites. -/
def cipherSuites : ℕ → Ja3 → Cursor → (Ja3 → Cursor → Result) → Result
  | 0, out, s, k => k out s
  | n + 1, out, s, k =>
    read16 s fun cs =>
    incrBy out 2 s fun s =>
    cipherSuites n { out with cipherList := out.cipherList ++ [cs] } s k

/-- The loop over the point formats. -/
def pointFormats : ℕ → Ja3 → Cursor → ℕ → (Ja3 → Cursor → ℕ → Result) → Result
  | 0, out, s, extLeft, k => k out s extLeft
  | n + 1, out, s, extLeft, k =>
    read8 s fun pf =>
    incrExtBy out 1 s extLeft fun s extLeft =>
    pointFormats n { out with ecPtFormatList := out.ecPtFormatList ++ [pf] } s extLeft k

/-- The loop over the groups. -/
def curveGroups : ℕ → Ja3 → Cursor → ℕ → (Ja3 → Cursor → ℕ → Result) → Result
  | 0, out, s, extLeft, k => k out s extLeft
  | n + 1, out, s, extLeft, k =>
    read16 s fun ecg =>
    incrExtBy out 2 s extLeft fun s extLeft =>
    curveGroups n { out with ecCurveList := out.ecCurveList ++ [ecg] } s extLeft k

/-- The loop over the extensions, for as many as `turns`. -/
def extensions : ℕ → Ja3 → Cursor → ℕ → Result
  | 0, _, _, _ => none
  | turns + 1, out, s, extLeft =>
    if extLeft = 0 then some (statusOk, out) else
    read16 s fun type =>
    incrExtBy out 2 s extLeft fun s extLeft =>
    read16 s fun len =>
    incrExtBy out 2 s extLeft fun s extLeft =>
    let out := { out with sslExtList := out.sslExtList ++ [type] }
    if type = 0x000B then
      read8 s fun n =>
      incrExtBy out 1 s extLeft fun s extLeft =>
      pointFormats n out s extLeft fun out s extLeft =>
      if s.left ≤ 0 then some (statusOk, out)
      else if extLeft = 0 then some (statusOk, out)
      else extensions turns out s extLeft
    else if type = 0x000A then
      read16 s fun n =>
      incrExtBy out 2 s extLeft fun s extLeft =>
      curveGroups (n / 2) out s extLeft fun out s extLeft =>
      extensions turns out s extLeft
    else if type = 0x0015 then
      -- padding
      some (statusOk, out)
    else
      incrExtBy out len s extLeft fun s extLeft =>
      extensions turns out s extLeft

/-- The part of `extract_bytes` behind the compression methods. -/
def extractExts (turns : ℕ) (out : Ja3) (s : Cursor) : Result :=
  if s.left ≤ 0 then some (statusOk, out) else
  read16 s fun extsLen =>
  incrBy out 2 s fun s =>
  extensions turns out s extsLen

/-- The part of `extract_bytes` behind the handshake header. -/
def extractHello (turns : ℕ) (out : Ja3) (s : Cursor) : Result :=
  -- client version
  if s.left < 2 then some (statusError, out) else
  read16 s fun clntVer =>
  incrBy out 2 s fun s =>
  let out := { out with sslVersion := clntVer }
  -- client random
  incrBy out 32 s fun s =>
  -- session id
  read8 s fun sidLen =>
  incrBy out 1 s fun s =>
  incrBy out sidLen s fun s =>
  -- cipher suites
  read16 s fun csLen =>
  incrBy out 2 s fun s =>
  cipherSuites (csLen / 2) out s fun out s =>
  -- compression methods
  read8 s fun csMtLen =>
  incrBy out 1 s fun s =>
  incrBy out csMtLen s fun s =>
  extractExts turns out s

/-- `ja3::extract_bytes`, with `a_len` the length of the buffer.  Each turn of the last loop takes
four bytes, so there are enough turns. -/
def extractBytes (out : Ja3) (buf : List UInt8) : Result :=
  if buf.length < 5 then some (statusOk, out)
  else do
    let recordType ← buf[0]?
    if recordType ≠ 0x16 then some (statusOk, out)
    else do
      let helloType ← buf[5]?
      if helloType ≠ 0x01 then some (statusOk, out)
      else
        -- record header
        if (buf.length : ℤ) < 5 then some (statusError, out) else
        incrBy out 5 ⟨buf, buf.length⟩ fun s =>
        -- handshake header
        if s.left < 4 then some (statusError, out) else
        read8 s fun hsType =>
        incrBy out 1 s fun s =>
        read8 s fun _ =>
        incrBy out 1 s fun s =>
        read8 s fun _ =>
        incrBy out 1 s fun s =>
        read8 s fun _ =>
        incrBy out 1 s fun s =>
        if hsType ≠ 0x01 then some (statusOk, out) else
        extractHello (buf.length + 1) out s

/-! ## Well-formed messages -/

/-- An extension.  The padding extension is one of the others. -/
inductive Ext where
  | groups (gs : List UInt16)
  | pointFormats (pfs : List UInt8) (fits : pfs.length ≤ 255)
  | other (type : UInt16) (data : List UInt8) (other : type ≠ 0x000A ∧ type ≠ 0x000B)

def Ext.type : Ext → ℕ
  | .groups _ => 0x000A
  | .pointFormats _ _ => 0x000B
  | .other type _ _ => type.toNat

/-- `extension_data` -/
def Ext.data : Ext → List UInt8
  | .groups gs => be16 (2 * gs.length) ++ gs.flatMap fun g => be16 g.toNat
  | .pointFormats pfs _ => UInt8.ofNat pfs.length :: pfs
  | .other _ data _ => data

def Ext.encode (e : Ext) : List UInt8 := be16 e.type ++ be16 e.data.length ++ e.data

/-- The groups of an extension. -/
def Ext.curves : Ext → List ℕ
  | .groups gs => gs.map UInt16.toNat
  | _ => []

/-- The point formats of an extension. -/
def Ext.formats : Ext → List ℕ
  | .pointFormats pfs _ => pfs.map UInt8.toNat
  | _ => []

def encodeExts (es : List Ext) : List UInt8 := es.flatMap Ext.encode

/-- The bytes of the extensions block. -/
def encodeBlock : Option (List Ext) → List UInt8
  | none => []
  | some es => be16 (encodeExts es).length ++ encodeExts es

/-- The fields of a ClientHello, before its record is put together. -/
structure HelloFields where
  recordVersion : UInt16
  version : UInt16
  random : List UInt8
  sessionId : List UInt8
  ciphers : List UInt16
  compression : List UInt8
  exts : Option (List Ext)

/-- What follows the handshake header. -/
def HelloFields.body (h : HelloFields) : List UInt8 :=
  be16 h.version.toNat ++ h.random ++ UInt8.ofNat h.sessionId.length :: h.sessionId ++
    be16 (2 * h.ciphers.length) ++ (h.ciphers.flatMap fun c => be16 c.toNat) ++
    UInt8.ofNat h.compression.length :: h.compression ++ encodeBlock h.exts

/-- The record. -/
def HelloFields.encode (h : HelloFields) : List UInt8 :=
  0x16 :: be16 h.recordVersion.toNat ++ be16 (h.body.length + 4) ++
    0x01 :: be24 h.body.length ++ h.body

/-- **A well-formed ClientHello** in a single record of at most 65535 bytes. -/
structure ClientHello extends HelloFields where
  random_length : random.length = 32
  sessionId_length : sessionId.length ≤ 32
  compression_pos : 0 < compression.length
  compression_length : compression.length ≤ 255
  fits : toHelloFields.encode.length ≤ 65535

/-- **What should be read out of it.** -/
def HelloFields.fingerprint (h : HelloFields) : Ja3 where
  sslVersion := h.version.toNat
  cipherList := h.ciphers.map UInt16.toNat
  sslExtList := (h.exts.getD []).map Ext.type
  ecCurveList := (h.exts.getD []).flatMap Ext.curves
  ecPtFormatList := (h.exts.getD []).flatMap Ext.formats

/-! ## Steps on an encoded message -/

/-- The cursor in front of these bytes. -/
def Cursor.at (l : List UInt8) : Cursor := ⟨l, l.length⟩

section Steps

variable {out : Ja3} {k : Cursor → Result}

lemma read8_at (b : UInt8) (l : List UInt8) (k : ℕ → Result) :
    read8 (.at (b :: l)) k = k b.toNat := rfl

lemma read16_at {n : ℕ} (h : n < 2 ^ 16) (l : List UInt8) (k : ℕ → Result) :
    read16 (.at (be16 n ++ l)) k = k n :=
  congrArg k (ntohs_be16 h)

lemma incrBy_at {bs rest : List UInt8} {val : ℕ} (hval : bs.length = val) (hrest : rest ≠ []) :
    incrBy out val (.at (bs ++ rest)) k = k (.at rest) := by
  subst hval
  have hpos := List.length_pos_iff.mpr hrest
  have hleft : ((bs ++ rest).length : ℤ) - bs.length = rest.length := by
    rw [List.length_append]
    omega
  simp only [incrBy, Cursor.at, hleft, List.drop_left]
  exact if_neg (by omega)

lemma incrBy_cons (b : UInt8) {rest : List UInt8} (hrest : rest ≠ []) :
    incrBy out 1 (.at (b :: rest)) k = k (.at rest) :=
  incrBy_at (List.length_singleton (a := b)) hrest

/-- Where nothing is left, the message is refused. -/
lemma incrBy_end {bs : List UInt8} {val : ℕ} (hval : bs.length = val) :
    incrBy out val (.at bs) k = some (statusError, out) := by
  simp [incrBy, Cursor.at, hval]

lemma incrExtBy_at {bs rest : List UInt8} {val : ℕ} (hval : bs.length = val)
    (hfits : (bs ++ rest).length < 2 ^ 16) (k : Cursor → ℕ → Result) :
    incrExtBy out val (.at (bs ++ rest)) (bs ++ rest).length k = k (.at rest) rest.length := by
  subst hval
  have hleft : ((bs ++ rest).length : ℤ) - bs.length = rest.length := by
    rw [List.length_append]
    omega
  have hext : ((bs ++ rest).length + (2 ^ 16 - bs.length % 2 ^ 16)) % 2 ^ 16 = rest.length := by
    rw [List.length_append] at hfits ⊢
    omega
  simp only [incrExtBy, Cursor.at, hleft, hext, List.drop_left]
  exact if_neg (by omega)

lemma incrExtBy_cons (b : UInt8) {rest : List UInt8} (hfits : (b :: rest).length < 2 ^ 16)
    (k : Cursor → ℕ → Result) :
    incrExtBy out 1 (.at (b :: rest)) (b :: rest).length k = k (.at rest) rest.length :=
  incrExtBy_at (List.length_singleton (a := b)) hfits k

lemma toNat_ofNat {n : ℕ} (h : n ≤ 255) : (UInt8.ofNat n).toNat = n := by
  rw [UInt8.toNat_ofNat']
  omega

/-- The loop over the cipher suites reads the list. -/
lemma cipherSuites_encode {rest : List UInt8} (hrest : rest ≠ []) (cs : List UInt16) (out : Ja3)
    (k : Ja3 → Cursor → Result) :
    cipherSuites cs.length out (.at ((cs.flatMap fun c => be16 c.toNat) ++ rest)) k =
      k { out with cipherList := out.cipherList ++ cs.map UInt16.toNat } (.at rest) := by
  induction cs generalizing out with
  | nil => simp [cipherSuites]
  | cons c cs ih =>
      have hne : (cs.flatMap fun c => be16 c.toNat) ++ rest ≠ [] :=
        fun he => hrest (List.append_eq_nil_iff.mp he).2
      rw [List.length_cons, cipherSuites, List.flatMap_cons, List.append_assoc,
        read16_at c.toNat_lt, incrBy_at (length_be16 _) hne, ih]
      simp

/-- The loop over the point formats reads the list. -/
lemma pointFormats_encode {rest : List UInt8} (pfs : List UInt8) (out : Ja3)
    (hfits : (pfs ++ rest).length < 2 ^ 16) (k : Ja3 → Cursor → ℕ → Result) :
    pointFormats pfs.length out (.at (pfs ++ rest)) (pfs ++ rest).length k =
      k { out with ecPtFormatList := out.ecPtFormatList ++ pfs.map UInt8.toNat } (.at rest)
        rest.length := by
  induction pfs generalizing out with
  | nil => simp [pointFormats]
  | cons pf pfs ih =>
      rw [List.cons_append] at hfits ⊢
      rw [show (pf :: pfs).length = pfs.length + 1 from rfl, pointFormats, read8_at,
        incrExtBy_cons pf hfits, ih _ (by rw [List.length_cons] at hfits; omega)]
      simp

/-- The loop over the groups reads the list. -/
lemma curveGroups_encode {rest : List UInt8} (gs : List UInt16) (out : Ja3)
    (hfits : ((gs.flatMap fun g => be16 g.toNat) ++ rest).length < 2 ^ 16)
    (k : Ja3 → Cursor → ℕ → Result) :
    curveGroups gs.length out (.at ((gs.flatMap fun g => be16 g.toNat) ++ rest))
        ((gs.flatMap fun g => be16 g.toNat) ++ rest).length k =
      k { out with ecCurveList := out.ecCurveList ++ gs.map UInt16.toNat } (.at rest)
        rest.length := by
  induction gs generalizing out with
  | nil => simp [curveGroups]
  | cons g gs ih =>
      rw [List.flatMap_cons, List.append_assoc] at hfits ⊢
      rw [List.length_cons, curveGroups, read16_at g.toNat_lt,
        incrExtBy_at (length_be16 _) hfits, ih _ (by rw [List.length_append] at hfits; omega)]
      simp

/-! ## The extensions -/

/-- The object with an extension. -/
def add (out : Ja3) (e : Ext) : Ja3 :=
  { out with
    sslExtList := out.sslExtList ++ [e.type]
    ecCurveList := out.ecCurveList ++ e.curves
    ecPtFormatList := out.ecPtFormatList ++ e.formats }

/-- What the loop over the extensions collects: it stops at the padding. -/
def collect : Ja3 → List Ext → Ja3
  | out, [] => out
  | out, e :: es => if e.type = 0x0015 then out.add e else collect (out.add e) es

lemma length_encode (e : Ext) : e.encode.length = 4 + e.data.length := by
  simp [Ext.encode]
  omega

lemma length_le_encodeExts (es : List Ext) : es.length ≤ (encodeExts es).length := by
  induction es with
  | nil => exact le_rfl
  | cons e es ih =>
      simp only [encodeExts, List.flatMap_cons, List.length_append, List.length_cons,
        length_encode] at ih ⊢
      omega

lemma Ext.type_lt (e : Ext) : e.type < 2 ^ 16 := by
  cases e with
  | groups gs => simp [Ext.type]
  | pointFormats pfs fits => simp [Ext.type]
  | other type data other => exact type.toNat_lt

lemma length_groups (gs : List UInt16) :
    (gs.flatMap fun g => be16 g.toNat).length = 2 * gs.length := by
  induction gs with
  | nil => rfl
  | cons g gs ih =>
      rw [List.flatMap_cons, List.length_append, ih, length_be16, List.length_cons]
      omega

/-- **The loop over the extensions** reads what was encoded, up to the padding. -/
lemma extensions_encode {turns : ℕ} {es : List Ext} (hturns : es.length < turns) (out : Ja3)
    (hfits : (encodeExts es).length < 2 ^ 16) :
    extensions turns out (.at (encodeExts es)) (encodeExts es).length =
      some (statusOk, collect out es) := by
  induction es generalizing turns out with
  | nil =>
      obtain ⟨turns, rfl⟩ := Nat.exists_eq_succ_of_ne_zero (Nat.ne_of_gt hturns)
      rfl
  | cons e es ih =>
      obtain ⟨turns, rfl⟩ := Nat.exists_eq_succ_of_ne_zero (Nat.ne_zero_of_lt hturns)
      rw [List.length_cons, Nat.succ_lt_succ_iff] at hturns
      have hsplit : encodeExts (e :: es) =
          be16 e.type ++ (be16 e.data.length ++ (e.data ++ encodeExts es)) := by
        simp [encodeExts, Ext.encode]
      rw [hsplit] at hfits ⊢
      have hfits' := hfits
      simp only [List.length_append, length_be16] at hfits'
      have hne : (be16 e.type ++ (be16 e.data.length ++ (e.data ++ encodeExts es))).length ≠ 0 := by
        simp
      rw [extensions, if_neg hne, read16_at e.type_lt, incrExtBy_at (length_be16 _) hfits,
        read16_at (by omega), incrExtBy_at (length_be16 _) (by simp; omega)]
      have hrest := ih hturns
      cases e with
      | groups gs =>
          have hlen := length_groups gs
          simp only [Ext.data, List.length_append, length_be16, hlen] at hfits'
          have hdata : (Ext.groups gs).data ++ encodeExts es = be16 (2 * gs.length) ++
              ((gs.flatMap fun g => be16 g.toNat) ++ encodeExts es) := by
            simp [Ext.data]
          have htype : (Ext.groups gs).type = 0x000A := rfl
          have hcollect : collect out (.groups gs :: es) = collect (out.add (.groups gs)) es :=
            if_neg (by rw [htype]; decide)
          rw [hcollect, hdata, htype, if_neg (show ¬ (0x000A : ℕ) = 0x000B by decide), if_pos rfl,
            read16_at (by omega), incrExtBy_at (length_be16 _) (by simp [hlen]; omega),
            Nat.mul_div_cancel_left _ (by decide), curveGroups_encode gs _ (by simp [hlen]; omega),
            hrest _ (by omega)]
          simp [add, Ext.type, Ext.curves, Ext.formats]
      | pointFormats pfs hpfs =>
          simp only [Ext.data, List.length_cons] at hfits'
          have hdata : (Ext.pointFormats pfs hpfs).data ++ encodeExts es =
              UInt8.ofNat pfs.length :: (pfs ++ encodeExts es) := rfl
          have htype : (Ext.pointFormats pfs hpfs).type = 0x000B := rfl
          have hcollect : collect out (.pointFormats pfs hpfs :: es) =
              collect (out.add (.pointFormats pfs hpfs)) es := if_neg (by rw [htype]; decide)
          rw [hcollect, hdata, htype, if_pos rfl, read8_at, toNat_ofNat hpfs,
            incrExtBy_cons _ (by simp; omega), pointFormats_encode pfs _ (by simp; omega)]
          cases es with
          | nil => simp [encodeExts, Cursor.at, collect, add, Ext.type, Ext.curves, Ext.formats]
          | cons e' es =>
              have hpos := length_le_encodeExts (e' :: es)
              rw [List.length_cons] at hpos
              have hleft : ¬ (Cursor.at (encodeExts (e' :: es))).left ≤ 0 := by
                simp only [Cursor.at]
                omega
              rw [if_neg hleft, if_neg (by omega), hrest _ (by omega)]
              simp [add, Ext.type, Ext.curves, Ext.formats]
      | other type data hother =>
          simp only [Ext.data] at hfits'
          have hdata : (Ext.other type data hother).data = data := rfl
          have htype : (Ext.other type data hother).type = type.toNat := rfl
          have hA : type.toNat ≠ 0x000A := fun he => hother.1 (UInt16.toNat_inj.mp he)
          have hB : type.toNat ≠ 0x000B := fun he => hother.2 (UInt16.toNat_inj.mp he)
          rw [hdata, htype, if_neg hB, if_neg hA, collect, htype]
          by_cases hpad : type.toNat = 0x0015
          · rw [if_pos hpad, if_pos hpad]
            simp [add, Ext.type, Ext.curves, Ext.formats]
          · rw [if_neg hpad, if_neg hpad, incrExtBy_at rfl (by simp; omega), hrest _ (by omega)]
            simp [add, Ext.type, Ext.curves, Ext.formats]

/-! ## The message -/

/-- The object after the ciphers. -/
def withHello (out : Ja3) (h : HelloFields) : Ja3 :=
  { out with
    sslVersion := h.version.toNat
    cipherList := out.cipherList ++ h.ciphers.map UInt16.toNat }

/-- Up to the compression methods, the message is read as it was encoded. -/
lemma extractHello_encode (h : ClientHello) (turns : ℕ) (out : Ja3) :
    extractHello turns out (.at h.body) =
      incrBy (out.withHello h.toHelloFields) h.compression.length
        (.at (h.compression ++ encodeBlock h.exts))
        (extractExts turns (out.withHello h.toHelloFields)) := by
  have hne : ∀ {l : List UInt8} {b : UInt8}, b :: l ≠ [] := List.cons_ne_nil _ _
  have hbe : ∀ {n : ℕ} {l : List UInt8}, be16 n ++ l ≠ [] := List.cons_ne_nil _ _
  have hlast : h.compression ++ encodeBlock h.exts ≠ [] := by
    intro he
    have := h.compression_pos
    rw [(List.append_eq_nil_iff.mp he).1] at this
    exact absurd this (lt_irrefl _)
  have hfits := h.fits
  have hbody : h.body = be16 h.version.toNat ++ (h.random ++ (UInt8.ofNat h.sessionId.length ::
      (h.sessionId ++ (be16 (2 * h.ciphers.length) ++ ((h.ciphers.flatMap fun c => be16 c.toNat) ++
        (UInt8.ofNat h.compression.length :: (h.compression ++ encodeBlock h.exts))))))) := by
    simp [HelloFields.body]
  have hciphers : 2 * h.ciphers.length < 2 ^ 16 := by
    have hlen := length_groups h.ciphers
    simp only [HelloFields.encode, hbody, List.length_append, List.length_cons, hlen] at hfits
    omega
  have hleft : ¬ (Cursor.at h.body).left < 2 := by
    rw [hbody]
    simp only [Cursor.at, List.length_append, length_be16]
    omega
  have hsid := h.sessionId_length
  rw [extractHello, if_neg hleft, hbody, read16_at h.version.toNat_lt,
    incrBy_at (length_be16 _) (by simp), incrBy_at h.random_length hne, read8_at,
    incrBy_cons _ (by simp [be16]), toNat_ofNat (by omega), incrBy_at rfl hbe, read16_at hciphers,
    incrBy_at (length_be16 _) (by simp), Nat.mul_div_cancel_left _ (by decide),
    cipherSuites_encode hne, read8_at, incrBy_cons _ hlast, toNat_ofNat h.compression_length]
  rfl

/-- The headers are read as they were encoded. -/
lemma extractBytes_encode (h : ClientHello) (out : Ja3) :
    extractBytes out h.encode = extractHello (h.encode.length + 1) out (.at h.body) := by
  have hbody : h.body ≠ [] := by simp [HelloFields.body]
  have hencode : h.encode = [0x16, UInt8.ofNat (h.recordVersion.toNat / 256),
      UInt8.ofNat h.recordVersion.toNat, UInt8.ofNat ((h.body.length + 4) / 256),
      UInt8.ofNat (h.body.length + 4)] ++ 0x01 :: UInt8.ofNat (h.body.length / 65536) ::
      UInt8.ofNat (h.body.length / 256) :: UInt8.ofNat h.body.length :: h.body := rfl
  have hlen : h.encode.length = h.body.length + 9 := by
    rw [hencode]
    simp
  have h0 : h.encode[0]? = some 0x16 := rfl
  have h5 : h.encode[5]? = some 0x01 := rfl
  rw [extractBytes, if_neg (by omega), h0, h5]
  simp only [Option.bind_eq_bind, Option.bind_some, ne_eq, not_true_eq_false, if_false]
  rw [if_neg (by omega)]
  change incrBy out 5 (.at h.encode) _ = _
  generalize h.encode.length + 1 = turns
  generalize hheader : [0x16, UInt8.ofNat (h.recordVersion.toNat / 256),
    UInt8.ofNat h.recordVersion.toNat, UInt8.ofNat ((h.body.length + 4) / 256),
    UInt8.ofNat (h.body.length + 4)] = header at hencode
  have hfive : header.length = 5 := by
    rw [← hheader]
    rfl
  rw [hencode, incrBy_at hfive (List.cons_ne_nil _ _), if_neg, read8_at, incrBy_cons _ (by simp),
    read8_at, incrBy_cons _ (by simp), read8_at, incrBy_cons _ (by simp), read8_at,
    incrBy_cons _ hbody]
  · rfl
  · simp only [Cursor.at, List.length_cons]
    omega

end Steps

/-! ## The law -/

/-- The object with all extensions. -/
def addAll (out : Ja3) (es : List Ext) : Ja3 :=
  { out with
    sslExtList := out.sslExtList ++ es.map Ext.type
    ecCurveList := out.ecCurveList ++ es.flatMap Ext.curves
    ecPtFormatList := out.ecPtFormatList ++ es.flatMap Ext.formats }

/-- All extensions are collected exactly if the padding is the last one. -/
lemma collect_eq_iff (es : List Ext) (out : Ja3) :
    collect out es = out.addAll es ↔ ∀ e ∈ es.dropLast, e.type ≠ 0x0015 := by
  induction es generalizing out with
  | nil => simp [collect, addAll]
  | cons e es ih =>
      have hall : out.addAll (e :: es) = (out.add e).addAll es := by
        simp [addAll, add]
      rw [hall, collect]
      by_cases hpad : e.type = 0x0015
      · rw [if_pos hpad]
        cases es with
        | nil => simp [addAll]
        | cons e' es =>
            refine iff_of_false ?_ ?_
            · intro he
              simpa [addAll] using congrArg sslExtList he
            · intro hall
              exact hall e (by simp) hpad
      · rw [if_neg hpad, ih]
        cases es with
        | nil => simp
        | cons e' es => simp [hpad]

/-- **The message is of the kind that is read**: it has an extensions block that is not empty, and a
padding extension only as the last one. -/
def ClientHello.Readable (h : ClientHello) : Prop :=
  ∃ es, h.exts = some es ∧ es ≠ [] ∧ ∀ e ∈ es.dropLast, e.type ≠ 0x0015

/-- **Parsing inverts encoding exactly on the readable messages**: the status is OK, and the object
holds the version, the ciphers, the extension types, the groups and the point formats. -/
theorem extractBytes_encode_iff (h : ClientHello) :
    extractBytes new h.encode = some (statusOk, h.fingerprint) ↔ h.Readable := by
  rw [extractBytes_encode, extractHello_encode]
  cases hexts : h.exts with
  | none =>
      rw [encodeBlock, List.append_nil, incrBy_end rfl]
      refine iff_of_false (by simp) ?_
      rintro ⟨es, hes, -⟩
      rw [hexts] at hes
      cases hes
  | some es =>
      have hfits := h.fits
      have hblock : (encodeExts es).length + 2 ≤ 65535 := by
        simp only [HelloFields.encode, HelloFields.body, hexts, encodeBlock, List.length_append,
          List.length_cons, length_be16] at hfits
        omega
      have hbe : encodeBlock (some es) ≠ [] := List.cons_ne_nil _ _
      have hleft : ¬ (Cursor.at (encodeBlock (some es))).left ≤ 0 := by
        simp [Cursor.at, encodeBlock]
        omega
      rw [incrBy_at rfl hbe, extractExts, if_neg hleft, encodeBlock, read16_at (by omega)]
      cases es with
      | nil =>
          rw [show encodeExts [] = [] from rfl, List.append_nil, incrBy_end (length_be16 _)]
          refine iff_of_false (by simp) ?_
          rintro ⟨es, hes, hne, -⟩
          rw [hexts] at hes
          exact hne (Option.some.inj hes).symm
      | cons e es =>
          have hpos := length_le_encodeExts (e :: es)
          have hne : encodeExts (e :: es) ≠ [] := by
            intro hnil
            rw [hnil] at hpos
            simp at hpos
          have hturns : (e :: es).length < h.encode.length + 1 := by
            simp only [HelloFields.encode, HelloFields.body, hexts, encodeBlock,
              List.length_append, List.length_cons, length_be16] at hpos ⊢
            omega
          have hprint : h.fingerprint = (new.withHello h.toHelloFields).addAll (e :: es) := by
            simp [HelloFields.fingerprint, hexts, addAll, withHello, new]
          rw [incrBy_at (length_be16 _) hne, extensions_encode hturns _ (by omega), hprint,
            Option.some_inj, Prod.mk_right_inj, collect_eq_iff]
          constructor
          · intro hpad
            exact ⟨e :: es, hexts, List.cons_ne_nil _ _, hpad⟩
          · rintro ⟨es', hes', -, hpad⟩
            rw [hexts, Option.some_inj] at hes'
            exact hes' ▸ hpad

/-- One cipher and no extensions. -/
def plainHello : ClientHello where
  recordVersion := 0x0301
  version := 0x0303
  random := List.replicate 32 0
  sessionId := []
  ciphers := [0x002F]
  compression := [0]
  exts := none
  random_length := rfl
  sessionId_length := Nat.zero_le _
  compression_pos := Nat.one_pos
  compression_length := by decide
  fits := by decide +kernel

/-- The same message with a padding extension in front of another one. -/
def paddedHello : ClientHello :=
  { plainHello with
    exts := some [.other 0x0015 [0, 0] (by decide), .other 0x0029 [] (by decide)]
    fits := by decide +kernel }

/-- **A ClientHello without extensions is refused**, and behind the padding nothing is read. -/
theorem plain_hello_refused :
    extractBytes new plainHello.encode = some (statusError, plainHello.fingerprint) ∧
      extractBytes new paddedHello.encode =
        some (statusOk, { paddedHello.fingerprint with sslExtList := [0x0015] }) ∧
      paddedHello.fingerprint.sslExtList = [0x0015, 0x0029] := by
  decide +kernel

end Ja3

end Is2
