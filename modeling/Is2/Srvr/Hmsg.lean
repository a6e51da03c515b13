import Is2.Support.Nbq.Refinement

/-!
# What the parser callbacks record

`cb.cc` gives `http_parser` its callbacks.  A data callback gets a pointer into the buffer that is
being parsed and a length; it records the place as an offset into the message's queue, computed
from the pointer and the two bases `m_cur_buf` and `m_cur_off`, which the caller of the parser
sets.  `hmsg.cc` and `rqst.cc` later copy the recorded places out of the queue.

Addresses are integers, offsets are 64-bit.  The queue itself belongs to the session and is passed
to the functions that read from it.  The status code, the protocol version, the method and the
pieces of the URL are not part of the record here.
-/

namespace Is2

/-- `cr_struct`. -/
structure Cr where
  off : ℕ
  len : ℕ
deriving DecidableEq, Repr

/-- The offset right behind the range. -/
def Cr.stop (c : Cr) : ℕ := c.off + c.len

/-- The bytes a range designates. -/
def Cr.slice (c : Cr) (bytes : List UInt8) : List UInt8 := (bytes.drop c.off).take c.len

/-- `hmsg::type_t`. -/
inductive HmsgType where
  | none
  | rqst
  | resp
deriving DecidableEq, Repr

/-- `hmsg`, with the members of `rqst` and `resp` that the callbacks write. -/
structure Hmsg where
  type : HmsgType
  curOff : ℕ
  curBuf : ℤ
  pHListKey : List Cr
  pHListVal : List Cr
  pBody : Cr
  complete : Bool
  supportsKeepAlives : Bool
  pUrl : Cr
  expect : Bool
  pStatus : Cr
  headerList : Option (List (List UInt8 × List UInt8))
deriving DecidableEq, Repr

namespace Hmsg

/-- `hmsg::init`, and `rqst::init` for a request. -/
def init (type : HmsgType) : Hmsg :=
  ⟨type, 0, 0, [], [], ⟨0, 0⟩, false, false, ⟨0, 0⟩, false, ⟨0, 0⟩, none⟩

/-! ## Callbacks -/

/-- `CALC_OFFSET`. -/
def calcOffset (h : Hmsg) (ptr : ℤ) : ℕ := ((ptr - h.curBuf + h.curOff) % 2 ^ 64).toNat

/-- The place a data callback was given. -/
def place (h : Hmsg) (ptr : ℤ) (bytes : List UInt8) : Cr := ⟨h.calcOffset ptr, bytes.length⟩

def hpOnUrl (h : Hmsg) (ptr : ℤ) (bytes : List UInt8) : Hmsg :=
  if h.type = .rqst then { h with pUrl := h.place ptr bytes } else h

def hpOnStatus (h : Hmsg) (ptr : ℤ) (bytes : List UInt8) : Hmsg :=
  if h.type = .resp then { h with pStatus := h.place ptr bytes } else h

/-- `tolower` in the C locale. -/
def toLower (c : UInt8) : UInt8 := if 65 ≤ c ∧ c ≤ 90 then c + 32 else c

/-- The comparison of a field name with `Expect`: same length, same first byte, and equal up to
case. -/
def isExpect (bytes : List UInt8) : Bool :=
  bytes.length = 6 && bytes.head? = some 69 &&
    bytes.map toLower = [101, 120, 112, 101, 99, 116]

def hpOnHeaderField (h : Hmsg) (ptr : ℤ) (bytes : List UInt8) : Hmsg :=
  { h with
    pHListKey := h.pHListKey ++ [h.place ptr bytes]
    expect := h.expect || (h.type = .rqst && isExpect bytes) }

def hpOnHeaderValue (h : Hmsg) (ptr : ℤ) (bytes : List UInt8) : Hmsg :=
  { h with pHListVal := h.pHListVal ++ [h.place ptr bytes] }

def hpOnBody (h : Hmsg) (ptr : ℤ) (bytes : List UInt8) : Hmsg :=
  if h.pBody.off = 0 then { h with pBody := h.place ptr bytes }
  else { h with pBody := ⟨h.pBody.off, h.pBody.len + bytes.length⟩ }

def hpOnMessageComplete (h : Hmsg) (keepAlive : Bool) : Hmsg :=
  { h with complete := true, supportsKeepAlives := keepAlive }

/-! ## Reading the record back -/

/-- The loop of `hmsg::get_header_list`. -/
def headerLoop : Nbq → List Cr → List Cr → Option (Nbq × List (List UInt8 × List UInt8))
  | q, k :: ks, v :: vs => do
      let (q, key) ← q.copyPart k.off k.len
      let (q, val) ← q.copyPart v.off v.len
      let (q, rest) ← headerLoop q ks vs
      some (q, (key, val) :: rest)
  | q, _, _ => some (q, [])

/-- `hmsg::get_header_list`. -/
def getHeaderList (h : Hmsg) (q : Nbq) : Option (Hmsg × Nbq × List (List UInt8 × List UInt8)) :=
  match h.headerList with
  | some l => some (h, q, l)
  | none => do
      let (q, l) ← headerLoop q h.pHListKey h.pHListVal
      some ({ h with headerList := some l }, q, l)

/-- The copy of the URL that `rqst::parse_uri` works on; without a URL it gives up. -/
def getUrl (h : Hmsg) (q : Nbq) : Option (Nbq × List UInt8) :=
  if h.pUrl.len = 0 then some (q, []) else q.copyPart h.pUrl.off h.pUrl.len

end Hmsg

/-- The kinds of data callbacks. -/
inductive DataKind where
  | url
  | status
  | headerField
  | headerValue
  | body
deriving DecidableEq, Repr

/-- One call of a data callback: the pointer and the bytes it points at. -/
structure DataCb where
  kind : DataKind
  ptr : ℤ
  bytes : List UInt8
deriving DecidableEq, Repr

namespace Hmsg

/-- The entries of `m_http_parser_settings`. -/
def onData (h : Hmsg) (cb : DataCb) : Hmsg :=
  match cb.kind with
  | .url => h.hpOnUrl cb.ptr cb.bytes
  | .status => h.hpOnStatus cb.ptr cb.bytes
  | .headerField => h.hpOnHeaderField cb.ptr cb.bytes
  | .headerValue => h.hpOnHeaderValue cb.ptr cb.bytes
  | .body => h.hpOnBody cb.ptr cb.bytes

/-! ## Spec lemmas -/

/-- No data callback touches the type of the message or the two bases. -/
lemma onData_bases (h : Hmsg) (cb : DataCb) :
    (h.onData cb).type = h.type ∧ (h.onData cb).curBuf = h.curBuf ∧
      (h.onData cb).curOff = h.curOff := by
  rcases cb with ⟨kind, ptr, bytes⟩
  cases kind with
  | url => simp only [onData, hpOnUrl]; split <;> exact ⟨rfl, rfl, rfl⟩
  | status => simp only [onData, hpOnStatus]; split <;> exact ⟨rfl, rfl, rfl⟩
  | headerField => exact ⟨rfl, rfl, rfl⟩
  | headerValue => exact ⟨rfl, rfl, rfl⟩
  | body => simp only [onData, hpOnBody]; split <;> exact ⟨rfl, rfl, rfl⟩

@[simp] lemma onData_type (h : Hmsg) (cb : DataCb) : (h.onData cb).type = h.type :=
  (h.onData_bases cb).1

@[simp] lemma onData_curBuf (h : Hmsg) (cb : DataCb) : (h.onData cb).curBuf = h.curBuf :=
  (h.onData_bases cb).2.1

@[simp] lemma onData_curOff (h : Hmsg) (cb : DataCb) : (h.onData cb).curOff = h.curOff :=
  (h.onData_bases cb).2.2

/-- Only the end of a message completes it. -/
@[simp] lemma onData_complete (h : Hmsg) (cb : DataCb) :
    (h.onData cb).complete = h.complete := by
  rcases cb with ⟨kind, ptr, bytes⟩
  cases kind <;> simp [onData, hpOnUrl, hpOnStatus, hpOnHeaderField, hpOnHeaderValue, hpOnBody,
    apply_ite Hmsg.complete]

lemma onData_headerList (h : Hmsg) (cb : DataCb) : (h.onData cb).headerList = h.headerList := by
  rcases cb with ⟨kind, ptr, bytes⟩
  cases kind <;> simp [onData, hpOnUrl, hpOnStatus, hpOnHeaderField, hpOnHeaderValue, hpOnBody,
    apply_ite Hmsg.headerList]

lemma onData_pBody {h : Hmsg} {cb : DataCb} (hk : cb.kind ≠ .body) :
    (h.onData cb).pBody = h.pBody := by
  rcases cb with ⟨kind, ptr, bytes⟩
  cases kind with
  | body => exact absurd rfl hk
  | _ => simp [onData, hpOnUrl, hpOnStatus, hpOnHeaderField, hpOnHeaderValue, apply_ite Hmsg.pBody]

lemma onData_pHListKey (h : Hmsg) (cb : DataCb) : (h.onData cb).pHListKey = h.pHListKey ++
    if cb.kind = .headerField then [h.place cb.ptr cb.bytes] else [] := by
  rcases cb with ⟨kind, ptr, bytes⟩
  cases kind <;> simp [onData, hpOnUrl, hpOnStatus, hpOnHeaderField, hpOnHeaderValue, hpOnBody,
    apply_ite Hmsg.pHListKey]

lemma onData_pHListVal (h : Hmsg) (cb : DataCb) : (h.onData cb).pHListVal = h.pHListVal ++
    if cb.kind = .headerValue then [h.place cb.ptr cb.bytes] else [] := by
  rcases cb with ⟨kind, ptr, bytes⟩
  cases kind <;> simp [onData, hpOnUrl, hpOnStatus, hpOnHeaderField, hpOnHeaderValue, hpOnBody,
    apply_ite Hmsg.pHListVal]

lemma onData_pStatus (h : Hmsg) (cb : DataCb) : (h.onData cb).pStatus =
    if cb.kind = .status ∧ h.type = .resp then h.place cb.ptr cb.bytes else h.pStatus := by
  rcases cb with ⟨kind, ptr, bytes⟩
  cases kind <;> simp [onData, hpOnUrl, hpOnStatus, hpOnHeaderField, hpOnHeaderValue, hpOnBody,
    apply_ite Hmsg.pStatus]

/-- The body keeps the offset that is recorded first. -/
lemma onData_pBody_off (h : Hmsg) (cb : DataCb) : (h.onData cb).pBody.off =
    if cb.kind = .body ∧ h.pBody.off = 0 then h.calcOffset cb.ptr else h.pBody.off := by
  rcases cb with ⟨kind, ptr, bytes⟩
  cases kind <;> simp [onData, hpOnUrl, hpOnStatus, hpOnHeaderField, hpOnHeaderValue, hpOnBody,
    apply_ite Hmsg.pBody, apply_ite Cr.off, place]

/-- With the right base, the offset is the position of the byte in the stream. -/
lemma calcOffset_eq {h : Hmsg} {ptr : ℤ} {n : ℕ} (hp : ptr - h.curBuf + h.curOff = n)
    (hn : n < 2 ^ 64) : h.calcOffset ptr = n := by
  rw [calcOffset, hp, Int.emod_eq_of_lt (by omega) (by exact_mod_cast hn), Int.toNat_natCast]

end Hmsg

/-! ## Reading from a queue that holds known bytes -/

lemma Cr.length_slice {c : Cr} {bytes : List UInt8} (h : c.stop ≤ bytes.length) :
    (c.slice bytes).length = c.len := by
  rw [Cr.slice, List.length_take, List.length_drop]
  rw [Cr.stop] at h
  omega

namespace Nbq

variable {q : Nbq} {a : SeekQueue UInt8}

/-- `copy_part` gives the bytes the range designates. -/
lemma Rep.copyPart (h : Rep q a) {c : Cr} (hc : c.stop ≤ a.contents.length) :
    ∃ q' a', q.copyPart c.off c.len = some (q', c.slice a.contents) ∧ Rep q' a' ∧
      a'.contents = a.contents := by
  obtain ⟨q', he, h'⟩ := h.readFrom c.off c.len
  refine ⟨q', _, ?_, h', rfl⟩
  have hl := Cr.length_slice hc
  rw [Cr.slice] at hl
  unfold Nbq.copyPart
  rw [he]
  simp [Cr.slice, hl]

/-- The loop of `get_header_list` pairs the recorded names and values in order. -/
lemma Rep.headerLoop {ks vs : List Cr} :
    ∀ {q : Nbq} {a : SeekQueue UInt8}, Rep q a → (∀ k ∈ ks, k.stop ≤ a.contents.length) →
      (∀ v ∈ vs, v.stop ≤ a.contents.length) →
      ∃ q' a', Hmsg.headerLoop q ks vs
          = some (q', (ks.map (·.slice a.contents)).zip (vs.map (·.slice a.contents))) ∧
        Rep q' a' ∧ a'.contents = a.contents := by
  induction ks generalizing vs with
  | nil =>
      intro q a h _ _
      exact ⟨q, a, by simp [Hmsg.headerLoop], h, rfl⟩
  | cons k ks ih =>
      intro q a h hk hv
      cases vs with
      | nil => exact ⟨q, a, by simp [Hmsg.headerLoop], h, rfl⟩
      | cons v vs =>
          obtain ⟨q₁, a₁, he₁, h₁, hc₁⟩ := h.copyPart (hk k List.mem_cons_self)
          obtain ⟨q₂, a₂, he₂, h₂, hc₂⟩ := h₁.copyPart (c := v)
            (by rw [hc₁]; exact hv v List.mem_cons_self)
          obtain ⟨q₃, a₃, he₃, h₃, hc₃⟩ := ih h₂
            (by rw [hc₂, hc₁]; exact fun k' hk' => hk k' (List.mem_cons_of_mem _ hk'))
            (by rw [hc₂, hc₁]; exact fun v' hv' => hv v' (List.mem_cons_of_mem _ hv'))
          refine ⟨q₃, a₃, ?_, h₃, by rw [hc₃, hc₂, hc₁]⟩
          rw [hc₁] at he₂
          rw [hc₂, hc₁] at he₃
          simp [Hmsg.headerLoop, he₁, he₂, he₃]

end Nbq

end Is2
