import Is2.Core.Machine
import Is2.Nconn.Transfer
import Is2.Srvr.UrlFields

/-!
# The pieces of a request's URL

`rqst::parse_uri` copies the URL out of the queue and points into the copy: at the path, the query,
the fragment and the host, and at the URI, which is everything from the path on.  One object takes
all the requests of a connection, with an `init` in front of each.

The URI is computed from the path, and `handle_req` gives the path to the router.  Neither asks
whether there is one: `http://a` is a URL without.  And `init` forgets every piece but the host, so
a URL without a host is left with the host of an earlier one, in memory that has been freed.  These
are the only ways to go wrong (`urlLaw_iff`).

Addresses are numbers, and 0 is the null pointer.  `accepted` is a history; no code reads it.
-/

namespace Is2

/-- `data_t`. -/
structure Slice where
  data : ℕ
  len : ℕ
deriving DecidableEq, Repr

/-- What `clear` makes of it. -/
def Slice.null : Slice := ⟨0, 0⟩

/-- A block of memory that `copy_part` has filled. -/
structure UrlBuf where
  addr : ℕ
  bytes : Bytes
deriving DecidableEq, Repr

/-- `rqst`: the message with its URL, without the arguments of the query. -/
structure Rqst extends Hmsg where
  urlParsed : Bool
  urlBuf : Option UrlBuf
  urlBufLen : ℕ
  url : Slice
  uri : Slice
  host : Slice
  path : Slice
  query : Slice
  fragment : Slice
deriving DecidableEq, Repr

namespace Rqst

/-- The constructor. -/
def new : Rqst :=
  ⟨Hmsg.init .rqst, false, none, 0, .null, .null, .null, .null, .null, .null⟩

/-- `rqst::init`. -/
def init (r : Rqst) : Rqst :=
  { r with
    toHmsg := Hmsg.init .rqst
    url := .null
    uri := .null
    path := .null
    query := .null
    fragment := .null
    urlParsed := false
    urlBuf := none
    urlBufLen := if r.urlBuf.isSome then 0 else r.urlBufLen }

/-- A turn of the loop over the fields. -/
def setPart (buf : ℕ) (parts : UrlField → Cr) (r : Rqst) (k : UrlField) : Rqst :=
  let c := parts k
  if c.len ≠ 0 ∧ c.stop ≤ r.urlBufLen then
    match k with
    | .path => { r with path := ⟨buf + c.off, c.len⟩ }
    | .query => { r with query := ⟨buf + c.off, c.len⟩ }
    | .fragment => { r with fragment := ⟨buf + c.off, c.len⟩ }
    | .host => { r with host := ⟨buf + c.off, c.len⟩ }
    | .userinfo => r
    | .schema => r
    | .port => r
  else r

/-- The lengths are 32-bit; the difference of two pointers is not. -/
def setUri (buf : ℕ) (r : Rqst) : Rqst :=
  { r with
    url := ⟨buf, r.urlBufLen⟩
    uri := ⟨r.path.data, (((r.urlBufLen : ℤ) - ((r.path.data : ℤ) - buf)) % 2 ^ 32).toNat⟩
    urlParsed := true }

/-- The part of `parse_uri` behind the copy, which is at `b`. -/
def split (P : UrlParser) (b : UrlBuf) (r : Rqst) : Rqst × Bool :=
  let r := { r with urlBuf := some b, urlBufLen := r.pUrl.len % 2 ^ 32 }
  match P.parseUrl (b.bytes.take r.urlBufLen) with
  | none => ({ r with urlBuf := none, urlBufLen := 0 }, false)
  | some parts => ((UrlField.all.foldl (setPart b.addr parts) r).setUri b.addr, true)

/-- `rqst::parse_uri`, where memory for the copy is found at `buf`; without memory the parser would
read from the null pointer. -/
def parseUri (P : UrlParser) (q : Option Nbq) (buf : ℕ) (r : Rqst) :
    Option (Rqst × Option Nbq × Bool) :=
  if r.urlParsed then some (r, q, true)
  else if r.pUrl.len = 0 then some (r, q, false)
  else
    q.elim (some (r, none, false)) fun q => do
      let (q, bytes) ← q.copyPart r.pUrl.off r.pUrl.len
      if buf = 0 then none
      else
        let (r, ok) := r.split P ⟨buf, bytes⟩
        some (r, some q, ok)

/-- What `session::handle_req` gives to `find_route`, if it comes so far.  Each getter parses the
URL unless it is parsed. -/
def handleReq (P : UrlParser) (q : Option Nbq) (buf : ℕ) (r : Rqst) : Option (Option Slice) := do
  let (r, q, _) ← r.parseUri P q buf
  if r.url.data = 0 ∨ r.url.len = 0 then some none
  else
    let (r, _) ← r.parseUri P q buf
    some (some r.path)

end Rqst

/-! ## One object, many requests -/

/-- What happens to a request object: `init`, a callback of the parser, with the bases that the
session has set, and a getter. -/
inductive RqstAct where
  | init
  | onData (curBuf : ℤ) (curOff : ℕ) (cb : DataCb)
  | parseUri (q : Option Nbq) (buf : ℕ)

/-- A request object and the URLs it has accepted, the last one first. -/
structure RqstRun where
  rqst : Rqst
  accepted : List Bytes
deriving DecidableEq, Repr

namespace RqstRun

/-- The URL that was just parsed, if one was. -/
def parsedUrl (r r' : Rqst) : List Bytes :=
  if r.urlParsed = r'.urlParsed then []
  else (r'.urlBuf.map fun b => b.bytes.take r'.urlBufLen).toList

def step (P : UrlParser) (s : RqstRun) : RqstAct → Option RqstRun
  | .init => some { s with rqst := s.rqst.init }
  | .onData curBuf curOff cb =>
      let h : Hmsg := { s.rqst.toHmsg with curBuf := curBuf, curOff := curOff }
      some { s with rqst := { s.rqst with toHmsg := h.onData cb } }
  | .parseUri q buf =>
      (s.rqst.parseUri P q buf).map fun r => ⟨r.1, parsedUrl s.rqst r.1 ++ s.accepted⟩

def machine (P : UrlParser) : Machine RqstRun RqstAct where
  start s := s = ⟨Rqst.new, []⟩
  step s a t := s.step P a = some t

end RqstRun

/-! ## The property -/

/-- Empty, or a part of the first `len` bytes of a buffer. -/
def Slice.Within (x : Slice) (b : UrlBuf) (len : ℕ) : Prop :=
  x = .null ∨ b.addr ≤ x.data ∧ x.data + x.len ≤ b.addr + len

namespace Rqst

/-- The pieces of the URL. -/
def slices (r : Rqst) : List Slice := [r.path, r.query, r.fragment, r.host, r.uri]

/-- What a new object makes of the first `len` bytes of a buffer. -/
def fresh (P : UrlParser) (b : UrlBuf) (len : ℕ) : Rqst :=
  let h : Hmsg := { Hmsg.init .rqst with pUrl := ⟨0, len⟩ }
  (split P b { new with toHmsg := h }).1

/-- What is right of a request whose URL has been parsed, in the buffer `b`. -/
structure Pieces (P : UrlParser) (b : UrlBuf) (r : Rqst) : Prop where
  within : ∀ x ∈ r.slices, x.Within b r.urlBufLen
  fresh : r.slices = (fresh P b r.urlBufLen).slices
  uri : r.uri = if r.path = .null then .null
    else ⟨r.path.data, b.addr + r.urlBufLen - r.path.data⟩
  routed : ∀ q buf x, r.handleReq P q buf = some (some x) → x.data ≠ 0

def UrlLaw (P : UrlParser) (r : Rqst) : Prop := ∃ b, r.urlBuf = some b ∧ r.Pieces P b

end Rqst

/-- The URL has a path, and a host unless none before it had one. -/
def RqstRun.Whole (P : UrlParser) (s : RqstRun) : Prop :=
  s.accepted.head?.any (P.reports .path) = true ∧
    (s.accepted.head?.any (P.reports .host) = true ∨
      ∀ u ∈ s.accepted.tail, P.reports .host u = false)

/-! ## What a parse does -/

namespace Rqst

variable {P : UrlParser} {b : UrlBuf} {parts : UrlField → Cr} {r r' : Rqst} {q q' : Option Nbq}
  {buf : ℕ} {ok : Bool}

/-- The slice of a field, or what was there before. -/
def piece (buf : ℕ) (c : Cr) (old : Slice) : Slice :=
  if c.len ≠ 0 then ⟨buf + c.off, c.len⟩ else old

/-- A turn of the loop sets the slice of its field only. -/
lemma setPart_eq {k : UrlField} (h : (parts k).stop ≤ r.urlBufLen) :
    setPart buf parts r k =
      { r with
        host := if k = .host then piece buf (parts k) r.host else r.host
        path := if k = .path then piece buf (parts k) r.path else r.path
        query := if k = .query then piece buf (parts k) r.query else r.query
        fragment := if k = .fragment then piece buf (parts k) r.fragment else r.fragment } := by
  by_cases hl : (parts k).len = 0
  · cases k <;> simp [setPart, piece, hl]
  · cases k <;> simp [setPart, piece, hl, h]

/-- **The loop** sets the slices of the fields that the URL has. -/
lemma foldl_setPart (h : ∀ k, (parts k).stop ≤ r.urlBufLen) :
    UrlField.all.foldl (setPart buf parts) r =
      { r with
        host := piece buf (parts .host) r.host
        path := piece buf (parts .path) r.path
        query := piece buf (parts .query) r.query
        fragment := piece buf (parts .fragment) r.fragment } := by
  simp [UrlField.all, setPart_eq, h]

/-- The object right behind a successful parse of the URL `u` at `b`; `old` is the host that it had
before. -/
structure Parsed (b : UrlBuf) (parts : UrlField → Cr) (u : Bytes) (old : Slice) (r : Rqst) :
    Prop where
  urlBuf : r.urlBuf = some b
  addr : b.addr ≠ 0
  bytes : u = b.bytes.take r.urlBufLen
  len_lt : r.urlBufLen < 2 ^ 32
  url : r.url = ⟨b.addr, r.urlBufLen⟩
  host : r.host = piece b.addr (parts .host) old
  path : r.path = piece b.addr (parts .path) .null
  query : r.query = piece b.addr (parts .query) .null
  fragment : r.fragment = piece b.addr (parts .fragment) .null
  uri : r.uri =
    ⟨r.path.data, (((r.urlBufLen : ℤ) - ((r.path.data : ℤ) - b.addr)) % 2 ^ 32).toNat⟩

/-- The pieces that `init` clears are clear. -/
structure Clear (r : Rqst) : Prop where
  path : r.path = .null
  query : r.query = .null
  fragment : r.fragment = .null

lemma split_none
    (h : P.parseUrl (b.bytes.take (r.pUrl.len % 2 ^ 32)) = none) :
    r.split P b = ({ r with urlBuf := none, urlBufLen := 0 }, false) := by
  simp only [split, h]

lemma split_some (hb : b.addr ≠ 0) (hr : r.Clear)
    (h : P.parseUrl (b.bytes.take (r.pUrl.len % 2 ^ 32)) = some parts) :
    (r.split P b).1.urlParsed = true ∧ (r.split P b).1.urlBufLen = r.pUrl.len % 2 ^ 32 ∧
      (r.split P b).1.Parsed b parts (b.bytes.take (r.pUrl.len % 2 ^ 32)) r.host := by
  have hstop : ∀ k, (parts k).stop ≤ r.pUrl.len % 2 ^ 32 := fun k =>
    (P.stop_le k h).trans (List.length_take_le _ _)
  have hlt : r.pUrl.len % 2 ^ 32 < 2 ^ 32 := Nat.mod_lt _ (by omega)
  simp only [split, h]
  rw [foldl_setPart hstop]
  exact ⟨rfl, rfl, rfl, hb, rfl, hlt, rfl, rfl, by rw [← hr.path]; rfl, by rw [← hr.query]; rfl,
    by rw [← hr.fragment]; rfl, rfl⟩

/-- **What a parse can do**: nothing, or it splits a copy of the URL. -/
lemma parseUri_cases (h : r.parseUri P q buf = some (r', q', ok)) :
    r' = r ∨ r.urlParsed = false ∧ ∃ b : UrlBuf, b.addr ≠ 0 ∧ r' = (r.split P b).1 := by
  by_cases hp : r.urlParsed = true
  · rw [parseUri, if_pos hp] at h
    exact .inl (Prod.mk.inj (Option.some.inj h)).1.symm
  by_cases hl : r.pUrl.len = 0
  · rw [parseUri, if_neg hp, if_pos hl] at h
    exact .inl (Prod.mk.inj (Option.some.inj h)).1.symm
  rw [parseUri, if_neg hp, if_neg hl] at h
  cases q with
  | none => exact .inl (Prod.mk.inj (Option.some.inj h)).1.symm
  | some q =>
      obtain ⟨⟨q₁, bytes⟩, -, h⟩ := Option.bind_eq_some_iff.mp h
      by_cases hbuf : buf = 0
      · simp [hbuf] at h
      · simp only [if_neg hbuf, Option.some.injEq, Prod.mk.injEq] at h
        exact .inr ⟨by simpa using hp, ⟨buf, bytes⟩, hbuf, h.1.symm⟩

/-- A request that is parsed gives its path to the router. -/
lemma handleReq_parsed (h : r.urlParsed = true) (hd : r.url.data ≠ 0) :
    r.handleReq P q buf = some (if r.url.len = 0 then none else some r.path) := by
  have hp : ∀ q, r.parseUri P q buf = some (r, q, true) := fun q => by
    rw [parseUri, if_pos h]
  by_cases hl : r.url.len = 0 <;> simp [handleReq, hp, hd, hl]

lemma piece_within {c : Cr} {len : ℕ} (h : c.stop ≤ len) :
    (piece b.addr c .null).Within b len := by
  unfold piece
  split_ifs
  · exact .inr ⟨Nat.le_add_right _ _, by simp only [Cr.stop] at h ⊢; omega⟩
  · exact .inl rfl

namespace Parsed

variable {u : Bytes} {old old' : Slice}

lemma stop_le (h : r.Parsed b parts u old) (hp : P.parseUrl u = some parts) (k : UrlField) :
    (parts k).stop ≤ r.urlBufLen := by
  have hk := P.stop_le k hp
  rw [h.bytes] at hk
  exact hk.trans (List.length_take_le _ _)

lemma urlBufLen_ne_zero (h : r.Parsed b parts u old) (hp : P.parseUrl u = some parts) :
    r.urlBufLen ≠ 0 := by
  intro h0
  have hb := h.bytes
  rw [h0, List.take_zero] at hb
  rw [hb, P.parseUrl_nil] at hp
  exact absurd hp (by simp)

/-- The URI is what follows, if there is a path. -/
lemma uri_eq (h : r.Parsed b parts u old) (hp : P.parseUrl u = some parts)
    (hpath : (parts .path).len ≠ 0) :
    r.uri = ⟨b.addr + (parts .path).off, r.urlBufLen - (parts .path).off⟩ := by
  have hstop := h.stop_le hp .path
  have hlt := h.len_lt
  rw [h.uri, h.path, piece, if_pos hpath, Slice.mk.injEq]
  refine ⟨rfl, ?_⟩
  simp only [Cr.stop] at hstop ⊢
  rw [Int.emod_eq_of_lt (by push_cast; omega) (by push_cast; omega)]
  push_cast
  omega

/-- Everything but the host is a matter of the URL. -/
lemma slices_eq_iff (h : r.Parsed b parts u old) (h' : r'.Parsed b parts u old')
    (hl : r'.urlBufLen = r.urlBufLen) : r.slices = r'.slices ↔ r.host = r'.host := by
  simp [slices, h.uri, h'.uri, h.path, h'.path, h.query, h'.query, h.fragment, h'.fragment, hl]

lemma fresh (h : r.Parsed b parts u old) (hp : P.parseUrl u = some parts) :
    (fresh P b r.urlBufLen).urlBufLen = r.urlBufLen ∧
      (fresh P b r.urlBufLen).Parsed b parts u .null := by
  have hmod := Nat.mod_eq_of_lt h.len_lt
  have hparse : P.parseUrl (b.bytes.take (r.urlBufLen % 2 ^ 32)) = some parts := by
    rw [hmod, ← h.bytes, hp]
  obtain ⟨-, hlen, hfresh⟩ := split_some (r := { new with
    toHmsg := { Hmsg.init .rqst with pUrl := ⟨0, r.urlBufLen⟩ } }) h.addr ⟨rfl, rfl, rfl⟩ hparse
  have hu : b.bytes.take (r.urlBufLen % 2 ^ 32) = u := by rw [hmod, ← h.bytes]
  exact ⟨hlen.trans hmod, hu ▸ hfresh⟩

/-- The router is given the path, whatever it is. -/
lemma routed_iff (h : r.Parsed b parts u old) (hp : P.parseUrl u = some parts)
    (hflag : r.urlParsed = true) :
    (∀ q buf x, r.handleReq P q buf = some (some x) → x.data ≠ 0) ↔ (parts .path).len ≠ 0 := by
  have haddr := h.addr
  have hreq : ∀ q buf, r.handleReq P q buf = some (some r.path) := fun q buf => by
    rw [handleReq_parsed hflag (by rw [h.url]; exact haddr), h.url,
      if_neg (h.urlBufLen_ne_zero hp)]
  simp only [hreq, Option.some.injEq, forall_eq', h.path, piece]
  split_ifs with hl
  · exact ⟨fun _ => hl, fun _ _ _ => (Nat.add_pos_left (Nat.pos_of_ne_zero haddr) _).ne'⟩
  · exact ⟨fun hnull => absurd rfl (hnull none 0), fun h => absurd h hl⟩

/-- The pieces are right if there is a path, and the host is that of a new object. -/
lemma pieces_iff (h : r.Parsed b parts u old) (hp : P.parseUrl u = some parts)
    (hflag : r.urlParsed = true) :
    r.Pieces P b ↔ (parts .path).len ≠ 0 ∧ ((parts .host).len ≠ 0 ∨ old = .null) := by
  obtain ⟨hlen, hfresh⟩ := h.fresh hp
  have hslices := h.slices_eq_iff hfresh hlen
  have hhost : r.host = (Rqst.fresh P b r.urlBufLen).host ↔
      (parts .host).len ≠ 0 ∨ old = .null := by
    rw [h.host, hfresh.host, piece, piece]
    split_ifs with hl <;> simp [hl]
  constructor
  · intro hr
    exact ⟨(h.routed_iff hp hflag).mp hr.routed, hhost.mp (hslices.mp hr.fresh)⟩
  · rintro ⟨hpath, hold⟩
    have hstop := h.stop_le hp
    have hne : r.path ≠ .null := by
      rw [h.path, piece, if_pos hpath]
      exact fun hnull => hpath (congrArg Slice.len hnull)
    have huri := h.uri_eq hp hpath
    refine ⟨?_, hslices.mpr (hhost.mpr hold), ?_, (h.routed_iff hp hflag).mpr hpath⟩
    · have hin : ∀ k, (piece b.addr (parts k) .null).Within b r.urlBufLen := fun k =>
        piece_within (hstop k)
      have hold' : r.host = piece b.addr (parts .host) .null := by
        rw [hhost.mpr hold, hfresh.host]
      intro x hx
      simp only [slices, List.mem_cons, List.not_mem_nil, or_false] at hx
      rcases hx with rfl | rfl | rfl | rfl | rfl
      · exact h.path ▸ hin .path
      · exact h.query ▸ hin .query
      · exact h.fragment ▸ hin .fragment
      · exact hold' ▸ hin .host
      · have hpstop := hstop .path
        rw [huri]
        exact .inr ⟨Nat.le_add_right _ _, by simp only [Cr.stop] at hpstop ⊢; omega⟩
    · rw [if_neg hne, huri, h.path, piece, if_pos hpath, Nat.add_sub_add_left]

end Parsed

end Rqst

namespace RqstRun

variable {P : UrlParser} {s s' : RqstRun} {a : RqstAct}

/-- `x` is the host that is left of some URLs. -/
structure Hosts (P : UrlParser) (us : List Bytes) (x : Slice) : Prop where
  null : (∀ u ∈ us, P.reports .host u = false) → x = .null
  stale : (∃ u ∈ us, P.reports .host u = true) → x.len ≠ 0

lemma Hosts.cons {b : UrlBuf} {parts : UrlField → Cr} {u : Bytes} {us : List Bytes} {x : Slice}
    (h : Hosts P us x) (hp : P.parseUrl u = some parts) :
    Hosts P (u :: us) (Rqst.piece b.addr (parts .host) x) := by
  have hrep := UrlParser.reports_iff (P := P) (k := .host) hp
  unfold Rqst.piece
  split_ifs with hl
  · exact ⟨fun hnone => absurd (hrep.mpr hl) (by simp [hnone u]), fun _ => hl⟩
  · have hu : P.reports .host u = false := by simpa [hl] using hrep
    exact ⟨fun hnone => h.null fun v hv => hnone v (List.mem_cons_of_mem _ hv),
      fun hsome => h.stale (by simpa [hu] using hsome)⟩

/-- The last URL accepted is the one that is parsed, and the host of the earlier ones is left. -/
inductive Inv (P : UrlParser) (s : RqstRun) : Prop where
  | unparsed (flag : s.rqst.urlParsed = false) (clear : s.rqst.Clear)
      (host : Hosts P s.accepted s.rqst.host)
  | parsed {b : UrlBuf} {parts : UrlField → Cr} {u : Bytes} {us : List Bytes} {old : Slice}
      (flag : s.rqst.urlParsed = true) (accepted : s.accepted = u :: us)
      (parse : P.parseUrl u = some parts) (host : Hosts P us old)
      (pieces : s.rqst.Parsed b parts u old)

lemma Inv.host (h : Inv P s) : Hosts P s.accepted s.rqst.host := by
  cases h with
  | unparsed _ _ hhost => exact hhost
  | parsed _ hacc hparse hhost hpieces =>
      rw [hacc, hpieces.host]
      exact hhost.cons hparse

/-- One step keeps the invariant. -/
lemma Inv.step (h : Inv P s) (he : s.step P a = some s') : Inv P s' := by
  cases a with
  | init =>
      obtain rfl := Option.some.inj he
      exact .unparsed rfl ⟨rfl, rfl, rfl⟩ h.host
  | onData curBuf curOff cb =>
      obtain rfl := Option.some.inj he
      cases h with
      | unparsed hflag hclear hhost => exact .unparsed hflag ⟨hclear.1, hclear.2, hclear.3⟩ hhost
      | parsed hflag hacc hparse hhost p =>
          exact .parsed hflag hacc hparse hhost ⟨p.urlBuf, p.addr, p.bytes, p.len_lt, p.url, p.host,
            p.path, p.query, p.fragment, p.uri⟩
  | parseUri q buf =>
      obtain ⟨⟨r', q', ok⟩, hr, rfl⟩ := Option.map_eq_some_iff.mp he
      rcases Rqst.parseUri_cases hr with rfl | ⟨hflag, b, hb, rfl⟩
      · rwa [parsedUrl, if_pos rfl]
      cases h with
      | parsed hflag' => exact absurd (hflag.symm.trans hflag') (by decide)
      | unparsed _ hclear hhost =>
          cases hp : P.parseUrl (b.bytes.take (s.rqst.pUrl.len % 2 ^ 32)) with
          | none =>
              rw [Rqst.split_none hp, parsedUrl, if_pos rfl]
              exact .unparsed hflag ⟨hclear.1, hclear.2, hclear.3⟩ hhost
          | some parts =>
              obtain ⟨hflag', -, p⟩ := Rqst.split_some hb hclear hp
              refine .parsed hflag' ?_ hp hhost p
              rw [parsedUrl, if_neg (by rw [hflag, hflag']; decide), p.urlBuf, p.bytes]
              rfl

lemma inv_of_reachable (h : (machine P).Reachable s) : Inv P s := by
  refine h.invariant (P := Inv P) ?_ ?_
  · rintro s rfl
    exact .unparsed rfl ⟨rfl, rfl, rfl⟩ ⟨fun _ => rfl, by simp⟩
  · intro s a s' hs he
    exact hs.step he

/-- **The pieces of the URL** of every request are right if and only if the URL has a path, and a
host unless no URL that the object had accepted before has one. -/
theorem urlLaw_iff (h : (machine P).Reachable s) (hp : s.rqst.urlParsed = true) :
    s.rqst.UrlLaw P ↔ s.Whole P := by
  cases inv_of_reachable h with
  | unparsed hflag => exact absurd (hflag.symm.trans hp) (by decide)
  | @parsed b parts u us old _ hacc hparse hhost p =>
      have hpath := UrlParser.reports_iff (k := .path) hparse
      have hrep := UrlParser.reports_iff (k := .host) hparse
      have hold : old = .null ↔ ∀ v ∈ us, P.reports .host v = false := by
        refine ⟨fun hnull v hv => ?_, hhost.null⟩
        by_contra hv'
        exact hhost.stale ⟨v, hv, by simpa using hv'⟩ (by rw [hnull]; rfl)
      rw [Rqst.UrlLaw, p.urlBuf]
      simp only [Option.some.injEq, exists_eq_left', p.pieces_iff hparse hp, hold, Whole, hacc,
        List.head?_cons, Option.any_some, List.tail_cons, hpath, hrep]

/-- What `http_parser_parse_url` says of three URLs. -/
def threeUrls : UrlParser :=
  .ofTable
    [ (ascii "http://a", fun k =>
        if k = .schema then ⟨0, 4⟩ else if k = .host then ⟨7, 1⟩ else ⟨0, 0⟩),
      (ascii "http://a/x", fun k =>
        if k = .schema then ⟨0, 4⟩ else if k = .host then ⟨7, 1⟩
        else if k = .path then ⟨8, 2⟩ else ⟨0, 0⟩),
      (ascii "/y", fun k => if k = .path then ⟨0, 2⟩ else ⟨0, 0⟩) ]
    (by decide +kernel)

/-- A request for a URL, read into a queue and parsed, with the copy at `buf`. -/
def request (url : Bytes) (buf : ℕ) : List RqstAct :=
  [.init, .onData 0 0 ⟨.url, 4, url⟩,
    .parseUri ((Nconn.ncRead (.init 64) (ascii "GET " ++ url) (.data 64)).map NcRead.q) buf]

/-- A URL with a path and a host, after one without a host. -/
theorem urlLaw_absolute : ∃ s, (machine threeUrls).Reachable s ∧
    s.accepted = [ascii "http://a/x", ascii "/y"] ∧ s.rqst.UrlLaw threeUrls := by
  have hrun : ((request (ascii "/y") 100 ++ request (ascii "http://a/x") 200).foldlM
      (step threeUrls) ⟨Rqst.new, []⟩).map (fun s => (s.accepted, s.rqst.urlParsed)) =
        some ([ascii "http://a/x", ascii "/y"], true) := by decide +kernel
  obtain ⟨s, hs, hobs⟩ := Option.map_eq_some_iff.mp hrun
  obtain ⟨hacc, hp⟩ := Prod.mk.inj hobs
  have hreach : (machine threeUrls).Reachable s :=
    Machine.Reachable.foldlM (fun _ _ _ he => he) (.start rfl) hs
  refine ⟨s, hreach, hacc, (urlLaw_iff hreach hp).mpr ?_⟩
  rw [Whole, hacc]
  decide +kernel

/-- `http://a` gives the router a null pointer, and `/y` has the host that `http://a/x` had. -/
theorem url_pieces_null_or_stale : ∃ s t, (machine threeUrls).Reachable s ∧
    (machine threeUrls).Reachable t ∧
    (s.accepted = [ascii "http://a"] ∧ s.rqst.handleReq threeUrls none 0 = some (some .null)) ∧
    (t.accepted = [ascii "/y", ascii "http://a/x"] ∧
      t.rqst.urlBuf = some ⟨200, ascii "/y"⟩ ∧ t.rqst.host = ⟨107, 1⟩) ∧
    (s.rqst.urlParsed = true ∧ ¬ s.rqst.UrlLaw threeUrls) ∧
    (t.rqst.urlParsed = true ∧ ¬ t.rqst.UrlLaw threeUrls) := by
  have hrun : ((request (ascii "http://a") 100).foldlM (step threeUrls) ⟨Rqst.new, []⟩).map
      (fun s => (s.accepted, s.rqst.handleReq threeUrls none 0, s.rqst.urlParsed)) =
        some ([ascii "http://a"], some (some .null), true) := by decide +kernel
  have hrun' : ((request (ascii "http://a/x") 100 ++ request (ascii "/y") 200).foldlM
      (step threeUrls) ⟨Rqst.new, []⟩).map
      (fun s => (s.accepted, s.rqst.urlBuf, s.rqst.host, s.rqst.urlBufLen, s.rqst.urlParsed)) =
        some ([ascii "/y", ascii "http://a/x"], some ⟨200, ascii "/y"⟩, ⟨107, 1⟩, 2, true) := by
    decide +kernel
  obtain ⟨s, hs, hobs⟩ := Option.map_eq_some_iff.mp hrun
  obtain ⟨t, ht, hobs'⟩ := Option.map_eq_some_iff.mp hrun'
  simp only [Prod.mk.injEq] at hobs hobs'
  obtain ⟨hacc, hreq, hp⟩ := hobs
  obtain ⟨hacc', hbuf, hhost, hlen, hp'⟩ := hobs'
  refine ⟨s, t, .foldlM (fun _ _ _ he => he) (.start rfl) hs,
    .foldlM (fun _ _ _ he => he) (.start rfl) ht, ⟨hacc, hreq⟩, ⟨hacc', hbuf, hhost⟩,
    ⟨hp, ?_⟩, ⟨hp', ?_⟩⟩
  · rintro ⟨b, -, hr⟩
    exact hr.routed none 0 .null hreq rfl
  · rintro ⟨b, hb, hr⟩
    obtain rfl := Option.some.inj (hbuf.symm.trans hb)
    have hin := hr.within t.rqst.host (by simp [Rqst.slices])
    rw [hhost, hlen] at hin
    exact absurd hin (by unfold Slice.Within; decide)

end RqstRun

end Is2
