import Is2.Srvr.InQueue

/-!
# The body of a request

The callbacks record where the first piece of a body starts and how long all pieces are together.
`get_body_q` hands out the body by splitting the queue of the connection at that offset, so it takes
whatever is in the queue from there on: between the pieces of a chunked body, and behind the last
piece.  And on a block boundary `split` leaves the first block of the body behind.

* `Request` says what a request and its recorded offsets are: the parser's ranges are in the queue
  and in order, and each offset that is recorded is the one of its range.
* `BodyLaw` says what `get_body_q`, `get_body_len` and `get_header_list` come to.
* `bodyLaw_iff` says when this holds (`Splittable`).
-/

namespace Is2

namespace Nbq

variable {q q' : Nbq} {xs : Bytes}

/-- The pairs that `get_header_list` makes of recorded ranges. -/
def pairsOf (ks vs : List Cr) (bytes : Bytes) : List (Bytes × Bytes) :=
  (ks.zip vs).map fun r => (r.1.padded bytes, r.2.padded bytes)

lemma Readable.headerLoop {ks vs : List Cr} :
    ∀ {q : Nbq}, Readable q xs →
      ∃ q', Hmsg.headerLoop q ks vs = some (q', pairsOf ks vs xs) ∧ Readable q' xs := by
  induction ks generalizing vs with
  | nil => exact fun {q} h => ⟨q, by simp [Hmsg.headerLoop, pairsOf], h⟩
  | cons k ks ih =>
      intro q h
      cases vs with
      | nil => exact ⟨q, by simp [Hmsg.headerLoop, pairsOf], h⟩
      | cons v vs =>
          obtain ⟨q₁, he₁, h₁⟩ := h.copyPart k
          obtain ⟨q₂, he₂, h₂⟩ := h₁.copyPart v
          obtain ⟨q₃, he₃, h₃⟩ := @ih vs q₂ h₂
          refine ⟨q₃, ?_, h₃⟩
          simp [Hmsg.headerLoop, he₁, he₂, he₃, pairsOf]

lemma Streamed.headerLoop {ks vs : List Cr} :
    ∀ {q q' : Nbq} {l : List (Bytes × Bytes)}, Streamed q →
      Hmsg.headerLoop q ks vs = some (q', l) → Streamed q' ∧ q'.bsize = q.bsize := by
  induction ks generalizing vs with
  | nil =>
      intro q q' l h he
      simp only [Hmsg.headerLoop, Option.some.injEq, Prod.mk.injEq] at he
      rw [← he.1]
      exact ⟨h, rfl⟩
  | cons k ks ih =>
      intro q q' l h he
      cases vs with
      | nil =>
          simp only [Hmsg.headerLoop, Option.some.injEq, Prod.mk.injEq] at he
          rw [← he.1]
          exact ⟨h, rfl⟩
      | cons v vs =>
          obtain ⟨⟨q₁, key⟩, he₁, he⟩ := Option.bind_eq_some_iff.mp he
          obtain ⟨⟨q₂, val⟩, he₂, he⟩ := Option.bind_eq_some_iff.mp he
          obtain ⟨⟨q₃, rest⟩, he₃, he⟩ := Option.bind_eq_some_iff.mp he
          simp only [Option.some.injEq, Prod.mk.injEq] at he
          obtain ⟨h₁, hb₁⟩ := h.copyPart he₁
          obtain ⟨h₂, hb₂⟩ := h₁.copyPart he₂
          obtain ⟨h₃, hb₃⟩ := ih h₂ he₃
          rw [← he.1]
          exact ⟨h₃, hb₃.trans (hb₂.trans hb₁)⟩

end Nbq

namespace BodyQ

/-! ## Requests -/

/-- One data callback: what it is for, where its bytes are in the queue, the pointer it gets, and
the two bases at the time. -/
structure Call where
  kind : DataKind
  range : Cr
  ptr : ℤ
  curBuf : ℤ
  curOff : ℕ

namespace Call

/-- The message with the bases of the callback. -/
def bases (x : Call) (h : Hmsg) : Hmsg := { h with curBuf := x.curBuf, curOff := x.curOff }

/-- The callback is made. -/
def run (bytes : Bytes) (h : Hmsg) (x : Call) : Hmsg :=
  (x.bases h).onData ⟨x.kind, x.ptr, x.range.slice bytes⟩

/-- The offset that the callback records, if it records one. -/
def offset (x : Call) : ℕ := (x.bases (Hmsg.init .rqst)).calcOffset x.ptr

end Call

/-- What the callbacks of a request leave behind. -/
def record (bytes : Bytes) (calls : List Call) (keepAlive : Bool) : Hmsg :=
  (calls.foldl (Call.run bytes) (Hmsg.init .rqst)).hpOnMessageComplete keepAlive

/-- The ranges of the callbacks of a kind. -/
def ranges (kind : DataKind) (calls : List Call) : List Cr :=
  (calls.filter fun x => x.kind = kind).map Call.range

/-- The bytes that `hp_on_body` was given. -/
def bodyOf (bytes : Bytes) (calls : List Call) : Bytes :=
  (ranges .body calls).flatMap (·.slice bytes)

/-- **A request in the queue**, with right offsets: the parser goes through the bytes in order, the
body comes behind the request line, no piece of it is empty, and every callback that records an
offset records that of its range. -/
structure Request (bytes : Bytes) (calls : List Call) : Prop where
  inside : ∀ x ∈ calls, x.range.stop ≤ bytes.length
  ordered : calls.Pairwise fun x y => x.range.stop ≤ y.range.off
  line : ∀ x ∈ calls, x.kind = .body → 0 < x.range.off
  piece : ∀ x ∈ calls, x.kind = .body → 0 < x.range.len
  right : ∀ pre x post, calls = pre ++ x :: post →
    (x.kind = .body → ∀ y ∈ pre, y.kind ≠ .body) → x.offset = x.range.off

/-! ## Source functions -/

/-- `hmsg::get_body_q`, with the queue of the body, if it was made before. -/
def getBodyQ (h : Hmsg) (bodyQ : Option Nbq) (q : Nbq) : Option (Option Nbq × Nbq) :=
  if bodyQ.isSome then some (bodyQ, q)
  else if h.pBody.off = 0 then some (none, q)
  else do
    let (s, q, tail) ← q.split h.pBody.off
    some (if s = 0 then tail else none, q)

/-- `hmsg::get_body_len` -/
def getBodyLen (h : Hmsg) : ℕ := h.pBody.len

/-! ## The law -/

/-- The header list, read or not read before the body is taken. -/
def beforeBody (early : Bool) (h : Hmsg) (q : Nbq) : Option (Hmsg × Nbq) :=
  if early then (h.getHeaderList q).map fun r => (r.1, r.2.1) else some (h, q)

/-- **What taking the body comes to**: a queue that reads as the data of the body, or none if there
is no data; the length is that of the data; and the header list is what it was before. -/
def BodyLaw (early : Bool) (h : Hmsg) (q : Nbq) (data : Bytes) : Prop :=
  ∃ h₁ q₁ body head list, beforeBody early h q = some (h₁, q₁) ∧
    getBodyQ h₁ none q₁ = some (body, head) ∧ body.elim (data = []) (·.ReadsBack data) ∧
    getBodyLen h₁ = data.length ∧ (h.getHeaderList q).map (·.2.2) = some list ∧
    (h₁.getHeaderList head).map (·.2.2) = some list

/-- The pairs of the header list. -/
def pairs (calls : List Call) (bytes : Bytes) : List (Bytes × Bytes) :=
  Nbq.pairsOf (ranges .headerField calls) (ranges .headerValue calls) bytes

/-- **The queue can be split at the body.**  Off a block boundary that takes a body behind which
and between whose pieces there is nothing.  On a boundary one block is missing: what is left has to
be the data by accident, and no header that is still to be read may be among it. -/
def Splittable (early : Bool) (bsize : ℕ) (bytes : Bytes) (calls : List Call) : Prop :=
  ∀ p ∈ (ranges .body calls).head?,
    if bsize ∣ p.off then
      bytes.drop (p.off + bsize) = bodyOf bytes calls ∧
        (early = false → pairs calls (bytes.take (p.off + bsize)) = pairs calls bytes)
    else p.off + ((ranges .body calls).map Cr.len).sum = bytes.length

instance (early : Bool) (bsize : ℕ) (bytes : Bytes) (calls : List Call) :
    Decidable (Splittable early bsize bytes calls) :=
  inferInstanceAs (Decidable (∀ p ∈ (ranges .body calls).head?,
    if bsize ∣ p.off then
      bytes.drop (p.off + bsize) = bodyOf bytes calls ∧
        (early = false → pairs calls (bytes.take (p.off + bsize)) = pairs calls bytes)
    else p.off + ((ranges .body calls).map Cr.len).sum = bytes.length))

/-! ## What is recorded -/

section Recorded

variable {bytes : Bytes} {calls : List Call} {x : Call}

lemma ranges_append_same (kind : DataKind) (h : x.kind = kind) :
    ranges kind (calls ++ [x]) = ranges kind calls ++ [x.range] := by
  simp [ranges, List.filter_append, h]

lemma ranges_append_other (kind : DataKind) (h : x.kind ≠ kind) :
    ranges kind (calls ++ [x]) = ranges kind calls := by
  simp [ranges, List.filter_append, h]

lemma mem_ranges {kind : DataKind} {r : Cr} :
    r ∈ ranges kind calls ↔ ∃ x ∈ calls, x.kind = kind ∧ x.range = r := by
  simp [ranges, and_assoc]

lemma Request.front (h : Request bytes (calls ++ [x])) : Request bytes calls where
  inside y hy := h.inside y (List.mem_append_left _ hy)
  ordered := (List.pairwise_append.mp h.ordered).1
  line y hy := h.line y (List.mem_append_left _ hy)
  piece y hy := h.piece y (List.mem_append_left _ hy)
  right pre y post he := h.right pre y (post ++ [x]) (by rw [he]; simp)

/-- A range that a callback records. -/
lemma Request.place (h : Request bytes (calls ++ [x]))
    (hfirst : x.kind = .body → ranges .body calls = []) (m : Hmsg) :
    (x.bases m).place x.ptr (x.range.slice bytes) = x.range := by
  have hlast : x ∈ calls ++ [x] := by simp
  have hoff : x.offset = x.range.off := by
    refine h.right calls x [] rfl fun hk y hy hy' => ?_
    have hmem : y.range ∈ ranges .body calls := mem_ranges.mpr ⟨y, hy, hy', rfl⟩
    rw [hfirst hk] at hmem
    exact absurd hmem List.not_mem_nil
  rw [Hmsg.place, Cr.length_slice (h.inside x hlast)]
  exact congrArg (Cr.mk · x.range.len) hoff

/-- What the callbacks have recorded. -/
structure Holds (calls : List Call) (m : Hmsg) : Prop where
  type : m.type = .rqst
  body : m.pBody = ⟨(ranges .body calls).head?.elim 0 Cr.off,
    ((ranges .body calls).map Cr.len).sum⟩
  keys : m.pHListKey = ranges .headerField calls
  vals : m.pHListVal = ranges .headerValue calls
  list : m.headerList = none

/-- A callback for a piece of the body: only the first one records an offset. -/
lemma Holds.onBody {m : Hmsg} (hm : Holds calls m) (h : Request bytes (calls ++ [x]))
    (hk : x.kind = .body) : (x.run bytes m).pBody =
      ⟨(ranges .body (calls ++ [x])).head?.elim 0 Cr.off,
        ((ranges .body (calls ++ [x])).map Cr.len).sum⟩ := by
  rw [ranges_append_same .body hk]
  rw [Call.run, Hmsg.onData, hk]
  simp only [Hmsg.hpOnBody]
  cases hp : ranges .body calls with
  | nil =>
      rw [if_pos (by rw [Call.bases, hm.body, hp]; rfl), h.place fun _ => hp]
      simp
  | cons p ps =>
      obtain ⟨y, hy, hyk, hyr⟩ := mem_ranges.mp (hp ▸ List.mem_cons_self : p ∈ ranges .body calls)
      have hpos := h.line y (List.mem_append_left _ hy) hyk
      rw [hyr] at hpos
      have hpb : (x.bases m).pBody = m.pBody := rfl
      rw [if_neg (by rw [hpb, hm.body, hp]; simp; omega), hpb,
        Cr.length_slice (h.inside x (by simp)), hm.body, hp]
      simp [Nat.add_assoc]

/-- **What is recorded** of a request: the first offset and the length of the body, and the
headers. -/
lemma Request.holds (h : Request bytes calls) :
    Holds calls (calls.foldl (Call.run bytes) (Hmsg.init .rqst)) := by
  induction calls using List.reverseRecOn with
  | nil => exact ⟨rfl, rfl, rfl, rfl, rfl⟩
  | append_singleton calls x ih =>
      have hm := ih h.front
      rw [List.foldl_append, List.foldl_cons, List.foldl_nil]
      generalize calls.foldl (Call.run bytes) (Hmsg.init .rqst) = m at hm
      refine ⟨(Hmsg.onData_type _ _).trans hm.type, ?_, ?_, ?_,
        (Hmsg.onData_headerList _ _).trans hm.list⟩
      · by_cases hk : x.kind = .body
        · exact hm.onBody h hk
        · rw [ranges_append_other .body hk]
          exact (Hmsg.onData_pBody hk).trans hm.body
      · refine (Hmsg.onData_pHListKey _ _).trans ?_
        simp only
        split_ifs with hk
        · rw [h.place (by simp [hk]), ranges_append_same _ hk]
          exact congrArg (· ++ [x.range]) hm.keys
        · rw [ranges_append_other _ hk, List.append_nil]
          exact hm.keys
      · refine (Hmsg.onData_pHListVal _ _).trans ?_
        simp only
        split_ifs with hk
        · rw [h.place (by simp [hk]), ranges_append_same _ hk]
          exact congrArg (· ++ [x.range]) hm.vals
        · rw [ranges_append_other _ hk, List.append_nil]
          exact hm.vals

end Recorded

/-! ## Ranges in order -/

section Order

variable {bytes : Bytes} {calls : List Call}

/-- Ranges in order take no more than there is from the first one on; where they take all of it,
they are all of it. -/
lemma ranges_sum {ps : List Cr} : ∀ {p : Cr}, (p :: ps).Pairwise (fun r s => r.stop ≤ s.off) →
    (∀ r ∈ p :: ps, r.stop ≤ bytes.length) →
    p.off + ((p :: ps).map Cr.len).sum ≤ bytes.length ∧
      (p.off + ((p :: ps).map Cr.len).sum = bytes.length →
        bytes.drop p.off = (p :: ps).flatMap (·.slice bytes)) := by
  induction ps with
  | nil =>
      intro p _ hin
      have hp := hin p List.mem_cons_self
      rw [Cr.stop] at hp
      refine ⟨by simpa using hp, fun heq => ?_⟩
      simp only [List.map_cons, List.map_nil, List.sum_cons, List.sum_nil, add_zero] at heq
      rw [List.flatMap_singleton, Cr.slice, List.take_of_length_le]
      rw [List.length_drop]
      omega
  | cons p' ps ih =>
      intro p hord hin
      obtain ⟨hle, hall⟩ := ih (List.pairwise_cons.mp hord).2 fun r hr =>
        hin r (List.mem_cons_of_mem _ hr)
      have hnext := (List.pairwise_cons.mp hord).1 p' List.mem_cons_self
      rw [Cr.stop] at hnext
      rw [List.map_cons, List.sum_cons]
      refine ⟨by omega, fun heq => ?_⟩
      rw [List.flatMap_cons, ← hall (by omega), Cr.slice,
        show p'.off = p.off + p.len by omega, ← List.drop_drop, List.take_append_drop]

lemma Request.pairwise (h : Request bytes calls) :
    (calls.map Call.range).Pairwise (fun r s => r.stop ≤ s.off) := by
  rw [List.pairwise_map]
  exact h.ordered

lemma ranges_sublist (kind : DataKind) (calls : List Call) :
    (ranges kind calls).Sublist (calls.map Call.range) :=
  List.filter_sublist.map _

lemma Request.ranges_inside (h : Request bytes calls) {kind : DataKind} :
    ∀ r ∈ ranges kind calls, r.stop ≤ bytes.length := by
  intro r hr
  obtain ⟨x, hx, -, rfl⟩ := mem_ranges.mp hr
  exact h.inside x hx

lemma Request.length_bodyOf (h : Request bytes calls) :
    (bodyOf bytes calls).length = ((ranges .body calls).map Cr.len).sum := by
  rw [bodyOf, List.length_flatMap]
  congr 1
  exact List.map_congr_left fun r hr => Cr.length_slice (h.ranges_inside r hr)

lemma sum_filter_add_le {α : Type} {p : α → Prop} [DecidablePred p] {f : α → ℕ} {l : List α}
    {x : α} (hx : x ∈ l) (hp : ¬ p x) :
    ((l.filter fun y => p y).map f).sum + f x ≤ (l.map f).sum := by
  obtain ⟨front, back, rfl⟩ := List.append_of_mem hx
  have hle : ∀ l : List α, ((l.filter fun y => p y).map f).sum ≤ (l.map f).sum :=
    fun l => (List.filter_sublist.map f).sum_le_sum fun _ _ => Nat.zero_le _
  have h1 := hle front
  have h2 := hle back
  simp only [List.filter_append, List.map_append, List.sum_append, List.filter_cons, hp,
    decide_false, Bool.false_eq_true, if_false, List.map_cons, List.sum_cons]
  omega

/-- Where the body takes all that is in the queue from its start on, the other ranges are in front
of it, or empty. -/
lemma Request.range_front (h : Request bytes calls) {p : Cr} {ps : List Cr}
    (hp : ranges .body calls = p :: ps)
    (hsum : p.off + ((ranges .body calls).map Cr.len).sum = bytes.length) {x : Call}
    (hx : x ∈ calls) (hk : x.kind ≠ .body) : x.range.stop ≤ p.off ∨ x.range.len = 0 := by
  obtain ⟨y, ys, hfilter, rfl, -⟩ := List.map_eq_cons_iff.mp hp
  obtain ⟨pre, post, rfl, hpre, -, -⟩ := List.filter_eq_cons_iff.mp hfilter
  obtain ⟨-, hpost, hacross⟩ := List.pairwise_append.mp h.ordered
  rcases List.mem_append.mp hx with hx | hx
  · exact .inl (hacross x hx y List.mem_cons_self)
  · right
    have hnil : (pre.filter fun x => x.kind = .body) = [] := List.filter_eq_nil_iff.mpr hpre
    have hsame : ranges .body (pre ++ y :: post) = ranges .body (y :: post) := by
      rw [ranges, List.filter_append, hnil, List.nil_append, ranges]
    have hmore := sum_filter_add_le (p := fun x : Call => x.kind = .body)
      (f := fun x => x.range.len) hx hk
    have hord : (y.range :: post.map Call.range).Pairwise fun r s => r.stop ≤ s.off := by
      rw [← List.map_cons, List.pairwise_map]
      exact hpost
    have hin : ∀ r ∈ y.range :: post.map Call.range, r.stop ≤ bytes.length := by
      rw [← List.map_cons]
      intro r hr
      obtain ⟨z, hz, rfl⟩ := List.mem_map.mp hr
      exact h.inside z (List.mem_append_right _ hz)
    have hall := (ranges_sum hord hin).1
    rw [hsame, ranges, List.map_map] at hsum
    rw [← List.map_cons, List.map_map] at hall
    simp only [Function.comp_def] at hsum hall
    omega

lemma padded_take {c : Cr} {n : ℕ} (h : c.stop ≤ n ∨ c.len = 0) :
    c.padded (bytes.take n) = c.padded bytes := by
  have hslice : c.slice (bytes.take n) = c.slice bytes := by
    rw [Cr.slice, Cr.slice, List.drop_take, List.take_take]
    rcases h with h | h
    · rw [Cr.stop] at h
      rw [Nat.min_eq_left (by omega)]
    · rw [h, Nat.zero_min]
  rw [Cr.padded, Cr.padded, hslice]

/-- The headers are still there when only the body is taken. -/
lemma Request.pairs_take (h : Request bytes calls) {p : Cr} {ps : List Cr}
    (hp : ranges .body calls = p :: ps)
    (hsum : p.off + ((ranges .body calls).map Cr.len).sum = bytes.length) :
    pairs calls (bytes.take p.off) = pairs calls bytes := by
  refine List.map_congr_left fun r hr => ?_
  obtain ⟨hkey, hval⟩ := List.of_mem_zip hr
  obtain ⟨x, hx, hxk, hxr⟩ := mem_ranges.mp hkey
  obtain ⟨y, hy, hyk, hyr⟩ := mem_ranges.mp hval
  rw [← hxr, ← hyr, padded_take (h.range_front hp hsum hx (by simp [hxk])),
    padded_take (h.range_front hp hsum hy (by simp [hyk]))]

end Order

/-! ## Taking the body -/

section Body

variable {bytes : Bytes} {calls : List Call} {m : Hmsg} {q : Nbq}

lemma getHeaderList_of_some {list : List (Bytes × Bytes)} (h : m.headerList = some list) :
    m.getHeaderList q = some (m, q, list) := by
  rw [Hmsg.getHeaderList, h]

lemma Holds.getHeaderList (hm : Holds calls m) {xs : Bytes} (h : q.Readable xs) :
    ∃ q', m.getHeaderList q =
        some ({ m with headerList := some (pairs calls xs) }, q', pairs calls xs) ∧
      Hmsg.headerLoop q m.pHListKey m.pHListVal = some (q', pairs calls xs) ∧ q'.Readable xs := by
  obtain ⟨q', hloop, hq'⟩ :
      ∃ q', Hmsg.headerLoop q m.pHListKey m.pHListVal = some (q', pairs calls xs) ∧
        q'.Readable xs := by
    rw [hm.keys, hm.vals, pairs]
    exact h.headerLoop
  refine ⟨q', ?_, hloop, hq'⟩
  rw [Hmsg.getHeaderList, hm.list]
  simp only [hloop, Option.bind_eq_bind, Option.bind_some]

/-- The state in which the body is taken. -/
lemma Holds.beforeBody (hm : Holds calls m) (h : q.Streamed) (early : Bool) :
    ∃ h₁ q₁, beforeBody early m q = some (h₁, q₁) ∧ q₁.Streamed ∧ q₁.contents = q.contents ∧
      q₁.bsize = q.bsize ∧ h₁.pBody = m.pBody ∧ ∀ head xs, Nbq.Readable head xs →
        (h₁.getHeaderList head).map (·.2.2) =
          some (pairs calls (if early then q.contents else xs)) := by
  cases early with
  | false =>
      refine ⟨m, q, rfl, h, rfl, rfl, rfl, fun head xs hhead => ?_⟩
      obtain ⟨q', he, -, -⟩ := hm.getHeaderList hhead
      rw [he]
      rfl
  | true =>
      obtain ⟨q', he, hloop, hq'⟩ := hm.getHeaderList h.readable
      obtain ⟨hst, hbs⟩ := h.headerLoop hloop
      refine ⟨{ m with headerList := some (pairs calls q.contents) }, q', ?_, hst, hq'.contents_eq,
        hbs, rfl, fun head xs _ => ?_⟩
      · rw [BodyQ.beforeBody, if_pos rfl, he]
        rfl
      · rw [getHeaderList_of_some rfl]
        rfl

/-- What is left to show once the queue of the body was made, or was not. -/
lemma Holds.law_reduced (hm : Holds calls m) (hst : q.Streamed) {early : Bool} {h₁ : Hmsg}
    {q₁ : Nbq} {data : Bytes} (hbefore : BodyQ.beforeBody early m q = some (h₁, q₁))
    (hlen : getBodyLen h₁ = data.length) :
    BodyLaw early m q data ↔ ∃ body head, getBodyQ h₁ none q₁ = some (body, head) ∧
      body.elim (data = []) (·.ReadsBack data) ∧
      (h₁.getHeaderList head).map (·.2.2) = some (pairs calls q.contents) := by
  obtain ⟨q', hget, -⟩ := hm.getHeaderList hst.readable
  have hlist : (m.getHeaderList q).map (·.2.2) = some (pairs calls q.contents) := by
    rw [hget]
    rfl
  constructor
  · rintro ⟨h₂, q₂, body, head, list, he, hbq, hdata, -, hbef, haft⟩
    rw [hbefore] at he
    obtain ⟨rfl, rfl⟩ := Prod.mk.inj (Option.some.inj he)
    rw [hlist] at hbef
    rw [hbef]
    exact ⟨body, head, hbq, hdata, haft⟩
  · rintro ⟨body, head, hbq, hdata, haft⟩
    exact ⟨h₁, q₁, body, head, _, hbefore, hbq, hdata, hlen, hlist, haft⟩

/-- The same for the two halves of a split. -/
lemma split_iff {data xs ys : Bytes} {head tail : Nbq} (hoff : m.pBody.off ≠ 0)
    (he : q.split m.pBody.off = some (0, head, some tail)) (htail : tail.Readable ys)
    (hlist : (m.getHeaderList head).map (·.2.2) = some (pairs calls xs)) :
    (∃ body head, getBodyQ m none q = some (body, head) ∧
      body.elim (data = []) (·.ReadsBack data) ∧
      (m.getHeaderList head).map (·.2.2) = some (pairs calls bytes)) ↔
        ys = data ∧ pairs calls xs = pairs calls bytes := by
  have hget : getBodyQ m none q = some (some tail, head) := by
    rw [getBodyQ, if_neg (by simp), if_neg hoff, he]
    rfl
  constructor
  · rintro ⟨body, head', he', hdata, hl⟩
    obtain ⟨rfl, rfl⟩ := Prod.mk.inj (Option.some.inj (hget.symm.trans he'))
    rw [hlist, Option.some.injEq] at hl
    exact ⟨htail.readsBack.unique hdata, hl⟩
  · rintro ⟨rfl, hl⟩
    exact ⟨_, _, hget, htail.readsBack, by rw [hlist, hl]⟩

end Body

/-- **`get_body_q` hands out the body exactly where the queue can be split at it.** -/
theorem bodyLaw_iff {q : Nbq} (hq : inQueue.Reachable q) {calls : List Call}
    (hr : Request q.contents calls) (keepAlive early : Bool) :
    BodyLaw early (record q.contents calls keepAlive) q (bodyOf q.contents calls) ↔
      Splittable early q.bsize q.contents calls := by
  have hst := Nbq.streamed_of_inQueue hq
  have hm : Holds calls (record q.contents calls keepAlive) := by
    obtain ⟨h₁, h₂, h₃, h₄, h₅⟩ := hr.holds
    exact ⟨h₁, h₂, h₃, h₄, h₅⟩
  obtain ⟨h₁, q₁, hbefore, hst₁, hc₁, hb₁, hbody₁, hlist⟩ := hm.beforeBody hst early
  have hlen : getBodyLen h₁ = (bodyOf q.contents calls).length := by
    rw [getBodyLen, hbody₁, hm.body, hr.length_bodyOf]
  rw [hm.law_reduced hst hbefore hlen]
  cases hp : ranges .body calls with
  | nil =>
      refine iff_of_true ⟨none, q₁, ?_, by simp [bodyOf, hp], ?_⟩ (by simp [Splittable, hp])
      · rw [getBodyQ, if_neg (by simp), if_pos (by rw [hbody₁, hm.body, hp]; rfl)]
      · rw [hlist q₁ _ hst₁.readable, hc₁, ite_self]
  | cons p ps =>
      have hoff : h₁.pBody.off = p.off := by rw [hbody₁, hm.body, hp]; rfl
      obtain ⟨x, hx, hxk, hxr⟩ := mem_ranges.mp (hp ▸ List.mem_cons_self : p ∈ ranges .body calls)
      have h0 : 0 < p.off := hxr ▸ hr.line x hx hxk
      have hpos : 0 < p.len := hxr ▸ hr.piece x hx hxk
      have hin : p.stop ≤ q.contents.length := hxr ▸ hr.inside x hx
      rw [Cr.stop] at hin
      have hdata : bodyOf q.contents calls ≠ [] := by
        rw [← List.length_pos_iff, hr.length_bodyOf, hp, List.map_cons, List.sum_cons]
        omega
      have hord : (p :: ps).Pairwise fun r s => r.stop ≤ s.off := by
        rw [← hp]
        exact hr.pairwise.sublist (ranges_sublist _ _)
      have hranges : ∀ r ∈ p :: ps, r.stop ≤ q.contents.length := by
        rw [← hp]
        exact hr.ranges_inside
      have hall := (ranges_sum hord hranges).2
      have hlt : p.off < q₁.contents.length := by rw [hc₁]; omega
      obtain ⟨pre, b, post, d, hq₁, hfind, hsum, hd, hdvd⟩ := hst₁.splitFind hlt
      rw [hb₁] at hdvd
      have hcond : Splittable early q.bsize q.contents calls ↔
          if q.bsize ∣ p.off then
            q.contents.drop (p.off + q.bsize) = bodyOf q.contents calls ∧
              (early = false →
                pairs calls (q.contents.take (p.off + q.bsize)) = pairs calls q.contents)
          else p.off + ((ranges .body calls).map Cr.len).sum = q.contents.length := by
        rw [Splittable, hp, List.head?_cons]
        simp
      rw [hcond]
      split_ifs with hb
      · obtain rfl := hdvd.mpr hb
        rw [Nat.add_zero] at hsum
        obtain ⟨hnone, hsome⟩ := hst₁.split_boundary h0 hlt hq₁ hfind
        obtain ⟨hdrop, htake⟩ := hst₁.drop_boundary hq₁
        rw [← hsum, hc₁, hb₁] at hdrop htake
        by_cases hpost : post = []
        · -- there is no block for the tail, and nothing is left of the data
          refine iff_of_false ?_ fun hc => hdata ?_
          · rintro ⟨body, head, he, -⟩
            rw [getBodyQ, if_neg (by simp), if_neg (by omega), hoff, hnone hpost] at he
            cases he
          · rw [← hc.1, hdrop, hpost, List.flatMap_nil]
        · obtain ⟨head, tail, he, hhead, htail⟩ := hsome hpost
          rw [split_iff (by omega) (by rw [hoff]; exact he) htail (hlist head _ hhead), hdrop]
          refine and_congr_right fun heq => ?_
          rw [← htake (heq ▸ hdata)]
          cases early with
          | false => exact ⟨fun h _ => h, fun h => h rfl⟩
          | true => exact iff_of_true rfl fun h => absurd h (by decide)
      · obtain ⟨head, tail, he, hhead, htail⟩ :=
          hst₁.split_inside hlt hq₁ hfind hsum hd (by omega)
        rw [hc₁] at hhead htail
        rw [split_iff (by omega) (by rw [hoff]; exact he) htail (hlist head _ hhead)]
        constructor
        · rintro ⟨heq, -⟩
          have := congrArg List.length heq
          rw [hr.length_bodyOf, List.length_drop] at this
          omega
        · intro heq
          refine ⟨by rw [bodyOf, hp]; exact hall (by rw [← hp]; exact heq), ?_⟩
          cases early with
          | true => rfl
          | false => exact hr.pairs_take hp heq

/-! ## Two requests -/

/-- A callback whose pointer is an offset into the queue. -/
def callAt (kind : DataKind) (off len : ℕ) : Call := ⟨kind, ⟨off, len⟩, off, 0, 0⟩

/-- Ranges in the queue are a request if they are in order. -/
lemma request_of_calls {bytes : Bytes} {calls : List Call}
    (hin : ∀ x ∈ calls, x.range.stop ≤ bytes.length ∧ x.offset = x.range.off ∧
      (x.kind = .body → 0 < x.range.off ∧ 0 < x.range.len))
    (hord : calls.Pairwise fun x y => x.range.stop ≤ y.range.off) : Request bytes calls where
  inside x hx := (hin x hx).1
  ordered := hord
  line x hx hk := ((hin x hx).2.2 hk).1
  piece x hx hk := ((hin x hx).2.2 hk).2
  right pre x post he _ := (hin x (by simp [he])).2.1

/-- A request with a `Content-Length`, read in two pieces into blocks of 32 bytes. -/
theorem bodyLaw_iff_contentLength : ∃ q, inQueue.Reachable q ∧
    BodyLaw true (record q.contents [callAt .url 5 1, callAt .headerField 17 4,
        callAt .headerValue 23 1, callAt .headerField 26 14, callAt .headerValue 42 1,
        callAt .body 47 2] true) q (ascii "hi") := by
  set bytes := ascii "POST / HTTP/1.1\r\nHost: x\r\nContent-Length: 2\r\n\r\nhi" with hbytes
  set calls := [callAt .url 5 1, callAt .headerField 17 4, callAt .headerValue 23 1,
    callAt .headerField 26 14, callAt .headerValue 42 1, callAt .body 47 2] with hcalls
  have hrun : ([.ncRead bytes (.data 64), .ncRead (bytes.drop 32) (.data 64)].foldlM InAct.run
      (Nbq.init 32)).map (fun q => (q.contents, q.bsize)) = some (bytes, 32) := by decide +kernel
  obtain ⟨q, hq, hobs⟩ := Option.map_eq_some_iff.mp hrun
  have hreach : inQueue.Reachable q :=
    Machine.Reachable.foldlM (fun _ _ _ he => he) (.start ⟨32, by decide, rfl⟩) hq
  obtain ⟨hc, hbs⟩ := Prod.mk.inj hobs
  have hr : Request q.contents calls := by
    rw [hc]
    exact request_of_calls (by decide +kernel) (by decide +kernel)
  have hdata : bodyOf q.contents calls = ascii "hi" := by
    rw [hc]
    decide +kernel
  refine ⟨q, hreach, ?_⟩
  rw [← hdata]
  refine (bodyLaw_iff hreach hr true true).mpr ?_
  rw [hc, hbs]
  decide +kernel

/-- A chunked request: the framing behind the piece is taken for a part of the body. -/
theorem chunked_body_has_framing : ∃ q calls, inQueue.Reachable q ∧ Request q.contents calls ∧
    bodyOf q.contents calls = ascii "hi" ∧
    ((getBodyQ (record q.contents calls true) none q).map fun r =>
      r.1.map fun b => (b.readFrom 0 20).map (·.2.1)) =
        some (some (some (ascii "hi\r\n0\r\n\r\n"))) ∧
    ¬ BodyLaw false (record q.contents calls true) q (bodyOf q.contents calls) := by
  set bytes := ascii "POST / HTTP/1.1\r\nHost: x\r\nTransfer-Encoding: chunked\r\n\r\n" ++
    ascii "2\r\nhi\r\n0\r\n\r\n" with hbytes
  set calls := [callAt .url 5 1, callAt .headerField 17 4, callAt .headerValue 23 1,
    callAt .headerField 26 17, callAt .headerValue 45 7, callAt .body 59 2] with hcalls
  have hrun : ([.ncRead bytes (.data 128)].foldlM InAct.run (Nbq.init 128)).map
      (fun q => (q.contents, (getBodyQ (record bytes calls true) none q).map fun r =>
        r.1.map fun b => (b.readFrom 0 20).map (·.2.1))) =
      some (bytes, some (some (some (ascii "hi\r\n0\r\n\r\n")))) := by decide +kernel
  obtain ⟨q, hq, hobs⟩ := Option.map_eq_some_iff.mp hrun
  have hreach : inQueue.Reachable q :=
    Machine.Reachable.foldlM (fun _ _ _ he => he) (.start ⟨128, by decide, rfl⟩) hq
  obtain ⟨hc, hread⟩ := Prod.mk.inj hobs
  have hdata : bodyOf q.contents calls = ascii "hi" := by
    rw [hc]
    decide +kernel
  rw [← hc] at hread
  refine ⟨q, calls, hreach, ?_, hdata, hread, ?_⟩
  · rw [hc]
    exact request_of_calls (by decide +kernel) (by decide +kernel)
  · rintro ⟨h₁, q₁, body, head, list, hbefore, hget, hholds, -⟩
    obtain ⟨rfl, rfl⟩ := Prod.mk.inj (Option.some.inj hbefore)
    rw [hget, Option.map_some, Option.some.injEq] at hread
    cases body with
    | none => simp at hread
    | some b =>
        obtain ⟨q', n, hr⟩ := hholds 20
        rw [hdata] at hr
        rw [Option.map_some, hr, Option.map_some, Option.some.injEq, Option.some.injEq] at hread
        have hne : (ascii "hi").take 20 ≠ ascii "hi\r\n0\r\n\r\n" := by decide +kernel
        exact hne hread

end BodyQ

end Is2
