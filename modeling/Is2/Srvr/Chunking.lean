import Is2.Srvr.Hmsg

/-!
# Cutting a message into buffers

A message reaches `http_parser_execute` in several buffers.  The parser keeps its place between
calls and reports an element of the message (the URL, a header name, a header value, a stretch of
body) once for every buffer the element spans.  What it treats as spanning is decided by its state
when a buffer starts: in a URL, a name or a value it marks the start of the buffer, so a buffer
that starts right behind such an element still reports it, with no bytes; a stretch of body is
only reported with bytes.

This module has the messages, the ways of cutting them, and what the fragments of one element
look like: `pieces_shape` for what is marked, `bodyAdd_pieces` for the body.
-/

namespace Is2

/-! ## Messages and cuttings -/

/-- A buffer passed to `http_parser_execute`: the bytes from `lo` to `hi` of the message, stored at
`addr`. -/
structure Buf where
  addr : ℤ
  lo : ℕ
  hi : ℕ
deriving DecidableEq, Repr

/-- Non-empty buffers that follow each other from `lo` to `n`. -/
def Covers : ℕ → ℕ → List Buf → Prop
  | lo, n, [] => lo = n
  | lo, n, b :: bs => b.lo = lo ∧ lo < b.hi ∧ Covers b.hi n bs

/-- A way of cutting `n` bytes into buffers. -/
structure Cutting (n : ℕ) where
  bufs : List Buf
  covers : Covers 0 n bufs

/-- A stretch of the message that the parser reports through a data callback. -/
structure Element where
  kind : DataKind
  span : Cr
deriving DecidableEq, Repr

/-- The bytes of one message and its elements in stream order, as the parser finds them.  A folded
header value is several elements, and so is a chunked body. -/
structure Message where
  bytes : List UInt8
  elements : List Element
  fits : bytes.length < 2 ^ 64
  ordered : elements.Pairwise fun e e' => e.span.stop ≤ e'.span.off
  oneUrl : (elements.filter (·.kind = .url)).length ≤ 1
  within : ∀ e ∈ elements, e.span.stop ≤ bytes.length
  delimited : ∀ e ∈ elements, e.kind ≠ .body → e.span.stop < bytes.length
  nonempty : ∀ e ∈ elements, e.kind ≠ .headerValue → e.kind ≠ .status → 0 < e.span.len
  bodyLater : ∀ e ∈ elements, e.kind = .body → 0 < e.span.off

namespace Message

/-- The places of the elements of one kind. -/
def spans (m : Message) (k : DataKind) : List Cr :=
  (m.elements.filter (·.kind = k)).map (·.span)

end Message

/-- The part of an element that falls into a buffer. -/
def fragment (b : Buf) (s : Cr) : Cr :=
  ⟨max s.off b.lo, min s.stop b.hi - max s.off b.lo⟩

/-- What the parser reports of an element of kind `k` while it goes through a buffer. -/
def piece (k : DataKind) (b : Buf) (s : Cr) : Option Cr :=
  if s.off < b.hi ∧ (b.lo < s.stop ∨ (b.lo = s.stop ∧ k ≠ .body)) then some (fragment b s) else none

/-- The data callback for the part of an element in a buffer. -/
def callback (m : Message) (b : Buf) (e : Element) : Option DataCb :=
  (piece e.kind b e.span).map fun p => ⟨e.kind, b.addr + ((p.off : ℤ) - b.lo), p.slice m.bytes⟩

/-- `http_parser_execute` on one buffer, with the offset bases set for it. -/
def execute (m : Message) (h : Hmsg) (b : Buf) : Hmsg :=
  (m.elements.filterMap (callback m b)).foldl Hmsg.onData
    { h with curBuf := b.addr, curOff := b.lo }

/-- The record of a message parsed buffer by buffer. -/
def parse (m : Message) (t : HmsgType) (c : Cutting m.bytes.length) : Hmsg :=
  c.bufs.foldl (execute m) (Hmsg.init t)

/-- What a handler sees of a message. -/
structure Seen where
  url : List UInt8
  headers : List (List UInt8 × List UInt8)
  body : Cr
deriving DecidableEq, Repr

/-- The URL, the header list and the body range, read from the queue. -/
def Hmsg.seen (h : Hmsg) (q : Nbq) : Option Seen := do
  let (q, url) ← h.getUrl q
  let (h, _, headers) ← h.getHeaderList q
  some ⟨url, headers, h.pBody⟩

/-! ## The fragments of one element -/

section Pieces

variable {lo n : ℕ} {bs : List Buf} {s : Cr} {k : DataKind}

lemma Covers.lo_le (hc : Covers lo n bs) : ∀ b ∈ bs, lo ≤ b.lo := by
  induction bs generalizing lo with
  | nil => simp
  | cons b bs ih =>
      obtain ⟨h1, h2, h3⟩ := hc
      intro b' hb'
      rcases List.mem_cons.mp hb' with rfl | hb'
      · exact h1.ge
      · have := ih h3 b' hb'
        omega

lemma Covers.exists_cons (hc : Covers lo n bs) (h : lo < n) :
    ∃ b bs', bs = b :: bs' ∧ b.lo = lo ∧ lo < b.hi ∧ Covers b.hi n bs' := by
  cases bs with
  | nil =>
      rw [Covers] at hc
      omega
  | cons b bs' => exact ⟨b, bs', rfl, hc.1, hc.2.1, hc.2.2⟩

/-- Each buffer ends before the next one starts. -/
lemma Covers.pairwise (hc : Covers lo n bs) : bs.Pairwise fun b b' => b.hi ≤ b'.lo := by
  induction bs generalizing lo with
  | nil => exact List.Pairwise.nil
  | cons b bs ih => exact List.pairwise_cons.mpr ⟨hc.2.2.lo_le, ih hc.2.2⟩

/-- A buffer starts inside the element or right behind it. -/
def Touched (bs : List Buf) (s : Cr) : Prop := ∃ b ∈ bs, s.off < b.lo ∧ b.lo ≤ s.stop

/-- A buffer starts inside the element. -/
def Split (bs : List Buf) (s : Cr) : Prop := ∃ b ∈ bs, s.off < b.lo ∧ b.lo < s.stop

lemma Split.touched (h : Split bs s) : Touched bs s := by
  obtain ⟨b, hb, h1, h2⟩ := h
  exact ⟨b, hb, h1, h2.le⟩

/-- No buffer starts inside an empty element. -/
lemma not_touched_of_empty (h : s.len = 0) : ¬ Touched bs s := by
  rintro ⟨b, -, h1, h2⟩
  rw [Cr.stop] at h2
  omega

lemma piece_some {b : Buf} (hk : k ≠ .body) (hoff : s.off < b.hi) (hlo : b.lo ≤ s.stop) :
    piece k b s = some (fragment b s) := by
  rw [piece, if_pos ⟨hoff, hlo.lt_or_eq.imp id fun h => ⟨h, hk⟩⟩]

/-- The fragments behind the first one, in the buffers from `hi` on. -/
lemma pieces_later {hi : ℕ} (hc : Covers hi n bs) (hoff : s.off < hi) :
    ∀ p ∈ bs.filterMap (piece k · s), hi ≤ p.off ∧ p.stop ≤ s.stop := by
  intro p hp
  obtain ⟨b, hb, he⟩ := List.mem_filterMap.mp hp
  have hlo := hc.lo_le b hb
  simp only [piece] at he
  split at he
  case isFalse => simp at he
  case isTrue hcond =>
      obtain rfl := Option.some.inj he
      simp only [fragment, Cr.stop] at *
      omega

lemma pieces_later_nil {hi : ℕ} (hc : Covers hi n bs) (hstop : s.stop < hi) :
    bs.filterMap (piece k · s) = [] := by
  rw [List.filterMap_eq_nil_iff]
  intro b hb
  have hlo := hc.lo_le b hb
  rw [piece, if_neg]
  omega

/-- A buffer that starts right behind the element reports it once more, without bytes. -/
lemma pieces_later_edge {hi : ℕ} (hc : Covers hi n bs) (hk : k ≠ .body) (hoff : s.off < hi)
    (hstop : s.stop = hi) (hn : hi < n) : bs.filterMap (piece k · s) = [⟨s.stop, 0⟩] := by
  obtain ⟨b, bs', rfl, hlo, hlt, hc'⟩ := hc.exists_cons hn
  have hp : piece k b s = some ⟨s.stop, 0⟩ := by
    rw [piece_some hk (by omega) (by omega)]
    simp only [fragment, Option.some.injEq, Cr.mk.injEq]
    omega
  rw [filterMap_cons_toList, hp, pieces_later_nil hc' (by omega)]
  rfl

lemma touched_cons_iff {b : Buf} (hn : s.stop < n) (hlo : b.lo ≤ s.off) (hoff : s.off < b.hi)
    (hc : Covers b.hi n bs) : Touched (b :: bs) s ↔ b.hi ≤ s.stop := by
  constructor
  · rintro ⟨b', hb', h1, h2⟩
    rcases List.mem_cons.mp hb' with rfl | hb'
    · omega
    · exact le_trans (hc.lo_le b' hb') h2
  · intro h
    obtain ⟨b', bs', rfl, hlo', -, -⟩ := hc.exists_cons (by omega)
    exact ⟨b', by simp, by omega, by omega⟩

lemma split_cons_iff {b : Buf} (hn : s.stop < n) (hlo : b.lo ≤ s.off) (hoff : s.off < b.hi)
    (hc : Covers b.hi n bs) : Split (b :: bs) s ↔ b.hi < s.stop := by
  constructor
  · rintro ⟨b', hb', h1, h2⟩
    rcases List.mem_cons.mp hb' with rfl | hb'
    · omega
    · exact lt_of_le_of_lt (hc.lo_le b' hb') h2
  · intro h
    obtain ⟨b', bs', rfl, hlo', -, -⟩ := hc.exists_cons (by omega)
    exact ⟨b', by simp, by omega, by omega⟩

/-- **The fragments of an element.**  The first one reaches to the end of its buffer at `hi`; where
`hi` lies decides everything else. -/
lemma pieces_shape (hc : Covers lo n bs) (hlo : lo ≤ s.off) (hn : s.stop < n) (hk : k ≠ .body) :
    ∃ hi rest, s.off < hi ∧
      bs.filterMap (piece k · s) = ⟨s.off, min s.stop hi - s.off⟩ :: rest ∧
      (∀ p ∈ rest, hi ≤ p.off ∧ p.stop ≤ s.stop) ∧ (s.stop < hi → rest = []) ∧
      (s.stop = hi → rest = [⟨s.stop, 0⟩]) ∧ (hi ≤ s.stop → rest ≠ []) ∧
      (Touched bs s ↔ hi ≤ s.stop) ∧ (Split bs s ↔ hi < s.stop) := by
  have hle : s.off ≤ s.stop := by rw [Cr.stop]; omega
  induction bs generalizing lo with
  | nil =>
      rw [Covers] at hc
      omega
  | cons b bs ih =>
      obtain ⟨h1, h2, h3⟩ := hc
      by_cases hb : s.off < b.hi
      · have hp : piece k b s = some ⟨s.off, min s.stop b.hi - s.off⟩ := by
          rw [piece_some hk hb (by omega), fragment, max_eq_left (by omega)]
        refine ⟨b.hi, bs.filterMap (piece k · s), hb, ?_, pieces_later h3 hb, pieces_later_nil h3,
          fun h => pieces_later_edge h3 hk hb h (by omega), ?_,
          touched_cons_iff hn (by omega) hb h3, split_cons_iff hn (by omega) hb h3⟩
        · rw [filterMap_cons_toList, hp]
          rfl
        · intro h
          obtain ⟨b', bs', rfl, hlo', hlt', -⟩ := h3.exists_cons (by omega)
          rw [filterMap_cons_toList, piece_some hk (by omega) (by omega)]
          simp
      · -- the buffer ends before the element starts
        have hp : piece k b s = none := by
          rw [piece, if_neg (fun h => hb h.1)]
        obtain ⟨hi, rest, g1, g2, g3, g4, g5, g6, g7, g8⟩ := ih h3 (by omega)
        refine ⟨hi, rest, g1, ?_, g3, g4, g5, g6, ?_, ?_⟩
        · rw [filterMap_cons_toList, hp, g2]
          rfl
        · rw [← g7]
          simp only [Touched, List.mem_cons, exists_eq_or_imp]
          constructor
          · rintro (h | h)
            · omega
            · exact h
          · exact Or.inr
        · rw [← g8]
          simp only [Split, List.mem_cons, exists_eq_or_imp]
          constructor
          · rintro (h | h)
            · omega
            · exact h
          · exact Or.inr

/-- An element no buffer starts in is reported once. -/
lemma pieces_of_not_touched (hc : Covers 0 n bs) (hn : s.stop < n) (hk : k ≠ .body)
    (h : ¬ Touched bs s) : bs.filterMap (piece k · s) = [s] := by
  obtain ⟨hi, rest, -, he, -, hr, -, -, ht, -⟩ := pieces_shape hc (Nat.zero_le _) hn hk
  have hlt : s.stop < hi := by
    rw [ht] at h
    omega
  rw [he, hr hlt, min_eq_left hlt.le, Cr.stop, Nat.add_sub_cancel_left]

/-- The first fragment of an element that is cut is shorter than the element. -/
lemma pieces_of_split (hc : Covers 0 n bs) (hn : s.stop < n) (hk : k ≠ .body) (h : Split bs s) :
    ∃ p rest, bs.filterMap (piece k · s) = p :: rest ∧ p.len < s.len := by
  obtain ⟨hi, rest, hoff, he, -, -, -, -, -, hs⟩ := pieces_shape hc (Nat.zero_le _) hn hk
  have hlt := hs.mp h
  refine ⟨_, rest, he, ?_⟩
  simp only [Cr.stop] at *
  omega

/-- An element with a cut only right behind it is reported whole and then once more, empty. -/
lemma pieces_of_edge (hc : Covers 0 n bs) (hn : s.stop < n) (hk : k ≠ .body)
    (ht : Touched bs s) (hs : ¬ Split bs s) : bs.filterMap (piece k · s) = [s, ⟨s.stop, 0⟩] := by
  obtain ⟨hi, rest, -, he, -, -, hr, -, ht', hs'⟩ := pieces_shape hc (Nat.zero_le _) hn hk
  have heq : s.stop = hi := by
    rw [ht'] at ht
    rw [hs'] at hs
    omega
  rw [he, hr heq, heq, min_self, ← heq, Cr.stop, Nat.add_sub_cancel_left]

/-- An element is reported at least once, and only once if no buffer starts in it. -/
lemma length_pieces (hc : Covers 0 n bs) (hn : s.stop < n) (hk : k ≠ .body) :
    1 ≤ (bs.filterMap (piece k · s)).length ∧
      ((bs.filterMap (piece k · s)).length = 1 ↔ ¬ Touched bs s) := by
  obtain ⟨hi, rest, -, he, -, hr, -, hr', ht, -⟩ := pieces_shape (k := k) hc (Nat.zero_le _) hn hk
  rw [he, List.length_cons]
  refine ⟨by omega, ?_⟩
  constructor
  · intro hl ht'
    exact hr' (ht.mp ht') (List.length_eq_zero_iff.mp (by omega))
  · intro h
    rw [hr (by rw [ht] at h; omega)]
    rfl

/-- The last fragment of an element some buffer starts in is shorter than the element. -/
lemma getLast_pieces (hc : Covers 0 n bs) (hn : s.stop < n) (hk : k ≠ .body) (h : Touched bs s)
    (hne : bs.filterMap (piece k · s) ≠ []) :
    ((bs.filterMap (piece k · s)).getLast hne).len < s.len := by
  obtain ⟨hi, rest, hoff, he, hrest, -, -, hr, ht, -⟩ := pieces_shape hc (Nat.zero_le _) hn hk
  have hr' := hr (ht.mp h)
  have hmem : (bs.filterMap (piece k · s)).getLast hne ∈ rest := by
    simp only [he, List.getLast_cons hr', List.getLast_mem]
  obtain ⟨h1, h2⟩ := hrest _ hmem
  simp only [Cr.stop] at *
  omega

/-! ## Stretches of body -/

/-- What `hp_on_body` does to the recorded range. -/
def bodyAdd (cur p : Cr) : Cr := if cur.off = 0 then p else ⟨cur.off, cur.len + p.len⟩

lemma bodyAdd_pieces_later (hc : Covers lo n bs) (hn : s.stop ≤ n) {cur : Cr} (h0 : cur.off ≠ 0) :
    (bs.filterMap (piece .body · s)).foldl bodyAdd cur
      = ⟨cur.off, cur.len + (s.stop - max s.off lo)⟩ := by
  induction bs generalizing lo cur with
  | nil =>
      rw [Covers] at hc
      have hz : s.stop - max s.off lo = 0 := by omega
      rw [hz]
      rfl
  | cons b bs ih =>
      obtain ⟨h1, h2, h3⟩ := hc
      rw [filterMap_cons_toList, List.foldl_append]
      by_cases hb : s.off < b.hi ∧ b.lo < s.stop
      · have hp : piece .body b s = some (fragment b s) := by
          rw [piece, if_pos ⟨hb.1, Or.inl hb.2⟩]
        have hadd : bodyAdd cur (fragment b s) = ⟨cur.off, cur.len + (fragment b s).len⟩ := by
          rw [bodyAdd, if_neg h0]
        have hrest := ih h3 (show (bodyAdd cur (fragment b s)).off ≠ 0 by rw [hadd]; exact h0)
        rw [hp, Option.toList_some, List.foldl_cons, List.foldl_nil, hrest, hadd]
        simp only [fragment, Cr.mk.injEq, true_and]
        omega
      · have hp : piece .body b s = none := by
          rw [piece, if_neg]
          simp only [ne_eq, not_true_eq_false, and_false, or_false]
          exact hb
        rw [hp, Option.toList_none, List.foldl_nil, ih h3 h0]
        simp only [Cr.mk.injEq, true_and]
        have hle : s.off ≤ s.stop := by rw [Cr.stop]; omega
        omega

/-- **Stretches of body are put together.**  The fragments leave the range the whole leaves. -/
lemma bodyAdd_pieces (hc : Covers lo n bs) (hlo : lo ≤ s.off) (hn : s.stop ≤ n) (hlen : 0 < s.len)
    (hoff : 0 < s.off) (cur : Cr) :
    (bs.filterMap (piece .body · s)).foldl bodyAdd cur = bodyAdd cur s := by
  by_cases h0 : cur.off = 0
  · induction bs generalizing lo with
    | nil =>
        simp only [Covers, Cr.stop] at *
        omega
    | cons b bs ih =>
        obtain ⟨h1, h2, h3⟩ := hc
        rw [filterMap_cons_toList, List.foldl_append]
        by_cases hb : s.off < b.hi
        · have hp : piece .body b s = some (fragment b s) := by
            rw [piece, if_pos ⟨hb, Or.inl (by rw [Cr.stop]; omega)⟩]
          have hfirst : bodyAdd cur (fragment b s) = fragment b s := by
            rw [bodyAdd, if_pos h0]
          have hfoff : (fragment b s).off = s.off := max_eq_left (by omega)
          rw [hp, Option.toList_some, List.foldl_cons, List.foldl_nil, hfirst,
            bodyAdd_pieces_later h3 hn (by omega), bodyAdd, if_pos h0, hfoff]
          rcases s with ⟨off, len⟩
          simp only [fragment, Cr.stop, Cr.mk.injEq, true_and] at *
          omega
        · have hp : piece .body b s = none := by
            rw [piece, if_neg (fun h => hb h.1)]
          rw [hp, Option.toList_none, List.foldl_nil]
          exact ih h3 (by omega)
  · rw [bodyAdd_pieces_later hc hn h0, bodyAdd, if_neg h0, max_eq_left hlo, Cr.stop,
      Nat.add_sub_cancel_left]

end Pieces

end Is2
