import Is2.Srvr.Chunking

/-!
# When the cutting cannot be seen

`cb.cc` records fragments; `get_header_list` and `parse_uri` read the record back.  For which
cuttings does that give what the uncut message gives?

* A stretch of body is put together for every cutting.
* The URL is overwritten by its last fragment.
* Each fragment of a header name or value is one more entry of its list, so from there on the
  names and the values shift against each other.  The shift goes unseen only if nothing but empty
  entries follows, or if it runs over the end of the other list.

`Clean` collects that, and `seen_eq_iff_clean` shows that it is exact.
-/

namespace Is2

/-! ## The record, one member at a time -/

/-- A member of the record that the callbacks of kind `k` update by `op`, and no other callback
touches. -/
structure Column {X : Type} (col : Hmsg → X) (op : X → Cr → X) (k : DataKind) (t : HmsgType) :
    Prop where
  bases : ∀ h x y, col { h with curBuf := x, curOff := y } = col h
  onData : ∀ (h : Hmsg) cb, h.type = t →
    col (h.onData cb) = if cb.kind = k then op (col h) (h.place cb.ptr cb.bytes) else col h

lemma column_keys (t : HmsgType) :
    Column Hmsg.pHListKey (fun l p => l ++ [p]) .headerField t where
  bases _ _ _ := rfl
  onData h cb _ := by
    rcases cb with ⟨k, ptr, bytes⟩
    cases k <;> simp [Hmsg.onData, Hmsg.hpOnUrl, Hmsg.hpOnStatus, Hmsg.hpOnHeaderField,
      Hmsg.hpOnHeaderValue, Hmsg.hpOnBody, apply_ite Hmsg.pHListKey]

lemma column_vals (t : HmsgType) :
    Column Hmsg.pHListVal (fun l p => l ++ [p]) .headerValue t where
  bases _ _ _ := rfl
  onData h cb _ := by
    rcases cb with ⟨k, ptr, bytes⟩
    cases k <;> simp [Hmsg.onData, Hmsg.hpOnUrl, Hmsg.hpOnStatus, Hmsg.hpOnHeaderField,
      Hmsg.hpOnHeaderValue, Hmsg.hpOnBody, apply_ite Hmsg.pHListVal]

lemma column_body (t : HmsgType) : Column Hmsg.pBody bodyAdd .body t where
  bases _ _ _ := rfl
  onData h cb _ := by
    rcases cb with ⟨k, ptr, bytes⟩
    cases k <;> simp [Hmsg.onData, Hmsg.hpOnUrl, Hmsg.hpOnStatus, Hmsg.hpOnHeaderField,
      Hmsg.hpOnHeaderValue, Hmsg.hpOnBody, apply_ite Hmsg.pBody, bodyAdd, Hmsg.place]

lemma column_url : Column Hmsg.pUrl (fun _ p => p) .url .rqst where
  bases _ _ _ := rfl
  onData h cb ht := by
    rcases cb with ⟨k, ptr, bytes⟩
    cases k <;> simp [Hmsg.onData, Hmsg.hpOnUrl, Hmsg.hpOnStatus, Hmsg.hpOnHeaderField,
      Hmsg.hpOnHeaderValue, Hmsg.hpOnBody, apply_ite Hmsg.pUrl, ht]

/-- Only a request has a URL. -/
lemma column_no_url {t : HmsgType} (hne : t ≠ .rqst) :
    Column Hmsg.pUrl (fun x _ => x) .url t where
  bases _ _ _ := rfl
  onData h cb ht := by
    rcases cb with ⟨k, ptr, bytes⟩
    cases k <;> simp [Hmsg.onData, Hmsg.hpOnUrl, Hmsg.hpOnStatus, Hmsg.hpOnHeaderField,
      Hmsg.hpOnHeaderValue, Hmsg.hpOnBody, apply_ite Hmsg.pUrl, ht, hne]

lemma column_headerList (t : HmsgType) :
    Column Hmsg.headerList (fun x _ => x) .headerField t where
  bases _ _ _ := rfl
  onData h cb _ := by
    rcases cb with ⟨k, ptr, bytes⟩
    cases k <;> simp [Hmsg.onData, Hmsg.hpOnUrl, Hmsg.hpOnStatus, Hmsg.hpOnHeaderField,
      Hmsg.hpOnHeaderValue, Hmsg.hpOnBody, apply_ite Hmsg.headerList]

section Column

variable {X : Type} {col : Hmsg → X} {op : X → Cr → X} {k : DataKind} {t : HmsgType}

lemma Hmsg.foldl_onData_type (cbs : List DataCb) (h : Hmsg) :
    (cbs.foldl Hmsg.onData h).type = h.type := by
  induction cbs generalizing h with
  | nil => rfl
  | cons cb cbs ih => rw [List.foldl_cons, ih, Hmsg.onData_type]

lemma Hmsg.place_onData (h : Hmsg) (cb : DataCb) : (h.onData cb).place = h.place := by
  funext ptr bytes
  simp [Hmsg.place, Hmsg.calcOffset]

lemma Column.foldl (hcol : Column col op k t) (cbs : List DataCb) :
    ∀ h : Hmsg, h.type = t → col (cbs.foldl Hmsg.onData h)
      = ((cbs.filter (·.kind = k)).map fun cb => h.place cb.ptr cb.bytes).foldl op (col h) := by
  induction cbs with
  | nil => exact fun _ _ => rfl
  | cons cb cbs ih =>
      intro h ht
      rw [List.foldl_cons, ih _ (by rw [Hmsg.onData_type, ht]), hcol.onData h cb ht,
        Hmsg.place_onData]
      by_cases hk : cb.kind = k <;> simp [hk]

lemma piece_within {b : Buf} {s p : Cr} (h : piece k b s = some p) :
    p.stop ≤ s.stop ∧ p.off ≤ s.stop ∧ b.lo ≤ p.off := by
  simp only [piece] at h
  split at h
  case isFalse => simp at h
  case isTrue hcond =>
      obtain rfl := Option.some.inj h
      simp only [fragment, Cr.stop] at *
      omega

lemma piece_stop_le {b : Buf} {s p : Cr} (h : piece k b s = some p) (hb : b.lo ≤ b.hi) :
    p.stop ≤ b.hi := by
  simp only [piece] at h
  split at h
  case isFalse => simp at h
  case isTrue hcond =>
      obtain rfl := Option.some.inj h
      simp only [fragment, Cr.stop] at *
      omega

/-- With the bases set for the buffer, a callback records the fragment it was given. -/
lemma place_callback {m : Message} {b : Buf} {e : Element} {cb : DataCb} (h : Hmsg)
    (he : e.span.stop ≤ m.bytes.length) (hcb : callback m b e = some cb) :
    some ({ h with curBuf := b.addr, curOff := b.lo }.place cb.ptr cb.bytes)
      = piece e.kind b e.span := by
  obtain ⟨p, hp, rfl⟩ := Option.map_eq_some_iff.mp hcb
  obtain ⟨hstop, hoff, -⟩ := piece_within hp
  have hfits := m.fits
  rw [hp]
  simp only [Hmsg.place, Option.some.injEq]
  rw [Hmsg.calcOffset_eq (n := p.off) (by simp only; omega) (by omega),
    Cr.length_slice (by omega)]

lemma callbacks_of_kind {m : Message} {b : Buf} (h : Hmsg) {es : List Element}
    (hes : ∀ e ∈ es, e.span.stop ≤ m.bytes.length) :
    ((es.filterMap (callback m b)).filter (·.kind = k)).map
        (fun cb => { h with curBuf := b.addr, curOff := b.lo }.place cb.ptr cb.bytes)
      = ((es.filter (·.kind = k)).map (·.span)).filterMap (piece k b) := by
  induction es with
  | nil => rfl
  | cons e es ih =>
      have ih' := ih fun e' he' => hes e' (List.mem_cons_of_mem _ he')
      rw [filterMap_cons_toList, List.filter_append, List.map_append, ih']
      have hkind : ∀ cb, callback m b e = some cb → cb.kind = e.kind := by
        intro cb hcb
        obtain ⟨p, -, rfl⟩ := Option.map_eq_some_iff.mp hcb
        rfl
      by_cases hk : e.kind = k
      · rw [List.filter_cons_of_pos (by simpa using hk), List.map_cons, filterMap_cons_toList]
        congr 1
        cases hcb : callback m b e with
        | none =>
            have hp := Option.map_eq_none_iff.mp hcb
            rw [hk] at hp
            rw [hp]
            rfl
        | some cb =>
            have hp := place_callback h (hes e List.mem_cons_self) hcb
            rw [hk] at hp
            rw [← hp]
            simp [hkind cb hcb, hk]
      · rw [List.filter_cons_of_neg (by simpa using hk)]
        cases hcb : callback m b e with
        | none => rfl
        | some cb => simp [hkind cb hcb, hk]

lemma execute_type (m : Message) (h : Hmsg) (b : Buf) : (execute m h b).type = h.type :=
  Hmsg.foldl_onData_type _ _

lemma Column.execute (hcol : Column col op k t) (m : Message) (b : Buf) {h : Hmsg}
    (ht : h.type = t) :
    col (execute m h b) = ((m.spans k).filterMap (piece k b)).foldl op (col h) := by
  rw [Is2.execute, hcol.foldl _ _ (by exact ht), callbacks_of_kind h m.within, hcol.bases]
  rfl

/-- Row by row or column by column: the fragments of one kind come in the order of the elements. -/
lemma pieces_comm (m : Message) (c : Cutting m.bytes.length) :
    c.bufs.flatMap (fun b => (m.spans k).filterMap (piece k b))
      = (m.spans k).flatMap fun s => c.bufs.filterMap (piece k · s) := by
  apply flatMap_filterMap_comm
  refine c.covers.pairwise.imp ?_
  intro b b' hbb
  have hsorted : (m.spans k).Pairwise fun s s' => s.stop ≤ s'.off :=
    List.pairwise_map.mpr (m.ordered.filter _)
  refine hsorted.imp ?_
  intro s s' hss
  by_cases h : s'.off < b.hi
  · right
    rw [piece, if_neg]
    omega
  · left
    rw [piece, if_neg (fun h' => h h'.1)]

/-- **A member of the record after parsing**, in terms of the fragments of its elements. -/
lemma Column.parse (hcol : Column col op k t) (m : Message) (c : Cutting m.bytes.length) :
    col (parse m t c) = ((m.spans k).flatMap fun s => c.bufs.filterMap (piece k · s)).foldl op
      (col (Hmsg.init t)) := by
  rw [← pieces_comm, Is2.parse]
  have ht : (Hmsg.init t).type = t := rfl
  generalize Hmsg.init t = h at ht
  generalize c.bufs = bs
  induction bs generalizing h with
  | nil => rfl
  | cons b bs ih =>
      rw [List.foldl_cons, ih _ (by rw [execute_type, ht]), hcol.execute m b ht,
        List.flatMap_cons, List.foldl_append]

end Column

/-! ## Lists of names and lists of values -/

/-- A shift inside the list goes unseen: no element is cut, and behind an element with a cut right
behind it there are only empty ones. -/
def Kept (bs : List Buf) (l : List Cr) : Prop :=
  (∀ s ∈ l, ¬ Split bs s) ∧ l.Pairwise fun s s' => Touched bs s → s'.len = 0

section Kept

variable {n : ℕ} {bs : List Buf} {k : DataKind} {bytes : List UInt8} {es : List Cr}

lemma kept_cons {s : Cr} {l : List Cr} :
    Kept bs (s :: l) ↔ ¬ Split bs s ∧ (Touched bs s → ∀ s' ∈ l, s'.len = 0) ∧ Kept bs l := by
  simp only [Kept, List.forall_mem_cons, List.pairwise_cons]
  constructor
  · rintro ⟨⟨h1, h2⟩, h3, h4⟩
    exact ⟨h1, fun ht s' hs' => h3 s' hs' ht, h2, h4⟩
  · rintro ⟨h1, h2, h3, h4⟩
    exact ⟨⟨h1, h3⟩, fun s' hs' ht => h2 ht s' hs', h4⟩

lemma kept_of_empty {l : List Cr} (h : ∀ s ∈ l, s.len = 0) : Kept bs l := by
  refine ⟨fun s hs hsp => not_touched_of_empty (h s hs) hsp.touched, ?_⟩
  exact List.pairwise_of_forall_mem_list fun s hs s' hs' _ => h s' hs'

lemma slice_ne_of_len {p s : Cr} (hp : p.stop ≤ bytes.length) (hs : s.stop ≤ bytes.length)
    (h : p.len ≠ s.len) : p.slice bytes ≠ s.slice bytes := by
  intro he
  have hlen := congrArg List.length he
  rw [Cr.length_slice hp, Cr.length_slice hs] at hlen
  exact h hlen

/-- One empty entry too many in front of the list: the first `j` entries stay what they were only
if they are all empty. -/
lemma take_shifted_iff (hc : Covers 0 n bs) (hk : k ≠ .body) (hn : n ≤ bytes.length)
    (hes : ∀ s ∈ es, s.stop < n) {j : ℕ} (hj : j ≤ es.length) :
    ([] :: (es.flatMap fun s => bs.filterMap (piece k · s)).map (·.slice bytes)).take j
        = (es.map (·.slice bytes)).take j ↔ ∀ s ∈ es.take j, s.len = 0 := by
  induction es generalizing j with
  | nil =>
      obtain rfl : j = 0 := by simpa using hj
      simp
  | cons s es ih =>
      cases j with
      | zero => simp
      | succ j =>
          have hstop := hes s List.mem_cons_self
          have hlen := Cr.length_slice (show s.stop ≤ bytes.length by omega)
          rw [List.take_succ_cons, List.map_cons, List.take_succ_cons, List.take_succ_cons,
            List.cons_eq_cons, List.forall_mem_cons]
          have hhead : [] = s.slice bytes ↔ s.len = 0 := by
            rw [← hlen, List.length_eq_zero_iff, eq_comm]
          rw [hhead]
          refine and_congr_right fun h0 => ?_
          rw [List.flatMap_cons, pieces_of_not_touched hc hstop hk (not_touched_of_empty h0),
            List.singleton_append, List.map_cons, hhead.mpr h0 |>.symm]
          exact ih (fun s' hs' => hes s' (List.mem_cons_of_mem _ hs')) (by simpa using hj)

/-- **The first `j` entries of a list of fragments** are the first `j` elements exactly when the
shift inside them goes unseen. -/
lemma take_pieces_iff (hc : Covers 0 n bs) (hk : k ≠ .body) (hn : n ≤ bytes.length)
    (hes : ∀ s ∈ es, s.stop < n) {j : ℕ} (hj : j ≤ es.length) :
    ((es.flatMap fun s => bs.filterMap (piece k · s)).map (·.slice bytes)).take j
        = (es.map (·.slice bytes)).take j ↔ Kept bs (es.take j) := by
  induction es generalizing j with
  | nil => simp [Kept]
  | cons s es ih =>
      cases j with
      | zero => simp [Kept]
      | succ j =>
          have hstop := hes s List.mem_cons_self
          have hes' : ∀ s' ∈ es, s'.stop < n := fun s' hs' => hes s' (List.mem_cons_of_mem _ hs')
          have hj' : j ≤ es.length := by simpa using hj
          rw [List.take_succ_cons, kept_cons, List.flatMap_cons]
          by_cases ht : Touched bs s
          · by_cases hs : Split bs s
            · -- the first fragment is too short
              obtain ⟨p, rest, he, hlt⟩ := pieces_of_split hc hstop hk hs
              have hp : p.stop ≤ s.stop := by
                have hmem : p ∈ bs.filterMap (piece k · s) := by rw [he]; exact List.mem_cons_self
                obtain ⟨b, -, hb⟩ := List.mem_filterMap.mp hmem
                exact (piece_within hb).1
              have hne := slice_ne_of_len (show p.stop ≤ bytes.length by omega)
                (show s.stop ≤ bytes.length by omega) hlt.ne
              rw [he]
              simp [hne, hs]
            · -- an empty fragment follows
              rw [pieces_of_edge hc hstop hk ht hs]
              have hempty : Cr.slice ⟨s.stop, 0⟩ bytes = [] := by simp [Cr.slice]
              simp only [List.cons_append, List.nil_append, List.map_cons, List.take_succ_cons,
                List.cons.injEq, true_and, hempty, take_shifted_iff hc hk hn hes' hj', hs,
                not_false_eq_true, ht, forall_const]
              exact ⟨fun h => ⟨h, kept_of_empty h⟩, fun h => h.1⟩
          · rw [pieces_of_not_touched hc hstop hk ht]
            have hs : ¬ Split bs s := fun h => ht h.touched
            simp only [List.cons_append, List.nil_append, List.map_cons, List.take_succ_cons,
              List.cons.injEq, true_and, ih hes' hj', hs, not_false_eq_true, ht, false_implies]

/-- No entry is lost, and none is added exactly when no buffer starts in an element. -/
lemma length_flatMap_pieces (hc : Covers 0 n bs) (hk : k ≠ .body) (hes : ∀ s ∈ es, s.stop < n) :
    es.length ≤ (es.flatMap fun s => bs.filterMap (piece k · s)).length ∧
      ((es.flatMap fun s => bs.filterMap (piece k · s)).length = es.length ↔
        ∀ s ∈ es, ¬ Touched bs s) := by
  induction es with
  | nil => simp
  | cons s es ih =>
      obtain ⟨h1, h2⟩ := length_pieces hc (hes s List.mem_cons_self) hk
      obtain ⟨h3, h4⟩ := ih fun s' hs' => hes s' (List.mem_cons_of_mem _ hs')
      rw [List.flatMap_cons, List.length_append, List.length_cons, List.forall_mem_cons, ← h2, ← h4]
      omega

end Kept

/-! ## The record of a message -/

/-- What a handler sees of the uncut message. -/
def Message.whole (m : Message) (t : HmsgType) : Seen where
  url := if t = .rqst then (m.spans .url).flatMap (·.slice m.bytes) else []
  headers := ((m.spans .headerField).map (·.slice m.bytes)).zip
    ((m.spans .headerValue).map (·.slice m.bytes))
  body := (m.spans .body).foldl bodyAdd ⟨0, 0⟩

/-- No buffer starts inside the URL or right behind it; the shifts inside the paired names and
inside the paired values go unseen; and one of the two lists, the shorter one, does not grow. -/
def CleanAt (m : Message) (t : HmsgType) (bufs : List Buf) : Prop :=
  let names := m.spans .headerField
  let values := m.spans .headerValue
  (t = .rqst → ∀ s ∈ m.spans .url, ¬ Touched bufs s) ∧
  Kept bufs (names.take (min names.length values.length)) ∧
  Kept bufs (values.take (min names.length values.length)) ∧
  ((names.length ≤ values.length ∧ ∀ s ∈ names, ¬ Touched bufs s) ∨
    (values.length ≤ names.length ∧ ∀ s ∈ values, ¬ Touched bufs s))

/-- **The cuttings that go unseen.** -/
def Clean (m : Message) (t : HmsgType) (c : Cutting m.bytes.length) : Prop := CleanAt m t c.bufs

/-- A message in one buffer is not cut. -/
lemma cleanAt_one (m : Message) (t : HmsgType) (addr : ℤ) (hi : ℕ) :
    CleanAt m t [⟨addr, 0, hi⟩] := by
  have hno : ∀ s, ¬ Touched [⟨addr, 0, hi⟩] s := by
    rintro s ⟨b, hb, hlt, -⟩
    rw [List.mem_singleton.mp hb] at hlt
    exact Nat.not_lt_zero _ hlt
  have hkept : ∀ l, Kept [⟨addr, 0, hi⟩] l := fun l =>
    ⟨fun s _ h => hno s h.touched, List.pairwise_of_forall fun s _ h => absurd h (hno s)⟩
  refine ⟨fun _ s _ => hno s, hkept _, hkept _, ?_⟩
  rcases Nat.le_total (m.spans .headerField).length (m.spans .headerValue).length with hle | hle
  · exact .inl ⟨hle, fun s _ => hno s⟩
  · exact .inr ⟨hle, fun s _ => hno s⟩

instance (bs : List Buf) (s : Cr) : Decidable (Touched bs s) :=
  inferInstanceAs (Decidable (∃ b ∈ bs, _ ∧ _))

instance (bs : List Buf) (l : List Cr) : Decidable (Kept bs l) :=
  inferInstanceAs (Decidable ((∀ s ∈ l, ¬ ∃ b ∈ bs, s.off < b.lo ∧ b.lo < s.stop) ∧
    l.Pairwise fun s s' => Touched bs s → s'.len = 0))

instance (m : Message) (t : HmsgType) (bufs : List Buf) : Decidable (CleanAt m t bufs) :=
  inferInstanceAs (Decidable (_ ∧ _ ∧ _ ∧ _))

instance (m : Message) (t : HmsgType) (c : Cutting m.bytes.length) : Decidable (Clean m t c) :=
  inferInstanceAs (Decidable (CleanAt m t c.bufs))

section Record

variable {m : Message} {t : HmsgType} {k : DataKind} {c : Cutting m.bytes.length}

lemma Message.mem_spans {s : Cr} (h : s ∈ m.spans k) :
    ∃ e ∈ m.elements, e.kind = k ∧ e.span = s := by
  obtain ⟨e, he, rfl⟩ := List.mem_map.mp h
  obtain ⟨hm, hk⟩ := List.mem_filter.mp he
  exact ⟨e, hm, by simpa using hk, rfl⟩

lemma Message.spans_stop_lt (hk : k ≠ .body) : ∀ s ∈ m.spans k, s.stop < m.bytes.length := by
  intro s hs
  obtain ⟨e, he, rfl, rfl⟩ := m.mem_spans hs
  exact m.delimited e he hk

/-- The fragments of the elements of one kind. -/
def pieces (m : Message) (c : Cutting m.bytes.length) (k : DataKind) : List Cr :=
  (m.spans k).flatMap fun s => c.bufs.filterMap (piece k · s)

lemma pieces_within : ∀ p ∈ pieces m c k, p.stop ≤ m.bytes.length := by
  intro p hp
  obtain ⟨s, hs, hp⟩ := List.mem_flatMap.mp hp
  obtain ⟨b, -, hb⟩ := List.mem_filterMap.mp hp
  obtain ⟨e, he, rfl, rfl⟩ := m.mem_spans hs
  exact le_trans (piece_within hb).1 (m.within e he)

lemma foldl_replace (l : List Cr) (x : Cr) : l.foldl (fun _ p => p) x = l.getLastD x := by
  induction l generalizing x with
  | nil => rfl
  | cons p l ih => rw [List.foldl_cons, ih, List.getLastD_cons]

lemma parse_keys : (parse m t c).pHListKey = pieces m c .headerField := by
  rw [(column_keys t).parse, List.foldl_append_eq_append, ← List.flatMap_def,
    List.flatMap_singleton']
  rfl

lemma parse_vals : (parse m t c).pHListVal = pieces m c .headerValue := by
  rw [(column_vals t).parse, List.foldl_append_eq_append, ← List.flatMap_def,
    List.flatMap_singleton']
  rfl

lemma parse_headerList : (parse m t c).headerList = none := by
  rw [(column_headerList t).parse, List.foldl_fixed]
  rfl

/-- The body range does not depend on the cutting. -/
lemma parse_body : (parse m t c).pBody = (m.whole t).body := by
  rw [(column_body t).parse, List.foldl_flatMap, Message.whole]
  refine List.foldl_ext _ _ _ ?_
  intro cur s hs
  obtain ⟨e, he, hk, rfl⟩ := m.mem_spans hs
  exact bodyAdd_pieces c.covers (Nat.zero_le _) (m.within e he)
    (m.nonempty e he (by simp [hk]) (by simp [hk])) (m.bodyLater e he hk) cur

lemma slice_of_len_zero {p : Cr} {bytes : List UInt8} (h : p.len = 0) : p.slice bytes = [] := by
  simp [Cr.slice, h]

/-- The recorded URL is the URL exactly when no buffer starts in it. -/
lemma parse_url : (parse m t c).pUrl.stop ≤ m.bytes.length ∧
    ((parse m t c).pUrl.slice m.bytes = (m.whole t).url ↔
      (t = .rqst → ∀ s ∈ m.spans .url, ¬ Touched c.bufs s)) := by
  by_cases ht : t = .rqst
  · subst ht
    rw [column_url.parse, foldl_replace]
    have hone : (m.spans .url).length ≤ 1 := by
      rw [Message.spans, List.length_map]
      exact m.oneUrl
    have hurl : (m.whole .rqst).url = (m.spans .url).flatMap (·.slice m.bytes) := rfl
    rw [hurl]
    have hpieces := pieces_within (m := m) (c := c) (k := .url)
    have hlt := m.spans_stop_lt (k := .url) (by decide)
    rw [pieces] at hpieces
    match hu : m.spans .url, hone with
    | [], _ => simp [Hmsg.init, Cr.stop, Cr.slice]
    | [s], _ =>
        rw [hu] at hpieces hlt
        have hs := hlt s List.mem_cons_self
        simp only [List.flatMap_cons, List.flatMap_nil, List.append_nil, List.mem_singleton,
          forall_eq, forall_const] at hpieces ⊢
        by_cases htouch : Touched c.bufs s
        · have hne : c.bufs.filterMap (piece .url · s) ≠ [] := by
            intro h0
            have := (length_pieces (k := .url) c.covers hs (by decide)).1
            rw [h0] at this
            simp at this
          rw [List.getLastD_eq_getLast?, List.getLast?_eq_getLast_of_ne_nil hne, Option.getD_some]
          have hmem := hpieces _ (List.getLast_mem hne)
          refine ⟨hmem, iff_of_false ?_ (by simpa using htouch)⟩
          exact slice_ne_of_len hmem (by omega)
            (getLast_pieces c.covers hs (by decide) htouch hne).ne
        · rw [pieces_of_not_touched c.covers hs (by decide) htouch]
          simp [htouch, hs.le]
  · rw [(column_no_url ht).parse, List.foldl_fixed]
    refine ⟨Nat.zero_le _, ?_⟩
    simp [Hmsg.init, Cr.slice, Message.whole, ht]

/-- The header list is that of the uncut message exactly under the last three conditions of
`Clean`. -/
lemma zip_pieces_iff {names values : List Cr} (hnames : names = m.spans .headerField)
    (hvalues : values = m.spans .headerValue) :
    ((pieces m c .headerField).map (·.slice m.bytes)).zip
          ((pieces m c .headerValue).map (·.slice m.bytes)) = (m.whole t).headers ↔
      Kept c.bufs (names.take (min names.length values.length)) ∧
      Kept c.bufs (values.take (min names.length values.length)) ∧
      ((names.length ≤ values.length ∧ ∀ s ∈ names, ¬ Touched c.bufs s) ∨
        (values.length ≤ names.length ∧ ∀ s ∈ values, ¬ Touched c.bufs s)) := by
  subst hnames hvalues
  have hn := m.spans_stop_lt (k := .headerField) (by decide)
  have hv := m.spans_stop_lt (k := .headerValue) (by decide)
  obtain ⟨hnl, hnt⟩ := length_flatMap_pieces (k := .headerField) c.covers (by decide) hn
  obtain ⟨hvl, hvt⟩ := length_flatMap_pieces (k := .headerValue) c.covers (by decide) hv
  rw [Message.whole, zip_eq_zip_iff (by rw [List.length_map, List.length_map]; exact hnl)
    (by rw [List.length_map, List.length_map]; exact hvl)]
  simp only [List.length_map, pieces]
  rw [take_pieces_iff c.covers (by decide) (le_refl _) hn (min_le_left _ _),
    take_pieces_iff c.covers (by decide) (le_refl _) hv (min_le_right _ _), ← hnt, ← hvt]
  refine and_congr_right fun _ => and_congr_right fun _ => ?_
  omega

lemma seen_parse {q : Nbq} {a : SeekQueue UInt8} (hq : Nbq.Rep q a) (ha : a.contents = m.bytes) :
    (parse m t c).seen q = some
      { url := (parse m t c).pUrl.slice m.bytes
        headers := ((pieces m c .headerField).map (·.slice m.bytes)).zip
          ((pieces m c .headerValue).map (·.slice m.bytes))
        body := (m.whole t).body } := by
  obtain ⟨q₁, a₁, he₁, h₁, hc₁⟩ : ∃ q₁ a₁, (parse m t c).getUrl q
      = some (q₁, (parse m t c).pUrl.slice m.bytes) ∧ Nbq.Rep q₁ a₁ ∧ a₁.contents = m.bytes := by
    unfold Hmsg.getUrl
    split_ifs with h0
    · exact ⟨q, a, by rw [slice_of_len_zero h0], hq, ha⟩
    · obtain ⟨q₁, a₁, he, h, hc⟩ := hq.copyPart (c := (parse m t c).pUrl)
        (by rw [ha]; exact parse_url.1)
      exact ⟨q₁, a₁, by rw [he, ha], h, by rw [hc, ha]⟩
  have hwithin : ∀ k, ∀ p ∈ pieces m c k, p.stop ≤ a₁.contents.length := by
    intro k
    rw [hc₁]
    exact pieces_within
  obtain ⟨q₂, a₂, he₂, -, -⟩ := h₁.headerLoop (hwithin .headerField) (hwithin .headerValue)
  rw [hc₁] at he₂
  simp [Hmsg.seen, he₁, Hmsg.getHeaderList, parse_headerList, he₂, parse_body, parse_keys,
    parse_vals]

/-- The handler sees the uncut message exactly when the cutting is clean. -/
lemma seen_parse_eq_whole_iff {q : Nbq} {a : SeekQueue UInt8} (hq : Nbq.Rep q a)
    (ha : a.contents = m.bytes) : (parse m t c).seen q = some (m.whole t) ↔ Clean m t c := by
  rw [seen_parse hq ha, Clean, CleanAt, ← parse_url.2, ← zip_pieces_iff rfl rfl, Option.some.injEq]
  constructor
  · intro h
    exact ⟨congrArg Seen.url h, congrArg Seen.headers h⟩
  · rintro ⟨h1, h2⟩
    rw [h1, h2]

end Record

/-- **Two cuttings of one message.**  If one of them is clean, the handler sees the same URL, the
same header list and the same body range exactly when the other one is clean, too. -/
theorem seen_eq_iff_clean (m : Message) (t : HmsgType) (q : Nbq) (a : SeekQueue UInt8)
    (hq : Nbq.Rep q a) (ha : a.contents = m.bytes) (c₁ c₂ : Cutting m.bytes.length)
    (hc : Clean m t c₂) :
    (parse m t c₁).seen q = (parse m t c₂).seen q ↔ Clean m t c₁ := by
  rw [(seen_parse_eq_whole_iff hq ha).mpr hc]
  exact seen_parse_eq_whole_iff hq ha

/-- `GET /ab HTTP/1.1` with the header `Host: x`. -/
def getAb : Message where
  bytes := [71, 69, 84, 32, 47, 97, 98, 32, 72, 84, 84, 80, 47, 49, 46, 49, 13, 10,
    72, 111, 115, 116, 58, 32, 120, 13, 10, 13, 10]
  elements := [⟨.url, ⟨4, 3⟩⟩, ⟨.headerField, ⟨18, 4⟩⟩, ⟨.headerValue, ⟨24, 1⟩⟩]
  fits := by decide
  ordered := by decide
  oneUrl := by decide
  within := by decide
  delimited := by decide
  nonempty := by decide
  bodyLater := by decide

def getAb.oneBuffer : Cutting getAb.bytes.length where
  bufs := [⟨0, 0, 29⟩]
  covers := by simp [Covers, getAb]

/-- Two buffers, the second one from `p` on. -/
def getAb.cutAt (p : ℕ) (h0 : 0 < p) (h : p < 29) : Cutting getAb.bytes.length where
  bufs := [⟨0, 0, p⟩, ⟨4096, p, 29⟩]
  covers := by simp [Covers, getAb, h0, h]

/-- A cut in the protocol version and right behind the last header value. -/
theorem seen_eq_iff_clean_getAb : ∃ q, Nbq.Rep q ⟨getAb.bytes, 0, Nat.zero_le _⟩ ∧
    (parse getAb .rqst (getAb.cutAt 10 (by decide) (by decide))).seen q
      = (parse getAb .rqst (getAb.cutAt 25 (by decide) (by decide))).seen q := by
  obtain ⟨q, -, hq⟩ := (Nbq.rep_init (show 0 < 64 by decide) (by decide)).write getAb.bytes
  refine ⟨q, hq, (seen_eq_iff_clean getAb .rqst q _ hq rfl _ _ ?_).mpr ?_⟩
  · decide
  · decide

/-- A cut in the URL: the handler sees `b` instead of `/ab`. -/
theorem cut_in_url_is_seen :
    ∃ q, ((Nbq.init 64).write (some getAb.bytes)) = some (q, 29) ∧
      (parse getAb .rqst (getAb.cutAt 6 (by decide) (by decide))).seen q
        = some ⟨[98], [([72, 111, 115, 116], [120])], ⟨0, 0⟩⟩ ∧
      (parse getAb .rqst getAb.oneBuffer).seen q
        = some ⟨[47, 97, 98], [([72, 111, 115, 116], [120])], ⟨0, 0⟩⟩ ∧
      (parse getAb .rqst (getAb.cutAt 6 (by decide) (by decide))).seen q
        ≠ (parse getAb .rqst getAb.oneBuffer).seen q := by
  refine ⟨_, rfl, ?_, ?_, ?_⟩ <;> decide

end Is2
