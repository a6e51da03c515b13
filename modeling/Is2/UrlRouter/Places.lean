import Is2.UrlRouter.Cuts

/-!
# Where an offset falls, and what `pattern_sub` makes of it

`Cuts` says where `pattern_sub` cuts right.  Here is what it does at every offset into a pattern,
token by token (`place`):

* between two tokens, or in front of the closing bracket of a parameter: the cut is there, but the
  tokens that follow and have no character, a terminal or nameless parameters, are dropped;
* inside the name of a parameter: each side gets a parameter, with a part of the name.

The front is `patternSub_place_front`, the back `patternSub_place_back`.  Both are of patterns in
which a terminal is last, as it is in all patterns of routes; these are `Shaped`.
-/

namespace Is2

namespace UrlRouter

/-! ## Places -/

/-- What is on both sides of an offset. -/
inductive Place where
  /-- The cut is between two tokens.  The tokens in the middle are dropped. -/
  | between (front dropped back : List (Tok UInt8))
  /-- The cut is inside the name of a parameter. -/
  | inside (front : List (Tok UInt8)) (left right : Str) (back : List (Tok UInt8))
  deriving DecidableEq

/-- The tokens in front of the cut. -/
def Place.front : Place → List (Tok UInt8)
  | .between front _ _ => front
  | .inside front left _ _ => front ++ [.run left]

/-- The tokens behind the cut. -/
def Place.back : Place → List (Tok UInt8)
  | .between _ _ back => back
  | .inside _ _ right back => .run right :: back

/-- The tokens that were cut. -/
def Place.whole : Place → List (Tok UInt8)
  | .between front dropped back => front ++ (dropped ++ back)
  | .inside front left right back => front ++ .run (left ++ right) :: back

/-- The place with a token in front. -/
def Place.cons (t : Tok UInt8) : Place → Place
  | .between front dropped back => .between (t :: front) dropped back
  | .inside front left right back => .inside (t :: front) left right back

/-- The cut in front of all tokens. -/
def Place.start (ts : List (Tok UInt8)) : Place :=
  .between [] (ts.takeWhile bare) (ts.dropWhile bare)

/-- **Where an offset falls.** -/
def place : List (Tok UInt8) → ℕ → Place
  | ts, 0 => .start ts
  | [], _ + 1 => .start []
  | .lit c :: ts, n + 1 => (place ts n).cons (.lit c)
  | .rest :: ts, n + 1 => (place ts n).cons .rest
  | .run name :: ts, n + 1 =>
    if name.length < n then (place ts (n - (1 + name.length))).cons (.run name)
    else if n < name.length then .inside [] (name.take n) (name.drop n) ts
    else (Place.start ts).cons (.run name)

@[simp] lemma Place.front_cons (t : Tok UInt8) (c : Place) : (c.cons t).front = t :: c.front := by
  cases c <;> rfl

@[simp] lemma Place.back_cons (t : Tok UInt8) (c : Place) : (c.cons t).back = c.back := by
  cases c <;> rfl

@[simp] lemma Place.whole_cons (t : Tok UInt8) (c : Place) : (c.cons t).whole = t :: c.whole := by
  cases c <;> rfl

@[simp] lemma Place.front_start (ts : List (Tok UInt8)) : (Place.start ts).front = [] := rfl

@[simp] lemma Place.back_start (ts : List (Tok UInt8)) :
    (Place.start ts).back = ts.dropWhile bare := rfl

@[simp] lemma Place.whole_start (ts : List (Tok UInt8)) : (Place.start ts).whole = ts := by
  simp [Place.start, Place.whole]

lemma place_zero (ts : List (Tok UInt8)) : place ts 0 = .start ts := by
  cases ts <;> rfl

lemma place_nil (n : ℕ) : place [] n = .start [] := by
  cases n <;> rfl

/-- Where the cut is, or what is dropped there, are all the tokens. -/
lemma whole_place (ts : List (Tok UInt8)) (n : ℕ) : (place ts n).whole = ts := by
  induction ts, n using place.induct with
  | case1 ts => rw [place_zero, Place.whole_start]
  | case2 n => rfl
  | case3 c ts n ih => rw [place, Place.whole_cons, ih]
  | case4 ts n ih => rw [place, Place.whole_cons, ih]
  | case5 name ts n h ih => rw [place, if_pos h, Place.whole_cons, ih]
  | case6 name ts n h h' =>
      rw [place, if_neg h, if_pos h']
      simp [Place.whole]
  | case7 name ts n h h' => rw [place, if_neg h, if_neg h', Place.whole_cons, Place.whole_start]

/-- How much length `pattern_sub` needs for the back. -/
def Place.need : Place → ℕ
  | .between _ _ back => weight width back
  | .inside _ _ right back => 1 + right.length + weight width back

@[simp] lemma Place.need_cons (t : Tok UInt8) (c : Place) : (c.cons t).need = c.need := by
  cases c <;> rfl

lemma Place.eq_of_cons_inside {t : Tok UInt8} {c : Place} {front back : List (Tok UInt8)}
    {left right : Str} (h : c.cons t = .inside front left right back) :
    ∃ front', c = .inside front' left right back := by
  cases c with
  | between => cases h
  | inside front' left' right' back' =>
      cases h
      exact ⟨front', rfl⟩

/-- The second half of a name that is cut is not empty. -/
lemma place_right_ne_nil {ts : List (Tok UInt8)} {n : ℕ} {front back : List (Tok UInt8)}
    {left right : Str} (h : place ts n = .inside front left right back) : right ≠ [] := by
  induction ts, n using place.induct generalizing front with
  | case1 ts => rw [place_zero] at h; cases h
  | case2 n => cases h
  | case3 c ts n ih =>
      obtain ⟨front', h⟩ := Place.eq_of_cons_inside h
      exact ih h
  | case4 ts n ih =>
      obtain ⟨front', h⟩ := Place.eq_of_cons_inside h
      exact ih h
  | case5 name ts n hn ih =>
      rw [place, if_pos hn] at h
      obtain ⟨front', h⟩ := Place.eq_of_cons_inside h
      exact ih h
  | case6 name ts n hn hn' =>
      rw [place, if_neg hn, if_pos hn'] at h
      cases h
      rw [ne_eq, List.drop_eq_nil_iff]
      exact Nat.not_le_of_lt hn'
  | case7 name ts n hn hn' =>
      rw [place, if_neg hn, if_neg hn'] at h
      cases h

lemma Place.eq_of_cons_between {t : Tok UInt8} {c : Place} {front dropped back : List (Tok UInt8)}
    (h : c.cons t = .between front dropped back) : ∃ front', c = .between front' dropped back := by
  cases c with
  | inside => cases h
  | between front' dropped' back' =>
      cases h
      exact ⟨front', rfl⟩

/-- What is dropped are the tokens without a character. -/
lemma place_dropped {ts : List (Tok UInt8)} {n : ℕ} {front dropped back : List (Tok UInt8)}
    (h : place ts n = .between front dropped back) :
    ∃ us : List (Tok UInt8), dropped = us.takeWhile bare ∧ back = us.dropWhile bare := by
  have hstart : ∀ {us front}, Place.start us = .between front dropped back →
      ∃ us : List (Tok UInt8), dropped = us.takeWhile bare ∧ back = us.dropWhile bare := by
    intro us front h
    cases h
    exact ⟨us, rfl, rfl⟩
  induction ts, n using place.induct generalizing front with
  | case1 ts => exact hstart ((place_zero ts).symm.trans h)
  | case2 n => exact hstart h
  | case3 c ts n ih =>
      obtain ⟨front', h⟩ := Place.eq_of_cons_between h
      exact ih h
  | case4 ts n ih =>
      obtain ⟨front', h⟩ := Place.eq_of_cons_between h
      exact ih h
  | case5 name ts n hn ih =>
      rw [place, if_pos hn] at h
      obtain ⟨front', h⟩ := Place.eq_of_cons_between h
      exact ih h
  | case6 name ts n hn hn' =>
      rw [place, if_neg hn, if_pos hn'] at h
      cases h
  | case7 name ts n hn hn' =>
      rw [place, if_neg hn, if_neg hn'] at h
      obtain ⟨front', h⟩ := Place.eq_of_cons_between h
      exact hstart h

/-- Literals that fit are in front of the cut. -/
lemma place_lits {str : Str} {n : ℕ} (h : str.length ≤ n) (ts : List (Tok UInt8)) :
    (place (str.map .lit ++ ts) n).front = str.map .lit ++ (place ts (n - str.length)).front ∧
      (place (str.map .lit ++ ts) n).back = (place ts (n - str.length)).back ∧
      (place (str.map .lit ++ ts) n).need = (place ts (n - str.length)).need := by
  induction str generalizing n with
  | nil => exact ⟨rfl, rfl, rfl⟩
  | cons c str ih =>
      rw [List.length_cons] at h
      obtain ⟨n, rfl⟩ := Nat.exists_eq_succ_of_ne_zero (by omega : n ≠ 0)
      obtain ⟨hfront, hback, hneed⟩ := ih (n := n) (by omega)
      rw [List.map_cons, List.cons_append, place, Place.front_cons, Place.back_cons,
        Place.need_cons, hfront, hback, hneed, List.length_cons, Nat.succ_sub_succ]
      exact ⟨rfl, rfl, rfl⟩

/-- A cut in front of a literal drops nothing. -/
lemma place_in_lits {str : Str} {n : ℕ} (h : n < str.length) (ts : List (Tok UInt8)) :
    place (str.map .lit ++ ts) n =
      .between ((str.take n).map .lit) [] ((str.drop n).map .lit ++ ts) := by
  induction str generalizing n with
  | nil => cases h
  | cons c str ih =>
      cases n with
      | zero => rfl
      | succ n =>
          rw [List.map_cons, List.cons_append, place, ih (Nat.lt_of_succ_lt_succ h)]
          rfl

/-- A cut in front of a name, or inside it. -/
lemma place_in_run {name : Str} {n : ℕ} (h : n - 1 < name.length) (ts : List (Tok UInt8)) :
    (place (.run name :: ts) n).back = .run (name.drop (n - 1)) :: ts ∧
      1 + (name.length - (n - 1)) + weight width ts ≤ (place (.run name :: ts) n).need := by
  cases n with
  | zero =>
      obtain ⟨c, name, rfl⟩ := List.exists_cons_of_length_pos (Nat.zero_lt_of_lt h)
      refine ⟨rfl, ?_⟩
      change _ ≤ weight width (.run (c :: name) :: ts)
      rw [weight_cons, width]
      omega
  | succ n =>
      have hin : n < name.length := h
      have hout : ¬ name.length < n := by omega
      rw [place, if_neg hout, if_pos hin]
      refine ⟨rfl, ?_⟩
      rw [Place.need, List.length_drop, Nat.add_sub_cancel]

/-- A cut behind a name. -/
lemma place_behind_run {name : Str} {n : ℕ} (h : name.length ≤ n - 1) (ts : List (Tok UInt8)) :
    (place (.run name :: ts) n).back = (place ts (n - (name.length + 2))).back ∧
      (place (.run name :: ts) n).need = (place ts (n - (name.length + 2))).need := by
  cases n with
  | zero =>
      obtain rfl : name = [] := List.eq_nil_of_length_eq_zero (Nat.le_zero.mp h)
      rw [Nat.zero_sub, place_zero, place_zero]
      exact ⟨rfl, rfl⟩
  | succ n =>
      rw [Nat.add_sub_cancel] at h
      rw [place]
      split_ifs with hfits hin
      · rw [Place.back_cons, Place.need_cons, Nat.add_comm 1, Nat.succ_sub_succ]
        exact ⟨rfl, rfl⟩
      · omega
      · have hzero : n + 1 - (name.length + 2) = 0 := by omega
        rw [Place.back_cons, Place.need_cons, hzero, place_zero]
        exact ⟨rfl, rfl⟩

/-! ## Patterns of routes -/

/-- **A terminal is last**, and a parameter is followed by a slash, by a terminal, or by nothing. -/
def Shaped : List (Tok UInt8) → Prop
  | [] => True
  | .lit _ :: ts => Shaped ts
  | .run _ :: ts => (∀ t ∈ ts.head?, t = .lit slash ∨ t = .rest) ∧ Shaped ts
  | .rest :: ts => ts = []

lemma Shaped.tail {t : Tok UInt8} {ts : List (Tok UInt8)} (h : Shaped (t :: ts)) : Shaped ts := by
  cases t with
  | lit c => exact h
  | run name => exact h.2
  | rest =>
      obtain rfl : ts = [] := h
      trivial

lemma Shaped.append_right {us ts : List (Tok UInt8)} (h : Shaped (us ++ ts)) : Shaped ts := by
  induction us with
  | nil => exact h
  | cons u us ih => exact ih h.tail

lemma shaped_lits_append {str : Str} {ts : List (Tok UInt8)} :
    Shaped (str.map .lit ++ ts) ↔ Shaped ts := by
  induction str with
  | nil => rfl
  | cons c str ih => exact ih

/-- The part that is being read is the first one of the result. -/
lemma convertFrom_head {prev : UInt8} {cs : Str} {c : UInt8} {str : Str} {pattern : Pattern}
    (h : convertFrom prev cs (.string (c :: str)) = some pattern) :
    ∃ str' xs, pattern = .string (c :: str') :: xs := by
  induction cs generalizing prev str with
  | nil =>
      simp only [convertFrom, Part.type, Part.str] at h
      exact ⟨str, [], (Option.some.inj h).symm⟩
  | cons x cs ih =>
      rw [convertFrom] at h
      simp only [Part.type, Part.str, Part.withStr, List.cons_append, ne_eq, reduceCtorEq,
        not_false_eq_true, true_or, if_true, false_or] at h
      split_ifs at h
      · obtain ⟨xs, -, rfl⟩ := Option.map_eq_some_iff.mp h
        exact ⟨str, xs, rfl⟩
      · obtain rfl := Option.some.inj h
        exact ⟨str, [.terminal], rfl⟩
      · exact ih h

/-- A route is read into a shaped pattern. -/
lemma shaped_convertFrom {prev : UInt8} {cs : Str} {part : Part} {pattern : Pattern}
    (hpart : part ≠ .terminal) (h : convertFrom prev cs part = some pattern) :
    Shaped (toks pattern) := by
  induction cs generalizing prev part pattern with
  | nil =>
      rw [convertFrom] at h
      split_ifs at h with htype hstr
      · obtain rfl := Option.some.inj h
        trivial
      · obtain rfl := Option.some.inj h
        cases part with
        | string str => exact shaped_lits_append.mpr trivial
        | parameter name => exact absurd rfl htype
        | terminal => exact absurd rfl hpart
  | cons c cs ih =>
      rw [convertFrom] at h
      split_ifs at h with hopen hbad hclose hbad' hstar
      · obtain ⟨xs, hxs, rfl⟩ := Option.map_eq_some_iff.mp h
        cases part with
        | string str => exact shaped_lits_append.mpr (ih (by simp) hxs)
        | parameter name => exact absurd (.inl rfl) hbad
        | terminal => exact absurd rfl hpart
      · obtain ⟨xs, hxs, rfl⟩ := Option.map_eq_some_iff.mp h
        cases part with
        | string str => exact absurd (.inl (by simp [Part.type])) hbad'
        | parameter name =>
            refine ⟨fun t ht => .inl ?_, ih (by simp) hxs⟩
            have hcs : cs = [] ∨ cs.head? = some slash := by
              by_contra hne
              exact hbad' (.inr (not_or.mp hne))
            rcases hcs with rfl | hcs
            · obtain rfl := Option.some.inj hxs
              cases ht
            · obtain ⟨cs, rfl⟩ : ∃ cs', cs = slash :: cs' :=
                ⟨cs.tail, List.eq_cons_of_mem_head? hcs⟩
              rw [convertFrom, if_neg (by decide), if_neg (by decide), if_neg (by decide)] at hxs
              obtain ⟨str, ys, rfl⟩ := convertFrom_head hxs
              exact (Option.some.inj ht).symm
        | terminal => exact absurd rfl hpart
      · obtain rfl := Option.some.inj h
        cases part with
        | string str => exact shaped_lits_append.mpr rfl
        | parameter name => exact ⟨by simp [Part.toks], rfl⟩
        | terminal => exact absurd rfl hpart
      · refine ih ?_ h
        cases part <;> simp_all [Part.withStr]

/-- The front begins as the tokens do; a parameter may have another name. -/
lemma head_front_place {ts : List (Tok UInt8)} {n : ℕ} {t : Tok UInt8}
    (h : t ∈ (place ts n).front.head?) :
    t ∈ ts.head? ∨ ∃ name, .run name ∈ ts.head? := by
  cases n with
  | zero =>
      rw [place_zero] at h
      cases h
  | succ n =>
      cases ts with
      | nil => cases h
      | cons u ts =>
          cases u with
          | lit c =>
              rw [place, Place.front_cons] at h
              exact .inl h
          | rest =>
              rw [place, Place.front_cons] at h
              exact .inl h
          | run name => exact .inr ⟨name, rfl⟩

lemma Shaped.front_place {ts : List (Tok UInt8)} (h : Shaped ts) (n : ℕ) :
    Shaped (place ts n).front := by
  induction ts, n using place.induct with
  | case1 ts => rw [place_zero]; trivial
  | case2 n => trivial
  | case3 c ts n ih =>
      rw [place, Place.front_cons]
      exact ih h
  | case4 ts n ih =>
      obtain rfl : ts = [] := h
      rw [place, place_nil]
      exact rfl
  | case5 name ts n hn ih =>
      rw [place, if_pos hn, Place.front_cons]
      refine ⟨fun t ht => ?_, ih h.2⟩
      rcases head_front_place ht with ht | ⟨name', hrun⟩
      · exact h.1 t ht
      · rcases h.1 _ hrun with he | he <;> cases he
  | case6 name ts n hn hn' =>
      rw [place, if_neg hn, if_pos hn']
      exact ⟨by simp, trivial⟩
  | case7 name ts n hn hn' =>
      rw [place, if_neg hn, if_neg hn']
      exact ⟨by simp, trivial⟩

lemma Shaped.back_start {ts : List (Tok UInt8)} (h : Shaped ts) : Shaped (ts.dropWhile bare) := by
  obtain ⟨us, hus⟩ := List.dropWhile_suffix bare (l := ts)
  rw [← hus] at h
  exact h.append_right

lemma Shaped.back_place {ts : List (Tok UInt8)} (h : Shaped ts) (n : ℕ) :
    Shaped (place ts n).back := by
  induction ts, n using place.induct with
  | case1 ts => rw [place_zero]; exact h.back_start
  | case2 n => trivial
  | case3 c ts n ih =>
      rw [place, Place.back_cons]
      exact ih h
  | case4 ts n ih =>
      rw [place, Place.back_cons]
      exact ih h.tail
  | case5 name ts n hn ih =>
      rw [place, if_pos hn, Place.back_cons]
      exact ih h.2
  | case6 name ts n hn hn' =>
      rw [place, if_neg hn, if_pos hn']
      exact h
  | case7 name ts n hn hn' =>
      rw [place, if_neg hn, if_neg hn']
      exact h.2.back_start

/-- A terminal is behind the cut, unless the cut is behind all tokens. -/
lemma Shaped.rest_notMem_front {ts : List (Tok UInt8)} (h : Shaped ts) {n : ℕ}
    (hn : n < weight width ts) : .rest ∉ (place ts n).front := by
  induction ts, n using place.induct with
  | case1 ts => rw [place_zero]; exact List.not_mem_nil
  | case2 n => exact List.not_mem_nil
  | case3 c ts n ih =>
      rw [weight_cons, width] at hn
      rw [place, Place.front_cons, List.mem_cons, not_or]
      exact ⟨fun hc => (by cases hc), ih h (by omega)⟩
  | case4 ts n ih =>
      obtain rfl : ts = [] := h
      rw [weight_cons, width] at hn
      exact absurd hn (by simp)
  | case5 name ts n hfits ih =>
      rw [weight_cons, width] at hn
      rw [place, if_pos hfits, Place.front_cons, List.mem_cons, not_or]
      exact ⟨fun hc => (by cases hc), ih h.2 (by omega)⟩
  | case6 name ts n hfits hin =>
      rw [place, if_neg hfits, if_pos hin]
      exact fun hc => by cases List.mem_singleton.mp hc
  | case7 name ts n hfits hin =>
      rw [place, if_neg hfits, if_neg hin]
      exact fun hc => by cases List.mem_singleton.mp hc

lemma rest_mem_of_back {ts : List (Tok UInt8)} {n : ℕ} (h : .rest ∈ (place ts n).back) :
    .rest ∈ ts := by
  rw [← whole_place ts n]
  cases hc : place ts n with
  | between front dropped back =>
      rw [hc] at h
      exact List.mem_append_right _ (List.mem_append_right _ h)
  | inside front left right back =>
      rw [hc] at h
      have hback : .rest ∈ back := (List.mem_cons.mp h).resolve_left (by simp)
      exact List.mem_append_right _ (List.mem_cons_of_mem _ hback)

/-- **What can be dropped**: nothing, a terminal at the end, or a nameless parameter at the end or
in front of a slash. -/
lemma Shaped.dropped_cases {ts : List (Tok UInt8)} (h : Shaped ts) :
    (ts.takeWhile bare = [] ∧ ts.dropWhile bare = ts) ∨
      (ts = [.rest] ∨ ts = [.run [], .rest]) ∨ ts = [.run []] ∨
      ∃ us, ts = .run [] :: .lit slash :: us := by
  match ts, h with
  | [], _ => exact .inl ⟨rfl, rfl⟩
  | .lit c :: us, _ => exact .inl ⟨rfl, rfl⟩
  | .run (c :: name) :: us, _ => exact .inl ⟨rfl, rfl⟩
  | .rest :: us, h =>
      obtain rfl : us = [] := h
      exact .inr (.inl (.inl rfl))
  | [.run []], _ => exact .inr (.inr (.inl rfl))
  | .run [] :: u :: us, h =>
      rcases h.1 u rfl with rfl | rfl
      · exact .inr (.inr (.inr ⟨us, rfl⟩))
      · obtain rfl : us = [] := h.2
        exact .inr (.inl (.inr rfl))

/-! ## `pattern_sub` -/

lemma weight_dropWhile_le (ts : List (Tok UInt8)) :
    weight width (ts.dropWhile bare) ≤ weight width ts := by
  have hsplit : ts.takeWhile bare ++ ts.dropWhile bare = ts := List.takeWhile_append_dropWhile
  conv_rhs => rw [← hsplit, weight_append]
  exact Nat.le_add_left _ _

/-- What is left of the pattern is enough. -/
lemma need_place_le (ts : List (Tok UInt8)) (n : ℕ) : (place ts n).need ≤ weight width ts - n := by
  induction ts, n using place.induct with
  | case1 ts =>
      rw [place_zero]
      exact weight_dropWhile_le ts
  | case2 n => exact Nat.zero_le _
  | case3 c ts n ih =>
      rw [place, Place.need_cons, weight_cons, width]
      omega
  | case4 ts n ih =>
      rw [place, Place.need_cons, weight_cons, width]
      omega
  | case5 name ts n hn ih =>
      rw [place, if_pos hn, Place.need_cons, weight_cons, width]
      omega
  | case6 name ts n hn hn' =>
      rw [place, if_neg hn, if_pos hn', Place.need, weight_cons, width, List.length_drop]
      omega
  | case7 name ts n hn hn' =>
      rw [place, if_neg hn, if_neg hn', Place.need_cons, weight_cons, width]
      have hle : (Place.start ts).need ≤ weight width ts := weight_dropWhile_le ts
      omega

/-- A parameter that does not fit is the last part, with as much of its name as fits. -/
lemma subPart_parameter_front (aOffset off : ℕ) {aLen len n : ℕ} {name : Str}
    (hn : aLen - len = n + 1) (hle : n ≤ name.length) :
    ∃ off' len', subPart aOffset aLen (.parameter name) ⟨true, off, len⟩ =
      (.parameter (name.take n), ⟨true, off', len'⟩) ∧ aLen ≤ len' := by
  have hroom : aLen - (len + 1) = n := by omega
  have hmin : min name.length n = n := by omega
  refine ⟨off + 1 + n + 1, len + 1 + n + 1, ?_, by omega⟩
  simp [subPart, SubState.bracket, Part.type, Part.str, Part.withStr, subChars_found, hroom, hmin]

/-- A part that fits is in front of the cut, and the cut goes on behind it. -/
lemma subParts_cons_fits {aOffset aLen : ℕ} {x : Part} {xs : Pattern} {off len : ℕ}
    (hx : x ≠ .terminal) (hfits : len + x.len ≤ aLen)
    (ih : ∀ off, len + x.len < aLen →
      toks (subParts aOffset aLen xs ⟨true, off, len + x.len⟩) =
        (place (toks xs) (aLen - (len + x.len))).front) :
    toks (subParts aOffset aLen (x :: xs) ⟨true, off, len⟩) =
      x.toks ++ (place (toks xs) (aLen - (len + x.len))).front := by
  obtain ⟨off', len', hpart, -, hlen'⟩ := subPart_all aOffset off hfits
  obtain rfl := hlen' hx
  simp only [subParts, hpart, if_true]
  split_ifs with hstop
  · have hzero : aLen - (len + x.len) = 0 := by omega
    rw [hzero, place_zero, Place.front_start, toks_cons, toks_nil]
  · rw [toks_append, ih off' (by omega), toks_cons, toks_nil, List.append_nil]

/-- **The front of a cut**, wherever it is. -/
lemma subParts_place_front {aOffset aLen : ℕ} {xs : Pattern} {off len : ℕ} (hs : Shaped (toks xs))
    (hlen : len < aLen) :
    toks (subParts aOffset aLen xs ⟨true, off, len⟩) = (place (toks xs) (aLen - len)).front := by
  induction xs generalizing off len with
  | nil => rw [toks_nil, place_nil]; rfl
  | cons x xs ih =>
      rw [toks_cons] at hs ⊢
      cases x with
      | string str =>
          have hxs : Shaped (toks xs) := hs.append_right
          by_cases hfits : len + str.length ≤ aLen
          · rw [subParts_cons_fits (x := .string str) (by simp) hfits fun _ h => ih hxs h]
            have hplace := (place_lits (show str.length ≤ aLen - len by omega) (toks xs)).1
            rw [show (Part.string str).toks = str.map .lit from rfl, hplace, Nat.sub_sub]
            rfl
          · -- the cut is inside the string
            have hmin : min str.length (aLen - len) = aLen - len := by omega
            have hstop : aLen ≤ len + (aLen - len) := by omega
            rw [show (Part.string str).toks = str.map .lit from rfl, place_in_lits (by omega)]
            simp [subParts, subPart, SubState.bracket, Part.type, Part.str, Part.withStr,
              subChars_found, hmin, hstop, Part.toks, Place.front]
      | parameter name =>
          obtain ⟨n, hn⟩ := Nat.exists_eq_succ_of_ne_zero (by omega : aLen - len ≠ 0)
          rw [show (Part.parameter name).toks ++ toks xs = .run name :: toks xs from rfl, hn, place]
          by_cases hfits : name.length < n
          · have hlen' : len + (Part.parameter name).len ≤ aLen := by
              rw [Part.len]
              omega
            have hrest : aLen - (len + (Part.parameter name).len) = n - (1 + name.length) := by
              rw [Part.len]
              omega
            rw [subParts_cons_fits (by simp) hlen' fun _ h => ih hs.append_right h, if_pos hfits,
              Place.front_cons, hrest]
            rfl
          · obtain ⟨off', len', hpart, hstop⟩ :=
              subPart_parameter_front aOffset off hn (Nat.le_of_not_lt hfits)
            simp only [subParts, hpart, if_true, if_pos hstop, if_neg hfits]
            split_ifs with hin
            · rfl
            · have hall : name.take n = name := List.take_of_length_le (by omega)
              rw [hall]
              rfl
      | terminal =>
          have hxs : toks xs = [] := hs
          have hpart : subPart aOffset aLen .terminal ⟨true, off, len⟩ =
              (.terminal, ⟨true, off, len⟩) := by
            simp [subPart, SubState.bracket, Part.type, Part.str, subChars, Part.withStr]
          obtain ⟨n, hn⟩ := Nat.exists_eq_succ_of_ne_zero (by omega : aLen - len ≠ 0)
          have hstop : ¬ aLen ≤ len := by omega
          simp only [subParts, hpart, if_true, if_neg hstop]
          rw [toks_append, ih hs.append_right hlen, hxs, place_nil, hn]
          simp [Part.toks, place, place_nil]

/-- The characters from the offset on are found. -/
lemma subChars_from {aOffset aLen : ℕ} {cs : Str} {off : ℕ} (h : aOffset - off < cs.length)
    (hlen : cs.length - (aOffset - off) ≤ aLen) :
    ∃ off', subChars aOffset aLen cs ⟨false, off, 0⟩ =
      (cs.drop (aOffset - off), ⟨true, off', cs.length - (aOffset - off)⟩) := by
  have hpos : 0 < aLen := by omega
  rcases le_total aOffset off with ho | ho
  · have hne : cs ≠ [] := List.ne_nil_of_length_pos (Nat.zero_lt_of_lt h)
    have hzero : aOffset - off = 0 := by omega
    rw [hzero, Nat.sub_zero] at hlen ⊢
    have hmin : min cs.length aLen = cs.length := by omega
    rw [subChars_past hpos ho hne, subChars_found]
    exact ⟨off + cs.length, by simp [List.take_of_length_le hlen, hmin]⟩
  · have hne : cs.drop (aOffset - off) ≠ [] := by
      rw [ne_eq, List.drop_eq_nil_iff]
      omega
    have hfront : off + (cs.take (aOffset - off)).length = aOffset := by
      rw [List.length_take]
      omega
    have htake : (cs.drop (aOffset - off)).take aLen = cs.drop (aOffset - off) :=
      List.take_of_length_le (by rw [List.length_drop]; exact hlen)
    have hmin : min (cs.length - (aOffset - off)) aLen = cs.length - (aOffset - off) := by omega
    have hcut := subChars_at hpos hfront hne
    rw [List.take_append_drop, subChars_found] at hcut
    exact ⟨aOffset + (cs.length - (aOffset - off)), by simp [hcut, htake, hmin]⟩

/-- The offset is in front of the name of a parameter, or inside it. -/
lemma subPart_parameter_found {aOffset aLen : ℕ} {name : Str} {off : ℕ}
    (h : aOffset - (off + 1) < name.length)
    (hlen : name.length - (aOffset - (off + 1)) ≤ aLen) :
    ∃ off', subPart aOffset aLen (.parameter name) ⟨false, off, 0⟩ =
      (.parameter (name.drop (aOffset - (off + 1))),
        ⟨true, off', name.length - (aOffset - (off + 1)) + 1⟩) := by
  obtain ⟨off', hchars⟩ := subChars_from h hlen
  exact ⟨off' + 1, by
    simp [subPart, SubState.bracket, Part.type, Part.str, Part.withStr, hchars]⟩

/-- The offset is behind the name of a parameter. -/
lemma subPart_parameter_before {aOffset aLen : ℕ} {name : Str} {off : ℕ} (hpos : 0 < aLen)
    (h : name = [] ∨ off + 1 + name.length ≤ aOffset) :
    (subPart aOffset aLen (.parameter name) ⟨false, off, 0⟩).2 =
      ⟨false, off + 1 + name.length + 1, 0⟩ := by
  have hchars : subChars aOffset aLen name ⟨false, off + 1, 0⟩ =
      ([], ⟨false, off + 1 + name.length, 0⟩) := by
    rcases h with rfl | h
    · rfl
    · exact subChars_before hpos h
  simp [subPart, SubState.bracket, Part.type, Part.str, hchars]

/-- **The back of a cut**, wherever it is. -/
lemma subParts_place_back {aOffset aLen : ℕ} {xs : Pattern} {off : ℕ} (hs : Shaped (toks xs))
    (hpos : 0 < aLen) (hlen : (place (toks xs) (aOffset - off)).need ≤ aLen) :
    toks (subParts aOffset aLen xs ⟨false, off, 0⟩) = (place (toks xs) (aOffset - off)).back := by
  induction xs generalizing off with
  | nil => rw [toks_nil, place_nil]; rfl
  | cons x xs ih =>
      rw [toks_cons] at hs hlen ⊢
      have hxs : Shaped (toks xs) := hs.append_right
      cases x with
      | string str =>
          rw [show (Part.string str).toks = str.map .lit from rfl] at hlen ⊢
          by_cases hfits : str.length ≤ aOffset - off
          · obtain ⟨-, hback, hneed⟩ := place_lits hfits (toks xs)
            rw [hneed, Nat.sub_sub] at hlen
            rw [hback, Nat.sub_sub, ← ih hxs hlen]
            by_cases hoff : off + str.length ≤ aOffset
            · rw [subParts_cons_before hpos (subPart_before hpos (by simp) hoff)]
              rfl
            · -- the offset was passed, and the string is empty
              obtain rfl : str = [] := List.eq_nil_of_length_eq_zero (by omega)
              rw [subParts_cons_before hpos rfl]
              rfl
          · rw [place_in_lits (by omega)] at hlen ⊢
            rw [Place.need, weight_append, weight_lits, List.length_drop] at hlen
            have hroom : str.length - (aOffset - off) ≤ aLen := by omega
            obtain ⟨off', hchars⟩ := subChars_from (Nat.lt_of_not_le hfits) hroom
            refine subParts_cons_found (y := .string (str.drop (aOffset - off))) off' _ ?_ hlen
            simp [subPart, SubState.bracket, Part.type, Part.str, Part.withStr, hchars]
      | parameter name =>
          rw [show (Part.parameter name).toks ++ toks xs = .run name :: toks xs from rfl] at hlen ⊢
          have hoff : aOffset - off - 1 = aOffset - (off + 1) := by omega
          by_cases hin : aOffset - (off + 1) < name.length
          · have hin' : aOffset - off - 1 < name.length := by omega
            obtain ⟨hback, hneed⟩ := place_in_run hin' (toks xs)
            rw [hoff] at hback hneed
            have hroom : name.length - (aOffset - (off + 1)) ≤ aLen := by omega
            obtain ⟨off', hpart⟩ := subPart_parameter_found hin hroom
            rw [hback, subParts_cons_found off' _ hpart (by omega)]
            rfl
          · have hin' : name.length ≤ aOffset - off - 1 := by omega
            obtain ⟨hback, hneed⟩ := place_behind_run hin' (toks xs)
            have hbefore : name = [] ∨ off + 1 + name.length ≤ aOffset := by
              rcases Nat.eq_zero_or_pos name.length with hz | hz
              · exact .inl (List.eq_nil_of_length_eq_zero hz)
              · exact .inr (by omega)
            have hnext : aOffset - off - (name.length + 2) =
                aOffset - (off + 1 + name.length + 1) := by
              omega
            rw [hneed, hnext] at hlen
            rw [hback, hnext, ← ih hxs hlen,
              subParts_cons_before hpos (subPart_parameter_before hpos hbefore)]
      | terminal =>
          have hnil : toks xs = [] := hs
          have hneed : (place (toks xs) (aOffset - off)).need ≤ aLen := by
            rw [hnil, place_nil]
            exact Nat.zero_le _
          have hpart : (subPart aOffset aLen .terminal ⟨false, off, 0⟩).2 = ⟨false, off, 0⟩ := by
            simp [subPart, SubState.bracket, Part.type, Part.str, subChars]
          rw [subParts_cons_before hpos hpart, ih hxs hneed, hnil, place_nil]
          cases aOffset - off with
          | zero => rfl
          | succ n => simp [Part.toks, place, place_nil]

/-- **The front of a cut.** -/
lemma patternSub_place_front {a : Pattern} {n : ℕ} (hs : Shaped (toks a)) (hn : 0 < n) :
    toks (patternSub a 0 n) = (place (toks a) n).front :=
  subParts_place_front hs hn

/-- Where the pattern is cut off at once, nothing is left. -/
lemma patternSub_zero (a : Pattern) {n : ℕ} (hn : 0 < n) : patternSub a n 0 = [] := by
  have hoff : decide (n = 0) = false := decide_eq_false (Nat.pos_iff_ne_zero.mp hn)
  have hchars : ∀ cs s, subChars n 0 cs s = ([], s) := by
    intro cs s
    cases cs <;> rfl
  rw [patternSub, hoff]
  cases a with
  | nil => rfl
  | cons x xs =>
      have hfound : (subPart n 0 x ⟨false, 0, 0⟩).2.found = false := by
        simp only [subPart, hchars, SubState.bracket]
        split_ifs <;> rfl
      simp [subParts, hfound]

/-- **The back of a cut.** -/
lemma patternSub_place_back {a : Pattern} {n len : ℕ} (hs : Shaped (toks a)) (hn : 0 < n)
    (hlen : (place (toks a) n).need ≤ len) :
    toks (patternSub a n len) = (place (toks a) n).back := by
  rcases Nat.eq_zero_or_pos len with rfl | hpos
  · rw [patternSub_zero a hn]
    cases hc : place (toks a) n with
    | between front dropped back =>
        rw [hc, Place.need] at hlen
        exact (eq_nil_of_weight (Nat.le_zero.mp hlen)).symm
    | inside front left right back =>
        rw [hc, Place.need] at hlen
        omega
  · have hoff : decide (n = 0) = false := decide_eq_false (Nat.pos_iff_ne_zero.mp hn)
    rw [patternSub, hoff]
    exact subParts_place_back hs hpos hlen

end UrlRouter

end Is2
