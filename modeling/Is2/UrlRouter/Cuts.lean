import Is2.Core.Pattern
import Is2.UrlRouter.Model

/-!
# Where `pattern_sub` cuts right

A pattern spells a list of tokens, `toks`, and its length is their weight: a literal weighs one, a
parameter its name and two brackets.  `pattern_sub` cuts at an offset into that length.  It looks
for the offset at the characters of strings and names only, so it is right

* in front, if the offset falls between two tokens (`patternSub_front`);
* behind, if moreover the token that follows has a character (`patternSub_back`); terminals and
  nameless parameters at the cut are lost (`patternSub_behind`).

An offset inside a parameter leaves half a parameter on one side and a whole one on the other.
-/

namespace Is2

namespace UrlRouter

/-! ## The tokens of a pattern -/

def Part.toks : Part → List (Tok UInt8)
  | .string str => str.map .lit
  | .parameter str => [.run str]
  | .terminal => [.rest]

def toks (a : Pattern) : List (Tok UInt8) := a.flatMap Part.toks

@[simp] lemma toks_nil : toks [] = [] := rfl

@[simp] lemma toks_cons (x : Part) (xs : Pattern) : toks (x :: xs) = x.toks ++ toks xs := by
  simp [toks]

@[simp] lemma toks_append (xs ys : Pattern) : toks (xs ++ ys) = toks xs ++ toks ys := by
  simp [toks]

/-- What a token adds to `pattern_len`. -/
def width : Tok UInt8 → ℕ
  | .lit _ => 1
  | .run name => 2 + name.length
  | .rest => 1

lemma weight_lits (str : Str) : weight width (str.map .lit) = str.length := by
  induction str with
  | nil => rfl
  | cons c cs ih =>
      rw [List.map_cons, weight_cons, ih, List.length_cons]
      simp only [width]
      omega

lemma weight_toks (x : Part) : weight width x.toks = x.len := by
  cases x with
  | string str => exact weight_lits str
  | parameter str => rfl
  | terminal => rfl

lemma patternLen_eq (a : Pattern) : patternLen a = weight width (toks a) := by
  induction a with
  | nil => rfl
  | cons x xs ih =>
      rw [toks_cons, weight_append, weight_toks, ← ih]
      simp [patternLen]

lemma eq_nil_of_weight {ts : List (Tok UInt8)} (h : weight width ts = 0) : ts = [] := by
  cases ts with
  | nil => rfl
  | cons t ts =>
      rw [weight_cons] at h
      cases t <;> simp only [width] at h <;> omega

/-- The first token, if there is one, has a character. -/
def Lettered : List (Tok UInt8) → Prop
  | .rest :: _ => False
  | .run [] :: _ => False
  | _ => True

instance : DecidablePred Lettered := fun ts => by
  unfold Lettered
  split <;> infer_instance

/-- The token has no character. -/
def bare : Tok UInt8 → Bool
  | .rest => true
  | .run [] => true
  | _ => false

lemma Lettered.dropWhile_bare {ts : List (Tok UInt8)} (h : Lettered ts) :
    ts.dropWhile bare = ts := by
  cases ts with
  | nil => rfl
  | cons t ts =>
      cases t with
      | lit c => rfl
      | rest => exact h.elim
      | run name =>
          cases name with
          | nil => exact h.elim
          | cons c name => rfl

/-! ## The loop over the characters -/

/-- Once found, characters are taken as long as the length allows. -/
lemma subChars_found (aOffset aLen : ℕ) (cs : Str) (off len : ℕ) :
    subChars aOffset aLen cs ⟨true, off, len⟩ =
      (cs.take (aLen - len),
        ⟨true, off + min cs.length (aLen - len), len + min cs.length (aLen - len)⟩) := by
  induction cs generalizing off len with
  | nil => simp [subChars]
  | cons c cs ih =>
      by_cases hlen : len < aLen
      · obtain ⟨k, hk⟩ : ∃ k, aLen - len = k + 1 := ⟨aLen - len - 1, by omega⟩
        have hk' : aLen - (len + 1) = k := by omega
        simp only [subChars, hlen, if_true, true_or, ih, hk, hk', List.take_succ_cons,
          List.length_cons, Nat.add_min_add_right]
        congr 2 <;> omega
      · have h0 : aLen - len = 0 := by omega
        simp [subChars, hlen, h0]

/-- Before the offset, characters are passed over. -/
lemma subChars_before {aOffset aLen : ℕ} {cs : Str} {off len : ℕ} (hlen : len < aLen)
    (ho : off + cs.length ≤ aOffset) :
    subChars aOffset aLen cs ⟨false, off, len⟩ = ([], ⟨false, off + cs.length, len⟩) := by
  induction cs generalizing off with
  | nil => rfl
  | cons c cs ih =>
      rw [List.length_cons] at ho ⊢
      have hoff : ¬ aOffset ≤ off := by omega
      simp only [subChars, hlen, if_true, hoff, Bool.false_eq_true, or_self, if_false]
      rw [ih (by omega)]
      congr 2
      omega

/-- At the offset the characters that follow are found. -/
lemma subChars_past {aOffset aLen : ℕ} {ds : Str} {off len : ℕ} (hlen : len < aLen)
    (ho : aOffset ≤ off) (hd : ds ≠ []) :
    subChars aOffset aLen ds ⟨false, off, len⟩ = subChars aOffset aLen ds ⟨true, off, len⟩ := by
  obtain ⟨d, ds, rfl⟩ := List.exists_cons_of_ne_nil hd
  simp [subChars, ho, hlen]

/-- Characters behind the offset are all taken, if they fit. -/
lemma subChars_all_past {aOffset aLen : ℕ} {ds : Str} {off : ℕ} (ho : aOffset ≤ off) (hd : ds ≠ [])
    (hlen : ds.length ≤ aLen) : subChars aOffset aLen ds ⟨false, off, 0⟩ =
      (ds, ⟨true, off + ds.length, ds.length⟩) := by
  have hpos : 0 < aLen := (List.length_pos_iff.mpr hd).trans_le hlen
  rw [subChars_past hpos ho hd, subChars_found, Nat.sub_zero, List.take_of_length_le hlen,
    min_eq_left hlen, Nat.zero_add]

/-- An offset inside a string is found there. -/
lemma subChars_at {aOffset aLen : ℕ} {cs ds : Str} {off len : ℕ} (hlen : len < aLen)
    (ho : off + cs.length = aOffset) (hd : ds ≠ []) :
    subChars aOffset aLen (cs ++ ds) ⟨false, off, len⟩ =
      subChars aOffset aLen ds ⟨true, aOffset, len⟩ := by
  induction cs generalizing off with
  | nil =>
      obtain rfl : off = aOffset := ho
      exact subChars_past hlen le_rfl hd
  | cons c cs ih =>
      rw [List.length_cons] at ho
      have hoff : ¬ aOffset ≤ off := by omega
      rw [List.cons_append, subChars]
      simp only [hlen, if_true, hoff, Bool.false_eq_true, or_self, if_false]
      exact ih (by omega)

/-! ## One part -/

/-- A part that fits is taken whole. -/
lemma subPart_all (aOffset off : ℕ) {aLen len : ℕ} {x : Part} (hlen : len + x.len ≤ aLen) :
    ∃ off' len', subPart aOffset aLen x ⟨true, off, len⟩ = (x, ⟨true, off', len'⟩) ∧
      len' ≤ len + x.len ∧ (x ≠ .terminal → len' = len + x.len) := by
  cases x with
  | string str =>
      simp only [Part.len] at hlen
      have hmin : min str.length (aLen - len) = str.length := by omega
      have htake : str.take (aLen - len) = str := List.take_of_length_le (by omega)
      refine ⟨off + str.length, len + str.length, ?_, le_rfl, fun _ => rfl⟩
      simp [subPart, SubState.bracket, Part.type, Part.str, subChars_found, hmin, htake,
        Part.withStr]
  | parameter str =>
      simp only [Part.len] at hlen ⊢
      have hmin : min str.length (aLen - (len + 1)) = str.length := by omega
      have htake : str.take (aLen - (len + 1)) = str := List.take_of_length_le (by omega)
      refine ⟨off + 1 + str.length + 1, len + 1 + str.length + 1, ?_, by omega, fun _ => by omega⟩
      simp [subPart, SubState.bracket, Part.type, Part.str, subChars_found, hmin, htake,
        Part.withStr]
  | terminal =>
      refine ⟨off, len, ?_, Nat.le_add_right _ _, fun h => absurd rfl h⟩
      simp [subPart, SubState.bracket, Part.type, Part.str, subChars, Part.withStr]

/-- A part before the offset is passed over. -/
lemma subPart_before {aOffset aLen : ℕ} {x : Part} {off : ℕ} (hlen : 0 < aLen)
    (hx : x ≠ .terminal) (ho : off + x.len ≤ aOffset) :
    (subPart aOffset aLen x ⟨false, off, 0⟩).2 = ⟨false, off + x.len, 0⟩ := by
  cases x with
  | string str =>
      simp [subPart, SubState.bracket, Part.type, Part.str, Part.len, subChars_before hlen ho]
  | parameter str =>
      simp only [Part.len] at ho ⊢
      have hb := subChars_before hlen (show off + 1 + str.length ≤ aOffset by omega)
      simp [subPart, SubState.bracket, Part.type, Part.str, hb]
      omega
  | terminal => exact absurd rfl hx

/-- A part with a character is found behind the offset, if it fits. -/
lemma subPart_past {aOffset aLen off : ℕ} {x : Part} (ho : aOffset ≤ off) (hx : x.str ≠ [])
    (hlen : x.len ≤ aLen) : ∃ off' len',
      subPart aOffset aLen x ⟨false, off, 0⟩ = (x, ⟨true, off', len'⟩) ∧ len' ≤ x.len := by
  cases x with
  | string str =>
      have hchars := subChars_all_past ho hx hlen
      rw [Part.str] at hchars
      refine ⟨off + str.length, str.length, ?_, le_rfl⟩
      simp [subPart, SubState.bracket, Part.type, Part.str, Part.withStr, hchars]
  | parameter str =>
      rw [Part.len] at hlen ⊢
      have hchars := subChars_all_past (show aOffset ≤ off + 1 by omega) hx
        (show str.length ≤ aLen by omega)
      rw [Part.str] at hchars
      refine ⟨off + 1 + str.length + 1, str.length + 1, ?_, by omega⟩
      simp [subPart, SubState.bracket, Part.type, Part.str, Part.withStr, hchars]
  | terminal => exact absurd rfl hx

/-- A part without a character is passed over. -/
lemma subPart_bare (aOffset aLen off : ℕ) {x : Part} (hx : x.str = []) :
    ∃ off', off ≤ off' ∧ (subPart aOffset aLen x ⟨false, off, 0⟩).2 = ⟨false, off', 0⟩ := by
  have hchars : ∀ s, subChars aOffset aLen x.str s = ([], s) := by
    intro s
    rw [hx]
    rfl
  rw [subPart, hchars]
  by_cases hp : x.type = .parameter
  · exact ⟨off + 1 + 1, by omega, by simp [SubState.bracket, hp]⟩
  · exact ⟨off, le_rfl, by simp [SubState.bracket, hp]⟩

/-- The tokens of a part without a character are bare, and those of another one are not. -/
lemma dropWhile_bare_toks (x : Part) (ts : List (Tok UInt8)) :
    (x.toks ++ ts).dropWhile bare = if x.str = [] then ts.dropWhile bare else x.toks ++ ts := by
  cases x with
  | string str => cases str <;> rfl
  | parameter str => cases str <;> rfl
  | terminal => rfl

/-! ## The loop over the parts -/

/-- Once found and with length to spare, all parts are taken. -/
lemma subParts_all {aOffset aLen : ℕ} {xs : Pattern} {off len : ℕ}
    (hlen : len + weight width (toks xs) ≤ aLen) :
    toks (subParts aOffset aLen xs ⟨true, off, len⟩) = toks xs := by
  induction xs generalizing off len with
  | nil => rfl
  | cons x xs ih =>
      rw [toks_cons, weight_append, weight_toks] at hlen
      obtain ⟨off', len', hr, hle, -⟩ :=
        subPart_all (x := x) aOffset off (show len + x.len ≤ aLen by omega)
      simp only [subParts, hr, if_true]
      split_ifs with hstop
      · have hnil : toks xs = [] := eq_nil_of_weight (by omega)
        simp [hnil]
      · rw [toks_append, ih (by omega)]
        simp

/-- A cut of `x` and what follows: behind `x`, inside it, or in front of it. -/
lemma part_split {x : Part} {ts l r : List (Tok UInt8)} (h : x.toks ++ ts = l ++ r) :
    (∃ l', l = x.toks ++ l' ∧ ts = l' ++ r) ∨
    (∃ s₁ s₂, s₂ ≠ [] ∧ x = .string (s₁ ++ s₂) ∧ l = s₁.map .lit ∧ r = s₂.map .lit ++ ts) ∨
    (l = [] ∧ r = x.toks ++ ts ∧ ∀ str, x ≠ .string str) := by
  rcases List.append_eq_append_iff.mp h with ⟨l', hl, hts⟩ | ⟨c, hx, hr⟩
  · exact .inl ⟨l', hl, hts⟩
  · by_cases hc : c = []
    · subst hc
      exact .inl ⟨[], by rw [hx, List.append_nil, List.append_nil], hr.symm⟩
    · cases x with
      | string str =>
          obtain ⟨s₁, s₂, rfl, rfl, rfl⟩ := List.map_eq_append_iff.mp hx
          exact .inr (.inl ⟨s₁, s₂, fun hnil => hc (by rw [hnil, List.map_nil]), rfl, rfl, hr⟩)
      | parameter str =>
          rcases List.singleton_eq_append_iff.mp hx with ⟨rfl, rfl⟩ | ⟨rfl, rfl⟩
          · exact .inr (.inr ⟨rfl, hr, fun _ => nofun⟩)
          · exact absurd rfl hc
      | terminal =>
          rcases List.singleton_eq_append_iff.mp hx with ⟨rfl, rfl⟩ | ⟨rfl, rfl⟩
          · exact .inr (.inr ⟨rfl, hr, fun _ => nofun⟩)
          · exact absurd rfl hc

/-- In front of a cut the parts are taken up to it. -/
lemma subParts_front {aOffset aLen : ℕ} {xs : Pattern} {off len : ℕ} {l r : List (Tok UInt8)}
    (h : toks xs = l ++ r) (hl : len + weight width l = aLen) (hlen : len < aLen)
    (hrest : Tok.rest ∉ l) : toks (subParts aOffset aLen xs ⟨true, off, len⟩) = l := by
  induction xs generalizing off len l with
  | nil =>
      obtain ⟨rfl, rfl⟩ := List.append_eq_nil_iff.mp h.symm
      rw [weight_nil] at hl
      omega
  | cons x xs ih =>
      rw [toks_cons] at h
      rcases part_split h with ⟨l', rfl, hxs⟩ | ⟨s₁, s₂, -, rfl, rfl, hr⟩ | ⟨rfl, -, -⟩
      · rw [weight_append, weight_toks] at hl
        have hx : x ≠ .terminal := by
          rintro rfl
          exact hrest (by simp [Part.toks])
        obtain ⟨off', len', hpart, -, hlen'⟩ :=
          subPart_all (x := x) aOffset off (show len + x.len ≤ aLen by omega)
        obtain rfl := hlen' hx
        simp only [subParts, hpart, if_true]
        split_ifs with hstop
        · have hnil : l' = [] := eq_nil_of_weight (by omega)
          simp [hnil]
        · have hrest' : Tok.rest ∉ l' := fun hm => hrest (List.mem_append_right _ hm)
          rw [toks_append, ih hxs (by omega) (by omega) hrest']
          simp
      · -- the cut is inside a string
        rw [weight_lits] at hl
        have hsub : aLen - len = s₁.length := by omega
        have hpart : subPart aOffset aLen (.string (s₁ ++ s₂)) ⟨true, off, len⟩ =
            (.string s₁, ⟨true, off + s₁.length, aLen⟩) := by
          simp [subPart, SubState.bracket, Part.type, Part.str, Part.withStr, subChars_found, hsub,
            hl]
        simp [subParts, hpart, Part.toks]
      · rw [weight_nil] at hl
        omega

/-- Where the start is found at a part, that part's rest and all parts that follow are taken. -/
lemma subParts_cons_found {aOffset aLen : ℕ} {x y : Part} {xs : Pattern} {s : SubState}
    (off len : ℕ) (hpart : subPart aOffset aLen x s = (y, ⟨true, off, len⟩))
    (hlen : len + weight width (toks xs) ≤ aLen) :
    toks (subParts aOffset aLen (x :: xs) s) = y.toks ++ toks xs := by
  simp only [subParts, hpart, if_true]
  split_ifs with hstop
  · have hnil : toks xs = [] := eq_nil_of_weight (by omega)
    simp [hnil]
  · rw [toks_append, subParts_all hlen]
    simp

/-- A part in front of the offset is passed over, and the cut is in what follows. -/
lemma subParts_cons_before {aOffset aLen : ℕ} {x : Part} {xs : Pattern} {off off' : ℕ}
    (hpos : 0 < aLen) (hpart : (subPart aOffset aLen x ⟨false, off, 0⟩).2 = ⟨false, off', 0⟩) :
    subParts aOffset aLen (x :: xs) ⟨false, off, 0⟩ =
      subParts aOffset aLen xs ⟨false, off', 0⟩ := by
  have hstop : ¬ aLen ≤ 0 := by omega
  simp [subParts, hpart, hstop]

/-- From the offset on all parts are taken, beginning with the first character. -/
lemma subParts_past {aOffset aLen : ℕ} {xs : Pattern} {off : ℕ} (ho : aOffset ≤ off)
    (hpos : 0 < aLen) (hlen : weight width (toks xs) ≤ aLen) :
    toks (subParts aOffset aLen xs ⟨false, off, 0⟩) = (toks xs).dropWhile bare := by
  induction xs generalizing off with
  | nil => rfl
  | cons x xs ih =>
      rw [toks_cons, weight_append, weight_toks] at hlen
      rw [toks_cons, dropWhile_bare_toks]
      split_ifs with hx
      · obtain ⟨off', hle, hpart⟩ := subPart_bare aOffset aLen off hx
        rw [subParts_cons_before hpos hpart]
        exact ih (ho.trans hle) (by omega)
      · obtain ⟨off', len', hpart, hle⟩ :=
          subPart_past ho hx (show x.len ≤ aLen by omega)
        exact subParts_cons_found off' len' hpart (by omega)

/-- Behind a cut all parts are taken, beginning with the first character. -/
lemma subParts_back {aOffset aLen : ℕ} {xs : Pattern} {off : ℕ} {l r : List (Tok UInt8)}
    (h : toks xs = l ++ r) (hl : off + weight width l = aOffset) (hpos : 0 < aLen)
    (hlen : weight width r ≤ aLen) (hrest : Tok.rest ∉ l) :
    toks (subParts aOffset aLen xs ⟨false, off, 0⟩) = r.dropWhile bare := by
  induction xs generalizing off l with
  | nil =>
      obtain ⟨rfl, rfl⟩ := List.append_eq_nil_iff.mp h.symm
      rfl
  | cons x xs ih =>
      rw [toks_cons] at h
      rcases part_split h with ⟨l', rfl, hxs⟩ | ⟨s₁, s₂, hs₂, rfl, rfl, rfl⟩ | ⟨rfl, rfl, -⟩
      · rw [weight_append, weight_toks] at hl
        have hx : x ≠ .terminal := by
          rintro rfl
          exact hrest (by simp [Part.toks])
        have hpart := subPart_before (x := x) hpos hx (show off + x.len ≤ aOffset by omega)
        have hrest' : Tok.rest ∉ l' := fun hm => hrest (List.mem_append_right _ hm)
        rw [subParts_cons_before hpos hpart]
        exact ih hxs (by omega) hrest'
      · -- the cut is inside a string
        rw [weight_lits] at hl
        rw [weight_append, weight_lits] at hlen
        have htake : s₂.take aLen = s₂ := List.take_of_length_le (by omega)
        have hmin : min s₂.length aLen = s₂.length := by omega
        have hkeep := dropWhile_bare_toks (.string s₂) (toks xs)
        rw [if_neg (show (Part.string s₂).str ≠ [] from hs₂)] at hkeep
        refine (subParts_cons_found (y := .string s₂) (aOffset + s₂.length) s₂.length ?_
          hlen).trans hkeep.symm
        simp [subPart, SubState.bracket, Part.type, Part.str, Part.withStr,
          subChars_at hpos hl hs₂, subChars_found, htake, hmin]
      · rw [weight_nil] at hl
        rw [← toks_cons] at hlen ⊢
        exact subParts_past hl.ge hpos hlen

/-! ## `pattern_sub` -/

/-- **The front of a cut.** -/
lemma patternSub_front {a : Pattern} {n : ℕ} {l r : List (Tok UInt8)} (h : toks a = l ++ r)
    (hn : weight width l = n) (hpos : 0 < n) (hrest : Tok.rest ∉ l) :
    toks (patternSub a 0 n) = l :=
  subParts_front h (by omega) hpos hrest

/-- **The back of a cut**: the tokens at the cut that have no character are lost. -/
lemma patternSub_behind {a : Pattern} {n len : ℕ} {l r : List (Tok UInt8)} (h : toks a = l ++ r)
    (hn : weight width l = n) (hpos : 0 < n) (hlen : weight width r ≤ len)
    (hrest : Tok.rest ∉ l) : toks (patternSub a n len) = r.dropWhile bare := by
  have hoff : decide (n = 0) = false := decide_eq_false (by omega)
  rw [patternSub, hoff]
  rcases Nat.eq_zero_or_pos len with rfl | hlen'
  · have hnil : r = [] := eq_nil_of_weight (by omega)
    cases a with
    | nil => simp [hnil, subParts]
    | cons x xs =>
        have hchars : ∀ cs s, subChars n 0 cs s = ([], s) := by
          intro cs s
          cases cs <;> rfl
        have hfound : (subPart n 0 x ⟨false, 0, 0⟩).2.found = false := by
          simp only [subPart, hchars, SubState.bracket]
          split_ifs <;> rfl
        simp [subParts, hfound, hnil]
  · exact subParts_back h (by omega) hlen' hlen hrest

/-- In front of a character nothing is lost. -/
lemma patternSub_back {a : Pattern} {n len : ℕ} {l r : List (Tok UInt8)} (h : toks a = l ++ r)
    (hn : weight width l = n) (hpos : 0 < n) (hlen : weight width r ≤ len)
    (hrest : Tok.rest ∉ l) (hr : Lettered r) : toks (patternSub a n len) = r := by
  rw [patternSub_behind h hn hpos hlen hrest, hr.dropWhile_bare]

end UrlRouter

end Is2
