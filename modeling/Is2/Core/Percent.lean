import Mathlib.Data.List.Basic
import Mathlib.Data.UInt

/-!
# Percent encoding

What a text of bytes means in which `%` and two hexadecimal digits stand for a byte, and `+` for a
space.  A `%` without two digits behind it stands for itself, and is counted as invalid.

* `decode`, `invalid` — what a text stands for, and how many of its `%` are invalid.
* `encode` — a text that stands for these bytes, for any choice of bytes that are kept and of
  digits: `decode_encode`, `invalid_encode`.
-/

namespace Is2

namespace Percent

/-- `%` -/
abbrev percent : UInt8 := 37

/-- `+` -/
abbrev plus : UInt8 := 43

/-- The space. -/
abbrev space : UInt8 := 32

/-- The value of a hexadecimal digit. -/
def hexVal (c : UInt8) : Option UInt8 :=
  if 48 ≤ c ∧ c ≤ 57 then some (c - 48)
  else if 65 ≤ c ∧ c ≤ 70 then some (c - 55)
  else if 97 ≤ c ∧ c ≤ 102 then some (c - 87)
  else none

/-- The byte that two digits stand for. -/
def pair (h l : UInt8) : Option UInt8 := do
  let x ← hexVal h
  let y ← hexVal l
  some (16 * x + y)

/-- The byte of an escape: the first character, and what is behind it. -/
def escape (c : UInt8) : List UInt8 → Option UInt8
  | h :: l :: _ => if c = percent then pair h l else none
  | _ => none

/-- A character that is no escape. -/
def plain (c : UInt8) : UInt8 := if c = plus then space else c

/-- **What a text stands for.** -/
def decode : List UInt8 → List UInt8
  | [] => []
  | [c] => [plain c]
  | [c, h] => [plain c, plain h]
  | c :: h :: l :: s =>
    match escape c (h :: l :: s) with
    | some x => x :: decode s
    | none => plain c :: decode (h :: l :: s)

/-- The number of `%` that are no escapes. -/
def invalid : List UInt8 → ℕ
  | [] => 0
  | c :: s => (if c = percent ∧ escape c s = none then 1 else 0) + invalid s

/-- A text that stands for these bytes. -/
def encode (safe : UInt8 → Bool) (digit : UInt8 → UInt8) (s : List UInt8) : List UInt8 :=
  s.flatMap fun c => if safe c then [c] else [percent, digit (c >>> 4), digit (c &&& 0x0f)]

/-! ## Decoding -/

variable {c h l x : UInt8} {s : List UInt8}

lemma escape_eq_some (hx : escape c s = some x) :
    c = percent ∧ ∃ h l t, s = h :: l :: t ∧ pair h l = some x := by
  match s with
  | [] => cases hx
  | [_] => cases hx
  | h :: l :: t =>
      simp only [escape] at hx
      split_ifs at hx with hc
      exact ⟨hc, h, l, t, rfl, hx⟩

lemma escape_percent (h l : UInt8) (s : List UInt8) :
    escape percent (h :: l :: s) = pair h l := by
  simp [escape]

/-- A character that is no escape stands for itself. -/
lemma decode_cons_of_none (hx : escape c s = none) : decode (c :: s) = plain c :: decode s := by
  match s with
  | [] => rfl
  | [_] => rfl
  | h :: l :: t => rw [decode, hx]

lemma decode_cons_of_pair (hx : pair h l = some x) :
    decode (percent :: h :: l :: s) = x :: decode s := by
  rw [decode, escape_percent, hx]

lemma hexVal_percent : hexVal percent = none := by decide

lemma hexVal_plus : hexVal plus = none := by decide

lemma pair_eq_some (hx : pair h l = some x) :
    ∃ y z, hexVal h = some y ∧ hexVal l = some z ∧ x = 16 * y + z := by
  obtain ⟨y, hy, hx⟩ := Option.bind_eq_some_iff.mp hx
  obtain ⟨z, hz, hx⟩ := Option.bind_eq_some_iff.mp hx
  exact ⟨y, z, hy, hz, (Option.some.inj hx).symm⟩

/-- There is neither a `%` nor a `+` in an escape. -/
lemma ne_of_pair (hx : pair h l = some x) :
    (h ≠ percent ∧ l ≠ percent) ∧ h ≠ plus ∧ l ≠ plus := by
  obtain ⟨y, z, hy, hz, -⟩ := pair_eq_some hx
  have hne : ∀ {a b v : UInt8}, hexVal a = some v → hexVal b = none → a ≠ b := by
    rintro a b v ha hb rfl
    rw [ha] at hb
    cases hb
  exact ⟨⟨hne hy hexVal_percent, hne hz hexVal_percent⟩, hne hy hexVal_plus, hne hz hexVal_plus⟩

lemma invalid_cons_of_ne (hc : c ≠ percent) : invalid (c :: s) = invalid s := by
  simp [invalid, hc]

lemma invalid_cons_of_pair (hx : pair h l = some x) :
    invalid (percent :: h :: l :: s) = invalid s := by
  obtain ⟨⟨hh, hl⟩, -⟩ := ne_of_pair hx
  have hesc : escape percent (h :: l :: s) ≠ none := by
    rw [escape_percent, hx]
    exact Option.some_ne_none _
  have hfirst : invalid (percent :: h :: l :: s) = invalid (h :: l :: s) := by
    simp [invalid, hesc]
  rw [hfirst, invalid_cons_of_ne hh, invalid_cons_of_ne hl]

lemma invalid_percent_of_none (hx : escape percent s = none) :
    invalid (percent :: s) = invalid s + 1 := by
  simp [invalid, hx, Nat.add_comm]

/-- No more than the characters are invalid. -/
lemma invalid_le_length (s : List UInt8) : invalid s ≤ s.length := by
  induction s with
  | nil => exact le_rfl
  | cons c s ih =>
      rw [invalid, List.length_cons]
      split <;> omega

/-- No text stands for more bytes than it has. -/
lemma length_decode_le (s : List UInt8) : (decode s).length ≤ s.length := by
  fun_induction decode s with
  | case1 => exact le_rfl
  | case2 c => exact le_rfl
  | case3 c h => exact le_rfl
  | case4 c h l s x hx ih =>
      simp only [List.length_cons]
      omega
  | case5 c h l s hx ih =>
      simp only [List.length_cons] at ih ⊢
      omega

/-! ## Encoding -/

/-- A property of all bytes can be checked. -/
lemma forall_byte {p : UInt8 → Prop} (hp : ∀ n : Fin 256, p (UInt8.ofFin n)) (c : UInt8) : p c := by
  have hc := hp c.toFin
  rwa [UInt8.ofFin_toFin] at hc

/-- The two halves of a byte. -/
lemma halves (c : UInt8) :
    c >>> 4 < 16 ∧ c &&& 0x0f < 16 ∧ (16 : UInt8) * (c >>> 4) + (c &&& 0x0f) = c :=
  forall_byte (p := fun c => c >>> 4 < 16 ∧ c &&& 0x0f < 16 ∧
    (16 : UInt8) * (c >>> 4) + (c &&& 0x0f) = c) (by decide +kernel) c

lemma encode_cons (safe : UInt8 → Bool) (digit : UInt8 → UInt8) (c : UInt8) (s : List UInt8) :
    encode safe digit (c :: s) =
      (if safe c then [c] else [percent, digit (c >>> 4), digit (c &&& 0x0f)]) ++
        encode safe digit s := rfl

section Encode

variable {safe : UInt8 → Bool} {digit : UInt8 → UInt8}
  (hsafe : ∀ c, safe c = true → c ≠ percent ∧ c ≠ plus)
  (hdigit : ∀ d : UInt8, d < 16 → hexVal (digit d) = some d)

include hdigit

lemma pair_digits (c : UInt8) : pair (digit (c >>> 4)) (digit (c &&& 0x0f)) = some c := by
  obtain ⟨hhigh, hlow, hsum⟩ := halves c
  rw [pair, hdigit _ hhigh, hdigit _ hlow]
  exact congrArg some hsum

include hsafe

/-- **An encoded text stands for what was encoded.** -/
theorem decode_encode (s : List UInt8) : decode (encode safe digit s) = s := by
  induction s with
  | nil => rfl
  | cons c s ih =>
      rw [encode_cons]
      split_ifs with hc
      · obtain ⟨hpercent, hplus⟩ := hsafe c hc
        have hesc : escape c (encode safe digit s) = none := by
          by_contra h
          obtain ⟨x, hx⟩ := Option.ne_none_iff_exists'.mp h
          exact hpercent (escape_eq_some hx).1
        rw [List.singleton_append, decode_cons_of_none hesc, ih, plain, if_neg hplus]
      · rw [List.cons_append, List.cons_append, List.singleton_append,
          decode_cons_of_pair (pair_digits hdigit c), ih]

/-- There is nothing invalid in it. -/
theorem invalid_encode (s : List UInt8) : invalid (encode safe digit s) = 0 := by
  induction s with
  | nil => rfl
  | cons c s ih =>
      rw [encode_cons]
      split_ifs with hc
      · rw [List.singleton_append, invalid_cons_of_ne (hsafe c hc).1, ih]
      · rw [List.cons_append, List.cons_append, List.singleton_append,
          invalid_cons_of_pair (pair_digits hdigit c), ih]

/-- There is no `+` in it. -/
lemma plus_notMem_encode (s : List UInt8) : plus ∉ encode safe digit s := by
  intro h
  obtain ⟨c, -, hc⟩ := List.mem_flatMap.mp h
  split_ifs at hc with hs
  · exact (hsafe c hs).2 (List.mem_singleton.mp hc).symm
  · obtain ⟨-, hhigh, hlow⟩ := ne_of_pair (pair_digits hdigit c)
    simp only [List.mem_cons, List.not_mem_nil, or_false] at hc
    obtain hc | hc | hc := hc
    · exact absurd hc (by decide)
    · exact hhigh hc.symm
    · exact hlow hc.symm

end Encode

lemma length_encode_le (safe : UInt8 → Bool) (digit : UInt8 → UInt8) (s : List UInt8) :
    (encode safe digit s).length ≤ 3 * s.length := by
  induction s with
  | nil => exact le_rfl
  | cons c s ih =>
      have hfirst : (if safe c then [c] else
          [percent, digit (c >>> 4), digit (c &&& 0x0f)]).length ≤ 3 := by
        split_ifs
        · exact Nat.le_add_left 1 2
        · exact le_rfl
      rw [encode_cons, List.length_append, List.length_cons]
      omega

end Percent

end Is2
