import Is2.Core.Segments
import Is2.Support.Ja3

/-!
# `ja3::get_str`: the fingerprint as a text

The version and the four lists are printed with a comma in front of each list, and the values of a
list with a dash between them.  GREASE values are left out.

**Model.**  The object is the lists with `m_str`, which is printed once and kept.  `_PRINT_LIST`
decides about the dash by the *place* of a value in the list, whether or not anything is printed
behind it.

**Result.**  So a list whose last value is a GREASE value ends with a dash, if anything was printed.
Everywhere else GREASE values make no difference: `getStr_eq_text_iff`.
-/

namespace Is2

namespace Ja3

/-! ## The code -/

/-- The object with `m_str`. -/
structure Object extends Ja3 where
  str : List Char
  deriving DecidableEq

/-- The object behind `extract_bytes`: nothing was printed yet. -/
def Object.extracted (fp : Ja3) : Object := ⟨fp, []⟩

/-- `IS_GREASE_VAL` -/
def isGreaseVal (code : ℕ) : Bool := code &&& 0x0f0f == 0x0a0a && code &&& 0xff == code >>> 8

/-- `_PRINT_LIST`, for the object's text and what is left of the list. -/
def printList : List Char → List ℕ → List Char
  | str, [] => str
  | str, c :: l =>
    if isGreaseVal c then printList str l
    else
      let str := str ++ Nat.toDigits 10 c
      -- `&i_c != &_list.back()`
      printList (if l = [] then str else str ++ ['-']) l

/-- `ja3::get_str`; what it returns is the text of the object. -/
def Object.getStr (o : Object) : Object :=
  if o.str ≠ [] then o
  else if o.sslVersion = 0 then o
  else
    let str := o.str ++ Nat.toDigits 10 o.sslVersion ++ [',']
    let str := printList str o.cipherList ++ [',']
    let str := printList str o.sslExtList ++ [',']
    let str := printList str o.ecCurveList ++ [',']
    { o with str := printList str o.ecPtFormatList }

/-! ## What the text should be -/

/-- **The GREASE values**: `0x0a0a`, `0x1a1a` and so on up to `0xfafa`. -/
def IsGrease (code : ℕ) : Prop := ∃ k < 16, code = 0x0a0a + 0x1010 * k

instance (code : ℕ) : Decidable (IsGrease code) := inferInstanceAs (Decidable (∃ k < 16, _))

/-- The values of a list that are not GREASE values, as they are printed. -/
def words (l : List ℕ) : List (List Char) :=
  (l.filter fun c => ¬ IsGrease c).map (Nat.toDigits 10)

/-- The values with a dash between them. -/
def joined (l : List ℕ) : List Char := ['-'].intercalate (words l)

/-- The lists, in the order in which they are printed. -/
def lists (fp : Ja3) : List (List ℕ) :=
  [fp.cipherList, fp.sslExtList, fp.ecCurveList, fp.ecPtFormatList]

/-- **The fingerprint as a text.** -/
def text (fp : Ja3) : List Char :=
  [','].intercalate (Nat.toDigits 10 fp.sslVersion :: fp.lists.map joined)

/-- Two hellos that differ in GREASE values only. -/
structure SameButGrease (fp fp' : Ja3) : Prop where
  version : fp.sslVersion = fp'.sslVersion
  lists : fp.lists.map words = fp'.lists.map words

/-- A value is printed, and the list ends with a GREASE value. -/
def Dangles (l : List ℕ) : Prop := (∃ c ∈ l.getLast?, IsGrease c) ∧ ∃ c ∈ l, ¬ IsGrease c

instance (l : List ℕ) : Decidable (Dangles l) :=
  decidable_of_iff ((l.getLast?.any fun c => decide (IsGrease c)) = true ∧
      l.any (fun c => decide (¬ IsGrease c)) = true) (by simp [Dangles, Option.any_eq_true])

/-! ## GREASE values -/

/-- A value of two equal bytes. -/
lemma isGrease_of_bytes :
    ∀ l < 256, (257 * l) &&& 0x0f0f = 0x0a0a → ∃ k < 16, 257 * l = 0x0a0a + 0x1010 * k := by
  decide +kernel

/-- **`IS_GREASE_VAL`** is true of the sixteen GREASE values. -/
theorem isGreaseVal_iff (code : ℕ) : isGreaseVal code = true ↔ IsGrease code := by
  constructor
  · intro h
    obtain ⟨hnibbles, hbytes⟩ : code &&& 0x0f0f = 0x0a0a ∧ code &&& 0xff = code >>> 8 := by
      simpa [isGreaseVal] using h
    have hlow : code &&& 0xff = code % 256 := Nat.and_two_pow_sub_one_eq_mod code 8
    have hhigh : code >>> 8 = code / 256 := Nat.shiftRight_eq_div_pow code 8
    have hcode : code = 257 * (code % 256) := by omega
    rw [hcode] at hnibbles
    obtain ⟨k, hk, he⟩ := isGrease_of_bytes _ (Nat.mod_lt code (by decide)) hnibbles
    exact ⟨k, hk, hcode.trans he⟩
  · rintro ⟨k, hk, rfl⟩
    interval_cases k <;> rfl

/-! ## A list -/

/-- The dash at the end of a list. -/
def tail (l : List ℕ) : List Char := if Dangles l then ['-'] else []

lemma words_cons (c : ℕ) (l : List ℕ) :
    words (c :: l) = if IsGrease c then words l else Nat.toDigits 10 c :: words l := by
  by_cases h : IsGrease c <;> simp [words, h]

lemma words_eq_nil_iff (l : List ℕ) : words l = [] ↔ ∀ c ∈ l, IsGrease c := by
  simp [words]

/-- A GREASE value in front makes no difference. -/
lemma dangles_cons_of_grease {c : ℕ} (hc : IsGrease c) (l : List ℕ) :
    Dangles (c :: l) ↔ Dangles l := by
  cases l with
  | nil => simp [Dangles, hc]
  | cons d l => simp [Dangles, hc]

/-- Behind a value that is printed, the dash at the end is the dash behind the last value. -/
lemma dangles_cons_of_not {c : ℕ} (hc : ¬ IsGrease c) (l : List ℕ) :
    Dangles (c :: l) ↔ ∃ d ∈ l.getLast?, IsGrease d := by
  cases l with
  | nil => simp [Dangles, hc]
  | cons d l => simp [Dangles, hc]

/-- **`_PRINT_LIST`** prints the values with a dash between them, and sometimes one behind them. -/
lemma printList_eq (str : List Char) (l : List ℕ) :
    printList str l = str ++ joined l ++ tail l := by
  induction l generalizing str with
  | nil => simp [printList, joined, words, tail, Dangles]
  | cons c l ih =>
      by_cases hc : IsGrease c
      · rw [printList, if_pos ((isGreaseVal_iff c).mpr hc), ih]
        simp only [joined, words_cons, if_pos hc, tail, dangles_cons_of_grease hc]
      · have hcode : ¬ isGreaseVal c = true := (isGreaseVal_iff c).not.mpr hc
        rw [printList, if_neg hcode, ih]
        simp only [joined, words_cons, if_neg hc]
        by_cases hl : l = []
        · simp [hl, words, tail, Dangles, hc]
        · rw [if_neg hl]
          by_cases hw : words l = []
          · -- only GREASE values are left
            have hall := (words_eq_nil_iff l).mp hw
            have hdash : Dangles (c :: l) :=
              (dangles_cons_of_not hc l).mpr
                ⟨l.getLast hl, List.getLast?_eq_some_getLast hl, hall _ (List.getLast_mem hl)⟩
            have hnone : ¬ Dangles l := fun ⟨_, d, hd, hg⟩ => hg (hall d hd)
            simp [tail, hdash, hnone, hw]
          · have hsome : ∃ d ∈ l, ¬ IsGrease d := by
              simpa using (words_eq_nil_iff l).not.mp hw
            have hsame : Dangles (c :: l) ↔ Dangles l :=
              (dangles_cons_of_not hc l).trans (and_iff_left hsome).symm
            simp [tail, hsame, List.intercalate_cons_of_ne_nil hw]

/-! ## The text -/

/-- The text of a fresh object: each list with the dash at its end. -/
def printed (fp : Ja3) : List Char :=
  [','].intercalate (Nat.toDigits 10 fp.sslVersion :: fp.lists.map fun l => joined l ++ tail l)

lemma getStr_extracted (fp : Ja3) :
    (Object.extracted fp).getStr.str = if fp.sslVersion = 0 then [] else fp.printed := by
  by_cases h : fp.sslVersion = 0
  · simp [Object.getStr, Object.extracted, h]
  · simp [Object.getStr, Object.extracted, h, printList_eq, printed, lists,
      List.intercalate_cons_cons]

/-- The text is printed once. -/
lemma getStr_getStr (o : Object) : o.getStr.getStr = o.getStr := by
  by_cases hs : o.str = []
  · by_cases hv : o.sslVersion = 0
    · simp [Object.getStr, hs, hv]
    · have hne : o.getStr.str ≠ [] := by simp [Object.getStr, hs, hv, printList_eq]
      rw [Object.getStr, if_pos hne]
  · simp [Object.getStr, hs]

lemma getStr_iterate (o : Object) (n : ℕ) : Object.getStr^[n + 1] o = o.getStr := by
  induction n with
  | zero => rfl
  | succ n ih => rw [Function.iterate_succ_apply', ih, getStr_getStr]

/-! ## Reading the text back -/

lemma isDigit_of_mem_digits {c : Char} {n : ℕ} (h : c ∈ Nat.toDigits 10 n) : c.isDigit = true :=
  Nat.isDigit_of_mem_toDigits (by decide) (by decide) h

/-- There is no comma in a list. -/
lemma comma_notMem_joined (l : List ℕ) : ',' ∉ joined l := by
  intro h
  rcases Segments.mem_intercalate h with h | ⟨w, hw, h⟩
  · exact absurd h (by decide)
  · obtain ⟨n, -, rfl⟩ := List.mem_map.mp hw
    exact absurd (isDigit_of_mem_digits h) (by decide)

lemma comma_notMem_tail (l : List ℕ) : ',' ∉ tail l := by
  by_cases h : Dangles l <;> simp [tail, h]

/-- **No dash too many**: the values of a list are read back from its text. -/
theorem splitOn_joined {l : List ℕ} (h : ∃ c ∈ l, ¬ IsGrease c) :
    (joined l).splitOn '-' = words l := by
  refine List.splitOn_intercalate '-' (fun w hw hm => ?_) ?_
  · obtain ⟨n, -, rfl⟩ := List.mem_map.mp hw
    exact absurd (isDigit_of_mem_digits hm) (by decide)
  · exact fun hw => h.elim fun c hc => hc.2 ((words_eq_nil_iff l).mp hw c hc.1)

/-- The fields of a text are read back. -/
lemma splitOn_fields {n : ℕ} {fs : List (List Char)} (h : ∀ f ∈ fs, ',' ∉ f) :
    ([','].intercalate (Nat.toDigits 10 n :: fs)).splitOn ',' = Nat.toDigits 10 n :: fs := by
  refine List.splitOn_intercalate ',' (fun f hf hm => ?_) (List.cons_ne_nil _ _)
  rcases List.mem_cons.mp hf with rfl | hf
  · exact absurd (isDigit_of_mem_digits hm) (by decide)
  · exact h f hf hm

lemma splitOn_printed (fp : Ja3) :
    fp.printed.splitOn ',' =
      Nat.toDigits 10 fp.sslVersion :: fp.lists.map fun l => joined l ++ tail l := by
  refine splitOn_fields fun f hf hm => ?_
  obtain ⟨l, -, rfl⟩ := List.mem_map.mp hf
  rcases List.mem_append.mp hm with hm | hm
  · exact comma_notMem_joined l hm
  · exact comma_notMem_tail l hm

/-- **The fields of the fingerprint** are read back. -/
theorem splitOn_text (fp : Ja3) :
    fp.text.splitOn ',' = Nat.toDigits 10 fp.sslVersion :: fp.lists.map joined := by
  refine splitOn_fields fun f hf hm => ?_
  obtain ⟨l, -, rfl⟩ := List.mem_map.mp hf
  exact comma_notMem_joined l hm

/-! ## The fingerprint -/

lemma printed_eq_text_iff (fp : Ja3) : fp.printed = fp.text ↔ ∀ l ∈ fp.lists, ¬ Dangles l := by
  constructor
  · intro h l hl hd
    have hfields : fp.lists.map (fun l => joined l ++ tail l) = fp.lists.map joined := by
      have hsplit := congrArg (List.splitOn ',') h
      rw [splitOn_printed, splitOn_text] at hsplit
      exact (List.cons.inj hsplit).2
    have hfield := List.map_inj_left.mp hfields l hl
    simp [tail, hd] at hfield
  · intro h
    have hfields : fp.lists.map (fun l => joined l ++ tail l) = fp.lists.map joined :=
      List.map_inj_left.mpr fun l hl => by simp [tail, h l hl]
    rw [printed, text, hfields]

/-- Two lists with the same values have the same text where both or none end with a dash. -/
lemma field_eq_iff {l l' : List ℕ} (h : words l = words l') :
    joined l ++ tail l = joined l' ++ tail l' ↔ (Dangles l ↔ Dangles l') := by
  rw [joined, joined, h, List.append_cancel_left_eq]
  by_cases hd : Dangles l <;> by_cases hd' : Dangles l' <;> simp [tail, hd, hd']

lemma printed_eq_printed_iff {fp fp' : Ja3} (h : SameButGrease fp fp') :
    fp.printed = fp'.printed ↔
      List.Forall₂ (fun l l' => Dangles l ↔ Dangles l') fp.lists fp'.lists := by
  obtain ⟨hcipher, hext, hcurve, hpt⟩ : words fp.cipherList = words fp'.cipherList ∧
      words fp.sslExtList = words fp'.sslExtList ∧ words fp.ecCurveList = words fp'.ecCurveList ∧
      words fp.ecPtFormatList = words fp'.ecPtFormatList := by
    simpa [lists] using h.lists
  have hfields : fp.printed = fp'.printed ↔
      fp.lists.map (fun l => joined l ++ tail l) = fp'.lists.map fun l => joined l ++ tail l := by
    constructor
    · intro he
      have hsplit := congrArg (List.splitOn ',') he
      rw [splitOn_printed, splitOn_printed] at hsplit
      exact (List.cons.inj hsplit).2
    · intro he
      rw [printed, printed, h.version, he]
  rw [hfields]
  simp [lists, field_eq_iff, hcipher, hext, hcurve, hpt]

/-- **The fingerprint is printed as it should be**, at every call, unless the version is zero, which
stands for none, or a list ends with a GREASE value behind one that is printed.  Two hellos that
differ in GREASE values only have the same text if the lists of both end so, or of none. -/
theorem getStr_eq_text_iff (fp : Ja3) :
    ((∀ n, (Object.getStr^[n + 1] (.extracted fp)).str = fp.text) ↔
      fp.sslVersion ≠ 0 ∧ ∀ l ∈ fp.lists, ¬ Dangles l) ∧
    ∀ fp', SameButGrease fp fp' →
      ((Object.extracted fp).getStr.str = (Object.extracted fp').getStr.str ↔
        fp.sslVersion = 0 ∨
          List.Forall₂ (fun l l' => Dangles l ↔ Dangles l') fp.lists fp'.lists) := by
  constructor
  · simp only [getStr_iterate, forall_const, getStr_extracted]
    by_cases hv : fp.sslVersion = 0
    · simp [hv, text, lists, List.intercalate_cons_cons]
    · simp only [ne_eq, hv, if_false, not_false_eq_true, true_and]
      exact printed_eq_text_iff fp
  · intro fp' h
    rw [getStr_extracted, getStr_extracted, ← h.version]
    by_cases hv : fp.sslVersion = 0
    · simp [hv]
    · simp only [hv, if_false, false_or]
      exact printed_eq_printed_iff h

/-- A hello with two ciphers, and with a GREASE value in front of them. -/
def greaseFirst : Ja3 := ⟨0x0303, [0x0a0a, 0x1301, 0x1302], [], [], []⟩

/-- The GREASE value stands behind the ciphers. -/
def greaseLast : Ja3 := ⟨0x0303, [0x1301, 0x1302, 0x0a0a], [], [], []⟩

theorem getStr_eq_text_iff_sample :
    (∀ n, (Object.getStr^[n + 1] (.extracted greaseFirst)).str = greaseFirst.text) ∧
    (Object.extracted greaseFirst).getStr.str ≠ (Object.extracted greaseLast).getStr.str :=
  ⟨(getStr_eq_text_iff greaseFirst).1.mpr (by decide +kernel),
    ((getStr_eq_text_iff greaseFirst).2 greaseLast ⟨by decide +kernel, by decide +kernel⟩).not.mpr
      (by decide +kernel)⟩

/-- **A dash too many**: `771,4865-4866-,,,` for a list that ends with a GREASE value, and
`771,4865-4866,,,` where the same value stands in front. -/
theorem getStr_grease_last :
    (Object.extracted greaseLast).getStr.str = "771,4865-4866-,,,".toList ∧
    (Object.extracted greaseLast).getStr.str ≠ greaseLast.text ∧
    SameButGrease greaseFirst greaseLast ∧
    (Object.extracted greaseFirst).getStr.str = "771,4865-4866,,,".toList ∧
    (Object.extracted greaseFirst).getStr.str ≠ (Object.extracted greaseLast).getStr.str :=
  ⟨by decide +kernel, by decide +kernel, ⟨by decide +kernel, by decide +kernel⟩,
    by decide +kernel, by decide +kernel⟩

end Ja3

end Is2
