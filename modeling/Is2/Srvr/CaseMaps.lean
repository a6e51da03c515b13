import Is2.Core.OrderedMap
import Is2.Srvr.Hmsg
import Mathlib.Data.List.Lex

/-!
# The comparators of the header maps

`data.h` orders names ignoring ASCII case, in two ways.

* `case_i_comp` is for `std::string`: it compares them up to their NULs.  It is a strict weak order,
  and takes two names for the same when they are equal ignoring case (`caseIComp_strictWeak`,
  `tied_caseIComp`).
* `mutable_data_case_i_comp` is for a pointer and a length.  It compares as many characters as the
  shorter name has, and so takes a name for the same as each of its beginnings
  (`tied_dataCaseIComp`).
-/

namespace Is2

/-- The bytes of a name or of a value. -/
abbrev Bytes := List UInt8

/-- The characters of an ASCII literal, without its NUL. -/
def ascii (s : String) : Bytes := s.toList.map fun c => c.toNat.toUInt8

namespace CaseMaps

open OrderedMap

/-! ## `strcasecmp` -/

/-- A character ignoring case, as `strcasecmp` compares it. -/
def fold (c : UInt8) : ℕ := (Hmsg.toLower c).toNat

/-- `strncasecmp(a, b, n)`, where both have at least `n` characters. -/
def strncasecmp : ℕ → Bytes → Bytes → ℤ
  | n + 1, x :: xs, y :: ys =>
    if fold x ≠ fold y then fold x - fold y
    else if x = 0 then 0
    else strncasecmp n xs ys
  | _, _, _ => 0

/-- `strcasecmp(a.c_str(), b.c_str())` -/
def strcasecmp : Bytes → Bytes → ℤ
  | [], [] => 0
  | [], y :: _ => -fold y
  | x :: _, [] => fold x
  | x :: xs, y :: ys =>
    if fold x ≠ fold y then fold x - fold y
    else if x = 0 then 0
    else strcasecmp xs ys

/-- `case_i_comp` -/
def caseIComp (lhs rhs : Bytes) : Bool := strcasecmp lhs rhs < 0

/-- `mutable_data_case_i_comp` -/
def dataCaseIComp (lhs rhs : Bytes) : Bool :=
  strncasecmp (if rhs.length < lhs.length then rhs.length else lhs.length) lhs rhs < 0

lemma fold_eq_zero {c : UInt8} : fold c = 0 ↔ c = 0 := by
  rw [fold, Hmsg.toLower]
  split_ifs with h
  · have hlow : 65 ≤ c.toNat := UInt8.le_iff_toNat_le.mp h.1
    have hhigh : c.toNat ≤ 90 := UInt8.le_iff_toNat_le.mp h.2
    have hadd : (c + 32).toNat = c.toNat + 32 := by
      rw [UInt8.toNat_add]
      exact Nat.mod_eq_of_lt (by have : (32 : UInt8).toNat = 32 := rfl; omega)
    refine iff_of_false (by omega) ?_
    rintro rfl
    exact absurd hlow (by decide)
  · exact ⟨fun h => UInt8.toNat_inj.mp h, fun h => by rw [h]; rfl⟩

/-- What the comparison of the first characters comes to. -/
lemma first_lt_iff {x y : UInt8} {n : ℤ} :
    (if fold x ≠ fold y then (fold x : ℤ) - fold y else if x = 0 then 0 else n) < 0 ↔
      fold x < fold y ∨ (fold x = fold y ∧ fold x ≠ 0 ∧ n < 0) := by
  split_ifs with hne hx
  · omega
  · rw [← fold_eq_zero] at hx
    omega
  · rw [← fold_eq_zero] at hx
    omega

/-! ## `case_i_comp` -/

/-- A name up to its NUL, ignoring case. -/
def lowerName (a : Bytes) : List ℕ := (a.takeWhile (· ≠ 0)).map fold

lemma lowerName_cons {x : UInt8} {xs : Bytes} :
    lowerName (x :: xs) = if x = 0 then [] else fold x :: lowerName xs := by
  by_cases hx : x = 0
  · simp [lowerName, hx]
  · simp [lowerName, hx]

/-- `case_i_comp` is the lexicographic order of the names ignoring case. -/
lemma caseIComp_iff {a b : Bytes} : caseIComp a b = true ↔ lowerName a < lowerName b := by
  induction a generalizing b with
  | nil =>
      cases b with
      | nil => simp [caseIComp, strcasecmp]
      | cons y ys =>
          rw [lowerName_cons]
          by_cases hy : y = 0
          · simp [caseIComp, strcasecmp, lowerName, hy, fold_eq_zero.mpr]
          · have := Nat.pos_of_ne_zero (mt fold_eq_zero.mp hy)
            simp [caseIComp, strcasecmp, lowerName, hy, this]
  | cons x xs ih =>
      cases b with
      | nil =>
          have hnot : ¬ (fold x : ℤ) < 0 := by omega
          simp [caseIComp, strcasecmp, lowerName, hnot]
      | cons y ys =>
          have hstep : caseIComp (x :: xs) (y :: ys) = true ↔
              fold x < fold y ∨ (fold x = fold y ∧ fold x ≠ 0 ∧ caseIComp xs ys = true) := by
            rw [caseIComp, strcasecmp, decide_eq_true_iff, first_lt_iff, caseIComp,
              decide_eq_true_iff]
          rw [hstep, ih, lowerName_cons, lowerName_cons]
          split_ifs with hx hy hy
          all_goals rw [← fold_eq_zero] at hx hy
          · have hlt : ¬ ([] : List ℕ) < [] := List.lt_irrefl _
            simp only [hlt, iff_false]
            omega
          · have hlt : [] < fold y :: lowerName ys := List.nil_lt_cons _ _
            simp only [hlt, iff_true]
            omega
          · have hlt : ¬ fold x :: lowerName xs < [] := List.not_lt_nil _
            simp only [hlt, iff_false]
            omega
          · rw [List.cons_lt_cons_iff]
            tauto

/-- Two names are tied when they are equal ignoring case. -/
lemma tied_caseIComp {a b : Bytes} : Tied caseIComp a b ↔ lowerName a = lowerName b := by
  rw [Tied, ← Bool.not_eq_true, ← Bool.not_eq_true, caseIComp_iff, caseIComp_iff, not_lt, not_lt]
  exact ⟨fun h => le_antisymm h.2 h.1, fun h => ⟨h.ge, h.le⟩⟩

lemma strcasecmp_swap (a b : Bytes) : strcasecmp b a = -strcasecmp a b := by
  induction a generalizing b with
  | nil => cases b <;> simp [strcasecmp]
  | cons x xs ih =>
      cases b with
      | nil => simp [strcasecmp]
      | cons y ys =>
          rw [strcasecmp, strcasecmp]
          by_cases hxy : fold x = fold y
          · have hzero : y = 0 ↔ x = 0 := by rw [← fold_eq_zero, ← fold_eq_zero, hxy]
            rw [if_neg (not_not.mpr hxy.symm), if_neg (not_not.mpr hxy)]
            by_cases hx : x = 0
            · rw [if_pos (hzero.mpr hx), if_pos hx, neg_zero]
            · rw [if_neg (mt hzero.mp hx), if_neg hx, ih]
          · rw [if_pos (Ne.symm hxy), if_pos hxy]
            omega

/-- `strcasecmp` finds no difference between names that are tied. -/
lemma strcasecmp_eq_zero_iff {a b : Bytes} : strcasecmp a b = 0 ↔ Tied caseIComp a b := by
  rw [Tied, caseIComp, caseIComp, strcasecmp_swap a b, decide_eq_false_iff_not,
    decide_eq_false_iff_not]
  omega

/-- **`case_i_comp` is a strict weak order** on all names. -/
lemma caseIComp_strictWeak (ks : List Bytes) : StrictWeak caseIComp ks where
  irrefl a _ := (tied_caseIComp.mpr rfl).1
  trans a _ b _ c _ hab hbc := by
    rw [caseIComp_iff] at hab hbc ⊢
    exact hab.trans hbc
  tied a _ b _ c _ hab hbc := by
    rw [tied_caseIComp] at hab hbc ⊢
    exact hab.trans hbc

/-! ## `mutable_data_case_i_comp` -/

/-- **Two names overlap**, ignoring case: one is a beginning of the other, or they are equal up to a
NUL. -/
def Overlap (a b : Bytes) : Prop :=
  a.map fold <+: b.map fold ∨ b.map fold <+: a.map fold ∨
    ∃ u, u ++ [0] <+: a.map fold ∧ u ++ [0] <+: b.map fold

lemma dataCaseIComp_nil_left (b : Bytes) : dataCaseIComp [] b = false := by
  simp [dataCaseIComp, strncasecmp]

lemma dataCaseIComp_nil_right (a : Bytes) : dataCaseIComp a [] = false := by
  cases a with
  | nil => rfl
  | cons x xs => simp [dataCaseIComp, strncasecmp]

lemma dataCaseIComp_cons {x y : UInt8} {xs ys : Bytes} :
    dataCaseIComp (x :: xs) (y :: ys) = true ↔
      fold x < fold y ∨ (fold x = fold y ∧ fold x ≠ 0 ∧ dataCaseIComp xs ys = true) := by
  have hlen : (if (y :: ys).length < (x :: xs).length then (y :: ys).length
      else (x :: xs).length) =
        (if ys.length < xs.length then ys.length else xs.length) + 1 := by
    simp only [List.length_cons, Nat.add_lt_add_iff_right]
    split_ifs <;> rfl
  rw [dataCaseIComp, hlen, strncasecmp, decide_eq_true_iff, first_lt_iff, dataCaseIComp,
    decide_eq_true_iff]

lemma overlap_cons {x y : UInt8} {xs ys : Bytes} :
    Overlap (x :: xs) (y :: ys) ↔ fold x = fold y ∧ (x = 0 ∨ Overlap xs ys) := by
  simp only [Overlap, List.map_cons, List.cons_prefix_cons]
  constructor
  · rintro (⟨heq, h⟩ | ⟨heq, h⟩ | ⟨u, hux, huy⟩)
    · exact ⟨heq, .inr (.inl h)⟩
    · exact ⟨heq.symm, .inr (.inr (.inl h))⟩
    · cases u with
      | nil =>
          simp only [List.nil_append, List.cons_prefix_cons, List.nil_prefix, and_true] at hux huy
          exact ⟨hux.symm.trans huy, .inl (fold_eq_zero.mp hux.symm)⟩
      | cons c u =>
          rw [List.cons_append, List.cons_prefix_cons] at hux huy
          exact ⟨hux.1.symm.trans huy.1, .inr (.inr (.inr ⟨u, hux.2, huy.2⟩))⟩
  · rintro ⟨heq, rfl | h | h | ⟨u, hux, huy⟩⟩
    · have h0 : fold 0 = 0 := rfl
      exact .inr (.inr ⟨[], by simp [h0], by simp [← heq, h0]⟩)
    · exact .inl ⟨heq, h⟩
    · exact .inr (.inl ⟨heq.symm, h⟩)
    · refine .inr (.inr ⟨fold x :: u, ?_, ?_⟩)
      · exact List.cons_prefix_cons.mpr ⟨rfl, hux⟩
      · exact List.cons_prefix_cons.mpr ⟨heq, huy⟩

/-- **Two names are tied when they overlap.** -/
lemma tied_dataCaseIComp {a b : Bytes} : Tied dataCaseIComp a b ↔ Overlap a b := by
  induction a generalizing b with
  | nil => simp [Tied, dataCaseIComp_nil_left, dataCaseIComp_nil_right, Overlap]
  | cons x xs ih =>
      cases b with
      | nil => simp [Tied, dataCaseIComp_nil_left, dataCaseIComp_nil_right, Overlap]
      | cons y ys =>
          rw [overlap_cons, ← fold_eq_zero (c := x), ← ih, Tied, Tied, ← Bool.not_eq_true,
            ← Bool.not_eq_true, ← Bool.not_eq_true, ← Bool.not_eq_true, dataCaseIComp_cons,
            dataCaseIComp_cons]
          rcases Nat.lt_trichotomy (fold x) (fold y) with hlt | heq | hgt
          · simp [hlt, hlt.ne]
          · simp only [heq, Nat.lt_irrefl, false_or, true_and]
            tauto
          · simp [hgt, hgt.ne']

lemma Overlap.of_isPrefix {a b : Bytes} (h : a.map fold <+: b.map fold) : Overlap a b := .inl h

/-- Whether names overlap is a matter of their characters ignoring case. -/
lemma overlap_congr {a a' b b' : Bytes} (ha : a.map fold = a'.map fold)
    (hb : b.map fold = b'.map fold) : Overlap a b ↔ Overlap a' b' := by
  rw [Overlap, Overlap, ha, hb]

lemma dataCaseIComp_irrefl (a : Bytes) : dataCaseIComp a a = false :=
  (tied_dataCaseIComp.mpr (.of_isPrefix (List.prefix_refl _))).1

/-- Of two differences the first one decides. -/
lemma dataCaseIComp_trans {a b c : Bytes} (hab : dataCaseIComp a b = true)
    (hbc : dataCaseIComp b c = true) : dataCaseIComp a c = true := by
  induction a generalizing b c with
  | nil => simp [dataCaseIComp_nil_left] at hab
  | cons x xs ih =>
      cases b with
      | nil => simp [dataCaseIComp_nil_right] at hab
      | cons y ys =>
          cases c with
          | nil => simp [dataCaseIComp_nil_right] at hbc
          | cons z zs =>
              rw [dataCaseIComp_cons] at hab hbc ⊢
              rcases hab with hxy | ⟨hxy, hx, hab⟩
              · exact .inl (by omega)
              · rcases hbc with hyz | ⟨hyz, -, hbc⟩
                · exact .inl (by omega)
                · exact .inr ⟨hxy.trans hyz, hx, ih hab hbc⟩

/-- **`mutable_data_case_i_comp` is a strict weak order** on keys that it takes for the same when
they are. -/
lemma dataCaseIComp_strictWeak {γ : Type} {ks : List Bytes} {f : Bytes → γ}
    (h : ∀ a ∈ ks, ∀ b ∈ ks, Tied dataCaseIComp a b ↔ f a = f b) :
    StrictWeak dataCaseIComp ks where
  irrefl a _ := dataCaseIComp_irrefl a
  trans _ _ _ _ _ _ hab hbc := dataCaseIComp_trans hab hbc
  tied a ha b hb c hc hab hbc := by
    rw [h a ha b hb] at hab
    rw [h b hb c hc] at hbc
    rw [h a ha c hc]
    exact hab.trans hbc

/-! ## Maps from names to values -/

/-- `kv_map_list_t` -/
abbrev KvMapList := Entries Bytes (List Bytes)

/-- `kv_map_list_insert` -/
def kvMapListInsert (m : KvMapList) (key val : Bytes) : KvMapList :=
  (lookup caseIComp m key).elim (insert caseIComp m key [val]) fun _ =>
    update caseIComp m key (· ++ [val])

/-- Each name that is not empty, with each of its values. -/
def kvPairs (m : KvMapList) : List (Bytes × Bytes) :=
  m.flatMap fun e => if e.1 = [] then [] else e.2.map (Prod.mk e.1)

end CaseMaps

end Is2
