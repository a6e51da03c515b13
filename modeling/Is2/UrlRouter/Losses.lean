import Is2.UrlRouter.Insert
import Is2.UrlRouter.Places

/-!
# What a lost token costs

A cut in front of a terminal or of a nameless parameter loses it: the rows behind the cut are
*thinned*.  A thinned row takes fewer paths, and no others (`Thinned.matches_of`): a terminal takes
all that is left, and a nameless parameter stands at the end, in front of a slash or in front of a
terminal, so it can take nothing where the path goes on.

So an insertion whose cuts fall between the same tokens of the edge and of the pattern, wherever
that is, adds a row that is thinned out of its pattern, and other rows are thinned at most
(`CutSound.upTo` with `insertRoute_rows`).
-/

namespace Is2

namespace UrlRouter

variable {δ : Type}

/-! ## Thinned rows -/

/-- The first row is the second one without some of its tokens that have no character. -/
inductive Thinned : List (Tok UInt8) → List (Tok UInt8) → Prop where
  | nil : Thinned [] []
  | keep (t : Tok UInt8) {us ts : List (Tok UInt8)} (h : Thinned us ts) :
      Thinned (t :: us) (t :: ts)
  | lose {t : Tok UInt8} {us ts : List (Tok UInt8)} (ht : bare t = true) (h : Thinned us ts) :
      Thinned us (t :: ts)

namespace Thinned

lemma refl (ts : List (Tok UInt8)) : Thinned ts ts := by
  induction ts with
  | nil => exact .nil
  | cons t ts ih => exact .keep t ih

lemma trans {us vs ts : List (Tok UInt8)} (h : Thinned us vs) (h' : Thinned vs ts) :
    Thinned us ts := by
  induction h' generalizing us with
  | nil => exact h
  | lose ht _ ih => exact .lose ht (ih h)
  | keep t _ ih =>
      cases h with
      | keep _ h => exact .keep t (ih h)
      | lose ht h => exact .lose ht (ih h)

lemma append {us ts us' ts' : List (Tok UInt8)} (h : Thinned us ts) (h' : Thinned us' ts') :
    Thinned (us ++ us') (ts ++ ts') := by
  induction h with
  | nil => exact h'
  | keep t _ ih => exact .keep t ih
  | lose ht _ ih => exact .lose ht ih

lemma congruent : Congruent Thinned := ⟨refl, trans, append⟩

lemma dropWhile_bare (ts : List (Tok UInt8)) : Thinned (ts.dropWhile bare) ts := by
  induction ts with
  | nil => exact .nil
  | cons t ts ih =>
      rw [List.dropWhile_cons]
      split_ifs with ht
      · exact .lose ht ih
      · exact .refl _

/-- **A thinned row takes no other paths.** -/
theorem matches_of {us ts : List (Tok UInt8)} (h : Thinned us ts) (hs : Shaped ts) {p : Str}
    (hm : Tok.Matches slash us p) : Tok.Matches slash ts p := by
  induction h generalizing p with
  | nil => exact hm
  | keep t _ ih =>
      cases t with
      | lit c =>
          cases p with
          | nil => cases hm
          | cons b p =>
              rw [Tok.Matches, Tok.eat] at hm ⊢
              split_ifs at hm ⊢
              exact ih hs hm
      | run name => exact ih hs.2 hm
      | rest => rfl
  | @lose t us ts ht h ih =>
      cases t with
      | lit c => cases ht
      | rest => rfl
      | run name =>
          have hts := ih hs.2 hm
          change Tok.eat slash ts (p.dropWhile (· ≠ slash)) = some []
          cases ts with
          | nil =>
              obtain rfl : p = [] := Option.some.inj hts
              rfl
          | cons t ts =>
              rcases hs.1 t rfl with rfl | rfl
              · -- the path goes on with a slash, which the parameter does not take
                cases p with
                | nil => cases hts
                | cons b p =>
                    obtain rfl : slash = b := by
                      by_contra hb
                      rw [Tok.Matches, Tok.eat, if_neg hb] at hts
                      cases hts
                    exact hts
              · rfl

end Thinned

/-! ## Sound cuts -/

/-- **A sound cut** of an edge's pattern and of the pattern to insert: both have a cut of this
length between two tokens, and the tokens before it are the same. -/
def SoundCut (e a : Pattern) (n : ℕ) : Prop :=
  ∃ c ∈ cutAt width (toks e) n, ∃ c' ∈ cutAt width (toks a) n, c.1 = c'.1 ∧ Tok.rest ∉ c.1

instance (e a : Pattern) (n : ℕ) : Decidable (SoundCut e a n) :=
  inferInstanceAs (Decidable (∃ c ∈ cutAt width (toks e) n, ∃ c' ∈ cutAt width (toks a) n,
    c.1 = c'.1 ∧ Tok.rest ∉ c.1))

/-- The pieces of a sound cut spell thinned rows. -/
lemma SoundCut.upTo {e a : Pattern} {n : ℕ} (h : SoundCut e a n) (hpos : 0 < n) :
    CutUpTo Thinned e a n := by
  obtain ⟨⟨l, re⟩, he, ⟨l', ra⟩, ha, hl, hrest⟩ := h
  obtain rfl : l = l' := hl
  obtain ⟨he, hw⟩ := cutAt_some he
  obtain ⟨ha, -⟩ := cutAt_some ha
  have hlen : weight width re ≤ patternLen e := by
    rw [patternLen_eq, he, weight_append]
    omega
  have hlen' : weight width ra ≤ patternLen a - n := by
    rw [patternLen_eq, ha, weight_append]
    omega
  have hsub := patternSub_behind ha hw hpos hlen' hrest
  have hfront := patternSub_front he hw hpos hrest
  have hthin := fun r => Thinned.append (.refl l) (.dropWhile_bare r)
  refine ⟨?_, ?_, fun hend => ?_, fun hwhole => ?_⟩
  · rw [hfront, patternSub_behind he hw hpos hlen hrest, he]
    exact hthin re
  · rw [hfront, hsub, ha]
    exact hthin ra
  · have hnil : ra = [] := by
      refine eq_nil_of_weight ?_
      rw [patternLen_eq, ha, weight_append] at hend
      omega
    rw [hfront, ha, hnil, List.append_nil]
    exact .refl l
  · have hnil : re = [] := by
      refine eq_nil_of_weight ?_
      rw [patternLen_eq, he, weight_append] at hwhole
      omega
    rw [hsub, he, ha, hnil, List.append_nil]
    exact hthin ra

/-- The cut that the insertion makes at this node is sound. -/
def CutSound (n : Node δ) (a : Pattern) : Prop :=
  ∀ r ∈ n.findLongestCommonPrefix a, ∀ q ∈ r, 0 < q.1 →
    ∀ i ∈ q.2, ∀ e ∈ n.edgeList[i]?, SoundCut e.pattern a q.1

instance (n : Node δ) (a : Pattern) : Decidable (CutSound n a) :=
  inferInstanceAs (Decidable (∀ r ∈ n.findLongestCommonPrefix a, ∀ q ∈ r, 0 < q.1 →
    ∀ i ∈ q.2, ∀ e ∈ n.edgeList[i]?, SoundCut e.pattern a q.1))

/-- Sound cuts thin rows. -/
lemma CutSound.upTo {n : Node δ} {a : Pattern} (h : CutSound n a) : CutsUpTo Thinned n a :=
  fun r hr q hq hpos i hi e he => (h r hr q hq hpos i hi e he).upTo hpos

end UrlRouter

end Is2
