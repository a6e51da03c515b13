import Mathlib.Algebra.BigOperators.Group.List.Basic
import Mathlib.Algebra.Ring.Nat
import Mathlib.Data.List.TakeWhile

/-!
# The segments of a list

A list is cut at a separator, and what is empty is left out.

* `segments` — the parts that are left, with one equation for each way in which a list begins:
  `segments_nil`, `segments_skip`, `segments_segment`.
* `segment_induction` — induction over a list, segment by segment, as it is read from the front.
* `sum_segments_le` — the segments have no more elements than the list.
* `mem_intercalate` — what is in parts that are put together is in a part, or a separator.
-/

namespace Is2

namespace Segments

variable {α : Type} [DecidableEq α] {sep : α}

/-- **The parts of a list between separators**, without the empty ones. -/
def segments (sep : α) (a : List α) : List (List α) := (a.splitOn sep).filter (· ≠ [])

/-- What is behind a segment: the end of the list, or a separator. -/
def Behind (sep : α) (rest : List α) : Prop := rest = [] ∨ ∃ r, rest = sep :: r

/-! ## From the front -/

/-- A segment goes up to the separator behind it. -/
lemma takeWhile_segment {seg rest : List α} (hmem : sep ∉ seg) (hrest : Behind sep rest) :
    (seg ++ rest).takeWhile (fun c => !decide (c = sep)) = seg := by
  have hin : ∀ c ∈ seg, (!decide (c = sep)) = true := by
    intro c hc
    simpa using fun h' : c = sep => hmem (h' ▸ hc)
  rw [List.takeWhile_append_of_pos hin]
  obtain rfl | ⟨r, rfl⟩ := hrest
  · exact List.append_nil _
  · rw [List.takeWhile_cons_of_neg (by simp), List.append_nil]

lemma notMem_takeWhile (r : List α) : sep ∉ r.takeWhile fun c => !decide (c = sep) := by
  intro hmem
  simpa using List.mem_takeWhile_imp hmem

lemma behind_dropWhile (r : List α) : Behind sep (r.dropWhile fun c => !decide (c = sep)) := by
  cases hrest : r.dropWhile fun c => !decide (c = sep) with
  | nil => exact .inl rfl
  | cons c r' =>
      have hc := List.head?_dropWhile_not (fun c => !decide (c = sep)) r
      rw [hrest] at hc
      have hsep : c = sep := by simpa using hc
      exact .inr ⟨r', by rw [hsep]⟩

/-- **A list is read segment by segment.** -/
theorem segment_induction (sep : α) {p : List α → Prop} (nil : p [])
    (skip : ∀ r, p r → p (sep :: r))
    (segment : ∀ seg rest, seg ≠ [] → sep ∉ seg → Behind sep rest → p (rest.drop 1) →
      p (seg ++ rest)) (r : List α) : p r := by
  induction hn : r.length using Nat.strong_induction_on generalizing r with
  | _ n ih =>
      have happend := List.takeWhile_append_dropWhile (p := fun c => !decide (c = sep)) (l := r)
      have hlen := congrArg List.length happend
      rw [List.length_append] at hlen
      by_cases hseg : r.takeWhile (fun c => !decide (c = sep)) = []
      · cases r with
        | nil => exact nil
        | cons c r =>
            have hc : c = sep := by
              by_contra hc
              rw [List.takeWhile_cons_of_pos (by simpa using hc)] at hseg
              cases hseg
            rw [List.length_cons] at hn
            exact hc ▸ skip r (ih r.length (by omega) r rfl)
      · rw [← happend]
        have hpos := List.length_pos_iff.mpr hseg
        refine segment _ _ hseg (notMem_takeWhile r) (behind_dropWhile r) (ih _ ?_ _ rfl)
        rw [List.length_drop]
        omega

/-! ## The segments -/

lemma segments_nil : segments sep [] = [] := by
  rw [segments, List.splitOn_nil]
  rfl

/-- An empty part is no segment. -/
lemma segments_skip (r : List α) : segments sep (sep :: r) = segments sep r := by
  have hsplit : (sep :: r).splitOn sep = List.splitOn sep [] ++ r.splitOn sep :=
    List.splitOn_append_cons_self [] r
  rw [segments, hsplit, List.splitOn_nil, List.filter_append, segments]
  rfl

lemma segments_segment {seg rest : List α} (hne : seg ≠ []) (hmem : sep ∉ seg)
    (hrest : Behind sep rest) :
    segments sep (seg ++ rest) = seg :: segments sep (rest.drop 1) := by
  have hone : [seg].filter (· ≠ []) = [seg] := by simp [hne]
  obtain rfl | ⟨r, rfl⟩ := hrest
  · rw [List.append_nil, segments, List.splitOn_eq_singleton hmem, hone, List.drop_nil,
      segments_nil]
  · rw [segments, List.splitOn_append_cons_self, List.splitOn_eq_singleton hmem,
      List.filter_append, hone]
    rfl

/-- There are no segments in separators. -/
lemma segments_of_separators {a : List α} (h : ∀ c ∈ a, c = sep) : segments sep a = [] := by
  induction a with
  | nil => exact segments_nil
  | cons c a ih =>
      obtain rfl := h c List.mem_cons_self
      rw [segments_skip, ih fun d hd => h d (List.mem_cons_of_mem _ hd)]

/-- What is no more than the length of each segment is in sum no more than the length. -/
lemma sum_segments_le {f : List α → ℕ} (hf : ∀ seg, f seg ≤ seg.length) (a : List α) :
    ((segments sep a).map f).sum ≤ a.length := by
  induction a using segment_induction sep with
  | nil =>
      rw [segments_nil]
      exact le_rfl
  | skip r ih =>
      rw [segments_skip]
      exact ih.trans (Nat.le_succ _)
  | segment seg rest hne hmem hrest ih =>
      have hseg := hf seg
      rw [segments_segment hne hmem hrest, List.map_cons, List.sum_cons, List.length_append]
      rw [List.length_drop] at ih
      omega

/-! ## Parts put together -/

omit [DecidableEq α] in
lemma mem_intercalate {c : α} {ls : List (List α)} (h : c ∈ [sep].intercalate ls) :
    c = sep ∨ ∃ l ∈ ls, c ∈ l := by
  induction ls with
  | nil => simp at h
  | cons l ls ih =>
      by_cases hls : ls = []
      · exact .inr ⟨l, List.mem_cons_self, by simpa [hls] using h⟩
      · rw [List.intercalate_cons_of_ne_nil hls] at h
        simp only [List.append_assoc, List.mem_append, List.mem_singleton] at h
        rcases h with h | h | h
        · exact .inr ⟨l, List.mem_cons_self, h⟩
        · exact .inl h
        · rcases ih h with h | ⟨m, hm, hc⟩
          · exact .inl h
          · exact .inr ⟨m, List.mem_cons_of_mem _ hm, hc⟩

end Segments

end Is2
