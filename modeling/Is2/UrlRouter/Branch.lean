import Is2.Core.Segments
import Is2.UrlRouter.Bindings
import Is2.UrlRouter.Places
import Is2.UrlRouter.Through

/-!
# Does `edge::branch` keep the meaning of an edge?

It does where the cut is between two tokens and drops nothing (`Place`), as then the halves take
from a path what the whole does.  Elsewhere it depends on what stands behind the cut.

* Where the cut drops a terminal or a nameless parameter, what is found behind must not need it
  (`Unmissed`).  Behind a terminal there are no edges, so nothing is found there after the cut.
* Where the cut is inside the name of a parameter, the front binds what the parameter takes to the
  first half of the name, and the back binds nothing but the empty string to the second half.
  Nobody sees this only if what is found behind binds all three names again (`BoundAgain`).

`branch_keeps` is about every edge of every trie that `add_route` makes.
-/

namespace Is2

namespace UrlRouter

variable {δ : Type}

/-! ## Paths that come to the cut -/

/-- Behind the scan of a parameter the path is at a slash. -/
lemma head_dropWhile {p : Str} (h : p.dropWhile (· ≠ slash) ≠ []) :
    (p.dropWhile (· ≠ slash)).head? = some slash := by
  simp only [ne_eq, decide_not] at h ⊢
  obtain ⟨s, hs⟩ := (Segments.behind_dropWhile p).resolve_left h
  rw [hs, List.head?_cons]

lemma scan_append {x s : Str} (hx : slash ∉ x) (hs : s.head? = some slash) :
    (x ++ s).takeWhile (· ≠ slash) = x ∧ (x ++ s).dropWhile (· ≠ slash) = s := by
  have htake : (x ++ s).takeWhile (· ≠ slash) = x := by
    simpa using Segments.takeWhile_segment hx (.inr ⟨s.tail, List.eq_cons_of_mem_head? hs⟩)
  have hsplit : (x ++ s).takeWhile (· ≠ slash) ++ (x ++ s).dropWhile (· ≠ slash) = x ++ s :=
    List.takeWhile_append_dropWhile
  rw [htake, List.append_right_inj] at hsplit
  exact ⟨htake, hsplit⟩

/-- A path that the tokens take, with the letter `w` for each parameter. -/
def fill (w : UInt8) : List (Tok UInt8) → Str
  | [] => []
  | .lit c :: ts => c :: fill w ts
  | .run _ :: ts => w :: fill w ts
  | .rest :: ts => fill w ts

lemma nul_notMem_fill {w : UInt8} (hw : w ≠ 0) {ts : List (Tok UInt8)} (h : Tok.lit 0 ∉ ts) :
    0 ∉ fill w ts := by
  induction ts with
  | nil => exact List.not_mem_nil
  | cons t ts ih =>
      obtain ⟨ht, hts⟩ := not_or.mp (List.mem_cons.not.mp h)
      cases t with
      | lit c =>
          rw [fill, List.mem_cons, not_or]
          exact ⟨fun hc => ht (congrArg Tok.lit hc), ih hts⟩
      | run name =>
          rw [fill, List.mem_cons, not_or]
          exact ⟨hw.symm, ih hts⟩
      | rest => exact ih hts

/-- **In front of a slash or a parameter the path is taken**, and each name is bound to the letter
or not at all. -/
lemma eat_fill {w : UInt8} (hw : w ≠ slash) {ts us : List (Tok UInt8)} (h : Shaped (ts ++ us))
    (hus : us ≠ []) {s : Str} (hs : s.head? = some slash ∨ ∃ name, .run name ∈ us.head?) :
    Tok.eat slash ts (fill w ts ++ s) = some s ∧
      ∀ x, bindings ts (fill w ts ++ s) x = none ∨ bindings ts (fill w ts ++ s) x = some [w] := by
  induction ts with
  | nil => exact ⟨rfl, fun _ => .inl rfl⟩
  | cons t ts ih =>
      obtain ⟨heat, hbind⟩ := ih h.tail
      cases t with
      | lit c =>
          rw [fill, List.cons_append, Tok.eat, if_pos rfl]
          exact ⟨heat, hbind⟩
      | run name =>
          have hslash : (fill w ts ++ s).head? = some slash := by
            cases ts with
            | nil =>
                rcases hs with hs | ⟨name', hrun⟩
                · exact hs
                · rcases h.1 _ hrun with he | he <;> cases he
            | cons t ts =>
                rcases h.1 t rfl with rfl | rfl
                · rfl
                · exact absurd h.2 (List.append_ne_nil_of_right_ne_nil ts hus)
          obtain ⟨htake, hdrop⟩ := scan_append (x := [w]) (by simpa using hw.symm) hslash
          rw [List.singleton_append] at htake hdrop
          rw [fill, List.cons_append, Tok.eat, hdrop]
          refine ⟨heat, fun x => ?_⟩
          rw [bindings, Tok.bound, hdrop, htake]
          rcases hbind x with hnone | hsome
          · rw [← bindings, hnone, Option.none_or]
            split_ifs
            · exact .inr rfl
            · exact .inl rfl
          · exact .inr (by rw [← bindings, hsome]; rfl)
      | rest => exact absurd h (List.append_ne_nil_of_right_ne_nil ts hus)

/-- A literal NUL takes no path without NUL. -/
lemma not_eat_nul {ts : List (Tok UInt8)} {p s : Str} (hts : Tok.lit 0 ∈ ts) (hp : 0 ∉ p)
    (heat : Tok.eat slash ts p = some s) : s = [] := by
  induction ts, p using Tok.eat.induct slash with
  | case1 p => cases hts
  | case2 => cases heat
  | case3 ts b p ih =>
      obtain ⟨hb, hp⟩ := not_or.mp (List.mem_cons.not.mp hp)
      rw [Tok.eat, if_pos rfl] at heat
      rcases List.mem_cons.mp hts with hlit | hts
      · exact absurd (Tok.lit.inj hlit) hb
      · exact ih hts hp heat
  | case4 a ts b p hab =>
      rw [Tok.eat, if_neg hab] at heat
      cases heat
  | case5 name ts p ih =>
      have hts : Tok.lit 0 ∈ ts := by simpa using hts
      exact ih hts (fun hm => hp ((List.dropWhile_suffix _).subset hm)) heat
  | case6 => exact (Option.some.inj heat).symm

section Cut

variable {e : Edge δ} {k : ℕ} {front us back : List (Tok UInt8)} {left right : Str}

/-- A path that does not come to the cut is not taken, before or after. -/
lemma not_obtains {ts : List (Tok UInt8)} (hwhole : toks e.pattern = front ++ us)
    (hfront : toks (patternSub e.pattern 0 k) = front ++ ts) {p : Str} (hp : 0 ∉ p)
    (hend : ¬ EndsAtCut e k p) (heat : Tok.eat slash front p = none) (d : δ)
    (m : Str → Option Str) : ¬ e.Obtains p d m ∧ ¬ (e.branch k).Obtains p d m := by
  rw [obtains_branch hp hend, obtains_iff hp, hwhole, hfront]
  constructor
  · intro h
    obtain ⟨s, hs⟩ := h.front
    cases heat.symm.trans hs
  · rintro ⟨s, m', hs, -⟩
    obtain ⟨s', hs', -⟩ := Tok.eat_append_some hs
    cases heat.symm.trans hs'

/-! ## A cut between two tokens -/

/-- **Behind the front** the edge takes all other tokens, the branched edge those of the back. -/
lemma obtains_between (hwhole : toks e.pattern = front ++ us)
    (hfront : toks (patternSub e.pattern 0 k) = front)
    (hback : toks (patternSub e.pattern k (patternLen e.pattern)) = back)
    {p y : Str} (hp : 0 ∉ p) (heat : Tok.eat slash front p = some y) (hy : y ≠ []) (d : δ)
    (m : Str → Option Str) :
    (e.Obtains p d m ↔ ∃ m', Through us e.child y d m' ∧ m = overlay m' (bindings front p)) ∧
    ((e.branch k).Obtains p d m ↔
      ∃ m', Through back e.child y d m' ∧ m = overlay m' (bindings front p)) := by
  constructor
  · rw [obtains_iff hp, hwhole]
    exact through_append heat hy d m
  · have hend : ¬ EndsAtCut e k p := by
      rw [endsAtCut_iff hp, branch_eq, Edge.pattern, hfront, heat]
      exact fun h => hy (Option.some.inj h)
    rw [obtains_branch hp hend, hfront, hback]
    constructor
    · rintro ⟨s, m', hs, h, hm⟩
      obtain rfl := Option.some.inj (hs.symm.trans heat)
      exact ⟨m', h, hm⟩
    · rintro ⟨m', h, hm⟩
      exact ⟨y, m', heat, h, hm⟩

/-- If behind the cut the same is found, or no path comes there, the cut is not seen. -/
lemma branchKeeps_between (hwhole : toks e.pattern = front ++ us)
    (hfront : toks (patternSub e.pattern 0 k) = front)
    (hback : toks (patternSub e.pattern k (patternLen e.pattern)) = back)
    (h : Tok.lit 0 ∈ front ∨ ∀ y, 0 ∉ y → y ≠ [] →
      ∀ d m, Through us e.child y d m ↔ Through back e.child y d m) : BranchKeeps e k := by
  intro p hp hend d m
  cases heat : Tok.eat slash front p with
  | none =>
      obtain ⟨hbefore, hafter⟩ :=
        not_obtains hwhole (hfront.trans front.append_nil.symm) hp hend heat d m
      exact iff_of_false hbefore hafter
  | some y =>
      have hy : y ≠ [] := by
        rintro rfl
        refine hend ((endsAtCut_iff hp).mpr ?_)
        rw [branch_eq, Edge.pattern, hfront, heat]
      rcases h with hnul | h
      · exact absurd (not_eat_nul hnul hp heat) hy
      obtain ⟨hbefore, hafter⟩ := obtains_between hwhole hfront hback hp heat hy d m
      rw [hbefore, hafter]
      have hsub : 0 ∉ y := fun hm => hp ((Tok.eat_suffix heat).subset hm)
      exact exists_congr fun m' => and_congr_left' (h y hsub hy d m')

/-- A cut that is not seen is not seen behind a path of letters `w` either. -/
lemma exists_bindings_of_keeps (hwhole : toks e.pattern = front ++ us)
    (hfront : toks (patternSub e.pattern 0 k) = front)
    (hback : toks (patternSub e.pattern k (patternLen e.pattern)) = back)
    (hs : Shaped (toks e.pattern)) (hus : us ≠ []) (hnul : Tok.lit 0 ∉ front)
    (hkeep : BranchKeeps e k) {w : UInt8} (hw : w ≠ 0 ∧ w ≠ slash) {y : Str} (hy0 : 0 ∉ y)
    (hy : y ≠ []) (hsep : y.head? = some slash ∨ ∃ name, .run name ∈ us.head?) :
    ∃ b : Str → Option Str, (∀ x, b x = none ∨ b x = some [w]) ∧ ∀ d m,
      (∃ m', Through us e.child y d m' ∧ m = overlay m' b) ↔
        ∃ m', Through back e.child y d m' ∧ m = overlay m' b := by
  rw [hwhole] at hs
  obtain ⟨heat, hbind⟩ := eat_fill hw.2 hs hus hsep
  have hp : 0 ∉ fill w front ++ y := by
    rw [List.mem_append, not_or]
    exact ⟨nul_notMem_fill hw.1 hnul, hy0⟩
  have hend : ¬ EndsAtCut e k (fill w front ++ y) := by
    rw [endsAtCut_iff hp, branch_eq, Edge.pattern, hfront, heat]
    exact fun h => hy (Option.some.inj h)
  refine ⟨_, hbind, fun d m => ?_⟩
  obtain ⟨hbefore, hafter⟩ := obtains_between hwhole hfront hback hp heat hy d m
  exact hbefore.symm.trans ((hkeep _ hp hend d m).trans hafter)

/-! ### Dropped tokens -/

/-- **What is found behind the cut does not need the tokens that are dropped.** -/
structure Unmissed (child : Node δ) (dropped back : List (Tok UInt8)) : Prop where
  /-- Where a terminal is dropped, there are no data at the end of the edge. -/
  terminal : .rest ∈ dropped → child.data = none
  /-- Where a parameter is dropped in front of other tokens, nothing is found behind the cut. -/
  parameter : .run [] ∈ dropped → back ≠ [] → ∀ s d m, 0 ∉ s → ¬ Through back child s d m
  /-- Where a parameter is dropped at the end of the edge, the node there finds the same with it and
  without it. -/
  last : dropped = [.run []] → back = [] → ∀ s, 0 ∉ s → s ≠ [] →
    ∀ d m, Through [.run []] child s d m ↔ Through [] child s d m

lemma unmissed_nil (child : Node δ) (back : List (Tok UInt8)) : Unmissed child [] back :=
  ⟨fun h => absurd h List.not_mem_nil, fun h => absurd h List.not_mem_nil,
    fun h => absurd h (List.cons_ne_nil _ _).symm⟩

/-- Without data at the end, nothing is found where the tokens take all of the path. -/
lemma not_through_of_all {ts : List (Tok UInt8)} {child : Node δ} {y : Str}
    (hdata : child.data = none) (heat : Tok.eat slash ts y = some []) (d : δ)
    (m : Str → Option Str) : ¬ Through ts child y d m := by
  intro h
  cases h with
  | here _ hd => cases hdata.symm.trans hd
  | down heat' hs => exact hs (Option.some.inj (heat'.symm.trans heat))

/-- Without edges, nothing is found where something of the path is left. -/
lemma not_through_nil {child : Node δ} {y : Str} (hedges : child.edgeList = []) (hy : y ≠ [])
    (d : δ) (m : Str → Option Str) : ¬ Through [] child y d m := by
  rcases child with ⟨endpoint, data, edges⟩
  obtain rfl : edges = [] := hedges
  intro h
  cases h with
  | here heat => exact hy (Option.some.inj heat)
  | down heat hs hfound => cases hfound

lemma Through.head_lit {c : UInt8} {ts : List (Tok UInt8)} {child : Node δ} {y : Str} {d : δ}
    {m : Str → Option Str} (h : Through (.lit c :: ts) child y d m) : ∃ s, y = c :: s := by
  obtain ⟨s, hs⟩ := h.eat
  cases y with
  | nil => cases hs
  | cons b y =>
      rw [Tok.eat] at hs
      split_ifs at hs with hcb
      exact ⟨y, by rw [hcb]⟩

/-- A terminal takes all of the path, also behind a parameter. -/
lemma eat_terminal {ts : List (Tok UInt8)} (h : ts = [.rest] ∨ ts = [.run [], .rest]) (y : Str) :
    Tok.eat slash ts y = some [] := by
  rcases h with rfl | rfl <;> rfl

/-- **What is not missed makes no difference.** -/
lemma through_iff_of_unmissed {child : Node δ} (hs : Shaped us)
    (hleaf : .rest ∈ us → child.edgeList = [])
    (h : Unmissed child (us.takeWhile bare) (us.dropWhile bare)) {y : Str} (hy0 : 0 ∉ y)
    (hy : y ≠ []) (d : δ) (m : Str → Option Str) :
    Through us child y d m ↔ Through (us.dropWhile bare) child y d m := by
  rcases hs.dropped_cases with ⟨-, hall⟩ | hrest | rfl | ⟨ts, rfl⟩
  · rw [hall]
  · have hmem : .rest ∈ us ∧ .rest ∈ us.takeWhile bare ∧ us.dropWhile bare = [] := by
      rcases hrest with rfl | rfl <;> decide
    rw [hmem.2.2]
    exact iff_of_false (not_through_of_all (h.terminal hmem.2.1) (eat_terminal hrest y) d m)
      (not_through_nil (hleaf hmem.1) hy d m)
  · exact h.last rfl rfl y hy0 hy d m
  · have hnone := h.parameter List.mem_cons_self (List.cons_ne_nil _ _)
    refine iff_of_false (fun hthrough => ?_) (hnone y d m hy0)
    by_cases hleft : y.dropWhile (· ≠ slash) = []
    · obtain ⟨s, hs⟩ := hthrough.eat
      rw [Tok.eat, hleft] at hs
      cases hs
    · obtain ⟨m', hbehind, -⟩ := (through_run hleft d m).mp hthrough
      exact hnone _ d m' (fun hm => hy0 ((List.dropWhile_suffix _).subset hm)) hbehind

/-- Two maps are equal if they are so over the letter `x` and over the letter `x'`. -/
lemma eq_of_overlay_eq {m m' b b' : Str → Option Str} {x x' : Str} (hx : x ≠ x')
    (hb : ∀ name, b name = none ∨ b name = some x)
    (hb' : ∀ name, b' name = none ∨ b' name = some x') (h : overlay m b = overlay m' b)
    (h' : overlay m b' = overlay m' b') : m = m' := by
  funext name
  have hat := congrFun h name
  have hat' := congrFun h' name
  have hor := hb name
  have hor' := hb' name
  simp only [overlay] at hat hat'
  cases hm : m name <;> cases hm' : m' name <;>
    simp only [hm, hm', Option.none_or, Option.some_or] at hat hat' <;> grind

/-- Where a terminal is dropped, a slash behind the front shows it. -/
lemma data_of_keeps (hrest : us = [.rest] ∨ us = [.run [], .rest])
    (hwhole : toks e.pattern = front ++ us) (hfront : toks (patternSub e.pattern 0 k) = front)
    (hback : toks (patternSub e.pattern k (patternLen e.pattern)) = [])
    (hs : Shaped (toks e.pattern)) (hleaf : e.child.edgeList = []) (hnul : Tok.lit 0 ∉ front)
    (hkeep : BranchKeeps e k) : e.child.data = none := by
  have hus : us ≠ [] := by
    rcases hrest with rfl | rfl <;> exact List.cons_ne_nil _ _
  by_contra hdata
  obtain ⟨d, hd⟩ := Option.ne_none_iff_exists'.mp hdata
  obtain ⟨b, -, hsame⟩ := exists_bindings_of_keeps hwhole hfront hback hs hus hnul hkeep
    (w := 122) (by decide) (y := [slash]) (by decide) (List.cons_ne_nil _ _) (.inl rfl)
  obtain ⟨m', hafter, -⟩ := (hsame d _).mp ⟨_, .here (eat_terminal hrest _) hd, rfl⟩
  exact not_through_nil hleaf (List.cons_ne_nil _ _) d m' hafter

/-- Where a parameter is dropped in front of a slash, a letter in front of the slash shows it. -/
lemma not_through_of_keeps {ts : List (Tok UInt8)}
    (hwhole : toks e.pattern = front ++ .run [] :: .lit slash :: ts)
    (hfront : toks (patternSub e.pattern 0 k) = front)
    (hback : toks (patternSub e.pattern k (patternLen e.pattern)) = .lit slash :: ts)
    (hs : Shaped (toks e.pattern)) (hnul : Tok.lit 0 ∉ front) (hkeep : BranchKeeps e k) {s : Str}
    (hs0 : 0 ∉ s) (d : δ) (m : Str → Option Str) :
    ¬ Through (.lit slash :: ts) e.child s d m := by
  intro hthrough
  obtain ⟨s, rfl⟩ := hthrough.head_lit
  have hdrop : (122 :: slash :: s).dropWhile (· ≠ slash) = slash :: s := rfl
  have hbefore : Through (.run [] :: .lit slash :: ts) e.child (122 :: slash :: s) d _ :=
    (through_run (by rw [hdrop]; exact List.cons_ne_nil _ _) d _).mpr
      ⟨m, by rw [hdrop]; exact hthrough, rfl⟩
  obtain ⟨b, -, hsame⟩ := exists_bindings_of_keeps hwhole hfront hback hs (List.cons_ne_nil _ _)
    hnul hkeep (w := 122) (by decide) (y := 122 :: slash :: s) (by simpa using hs0)
    (List.cons_ne_nil _ _) (.inr ⟨[], rfl⟩)
  obtain ⟨m', hafter, -⟩ := (hsame d _).mp ⟨_, hbefore, rfl⟩
  obtain ⟨s', hs'⟩ := hafter.head_lit
  cases hs'

/-- Where a parameter is dropped at the end, two letters in the front show what the maps are. -/
lemma through_iff_of_keeps (hwhole : toks e.pattern = front ++ [.run []])
    (hfront : toks (patternSub e.pattern 0 k) = front)
    (hback : toks (patternSub e.pattern k (patternLen e.pattern)) = [])
    (hs : Shaped (toks e.pattern)) (hnul : Tok.lit 0 ∉ front) (hkeep : BranchKeeps e k) {y : Str}
    (hy0 : 0 ∉ y) (hy : y ≠ []) (d : δ) (m : Str → Option Str) :
    Through [.run []] e.child y d m ↔ Through [] e.child y d m := by
  obtain ⟨b, hb, hsame⟩ := exists_bindings_of_keeps hwhole hfront hback hs
    (List.cons_ne_nil _ _) hnul hkeep (w := 122) (by decide) hy0 hy (.inr ⟨[], rfl⟩)
  obtain ⟨b', hb', hsame'⟩ := exists_bindings_of_keeps hwhole hfront hback hs
    (List.cons_ne_nil _ _) hnul hkeep (w := 121) (by decide) hy0 hy (.inr ⟨[], rfl⟩)
  constructor
  · intro h
    obtain ⟨m₁, hm₁, hover⟩ := (hsame d _).mp ⟨m, h, rfl⟩
    obtain ⟨m₂, hm₂, hover'⟩ := (hsame' d _).mp ⟨m, h, rfl⟩
    obtain rfl := hm₁.unique hm₂
    rw [eq_of_overlay_eq (by decide) hb hb' hover hover']
    exact hm₁
  · intro h
    obtain ⟨m₁, hm₁, hover⟩ := (hsame d _).mpr ⟨m, h, rfl⟩
    obtain ⟨m₂, hm₂, hover'⟩ := (hsame' d _).mpr ⟨m, h, rfl⟩
    obtain rfl := hm₁.unique hm₂
    rw [eq_of_overlay_eq (by decide) hb hb' hover hover']
    exact hm₁

/-- **What makes no difference is not missed.** -/
lemma unmissed_of_keeps (hwhole : toks e.pattern = front ++ us)
    (hfront : toks (patternSub e.pattern 0 k) = front)
    (hback : toks (patternSub e.pattern k (patternLen e.pattern)) = us.dropWhile bare)
    (hs : Shaped (toks e.pattern)) (hleaf : .rest ∈ us → e.child.edgeList = [])
    (hnul : Tok.lit 0 ∉ front) (hkeep : BranchKeeps e k) :
    Unmissed e.child (us.takeWhile bare) (us.dropWhile bare) := by
  have hshaped : Shaped us := (hwhole ▸ hs).append_right
  rcases hshaped.dropped_cases with ⟨hnone, -⟩ | hrest | rfl | ⟨ts, rfl⟩
  · rw [hnone]
    exact unmissed_nil _ _
  · have hus : .rest ∈ us ∧ us.takeWhile bare ≠ [.run []] ∧ us.dropWhile bare = [] := by
      rcases hrest with rfl | rfl <;> decide
    obtain ⟨hmem, hmore, hnil⟩ := hus
    exact ⟨fun _ => data_of_keeps hrest hwhole hfront (hback.trans hnil) hs (hleaf hmem) hnul hkeep,
      fun _ hne => absurd hnil hne, fun h => absurd h hmore⟩
  · exact ⟨fun h => absurd h (by decide), fun _ hne => absurd rfl hne, fun _ _ y hy0 hy =>
      through_iff_of_keeps hwhole hfront hback hs hnul hkeep hy0 hy⟩
  · have hbare : List.takeWhile bare (.run [] :: .lit slash :: ts) = [.run []] := rfl
    rw [hbare]
    exact ⟨fun h => absurd h (by decide),
      fun _ _ s d m hs0 => not_through_of_keeps hwhole hfront hback hs hnul hkeep hs0 d m,
      fun _ h => absurd h (List.cons_ne_nil _ _)⟩

/-! ## A cut inside a name -/

/-- Where nothing is left, a parameter takes nothing. -/
lemma eat_run_of_nil {ts : List (Tok UInt8)} {p : Str} (h : Tok.eat slash ts p = some [])
    (name : Str) : Tok.eat slash (ts ++ [.run name]) p = some [] := by
  induction ts, p using Tok.eat.induct slash with
  | case1 p =>
      obtain rfl := Option.some.inj h
      rfl
  | case2 => cases h
  | case3 ts b p ih =>
      rw [Tok.eat, if_pos rfl] at h
      rw [List.cons_append, Tok.eat, if_pos rfl, ih h]
  | case4 a ts b p hab =>
      rw [Tok.eat, if_neg hab] at h
      cases h
  | case5 name' ts p ih => exact ih h
  | case6 => rfl

/-- **The two bindings.**  The whole name is bound to what the parameter takes; after the cut the
first half is, and the second half is bound to nothing. -/
lemma obtains_inside (hwhole : toks e.pattern = front ++ .run (left ++ right) :: back)
    (hfront : toks (patternSub e.pattern 0 k) = front ++ [.run left])
    (hback : toks (patternSub e.pattern k (patternLen e.pattern)) = .run right :: back)
    {p s x : Str} (hp : 0 ∉ p) (heat : Tok.eat slash front p = some (x ++ s)) (hx : slash ∉ x)
    (hs : s.head? = some slash) (d : δ) (m : Str → Option Str) :
    (e.Obtains p d m ↔ ∃ m', Through back e.child s d m' ∧
      m = overlay m' (overlay (single (left ++ right) x) (bindings front p))) ∧
    ((e.branch k).Obtains p d m ↔ ∃ m', Through back e.child s d m' ∧
      m = overlay m' (overlay (single right []) (overlay (single left x) (bindings front p)))) := by
  obtain ⟨htake, hdrop⟩ := scan_append hx hs
  have hne : s ≠ [] := by
    rintro rfl
    cases hs
  have hne' : x ++ s ≠ [] := List.append_ne_nil_of_right_ne_nil x hne
  have hrun : ∀ name m', Through (.run name :: back) e.child (x ++ s) d m' ↔
      ∃ m'', Through back e.child s d m'' ∧ m' = overlay m'' (single name x) := by
    intro name m'
    rw [through_run (by rw [hdrop]; exact hne), hdrop, htake]
  constructor
  · rw [obtains_iff hp, hwhole, through_append heat hne']
    constructor
    · rintro ⟨m₁, h, rfl⟩
      obtain ⟨m', h', rfl⟩ := (hrun _ m₁).mp h
      exact ⟨m', h', overlay_assoc _ _ _⟩
    · rintro ⟨m', h', rfl⟩
      exact ⟨_, (hrun _ _).mpr ⟨m', h', rfl⟩, (overlay_assoc _ _ _).symm⟩
  · have heat' : Tok.eat slash (front ++ [.run left]) p = some s := by
      rw [Tok.eat_append_of_ne_nil _ heat hne', Tok.eat, hdrop, Tok.eat]
    have hend : ¬ EndsAtCut e k p := by
      rw [endsAtCut_iff hp, branch_eq, Edge.pattern, hfront, heat']
      exact fun h => hne (Option.some.inj h)
    have hbind : bindings (front ++ [.run left]) p =
        overlay (single left x) (bindings front p) := by
      rw [← htake, ← bindings_run]
      exact funext (Tok.bound_append _ heat hne')
    obtain ⟨htake', hdrop'⟩ := scan_append (List.not_mem_nil) hs
    rw [List.nil_append] at htake' hdrop'
    have hrun' : ∀ m', Through (.run right :: back) e.child s d m' ↔
        ∃ m'', Through back e.child s d m'' ∧ m' = overlay m'' (single right []) := by
      intro m'
      rw [through_run (by rw [hdrop']; exact hne), hdrop', htake']
    rw [obtains_branch hp hend, hfront, hback, hbind]
    constructor
    · rintro ⟨s', m₁, hs', h, rfl⟩
      obtain rfl := Option.some.inj (hs'.symm.trans heat')
      obtain ⟨m', h', rfl⟩ := (hrun' m₁).mp h
      exact ⟨m', h', overlay_assoc _ _ _⟩
    · rintro ⟨m', h', rfl⟩
      exact ⟨s, _, heat', (hrun' _).mpr ⟨m', h', rfl⟩, (overlay_assoc _ _ _).symm⟩

/-- **What is found behind the cut binds all three names.** -/
def BoundAgain (child : Node δ) (left right : Str) (back : List (Tok UInt8)) : Prop :=
  ∀ s d m, 0 ∉ s → s.head? = some slash → Through back child s d m →
    ∀ name ∈ [left ++ right, left, right], (m name).isSome

/-- Bindings of other names do not matter. -/
lemma overlay_congr {m a b : Str → Option Str} {names : List Str}
    (hm : ∀ name ∈ names, (m name).isSome) (hab : ∀ name ∉ names, a name = b name) :
    overlay m a = overlay m b := by
  funext name
  by_cases hname : name ∈ names
  · obtain ⟨val, hval⟩ := Option.isSome_iff_exists.mp (hm name hname)
    simp [overlay, hval]
  · rw [overlay, overlay, hab name hname]

/-- **A cut inside a name is not seen if the names are bound again.** -/
lemma branchKeeps_inside (hwhole : toks e.pattern = front ++ .run (left ++ right) :: back)
    (hfront : toks (patternSub e.pattern 0 k) = front ++ [.run left])
    (hback : toks (patternSub e.pattern k (patternLen e.pattern)) = .run right :: back)
    (h : Tok.lit 0 ∈ front ∨ BoundAgain e.child left right back) : BranchKeeps e k := by
  intro p hp hend d m
  have hend' : Tok.eat slash (front ++ [.run left]) p ≠ some [] := by
    rw [endsAtCut_iff hp, branch_eq, Edge.pattern, hfront] at hend
    exact hend
  cases hp' : Tok.eat slash front p with
  | none =>
      obtain ⟨hbefore, hafter⟩ := not_obtains hwhole hfront hp hend hp' d m
      exact iff_of_false hbefore hafter
  | some s =>
      have hs : s ≠ [] := by
        rintro rfl
        exact hend' (eat_run_of_nil hp' left)
      have hrest : s.dropWhile (· ≠ slash) ≠ [] := by
        rw [Tok.eat_append_of_ne_nil _ hp' hs, Tok.eat, Tok.eat] at hend'
        exact fun hnil => hend' (congrArg some hnil)
      have hsplit : s.takeWhile (· ≠ slash) ++ s.dropWhile (· ≠ slash) = s :=
        List.takeWhile_append_dropWhile
      have hx : slash ∉ s.takeWhile (· ≠ slash) := by
        simpa only [ne_eq, decide_not] using Segments.notMem_takeWhile s
      have hsub : 0 ∉ s.dropWhile (· ≠ slash) := fun hm =>
        hp ((Tok.eat_suffix hp').subset ((List.dropWhile_suffix _).subset hm))
      obtain ⟨hbefore, hafter⟩ := obtains_inside hwhole hfront hback hp (by rw [hsplit]; exact hp')
        hx (head_dropWhile hrest) d m
      rw [hbefore, hafter]
      rcases h with hnul | h
      · exact absurd (not_eat_nul hnul hp hp') hs
      refine exists_congr fun m' => and_congr_right fun hm' => ?_
      have hnames := h _ d m' hsub (head_dropWhile hrest) hm'
      refine iff_of_eq (congrArg (m = ·) (overlay_congr hnames ?_))
      intro name hname
      simp only [List.mem_cons, List.not_mem_nil, or_false, not_or] at hname
      simp [overlay, single, hname]

/-- The two bindings differ at the three names, where nothing else has the value `x`. -/
lemma isSome_of_overlay_eq {x y : Str} {m b : Str → Option Str} (hright : right ≠ []) (hx : x ≠ [])
    (hy : y ≠ []) (hxy : x ≠ y) (hb : ∀ name, b name = none ∨ b name = some y)
    (h : overlay m (overlay (single (left ++ right) x) b) =
      overlay m (overlay (single right []) (overlay (single left x) b))) :
    ∀ name ∈ [left ++ right, left, right], (m name).isSome := by
  intro name hname
  by_contra hnone
  rw [Bool.not_eq_true, Option.isSome_eq_false_iff, Option.isNone_iff_eq_none] at hnone
  have hat := congrFun h name
  have hleft : left ++ right ≠ left := fun h => hright (List.append_right_eq_self.mp h)
  simp only [overlay, hnone, Option.none_or, single] at hat
  simp only [List.mem_cons, List.not_mem_nil, or_false] at hname
  rcases hname with hwhole | hfirst | hsecond
  · -- the whole name is bound to `x` before
    have hne : name ≠ left := fun h => hleft (hwhole.symm.trans h)
    rw [if_pos hwhole, if_neg hne] at hat
    rcases hb name with hb | hb <;> grind
  · -- the first half is bound to `x` after
    have hne : name ≠ left ++ right := fun h => hleft (h.symm.trans hfirst)
    rw [if_neg hne, if_pos hfirst] at hat
    rcases hb name with hb | hb <;> grind
  · -- the second half is bound to nothing after
    rw [if_pos hsecond] at hat
    rcases hb name with hb | hb <;> grind

/-- **A cut inside a name is seen otherwise**: where the parameter takes `zz`, a name that is not
bound again shows it. -/
lemma boundAgain_of_keeps (hwhole : toks e.pattern = front ++ .run (left ++ right) :: back)
    (hfront : toks (patternSub e.pattern 0 k) = front ++ [.run left])
    (hback : toks (patternSub e.pattern k (patternLen e.pattern)) = .run right :: back)
    (hs : Shaped (toks e.pattern)) (hright : right ≠ []) (hnul : Tok.lit 0 ∉ front)
    (h : BranchKeeps e k) : BoundAgain e.child left right back := by
  intro s d m' hsub hslash hm'
  rw [hwhole] at hs
  obtain ⟨heat, hbind⟩ := eat_fill (w := 122) (s := [122, 122] ++ s) (by decide) hs
    (List.cons_ne_nil _ _) (.inr ⟨_, rfl⟩)
  have hp : 0 ∉ fill 122 front ++ ([122, 122] ++ s) := by
    simp only [List.mem_append, not_or]
    exact ⟨nul_notMem_fill (by decide) hnul, by decide, hsub⟩
  have hend : ¬ EndsAtCut e k (fill 122 front ++ ([122, 122] ++ s)) := by
    obtain ⟨-, hdrop⟩ := scan_append (x := [122, 122]) (by decide) hslash
    rw [endsAtCut_iff hp, branch_eq, Edge.pattern, hfront,
      Tok.eat_append_of_ne_nil _ heat (List.cons_ne_nil _ _), Tok.eat, hdrop, Tok.eat]
    rintro hnil
    obtain rfl := Option.some.inj hnil
    cases hslash
  have hboth := fun m => obtains_inside hwhole hfront hback hp heat (by decide) hslash d m
  have hobt := (h _ hp hend d _).mp ((hboth _).1.mpr ⟨m', hm', rfl⟩)
  obtain ⟨m'', hm'', hover⟩ := (hboth _).2.mp hobt
  obtain rfl := hm'.unique hm''
  exact isSome_of_overlay_eq hright (by decide) (by decide) (by decide) hbind hover

end Cut

/-! ## The patterns of a trie -/

/-- The edge is somewhere below the node. -/
inductive Node.HasEdge (e : Edge δ) : Node δ → Prop where
  | here {n : Node δ} (he : e ∈ n.edgeList) : HasEdge e n
  | down {n : Node δ} {e' : Edge δ} (he' : e' ∈ n.edgeList) (h : HasEdge e e'.child) : HasEdge e n

/-- **The tries of all sequences of `add_route` calls that end**, also of calls without data. -/
inductive Grown : Option (Node δ) → Prop where
  | start : Grown none
  | add {rootNode rootNode' : Option (Node δ)} {depth : ℕ} {route : Str} {data : Option δ}
      {status : ℤ} (h : Grown rootNode)
      (hadd : addRoute depth rootNode route data = some (rootNode', status)) : Grown rootNode'

/-- **The edge is as `add_route` makes it**: its pattern is shaped, and there is no edge behind a
terminal. -/
structure Edge.Proper (e : Edge δ) : Prop where
  shaped : Shaped (toks e.pattern)
  leaf : .rest ∈ toks e.pattern → e.child.edgeList = []

/-- All edges below the node are so. -/
def Node.AllProper (n : Node δ) : Prop := ∀ e, n.HasEdge e → e.Proper

lemma Node.allProper_iff {n : Node δ} : n.AllProper ↔
    ∀ e ∈ n.edgeList, e.Proper ∧ e.child.AllProper := by
  constructor
  · intro h e he
    exact ⟨h e (.here he), fun e' he' => h e' (.down he he')⟩
  · intro h e he
    cases he with
    | here he => exact (h e he).1
    | down he' he => exact (h _ he').2 e he

lemma Node.AllProper.setEdge {n : Node δ} {x : Edge δ} (h : n.AllProper) (i : ℕ) (hx : x.Proper)
    (hchild : x.child.AllProper) : (n.setEdge i x).AllProper := by
  rw [Node.allProper_iff] at h ⊢
  intro e he
  rcases Node.mem_setEdge he with he | rfl
  · exact h e he
  · exact ⟨hx, hchild⟩

lemma Node.AllProper.connect {n : Node δ} {a : Pattern} (h : n.AllProper) (ha : Shaped (toks a))
    (data : Option δ) : (n.connect (.mk 1 data []) a).AllProper := by
  rw [Node.connect]
  split
  · exact h
  · rw [Node.allProper_iff] at h ⊢
    intro e he
    rcases List.mem_append.mp he with he | he
    · exact h e he
    · obtain rfl := List.mem_singleton.mp he
      refine ⟨⟨ha, fun _ => rfl⟩, Node.allProper_iff.mpr fun e' he' => ?_⟩
      cases he'

/-- What is left of a pattern behind a cut. -/
lemma Shaped.patternSub {a : Pattern} {k len : ℕ} (h : Shaped (toks a)) (hk : 0 < k)
    (hlen : patternLen a - k ≤ len) : Shaped (toks (patternSub a k len)) := by
  rw [patternLen_eq] at hlen
  rw [patternSub_place_back h hk ((need_place_le _ k).trans hlen)]
  exact h.back_place k

/-- The front is shaped and has no terminal, and the edge behind it is proper. -/
lemma Edge.Proper.branch {e : Edge δ} {k : ℕ} (he : e.Proper) (hchild : e.child.AllProper)
    (hk : 0 < k) (hlt : k < patternLen e.pattern) :
    (∀ child : Node δ, (Edge.mk (e.branch k).pattern child).Proper) ∧
      (e.branch k).child.AllProper := by
  rw [branch_eq]
  constructor
  · intro child
    rw [patternLen_eq] at hlt
    have hfront := patternSub_place_front he.shaped hk
    refine ⟨?_, fun hrest => absurd hrest ?_⟩
    · rw [Edge.pattern, Edge.pattern, hfront]
      exact he.shaped.front_place k
    · rw [Edge.pattern, Edge.pattern, hfront]
      exact he.shaped.rest_notMem_front hlt
  · refine Node.allProper_iff.mpr fun e' he' => ?_
    obtain rfl := List.mem_singleton.mp he'
    refine ⟨⟨he.shaped.patternSub hk (Nat.sub_le _ _), fun hrest => he.leaf ?_⟩, hchild⟩
    rw [Edge.pattern, patternSub_place_back he.shaped hk ((need_place_le _ k).trans
      (by rw [patternLen_eq]; exact Nat.sub_le _ _))] at hrest
    exact rest_mem_of_back hrest

lemma terminal_mem_of_rest_mem {a : Pattern} (h : .rest ∈ toks a) : .terminal ∈ a := by
  obtain ⟨x, hx, hrest⟩ := List.mem_flatMap.mp h
  cases x with
  | string str => simp [Part.toks] at hrest
  | parameter name => simp [Part.toks] at hrest
  | terminal => exact hx

/-- An insertion does not go down an edge with a terminal, and keeps all edges proper. -/
lemma insertRoute_allProper {depth : ℕ} {n n' : Node δ} {a : Pattern} {data : Option δ} {ok : Bool}
    (h : n.insertRoute depth a data = some (n', ok)) (hn : n.AllProper) (ha : Shaped (toks a)) :
    n'.AllProper := by
  induction depth generalizing n n' a ok with
  | zero => cases h
  | succ depth ih =>
      have hedge : ∀ {i : ℕ} {e : Edge δ}, n.edgeList[i]? = some e →
          e.Proper ∧ e.child.AllProper :=
        fun he => Node.allProper_iff.mp hn _ (List.mem_of_getElem? he)
      cases insertRoute_inserted h with
      | refused => exact hn
      | connected hv hlcp => exact hn.connect ha data
      | @descended i e child ok sub he hpos hlcp hsub hv hins =>
          obtain ⟨hproper, hchild⟩ := hedge he
          refine hn.setEdge _ ⟨hproper.shaped, fun hrest => ?_⟩ (ih hins hchild ?_)
          · have hlt := (patternLen_beforeTerminal e.pattern).2 (terminal_mem_of_rest_mem hrest)
            exact absurd (lcp_le_beforeTerminal hlcp he) (Nat.not_le_of_lt hlt)
          · rw [hsub]
            exact ha.patternSub hpos le_rfl
      | endpoint he hpos hlcp hend hv hlt =>
          obtain ⟨hproper, hchild⟩ := hedge he
          obtain ⟨hfront, hsplit⟩ := hproper.branch hchild hpos hlt
          exact hn.setEdge _ (hfront _) (Node.allProper_iff.mpr fun e' he' =>
            Node.allProper_iff.mp hsplit e' he')
      | branched he hpos hlcp hsub hv hins hnext hlt =>
          obtain ⟨hproper, hchild⟩ := hedge he
          obtain ⟨hfront, hsplit⟩ := hproper.branch hchild hpos hlt
          refine hn.setEdge _ (hfront _) (ih hins hsplit ?_)
          rw [hsub]
          exact ha.patternSub hpos le_rfl

lemma Grown.allProper {rootNode : Option (Node δ)} (h : Grown rootNode) :
    (rootNode.getD .new).AllProper := by
  induction h with
  | start => exact Node.allProper_iff.mpr fun _ he => absurd he List.not_mem_nil
  | add h hadd ih =>
      rw [addRoute] at hadd
      split at hadd
      · obtain ⟨rfl, -⟩ := Prod.mk.inj (Option.some.inj hadd)
        exact ih
      · next pattern hpattern =>
          obtain ⟨⟨n, ok⟩, hins, hadd⟩ := Option.bind_eq_some_iff.mp hadd
          obtain ⟨rfl, -⟩ := Prod.mk.inj (Option.some.inj hadd)
          exact insertRoute_allProper hins ih (shaped_convertFrom (by simp) hpattern)

/-! ## When a branch keeps the meaning -/

/-- **The cut is not seen**: no path comes there, or what is behind it does not need what is
dropped, or it binds again the name that is cut and the two halves. -/
def CutKeeps (child : Node δ) : Place → Prop
  | .between front dropped back => Tok.lit 0 ∈ front ∨ Unmissed child dropped back
  | .inside front left right back => Tok.lit 0 ∈ front ∨ BoundAgain child left right back

/-- **`branch` keeps the meaning of an edge if and only if the cut is not seen.**  So it is for
every edge of every trie that calls of `add_route` make, and for every offset. -/
theorem branch_keeps {rootNode : Node δ} (hg : Grown (some rootNode)) {e : Edge δ}
    (he : rootNode.HasEdge e) {k : ℕ} (hk : 0 < k) :
    BranchKeeps e k ↔ CutKeeps e.child (place (toks e.pattern) k) := by
  obtain ⟨hs, hleaf⟩ := hg.allProper e he
  have hwhole := whole_place (toks e.pattern) k
  have hfront := patternSub_place_front hs hk
  have hback := patternSub_place_back hs hk
    ((need_place_le _ k).trans (Nat.sub_le_of_le_add (Nat.le_add_right _ k)))
  rw [← patternLen_eq] at hback
  cases hplace : place (toks e.pattern) k with
  | between front dropped back =>
      rw [hplace] at hwhole hfront hback
      obtain ⟨us, rfl, rfl⟩ := place_dropped hplace
      rw [Place.whole, List.takeWhile_append_dropWhile] at hwhole
      have hleaf' : .rest ∈ us → e.child.edgeList = [] := fun hmem =>
        hleaf (hwhole ▸ List.mem_append_right front hmem)
      constructor
      · intro hkeep
        by_cases hnul : Tok.lit 0 ∈ front
        · exact .inl hnul
        · exact .inr (unmissed_of_keeps hwhole.symm hfront hback hs hleaf' hnul hkeep)
      · rintro (hnul | hun)
        · exact branchKeeps_between hwhole.symm hfront hback (.inl hnul)
        · rw [← hwhole] at hs
          exact branchKeeps_between hwhole.symm hfront hback (.inr fun y hy0 hy =>
            through_iff_of_unmissed hs.append_right hleaf' hun hy0 hy)
  | inside front left right back =>
      have hright := place_right_ne_nil hplace
      rw [hplace] at hwhole hfront hback
      constructor
      · intro hkeep
        by_cases hnul : Tok.lit 0 ∈ front
        · exact .inl hnul
        · exact .inr (boundAgain_of_keeps hwhole.symm hfront hback hs hright hnul hkeep)
      · exact branchKeeps_inside hwhole.symm hfront hback

/-- A cut behind a parameter and a slash, where the route of a test and `/monkeys/<monkey_name>/x`
part. -/
theorem branch_keeps_monkeys : ∃ (rootNode : Node ℕ) (e : Edge ℕ), Grown (some rootNode) ∧
    rootNode.HasEdge e ∧ toks e.pattern = (str "/monkeys/").map .lit ++ .run (str "monkey_name") ::
      (str "/banana/").map .lit ++ [.run (str "banana_number")] ∧ BranchKeeps e 23 := by
  have hrun : ((addRoute 8 none (str "/monkeys/<monkey_name>/banana/<banana_number>") (some 1)).bind
      fun r => r.1.bind fun n => n.edgeList[0]?.map fun e => toks e.pattern) =
        some ((str "/monkeys/").map .lit ++ .run (str "monkey_name") ::
          (str "/banana/").map .lit ++ [.run (str "banana_number")]) := by
    decide +kernel
  obtain ⟨⟨rootNode, status⟩, hadd, hrun⟩ := Option.bind_eq_some_iff.mp hrun
  obtain ⟨rootNode, rfl, hrun⟩ := Option.bind_eq_some_iff.mp hrun
  obtain ⟨e, he, htoks⟩ := Option.map_eq_some_iff.mp hrun
  have hg : Grown (some rootNode) := .add .start hadd
  have hedge : rootNode.HasEdge e := .here (List.mem_of_getElem? he)
  refine ⟨rootNode, e, hg, hedge, htoks, (branch_keeps hg hedge (by decide)).mpr ?_⟩
  have hplace : place (toks e.pattern) 23 = .between
      ((str "/monkeys/").map .lit ++ [.run (str "monkey_name"), .lit slash]) []
      ((str "banana/").map .lit ++ [.run (str "banana_number")]) := by
    rw [htoks]
    decide +kernel
  rw [hplace]
  exact .inr (unmissed_nil _ _)

/-- `/<a>` cuts the edge of `/<abc>/x` inside the name.  The path `/q/x` bound `abc` to `q`, and
binds `ab` to it afterwards. -/
theorem branch_inside_name : ∃ (rootNode : Node ℕ) (e : Edge ℕ) (pattern : Pattern) (k : ℕ),
    Grown (some rootNode) ∧ rootNode.edgeList[0]? = some e ∧
      convertPathToPattern (str "/<a>") = some pattern ∧
      rootNode.findLongestCommonPrefix pattern = some (some (k, some 0)) ∧
      0 < k ∧ k < patternLen e.pattern ∧
      (∃ rootNode', addRoute 8 (some rootNode) (str "/<a>") (some 2) = some (rootNode', 0)) ∧
      ¬ BranchKeeps e k := by
  have hpattern : convertPathToPattern (str "/<a>") =
      some [.string (str "/"), .parameter (str "a")] := by
    decide +kernel
  have hrun : ((addRoute 8 none (str "/<abc>/x") (some 1)).bind fun r => r.1.bind fun n =>
      n.edgeList[0]?.map fun e =>
        decide (n.findLongestCommonPrefix [.string (str "/"), .parameter (str "a")] =
          some (some (4, some 0))) &&
        decide (patternLen e.pattern = 8) &&
        decide ((addRoute 8 (some n) (str "/<a>") (some 2)).map Prod.snd = some 0) &&
        decide (e.tryRoute (str "/q/x") = some (some (some 1, [(str "abc", str "q")]))) &&
        decide ((e.branch 4).tryRoute (str "/q/x") =
          some (some (some 1, [(str "c", []), (str "ab", str "q")]))) &&
        decide (Tok.eat slash (toks (e.branch 4).pattern) (str "/q/x") = some (str "/x"))) =
      some true := by
    decide +kernel
  obtain ⟨⟨rootNode, status⟩, hadd, hrun⟩ := Option.bind_eq_some_iff.mp hrun
  obtain ⟨rootNode, rfl, hrun⟩ := Option.bind_eq_some_iff.mp hrun
  obtain ⟨e, he, hrun⟩ := Option.map_eq_some_iff.mp hrun
  simp only [Bool.and_eq_true, decide_eq_true_iff] at hrun
  obtain ⟨⟨⟨⟨⟨hlcp, hlen⟩, hstatus⟩, hbefore⟩, hafter⟩, heat⟩ := hrun
  obtain ⟨⟨rootNode', status'⟩, hadd', rfl⟩ := Option.map_eq_some_iff.mp hstatus
  refine ⟨rootNode, e, _, 4, .add .start hadd, he, hpattern, hlcp, by decide, by omega,
    ⟨rootNode', hadd'⟩, fun hkeep => ?_⟩
  have hp : 0 ∉ str "/q/x" := by decide +kernel
  have hend : ¬ EndsAtCut e 4 (str "/q/x") := by
    rw [endsAtCut_iff hp, heat]
    decide +kernel
  obtain ⟨pmap, hpmap, hbinds⟩ := (hkeep _ hp hend 1 _).mp ⟨_, hbefore, rfl⟩
  rw [hafter] at hpmap
  obtain rfl := (Prod.mk.inj (Option.some.inj (Option.some.inj hpmap))).2
  have habc := congrFun hbinds (str "abc")
  revert habc
  decide +kernel

end UrlRouter

end Is2
