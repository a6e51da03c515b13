import Is2.Core.Calls
import Is2.UrlRouter.Runs

/-!
# Does `add_route` end?

`insert_route` calls itself on the node below an edge, or on the node that a split of the edge has
just made.  The first goes down a finite trie.  The second is meant to consume the common prefix,
and does so as long as `pattern_sub` cuts off a character: the work left, which is the characters on
the edges of the trie and in the pattern, gets less.

It does not where the edge and the pattern both begin with a parameter and their names share just
the first character.  `pattern_diff` then counts one, and `pattern_sub` counts the bracket for that
one, so both patterns come back whole, below a new node, for ever: the insertion is *tangled*.
Insertion ends exactly if it never comes to such a place (`addRoute_ends_iff`).
-/

namespace Is2

namespace UrlRouter

variable {δ : Type}

/-! ## The characters that `pattern_sub` leaves -/

/-- The characters of a pattern, brackets and terminals not counted. -/
def chars (a : Pattern) : ℕ := (a.map fun x => x.str.length).sum

@[simp] lemma chars_nil : chars [] = 0 := rfl

@[simp] lemma chars_cons (x : Part) (xs : Pattern) :
    chars (x :: xs) = x.str.length + chars xs := by
  simp [chars]

lemma subChars_length (aOffset aLen : ℕ) (cs : Str) (s : SubState) :
    (subChars aOffset aLen cs s).1.length ≤ cs.length := by
  induction cs generalizing s with
  | nil => simp [subChars]
  | cons c cs ih =>
      rw [subChars]
      split_ifs
      · simpa using ih _
      · exact le_trans (ih _) (Nat.le_succ _)
      · exact Nat.zero_le _

lemma withStr_length_le {x : Part} {str : Str} (h : str.length ≤ x.str.length) :
    (x.withStr str).str.length ≤ x.str.length := by
  cases x with
  | string _ => exact h
  | parameter _ => exact h
  | terminal => exact le_rfl

lemma subPart_length (aOffset aLen : ℕ) (x : Part) (s : SubState) :
    (subPart aOffset aLen x s).1.str.length ≤ x.str.length :=
  withStr_length_le (subChars_length _ _ _ _)

lemma subParts_chars (aOffset aLen : ℕ) (xs : Pattern) (s : SubState) :
    chars (subParts aOffset aLen xs s) ≤ chars xs := by
  induction xs generalizing s with
  | nil => simp [subParts]
  | cons x xs ih =>
      have hx := subPart_length aOffset aLen x s
      have hxs := ih (subPart aOffset aLen x s).2
      simp only [subParts]
      split_ifs <;> simp only [List.nil_append, List.singleton_append, chars_nil, chars_cons] <;>
        omega

/-- `pattern_sub` adds no character. -/
lemma patternSub_chars (a : Pattern) (aOffset aLen : ℕ) :
    chars (patternSub a aOffset aLen) ≤ chars a :=
  subParts_chars _ _ _ _

/-- A character in front of the offset is cut off. -/
lemma subChars_length_lt {aOffset aLen : ℕ} {cs : Str} {off len : ℕ} (hcs : cs ≠ [])
    (ho : off < aOffset) : (subChars aOffset aLen cs ⟨false, off, len⟩).1.length < cs.length := by
  obtain ⟨c, cs, rfl⟩ := List.exists_cons_of_ne_nil hcs
  have hoff : ¬ aOffset ≤ off := by omega
  rw [subChars]
  simp only [hoff, Bool.false_eq_true, or_self, if_false]
  split_ifs
  · exact Nat.lt_succ_of_le (subChars_length _ _ _ _)
  · exact Nat.succ_pos _

/-- **`pattern_sub` makes progress** at a string, and at a parameter if it cuts behind more than its
opening bracket. -/
lemma patternSub_chars_lt {x : Part} (xs : Pattern) {n : ℕ} (aLen : ℕ) (hx : x.str ≠ [])
    (hn : 0 < n) (hp : x.type = .parameter → 2 ≤ n) :
    chars (patternSub (x :: xs) n aLen) < chars (x :: xs) := by
  have hoff : decide (n = 0) = false := decide_eq_false (by omega)
  have hpart : (subPart n aLen x ⟨false, 0, 0⟩).1.str.length < x.str.length := by
    cases x with
    | string str =>
        simp only [subPart, SubState.bracket, Part.type, Part.str, Part.withStr]
        exact subChars_length_lt hx hn
    | parameter str =>
        simp only [subPart, SubState.bracket, Part.type, Part.str, Part.withStr, if_true]
        exact subChars_length_lt hx (hp rfl)
    | terminal => exact absurd rfl hx
  have hxs := subParts_chars n aLen xs (subPart n aLen x ⟨false, 0, 0⟩).2
  rw [patternSub, hoff, subParts]
  split_ifs <;> simp only [List.nil_append, List.singleton_append, chars_nil, chars_cons] <;> omega

/-- A cut behind the opening bracket of a parameter leaves all of it. -/
lemma patternSub_one_parameter {x : Str} (xs : Pattern) (aLen : ℕ) (hx : x ≠ [])
    (hlen : x.length ≤ aLen) :
    ∃ ys, patternSub (.parameter x :: xs) 1 aLen = .parameter x :: ys := by
  obtain ⟨c, cs, rfl⟩ := List.exists_cons_of_ne_nil hx
  have hpos : 0 < aLen := lt_of_lt_of_le (by simp) hlen
  have htake : (c :: cs).take aLen = c :: cs := List.take_of_length_le hlen
  have hpart : (subPart 1 aLen (.parameter (c :: cs)) ⟨false, 0, 0⟩).1 = .parameter (c :: cs) := by
    simp [subPart, SubState.bracket, Part.type, Part.str, Part.withStr,
      subChars_past hpos (le_refl 1) hx, subChars_found, htake]
  have hfound : (subPart 1 aLen (.parameter (c :: cs)) ⟨false, 0, 0⟩).2.found = true := by
    simp [subPart, SubState.bracket, Part.type, Part.str,
      subChars_past hpos (le_refl 1) hx, subChars_found]
  rw [patternSub, subParts]
  simp only [Nat.one_ne_zero, decide_false, hpart, hfound, if_true]
  split_ifs
  · exact ⟨[], rfl⟩
  · exact ⟨_, rfl⟩

/-! ## The work that is left -/

mutual

/-- The characters on the edges of the trie, and one for each edge. -/
def Node.work : Node δ → ℕ
  | .mk _ _ edgeList => workFrom edgeList

def workFrom : List (Edge δ) → ℕ
  | [] => 0
  | e :: es => e.work + workFrom es

def Edge.work : Edge δ → ℕ
  | .mk pattern child => chars pattern + 1 + child.work

end

lemma Edge.work_eq (e : Edge δ) : e.work = chars e.pattern + 1 + e.child.work := by
  rcases e with ⟨pattern, child⟩
  rw [Edge.work]
  rfl

lemma Node.work_eq (n : Node δ) : n.work = workFrom n.edgeList := by
  rcases n with ⟨endpoint, data, edgeList⟩
  rw [Node.work]
  rfl

/-- An edge is part of the work of its node, and all of it only if it is the only one. -/
lemma work_le_of_mem {es : List (Edge δ)} {i : ℕ} {e : Edge δ} (he : es[i]? = some e) :
    e.work ≤ workFrom es ∧ (e.work = workFrom es → es = [e]) := by
  have hpos : ∀ e : Edge δ, 0 < e.work := fun e => by
    rw [e.work_eq]
    omega
  induction es generalizing i with
  | nil => simp at he
  | cons x es ih =>
      rw [workFrom]
      cases i with
      | zero =>
          simp only [List.getElem?_cons_zero, Option.some.injEq] at he
          subst he
          refine ⟨by omega, fun heq => ?_⟩
          cases es with
          | nil => rfl
          | cons y es =>
              have := hpos y
              rw [workFrom] at heq
              omega
      | succ i =>
          have hle := (ih (by simpa using he)).1
          have := hpos x
          exact ⟨by omega, fun heq => by omega⟩

/-! ## The nested calls -/

/-- A call of `insert_route` or `collision_test`: the node and the pattern. -/
abbrev Visit (δ : Type) := Node δ × Pattern

/-- The nested call of `collision_test`, if there is one. -/
def Node.nextCollision (n : Node δ) (a : Pattern) : Option (Visit δ) := do
  let r ← n.findLongestCommonPrefix a
  let q ← r
  let i ← q.2
  let e ← n.edgeList[i]?
  let subpattern := patternSub a q.1 (patternLen a - q.1)
  if q.1 ≠ 0 ∧ q.1 = patternLen e.pattern ∧ patternLen subpattern ≠ 0 then
    some (e.child, subpattern)
  else
    none

/-- `collision_test` calls itself. -/
def CollisionCalls (v v' : Visit δ) : Prop := v.1.nextCollision v.2 = some v'

/-- `insert_route` calls itself, once its collision test has passed. -/
def InsertCalls (v v' : Visit δ) : Prop :=
  (∃ depth, v.1.collisionTest depth v.2 = some true) ∧ v.1.nextVisit v.2 = some v'

/-- What a nested call of `insert_route` is on. -/
lemma nextVisit_cases {n : Node δ} {a : Pattern} {v : Visit δ} (h : n.nextVisit a = some v) :
    ∃ k i e, n.findLongestCommonPrefix a = some (some (k, some i)) ∧ n.edgeList[i]? = some e ∧
      0 < k ∧ v.2 = patternSub a k (patternLen a - k) ∧
      ((k = patternLen e.pattern ∧ v.1 = e.child ∧ patternLen v.2 ≠ 0) ∨
        (k < patternLen e.pattern ∧ v.1 = (e.branch k).child ∧ patternLen a - k ≠ 0)) := by
  unfold Node.nextVisit at h
  split at h
  case h_2 => cases h
  case h_1 k i hlcp =>
      split at h
      case h_2 => cases h
      case h_1 e he =>
          simp only at h
          split_ifs at h with h0 hfull hsub hlt hend
          · obtain rfl := Option.some.inj h
            exact ⟨k, i, e, hlcp, he, Nat.pos_of_ne_zero h0, rfl, .inl ⟨hfull, rfl, hsub⟩⟩
          · obtain rfl := Option.some.inj h
            exact ⟨k, i, e, hlcp, he, Nat.pos_of_ne_zero h0, rfl, .inr ⟨hlt, rfl, hend⟩⟩

lemma nextCollision_cases {n : Node δ} {a : Pattern} {v : Visit δ}
    (h : n.nextCollision a = some v) : ∃ (i : ℕ) (e : Edge δ), n.edgeList[i]? = some e ∧
      v.1 = e.child := by
  obtain ⟨r, -, h⟩ := Option.bind_eq_some_iff.mp h
  obtain ⟨q, -, h⟩ := Option.bind_eq_some_iff.mp h
  obtain ⟨i, -, h⟩ := Option.bind_eq_some_iff.mp h
  obtain ⟨e, he, h⟩ := Option.bind_eq_some_iff.mp h
  simp only at h
  split_ifs at h
  obtain rfl := Option.some.inj h
  exact ⟨i, e, he, rfl⟩

/-- **`collision_test` ends**: it only goes down the trie. -/
lemma collision_ends (v : Visit δ) : Ends CollisionCalls v := by
  refine ends_of_measure (μ := fun v => v.1.work) (fun v v' h => ?_) v
  obtain ⟨i, e, he, hv⟩ := nextCollision_cases h
  have hle := (work_le_of_mem he).1
  rw [e.work_eq] at hle
  simp only [hv, v.1.work_eq]
  omega

/-! ## Tangled insertions -/

/-- **The insertion is tangled here**: a common prefix of one is reported, and the edge and the
pattern both begin with a parameter; their names share the first character and no more, and that
is not all of the pattern's name. -/
def Tangled (v : Visit δ) : Prop :=
  ∃ i e x xs y ys, v.1.findLongestCommonPrefix v.2 = some (some (1, some i)) ∧
    v.1.edgeList[i]? = some e ∧ v.2 = .parameter x :: xs ∧ e.pattern = .parameter y :: ys ∧
    stringDiff x y = some 1 ∧ x.length ≠ 1

lemma ne_nil_of_stringDiff {x y : Str} {d : ℕ} (h : stringDiff x y = some d) (hd : 0 < d) :
    x ≠ [] ∧ y ≠ [] := by
  refine ⟨?_, ?_⟩
  · rintro rfl
    cases y with
    | nil => simp [stringDiff] at h; omega
    | cons y ys =>
        rw [stringDiff] at h
        split_ifs at h
        have := Option.some.inj h
        omega
  · rintro rfl
    simp [stringDiff] at h
    omega

/-- Two patterns that begin with such parameters have a common prefix of one. -/
lemma patternDiff_tangled {x y : Str} {xs ys : Pattern} (h : stringDiff x y = some 1)
    (hx : x.length ≠ 1) : patternDiff (.parameter x :: xs) (.parameter y :: ys) = some 1 := by
  rw [patternDiff, patternDiffFrom]
  simp [Part.str, h, Ne.symm hx]

/-- A node with one edge: the prefix is that of the edge. -/
lemma lcp_singleton {n : Node δ} {a : Pattern} {e : Edge δ} {k : ℕ} (hn : n.edgeList = [e])
    (hd : patternDiff a e.pattern = some (k : ℤ)) (hk : 0 < k) :
    n.findLongestCommonPrefix a = some (some (k, some 0)) := by
  have hneg : ¬ ((k : ℤ) < 0) := by omega
  simp [Node.findLongestCommonPrefix, hn, lcpFrom, hd, hneg, hk]

lemma patternDiff_of_lcp_singleton {n : Node δ} {a : Pattern} {e : Edge δ} {k i : ℕ}
    (hn : n.edgeList = [e]) (h : n.findLongestCommonPrefix a = some (some (k, some i))) :
    patternDiff a e.pattern = some (k : ℤ) := by
  rw [Node.findLongestCommonPrefix, hn, lcpFrom] at h
  obtain ⟨d, hd, h⟩ := Option.bind_eq_some_iff.mp h
  rw [hd]
  split_ifs at h with hneg hlong
  · cases h
  · simp only [lcpFrom, Option.some.injEq, Prod.mk.injEq] at h
    rw [← h.1, Int.toNat_of_nonneg (by omega)]
  · simp [lcpFrom] at h

/-- A parameter is its name. -/
lemma eq_parameter {x : Part} (h : x.type = .parameter) : x = .parameter x.str := by
  cases x with
  | parameter str => rfl
  | string str => cases h
  | terminal => cases h

/-- From a tangled place the insertion comes to a tangled place. -/
lemma Tangled.next {v : Visit δ} (h : Tangled v) : ∃ v', InsertCalls v v' ∧ Tangled v' := by
  rcases v with ⟨n, a⟩
  obtain ⟨i, e, x, xs, y, ys, hlcp, he, ha, hp, hd, hx⟩ := h
  simp only at hlcp he ha hp
  obtain ⟨hxne, hyne⟩ := ne_nil_of_stringDiff hd (by decide)
  have hlen : patternLen e.pattern = 2 + y.length + patternLen ys := by
    rw [hp]
    simp [patternLen, Part.len]
  have halen : patternLen a = 2 + x.length + patternLen xs := by
    rw [ha]
    simp [patternLen, Part.len]
  have hypos := List.length_pos_iff.mpr hyne
  -- both come back whole
  obtain ⟨ys', hys'⟩ := patternSub_one_parameter ys (patternLen e.pattern) hyne (by omega)
  obtain ⟨xs', hxs'⟩ := patternSub_one_parameter xs (patternLen a - 1) hxne (by omega)
  rw [← hp] at hys'
  rw [← ha] at hxs'
  refine ⟨((e.branch 1).child, patternSub a 1 (patternLen a - 1)), ⟨⟨1, ?_⟩, ?_⟩, ?_⟩
  · have hne : ¬ 1 = patternLen e.pattern := by omega
    simp [Node.collisionTest, hlcp, he, hne]
  · have h1 : ¬ 1 = patternLen e.pattern := by omega
    have h2 : 1 < patternLen e.pattern := by omega
    have h3 : ¬ patternLen a - 1 = 0 := by omega
    simp [Node.nextVisit, hlcp, he, h1, h2, h3]
  · refine ⟨0, .mk (patternSub e.pattern 1 (patternLen e.pattern)) e.child, x, xs', y, ys', ?_, ?_,
      hxs', hys', hd, hx⟩
    · refine lcp_singleton (branch_child e 1) ?_ (by decide)
      rw [hxs', show (Edge.mk (patternSub e.pattern 1 (patternLen e.pattern)) e.child).pattern =
        .parameter y :: ys' from hys']
      exact patternDiff_tangled hd hx
    · simp [branch_child]

/-- The loop of `pattern_diff` only counts up. -/
lemma le_patternDiffFrom {a p : Pattern} {len k : ℤ} (h : patternDiffFrom len a p = some k)
    (hk : 0 ≤ k) : len ≤ k := by
  induction a generalizing p len with
  | nil =>
      rw [patternDiffFrom.eq_def] at h
      exact le_of_eq (Option.some.inj h)
  | cons x xs ih =>
      cases p with
      | nil => exact le_of_eq (Option.some.inj h)
      | cons y ys =>
          rw [patternDiffFrom] at h
          obtain ⟨d, -, h⟩ := Option.bind_eq_some_iff.mp h
          by_cases h1 : 0 < d ∧ d ≠ x.str.length
          · rw [if_pos h1] at h
            have := Option.some.inj h
            omega
          rw [if_neg h1] at h
          by_cases h2 : d = 0
          · rw [if_pos h2] at h
            exact le_of_eq (Option.some.inj h)
          rw [if_neg h2] at h
          by_cases h3 : x.type ≠ y.type
          · rw [if_pos h3] at h
            have := Option.some.inj h
            omega
          rw [if_neg h3] at h
          have hle := ih h
          split_ifs at hle <;> omega

/-- A common prefix begins with a common character, and if it is one inside two parameters, that
is all their names have in common. -/
lemma patternDiff_pos {a p : Pattern} {k : ℤ} (h : patternDiff a p = some k) (hk : 0 < k) :
    ∃ x xs y ys d, a = x :: xs ∧ p = y :: ys ∧ stringDiff x.str y.str = some d ∧ 0 < d ∧
      (k = 1 → x.type = .parameter → d = 1 ∧ x.str.length ≠ 1) := by
  rw [patternDiff] at h
  cases a with
  | nil =>
      rw [patternDiffFrom.eq_def] at h
      have := Option.some.inj h
      omega
  | cons x xs =>
  cases p with
  | nil =>
      have := Option.some.inj h
      omega
  | cons y ys =>
      rw [patternDiffFrom] at h
      obtain ⟨d, hd, h⟩ := Option.bind_eq_some_iff.mp h
      have hpos : 0 < d := by
        by_contra h0
        rw [if_neg (by omega), if_pos (by omega)] at h
        have := Option.some.inj h
        omega
      refine ⟨x, xs, y, ys, d, rfl, rfl, hd, hpos, fun h1 hx => ?_⟩
      by_cases hpart : 0 < d ∧ d ≠ x.str.length
      · rw [if_pos hpart] at h
        have := Option.some.inj h
        omega
      · -- the whole name counts with its brackets
        exfalso
        rw [if_neg hpart, if_neg (by omega)] at h
        by_cases ht : x.type ≠ y.type
        · rw [if_pos ht] at h
          have := Option.some.inj h
          omega
        · rw [if_neg ht, if_pos hx] at h
          have := le_patternDiffFrom h (by omega)
          omega

/-- **An insertion that is not tangled leaves less work for the nested call.** -/
lemma InsertCalls.work_lt {v v' : Visit δ} (h : InsertCalls v v') (ht : ¬ Tangled v) :
    v'.1.work + chars v'.2 < v.1.work + chars v.2 := by
  rcases v with ⟨n, a⟩
  rcases v' with ⟨n', a'⟩
  obtain ⟨k, i, e, hlcp, he, hk, hsub, hnext⟩ := nextVisit_cases h.2
  simp only at hsub hnext hlcp he ht ⊢
  have hle := work_le_of_mem he
  rw [← n.work_eq] at hle
  have hwe := e.work_eq
  have hchars := patternSub_chars a k (patternLen a - k)
  rw [← hsub] at hchars
  rcases hnext with ⟨-, rfl, -⟩ | ⟨hlt, rfl, -⟩
  · omega
  · have hbranch : (e.branch k).child.work =
        chars (patternSub e.pattern k (patternLen e.pattern)) + 1 + e.child.work := by
      rw [Node.work_eq, branch_child, workFrom, workFrom, Edge.work_eq]
      rfl
    have hp := patternSub_chars e.pattern k (patternLen e.pattern)
    rw [hbranch]
    by_contra hge
    -- nothing got less: the edge is the only one
    have hn : n.edgeList = [e] := hle.2 (by omega)
    have hdiff := patternDiff_of_lcp_singleton hn hlcp
    obtain ⟨x, xs, y, ys, d, rfl, hpat, hd, hdpos, hone⟩ := patternDiff_pos hdiff (by omega)
    obtain ⟨hx, hy⟩ := ne_nil_of_stringDiff hd hdpos
    have hxp : x.type = .parameter ∧ k = 1 := by
      by_contra hnp
      have := patternSub_chars_lt xs (patternLen (x :: xs) - k) hx hk fun hx' => by
        by_contra h2
        exact hnp ⟨hx', by omega⟩
      rw [← hsub] at this
      omega
    have hyp : y.type = .parameter := by
      by_contra hnp
      have := patternSub_chars_lt ys (patternLen e.pattern) hy hk fun hy' =>
        absurd hy' hnp
      rw [← hpat] at this
      omega
    obtain ⟨rfl, hlen⟩ := hone (by omega) hxp.1
    rw [hxp.2] at hlcp
    refine ht ⟨i, e, x.str, xs, y.str, ys, hlcp, he, ?_, ?_, hd, hlen⟩
    · rw [← eq_parameter hxp.1]
    · rw [hpat, ← eq_parameter hyp]

/-! ## The law -/

/-- `insert_route` ends on the pattern: its nested calls do, and so does the collision test of each
of them. -/
def Node.InsertEnds (n : Node δ) (a : Pattern) : Prop :=
  Ends InsertCalls (n, a) ∧
    ∀ v, Relation.ReflTransGen InsertCalls (n, a) v → Ends CollisionCalls v

/-- The source's 32 bit counts can hold the route. -/
def ShortCall (_ : Routes δ) (c : AddCall δ) : Prop := c.route.length + 1 < 2 ^ 31

instance (s : Routes δ) (c : AddCall δ) : Decidable (ShortCall s c) :=
  inferInstanceAs (Decidable (_ < _))

/-- `add_route` ends on the route. -/
def AddEnds (rootNode : Option (Node δ)) (route : Str) : Prop :=
  ∀ pattern ∈ convertPathToPattern route, (rootNode.getD .new).InsertEnds pattern

/-! A call that ends is one that some depth is enough for, unless it reads past the end of a string
on the way. -/

lemma collisionTest_mono {depth depth' : ℕ} {n : Node δ} {a : Pattern} {b : Bool}
    (h : n.collisionTest depth a = some b) (hle : depth ≤ depth') :
    n.collisionTest depth' a = some b := by
  induction hle with
  | refl => exact h
  | step _ ih => exact collisionTest_succ ih

lemma insertRoute_mono {depth depth' : ℕ} {n : Node δ} {a : Pattern} {data : Option δ}
    {r : Node δ × Bool} (h : n.insertRoute depth a data = some r) (hle : depth ≤ depth') :
    n.insertRoute depth' a data = some r := by
  induction hle with
  | refl => exact h
  | step _ ih => exact insertRoute_succ ih

/-- The collision test of a call has a result. -/
def CollisionDefined (v : Visit δ) : Prop := ∃ depth b, v.1.collisionTest depth v.2 = some b

/-- An insertion with a result has its collision test and its nested call behind it. -/
lemma insertRoute_nested {depth : ℕ} {n : Node δ} {a : Pattern} {data : Option δ}
    {r : Node δ × Bool} (h : n.insertRoute (depth + 1) a data = some r) :
    CollisionDefined (n, a) ∧
      ∀ v, InsertCalls (n, a) v → ∃ r', v.1.insertRoute depth v.2 data = some r' := by
  rw [Node.insertRoute] at h
  obtain ⟨free, hfree, h⟩ := Option.bind_eq_some_iff.mp h
  refine ⟨⟨depth + 1, free, hfree⟩, ?_⟩
  rintro ⟨n', a'⟩ ⟨⟨depth', hpass⟩, hnext⟩
  obtain rfl : free = true := by
    have h1 := collisionTest_mono hfree (Nat.le_add_right (depth + 1) depth')
    have h2 := collisionTest_mono hpass (Nat.le_add_left depth' (depth + 1))
    exact Option.some.inj (h1.symm.trans h2)
  obtain ⟨k, i, e, hlcp, he, hk, hsub, hcase⟩ := nextVisit_cases hnext
  simp only at hlcp he hsub hcase
  simp only [Bool.true_eq_false, if_false, hlcp, Option.bind_eq_bind, Option.bind_some,
    Nat.pos_iff_ne_zero.mp hk, he] at h
  rcases hcase with ⟨hfull, rfl, h0⟩ | ⟨hlt, rfl, h0⟩
  · rw [if_pos hfull, ← hsub, if_neg h0] at h
    obtain ⟨r', hr', -⟩ := Option.bind_eq_some_iff.mp h
    exact ⟨r', hr'⟩
  · rw [if_neg (by omega), if_pos hlt, if_neg h0, ← hsub] at h
    obtain ⟨r', hr', -⟩ := Option.bind_eq_some_iff.mp h
    exact ⟨r', hr'⟩

/-- Where the collision test has a result, so has the insertion, if its nested call has. -/
lemma insertRoute_of_nested {n : Node δ} {a : Pattern} {data : Option δ}
    (hdef : CollisionDefined (n, a))
    (hnest : ∀ v, InsertCalls (n, a) v → ∃ depth r, v.1.insertRoute depth v.2 data = some r) :
    ∃ depth r, n.insertRoute depth a data = some r := by
  obtain ⟨depth₀, free, hfree⟩ := hdef
  cases free with
  | false =>
      have hpos : depth₀ ≠ 0 := by
        rintro rfl
        cases hfree
      obtain ⟨d, rfl⟩ := Nat.exists_eq_succ_of_ne_zero hpos
      exact ⟨d + 1, (n, false), by simp only [Node.insertRoute, hfree]; rfl⟩
  | true =>
      -- the depth that the nested call needs, if there is one
      obtain ⟨d, hd⟩ : ∃ d, ∀ v, n.nextVisit a = some v →
          ∃ r, v.1.insertRoute d v.2 data = some r := by
        cases hv : n.nextVisit a with
        | none => exact ⟨0, by simp⟩
        | some v =>
            obtain ⟨d, r, hr⟩ := hnest v ⟨⟨depth₀, hfree⟩, hv⟩
            refine ⟨d, fun v' hv' => ?_⟩
            obtain rfl := Option.some.inj hv'
            exact ⟨r, hr⟩
      refine ⟨max depth₀ d + 1, ?_⟩
      have hd' : ∀ v, n.nextVisit a = some v →
          ∃ r, v.1.insertRoute (max depth₀ d) v.2 data = some r := fun v hv => by
        obtain ⟨r, hr⟩ := hd v hv
        exact ⟨r, insertRoute_mono hr (Nat.le_max_right _ _)⟩
      have hpass := collisionTest_mono hfree
        (show depth₀ ≤ max depth₀ d + 1 from le_trans (Nat.le_max_left _ _) (Nat.le_succ _))
      rw [Node.insertRoute, hpass]
      rw [Node.collisionTest] at hpass
      simp only [Option.bind_eq_bind, Option.bind_some, Bool.true_eq_false, if_false]
      generalize max depth₀ d = m at hd' hpass ⊢
      obtain ⟨q, hlcp, hpass⟩ := Option.bind_eq_some_iff.mp hpass
      cases q with
      | none => cases hpass
      | some q =>
      obtain ⟨k, common⟩ := q
      simp only [hlcp, Option.bind_some] at hpass ⊢
      by_cases hk : k = 0
      · exact ⟨_, by rw [if_pos hk]⟩
      rw [if_neg hk] at hpass ⊢
      cases common with
      | none => cases hpass
      | some i =>
      obtain ⟨j, hj, hpass⟩ := Option.bind_eq_some_iff.mp hpass
      cases hj
      obtain ⟨e, he, -⟩ := Option.bind_eq_some_iff.mp hpass
      rw [Option.bind_some, he, Option.bind_some]
      simp only [Node.nextVisit, hlcp, he, hk, if_false] at hd'
      split_ifs at hd' ⊢
      · exact ⟨_, rfl⟩
      · obtain ⟨r, hr⟩ := hd' _ rfl
        exact ⟨_, by rw [hr]; rfl⟩
      · exact ⟨_, rfl⟩
      · obtain ⟨r, hr⟩ := hd' _ rfl
        exact ⟨_, by rw [hr]; rfl⟩
      · exact ⟨_, rfl⟩

/-- **A call ends and is defined exactly if some depth is enough for it.** -/
theorem insertRoute_isSome_iff (n : Node δ) (a : Pattern) (data : Option δ) :
    (∃ depth r, n.insertRoute depth a data = some r) ↔ Ends InsertCalls (n, a) ∧
      ∀ v, Relation.ReflTransGen InsertCalls (n, a) v → CollisionDefined v := by
  constructor
  · rintro ⟨depth, r, h⟩
    induction depth generalizing n a r with
    | zero => cases h
    | succ depth ih =>
        obtain ⟨hdef, hnest⟩ := insertRoute_nested h
        refine ⟨Acc.intro _ fun v hv => ?_, fun v hv => ?_⟩
        · obtain ⟨r', hr'⟩ := hnest v hv
          exact (ih v.1 v.2 r' hr').1
        · rcases hv.cases_head with rfl | ⟨u, hu, huv⟩
          · exact hdef
          · obtain ⟨r', hr'⟩ := hnest u hu
            exact (ih u.1 u.2 r' hr').2 v huv
  · rintro ⟨hends, hdef⟩
    generalize hs : (n, a) = s at hends hdef
    induction hends generalizing n a with
    | intro s _ ih =>
        subst hs
        refine insertRoute_of_nested (hdef _ .refl) fun v hv => ?_
        exact ih v hv v.1 v.2 rfl fun u hu => hdef u (.head hv hu)

/-- It ends exactly if it comes to no tangled place, whatever the trie and the route. -/
lemma addEnds_iff (rootNode : Option (Node δ)) (route : Str) :
    AddEnds rootNode route ↔ ∀ pattern ∈ convertPathToPattern route, ∀ v,
      Relation.ReflTransGen InsertCalls (rootNode.getD .new, pattern) v → ¬ Tangled v := by
  refine forall₂_congr fun pattern _ => ?_
  have hiff := ends_iff (μ := fun v : Visit δ => v.1.work + chars v.2)
    (fun _ (h : Tangled _) => h.next) (fun _ _ h ht => h.work_lt ht) (rootNode.getD .new, pattern)
  rw [Node.InsertEnds, hiff]
  exact and_iff_left fun v _ => collision_ends v

/-- **`add_route` of a short route ends exactly if the insertion comes to no tangled place**, after
any calls with short routes. -/
theorem addRoute_ends_iff {s : Routes δ} (_ : ((Routes.machine δ).guarded ShortCall).Reachable s)
    (r : Route) : AddEnds s.rootNode r.bytes ↔ ∀ pattern ∈ convertPathToPattern r.bytes, ∀ v,
      Relation.ReflTransGen InsertCalls (s.root, pattern) v → ¬ Tangled v :=
  addEnds_iff s.rootNode r.bytes

def bloopsRoute : Route := ⟨str "/bloops/<x>", by decide +kernel⟩

/-- After the routes of the tests, `/bloops/<x>` is inserted and comes to no tangled place. -/
theorem addRoute_ends_iff_tests : ∃ s : Routes ℕ,
    ((Routes.machine ℕ).guarded ShortCall).Reachable s ∧ s.added.length = 9 ∧
      AddEnds s.rootNode bloopsRoute.bytes ∧
      ∀ pattern ∈ convertPathToPattern bloopsRoute.bytes, ∀ v,
        Relation.ReflTransGen InsertCalls (s.root, pattern) v → ¬ Tangled v := by
  have hrun : (testRoutes.foldlM
      (fun s c => if ShortCall s c then Routes.next s c else none) ⟨none, []⟩).map
        (fun s => (s.added.length, (convertPathToPattern bloopsRoute.bytes).all fun pattern =>
          (s.root.insertRoute 8 pattern none).isSome)) = some (9, true) := by
    decide +kernel
  obtain ⟨s, hs, hobs⟩ := Option.map_eq_some_iff.mp hrun
  obtain ⟨hlen, hall⟩ := Prod.mk.inj hobs
  have hreach : ((Routes.machine ℕ).guarded ShortCall).Reachable s :=
    .guarded_foldlM (fun _ _ _ he => he) rfl hs
  have hends : AddEnds s.rootNode bloopsRoute.bytes := by
    intro pattern hpattern
    rw [Option.mem_def.mp hpattern, Option.all_some] at hall
    obtain ⟨r, hr⟩ := Option.isSome_iff_exists.mp hall
    exact ⟨((insertRoute_isSome_iff _ _ _).mp ⟨8, r, hr⟩).1, fun v _ => collision_ends v⟩
  exact ⟨s, hreach, hlen, hends, (addRoute_ends_iff hreach bloopsRoute).mp hends⟩

/-- After `/<ab>`, the route `/<ax>` is inserted for ever. -/
theorem tangled_route_never_ends : ¬ ∀ s : Routes ℕ,
    ((Routes.machine ℕ).guarded ShortCall).Reachable s →
    ∀ r : Route, AddEnds s.rootNode r.bytes := by
  intro hall
  have hrun : Routes.next ⟨none, []⟩ (add "/<ab>" 1) =
      some ⟨some (.mk 0 none [.mk [.string [47], .parameter [97, 98]] (.mk 1 (some 1) [])]),
        [(str "/<ab>", 1)]⟩ := by
    rfl
  have hreach : ((Routes.machine ℕ).guarded ShortCall).Reachable _ :=
    .step (.start rfl) ⟨by decide, hrun⟩
  have hends :=
    (hall _ hreach ⟨str "/<ax>", by decide⟩ [.string [47], .parameter [97, 120]] (by decide)).1
  -- the first split leaves the two parameters to each other
  have hcall : InsertCalls
      (Node.mk 0 none [.mk [.string [47], .parameter [97, 98]] (.mk 1 (some 1) [])],
        [.string [47], .parameter [97, 120]])
      (Node.mk 0 none [.mk [.parameter [97, 98]] (.mk 1 (some 1) [])], [.parameter [97, 120]]) :=
    ⟨⟨1, rfl⟩, rfl⟩
  have htangled : Tangled
      (Node.mk 0 none [.mk [.parameter [97, 98]] (.mk 1 (some 1) [])], [.parameter [97, 120]]) :=
    ⟨0, _, [97, 120], [], [97, 98], [], rfl, rfl, rfl, rfl, rfl, by decide⟩
  exact not_ends_of_stuck (fun _ h => h.next) (hends.nested hcall) htangled

end UrlRouter

end Is2
