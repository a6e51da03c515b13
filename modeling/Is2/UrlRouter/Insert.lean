import Is2.UrlRouter.Cuts

/-!
# What an insertion does to the trie

The trie is read as a table of routes: a node *spells* the tokens on the edges down to it, and
`Node.Spells` relates what is spelled to the data found there.  If every cut that an insertion
makes is clean, then insertion adds one row to the table and changes no other row.  What it may add
is said once for cuts that change the rows in any way that goes through concatenation
(`insertRoute_rows`); clean cuts change them in no way (`CutOk.upTo`).

`Inserted` says once what `insert_route` does at one node: it refuses, connects a new node, goes
down an edge, or splits one.  `visits` is the list of nodes it goes through, with the pattern that
is left at each; conditions on an insertion are conditions on its visits.

The prefix that the pattern has in common with an edge is no longer than the edge, and does not come
to a terminal (`lcp_le_beforeTerminal`); so an insertion never goes down an edge that ends with one.
-/

namespace Is2

namespace UrlRouter

variable {δ : Type}

/-! ## The depth of the recursion

A call that ends within some depth has the same result at any greater depth, so the depth says only
whether the call ends.
-/

lemma collisionTest_succ {depth : ℕ} {n : Node δ} {a : Pattern} {b : Bool}
    (h : n.collisionTest depth a = some b) : n.collisionTest (depth + 1) a = some b := by
  induction depth generalizing n a with
  | zero => cases h
  | succ depth ih =>
      rw [Node.collisionTest] at h ⊢
      cases hr : n.findLongestCommonPrefix a with
      | none =>
          rw [hr] at h
          cases h
      | some r =>
      rw [hr] at h
      cases r with
      | none => exact h
      | some q =>
      obtain ⟨k, common⟩ := q
      simp only [Option.bind_eq_bind, Option.bind_some] at h ⊢
      by_cases hk : k = 0
      · rw [if_pos hk] at h ⊢
        exact h
      rw [if_neg hk] at h ⊢
      obtain ⟨i, hi, h⟩ := Option.bind_eq_some_iff.mp h
      obtain ⟨e, he, h⟩ := Option.bind_eq_some_iff.mp h
      rw [hi, Option.bind_some, he, Option.bind_some]
      split_ifs at h ⊢
      · exact h
      · exact ih h
      · exact h
lemma insertRoute_succ {depth : ℕ} {n : Node δ} {a : Pattern} {data : Option δ} {r : Node δ × Bool}
    (h : n.insertRoute depth a data = some r) : n.insertRoute (depth + 1) a data = some r := by
  induction depth generalizing n a r with
  | zero => cases h
  | succ depth ih =>
      rw [Node.insertRoute] at h ⊢
      obtain ⟨free, hfree, h⟩ := Option.bind_eq_some_iff.mp h
      rw [collisionTest_succ hfree]
      cases free with
      | false => exact h
      | true =>
      simp only [Bool.true_eq_false, if_false, Option.bind_eq_bind, Option.bind_some] at h ⊢
      obtain ⟨q, hlcp, h⟩ := Option.bind_eq_some_iff.mp h
      rw [hlcp, Option.bind_some]
      cases q with
      | none => exact h
      | some q =>
      obtain ⟨k, common⟩ := q
      by_cases hk : k = 0
      · simp only [hk, if_true] at h ⊢
        exact h
      simp only [hk, if_false] at h ⊢
      obtain ⟨i, hi, h⟩ := Option.bind_eq_some_iff.mp h
      obtain ⟨e, he, h⟩ := Option.bind_eq_some_iff.mp h
      rw [hi, Option.bind_some, he, Option.bind_some]
      split_ifs at h ⊢
      · exact h
      · obtain ⟨c, hc, h⟩ := Option.bind_eq_some_iff.mp h
        rw [ih hc]
        exact h
      · exact h
      · obtain ⟨c, hc, h⟩ := Option.bind_eq_some_iff.mp h
        rw [ih hc]
        exact h
      · exact h

/-- **The result of a call does not depend on the depth.** -/
theorem addRoute_depth {depth depth' : ℕ} {rootNode : Option (Node δ)} {route : Str}
    {data : Option δ} {r r' : Option (Node δ) × ℤ} (h : addRoute depth rootNode route data = some r)
    (h' : addRoute depth' rootNode route data = some r') : r = r' := by
  have hsucc : ∀ k r, addRoute k rootNode route data = some r →
      addRoute (k + 1) rootNode route data = some r := by
    intro k r hk
    rw [addRoute] at hk ⊢
    split at hk
    · exact hk
    · obtain ⟨q, hq, hk⟩ := Option.bind_eq_some_iff.mp hk
      rw [insertRoute_succ hq]
      exact hk
  have hadd : ∀ k j r, addRoute k rootNode route data = some r →
      addRoute (k + j) rootNode route data = some r := by
    intro k j r hk
    induction j with
    | zero => exact hk
    | succ j ih => exact hsucc _ _ ih
  have hl := hadd depth depth' r h
  rw [Nat.add_comm, hadd depth' depth r' h'] at hl
  exact (Option.some.inj hl).symm

/-! ## The table that a trie spells -/

/-- The edge leads to data `d` along the tokens `w`. -/
inductive Edge.Spells : Edge δ → List (Tok UInt8) → δ → Prop where
  | here {e : Edge δ} {d : δ} (h : e.child.data = some d) : e.Spells (toks e.pattern) d
  | down {e e' : Edge δ} {w : List (Tok UInt8)} {d : δ} (he : e' ∈ e.child.edgeList)
      (h : e'.Spells w d) : e.Spells (toks e.pattern ++ w) d

/-- The node leads to data `d` along the tokens `w`. -/
def Node.Spells (n : Node δ) (w : List (Tok UInt8)) (d : δ) : Prop :=
  ∃ e ∈ n.edgeList, e.Spells w d

/-- The token stands in a pattern at or below the edge. -/
inductive Edge.Holds (t : Tok UInt8) : Edge δ → Prop where
  | here {e : Edge δ} (h : t ∈ toks e.pattern) : Edge.Holds t e
  | down {e e' : Edge δ} (he : e' ∈ e.child.edgeList) (h : Edge.Holds t e') : Edge.Holds t e

/-- The token stands in a pattern below the node. -/
def Node.Holds (t : Tok UInt8) (n : Node δ) : Prop := ∃ e ∈ n.edgeList, e.Holds t

lemma Edge.spells_iff {e : Edge δ} {w : List (Tok UInt8)} {d : δ} :
    e.Spells w d ↔ (w = toks e.pattern ∧ e.child.data = some d) ∨
      ∃ v, w = toks e.pattern ++ v ∧ e.child.Spells v d := by
  constructor
  · intro h
    cases h with
    | here h => exact .inl ⟨rfl, h⟩
    | down he h => exact .inr ⟨_, rfl, _, he, h⟩
  · rintro (⟨rfl, h⟩ | ⟨v, rfl, e', he, h⟩)
    · exact .here h
    · exact .down he h

lemma Edge.holds_iff {t : Tok UInt8} {e : Edge δ} :
    e.Holds t ↔ t ∈ toks e.pattern ∨ e.child.Holds t := by
  constructor
  · intro h
    cases h with
    | here h => exact .inl h
    | down he h => exact .inr ⟨_, he, h⟩
  · rintro (h | ⟨e', he, h⟩)
    · exact .here h
    · exact .down he h

lemma Node.mem_setEdge {n : Node δ} {i : ℕ} {x y : Edge δ}
    (h : y ∈ (n.setEdge i x).edgeList) : y ∈ n.edgeList ∨ y = x :=
  List.mem_or_eq_of_mem_set h

lemma Node.setEdge_mem {n : Node δ} {i : ℕ} {e x : Edge δ} (he : n.edgeList[i]? = some e) :
    x ∈ (n.setEdge i x).edgeList := by
  obtain ⟨hi, -⟩ := List.getElem?_eq_some_iff.mp he
  exact List.mem_set hi x

/-- The other edges stay. -/
lemma Node.mem_setEdge_of_mem {n : Node δ} {i : ℕ} {e x y : Edge δ}
    (he : n.edgeList[i]? = some e) (hy : y ∈ n.edgeList) :
    y = e ∨ y ∈ (n.setEdge i x).edgeList := by
  obtain ⟨j, hj⟩ := List.mem_iff_getElem?.mp hy
  by_cases hij : i = j
  · subst hij
    exact .inl (Option.some.inj (hj.symm.trans he))
  · refine .inr (List.mem_iff_getElem?.mpr ⟨j, ?_⟩)
    simp only [Node.setEdge, Node.edgeList] at hj ⊢
    rw [List.getElem?_set, if_neg hij]
    exact hj

/-! ## The common prefix is no longer than its edge -/

lemma stringDiff_le {x y : Str} {d : ℕ} (h : stringDiff x y = some d) : d ≤ y.length := by
  induction x generalizing y d with
  | nil =>
      cases y with
      | nil => exact le_of_eq (Option.some.inj h).symm
      | cons y ys =>
          rw [stringDiff] at h
          split_ifs at h
          exact le_trans (le_of_eq (Option.some.inj h).symm) (Nat.zero_le _)
  | cons x xs ih =>
      cases y with
      | nil => exact le_of_eq (Option.some.inj h).symm
      | cons y ys =>
          rw [stringDiff] at h
          split_ifs at h
          · obtain ⟨d, hd, rfl⟩ := Option.map_eq_some_iff.mp h
            exact Nat.succ_le_succ (ih hd)
          · exact le_trans (le_of_eq (Option.some.inj h).symm) (Nat.zero_le _)

lemma patternLen_cons (x : Part) (xs : Pattern) :
    patternLen (x :: xs) = x.len + patternLen xs := by
  simp [patternLen]

/-- What `pattern_len` counts for a part, by its type. -/
lemma Part.len_eq (x : Part) :
    x.str.length + (if x.type = .parameter then 2 else 0) ≤ x.len := by
  cases x with
  | string str => simp [Part.str, Part.type, Part.len]
  | parameter str => simp [Part.str, Part.type, Part.len, Nat.add_comm]
  | terminal => simp [Part.str, Part.type]

/-- The parts in front of the terminal. -/
def beforeTerminal (a : Pattern) : Pattern := a.takeWhile (· ≠ .terminal)

lemma beforeTerminal_cons {x : Part} (hx : x ≠ .terminal) (xs : Pattern) :
    beforeTerminal (x :: xs) = x :: beforeTerminal xs :=
  List.takeWhile_cons_of_pos (by simpa using hx)

lemma patternLen_beforeTerminal (a : Pattern) :
    patternLen (beforeTerminal a) ≤ patternLen a ∧
      (.terminal ∈ a → patternLen (beforeTerminal a) < patternLen a) := by
  induction a with
  | nil => exact ⟨le_rfl, fun h => absurd h List.not_mem_nil⟩
  | cons x xs ih =>
      by_cases hx : x = .terminal
      · subst hx
        rw [patternLen_cons, Part.len]
        change 0 ≤ _ ∧ (_ → 0 < _)
        omega
      · rw [beforeTerminal_cons hx, patternLen_cons, patternLen_cons]
        refine ⟨Nat.add_le_add_left ih.1 _, fun hmem => Nat.add_lt_add_left (ih.2 ?_) _⟩
        exact (List.mem_cons.mp hmem).resolve_left (Ne.symm hx)

/-- **The common prefix does not come to the terminal of the edge.** -/
lemma patternDiffFrom_le {a p : Pattern} {len k : ℤ} (h : patternDiffFrom len a p = some k)
    (hk : 0 ≤ k) : k ≤ len + patternLen (beforeTerminal p) := by
  induction a generalizing p len with
  | nil =>
      rw [patternDiffFrom.eq_def] at h
      have := Option.some.inj h
      omega
  | cons x xs ih =>
      cases p with
      | nil =>
          have := Option.some.inj h
          omega
      | cons y ys =>
          rw [patternDiffFrom] at h
          obtain ⟨d, hd, h⟩ := Option.bind_eq_some_iff.mp h
          have hdle := stringDiff_le hd
          by_cases hy : y = .terminal
          · -- its string is empty
            subst hy
            obtain rfl : d = 0 := Nat.le_zero.mp hdle
            rw [if_neg (by omega), if_pos rfl] at h
            have := Option.some.inj h
            omega
          have hlen := y.len_eq
          rw [beforeTerminal_cons hy, patternLen_cons]
          by_cases h1 : 0 < d ∧ d ≠ x.str.length
          · rw [if_pos h1] at h
            have := Option.some.inj h
            omega
          rw [if_neg h1] at h
          by_cases h2 : d = 0
          · rw [if_pos h2] at h
            have := Option.some.inj h
            omega
          rw [if_neg h2] at h
          by_cases h3 : x.type ≠ y.type
          · rw [if_pos h3] at h
            have := Option.some.inj h
            omega
          rw [if_neg h3] at h
          have hle := ih h
          rw [not_not.mp h3] at hle
          split_ifs at hle hlen <;> omega

/-- The edge that the loop returns was chosen for a prefix that is no shorter than the one it
reports. -/
lemma lcpFrom_le {a : Pattern} {all es : List (Edge δ)} {longest k i : ℕ} {edge : Option ℕ}
    {c : ℤ} (pre : List (Edge δ))
    (h : lcpFrom a es pre.length longest edge c = some (some (k, some i)))
    (hall : all = pre ++ es) (hc : c.toNat ≤ longest)
    (hedge : ∀ j ∈ edge, ∃ e, all[j]? = some e ∧ patternDiff a e.pattern = some (longest : ℤ)) :
    ∃ e, all[i]? = some e ∧ ∃ d : ℕ, patternDiff a e.pattern = some (d : ℤ) ∧ k ≤ d := by
  induction es generalizing pre longest edge c with
  | nil =>
      simp only [lcpFrom, Option.some.injEq, Prod.mk.injEq] at h
      obtain ⟨rfl, rfl⟩ := h
      obtain ⟨e, he, hd⟩ := hedge i rfl
      exact ⟨e, he, longest, hd, hc⟩
  | cons e es ih =>
      rw [lcpFrom] at h
      obtain ⟨d, hd, h⟩ := Option.bind_eq_some_iff.mp h
      have hlen : pre.length + 1 = (pre ++ [e]).length := by simp
      have hall' : all = (pre ++ [e]) ++ es := by simp [hall]
      rw [hlen] at h
      split_ifs at h with hneg hlong
      · cases h
      · refine ih _ h hall' le_rfl ?_
        rintro j hj
        obtain rfl := Option.some.inj hj
        exact ⟨e, by simp [hall], by rw [hd, Int.toNat_of_nonneg (by omega)]⟩
      · exact ih _ h hall' (by omega) hedge

lemma lcp_le_beforeTerminal {n : Node δ} {a : Pattern} {k i : ℕ} {e : Edge δ}
    (h : n.findLongestCommonPrefix a = some (some (k, some i))) (he : n.edgeList[i]? = some e) :
    k ≤ patternLen (beforeTerminal e.pattern) := by
  obtain ⟨e', he', d, hd, hk⟩ :=
    lcpFrom_le [] h rfl (le_refl 0) (fun j hj => by cases hj)
  obtain rfl := Option.some.inj (he.symm.trans he')
  have hle := patternDiffFrom_le hd (Int.natCast_nonneg d)
  omega

lemma lcp_le {n : Node δ} {a : Pattern} {k i : ℕ} {e : Edge δ}
    (h : n.findLongestCommonPrefix a = some (some (k, some i))) (he : n.edgeList[i]? = some e) :
    k ≤ patternLen e.pattern :=
  (lcp_le_beforeTerminal h he).trans (patternLen_beforeTerminal _).1

/-! ## Clean cuts -/

/-- **A clean cut** of an edge's pattern and of the pattern to insert: both have a cut of this
length between two tokens, the tokens before it are the same, and the tokens after it have a
character. -/
def CleanCut (e a : Pattern) (n : ℕ) : Prop :=
  ∃ c ∈ cutAt width (toks e) n, ∃ c' ∈ cutAt width (toks a) n,
    c.1 = c'.1 ∧ Tok.rest ∉ c.1 ∧ Lettered c.2 ∧ Lettered c'.2

instance (e a : Pattern) (n : ℕ) : Decidable (CleanCut e a n) :=
  inferInstanceAs (Decidable (∃ c ∈ cutAt width (toks e) n, ∃ c' ∈ cutAt width (toks a) n,
    c.1 = c'.1 ∧ Tok.rest ∉ c.1 ∧ Lettered c.2 ∧ Lettered c'.2))

section CleanCut

variable {e a : Pattern} {n : ℕ}

lemma CleanCut.split (h : CleanCut e a n) : ∃ l re ra, toks e = l ++ re ∧ toks a = l ++ ra ∧
    weight width l = n ∧ Tok.rest ∉ l ∧ Lettered re ∧ Lettered ra := by
  obtain ⟨⟨l, re⟩, he, ⟨l', ra⟩, ha, hl, hrest, hre, hra⟩ := h
  obtain rfl : l = l' := hl
  obtain ⟨hsplit, hw⟩ := cutAt_some he
  exact ⟨l, re, ra, hsplit, (cutAt_some ha).1, hw, hrest, hre, hra⟩

/-- The edge is split into two edges that spell it. -/
lemma CleanCut.branch_toks (h : CleanCut e a n) (hpos : 0 < n) :
    toks e = toks (patternSub e 0 n) ++ toks (patternSub e n (patternLen e)) := by
  obtain ⟨l, re, ra, he, ha, hw, hrest, hre, hra⟩ := h.split
  have hlen : weight width re ≤ patternLen e := by
    rw [patternLen_eq, he, weight_append]
    omega
  rw [patternSub_front he hw hpos hrest, patternSub_back he hw hpos hlen hrest hre, he]

/-- The front of the edge and the rest of the pattern spell the pattern. -/
lemma CleanCut.sub_toks (h : CleanCut e a n) (hpos : 0 < n) :
    toks a = toks (patternSub e 0 n) ++ toks (patternSub a n (patternLen a - n)) := by
  obtain ⟨l, re, ra, he, ha, hw, hrest, hre, hra⟩ := h.split
  have hlen : weight width ra ≤ patternLen a - n := by
    rw [patternLen_eq, ha, weight_append]
    omega
  rw [patternSub_front he hw hpos hrest, patternSub_back ha hw hpos hlen hrest hra, ha]

/-- Where nothing of the pattern is left, the front of the edge spells it. -/
lemma CleanCut.endpoint_toks (h : CleanCut e a n) (hpos : 0 < n) (hend : patternLen a - n = 0) :
    toks a = toks (patternSub e 0 n) := by
  obtain ⟨l, re, ra, he, ha, hw, hrest, hre, hra⟩ := h.split
  rw [patternLen_eq, ha, weight_append] at hend
  have hnil : ra = [] := eq_nil_of_weight (by omega)
  rw [patternSub_front he hw hpos hrest, ha, hnil, List.append_nil]

/-- Where the cut is at the end of the edge, the edge itself is the front. -/
lemma CleanCut.descend_toks (h : CleanCut e a (patternLen e)) (hpos : 0 < patternLen e) :
    toks a = toks e ++ toks (patternSub a (patternLen e) (patternLen a - patternLen e)) := by
  obtain ⟨l, re, ra, he, ha, hw, hrest, hre, hra⟩ := h.split
  have hnil : re = [] := by
    refine eq_nil_of_weight ?_
    rw [patternLen_eq, he, weight_append] at hw
    omega
  rw [hnil, List.append_nil] at he
  rw [h.sub_toks hpos, patternSub_front (r := []) (by rw [he, List.append_nil]) hw hpos hrest, he]

end CleanCut

/-! ## One node of an insertion -/

/-- The nested call of `insert_route`, if there is one: a node and the pattern left for it. -/
def Node.nextVisit (n : Node δ) (a : Pattern) : Option (Node δ × Pattern) :=
  match n.findLongestCommonPrefix a with
  | some (some (prefixLen, some i)) =>
    match n.edgeList[i]? with
    | some e =>
      let subpattern := patternSub a prefixLen (patternLen a - prefixLen)
      if prefixLen = 0 then none
      else if prefixLen = patternLen e.pattern then
        if patternLen subpattern = 0 then none else some (e.child, subpattern)
      else if prefixLen < patternLen e.pattern then
        if patternLen a - prefixLen = 0 then none
        else some ((e.branch prefixLen).child, subpattern)
      else none
    | none => none
  | _ => none

/-- The nodes that an insertion goes through, with the pattern that is left at each. -/
def Node.visits : ℕ → Node δ → Pattern → List (Node δ × Pattern)
  | 0, _, _ => []
  | depth + 1, n, a =>
    if n.collisionTest (depth + 1) a = some true then
      (n, a) :: match n.nextVisit a with
        | some v => v.1.visits depth v.2
        | none => []
    else []

/-- **What `insert_route` does at one node.** -/
inductive Inserted (depth : ℕ) (n : Node δ) (a : Pattern) (data : Option δ) :
    Node δ → Bool → Prop where
  | refused : Inserted depth n a data n false
  | connected {common : Option ℕ} (hv : (n, a) ∈ n.visits (depth + 1) a)
      (hlcp : n.findLongestCommonPrefix a = some (some (0, common))) :
      Inserted depth n a data (n.connect (.mk 1 data []) a) true
  | descended {i : ℕ} {e : Edge δ} {child : Node δ} {ok : Bool} {sub : Pattern}
      (he : n.edgeList[i]? = some e) (hpos : 0 < patternLen e.pattern)
      (hlcp : n.findLongestCommonPrefix a = some (some (patternLen e.pattern, some i)))
      (hsub : sub = patternSub a (patternLen e.pattern) (patternLen a - patternLen e.pattern))
      (hv : n.visits (depth + 1) a = (n, a) :: e.child.visits depth sub)
      (hins : e.child.insertRoute depth sub data = some (child, ok))
      (hnext : n.nextVisit a = some (e.child, sub)) (hne : patternLen sub ≠ 0) :
      Inserted depth n a data (n.setEdge i (.mk e.pattern child)) ok
  | endpoint {i k : ℕ} {e : Edge δ} (he : n.edgeList[i]? = some e) (hpos : 0 < k)
      (hlcp : n.findLongestCommonPrefix a = some (some (k, some i)))
      (hend : patternLen a - k = 0) (hv : (n, a) ∈ n.visits (depth + 1) a)
      (hlt : k < patternLen e.pattern) :
      Inserted depth n a data
        (n.setEdge i (.mk (e.branch k).pattern ((e.branch k).child.setData data))) true
  | branched {i k : ℕ} {e : Edge δ} {child : Node δ} {ok : Bool} {sub : Pattern}
      (he : n.edgeList[i]? = some e) (hpos : 0 < k)
      (hlcp : n.findLongestCommonPrefix a = some (some (k, some i)))
      (hsub : sub = patternSub a k (patternLen a - k))
      (hv : n.visits (depth + 1) a = (n, a) :: (e.branch k).child.visits depth sub)
      (hins : (e.branch k).child.insertRoute depth sub data = some (child, ok))
      (hnext : n.nextVisit a = some ((e.branch k).child, sub)) (hlt : k < patternLen e.pattern)
      (hleft : patternLen a - k ≠ 0) :
      Inserted depth n a data (n.setEdge i (.mk (e.branch k).pattern child)) ok

lemma insertRoute_inserted {depth : ℕ} {n n' : Node δ} {a : Pattern} {data : Option δ} {ok : Bool}
    (h : n.insertRoute (depth + 1) a data = some (n', ok)) : Inserted depth n a data n' ok := by
  rw [Node.insertRoute] at h
  obtain ⟨free, hfree, h⟩ := Option.bind_eq_some_iff.mp h
  cases free with
  | false =>
      obtain ⟨rfl, rfl⟩ := Prod.mk.inj (Option.some.inj h)
      exact .refused
  | true =>
  simp only [Bool.true_eq_false, if_false] at h
  obtain ⟨r, hlcp, h⟩ := Option.bind_eq_some_iff.mp h
  cases r with
  | none =>
      obtain ⟨rfl, rfl⟩ := Prod.mk.inj (Option.some.inj h)
      exact .refused
  | some q =>
  obtain ⟨k, common⟩ := q
  simp only at h
  have hmem : (n, a) ∈ n.visits (depth + 1) a := by
    rw [Node.visits, if_pos hfree]
    exact List.mem_cons_self
  by_cases hk : k = 0
  · rw [if_pos hk] at h
    obtain ⟨rfl, rfl⟩ := Prod.mk.inj (Option.some.inj h)
    subst hk
    exact .connected hmem hlcp
  rw [if_neg hk] at h
  have hpos : 0 < k := Nat.pos_of_ne_zero hk
  cases common with
  | none => cases h
  | some i =>
  obtain ⟨j, hj, h⟩ := Option.bind_eq_some_iff.mp h
  cases hj
  obtain ⟨e, he, h⟩ := Option.bind_eq_some_iff.mp h
  split_ifs at h with hfull hsub hlt hend
  · obtain ⟨rfl, rfl⟩ := Prod.mk.inj (Option.some.inj h)
    exact .refused
  · obtain ⟨⟨child, ok'⟩, hins, h⟩ := Option.bind_eq_some_iff.mp h
    obtain ⟨rfl, rfl⟩ := Prod.mk.inj (Option.some.inj h)
    subst hfull
    have hnext : n.nextVisit a = some (e.child,
        patternSub a (patternLen e.pattern) (patternLen a - patternLen e.pattern)) := by
      simp [Node.nextVisit, hlcp, he, hk, hsub]
    refine .descended he hpos hlcp rfl ?_ hins hnext hsub
    simp [Node.visits, hfree, hnext]
  · obtain ⟨rfl, rfl⟩ := Prod.mk.inj (Option.some.inj h)
    exact .endpoint he hpos hlcp hend hmem hlt
  · obtain ⟨⟨child, ok'⟩, hins, h⟩ := Option.bind_eq_some_iff.mp h
    obtain ⟨rfl, rfl⟩ := Prod.mk.inj (Option.some.inj h)
    have hnext : n.nextVisit a = some ((e.branch k).child, patternSub a k (patternLen a - k)) := by
      simp [Node.nextVisit, hlcp, he, hk, hfull, hlt, hend]
    refine .branched he hpos hlcp rfl ?_ hins hnext hlt hend
    simp [Node.visits, hfree, hnext]
  · obtain ⟨rfl, rfl⟩ := Prod.mk.inj (Option.some.inj h)
    exact .refused

/-- The cut that the insertion makes at this node is clean. -/
def CutOk (n : Node δ) (a : Pattern) : Prop :=
  ∀ r ∈ n.findLongestCommonPrefix a, ∀ q ∈ r, 0 < q.1 →
    ∀ i ∈ q.2, ∀ e ∈ n.edgeList[i]?, CleanCut e.pattern a q.1

instance (n : Node δ) (a : Pattern) : Decidable (CutOk n a) :=
  inferInstanceAs (Decidable (∀ r ∈ n.findLongestCommonPrefix a, ∀ q ∈ r, 0 < q.1 →
    ∀ i ∈ q.2, ∀ e ∈ n.edgeList[i]?, CleanCut e.pattern a q.1))

/-- Where a new edge is made, there is none with this pattern. -/
def NoTwin (n : Node δ) (a : Pattern) : Prop :=
  ∀ r ∈ n.findLongestCommonPrefix a, ∀ q ∈ r, q.1 = 0 → (n.findEdge a).isNone

instance (n : Node δ) (a : Pattern) : Decidable (NoTwin n a) :=
  inferInstanceAs (Decidable (∀ r ∈ n.findLongestCommonPrefix a, ∀ q ∈ r, q.1 = 0 →
    (n.findEdge a).isNone))

lemma CutOk.clean {n : Node δ} {a : Pattern} (h : CutOk n a) {i k : ℕ} {e : Edge δ}
    (hlcp : n.findLongestCommonPrefix a = some (some (k, some i)))
    (he : n.edgeList[i]? = some e) (hpos : 0 < k) : CleanCut e.pattern a k :=
  h _ hlcp _ rfl hpos _ rfl _ he

/-! ## Cuts up to a relation -/

/-- A relation on what is spelled that goes through concatenation. -/
structure Congruent (R : List (Tok UInt8) → List (Tok UInt8) → Prop) : Prop where
  refl : ∀ w, R w w
  trans : ∀ {u v w}, R u v → R v w → R u w
  append : ∀ {u v u' v'}, R u v → R u' v' → R (u ++ u') (v ++ v')

/-- **What the pieces of a cut spell**, of the edge's pattern and of the pattern to insert: what the
patterns do, up to the relation. -/
structure CutUpTo (R : List (Tok UInt8) → List (Tok UInt8) → Prop) (e a : Pattern) (k : ℕ) :
    Prop where
  edge : R (toks (patternSub e 0 k) ++ toks (patternSub e k (patternLen e))) (toks e)
  pattern : R (toks (patternSub e 0 k) ++ toks (patternSub a k (patternLen a - k))) (toks a)
  /-- Where nothing of the pattern is left. -/
  ends : patternLen a - k = 0 → R (toks (patternSub e 0 k)) (toks a)
  /-- Where the edge is not split. -/
  whole : k = patternLen e → R (toks e ++ toks (patternSub a k (patternLen a - k))) (toks a)

/-- So is the cut that the insertion makes at this node. -/
def CutsUpTo (R : List (Tok UInt8) → List (Tok UInt8) → Prop) (n : Node δ) (a : Pattern) : Prop :=
  ∀ r ∈ n.findLongestCommonPrefix a, ∀ q ∈ r, 0 < q.1 →
    ∀ i ∈ q.2, ∀ e ∈ n.edgeList[i]?, CutUpTo R e.pattern a q.1

lemma CutsUpTo.cut {R : List (Tok UInt8) → List (Tok UInt8) → Prop} {n : Node δ} {a : Pattern}
    (h : CutsUpTo R n a) {i k : ℕ} {e : Edge δ}
    (hlcp : n.findLongestCommonPrefix a = some (some (k, some i)))
    (he : n.edgeList[i]? = some e) (hpos : 0 < k) : CutUpTo R e.pattern a k :=
  h _ hlcp _ rfl hpos _ rfl _ he

lemma congruent_eq : Congruent Eq where
  refl _ := rfl
  trans := Eq.trans
  append h h' := congrArg₂ _ h h'

/-- Clean cuts change nothing. -/
lemma CutOk.upTo {n : Node δ} {a : Pattern} (h : CutOk n a) : CutsUpTo Eq n a := by
  intro r hr q hq hpos i hi e he
  have hclean := h r hr q hq hpos i hi e he
  refine ⟨(hclean.branch_toks hpos).symm, (hclean.sub_toks hpos).symm,
    fun hend => (hclean.endpoint_toks hpos hend).symm, fun hwhole => ?_⟩
  rw [hwhole] at hclean hpos ⊢
  exact (hclean.descend_toks hpos).symm

/-! ## The table after an insertion -/

/-- Below the truncated edge there is the new edge only, and what was there before behind it. -/
lemma branch_eq (e : Edge δ) (k : ℕ) : e.branch k = .mk (patternSub e.pattern 0 k)
    (.mk 0 none [.mk (patternSub e.pattern k (patternLen e.pattern)) e.child]) := by
  rcases e with ⟨pattern, ⟨endpoint, data, edgeList⟩⟩
  rfl

lemma branch_child (e : Edge δ) (k : ℕ) : (e.branch k).child.edgeList =
    [.mk (patternSub e.pattern k (patternLen e.pattern)) e.child] := by
  rw [branch_eq]
  rfl

/-- A clean split does not change what the edge spells. -/
lemma branch_spells {e : Edge δ} {a : Pattern} {k : ℕ} (h : CleanCut e.pattern a k) (hpos : 0 < k)
    {w : List (Tok UInt8)} {d : δ} :
    e.Spells w d ↔ ∃ v, w = toks (e.branch k).pattern ++ v ∧ (e.branch k).child.Spells v d := by
  have htoks : toks e.pattern = toks (e.branch k).pattern ++
      toks (patternSub e.pattern k (patternLen e.pattern)) := h.branch_toks hpos
  simp only [Node.Spells, branch_child, List.mem_singleton, exists_eq_left]
  constructor
  · intro hs
    rcases Edge.spells_iff.mp hs with ⟨rfl, hd⟩ | ⟨u, rfl, hu⟩
    · exact ⟨_, htoks, .here hd⟩
    · refine ⟨_, ?_, Edge.spells_iff.mpr (.inr ⟨u, rfl, hu⟩)⟩
      rw [htoks, List.append_assoc]
      rfl
  · rintro ⟨v, rfl, hv⟩
    rcases Edge.spells_iff.mp hv with ⟨rfl, hd⟩ | ⟨u, rfl, hu⟩
    · exact Edge.spells_iff.mpr (.inl ⟨htoks.symm, hd⟩)
    · refine Edge.spells_iff.mpr (.inr ⟨u, ?_, hu⟩)
      rw [htoks, List.append_assoc]
      rfl

/-- An insertion below a node does not touch its data. -/
lemma insertRoute_data {depth : ℕ} {n n' : Node δ} {a : Pattern} {data : Option δ} {ok : Bool}
    (h : n.insertRoute depth a data = some (n', ok)) : n'.data = n.data := by
  cases depth with
  | zero => cases h
  | succ depth =>
      cases insertRoute_inserted h with
      | connected _ _ =>
          rw [Node.connect]
          split <;> rfl
      | _ => rfl

/-- What a connected node adds. -/
lemma connect_spells {n : Node δ} {a : Pattern} {data : Option δ} {w : List (Tok UInt8)} {d : δ}
    (h : (n.connect (.mk 1 data []) a).Spells w d) : n.Spells w d ∨ data = some d ∧ w = toks a := by
  rw [Node.connect] at h
  split at h
  · exact .inl h
  · obtain ⟨e, he, hs⟩ := h
    rcases List.mem_append.mp he with he | he
    · exact .inl ⟨e, he, hs⟩
    · obtain rfl := List.mem_singleton.mp he
      rcases Edge.spells_iff.mp hs with ⟨rfl, hd⟩ | ⟨v, -, e', he', -⟩
      · exact .inr ⟨hd, rfl⟩
      · cases he'

/-- What a replaced edge adds. -/
lemma setEdge_spells {n : Node δ} {i : ℕ} {x : Edge δ} {w : List (Tok UInt8)} {d : δ}
    (h : (n.setEdge i x).Spells w d) : n.Spells w d ∨ x.Spells w d := by
  obtain ⟨y, hy, hs⟩ := h
  rcases Node.mem_setEdge hy with hy | rfl
  · exact .inl ⟨y, hy, hs⟩
  · exact .inr hs

/-- What is spelled below a split was spelled by the edge. -/
lemma branch_rows {R : List (Tok UInt8) → List (Tok UInt8) → Prop} (hR : Congruent R) {e : Edge δ}
    {a : Pattern} {k : ℕ} (h : CutUpTo R e.pattern a k) {v : List (Tok UInt8)} {d : δ}
    (hv : (e.branch k).child.Spells v d) :
    ∃ u, R (toks (e.branch k).pattern ++ v) u ∧ e.Spells u d := by
  simp only [Node.Spells, branch_child, List.mem_singleton, exists_eq_left] at hv
  rcases Edge.spells_iff.mp hv with ⟨rfl, hd⟩ | ⟨u, rfl, hu⟩
  · exact ⟨_, h.edge, .here hd⟩
  · refine ⟨_, ?_, Edge.spells_iff.mpr (.inr ⟨u, rfl, hu⟩)⟩
    rw [← List.append_assoc]
    exact hR.append h.edge (hR.refl u)

/-- **An insertion adds no other row than its own**, up to what its cuts do to the rows. -/
lemma insertRoute_rows {R : List (Tok UInt8) → List (Tok UInt8) → Prop} (hR : Congruent R)
    {depth : ℕ} {n n' : Node δ} {a : Pattern} {data : Option δ} {ok : Bool}
    (h : n.insertRoute depth a data = some (n', ok))
    (hcut : ∀ v ∈ n.visits depth a, CutsUpTo R v.1 v.2) {w : List (Tok UInt8)} {d : δ}
    (hs : n'.Spells w d) :
    (∃ v, R w v ∧ n.Spells v d) ∨ ok = true ∧ data = some d ∧ R w (toks a) := by
  induction depth generalizing n n' a ok w with
  | zero => cases h
  | succ depth ih =>
      cases insertRoute_inserted h with
      | refused => exact .inl ⟨w, hR.refl w, hs⟩
      | connected _ _ =>
          rcases connect_spells hs with hold | ⟨hd, rfl⟩
          · exact .inl ⟨w, hR.refl w, hold⟩
          · exact .inr ⟨rfl, hd, hR.refl _⟩
      | @descended i e child _ sub he hpos hlcp hsub hv hins =>
          rw [hv] at hcut
          obtain ⟨hcut₀, hcut'⟩ := List.forall_mem_cons.mp hcut
          have hmem : e ∈ n.edgeList := List.mem_of_getElem? he
          rcases setEdge_spells hs with hs | hs
          · exact .inl ⟨w, hR.refl w, hs⟩
          rcases Edge.spells_iff.mp hs with ⟨rfl, hd⟩ | ⟨v, rfl, hv⟩
          · rw [show (Edge.mk e.pattern child).child = child from rfl, insertRoute_data hins] at hd
            exact .inl ⟨_, hR.refl _, e, hmem, .here hd⟩
          · rcases ih hins hcut' hv with ⟨u, hu, hold⟩ | ⟨rfl, rfl, hnew⟩
            · exact .inl ⟨_, hR.append (hR.refl _) hu, e, hmem,
                Edge.spells_iff.mpr (.inr ⟨u, rfl, hold⟩)⟩
            · rw [hsub] at hnew
              exact .inr ⟨rfl, rfl, hR.trans (hR.append (hR.refl _) hnew)
                ((hcut₀.cut hlcp he hpos).whole rfl)⟩
      | @endpoint i k e he hpos hlcp hend hv =>
          have hcut₀ := (hcut _ hv).cut hlcp he hpos
          have hmem : e ∈ n.edgeList := List.mem_of_getElem? he
          rcases setEdge_spells hs with hs | hs
          · exact .inl ⟨w, hR.refl w, hs⟩
          rcases Edge.spells_iff.mp hs with ⟨rfl, hd⟩ | ⟨v, rfl, hv⟩
          · exact .inr ⟨rfl, hd, hcut₀.ends hend⟩
          · obtain ⟨u, hu, hold⟩ := branch_rows hR hcut₀ hv
            exact .inl ⟨u, hu, e, hmem, hold⟩
      | @branched i k e child _ sub he hpos hlcp hsub hv hins =>
          rw [hv] at hcut
          obtain ⟨hhere, hcut'⟩ := List.forall_mem_cons.mp hcut
          have hcut₀ := hhere.cut hlcp he hpos
          have hmem : e ∈ n.edgeList := List.mem_of_getElem? he
          rcases setEdge_spells hs with hs | hs
          · exact .inl ⟨w, hR.refl w, hs⟩
          rcases Edge.spells_iff.mp hs with ⟨rfl, hd⟩ | ⟨v, rfl, hv⟩
          · -- the node at the split has no data
            rw [show (Edge.mk (e.branch k).pattern child).child = child from rfl,
              insertRoute_data hins] at hd
            cases hd
          · rcases ih hins hcut' hv with ⟨v', hv', hold⟩ | ⟨rfl, rfl, hnew⟩
            · obtain ⟨u, hu, hold⟩ := branch_rows hR hcut₀ hold
              exact .inl ⟨u, hR.trans (hR.append (hR.refl _) hv') hu, e, hmem, hold⟩
            · rw [hsub] at hnew
              exact .inr ⟨rfl, rfl, hR.trans (hR.append (hR.refl _) hnew) hcut₀.pattern⟩

/-- A replaced edge keeps the rows, if it spells what the old edge did. -/
lemma spells_setEdge {n : Node δ} {i : ℕ} {e x : Edge δ} {w : List (Tok UInt8)} {d : δ}
    (he : n.edgeList[i]? = some e) (hx : e.Spells w d → x.Spells w d) (h : n.Spells w d) :
    (n.setEdge i x).Spells w d := by
  obtain ⟨y, hy, hs⟩ := h
  rcases Node.mem_setEdge_of_mem he hy with rfl | hy
  · exact ⟨x, Node.setEdge_mem he, hx hs⟩
  · exact ⟨y, hy, hs⟩

/-- **An insertion with clean cuts keeps every row.** -/
lemma insertRoute_keeps {depth : ℕ} {n n' : Node δ} {a : Pattern} {data : Option δ} {ok : Bool}
    (h : n.insertRoute depth a data = some (n', ok))
    (hcut : ∀ v ∈ n.visits depth a, CutOk v.1 v.2) {w : List (Tok UInt8)} {d : δ}
    (hs : n.Spells w d) : n'.Spells w d := by
  induction depth generalizing n n' a ok w with
  | zero => cases h
  | succ depth ih =>
      cases insertRoute_inserted h with
      | refused => exact hs
      | connected _ _ =>
          rw [Node.connect]
          split
          · exact hs
          · obtain ⟨e, he, hs⟩ := hs
            exact ⟨e, List.mem_append_left _ he, hs⟩
      | descended he hpos hlcp hsub hv hins =>
          rw [hv] at hcut
          obtain ⟨-, hcut'⟩ := List.forall_mem_cons.mp hcut
          refine spells_setEdge he (fun hs => ?_) hs
          rcases Edge.spells_iff.mp hs with ⟨rfl, hd⟩ | ⟨v, rfl, hv⟩
          · exact .here (by rw [← insertRoute_data hins] at hd; exact hd)
          · exact Edge.spells_iff.mpr (.inr ⟨v, rfl, ih hins hcut' hv⟩)
      | endpoint he hpos hlcp hend hv =>
          have hclean := (hcut _ hv).clean hlcp he hpos
          refine spells_setEdge he (fun hs => ?_) hs
          obtain ⟨v, rfl, hv⟩ := (branch_spells hclean hpos).mp hs
          exact Edge.spells_iff.mpr (.inr ⟨v, rfl, hv⟩)
      | branched he hpos hlcp hsub hv hins =>
          rw [hv] at hcut
          obtain ⟨hcut₀, hcut'⟩ := List.forall_mem_cons.mp hcut
          have hclean := hcut₀.clean hlcp he hpos
          refine spells_setEdge he (fun hs => ?_) hs
          obtain ⟨v, rfl, hv⟩ := (branch_spells hclean hpos).mp hs
          exact Edge.spells_iff.mpr (.inr ⟨v, rfl, ih hins hcut' hv⟩)

/-- **An insertion with clean cuts and no twin adds its own row.** -/
lemma insertRoute_adds {depth : ℕ} {n n' : Node δ} {a : Pattern} {d : δ}
    (h : n.insertRoute depth a (some d) = some (n', true))
    (hcut : ∀ v ∈ n.visits depth a, CutOk v.1 v.2 ∧ NoTwin v.1 v.2) : n'.Spells (toks a) d := by
  induction depth generalizing n n' a with
  | zero => cases h
  | succ depth ih =>
      cases insertRoute_inserted h with
      | connected hv hlcp =>
          have hnone : n.findEdge a = none :=
            Option.isNone_iff_eq_none.mp ((hcut _ hv).2 _ hlcp _ rfl rfl)
          rw [Node.connect, hnone]
          exact ⟨.mk a (.mk 1 (some d) []), List.mem_append_right _ (List.mem_singleton_self _),
            .here rfl⟩
      | @descended i e child _ sub he hpos hlcp hsub hv hins =>
          rw [hv] at hcut
          obtain ⟨hcut₀, hcut'⟩ := List.forall_mem_cons.mp hcut
          have htoks := (hcut₀.1.clean hlcp he hpos).descend_toks hpos
          rw [htoks, ← hsub]
          exact ⟨_, Node.setEdge_mem he, Edge.spells_iff.mpr (.inr ⟨_, rfl, ih hins hcut'⟩)⟩
      | endpoint he hpos hlcp hend hv =>
          rw [((hcut _ hv).1.clean hlcp he hpos).endpoint_toks hpos hend]
          exact ⟨_, Node.setEdge_mem he, .here rfl⟩
      | @branched i k e child _ sub he hpos hlcp hsub hv hins =>
          rw [hv] at hcut
          obtain ⟨hcut₀, hcut'⟩ := List.forall_mem_cons.mp hcut
          rw [(hcut₀.1.clean hlcp he hpos).sub_toks hpos, ← hsub]
          exact ⟨_, Node.setEdge_mem he, Edge.spells_iff.mpr (.inr ⟨_, rfl, ih hins hcut'⟩)⟩

/-- What a replaced edge holds. -/
lemma setEdge_holds {n : Node δ} {i : ℕ} {x : Edge δ} {t : Tok UInt8}
    (h : (n.setEdge i x).Holds t) : n.Holds t ∨ t ∈ toks x.pattern ∨ x.child.Holds t := by
  obtain ⟨y, hy, ht⟩ := h
  rcases Node.mem_setEdge hy with hy | rfl
  · exact .inl ⟨y, hy, ht⟩
  · exact .inr (Edge.holds_iff.mp ht)

/-- What a split edge holds was there before. -/
lemma branch_holds {e : Edge δ} {a : Pattern} {k : ℕ} (h : CleanCut e.pattern a k) (hpos : 0 < k)
    {t : Tok UInt8} (ht : t ∈ toks (e.branch k).pattern ∨ (e.branch k).child.Holds t) :
    e.Holds t := by
  have htoks : toks e.pattern = toks (e.branch k).pattern ++
      toks (patternSub e.pattern k (patternLen e.pattern)) := h.branch_toks hpos
  simp only [Node.Holds, branch_child, List.mem_singleton, exists_eq_left] at ht
  refine Edge.holds_iff.mpr ?_
  rw [htoks, List.mem_append]
  rcases ht with ht | ht
  · exact .inl (.inl ht)
  · rcases Edge.holds_iff.mp ht with ht | ht
    · exact .inl (.inr ht)
    · exact .inr ht

/-- **An insertion with clean cuts brings no token but its own.** -/
lemma insertRoute_holds {depth : ℕ} {n n' : Node δ} {a : Pattern} {data : Option δ} {ok : Bool}
    (h : n.insertRoute depth a data = some (n', ok))
    (hcut : ∀ v ∈ n.visits depth a, CutOk v.1 v.2) {t : Tok UInt8} (ht : n'.Holds t) :
    n.Holds t ∨ t ∈ toks a := by
  induction depth generalizing n n' a ok with
  | zero => cases h
  | succ depth ih =>
      cases insertRoute_inserted h with
      | refused => exact .inl ht
      | connected _ _ =>
          rw [Node.connect] at ht
          split at ht
          · exact .inl ht
          · obtain ⟨e, he, ht⟩ := ht
            rcases List.mem_append.mp he with he | he
            · exact .inl ⟨e, he, ht⟩
            · obtain rfl := List.mem_singleton.mp he
              rcases Edge.holds_iff.mp ht with ht | ⟨e', he', -⟩
              · exact .inr ht
              · cases he'
      | @descended i e child _ sub he hpos hlcp hsub hv hins =>
          rw [hv] at hcut
          obtain ⟨hcut₀, hcut'⟩ := List.forall_mem_cons.mp hcut
          have htoks := (hcut₀.clean hlcp he hpos).descend_toks hpos
          have hmem : e ∈ n.edgeList := List.mem_of_getElem? he
          rcases setEdge_holds ht with ht | ht | ht
          · exact .inl ht
          · exact .inl ⟨e, hmem, .here ht⟩
          · rcases ih hins hcut' ht with ht | ht
            · exact .inl ⟨e, hmem, Edge.holds_iff.mpr (.inr ht)⟩
            · exact .inr (by rw [htoks, ← hsub]; exact List.mem_append_right _ ht)
      | @endpoint i k e he hpos hlcp hend hv =>
          have hclean := (hcut _ hv).clean hlcp he hpos
          rcases setEdge_holds ht with ht | ht
          · exact .inl ht
          · exact .inl ⟨e, List.mem_of_getElem? he, branch_holds hclean hpos ht⟩
      | @branched i k e child _ sub he hpos hlcp hsub hv hins =>
          rw [hv] at hcut
          obtain ⟨hcut₀, hcut'⟩ := List.forall_mem_cons.mp hcut
          have hclean := hcut₀.clean hlcp he hpos
          have hmem : e ∈ n.edgeList := List.mem_of_getElem? he
          rcases setEdge_holds ht with ht | ht | ht
          · exact .inl ht
          · exact .inl ⟨e, hmem, branch_holds hclean hpos (.inl ht)⟩
          · rcases ih hins hcut' ht with ht | ht
            · exact .inl ⟨e, hmem, branch_holds hclean hpos (.inr ht)⟩
            · exact .inr (by rw [hclean.sub_toks hpos, ← hsub]; exact List.mem_append_right _ ht)

end UrlRouter

end Is2
