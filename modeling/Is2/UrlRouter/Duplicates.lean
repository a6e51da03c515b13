import Mathlib.Data.List.Nodup
import Is2.UrlRouter.Bindings
import Is2.UrlRouter.Rejected

/-!
# Which routes are rejected?

`add_route` should reject a malformed route and a route whose pattern was added before, and no
other.  Whether it does depends on `find_longest_common_prefix`, which finds the edge with the
longest prefix and reports the length of the last one.

* Where the last edge has no prefix, a second edge with the same first token is made, and what
  stands behind the first one is not found again: a duplicate is accepted.
* A literal and a parameter with the same text are an error, which rejects a new route.
* A pattern that ends where an edge was split is taken for a duplicate, though the node there has no
  data.

`PrefixOk` says of a node and a pattern that none of this happens.  In runs that meet it at every
node the edges of a node begin with different tokens (`Node.Forked`), so a row of the trie is found
again, and `add_route` rejects exactly the duplicates (`rejects_exactly`).  What it rejects then
depends on the set of added routes only, not on their order.
-/

namespace Is2

namespace UrlRouter

variable {δ : Type}

/-! ## Patterns and their tokens -/

/-- Strings are not empty, and no two of them stand side by side. -/
def Normal : Pattern → Prop
  | [] => True
  | .string str :: xs => str ≠ [] ∧ (∀ y ∈ xs.head?, y.type ≠ .string) ∧ Normal xs
  | _ :: xs => Normal xs

/-- What is converted is normal. -/
lemma convertFrom_normal {prev : UInt8} {cs : Str} {part : Part} {pattern : Pattern}
    (h : convertFrom prev cs part = some pattern) (hpart : part.type ≠ .terminal)
    (hstr : part = .string [] → prev ≠ slash ∧ (cs = [] ∨ cs.head? = some slash)) :
    Normal pattern ∧ ∀ y ∈ pattern.head?, y.type = part.type := by
  induction cs generalizing prev part pattern with
  | nil =>
      rw [convertFrom] at h
      split_ifs at h with hparam hnil
      · obtain rfl := Option.some.inj h
        exact ⟨trivial, by simp⟩
      · obtain rfl := Option.some.inj h
        refine ⟨?_, by simp⟩
        cases part with
        | string str => exact ⟨hnil, by simp, trivial⟩
        | parameter str => exact absurd rfl hparam
        | terminal => exact absurd rfl hpart
  | cons c cs ih =>
      rw [convertFrom] at h
      by_cases hlt : c = 60
      · rw [if_pos hlt] at h
        split_ifs at h with hbad
        rw [not_or, not_not] at hbad
        obtain ⟨xs, hxs, rfl⟩ := Option.map_eq_some_iff.mp h
        obtain ⟨hn, hhead⟩ := ih hxs (by simp [Part.type]) (by simp)
        refine ⟨?_, by simp⟩
        cases part with
        | string str =>
            refine ⟨?_, fun y hy => by rw [hhead y hy]; simp [Part.type], hn⟩
            rintro rfl
            exact (hstr rfl).1 hbad.2
        | parameter str => exact hn
        | terminal => exact absurd rfl hpart
      rw [if_neg hlt] at h
      by_cases hgt : c = 62
      · rw [if_pos hgt] at h
        split_ifs at h with hbad
        rw [not_or, not_not] at hbad
        obtain ⟨xs, hxs, rfl⟩ := Option.map_eq_some_iff.mp h
        have hnext : cs = [] ∨ cs.head? = some slash := by
          by_contra hne
          exact hbad.2 (not_or.mp hne)
        obtain ⟨hn, -⟩ := ih hxs (by simp [Part.type]) fun _ => ⟨by rw [hgt]; decide, hnext⟩
        refine ⟨?_, by simp⟩
        cases part with
        | string str => exact absurd hbad.1 (by simp [Part.type])
        | parameter str => exact hn
        | terminal => exact absurd rfl hpart
      rw [if_neg hgt] at h
      by_cases hstar : c = 42
      · rw [if_pos hstar] at h
        obtain rfl := Option.some.inj h
        refine ⟨?_, by simp⟩
        cases part with
        | string str =>
            refine ⟨?_, by simp [Part.type], trivial⟩
            rintro rfl
            subst hstar
            rcases (hstr rfl).2 with hnil | hhead
            · cases hnil
            · exact absurd (Option.some.inj hhead) (by decide)
        | parameter str => trivial
        | terminal => exact absurd rfl hpart
      rw [if_neg hstar] at h
      have hnew : (part.withStr (part.str ++ [c])).type = part.type := by
        cases part <;> rfl
      rw [← hnew] at hpart ⊢
      refine ih h hpart fun hnil => ?_
      cases part with
      | string str => simp [Part.withStr] at hnil
      | parameter str => cases hnil
      | terminal => cases hnil

lemma normal_convert {route : Str} {pattern : Pattern}
    (h : convertPathToPattern route = some pattern) : Normal pattern := by
  obtain ⟨cs, hcs⟩ := sanitizePath_cons route
  rw [convertPathToPattern, hcs] at h
  exact (convertFrom_normal h (by simp [Part.type]) fun _ => ⟨by decide, .inr rfl⟩).1

lemma lits_append_inj {s t : Str} {us vs : List (Tok UInt8)}
    (h : s.map .lit ++ us = t.map .lit ++ vs) (hu : ∀ c, us.head? ≠ some (.lit c))
    (hv : ∀ c, vs.head? ≠ some (.lit c)) : s = t ∧ us = vs := by
  induction s generalizing t with
  | nil =>
      cases t with
      | nil => exact ⟨rfl, h⟩
      | cons c t =>
          rw [List.map_nil, List.nil_append] at h
          exact absurd (by rw [h]; rfl) (hu c)
  | cons b s ih =>
      cases t with
      | nil =>
          rw [List.map_nil, List.nil_append] at h
          exact absurd (by rw [← h]; rfl) (hv b)
      | cons c t =>
          simp only [List.map_cons, List.cons_append, List.cons.injEq, Tok.lit.injEq] at h
          obtain ⟨rfl, h⟩ := h
          obtain ⟨rfl, rfl⟩ := ih h
          exact ⟨rfl, rfl⟩

/-- Behind a string there is no literal. -/
lemma head_ne_lit {xs : Pattern} (h : ∀ y ∈ xs.head?, y.type ≠ .string) (c : UInt8) :
    (toks xs).head? ≠ some (.lit c) := by
  cases xs with
  | nil => exact nofun
  | cons x xs =>
      cases x with
      | string str => exact absurd rfl (h _ rfl)
      | parameter str => simp [Part.toks]
      | terminal => simp [Part.toks]

/-- **A normal pattern is its tokens.** -/
lemma toks_inj {a b : Pattern} (ha : Normal a) (hb : Normal b) (h : toks a = toks b) : a = b := by
  have hcons : ∀ {str : Str} {xs : Pattern}, Normal (.string str :: xs) →
      ∃ c ts, toks (.string str :: xs) = .lit c :: ts := by
    rintro (_ | ⟨c, str⟩) xs hn
    · exact absurd rfl hn.1
    · exact ⟨c, _, by rw [toks_cons, Part.toks, List.map_cons, List.cons_append]⟩
  induction a generalizing b with
  | nil =>
      cases b with
      | nil => rfl
      | cons y ys =>
          cases y with
          | string str =>
              obtain ⟨c, ts, hts⟩ := hcons hb
              rw [hts] at h
              cases h
          | parameter str => simp [Part.toks] at h
          | terminal => simp [Part.toks] at h
  | cons x xs ih =>
      cases x with
      | string str =>
          obtain ⟨c, ts, hts⟩ := hcons ha
          cases b with
          | nil =>
              rw [hts] at h
              cases h
          | cons y ys =>
              cases y with
              | string str' =>
                  rw [toks_cons, toks_cons] at h
                  obtain ⟨rfl, hxs⟩ := lits_append_inj h (head_ne_lit ha.2.1) (head_ne_lit hb.2.1)
                  rw [ih ha.2.2 hb.2.2 hxs]
              | parameter str' =>
                  rw [hts] at h
                  simp [Part.toks] at h
              | terminal =>
                  rw [hts] at h
                  simp [Part.toks] at h
      | parameter str =>
          cases b with
          | nil => simp [Part.toks] at h
          | cons y ys =>
              cases y with
              | string str' =>
                  obtain ⟨c, ts, hts⟩ := hcons hb
                  rw [hts] at h
                  simp [Part.toks] at h
              | parameter str' =>
                  simp only [toks_cons, Part.toks, List.singleton_append, List.cons.injEq,
                    Tok.run.injEq] at h
                  rw [h.1, ih (b := ys) ha hb h.2]
              | terminal => simp [Part.toks] at h
      | terminal =>
          cases b with
          | nil => simp [Part.toks] at h
          | cons y ys =>
              cases y with
              | string str' =>
                  obtain ⟨c, ts, hts⟩ := hcons hb
                  rw [hts] at h
                  simp [Part.toks] at h
              | parameter str' => simp [Part.toks] at h
              | terminal =>
                  simp only [toks_cons, Part.toks, List.singleton_append, List.cons.injEq,
                    true_and] at h
                  rw [ih (b := ys) ha hb h]

/-! ## Prefixes that are right -/

/-- The first token of a pattern. -/
def first (a : Pattern) : Option (Tok UInt8) := (toks a).head?

/-- **A full cut** is clean, and behind it the edge and the pattern go on with different tokens. -/
def FullCut (e a : Pattern) (n : ℕ) : Prop :=
  ∃ c ∈ cutAt width (toks e) n, ∃ c' ∈ cutAt width (toks a) n,
    c.1 = c'.1 ∧ Tok.rest ∉ c.1 ∧ Lettered c.2 ∧ Lettered c'.2 ∧
      (c.2.head? = c'.2.head? → c.2 = [])

instance (e a : Pattern) (n : ℕ) : Decidable (FullCut e a n) :=
  inferInstanceAs (Decidable (∃ c ∈ cutAt width (toks e) n, ∃ c' ∈ cutAt width (toks a) n,
    c.1 = c'.1 ∧ Tok.rest ∉ c.1 ∧ Lettered c.2 ∧ Lettered c'.2 ∧
      (c.2.head? = c'.2.head? → c.2 = [])))

lemma FullCut.clean {e a : Pattern} {n : ℕ} (h : FullCut e a n) : CleanCut e a n := by
  obtain ⟨c, hc, c', hc', heq, hrest, hl, hl', -⟩ := h
  exact ⟨c, hc, c', hc', heq, hrest, hl, hl'⟩

lemma FullCut.split {e a : Pattern} {n : ℕ} (h : FullCut e a n) : ∃ l re ra, toks e = l ++ re ∧
    toks a = l ++ ra ∧ weight width l = n ∧ (re.head? = ra.head? → re = []) := by
  obtain ⟨⟨l, re⟩, he, ⟨l', ra⟩, ha, hl, -, -, -, hend⟩ := h
  obtain rfl : l = l' := hl
  obtain ⟨hsplit, hw⟩ := cutAt_some he
  exact ⟨l, re, ra, hsplit, (cutAt_some ha).1, hw, hend⟩

/-- The prefix is right: if it is empty then no edge begins as the pattern does, and if not then it
is a full cut of its edge; and where the pattern ends with the edge, the node has data. -/
def RightPrefix (n : Node δ) (a : Pattern) (q : ℕ × Option ℕ) : Prop :=
  (q.1 = 0 → ∀ e ∈ n.edgeList, first e.pattern ≠ first a) ∧
    (0 < q.1 → ∀ i ∈ q.2, ∀ e ∈ n.edgeList[i]?, FullCut e.pattern a q.1 ∧
      (toks e.pattern = toks a → e.child.data.isSome))

instance (n : Node δ) (a : Pattern) (q : ℕ × Option ℕ) : Decidable (RightPrefix n a q) :=
  inferInstanceAs (Decidable ((q.1 = 0 → ∀ e ∈ n.edgeList, first e.pattern ≠ first a) ∧
    (0 < q.1 → ∀ i ∈ q.2, ∀ e ∈ n.edgeList[i]?, FullCut e.pattern a q.1 ∧
      (toks e.pattern = toks a → e.child.data.isSome))))

/-- **`find_longest_common_prefix` finds a prefix here, and it is right.** -/
def PrefixOk (n : Node δ) (a : Pattern) : Prop :=
  ∃ r ∈ n.findLongestCommonPrefix a, ∃ q ∈ r, RightPrefix n a q

instance (n : Node δ) (a : Pattern) : Decidable (PrefixOk n a) :=
  inferInstanceAs (Decidable (∃ r ∈ n.findLongestCommonPrefix a, ∃ q ∈ r, RightPrefix n a q))

section PrefixOk

variable {n : Node δ} {a : Pattern}

lemma PrefixOk.found (h : PrefixOk n a) :
    ∃ k common, n.findLongestCommonPrefix a = some (some (k, common)) := by
  obtain ⟨r, hr, q, hq, -⟩ := h
  obtain rfl : r = some q := hq
  exact ⟨q.1, q.2, hr⟩

lemma PrefixOk.fresh (h : PrefixOk n a) {common : Option ℕ}
    (hlcp : n.findLongestCommonPrefix a = some (some (0, common))) :
    ∀ e ∈ n.edgeList, first e.pattern ≠ first a := by
  obtain ⟨r, hr, q, hq, h0, -⟩ := h
  obtain rfl := Option.some.inj (hr.symm.trans hlcp)
  obtain rfl := Option.some.inj hq
  exact h0 rfl

lemma PrefixOk.cut (h : PrefixOk n a) {k i : ℕ} {e : Edge δ}
    (hlcp : n.findLongestCommonPrefix a = some (some (k, some i))) (hk : 0 < k)
    (he : n.edgeList[i]? = some e) :
    FullCut e.pattern a k ∧ (toks e.pattern = toks a → e.child.data.isSome) := by
  obtain ⟨r, hr, q, hq, -, hpos⟩ := h
  obtain rfl := Option.some.inj (hr.symm.trans hlcp)
  obtain rfl := Option.some.inj hq
  exact hpos hk i rfl e he

lemma PrefixOk.cutOk (h : PrefixOk n a) : CutOk n a := by
  rintro r hr ⟨k, common⟩ hq hk i hi e he
  obtain rfl : r = some (k, common) := hq
  obtain rfl : common = some i := hi
  exact (h.cut hr hk he).1.clean

lemma PrefixOk.noTwin (h : PrefixOk n a) : NoTwin n a := by
  rintro r hr ⟨k, common⟩ hq hk
  obtain rfl : r = some (k, common) := hq
  obtain rfl : k = 0 := hk
  refine Option.isNone_iff_eq_none.mpr (List.find?_eq_none.mpr fun e he hpat => ?_)
  refine h.fresh hr e he ?_
  rw [of_decide_eq_true hpat]

end PrefixOk

/-- The nodes that `collision_test` and `insert_route` come to, with the pattern left at each. -/
def Node.walk : ℕ → Node δ → Pattern → List (Visit δ)
  | 0, _, _ => []
  | depth + 1, n, a =>
    (n, a) :: ((n.nextVisit a).map fun v => v.1.walk depth v.2).getD []

lemma mem_walk_of_next {depth : ℕ} {n : Node δ} {a : Pattern} {u v : Visit δ}
    (hnext : n.nextVisit a = some u) (h : v ∈ u.1.walk depth u.2) : v ∈ n.walk (depth + 1) a := by
  rw [Node.walk, hnext]
  exact List.mem_cons_of_mem _ h

lemma mem_walk_of_mem_visits {depth : ℕ} {n : Node δ} {a : Pattern} {v : Visit δ}
    (h : v ∈ n.visits depth a) : v ∈ n.walk depth a := by
  induction depth generalizing n a with
  | zero => cases h
  | succ depth ih =>
      rw [Node.visits] at h
      split_ifs at h
      · rcases List.mem_cons.mp h with rfl | h
        · exact List.mem_cons_self
        · cases hnext : n.nextVisit a with
          | none =>
              rw [hnext] at h
              cases h
          | some u =>
              rw [hnext] at h
              exact mem_walk_of_next hnext (ih h)
      · cases h

/-! ## Forks -/

/-- **Below every node the edges begin with different tokens.** -/
inductive Node.Forked : Node δ → Prop where
  | mk {n : Node δ} (hfirst : (n.edgeList.map fun e => first e.pattern).Nodup)
      (hne : ∀ e ∈ n.edgeList, toks e.pattern ≠ []) (hsub : ∀ e ∈ n.edgeList, e.child.Forked) :
      n.Forked

lemma forked_new : (Node.new : Node δ).Forked := ⟨List.nodup_nil, nofun, nofun⟩

/-- A replaced edge that begins as the old one. -/
lemma Node.Forked.setEdge {n : Node δ} {i : ℕ} {e x : Edge δ} (h : n.Forked)
    (he : n.edgeList[i]? = some e) (hfirst : first x.pattern = first e.pattern)
    (hne : toks x.pattern ≠ []) (hsub : x.child.Forked) : (n.setEdge i x).Forked := by
  obtain ⟨hf, hn, hs⟩ := h
  have hmap : (n.edgeList.set i x).map (fun e => first e.pattern) =
      n.edgeList.map fun e => first e.pattern := by
    refine List.ext_getElem? fun j => ?_
    rw [List.getElem?_map, List.getElem?_map, List.getElem?_set]
    by_cases hij : i = j
    · subst hij
      obtain ⟨hi, -⟩ := List.getElem?_eq_some_iff.mp he
      rw [if_pos rfl, if_pos hi, he, Option.map_some, Option.map_some, hfirst]
    · rw [if_neg hij]
  refine ⟨?_, fun y hy => ?_, fun y hy => ?_⟩
  · change ((n.edgeList.set i x).map _).Nodup
    rw [hmap]
    exact hf
  · rcases Node.mem_setEdge hy with hy | rfl
    · exact hn y hy
    · exact hne
  · rcases Node.mem_setEdge hy with hy | rfl
    · exact hs y hy
    · exact hsub

lemma toks_ne_nil_of_len {a : Pattern} (h : patternLen a ≠ 0) : toks a ≠ [] := by
  intro hnil
  rw [patternLen_eq, hnil] at h
  exact h rfl

/-- Both halves of a full cut of an edge have a token, and the front begins as the edge does. -/
lemma FullCut.branch {e a : Pattern} {k : ℕ} (h : FullCut e a k) (hk : 0 < k)
    (hlt : k < patternLen e) : first (patternSub e 0 k) = first e ∧
      toks (patternSub e 0 k) ≠ [] ∧ toks (patternSub e k (patternLen e)) ≠ [] := by
  have htoks := h.clean.branch_toks hk
  obtain ⟨l, re, ra, he, ha, hw, hrest, hre, hra⟩ := h.clean.split
  have hfront : toks (patternSub e 0 k) = l := patternSub_front he hw hk hrest
  rw [hfront] at htoks ⊢
  have hl : l ≠ [] := by
    rintro rfl
    rw [weight_nil] at hw
    omega
  refine ⟨?_, hl, fun hnil => ?_⟩
  · rw [first, first, hfront, he, List.head?_append_of_ne_nil _ hl]
  · rw [hnil, List.append_nil] at htoks
    rw [patternLen_eq, htoks] at hlt
    omega

/-- The new node of a split has one edge. -/
lemma forked_branch {e : Edge δ} {k : ℕ} {endpoint : ℕ} {data : Option δ}
    (hback : toks (patternSub e.pattern k (patternLen e.pattern)) ≠ []) (hs : e.child.Forked) :
    (Node.mk endpoint data (e.branch k).child.edgeList).Forked := by
  refine ⟨?_, fun y hy => ?_, fun y hy => ?_⟩
  · change ((e.branch k).child.edgeList.map _).Nodup
    rw [branch_child]
    exact List.nodup_singleton _
  · rw [branch_child] at hy
    obtain rfl := List.mem_singleton.mp hy
    exact hback
  · rw [branch_child] at hy
    obtain rfl := List.mem_singleton.mp hy
    exact hs

/-- **An insertion with right prefixes keeps the forks.** -/
lemma insertRoute_forked {depth : ℕ} {n n' : Node δ} {a : Pattern} {data : Option δ} {ok : Bool}
    (h : n.insertRoute depth a data = some (n', ok)) (hn : n.Forked) (ha : toks a ≠ [])
    (hok : ∀ v ∈ n.visits depth a, PrefixOk v.1 v.2) : n'.Forked := by
  induction depth generalizing n n' a ok with
  | zero => cases h
  | succ depth ih =>
      cases insertRoute_inserted h with
      | refused => exact hn
      | connected hv hlcp =>
          have hfresh := (hok _ hv).fresh hlcp
          rw [Node.connect]
          split
          · exact hn
          · obtain ⟨hf, hne, hs⟩ := hn
            refine ⟨?_, fun y hy => ?_, fun y hy => ?_⟩
            · simp only [Node.edgeList, List.map_append, List.map_cons, List.map_nil]
              refine List.nodup_append.mpr ⟨hf, List.nodup_singleton _, ?_⟩
              rintro t ht t' ht'
              obtain ⟨e, he, rfl⟩ := List.mem_map.mp ht
              obtain rfl := List.mem_singleton.mp ht'
              exact hfresh e he
            · rcases List.mem_append.mp hy with hy | hy
              · exact hne y hy
              · obtain rfl := List.mem_singleton.mp hy
                exact ha
            · rcases List.mem_append.mp hy with hy | hy
              · exact hs y hy
              · obtain rfl := List.mem_singleton.mp hy
                exact ⟨List.nodup_nil, by simp [Edge.child, Node.edgeList],
                  by simp [Edge.child, Node.edgeList]⟩
      | @descended i e child _ sub he hpos hlcp hsub hv hins hnext hsubne =>
          rw [hv] at hok
          have hmem := List.mem_of_getElem? he
          obtain ⟨hf, hne, hs⟩ := id hn
          exact hn.setEdge he rfl (hne e hmem) (ih hins (hs e hmem) (toks_ne_nil_of_len hsubne)
            (List.forall_mem_cons.mp hok).2)
      | @endpoint i k e he hpos hlcp hend hv hlt =>
          obtain ⟨hfirst, hfront, hback⟩ := ((hok _ hv).cut hlcp hpos he).1.branch hpos hlt
          refine hn.setEdge he hfirst hfront ?_
          obtain ⟨-, -, hs⟩ := hn
          exact forked_branch hback (hs e (List.mem_of_getElem? he))
      | @branched i k e child _ sub he hpos hlcp hsub hv hins hnext hlt hleft =>
          rw [hv] at hok
          obtain ⟨hok₀, hok'⟩ := List.forall_mem_cons.mp hok
          have hcut := (hok₀.cut hlcp hpos he).1
          obtain ⟨hfirst, hfront, hback⟩ := hcut.branch hpos hlt
          refine hn.setEdge he hfirst hfront (ih hins ?_ ?_ hok')
          · obtain ⟨-, -, hs⟩ := hn
            exact forked_branch hback (hs e (List.mem_of_getElem? he))
          · -- something of the pattern is left behind the cut
            intro hnil
            have htoks := hcut.clean.sub_toks hpos
            rw [← hsub, hnil, List.append_nil] at htoks
            obtain ⟨l, re, ra, hle, hla, hw, hrest, -, -⟩ := hcut.clean.split
            rw [patternSub_front hle hw hpos hrest] at htoks
            rw [patternLen_eq, htoks] at hleft
            omega

/-! ## Refused patterns -/

/-- A pattern that the collision test refuses is a row of the trie. -/
lemma spells_of_collision {depth : ℕ} {n : Node δ} {a : Pattern}
    (h : n.collisionTest depth a = some false) (hok : ∀ v ∈ n.walk depth a, PrefixOk v.1 v.2) :
    ∃ d, n.Spells (toks a) d := by
  induction depth generalizing n a with
  | zero => cases h
  | succ depth ih =>
      have hok₀ : PrefixOk n a := hok _ List.mem_cons_self
      obtain ⟨k, common, hlcp⟩ := hok₀.found
      rw [Node.collisionTest, hlcp] at h
      simp only [Option.bind_eq_bind, Option.bind_some] at h
      by_cases hk : k = 0
      · rw [if_pos hk] at h
        cases h
      rw [if_neg hk] at h
      have hpos : 0 < k := Nat.pos_of_ne_zero hk
      cases common with
      | none => cases h
      | some i =>
      obtain ⟨j, hj, h⟩ := Option.bind_eq_some_iff.mp h
      cases hj
      obtain ⟨e, he, h⟩ := Option.bind_eq_some_iff.mp h
      obtain ⟨hcut, hdata⟩ := hok₀.cut hlcp hpos he
      have hmem := List.mem_of_getElem? he
      split_ifs at h with hfull hsub
      · subst hfull
        have htoks := hcut.clean.descend_toks hpos
        rw [eq_nil_of_weight ((patternLen_eq _).symm.trans hsub), List.append_nil] at htoks
        obtain ⟨d, hd⟩ := Option.isSome_iff_exists.mp (hdata htoks.symm)
        exact ⟨d, e, hmem, htoks ▸ .here hd⟩
      · subst hfull
        have hnext : n.nextVisit a = some (e.child,
            patternSub a (patternLen e.pattern) (patternLen a - patternLen e.pattern)) := by
          simp [Node.nextVisit, hlcp, he, hk, hsub]
        obtain ⟨d, hd⟩ := ih h fun v hv => hok v (mem_walk_of_next hnext hv)
        refine ⟨d, e, hmem, ?_⟩
        rw [hcut.clean.descend_toks hpos]
        exact Edge.spells_iff.mpr (.inr ⟨_, rfl, hd⟩)
      · cases h

/-- **A pattern that is not inserted is a row of the trie.** -/
lemma spells_of_not_inserted {depth : ℕ} {n n' : Node δ} {a : Pattern} {data : Option δ}
    (h : n.insertRoute depth a data = some (n', false))
    (hok : ∀ v ∈ n.walk depth a, PrefixOk v.1 v.2) : ∃ d, n.Spells (toks a) d := by
  induction depth generalizing n n' a with
  | zero => cases h
  | succ depth ih =>
      obtain ⟨free, hfree, -⟩ := Option.bind_eq_some_iff.mp h
      cases free with
      | false => exact spells_of_collision hfree hok
      | true =>
          have hsplit := insertRoute_split h hfree
          have hok₀ : PrefixOk n a := hok _ List.mem_cons_self
          cases insertRoute_inserted h with
          | refused => exact absurd hsplit (lt_irrefl _)
          | @descended i e child _ sub he hpos hlcp hsub hv hins hnext hne =>
              obtain ⟨d, hd⟩ := ih hins fun v hv => hok v (mem_walk_of_next hnext hv)
              refine ⟨d, e, List.mem_of_getElem? he, ?_⟩
              rw [(hok₀.cut hlcp hpos he).1.clean.descend_toks hpos, ← hsub]
              exact Edge.spells_iff.mpr (.inr ⟨_, rfl, hd⟩)
          | @branched i k e child _ sub he hpos hlcp hsub hv hins hnext hlt hleft =>
              obtain ⟨d, hd⟩ := ih hins fun v hv => hok v (mem_walk_of_next hnext hv)
              have hclean := (hok₀.cut hlcp hpos he).1.clean
              refine ⟨d, e, List.mem_of_getElem? he, (branch_spells hclean hpos).mpr ⟨_, ?_, hd⟩⟩
              rw [hclean.sub_toks hpos, ← hsub]
              rfl

/-- **A row of the trie is refused by the collision test**, where the edges fork. -/
lemma collision_of_spells {depth : ℕ} {n : Node δ} {a : Pattern} {d : δ} {free : Bool}
    (hn : n.Forked) (hs : n.Spells (toks a) d) (h : n.collisionTest depth a = some free)
    (hok : ∀ v ∈ n.walk depth a, PrefixOk v.1 v.2) : free = false := by
  induction depth generalizing n a with
  | zero => cases h
  | succ depth ih =>
      have hok₀ : PrefixOk n a := hok _ List.mem_cons_self
      obtain ⟨k, common, hlcp⟩ := hok₀.found
      obtain ⟨e₀, hmem₀, hs⟩ := hs
      obtain ⟨hf, hne, hsub⟩ := hn
      -- the row begins with the tokens of one edge
      obtain ⟨us, hus⟩ : ∃ us, toks a = toks e₀.pattern ++ us := by
        rcases Edge.spells_iff.mp hs with ⟨heq, -⟩ | ⟨v, heq, -⟩
        · exact ⟨[], by rw [heq, List.append_nil]⟩
        · exact ⟨v, heq⟩
      have hfirst₀ : first a = first e₀.pattern := by
        rw [first, first, hus, List.head?_append_of_ne_nil _ (hne e₀ hmem₀)]
      rw [Node.collisionTest, hlcp] at h
      simp only [Option.bind_eq_bind, Option.bind_some] at h
      by_cases hk : k = 0
      · subst hk
        exact absurd hfirst₀.symm (hok₀.fresh hlcp e₀ hmem₀)
      rw [if_neg hk] at h
      have hpos : 0 < k := Nat.pos_of_ne_zero hk
      cases common with
      | none => cases h
      | some i =>
      obtain ⟨j, hj, h⟩ := Option.bind_eq_some_iff.mp h
      cases hj
      obtain ⟨e, he, h⟩ := Option.bind_eq_some_iff.mp h
      obtain ⟨hcut, -⟩ := hok₀.cut hlcp hpos he
      have hmem := List.mem_of_getElem? he
      obtain ⟨l, re, ra, hle, hla, hw, hend⟩ := hcut.split
      have hl : l ≠ [] := by
        rintro rfl
        rw [weight_nil] at hw
        omega
      -- it is the edge that is found
      obtain rfl : e₀ = e := by
        refine List.inj_on_of_nodup_map hf hmem₀ hmem ?_
        rw [← hfirst₀, first, first, hla, hle, List.head?_append_of_ne_nil _ hl,
          List.head?_append_of_ne_nil _ hl]
      obtain rfl : re = [] := by
        rw [hla, hle, List.append_assoc] at hus
        have hra := List.append_cancel_left hus
        by_contra hre
        exact hre (hend (by rw [hra, List.head?_append_of_ne_nil _ hre]))
      rw [List.append_nil] at hle
      have hfull : k = patternLen e₀.pattern := by rw [patternLen_eq, hle, hw]
      subst hfull
      have htoks := hcut.clean.descend_toks hpos
      rw [if_pos rfl] at h
      split_ifs at h with hlen
      · exact (Option.some.inj h).symm
      · have hnext : n.nextVisit a = some (e₀.child,
            patternSub a (patternLen e₀.pattern) (patternLen a - patternLen e₀.pattern)) := by
          simp [Node.nextVisit, hlcp, he, hk, hlen]
        refine ih (hsub e₀ hmem₀) ?_ h fun v hv => hok v (mem_walk_of_next hnext hv)
        rcases Edge.spells_iff.mp hs with ⟨heq, -⟩ | ⟨v, heq, hv⟩
        · rw [heq] at htoks
          have hnil := List.self_eq_append_right.mp htoks
          exact absurd hnil (toks_ne_nil_of_len hlen)
        · rw [heq] at htoks
          rw [← List.append_cancel_left htoks]
          exact hv

/-! ## The law -/

/-- **Every prefix is right**: the route is short enough for 32 bit counts, and at each node that
the call comes to, `find_longest_common_prefix` finds the longest prefix and its length. -/
def PrefixesOk (s : Routes δ) (c : AddCall δ) : Prop :=
  c.route.length + 1 < 2 ^ 31 ∧ ∀ pattern ∈ convertPathToPattern c.route,
    ∀ v ∈ s.root.walk c.depth pattern, PrefixOk v.1 v.2

instance (s : Routes δ) (c : AddCall δ) : Decidable (PrefixesOk s c) :=
  inferInstanceAs (Decidable (_ ∧ ∀ pattern ∈ convertPathToPattern c.route,
    ∀ v ∈ s.root.walk c.depth pattern, PrefixOk v.1 v.2))

/-- The rows of the trie are the routes that were added, and it forks below every node. -/
structure Routes.Exact (s : Routes δ) : Prop where
  sound : s.Sound
  rows : s.Rows
  forked : s.root.Forked

lemma Routes.Exact.next {s t : Routes δ} {c : AddCall δ} (hs : s.Exact) (hok : PrefixesOk s c)
    (h : Routes.next s c = some t) : t.Exact := by
  have hvisits : ∀ pattern ∈ convertPathToPattern c.route, ∀ v ∈ s.root.visits c.depth pattern,
      PrefixOk v.1 v.2 :=
    fun pattern hp v hv => hok.2 pattern hp v (mem_walk_of_mem_visits hv)
  refine ⟨hs.sound.next ⟨hok.1, fun pattern hp v hv => (hvisits pattern hp v hv).cutOk⟩ h,
    hs.rows.next (fun pattern hp v hv =>
      ⟨(hvisits pattern hp v hv).cutOk, (hvisits pattern hp v hv).noTwin⟩) h, ?_⟩
  rcases Routes.next_cases h with rfl | ⟨pattern, n, ok, hpattern, hins, rfl⟩
  · exact hs.forked
  · refine insertRoute_forked hins hs.forked ?_ (hvisits pattern hpattern)
    have hroot := rooted_convert hpattern
    match pattern, hroot with
    | .string (c :: str) :: xs, _ => simp [Part.toks]

lemma Routes.exact_of_run {s : Routes δ}
    (hs : ((Routes.machine δ).guarded PrefixesOk).Reachable s) : s.Exact := by
  refine Machine.Reachable.invariant (P := Routes.Exact) ?_ ?_ hs
  · rintro s rfl
    exact ⟨Routes.within_start, nofun, forked_new⟩
  · rintro s c t hs ⟨hok, hst⟩
    exact hs.next hok hst

/-- The route is malformed, or one with its pattern was added. -/
def Rejectable (added : List (Str × δ)) (route : Str) : Prop :=
  convertPathToPattern route = none ∨
    ∃ x ∈ added, convertPathToPattern x.1 = convertPathToPattern route

instance (added : List (Str × δ)) (route : Str) : Decidable (Rejectable added route) :=
  inferInstanceAs (Decidable (convertPathToPattern route = none ∨
    ∃ x ∈ added, convertPathToPattern x.1 = convertPathToPattern route))

/-- What the call returns. -/
lemma status_iff {s : Routes δ} (hs : s.Exact) {c : AddCall δ} (hok : PrefixesOk s c)
    {root' : Option (Node δ)} {status : ℤ}
    (h : addRoute c.depth s.rootNode c.route (some c.data) = some (root', status)) :
    status = (if Rejectable s.added c.route then -1 else 0) := by
  rw [addRoute] at h
  split at h
  · next hnone =>
      rw [if_pos (.inl hnone)]
      exact (Prod.mk.inj (Option.some.inj h)).2.symm
  · next pattern hpattern =>
      obtain ⟨⟨n, ok⟩, hins, h⟩ := Option.bind_eq_some_iff.mp h
      obtain ⟨-, rfl⟩ := Prod.mk.inj (Option.some.inj h)
      have hwalk := hok.2 pattern hpattern
      cases ok with
      | false =>
          -- a pattern that is not inserted is a row, and rows were added
          obtain ⟨d, hd⟩ := spells_of_not_inserted hins hwalk
          obtain ⟨x, hx, -, pattern', hpattern', htoks⟩ := hs.sound _ _ hd
          obtain rfl := toks_inj (normal_convert hpattern) (normal_convert hpattern') htoks
          have hrej : Rejectable s.added c.route := .inr ⟨x, hx, hpattern'.trans hpattern.symm⟩
          rw [if_pos hrej]
          rfl
      | true =>
          have hnew : ¬ Rejectable s.added c.route := by
            rintro (hnone | ⟨x, hx, heq⟩)
            · cases hnone.symm.trans hpattern
            · -- a route that was added is a row, and is refused
              have hrow := hs.rows x hx pattern (heq.trans hpattern)
              cases hdepth : c.depth with
              | zero =>
                  rw [hdepth] at hins
                  cases hins
              | succ depth =>
                  rw [hdepth] at hins hwalk
                  obtain ⟨free, hfree, hins⟩ := Option.bind_eq_some_iff.mp hins
                  obtain rfl := collision_of_spells hs.forked hrow hfree hwalk
                  cases hins
          rw [if_neg hnew]
          rfl

/-- **`add_route` rejects exactly malformed routes and duplicates**, whatever the order in which the
routes were added, in every run whose calls find right prefixes. -/
theorem rejects_exactly (s : Routes δ) (hs : ((Routes.machine δ).guarded PrefixesOk).Reachable s)
    (c : AddCall δ) (hok : PrefixesOk s c) (root' : Option (Node δ)) (status : ℤ)
    (h : addRoute c.depth s.rootNode c.route (some c.data) = some (root', status)) :
    (status = -1 ↔ Rejectable s.added c.route) ∧
      ∀ s' : Routes δ, ((Routes.machine δ).guarded PrefixesOk).Reachable s' →
        s'.added.Perm s.added → PrefixesOk s' c → ∀ root'' status',
          addRoute c.depth s'.rootNode c.route (some c.data) = some (root'', status') →
            status' = status := by
  have hstatus := status_iff (Routes.exact_of_run hs) hok h
  constructor
  · rw [hstatus]
    split_ifs with hrej
    · exact iff_of_true rfl hrej
    · exact iff_of_false (by decide) hrej
  · intro s' hs' hperm hok' root'' status' h'
    rw [hstatus, status_iff (Routes.exact_of_run hs') hok' h']
    have hrej : Rejectable s'.added c.route ↔ Rejectable s.added c.route := by
      simp only [Rejectable, hperm.mem_iff]
    simp only [hrej]

def catsRoute : String := "/cats_are/cool/dog/are/smelly"

/-- The first routes of the tests: the fourth one is rejected the second time. -/
theorem rejects_exactly_tests : ∃ s : Routes ℕ, PrefixesOk s (add catsRoute 1) ∧
    ∃ root' status, addRoute 8 s.rootNode (str catsRoute) (some 1) = some (root', status) ∧
      status = -1 ∧ Rejectable s.added (str catsRoute) := by
  have hrun : ((testRoutes.take 4).foldlM
      (fun s c => if PrefixesOk s c then Routes.next s c else none) ⟨none, []⟩).map
        (fun s => (decide (PrefixesOk s (add catsRoute 1)),
          (addRoute 8 s.rootNode (str catsRoute) (some 1)).map Prod.snd)) =
        some (true, some (-1)) := by
    decide +kernel
  obtain ⟨s, hs, hf⟩ := Option.map_eq_some_iff.mp hrun
  have hreach : ((Routes.machine ℕ).guarded PrefixesOk).Reachable s :=
    .guarded_foldlM (fun _ _ _ he => he) rfl hs
  obtain ⟨hok, hadd⟩ := Prod.mk.inj hf
  obtain ⟨⟨root', status⟩, hadd, rfl⟩ := Option.map_eq_some_iff.mp hadd
  have hok := of_decide_eq_true hok
  exact ⟨s, hok, root', -1, hadd, rfl,
    (rejects_exactly s hreach (add catsRoute 1) hok root' (-1) hadd).1.mp rfl⟩

/-- `/bloop_bleep` and `/bloop_blip` part behind `/bloop_bl`, which is then rejected as if it had
been added. -/
theorem new_route_rejected_at_split : ∃ s : Routes ℕ, (Routes.machine ℕ).Reachable s ∧
    (∃ root', addRoute 8 s.rootNode (str "/bloop_bl") (some 3) = some (root', -1)) ∧
      ¬ Rejectable s.added (str "/bloop_bl") := by
  have hrun : ([add "/bloop_bleep" 1, add "/bloop_blip" 2].foldlM Routes.next ⟨none, []⟩).map
      (fun s => ((addRoute 8 s.rootNode (str "/bloop_bl") (some 3)).map Prod.snd,
        decide (Rejectable s.added (str "/bloop_bl")))) = some (some (-1), false) := by
    decide +kernel
  obtain ⟨s, hs, hf⟩ := Option.map_eq_some_iff.mp hrun
  obtain ⟨hadd, hnew⟩ := Prod.mk.inj hf
  obtain ⟨⟨root', status⟩, hadd, rfl⟩ := Option.map_eq_some_iff.mp hadd
  exact ⟨s, .foldlM (fun s c t he => he) (.start rfl) hs, ⟨root', hadd⟩, of_decide_eq_false hnew⟩

end UrlRouter

end Is2
