import Is2.UrlRouter.Insert

/-!
# What a lookup finds in the trie

On the table that the trie spells (`Node.Spells`) a lookup is sound: data that is found stands in
a row whose tokens take the whole path, and the map holds what they bind (`Node.findRoute_spells`).

It is not complete.  `find_route` leaves a node as soon as an edge takes the whole path, also where
the node behind it was made by a split and has no data, and does not try the edges that follow.
`Node.ending` says from the tokens alone how a lookup ends: with data, at such a *dead end*, or with
no edge that took the whole path.  Where no pattern holds a NUL it is right about `find_route`, and
in the last case no row takes the path (`Node.findRoute_tells`).
-/

namespace Is2

namespace UrlRouter

variable {δ : Type}

/-! ## Matching an edge -/

/-- On a path without NUL, `strncmp` compares as far as the first string reaches. -/
lemma strncmpEq_iff {s p : Str} (hp : 0 ∉ p) (hlen : s.length ≤ p.length) :
    strncmpEq s p = true ↔ s <+: p := by
  induction s generalizing p with
  | nil => simp [strncmpEq]
  | cons x xs ih =>
      cases p with
      | nil => simp at hlen
      | cons y ys =>
          obtain ⟨hy, hys⟩ := not_or.mp (List.mem_cons.not.mp hp)
          simp only [List.length_cons, Nat.add_le_add_iff_right] at hlen
          rw [strncmpEq, List.cons_prefix_cons, Bool.and_eq_true, Bool.or_eq_true,
            decide_eq_true_iff, decide_eq_true_iff, ih hys hlen]
          constructor
          · rintro ⟨rfl, rfl | hpre⟩
            · exact absurd rfl hy
            · exact ⟨rfl, hpre⟩
          · rintro ⟨rfl, hpre⟩
            exact ⟨rfl, .inr hpre⟩

/-- A string that is longer than the path compares equal only if it holds a NUL. -/
lemma strncmpEq_long {s p : Str} (hs : 0 ∉ s) (hlen : p.length < s.length) :
    strncmpEq s p = false := by
  induction s generalizing p with
  | nil => simp at hlen
  | cons x xs ih =>
      obtain ⟨hx, hxs⟩ := not_or.mp (List.mem_cons.not.mp hs)
      cases p with
      | nil => simp [strncmpEq, Ne.symm hx]
      | cons y ys =>
          simp only [List.length_cons, Nat.add_lt_add_iff_right] at hlen
          simp [strncmpEq, ih hxs hlen, Ne.symm hx]

/-- The scan of a parameter stops at the next slash. -/
lemma drop_scan (p : Str) :
    p.drop (p.takeWhile (· ≠ slash)).length = p.dropWhile (· ≠ slash) := by
  have hsplit : p.takeWhile (· ≠ slash) ++ p.dropWhile (· ≠ slash) = p :=
    List.takeWhile_append_dropWhile
  nth_rewrite 2 [← hsplit]
  rw [List.drop_left]

/-- Where it has a result, the loop over the parts takes the tokens off the path. -/
lemma matchParts_eat {aRouteLen : ℕ} {xs : Pattern} {p : Str} {len : ℕ} {pmap : PMap}
    {r : Option (Str × PMap)} (hp : 0 ∉ p) (hlen : len + p.length = aRouteLen)
    (h : matchParts aRouteLen xs p len pmap = some r) :
    r.map Prod.fst = Tok.eat slash (toks xs) p := by
  induction xs generalizing p len pmap with
  | nil =>
      obtain rfl := Option.some.inj h
      rw [Option.map_some, toks_nil, Tok.eat]
      split_ifs with hall
      · rw [List.eq_nil_of_length_eq_zero (show p.length = 0 by omega)]
      · rfl
  | cons x xs ih =>
      cases x with
      | parameter str =>
          have htake : p.take (aRouteLen - len) = p := List.take_of_length_le (by omega)
          simp only [matchParts, htake] at h
          have hsub := congrArg List.length (drop_scan p)
          rw [List.length_drop] at hsub
          rw [drop_scan] at h
          have hle : (p.takeWhile (· ≠ slash)).length ≤ p.length :=
            (List.takeWhile_prefix _).length_le
          rw [toks_cons, Part.toks, List.singleton_append, Tok.eat]
          exact ih (fun hm => hp ((List.dropWhile_suffix _).subset hm)) (by omega) h
      | string str =>
          rw [toks_cons, Part.toks, Tok.eat_lits]
          rw [matchParts] at h
          split_ifs at h with heq hle
          · have hpre := (strncmpEq_iff hp hle).mp heq
            rw [if_pos hpre]
            refine ih (fun hm => hp (List.mem_of_mem_drop hm)) ?_ h
            rw [List.length_drop]
            omega
          · obtain rfl := Option.some.inj h
            refine (if_neg fun hpre => heq ?_).symm
            exact (strncmpEq_iff hp hpre.length_le).mpr hpre
      | terminal =>
          obtain rfl := Option.some.inj h
          rfl

/-- The name under which `match_route` binds what a terminal takes. -/
abbrev star : Str := [42]

/-- It binds the names of the parts. -/
lemma matchParts_bound {aRouteLen : ℕ} {xs : Pattern} {p s : Str} {len : ℕ} {pmap pmap' : PMap}
    (hlen : len + p.length = aRouteLen)
    (h : matchParts aRouteLen xs p len pmap = some (some (s, pmap'))) (name : Str) :
    pmap'.lookup name = (Tok.bound slash star (toks xs) p name).or (pmap.lookup name) := by
  induction xs generalizing p len pmap with
  | nil =>
      obtain ⟨-, rfl⟩ := Prod.mk.inj (Option.some.inj (Option.some.inj h))
      rfl
  | cons x xs ih =>
      cases x with
      | parameter str =>
          have htake : p.take (aRouteLen - len) = p := List.take_of_length_le (by omega)
          simp only [matchParts, htake, drop_scan] at h
          have hsub := congrArg List.length (drop_scan p)
          have hle : (p.takeWhile (· ≠ slash)).length ≤ p.length :=
            (List.takeWhile_prefix _).length_le
          rw [List.length_drop] at hsub
          rw [ih (by omega) h, toks_cons, Part.toks, List.singleton_append, Tok.bound,
            Option.or_assoc, List.lookup_cons]
          by_cases hname : name = str
          · simp [hname]
          · simp [hname, beq_false_of_ne hname]
      | string str =>
          rw [toks_cons, Part.toks, Tok.bound_lits]
          rw [matchParts] at h
          split_ifs at h with heq hle
          · refine ih ?_ h
            rw [List.length_drop]
            omega
          · cases h
      | terminal =>
          obtain ⟨-, rfl⟩ := Prod.mk.inj (Option.some.inj (Option.some.inj h))
          rw [toks_cons, Part.toks, List.singleton_append, Tok.bound, List.lookup_cons]
          by_cases hname : name = star
          · simp [hname]
          · simp [hname, beq_false_of_ne hname]

/-- Without NUL in the pattern, it has a result. -/
lemma matchParts_defined {aRouteLen : ℕ} {xs : Pattern} {p : Str} {len : ℕ} {pmap : PMap}
    (hxs : Tok.lit 0 ∉ toks xs) : ∃ r, matchParts aRouteLen xs p len pmap = some r := by
  induction xs generalizing p len pmap with
  | nil => exact ⟨_, rfl⟩
  | cons x xs ih =>
      rw [toks_cons, List.mem_append, not_or] at hxs
      cases x with
      | parameter str => exact ih hxs.2
      | string str =>
          have hstr : 0 ∉ str := fun hm => hxs.1 (List.mem_map_of_mem hm)
          rw [matchParts]
          split_ifs with heq hle
          · exact ih hxs.2
          · rw [strncmpEq_long hstr (by omega)] at heq
            cases heq
          · exact ⟨_, rfl⟩
      | terminal => exact ⟨_, rfl⟩

lemma matchRoute_eat {pattern : Pattern} {p : Str} {r : Option (Str × PMap)} (hp : 0 ∉ p)
    (h : matchRoute pattern p = some r) : r.map Prod.fst = Tok.eat slash (toks pattern) p :=
  matchParts_eat hp (Nat.zero_add _) h

/-- The map of `match_route` holds what the pattern binds. -/
lemma matchRoute_bound {pattern : Pattern} {p s : Str} {pmap : PMap}
    (h : matchRoute pattern p = some (some (s, pmap))) (name : Str) :
    pmap.lookup name = Tok.bound slash star (toks pattern) p name := by
  rw [matchParts_bound (Nat.zero_add _) h, List.lookup_nil, Option.or_none]

/-! ## Soundness -/

/-- Some row of the edge leads to `d`, and its tokens take the whole path. -/
def Edge.Finds (e : Edge δ) (p : Str) (d : δ) : Prop :=
  ∃ w, e.Spells w d ∧ Tok.Matches slash w p

/-- Some row of the node leads to `d`, and its tokens take the whole path. -/
def Node.Finds (n : Node δ) (p : Str) (d : δ) : Prop :=
  ∃ w, n.Spells w d ∧ Tok.Matches slash w p

/-- The tokens take the whole path, and what they bind is what stands in the map. -/
def Takes (w : List (Tok UInt8)) (p : Str) (pmap : PMap) : Prop :=
  Tok.Matches slash w p ∧ ∀ name, pmap.lookup name = Tok.bound slash star w p name

mutual

/-- **What is found stands in a row that takes the path**, and the map holds what the row binds. -/
theorem Node.findRoute_spells {p : Str} {d : δ} {pmap : PMap} (hp : 0 ∉ p) : (n : Node δ) →
    n.findRoute p = some (some d, pmap) → ∃ w, n.Spells w d ∧ Takes w p pmap
  | .mk _ _ edgeList, h => by
      rw [Node.findRoute] at h
      obtain ⟨e, he, w, hs, ht⟩ := findRouteFrom_spells hp edgeList h
      exact ⟨w, ⟨e, he, hs⟩, ht⟩

theorem findRouteFrom_spells {p : Str} {d : δ} {pmap : PMap} (hp : 0 ∉ p) :
    (es : List (Edge δ)) → findRouteFrom es p = some (some d, pmap) →
    ∃ e ∈ es, ∃ w, e.Spells w d ∧ Takes w p pmap
  | [], h => by
      rw [findRouteFrom] at h
      cases h
  | e :: es, h => by
      rw [findRouteFrom] at h
      obtain ⟨r, hr, h⟩ := Option.bind_eq_some_iff.mp h
      cases r with
      | none =>
          obtain ⟨e', he', hf⟩ := findRouteFrom_spells hp es h
          exact ⟨e', List.mem_cons_of_mem _ he', hf⟩
      | some found =>
          obtain rfl := Option.some.inj h
          exact ⟨e, List.mem_cons_self, Edge.tryRoute_spells hp e hr⟩

theorem Edge.tryRoute_spells {p : Str} {d : δ} {pmap : PMap} (hp : 0 ∉ p) : (e : Edge δ) →
    e.tryRoute p = some (some (some d, pmap)) → ∃ w, e.Spells w d ∧ Takes w p pmap
  | .mk pattern child, h => by
      rw [Edge.tryRoute] at h
      obtain ⟨r, hr, h⟩ := Option.bind_eq_some_iff.mp h
      have heat := matchRoute_eat hp hr
      match r, hr, heat, h with
      | none, _, _, h => cases h
      | some ([], pmap'), hr, heat, h =>
          simp only [Option.some.injEq, Prod.mk.injEq] at h
          obtain ⟨hd, rfl⟩ := h
          exact ⟨toks pattern, .here hd, heat.symm, matchRoute_bound hr⟩
      | some (c :: s, pmap'), hr, heat, h =>
          obtain ⟨⟨found, pmap''⟩, hfound, h⟩ := Option.bind_eq_some_iff.mp h
          cases found with
          | none => cases h
          | some d' =>
              simp only [Option.some.injEq, Prod.mk.injEq] at h
              obtain ⟨rfl, rfl⟩ := h
              have hs : 0 ∉ c :: s := fun hm => hp ((Tok.eat_suffix heat.symm).subset hm)
              have hne : c :: s ≠ [] := List.cons_ne_nil _ _
              obtain ⟨w, hw, hm, hb⟩ := Node.findRoute_spells hs child hfound
              refine ⟨toks pattern ++ w, Edge.spells_iff.mpr (.inr ⟨w, rfl, hw⟩), ?_, ?_⟩
              · rw [Tok.Matches, Tok.eat_append_of_ne_nil w heat.symm hne]
                exact hm
              · intro name
                rw [List.lookup_append, hb, matchRoute_bound hr,
                  Tok.bound_append w heat.symm hne]

end

/-! ## How a lookup ends -/

/-- How a lookup ends: it finds data, no edge that it tries takes the whole path, or it comes to a
node without data with nothing of the path left, and finds nothing after that. -/
inductive Ending where
  | data
  | lost
  | deadEnd
deriving DecidableEq

/-- How a lookup ends that ends so below an edge, and with `rest` at the edges that follow. -/
def Ending.before : Ending → Ending → Ending
  | .data, _ => .data
  | .lost, rest => rest
  | .deadEnd, .data => .data
  | .deadEnd, _ => .deadEnd

mutual

/-- How the lookup from a node ends. -/
def Node.ending : Node δ → Str → Ending
  | .mk _ _ edgeList, p => endingFrom edgeList p

def endingFrom : List (Edge δ) → Str → Ending
  | [], _ => .lost
  | e :: es, p => e.ending p (endingFrom es p)

/-- How it ends at an edge, if the edges that follow end it with `rest`. -/
def Edge.ending : Edge δ → Str → Ending → Ending
  | .mk pattern child, p, rest =>
    match Tok.eat slash (toks pattern) p with
    | none => rest
    -- the loop is left, with or without data
    | some [] => if child.data.isSome then .data else .deadEnd
    | some (c :: s) => (child.ending (c :: s)).before rest

end

/-- What an ending says about the data that a lookup returns, and about the rows. -/
def Ending.Tells (w : Ending) (found : Option δ) (finds : Prop) : Prop :=
  match w with
  | .data => found ≠ none
  | .lost => found = none ∧ ¬ finds
  | .deadEnd => found = none

/-- An edge that leads nowhere leaves the lookup to the edges that follow. -/
lemma Ending.Tells.of_lost {w : Ending} {found : Option δ} {e rest : Prop}
    (h : w.Tells found rest) (he : ¬ e) : w.Tells found (e ∨ rest) := by
  cases w with
  | data => exact h
  | lost => exact ⟨h.1, not_or.mpr ⟨he, h.2⟩⟩
  | deadEnd => exact h

/-- Behind a dead end only data counts. -/
lemma Ending.Tells.of_deadEnd {rest : Ending} {found : Option δ} {finds finds' : Prop}
    (h : rest.Tells found finds) : (Ending.deadEnd.before rest).Tells found finds' := by
  cases rest with
  | data => exact h
  | lost => exact h.1
  | deadEnd => exact h

/-- Data is found only where the lookup ends with data. -/
lemma Ending.Tells.data_of_some {w : Ending} {d : δ} {finds : Prop}
    (h : w.Tells (some d) finds) : w = .data := by
  cases w with
  | data => rfl
  | lost => cases h.1
  | deadEnd => cases h

mutual

/-- **Where no pattern holds a NUL, the lookup ends as its ending says.** -/
theorem Node.findRoute_tells {p : Str} (hp : 0 ∉ p) : (n : Node δ) → ¬ n.Holds (.lit 0) →
    ∃ r pmap, n.findRoute p = some (r, pmap) ∧ (n.ending p).Tells r (∃ d, n.Finds p d)
  | .mk endpoint data edgeList, hn => by
      obtain ⟨r, pmap, hr, htells⟩ := findRouteFrom_tells hp edgeList
        (fun e he hh => hn ⟨e, he, hh⟩)
      refine ⟨r, pmap, by rw [Node.findRoute, hr], ?_⟩
      rw [Node.ending]
      have hiff : (∃ d, (Node.mk endpoint data edgeList).Finds p d) ↔
          ∃ e ∈ edgeList, ∃ d, e.Finds p d := by
        constructor
        · rintro ⟨d, w, ⟨e, he, hs⟩, hm⟩
          exact ⟨e, he, d, w, hs, hm⟩
        · rintro ⟨e, he, d, w, hs, hm⟩
          exact ⟨d, w, ⟨e, he, hs⟩, hm⟩
      rwa [hiff]

theorem findRouteFrom_tells {p : Str} (hp : 0 ∉ p) : (es : List (Edge δ)) →
    (∀ e ∈ es, ¬ e.Holds (.lit 0)) →
    ∃ r pmap, findRouteFrom es p = some (r, pmap) ∧
      (endingFrom es p).Tells r (∃ e ∈ es, ∃ d, e.Finds p d)
  | [], _ => ⟨none, [], by rw [findRouteFrom], by simp [endingFrom, Ending.Tells]⟩
  | e :: es, hn => by
      obtain ⟨he, hes⟩ := List.forall_mem_cons.mp hn
      obtain ⟨r, pmap, hrest, htells⟩ := findRouteFrom_tells hp es hes
      obtain ⟨found, hfound, htold⟩ := Edge.tryRoute_tells hp e he
      rw [findRouteFrom, hfound, endingFrom]
      simp only [List.exists_mem_cons_iff]
      cases found with
      | none => exact ⟨r, pmap, hrest, htold _ _ _ htells⟩
      | some found => exact ⟨found.1, found.2, rfl, htold _ _⟩

/-- What the body of the loop returns ends the lookup; otherwise the edges that follow do. -/
theorem Edge.tryRoute_tells {p : Str} (hp : 0 ∉ p) : (e : Edge δ) → ¬ e.Holds (.lit 0) →
    ∃ found, e.tryRoute p = some found ∧ match found with
      | some (r, _) => ∀ rest finds, (e.ending p rest).Tells r finds
      | none => ∀ (rest : Ending) (r : Option δ) finds, rest.Tells r finds →
          (e.ending p rest).Tells r ((∃ d, e.Finds p d) ∨ finds)
  | .mk pattern child, hn => by
      rw [Edge.holds_iff, not_or] at hn
      obtain ⟨r, hr⟩ : ∃ r, matchRoute pattern p = some r := matchParts_defined hn.1
      have heat := matchRoute_eat hp hr
      rw [Edge.tryRoute, hr]
      match r, heat with
      | none, heat =>
          refine ⟨none, rfl, fun rest r finds h => ?_⟩
          rw [Edge.ending, ← heat]
          refine h.of_lost ?_
          rintro ⟨d, w, hs, hm⟩
          rcases Edge.spells_iff.mp hs with ⟨rfl, -⟩ | ⟨v, rfl, -⟩
          · cases heat.trans hm
          · obtain ⟨s, hs, -⟩ := Tok.eat_append_some hm
            cases heat.trans hs
      | some ([], pmap), heat =>
          refine ⟨some (child.data, pmap), rfl, fun rest finds => ?_⟩
          rw [Edge.ending, ← heat]
          cases hdata : child.data <;> simp [Ending.Tells]
      | some (c :: s, pmap), heat =>
          have hs : 0 ∉ c :: s := fun hm => hp ((Tok.eat_suffix heat.symm).subset hm)
          obtain ⟨found, pmap', hfound, htells⟩ := Node.findRoute_tells hs child hn.2
          cases found with
          | some d =>
              refine ⟨some (some d, pmap' ++ pmap), by simp [hfound], fun rest finds => ?_⟩
              have hdata : child.ending (c :: s) = .data := htells.data_of_some
              rw [Edge.ending, ← heat]
              simp [hdata, Ending.before, Ending.Tells]
          | none =>
              refine ⟨none, by simp [hfound], fun rest r finds h => ?_⟩
              rw [Edge.ending, ← heat]
              change ((child.ending (c :: s)).before rest).Tells r _
              cases hend : child.ending (c :: s) with
              | data =>
                  rw [hend] at htells
                  exact absurd rfl htells
              | deadEnd => exact h.of_deadEnd
              | lost =>
                  refine h.of_lost ?_
                  rintro ⟨d, w, hw, hm⟩
                  rcases Edge.spells_iff.mp hw with ⟨rfl, -⟩ | ⟨v, rfl, hv⟩
                  · cases heat.trans hm
                  · have hstep := Tok.eat_append_of_ne_nil v heat.symm (List.cons_ne_nil _ _)
                    rw [hend] at htells
                    exact htells.2 ⟨d, v, hv, hstep.symm.trans hm⟩

end

end UrlRouter

end Is2
