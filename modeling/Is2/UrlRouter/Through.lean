import Is2.UrlRouter.Lookup

/-!
# What is obtained through an edge

Through an edge one obtains triples of a path, data and bindings: `match_route` takes the edge's
pattern off the path, and `find_route` goes on at the child.  `Through` is the same for tokens, and
there what two halves take and bind can be put together (`through_append`).

`branch` cuts the pattern and puts a node without data between the two halves, so a path that ends
there is lost.  For all other paths one goes through the first half, and then through the second
(`obtains_branch`); `BranchKeeps` is that this makes no difference.
-/

namespace Is2

namespace UrlRouter

variable {δ : Type}

/-! ## What is obtained through an edge -/

/-- **Data and bindings that are obtained through the edge**, by `match_route` and then `find_route`
on the child. -/
def Edge.Obtains (e : Edge δ) (p : Str) (d : δ) (binds : Str → Option Str) : Prop :=
  ∃ pmap, e.tryRoute p = some (some (some d, pmap)) ∧ binds = (pmap.lookup ·)

/-- What the tokens bind, where a later binding overrides. -/
def bindings (ts : List (Tok UInt8)) (p : Str) : Str → Option Str := Tok.bound slash star ts p

/-- The bindings `m`, and those of `m'` for the other names. -/
def overlay (m m' : Str → Option Str) (name : Str) : Option Str := (m name).or (m' name)

lemma overlay_assoc (m₁ m₂ m₃ : Str → Option Str) :
    overlay (overlay m₁ m₂) m₃ = overlay m₁ (overlay m₂ m₃) :=
  funext fun _ => Option.or_assoc

/-- Data and bindings that are obtained by the tokens, and by `find_route` on a node behind them. -/
inductive Through (ts : List (Tok UInt8)) (child : Node δ) (p : Str) (d : δ) :
    (Str → Option Str) → Prop where
  | here (heat : Tok.eat slash ts p = some []) (hd : child.data = some d) :
      Through ts child p d (bindings ts p)
  | down {s : Str} {pmap : PMap} (heat : Tok.eat slash ts p = some s) (hs : s ≠ [])
      (hfound : child.findRoute s = some (some d, pmap)) :
      Through ts child p d (overlay (pmap.lookup ·) (bindings ts p))

/-- Where the tokens take the front of a path without NUL, `match_route` does so too. -/
lemma matchParts_of_eat {aRouteLen : ℕ} {xs : Pattern} {p s : Str} {len : ℕ} {pmap : PMap}
    (hp : 0 ∉ p) (hlen : len + p.length = aRouteLen) (heat : Tok.eat slash (toks xs) p = some s) :
    ∃ r, matchParts aRouteLen xs p len pmap = some r := by
  induction xs generalizing p len pmap with
  | nil => exact ⟨_, rfl⟩
  | cons x xs ih =>
      rw [toks_cons] at heat
      cases x with
      | parameter name =>
          have htake : p.take (aRouteLen - len) = p := List.take_of_length_le (by omega)
          have hsub := congrArg List.length (drop_scan p)
          have hle : (p.takeWhile (· ≠ slash)).length ≤ p.length :=
            (List.takeWhile_prefix _).length_le
          rw [List.length_drop] at hsub
          simp only [matchParts, htake, drop_scan]
          exact ih (fun hm => hp ((List.dropWhile_suffix _).subset hm)) (by omega) heat
      | string str =>
          rw [Part.toks, Tok.eat_lits] at heat
          split_ifs at heat with hpre
          have hroom := hpre.length_le
          rw [matchParts, if_pos ((strncmpEq_iff hp hroom).mpr hpre), if_pos hroom]
          refine ih (fun hm => hp (List.mem_of_mem_drop hm)) ?_ heat
          rw [List.length_drop]
          omega
      | terminal => exact ⟨_, rfl⟩

/-- **`match_route` takes the tokens off the path.** -/
lemma matchRoute_of_eat {pattern : Pattern} {p s : Str} (hp : 0 ∉ p)
    (heat : Tok.eat slash (toks pattern) p = some s) :
    ∃ pmap, matchRoute pattern p = some (some (s, pmap)) ∧
      (pmap.lookup ·) = bindings (toks pattern) p := by
  obtain ⟨r, hr⟩ : ∃ r, matchRoute pattern p = some r :=
    matchParts_of_eat hp (Nat.zero_add _) heat
  have hs := (matchRoute_eat hp hr).trans heat
  obtain ⟨⟨s, pmap⟩, rfl, rfl⟩ := Option.map_eq_some_iff.mp hs
  exact ⟨pmap, hr, funext (matchRoute_bound hr)⟩

/-- The triples of an edge are those of its tokens. -/
lemma obtains_iff {e : Edge δ} {p : Str} (hp : 0 ∉ p) (d : δ) (m : Str → Option Str) :
    e.Obtains p d m ↔ Through (toks e.pattern) e.child p d m := by
  rcases e with ⟨pattern, child⟩
  change _ ↔ Through (toks pattern) child p d m
  constructor
  · rintro ⟨pmap, htry, rfl⟩
    rw [Edge.tryRoute] at htry
    obtain ⟨r, hr, htry⟩ := Option.bind_eq_some_iff.mp htry
    have heat := matchRoute_eat hp hr
    match r, hr, heat, htry with
    | none, _, _, htry => cases htry
    | some ([], pmap'), hr, heat, htry =>
        simp only [Option.some.injEq, Prod.mk.injEq] at htry
        obtain ⟨hd, rfl⟩ := htry
        rw [show (pmap'.lookup ·) = bindings (toks pattern) p from funext (matchRoute_bound hr)]
        exact .here heat.symm hd
    | some (c :: s, pmap'), hr, heat, htry =>
        obtain ⟨⟨found, pmap''⟩, hfound, htry⟩ := Option.bind_eq_some_iff.mp htry
        cases found with
        | none => cases htry
        | some d' =>
            simp only [Option.some.injEq, Prod.mk.injEq] at htry
            obtain ⟨rfl, rfl⟩ := htry
            have hover : ((pmap'' ++ pmap').lookup ·) =
                overlay (pmap''.lookup ·) (bindings (toks pattern) p) := by
              funext name
              rw [List.lookup_append, matchRoute_bound hr]
              rfl
            rw [hover]
            exact .down heat.symm (List.cons_ne_nil c s) hfound
  · intro h
    cases h with
    | here heat hd =>
        obtain ⟨pmap, hr, hm⟩ := matchRoute_of_eat hp heat
        refine ⟨pmap, ?_, hm.symm⟩
        rw [Edge.tryRoute, hr]
        exact congrArg (fun r => some (some (r, pmap))) hd
    | @down s pmap' heat hs hfound =>
        obtain ⟨pmap, hr, hm⟩ := matchRoute_of_eat hp heat
        obtain ⟨c, s, rfl⟩ := List.exists_cons_of_ne_nil hs
        refine ⟨pmap' ++ pmap, ?_, ?_⟩
        · rw [Edge.tryRoute, hr]
          simp only [Option.bind_eq_bind, Option.bind_some, hfound]
        · funext name
          rw [List.lookup_append, overlay, ← congrFun hm name]

/-! ## Two halves -/

/-- **While something is left, one goes on with the second half.** -/
lemma through_append {ts us : List (Tok UInt8)} {child : Node δ} {p s : Str}
    (heat : Tok.eat slash ts p = some s) (hs : s ≠ []) (d : δ) (m : Str → Option Str) :
    Through (ts ++ us) child p d m ↔
      ∃ m', Through us child s d m' ∧ m = overlay m' (bindings ts p) := by
  have heat' : Tok.eat slash (ts ++ us) p = Tok.eat slash us s :=
    Tok.eat_append_of_ne_nil us heat hs
  have hbind : bindings (ts ++ us) p = overlay (bindings us s) (bindings ts p) :=
    funext (Tok.bound_append us heat hs)
  constructor
  · intro h
    cases h with
    | here hend hd => exact ⟨bindings us s, .here (heat'.symm.trans hend) hd, hbind⟩
    | down hend hr hfound =>
        exact ⟨_, .down (heat'.symm.trans hend) hr hfound, by rw [hbind, overlay_assoc]⟩
  · rintro ⟨m', h, rfl⟩
    cases h with
    | here hend hd =>
        rw [← hbind]
        exact .here (heat'.trans hend) hd
    | down hend hr hfound =>
        rw [overlay_assoc, ← hbind]
        exact .down (heat'.trans hend) hr hfound

/-- The tokens take the front of the path. -/
lemma Through.eat {ts : List (Tok UInt8)} {child : Node δ} {p : Str} {d : δ}
    {m : Str → Option Str} (h : Through ts child p d m) : ∃ s, Tok.eat slash ts p = some s := by
  cases h with
  | here heat hd => exact ⟨_, heat⟩
  | down heat hs hfound => exact ⟨_, heat⟩

/-- Both halves take their part. -/
lemma Through.front {ts us : List (Tok UInt8)} {child : Node δ} {p : Str} {d : δ}
    {m : Str → Option Str} (h : Through (ts ++ us) child p d m) :
    ∃ s, Tok.eat slash ts p = some s := by
  obtain ⟨s, heat⟩ := h.eat
  obtain ⟨s', hs', -⟩ := Tok.eat_append_some heat
  exact ⟨s', hs'⟩

/-- There is nothing else than what is obtained. -/
lemma Through.unique {ts : List (Tok UInt8)} {child : Node δ} {p : Str} {d d' : δ}
    {m m' : Str → Option Str} (h : Through ts child p d m) (h' : Through ts child p d' m') :
    m = m' := by
  cases h with
  | here heat hd =>
      cases h' with
      | here => rfl
      | down heat' hs => exact absurd (Option.some.inj (heat'.symm.trans heat)) hs
  | down heat hs hfound =>
      cases h' with
      | here heat' => exact absurd (Option.some.inj (heat.symm.trans heat')) hs
      | down heat' hs' hfound' =>
          obtain rfl := Option.some.inj (heat.symm.trans heat')
          obtain ⟨-, rfl⟩ := Prod.mk.inj (Option.some.inj (hfound.symm.trans hfound'))
          rfl

/-- One name is bound. -/
def single (name val : Str) (x : Str) : Option Str := if x = name then some val else none

lemma bindings_run (name p : Str) :
    bindings [.run name] p = single name (p.takeWhile (· ≠ slash)) :=
  funext fun _ => rfl

/-- The parameter takes the path up to the next slash, and one goes on behind it. -/
lemma through_run {name : Str} {ts : List (Tok UInt8)} {child : Node δ} {p : Str}
    (hs : p.dropWhile (· ≠ slash) ≠ []) (d : δ) (m : Str → Option Str) :
    Through (.run name :: ts) child p d m ↔ ∃ m', Through ts child (p.dropWhile (· ≠ slash)) d m' ∧
      m = overlay m' (single name (p.takeWhile (· ≠ slash))) := by
  have heat : Tok.eat slash [.run name] p = some (p.dropWhile (· ≠ slash)) := rfl
  rw [← bindings_run]
  exact through_append heat hs d m

/-! ## The branched edge -/

/-- The path ends at the split: the truncated edge takes all of it. -/
def EndsAtCut (e : Edge δ) (k : ℕ) (p : Str) : Prop :=
  ∃ pmap, matchRoute (e.branch k).pattern p = some (some ([], pmap))

lemma endsAtCut_iff {e : Edge δ} {k : ℕ} {p : Str} (hp : 0 ∉ p) :
    EndsAtCut e k p ↔ Tok.eat slash (toks (e.branch k).pattern) p = some [] := by
  constructor
  · rintro ⟨pmap, hr⟩
    exact (matchRoute_eat hp hr).symm
  · intro heat
    obtain ⟨pmap, hr, -⟩ := matchRoute_of_eat hp heat
    exact ⟨pmap, hr⟩

/-- **`branch` keeps what is obtained through the edge**, for all paths but those that end at the
split. -/
def BranchKeeps (e : Edge δ) (k : ℕ) : Prop :=
  ∀ p, 0 ∉ p → ¬ EndsAtCut e k p →
    ∀ d binds, e.Obtains p d binds ↔ (e.branch k).Obtains p d binds

/-- The lookup at a node with one edge. -/
lemma findRoute_single {endpoint : ℕ} {data : Option δ} {e : Edge δ} {p : Str} {d : δ}
    {pmap : PMap} : (Node.mk endpoint data [e]).findRoute p = some (some d, pmap) ↔
      e.tryRoute p = some (some (some d, pmap)) := by
  rw [Node.findRoute, findRouteFrom]
  constructor
  · intro h
    obtain ⟨r, hr, h⟩ := Option.bind_eq_some_iff.mp h
    cases r with
    | none => cases h
    | some found =>
        obtain rfl := Option.some.inj h
        exact hr
  · intro h
    rw [h]
    rfl

/-- Through the branched edge one goes to the split, and on through the new edge. -/
lemma obtains_branch {e : Edge δ} {k : ℕ} {p : Str} (hp : 0 ∉ p) (hend : ¬ EndsAtCut e k p)
    (d : δ) (m : Str → Option Str) : (e.branch k).Obtains p d m ↔
      ∃ s m', Tok.eat slash (toks (patternSub e.pattern 0 k)) p = some s ∧
        Through (toks (patternSub e.pattern k (patternLen e.pattern))) e.child s d m' ∧
        m = overlay m' (bindings (toks (patternSub e.pattern 0 k)) p) := by
  rw [endsAtCut_iff hp] at hend
  rw [obtains_iff hp]
  rw [branch_eq] at hend ⊢
  simp only [Edge.pattern, Edge.child] at hend ⊢
  constructor
  · intro h
    cases h with
    | here heat hd => exact absurd heat hend
    | @down s pmap heat hs hfound =>
        have hsub : 0 ∉ s := fun hm => hp ((Tok.eat_suffix heat).subset hm)
        have hobt : (Edge.mk _ e.child).Obtains s d (pmap.lookup ·) :=
          ⟨pmap, findRoute_single.mp hfound, rfl⟩
        exact ⟨s, _, heat, (obtains_iff hsub d _).mp hobt, rfl⟩
  · rintro ⟨s, m', heat, h, rfl⟩
    have hsub : 0 ∉ s := fun hm => hp ((Tok.eat_suffix heat).subset hm)
    have hs : s ≠ [] := by
      rintro rfl
      exact hend heat
    obtain ⟨pmap, htry, rfl⟩ := (obtains_iff (e := .mk _ e.child) hsub d m').mpr h
    exact .down heat hs (findRoute_single.mpr htry)

end UrlRouter

end Is2
