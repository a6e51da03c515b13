import Is2.UrlRouter.Ends

/-!
# What does a lookup bind?

A lookup that finds data leaves in the map what the route binds on the path, and nothing else: each
edge collects into a map of its own, and only the edges of the branch that is found are merged.

A lookup that finds nothing should leave the map empty.  It does not where the path ends at a split
of the root's edge: `find_route` merges the edge's map, and only then returns the missing data.
Below the root the caller throws such a map away.  The root has one edge at most
(`Routes.oneEdge_of_run`), so this is the only place, and `lookup_binds_iff` is exact.
-/

namespace Is2

namespace UrlRouter

variable {δ : Type}

/-! ## The edge of the root -/

/-- The first part of a pattern is a string with a leading slash. -/
def Rooted : Pattern → Prop
  | .string (c :: _) :: _ => c = slash
  | _ => False

lemma sanitizePath_cons (route : Str) : ∃ cs, sanitizePath route = slash :: cs := by
  have hpath : ∃ cs, (if route.head? = some slash then route else slash :: route) =
      slash :: cs := by
    split_ifs with h
    · exact ⟨route.tail, List.eq_cons_of_mem_head? h⟩
    · exact ⟨route, rfl⟩
  obtain ⟨cs, hcs⟩ := hpath
  simp only [sanitizePath, hcs]
  split_ifs with hlast
  · cases cs with
    | nil => simp at hlast
    | cons c cs => exact ⟨_, rfl⟩
  · exact ⟨cs, rfl⟩

/-- Every route begins with a slash. -/
lemma rooted_convert {route : Str} {pattern : Pattern}
    (h : convertPathToPattern route = some pattern) : Rooted pattern := by
  obtain ⟨cs, hcs⟩ := sanitizePath_cons route
  rw [convertPathToPattern, hcs, convertFrom, if_neg (by decide), if_neg (by decide),
    if_neg (by decide)] at h
  obtain ⟨str, xs, rfl⟩ := convertFrom_head h
  rfl

/-- The root has one edge at most, and its pattern begins with a slash. -/
def Routes.OneEdge (s : Routes δ) : Prop :=
  s.root.edgeList = [] ∨ ∃ e, s.root.edgeList = [e] ∧ Rooted e.pattern

lemma patternDiff_rooted {a p : Pattern} {k : ℤ} (ha : Rooted a) (hp : Rooted p)
    (h : patternDiff a p = some k) : k ≠ 0 := by
  match a, p, ha, hp with
  | .string (c :: x) :: xs, .string (c' :: y) :: ys, ha, hp =>
      obtain rfl : c = c' := ha.trans hp.symm
      rw [patternDiff, patternDiffFrom] at h
      obtain ⟨d, hd, h⟩ := Option.bind_eq_some_iff.mp h
      simp only [Part.str, stringDiff, if_true] at hd
      obtain ⟨d, -, rfl⟩ := Option.map_eq_some_iff.mp hd
      rintro rfl
      by_cases hstop : 0 < d + 1 ∧ d + 1 ≠ (Part.string (c :: x)).str.length
      · rw [if_pos hstop] at h
        have := Option.some.inj h
        omega
      · have htype : ¬ (Part.string (c :: x)).type ≠ (Part.string (c :: y)).type :=
          fun hne => hne rfl
        rw [if_neg hstop, if_neg (Nat.succ_ne_zero d), if_neg htype] at h
        have := le_patternDiffFrom h le_rfl
        split_ifs at this <;> omega

lemma branch_rooted {e : Edge δ} {k : ℕ} (h : Rooted e.pattern) (hk : 0 < k) :
    Rooted (e.branch k).pattern := by
  rcases e with ⟨pattern, child⟩
  match pattern, h with
  | .string (c :: x) :: xs, h =>
      obtain rfl : c = slash := h
      obtain ⟨k, rfl⟩ := Nat.exists_eq_succ_of_ne_zero (Nat.pos_iff_ne_zero.mp hk)
      have hpart : ∃ off len, subPart 0 (k + 1) (.string (slash :: x)) ⟨true, 0, 0⟩ =
          (.string (slash :: x.take k), ⟨true, off, len⟩) := by
        simp [subPart, SubState.bracket, Part.type, Part.str, Part.withStr, subChars_found]
      obtain ⟨off, len, hpart⟩ := hpart
      simp only [Edge.branch, Edge.pattern, patternSub, decide_true, subParts, Nat.succ_eq_add_one,
        hpart, if_true]
      split_ifs <;> exact rfl

/-- An insertion leaves the root one edge. -/
lemma oneEdge_insertRoute {depth : ℕ} {n n' : Node δ} {a : Pattern} {data : Option δ} {ok : Bool}
    (ha : Rooted a) (h : n.insertRoute depth a data = some (n', ok))
    (hn : n.edgeList = [] ∨ ∃ e, n.edgeList = [e] ∧ Rooted e.pattern) :
    n'.edgeList = [] ∨ ∃ e, n'.edgeList = [e] ∧ Rooted e.pattern := by
  have hset : ∀ {i : ℕ} {e x : Edge δ}, n.edgeList[i]? = some e → (Rooted e.pattern →
      Rooted x.pattern) → ∃ e, (n.setEdge i x).edgeList = [e] ∧ Rooted e.pattern := by
    intro i e x he hx
    rcases hn with hn | ⟨e', hn, hr⟩
    · simp [hn] at he
    · cases i with
      | succ i => simp [hn] at he
      | zero =>
          simp only [hn, List.getElem?_cons_zero, Option.some.injEq] at he
          subst he
          exact ⟨x, congrArg (List.set · 0 x) hn, hx hr⟩
  cases depth with
  | zero => cases h
  | succ depth =>
      cases insertRoute_inserted h with
      | refused => exact hn
      | connected hv hlcp =>
          rcases hn with hn | ⟨e, hn, hr⟩
          · have hnone : n.findEdge a = none := by
              rw [Node.findEdge, hn, List.find?_nil]
            rw [Node.connect, hnone]
            exact .inr ⟨.mk a (.mk 1 data []), congrArg (· ++ [_]) hn, ha⟩
          · -- the prefix of the only edge is not empty
            rw [Node.findLongestCommonPrefix, hn, lcpFrom] at hlcp
            obtain ⟨d, hd, hlcp⟩ := Option.bind_eq_some_iff.mp hlcp
            have hne := patternDiff_rooted ha hr hd
            split_ifs at hlcp with hneg hlong
            · cases hlcp
            · simp only [lcpFrom, Option.some.injEq, Prod.mk.injEq] at hlcp
              omega
            · omega
      | descended he hpos hlcp hsub hv hins => exact .inr (hset he id)
      | endpoint he hpos hlcp hend hv => exact .inr (hset he fun hr => branch_rooted hr hpos)
      | branched he hpos hlcp hsub hv hins => exact .inr (hset he fun hr => branch_rooted hr hpos)

/-- **The root has one edge at most**, in every run. -/
lemma Routes.oneEdge_of_run {s : Routes δ} (hs : (Routes.machine δ).Reachable s) : s.OneEdge := by
  refine Machine.Reachable.invariant (P := Routes.OneEdge) ?_ ?_ hs
  · rintro s rfl
    exact .inl rfl
  · intro s c t hs hst
    rcases Routes.next_cases hst with rfl | ⟨pattern, n, ok, hpattern, hins, rfl⟩
    · exact hs
    · exact oneEdge_insertRoute (rooted_convert hpattern) hins hs

/-! ## Bindings -/

/-- What the route binds a name to on the path: a parameter to the text that it takes, and `*` to
the remainder. -/
def routeBinds (route : Str) (p : Path) (name : Str) : Option Str := do
  let pattern ← convertPathToPattern route
  Tok.bound slash star (toks pattern) p.bytes name

/-- **The map is that of the route found**: data that is found was added by a route that takes the
path, and the map holds what that route binds and nothing else; where nothing is found, the map is
empty. -/
def BoundAs (s : Routes δ) (p : Path) : Option δ → PMap → Prop
  | some d, pmap => ∃ x ∈ s.added, x.2 = d ∧ RouteMatches x.1 p ∧
      ∀ name, pmap.lookup name = routeBinds x.1 p name
  | none, pmap => pmap = []

/-- **The path ends at a split of the root's edge**: the edge binds a name and takes the whole path,
and the node behind it has no data. -/
def EndsAtSplit (n : Node δ) (p : Str) : Prop :=
  ∃ e ∈ n.edgeList, Tok.Matches slash (toks e.pattern) p ∧
    (∃ x ∈ e.pattern, x.type ≠ .string) ∧ e.child.data = none

instance (n : Node δ) (p : Str) : Decidable (EndsAtSplit n p) :=
  inferInstanceAs (Decidable (∃ e ∈ n.edgeList, Tok.Matches slash (toks e.pattern) p ∧
    (∃ x ∈ e.pattern, x.type ≠ .string) ∧ e.child.data = none))

/-- Only parameters and terminals bind. -/
lemma matchParts_nil_iff {aRouteLen : ℕ} {xs : Pattern} {p s : Str} {len : ℕ} {pmap pmap' : PMap}
    (h : matchParts aRouteLen xs p len pmap = some (some (s, pmap'))) :
    pmap' = [] ↔ pmap = [] ∧ ¬ ∃ x ∈ xs, x.type ≠ .string := by
  induction xs generalizing p len pmap with
  | nil =>
      obtain ⟨-, rfl⟩ := Prod.mk.inj (Option.some.inj (Option.some.inj h))
      simp
  | cons x xs ih =>
      cases x with
      | parameter str =>
          rw [matchParts] at h
          simp [ih h, Part.type]
      | string str =>
          rw [matchParts] at h
          split_ifs at h
          · simp [ih h, Part.type]
          · cases h
      | terminal =>
          obtain ⟨-, rfl⟩ := Prod.mk.inj (Option.some.inj (Option.some.inj h))
          simp [Part.type]

/-- What a lookup returns at a node with one edge: what the edge finds; or nothing, with the
bindings of the edge if the path ends there. -/
lemma findRoute_none_iff {n : Node δ} {e : Edge δ} {p : Str} {r : Option δ} {pmap : PMap}
    (hp : 0 ∉ p) (hn : n.edgeList = [e]) (h : n.findRoute p = some (r, pmap)) :
    (r = none → pmap = []) ↔ ¬ EndsAtSplit n p := by
  rcases n with ⟨endpoint, data, edgeList⟩
  obtain rfl : edgeList = [e] := hn
  rcases e with ⟨pattern, child⟩
  have hends : EndsAtSplit (.mk endpoint data [.mk pattern child]) p ↔
      Tok.Matches slash (toks pattern) p ∧ (∃ x ∈ pattern, x.type ≠ .string) ∧
        child.data = none := by
    simp [EndsAtSplit, Node.edgeList, Edge.pattern, Edge.child]
  rw [hends, Node.findRoute, findRouteFrom, Edge.tryRoute, findRouteFrom] at *
  obtain ⟨found, hfound, h⟩ := Option.bind_eq_some_iff.mp h
  obtain ⟨m, hm, hfound⟩ := Option.bind_eq_some_iff.mp hfound
  have heat := matchRoute_eat hp hm
  cases m with
  | none =>
      obtain rfl := Option.some.inj hfound
      obtain ⟨rfl, rfl⟩ := Prod.mk.inj (Option.some.inj h)
      simp [Tok.Matches, ← heat]
  | some found' =>
      obtain ⟨suffix, pmap'⟩ := found'
      cases suffix with
      | nil =>
          obtain rfl := Option.some.inj hfound
          obtain ⟨rfl, rfl⟩ := Prod.mk.inj (Option.some.inj h)
          have hmatch : Tok.Matches slash (toks pattern) p := heat.symm
          rw [matchParts_nil_iff hm]
          constructor
          · rintro hnil ⟨-, hbinds, hd⟩
            exact (hnil hd).2 hbinds
          · intro hends hd
            exact ⟨rfl, fun hbinds => hends ⟨hmatch, hbinds, hd⟩⟩
      | cons c rest =>
          have hne : ¬ Tok.Matches slash (toks pattern) p := by
            simp [Tok.Matches, ← heat]
          obtain ⟨⟨r', pmap''⟩, -, hfound⟩ := Option.bind_eq_some_iff.mp hfound
          cases r' with
          | none =>
              obtain rfl := Option.some.inj hfound
              obtain ⟨rfl, rfl⟩ := Prod.mk.inj (Option.some.inj h)
              simp [hne]
          | some d =>
              obtain rfl := Option.some.inj hfound
              obtain ⟨rfl, -⟩ := Prod.mk.inj (Option.some.inj h)
              simp [hne]

/-- **A lookup binds as its route does, unless the path ends at a split of the root's edge**, in
every run whose calls cut cleanly. -/
theorem lookup_binds_iff (s : Routes δ) (hs : ((Routes.machine δ).guarded CutsOk).Reachable s)
    (p : Path) (r : Option δ) (pmap : PMap)
    (hfound : findRoute s.rootNode p.bytes = some (r, pmap)) :
    BoundAs s p r pmap ↔ ¬ EndsAtSplit s.root p.bytes := by
  have hsound := Routes.sound_of_run hs
  have hbound : BoundAs s p r pmap ↔ (r = none → pmap = []) := by
    cases r with
    | none => simp [BoundAs]
    | some d =>
        refine iff_of_true ?_ (by simp)
        rcases s with ⟨_ | n, added⟩
        · cases hfound
        · obtain ⟨w, hw, hm, hb⟩ := Node.findRoute_spells p.noNul n hfound
          obtain ⟨x, hx, hd, pattern, hpattern, rfl⟩ := hsound w d hw
          refine ⟨x, hx, hd, ⟨pattern, hpattern, hm⟩, fun name => ?_⟩
          rw [hb, routeBinds, hpattern]
          rfl
  rw [hbound]
  have hempty : s.root.edgeList = [] → ¬ EndsAtSplit s.root p.bytes := by
    rintro hn ⟨e, he, -⟩
    rw [hn] at he
    cases he
  rcases s with ⟨_ | n, added⟩
  · obtain ⟨rfl, rfl⟩ := Prod.mk.inj (Option.some.inj hfound)
    exact iff_of_true (fun _ => rfl) (hempty rfl)
  · rcases Routes.oneEdge_of_run hs.of_guarded with hn | ⟨e, hn, -⟩
    · refine iff_of_true (fun _ => ?_) (hempty hn)
      rcases n with ⟨endpoint, data, edgeList⟩
      obtain rfl : edgeList = [] := hn
      rw [findRoute, Node.findRoute, findRouteFrom] at hfound
      exact (Prod.mk.inj (Option.some.inj hfound)).2.symm
    · exact findRoute_none_iff p.noNul hn hfound

/-- The routes of the tests: the two parameters of the first one are bound. -/
theorem lookup_binds_iff_tests : ∃ s : Routes ℕ,
    ¬ EndsAtSplit s.root monkeyPath.bytes ∧ ∃ r pmap, BoundAs s monkeyPath r pmap ∧
      pmap.lookup (str "monkey_name") = some (str "bongo") ∧
      pmap.lookup (str "banana_number") = some (str "33") := by
  have hrun : (testRoutes.foldlM
      (fun s c => if CutsOk s c then Routes.next s c else none) ⟨none, []⟩).map
        (fun s => (decide (EndsAtSplit s.root monkeyPath.bytes),
          (findRoute s.rootNode monkeyPath.bytes).map fun f =>
            (f.2.lookup (str "monkey_name"), f.2.lookup (str "banana_number")))) =
        some (false, some (some (str "bongo"), some (str "33"))) := by
    decide +kernel
  obtain ⟨s, hs, hf⟩ := Option.map_eq_some_iff.mp hrun
  have hreach : ((Routes.machine ℕ).guarded CutsOk).Reachable s :=
    .guarded_foldlM (fun _ _ _ he => he) rfl hs
  obtain ⟨hends, hf⟩ := Prod.mk.inj hf
  obtain ⟨⟨r, pmap⟩, hfound, hnames⟩ := Option.map_eq_some_iff.mp hf
  obtain ⟨hname, hnumber⟩ := Prod.mk.inj hnames
  have hends : ¬ EndsAtSplit s.root monkeyPath.bytes := of_decide_eq_false hends
  exact ⟨s, hends, r, pmap, (lookup_binds_iff s hreach monkeyPath r pmap hfound).mpr hends, hname,
    hnumber⟩

def dirPath : Path := ⟨str "/x/", by decide +kernel, by decide +kernel⟩

/-- After `/<a>/b` and `/<a>/c` the path `/x/` ends at the split: nothing is found, and `a` is bound
all the same. -/
theorem split_binds_without_data : ∃ s : Routes ℕ, (Routes.machine ℕ).Reachable s ∧ ∃ r pmap,
    findRoute s.rootNode dirPath.bytes = some (r, pmap) ∧ r = none ∧
      pmap.lookup (str "a") = some (str "x") ∧ ¬ BoundAs s dirPath r pmap := by
  have hrun : ([add "/<a>/b" 1, add "/<a>/c" 2].foldlM Routes.next ⟨none, []⟩).map
      (fun s => findRoute s.rootNode dirPath.bytes) =
        some (some (none, [(str "a", str "x")])) := by
    decide +kernel
  obtain ⟨s, hs, hf⟩ := Option.map_eq_some_iff.mp hrun
  refine ⟨s, .foldlM (fun s c t he => he) (.start rfl) hs, _, _, hf, rfl, by decide, ?_⟩
  exact List.cons_ne_nil _ _

end UrlRouter

end Is2
