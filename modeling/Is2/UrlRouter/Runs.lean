import Is2.Core.Machine
import Is2.UrlRouter.Lookup
import Is2.UrlRouter.Losses

/-!
# Which routes are found?

A run is a sequence of `add_route` calls that all end; what was added is the list of the routes and
data of the calls that returned 0.  A lookup should find data of a route that takes the path, and
should find some whenever there is such a route.  Neither holds of all runs:

* `pattern_diff` and `pattern_sub` count parameters and terminals differently.  A cut that falls
  inside a parameter hangs one route's tail under half of another's parameter, and a cut in front
  of a `*` loses it;
* the new node of a route whose last piece is already the pattern of an edge is dropped, while the
  call returns 0;
* a lookup stops at a node without data.

`CutsSound` excludes cuts inside a parameter, `CutsOk` also those that lose a token, and `AddOk` the
dropped node as well.  In runs with sound cuts each row of the trie is one of the routes that were
added, or thinned out of one, so a lookup is sound (`found_route_was_added`).  In runs that meet
`AddOk` the rows are exactly the routes, and a lookup is complete on exactly the paths whose lookup
does not end at a node without data (`added_route_is_found`).
-/

namespace Is2

namespace UrlRouter

variable {δ : Type}

/-! ## Runs -/

/-- The router, with the routes and data of the calls that returned 0. -/
structure Routes (δ : Type) where
  rootNode : Option (Node δ)
  added : List (Str × δ)

/-- A call of `add_route` that ends within `depth` nested insertions. -/
structure AddCall (δ : Type) where
  route : Str
  data : δ
  depth : ℕ

namespace Routes

/-- The root, where there is none yet the one that the first call makes. -/
def root (s : Routes δ) : Node δ := s.rootNode.getD .new

def next (s : Routes δ) (c : AddCall δ) : Option (Routes δ) := do
  let (rootNode, status) ← addRoute c.depth s.rootNode c.route (some c.data)
  some ⟨rootNode, if status = 0 then s.added ++ [(c.route, c.data)] else s.added⟩

variable (δ) in
/-- All runs of `add_route` calls on a new router. -/
def machine : Machine (Routes δ) (AddCall δ) where
  start s := s = ⟨none, []⟩
  step s c t := next s c = some t

/-- What a call does: it refuses the route, or inserts its pattern. -/
lemma next_cases {s t : Routes δ} {c : AddCall δ} (h : next s c = some t) :
    t = s ∨ ∃ pattern n ok, convertPathToPattern c.route = some pattern ∧
      s.root.insertRoute c.depth pattern (some c.data) = some (n, ok) ∧
      t = ⟨some n, if ok then s.added ++ [(c.route, c.data)] else s.added⟩ := by
  obtain ⟨⟨rootNode, status⟩, hadd, h⟩ := Option.bind_eq_some_iff.mp h
  obtain rfl := Option.some.inj h
  rw [addRoute] at hadd
  split at hadd
  · obtain ⟨rfl, rfl⟩ := Prod.mk.inj (Option.some.inj hadd)
    exact .inl rfl
  · next pattern hpattern =>
      obtain ⟨⟨n, ok⟩, hins, hadd⟩ := Option.bind_eq_some_iff.mp hadd
      obtain ⟨rfl, rfl⟩ := Prod.mk.inj (Option.some.inj hadd)
      exact .inr ⟨pattern, n, ok, hpattern, hins, by cases ok <;> rfl⟩

end Routes

/-- A path as it is passed to `find_route`: NUL terminated, with its exact length. -/
structure Path where
  bytes : Str
  noNul : 0 ∉ bytes
  fits : bytes.length < 2 ^ 32

/-- **The route takes the path**: strings literally, a parameter up to the next slash or the end,
and `*` the whole remainder. -/
def RouteMatches (route : Str) (p : Path) : Prop :=
  ∃ pattern ∈ convertPathToPattern route, Tok.Matches slash (toks pattern) p.bytes

instance (route : Str) (p : Path) : Decidable (RouteMatches route p) :=
  inferInstanceAs (Decidable (∃ pattern ∈ convertPathToPattern route,
    Tok.Matches slash (toks pattern) p.bytes))

/-! ## Soundness -/

/-- What the cuts of a call do to the rows, up to a relation. -/
def CallUpTo (R : List (Tok UInt8) → List (Tok UInt8) → Prop) (s : Routes δ) (c : AddCall δ) :
    Prop :=
  ∀ pattern ∈ convertPathToPattern c.route, ∀ v ∈ s.root.visits c.depth pattern,
    CutsUpTo R v.1 v.2

/-- Every row of the trie is a route that was added, up to the relation. -/
def Routes.Within (R : List (Tok UInt8) → List (Tok UInt8) → Prop) (s : Routes δ) : Prop :=
  ∀ w d, s.root.Spells w d →
    ∃ x ∈ s.added, x.2 = d ∧ ∃ pattern ∈ convertPathToPattern x.1, R w (toks pattern)

section Within

variable {R : List (Tok UInt8) → List (Tok UInt8) → Prop}

lemma Routes.Within.next (hR : Congruent R) {s t : Routes δ} {c : AddCall δ} (hs : s.Within R)
    (hok : CallUpTo R s c) (h : Routes.next s c = some t) : t.Within R := by
  rcases Routes.next_cases h with rfl | ⟨pattern, n, ok, hpattern, hins, rfl⟩
  · exact hs
  intro w d hw
  rcases insertRoute_rows hR hins (hok pattern hpattern) hw with ⟨v, hv, hold⟩ | ⟨rfl, hd, hnew⟩
  · obtain ⟨x, hx, hd, pattern', hpattern', hrow⟩ := hs v d hold
    refine ⟨x, ?_, hd, pattern', hpattern', hR.trans hv hrow⟩
    dsimp only
    split_ifs
    · exact List.mem_append_left _ hx
    · exact hx
  · exact ⟨(c.route, c.data), List.mem_append_right _ (List.mem_singleton_self _),
      Option.some.inj hd, pattern, hpattern, hnew⟩

lemma Routes.within_start : (⟨none, []⟩ : Routes δ).Within R := by
  rintro w d ⟨e, he, -⟩
  cases he

/-- In every run whose cuts are so, the trie holds nothing else. -/
lemma Routes.within_of_run (hR : Congruent R) {ok : Routes δ → AddCall δ → Prop}
    (hok : ∀ s c, ok s c → CallUpTo R s c) {s : Routes δ}
    (hs : ((Routes.machine δ).guarded ok).Reachable s) : s.Within R := by
  refine Machine.Reachable.invariant (P := Routes.Within R) ?_ ?_ hs
  · rintro s rfl
    exact Routes.within_start
  · rintro s c t hs ⟨hc, hst⟩
    exact hs.next hR (hok s c hc) hst

end Within

/-- **All cuts are clean**: the route is short enough for 32 bit counts, and at each node that the
insertion visits, the cut is between the same tokens of the edge and of the new pattern, in front
of a character. -/
def CutsOk (s : Routes δ) (c : AddCall δ) : Prop :=
  c.route.length + 1 < 2 ^ 31 ∧ ∀ pattern ∈ convertPathToPattern c.route,
    ∀ v ∈ s.root.visits c.depth pattern, CutOk v.1 v.2

instance (s : Routes δ) (c : AddCall δ) : Decidable (CutsOk s c) :=
  inferInstanceAs (Decidable (_ ∧ ∀ pattern ∈ convertPathToPattern c.route,
    ∀ v ∈ s.root.visits c.depth pattern, CutOk v.1 v.2))

/-- Every row of the trie is a route that was added. -/
def Routes.Sound (s : Routes δ) : Prop :=
  ∀ w d, s.root.Spells w d →
    ∃ x ∈ s.added, x.2 = d ∧ ∃ pattern ∈ convertPathToPattern x.1, w = toks pattern

lemma CutsOk.upTo {s : Routes δ} {c : AddCall δ} (h : CutsOk s c) : CallUpTo Eq s c :=
  fun pattern hpattern v hv => (h.2 pattern hpattern v hv).upTo

lemma Routes.Sound.next {s t : Routes δ} {c : AddCall δ} (hs : s.Sound) (hok : CutsOk s c)
    (h : Routes.next s c = some t) : t.Sound :=
  Routes.Within.next congruent_eq hs hok.upTo h

lemma Routes.sound_of_run {s : Routes δ} (hs : ((Routes.machine δ).guarded CutsOk).Reachable s) :
    s.Sound :=
  Routes.within_of_run congruent_eq (fun _ _ hok => hok.upTo) hs

/-- **All cuts are sound**: the route is short enough for 32 bit counts, and at each node that the
insertion visits, the cut is between the same tokens of the edge and of the new pattern. -/
def CutsSound (s : Routes δ) (c : AddCall δ) : Prop :=
  c.route.length + 1 < 2 ^ 31 ∧ ∀ pattern ∈ convertPathToPattern c.route,
    ∀ v ∈ s.root.visits c.depth pattern, CutSound v.1 v.2

instance (s : Routes δ) (c : AddCall δ) : Decidable (CutsSound s c) :=
  inferInstanceAs (Decidable (_ ∧ ∀ pattern ∈ convertPathToPattern c.route,
    ∀ v ∈ s.root.visits c.depth pattern, CutSound v.1 v.2))

lemma CutsSound.upTo {s : Routes δ} {c : AddCall δ} (h : CutsSound s c) : CallUpTo Thinned s c :=
  fun pattern hpattern v hv => (h.2 pattern hpattern v hv).upTo

/-- **What a lookup finds was added by a route that takes the path**, in every run whose calls cut
between tokens. -/
theorem found_route_was_added (s : Routes δ)
    (hs : ((Routes.machine δ).guarded CutsSound).Reachable s) (p : Path) (d : δ) (pmap : PMap)
    (hfound : findRoute s.rootNode p.bytes = some (some d, pmap)) :
    ∃ x ∈ s.added, x.2 = d ∧ RouteMatches x.1 p := by
  have hrows := Routes.within_of_run Thinned.congruent (fun _ _ hok => hok.upTo) hs
  rcases s with ⟨_ | n, added⟩
  · cases hfound
  · obtain ⟨w, hw, hm, -⟩ := Node.findRoute_spells p.noNul n hfound
    obtain ⟨x, hx, hd, pattern, hpattern, hthin⟩ := hrows w d hw
    have hshaped := shaped_convertFrom (by simp) hpattern
    exact ⟨x, hx, hd, pattern, hpattern, hthin.matches_of hshaped hm⟩

/-! The routes of the router's own tests are a run with sound cuts; half a parameter is not. -/

/-- The bytes of an ASCII string. -/
def str (s : String) : Str := s.toList.map fun c => c.toNat.toUInt8

/-- A call with room for eight nested insertions. -/
def add (route : String) (data : ℕ) : AddCall ℕ := ⟨str route, data, 8⟩

/-- The routes that the tests build, with their data. -/
def testRoutes : List (AddCall ℕ) :=
  [add "/monkeys/<monkey_name>/banana/<banana_number>" 1,
    add "/monkeez/<monkey_name>/banana/<banana_number>" 33,
    add "/circus/<circus_number>/hot_dog/<hot_dog_name>" 45,
    add "/cats_are/cool/dog/are/smelly" 2,
    add "/sweet/donuts/*" 1337,
    add "/bots*" 1338,
    add "/sweet/cakes/*/cupcakes" 5337,
    add "/bloop_bleep" 8337,
    add "/bloop" 9337]

def monkeyPath : Path := ⟨str "/monkeys/bongo/banana/33", by decide +kernel, by decide +kernel⟩

/-- The routes of the tests: data 1 is found on its path. -/
theorem found_route_was_added_tests : ∃ s : Routes ℕ,
    (findRoute s.rootNode monkeyPath.bytes).map Prod.fst = some (some 1) ∧
      ∃ x ∈ s.added, x.2 = 1 ∧ RouteMatches x.1 monkeyPath := by
  have hrun : (testRoutes.foldlM
      (fun s c => if CutsSound s c then Routes.next s c else none) ⟨none, []⟩).map
        (fun s => (findRoute s.rootNode monkeyPath.bytes).map Prod.fst) = some (some (some 1)) := by
    decide +kernel
  obtain ⟨s, hs, hf⟩ := Option.map_eq_some_iff.mp hrun
  have hreach : ((Routes.machine ℕ).guarded CutsSound).Reachable s :=
    .guarded_foldlM (fun _ _ _ he => he) rfl hs
  refine ⟨s, hf, ?_⟩
  obtain ⟨⟨_, pmap⟩, hfound, rfl⟩ := Option.map_eq_some_iff.mp hf
  exact found_route_was_added s hreach monkeyPath 1 pmap hfound

/-- A terminal at a cut is lost: what is found is still right. -/
example : ([add "/ab*" 1, add "/ab" 2].foldlM
    (fun s c => if CutsSound s c then Routes.next s c else none) ⟨none, []⟩).map
      (fun s => (findRoute s.rootNode (str "/ab")).map Prod.fst) = some (some (some 2)) := by
  decide +kernel

def zzzPath : Path := ⟨str "/zzz/c", by decide +kernel, by decide +kernel⟩

/-- After `/<ab>`, the tail of `/a/c` hangs under half of its parameter: `/zzz/c` finds it. -/
theorem literal_tail_under_parameter : ∃ s : Routes ℕ, (Routes.machine ℕ).Reachable s ∧
    (findRoute s.rootNode zzzPath.bytes).map Prod.fst = some (some 2) ∧
      ¬ ∃ x ∈ s.added, x.2 = 2 ∧ RouteMatches x.1 zzzPath := by
  have hrun : ([add "/<ab>" 1, add "/a/c" 2].foldlM Routes.next ⟨none, []⟩).map
      (fun s => ((findRoute s.rootNode zzzPath.bytes).map Prod.fst,
        decide (∃ x ∈ s.added, x.2 = 2 ∧ RouteMatches x.1 zzzPath))) =
        some (some (some 2), false) := by
    decide +kernel
  obtain ⟨s, hs, hf⟩ := Option.map_eq_some_iff.mp hrun
  obtain ⟨hfound, hnone⟩ := Prod.mk.inj hf
  exact ⟨s, .foldlM (fun s c t he => he) (.start rfl) hs, hfound, of_decide_eq_false hnone⟩

/-! ## Completeness -/

/-- **A call that keeps lookups complete**: all cuts are clean, where a new edge is made there is
none with its pattern, and no string of the route holds a NUL. -/
def AddOk (s : Routes δ) (c : AddCall δ) : Prop :=
  c.route.length + 1 < 2 ^ 31 ∧ ∀ pattern ∈ convertPathToPattern c.route,
    Tok.lit 0 ∉ toks pattern ∧
      ∀ v ∈ s.root.visits c.depth pattern, CutOk v.1 v.2 ∧ NoTwin v.1 v.2

instance (s : Routes δ) (c : AddCall δ) : Decidable (AddOk s c) :=
  inferInstanceAs (Decidable (_ ∧ ∀ pattern ∈ convertPathToPattern c.route,
    Tok.lit 0 ∉ toks pattern ∧
      ∀ v ∈ s.root.visits c.depth pattern, CutOk v.1 v.2 ∧ NoTwin v.1 v.2))

/-- Every route that was added is a row of the trie, and no pattern holds a NUL. -/
def Routes.Complete (s : Routes δ) : Prop :=
  (∀ x ∈ s.added, ∀ pattern ∈ convertPathToPattern x.1, s.root.Spells (toks pattern) x.2) ∧
    ¬ s.root.Holds (.lit 0)

/-- Every route that was added is a row of the trie. -/
def Routes.Rows (s : Routes δ) : Prop :=
  ∀ x ∈ s.added, ∀ pattern ∈ convertPathToPattern x.1, s.root.Spells (toks pattern) x.2

lemma Routes.Rows.next {s t : Routes δ} {c : AddCall δ} (hs : s.Rows)
    (hok : ∀ pattern ∈ convertPathToPattern c.route, ∀ v ∈ s.root.visits c.depth pattern,
      CutOk v.1 v.2 ∧ NoTwin v.1 v.2) (h : Routes.next s c = some t) : t.Rows := by
  rcases Routes.next_cases h with rfl | ⟨pattern, n, ok, hpattern, hins, rfl⟩
  · exact hs
  have hvisits := hok pattern hpattern
  have hkept : ∀ x ∈ s.added, ∀ pattern' ∈ convertPathToPattern x.1,
      n.Spells (toks pattern') x.2 :=
    fun x hx pattern' hp' =>
      insertRoute_keeps hins (fun v hv => (hvisits v hv).1) (hs x hx pattern' hp')
  cases ok with
  | false => exact hkept
  | true =>
      intro x hx pattern' hp'
      rcases List.mem_append.mp hx with hx | hx
      · exact hkept x hx pattern' hp'
      · obtain rfl := List.mem_singleton.mp hx
        obtain rfl := Option.some.inj (hpattern.symm.trans hp')
        exact insertRoute_adds hins hvisits

lemma Routes.Complete.next {s t : Routes δ} {c : AddCall δ} (hs : s.Complete) (hok : AddOk s c)
    (h : Routes.next s c = some t) : t.Complete := by
  refine ⟨Routes.Rows.next hs.1 (fun pattern hp => (hok.2 pattern hp).2) h, ?_⟩
  rcases Routes.next_cases h with rfl | ⟨pattern, n, ok, hpattern, hins, rfl⟩
  · exact hs.2
  obtain ⟨hlit, hvisits⟩ := hok.2 pattern hpattern
  intro ht
  rcases insertRoute_holds hins (fun v hv => (hvisits v hv).1) ht with ht | ht
  · exact hs.2 ht
  · exact hlit ht

lemma Routes.complete_start : (⟨none, []⟩ : Routes δ).Complete := by
  refine ⟨nofun, ?_⟩
  rintro ⟨e, he, -⟩
  cases he

lemma Routes.complete_of_run {s : Routes δ} (hs : ((Routes.machine δ).guarded AddOk).Reachable s) :
    s.Complete := by
  refine Machine.Reachable.invariant (P := Routes.Complete) ?_ ?_ hs
  · rintro s rfl
    exact Routes.complete_start
  · rintro s c t hs ⟨hok, hst⟩
    exact hs.next hok hst

/-- **A path that an added route takes is found** if and only if its lookup does not end at a dead
end, in every run whose calls meet `AddOk`. -/
theorem added_route_is_found (s : Routes δ) (hs : ((Routes.machine δ).guarded AddOk).Reachable s)
    (p : Path) (x : Str × δ) (hx : x ∈ s.added) (hm : RouteMatches x.1 p) :
    (∃ d pmap, findRoute s.rootNode p.bytes = some (some d, pmap)) ↔
      s.root.ending p.bytes ≠ .deadEnd := by
  obtain ⟨hrows, hnul⟩ := Routes.complete_of_run hs
  obtain ⟨pattern, hpattern, hm⟩ := hm
  have hrow := hrows x hx pattern hpattern
  rcases s with ⟨_ | n, added⟩
  · obtain ⟨e, he, -⟩ := hrow
    cases he
  obtain ⟨r, pmap, hfound, htells⟩ := Node.findRoute_tells p.noNul n hnul
  constructor
  · rintro ⟨d, pmap', hd⟩
    obtain ⟨rfl, -⟩ := Prod.mk.inj (Option.some.inj (hfound.symm.trans hd))
    change n.ending p.bytes ≠ .deadEnd
    rw [htells.data_of_some]
    nofun
  · intro hend
    change n.ending p.bytes ≠ .deadEnd at hend
    cases h : n.ending p.bytes with
    | data =>
        rw [h] at htells
        obtain ⟨d, rfl⟩ := Option.ne_none_iff_exists'.mp htells
        exact ⟨d, pmap, hfound⟩
    | lost =>
        rw [h] at htells
        exact absurd ⟨x.2, toks pattern, hrow, hm⟩ htells.2
    | deadEnd => exact absurd h hend

def bloopPath : Path := ⟨str "/bloop", by decide +kernel, by decide +kernel⟩

/-- The routes of the tests: the last one is found, on the edge that it splits. -/
theorem added_route_is_found_tests : ∃ s : Routes ℕ, (Routes.machine ℕ).Reachable s ∧
    (str "/bloop", 9337) ∈ s.added ∧ RouteMatches (str "/bloop") bloopPath ∧
      ∃ d pmap, findRoute s.rootNode bloopPath.bytes = some (some d, pmap) := by
  have hrun : (testRoutes.foldlM
      (fun s c => if AddOk s c then Routes.next s c else none) ⟨none, []⟩).map
        (fun s => (decide ((str "/bloop", 9337) ∈ s.added), s.root.ending bloopPath.bytes)) =
        some (true, .data) := by
    decide +kernel
  have hm : RouteMatches (str "/bloop") bloopPath := by decide +kernel
  obtain ⟨s, hs, hf⟩ := Option.map_eq_some_iff.mp hrun
  obtain ⟨hadded, hend⟩ := Prod.mk.inj hf
  have hreach : ((Routes.machine ℕ).guarded AddOk).Reachable s :=
    .guarded_foldlM (fun _ _ _ he => he) rfl hs
  refine ⟨s, hreach.of_guarded, of_decide_eq_true hadded, hm, ?_⟩
  refine (added_route_is_found s hreach bloopPath _ (of_decide_eq_true hadded) hm).mpr ?_
  rw [hend]
  nofun

def abPath : Path := ⟨str "/ab", by decide +kernel, by decide +kernel⟩

/-- The edges `/abc` and `/abd` share a node without data.  Behind `/<x>` it is not reached, in
front of it the lookup ends there. -/
example : [[add "/<x>" 1, add "/abc" 2, add "/abd" 3],
    [add "/abc" 2, add "/abd" 3, add "/<x>" 1]].map
    (fun calls => (calls.foldlM (fun s c => if AddOk s c then Routes.next s c else none)
      ⟨none, []⟩).map fun s => s.root.ending abPath.bytes) = [some .data, some .deadEnd] := by
  decide +kernel

def abzPath : Path := ⟨str "/abz", by decide +kernel, by decide +kernel⟩

/-- `/ab` cuts the edge of `/ab*` in front of the `*`, which is lost: `/abz` is not found. -/
theorem terminal_lost_at_cut : ∃ s : Routes ℕ, (Routes.machine ℕ).Reachable s ∧
    (∃ x ∈ s.added, RouteMatches x.1 abzPath) ∧
      (findRoute s.rootNode abzPath.bytes).map Prod.fst = some none := by
  have hrun : ([add "/ab*" 1, add "/ab" 2].foldlM Routes.next ⟨none, []⟩).map
      (fun s => (decide (∃ x ∈ s.added, RouteMatches x.1 abzPath),
        (findRoute s.rootNode abzPath.bytes).map Prod.fst)) = some (true, some none) := by
    decide +kernel
  obtain ⟨s, hs, hf⟩ := Option.map_eq_some_iff.mp hrun
  obtain ⟨hadded, hnone⟩ := Prod.mk.inj hf
  exact ⟨s, .foldlM (fun s c t he => he) (.start rfl) hs, of_decide_eq_true hadded, hnone⟩

end UrlRouter

end Is2
