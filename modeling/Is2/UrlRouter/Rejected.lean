import Is2.UrlRouter.Ends

/-!
# Does a rejected route leave the router as it was?

`insert_route` runs a collision test first, and a route that fails it is refused before anything is
touched.  The test does not look behind a cut: there the edge is split, and only then the nested
call runs a test of its own.  A route that is refused by that one leaves the split behind.  The node
at the split has no data, and a lookup that ends there stops.

`rejected_route_unchanged` says that these are the two cases: the test at the root refuses, and no
lookup changes; or it does not, and the trie has more edges than before.
-/

namespace Is2

namespace UrlRouter

variable {δ : Type}

/-! ## The edges of the trie -/

mutual

/-- How many edges there are in the trie. -/
def Node.edges : Node δ → ℕ
  | .mk _ _ edgeList => edgesFrom edgeList

def edgesFrom : List (Edge δ) → ℕ
  | [] => 0
  | e :: es => e.edges + edgesFrom es

def Edge.edges : Edge δ → ℕ
  | .mk _ child => 1 + child.edges

end

lemma Node.edges_eq (n : Node δ) : n.edges = edgesFrom n.edgeList := by
  rcases n with ⟨endpoint, data, edgeList⟩
  rw [Node.edges]
  rfl

lemma Edge.edges_mk (pattern : Pattern) (child : Node δ) :
    (Edge.mk pattern child).edges = 1 + child.edges := by
  rw [Edge.edges]

lemma Edge.edges_eq (e : Edge δ) : e.edges = 1 + e.child.edges := by
  rcases e with ⟨pattern, child⟩
  exact Edge.edges_mk pattern child

lemma edgesFrom_set {es : List (Edge δ)} {i : ℕ} {e : Edge δ} (x : Edge δ)
    (he : es[i]? = some e) : edgesFrom (es.set i x) + e.edges = edgesFrom es + x.edges := by
  induction es generalizing i with
  | nil => simp at he
  | cons y es ih =>
      cases i with
      | zero =>
          simp only [List.getElem?_cons_zero, Option.some.injEq] at he
          subst he
          simp only [List.set_cons_zero, edgesFrom]
          omega
      | succ i =>
          have := ih (by simpa using he)
          simp only [List.set_cons_succ, edgesFrom]
          omega

/-- A replaced edge counts for what it has more below it. -/
lemma Node.edges_setEdge {n : Node δ} {i : ℕ} {e : Edge δ} (x : Edge δ)
    (he : n.edgeList[i]? = some e) : (n.setEdge i x).edges + e.edges = n.edges + x.edges := by
  rw [Node.edges_eq, n.edges_eq]
  exact edgesFrom_set x he

lemma edgesFrom_append (es es' : List (Edge δ)) :
    edgesFrom (es ++ es') = edgesFrom es + edgesFrom es' := by
  induction es with
  | nil => simp [edgesFrom]
  | cons e es ih =>
      rw [List.cons_append, edgesFrom, edgesFrom, ih]
      omega

/-- A split adds an edge. -/
lemma edges_branch (e : Edge δ) (k : ℕ) : (e.branch k).child.edges = e.edges := by
  rw [Node.edges_eq, branch_child, edgesFrom, edgesFrom, Edge.edges_mk, e.edges_eq]
  omega

/-- An insertion takes no edge away. -/
lemma insertRoute_edges {depth : ℕ} {n n' : Node δ} {a : Pattern} {data : Option δ} {ok : Bool}
    (h : n.insertRoute depth a data = some (n', ok)) : n.edges ≤ n'.edges := by
  induction depth generalizing n n' a ok with
  | zero => cases h
  | succ depth ih =>
      cases insertRoute_inserted h with
      | refused => exact le_rfl
      | connected _ _ =>
          rw [Node.connect]
          split
          · exact le_rfl
          · rw [n.edges_eq, Node.edges, edgesFrom_append]
            exact Nat.le_add_right _ _
      | @descended i e child _ sub he hpos hlcp hsub hv hins =>
          have hset := Node.edges_setEdge (.mk e.pattern child) he
          have hle := ih hins
          rw [Edge.edges_mk, e.edges_eq] at hset
          omega
      | @endpoint i k e he hpos hlcp hend hv =>
          have hset := Node.edges_setEdge
            (.mk (e.branch k).pattern ((e.branch k).child.setData data)) he
          have hsplit : ((e.branch k).child.setData data).edges = e.edges := by
            rw [Node.edges_eq, ← edges_branch e k, Node.edges_eq]
            rfl
          rw [Edge.edges_mk, hsplit] at hset
          omega
      | @branched i k e child _ sub he hpos hlcp hsub hv hins =>
          have hset := Node.edges_setEdge (.mk (e.branch k).pattern child) he
          have hle := ih hins
          rw [edges_branch] at hle
          rw [Edge.edges_mk] at hset
          omega

/-! ## A route that is refused below a split -/

/-- **An insertion that passes the collision test and fails has split an edge.** -/
lemma insertRoute_split {depth : ℕ} {n n' : Node δ} {a : Pattern} {data : Option δ}
    (h : n.insertRoute depth a data = some (n', false))
    (hfree : n.collisionTest depth a = some true) : n.edges < n'.edges := by
  induction depth generalizing n n' a with
  | zero => cases h
  | succ depth ih =>
      rw [Node.insertRoute, hfree] at h
      simp only [Option.bind_eq_bind, Option.bind_some, Bool.true_eq_false, if_false] at h
      rw [Node.collisionTest] at hfree
      obtain ⟨r, hlcp, hfree⟩ := Option.bind_eq_some_iff.mp hfree
      rw [hlcp, Option.bind_some] at h
      cases r with
      | none => cases hfree
      | some q =>
      obtain ⟨k, common⟩ := q
      simp only at h hfree
      by_cases hk : k = 0
      · rw [if_pos hk] at h
        cases h
      rw [if_neg hk] at h hfree
      cases common with
      | none => cases h
      | some i =>
      obtain ⟨j, hj, h⟩ := Option.bind_eq_some_iff.mp h
      cases hj
      obtain ⟨e, he, h⟩ := Option.bind_eq_some_iff.mp h
      simp only [Option.bind_eq_bind, Option.bind_some, he] at hfree
      split_ifs at h hfree with hfull hsub hlt hend
      · cases hfree
      · -- the test has passed below, so it is below that the edge was split
        obtain ⟨⟨child, ok⟩, hins, h⟩ := Option.bind_eq_some_iff.mp h
        obtain ⟨rfl, rfl⟩ := Prod.mk.inj (Option.some.inj h)
        have hset := Node.edges_setEdge (.mk e.pattern child) he
        have hlt := ih hins hfree
        rw [Edge.edges_mk, e.edges_eq] at hset
        dsimp only
        omega
      · cases h
      · obtain ⟨⟨child, ok⟩, hins, h⟩ := Option.bind_eq_some_iff.mp h
        obtain ⟨rfl, rfl⟩ := Prod.mk.inj (Option.some.inj h)
        have hset := Node.edges_setEdge (.mk (e.branch k).pattern child) he
        have hle := insertRoute_edges hins
        rw [edges_branch] at hle
        rw [Edge.edges_mk] at hset
        dsimp only
        omega
      · have := lcp_le hlcp he
        omega

/-- **The route is refused at once**: it is malformed, or the collision test of the root refuses its
pattern. -/
def RefusedAtOnce (rootNode : Option (Node δ)) (route : Str) : Prop :=
  ∀ pattern ∈ convertPathToPattern route,
    ∃ depth, (rootNode.getD .new).collisionTest depth pattern = some false

/-- **A rejected route changes no lookup if it is refused at once**; if not, an edge was split
before it was refused. -/
theorem rejected_route_unchanged (depth : ℕ) (rootNode root' : Option (Node δ)) (route : Str)
    (data : Option δ) (h : addRoute depth rootNode route data = some (root', -1)) :
    (RefusedAtOnce rootNode route → ∀ p, findRoute root' p = findRoute rootNode p) ∧
      (¬ RefusedAtOnce rootNode route →
        (rootNode.getD .new).edges < (root'.getD .new).edges) := by
  rw [addRoute] at h
  split at h
  · next hnone =>
      obtain ⟨rfl, -⟩ := Prod.mk.inj (Option.some.inj h)
      refine ⟨fun _ _ => rfl, fun hrefused => absurd ?_ hrefused⟩
      rintro pattern hpattern
      cases hnone.symm.trans hpattern
  · next pattern hpattern =>
      obtain ⟨⟨n, ok⟩, hins, h⟩ := Option.bind_eq_some_iff.mp h
      obtain ⟨rfl, hok⟩ := Prod.mk.inj (Option.some.inj h)
      cases ok with
      | true => cases hok
      | false =>
          obtain ⟨d, rfl⟩ : ∃ d, depth = d + 1 := by
            cases depth with
            | zero => cases hins
            | succ d => exact ⟨d, rfl⟩
          obtain ⟨free, hfree, hrest⟩ : ∃ free, (rootNode.getD .new).collisionTest (d + 1) pattern =
              some free ∧ (free = false → n = rootNode.getD .new) := by
            rw [Node.insertRoute] at hins
            obtain ⟨free, hfree, hins⟩ := Option.bind_eq_some_iff.mp hins
            refine ⟨free, hfree, ?_⟩
            rintro rfl
            exact (Prod.mk.inj (Option.some.inj hins)).1.symm
          cases free with
          | false =>
              obtain rfl := hrest rfl
              refine ⟨fun _ p => ?_, fun hrefused => absurd ?_ hrefused⟩
              · cases rootNode with
                | none => rfl
                | some n => rfl
              · rintro pattern' hpattern'
                obtain rfl := Option.some.inj (hpattern.symm.trans hpattern')
                exact ⟨d + 1, hfree⟩
          | true =>
              refine ⟨fun hrefused => ?_, fun _ => insertRoute_split hins hfree⟩
              obtain ⟨depth', hfalse⟩ := hrefused pattern hpattern
              have h1 := collisionTest_mono hfree (Nat.le_add_right (d + 1) depth')
              have h2 := collisionTest_mono hfalse (Nat.le_add_left depth' (d + 1))
              cases h1.symm.trans h2

/-- A second `/a` is refused at once. -/
theorem rejected_route_unchanged_twice : ∃ s : Routes ℕ, (Routes.machine ℕ).Reachable s ∧
    s.added = [(str "/a", 1)] ∧ ∃ root',
      addRoute 8 s.rootNode (str "/a") (some 2) = some (root', -1) ∧
        ∀ p, findRoute root' p = findRoute s.rootNode p := by
  let n : Node ℕ := .mk 0 none [.mk [.string [47, 97]] (.mk 1 (some 1) [])]
  have hnext : Routes.next ⟨none, []⟩ (add "/a" 1) = some ⟨some n, [(str "/a", 1)]⟩ := rfl
  have hadd : addRoute 8 (some n) (str "/a") (some 2) = some (some n, -1) := rfl
  have hrefused : RefusedAtOnce (some n) (str "/a") := by
    intro pattern hpattern
    obtain rfl : pattern = [.string [47, 97]] := Option.some.inj hpattern.symm
    exact ⟨1, rfl⟩
  refine ⟨_, .step (.start rfl) hnext, rfl, some n, hadd, ?_⟩
  exact (rejected_route_unchanged 8 (some n) (some n) (str "/a") (some 2) hadd).1 hrefused

/-- After `/ab/cde`, `/zz` and `/<abx>`, the route `/ab/<c>` is rejected, and the split that it
leaves takes the path `/ab` from the third route. -/
theorem rejected_route_loses_path : ∃ s : Routes ℕ, (Routes.machine ℕ).Reachable s ∧ ∃ root',
    addRoute 8 s.rootNode (str "/ab/<c>") (some 4) = some (root', -1) ∧
      (findRoute s.rootNode abPath.bytes).map Prod.fst = some (some 3) ∧
      (findRoute root' abPath.bytes).map Prod.fst = some none := by
  have hrun : ([add "/ab/cde" 1, add "/zz" 2, add "/<abx>" 3].foldlM Routes.next ⟨none, []⟩).map
      (fun s => ((addRoute 8 s.rootNode (str "/ab/<c>") (some 4)).map fun r =>
          (r.2, (findRoute r.1 abPath.bytes).map Prod.fst),
        (findRoute s.rootNode abPath.bytes).map Prod.fst)) =
        some (some (-1, some none), some (some 3)) := by
    decide +kernel
  obtain ⟨s, hs, hf⟩ := Option.map_eq_some_iff.mp hrun
  obtain ⟨hadd, hbefore⟩ := Prod.mk.inj hf
  obtain ⟨⟨root', status⟩, hadd, hafter⟩ := Option.map_eq_some_iff.mp hadd
  obtain ⟨rfl, hafter⟩ := Prod.mk.inj hafter
  exact ⟨s, .foldlM (fun s c t he => he) (.start rfl) hs, root', hadd, hbefore, hafter⟩

end UrlRouter

end Is2
