import Is2.Core.Memory
import Is2.Core.Words
import Is2.UrlRouter.Bindings

/-!
# Does a lookup read behind the path?

`find_route` is called with a pointer into the URL and the length of the path; the query follows in
the same buffer.  In `Is2.UrlRouter.Model` the path ends with a NUL.  Here `match_route` gets what
stands in memory: the scan of a parameter is bounded by the length, and `strncmp` is bounded by the
part it looks for only.  A part that goes on where the path has ended is compared with the query,
and if it is found there, the remaining length is taken below zero.

The nested calls of `find_route` get a copy of the suffix, and a copy ends with a NUL.  So only the
edges of the root can run into the query, and the root has one edge at most.  Below the root a part
is compared with what is behind the copy only if it holds a NUL itself; `Node.copyWalk` follows the
lookup there.  `local_iff` says exactly on which paths a lookup depends on the path alone.

`wrapped` is a history that no code reads: a subtraction from `l_route_len` has gone below zero.
-/

namespace Is2

namespace UrlRouter

variable {δ : Type}

/-! ## `match_route` -/

/-- `strncmp(str, ptr, str.length()) == 0` -/
def strncmpAt : Str → Memory → Bool
  | [], _ => true
  | x :: xs, m => x = m 0 && (x = 0 || strncmpAt xs (m.skip 1))

/-- How far the scan of a parameter goes, when at most so many characters are left. -/
def scan : ℕ → Memory → ℕ
  | 0, _ => 0
  | n + 1, m => if m 0 = slash then 0 else scan n (m.skip 1) + 1

/-- `l_route_ptr`, `l_route_len`, `l_len` and `ao_url_pmap`. -/
structure Cursor where
  routePtr : Memory
  routeLen : ℕ
  len : ℕ
  pmap : PMap
  wrapped : Bool

/-- The pointer and the two counts move on. -/
def Cursor.advance (c : Cursor) (k : ℕ) : Cursor where
  routePtr := c.routePtr.skip k
  routeLen := sub32 c.routeLen k
  len := (c.len + k) % 2 ^ 32
  pmap := c.pmap
  wrapped := c.wrapped || c.routeLen < k

def Cursor.bind (c : Cursor) (name value : Str) : Cursor :=
  { c with pmap := (name, value) :: c.pmap }

/-- The loop of `match_route`: the suffix and the parameters, and whether the length wrapped. -/
def matchPartsAt (aRouteLen : ℕ) : Pattern → Cursor → Option (Str × PMap) × Bool
  | [], c =>
    (some (if c.len = aRouteLen then [] else c.routePtr.bytes c.routeLen, c.pmap), c.wrapped)
  | .parameter str :: xs, c =>
    let i := scan (aRouteLen - c.len) c.routePtr
    matchPartsAt aRouteLen xs ((c.bind str (c.routePtr.bytes i)).advance i)
  | .string str :: xs, c =>
    if strncmpAt str c.routePtr then matchPartsAt aRouteLen xs (c.advance str.length)
    else (none, c.wrapped)
  | .terminal :: _, c =>
    (some ([], (c.bind [42] (c.routePtr.bytes c.routeLen)).pmap), c.wrapped)

/-- `edge::match_route` -/
def matchRouteAt (pattern : Pattern) (aRoute : Memory) (aRouteLen : ℕ) :
    Option (Str × PMap) × Bool :=
  matchPartsAt aRouteLen pattern ⟨aRoute, aRouteLen, 0, [], false⟩

/-! ## `find_route` -/

/-- What `find_route` returns and assigns in the map. -/
structure Found (δ : Type) where
  data : Option δ
  pmap : PMap
  wrapped : Bool

/-- The history goes on. -/
def Found.after (found : Found δ) (wrapped : Bool) : Found δ :=
  { found with wrapped := wrapped || found.wrapped }

mutual

/-- `node::find_route` -/
def Node.findRouteAt : Node δ → Memory → ℕ → Found δ
  | .mk _ _ edgeList, aRoute, aRouteLen => findRouteFromAt edgeList aRoute aRouteLen

/-- The loop of `find_route` over the edges. -/
def findRouteFromAt : List (Edge δ) → Memory → ℕ → Found δ
  | [], _, _ => ⟨none, [], false⟩
  | e :: es, aRoute, aRouteLen =>
    let tried := e.tryRouteAt aRoute aRouteLen
    tried.1.elim ((findRouteFromAt es aRoute aRouteLen).after tried.2)
      fun found => ⟨found.1, found.2, tried.2⟩

/-- The body of the loop: what it returns, if it returns. -/
def Edge.tryRouteAt : Edge δ → Memory → ℕ → Option (Option δ × PMap) × Bool
  | .mk pattern child, aRoute, aRouteLen =>
    let matched := matchRouteAt pattern aRoute aRouteLen
    matched.1.elim (none, matched.2) fun x =>
      if x.1 = [] then (some (child.data, x.2), matched.2)
      else
        let found := child.findRouteAt (.cStr x.1) x.1.length
        (found.data.map fun d => (some d, found.pmap ++ x.2), matched.2 || found.wrapped)

end

/-- `url_router::find_route` -/
def findRouteAt (rootNode : Option (Node δ)) (aRoute : Memory) (aRouteLen : ℕ) : Found δ :=
  rootNode.elim ⟨none, [], false⟩ fun n => n.findRouteAt aRoute aRouteLen

/-! ## The property -/

/-- **The lookup depends on the path alone**: whatever follows the first `n` bytes, it finds the
same data and the same bindings, and the remaining length never goes below zero. -/
def Local (rootNode : Option (Node δ)) (buf : Memory) (n : UInt32) : Prop :=
  ∀ buf' : Memory, (∀ i < n.toNat, buf' i = buf i) →
    let found := findRouteAt rootNode buf n.toNat
    let found' := findRouteAt rootNode buf' n.toNat
    found'.data = found.data ∧ (∀ name, found'.pmap.lookup name = found.pmap.lookup name) ∧
      found'.wrapped = false

/-- **A part overruns the path**: what is left of the path is a proper beginning of a string part,
as far as `strncmp` looks. -/
def Overruns : Pattern → Str → Prop
  | [], _ => False
  | .parameter _ :: xs, p => Overruns xs (p.dropWhile (· ≠ slash))
  | .string str :: xs, p =>
    if p.length < str.length then strncmpEq (str.take p.length) p = true
    else strncmpEq str p = true ∧ Overruns xs (p.drop str.length)
  | .terminal :: _, _ => False

instance decidableOverruns : ∀ (a : Pattern) (p : Str), Decidable (Overruns a p)
  | [], _ => .isFalse id
  | .parameter _ :: xs, p => decidableOverruns xs (p.dropWhile (· ≠ slash))
  | .string str :: xs, p =>
    haveI := decidableOverruns xs (p.drop str.length)
    inferInstanceAs (Decidable (if p.length < str.length then strncmpEq (str.take p.length) p = true
      else strncmpEq str p = true ∧ Overruns xs (p.drop str.length)))
  | .terminal :: _, _ => .isFalse id

/-- What is left of the path behind the parts, where `strncmp` stops at a NUL. -/
def leftOver : Pattern → Str → Option Str
  | [], p => some p
  | .parameter _ :: xs, p => leftOver xs (p.dropWhile (· ≠ slash))
  | .string str :: xs, p => if strncmpEq str p then leftOver xs (p.drop str.length) else none
  | .terminal :: _, _ => some []

/-- **A part leaves the copy**: it is longer than what is left of the path, and found there. -/
def Leaves : Pattern → Str → Prop
  | [], _ => False
  | .parameter _ :: xs, p => Leaves xs (p.dropWhile (· ≠ slash))
  | .string str :: xs, p =>
    strncmpEq str p = true ∧ (p.length < str.length ∨ Leaves xs (p.drop str.length))
  | .terminal :: _, _ => False

instance decidableLeaves : ∀ (a : Pattern) (p : Str), Decidable (Leaves a p)
  | [], _ => .isFalse id
  | .parameter _ :: xs, p => decidableLeaves xs (p.dropWhile (· ≠ slash))
  | .string str :: xs, p =>
    haveI := decidableLeaves xs (p.drop str.length)
    inferInstanceAs (Decidable (strncmpEq str p = true ∧
      (p.length < str.length ∨ Leaves xs (p.drop str.length))))
  | .terminal :: _, _ => .isFalse id

/-- Where a walk along a copy of the path ends: at data, without data, or behind the copy. -/
inductive Walk where
  | leads
  | fails
  | strays
deriving DecidableEq

/-- A walk that fails below an edge goes on at the edges that follow. -/
def Walk.before : Walk → Walk → Walk
  | .fails, rest => rest
  | w, _ => w

mutual

/-- The walk from a node along a copy of the path. -/
def Node.copyWalk : Node δ → Str → Walk
  | .mk _ _ edgeList, p => copyWalkFrom edgeList p

def copyWalkFrom : List (Edge δ) → Str → Walk
  | [], _ => .fails
  | e :: es, p => e.copyWalk p (copyWalkFrom es p)

/-- Where it ends at an edge, if `rest` is where it ends at the edges that follow. -/
def Edge.copyWalk : Edge δ → Str → Walk → Walk
  | .mk pattern child, p, rest =>
    if Leaves pattern p then .strays
    else
      match leftOver pattern p with
      | none => rest
      -- the loop is left, with or without data
      | some [] => if child.data.isSome then .leads else .fails
      | some (c :: s) => (child.copyWalk (c :: s)).before rest

end

/-! ## Reading memory -/

section Reading

variable {m : Memory}

/-- `strncmp` sees as many bytes as the part has. -/
lemma strncmpAt_eq {str : Str} {n : ℕ} (h : str.length ≤ n) :
    strncmpAt str m = strncmpEq str (m.bytes n) := by
  induction str generalizing m n with
  | nil => simp [strncmpAt, strncmpEq]
  | cons x str ih =>
      obtain ⟨n, rfl⟩ := Nat.exists_eq_succ_of_ne_zero (Nat.ne_of_gt (Nat.lt_of_lt_of_le
        (Nat.succ_pos _) h))
      rw [Memory.bytes, strncmpAt, strncmpEq, ih (by simpa using h)]

/-- What differs early, differs. -/
lemma strncmpAt_of_take {str : Str} {k : ℕ} (h : strncmpAt (str.take k) m = false) :
    strncmpAt str m = false := by
  induction str generalizing m k with
  | nil => simpa using h
  | cons x str ih =>
      cases k with
      | zero => simp [strncmpAt] at h
      | succ k =>
          rw [List.take_succ_cons, strncmpAt, Bool.and_eq_false_iff, Bool.or_eq_false_iff] at h
          rw [strncmpAt, Bool.and_eq_false_iff, Bool.or_eq_false_iff]
          exact h.imp_right fun h => ⟨h.1, ih h.2⟩

/-- What is found, is found as far as one likes. -/
lemma strncmpEq_take {str p : Str} {k : ℕ} (h : strncmpEq str p = true) :
    strncmpEq (str.take k) p = true := by
  induction str generalizing p k with
  | nil => simpa using h
  | cons x str ih =>
      cases k with
      | zero => rfl
      | succ k =>
          cases p with
          | nil => exact h
          | cons y p =>
              rw [strncmpEq, Bool.and_eq_true, Bool.or_eq_true] at h
              rw [List.take_succ_cons, strncmpEq, Bool.and_eq_true, Bool.or_eq_true]
              exact ⟨h.1, h.2.imp_right ih⟩

/-- On a copy it is the comparison with a string that ends with a NUL. -/
lemma strncmpAt_cStr (str p : Str) : strncmpAt str (.cStr p) = strncmpEq str p := by
  induction str generalizing p with
  | nil => simp [strncmpAt, strncmpEq]
  | cons x str ih =>
      rw [strncmpAt, Memory.skip_cStr, ih]
      cases p with
      | nil =>
          rcases eq_or_ne x 0 with rfl | hx
          · simp [Memory.cStr, strncmpEq]
          · simp [Memory.cStr, strncmpEq, hx]
      | cons y p => simp [Memory.cStr, strncmpEq]

/-- A part that goes on behind the path is found if the memory goes on with it. -/
lemma strncmpEq_goes_on {str p : Str} (h : strncmpEq (str.take p.length) p = true) :
    strncmpEq str (p ++ str.drop p.length) = true := by
  induction str generalizing p with
  | nil => simp [strncmpEq]
  | cons x str ih =>
      cases p with
      | nil =>
          have hself : ∀ s : Str, strncmpEq s s = true := by
            intro s
            induction s with
            | nil => rfl
            | cons y s ihs => simp [strncmpEq, ihs]
          exact hself _
      | cons y p =>
          simp only [List.length_cons, List.take_succ_cons, strncmpEq, Bool.and_eq_true,
            Bool.or_eq_true] at h
          simp only [List.length_cons, List.drop_succ_cons, List.cons_append, strncmpEq,
            Bool.and_eq_true, Bool.or_eq_true]
          exact ⟨h.1, h.2.imp_right ih⟩

lemma scan_eq (n : ℕ) (m : Memory) : scan n m = ((m.bytes n).takeWhile (· ≠ slash)).length := by
  induction n generalizing m with
  | zero => rfl
  | succ n ih =>
      rw [scan, Memory.bytes, List.takeWhile_cons, ih]
      by_cases h : m 0 = slash
      · simp [h]
      · simp [h]

end Reading

/-! ## What a loop over the parts does within the path -/

/-- The cursor in front of what is left of a path of length `total`. -/
def cursorAt (total : ℕ) (m : Memory) (p : Str) (pmap : PMap) : Cursor :=
  ⟨m, p.length, total - p.length, pmap, false⟩

section Within

variable {total : ℕ} {m : Memory} {p : Str} {pmap : PMap}

lemma cursorAt_advance (hp : p.length ≤ total) (ht : total < 2 ^ 32) {k : ℕ} (hk : k ≤ p.length) :
    (cursorAt total m p pmap).advance k = cursorAt total (m.skip k) (p.drop k) pmap := by
  have hlen : (total - p.length + k) % 2 ^ 32 = total - (p.length - k) := by
    rw [Nat.mod_eq_of_lt (by omega)]
    omega
  simp only [cursorAt, Cursor.advance, sub32_of_le hk (by omega), hlen, List.length_drop,
    Bool.false_or]
  exact congrArg (Cursor.mk _ _ _ _) (decide_eq_false (Nat.not_lt.mpr hk))

/-- Once the length has wrapped, this is not forgotten. -/
lemma matchPartsAt_wrapped (total : ℕ) (xs : Pattern) {c : Cursor} (h : c.wrapped = true) :
    (matchPartsAt total xs c).2 = true := by
  induction xs generalizing c with
  | nil => exact h
  | cons x xs ih =>
      cases x with
      | parameter str => exact ih (by simp [Cursor.advance, Cursor.bind, h])
      | string str =>
          rw [matchPartsAt]
          split_ifs
          · exact ih (by simp [Cursor.advance, h])
          · exact h
      | terminal => exact h

/-- The scan of a parameter takes what stands in front of the next slash. -/
lemma scan_path (hp : p.length ≤ total) (hm : m.bytes p.length = p) :
    scan (total - (total - p.length)) m = (p.takeWhile (· ≠ slash)).length ∧
      m.bytes (p.takeWhile (· ≠ slash)).length = p.takeWhile (· ≠ slash) := by
  rw [Nat.sub_sub_self hp, scan_eq, hm]
  refine ⟨rfl, ?_⟩
  obtain ⟨q, hq⟩ := List.takeWhile_prefix (p := (· ≠ slash)) (l := p)
  exact Memory.bytes_of_append (by rw [hq]; exact hm)

lemma bytes_skip_path {k : ℕ} (hm : m.bytes p.length = p) (hk : k ≤ p.length) :
    (m.skip k).bytes (p.drop k).length = p.drop k := by
  rw [List.length_drop, Memory.bytes_drop hk, hm]

/-- **Without an overrun the loop does not depend on what follows the path.** -/
lemma matchPartsAt_local (xs : Pattern) (pmap : PMap) (hp : p.length ≤ total) (ht : total < 2 ^ 32)
    (hm : m.bytes p.length = p) (ho : ¬ Overruns xs p) :
    matchPartsAt total xs (cursorAt total m p pmap) =
      matchPartsAt total xs (cursorAt total (.cStr p) p pmap) := by
  induction xs generalizing m p pmap with
  | nil => simp [matchPartsAt, cursorAt, hm]
  | cons x xs ih =>
      cases x with
      | parameter str =>
          obtain ⟨hscan, hval⟩ := scan_path hp hm
          obtain ⟨hscan', hval'⟩ := scan_path (m := .cStr p) hp (Memory.bytes_cStr p)
          have hle : (p.takeWhile (· ≠ slash)).length ≤ p.length :=
            (List.takeWhile_sublist _).length_le
          have hbind : ∀ m' v, (cursorAt total m' p pmap).bind str v =
              cursorAt total m' p ((str, v) :: pmap) := fun _ _ => rfl
          simp only [matchPartsAt, cursorAt] at hscan hscan' ⊢
          simp only [hscan, hscan', hval, hval']
          rw [← cursorAt, ← cursorAt, hbind, hbind, cursorAt_advance hp ht hle,
            cursorAt_advance hp ht hle, Memory.skip_cStr]
          rw [Overruns, ← drop_scan] at ho
          exact ih _ (by rw [List.length_drop]; omega) (bytes_skip_path hm hle) ho
      | string str =>
          rw [Overruns] at ho
          have hptr : ∀ m', (cursorAt total m' p pmap).routePtr = m' := fun _ => rfl
          simp only [matchPartsAt, hptr, strncmpAt_cStr]
          rcases Nat.lt_or_ge p.length str.length with hlt | hle
          · rw [if_pos hlt, Bool.not_eq_true] at ho
            have hat : ∀ m' : Memory, m'.bytes p.length = p → strncmpAt str m' = false := by
              intro m' hm'
              refine strncmpAt_of_take (k := p.length) ?_
              rw [strncmpAt_eq (n := p.length) (by simp), hm', ho]
            have hcopy := (strncmpAt_cStr str p).symm.trans (hat _ (Memory.bytes_cStr p))
            rw [if_neg (by simp [hat m hm]), if_neg (by simp [hcopy])]
            rfl
          · rw [if_neg (Nat.not_lt.mpr hle), not_and] at ho
            rw [strncmpAt_eq hle, hm]
            split_ifs with heq
            · rw [cursorAt_advance hp ht hle, cursorAt_advance hp ht hle, Memory.skip_cStr]
              exact ih _ (by rw [List.length_drop]; omega) (bytes_skip_path hm hle) (ho heq)
            · rfl
      | terminal => simp [matchPartsAt, cursorAt, Cursor.bind, hm]

end Within

/-! ## Copies -/

section Copies

variable {total : ℕ} {p : Str} {pmap : PMap}

lemma matchParts_length {xs : Pattern} {len : ℕ} {s : Str} {pmap' : PMap}
    (h : matchParts total xs p len pmap = some (some (s, pmap'))) : s.length ≤ p.length := by
  induction xs generalizing p len pmap with
  | nil =>
      obtain ⟨rfl, -⟩ := Prod.mk.inj (Option.some.inj (Option.some.inj h))
      split_ifs
      · exact Nat.zero_le _
      · exact le_rfl
  | cons x xs ih =>
      cases x with
      | parameter str => exact (ih h).trans (by simp)
      | string str =>
          rw [matchParts] at h
          split_ifs at h
          · exact (ih h).trans (by simp)
          · cases h
      | terminal =>
          obtain ⟨rfl, -⟩ := Prod.mk.inj (Option.some.inj (Option.some.inj h))
          exact Nat.zero_le _

/-- On a copy the loop does what it does on a path with a NUL behind it; where that has no result,
the length wraps. -/
lemma matchPartsAt_cStr (xs : Pattern) (pmap : PMap) (hp : p.length ≤ total) (ht : total < 2 ^ 32) :
    (matchParts total xs p (total - p.length) pmap).elim
      ((matchPartsAt total xs (cursorAt total (.cStr p) p pmap)).2 = true)
      fun r => matchPartsAt total xs (cursorAt total (.cStr p) p pmap) = (r, false) := by
  induction xs generalizing p pmap with
  | nil => simp [matchParts, matchPartsAt, cursorAt]
  | cons x xs ih =>
      have hdrop : ∀ {k}, k ≤ p.length → total - p.length + k = total - (p.drop k).length := by
        intro k hk
        rw [List.length_drop]
        omega
      cases x with
      | parameter str =>
          obtain ⟨hscan, hval⟩ := scan_path hp (Memory.bytes_cStr p)
          have hle : (p.takeWhile (· ≠ slash)).length ≤ p.length :=
            (List.takeWhile_sublist _).length_le
          have hbind : ∀ v, (cursorAt total (.cStr p) p pmap).bind str v =
              cursorAt total (.cStr p) p ((str, v) :: pmap) := fun _ => rfl
          have htake : p.take (total - (total - p.length)) = p := by
            rw [Nat.sub_sub_self hp, List.take_length]
          simp only [matchPartsAt, cursorAt] at hscan ⊢
          simp only [hscan, hval]
          rw [← cursorAt, hbind, cursorAt_advance hp ht hle, Memory.skip_cStr, matchParts]
          simp only [htake]
          rw [hdrop hle]
          exact ih _ (by rw [List.length_drop]; omega)
      | string str =>
          have hptr : (cursorAt total (.cStr p) p pmap).routePtr = .cStr p := rfl
          simp only [matchPartsAt, hptr, strncmpAt_cStr, matchParts]
          split_ifs with heq hle
          · rw [cursorAt_advance hp ht hle, Memory.skip_cStr, hdrop hle]
            exact ih _ (by rw [List.length_drop]; omega)
          · refine matchPartsAt_wrapped total xs ?_
            exact decide_eq_true (Nat.lt_of_not_le hle)
          · rfl
      | terminal => simp [matchParts, matchPartsAt, cursorAt, Cursor.bind]

lemma matchRouteAt_cStr (pattern : Pattern) (hp : p.length < 2 ^ 32) :
    (matchRoute pattern p).elim ((matchRouteAt pattern (.cStr p) p.length).2 = true)
      fun r => matchRouteAt pattern (.cStr p) p.length = (r, false) := by
  have h := matchPartsAt_cStr pattern [] le_rfl hp
  rwa [Nat.sub_self, cursorAt, Nat.sub_self] at h

end Copies

mutual

/-- **On a copy the lookup is the one of the model**; where that is undefined, the length wraps. -/
lemma Node.findRouteAt_cStr : ∀ (n : Node δ) {p : Str}, p.length < 2 ^ 32 →
    (n.findRoute p).elim ((n.findRouteAt (.cStr p) p.length).wrapped = true)
      fun r => n.findRouteAt (.cStr p) p.length = ⟨r.1, r.2, false⟩
  | .mk _ _ edgeList, _, hp => findRouteFromAt_cStr edgeList hp

lemma findRouteFromAt_cStr : ∀ (es : List (Edge δ)) {p : Str}, p.length < 2 ^ 32 →
    (findRouteFrom es p).elim ((findRouteFromAt es (.cStr p) p.length).wrapped = true)
      fun r => findRouteFromAt es (.cStr p) p.length = ⟨r.1, r.2, false⟩
  | [], _, _ => rfl
  | e :: es, p, hp => by
      have htry := e.tryRouteAt_cStr hp
      have hrest := findRouteFromAt_cStr es hp
      rw [findRouteFrom, findRouteFromAt]
      cases hold : e.tryRoute p with
      | none =>
          rw [hold] at htry
          cases hfound : (e.tryRouteAt (.cStr p) p.length).1 with
          | none => simpa [hfound, Found.after] using .inl htry
          | some found => simpa [hfound] using htry
      | some tried =>
          rw [hold] at htry
          cases tried with
          | some found =>
              rw [Option.elim_some] at htry
              simp [htry]
          | none =>
              rw [Option.elim_some] at htry
              simp only [htry, Option.bind_eq_bind, Option.bind_some, Option.elim_none]
              cases hnext : findRouteFrom es p with
              | none =>
                  rw [hnext] at hrest
                  simpa [Found.after] using hrest
              | some r =>
                  rw [hnext] at hrest
                  simp [Found.after, hrest.trans]

lemma Edge.tryRouteAt_cStr : ∀ (e : Edge δ) {p : Str}, p.length < 2 ^ 32 →
    (e.tryRoute p).elim ((e.tryRouteAt (.cStr p) p.length).2 = true)
      fun r => e.tryRouteAt (.cStr p) p.length = (r, false)
  | .mk pattern child, p, hp => by
      have hmatch := matchRouteAt_cStr pattern hp
      rw [Edge.tryRoute, Edge.tryRouteAt]
      match hm : matchRoute pattern p with
      | none =>
          rw [hm, Option.elim_none] at hmatch
          cases hx : (matchRouteAt pattern (.cStr p) p.length).1 with
          | none => simpa [hx] using hmatch
          | some x =>
              simp only [Option.elim_some, Option.bind_eq_bind, Option.bind_none,
                Option.elim_none]
              split_ifs
              · exact hmatch
              · simp [hmatch]
      | some none =>
          rw [hm, Option.elim_some] at hmatch
          simp [hmatch]
      | some (some ([], pmap)) =>
          rw [hm, Option.elim_some] at hmatch
          simp [hmatch]
      | some (some (c :: suffix, pmap)) =>
          rw [hm, Option.elim_some] at hmatch
          have hchild := child.findRouteAt_cStr ((matchParts_length hm).trans_lt hp)
          rw [List.length_cons] at hchild
          simp only [hmatch, Option.elim_some, if_neg (List.cons_ne_nil c suffix)]
          cases hf : child.findRoute (c :: suffix) with
          | none =>
              rw [hf, Option.elim_none] at hchild
              simp [hf, hchild]
          | some r =>
              rw [hf, Option.elim_some] at hchild
              rcases r with ⟨_ | d, pmap'⟩
              · simp [hf, hchild]
              · simp [hf, hchild]

end

/-! ## Overruns -/

section Overruns

variable {total : ℕ} {p : Str}

/-- **A part that overruns the path is found in some memory**, and then the length wraps. -/
lemma Overruns.exists_wrapped {xs : Pattern} (h : Overruns xs p) (hp : p.length ≤ total)
    (ht : total < 2 ^ 32) :
    ∃ ext : Str, ∀ m : Memory, m.bytes (p ++ ext).length = p ++ ext →
      ∀ pmap, (matchPartsAt total xs (cursorAt total m p pmap)).2 = true := by
  induction xs generalizing p with
  | nil => exact h.elim
  | cons x xs ih =>
      have hrest : ∀ {ext : Str} {m : Memory} {k : ℕ}, k ≤ p.length →
          m.bytes (p ++ ext).length = p ++ ext →
          (m.skip k).bytes (p.drop k ++ ext).length = p.drop k ++ ext := by
        intro ext m k hk hm
        rw [← List.drop_append_of_le_length hk]
        exact bytes_skip_path hm (by rw [List.length_append]; omega)
      cases x with
      | parameter str =>
          have hle : (p.takeWhile (· ≠ slash)).length ≤ p.length :=
            (List.takeWhile_sublist _).length_le
          rw [Overruns, ← drop_scan] at h
          obtain ⟨ext, hext⟩ := ih h (by rw [List.length_drop]; omega)
          refine ⟨ext, fun m hm pmap => ?_⟩
          obtain ⟨hscan, hval⟩ := scan_path hp (Memory.bytes_of_append hm)
          have hbind : ∀ v, (cursorAt total m p pmap).bind str v =
              cursorAt total m p ((str, v) :: pmap) := fun _ => rfl
          simp only [matchPartsAt, cursorAt] at hscan ⊢
          simp only [hscan, hval]
          rw [← cursorAt, hbind, cursorAt_advance hp ht hle]
          exact hext _ (hrest hle hm) _
      | string str =>
          rw [Overruns] at h
          split_ifs at h with hlt
          · refine ⟨str.drop p.length, fun m hm pmap => ?_⟩
            have heq : strncmpAt str m = true := by
              rw [strncmpAt_eq (n := (p ++ str.drop p.length).length) (by simp; omega), hm]
              exact strncmpEq_goes_on h
            have hptr : (cursorAt total m p pmap).routePtr = m := rfl
            rw [matchPartsAt, hptr, if_pos heq]
            refine matchPartsAt_wrapped total xs ?_
            exact decide_eq_true hlt
          · obtain ⟨ext, hext⟩ := ih h.2 (by rw [List.length_drop]; omega)
            refine ⟨ext, fun m hm pmap => ?_⟩
            have hle := Nat.le_of_not_lt hlt
            have heq : strncmpAt str m = true := by
              rw [strncmpAt_eq hle, Memory.bytes_of_append hm]
              exact h.1
            have hptr : (cursorAt total m p pmap).routePtr = m := rfl
            rw [matchPartsAt, hptr, if_pos heq, cursorAt_advance hp ht hle]
            exact hext _ (hrest hle hm) _
      | terminal => exact h.elim

lemma findRouteFromAt_wrapped {e : Edge δ} (es : List (Edge δ)) {m : Memory} {n : ℕ}
    (h : (matchRouteAt e.pattern m n).2 = true) :
    (findRouteFromAt (e :: es) m n).wrapped = true := by
  rcases e with ⟨pattern, child⟩
  have htry : (Edge.tryRouteAt (.mk pattern child) m n).2 = true := by
    rw [Edge.pattern] at h
    rw [Edge.tryRouteAt]
    cases (matchRouteAt pattern m n).1 with
    | none => exact h
    | some x =>
        simp only [Option.elim_some]
        split_ifs
        · exact h
        · simp [h]
  rw [findRouteFromAt]
  cases (Edge.tryRouteAt (.mk pattern child) m n).1 with
  | none => simp [Found.after, htry]
  | some found => exact htry

/-- Without an overrun at the root, the lookup is the one on a copy of the path. -/
lemma findRouteFromAt_local {es : List (Edge δ)} {m : Memory} (hp : p.length < 2 ^ 32)
    (hm : m.bytes p.length = p) (ho : ∀ e ∈ es, ¬ Overruns e.pattern p) :
    findRouteFromAt es m p.length = findRouteFromAt es (.cStr p) p.length := by
  induction es with
  | nil => rfl
  | cons e es ih =>
      rw [List.forall_mem_cons] at ho
      have htry : e.tryRouteAt m p.length = e.tryRouteAt (.cStr p) p.length := by
        rcases e with ⟨pattern, child⟩
        have hmatch := matchPartsAt_local pattern [] le_rfl hp hm ho.1
        rw [cursorAt, cursorAt, Nat.sub_self, ← matchRouteAt, ← matchRouteAt] at hmatch
        rw [Edge.tryRouteAt, Edge.tryRouteAt, hmatch]
      rw [findRouteFromAt, findRouteFromAt, htry, ih ho.2]

end Overruns

/-! ## The walk -/

section Walk

/-- The loop over the parts goes behind the copy, or leaves over what `leftOver` says. -/
lemma matchParts_leftOver {total : ℕ} (xs : Pattern) {p : Str} {len : ℕ} (pmap : PMap)
    (hlen : len + p.length = total) :
    (matchParts total xs p len pmap).elim (Leaves xs p)
      fun r => ¬ Leaves xs p ∧ r.map Prod.fst = leftOver xs p := by
  induction xs generalizing p len pmap with
  | nil =>
      refine ⟨id, ?_⟩
      rw [Option.map_some, leftOver]
      split_ifs with hall
      · rw [List.eq_nil_of_length_eq_zero (show p.length = 0 by omega)]
      · rfl
  | cons x xs ih =>
      cases x with
      | parameter str =>
          have htake : p.take (total - len) = p := List.take_of_length_le (by omega)
          have hsub := congrArg List.length (drop_scan p)
          have hle : (p.takeWhile (· ≠ slash)).length ≤ p.length :=
            (List.takeWhile_prefix _).length_le
          rw [List.length_drop] at hsub
          simp only [matchParts, htake, drop_scan]
          exact ih _ (by omega)
      | string str =>
          rw [matchParts, Leaves, leftOver]
          split_ifs with heq hle
          · have hlen' : len + str.length + (p.drop str.length).length = total := by
              rw [List.length_drop]
              omega
            have hrest := ih pmap hlen'
            simpa [heq, Nat.not_lt.mpr hle] using hrest
          · exact ⟨heq, .inl (Nat.lt_of_not_le hle)⟩
          · exact ⟨fun h => heq h.1, rfl⟩
      | terminal => exact ⟨id, rfl⟩

/-- What `find_route` returns, as a walk. -/
def Walk.of (o : Option (Option δ × PMap)) : Walk :=
  o.elim .strays fun r => if r.1.isSome then .leads else .fails

mutual

/-- **The walk ends where `find_route` does.** -/
lemma Node.copyWalk_eq : ∀ (n : Node δ) (p : Str), n.copyWalk p = .of (n.findRoute p)
  | .mk _ _ edgeList, p => copyWalkFrom_eq edgeList p

lemma copyWalkFrom_eq : ∀ (es : List (Edge δ)) (p : Str),
    copyWalkFrom es p = .of (findRouteFrom es p)
  | [], _ => rfl
  | e :: es, p => by
      rw [copyWalkFrom, copyWalkFrom_eq es p, e.copyWalk_eq p, findRouteFrom]
      cases e.tryRoute p with
      | none => rfl
      | some found =>
          cases found with
          | none => rfl
          | some found => rfl

lemma Edge.copyWalk_eq : ∀ (e : Edge δ) (p : Str) (rest : Walk), e.copyWalk p rest =
    (e.tryRoute p).elim .strays fun found => found.elim rest fun r => .of (some r)
  | .mk pattern child, p, rest => by
      have hmatch := matchParts_leftOver pattern [] (Nat.zero_add p.length)
      rw [← matchRoute] at hmatch
      rw [Edge.copyWalk, Edge.tryRoute]
      match hm : matchRoute pattern p with
      | none =>
          rw [hm] at hmatch
          exact if_pos hmatch
      | some r =>
          rw [hm, Option.elim_some] at hmatch
          obtain ⟨hno, hleft⟩ := hmatch
          rw [if_neg hno, ← hleft]
          match r with
          | none => rfl
          | some ([], pmap) => rfl
          | some (c :: s, pmap) =>
              simp only [Option.map_some, child.copyWalk_eq (c :: s), Option.bind_eq_bind,
                Option.bind_some]
              generalize child.findRoute (c :: s) = found
              match found with
              | none => rfl
              | some (none, _) => rfl
              | some (some _, _) => rfl

end

lemma walk_of_eq_strays {o : Option (Option δ × PMap)} : Walk.of o ≠ .strays ↔ o.isSome := by
  cases o with
  | none => simp [Walk.of]
  | some r =>
      simp only [Walk.of, Option.elim_some, Option.isSome_some, iff_true]
      split_ifs <;> nofun

/-- A part that leaves the path overruns it. -/
lemma Leaves.overruns {xs : Pattern} {p : Str} (h : Leaves xs p) : Overruns xs p := by
  induction xs generalizing p with
  | nil => exact h
  | cons x xs ih =>
      cases x with
      | parameter str => exact ih h
      | string str =>
          obtain ⟨heq, h⟩ := h
          rw [Overruns]
          split_ifs with hlt
          · exact strncmpEq_take heq
          · exact ⟨heq, ih (h.resolve_left hlt)⟩
      | terminal => exact h

end Walk

/-! ## Locality -/

/-- A lookup depends on the path alone where no part of the root's edge overruns it and the lookup
on a copy is defined. -/
lemma local_iff_isSome {s : Routes δ} (hs : (Routes.machine δ).Reachable s) (buf : Memory)
    (n : UInt32) : Local s.rootNode buf n ↔
      (∀ e ∈ s.root.edgeList, ¬ Overruns e.pattern (buf.bytes n.toNat)) ∧
        (findRoute s.rootNode (buf.bytes n.toNat)).isSome := by
  have hone := Routes.oneEdge_of_run hs
  set p := buf.bytes n.toNat with hpath
  have hlen : p.length = n.toNat := Memory.length_bytes _ _
  have hlt : p.length < 2 ^ 32 := hlen ▸ n.toNat_lt
  rcases s with ⟨_ | ⟨endpoint, data, es⟩, added⟩
  · refine iff_of_true (fun buf' _ => ⟨rfl, fun _ => rfl, rfl⟩) ⟨?_, rfl⟩
    simp [Routes.root, Node.new, Node.edgeList]
  have hroot : Routes.root ⟨some (.mk endpoint data es), added⟩ = .mk endpoint data es := rfl
  rw [Routes.OneEdge, hroot, Node.edgeList] at hone
  rw [hroot, Node.edgeList]
  have hat : ∀ m : Memory, findRouteAt (some (.mk endpoint data es)) m n.toNat =
      findRouteFromAt es m p.length := by
    intro m
    rw [hlen, findRouteAt, Option.elim_some, Node.findRouteAt]
  have hmodel : findRoute (some (.mk endpoint data es)) p = findRouteFrom es p := by
    rw [findRoute, Node.findRoute]
  have hcopy := findRouteFromAt_cStr es hlt
  rw [hmodel]
  constructor
  · intro hlocal
    have hno : ∀ e ∈ es, ¬ Overruns e.pattern p := by
      rcases hone with rfl | ⟨e, rfl, -⟩
      · simp
      · simp only [List.mem_singleton, forall_eq]
        intro ho
        obtain ⟨ext, hext⟩ := ho.exists_wrapped le_rfl hlt
        have hm := Memory.bytes_cStr (p ++ ext)
        have hagree := Memory.bytes_eq_iff.mp
          ((hlen ▸ Memory.bytes_of_append hm : Memory.bytes _ n.toNat = p).trans hpath)
        have hwrapped := hext _ hm []
        rw [cursorAt, Nat.sub_self, ← matchRouteAt] at hwrapped
        have hfound := (hlocal _ hagree).2.2
        rw [hat, findRouteFromAt_wrapped [] hwrapped] at hfound
        cases hfound
    refine ⟨hno, ?_⟩
    by_contra hnone
    rw [Option.not_isSome_iff_eq_none] at hnone
    rw [hnone, Option.elim_none] at hcopy
    have hfound := (hlocal buf fun _ _ => rfl).2.2
    rw [hat, findRouteFromAt_local hlt (by rw [hlen]) hno, hcopy] at hfound
    cases hfound
  · rintro ⟨hno, hsome⟩
    obtain ⟨r, hr⟩ := Option.isSome_iff_exists.mp hsome
    rw [hr, Option.elim_some] at hcopy
    have hsame : ∀ m : Memory, m.bytes n.toNat = p →
        findRouteAt (some (.mk endpoint data es)) m n.toNat = ⟨r.1, r.2, false⟩ := by
      intro m hm
      rw [hat, findRouteFromAt_local hlt (by rw [hlen, hm]) hno, hcopy]
    intro buf' hagree
    simp only [hsame buf rfl, hsame buf' (Memory.bytes_eq_iff.mpr hagree)]
    exact ⟨trivial, fun _ => trivial, trivial⟩

/-- **A lookup depends on the path alone, unless a part of the root's edge overruns it**, i.e. the
path is a proper beginning of what the root's edge asks for, up to and within a string part, or,
below the root, a part that holds a NUL is found behind the end of the copy. -/
theorem local_iff {s : Routes δ} (hs : (Routes.machine δ).Reachable s) (buf : Memory) (n : UInt32) :
    Local s.rootNode buf n ↔ ∀ e ∈ s.root.edgeList, ¬ Overruns e.pattern (buf.bytes n.toNat) ∧
      ∀ q ∈ leftOver e.pattern (buf.bytes n.toNat), q ≠ [] → e.child.copyWalk q ≠ .strays := by
  rw [local_iff_isSome hs]
  set p := buf.bytes n.toNat
  have hone := Routes.oneEdge_of_run hs
  rcases s with ⟨_ | ⟨endpoint, data, es⟩, added⟩
  · refine iff_of_true ⟨?_, rfl⟩ ?_ <;> simp [Routes.root, Node.new, Node.edgeList]
  have hroot : Routes.root ⟨some (.mk endpoint data es), added⟩ = .mk endpoint data es := rfl
  rw [Routes.OneEdge, hroot, Node.edgeList] at hone
  rw [hroot, Node.edgeList, findRoute, ← walk_of_eq_strays, ← Node.copyWalk_eq, Node.copyWalk]
  rcases hone with rfl | ⟨e, rfl, -⟩
  · simp [copyWalkFrom]
  simp only [List.mem_singleton, forall_eq]
  refine and_congr_right fun hno => ?_
  obtain ⟨pattern, child⟩ := e
  rw [copyWalkFrom, copyWalkFrom, Edge.copyWalk, if_neg fun h => hno h.overruns, Edge.pattern,
    Edge.child]
  cases leftOver pattern p with
  | none => simp
  | some q =>
      cases q with
      | nil =>
          simp only [Option.mem_some_iff, forall_eq', ne_eq, not_true_eq_false, false_implies,
            iff_true]
          split_ifs <;> intro h <;> cases h
      | cons c q =>
          have hbefore : (child.copyWalk (c :: q)).before .fails = child.copyWalk (c :: q) := by
            cases child.copyWalk (c :: q) <;> rfl
          simp [hbefore]

/-- The routes of the tests: what follows the path `/monkeys/bongo/banana/33` does not matter. -/
theorem local_iff_tests : ∃ s : Routes ℕ, (Routes.machine ℕ).Reachable s ∧
    (findRoute s.rootNode monkeyPath.bytes).map Prod.fst = some (some 1) ∧
      Local s.rootNode (.cStr monkeyPath.bytes) 24 := by
  have hrun : (testRoutes.foldlM Routes.next ⟨none, []⟩).map (fun s =>
      ((findRoute s.rootNode monkeyPath.bytes).map Prod.fst,
        decide (∀ e ∈ s.root.edgeList, ¬ Overruns e.pattern monkeyPath.bytes ∧
          ∀ q ∈ leftOver e.pattern monkeyPath.bytes, q ≠ [] → e.child.copyWalk q ≠ .strays))) =
        some (some (some 1), true) := by
    decide +kernel
  obtain ⟨s, hs, hobs⟩ := Option.map_eq_some_iff.mp hrun
  obtain ⟨hfound, hno⟩ := Prod.mk.inj hobs
  have hreach : (Routes.machine ℕ).Reachable s := .foldlM (fun _ _ _ he => he) (.start rfl) hs
  have hpath : Memory.bytes (.cStr monkeyPath.bytes) (24 : UInt32).toNat = monkeyPath.bytes :=
    Memory.bytes_cStr monkeyPath.bytes
  refine ⟨s, hreach, hfound, (local_iff hreach _ 24).mpr ?_⟩
  rw [hpath]
  exact of_decide_eq_true hno

/-- The path `/a` of the URL `/a?b` is compared with the route `/a?b`: the length wraps. -/
theorem query_compared_with_route : ∃ s : Routes ℕ, (Routes.machine ℕ).Reachable s ∧
    ¬ Local s.rootNode (.cStr (str "/a?b")) 2 := by
  have hrun : ([add "/a?b" 1].foldlM Routes.next ⟨none, []⟩).map
      (fun s => (findRouteAt s.rootNode (.cStr (str "/a?b")) 2).wrapped) = some true := by
    decide +kernel
  obtain ⟨s, hs, hwrapped⟩ := Option.map_eq_some_iff.mp hrun
  refine ⟨s, .foldlM (fun _ _ _ he => he) (.start rfl) hs, fun hlocal => ?_⟩
  have hfound := (hlocal _ fun _ _ => rfl).2.2
  exact absurd (hwrapped.symm.trans hfound) (by decide)

end UrlRouter

end Is2
