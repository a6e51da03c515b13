import Is2.Srvr.SubrRqst

/-!
# The headers of a subrequest

Whatever calls of `set_header`, `del_header`, `clear_headers`, `set_host` and `set_keepalive` are
made, the values of each name should be those that were set since it was deleted.  `User-Agent`,
`Referer`, `Accept` and `Host` have one value at most: a value replaces the one before, and an empty
value removes it.

`set_header` replaces by popping one value and pushing another.  It does neither for a name without
an entry, so an empty value is then set like any other; and where an empty value has emptied the
list there is nothing to pop.  The values are the right ones as long as no call meets one of these
(`follows_iff`).
-/

namespace Is2

open OrderedMap CaseMaps

/-- The calls. -/
inductive SubrAct where
  | setHeader (key val : Bytes)
  | delHeader (key : Bytes)
  | clearHeaders
  | setHost (val : Bytes)
  | setKeepalive (val : Bool)
deriving DecidableEq, Repr

namespace SubrAct

/-- What the code does. -/
def run (s : SubrRqst) : SubrAct → Option SubrRqst
  | setHeader key val => s.setHeader key val
  | delHeader key => some (s.delHeader key)
  | clearHeaders => some s.clearHeaders
  | setHost val => s.setHost val
  | setKeepalive val => s.setKeepalive val

/-- The values of a name that has one value at most. -/
def single (val : Bytes) : List Bytes := if val = [] then [] else [val]

/-- What a call means for the values `w` of every name. -/
def apply (w : Bytes → List Bytes) : SubrAct → Bytes → List Bytes
  | setHeader key val, k =>
      if Tied caseIComp key k then
        if SubrRqst.replaces key then single val else w k ++ [val]
      else w k
  | delHeader key, k => if Tied caseIComp key k then [] else w k
  | clearHeaders, _ => []
  | setHost val, k => if Tied caseIComp (ascii "Host") k then single val else w k
  | setKeepalive val, k =>
      if Tied caseIComp (ascii "Connection") k then if val then [ascii "keep-alive"] else []
      else w k

/-- The call does not set an empty value of such a name where there is no entry, nor any where the
entry is empty. -/
def Safe (s : SubrRqst) : SubrAct → Prop
  | setHeader key val => SubrRqst.replaces key = true →
      (lookup caseIComp s.headers key).elim (val ≠ []) fun e => e.2 ≠ []
  | delHeader _ => True
  | clearHeaders => True
  | setHost val => val ≠ []
  | setKeepalive _ => True

end SubrAct

namespace SubrRqst

/-- The values of a name. -/
def values (s : SubrRqst) (k : Bytes) : List Bytes :=
  (lookup caseIComp s.headers k).elim [] Prod.snd

/-- **The values follow the calls**: every call is defined, and before and behind it the values of
every name are those that are meant. -/
def Follows : SubrRqst → (Bytes → List Bytes) → List SubrAct → Prop
  | s, w, [] => ∀ k, s.values k = w k
  | s, w, a :: as => (∀ k, s.values k = w k) ∧ ∃ s', a.run s = some s' ∧ Follows s' (a.apply w) as

/-- Every call is safe where it is made. -/
def SafeRun : SubrRqst → List SubrAct → Prop
  | _, [] => True
  | s, a :: as => a.Safe s ∧ ∀ s', a.run s = some s' → SafeRun s' as

/-! ## Lookups -/

variable {s s' : SubrRqst} {key k val : Bytes} {w : Bytes → List Bytes} {a : SubrAct}

lemma replaces_congr {a b : Bytes} (h : Tied caseIComp a b) : replaces a = replaces b := by
  have hc : ∀ x, strcasecmp a x = 0 ↔ strcasecmp b x = 0 := fun x => by
    rw [strcasecmp_eq_zero_iff, strcasecmp_eq_zero_iff, tied_caseIComp, tied_caseIComp,
      tied_caseIComp.mp h]
  simp only [replaces, hc]

lemma lookup_congr {a b : Bytes} (h : Tied caseIComp a b) :
    lookup caseIComp s.headers a = lookup caseIComp s.headers b :=
  List.find?_congr fun e _ => by simp only [tied_caseIComp, tied_caseIComp.mp h]

lemma values_congr {a b : Bytes} (h : Tied caseIComp a b) : s.values a = s.values b := by
  rw [values, values, lookup_congr h]

lemma values_none (h : lookup caseIComp s.headers key = none) : s.values key = [] := by
  rw [values, h, Option.elim_none]

lemma values_some {e : Bytes × List Bytes} (h : lookup caseIComp s.headers key = some e) :
    s.values key = e.2 := by
  rw [values, h, Option.elim_some]

lemma values_insert (h : lookup caseIComp s.headers key = none) :
    ({ s with headers := insert caseIComp s.headers key [val] } : SubrRqst).values k =
      if Tied caseIComp key k then [val] else s.values k := by
  rw [values, lookup_insert (caseIComp_strictWeak _) h]
  split_ifs <;> rfl

lemma values_update {e : Bytes × List Bytes} {f : List Bytes → List Bytes}
    (h : lookup caseIComp s.headers key = some e) :
    ({ s with headers := update caseIComp s.headers key f } : SubrRqst).values k =
      if Tied caseIComp key k then f e.2 else s.values k := by
  rw [values, lookup_update (caseIComp_strictWeak _)]
  split_ifs with ht
  · rw [← lookup_congr ht, h]
    rfl
  · rw [Option.map_id']
    rfl

lemma values_delHeader : (s.delHeader key).values k =
    if Tied caseIComp key k then [] else s.values k := by
  rw [values, delHeader, lookup_erase (caseIComp_strictWeak _)]
  split_ifs <;> rfl

lemma lookup_delHeader : lookup caseIComp (s.delHeader key).headers key = none := by
  rw [delHeader, lookup_erase (caseIComp_strictWeak _), if_pos (tied_caseIComp.mpr rfl)]

/-- The entries stay in the order of the names, as a search of the map needs them. -/
lemma sorted_setHeader (hs : Sorted caseIComp s.headers) (he : s.setHeader key val = some s') :
    Sorted caseIComp s'.headers := by
  unfold setHeader at he
  cases h : lookup caseIComp s.headers key with
  | none =>
      rw [h, Option.elim_none] at he
      obtain rfl := Option.some.inj he
      exact sorted_insert hs (caseIComp_strictWeak _) h
  | some e =>
      rw [h, Option.elim_some] at he
      split_ifs at he
      all_goals
        obtain rfl := Option.some.inj he
        dsimp only
        exact sorted_update hs _

lemma sorted_run (hs : Sorted caseIComp s.headers) (he : a.run s = some s') :
    Sorted caseIComp s'.headers := by
  cases a with
  | setHeader key val => exact sorted_setHeader hs he
  | delHeader key =>
      obtain rfl := Option.some.inj he
      exact sorted_erase hs
  | clearHeaders =>
      obtain rfl := Option.some.inj he
      exact List.Pairwise.nil
  | setHost val => exact sorted_setHeader (sorted_erase hs) he
  | setKeepalive val =>
      cases val with
      | false =>
          obtain rfl := Option.some.inj he
          exact sorted_erase hs
      | true => exact sorted_setHeader (sorted_erase hs) he

/-! ## One call -/

/-- The values of the names that have one. -/
def Single (w : Bytes → List Bytes) : Prop := ∀ k, replaces k = true → (w k).length ≤ 1

/-- A name without an entry gets the value, whatever it is. -/
lemma setHeader_new (h : lookup caseIComp s.headers key = none) (hv : ∀ k, s.values k = w k) :
    (∃ s', s.setHeader key val = some s' ∧
      ∀ k, s'.values k = (SubrAct.setHeader key val).apply w k) ↔
        (replaces key = true → val ≠ []) := by
  have hw : ∀ {k}, Tied caseIComp key k → w k = [] := fun ht => by
    rw [← hv, ← values_congr ht, values_none h]
  simp only [setHeader, h, Option.elim_none, Option.some.injEq, exists_eq_left',
    values_insert h, SubrAct.apply]
  constructor
  · intro hall hr hval
    have hkey := hall key
    rw [if_pos (tied_caseIComp.mpr rfl), if_pos (tied_caseIComp.mpr rfl), if_pos hr, hval] at hkey
    simp [SubrAct.single] at hkey
  · intro hval k
    split_ifs with ht hr
    · rw [SubrAct.single, if_neg (hval hr)]
    · rw [hw ht, List.nil_append]
    · exact hv k

/-- An entry with a value gets another one, or one more. -/
lemma setHeader_old {e : Bytes × List Bytes} (h : lookup caseIComp s.headers key = some e)
    (hv : ∀ k, s.values k = w k) (hw : Single w) :
    (∃ s', s.setHeader key val = some s' ∧
      ∀ k, s'.values k = (SubrAct.setHeader key val).apply w k) ↔
        (replaces key = true → e.2 ≠ []) := by
  have hvals : ∀ {k}, Tied caseIComp key k → w k = e.2 := fun ht => by
    rw [← hv, ← values_congr ht, values_some h]
  by_cases hr : replaces key = true
  · by_cases he : e.2 = []
    · simp [setHeader, h, hr, he]
    · have hlen : e.2.length ≤ 1 := by
        rw [← hvals (tied_caseIComp.mpr rfl)]
        exact hw key hr
      have htail : e.2.tail = [] := by
        rw [← List.length_eq_zero_iff, List.length_tail]
        omega
      have hrun : s.setHeader key val = some { s with
          headers := update caseIComp s.headers key fun vs => vs.tail ++ SubrAct.single val } := by
        rw [setHeader, h, Option.elim_some, if_pos hr, if_neg he]
        rfl
      refine iff_of_true ⟨_, hrun, ?_⟩ fun _ => he
      intro k
      rw [values_update h, SubrAct.apply, htail, if_pos hr, hv, SubrAct.single, List.nil_append]
  · have hrun : s.setHeader key val = some { s with
        headers := update caseIComp s.headers key (· ++ [val]) } := by
      rw [setHeader, h, Option.elim_some, if_neg hr]
    refine iff_of_true ⟨_, hrun, ?_⟩ fun hr' => absurd hr' hr
    intro k
    rw [values_update h, SubrAct.apply, if_neg hr, hv]
    split_ifs with ht
    · rw [hvals ht]
    · rfl

lemma setHeader_iff (hv : ∀ k, s.values k = w k) (hw : Single w) :
    (SubrAct.setHeader key val).Safe s ↔ ∃ s', s.setHeader key val = some s' ∧
      ∀ k, s'.values k = (SubrAct.setHeader key val).apply w k := by
  rw [SubrAct.Safe]
  cases h : lookup caseIComp s.headers key with
  | none => rw [setHeader_new h hv, Option.elim_none]
  | some e => rw [setHeader_old h hv hw, Option.elim_some]

/-- The calls that delete a name and set it. -/
lemma delHeader_setHeader (s : SubrRqst) (key val : Bytes) (hv : ∀ k, s.values k = w k) :
    (∃ s', (s.delHeader key).setHeader key val = some s' ∧ ∀ k, s'.values k =
        if Tied caseIComp key k then (if replaces key then SubrAct.single val else [val])
        else w k) ↔ (replaces key = true → val ≠ []) := by
  rw [← setHeader_new lookup_delHeader (w := (SubrAct.delHeader key).apply w) fun k => by
    rw [values_delHeader, SubrAct.apply, hv]]
  have happly : ∀ k, (SubrAct.setHeader key val).apply ((SubrAct.delHeader key).apply w) k =
      if Tied caseIComp key k then (if replaces key then SubrAct.single val else [val])
      else w k := fun k => by
    by_cases ht : Tied caseIComp key k <;> simp [SubrAct.apply, ht]
  simp only [happly]

/-- **One call** does what it means if and only if it is safe. -/
lemma safe_iff (hv : ∀ k, s.values k = w k) (hw : Single w) :
    a.Safe s ↔ ∃ s', a.run s = some s' ∧ ∀ k, s'.values k = a.apply w k := by
  cases a with
  | setHeader key val => exact setHeader_iff hv hw
  | delHeader key =>
      refine iff_of_true trivial ⟨_, rfl, fun k => ?_⟩
      rw [values_delHeader, SubrAct.apply, hv]
  | clearHeaders => exact iff_of_true trivial ⟨_, rfl, fun _ => rfl⟩
  | setHost val =>
      have hr : replaces (ascii "Host") = true := by decide +kernel
      have h := delHeader_setHeader { s with host := val } (ascii "Host") val hv
      simp only [hr, if_true, true_implies] at h
      exact h.symm
  | setKeepalive val =>
      have hr : replaces (ascii "Connection") = false := by decide +kernel
      refine iff_of_true trivial ?_
      cases val with
      | false =>
          refine ⟨_, rfl, fun k => ?_⟩
          rw [values_delHeader]
          simp only [SubrAct.apply, Bool.false_eq_true, if_false, ← hv]
          rfl
      | true =>
          have h := (delHeader_setHeader { s with keepalive := true } (ascii "Connection")
            (ascii "keep-alive") hv).mpr (by simp [hr])
          simp only [hr, Bool.false_eq_true, if_false] at h
          exact h

/-! ## Every run -/

/-- **The map is in order in every state that is reached**, so that a name has one entry. -/
theorem headers_sorted (acts : List SubrAct) : ∀ {s s' : SubrRqst},
    Sorted caseIComp s.headers → acts.foldlM SubrAct.run s = some s' →
      Sorted caseIComp s'.headers := by
  induction acts with
  | nil =>
      intro s s' hs he
      obtain rfl := Option.some.inj he
      exact hs
  | cons a as ih =>
      intro s s' hs he
      rw [List.foldlM_cons] at he
      obtain ⟨s₁, h₁, he⟩ := Option.bind_eq_some_iff.mp he
      exact ih (sorted_run hs h₁) he

lemma single_apply (hw : Single w) (a : SubrAct) : Single (a.apply w) := by
  have hlen : ∀ val, (SubrAct.single val).length ≤ 1 := fun val => by
    rw [SubrAct.single]
    split_ifs <;> simp
  intro k hk
  cases a with
  | setHeader key val =>
      rw [SubrAct.apply]
      split_ifs with ht hr
      · exact hlen val
      · exact absurd (replaces_congr ht ▸ hk) hr
      · exact hw k hk
  | delHeader key =>
      rw [SubrAct.apply]
      split_ifs
      · exact Nat.zero_le _
      · exact hw k hk
  | clearHeaders => exact Nat.zero_le _
  | setHost val =>
      rw [SubrAct.apply]
      split_ifs
      · exact hlen val
      · exact hw k hk
  | setKeepalive val =>
      rw [SubrAct.apply]
      split_ifs
      · simp
      · exact Nat.zero_le _
      · exact hw k hk

lemma follows_of (acts : List SubrAct) : ∀ {s : SubrRqst} {w : Bytes → List Bytes},
    (∀ k, s.values k = w k) → Single w → (Follows s w acts ↔ SafeRun s acts) := by
  induction acts with
  | nil => exact fun hv _ => iff_of_true hv trivial
  | cons a as ih =>
      intro s w hv hw
      rw [Follows, SafeRun, safe_iff hv hw]
      constructor
      · rintro ⟨-, s', he, hf⟩
        have hv' : ∀ k, s'.values k = a.apply w k := by
          cases as with
          | nil => exact hf
          | cons b bs => exact hf.1
        refine ⟨⟨s', he, hv'⟩, ?_⟩
        intro s₂ he₂
        obtain rfl := Option.some.inj (he.symm.trans he₂)
        exact (ih hv' (single_apply hw a)).mp hf
      · rintro ⟨⟨s', he, hv'⟩, hsafe⟩
        exact ⟨hv, s', he, (ih hv' (single_apply hw a)).mpr (hsafe s' he)⟩

/-- **In every run of a new subrequest** all calls are defined and the values of every name are
those that are meant, if and only if each call is safe where it is made. -/
theorem follows_iff (acts : List SubrAct) :
    Follows new (fun _ => []) acts ↔ SafeRun new acts :=
  follows_of acts (fun _ => rfl) fun _ _ => Nat.zero_le _

/-- An empty value is set where there is none, and a value is set behind an empty one: the first is
kept, the second pops from an empty list. -/
theorem empty_values_are_kept_and_popped :
    (∃ s, (SubrAct.setHeader (ascii "Referer") []).run new = some s ∧
      s.values (ascii "referer") = [[]]) ∧
    ([.setHeader (ascii "Host") (ascii "a"), .setHeader (ascii "host") [],
      .setHeader (ascii "Host") (ascii "b")].foldlM SubrAct.run new = none) ∧
    ¬ Follows new (fun _ => []) [.setHeader (ascii "Referer") []] ∧
    ¬ Follows new (fun _ => []) [.setHeader (ascii "Host") (ascii "a"),
      .setHeader (ascii "host") [], .setHeader (ascii "Host") (ascii "b")] := by
  have hkept : ((SubrAct.setHeader (ascii "Referer") []).run new).map
      (fun s => s.values (ascii "referer")) = some [[]] := by decide +kernel
  have hnone : [.setHeader (ascii "Host") (ascii "a"), .setHeader (ascii "host") [],
      .setHeader (ascii "Host") (ascii "b")].foldlM SubrAct.run new = none := by decide +kernel
  obtain ⟨s, hs, hval⟩ := Option.map_eq_some_iff.mp hkept
  refine ⟨⟨s, hs, hval⟩, hnone, ?_, ?_⟩
  · rintro ⟨-, s', he, hf⟩
    obtain rfl := Option.some.inj (hs.symm.trans he)
    have hempty := hval.symm.trans (hf (ascii "referer"))
    exact absurd hempty (by decide +kernel)
  · rintro ⟨-, s₁, h₁, -, s₂, h₂, -, s₃, h₃, -⟩
    simp [List.foldlM_cons, h₁, h₂, h₃] at hnone

end SubrRqst

end Is2
