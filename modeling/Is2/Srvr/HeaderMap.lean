import Is2.Srvr.CaseMaps

/-!
# The maps of headers and of query arguments

`hmsg::get_header_map` and `rqst::get_query_map` sort a list of pairs into a map from names to
lists of values, and `find_first` takes the first value of a name.  Access logging looks names up
with `sizeof`, which counts the NUL of the literal.

* `Law` says what the map and the lookup come to: the values are grouped by their names ignoring
  case, and a lookup finds the first value of exactly that name.
* `law_iff` says when this holds: no two of the names overlap (`Overlap`) that are not equal
  ignoring case, and neither does the name that is looked up overlap with one of them.

The map has no result when the comparator is not a strict weak order on its keys.
-/

namespace Is2

namespace HeaderMap

open OrderedMap CaseMaps

/-- `mutable_data_map_list_t` -/
abbrev DataMap := Entries Bytes (List Bytes)

/-! ## Source functions -/

/-- One turn of the loop of `get_header_map` and of `get_query_map`. -/
def addPair (map : DataMap) (pair : Bytes × Bytes) : Option DataMap := do
  let obj ← find dataCaseIComp map pair.1
  some (if obj.isSome then update dataCaseIComp map pair.1 (· ++ [pair.2])
    else insert dataCaseIComp map pair.1 [pair.2])

/-- `hmsg::get_header_map`, of the list of headers. -/
def getHeaderMap (list : List (Bytes × Bytes)) : Option DataMap := list.foldlM addPair []

/-- `rqst::get_query_map`, of the list of arguments. -/
def getQueryMap (list : List (Bytes × Bytes)) : Option DataMap := list.foldlM addPair []

/-- `find_first`; the value of a name that is not there is `none`. -/
def findFirst (map : DataMap) (key : Bytes) : Option (Option Bytes) := do
  let obj ← find dataCaseIComp map key
  obj.elim (some none) fun e => e.2.head?.map some

/-- The key of a lookup: a name, or all of a literal. -/
def keyOf (name : Bytes) (literal : Bool) : Bytes := if literal then name ++ [0] else name

/-! ## The law -/

/-- The values of a name, ignoring case. -/
def valuesOf (list : List (Bytes × Bytes)) (name : Bytes) : List Bytes :=
  (list.filter fun p => p.1.map fold = name.map fold).map Prod.snd

/-- **The map groups the values by their names.** -/
structure Grouped (list : List (Bytes × Bytes)) (map : DataMap) : Prop where
  keys : (map.map fun e => e.1.map fold).Nodup
  names : ∀ p ∈ list, ∃ e ∈ map, e.1.map fold = p.1.map fold
  values : ∀ e ∈ map, e.2 = valuesOf list e.1 ∧ e.2 ≠ []

/-- **What a map is for**: there is one, the comparator orders its names and tells them apart when
they differ, the values are grouped, and a lookup finds the first value of its name. -/
structure Law (list : List (Bytes × Bytes)) (name : Bytes) (literal : Bool)
    (result : Option DataMap) : Prop where
  order : StrictWeak dataCaseIComp (list.map Prod.fst) ∧ ∀ p ∈ list, ∀ p' ∈ list,
    Tied dataCaseIComp p.1 p'.1 ↔ p.1.map fold = p'.1.map fold
  grouped : ∃ map, result = some map ∧ Grouped list map ∧
    findFirst map (keyOf name literal) = some (valuesOf list name).head?

/-- **No names overlap** that are not equal ignoring case. -/
def Apart (list : List (Bytes × Bytes)) (name : Bytes) (literal : Bool) : Prop :=
  (∀ p ∈ list, ∀ p' ∈ list, Overlap p.1 p'.1 → p.1.map fold = p'.1.map fold) ∧
    ∀ p ∈ list, Overlap p.1 (keyOf name literal) → p.1.map fold = name.map fold

/-! ## Names that are equal ignoring case -/

lemma tied_of_eq {a b : Bytes} (h : a.map fold = b.map fold) : Tied dataCaseIComp a b :=
  tied_dataCaseIComp.mpr (.of_isPrefix (by rw [h]))

/-- Where names do not overlap, keys that stand for them are tied when they are equal. -/
lemma tied_iff {names : List Bytes}
    (h : ∀ a ∈ names, ∀ b ∈ names, Overlap a b → a.map fold = b.map fold) {a b : Bytes}
    (ha : ∃ n ∈ names, n.map fold = a.map fold) (hb : ∃ n ∈ names, n.map fold = b.map fold) :
    Tied dataCaseIComp a b ↔ a.map fold = b.map fold := by
  obtain ⟨a', hamem, ha⟩ := ha
  obtain ⟨b', hbmem, hb⟩ := hb
  refine ⟨fun ht => ?_, tied_of_eq⟩
  rw [tied_dataCaseIComp, overlap_congr ha.symm hb.symm] at ht
  rw [← ha, ← hb]
  exact h a' hamem b' hbmem ht

/-- The names of a sorted map differ. -/
lemma nodup_of_sorted {map : DataMap} (h : Sorted dataCaseIComp map) :
    (map.map fun e => e.1.map fold).Nodup := by
  rw [List.Nodup, List.pairwise_map]
  refine h.imp fun {e e'} hlt heq => ?_
  rw [(tied_of_eq heq).1] at hlt
  exact absurd hlt (by decide)

lemma name_prefix_keyOf (name : Bytes) (literal : Bool) :
    name.map fold <+: (keyOf name literal).map fold := by
  cases literal with
  | false => exact List.prefix_refl _
  | true => simp [keyOf]

/-! ## Values -/

section Values

variable {list : List (Bytes × Bytes)} {pair : Bytes × Bytes} {name name' : Bytes} {map : DataMap}
  {e e' : Bytes × List Bytes}

lemma valuesOf_congr (h : name.map fold = name'.map fold) :
    valuesOf list name = valuesOf list name' := by
  rw [valuesOf, h, valuesOf]

lemma valuesOf_append_eq (h : pair.1.map fold = name.map fold) :
    valuesOf (list ++ [pair]) name = valuesOf list name ++ [pair.2] := by
  simp [valuesOf, List.filter_append, h]

lemma valuesOf_append_ne (h : pair.1.map fold ≠ name.map fold) :
    valuesOf (list ++ [pair]) name = valuesOf list name := by
  simp [valuesOf, List.filter_append, h]

lemma valuesOf_eq_nil_iff :
    valuesOf list name = [] ↔ ∀ p ∈ list, p.1.map fold ≠ name.map fold := by
  simp [valuesOf, List.filter_eq_nil_iff]

/-- Each key stands for the name of a pair. -/
lemma Grouped.exists_pair (h : Grouped list map) (he : e ∈ map) :
    ∃ p ∈ list, p.1.map fold = e.1.map fold := by
  obtain ⟨hvals, hne⟩ := h.values e he
  by_contra hnone
  push Not at hnone
  exact hne (hvals.trans (valuesOf_eq_nil_iff.mpr hnone))

/-! ## The loop -/

/-- What a turn of the loop does. -/
lemma addPair_cases {map' : DataMap} (h : addPair map pair = some map') :
    StrictWeak dataCaseIComp (pair.1 :: map.map Prod.fst) ∧
      ((∃ e, lookup dataCaseIComp map pair.1 = some e ∧
          map' = update dataCaseIComp map pair.1 (· ++ [pair.2])) ∨
        (lookup dataCaseIComp map pair.1 = none ∧
          map' = insert dataCaseIComp map pair.1 [pair.2])) := by
  rw [addPair, find] at h
  split_ifs at h with hw
  · rw [Option.bind_eq_bind, Option.bind_some, Option.some.injEq] at h
    refine ⟨hw, ?_⟩
    cases hl : lookup dataCaseIComp map pair.1 with
    | none => exact .inr ⟨rfl, by simpa [hl] using h.symm⟩
    | some e => exact .inl ⟨e, rfl, by simpa [hl] using h.symm⟩
  · simp at h

lemma sorted_addPair {map' : DataMap} (h : addPair map pair = some map')
    (hs : Sorted dataCaseIComp map) : Sorted dataCaseIComp map' := by
  obtain ⟨hw, ⟨e, -, rfl⟩ | ⟨hnone, rfl⟩⟩ := addPair_cases h
  · exact sorted_update hs _
  · exact sorted_insert hs hw hnone

/-- Every map that is built is sorted. -/
lemma sorted_foldlM {map' : DataMap} (h : list.foldlM addPair map = some map')
    (hs : Sorted dataCaseIComp map) : Sorted dataCaseIComp map' := by
  induction list generalizing map with
  | nil =>
      obtain rfl : map = map' := by simpa using h
      exact hs
  | cons pair list ih =>
      rw [List.foldlM_cons, Option.bind_eq_bind, Option.bind_eq_some_iff] at h
      obtain ⟨map₁, hone, hrest⟩ := h
      exact ih hrest (sorted_addPair hone hs)

/-- The keys that a turn of the loop compares are tied when they are equal. -/
lemma tied_key
    (hap : ∀ p ∈ list ++ [pair], ∀ p' ∈ list ++ [pair], Overlap p.1 p'.1 →
      p.1.map fold = p'.1.map fold) (hg : Grouped list map) :
    ∀ a ∈ pair.1 :: map.map Prod.fst, ∀ b ∈ pair.1 :: map.map Prod.fst,
      (Tied dataCaseIComp a b ↔ a.map fold = b.map fold) := by
  have hnames : ∀ a ∈ (list ++ [pair]).map Prod.fst, ∀ b ∈ (list ++ [pair]).map Prod.fst,
      Overlap a b → a.map fold = b.map fold := by
    simp only [List.mem_map]
    rintro a ⟨p, hp, rfl⟩ b ⟨p', hp', rfl⟩
    exact hap p hp p' hp'
  have hkeys : ∀ a ∈ pair.1 :: map.map Prod.fst,
      ∃ n ∈ (list ++ [pair]).map Prod.fst, n.map fold = a.map fold := by
    intro a ha
    rcases List.mem_cons.mp ha with rfl | ha
    · exact ⟨pair.1, by simp, rfl⟩
    · obtain ⟨e, he, rfl⟩ := List.mem_map.mp ha
      obtain ⟨p, hp, heq⟩ := hg.exists_pair he
      exact ⟨p.1, List.mem_map_of_mem (List.mem_append_left _ hp), heq⟩
  exact fun a ha b hb => tied_iff hnames (hkeys a ha) (hkeys b hb)

/-- Another value for a name that is there. -/
lemma Grouped.update (hg : Grouped list map) (hs : Sorted dataCaseIComp map)
    (hkey : ∀ e ∈ map, (Tied dataCaseIComp e.1 pair.1 ↔ e.1.map fold = pair.1.map fold))
    (he : e ∈ map) (heq : e.1.map fold = pair.1.map fold) :
    Grouped (list ++ [pair]) (update dataCaseIComp map pair.1 (· ++ [pair.2])) where
  keys := nodup_of_sorted (sorted_update hs _)
  names := by
    intro q hq
    have hthere : ∃ e ∈ map, e.1.map fold = q.1.map fold := by
      rcases List.mem_append.mp hq with hq | hq
      · exact hg.names q hq
      · obtain rfl := List.mem_singleton.mp hq
        exact ⟨e, he, heq⟩
    obtain ⟨e', he', heq'⟩ := hthere
    refine ⟨_, List.mem_map_of_mem he', ?_⟩
    rw [apply_ite Prod.fst, ite_self]
    exact heq'
  values := by
    intro e' he'
    obtain ⟨e₁, he₁, rfl⟩ := List.mem_map.mp he'
    obtain ⟨hvals, hne⟩ := hg.values e₁ he₁
    split_ifs with ht
    · rw [hkey e₁ he₁] at ht
      refine ⟨?_, List.append_ne_nil_of_right_ne_nil _ (List.cons_ne_nil _ _)⟩
      rw [valuesOf_append_eq ht.symm, ← hvals]
    · rw [hkey e₁ he₁] at ht
      exact ⟨hvals.trans (valuesOf_append_ne (Ne.symm ht)).symm, hne⟩

/-- The first value of a name. -/
lemma Grouped.insert (hg : Grouped list map) (hs : Sorted dataCaseIComp map)
    (hw : StrictWeak dataCaseIComp (pair.1 :: map.map Prod.fst))
    (hnone : lookup dataCaseIComp map pair.1 = none) :
    Grouped (list ++ [pair]) (insert dataCaseIComp map pair.1 [pair.2]) := by
  have hother : ∀ e ∈ map, pair.1.map fold ≠ e.1.map fold :=
    fun e he heq => lookup_eq_none_iff.mp hnone e he (tied_of_eq heq.symm)
  refine ⟨nodup_of_sorted (sorted_insert hs hw hnone), ?_, ?_⟩
  · intro q hq
    rcases List.mem_append.mp hq with hq | hq
    · obtain ⟨e, he, heq⟩ := hg.names q hq
      exact ⟨e, mem_insert.mpr (.inr he), heq⟩
    · obtain rfl := List.mem_singleton.mp hq
      exact ⟨_, mem_insert.mpr (.inl rfl), rfl⟩
  · intro e he
    rcases mem_insert.mp he with rfl | he
    · refine ⟨?_, List.cons_ne_nil _ _⟩
      rw [valuesOf_append_eq rfl, valuesOf_eq_nil_iff.mpr, List.nil_append]
      intro q hq heq
      obtain ⟨e, he, heq'⟩ := hg.names q hq
      exact hother e he (heq.symm.trans heq'.symm)
    · obtain ⟨hvals, hne⟩ := hg.values e he
      exact ⟨hvals.trans (valuesOf_append_ne (hother e he)).symm, hne⟩

/-- **A turn of the loop** adds its value to the name it belongs to. -/
lemma addPair_grouped
    (hap : ∀ p ∈ list ++ [pair], ∀ p' ∈ list ++ [pair], Overlap p.1 p'.1 →
      p.1.map fold = p'.1.map fold)
    (hs : Sorted dataCaseIComp map) (hg : Grouped list map) :
    ∃ map', addPair map pair = some map' ∧ Sorted dataCaseIComp map' ∧
      Grouped (list ++ [pair]) map' := by
  have htied := tied_key hap hg
  have hw := dataCaseIComp_strictWeak htied
  have hadd : addPair map pair = some
      (if (lookup dataCaseIComp map pair.1).isSome
        then OrderedMap.update dataCaseIComp map pair.1 (· ++ [pair.2])
        else OrderedMap.insert dataCaseIComp map pair.1 [pair.2]) := by
    rw [addPair, find, if_pos hw]
    rfl
  refine ⟨_, hadd, sorted_addPair hadd hs, ?_⟩
  cases hl : lookup dataCaseIComp map pair.1 with
  | none => exact hg.insert hs hw hl
  | some e =>
      obtain ⟨he, ht⟩ := lookup_some hl
      have hkey : ∀ e ∈ map, (Tied dataCaseIComp e.1 pair.1 ↔ e.1.map fold = pair.1.map fold) :=
        fun e he => htied _ (List.mem_cons_of_mem _ (List.mem_map_of_mem he)) _ List.mem_cons_self
      exact hg.update hs hkey he ((hkey e he).mp ht)

/-- **The loop** groups the values of a list of pairs. -/
lemma foldlM_grouped
    (hap : ∀ p ∈ list, ∀ p' ∈ list, Overlap p.1 p'.1 → p.1.map fold = p'.1.map fold) :
    ∃ map, list.foldlM addPair [] = some map ∧ Sorted dataCaseIComp map ∧ Grouped list map := by
  induction list using List.reverseRecOn with
  | nil => exact ⟨[], rfl, List.Pairwise.nil, List.nodup_nil, by simp, by simp⟩
  | append_singleton list pair ih =>
      obtain ⟨map, hmap, hs, hg⟩ := ih fun p hp p' hp' =>
        hap p (List.mem_append_left _ hp) p' (List.mem_append_left _ hp')
      obtain ⟨map', hadd, hs', hg'⟩ := addPair_grouped hap hs hg
      refine ⟨map', ?_, hs', hg'⟩
      rw [List.foldlM_append, hmap]
      simpa using hadd

/-! ## Lookups -/

/-- What a lookup that has a result does. -/
lemma findFirst_cases {key : Bytes} {val : Option Bytes} (h : findFirst map key = some val) :
    StrictWeak dataCaseIComp (key :: map.map Prod.fst) ∧
      ((lookup dataCaseIComp map key = none ∧ val = none) ∨
        ∃ e v, lookup dataCaseIComp map key = some e ∧ e.2.head? = some v ∧ val = some v) := by
  rw [findFirst, find] at h
  split_ifs at h with hw
  · refine ⟨hw, ?_⟩
    rw [Option.bind_eq_bind, Option.bind_some] at h
    cases hl : lookup dataCaseIComp map key with
    | none =>
        rw [hl, Option.elim_none, Option.some.injEq] at h
        exact .inl ⟨rfl, h.symm⟩
    | some e =>
        rw [hl, Option.elim_some, Option.map_eq_some_iff] at h
        obtain ⟨v, hv, rfl⟩ := h
        exact .inr ⟨e, v, rfl, hv, rfl⟩
  · simp at h

/-- The key of a lookup is tied to the names that are equal to its own. -/
lemma tied_lookup {key : Bytes} (hkey : name.map fold <+: key.map fold)
    (hap : ∀ p ∈ list, ∀ p' ∈ list, Overlap p.1 p'.1 → p.1.map fold = p'.1.map fold)
    (hlook : ∀ p ∈ list, Overlap p.1 key → p.1.map fold = name.map fold)
    (hg : Grouped list map) :
    (∀ a ∈ map.map Prod.fst, (Tied dataCaseIComp a key ↔ a.map fold = name.map fold)) ∧
      StrictWeak dataCaseIComp (key :: map.map Prod.fst) := by
  have hthere : ∀ a ∈ map.map Prod.fst, ∃ n ∈ list.map Prod.fst, n.map fold = a.map fold := by
    intro a ha
    obtain ⟨e, he, rfl⟩ := List.mem_map.mp ha
    obtain ⟨p, hp, heq⟩ := hg.exists_pair he
    exact ⟨p.1, List.mem_map_of_mem hp, heq⟩
  have hnames : ∀ a ∈ list.map Prod.fst, ∀ b ∈ list.map Prod.fst,
      Overlap a b → a.map fold = b.map fold := by
    simp only [List.mem_map]
    rintro a ⟨p, hp, rfl⟩ b ⟨p', hp', rfl⟩
    exact hap p hp p' hp'
  have htied : ∀ a ∈ map.map Prod.fst,
      (Tied dataCaseIComp a key ↔ a.map fold = name.map fold) := by
    intro a ha
    rw [tied_dataCaseIComp]
    refine ⟨fun ht => ?_, fun heq => .of_isPrefix (by rw [heq]; exact hkey)⟩
    obtain ⟨n, hn, heq⟩ := hthere a ha
    obtain ⟨p, hp, rfl⟩ := List.mem_map.mp hn
    rw [← heq]
    exact hlook p hp ((overlap_congr heq rfl).mpr ht)
  refine ⟨htied, dataCaseIComp_strictWeak
    (f := fun a => if a = key then name.map fold else a.map fold) ?_⟩
  intro a ha b hb
  rw [List.mem_cons] at ha hb
  split_ifs with hak hbk hbk
  · rw [hak, hbk]
    exact iff_of_true (tied_of_eq rfl) rfl
  · rw [hak, eq_comm, ← htied b (hb.resolve_left hbk)]
    exact ⟨Tied.symm, Tied.symm⟩
  · rw [hbk, htied a (ha.resolve_left hak)]
  · exact tied_iff hnames (hthere a (ha.resolve_left hak)) (hthere b (hb.resolve_left hbk))

/-- **A lookup finds the first value** of its name, where names do not overlap. -/
lemma findFirst_grouped {key : Bytes} (hkey : name.map fold <+: key.map fold)
    (hap : ∀ p ∈ list, ∀ p' ∈ list, Overlap p.1 p'.1 → p.1.map fold = p'.1.map fold)
    (hlook : ∀ p ∈ list, Overlap p.1 key → p.1.map fold = name.map fold)
    (hg : Grouped list map) : findFirst map key = some (valuesOf list name).head? := by
  obtain ⟨htied, hw⟩ := tied_lookup hkey hap hlook hg
  rw [findFirst, find, if_pos hw, Option.bind_eq_bind, Option.bind_some]
  cases hl : lookup dataCaseIComp map key with
  | none =>
      rw [lookup_eq_none_iff] at hl
      rw [valuesOf_eq_nil_iff.mpr, List.head?_nil, Option.elim_none]
      intro p hp heq
      obtain ⟨e, he, heq'⟩ := hg.names p hp
      exact hl e he ((htied _ (List.mem_map_of_mem he)).mpr (heq'.trans heq))
  | some e =>
      obtain ⟨he, ht⟩ := lookup_some hl
      obtain ⟨hvals, hne⟩ := hg.values e he
      rw [htied _ (List.mem_map_of_mem he)] at ht
      obtain ⟨v, vs, hv⟩ := List.exists_cons_of_ne_nil hne
      rw [Option.elim_some, ← valuesOf_congr ht, ← hvals, hv, List.head?_cons, Option.map_some]

/-- Names that a grouped map keeps apart do not overlap. -/
lemma Grouped.apart (hg : Grouped list map) (hs : Sorted dataCaseIComp map) :
    ∀ p ∈ list, ∀ p' ∈ list, Overlap p.1 p'.1 → p.1.map fold = p'.1.map fold := by
  intro p hp p' hp' hover
  obtain ⟨e, he, heq⟩ := hg.names p hp
  obtain ⟨e', he', heq'⟩ := hg.names p' hp'
  have ht : Tied dataCaseIComp e.1 e'.1 :=
    tied_dataCaseIComp.mpr ((overlap_congr heq.symm heq'.symm).mp hover)
  rw [← heq, ← heq', hs.unique he he' ht]

/-- A lookup that finds the right value does not overlap with another name. -/
lemma Grouped.lookup_apart {key : Bytes} (hg : Grouped list map) (hs : Sorted dataCaseIComp map)
    (hkey : name.map fold <+: key.map fold)
    (hfind : findFirst map key = some (valuesOf list name).head?) :
    ∀ p ∈ list, Overlap p.1 key → p.1.map fold = name.map fold := by
  intro p hp hover
  obtain ⟨e, he, heq⟩ := hg.names p hp
  have ht : Tied dataCaseIComp e.1 key :=
    tied_dataCaseIComp.mpr ((overlap_congr heq.symm rfl).mp hover)
  obtain ⟨hw, ⟨hnone, -⟩ | ⟨_, v, -, -, hval⟩⟩ := findFirst_cases hfind
  · exact absurd ht (lookup_eq_none_iff.mp hnone e he)
  · -- a value was found, so there is a pair of that name, whose entry is tied to the key as well
    have hne : valuesOf list name ≠ [] := by
      intro hnil
      simp [hnil] at hval
    rw [Ne, valuesOf_eq_nil_iff] at hne
    push Not at hne
    obtain ⟨q, hq, hqname⟩ := hne
    obtain ⟨e', he', heq'⟩ := hg.names q hq
    have ht' : Tied dataCaseIComp e'.1 key :=
      tied_dataCaseIComp.mpr (.of_isPrefix (by rw [heq', hqname]; exact hkey))
    have hmem : ∀ {x}, x ∈ map → x.1 ∈ key :: map.map Prod.fst :=
      fun hx => List.mem_cons_of_mem _ (List.mem_map_of_mem hx)
    have hboth := hw.tied _ (hmem he) _ List.mem_cons_self _ (hmem he') ht ht'.symm
    rw [← heq, hs.unique he he' hboth, heq', hqname]

end Values

/-! ## When the law holds -/

lemma law_foldlM_iff {list : List (Bytes × Bytes)} {name : Bytes} {literal : Bool} :
    Law list name literal (list.foldlM addPair []) ↔ Apart list name literal := by
  constructor
  · rintro ⟨-, map, hmap, hg, hfind⟩
    have hs := sorted_foldlM hmap List.Pairwise.nil
    exact ⟨hg.apart hs, hg.lookup_apart hs (name_prefix_keyOf name literal) hfind⟩
  · rintro ⟨hap, hlook⟩
    have htied : ∀ p ∈ list, ∀ p' ∈ list,
        (Tied dataCaseIComp p.1 p'.1 ↔ p.1.map fold = p'.1.map fold) :=
      fun p hp p' hp' => ⟨fun ht => hap p hp p' hp' (tied_dataCaseIComp.mp ht), tied_of_eq⟩
    obtain ⟨map, hmap, -, hg⟩ := foldlM_grouped hap
    refine ⟨⟨dataCaseIComp_strictWeak (f := List.map fold) ?_, htied⟩, map, hmap, hg,
      findFirst_grouped (name_prefix_keyOf name literal) hap hlook hg⟩
    simp only [List.mem_map]
    rintro a ⟨p, hp, rfl⟩ b ⟨p', hp', rfl⟩
    exact htied p hp p' hp'

/-- **The maps of headers and of query arguments do what they are for exactly when no names
overlap** that are not equal ignoring case. -/
theorem law_iff (list : List (Bytes × Bytes)) (name : Bytes) (literal : Bool) :
    (Law list name literal (getHeaderMap list) ∧ Law list name literal (getQueryMap list)) ↔
      Apart list name literal := by
  rw [getHeaderMap, getQueryMap, and_self]
  exact law_foldlM_iff

/-- A lookup of `Accept` finds the value of `Accept-Encoding`. -/
theorem accept_finds_accept_encoding :
    (getHeaderMap [(ascii "Accept-Encoding", ascii "gzip")]).bind
        (findFirst · (ascii "Accept")) = some (some (ascii "gzip")) ∧
      ¬ Law [(ascii "Accept-Encoding", ascii "gzip")] (ascii "Accept") false
        (getHeaderMap [(ascii "Accept-Encoding", ascii "gzip")]) := by
  have hfound : (getHeaderMap [(ascii "Accept-Encoding", ascii "gzip")]).bind
      (findFirst · (ascii "Accept")) = some (some (ascii "gzip")) := by decide +kernel
  refine ⟨hfound, ?_⟩
  rintro ⟨-, map, hmap, -, hfind⟩
  rw [hmap, Option.bind_some] at hfound
  have hright : (valuesOf [(ascii "Accept-Encoding", ascii "gzip")] (ascii "Accept")).head? =
      none := by decide +kernel
  rw [keyOf, if_neg Bool.false_ne_true, hfound, hright] at hfind
  simp at hfind

end HeaderMap

end Is2
