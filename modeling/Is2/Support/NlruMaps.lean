import Is2.Support.Nlru

/-!
# The containers of the LRU

`Nlru` is the LRU with its maps read as functions to sets.  Here the four containers of `nlru<_Tp>`
are kept apart, as `support/nlru.h` has them:

* `m_item_list`, a list of nodes; an iterator is the address of a node, and to follow or erase one
  that points at no node is undefined (`none`);
* `m_item_list_map`, from ids to iterators;
* `m_id_label_map`, from ids to labels;
* `m_label_id_set_map`, from labels to sets of ids, with an entry for a label only while its set is
  not empty.

`remove` returns early wherever one of them does not know the id.  None of these returns is taken
for an id that the list knows: `Good` says that the four are in step, and every operation keeps it.
One lemma for each operation says what it does to a store in order; and it does what the operation
of `Nlru` does (`Reads.remove`, `Reads.evict`, `Reads.get`, `Reads.insert`).

The ids are drawn from a 64 bit counter; here it is a natural number.
-/

namespace Is2

/-- A node of `m_item_list`. -/
structure NlruItem (τ : Type) where
  addr : ℕ
  id : ℕ
  entry : τ

/-- `nlru`.  `deleteCb` says whether a delete callback is set, and `nextAddr` is the address of the
next node that is allocated. -/
structure NlruMaps (τ : Type) where
  labelIdSetMap : String → Option (Finset ℕ)
  itemListMap : ℕ → Option ℕ
  itemList : List (NlruItem τ)
  itemListSize : ℕ
  idLabelMap : ℕ → Option String
  maxEntries : ℕ
  deleteCb : Bool
  nextId : ℕ
  nextAddr : ℕ

namespace NlruMaps

variable {τ : Type}

/-- The constructor, and `set_delete_cb`. -/
def new (maxEntries : ℕ) (deleteCb : Bool) : NlruMaps τ where
  labelIdSetMap := fun _ => none
  itemListMap := fun _ => none
  itemList := []
  itemListSize := 0
  idLabelMap := fun _ => none
  maxEntries := maxEntries % 2 ^ 32
  deleteCb := deleteCb
  nextId := 0
  nextAddr := 0

/-- `std::list::erase` -/
def eraseAt (l : List (NlruItem τ)) (it : ℕ) : Option (List (NlruItem τ)) :=
  if l.any (·.addr = it) then some (l.eraseP (·.addr = it)) else none

/-- `nlru::remove` -/
def remove (t : NlruMaps τ) (id : ℕ) : Option (NlruMaps τ) :=
  (t.idLabelMap id).elim (some t) fun label =>
    (t.labelIdSetMap label).elim (some t) fun set =>
      if id ∈ set then
        (t.itemListMap id).elim (some t) fun it => do
          let itemList ← eraseAt t.itemList it
          some
            { t with
              labelIdSetMap := Function.update t.labelIdSetMap label
                (if set.erase id = ∅ then none else some (set.erase id))
              itemListSize := t.itemListSize - 1
              itemList := itemList
              itemListMap := Function.update t.itemListMap id none
              idLabelMap := Function.update t.idLabelMap id none }
      else some t

/-- `nlru::evict`, with the calls of the delete callback. -/
def evict (t : NlruMaps τ) : Option (NlruMaps τ × List τ) :=
  t.itemList.getLast?.elim (some (t, [])) fun back => do
    let t' ← t.remove back.id
    some (t', if t.deleteCb then [back.entry] else [])

/-- The part of `nlru::insert` before the size is compared with the maximum. -/
def pushFront (t : NlruMaps τ) (label : String) (entry : τ) : NlruMaps τ :=
  { t with
    nextId := t.nextId + 1
    nextAddr := t.nextAddr + 1
    itemListSize := t.itemListSize + 1
    itemList := ⟨t.nextAddr, t.nextId, entry⟩ :: t.itemList
    labelIdSetMap := Function.update t.labelIdSetMap label
      ((t.labelIdSetMap label).elim (some {t.nextId}) fun set => some (insert t.nextId set))
    itemListMap := Function.update t.itemListMap t.nextId (some t.nextAddr)
    idLabelMap := Function.update t.idLabelMap t.nextId (some label) }

/-- `nlru::insert`: the new id, and the calls of the delete callback. -/
def insert (t : NlruMaps τ) (label : String) (entry : τ) : Option (NlruMaps τ × ℕ × List τ) :=
  let t' := t.pushFront label entry
  if t'.maxEntries < t'.itemListSize then do
    let r ← t'.evict
    some (r.1, t.nextId, r.2)
  else
    some (t', t.nextId, [])

/-- `nlru::get` -/
def get (t : NlruMaps τ) (label : String) : Option (Option τ × NlruMaps τ) :=
  (t.labelIdSetMap label).elim (some (none, t)) fun set =>
    if h : set.Nonempty then
      (t.itemListMap (set.min' h)).elim (some (none, t)) fun it => do
        let item ← t.itemList.find? (·.addr = it)
        let t' ← t.remove (set.min' h)
        some (some item.entry, t')
    else
      some (none, t)

/-! ## The four containers agree -/

/-- **The four containers are in step**, and the list is in the order of insertion. -/
structure Good (t : NlruMaps τ) : Prop where
  decreasing : t.itemList.Pairwise fun x y => y.id < x.id
  below : ∀ x ∈ t.itemList, x.id < t.nextId
  addrs : (t.itemList.map NlruItem.addr).Nodup
  allocated : ∀ x ∈ t.itemList, x.addr < t.nextAddr
  size : t.itemListSize = t.itemList.length
  iterators : ∀ id it, t.itemListMap id = some it ↔ ∃ x ∈ t.itemList, x.id = id ∧ x.addr = it
  labelled : ∀ id, (∃ label, t.idLabelMap id = some label) ↔ ∃ x ∈ t.itemList, x.id = id
  filed : ∀ id label, (∃ set ∈ t.labelIdSetMap label, id ∈ set) ↔ t.idLabelMap id = some label
  nonempty : ∀ label, ∀ set ∈ t.labelIdSetMap label, set.Nonempty

lemma good_new (n : ℕ) (cb : Bool) : (new n cb : NlruMaps τ).Good where
  decreasing := .nil
  below := nofun
  addrs := List.nodup_nil
  allocated := nofun
  size := rfl
  iterators := by simp [new]
  labelled := by simp [new]
  filed := by simp [new]
  nonempty := nofun

section Good

variable {t : NlruMaps τ}

lemma Good.ids_nodup (h : t.Good) : (t.itemList.map NlruItem.id).Nodup := by
  rw [List.Nodup, List.pairwise_map]
  exact h.decreasing.imp fun hlt heq => absurd heq (by omega)

/-- An item is the only one with its id. -/
lemma Good.item_unique (h : t.Good) {x y : NlruItem τ} (hx : x ∈ t.itemList) (hy : y ∈ t.itemList)
    (hid : x.id = y.id) : x = y :=
  List.inj_on_of_nodup_map h.ids_nodup hx hy hid

/-- An item is the only one at its address. -/
lemma Good.addr_unique (h : t.Good) {x y : NlruItem τ} (hx : x ∈ t.itemList) (hy : y ∈ t.itemList)
    (ha : x.addr = y.addr) : x = y :=
  List.inj_on_of_nodup_map h.addrs hx hy ha

/-- Erasing the node of an item takes this one out of the list. -/
lemma Good.eraseAt (h : t.Good) {x : NlruItem τ} (hx : x ∈ t.itemList) :
    eraseAt t.itemList x.addr = some (t.itemList.filter (·.id ≠ x.id)) := by
  have hany : t.itemList.any (·.addr = x.addr) = true :=
    List.any_eq_true.mpr ⟨x, hx, by simp⟩
  have hsame : t.itemList.filter (·.id ≠ x.id) = t.itemList.filter (·.addr ≠ x.addr) := by
    refine List.filter_congr fun y hy =>
      decide_eq_decide.mpr (not_congr ⟨fun he => ?_, fun he => ?_⟩)
    · rw [h.item_unique hy hx he]
    · rw [h.addr_unique hy hx he]
  rw [NlruMaps.eraseAt, if_pos hany, eraseP_of_nodup_keys h.addrs, hsame]

/-! ## `remove` -/

/-- What `remove` leaves of the store, for an id with this label. -/
def without (t : NlruMaps τ) (id : ℕ) (label : String) (set : Finset ℕ) : NlruMaps τ :=
  { t with
    labelIdSetMap := Function.update t.labelIdSetMap label
      (if set.erase id = ∅ then none else some (set.erase id))
    itemListSize := t.itemListSize - 1
    itemList := t.itemList.filter (·.id ≠ id)
    itemListMap := Function.update t.itemListMap id none
    idLabelMap := Function.update t.idLabelMap id none }

/-- An id that is in the list is removed from all four containers. -/
lemma Good.remove_of_mem (h : t.Good) {x : NlruItem τ} (hx : x ∈ t.itemList) :
    ∃ label set, t.idLabelMap x.id = some label ∧ t.labelIdSetMap label = some set ∧
      x.id ∈ set ∧ t.remove x.id = some (t.without x.id label set) := by
  obtain ⟨label, hlabel⟩ := (h.labelled x.id).mpr ⟨x, hx, rfl⟩
  obtain ⟨set, hset, hmem⟩ := (h.filed x.id label).mpr hlabel
  have hset : t.labelIdSetMap label = some set := hset
  have hit : t.itemListMap x.id = some x.addr := (h.iterators x.id x.addr).mpr ⟨x, hx, rfl, rfl⟩
  refine ⟨label, set, hlabel, hset, hmem, ?_⟩
  rw [NlruMaps.remove, hlabel, Option.elim_some, hset, Option.elim_some, if_pos hmem, hit,
    Option.elim_some, h.eraseAt hx]
  rfl

/-- An id that is not in the list is not known anywhere. -/
lemma Good.remove_of_notMem (h : t.Good) {id : ℕ} (hid : ¬ ∃ x ∈ t.itemList, x.id = id) :
    t.remove id = some t := by
  have hnone : t.idLabelMap id = none := by
    by_contra hne
    exact hid ((h.labelled id).mp (Option.ne_none_iff_exists'.mp hne))
  rw [NlruMaps.remove, hnone, Option.elim_none]

/-- A set that is filed only while it is not empty has the same elements. -/
lemma mem_filed_iff {S : Finset ℕ} {i : ℕ} :
    (∃ s ∈ (if S = ∅ then none else some S), i ∈ s) ↔ i ∈ S := by
  by_cases hS : S = ∅
  · simp [hS]
  · simp [hS]

lemma mem_filter_ids {P : NlruItem τ → Prop} (l : List (NlruItem τ)) (id i : ℕ) :
    (∃ x ∈ l.filter (·.id ≠ id), x.id = i ∧ P x) ↔ i ≠ id ∧ ∃ x ∈ l, x.id = i ∧ P x := by
  simp only [List.mem_filter, decide_eq_true_eq]
  constructor
  · rintro ⟨x, ⟨hx, hne⟩, rfl, hP⟩
    exact ⟨hne, x, hx, rfl, hP⟩
  · rintro ⟨hne, x, hx, rfl, hP⟩
    exact ⟨x, ⟨hx, hne⟩, rfl, hP⟩

lemma Good.without (h : t.Good) {x : NlruItem τ} (hx : x ∈ t.itemList) {label : String}
    {set : Finset ℕ} (hlabel : t.idLabelMap x.id = some label)
    (hset : t.labelIdSetMap label = some set) : (t.without x.id label set).Good where
  decreasing := h.decreasing.filter _
  below := fun y hy => h.below y (List.mem_filter.mp hy).1
  addrs := h.addrs.sublist (List.filter_sublist.map _)
  allocated := fun y hy => h.allocated y (List.mem_filter.mp hy).1
  size := by
    have hlen := List.length_eraseP_of_mem (p := (·.id = x.id)) hx (by simp)
    rw [eraseP_of_nodup_keys h.ids_nodup] at hlen
    exact (congrArg (· - 1) h.size).trans hlen.symm
  iterators := by
    intro id it
    change Function.update t.itemListMap x.id none id = some it ↔
      ∃ y ∈ t.itemList.filter (·.id ≠ x.id), y.id = id ∧ y.addr = it
    rw [mem_filter_ids]
    by_cases hid : id = x.id
    · simp [hid]
    · rw [Function.update_of_ne hid, h.iterators]
      exact (and_iff_right hid).symm
  labelled := by
    intro id
    change (∃ l, Function.update t.idLabelMap x.id none id = some l) ↔
      ∃ y ∈ t.itemList.filter (·.id ≠ x.id), y.id = id
    have hfilter := mem_filter_ids (P := fun _ => True) t.itemList x.id id
    simp only [and_true] at hfilter
    rw [hfilter]
    by_cases hid : id = x.id
    · simp [hid]
    · rw [Function.update_of_ne hid, h.labelled]
      exact (and_iff_right hid).symm
  filed := by
    intro id l
    change (∃ s ∈ Function.update t.labelIdSetMap label
        (if set.erase x.id = ∅ then none else some (set.erase x.id)) l, id ∈ s) ↔
      Function.update t.idLabelMap x.id none id = some l
    have hold := h.filed id l
    by_cases hl : l = label
    · subst hl
      rw [Function.update_self, mem_filed_iff, Finset.mem_erase]
      rw [hset] at hold
      have hmem : id ∈ set ↔ t.idLabelMap id = some l := by simpa using hold
      rw [hmem]
      by_cases hid : id = x.id
      · simp [hid]
      · simp [hid]
    · rw [Function.update_of_ne hl, hold]
      by_cases hid : id = x.id
      · subst hid
        rw [Function.update_self, hlabel]
        simp [Ne.symm hl]
      · rw [Function.update_of_ne hid]
  nonempty := by
    intro l s hs
    change s ∈ Function.update t.labelIdSetMap label
      (if set.erase x.id = ∅ then none else some (set.erase x.id)) l at hs
    by_cases hl : l = label
    · subst hl
      rw [Function.update_self] at hs
      by_cases hempty : set.erase x.id = ∅
      · simp [hempty] at hs
      · simp only [hempty, if_false, Option.mem_def, Option.some.injEq] at hs
        exact hs ▸ Finset.nonempty_iff_ne_empty.mpr hempty
    · rw [Function.update_of_ne hl] at hs
      exact h.nonempty l s hs

/-- The store is in order, and differs by the items with the id, and by its label. -/
structure Lacks (t u : NlruMaps τ) (id : ℕ) : Prop where
  good : u.Good
  itemList : u.itemList = t.itemList.filter (·.id ≠ id)
  idLabelMap : u.idLabelMap = Function.update t.idLabelMap id none
  maxEntries : u.maxEntries = t.maxEntries
  deleteCb : u.deleteCb = t.deleteCb
  nextId : u.nextId = t.nextId

/-- **`remove` takes out the item with the id, if there is one.** -/
lemma Good.remove_spec (h : t.Good) (id : ℕ) : ∃ u, t.remove id = some u ∧ Lacks t u id := by
  by_cases hid : ∃ x ∈ t.itemList, x.id = id
  · obtain ⟨x, hx, rfl⟩ := hid
    obtain ⟨label, set, hlabel, hset, hmem, hrem⟩ := h.remove_of_mem hx
    exact ⟨_, hrem, h.without hx hlabel hset, rfl, rfl, rfl, rfl, rfl⟩
  · refine ⟨t, h.remove_of_notMem hid, h, ?_, ?_, rfl, rfl, rfl⟩
    · refine (List.filter_eq_self.mpr fun x hx => ?_).symm
      have hne : x.id ≠ id := fun he => hid ⟨x, hx, he⟩
      simpa using hne
    · have hnone : t.idLabelMap id = none := by
        by_contra hne
        exact hid ((h.labelled id).mp (Option.ne_none_iff_exists'.mp hne))
      rw [← hnone, Function.update_eq_self]

/-! ## `insert` -/

lemma Good.pushFront (h : t.Good) (label : String) (entry : τ) :
    (t.pushFront label entry).Good := by
  have hfresh : ∀ x ∈ t.itemList, x.id ≠ t.nextId := fun x hx => Nat.ne_of_lt (h.below x hx)
  have hnone : t.idLabelMap t.nextId = none := by
    by_contra hne
    obtain ⟨x, hx, hid⟩ := (h.labelled _).mp (Option.ne_none_iff_exists'.mp hne)
    exact hfresh x hx hid
  exact {
    decreasing := List.pairwise_cons.mpr ⟨h.below, h.decreasing⟩
    below := by
      rintro x hx
      rcases List.mem_cons.mp hx with rfl | hx
      · exact Nat.lt_succ_self _
      · exact Nat.lt_succ_of_lt (h.below x hx)
    addrs := by
      refine List.nodup_cons.mpr ⟨fun hmem => ?_, h.addrs⟩
      obtain ⟨x, hx, ha⟩ := List.mem_map.mp hmem
      exact absurd ha (Nat.ne_of_lt (h.allocated x hx))
    allocated := by
      rintro x hx
      rcases List.mem_cons.mp hx with rfl | hx
      · exact Nat.lt_succ_self _
      · exact Nat.lt_succ_of_lt (h.allocated x hx)
    size := congrArg (· + 1) h.size
    iterators := by
      intro id it
      change Function.update t.itemListMap t.nextId (some t.nextAddr) id = some it ↔
        ∃ x ∈ ⟨t.nextAddr, t.nextId, entry⟩ :: t.itemList, x.id = id ∧ x.addr = it
      rw [List.exists_mem_cons_iff]
      by_cases hid : id = t.nextId
      · subst hid
        rw [Function.update_self]
        constructor
        · intro he
          exact .inl ⟨rfl, Option.some.inj he⟩
        · rintro (⟨-, rfl⟩ | ⟨x, hx, he, -⟩)
          · rfl
          · exact absurd he (hfresh x hx)
      · rw [Function.update_of_ne hid, h.iterators]
        simp [Ne.symm hid]
    labelled := by
      intro id
      change (∃ l, Function.update t.idLabelMap t.nextId (some label) id = some l) ↔
        ∃ x ∈ ⟨t.nextAddr, t.nextId, entry⟩ :: t.itemList, x.id = id
      rw [List.exists_mem_cons_iff]
      by_cases hid : id = t.nextId
      · simp [hid]
      · rw [Function.update_of_ne hid, h.labelled]
        simp [Ne.symm hid]
    filed := by
      intro id l
      have hold := h.filed id l
      change (∃ s ∈ Function.update t.labelIdSetMap label _ l, id ∈ s) ↔
        Function.update t.idLabelMap t.nextId (some label) id = some l
      by_cases hl : l = label
      · subst hl
        have hset : (∃ s ∈ (t.labelIdSetMap l).elim (some {t.nextId})
            fun set => some (Insert.insert t.nextId set), id ∈ s) ↔
            id = t.nextId ∨ t.idLabelMap id = some l := by
          rw [← hold]
          cases t.labelIdSetMap l with
          | none => simp
          | some set => simp
        rw [Function.update_self, hset]
        by_cases hid : id = t.nextId
        · simp [hid]
        · simp [hid]
      · rw [Function.update_of_ne hl, hold]
        by_cases hid : id = t.nextId
        · subst hid
          rw [Function.update_self, hnone]
          simp [Ne.symm hl]
        · rw [Function.update_of_ne hid]
    nonempty := by
      intro l s hs
      change s ∈ Function.update t.labelIdSetMap label _ l at hs
      by_cases hl : l = label
      · subst hl
        rw [Function.update_self] at hs
        cases hset : t.labelIdSetMap l with
        | none =>
            rw [hset] at hs
            obtain rfl := Option.some.inj hs
            exact Finset.singleton_nonempty _
        | some set =>
            rw [hset] at hs
            obtain rfl := Option.some.inj hs
            exact Finset.insert_nonempty _ _
      · rw [Function.update_of_ne hl] at hs
        exact h.nonempty l s hs }

/-! ## `evict` and `get` -/

/-- **`evict` takes out the last item, and calls the delete callback on its entry.** -/
lemma Good.evict_spec (h : t.Good) : (t.itemList = [] ∧ t.evict = some (t, [])) ∨
    ∃ x ∈ t.itemList, (∀ y ∈ t.itemList, x.id ≤ y.id) ∧ ∃ u,
      t.evict = some (u, if t.deleteCb then [x.entry] else []) ∧ Lacks t u x.id := by
  rcases List.eq_nil_or_concat' t.itemList with hnil | ⟨l, x, hl⟩
  · refine .inl ⟨hnil, ?_⟩
    rw [NlruMaps.evict, hnil, List.getLast?_nil, Option.elim_none]
  · obtain ⟨u, hrem, hu⟩ := h.remove_spec x.id
    refine .inr ⟨x, by simp [hl], fun y hy => ?_, u, ?_, hu⟩
    · have hdec := h.decreasing
      rw [hl] at hy hdec
      rcases List.mem_append.mp hy with hy | hy
      · exact Nat.le_of_lt ((List.pairwise_append.mp hdec).2.2 y hy x (by simp))
      · rw [List.mem_singleton.mp hy]
    · rw [NlruMaps.evict, hl, List.getLast?_concat, Option.elim_some, hrem]
      rfl

/-- **`get` takes out the item with the least id that is filed under the label.** -/
lemma Good.get_spec (h : t.Good) (label : String) :
    (t.get label = some (none, t) ∧ ∀ id, t.idLabelMap id ≠ some label) ∨
    ∃ x ∈ t.itemList, t.idLabelMap x.id = some label ∧
      (∀ id, t.idLabelMap id = some label → x.id ≤ id) ∧ ∃ u,
        t.get label = some (some x.entry, u) ∧ t.remove x.id = some u ∧ Lacks t u x.id := by
  cases hset : t.labelIdSetMap label with
  | none =>
      refine .inl ⟨by rw [NlruMaps.get, hset, Option.elim_none], fun id hid => ?_⟩
      obtain ⟨set, hmem, -⟩ := (h.filed id label).mpr hid
      rw [hset] at hmem
      cases hmem
  | some set =>
      have hne : set.Nonempty := h.nonempty label set hset
      have hfiled : ∀ id, id ∈ set ↔ t.idLabelMap id = some label := by
        intro id
        rw [← h.filed, hset]
        simp
      have hmin := (hfiled _).mp (Finset.min'_mem set hne)
      obtain ⟨x, hx, hid⟩ := (h.labelled _).mp ⟨label, hmin⟩
      have hit : t.itemListMap (set.min' hne) = some x.addr :=
        (h.iterators _ _).mpr ⟨x, hx, hid, rfl⟩
      have hfind : t.itemList.find? (·.addr = x.addr) = some x := by
        have hsome : (t.itemList.find? (·.addr = x.addr)).isSome :=
          List.find?_isSome.mpr ⟨x, hx, by simp⟩
        obtain ⟨y, hy⟩ := Option.isSome_iff_exists.mp hsome
        have haddr : y.addr = x.addr := by simpa using List.find?_some hy
        rw [hy, h.addr_unique (List.mem_of_find?_eq_some hy) hx haddr]
      obtain ⟨u, hrem, hu⟩ := h.remove_spec x.id
      refine .inr ⟨x, hx, hid ▸ hmin, fun id hl => ?_, u, ?_, hrem, hu⟩
      · rw [hid]
        exact Finset.min'_le set id ((hfiled id).mpr hl)
      · rw [NlruMaps.get, hset, Option.elim_some, dif_pos hne, hit, Option.elim_some, hfind, ← hid,
          Option.bind_eq_bind, Option.bind_some, hrem]
        rfl

end Good

/-! ## The maps as functions

`Nlru` is the same store, with the maps read as functions to sets and the list without addresses.
-/

/-- The store is read as this one. -/
structure Reads (t : NlruMaps τ) (u : Nlru τ) : Prop where
  labelIdSetMap : ∀ label, u.labelIdSetMap label = (t.labelIdSetMap label).getD ∅
  itemListMap : ∀ id, id ∈ u.itemListMap ↔ ∃ it, t.itemListMap id = some it
  itemList : u.itemList = t.itemList.map fun x => (x.id, x.entry)
  itemListSize : u.itemListSize = t.itemListSize
  idLabelMap : u.idLabelMap = t.idLabelMap
  maxEntries : u.maxEntries = t.maxEntries
  nextId : u.nextId = t.nextId

section Reads

variable {t : NlruMaps τ} {u : Nlru τ}

lemma Reads.ids (h : t.Reads u) : u.ids = t.itemList.map NlruItem.id := by
  rw [Nlru.ids, h.itemList, List.map_map]
  rfl

lemma Reads.good (h : t.Reads u) (ht : t.Good) : u.Good where
  nodup := by
    rw [h.ids]
    exact ht.ids_nodup
  size := by rw [h.itemListSize, h.itemList, List.length_map, ht.size]
  keys := by
    intro id
    rw [h.itemListMap, h.ids, List.mem_map]
    constructor
    · rintro ⟨it, hit⟩
      obtain ⟨x, hx, hid, -⟩ := (ht.iterators id it).mp hit
      exact ⟨x, hx, hid⟩
    · rintro ⟨x, hx, hid⟩
      exact ⟨x.addr, (ht.iterators id x.addr).mpr ⟨x, hx, hid, rfl⟩⟩
  labelled := by
    intro id
    rw [h.ids, h.idLabelMap, ht.labelled, List.mem_map]
  filed := by
    intro id label
    rw [h.labelIdSetMap, h.idLabelMap, ← ht.filed]
    cases t.labelIdSetMap label with
    | none => simp
    | some set => simp
  fresh := by
    intro id hid
    rw [h.ids] at hid
    obtain ⟨x, hx, rfl⟩ := List.mem_map.mp hid
    rw [h.nextId]
    exact ht.below x hx

/-- **`remove` of the containers is `remove` of the functions.** -/
theorem Reads.remove (h : t.Reads u) (ht : t.Good) (id : ℕ) :
    ∃ t', t.remove id = some t' ∧ t'.Reads (u.remove id) := by
  have hu := h.good ht
  by_cases hid : ∃ x ∈ t.itemList, x.id = id
  · obtain ⟨x, hx, rfl⟩ := hid
    obtain ⟨label, set, hlabel, hset, hmem, hrem⟩ := ht.remove_of_mem hx
    refine ⟨_, hrem, ?_⟩
    have hlist := hu.remove_itemList x.id
    have hul : u.idLabelMap x.id = some label := by rw [h.idLabelMap, hlabel]
    rw [hu.remove_eq hul] at hlist ⊢
    have hus : u.labelIdSetMap label = set := by rw [h.labelIdSetMap, hset, Option.getD_some]
    constructor
    · intro l
      change Function.update u.labelIdSetMap label ((u.labelIdSetMap label).erase x.id) l =
        (Function.update t.labelIdSetMap label
          (if set.erase x.id = ∅ then none else some (set.erase x.id)) l).getD ∅
      by_cases hl : l = label
      · subst hl
        rw [Function.update_self, Function.update_self, hus]
        split_ifs with hempty
        · exact hempty
        · rfl
      · rw [Function.update_of_ne hl, Function.update_of_ne hl, h.labelIdSetMap]
    · intro i
      change i ∈ u.itemListMap.erase x.id ↔
        ∃ it, Function.update t.itemListMap x.id none i = some it
      rw [Finset.mem_erase, h.itemListMap]
      by_cases hi : i = x.id
      · simp [hi]
      · rw [Function.update_of_ne hi]
        exact and_iff_right hi
    · change u.itemList.eraseP (·.1 = x.id) = (t.itemList.filter (·.id ≠ x.id)).map _
      refine hlist.trans ?_
      rw [h.itemList, List.filter_map]
      rfl
    · exact congrArg (· - 1) h.itemListSize
    · change Function.update u.idLabelMap x.id none = Function.update t.idLabelMap x.id none
      rw [h.idLabelMap]
    · exact h.maxEntries
    · exact h.nextId
  · refine ⟨t, ht.remove_of_notMem hid, ?_⟩
    rw [hu.remove_of_notMem]
    · exact h
    · rw [h.ids, List.mem_map]
      exact hid

/-- **`evict` of the containers is `evict` of the functions.** -/
theorem Reads.evict (h : t.Reads u) (ht : t.Good) :
    ∃ t', t.evict = some (t', if t.deleteCb then u.evict.2.toList else []) ∧
      t'.Reads u.evict.1 := by
  rcases List.eq_nil_or_concat' t.itemList with hnil | ⟨l, x, hl⟩
  · have hunil : u.itemList = [] := by rw [h.itemList, hnil, List.map_nil]
    have hev : u.evict = (u, none) := by rw [Nlru.evict, hunil]; rfl
    refine ⟨t, ?_, by rw [hev]; exact h⟩
    rw [NlruMaps.evict, hnil, List.getLast?_nil, Option.elim_none, hev]
    simp
  · obtain ⟨t', hrem, ht'⟩ := h.remove ht x.id
    have hul : u.itemList = l.map (fun x => (x.id, x.entry)) ++ [(x.id, x.entry)] := by
      rw [h.itemList, hl, List.map_append]
      rfl
    have hev := ((h.good ht).evict_append hul).1
    refine ⟨t', ?_, by rw [hev]; exact ht'⟩
    rw [NlruMaps.evict, hl, List.getLast?_concat, Option.elim_some, hrem, hev]
    rfl

/-- **`get` of the containers is `get` of the functions.** -/
theorem Reads.get (h : t.Reads u) (ht : t.Good) (label : String) :
    (t.get label = some (none, t) ∧ u.get label = none) ∨
      ∃ c t' u', t.get label = some (some c, t') ∧ u.get label = some (c, u') ∧ t'.Reads u' := by
  have hu := h.good ht
  rcases ht.get_spec label with ⟨hget, hnone⟩ | ⟨x, hx, hl, hmin, t', hget, hrem, -⟩
  · refine .inl ⟨hget, ?_⟩
    have hempty : ¬ (u.labelIdSetMap label).Nonempty := by
      rintro ⟨id, hid⟩
      rw [hu.filed, h.idLabelMap] at hid
      exact hnone id hid
    rw [Nlru.get, dif_neg hempty]
  · right
    have hmem : x.id ∈ u.labelIdSetMap label := by rw [hu.filed, h.idLabelMap, hl]
    have hne : (u.labelIdSetMap label).Nonempty := ⟨_, hmem⟩
    have hmin' : (u.labelIdSetMap label).min' hne = x.id := by
      refine le_antisymm (Finset.min'_le _ _ hmem) (hmin _ ?_)
      rw [← h.idLabelMap, ← hu.filed]
      exact Finset.min'_mem _ hne
    have hitem : (x.id, x.entry) ∈ u.itemList := by
      rw [h.itemList]
      exact List.mem_map_of_mem hx
    have hkey : x.id ∈ u.itemListMap := (hu.keys _).mpr (List.mem_map_of_mem hitem)
    have hfind : u.itemList.find? (·.1 = x.id) = some (x.id, x.entry) := by
      have hsome : (u.itemList.find? (·.1 = x.id)).isSome :=
        List.find?_isSome.mpr ⟨_, hitem, by simp⟩
      obtain ⟨⟨i, c⟩, hc⟩ := Option.isSome_iff_exists.mp hsome
      have hid : i = x.id := by simpa using List.find?_some hc
      subst hid
      rw [hc, hu.item_unique (List.mem_of_find?_eq_some hc) hitem]
    obtain ⟨t'', hrem', hreads⟩ := h.remove ht x.id
    obtain rfl := Option.some.inj (hrem.symm.trans hrem')
    refine ⟨x.entry, t', u.remove x.id, hget, ?_, hreads⟩
    simp only [Nlru.get, dif_pos hne, hmin', if_pos hkey, hfind]
    rfl

lemma Reads.pushFront (h : t.Reads u) (label : String) (c : τ) :
    (t.pushFront label c).Reads (u.pushFront label c) where
  labelIdSetMap := by
    intro l
    change
      Function.update u.labelIdSetMap label (Insert.insert u.nextId (u.labelIdSetMap label)) l =
      (Function.update t.labelIdSetMap label ((t.labelIdSetMap label).elim (some {t.nextId})
        fun set => some (Insert.insert t.nextId set)) l).getD ∅
    by_cases hl : l = label
    · subst hl
      rw [Function.update_self, Function.update_self, h.labelIdSetMap, h.nextId]
      cases t.labelIdSetMap l with
      | none => rfl
      | some set => rfl
    · rw [Function.update_of_ne hl, Function.update_of_ne hl, h.labelIdSetMap]
  itemListMap := by
    intro i
    change i ∈ Insert.insert u.nextId u.itemListMap ↔
      ∃ it, Function.update t.itemListMap t.nextId (some t.nextAddr) i = some it
    rw [Finset.mem_insert, h.itemListMap, h.nextId]
    by_cases hi : i = t.nextId
    · simp [hi]
    · simp [hi]
  itemList := by
    change (u.nextId, c) :: u.itemList = (t.nextId, c) :: t.itemList.map _
    rw [h.nextId, h.itemList]
  itemListSize := congrArg (· + 1) h.itemListSize
  idLabelMap := by
    change Function.update u.idLabelMap u.nextId (some label) =
      Function.update t.idLabelMap t.nextId (some label)
    rw [h.idLabelMap, h.nextId]
  maxEntries := h.maxEntries
  nextId := congrArg (· + 1) h.nextId

/-- **`insert` of the containers is `insert` of the functions.** -/
theorem Reads.insert (h : t.Reads u) (ht : t.Good) (label : String) (c : τ) :
    ∃ t', t.insert label c = some (t', (u.insert label c).2.1,
        if t.deleteCb then (u.insert label c).2.2.toList else []) ∧
      t'.Reads (u.insert label c).1 := by
  have hp := h.pushFront label c
  have hiff : (u.pushFront label c).maxEntries < (u.pushFront label c).itemListSize ↔
      (t.pushFront label c).maxEntries < (t.pushFront label c).itemListSize := by
    rw [hp.maxEntries, hp.itemListSize]
  by_cases hlt : (t.pushFront label c).maxEntries < (t.pushFront label c).itemListSize
  · obtain ⟨t', hev, ht'⟩ := hp.evict (ht.pushFront label c)
    have hins : u.insert label c =
        ((u.pushFront label c).evict.1, u.nextId, (u.pushFront label c).evict.2) := by
      simp only [Nlru.insert, if_pos (hiff.mpr hlt)]
    refine ⟨t', ?_, by rw [hins]; exact ht'⟩
    simp only [NlruMaps.insert, if_pos hlt, hev, hins, h.nextId]
    rfl
  · have hins : u.insert label c = (u.pushFront label c, u.nextId, none) := by
      simp only [Nlru.insert, if_neg (mt hiff.mp hlt)]
    refine ⟨_, ?_, by rw [hins]; exact hp⟩
    simp only [NlruMaps.insert, if_neg hlt, hins, h.nextId]
    simp

end Reads

end NlruMaps

end Is2
