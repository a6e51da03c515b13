import Mathlib.Data.Finset.Max
import Mathlib.Data.List.Nodup
import Mathlib.Algebra.Ring.Nat
import Mathlib.Tactic
import Is2.Core.Lists

/-!
# The LRU of idle connections

`nlru<_Tp>` of `support/nlru.h`, over an arbitrary type of entries.  An entry is filed under a fresh
id and under the label it is inserted with; `get` takes out the entry of a label with the least id,
`evict` the entry that was inserted first, after it has told the owner through the delete callback.

Four containers say the same thing in different ways; every function keeps them in step, because no
id is ever used twice.

**Model.**  A `std::map` whose values are sets that are erased when they become empty is a function
to `Finset`.  The iterator that `m_item_list_map` keeps for an id always points at the newest item
with that id, since items are pushed at the front, so the map is the set of its keys and the
iterator is the first item with the id.  The delete callback is run by the caller: `evict` and
`insert` return the entry it is called with.  Ids are drawn from a 64-bit counter that goes up by
one with every insertion; here it is a natural number.

**Invariant.**  `Good`, kept by `remove`, `evict` and `insert`.
-/

namespace Is2

/-- `nlru`.  `itemList` has the newest entry first. -/
structure Nlru (τ : Type) where
  labelIdSetMap : String → Finset ℕ
  itemListMap : Finset ℕ
  itemList : List (ℕ × τ)
  itemListSize : ℕ
  idLabelMap : ℕ → Option String
  maxEntries : ℕ
  nextId : ℕ

namespace Nlru

variable {τ : Type}

/-- The constructor; its argument is a `uint32_t`. -/
def new (maxEntries : ℕ) : Nlru τ where
  labelIdSetMap := fun _ => ∅
  itemListMap := ∅
  itemList := []
  itemListSize := 0
  idLabelMap := fun _ => none
  maxEntries := maxEntries % 2 ^ 32
  nextId := 0

/-- `nlru::remove`. -/
def remove (t : Nlru τ) (id : ℕ) : Nlru τ :=
  match t.idLabelMap id with
  | none => t
  | some label =>
      if id ∈ t.labelIdSetMap label ∧ id ∈ t.itemListMap then
        { t with
          labelIdSetMap := Function.update t.labelIdSetMap label ((t.labelIdSetMap label).erase id)
          itemListSize := t.itemListSize - 1
          itemList := t.itemList.eraseP (·.1 = id)
          itemListMap := t.itemListMap.erase id
          idLabelMap := Function.update t.idLabelMap id none }
      else t

/-- `nlru::evict`, with the entry that the delete callback is called with. -/
def evict (t : Nlru τ) : Nlru τ × Option τ :=
  match t.itemList.getLast? with
  | none => (t, none)
  | some (id, ref) => (t.remove id, some ref)

/-- The part of `nlru::insert` before the size is compared with the maximum. -/
def pushFront (t : Nlru τ) (label : String) (entry : τ) : Nlru τ :=
  { t with
    nextId := t.nextId + 1
    itemListSize := t.itemListSize + 1
    itemList := (t.nextId, entry) :: t.itemList
    labelIdSetMap := Function.update t.labelIdSetMap label
      (insert t.nextId (t.labelIdSetMap label))
    itemListMap := insert t.nextId t.itemListMap
    idLabelMap := Function.update t.idLabelMap t.nextId (some label) }

/-- `nlru::insert`: the new id, and the entry that was evicted. -/
def insert (t : Nlru τ) (label : String) (entry : τ) : Nlru τ × ℕ × Option τ :=
  let t' := t.pushFront label entry
  if t'.maxEntries < t'.itemListSize then
    let (t', evicted) := t'.evict
    (t', t.nextId, evicted)
  else (t', t.nextId, none)

/-- `nlru::get`. -/
def get (t : Nlru τ) (label : String) : Option (τ × Nlru τ) :=
  if h : (t.labelIdSetMap label).Nonempty then
    let id := (t.labelIdSetMap label).min' h
    if id ∈ t.itemListMap then
      (t.itemList.find? (·.1 = id)).map fun item => (item.2, t.remove id)
    else none
  else none

/-! ## The four containers agree -/

/-- The ids in use. -/
def ids (t : Nlru τ) : List ℕ := t.itemList.map Prod.fst

/-- Every id in use has one item, one label and its place in the set of that label, no other id has
any, and the next id is a new one. -/
structure Good (t : Nlru τ) : Prop where
  nodup : t.ids.Nodup
  size : t.itemListSize = t.itemList.length
  keys : ∀ id, id ∈ t.itemListMap ↔ id ∈ t.ids
  labelled : ∀ id, id ∈ t.ids ↔ ∃ label, t.idLabelMap id = some label
  filed : ∀ id label, id ∈ t.labelIdSetMap label ↔ t.idLabelMap id = some label
  fresh : ∀ id ∈ t.ids, id < t.nextId

lemma good_new (n : ℕ) : (new n : Nlru τ).Good :=
  ⟨List.nodup_nil, rfl, by simp [new, ids], by simp [new, ids], by simp [new], by simp [new, ids]⟩

lemma Good.nextId_notMem {t : Nlru τ} (h : t.Good) : t.nextId ∉ t.ids :=
  fun hid => lt_irrefl _ (h.fresh _ hid)

/-- An item is the only one with its id. -/
lemma Good.item_unique {t : Nlru τ} (h : t.Good) {id : ℕ} {c d : τ}
    (hc : (id, c) ∈ t.itemList) (hd : (id, d) ∈ t.itemList) : c = d :=
  congrArg Prod.snd (List.inj_on_of_nodup_map h.nodup hc hd rfl)

/-! ## `remove` -/

@[simp] lemma remove_maxEntries (t : Nlru τ) (id : ℕ) :
    (t.remove id).maxEntries = t.maxEntries := by
  unfold remove
  split
  · rfl
  · split <;> rfl

@[simp] lemma remove_nextId (t : Nlru τ) (id : ℕ) : (t.remove id).nextId = t.nextId := by
  unfold remove
  split
  · rfl
  · split <;> rfl

/-- What `remove` does with an id in use. -/
lemma Good.remove_eq {t : Nlru τ} (h : t.Good) {id : ℕ} {label : String}
    (hl : t.idLabelMap id = some label) :
    t.remove id =
      { t with
        labelIdSetMap := Function.update t.labelIdSetMap label ((t.labelIdSetMap label).erase id)
        itemListSize := t.itemListSize - 1
        itemList := t.itemList.eraseP (·.1 = id)
        itemListMap := t.itemListMap.erase id
        idLabelMap := Function.update t.idLabelMap id none } := by
  have hmem : id ∈ t.labelIdSetMap label ∧ id ∈ t.itemListMap :=
    ⟨(h.filed id label).mpr hl, (h.keys id).mpr ((h.labelled id).mpr ⟨label, hl⟩)⟩
  rw [remove, hl]
  exact if_pos hmem

/-- An id that is not in use is not removed. -/
lemma Good.remove_of_notMem {t : Nlru τ} (h : t.Good) {id : ℕ} (hid : id ∉ t.ids) :
    t.remove id = t := by
  have hl : t.idLabelMap id = none := by
    by_contra hne
    exact hid ((h.labelled id).mpr (Option.ne_none_iff_exists'.mp hne))
  rw [remove, hl]

lemma Good.remove_itemList {t : Nlru τ} (h : t.Good) (id : ℕ) :
    (t.remove id).itemList = t.itemList.filter (·.1 ≠ id) := by
  by_cases hid : id ∈ t.ids
  · obtain ⟨label, hl⟩ := (h.labelled id).mp hid
    rw [h.remove_eq hl]
    exact eraseP_of_nodup_keys h.nodup id
  · rw [h.remove_of_notMem hid, List.filter_eq_self.mpr]
    intro x hx
    have hne : x.1 ≠ id := fun he => hid (he ▸ List.mem_map_of_mem hx)
    simpa using hne

lemma Good.remove_idLabelMap {t : Nlru τ} (h : t.Good) (id : ℕ) :
    (t.remove id).idLabelMap = Function.update t.idLabelMap id none := by
  by_cases hid : id ∈ t.ids
  · obtain ⟨label, hl⟩ := (h.labelled id).mp hid
    rw [h.remove_eq hl]
  · have hl : t.idLabelMap id = none := by
      by_contra hne
      exact hid ((h.labelled id).mpr (Option.ne_none_iff_exists'.mp hne))
    rw [h.remove_of_notMem hid, ← hl, Function.update_eq_self]

lemma mem_ids_filter {l : List (ℕ × τ)} {id i : ℕ} :
    i ∈ (l.filter (·.1 ≠ id)).map Prod.fst ↔ i ∈ l.map Prod.fst ∧ i ≠ id := by
  simp only [List.mem_map, List.mem_filter, decide_eq_true_eq]
  constructor
  · rintro ⟨x, ⟨hx, hne⟩, rfl⟩
    exact ⟨⟨x, hx, rfl⟩, hne⟩
  · rintro ⟨⟨x, hx, rfl⟩, hne⟩
    exact ⟨x, ⟨hx, hne⟩, rfl⟩

lemma Good.mem_remove_ids {t : Nlru τ} (h : t.Good) {id i : ℕ} :
    i ∈ (t.remove id).ids ↔ i ∈ t.ids ∧ i ≠ id := by
  rw [ids, h.remove_itemList, mem_ids_filter]
  rfl

lemma Good.remove {t : Nlru τ} (h : t.Good) (id : ℕ) : (t.remove id).Good := by
  by_cases hid : id ∈ t.ids
  · obtain ⟨label, hl⟩ := (h.labelled id).mp hid
    obtain ⟨x, hx, hxid⟩ := List.mem_map.mp hid
    refine ⟨?_, ?_, ?_, ?_, ?_, ?_⟩
    · rw [ids, h.remove_itemList]
      exact h.nodup.sublist (List.filter_sublist.map _)
    · rw [h.remove_eq hl]
      show t.itemListSize - 1 = (t.itemList.eraseP (·.1 = id)).length
      rw [List.length_eraseP_of_mem hx (by simpa using hxid), h.size]
    · intro i
      rw [h.mem_remove_ids, h.remove_eq hl, ← h.keys]
      show i ∈ t.itemListMap.erase id ↔ _
      rw [Finset.mem_erase, and_comm]
    · intro i
      rw [h.mem_remove_ids, h.remove_idLabelMap, h.labelled]
      by_cases hi : i = id <;> simp [hi]
    · intro i l
      rw [h.remove_idLabelMap, h.remove_eq hl]
      show i ∈ Function.update t.labelIdSetMap label ((t.labelIdSetMap label).erase id) l ↔ _
      by_cases hi : i = id
      · subst hi
        by_cases hll : l = label
        · subst hll; simp
        · have hne : t.idLabelMap i ≠ some l := by
            rw [hl]
            exact fun he => hll (Option.some.inj he).symm
          simp [hll, h.filed, hne]
      · by_cases hll : l = label
        · subst hll; simp [hi, h.filed]
        · simp [hi, hll, h.filed]
    · intro i hi
      rw [remove_nextId]
      exact h.fresh i (h.mem_remove_ids.mp hi).1
  · rw [h.remove_of_notMem hid]
    exact h

/-! ## `evict` -/

@[simp] lemma evict_maxEntries (t : Nlru τ) : t.evict.1.maxEntries = t.maxEntries := by
  unfold evict
  split
  · rfl
  · exact remove_maxEntries t _

@[simp] lemma evict_nextId (t : Nlru τ) : t.evict.1.nextId = t.nextId := by
  unfold evict
  split
  · rfl
  · exact remove_nextId t _

lemma Good.evict {t : Nlru τ} (h : t.Good) : t.evict.1.Good := by
  unfold Nlru.evict
  split
  · exact h
  · exact h.remove _

/-- Evicting takes the last item and nothing else. -/
lemma Good.evict_append {t : Nlru τ} (h : t.Good) {l : List (ℕ × τ)} {id : ℕ} {c : τ}
    (hl : t.itemList = l ++ [(id, c)]) :
    t.evict = (t.remove id, some c) ∧ (t.remove id).itemList = l := by
  have hlast : t.itemList.getLast? = some (id, c) := by rw [hl, List.getLast?_concat]
  have hnd := h.nodup
  rw [ids, hl, List.map_append, List.nodup_append] at hnd
  refine ⟨by rw [Nlru.evict, hlast], ?_⟩
  rw [h.remove_itemList, hl, List.filter_append, List.filter_eq_self.mpr]
  · simp
  · intro x hx
    have hne : x.1 ≠ id := hnd.2.2 x.1 (List.mem_map_of_mem hx) id (by simp)
    simpa using hne

/-! ## `insert` and `get` -/

lemma Good.pushFront {t : Nlru τ} (h : t.Good) (label : String) (c : τ) :
    (t.pushFront label c).Good := by
  have hid := h.nextId_notMem
  have hnone : t.idLabelMap t.nextId = none := by
    by_contra hne
    exact hid ((h.labelled _).mpr (Option.ne_none_iff_exists'.mp hne))
  refine ⟨List.nodup_cons.mpr ⟨hid, h.nodup⟩, congrArg (· + 1) h.size, ?_, ?_, ?_, ?_⟩
  · intro i
    show i ∈ Insert.insert t.nextId t.itemListMap ↔ i ∈ t.nextId :: t.ids
    rw [Finset.mem_insert, List.mem_cons, h.keys]
  · intro i
    show i ∈ t.nextId :: t.ids ↔ _
    rw [List.mem_cons, h.labelled]
    by_cases hi : i = t.nextId <;> simp [Nlru.pushFront, hi]
  · intro i l
    show i ∈ Function.update t.labelIdSetMap label
      (Insert.insert t.nextId (t.labelIdSetMap label)) l ↔
      Function.update t.idLabelMap t.nextId (some label) i = some l
    by_cases hi : i = t.nextId
    · subst hi
      by_cases hl : l = label
      · subst hl; simp
      · simp [hl, h.filed, hnone, Ne.symm hl]
    · by_cases hl : l = label
      · subst hl; simp [hi, h.filed]
      · simp [hi, hl, h.filed]
  · intro i hi
    show i < t.nextId + 1
    rcases List.mem_cons.mp hi with rfl | hi
    · exact Nat.lt_succ_self _
    · exact Nat.lt_succ_of_lt (h.fresh i hi)

lemma Good.insert {t : Nlru τ} (h : t.Good) (label : String) (c : τ) :
    (t.insert label c).1.Good := by
  unfold Nlru.insert
  simp only
  split
  · exact (h.pushFront label c).evict
  · exact h.pushFront label c

@[simp] lemma insert_maxEntries (t : Nlru τ) (label : String) (c : τ) :
    (t.insert label c).1.maxEntries = t.maxEntries := by
  unfold insert
  simp only
  split
  · exact evict_maxEntries _
  · rfl

@[simp] lemma insert_id (t : Nlru τ) (label : String) (c : τ) :
    (t.insert label c).2.1 = t.nextId := by
  unfold insert
  simp only
  split <;> rfl

/-- An insertion puts the entry in front, and takes one out at the other end if there is no room. -/
lemma Good.insert_itemList {t : Nlru τ} (h : t.Good) (label : String) (c : τ) :
    ((t.insert label c).1 = t.pushFront label c ∧ (t.insert label c).2.2 = none ∧
      t.itemList.length < t.maxEntries) ∨
    ∃ l id d, (t.nextId, c) :: t.itemList = l ++ [(id, d)] ∧
      (t.insert label c).1 = (t.pushFront label c).remove id ∧
      (t.insert label c).1.itemList = l ∧ (t.insert label c).2.2 = some d := by
  have hg := h.pushFront label c
  by_cases hlt : (t.pushFront label c).maxEntries < (t.pushFront label c).itemListSize
  · right
    rcases List.eq_nil_or_concat' (t.pushFront label c).itemList with hnil | ⟨l, ⟨id, d⟩, hl⟩
    · exact absurd hnil (List.cons_ne_nil _ _)
    · obtain ⟨hev, hrem⟩ := hg.evict_append hl
      have hins : t.insert label c = ((t.pushFront label c).remove id, t.nextId, some d) := by
        simp only [Nlru.insert, if_pos hlt, hev]
      exact ⟨l, id, d, hl, by rw [hins], by rw [hins, hrem], by rw [hins]⟩
  · left
    refine ⟨?_, ?_, ?_⟩
    · simp only [Nlru.insert, if_neg hlt]
    · simp only [Nlru.insert, if_neg hlt]
    · have := hg.size
      have hmax : (t.pushFront label c).maxEntries = t.maxEntries := rfl
      have hlen : (t.pushFront label c).itemList.length = t.itemList.length + 1 := rfl
      omega

/-- `get` takes out an item that was filed under the label. -/
lemma Good.get_some {t u : Nlru τ} (h : t.Good) {label : String} {c : τ}
    (hg : t.get label = some (c, u)) :
    ∃ id, (id, c) ∈ t.itemList ∧ t.idLabelMap id = some label ∧ u = t.remove id := by
  unfold Nlru.get at hg
  split_ifs at hg with hne
  simp only at hg
  split_ifs at hg
  obtain ⟨⟨id, d⟩, hfind, he⟩ := Option.map_eq_some_iff.mp hg
  obtain ⟨rfl, rfl⟩ := Prod.mk.inj he
  have hd : id = (t.labelIdSetMap label).min' hne := by simpa using List.find?_some hfind
  refine ⟨id, List.mem_of_find?_eq_some hfind, ?_, ?_⟩
  · rw [hd]
    exact (h.filed _ _).mp (Finset.min'_mem _ hne)
  · rw [hd]

/-- `get` finds the only item. -/
lemma Good.get_single {t : Nlru τ} (h : t.Good) {id : ℕ} {c : τ} {label : String}
    (hi : t.itemList = [(id, c)]) (hl : t.idLabelMap id = some label) :
    t.get label = some (c, t.remove id) := by
  have hset : t.labelIdSetMap label = {id} := by
    ext i
    rw [h.filed, Finset.mem_singleton]
    constructor
    · intro hil
      have hmem := (h.labelled i).mpr ⟨label, hil⟩
      simpa [ids, hi] using hmem
    · rintro rfl
      exact hl
  have hkey : id ∈ t.itemListMap := (h.keys id).mpr (by simp [ids, hi])
  simp [Nlru.get, hset, hkey, hi]

lemma get_maxEntries {t u : Nlru τ} {label : String} {c : τ} (hg : t.get label = some (c, u)) :
    u.maxEntries = t.maxEntries := by
  unfold get at hg
  split_ifs at hg with hne
  simp only at hg
  split_ifs at hg
  obtain ⟨item, -, he⟩ := Option.map_eq_some_iff.mp hg
  obtain ⟨-, rfl⟩ := Prod.mk.inj he
  exact remove_maxEntries t _

end Nlru

end Is2
