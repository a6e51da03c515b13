import Mathlib.Data.List.Perm.Basic
import Mathlib.Data.Set.Insert
import Is2.Core.Machine
import Is2.Support.NlruMaps

/-!
# The contract of the LRU

What `nlru<_Tp>` is for: a set of triples of id, label and entry, from which `get` takes the oldest
one of a label, `evict` the oldest one, and to which `insert` adds one.

The four containers describe one such set after every run of calls, each call does to it what it
should, and every entry that is inserted is in the store or has left it by one of `get`, `remove`
and `evict` (`nlru_contract`).
-/

namespace Is2

namespace NlruMaps

variable {τ : Type}

/-! ## What the containers describe -/

/-- **The containers describe this set of triples** of id, label and entry, each in its own way; and
the list is in the order of insertion, its length is counted, and within the capacity. -/
structure Describes (t : NlruMaps τ) (T : Set (ℕ × String × τ)) : Prop where
  distinct : ∀ x ∈ T, ∀ y ∈ T, x.1 = y.1 → x = y
  below : ∀ x ∈ T, x.1 < t.nextId
  list : ∀ id c, (∃ y ∈ t.itemList, y.id = id ∧ y.entry = c) ↔ ∃ label, (id, label, c) ∈ T
  keys : ∀ id, (∃ it, t.itemListMap id = some it) ↔ ∃ label c, (id, label, c) ∈ T
  iterators : ∀ id c, (∃ it ∈ t.itemListMap id, ∃ y ∈ t.itemList,
    y.addr = it ∧ y.id = id ∧ y.entry = c) ↔ ∃ label, (id, label, c) ∈ T
  labels : ∀ id label, t.idLabelMap id = some label ↔ ∃ c, (id, label, c) ∈ T
  sets : ∀ label id, (∃ set ∈ t.labelIdSetMap label, id ∈ set) ↔ ∃ c, (id, label, c) ∈ T
  nonempty : ∀ label, ∀ set ∈ t.labelIdSetMap label, set.Nonempty
  decreasing : t.itemList.Pairwise fun x y => y.id < x.id
  size : t.itemListSize = t.itemList.length
  capacity : t.itemListSize ≤ t.maxEntries

/-- The triples of the list, with the labels of the ids. -/
def triples (t : NlruMaps τ) : Set (ℕ × String × τ) :=
  {x | ∃ y ∈ t.itemList, y.id = x.1 ∧ y.entry = x.2.2 ∧ t.idLabelMap x.1 = some x.2.1}

section Describes

variable {t u : NlruMaps τ}

/-- Every item has its triple. -/
lemma Good.triple_of_mem (h : t.Good) {y : NlruItem τ} (hy : y ∈ t.itemList) :
    ∃ label, t.idLabelMap y.id = some label ∧ (y.id, label, y.entry) ∈ t.triples := by
  obtain ⟨label, hl⟩ := (h.labelled y.id).mpr ⟨y, hy, rfl⟩
  exact ⟨label, hl, y, hy, rfl, rfl, hl⟩

/-- **A store in order describes its triples.** -/
lemma Good.describes (h : t.Good) (hcap : t.itemListSize ≤ t.maxEntries) :
    t.Describes t.triples where
  distinct := by
    rintro ⟨id, l, c⟩ ⟨y, hy, rfl, rfl, hl⟩ ⟨id', l', c'⟩ ⟨y', hy', rfl, rfl, hl'⟩ hid
    obtain rfl := h.item_unique hy hy' hid
    obtain rfl := Option.some.inj (hl.symm.trans hl')
    rfl
  below := by
    rintro x ⟨y, hy, hid, -, -⟩
    exact hid ▸ h.below y hy
  list := by
    intro id c
    constructor
    · rintro ⟨y, hy, rfl, rfl⟩
      obtain ⟨label, -, hT⟩ := h.triple_of_mem hy
      exact ⟨label, hT⟩
    · rintro ⟨label, y, hy, hid, hc, -⟩
      exact ⟨y, hy, hid, hc⟩
  keys := by
    intro id
    constructor
    · rintro ⟨it, hit⟩
      obtain ⟨y, hy, rfl, -⟩ := (h.iterators id it).mp hit
      obtain ⟨label, -, hT⟩ := h.triple_of_mem hy
      exact ⟨label, y.entry, hT⟩
    · rintro ⟨label, c, y, hy, hid, -, -⟩
      exact ⟨y.addr, (h.iterators id y.addr).mpr ⟨y, hy, hid, rfl⟩⟩
  iterators := by
    intro id c
    constructor
    · rintro ⟨it, -, y, hy, -, rfl, rfl⟩
      obtain ⟨label, -, hT⟩ := h.triple_of_mem hy
      exact ⟨label, hT⟩
    · rintro ⟨label, y, hy, hid, hc, -⟩
      exact ⟨y.addr, (h.iterators id y.addr).mpr ⟨y, hy, hid, rfl⟩, y, hy, rfl, hid, hc⟩
  labels := by
    intro id label
    constructor
    · intro hl
      obtain ⟨y, hy, hid⟩ := (h.labelled id).mp ⟨label, hl⟩
      exact ⟨y.entry, y, hy, hid, rfl, hl⟩
    · rintro ⟨c, y, -, -, -, hl⟩
      exact hl
  sets := by
    intro label id
    rw [h.filed]
    constructor
    · intro hl
      obtain ⟨y, hy, hid⟩ := (h.labelled id).mp ⟨label, hl⟩
      exact ⟨y.entry, y, hy, hid, rfl, hl⟩
    · rintro ⟨c, y, -, -, -, hl⟩
      exact hl
  nonempty := h.nonempty
  decreasing := h.decreasing
  size := h.size
  capacity := hcap

/-- What is described after an id was taken out. -/
lemma Lacks.triples {id : ℕ} (h : Lacks t u id) : u.triples = {x ∈ t.triples | x.1 ≠ id} := by
  ext ⟨i, label, c⟩
  simp only [NlruMaps.triples, Set.mem_ofPred_eq, h.itemList, h.idLabelMap]
  constructor
  · rintro ⟨y, hy, rfl, rfl, hl⟩
    obtain ⟨hy, hne⟩ := List.mem_filter.mp hy
    have hne : y.id ≠ id := of_decide_eq_true hne
    rw [Function.update_of_ne hne] at hl
    exact ⟨⟨y, hy, rfl, rfl, hl⟩, hne⟩
  · rintro ⟨⟨y, hy, rfl, rfl, hl⟩, hne⟩
    refine ⟨y, List.mem_filter.mpr ⟨hy, decide_eq_true hne⟩, rfl, rfl, ?_⟩
    rw [Function.update_of_ne hne]
    exact hl

/-- It is one triple less. -/
lemma Lacks.triples_sdiff {x : ℕ × String × τ} (h : Lacks t u x.1) (ht : t.Good)
    (hx : x ∈ t.triples) : u.triples = t.triples \ {x} := by
  rw [h.triples]
  ext z
  simp only [Set.mem_ofPred_eq, Set.mem_sdiff, Set.mem_singleton_iff]
  refine and_congr_right fun hz => not_congr ⟨fun hid => ?_, fun he => by rw [he]⟩
  obtain ⟨i, l, c⟩ := x
  obtain ⟨i', l', c'⟩ := z
  obtain ⟨y, hy, rfl, rfl, hl⟩ := hx
  obtain ⟨y', hy', rfl, rfl, hl'⟩ := hz
  obtain rfl := ht.item_unique hy hy' hid.symm
  obtain rfl := Option.some.inj (hl.symm.trans hl')
  rfl

lemma Lacks.size_le {id : ℕ} (h : Lacks t u id) (ht : t.Good) :
    u.itemListSize ≤ t.itemListSize := by
  rw [h.good.size, ht.size, h.itemList]
  exact List.length_filter_le _ _

/-- An item less in the list. -/
lemma Lacks.size_lt {x : NlruItem τ} (h : Lacks t u x.id) (ht : t.Good) (hx : x ∈ t.itemList) :
    u.itemListSize < t.itemListSize := by
  rw [h.good.size, ht.size, h.itemList, List.length_filter_lt_length_iff_exists]
  exact ⟨x, hx, by simp⟩

end Describes

/-! ## The operations on the triples -/

/-- The triple with the smallest id. -/
def Oldest (T : Set (ℕ × String × τ)) (x : ℕ × String × τ) : Prop := x ∈ T ∧ ∀ y ∈ T, x.1 ≤ y.1

/-- **What the operations do**, in a store that describes the triples `T`. -/
structure Law (t : NlruMaps τ) (T : Set (ℕ × String × τ)) : Prop where
  /-- `remove` takes out the triple with the id. -/
  remove : ∀ id, ∃ u, t.remove id = some u ∧ u.Describes {x ∈ T | x.1 ≠ id}
  /-- `get` returns and takes out the oldest triple of the label; NULL only if there is none. -/
  get : ∀ label, ∃ r u, t.get label = some (r, u) ∧
    ((r = none ∧ u = t ∧ ∀ x ∈ T, x.2.1 ≠ label) ∨
      ∃ x, Oldest {y ∈ T | y.2.1 = label} x ∧ r = some x.2.2 ∧ u.Describes (T \ {x}))
  /-- `evict` takes out the oldest triple and calls the delete callback on its entry. -/
  evict : ∃ u calls, t.evict = some (u, calls) ∧ ((T = ∅ ∧ u = t ∧ calls = []) ∨
    ∃ x, Oldest T x ∧ calls = (if t.deleteCb then [x.2.2] else []) ∧ u.Describes (T \ {x}))
  /-- `insert` adds a triple; beyond the capacity it takes out the oldest one, and calls the delete
  callback once, on its entry. -/
  insert : ∀ label c, ∃ u calls, t.insert label c = some (u, t.nextId, calls) ∧
    ((t.itemListSize < t.maxEntries ∧ calls = [] ∧
        u.Describes (Insert.insert (t.nextId, label, c) T)) ∨
      (t.itemListSize = t.maxEntries ∧ ∃ x, Oldest (Insert.insert (t.nextId, label, c) T) x ∧
        calls = (if t.deleteCb then [x.2.2] else []) ∧
        u.Describes (Insert.insert (t.nextId, label, c) T \ {x})))

section Law

variable {t : NlruMaps τ}

lemma Good.oldest (h : t.Good) {x : NlruItem τ} (hx : x ∈ t.itemList)
    (hmin : ∀ y ∈ t.itemList, x.id ≤ y.id) : ∃ label, Oldest t.triples (x.id, label, x.entry) := by
  obtain ⟨label, -, hT⟩ := h.triple_of_mem hx
  refine ⟨label, hT, ?_⟩
  rintro z ⟨y, hy, hid, -, -⟩
  exact hid ▸ hmin y hy

lemma Good.triples_pushFront (h : t.Good) (label : String) (c : τ) :
    (t.pushFront label c).triples = Insert.insert (t.nextId, label, c) t.triples := by
  ext ⟨i, l, d⟩
  simp only [triples, NlruMaps.pushFront, Set.mem_insert_iff, Set.mem_ofPred_eq,
    List.exists_mem_cons_iff, Prod.mk.injEq]
  constructor
  · rintro (⟨rfl, rfl, hl⟩ | ⟨y, hy, rfl, rfl, hl⟩)
    · rw [Function.update_self] at hl
      exact .inl ⟨rfl, (Option.some.inj hl).symm, rfl⟩
    · rw [Function.update_of_ne (Nat.ne_of_lt (h.below y hy))] at hl
      exact .inr ⟨y, hy, rfl, rfl, hl⟩
  · rintro (⟨rfl, rfl, rfl⟩ | ⟨y, hy, rfl, rfl, hl⟩)
    · exact .inl ⟨rfl, rfl, by rw [Function.update_self]⟩
    · refine .inr ⟨y, hy, rfl, rfl, ?_⟩
      rw [Function.update_of_ne (Nat.ne_of_lt (h.below y hy))]
      exact hl

/-- **The operations keep to the law** in a store in order. -/
lemma Good.law (h : t.Good) (hcap : t.itemListSize ≤ t.maxEntries) : t.Law t.triples where
  remove := by
    intro id
    obtain ⟨u, hrem, hu⟩ := h.remove_spec id
    refine ⟨u, hrem, ?_⟩
    rw [← hu.triples]
    refine hu.good.describes ?_
    rw [hu.maxEntries]
    exact le_trans (hu.size_le h) hcap
  get := by
    intro label
    rcases h.get_spec label with ⟨hget, hnone⟩ | ⟨x, hx, hl, hmin, u, hget, -, hu⟩
    · refine ⟨none, t, hget, .inl ⟨rfl, rfl, ?_⟩⟩
      rintro ⟨i, l, c⟩ ⟨y, hy, rfl, rfl, hl⟩ rfl
      exact hnone _ hl
    · have hT : (x.id, label, x.entry) ∈ t.triples := ⟨x, hx, rfl, rfl, hl⟩
      refine ⟨some x.entry, u, hget, .inr ⟨(x.id, label, x.entry), ⟨⟨hT, rfl⟩, ?_⟩, rfl, ?_⟩⟩
      · rintro ⟨i, l, c⟩ ⟨⟨y, hy, rfl, rfl, hl'⟩, rfl⟩
        exact hmin _ hl'
      · rw [← hu.triples_sdiff h hT]
        refine hu.good.describes ?_
        rw [hu.maxEntries]
        exact le_trans (hu.size_le h) hcap
  evict := by
    rcases h.evict_spec with ⟨hnil, hev⟩ | ⟨x, hx, hmin, u, hev, hu⟩
    · refine ⟨t, [], hev, .inl ⟨?_, rfl, rfl⟩⟩
      ext z
      simp [triples, hnil]
    · obtain ⟨label, hold⟩ := h.oldest hx hmin
      refine ⟨u, _, hev, .inr ⟨(x.id, label, x.entry), hold, rfl, ?_⟩⟩
      rw [← hu.triples_sdiff h hold.1]
      refine hu.good.describes ?_
      rw [hu.maxEntries]
      exact le_trans (hu.size_le h) hcap
  insert := by
    intro label c
    have hp := h.pushFront label c
    have hmax : (t.pushFront label c).maxEntries = t.maxEntries := rfl
    have hsize : (t.pushFront label c).itemListSize = t.itemListSize + 1 := rfl
    have hT := h.triples_pushFront label c
    rw [← hT]
    by_cases hlt : (t.pushFront label c).maxEntries < (t.pushFront label c).itemListSize
    · -- the front is pushed, so there is an item to evict
      rcases hp.evict_spec with ⟨hnil, -⟩ | ⟨x, hx, hmin, u, hev, hu⟩
      · cases hnil
      · obtain ⟨l, hold⟩ := hp.oldest hx hmin
        have hins : t.insert label c =
            some (u, t.nextId, if t.deleteCb then [x.entry] else []) := by
          simp only [NlruMaps.insert, if_pos hlt, hev]
          rfl
        refine ⟨u, _, hins, .inr ⟨by omega, (x.id, l, x.entry), hold, rfl, ?_⟩⟩
        rw [← hu.triples_sdiff hp hold.1]
        refine hu.good.describes ?_
        have := hu.size_lt hp hx
        rw [hu.maxEntries]
        omega
    · have hins : t.insert label c = some (t.pushFront label c, t.nextId, []) := by
        simp only [NlruMaps.insert, if_neg hlt]
      exact ⟨_, _, hins, .inl ⟨by omega, rfl, hp.describes (by omega)⟩⟩

end Law

/-! ## Runs -/

/-- How an entry leaves the store. -/
inductive Exit where
  | get
  | remove
  | evict
  deriving DecidableEq

/-- The store, with what was inserted, and what left it and how. -/
structure Ledger (τ : Type) where
  lru : NlruMaps τ
  inserted : List (ℕ × String × τ)
  left : List (Exit × ℕ × τ)

/-- A call. -/
inductive Act (τ : Type) where
  | insert (label : String) (entry : τ)
  | get (label : String)
  | remove (id : ℕ)
  | evict

/-- The items that are not in the list any more. -/
def gone (exit : Exit) (before after : List (NlruItem τ)) : List (Exit × ℕ × τ) :=
  (before.filter fun x => x.id ∉ after.map NlruItem.id).map fun x => (exit, x.id, x.entry)

def Ledger.next (s : Ledger τ) : Act τ → Option (Ledger τ)
  | .insert label entry => do
    let r ← s.lru.insert label entry
    some ⟨r.1, s.inserted ++ [(r.2.1, label, entry)],
      s.left ++ gone .evict (s.lru.pushFront label entry).itemList r.1.itemList⟩
  | .get label => do
    let r ← s.lru.get label
    some ⟨r.2, s.inserted, s.left ++ gone .get s.lru.itemList r.2.itemList⟩
  | .remove id => do
    let t ← s.lru.remove id
    some ⟨t, s.inserted, s.left ++ gone .remove s.lru.itemList t.itemList⟩
  | .evict => do
    let r ← s.lru.evict
    some ⟨r.1, s.inserted, s.left ++ gone .evict s.lru.itemList r.1.itemList⟩

variable (τ) in
/-- All runs of calls on a new store. -/
def machine : Machine (Ledger τ) (Act τ) where
  start s := ∃ n cb, s = ⟨new n cb, [], []⟩
  step s a t := s.next a = some t

/-- **No entry is lost**: the ids of the inserted entries are all different, and each of them is
that of one item in the list or of one item that has left, which has the entry it was inserted
with. -/
structure Ledger.NoLoss (s : Ledger τ) : Prop where
  ids : s.inserted.map (·.1) = List.range s.lru.nextId
  places : (s.left.map (·.2.1) ++ s.lru.itemList.map NlruItem.id).Perm (s.inserted.map (·.1))
  left : ∀ y ∈ s.left, ∃ label, (y.2.1, label, y.2.2) ∈ s.inserted
  kept : ∀ x ∈ s.lru.triples, x ∈ s.inserted

/-- The store is in order and within its capacity, and no entry is lost. -/
structure Ledger.Ok (s : Ledger τ) : Prop where
  good : s.lru.Good
  capacity : s.lru.itemListSize ≤ s.lru.maxEntries
  noLoss : s.NoLoss

section Runs

variable {s : Ledger τ}

/-- What has gone and what is left are what there was. -/
lemma gone_perm {exit : Exit} {before : List (NlruItem τ)} (hnd : (before.map NlruItem.id).Nodup)
    (q : NlruItem τ → Bool) : ((gone exit before (before.filter q)).map (·.2.1) ++
      (before.filter q).map NlruItem.id).Perm (before.map NlruItem.id) := by
  have hout : before.filter (fun x => x.id ∉ (before.filter q).map NlruItem.id) =
      before.filter fun x => !q x := by
    refine List.filter_congr fun x hx => ?_
    have hiff : x.id ∈ (before.filter q).map NlruItem.id ↔ q x = true := by
      constructor
      · intro hmem
        obtain ⟨y, hy, hid⟩ := List.mem_map.mp hmem
        obtain ⟨hy, hq⟩ := List.mem_filter.mp hy
        rwa [← List.inj_on_of_nodup_map hnd hy hx hid]
      · intro hq
        exact List.mem_map_of_mem (List.mem_filter.mpr ⟨hx, hq⟩)
    simp [hiff]
  rw [gone, hout, List.map_map]
  change ((before.filter fun x => !q x).map NlruItem.id ++ _).Perm _
  rw [← List.map_append]
  refine List.Perm.map NlruItem.id (List.perm_append_comm.trans ?_)
  exact List.filter_append_perm q before

/-- A step that takes items out of the list keeps the account. -/
lemma Ledger.NoLoss.takes {t : NlruMaps τ} {q : NlruItem τ → Bool} (h : s.NoLoss) (exit : Exit)
    (hgood : s.lru.Good) (hlist : t.itemList = s.lru.itemList.filter q)
    (hT : t.triples ⊆ s.lru.triples) (hnext : t.nextId = s.lru.nextId) :
    (⟨t, s.inserted, s.left ++ gone exit s.lru.itemList t.itemList⟩ : Ledger τ).NoLoss where
  ids := by
    rw [hnext]
    exact h.ids
  places := by
    rw [hlist, List.map_append, List.append_assoc]
    exact ((gone_perm hgood.ids_nodup q).append_left _).trans h.places
  left := by
    rintro y hy
    rcases List.mem_append.mp hy with hy | hy
    · exact h.left y hy
    · obtain ⟨x, hx, rfl⟩ := List.mem_map.mp hy
      obtain ⟨label, -, hx⟩ := hgood.triple_of_mem (List.mem_filter.mp hx).1
      exact ⟨label, h.kept _ hx⟩
  kept := fun x hx => h.kept x (hT hx)

/-- In particular one that takes out an id. -/
lemma Ledger.NoLoss.lacks {t : NlruMaps τ} {id : ℕ} (h : s.NoLoss) (exit : Exit)
    (hgood : s.lru.Good) (ht : Lacks s.lru t id) :
    (⟨t, s.inserted, s.left ++ gone exit s.lru.itemList t.itemList⟩ : Ledger τ).NoLoss := by
  refine h.takes exit hgood ht.itemList ?_ ht.nextId
  rw [ht.triples]
  exact fun x hx => hx.1

/-- And one that takes out nothing. -/
lemma Ledger.NoLoss.same (h : s.NoLoss) (exit : Exit) (hgood : s.lru.Good) :
    (⟨s.lru, s.inserted, s.left ++ gone exit s.lru.itemList s.lru.itemList⟩ : Ledger τ).NoLoss :=
  h.takes (q := fun _ => true) exit hgood (by simp) (fun _ hx => hx) rfl

/-- A new entry is accounted for. -/
lemma Ledger.NoLoss.pushFront (h : s.NoLoss) (hgood : s.lru.Good) (label : String) (c : τ) :
    (⟨s.lru.pushFront label c, s.inserted ++ [(s.lru.nextId, label, c)], s.left⟩ :
      Ledger τ).NoLoss where
  ids := by
    rw [List.map_append, h.ids]
    exact (List.range_succ).symm
  places := by
    change (s.left.map (·.2.1) ++ s.lru.nextId :: s.lru.itemList.map NlruItem.id).Perm _
    rw [List.map_append]
    refine List.perm_middle.trans (List.Perm.trans ?_ List.perm_append_comm)
    exact h.places.cons _
  left := by
    intro y hy
    obtain ⟨l, hl⟩ := h.left y hy
    exact ⟨l, List.mem_append_left _ hl⟩
  kept := by
    intro x hx
    rw [hgood.triples_pushFront] at hx
    rcases hx with rfl | hx
    · exact List.mem_append_right _ (List.mem_singleton_self _)
    · exact List.mem_append_left _ (h.kept x hx)

/-- **One call** keeps the store in order and loses nothing. -/
lemma Ledger.Ok.next {t : Ledger τ} {a : Act τ} (h : s.Ok) (hst : s.next a = some t) : t.Ok := by
  obtain ⟨hgood, hcap, hloss⟩ := h
  have hlacks : ∀ {u : NlruMaps τ} {id : ℕ} {exit : Exit}, Lacks s.lru u id →
      (⟨u, s.inserted, s.left ++ gone exit s.lru.itemList u.itemList⟩ : Ledger τ).Ok := by
    intro u id exit hu
    refine ⟨hu.good, ?_, hloss.lacks exit hgood hu⟩
    change u.itemListSize ≤ u.maxEntries
    rw [hu.maxEntries]
    exact le_trans (hu.size_le hgood) hcap
  cases a with
  | insert label c =>
      obtain ⟨⟨u, id, calls⟩, hins, he⟩ := Option.bind_eq_some_iff.mp hst
      obtain rfl := Option.some.inj he
      have hp := hgood.pushFront label c
      have hpushed := hloss.pushFront hgood label c
      have hmax : (s.lru.pushFront label c).maxEntries = s.lru.maxEntries := rfl
      have hsize : (s.lru.pushFront label c).itemListSize = s.lru.itemListSize + 1 := rfl
      simp only [NlruMaps.insert] at hins
      split_ifs at hins with hlt
      · rcases hp.evict_spec with ⟨hnil, -⟩ | ⟨x, hx, -, u', hev, hu⟩
        · cases hnil
        · rw [hev] at hins
          simp only [Option.bind_eq_bind, Option.bind_some, Option.some.injEq,
            Prod.mk.injEq] at hins
          obtain ⟨rfl, rfl, -⟩ := hins
          refine ⟨hu.good, ?_, hpushed.lacks .evict hp hu⟩
          have := hu.size_lt hp hx
          change u'.itemListSize ≤ u'.maxEntries
          rw [hu.maxEntries]
          omega
      · simp only [Option.some.injEq, Prod.mk.injEq] at hins
        obtain ⟨rfl, rfl, -⟩ := hins
        refine ⟨hp, ?_, hpushed.same .evict hp⟩
        change (s.lru.pushFront label c).itemListSize ≤ (s.lru.pushFront label c).maxEntries
        omega
  | get label =>
      obtain ⟨⟨r, u⟩, hget, he⟩ := Option.bind_eq_some_iff.mp hst
      obtain rfl := Option.some.inj he
      rcases hgood.get_spec label with ⟨hg, -⟩ | ⟨x, hx, -, -, u', hg, -, hu⟩
      · obtain ⟨rfl, rfl⟩ := Prod.mk.inj (Option.some.inj (hg.symm.trans hget))
        exact ⟨hgood, hcap, hloss.same .get hgood⟩
      · obtain ⟨rfl, rfl⟩ := Prod.mk.inj (Option.some.inj (hg.symm.trans hget))
        exact hlacks hu
  | remove id =>
      obtain ⟨u, hrem, he⟩ := Option.bind_eq_some_iff.mp hst
      obtain rfl := Option.some.inj he
      obtain ⟨u', hrem', hu⟩ := hgood.remove_spec id
      obtain rfl := Option.some.inj (hrem.symm.trans hrem')
      exact hlacks hu
  | evict =>
      obtain ⟨⟨u, calls⟩, hev, he⟩ := Option.bind_eq_some_iff.mp hst
      obtain rfl := Option.some.inj he
      rcases hgood.evict_spec with ⟨-, hev'⟩ | ⟨x, hx, -, u', hev', hu⟩
      · obtain ⟨rfl, rfl⟩ := Prod.mk.inj (Option.some.inj (hev'.symm.trans hev))
        exact ⟨hgood, hcap, hloss.same .evict hgood⟩
      · obtain ⟨rfl, -⟩ := Prod.mk.inj (Option.some.inj (hev'.symm.trans hev))
        exact hlacks hu

lemma Ledger.ok_of_run (hs : (machine τ).Reachable s) : s.Ok := by
  refine Machine.Reachable.invariant (P := Ledger.Ok) ?_ (fun s a t h hst => h.next hst) hs
  rintro s ⟨n, cb, rfl⟩
  refine ⟨good_new n cb, Nat.zero_le _, rfl, .refl _, nofun, ?_⟩
  rintro x ⟨y, hy, -⟩
  cases hy

/-- **The contract of the LRU**: after every run of calls the four containers describe one set of
triples, every call does to it what it should, and no entry is lost. -/
theorem nlru_contract (s : Ledger τ) (hs : (machine τ).Reachable s) :
    ∃ T, s.lru.Describes T ∧ s.lru.Law T ∧ s.NoLoss := by
  obtain ⟨hgood, hcap, hloss⟩ := Ledger.ok_of_run hs
  exact ⟨s.lru.triples, hgood.describes hcap, hgood.law hcap, hloss⟩

/-- The calls of the unit test: the first two entries are evicted, and one is taken out. -/
def testCalls : List (Act String) :=
  [.insert "MONKEY" "Bongo", .insert "MONKEY" "Binky", .insert "PANDA" "Droopy",
    .insert "SNAKE" "Slippy", .insert "SNAKE" "Slimy", .insert "BEAR" "Honey", .get "PANDA"]

/-- The unit test. -/
theorem nlru_contract_tests : ∃ s : Ledger String, s.lru.itemListSize = 3 ∧
    s.left = [(.evict, 0, "Bongo"), (.evict, 1, "Binky"), (.get, 2, "Droopy")] ∧
    ∃ T, s.lru.Describes T ∧ s.lru.Law T ∧ s.NoLoss := by
  have hrun : (testCalls.foldlM Ledger.next ⟨new 4 true, [], []⟩).map
      (fun s => (s.lru.itemListSize, s.left)) =
        some (3, [(.evict, 0, "Bongo"), (.evict, 1, "Binky"), (.get, 2, "Droopy")]) := by
    decide +kernel
  obtain ⟨s, hs, hobs⟩ := Option.map_eq_some_iff.mp hrun
  obtain ⟨hsize, hleft⟩ := Prod.mk.inj hobs
  have hreach : (machine String).Reachable s :=
    .foldlM (fun _ _ _ he => he) (.start ⟨4, true, rfl⟩) hs
  exact ⟨s, hsize, hleft, nlru_contract s hreach⟩

end Runs

end NlruMaps

end Is2
