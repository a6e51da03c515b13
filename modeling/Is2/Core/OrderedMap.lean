import Mathlib.Data.List.Basic
import Mathlib.Data.List.Find
import Mathlib.Data.List.Pairwise
import Mathlib.Data.List.TakeWhile

/-!
# Ordered maps with a comparator

A map keeps its entries in the order of a comparator, and takes two keys for the same when neither
is less than the other (`Tied`).  It works only where the comparator is a strict weak order on the
keys that are in use; `find` has no result elsewhere.

* `lookup`, `insert`, `update` and `erase` are the operations on the list of entries.
* `Sorted` is kept by all of them (`sorted_insert`, `sorted_update`, `sorted_erase`), and under it
  an entry is found by its key alone (`lookup_eq_some_iff`).
* What a lookup finds behind an operation is said by `lookup_insert`, `lookup_update` and
  `lookup_erase`.
-/

namespace Is2

namespace OrderedMap

variable {κ β : Type}

/-! ## Comparators -/

section Comparators

variable (lt : κ → κ → Bool)

/-- Neither key is less than the other. -/
def Tied (a b : κ) : Prop := lt a b = false ∧ lt b a = false

instance (a b : κ) : Decidable (Tied lt a b) := inferInstanceAs (Decidable (_ ∧ _))

/-- **The comparator is a strict weak order** on these keys. -/
structure StrictWeak (ks : List κ) : Prop where
  irrefl : ∀ a ∈ ks, lt a a = false
  trans : ∀ a ∈ ks, ∀ b ∈ ks, ∀ c ∈ ks, lt a b = true → lt b c = true → lt a c = true
  tied : ∀ a ∈ ks, ∀ b ∈ ks, ∀ c ∈ ks, Tied lt a b → Tied lt b c → Tied lt a c

instance [DecidableEq κ] (ks : List κ) : Decidable (StrictWeak lt ks) :=
  decidable_of_iff ((∀ a ∈ ks, lt a a = false) ∧
    (∀ a ∈ ks, ∀ b ∈ ks, ∀ c ∈ ks, lt a b = true → lt b c = true → lt a c = true) ∧
    ∀ a ∈ ks, ∀ b ∈ ks, ∀ c ∈ ks, Tied lt a b → Tied lt b c → Tied lt a c)
    ⟨fun h => ⟨h.1, h.2.1, h.2.2⟩, fun h => ⟨h.irrefl, h.trans, h.tied⟩⟩

variable {lt} {ks ks' : List κ} {a b : κ}

lemma Tied.symm (h : Tied lt a b) : Tied lt b a := ⟨h.2, h.1⟩

lemma StrictWeak.refl (h : StrictWeak lt ks) (ha : a ∈ ks) : Tied lt a a :=
  ⟨h.irrefl a ha, h.irrefl a ha⟩

lemma StrictWeak.mono (h : StrictWeak lt ks) (hs : ∀ k ∈ ks', k ∈ ks) : StrictWeak lt ks' where
  irrefl a ha := h.irrefl a (hs a ha)
  trans a ha b hb c hc := h.trans a (hs a ha) b (hs b hb) c (hs c hc)
  tied a ha b hb c hc := h.tied a (hs a ha) b (hs b hb) c (hs c hc)

/-- Keys that are tied have the same relation to all others. -/
lemma StrictWeak.tied_congr (h : StrictWeak lt ks) (ha : a ∈ ks) (hb : b ∈ ks)
    (hab : Tied lt a b) {c : κ} (hc : c ∈ ks) : Tied lt c a ↔ Tied lt c b :=
  ⟨fun hca => h.tied c hc a ha b hb hca hab, fun hcb => h.tied c hc b hb a ha hcb hab.symm⟩

/-- What is not less than a key is greater, or tied. -/
lemma StrictWeak.lt_of_not_lt (hne : ¬ Tied lt a b) (hlt : lt a b = false) : lt b a = true := by
  by_contra hba
  exact hne ⟨hlt, Bool.eq_false_iff.mpr hba⟩

end Comparators

/-! ## Entries -/

/-- The entries of a map, in its order. -/
abbrev Entries (κ β : Type) := List (κ × β)

section Operations

variable (lt : κ → κ → Bool) (m : Entries κ β) (k : κ)

/-- The entry whose key is tied to `k`. -/
def lookup : Option (κ × β) := m.find? fun e => decide (Tied lt e.1 k)

/-- The search of a map: without a strict weak order it has no result. -/
def find [DecidableEq κ] : Option (Option (κ × β)) :=
  if StrictWeak lt (k :: m.map Prod.fst) then some (lookup lt m k) else none

/-- A new entry, in front of the first one that is not less. -/
def insert (v : β) : Entries κ β :=
  m.takeWhile (fun e => lt e.1 k) ++ (k, v) :: m.dropWhile (fun e => lt e.1 k)

/-- Another value for the entry of a key. -/
def update (f : β → β) : Entries κ β :=
  m.map fun e => if Tied lt e.1 k then (e.1, f e.2) else e

/-- The map without the entry of a key. -/
def erase : Entries κ β := m.filter fun e => ¬ Tied lt e.1 k

/-- **The entries are in order.** -/
def Sorted : Prop := m.Pairwise fun a b => lt a.1 b.1 = true

end Operations

section Lemmas

variable {lt : κ → κ → Bool} {m : Entries κ β} {k k' : κ} {v : β} {e e' : κ × β}

lemma lookup_eq_none_iff : lookup lt m k = none ↔ ∀ e ∈ m, ¬ Tied lt e.1 k := by
  simp [lookup]

lemma lookup_some (h : lookup lt m k = some e) : e ∈ m ∧ Tied lt e.1 k :=
  ⟨List.mem_of_find?_eq_some h, of_decide_eq_true
    (List.find?_some (p := fun e : κ × β => decide (Tied lt e.1 k)) h)⟩

/-- Two entries of a map are not tied. -/
lemma Sorted.unique (h : Sorted lt m) (he : e ∈ m) (he' : e' ∈ m) (ht : Tied lt e.1 e'.1) :
    e = e' := by
  by_contra hne
  have : Std.Symm fun a b : κ × β => lt a.1 b.1 = true ∨ lt b.1 a.1 = true :=
    ⟨fun _ _ => Or.symm⟩
  have hall : m.Pairwise fun a b => lt a.1 b.1 = true ∨ lt b.1 a.1 = true := h.imp Or.inl
  rcases hall.forall he he' hne with hlt | hlt
  · simp [ht.1] at hlt
  · simp [ht.2] at hlt

/-- **An entry is found by its key.** -/
lemma lookup_eq_some_iff (h : Sorted lt m) (hw : StrictWeak lt (k :: m.map Prod.fst)) :
    lookup lt m k = some e ↔ e ∈ m ∧ Tied lt e.1 k := by
  refine ⟨lookup_some, ?_⟩
  rintro ⟨he, ht⟩
  cases hl : lookup lt m k with
  | none => exact absurd ht (lookup_eq_none_iff.mp hl e he)
  | some e' =>
      obtain ⟨he', ht'⟩ := lookup_some hl
      have hkey : ∀ {x}, x ∈ m → x.1 ∈ k :: m.map Prod.fst :=
        fun hx => List.mem_cons_of_mem _ (List.mem_map_of_mem hx)
      have htied := hw.tied _ (hkey he') _ List.mem_cons_self _ (hkey he) ht' ht.symm
      rw [h.unique he' he htied]

lemma mem_insert : e ∈ insert lt m k v ↔ e = (k, v) ∨ e ∈ m := by
  have hm : e ∈ m ↔ e ∈ m.takeWhile (fun e => lt e.1 k) ++ m.dropWhile (fun e => lt e.1 k) := by
    rw [List.takeWhile_append_dropWhile]
  rw [insert, hm]
  simp only [List.mem_append, List.mem_cons]
  tauto

lemma map_fst_update (f : β → β) : (update lt m k f).map Prod.fst = m.map Prod.fst := by
  rw [update, List.map_map]
  refine List.map_congr_left fun e _ => ?_
  rw [Function.comp_apply]
  split_ifs <;> rfl

lemma sorted_iff : Sorted lt m ↔ (m.map Prod.fst).Pairwise fun a b => lt a b = true := by
  rw [Sorted, List.pairwise_map]

lemma sorted_update (h : Sorted lt m) (f : β → β) : Sorted lt (update lt m k f) := by
  rw [sorted_iff, map_fst_update, ← sorted_iff]
  exact h

lemma sorted_erase (h : Sorted lt m) : Sorted lt (erase lt m k) := h.filter _

/-- **A new key goes where it belongs.** -/
lemma sorted_insert (h : Sorted lt m) (hw : StrictWeak lt (k :: m.map Prod.fst))
    (hnone : lookup lt m k = none) : Sorted lt (insert lt m k v) := by
  rw [lookup_eq_none_iff] at hnone
  have hkey : ∀ {x}, x ∈ m → x.1 ∈ k :: m.map Prod.fst :=
    fun hx => List.mem_cons_of_mem _ (List.mem_map_of_mem hx)
  have hk : k ∈ k :: m.map Prod.fst := List.mem_cons_self
  set front := m.takeWhile (fun e => lt e.1 k) with hfront
  set back := m.dropWhile (fun e => lt e.1 k) with hback
  have hsplit : front ++ back = m := List.takeWhile_append_dropWhile
  have hmem : ∀ {x}, x ∈ front ∨ x ∈ back → x ∈ m := by
    intro x hx
    rw [← hsplit]
    exact List.mem_append.mpr hx
  have hless : ∀ x ∈ front, lt x.1 k = true := by
    intro x hx
    exact List.mem_takeWhile_imp (p := fun e : κ × β => lt e.1 k) hx
  -- the first entry behind the key is greater, and so are those behind it
  have hmore : ∀ x ∈ back, lt k x.1 = true := by
    cases hb : back with
    | nil => simp
    | cons y rest =>
        have hy : y ∈ m := hmem (.inr (by simp [hb]))
        have hnot : lt y.1 k = false := by
          have hhead := List.head?_dropWhile_not (fun e : κ × β => lt e.1 k) m
          rw [← hback, hb] at hhead
          simpa using hhead
        have hky := StrictWeak.lt_of_not_lt (hnone y hy) hnot
        rw [← hsplit, hb, Sorted, List.pairwise_append, List.pairwise_cons] at h
        intro x hx
        rcases List.mem_cons.mp hx with rfl | hx
        · exact hky
        · have hx' : x ∈ m := hmem (.inr (by simp [hb, hx]))
          exact hw.trans k hk y.1 (hkey hy) x.1 (hkey hx') hky (h.2.1.1 x hx)
  rw [← hsplit, Sorted, List.pairwise_append] at h
  rw [insert, ← hfront, ← hback, Sorted, List.pairwise_append, List.pairwise_cons]
  refine ⟨h.1, ⟨hmore, h.2.1⟩, ?_⟩
  intro x hx y hy
  rcases List.mem_cons.mp hy with rfl | hy
  · exact hless x hx
  · exact h.2.2 x hx y hy

/-! ### Lookups behind an operation -/

lemma key_mem (k' : κ) (he : e ∈ m) : e.1 ∈ k :: k' :: m.map Prod.fst :=
  List.mem_cons_of_mem _ (List.mem_cons_of_mem _ (List.mem_map_of_mem he))

/-- If two keys are tied, an entry has one if it has the other. -/
lemma tied_comm (hw : StrictWeak lt (k :: k' :: m.map Prod.fst)) (he : e ∈ m)
    (ht : Tied lt k k') : Tied lt e.1 k ↔ Tied lt e.1 k' :=
  hw.tied_congr (by simp) (by simp) ht (key_mem k' he)

/-- An entry that has one of two keys has the other only if they are tied. -/
lemma tied_of_tied (hw : StrictWeak lt (k :: k' :: m.map Prod.fst)) (he : e ∈ m)
    (h : Tied lt e.1 k) (h' : Tied lt e.1 k') : Tied lt k k' :=
  hw.tied _ (by simp) _ (key_mem k' he) _ (by simp) h.symm h'

/-- **A new entry is found by its key**, and the others as before. -/
lemma lookup_insert (hw : StrictWeak lt (k :: k' :: m.map Prod.fst))
    (hnone : lookup lt m k = none) :
    lookup lt (insert lt m k v) k' = if Tied lt k k' then some (k, v) else lookup lt m k' := by
  have hsplit : m.takeWhile (fun e => lt e.1 k) ++ m.dropWhile (fun e => lt e.1 k) = m :=
    List.takeWhile_append_dropWhile
  rw [lookup, insert, List.find?_append, List.find?_cons]
  by_cases ht : Tied lt k k'
  · have hfront : (m.takeWhile fun e => lt e.1 k).find? (fun e => decide (Tied lt e.1 k')) =
        none := by
      rw [List.find?_eq_none]
      intro e he
      have hm : e ∈ m := (List.takeWhile_sublist _).subset he
      have hne := lookup_eq_none_iff.mp hnone e hm
      rw [tied_comm hw hm ht] at hne
      simpa using hne
    rw [hfront, if_pos ht]
    simp [ht]
  · rw [if_neg ht, lookup]
    conv_rhs => rw [← hsplit, List.find?_append]
    simp [ht]

/-- **An update changes the entry of its key**, and no other. -/
lemma lookup_update (hw : StrictWeak lt (k :: k' :: m.map Prod.fst)) (f : β → β) :
    lookup lt (update lt m k f) k' =
      (lookup lt m k').map fun e => if Tied lt k k' then (e.1, f e.2) else e := by
  have hkey : ∀ e : κ × β, (if Tied lt e.1 k then (e.1, f e.2) else e).1 = e.1 := fun e => by
    split_ifs <;> rfl
  have hsame : (m.find? ((fun e => decide (Tied lt e.1 k')) ∘
      fun e => if Tied lt e.1 k then (e.1, f e.2) else e)) = lookup lt m k' :=
    List.find?_congr fun e _ => by rw [Function.comp_apply, hkey]
  rw [lookup, update, List.find?_map, hsame]
  cases he : lookup lt m k' with
  | none => rfl
  | some e =>
      obtain ⟨hm, ht'⟩ := lookup_some he
      have hiff : Tied lt e.1 k ↔ Tied lt k k' :=
        ⟨fun ht => tied_of_tied hw hm ht ht', fun ht => (tied_comm hw hm ht).mpr ht'⟩
      simp [hiff]

/-- **An erased entry is gone**, and the others are found as before. -/
lemma lookup_erase (hw : StrictWeak lt (k :: k' :: m.map Prod.fst)) :
    lookup lt (erase lt m k) k' = if Tied lt k k' then none else lookup lt m k' := by
  rw [lookup, erase, List.find?_filter]
  split_ifs with ht
  · rw [List.find?_eq_none]
    intro e he
    simp [tied_comm hw he ht]
  · refine List.find?_congr fun e he => ?_
    by_cases ht' : Tied lt e.1 k'
    · have hne : ¬ Tied lt e.1 k := fun hk => ht (tied_of_tied hw he hk ht')
      simp [ht', hne]
    · simp [ht']

end Lemmas

end OrderedMap

end Is2
