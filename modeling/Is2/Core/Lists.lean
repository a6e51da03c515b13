import Mathlib.Data.List.Basic
import Mathlib.Algebra.BigOperators.Group.List.Basic
import Mathlib.Tactic

/-!
# Updating one element of a list

A list of cells of which one is changed in place, and what that does to a sum over the cells and
to the concatenation of what the cells hold.  The concatenation lemmas come in two directions:
the change is visible at the end when nothing is held behind the changed cell, and at the front
when nothing is held before it.

The last sections are about two lists at once, row by row or column by column, and zipped; and about
the element at an index, with what is behind it.
-/

namespace Is2

variable {α β : Type*}

lemma modify_getElem?_self {l : List α} {i : ℕ} {a : α} (h : l[i]? = some a) (g : α → α) :
    (l.modify i g)[i]? = some (g a) := by
  simp [h]

lemma modify_getElem?_ne {i j : ℕ} (h : i ≠ j) (l : List α) (g : α → α) :
    (l.modify i g)[j]? = l[j]? := by
  simp [h]

/-- An element of the changed list sits where it did, and is the changed one only at `i`. -/
lemma modify_getElem?_cases {l : List α} {i j : ℕ} {a b : α} {g : α → α} (hi : l[i]? = some a)
    (h : (l.modify i g)[j]? = some b) : (j = i ∧ b = g a) ∨ (j ≠ i ∧ l[j]? = some b) := by
  by_cases hj : i = j
  · subst hj
    rw [modify_getElem?_self hi] at h
    exact Or.inl ⟨rfl, (Option.some.inj h).symm⟩
  · rw [modify_getElem?_ne hj] at h
    exact Or.inr ⟨fun e => hj e.symm, h⟩

lemma mem_modify {l : List α} {i : ℕ} {a b : α} {g : α → α} (hi : l[i]? = some a)
    (h : b ∈ l.modify i g) : b = g a ∨ b ∈ l := by
  obtain ⟨j, hj⟩ := List.mem_iff_getElem?.mp h
  rcases modify_getElem?_cases hi hj with ⟨_, hb⟩ | ⟨_, hb⟩
  · exact Or.inl hb
  · exact Or.inr (List.mem_iff_getElem?.mpr ⟨j, hb⟩)

/-- Only the value at the changed position matters. -/
lemma modify_congr {l : List α} {i : ℕ} {a : α} {f g : α → α} (hi : l[i]? = some a)
    (h : f a = g a) : l.modify i f = l.modify i g := by
  apply List.ext_getElem?
  intro j
  by_cases hj : i = j
  · subst hj
    rw [modify_getElem?_self hi, modify_getElem?_self hi, h]
  · rw [modify_getElem?_ne hj, modify_getElem?_ne hj]

/-- The element behind a prefix. -/
lemma modify_append_cons (g : α → α) (pre : List α) (a : α) (post : List α) :
    (pre ++ a :: post).modify pre.length g = pre ++ g a :: post := by
  induction pre with
  | nil => simp
  | cons x pre ih => simpa using ih

/-- A sum over the cells moves by what the changed cell moves. -/
lemma sum_modify (f : α → ℕ) (g : α → α) :
    ∀ {l : List α} {i : ℕ} {a : α}, l[i]? = some a →
      ((l.modify i g).map f).sum + f a = (l.map f).sum + f (g a)
  | [], i, a, h => by simp at h
  | x :: l, 0, a, h => by
      simp only [List.getElem?_cons_zero, Option.some.injEq] at h
      subst h
      simp [List.modify_cons]
      omega
  | x :: l, i + 1, a, h => by
      have ih := sum_modify f g (l := l) (i := i) (a := a) (by simpa using h)
      simp only [List.modify_succ_cons, List.map_cons, List.sum_cons]
      omega

/-- Nothing is held behind the changed cell: what it gains is appended to the whole. -/
lemma flatMap_modify_append (f : α → List β) (g : α → α) (s : List β) :
    ∀ {l : List α} {i : ℕ} {a : α}, l[i]? = some a → f (g a) = f a ++ s →
      (∀ j b, l[j]? = some b → i < j → f b = []) →
      (l.modify i g).flatMap f = l.flatMap f ++ s
  | [], i, a, h, _, _ => by simp at h
  | x :: l, 0, a, h, hg, hz => by
      simp only [List.getElem?_cons_zero, Option.some.injEq] at h
      subst h
      have hl : l.flatMap f = [] := by
        rw [List.flatMap_eq_nil_iff]
        intro b hb
        obtain ⟨j, hj⟩ := List.mem_iff_getElem?.mp hb
        exact hz (j + 1) b (by simpa using hj) (by omega)
      simp [List.modify_cons, hg, hl]
  | x :: l, i + 1, a, h, hg, hz => by
      have ih := flatMap_modify_append f g s (l := l) (i := i) (a := a) (by simpa using h) hg
        (fun j b hj hij => hz (j + 1) b (by simpa using hj) (by omega))
      simp only [List.modify_succ_cons, List.flatMap_cons, ih, List.append_assoc]

/-- Nothing is held before the changed cell: what it loses is lost at the front of the whole. -/
lemma flatMap_modify_front (f : α → List β) (g : α → α) (s : List β) :
    ∀ {l : List α} {i : ℕ} {a : α}, l[i]? = some a → f a = s ++ f (g a) →
      (∀ j b, l[j]? = some b → j < i → f b = []) →
      l.flatMap f = s ++ (l.modify i g).flatMap f
  | [], i, a, h, _, _ => by simp at h
  | x :: l, 0, a, h, hg, _ => by
      simp only [List.getElem?_cons_zero, Option.some.injEq] at h
      subst h
      simp [List.modify_cons, hg]
  | x :: l, i + 1, a, h, hg, hz => by
      have hx : f x = [] := hz 0 x (by simp) (by omega)
      have ih := flatMap_modify_front f g s (l := l) (i := i) (a := a) (by simpa using h) hg
        (fun j b hj hij => hz (j + 1) b (by simpa using hj) (by omega))
      simp only [List.modify_succ_cons, List.flatMap_cons, hx, List.nil_append]
      exact ih

/-- A change that the held bytes do not see. -/
lemma flatMap_modify_same (f : α → List β) (g : α → α) {l : List α} {i : ℕ} {a : α}
    (h : l[i]? = some a) (hg : f (g a) = f a) : (l.modify i g).flatMap f = l.flatMap f := by
  induction l generalizing i with
  | nil => simp at h
  | cons x l ih =>
      cases i with
      | zero =>
          simp only [List.getElem?_cons_zero, Option.some.injEq] at h
          subst h
          simp [List.modify_cons, hg]
      | succ i =>
          simp only [List.modify_succ_cons, List.flatMap_cons]
          rw [ih (by simpa using h)]

/-! ## Rows and columns -/

variable {γ : Type*}

lemma filterMap_cons_toList (g : α → Option γ) (a : α) (as : List α) :
    (a :: as).filterMap g = (g a).toList ++ as.filterMap g := by
  cases h : g a <;> simp [h]

/-- A table that only moves right as it moves down is read off in the same order row by row and
column by column. -/
lemma flatMap_filterMap_comm (f : β → α → Option γ) {bs : List β} {as : List α}
    (h : bs.Pairwise fun b b' => as.Pairwise fun a a' => f b a' = none ∨ f b' a = none) :
    bs.flatMap (fun b => as.filterMap (f b)) = as.flatMap fun a => bs.filterMap (f · a) := by
  induction bs with
  | nil => simp
  | cons b bs ih =>
      obtain ⟨hb, hbs⟩ := List.pairwise_cons.mp h
      rw [List.flatMap_cons, ih hbs]
      clear h ih hbs
      induction as with
      | nil => simp
      | cons a as ih =>
          have hrest := ih fun b' hb' => (List.pairwise_cons.mp (hb b' hb')).2
          -- either no later column is hit in this row, or this column is hit in no later row
          have hswap : as.filterMap (f b) = [] ∨ bs.filterMap (f · a) = [] := by
            by_cases hz : bs.filterMap (f · a) = []
            · exact Or.inr hz
            · left
              obtain ⟨c, hc⟩ := List.exists_mem_of_ne_nil _ hz
              obtain ⟨b', hb', hf⟩ := List.mem_filterMap.mp hc
              rw [List.filterMap_eq_nil_iff]
              intro a' ha'
              rcases (List.pairwise_cons.mp (hb b' hb')).1 a' ha' with h1 | h1
              · exact h1
              · rw [hf] at h1; simp at h1
          rw [filterMap_cons_toList, List.flatMap_cons, List.flatMap_cons, filterMap_cons_toList,
            ← hrest]
          rcases hswap with h0 | h0 <;> simp [h0]

/-- Two lists zipped, against two shorter ones. -/
lemma zip_eq_zip_iff {as as' : List α} {bs bs' : List β} (ha : as'.length ≤ as.length)
    (hb : bs'.length ≤ bs.length) :
    as.zip bs = as'.zip bs' ↔
      as.take (min as'.length bs'.length) = as'.take (min as'.length bs'.length) ∧
      bs.take (min as'.length bs'.length) = bs'.take (min as'.length bs'.length) ∧
      min as.length bs.length = min as'.length bs'.length := by
  have hz : as.zip bs = _ := List.zip_eq_zip_take_min
  have hz' : as'.zip bs' = _ := List.zip_eq_zip_take_min
  constructor
  · intro h
    have hlen : min as.length bs.length = min as'.length bs'.length := by
      simpa using congrArg List.length h
    rw [hz, hz', hlen] at h
    have hu := congrArg List.unzip h
    rw [List.unzip_zip (by simp; omega), List.unzip_zip (by simp)] at hu
    obtain ⟨h1, h2⟩ := Prod.mk.inj hu
    exact ⟨h1, h2, hlen⟩
  · rintro ⟨h1, h2, h3⟩
    rw [hz, hz', h3, h1, h2]

/-- Where the keys are distinct, the first element with a key is the only one. -/
lemma eraseP_of_nodup_keys {α β : Type*} [DecidableEq β] {f : α → β} {l : List α}
    (h : (l.map f).Nodup) (b : β) : l.eraseP (f · = b) = l.filter (f · ≠ b) := by
  induction l with
  | nil => rfl
  | cons x l ih =>
      rw [List.map_cons, List.nodup_cons] at h
      by_cases hx : f x = b
      · have hl : l.filter (f · ≠ b) = l := by
          rw [List.filter_eq_self]
          intro y hy
          have hne : f y ≠ f x := fun he => h.1 (he ▸ List.mem_map_of_mem hy)
          simpa [hx] using hne
        rw [List.eraseP_cons_of_pos (by simpa using hx),
          List.filter_cons_of_neg (by simpa using hx), hl]
      · rw [List.eraseP_cons_of_neg (by simpa using hx),
          List.filter_cons_of_pos (by simpa using hx), ih h.2]

/-- What is related, list by list, is related to something of the other list. -/
lemma exists_of_forall₂ {γ : Type*} {r : α → γ → Prop} {as : List α} {cs : List γ}
    (h : List.Forall₂ r as cs) {a : α} (ha : a ∈ as) : ∃ c ∈ cs, r a c := by
  induction h with
  | nil => simp at ha
  | cons hr _ ih =>
      rcases List.mem_cons.mp ha with rfl | ha
      · exact ⟨_, List.mem_cons_self, hr⟩
      · obtain ⟨c, hc, hac⟩ := ih ha
        exact ⟨c, List.mem_cons_of_mem _ hc, hac⟩

/-- Numbers that are no greater, one by one, and no less in sum are the same. -/
lemma eq_of_forall₂_le {xs ys : List ℕ} (h : List.Forall₂ (· ≤ ·) xs ys)
    (hsum : ys.sum ≤ xs.sum) : xs = ys := by
  induction h with
  | nil => rfl
  | cons hxy htail ih =>
      have htails := List.Forall₂.sum_le_sum htail
      rw [List.sum_cons, List.sum_cons] at hsum
      rw [ih (by omega), Nat.le_antisymm hxy (by omega)]

/-! ## At an index -/

/-- The element at an index, and what is behind it. -/
lemma drop_eq_cons_iff {l t : List α} {i : ℕ} {a : α} :
    l.drop i = a :: t ↔ l[i]? = some a ∧ l.drop (i + 1) = t := by
  constructor
  · intro h
    refine ⟨by rw [← List.head?_drop, h, List.head?_cons], ?_⟩
    rw [← List.drop_drop, h]
    rfl
  · rintro ⟨hget, rfl⟩
    obtain ⟨hlt, rfl⟩ := List.getElem?_eq_some_iff.mp hget
    exact List.drop_eq_getElem_cons hlt

end Is2
