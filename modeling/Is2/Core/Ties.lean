import Mathlib.Data.Finset.Insert
import Mathlib.Data.Finset.Erase
import Mathlib.Data.Finset.Image
import Mathlib.Logic.Function.Basic

/-!
# Holders and the items they hold

A holder may hold an item, and an item may point back to a holder; a holder may have an alarm, which
is pending for its item.  The two pointers are set at different times, so between two moves one item
may be *loose*: its pointer is still set, but nobody holds it any more.

An item may also be *gone* while somebody holds it.  `Ties` says that nothing else is out of step.
In particular nobody holds an item that another holds (`Ties.inj`), and an item that is not live and
not loose has no pointer and no alarm (`Ties.back_eq_none`, `Ties.notMem_pending`).  The moves are
`attach`, `giveUp`, `drop`, `fire`, `arm` and `bury`.

`Armed` is the other direction for the alarms: who holds an item has an alarm pending for it, but
for one holder that may be *silent* between two moves.
-/

namespace Is2

/-- Holders hold live items, one each, which point back to them unless they are gone, and every
pending alarm belongs to the holder of its item. -/
structure Ties {ι κ ε : Type} (live : Finset κ) (back : κ → Option ι) (item : ι → Option κ)
    (alarm : ι → Option ε) (pending : List (ε × κ)) (loose : Option κ) (gone : κ → Prop) :
    Prop where
  isLive : ∀ k c, item k = some c → c ∈ live
  isSole : ∀ j k c, item j = some c → item k = some c → j = k
  pointsBack : ∀ k c, item k = some c → back c = some k ∨ gone c
  isHeld : ∀ c k, back c = some k → item k = some c ∨ loose = some c
  isLoose : ∀ c, loose = some c → c ∈ live ∧ ∀ k, item k ≠ some c
  isPending : ∀ e c, (e, c) ∈ pending → ∃ k, item k = some c ∧ alarm k = some e

namespace Ties

variable {ι κ ε : Type} {live : Finset κ} {back back' : κ → Option ι} {item : ι → Option κ}
  {alarm : ι → Option ε} {pending : List (ε × κ)} {loose : Option κ} {gone gone' : κ → Prop}
  {c : κ} {k : ι} {e : ε}

lemma inj (h : Ties live back item alarm pending loose gone) {j : ι} (hj : item j = some c)
    (hk : item k = some c) : j = k :=
  h.isSole j k c hj hk

lemma item_eq (h : Ties live back item alarm pending none gone) (hb : back c = some k) :
    item k = some c :=
  (h.isHeld c k hb).elim id fun hl => absurd hl (by simp)

lemma item_ne (h : Ties live back item alarm pending loose gone) (hc : ¬ gone c)
    (hb : back c = none) (k : ι) : item k ≠ some c :=
  fun hk => (h.pointsBack k c hk).elim (fun hs => absurd (hb.symm.trans hs) (by simp)) hc

lemma back_eq_none (h : Ties live back item alarm pending none gone) (hc : c ∉ live) :
    back c = none := by
  cases hb : back c with
  | none => rfl
  | some k => exact absurd (h.isLive k c (h.item_eq hb)) hc

lemma notMem_pending (h : Ties live back item alarm pending loose gone) (hc : c ∉ live) (e : ε) :
    (e, c) ∉ pending := by
  intro he
  obtain ⟨k, hk, -⟩ := h.isPending e c he
  exact hc (h.isLive k c hk)

/-- Some items go, and lose their pointers. -/
lemma bury (h : Ties live back item alarm pending loose gone) (hg : ∀ d, gone d → gone' d)
    (hb : ∀ d, back' d = back d ∨ back' d = none ∧ gone' d) :
    Ties live back' item alarm pending loose gone' := by
  refine { h with pointsBack := ?_, isHeld := ?_ }
  · intro k d hk
    rcases hb d with he | ⟨-, hd⟩
    · exact (h.pointsBack k d hk).imp he.trans (hg d)
    · exact .inr hd
  · intro d k hk
    rcases hb d with he | ⟨hn, -⟩
    · exact h.isHeld d k (he ▸ hk)
    · exact absurd (hn.symm.trans hk) (by simp)

/-- What is no item of a holder may lose its pointer and its place. -/
lemma drop [DecidableEq κ] (h : Ties live back item alarm pending loose gone)
    (hl : ∀ d, loose = some d → d = c) (hc : ∀ k, item k ≠ some c) (hb : back' c = none)
    (hd : ∀ d, d ≠ c → back' d = back d ∨ back' d = none ∧ d ∉ live)
    (hg : ∀ d, gone d → gone' d) :
    Ties (live.erase c) back' item alarm pending none gone' where
  isLive := by
    intro k d hk
    exact Finset.mem_erase.mpr ⟨fun hdc => hc k (hdc ▸ hk), h.isLive k d hk⟩
  isSole := h.isSole
  pointsBack := by
    intro k d hk
    rcases hd d fun hdc => hc k (hdc ▸ hk) with he | ⟨-, hn⟩
    · exact (h.pointsBack k d hk).imp he.trans (hg d)
    · exact absurd (h.isLive k d hk) hn
  isHeld := by
    intro d k hk
    have hdc : d ≠ c := by
      rintro rfl
      exact absurd (hb.symm.trans hk) (by simp)
    rcases hd d hdc with he | ⟨hn, -⟩
    · exact .inl ((h.isHeld d k (he ▸ hk)).elim id fun hl' => absurd (hl d hl') hdc)
    · exact absurd (hn.symm.trans hk) (by simp)
  isLoose := fun _ hn => absurd hn (by simp)
  isPending := h.isPending

section Update

variable [DecidableEq ι]

/-- A holder that gives up its item leaves it loose, and takes its alarm along. -/
lemma giveUp [DecidableEq ε] (h : Ties live back item alarm pending none gone)
    (hk : item k = some c) :
    Ties live back (Function.update item k none) (Function.update alarm k none)
      (pending.filter fun p => some p.1 ≠ alarm k) (some c) gone where
  isLive := by
    intro j d hj
    by_cases hjk : j = k
    · simp [hjk] at hj
    · exact h.isLive j d (by simpa [hjk] using hj)
  isSole := by
    intro i j d hi hj
    by_cases hik : i = k
    · simp [hik] at hi
    · by_cases hjk : j = k
      · simp [hjk] at hj
      · exact h.isSole i j d (by simpa [hik] using hi) (by simpa [hjk] using hj)
  pointsBack := by
    intro j d hj
    by_cases hjk : j = k
    · simp [hjk] at hj
    · exact h.pointsBack j d (by simpa [hjk] using hj)
  isHeld := by
    intro d j hb
    by_cases hjk : j = k
    · subst hjk
      exact .inr (hk.symm.trans (h.item_eq hb))
    · exact .inl (by simpa [hjk] using h.item_eq hb)
  isLoose := by
    intro d hd
    obtain rfl := Option.some.inj hd
    refine ⟨h.isLive k c hk, fun j => ?_⟩
    by_cases hjk : j = k
    · simp [hjk]
    · simp only [Function.update_of_ne hjk]
      exact fun hj => hjk (h.inj hj hk)
  isPending := by
    intro e d he
    obtain ⟨hmem, hne⟩ := List.mem_filter.mp he
    obtain ⟨j, hj, ha⟩ := h.isPending e d hmem
    have hjk : j ≠ k := by
      rintro rfl
      simp [ha] at hne
    exact ⟨j, by simpa [hjk] using hj, by simpa [hjk] using ha⟩

/-- A holder without an item may lose its alarm. -/
lemma disarm (h : Ties live back item alarm pending loose gone) (hk : item k = none)
    (f : ε × κ → Bool) :
    Ties live back item (Function.update alarm k none) (pending.filter f) loose gone := by
  refine { h with isPending := ?_ }
  intro e d he
  obtain ⟨j, hj, ha⟩ := h.isPending e d (List.mem_of_mem_filter he)
  have hjk : j ≠ k := by
    rintro rfl
    exact absurd (hk.symm.trans hj) (by simp)
  exact ⟨j, hj, by simpa [hjk] using ha⟩

/-- A new holder takes an item that is not live. -/
lemma attach [DecidableEq κ] (h : Ties live back item alarm pending none gone) (hc : c ∉ live)
    (hi : item k = none) (hk : ∀ d, back d ≠ some k) (a : Option ε)
    (hg : ∀ d, d ≠ c → gone d → gone' d) :
    Ties (insert c live) (Function.update back c (some k)) (Function.update item k (some c))
      (Function.update alarm k a) (pending ++ a.toList.map fun e => (e, c)) none gone' where
  isLive := by
    intro j d hj
    by_cases hjk : j = k
    · subst hjk
      simp only [Function.update_self] at hj
      exact Finset.mem_insert.mpr (.inl (Option.some.inj hj).symm)
    · exact Finset.mem_insert_of_mem (h.isLive j d (by simpa [hjk] using hj))
  isSole := by
    have hother : ∀ {j d}, j ≠ k → Function.update item k (some c) j = some d →
        item j = some d ∧ d ≠ c := by
      intro j d hjk hj
      rw [Function.update_of_ne hjk] at hj
      exact ⟨hj, fun hdc => hc (hdc ▸ h.isLive j d hj)⟩
    intro i j d hi' hj'
    by_cases hik : i = k <;> by_cases hjk : j = k
    · exact hik.trans hjk.symm
    · subst hik
      rw [Function.update_self] at hi'
      exact absurd (Option.some.inj hi').symm (hother hjk hj').2
    · subst hjk
      rw [Function.update_self] at hj'
      exact absurd (Option.some.inj hj').symm (hother hik hi').2
    · exact h.isSole i j d (hother hik hi').1 (hother hjk hj').1
  pointsBack := by
    intro j d hj
    by_cases hjk : j = k
    · subst hjk
      simp only [Function.update_self] at hj
      obtain rfl := Option.some.inj hj
      exact .inl (Function.update_self _ _ _)
    · rw [Function.update_of_ne hjk] at hj
      have hdc : d ≠ c := fun hdc => hc (hdc ▸ h.isLive j d hj)
      rw [Function.update_of_ne hdc]
      exact (h.pointsBack j d hj).imp_right (hg d hdc)
  isHeld := by
    intro d j hd
    by_cases hdc : d = c
    · subst hdc
      simp only [Function.update_self] at hd
      obtain rfl := Option.some.inj hd
      exact .inl (Function.update_self _ _ _)
    · rw [Function.update_of_ne hdc] at hd
      have hjk : j ≠ k := fun hjk => hk d (hjk ▸ hd)
      rw [Function.update_of_ne hjk]
      exact h.isHeld d j hd
  isLoose := fun _ hn => absurd hn (by simp)
  isPending := by
    intro e d he
    rcases List.mem_append.mp he with he | he
    · obtain ⟨j, hj, ha⟩ := h.isPending e d he
      have hjk : j ≠ k := by
        rintro rfl
        exact absurd (hi.symm.trans hj) (by simp)
      exact ⟨j, by simpa [hjk] using hj, by simpa [hjk] using ha⟩
    · obtain ⟨e', he', heq⟩ := List.mem_map.mp he
      obtain ⟨rfl, rfl⟩ := Prod.mk.inj heq
      exact ⟨k, Function.update_self _ _ _, by simpa using he'⟩

/-- An alarm that goes off is pending no more. -/
lemma fire [DecidableEq ε] (h : Ties live back item alarm pending none gone) (he : (e, c) ∈ pending)
    (hb : back c = some k) :
    Ties live back item (Function.update alarm k none) (pending.filter (·.1 ≠ e)) none gone := by
  refine { h with isPending := ?_ }
  intro e' d he'
  obtain ⟨hmem, hne⟩ := List.mem_filter.mp he'
  obtain ⟨j, hj, ha⟩ := h.isPending e' d hmem
  have hjk : j ≠ k := by
    rintro rfl
    obtain ⟨j', hj', ha'⟩ := h.isPending e c he
    obtain rfl := h.inj (h.item_eq hb) hj'
    simp [Option.some.inj (ha.symm.trans ha')] at hne
  exact ⟨j, hj, by simpa [hjk] using ha⟩

/-- A holder without an alarm sets one. -/
lemma arm (h : Ties live back item alarm pending loose gone) (hk : item k = some c)
    (ha : alarm k = none) (e : ε) :
    Ties live back item (Function.update alarm k (some e)) (pending ++ [(e, c)]) loose gone := by
  refine { h with isPending := ?_ }
  intro e' d he'
  rcases List.mem_append.mp he' with he' | he'
  · obtain ⟨j, hj, ha'⟩ := h.isPending e' d he'
    have hjk : j ≠ k := by
      rintro rfl
      exact absurd (ha.symm.trans ha') (by simp)
    exact ⟨j, hj, by simpa [hjk] using ha'⟩
  · obtain ⟨rfl, rfl⟩ := Prod.mk.inj (List.mem_singleton.mp he')
    exact ⟨k, hk, Function.update_self _ _ _⟩

end Update

end Ties

/-- No two holders share an alarm, and each of them who holds an item has one pending for it, but
for `silent`. -/
structure Armed {ι κ ε : Type} (item : ι → Option κ) (alarm : ι → Option ε)
    (pending : List (ε × κ)) (silent : Option ι) : Prop where
  inj : ∀ j k e, alarm j = some e → alarm k = some e → j = k
  isArmed : ∀ k c, item k = some c → silent ≠ some k → ∃ e, alarm k = some e ∧ (e, c) ∈ pending

namespace Armed

variable {ι κ ε : Type} {item : ι → Option κ} {alarm : ι → Option ε} {pending : List (ε × κ)}
  {silent : Option ι} {c : κ} {k : ι} {e : ε}

lemma weaken (h : Armed item alarm pending none) (silent : Option ι) :
    Armed item alarm pending silent :=
  ⟨h.inj, fun k c hk _ => h.isArmed k c hk (by simp)⟩

variable [DecidableEq ι]

/-- A changed alarm is not that of anybody else. -/
lemma inj_update (h : Armed item alarm pending silent) {a : Option ε}
    (ha : ∀ e, a = some e → ∀ j, alarm j ≠ some e) :
    ∀ i j e, Function.update alarm k a i = some e → Function.update alarm k a j = some e →
      i = j := by
  intro i j e hi hj
  by_cases hik : i = k <;> by_cases hjk : j = k
  · exact hik.trans hjk.symm
  · subst hik
    rw [Function.update_self] at hi
    rw [Function.update_of_ne hjk] at hj
    exact absurd hj (ha e hi j)
  · subst hjk
    rw [Function.update_self] at hj
    rw [Function.update_of_ne hik] at hi
    exact absurd hi (ha e hj i)
  · rw [Function.update_of_ne hik] at hi
    rw [Function.update_of_ne hjk] at hj
    exact h.inj i j e hi hj

/-- A holder gives up its item and its alarm. -/
lemma giveUp [DecidableEq ε] (h : Armed item alarm pending silent)
    (hs : ∀ j, silent = some j → j = k) :
    Armed (Function.update item k none) (Function.update alarm k none)
      (pending.filter fun p => some p.1 ≠ alarm k) none := by
  refine ⟨h.inj_update fun e he => absurd he (by simp), fun j d hj _ => ?_⟩
  have hjk : j ≠ k := by
    rintro rfl
    simp at hj
  rw [Function.update_of_ne hjk] at hj
  obtain ⟨e, ha, he⟩ := h.isArmed j d hj fun hsj => hjk (hs j hsj)
  refine ⟨e, by rwa [Function.update_of_ne hjk], List.mem_filter.mpr ⟨he, ?_⟩⟩
  have hne : some e ≠ alarm k := fun hk => hjk (h.inj j k e ha hk.symm)
  simpa using hne

/-- A holder takes an item, and sets a new alarm or is silent. -/
lemma attach (h : Armed item alarm pending silent) (hs : ∀ j, silent = some j → j = k)
    {a : Option ε} (ha : ∀ e, a = some e → ∀ j, alarm j ≠ some e) {silent' : Option ι}
    (hs' : a = none → silent' = some k) :
    Armed (Function.update item k (some c)) (Function.update alarm k a)
      (pending ++ a.toList.map fun e => (e, c)) silent' := by
  refine ⟨h.inj_update ha, fun j d hj hsj => ?_⟩
  by_cases hjk : j = k
  · subst hjk
    rw [Function.update_self] at hj ⊢
    obtain rfl := Option.some.inj hj
    cases a with
    | none => exact absurd (hs' rfl) hsj
    | some e => exact ⟨e, rfl, List.mem_append_right _ List.mem_cons_self⟩
  · rw [Function.update_of_ne hjk] at hj ⊢
    obtain ⟨e, hae, he⟩ := h.isArmed j d hj fun hsj => hjk (hs j hsj)
    exact ⟨e, hae, List.mem_append_left _ he⟩

/-- An alarm goes off, and its holder is silent. -/
lemma fire [DecidableEq ε] (h : Armed item alarm pending none) (hk : alarm k = some e) :
    Armed item (Function.update alarm k none) (pending.filter (·.1 ≠ e)) (some k) := by
  refine ⟨h.inj_update fun e he => absurd he (by simp), fun j d hj hsj => ?_⟩
  have hjk : j ≠ k := fun hjk => hsj (congrArg some hjk.symm)
  obtain ⟨e', ha, he'⟩ := h.isArmed j d hj (by simp)
  refine ⟨e', by rwa [Function.update_of_ne hjk], List.mem_filter.mpr ⟨he', ?_⟩⟩
  have hne : e' ≠ e := by
    rintro rfl
    exact hjk (h.inj j k e' ha hk)
  simpa using hne

end Armed

end Is2
