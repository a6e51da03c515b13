import Mathlib.Data.List.Nodup
import Mathlib.Logic.Function.Basic

/-!
# Things that are in one place at a time

A thing may wait in a slot of a queue, whose slots can be emptied in place; it may be what a pending
job is about; or it may be held.  `Custody` says that `place` knows where everything is, so that
nothing is in two places.  Each move takes one thing from its place (`pop`, `clear`, `drop`,
`release`) or puts one somewhere that is nowhere (`push`, `add`, `hold`).
-/

namespace Is2

/-- The slot, the job or the holder with a name. -/
inductive Place (ν : Type) where
  | slot (n : ν)
  | job (j : ν)
  | holder (u : ν)
deriving DecidableEq, Repr

/-- `place` says where everything is: in which slot, in which job, or with which holder. -/
structure Custody {ι ν : Type} (slots : List (ν × Option ι)) (jobs : List (ν × ι))
    (held : ν → Option ι) (place : ι → Option (Place ν)) : Prop where
  slot_iff : ∀ s n, (n, some s) ∈ slots ↔ place s = some (.slot n)
  job_iff : ∀ s j, (j, s) ∈ jobs ↔ place s = some (.job j)
  held_iff : ∀ s u, held u = some s ↔ place s = some (.holder u)
  names : (slots.map Prod.fst).Nodup
  jobs_inj : ∀ s r j, place s = some (.job j) → place r = some (.job j) → s = r

namespace Custody

variable {ι ν : Type} {slots rest : List (ν × Option ι)} {jobs : List (ν × ι)}
  {held : ν → Option ι} {place : ι → Option (Place ν)} {s : ι} {n j u : ν}

lemma slot_unique (h : Custody slots jobs held place) {p q : Option ι} (hp : (n, p) ∈ slots)
    (hq : (n, q) ∈ slots) : p = q := by
  have := List.inj_on_of_nodup_map h.names hp hq rfl
  exact (Prod.mk.inj this).2

/-- An empty slot is taken from the front. -/
lemma popNull (h : Custody ((n, none) :: rest) jobs held place) : Custody rest jobs held place := by
  refine { h with slot_iff := fun s m => ?_, names := ?_ }
  · rw [← h.slot_iff s m, List.mem_cons]
    simp
  · have hn := h.names
    rw [List.map_cons, List.nodup_cons] at hn
    exact hn.2

section Update

variable [DecidableEq ι] {x : Option (Place ν)}

/-- A thing that comes from no slot and goes to none. -/
lemma slot_iff_update (h : Custody slots jobs held place) (hs : ∀ m, place s ≠ some (.slot m))
    (hx : ∀ m, x ≠ some (.slot m)) (r : ι) (m : ν) :
    (m, some r) ∈ slots ↔ Function.update place s x r = some (.slot m) := by
  rw [h.slot_iff]
  by_cases hr : r = s
  · subst hr
    simp only [Function.update_self, hs m, hx m]
  · rw [Function.update_of_ne hr]

/-- A thing that comes from no job and goes to none. -/
lemma job_iff_update (h : Custody slots jobs held place) (hs : ∀ m, place s ≠ some (.job m))
    (hx : ∀ m, x ≠ some (.job m)) (r : ι) (m : ν) :
    (m, r) ∈ jobs ↔ Function.update place s x r = some (.job m) := by
  rw [h.job_iff]
  by_cases hr : r = s
  · subst hr
    simp only [Function.update_self, hs m, hx m]
  · rw [Function.update_of_ne hr]

/-- A thing that comes from no holder and goes to none. -/
lemma held_iff_update (h : Custody slots jobs held place) (hs : ∀ m, place s ≠ some (.holder m))
    (hx : ∀ m, x ≠ some (.holder m)) (r : ι) (m : ν) :
    held m = some r ↔ Function.update place s x r = some (.holder m) := by
  rw [h.held_iff]
  by_cases hr : r = s
  · subst hr
    simp only [Function.update_self, hs m, hx m]
  · rw [Function.update_of_ne hr]

/-- Nothing but `s` moves, and nobody else was in its old job. -/
lemma jobs_inj_update (h : Custody slots jobs held place)
    (hx : ∀ j, x = some (.job j) → ∀ r, place r ≠ some (.job j)) :
    ∀ r r' j, Function.update place s x r = some (.job j) →
      Function.update place s x r' = some (.job j) → r = r' := by
  intro r r' j hr hr'
  by_cases h₁ : r = s <;> by_cases h₂ : r' = s
  · exact h₁.trans h₂.symm
  · subst h₁
    rw [Function.update_self] at hr
    rw [Function.update_of_ne h₂] at hr'
    exact absurd hr' (hx j hr r')
  · subst h₂
    rw [Function.update_self] at hr'
    rw [Function.update_of_ne h₁] at hr
    exact absurd hr (hx j hr' r)
  · rw [Function.update_of_ne h₁] at hr
    rw [Function.update_of_ne h₂] at hr'
    exact h.jobs_inj r r' j hr hr'

/-- A slot is taken from the front. -/
lemma pop (h : Custody ((n, some s) :: rest) jobs held place) :
    Custody rest jobs held (Function.update place s none) := by
  have hs : place s = some (.slot n) := (h.slot_iff s n).mp List.mem_cons_self
  have hn := h.names
  rw [List.map_cons, List.nodup_cons] at hn
  refine ⟨fun r m => ?_, fun r j => ?_, fun r u => ?_, hn.2, ?_⟩
  · by_cases hr : r = s
    · subst hr
      simp only [Function.update_self, reduceCtorEq, iff_false]
      intro hm
      have hplace := (h.slot_iff r m).mp (List.mem_cons_of_mem _ hm)
      obtain rfl : n = m := by simpa using hs.symm.trans hplace
      exact hn.1 (List.mem_map.mpr ⟨_, hm, rfl⟩)
    · rw [Function.update_of_ne hr, ← h.slot_iff r m, List.mem_cons]
      simp [hr]
  · exact h.job_iff_update (by simp [hs]) (by simp) r _
  · exact h.held_iff_update (by simp [hs]) (by simp) r _
  · exact h.jobs_inj_update fun j hx => absurd hx (by simp)

/-- A slot is emptied in place. -/
lemma clear [DecidableEq ν] (h : Custody slots jobs held place) (hs : place s = some (.slot n)) :
    Custody (slots.map fun p => (p.1, if p.1 = n then none else p.2)) jobs held
      (Function.update place s none) := by
  refine ⟨fun r m => ?_, fun r j => ?_, fun r u => ?_, ?_, ?_⟩
  · have hmem : (m, some r) ∈ slots.map (fun p => (p.1, if p.1 = n then none else p.2)) ↔
        m ≠ n ∧ (m, some r) ∈ slots := by
      rw [List.mem_map]
      constructor
      · rintro ⟨⟨k, p⟩, hk, heq⟩
        obtain ⟨rfl, he⟩ := Prod.mk.inj heq
        by_cases hkn : k = n
        · simp [hkn] at he
        · simp only [hkn, if_false] at he
          rw [he] at hk
          exact ⟨hkn, hk⟩
      · rintro ⟨hne, hm⟩
        exact ⟨(m, some r), hm, by simp [hne]⟩
    rw [hmem, h.slot_iff]
    by_cases hr : r = s
    · subst hr
      simp only [Function.update_self, reduceCtorEq, iff_false, not_and]
      intro hne hm
      exact hne (by simpa using (hs.symm.trans hm).symm)
    · rw [Function.update_of_ne hr]
      refine ⟨fun hm => hm.2, fun hm => ⟨?_, hm⟩⟩
      rintro rfl
      have := h.slot_unique ((h.slot_iff r m).mpr hm) ((h.slot_iff s m).mpr hs)
      exact hr (Option.some.inj this)
  · exact h.job_iff_update (by simp [hs]) (by simp) r _
  · exact h.held_iff_update (by simp [hs]) (by simp) r _
  · rw [List.map_map]
    exact h.names
  · exact h.jobs_inj_update fun j hx => absurd hx (by simp)

/-- A job is done, or given up. -/
lemma drop [DecidableEq ν] (h : Custody slots jobs held place) (hs : place s = some (.job j)) :
    Custody slots (jobs.filter (·.1 ≠ j)) held (Function.update place s none) := by
  refine ⟨fun r m => ?_, fun r k => ?_, fun r u => ?_, h.names, ?_⟩
  · exact h.slot_iff_update (by simp [hs]) (by simp) r _
  · rw [List.mem_filter, h.job_iff]
    by_cases hr : r = s
    · subst hr
      simp only [Function.update_self, reduceCtorEq, iff_false, not_and]
      intro hk
      have : j = k := by simpa using hs.symm.trans hk
      simp [this]
    · rw [Function.update_of_ne hr]
      refine ⟨fun hk => hk.1, fun hk => ⟨hk, ?_⟩⟩
      have hne : k ≠ j := by
        rintro rfl
        exact hr (h.jobs_inj r s k hk hs)
      simpa using hne
  · exact h.held_iff_update (by simp [hs]) (by simp) r _
  · exact h.jobs_inj_update fun j hx => absurd hx (by simp)

/-- A holder gives up what it holds. -/
lemma release [DecidableEq ν] (h : Custody slots jobs held place) (hs : held u = some s) :
    Custody slots jobs (Function.update held u none) (Function.update place s none) := by
  have hp := (h.held_iff s u).mp hs
  refine ⟨fun r m => ?_, fun r k => ?_, fun r v => ?_, h.names, ?_⟩
  · exact h.slot_iff_update (by simp [hp]) (by simp) r _
  · exact h.job_iff_update (by simp [hp]) (by simp) r _
  · by_cases hv : v = u
    · subst hv
      rw [Function.update_self]
      by_cases hr : r = s
      · subst hr
        simp
      · rw [Function.update_of_ne hr, ← h.held_iff, hs]
        simp [Ne.symm hr]
    · rw [Function.update_of_ne hv, h.held_iff]
      by_cases hr : r = s
      · subst hr
        simp only [Function.update_self, hp, reduceCtorEq, iff_false, Option.some.injEq,
          Place.holder.injEq]
        exact fun he => hv he.symm
      · rw [Function.update_of_ne hr]
  · exact h.jobs_inj_update fun j hx => absurd hx (by simp)

/-- What is nowhere goes to a new slot at the end. -/
lemma push (h : Custody slots jobs held place) (hs : place s = none)
    (hn : ∀ p ∈ slots, p.1 ≠ n) :
    Custody (slots ++ [(n, some s)]) jobs held (Function.update place s (some (.slot n))) := by
  refine ⟨fun r m => ?_, fun r k => ?_, fun r v => ?_, ?_, ?_⟩
  · rw [List.mem_append, h.slot_iff]
    by_cases hr : r = s
    · subst hr
      simp [hs, eq_comm]
    · rw [Function.update_of_ne hr]
      simp [hr]
  · exact h.job_iff_update (by simp [hs]) (by simp) r _
  · exact h.held_iff_update (by simp [hs]) (by simp) r _
  · rw [List.map_append, List.map_singleton, List.nodup_append]
    refine ⟨h.names, List.nodup_singleton _, fun a ha b hb => ?_⟩
    obtain ⟨p, hp, rfl⟩ := List.mem_map.mp ha
    obtain rfl := List.mem_singleton.mp hb
    exact hn p hp
  · exact h.jobs_inj_update fun j hx => absurd hx (by simp)

/-- What is nowhere becomes what a new job is about. -/
lemma add (h : Custody slots jobs held place) (hs : place s = none) (hj : ∀ p ∈ jobs, p.1 ≠ j) :
    Custody slots (jobs ++ [(j, s)]) held (Function.update place s (some (.job j))) := by
  refine ⟨fun r m => ?_, fun r k => ?_, fun r v => ?_, h.names, ?_⟩
  · exact h.slot_iff_update (by simp [hs]) (by simp) r _
  · rw [List.mem_append, h.job_iff]
    by_cases hr : r = s
    · subst hr
      simp [hs, eq_comm]
    · rw [Function.update_of_ne hr]
      simp [hr]
  · exact h.held_iff_update (by simp [hs]) (by simp) r _
  · refine h.jobs_inj_update fun k hk r hr => ?_
    obtain rfl : j = k := by simpa using hk
    exact hj _ ((h.job_iff r j).mpr hr) rfl

/-- What is nowhere is taken by a new holder. -/
lemma hold [DecidableEq ν] (h : Custody slots jobs held place) (hs : place s = none)
    (hu : held u = none) :
    Custody slots jobs (Function.update held u (some s))
      (Function.update place s (some (.holder u))) := by
  refine ⟨fun r m => ?_, fun r k => ?_, fun r v => ?_, h.names, ?_⟩
  · exact h.slot_iff_update (by simp [hs]) (by simp) r _
  · exact h.job_iff_update (by simp [hs]) (by simp) r _
  · by_cases hv : v = u
    · subst hv
      rw [Function.update_self]
      by_cases hr : r = s
      · subst hr
        simp
      · rw [Function.update_of_ne hr, ← h.held_iff, hu]
        simp [Ne.symm hr]
    · rw [Function.update_of_ne hv, h.held_iff]
      by_cases hr : r = s
      · subst hr
        simp only [Function.update_self, hs, reduceCtorEq, false_iff, Option.some.injEq,
          Place.holder.injEq]
        exact fun he => hv he.symm
      · rw [Function.update_of_ne hr]
  · exact h.jobs_inj_update fun j hx => absurd hx (by simp)

end Update

end Custody

end Is2
