import Is2.Srvr.ActivePool
import Is2.Srvr.PoolPartition

/-!
# Does the counter of active connections count them?

The pool with its map of active sets does what the pool with a set of pairs does (`abs`), so what
`PoolSound` says of the latter holds here, for any connection that is passed to `add_idle` or
`release`: one that is active, idle, or already waiting to be deleted.

`Accounted` is what the counter, the map and the calls say of each other, and it holds in every run
(`active_set_accounting`): the counter goes down only when a connection was found in the map, and
then that connection had been counted.
-/

namespace Is2

namespace ActivePool

variable {ρ : Type} {cls : NconnClass ρ} {p q : ActivePool ρ} {c : ℕ}

/-! ## The map as a set of pairs -/

/-- The pairs of a label and a connection in its set. -/
def pairs (m : ActiveConnMap) : Finset (String × ℕ) :=
  m.keys.toFinset.biUnion fun label => ((m.lookup label).getD ∅).image (Prod.mk label)

/-- The sum of the sizes of the sets. -/
def total (m : ActiveConnMap) : ℕ := (m.entries.map fun e => e.2.card).sum

lemma mem_pairs {m : ActiveConnMap} {label : String} :
    (label, c) ∈ pairs m ↔ ∃ cs, m.lookup label = some cs ∧ c ∈ cs := by
  simp only [pairs, Finset.mem_biUnion, List.mem_toFinset, Finset.mem_image, Prod.mk.injEq]
  constructor
  · rintro ⟨label', hkey, d, hd, rfl, rfl⟩
    obtain ⟨cs, hcs⟩ := Option.isSome_iff_exists.mp
      (AList.lookup_isSome.mpr (AList.mem_keys.mpr hkey))
    exact ⟨cs, hcs, by simpa [hcs] using hd⟩
  · rintro ⟨cs, hcs, hc⟩
    have hkey : label ∈ m := AList.lookup_isSome.mp (Option.isSome_iff_exists.mpr ⟨cs, hcs⟩)
    exact ⟨label, AList.mem_keys.mp hkey, c, by simpa [hcs] using hc, rfl, rfl⟩

lemma pairs_insert (m : ActiveConnMap) (label : String) (cs : Finset ℕ) (x : String × ℕ) :
    x ∈ pairs (m.insert label cs) ↔ if x.1 = label then x.2 ∈ cs else x ∈ pairs m := by
  rcases x with ⟨label', d⟩
  rw [mem_pairs]
  split_ifs with h
  · obtain rfl : label' = label := h
    simp
  · rw [mem_pairs, AList.lookup_insert_ne h]

lemma pairs_erase (m : ActiveConnMap) (label : String) (x : String × ℕ) :
    x ∈ pairs (m.erase label) ↔ x.1 ≠ label ∧ x ∈ pairs m := by
  rcases x with ⟨label', d⟩
  rw [mem_pairs]
  by_cases h : label' = label
  · subst h
    simp
  · rw [mem_pairs, AList.lookup_erase_ne h]
    simp [h]

/-- **The sizes of the sets sum up to the number of pairs.** -/
lemma card_pairs (m : ActiveConnMap) : (pairs m).card = total m := by
  induction m using AList.insertRec with
  | H0 => rfl
  | IH label cs m hnot ih =>
      have hsplit : pairs (m.insert label cs) = cs.image (Prod.mk label) ∪ pairs m := by
        ext ⟨label', d⟩
        rw [pairs_insert, Finset.mem_union, Finset.mem_image]
        split_ifs with h
        · obtain rfl : label' = label := h
          have hno : (label', d) ∉ pairs m := by
            rw [mem_pairs, AList.lookup_eq_none.mpr hnot]
            simp
          simp [hno]
        · simp [Ne.symm h]
      have hdisj : Disjoint (cs.image (Prod.mk label)) (pairs m) := by
        rw [Finset.disjoint_left]
        intro x hx hm
        obtain ⟨d, -, rfl⟩ := Finset.mem_image.mp hx
        rw [mem_pairs, AList.lookup_eq_none.mpr hnot] at hm
        simp at hm
      rw [hsplit, Finset.card_union_of_disjoint hdisj, ih,
        Finset.card_image_of_injective _ (Prod.mk_right_injective label), total, total,
        AList.entries_insert_of_notMem hnot, List.map_cons, List.sum_cons]

/-- A connection is added to the set of its label, or to a new one. -/
lemma pairs_add (m : ActiveConnMap) (label : String) (c : ℕ) :
    pairs (m.insert label ((m.lookup label).elim {c} (insert c))) =
      insert (label, c) (pairs m) := by
  ext ⟨label', d⟩
  rw [pairs_insert, Finset.mem_insert, Prod.mk.injEq]
  split_ifs with h
  · obtain rfl : label' = label := h
    cases hcs : m.lookup label' with
    | none => simp [mem_pairs, hcs]
    | some cs => simp [mem_pairs, hcs]
  · have hne : label' ≠ label := h
    simp [hne]

/-- A connection is taken out of the set of its label, and the set out of the map with the last. -/
lemma pairs_remove {m : ActiveConnMap} {label : String} {cs : Finset ℕ}
    (hcs : m.lookup label = some cs) (c : ℕ) :
    pairs (if (cs.erase c).card = 0 then m.erase label else m.insert label (cs.erase c)) =
      (pairs m).erase (label, c) := by
  have hcase : ∀ d, (label, d) ∈ (pairs m).erase (label, c) ↔ d ∈ cs.erase c := by
    simp [mem_pairs, hcs]
  ext ⟨label', d⟩
  split_ifs with hempty
  · rw [pairs_erase]
    by_cases h : label' = label
    · subst h
      rw [hcase, Finset.card_eq_zero.mp hempty]
      simp
    · simp [h]
  · rw [pairs_insert]
    split_ifs with h
    · obtain rfl : label' = label := h
      exact (hcase d).symm
    · have hne : label' ≠ label := h
      simp [hne]

/-- No label has an empty set. -/
def NonemptySets (m : ActiveConnMap) : Prop :=
  ∀ label cs, m.lookup label = some cs → cs.Nonempty

lemma NonemptySets.insert {m : ActiveConnMap} (h : NonemptySets m) (label : String)
    {cs : Finset ℕ} (hcs : cs.Nonempty) : NonemptySets (m.insert label cs) := by
  intro label' cs' hcs'
  by_cases hl : label' = label
  · subst hl
    rw [AList.lookup_insert] at hcs'
    exact Option.some.inj hcs' ▸ hcs
  · rw [AList.lookup_insert_ne hl] at hcs'
    exact h label' cs' hcs'

lemma NonemptySets.erase {m : ActiveConnMap} (h : NonemptySets m) (label : String) :
    NonemptySets (m.erase label) := by
  intro label' cs' hcs'
  by_cases hl : label' = label
  · subst hl
    rw [AList.lookup_erase] at hcs'
    cases hcs'
  · rw [AList.lookup_erase_ne hl] at hcs'
    exact h label' cs' hcs'

/-- The map of `q` has no empty set if that of `p` has none. -/
def KeepsSets (p q : ActivePool ρ) : Prop :=
  NonemptySets p.activeConnMap → NonemptySets q.activeConnMap

lemma keepsSets_of_eq (h : q.activeConnMap = p.activeConnMap) : KeepsSets p q := fun hp => h ▸ hp

/-! ## The pool with a set of pairs -/

/-- The pool with a set of pairs. -/
def abs (p : ActivePool ρ) : NconnPool ρ where
  nconns := p.nconns
  next := p.next
  activeConnMap := pairs p.activeConnMap
  activeConnMapSize := p.activeConnMapSize
  activeConnMapMaxSize := p.activeConnMapMaxSize
  idleConnLru := p.idleConnLru
  reapList := p.reapList

lemma abs_addActive (h : p.addActive c = some q) :
    p.abs.addActive c = some q.abs ∧ KeepsSets p q := by
  obtain ⟨n, hn, h⟩ := Option.bind_eq_some_iff.mp h
  obtain rfl := Option.some.inj h
  refine ⟨Option.bind_eq_some_iff.mpr ⟨n, hn, ?_⟩, fun hp => hp.insert n.label ?_⟩
  · simp only [abs, pairs_add]
  · cases p.activeConnMap.lookup n.label with
    | none => exact Finset.singleton_nonempty c
    | some cs => exact Finset.insert_nonempty c cs

lemma abs_removeActive {ok : Bool} (hsize : p.activeConnMapSize = (pairs p.activeConnMap).card)
    (h : p.removeActive c = some (q, ok)) :
    p.abs.removeActive c = some (q.abs, ok) ∧ KeepsSets p q := by
  obtain ⟨n, hn, h⟩ := Option.bind_eq_some_iff.mp h
  suffices hrem : (if (n.label, c) ∈ pairs p.activeConnMap then
      some ({ p.abs with
        activeConnMap := (pairs p.activeConnMap).erase (n.label, c)
        activeConnMapSize := p.activeConnMapSize - 1 }, true)
      else some (p.abs, false)) = some (q.abs, ok) ∧ KeepsSets p q from
    ⟨Option.bind_eq_some_iff.mpr ⟨n, hn, hrem.1⟩, hrem.2⟩
  split at h
  · next hcs =>
      obtain ⟨rfl, rfl⟩ := Prod.mk.inj (Option.some.inj h)
      exact ⟨if_neg (by simp [mem_pairs, hcs]), keepsSets_of_eq rfl⟩
  · next cs hcs =>
      have hmem : (n.label, c) ∈ pairs p.activeConnMap ↔ c ∈ cs := by simp [mem_pairs, hcs]
      by_cases hc : c ∈ cs
      · rw [if_pos hc] at h
        obtain ⟨rfl, rfl⟩ := Prod.mk.inj (Option.some.inj h)
        have hpos : 1 ≤ p.activeConnMapSize := by
          rw [hsize]
          exact Finset.card_pos.mpr ⟨_, hmem.mpr hc⟩
        rw [if_pos (hmem.mpr hc), ← pairs_remove hcs, ← sub64_of_le hpos]
        refine ⟨rfl, fun hp => ?_⟩
        dsimp only
        split_ifs with hempty
        · exact hp.erase n.label
        · exact hp.insert n.label (Finset.card_pos.mp (Nat.pos_of_ne_zero hempty))
      · rw [if_neg hc] at h
        obtain ⟨rfl, rfl⟩ := Prod.mk.inj (Option.some.inj h)
        exact ⟨if_neg (hmem.not.mpr hc), keepsSets_of_eq rfl⟩

lemma abs_removeIdle (h : p.removeIdle c = some q) :
    p.abs.removeIdle c = some q.abs ∧ q.activeConnMap = p.activeConnMap := by
  obtain ⟨n, hn, h⟩ := Option.bind_eq_some_iff.mp h
  split_ifs at h with hsize
  · obtain rfl := Option.some.inj h
    exact ⟨Option.bind_eq_some_iff.mpr ⟨n, hn, if_pos hsize⟩, rfl⟩
  · obtain rfl := Option.some.inj h
    exact ⟨Option.bind_eq_some_iff.mpr ⟨n, hn, if_neg hsize⟩, rfl⟩

lemma abs_cleanup (h : p.cleanup cls c = some q) :
    p.abs.cleanup cls c = some q.abs ∧ q.activeConnMap = p.activeConnMap := by
  obtain ⟨n, hn, h⟩ := Option.bind_eq_some_iff.mp h
  obtain rfl := Option.some.inj h
  exact ⟨Option.bind_eq_some_iff.mpr ⟨n, hn, rfl⟩, rfl⟩

lemma abs_deleteCb {o : Option ℕ} (h : p.deleteCb cls o = some q) :
    p.abs.deleteCb cls o = some q.abs ∧ q.activeConnMap = p.activeConnMap := by
  cases o with
  | none =>
      obtain rfl := Option.some.inj h
      exact ⟨rfl, rfl⟩
  | some c => exact abs_cleanup h

lemma abs_getNewActive {label : String} {scheme : Scheme} {o : Option ℕ}
    (h : p.getNewActive cls label scheme = some (q, o)) :
    p.abs.getNewActive cls label scheme = some (q.abs, o) ∧ KeepsSets p q := by
  rw [getNewActive] at h
  split_ifs at h with hmax
  · obtain ⟨rfl, rfl⟩ := Prod.mk.inj (Option.some.inj h)
    exact ⟨if_pos hmax, keepsSets_of_eq rfl⟩
  · obtain ⟨r, hr, h⟩ := Option.bind_eq_some_iff.mp h
    obtain ⟨q', hadd, h⟩ := Option.bind_eq_some_iff.mp h
    obtain ⟨rfl, rfl⟩ := Prod.mk.inj (Option.some.inj h)
    obtain ⟨hadd', hsets⟩ := abs_addActive hadd
    refine ⟨(if_neg hmax).trans (Option.bind_eq_some_iff.mpr ⟨r, hr, ?_⟩), hsets⟩
    exact Option.bind_eq_some_iff.mpr ⟨_, hadd', rfl⟩

lemma abs_getIdle {label : String} {o : Option ℕ} (h : p.getIdle label = some (q, o)) :
    p.abs.getIdle label = some (q.abs, o) ∧ KeepsSets p q := by
  rw [getIdle] at h
  rw [NconnPool.getIdle, show p.abs.idleConnLru = p.idleConnLru from rfl]
  cases hget : p.idleConnLru.get label with
  | none =>
      rw [hget] at h
      obtain ⟨rfl, rfl⟩ := Prod.mk.inj (Option.some.inj h)
      exact ⟨rfl, keepsSets_of_eq rfl⟩
  | some r =>
      rw [hget] at h
      obtain ⟨q', hadd, h⟩ := Option.bind_eq_some_iff.mp h
      obtain ⟨rfl, rfl⟩ := Prod.mk.inj (Option.some.inj h)
      obtain ⟨hadd', hsets⟩ := abs_addActive hadd
      exact ⟨Option.bind_eq_some_iff.mpr ⟨_, hadd', rfl⟩, hsets⟩

lemma abs_addIdle {ok : Bool} (hsize : p.activeConnMapSize = (pairs p.activeConnMap).card)
    (h : p.addIdle cls (some c) = some (q, ok)) :
    p.abs.addIdle cls c = some (q.abs, ok) ∧ KeepsSets p q := by
  obtain ⟨⟨p₁, ok₁⟩, hrem, h⟩ := Option.bind_eq_some_iff.mp h
  obtain ⟨hrem', hsets⟩ := abs_removeActive hsize hrem
  cases ok₁ with
  | false =>
      obtain ⟨rfl, rfl⟩ := Prod.mk.inj (Option.some.inj h)
      exact ⟨Option.bind_eq_some_iff.mpr ⟨_, hrem', rfl⟩, hsets⟩
  | true =>
      obtain ⟨n, hn, h⟩ := Option.bind_eq_some_iff.mp h
      obtain ⟨p₂, hdel, h⟩ := Option.bind_eq_some_iff.mp h
      obtain ⟨rfl, rfl⟩ := Prod.mk.inj (Option.some.inj h)
      obtain ⟨hdel', hmap⟩ := abs_deleteCb hdel
      refine ⟨Option.bind_eq_some_iff.mpr ⟨_, hrem', ?_⟩,
        fun hp => keepsSets_of_eq hmap (hsets hp)⟩
      exact Option.bind_eq_some_iff.mpr ⟨n, hn, Option.bind_eq_some_iff.mpr ⟨_, hdel', rfl⟩⟩

lemma abs_release (hsize : p.activeConnMapSize = (pairs p.activeConnMap).card)
    (h : p.release cls (some c) = some q) :
    p.abs.release cls c = some q.abs ∧ KeepsSets p q := by
  obtain ⟨⟨p₁, ok₁⟩, hrem, h⟩ := Option.bind_eq_some_iff.mp h
  obtain ⟨p₂, hidle, hcl⟩ := Option.bind_eq_some_iff.mp h
  obtain ⟨hrem', hsets⟩ := abs_removeActive hsize hrem
  obtain ⟨hidle', hmap₂⟩ := abs_removeIdle hidle
  obtain ⟨hcl', hmap₃⟩ := abs_cleanup hcl
  refine ⟨Option.bind_eq_some_iff.mpr ⟨_, hrem', ?_⟩,
    fun hp => keepsSets_of_eq (hmap₃.trans hmap₂) (hsets hp)⟩
  exact Option.bind_eq_some_iff.mpr ⟨_, hidle', hcl'⟩

lemma abs_evictLoop {n : ℕ} (h : evictLoop cls n p = some q) :
    NconnPool.evictLoop cls n p.abs = some q.abs ∧ q.activeConnMap = p.activeConnMap := by
  induction n generalizing p with
  | zero =>
      rw [evictLoop] at h
      split_ifs at h with hsize
      obtain rfl := Option.some.inj h
      exact ⟨if_neg hsize, rfl⟩
  | succ n ih =>
      rw [evictLoop] at h
      split_ifs at h with hsize
      · obtain ⟨p', hdel, h⟩ := Option.bind_eq_some_iff.mp h
        obtain ⟨hdel', hmap'⟩ := abs_deleteCb hdel
        obtain ⟨hloop, hmap⟩ := ih h
        exact ⟨(if_pos hsize).trans (Option.bind_eq_some_iff.mpr ⟨_, hdel', hloop⟩),
          hmap.trans hmap'⟩
      · obtain rfl := Option.some.inj h
        exact ⟨if_neg hsize, rfl⟩

lemma abs_reap (h : p.reap = some q) :
    p.abs.reap = some q.abs ∧ q.activeConnMap = p.activeConnMap := by
  obtain ⟨g, hfold, rfl⟩ := Option.map_eq_some_iff.mp h
  exact ⟨Option.map_eq_some_iff.mpr ⟨g, hfold, rfl⟩, rfl⟩

/-! ## What the calls keep -/

/-- The connections that are in some set. -/
def active (p : ActivePool ρ) : Finset ℕ := (pairs p.activeConnMap).image Prod.snd

/-- What is active or idle is in its right place, the active connections exist, and no set is
empty. -/
structure Sound (p : ActivePool ρ) : Prop where
  placed : p.abs.Sound
  alive : ∀ c ∈ p.active, (p.nconns c).isSome
  nonempty : NonemptySets p.activeConnMap

namespace Sound

lemma counted (h : p.Sound) : p.activeConnMapSize = (pairs p.activeConnMap).card := h.placed.size

/-- A call that the pool with a set of pairs can make, too. -/
lemma moves {op : NconnPool.Op} (h : p.Sound) (hq : q.abs.Sound)
    (hm : NconnPool.Moves cls p.abs q.abs op) (hsets : KeepsSets p q)
    (hr : op = .reap → ∀ c ∈ p.active, c ∉ p.reapList) : q.Sound :=
  ⟨hq, hm.alive h.alive hr, hsets h.nonempty⟩

lemma getNewActive {label : String} {scheme : Scheme} {o : Option ℕ} (h : p.Sound)
    (he : p.getNewActive cls label scheme = some (q, o)) :
    q.Sound ∧ q.active = o.elim p.active (insert · p.active) := by
  obtain ⟨he', hsets⟩ := abs_getNewActive he
  cases o with
  | none =>
      have hsame := NconnPool.getNewActive_none he'
      have hm : NconnPool.Moves cls p.abs q.abs (.getNewActive label scheme) := .unchanged hsame
      exact ⟨h.moves (hsame ▸ h.placed) hm hsets (by simp), congrArg NconnPool.active hsame⟩
  | some c =>
      obtain ⟨hq, -, hact, -⟩ := h.placed.getNewActive he'
      exact ⟨h.moves hq (h.placed.moves_getNewActive he') hsets (by simp), hact⟩

lemma getIdle {label : String} {o : Option ℕ} (cls : NconnClass ρ) (h : p.Sound)
    (he : p.getIdle label = some (q, o)) :
    q.Sound ∧ q.active = o.elim p.active (insert · p.active) := by
  obtain ⟨he', hsets⟩ := abs_getIdle he
  cases o with
  | none =>
      have hsame := NconnPool.getIdle_none he'
      have hm : NconnPool.Moves cls p.abs q.abs (.getIdle label) := .unchanged hsame
      exact ⟨h.moves (hsame ▸ h.placed) hm hsets (by simp), congrArg NconnPool.active hsame⟩
  | some c =>
      obtain ⟨hq, -, hact, -⟩ := h.placed.getIdle he'
      have hm : NconnPool.Moves cls p.abs q.abs (.getIdle label) := h.placed.moves_getIdle he'
      exact ⟨h.moves hq hm hsets (by simp), hact⟩

lemma addIdle {ok : Bool} (h : p.Sound) (he : p.addIdle cls (some c) = some (q, ok)) :
    q.Sound ∧ q.active = p.active.erase c := by
  obtain ⟨he', hsets⟩ := abs_addIdle h.counted he
  by_cases hc : c ∈ p.active
  · obtain ⟨hq, hact, -⟩ := h.placed.addIdle hc he'
    exact ⟨h.moves hq (h.placed.moves_addIdle hc he') hsets (by simp), hact⟩
  · obtain ⟨hsame, -⟩ := h.placed.addIdle_of_notMem hc he'
    have hm : NconnPool.Moves cls p.abs q.abs (.addIdle c) := .unchanged hsame
    have hact : q.active = p.active := congrArg NconnPool.active hsame
    exact ⟨h.moves (hsame ▸ h.placed) hm hsets (by simp),
      by rw [hact, Finset.erase_eq_of_notMem hc]⟩

lemma release (h : p.Sound) (he : p.release cls (some c) = some q) :
    q.Sound ∧ q.active = p.active.erase c := by
  obtain ⟨he', hsets⟩ := abs_release h.counted he
  obtain ⟨hq, hact, -⟩ := h.placed.release he'
  exact ⟨h.moves hq (h.placed.moves_release he') hsets (by simp), hact⟩

lemma evictAllIdle (h : p.Sound) (he : p.evictAllIdle cls = some q) :
    q.Sound ∧ q.active = p.active := by
  obtain ⟨he', hmap⟩ := abs_evictLoop he
  obtain ⟨hq, hact, hidle, hreap, hkept⟩ := h.placed.evictLoop he'
  exact ⟨h.moves hq (.emptied hact hidle hreap hkept) (keepsSets_of_eq hmap) (by simp), hact⟩

lemma reap (cls : NconnClass ρ) (h : p.Sound) (hr : ∀ c ∈ p.active, c ∉ p.reapList)
    (he : p.reap = some q) :
    q.Sound ∧ q.active = p.active := by
  obtain ⟨he', hmap⟩ := abs_reap he
  obtain ⟨hq, hact, -⟩ := h.placed.reap he'
  have hm : NconnPool.Moves cls p.abs q.abs .reap := h.placed.moves_reap he'
  exact ⟨h.moves hq hm (keepsSets_of_eq hmap) fun _ => hr, hact⟩

end Sound

/-- The pool is sound, and the connections that are out are the active ones. -/
def Ledger.Balanced (s : Ledger ρ) : Prop := s.pool.Sound ∧ s.out = s.pool.active

lemma balanced_new (maxActiveSize maxIdleSize : ℕ) :
    (⟨new maxActiveSize maxIdleSize, ∅⟩ : Ledger ρ).Balanced := by
  refine ⟨⟨?_, ?_, ?_⟩, rfl⟩
  · exact NconnPool.sound_new maxActiveSize maxIdleSize
  · simp [active, new, pairs]
  · intro label cs hcs
    cases hcs

/-- `reap` deletes no connection that a caller has. -/
def Ledger.Spares (s : Ledger ρ) : Call → Prop
  | .reap => ∀ c ∈ s.pool.reapList, c ∉ s.out
  | _ => True

instance (s : Ledger ρ) : (call : Call) → Decidable (s.Spares call)
  | .reap => inferInstanceAs (Decidable (∀ c ∈ s.pool.reapList, c ∉ s.out))
  | .getNewActive _ _ | .getIdle _ | .addIdle _ | .release _ | .evictAllIdle => isTrue trivial

/-- **A call keeps the ledger balanced.** -/
lemma Ledger.Balanced.run {s t : Ledger ρ} {call : Call} (h : s.Balanced) (hok : s.Spares call)
    (he : s.run cls call = some t) : t.Balanced := by
  obtain ⟨hs, hout⟩ := h
  cases call with
  | getNewActive label scheme =>
      obtain ⟨⟨q, o⟩, hr, rfl⟩ := Option.map_eq_some_iff.mp he
      obtain ⟨hq, hact⟩ := hs.getNewActive hr
      exact ⟨hq, by rw [hact, hout]⟩
  | getIdle label =>
      obtain ⟨⟨q, o⟩, hr, rfl⟩ := Option.map_eq_some_iff.mp he
      obtain ⟨hq, hact⟩ := hs.getIdle cls hr
      exact ⟨hq, by rw [hact, hout]⟩
  | addIdle c =>
      obtain ⟨⟨q, ok⟩, hr, rfl⟩ := Option.map_eq_some_iff.mp he
      cases c with
      | none =>
          obtain ⟨rfl, -⟩ := Prod.mk.inj (Option.some.inj hr)
          exact ⟨hs, hout⟩
      | some c =>
          obtain ⟨hq, hact⟩ := hs.addIdle hr
          exact ⟨hq, by rw [hact, ← hout]; rfl⟩
  | release c =>
      obtain ⟨q, hr, rfl⟩ := Option.map_eq_some_iff.mp he
      cases c with
      | none =>
          obtain rfl := Option.some.inj hr
          exact ⟨hs, hout⟩
      | some c =>
          obtain ⟨hq, hact⟩ := hs.release hr
          exact ⟨hq, by rw [hact, ← hout]; rfl⟩
  | evictAllIdle =>
      obtain ⟨q, hr, rfl⟩ := Option.map_eq_some_iff.mp he
      obtain ⟨hq, hact⟩ := hs.evictAllIdle hr
      exact ⟨hq, by rw [hact, ← hout]⟩
  | reap =>
      obtain ⟨q, hr, rfl⟩ := Option.map_eq_some_iff.mp he
      have hspared : ∀ c ∈ s.pool.active, c ∉ s.pool.reapList :=
        fun c hc hx => hok c hx (hout ▸ hc)
      obtain ⟨hq, hact⟩ := hs.reap cls hspared hr
      exact ⟨hq, by rw [hact, ← hout]⟩

lemma balanced_of_reachable {maxActiveSize maxIdleSize : ℕ} {s : Ledger ρ}
    (h : ((machine cls maxActiveSize maxIdleSize).guarded Ledger.Spares).Reachable s) :
    s.Balanced := by
  refine Machine.Reachable.invariant (P := Ledger.Balanced) ?_ ?_ h
  · rintro s rfl
    exact balanced_new _ _
  · exact fun s call t hs he => hs.run he.1 he.2

/-! ## The account -/

lemma Sound.active_card (h : p.Sound) : p.active.card = p.activeConnMapSize := h.placed.active_card

/-- The connections with a label are those in its set. -/
lemma Sound.filter_label (h : p.Sound) (label : String) :
    (p.active.filter fun c => (p.nconns c).map Nconn.label = some label) =
      (p.activeConnMap.lookup label).getD ∅ := by
  ext c
  have hset : c ∈ (p.activeConnMap.lookup label).getD ∅ ↔ (label, c) ∈ pairs p.activeConnMap := by
    rw [mem_pairs]
    cases p.activeConnMap.lookup label <;> simp
  rw [hset, Finset.mem_filter, Option.map_eq_some_iff]
  constructor
  · rintro ⟨hc, n, hn, rfl⟩
    exact (h.placed.mem_active_iff hn).mp hc
  · intro hm
    have hc : c ∈ p.active := Finset.mem_image_of_mem Prod.snd hm
    obtain ⟨n, hn⟩ := Option.isSome_iff_exists.mp (h.alive c hc)
    exact ⟨hc, n, hn, h.placed.labelled label c n hm hn⟩

/-- **The account of the active connections.**  `out` are the connections that callers have. -/
structure Accounted (cls : NconnClass ρ) (p : ActivePool ρ) (out : Finset ℕ) : Prop where
  /-- The counter is the sum of the sizes of the sets. -/
  size : p.activeConnMapSize = total p.activeConnMap
  /-- No label maps to an empty set. -/
  nonempty : NonemptySets p.activeConnMap
  /-- A set has connections of its label only. -/
  ownLabel : ∀ label cs, p.activeConnMap.lookup label = some cs →
    ∀ c ∈ cs, ∃ n, p.nconns c = some n ∧ n.label = label
  /-- What is out is in the set of its label. -/
  filed : ∀ c ∈ out, ∃ n cs, p.nconns c = some n ∧
    p.activeConnMap.lookup n.label = some cs ∧ c ∈ cs
  /-- `get_active_label` counts the connections that are out and have the label. -/
  label : ∀ label, p.getActiveLabel label =
    (out.filter fun c => (p.nconns c).map Nconn.label = some label).card
  /-- The counter goes down by one, and not below zero. -/
  noUnderflow : ∀ c q, p.removeActive c = some (q, true) →
    q.activeConnMapSize + 1 = p.activeConnMapSize
  /-- The release of a connection that is not out leaves the counter as it is. -/
  releaseIdle : ∀ c q, c ∉ out → p.release cls (some c) = some q →
    q.activeConnMapSize = p.activeConnMapSize

lemma Sound.accounted (h : p.Sound) (cls : NconnClass ρ) : p.Accounted cls p.active where
  size := h.counted.trans (card_pairs _)
  nonempty := h.nonempty
  ownLabel label cs hcs c hc := by
    have hm : (label, c) ∈ pairs p.activeConnMap := mem_pairs.mpr ⟨cs, hcs, hc⟩
    obtain ⟨n, hn⟩ := Option.isSome_iff_exists.mp (h.alive c (Finset.mem_image_of_mem Prod.snd hm))
    exact ⟨n, hn, h.placed.labelled label c n hm hn⟩
  filed c hc := by
    obtain ⟨n, hn⟩ := Option.isSome_iff_exists.mp (h.alive c hc)
    obtain ⟨cs, hcs, hmem⟩ := mem_pairs.mp ((h.placed.mem_active_iff hn).mp hc)
    exact ⟨n, cs, hn, hcs, hmem⟩
  label label := by
    rw [h.filter_label, getActiveLabel]
    cases p.activeConnMap.lookup label <;> rfl
  noUnderflow c q he := by
    obtain ⟨he', -⟩ := abs_removeActive h.counted he
    obtain ⟨hq, hact, hok, -⟩ := h.placed.removeActive he'
    have hc : c ∈ p.active := of_decide_eq_true hok.symm
    have hcard : (p.active.erase c).card = q.activeConnMapSize := hact ▸ hq.active_card
    rw [← hcard, ← h.active_card, Finset.card_erase_add_one hc]
  releaseIdle c q hc he := by
    obtain ⟨hq, hact⟩ := h.release he
    rw [← hq.active_card, hact, Finset.erase_eq_of_notMem hc, h.active_card]

/-- **The counter, the map and the calls agree**, in every run of calls on a pool.  Only `reap`
could disturb that, by deleting a connection that a caller still has. -/
theorem active_set_accounting (cls : NconnClass ρ) (maxActiveSize maxIdleSize : ℕ) (s : Ledger ρ)
    (h : ((machine cls maxActiveSize maxIdleSize).guarded Ledger.Spares).Reachable s) :
    s.pool.Accounted cls s.out := by
  obtain ⟨hs, hout⟩ := balanced_of_reachable h
  rw [hout]
  exact hs.accounted cls

/-- Three connections are opened, one becomes idle, and it is released twice. -/
theorem active_set_accounting_three : ∃ s : Ledger Unit, s.out = {0, 1} ∧
    s.pool.activeConnMapSize = 2 ∧ s.pool.getActiveLabel "a" = 1 ∧
    s.pool.Accounted NconnPool.plainClass s.out := by
  let calls : List Call := [.getNewActive "a" .tcp, .getNewActive "b" .tls, .getNewActive "a" .tcp,
    .addIdle (some 2), .release (some 2), .release (some 2), .addIdle none]
  have hrun : (calls.foldlM (fun (s : Ledger Unit) call =>
      if s.Spares call then s.run NconnPool.plainClass call else none) ⟨new 8 8, ∅⟩).map (fun s =>
        (s.out, s.pool.activeConnMapSize, s.pool.getActiveLabel "a")) = some ({0, 1}, 2, 1) := by
    decide +kernel
  obtain ⟨s, hs, hr⟩ := Option.map_eq_some_iff.mp hrun
  simp only [Prod.mk.injEq] at hr
  obtain ⟨hout, hsize, hlabel⟩ := hr
  have h : ((machine NconnPool.plainClass 8 8).guarded Ledger.Spares).Reachable s :=
    Machine.Reachable.guarded_foldlM (fun _ _ _ he => he) rfl hs
  exact ⟨s, hout, hsize, hlabel, active_set_accounting NconnPool.plainClass 8 8 s h⟩

end ActivePool

end Is2
