import Is2.Srvr.PoolSound

/-!
# Where the connections of a pool are, and how many there are

**Partition.**  `release` also asks the LRU to remove the id that the connection has.  A connection
that was never idle has the id `0`, which the LRU has given to another one; that one then leaves the
LRU without being cleaned up.  And of an id from `2 ^ 32` on a connection has only the lower half,
so that its own entry stays.  If every connection that is released has its own id, and no other one
has it, every connection that exists is in exactly one place.

**Capacity.**  `get_idle` makes an idle connection active without looking at the maximum.  If it
only finds one while there is room, neither maximum is ever exceeded.
-/

namespace Is2

namespace NconnPool

variable {ρ : Type} {cls : NconnClass ρ} {p q : NconnPool ρ} {c d : ℕ}

/-! ## Partition -/

/-- The LRU has the connection that is released, if it is idle, under the id that the connection
has, and no other one. -/
def OwnId (p : NconnPool ρ) : Op → Prop
  | .release c => ∀ n ∈ p.nconns c, ∀ item ∈ p.idleConnLru.itemList, item.1 = n.id ↔ item.2 = c
  | _ => True

instance (p : NconnPool ρ) : (op : Op) → Decidable (p.OwnId op)
  | .release c => inferInstanceAs (Decidable (∀ n ∈ p.nconns c, ∀ item ∈ p.idleConnLru.itemList,
      item.1 = n.id ↔ item.2 = c))
  | .getNewActive _ _ | .getIdle _ | .addIdle _ | .evictAllIdle | .reap => isTrue trivial

lemma OwnId.found (h : p.OwnId (.release c)) : p.Found c :=
  fun item hitem hc n hn => ((h n hn item hitem).mpr hc).symm

/-- Every connection that exists is in one of the three places. -/
def Covered (p : NconnPool ρ) : Prop := ∀ c n, p.nconns c = some n → ¬ p.Nowhere c

/-- With its own id, `release` takes only its connection out of the LRU. -/
lemma OwnId.mem_idle_of_released (h : p.OwnId (.release c)) (hm : Moves cls p q (.release c)) :
    ∀ d ≠ c, d ∈ q.idle ↔ d ∈ p.idle := by
  intro d hne
  cases hm with
  | unchanged same => rw [same]
  | @released c n name active reapList kept idle =>
      rw [idle d, mem_idle]
      refine ⟨?_, ?_⟩
      · rintro ⟨id, hm, -⟩
        exact ⟨id, hm⟩
      · rintro ⟨id, hm⟩
        exact ⟨id, hm, fun he => hne ((h n name _ hm).mp he)⟩

lemma covered_new (a i : ℕ) : (new a i : NconnPool ρ).Covered := by
  intro c n hn
  simp [new] at hn

/-- A call loses no connection, if what it releases has its own id. -/
lemma Covered.run {op : Op} (h : p.Covered) (ho : p.OwnId op) (hm : Moves cls p q op) :
    q.Covered := by
  intro c n hn hnow
  obtain ⟨hna, hni, hnr⟩ := hnow
  cases hm with
  | unchanged same =>
      subst same
      exact h c n hn ⟨hna, hni, hnr⟩
  | @opened label scheme c' name room active idle reapList created others =>
      rw [active, Finset.mem_insert, not_or] at hna
      rw [others c hna.1] at hn
      exact h c n hn ⟨hna.2, idle ▸ hni, reapList ▸ hnr⟩
  | @revived label c' found mem active idle reapList kept alive =>
      rw [active, Finset.mem_insert, not_or] at hna
      rw [kept] at hn
      refine h c n hn ⟨hna.2, fun hc => hni ?_, reapList ▸ hnr⟩
      rw [idle]
      exact List.mem_filter.mpr ⟨hc, by simpa using hna.1⟩
  | @parked c' mem active idle reapList room kept =>
      obtain ⟨m, hm⟩ := kept.exists_some hn
      rw [idle, List.mem_cons, not_or] at hni
      rw [active, Finset.mem_erase, not_and] at hna
      exact h c m hm ⟨hna hni.1, hni.2, reapList ▸ hnr⟩
  | @displaced c' l d mem active split idle reapList kept =>
      obtain ⟨m, hm⟩ := kept.exists_some hn
      rw [reapList, List.mem_append, not_or, List.mem_singleton] at hnr
      have hnot : c ∉ c' :: p.idle := by
        rw [split, List.mem_append, not_or, ← idle]
        exact ⟨hni, fun hc => hnr.2 (List.mem_singleton.mp hc)⟩
      rw [List.mem_cons, not_or] at hnot
      rw [active, Finset.mem_erase, not_and] at hna
      exact h c m hm ⟨hna hnot.1, hnot.2, hnr.1⟩
  | @released c' n' name active reapList kept idle =>
      obtain ⟨m, hm⟩ := kept.exists_some hn
      rw [reapList, List.mem_append, not_or, List.mem_singleton] at hnr
      rw [active, Finset.mem_erase, not_and] at hna
      have hiff := ho.mem_idle_of_released (.released name active reapList kept idle) c hnr.2
      exact h c m hm ⟨hna hnr.2, fun hc => hni (hiff.mpr hc), hnr.1⟩
  | emptied active idle reapList kept =>
      obtain ⟨m, hm⟩ := kept.exists_some hn
      rw [reapList, List.mem_append, not_or, List.mem_reverse] at hnr
      exact h c m hm ⟨active ▸ hna, hnr.2, hnr.1⟩
  | reaped active idle reapList deleted =>
      rw [deleted] at hn
      by_cases hr : c ∈ p.reapList
      · simp [hr] at hn
      · simp only [hr, if_false] at hn
        exact h c n hn ⟨active ▸ hna, idle ▸ hni, hr⟩

/-- **Partition.**  As long as every connection that is released has its own LRU id, every
connection that exists is in exactly one of the active sets, the idle LRU and the reap list, once,
and `release` moves only the connection it is given. -/
theorem pool_partition (cls : NconnClass ρ) (maxActiveSize maxIdleSize : ℕ) (p : NconnPool ρ)
    (h : ((machine cls maxActiveSize maxIdleSize).guarded OwnId).Reachable p) :
    (∀ c, (p.nconns c).isSome → p.InOnePlace c) ∧
      ∀ c q, p.OwnId (.release c) → p.run cls (.release c) = some q →
        q.place c = (0, 0, 1) ∧ ∀ d ≠ c, q.place d = p.place d := by
  have hs := sound_of_reachable h.of_guarded
  have hstep : ∀ {p q : NconnPool ρ} {op : Op}, p.Sound → p.Apart → p.OwnId op →
      p.run cls op = some q → q.Apart := by
    intro p q op hs hap ho he
    refine hap.moves hs (hs.run he).2 ?_
    rintro c rfl
    exact ⟨ho.found, hap.notMem c (run_held he).1⟩
  obtain ⟨hc, hap⟩ : p.Covered ∧ p.Apart := by
    clear hs
    induction h with
    | start hp =>
        obtain rfl := hp
        exact ⟨covered_new _ _, apart_new _ _⟩
    | step hr hst ih =>
        have hs := sound_of_reachable hr.of_guarded
        exact ⟨ih.1.run hst.1 (hs.run hst.2).2, hstep hs ih.2 hst.1 hst.2⟩
  refine ⟨?_, ?_⟩
  · intro c hex
    obtain ⟨n, hn⟩ := Option.isSome_iff_exists.mp hex
    exact hap.inOnePlace hs (hc c n hn)
  · intro c q ho he
    obtain ⟨hq, hm⟩ := hs.run he
    have hqap := hstep hs hap ho he
    obtain ⟨-, hr⟩ := run_held he
    obtain ⟨-, hact, hreap, -, n, hn, hidle⟩ := hs.release hr
    refine ⟨?_, ?_⟩
    · rw [hqap.place_eq hq, hact, hreap]
      simp [ho.found.notMem_idle hn hidle]
    · intro d hd
      rw [hqap.place_eq hq, hap.place_eq hs, hact, hreap]
      simp [ho.mem_idle_of_released hm d hd, hd]

/-- Connections that are nothing but a name. -/
def plainClass : NconnClass Unit where
  create
    | .tcp | .tls => some ()
    | .none => none
  ncCleanup r := r

/-- Two connections, of which the second has been idle itself, are released one after the other. -/
theorem pool_partition_two : ∃ p : NconnPool Unit, p.reapList = [1, 0] ∧
    (∀ c, (p.nconns c).isSome → p.InOnePlace c) := by
  let ops : List Op := [.getNewActive "a" .tcp, .getNewActive "a" .tls, .addIdle 0, .addIdle 1,
    .getIdle "a", .release 1, .release 0]
  have hrun : (ops.foldlM
      (fun (p : NconnPool Unit) op => if p.OwnId op then p.run plainClass op else none)
      (new 8 8)).map NconnPool.reapList = some [1, 0] := by
    decide +kernel
  obtain ⟨p, hp, hr⟩ := Option.map_eq_some_iff.mp hrun
  have h : ((machine plainClass 8 8).guarded OwnId).Reachable p :=
    Machine.Reachable.guarded_foldlM (fun _ _ _ he => he) rfl hp
  exact ⟨p, hr, (pool_partition plainClass 8 8 p h).1⟩

/-- A connection that was never idle has the LRU id of the first one that was: its release takes
that one out of the LRU, and it is nowhere. -/
theorem pool_partition_fails : ∃ p q : NconnPool Unit,
    (machine plainClass 8 8).Reachable p ∧ p.run plainClass (.release 1) = some q ∧
      (q.nconns 0).isSome ∧ ¬ q.InOnePlace 0 ∧ p.place 0 = (0, 1, 0) ∧ q.place 0 = (0, 0, 0) := by
  let ops : List Op := [.getNewActive "a" .tcp, .addIdle 0, .getNewActive "a" .tcp]
  have hrun : (ops.foldlM (fun (p : NconnPool Unit) op => p.run plainClass op) (new 8 8)).bind
      (fun p =>
      (p.run plainClass (.release 1)).map fun q =>
        ((q.nconns 0).isSome, decide (q.InOnePlace 0), p.place 0, q.place 0)) =
      some (true, false, (0, 1, 0), (0, 0, 0)) := by
    decide +kernel
  obtain ⟨p, hp, hq⟩ := Option.bind_eq_some_iff.mp hrun
  obtain ⟨q, hq, hobs⟩ := Option.map_eq_some_iff.mp hq
  obtain ⟨hex, hobs⟩ := Prod.mk.inj hobs
  obtain ⟨hone, hobs⟩ := Prod.mk.inj hobs
  obtain ⟨hbefore, hafter⟩ := Prod.mk.inj hobs
  refine ⟨p, q, ?_, hq, hex, of_decide_eq_false hone, hbefore, hafter⟩
  exact Machine.Reachable.foldlM (fun _ _ _ he => he) (.start rfl) hp

/-! ## Capacity -/

/-- The two maxima are those of the other pool. -/
def SameMaxima (p q : NconnPool ρ) : Prop :=
  q.activeConnMapMaxSize = p.activeConnMapMaxSize ∧
    q.idleConnLru.maxEntries = p.idleConnLru.maxEntries

lemma SameMaxima.trans {r : NconnPool ρ} (h : p.SameMaxima q) (h' : q.SameMaxima r) :
    p.SameMaxima r :=
  ⟨h'.1.trans h.1, h'.2.trans h.2⟩

lemma sameMaxima_addActive (he : p.addActive c = some q) : p.SameMaxima q := by
  obtain ⟨n, -, he⟩ := Option.bind_eq_some_iff.mp he
  obtain rfl := Option.some.inj he
  exact ⟨rfl, rfl⟩

lemma sameMaxima_removeActive {ok : Bool} (he : p.removeActive c = some (q, ok)) :
    p.SameMaxima q := by
  obtain ⟨n, -, he⟩ := Option.bind_eq_some_iff.mp he
  split_ifs at he
  · obtain ⟨rfl, -⟩ := Prod.mk.inj (Option.some.inj he)
    exact ⟨rfl, rfl⟩
  · obtain ⟨rfl, -⟩ := Prod.mk.inj (Option.some.inj he)
    exact ⟨rfl, rfl⟩

lemma sameMaxima_cleanup (he : p.cleanup cls c = some q) : p.SameMaxima q := by
  obtain ⟨n, -, he⟩ := Option.bind_eq_some_iff.mp he
  obtain rfl := Option.some.inj he
  exact ⟨rfl, rfl⟩

lemma sameMaxima_deleteCb {o : Option ℕ} (he : p.deleteCb cls o = some q) : p.SameMaxima q := by
  cases o with
  | none =>
      obtain rfl := Option.some.inj he
      exact ⟨rfl, rfl⟩
  | some d => exact sameMaxima_cleanup he

lemma sameMaxima_evictLoop : ∀ {n : ℕ} {p : NconnPool ρ}, evictLoop cls n p = some q →
    p.SameMaxima q := by
  intro n
  induction n with
  | zero =>
      intro p he
      unfold evictLoop at he
      split_ifs at he
      obtain rfl := Option.some.inj he
      exact ⟨rfl, rfl⟩
  | succ n ih =>
      intro p he
      unfold evictLoop at he
      split_ifs at he
      · simp only at he
        obtain ⟨p', hd, he⟩ := Option.bind_eq_some_iff.mp he
        have hev : p.SameMaxima { p with idleConnLru := p.idleConnLru.evict.1 } :=
          ⟨rfl, Nlru.evict_maxEntries _⟩
        exact (hev.trans (sameMaxima_deleteCb hd)).trans (ih he)
      · obtain rfl := Option.some.inj he
        exact ⟨rfl, rfl⟩

/-- No call changes the maxima. -/
lemma sameMaxima_run {op : Op} (he : p.run cls op = some q) : p.SameMaxima q := by
  cases op with
  | getNewActive label scheme =>
      obtain ⟨⟨q', o⟩, hr, rfl⟩ := Option.map_eq_some_iff.mp he
      unfold getNewActive at hr
      split_ifs at hr
      · obtain ⟨rfl, -⟩ := Prod.mk.inj (Option.some.inj hr)
        exact ⟨rfl, rfl⟩
      · obtain ⟨r, -, hr⟩ := Option.bind_eq_some_iff.mp hr
        obtain ⟨q'', hadd, hr⟩ := Option.bind_eq_some_iff.mp hr
        obtain ⟨rfl, -⟩ := Prod.mk.inj (Option.some.inj hr)
        obtain ⟨hmax, hent⟩ := sameMaxima_addActive hadd
        exact ⟨hmax, hent⟩
  | getIdle label =>
      obtain ⟨⟨q', o⟩, hr, rfl⟩ := Option.map_eq_some_iff.mp he
      unfold getIdle at hr
      split at hr
      case h_1 =>
        obtain ⟨rfl, -⟩ := Prod.mk.inj (Option.some.inj hr)
        exact ⟨rfl, rfl⟩
      case h_2 d lru hget =>
        obtain ⟨q'', hadd, hr⟩ := Option.bind_eq_some_iff.mp hr
        obtain ⟨rfl, -⟩ := Prod.mk.inj (Option.some.inj hr)
        have hlru : p.SameMaxima { p with idleConnLru := lru } := ⟨rfl, Nlru.get_maxEntries hget⟩
        exact hlru.trans (sameMaxima_addActive hadd)
  | addIdle c =>
      obtain ⟨-, hm⟩ := run_held he
      obtain ⟨⟨q', ok⟩, hr, rfl⟩ := Option.map_eq_some_iff.mp hm
      obtain ⟨⟨p₁, ok₁⟩, h₁, hr⟩ := Option.bind_eq_some_iff.mp hr
      simp only at hr
      split_ifs at hr
      · obtain ⟨n, -, hr⟩ := Option.bind_eq_some_iff.mp hr
        obtain ⟨p₂, h₂, hr⟩ := Option.bind_eq_some_iff.mp hr
        obtain ⟨rfl, -⟩ := Prod.mk.inj (Option.some.inj hr)
        have hins : p₁.SameMaxima { p₁ with idleConnLru := (p₁.idleConnLru.insert n.label c).1 } :=
          ⟨rfl, Nlru.insert_maxEntries _ _ _⟩
        obtain ⟨hmax, hent⟩ := sameMaxima_deleteCb h₂
        exact ((sameMaxima_removeActive h₁).trans hins).trans ⟨hmax, hent⟩
      · obtain ⟨rfl, -⟩ := Prod.mk.inj (Option.some.inj hr)
        exact sameMaxima_removeActive h₁
  | release c =>
      obtain ⟨-, hr⟩ := run_held he
      obtain ⟨⟨p₁, ok₁⟩, h₁, hr⟩ := Option.bind_eq_some_iff.mp hr
      obtain ⟨p₂, h₂, hr⟩ := Option.bind_eq_some_iff.mp hr
      have h₁₂ : p₁.SameMaxima p₂ := by
        obtain ⟨n, -, h₂⟩ := Option.bind_eq_some_iff.mp h₂
        split_ifs at h₂
        · obtain rfl := Option.some.inj h₂
          exact ⟨rfl, Nlru.remove_maxEntries _ _⟩
        · obtain rfl := Option.some.inj h₂
          exact ⟨rfl, rfl⟩
      exact ((sameMaxima_removeActive h₁).trans h₁₂).trans (sameMaxima_cleanup hr)
  | evictAllIdle => exact sameMaxima_evictLoop he
  | reap =>
      obtain ⟨nconns, -, rfl⟩ := Option.map_eq_some_iff.mp he
      exact ⟨rfl, rfl⟩

/-- `get_idle` finds a connection only while there is room for one more. -/
def HasRoom (p : NconnPool ρ) : Op → Prop
  | .getIdle label =>
      (p.idleConnLru.get label).isSome → p.activeConnMapSize < p.activeConnMapMaxSize
  | _ => True

instance (p : NconnPool ρ) : (op : Op) → Decidable (p.HasRoom op)
  | .getIdle label => inferInstanceAs (Decidable ((p.idleConnLru.get label).isSome → _))
  | .getNewActive _ _ | .addIdle _ | .release _ | .evictAllIdle | .reap => isTrue trivial

/-- Neither maximum is exceeded. -/
structure Within (p : NconnPool ρ) : Prop where
  active : p.active.card ≤ p.activeConnMapMaxSize
  idle : p.idle.length ≤ p.idleConnLru.maxEntries

/-- A call that has room keeps the pool within its maxima. -/
lemma Within.run {op : Op} (h : p.Within) (hs : p.Sound) (hroom : p.HasRoom op)
    (he : p.run cls op = some q) : q.Within := by
  obtain ⟨hq, hm⟩ := hs.run he
  obtain ⟨hmax, hent⟩ := sameMaxima_run he
  have hcard := hs.active_card
  constructor
  · rw [hmax]
    have herase : ∀ c, (p.active.erase c).card ≤ p.activeConnMapMaxSize := fun c =>
      (Finset.card_le_card (Finset.erase_subset c _)).trans h.active
    have hinsert : ∀ c, p.activeConnMapSize < p.activeConnMapMaxSize →
        (insert c p.active).card ≤ p.activeConnMapMaxSize := fun c hlt =>
      (Finset.card_insert_le c _).trans (by omega)
    cases hm with
    | unchanged same => rw [same]; exact h.active
    | opened name room active => rw [active]; exact hinsert _ room
    | revived found mem active => rw [active]; exact hinsert _ (hroom found)
    | parked mem active => rw [active]; exact herase _
    | displaced mem active => rw [active]; exact herase _
    | released name active => rw [active]; exact herase _
    | emptied active => rw [active]; exact h.active
    | reaped active => rw [active]; exact h.active
  · rw [hent]
    cases hm with
    | unchanged same => rw [same]; exact h.idle
    | opened name room active idle => rw [idle]; exact h.idle
    | revived found mem active idle => rw [idle]; exact (List.length_filter_le _ _).trans h.idle
    | parked mem active idle reapList room => rw [idle]; exact room
    | displaced mem active split idle =>
        have hlen := congrArg List.length split
        rw [List.length_cons, List.length_append, List.length_singleton] at hlen
        rw [idle, ← Nat.add_right_cancel hlen]
        exact h.idle
    | released name active reapList kept idle =>
        have hsub : q.idle ⊆ p.idle := by
          intro d hd
          obtain ⟨id, hmem, -⟩ := (idle d).mp hd
          exact mem_idle.mpr ⟨id, hmem⟩
        exact (List.subperm_of_subset hq.idleNodup hsub).length_le.trans h.idle
    | emptied active idle => rw [idle]; exact Nat.zero_le _
    | reaped active idle => rw [idle]; exact h.idle

/-- **Capacity.**  As long as `get_idle` finds a connection only while there is room, neither
maximum is exceeded, and what `get_active_available` returns is what is left. -/
theorem pool_capacity (cls : NconnClass ρ) (maxActiveSize maxIdleSize : ℕ) (p : NconnPool ρ)
    (h : ((machine cls maxActiveSize maxIdleSize).guarded HasRoom).Reachable p) :
    p.active.card ≤ maxActiveSize ∧ p.getActiveAvailable = maxActiveSize - p.active.card ∧
      p.idle.length ≤ maxIdleSize := by
  have hs := sound_of_reachable h.of_guarded
  obtain ⟨hw, hmax, hent⟩ : p.Within ∧ (new maxActiveSize maxIdleSize).SameMaxima p := by
    clear hs
    induction h with
    | start hp =>
        obtain rfl := hp
        exact ⟨⟨Nat.zero_le _, Nat.zero_le _⟩, rfl, rfl⟩
    | step hr hst ih =>
        exact ⟨ih.1.run (sound_of_reachable hr.of_guarded) hst.1 hst.2,
          ih.2.trans (sameMaxima_run hst.2)⟩
  have hmax : p.activeConnMapMaxSize = maxActiveSize := hmax
  have hent : p.idleConnLru.maxEntries = maxIdleSize % 2 ^ 32 := hent
  have hact := hw.active
  rw [hmax] at hact
  refine ⟨hact, ?_, ?_⟩
  · rw [hs.active_card] at hact ⊢
    rw [getActiveAvailable, hmax, sub64_of_le hact]
  · exact (hent ▸ hw.idle).trans (Nat.mod_le _ _)

/-- With one connection active at a time, the same connection is idle and active in turn. -/
theorem pool_capacity_one : ∃ p : NconnPool Unit, p.active = {0} ∧
    p.active.card ≤ 1 ∧ p.getActiveAvailable = 1 - p.active.card ∧ p.idle.length ≤ 1 := by
  let ops : List Op := [.getNewActive "a" .tcp, .addIdle 0, .getIdle "a", .getNewActive "a" .tcp]
  have hrun : (ops.foldlM (fun (p : NconnPool Unit) op =>
      if p.HasRoom op then p.run plainClass op else none) (new 1 1)).map active = some {0} := by
    decide +kernel
  obtain ⟨p, hp, hr⟩ := Option.map_eq_some_iff.mp hrun
  have h : ((machine plainClass 1 1).guarded HasRoom).Reachable p :=
    Machine.Reachable.guarded_foldlM (fun _ _ _ he => he) rfl hp
  exact ⟨p, hr, pool_capacity plainClass 1 1 p h⟩

/-- A second connection is opened while the first one is idle, and the first one is revived: two are
active where one is allowed, and the number of those still available has wrapped around. -/
theorem pool_capacity_fails : ∃ p : NconnPool Unit, (machine plainClass 1 1).Reachable p ∧
    p.active.card = 2 ∧ p.getActiveAvailable = 2 ^ 64 - 1 := by
  let ops : List Op := [.getNewActive "a" .tcp, .addIdle 0, .getNewActive "a" .tcp, .getIdle "a"]
  have hrun : (ops.foldlM (fun (p : NconnPool Unit) op => p.run plainClass op) (new 1 1)).map
      (fun p => (p.active.card, p.getActiveAvailable)) = some (2, 2 ^ 64 - 1) := by
    decide +kernel
  obtain ⟨p, hp, hr⟩ := Option.map_eq_some_iff.mp hrun
  obtain ⟨hcard, havail⟩ := Prod.mk.inj hr
  exact ⟨p, Machine.Reachable.foldlM (fun _ _ _ he => he) (.start rfl) hp, hcard, havail⟩

end NconnPool

end Is2
