import Is2.Srvr.UpsConns
import Is2.Srvr.UpsCustody

/-!
# The callbacks of a subrequest

`NewCall` says which callback a step calls, and of whom: of a subrequest that is in a place, so that
none was called before, or of one that waits for the resolver and is cancelled.  From it follow

* `answered_once`: no subrequest is answered twice, unless one is cancelled whose lookup has failed;
* `completed_when_done`: a response is only reported as complete when it is, unless the upstream
  closes the connection before that.
-/

namespace Is2

/-- A response is over: its end was parsed, or its body is what comes until the connection is
closed. -/
def RespParser.Done {σ : Type} (P : RespParser σ) (p : σ) : Prop :=
  P.complete p = true ∨ P.headersComplete p = true ∧ P.messageNeedsEof p = true

instance {σ : Type} (P : RespParser σ) (p : σ) : Decidable (P.Done p) :=
  inferInstanceAs (Decidable (_ ∨ _))

namespace TSrvr

variable {σ : Type} {P : RespParser σ} {cf : TConf} {t t' : TSrvr σ} {l : Label} {u s c : ℕ}
  {π : ℕ → Option (Place ℕ)}

/-! ## What a step calls -/

/-- Who is called, before the step: it is in a place, or it waits for the resolver and is
cancelled. -/
inductive Callee (t : TSrvr σ) (l : Label) (π : ℕ → Option (Place ℕ)) (s : ℕ) : Prop where
  | placed (place : π s ≠ none)
  | lookup {S : Subr} (label : l = .cancel s ∨ l = .sessionTeardown s) (mem : t.subrs s = some S)
      (state : S.state = .dnsLookup) (isSet : S.conf.errorCb = true)

/-- The callback that a step calls, if it calls one. -/
inductive NewCall (t : TSrvr σ) (l : Label) (π : ℕ → Option (Place ℕ)) (t' : TSrvr σ) : Prop where
  | none (calls : t'.calls = t.calls)
  | one {s : ℕ} {k : Call σ} (calls : t'.calls = t.calls ++ [(s, k)]) (callee : Callee t l π s)
      (after : ∀ S', t'.subrs s = some S' → S'.state = .dnsLookup → S'.conf.host ≠ "")

section

variable {S S' : Subr} {b : Bool} {k : Call σ}

lemma newCall_of_called (h : t'.calls = t.calls ++ called s b k) (hs : b = true → Callee t l π s)
    (hsubrs : t'.subrs = Function.update t.subrs s (some S'))
    (hafter : S'.state = .dnsLookup → S'.conf.host ≠ "") : NewCall t l π t' := by
  cases b with
  | false => exact .none (h.trans (List.append_nil _))
  | true =>
      refine .one h (hs rfl) fun R hR => ?_
      rw [hsubrs, Function.update_self] at hR
      obtain rfl := Option.some.inj hR
      exact hafter

lemma newCall_of_idle (h : t'.calls = t.calls ++ called s b k) (hs : b = true → Callee t l π s)
    (hsubrs : t'.subrs = Function.update t.subrs s (some S')) (hidle : Idle S S') :
    NewCall t l π t' :=
  newCall_of_called h hs hsubrs fun hst => absurd (hidle.state.symm.trans hst) (by simp)

end

lemma Does.newCall (hd : Does P cf t l t') (h : t.Owned π) (hl : t.Linked) :
    NewCall t l π t' := by
  cases hd with
  | @unstarted m r k rest S state job js ks _ hfront _ hwhy =>
      have hplace : π r ≠ none := by
        rw [(h.custody.slot_iff r m).mp (hfront ▸ List.mem_cons_self)]
        simp
      cases hwhy with
      | syncFailed =>
          exact newCall_of_called rfl (fun _ => .placed hplace) rfl fun hst => absurd hst (by simp)
      | failed hh => exact newCall_of_called rfl (fun _ => .placed hplace) rfl fun _ => hh
      | _ => exact .none (List.append_nil _)
  | @tore f u U U' S S' p ks es hf hu hU hS _ hb hidle hwhy =>
      have hplace : Callee t l π U.subr := .placed (h.placed_of_frame hl hf hu hU)
      cases hwhy with
      | failed _ => exact newCall_of_idle rfl (fun _ => hplace) rfl hidle
      | eof _ _ => exact newCall_of_idle rfl (fun _ => hplace) rfl hidle
      | complete _ => exact newCall_of_idle rfl (fun _ => hplace) rfl hidle
      | eofLate _ _ => exact .none (List.append_nil _)
      | writeFailed _ _ _ _ => exact .none (List.append_nil _)
  | @idled f n u U U' S S' p hf _ _ _ hu hU _ _ hidle _ =>
      exact newCall_of_idle rfl (fun _ => .placed (h.placed_of_frame hl hf hu hU)) rfl hidle
  | @unresolved j r S _ hj hS =>
      have hplace := (h.custody.job_iff r j).mp hj
      refine newCall_of_called rfl (fun _ => .placed (by simp [hplace])) rfl fun _ => ?_
      have hset := h.settled r S hS
      rw [hplace] at hset
      cases hset with
      | job _ hh => exact hh
  | @cancelledQueued r S S' ctl _ hS hst how =>
      refine newCall_of_idle rfl (fun _ => .placed fun hout => ?_) rfl how.idle
      have hset := h.settled r S hS
      rw [hout] at hset
      cases hset with
      | out hno => exact absurd hst (by rcases hno with ha | ha <;> simp [ha])
  | cancelledLookup hlab _ hS hst how =>
      exact newCall_of_idle rfl (fun hset => .lookup hlab hS hst hset) rfl how.idle
  | cancelledLoose _ hS hst hups _ =>
      obtain ⟨u, hu, -⟩ := h.active hS hst
      exact absurd (hups.symm.trans hu) (by simp)
  | @cancelledActive r u c U U' S subrs ks p ctl _ hS hst hups hU hc _ _ _ _ how =>
      obtain ⟨v, hv, hheld⟩ := h.active hS hst
      obtain rfl := Option.some.inj (hups.symm.trans hv)
      obtain rfl := Option.some.inj ((holds_eq hU hc).symm.trans hheld)
      obtain ⟨S', hcan, rfl, rfl⟩ := how rfl
      refine newCall_of_idle rfl (fun _ => .placed ?_) rfl hcan.idle
      rw [(h.custody.held_iff _ _).mp hheld]
      simp
  | _ => exact .none rfl

/-- What was before a subrequest waits for the resolver: it waited already, or it was in the first
slot. -/
inductive Waited (t : TSrvr σ) (s : ℕ) (S' : Subr) : Prop where
  | before {S : Subr} (mem : t.subrs s = some S) (state : S.state = .dnsLookup)
      (conf : S'.conf = S.conf)
  | taken {m : ℕ} {rest : List (ℕ × Option ℕ)} (front : t.subrList = (m, some s) :: rest)

lemma Does.waited {S' : Subr} (hd : Does P cf t l t') (hb : t.Books) (hS' : t'.subrs s = some S')
    (hst : S'.state = .dnsLookup) : Waited t s S' := by
  -- the step changes the subrequest `r`
  have hone : ∀ {r : ℕ} {R' : Subr}, t'.subrs = Function.update t.subrs r (some R') →
      (r = s → R' = S' → Waited t s S') → Waited t s S' := by
    intro r R' hsubrs hself
    by_cases hr : s = r
    · subst hr
      rw [hsubrs, Function.update_self] at hS'
      exact hself rfl (Option.some.inj hS')
    · rw [hsubrs, Function.update_of_ne hr] at hS'
      exact .before hS' hst rfl
  have hnot : ∀ {r : ℕ} {R' : Subr}, t'.subrs = Function.update t.subrs r (some R') →
      R'.state ≠ .dnsLookup → Waited t s S' := by
    intro r R' hsubrs hne
    refine hone hsubrs fun _ he => ?_
    rw [he] at hne
    exact absurd hst hne
  have hidle : ∀ {r : ℕ} {R R' : Subr}, t'.subrs = Function.update t.subrs r (some R') →
      Idle R R' → Waited t s S' :=
    fun hsubrs hi => hnot hsubrs (by simp [hi.state])
  have hgone : ∀ {r : ℕ}, t'.subrs = Function.update t.subrs r none → Waited t s S' := by
    intro r hsubrs
    rw [hsubrs] at hS'
    obtain ⟨-, hS'⟩ := of_update_none hS'
    exact .before hS' hst rfl
  have hact : ∀ {f : Frame}, f.activate t.subrs s = some S' → Waited t s S' := by
    intro f hS'
    rcases of_activate hS' with hS' | hact
    · exact .before hS' hst rfl
    · exact absurd (hact.symm.trans hst) (by simp)
  cases hd with
  | enqueued _ _ => exact hnot rfl (by simp)
  | requeued _ _ _ => exact hnot rfl (by simp)
  | unstarted _ hfront _ _ =>
      refine hone rfl fun hr _ => ?_
      subst hr
      exact .taken hfront
  | started _ _ _ _ _ _ _ => exact hnot rfl (by simp)
  | @ran f n n' ups more ok _ _ _ _ _ =>
      have hS' : (if more || !ok then t.subrs else f.activate t.subrs) s = some S' := hS'
      split_ifs at hS'
      · exact .before hS' hst rfl
      · exact hact hS'
  | tore _ _ _ _ _ _ hi _ => exact hidle rfl hi
  | idled _ _ _ _ _ _ _ _ hi _ => exact hidle rfl hi
  | @parked f n n' p ok _ _ _ _ _ =>
      have hS' : (if ok then f.activate t.subrs else t.subrs) s = some S' := hS'
      split_ifs at hS'
      · exact hact hS'
      · exact .before hS' hst rfl
  | rearmed _ _ _ => exact hact hS'
  | resolved _ _ _ => exact hnot rfl (by simp)
  | unresolved _ _ hS =>
      refine hone rfl fun hr he => ?_
      subst hr he
      exact .before hS hst rfl
  | cancelledNone _ _ _ how _ => exact hidle rfl how.idle
  | cancelledQueued _ _ _ how => exact hidle rfl how.idle
  | cancelledLookup _ _ _ _ how => exact hidle rfl how.idle
  | cancelledLoose _ _ _ _ how => exact hidle rfl how.idle
  | cancelledActive _ hS _ hups hU _ _ _ _ _ how =>
      obtain ⟨R', hcan, hsubrs, -⟩ := how ((hb.upsSession _ _ _ hS hups).2 _ hU)
      exact hidle hsubrs hcan.idle
  | deleted _ _ _ => exact hgone rfl
  | deletedUps _ _ _ _ _ => exact hgone rfl
  | _ => exact .before hS' hst rfl

/-! ## At most one answer -/

/-- A subrequest that waits for the resolver still has its job, or has an empty host, for which no
job is made. -/
def LookupOpen (t : TSrvr σ) (s : ℕ) : Prop :=
  ∀ S ∈ t.subrs s, S.state = .dnsLookup → S.conf.errorCb = true →
    S.conf.host = "" ∨ ∃ j ∈ S.lookupJob, (j, s) ∈ t.jobs

instance (t : TSrvr σ) (s : ℕ) : Decidable (t.LookupOpen s) :=
  inferInstanceAs (Decidable (∀ S ∈ t.subrs s, _))

/-- The subrequest that a client cancels, by itself or with its session. -/
def Label.cancels : Label → Option ℕ
  | .cancel s => some s
  | .sessionTeardown s => some s
  | _ => none

/-- No subrequest is cancelled whose job is gone. -/
def CancelsOpen (t : TSrvr σ) (l : Label) : Prop := ∀ s ∈ l.cancels, t.LookupOpen s

instance (t : TSrvr σ) (l : Label) : Decidable (t.CancelsOpen l) :=
  inferInstanceAs (Decidable (∀ s ∈ l.cancels, _))

/-- Nobody was answered twice, and nobody was answered who waits without a job. -/
structure Once (t : TSrvr σ) : Prop where
  nodup : (t.calls.map Prod.fst).Nodup
  noHost : ∀ s S, t.subrs s = some S → S.state = .dnsLookup → S.conf.host = "" →
    ∀ p ∈ t.calls, p.1 ≠ s

lemma Callee.unanswered (hs : Callee t l π s) (h : t.Once) (hπ : t.Owned π)
    (hok : t.CancelsOpen l) : ∀ p ∈ t.calls, p.1 ≠ s := by
  cases hs with
  | placed hplace => exact hπ.unanswered hplace
  | @lookup S hlab hS hst hset =>
      have hcancels : l.cancels = some s := by
        rcases hlab with rfl | rfl <;> rfl
      rcases hok s hcancels S hS hst hset with hh | ⟨j, -, hj⟩
      · exact h.noHost s S hS hst hh
      · exact hπ.unanswered (by simp [(hπ.custody.job_iff s j).mp hj])

lemma Once.step (h : t.Once) (hπ : t.Owned π) (hl : t.Linked) (hb : t.Books)
    (hd : Does P cf t l t') (hok : t.CancelsOpen l) : t'.Once := by
  -- nobody who now waits without a job was answered before the step
  have hold : ∀ s S', t'.subrs s = some S' → S'.state = .dnsLookup → S'.conf.host = "" →
      ∀ p ∈ t.calls, p.1 ≠ s := by
    intro s S' hS' hst hh
    cases hd.waited hb hS' hst with
    | @before S hS hst hconf => exact h.noHost s S hS hst (hconf ▸ hh)
    | @taken m rest hfront =>
        refine hπ.unanswered ?_
        rw [(hπ.custody.slot_iff s m).mp (hfront ▸ List.mem_cons_self)]
        simp
  cases hd.newCall hπ hl with
  | none hcalls => exact ⟨hcalls ▸ h.nodup, fun s S' hS' hst hh => hcalls ▸ hold s S' hS' hst hh⟩
  | @one r k hcalls hr hafter =>
      have hun := hr.unanswered h hπ hok
      refine ⟨?_, fun s S' hS' hst hh p hp => ?_⟩
      · rw [hcalls, List.map_append, List.map_singleton, List.nodup_append]
        refine ⟨h.nodup, List.nodup_singleton _, fun a ha b hb => ?_⟩
        obtain ⟨p, hp, rfl⟩ := List.mem_map.mp ha
        obtain rfl := List.mem_singleton.mp hb
        exact hun p hp
      · rw [hcalls] at hp
        rcases List.mem_append.mp hp with hp | hp
        · exact hold s S' hS' hst hh p hp
        · rw [List.mem_singleton.mp hp]
          rintro rfl
          exact hafter S' hS' hst hh

/-- **A subrequest is answered at most once**, if none is cancelled whose lookup has failed: of its
two callbacks at most one is called, and only once. -/
theorem answered_once (h : ((machine P cf).guarded CancelsOpen).Reachable t) (s : ℕ) :
    (t.calls.map Prod.fst).count s ≤ 1 := by
  suffices hinv : t.Once from List.nodup_iff_count_le_one.mp hinv.nodup s
  induction h with
  | start hs =>
      obtain rfl := hs
      exact ⟨List.nodup_nil, fun s S hS => absurd hS (by simp [new])⟩
  | step hr hst ih =>
      have hr := hr.of_guarded
      obtain ⟨π, hπ⟩ := owned_of_reachable hr
      exact ih.step hπ (linked_of_reachable hr) (books_of_reachable hr) (does_of_step hst.2) hst.1

/-- A subrequest waits for the resolver. -/
def lookupRun : List Label :=
  [.enqueue okSubr, .dequeue, .turn ⟨false, .asyncQueued, none⟩, .turn ⟨true, .fast, none⟩]

theorem answered_once_teardown :
    ∃ t : TSrvr (List UInt8), ((machine okParser okConf).guarded CancelsOpen).Reachable t ∧
      t.calls = [(0, .error .gatewayTimeout)] ∧ (t.calls.map Prod.fst).count 0 ≤ 1 := by
  have hrun : ((lookupRun ++ [Label.sessionTeardown 0]).foldlM (fun (t : TSrvr (List UInt8)) l =>
      if t.CancelsOpen l then t.step okParser okConf l else none) (new okConf)).map TSrvr.calls =
      some [(0, .error .gatewayTimeout)] := by
    decide +kernel
  obtain ⟨t, ht, he⟩ := Option.map_eq_some_iff.mp hrun
  have hr : ((machine okParser okConf).guarded CancelsOpen).Reachable t :=
    Machine.Reachable.guarded_foldlM (fun _ _ _ he => he) rfl ht
  exact ⟨t, hr, he, answered_once hr 0⟩

/-- A lookup fails and the client goes away: the error callback is called both times. -/
theorem answered_twice :
    ¬ ∀ (t : TSrvr (List UInt8)) s, (machine okParser okConf).Reachable t →
      (t.calls.map Prod.fst).count s ≤ 1 := by
  have hrun : ((lookupRun ++ [Label.resolved 2 false, .sessionTeardown 0]).foldlM
      (fun (t : TSrvr (List UInt8)) l => t.step okParser okConf l) (new okConf)).map TSrvr.calls =
      some [(0, .error .badGateway), (0, .error .gatewayTimeout)] := by
    decide +kernel
  intro hall
  obtain ⟨t, ht, he⟩ := Option.map_eq_some_iff.mp hrun
  have hcount := hall t 0 (Machine.Reachable.foldlM (fun _ _ _ he => he) (.start rfl) ht)
  rw [he] at hcount
  exact absurd hcount (by decide)

/-! ## Completion means complete -/

/-- The response that is being read. -/
def reading (t : TSrvr σ) : Option σ :=
  match t.ctl with
  | .running f => f.ups.bind fun u => (t.upsSessions u).bind UpsSession.resp
  | _ => none

lemma reading_eq {f : Frame} {U : UpsSession σ} (hf : t.ctl = .running f) (hu : f.ups = some u)
    (hU : t.upsSessions u = some U) : t.reading = U.resp := by
  unfold reading
  rw [hf]
  simp only [hu, hU, Option.bind_some]

/-- The upstream closes the connection, and `p` is the response that was being read. -/
def Closes (t : TSrvr σ) (l : Label) (p : σ) : Prop := l = .pass (.read .eof) ∧ t.reading = some p

lemma mem_of_mem_error {calls : List (ℕ × Call σ)} {r : ℕ} {b : Bool} {status : HttpStatus} {p : σ}
    (h : (s, .completion p) ∈ calls ++ called r b (.error status)) :
    (s, .completion p) ∈ calls := by
  rcases List.mem_append.mp h with h | h
  · exact h
  · unfold called at h
    split_ifs at h <;> simp at h

lemma of_mem_completion {calls : List (ℕ × Call σ)} {r : ℕ} {b : Bool} {p q : σ}
    (h : (s, .completion p) ∈ calls ++ called r b (.completion q)) :
    (s, .completion p) ∈ calls ∨ p = q := by
  rcases List.mem_append.mp h with h | h
  · exact .inl h
  · unfold called at h
    split_ifs at h
    · right
      simpa using (Prod.mk.inj (List.mem_singleton.mp h)).2
    · exact absurd h (by simp)

/-- A step reports a response as complete when it is, or when the connection is closed. -/
lemma Does.completion {p : σ} (hd : Does P cf t l t') (hb : t.Books)
    (hp : (s, .completion p) ∈ t'.calls) :
    (s, .completion p) ∈ t.calls ∨ P.complete p = true ∨ Closes t l p := by
  cases hd with
  | @unstarted m r k rest S state job js ks _ _ _ hwhy =>
      cases hwhy with
      | syncFailed => exact .inl (mem_of_mem_error hp)
      | failed _ => exact .inl (mem_of_mem_error hp)
      | _ => exact .inl (List.append_nil t.calls ▸ hp)
  | @tore f u U U' S S' q ks es hf hu hU _ _ _ _ hwhy =>
      cases hwhy with
      | failed _ => exact .inl (mem_of_mem_error hp)
      | eof hlab hresp =>
          rcases of_mem_completion hp with hp | rfl
          · exact .inl hp
          · exact .inr (.inr ⟨hlab, (reading_eq hf hu hU).trans hresp⟩)
      | complete hc =>
          rcases of_mem_completion hp with hp | rfl
          · exact .inl hp
          · exact .inr (.inl hc)
      | eofLate _ _ => exact .inl (List.append_nil t.calls ▸ hp)
      | writeFailed _ _ _ _ => exact .inl (List.append_nil t.calls ▸ hp)
  | idled _ _ _ _ _ _ _ _ _ hc =>
      rcases of_mem_completion hp with hp | rfl
      · exact .inl hp
      · exact .inr (.inl hc)
  | unresolved _ _ _ => exact .inl (mem_of_mem_error hp)
  | cancelledQueued _ _ _ _ => exact .inl (mem_of_mem_error hp)
  | cancelledLookup _ _ _ _ _ => exact .inl (mem_of_mem_error hp)
  | cancelledLoose _ _ _ _ _ => exact .inl (mem_of_mem_error hp)
  | cancelledActive _ hS _ hups hU _ _ _ _ _ how =>
      obtain ⟨S', -, -, rfl⟩ := how ((hb.upsSession _ _ _ hS hups).2 _ hU)
      exact .inl (mem_of_mem_error hp)
  | _ => exact .inl hp

/-- A response is cut off when the connection is closed. -/
lemma Does.eofs {p : σ} (hd : Does P cf t l t') (hp : (s, p) ∈ t'.eofs) :
    (s, p) ∈ t.eofs ∨ Closes t l p := by
  cases hd with
  | @tore f u U U' S S' q ks es hf hu hU _ _ _ _ hwhy =>
      rcases List.mem_append.mp hp with hold | hnew
      · exact .inl hold
      · cases hwhy with
        | eof hlab hresp =>
            obtain ⟨-, rfl⟩ := Prod.mk.inj (List.mem_singleton.mp hnew)
            exact .inr ⟨hlab, (reading_eq hf hu hU).trans hresp⟩
        | _ => exact absurd hnew (by simp)
  | idled _ _ _ _ _ _ _ _ _ _ => exact .inl (List.append_nil t.eofs ▸ hp)
  | cancelledActive _ _ _ _ _ _ _ _ _ _ _ => exact .inl (List.append_nil t.eofs ▸ hp)
  | _ => exact .inl hp

/-- What the callbacks say of the responses: only a response that is over is reported as complete,
and one that was cut off before is reported as an error. -/
structure Truthful (P : RespParser σ) (t : TSrvr σ) : Prop where
  completion : ∀ s p, (s, .completion p) ∈ t.calls → P.Done p
  cutOff : ∀ s p, (s, p) ∈ t.eofs → ¬ P.Done p → ∃ status, (s, .error status) ∈ t.calls

/-- When an upstream closes a connection, the response that is being read is over. -/
def ClosesWhenDone (P : RespParser σ) (t : TSrvr σ) (l : Label) : Prop :=
  l = .pass (.read .eof) → ∀ p ∈ t.reading, P.Done p

instance (P : RespParser σ) (t : TSrvr σ) (l : Label) : Decidable (ClosesWhenDone P t l) :=
  inferInstanceAs (Decidable (_ → ∀ p ∈ t.reading, _))

/-- **Completion means complete**, whatever the upstream sends and however it is cut into reads, if
the upstream closes no connection within a response. -/
theorem completed_when_done (h : ((machine P cf).guarded (ClosesWhenDone P)).Reachable t) :
    t.Truthful P := by
  suffices hinv : (∀ s p, (s, .completion p) ∈ t.calls → P.Done p) ∧
      ∀ s p, (s, p) ∈ t.eofs → P.Done p from
    ⟨hinv.1, fun s p hp hnot => absurd (hinv.2 s p hp) hnot⟩
  induction h with
  | start hs =>
      obtain rfl := hs
      exact ⟨fun s p hp => absurd hp (by simp [new]), fun s p hp => absurd hp (by simp [new])⟩
  | step hr hst ih =>
      have hd := does_of_step hst.2
      refine ⟨fun s p hp => ?_, fun s p hp => ?_⟩
      · rcases hd.completion (books_of_reachable hr.of_guarded) hp with hold | hc | ⟨hlab, hp⟩
        · exact ih.1 s p hold
        · exact .inl hc
        · exact hst.1 hlab p hp
      · rcases hd.eofs hp with hold | ⟨hlab, hp⟩
        · exact ih.2 s p hold
        · exact hst.1 hlab p hp

/-- A request is written, the upstream sends `bytes`, and closes the connection. -/
def closedRun (bytes : List UInt8) : List Label :=
  writtenRun [.sent 10] ++ [.turn ⟨true, .fast, none⟩, .fd 0 .read,
    .pass (.read (.data bytes true)), .pass (.read .eof)]

theorem completed_when_done_whole :
    ∃ t : TSrvr (List UInt8),
      ((machine okParser okConf).guarded (ClosesWhenDone okParser)).Reachable t ∧
        t.calls = [(0, .completion okResponse)] ∧ t.Truthful okParser := by
  have hrun : ((closedRun okResponse).foldlM (fun (t : TSrvr (List UInt8)) l =>
      if ClosesWhenDone okParser t l then t.step okParser okConf l else none) (new okConf)).map
        TSrvr.calls = some [(0, .completion okResponse)] := by
    decide +kernel
  obtain ⟨t, ht, he⟩ := Option.map_eq_some_iff.mp hrun
  have hr : ((machine okParser okConf).guarded (ClosesWhenDone okParser)).Reachable t :=
    Machine.Reachable.guarded_foldlM (fun _ _ _ he => he) rfl ht
  exact ⟨t, hr, he, completed_when_done hr⟩

/-- A connection is closed in the middle of the headers, and the response is reported as
complete. -/
theorem completed_when_cut_off :
    ¬ ∀ t : TSrvr (List UInt8), (machine okParser okConf).Reachable t → t.Truthful okParser := by
  have hrun : ((closedRun (okResponse.take 20)).foldlM
      (fun (t : TSrvr (List UInt8)) l => t.step okParser okConf l) (new okConf)).map TSrvr.calls =
      some [(0, .completion (okResponse.take 20))] := by
    decide +kernel
  intro hall
  obtain ⟨t, ht, he⟩ := Option.map_eq_some_iff.mp hrun
  have htrue := hall t (Machine.Reachable.foldlM (fun _ _ _ he => he) (.start rfl) ht)
  have hdone := htrue.completion 0 (okResponse.take 20) (by rw [he]; exact List.mem_cons_self)
  exact absurd hdone (by decide)

end TSrvr

end Is2
