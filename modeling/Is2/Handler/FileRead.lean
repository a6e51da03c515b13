import Is2.Core.Machine
import Is2.Support.Nbq.WriteFd

/-!
# `file_u::ups_read_ahead` and `file_h::get_file`

The body of a file is read into the output queue part by part, and the number of its bytes was
announced before.

**Model.**  `m_size`, `m_read` and the lengths are natural numbers, and the subtraction wraps as it
does on `size_t`.  What `::read` answers are the labels of the steps, and so is what the socket
takes from the queue in between; what was sent is kept in the state, and whether the end of the
file was reported.

**What goes wrong.**  An error of `::read` behind a part that was read leaves bytes in the queue
that are not counted, and `EAGAIN` is taken for the end.  In all other runs the bytes are counted,
and the file is done when it is read: `lawful_run_iff`.
-/

namespace Is2

/-! ## The code -/

/-- `base_u::state_t` -/
inductive BaseState where
  | idle
  | sending
  | done
deriving DecidableEq, Repr

/-- `file_u` -/
structure FileU where
  fd : ℤ
  size : ℕ
  read : ℕ
  state : BaseState
deriving DecidableEq, Repr

namespace FileU

/-- `file_u::fsinit`, where `open` gives a descriptor of a regular file. -/
def fsinit (fd : ℤ) (stSize : ℕ) : FileU := ⟨fd, stSize, 0, .sending⟩

/-- `l_len_read` -/
def lenRead (u : FileU) (len : ℕ) : ℕ :=
  if sub64 u.size u.read < len then sub64 u.size u.read else len

/-- What `ups_read_ahead` does with what `write_fd` returns, if it is no error. -/
def account (u : FileU) (len n : ℕ) : FileU :=
  let u := { u with read := u.read + n }
  if n < len ∨ u.size ≤ u.read then { u with fd := -1, state := .done } else u

/-- `file_u::ups_read_ahead`: the file, the output queue, what is returned, and the results of
`::read` that are left.  `queued` says whether `queue_output` succeeds. -/
def upsReadAhead (u : FileU) (outQ : Option Nbq) (len : ℕ) (queued : Bool) (rs : List ReadRes) :
    Option (FileU × Option Nbq × ℤ × List ReadRes) :=
  if u.fd < 0 then some (u, outQ, 0, rs)
  else
    let u := { u with state := .sending }
    match outQ with
    | none => some (u, none, -1, rs)
    | some q => do
        let (q, n, rs) ← q.writeFd (u.lenRead len) rs
        if n < 0 then some (u, some q, -1, rs)
        else if 0 < n ∧ !queued then some (u.account len n.toNat, some q, -1, rs)
        else some (u.account len n.toNat, some q, n, rs)

/-- `_FILE_MAX_READ_PER_BYTES` -/
def fileMaxReadPerBytes : ℕ := 64 * 1024

/-- The length that `get_file` asks for; `l_read` has 32 bits. -/
def firstLen (q : Nbq) (size : ℕ) : ℕ :=
  let room := sub64 fileMaxReadPerBytes q.readAvail
  let len := if 0 < room then room % 2 ^ 32 else fileMaxReadPerBytes
  if size < len then size else len

/-- The part of `get_file` behind the headers. -/
def getFile (u : FileU) (q : Nbq) (queued : Bool) (rs : List ReadRes) :
    Option (FileU × Option Nbq × ℤ × List ReadRes) :=
  if u.size = 0 then some ({ u with state := .done }, some q, 0, rs)
  else u.upsReadAhead (some q) (firstLen q u.size) queued rs

end FileU

/-! ## Runs -/

/-- A file on its way: the bytes in the queue when it was opened, the bytes that were sent, and
whether `::read` reported the end of the file. -/
structure Transfer where
  u : FileU
  q : Nbq
  head : ℕ
  sent : List UInt8
  eof : Bool

namespace Transfer

open ReadRes

/-- What happens to it. -/
inductive Act where
  | getFile (queued : Bool) (rs : List ReadRes)
  | readAhead (len : ℕ) (queued : Bool) (rs : List ReadRes)
  | send (sock : SockWrite)

/-- A call is done, and all results of `::read` are used. -/
def after (s : Transfer) (rs : List ReadRes) :
    Option (FileU × Option Nbq × ℤ × List ReadRes) → Option Transfer
  | some (u, some q, _, []) => some { s with u := u, q := q, eof := s.eof || rs.contains .eof }
  | _ => none

def Act.run (s : Transfer) : Act → Option Transfer
  | .getFile queued rs => s.after rs (s.u.getFile s.q queued rs)
  | .readAhead len queued rs => s.after rs (s.u.upsReadAhead (some s.q) len queued rs)
  | .send sock => do
      let (q, _, out) ← Nconn.ncWrite s.q sock
      some { s with q := q, sent := s.sent ++ out }

/-- A file that was just opened, and headers in the queue. -/
def Opened (s : Transfer) : Prop :=
  ∃ fd stSize a, 0 ≤ fd ∧ stSize < 2 ^ 63 ∧ s.u = .fsinit fd stSize ∧ Nbq.Rep s.q a ∧
    s.head = s.q.readAvail ∧ s.sent = [] ∧ s.eof = false

/-- **The body matches its length**: what is in the queue, or was sent, behind the headers are as
many bytes as were counted; these are not more than were announced; and the file is done only when
it is read. -/
structure Law (s : Transfer) : Prop where
  body : s.sent.length + s.q.readAvail = s.head + s.u.read
  within : s.u.read ≤ s.u.size
  done : s.u.state = .done → s.u.read = s.u.size ∨ s.eof = true

/-- The law holds in all states of a run. -/
def Always (s : Transfer) : List Act → Prop
  | [] => s.Law
  | a :: as => s.Law ∧ ∀ t, a.run s = some t → Always t as

/-- There is no `EAGAIN`, and no error behind something else. -/
def Clean (rs : List ReadRes) : Prop := ReadRes.again ∉ rs ∧ ReadRes.error ∉ rs.tail

/-- The results of the call are such. -/
def Act.Clean : Act → Prop
  | .getFile _ rs => Transfer.Clean rs
  | .readAhead _ _ rs => Transfer.Clean rs
  | .send _ => True

/-! ## A call -/

variable {s t : Transfer} {len : ℕ} {queued : Bool} {rs : List ReadRes}

/-- What is carried along a run: the queue is in order, the law holds, and a file whose end was
reported is closed. -/
structure Inv (s : Transfer) : Prop where
  rep : ∃ a, Nbq.Rep s.q a
  law : s.Law
  closed : s.eof = true → s.u.fd < 0

lemma readAvail_append {q q' : Nbq} {a : SeekQueue UInt8} {xs : List UInt8} (h : Nbq.Rep q a)
    (h' : Nbq.Rep q' (a.append xs)) : q'.readAvail = q.readAvail + xs.length := by
  have hpos := a.pos_le
  rw [h.readAvail, h'.readAvail]
  change (a.contents ++ xs).length - a.pos = _
  rw [List.length_append]
  omega

/-- The file behind a call that reads `n` bytes, or fails. -/
def read (u : FileU) (len : ℕ) (n : Option ℕ) : FileU :=
  let u := { u with state := .sending }
  n.elim u (u.account len)

section Read

variable (u : FileU) (len n : ℕ)

lemma read_some : read u len (some n) =
    if n < len ∨ u.size ≤ u.read + n then ⟨-1, u.size, u.read + n, .done⟩
    else ⟨u.fd, u.size, u.read + n, .sending⟩ := rfl

@[simp] lemma read_some_read : (read u len (some n)).read = u.read + n := by
  rw [read_some]
  split_ifs
  · rfl
  · rfl

@[simp] lemma read_some_size : (read u len (some n)).size = u.size := by
  rw [read_some]
  split_ifs
  · rfl
  · rfl

lemma read_some_state :
    (read u len (some n)).state = .done ↔ n < len ∨ u.size ≤ u.read + n := by
  rw [read_some]
  split_ifs with h
  · simp [h]
  · simp [h]

lemma read_some_fd (h : n < len) : (read u len (some n)).fd = -1 := by
  rw [read_some, if_pos (.inl h)]

end Read

/-- A file that is closed is not read. -/
lemma closed_readAhead (hfd : s.u.fd < 0)
    (ht : s.after rs (s.u.upsReadAhead (some s.q) len queued rs) = some t) : rs = [] ∧ t = s := by
  rw [FileU.upsReadAhead, if_pos hfd] at ht
  cases rs with
  | nil =>
      cases ht
      simp
  | cons r rs => cases ht

/-- **What a call does**: the bytes of the results are put into the queue, and what `write_fd`
returns is counted. -/
lemma readAhead_spec {a : SeekQueue UInt8} (hrep : Nbq.Rep s.q a) (hfd : ¬ s.u.fd < 0)
    (ht : s.after rs (s.u.upsReadAhead (some s.q) len queued rs) = some t) :
    ∃ n q', CallEnds (s.u.lenRead len) rs n ∧ Nbq.Rep q' (a.append (taken rs)) ∧
      t = { s with
        u := read s.u len n
        q := q'
        eof := s.eof || rs.contains .eof } := by
  rw [FileU.upsReadAhead, if_neg hfd] at ht
  change s.after rs ((s.q.writeFd (s.u.lenRead len) rs).bind _) = some t at ht
  cases hw : s.q.writeFd (s.u.lenRead len) rs with
  | none =>
      rw [hw] at ht
      cases ht
  | some r =>
      obtain ⟨q', st, rest⟩ := r
      rw [hw, Option.bind_some] at ht
      dsimp only at ht
      have hafter : ∀ {u : FileU} {ret : ℤ}, s.after rs (some (u, some q', ret, rest)) = some t →
          rest = [] ∧ t = { s with u := u, q := q', eof := s.eof || rs.contains .eof } := by
        intro u ret h
        cases rest with
        | nil => exact ⟨rfl, (Option.some.inj h).symm⟩
        | cons r rest => cases h
      have hcases : rest = [] ∧ t = { s with
          u := if st < 0 then { s.u with state := .sending }
            else ({ s.u with state := .sending } : FileU).account len st.toNat
          q := q'
          eof := s.eof || rs.contains .eof } := by
        split_ifs at ht ⊢
        · exact hafter ht
        · exact hafter ht
        · exact hafter ht
      obtain ⟨rfl, rfl⟩ := hcases
      obtain ⟨hrep', n, hn, rfl⟩ := hrep.writeFd hw
      refine ⟨n, q', hn, hrep', ?_⟩
      cases n with
      | none => rfl
      | some n => rfl

/-! ## Clean results -/

lemma not_mem_of_data {r : ReadRes} (hr : r.bytes = []) {ds : List ReadRes}
    (hds : ∀ d ∈ ds, d.IsData) : r ∉ ds := by
  intro h
  obtain ⟨xs, hx, rfl⟩ := hds r h
  exact hx hr

lemma clean_of_data {ds : List ReadRes} (hds : ∀ d ∈ ds, d.IsData) : Clean ds :=
  ⟨not_mem_of_data rfl hds, fun h => not_mem_of_data rfl hds (List.mem_of_mem_tail h)⟩

lemma clean_eof {ds : List ReadRes} (hds : ∀ d ∈ ds, d.IsData) : Clean (ds ++ [.eof]) := by
  constructor
  · simpa using not_mem_of_data rfl hds
  · intro h
    have hmem : ReadRes.error ∈ ds := by simpa using List.mem_of_mem_tail h
    exact not_mem_of_data rfl hds hmem

lemma not_clean_again (ds : List ReadRes) : ¬ Clean (ds ++ [.again]) := fun h => h.1 (by simp)

/-- An error is clean if there is nothing in front of it. -/
lemma clean_error_iff (ds : List ReadRes) : Clean (ds ++ [.error]) ↔ ds = [] := by
  cases ds with
  | nil => simp [Clean]
  | cons d ds => simp [Clean]

/-- The end of the file is not reported by the other results. -/
lemma contains_eof {ds : List ReadRes} (hds : ∀ d ∈ ds, d.IsData) {r : ReadRes} (hr : r ≠ .eof) :
    (ds ++ [r]).contains .eof = false := by
  simpa [hr.symm] using not_mem_of_data rfl hds

lemma lenRead_spec {u : FileU} (h : u.read ≤ u.size) (len : ℕ) :
    u.lenRead len ≤ len ∧ u.lenRead len ≤ u.size - u.read ∧
      (u.lenRead len = len ∨ u.lenRead len = u.size - u.read) := by
  rw [FileU.lenRead, sub64_of_le h]
  split_ifs
  · omega
  · omega

/-- Bytes that are put into the queue and counted keep the law, if the file is done for a reason. -/
lemma Law.counted (h : s.Law) {n : ℕ} {q' : Nbq} {e : Bool}
    (havail : q'.readAvail = s.q.readAvail + n) (hn : n ≤ s.u.lenRead len)
    (hdone : n < len ∨ s.u.size ≤ s.u.read + n → s.u.read + n = s.u.size ∨ e = true) :
    Law { s with u := read s.u len (some n), q := q', eof := e } := by
  have hbody := h.body
  have hwithin := h.within
  have hlen := lenRead_spec hwithin len
  refine ⟨?_, ?_, fun hstate => ?_⟩
  · simp only [read_some_read]
    omega
  · simp only [read_some_read, read_some_size]
    omega
  · simp only [read_some_read, read_some_size]
    exact hdone ((read_some_state s.u len n).mp hstate)

/-- **A call keeps the law exactly if its results are clean.** -/
lemma readAhead_law (hs : Inv s)
    (ht : s.after rs (s.u.upsReadAhead (some s.q) len queued rs) = some t) :
    (t.Law ↔ Clean rs) ∧ (Clean rs → Inv t) := by
  by_cases hfd : s.u.fd < 0
  · obtain ⟨rfl, rfl⟩ := closed_readAhead hfd ht
    exact ⟨iff_of_true hs.law (clean_of_data (by simp)), fun _ => hs⟩
  obtain ⟨a, hrep⟩ := hs.rep
  obtain ⟨n, q', hends, hrep', rfl⟩ := readAhead_spec hrep hfd ht
  have havail := readAvail_append hrep hrep'
  have heof : s.eof = false := by
    by_contra h
    exact hfd (hs.closed (by simpa using h))
  have hwithin := hs.law.within
  have hlen := lenRead_spec hwithin len
  cases hends with
  | full hds hfull =>
      have hlaw := hs.law.counted (e := s.eof || rs.contains .eof) havail hfull.le
        fun _ => .inl (by omega)
      refine ⟨iff_of_true hlaw (clean_of_data hds), fun _ => ⟨⟨_, hrep'⟩, hlaw, fun h => ?_⟩⟩
      have hnot : rs.contains .eof = false := by simpa using not_mem_of_data rfl hds
      rw [heof, hnot] at h
      cases h
  | @eof ds hds hless =>
      rw [taken_concat _ rfl] at havail
      have hlaw := hs.law.counted (e := s.eof || (ds ++ [ReadRes.eof]).contains .eof) havail
        hless.le fun _ => .inr (by simp)
      refine ⟨iff_of_true hlaw (clean_eof hds), fun _ => ⟨⟨_, hrep'⟩, hlaw, fun _ => ?_⟩⟩
      change (read s.u len (some (taken ds).length)).fd < 0
      rw [read_some_fd _ _ _ (by omega)]
      decide
  | @again ds hds hless =>
      have hclean := not_clean_again ds
      refine ⟨iff_of_false (fun hlaw => ?_) hclean, fun h => absurd h hclean⟩
      -- the file is done, but there is more of it
      have hdone := hlaw.done ((read_some_state s.u len _).mpr (.inl (by omega)))
      simp only [read_some_read, read_some_size, heof,
        contains_eof hds (by decide : ReadRes.again ≠ .eof)] at hdone
      obtain hfull | hfalse := hdone
      · omega
      · cases hfalse
  | @error ds hds hless =>
      rw [taken_concat _ rfl] at havail
      have hbody := hs.law.body
      have hiff : (s.sent.length + q'.readAvail = s.head + s.u.read) ↔ ds = [] := by
        cases ds with
        | nil => exact iff_of_true (by rw [havail]; exact hbody) rfl
        | cons d ds =>
            obtain ⟨xs, hx, rfl⟩ := hds _ List.mem_cons_self
            have hpos := List.length_pos_iff.mpr hx
            rw [taken_cons, List.length_append] at havail
            change _ = _ + (xs.length + _) at havail
            exact iff_of_false (by omega) (List.cons_ne_nil _ _)
      have hlaw : Law { s with
            u := read s.u len none
            q := q'
            eof := s.eof || (ds ++ [ReadRes.error]).contains .eof } ↔ ds = [] :=
        ⟨fun h => hiff.mp h.body, fun h => ⟨hiff.mpr h, hs.law.within, fun h' => by cases h'⟩⟩
      rw [clean_error_iff]
      refine ⟨hlaw, fun h => ⟨⟨_, hrep'⟩, hlaw.mpr h, fun h' => ?_⟩⟩
      rw [heof, contains_eof hds (by decide)] at h'
      cases h'

/-- The first call is one of these, unless there is nothing to read. -/
lemma getFile_law (hs : Inv s) (ht : s.after rs (s.u.getFile s.q queued rs) = some t) :
    (t.Law ↔ Clean rs) ∧ (Clean rs → Inv t) := by
  unfold FileU.getFile at ht
  split_ifs at ht with hsize
  · cases rs with
    | nil =>
        cases ht
        have hclean : Clean [] := clean_of_data (by simp)
        have hwithin := hs.law.within
        have hlaw : Law { s with
            u := { s.u with state := .done }
            eof := s.eof || [].contains ReadRes.eof } :=
          ⟨hs.law.body, hwithin, fun _ => .inl (by change s.u.read = s.u.size; omega)⟩
        exact ⟨iff_of_true hlaw hclean, fun _ => ⟨hs.rep, hlaw, by simpa using hs.closed⟩⟩
    | cons r rs => cases ht
  · exact readAhead_law hs ht

/-- What is sent is taken from the queue. -/
lemma send_law (hs : Inv s) {sock : SockWrite} (ht : (Act.send sock).run s = some t) : Inv t := by
  obtain ⟨a, hrep⟩ := hs.rep
  obtain ⟨r, hw, ht⟩ := Option.bind_eq_some_iff.mp ht
  obtain ⟨q', st, out⟩ := r
  cases ht
  obtain ⟨a', hrep', hunread⟩ := hrep.ncWrite hw
  refine ⟨⟨a', hrep'⟩, ⟨?_, hs.law.within, hs.law.done⟩, hs.closed⟩
  have hlen := congrArg List.length hunread
  have hbody := hs.law.body
  rw [List.length_append, a.length_unread, a'.length_unread, ← hrep.readAvail,
    ← hrep'.readAvail] at hlen
  change (s.sent ++ out).length + q'.readAvail = s.head + s.u.read
  rw [List.length_append]
  omega

/-- **A step keeps the law exactly if it is clean.** -/
lemma step_law (hs : Inv s) {a : Act} (ht : a.run s = some t) :
    (t.Law ↔ a.Clean) ∧ (a.Clean → Inv t) := by
  cases a with
  | getFile queued rs => exact getFile_law hs ht
  | readAhead len queued rs => exact readAhead_law hs ht
  | send sock =>
      have hinv := send_law hs ht
      exact ⟨iff_of_true hinv.law trivial, fun _ => hinv⟩

/-! ## A run -/

lemma Opened.inv (hs : Opened s) : Inv s := by
  obtain ⟨fd, stSize, a, -, -, hu, hrep, hhead, hsent, heof⟩ := hs
  refine ⟨⟨a, hrep⟩, ⟨?_, ?_, ?_⟩, ?_⟩
  · rw [hsent, hhead, hu]
    exact Nat.zero_add _
  · rw [hu]
    exact Nat.zero_le _
  · rw [hu]
    intro h
    cases h
  · rw [heof]
    intro h
    cases h

lemma Inv.always_iff {as : List Act} (hs : Inv s) (hrun : as.foldlM Act.run s = some t) :
    s.Always as ↔ ∀ a ∈ as, a.Clean := by
  induction as generalizing s with
  | nil => simp [Always, hs.law]
  | cons a as ih =>
      obtain ⟨u, hu, hrest⟩ := Option.bind_eq_some_iff.mp hrun
      obtain ⟨hiff, hinv⟩ := step_law hs hu
      rw [List.forall_mem_cons, Always, and_iff_right hs.law]
      constructor
      · intro hall
        have hnext := hall u hu
        have hclean : a.Clean := by
          refine hiff.mp ?_
          cases as with
          | nil => exact hnext
          | cons b bs => exact hnext.1
        exact ⟨hclean, (ih (hinv hclean) hrest).mp hnext⟩
      · rintro ⟨hclean, hall⟩ v hv
        rw [hu] at hv
        obtain rfl := Option.some.inj hv
        exact (ih (hinv hclean) hrest).mpr hall

/-- **The body matches its length in all states of a run exactly if** no call reads `EAGAIN`, or an
error behind something else. -/
theorem lawful_run_iff {as : List Act} (hs : Opened s) (hrun : as.foldlM Act.run s = some t) :
    s.Always as ↔ ∀ a ∈ as, a.Clean :=
  hs.inv.always_iff hrun

/-- A file of four bytes, and an empty queue. -/
def fourBytes : Transfer := ⟨.fsinit 3 4, .init 8, 0, [], false⟩

lemma fourBytes_opened : fourBytes.Opened :=
  ⟨3, 4, .empty, by decide, by decide, rfl, Nbq.rep_init (by decide) (by decide), rfl, rfl, rfl⟩

/-- The file is read in two parts, and sent in between. -/
def twoParts : List Act :=
  [.getFile true [.data [1, 2], .data [3, 4]], .send (.accept 3), .readAhead 4 true [],
    .send (.accept 8)]

theorem two_parts_lawful :
    (twoParts.foldlM Act.run fourBytes).isSome = true ∧ fourBytes.Always twoParts := by
  have hsome : (twoParts.foldlM Act.run fourBytes).isSome = true := by decide +kernel
  obtain ⟨t, ht⟩ := Option.isSome_iff_exists.mp hsome
  refine ⟨hsome, (lawful_run_iff fourBytes_opened ht).mpr ?_⟩
  simp [twoParts, Act.Clean, Clean]

/-- What a call leaves: the bytes that are in the queue or were sent, those that should be, and
whether the file is done. -/
def leaves (rs : List ReadRes) : Option (ℕ × ℕ × Bool) :=
  ((Act.readAhead 4 true rs).run fourBytes).map fun t =>
    (t.sent.length + t.q.readAvail, t.head + t.u.read, decide (t.u.state = .done))

/-- **An error leaves bytes in the queue that are not counted**, and `EAGAIN` ends the file. -/
theorem error_behind_part :
    leaves [.data [1, 2], .error] = some (2, 0, false) ∧
      leaves [.data [1, 2], .again] = some (2, 2, true) ∧
      ¬ ∀ s as t, Opened s → as.foldlM Act.run s = some t → s.Always as := by
  have herror : leaves [.data [1, 2], .error] = some (2, 0, false) := by decide +kernel
  refine ⟨herror, by decide +kernel, fun hall => ?_⟩
  obtain ⟨t, ht, hleft⟩ := Option.map_eq_some_iff.mp herror
  have hrun : [Act.readAhead 4 true [.data [1, 2], .error]].foldlM Act.run fourBytes = some t := by
    rw [List.foldlM_cons, ht]
    rfl
  obtain ⟨-, hnext⟩ := hall _ _ t fourBytes_opened hrun
  have hbody := (hnext t ht).body
  obtain ⟨htwo, hnone⟩ := Prod.mk.inj hleft
  rw [htwo, (Prod.mk.inj hnone).1] at hbody
  cases hbody

end Transfer

end Is2
