import Is2.Srvr.Independence
import Is2.Srvr.SessionSteps

/-!
# A parser for one message, over and over

`http_parser` on a stream that repeats one message.  Its state is how far into the message it is;
it reports the fragments of the message's elements that fall into the buffer, the end of the
message with its last byte, and goes on with the next message when the buffer holds more.
-/

namespace Is2

/-- What is reported of the bytes from `lo` to `hi` of the message, which are at `o` in the
buffer. -/
def Message.eventsIn (m : Message) (lo hi o : ℕ) : List ParserEvent :=
  m.elements.filterMap fun e =>
    (piece e.kind ⟨0, lo, hi⟩ e.span).map fun p => .data e.kind (p.off - lo + o) p.len

/-- The message by message loop: at `p` in the message and `o` in the buffer, with `n` bytes left
in the buffer. -/
def scriptLoop (m : Message) : ℕ → ℕ → ℕ → ℕ → ℕ × List ParserEvent
  | 0, p, _, _ => (p, [])
  | fuel + 1, p, o, n =>
      if p + n < m.bytes.length then (p + n, m.eventsIn p (p + n) o)
      else
        let k := m.bytes.length - p
        let rest := scriptLoop m fuel 0 (o + k) (n - k)
        (rest.1, m.eventsIn p m.bytes.length o ++ .complete true :: rest.2)

/-- The parser of the message. -/
def scripted (m : Message) : HttpParser ℕ where
  init := 0
  execute p bytes :=
    let out := scriptLoop m (bytes.length + 1) (min p m.bytes.length) 0 bytes.length
    (out.1, out.2, bytes.length)

lemma eventsIn_inBounds {m : Message} {lo hi o off len : ℕ} {k : DataKind} (h : lo ≤ hi)
    (he : .data k off len ∈ m.eventsIn lo hi o) : off + len ≤ o + (hi - lo) := by
  obtain ⟨e, -, he⟩ := List.mem_filterMap.mp he
  obtain ⟨p, hp, he⟩ := Option.map_eq_some_iff.mp he
  simp only [ParserEvent.data.injEq] at he
  obtain ⟨-, rfl, rfl⟩ := he
  simp only [piece] at hp
  split at hp
  case isFalse => simp at hp
  case isTrue hc =>
      obtain rfl := Option.some.inj hp
      simp only [fragment] at *
      omega

lemma scriptLoop_inBounds {m : Message} {off len : ℕ} {k : DataKind} :
    ∀ {fuel p o n : ℕ}, p ≤ m.bytes.length →
      .data k off len ∈ (scriptLoop m fuel p o n).2 → off + len ≤ o + n := by
  intro fuel
  induction fuel with
  | zero =>
      intro p o n _ he
      simp [scriptLoop] at he
  | succ fuel ih =>
      intro p o n hp he
      rw [scriptLoop] at he
      split_ifs at he with hlt
      · have := eventsIn_inBounds (Nat.le_add_right p n) he
        omega
      · rcases List.mem_append.mp he with he | he
        · have := eventsIn_inBounds hp he
          omega
        · rcases List.mem_cons.mp he with he | he
          · cases he
          · have := ih (Nat.zero_le _) he
            omega

/-- The URL `/ab`, which is a path. -/
def abUrl : UrlParser :=
  .ofTable [([47, 97, 98], fun k => if k = .path then ⟨0, 3⟩ else ⟨0, 0⟩)] (by decide +kernel)

/-- A server whose clients send `GET /ab`, with blocks of 64 bytes; it knows the status 200. -/
def getAbEnv : SessionEnv ℕ where
  parser := scripted getAb
  urls := abUrl
  codes := fun n => if n = 200 then some [79, 75] else none
  badRequest := fun _ => ⟨400, [], none⟩
  bsize := 64

end Is2
