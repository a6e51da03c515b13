import Mathlib.Algebra.BigOperators.Group.List.Basic
import Mathlib.Algebra.Ring.Nat
import Mathlib.Data.List.Basic
import Mathlib.Data.List.TakeDrop
import Mathlib.Data.List.TakeWhile
import Mathlib.Algebra.Order.Group.Int

/-!
# JSON texts

A reader for JSON texts, and the two facts about it that are used to check a program which prints
JSON by hand.

* `Json.read` — the value that a text stands for, or `none` where it is no JSON text.
* `Reads` — a reader takes this text, whatever follows it.  Strings, members, arrays and objects
  are read from the texts of their parts: `reads_quote`, `reads_member`, `reads_arr`, `reads_obj`.
* `Closed` — brackets are matched, and quotes too.  Whatever is read is closed (`read_closed`), so
  a bracketed text that is cut off is no JSON text (`read_take_bracket`).
-/

namespace Is2

/-- **JSON values.**  Numbers are kept as they are written, and so are the escapes in a string. -/
inductive Json where
  | null
  | bool (b : Bool)
  | num (raw : List Char)
  | str (s : List Char)
  | arr (xs : List Json)
  | obj (ms : List (List Char × Json))

namespace Json

/-- What a reader finds, and what is left. -/
abbrev Reader (α : Type) := List Char → Option (α × List Char)

/-! ## The reader -/

def isWs (c : Char) : Bool := c = ' ' || c = '\n' || c = '\r' || c = '\t'

/-- Skip white space. -/
def skip (s : List Char) : List Char := s.dropWhile isWs

def isHex (c : Char) : Bool :=
  c.isDigit || ('a' ≤ c && c ≤ 'f') || ('A' ≤ c && c ≤ 'F')

/-- A backslash may stand in front of `e` and what follows. -/
def isEscape (e : Char) (s : List Char) : Bool :=
  "\"\\/bfnrt".toList.contains e || (e = 'u' && 4 ≤ s.length && (s.take 4).all isHex)

/-- The rest of a string, behind its first quote. -/
def string : Reader (List Char)
  | [] => none
  | [c] => if c = '"' then some ([], []) else none
  | c :: e :: s =>
    if c = '"' then some ([], e :: s)
    else if c = '\\' then
      if isEscape e s then (string s).map fun p => (c :: e :: p.1, p.2) else none
    else if c.toNat < 0x20 then none
    else (string (e :: s)).map fun p => (c :: p.1, p.2)

/-- At least one digit. -/
def digits (s : List Char) : Option (List Char) :=
  if s.takeWhile Char.isDigit = [] then none else some (s.dropWhile Char.isDigit)

/-- The number in front of the fraction. -/
def integer (s : List Char) : Option (List Char) :=
  if s.head? = some '0' then some s.tail else digits s

def fraction (s : List Char) : Option (List Char) :=
  if s.head? = some '.' then digits s.tail else some s

def exponent (s : List Char) : Option (List Char) :=
  if s.head? = some 'e' ∨ s.head? = some 'E' then
    if s.tail.head? = some '+' ∨ s.tail.head? = some '-' then digits s.tail.tail else digits s.tail
  else some s

def isNumber (s : List Char) : Bool :=
  ((integer (if s.head? = some '-' then s.tail else s)).bind fraction).bind exponent = some []

def isNumberChar (c : Char) : Bool := c.isDigit || "+-.eE".toList.contains c

def number : Reader Json := fun s =>
  if isNumber (s.takeWhile isNumberChar) then
    some (.num (s.takeWhile isNumberChar), s.dropWhile isNumberChar)
  else none

/-- One of the words. -/
def word (w : List Char) (v : Json) : Reader Json := fun s =>
  if w.isPrefixOf s then some (v, s.drop w.length) else none

section Lists

variable {α : Type}

/-- Items with commas between them, up to the closing bracket. -/
def items (item : Reader α) (close : Char) : ℕ → Reader (List α)
  | 0, _ => none
  | n + 1, s => (item s).bind fun p =>
    let r := skip p.2
    if r.head? = some ',' then (items item close n r.tail).map fun q => (p.1 :: q.1, q.2)
    else if r.head? = some close then some ([p.1], r.tail)
    else none

/-- The rest of a list, behind its opening bracket. -/
def list (item : Reader α) (close : Char) : Reader (List α) := fun s =>
  if (skip s).head? = some close then some ([], (skip s).tail) else items item close s.length s

/-- A member of an object. -/
def member (item : Reader α) : Reader (List Char × α) := fun s =>
  let s := skip s
  if s.head? = some '"' then
    (string s.tail).bind fun p =>
    let r := skip p.2
    if r.head? = some ':' then (item r.tail).map fun q => ((p.1, q.1), q.2) else none
  else none

end Lists

/-- A value, nested at most this deep. -/
def value : ℕ → Reader Json
  | 0, _ => none
  | n + 1, s =>
    let s := skip s
    if s.head? = some '"' then (string s.tail).map fun p => (.str p.1, p.2)
    else if s.head? = some '[' then (list (value n) ']' s.tail).map fun p => (.arr p.1, p.2)
    else if s.head? = some '{' then
      (list (member (value n)) '}' s.tail).map fun p => (.obj p.1, p.2)
    else (word "true".toList (.bool true) s).or <| (word "false".toList (.bool false) s).or <|
      (word "null".toList .null s).or (number s)

/-- **The value of a text.** -/
def read (s : List Char) : Option Json :=
  (value (s.length + 1) s).bind fun p => if skip p.2 = [] then some p.1 else none

/-! ## Texts that are read -/

/-- The text is read as `x`, whatever follows it. -/
def Reads {α : Type} (p : Reader α) (s : List Char) (x : α) : Prop :=
  ∀ rest, p (s ++ rest) = some (x, rest)

/-- A character that stands for itself in a string. -/
def IsPlain (c : Char) : Prop := 0x20 ≤ c.toNat ∧ c ≠ '"' ∧ c ≠ '\\'

instance (c : Char) : Decidable (IsPlain c) := inferInstanceAs (Decidable (_ ∧ _))

/-- No numbers. -/
inductive Plain : Json → Prop where
  | null : Plain .null
  | bool (b : Bool) : Plain (.bool b)
  | str (s : List Char) : Plain (.str s)
  | arr {xs : List Json} (h : ∀ x ∈ xs, Plain x) : Plain (.arr xs)
  | obj {ms : List (List Char × Json)} (h : ∀ m ∈ ms, Plain m.2) : Plain (.obj ms)

/-- A fact about all characters of a fixed text is evaluated character by character. -/
lemma forall_mem_of_all {p : Char → Prop} [DecidablePred p] {u : List Char}
    (h : u.all fun c => decide (p c)) : ∀ c ∈ u, p c := by
  simpa using h

/-- The text of a string. -/
def quote (s : List Char) : List Char := '"' :: (s ++ ['"'])

lemma skip_cons {c : Char} (h : isWs c = false) (s : List Char) : skip (c :: s) = c :: s := by
  simp [skip, h]

lemma string_cons {c : Char} (h : IsPlain c) (s : List Char) :
    string (c :: s) = (string s).map fun p => (c :: p.1, p.2) := by
  obtain ⟨hc, hq, hb⟩ := h
  cases s with
  | nil => simp [string, hq]
  | cons e s => rw [string, if_neg hq, if_neg hb, if_neg (by omega)]

lemma string_quote (s : List Char) : string ('"' :: s) = some ([], s) := by
  cases s with
  | nil => rfl
  | cons e s => rfl

lemma string_append {s : List Char} (h : ∀ c ∈ s, IsPlain c) (rest : List Char) :
    string (s ++ '"' :: rest) = some (s, rest) := by
  induction s with
  | nil => exact string_quote rest
  | cons c s ih =>
      rw [List.cons_append, string_cons (h c List.mem_cons_self),
        ih fun c hc => h c (List.mem_cons_of_mem _ hc)]
      rfl

/-- A string is read from its text. -/
lemma reads_quote {s : List Char} (h : ∀ c ∈ s, IsPlain c) (n : ℕ) :
    Reads (value (n + 1)) (quote s) (.str s) := by
  intro rest
  have hskip : skip (quote s ++ rest) = '"' :: (s ++ '"' :: rest) := by
    simp [quote, skip_cons, isWs]
  simp [value, hskip, string_append h]

/-- White space may stand in front of a value. -/
lemma Reads.blank {n : ℕ} {s : List Char} {v : Json} (h : Reads (value n) s v) :
    Reads (value n) (' ' :: s) v := by
  intro rest
  cases n with
  | zero => exact h rest
  | succ n =>
      have hskip : skip (' ' :: s ++ rest) = skip (s ++ rest) := by
        simp [skip, isWs]
      rw [← h rest, value, value, hskip]

section Lists

variable {α : Type} {item : Reader α}

/-- A member is read from the texts of its name and its value. -/
lemma reads_member {k s : List Char} {x : α} (hk : ∀ c ∈ k, IsPlain c) (h : Reads item s x) :
    Reads (member item) (quote k ++ ':' :: s) (k, x) := by
  intro rest
  have hskip : skip (quote k ++ ':' :: s ++ rest) = '"' :: (k ++ '"' :: ':' :: (s ++ rest)) := by
    simp [quote, skip_cons, isWs]
  simp only [member, hskip]
  simp [string_append hk, skip_cons, isWs, h rest]

/-- Texts with commas between them. -/
def commas (ts : List (List Char)) : List Char := [','].intercalate ts

lemma commas_cons (t u : List Char) (ts : List (List Char)) :
    commas (t :: u :: ts) = t ++ ',' :: commas (u :: ts) := by
  simp [commas, List.intercalate, List.intersperse]

lemma length_le_commas (ts : List (List Char)) : ts.length ≤ (commas ts).length + 1 := by
  induction ts with
  | nil => exact Nat.zero_le _
  | cons t ts ih =>
      cases ts with
      | nil => simp
      | cons u ts =>
          simp only [commas_cons, List.length_append, List.length_cons] at ih ⊢
          omega

lemma length_commas {ts : List (List Char)} (h : ts ≠ []) :
    (commas ts).length + 1 = (ts.map fun t => t.length + 1).sum := by
  induction ts with
  | nil => exact absurd rfl h
  | cons t ts ih =>
      cases ts with
      | nil => simp [commas]
      | cons u ts =>
          have htail := ih (List.cons_ne_nil _ _)
          rw [commas_cons, List.map_cons, List.sum_cons, ← htail]
          simp only [List.length_append, List.length_cons]
          omega

/-- Items are read from their texts. -/
lemma items_commas {c : Char} (hws : isWs c = false) (hcomma : c ≠ ',')
    {ps : List (List Char × α)} (hps : ps ≠ []) (h : ∀ p ∈ ps, Reads item p.1 p.2) {n : ℕ}
    (hn : ps.length ≤ n) (rest : List Char) :
    items item c n (commas (ps.map Prod.fst) ++ c :: rest) =
      some (ps.map Prod.snd, rest) := by
  induction ps generalizing n with
  | nil => exact absurd rfl hps
  | cons p ps ih =>
      obtain ⟨n, rfl⟩ := Nat.exists_eq_succ_of_ne_zero (Nat.ne_zero_of_lt hn)
      have hp := h p List.mem_cons_self
      cases ps with
      | nil =>
          have htext : commas (List.map Prod.fst [p]) = p.1 := by
            simp [commas]
          rw [htext, items, hp]
          simp [skip_cons hws, hcomma]
      | cons q ps =>
          have htext : commas (List.map Prod.fst (p :: q :: ps)) ++ c :: rest =
              p.1 ++ ',' :: (commas ((q :: ps).map Prod.fst) ++ c :: rest) := by
            simp [commas_cons]
          have hrest := ih (List.cons_ne_nil _ _) (fun p hp => h p (List.mem_cons_of_mem _ hp))
            (Nat.le_of_succ_le_succ hn)
          rw [htext, items, hp]
          simpa [skip_cons, isWs] using hrest

/-- A list is read from the texts of its items. -/
lemma reads_list {c : Char} (hws : isWs c = false) (hcomma : c ≠ ',')
    (hclose : ∀ s, (skip s).head? = some c → item s = none)
    {ps : List (List Char × α)} (h : ∀ p ∈ ps, Reads item p.1 p.2) :
    Reads (list item c) (commas (ps.map Prod.fst) ++ [c]) (ps.map Prod.snd) := by
  intro rest
  rw [List.append_assoc, List.singleton_append, list]
  rcases eq_or_ne ps [] with rfl | hps
  · simp [commas, skip_cons hws]
  · have hlen := length_le_commas (ps.map Prod.fst)
    rw [List.length_map] at hlen
    have hread := items_commas hws hcomma hps h
      (n := (commas (ps.map Prod.fst) ++ c :: rest).length)
      (by rw [List.length_append, List.length_cons]; omega) rest
    have hnot : (skip (commas (ps.map Prod.fst) ++ c :: rest)).head? ≠ some c := by
      intro hhead
      have hnone := hclose _ hhead
      cases hn : (commas (ps.map Prod.fst) ++ c :: rest).length with
      | zero => simp at hn
      | succ n =>
          rw [hn, items, hnone] at hread
          cases hread
    rw [if_neg hnot, hread]

end Lists

lemma value_close {n : ℕ} {s : List Char} (h : (skip s).head? = some ']') : value n s = none := by
  obtain ⟨t, ht⟩ : ∃ t, skip s = ']' :: t := by
    cases hs : skip s with
    | nil => simp [hs] at h
    | cons c t => simp_all
  cases n with
  | zero => rfl
  | succ n => simp [value, ht, word, number, isNumberChar, isNumber, integer, digits]

lemma member_close {α : Type} {item : Reader α} {s : List Char}
    (h : (skip s).head? = some '}') : member item s = none := by
  simp [member, h]

/-- An array is read from the texts of its elements. -/
lemma reads_arr {n : ℕ} {ps : List (List Char × Json)} (h : ∀ p ∈ ps, Reads (value n) p.1 p.2) :
    Reads (value (n + 1)) ('[' :: (commas (ps.map Prod.fst) ++ [']']))
      (.arr (ps.map Prod.snd)) := by
  intro rest
  have hlist := reads_list (c := ']') rfl (by decide) (fun s hs => value_close hs) h rest
  simp only [List.append_assoc, List.singleton_append] at hlist
  simp [value, skip_cons, isWs, hlist]

/-- An object is read from the texts of its members. -/
lemma reads_obj {n : ℕ} {ps : List (List Char × List Char × Json)}
    (h : ∀ p ∈ ps, Reads (member (value n)) p.1 p.2) :
    Reads (value (n + 1)) ('{' :: (commas (ps.map Prod.fst) ++ ['}']))
      (.obj (ps.map Prod.snd)) := by
  intro rest
  have hlist := reads_list (c := '}') rfl (by decide) (fun s hs => member_close hs) h rest
  simp only [List.append_assoc, List.singleton_append] at hlist
  simp [value, skip_cons, isWs, hlist]

/-- A text that is read as a value has this value. -/
lemma Reads.read {s : List Char} {v : Json} (h : Reads (value (s.length + 1)) s v) :
    Json.read s = some v := by
  have hs := h []
  rw [List.append_nil] at hs
  rw [Json.read, hs]
  rfl

/-! ## Texts that are closed -/

/-- Outside of strings, in a string, or behind a backslash in a string. -/
inductive Mode where
  | outside | inside | escaped

/-- A walk over a text counts the brackets that are open. -/
structure Scan where
  depth : ℤ
  mode : Mode

def Scan.step (s : Scan) (c : Char) : Scan :=
  match s.mode with
  | .outside =>
    if c = '"' then ⟨s.depth, .inside⟩
    else if c = '[' ∨ c = '{' then ⟨s.depth + 1, .outside⟩
    else if c = ']' ∨ c = '}' then ⟨s.depth - 1, .outside⟩
    else s
  | .inside =>
    if c = '"' then ⟨s.depth, .outside⟩ else if c = '\\' then ⟨s.depth, .escaped⟩ else s
  | .escaped => ⟨s.depth, .inside⟩

/-- The walk over `u` leads from `s` to `t` and never falls below `d`. -/
inductive Path (d : ℤ) : Scan → List Char → Scan → Prop where
  | nil {s : Scan} (h : d ≤ s.depth) : Path d s [] s
  | cons {s t : Scan} {c : Char} {u : List Char} (h : d ≤ s.depth) (p : Path d (s.step c) u t) :
      Path d s (c :: u) t

/-- **Brackets and quotes are matched.** -/
def Closed (u : List Char) : Prop := ∀ d, Path d ⟨d, .outside⟩ u ⟨d, .outside⟩

section Paths

variable {d : ℤ} {s t t' : Scan} {u v : List Char}

lemma Path.append (hu : Path d s u t) (hv : Path d t v t') : Path d s (u ++ v) t' := by
  induction hu with
  | nil h => exact hv
  | cons h p ih => exact .cons h (ih hv)

lemma Path.mono {d' : ℤ} (hd : d' ≤ d) (h : Path d s u t) : Path d' s u t := by
  induction h with
  | nil h => exact .nil (hd.trans h)
  | cons h p ih => exact .cons (hd.trans h) ih

lemma Path.front (h : Path d s (u ++ v) t) : ∃ m, Path d s u m ∧ d ≤ m.depth := by
  induction u generalizing s with
  | nil =>
      refine ⟨s, .nil ?_, ?_⟩ <;> cases h <;> assumption
  | cons c u ih =>
      cases h with
      | cons h p =>
          obtain ⟨m, hm, hd⟩ := ih p
          exact ⟨m, .cons h hm, hd⟩

lemma Path.unique {d' : ℤ} (h : Path d s u t) (h' : Path d' s u t') : t = t' := by
  induction h with
  | nil h => cases h'; rfl
  | cons h p ih =>
      cases h' with
      | cons h' p' => exact ih p'

lemma Closed.nil : Closed [] := fun _ => .nil le_rfl

lemma Closed.append (hu : Closed u) (hv : Closed v) : Closed (u ++ v) :=
  fun d => (hu d).append (hv d)

/-- Characters that are neither brackets nor quotes. -/
lemma Closed.neutral (h : ∀ c ∈ u, c ∉ "\"[]\x7b\x7d".toList) : Closed u := by
  induction u with
  | nil => exact .nil
  | cons c u ih =>
      intro d
      have hc := h c List.mem_cons_self
      have hstep : Scan.step ⟨d, .outside⟩ c = ⟨d, .outside⟩ := by
        simp_all [Scan.step]
      refine .cons le_rfl ?_
      rw [hstep]
      exact ih (fun c hc => h c (List.mem_cons_of_mem _ hc)) d

/-- A closed text between brackets. -/
lemma Closed.bracket {a b : Char} (ha : a = '[' ∨ a = '{') (hb : b = ']' ∨ b = '}')
    (hu : Closed u) : Closed (a :: (u ++ [b])) := by
  intro d
  have hopen : Scan.step ⟨d, .outside⟩ a = ⟨d + 1, .outside⟩ := by
    rcases ha with rfl | rfl <;> simp [Scan.step]
  have hclose : Scan.step ⟨d + 1, .outside⟩ b = ⟨d, .outside⟩ := by
    rcases hb with rfl | rfl <;> simp [Scan.step]
  have hd : d ≤ d + 1 := by omega
  refine .cons le_rfl ?_
  rw [hopen]
  refine ((hu (d + 1)).mono hd).append (.cons hd ?_)
  rw [hclose]
  exact .nil le_rfl

/-- **A bracketed text that is cut off is not closed.** -/
lemma Closed.not_cut (hu : Closed u) {p r : List Char} (hp : p ≠ []) (hr : r ≠ [])
    (hcut : '[' :: (u ++ [']']) = p ++ r) : ¬ Closed p := by
  intro hclosed
  obtain ⟨c, p, rfl⟩ := List.exists_cons_of_ne_nil hp
  obtain ⟨r', c', rfl⟩ := List.eq_nil_or_concat'  r |>.resolve_left hr
  rw [List.cons_append, List.cons.injEq, ← List.append_assoc] at hcut
  obtain ⟨rfl, hcut⟩ := hcut
  obtain ⟨rfl, -⟩ := List.append_inj' hcut rfl
  obtain ⟨m, hm, hd⟩ := (hu 1).front
  have hend := hclosed 0
  cases hend with
  | cons h hpath =>
      have := hpath.unique hm
      rw [← this] at hd
      exact absurd hd (by decide)

end Paths

section Readers

variable {α : Type} {item : Reader α}

/-- What the reader takes is closed. -/
def TakesClosed (p : Reader α) : Prop :=
  ∀ ⦃s x r⦄, p s = some (x, r) → ∃ u, s = u ++ r ∧ Closed u

lemma skip_closed (s : List Char) : ∃ u, s = u ++ skip s ∧ Closed u := by
  refine ⟨s.takeWhile isWs, List.takeWhile_append_dropWhile.symm, .neutral ?_⟩
  intro c hc
  have hws := List.mem_takeWhile_imp hc
  simp only [isWs, Bool.or_eq_true, decide_eq_true_eq] at hws
  rcases hws with ((rfl | rfl) | rfl) | rfl <;> decide

/-- The walk over the rest of a string leads out of it. -/
lemma string_path {s x r : List Char} (h : string s = some (x, r)) :
    ∃ u, s = u ++ r ∧ ∀ d, Path d ⟨d, .inside⟩ u ⟨d, .outside⟩ := by
  have hquote : ∀ d, Path d ⟨d, .inside⟩ ['"'] ⟨d, .outside⟩ := fun d =>
    .cons le_rfl (.nil le_rfl)
  fun_induction string s generalizing x with
  | case1 => cases h
  | case2 =>
      obtain ⟨rfl, rfl⟩ := Prod.mk.inj (Option.some.inj h)
      exact ⟨['"'], rfl, hquote⟩
  | case3 => cases h
  | case4 e s =>
      obtain ⟨rfl, rfl⟩ := Prod.mk.inj (Option.some.inj h)
      exact ⟨['"'], rfl, hquote⟩
  | case5 e s hne hesc ih =>
      obtain ⟨⟨x', r'⟩, hrest, heq⟩ := Option.map_eq_some_iff.mp h
      obtain ⟨rfl, rfl⟩ := Prod.mk.inj heq
      obtain ⟨u, rfl, hu⟩ := ih hrest
      exact ⟨'\\' :: e :: u, rfl, fun d => .cons le_rfl (.cons le_rfl (hu d))⟩
  | case6 => cases h
  | case7 => cases h
  | case8 c e s hquote' hback hlow ih =>
      obtain ⟨⟨x', r'⟩, hrest, heq⟩ := Option.map_eq_some_iff.mp h
      obtain ⟨rfl, rfl⟩ := Prod.mk.inj heq
      obtain ⟨u, hsplit, hu⟩ := ih hrest
      have hstep : ∀ d, Scan.step ⟨d, .inside⟩ c = ⟨d, .inside⟩ := by
        simp [Scan.step, hquote', hback]
      refine ⟨c :: u, by rw [hsplit, List.cons_append], fun d => .cons le_rfl ?_⟩
      rw [hstep]
      exact hu d

lemma string_closed {s x r : List Char} (h : string s = some (x, r)) :
    ∃ u, s = u ++ r ∧ Closed ('"' :: u) := by
  obtain ⟨u, hsplit, hu⟩ := string_path h
  exact ⟨u, hsplit, fun d => .cons le_rfl (hu d)⟩

lemma closed_quote {s : List Char} (h : ∀ c ∈ s, IsPlain c) : Closed (quote s) := by
  obtain ⟨u, hsplit, hu⟩ := string_closed (string_append h [])
  rw [List.append_nil] at hsplit
  rw [quote, hsplit]
  exact hu

lemma head?_eq_cons {s : List Char} {c : Char} (h : s.head? = some c) : s = c :: s.tail :=
  (List.cons_head?_tail h).symm

lemma items_closed {close : Char} (hitem : TakesClosed item) {n : ℕ} {s r : List Char}
    {xs : List α} (h : items item close n s = some (xs, r)) :
    ∃ u, s = u ++ close :: r ∧ Closed u := by
  induction n generalizing s xs with
  | zero => cases h
  | succ n ih =>
      obtain ⟨⟨x, r'⟩, hx, hnext⟩ := Option.bind_eq_some_iff.mp h
      obtain ⟨u, rfl, hu⟩ := hitem hx
      obtain ⟨w, hw, hclosed⟩ := skip_closed r'
      have huw := hu.append hclosed
      dsimp only at hnext
      split_ifs at hnext with hcomma hclose
      · obtain ⟨⟨ys, r''⟩, hys, heq⟩ := Option.map_eq_some_iff.mp hnext
        obtain ⟨rfl, rfl⟩ := Prod.mk.inj heq
        obtain ⟨v, hv, hvclosed⟩ := ih hys
        have hneutral : Closed [','] := .neutral (forall_mem_of_all (by decide))
        refine ⟨(u ++ w) ++ ([','] ++ v), ?_, huw.append (hneutral.append hvclosed)⟩
        rw [hw, head?_eq_cons hcomma, hv]
        simp
      · obtain ⟨rfl, rfl⟩ := Prod.mk.inj (Option.some.inj hnext)
        refine ⟨u ++ w, ?_, huw⟩
        rw [← head?_eq_cons hclose, List.append_assoc, ← hw]

/-- A list between its brackets is closed. -/
lemma list_closed {a b : Char} (ha : a = '[' ∨ a = '{') (hb : b = ']' ∨ b = '}')
    (hitem : TakesClosed item) {s r : List Char} {xs : List α}
    (h : list item b s = some (xs, r)) : ∃ u, a :: s = u ++ r ∧ Closed u := by
  suffices hbody : ∃ u, s = u ++ b :: r ∧ Closed u by
    obtain ⟨u, rfl, hu⟩ := hbody
    exact ⟨a :: (u ++ [b]), by simp, hu.bracket ha hb⟩
  rw [list] at h
  split_ifs at h with hclose
  · obtain ⟨rfl, rfl⟩ := Prod.mk.inj (Option.some.inj h)
    obtain ⟨w, hw, hclosed⟩ := skip_closed s
    refine ⟨w, ?_, hclosed⟩
    rw [← head?_eq_cons hclose]
    exact hw
  · exact items_closed hitem h

lemma member_closed (hitem : TakesClosed item) : TakesClosed (member item) := by
  intro s x r h
  obtain ⟨w, hw, hclosed⟩ := skip_closed s
  simp only [member] at h
  split_ifs at h with hquote
  obtain ⟨⟨k, r'⟩, hk, h⟩ := Option.bind_eq_some_iff.mp h
  obtain ⟨u, hu, huclosed⟩ := string_closed hk
  obtain ⟨w', hw', hclosed'⟩ := skip_closed r'
  dsimp only at h
  split_ifs at h with hcolon
  obtain ⟨⟨y, r''⟩, hy, heq⟩ := Option.map_eq_some_iff.mp h
  obtain ⟨rfl, rfl⟩ := Prod.mk.inj heq
  obtain ⟨v, hv, hvclosed⟩ := hitem hy
  have hneutral : Closed [':'] := .neutral (forall_mem_of_all (by decide))
  refine ⟨w ++ ('"' :: u ++ (w' ++ ([':'] ++ v))), ?_,
    hclosed.append (huclosed.append (hclosed'.append (hneutral.append hvclosed)))⟩
  rw [hw, head?_eq_cons hquote, hu, hw', head?_eq_cons hcolon, hv]
  simp

lemma word_closed {w : List Char} (hw : ∀ c ∈ w, c ∉ "\"[]\x7b\x7d".toList) (v : Json) :
    TakesClosed (word w v) := by
  intro s x r h
  rw [word] at h
  split_ifs at h with hfront
  obtain ⟨rfl, rfl⟩ := Prod.mk.inj (Option.some.inj h)
  obtain ⟨r, rfl⟩ := List.isPrefixOf_iff_prefix.mp hfront
  exact ⟨w, by simp, .neutral hw⟩

lemma number_closed : TakesClosed number := by
  intro s x r h
  rw [number] at h
  split_ifs at h
  obtain ⟨rfl, rfl⟩ := Prod.mk.inj (Option.some.inj h)
  refine ⟨s.takeWhile isNumberChar, List.takeWhile_append_dropWhile.symm, .neutral ?_⟩
  intro c hc hspecial
  have hnot : ∀ c ∈ "\"[]\x7b\x7d".toList, isNumberChar c = false :=
    forall_mem_of_all (by decide)
  have hnum := List.mem_takeWhile_imp hc
  rw [hnot c hspecial] at hnum
  cases hnum

/-- **What is read as a value is closed.** -/
lemma value_closed (n : ℕ) : TakesClosed (value n) := by
  induction n with
  | zero =>
      intro s x r h
      cases h
  | succ n ih =>
      intro s x r h
      obtain ⟨w, hw, hclosed⟩ := skip_closed s
      suffices hrest : ∃ u, skip s = u ++ r ∧ Closed u by
        obtain ⟨u, hu, huclosed⟩ := hrest
        refine ⟨w ++ u, ?_, hclosed.append huclosed⟩
        rw [List.append_assoc, ← hu]
        exact hw
      simp only [value] at h
      split_ifs at h with hquote harr hobj
      · obtain ⟨⟨t, r'⟩, ht, heq⟩ := Option.map_eq_some_iff.mp h
        obtain ⟨rfl, rfl⟩ := Prod.mk.inj heq
        obtain ⟨u, hu, huclosed⟩ := string_closed ht
        exact ⟨'"' :: u, by rw [head?_eq_cons hquote, hu]; rfl, huclosed⟩
      · obtain ⟨⟨xs, r'⟩, hxs, heq⟩ := Option.map_eq_some_iff.mp h
        obtain ⟨rfl, rfl⟩ := Prod.mk.inj heq
        rw [head?_eq_cons harr]
        exact list_closed (.inl rfl) (.inl rfl) ih hxs
      · obtain ⟨⟨ms, r'⟩, hms, heq⟩ := Option.map_eq_some_iff.mp h
        obtain ⟨rfl, rfl⟩ := Prod.mk.inj heq
        rw [head?_eq_cons hobj]
        exact list_closed (.inr rfl) (.inr rfl) (member_closed ih) hms
      · rcases Option.or_eq_some_iff.mp h with h | ⟨-, h⟩
        · exact word_closed (forall_mem_of_all (by decide)) _ h
        rcases Option.or_eq_some_iff.mp h with h | ⟨-, h⟩
        · exact word_closed (forall_mem_of_all (by decide)) _ h
        rcases Option.or_eq_some_iff.mp h with h | ⟨-, h⟩
        · exact word_closed (forall_mem_of_all (by decide)) _ h
        · exact number_closed h

end Readers

lemma value_nil (n : ℕ) : value n [] = none := by
  cases n with
  | zero => rfl
  | succ n => rfl

/-- **Whatever is read is closed.** -/
lemma read_closed {s : List Char} {v : Json} (h : read s = some v) : s ≠ [] ∧ Closed s := by
  obtain ⟨⟨v', r⟩, hv, h⟩ := Option.bind_eq_some_iff.mp h
  split_ifs at h with hr
  constructor
  · rintro rfl
    rw [value_nil] at hv
    cases hv
  · obtain ⟨u, rfl, hu⟩ := value_closed _ hv
    obtain ⟨w, hw, hclosed⟩ := skip_closed r
    rw [hr, List.append_nil] at hw
    rw [hw]
    exact hu.append hclosed

/-- **A bracketed text that is cut off is no JSON text.** -/
lemma read_take_bracket {u : List Char} (hu : Closed u) {n : ℕ} (hn : n < u.length + 2) :
    read (('[' :: (u ++ [']'])).take n) = none := by
  rw [Option.eq_none_iff_forall_ne_some]
  intro v hread
  obtain ⟨hne, hclosed⟩ := read_closed hread
  have hdrop : ('[' :: (u ++ [']'])).drop n ≠ [] := by
    intro hnil
    have := List.drop_eq_nil_iff.mp hnil
    simp only [List.length_cons, List.length_append, List.length_nil] at this
    omega
  exact hu.not_cut hne hdrop (List.take_append_drop n _).symm hclosed

end Json

end Is2
