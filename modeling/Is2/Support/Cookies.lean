import Is2.Core.Lists
import Is2.Core.Words
import Is2.Support.UrlDecode

/-!
# `parse_cookies`

A list of cookies is read in one pass, up to the NUL behind it.  What is found are addresses and
lengths: nothing is copied.

**Model.**  The buffer is the list of its bytes, the NUL is the last one, and an address is an
index.  To read behind the NUL, or in front of the buffer, is undefined (`none`).  The lengths have
32 bits, and the `int` in which the length of a value is computed wraps around.

No text is read any further than to its NUL.  A list of cookies that is printed is read again,
unless there is a value that is empty: then the cookie is left out if it is the last one, and else
the `=` is taken for a part of its key.  `cookies_iff` is the exact condition.
-/

namespace Is2

namespace Cookies

open UrlDecode (statusOk)

/-! ## The code -/

/-- `=` -/
abbrev equals : UInt8 := 61

/-- `;` -/
abbrev semicolon : UInt8 := 59

/-- The space. -/
abbrev space : UInt8 := 32

/-- The characters in `l_del_set`. -/
def delSet : List UInt8 := [equals, semicolon, space, 9, 12, 13, 10]

/-- The characters in `l_valdel_set`. -/
def valdelSet : List UInt8 := [equals, space, 9, 12, 13, 10]

/-- `is_char_in_set` -/
def isCharInSet (arr : List UInt8) (char : UInt8) : Bool := arr.any (char == ·)

/-- `arg_t` -/
structure Arg where
  key : Option ℕ
  keyLen : ℕ
  val : Option ℕ
  valLen : ℕ
deriving DecidableEq

/-- The variables of `parse_cookies`: `i_p`, `l_key`, `l_val`, `l_keyend` and `ao_cookie_list`. -/
structure State where
  iP : ℕ
  key : ℕ
  val : Option ℕ
  keyend : Option ℕ
  list : List Arg
deriving DecidableEq

/-- What is done behind a turn of the loop. -/
inductive Next where
  | done (list : List Arg)
  | turn (s : State)

/-- The loops that skip what is in a set. -/
def skip (a : List UInt8) (set : List UInt8) : ℕ → ℕ → Option ℕ
  | fuel, p => do
    let c ← a[p]?
    if isCharInSet set c then
      match fuel with
      | 0 => none
      | fuel + 1 => skip a set fuel (p + 1)
    else some p

/-- The loops that leave out the spaces in front of an address. -/
def trim (a : List UInt8) : ℕ → ℤ → Option ℤ
  | 0, len => if len = 0 then some 0 else none
  | p + 1, len =>
    if len = 0 then some 0
    else do
      let c ← a[p]?
      if c = space then trim a p ((len - 1).bmod (2 ^ 32)) else some len

/-- The argument that is put into the list at the end of a cookie. -/
def State.put (a : List UInt8) (s : State) : Option State :=
  match s.val with
  | some val => do
    let keyend ← s.keyend
    let len ← trim a s.iP (toInt32 (s.iP - val))
    some { s with
      list := s.list ++
        [⟨some s.key, (keyend - s.key) % 2 ^ 32, some val, toUInt32 len⟩] }
  | none => some { s with list := s.list ++ [⟨some s.key, (s.iP - s.key) % 2 ^ 32, none, 0⟩] }

/-- The case of a `;`. -/
def semicolonCase (a : List UInt8) (s : State) : Option Next := do
  let s ← s.put a
  let p ← skip a delSet a.length (s.iP + 1)
  let c ← a[p]?
  if c = 0 then some (.done s.list)
  else some (.turn { s with iP := p + 1, key := p, val := none, keyend := none })

/-- The case of a `=`. -/
def equalsCase (a : List UInt8) (s : State) : Option Next :=
  match s.val with
  | some _ => some (.turn { s with iP := s.iP + 1 })
  | none => do
    let p ← skip a valdelSet a.length (s.iP + 1)
    let c ← a[p]?
    if c = 0 then some (.done s.list)
    else if c = semicolon then semicolonCase a { s with iP := p, keyend := some s.iP }
    else some (.turn { s with iP := p + 1, keyend := some s.iP, val := some p })

/-- A turn of the loop. -/
def turn (a : List UInt8) (s : State) : Option Next := do
  let c ← a[s.iP]?
  if c = 0 then (s.put a).map fun s => .done s.list
  else if c = equals then equalsCase a s
  else if c = semicolon then semicolonCase a s
  else some (.turn { s with iP := s.iP + 1 })

/-- The loop; a turn does at least one character. -/
def loop (a : List UInt8) : ℕ → State → Option (List Arg)
  | 0, _ => none
  | fuel + 1, s => do
    match ← turn a s with
    | .done list => some list
    | .turn s => loop a fuel s

/-- `parse_cookies`: the status, and `ao_cookie_list`. -/
def parseCookies (cookieList : List Arg) (a : List UInt8) : Option (ℤ × List Arg) := do
  let key ← skip a delSet a.length 0
  let c ← a[key]?
  if c = 0 then some (statusOk, cookieList)
  else do
    let list ← loop a a.length ⟨key + 1, key, none, none, cookieList⟩
    some (statusOk, list)

/-! ## What is asked for -/

/-- The bytes of an argument. -/
def Arg.bytes (a : List UInt8) (arg : Arg) : List UInt8 × List UInt8 :=
  (((arg.key.map fun p => a.drop p).getD []).take arg.keyLen,
    ((arg.val.map fun p => a.drop p).getD []).take arg.valLen)

/-- Neither a delimiter nor the NUL. -/
def IsCookieChar (c : UInt8) : Prop := c ≠ 0 ∧ isCharInSet delSet c = false

instance (c : UInt8) : Decidable (IsCookieChar c) := inferInstanceAs (Decidable (_ ∧ _))

/-- **A cookie**: a key, and the value, if there is one. -/
structure Cookie where
  key : List UInt8
  val : Option (List UInt8)
  key_ne : key ≠ []
  key_char : ∀ c ∈ key, IsCookieChar c
  val_char : ∀ v ∈ val, ∀ c ∈ v, IsCookieChar c

/-- `key`, `key=` or `key=value`. -/
def Cookie.print (c : Cookie) : List UInt8 :=
  match c.val with
  | none => c.key
  | some v => c.key ++ equals :: v

/-- The cookies that are joined by `; `. -/
def print (cookies : List Cookie) : List UInt8 :=
  [semicolon, space].intercalate (cookies.map Cookie.print)

/-- What a cookie says. -/
def Cookie.meaning (c : Cookie) : List UInt8 × List UInt8 := (c.key, c.val.getD [])

/-- **The cookies are found again** when they are printed. -/
def RoundTrips (cookieList : List Arg) (cookies : List Cookie) : Prop :=
  ∃ new, parseCookies cookieList (print cookies ++ [0]) = some (statusOk, cookieList ++ new) ∧
    new.map (Arg.bytes (print cookies ++ [0])) = cookies.map Cookie.meaning

/-- The value is not empty if there is one, and the lengths have 32 bits. -/
def Cookie.Fits (c : Cookie) : Prop :=
  c.val ≠ some [] ∧ c.key.length < 2 ^ 32 ∧ ∀ v ∈ c.val, v.length < 2 ^ 32

/-! ## The loop -/

variable {a : List UInt8} {s s' : State} {n : ℕ}

/-- The loop goes on from another state, for any number of turns that is enough. -/
def Reaches (a : List UInt8) (s s' : State) : Prop :=
  ∀ fuel, a.length ≤ s.iP + fuel → ∃ fuel', a.length ≤ s'.iP + fuel' ∧
    loop a fuel s = loop a fuel' s'

/-- The loop ends with a list. -/
def Ends (a : List UInt8) (s : State) (list : List Arg) : Prop :=
  ∀ fuel, a.length ≤ s.iP + fuel → loop a fuel s = some list

lemma Reaches.refl (s : State) : Reaches a s s := fun fuel hfuel => ⟨fuel, hfuel, rfl⟩

lemma Reaches.trans {s'' : State} (h : Reaches a s s') (h' : Reaches a s' s'') :
    Reaches a s s'' := by
  intro fuel hfuel
  obtain ⟨fuel', hfuel', heq⟩ := h fuel hfuel
  obtain ⟨fuel'', hfuel'', heq'⟩ := h' fuel' hfuel'
  exact ⟨fuel'', hfuel'', heq.trans heq'⟩

lemma Reaches.ends {list : List Arg} (h : Reaches a s s') (h' : Ends a s' list) :
    Ends a s list := by
  intro fuel hfuel
  obtain ⟨fuel', hfuel', heq⟩ := h fuel hfuel
  rw [heq, h' fuel' hfuel']

lemma lt_length_of_turn {next : Next} (h : turn a s = some next) : s.iP < a.length := by
  rw [turn] at h
  obtain ⟨c, hc, -⟩ := Option.bind_eq_some_iff.mp h
  exact (List.getElem?_eq_some_iff.mp hc).1

lemma reaches_of_turn (h : turn a s = some (.turn s')) (hlt : s.iP < s'.iP) :
    Reaches a s s' := by
  intro fuel hfuel
  have hin := lt_length_of_turn h
  obtain ⟨fuel, rfl⟩ : ∃ f, fuel = f + 1 := ⟨fuel - 1, by omega⟩
  refine ⟨fuel, by omega, ?_⟩
  rw [loop, h]
  rfl

lemma ends_of_turn {list : List Arg} (h : turn a s = some (.done list)) : Ends a s list := by
  intro fuel hfuel
  have hin := lt_length_of_turn h
  obtain ⟨fuel, rfl⟩ : ∃ f, fuel = f + 1 := ⟨fuel - 1, by omega⟩
  rw [loop, h]
  rfl

/-! ## What is read -/

/-- A text with a NUL behind it. -/
structure Terminated (a : List UInt8) (n : ℕ) : Prop where
  length : a.length = n + 1
  nul : a[n]? = some 0
  ne_nul : ∀ p < n, a[p]? ≠ some 0

lemma terminated_text {text : List UInt8} (h : 0 ∉ text) :
    Terminated (text ++ [0]) text.length := by
  refine ⟨by simp, by simp, ?_⟩
  intro p hp h0
  rw [List.getElem?_append_left hp] at h0
  exact h (List.mem_of_getElem? h0)

lemma Terminated.exists_char (h : Terminated a n) {p : ℕ} (hp : p ≤ n) :
    ∃ c, a[p]? = some c ∧ (c ≠ 0 → p < n) := by
  have hlt : p < a.length := by
    rw [h.length]
    omega
  refine ⟨_, List.getElem?_eq_getElem hlt, ?_⟩
  intro hne
  obtain rfl | hlt' := hp.eq_or_lt
  · have hnul := h.nul
    rw [List.getElem?_eq_getElem hlt] at hnul
    exact absurd (Option.some.inj hnul) hne
  · exact hlt'

/-- Nothing is skipped behind the NUL. -/
lemma Terminated.skip_eq (h : Terminated a n) {set : List UInt8} (hset : isCharInSet set 0 = false)
    {fuel p : ℕ} (hp : p ≤ n) (hfuel : n ≤ p + fuel) :
    ∃ q c, skip a set fuel p = some q ∧ p ≤ q ∧ q ≤ n ∧ a[q]? = some c ∧
      isCharInSet set c = false ∧ (c ≠ 0 → q < n) := by
  induction fuel generalizing p with
  | zero =>
      obtain ⟨c, hc, hlt⟩ := h.exists_char hp
      have h0 : c = 0 := by
        by_contra hne
        have := hlt hne
        omega
      subst h0
      refine ⟨p, 0, ?_, le_rfl, hp, hc, hset, hlt⟩
      simp [skip, hc, hset]
  | succ fuel ih =>
      obtain ⟨c, hc, hlt⟩ := h.exists_char hp
      cases hin : isCharInSet set c with
      | false =>
          refine ⟨p, c, ?_, le_rfl, hp, hc, hin, hlt⟩
          simp [skip, hc, hin]
      | true =>
          have hne : c ≠ 0 := by
            rintro rfl
            rw [hset] at hin
            cases hin
          obtain ⟨q, d, hq, hle, hd⟩ := ih (hlt hne) (by omega)
          refine ⟨q, d, ?_, by omega, hd⟩
          simp only [skip, hc, hin, Option.bind_eq_bind, Option.bind_some, if_true]
          exact hq

/-- The spaces behind a value end where it begins. -/
lemma exists_trim {p v : ℕ} {c : UInt8} (hv : a[v]? = some c) (hc : c ≠ space) (hlt : v < p)
    (hp : p ≤ a.length) (len : ℤ) : ∃ len', trim a p len = some len' := by
  induction p generalizing len with
  | zero => omega
  | succ p ih =>
      rw [trim]
      by_cases hlen : len = 0
      · exact ⟨0, if_pos hlen⟩
      · rw [if_neg hlen, List.getElem?_eq_getElem (by omega : p < a.length)]
        by_cases hspace : a[p] = space
        · have hne : v ≠ p := by
            rintro rfl
            rw [List.getElem?_eq_getElem (by omega : v < a.length)] at hv
            exact hc (Option.some.inj hv ▸ hspace)
          obtain ⟨len', h⟩ := ih (by omega) (by omega) ((len - 1).bmod (2 ^ 32))
          exact ⟨len', by simpa [hspace] using h⟩
        · exact ⟨len, by simp [hspace]⟩

/-- **What is known of the addresses**: they are in front of the NUL, and a value does not begin
with a space. -/
structure Inv (a : List UInt8) (n : ℕ) (s : State) : Prop where
  iP : s.iP ≤ n
  val : ∀ v ∈ s.val, s.keyend.isSome ∧ v < s.iP ∧ ∃ c, a[v]? = some c ∧ c ≠ space

lemma Inv.put (h : Inv a n s) (ha : Terminated a n) :
    ∃ s', s.put a = some s' ∧ s'.iP = s.iP := by
  have hlen := ha.length
  have hiP := h.iP
  rw [State.put]
  cases hval : s.val with
  | none => exact ⟨_, rfl, rfl⟩
  | some v =>
      obtain ⟨hkeyend, hlt, c, hc, hspace⟩ := h.val v hval
      obtain ⟨keyend, hkeyend⟩ := Option.isSome_iff_exists.mp hkeyend
      obtain ⟨len, htrim⟩ := exists_trim hc hspace hlt (by omega) (toInt32 (s.iP - v))
      simp only [hkeyend, htrim, Option.bind_eq_bind, Option.bind_some]
      exact ⟨_, rfl, rfl⟩

/-- What a turn does: it is the last one, or goes on behind what it has read. -/
def Turns (a : List UInt8) (n : ℕ) (s : State) (next : Option Next) : Prop :=
  (∃ list, next = some (.done list)) ∨
    ∃ s', next = some (.turn s') ∧ Inv a n s' ∧ s.iP < s'.iP

lemma Inv.semicolonCase (h : Inv a n s) (ha : Terminated a n) (hin : s.iP < n) :
    Turns a n s (semicolonCase a s) := by
  have hlen := ha.length
  obtain ⟨s₁, hput, hs₁⟩ := h.put ha
  obtain ⟨q, d, hskip, hle, hqn, hd, -, hlt'⟩ := ha.skip_eq
    (by decide : isCharInSet delSet 0 = false) (by omega : s₁.iP + 1 ≤ n)
    (by omega : n ≤ s₁.iP + 1 + a.length)
  simp only [Cookies.semicolonCase, hput, hskip, hd, Option.bind_eq_bind, Option.bind_some]
  by_cases h0 : d = 0
  · rw [if_pos h0]
    exact .inl ⟨_, rfl⟩
  · rw [if_neg h0]
    refine .inr ⟨_, rfl, ⟨hlt' h0, by simp⟩, ?_⟩
    simp only
    omega

lemma Inv.equalsCase (h : Inv a n s) (ha : Terminated a n) (hin : s.iP < n) :
    Turns a n s (equalsCase a s) := by
  have hlen := ha.length
  rw [Cookies.equalsCase]
  cases hval : s.val with
  | some v =>
      obtain ⟨hkeyend, hlt, hc⟩ := h.val v hval
      refine .inr ⟨_, rfl, ⟨hin, ?_⟩, Nat.lt_succ_self _⟩
      intro w hw
      obtain rfl := Option.some.inj hw
      exact ⟨hkeyend, Nat.lt_succ_of_lt hlt, hc⟩
  | none =>
      obtain ⟨q, d, hskip, hle, hqn, hd, hout, hlt'⟩ := ha.skip_eq
        (by decide : isCharInSet valdelSet 0 = false) hin
        (by omega : n ≤ s.iP + 1 + a.length)
      simp only [hskip, hd, Option.bind_eq_bind, Option.bind_some]
      by_cases h0 : d = 0
      · rw [if_pos h0]
        exact .inl ⟨_, rfl⟩
      · rw [if_neg h0]
        by_cases hsemi : d = semicolon
        · rw [if_pos hsemi]
          subst hsemi
          have hinv : Inv a n { s with iP := q, val := none, keyend := some s.iP } :=
            ⟨hqn, by simp⟩
          obtain hdone | ⟨s', hnext, hinv', hlt⟩ := hinv.semicolonCase ha (hlt' h0)
          · exact .inl hdone
          · exact .inr ⟨s', hnext, hinv', by simp only at hlt; omega⟩
        · rw [if_neg hsemi]
          refine .inr ⟨_, rfl, ⟨hlt' h0, ?_⟩, by simp only; omega⟩
          rintro w hw
          obtain rfl := Option.some.inj hw
          refine ⟨rfl, Nat.lt_succ_self _, d, hd, ?_⟩
          rintro rfl
          exact absurd hout (by decide)

lemma Inv.turn (h : Inv a n s) (ha : Terminated a n) : Turns a n s (turn a s) := by
  obtain ⟨c, hc, hlt⟩ := ha.exists_char h.iP
  simp only [Cookies.turn, hc, Option.bind_eq_bind, Option.bind_some]
  by_cases h0 : c = 0
  · obtain ⟨s', hput, -⟩ := h.put ha
    rw [if_pos h0, hput]
    exact .inl ⟨_, rfl⟩
  rw [if_neg h0]
  by_cases hequals : c = equals
  · rw [if_pos hequals]
    exact h.equalsCase ha (hlt h0)
  rw [if_neg hequals]
  by_cases hsemi : c = semicolon
  · rw [if_pos hsemi]
    exact h.semicolonCase ha (hlt h0)
  · rw [if_neg hsemi]
    refine .inr ⟨_, rfl, ⟨hlt h0, ?_⟩, Nat.lt_succ_self _⟩
    intro v hv
    obtain ⟨hkeyend, hlt', hc'⟩ := h.val v hv
    exact ⟨hkeyend, Nat.lt_succ_of_lt hlt', hc'⟩

/-- The loop ends in front of the NUL, or at it. -/
lemma Inv.exists_ends (h : Inv a n s) (ha : Terminated a n) : ∃ list, Ends a s list := by
  induction hk : n - s.iP using Nat.strong_induction_on generalizing s with
  | _ k ih =>
      obtain ⟨list, hdone⟩ | ⟨s', hnext, hinv, hlt⟩ := h.turn ha
      · exact ⟨list, ends_of_turn hdone⟩
      · have hiP := hinv.iP
        obtain ⟨list, hends⟩ := ih (n - s'.iP) (by omega) hinv rfl
        exact ⟨list, (reaches_of_turn hnext hlt).ends hends⟩

/-- **No text is read behind its NUL.** -/
lemma exists_parseCookies (cookieList : List Arg) {text : List UInt8} (h : 0 ∉ text) :
    ∃ list, parseCookies cookieList (text ++ [0]) = some (statusOk, list) := by
  have ha := terminated_text h
  have hlen := ha.length
  obtain ⟨key, c, hskip, -, -, hc, -, hlt⟩ := ha.skip_eq
    (by decide : isCharInSet delSet 0 = false) (Nat.zero_le _)
    (by omega : text.length ≤ 0 + (text ++ [0]).length)
  simp only [parseCookies, hskip, hc, Option.bind_eq_bind, Option.bind_some]
  by_cases h0 : c = 0
  · exact ⟨_, if_pos h0⟩
  · have hinv : Inv (text ++ [0]) text.length ⟨key + 1, key, none, none, cookieList⟩ :=
      ⟨hlt h0, by simp⟩
    obtain ⟨list, hends⟩ := hinv.exists_ends ha
    refine ⟨list, ?_⟩
    rw [if_neg h0, hends _ (Nat.le_add_left _ _)]
    rfl

/-! ## A cookie that is printed -/

/-- What is behind a cookie: the NUL, or the next cookie. -/
def tail : List Cookie → List UInt8
  | [] => [0]
  | c :: cs => semicolon :: space :: (print (c :: cs) ++ [0])

/-- What is found of a cookie that was printed, and is or is not the last one. -/
def Cookie.found (c : Cookie) (last : Bool) : List (List UInt8 × List UInt8) :=
  match c.val with
  | none => [(c.key.take (c.key.length % 2 ^ 32), [])]
  | some [] =>
    if last then [] else [((c.key ++ [equals]).take ((c.key.length + 1) % 2 ^ 32), [])]
  | some v => [(c.key.take (c.key.length % 2 ^ 32), v.take (v.length % 2 ^ 32))]

/-- What is found of a list of cookies. -/
def found : List Cookie → List (List UInt8 × List UInt8)
  | [] => []
  | c :: cs => c.found cs.isEmpty ++ found cs

lemma print_cons (c : Cookie) (cs : List Cookie) :
    print (c :: cs) ++ [0] = c.print ++ tail cs := by
  cases cs with
  | nil => simp [print, tail]
  | cons d cs => simp [print, tail, List.intercalate]

lemma print_ne_key (c : Cookie) : ∃ x t, c.print = x :: t ∧ IsCookieChar x := by
  obtain ⟨x, t, hkey⟩ := List.exists_cons_of_ne_nil c.key_ne
  have hx := c.key_char x (hkey ▸ List.mem_cons_self)
  rw [Cookie.print]
  cases c.val with
  | none => exact ⟨x, t, hkey, hx⟩
  | some v => exact ⟨x, t ++ equals :: v, by simp [hkey], hx⟩

/-- The next characters are skipped, and the one behind them is not. -/
lemma skip_append {set pre r : List UInt8} {c : UInt8} {fuel p : ℕ} (h : a.drop p = pre ++ c :: r)
    (hpre : ∀ d ∈ pre, isCharInSet set d = true) (hc : isCharInSet set c = false)
    (hfuel : pre.length ≤ fuel) : skip a set fuel p = some (p + pre.length) := by
  induction pre generalizing p fuel with
  | nil =>
      unfold skip
      simp [(drop_eq_cons_iff.mp h).1, hc]
  | cons d pre ih =>
      obtain ⟨hget, hdrop⟩ := drop_eq_cons_iff.mp h
      have hd := hpre d List.mem_cons_self
      rw [List.length_cons] at hfuel
      obtain ⟨fuel, rfl⟩ : ∃ f, fuel = f + 1 := ⟨fuel - 1, by omega⟩
      have hrest := ih hdrop (fun e he => hpre e (List.mem_cons_of_mem _ he))
        (by omega : pre.length ≤ fuel)
      simp only [skip, hget, hd, Option.bind_eq_bind, Option.bind_some, if_true]
      rw [hrest, List.length_cons, Nat.add_assoc, Nat.add_comm 1]

lemma skip_none {set r : List UInt8} {c : UInt8} {fuel p : ℕ} (h : a.drop p = c :: r)
    (hc : isCharInSet set c = false) : skip a set fuel p = some p :=
  skip_append (h : _ = [] ++ c :: r) (fun _ hd => absurd hd List.not_mem_nil) hc (Nat.zero_le _)

/-- Characters that are no delimiters. -/
lemma reaches_chars {t r : List UInt8} (h : a.drop s.iP = t ++ r) (ht : ∀ c ∈ t, IsCookieChar c) :
    Reaches a s { s with iP := s.iP + t.length } := by
  induction t generalizing s with
  | nil => exact .refl s
  | cons c t ih =>
      obtain ⟨h0, hset⟩ := ht c List.mem_cons_self
      obtain ⟨hget, hdrop⟩ := drop_eq_cons_iff.mp h
      have hequals : c ≠ equals := by
        rintro rfl
        exact absurd hset (by decide)
      have hsemi : c ≠ semicolon := by
        rintro rfl
        exact absurd hset (by decide)
      have hturn : turn a s = some (.turn { s with iP := s.iP + 1 }) := by
        simp only [turn, hget, Option.bind_eq_bind, Option.bind_some, if_neg h0, if_neg hequals,
          if_neg hsemi]
      have hrest := ih (s := { s with iP := s.iP + 1 }) hdrop
        fun d hd => ht d (List.mem_cons_of_mem _ hd)
      have hadd : s.iP + 1 + t.length = s.iP + (t.length + 1) := by omega
      simp only [hadd] at hrest
      exact (reaches_of_turn hturn (Nat.lt_succ_self _)).trans hrest

/-- The start of a cookie. -/
structure At (a : List UInt8) (s : State) (cs : List Cookie) : Prop where
  iP : s.iP = s.key + 1
  val : s.val = none
  text : a.drop s.key = print cs ++ [0]
  ne_nil : cs ≠ []

/-- What is behind a cookie: the loop ends, or the next cookie is read. -/
def Leads (a : List UInt8) (s : State) (cs : List Cookie) (new : List Arg) : Prop :=
  (cs = [] ∧ Ends a s (s.list ++ new)) ∨
    ∃ s', Reaches a s s' ∧ At a s' cs ∧ s'.list = s.list ++ new

lemma Leads.of_reaches {cs : List Cookie} {new : List Arg} (h : Reaches a s s')
    (hlist : s'.list = s.list) (h' : Leads a s' cs new) : Leads a s cs new := by
  obtain ⟨hnil, hends⟩ | ⟨s'', hreaches, hat, hlist'⟩ := h'
  · exact .inl ⟨hnil, hlist ▸ h.ends hends⟩
  · exact .inr ⟨s'', h.trans hreaches, hat, hlist ▸ hlist'⟩

/-- The next cookie begins behind `; `. -/
lemma semicolonCase_eq {c : Cookie} {cs : List Cookie} (h : a.drop s.iP = tail (c :: cs))
    (hput : s.put a = some s') (hiP : s'.iP = s.iP) :
    semicolonCase a s = some (.turn
        { s' with iP := s.iP + 3, key := s.iP + 2, val := none, keyend := none }) ∧
      a.drop (s.iP + 2) = print (c :: cs) ++ [0] := by
  obtain ⟨-, hdrop⟩ := drop_eq_cons_iff.mp h
  obtain ⟨-, hnext⟩ := drop_eq_cons_iff.mp hdrop
  obtain ⟨x, t, hx, h0, hset⟩ := print_ne_key c
  have hprint : print (c :: cs) ++ [0] = x :: (t ++ tail cs) := by
    rw [print_cons, hx, List.cons_append]
  obtain ⟨hget, -⟩ := drop_eq_cons_iff.mp (hnext.trans hprint)
  have hpos : 1 ≤ a.length := by
    have := (List.getElem?_eq_some_iff.mp hget).1
    omega
  have hspace : ∀ d ∈ [space], isCharInSet delSet d = true := by simp [isCharInSet, delSet]
  have hskip : skip a delSet a.length (s.iP + 1) = some (s.iP + 2) :=
    skip_append (hprint ▸ hdrop : _ = [space] ++ x :: (t ++ tail cs)) hspace hset hpos
  refine ⟨?_, hnext⟩
  simp only [semicolonCase, hput, hiP, hskip, hget, Option.bind_eq_bind, Option.bind_some,
    if_neg h0]

lemma turn_semicolon (h : a[s.iP]? = some semicolon) : turn a s = semicolonCase a s := by
  have hne : ¬ semicolon = 0 ∧ ¬ semicolon = equals := by decide
  simp only [turn, h, Option.bind_eq_bind, Option.bind_some, if_neg hne.1, if_neg hne.2, if_true]

lemma turn_equals (h : a[s.iP]? = some equals) : turn a s = equalsCase a s := by
  have hne : ¬ equals = 0 := by decide
  simp only [turn, h, Option.bind_eq_bind, Option.bind_some, if_neg hne, if_true]

/-- What is put into the list at the end of a cookie. -/
lemma leads_of_put {cs : List Cookie} {arg : Arg} (h : a.drop s.iP = tail cs)
    (hput : s.put a = some { s with list := s.list ++ [arg] }) : Leads a s cs [arg] := by
  cases cs with
  | nil =>
      have hget := (drop_eq_cons_iff.mp h).1
      refine .inl ⟨rfl, ends_of_turn ?_⟩
      simp only [turn, hget, hput, Option.bind_eq_bind, Option.bind_some, Option.map_some, if_true]
  | cons c cs =>
      have hget := (drop_eq_cons_iff.mp h).1
      obtain ⟨hcase, hnext⟩ := semicolonCase_eq h hput rfl
      have hturn := (turn_semicolon hget).trans hcase
      exact .inr ⟨_, reaches_of_turn hturn (by simp), ⟨rfl, rfl, hnext, by simp⟩, rfl⟩

/-- The key is read, up to what is behind it. -/
lemma reaches_key {c : Cookie} {r : List UInt8} (hiP : s.iP = s.key + 1)
    (h : a.drop s.key = c.key ++ r) :
    Reaches a s { s with iP := s.key + c.key.length } ∧ a.drop (s.key + c.key.length) = r := by
  refine ⟨?_, by rw [← List.drop_drop, h, List.drop_left]⟩
  obtain ⟨x, t, hkey⟩ := List.exists_cons_of_ne_nil c.key_ne
  have hdrop : a.drop s.iP = t ++ r := by
    rw [hiP, ← List.drop_drop, h, hkey]
    rfl
  have hreaches := reaches_chars hdrop fun d hd =>
    c.key_char d (hkey ▸ List.mem_cons_of_mem _ hd)
  have hadd : s.iP + t.length = s.key + c.key.length := by
    rw [hiP, hkey, List.length_cons]
    omega
  rwa [hadd] at hreaches

lemma take_front (t r : List UInt8) {n : ℕ} (h : n ≤ t.length) : (t ++ r).take n = t.take n :=
  List.take_append_of_le_length h

lemma bytes_key (p keyLen : ℕ) :
    Arg.bytes a ⟨some p, keyLen, none, 0⟩ = ((a.drop p).take keyLen, []) := rfl

lemma bytes_val (p keyLen q valLen : ℕ) :
    Arg.bytes a ⟨some p, keyLen, some q, valLen⟩ =
      ((a.drop p).take keyLen, (a.drop q).take valLen) := rfl

/-- A key without a value. -/
lemma leads_key {c : Cookie} {cs : List Cookie} (h : At a s (c :: cs)) (hc : c.val = none) :
    ∃ new, Leads a s cs new ∧ new.map (Arg.bytes a) = c.found cs.isEmpty := by
  have htext : a.drop s.key = c.key ++ tail cs := by
    rw [h.text, print_cons, Cookie.print, hc]
  obtain ⟨hreaches, hdrop⟩ := reaches_key h.iP htext
  have hput : State.put a { s with iP := s.key + c.key.length } =
      some { s with
        iP := s.key + c.key.length
        list := s.list ++ [⟨some s.key, c.key.length % 2 ^ 32, none, 0⟩] } := by
    simp only [State.put, h.val, Nat.add_sub_cancel_left]
  refine ⟨_, .of_reaches hreaches rfl (leads_of_put hdrop hput), ?_⟩
  have htake := take_front c.key (tail cs) (Nat.mod_le _ (2 ^ 32))
  rw [List.map_singleton, bytes_key, htext, htake, Cookie.found, hc]

/-- A key with an empty value: it is left out, or the `=` is a part of it. -/
lemma leads_empty {c : Cookie} {cs : List Cookie} (h : At a s (c :: cs)) (hc : c.val = some []) :
    ∃ new, Leads a s cs new ∧ new.map (Arg.bytes a) = c.found cs.isEmpty := by
  have htext : a.drop s.key = c.key ++ equals :: tail cs := by
    rw [h.text, print_cons, Cookie.print, hc]
    simp
  obtain ⟨hreaches, hdrop⟩ := reaches_key h.iP htext
  obtain ⟨hget, hbehind⟩ := drop_eq_cons_iff.mp hdrop
  have hskip : skip a valdelSet a.length (s.key + c.key.length + 1) =
      some (s.key + c.key.length + 1) := by
    cases cs with
    | nil => exact skip_none hbehind (by decide)
    | cons d cs => exact skip_none hbehind (by decide)
  cases cs with
  | nil =>
      have hnul := (drop_eq_cons_iff.mp hbehind).1
      have hturn : turn a { s with iP := s.key + c.key.length } = some (.done s.list) := by
        rw [turn_equals hget]
        simp only [equalsCase, h.val, hskip, hnul, Option.bind_eq_bind, Option.bind_some, if_true]
      refine ⟨[], .of_reaches hreaches rfl (.inl ⟨rfl, ?_⟩), by simp [Cookie.found, hc]⟩
      rw [List.append_nil]
      exact ends_of_turn hturn
  | cons d cs =>
      have hsemi := (drop_eq_cons_iff.mp hbehind).1
      have hput : State.put a { s with
          iP := s.key + c.key.length + 1, val := none, keyend := some (s.key + c.key.length) } =
          some ⟨s.key + c.key.length + 1, s.key, none, some (s.key + c.key.length),
            s.list ++ [⟨some s.key, (c.key.length + 1) % 2 ^ 32, none, 0⟩]⟩ := by
        simp only [State.put, Nat.add_assoc, Nat.add_sub_cancel_left]
      obtain ⟨hcase, hnext⟩ := semicolonCase_eq hbehind hput rfl
      have hne : ¬ semicolon = 0 := by decide
      have hequals : equalsCase a { s with iP := s.key + c.key.length } =
          semicolonCase a { s with
            iP := s.key + c.key.length + 1
            val := none
            keyend := some (s.key + c.key.length) } := by
        simp only [equalsCase, h.val, hskip, hsemi, Option.bind_eq_bind, Option.bind_some,
          if_neg hne, if_true]
      have hturn := (turn_equals hget).trans (hequals.trans hcase)
      refine ⟨_, .of_reaches hreaches rfl (.inr ⟨_, reaches_of_turn hturn (by simp; omega),
        ⟨rfl, rfl, hnext, by simp⟩, rfl⟩), ?_⟩
      have htake : ((c.key ++ [equals]) ++ tail (d :: cs)).take ((c.key.length + 1) % 2 ^ 32) =
          (c.key ++ [equals]).take ((c.key.length + 1) % 2 ^ 32) := by
        refine take_front _ _ ?_
        rw [List.length_append]
        exact Nat.mod_le _ _
      rw [List.append_assoc, List.singleton_append] at htake
      rw [List.map_singleton, bytes_key, htext, htake, Cookie.found, hc]
      rfl

/-- There are no spaces behind the value. -/
lemma trim_eq {p : ℕ} {c : UInt8} (h : a[p]? = some c) (hc : c ≠ space) (len : ℤ) :
    trim a (p + 1) len = some len := by
  rw [trim]
  by_cases hlen : len = 0
  · rw [if_pos hlen, hlen]
  · simp [hlen, h, hc]

/-- A value is read up to what is behind it. -/
lemma leads_val {cs : List Cookie} {x : UInt8} {v : List UInt8} {e p : ℕ} (hiP : s.iP = p + 1)
    (hval : s.val = some p) (hend : s.keyend = some e) (htext : a.drop p = x :: v ++ tail cs)
    (hchar : ∀ d ∈ x :: v, IsCookieChar d) :
    Leads a s cs [⟨some s.key, (e - s.key) % 2 ^ 32, some p, (v.length + 1) % 2 ^ 32⟩] := by
  obtain ⟨-, hrest⟩ := drop_eq_cons_iff.mp htext
  have hreaches := reaches_chars (hiP ▸ hrest : a.drop s.iP = v ++ tail cs)
    fun d hd => hchar d (List.mem_cons_of_mem _ hd)
  have hadd : s.iP + v.length = p + v.length + 1 := by omega
  rw [hadd] at hreaches
  have hdone : a.drop (p + v.length + 1) = tail cs := by
    rw [Nat.add_assoc, ← List.drop_drop, htext]
    exact List.drop_left
  -- the last character of the value is not a space
  have hlt : v.length < (x :: v).length := Nat.lt_succ_self _
  have hlast : a[p + v.length]? = (x :: v)[v.length]? := by
    rw [← List.getElem?_drop, htext, List.getElem?_append_left hlt]
  rw [List.getElem?_eq_getElem hlt] at hlast
  have hspace : (x :: v)[v.length] ≠ space := by
    intro hspace
    have hin := (hchar _ (List.getElem_mem hlt)).2
    rw [hspace] at hin
    exact absurd hin (by decide)
  have hput : State.put a { s with iP := p + v.length + 1 } = some { s with
      iP := p + v.length + 1
      list := s.list ++
        [⟨some s.key, (e - s.key) % 2 ^ 32, some p, (v.length + 1) % 2 ^ 32⟩] } := by
    have hlen : p + v.length + 1 - p = v.length + 1 := by omega
    simp only [State.put, hval, hend, trim_eq hlast hspace, hlen, toUInt32_toInt32,
      Option.bind_eq_bind, Option.bind_some]
  exact .of_reaches hreaches rfl (leads_of_put hdone hput)

/-- A key with a value. -/
lemma leads_value {c : Cookie} {cs : List Cookie} (h : At a s (c :: cs)) {x : UInt8}
    {v : List UInt8} (hc : c.val = some (x :: v)) :
    ∃ new, Leads a s cs new ∧ new.map (Arg.bytes a) = c.found cs.isEmpty := by
  have htext : a.drop s.key = c.key ++ equals :: (x :: v ++ tail cs) := by
    rw [h.text, print_cons, Cookie.print, hc]
    simp
  obtain ⟨hreaches, hdrop⟩ := reaches_key h.iP htext
  obtain ⟨hget, hval⟩ := drop_eq_cons_iff.mp hdrop
  obtain ⟨hfirst, -⟩ := drop_eq_cons_iff.mp hval
  have hchar := c.val_char _ hc
  obtain ⟨h0, hset⟩ := hchar x List.mem_cons_self
  have hvalset : isCharInSet valdelSet x = false := by
    simp [isCharInSet, delSet, valdelSet] at hset ⊢
    tauto
  have hsemi : x ≠ semicolon := by
    rintro rfl
    exact absurd hset (by decide)
  have hskip : skip a valdelSet a.length (s.key + c.key.length + 1) =
      some (s.key + c.key.length + 1) := skip_none hval hvalset
  have hturn : turn a { s with iP := s.key + c.key.length } = some (.turn { s with
      iP := s.key + c.key.length + 1 + 1
      keyend := some (s.key + c.key.length)
      val := some (s.key + c.key.length + 1) }) := by
    rw [turn_equals hget]
    simp only [equalsCase, h.val, hskip, hfirst, Option.bind_eq_bind, Option.bind_some,
      if_neg h0, if_neg hsemi]
  have hreaches' := hreaches.trans (reaches_of_turn hturn (by simp only; omega))
  refine ⟨_, .of_reaches hreaches' rfl (leads_val rfl rfl rfl hval hchar), ?_⟩
  have hkey := take_front c.key (equals :: (x :: v ++ tail cs)) (Nat.mod_le _ (2 ^ 32))
  have hlen := take_front (x :: v) (tail cs) (Nat.mod_le _ (2 ^ 32))
  rw [List.length_cons] at hlen
  rw [List.map_singleton, bytes_val, htext, hval, Nat.add_sub_cancel_left, hkey, hlen,
    Cookie.found, hc]
  rfl

/-- **A cookie is read.** -/
lemma leads_cookie {c : Cookie} {cs : List Cookie} (h : At a s (c :: cs)) :
    ∃ new, Leads a s cs new ∧ new.map (Arg.bytes a) = c.found cs.isEmpty := by
  cases hc : c.val with
  | none => exact leads_key h hc
  | some v =>
      cases v with
      | nil => exact leads_empty h hc
      | cons x v => exact leads_value h hc

/-- **All cookies are read.** -/
lemma ends_cookies {cs : List Cookie} (h : At a s cs) :
    ∃ new, Ends a s (s.list ++ new) ∧ new.map (Arg.bytes a) = found cs := by
  induction cs generalizing s with
  | nil => exact absurd rfl h.ne_nil
  | cons c cs ih =>
      obtain ⟨new, hleads, hnew⟩ := leads_cookie h
      obtain ⟨rfl, hends⟩ | ⟨s', hreaches, hat, hlist⟩ := hleads
      · exact ⟨new, hends, by rw [hnew, found, found, List.append_nil]⟩
      · obtain ⟨rest, hends, hrest⟩ := ih hat
        refine ⟨new ++ rest, ?_, by rw [List.map_append, hnew, hrest, found]⟩
        rw [← List.append_assoc, ← hlist]
        exact hreaches.ends hends

/-- What is found when the cookies are printed. -/
lemma parseCookies_print (cookieList : List Arg) (cookies : List Cookie) :
    ∃ new, parseCookies cookieList (print cookies ++ [0]) = some (statusOk, cookieList ++ new) ∧
      new.map (Arg.bytes (print cookies ++ [0])) = found cookies := by
  cases cookies with
  | nil => exact ⟨[], by rw [List.append_nil]; rfl, rfl⟩
  | cons c cs =>
      obtain ⟨x, t, hx, h0, hset⟩ := print_ne_key c
      have hprint : print (c :: cs) ++ [0] = x :: (t ++ tail cs) := by
        rw [print_cons, hx, List.cons_append]
      have hskip : skip (print (c :: cs) ++ [0]) delSet (print (c :: cs) ++ [0]).length 0 =
          some 0 := skip_none hprint hset
      have hget : (print (c :: cs) ++ [0])[0]? = some x := by rw [hprint]; rfl
      have hat : At (print (c :: cs) ++ [0]) ⟨0 + 1, 0, none, none, cookieList⟩ (c :: cs) :=
        ⟨rfl, rfl, rfl, List.cons_ne_nil _ _⟩
      obtain ⟨new, hends, hnew⟩ := ends_cookies hat
      refine ⟨new, ?_, hnew⟩
      simp only [parseCookies, hskip, hget, Option.bind_eq_bind, Option.bind_some, if_neg h0]
      rw [hends _ (Nat.le_add_left _ _)]
      rfl

/-! ## The result -/

/-- A length that has more than 32 bits is cut. -/
lemma take_mod_eq_iff (t : List UInt8) : t.take (t.length % 2 ^ 32) = t ↔ t.length < 2 ^ 32 := by
  rw [List.take_eq_self_iff]
  omega

/-- The `=` is a part of the key, or it is cut. -/
lemma take_equals_ne (t : List UInt8) :
    (t ++ [equals]).take ((t.length + 1) % 2 ^ 32) ≠ t := by
  intro heq
  have hlen := congrArg List.length heq
  rw [List.length_take, List.length_append, List.length_singleton] at hlen
  omega

lemma Cookie.found_of_fits {c : Cookie} (h : c.Fits) (last : Bool) :
    c.found last = [c.meaning] := by
  obtain ⟨hne, hkey, hval⟩ := h
  have htake := (take_mod_eq_iff c.key).mpr hkey
  rw [Cookie.found, Cookie.meaning]
  cases hc : c.val with
  | none => simp only [htake, Option.getD_none]
  | some v =>
      cases v with
      | nil => exact absurd hc hne
      | cons x v =>
          have htake' := (take_mod_eq_iff (x :: v)).mpr (hval _ hc)
          simp only [htake, htake', Option.getD_some]

lemma Cookie.found_of_not_fits {c : Cookie} (h : ¬ c.Fits) (last : Bool) :
    (last = true ∧ c.found last = []) ∨ ∃ e, c.found last = [e] ∧ e ≠ c.meaning := by
  have hcut : c.key.length < 2 ^ 32 ∨ c.key.take (c.key.length % 2 ^ 32) ≠ c.key :=
    (em _).imp_right fun hlen heq => hlen ((take_mod_eq_iff c.key).mp heq)
  rw [Cookie.found, Cookie.meaning]
  cases hc : c.val with
  | none =>
      obtain hkey | hkey := hcut
      · exact absurd ⟨by simp [hc], hkey, by simp [hc]⟩ h
      · exact .inr ⟨_, rfl, fun heq => hkey (congrArg Prod.fst heq)⟩
  | some v =>
      cases v with
      | nil =>
          cases last with
          | true => exact .inl ⟨rfl, rfl⟩
          | false =>
              exact .inr ⟨_, rfl, fun heq => take_equals_ne c.key (congrArg Prod.fst heq)⟩
      | cons x v =>
          refine .inr ⟨_, rfl, ?_⟩
          intro heq
          obtain hkey | hkey := hcut
          · have hval := (take_mod_eq_iff (x :: v)).mp (congrArg Prod.snd heq)
            refine h ⟨by simp [hc], hkey, ?_⟩
            intro w hw
            obtain rfl := Option.some.inj (hc.symm.trans hw)
            exact hval
          · exact hkey (congrArg Prod.fst heq)

lemma found_eq_iff (cookies : List Cookie) :
    found cookies = cookies.map Cookie.meaning ↔ ∀ c ∈ cookies, c.Fits := by
  induction cookies with
  | nil => simp [found]
  | cons c cs ih =>
      rw [found, List.map_cons, List.forall_mem_cons]
      by_cases hfits : c.Fits
      · rw [Cookie.found_of_fits hfits, List.singleton_append, List.cons_inj_right, ih,
          and_iff_right hfits]
      · refine iff_of_false ?_ fun h => hfits h.1
        obtain ⟨hlast, hnone⟩ | ⟨e, hfound, hne⟩ := Cookie.found_of_not_fits hfits cs.isEmpty
        · obtain rfl := List.isEmpty_iff.mp hlast
          rw [hnone]
          intro heq
          cases heq
        · rw [hfound]
          exact fun heq => hne (List.cons.inj heq).1

/-- **The cookies are found again exactly when** none of them has an empty value, and their lengths
have 32 bits.  No text is read behind its NUL. -/
theorem cookies_iff (cookieList : List Arg) :
    (∀ cookies, RoundTrips cookieList cookies ↔ ∀ c ∈ cookies, c.Fits) ∧
      ∀ text, 0 ∉ text →
        ∃ list, parseCookies cookieList (text ++ [0]) = some (statusOk, list) := by
  refine ⟨?_, fun text h => exists_parseCookies cookieList h⟩
  intro cookies
  obtain ⟨new, hparse, hnew⟩ := parseCookies_print cookieList cookies
  rw [← found_eq_iff, RoundTrips]
  constructor
  · rintro ⟨new', hparse', hnew'⟩
    rw [hparse] at hparse'
    obtain rfl : new = new' :=
      List.append_cancel_left (congrArg Prod.snd (Option.some.inj hparse'))
    exact hnew.symm.trans hnew'
  · exact fun heq => ⟨new, hparse, hnew.trans heq⟩

/-- The cookie `a=`. -/
def emptyValue : Cookie :=
  ⟨[97], some [], by simp, by simp [IsCookieChar, isCharInSet, delSet, equals, semicolon, space],
    by simp⟩

/-- **A cookie with an empty value is left out** at the end of the list. -/
theorem empty_value_lost : ¬ RoundTrips [] [emptyValue] := by
  rintro ⟨new, hparse, hnew⟩
  have heq : parseCookies [] (print [emptyValue] ++ [0]) = some (statusOk, []) := by decide +kernel
  rw [heq] at hparse
  obtain rfl : [] = new := congrArg Prod.snd (Option.some.inj hparse)
  cases hnew

end Cookies

end Is2
