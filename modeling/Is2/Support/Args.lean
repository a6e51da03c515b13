import Is2.Core.Lists
import Is2.Core.Segments
import Is2.Support.UrlDecode

/-!
# `parse_args`

A query string is cut into keys and values in one pass: each of them is copied to the front of a
scratch buffer, or behind the key that is there, and decoded from there.

**Model.**  The text, the scratch buffer and what `urldecode_ns` allocates are lists of bytes; an
index outside of them is undefined (`none`).  The indices have 32 bits.  What is in `l_arg` and in
the scratch buffer before they are written is a parameter (`Junk`).

The result is what the parts of the text stand for, and the number of invalid `%` in them, unless
the text is empty and something was counted before, or the size of the scratch buffer wraps around:
`argsLaw_iff`.
-/

namespace Is2

namespace Args

open Percent UrlDecode Segments

/-! ## The code -/

/-- `=` -/
abbrev equals : UInt8 := 61

/-- `mutable_arg_t` -/
structure MutableArg where
  key : Option (List UInt8)
  keyLen : ℕ
  val : Option (List UInt8)
  valLen : ℕ
deriving DecidableEq

/-- `mutable_arg_t::clear` -/
def MutableArg.clear : MutableArg := ⟨none, 0, none, 0⟩

/-- What is in memory that is not initialised: in `l_arg`, and in what `malloc` returns. -/
structure Junk where
  arg : MutableArg
  scratch : ℕ → UInt8

/-- A new scratch buffer. -/
def Junk.buf (junk : Junk) (n : ℕ) : List UInt8 := (List.range n).map junk.scratch

@[simp] lemma Junk.length_buf (junk : Junk) (n : ℕ) : (junk.buf n).length = n := by
  simp [Junk.buf]

/-- The variables of `parse_args`. -/
structure State where
  buf : List UInt8
  iChar : ℕ
  wOff : ℕ
  status : ℕ
  val : Option ℕ
  arg : MutableArg
  invalid : UInt32
  list : List MutableArg
deriving DecidableEq

/-- `l_buf[i_w_off] = c` and `++i_w_off` -/
def State.store (s : State) (c : UInt8) : Option State :=
  if s.wOff < s.buf.length then
    some { s with buf := s.buf.set s.wOff c, wOff := (s.wOff + 1) % 2 ^ 32 }
  else none

/-- `++i_char` -/
def State.next (s : State) : State := { s with iChar := (s.iChar + 1) % 2 ^ 32 }

/-- The loops that copy up to some character. -/
def copy (a : List UInt8) (stop : UInt8 → Bool) : ℕ → State → Option State
  | fuel, s =>
    match a[s.iChar]? with
    | none => some s
    | some c =>
      if stop c then some s
      else
        match fuel with
        | 0 => none
        | fuel + 1 => (s.store c).bind fun s => copy a stop fuel s.next

/-- The value is set, and the argument is put into the list. -/
def State.push (s : State) (val : Option (List UInt8)) (valLen : ℕ) : State :=
  { s with
    list := s.list ++ [{ s.arg with val := val, valLen := valLen }]
    arg := .clear
    status := 0
    wOff := 0 }

/-- A parameter name. -/
def keyPart (a : List UInt8) (sep : UInt8) (s : State) : Option State := do
  let keyOff := s.iChar
  let s ← copy a (fun c => c = equals || c = sep) a.length s
  let s ← s.store 0
  let keyOrigLen := s.iChar - keyOff
  let arg := if keyOrigLen = 0 then { s.arg with key := none, keyLen := 0 } else s.arg
  let (_, out) ← urldecodeNs ⟨arg.key, arg.keyLen, s.invalid⟩ (some s.buf) keyOrigLen
  let s := { s with arg := { arg with key := out.buf, keyLen := out.len }, invalid := out.invalid }
  if a[s.iChar]? = some sep then some (s.push none 0)
  else some { s with status := 1, val := some s.wOff }

/-- A parameter value. -/
def valPart (a : List UInt8) (sep : UInt8) (s : State) : Option State := do
  let valOff := s.iChar
  let s ← copy a (fun c => c = sep) a.length s
  let s ← s.store 0
  let valOrigLen := s.iChar - valOff
  match s.val with
  | none => some (s.push none 0)
  | some val =>
    if valOrigLen = 0 then some (s.push none 0)
    else do
      let (_, out) ← urldecodeNs ⟨s.arg.val, s.arg.valLen, s.invalid⟩ (some (s.buf.drop val))
        valOrigLen
      some { s.push out.buf out.len with invalid := out.invalid }

/-- A turn of the loop. -/
def turn (a : List UInt8) (sep : UInt8) (s : State) : Option State :=
  if a[s.iChar]? = some sep ∧ s.status = 0 then some s.next
  else if s.status = 0 then (keyPart a sep s).map State.next
  else (valPart a sep s).map State.next

/-- The loop; a turn does at least one character. -/
def loop (a : List UInt8) (sep : UInt8) : ℕ → State → Option State
  | 0, s => if s.iChar < a.length then none else some s
  | fuel + 1, s => if s.iChar < a.length then (turn a sep s).bind (loop a sep fuel) else some s

/-- The last parameter, if it has no value. -/
def State.finish (s : State) : State := if s.status = 1 then s.push none 0 else s

/-- `parse_args`: the status, `ao_arg_list` and `ao_invalid_cnt`. -/
def parseArgs (junk : Junk) (argList : List MutableArg) (invalidCnt : UInt32)
    (buf : Option (List UInt8)) (sep : UInt8) : Option (ℤ × List MutableArg × UInt32) :=
  match buf with
  | none => some (statusOk, argList, invalidCnt)
  | some a =>
    if a.length = 0 then some (statusOk, argList, invalidCnt)
    else do
      let s ← loop a sep a.length
        ⟨junk.buf ((a.length + 1) % 2 ^ 32), 0, 0, 0, none, junk.arg, 0, argList⟩
      some (statusOk, s.finish.list, s.finish.invalid)

/-! ## What is asked for -/

/-- The bytes of an argument. -/
def MutableArg.bytes (arg : MutableArg) : List UInt8 × List UInt8 :=
  ((arg.key.getD []).take arg.keyLen, (arg.val.getD []).take arg.valLen)

/-- The part of a segment in front of its first `=`. -/
def keyOf (seg : List UInt8) : List UInt8 := seg.takeWhile (· ≠ equals)

/-- The part behind it. -/
def valOf (seg : List UInt8) : List UInt8 := (seg.dropWhile (· ≠ equals)).drop 1

/-- **The arguments in a text.** -/
def expected (sep : UInt8) (a : List UInt8) : List (List UInt8 × List UInt8) :=
  (segments sep a).map fun seg => (decode (keyOf seg), decode (valOf seg))

/-- The number of invalid `%` in the keys and in the values. -/
def expectedInvalid (sep : UInt8) (a : List UInt8) : ℕ :=
  ((segments sep a).map fun seg => invalid (keyOf seg) + invalid (valOf seg)).sum

/-- **All arguments of the text are put into the list**, and what is invalid is counted. -/
def ArgsLaw (junk : Junk) (argList : List MutableArg) (invalidCnt : UInt32)
    (a : List UInt8) (sep : UInt8) : Prop :=
  ∃ new cnt, parseArgs junk argList invalidCnt (some a) sep = some (statusOk, argList ++ new, cnt) ∧
    new.map MutableArg.bytes = expected sep a ∧ cnt.toNat = expectedInvalid sep a

/-- The text is not empty, or nothing was counted before; and the size of the scratch buffer fits
into 32 bits, or there are only separators. -/
def ArgsOk (invalidCnt : UInt32) (a : List UInt8) (sep : UInt8) : Prop :=
  (a ≠ [] ∨ invalidCnt = 0) ∧ (a.length + 1 < 2 ^ 32 ∨ ∀ c ∈ a, c = sep)

/-! ## Copying -/

variable {a : List UInt8} {sep : UInt8} {s : State}

/-- What is written is behind what was written before. -/
lemma store_eq (h : s.wOff < s.buf.length) (hsize : s.buf.length < 2 ^ 32) (c : UInt8) :
    ∃ b, s.store c = some { s with buf := b, wOff := s.wOff + 1 } ∧ b.length = s.buf.length ∧
      b.take (s.wOff + 1) = s.buf.take s.wOff ++ [c] := by
  refine ⟨s.buf.set s.wOff c, ?_, List.length_set, ?_⟩
  · rw [State.store, if_pos h, Nat.mod_eq_of_lt (by omega)]
  · rw [List.take_succ_eq_append_getElem (by rwa [List.length_set]), List.getElem_set_self,
      List.take_set_of_le le_rfl]

/-- Everything is copied up to the character that stops it. -/
lemma copy_eq {stop : UInt8 → Bool} {fuel : ℕ} {p : List UInt8}
    (hp : (a.drop s.iChar).takeWhile (fun c => !stop c) = p) (hfuel : p.length ≤ fuel)
    (hroom : s.wOff + p.length ≤ s.buf.length) (hsize : s.buf.length < 2 ^ 32)
    (hlen : a.length < 2 ^ 32) :
    ∃ b, copy a stop fuel s =
        some { s with buf := b, iChar := s.iChar + p.length, wOff := s.wOff + p.length } ∧
      b.length = s.buf.length ∧ b.take (s.wOff + p.length) = s.buf.take s.wOff ++ p := by
  induction p generalizing s fuel with
  | nil =>
      refine ⟨s.buf, ?_, rfl, by simp⟩
      unfold copy
      cases hc : a[s.iChar]? with
      | none => rfl
      | some c =>
          have hstop : stop c = true := by
            by_contra hstop
            rw [drop_eq_cons_iff.mpr ⟨hc, rfl⟩,
              List.takeWhile_cons_of_pos (by simpa using hstop)] at hp
            cases hp
          simp [hstop]
  | cons c p ih =>
      obtain ⟨hc, hstop, hrest⟩ : a[s.iChar]? = some c ∧ stop c = false ∧
          (a.drop (s.iChar + 1)).takeWhile (fun c => !stop c) = p := by
        cases hc : a[s.iChar]? with
        | none =>
            rw [List.drop_of_length_le (List.getElem?_eq_none_iff.mp hc)] at hp
            cases hp
        | some d =>
            rw [drop_eq_cons_iff.mpr ⟨hc, rfl⟩, List.takeWhile_cons] at hp
            cases hd : stop d with
            | true =>
                rw [hd] at hp
                cases hp
            | false =>
                rw [hd] at hp
                obtain ⟨rfl, hrest⟩ := List.cons.inj hp
                exact ⟨rfl, hd, hrest⟩
      rw [List.length_cons] at hfuel hroom
      have hlt := (List.getElem?_eq_some_iff.mp hc).1
      obtain ⟨fuel, rfl⟩ : ∃ f, fuel = f + 1 := ⟨fuel - 1, by omega⟩
      obtain ⟨b, hstore, hb, htake⟩ := store_eq (s := s) (by omega) hsize c
      have hnext : State.next { s with buf := b, wOff := s.wOff + 1 } =
          { s with buf := b, iChar := s.iChar + 1, wOff := s.wOff + 1 } := by
        rw [State.next, Nat.mod_eq_of_lt (by simp only; omega)]
      obtain ⟨b', hcopy, hb', htake'⟩ := ih
        (s := { s with buf := b, iChar := s.iChar + 1, wOff := s.wOff + 1 }) hrest
        (by omega : p.length ≤ fuel) (by simp only; omega) (by simp only; omega)
      have hadd : ∀ n, n + 1 + p.length = n + (p.length + 1) := by omega
      simp only [hadd] at hcopy htake'
      refine ⟨b', ?_, hb'.trans hb, ?_⟩
      · unfold copy
        simp only [hc, hstop, hstore, Option.bind_some, hnext]
        exact hcopy
      · rw [List.length_cons, htake', htake, List.append_assoc, List.singleton_append]

/-- The start of a segment: no key was read, and nothing is in the scratch buffer. -/
structure Start (a : List UInt8) (s : State) : Prop where
  status : s.status = 0
  wOff : s.wOff = 0
  room : s.buf.length = a.length + 1

/-- Copying, with the NUL behind it. -/
lemma copy_store (stop : UInt8 → Bool) {p : List UInt8} (hlen : a.length + 1 < 2 ^ 32)
    (hp : (a.drop s.iChar).takeWhile (fun c => !stop c) = p)
    (hroom : s.wOff + p.length < s.buf.length) (hbuf : s.buf.length = a.length + 1) :
    ∃ b, (copy a stop a.length s).bind (State.store · 0) =
        some { s with buf := b, iChar := s.iChar + p.length, wOff := s.wOff + p.length + 1 } ∧
      b.length = a.length + 1 ∧
      b.take (s.wOff + p.length + 1) = s.buf.take s.wOff ++ p ++ [0] := by
  have hfuel : p.length ≤ a.length := by
    have hle := (List.takeWhile_prefix (fun c => !stop c) (l := a.drop s.iChar)).length_le
    rw [hp, List.length_drop] at hle
    omega
  obtain ⟨b, hcopy, hb, htake⟩ := copy_eq hp hfuel hroom.le (by omega) (by omega)
  obtain ⟨b', hstore, hb', htake'⟩ := store_eq
    (s := { s with buf := b, iChar := s.iChar + p.length, wOff := s.wOff + p.length })
    (by simp only; omega) (by simp only; omega) 0
  refine ⟨b', ?_, by simp only at hb'; omega, ?_⟩
  · rw [hcopy, Option.bind_some, hstore]
  · rw [htake', htake]

/-! ## A part of an argument -/

/-- What is in the scratch buffer is decoded; nothing is changed if there is nothing. -/
lemma decode_part (out : Out) {buf part : List UInt8}
    (hpart : buf.take (part.length + 1) = part ++ [0]) (hsize : part.length < 2 ^ 32)
    (hout : part = [] → out.buf = none) :
    ∃ st out', urldecodeNs out (some buf) part.length = some (st, out') ∧
      (out'.buf.getD []).take out'.len = decode part ∧
      out'.invalid = out.invalid + UInt32.ofNat (invalid part) := by
  by_cases hnil : part = []
  · subst hnil
    refine ⟨statusError, out, rfl, ?_, (UInt32.add_zero _).symm⟩
    rw [hout rfl]
    exact List.take_nil
  · have hpos := List.length_pos_iff.mpr hnil
    have hlen := congrArg List.length hpart
    rw [List.length_take, List.length_append, List.length_singleton] at hlen
    have hfront := take_of_concat hpart
    obtain ⟨b, hb, -, htake⟩ := urldecodeNs_eq out hpos (by omega : part.length ≤ buf.length) hsize
    rw [hfront] at hb htake
    exact ⟨_, _, hb, take_of_concat htake, rfl⟩

/-- The characters of a key. -/
def isKeyChar (sep : UInt8) (c : UInt8) : Bool := !(c = equals || c = sep)

/-- What `keyPart` leaves: the key is in the argument and in the scratch buffer. -/
structure KeyRead (a : List UInt8) (s : State) (key : List UInt8) (t : State) : Prop where
  iChar : t.iChar = s.iChar + key.length
  wOff : t.wOff = key.length + 1
  room : t.buf.length = a.length + 1
  front : t.buf.take (key.length + 1) = key ++ [0]
  bytes : (t.arg.key.getD []).take t.arg.keyLen = decode key
  invalid : t.invalid = s.invalid + UInt32.ofNat (invalid key)
  list : t.list = s.list

/-- A key is read up to `=` or up to the separator. -/
lemma keyPart_eq (hlen : a.length + 1 < 2 ^ 32) (h : Start a s) (hi : s.iChar < a.length)
    {key : List UInt8} (hkey : (a.drop s.iChar).takeWhile (isKeyChar sep) = key) :
    ∃ t, KeyRead a s key t ∧ keyPart a sep s =
      some (if a[t.iChar]? = some sep then t.push none 0
        else { t with status := 1, val := some t.wOff }) := by
  have hle : s.iChar + key.length ≤ a.length := by
    have hpre := (List.takeWhile_prefix (isKeyChar sep) (l := a.drop s.iChar)).length_le
    rw [hkey, List.length_drop] at hpre
    omega
  obtain ⟨b, hboth, hb, htake⟩ := copy_store (fun c => c = equals || c = sep) hlen hkey
    (by rw [h.wOff, h.room]; omega) h.room
  obtain ⟨s₁, hcopy, hstore⟩ := Option.bind_eq_some_iff.mp hboth
  rw [h.wOff] at hstore htake
  simp only [Nat.zero_add, List.take_zero, List.nil_append] at hstore htake
  have hsub : s.iChar + key.length - s.iChar = key.length := Nat.add_sub_cancel_left _ _
  have hnone : key = [] →
      (if key.length = 0 then { s.arg with key := none, keyLen := 0 } else s.arg).key = none := by
    rintro rfl
    rfl
  obtain ⟨st, out, hdec, hbytes, hbad⟩ := decode_part ⟨_,
    (if key.length = 0 then { s.arg with key := none, keyLen := 0 } else s.arg).keyLen,
    s.invalid⟩ htake (by omega) hnone
  refine ⟨{ s with
      buf := b
      iChar := s.iChar + key.length
      wOff := key.length + 1
      arg := { (if key.length = 0 then { s.arg with key := none, keyLen := 0 } else s.arg) with
        key := out.buf, keyLen := out.len }
      invalid := out.invalid }, ⟨rfl, rfl, hb, htake, hbytes, hbad, rfl⟩, ?_⟩
  simp only [keyPart, hcopy, hstore, hsub, hdec, Option.bind_eq_bind, Option.bind_some]
  by_cases hsep : a[s.iChar + key.length]? = some sep
  · rw [if_pos hsep, if_pos hsep]
  · rw [if_neg hsep, if_neg hsep]

/-- A value is read up to the separator. -/
lemma valPart_eq (hlen : a.length + 1 < 2 ^ 32) (hval : s.val = some s.wOff)
    (hroom : s.buf.length = a.length + 1) (hle : s.wOff ≤ s.iChar) (hi : s.iChar < a.length)
    {v : List UInt8} (hv : (a.drop s.iChar).takeWhile (fun c => !decide (c = sep)) = v) :
    ∃ t val valLen, valPart a sep s = some t ∧ Start a t ∧ t.iChar = s.iChar + v.length ∧
      t.list = s.list ++ [{ s.arg with val := val, valLen := valLen }] ∧
      (val.getD []).take valLen = decode v ∧
      t.invalid = s.invalid + UInt32.ofNat (invalid v) := by
  have hend : s.iChar + v.length ≤ a.length := by
    have hpre := (List.takeWhile_prefix (fun c => !decide (c = sep))
      (l := a.drop s.iChar)).length_le
    rw [hv, List.length_drop] at hpre
    omega
  obtain ⟨b, hboth, hb, htake⟩ := copy_store (fun c => c = sep) hlen hv (by omega) hroom
  obtain ⟨s₁, hcopy, hstore⟩ := Option.bind_eq_some_iff.mp hboth
  have hsub : s.iChar + v.length - s.iChar = v.length := Nat.add_sub_cancel_left _ _
  by_cases hnil : v = []
  · subst hnil
    refine ⟨State.push { s with buf := b, iChar := s.iChar + 0, wOff := s.wOff + 0 + 1 } none 0,
      none, 0, ?_, ⟨rfl, rfl, hb⟩, rfl, rfl, rfl, (UInt32.add_zero _).symm⟩
    simp only [List.length_nil] at hstore hsub
    simp only [valPart, hcopy, hstore, hval, hsub, Option.bind_eq_bind, Option.bind_some, if_true]
  · have hfront : (b.drop s.wOff).take (v.length + 1) = v ++ [0] := by
      have hw : (s.buf.take s.wOff).length = s.wOff := List.length_take_of_le (by omega)
      have hdrop := congrArg (List.drop s.wOff) htake
      rw [List.append_assoc, List.drop_left' hw, List.drop_take] at hdrop
      have hadd : s.wOff + v.length + 1 - s.wOff = v.length + 1 := by omega
      rwa [hadd] at hdrop
    obtain ⟨st, out, hdec, hbytes, hbad⟩ := decode_part ⟨s.arg.val, s.arg.valLen, s.invalid⟩ hfront
      (by omega) (fun h => absurd h hnil)
    have hpos : ¬ v.length = 0 := fun h => hnil (List.length_eq_zero_iff.mp h)
    refine ⟨{ State.push { s with
        buf := b
        iChar := s.iChar + v.length
        wOff := s.wOff + v.length + 1 } out.buf out.len with invalid := out.invalid },
      out.buf, out.len, ?_, ⟨rfl, rfl, hb⟩, rfl, rfl, hbytes, hbad⟩
    simp only [valPart, hcopy, hstore, hval, hsub, hdec, Option.bind_eq_bind, Option.bind_some,
      if_neg hpos]

/-! ## A segment -/

/-- The loop, and what is done behind it. -/
def run (a : List UInt8) (sep : UInt8) (fuel : ℕ) (s : State) : Option State :=
  (loop a sep fuel s).map State.finish

/-- At the end of the text. -/
lemma run_end {fuel : ℕ} (hi : a.length ≤ s.iChar) : run a sep fuel s = some s.finish := by
  cases fuel with
  | zero => rw [run, loop, if_neg (not_lt.mpr hi), Option.map_some]
  | succ fuel => rw [run, loop, if_neg (not_lt.mpr hi), Option.map_some]

lemma run_succ {fuel : ℕ} (hi : s.iChar < a.length) {t : State} (ht : turn a sep s = some t) :
    run a sep (fuel + 1) s = run a sep fuel t := by
  rw [run, loop, if_pos hi, ht, Option.bind_some, run]

/-- A separator in front of a segment. -/
lemma turn_sep (h : Start a s) (hc : a[s.iChar]? = some sep) : turn a sep s = some s.next :=
  if_pos ⟨hc, h.status⟩

lemma turn_key (h : Start a s) (hc : a[s.iChar]? ≠ some sep) :
    turn a sep s = (keyPart a sep s).map State.next := by
  rw [turn, if_neg fun h' => hc h'.1, if_pos h.status]

lemma turn_val (h : s.status = 1) : turn a sep s = (valPart a sep s).map State.next := by
  have hne : ¬ s.status = 0 := by omega
  rw [turn, if_neg fun h' => hne h'.2, if_neg hne]

lemma next_eq (hlen : s.iChar + 1 < 2 ^ 32) : s.next = { s with iChar := s.iChar + 1 } := by
  rw [State.next, Nat.mod_eq_of_lt hlen]

/-- The key of a segment ends with it, or at its first `=`. -/
lemma takeWhile_key {seg rest : List UInt8} (hmem : sep ∉ seg) (hrest : Behind sep rest) :
    (seg ++ rest).takeWhile (isKeyChar sep) = keyOf seg := by
  have hseg := takeWhile_segment hmem hrest
  rw [keyOf, ← hseg, List.takeWhile_takeWhile, hseg]
  congr 1
  funext c
  simp [isKeyChar]

/-- A segment is a key, or a key, `=` and a value. -/
lemma segment_cases (seg : List UInt8) :
    (seg = keyOf seg ∧ valOf seg = []) ∨ seg = keyOf seg ++ equals :: valOf seg := by
  have happend := List.takeWhile_append_dropWhile (p := (· ≠ equals)) (l := seg)
  cases hrest : seg.dropWhile (· ≠ equals) with
  | nil =>
      rw [hrest, List.append_nil] at happend
      exact .inl ⟨happend.symm, by rw [valOf, hrest]; rfl⟩
  | cons c v =>
      have hc := List.head?_dropWhile_not (· ≠ equals) seg
      rw [hrest] at hc
      have heq : c = equals := by simpa using hc
      subst heq
      rw [hrest] at happend
      refine .inr ?_
      rw [valOf, hrest]
      exact happend.symm

/-- What reading a segment leaves: one more argument, and the next character behind it. -/
structure SegmentRead (a : List UInt8) (s : State) (seg : List UInt8) (t : State) : Prop where
  start : Start a t
  rest : a.drop t.iChar = (a.drop (s.iChar + seg.length)).drop 1
  list : ∃ arg, t.list = s.list ++ [arg] ∧ arg.bytes = (decode (keyOf seg), decode (valOf seg))
  invalid : t.invalid = s.invalid + UInt32.ofNat (invalid (keyOf seg) + invalid (valOf seg))

/-- The value is put beside the key. -/
lemma KeyRead.segmentRead {seg : List UInt8} {t₀ t : State} (h₀ : KeyRead a s (keyOf seg) t₀)
    (hstart : Start a t) (hrest : a.drop t.iChar = (a.drop (s.iChar + seg.length)).drop 1)
    {val : Option (List UInt8)} {valLen : ℕ}
    (hlist : t.list = t₀.list ++ [{ t₀.arg with val := val, valLen := valLen }])
    (hbytes : (val.getD []).take valLen = decode (valOf seg))
    (hbad : t.invalid = t₀.invalid + UInt32.ofNat (Percent.invalid (valOf seg))) :
    SegmentRead a s seg t := by
  refine ⟨hstart, hrest, ⟨_, by rw [hlist, h₀.list], ?_⟩, ?_⟩
  · rw [MutableArg.bytes, h₀.bytes, hbytes]
  · rw [hbad, h₀.invalid, UInt32.ofNat_add, UInt32.add_assoc]

/-- There is no value. -/
lemma KeyRead.segmentRead_key {seg : List UInt8} {t₀ t : State} (h₀ : KeyRead a s (keyOf seg) t₀)
    (hval : valOf seg = []) (hstart : Start a t)
    (hrest : a.drop t.iChar = (a.drop (s.iChar + seg.length)).drop 1)
    (hlist : t.list = t₀.list ++ [{ t₀.arg with val := none, valLen := 0 }])
    (hbad : t.invalid = t₀.invalid) : SegmentRead a s seg t := by
  refine h₀.segmentRead hstart hrest hlist ?_ ?_
  · rw [hval]
    rfl
  · rw [hval, hbad]
    exact (UInt32.add_zero _).symm

/-- A key without a value at the end of the text. -/
lemma run_finish {fuel : ℕ} (h : s.status = 1) (hi : a.length ≤ s.iChar) :
    run a sep fuel s = run a sep 0 (s.push none 0) := by
  have hdone : (s.push none 0).finish = s.push none 0 := rfl
  rw [run_end hi, State.finish, if_pos h, run_end (s := s.push none 0) hi, hdone]

/-- The start of a segment that is not empty, and what is behind it. -/
structure AtSegment (a : List UInt8) (sep : UInt8) (s : State) (seg rest : List UInt8) : Prop where
  start : Start a s
  text : a.drop s.iChar = seg ++ rest
  ne_nil : seg ≠ []
  notMem : sep ∉ seg
  behind : Behind sep rest

section Segment

variable {seg rest : List UInt8} {fuel : ℕ}

lemma AtSegment.length_eq (h : AtSegment a sep s seg rest) :
    a.length = s.iChar + seg.length + rest.length := by
  have hlen := congrArg List.length h.text
  have hpos := List.length_pos_iff.mpr h.ne_nil
  rw [List.length_drop, List.length_append] at hlen
  omega

lemma AtSegment.drop_eq (h : AtSegment a sep s seg rest) :
    a.drop (s.iChar + seg.length) = rest := by
  rw [← List.drop_drop, h.text, List.drop_left]

/-- The key of the segment is read first. -/
lemma AtSegment.turn_eq (h : AtSegment a sep s seg rest) (hlen : a.length + 1 < 2 ^ 32) :
    ∃ t, KeyRead a s (keyOf seg) t ∧ a[t.iChar]? = (seg ++ rest)[(keyOf seg).length]? ∧
      turn a sep s = some (State.next (if a[t.iChar]? = some sep then t.push none 0
        else { t with status := 1, val := some t.wOff })) := by
  have hfirst : a[s.iChar]? ≠ some sep := by
    intro hc
    have htext := h.text
    rw [drop_eq_cons_iff.mpr ⟨hc, rfl⟩] at htext
    cases hseg : seg with
    | nil => exact h.ne_nil hseg
    | cons c seg' =>
        rw [hseg] at htext
        obtain ⟨rfl, -⟩ := List.cons.inj htext
        exact h.notMem (hseg ▸ List.mem_cons_self)
  have hi : s.iChar < a.length := by
    have hpos := List.length_pos_iff.mpr h.ne_nil
    have heq := h.length_eq
    omega
  have hkey : (a.drop s.iChar).takeWhile (isKeyChar sep) = keyOf seg := by
    rw [h.text, takeWhile_key h.notMem h.behind]
  obtain ⟨t, ht, hpart⟩ := keyPart_eq hlen h.start hi hkey
  refine ⟨t, ht, ?_, ?_⟩
  · rw [ht.iChar, ← h.text, List.getElem?_drop]
  · rw [turn_key h.start hfirst, hpart, Option.map_some]

/-- A segment without `=` is a key. -/
lemma run_bareKey (h : AtSegment a sep s seg rest) (hlen : a.length + 1 < 2 ^ 32)
    (hkey : seg = keyOf seg) (hval : valOf seg = []) (hfuel : a.length ≤ s.iChar + fuel) :
    ∃ t f, run a sep fuel s = run a sep f t ∧ SegmentRead a s seg t ∧ a.length ≤ t.iChar + f := by
  have heq := h.length_eq
  have hpos := List.length_pos_iff.mpr h.ne_nil
  obtain ⟨t, ht, hat, hturn⟩ := h.turn_eq hlen
  obtain ⟨f, rfl⟩ : ∃ f, fuel = f + 1 := ⟨fuel - 1, by omega⟩
  rw [run_succ (by omega) hturn]
  have hi : t.iChar = s.iChar + seg.length := by rw [ht.iChar, ← hkey]
  have hdrop : a.drop (t.iChar + 1) = (a.drop (s.iChar + seg.length)).drop 1 := by
    rw [List.drop_drop, hi]
  rw [← hkey, List.getElem?_append_right le_rfl, Nat.sub_self] at hat
  obtain rfl | ⟨r, rfl⟩ := h.behind
  · -- the argument is put into the list behind the loop
    have hnone : ¬ a[t.iChar]? = some sep := by
      rw [hat]
      simp
    rw [List.length_nil] at heq
    rw [if_neg hnone, next_eq (by simp only; omega), run_finish rfl (by simp only; omega)]
    refine ⟨_, 0, rfl, ht.segmentRead_key hval ⟨rfl, rfl, ht.room⟩ hdrop rfl rfl, ?_⟩
    change a.length ≤ t.iChar + 1 + 0
    omega
  · have hsome : a[t.iChar]? = some sep := by
      rw [hat]
      rfl
    rw [List.length_cons] at heq
    rw [if_pos hsome, next_eq (by change t.iChar + 1 < _; omega)]
    refine ⟨_, f, rfl, ht.segmentRead_key hval ⟨rfl, rfl, ht.room⟩ hdrop rfl rfl, ?_⟩
    change a.length ≤ t.iChar + 1 + f
    omega

/-- A segment with `=` is a key and a value. -/
lemma run_value (h : AtSegment a sep s seg rest) (hlen : a.length + 1 < 2 ^ 32)
    (hsep : sep ≠ equals) (hseg : seg = keyOf seg ++ equals :: valOf seg)
    (hfuel : a.length ≤ s.iChar + fuel) :
    ∃ t f, run a sep fuel s = run a sep f t ∧ SegmentRead a s seg t ∧ a.length ≤ t.iChar + f := by
  have heq := h.length_eq
  have hpos := List.length_pos_iff.mpr h.ne_nil
  obtain ⟨t, ht, hat, hturn⟩ := h.turn_eq hlen
  obtain ⟨f, rfl⟩ : ∃ f, fuel = f + 1 := ⟨fuel - 1, by omega⟩
  rw [run_succ (by omega) hturn]
  have happ : seg ++ rest = keyOf seg ++ ([equals] ++ (valOf seg ++ rest)) := by
    rw [← List.append_assoc [equals], ← List.append_assoc, List.singleton_append, ← hseg]
  have hseglen := congrArg List.length hseg
  rw [List.length_append, List.length_cons] at hseglen
  have hi := ht.iChar
  have hequals : ¬ a[t.iChar]? = some sep := by
    rw [hat, happ, List.getElem?_append_right le_rfl, Nat.sub_self]
    exact fun h' => hsep (Option.some.inj h').symm
  rw [if_neg hequals, next_eq (by simp only; omega)]
  by_cases hlast : a.length ≤ t.iChar + 1
  · -- there is nothing behind the `=`
    have hval : valOf seg = [] := List.length_eq_zero_iff.mp (by omega)
    rw [run_finish rfl hlast]
    refine ⟨_, 0, rfl, ht.segmentRead_key hval ⟨rfl, rfl, ht.room⟩ ?_ rfl rfl, hlast⟩
    change a.drop (t.iChar + 1) = _
    rw [List.drop_of_length_le hlast, List.drop_drop, List.drop_of_length_le (by omega)]
  · have hdrop : a.drop (t.iChar + 1) = valOf seg ++ rest := by
      rw [hi, Nat.add_assoc, ← List.drop_drop, ← List.drop_drop, h.text, happ, List.drop_left]
      rfl
    have hmem : sep ∉ valOf seg := by
      intro hmem
      refine h.notMem ?_
      rw [hseg]
      exact List.mem_append_right _ (List.mem_cons_of_mem _ hmem)
    have hval : (a.drop (t.iChar + 1)).takeWhile (fun c => !decide (c = sep)) = valOf seg := by
      rw [hdrop, takeWhile_segment hmem h.behind]
    obtain ⟨u, val, valLen, hread, hstart, hu, hlist, hbytes, hbad⟩ := valPart_eq
      (s := { t with status := 1, val := some t.wOff, iChar := t.iChar + 1 }) hlen rfl
      ht.room (by rw [ht.wOff]; simp only; omega) (by simpa using hlast) hval
    simp only at hu
    have hturn : turn a sep { t with status := 1, val := some t.wOff, iChar := t.iChar + 1 } = _ :=
      turn_val rfl
    rw [hread, Option.map_some, next_eq (by omega)] at hturn
    obtain ⟨f, rfl⟩ : ∃ g, f = g + 1 := ⟨f - 1, by omega⟩
    rw [run_succ (by simpa using hlast) hturn]
    refine ⟨_, f, rfl, ht.segmentRead ⟨hstart.status, hstart.wOff, hstart.room⟩ ?_ hlist hbytes
      hbad, ?_⟩
    · change a.drop (u.iChar + 1) = _
      rw [List.drop_drop, hu, hseglen, hi]
      congr 1
      omega
    · change a.length ≤ u.iChar + 1 + f
      omega

/-- **A segment is read.** -/
lemma run_segment (h : AtSegment a sep s seg rest) (hlen : a.length + 1 < 2 ^ 32)
    (hsep : sep ≠ equals) (hfuel : a.length ≤ s.iChar + fuel) :
    ∃ t f, run a sep fuel s = run a sep f t ∧ SegmentRead a s seg t ∧
      a.length ≤ t.iChar + f := by
  obtain ⟨hkey, hval⟩ | hseg := segment_cases seg
  · exact run_bareKey h hlen hkey hval hfuel
  · exact run_value h hlen hsep hseg hfuel

end Segment

/-! ## What is invalid -/

lemma expectedInvalid_segment {seg rest : List UInt8} (hne : seg ≠ []) (hmem : sep ∉ seg)
    (hrest : Behind sep rest) :
    expectedInvalid sep (seg ++ rest) =
      invalid (keyOf seg) + invalid (valOf seg) + expectedInvalid sep (rest.drop 1) := by
  rw [expectedInvalid, segments_segment hne hmem hrest, List.map_cons, List.sum_cons,
    expectedInvalid]

/-- No more than the characters are invalid. -/
lemma expectedInvalid_le (a : List UInt8) : expectedInvalid sep a ≤ a.length := by
  refine sum_segments_le (fun seg => ?_) a
  have hkey := invalid_le_length (keyOf seg)
  have hval := invalid_le_length (valOf seg)
  obtain ⟨h, hv⟩ | h := segment_cases seg
  · rw [← h] at hkey
    rw [hv] at hval
    rw [← h, hv]
    exact Nat.add_le_add hkey hval
  · have hlen := congrArg List.length h
    rw [List.length_append, List.length_cons] at hlen
    omega

/-! ## The whole text -/

/-- **The rest of the text is read**, from the start of a segment. -/
lemma run_eq (hlen : a.length + 1 < 2 ^ 32) (hsep : sep ≠ equals) (h : Start a s) {fuel : ℕ}
    (hfuel : a.length ≤ s.iChar + fuel) {r : List UInt8} (hr : a.drop s.iChar = r) :
    ∃ t new, run a sep fuel s = some t ∧ t.list = s.list ++ new ∧
      new.map MutableArg.bytes = expected sep r ∧
      t.invalid = s.invalid + UInt32.ofNat (expectedInvalid sep r) := by
  induction r using segment_induction sep generalizing s fuel with
  | nil =>
      have hdone : s.finish = s := if_neg (by rw [h.status]; decide)
      refine ⟨s, [], ?_, (List.append_nil _).symm, ?_, ?_⟩
      · rw [run_end (List.drop_eq_nil_iff.mp hr), hdone]
      · rw [expected, segments_nil]
        rfl
      · rw [expectedInvalid, segments_nil]
        exact (UInt32.add_zero _).symm
  | skip r ih =>
      obtain ⟨hc, hrest⟩ := drop_eq_cons_iff.mp hr
      have hi := (List.getElem?_eq_some_iff.mp hc).1
      obtain ⟨f, rfl⟩ : ∃ f, fuel = f + 1 := ⟨fuel - 1, by omega⟩
      have hturn := turn_sep h hc
      rw [next_eq (by omega)] at hturn
      obtain ⟨t, new, hrun, hlist, hnew, hbad⟩ := ih
        (s := { s with iChar := s.iChar + 1 }) ⟨h.status, h.wOff, h.room⟩
        (by omega : a.length ≤ s.iChar + 1 + f) hrest
      refine ⟨t, new, by rw [run_succ hi hturn, hrun], hlist, ?_, ?_⟩
      · rw [hnew, expected, expected, segments_skip]
      · rw [hbad, expectedInvalid, expectedInvalid, segments_skip]
  | segment seg rest hne hmem hrest ih =>
      have hat : AtSegment a sep s seg rest := ⟨h, hr, hne, hmem, hrest⟩
      obtain ⟨u, f, hrun, hu, hf⟩ := run_segment hat hlen hsep hfuel
      obtain ⟨arg, harg, hbytes⟩ := hu.list
      obtain ⟨t, new, hrest', hlist, hnew, hbad⟩ := ih hu.start hf
        (by rw [hu.rest, hat.drop_eq])
      refine ⟨t, arg :: new, hrun.trans hrest', ?_, ?_, ?_⟩
      · rw [hlist, harg, List.append_assoc, List.singleton_append]
      · rw [List.map_cons, hnew, hbytes, expected, expected, segments_segment hne hmem hrest,
          List.map_cons]
      · rw [hbad, hu.invalid, UInt32.add_assoc, ← UInt32.ofNat_add,
          expectedInvalid_segment hne hmem hrest]

/-! ## A scratch buffer without room -/

/-- Nothing can be written. -/
lemma copy_store_none {stop : UInt8 → Bool} {fuel : ℕ} (hbuf : s.buf = []) (x : UInt8) :
    (copy a stop fuel s).bind (State.store · x) = none := by
  have hstore : ∀ c, s.store c = none := by
    intro c
    rw [State.store, hbuf, List.length_nil, if_neg (Nat.not_lt_zero _)]
  unfold copy
  cases a[s.iChar]? with
  | none => exact hstore x
  | some c =>
      cases hstop : stop c with
      | true => simpa [hstop] using hstore x
      | false =>
          cases fuel with
          | zero => simp [hstop]
          | succ fuel => simp [hstop, hstore]

lemma keyPart_none (hbuf : s.buf = []) : keyPart a sep s = none := by
  have hnone : (copy a (fun c => c = equals || c = sep) a.length s).bind (State.store · 0) = none :=
    copy_store_none hbuf 0
  cases hcopy : copy a (fun c => c = equals || c = sep) a.length s with
  | none => simp only [keyPart, hcopy, Option.bind_eq_bind, Option.bind_none]
  | some t =>
      rw [hcopy, Option.bind_some] at hnone
      simp only [keyPart, hcopy, hnone, Option.bind_eq_bind, Option.bind_some, Option.bind_none]

/-- Only separators are skipped. -/
lemma run_of_empty (sep : UInt8) (hlen : a.length < 2 ^ 32) (hstatus : s.status = 0)
    (hbuf : s.buf = []) {fuel : ℕ} (hfuel : a.length ≤ s.iChar + fuel) {r : List UInt8}
    (hr : a.drop s.iChar = r) :
    (∀ c ∈ r, c = sep) ∧ (∃ t, run a sep fuel s = some t ∧ t.list = s.list ∧
        t.invalid = s.invalid) ∨
      (∃ c ∈ r, c ≠ sep) ∧ run a sep fuel s = none := by
  induction r generalizing s fuel with
  | nil =>
      have hdone : s.finish = s := if_neg (by rw [hstatus]; decide)
      refine .inl ⟨by simp, s, ?_, rfl, rfl⟩
      rw [run_end (List.drop_eq_nil_iff.mp hr), hdone]
  | cons c r ih =>
      obtain ⟨hc, hrest⟩ := drop_eq_cons_iff.mp hr
      have hi := (List.getElem?_eq_some_iff.mp hc).1
      obtain ⟨f, rfl⟩ : ∃ f, fuel = f + 1 := ⟨fuel - 1, by omega⟩
      by_cases hsep : c = sep
      · subst hsep
        have hturn : turn a c s = some s.next := if_pos ⟨hc, hstatus⟩
        rw [next_eq (by omega)] at hturn
        rw [run_succ hi hturn]
        have hgo := ih (s := { s with iChar := s.iChar + 1 }) hstatus hbuf
          (by omega : a.length ≤ s.iChar + 1 + f) hrest
        simpa using hgo
      · have hne : ¬ (a[s.iChar]? = some sep ∧ s.status = 0) := by
          rw [hc]
          exact fun h => hsep (Option.some.inj h.1)
        refine .inr ⟨⟨c, List.mem_cons_self, hsep⟩, ?_⟩
        rw [run, loop, if_pos hi, turn, if_neg hne, if_pos hstatus, keyPart_none hbuf]
        rfl

/-! ## The result -/

variable {junk : Junk} {argList : List MutableArg} {cnt : UInt32}

/-- The variables at the beginning. -/
def State.init (a : List UInt8) (junk : Junk) (argList : List MutableArg) : State :=
  ⟨junk.buf ((a.length + 1) % 2 ^ 32), 0, 0, 0, none, junk.arg, 0, argList⟩

lemma parseArgs_eq (h : a ≠ []) :
    parseArgs junk argList cnt (some a) sep =
      (run a sep a.length (.init a junk argList)).map fun t => (statusOk, t.list, t.invalid) := by
  have hpos : ¬ a.length = 0 := fun h' => h (List.length_eq_zero_iff.mp h')
  rw [run, Option.map_map, parseArgs, if_neg hpos, State.init]
  cases loop a sep a.length
    ⟨junk.buf ((a.length + 1) % 2 ^ 32), 0, 0, 0, none, junk.arg, 0, argList⟩ with
  | none => rfl
  | some t => rfl

/-- There are no arguments in an empty text, and nothing is counted. -/
lemma argsLaw_nil : ArgsLaw junk argList cnt [] sep ↔ cnt = 0 := by
  have hnone : expectedInvalid sep [] = 0 := by
    rw [expectedInvalid, segments_nil]
    rfl
  constructor
  · rintro ⟨new, cnt', heq, -, hcnt⟩
    obtain ⟨-, rfl⟩ : new = [] ∧ cnt = cnt' := by simpa [parseArgs] using heq
    rw [hnone] at hcnt
    exact UInt32.toNat_inj.mp hcnt
  · rintro rfl
    refine ⟨[], 0, ?_, ?_, hnone.symm⟩
    · rw [List.append_nil]
      rfl
    · rw [expected, segments_nil]
      rfl

/-- The scratch buffer has room for the text. -/
lemma argsLaw_of_fits (hnil : a ≠ []) (hsize : a.length + 1 < 2 ^ 32) (hsep : sep ≠ equals) :
    ArgsLaw junk argList cnt a sep := by
  have hstart : Start a (.init a junk argList) := by
    refine ⟨rfl, rfl, ?_⟩
    rw [State.init, Junk.length_buf, Nat.mod_eq_of_lt hsize]
  obtain ⟨t, new, hrun, hlist, hnew, hbad⟩ :=
    run_eq hsize hsep hstart (Nat.le_add_left _ _) (List.drop_zero (l := a))
  refine ⟨new, t.invalid, ?_, hnew, ?_⟩
  · rw [parseArgs_eq hnil, hrun, Option.map_some, hlist]
    rfl
  · have hle : expectedInvalid sep a ≤ a.length := expectedInvalid_le a
    have hsmall : a.length < UInt32.size := (Nat.lt_succ_self _).trans hsize
    rw [hbad, State.init, UInt32.zero_add, UInt32.toNat_ofNat_of_lt' (hle.trans_lt hsmall)]

/-- The scratch buffer has no room at all. -/
lemma argsLaw_of_full (hsize : a.length + 1 = 2 ^ 32) :
    ArgsLaw junk argList cnt a sep ↔ ∀ c ∈ a, c = sep := by
  have hnil : a ≠ [] := by
    rintro rfl
    cases hsize
  have hbuf : (State.init a junk argList).buf = [] := by
    rw [State.init, hsize, Nat.mod_self]
    rfl
  have hrun := run_of_empty sep (by omega : a.length < 2 ^ 32)
    (rfl : (State.init a junk argList).status = 0) hbuf (Nat.le_add_left _ _)
    (List.drop_zero (l := a))
  obtain ⟨hall, t, hrun, hlist, hbad⟩ | ⟨⟨c, hc, hne⟩, hrun⟩ := hrun
  · refine iff_of_true ⟨[], 0, ?_, ?_, ?_⟩ hall
    · rw [parseArgs_eq hnil, hrun, Option.map_some, hlist, hbad, List.append_nil]
      rfl
    · rw [expected, segments_of_separators hall]
      rfl
    · rw [expectedInvalid, segments_of_separators hall]
      rfl
  · refine iff_of_false ?_ fun hall => hne (hall c hc)
    rintro ⟨new, cnt', heq, -⟩
    rw [parseArgs_eq hnil, hrun] at heq
    cases heq

/-- **The arguments of a text are put into the list**, and what is invalid is counted, exactly when
the text is not empty, or nothing was counted before; and its scratch buffer has room for it, or it
needs none. -/
theorem argsLaw_iff (junk : Junk) (argList : List MutableArg) (cnt : UInt32)
    (a : List UInt8) (hlen : a.length < 2 ^ 32) (hsep : sep ≠ equals) :
    ArgsLaw junk argList cnt a sep ↔ ArgsOk cnt a sep := by
  by_cases hnil : a = []
  · subst hnil
    rw [argsLaw_nil, ArgsOk]
    simp
  · rw [ArgsOk, and_iff_right (Or.inl hnil)]
    by_cases hsize : a.length + 1 < 2 ^ 32
    · exact iff_of_true (argsLaw_of_fits hnil hsize hsep) (.inl hsize)
    · rw [or_iff_right hsize]
      exact argsLaw_of_full (by omega)

/-- The arguments in `a=b&&%3d+`. -/
example : expected 38 [97, 61, 98, 38, 38, 37, 51, 100, 43] =
    [([97], [98]), ([61, 32], [])] := by
  decide +kernel

/-- They are put into the list. -/
theorem two_arguments :
    ArgsLaw ⟨.clear, fun _ => 255⟩ [] 0 [97, 61, 98, 38, 38, 37, 51, 100, 43] 38 :=
  (argsLaw_iff ⟨.clear, fun _ => 255⟩ [] 0 _ (by decide) (by decide)).mpr
    ⟨.inl (by decide), .inl (by decide)⟩

/-- **The number that was counted before is left** as it is if the text is empty. -/
theorem count_is_left : ¬ ArgsLaw ⟨.clear, fun _ => 0⟩ [] 1 [] 38 := by
  rintro ⟨new, cnt, heq, -, hcnt⟩
  obtain ⟨-, rfl⟩ : new = [] ∧ 1 = cnt := by simpa [parseArgs] using heq
  exact absurd hcnt (by decide)

end Args

end Is2
