import Is2.Support.Ja3
import Mathlib.Data.List.GetD
import Mathlib.Logic.Relation

/-!
# What `ja3::extract_bytes` reads

The length of the buffer is whatever was there when it was peeked at, and all lengths in it are the
client's.  `_INCR_BY` and `_INCR_EXT_BY` look at what is left behind each field that was read, so
what is read next is known to have one byte, or none at all behind the extensions.

All of what is read is inside of the buffer unless

* a handshake record ends with its header, or
* there is one byte where two are read: in the length of the cipher suites, in a cipher suite, in
  the length of the extensions, or
* the loop gets to an extension whose header, or whose list of groups or point formats, is not there
  as a whole.

`inBounds_iff` is the exact condition; the loop then ends as well.
-/

namespace Is2

namespace Ja3

/-! ## The layout of a ClientHello -/

/-- The byte at an index, and 0 behind the end. -/
def byteAt (buf : List UInt8) (i : ℕ) : ℕ := (buf.getD i 0).toNat

/-- The 16 bit number at an index. -/
def wordAt (buf : List UInt8) (i : ℕ) : ℕ := ntohs (buf.getD i 0) (buf.getD (i + 1) 0)

/-- The end of the session id. -/
def sidEnd (buf : List UInt8) : ℕ := 44 + byteAt buf 43

/-- The end of the cipher suites. -/
def csEnd (buf : List UInt8) : ℕ := sidEnd buf + 2 + 2 * (wordAt buf (sidEnd buf) / 2)

/-- The end of the compression methods. -/
def csMtEnd (buf : List UInt8) : ℕ := csEnd buf + 1 + byteAt buf (csEnd buf)

/-- The size of the extension at an index: the lists of point formats and of groups have lengths of
their own. -/
def extSize (buf : List UInt8) (i : ℕ) : ℕ :=
  if wordAt buf i = 0x000B then 5 + byteAt buf (i + 4)
  else if wordAt buf i = 0x000A then 6 + 2 * (wordAt buf (i + 4) / 2)
  else 4 + wordAt buf (i + 2)

/-- **What is needed of an extension**: its header, and the whole list that is read from it. -/
def HeaderFits (buf : List UInt8) (i : ℕ) : Prop :=
  i + 4 ≤ buf.length ∧
    (wordAt buf i = 0x000B ∨ wordAt buf i = 0x000A → i + extSize buf i ≤ buf.length)

/-- From an extension to the next one, with the 16 bit count of what is left of the block.  There is
none behind the padding and behind an extension that goes on behind the end of the buffer, and the
point formats are the last one when they end with it. -/
def NextExt (buf : List UInt8) (x y : ℕ × ℕ) : Prop :=
  x.2 ≠ 0 ∧ wordAt buf x.1 ≠ 0x0015 ∧ x.1 + extSize buf x.1 ≤ buf.length ∧
    (wordAt buf x.1 = 0x000B → x.1 + extSize buf x.1 < buf.length) ∧
    y = (x.1 + extSize buf x.1, sub16 x.2 (extSize buf x.1))

/-- What is needed of each extension from here on, as long as the count says that there is one. -/
def ExtsFit (buf : List UInt8) (x : ℕ × ℕ) : Prop :=
  ∀ y, Relation.ReflTransGen (NextExt buf) x y → y.2 ≠ 0 → HeaderFits buf y.1

/-- What is needed of a ClientHello. -/
structure HelloFits (buf : List UInt8) : Prop where
  ciphers : sidEnd buf < buf.length → buf.length ≤ csEnd buf → (buf.length - sidEnd buf) % 2 = 0
  extsLen : buf.length ≠ csMtEnd buf + 1
  exts : csMtEnd buf + 2 < buf.length →
    ExtsFit buf (csMtEnd buf + 2, wordAt buf (csMtEnd buf))

/-- **What is needed of a buffer.** -/
def InBounds (buf : List UInt8) : Prop :=
  (buf.length = 5 → byteAt buf 0 ≠ 0x16) ∧
    (5 < buf.length → byteAt buf 0 = 0x16 → byteAt buf 5 = 0x01 → HelloFits buf)

/-! ## Steps at an index -/

section Steps

variable {buf : List UInt8} {out : Ja3} {i e v : ℕ}

lemma wordAt_lt (buf : List UInt8) (i : ℕ) : wordAt buf i < 2 ^ 16 := ntohs_lt _ _

lemma read8_drop (k : ℕ → Result) :
    read8 (.at (buf.drop i)) k = if i < buf.length then k (byteAt buf i) else none := by
  by_cases h : i < buf.length
  · rw [if_pos h, List.drop_eq_getElem_cons h, read8_at, byteAt, List.getD_eq_getElem _ _ h]
  · rw [if_neg h, List.drop_of_length_le (not_lt.mp h)]
    rfl

lemma read16_drop (k : ℕ → Result) :
    read16 (.at (buf.drop i)) k = if i + 2 ≤ buf.length then k (wordAt buf i) else none := by
  by_cases h : i + 2 ≤ buf.length
  · have h0 : i < buf.length := by omega
    have h1 : i + 1 < buf.length := by omega
    rw [if_pos h, List.drop_eq_getElem_cons h0, List.drop_eq_getElem_cons h1, wordAt,
      List.getD_eq_getElem _ _ h0, List.getD_eq_getElem _ _ h1]
    rfl
  · rw [if_neg h]
    by_cases h0 : i < buf.length
    · rw [List.drop_eq_getElem_cons h0, List.drop_of_length_le (by omega)]
      rfl
    · rw [List.drop_of_length_le (not_lt.mp h0)]
      rfl

lemma incrBy_drop (k : Cursor → Result) :
    incrBy out v (.at (buf.drop i)) k =
      if buf.length ≤ i + v then some (statusError, out) else k (.at (buf.drop (i + v))) := by
  have hlen : ((buf.drop i).length : ℤ) - v ≤ 0 ↔ buf.length ≤ i + v := by
    rw [List.length_drop]
    omega
  simp only [incrBy, Cursor.at, hlen, List.drop_drop]
  by_cases h : buf.length ≤ i + v
  · rw [if_pos h, if_pos h]
  · have hleft : ((buf.drop i).length : ℤ) - v = (buf.drop (i + v)).length := by
      rw [List.length_drop, List.length_drop]
      omega
    rw [if_neg h, if_neg h, hleft]

lemma incrExtBy_drop (hi : i ≤ buf.length) (k : Cursor → ℕ → Result) :
    incrExtBy out v (.at (buf.drop i)) e k =
      if buf.length < i + v then some (statusOk, out)
      else k (.at (buf.drop (i + v))) (sub16 e v) := by
  have hlen : ((buf.drop i).length : ℤ) - v < 0 ↔ buf.length < i + v := by
    rw [List.length_drop]
    omega
  simp only [incrExtBy, Cursor.at, hlen, List.drop_drop]
  by_cases h : buf.length < i + v
  · rw [if_pos h, if_pos h]
  · have hleft : ((buf.drop i).length : ℤ) - v = (buf.drop (i + v)).length := by
      rw [List.length_drop, List.length_drop]
      omega
    rw [if_neg h, if_neg h, hleft, sub16]

/-! ## The lists -/

/-- A cipher suite is cut where an odd number of bytes is left. -/
lemma cipherSuites_drop (out : Ja3) (m : ℕ) (k : Ja3 → Cursor → Result) (hi : i < buf.length) :
    (i + 2 * m < buf.length → ∃ out',
        cipherSuites m out (.at (buf.drop i)) k = k out' (.at (buf.drop (i + 2 * m)))) ∧
      (buf.length ≤ i + 2 * m →
        ((cipherSuites m out (.at (buf.drop i)) k).isSome ↔ (buf.length - i) % 2 = 0)) := by
  induction m generalizing out i with
  | zero => exact ⟨fun _ => ⟨out, rfl⟩, fun h => by omega⟩
  | succ m ih =>
      rw [cipherSuites, read16_drop]
      by_cases htwo : i + 2 ≤ buf.length
      · rw [if_pos htwo, incrBy_drop]
        by_cases hend : buf.length ≤ i + 2
        · rw [if_pos hend]
          refine ⟨fun h => by omega, fun _ => iff_of_true rfl ?_⟩
          omega
        · rw [if_neg hend]
          have hadd : i + 2 + 2 * m = i + 2 * (m + 1) := by omega
          obtain ⟨hgo, hstop⟩ := ih { out with cipherList := out.cipherList ++ [wordAt buf i] }
            (by omega : i + 2 < buf.length)
          rw [hadd] at hgo hstop
          refine ⟨hgo, fun h => (hstop h).trans ?_⟩
          omega
      · rw [if_neg htwo]
        refine ⟨fun h => by omega, fun _ => iff_of_false (by simp) ?_⟩
        omega

/-- The point formats are read if they are all there. -/
lemma pointFormats_drop (out : Ja3) (m : ℕ) (k : Ja3 → Cursor → ℕ → Result) (hi : i ≤ buf.length)
    (he : e < 2 ^ 16) :
    (i + m ≤ buf.length → ∃ out', pointFormats m out (.at (buf.drop i)) e k =
        k out' (.at (buf.drop (i + m))) (sub16 e m)) ∧
      (buf.length < i + m → pointFormats m out (.at (buf.drop i)) e k = none) := by
  induction m generalizing out i e with
  | zero => exact ⟨fun _ => ⟨out, by rw [sub16_zero he]; rfl⟩, fun h => by omega⟩
  | succ m ih =>
      rw [pointFormats, read8_drop]
      by_cases hone : i < buf.length
      · rw [if_pos hone, incrExtBy_drop hi, if_neg (by omega)]
        obtain ⟨hgo, hstop⟩ := ih
          { out with ecPtFormatList := out.ecPtFormatList ++ [byteAt buf i] }
          (by omega : i + 1 ≤ buf.length) (sub16_lt e 1)
        rw [sub16_sub16, Nat.add_assoc, Nat.add_comm 1] at hgo
        rw [Nat.add_assoc, Nat.add_comm 1] at hstop
        exact ⟨hgo, hstop⟩
      · rw [if_neg hone]
        exact ⟨fun h => by omega, fun _ => rfl⟩

/-- The groups are read if they are all there. -/
lemma curveGroups_drop (out : Ja3) (m : ℕ) (k : Ja3 → Cursor → ℕ → Result) (hi : i ≤ buf.length)
    (he : e < 2 ^ 16) :
    (i + 2 * m ≤ buf.length → ∃ out', curveGroups m out (.at (buf.drop i)) e k =
        k out' (.at (buf.drop (i + 2 * m))) (sub16 e (2 * m))) ∧
      (buf.length < i + 2 * m → curveGroups m out (.at (buf.drop i)) e k = none) := by
  induction m generalizing out i e with
  | zero => exact ⟨fun _ => ⟨out, by rw [Nat.mul_zero, sub16_zero he]; rfl⟩, fun h => by omega⟩
  | succ m ih =>
      rw [curveGroups, read16_drop]
      by_cases htwo : i + 2 ≤ buf.length
      · rw [if_pos htwo, incrExtBy_drop hi, if_neg (by omega)]
        obtain ⟨hgo, hstop⟩ := ih
          { out with ecCurveList := out.ecCurveList ++ [wordAt buf i] } htwo (sub16_lt e 2)
        have hadd : i + 2 + 2 * m = i + 2 * (m + 1) := by omega
        have hmul : 2 + 2 * m = 2 * (m + 1) := by omega
        rw [sub16_sub16, hadd, hmul] at hgo
        rw [hadd] at hstop
        exact ⟨hgo, hstop⟩
      · rw [if_neg htwo]
        exact ⟨fun h => by omega, fun _ => rfl⟩

/-! ## The extensions -/

/-- The first extension, and the ones behind it. -/
lemma extsFit_iff (x : ℕ × ℕ) :
    ExtsFit buf x ↔ (x.2 ≠ 0 → HeaderFits buf x.1) ∧ ∀ y, NextExt buf x y → ExtsFit buf y := by
  constructor
  · intro h
    exact ⟨h x .refl, fun y hy z hz => h z (.head hy hz)⟩
  · rintro ⟨hfirst, hnext⟩ z hz
    obtain rfl | ⟨y, hy, hz⟩ := Relation.ReflTransGen.cases_head_iff.mp hz
    · exact hfirst
    · exact hnext y hy z hz

/-- Nothing is read if the count is 0. -/
lemma extsFit_zero (i : ℕ) : ExtsFit buf (i, 0) :=
  (extsFit_iff _).mpr ⟨fun h => absurd rfl h, fun _ hy => absurd rfl hy.1⟩

/-- An extension that is the last one. -/
lemma extsFit_of_last (he : e ≠ 0) (h : ∀ y, ¬ NextExt buf (i, e) y) :
    ExtsFit buf (i, e) ↔ HeaderFits buf i := by
  rw [extsFit_iff]
  exact ⟨fun hfits => hfits.1 he, fun hfits => ⟨fun _ => hfits, fun y hy => absurd hy (h y)⟩⟩

/-- An extension with another one behind it. -/
lemma extsFit_of_next (he : e ≠ 0) (hpad : wordAt buf i ≠ 0x0015) (h4 : i + 4 ≤ buf.length)
    (hsize : i + extSize buf i ≤ buf.length)
    (hlast : wordAt buf i = 0x000B → i + extSize buf i < buf.length) :
    ExtsFit buf (i, e) ↔ ExtsFit buf (i + extSize buf i, sub16 e (extSize buf i)) := by
  rw [extsFit_iff]
  constructor
  · exact fun hfits => hfits.2 _ ⟨he, hpad, hsize, hlast, rfl⟩
  · intro hfits
    refine ⟨fun _ => ⟨h4, fun _ => hsize⟩, ?_⟩
    rintro y ⟨-, -, -, -, rfl⟩
    exact hfits

/-- The loop from any extension behind this one is as it is needed. -/
def RestFits (buf : List UInt8) (turns i : ℕ) : Prop :=
  ∀ j e out, i < j → j ≤ buf.length → e < 2 ^ 16 →
    ((extensions turns out (.at (buf.drop j)) e).isSome ↔ ExtsFit buf (j, e))

/-- The extension with the point formats. -/
lemma isSome_formats {turns : ℕ} (hrest : RestFits buf turns i) (he : e ≠ 0)
    (h4 : i + 4 ≤ buf.length) (htype : wordAt buf i = 0x000B) :
    (read8 (.at (buf.drop (i + 4))) fun n =>
      incrExtBy out 1 (.at (buf.drop (i + 4))) (sub16 e 4) fun s extLeft =>
      pointFormats n out s extLeft fun out s extLeft =>
      if s.left ≤ 0 then some (statusOk, out)
      else if extLeft = 0 then some (statusOk, out)
      else extensions turns out s extLeft).isSome ↔ ExtsFit buf (i, e) := by
  have hpad : wordAt buf i ≠ 0x0015 := by omega
  have hsize : extSize buf i = 5 + byteAt buf (i + 4) := if_pos htype
  rw [read8_drop]
  by_cases h5 : i + 4 < buf.length
  · rw [if_pos h5, incrExtBy_drop h4, if_neg (by omega), sub16_sub16]
    obtain ⟨hgo, hstop⟩ := pointFormats_drop out (byteAt buf (i + 4))
      (fun out s extLeft =>
        if s.left ≤ 0 then some (statusOk, out)
        else if extLeft = 0 then some (statusOk, out)
        else extensions turns out s extLeft) (by omega : i + 4 + 1 ≤ buf.length) (sub16_lt e 5)
    have hadd : i + 4 + 1 + byteAt buf (i + 4) = i + extSize buf i := by omega
    rw [hadd] at hgo hstop
    by_cases hfits : i + extSize buf i ≤ buf.length
    · obtain ⟨out', hout⟩ := hgo hfits
      have hleft : (Cursor.at (buf.drop (i + extSize buf i))).left ≤ 0 ↔
          buf.length ≤ i + extSize buf i := by
        simp only [Cursor.at, List.length_drop]
        omega
      rw [hout]
      simp only [hleft, sub16_sub16, ← hsize]
      by_cases hend : buf.length ≤ i + extSize buf i
      · rw [if_pos hend, extsFit_of_last he fun y hy => absurd (hy.2.2.2.1 htype) (by simp; omega)]
        exact iff_of_true rfl ⟨h4, fun _ => hfits⟩
      · rw [if_neg hend, extsFit_of_next he hpad h4 hfits (fun _ => not_le.mp hend)]
        by_cases hzero : sub16 e (extSize buf i) = 0
        · rw [if_pos hzero, hzero]
          exact iff_of_true rfl (extsFit_zero _)
        · rw [if_neg hzero]
          exact hrest _ _ _ (by omega) hfits (sub16_lt _ _)
    · rw [hstop (not_le.mp hfits)]
      refine iff_of_false (by simp) fun h => hfits ?_
      exact (((extsFit_iff _).mp h).1 he).2 (.inl htype)
  · rw [if_neg h5]
    refine iff_of_false (by simp) fun h => ?_
    have := (((extsFit_iff _).mp h).1 he).2 (.inl htype)
    simp only [hsize] at this
    omega

/-- The extension with the groups. -/
lemma isSome_groups {turns : ℕ} (hrest : RestFits buf turns i) (he : e ≠ 0)
    (h4 : i + 4 ≤ buf.length) (htype : wordAt buf i = 0x000A) :
    (read16 (.at (buf.drop (i + 4))) fun n =>
      incrExtBy out 2 (.at (buf.drop (i + 4))) (sub16 e 4) fun s extLeft =>
      curveGroups (n / 2) out s extLeft fun out s extLeft =>
      extensions turns out s extLeft).isSome ↔ ExtsFit buf (i, e) := by
  have hpad : wordAt buf i ≠ 0x0015 := by omega
  have hformats : wordAt buf i ≠ 0x000B := by omega
  have hsize : extSize buf i = 6 + 2 * (wordAt buf (i + 4) / 2) := by
    rw [extSize, if_neg hformats, if_pos htype]
  rw [read16_drop]
  by_cases h6 : i + 4 + 2 ≤ buf.length
  · rw [if_pos h6, incrExtBy_drop h4, if_neg (by omega), sub16_sub16]
    obtain ⟨hgo, hstop⟩ := curveGroups_drop out (wordAt buf (i + 4) / 2)
      (fun out s extLeft => extensions turns out s extLeft) h6 (sub16_lt e 6)
    have hadd : i + 4 + 2 + 2 * (wordAt buf (i + 4) / 2) = i + extSize buf i := by omega
    rw [hadd] at hgo hstop
    by_cases hfits : i + extSize buf i ≤ buf.length
    · obtain ⟨out', hout⟩ := hgo hfits
      rw [hout, sub16_sub16, ← hsize,
        extsFit_of_next he hpad h4 hfits (fun h => absurd h hformats)]
      exact hrest _ _ _ (by omega) hfits (sub16_lt _ _)
    · rw [hstop (not_le.mp hfits)]
      refine iff_of_false (by simp) fun h => hfits ?_
      exact (((extsFit_iff _).mp h).1 he).2 (.inr htype)
  · rw [if_neg h6]
    refine iff_of_false (by simp) fun h => ?_
    have := (((extsFit_iff _).mp h).1 he).2 (.inr htype)
    simp only [hsize] at this
    omega

/-- The other extensions. -/
lemma isSome_other {turns : ℕ} (hrest : RestFits buf turns i) (he : e ≠ 0)
    (h4 : i + 4 ≤ buf.length) (htype : wordAt buf i ≠ 0x000B ∧ wordAt buf i ≠ 0x000A)
    (hpad : wordAt buf i ≠ 0x0015) :
    (incrExtBy out (wordAt buf (i + 2)) (.at (buf.drop (i + 4))) (sub16 e 4) fun s extLeft =>
      extensions turns out s extLeft).isSome ↔ ExtsFit buf (i, e) := by
  have hsize : extSize buf i = 4 + wordAt buf (i + 2) := by
    rw [extSize, if_neg htype.1, if_neg htype.2]
  rw [incrExtBy_drop h4, sub16_sub16, ← hsize, Nat.add_assoc, ← hsize]
  by_cases hend : buf.length < i + extSize buf i
  · rw [if_pos hend, extsFit_of_last he fun y hy => absurd hy.2.2.1 (by simpa using hend)]
    exact iff_of_true rfl ⟨h4, fun h => absurd h (by simp [htype])⟩
  · rw [if_neg hend, extsFit_of_next he hpad h4 (not_lt.mp hend) (fun h => absurd h htype.1)]
    exact hrest _ _ _ (by omega) (not_lt.mp hend) (sub16_lt _ _)

/-- **The loop over the extensions** stays inside of the buffer, and ends, exactly if they fit. -/
lemma isSome_extensions {turns : ℕ} (hi : i ≤ buf.length) (he : e < 2 ^ 16)
    (hturns : buf.length - i < turns) :
    (extensions turns out (.at (buf.drop i)) e).isSome ↔ ExtsFit buf (i, e) := by
  induction turns generalizing out i e with
  | zero => omega
  | succ turns ih =>
      rw [extensions]
      by_cases h0 : e = 0
      · rw [if_pos h0, h0]
        exact iff_of_true rfl (extsFit_zero i)
      rw [if_neg h0, read16_drop]
      by_cases h4 : i + 4 ≤ buf.length
      · have hrest : RestFits buf turns i := fun j e out hij hj he =>
          ih hj he (by omega)
        rw [if_pos (by omega), incrExtBy_drop hi, if_neg (by omega), read16_drop,
          if_pos (by omega), incrExtBy_drop (by omega), if_neg (by omega), sub16_sub16]
        by_cases hformats : wordAt buf i = 0x000B
        · rw [if_pos hformats]
          exact isSome_formats hrest h0 h4 hformats
        rw [if_neg hformats]
        by_cases hgroups : wordAt buf i = 0x000A
        · rw [if_pos hgroups]
          exact isSome_groups hrest h0 h4 hgroups
        rw [if_neg hgroups]
        by_cases hpad : wordAt buf i = 0x0015
        · rw [if_pos hpad, extsFit_of_last h0 fun y hy => absurd hpad hy.2.1]
          exact iff_of_true rfl ⟨h4, fun h => absurd h (by simp [hformats, hgroups])⟩
        · rw [if_neg hpad]
          exact isSome_other hrest h0 h4 ⟨hformats, hgroups⟩ hpad
      · have hnone : ¬ ExtsFit buf (i, e) := by
          rw [extsFit_iff]
          exact fun hfits => h4 (hfits.1 h0).1
        refine iff_of_false ?_ hnone
        by_cases h2 : i + 2 ≤ buf.length
        · rw [if_pos h2, incrExtBy_drop hi, if_neg (by omega), read16_drop, if_neg (by omega)]
          simp
        · rw [if_neg h2]
          simp

/-! ## The fields in front of the extensions -/

lemma le_sidEnd (buf : List UInt8) : 44 ≤ sidEnd buf := Nat.le_add_right _ _

lemma sidEnd_add_le_csEnd (buf : List UInt8) : sidEnd buf + 2 ≤ csEnd buf := Nat.le_add_right _ _

lemma csEnd_lt_csMtEnd (buf : List UInt8) : csEnd buf < csMtEnd buf := Nat.le_add_right _ _

/-- Nothing is asked for in front of the cipher suites. -/
lemma helloFits_of_le (h : buf.length ≤ sidEnd buf) : HelloFits buf := by
  have hcs := sidEnd_add_le_csEnd buf
  have hmt := csEnd_lt_csMtEnd buf
  exact ⟨fun h' => absurd h' (by omega), by omega, fun h' => absurd h' (by omega)⟩

lemma isSome_extractExts {turns : ℕ} (hi : i < buf.length) (hturns : buf.length < turns) :
    (extractExts turns out (.at (buf.drop i))).isSome ↔
      buf.length ≠ i + 1 ∧ (i + 2 < buf.length → ExtsFit buf (i + 2, wordAt buf i)) := by
  have hleft : ¬ (Cursor.at (buf.drop i)).left ≤ 0 := by
    simp only [Cursor.at, List.length_drop]
    omega
  rw [extractExts, if_neg hleft, read16_drop]
  by_cases htwo : i + 2 ≤ buf.length
  · rw [if_pos htwo, incrBy_drop]
    by_cases hend : buf.length ≤ i + 2
    · rw [if_pos hend]
      exact iff_of_true rfl ⟨by omega, fun h => absurd h (by omega)⟩
    · rw [if_neg hend, isSome_extensions htwo (wordAt_lt _ _) (by omega),
        and_iff_right (by omega : buf.length ≠ i + 1)]
      exact ⟨fun h _ => h, fun h => h (by omega)⟩
  · rw [if_neg htwo]
    refine iff_of_false (by simp) fun h => h.1 ?_
    omega

/-- Behind the cipher suites. -/
lemma isSome_csMethods {turns : ℕ} (hi : csEnd buf < buf.length) (hturns : buf.length < turns) :
    (read8 (.at (buf.drop (csEnd buf))) fun csMtLen =>
      incrBy out 1 (.at (buf.drop (csEnd buf))) fun s =>
      incrBy out csMtLen s fun s => extractExts turns out s).isSome ↔ HelloFits buf := by
  have hciphers : ∀ h : sidEnd buf < buf.length, buf.length ≤ csEnd buf →
      (buf.length - sidEnd buf) % 2 = 0 := fun _ h => absurd h (not_le.mpr hi)
  have hend : csEnd buf + 1 + byteAt buf (csEnd buf) = csMtEnd buf := rfl
  rw [read8_drop, if_pos hi, incrBy_drop]
  by_cases hone : buf.length ≤ csEnd buf + 1
  · rw [if_pos hone]
    exact iff_of_true rfl ⟨hciphers, by omega, fun h => absurd h (by omega)⟩
  rw [if_neg hone, incrBy_drop, hend]
  by_cases hmt : buf.length ≤ csMtEnd buf
  · rw [if_pos hmt]
    exact iff_of_true rfl ⟨hciphers, by omega, fun h => absurd h (by omega)⟩
  · rw [if_neg hmt, isSome_extractExts (not_le.mp hmt) hturns]
    exact ⟨fun h => ⟨hciphers, h.1, h.2⟩, fun h => ⟨h.extsLen, h.exts⟩⟩

/-- Behind the session id. -/
lemma isSome_ciphers {turns : ℕ} (hi : sidEnd buf < buf.length) (hturns : buf.length < turns) :
    (read16 (.at (buf.drop (sidEnd buf))) fun csLen =>
      incrBy out 2 (.at (buf.drop (sidEnd buf))) fun s =>
      cipherSuites (csLen / 2) out s fun out s =>
      read8 s fun csMtLen =>
      incrBy out 1 s fun s =>
      incrBy out csMtLen s fun s => extractExts turns out s).isSome ↔ HelloFits buf := by
  have hmt := csEnd_lt_csMtEnd buf
  have hcs : csEnd buf = sidEnd buf + 2 + 2 * (wordAt buf (sidEnd buf) / 2) := rfl
  -- in front of the end of the cipher suites, only their number of bytes matters
  have hfront : buf.length ≤ csEnd buf → (HelloFits buf ↔ (buf.length - sidEnd buf) % 2 = 0) := by
    intro h
    refine ⟨fun hfits => hfits.ciphers hi h, fun heven => ⟨fun _ _ => heven, ?_, ?_⟩⟩
    · omega
    · intro h'
      omega
  rw [read16_drop]
  by_cases htwo : sidEnd buf + 2 ≤ buf.length
  · rw [if_pos htwo, incrBy_drop]
    by_cases hend : buf.length ≤ sidEnd buf + 2
    · rw [if_pos hend, hfront (by omega)]
      refine iff_of_true rfl ?_
      omega
    rw [if_neg hend]
    obtain ⟨hgo, hstop⟩ := cipherSuites_drop out (wordAt buf (sidEnd buf) / 2)
      (fun out s => read8 s fun csMtLen => incrBy out 1 s fun s =>
        incrBy out csMtLen s fun s => extractExts turns out s) (not_le.mp hend)
    rw [← hcs] at hgo hstop
    by_cases hall : csEnd buf < buf.length
    · obtain ⟨out', hout⟩ := hgo hall
      rw [hout]
      exact isSome_csMethods hall hturns
    · rw [hstop (not_lt.mp hall), hfront (not_lt.mp hall)]
      omega
  · rw [if_neg htwo, hfront (by omega)]
    refine iff_of_false (by simp) ?_
    omega

lemma isSome_extractHello {turns : ℕ} (hi : 9 < buf.length) (hturns : buf.length < turns) :
    (extractHello turns out (.at (buf.drop 9))).isSome ↔ HelloFits buf := by
  have hsid := le_sidEnd buf
  have hleft : (Cursor.at (buf.drop 9)).left < 2 ↔ buf.length < 11 := by
    simp only [Cursor.at, List.length_drop]
    omega
  simp only [extractHello, hleft]
  by_cases h11 : buf.length < 11
  · rw [if_pos h11]
    exact iff_of_true rfl (helloFits_of_le (by omega))
  rw [if_neg h11, read16_drop, if_pos (by omega), incrBy_drop]
  by_cases h12 : buf.length ≤ 9 + 2
  · rw [if_pos h12]
    exact iff_of_true rfl (helloFits_of_le (by omega))
  rw [if_neg h12, incrBy_drop]
  by_cases h43 : buf.length ≤ 9 + 2 + 32
  · rw [if_pos h43]
    exact iff_of_true rfl (helloFits_of_le (by omega))
  rw [if_neg h43, read8_drop, if_pos (by omega), incrBy_drop]
  by_cases h44 : buf.length ≤ 9 + 2 + 32 + 1
  · rw [if_pos h44]
    exact iff_of_true rfl (helloFits_of_le (by omega))
  have hend : 9 + 2 + 32 + 1 + byteAt buf (9 + 2 + 32) = sidEnd buf := rfl
  rw [if_neg h44, incrBy_drop, hend]
  by_cases hsidEnd : buf.length ≤ sidEnd buf
  · rw [if_pos hsidEnd]
    exact iff_of_true rfl (helloFits_of_le hsidEnd)
  · rw [if_neg hsidEnd]
    exact isSome_ciphers (not_le.mp hsidEnd) hturns

/-! ## The whole buffer -/

lemma getElem?_eq_byteAt (h : i < buf.length) :
    ∃ b : UInt8, buf[i]? = some b ∧ byteAt buf i = b.toNat := by
  refine ⟨buf[i], List.getElem?_eq_getElem h, ?_⟩
  rw [byteAt, List.getD_eq_getElem _ _ h]

/-- Behind the two bytes that say that it is a ClientHello. -/
lemma isSome_handshake (h : 5 < buf.length) (htype : byteAt buf 5 = 0x01) {turns : ℕ}
    (hturns : buf.length < turns) :
    (incrBy out 5 (.at buf) fun s =>
      if s.left < 4 then some (statusError, out) else
      read8 s fun hsType =>
      incrBy out 1 s fun s =>
      read8 s fun _ =>
      incrBy out 1 s fun s =>
      read8 s fun _ =>
      incrBy out 1 s fun s =>
      read8 s fun _ =>
      incrBy out 1 s fun s =>
      if hsType ≠ 0x01 then some (statusOk, out) else
      extractHello turns out s).isSome ↔ HelloFits buf := by
  have hsid := le_sidEnd buf
  have hleft : (Cursor.at (buf.drop 5)).left < 4 ↔ buf.length < 9 := by
    simp only [Cursor.at, List.length_drop]
    omega
  rw [← List.drop_zero (l := buf), incrBy_drop, List.drop_zero, if_neg (by omega), Nat.zero_add]
  simp only [hleft]
  by_cases h9 : buf.length < 9
  · rw [if_pos h9]
    exact iff_of_true rfl (helloFits_of_le (by omega))
  have hnext : ∀ k : Cursor → Result, ∀ i, 5 ≤ i → i < 8 →
      incrBy out 1 (.at (buf.drop i)) k = k (.at (buf.drop (i + 1))) := by
    intro k i hi hi'
    rw [incrBy_drop, if_neg (by omega)]
  have hread : ∀ k : ℕ → Result, ∀ i, 5 ≤ i → i < 9 →
      read8 (.at (buf.drop i)) k = k (byteAt buf i) := by
    intro k i hi hi'
    rw [read8_drop, if_pos (by omega)]
  rw [if_neg h9, hread _ 5 (by decide) (by decide), hnext _ 5 (by decide) (by decide),
    hread _ 6 (by decide) (by decide), hnext _ 6 (by decide) (by decide),
    hread _ 7 (by decide) (by decide), hnext _ 7 (by decide) (by decide),
    hread _ 8 (by decide) (by decide), incrBy_drop]
  by_cases h10 : buf.length ≤ 8 + 1
  · rw [if_pos h10]
    exact iff_of_true rfl (helloFits_of_le (by omega))
  · rw [if_neg h10, htype, if_neg (by decide)]
    exact isSome_extractHello (not_le.mp h10) hturns

end Steps

/-- **`extract_bytes` reads nothing behind the end of the buffer, and ends, exactly when** the
buffer is as it is needed. -/
theorem inBounds_iff (out : Ja3) (buf : List UInt8) :
    (extractBytes out buf).isSome ↔ InBounds buf := by
  rw [extractBytes, InBounds]
  by_cases h5 : buf.length < 5
  · rw [if_pos h5]
    exact iff_of_true rfl ⟨fun h => absurd h (by omega), fun h => absurd h (by omega)⟩
  obtain ⟨b, hb, hb0⟩ := getElem?_eq_byteAt (by omega : 0 < buf.length)
  have hrecord : b ≠ 0x16 ↔ byteAt buf 0 ≠ 0x16 := by
    rw [hb0, ne_eq, ne_eq, ← UInt8.toNat_inj]
    rfl
  simp only [if_neg h5, hb, hrecord, Option.bind_eq_bind, Option.bind_some]
  by_cases h0 : byteAt buf 0 ≠ 0x16
  · rw [if_pos h0]
    exact iff_of_true rfl ⟨fun _ => h0, fun _ h => absurd h h0⟩
  rw [if_neg h0]
  by_cases h6 : 5 < buf.length
  · obtain ⟨c, hc, hc5⟩ := getElem?_eq_byteAt h6
    have hhello : c ≠ 0x01 ↔ byteAt buf 5 ≠ 0x01 := by
      rw [hc5, ne_eq, ne_eq, ← UInt8.toNat_inj]
      rfl
    simp only [hc, hhello, Option.bind_some]
    by_cases h1 : byteAt buf 5 ≠ 0x01
    · rw [if_pos h1]
      exact iff_of_true rfl ⟨fun h => absurd h (by omega), fun _ _ h => absurd h h1⟩
    · have hstart : ¬ (buf.length : ℤ) < 5 := by omega
      rw [if_neg h1, if_neg hstart]
      refine (isSome_handshake h6 (not_not.mp h1) (Nat.lt_succ_self _)).trans ?_
      exact ⟨fun h => ⟨fun h' => absurd h' (by omega), fun _ _ _ => h⟩,
        fun h => h.2 h6 (not_not.mp h0) (not_not.mp h1)⟩
  · rw [List.getElem?_eq_none (by omega : buf.length ≤ 5), Option.bind_none]
    exact iff_of_false (by simp) fun h => h0 (h.1 (by omega))

/-- **The header of a handshake record** is not enough. -/
theorem record_header_overread :
    ¬ (extractBytes new [0x16, 0x03, 0x01, 0x00, 0x00]).isSome := by
  decide +kernel

end Ja3

end Is2
