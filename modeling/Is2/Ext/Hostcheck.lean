import Is2.Srvr.CaseMaps

/-!
# `Curl_cert_hostcheck`

A name of a certificate is compared with the name of a host.

**Model.**  A C string is the list of its characters, without the NUL.  `strchr` gives the index of
what it points to, and `p + n` is `drop n`.

**What is accepted.**  A name is for a host if it is the host, ignoring case, or if it covers it:
there is a wildcard in its first label, which stands for one or more characters of the first label
of the host, and two more labels at least (`Covers`).  That is exactly what is accepted
(`certHostcheck_iff`), so that a wildcard never stands for a dot, nor for a top level
(`IsFor.labels`).
-/

namespace Is2

namespace Hostcheck

/-! ## The comparisons -/

/-- `Curl_raw_toupper` -/
def rawToupper (c : UInt8) : UInt8 := if 97 ≤ c ∧ c ≤ 122 then c - 32 else c

/-- `Curl_raw_equal` -/
def rawEqual : Bytes → Bytes → Bool
  | a :: first, b :: second =>
      if rawToupper a ≠ rawToupper b then false
      else rawEqual first second
  | first, second => rawToupper (first.headD 0) = rawToupper (second.headD 0)

/-- `Curl_raw_nequal` -/
def rawNequal : Bytes → Bytes → ℕ → Bool
  | a :: first, b :: second, max + 1 =>
      if rawToupper a ≠ rawToupper b then false
      else rawNequal first second max
  | first, second, max => max = 0 || rawToupper (first.headD 0) = rawToupper (second.headD 0)

/-- `strchr`, as an index -/
def strchr (s : Bytes) (c : UInt8) : Option ℕ := s.findIdx? (· = c)

/-- `hostmatch` -/
def hostmatch (hostname pattern : Bytes) : Bool :=
  match strchr pattern 42 with
  | none => rawEqual pattern hostname
  | some patternWildcard =>
      match strchr pattern 46 with
      | none => rawEqual pattern hostname
      | some patternLabelEnd =>
          if strchr (pattern.drop (patternLabelEnd + 1)) 46 = none ||
              patternLabelEnd < patternWildcard || rawNequal pattern (ascii "xn--") 4 then
            rawEqual pattern hostname
          else
            match strchr hostname 46 with
            | none => false
            | some hostnameLabelEnd =>
                if !rawEqual (pattern.drop patternLabelEnd) (hostname.drop hostnameLabelEnd) then
                  false
                else if hostnameLabelEnd < patternLabelEnd then false
                else
                  let prefixlen := patternWildcard
                  let suffixlen := patternLabelEnd - (patternWildcard + 1)
                  rawNequal pattern hostname prefixlen &&
                    rawNequal (pattern.drop (patternWildcard + 1))
                      (hostname.drop (hostnameLabelEnd - suffixlen)) suffixlen

/-- `Curl_cert_hostcheck` -/
def certHostcheck (matchPattern hostname : Bytes) : Bool :=
  if matchPattern = [] || hostname = [] then false
  else if rawEqual hostname matchPattern then true
  else hostmatch hostname matchPattern

/-! ## What names are for a host -/

/-- Two texts that differ in the case of letters only. -/
def SameText (s t : Bytes) : Prop := s.map rawToupper = t.map rawToupper

/-- A pattern with a wildcard in its first label covers a name that agrees with it from the first
dot on, and in its first label begins and ends as the pattern does, with something in between.
There are two more labels in the pattern, and it does not begin with `xn--`. -/
inductive Covers : Bytes → Bytes → Prop
  | wildcard {front back domain front' between back' domain' : Bytes}
      (star : 42 ∉ front) (label : 46 ∉ front ++ back) (dots : 46 ∈ domain)
      (plain : ¬ SameText ((front ++ 42 :: back ++ 46 :: domain).take 4) (ascii "xn--"))
      (label' : 46 ∉ front' ++ between ++ back') (some : between ≠ [])
      (same : SameText front front') (same' : SameText back back')
      (tail : SameText domain domain') :
      Covers (front ++ 42 :: back ++ 46 :: domain) (front' ++ between ++ back' ++ 46 :: domain')

/-- A name of a certificate that is for a host. -/
def IsFor (name host : Bytes) : Prop :=
  name ≠ [] ∧ host ≠ [] ∧ (SameText name host ∨ Covers name host)

/-! ## Letters -/

/-- Only letters are changed. -/
lemma rawToupper_eq {c d : UInt8} (hd : d < 65) : rawToupper c = d ↔ c = d := by
  unfold rawToupper
  split_ifs with h
  · obtain ⟨h1, h2⟩ := h
    have h97 : (97 : UInt8).toNat ≤ c.toNat := h1
    have hd65 : d.toNat < (65 : UInt8).toNat := hd
    have hsub : (c - 32).toNat = c.toNat - 32 := by
      rw [UInt8.toNat_sub_of_le _ _ (UInt8.le_trans (by decide) h1)]
      rfl
    simp only [UInt8.reduceToNat] at h97 hd65
    constructor
    · rintro rfl
      omega
    · rintro rfl
      omega
  · rfl

lemma SameText.symm {s t : Bytes} (h : SameText s t) : SameText t s := Eq.symm h

lemma SameText.length {s t : Bytes} (h : SameText s t) : s.length = t.length := by
  simpa using congrArg List.length h

lemma SameText.mem {s t : Bytes} {d : UInt8} (h : SameText s t) (hd : d < 65) :
    d ∈ s ↔ d ∈ t := by
  have hmem : ∀ u : Bytes, d ∈ u.map rawToupper ↔ d ∈ u := by
    intro u
    simp only [List.mem_map, rawToupper_eq hd, exists_eq_right]
  rw [← hmem s, ← hmem t, h]

lemma sameText_cons {a b : UInt8} {s t : Bytes} :
    SameText (a :: s) (b :: t) ↔ rawToupper a = rawToupper b ∧ SameText s t := by
  simp [SameText]

lemma rawEqual_iff {s t : Bytes} (hs : 0 ∉ s) (ht : 0 ∉ t) :
    rawEqual s t = true ↔ SameText s t := by
  fun_induction rawEqual s t with
  | case1 a s b t hne => simp [sameText_cons, hne]
  | case2 a s b t heq ih =>
      rw [ih (List.not_mem_of_not_mem_cons hs) (List.not_mem_of_not_mem_cons ht), sameText_cons]
      simp [not_not.mp heq]
  | case3 s t h =>
      have hzero : ∀ c : UInt8, rawToupper c = 0 ↔ c = 0 := fun c => rawToupper_eq (by decide)
      have h0 : rawToupper 0 = 0 := rfl
      cases s with
      | nil =>
          cases t with
          | nil => simp [SameText]
          | cons b t =>
              have hb : b ≠ 0 := fun hb => ht (by simp [hb])
              simp [SameText, h0, eq_comm (a := (0 : UInt8)), hzero, hb]
      | cons a s =>
          cases t with
          | nil =>
              have ha : a ≠ 0 := fun ha => hs (by simp [ha])
              simp [SameText, h0, hzero, ha]
          | cons b t => exact absurd rfl (h a s b t rfl)

lemma rawNequal_iff {s t : Bytes} {n : ℕ} (hs : 0 ∉ s) (ht : 0 ∉ t) :
    rawNequal s t n = true ↔ SameText (s.take n) (t.take n) := by
  fun_induction rawNequal s t n with
  | case1 a s b t n hne => simp [sameText_cons, hne]
  | case2 a s b t n heq ih =>
      rw [ih (List.not_mem_of_not_mem_cons hs) (List.not_mem_of_not_mem_cons ht),
        List.take_succ_cons, List.take_succ_cons, sameText_cons]
      simp [not_not.mp heq]
  | case3 s t n h =>
      have hzero : ∀ c : UInt8, rawToupper c = 0 ↔ c = 0 := fun c => rawToupper_eq (by decide)
      have h0 : rawToupper 0 = 0 := rfl
      cases n with
      | zero => simp [SameText]
      | succ n =>
          cases s with
          | nil =>
              cases t with
              | nil => simp [SameText]
              | cons b t =>
                  have hb : b ≠ 0 := fun hb => ht (by simp [hb])
                  simp [SameText, h0, eq_comm (a := (0 : UInt8)), hzero, hb]
          | cons a s =>
              cases t with
              | nil =>
                  have ha : a ≠ 0 := fun ha => hs (by simp [ha])
                  simp [SameText, h0, hzero, ha]
              | cons b t => exact absurd rfl (h a s b t n rfl rfl)

/-! ## Places -/

lemma strchr_eq_none {s : Bytes} {c : UInt8} : strchr s c = none ↔ c ∉ s := by
  simp [strchr, List.findIdx?_eq_none_iff]
  exact ⟨fun h hc => h c hc rfl, fun h x hx hxc => h (hxc ▸ hx)⟩

lemma strchr_append {s t : Bytes} {c : UInt8} (h : c ∉ s) :
    strchr (s ++ c :: t) c = some s.length := by
  have hfind : s.findIdx? (· = c) = none := strchr_eq_none.mpr h
  simp [strchr, List.findIdx?_append, List.findIdx?_cons, hfind]

lemma strchr_eq_some {s : Bytes} {c : UInt8} {i : ℕ} (h : strchr s c = some i) :
    ∃ a b, s = a ++ c :: b ∧ c ∉ a ∧ i = a.length := by
  have hc : c ∈ s := by
    by_contra hc
    rw [strchr_eq_none.mpr hc] at h
    simp at h
  obtain ⟨a, b, hs, ha⟩ := List.eq_append_cons_of_mem hc
  refine ⟨a, b, hs, ha, ?_⟩
  rw [hs, strchr_append ha] at h
  exact (Option.some.inj h).symm

/-! ## What is accepted -/

/-- What `hostmatch` compares when a pattern has a wildcard that counts: the texts behind the first
label, and the two ends of it. -/
lemma hostmatch_label {front back domain label domain' : Bytes} (star : 42 ∉ front)
    (hlabel : 46 ∉ front ++ back) (dots : 46 ∈ domain)
    (plain : ¬ SameText ((front ++ 42 :: back ++ 46 :: domain).take 4) (ascii "xn--"))
    (hlabel' : 46 ∉ label) (hp : 0 ∉ front ++ 42 :: back ++ 46 :: domain)
    (hh : 0 ∉ label ++ 46 :: domain') :
    hostmatch (label ++ 46 :: domain') (front ++ 42 :: back ++ 46 :: domain) = true ↔
      SameText domain domain' ∧ (front ++ 42 :: back).length ≤ label.length ∧
      SameText front (label.take front.length) ∧
      SameText back (label.drop (label.length - back.length)) := by
  have hstar : strchr (front ++ 42 :: back ++ 46 :: domain) 42 = some front.length := by
    rw [List.append_assoc]
    exact strchr_append star
  have hdot : strchr (front ++ 42 :: back ++ 46 :: domain) 46
      = some (front ++ 42 :: back).length := strchr_append (by simpa using hlabel)
  have hdot' : strchr (label ++ 46 :: domain') 46 = some label.length := strchr_append hlabel'
  have hmore : strchr ((front ++ 42 :: back ++ 46 :: domain).drop
      ((front ++ 42 :: back).length + 1)) 46 ≠ none := by
    rw [List.drop_append, List.drop_eq_nil_of_le (by simp), Nat.add_sub_cancel_left]
    simpa [strchr_eq_none] using dots
  have hxn : rawNequal (front ++ 42 :: back ++ 46 :: domain) (ascii "xn--") 4 = false := by
    rw [Bool.eq_false_iff, Ne, rawNequal_iff hp (by decide)]
    exact plain
  have hne : ∀ {u : Bytes}, u <:+ front ++ 42 :: back ++ 46 :: domain → 0 ∉ u :=
    fun hu h0 => hp (hu.mem h0)
  have hne' : ∀ {u : Bytes}, u <:+ label ++ 46 :: domain' → 0 ∉ u := fun hu h0 => hh (hu.mem h0)
  have hlen : (front ++ 42 :: back).length = front.length + (back.length + 1) := by simp
  have hsuffix : (front ++ 42 :: back).length - (front.length + 1) = back.length := by omega
  have hdrop : (front ++ 42 :: back ++ 46 :: domain).drop (front.length + 1)
      = back ++ 46 :: domain := by
    rw [List.append_assoc, List.drop_append, List.drop_eq_nil_of_le (by omega)]
    simp
  simp only [hostmatch, hstar, hdot, hdot', hxn, hmore, decide_false, Bool.false_or, Bool.or_false,
    hsuffix, hdrop, List.drop_left, decide_eq_true_eq, Bool.not_eq_true']
  rw [if_neg (by omega)]
  have htail : rawEqual (46 :: domain) (46 :: domain') = true ↔ SameText domain domain' := by
    rw [rawEqual_iff (hne (List.suffix_append _ _)) (hne' (List.suffix_append _ _)), sameText_cons]
    simp
  by_cases hsame : SameText domain domain'
  · rw [htail.mpr hsame, if_neg (by simp)]
    by_cases hle : label.length < (front ++ 42 :: back).length
    · rw [if_pos hle]
      exact iff_of_false (by simp) fun h => absurd h.2.1 (Nat.not_le.mpr hle)
    · have hback : ((label ++ 46 :: domain').drop (label.length - back.length)).take back.length
          = label.drop (label.length - back.length) := by
        have hl : (label.drop (label.length - back.length)).length = back.length := by
          rw [List.length_drop]
          omega
        rw [List.drop_append_of_le_length (by omega), List.take_append_of_le_length hl.ge,
          List.take_of_length_le hl.le]
      rw [if_neg hle, Bool.and_eq_true, rawNequal_iff hp hh,
        rawNequal_iff (hdrop ▸ hne (List.drop_suffix _ _)) (hne' (List.drop_suffix _ _)), hback,
        List.append_assoc, List.take_left, List.take_left,
        List.take_append_of_le_length (by omega)]
      exact ⟨fun h => ⟨hsame, Nat.not_lt.mp hle, h⟩, fun h => h.2.2⟩
  · rw [Bool.eq_false_iff.mpr (mt htail.mp hsame), if_pos rfl]
    simp [hsame]

/-- A text with a star that is not behind its first dot, taken apart at both. -/
lemma exists_label {pattern : Bytes} {w l : ℕ} (hw : strchr pattern 42 = some w)
    (hl : strchr pattern 46 = some l) (hwl : ¬ l < w) :
    ∃ front back domain, pattern = front ++ 42 :: back ++ 46 :: domain ∧ 42 ∉ front ∧
      46 ∉ front ++ back ∧ l = (front ++ 42 :: back).length := by
  obtain ⟨front, b, hpat, hstar, rfl⟩ := strchr_eq_some hw
  obtain ⟨c, domain, hpat', hdot, rfl⟩ := strchr_eq_some hl
  rw [hpat] at hpat'
  rcases List.append_eq_append_iff.mp hpat' with ⟨as, hc, has⟩ | ⟨bs, hfront, hbs⟩
  · cases as with
    | nil => simp at has
    | cons d back =>
        obtain ⟨rfl, rfl⟩ := List.cons.inj has
        refine ⟨front, back, domain, by rw [hpat, hpat', hc], hstar, ?_, by rw [hc]⟩
        rw [hc] at hdot
        simpa using hdot
  · cases bs with
    | nil => simp at hbs
    | cons d bs =>
        rw [hfront] at hwl
        simp at hwl

/-- A text with something between two ends of it. -/
lemma exists_between {u : Bytes} {m n : ℕ} (h : m + (n + 1) ≤ u.length) :
    ∃ between, u = u.take m ++ between ++ u.drop (u.length - n) ∧ between ≠ [] := by
  refine ⟨(u.drop m).take (u.length - n - m), ?_, ?_⟩
  · have hdrop : u.drop (u.length - n) = (u.drop m).drop (u.length - n - m) := by
      rw [List.drop_drop]
      congr 1
      omega
    rw [hdrop, List.append_assoc, List.take_append_drop, List.take_append_drop]
  · intro hnil
    have hlen := congrArg List.length hnil
    rw [List.length_take, List.length_drop, List.length_nil] at hlen
    omega

/-- `hostmatch` accepts what is the same, and what a wildcard covers. -/
lemma hostmatch_iff {pattern hostname : Bytes} (hp : 0 ∉ pattern) (hh : 0 ∉ hostname)
    (hne : ¬ SameText pattern hostname) :
    hostmatch hostname pattern = true ↔ Covers pattern hostname := by
  constructor
  · intro h
    have heq : rawEqual pattern hostname = false :=
      Bool.eq_false_iff.mpr (mt (rawEqual_iff hp hh).mp hne)
    cases hw : strchr pattern 42 with
    | none => simp [hostmatch, hw, heq] at h
    | some w =>
        cases hl : strchr pattern 46 with
        | none => simp [hostmatch, hw, hl, heq] at h
        | some l =>
            have hall := h
            simp only [hostmatch, hw, hl] at h
            split_ifs at h with henabled
            · simp [heq] at h
            · simp only [Bool.or_eq_true, decide_eq_true_eq, not_or] at henabled
              obtain ⟨⟨hmore, hwl⟩, hxn⟩ := henabled
              obtain ⟨front, back, domain, rfl, star, label, hlen⟩ := exists_label hw hl hwl
              cases hd : strchr hostname 46 with
              | none => simp [hd] at h
              | some e =>
                  obtain ⟨label', domain', rfl, hlabel', -⟩ := strchr_eq_some hd
                  have dots : 46 ∈ domain := by
                    rw [hlen, List.drop_append, List.drop_eq_nil_of_le (by simp),
                      Nat.add_sub_cancel_left, strchr_eq_none] at hmore
                    simpa using hmore
                  have plain := mt (rawNequal_iff hp (by decide)).mpr hxn
                  obtain ⟨htail, hle, hfront, hback⟩ :=
                    (hostmatch_label star label dots plain hlabel' hp hh).mp hall
                  obtain ⟨between, hbetween, hsome⟩ :=
                    exists_between (u := label') (m := front.length) (n := back.length)
                      (by simpa using hle)
                  rw [hbetween] at hlabel'
                  have hcovers := Covers.wildcard star label dots plain hlabel' hsome hfront hback
                    htail
                  rwa [← hbetween] at hcovers
  · rintro ⟨star, label, dots, plain, label', some, same, same', tail⟩
    have hsome := List.length_pos_iff.mpr some
    refine (hostmatch_label star label dots plain label' hp hh).mpr ⟨tail, ?_, ?_, ?_⟩
    · simp only [List.length_append, List.length_cons, same.length, same'.length]
      omega
    · rwa [same.length, List.append_assoc, List.take_left]
    · rwa [same'.length, List.length_append, Nat.add_sub_cancel, List.drop_left]

/-- **One name.**  `Curl_cert_hostcheck` accepts the names that are for a host, and no others. -/
theorem certHostcheck_iff {name host : Bytes} (hn : 0 ∉ name) (hh : 0 ∉ host) :
    certHostcheck name host = true ↔ IsFor name host := by
  have heq : rawEqual name host = true ↔ SameText name host := rawEqual_iff hn hh
  rw [certHostcheck, IsFor]
  by_cases hempty : name = [] ∨ host = []
  · rw [if_pos (by simpa using hempty)]
    exact iff_of_false (by simp) fun h => hempty.elim h.1 h.2.1
  · obtain ⟨hname, hhost⟩ := not_or.mp hempty
    rw [if_neg (by simp [hname, hhost])]
    by_cases hsame : SameText name host
    · rw [if_pos ((rawEqual_iff hh hn).mpr hsame.symm)]
      exact iff_of_true rfl ⟨hname, hhost, Or.inl hsame⟩
    · rw [if_neg (mt (rawEqual_iff hh hn).mp (mt SameText.symm hsame)), hostmatch_iff hn hh hsame]
      exact ⟨fun h => ⟨hname, hhost, Or.inr h⟩, fun h => h.2.2.resolve_left hsame⟩

/-- **How far a wildcard reaches.**  A name that is for a host has as many labels as the host, and
if it is not the host itself, the host has three labels at least and agrees with it behind the
first one. -/
theorem IsFor.labels {name host : Bytes} (h : IsFor name host) :
    name.count 46 = host.count 46 ∧
      (¬ SameText name host → 2 ≤ host.count 46 ∧
        SameText (name.dropWhile (· ≠ 46)) (host.dropWhile (· ≠ 46))) := by
  have hcount : ∀ {s t : Bytes}, SameText s t → s.count 46 = t.count 46 := by
    intro s t hst
    have hmap : ∀ u : Bytes, (u.map rawToupper).count 46 = u.count 46 := by
      intro u
      simp only [List.count, List.countP_map]
      congr 1
      funext c
      simp [rawToupper_eq (c := c) (d := 46) (by decide)]
    rw [← hmap s, ← hmap t, hst]
  obtain ⟨-, -, hsame | hcovers⟩ := h
  · exact ⟨hcount hsame, fun hne => absurd hsame hne⟩
  · obtain ⟨star, label, dots, plain, label', some, same, same', tail⟩ := hcovers
    rename_i front back domain front' between back' domain'
    have hone : 46 ∉ front ++ 42 :: back := by simpa using label
    have hcut : ∀ {u v : Bytes}, 46 ∉ u → (u ++ 46 :: v).dropWhile (· ≠ 46) = 46 :: v := by
      intro u v hu
      rw [List.dropWhile_append_of_pos (by simpa using fun c hc (h46 : c = 46) => hu (h46 ▸ hc))]
      simp
    have hdots : ∀ {u v : Bytes}, 46 ∉ u → (u ++ 46 :: v).count 46 = v.count 46 + 1 := by
      intro u v hu
      rw [List.count_append, List.count_eq_zero.mpr hu, List.count_cons_self, Nat.zero_add]
    have htail := hcount tail
    have hpos := List.count_pos_iff.mpr dots
    rw [hdots hone, hdots label', htail]
    refine ⟨rfl, fun _ => ⟨by omega, ?_⟩⟩
    rw [hcut hone, hcut label', sameText_cons]
    exact ⟨rfl, tail⟩

end Hostcheck

end Is2
