import Is2.Core.HttpText
import Is2.Srvr.SubrHeaders

/-!
# The target of a subrequest

A URL that `init_with_url` accepts should say all of the target: scheme, host, port, path, query,
fragment and userinfo.  One that it refuses should say nothing, and `get_label` should give the
label of the scheme, the host and the port as they are, so that `subr_start` takes an idle
connection to that host.

A field that a URL lacks is left from an earlier URL, the port 0 is taken for no port, a scheme that
is not supported is refused after the port was reset, and the label is made once.  The target is the
right one as long as no call meets one of these (`keeps_iff`).
-/

namespace Is2

open CaseMaps

/-- Where a request goes. -/
structure Target where
  scheme : Scheme
  host : Bytes
  port : ℕ
  path : Bytes
  query : Bytes
  fragment : Bytes
  userinfo : Bytes
deriving DecidableEq, Repr

/-- The calls. -/
inductive TargetAct where
  | initWithUrl (url : Bytes)
  | setHost (val : Bytes)
  | getLabel
deriving DecidableEq, Repr

/-! ## Digits -/

lemma decimal_concat (s : Bytes) (c : UInt8) :
    decimal (s ++ [c]) = 10 * decimal s + (c.toNat - 48) := by
  rw [decimal, List.foldl_append]
  rfl

namespace SubrRqst

lemma digits_eq (n : ℕ) : digits n =
    if n < 10 then [UInt8.ofNat (48 + n)] else digits (n / 10) ++ [UInt8.ofNat (48 + n % 10)] := by
  have hdigit : ∀ d < 10, UInt8.ofNat (Nat.digitChar d).toNat = UInt8.ofNat (48 + d) := by decide
  rw [digits, Nat.toDigits_eq_if (by decide)]
  split_ifs with h
  · simp [hdigit n h]
  · simp [digits, hdigit (n % 10) (Nat.mod_lt n (by decide))]

/-- The digits of a number are read back. -/
lemma decimal_digits (n : ℕ) : decimal (digits n) = n := by
  have hdigit : ∀ d < 10, (UInt8.ofNat (48 + d)).toNat - 48 = d := by decide
  induction n using Nat.strong_induction_on with
  | _ n ih =>
      rw [digits_eq]
      split_ifs with h
      · simpa [decimal] using hdigit n h
      · rw [decimal_concat, ih (n / 10) (by omega), hdigit (n % 10) (Nat.mod_lt n (by decide))]
        omega

lemma isDigit_of_mem_digits {n : ℕ} {c : UInt8} (h : c ∈ digits n) : isDigit c = true := by
  have hdigit : ∀ d < 10, isDigit (UInt8.ofNat (48 + d)) = true := by decide
  induction n using Nat.strong_induction_on with
  | _ n ih =>
      rw [digits_eq] at h
      split_ifs at h with hn
      · rw [List.mem_singleton.mp h]
        exact hdigit n hn
      · rcases List.mem_append.mp h with h | h
        · exact ih (n / 10) (by omega) h
        · rw [List.mem_singleton.mp h]
          exact hdigit (n % 10) (Nat.mod_lt n (by decide))

/-! ## Labels -/

variable {s s' : SubrRqst}

lemma schemePrefix_inj {a b : Scheme} {x y : Bytes}
    (h : schemePrefix a ++ x = schemePrefix b ++ y) : a = b := by
  have hlen : ∀ c : Scheme, 5 ≤ (schemePrefix c).length := by
    intro c
    cases c <;> decide +kernel
  have hfive := congrArg (List.take 5) h
  rw [List.take_append_of_le_length (hlen a), List.take_append_of_le_length (hlen b)] at hfive
  revert hfive
  cases a <;> cases b <;> decide +kernel

/-- **Labels are the same** for the same scheme, host and port only. -/
lemma label_inj : s.label = s'.label ↔
    s.scheme = s'.scheme ∧ s.host = s'.host ∧ s.port = s'.port := by
  constructor
  · intro h
    simp only [label, List.append_assoc] at h
    have hscheme := schemePrefix_inj h
    rw [hscheme] at h
    have hcolon : ascii ":" = [58] := by decide +kernel
    have hrev := congrArg List.reverse (List.append_cancel_left h)
    simp only [hcolon, List.singleton_append, List.reverse_append, List.reverse_cons,
      List.append_assoc] at hrev
    have hnot : ∀ n, 58 ∉ (digits n).reverse := by
      intro n hn
      exact absurd (isDigit_of_mem_digits (List.mem_reverse.mp hn)) (by decide)
    obtain ⟨hport, hhost⟩ := HttpText.split_inj (hnot _) (hnot _) hrev
    refine ⟨hscheme, List.reverse_injective hhost, ?_⟩
    rw [← decimal_digits s.port, List.reverse_injective hport, decimal_digits]
  · rintro ⟨h₁, h₂, h₃⟩
    rw [label, label, h₁, h₂, h₃]

/-! ## The property -/

/-- The target as it is. -/
def target (s : SubrRqst) : Target :=
  ⟨s.scheme, s.host, s.port, s.path, s.query, s.fragment, s.userinfo⟩

/-- The scheme of a URL, if it is supported. -/
def schemeOf (part : Bytes) : Option Scheme :=
  if part = [] then some .none
  else if part = ascii "http" then some .tcp
  else if part = ascii "https" then some .tls
  else none

/-- The target that a URL is for: what it lacks is empty, and the port that of the scheme. -/
def targetOf (url : Bytes) (parts : UrlField → Cr) : Option Target :=
  let part k := (parts k).slice url
  (schemeOf (part .schema)).map fun scheme =>
    { scheme := scheme
      host := part .host
      port := if part .port = [] then defaultPort scheme else decimal (part .port)
      path := part .path
      query := part .query
      fragment := part .fragment
      userinfo := part .userinfo }

/-- A URL that is accepted sets the target, and one that is refused does not. -/
def UrlLaw (P : UrlParser) (s : SubrRqst) (url : Bytes) : Prop :=
  if (initWithUrl P s url).2 = true then
    (P.parseUrl (urlFixed url)).bind (targetOf (urlFixed url)) = some (initWithUrl P s url).1.target
  else (initWithUrl P s url).1.target = s.target

/-- `get_label` would give the label of the fields as they are. -/
def Labelled (s : SubrRqst) : Prop := s.getLabel.2 = s.label

/-- A call of `init_with_url` meets nothing that goes wrong: a URL with a scheme that is not
supported finds no port; any other has all the fields that are not empty yet, no port 0, and is for
the same server if there is a label already. -/
def SafeUrl (P : UrlParser) (s : SubrRqst) (url : Bytes) : Prop :=
  ∀ parts, P.parseUrl (urlFixed url) = some parts →
    let part k := (parts k).slice (urlFixed url)
    (targetOf (urlFixed url) parts).elim (s.port = 0) fun t =>
      (part .schema = [] → s.scheme = .none) ∧ (part .host = [] → s.host = []) ∧
      (part .path = [] → s.path = []) ∧ (part .query = [] → s.query = []) ∧
      (part .fragment = [] → s.fragment = []) ∧ (part .userinfo = [] → s.userinfo = []) ∧
      (part .port = [] ∨ decimal (part .port) ≠ 0) ∧
      (s.serverLabel = [] ∨ s.scheme = t.scheme ∧ s.host = t.host ∧ s.port = t.port)

end SubrRqst

namespace TargetAct

/-- What the code does. -/
def run (P : UrlParser) (s : SubrRqst) : TargetAct → Option SubrRqst
  | initWithUrl url => some (s.initWithUrl P url).1
  | setHost val => s.setHost val
  | getLabel => some s.getLabel.1

/-- What the call has to do to the target. -/
def Law (P : UrlParser) (s s' : SubrRqst) : TargetAct → Prop
  | initWithUrl url => s.UrlLaw P url
  | setHost val => s'.target = { s.target with host := val }
  | getLabel => s'.target = s.target

/-- The call meets nothing that goes wrong. -/
def Safe (P : UrlParser) (s : SubrRqst) : TargetAct → Prop
  | initWithUrl url => s.SafeUrl P url
  | setHost val => s.serverLabel = [] ∨ val = s.host
  | getLabel => True

end TargetAct

namespace SubrRqst

/-- **The target is kept**: every call does what it has to, and before and behind it `get_label`
gives the label of the fields as they are. -/
def Keeps (P : UrlParser) : SubrRqst → List TargetAct → Prop
  | s, [] => Labelled s
  | s, a :: as => Labelled s ∧ ∃ s', a.run P s = some s' ∧ a.Law P s s' ∧ Keeps P s' as

/-- Every call is safe where it is made. -/
def SafeCalls (P : UrlParser) : SubrRqst → List TargetAct → Prop
  | _, [] => True
  | s, a :: as => a.Safe P s ∧ ∀ s', a.run P s = some s' → SafeCalls P s' as

/-! ## What `init_with_url` does -/

variable {P : UrlParser} {s s' : SubrRqst} {url val : Bytes} {parts : UrlField → Cr}
  {a : TargetAct}

/-- A field of the loop that cannot fail; it is skipped where the URL lacks it. -/
def setOr (s : SubrRqst) (part : Bytes) (k : UrlField) : SubrRqst :=
  if part = [] then s else (s.setPart part k).getD s

/-- What it was, unless there is something new. -/
def keep (part old : Bytes) : Bytes := if part = [] then old else part

lemma setOr_eq {part : Bytes} {k : UrlField} (h : k ≠ .schema) : s.setOr part k =
    { s with
      host := if k = .host then keep part s.host else s.host
      port := if k = .port ∧ part ≠ [] then strtoul part % 2 ^ 16 else s.port
      path := if k = .path then keep part s.path else s.path
      query := if k = .query then keep part s.query else s.query
      fragment := if k = .fragment then keep part s.fragment else s.fragment
      userinfo := if k = .userinfo then keep part s.userinfo else s.userinfo } := by
  by_cases hp : part = []
  · simp [setOr, keep, hp]
  · cases k with
    | schema => exact absurd rfl h
    | _ => simp [setOr, setPart, keep, hp]

lemma slice_eq_nil_iff {c : Cr} (h : c.stop ≤ url.length) : c.slice url = [] ↔ c.len = 0 := by
  rw [← List.length_eq_zero_iff, Cr.length_slice h]

/-- The loop over fields that cannot fail. -/
lemma partsLoop_of (hstop : ∀ k, (parts k).stop ≤ url.length) (ks : List UrlField) :
    ∀ {s : SubrRqst}, UrlField.schema ∉ ks →
      partsLoop url parts ks s =
        (ks.foldl (fun s k => s.setOr ((parts k).slice url) k) s, true) := by
  induction ks with
  | nil => exact fun _ => rfl
  | cons k ks ih =>
      intro s hks
      rw [List.mem_cons, not_or] at hks
      have hnil := slice_eq_nil_iff (hstop k)
      rw [partsLoop, List.foldl_cons, setOr]
      by_cases hl : (parts k).len = 0
      · rw [if_neg (by simp [hl]), if_pos (hnil.mpr hl), ih hks.2]
      · rw [if_pos ⟨hl, hstop k⟩, if_neg (mt hnil.mp hl)]
        have hset : ∃ t, s.setPart ((parts k).slice url) k = some t := by
          cases k with
          | schema => exact absurd rfl hks.1
          | _ => exact ⟨_, rfl⟩
        obtain ⟨t, ht⟩ := hset
        rw [ht, Option.elim_some, Option.getD_some, ih hks.2]

/-- The object behind the loop, with the scheme that was set. -/
def loaded (url : Bytes) (parts : UrlField → Cr) (scheme : Scheme) (s : SubrRqst) : SubrRqst :=
  let part k := (parts k).slice url
  { s with
    scheme := if part .schema = [] then s.scheme else scheme
    host := keep (part .host) s.host
    port := if part .port = [] then 0 else decimal (part .port)
    path := keep (part .path) s.path
    query := keep (part .query) s.query
    fragment := keep (part .fragment) s.fragment
    userinfo := keep (part .userinfo) s.userinfo }

lemma strtoul_of_isPort {part : Bytes} (h : IsPort part) :
    strtoul part % 2 ^ 16 = decimal part := by
  have hall : part.takeWhile isDigit = part := List.takeWhile_eq_self_iff.mpr h.1
  have hlt := h.2
  rw [strtoul, hall, Nat.min_eq_left (by omega), Nat.mod_eq_of_lt hlt]

lemma setPart_schema {part : Bytes} (h : part ≠ []) :
    s.setPart part .schema = (schemeOf part).map fun scheme => { s with scheme := scheme } := by
  rw [setPart, schemeOf, if_neg h]
  split_ifs <;> rfl

/-- The loop behind the scheme. -/
lemma partsLoop_rest (hstop : ∀ k, (parts k).stop ≤ url.length)
    (hport : IsPort ((parts .port).slice url)) (s : SubrRqst) :
    partsLoop url parts [.host, .port, .path, .query, .fragment, .userinfo]
        { s with port := 0 } =
      ({ s.loaded url parts s.scheme with scheme := s.scheme }, true) := by
  rw [partsLoop_of hstop _ (by decide)]
  simp only [List.foldl_cons, List.foldl_nil, setOr_eq, ne_eq, reduceCtorEq, not_false_eq_true,
    if_true, if_false, true_and, false_and, loaded, strtoul_of_isPort hport, ite_not]

/-- **The loop**: a scheme that is not supported ends it at once; otherwise every field that the URL
has is set. -/
lemma partsLoop_all (hstop : ∀ k, (parts k).stop ≤ url.length)
    (hport : IsPort ((parts .port).slice url)) (s : SubrRqst) :
    partsLoop url parts UrlField.all { s with port := 0 } =
      (schemeOf ((parts .schema).slice url)).elim ({ s with port := 0 }, false) fun scheme =>
        (s.loaded url parts scheme, true) := by
  have hnil := slice_eq_nil_iff (hstop .schema)
  rw [UrlField.all, partsLoop]
  by_cases hl : (parts .schema).len = 0
  · have hp := hnil.mpr hl
    rw [if_neg (by simp [hl]), partsLoop_rest hstop hport]
    simp [schemeOf, loaded, hp]
  · have hp := mt hnil.mp hl
    rw [if_pos ⟨hl, hstop _⟩, setPart_schema hp]
    cases hs : schemeOf ((parts .schema).slice url) with
    | none => rfl
    | some scheme =>
        have hrest := partsLoop_rest hstop hport { s with scheme := scheme }
        simp only [Option.map_some, Option.elim_some]
        refine hrest.trans ?_
        simp [loaded, hp]

lemma initWithUrl_none (h : P.parseUrl (urlFixed url) = none) :
    initWithUrl P s url = (s, false) := by
  rw [initWithUrl, h, Option.elim_none]

lemma initWithUrl_refused (h : P.parseUrl (urlFixed url) = some parts)
    (hs : schemeOf ((parts .schema).slice (urlFixed url)) = none) :
    initWithUrl P s url = ({ s with port := 0 }, false) := by
  have hloop := partsLoop_all (fun k => P.stop_le k h) (P.isPort h) s
  rw [hs, Option.elim_none] at hloop
  rw [initWithUrl, h, Option.elim_some, hloop]
  simp

lemma initWithUrl_accepted {scheme : Scheme} (h : P.parseUrl (urlFixed url) = some parts)
    (hs : schemeOf ((parts .schema).slice (urlFixed url)) = some scheme) :
    initWithUrl P s url =
      let r := s.loaded (urlFixed url) parts scheme
      ({ r with port := if r.port = 0 then defaultPort r.scheme else r.port }, true) := by
  have hloop := partsLoop_all (fun k => P.stop_le k h) (P.isPort h) s
  rw [hs, Option.elim_some] at hloop
  rw [initWithUrl, h, Option.elim_some, hloop]
  by_cases hport : (s.loaded (urlFixed url) parts scheme).port = 0 <;> simp [hport]

/-! ## One call -/

lemma labelled_iff : s.Labelled ↔ s.serverLabel = [] ∨ s.serverLabel = s.label := by
  rw [Labelled, getLabel]
  by_cases h : s.serverLabel = [] <;> simp [h, resetLabel]

/-- A label that is kept is right as long as the server is the same. -/
lemma labelled_of_kept (h : s.Labelled) (hkept : s'.serverLabel = s.serverLabel) :
    s'.Labelled ↔ s.serverLabel = [] ∨
      s.scheme = s'.scheme ∧ s.host = s'.host ∧ s.port = s'.port := by
  rw [labelled_iff, hkept, ← label_inj]
  rcases labelled_iff.mp h with hnil | hlabel
  · simp [hnil]
  · rw [hlabel]

lemma keep_eq_iff {part old : Bytes} : keep part old = part ↔ (part = [] → old = []) := by
  rw [keep]
  split_ifs with h <;> simp [h]

lemma schemeOf_nil {scheme : Scheme} (h : schemeOf [] = some scheme) : scheme = .none :=
  (Option.some.inj h).symm

/-- The scheme that is left, and the port that is chosen, are those of the URL. -/
lemma scheme_port_iff {scheme : Scheme}
    (hs : schemeOf ((parts .schema).slice url) = some scheme) :
    let r := s.loaded url parts scheme
    let part := (parts .port).slice url
    (r.scheme = scheme ∧ (if r.port = 0 then defaultPort r.scheme else r.port) =
        if part = [] then defaultPort scheme else decimal part) ↔
      ((parts .schema).slice url = [] → s.scheme = .none) ∧ (part = [] ∨ decimal part ≠ 0) := by
  intro r part
  have hscheme : r.scheme = scheme ↔ ((parts .schema).slice url = [] → s.scheme = .none) := by
    by_cases hp : (parts .schema).slice url = []
    · rw [hp] at hs
      simp [r, loaded, hp, schemeOf_nil hs]
    · simp [r, loaded, hp]
  rw [hscheme]
  refine and_congr_right fun hnone => ?_
  rw [hscheme.mpr hnone]
  have hdefault : defaultPort scheme ≠ 0 := by
    rw [defaultPort]
    split_ifs <;> decide
  by_cases hp : part = []
  · simp [r, loaded, part, hp]
  · by_cases hd : decimal part = 0
    · have hr : r.port = 0 := by simp [r, loaded, part, hp, hd]
      rw [if_pos hr, if_neg hp, hd]
      simp [hdefault, hp]
    · have hr : r.port = decimal part := by simp [r, loaded, part, hp]
      rw [if_neg (by rwa [hr]), if_neg hp, hr]
      simp [hd]

/-- A URL that is accepted, field by field. -/
lemma accepted_iff {scheme : Scheme} (hl : s.Labelled)
    (h : P.parseUrl (urlFixed url) = some parts)
    (hs : schemeOf ((parts .schema).slice (urlFixed url)) = some scheme) :
    s.SafeUrl P url ↔ s.UrlLaw P url ∧ (s.initWithUrl P url).1.Labelled := by
  have hfields := scheme_port_iff (s := s) hs
  have htarget : targetOf (urlFixed url) parts = some
      { scheme := scheme
        host := (parts .host).slice (urlFixed url)
        port := if (parts .port).slice (urlFixed url) = [] then defaultPort scheme
          else decimal ((parts .port).slice (urlFixed url))
        path := (parts .path).slice (urlFixed url)
        query := (parts .query).slice (urlFixed url)
        fragment := (parts .fragment).slice (urlFixed url)
        userinfo := (parts .userinfo).slice (urlFixed url) } := by
    rw [targetOf, hs]
    rfl
  set r := s.loaded (urlFixed url) parts scheme with hr
  set s' : SubrRqst := { r with
    port := if r.port = 0 then defaultPort r.scheme else r.port } with hs'
  have hinit : initWithUrl P s url = (s', true) := initWithUrl_accepted h hs
  have hlabel : s'.Labelled ↔ _ := labelled_of_kept hl rfl
  simp only [SafeUrl, UrlLaw, h, Option.some.injEq, forall_eq', htarget, Option.elim_some, hinit,
    if_true, Option.bind_some, hlabel, target, Target.mk.injEq]
  constructor
  · rintro ⟨hnone, hhost, hpath, hquery, hfragment, huserinfo, hport, hserver⟩
    obtain ⟨hscheme, hport⟩ := hfields.mpr ⟨hnone, hport⟩
    have hhost' : s'.host = (parts .host).slice (urlFixed url) := keep_eq_iff.mpr hhost
    refine ⟨⟨hscheme.symm, hhost'.symm, hport.symm, (keep_eq_iff.mpr hpath).symm,
      (keep_eq_iff.mpr hquery).symm, (keep_eq_iff.mpr hfragment).symm,
      (keep_eq_iff.mpr huserinfo).symm⟩, ?_⟩
    have hscheme' : s'.scheme = scheme := hscheme
    have hport' : s'.port = _ := hport
    rw [hscheme', hhost', hport']
    exact hserver
  · rintro ⟨⟨hscheme, hhost, hport, hpath, hquery, hfragment, huserinfo⟩, hserver⟩
    obtain ⟨hnone, hdec⟩ := hfields.mp ⟨hscheme.symm, hport.symm⟩
    refine ⟨hnone, keep_eq_iff.mp hhost.symm, keep_eq_iff.mp hpath.symm, keep_eq_iff.mp hquery.symm,
      keep_eq_iff.mp hfragment.symm, keep_eq_iff.mp huserinfo.symm, hdec, ?_⟩
    rwa [← hport, ← hscheme, ← hhost] at hserver

/-- **A URL** is safe where it sets the target it should, or nothing, and the label is right. -/
lemma safeUrl_iff (hl : s.Labelled) :
    s.SafeUrl P url ↔ s.UrlLaw P url ∧ (s.initWithUrl P url).1.Labelled := by
  cases h : P.parseUrl (urlFixed url) with
  | none =>
      rw [SafeUrl, UrlLaw, initWithUrl_none h]
      simp [h, hl]
  | some parts =>
      cases hs : schemeOf ((parts .schema).slice (urlFixed url)) with
      | none =>
          rw [UrlLaw, initWithUrl_refused h hs]
          have htarget : targetOf (urlFixed url) parts = none := by simp [targetOf, hs]
          simp only [SafeUrl, h, Option.some.injEq, forall_eq', htarget, Option.elim_none,
            Bool.false_eq_true, if_false]
          constructor
          · intro hport
            have hsame : { s with port := 0 } = s := by rw [← hport]
            rw [hsame]
            exact ⟨rfl, hl⟩
          · rintro ⟨htarget, -⟩
            exact (congrArg Target.port htarget).symm
      | some scheme => exact accepted_iff hl h hs

lemma setHost_eq (s : SubrRqst) (val : Bytes) :
    ∃ hs, s.setHost val = some { s with host := val, headers := hs } := by
  rw [setHost, setHeader, lookup_delHeader, Option.elim_none]
  exact ⟨_, rfl⟩

/-- **One call** does what it has to and leaves the label right, if and only if it is safe. -/
lemma safeCall_iff (hl : s.Labelled) :
    a.Safe P s ↔ ∃ s', a.run P s = some s' ∧ a.Law P s s' ∧ s'.Labelled := by
  cases a with
  | initWithUrl url =>
      simp only [TargetAct.run, Option.some.injEq, exists_eq_left', TargetAct.Law]
      exact safeUrl_iff hl
  | setHost val =>
      obtain ⟨hs, he⟩ := s.setHost_eq val
      simp only [TargetAct.run, he, Option.some.injEq, exists_eq_left', TargetAct.Law]
      have hlabel : Labelled { s with host := val, headers := hs } ↔ _ := labelled_of_kept hl rfl
      rw [hlabel, TargetAct.Safe]
      simp [target, eq_comm]
  | getLabel =>
      refine iff_of_true trivial ⟨_, rfl, ?_, ?_⟩
      · rw [getLabel]
        split_ifs <;> rfl
      · rw [getLabel]
        split_ifs with hnil
        · rw [labelled_iff]
          exact .inr (by simp [resetLabel, hnil, label])
        · exact hl

/-! ## Every run -/

lemma keeps_of (acts : List TargetAct) : ∀ {s : SubrRqst}, s.Labelled →
    (Keeps P s acts ↔ SafeCalls P s acts) := by
  induction acts with
  | nil => exact fun hl => iff_of_true hl trivial
  | cons a as ih =>
      intro s hl
      rw [Keeps, SafeCalls, safeCall_iff hl]
      constructor
      · rintro ⟨-, s', he, hlaw, hk⟩
        have hl' : s'.Labelled := by
          cases as with
          | nil => exact hk
          | cons b bs => exact hk.1
        refine ⟨⟨s', he, hlaw, hl'⟩, ?_⟩
        intro s₂ he₂
        obtain rfl := Option.some.inj (he.symm.trans he₂)
        exact (ih hl').mp hk
      · rintro ⟨⟨s', he, hlaw, hl'⟩, hsafe⟩
        exact ⟨hl, s', he, hlaw, (ih hl').mpr (hsafe s' he)⟩

/-- **In every run of a new subrequest** the target is that of the last URL and host, and the label
that of the target, if and only if each call is safe where it is made. -/
theorem keeps_iff (P : UrlParser) (acts : List TargetAct) :
    Keeps P new acts ↔ SafeCalls P new acts :=
  keeps_of acts (labelled_iff.mpr (.inl rfl))

/-- What `http_parser_parse_url` says of three URLs. -/
def threeSites : UrlParser :=
  .ofTable
    [ (ascii "http://a/?q", fun k =>
        if k = .schema then ⟨0, 4⟩ else if k = .host then ⟨7, 1⟩
        else if k = .path then ⟨8, 1⟩ else if k = .query then ⟨10, 1⟩ else ⟨0, 0⟩),
      (ascii "http://b/", fun k =>
        if k = .schema then ⟨0, 4⟩ else if k = .host then ⟨7, 1⟩
        else if k = .path then ⟨8, 1⟩ else ⟨0, 0⟩),
      (ascii "ftp://a/", fun k =>
        if k = .schema then ⟨0, 3⟩ else if k = .host then ⟨6, 1⟩
        else if k = .path then ⟨7, 1⟩ else ⟨0, 0⟩) ]
    (by decide +kernel)

/-- A query is left from the URL before; a label is left from the host before; a URL that is refused
takes the port away. -/
theorem targets_are_mixed :
    ([.initWithUrl (ascii "http://a/?q"), .initWithUrl (ascii "http://b/")].foldlM
        (TargetAct.run threeSites) new).map (fun s => (s.host, s.query)) =
      some (ascii "b", ascii "q") ∧
    ([.initWithUrl (ascii "http://b/"), .getLabel, .setHost (ascii "c")].foldlM
        (TargetAct.run threeSites) new).map (fun s => (s.host, s.getLabel.2)) =
      some (ascii "c", ascii "http://b:80") ∧
    ([.initWithUrl (ascii "http://b/"), .initWithUrl (ascii "ftp://a/")].foldlM
        (TargetAct.run threeSites) new).map (fun s => (s.scheme, s.port)) = some (.tcp, 0) ∧
    ¬ Keeps threeSites new [.initWithUrl (ascii "http://a/?q"), .initWithUrl (ascii "http://b/")] ∧
    ¬ Keeps threeSites new [.initWithUrl (ascii "http://b/"), .getLabel, .setHost (ascii "c")] ∧
    ¬ Keeps threeSites new [.initWithUrl (ascii "http://b/"), .initWithUrl (ascii "ftp://a/")] := by
  refine ⟨by decide +kernel, by decide +kernel, by decide +kernel, ?_, ?_, ?_⟩
  · rintro ⟨-, s₁, h₁, -, -, s₂, -, hlaw, -⟩
    obtain rfl := Option.some.inj h₁
    have hnot : ¬ UrlLaw threeSites (initWithUrl threeSites new (ascii "http://a/?q")).1
        (ascii "http://b/") := by
      rw [UrlLaw, if_pos (by decide +kernel)]
      decide +kernel
    exact hnot hlaw
  · rintro ⟨-, s₁, h₁, -, -, s₂, h₂, -, -, s₃, h₃, -, hlabel⟩
    obtain rfl := Option.some.inj h₁
    obtain rfl := Option.some.inj h₂
    obtain rfl := Option.some.inj h₃
    revert hlabel
    rw [Keeps, Labelled]
    decide +kernel
  · rintro ⟨-, s₁, h₁, -, -, s₂, -, hlaw, -⟩
    obtain rfl := Option.some.inj h₁
    have hnot : ¬ UrlLaw threeSites (initWithUrl threeSites new (ascii "http://b/")).1
        (ascii "ftp://a/") := by
      rw [UrlLaw, if_neg (by decide +kernel)]
      decide +kernel
    exact hnot hlaw

end SubrRqst

end Is2
