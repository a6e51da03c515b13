import Is2.Core.HttpText
import Is2.Srvr.CaseMaps
import Is2.Srvr.Delivery

/-!
# The text of a response

`api_resp::serialize` writes a response to a queue: a status line, a line for each header, an empty
line and the body.  Its reader splits the text at the line ends, and gets the status, the headers
and the body back if no name or value has a line end in it and no name a colon.

`api_resp::set_headers` gives a response a map of its caller's, so that the headers are any map.

The status line of a status without an entry in `S_CODE_RESP_MAP` is another one, with a status of
its own and without a line end; and a name or a value of 4 GiB or more is cut.  Everything else is
read as it was set (`respLaw_iff`).
-/

namespace Is2

namespace ApiResp

open CaseMaps HttpText

/-- `S_CODE_RESP_MAP`, as it is written down.  The map has the first of two entries with one key. -/
def sCodeRespMap : List (ℕ × String) :=
  [ (200, "OK"),
    (201, "Created"),
    (200, "Accepted"),
    (302, "Redirect"),
    (400, "Bad Request"),
    (401, "Unauthorized"),
    (403, "Forbidden"),
    (404, "Not Found"),
    (405, "Method Not Allowed"),
    (408, "Request Timeout"),
    (500, "Internal Server Error"),
    (501, "Not Implemented"),
    (502, "Bad Gateway"),
    (503, "Service Unavailable"),
    (504, "Gateway Timeout"),
    (508, "Loop Detected") ]

/-- The reason of a status. -/
def codeResp (status : ℕ) : Option Bytes :=
  (sCodeRespMap.find? fun e => e.1 = status).map fun e => ascii e.2

/-! ## Setting the headers -/

/-- `api_resp::set_header` -/
def setHeader (r : ApiResp) (key val : Bytes) : ApiResp :=
  { r with headers := kvMapListInsert r.headers key val }

/-- Each name and value that is written. -/
def pairs (r : ApiResp) : List (Bytes × Bytes) := kvPairs r.headers

/-- **Names and values that can be read back.** -/
def Clean (r : ApiResp) : Prop := ∀ f ∈ r.pairs, CleanField f

instance (r : ApiResp) : Decidable r.Clean := inferInstanceAs (Decidable (∀ f ∈ _, _))

/-! ## The property -/

/-- A status line for a status. -/
def Carries (line : Bytes) (status : ℕ) : Prop :=
  ∃ reason, line = ascii "HTTP/1.1 " ++ statusStr status ++ reason

/-- **The text is read in one way**, and that way it says what the response does. -/
def RespLaw (r : ApiResp) (text : Bytes) : Prop :=
  ∃ t : HttpText, t.Clean ∧ t.render = text ∧ Carries t.line r.status ∧ t.fields = r.pairs ∧
    t.body = r.bodyData.getD [] ∧ ∀ u : HttpText, u.Clean → u.render = text → u = t

/-- The status has a reason, and the lengths of the names and values are 32-bit. -/
def Listed (r : ApiResp) : Prop :=
  (codeResp r.status).isSome = true ∧ ∀ f ∈ r.pairs, f.1.length < 2 ^ 32 ∧ f.2.length < 2 ^ 32

instance (r : ApiResp) : Decidable r.Listed := inferInstanceAs (Decidable (_ ∧ _))

/-! ## What is written -/

variable {r : ApiResp}

/-- A line as it is written. -/
def cutField (f : Bytes × Bytes) : Bytes × Bytes := (cut f.1, cut f.2)

lemma cut_eq_iff {s : Bytes} : cut s = s ↔ s.length < 2 ^ 32 := by
  rw [cut, List.take_eq_self_iff]
  have := Nat.mod_lt s.length (show 2 ^ 32 > 0 by omega)
  constructor
  · omega
  · intro h
    rw [Nat.mod_eq_of_lt h]

lemma length_cut_le (s : Bytes) : (cut s).length ≤ s.length := List.length_take_le' _ _

/-- Lines for headers. -/
lemma flatMap_writeHeader (fs : List (Bytes × Bytes)) :
    (fs.flatMap fun f => writeHeader f.1 f.2).flatMap (·.getD []) =
      (fs.map cutField).flatMap fieldLine := by
  rw [List.flatMap_assoc, List.flatMap_map]
  refine List.flatMap_congr fun f _ => ?_
  simp [writeHeader, fieldLine, cutField, crlf]

lemma bytes_eq (codes : ℕ → Option Bytes) (r : ApiResp) :
    r.bytes codes = (writeStatus codes r.status).flatMap (·.getD []) ++
      head (r.pairs.map cutField) ++ r.bodyData.getD [] := by
  have hlines : (r.headers.flatMap fun h => if h.1 = [] then [] else
      h.2.flatMap (writeHeader h.1)) = r.pairs.flatMap fun f => writeHeader f.1 f.2 := by
    rw [pairs, kvPairs, List.flatMap_assoc]
    refine List.flatMap_congr fun h _ => ?_
    split_ifs
    · rfl
    · rw [List.flatMap_map]
  have hbody : (writeBody (r.bodyData.filter (· ≠ []))).flatMap (·.getD []) =
      crlf ++ r.bodyData.getD [] := by
    cases hb : r.bodyData with
    | none => rfl
    | some b => cases b <;> simp [writeBody, crlf, Option.filter]
  rw [bytes, buffers, List.flatMap_append, List.flatMap_append, hlines, flatMap_writeHeader, hbody]
  simp [head]

lemma codeResp_some {status : ℕ} {reason : Bytes} (h : codeResp status = some reason) :
    ∃ e ∈ sCodeRespMap, e.1 = status ∧ ascii e.2 = reason := by
  obtain ⟨e, he, hr⟩ := Option.map_eq_some_iff.mp h
  exact ⟨e, List.mem_of_find?_eq_some he, by simpa using List.find?_some he, hr⟩

/-- Every entry makes a line. -/
lemma plain_statusLine {status : ℕ} {reason : Bytes} (h : codeResp status = some reason) :
    Plain (ascii "HTTP/1.1 " ++ statusStr status ++ reason) := by
  obtain ⟨e, he, rfl, rfl⟩ := codeResp_some h
  revert e
  decide +kernel

lemma writeStatus_some {codes : ℕ → Option Bytes} {status : ℕ} {reason : Bytes}
    (h : codes status = some reason) : (writeStatus codes status).flatMap (·.getD []) =
      ascii "HTTP/1.1 " ++ statusStr status ++ reason ++ crlf := by
  have hversion : ascii "HTTP/1.1 " = [72, 84, 84, 80, 47, 49, 46, 49, 32] := by decide +kernel
  simp [writeStatus, h, hversion, crlf]

lemma writeStatus_none {codes : ℕ → Option Bytes} {status : ℕ} (h : codes status = none) :
    (writeStatus codes status).flatMap (·.getD []) = ascii "HTTP/1.1 900 Missing" := by
  simp only [writeStatus, h]
  decide +kernel

lemma cutField_clean {f : Bytes × Bytes} (h : CleanField f) : CleanField (cutField f) := by
  have hs : ∀ s : Bytes, (cut s).Sublist s := fun s => List.take_sublist _ _
  exact ⟨⟨h.1.1.sublist (hs _), fun hm => h.1.2 ((hs _).subset hm)⟩, h.2.sublist (hs _)⟩

lemma map_cutField_eq_iff {fs : List (Bytes × Bytes)} :
    fs.map cutField = fs ↔ ∀ f ∈ fs, f.1.length < 2 ^ 32 ∧ f.2.length < 2 ^ 32 := by
  have hf : ∀ f : Bytes × Bytes, cutField f = id f ↔ f.1.length < 2 ^ 32 ∧ f.2.length < 2 ^ 32 :=
    fun f => by rw [cutField, id, Prod.ext_iff, cut_eq_iff, cut_eq_iff]
  conv_lhs => rhs; rw [← List.map_id fs]
  rw [List.map_inj_left]
  simp only [hf]

/-! ## A status with a reason -/

lemma respLaw_listed {reason : Bytes} (hc : r.Clean) (h : codeResp r.status = some reason) :
    r.RespLaw (r.bytes codeResp) ↔ ∀ f ∈ r.pairs, f.1.length < 2 ^ 32 ∧ f.2.length < 2 ^ 32 := by
  set t : HttpText := ⟨ascii "HTTP/1.1 " ++ statusStr r.status ++ reason, r.pairs.map cutField,
    r.bodyData.getD []⟩ with ht
  have hclean : t.Clean := by
    refine ⟨plain_statusLine h, ?_⟩
    intro f hf
    obtain ⟨g, hg, rfl⟩ := List.mem_map.mp hf
    exact cutField_clean (hc g hg)
  have htext : t.render = r.bytes codeResp := by
    rw [bytes_eq, writeStatus_some h, ht, render]
  rw [← map_cutField_eq_iff]
  constructor
  · rintro ⟨u, hu, hrender, -, hfields, -, -⟩
    rw [render_inj hu hclean (hrender.trans htext.symm)] at hfields
    exact hfields
  · intro hcut
    exact ⟨t, hclean, htext, ⟨reason, rfl⟩, hcut, rfl,
      fun u hu hrender => render_inj hu hclean (hrender.trans htext.symm)⟩

/-! ## A status without a reason -/

/-- A number has no space in it. -/
lemma space_notMem_digits (n : ℕ) :
    32 ∉ (Nat.toDigits 10 n).map fun c => UInt8.ofNat c.toNat := by
  intro h
  obtain ⟨c, hc, hspace⟩ := List.mem_map.mp h
  have hdigit := Nat.isDigit_of_mem_toDigits (by decide) (by decide) hc
  simp only [Char.isDigit, ge_iff_le, Bool.and_eq_true, decide_eq_true_eq, UInt32.le_iff_toNat_le]
    at hdigit
  have hlow : 48 ≤ c.toNat := hdigit.1
  have hhigh : c.toNat ≤ 57 := hdigit.2
  have hnat : c.toNat % 2 ^ 8 = 32 := congrArg UInt8.toNat hspace
  omega

lemma length_head_cut_le (fs : List (Bytes × Bytes)) :
    (head (fs.map cutField)).length ≤ (head fs).length := by
  induction fs with
  | nil => simp [head]
  | cons f fs ih =>
      have h₁ := length_cut_le f.1
      have h₂ := length_cut_le f.2
      simp only [head, List.map_cons, List.flatMap_cons, List.length_append, fieldLine,
        cutField] at ih ⊢
      omega

/-- The other status line has a status of its own, and no end. -/
lemma not_respLaw_missing (h : codeResp r.status = none) : ¬ r.RespLaw (r.bytes codeResp) := by
  rintro ⟨t, -, hrender, ⟨reason, hline⟩, hfields, hbody, -⟩
  rw [bytes_eq, writeStatus_none h, render, hline, hfields, hbody] at hrender
  have hmissing : ascii "HTTP/1.1 900 Missing" =
      ascii "HTTP/1.1 " ++ (ascii "900" ++ 32 :: ascii "Missing") := by decide +kernel
  rw [hmissing, statusStr] at hrender
  simp only [List.append_assoc, List.cons_append, List.nil_append] at hrender
  obtain ⟨-, hrest⟩ := split_inj (space_notMem_digits r.status) (by decide +kernel)
    (List.append_cancel_left hrender)
  have hlen := congrArg List.length hrest
  have hle := length_head_cut_le r.pairs
  have hseven : (ascii "Missing").length = 7 := by decide +kernel
  -- the reason and a line end would be in front of what follows "Missing"
  have hprefix : reason ++ crlf <+: ascii "Missing" := by
    have hline : reason ++ crlf <+: reason ++ (crlf ++ (head r.pairs ++ r.bodyData.getD [])) := by
      rw [← List.append_assoc]
      exact List.prefix_append _ _
    rw [hrest] at hline
    refine List.prefix_of_prefix_length_le hline (List.prefix_append _ _) ?_
    simp only [List.length_append] at hlen ⊢
    omega
  have hcr : 13 ∈ ascii "Missing" := hprefix.subset (by simp [crlf])
  exact absurd hcr (by decide +kernel)

/-! ## Every response -/

/-- **What a response leaves in a queue** is read as that response if and only if its status has a
reason and no name or value has 4 GiB or more. -/
theorem respLaw_iff {q : Nbq} {a : SeekQueue UInt8} (hq : Nbq.Rep q a) (hc : r.Clean) :
    ∃ q', r.serialize codeResp q = some q' ∧ (r.RespLaw q'.unread ↔ r.Listed) := by
  obtain ⟨q', a', he, hrep, hu⟩ := serialize_spec codeResp r hq
  refine ⟨q', he, ?_⟩
  rw [hrep.unread, hu, Listed]
  cases h : codeResp r.status with
  | none => simp [not_respLaw_missing h]
  | some reason => simp [respLaw_listed hc h]

/-- A page with a header and a body. -/
def page : ApiResp := setHeader ⟨200, [], some (ascii "hi")⟩ (ascii "Server") (ascii "is2")

theorem respLaw_page : ∃ q', page.serialize codeResp (.init 16) = some q' ∧
    page.RespLaw q'.unread := by
  have hq : Nbq.Rep (.init 16) .empty := Nbq.rep_init (by decide) (by decide)
  obtain ⟨q', he, h⟩ := respLaw_iff hq (r := page) (by decide +kernel)
  exact ⟨q', he, h.mpr (by decide +kernel)⟩

/-- `HTTP_STATUS_ACCEPTED` is a status without a reason. -/
theorem accepted_has_no_line : ∃ q', (ApiResp.mk 202 [] none).serialize codeResp (.init 64) =
    some q' ∧ q'.unread = ascii "HTTP/1.1 900 Missing\r\n" ∧
      ¬ (ApiResp.mk 202 [] none).RespLaw q'.unread := by
  have hq : Nbq.Rep (.init 64) .empty := Nbq.rep_init (by decide) (by decide)
  obtain ⟨q', a', he, hrep, hu⟩ := serialize_spec codeResp ⟨202, [], none⟩ hq
  have htext : (ApiResp.mk 202 [] none).bytes codeResp = ascii "HTTP/1.1 900 Missing\r\n" := by
    decide +kernel
  refine ⟨q', he, ?_, ?_⟩
  · rw [hrep.unread, hu, htext]
  · rw [hrep.unread, hu]
    exact not_respLaw_missing (by decide +kernel)

end ApiResp

end Is2
