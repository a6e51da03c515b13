import Mathlib.Data.List.Basic

/-!
# Text messages with header fields

A message is a line, a line `name: value` for each field, an empty line and a body.  Every line ends
with CR LF.  If there is no line end inside the first line, a name or a value, and no colon inside a
name, then the text is the text of one message only (`render_inj`).
-/

namespace Is2

/-- A message as it is read. -/
structure HttpText where
  line : List UInt8
  fields : List (List UInt8 × List UInt8)
  body : List UInt8
deriving DecidableEq, Repr

namespace HttpText

/-- CR LF -/
def crlf : List UInt8 := [13, 10]

/-- There is no line end in it. -/
def Plain (s : List UInt8) : Prop := 13 ∉ s ∧ 10 ∉ s

instance (s : List UInt8) : Decidable (Plain s) := inferInstanceAs (Decidable (_ ∧ _))

/-- The line of a field. -/
def fieldLine (f : List UInt8 × List UInt8) : List UInt8 := f.1 ++ [58, 32] ++ f.2 ++ crlf

/-- The lines of the fields and the empty line. -/
def head (fields : List (List UInt8 × List UInt8)) : List UInt8 :=
  fields.flatMap fieldLine ++ crlf

def render (t : HttpText) : List UInt8 := t.line ++ crlf ++ head t.fields ++ t.body

/-- A name and a value that make a line. -/
def CleanField (f : List UInt8 × List UInt8) : Prop := (Plain f.1 ∧ 58 ∉ f.1) ∧ Plain f.2

instance (f : List UInt8 × List UInt8) : Decidable (CleanField f) :=
  inferInstanceAs (Decidable (_ ∧ _))

/-- **A message that can be read back.** -/
structure Clean (t : HttpText) : Prop where
  line : Plain t.line
  fields : ∀ f ∈ t.fields, CleanField f

instance (t : HttpText) : Decidable t.Clean :=
  decidable_of_iff (Plain t.line ∧ ∀ f ∈ t.fields, CleanField f)
    ⟨fun h => ⟨h.1, h.2⟩, fun h => ⟨h.line, h.fields⟩⟩

lemma Plain.sublist {s t : List UInt8} (h : Plain t) (hs : s.Sublist t) : Plain s :=
  ⟨fun hm => h.1 (hs.subset hm), fun hm => h.2 (hs.subset hm)⟩

lemma Plain.append {s t : List UInt8} (hs : Plain s) (ht : Plain t) : Plain (s ++ t) := by
  simp only [Plain, List.mem_append, not_or]
  exact ⟨⟨hs.1, ht.1⟩, hs.2, ht.2⟩

/-- Where an element is not in the front parts, it splits both lists at the same place. -/
lemma split_inj {x : UInt8} {s t r u : List UInt8} (hs : x ∉ s) (ht : x ∉ t)
    (h : s ++ x :: r = t ++ x :: u) : s = t ∧ r = u := by
  induction s generalizing t with
  | nil =>
      cases t with
      | nil => exact ⟨rfl, (List.cons.inj h).2⟩
      | cons c t => exact absurd (List.cons.inj h).1 fun hc => ht (hc ▸ List.mem_cons_self)
  | cons c s ih =>
      cases t with
      | nil => exact absurd (List.cons.inj h).1.symm fun hc => hs (hc ▸ List.mem_cons_self)
      | cons d t =>
          obtain ⟨rfl, htail⟩ := List.cons.inj h
          obtain ⟨rfl, hru⟩ := ih (List.not_mem_of_not_mem_cons hs)
            (List.not_mem_of_not_mem_cons ht) htail
          exact ⟨rfl, hru⟩

/-- A line ends at its first CR. -/
lemma line_inj {s t r u : List UInt8} (hs : Plain s) (ht : Plain t)
    (h : s ++ crlf ++ r = t ++ crlf ++ u) : s = t ∧ r = u := by
  simp only [crlf, List.append_assoc, List.cons_append, List.nil_append] at h
  obtain ⟨hst, hru⟩ := split_inj hs.1 ht.1 h
  exact ⟨hst, (List.cons.inj hru).2⟩

/-- The line of a field does not begin with a line end. -/
lemma crlf_ne_fieldLine {f : List UInt8 × List UInt8} (hf : CleanField f) {r u : List UInt8} :
    crlf ++ r ≠ fieldLine f ++ u := by
  obtain ⟨name, value⟩ := f
  cases name with
  | nil => simp [crlf, fieldLine]
  | cons c name =>
      intro h
      have hc : 13 = c := by
        simp only [crlf, fieldLine, List.cons_append, List.cons.injEq] at h
        exact h.1
      exact hf.1.1.1 (by simp [← hc])

/-- The line of a field ends where the value does, and the name in front of the first colon. -/
lemma fieldLine_inj {f g : List UInt8 × List UInt8} (hf : CleanField f) (hg : CleanField g)
    {r u : List UInt8} (h : fieldLine f ++ r = fieldLine g ++ u) : f = g ∧ r = u := by
  simp only [fieldLine, List.append_assoc, List.cons_append, List.nil_append] at h
  obtain ⟨hname, hrest⟩ := split_inj hf.1.2 hg.1.2 h
  obtain ⟨hvalue, hru⟩ := line_inj hf.2 hg.2 (r := r) (u := u)
    (by simpa using (List.cons.inj hrest).2)
  exact ⟨Prod.ext hname hvalue, hru⟩

lemma head_inj {fs gs : List (List UInt8 × List UInt8)} {r u : List UInt8}
    (hf : ∀ f ∈ fs, CleanField f) (hg : ∀ g ∈ gs, CleanField g)
    (h : head fs ++ r = head gs ++ u) : fs = gs ∧ r = u := by
  induction fs generalizing gs with
  | nil =>
      cases gs with
      | nil => exact ⟨rfl, List.append_cancel_left h⟩
      | cons g gs =>
          refine absurd h ?_
          simpa [head] using crlf_ne_fieldLine (hg g (by simp)) (r := r)
  | cons f fs ih =>
      cases gs with
      | nil =>
          refine absurd h.symm ?_
          simpa [head] using crlf_ne_fieldLine (hf f (by simp)) (r := u)
      | cons g gs =>
          have h' : fieldLine f ++ (head fs ++ r) = fieldLine g ++ (head gs ++ u) := by
            simpa [head] using h
          obtain ⟨rfl, hrest⟩ := fieldLine_inj (hf f (by simp)) (hg g (by simp)) h'
          obtain ⟨rfl, hru⟩ := ih (fun f hm => hf f (by simp [hm]))
            (fun g hm => hg g (by simp [hm])) hrest
          exact ⟨rfl, hru⟩

/-- **A text is read in one way only.** -/
theorem render_inj {t u : HttpText} (ht : t.Clean) (hu : u.Clean) (h : t.render = u.render) :
    t = u := by
  simp only [render, List.append_assoc] at h
  obtain ⟨hline, hrest⟩ := line_inj ht.line hu.line (r := head t.fields ++ t.body)
    (u := head u.fields ++ u.body) (by simpa using h)
  obtain ⟨hfields, hbody⟩ := head_inj ht.fields hu.fields hrest
  obtain ⟨line, fields, body⟩ := t
  obtain ⟨line', fields', body'⟩ := u
  exact HttpText.mk.injEq .. ▸ ⟨hline, hfields, hbody⟩

end HttpText

end Is2
