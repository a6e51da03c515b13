import Is2.Srvr.CaseMaps
import Is2.Srvr.Hmsg

/-!
# The fields of a URL

What `rqst` and `subr` use of `http_parser_parse_url`: it refuses a URL, or says where in it the
fields are.  A field that the URL does not have has length 0.  That the fields are inside the URL,
that a port is a 16-bit number, and that no empty URL is accepted, is part of the type.
-/

namespace Is2

/-- `http_parser_url_fields`. -/
inductive UrlField where
  | schema
  | host
  | port
  | path
  | query
  | fragment
  | userinfo
deriving DecidableEq, Repr

namespace UrlField

/-- The fields up to `UF_MAX`. -/
def all : List UrlField := [schema, host, port, path, query, fragment, userinfo]

lemma mem_all (k : UrlField) : k ∈ all := by
  cases k <;> decide

end UrlField

/-- A character that is a digit. -/
def isDigit (c : UInt8) : Bool := 48 ≤ c && c ≤ 57

/-- The number that digits are for. -/
def decimal (s : Bytes) : ℕ := s.foldl (fun n c => 10 * n + (c.toNat - 48)) 0

/-- The digits of a port. -/
def IsPort (s : Bytes) : Prop := (∀ c ∈ s, isDigit c = true) ∧ decimal s < 2 ^ 16

instance (s : Bytes) : Decidable (IsPort s) := inferInstanceAs (Decidable (_ ∧ _))

/-- `http_parser_parse_url`. -/
structure UrlParser where
  parseUrl : Bytes → Option (UrlField → Cr)
  parseUrl_nil : parseUrl [] = none
  stop_le {url : Bytes} {parts : UrlField → Cr} (k : UrlField) :
    parseUrl url = some parts → (parts k).stop ≤ url.length
  isPort {url : Bytes} {parts : UrlField → Cr} :
    parseUrl url = some parts → IsPort ((parts .port).slice url)

namespace UrlParser

/-- Whether a URL is accepted and has a field. -/
def reports (P : UrlParser) (k : UrlField) (url : Bytes) : Bool :=
  (P.parseUrl url).any fun parts => (parts k).len ≠ 0

lemma reports_iff {P : UrlParser} {k : UrlField} {url : Bytes} {parts : UrlField → Cr}
    (h : P.parseUrl url = some parts) : P.reports k url = true ↔ (parts k).len ≠ 0 := by
  simp [reports, h]

/-- A parser that knows a few URLs. -/
def ofTable (table : List (Bytes × (UrlField → Cr)))
    (h : ∀ e ∈ table, e.1 ≠ [] ∧ (∀ k ∈ UrlField.all, (e.2 k).stop ≤ e.1.length) ∧
      IsPort ((e.2 .port).slice e.1)) : UrlParser where
  parseUrl url := (table.find? fun e => e.1 = url).map Prod.snd
  parseUrl_nil := by
    rw [Option.map_eq_none_iff, List.find?_eq_none]
    intro e he
    simpa using (h e he).1
  stop_le := by
    intro url parts k hu
    obtain ⟨e, he, rfl⟩ := Option.map_eq_some_iff.mp hu
    obtain rfl : e.1 = url := by simpa using List.find?_some he
    exact (h e (List.mem_of_find?_eq_some he)).2.1 k (UrlField.mem_all k)
  isPort := by
    intro url parts hu
    obtain ⟨e, he, rfl⟩ := Option.map_eq_some_iff.mp hu
    obtain rfl : e.1 = url := by simpa using List.find?_some he
    exact (h e (List.mem_of_find?_eq_some he)).2.2

end UrlParser

end Is2
