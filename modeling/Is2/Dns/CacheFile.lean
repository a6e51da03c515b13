import Is2.Dns.AiCache

/-!
# What `ai_cache::read` takes from any file

A record of the file should be loaded from exactly as many bytes as a `host_info` has, or not at
all, and no member should be read as something that it is not.

`read` asks whether a record has the members `host` and `ai`, but not whether they are strings, and
copies as many bytes as there are: too few leave a part of the object as it was made, too many are
written behind it.  So a file is read safely exactly if its records are the right ones, and if its
size is not negative as a 32-bit number (`fileLaw_iff`).  The parser may be any function.
-/

namespace Is2

namespace AiCache

open Base64

/-- The members of a record. -/
abbrev Members := List (List Char × Json)

/-- The records that the loop comes to: those in front of the first one that is no object. -/
def objects : List Json → List Members
  | .obj ms :: rs => ms :: objects rs
  | _ => []

/-- The records of a document. -/
def docObjects : Option Json → List Members
  | some (.arr records) => objects records
  | _ => []

/-- The records that `read` comes to in a text. -/
def recordsIn (parse : List Char → Option Json) (content : List Char) : List Members :=
  docObjects (parse (cStr (content.take (int32 content.length).toNat)))

/-- The records that `read` comes to. -/
def recordsRead (parse : List Char → Option Json) (file : Option File) : List Members :=
  file.elim [] fun f => if f.regular ∧ f.opens then recordsIn parse f.content else []

/-- Both members are there and are strings. -/
def Loads (ms : Members) (host ai : List Char) : Prop :=
  ∃ h a, ms.lookup "host".toList = some (.str h) ∧ ms.lookup "ai".toList = some (.str a) ∧
    cStr h = host ∧ cStr a = ai

/-- **What has to happen to a record**: nothing, or an object is loaded from exactly its bytes. -/
def RecordLaw (ms : Members) (out : AiCacheMap) : Prop :=
  ∃ out', readMembers ms out = some out' ∧
    ((∀ host ai, ¬ Loads ms host ai) ∧ out' = out ∨
      ∃ host ai info, Loads ms host ai ∧ out' = out.insert host info ∧
        info.bytes = base64Decode ai)

/-- One record after the other. -/
def RecordsLaw : List Members → AiCacheMap → Prop
  | [], _ => True
  | ms :: rest, out =>
      RecordLaw ms out ∧ ∀ out', readMembers ms out = some out' → RecordsLaw rest out'

/-- **The file is read safely.** -/
def FileLaw (parse : List Char → Option Json) (closes : Bool) (file : Option File)
    (out : AiCacheMap) : Prop :=
  (read parse closes file out).isSome = true ∧ RecordsLaw (recordsRead parse file) out

/-- The record has no host; or its host is a string, and it has no `ai`, or one that is a string for
exactly as many bytes as a `host_info` has. -/
def RecordOk (ms : Members) : Prop :=
  ∀ host, ms.lookup "host".toList = some host → (∃ h, host = .str h) ∧
    ∀ ai, ms.lookup "ai".toList = some ai →
      ∃ a, ai = .str a ∧ (base64Decode (cStr a)).length = sizeofHostInfo

/-- The size of a file that is read is not negative. -/
def SizeOk (file : Option File) : Prop :=
  ∀ f ∈ file, f.regular = true → f.opens = true → 0 ≤ int32 f.content.length

/-! ## A record -/

variable {parse : List Char → Option Json} {closes : Bool} {file : Option File} {out : AiCacheMap}
  {ms : Members}

/-- As many bytes as there are in an object are what it then holds. -/
lemma copy_of_length {data : List UInt8} (h : data.length = sizeofHostInfo) :
    HostInfo.copy data = some ⟨data, h⟩ := by
  have hdrop : HostInfo.new.bytes.drop data.length = [] := by
    rw [h, ← HostInfo.new.size, List.drop_length]
  rw [HostInfo.copy, dif_pos h.le]
  simp [hdrop]

/-- Only a string is read as one. -/
lemma getString_eq_some {v : Json} {s : List Char} (h : getString v = some s) :
    ∃ t, v = .str t := by
  cases v with
  | str t => exact ⟨t, rfl⟩
  | _ => cases h

/-- Without a host nothing happens. -/
lemma recordLaw_of_no_host (h : ms.lookup "host".toList = none) : RecordLaw ms out := by
  refine ⟨out, by rw [readMembers, h]; rfl, .inl ⟨?_, rfl⟩⟩
  rintro host ai ⟨a, b, ha, -⟩
  rw [h] at ha
  cases ha

section Host

variable {h : List Char} (hhost : ms.lookup "host".toList = some (.str h))

include hhost

/-- Without an `ai` nothing happens, too. -/
lemma recordLaw_of_no_ai (hai : ms.lookup "ai".toList = none) : RecordLaw ms out := by
  refine ⟨out, by rw [readMembers, hhost, hai]; rfl, .inl ⟨?_, rfl⟩⟩
  rintro host ai ⟨a, b, -, hb, -⟩
  rw [hai] at hb
  cases hb

lemma readMembers_str {a : List Char} (hai : ms.lookup "ai".toList = some (.str a)) :
    readMembers ms out =
      (HostInfo.copy (base64Decode (cStr a))).map fun info => out.insert (cStr h) info := by
  simp only [readMembers, hhost, hai, Option.elim_some, getString, Option.bind_eq_bind,
    Option.bind_some]
  cases HostInfo.copy (base64Decode (cStr a)) with
  | none => rfl
  | some info => rfl

/-- With both, what counts is how many bytes there are. -/
lemma recordLaw_str {a : List Char} (hai : ms.lookup "ai".toList = some (.str a)) :
    RecordLaw ms out ↔ (base64Decode (cStr a)).length = sizeofHostInfo := by
  have hself : Loads ms (cStr h) (cStr a) := ⟨h, a, hhost, hai, rfl, rfl⟩
  constructor
  · rintro ⟨out', -, ⟨hnot, -⟩ | ⟨host, ai, info, hload, -, hbytes⟩⟩
    · exact absurd hself (hnot _ _)
    · obtain ⟨h', a', -, ha, -, rfl⟩ := hload
      rw [hai] at ha
      cases ha
      rw [← hbytes]
      exact info.size
  · intro hlen
    refine ⟨_, ?_, .inr ⟨_, _, ⟨_, hlen⟩, hself, rfl, rfl⟩⟩
    rw [readMembers_str hhost hai, copy_of_length hlen]
    rfl

end Host

/-- A record is treated as it should be exactly if it is a right one. -/
lemma recordLaw_iff : RecordLaw ms out ↔ RecordOk ms := by
  constructor
  · intro hlaw host hhost
    have hdone := hlaw
    obtain ⟨out', hout, -⟩ := hdone
    simp only [readMembers, hhost, Option.elim_some, Option.bind_eq_bind] at hout
    obtain ⟨h, hh, hrest⟩ := Option.bind_eq_some_iff.mp hout
    obtain ⟨t, rfl⟩ := getString_eq_some hh
    refine ⟨⟨t, rfl⟩, fun ai hai => ?_⟩
    simp only [hai, Option.elim_some] at hrest
    obtain ⟨a, ha, -⟩ := Option.bind_eq_some_iff.mp hrest
    obtain ⟨u, rfl⟩ := getString_eq_some ha
    exact ⟨u, rfl, (recordLaw_str hhost hai).mp hlaw⟩
  · intro hok
    cases hhost : ms.lookup "host".toList with
    | none => exact recordLaw_of_no_host hhost
    | some host =>
        obtain ⟨⟨h, rfl⟩, hai⟩ := hok host hhost
        cases hcase : ms.lookup "ai".toList with
        | none => exact recordLaw_of_no_ai hhost hcase
        | some ai =>
            obtain ⟨a, rfl, hlen⟩ := hai ai hcase
            exact (recordLaw_str hhost hcase).mpr hlen

/-! ## A file -/

lemma recordsLaw_iff {mss : List Members} (out : AiCacheMap) :
    RecordsLaw mss out ↔ ∀ ms ∈ mss, RecordOk ms := by
  induction mss generalizing out with
  | nil => simp [RecordsLaw]
  | cons ms mss ih =>
      rw [RecordsLaw, recordLaw_iff, List.forall_mem_cons]
      constructor
      · rintro ⟨hok, hrest⟩
        obtain ⟨out', hout, -⟩ := recordLaw_iff.mpr hok
        exact ⟨hok, (ih out').mp (hrest out' hout)⟩
      · rintro ⟨hok, hrest⟩
        exact ⟨hok, fun out' _ => (ih out').mpr hrest⟩

/-- Records that are treated as they should be are read to the end. -/
lemma isSome_readRecords {records : List Json} (h : RecordsLaw (objects records) out) :
    (readRecords records out).isSome = true := by
  induction records generalizing out with
  | nil => rfl
  | cons record records ih =>
      cases record with
      | obj ms =>
          obtain ⟨⟨out', hout, -⟩, hrest⟩ := h
          simp only [readRecords, hout, Option.bind_eq_bind, Option.bind_some]
          exact ih (hrest out' hout)
      | _ => rfl

lemma isSome_readDocument {doc : Option Json} (h : RecordsLaw (docObjects doc) out) :
    (readDocument closes doc out).isSome = true := by
  unfold readDocument
  split
  case h_1 records =>
    obtain ⟨⟨done, out'⟩, hread⟩ := Option.isSome_iff_exists.mp (isSome_readRecords h)
    simp only [hread, Option.bind_eq_bind, Option.bind_some]
    split_ifs
    · rfl
    · rfl
    · rfl
  case h_2 => rfl

/-- With a size that is not negative, the records are all that matters. -/
lemma isSome_readContent {content : List Char}
    (h : RecordsLaw (recordsIn parse content) out) :
    (readContent parse closes content out).isSome = true ↔ 0 ≤ int32 content.length := by
  rw [← not_lt]
  simp only [readContent]
  split_ifs with hneg hpart
  · simp [hneg]
  · simp [hneg]
  · simpa [hneg] using isSome_readDocument h

/-- **A file is read safely exactly if** its records are the right ones, and its size is not
negative. -/
theorem fileLaw_iff (parse : List Char → Option Json) (closes : Bool) (file : Option File)
    (out : AiCacheMap) :
    FileLaw parse closes file out ↔
      SizeOk file ∧ ∀ ms ∈ recordsRead parse file, RecordOk ms := by
  rw [FileLaw, ← recordsLaw_iff out]
  refine and_congr_left fun hlaw => ?_
  cases file with
  | none => simp [read, SizeOk]
  | some f =>
      by_cases hread : f.regular = true ∧ f.opens = true
      · simp only [recordsRead, Option.elim_some, if_pos hread] at hlaw
        simpa [read, SizeOk, hread.1, hread.2] using isSome_readContent hlaw
      · cases hregular : f.regular with
        | false => simp [read, SizeOk, hregular]
        | true => simp_all [read, SizeOk]

/-! ## Records that are none -/

/-- A number for the host. -/
def numberHost : File := ⟨true, true, "[\x7b\"host\":80\x7d]".toList⟩

/-- Three bytes for the address. -/
def shortAi : File := ⟨true, true, "[\x7b\"host\":\"h:80\",\"ai\":\"AAAA\"\x7d]".toList⟩

/-- A string. -/
def isStr : Json → Bool
  | .str _ => true
  | _ => false

/-- A string for as many bytes as a `host_info` has. -/
def isAi : Json → Bool
  | .str a => (base64Decode (cStr a)).length = sizeofHostInfo
  | _ => false

lemma isStr_iff (v : Json) : isStr v = true ↔ ∃ s, v = .str s := by
  cases v with
  | str s => simp [isStr]
  | _ => simp [isStr]

lemma isAi_iff (v : Json) : isAi v = true ↔
    ∃ a, v = .str a ∧ (base64Decode (cStr a)).length = sizeofHostInfo := by
  cases v with
  | str s => simp [isAi]
  | _ => simp [isAi]

instance (ms : Members) : Decidable (RecordOk ms) :=
  decidable_of_iff ((ms.lookup "host".toList).all fun host =>
      isStr host && (ms.lookup "ai".toList).all isAi) <| by
    simp only [RecordOk, Option.all_eq_true, Bool.and_eq_true, isStr_iff, isAi_iff]

/-- **A number is read as a string, and three bytes are loaded as an address.** -/
theorem odd_records_loaded :
    Rapidjson Json.read ∧ read Json.read true (some numberHost) .empty = none ∧
      ((read Json.read true (some shortAi) .empty).map fun r => r.2.entries.map Prod.fst) =
        some ["h:80".toList] ∧
      ¬ FileLaw Json.read true (some shortAi) .empty := by
  refine ⟨rapidjson_read, ?_, ?_, ?_⟩
  · exact Option.isNone_iff_eq_none.mp (by decide +kernel)
  · decide +kernel
  · rintro ⟨-, hlaw⟩
    exact absurd ((recordsLaw_iff _).mp hlaw) (by decide +kernel)

end AiCache

end Is2
