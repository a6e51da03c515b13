import Is2.Core.Json
import Is2.Ext.Base64
import Mathlib.Data.Char
import Mathlib.Data.List.Lex

/-!
# `ai_cache::sync` and `ai_cache::read`

The cache of resolved addresses is kept in a file: `sync` prints it as a JSON array, and `read` puts
what a JSON parser finds in the file into a map.

**Model.**  A `std::map` is the list of its entries in the order of the keys.  A `host_info` is its
bytes.  The file is what the calls on it show: whether it is a regular file, whether it can be
opened, and its characters.  A read through an object of the wrong kind, a write behind the end of
an object and a read into memory that could not be allocated are undefined (`none`).

**rapidjson** is a parameter.  What the code relies on is `Rapidjson`: a text that is JSON, without
escapes and numbers, is parsed as its value, and a text that is no JSON gives no document.

**The size.**  `read` keeps the size of the file in 32 bits.  A longer file is read in part or not
at all, so the map is read back exactly if the file is shorter than 2 GiB: `read_sync_iff`.
-/

namespace Is2

namespace AiCache

open Base64

/-- `STATUS_OK` -/
abbrev statusOk : ℤ := 0

/-- `STATUS_ERROR` -/
abbrev statusError : ℤ := -1

/-! ## The map -/

/-- `sizeof(host_info)`: 128 bytes for the address, five integers of four bytes, and padding. -/
abbrev sizeofHostInfo : ℕ := 152

/-- The bytes of a `host_info`. -/
structure HostInfo where
  bytes : List UInt8
  size : bytes.length = sizeofHostInfo
  deriving DecidableEq

/-- `host_info::host_info` -/
def HostInfo.new : HostInfo where
  bytes := [2, 0] ++ List.replicate 126 0 ++ [16, 0, 0, 0] ++ [2, 0, 0, 0] ++ [1, 0, 0, 0] ++
    [6, 0, 0, 0] ++ [0, 0, 0, 0] ++ [0, 0, 0, 0]
  size := rfl

/-- `ai_cache_map_t` -/
@[ext] structure AiCacheMap where
  entries : List (List Char × HostInfo)
  sorted : entries.Pairwise fun e f => e.1 < f.1
  deriving DecidableEq

/-- No entries. -/
def AiCacheMap.empty : AiCacheMap := ⟨[], .nil⟩

/-- `map[key] = info` -/
def AiCacheMap.insert (m : AiCacheMap) (key : List Char) (info : HostInfo) : AiCacheMap where
  entries := m.entries.filter (·.1 < key) ++ (key, info) :: m.entries.filter (key < ·.1)
  sorted := by
    refine List.pairwise_append.mpr
      ⟨m.sorted.filter _, List.pairwise_cons.mpr ⟨?_, m.sorted.filter _⟩, ?_⟩
    · intro e he
      simpa using (List.mem_filter.mp he).2
    · intro e he f hf
      have hlt : e.1 < key := by simpa using (List.mem_filter.mp he).2
      rcases List.mem_cons.mp hf with rfl | hf
      · exact hlt
      · exact hlt.trans (by simpa using (List.mem_filter.mp hf).2)

/-- `get_cache_key` -/
def getCacheKey (host : List Char) (port : UInt16) : List Char :=
  host ++ ':' :: (Nat.toDigits 10 port.toNat).take 7

/-! ## The file -/

/-- What the calls on the file show: `st_mode & S_IFREG`, whether `fopen` succeeds, and the
bytes. -/
structure File where
  regular : Bool
  opens : Bool
  content : List Char

/-- A string up to its first NUL, as `c_str()` shows it. -/
def cStr (s : List Char) : List Char := s.takeWhile (· ≠ '\x00')

/-- The texts that a turn of the loop in `sync` prints. -/
def printEntry (len i : ℕ) (e : List Char × HostInfo) : List Char :=
  "\x7b".toList ++
  ("\"host\": \"".toList ++ cStr e.1 ++ "\",".toList) ++
  ("\"ai\": \"".toList ++ cStr (base64Encode e.2.bytes) ++ "\"".toList) ++
  if i = len then "\x7d".toList else "\x7d,".toList

/-- The loop in `sync`; `l_len` and `i_len` have 32 bits. -/
def printEntries (len : ℕ) : ℕ → List (List Char × HostInfo) → List Char
  | _, [] => []
  | i, e :: es =>
    let i := (i + 1) % 2 ^ 32
    printEntry len i e ++ printEntries len i es

/-- What `sync` prints. -/
def print (m : AiCacheMap) : List Char :=
  "[".toList ++ printEntries (m.entries.length % 2 ^ 32) 0 m.entries ++ "]".toList

/-- `ai_cache::sync`: the status and the file.  The arguments say whether `fopen` and `fclose`
succeed. -/
def sync (opens closes : Bool) (file : Option File) (m : AiCacheMap) : ℤ × Option File :=
  if !opens then (statusError, file)
  else if !closes then (statusError, some ⟨true, true, print m⟩)
  else (statusOk, some ⟨true, true, print m⟩)

/-- `GetString`; it may only be called on a string. -/
def getString : Json → Option (List Char)
  | .str s => some (cStr s)
  | _ => none

/-- `memcpy` to a new `host_info`. -/
def HostInfo.copy (data : List UInt8) : Option HostInfo :=
  if h : data.length ≤ sizeofHostInfo then
    some ⟨data ++ HostInfo.new.bytes.drop data.length, by
      rw [List.length_append, List.length_drop, HostInfo.new.size]
      omega⟩
  else none

/-- The members of a record are put into the map. -/
def readMembers (ms : List (List Char × Json)) (out : AiCacheMap) : Option AiCacheMap :=
  (ms.lookup "host".toList).elim (some out) fun hostVal => do
    let host ← getString hostVal
    (ms.lookup "ai".toList).elim (some out) fun aiVal => do
      let ai ← getString aiVal
      let info ← HostInfo.copy (base64Decode ai)
      some (out.insert host info)

/-- The loop over the records, and whether it went to the end. -/
def readRecords : List Json → AiCacheMap → Option (Bool × AiCacheMap)
  | [], out => some (true, out)
  | .obj ms :: rs, out => do
    let out ← readMembers ms out
    readRecords rs out
  | _ :: _, out => some (false, out)

/-- What `read` does with the document. -/
def readDocument (closes : Bool) (doc : Option Json) (out : AiCacheMap) :
    Option (ℤ × AiCacheMap) :=
  match doc with
  | some (.arr records) => do
    let (done, out) ← readRecords records out
    if !done then some (statusOk, out)
    else if !closes then some (statusError, out)
    else some (statusOk, out)
  | _ => some (statusOk, out)

/-- `int32_t` -/
def int32 (n : ℕ) : ℤ := (n : ℤ).bmod (2 ^ 32)

/-- The part of `read` behind `fopen`.  A negative size is a huge one for `malloc`, which then gives
no memory. -/
def readContent (parse : List Char → Option Json) (closes : Bool) (content : List Char)
    (out : AiCacheMap) : Option (ℤ × AiCacheMap) :=
  let size := int32 content.length
  if size < 0 then none
  else
    let buf := content.take size.toNat
    if (buf.length : ℤ) ≠ size then some (statusOk, out)
    else readDocument closes (parse (cStr buf)) out

/-- `ai_cache::read` -/
def read (parse : List Char → Option Json) (closes : Bool) (file : Option File)
    (out : AiCacheMap) : Option (ℤ × AiCacheMap) :=
  file.elim (some (statusOk, out)) fun f =>
    if !f.regular then some (statusOk, out)
    else if !f.opens then some (statusOk, out)
    else readContent parse closes f.content out

/-! ## What is printed -/

/-- Printable, and neither a quote nor a backslash. -/
def IsKeyChar (c : Char) : Prop := 0x20 ≤ c.toNat ∧ c.toNat < 0x7f ∧ c ≠ '"' ∧ c ≠ '\\'

instance (c : Char) : Decidable (IsKeyChar c) := inferInstanceAs (Decidable (_ ∧ _))

lemma IsKeyChar.isPlain {c : Char} (h : IsKeyChar c) : Json.IsPlain c := ⟨h.1, h.2.2⟩

/-- **The keys of a cache** are made of such characters. -/
def AiCacheMap.Printable (m : AiCacheMap) : Prop := ∀ e ∈ m.entries, ∀ c ∈ e.1, IsKeyChar c

/-- What `get_cache_key` makes of such a host. -/
lemma getCacheKey_printable {host : List Char} (h : ∀ c ∈ host, IsKeyChar c) (port : UInt16) :
    ∀ c ∈ getCacheKey host port, IsKeyChar c := by
  intro c hc
  rcases List.mem_append.mp hc with hc | hc
  · exact h c hc
  rcases List.mem_cons.mp hc with rfl | hc
  · decide
  · have hdigit := Nat.isDigit_of_mem_toDigits (by decide) (by decide) (List.mem_of_mem_take hc)
    rw [Char.isDigit_iff_toNat] at hdigit
    change 0x30 ≤ c.toNat ∧ c.toNat ≤ 0x39 at hdigit
    have hval : ∀ d : Char, d.toNat < 0x30 ∨ 0x39 < d.toNat → c ≠ d := by
      rintro d hd rfl
      omega
    exact ⟨by omega, by omega, hval _ (by decide), hval _ (by decide)⟩

lemma base64_keyChar (bytes : List UInt8) : ∀ c ∈ base64Encode bytes, IsKeyChar c := by
  have halphabet : ∀ c ∈ '=' :: base64Chars, IsKeyChar c := Json.forall_mem_of_all (by decide)
  exact fun c hc => halphabet c (mem_base64Encode bytes c hc)

lemma cStr_eq {s : List Char} (h : ∀ c ∈ s, 0x20 ≤ c.toNat) : cStr s = s := by
  refine List.takeWhile_eq_self_iff.mpr ?_
  rintro c hc
  have hlow := h c hc
  simp only [decide_eq_true_eq, ne_eq]
  rintro rfl
  exact absurd hlow (by decide)

/-- The members of a record, each with its text. -/
def members (e : List Char × HostInfo) : List (List Char × List Char × Json) :=
  [(Json.quote "host".toList ++ ':' :: ' ' :: Json.quote e.1, "host".toList, .str e.1),
    (Json.quote "ai".toList ++ ':' :: ' ' :: Json.quote (base64Encode e.2.bytes), "ai".toList,
      .str (base64Encode e.2.bytes))]

/-- The record of an entry. -/
def record (e : List Char × HostInfo) : Json := .obj ((members e).map Prod.snd)

/-- The text of the record. -/
def recordText (e : List Char × HostInfo) : List Char :=
  '{' :: (Json.commas ((members e).map Prod.fst) ++ ['}'])

section Entry

variable {e : List Char × HostInfo} (he : ∀ c ∈ e.1, IsKeyChar c)

include he

lemma printEntry_eq (len i : ℕ) :
    printEntry len i e = recordText e ++ if i = len then [] else [','] := by
  have hkey := cStr_eq fun c hc => (he c hc).1
  have hinfo := cStr_eq fun c hc => (base64_keyChar e.2.bytes c hc).1
  have htext : recordText e = "\x7b".toList ++
      ("\"host\": \"".toList ++ e.1 ++ "\",".toList) ++
      ("\"ai\": \"".toList ++ base64Encode e.2.bytes ++ "\"".toList) ++ "\x7d".toList := by
    simp [recordText, members, Json.quote, Json.commas]
  rw [printEntry, hkey, hinfo, htext]
  split_ifs
  · simp
  · simp

/-- There are neither control characters nor backslashes in the text. -/
lemma printEntry_plain (len i : ℕ) :
    ∀ c ∈ printEntry len i e, 0x20 ≤ c.toNat ∧ c ≠ '\\' := by
  have hkey : ∀ c ∈ cStr e.1, 0x20 ≤ c.toNat ∧ c ≠ '\\' := by
    intro c hc
    have hchar := he c (List.takeWhile_subset _ hc)
    exact ⟨hchar.1, hchar.2.2.2⟩
  have hinfo : ∀ c ∈ cStr (base64Encode e.2.bytes), 0x20 ≤ c.toNat ∧ c ≠ '\\' := by
    intro c hc
    have hchar := base64_keyChar _ c (List.takeWhile_subset _ hc)
    exact ⟨hchar.1, hchar.2.2.2⟩
  simp only [printEntry, List.forall_mem_append]
  have hfix : ∀ {u : List Char}, (u.all fun c => decide (0x20 ≤ c.toNat ∧ c ≠ '\\')) →
      ∀ c ∈ u, 0x20 ≤ c.toNat ∧ c ≠ '\\' := Json.forall_mem_of_all
  refine ⟨⟨⟨hfix (by decide), ⟨hfix (by decide), hkey⟩, hfix (by decide)⟩,
    ⟨hfix (by decide), hinfo⟩, hfix (by decide)⟩, ?_⟩
  split_ifs
  · exact hfix (by decide)
  · exact hfix (by decide)

/-- A record is read from its text. -/
lemma reads_recordText (n : ℕ) : Json.Reads (Json.value (n + 2)) (recordText e) (record e) := by
  refine Json.reads_obj ?_
  have hhost := (Json.reads_quote (fun c hc => (he c hc).isPlain) n).blank
  have hai := (Json.reads_quote
    (fun c hc => (base64_keyChar e.2.bytes c hc).isPlain) n).blank
  have hk : ∀ c ∈ "host".toList, Json.IsPlain c := Json.forall_mem_of_all (by decide)
  have hk' : ∀ c ∈ "ai".toList, Json.IsPlain c := Json.forall_mem_of_all (by decide)
  simp only [members, List.forall_mem_cons]
  exact ⟨Json.reads_member hk hhost, Json.reads_member hk' hai, by simp⟩

lemma closed_recordText : Json.Closed (recordText e) := by
  have hhost := Json.closed_quote fun c hc => (he c hc).isPlain
  have hai := Json.closed_quote fun c hc => (base64_keyChar e.2.bytes c hc).isPlain
  have hname : Json.Closed (Json.quote "host".toList) :=
    Json.closed_quote (Json.forall_mem_of_all (by decide))
  have hname' : Json.Closed (Json.quote "ai".toList) :=
    Json.closed_quote (Json.forall_mem_of_all (by decide))
  have hcolon : Json.Closed [':', ' '] := .neutral (Json.forall_mem_of_all (by decide))
  have hcomma : Json.Closed [','] := .neutral (Json.forall_mem_of_all (by decide))
  have hfix := hname.append hcolon
  have hfix' := hcomma.append (hname'.append hcolon)
  refine .bracket (.inr rfl) (.inr rfl) ?_
  have hbody := (hfix.append hhost).append (hfix'.append hai)
  simpa [members, Json.commas_cons, Json.commas] using hbody

end Entry

section Entries

variable {es : List (List Char × HostInfo)} (hes : ∀ e ∈ es, ∀ c ∈ e.1, IsKeyChar c)

include hes

/-- As long as the counters do not wrap, there are commas between the records and nowhere else. -/
lemma printEntries_eq {len i : ℕ} (hlen : i + es.length = len) (hfits : len < 2 ^ 32) :
    printEntries len i es = Json.commas (es.map recordText) := by
  induction es generalizing i with
  | nil => rfl
  | cons e es ih =>
      rw [List.length_cons] at hlen
      have hmod : (i + 1) % 2 ^ 32 = i + 1 := Nat.mod_eq_of_lt (by omega)
      rw [List.forall_mem_cons] at hes
      simp only [printEntries, hmod]
      rw [printEntry_eq hes.1, ih hes.2 (by omega)]
      cases es with
      | nil => simp [← hlen, Json.commas]
      | cons f es =>
          have hnot : i + 1 ≠ len := by
            rw [List.length_cons] at hlen
            omega
          simp [hnot, Json.commas_cons]

/-- The records are closed, wherever the commas stand. -/
lemma closed_printEntries (len i : ℕ) : Json.Closed (printEntries len i es) := by
  induction es generalizing i with
  | nil => exact .nil
  | cons e es ih =>
      rw [List.forall_mem_cons] at hes
      simp only [printEntries]
      rw [printEntry_eq hes.1]
      refine (Json.Closed.append (closed_recordText hes.1) ?_).append (ih hes.2 _)
      split_ifs
      · exact .nil
      · exact .neutral (Json.forall_mem_of_all (by decide))

lemma printEntries_plain (len i : ℕ) :
    ∀ c ∈ printEntries len i es, 0x20 ≤ c.toNat ∧ c ≠ '\\' := by
  induction es generalizing i with
  | nil => simp [printEntries]
  | cons e es ih =>
      rw [List.forall_mem_cons] at hes
      simp only [printEntries, List.forall_mem_append]
      exact ⟨printEntry_plain hes.1 _ _, ih hes.2 _⟩

end Entries

section Print

variable {m : AiCacheMap} (hm : m.Printable)

include hm

lemma print_plain : ∀ c ∈ print m, 0x20 ≤ c.toNat ∧ c ≠ '\\' := by
  simp only [print, List.forall_mem_append]
  exact ⟨⟨Json.forall_mem_of_all (by decide), printEntries_plain hm _ _⟩,
    Json.forall_mem_of_all (by decide)⟩

/-- A part of the file is what the parser is given. -/
lemma cStr_take_print (n : ℕ) : cStr ((print m).take n) = (print m).take n :=
  cStr_eq fun c hc => (print_plain hm c (List.mem_of_mem_take hc)).1

/-- **What is printed is the JSON array of the records.** -/
lemma read_print (hfits : m.entries.length < 2 ^ 32) :
    Json.read (print m) = some (.arr (m.entries.map record)) := by
  have hprint : print m = '[' :: (Json.commas (m.entries.map recordText) ++ [']']) := by
    rw [print, Nat.mod_eq_of_lt hfits, printEntries_eq hm (Nat.zero_add _) hfits]
    simp
  obtain ⟨n, hn⟩ : ∃ n, (print m).length + 1 = n + 2 + 1 :=
    ⟨(print m).length - 2, by rw [hprint]; simp⟩
  have hrecords : ∀ p ∈ m.entries.map fun e => (recordText e, record e),
      Json.Reads (Json.value (n + 2)) p.1 p.2 := by
    intro p hp
    obtain ⟨e, he, rfl⟩ := List.mem_map.mp hp
    exact reads_recordText (hm e he) n
  have harr := Json.reads_arr hrecords
  rw [List.map_map, List.map_map] at harr
  refine Json.Reads.read ?_
  rw [hn, hprint]
  exact harr

/-- A file that is cut off is no JSON text. -/
lemma read_take_print {n : ℕ} (hn : n < (print m).length) :
    Json.read ((print m).take n) = none := by
  have hlen : n < (printEntries (m.entries.length % 2 ^ 32) 0 m.entries).length + 2 := by
    have hprint : (print m).length =
        (printEntries (m.entries.length % 2 ^ 32) 0 m.entries).length + 2 := by
      simp [print]
    exact hprint ▸ hn
  exact Json.read_take_bracket (closed_printEntries hm _ _) hlen

end Print

/-! ## How long it is -/

/-- **The size of the file**: 226 characters for each entry beside its key, and one more. -/
def AiCacheMap.fileSize (m : AiCacheMap) : ℕ :=
  (m.entries.map fun e => e.1.length + 226).sum + 1

lemma length_recordText (e : List Char × HostInfo) : (recordText e).length = e.1.length + 225 := by
  have hinfo : (base64Encode e.2.bytes).length = 204 := by
    rw [length_base64Encode, e.2.size]
    rfl
  simp [recordText, members, Json.commas, Json.quote, hinfo]

lemma le_length_printEntries {es : List (List Char × HostInfo)}
    (hes : ∀ e ∈ es, ∀ c ∈ e.1, IsKeyChar c) (len i : ℕ) :
    es.length ≤ (printEntries len i es).length := by
  induction es generalizing i with
  | nil => exact le_rfl
  | cons e es ih =>
      rw [List.forall_mem_cons] at hes
      have hrest := ih hes.2 ((i + 1) % 2 ^ 32)
      simp only [printEntries, List.length_cons, List.length_append]
      rw [printEntry_eq hes.1, List.length_append, length_recordText]
      omega

lemma length_le_fileSize (m : AiCacheMap) : m.entries.length ≤ m.fileSize := by
  have hsum : ∀ es : List (List Char × HostInfo),
      es.length ≤ (es.map fun e => e.1.length + 226).sum := by
    intro es
    induction es with
    | nil => exact le_rfl
    | cons e es ih =>
        rw [List.length_cons, List.map_cons, List.sum_cons]
        omega
  have := hsum m.entries
  rw [AiCacheMap.fileSize]
  omega

/-- As long as the counters do not wrap, the file has this size; `[]` is one character longer. -/
lemma length_print {m : AiCacheMap} (hm : m.Printable) (hfits : m.entries.length < 2 ^ 32) :
    (print m).length = max 2 m.fileSize := by
  have hprint : (print m).length = (Json.commas (m.entries.map recordText)).length + 2 := by
    rw [print, Nat.mod_eq_of_lt hfits, printEntries_eq hm (Nat.zero_add _) hfits]
    simp
  rw [hprint, AiCacheMap.fileSize]
  cases hentries : m.entries with
  | nil => simp [Json.commas]
  | cons e es =>
      have hne : (e :: es).map recordText ≠ [] := List.cons_ne_nil _ _
      have hlen := Json.length_commas hne
      have hsum : ((e :: es).map recordText).map (fun t => t.length + 1) =
          (e :: es).map fun e => e.1.length + 226 := by
        simp [length_recordText]
      have hpos : 226 ≤ ((e :: es).map fun e => e.1.length + 226).sum := by
        rw [List.map_cons, List.sum_cons]
        omega
      rw [hsum] at hlen
      omega

lemma length_print_lt_iff {m : AiCacheMap} (hm : m.Printable) :
    (print m).length < 2 ^ 31 ↔ m.fileSize < 2 ^ 31 := by
  have hle := length_le_fileSize m
  by_cases hfits : m.entries.length < 2 ^ 32
  · rw [length_print hm hfits]
    omega
  · have hlen := le_length_printEntries hm (m.entries.length % 2 ^ 32) 0
    have hprint : (printEntries (m.entries.length % 2 ^ 32) 0 m.entries).length ≤
        (print m).length := by
      simp only [print, List.length_append]
      omega
    omega

/-! ## What is read -/

lemma copy_decode (info : HostInfo) :
    HostInfo.copy (base64Decode (base64Encode info.bytes)) = some info := by
  have hdrop : HostInfo.new.bytes.drop info.bytes.length = [] := by
    rw [info.size, ← HostInfo.new.size, List.drop_length]
  rw [base64Decode_encode, HostInfo.copy, dif_pos info.size.le]
  simp [hdrop]

lemma readMembers_record {e : List Char × HostInfo} (he : ∀ c ∈ e.1, IsKeyChar c)
    (out : AiCacheMap) :
    readMembers ((members e).map Prod.snd) out = some (out.insert e.1 e.2) := by
  have hkey := cStr_eq fun c hc => (he c hc).1
  have hinfo := cStr_eq fun c hc => (base64_keyChar e.2.bytes c hc).1
  simp [readMembers, members, getString, hkey, hinfo, copy_decode, List.lookup_cons]

/-- A key behind all others is put at the end. -/
lemma entries_insert {m : AiCacheMap} {key : List Char} (h : ∀ e ∈ m.entries, e.1 < key)
    (info : HostInfo) : (m.insert key info).entries = m.entries ++ [(key, info)] := by
  have hall : m.entries.filter (·.1 < key) = m.entries := by
    simpa using h
  have hnone : m.entries.filter (key < ·.1) = [] := by
    simpa using fun a b hab => (h (a, b) hab).le
  simp only [AiCacheMap.insert, hall, hnone]

/-- The records are read in the order of their keys. -/
lemma readRecords_map {m : AiCacheMap} (hm : m.Printable) {es : List (List Char × HostInfo)}
    (out : AiCacheMap) (hsplit : m.entries = out.entries ++ es) :
    readRecords (es.map record) out = some (true, m) := by
  induction es generalizing out with
  | nil =>
      rw [List.append_nil] at hsplit
      have heq : out = m := AiCacheMap.ext hsplit.symm
      rw [heq]
      rfl
  | cons e es ih =>
      have he := hm e (by simp [hsplit])
      have hlast : ∀ f ∈ out.entries, f.1 < e.1 := by
        intro f hf
        have hsorted := m.sorted
        rw [hsplit] at hsorted
        exact (List.pairwise_append.mp hsorted).2.2 f hf e List.mem_cons_self
      have hnext := ih (out.insert e.1 e.2) (by rw [entries_insert hlast, hsplit]; simp)
      simp only [List.map_cons, record, readRecords, readMembers_record he]
      exact hnext

/-! ## The round trip -/

/-- **What the code relies on in rapidjson.** -/
structure Rapidjson (parse : List Char → Option Json) : Prop where
  /-- A JSON text without escapes and numbers is parsed as its value. -/
  accepts : ∀ ⦃s v⦄, Json.read s = some v → '\\' ∉ s → v.Plain → parse s = some v
  /-- There is no document for a text that is no JSON. -/
  rejects : ∀ ⦃s⦄, Json.read s = none → parse s = none

lemma record_plain (e : List Char × HostInfo) : (record e).Plain := by
  refine .obj ?_
  simp only [members, List.map_cons, List.map_nil, List.forall_mem_cons]
  exact ⟨.str _, .str _, by simp⟩

lemma int32_eq {n : ℕ} (h : n < 2 ^ 31) : int32 n = n := by
  refine Int.bmod_eq_of_le ?_ ?_
  · omega
  · omega

lemma int32_lt (n : ℕ) : int32 n < 2 ^ 31 := by
  have := Int.bmod_lt (x := n) (m := 2 ^ 32) (by decide)
  exact this

lemma sync_ok (old : Option File) (m : AiCacheMap) :
    sync true true old m = (statusOk, some ⟨true, true, print m⟩) := by
  simp [sync]

lemma read_file (parse : List Char → Option Json) (content : List Char) (out : AiCacheMap) :
    read parse true (some ⟨true, true, content⟩) out = readContent parse true content out := by
  have hregular : ¬ (!(⟨true, true, content⟩ : File).regular) = true := by simp
  have hopens : ¬ (!(⟨true, true, content⟩ : File).opens) = true := by simp
  rw [read, Option.elim_some, if_neg hregular, if_neg hopens]

section RoundTrip

variable {parse : List Char → Option Json} (hjson : Rapidjson parse) {m : AiCacheMap}
  (hm : m.Printable)

include hjson hm

/-- A file of less than 2 GiB is read as a whole. -/
lemma readContent_print (h : (print m).length < 2 ^ 31) :
    readContent parse true (print m) .empty = some (statusOk, m) := by
  have hfits : m.entries.length < 2 ^ 32 := by
    have := length_le_fileSize m
    have := (length_print_lt_iff hm).mp h
    omega
  have hplain : '\\' ∉ print m := fun hc => (print_plain hm _ hc).2 rfl
  have hrecords : ∀ r ∈ m.entries.map record, r.Plain := by
    rw [List.forall_mem_map]
    exact fun e _ => record_plain e
  have hparse := hjson.accepts (read_print hm hfits) hplain (.arr hrecords)
  have hnonneg : ¬ ((print m).length : ℤ) < 0 := by omega
  have hstr := cStr_take_print hm (print m).length
  rw [List.take_length] at hstr
  simp only [readContent, int32_eq h, if_neg hnonneg, Int.toNat_natCast, List.take_length, ne_eq,
    not_true_eq_false, if_false, hstr, hparse, readDocument, readRecords_map hm .empty rfl]
  rfl

/-- A longer file gives nothing. -/
lemma readContent_print_long (h : 2 ^ 31 ≤ (print m).length) :
    readContent parse true (print m) .empty ≠ some (statusOk, m) := by
  have hlt := int32_lt (print m).length
  have hempty : AiCacheMap.empty ≠ m := by
    rintro rfl
    simp [print, printEntries, AiCacheMap.empty] at h
  simp only [readContent]
  split_ifs with hneg hpart
  · simp
  · simpa using hempty
  · have hcut : (int32 (print m).length).toNat < (print m).length := by omega
    rw [cStr_take_print hm, hjson.rejects (read_take_print hm hcut)]
    simpa [readDocument] using hempty

/-- **The round trip**: a cache is read back exactly if its file is shorter than 2 GiB. -/
theorem read_sync_iff (old : Option File) :
    read parse true (sync true true old m).2 .empty = some (statusOk, m) ↔ m.fileSize < 2 ^ 31 := by
  rw [sync_ok, read_file, ← length_print_lt_iff hm]
  constructor
  · intro hread
    refine lt_of_not_ge fun hlong => ?_
    exact readContent_print_long hjson hm hlong hread
  · exact readContent_print hjson hm

end RoundTrip

/-- The reader itself is such a parser. -/
lemma rapidjson_read : Rapidjson Json.read where
  accepts := fun _ _ h _ _ => h
  rejects := fun _ h => h

/-- Two hosts, as in the tests. -/
def twoHosts : AiCacheMap where
  entries := [(getCacheKey "MY_HANDLE_1".toList 80, HostInfo.new),
    (getCacheKey "MY_HANDLE_2".toList 8080, HostInfo.new)]
  sorted := by decide +kernel

lemma twoHosts_printable : twoHosts.Printable := by
  have hall : twoHosts.entries.all fun e => e.1.all fun c => decide (IsKeyChar c) := by
    decide +kernel
  simpa [AiCacheMap.Printable] using hall

theorem two_hosts_read_back :
    read Json.read true (sync true true none twoHosts).2 .empty = some (statusOk, twoHosts) :=
  (read_sync_iff rapidjson_read twoHosts_printable none).mpr (by decide +kernel)

/-- All hosts made of this many zeros and ones. -/
def hosts : ℕ → List (List Char)
  | 0 => [[]]
  | n + 1 => (hosts n).map ('0' :: ·) ++ (hosts n).map ('1' :: ·)

lemma length_hosts (n : ℕ) : (hosts n).length = 2 ^ n := by
  induction n with
  | zero => rfl
  | succ n ih =>
      simp only [hosts, List.length_append, List.length_map, ih]
      omega

lemma hosts_keyChar (n : ℕ) : ∀ host ∈ hosts n, ∀ c ∈ host, IsKeyChar c := by
  induction n with
  | zero => simp [hosts]
  | succ n ih =>
      simp only [hosts, List.forall_mem_append, List.forall_mem_map, List.forall_mem_cons]
      exact ⟨fun host h => ⟨by decide, ih host h⟩, fun host h => ⟨by decide, ih host h⟩⟩

lemma hosts_sorted (n : ℕ) : (hosts n).Pairwise fun a b => ∀ s : List Char, a ++ s < b ++ s := by
  induction n with
  | zero => simp [hosts]
  | succ n ih =>
      have hcons : ∀ c : Char, ((hosts n).map (c :: ·)).Pairwise
          fun a b => ∀ s : List Char, a ++ s < b ++ s := by
        intro c
        rw [List.pairwise_map]
        exact ih.imp fun h s => List.cons_lt_cons_iff.mpr (.inr ⟨rfl, h s⟩)
      refine List.pairwise_append.mpr ⟨hcons '0', hcons '1', ?_⟩
      simp only [List.forall_mem_map]
      intro a _ b _ s
      exact List.cons_lt_cons_iff.mpr (.inl (by decide))

/-- A cache of all these hosts. -/
def manyHosts (n : ℕ) : AiCacheMap where
  entries := (hosts n).map fun host => (getCacheKey host 80, HostInfo.new)
  sorted := by
    rw [List.pairwise_map]
    exact (hosts_sorted n).imp fun h => h _

lemma manyHosts_printable (n : ℕ) : (manyHosts n).Printable := by
  simp only [AiCacheMap.Printable, manyHosts, List.forall_mem_map]
  exact fun host h => getCacheKey_printable (hosts_keyChar n host h) 80

lemma manyHosts_fileSize (n : ℕ) : 226 * 2 ^ n ≤ (manyHosts n).fileSize := by
  have hsum : ∀ l : List (List Char), 226 * l.length ≤ ((l.map fun host =>
      (getCacheKey host 80, HostInfo.new)).map fun e => e.1.length + 226).sum := by
    intro l
    induction l with
    | nil => exact le_rfl
    | cons host l ih =>
        simp only [List.map_cons, List.sum_cons, List.length_cons]
        omega
  have := hsum (hosts n)
  rw [length_hosts] at this
  simp only [AiCacheMap.fileSize, manyHosts]
  omega

/-- **A cache of 16 million hosts is lost**: the file has about 4 GiB. -/
theorem many_hosts_lost :
    (manyHosts 24).Printable ∧ Rapidjson Json.read ∧
      read Json.read true (sync true true none (manyHosts 24)).2 .empty ≠
        some (statusOk, manyHosts 24) := by
  have hm := manyHosts_printable 24
  refine ⟨hm, rapidjson_read, ?_⟩
  rw [sync_ok, read_file]
  refine readContent_print_long rapidjson_read hm (le_of_not_gt fun hlt => ?_)
  have hsize := (length_print_lt_iff hm).mp hlt
  have := manyHosts_fileSize 24
  omega

end AiCache

end Is2
