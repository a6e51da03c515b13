import Is2.Srvr.CaseMaps
import Mathlib.Tactic.NormNum

/-!
# The character tables of `http_parser`

`http_parser.cc` decides what a byte may be by three tables and a few macros.  It is compiled with
`HTTP_PARSER_STRICT`.  A `char` is a byte here; where the source compares a `char` that may be
negative, the comparison has the same result.

The table of hexadecimal digits has 128 entries for 256 places: the bytes from 128 on are digits
of value zero (`unhex_high`).
-/

namespace Is2

namespace Http

/-! ## Single characters -/

def cr : UInt8 := 13

def lf : UInt8 := 10

def sp : UInt8 := 32

def ht : UInt8 := 9

/-! ## Tables -/

/-- `tokens`.  The places that are not written down hold 0. -/
def tokens : List UInt8 :=
  [ 0, 0, 0, 0, 0, 0, 0, 0,
    0, 0, 0, 0, 0, 0, 0, 0,
    0, 0, 0, 0, 0, 0, 0, 0,
    0, 0, 0, 0, 0, 0, 0, 0,
    -- sp and the punctuation up to `/`
    32, 33, 0, 35, 36, 37, 38, 39,
    0, 0, 42, 43, 0, 45, 46, 0,
    -- digits
    48, 49, 50, 51, 52, 53, 54, 55,
    56, 57, 0, 0, 0, 0, 0, 0,
    -- upper case, as lower case
    0, 97, 98, 99, 100, 101, 102, 103,
    104, 105, 106, 107, 108, 109, 110, 111,
    112, 113, 114, 115, 116, 117, 118, 119,
    120, 121, 122, 0, 0, 0, 94, 95,
    -- lower case
    96, 97, 98, 99, 100, 101, 102, 103,
    104, 105, 106, 107, 108, 109, 110, 111,
    112, 113, 114, 115, 116, 117, 118, 119,
    120, 121, 122, 0, 124, 0, 126, 0 ]

/-- `STRICT_TOKEN`, which is `TOKEN` here. -/
def token (c : UInt8) : UInt8 := if c = sp then 0 else tokens.getD c.toNat 0

/-- A row of 16 entries of `unhex` without digits. -/
def noDigits : List ℤ := List.replicate 16 (-1)

/-- A row of `unhex` with the letters. -/
def letterDigits : List ℤ := [-1, 10, 11, 12, 13, 14, 15] ++ List.replicate 9 (-1)

/-- The eight rows of `unhex`.  The other places hold 0. -/
def unhexTable : List ℤ :=
  noDigits ++ noDigits ++ noDigits ++
    ([0, 1, 2, 3, 4, 5, 6, 7, 8, 9] ++ List.replicate 6 (-1)) ++
    letterDigits ++ noDigits ++ letterDigits ++ noDigits

/-- `unhex[c]`; -1 is no digit. -/
def unhex (c : UInt8) : Option ℕ :=
  let v := unhexTable.getD c.toNat 0
  if v = -1 then none else some v.toNat

/-- `normal_url_char`, with the bits of an entry added up.  The other places hold 0. -/
def normalUrlChar : List ℕ :=
  [ 0, 0, 0, 0,
    2 + 4 + 16 + 32 + 64 + 128,
    1 + 2 + 4 + 8 + 16 + 32 + 64 + 128,
    1 + 2 + 4 + 8 + 16 + 32 + 64 + 128,
    1 + 2 + 4 + 8 + 16 + 32 + 64,
    1 + 2 + 4 + 8 + 16 + 32 + 64 + 128,
    1 + 2 + 4 + 8 + 16 + 32 + 64 + 128,
    1 + 2 + 4 + 8 + 16 + 32 + 64 + 128,
    1 + 2 + 4 + 8 + 16 + 32 + 64 + 128,
    1 + 2 + 4 + 8 + 16 + 32 + 64 + 128,
    1 + 2 + 4 + 8 + 16 + 32 + 64 + 128,
    1 + 2 + 4 + 8 + 16 + 32 + 64 + 128,
    1 + 2 + 4 + 8 + 16 + 32 + 64 ]

/-! ## Macros -/

/-- `LOWER` -/
def lower (c : UInt8) : UInt8 := c ||| 0x20

/-- `IS_ALPHA` -/
def isAlpha (c : UInt8) : Bool := 97 ≤ lower c && lower c ≤ 122

/-- `IS_NUM` -/
def isNum (c : UInt8) : Bool := 48 ≤ c && c ≤ 57

/-- `IS_ALPHANUM` -/
def isAlphanum (c : UInt8) : Bool := isAlpha c || isNum c

/-- `IS_HEX` -/
def isHex (c : UInt8) : Bool := isNum c || (97 ≤ lower c && lower c ≤ 102)

/-- `IS_MARK` -/
def isMark (c : UInt8) : Bool := c ∈ ascii "-_.!~*'()"

/-- `IS_USERINFO_CHAR` -/
def isUserinfoChar (c : UInt8) : Bool := isAlphanum c || isMark c || c ∈ ascii "%;:&=+$,"

/-- `IS_URL_CHAR` -/
def isUrlChar (c : UInt8) : Bool := (normalUrlChar.getD (c.toNat / 8) 0).testBit (c.toNat % 8)

/-- `IS_HEADER_CHAR` -/
def isHeaderChar (c : UInt8) : Bool := c = cr || c = lf || c = ht || (31 < c && c ≠ 127)

/-! ## What the tables say -/

/-- A statement on all bytes is one on 256 numbers. -/
lemma forall_byte {p : UInt8 → Prop} (h : ∀ n < 256, p (UInt8.ofNat n)) (c : UInt8) : p c := by
  simpa using h c.toNat c.toNat_lt

/-- A token character is a visible one and no separator. -/
lemma token_ne_zero (c : UInt8) : token c ≠ 0 → 33 ≤ c ∧ c ≤ 126 ∧ c ≠ 58 :=
  forall_byte (p := fun c => token c ≠ 0 → 33 ≤ c ∧ c ≤ 126 ∧ c ≠ 58) (by decide +kernel) c

/-- A URL is made of the visible characters apart from `#` and `?`. -/
lemma isUrlChar_iff (c : UInt8) :
    isUrlChar c = true ↔ 33 ≤ c ∧ c ≤ 126 ∧ c ≠ 35 ∧ c ≠ 63 :=
  forall_byte (p := fun c => isUrlChar c = true ↔ 33 ≤ c ∧ c ≤ 126 ∧ c ≠ 35 ∧ c ≠ 63)
    (by decide +kernel) c

/-- **The second half of the table.**  A byte from 128 on counts as the digit 0. -/
lemma unhex_high {c : UInt8} (h : 128 ≤ c) : unhex c = some 0 :=
  forall_byte (p := fun c => 128 ≤ c → unhex c = some 0) (by decide +kernel) c h

lemma unhex_lt {c : UInt8} {v : ℕ} (h : unhex c = some v) : v < 16 := by
  have hall : ∀ n < 256, ∀ v ∈ unhex (UInt8.ofNat n), v < 16 := by decide +kernel
  exact forall_byte (p := fun c => ∀ v ∈ unhex c, v < 16) hall c v h

end Http

end Is2
