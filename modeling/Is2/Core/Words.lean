import Mathlib.Data.Int.Basic
import Mathlib.Tactic

/-!
# Fixed-width integers over `ℕ` and `ℤ`

Counters and lengths are carried as natural numbers; the places where the width of a machine
integer is visible are the ones below.

* `sub64` — subtraction on an unsigned 64-bit word, which wraps below zero.  Addition is left to
  `ℕ`: the words it is used for count bytes that are held in memory.
* `sub32`, `sub16` — the same on an unsigned word of 32 and of 16 bits, for a subtrahend of any
  width.
* `toInt32`, `toUInt32` — the two conversions a value goes through when a function declared
  `int32_t` hands an unsigned quantity back to an unsigned variable.
* `be16`, `be24`, `ntohs` — numbers as bytes in network order, and back.
-/

namespace Is2

/-- Subtraction on unsigned 64-bit words: what is missing below zero is borrowed from `2 ^ 64`. -/
def sub64 (a b : ℕ) : ℕ := if b ≤ a then a - b else a + 2 ^ 64 - b

@[simp] lemma sub64_of_le {a b : ℕ} (h : b ≤ a) : sub64 a b = a - b := if_pos h

/-- Subtraction of a wider word from an unsigned 32-bit one, which wraps below zero. -/
def sub32 (a b : ℕ) : ℕ := (a + (2 ^ 32 - b % 2 ^ 32)) % 2 ^ 32

lemma sub32_of_le {a b : ℕ} (h : b ≤ a) (ha : a < 2 ^ 32) : sub32 a b = a - b := by
  rw [sub32, Nat.mod_eq_of_lt (h.trans_lt ha)]
  omega

/-- The same on an unsigned 16-bit word. -/
def sub16 (a b : ℕ) : ℕ := (a + (2 ^ 16 - b % 2 ^ 16)) % 2 ^ 16

lemma sub16_lt (a b : ℕ) : sub16 a b < 2 ^ 16 := Nat.mod_lt _ (by decide)

lemma sub16_zero {a : ℕ} (h : a < 2 ^ 16) : sub16 a 0 = a := by
  rw [sub16]
  omega

lemma sub16_sub16 (a b c : ℕ) : sub16 (sub16 a b) c = sub16 a (b + c) := by
  simp only [sub16]
  omega

/-- Reading an unsigned 32-bit quantity as a signed one. -/
def toInt32 (n : ℕ) : ℤ := Int.bmod n (2 ^ 32)

/-- Reading a signed 32-bit quantity as an unsigned one. -/
def toUInt32 (i : ℤ) : ℕ := (i % 2 ^ 32).toNat

lemma toInt32_of_lt {n : ℕ} (h : n < 2 ^ 31) : toInt32 n = n := by
  unfold toInt32
  rw [Int.bmod_eq_of_le] <;> omega

lemma toUInt32_toInt32 (n : ℕ) : toUInt32 (toInt32 n) = n % 2 ^ 32 := by
  unfold toUInt32 toInt32
  have h : (Int.bmod (n : ℤ) (2 ^ 32)) % ((2 ^ 32 : ℕ) : ℤ) = (n : ℤ) % ((2 ^ 32 : ℕ) : ℤ) :=
    Int.bmod_emod
  have h' : ((2 ^ 32 : ℕ) : ℤ) = 2 ^ 32 := by norm_num
  rw [h'] at h
  rw [h]
  omega

lemma toUInt32_toInt32_of_lt {n : ℕ} (h : n < 2 ^ 32) : toUInt32 (toInt32 n) = n := by
  rw [toUInt32_toInt32, Nat.mod_eq_of_lt h]

/-! ## Bytes in network order -/

/-- The two bytes of a 16 bit number. -/
def be16 (n : ℕ) : List UInt8 := [UInt8.ofNat (n / 256), UInt8.ofNat n]

/-- The three bytes of a 24 bit number. -/
def be24 (n : ℕ) : List UInt8 := [UInt8.ofNat (n / 65536), UInt8.ofNat (n / 256), UInt8.ofNat n]

@[simp] lemma length_be16 (n : ℕ) : (be16 n).length = 2 := rfl

@[simp] lemma length_be24 (n : ℕ) : (be24 n).length = 3 := rfl

/-- `ntohs` of two bytes. -/
def ntohs (a b : UInt8) : ℕ := a.toNat * 256 + b.toNat

lemma ntohs_lt (a b : UInt8) : ntohs a b < 2 ^ 16 := by
  have ha := a.toNat_lt
  have hb := b.toNat_lt
  rw [ntohs]
  omega

lemma ntohs_be16 {n : ℕ} (h : n < 2 ^ 16) :
    ntohs (UInt8.ofNat (n / 256)) (UInt8.ofNat n) = n := by
  simp only [ntohs, UInt8.toNat_ofNat']
  omega

end Is2
