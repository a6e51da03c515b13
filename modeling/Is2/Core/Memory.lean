import Mathlib.Data.List.Basic
import Mathlib.Data.List.TakeDrop
import Mathlib.Data.Nat.Basic

/-!
# Memory behind a pointer

A pointer is given by the bytes that stand at it and behind it.  A function that is called with a
pointer and a length may read on; what it depends on is then said by two memories that agree on the
first bytes (`bytes_eq_iff`).

A `std::string` that is passed on by `c_str` ends with a NUL, and nothing may be read behind it.
`cStr` has NULs there.
-/

namespace Is2

/-- The bytes at a pointer and behind it. -/
abbrev Memory := ℕ → UInt8

namespace Memory

/-- The pointer moved by `k`. -/
def skip (m : Memory) (k : ℕ) : Memory := fun i => m (k + i)

/-- The first `n` bytes. -/
def bytes (m : Memory) : ℕ → List UInt8
  | 0 => []
  | n + 1 => m 0 :: bytes (m.skip 1) n

/-- What `c_str` points at. -/
def cStr (s : List UInt8) : Memory := fun i => s.getD i 0

variable {m m' : Memory}

@[simp] lemma skip_zero (m : Memory) : m.skip 0 = m := by
  funext i
  simp [skip]

@[simp] lemma skip_skip (m : Memory) (k l : ℕ) : (m.skip k).skip l = m.skip (k + l) := by
  funext i
  simp [skip, Nat.add_assoc]

@[simp] lemma length_bytes (m : Memory) (n : ℕ) : (m.bytes n).length = n := by
  induction n generalizing m with
  | zero => rfl
  | succ n ih => simp [bytes, ih]

/-- Two memories hold the same first bytes. -/
lemma bytes_eq_iff {n : ℕ} : m'.bytes n = m.bytes n ↔ ∀ i < n, m' i = m i := by
  induction n generalizing m m' with
  | zero => simp [bytes]
  | succ n ih =>
      rw [bytes, bytes, List.cons.injEq, ih]
      constructor
      · rintro ⟨hhead, htail⟩ (_ | i) hi
        · exact hhead
        · have h := htail i (by omega)
          rwa [skip, skip, Nat.add_comm 1 i] at h
      · intro h
        exact ⟨h 0 n.succ_pos, fun i hi => h (1 + i) (by omega)⟩

lemma bytes_add (m : Memory) (k n : ℕ) : m.bytes (k + n) = m.bytes k ++ (m.skip k).bytes n := by
  induction k generalizing m with
  | zero => simp [bytes]
  | succ k ih => simp [Nat.succ_add, bytes, ih, Nat.add_comm 1 k]

lemma bytes_drop {n k : ℕ} (h : k ≤ n) : (m.skip k).bytes (n - k) = (m.bytes n).drop k := by
  obtain ⟨d, rfl⟩ := Nat.exists_eq_add_of_le h
  rw [bytes_add, List.drop_left' (length_bytes m k), Nat.add_sub_cancel_left]

lemma bytes_take {n k : ℕ} (h : k ≤ n) : m.bytes k = (m.bytes n).take k := by
  obtain ⟨d, rfl⟩ := Nat.exists_eq_add_of_le h
  rw [bytes_add, List.take_left' (length_bytes m k)]

/-- A memory that begins with `s` begins with any first part of it. -/
lemma bytes_of_append {s t : List UInt8} (h : m.bytes (s ++ t).length = s ++ t) :
    m.bytes s.length = s := by
  rw [bytes_take (n := (s ++ t).length) (by simp), h, List.take_left]

lemma skip_cStr (s : List UInt8) (k : ℕ) : (cStr s).skip k = cStr (s.drop k) := by
  funext i
  simp [skip, cStr, List.getD_eq_getElem?_getD]

@[simp] lemma bytes_cStr (s : List UInt8) : (cStr s).bytes s.length = s := by
  induction s with
  | nil => rfl
  | cons x s ih =>
      rw [List.length_cons, bytes, skip_cStr]
      exact congrArg (x :: ·) ih

end Memory

end Is2
