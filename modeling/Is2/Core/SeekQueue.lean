import Mathlib.Data.List.Basic

/-!
# Queues that can be reread

A queue that keeps what was read from it until it is told to forget.  It is a list with a position
in it: the part before the position was read, the part behind it is still to come.

An implementation is compared with it through the two lists `contents` and `consumed`, so every
operation comes with what it does to the latter.
-/

namespace Is2

variable {α : Type*}

/-- A list and how far it has been read. -/
structure SeekQueue (α : Type*) where
  contents : List α
  pos : ℕ
  pos_le : pos ≤ contents.length

namespace SeekQueue

def empty : SeekQueue α := ⟨[], 0, Nat.le_refl _⟩

/-- What was read. -/
def consumed (a : SeekQueue α) : List α := a.contents.take a.pos

/-- What is still to be read. -/
def unread (a : SeekQueue α) : List α := a.contents.drop a.pos

def append (a : SeekQueue α) (xs : List α) : SeekQueue α :=
  ⟨a.contents ++ xs, a.pos, by
    have := a.pos_le
    rw [List.length_append]
    omega⟩

/-- Move the position; it never goes past the end. -/
def seek (a : SeekQueue α) (p : ℕ) : SeekQueue α :=
  ⟨a.contents, min p a.contents.length, Nat.min_le_right _ _⟩

/-- Read up to `n` elements. -/
def advance (a : SeekQueue α) (n : ℕ) : SeekQueue α := a.seek (a.pos + n)

/-- Forget the first `k` of the elements that were read.  The others, and all that is unread,
stay. -/
def forget (a : SeekQueue α) (k : ℕ) (hk : k ≤ a.pos) : SeekQueue α :=
  ⟨a.contents.drop k, a.pos - k, by
    have := a.pos_le
    rw [List.length_drop]
    omega⟩

variable {a : SeekQueue α}

lemma consumed_append_unread (a : SeekQueue α) : a.consumed ++ a.unread = a.contents :=
  List.take_append_drop _ _

lemma length_consumed (a : SeekQueue α) : a.consumed.length = a.pos := by
  have := a.pos_le
  rw [consumed, List.length_take]
  omega

lemma length_unread (a : SeekQueue α) : a.unread.length = a.contents.length - a.pos :=
  List.length_drop

lemma consumed_append (a : SeekQueue α) (xs : List α) : (a.append xs).consumed = a.consumed := by
  have := a.pos_le
  simp only [consumed, append]
  rw [List.take_append_of_le_length this]

lemma consumed_seek (a : SeekQueue α) (p : ℕ) : (a.seek p).consumed = a.contents.take p := by
  simp only [consumed, seek]
  rcases Nat.le_total p a.contents.length with hp | hp
  · rw [Nat.min_eq_left hp]
  · rw [Nat.min_eq_right hp, List.take_length, List.take_of_length_le hp]

lemma consumed_advance (a : SeekQueue α) (n : ℕ) :
    (a.advance n).consumed = a.consumed ++ a.unread.take n := by
  rw [advance, consumed_seek, List.take_add]
  rfl

lemma consumed_forget {k : ℕ} (hk : k ≤ a.pos) : (a.forget k hk).consumed = a.consumed.drop k := by
  simp only [consumed, forget, List.drop_take]

lemma append_nil (a : SeekQueue α) : a.append [] = a := by
  simp only [append, List.append_nil]

lemma append_append (a : SeekQueue α) (xs ys : List α) :
    (a.append xs).append ys = a.append (xs ++ ys) := by
  simp only [append, List.append_assoc]

lemma unread_append (a : SeekQueue α) (xs : List α) : (a.append xs).unread = a.unread ++ xs := by
  have := a.pos_le
  simp only [unread, append]
  rw [List.drop_append_of_le_length this]

lemma unread_advance (a : SeekQueue α) (n : ℕ) : (a.advance n).unread = a.unread.drop n := by
  have h := (a.advance n).consumed_append_unread
  rw [consumed_advance, List.append_assoc] at h
  have h' : a.unread.take n ++ (a.advance n).unread = a.unread := by
    have hw : a.consumed ++ (a.unread.take n ++ (a.advance n).unread) = a.consumed ++ a.unread := by
      rw [h, a.consumed_append_unread]
      rfl
    exact List.append_cancel_left hw
  exact List.append_cancel_left (h'.trans (List.take_append_drop n a.unread).symm)

lemma unread_forget {k : ℕ} (hk : k ≤ a.pos) : (a.forget k hk).unread = a.unread := by
  simp only [unread, forget, List.drop_drop]
  rw [Nat.add_sub_cancel' hk]

end SeekQueue

end Is2
