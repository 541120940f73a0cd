import Mathlib

/-!
# Splicing lists

`splice l i n r` takes the `n` elements of `l` that start at index `i` out and puts `r` in their
place: the one text operation behind insertion, deletion and replacement of lines.

Most facts are stated on the shape `a ++ b ++ c`, where `a` is what stands before the replaced part
`b`; `exists_split` gives this shape from a pair of bounds.
-/

namespace Lib

universe u v

variable {α : Type u} {β : Type v}

/-- `l` with the `n` elements from index `i` on replaced by `r`. -/
def splice (l : List α) (i n : Nat) (r : List α) : List α :=
  l.take i ++ r ++ l.drop (i + n)

/-- The `n` elements of `l` from index `i` on. -/
def slice (l : List α) (i n : Nat) : List α :=
  (l.drop i).take n

/-- Bounds cut a list into what stands before, inside and behind them. -/
theorem exists_split {l : List α} {i n : Nat} (h : i + n ≤ l.length) :
    ∃ a b c, l = a ++ b ++ c ∧ a.length = i ∧ b.length = n := by
  refine ⟨l.take i, slice l i n, l.drop (i + n), ?_, ?_, ?_⟩
  · rw [slice, List.append_assoc, ← List.drop_drop, List.take_append_drop, List.take_append_drop]
  · simp; omega
  · simp [slice]; omega

theorem splice_append {a b c r : List α} {i n : Nat} (hi : a.length = i) (hn : b.length = n) :
    splice (a ++ b ++ c) i n r = a ++ r ++ c := by
  subst hi hn
  simp [splice, List.append_assoc]

theorem slice_append {a b c : List α} {i n : Nat} (hi : a.length = i) (hn : b.length = n) :
    slice (a ++ b ++ c) i n = b := by
  subst hi hn
  simp [slice, List.append_assoc]

@[simp] theorem splice_zero_nil (l : List α) (i : Nat) : splice l i 0 [] = l := by
  simp [splice]

theorem length_splice {l r : List α} {i n : Nat} (h : i + n ≤ l.length) :
    (splice l i n r).length = l.length - n + r.length := by
  obtain ⟨a, b, c, rfl, rfl, rfl⟩ := exists_split h
  rw [splice_append rfl rfl]
  simp; omega

@[simp] theorem length_slice {l : List α} {i n : Nat} (h : i + n ≤ l.length) :
    (slice l i n).length = n := by
  simp [slice]; omega

/-- A list that must not be empty: `d` alone stands in for the empty one. -/
def settle (d : α) : List α → List α
  | [] => [d]
  | l => l

theorem settle_of_ne_nil {d : α} {l : List α} (h : l ≠ []) : settle d l = l := by
  cases l with
  | nil => exact absurd rfl h
  | cons _ _ => rfl

@[simp] theorem settle_nil (d : α) : settle d [] = [d] := rfl

@[simp] theorem settle_ne_nil (d : α) (l : List α) : settle d l ≠ [] := by
  cases l <;> simp [settle]

theorem mem_settle {d x : α} {l : List α} (h : x ∈ settle d l) : x = d ∨ x ∈ l := by
  cases l with
  | nil => exact .inl (by simpa using h)
  | cons _ _ => exact .inr h

theorem mem_splice {l r : List α} {i n : Nat} {x : α} (h : x ∈ splice l i n r) :
    x ∈ l ∨ x ∈ r := by
  simp only [splice, List.mem_append] at h
  rcases h with (h | h) | h
  · exact .inl (List.mem_of_mem_take h)
  · exact .inr h
  · exact .inl (List.mem_of_mem_drop h)

end Lib
