import Mathlib

/-!
# Rows of a flat list

A table of cells stored row after row. An update is described by what it does to each row.
-/

namespace Lib.RowMajor

variable {α : Type*} {cols rows r r' c : Nat} {cells cells' new : List α}

/-- Row `r` of cells that are stored row after row. -/
def row (cols : Nat) (cells : List α) (r : Nat) : List α := (cells.drop (r * cols)).take cols

/-- Overwrites the cells from an index on. -/
def overwrite (cells : List α) (i : Nat) (new : List α) : List α :=
  cells.take i ++ new ++ cells.drop (i + new.length)

/-- A row ends within the cells. -/
theorem row_end_le (cols : Nat) (h : r < rows) : r * cols + cols ≤ rows * cols := by
  rw [← Nat.succ_mul]
  exact Nat.mul_le_mul_right cols h

theorem getElem?_row (cols : Nat) (cells : List α) (r c : Nat) :
    (row cols cells r)[c]? = if c < cols then cells[r * cols + c]? else none := by
  rw [row, List.getElem?_take, List.getElem?_drop]

theorem length_row (hlength : cells.length = rows * cols) (h : r < rows) :
    (row cols cells r).length = cols := by
  have hend := row_end_le cols h
  rw [row, List.length_take, List.length_drop]
  omega

theorem row_eq_nil (hlength : cells.length = rows * cols) (h : rows ≤ r) : row cols cells r = [] := by
  have hle : rows * cols ≤ r * cols := Nat.mul_le_mul_right cols h
  rw [row, List.drop_eq_nil_of_le (by omega), List.take_nil]

/-- Cells in different rows are different. -/
theorem index_eq_iff {c' : Nat} (hc : c < cols) (hc' : c' < cols) :
    r * cols + c = r' * cols + c' ↔ r = r' ∧ c = c' := by
  constructor
  · intro h
    have hrow : ∀ a b, b < cols → (a * cols + b) / cols = a := by
      intro a b hb
      rw [Nat.mul_comm, Nat.mul_add_div (by omega), Nat.div_eq_of_lt hb, Nat.add_zero]
    have hr : r = r' := by rw [← hrow r c hc, h, hrow r' c' hc']
    subst hr
    exact ⟨rfl, by omega⟩
  · rintro ⟨rfl, rfl⟩
    rfl

/-- The first rows one after another. -/
theorem flatMap_row (cols : Nat) (cells : List α) (n : Nat) :
    (List.range n).flatMap (row cols cells) = cells.take (n * cols) := by
  induction n with
  | zero => rw [Nat.zero_mul, List.take_zero, List.range_zero, List.flatMap_nil]
  | succ n ih =>
    rw [List.range_succ, List.flatMap_append, ih, List.flatMap_singleton, Nat.succ_mul, List.take_add, row]

/-! ## Updates -/

theorem length_overwrite {i : Nat} (h : i + new.length ≤ cells.length) :
    (overwrite cells i new).length = cells.length := by
  rw [overwrite, List.length_append, List.length_append, List.length_take, List.length_drop]
  omega

theorem getElem?_overwrite {i j : Nat} (h : i + new.length ≤ cells.length) :
    (overwrite cells i new)[j]? = if i ≤ j ∧ j < i + new.length then new[j - i]? else cells[j]? := by
  have hfront : (cells.take i).length = i := by
    rw [List.length_take]
    omega
  rw [overwrite, List.append_assoc, List.getElem?_append, List.getElem?_append, hfront,
    List.getElem?_take, List.getElem?_drop]
  by_cases hlow : j < i
  · rw [if_pos hlow, if_pos hlow, if_neg (by omega)]
  · rw [if_neg hlow]
    by_cases hhigh : j < i + new.length
    · rw [if_pos (by omega), if_pos ⟨by omega, hhigh⟩]
    · rw [if_neg (by omega), if_neg (by omega)]
      congr 1
      omega

/-- Overwriting a whole row. -/
theorem row_overwrite (hlength : cells.length = rows * cols) (hnew : new.length = cols) (hr : r < rows)
    (r' : Nat) :
    row cols (overwrite cells (r * cols) new) r' = if r' = r then new else row cols cells r' := by
  have hend : r * cols + new.length ≤ cells.length := by
    rw [hnew, hlength]
    exact row_end_le _ hr
  apply List.ext_getElem?
  intro c
  rw [getElem?_row]
  by_cases hc : c < cols
  · rw [if_pos hc, getElem?_overwrite hend, hnew]
    by_cases heq : r' = r
    · subst heq
      rw [if_pos rfl, if_pos (by omega), Nat.add_sub_cancel_left]
    · rw [if_neg heq, if_neg, getElem?_row, if_pos hc]
      intro hinside
      have hindex : r' * cols + c = r * cols + (r' * cols + c - r * cols) := by omega
      exact heq ((index_eq_iff hc (by omega)).mp hindex).1
  · rw [if_neg hc]
    by_cases heq : r' = r
    · rw [if_pos heq, List.getElem?_eq_none (by omega)]
    · rw [if_neg heq, getElem?_row, if_neg hc]

/-- Overwriting one cell. -/
theorem row_set (hc : c < cols) (x : α) (r' : Nat) :
    row cols (cells.set (r * cols + c) x) r' =
      if r' = r then (row cols cells r').set c x else row cols cells r' := by
  apply List.ext_getElem?
  intro c'
  rw [getElem?_row]
  by_cases hc' : c' < cols
  · rw [if_pos hc', List.getElem?_set]
    by_cases heq : r' = r
    · subst heq
      rw [if_pos rfl, List.getElem?_set, getElem?_row, if_pos hc', row, List.length_take, List.length_drop]
      by_cases hcol : c = c'
      · subst hcol
        rw [if_pos rfl, if_pos rfl]
        by_cases hin : r' * cols + c < cells.length
        · rw [if_pos hin, if_pos (by omega)]
        · rw [if_neg hin, if_neg (by omega)]
      · rw [if_neg (by omega), if_neg hcol]
    · rw [if_neg heq, if_neg, getElem?_row, if_pos hc']
      intro hindex
      exact heq ((index_eq_iff hc hc').mp hindex).1.symm
  · rw [if_neg hc']
    by_cases heq : r' = r
    · rw [if_pos heq, List.getElem?_set, getElem?_row, if_neg hc', row, List.length_take]
      rw [if_neg (by omega)]
    · rw [if_neg heq, getElem?_row, if_neg hc']

/-- Cells behind `base` are written one after another, each with a value that the writes before it leave
alone. -/
theorem getElem?_foldl_set (base : Nat) (value : List α → Nat → α) (written : List Nat)
    (hstable : written.Pairwise fun a b =>
      ∀ (cells : List α) (x : α), value (cells.set (base + a) x) b = value cells b)
    (cells : List α) {c : Nat} (hc : base + c < cells.length) :
    (written.foldl (fun cells i => cells.set (base + i) (value cells i)) cells)[base + c]? =
      if c ∈ written then some (value cells c) else cells[base + c]? := by
  induction written generalizing cells with
  | nil => rw [List.foldl_nil, if_neg List.not_mem_nil]
  | cons first written ih =>
    obtain ⟨hfirst, hrest⟩ := List.pairwise_cons.mp hstable
    rw [List.foldl_cons, ih hrest (cells.set (base + first) (value cells first))
      (by rw [List.length_set]; exact hc)]
    by_cases hmem : c ∈ written
    · rw [if_pos hmem, if_pos (List.mem_cons_of_mem _ hmem), hfirst c hmem]
    · rw [if_neg hmem, List.getElem?_set]
      by_cases heq : first = c
      · subst heq
        rw [if_pos rfl, if_pos hc, if_pos List.mem_cons_self]
      · rw [if_neg (by omega), if_neg]
        rw [List.mem_cons, not_or]
        exact ⟨fun h => heq h.symm, hmem⟩

end Lib.RowMajor
