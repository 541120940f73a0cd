import Mathlib

/-!
# Tab stops

Columns of a text in which a tab leads to the next multiple of `stop` and every other letter takes its
own number of cells. Where a text of tabs and spaces ends depends on where it begins; `columnFrom`
carries that column along, and `fill` is the way from one column to another by tabs first.
-/

namespace Lib.TabStops

universe u

/-- The cells from a column to the next tab stop. -/
def padding (stop col : Nat) : Nat := stop - col % stop

section Padding

variable {stop : Nat} (hstop : 0 < stop) (col : Nat)

include hstop

theorem padding_pos : 0 < padding stop col :=
  Nat.sub_pos_of_lt (Nat.mod_lt _ hstop)

theorem add_padding : col + padding stop col = (col / stop + 1) * stop := by
  have hmod := Nat.mod_lt col hstop
  have hdiv := Nat.div_add_mod' col stop
  rw [Nat.add_mul, Nat.one_mul, padding]
  omega

end Padding

@[simp] theorem padding_mul (stop n : Nat) : padding stop (n * stop) = stop := by
  simp [padding]

section Columns

variable {α : Type u} [DecidableEq α] (tab : α) (cells : α → Nat)

/-- The column behind a letter at `col`. -/
def step (stop col : Nat) (a : α) : Nat :=
  col + if a = tab then padding stop col else cells a

/-- The column behind a text that begins at `col`. -/
def columnFrom (stop col : Nat) (text : List α) : Nat := text.foldl (step tab cells stop) col

variable {tab cells} {stop col : Nat}

@[simp] theorem columnFrom_nil : columnFrom tab cells stop col [] = col := rfl

@[simp] theorem columnFrom_cons (a : α) (text : List α) :
    columnFrom tab cells stop col (a :: text)
      = columnFrom tab cells stop (step tab cells stop col a) text := rfl

theorem columnFrom_append (l r : List α) :
    columnFrom tab cells stop col (l ++ r)
      = columnFrom tab cells stop (columnFrom tab cells stop col l) r :=
  List.foldl_append

theorem le_step (a : α) : col ≤ step tab cells stop col a := Nat.le_add_right _ _

theorem le_columnFrom (text : List α) : col ≤ columnFrom tab cells stop col text := by
  induction text generalizing col with
  | nil => exact le_rfl
  | cons a text ih => exact (le_step a).trans ih

/-- Letters of one cell. -/
theorem columnFrom_replicate {a : α} (hne : a ≠ tab) (hcell : cells a = 1) (n : Nat) :
    columnFrom tab cells stop col (List.replicate n a) = col + n := by
  induction n generalizing col with
  | zero => rfl
  | succ n ih =>
    rw [List.replicate_succ, columnFrom_cons, ih, step, if_neg hne, hcell]
    omega

/-- A text without a tab is as wide wherever the stops are. -/
theorem columnFrom_of_no_tab {text : List α} (h : tab ∉ text) (stop' : Nat) :
    columnFrom tab cells stop col text = columnFrom tab cells stop' col text := by
  induction text generalizing col with
  | nil => rfl
  | cons a text ih =>
    rw [List.mem_cons, not_or] at h
    have hne : a ≠ tab := fun heq => h.1 heq.symm
    rw [columnFrom_cons, columnFrom_cons, step, step, if_neg hne, if_neg hne]
    exact ih h.2

/-- Tabs from a tab stop on lead from stop to stop. -/
theorem columnFrom_tabs (stop n k : Nat) :
    columnFrom tab cells stop (k * stop) (List.replicate n tab) = (k + n) * stop := by
  induction n generalizing k with
  | zero => rfl
  | succ n ih =>
    have hstep : step tab cells stop (k * stop) tab = (k + 1) * stop := by
      rw [step, if_pos rfl, padding_mul, Nat.add_mul, Nat.one_mul]
    rw [List.replicate_succ, columnFrom_cons, hstep, ih]
    congr 1
    omega

/-- The first tab leads to a stop, the others from stop to stop. -/
theorem columnFrom_replicate_tab (hstop : 0 < stop) (n : Nat) :
    columnFrom tab cells stop col (List.replicate (n + 1) tab) = (col / stop + 1 + n) * stop := by
  rw [List.replicate_succ, columnFrom_cons, step, if_pos rfl, add_padding hstop, columnFrom_tabs]

end Columns

end Lib.TabStops
