import Oxvim.Lib.Splice

/-!
# Lines of a separated sequence

A text is a list over any alphabet with one distinguished separator. Two renderings of a list of
lines matter: `terminated` puts a separator behind every line, `joined` only between two lines.
`lineStart` reads the other way: it walks a raw sequence and says where its `k`-th line begins,
counting separators only.

The lemmas connect the two: in `terminated sep ls ++ t` the lines of `ls` begin where their lengths
say, provided no line contains the separator (`Separated`).
-/

namespace Lib

universe u v

variable {α : Type u} {β : Type v}

/-- Every line followed by the separator. -/
def terminated (sep : α) (ls : List (List α)) : List α :=
  ls.flatMap (· ++ [sep])

/-- The lines with the separator between any two of them. -/
def joined (sep : α) : List (List α) → List α
  | [] => []
  | [l] => l
  | l :: ls => l ++ sep :: joined sep ls

/-- No line contains the separator. -/
def Separated (sep : α) (ls : List (List α)) : Prop :=
  ∀ l ∈ ls, sep ∉ l

/-! ## `terminated` -/

@[simp] theorem terminated_nil (sep : α) : terminated sep [] = [] := rfl

@[simp] theorem terminated_cons (sep : α) (l : List α) (ls : List (List α)) :
    terminated sep (l :: ls) = l ++ sep :: terminated sep ls := by
  simp [terminated]

@[simp] theorem terminated_append (sep : α) (xs ys : List (List α)) :
    terminated sep (xs ++ ys) = terminated sep xs ++ terminated sep ys := by
  simp [terminated]

@[simp] theorem terminated_eq_nil {sep : α} {ls : List (List α)} :
    terminated sep ls = [] ↔ ls = [] := by
  cases ls <;> simp

theorem count_terminated [DecidableEq α] {sep : α} {ls : List (List α)} (h : Separated sep ls) :
    (terminated sep ls).count sep = ls.length := by
  induction ls with
  | nil => rfl
  | cons l ls ih =>
    have hl : l.count sep = 0 := List.count_eq_zero.mpr (h l (by simp))
    have ih := ih fun l hl => h l (List.mem_cons_of_mem _ hl)
    simp [hl, ih]

/-! ## `joined` -/

@[simp] theorem joined_nil (sep : α) : joined sep [] = [] := rfl

@[simp] theorem joined_singleton (sep : α) (l : List α) : joined sep [l] = l := rfl

theorem joined_cons {sep : α} {l : List α} {ls : List (List α)} (h : ls ≠ []) :
    joined sep (l :: ls) = l ++ sep :: joined sep ls := by
  cases ls with
  | nil => exact absurd rfl h
  | cons _ _ => rfl

/-- A final separator turns the joined lines into the terminated ones. -/
theorem joined_append_sep (sep : α) (ls : List (List α)) (h : ls ≠ []) :
    joined sep ls ++ [sep] = terminated sep ls := by
  induction ls with
  | nil => exact absurd rfl h
  | cons l ls ih =>
    cases ls with
    | nil => simp
    | cons m ms =>
      rw [joined_cons (by simp), terminated_cons, ← ih (by simp)]
      simp

theorem joined_append {sep : α} {xs ys : List (List α)} (h : ys ≠ []) :
    joined sep (xs ++ ys) = terminated sep xs ++ joined sep ys := by
  induction xs with
  | nil => rfl
  | cons x xs ih =>
    rw [List.cons_append, joined_cons (by simp [h]), ih]
    simp

theorem joined_eq_dropLast {sep : α} {ls : List (List α)} (h : ls ≠ []) :
    joined sep ls = (terminated sep ls).dropLast := by
  rw [← joined_append_sep _ _ h, List.dropLast_concat]

/-! ## Where lines begin -/

/-- The offset at which line `k` of `t` begins, the end of `t` when there is no such line. -/
def lineStart [DecidableEq α] (sep : α) : List α → Nat → Nat
  | _, 0 => 0
  | [], _ + 1 => 0
  | c :: cs, k + 1 => 1 + (if c = sep then lineStart sep cs k else lineStart sep cs (k + 1))

variable [DecidableEq α] {sep : α}

@[simp] theorem lineStart_zero (t : List α) : lineStart sep t 0 = 0 := by
  cases t <;> rfl

@[simp] theorem lineStart_nil (k : Nat) : lineStart sep ([] : List α) k = 0 := by
  cases k <;> rfl

theorem lineStart_le_length (t : List α) (k : Nat) : lineStart sep t k ≤ t.length := by
  induction t generalizing k with
  | nil => simp
  | cons c cs ih =>
    cases k with
    | zero => simp
    | succ k =>
      have h₁ := ih k
      have h₂ := ih (k + 1)
      simp only [lineStart, List.length_cons]
      split <;> omega

theorem lineStart_mono (t : List α) {j k : Nat} (h : j ≤ k) :
    lineStart sep t j ≤ lineStart sep t k := by
  induction t generalizing j k with
  | nil => simp
  | cons c cs ih =>
    cases j with
    | zero => simp
    | succ j =>
      obtain ⟨k, rfl⟩ : ∃ k', k = k' + 1 := ⟨k - 1, by omega⟩
      have h₁ := ih (j := j) (k := k) (by omega)
      have h₂ := ih h
      simp only [lineStart]
      split <;> omega

theorem lineStart_append_cons {l t : List α} (h : sep ∉ l) (k : Nat) :
    lineStart sep (l ++ sep :: t) (k + 1) = l.length + 1 + lineStart sep t k := by
  induction l with
  | nil => simp [lineStart]
  | cons c cs ih =>
    have hc : c ≠ sep := fun hc => h (by simp [hc])
    have hcs : sep ∉ cs := fun hcs => h (by simp [hcs])
    simp only [List.cons_append, lineStart, if_neg hc, ih hcs, List.length_cons]
    omega

/-- The last, unterminated line is followed by the end of the text only. -/
theorem lineStart_of_not_mem {t : List α} (h : sep ∉ t) (k : Nat) :
    lineStart sep t (k + 1) = t.length := by
  induction t with
  | nil => rfl
  | cons c cs ih =>
    have hc : c ≠ sep := fun hc => h (by simp [hc])
    have hcs : sep ∉ cs := fun hcs => h (by simp [hcs])
    simp only [lineStart, if_neg hc, ih hcs, List.length_cons]
    omega

/-- Behind `a` terminated lines the count goes on. -/
theorem lineStart_terminated_append {a : List (List α)} (h : Separated sep a) (t : List α)
    (k : Nat) :
    lineStart sep (terminated sep a ++ t) (a.length + k)
      = (terminated sep a).length + lineStart sep t k := by
  induction a with
  | nil => simp
  | cons l ls ih =>
    have hl : sep ∉ l := h l (by simp)
    have hls : Separated sep ls := fun l hl => h l (List.mem_cons_of_mem _ hl)
    have hk : (l :: ls).length + k = (ls.length + k) + 1 := by simp; omega
    rw [hk, terminated_cons, List.append_assoc, List.cons_append, lineStart_append_cons hl, ih hls]
    simp only [List.length_append, List.length_cons]
    omega

theorem lineStart_terminated {a : List (List α)} (h : Separated sep a) (t : List α) :
    lineStart sep (terminated sep a ++ t) a.length = (terminated sep a).length := by
  simpa using lineStart_terminated_append h t 0

end Lib
