import Mathlib.Data.List.TakeWhile

/-!
# Greedy runs

What a scanner takes while a test holds is a run of elements that pass it, and what is left stops it.
-/

namespace Lib.Greedy

universe u

variable {α : Type u} {p : α → Bool}

/-- The list is empty or does not begin with an element that passes the test. -/
def Stops (p : α → Bool) (rest : List α) : Prop := rest.head?.any p = false

instance (rest : List α) : Decidable (Stops p rest) :=
  inferInstanceAs (Decidable (_ = false))

@[simp] theorem stops_nil : Stops p [] := rfl

@[simp] theorem stops_cons {a : α} {rest : List α} : Stops p (a :: rest) ↔ p a = false := by
  simp [Stops]

theorem stops_dropWhile (l : List α) : Stops p (l.dropWhile p) := by
  induction l with
  | nil => rfl
  | cons a l ih =>
    rw [List.dropWhile_cons]
    split
    · exact ih
    · rename_i h
      simpa using h

theorem all_takeWhile (l : List α) : (l.takeWhile p).all p = true := by
  rw [List.all_eq_true]
  exact fun a ha => List.mem_takeWhile_imp ha

theorem drop_takeWhile_length (l : List α) : l.drop (l.takeWhile p).length = l.dropWhile p := by
  induction l with
  | nil => rfl
  | cons a l ih =>
    rw [List.takeWhile_cons, List.dropWhile_cons]
    split_ifs
    · exact ih
    · rfl

theorem takeWhile_append {run rest : List α} (hrun : run.all p = true) (hstop : Stops p rest) :
    (run ++ rest).takeWhile p = run := by
  have hrest : rest.takeWhile p = [] := by
    cases rest with
    | nil => rfl
    | cons a rest => simpa using hstop
  rw [List.takeWhile_append_of_pos (List.all_eq_true.mp hrun), hrest, List.append_nil]

theorem dropWhile_append {run rest : List α} (hrun : run.all p = true) (hstop : Stops p rest) :
    (run ++ rest).dropWhile p = rest := by
  rw [List.dropWhile_append_of_pos (List.all_eq_true.mp hrun)]
  cases rest with
  | nil => rfl
  | cons a rest =>
    rw [stops_cons] at hstop
    simp [hstop]

theorem Stops.append {run rest : List α} (h : Stops p (run ++ rest)) (hne : run ≠ []) : Stops p run := by
  cases run with
  | nil => exact absurd rfl hne
  | cons a run => simpa using h

/-- Elements of a run that stop the test before its end stop it whatever follows. -/
theorem stops_append_iff {run rest : List α} (hne : run ≠ []) : Stops p (run ++ rest) ↔ Stops p run := by
  cases run with
  | nil => exact absurd rfl hne
  | cons a run => simp

end Lib.Greedy
