import Mathlib

/-!
# Trimming

What is left of a list without the elements of a kind at its ends.
-/

namespace Lib.Trim

universe u

variable {α : Type u} {p : α → Bool} {as front core back : List α}

def trim (p : α → Bool) (as : List α) : List α := (as.dropWhile p).rdropWhile p

/-- The ends that are taken off are of the kind. -/
theorem exists_trim (p : α → Bool) (as : List α) : ∃ front back, as = front ++ trim p as ++ back ∧
    (∀ a ∈ front, p a = true) ∧ ∀ a ∈ back, p a = true := by
  refine ⟨as.takeWhile p, (as.dropWhile p).rtakeWhile p, ?_, ?_, ?_⟩
  · rw [List.append_assoc, trim, List.rdropWhile_append_rtakeWhile, List.takeWhile_append_dropWhile]
  · intro a ha
    exact List.mem_takeWhile_imp ha
  · intro a ha
    exact List.mem_rtakeWhile_imp ha

theorem trim_append_left (h : ∀ a ∈ front, p a = true) : trim p (front ++ as) = trim p as := by
  rw [trim, trim, List.dropWhile_append_of_pos h]

theorem rdropWhile_append_right (h : ∀ a ∈ back, p a = true) :
    (as ++ back).rdropWhile p = as.rdropWhile p := by
  rw [List.rdropWhile, List.rdropWhile, List.reverse_append, List.dropWhile_append_of_pos]
  intro a ha
  exact h a (List.mem_reverse.mp ha)

theorem trim_append_right (h : ∀ a ∈ back, p a = true) : trim p (as ++ back) = trim p as := by
  rw [trim, trim, List.dropWhile_append]
  split
  · next hnil =>
    rw [List.isEmpty_iff] at hnil
    rw [hnil, List.dropWhile_eq_nil_iff.mpr h]
  · exact rdropWhile_append_right h

/-- What has an element of another kind stops the taking off. -/
theorem dropWhile_append_of_exists (h : ∃ a ∈ as, p a = false) :
    (as ++ back).dropWhile p = as.dropWhile p ++ back := by
  rw [List.dropWhile_append, if_neg]
  intro hnil
  rw [List.isEmpty_iff, List.dropWhile_eq_nil_iff] at hnil
  obtain ⟨a, ha, hp⟩ := h
  rw [hnil a ha] at hp
  cases hp

theorem rdropWhile_append_of_exists (h : ∃ a ∈ as, p a = false) :
    (front ++ as).rdropWhile p = front ++ as.rdropWhile p := by
  rw [List.rdropWhile, List.rdropWhile, List.reverse_append, dropWhile_append_of_exists,
    List.reverse_append, List.reverse_reverse]
  obtain ⟨a, ha, hp⟩ := h
  exact ⟨a, List.mem_reverse.mpr ha, hp⟩

@[simp] theorem trim_trim (p : α → Bool) (as : List α) : trim p (trim p as) = trim p as := by
  obtain ⟨front, back, has, hfront, hback⟩ := exists_trim p as
  have h : trim p (front ++ trim p as ++ back) = trim p (front ++ trim p as) :=
    trim_append_right hback
  rw [← has, trim_append_left hfront] at h
  exact h.symm

end Lib.Trim
