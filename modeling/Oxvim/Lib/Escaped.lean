import Mathlib

/-!
# Lists with escaped separators

A list of items is written with a separator between them; an escape letter makes the letter behind it
an ordinary one, itself included. `split` reads such a text, and it is inverse to writing items that
have no separator of their own and do not end in an escape.
-/

namespace Lib.Escaped

universe u

variable {α : Type u} [DecidableEq α] (sep esc : α)

/-- Whether the letter behind `a` is escaped. -/
def after (escaped : Bool) (a : α) : Bool := decide (a = esc) && !escaped

/-- Whether the letter behind a text is escaped. -/
def pending (escaped : Bool) (text : List α) : Bool := text.foldl (after esc) escaped

/-- The text has no separator that is not escaped. -/
def Whole (escaped : Bool) : List α → Prop
  | [] => True
  | a :: text => (a = sep → escaped = true) ∧ Whole (after esc escaped a) text

/-- The parts between the separators that are not escaped. -/
def split (escaped : Bool) : List α → List (List α)
  | [] => [[]]
  | a :: text =>
    if a = sep ∧ escaped = false then [] :: split false text
    else (split (after esc escaped a) text).modifyHead (a :: ·)

variable {sep esc} {escaped : Bool} {text item rest : List α} {a : α}

@[simp] theorem split_nil : split sep esc escaped [] = [[]] := rfl

theorem split_cons_sep : split sep esc false (sep :: text) = [] :: split sep esc false text :=
  if_pos ⟨rfl, rfl⟩

theorem split_cons (h : a = sep → escaped = true) :
    split sep esc escaped (a :: text)
      = (split sep esc (after esc escaped a) text).modifyHead (a :: ·) := by
  refine if_neg fun hsep => ?_
  rw [h hsep.1] at hsep
  exact Bool.noConfusion hsep.2

/-- Splitting an item off. -/
theorem split_append (hwhole : Whole sep esc escaped item) (hclosed : pending esc escaped item = false) :
    split sep esc escaped (item ++ sep :: rest) = item :: split sep esc false rest := by
  induction item generalizing escaped with
  | nil =>
    have hescaped : escaped = false := hclosed
    rw [hescaped]
    exact split_cons_sep
  | cons a item ih =>
    rw [List.cons_append, split_cons hwhole.1, ih hwhole.2 hclosed]
    rfl

theorem split_of_whole (hwhole : Whole sep esc escaped item) :
    split sep esc escaped item = [item] := by
  induction item generalizing escaped with
  | nil => rfl
  | cons a item ih =>
    rw [split_cons hwhole.1, ih hwhole.2]
    rfl

/-- Reading what is written for items. -/
theorem split_intercalate {items : List (List α)} (hne : items ≠ [])
    (hwhole : ∀ item ∈ items, Whole sep esc false item)
    (hclosed : ∀ item ∈ items, pending esc false item = false) :
    split sep esc false ([sep].intercalate items) = items := by
  induction items with
  | nil => exact absurd rfl hne
  | cons item items ih =>
    have hitem := hwhole item List.mem_cons_self
    cases items with
    | nil =>
      rw [List.intercalate_singleton]
      exact split_of_whole hitem
    | cons other items =>
      have hrest := ih (List.cons_ne_nil _ _)
        (fun x hx => hwhole x (List.mem_cons_of_mem _ hx))
        (fun x hx => hclosed x (List.mem_cons_of_mem _ hx))
      rw [List.intercalate_cons_cons, List.append_assoc, List.singleton_append,
        split_append hitem (hclosed item List.mem_cons_self), hrest]

/-- The items of a text: what each of them is, and that they give back the text. -/
structure Parts (sep esc : α) (escaped : Bool) (text head : List α) (tail : List (List α)) : Prop where
  first : Whole sep esc escaped head
  others : ∀ item ∈ tail, Whole sep esc false item
  joined : [sep].intercalate (head :: tail) = text

theorem exists_parts (sep esc : α) (escaped : Bool) (text : List α) :
    ∃ head tail, split sep esc escaped text = head :: tail ∧ Parts sep esc escaped text head tail := by
  induction text generalizing escaped with
  | nil => exact ⟨[], [], rfl, trivial, by simp, List.intercalate_singleton⟩
  | cons a text ih =>
    by_cases hsep : a = sep ∧ escaped = false
    · obtain ⟨rfl, rfl⟩ := hsep
      obtain ⟨head, tail, hsplit, hparts⟩ := ih false
      refine ⟨[], head :: tail, ?_, trivial, ?_, ?_⟩
      · rw [split_cons_sep, hsplit]
      · exact List.forall_mem_cons.mpr ⟨hparts.first, hparts.others⟩
      · rw [List.intercalate_cons_cons, hparts.joined]
        rfl
    · have hescaped : a = sep → escaped = true := by
        intro heq
        exact eq_true_of_ne_false fun hfalse => hsep ⟨heq, hfalse⟩
      obtain ⟨head, tail, hsplit, hparts⟩ := ih (after esc escaped a)
      refine ⟨a :: head, tail, ?_, ⟨hescaped, hparts.first⟩, hparts.others, ?_⟩
      · rw [split_cons hescaped, hsplit]
        rfl
      · rw [List.intercalate_cons_cons_left, hparts.joined]

theorem intercalate_split (text : List α) : [sep].intercalate (split sep esc false text) = text := by
  obtain ⟨head, tail, hsplit, hparts⟩ := exists_parts sep esc false text
  rw [hsplit, hparts.joined]

theorem whole_of_mem_split (hitem : item ∈ split sep esc false text) : Whole sep esc false item := by
  obtain ⟨head, tail, hsplit, hparts⟩ := exists_parts sep esc false text
  rw [hsplit] at hitem
  rcases List.mem_cons.mp hitem with rfl | hitem
  · exact hparts.first
  · exact hparts.others item hitem

end Lib.Escaped
