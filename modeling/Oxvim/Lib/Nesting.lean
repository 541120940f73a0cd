import Mathlib

/-!
# Nested spans

Half-open spans of a linear order. Two spans that overlap without nesting *cross*; a set without
crossing spans is a forest under containment. `OuterFirst` sorts the spans so that an outer one
comes before what it contains, and for a pair in this order crossing is decided by one comparison on
each side (`OuterFirst.crosses_iff`).
-/

namespace Lib

universe u

/-- A half-open span. -/
structure Span (κ : Type u) where
  start : κ
  stop : κ
  deriving DecidableEq, Repr

namespace Span

variable {κ : Type u} [LinearOrder κ] {a b c : Span κ}

/-- The span has an element. -/
def Inhabited (a : Span κ) : Prop := a.start < a.stop

/-- `b` lies inside `a`. -/
def Contains (a b : Span κ) : Prop := a.start ≤ b.start ∧ b.stop ≤ a.stop

/-- The spans share an element. -/
def Overlaps (a b : Span κ) : Prop := a.start < b.stop ∧ b.start < a.stop

/-- The spans overlap, and neither lies inside the other. -/
def Crosses (a b : Span κ) : Prop := a.Overlaps b ∧ ¬a.Contains b ∧ ¬b.Contains a

/-- By start, and of two spans with one start the longer first. -/
def OuterFirst (a b : Span κ) : Prop := a.start < b.start ∨ a.start = b.start ∧ b.stop ≤ a.stop

instance : Decidable a.Inhabited := inferInstanceAs (Decidable (_ < _))

instance : Decidable (a.Contains b) := inferInstanceAs (Decidable (_ ∧ _))

instance : Decidable (a.Overlaps b) := inferInstanceAs (Decidable (_ ∧ _))

instance : Decidable (a.Crosses b) := inferInstanceAs (Decidable (_ ∧ _))

instance : DecidableRel (OuterFirst (κ := κ)) := fun _ _ => inferInstanceAs (Decidable (_ ∨ _))

theorem Contains.trans (h : a.Contains b) (h' : b.Contains c) : a.Contains c :=
  ⟨h.1.trans h'.1, h'.2.trans h.2⟩

theorem Overlaps.symm (h : a.Overlaps b) : b.Overlaps a := ⟨h.2, h.1⟩

theorem Crosses.symm (h : a.Crosses b) : b.Crosses a := ⟨h.1.symm, h.2.2, h.2.1⟩

namespace OuterFirst

theorem start_le (h : a.OuterFirst b) : a.start ≤ b.start := h.elim le_of_lt fun h => h.1.le

theorem total (a b : Span κ) : a.OuterFirst b ∨ b.OuterFirst a := by
  rcases lt_trichotomy a.start b.start with h | h | h
  · exact .inl (.inl h)
  · rcases le_total b.stop a.stop with hstop | hstop
    · exact .inl (.inr ⟨h, hstop⟩)
    · exact .inr (.inr ⟨h.symm, hstop⟩)
  · exact .inr (.inl h)

theorem trans (h : a.OuterFirst b) (h' : b.OuterFirst c) : a.OuterFirst c := by
  rcases h with h | ⟨h, hstop⟩
  · exact .inl (h.trans_le h'.start_le)
  · rcases h' with h' | ⟨h', hstop'⟩
    · exact .inl (h ▸ h')
    · exact .inr ⟨h.trans h', hstop'.trans hstop⟩

/-- Of a pair in this order only the first can contain the second. -/
theorem not_contains (h : a.OuterFirst b) (hab : ¬a.Contains b) : ¬b.Contains a := by
  rintro ⟨hstart, -⟩
  rcases h with h | ⟨h, hstop⟩
  · exact absurd hstart (not_le.mpr h)
  · exact hab ⟨h.le, hstop⟩

/-- Of a pair in this order the second contains the first only where they are one. -/
theorem eq_of_contains (h : a.OuterFirst b) (hba : b.Contains a) : b = a := by
  rcases h with h | ⟨hstart, hstop⟩
  · exact absurd hba.1 (not_le.mpr h)
  · have hstops : b.stop = a.stop := le_antisymm hstop hba.2
    cases a
    cases b
    simp_all

/-- A pair in this order crosses when the second begins inside the first and ends behind it. -/
theorem crosses_iff (h : a.OuterFirst b) : a.Crosses b ↔ a.Overlaps b ∧ ¬a.Contains b :=
  ⟨fun hc => ⟨hc.1, hc.2.1⟩, fun hc => ⟨hc.1, hc.2, h.not_contains hc.2⟩⟩

/-- A pair in this order that does not overlap lies one behind the other. -/
theorem stop_le (h : a.OuterFirst b) (hb : b.Inhabited) (hdisjoint : ¬a.Overlaps b) :
    a.stop ≤ b.start := by
  by_contra hlt
  exact hdisjoint ⟨h.start_le.trans_lt hb, not_le.mp hlt⟩

end OuterFirst

/-- What ends before another span begins does not cross it. -/
theorem not_crosses_of_stop_le (h : a.stop ≤ b.start) : ¬a.Crosses b :=
  fun hc => absurd hc.1.2 (not_lt.mpr h)

theorem Contains.not_crosses (h : a.Contains b) : ¬a.Crosses b := fun hc => hc.2.1 h

end Span

end Lib
