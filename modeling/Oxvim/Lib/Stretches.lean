import Oxvim.Lib.Nesting

/-!
# Stretches of a predicate

A *stretch* of a predicate on the natural numbers is a longest run of numbers that satisfy it. Two
stretches of one predicate are disjoint, and a stretch of a stronger predicate that meets one of a
weaker predicate lies inside it; so the stretches of a falling chain of predicates are nested.

`Scanned` is the invariant of a scan from zero that remembers where the pending stretch began. A
scan that has gone past the last number finds each number in one stretch, or in none.
-/

namespace Lib

/-- A longest run of numbers that satisfy `p`. -/
structure Stretch (p : Nat → Prop) (a : Span Nat) : Prop where
  inhabited : a.Inhabited
  inside : ∀ i, a.start ≤ i → i < a.stop → p i
  before : ∀ i, i + 1 = a.start → ¬p i
  behind : ¬p a.stop

namespace Stretch

variable {p q : Nat → Prop} {a b : Span Nat}

/-- A stretch of a stronger predicate lies inside the stretch of a weaker one that it meets. -/
theorem contains (h : Stretch p a) (h' : Stretch q b) (hqp : ∀ i, q i → p i)
    (hoverlaps : a.Overlaps b) : a.Contains b := by
  obtain ⟨hstart, hstop⟩ := hoverlaps
  constructor
  · -- otherwise `b` has the number before `a`
    by_contra hlt
    have hb : q (a.start - 1) := h'.inside _ (by omega) (by omega)
    exact h.before (a.start - 1) (by omega) (hqp _ hb)
  · -- otherwise `b` has the number behind `a`
    by_contra hlt
    have hb : q a.stop := h'.inside _ (by omega) (by omega)
    exact h.behind (hqp _ hb)

theorem not_crosses (h : Stretch p a) (h' : Stretch q b) (hqp : ∀ i, q i → p i) :
    ¬a.Crosses b :=
  fun hcross => hcross.2.1 (h.contains h' hqp hcross.1)

end Stretch

/-- How many of the spans have a number. -/
def covering (spans : List (Span Nat)) (i : Nat) : Nat :=
  spans.countP fun a => a.start ≤ i ∧ i < a.stop

@[simp] theorem covering_nil (i : Nat) : covering [] i = 0 := rfl

@[simp] theorem covering_append (as bs : List (Span Nat)) (i : Nat) :
    covering (as ++ bs) i = covering as i + covering bs i :=
  List.countP_append

@[simp] theorem covering_singleton (a : Span Nat) (i : Nat) :
    covering [a] i = if a.start ≤ i ∧ i < a.stop then 1 else 0 := by
  simp [covering, List.countP_cons]

/-- The scan has read the numbers before `row`: `pending` is where the stretch that is still open
began, and `spans` are the stretches that have ended. -/
structure Scanned (p : Nat → Prop) [DecidablePred p] (row : Nat) (pending : Option Nat)
    (spans : List (Span Nat)) : Prop where
  stretches : ∀ a ∈ spans, Stretch p a
  covered : ∀ i, covering spans i = if i < pending.getD row ∧ p i then 1 else 0
  opened : ∀ s, pending = some s → s < row ∧ (∀ i, s ≤ i → i < row → p i) ∧ ∀ i, i + 1 = s → ¬p i
  closed : pending = none → ∀ i, i + 1 = row → ¬p i

namespace Scanned

variable {p : Nat → Prop} [DecidablePred p] {row s : Nat} {spans : List (Span Nat)}

theorem nil : Scanned p 0 none [] :=
  ⟨by simp, by simp, by simp, by simp⟩

/-- A number that satisfies `p` begins a stretch. -/
theorem begin (h : Scanned p row none spans) (hp : p row) :
    Scanned p (row + 1) (some row) spans := by
  refine ⟨h.stretches, h.covered, ?_, by simp⟩
  intro s hs
  obtain rfl : row = s := Option.some.inj hs
  refine ⟨by omega, ?_, h.closed rfl⟩
  intro i hle hlt
  obtain rfl : i = row := by omega
  exact hp

/-- A number that satisfies `p` continues a stretch. -/
theorem extend (h : Scanned p row (some s) spans) (hp : p row) :
    Scanned p (row + 1) (some s) spans := by
  obtain ⟨hlt, hinside, hbefore⟩ := h.opened s rfl
  refine ⟨h.stretches, h.covered, ?_, by simp⟩
  intro s' hs
  obtain rfl : s = s' := Option.some.inj hs
  refine ⟨by omega, ?_, hbefore⟩
  intro i hle hi
  rcases Nat.lt_succ_iff_lt_or_eq.mp hi with hi | rfl
  · exact hinside i hle hi
  · exact hp

/-- A number that does not satisfy `p` ends a stretch. -/
theorem finish (h : Scanned p row (some s) spans) (hp : ¬p row) :
    Scanned p (row + 1) none (spans ++ [⟨s, row⟩]) := by
  obtain ⟨hlt, hinside, hbefore⟩ := h.opened s rfl
  refine ⟨?_, ?_, by simp, ?_⟩
  · intro a ha
    rcases List.mem_append.mp ha with ha | ha
    · exact h.stretches a ha
    · obtain rfl := List.mem_singleton.mp ha
      exact ⟨hlt, hinside, hbefore, hp⟩
  · intro i
    have hcovered := h.covered i
    simp only [Option.getD_some] at hcovered
    rw [covering_append, covering_singleton, hcovered]
    simp only [Option.getD_none]
    -- the numbers before the stretch, in it, and its end
    by_cases hi : i < s
    · simp [hi, Nat.not_le.mpr hi, Nat.lt_succ_of_lt (hi.trans hlt)]
    · have hle : s ≤ i := Nat.le_of_not_lt hi
      by_cases hrow : i < row
      · simp [hi, hle, hrow, Nat.lt_succ_of_lt hrow, hinside i hle hrow]
      · by_cases heq : i = row
        · simp [heq, hp]
        · have hge : ¬i < row + 1 := by omega
          simp [hi, hrow, hge]
  · intro _ i hi
    obtain rfl : i = row := by omega
    exact hp

/-- A number that does not satisfy `p` outside a stretch changes nothing. -/
theorem skip (h : Scanned p row none spans) (hp : ¬p row) : Scanned p (row + 1) none spans := by
  refine ⟨h.stretches, ?_, by simp, ?_⟩
  · intro i
    have hcovered := h.covered i
    simp only [Option.getD_none] at hcovered ⊢
    rw [hcovered]
    by_cases hi : i = row
    · simp [hi, hp]
    · have hiff : i < row ↔ i < row + 1 := by omega
      simp [hiff]
  · intro _ i hi
    obtain rfl : i = row := by omega
    exact hp

end Scanned

end Lib
