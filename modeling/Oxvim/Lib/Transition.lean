import Mathlib

/-!
# Transition systems and their invariants

A system is a set of initial states and a step relation. `Reachable` is the set of states any
finite run of steps leads to, and `Reachable.invariant` is the one induction over runs that every
safety result of a development needs: it holds initially, every step keeps it.

A run that has to be *observed* (what was printed, what a mirror has seen, what the state was when
something was saved) is a run of the system with the observation carried along as a second
component of the state; `Reachable.invariant` then speaks about both.
-/

namespace Lib

universe u

variable {σ : Type u} {Init : σ → Prop} {Step : σ → σ → Prop}

/-- `s` is reached from an initial state by finitely many steps. -/
def Reachable (Init : σ → Prop) (Step : σ → σ → Prop) (s : σ) : Prop :=
  ∃ s₀, Init s₀ ∧ Relation.ReflTransGen Step s₀ s

namespace Reachable

theorem init {s : σ} (h : Init s) : Reachable Init Step s :=
  ⟨s, h, .refl⟩

theorem step {s t : σ} (h : Reachable Init Step s) (hst : Step s t) : Reachable Init Step t := by
  obtain ⟨s₀, h₀, hrun⟩ := h
  exact ⟨s₀, h₀, hrun.tail hst⟩

/-- **The invariant rule.** What holds initially and is kept by every step between reachable
states holds in every reachable state. -/
theorem invariant {I : σ → Prop} (hinit : ∀ s, Init s → I s)
    (hstep : ∀ s t, I s → Step s t → I t) {s : σ} (h : Reachable Init Step s) : I s := by
  obtain ⟨s₀, h₀, hrun⟩ := h
  induction hrun with
  | refl => exact hinit s₀ h₀
  | tail _ hst ih => exact hstep _ _ ih hst

/-- Carrying out operations one after another is a run. -/
theorem foldl {ω : Type*} {apply : ω → σ → σ} (hstep : ∀ s op, Step s (apply op s)) (ops : List ω)
    {s : σ} (h : Reachable Init Step s) :
    Reachable Init Step (ops.foldl (fun s op => apply op s) s) := by
  induction ops generalizing s with
  | nil => exact h
  | cons op ops ih => exact ih (h.step (hstep s op))

end Reachable

end Lib
