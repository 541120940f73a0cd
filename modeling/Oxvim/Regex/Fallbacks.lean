import Oxvim.Regex.Program
import Oxvim.Regex.Results

/-!
# What programs leave to the backtracking engine

Of a pattern the program falls back to the parts that it has no instructions for, and to no others. So a
pattern without references back has a program without them.
-/

namespace Oxvim.Regex.Nfa

/-! ## What is added -/

/-- What is compiled adds no instruction but such. -/
def Adds (Q : Inst → Prop) (compile : List Inst → List Inst) : Prop :=
  ∀ code, (∀ inst ∈ code, Q inst) → ∀ inst ∈ compile code, Q inst

section Adds

variable {Q : Inst → Prop} {compile : List Inst → List Inst}

theorem mem_set_all {code : List Inst} {i : Nat} {patch : Inst} (hcode : ∀ inst ∈ code, Q inst)
    (hpatch : Q patch) : ∀ inst ∈ code.set i patch, Q inst := by
  intro inst hmem
  rcases List.mem_or_eq_of_mem_set hmem with hmem | rfl
  · exact hcode inst hmem
  · exact hpatch

theorem mem_concat_all {code : List Inst} {last : Inst} (hcode : ∀ inst ∈ code, Q inst)
    (hlast : Q last) : ∀ inst ∈ code ++ [last], Q inst :=
  List.forall_mem_append.mpr ⟨hcode, List.forall_mem_singleton.mpr hlast⟩

theorem Adds.iterate (h : Adds Q compile) (count : Nat) : Adds Q compile^[count] := by
  induction count with
  | zero => exact fun code hcode => hcode
  | succ count ih => exact fun code hcode => ih _ (h code hcode)

theorem Adds.compileSeq {parts : List (List Inst → List Inst)} (h : ∀ part ∈ parts, Adds Q part) :
    Adds Q (compileSeq parts) := by
  induction parts with
  | nil => exact fun code hcode => hcode
  | cons part parts ih =>
    obtain ⟨hpart, hparts⟩ := List.forall_mem_cons.mp h
    exact fun code hcode => ih hparts _ (hpart code hcode)

variable (hsplit : ∀ first second, Q (.split first second)) (hjump : ∀ target, Q (.jump target))
include hsplit

theorem Adds.optional (h : Adds Q compile) (greedy : Bool) :
    Adds Q (compileOptional compile greedy) := by
  intro code hcode
  apply mem_set_all (h _ (mem_concat_all hcode (hsplit 0 0)))
  split
  · exact hsplit _ _
  · exact hsplit _ _

include hjump

theorem Adds.star (h : Adds Q compile) (greedy : Bool) : Adds Q (compileStar compile greedy) := by
  intro code hcode
  apply mem_set_all (mem_concat_all (h _ (mem_concat_all hcode (hsplit 0 0))) (hjump _))
  split
  · exact hsplit _ _
  · exact hsplit _ _

theorem Adds.repeat (h : Adds Q compile) (min : Nat) (max : Option Nat) (greedy : Bool) :
    Adds Q (compileRepeat compile min max greedy) := by
  intro code hcode
  have hrequired := h.iterate min code hcode
  cases max with
  | none => exact Adds.star hsplit hjump h greedy _ hrequired
  | some max => exact (Adds.optional hsplit h greedy).iterate _ _ hrequired

theorem Adds.branches {branches : List (List Inst → List Inst)} (jumps : List Nat)
    (h : ∀ branch ∈ branches, Adds Q branch) : Adds Q (compileBranches branches jumps) := by
  have hpatch : ∀ (jumps : List Nat) (target : Nat), Adds Q (setJumps jumps target) := by
    intro jumps target
    induction jumps with
    | nil => exact fun code hcode => hcode
    | cons jump jumps ih => exact fun code hcode => ih _ (mem_set_all hcode (hjump target))
  have hsecond : ∀ split, Adds Q (patchSecond split) := by
    intro split code hcode
    rw [patchSecond]
    split
    · exact mem_set_all hcode (hsplit _ _)
    · exact hcode
  intro code hcode
  induction branches generalizing jumps code with
  | nil =>
    rw [compileBranches, patchJumps_eq]
    exact hpatch jumps _ code hcode
  | cons branch branches ih =>
    obtain ⟨hbranch, hbranches⟩ := List.forall_mem_cons.mp h
    cases branches with
    | nil =>
      rw [compileBranches, patchJumps_eq]
      exact hpatch jumps _ _ (hbranch code hcode)
    | cons branch' branches =>
      rw [compileBranches]
      · apply ih _ hbranches
        apply hsecond
        exact mem_concat_all (hbranch _ (mem_concat_all hcode (hsplit _ _))) (hjump 0)
      · simp

end Adds

/-! ## Fallbacks -/

mutual

/-- What the program of a pattern leaves to the backtracking engine. -/
def fallbacks : Expr → List Expr
  | .concat parts | .alt parts | .optionalSeq parts => allFallbacks parts
  | .repeat expr min max greedy =>
    if isLargeRepeat min max then [.repeat expr min max greedy] else fallbacks expr
  | .group _ expr => fallbacks expr
  | .and parts => [.and parts]
  | .anchor anchor => [.anchor anchor]
  | .look expr kind limit => [.look expr kind limit]
  | .backref index => [.backref index]
  | .empty | .literal _ | .any _ | .class _ | .setStart | .setEnd => []

def allFallbacks : List Expr → List Expr
  | [] => []
  | part :: parts => fallbacks part ++ allFallbacks parts

end

/-- A fallback is one of these. -/
def FallbackIn (left : List Expr) (inst : Inst) : Prop := ∀ expr, inst = .fallback expr → expr ∈ left

section Fallbacks

variable {left : List Expr}

mutual

theorem compileExpr_adds : (expr : Expr) → fallbacks expr ⊆ left →
    Adds (FallbackIn left) (compileExpr expr)
  | .empty, _ => by
    intro code hcode
    rw [compileExpr]
    exact hcode
  | .literal c, _ => by
    intro code hcode
    rw [compileExpr]
    exact mem_concat_all hcode (by simp [FallbackIn])
  | .any newline, _ => by
    intro code hcode
    rw [compileExpr]
    exact mem_concat_all hcode (by simp [FallbackIn])
  | .class charClass, _ => by
    intro code hcode
    rw [compileExpr]
    exact mem_concat_all hcode (by simp [FallbackIn])
  | .setStart, _ => by
    intro code hcode
    rw [compileExpr]
    exact mem_concat_all hcode (by simp [FallbackIn])
  | .setEnd, _ => by
    intro code hcode
    rw [compileExpr]
    exact mem_concat_all hcode (by simp [FallbackIn])
  | .and parts, h => by
    intro code hcode
    rw [compileExpr]
    exact mem_concat_all hcode (by simpa [FallbackIn, fallbacks] using h)
  | .anchor anchor, h => by
    intro code hcode
    rw [compileExpr]
    exact mem_concat_all hcode (by simpa [FallbackIn, fallbacks] using h)
  | .look expr kind limit, h => by
    intro code hcode
    rw [compileExpr]
    exact mem_concat_all hcode (by simpa [FallbackIn, fallbacks] using h)
  | .backref index, h => by
    intro code hcode
    rw [compileExpr]
    exact mem_concat_all hcode (by simpa [FallbackIn, fallbacks] using h)
  | .concat parts, h => by
    intro code hcode
    rw [compileExpr]
    exact Adds.compileSeq (compileAll_adds parts h) code hcode
  | .alt branches, h => by
    intro code hcode
    rw [compileExpr]
    exact Adds.branches (by simp [FallbackIn]) (by simp [FallbackIn]) [] (compileAll_adds branches h)
      code hcode
  | .repeat expr min max greedy, h => by
    intro code hcode
    rw [compileExpr]
    rw [fallbacks] at h
    split at h
    · next hlarge =>
      rw [if_pos hlarge]
      exact mem_concat_all hcode (by simpa [FallbackIn] using h)
    · next hsmall =>
      rw [if_neg hsmall]
      exact Adds.repeat (by simp [FallbackIn]) (by simp [FallbackIn]) (compileExpr_adds expr h) min max
        greedy code hcode
  | .group none expr, h => by
    intro code hcode
    rw [compileExpr]
    exact compileExpr_adds expr h code hcode
  | .group (some index) expr, h => by
    intro code hcode
    rw [compileExpr]
    apply mem_concat_all
    · exact compileExpr_adds expr h _ (mem_concat_all hcode (by simp [FallbackIn]))
    · simp [FallbackIn]
  | .optionalSeq parts, h => by
    intro code hcode
    rw [compileExpr]
    refine Adds.branches (by simp [FallbackIn]) (by simp [FallbackIn]) [] (fun part hpart => ?_) code hcode
    obtain ⟨level, hlevel, rfl⟩ := List.mem_map.mp hpart
    have hinit := (List.mem_inits _ _).mp (List.mem_reverse.mp hlevel)
    exact Adds.compileSeq fun part hpart => compileAll_adds parts h part (hinit.subset hpart)

theorem compileAll_adds : (exprs : List Expr) → allFallbacks exprs ⊆ left →
    ∀ part ∈ compileAll exprs, Adds (FallbackIn left) part
  | [], _ => by simp [compileAll]
  | expr :: exprs, h => by
    rw [allFallbacks, List.append_subset] at h
    rw [compileAll, List.forall_mem_cons]
    exact ⟨compileExpr_adds expr h.1, compileAll_adds exprs h.2⟩

end

/-- A program falls back to what is told only. -/
theorem fallback_mem {expr part : Expr} (h : Inst.fallback part ∈ program expr) :
    part ∈ fallbacks expr := by
  have hall : ∀ inst ∈ program expr, FallbackIn (fallbacks expr) inst :=
    mem_concat_all (compileExpr_adds expr (List.Subset.refl _) [] (by simp)) (by simp [FallbackIn])
  exact hall _ h part rfl

mutual

theorem fallbacks_backrefFree : (expr : Expr) → hasBackref expr = false →
    ∀ part ∈ fallbacks expr, hasBackref part = false
  | .empty, _ => by simp [fallbacks]
  | .literal _, _ => by simp [fallbacks]
  | .any _, _ => by simp [fallbacks]
  | .class _, _ => by simp [fallbacks]
  | .setStart, _ => by simp [fallbacks]
  | .setEnd, _ => by simp [fallbacks]
  | .and parts, h => by simpa [fallbacks] using h
  | .anchor anchor, h => by simpa [fallbacks] using h
  | .look expr kind limit, h => by simpa [fallbacks] using h
  | .backref index, h => by simpa [fallbacks] using h
  | .concat parts, h => allFallbacks_backrefFree parts h
  | .alt branches, h => allFallbacks_backrefFree branches h
  | .optionalSeq parts, h => allFallbacks_backrefFree parts h
  | .group _ expr, h => fallbacks_backrefFree expr h
  | .repeat expr min max greedy, h => by
    rw [fallbacks]
    split
    · simpa using h
    · exact fallbacks_backrefFree expr h

theorem allFallbacks_backrefFree : (exprs : List Expr) → anyBackref exprs = false →
    ∀ part ∈ allFallbacks exprs, hasBackref part = false
  | [], _ => by simp [allFallbacks]
  | expr :: exprs, h => by
    rw [anyBackref, Bool.or_eq_false_iff] at h
    rw [allFallbacks, List.forall_mem_append]
    exact ⟨fallbacks_backrefFree expr h.1, allFallbacks_backrefFree exprs h.2⟩

end

/-- The program has no references back. -/
def BackrefFree (code : List Inst) : Prop :=
  ∀ expr, Inst.fallback expr ∈ code → hasBackref expr = false

theorem program_backrefFree {expr : Expr} (h : hasBackref expr = false) :
    BackrefFree (program expr) := fun part hpart => fallbacks_backrefFree expr h part (fallback_mem hpart)

end Fallbacks

end Oxvim.Regex.Nfa
