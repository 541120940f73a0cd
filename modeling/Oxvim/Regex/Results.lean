import Oxvim.Regex.Leftmost

/-!
# What results keep and depend on

What every step of a pattern preserves, all its results have. And related states lead to related
results, where the steps of a pattern respect the relation: so positions depend on the position alone,
unless there are references back, and no result depends on the opened groups.
-/

namespace Oxvim.Regex

open Lib Lib.Repetition Backtrack

variable {context : Context}

/-! ## Invariants -/

/-- Each step of a pattern keeps this. -/
structure Invariant (context : Context) (P : State → Prop) : Prop where
  matchChar : ∀ accepts s, P s → ∀ t ∈ matchChar context accepts s, P t
  matchBackref : ∀ index s, P s → ∀ t ∈ matchBackref context index s, P t
  setCapture : ∀ index s t, P s → P t → (s.pos ≤ context.text.length → s.pos ≤ t.pos) →
    P (setCapture index s.pos t)
  reset : ∀ s t : State, P s → P t → P { t with pos := s.pos }
  setMatchStart : ∀ s : State, P s → P s.setMatchStart
  setMatchEnd : ∀ s : State, P s → P s.setMatchEnd

section Invariant

variable {P : State → Prop}

theorem lookResults_keep (h : Invariant context P) {body : State → List State}
    (hbody : ∀ s, P s → ∀ t ∈ body s, P t) {kind : LookKind} {limit : Option Nat} {s t : State}
    (hs : P s) (ht : t ∈ lookResults context body kind limit s) : P t := by
  have hself : ∀ b : Bool, t ∈ (if b then [s] else []) → P t := by
    intro b ht
    split at ht
    · rw [List.mem_singleton.mp ht]
      exact hs
    · cases ht
  cases kind with
  | ahead =>
    obtain ⟨r, hr, rfl⟩ := List.mem_map.mp ht
    exact h.reset s r hs (hbody s hs r hr)
  | notAhead => exact hself _ ht
  | atomic => exact hbody s hs t (List.mem_of_mem_take ht)
  | behind => exact hself _ ht
  | notBehind => exact hself _ ht

mutual

/-- What each step keeps, all results of a pattern have. -/
theorem results_keep (h : Invariant context P) : (expr : Expr) → (s : State) → P s →
    ∀ t ∈ results context expr s, P t
  | .empty, s, hs => by
    intro t ht
    rw [results, List.mem_singleton] at ht
    rw [ht]
    exact hs
  | .literal expected, s, hs => by
    intro t ht
    rw [results] at ht
    exact h.matchChar _ s hs t ht
  | .any newline, s, hs => by
    intro t ht
    rw [results] at ht
    exact h.matchChar _ s hs t ht
  | .class charClass, s, hs => by
    intro t ht
    rw [results] at ht
    exact h.matchChar _ s hs t ht
  | .concat parts, s, hs => by
    intro t ht
    rw [results] at ht
    exact resultsSeq_keep h parts s hs t ht
  | .alt branches, s, hs => by
    intro t ht
    rw [results] at ht
    exact resultsAlt_keep h branches s hs t ht
  | .and parts, s, hs => by
    intro t ht
    rw [results] at ht
    exact resultsAnd_keep h parts s hs t ht
  | .repeat expr min max greedy, s, hs => by
    intro t ht
    rw [results] at ht
    exact iterate_preserves (results_keep h expr) hs ht
  | .group index expr, s, hs => by
    intro t ht
    rw [results] at ht
    obtain ⟨r, hr, rfl⟩ := List.mem_map.mp ht
    exact h.setCapture index s r hs (results_keep h expr s hs r hr)
      fun hpos => (results_bounded context expr s hpos r hr).1
  | .optionalSeq parts, s, hs => by
    intro t ht
    rw [results] at ht
    exact resultsOptional_keep h parts (by simpa using hs) t ht
  | .anchor anchor, s, hs => by
    intro t ht
    rw [results] at ht
    split at ht
    · rw [List.mem_singleton.mp ht]
      exact hs
    · cases ht
  | .look expr kind limit, s, hs => by
    intro t ht
    rw [results] at ht
    exact lookResults_keep h (results_keep h expr) hs ht
  | .backref index, s, hs => by
    intro t ht
    rw [results] at ht
    exact h.matchBackref index s hs t ht
  | .setStart, s, hs => by
    intro t ht
    rw [results, List.mem_singleton] at ht
    rw [ht]
    exact h.setMatchStart s hs
  | .setEnd, s, hs => by
    intro t ht
    rw [results, List.mem_singleton] at ht
    rw [ht]
    exact h.setMatchEnd s hs

theorem resultsSeq_keep (h : Invariant context P) : (parts : List Expr) → (s : State) → P s →
    ∀ t ∈ resultsSeq context parts s, P t
  | [], s, hs => by
    intro t ht
    rw [resultsSeq, List.mem_singleton] at ht
    rw [ht]
    exact hs
  | part :: parts, s, hs => by
    intro t ht
    rw [resultsSeq] at ht
    obtain ⟨r, hr, ht⟩ := List.mem_flatMap.mp ht
    exact resultsSeq_keep h parts r (results_keep h part s hs r hr) t ht

theorem resultsAlt_keep (h : Invariant context P) : (branches : List Expr) → (s : State) → P s →
    ∀ t ∈ resultsAlt context branches s, P t
  | [], s, hs => by
    intro t ht
    rw [resultsAlt] at ht
    cases ht
  | branch :: branches, s, hs => by
    intro t ht
    rw [resultsAlt] at ht
    rcases List.mem_append.mp ht with ht | ht
    · exact results_keep h branch s hs t ht
    · exact resultsAlt_keep h branches s hs t ht

theorem resultsAnd_keep (h : Invariant context P) : (parts : List Expr) → (s : State) → P s →
    ∀ t ∈ resultsAnd context parts s, P t
  | [], s, hs => by
    intro t ht
    rw [resultsAnd, List.mem_singleton] at ht
    rw [ht]
    exact hs
  | [last], s, hs => by
    intro t ht
    rw [resultsAnd] at ht
    exact results_keep h last s hs t ht
  | requirement :: part :: parts, s, hs => by
    intro t ht
    rw [resultsAnd_cons_cons] at ht
    split at ht
    · cases ht
    · exact resultsAnd_keep h (part :: parts) s hs t ht

theorem resultsOptional_keep (h : Invariant context P) : (parts : List Expr) →
    {states : List State} → (∀ s ∈ states, P s) → ∀ t ∈ resultsOptional context parts states, P t
  | [], states, hstates => by
    intro t ht
    rw [resultsOptional] at ht
    exact hstates t ht
  | part :: parts, states, hstates => by
    intro t ht
    rw [resultsOptional] at ht
    rcases List.mem_append.mp ht with ht | ht
    · refine resultsOptional_keep h parts (fun r hr => ?_) t ht
      obtain ⟨s, hs, hr⟩ := List.mem_flatMap.mp hr
      exact results_keep h part s (hstates s hs) r hr
    · exact hstates t ht

end

end Invariant

/-! ## Relations -/

mutual

/-- Whether a pattern refers back to a group. -/
def hasBackref : Expr → Bool
  | .backref _ => true
  | .concat parts | .alt parts | .and parts | .optionalSeq parts => anyBackref parts
  | .repeat expr _ _ _ | .group _ expr | .look expr _ _ => hasBackref expr
  | _ => false

def anyBackref : List Expr → Bool
  | [] => false
  | part :: parts => hasBackref part || anyBackref parts

end

/-- Each step of a pattern respects the relation, but for references back. -/
structure Respected (R : State → State → Prop) : Prop where
  pos : ∀ s t, R s t → s.pos = t.pos
  move : ∀ s t pos, R s t → R { s with pos := pos } { t with pos := pos }
  setCapture : ∀ index start s t, R s t → R (setCapture index start s) (setCapture index start t)
  setMatchStart : ∀ s t, R s t → R s.setMatchStart t.setMatchStart
  setMatchEnd : ∀ s t, R s t → R s.setMatchEnd t.setMatchEnd

/-- References back respect the relation too. -/
def RespectsBackref (context : Context) (R : State → State → Prop) : Prop :=
  ∀ index s t, R s t → List.Forall₂ R (matchBackref context index s) (matchBackref context index t)

section Related

variable {R : State → State → Prop}

theorem matchChar_related (h : Respected R) {accepts : Char → Bool} {s t : State} (hst : R s t) :
    List.Forall₂ R (matchChar context accepts s) (matchChar context accepts t) := by
  rw [matchChar, matchChar, h.pos s t hst]
  split
  · split
    · exact .cons (h.move s t _ hst) .nil
    · exact .nil
  · exact .nil

theorem self_related {s t : State} (hst : R s t) (b : Bool) :
    List.Forall₂ R (if b then [s] else []) (if b then [t] else []) := by
  cases b with
  | true => exact .cons hst .nil
  | false => exact .nil

theorem isEmpty_eq_of_forall₂ {as bs : List State} (h : List.Forall₂ R as bs) :
    as.isEmpty = bs.isEmpty := by
  cases h <;> rfl

theorem lookResults_related (h : Respected R) {body : State → List State}
    (hbody : ∀ s t, R s t → List.Forall₂ R (body s) (body t)) {kind : LookKind} {limit : Option Nat}
    {s t : State} (hst : R s t) :
    List.Forall₂ R (lookResults context body kind limit s) (lookResults context body kind limit t) := by
  have hsame := h.pos s t hst
  cases kind with
  | ahead =>
    rw [lookResults, lookResults, hsame]
    exact List.rel_map (fun a b hab => h.move a b t.pos hab) (hbody s t hst)
  | notAhead =>
    rw [lookResults, lookResults, isEmpty_eq_of_forall₂ (hbody s t hst)]
    exact self_related hst _
  | atomic =>
    rw [lookResults, lookResults]
    exact List.forall₂_take 1 (hbody s t hst)
  | behind =>
    rw [lookResults, lookResults, hsame]
    exact self_related hst _
  | notBehind =>
    rw [lookResults, lookResults, hsame]
    exact self_related hst _

theorem backref_cons {part : Expr} {parts : List Expr} {p : Prop}
    (h : anyBackref (part :: parts) = true → p) :
    (hasBackref part = true → p) ∧ (anyBackref parts = true → p) := by
  rw [anyBackref, Bool.or_eq_true] at h
  exact ⟨fun hpart => h (.inl hpart), fun hparts => h (.inr hparts)⟩

mutual

/-- Related states lead to related results. -/
theorem results_related (h : Respected R) : (expr : Expr) →
    (hasBackref expr = true → RespectsBackref context R) → (s t : State) → R s t →
    List.Forall₂ R (results context expr s) (results context expr t)
  | .empty, _, s, t, hst => by
    rw [results, results]
    exact .cons hst .nil
  | .literal expected, _, s, t, hst => by
    rw [results, results]
    exact matchChar_related h hst
  | .any newline, _, s, t, hst => by
    rw [results, results]
    exact matchChar_related h hst
  | .class charClass, _, s, t, hst => by
    rw [results, results]
    exact matchChar_related h hst
  | .concat parts, hback, s, t, hst => by
    rw [results, results]
    exact resultsSeq_related h parts hback s t hst
  | .alt branches, hback, s, t, hst => by
    rw [results, results]
    exact resultsAlt_related h branches hback s t hst
  | .and parts, hback, s, t, hst => by
    rw [results, results]
    exact resultsAnd_related h parts hback s t hst
  | .repeat expr min max greedy, hback, s, t, hst => by
    rw [results, results]
    exact iterate_related h.pos (results_related h expr hback) hst
  | .group index expr, hback, s, t, hst => by
    rw [results, results, h.pos s t hst]
    exact List.rel_map (fun a b hab => h.setCapture index t.pos a b hab)
      (results_related h expr hback s t hst)
  | .optionalSeq parts, hback, s, t, hst => by
    rw [results, results]
    exact resultsOptional_related h parts hback (.cons hst .nil)
  | .anchor anchor, _, s, t, hst => by
    rw [results, results, h.pos s t hst]
    exact self_related hst _
  | .look expr kind limit, hback, s, t, hst => by
    rw [results, results]
    exact lookResults_related h (results_related h expr hback) hst
  | .backref index, hback, s, t, hst => by
    rw [results, results]
    exact hback rfl index s t hst
  | .setStart, _, s, t, hst => by
    rw [results, results]
    exact .cons (h.setMatchStart s t hst) .nil
  | .setEnd, _, s, t, hst => by
    rw [results, results]
    exact .cons (h.setMatchEnd s t hst) .nil

theorem resultsSeq_related (h : Respected R) : (parts : List Expr) →
    (anyBackref parts = true → RespectsBackref context R) → (s t : State) → R s t →
    List.Forall₂ R (resultsSeq context parts s) (resultsSeq context parts t)
  | [], _, s, t, hst => by
    rw [resultsSeq, resultsSeq]
    exact .cons hst .nil
  | part :: parts, hback, s, t, hst => by
    rw [resultsSeq, resultsSeq]
    obtain ⟨hpart, hparts⟩ := backref_cons hback
    exact List.rel_flatMap (results_related h part hpart s t hst)
      fun a b hab => resultsSeq_related h parts hparts a b hab

theorem resultsAlt_related (h : Respected R) : (branches : List Expr) →
    (anyBackref branches = true → RespectsBackref context R) → (s t : State) → R s t →
    List.Forall₂ R (resultsAlt context branches s) (resultsAlt context branches t)
  | [], _, s, t, _ => by
    rw [resultsAlt, resultsAlt]
    exact .nil
  | branch :: branches, hback, s, t, hst => by
    rw [resultsAlt, resultsAlt]
    obtain ⟨hbranch, hbranches⟩ := backref_cons hback
    exact List.rel_append (results_related h branch hbranch s t hst)
      (resultsAlt_related h branches hbranches s t hst)

theorem resultsAnd_related (h : Respected R) : (parts : List Expr) →
    (anyBackref parts = true → RespectsBackref context R) → (s t : State) → R s t →
    List.Forall₂ R (resultsAnd context parts s) (resultsAnd context parts t)
  | [], _, s, t, hst => by
    rw [resultsAnd, resultsAnd]
    exact .cons hst .nil
  | [last], hback, s, t, hst => by
    rw [resultsAnd, resultsAnd]
    exact results_related h last (backref_cons hback).1 s t hst
  | requirement :: part :: parts, hback, s, t, hst => by
    obtain ⟨hrequirement, hparts⟩ := backref_cons hback
    rw [resultsAnd_cons_cons, resultsAnd_cons_cons,
      isEmpty_eq_of_forall₂ (results_related h requirement hrequirement s t hst)]
    split
    · exact .nil
    · exact resultsAnd_related h (part :: parts) hparts s t hst

theorem resultsOptional_related (h : Respected R) : (parts : List Expr) →
    (anyBackref parts = true → RespectsBackref context R) → {as bs : List State} →
    List.Forall₂ R as bs →
    List.Forall₂ R (resultsOptional context parts as) (resultsOptional context parts bs)
  | [], _, as, bs, has => by
    rw [resultsOptional, resultsOptional]
    exact has
  | part :: parts, hback, as, bs, has => by
    rw [resultsOptional, resultsOptional]
    obtain ⟨hpart, hparts⟩ := backref_cons hback
    have hnext := List.rel_flatMap has fun a b hab => results_related h part hpart a b hab
    exact List.rel_append (resultsOptional_related h parts hparts hnext) has

end

end Related

/-! ### Positions -/

theorem pos_respected : Respected fun s t => s.pos = t.pos where
  pos _ _ h := h
  move _ _ _ _ := rfl
  setCapture index start s t h := by rw [setCapture_pos, setCapture_pos, h]
  setMatchStart _ _ h := h
  setMatchEnd _ _ h := h

/-- Without references back, where a pattern leads depends on the position alone. -/
theorem results_samePos {expr : Expr} (hback : hasBackref expr = false) {s t : State}
    (hst : s.pos = t.pos) :
    List.Forall₂ (fun a b : State => a.pos = b.pos) (results context expr s)
      (results context expr t) :=
  results_related pos_respected expr (by simp [hback]) s t hst

/-! ### Opened groups -/

/-- A state without the groups that are open. -/
def clean (s : State) : State := { s with opens := [] }

theorem clean_clean (s : State) : clean (clean s) = clean s := rfl

theorem clean_eq_iff {s t : State} :
    clean s = clean t ↔ s.pos = t.pos ∧ s.captures = t.captures ∧
      s.startOverride = t.startOverride ∧ s.endOverride = t.endOverride := by
  cases s
  cases t
  simp [clean]

theorem clean_respected : Respected fun s t => clean s = clean t where
  pos s t h := (clean_eq_iff.mp h).1
  move s t pos h := by
    have h := clean_eq_iff.mp h
    exact clean_eq_iff.mpr ⟨rfl, h.2⟩
  setCapture index start s t h := by
    obtain ⟨hpos, hcaptures, hoverride⟩ := clean_eq_iff.mp h
    cases index with
    | none => exact h
    | some index =>
      exact clean_eq_iff.mpr ⟨hpos, by simp only [setCapture, hpos, hcaptures], hoverride⟩
  setMatchStart s t h := by
    obtain ⟨hpos, hcaptures, hstart, hend⟩ := clean_eq_iff.mp h
    exact clean_eq_iff.mpr ⟨hpos, hcaptures, congrArg some hpos, hend⟩
  setMatchEnd s t h := by
    obtain ⟨hpos, hcaptures, hstart, hend⟩ := clean_eq_iff.mp h
    exact clean_eq_iff.mpr ⟨hpos, hcaptures, hstart, congrArg some hpos⟩

theorem clean_respectsBackref : RespectsBackref context fun s t => clean s = clean t := by
  intro index s t hst
  obtain ⟨hpos, hcaptures, hoverride⟩ := clean_eq_iff.mp hst
  rw [matchBackref, matchBackref, hpos, hcaptures]
  split
  · split
    · dsimp only
      split
      · exact .cons (clean_eq_iff.mpr ⟨rfl, rfl, hoverride⟩) .nil
      · exact .nil
    · exact .nil
  · exact .nil

/-- A pattern opens no groups, and changes no captures but by setting them. -/
theorem results_opens {expr : Expr} {s t : State} (ht : t ∈ results context expr s) :
    t.opens = s.opens ∧ t.captures.length = s.captures.length := by
  refine results_keep (P := fun t => t.opens = s.opens ∧ t.captures.length = s.captures.length)
    ⟨?_, ?_, ?_, fun _ _ _ ht => ht, fun _ hs => hs, fun _ hs => hs⟩ expr s ⟨rfl, rfl⟩ t ht
  · intro accepts a ha b hb
    rw [matchChar] at hb
    split at hb
    · split at hb
      · rw [List.mem_singleton.mp hb]
        exact ha
      · cases hb
    · cases hb
  · intro index a ha b hb
    rw [matchBackref] at hb
    split at hb
    · split at hb
      · dsimp only at hb
        split at hb
        · rw [List.mem_singleton.mp hb]
          exact ha
        · cases hb
      · cases hb
    · cases hb
  · intro index a b _ hb _
    cases index with
    | none => exact hb
    | some index => exact ⟨hb.1, (List.length_set ..).trans hb.2⟩

end Oxvim.Regex
