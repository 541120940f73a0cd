import Oxvim.Regex.Priority

/-!
# The leftmost match

A search takes the candidates from left to right, and of the first that leads anywhere what comes first.
Skipping the candidates which the leading anchor rules out changes nothing.
-/

namespace Oxvim.Regex

variable {context : Context}

/-! ## Candidates -/

theorem charOffsets_sorted (text : List Char) (offset : Nat) :
    (charOffsets text offset).Pairwise (· < ·) ∧
      ∀ candidate ∈ charOffsets text offset,
        offset ≤ candidate ∧ candidate ≤ offset + byteLength text := by
  induction text generalizing offset with
  | nil => simp [charOffsets, byteLength]
  | cons c text ih =>
    obtain ⟨hsorted, hbounds⟩ := ih (offset + c.utf8Size)
    have hsize := c.utf8Size_pos
    rw [charOffsets, List.pairwise_cons, List.forall_mem_cons, byteLength_cons]
    refine ⟨⟨fun candidate hmem => ?_, hsorted⟩, by omega, fun candidate hmem => ?_⟩
    · have := hbounds candidate hmem
      omega
    · have := hbounds candidate hmem
      omega

theorem candidateOffsets_sorted (text : List Char) (start : Nat) :
    (candidateOffsets text start).Pairwise (· < ·) :=
  (charOffsets_sorted text 0).1.filter _

theorem mem_candidateOffsets_le {text : List Char} {start candidate : Nat}
    (h : candidate ∈ candidateOffsets text start) : candidate ≤ byteLength text := by
  have := (charOffsets_sorted text 0).2 candidate (List.mem_filter.mp h).1
  omega

/-! ## The leading anchor -/

/-- A pattern leads nowhere from an offset that its leading anchor rules out. -/
theorem results_of_not_allowed {expr : Expr} {state : State}
    (h : anchorAllows (leadingAnchor expr) context.text state.pos = false) :
    results context expr state = [] := by
  fun_induction leadingAnchor expr with
  | case1 =>
    rw [results, if_neg]
    exact Bool.eq_false_iff.mp h
  | case2 =>
    rw [results, if_neg]
    exact Bool.eq_false_iff.mp h
  | case3 part parts ih => rw [results, resultsSeq, ih h, List.flatMap_nil]
  | case4 index expr ih => rw [results, ih h, List.map_nil]
  | case5 => cases h

/-! ## The first match -/

section First

variable (context)

/-- All that the pattern leads to from a candidate. -/
def resultsAt (candidate : Nat) : List State :=
  results context context.prog.expr (State.new candidate context.prog.captureCount)

/-- The candidate is the leftmost that leads anywhere, and the state is the first that it leads to. -/
def IsFirstMatch (start : Nat) (state : State) : Prop :=
  ∃ candidate ∈ candidateOffsets context.text.chars start, ∃ first others,
    resultsAt context candidate = first :: others ∧ state = first.setSearchStart candidate ∧
    ∀ other ∈ candidateOffsets context.text.chars start, other < candidate →
      resultsAt context other = []

/-- No candidate leads anywhere. -/
def NoMatch (start : Nat) : Prop :=
  ∀ candidate ∈ candidateOffsets context.text.chars start, resultsAt context candidate = []

/-- What a search finds. -/
def firstFrom : (candidates : List Nat) → Option State
  | [] => none
  | candidate :: candidates =>
    match resultsAt context candidate with
    | state :: _ => some (state.setSearchStart candidate)
    | [] => firstFrom candidates

def firstMatch (start : Nat) : Option State :=
  firstFrom context (candidateOffsets context.text.chars start)

end First

theorem firstFrom_eq_some {candidates : List Nat} {state : State}
    (hsorted : candidates.Pairwise (· < ·)) (h : firstFrom context candidates = some state) :
    ∃ candidate ∈ candidates, ∃ first others,
      resultsAt context candidate = first :: others ∧ state = first.setSearchStart candidate ∧
      ∀ other ∈ candidates, other < candidate → resultsAt context other = [] := by
  induction candidates with
  | nil => cases h
  | cons candidate candidates ih =>
    obtain ⟨hlt, hsorted⟩ := List.pairwise_cons.mp hsorted
    rw [firstFrom] at h
    split at h
    · next first others hresults =>
      refine ⟨candidate, List.mem_cons_self, first, others, hresults, (Option.some.inj h).symm, ?_⟩
      intro other hmem hother
      rcases List.mem_cons.mp hmem with rfl | hmem
      · omega
      · have := hlt other hmem
        omega
    · next hnone =>
      obtain ⟨found, hfound, first, others, hresults, hstate, hleast⟩ := ih hsorted h
      refine ⟨found, List.mem_cons_of_mem _ hfound, first, others, hresults, hstate, ?_⟩
      intro other hmem hother
      rcases List.mem_cons.mp hmem with rfl | hmem
      · exact hnone
      · exact hleast other hmem hother

theorem firstFrom_eq_none {candidates : List Nat} :
    firstFrom context candidates = none ↔ ∀ c ∈ candidates, resultsAt context c = [] := by
  induction candidates with
  | nil => simp [firstFrom]
  | cons candidate candidates ih =>
    rw [firstFrom, List.forall_mem_cons, ← ih]
    split
    · next hresults => simp [hresults]
    · next hresults => simp [hresults]

theorem firstMatch_eq_some {start : Nat} {state : State}
    (h : firstMatch context start = some state) : IsFirstMatch context start state :=
  firstFrom_eq_some (candidateOffsets_sorted _ _) h

theorem firstMatch_eq_none {start : Nat} : firstMatch context start = none ↔ NoMatch context start :=
  firstFrom_eq_none

/-! ## The backtracking engine -/

namespace Backtrack

theorem searchFrom_gives {candidates : List Nat}
    (hcandidates : ∀ c ∈ candidates, c ≤ context.text.length) :
    Gives (searchFrom context (leadingAnchor context.prog.expr) candidates)
      (firstFrom context candidates) := by
  induction candidates with
  | nil => exact Gives.pure none
  | cons candidate candidates ih =>
    obtain ⟨hcandidate, hrest⟩ := List.forall_mem_cons.mp hcandidates
    rw [searchFrom, firstFrom]
    split
    · next hruled =>
      have hnone : resultsAt context candidate = [] :=
        results_of_not_allowed (by simpa [State.new] using hruled)
      rw [hnone]
      exact ih hrest
    · apply (matchExpr_gives context context.prog.expr 0 hcandidate).bind
      rw [resultsAt]
      cases results context context.prog.expr (State.new candidate context.prog.captureCount) with
      | nil => exact ih hrest
      | cons state others => exact Gives.pure _

/-- Within its limits the engine finds the leftmost match, and no match only where there is none. -/
theorem search_first {start : Nat} {found : Option State} (h : search context start = .ok found) :
    found = firstMatch context start := by
  rw [search] at h
  cases hrun : (searchFrom context (leadingAnchor context.prog.expr)
      (candidateOffsets context.text.chars start)).run 0 with
  | error e =>
    rw [hrun] at h
    cases h
  | ok p =>
    rw [hrun] at h
    cases h
    exact searchFrom_gives (fun c hc => mem_candidateOffsets_le hc) 0 p.1 p.2 hrun

end Backtrack

end Oxvim.Regex
