import Oxvim.Regex.MatchPositions
import Oxvim.Regex.NfaSteps

/-!
# The two engines

What searches find. The backtracking engine finds the leftmost match, and comes to an end where its
limits are large enough. The automaton finds the same match where no iteration reads nothing, and comes
to an end within a number of steps that is known beforehand where it leaves only anchors to the other
engine. The positions that either reports are positions in the text.
-/

namespace Oxvim.Regex

variable {context : Context} {start : Nat}

/-! ## The backtracking engine -/

/-- What is found is the leftmost match, and the first in priority there; nothing is found only where
there is no match; and large enough limits let every search come to an end. -/
theorem backtracking_leftmost (context : Context) (start : Nat) :
    (∀ state, Backtrack.search context start = .ok (some state) → IsFirstMatch context start state) ∧
      (Backtrack.search context start = .ok none → NoMatch context start) ∧
      ∃ cost, ∀ limit, cost ≤ limit →
        ∃ found, Backtrack.search (context.withLimits limit) start = .ok found := by
  refine ⟨fun state h => ?_, fun h => ?_, ?_⟩
  · exact firstMatch_eq_some (Backtrack.search_first h).symm
  · exact firstMatch_eq_none.mp (Backtrack.search_first h).symm
  · obtain ⟨cost, hcost⟩ := Backtrack.search_settles context start
    exact ⟨cost, fun limit hlimit => ⟨_, hcost limit hlimit⟩⟩

/-! ## The automaton -/

/-- A match does not tell which groups are open. -/
theorem intoMatch_clean (s : State) (text : Text) (captureCount : Nat) :
    (clean s).intoMatch text captureCount = s.intoMatch text captureCount := rfl

/-- Both engines report the same match. -/
theorem engines_agree (hregular : Nfa.regular context.prog.expr = true)
    (hexpr : hasBackref context.prog.expr = false) (htrace : context.prog.hasBackref = false)
    {found found' : Option State} (hnfa : Nfa.search context start = .ok found)
    (hbacktrack : Backtrack.search context start = .ok found') :
    found.map (·.intoMatch context.text context.prog.captureCount)
      = found'.map (·.intoMatch context.text context.prog.captureCount) := by
  have hclean : found.map clean = found'.map clean := by
    rw [Nfa.search_first hregular hexpr htrace hnfa, Backtrack.search_first hbacktrack]
  have hreport : ∀ o : Option State,
      (o.map clean).map (·.intoMatch context.text context.prog.captureCount)
        = o.map (·.intoMatch context.text context.prog.captureCount) := by
    intro o
    rw [Option.map_map]
    exact Option.map_congr fun s _ => intoMatch_clean s _ _
  rw [← hreport found, hclean, hreport found']

/-- A search of an ASCII text for `\(a\|ab\)*$`, with nothing marked. -/
def choices (chars : List Char) : Context where
  prog :=
    { expr := .concat [.repeat (.group (some 1)
        (.alt [.literal 'a', .concat [.literal 'a', .literal 'b']])) 0 none true, .anchor .lineEnd]
      captureCount := 1
      ignoreCase := false
      engine := .nfa
      hasBackref := false
      stepLimit := 1000
      depthLimit := 100 }
  text := { chars, cursor := none, visual := none, marks := fun _ => none }
  tables :=
    { toLowercase := fun c => [c.toLower]
      isAlphanumeric := Char.isAlphanum
      isAlphabetic := Char.isAlpha
      isControl := fun c => c.val < 32 || c.val == 127
      isWhitespace := Char.isWhitespace
      isLowercase := Char.isLower
      isUppercase := Char.isUpper
      isNumeric := Char.isDigit }

/-- The branch that was tried last reaches the end. -/
theorem engines_agree_choices :
    ∃ found found', Nfa.search (choices ['a', 'a', 'b']) 0 = .ok (some found) ∧
      Backtrack.search (choices ['a', 'a', 'b']) 0 = .ok (some found') ∧
      (some found).map (·.intoMatch (choices ['a', 'a', 'b']).text 1)
        = (some found').map (·.intoMatch (choices ['a', 'a', 'b']).text 1) := by
  have hnfa : Nfa.search (choices ['a', 'a', 'b']) 0
      = .ok (some ⟨3, [some (1, 3)], [some 1], some 0, none⟩) := by decide +kernel
  have hbacktrack : Backtrack.search (choices ['a', 'a', 'b']) 0
      = .ok (some ⟨3, [some (1, 3)], [none], some 0, none⟩) := by decide +kernel
  exact ⟨_, _, hnfa, hbacktrack, engines_agree rfl rfl rfl hnfa hbacktrack⟩

/-- The automaton comes to an end where each candidate has as many steps as there are instructions at
each offset. -/
theorem automaton_suffices (hanchors : Nfa.AnchorsOnly context.prog.expr)
    (htrace : context.prog.hasBackref = false)
    (hlimit : (candidateOffsets context.text.chars start).length
      * Nfa.candidateSteps context context.prog.expr ≤ context.prog.stepLimit) :
    ∃ found, Nfa.search context start = .ok found := by
  rw [Nfa.search]
  cases hcandidates : candidateOffsets context.text.chars start with
  | nil => exact ⟨none, rfl⟩
  | cons candidate candidates =>
    have hpos : 0 < context.prog.stepLimit := by
      rw [hcandidates, List.length_cons, Nat.succ_mul, Nfa.candidateSteps] at hlimit
      omega
    rw [← hcandidates]
    exact Nfa.searchFrom_ok hanchors hpos htrace (fun _ hc => mem_candidateOffsets_le hc) hlimit

theorem automaton_suffices_choices :
    ∃ found, Nfa.search (choices ['a', 'b', 'b']) 0 = .ok found :=
  automaton_suffices (by simp [Nfa.AnchorsOnly, choices, Nfa.fallbacks, Nfa.allFallbacks,
    Nfa.isLargeRepeat]) rfl
    (by decide +kernel)

/-! ## What is reported -/

/-- Every match that is reported is valid, and reports all groups of the pattern. -/
theorem reported_match_valid {position : Position} {m : Match}
    (h : tryExecAt context position = .ok (some m)) :
    m.Valid context.text ∧ m.captures.length = context.prog.captureCount := by
  have hfound : ∀ (raw : Except ExecError (Option State)),
      (∀ s, raw = .ok (some s) → FoundValid context s) →
      (raw.map fun found => found.map fun state =>
        state.intoMatch context.text context.prog.captureCount) = .ok (some m) →
      m.Valid context.text ∧ m.captures.length = context.prog.captureCount := by
    intro raw hraw h
    cases raw with
    | error e => cases h
    | ok found =>
      cases found with
      | none => cases h
      | some s =>
        cases h
        obtain ⟨hvalid, offset, hoffset⟩ := hraw s rfl
        exact hvalid.intoMatch hoffset
  rw [tryExecAt] at h
  split at h
  · cases h
  · refine hfound _ (fun s hs => ?_) h
    split at hs
    · exact Backtrack.search_valid hs
    · exact Nfa.search_valid hs

theorem reported_match_valid_choices :
    Match.Valid (choices ['a', 'a', 'b']).text
      ⟨⟨1, 0, 0⟩, ⟨1, 3, 3⟩, [some ⟨⟨1, 1, 1⟩, ⟨1, 3, 3⟩⟩]⟩ ∧
      [some (⟨⟨1, 1, 1⟩, ⟨1, 3, 3⟩⟩ : Capture)].length = (choices ['a', 'a', 'b']).prog.captureCount := by
  have h : tryExecAt (choices ['a', 'a', 'b']) ⟨1, 0, 0⟩
      = .ok (some ⟨⟨1, 0, 0⟩, ⟨1, 3, 3⟩, [some ⟨⟨1, 1, 1⟩, ⟨1, 3, 3⟩⟩]⟩) := by decide +kernel
  exact reported_match_valid h

end Oxvim.Regex
