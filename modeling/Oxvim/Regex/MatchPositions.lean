import Oxvim.Regex.NfaSearch

/-!
# Positions of matches

Whatever the pattern and the engine, all that a match reports are positions of characters in the text: no
offset is within a character or beyond the end, and captures do not end before they start.
-/

namespace Oxvim.Regex

open Lib

variable {context : Context} {text : Text}

/-! ## Boundaries -/

theorem charsTo_eq_some {chars front : List Char} {offset : Nat} (h : charsTo chars offset = some front) :
    ∃ rest, chars = front ++ rest ∧ byteLength front = offset := by
  fun_induction charsTo chars offset generalizing front with
  | case1 chars =>
    obtain rfl := Option.some.inj h
    exact ⟨chars, rfl, rfl⟩
  | case2 => cases h
  | case3 c chars offset hle ih =>
    obtain ⟨front', hfront', rfl⟩ := Option.map_eq_some_iff.mp h
    obtain ⟨rest, rfl, hlength⟩ := ih hfront'
    refine ⟨rest, rfl, ?_⟩
    rw [byteLength_cons, hlength]
    omega
  | case4 => cases h

theorem charsTo_append (front rest : List Char) :
    charsTo (front ++ rest) (byteLength front) = some front := by
  induction front with
  | nil => cases rest <;> rfl
  | cons c front ih =>
    have hpos := c.utf8Size_pos
    obtain ⟨offset, hoffset⟩ : ∃ offset, byteLength (c :: front) = offset + 1 :=
      ⟨byteLength (c :: front) - 1, by rw [byteLength_cons]; omega⟩
    have hle : c.utf8Size ≤ offset + 1 := by
      rw [← hoffset, byteLength_cons]
      omega
    have hsub : offset + 1 - c.utf8Size = byteLength front := by
      rw [← hoffset, byteLength_cons]
      omega
    rw [hoffset, List.cons_append, charsTo, if_pos hle, hsub, ih]
    rfl

/-- Offsets between characters are those of the lengths of initial parts. -/
theorem validBoundary_iff {byte : Nat} :
    text.validBoundary byte = true ↔ ∃ front rest, text.chars = front ++ rest ∧ byteLength front = byte := by
  rw [Text.validBoundary, Option.isSome_iff_exists]
  constructor
  · rintro ⟨front, hfront⟩
    obtain ⟨rest, hchars, hlength⟩ := charsTo_eq_some hfront
    exact ⟨front, rest, hchars, hlength⟩
  · rintro ⟨front, rest, hchars, rfl⟩
    exact ⟨front, by rw [hchars, charsTo_append]⟩

theorem validBoundary_le {byte : Nat} (h : text.validBoundary byte = true) : byte ≤ text.length := by
  obtain ⟨front, rest, hchars, rfl⟩ := validBoundary_iff.mp h
  rw [Text.length, hchars, byteLength_append]
  exact Nat.le_add_right _ _

theorem nextChar_boundary {offset next : Nat} {c : Char}
    (h : nextChar text.chars offset = some (c, next)) : text.validBoundary next = true := by
  rw [nextChar] at h
  split at h
  · next c' rest hrest =>
    obtain ⟨rfl, rfl⟩ := Prod.mk.inj (Option.some.inj h)
    obtain ⟨front, hchars, rfl⟩ := charsFrom_eq_some hrest
    refine validBoundary_iff.mpr ⟨front ++ [c'], rest, by simp [hchars], ?_⟩
    rw [byteLength_append]
    rfl
  · cases h

theorem candidate_boundary {start candidate : Nat} (h : candidate ∈ candidateOffsets text.chars start) :
    text.validBoundary candidate = true := by
  have hall : ∀ (front rest : List Char), ∀ offset ∈ charOffsets rest (byteLength front),
      ∃ front' rest', front ++ rest = front' ++ rest' ∧ byteLength front' = offset := by
    intro front rest
    induction rest generalizing front with
    | nil =>
      intro offset hmem
      exact ⟨front, [], rfl, (List.mem_singleton.mp hmem).symm⟩
    | cons c rest ih =>
      intro offset hmem
      rcases List.mem_cons.mp hmem with rfl | hmem
      · exact ⟨front, c :: rest, rfl, rfl⟩
      · have hlength : byteLength (front ++ [c]) = byteLength front + c.utf8Size := by
          rw [byteLength_append]
          rfl
        rw [← hlength] at hmem
        obtain ⟨front', rest', heq, hoffset⟩ := ih (front ++ [c]) offset hmem
        exact ⟨front', rest', by simpa using heq, hoffset⟩
  exact validBoundary_iff.mpr (hall [] text.chars candidate (List.mem_filter.mp h).1)

theorem prefixCaseFolded_eq {candidate captured : List Char} {stop length : Nat}
    (h : Backtrack.prefixCaseFolded context candidate captured stop = some length) :
    ∃ front rest, candidate = front ++ rest ∧ length = stop + byteLength front := by
  fun_induction Backtrack.prefixCaseFolded context candidate captured stop with
  | case1 candidate stop =>
    obtain rfl := Option.some.inj h
    exact ⟨[], candidate, rfl, rfl⟩
  | case2 => cases h
  | case3 actual candidate expected captured stop hequal ih =>
    obtain ⟨front, rest, rfl, rfl⟩ := ih h
    exact ⟨actual :: front, rest, rfl, by rw [byteLength_cons, Nat.add_assoc]⟩
  | case4 => cases h

theorem matchBackref_eq {index : Nat} {s t : State} (h : t ∈ Backtrack.matchBackref context index s) :
    t = { s with pos := t.pos } ∧ context.text.validBoundary t.pos = true := by
  rw [Backtrack.matchBackref] at h
  split at h
  · split at h
    · next captured candidate hcaptured hcandidate =>
      obtain ⟨front, hchars, hfront⟩ := charsFrom_eq_some hcandidate
      dsimp only at h
      split at h
      · next length hconsumed =>
        obtain rfl := List.mem_singleton.mp h
        refine ⟨rfl, ?_⟩
        obtain ⟨read, rest, hread, hlength⟩ : ∃ read rest, candidate = read ++ rest ∧
            length = byteLength read := by
          split at hconsumed
          · obtain ⟨read, rest, hread, hlength⟩ := prefixCaseFolded_eq hconsumed
            exact ⟨read, rest, hread, by simpa using hlength⟩
          · split at hconsumed
            · next hprefix =>
              obtain ⟨rest, hrest⟩ := List.isPrefixOf_iff_prefix.mp hprefix
              exact ⟨captured, rest, hrest.symm, (Option.some.inj hconsumed).symm⟩
            · cases hconsumed
        refine validBoundary_iff.mpr ⟨front ++ read, rest, by simp [hchars, hread], ?_⟩
        rw [byteLength_append, hfront, hlength]
      · cases h
    · cases h
  · cases h

/-! ## States -/

/-- All offsets of a state are between characters of the text. -/
structure State.Valid (text : Text) (captureCount : Nat) (s : State) : Prop where
  pos : text.validBoundary s.pos = true
  captures : ∀ first last, some (first, last) ∈ s.captures →
    text.validBoundary first = true ∧ text.validBoundary last = true ∧ first ≤ last
  count : s.captures.length = captureCount
  start : ∀ offset, s.startOverride = some offset → text.validBoundary offset = true
  stop : ∀ offset, s.endOverride = some offset → text.validBoundary offset = true

namespace State.Valid

variable {captureCount : Nat} {s t : State}

theorem new {candidate : Nat} (h : text.validBoundary candidate = true) :
    (State.new candidate captureCount).Valid text captureCount where
  pos := h
  captures first last hmem := by
    have := List.eq_of_mem_replicate hmem
    cases this
  count := List.length_replicate ..
  start _ h := by cases h
  stop _ h := by cases h

theorem move (h : s.Valid text captureCount) {offset : Nat} (hoffset : text.validBoundary offset = true) :
    State.Valid text captureCount { s with pos := offset } :=
  ⟨hoffset, h.captures, h.count, h.start, h.stop⟩

/-- A capture can be set to a part of the text. -/
theorem setSlot (h : s.Valid text captureCount) {slot first : Nat}
    (hfirst : text.validBoundary first = true) (hle : first ≤ s.pos) :
    State.Valid text captureCount
      { s with captures := s.captures.set slot (some (first, s.pos)) } := by
  refine ⟨h.pos, fun first' last hmem => ?_, (List.length_set ..).trans h.count, h.start, h.stop⟩
  rcases List.mem_or_eq_of_mem_set hmem with hmem | heq
  · exact h.captures first' last hmem
  · obtain ⟨rfl, rfl⟩ := Prod.mk.inj (Option.some.inj heq)
    exact ⟨hfirst, h.pos, hle⟩

theorem setMatchStart (h : s.Valid text captureCount) : s.setMatchStart.Valid text captureCount :=
  ⟨h.pos, h.captures, h.count, fun _ ho => Option.some.inj ho ▸ h.pos, h.stop⟩

theorem setMatchEnd (h : s.Valid text captureCount) : s.setMatchEnd.Valid text captureCount :=
  ⟨h.pos, h.captures, h.count, h.start, fun _ ho => Option.some.inj ho ▸ h.pos⟩

theorem setSearchStart (h : s.Valid text captureCount) {candidate : Nat}
    (hcandidate : text.validBoundary candidate = true) :
    (s.setSearchStart candidate).Valid text captureCount := by
  rw [State.setSearchStart]
  split
  · exact ⟨h.pos, h.captures, h.count, fun _ ho => Option.some.inj ho ▸ hcandidate, h.stop⟩
  · exact h

end State.Valid

theorem matchChar_eq {accepts : Char → Bool} {s t : State}
    (h : t ∈ Backtrack.matchChar context accepts s) :
    t = { s with pos := t.pos } ∧ context.text.validBoundary t.pos = true := by
  rw [Backtrack.matchChar] at h
  split at h
  · next hnext =>
    split at h
    · obtain rfl := List.mem_singleton.mp h
      exact ⟨rfl, nextChar_boundary hnext⟩
    · cases h
  · cases h

/-- A pattern leads to valid states from valid ones. -/
theorem results_valid {expr : Expr} {captureCount : Nat} {s t : State}
    (hs : s.Valid context.text captureCount) (ht : t ∈ results context expr s) :
    t.Valid context.text captureCount := by
  refine results_keep (P := State.Valid context.text captureCount)
    ⟨?_, ?_, ?_, ?_, fun _ hs => hs.setMatchStart, fun _ hs => hs.setMatchEnd⟩ expr s hs t ht
  · intro accepts a ha b hb
    obtain ⟨heq, hboundary⟩ := matchChar_eq hb
    rw [heq]
    exact ha.move hboundary
  · intro index a ha b hb
    obtain ⟨heq, hboundary⟩ := matchBackref_eq hb
    rw [heq]
    exact ha.move hboundary
  · intro index a b ha hb hle
    cases index with
    | none => exact hb
    | some index => exact hb.setSlot ha.pos (hle (validBoundary_le ha.pos))
  · intro a b ha hb
    exact hb.move ha.pos

/-! ## Matches -/

/-- All positions of a match are positions in the text. -/
structure Match.Valid (text : Text) (m : Match) : Prop where
  start : text.position m.start.byte = some m.start
  stop : text.position m.stop.byte = some m.stop
  captures : ∀ c, some c ∈ m.captures → text.position c.start.byte = some c.start ∧
    text.position c.stop.byte = some c.stop ∧ c.start.byte ≤ c.stop.byte

theorem position_of_boundary {byte : Nat} (h : text.validBoundary byte = true) :
    ∃ position, text.position byte = some position ∧ position.byte = byte := by
  rw [Text.position, if_pos h]
  exact ⟨_, rfl, rfl⟩

theorem State.Valid.intoMatch {captureCount : Nat} {s : State} {offset : Nat}
    (h : s.Valid text captureCount) (hoffset : s.startOverride = some offset) :
    (s.intoMatch text captureCount).Valid text ∧
      (s.intoMatch text captureCount).captures.length = captureCount := by
  obtain ⟨start, hstart, hstartByte⟩ := position_of_boundary (h.start offset hoffset)
  have hend : text.validBoundary (s.endOverride.getD s.pos) = true := by
    cases hoverride : s.endOverride with
    | none => exact h.pos
    | some offset => exact h.stop offset hoverride
  obtain ⟨stop, hstop, hstopByte⟩ := position_of_boundary hend
  have hmatchStart : (s.intoMatch text captureCount).start = start := by
    simp only [State.intoMatch, hoffset, Option.getD_some, hstart]
  have hmatchStop : (s.intoMatch text captureCount).stop = stop := by
    simp only [State.intoMatch, hstop, Option.getD_some]
  refine ⟨⟨?_, ?_, fun c hc => ?_⟩, ?_⟩
  · rw [hmatchStart, hstartByte, hstart]
  · rw [hmatchStop, hstopByte, hstop]
  · obtain ⟨span, hspan, hc⟩ := List.mem_map.mp hc
    cases span with
    | none => cases hc
    | some span =>
      obtain ⟨hfirst, hlast, hle⟩ := h.captures span.1 span.2 (List.mem_of_mem_take hspan)
      obtain ⟨first, hfirst, hfirstByte⟩ := position_of_boundary hfirst
      obtain ⟨last, hlast, hlastByte⟩ := position_of_boundary hlast
      have hcapture : c = ⟨first, last⟩ := by simpa [hfirst, hlast, eq_comm] using hc
      rw [hcapture]
      refine ⟨by rw [hfirstByte, hfirst], by rw [hlastByte, hlast], ?_⟩
      show first.byte ≤ last.byte
      rw [hfirstByte, hlastByte]
      exact hle
  · refine (List.length_map _).trans ?_
    rw [List.length_take, h.count, Nat.min_self]

theorem setSearchStart_start (s : State) (candidate : Nat) :
    ∃ offset, (s.setSearchStart candidate).startOverride = some offset := by
  rw [State.setSearchStart]
  split
  · exact ⟨candidate, rfl⟩
  · next h => exact Option.ne_none_iff_exists'.mp (by simpa using h)

/-! ## The engines -/

/-- What a search finds, with the start that is reported. -/
def FoundValid (context : Context) (s : State) : Prop :=
  s.Valid context.text context.prog.captureCount ∧ ∃ offset, s.startOverride = some offset

theorem Backtrack.search_valid {start : Nat} {s : State} (h : search context start = .ok (some s)) :
    FoundValid context s := by
  obtain ⟨candidate, hcandidate, first, others, hresults, rfl, -⟩ :=
    firstMatch_eq_some (search_first h).symm
  have hboundary := candidate_boundary hcandidate
  have hfirst : first ∈ resultsAt context candidate := by simp [hresults]
  exact ⟨(results_valid (.new hboundary) hfirst).setSearchStart hboundary,
    setSearchStart_start first candidate⟩

namespace Nfa

/-- The groups that a valid state has open began before it. -/
structure ThreadValid (context : Context) (thread : Thread) : Prop where
  state : thread.state.Valid context.text context.prog.captureCount
  opens : ∀ offset, some offset ∈ thread.state.opens →
    context.text.validBoundary offset = true ∧ offset ≤ thread.state.pos

theorem ThreadValid.within {thread : Thread} (h : ThreadValid context thread) : Within context thread :=
  validBoundary_le h.state.pos

theorem ThreadValid.openCapture {s : Thread} (h : ThreadValid context s) (index pc : Nat)
    (trace : Trace) : ThreadValid context ⟨pc, s.state.openCapture index, trace⟩ := by
  refine ⟨⟨h.state.pos, h.state.captures, h.state.count, h.state.start, h.state.stop⟩, ?_⟩
  intro offset hmem
  rcases List.mem_or_eq_of_mem_set hmem with hmem | heq
  · exact h.opens offset hmem
  · obtain rfl := Option.some.inj heq
    exact ⟨h.state.pos, le_rfl⟩

theorem ThreadValid.closeCapture {s : Thread} (h : ThreadValid context s) (index pc : Nat)
    (trace : Trace) : ThreadValid context ⟨pc, s.state.closeCapture index, trace⟩ := by
  rw [State.closeCapture]
  split
  · next start hopen =>
    obtain ⟨hstart, hle⟩ := h.opens start (List.mem_of_getElem? hopen)
    exact ⟨h.state.setSlot hstart hle, h.opens⟩
  · exact ⟨h.state, h.opens⟩

/-- A test moves a thread forward and leaves the open groups. -/
theorem ThreadValid.move {s : Thread} (h : ThreadValid context s) {t : State}
    (ht : t.Valid context.text context.prog.captureCount) (hopens : t.opens = s.state.opens)
    (hpos : s.state.pos ≤ t.pos) (pc : Nat) (trace : Trace) : ThreadValid context ⟨pc, t, trace⟩ := by
  refine ⟨ht, fun offset hmem => ?_⟩
  have hmem : some offset ∈ t.opens := hmem
  rw [hopens] at hmem
  exact ⟨(h.opens offset hmem).1, (h.opens offset hmem).2.trans hpos⟩

theorem ThreadValid.matchChar {s : Thread} (h : ThreadValid context s) {accepts : Char → Bool}
    {t : State} (ht : t ∈ Backtrack.matchChar context accepts s.state) (pc : Nat) (trace : Trace) :
    ThreadValid context ⟨pc, t, trace⟩ := by
  obtain ⟨heq, hboundary⟩ := matchChar_eq ht
  refine h.move ?_ (by rw [heq]) (matchChar_bounds ht).1.le pc trace
  rw [heq]
  exact h.state.move hboundary

theorem ThreadValid.effect {inst : Inst} {body : State → List State} {s : Thread}
    (h : ThreadValid context s) (heffect : effect context inst = some body) {t : State}
    (ht : t ∈ body s.state) (pc : Nat) (trace : Trace) : ThreadValid context ⟨pc, t, trace⟩ := by
  cases inst with
  | char =>
    cases heffect
    exact h.matchChar ht pc trace
  | any =>
    cases heffect
    exact h.matchChar ht pc trace
  | «class» =>
    cases heffect
    exact h.matchChar ht pc trace
  | saveStart index =>
    cases heffect
    rw [List.mem_singleton.mp ht]
    exact h.openCapture index pc trace
  | saveEnd index =>
    cases heffect
    rw [List.mem_singleton.mp ht]
    exact h.closeCapture index pc trace
  | setStart =>
    cases heffect
    rw [List.mem_singleton.mp ht]
    exact ⟨h.state.setMatchStart, h.opens⟩
  | setEnd =>
    cases heffect
    rw [List.mem_singleton.mp ht]
    exact ⟨h.state.setMatchEnd, h.opens⟩
  | fallback expr =>
    cases heffect
    exact h.move (results_valid h.state ht) (results_opens ht).1
      (results_bounded context expr s.state h.within t ht).1 pc trace
  | split => cases heffect
  | jump => cases heffect
  | «match» => cases heffect

/-- Threads that go on stay valid. -/
theorem next_valid {code : List Inst} {s : Thread} {ss : List Thread} (h : ThreadValid context s)
    (hnext : (threads context code).next s = .ok ss) : ∀ t ∈ ss, ThreadValid context t := by
  have hnext := (next_unlimited h.within hnext).1
  have hplain : ∀ pc, ThreadValid context ⟨pc, s.state, s.trace⟩ := fun pc => ⟨h.state, h.opens⟩
  cases hinst : code[s.pc]? with
  | none =>
    simp only [unlimited, nextThreads, hinst] at hnext
    cases hnext
    simp
  | some inst =>
    cases heffect : effect context inst with
    | some body =>
      obtain ⟨trace', -, heq⟩ := next_of_effect s.state hinst heffect s.trace
      obtain rfl := Except.ok.inj (hnext.symm.trans heq)
      intro t ht
      obtain ⟨state, hstate, rfl⟩ := List.mem_map.mp ht
      exact h.effect heffect hstate _ _
    | none =>
      simp only [unlimited, nextThreads, hinst] at hnext
      cases inst with
      | split first second =>
        cases hnext
        exact List.forall_mem_cons.mpr ⟨hplain first, List.forall_mem_singleton.mpr (hplain second)⟩
      | jump target =>
        cases hnext
        exact List.forall_mem_singleton.mpr (hplain target)
      | «match» =>
        cases hnext
        simp
      | _ => cases heffect

theorem runCandidate_valid {code : List Inst} {candidate left left' : Nat} {s : State}
    (hcandidate : context.text.validBoundary candidate = true)
    (h : runCandidate context code candidate left = .ok (some s, left')) :
    s.Valid context.text context.prog.captureCount := by
  have hinitial : ∀ trace, ThreadValid context
      ⟨0, State.new candidate context.prog.captureCount, trace⟩ := by
    intro trace
    refine ⟨.new hcandidate, fun offset hmem => ?_⟩
    have := List.eq_of_mem_replicate hmem
    cases this
  rw [runCandidate] at h
  cases hsearch : (threads context code).search ExecError.stepLimit left ∅
      [⟨0, State.new candidate context.prog.captureCount,
        if context.prog.hasBackref then .captures (.new context.prog.captureCount) else .plain⟩] with
  | error e =>
    simp only [hsearch] at h
    cases h
  | ok p =>
    obtain ⟨found, left''⟩ := p
    simp only [hsearch] at h
    cases found with
    | none => cases h
    | some thread =>
      cases h
      obtain ⟨-, initial, hmem, hreach⟩ := OrderedSearch.Graph.search_sound hsearch
      rw [List.mem_singleton.mp hmem] at hreach
      have hvalid : ThreadValid context thread := by
        clear hsearch
        induction hreach with
        | refl => exact hinitial _
        | tail _ hstep ih =>
          obtain ⟨ss, hss, ht⟩ := hstep
          exact next_valid ih hss _ ht
      exact hvalid.state

theorem search_valid {start : Nat} {s : State} (h : search context start = .ok (some s)) :
    FoundValid context s := by
  have hall : ∀ {code : List Inst} {anchored : Option Anchor} {candidates : List Nat} {left : Nat},
      (∀ c ∈ candidates, context.text.validBoundary c = true) →
      searchFrom context code anchored candidates left = .ok (some s) → FoundValid context s := by
    intro code anchored candidates
    induction candidates with
    | nil =>
      intro left _ h
      cases h
    | cons candidate candidates ih =>
      intro left hcandidates h
      obtain ⟨hcandidate, hrest⟩ := List.forall_mem_cons.mp hcandidates
      rw [searchFrom] at h
      split at h
      · exact ih hrest h
      · split at h
        · cases h
        · next state left' hrun =>
          cases h
          exact ⟨(runCandidate_valid hcandidate hrun).setSearchStart hcandidate,
            setSearchStart_start state candidate⟩
        · exact ih hrest h
  exact hall (fun _ hc => candidate_boundary hc) h

end Nfa

end Oxvim.Regex
