import Oxvim.Regex.Backtrack
import Oxvim.Lib.Repetition

/-!
# What a pattern leads to

`results` tells all that a pattern leads to from a state, in order of priority, with no count of steps
and no limit. The backtracking engine gives just this whenever it stays within its limits
(`matchExpr_gives`).
-/

namespace Oxvim.Regex

open Lib Lib.Repetition

/-! ## The results of a pattern -/

section Results

variable (context : Context)

/-- Whether the pattern, read from some offset, ends at the position. -/
def found (body : State → List State) (pos : Nat) (offsets : List Nat) : Bool :=
  (offsets.takeWhile (· ≤ pos)).any fun candidate =>
    (body (State.new candidate context.prog.captureCount)).any (·.pos == pos)

def lookResults (body : State → List State) (kind : LookKind) (limit : Option Nat) (state : State) :
    List State :=
  match kind with
  | .ahead => (body state).map fun result => { result with pos := state.pos }
  | .notAhead => if (body state).isEmpty then [state] else []
  | .atomic => (body state).take 1
  | .behind | .notBehind =>
    let earliest := lookbehindEarliest context.text state.pos limit
    if found context body state.pos (candidateOffsets context.text.chars earliest) == (kind == .behind)
    then [state] else []

mutual

def results : (expr : Expr) → (state : State) → List State
  | .empty, state => [state]
  | .literal expected, state => Backtrack.matchChar context
      (charsEqual context.tables expected · context.prog.ignoreCase) state
  | .any newline, state =>
    Backtrack.matchChar context (fun actual => newline || actual != '\n') state
  | .class charClass, state => Backtrack.matchChar context
      (classMatches context.tables charClass · context.prog.ignoreCase) state
  | .concat parts, state => resultsSeq parts state
  | .alt branches, state => resultsAlt branches state
  | .and parts, state => resultsAnd parts state
  | .repeat expr min max greedy, state =>
    iterate (results expr) State.pos min max greedy (context.text.length + 1) state 0
  | .group index expr, state => (results expr state).map (Backtrack.setCapture index state.pos)
  | .optionalSeq parts, state => resultsOptional parts [state]
  | .anchor anchor, state =>
    if anchorMatches context.tables anchor state.pos context.text then [state] else []
  | .look expr kind limit, state => lookResults context (results expr) kind limit state
  | .backref index, state => Backtrack.matchBackref context index state
  | .setStart, state => [state.setMatchStart]
  | .setEnd, state => [state.setMatchEnd]

def resultsSeq : (parts : List Expr) → (state : State) → List State
  | [], state => [state]
  | part :: parts, state => (results part state).flatMap (resultsSeq parts)

def resultsAlt : (branches : List Expr) → (state : State) → List State
  | [], _ => []
  | branch :: branches, state => results branch state ++ resultsAlt branches state

def resultsAnd : (parts : List Expr) → (state : State) → List State
  | [], state => [state]
  | [last], state => results last state
  | requirement :: parts, state =>
    if (results requirement state).isEmpty then [] else resultsAnd parts state

/-- More parts come before fewer. -/
def resultsOptional : (parts : List Expr) → (states : List State) → List State
  | [], states => states
  | part :: parts, states => resultsOptional parts (states.flatMap (results part)) ++ states

end

theorem resultsAnd_cons_cons (requirement part : Expr) (parts : List Expr) (state : State) :
    resultsAnd context (requirement :: part :: parts) state
      = if (results context requirement state).isEmpty then []
        else resultsAnd context (part :: parts) state := by
  rw [resultsAnd]
  simp

end Results

/-! ## Positions -/

section Positions

theorem byteLength_cons (c : Char) (chars : List Char) :
    byteLength (c :: chars) = c.utf8Size + byteLength chars := rfl

theorem byteLength_append (chars chars' : List Char) :
    byteLength (chars ++ chars') = byteLength chars + byteLength chars' := by
  rw [byteLength, List.map_append, List.sum_append]
  rfl

theorem charsFrom_eq_some {chars rest : List Char} {offset : Nat}
    (h : charsFrom chars offset = some rest) :
    ∃ front, chars = front ++ rest ∧ byteLength front = offset := by
  fun_induction charsFrom chars offset with
  | case1 chars =>
    obtain rfl := Option.some.inj h
    exact ⟨[], rfl, rfl⟩
  | case2 => cases h
  | case3 c chars offset hle ih =>
    obtain ⟨front, rfl, hfront⟩ := ih h
    refine ⟨c :: front, rfl, ?_⟩
    rw [byteLength_cons, hfront]
    omega
  | case4 => cases h

theorem nextChar_bounds {text : List Char} {offset next : Nat} {c : Char}
    (h : nextChar text offset = some (c, next)) : offset < next ∧ next ≤ byteLength text := by
  rw [nextChar] at h
  split at h
  · next c' rest hrest =>
    obtain ⟨rfl, rfl⟩ := Prod.mk.inj (Option.some.inj h)
    obtain ⟨front, rfl, rfl⟩ := charsFrom_eq_some hrest
    have hpos := Char.utf8Size_pos c'
    rw [byteLength_append, byteLength_cons]
    omega
  · cases h

variable {context : Context} {state result : State}

theorem matchChar_bounds {accepts : Char → Bool}
    (h : result ∈ Backtrack.matchChar context accepts state) :
    state.pos < result.pos ∧ result.pos ≤ context.text.length := by
  rw [Backtrack.matchChar] at h
  split at h
  · next hnext =>
    split at h
    · rw [List.mem_singleton.mp h]
      exact nextChar_bounds hnext
    · cases h
  · cases h

theorem prefixCaseFolded_le {candidate captured : List Char} {stop length : Nat}
    (h : Backtrack.prefixCaseFolded context candidate captured stop = some length) :
    length ≤ stop + byteLength candidate := by
  fun_induction Backtrack.prefixCaseFolded context candidate captured stop with
  | case1 =>
    obtain rfl := Option.some.inj h
    omega
  | case2 => cases h
  | case3 actual candidate expected captured stop hequal ih =>
    have := ih h
    rw [byteLength_cons]
    omega
  | case4 => cases h

theorem matchBackref_bounds {index : Nat} (h : result ∈ Backtrack.matchBackref context index state) :
    state.pos ≤ result.pos ∧ result.pos ≤ context.text.length := by
  rw [Backtrack.matchBackref] at h
  split at h
  · split at h
    · next captured candidate hcaptured hcandidate =>
      obtain ⟨front, htext, hfront⟩ := charsFrom_eq_some hcandidate
      have hlength : context.text.length = state.pos + byteLength candidate := by
        rw [Text.length, htext, byteLength_append, hfront]
      dsimp only at h
      split at h
      · next length hconsumed =>
        rw [List.mem_singleton.mp h]
        refine ⟨Nat.le_add_right _ _, ?_⟩
        rw [hlength]
        refine Nat.add_le_add_left ?_ _
        split at hconsumed
        · have := prefixCaseFolded_le hconsumed
          omega
        · split at hconsumed
          · next hprefix =>
            obtain rfl := Option.some.inj hconsumed
            obtain ⟨rest, rfl⟩ := List.isPrefixOf_iff_prefix.mp hprefix
            rw [byteLength_append]
            omega
          · cases hconsumed
      · cases h
    · cases h
  · cases h

theorem lookResults_bounds {body : State → List State} {kind : LookKind} {limit : Option Nat}
    (hbody : Bounded body State.pos context.text.length) (hs : state.pos ≤ context.text.length)
    (h : result ∈ lookResults context body kind limit state) :
    state.pos ≤ result.pos ∧ result.pos ≤ context.text.length := by
  have hself : ∀ b : Bool, result ∈ (if b then [state] else []) →
      state.pos ≤ result.pos ∧ result.pos ≤ context.text.length := by
    intro b h
    split at h
    · rw [List.mem_singleton.mp h]
      exact ⟨le_rfl, hs⟩
    · cases h
  cases kind with
  | ahead =>
    obtain ⟨r, -, rfl⟩ := List.mem_map.mp h
    exact ⟨le_rfl, hs⟩
  | notAhead => exact hself _ h
  | atomic => exact hbody state hs result (List.mem_of_mem_take h)
  | behind => exact hself _ h
  | notBehind => exact hself _ h

theorem setCapture_pos (index : Option Nat) (start : Nat) (result : State) :
    (Backtrack.setCapture index start result).pos = result.pos := by
  cases index <;> rfl

mutual

/-- A pattern does not move back, nor beyond the end of the text. -/
theorem results_bounded (context : Context) : (expr : Expr) →
    Bounded (results context expr) State.pos context.text.length
  | .empty => by
    intro s hs t ht
    rw [results, List.mem_singleton] at ht
    rw [ht]
    exact ⟨le_rfl, hs⟩
  | .literal expected => by
    intro s hs t ht
    rw [results] at ht
    exact ⟨(matchChar_bounds ht).1.le, (matchChar_bounds ht).2⟩
  | .any newline => by
    intro s hs t ht
    rw [results] at ht
    exact ⟨(matchChar_bounds ht).1.le, (matchChar_bounds ht).2⟩
  | .class charClass => by
    intro s hs t ht
    rw [results] at ht
    exact ⟨(matchChar_bounds ht).1.le, (matchChar_bounds ht).2⟩
  | .concat parts => by
    intro s hs t ht
    rw [results] at ht
    exact resultsSeq_bounded context parts s hs t ht
  | .alt branches => by
    intro s hs t ht
    rw [results] at ht
    exact resultsAlt_bounded context branches s hs t ht
  | .and parts => by
    intro s hs t ht
    rw [results] at ht
    exact resultsAnd_bounded context parts s hs t ht
  | .repeat expr min max greedy => by
    intro s hs t ht
    rw [results] at ht
    exact iterate_bounded (results_bounded context expr) hs ht
  | .group index expr => by
    intro s hs t ht
    rw [results] at ht
    obtain ⟨r, hr, rfl⟩ := List.mem_map.mp ht
    rw [setCapture_pos]
    exact results_bounded context expr s hs r hr
  | .optionalSeq parts => by
    intro s hs t ht
    rw [results] at ht
    exact resultsOptional_bounded context parts hs (by simpa using hs) t ht
  | .anchor anchor => by
    intro s hs t ht
    rw [results] at ht
    split at ht
    · rw [List.mem_singleton.mp ht]
      exact ⟨le_rfl, hs⟩
    · cases ht
  | .look expr kind limit => by
    intro s hs t ht
    rw [results] at ht
    exact lookResults_bounds (results_bounded context expr) hs ht
  | .backref index => by
    intro s hs t ht
    rw [results] at ht
    exact matchBackref_bounds ht
  | .setStart => by
    intro s hs t ht
    rw [results, List.mem_singleton] at ht
    rw [ht]
    exact ⟨le_rfl, hs⟩
  | .setEnd => by
    intro s hs t ht
    rw [results, List.mem_singleton] at ht
    rw [ht]
    exact ⟨le_rfl, hs⟩

theorem resultsSeq_bounded (context : Context) : (parts : List Expr) →
    Bounded (resultsSeq context parts) State.pos context.text.length
  | [] => by
    intro s hs t ht
    rw [resultsSeq, List.mem_singleton] at ht
    rw [ht]
    exact ⟨le_rfl, hs⟩
  | part :: parts => by
    intro s hs t ht
    rw [resultsSeq] at ht
    obtain ⟨r, hr, ht⟩ := List.mem_flatMap.mp ht
    have hfirst := results_bounded context part s hs r hr
    have hrest := resultsSeq_bounded context parts r hfirst.2 t ht
    omega

theorem resultsAlt_bounded (context : Context) : (branches : List Expr) →
    Bounded (resultsAlt context branches) State.pos context.text.length
  | [] => by
    intro s hs t ht
    rw [resultsAlt] at ht
    cases ht
  | branch :: branches => by
    intro s hs t ht
    rw [resultsAlt] at ht
    rcases List.mem_append.mp ht with ht | ht
    · exact results_bounded context branch s hs t ht
    · exact resultsAlt_bounded context branches s hs t ht

theorem resultsAnd_bounded (context : Context) : (parts : List Expr) →
    Bounded (resultsAnd context parts) State.pos context.text.length
  | [] => by
    intro s hs t ht
    rw [resultsAnd, List.mem_singleton] at ht
    rw [ht]
    exact ⟨le_rfl, hs⟩
  | [last] => by
    intro s hs t ht
    rw [resultsAnd] at ht
    exact results_bounded context last s hs t ht
  | requirement :: part :: parts => by
    intro s hs t ht
    rw [resultsAnd_cons_cons] at ht
    split at ht
    · cases ht
    · exact resultsAnd_bounded context (part :: parts) s hs t ht

theorem resultsOptional_bounded (context : Context) : (parts : List Expr) →
    {states : List State} → {low : Nat} → low ≤ context.text.length →
    (∀ s ∈ states, low ≤ s.pos ∧ s.pos ≤ context.text.length) →
    ∀ t ∈ resultsOptional context parts states, low ≤ t.pos ∧ t.pos ≤ context.text.length
  | [], states, low, _, hstates => by
    intro t ht
    rw [resultsOptional] at ht
    exact hstates t ht
  | part :: parts, states, low, hlow, hstates => by
    intro t ht
    rw [resultsOptional] at ht
    rcases List.mem_append.mp ht with ht | ht
    · refine resultsOptional_bounded context parts hlow (fun r hr => ?_) t ht
      obtain ⟨s, hs, hr⟩ := List.mem_flatMap.mp hr
      have hfirst := hstates s hs
      have hpart := results_bounded context part s hfirst.2 r hr
      omega
    · exact hstates t ht

end

end Positions

/-! ## The backtracking engine gives the results -/

/-- Whenever the computation succeeds, this is its value. -/
def Gives {α : Type} (x : Exec α) (value : α) : Prop :=
  ∀ steps a steps', x steps = .ok (a, steps') → a = value

namespace Gives

variable {α β : Type} {x : Exec α} {a : α}

theorem pure (a : α) : Gives (Pure.pure a) a := by
  rintro steps b steps' h
  cases h
  rfl

theorem throw (e : ExecError) (a : α) : Gives (MonadExcept.throw e) a := by
  rintro steps b steps' h
  cases h

theorem bind {f : α → Exec β} {b : β} (hx : Gives x a) (hf : Gives (f a) b) :
    Gives (x >>= f) b := by
  intro steps c steps' h
  cases hrun : x steps with
  | error e =>
    have hbind : (x >>= f) steps = .error e := by
      show (x steps >>= fun p => f p.1 p.2) = _
      rw [hrun]
      rfl
    rw [hbind] at h
    cases h
  | ok p =>
    have hbind : (x >>= f) steps = f p.1 p.2 := by
      show (x steps >>= fun p => f p.1 p.2) = _
      rw [hrun]
      rfl
    rw [hbind, hx steps p.1 p.2 hrun] at h
    exact hf p.2 c steps' h

/-- A step whose value is not used. -/
theorem andThen {check : Exec Unit} (hx : Gives x a) : Gives (check >>= fun _ => x) a :=
  bind (a := ()) (fun _ _ _ _ => rfl) hx

end Gives

namespace Backtrack

variable {context : Context}

section Parts

variable {body : State → Exec (List State)} {f : State → List State}

theorem fromStates_gives {states : List State} (hbody : ∀ s ∈ states, Gives (body s) (f s)) :
    Gives (fromStates body states) (states.flatMap f) := by
  induction states with
  | nil => exact Gives.pure []
  | cons s states ih =>
    obtain ⟨hfirst, hothers⟩ := List.forall_mem_cons.mp hbody
    rw [fromStates, List.flatMap_cons]
    exact hfirst.bind ((ih hothers).bind (Gives.pure _))

theorem probe_gives {pos : Nat} {offsets : List Nat}
    (hbody : ∀ candidate ≤ pos, Gives (body (State.new candidate context.prog.captureCount))
      (f (State.new candidate context.prog.captureCount))) :
    Gives (probe context body pos offsets) (found context f pos offsets) := by
  induction offsets with
  | nil => exact Gives.pure false
  | cons candidate offsets ih =>
    rw [probe, found]
    split
    · next hlt =>
      rw [List.takeWhile_cons_of_neg (by simpa using hlt)]
      exact Gives.pure false
    · next hle =>
      rw [List.takeWhile_cons_of_pos (by simpa using hle), List.any_cons]
      apply (hbody candidate (Nat.le_of_not_lt hle)).bind
      split
      · next hany =>
        rw [hany]
        exact Gives.pure true
      · next hany =>
        rw [Bool.eq_false_iff.mpr hany, Bool.false_or]
        exact ih

theorem matchLook_gives {kind : LookKind} {limit : Option Nat} {state : State}
    (hpos : state.pos ≤ context.text.length)
    (hbody : ∀ s : State, s.pos ≤ context.text.length → Gives (body s) (f s)) :
    Gives (matchLook context body kind limit state) (lookResults context f kind limit state) := by
  have hprobe : Gives (probe context body state.pos
      (candidateOffsets context.text.chars (lookbehindEarliest context.text state.pos limit)))
      (found context f state.pos
        (candidateOffsets context.text.chars (lookbehindEarliest context.text state.pos limit))) :=
    probe_gives fun candidate hle => hbody _ (Nat.le_trans hle hpos)
  cases kind with
  | ahead => exact (hbody state hpos).bind (Gives.pure _)
  | notAhead => exact (hbody state hpos).bind (Gives.pure _)
  | atomic => exact (hbody state hpos).bind (Gives.pure _)
  | behind => exact hprobe.bind (Gives.pure _)
  | notBehind => exact hprobe.bind (Gives.pure _)

/-! ### Repetitions -/

section Repeat

variable {min : Nat} {max : Option Nat} {greedy : Bool} {N : Nat}

/-- What a frame adds to the results. -/
def frameResults (f : State → List State) (min : Nat) (max : Option Nat) (greedy : Bool) (N : Nat) :
    Frame → List State
  | .visit state count => iterate f State.pos min max greedy (N + 1) state count
  | .emit state count => if greedy && min ≤ count then [state] else []
  | .zero states => states

/-- A level waits within the text. -/
def FrameWithin (N : Nat) : Frame → Prop
  | .visit state _ => state.pos ≤ N
  | _ => True

theorem children_results {state : State} {count : Nat} (nexts : List State) :
    (nexts.filterMap (childFrame min state.pos count)).flatMap (frameResults f min max greedy N)
      = nexts.flatMap fun next =>
          if next.pos = state.pos then if min ≤ count + 1 then [next] else []
          else iterate f State.pos min max greedy (N + 1) next (count + 1) := by
  induction nexts with
  | nil => rfl
  | cons next nexts ih =>
    rw [List.flatMap_cons, ← ih, List.filterMap_cons, childFrame]
    split
    · next hstay =>
      split at hstay
      · next hsame =>
        split at hstay
        · cases hstay
        · next hlow => rw [if_pos hsame, if_neg hlow, List.nil_append]
      · cases hstay
    · next frame hframe =>
      rw [List.flatMap_cons]
      congr 1
      split at hframe
      · next hsame =>
        split at hframe
        · next hlow =>
          obtain rfl := Option.some.inj hframe
          rw [if_pos hsame, if_pos hlow, frameResults]
        · cases hframe
      · next hmoved =>
        obtain rfl := Option.some.inj hframe
        rw [if_neg hmoved, frameResults]

theorem children_within {state : State} {count : Nat} {nexts : List State}
    (h : ∀ next ∈ nexts, next.pos ≤ N) :
    ∀ frame ∈ nexts.filterMap (childFrame min state.pos count), FrameWithin N frame := by
  intro frame hframe
  obtain ⟨next, hnext, hchild⟩ := List.mem_filterMap.mp hframe
  rw [childFrame] at hchild
  split at hchild
  · split at hchild
    · cases hchild
      trivial
    · cases hchild
  · cases hchild
    exact h next hnext

/-- The loop adds what the frames on its stack stand for. -/
theorem repeatLoop_gives (hbody : ∀ s : State, s.pos ≤ N → Gives (body s) (f s))
    (hbounded : Bounded f State.pos N) {fuel : Nat} {stack : List Frame} {results : List State}
    (hstack : ∀ frame ∈ stack, FrameWithin N frame) :
    Gives (repeatLoop body min max greedy fuel stack results)
      (results ++ stack.flatMap (frameResults f min max greedy N)) := by
  induction fuel generalizing stack results with
  | zero =>
    cases stack with
    | nil =>
      rw [repeatLoop, List.flatMap_nil, List.append_nil]
      exact Gives.pure results
    | cons frame stack => exact Gives.throw _ _
  | succ fuel ih =>
    cases stack with
    | nil =>
      rw [repeatLoop, List.flatMap_nil, List.append_nil]
      exact Gives.pure results
    | cons frame stack =>
      obtain ⟨hframe, hrest⟩ := List.forall_mem_cons.mp hstack
      rw [List.flatMap_cons]
      cases frame with
      | zero states =>
        rw [repeatLoop, frameResults, ← List.append_assoc]
        exact ih hrest
      | emit state count =>
        rw [repeatLoop, frameResults, ← List.append_assoc]
        have := @ih stack (if greedy && min ≤ count then results ++ [state] else results) hrest
        split
        · next hemit => simpa [hemit] using this
        · next hemit => simpa [hemit] using this
      | visit state count =>
        have hpos : state.pos ≤ N := hframe
        rw [frameResults, iterate_eq hbounded hpos]
        -- The level itself is recorded before its children, or by the frame behind them.
        have hchildren : ∀ frame ∈ (f state).filterMap (childFrame min state.pos count),
            FrameWithin N frame :=
          children_within fun next hnext => (hbounded state hpos next hnext).2
        rw [repeatLoop]
        split
        · next hmax =>
          apply (hbody state hpos).bind
          cases greedy with
          | true =>
            have := @ih ((f state).filterMap (childFrame min state.pos count)
              ++ .emit state count :: stack) results
              (List.forall_mem_append.mpr ⟨hchildren, List.forall_mem_cons.mpr ⟨trivial, hrest⟩⟩)
            simpa [arrange, frameResults, children_results] using this
          | false =>
            have := @ih (.emit state count :: ((f state).filterMap
                (childFrame min state.pos count) ++ stack))
              (if min ≤ count then results ++ [state] else results)
              (List.forall_mem_cons.mpr ⟨trivial, List.forall_mem_append.mpr ⟨hchildren, hrest⟩⟩)
            by_cases hlow : min ≤ count
            · simpa [arrange, frameResults, children_results, hlow] using this
            · simpa [arrange, frameResults, children_results, hlow] using this
        · next hmax =>
          have := @ih stack (if min ≤ count then results ++ [state] else results) hrest
          cases greedy <;> by_cases hlow : min ≤ count <;> simpa [arrange, hlow] using this

theorem repeatFrom_gives (hbody : ∀ s : State, s.pos ≤ N → Gives (body s) (f s))
    (hbounded : Bounded f State.pos N) {state : State} (hpos : state.pos ≤ N) {depth : Nat} :
    Gives (repeatFrom context body min max greedy state depth)
      (iterate f State.pos min max greedy (N + 1) state 0) := by
  have hloop : Gives (repeatLoop body min max greedy (repeatFuel context) [.visit state 0] [])
      ([] ++ [Frame.visit state 0].flatMap (frameResults f min max greedy N)) :=
    repeatLoop_gives hbody hbounded (List.forall_mem_singleton.mpr hpos)
  rw [List.nil_append, List.flatMap_cons, List.flatMap_nil, List.append_nil, frameResults] at hloop
  rw [repeatFrom]
  split
  · exact (Gives.throw _ ()).bind hloop
  · exact hloop

end Repeat

end Parts

/-! ### Patterns -/

theorem flatMap_resultsSeq_cons (part : Expr) (parts : List Expr) (states : List State) :
    states.flatMap (resultsSeq context (part :: parts))
      = (states.flatMap (results context part)).flatMap (resultsSeq context parts) := by
  rw [List.flatMap_assoc]
  exact List.flatMap_congr fun s _ => by rw [resultsSeq]

theorem resultsOptional_nil (parts : List Expr) : resultsOptional context parts [] = [] := by
  induction parts with
  | nil => rw [resultsOptional]
  | cons part parts ih => rw [resultsOptional, List.flatMap_nil, ih, List.append_nil]

mutual

/-- What the engine gives for a pattern is what the pattern leads to, in the same order. -/
theorem matchExpr_gives (context : Context) : (expr : Expr) → (depth : Nat) → {state : State} →
    state.pos ≤ context.text.length →
    Gives (matchExpr context expr depth state) (results context expr state)
  | .empty, depth, state, _ => by
    rw [matchExpr, results]
    exact (Gives.pure _).andThen
  | .literal expected, depth, state, _ => by
    rw [matchExpr, results]
    exact (Gives.pure _).andThen
  | .any newline, depth, state, _ => by
    rw [matchExpr, results]
    exact (Gives.pure _).andThen
  | .class charClass, depth, state, _ => by
    rw [matchExpr, results]
    exact (Gives.pure _).andThen
  | .concat parts, depth, state, hpos => by
    rw [matchExpr, results]
    have hparts := matchConcat_gives context parts depth (List.forall_mem_singleton.mpr hpos)
    rw [List.flatMap_singleton] at hparts
    exact hparts.andThen
  | .alt branches, depth, state, hpos => by
    rw [matchExpr, results]
    exact (matchAlt_gives context branches depth hpos).andThen
  | .and parts, depth, state, hpos => by
    rw [matchExpr, results]
    exact (matchAnd_gives context parts depth hpos).andThen
  | .repeat expr min max greedy, depth, state, hpos => by
    rw [matchExpr, results]
    exact (repeatFrom_gives (fun s hs => matchExpr_gives context expr (depth + 2) hs)
      (results_bounded context expr) hpos).andThen
  | .group index expr, depth, state, hpos => by
    rw [matchExpr, results]
    apply Gives.andThen
    exact (matchExpr_gives context expr (depth + 1) hpos).bind (Gives.pure _)
  | .optionalSeq parts, depth, state, hpos => by
    rw [matchExpr, results]
    have hlevels := optionalLevels_gives context parts (depth + 1)
      (List.forall_mem_singleton.mpr hpos)
    exact hlevels.andThen
  | .anchor anchor, depth, state, _ => by
    rw [matchExpr, results]
    exact (Gives.pure _).andThen
  | .look expr kind limit, depth, state, hpos => by
    rw [matchExpr, results]
    exact (matchLook_gives hpos fun s hs => matchExpr_gives context expr (depth + 2) hs).andThen
  | .backref index, depth, state, _ => by
    rw [matchExpr, results]
    exact (Gives.pure _).andThen
  | .setStart, depth, state, _ => by
    rw [matchExpr, results]
    exact (Gives.pure _).andThen
  | .setEnd, depth, state, _ => by
    rw [matchExpr, results]
    exact (Gives.pure _).andThen

theorem matchConcat_gives (context : Context) : (parts : List Expr) → (depth : Nat) →
    {states : List State} → (∀ s ∈ states, s.pos ≤ context.text.length) →
    Gives (matchConcat context parts depth states) (states.flatMap (resultsSeq context parts))
  | [], depth, states, _ => by
    rw [matchConcat]
    have hall : states.flatMap (resultsSeq context []) = states := by simp [resultsSeq]
    rw [hall]
    exact Gives.pure states
  | part :: parts, depth, states, hstates => by
    rw [matchConcat, flatMap_resultsSeq_cons]
    have hnext := fromStates_gives fun s hs =>
      matchExpr_gives context part (depth + 1) (hstates s hs)
    apply hnext.bind
    split
    · next hempty =>
      rw [List.isEmpty_iff.mp hempty]
      exact Gives.pure []
    · apply matchConcat_gives context parts depth
      intro t ht
      obtain ⟨s, hs, ht⟩ := List.mem_flatMap.mp ht
      exact (results_bounded context part s (hstates s hs) t ht).2

theorem matchAlt_gives (context : Context) : (branches : List Expr) → (depth : Nat) →
    {state : State} → state.pos ≤ context.text.length →
    Gives (matchAlt context branches depth state) (resultsAlt context branches state)
  | [], depth, state, _ => by
    rw [matchAlt, resultsAlt]
    exact Gives.pure []
  | branch :: branches, depth, state, hpos => by
    rw [matchAlt, resultsAlt]
    exact (matchExpr_gives context branch (depth + 1) hpos).bind
      ((matchAlt_gives context branches depth hpos).bind (Gives.pure _))

theorem matchAnd_gives (context : Context) : (parts : List Expr) → (depth : Nat) →
    {state : State} → state.pos ≤ context.text.length →
    Gives (matchAnd context parts depth state) (resultsAnd context parts state)
  | [], depth, state, _ => by
    rw [matchAnd, resultsAnd]
    exact Gives.pure [state]
  | [last], depth, state, hpos => by
    rw [matchAnd, resultsAnd]
    exact matchExpr_gives context last (depth + 1) hpos
  | requirement :: part :: parts, depth, state, hpos => by
    rw [matchAnd, resultsAnd_cons_cons]
    · apply (matchExpr_gives context requirement (depth + 1) hpos).bind
      split
      · exact Gives.pure []
      · exact matchAnd_gives context (part :: parts) depth hpos
    · simp

/-- The levels, deepest first, and the states before them are what the optional parts lead to. -/
theorem optionalLevels_gives (context : Context) : (parts : List Expr) → (depth : Nat) →
    {previous : List State} → (∀ s ∈ previous, s.pos ≤ context.text.length) →
    Gives (do
      let levels ← optionalLevels context parts depth previous
      pure (levels.reverse.flatten ++ previous)) (resultsOptional context parts previous)
  | [], depth, previous, _ => by
    rw [optionalLevels, resultsOptional]
    exact Gives.pure previous
  | part :: parts, depth, previous, hprevious => by
    rw [optionalLevels, resultsOptional, bind_assoc]
    have hnext := fromStates_gives fun s hs =>
      matchExpr_gives context part (depth + 1) (hprevious s hs)
    apply hnext.bind
    split
    · next hempty =>
      rw [List.isEmpty_iff.mp hempty, resultsOptional_nil]
      exact Gives.pure previous
    · have hmore : ∀ t ∈ previous.flatMap (results context part), t.pos ≤ context.text.length := by
        intro t ht
        obtain ⟨s, hs, ht⟩ := List.mem_flatMap.mp ht
        exact (results_bounded context part s (hprevious s hs) t ht).2
      have hlevels := optionalLevels_gives context parts depth hmore
      have := hlevels.bind (f := fun all => pure (all ++ previous)) (Gives.pure _)
      simpa using this

end

end Backtrack

end Oxvim.Regex
