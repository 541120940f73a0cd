import Oxvim.Regex.Leftmost

/-!
# Limits that are large enough

For every pattern, text and state there are limits from which on the engine stays within them, and gives
what the pattern leads to. So every search comes to its end with limits that are large enough.
-/

namespace Oxvim.Regex

open Lib Lib.Repetition

/-- The program run with another limit, for steps and depth alike. -/
def Context.withLimits (context : Context) (limit : Nat) : Context :=
  { context with prog := { context.prog with stepLimit := limit, depthLimit := limit } }

@[simp] theorem Context.withLimits_text (context : Context) (limit : Nat) :
    (context.withLimits limit).text = context.text := rfl

@[simp] theorem Context.withLimits_tables (context : Context) (limit : Nat) :
    (context.withLimits limit).tables = context.tables := rfl

theorem run_bind {α β : Type} {x : Exec α} {f : α → Exec β} {a : α} {steps steps' : Nat}
    (h : x steps = .ok (a, steps')) : (x >>= f) steps = f a steps' := by
  show (x steps >>= fun p => f p.1 p.2) = _
  rw [h]
  rfl

/-- With limits a fixed number beyond the steps so far, the computation succeeds with the value, within
this number of steps. -/
def Settles {α : Type} (x : Nat → Exec α) (value : α) : Prop :=
  ∃ cost, ∀ limit steps, steps + cost ≤ limit →
    ∃ steps' ≤ steps + cost, x limit steps = .ok (value, steps')

namespace Settles

variable {α β : Type} {x : Nat → Exec α} {a : α}

theorem pure (a : α) : Settles (fun _ => Pure.pure a) a := ⟨0, fun _ steps _ => ⟨steps, le_rfl, rfl⟩⟩

/-- A value that the limits do not change. -/
theorem pureOf {v : Nat → α} (h : ∀ limit, v limit = a) : Settles (fun limit => Pure.pure (v limit)) a :=
  ⟨0, fun limit steps _ => ⟨steps, le_rfl, by rw [← h limit]; rfl⟩⟩

theorem bind {f : Nat → α → Exec β} {b : β} (hx : Settles x a) (hf : Settles (f · a) b) :
    Settles (fun limit => x limit >>= f limit) b := by
  obtain ⟨cost, hx⟩ := hx
  obtain ⟨cost', hf⟩ := hf
  refine ⟨cost + cost', fun limit steps hlimit => ?_⟩
  obtain ⟨middle, hmiddle, hrun⟩ := hx limit steps (by omega)
  obtain ⟨steps', hsteps', hrun'⟩ := hf limit middle (by omega)
  exact ⟨steps', by omega, (run_bind hrun).trans hrun'⟩

end Settles

namespace Backtrack

variable {context : Context}

theorem enter_run (context : Context) (depth steps : Nat) :
    enter context depth steps =
      if context.prog.stepLimit < steps + 1 then .error .stepLimit
      else if context.prog.depthLimit < depth then .error .recursionLimit
      else .ok ((), steps + 1) := by
  have hget : enter context depth steps
      = (if context.prog.stepLimit < steps + 1 then throw .stepLimit
         else if context.prog.depthLimit < depth then throw .recursionLimit
         else pure () : Exec Unit) (steps + 1) := rfl
  rw [hget]
  split_ifs <;> rfl

theorem enter_settles (depth : Nat) :
    Settles (fun limit => enter (context.withLimits limit) depth) () := by
  refine ⟨depth + 1, fun limit steps hlimit => ⟨steps + 1, by omega, ?_⟩⟩
  have hsteps : ¬ limit < steps + 1 := by omega
  have hdepth : ¬ limit < depth := by omega
  simp only [enter_run, Context.withLimits, if_neg hsteps, if_neg hdepth]

section Parts

variable {body : Nat → State → Exec (List State)} {f : State → List State}

theorem fromStates_settles {states : List State} (hbody : ∀ s ∈ states, Settles (body · s) (f s)) :
    Settles (fun limit => fromStates (body limit) states) (states.flatMap f) := by
  induction states with
  | nil => exact Settles.pure []
  | cons s states ih =>
    obtain ⟨hfirst, hothers⟩ := List.forall_mem_cons.mp hbody
    simp only [fromStates, List.flatMap_cons]
    exact hfirst.bind ((ih hothers).bind (Settles.pure _))

theorem probe_settles {pos : Nat} {offsets : List Nat}
    (hbody : ∀ candidate ≤ pos, Settles (body · (State.new candidate context.prog.captureCount))
      (f (State.new candidate context.prog.captureCount))) :
    Settles (fun limit => probe (context.withLimits limit) (body limit) pos offsets)
      (found context f pos offsets) := by
  induction offsets with
  | nil => exact Settles.pure false
  | cons candidate offsets ih =>
    simp only [probe, found]
    split
    · next hlt =>
      rw [List.takeWhile_cons_of_neg (by simpa using hlt)]
      exact Settles.pure false
    · next hle =>
      rw [List.takeWhile_cons_of_pos (by simpa using hle), List.any_cons]
      apply (hbody candidate (Nat.le_of_not_lt hle)).bind
      split
      · next hany =>
        rw [hany]
        exact Settles.pure true
      · next hany =>
        rw [Bool.eq_false_iff.mpr hany, Bool.false_or]
        exact ih

theorem matchLook_settles {kind : LookKind} {limit : Option Nat} {state : State}
    (hpos : state.pos ≤ context.text.length)
    (hbody : ∀ s : State, s.pos ≤ context.text.length → Settles (body · s) (f s)) :
    Settles (fun n => matchLook (context.withLimits n) (body n) kind limit state)
      (lookResults context f kind limit state) := by
  have hprobe : Settles (fun n => probe (context.withLimits n) (body n) state.pos
      (candidateOffsets context.text.chars (lookbehindEarliest context.text state.pos limit)))
      (found context f state.pos
        (candidateOffsets context.text.chars (lookbehindEarliest context.text state.pos limit))) :=
    probe_settles fun candidate hle => hbody _ (Nat.le_trans hle hpos)
  cases kind with
  | ahead => exact (hbody state hpos).bind (Settles.pure _)
  | notAhead => exact (hbody state hpos).bind (Settles.pure _)
  | atomic => exact (hbody state hpos).bind (Settles.pure _)
  | behind => exact hprobe.bind (Settles.pure _)
  | notBehind => exact hprobe.bind (Settles.pure _)

/-! ### Repetitions -/

section Repeat

variable {min : Nat} {max : Option Nat} {greedy : Bool} {N : Nat}

/-- The loop takes the frames off its stack in so many rounds, and adds what they stand for. -/
def FramesSettle (body : Nat → State → Exec (List State)) (f : State → List State) (min : Nat)
    (max : Option Nat) (greedy : Bool) (N : Nat) (frames : List Frame) : Prop :=
  ∃ cost rounds, ∀ limit steps fuel stack found, steps + cost ≤ limit →
    ∃ steps' ≤ steps + cost,
      repeatLoop (body limit) min max greedy (fuel + rounds) (frames ++ stack) found steps
        = repeatLoop (body limit) min max greedy fuel stack
            (found ++ frames.flatMap (frameResults f min max greedy N)) steps'

theorem FramesSettle.nil : FramesSettle body f min max greedy N [] :=
  ⟨0, 0, fun limit steps fuel stack found _ => ⟨steps, le_rfl, by simp⟩⟩

theorem FramesSettle.append {frames frames' : List Frame}
    (h : FramesSettle body f min max greedy N frames)
    (h' : FramesSettle body f min max greedy N frames') :
    FramesSettle body f min max greedy N (frames ++ frames') := by
  obtain ⟨cost, rounds, h⟩ := h
  obtain ⟨cost', rounds', h'⟩ := h'
  refine ⟨cost + cost', rounds + rounds', fun limit steps fuel stack found hlimit => ?_⟩
  obtain ⟨middle, hmiddle, hrun⟩ := h limit steps (fuel + rounds') (frames' ++ stack) found (by omega)
  obtain ⟨steps', hsteps', hrun'⟩ := h' limit middle fuel stack
    (found ++ frames.flatMap (frameResults f min max greedy N)) (by omega)
  refine ⟨steps', by omega, ?_⟩
  rw [Nat.add_comm rounds rounds', ← Nat.add_assoc, List.append_assoc, hrun, hrun',
    List.flatMap_append, List.append_assoc]

theorem FramesSettle.of_forall {frames : List Frame}
    (h : ∀ frame ∈ frames, FramesSettle body f min max greedy N [frame]) :
    FramesSettle body f min max greedy N frames := by
  induction frames with
  | nil => exact .nil
  | cons frame frames ih =>
    obtain ⟨hframe, hframes⟩ := List.forall_mem_cons.mp h
    exact hframe.append (ih hframes)

theorem emit_settles (state : State) (count : Nat) :
    FramesSettle body f min max greedy N [.emit state count] := by
  refine ⟨0, 1, fun limit steps fuel stack found _ => ⟨steps, le_rfl, ?_⟩⟩
  rw [List.singleton_append, repeatLoop, List.flatMap_singleton, frameResults]
  split <;> simp

theorem zero_settles (states : List State) :
    FramesSettle body f min max greedy N [.zero states] := by
  refine ⟨0, 1, fun limit steps fuel stack found _ => ⟨steps, le_rfl, ?_⟩⟩
  rw [List.singleton_append, repeatLoop, List.flatMap_singleton, frameResults]

/-- The levels behind one that moves have less text before them. -/
theorem visit_settles (hbody : ∀ s : State, s.pos ≤ N → Settles (body · s) (f s))
    (hbounded : Bounded f State.pos N) {state : State} (hpos : state.pos ≤ N) (count : Nat) :
    FramesSettle body f min max greedy N [.visit state count] := by
  induction hleft : N - state.pos using Nat.strongRecOn generalizing state count with
  | ind left ih =>
    have hchildren : ∀ frame ∈ (f state).filterMap (childFrame min state.pos count),
        FramesSettle body f min max greedy N [frame] := by
      intro frame hframe
      obtain ⟨next, hnext, hchild⟩ := List.mem_filterMap.mp hframe
      have hbound := hbounded state hpos next hnext
      rw [childFrame] at hchild
      split at hchild
      · split at hchild
        · cases hchild
          exact zero_settles [next]
        · cases hchild
      · cases hchild
        exact ih (N - next.pos) (by omega) hbound.2 (count + 1) rfl
    have hchildren := FramesSettle.of_forall hchildren
    have hvalue := @iterate_eq _ f State.pos min max greedy N count state hbounded hpos
    by_cases hmax : max.all (count < ·) = true
    · obtain ⟨cost, hbody⟩ := hbody state hpos
      cases greedy with
      | true =>
        obtain ⟨cost', rounds, hframes⟩ := hchildren.append (emit_settles state count)
        refine ⟨cost + cost', rounds + 1, fun limit steps fuel stack found hlimit => ?_⟩
        obtain ⟨middle, hmiddle, hrun⟩ := hbody limit steps (by omega)
        obtain ⟨steps', hsteps', hrun'⟩ := hframes limit middle fuel stack found (by omega)
        refine ⟨steps', by omega, ?_⟩
        rw [List.singleton_append, ← Nat.add_assoc, repeatLoop, if_pos hmax, run_bind hrun]
        rw [List.append_assoc, List.flatMap_append, children_results] at hrun'
        simpa [frameResults, hvalue, hmax, arrange] using hrun'
      | false =>
        obtain ⟨cost', rounds, hframes⟩ := (emit_settles state count).append hchildren
        refine ⟨cost + cost', rounds + 1, fun limit steps fuel stack found hlimit => ?_⟩
        obtain ⟨middle, hmiddle, hrun⟩ := hbody limit steps (by omega)
        obtain ⟨steps', hsteps', hrun'⟩ := hframes limit middle fuel stack
          (if min ≤ count then found ++ [state] else found) (by omega)
        refine ⟨steps', by omega, ?_⟩
        rw [List.singleton_append, ← Nat.add_assoc, repeatLoop, if_pos hmax, run_bind hrun]
        rw [List.append_assoc, List.flatMap_append, children_results] at hrun'
        by_cases hlow : min ≤ count
        · simpa [frameResults, hvalue, hmax, hlow, arrange] using hrun'
        · simpa [frameResults, hvalue, hmax, hlow, arrange] using hrun'
    · refine ⟨0, 1, fun limit steps fuel stack found _ => ⟨steps, le_rfl, ?_⟩⟩
      rw [List.singleton_append, repeatLoop, if_neg hmax, List.flatMap_singleton, frameResults, hvalue,
        if_neg hmax]
      cases greedy <;> by_cases hlow : min ≤ count <;> simp [arrange, hlow]

theorem repeatFrom_settles (hbody : ∀ s : State, s.pos ≤ N → Settles (body · s) (f s))
    (hbounded : Bounded f State.pos N) {state : State} (hpos : state.pos ≤ N) (depth : Nat) :
    Settles (fun limit => repeatFrom (context.withLimits limit) (body limit) min max greedy state depth)
      (iterate f State.pos min max greedy (N + 1) state 0) := by
  have hvisit : FramesSettle body f min max greedy N [.visit state 0] :=
    visit_settles hbody hbounded hpos 0
  obtain ⟨cost, rounds, hloop⟩ := hvisit
  refine ⟨cost + rounds + depth, fun limit steps hlimit => ?_⟩
  -- the frames of the loop are enough for its rounds
  obtain ⟨fuel, hfuel⟩ : ∃ fuel, repeatFuel (context.withLimits limit) = fuel + rounds := by
    refine ⟨repeatFuel (context.withLimits limit) - rounds, ?_⟩
    simp only [repeatFuel, Context.withLimits]
    omega
  obtain ⟨steps', hsteps', hrun⟩ := hloop limit steps fuel [] [] (by omega)
  refine ⟨steps', by omega, ?_⟩
  have hdepth : ¬ (context.withLimits limit).prog.depthLimit < depth := by
    simp only [Context.withLimits]
    omega
  rw [List.append_nil, repeatLoop, List.flatMap_singleton, frameResults, List.nil_append] at hrun
  simp only [repeatFrom, hfuel, if_neg hdepth]
  exact hrun

end Repeat

end Parts

/-! ### Patterns -/

theorem prefixCaseFolded_withLimits {limit : Nat} (candidate captured : List Char) (stop : Nat) :
    prefixCaseFolded (context.withLimits limit) candidate captured stop
      = prefixCaseFolded context candidate captured stop := by
  fun_induction prefixCaseFolded context candidate captured stop with
  | case1 => rw [prefixCaseFolded]
  | case2 => rw [prefixCaseFolded]
  | case3 actual candidate expected captured stop hequal ih =>
    rw [prefixCaseFolded, Context.withLimits_tables, if_pos hequal, ih]
  | case4 actual candidate expected captured stop hequal =>
    rw [prefixCaseFolded, Context.withLimits_tables, if_neg hequal]

theorem matchBackref_withLimits {limit index : Nat} {state : State} :
    matchBackref (context.withLimits limit) index state = matchBackref context index state := by
  simp only [matchBackref, prefixCaseFolded_withLimits]
  rfl

mutual

/-- With limits that are large enough the engine gives what the pattern leads to. -/
theorem matchExpr_settles (context : Context) : (expr : Expr) → (depth : Nat) → {state : State} →
    state.pos ≤ context.text.length →
    Settles (fun limit => matchExpr (context.withLimits limit) expr depth state)
      (results context expr state)
  | .empty, depth, state, _ => by
    simp only [matchExpr, results]
    exact (enter_settles depth).bind (Settles.pure _)
  | .literal expected, depth, state, _ => by
    simp only [matchExpr, results]
    exact (enter_settles depth).bind (Settles.pureOf fun _ => rfl)
  | .any newline, depth, state, _ => by
    simp only [matchExpr, results]
    exact (enter_settles depth).bind (Settles.pureOf fun _ => rfl)
  | .class charClass, depth, state, _ => by
    simp only [matchExpr, results]
    exact (enter_settles depth).bind (Settles.pureOf fun _ => rfl)
  | .concat parts, depth, state, hpos => by
    simp only [matchExpr, results]
    have hparts := matchConcat_settles context parts depth (List.forall_mem_singleton.mpr hpos)
    rw [List.flatMap_singleton] at hparts
    exact (enter_settles depth).bind hparts
  | .alt branches, depth, state, hpos => by
    simp only [matchExpr, results]
    exact (enter_settles depth).bind (matchAlt_settles context branches depth hpos)
  | .and parts, depth, state, hpos => by
    simp only [matchExpr, results]
    exact (enter_settles depth).bind (matchAnd_settles context parts depth hpos)
  | .repeat expr min max greedy, depth, state, hpos => by
    simp only [matchExpr, results]
    exact (enter_settles depth).bind (repeatFrom_settles
      (fun s hs => matchExpr_settles context expr (depth + 2) hs) (results_bounded context expr) hpos
      (depth + 1))
  | .group index expr, depth, state, hpos => by
    simp only [matchExpr, results]
    exact (enter_settles depth).bind
      ((matchExpr_settles context expr (depth + 1) hpos).bind (Settles.pure _))
  | .optionalSeq parts, depth, state, hpos => by
    simp only [matchExpr, results]
    exact (enter_settles depth).bind
      (optionalLevels_settles context parts (depth + 1) (List.forall_mem_singleton.mpr hpos))
  | .anchor anchor, depth, state, _ => by
    simp only [matchExpr, results]
    exact (enter_settles depth).bind (Settles.pureOf fun _ => rfl)
  | .look expr kind limit, depth, state, hpos => by
    simp only [matchExpr, results]
    exact (enter_settles depth).bind
      (matchLook_settles hpos fun s hs => matchExpr_settles context expr (depth + 2) hs)
  | .backref index, depth, state, _ => by
    simp only [matchExpr, results]
    exact (enter_settles depth).bind (Settles.pureOf fun _ => matchBackref_withLimits)
  | .setStart, depth, state, _ => by
    simp only [matchExpr, results]
    exact (enter_settles depth).bind (Settles.pure _)
  | .setEnd, depth, state, _ => by
    simp only [matchExpr, results]
    exact (enter_settles depth).bind (Settles.pure _)

theorem matchConcat_settles (context : Context) : (parts : List Expr) → (depth : Nat) →
    {states : List State} → (∀ s ∈ states, s.pos ≤ context.text.length) →
    Settles (fun limit => matchConcat (context.withLimits limit) parts depth states)
      (states.flatMap (resultsSeq context parts))
  | [], depth, states, _ => by
    have hall : states.flatMap (resultsSeq context []) = states := by simp [resultsSeq]
    simp only [matchConcat, hall]
    exact Settles.pure states
  | part :: parts, depth, states, hstates => by
    have hnext := fromStates_settles fun s hs =>
      matchExpr_settles context part (depth + 1) (hstates s hs)
    simp only [matchConcat, flatMap_resultsSeq_cons]
    apply hnext.bind
    split
    · next hempty =>
      rw [List.isEmpty_iff.mp hempty]
      exact Settles.pure []
    · apply matchConcat_settles context parts depth
      intro t ht
      obtain ⟨s, hs, ht⟩ := List.mem_flatMap.mp ht
      exact (results_bounded context part s (hstates s hs) t ht).2

theorem matchAlt_settles (context : Context) : (branches : List Expr) → (depth : Nat) →
    {state : State} → state.pos ≤ context.text.length →
    Settles (fun limit => matchAlt (context.withLimits limit) branches depth state)
      (resultsAlt context branches state)
  | [], depth, state, _ => by
    simp only [matchAlt, resultsAlt]
    exact Settles.pure []
  | branch :: branches, depth, state, hpos => by
    simp only [matchAlt, resultsAlt]
    exact (matchExpr_settles context branch (depth + 1) hpos).bind
      ((matchAlt_settles context branches depth hpos).bind (Settles.pure _))

theorem matchAnd_settles (context : Context) : (parts : List Expr) → (depth : Nat) →
    {state : State} → state.pos ≤ context.text.length →
    Settles (fun limit => matchAnd (context.withLimits limit) parts depth state)
      (resultsAnd context parts state)
  | [], depth, state, _ => by
    simp only [matchAnd, resultsAnd]
    exact Settles.pure [state]
  | [last], depth, state, hpos => by
    simp only [matchAnd, resultsAnd]
    exact matchExpr_settles context last (depth + 1) hpos
  | requirement :: part :: parts, depth, state, hpos => by
    simp only [matchAnd, resultsAnd]
    apply (matchExpr_settles context requirement (depth + 1) hpos).bind
    split
    · exact Settles.pure []
    · exact matchAnd_settles context (part :: parts) depth hpos

theorem optionalLevels_settles (context : Context) : (parts : List Expr) → (depth : Nat) →
    {previous : List State} → (∀ s ∈ previous, s.pos ≤ context.text.length) →
    Settles (fun limit => do
      let levels ← optionalLevels (context.withLimits limit) parts depth previous
      pure (levels.reverse.flatten ++ previous)) (resultsOptional context parts previous)
  | [], depth, previous, _ => by
    simp only [optionalLevels, resultsOptional]
    exact Settles.pure previous
  | part :: parts, depth, previous, hprevious => by
    simp only [optionalLevels, resultsOptional, bind_assoc]
    have hnext := fromStates_settles fun s hs =>
      matchExpr_settles context part (depth + 1) (hprevious s hs)
    apply hnext.bind
    split
    · next hempty =>
      rw [List.isEmpty_iff.mp hempty, resultsOptional_nil]
      exact Settles.pure previous
    · have hmore : ∀ t ∈ previous.flatMap (results context part), t.pos ≤ context.text.length := by
        intro t ht
        obtain ⟨s, hs, ht⟩ := List.mem_flatMap.mp ht
        exact (results_bounded context part s (hprevious s hs) t ht).2
      have hlevels := optionalLevels_settles context parts depth hmore
      have := hlevels.bind (f := fun _ all => pure (all ++ previous)) (Settles.pure _)
      simpa using this

end

/-! ### Searches -/

theorem searchFrom_settles {candidates : List Nat}
    (hcandidates : ∀ c ∈ candidates, c ≤ context.text.length) :
    Settles (fun limit => searchFrom (context.withLimits limit) (leadingAnchor context.prog.expr)
      candidates) (firstFrom context candidates) := by
  induction candidates with
  | nil => exact Settles.pure none
  | cons candidate candidates ih =>
    obtain ⟨hcandidate, hrest⟩ := List.forall_mem_cons.mp hcandidates
    simp only [searchFrom, firstFrom, Context.withLimits_text]
    by_cases hallowed : anchorAllows (leadingAnchor context.prog.expr) context.text candidate = true
    · simp only [hallowed, Bool.not_true, Bool.false_eq_true, if_false]
      have hstart : (State.new candidate context.prog.captureCount).pos ≤ context.text.length :=
        hcandidate
      have hexpr := matchExpr_settles context context.prog.expr 0 hstart
      apply Settles.bind hexpr
      rw [resultsAt]
      cases results context context.prog.expr (State.new candidate context.prog.captureCount) with
      | nil => exact ih hrest
      | cons state others => exact Settles.pure _
    · rw [Bool.not_eq_true] at hallowed
      have hnone : resultsAt context candidate = [] := results_of_not_allowed hallowed
      simp only [hallowed, Bool.not_false, if_true, hnone]
      exact ih hrest

/-- With limits that are large enough every search finds the leftmost match, or that there is none. -/
theorem search_settles (context : Context) (start : Nat) :
    ∃ cost, ∀ limit, cost ≤ limit →
      search (context.withLimits limit) start = .ok (firstMatch context start) := by
  have hcandidates : ∀ c ∈ candidateOffsets context.text.chars start, c ≤ context.text.length :=
    fun c hc => mem_candidateOffsets_le hc
  obtain ⟨cost, h⟩ := searchFrom_settles hcandidates
  refine ⟨cost, fun limit hlimit => ?_⟩
  obtain ⟨steps', -, hrun⟩ := h limit 0 (by omega)
  have hsearch : search (context.withLimits limit) start
      = (searchFrom (context.withLimits limit) (leadingAnchor context.prog.expr)
          (candidateOffsets context.text.chars start) 0).map (·.1) := rfl
  exact hsearch.trans (congrArg (Except.map Prod.fst) hrun)

end Backtrack

end Oxvim.Regex
