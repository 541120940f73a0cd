import Oxvim.Regex.Pattern

/-!
# The backtracking engine

`matchExpr` gives every state a pattern can lead to, in order of priority, and counts its steps: beyond
the limit, and beyond the limit of depth, it fails.
-/

namespace Oxvim.Regex

open Lib

/-- A computation that counts steps and can fail. -/
abbrev Exec (α : Type) : Type := StateT Nat (Except ExecError) α

/-- What a match runs under. -/
structure Context where
  prog : Prog
  text : Text
  tables : CharTables

namespace Backtrack

variable (context : Context)

/-- The checks at the start of `match_expr`. -/
def enter (depth : Nat) : Exec Unit := do
  let steps ← get
  set (steps + 1)
  if context.prog.stepLimit < steps + 1 then throw .stepLimit
  if context.prog.depthLimit < depth then throw .recursionLimit

/-- A single character of a kind. -/
def matchChar (accepts : Char → Bool) (state : State) : List State :=
  match nextChar context.text.chars state.pos with
  | some (actual, next) => if accepts actual then [{ state with pos := next }] else []
  | none => []

def prefixCaseFolded : (candidate captured : List Char) → (stop : Nat) → Option Nat
  | _, [], stop => some stop
  | [], _ :: _, _ => none
  | actual :: candidate, expected :: captured, stop =>
    if charsEqual context.tables expected actual true then
      prefixCaseFolded candidate captured (stop + actual.utf8Size)
    else none

def matchBackref (index : Nat) (state : State) : List State :=
  match state.captures[index - 1]? with
  | some (some (start, stop)) =>
    match (charsTo context.text.chars stop).bind fun chars => charsFrom chars start,
      charsFrom context.text.chars state.pos with
    | some captured, some candidate =>
      let consumed :=
        if context.prog.ignoreCase then prefixCaseFolded context candidate captured 0
        else if captured.isPrefixOf candidate then some (byteLength captured) else none
      match consumed with
      | some length => [{ state with pos := state.pos + length }]
      | none => []
    | _, _ => []
  | _ => []

/-- What is left to do in a repetition: a level to explore, a state to record when its level is done, or
states of empty iterations. -/
inductive Frame where
  | visit (state : State) (count : Nat)
  | emit (state : State) (count : Nat)
  | zero (states : List State)

/-- The frames of a level below another one. -/
def childFrame (min : Nat) (here : Nat) (count : Nat) (next : State) : Option Frame :=
  if next.pos = here then
    -- an iteration that reads nothing is recorded, and not repeated
    if min ≤ count + 1 then some (.zero [next]) else none
  else some (.visit next (count + 1))

/-- The loop of `repeat`, with as many frames as it can take. -/
def repeatLoop (body : State → Exec (List State)) (min : Nat) (max : Option Nat) (greedy : Bool) :
    (fuel : Nat) → (stack : List Frame) → (results : List State) → Exec (List State)
  | _, [], results => pure results
  | 0, _ :: _, _ => throw .stepLimit
  | fuel + 1, .visit state count :: stack, results => do
    let results := if !greedy && min ≤ count then results ++ [state] else results
    if max.all (count < ·) then
      let nexts ← body state
      let children := nexts.filterMap (childFrame min state.pos count)
      if greedy then
        repeatLoop body min max greedy fuel (children ++ .emit state count :: stack) results
      else repeatLoop body min max greedy fuel (.emit state count :: (children ++ stack)) results
    else
      repeatLoop body min max greedy fuel stack
        (if greedy && min ≤ count then results ++ [state] else results)
  | fuel + 1, .emit state count :: stack, results =>
    repeatLoop body min max greedy fuel stack
      (if greedy && min ≤ count then results ++ [state] else results)
  | fuel + 1, .zero states :: stack, results =>
    repeatLoop body min max greedy fuel stack (results ++ states)

/-- How many frames a repetition can take: each is recorded twice at most, and there are no more than
steps. -/
def repeatFuel : Nat := 2 * context.prog.stepLimit + 3

def repeatFrom (body : State → Exec (List State)) (min : Nat) (max : Option Nat) (greedy : Bool)
    (state : State) (depth : Nat) : Exec (List State) := do
  if context.prog.depthLimit < depth then throw .recursionLimit
  repeatLoop body min max greedy (repeatFuel context) [.visit state 0] []

/-- What a pattern leads to from each of some states, one after another. -/
def fromStates (body : State → Exec (List State)) : (states : List State) → Exec (List State)
  | [] => pure []
  | state :: states => do
    let first ← body state
    let others ← fromStates body states
    pure (first ++ others)

/-- Whether the pattern read from one of the offsets ends at the position. -/
def probe (body : State → Exec (List State)) (pos : Nat) : (offsets : List Nat) → Exec Bool
  | [] => pure false
  | candidate :: offsets => do
    if pos < candidate then pure false
    else
      let results ← body (State.new candidate context.prog.captureCount)
      if results.any (·.pos == pos) then pure true else probe body pos offsets

def matchLook (body : State → Exec (List State)) (kind : LookKind) (limit : Option Nat)
    (state : State) : Exec (List State) :=
  match kind with
  | .ahead => do
    let results ← body state
    pure (results.map fun result => { result with pos := state.pos })
  | .notAhead => do
    let results ← body state
    pure (if results.isEmpty then [state] else [])
  | .atomic => do
    let results ← body state
    pure (results.take 1)
  | .behind | .notBehind => do
    let earliest := lookbehindEarliest context.text state.pos limit
    let found ← probe context body state.pos (candidateOffsets context.text.chars earliest)
    pure (if found == (kind == .behind) then [state] else [])

def setCapture (index : Option Nat) (start : Nat) (result : State) : State :=
  match index with
  | some index =>
    { result with captures := result.captures.set (index - 1) (some (start, result.pos)) }
  | none => result

mutual

def matchExpr : (expr : Expr) → (depth : Nat) → (state : State) → Exec (List State)
  | .empty, depth, state => do
    enter context depth
    pure [state]
  | .literal expected, depth, state => do
    enter context depth
    pure (matchChar context
      (charsEqual context.tables expected · context.prog.ignoreCase) state)
  | .any newline, depth, state => do
    enter context depth
    pure (matchChar context (fun actual => newline || actual != '\n') state)
  | .class charClass, depth, state => do
    enter context depth
    pure (matchChar context
      (classMatches context.tables charClass · context.prog.ignoreCase) state)
  | .concat parts, depth, state => do
    enter context depth
    matchConcat parts depth [state]
  | .alt branches, depth, state => do
    enter context depth
    matchAlt branches depth state
  | .and parts, depth, state => do
    enter context depth
    matchAnd parts depth state
  | .repeat expr min max greedy, depth, state => do
    enter context depth
    repeatFrom context (matchExpr expr (depth + 2)) min max greedy state (depth + 1)
  | .group index expr, depth, state => do
    enter context depth
    let states ← matchExpr expr (depth + 1) state
    pure (states.map (setCapture index state.pos))
  | .optionalSeq parts, depth, state => do
    enter context depth
    let levels ← optionalLevels parts (depth + 1) [state]
    pure (levels.reverse.flatten ++ [state])
  | .anchor anchor, depth, state => do
    enter context depth
    pure (if anchorMatches context.tables anchor state.pos context.text then [state] else [])
  | .look expr kind limit, depth, state => do
    enter context depth
    matchLook context (matchExpr expr (depth + 2)) kind limit state
  | .backref index, depth, state => do
    enter context depth
    pure (matchBackref context index state)
  | .setStart, depth, state => do
    enter context depth
    pure [state.setMatchStart]
  | .setEnd, depth, state => do
    enter context depth
    pure [state.setMatchEnd]

/-- The parts of a sequence from the states before them. -/
def matchConcat : (parts : List Expr) → (depth : Nat) → (states : List State) → Exec (List State)
  | [], _, states => pure states
  | part :: parts, depth, states => do
    let next ← fromStates (matchExpr part (depth + 1)) states
    if next.isEmpty then pure next else matchConcat parts depth next

def matchAlt : (branches : List Expr) → (depth : Nat) → (state : State) → Exec (List State)
  | [], _, _ => pure []
  | branch :: branches, depth, state => do
    let first ← matchExpr branch (depth + 1) state
    let others ← matchAlt branches depth state
    pure (first ++ others)

/-- All parts must match; the last one tells where. -/
def matchAnd : (parts : List Expr) → (depth : Nat) → (state : State) → Exec (List State)
  | [], _, state => pure [state]
  | [last], depth, state => matchExpr last (depth + 1) state
  | requirement :: parts, depth, state => do
    let required ← matchExpr requirement (depth + 1) state
    if required.isEmpty then pure [] else matchAnd parts depth state

/-- The states behind each part of an optional sequence, up to the first that does not match. -/
def optionalLevels : (parts : List Expr) → (depth : Nat) → (previous : List State) →
    Exec (List (List State))
  | [], _, _ => pure []
  | part :: parts, depth, previous => do
    let next ← fromStates (matchExpr part (depth + 1)) previous
    if next.isEmpty then pure []
    else
      let levels ← optionalLevels parts depth next
      pure (next :: levels)

end

/-- Matching with steps counted from zero. -/
def matchAt (expr : Expr) (state : State) : Except ExecError (List State) :=
  ((matchExpr context expr 0 state).run 0).map (·.1)

/-- The candidates of `search`, one after another. -/
def searchFrom (anchored : Option Anchor) : (candidates : List Nat) → Exec (Option State)
  | [] => pure none
  | candidate :: candidates => do
    if !anchorAllows anchored context.text candidate then searchFrom anchored candidates
    else
      let initial := State.new candidate context.prog.captureCount
      let results ← matchExpr context context.prog.expr 0 initial
      match results with
      | state :: _ => pure (some (state.setSearchStart candidate))
      | [] => searchFrom anchored candidates

def search (start : Nat) : Except ExecError (Option State) :=
  ((searchFrom context (leadingAnchor context.prog.expr)
    (candidateOffsets context.text.chars start)).run 0).map (·.1)

end Backtrack

end Oxvim.Regex
