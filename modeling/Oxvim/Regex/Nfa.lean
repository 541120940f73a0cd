import Oxvim.Regex.Backtrack
import Oxvim.Lib.OrderedSearch

/-!
# The NFA engine

A pattern is compiled to a program of jumps and tests. Threads run it in order of priority, depth
first: a thread is dropped where another has been at the same instruction and offset. What the program
has no instructions for is left to the backtracking engine.
-/

namespace Oxvim.Regex.Nfa

open Lib

inductive Inst where
  | char (c : Char)
  | any (newline : Bool)
  | class (charClass : CharClass)
  | saveStart (index : Nat)
  | saveEnd (index : Nat)
  | setStart
  | setEnd
  | split (first second : Nat)
  | jump (target : Nat)
  | fallback (expr : Expr)
  | match

/-! ## Compiling -/

/-- Whether a repetition is left to the backtracking engine. -/
def isLargeRepeat (min : Nat) (max : Option Nat) : Bool :=
  max.any fun max => (500 < max || 200 < max - min) && min < 200

/-- Point the split before a branch to what follows the branch. -/
def patchSecond (split : Nat) (code : List Inst) : List Inst :=
  match code[split]? with
  | some (.split first _) => code.set split (.split first code.length)
  | _ => code

def compileOptional (body : List Inst → List Inst) (greedy : Bool) (code : List Inst) : List Inst :=
  let split := code.length
  let start := split + 1
  let code := body (code ++ [.split 0 0])
  code.set split (if greedy then .split start code.length else .split code.length start)

def compileStar (body : List Inst → List Inst) (greedy : Bool) (code : List Inst) : List Inst :=
  let split := code.length
  let start := split + 1
  let code := body (code ++ [.split 0 0]) ++ [.jump split]
  code.set split (if greedy then .split start code.length else .split code.length start)

def compileRepeat (body : List Inst → List Inst) (min : Nat) (max : Option Nat) (greedy : Bool)
    (code : List Inst) : List Inst :=
  let code := body^[min] code
  match max with
  | some max => (compileOptional body greedy)^[max - min] code
  | none => compileStar body greedy code

/-- Point the jumps at the ends of the branches to the end. -/
def patchJumps (jumps : List Nat) (code : List Inst) : List Inst :=
  jumps.foldl (fun patched jump => patched.set jump (.jump code.length)) code

/-- The loop of `compile_alt`, with the jumps to the end so far. -/
def compileBranches : (branches : List (List Inst → List Inst)) → (endJumps : List Nat) →
    (code : List Inst) → List Inst
  | [], endJumps, code => patchJumps endJumps code
  | [last], endJumps, code => patchJumps endJumps (last code)
  | branch :: branches, endJumps, code =>
    let split := code.length
    let code := branch (code ++ [.split (split + 1) 0])
    let jump := code.length
    let code := patchSecond split (code ++ [.jump 0])
    compileBranches branches (endJumps ++ [jump]) code

def compileAlt (branches : List (List Inst → List Inst)) (code : List Inst) : List Inst :=
  compileBranches branches [] code

/-- One branch after another. -/
def compileSeq (parts : List (List Inst → List Inst)) (code : List Inst) : List Inst :=
  parts.foldl (fun code part => part code) code

mutual

def compileExpr : (expr : Expr) → (code : List Inst) → List Inst
  | .empty, code => code
  | .literal c, code => code ++ [.char c]
  | .any newline, code => code ++ [.any newline]
  | .class charClass, code => code ++ [.class charClass]
  | .concat parts, code => compileSeq (compileAll parts) code
  | .alt branches, code => compileAlt (compileAll branches) code
  | .repeat expr min max greedy, code =>
    if isLargeRepeat min max then code ++ [.fallback (.repeat expr min max greedy)]
    else compileRepeat (compileExpr expr) min max greedy code
  | .group none expr, code => compileExpr expr code
  | .group (some index) expr, code =>
    compileExpr expr (code ++ [.saveStart index]) ++ [.saveEnd index]
  | .optionalSeq parts, code =>
    compileAlt ((compileAll parts).inits.reverse.map compileSeq) code
  | .setStart, code => code ++ [.setStart]
  | .setEnd, code => code ++ [.setEnd]
  | .anchor anchor, code => code ++ [.fallback (.anchor anchor)]
  | .look expr kind limit, code => code ++ [.fallback (.look expr kind limit)]
  | .backref index, code => code ++ [.fallback (.backref index)]
  | .and parts, code => code ++ [.fallback (.and parts)]

def compileAll : (exprs : List Expr) → List (List Inst → List Inst)
  | [] => []
  | expr :: exprs => compileExpr expr :: compileAll exprs

end

def program (expr : Expr) : List Inst := compileExpr expr [] ++ [.match]

/-! ## Threads -/

/-- What a visit is told apart by. -/
inductive VisitKey where
  | plain (pc pos : Nat)
  | captures (pc pos : Nat) (captures : List (Option (Nat × Nat)))
  deriving DecidableEq

structure CaptureTrace where
  captures : List (Option (Nat × Nat))
  opens : List (Option Nat)
  deriving DecidableEq

namespace CaptureTrace

def new (captureCount : Nat) : CaptureTrace :=
  ⟨List.replicate captureCount none, List.replicate captureCount none⟩

def «open» (self : CaptureTrace) (index pos : Nat) : CaptureTrace :=
  { self with opens := self.opens.set (index - 1) (some pos) }

def close (self : CaptureTrace) (index pos : Nat) : CaptureTrace :=
  match self.opens[index - 1]? with
  | some (some start) =>
    { self with captures := self.captures.set (index - 1) (some (start, pos)) }
  | _ => self

end CaptureTrace

/-- What the visited set knows of the captures of a thread. -/
inductive Trace where
  | plain
  | captures (trace : CaptureTrace)
  | opaqueTrace
  deriving DecidableEq

namespace Trace

def «open» (self : Trace) (index pos : Nat) : Trace :=
  match self with
  | .captures trace => .captures (trace.open index pos)
  | _ => self

def close (self : Trace) (index pos : Nat) : Trace :=
  match self with
  | .captures trace => .captures (trace.close index pos)
  | _ => self

def key (self : Trace) (pc pos : Nat) : Option VisitKey :=
  match self with
  | .plain => some (.plain pc pos)
  | .captures trace => some (.captures pc pos trace.captures)
  | .opaqueTrace => none

end Trace

structure Thread where
  pc : Nat
  state : State
  trace : Trace

def fallbackPreservesCaptures : Expr → Bool
  | .anchor _ => true
  | .backref _ => true
  | _ => false

variable (context : Context)

/-- A thread that goes on to the next instruction with the states a test leaves. -/
def advance (thread : Thread) (states : List State) : List Thread :=
  states.map fun state => { thread with pc := thread.pc + 1, state := state }

/-- What a thread goes on to at its instruction, in order of priority, with an engine for what the
program has no instructions for. -/
def nextThreads (matchAt : Expr → State → Except ExecError (List State)) (code : List Inst)
    (thread : Thread) : Except ExecError (List Thread) :=
  let state := thread.state
  match code[thread.pc]? with
  | none => .ok []
  | some .match => .ok []
  | some (.char expected) => .ok (advance thread (Backtrack.matchChar context
      (charsEqual context.tables expected · context.prog.ignoreCase) state))
  | some (.any newline) => .ok (advance thread (Backtrack.matchChar context
      (fun actual => newline || actual != '\n') state))
  | some (.class charClass) => .ok (advance thread (Backtrack.matchChar context
      (classMatches context.tables charClass · context.prog.ignoreCase) state))
  | some (.saveStart index) =>
    .ok [⟨thread.pc + 1, state.openCapture index, thread.trace.open index state.pos⟩]
  | some (.saveEnd index) =>
    .ok [⟨thread.pc + 1, state.closeCapture index, thread.trace.close index state.pos⟩]
  | some .setStart => .ok [{ thread with pc := thread.pc + 1, state := state.setMatchStart }]
  | some .setEnd => .ok [{ thread with pc := thread.pc + 1, state := state.setMatchEnd }]
  | some (.jump target) => .ok [{ thread with pc := target }]
  | some (.split first second) => .ok [{ thread with pc := first }, { thread with pc := second }]
  | some (.fallback expr) =>
    match matchAt expr state with
    | .error e => .error e
    | .ok results =>
      let trace := if fallbackPreservesCaptures expr then thread.trace else .opaqueTrace
      .ok (results.map fun result => ⟨thread.pc + 1, result, trace⟩)

def isMatch (code : List Inst) (thread : Thread) : Bool :=
  match code[thread.pc]? with
  | some .match => true
  | _ => false

/-- The threads of a program. One that goes on is on top of the stack again. -/
def threads (code : List Inst) : OrderedSearch.Graph Thread VisitKey ExecError where
  next := nextThreads context (Backtrack.matchAt context) code
  goal := isMatch code
  key thread := thread.trace.key thread.pc thread.state.pos

/-- The threads from one candidate, with the steps left before and after. -/
def runCandidate (code : List Inst) (candidate : Nat) (left : Nat) :
    Except ExecError (Option State × Nat) :=
  let trace :=
    if context.prog.hasBackref then .captures (.new context.prog.captureCount) else .plain
  let initial : Thread := ⟨0, State.new candidate context.prog.captureCount, trace⟩
  ((threads context code).search .stepLimit left ∅ [initial]).map fun (found, left) =>
    (found.map (·.state), left)

def searchFrom (code : List Inst) (anchored : Option Anchor) : (candidates : List Nat) →
    (left : Nat) → Except ExecError (Option State)
  | [], _ => .ok none
  | candidate :: candidates, left =>
    if !anchorAllows anchored context.text candidate then searchFrom code anchored candidates left
    else match runCandidate context code candidate left with
      | .error e => .error e
      | .ok (some state, _) => .ok (some (state.setSearchStart candidate))
      | .ok (none, left) => searchFrom code anchored candidates left

def search (start : Nat) : Except ExecError (Option State) :=
  searchFrom context (program context.prog.expr) (leadingAnchor context.prog.expr)
    (candidateOffsets context.text.chars start) context.prog.stepLimit

end Oxvim.Regex.Nfa

namespace Oxvim.Regex

/-- A search from a position on, by the engine of the program. -/
def tryExecAt (context : Context) (start : Position) : Except ExecError (Option Match) :=
  if context.text.position start.byte ≠ some start then .ok none
  else
    let raw := match context.prog.engine with
      | .backtracking => Backtrack.search context start.byte
      | .nfa => Nfa.search context start.byte
    raw.map fun found => found.map fun state =>
      state.intoMatch context.text context.prog.captureCount

end Oxvim.Regex
