import Oxvim.Editor.FlatText
import Oxvim.Lib.Runs

/-!
# Searching a buffer

A search joins the lines into one text, goes through the matches of the pattern until the wanted one
is found, and turns the match and the search offset into a cursor position.

The regex engine is left open: all that is used of it is that a match begins and ends at positions of
the text.
-/

namespace Oxvim.Editor.Search

open Lib Lib.Lines Lib.Runs Text

/-! ## The text -/

/-- A location in the joined lines. -/
structure RegexPosition where
  lnum : Nat
  col : Nat
  byte : Nat
  deriving DecidableEq, Repr

/-- One located match, `stop` behind its last character. -/
structure MatchSpan where
  start : RegexPosition
  stop : RegexPosition
  deriving DecidableEq, Repr

inductive SearchError where
  | compile (message : String)
  | execute (message : String)
  | patternNotFound (pattern : String)
  | noPreviousPattern
  | invalidUtf8
  deriving DecidableEq, Repr

/-- Where the lines begin that the newlines behind `offset` bytes make. -/
def newlineStarts (offset : Nat) : List UInt8 → List Nat
  | [] => []
  | byte :: bytes =>
    if byte = LF then (offset + 1) :: newlineStarts (offset + 1) bytes
    else newlineStarts (offset + 1) bytes

def validBoundary (bytes : List UInt8) (byte : Nat) : Bool :=
  decide (byte ≤ bytes.length) && isUtf8Boundary bytes byte

/-- Converts a UTF-8 boundary byte offset into line and byte-column coordinates. -/
def position (bytes : List UInt8) (byte : Nat) : Option RegexPosition :=
  if validBoundary bytes byte then
    let starts := 0 :: newlineStarts 0 bytes
    let line := (starts.takeWhile (· ≤ byte)).length - 1
    some ⟨line + 1, byte - starts.getD line 0, byte⟩
  else none

/-- The regex engine. -/
structure Engine where
  Prog : Type
  compile : String → Except SearchError Prog
  /-- The first match at or after a position. -/
  tryExecAt : Prog → List UInt8 → RegexPosition → Except SearchError (Option MatchSpan)
  /-- A match begins and ends at positions of the text. -/
  positions : ∀ prog bytes start span, tryExecAt prog bytes start = .ok (some span) →
    position bytes span.start.byte = some span.start ∧
      position bytes span.stop.byte = some span.stop

/-- The joined lines, and where each of them begins. -/
structure SearchText where
  bytes : List UInt8
  lineStarts : List Nat

/-- Validates the lines as UTF-8 and joins them. -/
def SearchText.new (lines : List Line) : Except SearchError SearchText :=
  if ∀ line ∈ lines, (Utf8.decode? line).isSome then
    .ok ⟨(flatten lines).1, (flatten lines).2⟩
  else .error .invalidUtf8

namespace SearchText

/-- The offset at which a line begins, the end of the text where there is no such line. -/
def lineStart (self : SearchText) (lnum : Nat) : Nat :=
  (self.lineStarts[lnum - 1]?).getD self.bytes.length

def byteOf (self : SearchText) (pos : Position) : Nat :=
  self.lineStart (max pos.lnum 1) + pos.col

end SearchText

/-- The next boundary behind `byte`. -/
def scalarAfter (bytes : List UInt8) (byte : Nat) : Nat :=
  min (advance (fun i => !isUtf8Boundary bytes i) bytes.length (min byte bytes.length) + 1)
    bytes.length

def positionOf (bytes : List UInt8) (byte : Nat) : RegexPosition :=
  (position bytes byte).getD ⟨1, 0, 0⟩

/-! ## Going through the matches -/

inductive Sweep where
  | first
  | wrapped
  deriving DecidableEq, Repr

inductive Step where
  | found (span : MatchSpan)
  | exhausted
  | timedOut
  deriving DecidableEq, Repr

/-- A scan that goes forward. `looks` counts how often it has looked at the clock. -/
structure CandidateScan where
  wrap : Bool
  sweep : Sweep := .first
  wrappedFrontier : Nat := 0
  wrappedLimit : Nat := 0
  firstFrom : Option Nat := none
  looks : Nat := 0
  deriving DecidableEq, Repr

theorem lt_scalarAfter {bytes : List UInt8} {byte : Nat} (h : byte < bytes.length) :
    byte < scalarAfter bytes byte := by
  have hlt : min byte bytes.length < bytes.length := by omega
  have hle := (advanced (p := fun i => !isUtf8Boundary bytes i) hlt).le
  rw [scalarAfter]
  omega

theorem scalarAfter_of_le {bytes : List UInt8} {byte : Nat} (h : bytes.length ≤ byte) :
    scalarAfter bytes byte = bytes.length := by
  have hstay : advance (fun i => !isUtf8Boundary bytes i) bytes.length bytes.length
      = bytes.length := by
    rw [advance, if_neg (by omega)]
  rw [scalarAfter, min_eq_right h, hstay]
  omega

theorem position_isSome (bytes : List UInt8) (byte : Nat) :
    (position bytes byte).isSome = validBoundary bytes byte := by
  unfold position
  split_ifs with h <;> simp [h]

theorem validBoundary_length (bytes : List UInt8) : validBoundary bytes bytes.length = true := by
  simp [validBoundary, isUtf8Boundary]

section Scan

variable (findAt : RegexPosition → Except SearchError (Option MatchSpan)) (text : SearchText)
  (expired : Nat → Bool)

/-- Where a scan resumes behind the start of a match. -/
def advancePast (span : MatchSpan) : Nat := scalarAfter text.bytes span.start.byte

/-- Where a scan resumes behind a match. -/
def advanceAfterEnd (span : MatchSpan) : Nat :=
  if span.start.byte < span.stop.byte then min span.stop.byte text.bytes.length
  else scalarAfter text.bytes span.start.byte

/-- How far `threshold` is from the end of the text, where it stops. -/
def remaining (threshold : Nat) : Nat :=
  if text.bytes.length < threshold then text.bytes.length + 1 else text.bytes.length - threshold

theorem remaining_scalarAfter {threshold : Nat} (h : position text.bytes threshold = none) :
    remaining text (scalarAfter text.bytes threshold) < remaining text threshold := by
  have hne : threshold ≠ text.bytes.length := by
    rintro rfl
    have hsome := position_isSome text.bytes text.bytes.length
    rw [h, validBoundary_length] at hsome
    cases hsome
  rcases Nat.lt_or_gt_of_ne hne with hlt | hgt
  · have hafter := lt_scalarAfter hlt
    have hle : scalarAfter text.bytes threshold ≤ text.bytes.length := min_le_right _ _
    rw [remaining, remaining, if_neg (by omega), if_neg (by omega)]
    omega
  · rw [scalarAfter_of_le hgt.le, remaining, remaining, if_neg (by omega), if_pos hgt]
    omega

/-- A step of the second sweep, over the lines before the one where the first began. -/
def stepForwardWrapped (scan : CandidateScan) (threshold : Nat) :
    Except SearchError (Step × CandidateScan) :=
  let looked := { scan with looks := scan.looks + 1 }
  if expired scan.looks then .ok (.timedOut, looked)
  else if scan.wrappedLimit ≤ threshold then .ok (.exhausted, looked)
  else
    match _h : position text.bytes threshold with
    | none => stepForwardWrapped looked (scalarAfter text.bytes threshold)
    | some start =>
      match findAt start with
      | .error error => .error error
      | .ok none => .ok (.exhausted, looked)
      | .ok (some span) => .ok (.found span, { looked with wrappedFrontier := advancePast text span })
  termination_by remaining text threshold
  decreasing_by exact remaining_scalarAfter text _h

/-- Where the first sweep is exhausted, a scan that wraps begins the second one. -/
def wrapForwardExhausted (scan : CandidateScan) : Except SearchError (Step × CandidateScan) :=
  if !scan.wrap || scan.sweep = .wrapped then .ok (.exhausted, scan)
  else
    let startLine := match scan.firstFrom.bind (position text.bytes) with
      | some start => start.lnum
      | none => text.lineStarts.length + 1
    stepForwardWrapped findAt text expired
      { scan with
        sweep := .wrapped
        wrappedFrontier := 0
        wrappedLimit := text.lineStart startLine } 0

/-- A step of the first sweep. -/
def stepForwardFirst (scan : CandidateScan) (threshold : Nat) :
    Except SearchError (Step × CandidateScan) :=
  let looked := { scan with looks := scan.looks + 1 }
  if expired scan.looks then .ok (.timedOut, looked)
  else if text.bytes.length ≤ threshold then wrapForwardExhausted findAt text expired looked
  else
    match _h : position text.bytes threshold with
    | none => stepForwardFirst looked (scalarAfter text.bytes threshold)
    | some start =>
      match findAt start with
      | .error error => .error error
      | .ok none => wrapForwardExhausted findAt text expired looked
      | .ok (some span) => .ok (.found span, looked)
  termination_by remaining text threshold
  decreasing_by exact remaining_scalarAfter text _h

/-- The next candidate at or behind `start`. -/
def CandidateScan.step (scan : CandidateScan) (start : Nat) :
    Except SearchError (Step × CandidateScan) :=
  let scan := { scan with firstFrom := some (scan.firstFrom.getD start) }
  match scan.sweep with
  | .wrapped => stepForwardWrapped findAt text expired scan scan.wrappedFrontier
  | .first => stepForwardFirst findAt text expired scan (min start text.bytes.length)

end Scan

/-! ## Choosing a match -/

inductive SearchDirection where
  | forward
  | backward
  deriving DecidableEq, Repr

/-- Outcome of the lazy first-cycle selection. -/
inductive Select where
  /-- The wanted match and whether reaching it wrapped. -/
  | found (span : MatchSpan) (wrapped : Bool)
  /-- There are matches, but the whole list is needed. -/
  | needFull
  deriving DecidableEq, Repr

/-- What a loop returns; `none` where it has not come to its end. -/
abbrev Fueled (α : Type) := Option (Except SearchError α)

section Select

variable (findAt : RegexPosition → Except SearchError (Option MatchSpan)) (text : SearchText)
  (expired : Nat → Bool) (cursorByte count : Nat) (wrapscan : Bool)

/-- The variables of the forward selection. -/
structure ForwardSelection where
  scan : CandidateScan
  start : Nat
  yielded : Nat := 0
  /-- The earliest match at or before the cursor. -/
  firstSkipped : Option MatchSpan := none
  lastEnd : Option Nat := none
  prevSweep : Sweep := .first
  deriving DecidableEq, Repr

/-- What remains when the scan has stopped. -/
def ForwardSelection.stopped (self : ForwardSelection) : Option Select :=
  match self.firstSkipped with
  | some span =>
    if self.yielded = 0 ∧ wrapscan ∧ count = 1 then some (.found span true)
    else if !wrapscan then none
    else some .needFull
  | none =>
    if self.yielded = 0 then none
    else if !wrapscan then none
    else some .needFull

/-- Steps from the line of the cursor on to the `count`-th match behind the cursor. -/
def selectLazyForward : Nat → ForwardSelection → Fueled (Option Select)
  | 0, _ => none
  | fuel + 1, self =>
    match self.scan.step findAt text expired self.start with
    | .error error => some (.error error)
    | .ok (.found span, scan) =>
      let next : ForwardSelection :=
        { self with
          scan
          start := advanceAfterEnd text span
          lastEnd := if scan.sweep = self.prevSweep then self.lastEnd else none
          prevSweep := scan.sweep }
      if scan.sweep = .first ∧ span.start.byte ≤ cursorByte then
        selectLazyForward fuel { next with firstSkipped := some (self.firstSkipped.getD span) }
      else if next.lastEnd.any (span.start.byte < ·) then selectLazyForward fuel next
      else if self.yielded + 1 = count then
        some (.ok (some (.found span (scan.sweep = .wrapped))))
      else
        selectLazyForward fuel
          { next with yielded := self.yielded + 1, lastEnd := some span.stop.byte }
    | .ok (_, _) => some (.ok (self.stopped count wrapscan))

/-- The variables of the backward selection. -/
structure BackwardSelection where
  scan : CandidateScan
  start : Nat := 0
  /-- The last matches before the cursor, at most `count` of them. -/
  ring : List MatchSpan := []
  pushed : Nat := 0
  deriving DecidableEq, Repr

/-- What the matches before the cursor decide. -/
def BackwardSelection.stopped (self : BackwardSelection) : Option Select :=
  let lacking := if !wrapscan then none else some .needFull
  if count ≤ self.pushed then
    match self.ring with
    | span :: _ => some (.found span false)
    | [] => lacking
  else lacking

/-- Steps from the start of the text on and keeps the last matches before the cursor. -/
def selectLazyBackward : Nat → BackwardSelection → Fueled (Option Select)
  | 0, _ => none
  | fuel + 1, self =>
    match self.scan.step findAt text expired self.start with
    | .error error => some (.error error)
    | .ok (.found span, scan) =>
      if cursorByte ≤ span.start.byte then some (.ok (self.stopped count wrapscan))
      else
        selectLazyBackward fuel
          { scan
            start := advanceAfterEnd text span
            ring := (if self.ring.length = count then self.ring.tail else self.ring) ++ [span]
            pushed := self.pushed + 1 }
    | .ok (_, _) => some (.ok (self.stopped count wrapscan))

/-- All matches of one forward sweep. -/
def scanAll : Nat → CandidateScan → Nat → List MatchSpan → Fueled (List MatchSpan)
  | 0, _, _, _ => none
  | fuel + 1, scan, start, all =>
    match scan.step findAt text expired start with
    | .error error => some (.error error)
    | .ok (.found span, scan) => scanAll fuel scan (advanceAfterEnd text span) (all ++ [span])
    | .ok (_, _) => some (.ok all)

end Select

/-- Where the walk through the whole list begins, and whether it has wrapped. -/
def fullStart (found : List MatchSpan) (cursorByte : Nat) (direction : SearchDirection)
    (wrapscan : Bool) : Option (Nat × Bool) :=
  let eligible : Nat → Bool := fun index => (found[index]?).any fun span => match direction with
    | .forward => cursorByte < span.start.byte
    | .backward => span.start.byte < cursorByte
  let indices := List.range found.length
  match (match direction with
    | .forward => indices.find? eligible
    | .backward => indices.reverse.find? eligible) with
  | some index => some (index, false)
  | none =>
    if wrapscan then
      some (match direction with
        | .forward => 0
        | .backward => found.length - 1, true)
    else none

/-- The other `count - 1` steps of the walk through the whole list. -/
def fullWalk (length : Nat) (direction : SearchDirection) (wrapscan : Bool) :
    Nat → Nat × Bool → Option (Nat × Bool)
  | 0, found => some found
  | count + 1, (index, wrapped) =>
    match direction with
    | .forward =>
      if index + 1 < length then fullWalk length direction wrapscan count (index + 1, wrapped)
      else if wrapscan then fullWalk length direction wrapscan count (0, true)
      else none
    | .backward =>
      if 0 < index then fullWalk length direction wrapscan count (index - 1, wrapped)
      else if wrapscan then fullWalk length direction wrapscan count (length - 1, true)
      else none

/-- Selection over the fully collected list. -/
def selectFullIndex (found : List MatchSpan) (cursorByte : Nat) (direction : SearchDirection)
    (count : Nat) (wrapscan : Bool) (pattern : String) : Except SearchError (Nat × Bool) :=
  if found = [] then .error (.patternNotFound pattern)
  else
    match (fullStart found cursorByte direction wrapscan).bind
        (fullWalk found.length direction wrapscan (count - 1)) with
    | some chosen => .ok chosen
    | none => .error (.patternNotFound pattern)

/-! ## The position -/

/-- Parsed search offset. -/
structure SearchOffset where
  useEnd : Bool := false
  characterDelta : Int := 0
  lineDelta : Int := 0
  hasLineOffset : Bool := false
  deriving DecidableEq, Repr

/-- A resolved search match. -/
structure SearchResult where
  target : Position
  useEnd : Bool
  lineDelta : Int
  hasLineOffset : Bool
  wrapped : Bool
  matchStart : Position
  matchEnd : Position
  deriving DecidableEq, Repr

/-- The last boundary before `exclusive`. -/
def previousBoundary (bytes : List UInt8) (exclusive : Nat) : Nat :=
  skipBack (fun i => !isUtf8Boundary bytes i) (min (exclusive - 1) bytes.length)

def shiftForward (bytes : List UInt8) : Nat → Nat → Nat
  | 0, byte => byte
  | count + 1, byte =>
    if bytes.length ≤ byte then byte else shiftForward bytes count (scalarAfter bytes byte)

def shiftBack (bytes : List UInt8) : Nat → Nat → Nat
  | 0, byte => byte
  | count + 1, byte => if byte = 0 then byte else shiftBack bytes count (previousBoundary bytes byte)

/-- Moves by characters, and not behind the last byte. -/
def shiftCharacters (bytes : List UInt8) (start : Nat) (delta : Int) : Nat :=
  let byte := min start bytes.length
  min (if 0 ≤ delta then shiftForward bytes delta.toNat byte else shiftBack bytes delta.natAbs byte)
    (bytes.length - 1)

def editorPosition (here : RegexPosition) : Position := ⟨here.lnum, here.col⟩

/-- The byte that the search offset leads to, a line offset apart. -/
def baseByte (bytes : List UInt8) (offset : SearchOffset) (span : MatchSpan) : Nat :=
  shiftCharacters bytes
    (if offset.useEnd then previousBoundary bytes span.stop.byte else span.start.byte)
    offset.characterDelta

/-- The result for a chosen match. -/
def resolve (lines : List Line) (bytes : List UInt8) (offset : SearchOffset) (span : MatchSpan)
    (wrapped : Bool) : SearchResult :=
  let base := positionOf bytes (baseByte bytes offset span)
  let targetLine := min (max (base.lnum + offset.lineDelta).toNat 1) (max lines.length 1)
  { target :=
      ⟨targetLine,
        if offset.lineDelta = 0 then min base.col ((lines.getD (targetLine - 1) []).length - 1)
        else 0⟩
    useEnd := offset.useEnd
    lineDelta := offset.lineDelta
    hasLineOffset := offset.hasLineOffset
    wrapped
    matchStart := editorPosition (positionOf bytes span.start.byte)
    matchEnd := editorPosition (positionOf bytes span.stop.byte) }

/-! ## A search -/

/-- What a search is asked for. -/
structure Request where
  cursor : Position
  pattern : String
  direction : SearchDirection
  offset : SearchOffset
  count : Nat
  wrapscan : Bool

section Run

variable (engine : Engine) (expired : Nat → Bool) (fuel : Nat)

/-- The match that a request selects, and whether reaching it wrapped. -/
def selectMatch (text : SearchText) (prog : engine.Prog) (request : Request) :
    Fueled (MatchSpan × Bool) :=
  let findAt := engine.tryExecAt prog text.bytes
  let cursorByte := text.byteOf request.cursor
  let count := max request.count 1
  let lazy := match request.direction with
    | .forward =>
      selectLazyForward findAt text expired cursorByte count request.wrapscan fuel
        { scan := { wrap := request.wrapscan }
          start := text.lineStart (max request.cursor.lnum 1) }
    | .backward =>
      selectLazyBackward findAt text expired cursorByte count request.wrapscan fuel
        { scan := { wrap := false } }
  match lazy with
  | none => none
  | some (.error error) => some (.error error)
  | some (.ok none) => some (.error (.patternNotFound request.pattern))
  | some (.ok (some (.found span wrapped))) => some (.ok (span, wrapped))
  | some (.ok (some .needFull)) =>
    match scanAll findAt text expired fuel { wrap := false } 0 [] with
    | none => none
    | some (.error error) => some (.error error)
    | some (.ok found) =>
      match selectFullIndex found cursorByte request.direction count request.wrapscan
          request.pattern with
      | .error error => some (.error error)
      -- no index that is selected is out of range
      | .ok (index, wrapped) => (found[index]?).map fun span => .ok (span, wrapped)

/-- The match that a search in `lines` selects. -/
def selected (lines : List Line) (request : Request) : Fueled (MatchSpan × Bool) :=
  match SearchText.new lines with
  | .error error => some (.error error)
  | .ok text =>
    match engine.compile request.pattern with
    | .error error => some (.error error)
    | .ok prog => selectMatch engine expired fuel text prog request

/-- Runs a search. -/
def run (lines : List Line) (request : Request) : Fueled SearchResult :=
  match selected engine expired fuel lines request with
  | none => none
  | some (.error error) => some (.error error)
  | some (.ok (span, wrapped)) =>
    some (.ok (resolve lines (flatten lines).1 request.offset span wrapped))

end Run

end Oxvim.Editor.Search
