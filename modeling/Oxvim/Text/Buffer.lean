import Oxvim.Lib.EState
import Oxvim.Text.Rope

/-!
# Rope-backed text storage

The buffer of `ox-text`: a rope, the final end-of-line state, and a change counter. Lines are byte
sequences without a line feed; a buffer always has at least one.

A method that takes `&mut self` is a program in `EStateM`, so that the state a failing call leaves
behind is part of its result.
-/

namespace Oxvim.Text

open Lib

/-- A logical line, `Vec<u8>` in the source. -/
abbrev Line := List UInt8

/-- `b'\n'`. -/
def LF : UInt8 := 10

/-- Errors produced by line-oriented buffer operations. -/
inductive BufferError where
  | lineRange (start stop lineCount : Nat)
  | newlineInLine
  | invalidUtf8
  | overlappingSplices
  deriving DecidableEq, Repr

/-- A rope-backed Vim buffer. -/
structure Buffer where
  rope : Rope
  hasEol : Bool
  changedtick : UInt64
  deriving DecidableEq, Repr

/-- One inclusive row replacement in a disjoint batch. -/
structure LineSplice where
  start : Nat
  stop : Nat
  lines : List Line
  deriving DecidableEq, Repr

/-- `std::str::from_utf8`. -/
def fromUtf8 (line : Line) : Except BufferError (List Char) :=
  match Utf8.decode? line with
  | some text => .ok text
  | none => .error .invalidUtf8

def validateLines (lines : List Line) : Except BufferError Unit :=
  if lines.any (·.contains LF) then .error .newlineInLine
  else if lines.any fun line => (Utf8.decode? line).isNone then .error .invalidUtf8
  else .ok ()

/-- Joins validated newline-free logical lines with line-feed separators. -/
def joinLines (lines : List Line) : Except BufferError (List Char) := do
  return joined '\n' (← lines.mapM fromUtf8)

namespace Buffer

/-- An empty, one-line buffer without a final line break. -/
def new : Buffer := { rope := .empty, hasEol := false, changedtick := 0 }

/-- Loads serialized UTF-8 buffer bytes. -/
def fromBytes (bytes : List UInt8) : Except BufferError Buffer :=
  match Utf8.decode? bytes with
  | none => .error .invalidUtf8
  | some text => .ok
    { rope := ⟨text⟩, hasEol := text.getLast? == some '\n', changedtick := 0 }

/-- Builds a buffer from newline-free logical lines. `fromBytes` derives the end-of-line state from
the joined text, which is wrong when the last line is empty, so the caller's is put back. -/
def fromLines (lines : List Line) (hasEol : Bool) : Except BufferError Buffer := do
  let normalized := if lines.isEmpty then [[]] else lines
  let bytes := joined LF normalized ++ (if hasEol then [LF] else [])
  let buffer ← fromBytes bytes
  return { buffer with hasEol }

/-- The number of logical lines. -/
def lineCount (self : Buffer) : Nat :=
  let ropeLines := self.rope.lenLines
  if self.hasEol && decide (1 < ropeLines) then ropeLines - 1 else ropeLines

def checkLine (self : Buffer) (lnum : Nat) : Except BufferError Unit :=
  if lnum = 0 ∨ self.lineCount < lnum then .error (.lineRange lnum lnum self.lineCount) else .ok ()

def checkRange (self : Buffer) (start stop : Nat) : Except BufferError Unit :=
  if start = 0 ∨ stop < start ∨ self.lineCount < stop then
    .error (.lineRange start stop self.lineCount)
  else .ok ()

/-- One logical line without its line break. -/
def line (self : Buffer) (lnum : Nat) : Except BufferError Line := do
  self.checkLine lnum
  let bytes := Utf8.encode (self.rope.line (lnum - 1))
  return if bytes.getLast? == some LF then bytes.dropLast else bytes

/-- Serializes the buffer using line-feed separators. -/
def toBytes (self : Buffer) : List UInt8 := Utf8.encode self.rope.chars

/-- The zero-based serialized byte offset of a one-based line. One past the line count is the EOF
pseudo-line, which maps to the full serialized length. -/
def byteOfLine (self : Buffer) (lnum : Nat) : Except BufferError Nat :=
  let lineCount := self.lineCount
  if lnum = 0 ∨ lineCount + 1 < lnum then .error (.lineRange lnum lnum lineCount)
  else if lnum = lineCount + 1 then .ok self.rope.lenBytes
  else .ok (self.rope.lineToByte (lnum - 1))

/-- The character offset at which one-based logical line `lnum` begins; one past the line count maps
to the rope end. -/
def charOfLine (self : Buffer) (lnum : Nat) : Nat :=
  if self.rope.lenLines < lnum then self.rope.lenChars else self.rope.lineToChar (lnum - 1)

def bumpChangedtick : EStateM BufferError Buffer Unit :=
  modify fun self => { self with changedtick := self.changedtick + 1 }

/-- The character range that `spliceSpan` removes. A deletion of the last lines of a text without
final line break has to swallow the separator before `start`: the final line carries none. -/
def spliceRange (self : Buffer) (start stop : Nat) (lines : List Line) : Nat × Nat :=
  let start' := self.charOfLine start
  let stop' := self.charOfLine (stop + 1)
  if lines.isEmpty && decide (stop = self.lineCount) && !decide (start = 1) && !self.hasEol then
    (start' - 1, stop')
  else (start', stop')

def spliceSpan (start stop : Nat) (lines : List Line) : EStateM BufferError Buffer Unit := do
  let self ← get
  let lineCount := self.lineCount
  let text ← MonadExcept.ofExcept (joinLines lines)
  -- The replacement keeps a terminator of its own when text or end-of-line state follows it.
  let text := if !lines.isEmpty && (decide (stop < lineCount) || self.hasEol) then text ++ ['\n']
    else text
  let (start', stop') := self.spliceRange start stop lines
  let hasEol := if lines.isEmpty && decide (stop = lineCount) && decide (start = 1) then false
    else self.hasEol
  let rope := self.rope.remove start' stop'
  let rope := if text.isEmpty then rope else rope.insert start' text
  set { self with rope, hasEol }

/-- Replaces the inclusive line range with newline-free logical lines. -/
def replaceLines (start stop : Nat) (lines : List Line) : EStateM BufferError Buffer Unit := do
  MonadExcept.ofExcept ((← get).checkRange start stop)
  MonadExcept.ofExcept (validateLines lines)
  spliceSpan start stop lines
  bumpChangedtick

/-- The validation loop of `replaceLinesDisjoint`. -/
def checkSplices (self : Buffer) (prevEnd : Option Nat) : List LineSplice → Except BufferError Unit
  | [] => .ok ()
  | splice :: splices => do
    self.checkRange splice.start splice.stop
    validateLines splice.lines
    if prevEnd.any fun prev => splice.start ≤ prev then .error .overlappingSplices
    else checkSplices self (some splice.stop) splices

/-- Applies splices one after the other. -/
def spliceSpans : List LineSplice → EStateM BufferError Buffer Unit
  | [] => pure ()
  | splice :: splices => do
    spliceSpan splice.start splice.stop splice.lines
    spliceSpans splices

/-- Checks every splice against the pre-edit line map, then mutates bottom-up so earlier row numbers
stay stable. -/
def replaceLinesDisjoint (splices : List LineSplice) : EStateM BufferError Buffer Unit := do
  MonadExcept.ofExcept (checkSplices (← get) none splices)
  spliceSpans splices.reverse
  if splices.isEmpty then pure () else bumpChangedtick

/-- Inserts logical lines after `lnum`; zero inserts before the first line. -/
def appendLines (lnum : Nat) (lines : List Line) : EStateM BufferError Buffer Unit := do
  let self ← get
  let lineCount := self.lineCount
  if lineCount < lnum then throw (.lineRange lnum lnum lineCount)
  MonadExcept.ofExcept (validateLines lines)
  if !lines.isEmpty then
    let text ← MonadExcept.ofExcept (joinLines lines)
    -- Appending past an unterminated final line: the block brings the separator that line lacks
    -- ahead of itself.
    let text := if decide (lnum = lineCount) && !self.hasEol then '\n' :: text else text ++ ['\n']
    set { self with rope := self.rope.insert (self.charOfLine (lnum + 1)) text }
  bumpChangedtick

/-- Deletes an inclusive range of logical lines. -/
def deleteLines (start stop : Nat) : EStateM BufferError Buffer Unit :=
  replaceLines start stop []

/-- Changes final-EOL state and counts it as one mutation. -/
def setEol (self : Buffer) (hasEol : Bool) : Buffer :=
  let len := self.rope.lenChars
  let rope :=
    if self.hasEol = hasEol then self.rope
    else if hasEol then self.rope.insert len ['\n']
    else if len ≠ 0 then self.rope.remove (len - 1) len
    else self.rope
  { rope, hasEol, changedtick := self.changedtick + 1 }

end Buffer

end Oxvim.Text
