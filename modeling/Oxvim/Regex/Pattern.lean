import Oxvim.Lib.Utf8

/-!
# Patterns and texts

What a parsed pattern is, the text it is matched against, and what a thread of a match carries. Offsets
count bytes.

The Unicode classes and the lower-case mapping are a parameter.
-/

namespace Oxvim.Regex

open Lib

/-! ## Patterns -/

inductive LookKind where
  | ahead
  | notAhead
  | behind
  | notBehind
  | atomic
  deriving DecidableEq

inductive Compare where
  | equal
  | less
  | greater
  deriving DecidableEq

inductive Anchor where
  | lineStart
  | lineEnd
  | fileStart
  | fileEnd
  | wordStart
  | wordEnd
  | line (compare : Compare) (expected : Nat)
  | column (compare : Compare) (expected : Nat)
  | virtualColumn (compare : Compare) (expected : Nat)
  | visual
  | cursor
  | mark (name : Char)
  deriving DecidableEq

inductive ClassKind where
  | alnum
  | alpha
  | blank
  | cntrl
  | digit
  | graph
  | lower
  | print
  | punct
  | space
  | upper
  | xdigit
  | word
  | head
  | octal
  | hex
  | ident
  | identNoDigit
  | keyword
  | keywordNoDigit
  | file
  | fileNoDigit
  | printNoDigit
  deriving DecidableEq

inductive ClassItem where
  | char (c : Char)
  | range (first last : Char)
  | kind (kind : ClassKind)
  deriving DecidableEq

structure CharClass where
  negated : Bool
  includeNewline : Bool
  items : List ClassItem
  deriving DecidableEq

inductive Expr where
  | empty
  | literal (c : Char)
  | any (newline : Bool)
  | class (charClass : CharClass)
  | concat (parts : List Expr)
  | alt (branches : List Expr)
  | and (parts : List Expr)
  | repeat (expr : Expr) (min : Nat) (max : Option Nat) (greedy : Bool)
  | group (index : Option Nat) (expr : Expr)
  | optionalSeq (parts : List Expr)
  | anchor (anchor : Anchor)
  | look (expr : Expr) (kind : LookKind) (limit : Option Nat)
  | backref (index : Nat)
  | setStart
  | setEnd

/-! ## Texts -/

/-- What the standard library knows of Unicode characters. -/
structure CharTables where
  toLowercase : Char → List Char
  isAlphanumeric : Char → Bool
  isAlphabetic : Char → Bool
  isControl : Char → Bool
  isWhitespace : Char → Bool
  isLowercase : Char → Bool
  isUppercase : Char → Bool
  isNumeric : Char → Bool

/-- The input of a search, with the places that a pattern can ask for. -/
structure Text where
  chars : List Char
  cursor : Option Nat
  visual : Option (Nat × Nat)
  marks : Char → Option Nat

/-- A location in the input: the line counts from one. -/
structure Position where
  lnum : Nat
  col : Nat
  byte : Nat
  deriving DecidableEq

/-- `text.get(offset..)`. -/
def charsFrom : (chars : List Char) → (offset : Nat) → Option (List Char)
  | chars, 0 => some chars
  | [], _ + 1 => none
  | c :: chars, offset + 1 =>
    if c.utf8Size ≤ offset + 1 then charsFrom chars (offset + 1 - c.utf8Size) else none

/-- `text.get(..offset)`. -/
def charsTo : (chars : List Char) → (offset : Nat) → Option (List Char)
  | _, 0 => some []
  | [], _ + 1 => none
  | c :: chars, offset + 1 =>
    if c.utf8Size ≤ offset + 1 then (charsTo chars (offset + 1 - c.utf8Size)).map (c :: ·) else none

def byteLength (chars : List Char) : Nat := (chars.map Char.utf8Size).sum

namespace Text

variable (text : Text)

def asBytes : List UInt8 := Utf8.encode text.chars

def length : Nat := byteLength text.chars

def validBoundary (byte : Nat) : Bool := (charsTo text.chars byte).isSome

/-- Where the lines begin. -/
def lineStarts : List Nat :=
  0 :: (text.asBytes.zipIdx.filter fun (byte, _) => byte == '\n'.toUInt8).map fun (_, i) => i + 1

def position (byte : Nat) : Option Position :=
  if text.validBoundary byte then
    let line := (text.lineStarts.filter (· ≤ byte)).length - 1
    some ⟨line + 1, byte - text.lineStarts.getD line 0, byte⟩
  else none

end Text

def nextChar (text : List Char) (offset : Nat) : Option (Char × Nat) :=
  match charsFrom text offset with
  | some (c :: _) => some (c, offset + c.utf8Size)
  | _ => none

def previousChar (text : List Char) (offset : Nat) : Option Char :=
  (charsTo text offset).bind List.getLast?

/-- The offsets of the characters from one on, and of the end. -/
def charOffsets : (text : List Char) → (offset : Nat) → List Nat
  | [], offset => [offset]
  | c :: text, offset => offset :: charOffsets text (offset + c.utf8Size)

def candidateOffsets (text : List Char) (start : Nat) : List Nat :=
  (charOffsets text 0).filter (start ≤ ·)

/-! ## Tests of one character -/

def isWord (tables : CharTables) (c : Char) : Bool := c == '_' || tables.isAlphanumeric c

def charsEqual (tables : CharTables) (expected actual : Char) (ignoreCase : Bool) : Bool :=
  expected == actual ||
    (ignoreCase && tables.toLowercase expected == tables.toLowercase actual)

def simpleLower (tables : CharTables) (c : Char) : Char := (tables.toLowercase c).headD c

def isAsciiPunctuation (c : Char) : Bool :=
  ('!' ≤ c && c ≤ '/') || (':' ≤ c && c ≤ '@') || ('[' ≤ c && c ≤ '\x60') || ('\x7b' ≤ c && c ≤ '~')

def isAsciiHexdigit (c : Char) : Bool :=
  c.isDigit || ('a' ≤ c && c ≤ 'f') || ('A' ≤ c && c ≤ 'F')

def kindMatches (tables : CharTables) (kind : ClassKind) (c : Char) : Bool :=
  match kind with
  | .alnum => tables.isAlphanumeric c
  | .alpha => tables.isAlphabetic c
  | .blank => c == ' ' || c == '\t'
  | .cntrl => tables.isControl c
  | .digit => c.isDigit
  | .graph | .file => !tables.isControl c && !tables.isWhitespace c
  | .lower => tables.isLowercase c
  | .print => !tables.isControl c
  | .punct => isAsciiPunctuation c
  | .space => c == ' ' || c == '\t'
  | .upper => tables.isUppercase c
  | .xdigit | .hex => isAsciiHexdigit c
  | .word => isWord tables c
  | .head => c == '_' || tables.isAlphabetic c
  | .octal => '0' ≤ c && c ≤ '7'
  | .ident => c == '_' || tables.isAlphanumeric c
  | .keyword => c == '_' || tables.isAlphanumeric c || !decide (c.toNat < 128)
  | .identNoDigit => c == '_' || (tables.isAlphabetic c && !tables.isNumeric c)
  | .keywordNoDigit =>
    c == '_' || !decide (c.toNat < 128) || (tables.isAlphabetic c && !tables.isNumeric c)
  | .fileNoDigit => !tables.isControl c && !tables.isWhitespace c && !tables.isNumeric c
  | .printNoDigit => !tables.isControl c && !tables.isNumeric c

def itemMatches (tables : CharTables) (ignoreCase : Bool) (c : Char) : ClassItem → Bool
  | .char expected => charsEqual tables expected c ignoreCase
  | .range first last =>
    if ignoreCase then
      let folded := simpleLower tables c
      simpleLower tables first ≤ folded && folded ≤ simpleLower tables last
    else first ≤ c && c ≤ last
  | .kind kind => kindMatches tables kind c

def classMatches (tables : CharTables) (charClass : CharClass) (c : Char) (ignoreCase : Bool) : Bool :=
  if c == '\n' then charClass.includeNewline
  else charClass.items.any (itemMatches tables ignoreCase c) != charClass.negated

/-! ## Anchors -/

/-- Where the line before an offset begins: behind the last line feed before it. -/
def lineStartBefore (bytes : List UInt8) (offset : Nat) : Nat :=
  match (bytes.take offset).reverse.findIdx? (· == '\n'.toUInt8) with
  | some fromEnd => min offset bytes.length - fromEnd
  | none => 0

def previousLineStart (text : Text) (offset : Nat) : Nat :=
  let currentStart := lineStartBefore text.asBytes offset
  if currentStart = 0 then 0 else lineStartBefore text.asBytes (currentStart - 1)

def lookbehindEarliest (text : Text) (pos : Nat) (limit : Option Nat) : Nat :=
  match limit with
  | none => previousLineStart text pos
  | some limit =>
    let lineStart := lineStartBefore text.asBytes pos
    if limit ≤ pos - lineStart then pos - limit
    else max (lineStart - 1 - limit) (previousLineStart text pos)

def virtualColumn (text : Text) (offset : Nat) : Nat :=
  let lineStart := lineStartBefore text.asBytes offset
  let line := ((charsFrom text.chars lineStart).bind fun rest => charsTo rest (offset - lineStart)).getD []
  line.foldl (fun column c => column + if c == '\t' then 8 - column % 8 else 1) 0 + 1

def compareNumber (compare : Compare) (actual expected : Nat) : Bool :=
  match compare with
  | .equal => actual == expected
  | .less => actual < expected
  | .greater => expected < actual

def anchorMatches (tables : CharTables) (anchor : Anchor) (offset : Nat) (text : Text) : Bool :=
  match anchor with
  | .lineStart => offset == 0 || text.asBytes[offset - 1]? == some '\n'.toUInt8
  | .lineEnd => offset == text.asBytes.length || text.asBytes[offset]? == some '\n'.toUInt8
  | .fileStart => offset == 0
  | .fileEnd => offset == text.asBytes.length
  | .wordStart =>
    ((nextChar text.chars offset).any fun (c, _) => isWord tables c) &&
      (previousChar text.chars offset).all fun c => !isWord tables c
  | .wordEnd =>
    (previousChar text.chars offset).any (isWord tables) &&
      (nextChar text.chars offset).all fun (c, _) => !isWord tables c
  | .line compare expected =>
    (text.position offset).any fun pos => compareNumber compare pos.lnum expected
  | .column compare expected =>
    (text.position offset).any fun pos => compareNumber compare (pos.col + 1) expected
  | .virtualColumn compare expected => compareNumber compare (virtualColumn text offset) expected
  | .visual => text.visual.any fun (start, stop) => start ≤ offset && offset ≤ stop
  | .cursor => text.cursor == some offset
  | .mark name => text.marks name == some offset

/-! ## Threads -/

/-- Where a match has come to, with its captures. -/
structure State where
  pos : Nat
  captures : List (Option (Nat × Nat))
  opens : List (Option Nat)
  startOverride : Option Nat
  endOverride : Option Nat
  deriving DecidableEq

namespace State

def new (pos captureCount : Nat) : State where
  pos := pos
  captures := List.replicate captureCount none
  opens := List.replicate captureCount none
  startOverride := none
  endOverride := none

def setSearchStart (self : State) (pos : Nat) : State :=
  if self.startOverride.isNone then { self with startOverride := some pos } else self

def openCapture (self : State) (index : Nat) : State :=
  { self with opens := self.opens.set (index - 1) (some self.pos) }

def closeCapture (self : State) (index : Nat) : State :=
  match self.opens[index - 1]? with
  | some (some start) =>
    { self with captures := self.captures.set (index - 1) (some (start, self.pos)) }
  | _ => self

def setMatchStart (self : State) : State := { self with startOverride := some self.pos }

def setMatchEnd (self : State) : State := { self with endOverride := some self.pos }

end State

structure Capture where
  start : Position
  stop : Position
  deriving DecidableEq

structure Match where
  start : Position
  stop : Position
  captures : List (Option Capture)
  deriving DecidableEq

/-- The match that a state stands for. -/
def State.intoMatch (self : State) (text : Text) (captureCount : Nat) : Match :=
  let start := (text.position (self.startOverride.getD 0)).getD ⟨1, 0, 0⟩
  { start
    stop := (text.position (self.endOverride.getD self.pos)).getD start
    captures := (self.captures.take captureCount).map fun span => do
      let (first, last) ← span
      some ⟨← text.position first, ← text.position last⟩ }

/-! ## Programs -/

inductive ExecError where
  | stepLimit
  | recursionLimit
  deriving DecidableEq

inductive Engine where
  | nfa
  | backtracking
  deriving DecidableEq

/-- A parsed pattern with what it is executed under. -/
structure Prog where
  expr : Expr
  captureCount : Nat
  ignoreCase : Bool
  engine : Engine
  hasBackref : Bool
  stepLimit : Nat
  depthLimit : Nat

/-- The anchor a pattern begins with, if it is one of a line or the file. -/
def leadingAnchor : Expr → Option Anchor
  | .anchor .lineStart => some .lineStart
  | .anchor .fileStart => some .fileStart
  | .concat (part :: _) => leadingAnchor part
  | .group _ expr => leadingAnchor expr
  | _ => none

def anchorAllows (anchor : Option Anchor) (text : Text) (offset : Nat) : Bool :=
  match anchor with
  | some .fileStart => offset == 0
  | some .lineStart => offset == 0 || text.asBytes[offset - 1]? == some '\n'.toUInt8
  | _ => true

end Oxvim.Regex
