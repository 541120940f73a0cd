import Oxvim.Text.Buffer

/-!
# Registers

The register bank: values of three shapes, the names of the registers, and what yanks, deletes and
`setreg()` do to the bank. The unnamed register stores nothing; it is read through the register that
the last write landed in.
-/

namespace Oxvim.Editor

open Lib Text

/-! ## Contents -/

/-- The shape of text stored in a register. -/
inductive RegisterKind where
  | characterWise
  | lineWise
  | blockWise (width : Nat)
  deriving DecidableEq, Repr

/-- Text held by a register. -/
structure RegisterContent where
  kind : RegisterKind
  lines : List Line
  deriving DecidableEq, Repr

/-- Failures of register operations. -/
inductive RegisterError where
  | invalidName (name : Char)
  | invalidUtf8
  | newlineInLine
  | invalidBlockWidth (width : Nat)
  | columnOutOfBounds (lnum col lineLen : Nat)
  | notCharBoundary (lnum col : Nat)
  | positionOverflow
  | providerRequired (name : Char)
  | clipboard (message : String)
  deriving DecidableEq, Repr

def validateRegisterLine (line : Line) : Except RegisterError Unit :=
  if line.contains LF then .error .newlineInLine
  else match Utf8.decode? line with
    | some _ => .ok ()
    | none => .error .invalidUtf8

namespace RegisterContent

/-- The declared rectangle cannot contain all rows. -/
def tooNarrow (kind : RegisterKind) (lines : List Line) : Option Nat :=
  match kind with
  | .blockWise width => if width = 0 || lines.any (width < ·.length) then some width else none
  | _ => none

/-- Creates register content from newline-free logical lines. -/
def new (kind : RegisterKind) (lines : List Line) : Except RegisterError RegisterContent := do
  let lines := if lines.isEmpty then [[]] else lines
  lines.forM validateRegisterLine
  match tooNarrow kind lines with
  | some width => throw (.invalidBlockWidth width)
  | none => return { kind, lines }

/-- The rows of a text. -/
def textRows (bytes : Line) : Except RegisterError (List Line) :=
  match Utf8.decode? bytes with
  | some text => .ok ((text.splitOn '\n').map Utf8.encode)
  | none => .error .invalidUtf8

def characterwise (bytes : Line) : Except RegisterError RegisterContent := do
  new .characterWise (← textRows bytes)

/-- Infers the shape of a register from serialized text. A final line feed is structural; a final
carriage return also selects linewise storage, but remains text. -/
def fromText (bytes : Line) : Except RegisterError RegisterContent := do
  let linewise := bytes.getLast?.any fun byte => byte = LF || byte = 13
  let bytes := if bytes.getLast? = some LF then bytes.dropLast else bytes
  let rows ← textRows bytes
  new (if linewise then .lineWise else .characterWise) rows

def linewise (lines : List Line) : Except RegisterError RegisterContent := new .lineWise lines

def blockwise (lines : List Line) (width : Nat) : Except RegisterError RegisterContent :=
  new (.blockWise width) lines

/-- Serializes the rows with line-feed separators. -/
def toBytes (self : RegisterContent) : Line := joined LF self.lines

/-- The first incoming row continues the last row, and the other incoming rows follow. -/
def joinRows (lines incoming : List Line) : List Line :=
  match incoming with
  | [] => lines
  | first :: rest =>
    match lines.getLast? with
    | none => incoming
    | some last => lines.dropLast ++ (last ++ first) :: rest

/-- The width of the rows that are appended to a block. -/
def incomingWidth (other : RegisterContent) : Nat :=
  match other.kind with
  | .blockWise width => width
  | _ => other.lines.foldl (fun widest line => max widest line.length) 0

def append (self other : RegisterContent) : RegisterContent :=
  match other.kind, self.kind with
  | .lineWise, .characterWise => { kind := .lineWise, lines := joinRows self.lines other.lines }
  | .lineWise, _ => { kind := .lineWise, lines := self.lines ++ other.lines }
  | _, .characterWise => { self with lines := joinRows self.lines other.lines }
  | _, .blockWise width =>
    { kind := .blockWise (max width other.incomingWidth), lines := self.lines ++ other.lines }
  | _, .lineWise => { self with lines := self.lines ++ other.lines }

/-- Appending by `setreg()` adopts the incoming kind. -/
def appendFromSetreg (self other : RegisterContent) : RegisterContent :=
  { self.append other with kind := other.kind }

end RegisterContent

/-! ## Names -/

-- the numerals of `Fin 10` name the registers `0` to `9`
instance tenSlots : NeZero 10 := ⟨by decide⟩

/-- One of the two selection registers. -/
inductive Selection where
  | primary
  | clipboard
  deriving DecidableEq

inductive RegisterName where
  | named (index : Fin 26) (append : Bool)
  | numbered (index : Fin 10)
  | unnamed
  | smallDelete
  | blackHole
  | expression
  | selection (selection : Selection)
  | searchPattern
  | commandLine
  | insertContent
  | alternateFile
  | currentFile
  deriving DecidableEq

namespace RegisterName

def tryFrom (name : Char) : Except RegisterError RegisterName :=
  if 'a' ≤ name ∧ name ≤ 'z' then .ok (.named (Fin.ofNat 26 (name.toNat - 'a'.toNat)) false)
  else if 'A' ≤ name ∧ name ≤ 'Z' then .ok (.named (Fin.ofNat 26 (name.toNat - 'A'.toNat)) true)
  else if '0' ≤ name ∧ name ≤ '9' then .ok (.numbered (Fin.ofNat 10 (name.toNat - '0'.toNat)))
  else match name with
    | '"' => .ok .unnamed
    | '-' => .ok .smallDelete
    | '_' => .ok .blackHole
    | '=' => .ok .expression
    | '*' => .ok (.selection .primary)
    | '+' => .ok (.selection .clipboard)
    | '/' => .ok .searchPattern
    | ':' => .ok .commandLine
    | '.' => .ok .insertContent
    | '#' => .ok .alternateFile
    | '%' => .ok .currentFile
    | _ => .error (.invalidName name)

/-- The name by which the unnamed register can point at a register. -/
def unnamedPointerName : RegisterName → Option Char
  | named index _ => some (Char.ofNat ('a'.toNat + index))
  | numbered index => some (Char.ofNat ('0'.toNat + index))
  | smallDelete => some '-'
  | unnamed => some '0'
  | selection .primary => some '*'
  | selection .clipboard => some '+'
  | _ => none

end RegisterName

/-! ## The bank -/

/-- What the unnamed register reads through: a stored register, or what a write has sent to the
clipboard. -/
inductive UnnamedTarget where
  | slot (name : Char)
  | providerSnapshot (name : Char) (content : RegisterContent)

/-- The local register bank. -/
structure Registers where
  named : Fin 26 → Option RegisterContent
  numbered : Fin 10 → Option RegisterContent
  unnamedTarget : Option UnnamedTarget
  smallDelete : Option RegisterContent
  expressionSource : Option Line
  searchPattern : Option RegisterContent
  commandLine : Option RegisterContent
  insertContent : Option RegisterContent

/-- Replaces or appends. -/
def writeSlot (slot : Option RegisterContent) (content : RegisterContent) (append : Bool) :
    Option RegisterContent :=
  match slot with
  | some existing => if append then some (existing.append content) else some content
  | none => some content

def appendSlotFromSetreg (slot : Option RegisterContent) (content : RegisterContent) :
    Option RegisterContent :=
  match slot with
  | some existing => some (existing.appendFromSetreg content)
  | none => some content

def appendSlotFromSetregIf (slot : Option RegisterContent) (content : RegisterContent)
    (append : Bool) : Option RegisterContent :=
  if append then appendSlotFromSetreg slot content else some content

namespace Registers

def new : Registers where
  named := fun _ => none
  numbered := fun _ => none
  unnamedTarget := none
  smallDelete := none
  expressionSource := none
  searchPattern := none
  commandLine := none
  insertContent := none

/-- The content stored under a name that the unnamed register can point at. -/
def stored (self : Registers) : RegisterName → Option RegisterContent
  | .named index _ => self.named index
  | .numbered index => self.numbered index
  | .smallDelete => self.smallDelete
  | .searchPattern => self.searchPattern
  | .commandLine => self.commandLine
  | .insertContent => self.insertContent
  | _ => none

/-- Resolves the unnamed register through its current target, which is never the unnamed register. -/
def unnamedSlot (self : Registers) : Option RegisterContent :=
  match self.unnamedTarget with
  | none => none
  | some (.slot name) => (RegisterName.tryFrom name).toOption.bind self.stored
  | some (.providerSnapshot _ content) => some content

/-- Returns stored content. Provider-backed registers have none. -/
def get (self : Registers) (name : Char) : Except RegisterError (Option RegisterContent) := do
  match ← RegisterName.tryFrom name with
  | .unnamed => return self.unnamedSlot
  | parsed => return self.stored parsed

/-- Stores content in a writable register. Uppercase names append. -/
def set (self : Registers) (name : Char) (content : RegisterContent) :
    Except RegisterError Registers := do
  match ← RegisterName.tryFrom name with
  | .named index append =>
    return { self with
      named := Function.update self.named index (writeSlot (self.named index) content append) }
  | .numbered index =>
    return { self with numbered := Function.update self.numbered index (some content) }
  | .unnamed =>
    return { self with
      numbered := Function.update self.numbered 0 (some content)
      unnamedTarget := some (.slot '0') }
  | .smallDelete => return { self with smallDelete := some content }
  | .blackHole => return self
  | .expression => return { self with expressionSource := some content.toBytes }
  | .searchPattern => return { self with searchPattern := some content }
  | .commandLine => return { self with commandLine := some content }
  | .insertContent => return { self with insertContent := some content }
  | .selection _ => throw (.providerRequired name)
  | .alternateFile | .currentFile => throw (.invalidName name)

/-- Records an ordinary yank in register `0` and points the unnamed register at it. -/
def yank (self : Registers) (content : RegisterContent) : Registers :=
  { self with
    numbered := Function.update self.numbered 0 (some content)
    unnamedTarget := some (.slot '0') }

/-- Points the unnamed register at a register, when it can. -/
def pointAt (self : Registers) (parsed : RegisterName) : Registers :=
  match parsed.unnamedPointerName with
  | some target => { self with unnamedTarget := some (.slot target) }
  | none => self

/-- Records a yank in an explicit register and points the unnamed register at it. -/
def yankTo (self : Registers) (name : Char) (content : RegisterContent) :
    Except RegisterError Registers := do
  let parsed ← RegisterName.tryFrom name
  if parsed = .blackHole then return self
  else return (← self.set name content).pointAt parsed

/-- Records a yank; a selection goes to the clipboard, which answers `published`. -/
def yankToWithClipboard (self : Registers) (name : Char) (content : RegisterContent)
    (published : Except RegisterError Unit) : Except RegisterError Registers := do
  match ← RegisterName.tryFrom name with
  | .selection selection =>
    published
    let name := match selection with
      | .primary => '*'
      | .clipboard => '+'
    return { self with unnamedTarget := some (.providerSnapshot name content) }
  | _ => self.yankTo name content

/-- A one-row characterwise deletion. -/
def isSmall (content : RegisterContent) : Bool :=
  content.kind = .characterWise && content.lines.length = 1

/-- Registers `1` to `8` move to `2` to `9`. -/
def shift (numbered : Fin 10 → Option RegisterContent) : Fin 10 → Option RegisterContent :=
  [9, 8, 7, 6, 5, 4, 3, 2].foldl (fun numbered destination =>
    Function.update numbered destination (numbered (destination - 1))) numbered

/-- Records a delete using the small-delete and numbered rotation rules. -/
def delete (self : Registers) (content : RegisterContent) : Registers :=
  if isSmall content then
    { self with smallDelete := some content, unnamedTarget := some (.slot '-') }
  else
    { self with
      numbered := Function.update (shift self.numbered) 1 (some content)
      unnamedTarget := some (.slot '1') }

/-- Records a delete in an explicit register and updates unnamed. -/
def deleteTo (self : Registers) (name : Char) (content : RegisterContent) :
    Except RegisterError Registers :=
  self.yankTo name content

/-- Points the unnamed register at a register; other names leave the target unchanged. -/
def setUnnamedTarget (self : Registers) (name : Char) : Registers :=
  match RegisterName.tryFrom name with
  | .ok parsed => self.pointAt parsed
  | .error _ => self

/-- Stores `setreg()` content. -/
def setFromSetreg (self : Registers) (name : Char) (content : RegisterContent) (append : Bool) :
    Except RegisterError Registers := do
  match ← RegisterName.tryFrom name with
  | .named index uppercase =>
    return { self with
      named := Function.update self.named index
        (appendSlotFromSetregIf (self.named index) content (append || uppercase)) }
  | .numbered index =>
    return { self with
      numbered := Function.update self.numbered index
        (appendSlotFromSetregIf (self.numbered index) content append) }
  | .unnamed =>
    return { self with
      numbered := Function.update self.numbered 0
        (appendSlotFromSetregIf (self.numbered 0) content append)
      unnamedTarget := some (.slot '0') }
  | .smallDelete =>
    return { self with smallDelete := appendSlotFromSetregIf self.smallDelete content append }
  | .expression =>
    let incoming := content.toBytes
    return { self with
      expressionSource :=
        if append then some ((self.expressionSource.getD []) ++ incoming) else some incoming }
  | .searchPattern =>
    return { self with searchPattern := appendSlotFromSetregIf self.searchPattern content append }
  | .commandLine =>
    return { self with commandLine := appendSlotFromSetregIf self.commandLine content append }
  | .insertContent =>
    return { self with insertContent := appendSlotFromSetregIf self.insertContent content append }
  | _ => self.set name content

end Registers

end Oxvim.Editor
