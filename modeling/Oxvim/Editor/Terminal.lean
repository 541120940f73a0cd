import Oxvim.Lib.RowMajor
import Oxvim.Lib.Usize
import Oxvim.Lib.Utf8Char

/-!
# The terminal screen

Bytes of a child process go in, screen cells are updated, and the touched rows are recorded as damage. The
parse state is kept between writes, so that a sequence that is split between two reads goes on.

The cells are in memory, so that row and column sums are far below the bounds of `usize` and are plain sums
here. How many columns a character takes is a parameter, `width`; a copy that leaves the cells would panic,
which `panicked` records.
-/

namespace Oxvim.Editor

open Lib RowMajor

/-- Power-on tab stop interval. -/
def TAB_WIDTH : Nat := 8

/-- Upper bound on parameters kept for one control sequence. -/
def MAX_CSI_PARAMS : Nat := 32

/-- Default scrollback budget. -/
def DEFAULT_SCROLLBACK : Nat := 10000

/-! ## Cells -/

/-- One screen colour. -/
inductive TermColor where
  | default
  | indexed (index : UInt8)
  | rgb (red green blue : UInt8)
  deriving DecidableEq, Repr

/-- Boolean attributes of one cell. -/
structure CellFlags where
  bits : UInt16
  deriving DecidableEq, Repr

namespace CellFlags

def BOLD : CellFlags := ⟨1⟩
def ITALIC : CellFlags := ⟨2⟩
def UNDERLINE : CellFlags := ⟨4⟩
def UNDERCURL : CellFlags := ⟨8⟩
def UNDERDOUBLE : CellFlags := ⟨16⟩
def REVERSE : CellFlags := ⟨32⟩
def STRIKETHROUGH : CellFlags := ⟨64⟩
def BLINK : CellFlags := ⟨128⟩
def FAINT : CellFlags := ⟨256⟩

/-- Lead cell of a double-width glyph; the following cell is its tail. -/
def WIDE : CellFlags := ⟨512⟩

/-- Every underline style. -/
def UNDERLINES : CellFlags := ⟨UNDERLINE.bits ||| UNDERCURL.bits ||| UNDERDOUBLE.bits⟩

def empty : CellFlags := ⟨0⟩

def contains (self other : CellFlags) : Bool := self.bits &&& other.bits == other.bits

def union (self other : CellFlags) : CellFlags := ⟨self.bits ||| other.bits⟩

def without (self other : CellFlags) : CellFlags := ⟨self.bits &&& ~~~other.bits⟩

def isEmpty (self : CellFlags) : Bool := self.bits == 0

end CellFlags

/-- The pen a cell was written with. -/
structure CellAttrs where
  foreground : TermColor
  background : TermColor
  flags : CellFlags
  deriving DecidableEq, Repr

namespace CellAttrs

/-- `CellAttrs::default`. -/
def default : CellAttrs := ⟨.default, .default, .empty⟩

/-- Whether this pen needs no highlight; `WIDE` is a layout marker. -/
def isDefault (self : CellAttrs) : Bool :=
  self.foreground = .default && self.background = .default && (self.flags.without .WIDE).isEmpty

end CellAttrs

/-- One screen cell. It has no glyph when it was never written, and as the tail of a double-width glyph. -/
structure Cell where
  ch : Option Char
  attrs : CellAttrs
  deriving DecidableEq, Repr

namespace Cell

/-- A cell that was never written. -/
def EMPTY : Cell := ⟨none, .default⟩

/-- No glyph, but the erasing pen's background. -/
def erased (attrs : CellAttrs) : Cell := ⟨none, .default, attrs.background, .empty⟩

end Cell

/-! ## Rendering -/

/-- A run of bytes in a rendered line that shares one pen. -/
structure AttrSpan where
  start : Nat
  stop : Nat
  attrs : CellAttrs
  deriving DecidableEq, Repr

/-- One screen or scrollback row in buffer-line form. -/
structure RenderedRow where
  text : List UInt8
  spans : List AttrSpan
  deriving DecidableEq, Repr

namespace RenderedRow

/-- The line so far, and where its last glyph ends. -/
structure Draft where
  text : List UInt8
  spans : List AttrSpan
  written : Nat

/-- Extends the last span, or begins another one. -/
def addSpan (spans : List AttrSpan) (start stop : Nat) (attrs : CellAttrs) : List AttrSpan :=
  match spans.getLast? with
  | some last =>
    if last.stop = start ∧ last.attrs = attrs then spans.dropLast ++ [{ last with stop }]
    else spans ++ [⟨start, stop, attrs⟩]
  | none => spans ++ [⟨start, stop, attrs⟩]

/-- Adds one cell. -/
def Draft.add (self : Draft) (cell : Cell) : Draft :=
  let text := self.text ++ cell.ch.elim [0x20] String.utf8EncodeChar
  { text
    written := if cell.ch.isSome then text.length else self.written
    spans := if cell.attrs.isDefault then self.spans
      else addSpan self.spans self.text.length text.length cell.attrs }

/-- Goes through the cells; a double-width glyph owns the cell behind it. -/
def draft : List Cell → Draft → Draft
  | [], draft => draft
  | [cell], acc => acc.add cell
  | cell :: next :: rest, acc =>
    if cell.attrs.flags.contains .WIDE then draft rest (acc.add cell)
    else draft (next :: rest) (acc.add cell)

/-- Projects one row of cells, without the never-written tail. -/
def render (cells : List Cell) : RenderedRow :=
  let draft := draft cells ⟨[], [], 0⟩
  { text := draft.text.take draft.written
    spans := (draft.spans.map fun span => { span with stop := min span.stop draft.written }).filter
      fun span => span.start < span.stop }

end RenderedRow

/-! ## The screen -/

structure TerminalCursor where
  row : Nat
  col : Nat
  visible : Bool
  deriving DecidableEq, Repr

/-- `TerminalCursor::default`. -/
def TerminalCursor.home : TerminalCursor := ⟨0, 0, true⟩

/-- Cell geometry. -/
structure ScreenSize where
  rows : Nat
  cols : Nat
  deriving DecidableEq, Repr

/-- Geometry clamped to at least one cell in each dimension. -/
def ScreenSize.new (rows cols : Nat) : ScreenSize where
  rows := if rows = 0 then 1 else rows
  cols := if cols = 0 then 1 else cols

/-- What changed since the previous refresh. -/
structure Damage where
  start : Nat
  stop : Nat
  scrollbackPushed : Nat
  scrollbackDeleted : Nat
  resync : Bool
  deriving DecidableEq, Repr

/-- Parser position, carried across writes. -/
inductive ParseState where
  /-- outside any escape sequence -/
  | ground
  /-- inside a character of several bytes -/
  | utf8
  | esc
  | csi
  /-- inside a string, swallowed to its terminator -/
  | stringSeq
  /-- one designator byte to swallow -/
  | discard
  deriving DecidableEq, Repr

/-- The bytes of a character so far, and how many it needs. -/
structure Utf8Accumulator where
  bytes : List UInt8
  need : Nat
  deriving DecidableEq, Repr

/-- Parameters of the control sequence being collected. A parameter is below `2 ^ 16`. -/
structure CsiAccumulator where
  /-- `none` is an omitted parameter -/
  params : List (Option Nat)
  /-- whether the parameter is a part of the one before it -/
  subparam : List Bool
  /-- private-marker byte -/
  marker : Option UInt8
  intermediate : Option UInt8
  deriving DecidableEq, Repr

namespace CsiAccumulator

def reset : CsiAccumulator := ⟨[], [], none, none⟩

/-- A parameter, or `default` when it is omitted or zero. -/
def count (self : CsiAccumulator) (index default : Nat) : Nat :=
  match (self.params[index]?).getD none with
  | none | some 0 => default
  | some value => value

/-- A parameter, zero when it is omitted. -/
def selector (self : CsiAccumulator) (index : Nat) : Nat :=
  ((self.params[index]?).getD none).getD 0

def isSubparam (self : CsiAccumulator) (index : Nat) : Bool := (self.subparam[index]?).getD false

end CsiAccumulator

/-- The parsed screen behind one terminal buffer. -/
structure TerminalScreen where
  size : ScreenSize
  /-- active cells, row after row -/
  cells : List Cell
  /-- the primary cells while the alternate screen is up -/
  parked : Option (List Cell)
  inAltscreen : Bool
  scrollback : List (List Cell)
  scrollbackLimit : Nat
  cursor : TerminalCursor
  savedCursor : TerminalCursor
  pen : CellAttrs
  state : ParseState
  utf8 : Utf8Accumulator
  csi : CsiAccumulator
  /-- the string being swallowed just saw an `ESC` -/
  stringEsc : Bool
  /-- first row of the scroll region -/
  scrollTop : Nat
  /-- last row of the scroll region -/
  scrollBottom : Nat
  /-- the cursor sits on the last column and the next glyph wraps before it is written -/
  pendingWrap : Bool
  autowrap : Bool
  damageStart : Nat
  damageEnd : Nat
  scrollbackPushed : Nat
  scrollbackDeleted : Nat
  resync : Bool
  /-- bytes owed to the child -/
  replies : List UInt8
  /-- a copy left the cells -/
  panicked : Bool
  deriving DecidableEq

namespace TerminalScreen

/-- A screen, fully damaged so that the first refresh writes every row. -/
def new (size : ScreenSize) : TerminalScreen :=
  let size := ScreenSize.new size.rows size.cols
  { size
    cells := List.replicate (size.rows * size.cols) .EMPTY
    parked := none
    inAltscreen := false
    scrollback := []
    scrollbackLimit := DEFAULT_SCROLLBACK
    cursor := .home
    savedCursor := .home
    pen := .default
    state := .ground
    utf8 := ⟨[], 0⟩
    csi := .reset
    stringEsc := false
    scrollTop := 0
    scrollBottom := size.rows - 1
    pendingWrap := false
    autowrap := true
    damageStart := 0
    damageEnd := size.rows
    scrollbackPushed := 0
    scrollbackDeleted := 0
    resync := false
    replies := []
    panicked := false }

/-- Replaces the scrollback budget, and trims what is too much. -/
def setScrollbackLimit (self : TerminalScreen) (limit : Nat) : TerminalScreen :=
  { self with
    scrollbackLimit := limit
    scrollback := self.scrollback.drop (self.scrollback.length - limit)
    resync := self.resync || limit < self.scrollback.length }

/-- The range of the damaged rows. -/
def damagedRows (self : TerminalScreen) : Nat × Nat :=
  if self.damageStart < self.damageEnd then (self.damageStart, min self.damageEnd self.size.rows) else (0, 0)

/-- The damage since it was taken last, if there is any. -/
def damage (self : TerminalScreen) : Option Damage :=
  if self.damagedRows.2 ≤ self.damagedRows.1 ∧ self.scrollbackPushed = 0 ∧ self.scrollbackDeleted = 0 ∧
      self.resync = false then none
  else some ⟨self.damagedRows.1, self.damagedRows.2, self.scrollbackPushed, self.scrollbackDeleted, self.resync⟩

/-- Takes the damage since the previous call. -/
def takeDamage (self : TerminalScreen) : TerminalScreen × Option Damage :=
  ({ self with
    scrollbackPushed := 0
    scrollbackDeleted := 0
    resync := false
    damageStart := usizeMax
    damageEnd := 0 }, self.damage)

/-- The cells of a screen row. -/
def rowCells (self : TerminalScreen) (row : Nat) : List Cell := RowMajor.row self.size.cols self.cells row

def renderRow (self : TerminalScreen) (row : Nat) : RenderedRow := .render (self.rowCells row)

/-- Projects a scrollback row, the oldest one being zero. -/
def renderScrollback (self : TerminalScreen) (index : Nat) : RenderedRow :=
  (self.scrollback[index]?).elim ⟨[], []⟩ .render

/-! ### Damage and cells -/

def touch (self : TerminalScreen) (start stop : Nat) : TerminalScreen :=
  { self with
    damageStart := min self.damageStart start
    damageEnd := max self.damageEnd (min stop self.size.rows) }

def touchAll (self : TerminalScreen) : TerminalScreen :=
  { self with damageStart := 0, damageEnd := self.size.rows }

def touchCursorRow (self : TerminalScreen) : TerminalScreen := self.touch self.cursor.row (self.cursor.row + 1)

def setCell (self : TerminalScreen) (row col : Nat) (cell : Cell) : TerminalScreen :=
  if self.size.cols ≤ col ∨ self.size.rows ≤ row then self
  else { self with cells := self.cells.set (row * self.size.cols + col) cell }

/-- `copy_within` of one row onto another one. -/
def copyRow (self : TerminalScreen) (source row : Nat) : TerminalScreen :=
  if source * self.size.cols + self.size.cols ≤ self.cells.length ∧
      row * self.size.cols + self.size.cols ≤ self.cells.length then
    { self with cells := overwrite self.cells (row * self.size.cols) (self.rowCells source) }
  else { self with panicked := true }

def fillRow (self : TerminalScreen) (row : Nat) (cell : Cell) : TerminalScreen :=
  if row * self.size.cols + self.size.cols ≤ self.cells.length then
    { self with
      cells := overwrite self.cells (row * self.size.cols) (List.replicate self.size.cols cell) }
  else self

/-- Writes cells of one row, at these columns one after another. -/
def writeCells (self : TerminalScreen) (row : Nat) (cols : List Nat) (value : List Cell → Nat → Cell) :
    TerminalScreen :=
  { self with cells :=
      cols.foldl (fun cells col => cells.set (row * self.size.cols + col) (value cells col)) self.cells }

/-- Erases the columns from `start` to `stop` of one row. -/
def eraseCols (self : TerminalScreen) (row start stop : Nat) : TerminalScreen :=
  self.writeCells row (List.range' start (stop - start)) fun _ _ => .erased self.pen

def clampCursor (self : TerminalScreen) : TerminalScreen :=
  { self with cursor := { self.cursor with
      row := min self.cursor.row (self.size.rows - 1)
      col := min self.cursor.col (self.size.cols - 1) } }

/-- Moves the cursor and forgets the deferred wrap. -/
def moveTo (self : TerminalScreen) (row col : Nat) : TerminalScreen :=
  { self with cursor := { self.cursor with row, col }, pendingWrap := false }

/-! ### Scrolling -/

def regionHeight (self : TerminalScreen) : Nat := self.scrollBottom - self.scrollTop + 1

def pushScrollback (self : TerminalScreen) (row : Nat) : TerminalScreen :=
  if self.scrollbackLimit = 0 then self
  else if self.cells.length < row * self.size.cols + self.size.cols then self
  else
    let full := self.scrollbackLimit ≤ self.scrollback.length ∧ self.scrollback ≠ []
    { self with
      scrollback := (if full then self.scrollback.tail else self.scrollback) ++ [self.rowCells row]
      scrollbackDeleted := if full then self.scrollbackDeleted + 1 else self.scrollbackDeleted
      scrollbackPushed := self.scrollbackPushed + 1 }

/-- Row after row from the top takes what is `count` rows below it, or is blanked. -/
def scrollRowUp (count : Nat) (self : TerminalScreen) (row : Nat) : TerminalScreen :=
  if row + count ≤ self.scrollBottom then self.copyRow (row + count) row
  else self.fillRow row (.erased self.pen)

/-- Only a full-height region of the primary screen feeds scrollback. -/
def feedScrollback (self : TerminalScreen) (count : Nat) : TerminalScreen :=
  if (self.scrollTop = 0 ∧ self.scrollBottom + 1 = self.size.rows) ∧ self.inAltscreen = false then
    (List.range' self.scrollTop count).foldl pushScrollback self
  else self

def scrollUp (self : TerminalScreen) (count : Nat) : TerminalScreen :=
  let count := min count self.regionHeight
  if count = 0 then self
  else
    let rows := List.range' self.scrollTop (self.scrollBottom + 1 - self.scrollTop)
    let scrolled := rows.foldl (scrollRowUp count) (self.feedScrollback count)
    scrolled.touch self.scrollTop (self.scrollBottom + 1)

/-- Row after row from the bottom takes what is `count` rows above it, or is blanked. -/
def scrollRowDown (count : Nat) (self : TerminalScreen) (row : Nat) : TerminalScreen :=
  if count ≤ row ∧ self.scrollTop ≤ row - count then self.copyRow (row - count) row
  else self.fillRow row (.erased self.pen)

def scrollDown (self : TerminalScreen) (count : Nat) : TerminalScreen :=
  let count := min count self.regionHeight
  if count = 0 then self
  else
    let rows := (List.range' self.scrollTop (self.scrollBottom + 1 - self.scrollTop)).reverse
    let scrolled := rows.foldl (scrollRowDown count) self
    scrolled.touch self.scrollTop (self.scrollBottom + 1)

def clearScrollback (self : TerminalScreen) : TerminalScreen :=
  if self.inAltscreen = true ∨ self.scrollback = [] then self
  else touchAll { self with
    scrollback := []
    scrollbackPushed := 0
    scrollbackDeleted := 0
    resync := true }

/-! ### Control functions -/

def carriageReturn (self : TerminalScreen) : TerminalScreen := self.moveTo self.cursor.row 0

def backspace (self : TerminalScreen) : TerminalScreen := self.moveTo self.cursor.row (self.cursor.col - 1)

def tab (self : TerminalScreen) : TerminalScreen :=
  let next := (self.cursor.col / TAB_WIDTH + 1) * TAB_WIDTH
  self.moveTo self.cursor.row (min next (self.size.cols - 1))

/-- Moves down one row, scrolling when already on the region's last row. -/
def advanceRow (self : TerminalScreen) : TerminalScreen :=
  if self.cursor.row = self.scrollBottom then self.scrollUp 1
  else if self.cursor.row + 1 < self.size.rows then
    { self with cursor := { self.cursor with row := self.cursor.row + 1 } }
  else self

def lineFeed (self : TerminalScreen) : TerminalScreen := advanceRow { self with pendingWrap := false }

/-- Moves up one row, scrolling down at the region's first row. -/
def reverseIndex (self : TerminalScreen) : TerminalScreen :=
  let moved := if self.cursor.row = self.scrollTop then self.scrollDown 1
    else { self with cursor := { self.cursor with row := self.cursor.row - 1 } }
  { moved with pendingWrap := false }

/-- To the first column of the next row. -/
def wrapRow (self : TerminalScreen) : TerminalScreen :=
  advanceRow { self with cursor := { self.cursor with col := 0 } }

/-- The wrap that was deferred at the last column. -/
def deferredWrap (self : TerminalScreen) : TerminalScreen :=
  if self.pendingWrap then
    if self.autowrap then wrapRow { self with pendingWrap := false } else { self with pendingWrap := false }
  else self

/-- A wide glyph that does not fit in the row wraps early. -/
def earlyWrap (self : TerminalScreen) (width : Nat) : TerminalScreen :=
  if width = 2 ∧ self.size.cols < self.cursor.col + 2 ∧ self.autowrap = true then self.wrapRow else self

/-- Writes a glyph at the cursor. -/
def putGlyph (self : TerminalScreen) (ch : Char) (width : Nat) : TerminalScreen :=
  let row := self.cursor.row
  let col := self.cursor.col
  let attrs := if width = 2 then { self.pen with flags := self.pen.flags.union .WIDE } else self.pen
  let written := self.setCell row col ⟨some ch, attrs⟩
  let written := if width = 2 then written.setCell row (col + 1) ⟨none, self.pen⟩ else written
  let moved := if self.size.cols ≤ col + width then
      { written with
        cursor := { self.cursor with col := self.size.cols - 1 }
        pendingWrap := self.autowrap }
    else { written with cursor := { self.cursor with col := col + width } }
  moved.touch row (row + 1)

def putChar (width : Char → Nat) (self : TerminalScreen) (ch : Char) : TerminalScreen :=
  -- a zero-width mark is dropped
  if width ch = 0 then self else (self.deferredWrap.earlyWrap (width ch)).putGlyph ch (width ch)

/-- Full reset. -/
def reset (self : TerminalScreen) : TerminalScreen :=
  touchAll { self with
    cells := List.replicate self.cells.length .EMPTY
    parked := none
    inAltscreen := false
    cursor := .home
    savedCursor := .home
    pen := .default
    scrollTop := 0
    scrollBottom := self.size.rows - 1
    pendingWrap := false
    autowrap := true }

/-! ### Erasing, inserting and deleting -/

def eraseInLine (self : TerminalScreen) (selector : Nat) : TerminalScreen :=
  let row := self.cursor.row
  let (start, stop) :=
    if selector = 1 then (0, self.cursor.col + 1)
    else if selector = 2 then (0, self.size.cols)
    else (self.cursor.col, self.size.cols)
  touch { self.eraseCols row start (min stop self.size.cols) with pendingWrap := false } row (row + 1)

/-- What `ED` erases of one row. -/
def eraseDisplayRow (selector : Nat) (self : TerminalScreen) (row : Nat) : TerminalScreen :=
  if row = self.cursor.row ∧ selector = 0 then self.eraseCols row self.cursor.col self.size.cols
  else if row = self.cursor.row ∧ selector = 1 then
    self.eraseCols row 0 (min (self.cursor.col + 1) self.size.cols)
  else self.eraseCols row 0 self.size.cols

def eraseInDisplay (self : TerminalScreen) (selector : Nat) : TerminalScreen :=
  if selector = 3 then self.clearScrollback
  else
    let (first, last) :=
      if selector = 1 then (0, self.cursor.row)
      else if selector = 2 then (0, self.size.rows - 1)
      else (self.cursor.row, self.size.rows - 1)
    let stop := min last (self.size.rows - 1) + 1
    let erased := (List.range' first (stop - first)).foldl (eraseDisplayRow selector) self
    touch { erased with pendingWrap := false } first (last + 1)

def eraseCells (self : TerminalScreen) (count : Nat) : TerminalScreen :=
  let row := self.cursor.row
  touch (self.eraseCols row self.cursor.col (min (self.cursor.col + count) self.size.cols)) row (row + 1)

def insertCells (self : TerminalScreen) (count : Nat) : TerminalScreen :=
  let row := self.cursor.row
  let col := self.cursor.col
  let count := min count (self.size.cols - col)
  let inserted := self.writeCells row (List.range' col (self.size.cols - col)).reverse fun cells target =>
    ((if count ≤ target ∧ col ≤ target - count then cells[row * self.size.cols + (target - count)]? else none)).getD
      (.erased self.pen)
  inserted.touch row (row + 1)

def deleteCells (self : TerminalScreen) (count : Nat) : TerminalScreen :=
  let row := self.cursor.row
  let col := self.cursor.col
  let deleted := self.writeCells row (List.range' col (self.size.cols - col)) fun cells target =>
    ((if target + count < self.size.cols then cells[row * self.size.cols + (target + count)]? else none)).getD
      (.erased self.pen)
  deleted.touch row (row + 1)

/-- Scrolls the part of the region from the cursor row on. -/
def scrollFromCursor (self : TerminalScreen) (scroll : TerminalScreen → TerminalScreen) : TerminalScreen :=
  if self.cursor.row < self.scrollTop ∨ self.scrollBottom < self.cursor.row then self
  else
    let scrolled := scroll { self with scrollTop := self.cursor.row }
    carriageReturn { scrolled with scrollTop := self.scrollTop }

/-- `IL`: opens blank rows at the cursor, within the scroll region. -/
def insertLines (self : TerminalScreen) (count : Nat) : TerminalScreen :=
  self.scrollFromCursor fun screen => screen.scrollDown count

/-- `DL`: removes rows at the cursor, within the scroll region. -/
def deleteLines (self : TerminalScreen) (count : Nat) : TerminalScreen :=
  self.scrollFromCursor fun screen => screen.scrollUp count

end TerminalScreen

end Oxvim.Editor
