import Oxvim.Editor.Terminal

/-!
# Control sequences

The parser of the terminal screen: characters, escape sequences and their parameters, and the control
functions they select.
-/

namespace Oxvim.Editor

open Lib

namespace TerminalScreen

/-! ## Modes -/

/-- Enters or leaves the alternate screen. The primary cells are parked meanwhile. -/
def setAltscreen (self : TerminalScreen) (enable saveCursor : Bool) : TerminalScreen :=
  if enable = self.inAltscreen then self
  else
    let switched := if enable then
        { self with
          savedCursor := if saveCursor then self.cursor else self.savedCursor
          parked := some self.cells
          cells := List.replicate (self.size.rows * self.size.cols) .EMPTY }
      else
        { self with
          cells := self.parked.getD self.cells
          parked := none
          cursor := if saveCursor then self.savedCursor else self.cursor }
    touchAll (clampCursor { switched with inAltscreen := enable, pendingWrap := false })

/-- One parameter of `CSI ? Pm h` and `CSI ? Pm l`. -/
def setModeOf (enable : Bool) (self : TerminalScreen) (code : Nat) : TerminalScreen :=
  if code = 7 then { self with autowrap := enable }
  else if code = 25 then
    touchCursorRow { self with cursor := { self.cursor with visible := enable } }
  else if code = 47 ∨ code = 1047 then self.setAltscreen enable false
  else if code = 1049 then self.setAltscreen enable true
  else self

def setMode (self : TerminalScreen) (enable : Bool) : TerminalScreen :=
  if self.csi.marker ≠ some 0x3f then self
  else ((List.range (max self.csi.params.length 1)).map self.csi.selector).foldl (setModeOf enable) self

/-- `CSI Ps n`. -/
def deviceStatus (self : TerminalScreen) : TerminalScreen :=
  let number := fun n : Nat => Utf8.encode (Nat.repr n).toList
  if self.csi.selector 0 = 5 then { self with replies := self.replies ++ [0x1b, 0x5b, 0x30, 0x6e] }
  else if self.csi.selector 0 = 6 then
    { self with replies := self.replies ++ [0x1b, 0x5b] ++ number (self.cursor.row + 1) ++ [0x3b]
        ++ number (self.cursor.col + 1) ++ [0x52] }
  else self

/-! ## The pen -/

/-- Narrows a parameter to a palette or colour component. -/
def clampU8 (value : Nat) : UInt8 := UInt8.ofNat (min value 255)

/-- A palette index from an SGR code offset. -/
def indexed (offset : Nat) : TermColor := .indexed (clampU8 offset)

/-- Reads a `38` or `48` colour, and the last index used. -/
def extendedColor (csi : CsiAccumulator) (index : Nat) : TermColor × Nat :=
  if csi.selector (index + 1) = 2 then
    (.rgb (clampU8 (csi.selector (index + 2))) (clampU8 (csi.selector (index + 3)))
      (clampU8 (csi.selector (index + 4))), index + 4)
  else if csi.selector (index + 1) = 5 then (indexed (csi.selector (index + 2)), index + 2)
  else (.default, index + 1)

/-- The underline style named by a sub-parameter. -/
def underline (flags : CellFlags) (style : Nat) : CellFlags :=
  let flags := flags.without .UNDERLINES
  if style = 0 then flags
  else if style = 2 then flags.union .UNDERDOUBLE
  else if style = 3 then flags.union .UNDERCURL
  else flags.union .UNDERLINE

/-- Applies the SGR code at an index, and gives the last index it used. -/
def sgrCode (csi : CsiAccumulator) (pen : CellAttrs) (index : Nat) : CellAttrs × Nat :=
  let code := csi.selector index
  let withFlags := fun flags : CellFlags => ({ pen with flags }, index)
  if code = 0 then (.default, index)
  else if code = 1 then withFlags (pen.flags.union .BOLD)
  else if code = 2 then withFlags (pen.flags.union .FAINT)
  else if code = 3 then withFlags (pen.flags.union .ITALIC)
  else if code = 4 then
    if csi.isSubparam (index + 1) then
      ({ pen with flags := underline pen.flags (csi.selector (index + 1)) }, index + 1)
    else withFlags (underline pen.flags 1)
  else if code = 5 ∨ code = 6 then withFlags (pen.flags.union .BLINK)
  else if code = 7 then withFlags (pen.flags.union .REVERSE)
  else if code = 9 then withFlags (pen.flags.union .STRIKETHROUGH)
  else if code = 21 then withFlags (underline pen.flags 2)
  else if code = 22 then withFlags (pen.flags.without (CellFlags.BOLD.union .FAINT))
  else if code = 23 then withFlags (pen.flags.without .ITALIC)
  else if code = 24 then withFlags (pen.flags.without .UNDERLINES)
  else if code = 25 then withFlags (pen.flags.without .BLINK)
  else if code = 27 then withFlags (pen.flags.without .REVERSE)
  else if code = 29 then withFlags (pen.flags.without .STRIKETHROUGH)
  else if 30 ≤ code ∧ code ≤ 37 then ({ pen with foreground := indexed (code - 30) }, index)
  else if code = 38 then
    ({ pen with foreground := (extendedColor csi index).1 }, (extendedColor csi index).2)
  else if code = 39 then ({ pen with foreground := .default }, index)
  else if 40 ≤ code ∧ code ≤ 47 then ({ pen with background := indexed (code - 40) }, index)
  else if code = 48 then
    ({ pen with background := (extendedColor csi index).1 }, (extendedColor csi index).2)
  else if code = 49 then ({ pen with background := .default }, index)
  else if 90 ≤ code ∧ code ≤ 97 then ({ pen with foreground := indexed (code - 90 + 8) }, index)
  else if 100 ≤ code ∧ code ≤ 107 then ({ pen with background := indexed (code - 100 + 8) }, index)
  else (pen, index)

/-- Applies the codes from an index on; every code uses at least one parameter. -/
def sgrCodes (csi : CsiAccumulator) : Nat → CellAttrs → Nat → CellAttrs
  | 0, pen, _ => pen
  | rounds + 1, pen, index =>
    if csi.params.length ≤ index then pen
    else sgrCodes csi rounds (sgrCode csi pen index).1 ((sgrCode csi pen index).2 + 1)

def sgr (self : TerminalScreen) : TerminalScreen :=
  if self.csi.params = [] then { self with pen := .default }
  else { self with pen := sgrCodes self.csi self.csi.params.length self.pen 0 }

/-! ## Dispatch -/

/-- `DECSTBM`. -/
def setScrollRegion (self : TerminalScreen) : TerminalScreen :=
  let lastRow := self.size.rows - 1
  let top := min (self.csi.count 0 1 - 1) lastRow
  let bottom := min (self.csi.count 1 self.size.rows - 1) lastRow
  let region := if top < bottom then { self with scrollTop := top, scrollBottom := bottom }
    else { self with scrollTop := 0, scrollBottom := lastRow }
  region.moveTo region.scrollTop 0

/-- `DECRC`. -/
def restoreCursor (self : TerminalScreen) : TerminalScreen :=
  { clampCursor { self with cursor := self.savedCursor } with pendingWrap := false }

/-- `CBT`: goes back to a tab stop, so many times. -/
def backTab (self : TerminalScreen) (count : Nat) : TerminalScreen :=
  let col := (fun col : Nat => (col - 1) / TAB_WIDTH * TAB_WIDTH)^[count] self.cursor.col
  self.moveTo self.cursor.row col

/-- Carries out a control sequence. The final bytes are those of the table of control functions, from `@`
to `u`. -/
def dispatchCsi (self : TerminalScreen) (finalByte : UInt8) : TerminalScreen :=
  -- sequences with an intermediate byte leave no mark on the screen
  if self.csi.intermediate.isSome then self
  else
    let lastRow := self.size.rows - 1
    let lastCol := self.size.cols - 1
    let row := self.cursor.row
    let col := self.cursor.col
    let n := self.csi.count 0 1
    match finalByte with
    | 0x40 => self.insertCells n
    | 0x41 => self.moveTo (row - n) col
    | 0x42 | 0x65 => self.moveTo (min (row + n) lastRow) col
    | 0x43 | 0x61 => self.moveTo row (min (col + n) lastCol)
    | 0x44 => self.moveTo row (col - n)
    | 0x45 => self.moveTo (min (row + n) lastRow) 0
    | 0x46 => self.moveTo (row - n) 0
    | 0x47 | 0x60 => self.moveTo row (min (n - 1) lastCol)
    | 0x48 | 0x66 => self.moveTo (min (n - 1) lastRow) (min (self.csi.count 1 1 - 1) lastCol)
    | 0x49 => tab^[min n (lastCol + 1)] self
    | 0x5a => self.backTab (min n (lastCol + 1))
    | 0x4a => self.eraseInDisplay (self.csi.selector 0)
    | 0x4b => self.eraseInLine (self.csi.selector 0)
    | 0x4c => self.insertLines n
    | 0x4d => self.deleteLines n
    | 0x50 => self.deleteCells n
    | 0x53 => self.scrollUp n
    | 0x54 => self.scrollDown n
    | 0x58 => self.eraseCells n
    | 0x64 => self.moveTo (min (n - 1) lastRow) col
    | 0x63 =>
      if self.csi.marker.isNone then
        { self with replies := self.replies ++ [0x1b, 0x5b, 0x3f, 0x31, 0x3b, 0x32, 0x63] }
      else self
    | 0x68 => self.setMode true
    | 0x6c => self.setMode false
    | 0x6d => self.sgr
    | 0x6e => self.deviceStatus
    | 0x72 => self.setScrollRegion
    | 0x73 => { self with savedCursor := self.cursor }
    | 0x75 => self.restoreCursor
    | _ => self

/-! ## The parser -/

def utf8Begin (width : Char → Nat) (self : TerminalScreen) (byte : UInt8) : TerminalScreen :=
  match Utf8.followers byte with
  | none => self.putChar width '\uFFFD'
  | some more => { self with utf8 := ⟨[byte], more + 1⟩, state := .utf8 }

def ground (width : Char → Nat) (self : TerminalScreen) (byte : UInt8) : TerminalScreen :=
  if byte = 0x08 then self.backspace
  else if byte = 0x09 then self.tab
  else if 0x0a ≤ byte ∧ byte ≤ 0x0c then self.lineFeed
  else if byte = 0x0d then self.carriageReturn
  else if byte = 0x1b then { self with state := .esc }
  else if byte < 0x20 ∨ byte = 0x7f then self
  else if byte < 0x80 then self.putChar width (Char.ofNat byte.toNat)
  else self.utf8Begin width byte

/-- One more byte of a character; there is room for four. -/
def accumulate (utf8 : Utf8Accumulator) (byte : UInt8) : Utf8Accumulator :=
  { utf8 with bytes := if utf8.bytes.length < 4 then utf8.bytes ++ [byte] else utf8.bytes }

/-- Writes the character of the collected bytes, or its replacement. -/
def utf8Finish (width : Char → Nat) (self : TerminalScreen) : TerminalScreen :=
  match Utf8.decode? self.utf8.bytes with
  | some text => text.foldl (putChar width) self
  | none => self.putChar width '\uFFFD'

def utf8Continue (width : Char → Nat) (self : TerminalScreen) (byte : UInt8) : TerminalScreen :=
  if ¬(0x80 ≤ byte ∧ byte ≤ 0xbf) then
    -- a truncated character is replaced, and this byte starts afresh
    (putChar width { self with state := .ground } '\uFFFD').ground width byte
  else
    let utf8 := accumulate self.utf8 byte
    if utf8.bytes.length < utf8.need then { self with utf8 }
    else utf8Finish width { self with utf8, state := .ground }

/-- What the byte behind an escape selects, in the ground state. -/
def escapeWith (self : TerminalScreen) (byte : UInt8) : TerminalScreen :=
  match byte with
  | 0x5b => { self with csi := .reset, state := .csi }
  | 0x5d | 0x50 | 0x5e | 0x5f => { self with stringEsc := false, state := .stringSeq }
  | 0x28 | 0x29 | 0x2a | 0x2b | 0x2d | 0x2e | 0x2f | 0x23 | 0x25 | 0x20 => { self with state := .discard }
  | 0x37 => { self with savedCursor := self.cursor }
  | 0x38 => self.restoreCursor
  | 0x63 => self.reset
  | 0x44 => self.lineFeed
  | 0x45 => self.carriageReturn.advanceRow
  | 0x4d => self.reverseIndex
  | 0x1b => { self with state := .esc }
  | _ => self

def escape (self : TerminalScreen) (byte : UInt8) : TerminalScreen :=
  escapeWith { self with state := .ground } byte

def stringSeq (self : TerminalScreen) (byte : UInt8) : TerminalScreen :=
  if self.stringEsc then
    if byte = 0x5c then { self with stringEsc := false, state := .ground }
    else { self with stringEsc := byte = 0x1b }
  else if byte = 0x07 then { self with state := .ground }
  else if byte = 0x1b then { self with stringEsc := true }
  else self

/-- Adds a digit to the parameter being collected. -/
def CsiAccumulator.digit (self : CsiAccumulator) (digit : Nat) : CsiAccumulator :=
  let started := if self.params = [] then
      { self with params := [none], subparam := self.subparam ++ [false] }
    else self
  let extended := fun slot : Option Nat => some (min (slot.getD 0 * 10 + digit) 65535)
  { started with params := started.params.modify (started.params.length - 1) extended }

/-- Starts another parameter, as far as there is room. -/
def CsiAccumulator.separate (self : CsiAccumulator) (sub : Bool) : CsiAccumulator :=
  if self.params.length < MAX_CSI_PARAMS then
    { self with params := self.params ++ [none], subparam := self.subparam ++ [sub] }
  else self

def csiByte (width : Char → Nat) (self : TerminalScreen) (byte : UInt8) : TerminalScreen :=
  if 0x30 ≤ byte ∧ byte ≤ 0x39 then { self with csi := CsiAccumulator.digit self.csi (byte.toNat - 0x30) }
  else if byte = 0x3b ∨ byte = 0x3a then
    { self with csi := CsiAccumulator.separate self.csi (decide (byte = 0x3a)) }
  else if 0x3c ≤ byte ∧ byte ≤ 0x3f then { self with csi := { self.csi with marker := some byte } }
  else if 0x20 ≤ byte ∧ byte ≤ 0x2f then { self with csi := { self.csi with intermediate := some byte } }
  else if 0x40 ≤ byte ∧ byte ≤ 0x7e then dispatchCsi { self with state := .ground } byte
  else if byte = 0x1b then { self with state := .esc }
  -- a C0 control inside a control sequence executes immediately and the sequence continues
  else self.ground width byte

/-- One byte of output. -/
def writeByte (width : Char → Nat) (self : TerminalScreen) (byte : UInt8) : TerminalScreen :=
  match self.state with
  | .ground => self.ground width byte
  | .utf8 => self.utf8Continue width byte
  | .esc => self.escape byte
  | .csi => self.csiByte width byte
  | .stringSeq => self.stringSeq byte
  | .discard => { self with state := .ground }

/-- Feeds bytes into the screen. -/
def write (width : Char → Nat) (self : TerminalScreen) (bytes : List UInt8) : TerminalScreen :=
  bytes.foldl (writeByte width) self

/-! ## Geometry -/

/-- The cells of one row in another geometry. -/
def resizedRow (self : TerminalScreen) (size : ScreenSize) (cells : List Cell) (row : Nat) : List Cell :=
  (List.range (min size.cols self.size.cols)).foldl (fun cells col =>
    match self.cells[row * self.size.cols + col]? with
    | some cell => cells.set (row * size.cols + col) cell
    | none => cells) cells

/-- Resizes the screen, keeping content anchored at the top. -/
def resize (self : TerminalScreen) (size : ScreenSize) : TerminalScreen :=
  let size := ScreenSize.new size.rows size.cols
  if size = self.size then self
  else
    let cells := (List.range (min size.rows self.size.rows)).foldl (self.resizedRow size)
      (List.replicate (size.rows * size.cols) .EMPTY)
    let resized := { self with
      cells
      parked := none
      size
      scrollTop := 0
      scrollBottom := size.rows - 1
      pendingWrap := false }
    touchAll { resized.clampCursor with resync := true }

end TerminalScreen

end Oxvim.Editor
