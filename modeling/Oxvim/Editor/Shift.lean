import Oxvim.Editor.BufferState
import Oxvim.Lib.Ascii
import Oxvim.Lib.Greedy
import Oxvim.Text.Marks

/-!
# Shifting lines

`>` and `<` measure the indent of a line in columns and write it anew. What is measured are blanks
and tabs; what is replaced is ASCII whitespace.
-/

namespace Oxvim.Editor

open Lib Lib.Ascii Lib.Greedy Text

/-! ## Ranges -/

/-- The shape an operator assigns to a motion range. -/
inductive MotionKind where
  | characterWise
  | lineWise
  | blockWise
  deriving DecidableEq, Repr

/-- Inclusive editor positions plus the range's operator shape. -/
structure EditRange where
  /-- Earlier endpoint. -/
  start : Position
  /-- Later endpoint. -/
  stop : Position
  kind : MotionKind
  /-- Whether `stop` belongs to a characterwise range. -/
  inclusive : Bool
  deriving DecidableEq, Repr

/-- The lines from `base` on can be sliced from the first to the last line of the range. -/
structure EditRange.Within (range : EditRange) (base : Nat) (lines : List Line) : Prop where
  base_le_start : base ≤ range.start.lnum
  base_le_stop : base ≤ range.stop.lnum
  ordered : range.start.lnum ≤ range.stop.lnum + 1
  stop_lt : range.stop.lnum - base < lines.length

instance (range : EditRange) (base : Nat) (lines : List Line) : Decidable (range.Within base lines) :=
  decidable_of_iff (base ≤ range.start.lnum ∧ base ≤ range.stop.lnum ∧
    range.start.lnum ≤ range.stop.lnum + 1 ∧ range.stop.lnum - base < lines.length)
    ⟨fun h => ⟨h.1, h.2.1, h.2.2.1, h.2.2.2⟩, fun h => ⟨h.1, h.2, h.3, h.4⟩⟩

/-! ## Indents -/

/-- The options that shifting reads. -/
structure IndentOptions where
  shiftwidth : Nat
  tabstop : Nat
  expandtab : Bool
  deriving DecidableEq, Repr

/-- Leading blanks in display cells, `columns` of them before the line. -/
def indentColumnsFrom (tabstop columns : Nat) : Line → Nat
  | [] => columns
  | byte :: line =>
    if byte = ' '.toUInt8 then indentColumnsFrom tabstop (satAdd columns 1) line
    else if byte = '\t'.toUInt8 then
      indentColumnsFrom tabstop (satAdd columns (tabstop - columns % tabstop)) line
    else columns

def indentColumns (line : Line) (tabstop : Nat) : Nat := indentColumnsFrom tabstop 0 line

/-- The canonical indent for `columns` display cells. -/
def indentBytes (columns tabstop : Nat) (expandtab : Bool) : Line :=
  if expandtab ∨ tabstop = 0 then List.replicate columns ' '.toUInt8
  else
    List.replicate (columns / tabstop) '\t'.toUInt8 ++
      List.replicate (columns % tabstop) ' '.toUInt8

/-- One line of a shift: the new line, and the columns that a request replaces. -/
def shiftLine (kind : MotionKind) (startCol : Nat) (add : Bool) (opts : IndentOptions)
    (shiftround : Bool) (line : Line) : Line × Option (Nat × Nat × List Line) :=
  let width := opts.shiftwidth
  let col := if kind = .blockWise then min startCol line.length else 0
  if col = 0 then
    let current := indentColumns line opts.tabstop
    let current := if shiftround ∧ width ≠ 0 then min (current / width * width) usizeMax else current
    let target := if add then satAdd current width else current - width
    let run := (line.takeWhile isAsciiWhitespace).length
    let indent := indentBytes target opts.tabstop opts.expandtab
    (indent ++ line.drop run, some (0, run, [indent]))
  else if add then
    if width = 0 then (line, none)
    else
      let spaces := List.replicate width ' '.toUInt8
      (line.take col ++ spaces ++ line.drop col, some (col, col, [spaces]))
  else
    let remove := (((line.drop col).take width).takeWhile isAsciiWhitespace).length
    if remove = 0 then (line, none)
    else (line.take col ++ line.drop (col + remove), some (col, col + remove, []))

/-- Shift the lines of a range, `none` where the source panics. -/
def mutateIndent (lines : List Line) (base : Nat) (range : EditRange) (add : Bool)
    (opts : IndentOptions) (shiftround : Bool) : Option (List Line × List BufferTextEditRequest) :=
  if range.Within base lines then
    let first := range.start.lnum - base
    let last := range.stop.lnum - base
    let shift := shiftLine range.kind range.start.col add opts shiftround
    some (lines.mapIdx fun index line =>
        if first ≤ index ∧ index ≤ last then (shift line).1 else line,
      ((lines.drop first).take (last + 1 - first)).mapIdx (fun offset line =>
        let row := range.start.lnum - 1 + offset
        (shift line).2.map fun edit => ⟨⟨row, edit.1⟩, ⟨row, edit.2.1⟩, edit.2.2⟩) |>.reduceOption)
  else none

/-! ## What is measured -/

/-- The blanks that are measured. -/
def isBlank (byte : UInt8) : Bool := byte == ' '.toUInt8 || byte == '\t'.toUInt8

/-- The line behind its leading blanks. -/
def afterIndent (line : Line) : Line := line.dropWhile isBlank

theorem isAsciiWhitespace_of_blank : ∀ byte : UInt8, isBlank byte → isAsciiWhitespace byte := by
  decide +kernel

theorem indentColumnsFrom_le {tabstop columns : Nat} (h : columns ≤ usizeMax) (line : Line) :
    indentColumnsFrom tabstop columns line ≤ usizeMax := by
  induction line generalizing columns with
  | nil => exact h
  | cons byte line ih =>
    unfold indentColumnsFrom
    split_ifs
    · exact ih (Nat.min_le_right _ _)
    · exact ih (Nat.min_le_right _ _)
    · exact h

theorem indentColumns_le (line : Line) (tabstop : Nat) : indentColumns line tabstop ≤ usizeMax :=
  indentColumnsFrom_le (Nat.zero_le _) line

theorem indentColumnsFrom_of_stops {tabstop columns : Nat} {rest : Line} (h : Stops isBlank rest) :
    indentColumnsFrom tabstop columns rest = columns := by
  cases rest with
  | nil => rfl
  | cons byte rest =>
    rw [stops_cons] at h
    have hspace : byte ≠ ' '.toUInt8 := by
      rintro rfl
      exact absurd h (by decide)
    have htab : byte ≠ '\t'.toUInt8 := by
      rintro rfl
      exact absurd h (by decide)
    rw [indentColumnsFrom, if_neg hspace, if_neg htab]

theorem indentColumnsFrom_spaces {tabstop columns n : Nat} (h : columns + n ≤ usizeMax) (rest : Line) :
    indentColumnsFrom tabstop columns (List.replicate n ' '.toUInt8 ++ rest)
      = indentColumnsFrom tabstop (columns + n) rest := by
  induction n generalizing columns with
  | zero => rfl
  | succ n ih =>
    rw [List.replicate_succ, List.cons_append, indentColumnsFrom, if_pos rfl, satAdd_eq (by omega),
      ih (by omega)]
    congr 1
    omega

/-- Tabs from a tab stop on lead to a tab stop. -/
theorem indentColumnsFrom_tabs {tabstop stops n : Nat} (htabstop : 1 ≤ tabstop)
    (h : (stops + n) * tabstop ≤ usizeMax) (rest : Line) :
    indentColumnsFrom tabstop (stops * tabstop) (List.replicate n '\t'.toUInt8 ++ rest)
      = indentColumnsFrom tabstop ((stops + n) * tabstop) rest := by
  induction n generalizing stops with
  | zero => rfl
  | succ n ih =>
    have hstep : stops * tabstop + (tabstop - stops * tabstop % tabstop) = (stops + 1) * tabstop := by
      rw [Nat.mul_mod_left, Nat.sub_zero, Nat.add_mul, Nat.one_mul]
    have hsum : stops + 1 + n = stops + (n + 1) := by omega
    have hle : (stops + 1) * tabstop ≤ usizeMax := by
      refine le_trans (Nat.mul_le_mul_right tabstop ?_) h
      omega
    rw [List.replicate_succ, List.cons_append, indentColumnsFrom, if_neg (by decide), if_pos rfl,
      satAdd_eq (by rw [hstep]; exact hle), hstep, ih (by rw [hsum]; exact h), hsum]

/-- The canonical indent measures what it was made for. -/
theorem indentColumns_indentBytes {columns tabstop : Nat} {rest : Line} (expandtab : Bool)
    (htabstop : 1 ≤ tabstop) (hcolumns : columns ≤ usizeMax) (hrest : Stops isBlank rest) :
    indentColumns (indentBytes columns tabstop expandtab ++ rest) tabstop = columns := by
  unfold indentColumns indentBytes
  split_ifs with hspaces
  · rw [indentColumnsFrom_spaces (by omega), indentColumnsFrom_of_stops hrest, Nat.zero_add]
  · have hdiv : columns / tabstop * tabstop + columns % tabstop = columns := Nat.div_add_mod' _ _
    have htabs : indentColumnsFrom tabstop (0 * tabstop)
          (List.replicate (columns / tabstop) '\t'.toUInt8 ++
            (List.replicate (columns % tabstop) ' '.toUInt8 ++ rest))
        = indentColumnsFrom tabstop ((0 + columns / tabstop) * tabstop)
          (List.replicate (columns % tabstop) ' '.toUInt8 ++ rest) :=
      indentColumnsFrom_tabs htabstop (by rw [Nat.zero_add]; omega) _
    rw [Nat.zero_mul, Nat.zero_add] at htabs
    rw [List.append_assoc, htabs, indentColumnsFrom_spaces (by omega), hdiv,
      indentColumnsFrom_of_stops hrest]

theorem all_indentBytes (columns tabstop : Nat) (expandtab : Bool) :
    (indentBytes columns tabstop expandtab).all isBlank = true := by
  unfold indentBytes
  split_ifs
  · rw [List.all_replicate]
    simp +decide
  · rw [List.all_append, List.all_replicate, List.all_replicate]
    simp +decide

theorem afterIndent_indentBytes {columns tabstop : Nat} {expandtab : Bool} {rest : Line}
    (hrest : Stops isBlank rest) : afterIndent (indentBytes columns tabstop expandtab ++ rest) = rest :=
  dropWhile_append (all_indentBytes columns tabstop expandtab) hrest


/-! ## One line -/

/-- A line whose indent is written anew for `columns` display cells. -/
def reindented (opts : IndentOptions) (columns : Nat) (line : Line) : Line :=
  indentBytes columns opts.tabstop opts.expandtab ++ line.dropWhile isAsciiWhitespace

/-- The columns of the indent after a shift. -/
def shiftTarget (opts : IndentOptions) (add : Bool) (line : Line) : Nat :=
  if add then satAdd (indentColumns line opts.tabstop) opts.shiftwidth
  else indentColumns line opts.tabstop - opts.shiftwidth

theorem shiftLine_eq {kind : MotionKind} (hkind : kind ≠ .blockWise) (startCol : Nat) (add : Bool)
    (opts : IndentOptions) (line : Line) :
    (shiftLine kind startCol add opts false line).1
      = reindented opts (shiftTarget opts add line) line := by
  unfold shiftLine reindented shiftTarget
  dsimp only
  rw [if_neg hkind, if_pos rfl]
  have hround : ¬(false = true ∧ opts.shiftwidth ≠ 0) := fun h => Bool.false_ne_true h.1
  rw [drop_takeWhile_length, if_neg hround]

theorem shiftTarget_le (opts : IndentOptions) (add : Bool) (line : Line) :
    shiftTarget opts add line ≤ usizeMax := by
  have hle := indentColumns_le line opts.tabstop
  unfold shiftTarget
  split_ifs
  · exact Nat.min_le_right _ _
  · omega

/-- What the whitespace ends at is no blank. -/
theorem stops_blank (line : Line) : Stops isBlank (line.dropWhile isAsciiWhitespace) := by
  have hstops := stops_dropWhile (p := isAsciiWhitespace) line
  generalize line.dropWhile isAsciiWhitespace = rest at hstops
  cases rest with
  | nil => rfl
  | cons byte rest =>
    rw [stops_cons] at hstops ⊢
    rw [Bool.eq_false_iff] at hstops ⊢
    exact fun hblank => hstops (isAsciiWhitespace_of_blank byte hblank)

theorem indentColumns_reindented {opts : IndentOptions} {columns : Nat} (htabstop : 1 ≤ opts.tabstop)
    (hcolumns : columns ≤ usizeMax) (line : Line) :
    indentColumns (reindented opts columns line) opts.tabstop = columns :=
  indentColumns_indentBytes opts.expandtab htabstop hcolumns (stops_blank line)

theorem afterIndent_reindented (opts : IndentOptions) (columns : Nat) (line : Line) :
    afterIndent (reindented opts columns line) = line.dropWhile isAsciiWhitespace :=
  afterIndent_indentBytes (stops_blank line)

/-- The whitespace ends where the blanks do. -/
theorem dropWhile_whitespace_iff (line : Line) :
    line.dropWhile isAsciiWhitespace = afterIndent line ↔ Stops isAsciiWhitespace (afterIndent line) := by
  constructor
  · intro h
    rw [← h]
    exact stops_dropWhile line
  · intro h
    have hblanks : (line.takeWhile isBlank).all isAsciiWhitespace = true := by
      rw [List.all_eq_true]
      intro byte hbyte
      exact isAsciiWhitespace_of_blank byte (List.mem_takeWhile_imp hbyte)
    have hdrop := dropWhile_append hblanks h
    unfold afterIndent at hdrop ⊢
    rwa [List.takeWhile_append_dropWhile] at hdrop

/-- What shifting a line right, back left, and left is to do. -/
structure ShiftLaw (opts : IndentOptions) (line right back left : Line) : Prop where
  rightText : afterIndent right = afterIndent line
  rightColumns : indentColumns right opts.tabstop = indentColumns line opts.tabstop + opts.shiftwidth
  backText : afterIndent back = afterIndent line
  backColumns : indentColumns back opts.tabstop = indentColumns line opts.tabstop
  leftColumns : indentColumns left opts.tabstop = indentColumns line opts.tabstop - opts.shiftwidth

/-- Behind the blanks of the line there is no other whitespace, and its indent has room to grow. -/
def IndentFits (opts : IndentOptions) (line : Line) : Prop :=
  Stops isAsciiWhitespace (afterIndent line) ∧
    indentColumns line opts.tabstop + opts.shiftwidth ≤ usizeMax

theorem shiftLaw_iff {opts : IndentOptions} (htabstop : 1 ≤ opts.tabstop) (line : Line) :
    let shift := fun add line => reindented opts (shiftTarget opts add line) line
    ShiftLaw opts line (shift true line) (shift false (shift true line)) (shift false line) ↔
      IndentFits opts line := by
  intro shift
  have hright : indentColumns (shift true line) opts.tabstop
      = satAdd (indentColumns line opts.tabstop) opts.shiftwidth :=
    indentColumns_reindented htabstop (shiftTarget_le opts true line) line
  have hrightText : afterIndent (shift true line) = line.dropWhile isAsciiWhitespace :=
    afterIndent_reindented opts _ line
  have hback : indentColumns (shift false (shift true line)) opts.tabstop
      = satAdd (indentColumns line opts.tabstop) opts.shiftwidth - opts.shiftwidth := by
    rw [← hright]
    exact indentColumns_reindented htabstop (shiftTarget_le opts false _) _
  have hleft : indentColumns (shift false line) opts.tabstop
      = indentColumns line opts.tabstop - opts.shiftwidth :=
    indentColumns_reindented htabstop (shiftTarget_le opts false line) line
  constructor
  · intro h
    refine ⟨(dropWhile_whitespace_iff line).mp ?_, ?_⟩
    · rw [← hrightText, h.rightText]
    · rw [← h.rightColumns]
      exact indentColumns_le _ _
  · rintro ⟨hstops, hroom⟩
    have htext := (dropWhile_whitespace_iff line).mpr hstops
    rw [satAdd_eq hroom] at hright hback
    refine ⟨hrightText.trans htext, hright, ?_, ?_, hleft⟩
    · -- The line shifted right is a blank indent and the same text.
      have hagain : Stops isAsciiWhitespace (afterIndent (shift true line)) := by
        rw [hrightText]
        exact stops_dropWhile line
      have hbackText : afterIndent (shift false (shift true line))
          = (shift true line).dropWhile isAsciiWhitespace := afterIndent_reindented opts _ _
      rw [hbackText, (dropWhile_whitespace_iff _).mpr hagain, hrightText, htext]
    · rw [hback]
      omega


/-! ## The lines of a range -/

/-- The lines after a shift without rounding. -/
def shiftedLines (lines : List Line) (base : Nat) (range : EditRange) (add : Bool)
    (opts : IndentOptions) : Option (List Line) :=
  (mutateIndent lines base range add opts false).map Prod.fst

/-- Every line of the range obeys the law, and no other line is touched. -/
def Shifts (lines : List Line) (base : Nat) (range : EditRange) (opts : IndentOptions) : Prop :=
  ∃ right back left, shiftedLines lines base range true opts = some right ∧
    shiftedLines right base range false opts = some back ∧
    shiftedLines lines base range false opts = some left ∧
    ∀ index line, lines[index]? = some line → ∃ r b l, right[index]? = some r ∧
      back[index]? = some b ∧ left[index]? = some l ∧
      if range.start.lnum - base ≤ index ∧ index ≤ range.stop.lnum - base then
        ShiftLaw opts line r b l
      else r = line ∧ b = line ∧ l = line

/-- The line at an index, shifted if the range holds it. -/
def shiftedAt (base : Nat) (range : EditRange) (add : Bool) (opts : IndentOptions) (index : Nat)
    (line : Line) : Line :=
  if range.start.lnum - base ≤ index ∧ index ≤ range.stop.lnum - base then
    reindented opts (shiftTarget opts add line) line
  else line

theorem shiftedLines_eq {lines : List Line} {base : Nat} {range : EditRange} {opts : IndentOptions}
    (hkind : range.kind ≠ .blockWise) (hwithin : range.Within base lines) (add : Bool) :
    shiftedLines lines base range add opts = some (lines.mapIdx (shiftedAt base range add opts)) := by
  unfold shiftedLines mutateIndent
  rw [if_pos hwithin]
  simp only [shiftLine_eq hkind, Option.map_some]
  rfl

/-- A shift keeps the text of each line and moves its indent by the shift width, and a shift left undoes
it, just when no other whitespace follows the blanks of the lines and their indents have room. -/
theorem shifts_iff {lines : List Line} {base : Nat} {range : EditRange} {opts : IndentOptions}
    (htabstop : 1 ≤ opts.tabstop) (hkind : range.kind ≠ .blockWise) (hwithin : range.Within base lines) :
    Shifts lines base range opts ↔
      ∀ index line, lines[index]? = some line → range.start.lnum - base ≤ index →
        index ≤ range.stop.lnum - base → IndentFits opts line := by
  have hright : shiftedLines lines base range true opts = _ := shiftedLines_eq hkind hwithin true
  have hleft : shiftedLines lines base range false opts = _ := shiftedLines_eq hkind hwithin false
  generalize hrightLines : lines.mapIdx (shiftedAt base range true opts) = rightLines at hright
  generalize hleftLines : lines.mapIdx (shiftedAt base range false opts) = leftLines at hleft
  have hwithin' : range.Within base rightLines := by
    refine ⟨hwithin.base_le_start, hwithin.base_le_stop, hwithin.ordered, ?_⟩
    rw [← hrightLines, List.length_mapIdx]
    exact hwithin.stop_lt
  have hback : shiftedLines rightLines base range false opts = _ := shiftedLines_eq hkind hwithin' false
  generalize hbackLines : rightLines.mapIdx (shiftedAt base range false opts) = backLines at hback
  have hat : ∀ index line, lines[index]? = some line →
      rightLines[index]? = some (shiftedAt base range true opts index line) ∧
      backLines[index]? = some (shiftedAt base range false opts index
        (shiftedAt base range true opts index line)) ∧
      leftLines[index]? = some (shiftedAt base range false opts index line) := by
    intro index line hline
    subst hrightLines hleftLines hbackLines
    simp only [List.getElem?_mapIdx, hline, Option.map_some, and_self]
  constructor
  · rintro ⟨right, back, left, hr, hb, hl, hlaw⟩ index line hline hfirst hlast
    obtain ⟨hatRight, hatBack, hatLeft⟩ := hat index line hline
    cases hright.symm.trans hr
    cases hback.symm.trans hb
    cases hleft.symm.trans hl
    obtain ⟨r, b, l, hr, hb, hl, hlaw⟩ := hlaw index line hline
    rw [if_pos ⟨hfirst, hlast⟩] at hlaw
    cases hatRight.symm.trans hr
    cases hatBack.symm.trans hb
    cases hatLeft.symm.trans hl
    unfold shiftedAt at hlaw
    simp only [hfirst, hlast, and_self, if_true] at hlaw
    exact (shiftLaw_iff htabstop line).mp hlaw
  · intro hfits
    refine ⟨rightLines, backLines, leftLines, hright, hback, hleft, fun index line hline => ?_⟩
    obtain ⟨hatRight, hatBack, hatLeft⟩ := hat index line hline
    refine ⟨_, _, _, hatRight, hatBack, hatLeft, ?_⟩
    unfold shiftedAt
    split_ifs with hrange
    · exact (shiftLaw_iff htabstop line).mpr (hfits index line hline hrange.1 hrange.2)
    · exact ⟨rfl, rfl, rfl⟩


/-- The first line of a buffer. -/
def firstLine : EditRange := ⟨⟨1, 0⟩, ⟨1, 0⟩, .lineWise, true⟩

theorem shifts_iff_blank_line : Shifts [[' '.toUInt8, 'x'.toUInt8]] 1 firstLine ⟨4, 8, false⟩ ↔
    ∀ index line, [[' '.toUInt8, 'x'.toUInt8]][index]? = some line →
      firstLine.start.lnum - 1 ≤ index → index ≤ firstLine.stop.lnum - 1 →
      IndentFits ⟨4, 8, false⟩ line :=
  shifts_iff (by decide) (by decide) (by decide)

/-- A form feed behind the blanks is shifted away. -/
theorem not_shifts_formFeed :
    ¬Shifts [[' '.toUInt8, 0x0c, 'x'.toUInt8]] 1 firstLine ⟨4, 8, true⟩ := by
  rintro ⟨right, back, left, hright, -, -, hlaw⟩
  obtain ⟨r, b, l, hr, -, -, hlaw⟩ := hlaw 0 _ rfl
  have hlines : shiftedLines [[' '.toUInt8, 0x0c, 'x'.toUInt8]] 1 firstLine true ⟨4, 8, true⟩
      = some [List.replicate 5 ' '.toUInt8 ++ ['x'.toUInt8]] := by decide
  cases hlines.symm.trans hright
  cases hr
  rw [if_pos (by decide)] at hlaw
  exact absurd hlaw.rightText (by decide)

end Oxvim.Editor
