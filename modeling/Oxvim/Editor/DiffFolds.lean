import Oxvim.Editor.Fold
import Oxvim.Lib.Sweep

/-!
# Folds of diff mode

The lines away from every change fold shut. The changes of a window come from the blocks of all
compared buffers, one buffer after the other, and a single sweep turns them into folds.
-/

namespace Oxvim.Editor.Diff

open Lib Lib.Sweep

/-! ## Blocks -/

/-- A change of a line diff: the zero-based half-open rows on either side. -/
structure Operation where
  oldRange : Span Nat
  newRange : Span Nat
  deriving DecidableEq, Repr

/-- One changed region shared between the reference buffer and one compared buffer: one-based start
lines and line counts. -/
structure DiffBlock where
  base : Nat × Nat
  otherBuffer : Nat
  other : Nat × Nat
  deriving DecidableEq, Repr

/-- The block of an operation. -/
def blockOf (buffer : Nat) (operation : Operation) : DiffBlock where
  base := (operation.oldRange.start + 1, operation.oldRange.stop - operation.oldRange.start)
  otherBuffer := buffer
  other := (operation.newRange.start + 1, operation.newRange.stop - operation.newRange.start)

/-- Append a block, merged with the last one where the two touch in both buffers. -/
def pushBlock (blocks : List DiffBlock) (block : DiffBlock) : List DiffBlock :=
  match blocks.getLast? with
  | some last =>
    if last.otherBuffer = block.otherBuffer ∧ last.base.1 + last.base.2 = block.base.1 ∧
        last.other.1 + last.other.2 = block.other.1 then
      blocks.dropLast ++ [{ last with
        base := (last.base.1, last.base.2 + block.base.2)
        other := (last.other.1, last.other.2 + block.other.2) }]
    else blocks ++ [block]
  | none => blocks ++ [block]

/-- The blocks of the compared buffers, given the operations that each one's diff with the reference
buffer finds. -/
def computeBlocks (diffs : List (Nat × List Operation)) : List DiffBlock :=
  diffs.foldl (fun blocks diff =>
    diff.2.foldl (fun blocks operation => pushBlock blocks (blockOf diff.1 operation)) blocks) []

/-! ## Folds -/

/-- A fold over whole rows. -/
def foldLines (startRow endRow : Nat) : Except FoldError FoldRange :=
  FoldRange.normalized ⟨startRow, 0⟩ ⟨endRow, 0⟩

/-- A fold over the rows from `start` to before `stop`, if there are any. -/
def foldBetween (start stop : Nat) : List FoldRange :=
  if start < stop then
    match foldLines start stop with
    | .ok range => [range]
    | .error _ => []
  else []

/-- The first visible row of a span and the row behind its last, `none` where the subtraction
underflows. -/
def visibleRows (context lineCount : Nat) (span : Nat × Nat) : Option (Nat × Nat) :=
  if span.1 + span.2 = 0 then none
  else some (max (span.1 - context) 1 - 1, min (span.1 + span.2 - 1 + context) lineCount)

/-- The loop of `foldRangesAround`. -/
def sweepSpans (context lineCount : Nat) : Nat → List (Nat × Nat) → Option (List FoldRange)
  | nextFreeRow, [] => some (foldBetween nextFreeRow lineCount)
  | nextFreeRow, span :: spans => do
    let (visibleFirst, visiblePast) ← visibleRows context lineCount span
    let ranges ← sweepSpans context lineCount (max nextFreeRow visiblePast) spans
    return foldBetween nextFreeRow visibleFirst ++ ranges

/-- Turns the visible spans (one-based start, count) into the complementary closed fold ranges,
half-open zero-based rows. `none` is a panic. -/
def foldRangesAround (spans : List (Nat × Nat)) (context lineCount : Nat) :
    Option (List FoldRange) :=
  if lineCount = 0 then some []
  else if spans.isEmpty then some ((foldLines 0 lineCount).toOption.toList)
  else sweepSpans context lineCount 0 spans

/-- The spans that a buffer sees: the reference buffer those of all blocks, a compared buffer its
own. -/
def collectSpans (blocks : List DiffBlock) (reference buffer : Nat) : List (Nat × Nat) :=
  (blocks.filter fun block => buffer = reference ∨ block.otherBuffer = buffer).map fun block =>
    if buffer = reference then block.base else block.other

/-- The folds of a buffer in a diff. -/
def diffFoldRanges (diffs : List (Nat × List Operation)) (reference buffer context lineCount : Nat) :
    Option (List FoldRange) :=
  foldRangesAround (collectSpans (computeBlocks diffs) reference buffer) context lineCount

/-! ## What the folds should be -/

/-- Some span makes a row visible. -/
def Visible (spans : List (Nat × Nat)) (context row : Nat) : Prop :=
  ∃ span ∈ spans, (span.1 : Int) - 1 - context ≤ row ∧ (row : Int) < span.1 - 1 + span.2 + context

/-- A row of the buffer that no span makes visible. -/
def Hidden (spans : List (Nat × Nat)) (context lineCount row : Nat) : Prop :=
  row < lineCount ∧ ¬Visible spans context row

/-- The fold over the rows of a span. -/
def foldOf (rows : Span Nat) : FoldRange := ⟨⟨rows.start, 0⟩, ⟨rows.stop, 0⟩⟩

/-- The folds are, in order, the maximal runs of hidden rows. -/
def FoldsHidden (spans : List (Nat × Nat)) (context lineCount : Nat) : Prop :=
  ∃ runs, Exact (Hidden spans context lineCount) runs ∧
    foldRangesAround spans context lineCount = some (runs.map foldOf)

/-- The rows that a span makes visible. -/
def rowsOf (context : Nat) (span : Nat × Nat) : Span Nat :=
  ⟨max (span.1 - context) 1 - 1, span.1 + span.2 - 1 + context⟩

/-- The sweep meets the spans in an order that it can handle: no span is before the first line and
empty, and every gap that a span leaves ends in the buffer, is not reached by a later span, and has
a visible row behind it. -/
def InSweepOrder (spans : List (Nat × Nat)) (context lineCount : Nat) : Prop :=
  (∀ span ∈ spans, 0 < span.1 + span.2) ∧ Sweepable lineCount (spans.map (rowsOf context))

/-! ## The sweep -/

theorem foldBetween_eq (start stop : Nat) : foldBetween start stop = (gap start stop).map foldOf := by
  rw [foldBetween, gap]
  split_ifs with hlt
  · have hle : (⟨start, 0⟩ : FoldPosition) ≤ ⟨stop, 0⟩ := RowCol.le_iff.mpr (.inl hlt)
    have hne : (⟨start, 0⟩ : FoldPosition) ≠ ⟨stop, 0⟩ := by
      intro heq
      exact absurd (congrArg RowCol.row heq) (Nat.ne_of_lt hlt)
    have hlines : foldLines start stop = .ok (foldOf ⟨start, stop⟩) := by
      rw [foldLines, FoldRange.normalized]
      simp only [if_pos hle, if_neg hne]
      rfl
    rw [hlines]
    rfl
  · rfl

theorem foldOf_injective : Function.Injective foldOf := by
  intro a b h
  have hstart : a.start = b.start := congrArg (fun range => range.start.row) h
  have hstop : a.stop = b.stop := congrArg (fun range => range.stop.row) h
  cases a
  cases b
  congr

/-- The sweep of the source leaves the gaps of the abstract one. -/
theorem sweepSpans_eq {spans : List (Nat × Nat)} (h : ∀ span ∈ spans, 0 < span.1 + span.2)
    (context lineCount next : Nat) :
    sweepSpans context lineCount next spans
      = some ((gaps lineCount next (spans.map (rowsOf context))).map foldOf) := by
  induction spans generalizing next with
  | nil => exact congrArg some (foldBetween_eq next lineCount)
  | cons span spans ih =>
    have hspan : ¬span.1 + span.2 = 0 := Nat.pos_iff_ne_zero.mp (h span List.mem_cons_self)
    have hrest : ∀ other ∈ spans, 0 < other.1 + other.2 :=
      fun other hother => h other (List.mem_cons_of_mem _ hother)
    rw [sweepSpans, visibleRows, if_neg hspan, List.map_cons, gaps, List.map_append]
    simp only [Option.bind_eq_bind, Option.bind_some, ih hrest, foldBetween_eq]
    rfl

theorem sweepSpans_eq_none {spans : List (Nat × Nat)} {span : Nat × Nat} (hmem : span ∈ spans)
    (h : span.1 + span.2 = 0) (context lineCount next : Nat) :
    sweepSpans context lineCount next spans = none := by
  induction spans generalizing next with
  | nil => exact absurd hmem List.not_mem_nil
  | cons first spans ih =>
    rw [sweepSpans]
    rcases List.mem_cons.mp hmem with rfl | hmem
    · rw [visibleRows, if_pos h]
      rfl
    · cases hrows : visibleRows context lineCount first with
      | none => rfl
      | some rows => simp [ih hmem]

/-- A row of the buffer is hidden when no span covers it. -/
theorem hidden_iff {spans : List (Nat × Nat)} (h : ∀ span ∈ spans, 0 < span.1 + span.2)
    (context lineCount row : Nat) :
    Hidden spans context lineCount row ↔ Free lineCount (spans.map (rowsOf context)) row := by
  have hrow : ∀ span ∈ spans, ((span.1 : Int) - 1 - context ≤ row ∧
      (row : Int) < span.1 - 1 + span.2 + context) ↔
        ((rowsOf context span).start ≤ row ∧ row < (rowsOf context span).stop) := by
    intro span hspan
    have hpos := h span hspan
    simp only [rowsOf]
    omega
  have hvisible : Visible spans context row ↔ Covered (spans.map (rowsOf context)) row := by
    constructor
    · rintro ⟨span, hspan, hcover⟩
      exact ⟨_, List.mem_map_of_mem hspan, (hrow span hspan).mp hcover⟩
    · rintro ⟨a, ha, hcover⟩
      obtain ⟨span, hspan, rfl⟩ := List.mem_map.mp ha
      exact ⟨span, hspan, (hrow span hspan).mpr hcover⟩
  rw [Hidden, Free, hvisible]

end Oxvim.Editor.Diff
