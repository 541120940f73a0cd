import Oxvim.Editor.FlatText
import Oxvim.Editor.Shift
import Oxvim.Lib.Runs

/-!
# Word motions

The motions scan the joined lines. Newlines are blanks, so that lines do not matter to them.
-/

namespace Oxvim.Editor

open Lib Lib.Ascii Lib.Lines Lib.Runs Text

/-! ## The scans -/

/-- A resolved motion. -/
structure Motion where
  target : Position
  kind : MotionKind
  /-- Whether the destination byte belongs to the range. -/
  inclusive : Bool
  /-- Whether normal execution records the origin in the jumplist. -/
  isJump : Bool
  /-- Vertical motions keep `w_curswant`. -/
  keepCurswant : Bool
  deriving DecidableEq, Repr

/-- Blanks, word characters and the others. -/
def classify (byte : UInt8) (big : Bool) : UInt8 :=
  if isAsciiWhitespace byte then 0
  else if big || isAsciiAlphanumeric byte || byte == '_'.toUInt8 then 1
  else 2

/-- The class of the byte at an offset of the text. -/
def classAt (bytes : List UInt8) (big : Bool) (i : Nat) : UInt8 := classify (bytes.getD i 0) big

/-- `w` and, with `stop`, `e` once, `n` being the length of the text. -/
def wordForwardStep (cls : Nat → UInt8) (n : Nat) (stop : Bool) (here : Nat) : Nat :=
  if stop then
    let here := advance (fun i => cls i = 0) n here
    if cls here ≠ 0 then advance (fun i => cls i = cls here) n here
    else if here + 1 < n then advance (fun i => cls i = cls (here + 1)) n (here + 1)
    else here
  else
    let runEnd := advance (fun i => cls i = cls here) n here
    let blankEnd := advance (fun i => cls i = 0) n runEnd
    if blankEnd + 1 < n then blankEnd + 1 else blankEnd

/-- `b` and, with `stop`, `ge` once. -/
def wordBackwardStep (cls : Nat → UInt8) (stop : Bool) (here : Nat) : Nat :=
  if here = 0 then 0
  else
    let here := skipBack (fun i => cls i = 0) (here - 1)
    let runStart := retreat (fun i => cls i = cls here) here
    if stop ∧ runStart > 0 then skipBack (fun i => cls i = 0) (runStart - 1) else runStart

/-- Take a step `count` times, at least once. -/
def repeatStep (step : Nat → Nat) (count here : Nat) : Nat := step^[max count 1] here

/-- A scan of the joined lines from a position. -/
def scanFrom (lines : List Line) (start : Position) (move : List UInt8 → Nat → Nat) : Position :=
  let (bytes, starts) := flatten lines
  if bytes = [] then ⟨1, 0⟩
  else posOf lines starts (move bytes (min (offsetOf starts start) (bytes.length - 1)))

def wordForward (lines : List Line) (start : Position) (count : Nat) (big stop : Bool) : Position :=
  scanFrom lines start fun bytes =>
    repeatStep (wordForwardStep (classAt bytes big) bytes.length stop) count

def wordBackward (lines : List Line) (start : Position) (count : Nat) (big stop : Bool) : Position :=
  scanFrom lines start fun bytes => repeatStep (wordBackwardStep (classAt bytes big) stop) count

/-- The word motions. -/
inductive WordCommand where
  | w
  | W
  | e
  | E
  | b
  | B
  | ge
  | gE
  deriving DecidableEq, Repr

/-- Whether a motion takes words of all characters that are no blanks, whether it goes to the ends of
words, and whether it goes backward. -/
def WordCommand.flags : WordCommand → Bool × Bool × Bool
  | .w => (false, false, false)
  | .W => (true, false, false)
  | .e => (false, true, false)
  | .E => (true, true, false)
  | .b => (false, false, true)
  | .B => (true, false, true)
  | .ge => (false, true, true)
  | .gE => (true, true, true)

def wordMotion (lines : List Line) (start : Position) (command : WordCommand) (count : Nat) : Motion :=
  let (big, stop, backward) := command.flags
  { target := if backward then wordBackward lines start count big stop
      else wordForward lines start count big stop
    kind := .characterWise
    inclusive := stop
    isJump := false
    keepCurswant := false }

/-! ## One step -/

variable {cls : Nat → UInt8} {n here : Nat}

theorem wordForwardStep_start (hhere : here < n) :
    NearestAfter (IsWordStart cls 0 n) n here (wordForwardStep cls n false here) := by
  unfold wordForwardStep
  rw [if_neg Bool.false_ne_true]
  dsimp only
  obtain ⟨hle, hlt, hrun, hrunStop⟩ := advanced (p := fun i => decide (cls i = cls here)) hhere
  generalize advance (fun i => decide (cls i = cls here)) n here = runEnd at hle hlt hrun hrunStop ⊢
  obtain ⟨hle', hlt', hblank, hblankStop⟩ := advanced (p := fun i => decide (cls i = 0)) hlt
  generalize advance (fun i => decide (cls i = 0)) n runEnd = blankEnd at hle' hlt' hblank hblankStop ⊢
  simp only [decide_eq_true_eq, decide_eq_false_iff_not] at hrun hrunStop hblank hblankStop
  -- Inside the run and in the blanks no word starts.
  have hnone : ∀ i, here < i → i ≤ blankEnd → ¬IsWordStart cls 0 n i := by
    intro i hi hend hstart
    obtain ⟨-, hnot, hleft⟩ := isWordStart_iff.mp hstart
    rcases Nat.lt_or_ge runEnd i with hafter | hinside
    · exact hnot (hblank i hafter hend)
    · refine hleft (i - 1) (by omega) ?_
      rw [hrun i hi hinside]
      by_cases heq : i - 1 = here
      · rw [heq]
      · exact hrun (i - 1) (by omega) (by omega)
  split_ifs with hnext
  · refine .inl ⟨by omega, ?_, fun i hi hend => hnone i hi (by omega)⟩
    rw [isWordStart_iff]
    refine ⟨hnext, hblankStop hnext, fun i hi => ?_⟩
    obtain rfl : i = blankEnd := by omega
    rcases Nat.lt_or_ge runEnd i with hafter | hinside
    · rw [hblank i hafter le_rfl]
      exact Ne.symm (hblankStop hnext)
    · obtain rfl : i = runEnd := by omega
      have hcls : cls i = cls here := by
        rcases Nat.lt_or_ge here i with hgt | hge
        · exact hrun i hgt le_rfl
        · rw [le_antisymm hge hle]
      rw [hcls]
      exact Ne.symm (hrunStop hnext)
  · refine .inr ⟨fun i hi hstart => ?_, by omega⟩
    have hi' := (isWordStart_iff.mp hstart).1
    exact hnone i hi (by omega) hstart


/-- The position is the last one of a word and another word follows at once. -/
def AtAdjacentEnd (cls : Nat → UInt8) (n here : Nat) : Prop :=
  cls here ≠ 0 ∧ here + 1 < n ∧ cls (here + 1) ≠ 0 ∧ cls (here + 1) ≠ cls here

/-- From a position before or in a word, what a scan over the word ends at is its end, and none ends
before. -/
theorem advance_word (hhere : here < n) (hblank : cls here ≠ 0) :
    IsWordEnd cls 0 n (advance (fun i => decide (cls i = cls here)) n here) ∧
      ∀ i, here ≤ i → i < advance (fun i => decide (cls i = cls here)) n here →
        ¬IsWordEnd cls 0 n i := by
  obtain ⟨hle, hlt, hrun, hstop⟩ := advanced (p := fun i => decide (cls i = cls here)) hhere
  generalize advance (fun i => decide (cls i = cls here)) n here = target at hle hlt hrun hstop ⊢
  simp only [decide_eq_true_eq, decide_eq_false_iff_not] at hrun hstop
  have hcls : ∀ i, here ≤ i → i ≤ target → cls i = cls here := by
    intro i hi hend
    by_cases heq : i = here
    · rw [heq]
    · exact hrun i (by omega) hend
  constructor
  · rw [isWordEnd_iff, hcls target hle le_rfl]
    exact ⟨hlt, hblank, hstop⟩
  · intro i hi hend hword
    have hnext := (isWordEnd_iff.mp hword).2.2 (by omega)
    rw [hcls i hi (by omega), hcls (i + 1) (by omega) hend] at hnext
    exact hnext rfl

theorem wordForwardStep_stop (hhere : here < n) :
    NearestAfter (IsWordEnd cls 0 n) n here (wordForwardStep cls n true here) ↔
      ¬AtAdjacentEnd cls n here := by
  unfold wordForwardStep
  rw [if_pos rfl]
  dsimp only
  obtain ⟨hle, hlt, hblank, hstop⟩ := advanced (p := fun i => decide (cls i = 0)) hhere
  generalize advance (fun i => decide (cls i = 0)) n here = blankEnd at hle hlt hblank hstop ⊢
  simp only [decide_eq_true_eq, decide_eq_false_iff_not] at hblank hstop
  have hnone : ∀ i, here < i → i ≤ blankEnd → ¬IsWordEnd cls 0 n i :=
    fun i hi hend hword => (isWordEnd_iff.mp hword).2.1 (hblank i hi hend)
  by_cases hclass : cls blankEnd ≠ 0
  · -- No blank was skipped: the scan is over the word at hand.
    obtain rfl : blankEnd = here := by
      by_contra hne
      exact hclass (hblank blankEnd (by omega) le_rfl)
    rw [if_pos hclass]
    obtain ⟨hle', hlt', hrun, hrunStop⟩ :=
      advanced (p := fun i => decide (cls i = cls blankEnd)) hhere
    obtain ⟨hend, hbefore⟩ := advance_word hhere hclass
    generalize advance (fun i => decide (cls i = cls blankEnd)) n blankEnd = target at *
    simp only [decide_eq_true_eq, decide_eq_false_iff_not] at hrun hrunStop
    rcases Nat.lt_or_ge blankEnd target with hmoves | hstays
    · refine iff_of_true (.inl ⟨hmoves, hend, fun i hi => hbefore i (by omega)⟩) ?_
      rintro ⟨-, -, -, hdiffers⟩
      exact hdiffers (hrun (blankEnd + 1) (by omega) (by omega))
    · obtain rfl : target = blankEnd := by omega
      constructor
      · rintro hnearest ⟨-, hnext, hword, -⟩
        rcases hnearest with ⟨hmoves, -, -⟩ | ⟨hnoword, -⟩
        · omega
        · obtain ⟨hafter, -⟩ := advance_word hnext hword
          have hge := (advanced (p := fun i => decide (cls i = cls (target + 1))) hnext).le
          exact hnoword _ (by omega) hafter
      · intro hnot
        refine .inr ⟨fun i hi hword => ?_, ?_⟩
        · have hi' := (isWordEnd_iff.mp hword).1
          exact hnot ⟨hclass, by omega, hstop (by omega), hrunStop (by omega)⟩
        · by_contra hlast
          exact hnot ⟨hclass, by omega, hstop (by omega), hrunStop (by omega)⟩
  · rw [if_neg hclass]
    rw [not_not] at hclass
    have hnot : ¬AtAdjacentEnd cls n here := by
      rintro ⟨hword, hnext, hword', -⟩
      have hgt : here < blankEnd := by
        rcases Nat.lt_or_ge here blankEnd with hgt | hge
        · exact hgt
        · obtain rfl : blankEnd = here := by omega
          exact absurd hclass hword
      exact hword' (hblank (here + 1) (by omega) (by omega))
    refine iff_of_true ?_ hnot
    split_ifs with hnext
    · obtain ⟨hend, hbefore⟩ := advance_word hnext (hstop hnext)
      have hge := (advanced (p := fun i => decide (cls i = cls (blankEnd + 1))) hnext).le
      refine .inl ⟨by omega, hend, fun i hi hlt => ?_⟩
      rcases Nat.lt_or_ge blankEnd i with hafter | hinside
      · exact hbefore i (by omega) hlt
      · exact hnone i hi hinside
    · refine .inr ⟨fun i hi hword => ?_, by omega⟩
      have hi' := (isWordEnd_iff.mp hword).1
      exact hnone i hi (by omega) hword


/-- What a scan back over the word at a position ends at is its start, and none starts behind it. -/
theorem retreat_word (hhere : here < n) (hblank : cls here ≠ 0) :
    IsWordStart cls 0 n (retreat (fun i => decide (cls i = cls here)) here) ∧
      ∀ i, retreat (fun i => decide (cls i = cls here)) here < i → i ≤ here →
        ¬IsWordStart cls 0 n i := by
  obtain ⟨hle, hrun, hstop⟩ := retreated (fun i => decide (cls i = cls here)) here
  generalize retreat (fun i => decide (cls i = cls here)) here = target at hle hrun hstop ⊢
  simp only [decide_eq_true_eq, decide_eq_false_iff_not] at hrun hstop
  have hcls : ∀ i, target ≤ i → i ≤ here → cls i = cls here := by
    intro i hi hend
    by_cases heq : i = here
    · rw [heq]
    · exact hrun i hi (by omega)
  constructor
  · rw [isWordStart_iff, hcls target le_rfl hle]
    exact ⟨by omega, hblank, hstop⟩
  · intro i hi hend hword
    refine (isWordStart_iff.mp hword).2.2 (i - 1) (by omega) ?_
    rw [hcls i (by omega) hend, hcls (i - 1) (by omega) (by omega)]

theorem wordBackwardStep_start (hhere : here < n) :
    NearestBefore (IsWordStart cls 0 n) here (wordBackwardStep cls false here) := by
  unfold wordBackwardStep
  by_cases hzero : here = 0
  · subst hzero
    rw [if_pos rfl]
    exact .inr ⟨fun i hi => by omega, rfl⟩
  rw [if_neg hzero]
  dsimp only
  rw [if_neg (fun h => Bool.false_ne_true h.1)]
  obtain ⟨hle, hblank, hstop⟩ := skippedBack (fun i => decide (cls i = 0)) (here - 1)
  generalize skipBack (fun i => decide (cls i = 0)) (here - 1) = word at hle hblank hstop ⊢
  simp only [decide_eq_true_eq, decide_eq_false_iff_not] at hblank hstop
  have hnone : ∀ i, word < i → i < here → ¬IsWordStart cls 0 n i :=
    fun i hi hend hword => (isWordStart_iff.mp hword).2.1 (hblank i hi (by omega))
  by_cases hclass : cls word = 0
  · -- There are blanks only.
    obtain rfl : word = 0 := hstop.resolve_right (not_not.mpr hclass)
    refine .inr ⟨fun i hi hword => ?_, rfl⟩
    rcases Nat.eq_zero_or_pos i with rfl | hpos
    · exact (isWordStart_iff.mp hword).2.1 hclass
    · exact hnone i hpos hi hword
  · obtain ⟨hstart, hbehind⟩ := retreat_word (by omega : word < n) hclass
    have hle' := (retreated (fun i => decide (cls i = cls word)) word).le
    refine .inl ⟨by omega, hstart, fun i hi hlt => ?_⟩
    rcases Nat.lt_or_ge word i with hafter | hinside
    · exact hnone i hafter hlt
    · exact hbehind i hi hinside

/-- The position is in a word and not its first one, or no word ends before it, but perhaps one at the
very first position. -/
def BehindWordStart (cls : Nat → UInt8) (n here : Nat) : Prop :=
  (∃ i, i + 1 = here ∧ cls i = cls here ∧ cls here ≠ 0) ∨ ∀ i, i < here → IsWordEnd cls 0 n i → i = 0

theorem wordBackwardStep_stop (hhere : here < n) :
    NearestBefore (IsWordEnd cls 0 n) here (wordBackwardStep cls true here) ↔
      BehindWordStart cls n here := by
  unfold wordBackwardStep
  by_cases hzero : here = 0
  · subst hzero
    rw [if_pos rfl]
    exact iff_of_true (.inr ⟨fun i hi => by omega, rfl⟩) (.inr fun i hi => by omega)
  rw [if_neg hzero]
  dsimp only
  obtain ⟨hle, hblank, hstop⟩ := skippedBack (fun i => decide (cls i = 0)) (here - 1)
  generalize skipBack (fun i => decide (cls i = 0)) (here - 1) = word at hle hblank hstop ⊢
  simp only [decide_eq_true_eq, decide_eq_false_iff_not] at hblank hstop
  have hnone : ∀ i, word < i → i < here → ¬IsWordEnd cls 0 n i :=
    fun i hi hend hword => (isWordEnd_iff.mp hword).2.1 (hblank i hi (by omega))
  by_cases hclass : cls word = 0
  · -- There are blanks only.
    obtain rfl : word = 0 := hstop.resolve_right (not_not.mpr hclass)
    have hends : ∀ i, i < here → ¬IsWordEnd cls 0 n i := by
      intro i hi hword
      rcases Nat.eq_zero_or_pos i with rfl | hpos
      · exact (isWordEnd_iff.mp hword).2.1 hclass
      · exact hnone i hpos hi hword
    refine iff_of_true (.inr ⟨hends, ?_⟩) (.inr fun i hi hword => absurd hword (hends i hi))
    rw [if_neg]
    · rfl
    · rintro ⟨-, hpos⟩
      exact Nat.not_lt_zero _ hpos
  obtain ⟨hleStart, hrun, hrunStop⟩ := retreated (fun i => decide (cls i = cls word)) word
  generalize retreat (fun i => decide (cls i = cls word)) word = first at hleStart hrun hrunStop ⊢
  simp only [decide_eq_true_eq, decide_eq_false_iff_not] at hrun hrunStop
  have hcls : ∀ i, first ≤ i → i ≤ word → cls i = cls word := by
    intro i hi hend
    by_cases heq : i = word
    · rw [heq]
    · exact hrun i hi (by omega)
  -- The scan goes on to the nearest word end before the start of the word.
  generalize htarget : (if true = true ∧ first > 0 then
    skipBack (fun i => decide (cls i = 0)) (first - 1) else first) = target
  have hnearest : (target < first ∧ IsWordEnd cls 0 n target ∧
        ∀ i, target < i → i < first → ¬IsWordEnd cls 0 n i) ∨
      (target = 0 ∧ ∀ i, i < first → ¬IsWordEnd cls 0 n i) := by
    by_cases hfirst : first > 0
    · rw [if_pos ⟨rfl, hfirst⟩] at htarget
      obtain ⟨hleTarget, hblankTarget, hstopTarget⟩ :=
        skippedBack (fun i => decide (cls i = 0)) (first - 1)
      rw [htarget] at hleTarget hblankTarget hstopTarget
      simp only [decide_eq_true_eq, decide_eq_false_iff_not] at hblankTarget hstopTarget
      have hbetween : ∀ i, target < i → i < first → ¬IsWordEnd cls 0 n i :=
        fun i hi hend hword => (isWordEnd_iff.mp hword).2.1 (hblankTarget i hi (by omega))
      by_cases hclassTarget : cls target = 0
      · obtain rfl : target = 0 := hstopTarget.resolve_right (not_not.mpr hclassTarget)
        refine .inr ⟨rfl, fun i hi hword => ?_⟩
        rcases Nat.eq_zero_or_pos i with rfl | hpos
        · exact (isWordEnd_iff.mp hword).2.1 hclassTarget
        · exact hbetween i hpos hi hword
      · refine .inl ⟨by omega, isWordEnd_iff.mpr ⟨by omega, hclassTarget, fun _ => ?_⟩, hbetween⟩
        by_cases hadjacent : target + 1 = first
        · rw [hadjacent, hcls first le_rfl hleStart]
          exact Ne.symm (hrunStop target hadjacent)
        · rw [hblankTarget (target + 1) (by omega) (by omega)]
          exact Ne.symm hclassTarget
    · rw [if_neg (fun h => hfirst h.2)] at htarget
      exact .inr ⟨by omega, fun i hi => by omega⟩
  by_cases hsame : word + 1 = here ∧ cls word = cls here
  · -- The position is inside the word, which ends behind it.
    have hinside : ∀ i, first ≤ i → i < here → ¬IsWordEnd cls 0 n i := by
      intro i hi hend hword
      refine (isWordEnd_iff.mp hword).2.2 (by omega) ?_
      rw [hcls i hi (by omega)]
      by_cases heq : i = word
      · rw [heq, hsame.1, hsame.2]
      · exact hcls (i + 1) (by omega) (by omega)
    refine iff_of_true ?_ (.inl ⟨word, hsame.1, hsame.2, by rw [← hsame.2]; exact hclass⟩)
    rcases hnearest with ⟨hlt, hend, hbetween⟩ | ⟨hzero, hbetween⟩
    · refine .inl ⟨by omega, hend, fun i hi hlt' => ?_⟩
      rcases Nat.lt_or_ge i first with hbefore | hafter
      · exact hbetween i hi hbefore
      · exact hinside i hafter hlt'
    · refine .inr ⟨fun i hi => ?_, hzero⟩
      rcases Nat.lt_or_ge i first with hbefore | hafter
      · exact hbetween i hbefore
      · exact hinside i hafter hi
  · -- The word ends before the position, but the scan goes on to its start and farther.
    have hword : IsWordEnd cls 0 n word := by
      refine isWordEnd_iff.mpr ⟨by omega, hclass, fun _ heq => ?_⟩
      by_cases hadjacent : word + 1 = here
      · exact hsame ⟨hadjacent, by rw [← heq, hadjacent]⟩
      · rw [hblank (word + 1) (by omega) (by omega)] at heq
        exact hclass heq.symm
    have hbehind : BehindWordStart cls n here ↔ word = 0 := by
      constructor
      · rintro (⟨i, hi, heq, hne⟩ | hends)
        · obtain rfl : i = here - 1 := by omega
          by_cases hadjacent : word + 1 = here
          · obtain rfl : here - 1 = word := by omega
            exact absurd ⟨hadjacent, heq⟩ hsame
          · rw [← heq] at hne
            exact absurd (hblank (here - 1) (by omega) le_rfl) hne
        · exact hends word (by omega) hword
      · rintro rfl
        refine .inr fun i hi hend => ?_
        by_contra hne
        exact hnone i (by omega) hi hend
    rw [hbehind]
    constructor
    · rintro (⟨hlt, -, hbetween⟩ | ⟨hends, -⟩)
      · have hge : word ≤ target := by
          by_contra hlt'
          exact hbetween word (by omega) (by omega) hword
        rcases hnearest with ⟨hlt', -, -⟩ | ⟨rfl, -⟩
        · omega
        · omega
      · exact absurd hword (hends word (by omega))
    · rintro rfl
      obtain rfl : target = 0 := by
        rcases hnearest with ⟨hlt, -, -⟩ | ⟨hzero, -⟩
        · omega
        · exact hzero
      exact .inl ⟨by omega, hword, hnone⟩


/-! ## Where the steps end -/

theorem wordForwardStep_lt (hhere : here < n) (stop : Bool) : wordForwardStep cls n stop here < n := by
  cases stop with
  | false =>
    rcases wordForwardStep_start hhere with ⟨-, hword, -⟩ | ⟨-, hlast⟩
    · exact (isWordStart_iff.mp hword).1
    · omega
  | true =>
    unfold wordForwardStep
    rw [if_pos rfl]
    dsimp only
    have hlt := (advanced (p := fun i => decide (cls i = 0)) hhere).lt
    split_ifs with hclass hnext
    · exact (advanced hlt).lt
    · exact (advanced hnext).lt
    · exact hlt

/-- From the end of a word that another one follows at once, `e` does not move. -/
theorem wordForwardStep_adjacent (h : AtAdjacentEnd cls n here) :
    wordForwardStep cls n true here = here := by
  obtain ⟨hword, -, hnext, hdiffers⟩ := h
  have hblank : advance (fun i => decide (cls i = 0)) n here = here := by
    rw [advance, if_neg]
    rintro ⟨-, hzero⟩
    exact hnext (by simpa using hzero)
  unfold wordForwardStep
  rw [if_pos rfl]
  dsimp only
  rw [hblank, if_pos hword, advance, if_neg]
  rintro ⟨-, hsame⟩
  exact hdiffers (by simpa using hsame)

/-- A step forward goes to a word or to the last byte. -/
theorem wordForwardStep_cases (hhere : here < n) (stop : Bool) :
    cls (wordForwardStep cls n stop here) ≠ 0 ∨ wordForwardStep cls n stop here = n - 1 := by
  cases stop with
  | false =>
    rcases wordForwardStep_start hhere with ⟨-, hword, -⟩ | ⟨-, hlast⟩
    · exact .inl (isWordStart_iff.mp hword).2.1
    · exact .inr hlast
  | true =>
    by_cases hadjacent : AtAdjacentEnd cls n here
    · rw [wordForwardStep_adjacent hadjacent]
      exact .inl hadjacent.1
    · rcases (wordForwardStep_stop hhere).mpr hadjacent with ⟨-, hword, -⟩ | ⟨-, hlast⟩
      · exact .inl (isWordEnd_iff.mp hword).2.1
      · exact .inr hlast

/-- Where only blanks follow, a step forward goes to the last byte. -/
theorem wordForwardStep_blank (hhere : here < n) (hblank : ∀ i, here < i → i < n → cls i = 0)
    (stop : Bool) : wordForwardStep cls n stop here = n - 1 := by
  cases stop with
  | false =>
    rcases wordForwardStep_start hhere with ⟨hlt, hword, -⟩ | ⟨-, hlast⟩
    · obtain ⟨hn, hne, -⟩ := isWordStart_iff.mp hword
      exact absurd (hblank _ hlt hn) hne
    · exact hlast
  | true =>
    have hadjacent : ¬AtAdjacentEnd cls n here := by
      rintro ⟨-, hnext, hne, -⟩
      exact hne (hblank (here + 1) (by omega) hnext)
    rcases (wordForwardStep_stop hhere).mpr hadjacent with ⟨hlt, hword, -⟩ | ⟨-, hlast⟩
    · obtain ⟨hn, hne, -⟩ := isWordEnd_iff.mp hword
      exact absurd (hblank _ hlt hn) hne
    · exact hlast

/-- A step backward goes to a word or to the first byte. -/
theorem wordBackwardStep_cases (hhere : here < n) (stop : Bool) :
    wordBackwardStep cls stop here ≤ here ∧
      (cls (wordBackwardStep cls stop here) ≠ 0 ∨ wordBackwardStep cls stop here = 0) := by
  cases stop with
  | false =>
    rcases wordBackwardStep_start hhere with ⟨hlt, hword, -⟩ | ⟨-, hzero⟩
    · exact ⟨hlt.le, .inl (isWordStart_iff.mp hword).2.1⟩
    · rw [hzero]
      exact ⟨Nat.zero_le _, .inr rfl⟩
  | true =>
    unfold wordBackwardStep
    by_cases hzero : here = 0
    · rw [if_pos hzero]
      exact ⟨Nat.zero_le _, .inr rfl⟩
    rw [if_neg hzero]
    dsimp only
    have hword := (skippedBack (fun i => decide (cls i = 0)) (here - 1)).le
    generalize skipBack (fun i => decide (cls i = 0)) (here - 1) = word at hword ⊢
    have hfirst := (retreated (fun i => decide (cls i = cls word)) word).le
    generalize retreat (fun i => decide (cls i = cls word)) word = first at hfirst ⊢
    split_ifs with hstop
    · obtain ⟨hle, -, hend⟩ := skippedBack (fun i => decide (cls i = 0)) (first - 1)
      refine ⟨by omega, ?_⟩
      rcases hend with hend | hend
      · exact .inr hend
      · exact .inl (by simpa using hend)
    · have hnot : ¬first > 0 := fun hpos => hstop ⟨rfl, hpos⟩
      exact ⟨by omega, .inr (by omega)⟩

/-! ## Offsets and positions -/

variable {lines : List Line}

theorem classAt_eq {bytes : List UInt8} {offset : Nat} {b : UInt8} {big : Bool} (h : bytes[offset]? = some b) :
    classAt bytes big offset = classify b big := by
  unfold classAt
  rw [List.getD_eq_getElem?_getD, h]
  rfl

/-- An offset of the text. -/
theorem exists_place_of_lt {offset : Nat} (h : offset < (flatten lines).1.length) :
    ∃ before line after col, Place lines offset before line after col ∧
      (col = line.length → after ≠ []) := by
  have hne : lines ≠ [] := by
    rintro rfl
    exact absurd h (Nat.not_lt_zero _)
  have hsize := length_joined hne
  have hlength : (flatten lines).1.length = (joined '\n'.toUInt8 lines).length := rfl
  have hsize' : offset < size lines := by omega
  obtain ⟨before, line, after, col, hplace⟩ := exists_place hsize'
  refine ⟨before, line, after, col, hplace, ?_⟩
  rintro rfl rfl
  have hbyte := hplace.getElem?
  rw [if_neg (Nat.lt_irrefl _), if_pos rfl, List.getElem?_eq_none_iff] at hbyte
  omega

/-- Going to a position and taking its offset again leads back, but from a newline behind a line that
is not empty, which leads to the byte before. -/
theorem offsetOf_posOf {offset : Nat} (big : Bool) (h : offset < (flatten lines).1.length) :
    offsetOf (flatten lines).2 (posOf lines (flatten lines).2 offset) = offset ∨
      (offset ≠ 0 ∧ classAt (flatten lines).1 big offset = 0 ∧
        offsetOf (flatten lines).2 (posOf lines (flatten lines).2 offset) = offset - 1) := by
  obtain ⟨before, line, after, col, hplace, hafter⟩ := exists_place_of_lt h
  have hbyte := hplace.getElem?
  rw [hplace.posOf_eq]
  obtain ⟨rfl, rfl, hcol⟩ := hplace
  rw [offsetOf_eq]
  by_cases hnewline : col = line.length
  · subst hnewline
    rw [if_neg (Nat.lt_irrefl _), if_neg (hafter rfl)] at hbyte
    rcases Nat.eq_zero_or_pos line.length with hempty | hpos
    · rw [hempty]
      exact .inl rfl
    · refine .inr ⟨by omega, (classAt_eq hbyte).trans rfl, ?_⟩
      omega
  · exact .inl (by omega)


/-! ## The word grammar -/

/-- The offset of the cursor. -/
def cursorOffset (lines : List Line) (start : Position) : Nat :=
  min (offsetOf (flatten lines).2 start) ((flatten lines).1.length - 1)

/-- Where a motion is to go from an offset of a text. -/
def WordCommand.Goes (command : WordCommand) (bytes : List UInt8) (here target : Nat) : Prop :=
  let (big, stop, backward) := command.flags
  let boundary := if stop then IsWordEnd (classAt bytes big) 0 bytes.length
    else IsWordStart (classAt bytes big) 0 bytes.length
  if backward then NearestBefore boundary here target
  else NearestAfter boundary bytes.length here target

/-- A motion goes to the nearest word boundary of its kind, and its counts add up. -/
structure WordMotionLaw (lines : List Line) (start : Position) (command : WordCommand) : Prop where
  goes : (flatten lines).1 ≠ [] → ∃ offset before line after col,
    command.Goes (flatten lines).1 (cursorOffset lines start) offset ∧
    Place lines offset before line after col ∧
    (wordMotion lines start command 1).target = ⟨before.length + 1, min col (line.length - 1)⟩
  counts : ∀ m k, 1 ≤ m → 1 ≤ k → (wordMotion lines start command (m + k)).target =
    (wordMotion lines (wordMotion lines start command m).target command k).target

/-- `e` does not go on from the end of a word that another word follows at once, and `ge` skips the
word before the cursor unless the cursor is inside a word. -/
def WordCommand.Exact (command : WordCommand) (bytes : List UInt8) (here : Nat) : Prop :=
  let (big, stop, backward) := command.flags
  if ¬stop then True
  else if backward then BehindWordStart (classAt bytes big) bytes.length here
  else ¬AtAdjacentEnd (classAt bytes big) bytes.length here

/-- A motion's step. -/
def WordCommand.step (command : WordCommand) (bytes : List UInt8) : Nat → Nat :=
  let (big, stop, backward) := command.flags
  if backward then wordBackwardStep (classAt bytes big) stop
  else wordForwardStep (classAt bytes big) bytes.length stop

theorem wordMotion_target (lines : List Line) (start : Position) (command : WordCommand) (count : Nat) :
    (wordMotion lines start command count).target =
      scanFrom lines start fun bytes => repeatStep (command.step bytes) count := by
  cases command <;> rfl

/-- A step goes where it should just when it starts at a good place. -/
theorem goes_step_iff {command : WordCommand} {bytes : List UInt8} {here : Nat}
    (hhere : here < bytes.length) :
    command.Goes bytes here (command.step bytes here) ↔ command.Exact bytes here := by
  cases command with
  | w => exact iff_of_true (wordForwardStep_start hhere) trivial
  | W => exact iff_of_true (wordForwardStep_start hhere) trivial
  | e => exact wordForwardStep_stop hhere
  | E => exact wordForwardStep_stop hhere
  | b => exact iff_of_true (wordBackwardStep_start hhere) trivial
  | B => exact iff_of_true (wordBackwardStep_start hhere) trivial
  | ge => exact wordBackwardStep_stop hhere
  | gE => exact wordBackwardStep_stop hhere


/-! ## Counts -/

variable {command : WordCommand} {start : Position}

theorem step_eq (command : WordCommand) (bytes : List UInt8) :
    (∃ big stop, command.step bytes = wordForwardStep (classAt bytes big) bytes.length stop) ∨
      ∃ big stop, command.step bytes = wordBackwardStep (classAt bytes big) stop := by
  unfold WordCommand.step
  obtain ⟨big, stop, backward⟩ := command.flags
  cases backward with
  | false => exact .inl ⟨big, stop, rfl⟩
  | true => exact .inr ⟨big, stop, rfl⟩

theorem step_lt {bytes : List UInt8} {here : Nat} (hhere : here < bytes.length) :
    command.step bytes here < bytes.length := by
  rcases step_eq command bytes with ⟨big, stop, hstep⟩ | ⟨big, stop, hstep⟩
  · rw [hstep]
    exact wordForwardStep_lt hhere stop
  · rw [hstep]
    exact lt_of_le_of_lt (wordBackwardStep_cases hhere stop).1 hhere

theorem iterate_step_lt {bytes : List UInt8} {here : Nat} (hhere : here < bytes.length) (count : Nat) :
    (command.step bytes)^[count] here < bytes.length := by
  induction count with
  | zero => exact hhere
  | succ count ih =>
    rw [Function.iterate_succ_apply']
    exact step_lt ih

/-- A step from where the last step led, its offset taken from the position again, is a step from that
offset. -/
theorem step_cursorOffset {here : Nat} (hhere : here < (flatten lines).1.length) :
    command.step (flatten lines).1
        (cursorOffset lines (posOf lines (flatten lines).2 (command.step (flatten lines).1 here))) =
      command.step (flatten lines).1 (command.step (flatten lines).1 here) := by
  have hlt : command.step (flatten lines).1 here < (flatten lines).1.length := step_lt hhere
  have hexact : ∀ offset, offset < (flatten lines).1.length →
      offsetOf (flatten lines).2 (posOf lines (flatten lines).2 offset) = offset →
      cursorOffset lines (posOf lines (flatten lines).2 offset) = offset := by
    intro offset hoffset heq
    unfold cursorOffset
    rw [heq, Nat.min_eq_left (by omega)]
  rcases step_eq command (flatten lines).1 with ⟨big, stop, hstep⟩ | ⟨big, stop, hstep⟩
  · rcases offsetOf_posOf big hlt with heq | ⟨hne, hblank, heq⟩
    · rw [hexact _ hlt heq]
    · -- The last newline: from the byte before it the step leads to it again.
      rw [hstep] at hlt hne hblank heq ⊢
      have hlast := (wordForwardStep_cases hhere stop).resolve_left (not_not.mpr hblank)
      generalize wordForwardStep (classAt (flatten lines).1 big) (flatten lines).1.length stop here
        = offset at *
      have hfrom : wordForwardStep (classAt (flatten lines).1 big) (flatten lines).1.length stop
          (offset - 1) = (flatten lines).1.length - 1 := by
        refine wordForwardStep_blank (by omega) (fun i hi hlt' => ?_) stop
        obtain rfl : i = offset := by omega
        exact hblank
      have hstay : wordForwardStep (classAt (flatten lines).1 big) (flatten lines).1.length stop
          offset = (flatten lines).1.length - 1 :=
        wordForwardStep_blank hlt (fun i hi hlt' => by omega) stop
      unfold cursorOffset
      rw [heq, Nat.min_eq_left (by omega), hfrom, hstay]
  · rcases offsetOf_posOf big hlt with heq | ⟨hne, hblank, heq⟩
    · rw [hexact _ hlt heq]
    · rw [hstep] at hne hblank
      rcases (wordBackwardStep_cases hhere stop).2 with hword | hzero
      · exact absurd hblank hword
      · exact absurd hzero hne

theorem scanFrom_eq {move : List UInt8 → Nat → Nat} (h : (flatten lines).1 ≠ []) :
    scanFrom lines start move =
      posOf lines (flatten lines).2 (move (flatten lines).1 (cursorOffset lines start)) := by
  unfold scanFrom
  dsimp only
  rw [if_neg h]
  rfl

theorem cursorOffset_lt (h : (flatten lines).1 ≠ []) (start : Position) :
    cursorOffset lines start < (flatten lines).1.length := by
  have hpos := List.length_pos_iff.mpr h
  unfold cursorOffset
  omega

theorem wordMotion_counts {m k : Nat} (hm : 1 ≤ m) (hk : 1 ≤ k) :
    (wordMotion lines start command (m + k)).target =
      (wordMotion lines (wordMotion lines start command m).target command k).target := by
  rw [wordMotion_target, wordMotion_target, wordMotion_target]
  by_cases hempty : (flatten lines).1 = []
  · unfold scanFrom
    dsimp only
    rw [if_pos hempty, if_pos hempty]
  rw [scanFrom_eq hempty, scanFrom_eq hempty, scanFrom_eq hempty]
  unfold repeatStep
  rw [Nat.max_eq_left hm, Nat.max_eq_left hk, Nat.max_eq_left (by omega)]
  obtain ⟨m, rfl⟩ := Nat.exists_eq_add_of_le' hm
  obtain ⟨k, rfl⟩ := Nat.exists_eq_add_of_le' hk
  have hlt : (command.step (flatten lines).1)^[m] (cursorOffset lines start)
      < (flatten lines).1.length := iterate_step_lt (cursorOffset_lt hempty start) m
  have hsum : m + 1 + (k + 1) = (k + 1) + (m + 1) := by omega
  have hstep : command.step (flatten lines).1 (cursorOffset lines (posOf lines (flatten lines).2
        ((command.step (flatten lines).1)^[m + 1] (cursorOffset lines start)))) =
      command.step (flatten lines).1
        ((command.step (flatten lines).1)^[m + 1] (cursorOffset lines start)) := by
    rw [Function.iterate_succ_apply']
    exact step_cursorOffset hlt
  rw [hsum, Function.iterate_add_apply, Function.iterate_succ_apply _ k,
    Function.iterate_succ_apply _ k]
  exact congrArg _ (congrArg _ hstep.symm)


/-! ## The law -/

/-- Offsets of words, and the first one, are told apart by their positions. -/
theorem posOf_injective {big : Bool} {a b : Nat} (ha : a < (flatten lines).1.length)
    (hb : b < (flatten lines).1.length) (haWord : classAt (flatten lines).1 big a ≠ 0 ∨ a = 0)
    (hbWord : classAt (flatten lines).1 big b ≠ 0 ∨ b = 0)
    (h : posOf lines (flatten lines).2 a = posOf lines (flatten lines).2 b) : a = b := by
  have hexact : ∀ offset, offset < (flatten lines).1.length →
      (classAt (flatten lines).1 big offset ≠ 0 ∨ offset = 0) →
      offsetOf (flatten lines).2 (posOf lines (flatten lines).2 offset) = offset := by
    intro offset hoffset hword
    rcases offsetOf_posOf big hoffset with heq | ⟨hne, hblank, -⟩
    · exact heq
    · rcases hword with hword | hzero
      · exact absurd hblank hword
      · exact absurd hzero hne
  rw [← hexact a ha haWord, h, hexact b hb hbWord]

/-- A step that leads to the position of the right offset leads to that offset, or is exact. -/
theorem exact_of_goes {here target : Nat} (hhere : here < (flatten lines).1.length)
    (hgoes : command.Goes (flatten lines).1 here target)
    (hpos : posOf lines (flatten lines).2 (command.step (flatten lines).1 here)
      = posOf lines (flatten lines).2 target) : command.Exact (flatten lines).1 here := by
  have hlt : command.step (flatten lines).1 here < (flatten lines).1.length := step_lt hhere
  have hforward : ∀ big, command.step (flatten lines).1
        = wordForwardStep (classAt (flatten lines).1 big) (flatten lines).1.length true →
      NearestAfter (IsWordEnd (classAt (flatten lines).1 big) 0 (flatten lines).1.length)
        (flatten lines).1.length here target →
      ¬AtAdjacentEnd (classAt (flatten lines).1 big) (flatten lines).1.length here := by
    intro big hstep hnearest hadjacent
    rw [hstep, wordForwardStep_adjacent hadjacent] at hpos
    rcases hnearest with ⟨hafter, hword, -⟩ | ⟨hnone, -⟩
    · obtain ⟨htarget, hclass, -⟩ := isWordEnd_iff.mp hword
      have heq := posOf_injective hhere htarget (.inl hadjacent.1) (.inl hclass) hpos
      omega
    · obtain ⟨-, hnext, hword, -⟩ := hadjacent
      obtain ⟨hend, -⟩ := advance_word hnext hword
      have hge := (advanced (p := fun i => decide (classAt (flatten lines).1 big i
        = classAt (flatten lines).1 big (here + 1))) hnext).le
      exact hnone _ (by omega) hend
  have hbackward : ∀ big, command.step (flatten lines).1
        = wordBackwardStep (classAt (flatten lines).1 big) true →
      NearestBefore (IsWordEnd (classAt (flatten lines).1 big) 0 (flatten lines).1.length) here target →
      BehindWordStart (classAt (flatten lines).1 big) (flatten lines).1.length here := by
    intro big hstep hnearest
    rcases hnearest with ⟨hbefore, hword, hbetween⟩ | ⟨hnone, -⟩
    · obtain ⟨htarget, hclass, -⟩ := isWordEnd_iff.mp hword
      rw [hstep] at hpos hlt
      have heq := posOf_injective hlt htarget (wordBackwardStep_cases hhere true).2 (.inl hclass) hpos
      refine (wordBackwardStep_stop hhere).mp ?_
      rw [heq]
      exact .inl ⟨hbefore, hword, hbetween⟩
    · exact .inr fun i hi hword => absurd hword (hnone i hi)
  cases command with
  | w => trivial
  | W => trivial
  | e => exact hforward false rfl hgoes
  | E => exact hforward true rfl hgoes
  | b => trivial
  | B => trivial
  | ge => exact hbackward false rfl hgoes
  | gE => exact hbackward true rfl hgoes

theorem goes_lt {here target : Nat} (hhere : here < (flatten lines).1.length)
    (hgoes : command.Goes (flatten lines).1 here target) : target < (flatten lines).1.length := by
  have hboundary : ∀ big (stop : Bool), (if stop then
        IsWordEnd (classAt (flatten lines).1 big) 0 (flatten lines).1.length
      else IsWordStart (classAt (flatten lines).1 big) 0 (flatten lines).1.length) target →
      target < (flatten lines).1.length := by
    intro big stop h
    cases stop with
    | false => exact (isWordStart_iff.mp h).1
    | true => exact (isWordEnd_iff.mp h).1
  unfold WordCommand.Goes at hgoes
  generalize command.flags = flags at hgoes
  obtain ⟨big, stop, backward⟩ := flags
  cases backward with
  | false =>
    rcases hgoes with ⟨-, hword, -⟩ | ⟨-, hlast⟩
    · exact hboundary big stop hword
    · omega
  | true =>
    rcases hgoes with ⟨hlt, -, -⟩ | ⟨-, hzero⟩
    · exact lt_trans hlt hhere
    · omega

/-- The word motions follow the word grammar but for `e` at the end of a word that another word follows
at once, and for `ge` at the start of a word or between words. -/
theorem wordMotionLaw_iff (lines : List Line) (start : Position) (command : WordCommand) :
    WordMotionLaw lines start command ↔
      ((flatten lines).1 ≠ [] → command.Exact (flatten lines).1 (cursorOffset lines start)) := by
  have htarget : ∀ hne : (flatten lines).1 ≠ [], (wordMotion lines start command 1).target =
      posOf lines (flatten lines).2 (command.step (flatten lines).1 (cursorOffset lines start)) := by
    intro hne
    rw [wordMotion_target, scanFrom_eq hne]
    rfl
  constructor
  · intro h hne
    have hhere := cursorOffset_lt hne start
    obtain ⟨offset, before, line, after, col, hgoes, hplace, hpos⟩ := h.goes hne
    refine exact_of_goes hhere hgoes ?_
    rw [← htarget hne, hpos, hplace.posOf_eq]
  · intro hexact
    refine ⟨fun hne => ?_, fun m k hm hk => wordMotion_counts hm hk⟩
    have hhere := cursorOffset_lt hne start
    have hgoes := (goes_step_iff hhere).mpr (hexact hne)
    have hlt : command.step _ _ < _ := step_lt hhere
    obtain ⟨before, line, after, col, hplace, -⟩ := exists_place_of_lt hlt
    refine ⟨_, before, line, after, col, hgoes, hplace, ?_⟩
    rw [htarget hne, hplace.posOf_eq]

/-- `ge` from the start of a word skips the word before it. -/
theorem not_wordMotionLaw_ge :
    ¬WordMotionLaw ["foo bar".toList.map Char.toUInt8] ⟨1, 4⟩ .ge := by
  intro h
  obtain ⟨offset, before, line, after, col, hgoes, hplace, hpos⟩ := h.goes (by decide)
  rw [← hplace.posOf_eq, wordMotion_target, scanFrom_eq (by decide)] at hpos
  rcases exact_of_goes (by decide) hgoes hpos with ⟨i, hi, hsame, -⟩ | hends
  · obtain rfl : i = 3 := by
      have hhere : cursorOffset ["foo bar".toList.map Char.toUInt8] ⟨1, 4⟩ = 4 := by decide
      omega
    exact absurd hsame (by decide)
  · exact absurd (hends 2 (by decide) (isWordEnd_iff.mpr (by decide))) (by decide)

end Oxvim.Editor
