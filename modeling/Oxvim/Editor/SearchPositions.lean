import Oxvim.Editor.Search
import Oxvim.Lib.Utf8Boundary

/-!
# Where a search puts the cursor

The match that a search selects comes from the regex engine, so it begins and ends at character
boundaries. The cursor stands on a character too, unless it is put behind a line that ends in a
character of several bytes: the column is then taken back by one byte.
-/

namespace Oxvim.Editor.Search

open Lib Lib.Lines Lib.Runs Text

/-! ## Selected matches -/

section Selected

variable {findAt : RegexPosition → Except SearchError (Option MatchSpan)} {text : SearchText}
  {expired : Nat → Bool} {span : MatchSpan}

/-- The engine has found the match. -/
def Sourced (findAt : RegexPosition → Except SearchError (Option MatchSpan)) (span : MatchSpan) :
    Prop :=
  ∃ start, findAt start = .ok (some span)

/-- What is found in a step comes from the engine. -/
def StepSourced (findAt : RegexPosition → Except SearchError (Option MatchSpan))
    (result : Except SearchError (Step × CandidateScan)) : Prop :=
  ∀ span scan, result = .ok (.found span, scan) → Sourced findAt span

theorem stepForwardWrapped_sourced (scan : CandidateScan) (threshold : Nat) :
    StepSourced findAt (stepForwardWrapped findAt text expired scan threshold) := by
  fun_induction stepForwardWrapped findAt text expired scan threshold with
  | case1 | case2 | case4 | case5 => intro span next h; cases h
  | case3 scan threshold looked hlook hlimit hposition ih => exact ih
  | case6 scan threshold looked hlook hlimit start hposition span hfound =>
    intro other next h
    cases h
    exact ⟨start, hfound⟩

theorem wrapForwardExhausted_sourced (scan : CandidateScan) :
    StepSourced findAt (wrapForwardExhausted findAt text expired scan) := by
  unfold wrapForwardExhausted
  split_ifs
  · intro span next h
    cases h
  · exact stepForwardWrapped_sourced _ _

theorem stepForwardFirst_sourced (scan : CandidateScan) (threshold : Nat) :
    StepSourced findAt (stepForwardFirst findAt text expired scan threshold) := by
  fun_induction stepForwardFirst findAt text expired scan threshold with
  | case1 | case4 => intro span next h; cases h
  | case2 | case5 => exact wrapForwardExhausted_sourced _
  | case3 scan threshold looked hlook hlimit hposition ih => exact ih
  | case6 scan threshold looked hlook hlimit start hposition span hfound =>
    intro other next h
    cases h
    exact ⟨start, hfound⟩

theorem step_sourced {scan next : CandidateScan} {start : Nat}
    (h : scan.step findAt text expired start = .ok (.found span, next)) : Sourced findAt span := by
  unfold CandidateScan.step at h
  dsimp only at h
  split at h
  · exact stepForwardWrapped_sourced _ _ _ _ h
  · exact stepForwardFirst_sourced _ _ _ _ h

/-- The spans of an outcome come from the engine. -/
def SelectSourced (findAt : RegexPosition → Except SearchError (Option MatchSpan))
    (selected : Option Select) : Prop :=
  ∀ span wrapped, selected = some (.found span wrapped) → Sourced findAt span

theorem ForwardSelection.stopped_sourced {self : ForwardSelection} {count : Nat} {wrapscan : Bool}
    (h : ∀ span ∈ self.firstSkipped, Sourced findAt span) :
    SelectSourced findAt (self.stopped count wrapscan) := by
  intro span wrapped hstop
  unfold ForwardSelection.stopped at hstop
  split at hstop
  · next found heq =>
    split_ifs at hstop
    · cases hstop
      exact h _ heq
    · cases hstop
  · split_ifs at hstop
    all_goals cases hstop

theorem selectLazyForward_sourced {cursorByte count fuel : Nat} {wrapscan : Bool}
    {self : ForwardSelection} {selected : Option Select}
    (hskipped : ∀ span ∈ self.firstSkipped, Sourced findAt span)
    (h : selectLazyForward findAt text expired cursorByte count wrapscan fuel self
      = some (.ok selected)) : SelectSourced findAt selected := by
  induction fuel generalizing self with
  | zero => cases h
  | succ fuel ih =>
    rw [selectLazyForward] at h
    split at h
    · cases h
    · next found scan hstep =>
      have hfound := step_sourced hstep
      dsimp only at h
      generalize (if scan.sweep = self.prevSweep then self.lastEnd else none) = lastEnd at h
      split_ifs at h
      · -- the match is skipped; it may be the first one
        refine ih ?_ h
        intro span hspan
        cases hfirst : self.firstSkipped with
        | none =>
          rw [hfirst] at hspan
          cases hspan
          exact hfound
        | some first =>
          rw [hfirst] at hspan
          cases hspan
          exact hskipped _ hfirst
      · refine ih ?_ h
        exact hskipped
      · cases h
        intro span wrapped heq
        cases heq
        exact hfound
      · refine ih ?_ h
        exact hskipped
    · cases h
      exact ForwardSelection.stopped_sourced hskipped

theorem BackwardSelection.stopped_sourced {self : BackwardSelection} {count : Nat}
    {wrapscan : Bool} (h : ∀ span ∈ self.ring, Sourced findAt span) :
    SelectSourced findAt (self.stopped count wrapscan) := by
  have hlacking : SelectSourced findAt (if !wrapscan then none else some .needFull) := by
    intro span wrapped hstop
    split_ifs at hstop
    cases hstop
  unfold BackwardSelection.stopped
  dsimp only
  generalize (if !wrapscan then none else some Select.needFull) = lacking at hlacking ⊢
  split_ifs
  · split
    · next found ring heq =>
      intro span wrapped hstop
      cases hstop
      exact h _ (heq ▸ List.mem_cons_self)
    · exact hlacking
  · exact hlacking

theorem selectLazyBackward_sourced {cursorByte count fuel : Nat} {wrapscan : Bool}
    {self : BackwardSelection} {selected : Option Select}
    (hring : ∀ span ∈ self.ring, Sourced findAt span)
    (h : selectLazyBackward findAt text expired cursorByte count wrapscan fuel self
      = some (.ok selected)) : SelectSourced findAt selected := by
  induction fuel generalizing self with
  | zero => cases h
  | succ fuel ih =>
    rw [selectLazyBackward] at h
    split at h
    · cases h
    · next found scan hstep =>
      by_cases hcursor : cursorByte ≤ found.start.byte
      · rw [if_pos hcursor] at h
        cases h
        exact BackwardSelection.stopped_sourced hring
      · rw [if_neg hcursor] at h
        refine ih ?_ h
        intro span hspan
        rcases List.mem_append.mp hspan with hold | hnew
        · split_ifs at hold
          · exact hring span (List.mem_of_mem_tail hold)
          · exact hring span hold
        · rw [List.mem_singleton.mp hnew]
          exact step_sourced hstep
    · cases h
      exact BackwardSelection.stopped_sourced hring

theorem scanAll_sourced {fuel start : Nat} {scan : CandidateScan} {all found : List MatchSpan}
    (hall : ∀ span ∈ all, Sourced findAt span)
    (h : scanAll findAt text expired fuel scan start all = some (.ok found)) :
    ∀ span ∈ found, Sourced findAt span := by
  induction fuel generalizing scan start all with
  | zero => cases h
  | succ fuel ih =>
    rw [scanAll] at h
    split at h
    · cases h
    · next span next hstep =>
      refine ih ?_ h
      intro other hother
      rcases List.mem_append.mp hother with hold | hnew
      · exact hall other hold
      · rw [List.mem_singleton.mp hnew]
        exact step_sourced hstep
    · cases h
      exact hall

/-- The match that is selected comes from the engine. -/
theorem selectMatch_sourced {engine : Engine} {prog : engine.Prog} {fuel : Nat} {request : Request}
    {wrapped : Bool}
    (h : selectMatch engine expired fuel text prog request = some (.ok (span, wrapped))) :
    Sourced (engine.tryExecAt prog text.bytes) span := by
  unfold selectMatch at h
  dsimp only at h
  split at h
  · cases h
  · cases h
  · cases h
  · next found wrapped' hlazy =>
    cases h
    split at hlazy
    · exact selectLazyForward_sourced (fun _ hmem => absurd hmem (Option.not_mem_none _)) hlazy _ _ rfl
    · exact selectLazyBackward_sourced (fun _ hmem => absurd hmem List.not_mem_nil) hlazy _ _ rfl
  · split at h
    · cases h
    · cases h
    · next found hscan =>
      split at h
      · cases h
      · next index wrapped' hindex =>
        obtain ⟨chosen, hchosen, heq⟩ := Option.map_eq_some_iff.mp h
        cases heq
        exact scanAll_sourced (fun _ hmem => absurd hmem List.not_mem_nil) hscan _
          (List.mem_of_getElem? hchosen)

end Selected

/-! ## What a result should be -/

/-- The position is the first column of an empty line or the first byte of a character. -/
def OnCharacter (lines : List Line) (pos : Position) : Prop :=
  ∃ line, lineAt? lines pos.lnum = some line ∧
    (line = [] ∧ pos.col = 0 ∨ Utf8.CharStart line pos.col)

/-- The position is a character boundary of a line. -/
def OnBoundary (lines : List Line) (pos : Position) : Prop :=
  ∃ line, lineAt? lines pos.lnum = some line ∧ Utf8.Boundary line pos.col

/-- The positions of a result are positions of the lines. -/
structure ValidResult (lines : List Line) (result : SearchResult) : Prop where
  target : OnCharacter lines result.target
  matchStart : OnBoundary lines result.matchStart
  matchEnd : OnBoundary lines result.matchEnd

/-- The byte is the line break behind a character of several bytes. -/
def BehindWide (lines : List Line) (byte : Nat) : Prop :=
  ∃ before text character after,
    Place lines byte before (Utf8.encode (text ++ [character])) after
      (Utf8.encode (text ++ [character])).length ∧
    after ≠ [] ∧ 1 < (String.utf8EncodeChar character).length

/-! ## Positions and places -/

section Places

variable {lines before after : List Line} {line : Line} {byte col : Nat}

theorem newlineStarts_append (h : LF ∉ line) (offset : Nat) (rest : List UInt8) :
    newlineStarts offset (line ++ rest) = newlineStarts (offset + line.length) rest := by
  induction line generalizing offset with
  | nil => rfl
  | cons byte line ih =>
    rw [List.mem_cons, not_or] at h
    rw [List.cons_append, newlineStarts, if_neg fun heq => h.1 heq.symm, ih h.2, List.length_cons]
    congr 1
    omega

/-- The newlines of the joined lines are those between them. -/
theorem newlineStarts_joined (hne : lines ≠ []) (hlines : ∀ line ∈ lines, LF ∉ line)
    (offset : Nat) : offset :: newlineStarts offset (joined LF lines) = lineStarts offset lines := by
  induction lines generalizing offset with
  | nil => exact absurd rfl hne
  | cons line lines ih =>
    have hline := hlines line List.mem_cons_self
    cases lines with
    | nil =>
      have h := newlineStarts_append hline offset []
      rw [List.append_nil] at h
      rw [joined_singleton, h]
      rfl
    | cons next lines =>
      rw [joined_cons (List.cons_ne_nil _ _), newlineStarts_append hline, newlineStarts,
        if_pos rfl, ih (List.cons_ne_nil _ _) fun other hother =>
          hlines other (List.mem_cons_of_mem _ hother)]
      rfl

theorem isUtf8Boundary_flatten (h : Place lines byte before line after col) :
    isUtf8Boundary (flatten lines).1 byte = isUtf8Boundary line col := by
  have hle := h.col_le
  unfold isUtf8Boundary flatten
  rw [h.getElem?]
  split_ifs with hlt hafter
  · rfl
  · rw [List.getElem?_eq_none (by omega)]
  · rw [List.getElem?_eq_none (by omega)]
    rfl

theorem place_lt (h : Place lines byte before line after col) :
    byte ≤ (flatten lines).1.length := by
  have hlength : (flatten lines).1.length + 1 = size lines := length_joined h.ne_nil
  have hle := h.col_le
  obtain ⟨rfl, rfl, _⟩ := h
  rw [size_append, size_cons] at hlength
  omega

/-- The position of a byte, if its column is a boundary of its line. -/
theorem position_place (hlines : ∀ line ∈ lines, LF ∉ line)
    (h : Place lines byte before line after col) :
    position (flatten lines).1 byte =
      if isUtf8Boundary line col then some ⟨before.length + 1, col, byte⟩ else none := by
  have hvalid : validBoundary (flatten lines).1 byte = isUtf8Boundary line col := by
    rw [validBoundary, isUtf8Boundary_flatten h, decide_eq_true (place_lt h), Bool.true_and]
  have hstarts : 0 :: newlineStarts 0 (flatten lines).1 = lineStarts 0 lines :=
    newlineStarts_joined h.ne_nil hlines 0
  unfold position
  rw [hvalid]
  dsimp only
  rw [hstarts, h.starts, Nat.add_sub_cancel]
  obtain ⟨rfl, rfl, hle⟩ := h
  rw [List.getD_eq_getElem?_getD, getElem?_lineStarts, Option.getD_some, Nat.add_sub_cancel_left]

/-- A byte has one place. -/
theorem place_unique (h : Place lines byte before line after col) {before' after' : List Line}
    {line' : Line} {col' : Nat} (h' : Place lines byte before' line' after' col') :
    line = line' ∧ col = col' ∧ after = after' := by
  have hlength : before.length = before'.length := by
    have := h.starts.symm.trans h'.starts
    omega
  obtain ⟨rfl, hrest⟩ := List.append_inj (h.split.symm.trans h'.split) hlength
  obtain ⟨rfl, rfl⟩ := List.cons.inj hrest
  have := h.offset_eq.symm.trans h'.offset_eq
  exact ⟨rfl, by omega, rfl⟩

/-- Where a match begins or ends is a boundary of a line. -/
theorem onBoundary_of_position (hne : lines ≠ []) (hlines : ∀ line ∈ lines, LF ∉ line)
    (hvalid : ∀ line ∈ lines, (Utf8.decode? line).isSome) {here : RegexPosition}
    (h : position (flatten lines).1 byte = some here) :
    OnBoundary lines (editorPosition here) := by
  have hle : byte ≤ (flatten lines).1.length := by
    have hsome := position_isSome (flatten lines).1 byte
    rw [h, validBoundary] at hsome
    exact of_decide_eq_true (Bool.and_eq_true_iff.mp hsome.symm).1
  have hlength : (flatten lines).1.length + 1 = size lines := length_joined hne
  obtain ⟨before, line, after, col, hplace⟩ := exists_place (show byte < size lines by omega)
  rw [position_place hlines hplace] at h
  split_ifs at h with hboundary
  cases h
  have hmem : line ∈ lines := by
    rw [hplace.split]
    exact List.mem_append_right _ List.mem_cons_self
  refine ⟨line, ?_, (Utf8.boundary_iff (hvalid line hmem)).mpr ⟨hplace.col_le, ?_⟩⟩
  · rw [hplace.split]
    exact lineAt?_append
  · intro b hb
    unfold isUtf8Boundary at hboundary
    rw [show (line)[col]? = some b from hb] at hboundary
    simpa using hboundary

/-- The first column is on a character. -/
theorem onCharacter_first (hvalid : ∀ line ∈ lines, (Utf8.decode? line).isSome) {lnum : Nat}
    (hpos : 0 < lnum) (hle : lnum ≤ lines.length) : OnCharacter lines ⟨lnum, 0⟩ := by
  have hlt : lnum - 1 < lines.length := by omega
  refine ⟨lines[lnum - 1], ?_, ?_⟩
  · rw [lineAt?, if_neg hpos.ne', List.getElem?_eq_getElem hlt]
  · have hline := hvalid _ (List.getElem_mem hlt)
    by_cases hnil : lines[lnum - 1] = []
    · exact .inl ⟨hnil, rfl⟩
    · refine .inr (Utf8.charStart_iff.mpr ⟨⟨[], ?_⟩, List.length_pos_iff.mpr hnil⟩)
      obtain ⟨text, htext⟩ := Option.isSome_iff_exists.mp hline
      exact ⟨text, (Utf8.decode?_eq_some_iff.mp htext).symm, rfl⟩

end Places

/-! ## The cursor -/

section Cursor

variable {lines before after : List Line} {line : Line} {byte col : Nat}

/-- The last byte of a line is where a character begins, or the line ends in a character of several
bytes. -/
theorem onCharacter_last_iff (hvalid : ∀ line ∈ lines, (Utf8.decode? line).isSome)
    (h : Place lines byte before line after line.length) (hafter : line ≠ [] → after ≠ []) :
    OnCharacter lines ⟨before.length + 1, line.length - 1⟩ ↔ ¬BehindWide lines byte := by
  have hmem : line ∈ lines := by
    rw [h.split]
    exact List.mem_append_right _ List.mem_cons_self
  have hline : lineAt? lines (before.length + 1) = some line := by
    rw [h.split]
    exact lineAt?_append
  obtain ⟨text, htext⟩ := Option.isSome_iff_exists.mp (hvalid line hmem)
  rw [Utf8.decode?_eq_some_iff] at htext
  have hon : OnCharacter lines ⟨before.length + 1, line.length - 1⟩ ↔
      line = [] ∨ Utf8.CharStart line (line.length - 1) := by
    constructor
    · rintro ⟨other, hother, hcases⟩
      obtain rfl := Option.some.inj (hline.symm.trans hother)
      exact hcases.imp And.left id
    · intro hcases
      refine ⟨line, hline, hcases.imp ?_ id⟩
      rintro rfl
      exact ⟨rfl, rfl⟩
  rw [hon]
  rcases List.eq_nil_or_concat text with rfl | ⟨front, last, rfl⟩
  · -- an empty line
    obtain rfl : line = [] := htext.symm
    refine ⟨fun _ => ?_, fun _ => .inl rfl⟩
    rintro ⟨before', front, last, after', hplace, _⟩
    obtain ⟨hnil, _⟩ := place_unique h hplace
    have := Utf8.encode_eq_nil_iff.mp hnil.symm
    simp at this
  · rw [List.concat_eq_append] at htext
    have hne : line ≠ [] := by
      rw [← htext, ne_eq, Utf8.encode_eq_nil_iff]
      simp
    have hpos := Utf8.utf8EncodeChar_pos last
    rw [or_iff_right hne, ← htext, Utf8.charStart_last_iff]
    constructor
    · rintro hone ⟨before', front', last', after', hplace, _, hwide⟩
      obtain ⟨heq, _⟩ := place_unique h hplace
      have htexts := Utf8.encode_injective (htext.trans heq)
      obtain rfl := (List.cons.inj (List.append_inj_right' htexts rfl)).1
      omega
    · intro hnot
      by_contra hwide
      refine hnot ⟨before, front, last, after, ?_, hafter hne, by omega⟩
      rw [htext]
      exact h

/-- The line break behind a character of several bytes is at the end of its line. -/
theorem col_of_behindWide (h : Place lines byte before line after col)
    (hwide : BehindWide lines byte) : col = line.length := by
  obtain ⟨before', front, last, after', hplace, _⟩ := hwide
  obtain ⟨rfl, rfl, _⟩ := place_unique h hplace
  rfl

/-- Taking the column back into the line puts the cursor on a character, except behind a character of
several bytes. -/
theorem onCharacter_clamp_iff (hvalid : ∀ line ∈ lines, (Utf8.decode? line).isSome)
    (h : Place lines byte before line after col) (hboundary : isUtf8Boundary line col = true)
    (hafter : line ≠ [] → col = line.length → after ≠ []) :
    OnCharacter lines ⟨before.length + 1, min col (line.length - 1)⟩ ↔ ¬BehindWide lines byte := by
  have hle := h.col_le
  rcases Nat.lt_or_eq_of_le hle with hlt | rfl
  · have hmem : line ∈ lines := by
      rw [h.split]
      exact List.mem_append_right _ List.mem_cons_self
    rw [min_eq_left (by omega)]
    refine iff_of_true ⟨line, ?_, .inr (Utf8.charStart_iff.mpr ⟨?_, hlt⟩)⟩ fun hwide => ?_
    · rw [h.split]
      exact lineAt?_append
    · refine (Utf8.boundary_iff (hvalid line hmem)).mpr ⟨hle, fun b hb => ?_⟩
      unfold isUtf8Boundary at hboundary
      rw [hb] at hboundary
      simpa using hboundary
    · exact hlt.ne (col_of_behindWide h hwide)
  · rw [min_eq_right (Nat.sub_le _ _)]
    exact onCharacter_last_iff hvalid h fun hne => hafter hne rfl

end Cursor

/-! ## Results -/

section Resolve

variable {lines : List Line} {span : MatchSpan}

theorem baseByte_le (bytes : List UInt8) (offset : SearchOffset) (span : MatchSpan) :
    baseByte bytes offset span ≤ bytes.length - 1 := min_le_right _ _

/-- The cursor of a result is on a character, except behind a character of several bytes. -/
theorem target_iff (hne : lines ≠ []) (hlines : ∀ line ∈ lines, LF ∉ line)
    (hvalid : ∀ line ∈ lines, (Utf8.decode? line).isSome) (offset : SearchOffset)
    (wrapped : Bool) :
    OnCharacter lines (resolve lines (flatten lines).1 offset span wrapped).target ↔
      ¬(offset.lineDelta = 0 ∧
        BehindWide lines (baseByte (flatten lines).1 offset span)) := by
  have hlength : (flatten lines).1.length + 1 = size lines := length_joined hne
  have hcount := List.length_pos_iff.mpr hne
  have hbase := baseByte_le (flatten lines).1 offset span
  unfold resolve
  dsimp only
  generalize baseByte (flatten lines).1 offset span = byte at hbase ⊢
  obtain ⟨before, line, after, col, hplace⟩ := exists_place (show byte < size lines by omega)
  have hposition := position_place hlines hplace
  by_cases hdelta : offset.lineDelta = 0
  · rw [if_pos hdelta, hdelta, positionOf, hposition, Int.add_zero, Int.toNat_natCast]
    by_cases hboundary : isUtf8Boundary line col = true
    · have hlnum : min (max (before.length + 1) 1) (max lines.length 1) = before.length + 1 := by
        rw [hplace.split, List.length_append, List.length_cons]
        omega
      have hget : lines.getD (before.length + 1 - 1) [] = line := by
        rw [hplace.split, Nat.add_sub_cancel, List.getD_eq_getElem?_getD,
          List.getElem?_append_right le_rfl, Nat.sub_self]
        rfl
      rw [if_pos hboundary, Option.getD_some, hlnum, hget, and_iff_right rfl]
      refine onCharacter_clamp_iff hvalid hplace hboundary fun hfull hcol hnil => ?_
      -- the byte is not behind the last line
      subst hnil hcol
      have hpos := List.length_pos_iff.mpr hfull
      obtain ⟨rfl, rfl, -⟩ := hplace
      rw [size_append, size_cons, size_nil] at hlength
      omega
    · have hlnum : min (max 1 1) (max lines.length 1) = 1 := by omega
      rw [if_neg hboundary, Option.getD_none, hlnum, Nat.zero_min, and_iff_right rfl]
      refine iff_of_true (onCharacter_first hvalid Nat.one_pos hcount) fun hwide => hboundary ?_
      rw [col_of_behindWide hplace hwide]
      unfold isUtf8Boundary
      rw [List.getElem?_eq_none le_rfl]
  · rw [if_neg hdelta]
    refine iff_of_true (onCharacter_first hvalid ?_ ?_) fun h => hdelta h.1
    · omega
    · omega

/-- The match of a result begins and ends at boundaries, and its cursor is on a character, except
behind a character of several bytes. -/
theorem resolve_valid_iff (hne : lines ≠ []) (hlines : ∀ line ∈ lines, LF ∉ line)
    (hvalid : ∀ line ∈ lines, (Utf8.decode? line).isSome) (offset : SearchOffset)
    (wrapped : Bool) (hstart : position (flatten lines).1 span.start.byte = some span.start)
    (hstop : position (flatten lines).1 span.stop.byte = some span.stop) :
    ValidResult lines (resolve lines (flatten lines).1 offset span wrapped) ↔
      ¬(offset.lineDelta = 0 ∧
        BehindWide lines (baseByte (flatten lines).1 offset span)) := by
  rw [← target_iff hne hlines hvalid offset wrapped]
  refine ⟨fun h => h.target, fun h => ⟨h, ?_, ?_⟩⟩
  · have := onBoundary_of_position hne hlines hvalid hstart
    simpa only [resolve, positionOf, hstart, Option.getD_some] using this
  · have := onBoundary_of_position hne hlines hvalid hstop
    simpa only [resolve, positionOf, hstop, Option.getD_some] using this

end Resolve

/-- A search that has a result puts the cursor on a character just where the offset does not lead to
the line break behind a character of several bytes. -/
theorem run_valid_iff (engine : Engine) (expired : Nat → Bool) (fuel : Nat) {lines : List Line}
    {request : Request} {result : SearchResult} (hne : lines ≠ [])
    (hlines : ∀ line ∈ lines, LF ∉ line)
    (hrun : run engine expired fuel lines request = some (.ok result)) :
    ∃ span wrapped, selected engine expired fuel lines request = some (.ok (span, wrapped)) ∧
      (ValidResult lines result ↔
        ¬(request.offset.lineDelta = 0 ∧
          BehindWide lines (baseByte (flatten lines).1 request.offset span))) := by
  unfold run at hrun
  split at hrun
  · cases hrun
  · cases hrun
  · next span wrapped hselected =>
    cases hrun
    refine ⟨span, wrapped, hselected, ?_⟩
    unfold selected SearchText.new at hselected
    split at hselected
    · cases hselected
    · next text htext =>
      split_ifs at htext with hvalid
      cases htext
      split at hselected
      · cases hselected
      · next prog hprog =>
        obtain ⟨start, hfound⟩ := selectMatch_sourced hselected
        obtain ⟨hstart, hstop⟩ := engine.positions _ _ _ _ hfound
        exact resolve_valid_iff hne hlines hvalid _ _ hstart hstop

theorem position_byte {bytes : List UInt8} {byte : Nat} {here : RegexPosition}
    (h : position bytes byte = some here) : here.byte = byte := by
  unfold position at h
  split_ifs at h
  cases h
  rfl

/-- An engine that finds the ends of lines, as the pattern `$` does. -/
def lineEnds : Engine where
  Prog := Unit
  compile _ := .ok ()
  tryExecAt _ bytes start :=
    .ok ((((List.range (bytes.length + 1)).find? fun byte =>
      start.byte ≤ byte ∧ (byte = bytes.length ∨ bytes[byte]? = some LF)).bind (position bytes)).map
        fun here => ⟨here, here⟩)
  positions := by
    intro _ bytes start span h
    obtain ⟨here, hhere, rfl⟩ := Option.map_eq_some_iff.mp (Except.ok.inj h)
    obtain ⟨byte, _, hposition⟩ := Option.bind_eq_some_iff.mp hhere
    rw [position_byte hposition]
    exact ⟨hposition, hposition⟩

/-- A search for the next end of a line, from the first column on. -/
def lineEndRequest : Request := ⟨⟨1, 0⟩, "$", .forward, {}, 1, true⟩

theorem run_valid_iff_letter :
    ∃ span wrapped, selected lineEnds (fun _ => false) 2 [[97]] lineEndRequest
        = some (.ok (span, wrapped)) ∧
      (ValidResult [[97]] ⟨⟨1, 0⟩, false, 0, false, false, ⟨1, 1⟩, ⟨1, 1⟩⟩ ↔
        ¬(lineEndRequest.offset.lineDelta = 0 ∧
          BehindWide [[97]] (baseByte (flatten [[97]]).1 lineEndRequest.offset span))) :=
  run_valid_iff lineEnds (fun _ => false) 2 (by decide) (by decide) (by decide +kernel)

/-- The end of the line `é`, with another line behind it, is found inside its character. -/
theorem not_valid_lineEnd :
    ¬∀ (engine : Engine) (expired : Nat → Bool) (fuel : Nat) (lines : List Line)
      (request : Request) (result : SearchResult), lines ≠ [] → (∀ line ∈ lines, LF ∉ line) →
      run engine expired fuel lines request = some (.ok result) → ValidResult lines result := by
  intro hall
  have hvalid := hall lineEnds (fun _ => false) 2 [Utf8.encode ['é'], [97]] lineEndRequest
    ⟨⟨1, 1⟩, false, 0, false, false, ⟨1, 2⟩, ⟨1, 2⟩⟩ (by decide) (by decide) (by decide +kernel)
  obtain ⟨line, hline, hcol⟩ := hvalid.target
  obtain rfl : Utf8.encode ['é'] = line := Option.some.inj hline
  rcases hcol with ⟨hnil, _⟩ | hstart
  · exact absurd hnil (by decide)
  · have hone := (Utf8.charStart_last_iff [] 'é').mp hstart
    exact absurd hone (by decide)

end Oxvim.Editor.Search
