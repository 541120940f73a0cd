import Oxvim.Lib.TabStops
import Oxvim.Lib.Utf8Lossy

/-!
# Retabbing a line

`:retab` rewrites the runs of blanks of a line so that they reach the same columns with another
tabstop. Two limits end the rewriting early; the rest of the line is then left as it is.

How many cells a character takes is left to `charWidth`.
-/

namespace Oxvim.Editor.Retab

open Lib Lib.TabStops

/-! ## The source -/

/-- The ceiling of both guards. -/
def maxCol : Nat := 0x7fffffff

/-- What a retab is asked to do. -/
structure Settings where
  oldTabstop : Nat
  newTabstop : Nat
  oldTabstop_pos : 0 < oldTabstop
  newTabstop_pos : 0 < newTabstop
  expandtab : Bool
  forceit : Bool
  indentOnly : Bool
  /-- The cells of a character that is neither a tab nor a control character. -/
  charWidth : Char → Option Nat
  charWidth_space : charWidth ' ' = some 1

/-- One line's retab result. -/
structure RetabbedLine where
  /-- The rebuilt bytes, when they differ from the line as it stood. -/
  line : Option (List UInt8)
  tooLong : Bool
  deriving DecidableEq, Repr

/-- Cells of a character other than a tab. -/
def cells (charWidth : Char → Option Nat) (character : Char) : Nat :=
  if character.val.toNat < 0x20 ∨ character.val.toNat = 0x7f then 2
  else max ((charWidth character).getD 1) 1

/-- Display cells one character occupies. -/
def cellWidth (charWidth : Char → Option Nat) (character : Char) (vcol tabstop : Nat) : Nat :=
  if character = '\t' then tabstop - vcol % tabstop else cells charWidth character

def isBlank (character : Char) : Bool := character = ' ' || character = '\t'

/-- The tabs and spare spaces that advance from `startVcol` to `endVcol`. -/
def tabstopFromto (startVcol endVcol tabstop : Nat) : Nat × Nat :=
  if tabstop = 0 then (0, endVcol - startVcol)
  else
    let spaces := endVcol - startVcol
    let initial := tabstop - startVcol % tabstop
    let (spaces, tabs) := if initial ≤ spaces then (spaces - initial, 1) else (spaces, 0)
    (tabs + spaces / tabstop, spaces - spaces / tabstop * tabstop)

/-- The tabs and spaces of a rebuilt run. -/
def counts (s : Settings) (startVcol endVcol : Nat) : Nat × Nat :=
  if s.expandtab then (0, endVcol - startVcol) else tabstopFromto startVcol endVcol s.newTabstop

/-- Emits one whitespace run behind `outputLen` bytes, rebuilt or as it is, and says whether it
differs; `none` where the line would become too long. -/
def flushRetabRun (s : Settings) (outputLen : Nat) (run : List Char)
    (startVcol endVcol tail : Nat) : Option (List Char × Bool) :=
  let hadTab := run.contains '\t'
  let spaces := run.count ' '
  if !hadTab && (decide (spaces ≤ 1) || !s.forceit) then some (run, false)
  else
    let tabs := (counts s startVcol endVcol).1
    let remainder := (counts s startVcol endVcol).2
    if !s.expandtab && !hadTab && decide (run.length ≤ tabs + remainder) then some (run, false)
    else if maxCol ≤ outputLen + tabs + remainder + tail + 1 then none
    else
      let rebuilt := List.replicate tabs '\t' ++ List.replicate remainder ' '
      some (rebuilt, decide (rebuilt ≠ run))

/-- The variables of the loop. -/
structure State where
  output : List UInt8 := []
  run : List Char := []
  runStartVcol : Nat := 0
  vcol : Nat := 0
  scanned : Nat := 0
  changed : Bool := false
  done : Bool := false
  deriving DecidableEq, Repr

/-- Emit the pending run, if there is one, with `tail` bytes behind it. -/
def State.flush (state : State) (s : Settings) (tail : Nat) : Option State :=
  if state.run = [] then some state
  else
    (flushRetabRun s state.output.length state.run state.runStartVcol state.vcol tail).map
      fun emitted =>
        { state with
          output := state.output ++ Utf8.encode emitted.1
          run := []
          changed := state.changed || emitted.2 }

/-- A blank joins the pending run. -/
def State.push (state : State) (s : Settings) (character : Char) : State :=
  { state with
    run := state.run ++ [character]
    runStartVcol := if state.run = [] then state.vcol else state.runStartVcol
    vcol := state.vcol + cellWidth s.charWidth character state.vcol s.oldTabstop
    scanned := state.scanned + (Utf8.encode [character]).length }

/-- A character is copied. -/
def State.copy (state : State) (s : Settings) (character : Char) : State :=
  { state with
    output := state.output ++ Utf8.encode [character]
    vcol := state.vcol + cellWidth s.charWidth character state.vcol s.oldTabstop
    scanned := state.scanned + (Utf8.encode [character]).length
    done := state.done || s.indentOnly }

/-- The guard on the columns. -/
def State.checked (state : State) : Except State State :=
  if maxCol ≤ state.vcol then .error state else .ok state

/-- One turn of the loop; an error is the state in which the loop is left, too long. -/
def step (s : Settings) (textLen : Nat) (state : State) (character : Char) : Except State State :=
  if !state.done && isBlank character then (state.push s character).checked
  else
    match state.flush s (textLen - state.scanned) with
    | none => .error state
    | some state => (state.copy s character).checked

/-- Rewrites one line's whitespace runs. -/
def retabLine (s : Settings) (line : List UInt8) : RetabbedLine :=
  let text := Utf8.fromUtf8Lossy line
  let bytes := Utf8.encode text
  match text.foldlM (step s bytes.length) {} with
  | .error state =>
    ⟨if state.changed then
        some (state.output ++ Utf8.encode state.run ++ bytes.drop state.scanned) else none, true⟩
  | .ok state =>
    match state.flush s 0 with
    | some state => ⟨if state.changed then some state.output else none, false⟩
    | none =>
      ⟨if state.changed then some (state.output ++ Utf8.encode state.run) else none, true⟩

/-! ## What a retab may do -/

/-- The column behind a text that begins at `col`. -/
def columns (s : Settings) (stop col : Nat) (text : List Char) : Nat :=
  columnFrom '\t' (cells s.charWidth) stop col text

/-- The characters that are no blanks, each with the column at which it starts. -/
def starts (s : Settings) (stop : Nat) : Nat → List Char → List (Char × Nat)
  | _, [] => []
  | col, character :: text =>
    (if isBlank character then [] else [(character, col)]) ++
      starts s stop (TabStops.step '\t' (cells s.charWidth) stop col character) text

/-- What a run of blanks at `col` may be rewritten to. -/
structure Rebuilt (s : Settings) (col : Nat) (run run' : List Char) : Prop where
  blank : ∀ character ∈ run', isBlank character
  reaches : columns s s.newTabstop col run' = columns s s.oldTabstop col run
  kept : '\t' ∉ run → s.forceit = false → run' = run
  shorter : '\t' ∉ run → s.expandtab = false → run'.length ≤ run.length
  spaces : s.expandtab = true → run' ≠ run → '\t' ∉ run'

/-- The text does not end in a blank. -/
def EndsRun (text : List Char) : Prop := ∀ character ∈ text.getLast?, isBlank character = false

/-- A text and what becomes of it, longest run by longest run. -/
inductive Rewritten (s : Settings) : List Char → List Char → Prop
  | nil : Rewritten s [] []
  | char {text text' : List Char} {character : Char} (h : Rewritten s text text')
      (hblank : isBlank character = false) :
      Rewritten s (text ++ [character]) (text' ++ [character])
  | run {text text' run run' : List Char} (h : Rewritten s text text') (hends : EndsRun text)
      (hne : run ≠ []) (hblank : ∀ character ∈ run, isBlank character)
      (hrebuilt : Rebuilt s (columns s s.oldTabstop 0 text) run run') :
      Rewritten s (text ++ run) (text' ++ run')

/-- What a retab keeps of a line. -/
structure KeepsPicture (s : Settings) (text result : List Char) (tooLong : Bool) : Prop where
  /-- A leading part is rewritten run by run, what follows is left as it is. The rest begins at the
  start of a run or behind a character that is no blank, and where the line does not become too
  long there is a rest only because nothing but the indent was to be rewritten. -/
  parts : ∃ leading leading' rest, text = leading ++ rest ∧ result = leading' ++ rest ∧
    Rewritten s leading leading' ∧ (rest ≠ [] → EndsRun leading) ∧
    (tooLong = false → rest ≠ [] → s.indentOnly = true)
  letters : tooLong = false →
    result.filter (fun character => !isBlank character)
      = text.filter fun character => !isBlank character
  columns : tooLong = false → s.indentOnly = false →
    starts s s.newTabstop 0 result = starts s s.oldTabstop 0 text

/-! ## Columns of rewritten texts -/

section Columns

variable {s : Settings} {text text' : List Char}

theorem columns_append (stop col : Nat) (l r : List Char) :
    columns s stop col (l ++ r) = columns s stop (columns s stop col l) r :=
  columnFrom_append l r

theorem columns_singleton (stop col : Nat) (character : Char) :
    columns s stop col [character] = col + cellWidth s.charWidth character col stop := rfl

theorem le_columns (stop col : Nat) (text : List Char) : col ≤ columns s stop col text :=
  le_columnFrom text

theorem starts_append (stop col : Nat) (l r : List Char) :
    starts s stop col (l ++ r) = starts s stop col l ++ starts s stop (columns s stop col l) r := by
  induction l generalizing col with
  | nil => rfl
  | cons character l ih =>
    rw [List.cons_append, starts, starts, ih, List.append_assoc]
    rfl

theorem starts_of_blank (stop col : Nat) (h : ∀ character ∈ text, isBlank character) :
    starts s stop col text = [] := by
  induction text generalizing col with
  | nil => rfl
  | cons character text ih =>
    rw [starts, if_pos (h character List.mem_cons_self),
      ih _ fun other hother => h other (List.mem_cons_of_mem _ hother)]
    rfl

/-- A rewritten text ends where the text did. -/
theorem Rewritten.reaches (h : Rewritten s text text') :
    columns s s.newTabstop 0 text' = columns s s.oldTabstop 0 text := by
  induction h with
  | nil => rfl
  | @char text text' character h hblank ih =>
    have htab : character ≠ '\t' := by
      rintro rfl
      exact absurd hblank (by decide)
    rw [columns_append, columns_append, ih, columns_singleton, columns_singleton, cellWidth,
      cellWidth, if_neg htab, if_neg htab]
  | run h _ _ _ hrebuilt ih => rw [columns_append, columns_append, ih, hrebuilt.reaches]

/-- Every character that is no blank starts where it did. -/
theorem Rewritten.starts (h : Rewritten s text text') :
    starts s s.newTabstop 0 text' = starts s s.oldTabstop 0 text := by
  induction h with
  | nil => rfl
  | char h hblank ih =>
    rw [starts_append, starts_append, ih, h.reaches]
    simp [Retab.starts, hblank]
  | run h _ _ hblank hrebuilt ih =>
    rw [starts_append, starts_append, ih, starts_of_blank _ _ hblank,
      starts_of_blank _ _ hrebuilt.blank]

theorem filter_of_blank (h : ∀ character ∈ text, isBlank character) :
    text.filter (fun character => !isBlank character) = [] :=
  List.filter_eq_nil_iff.mpr fun character hmem => by simp [h character hmem]

theorem Rewritten.letters (h : Rewritten s text text') :
    text'.filter (fun character => !isBlank character)
      = text.filter fun character => !isBlank character := by
  induction h with
  | nil => rfl
  | char h _ ih => rw [List.filter_append, List.filter_append, ih]
  | run h _ _ hblank hrebuilt ih =>
    rw [List.filter_append, List.filter_append, ih, filter_of_blank hblank,
      filter_of_blank hrebuilt.blank]

/-- What a rewritten part and a rest make up keeps the picture. -/
theorem keepsPicture_of_parts {leading leading' rest : List Char} {tooLong : Bool}
    (h : Rewritten s leading leading') (hends : rest ≠ [] → EndsRun leading)
    (hrest : tooLong = false → rest ≠ [] → s.indentOnly = true) :
    KeepsPicture s (leading ++ rest) (leading' ++ rest) tooLong where
  parts := ⟨leading, leading', rest, rfl, rfl, h, hends, hrest⟩
  letters := by
    intro _
    rw [List.filter_append, List.filter_append, h.letters]
  columns := by
    intro hlong hindent
    have hnil : rest = [] := by
      by_contra hne
      rw [hrest hlong hne] at hindent
      exact Bool.noConfusion hindent
    rw [hnil, List.append_nil, List.append_nil, h.starts]

end Columns

/-! ## Rebuilding a run -/

section Run

variable {s : Settings} {run : List Char} {start : Nat}

theorem isBlank_iff (character : Char) :
    isBlank character = true ↔ character = ' ' ∨ character = '\t' := by
  simp [isBlank]

theorem columns_spaces (s : Settings) (stop col n : Nat) :
    columns s stop col (List.replicate n ' ') = col + n := by
  have hcell : cells s.charWidth ' ' = 1 := by
    rw [cells, if_neg (by decide), s.charWidth_space]
    rfl
  exact columnFrom_replicate (by decide) hcell n

/-- Tabs and spare spaces reach the column that they were counted for. -/
theorem columns_tabstopFromto (s : Settings) {start stop tabstop : Nat} (hpos : 0 < tabstop)
    (hle : start ≤ stop) :
    columns s tabstop start
        (List.replicate (tabstopFromto start stop tabstop).1 '\t' ++
          List.replicate (tabstopFromto start stop tabstop).2 ' ')
      = stop := by
  rw [columns_append, columns_spaces]
  have hadd := add_padding hpos start
  by_cases hfits : padding tabstop start ≤ stop - start
  · have hcount : tabstopFromto start stop tabstop
        = ((stop - start - padding tabstop start) / tabstop + 1,
          stop - start - padding tabstop start
            - (stop - start - padding tabstop start) / tabstop * tabstop) := by
      rw [tabstopFromto, if_neg hpos.ne']
      simp only [padding] at hfits ⊢
      rw [if_pos hfits]
      simp only [Nat.add_comm]
    have hdiv := Nat.div_mul_le_self (stop - start - padding tabstop start) tabstop
    rw [hcount]
    simp only [columns]
    rw [columnFrom_replicate_tab hpos, Nat.add_mul, ← hadd]
    omega
  · -- no tab fits, so there are fewer spaces than a tab stop is wide
    have hsmall : (stop - start) / tabstop = 0 := by
      refine Nat.div_eq_of_lt ?_
      simp only [padding] at hfits
      omega
    have hcount : tabstopFromto start stop tabstop = (0, stop - start) := by
      rw [tabstopFromto, if_neg hpos.ne']
      simp only [padding] at hfits ⊢
      rw [if_neg hfits]
      simp only [hsmall, Nat.zero_mul, Nat.sub_zero, Nat.add_zero]
    rw [hcount]
    simp only [List.replicate_zero, columns, columnFrom_nil]
    omega

/-- A rebuilt run ends at the column where the run ended. -/
theorem columns_counts (s : Settings) {start stop : Nat} (hle : start ≤ stop) :
    columns s s.newTabstop start
        (List.replicate (counts s start stop).1 '\t' ++
          List.replicate (counts s start stop).2 ' ')
      = stop := by
  unfold counts
  split_ifs with hexpand
  · rw [List.replicate_zero, List.nil_append, columns_spaces]
    omega
  · exact columns_tabstopFromto s s.newTabstop_pos hle

theorem rebuilt_self (hblank : ∀ character ∈ run, isBlank character)
    (hreaches : columns s s.newTabstop start run = columns s s.oldTabstop start run) :
    Rebuilt s start run run where
  blank := hblank
  reaches := hreaches
  kept := fun _ _ => rfl
  shorter := fun _ _ => le_rfl
  spaces := fun _ hne => absurd rfl hne

/-- A run without a tab can stay. -/
theorem rebuilt_of_no_tab (hblank : ∀ character ∈ run, isBlank character) (htab : '\t' ∉ run) :
    Rebuilt s start run run :=
  rebuilt_self hblank (columnFrom_of_no_tab htab _)

/-- What a run is rewritten to is one of the rebuilt runs, and it is told whether it differs. -/
theorem flushRetabRun_spec {outputLen tail : Nat} {emitted : List Char × Bool}
    (hblank : ∀ character ∈ run, isBlank character)
    (h : flushRetabRun s outputLen run start (columns s s.oldTabstop start run) tail
      = some emitted) :
    Rebuilt s start run emitted.1 ∧ (emitted.2 = false → emitted.1 = run) := by
  have hreaches := columns_counts s (le_columns (s := s) s.oldTabstop start run)
  simp only [flushRetabRun] at h
  split_ifs at h with hkeep hlonger hlong
  · -- a run without a tab that is left alone
    cases h
    have htab : '\t' ∉ run := by simpa using (Bool.and_eq_true_iff.mp hkeep).1
    exact ⟨rebuilt_of_no_tab hblank htab, fun _ => rfl⟩
  · -- a run without a tab that would get longer
    cases h
    have htab : '\t' ∉ run := by
      simp only [Bool.and_eq_true_iff] at hlonger
      simpa using hlonger.1.2
    exact ⟨rebuilt_of_no_tab hblank htab, fun _ => rfl⟩
  · cases h
    refine ⟨⟨?_, hreaches, ?_, ?_, ?_⟩, fun hsame => ?_⟩
    · intro character hmem
      rw [List.mem_append, List.mem_replicate, List.mem_replicate] at hmem
      exact (isBlank_iff character).mpr (hmem.symm.imp And.right And.right)
    · intro htab hforce
      exact absurd (by simp [htab, hforce]) hkeep
    · intro htab hexpand
      rw [List.length_append, List.length_replicate, List.length_replicate]
      by_contra hmore
      exact hlonger (by simp [htab, hexpand]; omega)
    · intro hexpand _ hmem
      have hzero : (counts s start (columns s s.oldTabstop start run)).1 = 0 := by
        rw [counts, if_pos hexpand]
      rw [hzero, List.replicate_zero, List.nil_append, List.mem_replicate] at hmem
      exact absurd hmem.2 (by decide)
    · simpa using hsame

end Run

/-! ## The loop -/

section Loop

variable {s : Settings} {seen leading leading' rest : List Char} {state state' : State}

/-- What the variables say behind the part `seen` of the text: a leading part was rewritten, a rest
was copied because only the indent was to be rewritten, and a run is pending. -/
structure Retabbing (s : Settings) (seen leading leading' rest : List Char) (state : State) :
    Prop where
  seen_eq : seen = leading ++ rest ++ state.run
  output : state.output = Utf8.encode (leading' ++ rest)
  rewritten : Rewritten s leading leading'
  blank : ∀ character ∈ state.run, isBlank character
  runStartVcol : state.run ≠ [] → state.runStartVcol = columns s s.oldTabstop 0 leading
  vcol : state.vcol = columns s s.oldTabstop 0 seen
  scanned : state.scanned = (Utf8.encode seen).length
  same : state.changed = false → leading' = leading
  stopped : state.done = true → s.indentOnly = true ∧ state.run = []
  going : state.done = false → rest = []

theorem retabbing_init (s : Settings) : Retabbing s [] [] [] [] {} where
  seen_eq := rfl
  output := rfl
  rewritten := .nil
  blank := fun _ hmem => absurd hmem List.not_mem_nil
  runStartVcol := fun hne => absurd rfl hne
  vcol := rfl
  scanned := rfl
  same := fun _ => rfl
  stopped := fun h => Bool.noConfusion h
  going := fun _ => rfl

theorem endsRun_concat (text : List Char) {character : Char} (h : isBlank character = false) :
    EndsRun (text ++ [character]) := by
  intro other hother
  rw [List.getLast?_concat, Option.mem_some_iff] at hother
  rw [← hother, h]

theorem Retabbing.push (h : Retabbing s seen leading leading' rest state)
    (hdone : state.done = false) {character : Char} (hblank : isBlank character = true) :
    Retabbing s (seen ++ [character]) leading leading' rest (state.push s character) where
  seen_eq := by rw [h.seen_eq, List.append_assoc, State.push]
  output := h.output
  rewritten := h.rewritten
  blank := by
    intro other hmem
    rcases List.mem_append.mp hmem with hold | hnew
    · exact h.blank other hold
    · rw [List.mem_singleton.mp hnew, hblank]
  runStartVcol := by
    intro _
    by_cases hrun : state.run = []
    · have hseen : seen = leading := by
        rw [h.seen_eq, h.going hdone, hrun, List.append_nil, List.append_nil]
      rw [State.push, if_pos hrun, h.vcol, hseen]
    · rw [State.push, if_neg hrun, h.runStartVcol hrun]
  vcol := by rw [columns_append, columns_singleton, ← h.vcol, State.push]
  scanned := by rw [Utf8.encode_append, List.length_append, ← h.scanned, State.push]
  same := h.same
  stopped := fun hstop => absurd (hstop.symm.trans hdone) Bool.noConfusion
  going := h.going

/-- A flushed run joins the rewritten part. -/
theorem Retabbing.flush (h : Retabbing s seen leading leading' rest state)
    (hends : EndsRun leading) {tail : Nat} (hflush : state.flush s tail = some state') :
    state'.run = [] ∧ state'.done = state.done ∧ ∃ leading₂ leading₂',
      Retabbing s seen leading₂ leading₂' rest state' ∧
      (state'.done = true → EndsRun leading₂) := by
  unfold State.flush at hflush
  split_ifs at hflush with hrun
  · cases hflush
    exact ⟨hrun, rfl, leading, leading', h, fun _ => hends⟩
  · obtain ⟨emitted, hemitted, rfl⟩ := Option.map_eq_some_iff.mp hflush
    have hdone : state.done = false :=
      Bool.eq_false_iff.mpr fun hdone => hrun (h.stopped hdone).2
    have hrest := h.going hdone
    have hseen : seen = leading ++ state.run := by
      rw [h.seen_eq, hrest, List.append_nil]
    have hvcol : state.vcol
        = columns s s.oldTabstop (columns s s.oldTabstop 0 leading) state.run := by
      rw [h.vcol, hseen, columns_append]
    rw [h.runStartVcol hrun, hvcol] at hemitted
    obtain ⟨hrebuilt, hsame⟩ := flushRetabRun_spec h.blank hemitted
    refine ⟨rfl, rfl, leading ++ state.run, leading' ++ emitted.1, ?_, ?_⟩
    · exact
        { seen_eq := by rw [hseen, hrest, List.append_nil, List.append_nil]
          output := by
            rw [h.output, hrest, List.append_nil, List.append_nil, Utf8.encode_append]
          rewritten := .run h.rewritten hends hrun h.blank hrebuilt
          blank := fun _ hmem => absurd hmem List.not_mem_nil
          runStartVcol := fun hne => absurd rfl hne
          vcol := h.vcol
          scanned := h.scanned
          same := by
            intro hchanged
            rw [Bool.or_eq_false_iff] at hchanged
            rw [h.same hchanged.1, hsame hchanged.2]
          stopped := fun hstop => absurd (hstop.symm.trans hdone) Bool.noConfusion
          going := h.going }
    · intro hstop
      exact absurd (hstop.symm.trans hdone) Bool.noConfusion

/-- A character is copied behind a flushed run: to the rewritten part until the retab is done, then
to the rest. -/
theorem Retabbing.copy (h : Retabbing s seen leading leading' rest state) (hrun : state.run = [])
    (hends : state.done = true → EndsRun leading) {character : Char}
    (hblank : state.done = false → isBlank character = false) :
    ∃ leading₂ leading₂' rest₂, EndsRun leading₂ ∧
      Retabbing s (seen ++ [character]) leading₂ leading₂' rest₂ (state.copy s character) := by
  have hvcol : (state.copy s character).vcol = columns s s.oldTabstop 0 (seen ++ [character]) := by
    rw [columns_append, columns_singleton, ← h.vcol, State.copy]
  have hscanned : (state.copy s character).scanned
      = (Utf8.encode (seen ++ [character])).length := by
    rw [Utf8.encode_append, List.length_append, ← h.scanned, State.copy]
  have hseen : seen = leading ++ rest := by rw [h.seen_eq, hrun, List.append_nil]
  have houtput : (state.copy s character).output
      = Utf8.encode (leading' ++ rest ++ [character]) := by
    rw [Utf8.encode_append, ← h.output, State.copy]
  cases hdone : state.done with
  | false =>
    have hrest := h.going hdone
    refine ⟨leading ++ [character], leading' ++ [character], [],
      endsRun_concat leading (hblank hdone), ?_⟩
    exact
      { seen_eq := by rw [hseen, hrest, List.append_nil, List.append_nil, State.copy, hrun,
          List.append_nil]
        output := by rw [houtput, hrest, List.append_nil, List.append_nil]
        rewritten := .char h.rewritten (hblank hdone)
        blank := h.blank
        runStartVcol := fun hne => absurd hrun hne
        vcol := hvcol
        scanned := hscanned
        same := fun hchanged => by rw [h.same hchanged]
        stopped := by
          intro hstop
          rw [State.copy, hdone, Bool.false_or] at hstop
          exact ⟨hstop, hrun⟩
        going := fun _ => rfl }
  | true =>
    refine ⟨leading, leading', rest ++ [character], hends hdone, ?_⟩
    exact
      { seen_eq := by rw [hseen, State.copy, hrun, List.append_nil, List.append_assoc]
        output := by rw [houtput, List.append_assoc]
        rewritten := h.rewritten
        blank := h.blank
        runStartVcol := fun hne => absurd hrun hne
        vcol := hvcol
        scanned := hscanned
        same := h.same
        stopped := fun _ => h.stopped hdone
        going := by
          intro hgoing
          rw [State.copy, hdone, Bool.true_or] at hgoing
          exact Bool.noConfusion hgoing }

/-- The invariant of the loop. -/
def Loop (s : Settings) (seen : List Char) (state : State) : Prop :=
  ∃ leading leading' rest, EndsRun leading ∧ Retabbing s seen leading leading' rest state

theorem loop_init (s : Settings) : Loop s [] {} :=
  ⟨[], [], [], fun _ hmem => absurd hmem (Option.not_mem_none _), retabbing_init s⟩

theorem checked_eq_ok (h : state.checked = .ok state') : state' = state := by
  unfold State.checked at h
  split_ifs at h
  exact (Except.ok.inj h).symm

theorem checked_eq_error (h : state.checked = .error state') : state' = state := by
  unfold State.checked at h
  split_ifs at h
  exact (Except.error.inj h).symm

/-- One turn without the guard: a blank joins the run, or the character is copied behind the run,
unless that does not fit. -/
theorem step_cases (textLen : Nat) (character : Char) (h : Loop s seen state) :
    (∃ next, step s textLen state character = next.checked ∧ Loop s (seen ++ [character]) next) ∨
      step s textLen state character = .error state := by
  obtain ⟨leading, leading', rest, hends, hstate⟩ := h
  by_cases hpush : (!state.done && isBlank character) = true
  · rw [step, if_pos hpush]
    rw [Bool.and_eq_true_iff, Bool.not_eq_true'] at hpush
    exact .inl ⟨_, rfl, leading, leading', rest, hends, hstate.push hpush.1 hpush.2⟩
  · rw [step, if_neg hpush]
    cases hflush : state.flush s (textLen - state.scanned) with
    | none => exact .inr rfl
    | some flushed =>
      obtain ⟨hrun, hdone, leading₂, leading₂', hflushed, hends₂⟩ := hstate.flush hends hflush
      have hblank : flushed.done = false → isBlank character = false := by
        intro hgoing
        rw [← hdone, hgoing] at hpush
        simpa using hpush
      obtain ⟨leading₃, leading₃', rest₃, hends₃, hcopied⟩ := hflushed.copy hrun hends₂ hblank
      exact .inl ⟨_, rfl, leading₃, leading₃', rest₃, hends₃, hcopied⟩

/-- One turn keeps the invariant. -/
theorem loop_step {textLen : Nat} {character : Char} (h : Loop s seen state)
    (hstep : step s textLen state character = .ok state') :
    Loop s (seen ++ [character]) state' := by
  rcases step_cases textLen character h with ⟨next, hnext, hloop⟩ | herror
  · rw [hnext] at hstep
    rw [checked_eq_ok hstep]
    exact hloop
  · cases herror.symm.trans hstep

/-- Where a turn leaves the loop, the invariant holds before or behind the character. -/
theorem loop_leave {textLen : Nat} {character : Char} (h : Loop s seen state)
    (hstep : step s textLen state character = .error state') :
    Loop s seen state' ∨ Loop s (seen ++ [character]) state' := by
  rcases step_cases textLen character h with ⟨next, hnext, hloop⟩ | herror
  · rw [hnext] at hstep
    rw [checked_eq_error hstep]
    exact .inr hloop
  · rw [Except.error.inj (hstep.symm.trans herror)]
    exact .inl h

/-- What the loop leaves behind, at the end of the text or where it is left early. -/
theorem loop_run (textLen : Nat) (todo : List Char) (h : Loop s seen state) :
    (∀ state', todo.foldlM (step s textLen) state = .ok state' → Loop s (seen ++ todo) state') ∧
    (∀ state', todo.foldlM (step s textLen) state = .error state' →
      ∃ scanned remaining, todo = scanned ++ remaining ∧ Loop s (seen ++ scanned) state') := by
  induction todo generalizing seen state with
  | nil =>
    refine ⟨fun state' hok => ?_, fun state' herror => (by cases herror)⟩
    cases hok
    rwa [List.append_nil]
  | cons character todo ih =>
    rw [List.foldlM_cons]
    cases hstep : step s textLen state character with
    | error left =>
      refine ⟨fun state' hok => (by cases hok), fun state' herror => ?_⟩
      cases herror
      rcases loop_leave h hstep with hbefore | hbehind
      · exact ⟨[], character :: todo, rfl, by rwa [List.append_nil]⟩
      · exact ⟨[character], todo, rfl, hbehind⟩
    | ok next =>
      have hrun := ih (loop_step h hstep)
      refine ⟨fun state' hok => ?_, fun state' herror => ?_⟩
      · have := hrun.1 state' hok
        rwa [List.append_assoc] at this
      · obtain ⟨scanned, remaining, rfl, hloop⟩ := hrun.2 state' herror
        rw [List.append_assoc] at hloop
        exact ⟨character :: scanned, remaining, rfl, hloop⟩

/-- What stands behind the scanned bytes. -/
theorem drop_scanned (h : state.scanned = (Utf8.encode seen).length) (remaining : List Char) :
    (Utf8.encode (seen ++ remaining)).drop state.scanned = Utf8.encode remaining := by
  rw [h, Utf8.encode_append, List.drop_left]

/-- The line that is abandoned keeps its pending run and what follows. -/
theorem Retabbing.abandoned (h : Retabbing s seen leading leading' rest state)
    (hends : EndsRun leading) (remaining : List Char) :
    ∃ result, (if state.changed then
          some (state.output ++ Utf8.encode state.run ++ Utf8.encode remaining) else none).getD
        (Utf8.encode (seen ++ remaining)) = Utf8.encode result ∧
      KeepsPicture s (seen ++ remaining) result true := by
  have hpicture : KeepsPicture s (leading ++ (rest ++ state.run ++ remaining))
      (leading' ++ (rest ++ state.run ++ remaining)) true :=
    keepsPicture_of_parts h.rewritten (fun _ => hends) fun hlong => Bool.noConfusion hlong
  have htext : seen ++ remaining = leading ++ (rest ++ state.run ++ remaining) := by
    rw [h.seen_eq]
    simp only [List.append_assoc]
  refine ⟨leading' ++ (rest ++ state.run ++ remaining), ?_, htext ▸ hpicture⟩
  cases hchanged : state.changed with
  | false =>
    rw [h.same hchanged, htext]
    rfl
  | true =>
    rw [if_pos rfl, Option.getD_some, h.output]
    simp only [Utf8.encode_append, List.append_assoc]

/-- A line of the loop that comes to its end is rewritten. -/
theorem Retabbing.finished (h : Retabbing s seen leading leading' rest state)
    (hrun : state.run = []) (hends : state.done = true → EndsRun leading) :
    ∃ result, (if state.changed then some state.output else none).getD (Utf8.encode seen)
        = Utf8.encode result ∧
      KeepsPicture s seen result false := by
  have hstopped : rest ≠ [] → state.done = true := by
    intro hne
    by_contra hgoing
    exact hne (h.going (Bool.eq_false_iff.mpr hgoing))
  have hpicture : KeepsPicture s (leading ++ rest) (leading' ++ rest) false :=
    keepsPicture_of_parts h.rewritten (fun hne => hends (hstopped hne))
      fun _ hne => (h.stopped (hstopped hne)).1
  have htext : seen = leading ++ rest := by rw [h.seen_eq, hrun, List.append_nil]
  refine ⟨leading' ++ rest, ?_, htext ▸ hpicture⟩
  cases hchanged : state.changed with
  | false =>
    rw [h.same hchanged, htext]
    rfl
  | true => rw [if_pos rfl, Option.getD_some, h.output]

end Loop

end Oxvim.Editor.Retab
