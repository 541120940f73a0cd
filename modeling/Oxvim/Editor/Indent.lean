import Oxvim.Editor.Shift
import Oxvim.Lib.TabStops

/-!
# Building an indent

An indent of a wanted width is made in up to three parts: the blanks of an old indent that still fit,
tabs as long as a tab fits, and spaces for the rest.
-/

namespace Oxvim.Editor.Indent

open Lib Lib.TabStops Text

/-! ## Options -/

/-- Independently combinable indentation option flags. -/
structure IndentFlags where
  expandtab : Bool := false
  preserveindent : Bool := false
  copyindent : Bool := false
  deriving DecidableEq, Repr

/-- The options that building an indent reads. -/
structure IndentOptions where
  tabstop : Nat
  flags : IndentFlags := {}
  deriving DecidableEq, Repr

/-! ## Measuring -/

/-- Number of leading space and tab bytes. -/
def leadingLen (line : Line) : Nat := (line.takeWhile isBlank).length

def tabPadding (col tabstop : Nat) : Nat :=
  let tabstop := max tabstop 1
  tabstop - col % tabstop

/-- The loop of `indentColumns`, `col` columns counted. -/
def indentColumnsFrom (tabstop col : Nat) : Line → Nat
  | [] => col
  | byte :: line =>
    if byte = ' '.toUInt8 then indentColumnsFrom tabstop (satAdd col 1) line
    else if byte = '\t'.toUInt8 then
      indentColumnsFrom tabstop (satAdd col (tabPadding col tabstop)) line
    else col

/-- Counts an indent in display columns using fixed `tabstop` stops. -/
def indentColumns (line : Line) (opts : IndentOptions) : Nat :=
  indentColumnsFrom opts.tabstop 0 line

/-! ## Building -/

/-- An indent in the making: the columns that are missing, those that are there, and the bytes. -/
structure Filling where
  todo : Nat
  indDone : Nat := 0
  out : Line := []
  deriving DecidableEq, Repr

/-- Push a byte of `pad` columns. -/
def Filling.push (filling : Filling) (byte : UInt8) (pad : Nat) : Filling :=
  ⟨filling.todo - pad, filling.indDone + pad, filling.out ++ [byte]⟩

/-- Keep the blanks of an old indent as long as they fit. -/
def keepIndent (tabstop : Nat) : Line → Filling → Filling
  | [], filling => filling
  | byte :: current, filling =>
    if filling.todo = 0 then filling
    else if byte = '\t'.toUInt8 then
      let pad := tabPadding filling.indDone tabstop
      if filling.todo < pad then filling else keepIndent tabstop current (filling.push byte pad)
    else keepIndent tabstop current (filling.push byte 1)

/-- What follows a kept indent unless tabs are expanded: a tab to the next stop. -/
def tabAfterKept (targetCols : Nat) (opts : IndentOptions) (filling : Filling) : Filling :=
  let pad := tabPadding filling.indDone opts.tabstop
  if pad ≤ filling.todo then filling.push '\t'.toUInt8 pad
  else if opts.flags.preserveindent ∧ filling.todo = 0 ∧ filling.indDone = targetCols ∧
      filling.out.getLast? = some ' '.toUInt8 then
    { filling with out := filling.out ++ ['\t'.toUInt8] }
  else filling

theorem tabPadding_pos (col tabstop : Nat) : 0 < tabPadding col tabstop := by
  have hpos : 0 < max tabstop 1 := by omega
  have hlt := Nat.mod_lt col hpos
  exact Nat.sub_pos_of_lt hlt

/-- Tabs as long as one fits. -/
def fillTabs (tabstop : Nat) (filling : Filling) : Filling :=
  let pad := tabPadding filling.indDone tabstop
  if filling.todo < pad then filling else fillTabs tabstop (filling.push '\t'.toUInt8 pad)
  termination_by filling.todo
  decreasing_by
    have hpos := tabPadding_pos filling.indDone tabstop
    simp only [Filling.push]
    omega

def whitespaceWithPolicy (targetCols : Nat) (current : Line) (opts : IndentOptions)
    (preserve : Bool) : Line :=
  let filling : Filling := { todo := targetCols }
  let filling :=
    if preserve then
      let kept := keepIndent opts.tabstop (current.takeWhile isBlank) filling
      if opts.flags.expandtab then kept else tabAfterKept targetCols opts kept
    else filling
  let filling := if opts.flags.expandtab then filling else fillTabs opts.tabstop filling
  filling.out ++ List.replicate filling.todo ' '.toUInt8

/-- Builds the complete leading whitespace for `targetCols`. -/
def whitespaceFor (targetCols : Nat) (current : Line) (opts : IndentOptions) : Line :=
  whitespaceWithPolicy targetCols current opts opts.flags.preserveindent

def copiedWhitespaceFor (targetCols : Nat) (source : Line) (opts : IndentOptions) : Line :=
  whitespaceWithPolicy targetCols source opts true

def insertedWhitespaceFor (targetCols : Nat) (opts : IndentOptions) : Line :=
  whitespaceWithPolicy targetCols [] opts false

def newlineWhitespaceFor (targetCols : Nat) (source : Line) (opts : IndentOptions) : Line :=
  if opts.flags.copyindent then copiedWhitespaceFor targetCols source opts
  else insertedWhitespaceFor targetCols opts

/-! ## What an indent measures -/

/-- The column behind a blank at `col`. -/
def advance (tabstop col : Nat) (byte : UInt8) : Nat :=
  TabStops.step '\t'.toUInt8 (fun _ => 1) (max tabstop 1) col byte

/-- The column behind a text of blanks. -/
def columns (tabstop col : Nat) (line : Line) : Nat :=
  columnFrom '\t'.toUInt8 (fun _ => 1) (max tabstop 1) col line

@[simp] theorem columns_nil (tabstop col : Nat) : columns tabstop col [] = col := rfl

@[simp] theorem columns_cons (tabstop col : Nat) (byte : UInt8) (line : Line) :
    columns tabstop col (byte :: line) = columns tabstop (advance tabstop col byte) line := rfl

theorem columns_append (tabstop col : Nat) (l r : Line) :
    columns tabstop col (l ++ r) = columns tabstop (columns tabstop col l) r :=
  columnFrom_append l r

theorem le_columns (tabstop col : Nat) (line : Line) : col ≤ columns tabstop col line :=
  le_columnFrom line

@[simp] theorem advance_space (tabstop col : Nat) : advance tabstop col ' '.toUInt8 = col + 1 := by
  rw [advance, TabStops.step, if_neg (by decide)]

@[simp] theorem advance_tab (tabstop col : Nat) :
    advance tabstop col '\t'.toUInt8 = col + tabPadding col tabstop := by
  rw [advance, TabStops.step, if_pos rfl]
  rfl

theorem columns_spaces (tabstop col n : Nat) :
    columns tabstop col (List.replicate n ' '.toUInt8) = col + n := by
  have hne : ' '.toUInt8 ≠ '\t'.toUInt8 := by decide
  exact columnFrom_replicate hne rfl n

theorem isBlank_iff (byte : UInt8) :
    isBlank byte = true ↔ byte = ' '.toUInt8 ∨ byte = '\t'.toUInt8 := by
  simp [isBlank]

/-- Measuring saturates and is exact otherwise. -/
theorem indentColumnsFrom_eq {tabstop col : Nat} {line : Line} (hblank : ∀ byte ∈ line, isBlank byte)
    (hcol : col ≤ usizeMax) :
    indentColumnsFrom tabstop col line = min (columns tabstop col line) usizeMax := by
  induction line generalizing col with
  | nil => exact (Nat.min_eq_left hcol).symm
  | cons byte line ih =>
    have hrest : ∀ b ∈ line, isBlank b := fun b hb => hblank b (List.mem_cons_of_mem _ hb)
    -- one step of the measure, saturated and not, whatever the byte adds
    have hstep : ∀ pad, indentColumnsFrom tabstop (satAdd col pad) line
        = min (columns tabstop (col + pad) line) usizeMax := by
      intro pad
      have hsatLe : satAdd col pad ≤ usizeMax := Nat.min_le_right _ _
      rw [ih hrest hsatLe]
      by_cases hfits : col + pad ≤ usizeMax
      · rw [satAdd_eq hfits]
      · have hsat : satAdd col pad = usizeMax := Nat.min_eq_right (by omega)
        have hleft := le_columns tabstop usizeMax line
        have hright := le_columns tabstop (col + pad) line
        rw [hsat]
        omega
    rcases (isBlank_iff byte).mp (hblank byte List.mem_cons_self) with rfl | rfl
    · rw [indentColumnsFrom, if_pos rfl, columns_cons, advance_space]
      exact hstep 1
    · rw [indentColumnsFrom, if_neg (by decide), if_pos rfl, columns_cons, advance_tab]
      exact hstep _

theorem indentColumns_eq {line : Line} {opts : IndentOptions}
    (hblank : ∀ byte ∈ line, isBlank byte) :
    indentColumns line opts = min (columns opts.tabstop 0 line) usizeMax :=
  indentColumnsFrom_eq hblank (Nat.zero_le _)

/-! ## The longest part that fits -/

/-- The longest prefix of some blanks that, begun at `col`, does not end beyond `target`. -/
structure LongestFit (tabstop col target : Nat) (blanks kept : Line) : Prop where
  isPrefix : kept <+: blanks
  fits : columns tabstop col kept ≤ target
  longest : ∀ other, other <+: blanks → columns tabstop col other ≤ target →
    other.length ≤ kept.length

namespace LongestFit

variable {tabstop col target : Nat} {blanks kept : Line} {byte : UInt8}

theorem nil (h : col ≤ target) : LongestFit tabstop col target [] [] where
  isPrefix := List.prefix_refl _
  fits := h
  longest := by
    intro other hother _
    rw [List.prefix_nil.mp hother]

/-- Nothing fits where the first blank does not. -/
theorem stop (h : col ≤ target)
    (hstep : target < advance tabstop col byte) :
    LongestFit tabstop col target (byte :: blanks) [] where
  isPrefix := List.nil_prefix
  fits := h
  longest := by
    intro other hother hfits
    cases other with
    | nil => exact le_rfl
    | cons first other =>
      have hfirst : first = byte := (List.cons_prefix_cons.mp hother).1
      have hle := le_columns tabstop (advance tabstop col byte) other
      rw [columns_cons, hfirst] at hfits
      omega

theorem cons
    (h : LongestFit tabstop (advance tabstop col byte) target
      blanks kept) :
    LongestFit tabstop col target (byte :: blanks) (byte :: kept) where
  isPrefix := List.cons_prefix_cons.mpr ⟨rfl, h.isPrefix⟩
  fits := h.fits
  longest := by
    intro other hother hfits
    cases other with
    | nil => exact Nat.zero_le _
    | cons first other =>
      obtain ⟨rfl, hrest⟩ := List.cons_prefix_cons.mp hother
      exact Nat.succ_le_succ (h.longest other hrest hfits)

end LongestFit

/-! ## The parts of a built indent -/

/-- The bytes are blanks and account for the columns that are done. -/
structure Filling.Sound (tabstop targetCols : Nat) (filling : Filling) : Prop where
  blank : ∀ byte ∈ filling.out, isBlank byte
  done : columns tabstop 0 filling.out = filling.indDone
  total : filling.indDone + filling.todo = targetCols

namespace Filling.Sound

variable {tabstop targetCols : Nat} {filling : Filling}

theorem start (targetCols : Nat) : Filling.Sound tabstop targetCols { todo := targetCols } where
  blank := by simp
  done := rfl
  total := Nat.zero_add _

theorem push (h : filling.Sound tabstop targetCols) {byte : UInt8} {pad : Nat}
    (hblank : isBlank byte)
    (hpad : advance tabstop filling.indDone byte = filling.indDone + pad)
    (hfits : pad ≤ filling.todo) : (filling.push byte pad).Sound tabstop targetCols where
  blank := by
    intro b hb
    rcases List.mem_append.mp hb with hb | hb
    · exact h.blank b hb
    · rwa [List.mem_singleton.mp hb]
  done := by
    rw [Filling.push, columns_append, h.done, columns_cons, columns_nil, hpad]
  total := by
    have := h.total
    simp only [Filling.push]
    omega

theorem push_tab (h : filling.Sound tabstop targetCols)
    (hfits : tabPadding filling.indDone tabstop ≤ filling.todo) :
    (filling.push '\t'.toUInt8 (tabPadding filling.indDone tabstop)).Sound tabstop targetCols := by
  exact h.push (by decide) (advance_tab _ _) hfits

theorem push_space (h : filling.Sound tabstop targetCols) (hfits : 1 ≤ filling.todo) :
    (filling.push ' '.toUInt8 1).Sound tabstop targetCols := by
  exact h.push (by decide) (advance_space _ _) hfits

end Filling.Sound

/-- What is kept of an old indent is its longest part that fits. -/
theorem keepIndent_spec {tabstop targetCols : Nat} {current : Line} {filling : Filling}
    (hsound : filling.Sound tabstop targetCols) (hblank : ∀ byte ∈ current, isBlank byte) :
    (keepIndent tabstop current filling).Sound tabstop targetCols ∧
      ∃ kept, (keepIndent tabstop current filling).out = filling.out ++ kept ∧
        LongestFit tabstop filling.indDone targetCols current kept := by
  have hle : filling.indDone ≤ targetCols := by
    have := hsound.total
    omega
  induction current generalizing filling with
  | nil => exact ⟨hsound, [], (List.append_nil _).symm, LongestFit.nil hle⟩
  | cons byte current ih =>
    have htotal := hsound.total
    have hrest : ∀ b ∈ current, isBlank b := fun b hb => hblank b (List.mem_cons_of_mem _ hb)
    -- one blank of `pad` columns that fits
    have hkeep : ∀ pad, advance tabstop filling.indDone byte = filling.indDone + pad →
          pad ≤ filling.todo →
        (keepIndent tabstop current (filling.push byte pad)).Sound tabstop targetCols ∧
          ∃ kept, (keepIndent tabstop current (filling.push byte pad)).out = filling.out ++ kept ∧
            LongestFit tabstop filling.indDone targetCols (byte :: current) kept := by
      intro pad hpad hfits
      have hpushed := hsound.push (hblank byte List.mem_cons_self) hpad hfits
      have hpushedTotal := hpushed.total
      obtain ⟨hres, kept, hout, hlongest⟩ := ih hpushed hrest (by omega)
      refine ⟨hres, byte :: kept, ?_, ?_⟩
      · rw [hout, Filling.push, List.append_assoc, List.singleton_append]
      · apply LongestFit.cons
        rw [hpad]
        exact hlongest
    have hstop : targetCols < advance tabstop filling.indDone byte →
        filling.Sound tabstop targetCols ∧ ∃ kept, filling.out = filling.out ++ kept ∧
          LongestFit tabstop filling.indDone targetCols (byte :: current) kept :=
      fun hlt => ⟨hsound, [], (List.append_nil _).symm, LongestFit.stop hle hlt⟩
    rcases (isBlank_iff byte).mp (hblank byte List.mem_cons_self) with rfl | rfl
    · rw [advance_space] at hkeep hstop
      by_cases hzero : filling.todo = 0
      · rw [keepIndent, if_pos hzero]
        exact hstop (by omega)
      · rw [keepIndent, if_neg hzero, if_neg (by decide)]
        exact hkeep 1 rfl (by omega)
    · rw [advance_tab] at hkeep hstop
      have hpos := tabPadding_pos filling.indDone tabstop
      by_cases hzero : filling.todo = 0
      · rw [keepIndent, if_pos hzero]
        exact hstop (by omega)
      · rw [keepIndent, if_neg hzero, if_pos rfl]
        by_cases hlt : filling.todo < tabPadding filling.indDone tabstop
        · rw [if_pos hlt]
          exact hstop (by omega)
        · rw [if_neg hlt]
          exact hkeep _ rfl (by omega)

/-- Filling up with tabs. -/
theorem fillTabs_spec {tabstop targetCols : Nat} {filling : Filling}
    (hsound : filling.Sound tabstop targetCols) :
    (fillTabs tabstop filling).Sound tabstop targetCols ∧
      ∃ n, (fillTabs tabstop filling).out = filling.out ++ List.replicate n '\t'.toUInt8 := by
  fun_induction fillTabs tabstop filling with
  | case1 filling pad hlt => exact ⟨hsound, 0, (List.append_nil _).symm⟩
  | case2 filling pad hlt ih =>
    obtain ⟨hres, n, hout⟩ := ih (hsound.push_tab (by omega))
    refine ⟨hres, n + 1, ?_⟩
    rw [hout, Filling.push, List.append_assoc, List.replicate_succ, List.singleton_append]

/-- Where nothing is missing, no tab fits. -/
theorem fillTabs_of_todo {tabstop : Nat} {filling : Filling} (h : filling.todo = 0) :
    fillTabs tabstop filling = filling := by
  have hpos := tabPadding_pos filling.indDone tabstop
  rw [fillTabs, if_pos (by omega)]

/-! ## What a built indent is -/

/-- The extra tab behind a kept indent that already measures what is wanted and ends in a space. -/
def AddsTab (opts : IndentOptions) (targetCols : Nat) (kept : Line) : Prop :=
  opts.flags.preserveindent ∧ ¬opts.flags.expandtab ∧ columns opts.tabstop 0 kept = targetCols ∧
    kept.getLast? = some ' '.toUInt8

instance (opts : IndentOptions) (targetCols : Nat) (kept : Line) :
    Decidable (AddsTab opts targetCols kept) :=
  inferInstanceAs (Decidable (_ ∧ _))

/-- An indent of a wanted width that keeps what it can of `old`. -/
structure Built (opts : IndentOptions) (targetCols : Nat) (old out : Line) : Prop where
  blank : ∀ byte ∈ out, isBlank byte
  parts : ∃ kept rest, out = kept ++ rest ∧
    LongestFit opts.tabstop 0 targetCols (old.takeWhile isBlank) kept ∧
    (opts.flags.expandtab → '\t'.toUInt8 ∉ rest) ∧
    indentColumns out opts =
      if AddsTab opts targetCols kept then satAdd targetCols (tabPadding targetCols opts.tabstop)
      else targetCols

namespace Filling.Sound

variable {targetCols : Nat} {opts : IndentOptions} {filling : Filling} {old kept rest : Line}

/-- Spaces account for what is missing. -/
theorem built (h : filling.Sound opts.tabstop targetCols) (htarget : targetCols ≤ usizeMax)
    (hkept : LongestFit opts.tabstop 0 targetCols (old.takeWhile isBlank) kept)
    (hout : filling.out = kept ++ rest) (htab : opts.flags.expandtab → '\t'.toUInt8 ∉ rest)
    (hadds : ¬AddsTab opts targetCols kept) :
    Built opts targetCols old (filling.out ++ List.replicate filling.todo ' '.toUInt8) := by
  have hblank : ∀ byte ∈ filling.out ++ List.replicate filling.todo ' '.toUInt8, isBlank byte := by
    intro byte hbyte
    rcases List.mem_append.mp hbyte with hbyte | hbyte
    · exact h.blank byte hbyte
    · rw [List.eq_of_mem_replicate hbyte]
      decide
  have hcolumns : columns opts.tabstop 0 (filling.out ++ List.replicate filling.todo ' '.toUInt8)
      = targetCols := by
    rw [columns_append, h.done, columns_spaces, h.total]
  refine ⟨hblank, kept, rest ++ List.replicate filling.todo ' '.toUInt8, ?_, hkept, ?_, ?_⟩
  · rw [hout, List.append_assoc]
  · intro hexpand hmem
    rcases List.mem_append.mp hmem with hmem | hmem
    · exact htab hexpand hmem
    · exact absurd (List.eq_of_mem_replicate hmem) (by decide)
  · rw [if_neg hadds, indentColumns_eq hblank, hcolumns, Nat.min_eq_left htarget]

/-- The tab that is added to a kept indent of the wanted width. -/
theorem built_tab (h : filling.Sound opts.tabstop targetCols)
    (hkept : LongestFit opts.tabstop 0 targetCols (old.takeWhile isBlank) kept)
    (hout : filling.out = kept) (hadds : AddsTab opts targetCols kept) :
    Built opts targetCols old (filling.out ++ ['\t'.toUInt8]) := by
  have hblank : ∀ byte ∈ filling.out ++ ['\t'.toUInt8], isBlank byte := by
    intro byte hbyte
    rcases List.mem_append.mp hbyte with hbyte | hbyte
    · exact h.blank byte hbyte
    · rw [List.mem_singleton.mp hbyte]
      decide
  have hcolumns : columns opts.tabstop 0 (filling.out ++ ['\t'.toUInt8])
      = targetCols + tabPadding targetCols opts.tabstop := by
    rw [columns_append, hout, hadds.2.2.1, columns_cons, advance_tab, columns_nil]
  refine ⟨hblank, kept, ['\t'.toUInt8], by rw [hout], hkept, ?_, ?_⟩
  · exact fun hexpand => absurd hexpand hadds.2.1
  · rw [if_pos hadds, indentColumns_eq hblank, hcolumns]
    rfl

end Filling.Sound

theorem not_addsTab_nil (opts : IndentOptions) (targetCols : Nat) : ¬AddsTab opts targetCols [] :=
  fun h => absurd h.2.2.2 (by simp)

/-- A tab to the next stop fits, or the extra tab is added, or nothing happens. -/
theorem tabAfterKept_cases (targetCols : Nat) (opts : IndentOptions) (filling : Filling) :
    (tabPadding filling.indDone opts.tabstop ≤ filling.todo ∧ tabAfterKept targetCols opts filling
      = filling.push '\t'.toUInt8 (tabPadding filling.indDone opts.tabstop)) ∨
    ((opts.flags.preserveindent ∧ filling.todo = 0 ∧ filling.indDone = targetCols ∧
        filling.out.getLast? = some ' '.toUInt8) ∧ tabAfterKept targetCols opts filling
      = { filling with out := filling.out ++ ['\t'.toUInt8] }) ∨
    (¬(opts.flags.preserveindent ∧ filling.todo = 0 ∧ filling.indDone = targetCols ∧
        filling.out.getLast? = some ' '.toUInt8) ∧ tabAfterKept targetCols opts filling
      = filling) := by
  by_cases hfits : tabPadding filling.indDone opts.tabstop ≤ filling.todo
  · exact .inl ⟨hfits, if_pos hfits⟩
  · rw [tabAfterKept, if_neg hfits]
    by_cases hextra : opts.flags.preserveindent ∧ filling.todo = 0 ∧ filling.indDone = targetCols ∧
        filling.out.getLast? = some ' '.toUInt8
    · exact .inr (.inl ⟨hextra, if_pos hextra⟩)
    · exact .inr (.inr ⟨hextra, if_neg hextra⟩)

/-- Every policy builds an indent of the wanted width. -/
theorem whitespaceWithPolicy_built {targetCols : Nat} (htarget : targetCols ≤ usizeMax)
    (current : Line) (opts : IndentOptions) (preserve : Bool) :
    Built opts targetCols (if preserve then current else [])
      (whitespaceWithPolicy targetCols current opts preserve) := by
  have hstart : Filling.Sound opts.tabstop targetCols { todo := targetCols } := .start targetCols
  cases preserve with
  | false =>
    have hnil : LongestFit opts.tabstop 0 targetCols (([] : Line).takeWhile isBlank) [] :=
      LongestFit.nil (Nat.zero_le _)
    have hadds := not_addsTab_nil opts targetCols
    by_cases hexpand : opts.flags.expandtab
    · simp only [whitespaceWithPolicy, hexpand, if_true, Bool.false_eq_true, if_false]
      exact hstart.built htarget hnil rfl (by simp) hadds
    · simp only [whitespaceWithPolicy, hexpand, Bool.false_eq_true, if_false]
      obtain ⟨hfilled, n, hout⟩ := fillTabs_spec hstart
      exact hfilled.built htarget hnil hout (fun h => absurd h hexpand) hadds
  | true =>
    have hblank : ∀ byte ∈ current.takeWhile isBlank, isBlank byte :=
      fun byte hbyte => List.mem_takeWhile_imp hbyte
    obtain ⟨hsound, kept, hout, hkept⟩ := keepIndent_spec hstart hblank
    rw [List.nil_append] at hout
    have hdone : columns opts.tabstop 0 kept
        = (keepIndent opts.tabstop (current.takeWhile isBlank) { todo := targetCols }).indDone := by
      rw [← hsound.done, hout]
    by_cases hexpand : opts.flags.expandtab
    · simp only [whitespaceWithPolicy, hexpand, if_true]
      exact hsound.built htarget hkept (hout.trans (List.append_nil _).symm) (by simp)
        (fun h => h.2.1 hexpand)
    · simp only [whitespaceWithPolicy, hexpand, if_true, Bool.false_eq_true, if_false]
      generalize keepIndent opts.tabstop (current.takeWhile isBlank) { todo := targetCols } = filling
        at hsound hout hdone ⊢
      have htotal := hsound.total
      have hnotab : ∀ rest : Line, opts.flags.expandtab → '\t'.toUInt8 ∉ rest :=
        fun _ h => absurd h hexpand
      rcases tabAfterKept_cases targetCols opts filling with ⟨hfits, heq⟩ | ⟨hextra, heq⟩ | ⟨hextra, heq⟩
      · -- what is kept is too narrow for the extra tab
        have hadds : ¬AddsTab opts targetCols kept := by
          intro h
          have hpos := tabPadding_pos filling.indDone opts.tabstop
          have hcolumns := h.2.2.1
          omega
        obtain ⟨hfilled, n, hfill⟩ := fillTabs_spec (hsound.push_tab hfits)
        have hpushed : (filling.push '\t'.toUInt8 (tabPadding filling.indDone opts.tabstop)).out
            = kept ++ ['\t'.toUInt8] := by rw [Filling.push, hout]
        rw [heq]
        rw [hpushed, List.append_assoc] at hfill
        exact hfilled.built htarget hkept hfill (hnotab _) hadds
      · have hfill : fillTabs opts.tabstop { filling with out := filling.out ++ ['\t'.toUInt8] }
            = { filling with out := filling.out ++ ['\t'.toUInt8] } :=
          fillTabs_of_todo hextra.2.1
        rw [heq, hfill]
        simp only [hextra.2.1, List.replicate_zero, List.append_nil]
        refine hsound.built_tab hkept hout ⟨hextra.1, hexpand, ?_, ?_⟩
        · rw [hdone, hextra.2.2.1]
        · rw [← hout, hextra.2.2.2]
      · have hadds : ¬AddsTab opts targetCols kept := by
          intro h
          have hcolumns := h.2.2.1
          refine hextra ⟨h.1, by omega, by omega, ?_⟩
          rw [hout, h.2.2.2]
        obtain ⟨hfilled, n, hfill⟩ := fillTabs_spec hsound
        rw [heq]
        rw [hout] at hfill
        exact hfilled.built htarget hkept hfill (hnotab _) hadds

/-- What the indent builders return measures what was asked for, but for the tab that is added to a
preserved indent that already does and ends in a space. -/
theorem builders_built {targetCols : Nat} (htarget : targetCols ≤ usizeMax) (current : Line)
    (opts : IndentOptions) :
    Built opts targetCols (if opts.flags.preserveindent then current else [])
        (whitespaceFor targetCols current opts) ∧
      Built opts targetCols current (copiedWhitespaceFor targetCols current opts) ∧
      Built opts targetCols (if opts.flags.copyindent then current else [])
        (newlineWhitespaceFor targetCols current opts) := by
  refine ⟨whitespaceWithPolicy_built htarget current opts _,
    whitespaceWithPolicy_built htarget current opts true, ?_⟩
  unfold newlineWhitespaceFor
  by_cases hcopy : opts.flags.copyindent
  · rw [if_pos hcopy, if_pos hcopy]
    exact whitespaceWithPolicy_built htarget current opts true
  · rw [if_neg hcopy, if_neg hcopy]
    exact whitespaceWithPolicy_built htarget [] opts false

/-- Targets of a machine word satisfy the bound. -/
theorem builders_built_ten :
    (10 : Nat) ≤ usizeMax ∧
      Built ⟨8, { preserveindent := true }⟩ 10 ['\t'.toUInt8, 'x'.toUInt8]
        (whitespaceFor 10 ['\t'.toUInt8, 'x'.toUInt8] ⟨8, { preserveindent := true }⟩) :=
  ⟨by decide, (builders_built (by decide) _ _).1⟩

/-- A preserved indent of the wanted ten columns gets a tab. -/
theorem whitespaceFor_ten :
    ¬∀ (targetCols : Nat) (current : Line) (opts : IndentOptions), targetCols ≤ usizeMax →
      indentColumns (whitespaceFor targetCols current opts) opts = targetCols := by
  intro h
  have hten := h 10 ['\t'.toUInt8, ' '.toUInt8, ' '.toUInt8] ⟨8, { preserveindent := true }⟩ (by decide)
  exact absurd hten (by decide +kernel)

end Oxvim.Editor.Indent
