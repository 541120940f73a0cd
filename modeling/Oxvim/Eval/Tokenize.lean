import Oxvim.Eval.LexerTokens

/-!
# The tokens of a source text

Layout and tokens alternate. `Reads` says so without the lexer: each token stands where the layout
before it ends, and its text spells it.
-/

namespace Oxvim.Eval.Lexer

open Lib Lib.Greedy Lib.EState

/-! ## Layout -/

/-- Layout may go on behind the end of a line: blanks, then a backslash or a comment. -/
def LineContinues (tail : List UInt8) : Prop :=
  ∃ blanks more, tail = blanks ++ more ∧ blanks.all isBlank ∧
    (more.head? = some '\\'.toUInt8 ∨ bytes "\"\\ " <+: more)

structure LayoutEnds (atLineStart : Bool) (rest : List UInt8) : Prop where
  blank : Stops isBlank rest
  newline : ∀ tail, rest = '\n'.toUInt8 :: tail → ¬LineContinues tail
  lineStart : atLineStart = true → rest.head? ≠ some '\\'.toUInt8 ∧ ¬bytes "\"\\ " <+: rest

/-- All of the layout before `rest`: blanks, continuation backslashes with the newline before them,
and continuation comments. -/
inductive Layout : Bool → List UInt8 → List UInt8 → Prop
  | done {atLineStart : Bool} {rest : List UInt8} : LayoutEnds atLineStart rest →
    Layout atLineStart [] rest
  | blank {atLineStart : Bool} {b : UInt8} {text rest : List UInt8} : isBlank b →
    Layout atLineStart text rest → Layout atLineStart (b :: text) rest
  | continued {atLineStart : Bool} {blanks text rest : List UInt8} : blanks.all isBlank →
    Layout false text rest →
    Layout atLineStart ('\n'.toUInt8 :: (blanks ++ '\\'.toUInt8 :: text)) rest
  | comment {atLineStart : Bool} {blanks line text rest : List UInt8} : blanks.all isBlank →
    line.all (· != '\n'.toUInt8) → Stops (· != '\n'.toUInt8) (text ++ rest) →
    Layout true text rest →
    Layout atLineStart ('\n'.toUInt8 :: (blanks ++ (bytes "\"\\ " ++ (line ++ text)))) rest
  | leading {text rest : List UInt8} : Layout false text rest →
    Layout true ('\\'.toUInt8 :: text) rest
  | leadingComment {line text rest : List UInt8} : line.all (· != '\n'.toUInt8) →
    Stops (· != '\n'.toUInt8) (text ++ rest) → Layout true text rest →
    Layout true (bytes "\"\\ " ++ (line ++ text)) rest

theorem Layout.blanks {atLineStart : Bool} {blanks text rest : List UInt8}
    (hblanks : blanks.all isBlank = true) (h : Layout atLineStart text rest) :
    Layout atLineStart (blanks ++ text) rest := by
  induction blanks with
  | nil => exact h
  | cons b blanks ih =>
    rw [List.all_cons, Bool.and_eq_true] at hblanks
    exact .blank hblanks.1 (ih hblanks.2)

theorem beginsComment_iff {rest : List UInt8} : beginsComment rest = true ↔ bytes "\"\\ " <+: rest :=
  List.isPrefixOf_iff_prefix

theorem skipBlanks_append {blanks rest : List UInt8} (hblanks : blanks.all isBlank = true) :
    skipBlanks (blanks ++ rest) = skipBlanks rest := by
  unfold skipBlanks
  rw [List.dropWhile_append_of_pos (List.all_eq_true.mp hblanks)]

theorem skipBlanks_of_stops {rest : List UInt8} (h : Stops isBlank rest) : skipBlanks rest = rest := by
  have hall : ([] : List UInt8).all isBlank = true := rfl
  exact dropWhile_append hall h

/-- Blanks in front do not matter. -/
theorem skipLayout_congr {atLineStart : Bool} {a b : List UInt8} (h : skipBlanks a = skipBlanks b) :
    skipLayout atLineStart a = skipLayout atLineStart b := by
  rw [skipLayout.eq_def, skipLayout.eq_def, h]

theorem lineContinues_iff {tail : List UInt8} : LineContinues tail ↔
    (beginsComment (skipBlanks tail) = true ∨ (skipBlanks tail).head? = some '\\'.toUInt8) := by
  constructor
  · rintro ⟨blanks, more, rfl, hblanks, hmore⟩
    have hstop : Stops isBlank more := by
      rcases hmore with hhead | ⟨after, rfl⟩
      · obtain ⟨after, rfl⟩ := List.head?_eq_some_iff.mp hhead
        exact stops_cons.mpr (by decide)
      · exact stops_cons.mpr (by decide)
    rw [skipBlanks_append hblanks, skipBlanks_of_stops hstop, beginsComment_iff]
    exact hmore.symm
  · intro h
    refine ⟨tail.takeWhile isBlank, skipBlanks tail, List.takeWhile_append_dropWhile.symm,
      all_takeWhile tail, ?_⟩
    rw [beginsComment_iff] at h
    exact h.symm

theorem comment_split {rest : List UInt8} (h : beginsComment rest = true) :
    ∃ line, line.all (· != '\n'.toUInt8) = true ∧
      rest = bytes "\"\\ " ++ (line ++ skipLine (rest.drop 3)) := by
  obtain ⟨more, rfl⟩ := beginsComment_iff.mp h
  refine ⟨more.takeWhile (· != '\n'.toUInt8), all_takeWhile more, ?_⟩
  have hdrop : (bytes "\"\\ " ++ more).drop 3 = more := rfl
  rw [hdrop]
  unfold skipLine
  rw [List.takeWhile_append_dropWhile]

theorem skipLine_comment {rest : List UInt8} (h : beginsComment rest = true) :
    skipLine rest = skipLine (rest.drop 3) := by
  obtain ⟨more, rfl⟩ := beginsComment_iff.mp h
  unfold skipLine
  rw [List.dropWhile_append_of_pos (List.all_eq_true.mp (by decide))]
  rfl

theorem split_blanks (source : List UInt8) :
    ∃ blanks, blanks.all isBlank = true ∧ source = blanks ++ skipBlanks source :=
  ⟨source.takeWhile isBlank, all_takeWhile source, List.takeWhile_append_dropWhile.symm⟩

theorem stops_skipLine (source : List UInt8) : Stops (· != '\n'.toUInt8) (skipLine source) :=
  stops_dropWhile source

theorem skipLayout_of_cons {atLineStart : Bool} {source tail : List UInt8} {byte : UInt8}
    (h : skipBlanks source = byte :: tail) :
    skipLayout atLineStart source =
      if byte = '\n'.toUInt8 then
        if beginsComment (skipBlanks tail) then
          skipLayout true (skipLine ((skipBlanks tail).drop 3))
        else if (skipBlanks tail).head? ≠ some '\\'.toUInt8 then byte :: tail
        else skipLayout false (skipBlanks ((skipBlanks tail).drop 1))
      else if atLineStart = true ∧ byte = '\\'.toUInt8 then skipLayout false (skipBlanks tail)
      else if atLineStart = true ∧ beginsComment (byte :: tail) then
        skipLayout atLineStart (skipLine (byte :: tail))
      else byte :: tail := by
  rw [skipLayout.eq_def]
  split
  · rename_i hnil
    cases h.symm.trans hnil
  · rename_i hcons
    cases h.symm.trans hcons
    dsimp only
    split_ifs <;> rfl

theorem skipBlanks_skipBlanks (source : List UInt8) : skipBlanks (skipBlanks source) = skipBlanks source :=
  skipBlanks_of_stops (stops_dropWhile source)

theorem skipLayout_skipBlanks (atLineStart : Bool) (source : List UInt8) :
    skipLayout atLineStart (skipBlanks source) = skipLayout atLineStart source :=
  skipLayout_congr (skipBlanks_skipBlanks source)

theorem skipLayout_newline {atLineStart : Bool} {tail : List UInt8} :
    skipLayout atLineStart ('\n'.toUInt8 :: tail) =
      if beginsComment (skipBlanks tail) then skipLayout true (skipLine ((skipBlanks tail).drop 3))
      else if (skipBlanks tail).head? ≠ some '\\'.toUInt8 then '\n'.toUInt8 :: tail
      else skipLayout false (skipBlanks ((skipBlanks tail).drop 1)) := by
  rw [skipLayout_of_cons (skipBlanks_of_stops (stops_cons.mpr (by decide))), if_pos rfl]

/-- What follows blanks is enough. -/
theorem layout_of_skipBlanks {atLineStart : Bool} {source rest : List UInt8}
    (h : ∃ gap, skipBlanks source = gap ++ rest ∧ Layout atLineStart gap rest) :
    ∃ gap, source = gap ++ rest ∧ Layout atLineStart gap rest := by
  obtain ⟨gap, hgap, hlayout⟩ := h
  obtain ⟨blanks, hall, hsplit⟩ := split_blanks source
  exact ⟨blanks ++ gap, by rw [List.append_assoc, ← hgap, ← hsplit], hlayout.blanks hall⟩

/-- What is skipped is layout. -/
theorem layout_of_skip (atLineStart : Bool) (source : List UInt8) :
    ∃ gap, source = gap ++ skipLayout atLineStart source ∧
      Layout atLineStart gap (skipLayout atLineStart source) := by
  fun_induction skipLayout atLineStart source
  case case1 atLineStart source hnil =>
    apply layout_of_skipBlanks
    rw [hnil]
    exact ⟨[], rfl, .done ⟨stops_nil, by simp, fun _ => by decide⟩⟩
  case case2 atLineStart source tail ahead hcomment hcons ih =>
    apply layout_of_skipBlanks
    obtain ⟨gap, hgap, hlayout⟩ := ih
    obtain ⟨blanks, hall, hsplit⟩ := split_blanks tail
    obtain ⟨line, hline, hahead⟩ := comment_split hcomment
    have hstop := stops_skipLine (ahead.drop 3)
    generalize skipLayout true (skipLine (ahead.drop 3)) = rest at hgap hlayout ⊢
    rw [hgap] at hahead hstop
    refine ⟨_, ?_, .comment hall hline hstop hlayout⟩
    rw [hcons, hsplit]
    change _ :: (blanks ++ ahead) = _
    rw [hahead]
    simp
  case case3 atLineStart source tail ahead hcomment hhead hcons =>
    apply layout_of_skipBlanks
    rw [hcons]
    refine ⟨[], rfl, .done ⟨stops_cons.mpr (by decide), ?_, fun _ => ⟨by simp +decide, ?_⟩⟩⟩
    · intro tail' htail
      cases htail
      rw [lineContinues_iff, not_or]
      exact ⟨hcomment, hhead⟩
    · rintro ⟨more, hmore⟩
      cases hmore
  case case4 atLineStart source tail ahead hcomment hhead hcons ih =>
    apply layout_of_skipBlanks
    obtain ⟨blanks, hall, hsplit⟩ := split_blanks tail
    obtain ⟨gap, hgap, hlayout⟩ := layout_of_skipBlanks ih
    obtain ⟨more, hmore⟩ := List.head?_eq_some_iff.mp (not_not.mp hhead)
    generalize skipLayout false (skipBlanks (ahead.drop 1)) = rest at hgap hlayout ⊢
    rw [hmore, List.drop_succ_cons, List.drop_zero] at hgap
    refine ⟨_, ?_, .continued hall hlayout⟩
    rw [hcons, hsplit]
    change _ :: (blanks ++ ahead) = _
    rw [hmore, hgap]
    simp
  case case5 atLineStart source byte tail hcons hnewline hslash ih =>
    apply layout_of_skipBlanks
    obtain ⟨rfl, rfl⟩ := hslash
    obtain ⟨gap, hgap, hlayout⟩ := layout_of_skipBlanks ih
    generalize skipLayout false (skipBlanks tail) = rest at hgap hlayout ⊢
    refine ⟨_, ?_, .leading hlayout⟩
    rw [hcons, hgap]
    rfl
  case case6 atLineStart source byte tail hcons hnewline hslash hcomment ih =>
    apply layout_of_skipBlanks
    obtain ⟨rfl, hcomment⟩ := hcomment
    obtain ⟨gap, hgap, hlayout⟩ := ih
    obtain ⟨line, hline, hsplit⟩ := comment_split hcomment
    have hstop := stops_skipLine (byte :: tail)
    rw [← skipLine_comment hcomment] at hsplit
    generalize skipLayout true (skipLine (byte :: tail)) = rest at hgap hlayout ⊢
    rw [hgap] at hsplit hstop
    refine ⟨_, ?_, .leadingComment hline hstop hlayout⟩
    rw [hcons, hsplit]
    simp
  case case7 atLineStart source byte tail hcons hnewline hslash hcomment =>
    apply layout_of_skipBlanks
    rw [hcons]
    have hblank : Stops isBlank (byte :: tail) := by
      rw [← hcons]
      exact stops_dropWhile source
    refine ⟨[], rfl, .done ⟨hblank, ?_, ?_⟩⟩
    · intro tail' htail
      exact absurd (List.cons.inj htail).1 hnewline
    · intro hstart
      rw [← beginsComment_iff]
      exact ⟨fun hhead => hslash ⟨hstart, by simpa using hhead⟩, fun h => hcomment ⟨hstart, h⟩⟩

theorem skipLayout_of_layout {atLineStart : Bool} {gap rest : List UInt8}
    (h : Layout atLineStart gap rest) : skipLayout atLineStart (gap ++ rest) = rest := by
  induction h with
  | @done atLineStart rest hends =>
    obtain ⟨hblank, hnewline, hstart⟩ := hends
    have hskip := skipBlanks_of_stops hblank
    rw [List.nil_append]
    cases rest with
    | nil => rw [skipLayout.eq_def]; rfl
    | cons byte tail =>
      rw [skipLayout_of_cons hskip]
      by_cases hbyte : byte = '\n'.toUInt8
      · subst hbyte
        have hends := hnewline tail rfl
        rw [lineContinues_iff, not_or] at hends
        rw [if_pos rfl, if_neg hends.1, if_pos hends.2]
      · rw [if_neg hbyte, if_neg, if_neg]
        · rintro ⟨hline, hcomment⟩
          exact (hstart hline).2 (beginsComment_iff.mp hcomment)
        · rintro ⟨hline, rfl⟩
          exact (hstart hline).1 rfl
  | @blank atLineStart b text rest hb hlayout ih =>
    have hall : [b].all isBlank = true := by simpa using hb
    have hskip : skipBlanks (b :: (text ++ rest)) = skipBlanks (text ++ rest) :=
      skipBlanks_append hall
    rw [List.cons_append, skipLayout_congr hskip, ih]
  | @continued atLineStart blanks text rest hblanks hlayout ih =>
    have hahead : skipBlanks (blanks ++ '\\'.toUInt8 :: (text ++ rest))
        = '\\'.toUInt8 :: (text ++ rest) := by
      rw [skipBlanks_append hblanks, skipBlanks_of_stops (stops_cons.mpr (by decide))]
    have hcomment : ¬beginsComment ('\\'.toUInt8 :: (text ++ rest)) = true := by
      rw [beginsComment_iff]
      rintro ⟨more, hmore⟩
      cases hmore
    rw [List.cons_append, skipLayout_newline, List.append_assoc, List.cons_append, hahead,
      if_neg hcomment, if_neg (by simp), List.drop_succ_cons, List.drop_zero, skipLayout_skipBlanks, ih]
  | @comment atLineStart blanks line text rest hblanks hline hstop hlayout ih =>
    have hahead : skipBlanks (blanks ++ (bytes "\"\\ " ++ (line ++ (text ++ rest))))
        = bytes "\"\\ " ++ (line ++ (text ++ rest)) := by
      rw [skipBlanks_append hblanks]
      exact skipBlanks_of_stops (stops_cons.mpr (by decide))
    have hcomment : beginsComment (bytes "\"\\ " ++ (line ++ (text ++ rest))) = true :=
      beginsComment_iff.mpr (List.prefix_append _ _)
    have hline : skipLine ((bytes "\"\\ " ++ (line ++ (text ++ rest))).drop 3) = text ++ rest :=
      dropWhile_append hline hstop
    rw [List.cons_append, skipLayout_newline, List.append_assoc, List.append_assoc,
      List.append_assoc, hahead, if_pos hcomment, hline, ih]
  | @leading text rest hlayout ih =>
    have hskip : skipBlanks ('\\'.toUInt8 :: text ++ rest) = '\\'.toUInt8 :: (text ++ rest) :=
      skipBlanks_of_stops (stops_cons.mpr (by decide))
    rw [skipLayout_of_cons hskip, if_neg (by decide), if_pos ⟨rfl, rfl⟩, skipLayout_skipBlanks, ih]
  | @leadingComment line text rest hline hstop hlayout ih =>
    have hskip : skipBlanks (bytes "\"\\ " ++ (line ++ text) ++ rest)
        = '"'.toUInt8 :: (bytes "\\ " ++ (line ++ (text ++ rest))) := by
      rw [List.append_assoc, List.append_assoc]
      exact skipBlanks_of_stops (stops_cons.mpr (by decide))
    have hcomment : beginsComment ('"'.toUInt8 :: (bytes "\\ " ++ (line ++ (text ++ rest)))) = true :=
      beginsComment_iff.mpr ⟨line ++ (text ++ rest), rfl⟩
    have hline : skipLine ('"'.toUInt8 :: (bytes "\\ " ++ (line ++ (text ++ rest)))) = text ++ rest := by
      rw [skipLine_comment hcomment]
      exact dropWhile_append hline hstop
    rw [skipLayout_of_cons hskip, if_neg (by decide), if_neg (by decide), if_pos ⟨rfl, hcomment⟩,
      hline, ih]

theorem skipLayout_eq_iff {atLineStart : Bool} {source rest : List UInt8} :
    skipLayout atLineStart source = rest ↔ ∃ gap, source = gap ++ rest ∧ Layout atLineStart gap rest := by
  constructor
  · rintro rfl
    exact layout_of_skip atLineStart source
  · rintro ⟨gap, rfl, h⟩
    exact skipLayout_of_layout h

/-! ## The token loop -/

variable {parseFloat : List UInt8 → Option UInt64} {total : Nat}

theorem SpellsNumber.ne_nil {kind : TokenKind} {text next : List UInt8}
    (h : SpellsNumber parseFloat kind text next) : text ≠ [] := by
  cases h with
  | plain hdigits _ _ _ _ => exact hdigits.1
  | based _ _ _ _ _ => exact List.cons_ne_nil _ _
  | float hdigits _ _ => exact List.append_ne_nil_of_left_ne_nil hdigits.1 _

theorem Spells.ne_nil {kind : TokenKind} {text next : List UInt8}
    (h : Spells parseFloat kind text next) (hkind : kind ≠ .eof) : text ≠ [] := by
  cases h with
  | eof _ => exact absurd rfl hkind
  | number hnumber => exact hnumber.ne_nil
  | andAnd => exact List.cons_ne_nil _ _
  | operator hmem _ _ =>
    obtain ⟨byte, tail, hspelling, -, -⟩ := operator_head hmem
    rw [hspelling]
    exact List.cons_ne_nil _ _
  | comparison hword _ =>
    simp only [comparisonWords, List.mem_cons, List.not_mem_nil, or_false] at hword
    rcases hword with rfl | rfl
    · exact List.cons_ne_nil _ _
    · exact List.cons_ne_nil _ _
  | identifier hname _ =>
    obtain ⟨-, scope, first, more, rfl, -, -, -⟩ := hname
    exact List.append_ne_nil_of_right_ne_nil _ (List.cons_ne_nil _ _)
  | _ => exact List.cons_ne_nil _ _

theorem afterToken_length_le (kind : TokenKind) (rest : List UInt8) :
    (afterToken kind rest).length ≤ rest.length := by
  unfold afterToken
  split
  · split_ifs
    · simp
    · exact le_rfl
  · exact le_rfl

/-- A token takes bytes. -/
theorem nextKind_length_lt {rest after : List UInt8} {kind : TokenKind}
    (h : nextKind parseFloat total rest = .ok (kind, after)) (hkind : kind ≠ .eof) :
    after.length < rest.length := by
  obtain ⟨text, next, rfl, hspells, rfl⟩ := nextKind_ok_iff.mp h
  have hne := List.length_pos_iff.mpr (hspells.ne_nil hkind)
  have hle := afterToken_length_le kind next
  rw [List.length_append]
  omega

theorem skipLayout_length_le (atLineStart : Bool) (source : List UInt8) :
    (skipLayout atLineStart source).length ≤ source.length := by
  obtain ⟨gap, hgap, -⟩ := layout_of_skip atLineStart source
  have hlength := congrArg List.length hgap
  rw [List.length_append] at hlength
  omega

/-- Token after token, up to the end or to a byte that begins none. -/
def tokenizeFrom (parseFloat : List UInt8 → Option UInt64) (total : Nat) (atLineStart : Bool)
    (rest : List UInt8) : List Token × Option EvalError :=
  let start := total - (skipLayout atLineStart rest).length
  match h : nextKind parseFloat total (skipLayout atLineStart rest) with
  | .error e => ([⟨.eof, ⟨start, start⟩⟩], some e)
  | .ok (kind, after) =>
    let token : Token := ⟨kind, ⟨start, total - after.length⟩⟩
    if hkind : kind = .eof then ([token], none)
    else
      let (tokens, error) := tokenizeFrom parseFloat total false after
      (token :: tokens, error)
termination_by rest.length
decreasing_by
  have hlt := nextKind_length_lt h hkind
  have hle := skipLayout_length_le atLineStart rest
  omega

/-- The tokens of a source text as far as they go, and why they go no further. -/
def tokenizeTolerant (parseFloat : List UInt8 → Option UInt64) (source : List UInt8) :
    List Token × Option EvalError :=
  tokenizeFrom parseFloat source.length true source

def tokenize (parseFloat : List UInt8 → Option UInt64) (source : List UInt8) :
    Except EvalError (List Token) :=
  match tokenizeTolerant parseFloat source with
  | (_, some error) => .error error
  | (tokens, none) => .ok tokens

/-! ## Reading without the lexer -/

/-- `rest` begins where a token of the source is expected. -/
inductive TokenStart (parseFloat : List UInt8 → Option UInt64) :
    Bool → List UInt8 → List UInt8 → Prop
  | here {atLineStart : Bool} {gap rest : List UInt8} : Layout atLineStart gap rest →
    TokenStart parseFloat atLineStart (gap ++ rest) rest
  | later {atLineStart : Bool} {gap text next rest : List UInt8} {kind : TokenKind} :
    Layout atLineStart gap (text ++ next) → Spells parseFloat kind text next → kind ≠ .eof →
    TokenStart parseFloat false next rest →
    TokenStart parseFloat atLineStart (gap ++ (text ++ next)) rest

/-- `read`, with `rest` behind it, is what the tokens are read from: layout and a spelling for each
of them, which is where its span says from `offset` on. -/
inductive Reads (parseFloat : List UInt8 → Option UInt64) :
    Bool → Nat → List Token → List UInt8 → List UInt8 → Prop
  | nil {atLineStart : Bool} {offset : Nat} {rest : List UInt8} :
    Reads parseFloat atLineStart offset [] [] rest
  | cons {atLineStart : Bool} {offset : Nat} {kind : TokenKind} {tokens : List Token}
    {gap text more rest : List UInt8} : Layout atLineStart gap (text ++ (more ++ rest)) →
    Spells parseFloat kind text (more ++ rest) → kind ≠ .eof →
    Reads parseFloat false (offset + gap.length + text.length) tokens more rest →
    Reads parseFloat atLineStart offset
      (⟨kind, offset + gap.length, offset + gap.length + text.length⟩ :: tokens)
      (gap ++ (text ++ more)) rest

/-- The tokens and the layout between them are the source up to the end token. -/
def AccountsFor (parseFloat : List UInt8 → Option UInt64) (atLineStart : Bool) (offset : Nat)
    (source : List UInt8) (tokens : List Token) : Prop :=
  ∃ front read gap rest, source = read ++ (gap ++ rest) ∧
    Reads parseFloat atLineStart offset front read (gap ++ rest) ∧
    Layout (atLineStart && front.isEmpty) gap rest ∧
    tokens = front ++ [⟨.eof, offset + (read ++ gap).length, offset + (read ++ gap).length⟩]

/-- Literals whose spelling may depend on more than the next byte: a dot and digits behind a number
make a float of it unless a letter follows, and a key name in a string is looked for past its end. -/
def TokenKind.isLiteral : TokenKind → Bool
  | .integer _ | .string _ | .interpolated _ => true
  | _ => false

def insertAt (source : List UInt8) (position : Nat) (b : UInt8) : List UInt8 :=
  source.take position ++ b :: source.drop position

/-- With the blank at the position, a literal before it would not be spelled so. -/
def Significant (parseFloat : List UInt8 → Option UInt64) (source : List UInt8) (position : Nat)
    (b : UInt8) : Prop :=
  ∃ kind text more, kind.isLiteral = true ∧
    TokenStart parseFloat true source (text ++ (more ++ source.drop position)) ∧
    Spells parseFloat kind text (more ++ source.drop position) ∧
    ¬Spells parseFloat kind text (more ++ b :: source.drop position)

def Token.shift (token : Token) : Token := ⟨token.kind, token.span.start + 1, token.span.stop + 1⟩

/-- Every byte of the source is accounted for, and a blank behind a token changes nothing. -/
structure Accounts (parseFloat : List UInt8 → Option UInt64) (source : List UInt8) : Prop where
  reads : AccountsFor parseFloat true 0 source (tokenizeTolerant parseFloat source).1
  blank : ∀ front token next back,
    (tokenizeTolerant parseFloat source).1 = front ++ token :: next :: back → ∀ b, isBlank b = true →
    ¬Significant parseFloat source token.span.stop b →
    (tokenizeTolerant parseFloat (insertAt source token.span.stop b)).1 =
      front ++ token :: (next :: back).map Token.shift

/-- Nowhere does a question mark follow a name directly, the comparison words apart. -/
def NoQuestionMark (parseFloat : List UInt8 → Option UInt64) (atLineStart : Bool)
    (source : List UInt8) : Prop :=
  ∀ name rest, TokenStart parseFloat atLineStart source (name ++ rest) → Name name rest →
    name ∉ reserved → rest.head? ≠ some '?'.toUInt8

end Oxvim.Eval.Lexer
