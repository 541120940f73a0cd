import Oxvim.Eval.Tokenize

/-!
# What the token loop accounts for

The loop reads what `Reads` says until a question mark follows a name, which the name's span takes
along.
-/

namespace Oxvim.Eval.Lexer

open Lib Lib.Greedy Lib.EState

variable {parseFloat : List UInt8 → Option UInt64} {total : Nat}

/-! ## A source text is read in one way -/

theorem Spells.of_identifier {name text next : List UInt8}
    (h : Spells parseFloat (.identifier name) text next) :
    text = name ∧ Name name next ∧ name ∉ reserved := by
  generalize hkind : TokenKind.identifier name = kind at h
  cases h with
  | identifier hname hreserved =>
    cases hkind
    exact ⟨rfl, hname, hreserved⟩
  | number hnumber =>
    have hnot := hnumber.isIdentifier
    rw [← hkind] at hnot
    cases hnot
  | @operator operator case _ _ hmem _ _ =>
    have hnot := operator_isIdentifier hmem case
    rw [← hkind] at hnot
    cases hnot
  | comparison hword _ =>
    simp only [comparisonWords, List.mem_cons, List.not_mem_nil, or_false] at hword
    rcases hword with rfl | rfl
    · cases hkind
    · cases hkind
  | _ => cases hkind

theorem operator_ne_eof {operator : Operator} (h : operator ∈ operators) (case : CaseSensitivity) :
    operator.kind case ≠ .eof := by
  have hall : ∀ operator ∈ operators, operator.kind .default ≠ .eof ∧
      operator.kind .matchCase ≠ .eof ∧ operator.kind .ignoreCase ≠ .eof := by decide +kernel
  obtain ⟨hdefault, hmatch, hignore⟩ := hall operator h
  cases case with
  | default => exact hdefault
  | matchCase => exact hmatch
  | ignoreCase => exact hignore

theorem Spells.of_eof {text next : List UInt8} (h : Spells parseFloat .eof text next) : text = [] := by
  generalize hkind : TokenKind.eof = kind at h
  cases h with
  | eof _ => rfl
  | number hnumber => cases hnumber <;> cases hkind
  | @operator operator case _ _ hmem _ _ => exact absurd hkind.symm (operator_ne_eof hmem case)
  | comparison hword _ =>
    simp only [comparisonWords, List.mem_cons, List.not_mem_nil, or_false] at hword
    rcases hword with rfl | rfl
    · cases hkind
    · cases hkind
  | _ => cases hkind

theorem Spells.unique {kind other : TokenKind} {text next text' next' : List UInt8}
    (h : Spells parseFloat kind text next) (h' : Spells parseFloat other text' next')
    (heq : text ++ next = text' ++ next') : kind = other ∧ text = text' ∧ next = next' := by
  have hread : nextKind parseFloat 0 (text ++ next) = .ok (kind, afterToken kind next) :=
    nextKind_of_spells h
  rw [heq, nextKind_of_spells h', Except.ok.injEq, Prod.mk.injEq] at hread
  obtain ⟨rfl, hafter⟩ := hread
  refine ⟨rfl, ?_⟩
  by_cases hident : other.isIdentifier = true
  · obtain ⟨name, rfl⟩ : ∃ name, other = .identifier name := by
      cases other with
      | identifier name => exact ⟨name, rfl⟩
      | _ => cases hident
    obtain ⟨rfl, -, -⟩ := h.of_identifier
    obtain ⟨rfl, -, -⟩ := h'.of_identifier
    exact ⟨rfl, List.append_cancel_left heq⟩
  · rw [Bool.not_eq_true] at hident
    rw [afterToken_of_not hident, afterToken_of_not hident] at hafter
    subst hafter
    exact ⟨List.append_cancel_right heq, rfl⟩

theorem Layout.unique {atLineStart : Bool} {gap rest gap' rest' : List UInt8}
    (h : Layout atLineStart gap rest) (h' : Layout atLineStart gap' rest')
    (heq : gap ++ rest = gap' ++ rest') : gap = gap' ∧ rest = rest' := by
  have hskip := skipLayout_of_layout h
  rw [heq, skipLayout_of_layout h'] at hskip
  subst hskip
  exact ⟨List.append_cancel_right heq, rfl⟩

/-- The starts of a source that begins with a token are that token's and those behind it. -/
theorem tokenStart_iff {atLineStart : Bool} {gap text next rest : List UInt8} {kind : TokenKind}
    (hlayout : Layout atLineStart gap (text ++ next)) (hspells : Spells parseFloat kind text next)
    (hkind : kind ≠ .eof) :
    TokenStart parseFloat atLineStart (gap ++ (text ++ next)) rest ↔
      rest = text ++ next ∨ TokenStart parseFloat false next rest := by
  constructor
  · intro h
    generalize hsource : gap ++ (text ++ next) = source at h
    cases h with
    | here hlayout' =>
      obtain ⟨-, rfl⟩ := hlayout.unique hlayout' hsource
      exact .inl rfl
    | later hlayout' hspells' _ hlater =>
      obtain ⟨-, hrest⟩ := hlayout.unique hlayout' hsource
      obtain ⟨-, -, rfl⟩ := hspells.unique hspells' hrest
      exact .inr hlater
  · rintro (rfl | h)
    · exact .here hlayout
    · exact .later hlayout hspells hkind h

theorem Spells.afterToken_eq {kind : TokenKind} {text next : List UInt8}
    (h : Spells parseFloat kind text next)
    (hquestion : Name text next → text ∉ reserved → next.head? ≠ some '?'.toUInt8) :
    afterToken kind next = next := by
  by_cases hident : kind.isIdentifier = true
  · obtain ⟨name, rfl⟩ : ∃ name, kind = .identifier name := by
      cases kind with
      | identifier name => exact ⟨name, rfl⟩
      | _ => cases hident
    obtain ⟨rfl, hname, hreserved⟩ := h.of_identifier
    unfold afterToken
    rw [if_neg (hquestion hname hreserved)]
  · rw [Bool.not_eq_true] at hident
    exact afterToken_of_not hident next

/-- Whether a question mark follows a name is settled token by token. -/
theorem noQuestionMark_iff {atLineStart : Bool} {gap text next : List UInt8} {kind : TokenKind}
    (hlayout : Layout atLineStart gap (text ++ next)) (hspells : Spells parseFloat kind text next)
    (hkind : kind ≠ .eof) :
    NoQuestionMark parseFloat atLineStart (gap ++ (text ++ next)) ↔
      afterToken kind next = next ∧ NoQuestionMark parseFloat false next := by
  constructor
  · intro h
    refine ⟨hspells.afterToken_eq fun hname hreserved => ?_, fun name rest hstart => ?_⟩
    · exact h text next ((tokenStart_iff hlayout hspells hkind).mpr (.inl rfl)) hname hreserved
    · exact h name rest ((tokenStart_iff hlayout hspells hkind).mpr (.inr hstart))
  · rintro ⟨hafter, h⟩ name rest hstart hname hreserved hhead
    rcases (tokenStart_iff hlayout hspells hkind).mp hstart with hhere | hlater
    · -- The name is the token at hand.
      obtain ⟨rfl, -, rfl⟩ := (Spells.identifier hname hreserved).unique hspells hhere
      unfold afterToken at hafter
      dsimp only at hafter
      rw [if_pos hhead] at hafter
      obtain ⟨tail, rfl⟩ := List.head?_eq_some_iff.mp hhead
      have hlength := congrArg List.length hafter
      simp at hlength
    · exact h name rest hlater hname hreserved hhead

/-! ## One step of the loop -/

theorem tokenizeFrom_of_spells {atLineStart : Bool} {gap text next : List UInt8} {kind : TokenKind}
    (hlayout : Layout atLineStart gap (text ++ next)) (hspells : Spells parseFloat kind text next)
    (hkind : kind ≠ .eof) :
    (tokenizeFrom parseFloat total atLineStart (gap ++ (text ++ next))).1 =
      ⟨kind, total - (text ++ next).length, total - (afterToken kind next).length⟩ ::
        (tokenizeFrom parseFloat total false (afterToken kind next)).1 := by
  have hskip := skipLayout_of_layout hlayout
  have hread : nextKind parseFloat total (skipLayout atLineStart (gap ++ (text ++ next)))
      = .ok (kind, afterToken kind next) := by
    rw [hskip]
    exact nextKind_of_spells hspells
  rw [tokenizeFrom]
  split
  · rename_i herror
    rw [hread] at herror
    cases herror
  · rename_i found after hok
    rw [hread] at hok
    cases hok
    rw [dif_neg hkind, hskip]

/-- At the end of the layout there is a token, or the loop ends. -/
theorem tokenizeFrom_cases (parseFloat : List UInt8 → Option UInt64) (atLineStart : Bool) (source : List UInt8) :
    (∃ gap kind text next, source = gap ++ (text ++ next) ∧ Layout atLineStart gap (text ++ next) ∧
      Spells parseFloat kind text next ∧ kind ≠ .eof) ∨
    ∃ gap rest, source = gap ++ rest ∧ Layout atLineStart gap rest ∧
      (¬∃ kind text next, rest = text ++ next ∧ Spells parseFloat kind text next ∧ kind ≠ .eof) ∧
      ∀ total, (tokenizeFrom parseFloat total atLineStart source).1
        = [⟨.eof, total - rest.length, total - rest.length⟩] := by
  obtain ⟨gap, hgap, hlayout⟩ := layout_of_skip atLineStart source
  generalize hhere : skipLayout atLineStart source = here at hgap hlayout
  by_cases htoken : ∃ kind text next, here = text ++ next ∧ Spells parseFloat kind text next ∧ kind ≠ .eof
  · obtain ⟨kind, text, next, rfl, hspells, hkind⟩ := htoken
    exact .inl ⟨gap, kind, text, next, hgap, hlayout, hspells, hkind⟩
  · refine .inr ⟨gap, here, hgap, hlayout, htoken, fun total => ?_⟩
    rw [tokenizeFrom]
    split
    · rw [hhere]
    · rename_i kind after hok
      rw [hhere] at hok ⊢
      obtain ⟨text, next, hrest, hspells, hafter⟩ := nextKind_ok_iff.mp hok
      by_cases hkind : kind = .eof
      · subst hkind
        rw [dif_pos rfl]
        rw [hspells.of_eof, List.nil_append] at hrest
        rw [hafter, ← hrest]
        rfl
      · exact absurd ⟨kind, text, next, hrest, hspells, hkind⟩ htoken

/-! ## The whole run -/

/-- Where no question mark follows a name, the loop reads the tokens of a reading. -/
theorem tokenizeFrom_reads {atLineStart : Bool} {offset : Nat} {tokens : List Token}
    {read rest : List UInt8} (h : Reads parseFloat atLineStart offset tokens read rest)
    (hquestion : NoQuestionMark parseFloat atLineStart (read ++ rest))
    (htotal : total = offset + (read ++ rest).length) :
    (tokenizeFrom parseFloat total atLineStart (read ++ rest)).1 =
      tokens ++ (tokenizeFrom parseFloat total (atLineStart && tokens.isEmpty) rest).1 ∧
    NoQuestionMark parseFloat (atLineStart && tokens.isEmpty) rest := by
  induction h with
  | nil =>
    rw [List.isEmpty_nil, Bool.and_true, List.nil_append]
    exact ⟨rfl, hquestion⟩
  | @cons atLineStart offset kind tokens gap text more rest hlayout hspells hkind hreads ih =>
    have hsource : gap ++ (text ++ more) ++ rest = gap ++ (text ++ (more ++ rest)) := by simp
    rw [hsource] at hquestion htotal ⊢
    obtain ⟨hafter, hquestion⟩ := (noQuestionMark_iff hlayout hspells hkind).mp hquestion
    simp only [List.length_append] at htotal
    obtain ⟨htokens, hrest⟩ := ih hquestion (by simp only [List.length_append]; omega)
    rw [tokenizeFrom_of_spells hlayout hspells hkind, hafter, htokens]
    have hstart : total - (text ++ (more ++ rest)).length = offset + gap.length := by
      simp only [List.length_append]
      omega
    have hstop : total - (more ++ rest).length = offset + gap.length + text.length := by
      simp only [List.length_append]
      omega
    rw [hstart, hstop]
    rw [List.isEmpty_cons, Bool.and_false]
    rw [Bool.false_and] at hrest ⊢
    exact ⟨rfl, hrest⟩

/-- Where no question mark follows a name, all of the source is accounted for. -/
theorem accountsFor_tokenizeFrom {atLineStart : Bool} {source : List UInt8} {offset : Nat}
    (hquestion : NoQuestionMark parseFloat atLineStart source) (htotal : total = offset + source.length) :
    AccountsFor parseFloat atLineStart offset source
      (tokenizeFrom parseFloat total atLineStart source).1 := by
  induction hlength : source.length using Nat.strong_induction_on
    generalizing source offset atLineStart with
  | _ length ih =>
    rcases tokenizeFrom_cases parseFloat atLineStart source with
      ⟨gap, kind, text, next, rfl, hlayout, hspells, hkind⟩ | ⟨gap, rest, rfl, hlayout, -, htokens⟩
    · obtain ⟨hafter, hquestion⟩ := (noQuestionMark_iff hlayout hspells hkind).mp hquestion
      have hne := List.length_pos_iff.mpr (hspells.ne_nil hkind)
      simp only [List.length_append] at htotal hlength
      have hnext : AccountsFor parseFloat false (offset + gap.length + text.length) next
          (tokenizeFrom parseFloat total false next).1 :=
        ih next.length (by omega) hquestion (by omega) rfl
      obtain ⟨front, read, gap', rest, rfl, hreads, hlayout', htokens⟩ := hnext
      rw [tokenizeFrom_of_spells hlayout hspells hkind, hafter, htokens]
      have hstart : total - (text ++ (read ++ (gap' ++ rest))).length = offset + gap.length := by
        simp only [List.length_append] at htotal ⊢
        omega
      have hstop : total - (read ++ (gap' ++ rest)).length = offset + gap.length + text.length := by
        simp only [List.length_append] at htotal ⊢
        omega
      rw [hstart, hstop]
      refine ⟨_ :: front, gap ++ (text ++ read), gap', rest, by simp,
        .cons hlayout hspells hkind hreads, ?_, ?_⟩
      · rw [List.isEmpty_cons, Bool.and_false]
        exact hlayout'
      · rw [List.cons_append]
        simp only [List.length_append]
        congr 5 <;> omega
    · refine ⟨[], [], gap, rest, rfl, .nil, ?_, ?_⟩
      · rw [List.isEmpty_nil, Bool.and_true]
        exact hlayout
      · rw [htokens, List.nil_append, List.nil_append]
        simp only [List.length_append] at htotal
        congr 3 <;> omega

theorem afterToken_of_length {kind : TokenKind} {rest : List UInt8}
    (h : (afterToken kind rest).length = rest.length) : afterToken kind rest = rest := by
  unfold afterToken at h ⊢
  split at h
  · split_ifs at h ⊢ with hhead
    · obtain ⟨tail, rfl⟩ := List.head?_eq_some_iff.mp hhead
      simp at h
    · rfl
  · rfl

/-- Without a token at hand there is no name either. -/
theorem noQuestionMark_of_end {atLineStart : Bool} {gap rest : List UInt8}
    (hlayout : Layout atLineStart gap rest)
    (hend : ¬∃ kind text next, rest = text ++ next ∧ Spells parseFloat kind text next ∧ kind ≠ .eof) :
    NoQuestionMark parseFloat atLineStart (gap ++ rest) := by
  intro name after hstart hname hreserved
  generalize hsource : gap ++ rest = source at hstart
  cases hstart with
  | here hlayout' =>
    obtain ⟨-, rfl⟩ := hlayout.unique hlayout' hsource
    refine absurd ⟨.identifier name, name, after, rfl, .identifier hname hreserved, ?_⟩ hend
    exact TokenKind.noConfusion
  | @later _ _ text next _ kind hlayout' hspells hkind _ =>
    obtain ⟨-, rfl⟩ := hlayout.unique hlayout' hsource
    exact absurd ⟨kind, text, next, rfl, hspells, hkind⟩ hend

/-- A question mark behind a name is in no span that spells the name. -/
theorem noQuestionMark_of_accountsFor {atLineStart : Bool} {source : List UInt8} {offset : Nat}
    (haccounts : AccountsFor parseFloat atLineStart offset source
      (tokenizeFrom parseFloat total atLineStart source).1) (htotal : total = offset + source.length) :
    NoQuestionMark parseFloat atLineStart source := by
  induction hlength : source.length using Nat.strong_induction_on
    generalizing source offset atLineStart with
  | _ length ih =>
    rcases tokenizeFrom_cases parseFloat atLineStart source with
      ⟨gap, kind, text, next, rfl, hlayout, hspells, hkind⟩ | ⟨gap, rest, rfl, hlayout, hend, -⟩
    · obtain ⟨front, read, gap', rest, hsource, hreads, hlast, htokens⟩ := haccounts
      rw [tokenizeFrom_of_spells hlayout hspells hkind] at htokens
      have hne := List.length_pos_iff.mpr (hspells.ne_nil hkind)
      have hle := afterToken_length_le kind next
      simp only [List.length_append] at htotal hlength
      cases hreads with
      | nil =>
        rw [List.nil_append, List.cons.injEq, Token.mk.injEq] at htokens
        exact absurd htokens.1.1 hkind
      | @cons _ _ kind' tokens gap'' text' more _ hlayout' hspells' hkind' hreads =>
        have hsource' : gap ++ (text ++ next) = gap'' ++ (text' ++ (more ++ (gap' ++ rest))) := by
          rw [hsource]
          simp
        obtain ⟨rfl, htext⟩ := hlayout.unique hlayout' hsource'
        obtain ⟨rfl, rfl, rfl⟩ := hspells.unique hspells' htext
        rw [List.cons_append, List.cons.injEq, Token.mk.injEq, Span.mk.injEq] at htokens
        obtain ⟨⟨-, -, hstop⟩, htokens⟩ := htokens
        have hafter : afterToken kind (more ++ (gap' ++ rest)) = more ++ (gap' ++ rest) :=
          afterToken_of_length (by omega)
        rw [hafter] at htokens
        refine (noQuestionMark_iff hlayout hspells hkind).mpr ⟨hafter, ?_⟩
        have hspan : offset + (gap ++ (text ++ more) ++ gap').length
            = offset + gap.length + text.length + (more ++ gap').length := by
          simp only [List.length_append]
          omega
        rw [List.isEmpty_cons, Bool.and_false] at hlast
        have hnext : AccountsFor parseFloat false (offset + gap.length + text.length)
            (more ++ (gap' ++ rest))
            (tokenizeFrom parseFloat total false (more ++ (gap' ++ rest))).1 := by
          refine ⟨tokens, more, gap', rest, rfl, hreads, hlast, ?_⟩
          rw [htokens, hspan]
        exact ih _ (by omega) hnext (by omega) rfl
    · exact noQuestionMark_of_end hlayout hend

/-! ## A blank behind a token -/

theorem blank_facts : ∀ b : UInt8, isBlank b = true → isNameContinue b = false ∧
    isNameStart b = false ∧ isDigit b = false ∧ isAlphabetic b = false ∧ isHexDigit b = false ∧
    b ∉ bytes "gbwtslav:.#?'=\n\\" ∧ (∀ operator ∈ operators, b ∉ operator.spelling) := by
  decide +kernel

/-- Behind the blank there is nothing new, before it nothing changes. -/
theorem head_insert {P : Option UInt8 → Prop} {more after : List UInt8} {b : UInt8}
    (h : P (more ++ after).head?) (hb : P (some b)) : P (more ++ b :: after).head? := by
  cases more with
  | nil => exact hb
  | cons first more => exact h

theorem stops_insert {p : UInt8 → Bool} {more after : List UInt8} {b : UInt8}
    (h : Stops p (more ++ after)) (hb : p b = false) : Stops p (more ++ b :: after) :=
  head_insert (P := fun head => head.any p = false) h hb

/-- A word without the blank lies before it. -/
theorem prefix_of_insert {word before after : List UInt8} {b : UInt8} (hb : b ∉ word)
    (h : word <+: before ++ b :: after) : word <+: before := by
  rcases Nat.lt_or_ge before.length word.length with hlt | hle
  · have hbefore : before ++ [b] <+: before ++ b :: after :=
      (List.prefix_append_right_inj before).mpr ⟨after, rfl⟩
    have hword := List.prefix_of_prefix_length_le hbefore h (by simpa using hlt)
    exact absurd (hword.subset (by simp)) hb
  · exact List.prefix_of_prefix_length_le h (List.prefix_append _ _) hle

theorem Suffix.insert {case : CaseSensitivity} {suffix more after : List UInt8} {b : UInt8}
    (h : Suffix case suffix (more ++ after)) (hhash : b ≠ '#'.toUInt8) (hquestion : b ≠ '?'.toUInt8) :
    Suffix case suffix (more ++ b :: after) := by
  generalize hnext : more ++ after = next at h
  cases h with
  | default hnohash hnoquestion =>
    subst hnext
    refine .default ?_ ?_
    · exact head_insert (P := fun head => head ≠ some '#'.toUInt8) hnohash (by simpa using hhash)
    · exact head_insert (P := fun head => head ≠ some '?'.toUInt8) hnoquestion
        (by simpa using hquestion)
  | matchCase => exact .matchCase
  | ignoreCase => exact .ignoreCase

theorem not_blobContinues_insert {more after : List UInt8} {b : UInt8} (hdot : b ≠ '.'.toUInt8)
    (hhex : isHexDigit b = false) (h : ¬BlobContinues (more ++ after)) :
    ¬BlobContinues (more ++ b :: after) := by
  rintro ⟨hhead, hnext⟩
  cases more with
  | nil => exact hdot (by simpa using hhead)
  | cons first more =>
    cases more with
    | nil =>
      have hb : isHexDigit b = true := by simpa using hnext
      rw [hhex] at hb
      cases hb
    | cons second more => exact h ⟨hhead, hnext⟩

/-- A scope is not made by a blank. -/
theorem isScoped_insert {before after : List UInt8} {b : UInt8} (hstart : isNameStart b = false)
    (hb : b ∉ bytes "gbwtslav:") (h : isScoped (before ++ after) = false) :
    isScoped (before ++ b :: after) = false := by
  rw [Bool.eq_false_iff] at h ⊢
  intro hscoped
  apply h
  obtain ⟨letter, first, tail, hsource, hletter, hfirst⟩ := isScoped_iff.mp hscoped
  have hword : b ∉ [letter, ':'.toUInt8, first] := by
    rw [List.mem_cons, List.mem_cons, List.mem_singleton]
    rintro (rfl | rfl | rfl)
    · exact hb (List.mem_append_left (bytes ":") hletter)
    · exact hb (by decide)
    · rw [hstart] at hfirst
      cases hfirst
  have hprefix : [letter, ':'.toUInt8, first] <+: before ++ b :: after := by
    rw [hsource]
    exact ⟨tail, rfl⟩
  obtain ⟨more, rfl⟩ := prefix_of_insert hword hprefix
  exact isScoped_iff.mpr ⟨letter, first, more ++ after, by simp, hletter, hfirst⟩

/-- Only literals may be spelled otherwise with a blank behind them. -/
theorem Spells.insert {kind : TokenKind} {text more after : List UInt8} {b : UInt8}
    (h : Spells parseFloat kind text (more ++ after)) (hkind : kind ≠ .eof)
    (hliteral : kind.isLiteral = false) (hb : isBlank b = true) :
    Spells parseFloat kind text (more ++ b :: after) := by
  obtain ⟨hcontinue, hstart, hdigit, halpha, hhex, hother, hoperator⟩ := blank_facts b hb
  have hne : ∀ other ∈ bytes "gbwtslav:.#?'=\n\\", b ≠ other :=
    fun other hmem heq => hother (heq ▸ hmem)
  generalize hnext : more ++ after = next at h
  cases h with
  | eof _ => exact absurd rfl hkind
  | number hnumber =>
    cases hnumber with
    | plain _ _ _ _ _ => cases hliteral
    | based _ _ _ _ _ => cases hliteral
    | float hdigits hfollows hparse =>
      subst hnext
      obtain ⟨hshape, hstop, hletter⟩ := hfollows
      have hdot := hne '.'.toUInt8 (by decide)
      exact .number (.float hdigits ⟨hshape, stops_insert hstop hdigit,
        stops_insert hletter (by simp [hdot, halpha])⟩ hparse)
  | blob hmark hbody heven hstop hcontinues =>
    subst hnext
    exact .blob hmark hbody heven (stops_insert hstop hcontinue)
      (not_blobContinues_insert (hne '.'.toUInt8 (by decide)) hhex hcontinues)
  | singleString _ _ => cases hliteral
  | doubleString _ => cases hliteral
  | interpolated _ _ _ => cases hliteral
  | environment hname hall hstop =>
    subst hnext
    exact .environment hname hall (stops_insert hstop hcontinue)
  | andAnd => exact .andAnd
  | @option name _ hname hall hstop hplain =>
    subst hnext
    refine .option hname hall (stops_insert hstop hcontinue) ?_
    refine head_insert (P := fun head => ¬(name ∈ [bytes "g", bytes "l"] ∧ head = some ':'.toUInt8))
      hplain ?_
    rintro ⟨-, hcolon⟩
    exact hne ':'.toUInt8 (by decide) (by simpa using hcolon)
  | scopedOption hscope hname hall hstop =>
    subst hnext
    exact .scopedOption hscope hname hall (stops_insert hstop hcontinue)
  | register => exact .register
  | @operator operator case suffix _ hmem hlongest hsuffix =>
    subst hnext
    refine .operator hmem (fun other hother hprefix => hlongest other hother ?_) ?_
    · rw [← List.append_assoc] at hprefix ⊢
      exact (prefix_of_insert (hoperator other hother) hprefix).trans (List.prefix_append _ _)
    · split_ifs at hsuffix ⊢
      · exact hsuffix.insert (hne '#'.toUInt8 (by decide)) (hne '?'.toUInt8 (by decide))
      · exact hsuffix
  | comparison hword hsuffix =>
    subst hnext
    exact .comparison hword
      ⟨hsuffix.1.insert (hne '#'.toUInt8 (by decide)) (hne '?'.toUInt8 (by decide)),
        fun hcase => stops_insert (hsuffix.2 hcase) hcontinue⟩
  | identifier hname hreserved =>
    subst hnext
    refine .identifier ⟨stops_insert hname.stops hcontinue, ?_⟩ hreserved
    obtain ⟨scope, first, tail, htext, hfirst, hall, hscope⟩ := hname.word
    refine ⟨scope, first, tail, htext, hfirst, hall, ?_⟩
    rcases hscope with ⟨hnil, hplain⟩ | hscope
    · refine .inl ⟨hnil, ?_⟩
      rw [← List.append_assoc] at hplain ⊢
      refine isScoped_insert hstart (fun hmem => hother ?_) hplain
      exact List.mem_append_left (bytes ".#?'=\n\\") hmem
    · exact .inr hscope

/-- A token that begins with a double quote ends with one. -/
theorem Spells.of_quote {kind : TokenKind} {tail next : List UInt8}
    (h : Spells parseFloat kind ('"'.toUInt8 :: tail) next) : ∃ text, tail = text ++ ['"'.toUInt8] := by
  have hread : nextKind parseFloat 0 ('"'.toUInt8 :: tail ++ next) = .ok (kind, afterToken kind next) :=
    nextKind_of_spells h
  rw [List.cons_append, nextKind, if_neg (by decide), if_neg (by simp +decide), if_neg (by decide),
    if_neg (by decide), if_pos rfl] at hread
  obtain ⟨⟨value, after⟩, hbody, -⟩ := except_map_eq_ok.mp hread
  obtain ⟨pieces, text, hsource, hbody, -⟩ := lexDoubleBody_ok_iff.mp hbody
  have hstring : Spells parseFloat (.string (piecesValue pieces))
      ('"'.toUInt8 :: (text ++ ['"'.toUInt8])) after := .doubleString hbody
  obtain ⟨-, htext, -⟩ := h.unique hstring (by simp [hsource])
  exact ⟨text, List.tail_eq_of_cons_eq htext⟩

/-- A token is no comment, whatever follows it. -/
theorem Spells.not_comment {kind : TokenKind} {text next other : List UInt8}
    (h : Spells parseFloat kind text next) (hkind : kind ≠ .eof)
    (hcomment : ¬bytes "\"\\ " <+: text ++ next) : ¬bytes "\"\\ " <+: text ++ other := by
  intro hprefix
  apply hcomment
  obtain ⟨first, tail, rfl⟩ := List.exists_cons_of_ne_nil (h.ne_nil hkind)
  have hbytes : bytes "\"\\ " = ['"'.toUInt8, '\\'.toUInt8, ' '.toUInt8] := by decide
  rw [hbytes] at hprefix ⊢
  obtain ⟨rfl, htail⟩ := List.cons_prefix_cons.mp hprefix
  obtain ⟨text, rfl⟩ := h.of_quote
  cases text with
  | nil =>
    have hquote := (List.cons_prefix_cons.mp htail).1
    exact absurd hquote (by decide)
  | cons second text =>
    have hwhole : [('"'.toUInt8), '\\'.toUInt8, ' '.toUInt8] <+:
        '"'.toUInt8 :: (second :: text ++ ['"'.toUInt8]) := by
      refine List.prefix_of_prefix_length_le hprefix (List.prefix_append _ other) ?_
      simp
    exact hwhole.trans (List.prefix_append _ next)

/-- The layout before a token does not depend on what follows the token. -/
theorem LayoutEnds.of_spells {atLineStart : Bool} {kind : TokenKind} {text next other : List UInt8}
    (h : LayoutEnds atLineStart (text ++ next)) (hspells : Spells parseFloat kind text next)
    (hkind : kind ≠ .eof) : LayoutEnds atLineStart (text ++ other) := by
  obtain ⟨first, tail, htext⟩ := List.exists_cons_of_ne_nil (hspells.ne_nil hkind)
  obtain ⟨hblank, hnewline, hstart⟩ := h
  refine ⟨?_, ?_, fun hline => ⟨?_, hspells.not_comment hkind (hstart hline).2⟩⟩
  · rw [htext] at hblank ⊢
    exact hblank
  · intro rest hrest
    rw [htext, List.cons_append, List.cons.injEq] at hrest
    obtain ⟨rfl, -⟩ := hrest
    -- A newline where a token is expected is the end.
    have hread : nextKind parseFloat 0 (text ++ next) = .ok (kind, afterToken kind next) :=
      nextKind_of_spells hspells
    rw [htext, List.cons_append, nextKind, if_pos rfl] at hread
    have hpair := Except.ok.inj hread
    exact absurd (congrArg Prod.fst hpair).symm hkind
  · have hhead := (hstart hline).1
    rw [htext] at hhead ⊢
    exact hhead

theorem Layout.of_spells {atLineStart : Bool} {kind : TokenKind} {gap text next other : List UInt8}
    (h : Layout atLineStart gap (text ++ next)) (hspells : Spells parseFloat kind text next)
    (hkind : kind ≠ .eof) : Layout atLineStart gap (text ++ other) := by
  have hhead : ∀ front : List UInt8, (front ++ (text ++ next)).head? = (front ++ (text ++ other)).head? := by
    obtain ⟨first, tail, rfl⟩ := List.exists_cons_of_ne_nil (hspells.ne_nil hkind)
    intro front
    cases front with
    | nil => rfl
    | cons first front => rfl
  generalize hrest : text ++ next = rest at h hhead
  induction h with
  | done hends =>
    subst hrest
    exact .done (hends.of_spells hspells hkind)
  | blank hb _ ih => exact .blank hb (ih hrest hhead)
  | continued hblanks _ ih => exact .continued hblanks (ih hrest hhead)
  | comment hblanks hline hstop _ ih =>
    refine .comment hblanks hline ?_ (ih hrest hhead)
    unfold Stops at hstop ⊢
    rw [← hhead]
    exact hstop
  | leading _ ih => exact .leading (ih hrest hhead)
  | leadingComment hline hstop _ ih =>
    refine .leadingComment hline ?_ (ih hrest hhead)
    unfold Stops at hstop ⊢
    rw [← hhead]
    exact hstop

theorem afterToken_insert {kind : TokenKind} {more after : List UInt8} {b : UInt8}
    (h : afterToken kind (more ++ after) = more ++ after) (hb : b ≠ '?'.toUInt8) :
    afterToken kind (more ++ b :: after) = more ++ b :: after := by
  by_cases hident : kind.isIdentifier = true
  · obtain ⟨name, rfl⟩ : ∃ name, kind = .identifier name := by
      cases kind with
      | identifier name => exact ⟨name, rfl⟩
      | _ => cases hident
    have hhead : (more ++ after).head? ≠ some '?'.toUInt8 := by
      intro hhead
      unfold afterToken at h
      dsimp only at h
      rw [if_pos hhead] at h
      obtain ⟨tail, htail⟩ := List.head?_eq_some_iff.mp hhead
      rw [htail] at h
      have hlength := congrArg List.length h
      simp at hlength
    unfold afterToken
    dsimp only
    rw [if_neg]
    exact head_insert (P := fun head => head ≠ some '?'.toUInt8) hhead (by simpa using hb)
  · rw [Bool.not_eq_true] at hident
    exact afterToken_of_not hident _

/-- A blank that is not significant is read over. -/
theorem Reads.insert {atLineStart : Bool} {offset : Nat} {tokens : List Token}
    {read after : List UInt8} {b : UInt8} (h : Reads parseFloat atLineStart offset tokens read after)
    (hb : isBlank b = true)
    (hliteral : ∀ kind text more, kind.isLiteral = true →
      TokenStart parseFloat atLineStart (read ++ after) (text ++ (more ++ after)) →
      Spells parseFloat kind text (more ++ after) → Spells parseFloat kind text (more ++ b :: after))
    (hquestion : NoQuestionMark parseFloat atLineStart (read ++ after)) :
    Reads parseFloat atLineStart offset tokens read (b :: after) ∧
      (NoQuestionMark parseFloat (atLineStart && tokens.isEmpty) (b :: after) →
        NoQuestionMark parseFloat atLineStart (read ++ b :: after)) := by
  have hquestionMark : b ≠ '?'.toUInt8 := by
    rintro rfl
    exact absurd hb (by decide)
  induction h with
  | nil =>
    refine ⟨.nil, fun h => ?_⟩
    rw [List.isEmpty_nil, Bool.and_true] at h
    exact h
  | @cons atLineStart offset kind tokens gap text more after hlayout hspells hkind hreads ih =>
    have hsource : gap ++ (text ++ more) ++ after = gap ++ (text ++ (more ++ after)) := by simp
    have hsource' : gap ++ (text ++ more) ++ b :: after = gap ++ (text ++ (more ++ b :: after)) := by
      simp
    rw [hsource] at hquestion hliteral
    have hstarts : ∀ rest, TokenStart parseFloat atLineStart (gap ++ (text ++ (more ++ after))) rest ↔
        rest = text ++ (more ++ after) ∨ TokenStart parseFloat false (more ++ after) rest :=
      fun rest => tokenStart_iff hlayout hspells hkind
    obtain ⟨hafter, hnext⟩ := (noQuestionMark_iff hlayout hspells hkind).mp hquestion
    -- The token at hand is spelled as before, and so are the ones behind it.
    have hspells' : Spells parseFloat kind text (more ++ b :: after) := by
      by_cases hkindLiteral : kind.isLiteral = true
      · exact hliteral kind text more hkindLiteral (.here hlayout) hspells
      · exact hspells.insert hkind (by simpa using hkindLiteral) hb
    have hlayout' : Layout atLineStart gap (text ++ (more ++ b :: after)) :=
      hlayout.of_spells hspells hkind
    obtain ⟨hreads', hquestions⟩ := ih (fun kind' text' more' hkind' hstart hspells' =>
      hliteral kind' text' more' hkind' ((hstarts _).mpr (.inr hstart)) hspells') hnext
    refine ⟨.cons hlayout' hspells' hkind hreads', fun h => ?_⟩
    rw [hsource']
    refine (noQuestionMark_iff hlayout' hspells' hkind).mpr ⟨?_, hquestions ?_⟩
    · exact afterToken_insert hafter hquestionMark
    · rw [List.isEmpty_cons, Bool.and_false] at h
      rw [Bool.false_and]
      exact h

theorem Reads.split {atLineStart : Bool} {offset : Nat} {front back : List Token}
    {read rest : List UInt8} (h : Reads parseFloat atLineStart offset (front ++ back) read rest) :
    ∃ before after, read = before ++ after ∧
      Reads parseFloat atLineStart offset front before (after ++ rest) ∧
      Reads parseFloat (atLineStart && front.isEmpty) (offset + before.length) back after rest := by
  induction front generalizing atLineStart offset read with
  | nil =>
    refine ⟨[], read, rfl, .nil, ?_⟩
    rw [List.isEmpty_nil, Bool.and_true]
    exact h
  | cons token front ih =>
    rw [List.cons_append] at h
    cases h with
    | @cons _ _ kind _ gap text more _ hlayout hspells hkind hreads =>
      obtain ⟨before, after, rfl, hbefore, hafter⟩ := ih hreads
      rw [List.append_assoc] at hlayout hspells
      refine ⟨gap ++ (text ++ before), after, by simp, .cons hlayout hspells hkind hbefore, ?_⟩
      rw [List.isEmpty_cons, Bool.and_false]
      rw [Bool.false_and] at hafter
      have hoffset : offset + (gap ++ (text ++ before)).length
          = offset + gap.length + text.length + before.length := by
        simp only [List.length_append]
        omega
      rw [hoffset]
      exact hafter

/-- The last token ends where the reading does. -/
theorem Reads.last {atLineStart : Bool} {offset : Nat} {front : List Token} {token : Token}
    {read rest : List UInt8} (h : Reads parseFloat atLineStart offset (front ++ [token]) read rest) :
    token.span.stop = offset + read.length := by
  obtain ⟨before, after, rfl, -, hlast⟩ := h.split
  cases hlast with
  | cons _ _ _ hnil =>
    cases hnil
    simp only [List.length_append, List.length_nil]
    omega

theorem tokenizeFrom_blank {atLineStart : Bool} {b : UInt8} {rest : List UInt8}
    (hb : isBlank b = true) :
    tokenizeFrom parseFloat total atLineStart (b :: rest)
      = tokenizeFrom parseFloat total atLineStart rest := by
  have hall : [b].all isBlank = true := by simpa using hb
  have hskip : skipLayout atLineStart (b :: rest) = skipLayout atLineStart rest :=
    skipLayout_congr (skipBlanks_append hall)
  rw [tokenizeFrom, tokenizeFrom, hskip]

theorem tokenStart_of_blank {atLineStart : Bool} {b : UInt8} {source rest : List UInt8}
    (hb : isBlank b = true) (h : TokenStart parseFloat atLineStart (b :: source) rest) :
    TokenStart parseFloat atLineStart source rest := by
  have hall : [b].all isBlank = true := by simpa using hb
  have hskip : skipLayout atLineStart (b :: source) = skipLayout atLineStart source :=
    skipLayout_congr (skipBlanks_append hall)
  generalize hsource : b :: source = whole at h hskip
  cases h with
  | here hlayout =>
    rw [skipLayout_of_layout hlayout] at hskip
    obtain ⟨gap, rfl, hlayout⟩ := skipLayout_eq_iff.mp hskip.symm
    exact .here hlayout
  | later hlayout hspells hkind hlater =>
    rw [skipLayout_of_layout hlayout] at hskip
    obtain ⟨gap, rfl, hlayout⟩ := skipLayout_eq_iff.mp hskip.symm
    exact .later hlayout hspells hkind hlater

/-- A longer source before the same rest moves the spans. -/
theorem tokenizeFrom_shift {atLineStart : Bool} {source : List UInt8} (htotal : source.length ≤ total) :
    (tokenizeFrom parseFloat (total + 1) atLineStart source).1 =
      (tokenizeFrom parseFloat total atLineStart source).1.map Token.shift := by
  induction hlength : source.length using Nat.strong_induction_on
    generalizing source atLineStart with
  | _ length ih =>
    rcases tokenizeFrom_cases parseFloat atLineStart source with
      ⟨gap, kind, text, next, rfl, hlayout, hspells, hkind⟩ | ⟨gap, rest, rfl, hlayout, -, htokens⟩
    · have hne := List.length_pos_iff.mpr (hspells.ne_nil hkind)
      have hle := afterToken_length_le kind next
      simp only [List.length_append] at htotal hlength
      rw [tokenizeFrom_of_spells hlayout hspells hkind, tokenizeFrom_of_spells hlayout hspells hkind,
        ih _ (by omega) (by omega) rfl, List.map_cons]
      unfold Token.shift
      simp only [List.length_append]
      congr 3 <;> omega
    · simp only [List.length_append] at htotal
      rw [htokens, htokens, List.map_singleton]
      unfold Token.shift
      dsimp only
      congr 3 <;> omega

theorem append_singleton_eq {α : Type} {front before back : List α} {last x y : α}
    (h : front ++ [last] = before ++ x :: y :: back) : front = before ++ [x] ++ (y :: back).dropLast := by
  have hback : y :: back = (y :: back).dropLast ++ [(y :: back).getLast (List.cons_ne_nil y back)] :=
    (List.dropLast_concat_getLast (List.cons_ne_nil y back)).symm
  have hsplit : before ++ x :: y :: back = before ++ [x] ++ (y :: back).dropLast
      ++ [(y :: back).getLast (List.cons_ne_nil y back)] := by
    rw [List.append_assoc, ← hback, List.append_assoc, List.singleton_append]
  rw [hsplit] at h
  exact (List.append_inj' h rfl).1

theorem blank_of_accountsFor {source : List UInt8}
    (hquestion : NoQuestionMark parseFloat true source) {front back : List Token} {token next : Token}
    (htokens : (tokenizeTolerant parseFloat source).1 = front ++ token :: next :: back) {b : UInt8}
    (hb : isBlank b = true) (hsignificant : ¬Significant parseFloat source token.span.stop b) :
    (tokenizeTolerant parseFloat (insertAt source token.span.stop b)).1 =
      front ++ token :: (next :: back).map Token.shift := by
  have haccounts : AccountsFor parseFloat true 0 source (tokenizeTolerant parseFloat source).1 :=
    accountsFor_tokenizeFrom hquestion (Nat.zero_add _).symm
  obtain ⟨all, read, gap, rest, hsource, hreads, hlayout, hall⟩ := haccounts
  rw [htokens] at hall
  rw [append_singleton_eq hall.symm] at hreads
  obtain ⟨before, after, rfl, hbefore, -⟩ := hreads.split
  generalize hafter : after ++ (gap ++ rest) = after' at hbefore
  have hsource : source = before ++ after' := by
    rw [hsource, ← hafter, List.append_assoc]
  have hstop : token.span.stop = before.length := by
    have hlast := hbefore.last
    omega
  have hdrop : source.drop token.span.stop = after' := by rw [hsource, hstop, List.drop_left]
  have hinsert : insertAt source token.span.stop b = before ++ b :: after' := by
    unfold insertAt
    rw [hdrop, hsource, hstop, List.take_left]
  have hliteral : ∀ kind text more, kind.isLiteral = true →
      TokenStart parseFloat true (before ++ after') (text ++ (more ++ after')) →
      Spells parseFloat kind text (more ++ after') → Spells parseFloat kind text (more ++ b :: after') := by
    intro kind text more hkind hstart hspells
    by_contra hnot
    refine hsignificant ⟨kind, text, more, hkind, ?_⟩
    rw [hdrop, hsource]
    exact ⟨hstart, hspells, hnot⟩
  rw [hsource] at hquestion htokens
  obtain ⟨hbefore', hquestion'⟩ := hbefore.insert hb hliteral hquestion
  have hempty : (true && (front ++ [token]).isEmpty) = false := by simp
  rw [hempty] at hquestion'
  -- The tokens before the blank are read as before, and those behind it a byte later.
  obtain ⟨hold, hrest⟩ := tokenizeFrom_reads hbefore hquestion (Nat.zero_add _).symm
  rw [hempty] at hold hrest
  have hblank : NoQuestionMark parseFloat false (b :: after') :=
    fun name rest hstart => hrest name rest (tokenStart_of_blank hb hstart)
  obtain ⟨hnew, -⟩ := tokenizeFrom_reads hbefore' (hquestion' hblank) (Nat.zero_add _).symm
  rw [hempty] at hnew
  rw [hinsert]
  have hback : next :: back = (tokenizeFrom parseFloat (before ++ after').length false after').1 := by
    unfold tokenizeTolerant at htokens
    rw [htokens, ← List.singleton_append, ← List.append_assoc] at hold
    exact List.append_cancel_left hold
  have hlength : (before ++ b :: after').length = (before ++ after').length + 1 := by
    simp only [List.length_append, List.length_cons]
    omega
  have hle : after'.length ≤ (before ++ after').length := by simp
  unfold tokenizeTolerant
  rw [hnew, tokenizeFrom_blank hb, hlength, tokenizeFrom_shift hle, ← hback, List.append_assoc,
    List.singleton_append]

/-- A question mark behind a name is all that the lexer does not account for: every other source text
is its tokens and the layout between them. -/
theorem accounts_iff (parseFloat : List UInt8 → Option UInt64) (source : List UInt8) :
    Accounts parseFloat source ↔ NoQuestionMark parseFloat true source := by
  constructor
  · intro h
    exact noQuestionMark_of_accountsFor h.reads (Nat.zero_add _).symm
  · intro h
    refine ⟨accountsFor_tokenizeFrom h (Nat.zero_add _).symm, ?_⟩
    intro front token next back htokens b hb hsignificant
    exact blank_of_accountsFor h htokens hb hsignificant

/-- The span of the name takes the question mark of a conditional along. -/
theorem not_accounts_conditional : ¬Accounts (fun _ => none) (bytes "x?1:2") := by
  intro h
  have hnone := noQuestionMark_of_accountsFor h.reads (Nat.zero_add _).symm
  have hsource : bytes "x?1:2" = bytes "x" ++ bytes "?1:2" := by decide
  have hends : LayoutEnds true (bytes "x" ++ bytes "?1:2") := by
    refine ⟨by decide, fun tail htail => ?_, fun _ => by decide⟩
    have hhead := congrArg List.head? htail
    rw [List.head?_cons] at hhead
    exact absurd hhead (by decide)
  have hname : Name (bytes "x") (bytes "?1:2") :=
    ⟨by decide, [], 'x'.toUInt8, [], by decide, by decide, by decide, .inl ⟨rfl, by decide⟩⟩
  rw [hsource] at hnone
  exact hnone _ _ (.here (.done hends)) hname (by decide) (by decide)

end Oxvim.Eval.Lexer
