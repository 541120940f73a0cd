import Oxvim.Eval.LexerNumbers
import Oxvim.Eval.LexerStrings
import Oxvim.Eval.LexerWords

/-!
# One token

What `nextKind` reads is the spelling of a token, but for the question mark behind a name.
-/

namespace Oxvim.Eval.Lexer

open Lib Lib.Greedy Lib.EState

variable {parseFloat : List UInt8 → Option UInt64} {total : Nat}

/-! ## Sigils -/

theorem takeWhile_ne_nil {name rest : List UInt8} (hname : name.all isNameContinue = true)
    (hstop : Stops isNameContinue rest) :
    (name ++ rest).takeWhile isNameContinue = name ∧
      (name ++ rest).dropWhile isNameContinue = rest :=
  ⟨takeWhile_append hname hstop, dropWhile_append hname hstop⟩

theorem lexEnvironment_ok_iff {tail after : List UInt8} {kind : TokenKind} :
    lexEnvironment total ('$'.toUInt8 :: tail) = .ok (kind, after) ↔
      ∃ name, tail = name ++ after ∧ name ≠ [] ∧ name.all isNameContinue ∧
        Stops isNameContinue after ∧ kind = .environment name := by
  unfold lexEnvironment
  simp only [List.drop_succ_cons, List.drop_zero]
  constructor
  · intro h
    split_ifs at h with hname
    cases h
    exact ⟨_, List.takeWhile_append_dropWhile.symm, hname, all_takeWhile tail,
      stops_dropWhile tail, rfl⟩
  · rintro ⟨name, rfl, hne, hname, hstop, rfl⟩
    obtain ⟨htake, hdrop⟩ := takeWhile_ne_nil hname hstop
    rw [htake, hdrop, if_neg hne]

/-- What follows the scope of an option. -/
theorem lexOption_ok_iff {tail after : List UInt8} {kind : TokenKind} :
    lexOption total ('&'.toUInt8 :: tail) = .ok (kind, after) ↔
      ∃ name, name ≠ [] ∧ name.all isNameContinue ∧ Stops isNameContinue after ∧
        ((tail = name ++ after ∧ kind = .option none name ∧
            ¬(name ∈ [bytes "g", bytes "l"] ∧ after.head? = some ':'.toUInt8)) ∨
          ∃ scope ∈ bytes "gl", tail = scope :: ':'.toUInt8 :: (name ++ after) ∧
            kind = .option (some scope) name) := by
  have hmem : ∀ b : UInt8, b ∈ bytes "gl" ↔ b = 'g'.toUInt8 ∨ b = 'l'.toUInt8 := by
    simp [bytes]
  unfold lexOption
  simp only [List.drop_succ_cons, List.drop_zero]
  by_cases hscope : (tail.head? = some 'g'.toUInt8 ∨ tail.head? = some 'l'.toUInt8) ∧
      tail[1]? = some ':'.toUInt8
  · -- The scope is taken, and the name is what follows the colon.
    obtain ⟨scope, more, rfl, hletter⟩ : ∃ scope more, tail = scope :: ':'.toUInt8 :: more ∧
        scope ∈ bytes "gl" := by
      obtain ⟨hhead, hcolon⟩ := hscope
      cases tail with
      | nil => simp at hcolon
      | cons scope more =>
        cases more with
        | nil => simp at hcolon
        | cons colon more =>
          have hcolon : colon = ':'.toUInt8 := by simpa using hcolon
          subst hcolon
          exact ⟨scope, more, rfl, (hmem scope).mpr (by simpa using hhead)⟩
    simp only [if_pos hscope]
    simp only [List.head?_cons, Option.isSome_some, if_true, List.drop_succ_cons, List.drop_zero]
    constructor
    · intro h
      split_ifs at h with hname
      cases h
      refine ⟨_, hname, all_takeWhile more, stops_dropWhile more, .inr ⟨scope, hletter, ?_, rfl⟩⟩
      rw [List.takeWhile_append_dropWhile]
    · rintro ⟨name, hne, hname, hstop, ⟨htail, -, hplain⟩ | ⟨other, -, htail, rfl⟩⟩
      · -- A name that is only the scope letter would be followed by the colon.
        exfalso
        have hcolon : isNameContinue ':'.toUInt8 = false := by decide
        cases name with
        | nil => exact hne rfl
        | cons first name =>
          rw [List.cons_append, List.cons.injEq] at htail
          obtain ⟨rfl, htail⟩ := htail
          cases name with
          | nil =>
            refine hplain ⟨?_, ?_⟩
            · rcases (hmem scope).mp hletter with rfl | rfl
              · simp +decide
              · simp +decide
            · rw [← List.nil_append after, ← htail]
              rfl
          | cons second name =>
            rw [List.cons_append, List.cons.injEq] at htail
            rw [← htail.1] at hname
            simp [hcolon] at hname
      · rw [List.cons.injEq, List.cons.injEq] at htail
        obtain ⟨rfl, -, rfl⟩ := htail
        obtain ⟨htake, hdrop⟩ := takeWhile_ne_nil hname hstop
        rw [htake, hdrop, if_neg hne]
  · simp only [if_neg hscope, Option.isSome_none, Bool.false_eq_true, if_false]
    constructor
    · intro h
      split_ifs at h with hname
      cases h
      refine ⟨_, hname, all_takeWhile tail, stops_dropWhile tail,
        .inl ⟨List.takeWhile_append_dropWhile.symm, rfl, ?_⟩⟩
      rintro ⟨hletter, hcolon⟩
      refine hscope ?_
      obtain ⟨more, hmore⟩ := List.head?_eq_some_iff.mp hcolon
      have hsplit : tail = tail.takeWhile isNameContinue ++ ':'.toUInt8 :: more := by
        rw [← hmore, List.takeWhile_append_dropWhile]
      have hg : bytes "g" = ['g'.toUInt8] := by decide
      have hl : bytes "l" = ['l'.toUInt8] := by decide
      rw [List.mem_cons, List.mem_singleton, hg, hl] at hletter
      rcases hletter with hletter | hletter
      · rw [hletter] at hsplit
        rw [hsplit]
        simp
      · rw [hletter] at hsplit
        rw [hsplit]
        simp
    · rintro ⟨name, hne, hname, hstop, ⟨rfl, rfl, -⟩ | ⟨scope, hletter, rfl, -⟩⟩
      · obtain ⟨htake, hdrop⟩ := takeWhile_ne_nil hname hstop
        rw [htake, hdrop, if_neg hne]
      · refine absurd ⟨?_, rfl⟩ hscope
        simpa using (hmem scope).mp hletter

theorem lexRegister_ok_iff {tail after : List UInt8} {kind : TokenKind} :
    lexRegister total ('@'.toUInt8 :: tail) = .ok (kind, after) ↔
      ∃ name, tail = name :: after ∧ kind = .register name := by
  unfold lexRegister
  cases tail with
  | nil => simp
  | cons name tail =>
    simp only [List.drop_succ_cons, List.drop_zero, Except.ok.injEq, Prod.mk.injEq, List.cons.injEq]
    constructor
    · rintro ⟨rfl, rfl⟩
      exact ⟨name, ⟨rfl, rfl⟩, rfl⟩
    · rintro ⟨name, ⟨rfl, rfl⟩, rfl⟩
      exact ⟨rfl, rfl⟩

/-! ## The token at hand -/

def TokenKind.isIdentifier : TokenKind → Bool
  | .identifier _ => true
  | _ => false

theorem afterToken_of_not {kind : TokenKind} (h : kind.isIdentifier = false) (rest : List UInt8) :
    afterToken kind rest = rest := by
  cases kind with
  | identifier name => cases h
  | _ => rfl

theorem SpellsNumber.isIdentifier {kind : TokenKind} {text rest : List UInt8}
    (h : SpellsNumber parseFloat kind text rest) : kind.isIdentifier = false := by
  cases h <;> rfl

theorem operator_isIdentifier {operator : Operator} (h : operator ∈ operators)
    (case : CaseSensitivity) : (operator.kind case).isIdentifier = false := by
  have hall : ∀ operator ∈ operators, (operator.kind .default).isIdentifier = false ∧
      (operator.kind .matchCase).isIdentifier = false ∧
      (operator.kind .ignoreCase).isIdentifier = false := by decide +kernel
  obtain ⟨hdefault, hmatch, hignore⟩ := hall operator h
  cases case with
  | default => exact hdefault
  | matchCase => exact hmatch
  | ignoreCase => exact hignore

/-- The bytes whose tokens are neither operators nor names. -/
def sigils : List UInt8 := bytes "\n0123456789'\"$&@"

theorem operator_head {operator : Operator} (h : operator ∈ operators) :
    ∃ byte tail, operator.spelling = byte :: tail ∧ byte ∉ sigils ∧ isNameStart byte = false := by
  have hall : ∀ operator ∈ operators, operator.spelling ≠ [] ∧
      ∀ byte ∈ operator.spelling.head?, byte ∉ sigils ∧ isNameStart byte = false := by
    decide +kernel
  obtain ⟨hne, hhead⟩ := hall operator h
  obtain ⟨byte, tail, hspelling⟩ := List.exists_cons_of_ne_nil hne
  rw [hspelling] at hhead
  exact ⟨byte, tail, hspelling, hhead byte rfl⟩

theorem not_sigil_of_nameStart : ∀ byte : UInt8, isNameStart byte → byte ∉ sigils := by
  have hsmall : ∀ byte ∈ sigils, byte ≤ 64 := by simp [sigils, bytes, Char.toUInt8]
  intro byte h hmem
  have hle := hsmall byte hmem
  simp [isNameStart, isAlphabetic, isUpper, isLower, Char.toUInt8] at h
  grind

theorem mem_sigils_of_digit : ∀ byte : UInt8, isDigit byte → byte ∈ sigils := by
  intro byte h
  simp [isDigit, sigils, bytes, Char.toUInt8] at h ⊢
  grind

/-- Away from the sigils an operator is tried, then a name. -/
theorem nextKind_of_not_sigil {byte : UInt8} {tail : List UInt8} (h : byte ∉ sigils) :
    (∀ found, lexOperator (byte :: tail) = some found →
      nextKind parseFloat total (byte :: tail) = .ok found) ∧
    (lexOperator (byte :: tail) = none → isNameStart byte = true →
      nextKind parseFloat total (byte :: tail) = .ok (lexIdentifier (byte :: tail))) := by
  have hdigit : isDigit byte = false := by
    rw [Bool.eq_false_iff]
    exact fun hdigit => h (mem_sigils_of_digit byte hdigit)
  have hne : ∀ sigil ∈ sigils, byte ≠ sigil := fun sigil hsigil heq => h (heq ▸ hsigil)
  have hnewline := hne '\n'.toUInt8 (by decide)
  have hzero := hne '0'.toUInt8 (by decide)
  have hsingle := hne '\''.toUInt8 (by decide)
  have hdouble := hne '"'.toUInt8 (by decide)
  have hdollar := hne '$'.toUInt8 (by decide)
  have hand := hne '&'.toUInt8 (by decide)
  have hat := hne '@'.toUInt8 (by decide)
  constructor
  · intro found hfound
    simp only [nextKind, hnewline, hzero, hdigit, hsingle, hdouble, hdollar, hand, hat, hfound,
      false_and, if_false, Bool.false_eq_true]
  · intro hnone hname
    simp only [nextKind, hnewline, hzero, hdigit, hsingle, hdouble, hdollar, hand, hat, hnone, hname,
      false_and, if_false, if_true, Bool.false_eq_true]

theorem lexOperator_nameStart {byte : UInt8} {tail : List UInt8} (h : isNameStart byte = true) :
    lexOperator (byte :: tail) = none := by
  unfold lexOperator
  rw [Option.map_eq_none_iff, List.find?_eq_none]
  intro operator hmem hlead
  obtain ⟨first, more, hspelling, -, hstart⟩ := operator_head hmem
  rw [hspelling, List.isPrefixOf_cons₂, Bool.and_eq_true, beq_iff_eq] at hlead
  rw [hlead.1, h] at hstart
  cases hstart

theorem spells_of_nextKind {rest after : List UInt8} {kind : TokenKind}
    (h : nextKind parseFloat total rest = .ok (kind, after)) :
    ∃ text next, rest = text ++ next ∧ Spells parseFloat kind text next ∧
      after = afterToken kind next := by
  cases rest with
  | nil =>
    cases h
    exact ⟨[], [], rfl, .eof (by simp), rfl⟩
  | cons byte tail =>
    rw [nextKind] at h
    by_cases hnewline : byte = '\n'.toUInt8
    · subst hnewline
      cases h
      exact ⟨[], _, rfl, .eof (by simp), rfl⟩
    rw [if_neg hnewline] at h
    by_cases hblob : byte = '0'.toUInt8 ∧
        (tail.head? = some 'z'.toUInt8 ∨ tail.head? = some 'Z'.toUInt8)
    · rw [if_pos hblob] at h
      obtain ⟨rfl, hmark⟩ := hblob
      obtain ⟨mark, more, rfl, hletter⟩ : ∃ mark more, tail = mark :: more ∧ mark ∈ bytes "zZ" := by
        rcases hmark with hmark | hmark
        · obtain ⟨more, rfl⟩ := List.head?_eq_some_iff.mp hmark
          exact ⟨_, more, rfl, by decide⟩
        · obtain ⟨more, rfl⟩ := List.head?_eq_some_iff.mp hmark
          exact ⟨_, more, rfl, by decide⟩
      obtain ⟨digits, body, rfl, hbody, heven, hstop, hcontinues, rfl⟩ := lexBlob_ok_iff.mp h
      exact ⟨_, after, rfl, .blob hletter hbody heven hstop hcontinues, rfl⟩
    rw [if_neg hblob] at h
    by_cases hdigit : isDigit byte = true
    · rw [if_pos hdigit] at h
      rw [List.head?_eq_getElem?] at hblob
      obtain ⟨text, hrest, hnumber⟩ :=
        (lexNumber_ok_iff (by simpa using hdigit) (by simpa using hblob)).mp h
      exact ⟨text, after, hrest, .number hnumber, (afterToken_of_not hnumber.isIdentifier _).symm⟩
    rw [if_neg hdigit] at h
    by_cases hsingle : byte = '\''.toUInt8
    · subst hsingle
      rw [if_pos rfl] at h
      obtain ⟨found, hfound, heq⟩ := except_map_eq_ok.mp h
      obtain ⟨value, rest⟩ := found
      cases heq
      obtain ⟨text, rfl, hbody, hafter⟩ := lexSingleBody_ok_iff.mp hfound
      exact ⟨'\''.toUInt8 :: (text ++ ['\''.toUInt8]), rest, by simp, .singleString hbody hafter, rfl⟩
    rw [if_neg hsingle] at h
    by_cases hdouble : byte = '"'.toUInt8
    · subst hdouble
      rw [if_pos rfl] at h
      obtain ⟨found, hfound, heq⟩ := except_map_eq_ok.mp h
      obtain ⟨value, rest⟩ := found
      cases heq
      obtain ⟨pieces, text, rfl, hbody, hvalue⟩ := lexDoubleBody_ok_iff.mp hfound
      have hvalue : value = piecesValue pieces := hvalue
      subst hvalue
      exact ⟨'"'.toUInt8 :: (text ++ ['"'.toUInt8]), rest, by simp, .doubleString hbody, rfl⟩
    rw [if_neg hdouble] at h
    by_cases hinterpolated : byte = '$'.toUInt8 ∧
        (tail.head? = some '\''.toUInt8 ∨ tail.head? = some '"'.toUInt8)
    · rw [if_pos hinterpolated] at h
      obtain ⟨rfl, hquote⟩ := hinterpolated
      obtain ⟨quote, more, rfl, hkind⟩ : ∃ quote more, tail = quote :: more ∧
          (quote = '\''.toUInt8 ∨ quote = '"'.toUInt8) := by
        rcases hquote with hquote | hquote
        · obtain ⟨more, rfl⟩ := List.head?_eq_some_iff.mp hquote
          exact ⟨_, more, rfl, .inl rfl⟩
        · obtain ⟨more, rfl⟩ := List.head?_eq_some_iff.mp hquote
          exact ⟨_, more, rfl, .inr rfl⟩
      obtain ⟨found, hfound, heq⟩ := except_map_eq_ok.mp h
      obtain ⟨parts, rest⟩ := found
      cases heq
      obtain ⟨read, text, htail, hbody, hafter, rfl⟩ := interpolated_of_lex hfound
      have htail : more = text ++ quote :: rest := htail
      subst htail
      exact ⟨'$'.toUInt8 :: quote :: (text ++ [quote]), rest, by simp,
        .interpolated hkind hbody hafter, rfl⟩
    rw [if_neg hinterpolated] at h
    by_cases hdollar : byte = '$'.toUInt8
    · subst hdollar
      rw [if_pos rfl] at h
      obtain ⟨name, rfl, hne, hname, hstop, rfl⟩ := lexEnvironment_ok_iff.mp h
      exact ⟨_, after, rfl, .environment hne hname hstop, rfl⟩
    rw [if_neg hdollar] at h
    by_cases handAnd : byte = '&'.toUInt8 ∧ tail.head? = some '&'.toUInt8
    · rw [if_pos handAnd] at h
      obtain ⟨rfl, hhead⟩ := handAnd
      obtain ⟨more, rfl⟩ := List.head?_eq_some_iff.mp hhead
      cases h
      exact ⟨bytes "&&", more, rfl, .andAnd, rfl⟩
    rw [if_neg handAnd] at h
    by_cases hand : byte = '&'.toUInt8
    · subst hand
      rw [if_pos rfl] at h
      obtain ⟨name, hne, hname, hstop, ⟨rfl, rfl, hplain⟩ | ⟨scope, hscope, rfl, rfl⟩⟩ :=
        lexOption_ok_iff.mp h
      · exact ⟨_, after, rfl, .option hne hname hstop hplain, rfl⟩
      · exact ⟨_, after, rfl, .scopedOption hscope hne hname hstop, rfl⟩
    rw [if_neg hand] at h
    by_cases hat : byte = '@'.toUInt8
    · subst hat
      rw [if_pos rfl] at h
      obtain ⟨name, rfl, rfl⟩ := lexRegister_ok_iff.mp h
      exact ⟨_, after, rfl, .register, rfl⟩
    rw [if_neg hat] at h
    -- No sigil: an operator, or else a name.
    split at h
    · rename_i found hfound
      cases h
      obtain ⟨operator, hmem, case, suffix, hrest, hlongest, hsuffix, rfl⟩ :=
        lexOperator_eq_some_iff.mp hfound
      refine ⟨operator.spelling ++ suffix, after, hrest, .operator hmem ?_ hsuffix,
        (afterToken_of_not (operator_isIdentifier hmem case) _).symm⟩
      rw [← hrest]
      exact hlongest
    · split_ifs at h with hname
      have heq := Except.ok.inj h
      obtain ⟨text, next, hrest, hword, hafter⟩ :=
        (lexIdentifier_eq_iff (by simpa using hname)).mp heq
      refine ⟨text, next, hrest, ?_, hafter⟩
      rcases hword with ⟨word, hword, case, suffix, hsuffix, rfl, rfl⟩ | ⟨hname, hreserved, rfl⟩
      · exact .comparison hword hsuffix
      · exact .identifier hname hreserved

theorem mem_zZ {b : UInt8} : b ∈ bytes "zZ" ↔ b = 'z'.toUInt8 ∨ b = 'Z'.toUInt8 := by
  have hbytes : bytes "zZ" = ['z'.toUInt8, 'Z'.toUInt8] := by decide
  simp [hbytes]

/-- The head of a number, which is no blob. -/
theorem number_head {text next : List UInt8} {kind : TokenKind}
    (h : SpellsNumber parseFloat kind text next) :
    (text ++ next).head?.any isDigit = true ∧
      ¬((text ++ next).head? = some '0'.toUInt8 ∧
        ((text ++ next)[1]? = some 'z'.toUInt8 ∨ (text ++ next)[1]? = some 'Z'.toUInt8)) := by
  have hdigit : ∀ b : UInt8, isDigit b → b ≠ 'z'.toUInt8 ∧ b ≠ 'Z'.toUInt8 := by
    intro b h
    simp [isDigit, Char.toUInt8] at h ⊢
    grind
  have hbase : ∀ b : UInt8, (markBase b).isSome → b ≠ 'z'.toUInt8 ∧ b ≠ 'Z'.toUInt8 := by
    intro b h
    simp [markBase, bytes, Char.toUInt8] at h ⊢
    grind
  cases h with
  | plain hdigits hstop hfloat hlead hbound =>
    refine ⟨hdigits.head next, ?_⟩
    rintro ⟨hzero, hmark⟩
    obtain ⟨hne, hall⟩ := hdigits
    obtain ⟨first, more, rfl⟩ := List.exists_cons_of_ne_nil hne
    cases more with
    | nil =>
      -- A lone zero is followed by the mark of the blob.
      have hzero : first = '0'.toUInt8 := by simpa using hzero
      subst hzero
      refine hlead ⟨by decide, ?_⟩
      rw [List.cons_append, List.nil_append, List.getElem?_cons_succ] at hmark
      cases next with
      | nil => simp at hmark
      | cons mark next =>
        have hmark : mark = 'z'.toUInt8 ∨ mark = 'Z'.toUInt8 := by simpa using hmark
        refine ⟨mark, rfl, ?_⟩
        rcases hmark with rfl | rfl
        · decide
        · decide
    | cons second more =>
      have hsecond : isDigit second := by simpa using (List.all_eq_true.mp hall) second (by simp)
      obtain ⟨hz, hZ⟩ := hdigit second hsecond
      simp [hz, hZ] at hmark
  | based hmark _ _ _ _ =>
    obtain ⟨hz, hZ⟩ := hbase _ (by rw [hmark]; rfl)
    simp +decide [hz, hZ]
  | float hdigits hfollows _ =>
    obtain ⟨⟨fraction, exponent, rfl, -, -⟩, -, -⟩ := hfollows
    rw [List.append_assoc]
    refine ⟨hdigits.head _, ?_⟩
    rintro ⟨-, hmark⟩
    obtain ⟨hne, hall⟩ := hdigits
    obtain ⟨first, more, rfl⟩ := List.exists_cons_of_ne_nil hne
    cases more with
    | nil => simp +decide at hmark
    | cons second more =>
      have hsecond : isDigit second := by simpa using (List.all_eq_true.mp hall) second (by simp)
      obtain ⟨hz, hZ⟩ := hdigit second hsecond
      simp [hz, hZ] at hmark

theorem nextKind_number {text next : List UInt8} {kind : TokenKind}
    (h : SpellsNumber parseFloat kind text next) :
    nextKind parseFloat total (text ++ next) = .ok (kind, next) := by
  obtain ⟨hdigit, hblob⟩ := number_head h
  have hread : lexNumber parseFloat total (text ++ next) = .ok (kind, next) :=
    (lexNumber_ok_iff hdigit hblob).mpr ⟨text, rfl, h⟩
  generalize text ++ next = rest at hdigit hblob hread
  cases rest with
  | nil => cases hdigit
  | cons byte tail =>
    have hdigit : isDigit byte = true := by simpa using hdigit
    have hnewline : byte ≠ '\n'.toUInt8 := by
      rintro rfl
      exact absurd hdigit (by decide)
    have hblob : ¬(byte = '0'.toUInt8 ∧
        (tail.head? = some 'z'.toUInt8 ∨ tail.head? = some 'Z'.toUInt8)) := by
      rw [List.head?_eq_getElem?]
      simpa using hblob
    rw [nextKind, if_neg hnewline, if_neg hblob, if_pos hdigit]
    exact hread

theorem nextKind_operator {operator : Operator} {case : CaseSensitivity} {suffix next : List UInt8}
    (hmem : operator ∈ operators)
    (hlongest : ∀ other ∈ operators, other.spelling <+: operator.spelling ++ suffix ++ next →
      other.spelling.length ≤ operator.spelling.length)
    (hsuffix : if operator.suffixed then Suffix case suffix next else case = .default ∧ suffix = []) :
    nextKind parseFloat total (operator.spelling ++ suffix ++ next)
      = .ok (operator.kind case, next) := by
  have hread : lexOperator (operator.spelling ++ suffix ++ next) = some (operator.kind case, next) :=
    lexOperator_eq_some_iff.mpr ⟨operator, hmem, case, suffix, rfl, hlongest, hsuffix, rfl⟩
  obtain ⟨byte, tail, hspelling, hsigil, -⟩ := operator_head hmem
  rw [hspelling] at hread ⊢
  exact (nextKind_of_not_sigil hsigil).1 _ hread

theorem nextKind_word {text next : List UInt8} {kind : TokenKind} (h : SpellsWord kind text next) :
    nextKind parseFloat total (text ++ next) = .ok (kind, afterToken kind next) := by
  obtain ⟨byte, tail, rfl, hstart⟩ : ∃ byte tail, text = byte :: tail ∧ isNameStart byte = true := by
    rcases h with ⟨word, hword, case, suffix, -, rfl, rfl⟩ | ⟨hname, -, rfl⟩
    · simp only [comparisonWords, List.mem_cons, List.not_mem_nil, or_false] at hword
      rcases hword with rfl | rfl
      · exact ⟨_, _, rfl, by decide⟩
      · exact ⟨_, _, rfl, by decide⟩
    · obtain ⟨-, scope, first, more, rfl, hfirst, -, hscope⟩ := hname
      rcases hscope with ⟨rfl, -⟩ | ⟨letter, hletter, rfl⟩
      · exact ⟨first, more, rfl, hfirst⟩
      · exact ⟨letter, _, rfl, (mem_scopes letter hletter).1⟩
  have hread : nextKind parseFloat total (byte :: (tail ++ next))
      = .ok (lexIdentifier (byte :: (tail ++ next))) :=
    (nextKind_of_not_sigil (not_sigil_of_nameStart byte hstart)).2 (lexOperator_nameStart hstart)
      hstart
  rw [← List.cons_append, lexIdentifier_of_spells h] at hread
  exact hread

theorem nextKind_option {tail : List UInt8} (h : tail.head? ≠ some '&'.toUInt8) :
    nextKind parseFloat total ('&'.toUInt8 :: tail) = lexOption total ('&'.toUInt8 :: tail) := by
  rw [nextKind, if_neg (by decide), if_neg (by simp +decide), if_neg (by decide),
    if_neg (by decide), if_neg (by decide), if_neg (by simp +decide), if_neg (by decide),
    if_neg (by simpa using h), if_pos rfl]

theorem nextKind_of_spells {text next : List UInt8} {kind : TokenKind}
    (h : Spells parseFloat kind text next) :
    nextKind parseFloat total (text ++ next) = .ok (kind, afterToken kind next) := by
  cases h with
  | eof hhead =>
    cases next with
    | nil => rfl
    | cons byte next =>
      obtain rfl : byte = '\n'.toUInt8 := hhead byte rfl
      rfl
  | number hnumber =>
    rw [afterToken_of_not hnumber.isIdentifier]
    exact nextKind_number hnumber
  | @blob mark digits body _ hmark hbody heven hstop hcontinues =>
    have hread : lexBlob total ('0'.toUInt8 :: mark :: (body ++ next))
        = .ok (.blob (blobBytes digits), next) :=
      lexBlob_ok_iff.mpr ⟨digits, body, rfl, hbody, heven, hstop, hcontinues, rfl⟩
    have hblob : mark = 'z'.toUInt8 ∨ mark = 'Z'.toUInt8 := mem_zZ.mp hmark
    rw [List.cons_append, List.cons_append, nextKind, if_neg (by decide), if_pos]
    · exact hread
    · simpa using hblob
  | @singleString value text _ hbody hhead =>
    have hread : ∀ start, lexSingleBody start (text ++ '\''.toUInt8 :: next) = .ok (value, next) :=
      fun start => lexSingleBody_ok_iff.mpr ⟨text, rfl, hbody, hhead⟩
    have htext : '\''.toUInt8 :: (text ++ ['\''.toUInt8]) ++ next
        = '\''.toUInt8 :: (text ++ '\''.toUInt8 :: next) := by simp
    rw [htext, nextKind, if_neg (by decide), if_neg (by simp +decide), if_neg (by decide), if_pos rfl,
      hread]
    rfl
  | @doubleString pieces text _ hbody =>
    have hread : ∀ start, lexDoubleBody total start false [] (text ++ '"'.toUInt8 :: next)
        = .ok (piecesValue pieces, next) :=
      fun start => lexDoubleBody_ok_iff.mpr ⟨pieces, text, rfl, hbody, rfl⟩
    have htext : '"'.toUInt8 :: (text ++ ['"'.toUInt8]) ++ next
        = '"'.toUInt8 :: (text ++ '"'.toUInt8 :: next) := by simp
    rw [htext, nextKind, if_neg (by decide), if_neg (by simp +decide), if_neg (by decide),
      if_neg (by decide), if_pos rfl, hread]
    rfl
  | @interpolated quote parts text _ hquote hbody hhead =>
    have hread : ∀ start, lexInterpolatedBody total start quote [] [] (text ++ quote :: next)
        = .ok ([] ++ joinParts [] parts, next) :=
      fun start => lex_of_interpolated hquote hhead hbody
    have htext : '$'.toUInt8 :: quote :: (text ++ [quote]) ++ next
        = '$'.toUInt8 :: quote :: (text ++ quote :: next) := by simp
    rw [htext, nextKind, if_neg (by decide), if_neg (by simp +decide), if_neg (by decide),
      if_neg (by decide), if_neg (by decide), if_pos (by simpa using hquote)]
    rw [List.head?_cons, Option.getD_some, List.drop_succ_cons, List.drop_zero, hread]
    rfl
  | @environment name _ hne hname hstop =>
    have hread : lexEnvironment total ('$'.toUInt8 :: (name ++ next)) = .ok (.environment name, next) :=
      lexEnvironment_ok_iff.mpr ⟨name, rfl, hne, hname, hstop, rfl⟩
    obtain ⟨first, more, rfl⟩ := List.exists_cons_of_ne_nil hne
    have hfirst : isNameContinue first = true := List.all_eq_true.mp hname first List.mem_cons_self
    have hquote : ¬(first = '\''.toUInt8 ∨ first = '"'.toUInt8) := by
      rintro (rfl | rfl)
      · exact absurd hfirst (by decide)
      · exact absurd hfirst (by decide)
    rw [List.cons_append, nextKind, if_neg (by decide), if_neg (by simp +decide),
      if_neg (by decide), if_neg (by decide), if_neg (by decide), if_neg (by simpa using hquote),
      if_pos rfl]
    exact hread
  | andAnd => rfl
  | @option name _ hne hname hstop hplain =>
    have hread : lexOption total ('&'.toUInt8 :: (name ++ next)) = .ok (.option none name, next) :=
      lexOption_ok_iff.mpr ⟨name, hne, hname, hstop, .inl ⟨rfl, rfl, hplain⟩⟩
    obtain ⟨first, more, rfl⟩ := List.exists_cons_of_ne_nil hne
    have hfirst : isNameContinue first = true := List.all_eq_true.mp hname first List.mem_cons_self
    have hand : first ≠ '&'.toUInt8 := by
      rintro rfl
      exact absurd hfirst (by decide)
    rw [List.cons_append, nextKind_option (by simpa using hand)]
    exact hread
  | @scopedOption scope name _ hscope hne hname hstop =>
    have hread : lexOption total ('&'.toUInt8 :: scope :: ':'.toUInt8 :: (name ++ next))
        = .ok (.option (some scope) name, next) :=
      lexOption_ok_iff.mpr ⟨name, hne, hname, hstop, .inr ⟨scope, hscope, rfl, rfl⟩⟩
    have hand : scope ≠ '&'.toUInt8 := by
      rintro rfl
      exact absurd hscope (by decide)
    rw [List.cons_append, nextKind_option (by simpa using hand)]
    exact hread
  | register => rfl
  | operator hmem hlongest hsuffix =>
    rw [afterToken_of_not (operator_isIdentifier hmem _)]
    exact nextKind_operator hmem hlongest hsuffix
  | comparison hword hsuffix => exact nextKind_word (.inl ⟨_, hword, _, _, hsuffix, rfl, rfl⟩)
  | identifier hname hreserved => exact nextKind_word (.inr ⟨hname, hreserved, rfl⟩)

/-- Reading a token and spelling it are inverse, but for a question mark that a name takes along. -/
theorem nextKind_ok_iff {rest after : List UInt8} {kind : TokenKind} :
    nextKind parseFloat total rest = .ok (kind, after) ↔
      ∃ text next, rest = text ++ next ∧ Spells parseFloat kind text next ∧
        after = afterToken kind next := by
  constructor
  · exact spells_of_nextKind
  · rintro ⟨text, next, rfl, hspells, rfl⟩
    exact nextKind_of_spells hspells

end Oxvim.Eval.Lexer
