import Oxvim.Eval.LexerGrammar

/-!
# Reading names and operators

A name that a question mark follows is not read as it is spelled: the question mark is taken along.
-/

namespace Oxvim.Eval.Lexer

open Lib Lib.Greedy Lib.EState

/-! ## Operators -/

theorem lexCaseSuffix_eq_iff {rest after : List UInt8} {case : CaseSensitivity} :
    lexCaseSuffix rest = (case, after) ↔ ∃ suffix, rest = suffix ++ after ∧ Suffix case suffix after := by
  have hhash : bytes "#" = ['#'.toUInt8] := by decide
  have hquestion : bytes "?" = ['?'.toUInt8] := by decide
  unfold lexCaseSuffix
  constructor
  · intro h
    split_ifs at h with hmatch hignore
    · obtain ⟨tail, rfl⟩ := List.head?_eq_some_iff.mp hmatch
      cases h
      exact ⟨bytes "#", by rw [hhash]; rfl, .matchCase⟩
    · obtain ⟨tail, rfl⟩ := List.head?_eq_some_iff.mp hignore
      cases h
      exact ⟨bytes "?", by rw [hquestion]; rfl, .ignoreCase⟩
    · cases h
      exact ⟨[], rfl, .default hmatch hignore⟩
  · rintro ⟨suffix, rfl, h⟩
    cases h with
    | default hmatch hignore => simp [hmatch, hignore]
    | matchCase => simp [hhash]
    | ignoreCase => simp +decide [hquestion]

/-- No operator begins a later one. -/
theorem operators_sorted :
    operators.Pairwise fun earlier later => ¬earlier.spelling.isPrefixOf later.spelling := by
  decide +kernel

theorem prefix_of_le {a b rest : List UInt8} (ha : a <+: rest) (hb : b <+: rest)
    (hle : a.length ≤ b.length) : a.isPrefixOf b := by
  rw [List.isPrefixOf_iff_prefix]
  exact List.prefix_of_prefix_length_le ha hb hle

/-- The operator found is the longest that fits. -/
theorem find_operator_iff {rest : List UInt8} {operator : Operator} :
    (operators.find? fun operator => operator.spelling.isPrefixOf rest) = some operator ↔
      operator ∈ operators ∧ operator.spelling <+: rest ∧
        ∀ other ∈ operators, other.spelling <+: rest →
          other.spelling.length ≤ operator.spelling.length := by
  have hsorted := operators_sorted
  rw [List.find?_eq_some_iff_append]
  constructor
  · rintro ⟨hfits, earlier, later, heq, hnone⟩
    rw [heq] at hsorted ⊢
    have hfits := List.isPrefixOf_iff_prefix.mp hfits
    refine ⟨by simp, hfits, fun other hother hprefix => ?_⟩
    by_contra hlonger
    rcases List.mem_append.mp hother with hbefore | hafter
    · have hnot := hnone other hbefore
      rw [List.isPrefixOf_iff_prefix.mpr hprefix] at hnot
      cases hnot
    · rcases List.mem_cons.mp hafter with rfl | hafter
      · exact hlonger le_rfl
      · have hpair := (List.pairwise_cons.mp (List.pairwise_append.mp hsorted).2.1).1 other hafter
        exact hpair (prefix_of_le hfits hprefix (by omega))
  · rintro ⟨hmem, hfits, hlongest⟩
    obtain ⟨earlier, later, heq⟩ := List.append_of_mem hmem
    refine ⟨List.isPrefixOf_iff_prefix.mpr hfits, earlier, later, heq, fun other hother => ?_⟩
    rw [Bool.not_eq_true', Bool.eq_false_iff]
    intro hprefix
    have hprefix := List.isPrefixOf_iff_prefix.mp hprefix
    have hle := hlongest other (by rw [heq]; exact List.mem_append_left _ hother) hprefix
    rw [heq] at hsorted
    have hpair := (List.pairwise_append.mp hsorted).2.2 other hother operator List.mem_cons_self
    exact hpair (prefix_of_le hprefix hfits hle)

theorem lexOperator_eq_some_iff {rest after : List UInt8} {kind : TokenKind} :
    lexOperator rest = some (kind, after) ↔
      ∃ operator ∈ operators, ∃ case suffix, rest = operator.spelling ++ suffix ++ after ∧
        (∀ other ∈ operators, other.spelling <+: rest →
          other.spelling.length ≤ operator.spelling.length) ∧
        (if operator.suffixed then Suffix case suffix after else case = .default ∧ suffix = []) ∧
        kind = operator.kind case := by
  unfold lexOperator
  rw [Option.map_eq_some_iff]
  constructor
  · rintro ⟨operator, hfind, heq⟩
    obtain ⟨hmem, hfits, hlongest⟩ := find_operator_iff.mp hfind
    obtain ⟨tail, rfl⟩ := hfits
    refine ⟨operator, hmem, ?_⟩
    dsimp only at heq
    rw [List.drop_left] at heq
    split_ifs at heq with hsuffixed
    · cases heq
      obtain ⟨suffix, htail, hsuffix⟩ := lexCaseSuffix_eq_iff.mp (Prod.eta (lexCaseSuffix tail)).symm
      refine ⟨_, suffix, ?_, hlongest, ?_, rfl⟩
      · rw [List.append_assoc, ← htail]
      · rw [if_pos hsuffixed]
        exact hsuffix
    · cases heq
      refine ⟨.default, [], by rw [List.append_nil], hlongest, ?_, rfl⟩
      rw [if_neg hsuffixed]
      exact ⟨rfl, rfl⟩
  · rintro ⟨operator, hmem, case, suffix, rfl, hlongest, hsuffix, rfl⟩
    rw [List.append_assoc] at hlongest ⊢
    refine ⟨operator, find_operator_iff.mpr ⟨hmem, List.prefix_append _ _, hlongest⟩, ?_⟩
    dsimp only
    rw [List.drop_left]
    split_ifs at hsuffix ⊢ with hsuffixed
    · rw [lexCaseSuffix_eq_iff.mpr ⟨suffix, rfl, hsuffix⟩]
    · obtain ⟨rfl, rfl⟩ := hsuffix
      rfl

/-! ## Names -/

theorem mem_scopes : ∀ b : UInt8, b ∈ bytes "gbwtslav" → isNameStart b ∧ isNameContinue b := by
  intro b h
  have hlower : isLower b = true := by
    simp [isLower, bytes, Char.toUInt8] at h ⊢
    grind
  simp [isNameStart, isNameContinue, isAlphabetic, hlower]

theorem isScoped_iff {rest : List UInt8} : isScoped rest = true ↔
    ∃ letter first tail, rest = letter :: ':'.toUInt8 :: first :: tail ∧
      letter ∈ bytes "gbwtslav" ∧ isNameStart first = true := by
  unfold isScoped
  constructor
  · intro h
    rw [Bool.and_eq_true, Bool.and_eq_true] at h
    obtain ⟨⟨hletter, hcolon⟩, hfirst⟩ := h
    match rest with
    | [] => cases hletter
    | [_] => cases hcolon
    | [_, _] => cases hfirst
    | letter :: colon :: first :: tail =>
      have hcolon : colon = ':'.toUInt8 := by simpa using hcolon
      subst hcolon
      exact ⟨letter, first, tail, rfl, by simpa using hletter, by simpa using hfirst⟩
  · rintro ⟨letter, first, tail, rfl, hletter, hfirst⟩
    simp [hletter, hfirst]

theorem isNameContinue_of_start : ∀ b : UInt8, isNameStart b → isNameContinue b := by
  intro b h
  simp [isNameStart, isNameContinue, Char.toUInt8] at h ⊢
  grind

theorem take_before (text after : List UInt8) :
    (text ++ after).take ((text ++ after).length - after.length) = text := by
  rw [List.length_append, Nat.add_sub_cancel, List.take_left]

/-- What follows the name at the start of `rest`. -/
def afterName (rest : List UInt8) : List UInt8 :=
  (rest.drop (if isScoped rest then 2 else 1)).dropWhile isNameContinue

/-- What `lexIdentifier` takes for a name is one. -/
theorem name_of_lex {rest : List UInt8} (hstart : rest.head?.any isNameStart = true) :
    ∃ text, rest = text ++ afterName rest ∧ Name text (afterName rest) := by
  unfold afterName
  by_cases hscoped : isScoped rest = true
  · obtain ⟨letter, first, tail, rfl, hletter, hfirst⟩ := isScoped_iff.mp hscoped
    have hafter : (List.drop 2 (letter :: ':'.toUInt8 :: first :: tail)).dropWhile isNameContinue
        = tail.dropWhile isNameContinue := by
      simp [isNameContinue_of_start first hfirst]
    rw [if_pos hscoped, hafter]
    refine ⟨letter :: ':'.toUInt8 :: first :: tail.takeWhile isNameContinue, ?_,
      stops_dropWhile tail, [letter, ':'.toUInt8], first, tail.takeWhile isNameContinue, rfl, hfirst,
      all_takeWhile tail, .inr ⟨letter, hletter, rfl⟩⟩
    rw [List.cons_append, List.cons_append, List.cons_append, List.takeWhile_append_dropWhile]
  · rw [if_neg hscoped]
    cases rest with
    | nil => cases hstart
    | cons first tail =>
      have hfirst : isNameStart first := by simpa using hstart
      rw [List.drop_succ_cons, List.drop_zero]
      have hsplit : first :: tail = first :: tail.takeWhile isNameContinue
          ++ tail.dropWhile isNameContinue := by
        rw [List.cons_append, List.takeWhile_append_dropWhile]
      refine ⟨first :: tail.takeWhile isNameContinue, hsplit, stops_dropWhile tail, [], first,
        tail.takeWhile isNameContinue, rfl, hfirst, all_takeWhile tail, .inl ⟨rfl, ?_⟩⟩
      rw [← hsplit]
      simpa using hscoped

theorem afterName_of_name {text rest : List UInt8} (h : Name text rest) :
    afterName (text ++ rest) = rest := by
  obtain ⟨hstop, scope, first, more, rfl, hfirst, hmore, hscope⟩ := h
  unfold afterName
  rcases hscope with ⟨rfl, hplain⟩ | ⟨letter, hletter, rfl⟩
  · rw [if_neg (by rw [hplain]; exact Bool.false_ne_true), List.nil_append, List.cons_append,
      List.drop_succ_cons, List.drop_zero, dropWhile_append hmore hstop]
  · have hscoped : isScoped ([letter, ':'.toUInt8] ++ first :: more ++ rest) = true :=
      isScoped_iff.mpr ⟨letter, first, more ++ rest, rfl, hletter, hfirst⟩
    rw [if_pos hscoped]
    have hdrop : List.drop 2 ([letter, ':'.toUInt8] ++ first :: more ++ rest)
        = (first :: more) ++ rest := rfl
    rw [hdrop, dropWhile_append _ hstop]
    rw [List.all_cons, Bool.and_eq_true]
    exact ⟨isNameContinue_of_start first hfirst, hmore⟩

theorem lexIdentifier_eq {text rest : List UInt8} (h : Name text rest) :
    lexIdentifier (text ++ rest) =
      if text = bytes "is#" then (.is .matchCase, rest)
      else if text = bytes "isnot#" then (.isNot .matchCase, rest)
      else
        let found := if rest.head? = some '#'.toUInt8 ∨ rest.head? = some '?'.toUInt8
          then lexCaseSuffix rest else (.default, rest)
        if text = bytes "is" then (.is found.1, found.2)
        else if text = bytes "isnot" then (.isNot found.1, found.2)
        else (.identifier text, found.2) := by
  have hafter := afterName_of_name h
  unfold afterName at hafter
  unfold lexIdentifier
  dsimp only
  rw [hafter, take_before]

/-- What is left when a token is read: a question mark behind a name is taken along. -/
def afterToken (kind : TokenKind) (rest : List UInt8) : List UInt8 :=
  match kind with
  | .identifier _ => if rest.head? = some '?'.toUInt8 then rest.drop 1 else rest
  | _ => rest

/-- The words that are no identifiers. -/
def reserved : List (List UInt8) := [bytes "is", bytes "isnot", bytes "is#", bytes "isnot#"]

/-- A name, or a comparison word with its suffix. -/
def SpellsWord (kind : TokenKind) (text rest : List UInt8) : Prop :=
  (∃ word ∈ comparisonWords, ∃ case suffix, WordSuffix case suffix rest ∧ kind = word.2 case ∧
    text = word.1 ++ suffix) ∨
  (Name text rest ∧ text ∉ reserved ∧ kind = .identifier text)

theorem name_of_reserved {text rest : List UInt8} (htext : text ∈ reserved)
    (hstop : Stops isNameContinue rest) : Name text rest := by
  have hword : ∃ more, text = 'i'.toUInt8 :: 's'.toUInt8 :: more ∧ more.all isNameContinue = true := by
    simp only [reserved, List.mem_cons, List.not_mem_nil, or_false] at htext
    rcases htext with rfl | rfl | rfl | rfl
    · exact ⟨[], by decide, rfl⟩
    · exact ⟨bytes "not", by decide, by decide⟩
    · exact ⟨bytes "#", by decide, by decide⟩
    · exact ⟨bytes "not#", by decide, by decide⟩
  obtain ⟨more, rfl, hmore⟩ := hword
  refine ⟨hstop, [], 'i'.toUInt8, 's'.toUInt8 :: more, rfl, by decide, ?_, .inl ⟨rfl, ?_⟩⟩
  · rw [List.all_cons, hmore]
    decide
  · have hfirst : decide ('i'.toUInt8 ∈ bytes "gbwtslav") = false := by decide
    simp [isScoped, hfirst]

theorem stops_question (rest : List UInt8) : Stops isNameContinue ('?'.toUInt8 :: rest) := by
  rw [stops_cons]
  decide

theorem head_ne_hash {rest : List UInt8} (h : Stops isNameContinue rest) :
    rest.head? ≠ some '#'.toUInt8 := by
  intro hhead
  obtain ⟨tail, rfl⟩ := List.head?_eq_some_iff.mp hhead
  rw [stops_cons] at h
  exact absurd h (by decide)

/-- The case of a comparison word is the question mark behind it. -/
theorem lexIdentifier_word {word : List UInt8 × (CaseSensitivity → TokenKind)}
    (hword : word ∈ comparisonWords) {rest : List UInt8} (hstop : Stops isNameContinue rest) :
    lexIdentifier (word.1 ++ rest) = (word.2 (lexCaseSuffix rest).1, (lexCaseSuffix rest).2) ∧
      lexIdentifier (word.1 ++ bytes "#" ++ rest) = (word.2 .matchCase, rest) := by
  have hfound : (if rest.head? = some '#'.toUInt8 ∨ rest.head? = some '?'.toUInt8
      then lexCaseSuffix rest else (.default, rest)) = lexCaseSuffix rest := by
    unfold lexCaseSuffix
    split_ifs with h h' <;> grind
  simp only [comparisonWords, List.mem_cons, List.not_mem_nil, or_false] at hword
  rcases hword with rfl | rfl
  · constructor
    · rw [lexIdentifier_eq (name_of_reserved (by simp [reserved]) hstop), if_neg (by decide),
        if_neg (by decide)]
      dsimp only
      rw [if_pos rfl, hfound]
    · have htext : bytes "is" ++ bytes "#" = bytes "is#" := by decide
      rw [htext, lexIdentifier_eq (name_of_reserved (by simp [reserved]) hstop), if_pos rfl]
  · constructor
    · rw [lexIdentifier_eq (name_of_reserved (by simp [reserved]) hstop), if_neg (by decide),
        if_neg (by decide)]
      dsimp only
      rw [if_neg (by decide), if_pos rfl, hfound]
    · have htext : bytes "isnot" ++ bytes "#" = bytes "isnot#" := by decide
      rw [htext, lexIdentifier_eq (name_of_reserved (by simp [reserved]) hstop), if_neg (by decide),
        if_pos rfl]

theorem afterToken_word {word : List UInt8 × (CaseSensitivity → TokenKind)}
    (hword : word ∈ comparisonWords) (case : CaseSensitivity) (rest : List UInt8) :
    afterToken (word.2 case) rest = rest := by
  simp only [comparisonWords, List.mem_cons, List.not_mem_nil, or_false] at hword
  rcases hword with rfl | rfl <;> rfl

theorem lexIdentifier_of_spells {text next : List UInt8} {kind : TokenKind}
    (h : SpellsWord kind text next) :
    lexIdentifier (text ++ next) = (kind, afterToken kind next) := by
  rcases h with ⟨word, hword, case, suffix, ⟨hsuffix, hstop⟩, rfl, rfl⟩ | ⟨hname, hreserved, rfl⟩
  · rw [afterToken_word hword]
    cases hsuffix with
    | default hhash hquestion =>
      have hstop := hstop (by decide)
      have hdefault : lexCaseSuffix next = (.default, next) :=
        lexCaseSuffix_eq_iff.mpr ⟨[], rfl, .default hhash hquestion⟩
      rw [List.append_nil, (lexIdentifier_word hword hstop).1, hdefault]
    | matchCase => exact (lexIdentifier_word hword (hstop (by decide))).2
    | ignoreCase =>
      have htext : bytes "?" ++ next = '?'.toUInt8 :: next := by
        rw [show bytes "?" = ['?'.toUInt8] by decide]
        rfl
      rw [List.append_assoc, htext, (lexIdentifier_word hword (stops_question next)).1]
      rw [lexCaseSuffix_eq_iff.mpr ⟨bytes "?", htext.symm, .ignoreCase⟩]
  · simp only [reserved, List.mem_cons, List.not_mem_nil, or_false, not_or] at hreserved
    obtain ⟨his, hisnot, hishash, hisnothash⟩ := hreserved
    have hhash := head_ne_hash hname.stops
    rw [lexIdentifier_eq hname, if_neg hishash, if_neg hisnothash]
    dsimp only
    rw [if_neg his, if_neg hisnot]
    by_cases hquestion : next.head? = some '?'.toUInt8
    · simp +decide [hquestion, lexCaseSuffix, afterToken]
    · simp [hquestion, hhash, afterToken]

theorem spells_of_lexIdentifier {rest : List UInt8} (hstart : rest.head?.any isNameStart = true) :
    ∃ text next, rest = text ++ next ∧ SpellsWord (lexIdentifier rest).1 text next := by
  obtain ⟨text, hrest, hname⟩ := name_of_lex hstart
  generalize afterName rest = next at hrest hname
  subst hrest
  by_cases hreserved : text ∈ reserved
  · -- A reserved word is a comparison word, perhaps with the suffix that names may have.
    have hword : ∃ word ∈ comparisonWords, text = word.1 ∨ text = word.1 ++ bytes "#" := by
      simp only [reserved, List.mem_cons, List.not_mem_nil, or_false] at hreserved
      rcases hreserved with rfl | rfl | rfl | rfl
      · exact ⟨(bytes "is", .is), by simp [comparisonWords], .inl rfl⟩
      · exact ⟨(bytes "isnot", .isNot), by simp [comparisonWords], .inl rfl⟩
      · exact ⟨(bytes "is", .is), by simp [comparisonWords], .inr (by decide)⟩
      · exact ⟨(bytes "isnot", .isNot), by simp [comparisonWords], .inr (by decide)⟩
    obtain ⟨word, hword, rfl | rfl⟩ := hword
    · obtain ⟨case, after, hpair⟩ : ∃ case after, lexCaseSuffix next = (case, after) := ⟨_, _, rfl⟩
      obtain ⟨suffix, rfl, hsuffix⟩ := lexCaseSuffix_eq_iff.mp hpair
      refine ⟨word.1 ++ suffix, after, by rw [List.append_assoc],
        .inl ⟨word, hword, case, suffix, ⟨hsuffix, fun hcase => ?_⟩, ?_, rfl⟩⟩
      · cases hsuffix with
        | default _ _ => exact hname.stops
        | matchCase =>
          have hhash := head_ne_hash hname.stops
          exact absurd rfl hhash
        | ignoreCase => exact absurd rfl hcase
      · rw [(lexIdentifier_word hword hname.stops).1, hpair]
    · refine ⟨word.1 ++ bytes "#", next, rfl, .inl ⟨word, hword, .matchCase, bytes "#",
        ⟨.matchCase, fun _ => hname.stops⟩, ?_, rfl⟩⟩
      rw [(lexIdentifier_word hword hname.stops).2]
  · refine ⟨text, next, rfl, .inr ⟨hname, hreserved, ?_⟩⟩
    have hspells : SpellsWord (.identifier text) text next := .inr ⟨hname, hreserved, rfl⟩
    rw [lexIdentifier_of_spells hspells]

theorem lexIdentifier_eq_iff {rest after : List UInt8} {kind : TokenKind}
    (hstart : rest.head?.any isNameStart = true) :
    lexIdentifier rest = (kind, after) ↔
      ∃ text next, rest = text ++ next ∧ SpellsWord kind text next ∧ after = afterToken kind next := by
  constructor
  · intro h
    obtain ⟨text, next, rfl, hspells⟩ := spells_of_lexIdentifier hstart
    have hread := lexIdentifier_of_spells hspells
    rw [h] at hread hspells
    exact ⟨text, next, rfl, hspells, congrArg Prod.snd hread⟩
  · rintro ⟨text, next, rfl, hspells, rfl⟩
    exact lexIdentifier_of_spells hspells

end Oxvim.Eval.Lexer
