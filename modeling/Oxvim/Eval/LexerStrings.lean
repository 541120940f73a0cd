import Oxvim.Eval.LexerGrammar

/-!
# Reading strings

What the lexer reads as a string is spelled as one, and what is spelled as one is read.
-/

namespace Oxvim.Eval.Lexer

open Lib Lib.Greedy Lib.EState

/-! ## Escapes -/

theorem takesDigits_takeWhile (p : UInt8 → Bool) (limit : Nat) (tail : List UInt8) :
    TakesDigits p limit ((tail.take limit).takeWhile p)
      (tail.drop ((tail.take limit).takeWhile p).length) := by
  have hprefix : (tail.take limit).takeWhile p <+: tail.take limit := List.takeWhile_prefix p
  have hle : ((tail.take limit).takeWhile p).length ≤ (tail.take limit).length := hprefix.length_le
  refine ⟨all_takeWhile _, hle.trans (List.length_take_le _ _), fun hlt => ?_⟩
  -- Digits that end before the limit are followed by what stopped them.
  have hsplit : tail = (tail.take limit).takeWhile p ++ ((tail.take limit).dropWhile p ++ tail.drop limit) := by
    rw [← List.append_assoc, List.takeWhile_append_dropWhile, List.take_append_drop]
  have hdrop : tail.drop ((tail.take limit).takeWhile p).length
      = (tail.take limit).dropWhile p ++ tail.drop limit := by
    conv_lhs => rw [hsplit]
    rw [List.drop_left']
    rw [← hsplit]
  rw [hdrop]
  cases hrest : (tail.take limit).dropWhile p with
  | nil =>
    have hall : (tail.take limit).takeWhile p = tail.take limit := by
      have := @List.takeWhile_append_dropWhile _ p (tail.take limit)
      rwa [hrest, List.append_nil] at this
    rw [hall, List.length_take] at hlt
    have hnil : tail.drop limit = [] := List.drop_eq_nil_of_le (by omega)
    rw [hnil]
    exact stops_nil
  | cons a rest =>
    have := @stops_dropWhile _ p (tail.take limit)
    rw [hrest] at this
    simpa using this

theorem TakesDigits.takeWhile {p : UInt8 → Bool} {limit : Nat} {digits rest : List UInt8}
    (h : TakesDigits p limit digits rest) :
    ((digits ++ rest).take limit).takeWhile p = digits := by
  obtain ⟨hall, hle, hstop⟩ := h
  rw [List.take_append, List.take_of_length_le hle]
  apply takeWhile_append hall
  by_cases hlt : digits.length < limit
  · have hstop := hstop hlt
    cases rest with
    | nil => simp
    | cons a rest =>
      obtain ⟨n, hn⟩ := Nat.exists_eq_add_of_lt hlt
      have hn : limit - digits.length = n + 1 := by omega
      rw [hn, List.take_succ_cons]
      simpa using hstop
  · have hzero : limit - digits.length = 0 := by omega
    rw [hzero, List.take_zero]
    exact stops_nil

theorem readHexEscape_ok_iff {limit offset value : Nat} {rest after : List UInt8} :
    readHexEscape limit offset rest = .ok (value, after) ↔
      ∃ digits, rest = digits ++ after ∧ digits ≠ [] ∧ TakesDigits isHexDigit limit digits after ∧
        value = digitsValue 16 digits := by
  unfold readHexEscape
  dsimp only
  constructor
  · intro h
    split_ifs at h with hnil
    cases h
    have hprefix : (rest.take limit).takeWhile isHexDigit <+: rest :=
      (List.takeWhile_prefix _).trans (List.take_prefix _ _)
    exact ⟨_, (List.prefix_iff_eq_append.mp hprefix).symm, hnil, takesDigits_takeWhile _ _ _, rfl⟩
  · rintro ⟨digits, rfl, hne, htakes, rfl⟩
    rw [htakes.takeWhile, if_neg hne, List.drop_left]

theorem findSpecialKey_ok_iff {offset : Nat} {tail : List UInt8} {key : Option (List UInt8 × Nat)} :
    findSpecialKey offset tail = .ok key ↔ findSpecialKey 0 tail = .ok key := by
  unfold findSpecialKey
  dsimp only
  split
  · simp
  · exact Iff.rfl

/-- A key ends at the `>` that closes its name. -/
theorem findSpecialKey_le {offset consumed : Nat} {tail value : List UInt8}
    (h : findSpecialKey offset tail = .ok (some (value, consumed))) : consumed ≤ tail.length := by
  unfold findSpecialKey at h
  dsimp only at h
  split at h
  · cases h
  · split at h
    · rename_i hclose
      obtain ⟨found, -, hfound⟩ := Option.map_eq_some_iff.mp (Except.ok.inj h)
      cases hfound
      exact (List.getElem?_eq_some_iff.mp hclose).1
    · cases h

theorem mem_xX {b : UInt8} : b ∈ bytes "xX" ↔ b = 'x'.toUInt8 ∨ b = 'X'.toUInt8 := by
  rw [show bytes "xX" = ['x'.toUInt8, 'X'.toUInt8] by decide]
  simp

theorem escape_of_lexEscape {total start : Nat} {rest value after : List UInt8}
    (h : lexEscape total start rest = .ok (value, after)) :
    ∃ text, rest = text ++ after ∧ Escape value text after := by
  unfold lexEscape at h
  dsimp only at h
  split at h
  · cases h
  · rename_i byte tail
    split at h
    · rename_i simple hsimple
      cases h
      exact ⟨[byte], rfl, .simple hsimple⟩
    · rename_i hsimple
      split_ifs at h with hoctal hx hu hlower hkey
      · cases h
        have htakes := takesDigits_takeWhile isOctal 2 tail
        have hprefix : (tail.take 2).takeWhile isOctal <+: tail :=
          (List.takeWhile_prefix _).trans (List.take_prefix _ _)
        refine ⟨byte :: (tail.take 2).takeWhile isOctal, ?_, .octal hoctal htakes⟩
        rw [List.length_cons, List.drop_succ_cons, List.cons_append,
          List.prefix_iff_eq_append.mp hprefix]
      · obtain ⟨read, hread, heq⟩ := except_map_eq_ok.mp h
        cases heq
        obtain ⟨digits, rfl, hne, htakes, hvalue⟩ := readHexEscape_ok_iff.mp hread
        rw [hvalue]
        exact ⟨byte :: digits, rfl, .hex (mem_xX.mpr hx) hne htakes⟩
      · obtain ⟨read, hread, hchar⟩ := except_bind_eq_ok.mp h
        obtain ⟨digits, rfl, hne, htakes, hvalue⟩ := readHexEscape_ok_iff.mp hread
        split at hchar
        · rename_i character hcharacter
          cases hchar
          rw [hvalue] at hcharacter
          exact ⟨byte :: digits, rfl, .unicode (.inl ⟨hlower, rfl⟩) hne htakes hcharacter⟩
        · cases hchar
      · obtain ⟨read, hread, hchar⟩ := except_bind_eq_ok.mp h
        obtain ⟨digits, rfl, hne, htakes, hvalue⟩ := readHexEscape_ok_iff.mp hread
        split at hchar
        · rename_i character hcharacter
          cases hchar
          rw [hvalue] at hcharacter
          exact ⟨byte :: digits, rfl,
            .unicode (.inr ⟨hu.resolve_left hlower, rfl⟩) hne htakes hcharacter⟩
        · cases hchar
      · obtain ⟨key, hfind, heq⟩ := except_map_eq_ok.mp h
        subst hkey
        cases key with
        | none =>
          cases heq
          exact ⟨['<'.toUInt8], rfl, .noKey (findSpecialKey_ok_iff.mp hfind)⟩
        | some found =>
          cases heq
          have hle := findSpecialKey_le hfind
          refine ⟨'<'.toUInt8 :: tail.take found.2, by simp, .key ?_⟩
          rw [List.take_append_drop, List.length_take, Nat.min_eq_left hle]
          exact findSpecialKey_ok_iff.mp hfind
      · cases h
        refine ⟨[byte], rfl, .kept hsimple (by simpa using hoctal) ?_⟩
        rw [show bytes "xXuU<" = ['x', 'X', 'u', 'U', '<'].map Char.toUInt8 by decide]
        simp_all

theorem simpleEscape_of_octal : ∀ d : UInt8, isOctal d → simpleEscape d = none := by
  intro d h
  simp [simpleEscape, isOctal, Char.toUInt8] at h ⊢
  grind

theorem simpleEscape_of_mark : ∀ b : UInt8, b ∈ bytes "xXuU<" → simpleEscape b = none := by
  intro b h
  simp only [bytes, List.mem_map] at h
  obtain ⟨mark, hmark, rfl⟩ := h
  simp at hmark
  rcases hmark with rfl | rfl | rfl | rfl | rfl <;> rfl

theorem lexEscape_of_escape {total start : Nat} {text value after : List UInt8}
    (h : Escape value text after) : lexEscape total start (text ++ after) = .ok (value, after) := by
  unfold lexEscape
  cases h with
  | simple hsimple => simp [hsimple]
  | @octal d digits rest hd htakes =>
    simp only [List.cons_append, simpleEscape_of_octal d hd, if_pos hd, htakes.takeWhile]
    simp
  | @hex mark digits rest hmark hne htakes =>
    have hread : ∀ offset, readHexEscape 2 offset (digits ++ after)
        = .ok (digitsValue 16 digits, after) := fun offset =>
      readHexEscape_ok_iff.mpr ⟨digits, rfl, hne, htakes, rfl⟩
    rcases mem_xX.mp hmark with rfl | rfl <;>
      simp +decide [simpleEscape_of_mark, hread, Except.map]
  | @unicode mark limit digits rest character hmark hne htakes hcharacter =>
    have hread : ∀ offset, readHexEscape limit offset (digits ++ after)
        = .ok (digitsValue 16 digits, after) := fun offset =>
      readHexEscape_ok_iff.mpr ⟨digits, rfl, hne, htakes, rfl⟩
    rcases hmark with ⟨rfl, rfl⟩ | ⟨rfl, rfl⟩ <;>
      simp +decide [simpleEscape_of_mark, hread, hcharacter, Except.bind]
  | @key _ name rest hkey =>
    have hfind := fun offset => (@findSpecialKey_ok_iff offset (name ++ after) _).mpr hkey
    simp +decide [simpleEscape_of_mark, hfind, Except.map]
  | @noKey rest hkey =>
    have hfind := fun offset => (@findSpecialKey_ok_iff offset after _).mpr hkey
    simp +decide [simpleEscape_of_mark, hfind, Except.map]
  | @kept b rest hsimple hoctal hb =>
    rw [show bytes "xXuU<" = ['x', 'X', 'u', 'U', '<'].map Char.toUInt8 by decide] at hb
    simp only [List.map_cons, List.map_nil, List.mem_cons, not_or] at hb
    simp [hsimple, hoctal, hb]

/-! ## Strings -/

theorem lexSingleBody_ok_iff {start : Nat} {rest value after : List UInt8} :
    lexSingleBody start rest = .ok (value, after) ↔
      ∃ text, rest = text ++ '\''.toUInt8 :: after ∧ SingleBody value text ∧
        after.head? ≠ some '\''.toUInt8 := by
  constructor
  · intro h
    fun_induction lexSingleBody start rest generalizing value after
    case case1 => cases h
    case case2 =>
      cases h
      exact ⟨[], rfl, .nil, by simp⟩
    case case3 => cases h
    case case4 byte next rest hquotes ih =>
      obtain ⟨rfl, rfl⟩ := hquotes
      obtain ⟨found, hfound, heq⟩ := except_map_eq_ok.mp h
      cases heq
      obtain ⟨text, rfl, hbody, hafter⟩ := ih hfound
      exact ⟨'\''.toUInt8 :: '\''.toUInt8 :: text, rfl, .quote hbody, hafter⟩
    case case5 next rest hquotes =>
      cases h
      exact ⟨[], rfl, .nil, by simpa using hquotes⟩
    case case6 byte next rest hquotes hquote ih =>
      obtain ⟨found, hfound, heq⟩ := except_map_eq_ok.mp h
      cases heq
      obtain ⟨text, hrest, hbody, hafter⟩ := ih hfound
      exact ⟨byte :: text, by rw [hrest]; rfl, .byte hquote hbody, hafter⟩
  · rintro ⟨text, rfl, hbody, hafter⟩
    induction hbody with
    | nil =>
      cases after with
      | nil => simp [lexSingleBody]
      | cons next after =>
        have hnext : next ≠ '\''.toUInt8 := by simpa using hafter
        simp [lexSingleBody, hnext]
    | quote _ ih => simp [lexSingleBody, ih, prepend, Except.map]
    | @byte b value text hb _ ih =>
      cases htext : text ++ '\''.toUInt8 :: after with
      | nil => simp at htext
      | cons next more =>
        rw [htext] at ih
        rw [List.cons_append, htext]
        simp [lexSingleBody, hb, ih, prepend, Except.map]

theorem mem_quoteBackslash {b : UInt8} : b ∈ bytes "\"\\" ↔ b = '"'.toUInt8 ∨ b = '\\'.toUInt8 := by
  rw [show bytes "\"\\" = ['"'.toUInt8, '\\'.toUInt8] by decide]
  simp

theorem lexDoubleBody_ok_iff {total start : Nat} {nulSeen : Bool} {kept rest value after : List UInt8} :
    lexDoubleBody total start nulSeen kept rest = .ok (value, after) ↔
      ∃ pieces text, rest = text ++ '"'.toUInt8 :: after ∧
        DoubleBody pieces text ('"'.toUInt8 :: after) ∧
        value = kept ++ if nulSeen then [] else piecesValue pieces := by
  constructor
  · intro h
    fun_induction lexDoubleBody total start nulSeen kept rest generalizing value after
    case case1 => cases h
    case case2 nulSeen kept tail =>
      cases h
      exact ⟨[], [], rfl, .nil, by cases nulSeen <;> simp [piecesValue]⟩
    case case3 => cases h
    case case4 kept tail escaped more hlex _ ih =>
      obtain ⟨pieces, text, rfl, hbody, hvalue⟩ := ih h
      obtain ⟨escape, rfl, hescape⟩ := escape_of_lexEscape hlex
      exact ⟨.escaped escaped :: pieces, '\\'.toUInt8 :: (escape ++ text), by simp,
        .escaped hescape hbody, hvalue⟩
    case case5 kept tail escaped more hlex hseen hnul _ ih =>
      obtain ⟨pieces, text, rfl, hbody, hvalue⟩ := ih h
      obtain ⟨escape, rfl, hescape⟩ := escape_of_lexEscape hlex
      refine ⟨.escaped escaped :: pieces, '\\'.toUInt8 :: (escape ++ text), by simp,
        .escaped hescape hbody, ?_⟩
      simpa [piecesValue, hnul, hseen] using hvalue
    case case6 kept tail escaped more hlex hseen hnul _ ih =>
      obtain ⟨pieces, text, rfl, hbody, hvalue⟩ := ih h
      obtain ⟨escape, rfl, hescape⟩ := escape_of_lexEscape hlex
      refine ⟨.escaped escaped :: pieces, '\\'.toUInt8 :: (escape ++ text), by simp,
        .escaped hescape hbody, ?_⟩
      simpa [piecesValue, hnul, hseen] using hvalue
    case case7 nulSeen kept byte tail hquote hbackslash ih =>
      obtain ⟨pieces, text, rfl, hbody, hvalue⟩ := ih h
      refine ⟨.plain byte :: pieces, byte :: text, rfl, .plain ?_ hbody, ?_⟩
      · rw [mem_quoteBackslash]
        tauto
      · cases nulSeen <;> simpa [piecesValue] using hvalue
  · rintro ⟨pieces, text, rfl, hbody, rfl⟩
    generalize hrest : '"'.toUInt8 :: after = rest at hbody
    induction hbody generalizing nulSeen kept with
    | nil =>
      subst hrest
      cases nulSeen <;> simp [lexDoubleBody, piecesValue]
    | plain hb _ ih =>
      rw [mem_quoteBackslash, not_or] at hb
      rw [List.cons_append, lexDoubleBody, if_neg hb.1, if_neg hb.2, ih hrest]
      cases nulSeen <;> simp [piecesValue]
    | @escaped value escape pieces text rest hescape _ ih =>
      subst hrest
      have hread := @lexEscape_of_escape total start _ _ _ hescape
      rw [List.cons_append, List.append_assoc, lexDoubleBody, if_neg (by decide), if_pos rfl]
      split
      · rename_i e he
        rw [hread] at he
        cases he
      · rename_i escaped more he
        rw [hread] at he
        cases he
        by_cases hnul : 0 ∈ value
        · cases nulSeen <;> simp [hnul, ih rfl, piecesValue]
        · cases nulSeen <;> simp [hnul, ih rfl, piecesValue]

/-! ## Interpolated strings -/

theorem mem_quotesBraces {b : UInt8} : b ∈ bytes "'\"\x7b\x7d" ↔
    b = '\''.toUInt8 ∨ b = '"'.toUInt8 ∨ b = '\x7b'.toUInt8 ∨ b = '\x7d'.toUInt8 := by
  rw [show bytes "'\"\x7b\x7d" = ['\''.toUInt8, '"'.toUInt8, '\x7b'.toUInt8, '\x7d'.toUInt8] by
    decide]
  simp

/-- The quotes of a string inside an expression. -/
def IsQuote (quote : Option UInt8) : Prop :=
  ∀ active ∈ quote, active = '\''.toUInt8 ∨ active = '"'.toUInt8

theorem embedded_of_scan {start braces : Nat} {quote : Option UInt8} {rest text after : List UInt8}
    (hquote : IsQuote quote)
    (h : scanInterpolationExpression start braces quote rest = .ok (text, after)) :
    rest = text ++ '\x7d'.toUInt8 :: after ∧ Embedded braces quote text := by
  fun_induction scanInterpolationExpression start braces quote rest generalizing text after
  case case1 => cases h
  case case2 braces byte tail active taken quote hscan ih =>
    obtain ⟨found, hfound, heq⟩ := except_map_eq_ok.mp h
    cases heq
    have hactive := hquote active rfl
    unfold scanQuoted at hscan
    dsimp only at hscan
    split_ifs at hscan with hescape hdouble hclose
    · -- A backslash takes the next byte along.
      cases hscan
      obtain ⟨rfl, rfl⟩ := hescape
      obtain ⟨hrest, hembedded⟩ := ih hquote hfound
      cases tail with
      | nil => simp at hrest
      | cons next tail => exact ⟨by simp [← hrest], .taken hembedded⟩
    · cases hscan
      obtain ⟨rfl, rfl, hnext⟩ := hdouble
      obtain ⟨hrest, hembedded⟩ := ih hquote hfound
      cases tail with
      | nil => cases hnext
      | cons next tail =>
        cases hnext
        exact ⟨by simp [← hrest], .doubled hembedded⟩
    · cases hscan
      subst hclose
      obtain ⟨hrest, hembedded⟩ := ih (by rintro _ ⟨⟩) hfound
      refine ⟨by simpa using hrest, .closes ?_ (by simpa using hembedded)⟩
      rintro rfl
      intro hhead
      apply hdouble
      refine ⟨rfl, rfl, ?_⟩
      have hrest : tail = found.1 ++ '\x7d'.toUInt8 :: found.2 := by simpa using hrest
      have hhead : found.1.head? = some '\''.toUInt8 := by simpa using hhead
      cases hfirst : found.1 with
      | nil => rw [hfirst] at hhead; cases hhead
      | cons b more =>
        rw [hfirst] at hhead
        rw [hrest, hfirst]
        exact hhead
    · cases hscan
      obtain ⟨hrest, hembedded⟩ := ih hquote hfound
      have hrest : tail = found.1 ++ '\x7d'.toUInt8 :: found.2 := by simpa using hrest
      refine ⟨by simp [hrest], ?_⟩
      have hinside : Embedded braces (some active) (byte :: found.1) :=
        .inside hclose (fun hq hb => hescape ⟨hq, hb⟩) hembedded
      simpa using hinside
  case case3 braces byte tail hb ih =>
    obtain ⟨found, hfound, heq⟩ := except_map_eq_ok.mp h
    cases heq
    obtain ⟨rfl, hembedded⟩ := ih (fun active hactive => by cases hactive; exact hb) hfound
    exact ⟨rfl, .opens hb hembedded⟩
  case case4 braces tail _ ih =>
    obtain ⟨found, hfound, heq⟩ := except_map_eq_ok.mp h
    cases heq
    obtain ⟨rfl, hembedded⟩ := ih (by rintro _ ⟨⟩) hfound
    exact ⟨rfl, .brace hembedded⟩
  case case5 braces byte tail hb hbrace hclose =>
    cases h
    obtain ⟨rfl, rfl⟩ := hclose
    exact ⟨rfl, .done⟩
  case case6 braces tail _ hbrace hclose ih =>
    obtain ⟨found, hfound, heq⟩ := except_map_eq_ok.mp h
    cases heq
    obtain ⟨rfl, hembedded⟩ := ih (by rintro _ ⟨⟩) hfound
    cases braces with
    | zero => exact absurd ⟨rfl, rfl⟩ hclose
    | succ braces => exact ⟨rfl, .unbrace hembedded⟩
  case case7 braces byte tail hb hopen hclose hother ih =>
    obtain ⟨found, hfound, heq⟩ := except_map_eq_ok.mp h
    cases heq
    obtain ⟨rfl, hembedded⟩ := ih (by rintro _ ⟨⟩) hfound
    refine ⟨rfl, .byte ?_ hembedded⟩
    rw [mem_quotesBraces]
    tauto

theorem scan_of_embedded {start braces : Nat} {quote : Option UInt8} {text after : List UInt8}
    (hquote : IsQuote quote) (h : Embedded braces quote text) :
    scanInterpolationExpression start braces quote (text ++ '\x7d'.toUInt8 :: after)
      = .ok (text, after) := by
  induction h with
  | done =>
    rw [List.nil_append, scanInterpolationExpression]
    simp +decide
  | taken _ ih => 
    rw [List.cons_append, List.cons_append, scanInterpolationExpression]
    simp [scanQuoted, ih hquote, prepend, Except.map]
  | doubled _ ih =>
    rw [List.cons_append, List.cons_append, scanInterpolationExpression]
    simp +decide [scanQuoted, ih hquote, prepend, Except.map]
  | @inside braces active b text hne hescape _ ih =>
    have hplain : ¬(active = '"'.toUInt8 ∧ b = '\\'.toUInt8) := fun h => hescape h.1 h.2
    rw [List.cons_append, scanInterpolationExpression]
    simp [scanQuoted, hplain, hne, ih hquote, prepend, Except.map]
  | @closes braces active text hnext _ ih =>
    have ih := ih (by rintro _ ⟨⟩)
    have hplain : ¬(active = '"'.toUInt8 ∧ active = '\\'.toUInt8) := by
      rintro ⟨rfl, h⟩
      exact absurd h (by decide)
    have hsingle : ¬(active = '\''.toUInt8 ∧
        (text ++ '\x7d'.toUInt8 :: after).head? = some '\''.toUInt8) := by
      rintro ⟨rfl, hhead⟩
      cases text with
      | nil => exact absurd hhead (by simp +decide)
      | cons b text => exact hnext rfl hhead
    rw [List.cons_append, scanInterpolationExpression]
    simp only [scanQuoted, if_neg hplain, true_and, if_neg hsingle, if_true]
    simp [ih, prepend, Except.map]
  | opens hb _ ih =>
    have ih := ih fun active hactive => by cases hactive; exact hb
    rw [List.cons_append, scanInterpolationExpression]
    simp [hb, ih, prepend, Except.map]
  | brace _ ih =>
    rw [List.cons_append, scanInterpolationExpression]
    simp +decide [ih hquote, prepend, Except.map]
  | unbrace _ ih =>
    rw [List.cons_append, scanInterpolationExpression]
    simp +decide [ih hquote, prepend, Except.map]
  | byte hb _ ih =>
    rw [mem_quotesBraces, not_or, not_or, not_or] at hb
    rw [List.cons_append, scanInterpolationExpression]
    simp [hb, ih hquote, prepend, Except.map]

theorem mem_braces {b : UInt8} : b ∈ bytes "\x7b\x7d" ↔ b = '\x7b'.toUInt8 ∨ b = '\x7d'.toUInt8 := by
  rw [show bytes "\x7b\x7d" = ['\x7b'.toUInt8, '\x7d'.toUInt8] by decide]
  simp

/-- The parts before an interpolated string's end: those read, and those to come. -/
theorem interpolated_of_lex {total start : Nat} {quote : UInt8} {parts read : List InterpolationPart}
    {literal rest after : List UInt8} 
    (h : lexInterpolatedBody total start quote parts literal rest = .ok (read, after)) :
    ∃ more text, rest = text ++ quote :: after ∧ InterpolatedBody quote more text (quote :: after) ∧
      (quote = '\''.toUInt8 → after.head? ≠ some '\''.toUInt8) ∧
      read = parts ++ joinParts literal more := by
  fun_induction lexInterpolatedBody total start quote parts literal rest generalizing read after
  case case1 => cases h
  case case2 parts literal tail hquote ih =>
    obtain ⟨hsingle, hhead⟩ := hquote
    obtain ⟨tail, rfl⟩ := List.head?_eq_some_iff.mp hhead
    obtain ⟨more, text, hrest, hbody, hafter, hread⟩ := ih h
    have hrest : tail = text ++ quote :: after := hrest
    refine ⟨.literal [quote] :: more, quote :: quote :: text, ?_, .doubled hsingle hbody, hafter, ?_⟩
    · rw [hrest, hsingle]
      rfl
    · rw [hread, hsingle]
      rfl
  case case3 parts literal tail hquote =>
    cases h
    exact ⟨[], [], rfl, .nil, fun hsingle hhead => hquote ⟨hsingle, hhead⟩, rfl⟩
  case case4 => cases h
  case case5 parts literal byte tail _ hquote escaped after' hlex ih =>
    obtain ⟨hdouble, rfl⟩ := hquote
    obtain ⟨more, text, rfl, hbody, hafter, hread⟩ := ih h
    obtain ⟨escape, rfl, hescape⟩ := escape_of_lexEscape hlex
    exact ⟨.literal escaped :: more, '\\'.toUInt8 :: (escape ++ text), by simp,
      .escaped hdouble hescape hbody, hafter, hread⟩
  case case6 parts literal byte tail _ _ hbrace ih =>
    obtain ⟨rfl, hhead⟩ := hbrace
    obtain ⟨tail, rfl⟩ := List.head?_eq_some_iff.mp hhead
    obtain ⟨more, text, hrest, hbody, hafter, hread⟩ := ih h
    have hrest : tail = text ++ quote :: after := hrest
    refine ⟨.literal ['\x7b'.toUInt8] :: more, '\x7b'.toUInt8 :: '\x7b'.toUInt8 :: text, ?_,
      .brace (.inl rfl) hbody, hafter, hread⟩
    rw [hrest]
    rfl
  case case7 parts literal byte tail _ _ _ hbrace ih =>
    obtain ⟨rfl, hhead⟩ := hbrace
    obtain ⟨tail, rfl⟩ := List.head?_eq_some_iff.mp hhead
    obtain ⟨more, text, hrest, hbody, hafter, hread⟩ := ih h
    have hrest : tail = text ++ quote :: after := hrest
    refine ⟨.literal ['\x7d'.toUInt8] :: more, '\x7d'.toUInt8 :: '\x7d'.toUInt8 :: text, ?_,
      .brace (.inr rfl) hbody, hafter, hread⟩
    rw [hrest]
    rfl
  case case8 => cases h
  case case9 => cases h
  case case10 => cases h
  case case11 parts literal tail expression after' hscan hblank _ _ hdouble _ _ ih =>
    obtain ⟨more, text, rfl, hbody, hafter, hread⟩ := ih h
    obtain ⟨rfl, hembedded⟩ := embedded_of_scan (by rintro _ ⟨⟩) hscan
    refine ⟨.expression expression :: more,
      '\x7b'.toUInt8 :: (expression ++ '\x7d'.toUInt8 :: text), by simp,
      .expression hembedded (fun hhead => hdouble ⟨rfl, ?_⟩) (by simpa using hblank) hbody,
      hafter, ?_⟩
    · obtain ⟨source, rfl⟩ := List.head?_eq_some_iff.mp hhead
      rfl
    · rw [hread]
      simp [joinParts]
  case case12 parts literal byte tail hquote hescape hopen hclose hstray hbrace ih =>
    obtain ⟨more, text, rfl, hbody, hafter, hread⟩ := ih h
    refine ⟨.literal [byte] :: more, byte :: text, rfl,
      .byte hquote ?_ (fun hdouble hb => hescape ⟨hdouble, hb⟩) hbody, hafter, hread⟩
    rw [mem_braces]
    tauto

theorem lex_of_interpolated {total start : Nat} {quote : UInt8} {parts more : List InterpolationPart}
    {literal text after : List UInt8} (hquote : quote = '\''.toUInt8 ∨ quote = '"'.toUInt8)
    (hafter : quote = '\''.toUInt8 → after.head? ≠ some '\''.toUInt8)
    (h : InterpolatedBody quote more text (quote :: after)) :
    lexInterpolatedBody total start quote parts literal (text ++ quote :: after)
      = .ok (parts ++ joinParts literal more, after) := by
  generalize hrest : quote :: after = rest at h
  induction h generalizing parts literal with
  | nil =>
    subst hrest
    rw [List.nil_append, lexInterpolatedBody, if_pos rfl, if_neg]
    · rfl
    · exact fun h => hafter h.1 h.2
  | doubled hsingle _ ih =>
    subst hrest hsingle
    rw [List.cons_append, List.cons_append, lexInterpolatedBody, if_pos rfl, if_pos ⟨rfl, rfl⟩]
    exact ih rfl
  | @escaped value escape more text rest hdouble hescape _ ih =>
    subst hrest hdouble
    have hread := @lexEscape_of_escape total start _ _ _ hescape
    rw [List.cons_append, List.append_assoc, lexInterpolatedBody, if_neg (by decide),
      if_pos ⟨rfl, rfl⟩]
    split
    · rename_i e he
      rw [hread] at he
      cases he
    · rename_i found more' he
      rw [hread] at he
      cases he
      exact ih rfl
  | @brace b more text rest hb _ ih =>
    subst hrest
    have hne : b ≠ quote := by rcases hb with rfl | rfl <;> rcases hquote with rfl | rfl <;> decide
    have hplain : b ≠ '\\'.toUInt8 := by rcases hb with rfl | rfl <;> decide
    rw [List.cons_append, List.cons_append, lexInterpolatedBody, if_neg hne,
      if_neg (fun h => hplain h.2)]
    rcases hb with rfl | rfl
    · rw [if_pos ⟨rfl, rfl⟩]
      exact ih rfl
    · rw [if_neg (by simp +decide), if_pos ⟨rfl, rfl⟩]
      exact ih rfl
  | @expression source more text rest hembedded hhead hblank _ ih =>
    subst hrest
    have hne : '\x7b'.toUInt8 ≠ quote := by rcases hquote with rfl | rfl <;> decide
    have hscan := @scan_of_embedded start 0 none source (text ++ quote :: after) (by rintro _ ⟨⟩)
      hembedded
    have hsingle : (source ++ '\x7d'.toUInt8 :: (text ++ quote :: after)).head?
        ≠ some '\x7b'.toUInt8 := by
      cases source with
      | nil => simp +decide
      | cons b source => exact hhead
    rw [List.cons_append, List.append_assoc, List.cons_append, lexInterpolatedBody, if_neg hne,
      if_neg (by simp +decide), if_neg (fun h => hsingle h.2), if_neg (by simp +decide),
      if_neg (by decide), if_pos rfl]
    split
    · rename_i e he
      rw [hscan] at he
      cases he
    · rename_i found more' he
      rw [hscan] at he
      cases he
      rw [if_neg (by simp [hblank]), ih rfl]
      simp [joinParts]
  | @byte b more text rest hne hb hescape _ ih =>
    subst hrest
    rw [mem_braces, not_or] at hb
    rw [List.cons_append, lexInterpolatedBody, if_neg hne, if_neg (fun h => hescape h.1 h.2),
      if_neg (fun h => hb.1 h.1), if_neg (fun h => hb.2 h.1), if_neg hb.2, if_neg hb.1]
    exact ih rfl

end Oxvim.Eval.Lexer
