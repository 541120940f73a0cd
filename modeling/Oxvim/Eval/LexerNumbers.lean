import Oxvim.Eval.LexerGrammar

/-!
# Reading numbers and blobs
-/

namespace Oxvim.Eval.Lexer

open Lib Lib.Greedy Lib.EState

/-! ## Classes of bytes -/

theorem hexValue_of_octal : ∀ d : UInt8, isOctal d → (hexValue d).any fun v => v.toNat < 8 := by
  decide +kernel

theorem hexValue_of_digit : ∀ d : UInt8, isDigit d → (hexValue d).any fun v => v.toNat < 10 := by
  decide +kernel

theorem isDigit_of_octal : ∀ d : UInt8, isOctal d → isDigit d := by
  intro d h
  simp [isOctal, isDigit, Char.toUInt8] at h ⊢
  grind

theorem isHexDigit_of_any : ∀ d : UInt8, ∀ base, ((hexValue d).any fun v => v.toNat < base) → isHexDigit d := by
  intro d base h
  unfold isHexDigit
  cases hd : hexValue d with
  | none => simp [hd] at h
  | some v => rfl

/-! ## Integers -/

theorem fromStrRadix_eq_some_iff {bound base value : Nat} {digits : List UInt8} :
    fromStrRadix bound base digits = some value ↔
      digits ≠ [] ∧ (digits.all fun digit => (hexValue digit).any fun d => d.toNat < base) ∧
        digitsValue base digits < bound ∧ value = digitsValue base digits := by
  unfold fromStrRadix
  split_ifs with hbad hlt
  · simp only [Bool.or_eq_true, decide_eq_true_eq, Bool.not_eq_true'] at hbad
    simp only [false_iff, not_and]
    intro hne hall
    rcases hbad with hbad | hbad
    · exact absurd hbad hne
    · rw [hall] at hbad
      cases hbad
  · simp only [Bool.or_eq_true, decide_eq_true_eq, Bool.not_eq_true', not_or, Bool.not_eq_false] at hbad
    simp [hbad, hlt, eq_comm]
  · simp [hlt]

theorem parseInteger_ok_iff {digits : List UInt8} {base offset : Nat} {value : Int64} :
    parseInteger digits base offset = .ok value ↔
      digits ≠ [] ∧ (digits.all fun digit => (hexValue digit).any fun d => d.toNat < base) ∧
        digitsValue base digits < 2 ^ 63 ∧ value = Int64.ofNat (digitsValue base digits) := by
  unfold parseInteger
  constructor
  · intro h
    split at h
    · rename_i found hfound
      cases h
      obtain ⟨hne, hall, hlt, rfl⟩ := fromStrRadix_eq_some_iff.mp hfound
      exact ⟨hne, hall, hlt, rfl⟩
    · cases h
  · rintro ⟨hne, hall, hlt, rfl⟩
    rw [fromStrRadix_eq_some_iff.mpr ⟨hne, hall, hlt, rfl⟩]

theorem digitsValue_cons_zero (base : Nat) (digits : List UInt8) :
    digitsValue base ('0'.toUInt8 :: digits) = digitsValue base digits := by
  have hzero : 0 * base + ((hexValue '0'.toUInt8).getD 0).toNat = 0 := by
    rw [Nat.zero_mul, Nat.zero_add]
    decide
  rw [digitsValue, List.foldl_cons, hzero]
  rfl

theorem finishInteger_ok_iff {text : List UInt8} (htext : Digits text) {offset : Nat}
    {kind : TokenKind} :
    finishInteger text offset = .ok kind ↔ digitsValue (plainBase text) text < 2 ^ 63 ∧
      kind = .integer (Int64.ofNat (digitsValue (plainBase text) text)) := by
  obtain ⟨hne, hall⟩ := htext
  unfold finishInteger plainBase
  by_cases hoctal : LegacyOctal text
  · rw [if_pos hoctal]
    obtain ⟨hhead, hlength, hoctals⟩ := hoctal
    obtain ⟨tail, rfl⟩ := List.head?_eq_some_iff.mp hhead
    have htail : tail ≠ [] := by
      rintro rfl
      simp at hlength
    have htails : tail.all isOctal := by
      rw [List.all_cons, Bool.and_eq_true] at hoctals
      exact hoctals.2
    have hvalid : tail.all fun digit => (hexValue digit).any fun d => d.toNat < 8 := by
      rw [List.all_eq_true] at htails ⊢
      exact fun d hd => hexValue_of_octal d (htails d hd)
    have hlong : 1 < ('0'.toUInt8 :: tail).length := by simpa using List.length_pos_iff.mpr htail
    simp only [List.head?_cons, List.tail_cons, htails, decide_true, Bool.and_true, hlong,
      if_true, if_neg htail, digitsValue_cons_zero]
    rw [except_map_eq_ok]
    constructor
    · rintro ⟨value, hvalue, rfl⟩
      obtain ⟨-, -, hlt, rfl⟩ := parseInteger_ok_iff.mp hvalue
      exact ⟨hlt, rfl⟩
    · rintro ⟨hlt, rfl⟩
      exact ⟨_, parseInteger_ok_iff.mpr ⟨htail, hvalid, hlt, rfl⟩, rfl⟩
  · rw [if_neg hoctal]
    have hvalid : text.all fun digit => (hexValue digit).any fun d => d.toNat < 10 := by
      rw [List.all_eq_true] at hall ⊢
      exact fun d hd => hexValue_of_digit d (hall d hd)
    have hplain : (text.head? = some '0'.toUInt8 && text.length > 1 && text.tail.all isOctal)
        = false := by
      rw [Bool.eq_false_iff]
      intro h
      simp only [Bool.and_eq_true, decide_eq_true_eq] at h
      obtain ⟨⟨hhead, hlength⟩, htail⟩ := h
      obtain ⟨tail, rfl⟩ := List.head?_eq_some_iff.mp hhead
      refine hoctal ⟨rfl, hlength, ?_⟩
      rw [List.all_cons, Bool.and_eq_true]
      exact ⟨by decide, htail⟩
    simp only [hplain, Bool.false_eq_true, if_false, if_neg hne]
    rw [except_map_eq_ok]
    constructor
    · rintro ⟨value, hvalue, rfl⟩
      obtain ⟨-, -, hlt, rfl⟩ := parseInteger_ok_iff.mp hvalue
      exact ⟨hlt, rfl⟩
    · rintro ⟨hlt, rfl⟩
      exact ⟨_, parseInteger_ok_iff.mpr ⟨hne, hvalid, hlt, rfl⟩, rfl⟩

/-! ## Floats -/

theorem mem_eE {b : UInt8} : b ∈ bytes "eE" ↔ b = 'e'.toUInt8 ∨ b = 'E'.toUInt8 := by
  rw [show bytes "eE" = ['e'.toUInt8, 'E'.toUInt8] by decide]
  simp

theorem digits_of_head {rest : List UInt8} (h : rest.head?.any isDigit = true) :
    Digits (rest.takeWhile isDigit) := by
  refine ⟨?_, all_takeWhile rest⟩
  cases rest with
  | nil => simp at h
  | cons b rest =>
    have hb : isDigit b := by simpa using h
    simp [hb]

theorem Digits.head {text : List UInt8} (h : Digits text) (rest : List UInt8) :
    (text ++ rest).head?.any isDigit = true := by
  obtain ⟨hne, hall⟩ := h
  cases text with
  | nil => exact absurd rfl hne
  | cons b text =>
    rw [List.all_cons, Bool.and_eq_true] at hall
    simpa using hall.1

theorem isDigit_ne_sign : ∀ b : UInt8, isDigit b → b ≠ '+'.toUInt8 ∧ b ≠ '-'.toUInt8 := by
  intro b h
  simp [isDigit, Char.toUInt8] at h ⊢
  grind

theorem skipExponent_of_exponent {exponent after : List UInt8} (h : Exponent exponent)
    (hdigit : Stops isDigit after)
    (hletter : Stops (fun byte => byte == '.'.toUInt8 || isAlphabetic byte) after) :
    skipExponent (exponent ++ after) = some after := by
  rcases h with rfl | ⟨mark, sign, digits, rfl, hmark, hsign, hdigits⟩
  · have hhead : ¬(after.head? = some 'e'.toUInt8 ∨ after.head? = some 'E'.toUInt8) := by
      cases after with
      | nil => simp
      | cons b after =>
        rw [stops_cons] at hletter
        rintro (h | h) <;> cases h <;> exact absurd hletter (by decide)
    rw [List.nil_append, skipExponent, if_neg hhead]
  · have hdrop : (digits ++ after).dropWhile isDigit = after := dropWhile_append hdigits.2 hdigit
    have hhead := hdigits.head after
    rw [mem_eE] at hmark
    rw [List.cons_append, List.append_assoc, skipExponent, if_pos (by simpa using hmark)]
    rcases hsign with rfl | rfl | rfl
    · have hplain : ¬((digits ++ after).head? = some '+'.toUInt8 ∨
          (digits ++ after).head? = some '-'.toUInt8) := by
        rintro (h | h) <;> rw [h] at hhead <;> exact absurd hhead (by decide)
      simp only [List.drop_succ_cons, List.drop_zero, List.nil_append, if_neg hplain, hhead, if_true,
        hdrop]
    · rw [show bytes "+" = ['+'.toUInt8] by decide]
      simpa [hdrop] using hhead
    · rw [show bytes "-" = ['-'.toUInt8] by decide]
      simpa [hdrop] using hhead

theorem exponent_of_skipExponent {rest after : List UInt8} (h : skipExponent rest = some after)
    (hstop : Stops isDigit rest) :
    ∃ exponent, rest = exponent ++ after ∧ Exponent exponent ∧ Stops isDigit after := by
  unfold skipExponent at h
  split_ifs at h with hmark
  · dsimp only at h
    obtain ⟨mark, tail, rfl⟩ : ∃ mark tail, rest = mark :: tail := by
      cases rest with
      | nil => simp at hmark
      | cons mark tail => exact ⟨mark, tail, rfl⟩
    have hletter : mark ∈ bytes "eE" := by simpa [mem_eE] using hmark
    rw [List.drop_succ_cons, List.drop_zero] at h
    obtain ⟨sign, digits, rfl, hsign, hdigits⟩ : ∃ sign digits, tail = sign ++ digits ∧
        (sign = [] ∨ sign = bytes "+" ∨ sign = bytes "-") ∧
        (if tail.head? = some '+'.toUInt8 ∨ tail.head? = some '-'.toUInt8 then tail.drop 1
          else tail) = digits := by
      split_ifs with hsign
      · rcases hsign with hsign | hsign
        · obtain ⟨tail, rfl⟩ := List.head?_eq_some_iff.mp hsign
          exact ⟨bytes "+", tail, rfl, .inr (.inl rfl), rfl⟩
        · obtain ⟨tail, rfl⟩ := List.head?_eq_some_iff.mp hsign
          exact ⟨bytes "-", tail, rfl, .inr (.inr rfl), rfl⟩
      · exact ⟨[], tail, rfl, .inl rfl, rfl⟩
    rw [hdigits] at h
    split_ifs at h with hhead
    cases h
    refine ⟨mark :: (sign ++ digits.takeWhile isDigit), ?_,
      .inr ⟨mark, sign, _, rfl, hletter, hsign, digits_of_head hhead⟩, stops_dropWhile digits⟩
    rw [List.cons_append, List.append_assoc, List.takeWhile_append_dropWhile]
  · cases h
    exact ⟨[], rfl, .inl rfl, hstop⟩

theorem skipFloat_eq_some_iff {afterInteger after : List UInt8} :
    skipFloat afterInteger = some after ↔
      ∃ tail, afterInteger = tail ++ after ∧ FloatFollows tail after := by
  unfold skipFloat
  constructor
  · intro h
    split_ifs at h with hdot
    obtain ⟨hdot, hdigit⟩ := hdot
    obtain ⟨rest, rfl⟩ := List.head?_eq_some_iff.mp hdot
    rw [List.drop_succ_cons, List.drop_zero] at h
    obtain ⟨after', hexponent, hend⟩ := Option.bind_eq_some_iff.mp h
    split_ifs at hend with hbad
    cases hend
    obtain ⟨exponent, hrest, hexponent, hstop⟩ :=
      exponent_of_skipExponent hexponent (stops_dropWhile rest)
    have hfraction : Digits (rest.takeWhile isDigit) := by
      apply digits_of_head
      simpa [List.head?_eq_getElem?] using hdigit
    refine ⟨'.'.toUInt8 :: (rest.takeWhile isDigit ++ exponent), ?_,
      ⟨_, exponent, rfl, hfraction, hexponent⟩, hstop, by simpa [Stops] using hbad⟩
    rw [List.cons_append, List.append_assoc, ← hrest, List.takeWhile_append_dropWhile]
  · rintro ⟨tail, rfl, ⟨fraction, exponent, rfl, hfraction, hexponent⟩, hdigit, hletter⟩
    have hstop : Stops isDigit (exponent ++ after) := by
      rcases hexponent with rfl | ⟨mark, sign, digits, rfl, hmark, -, -⟩
      · exact hdigit
      · rw [List.cons_append, stops_cons]
        rcases mem_eE.mp hmark with rfl | rfl <;> decide
    have hsecond : (('.'.toUInt8 :: (fraction ++ exponent) ++ after)[1]?).any isDigit := by
      have := hfraction.head (exponent ++ after)
      rw [List.head?_eq_getElem?] at this
      simpa [List.append_assoc] using this
    rw [if_pos ⟨rfl, hsecond⟩, List.cons_append, List.drop_succ_cons, List.drop_zero,
      List.append_assoc, dropWhile_append hfraction.2 hstop,
      skipExponent_of_exponent hexponent hdigit hletter, Option.bind_some, if_neg]
    rw [Bool.not_eq_true]
    exact hletter

/-! ## Numbers -/

theorem prefixBase_eq_some_iff {rest : List UInt8} {base : Nat} :
    prefixBase rest = some base ↔
      ∃ mark tail, rest = '0'.toUInt8 :: mark :: tail ∧ markBase mark = some base := by
  have hmarks : ∀ mark : UInt8, markBase mark =
      if mark = 'x'.toUInt8 ∨ mark = 'X'.toUInt8 then some 16
      else if mark = 'o'.toUInt8 ∨ mark = 'O'.toUInt8 then some 8
      else if mark = 'b'.toUInt8 ∨ mark = 'B'.toUInt8 then some 2
      else none := by decide +kernel
  unfold prefixBase
  constructor
  · intro h
    rw [ite_eq_iff] at h
    rcases h with ⟨hzero, h⟩ | ⟨-, h⟩
    · obtain ⟨tail, rfl⟩ := List.head?_eq_some_iff.mp hzero
      cases tail with
      | nil => simp at h
      | cons mark tail =>
        refine ⟨mark, tail, rfl, ?_⟩
        rw [hmarks]
        simpa using h
    · cases h
  · rintro ⟨mark, tail, rfl, hmark⟩
    rw [hmarks] at hmark
    simpa using hmark

theorem lexBasedInteger_ok_iff {total base : Nat} {mark : UInt8} {tail : List UInt8}
    {kind : TokenKind} {after : List UInt8} :
    lexBasedInteger total base ('0'.toUInt8 :: mark :: tail) = .ok (kind, after) ↔
      ∃ digits, tail = digits ++ after ∧ digits ≠ [] ∧
        (digits.all fun digit => (hexValue digit).any fun d => d.toNat < base) ∧
        Stops isHexDigit after ∧ digitsValue base digits < 2 ^ 63 ∧
        kind = .integer (Int64.ofNat (digitsValue base digits)) := by
  unfold lexBasedInteger
  simp only [List.drop_succ_cons, List.drop_zero]
  constructor
  · intro h
    split_ifs at h with hnil hbad
    obtain ⟨value, hvalue, heq⟩ := except_map_eq_ok.mp h
    cases heq
    obtain ⟨hne, hall, hlt, rfl⟩ := parseInteger_ok_iff.mp hvalue
    exact ⟨tail.takeWhile isHexDigit, List.takeWhile_append_dropWhile.symm, hne, hall,
      stops_dropWhile tail, hlt, rfl⟩
  · rintro ⟨digits, rfl, hne, hall, hstop, hlt, rfl⟩
    have hhex : digits.all isHexDigit := by
      rw [List.all_eq_true] at hall ⊢
      exact fun d hd => isHexDigit_of_any d base (hall d hd)
    have hgood : ¬(digits.any fun digit => !(hexValue digit).any fun d => d.toNat < base) := by
      rw [List.any_eq_true]
      rintro ⟨d, hd, hbad⟩
      rw [List.all_eq_true] at hall
      rw [hall d hd] at hbad
      cases hbad
    rw [takeWhile_append hhex hstop, dropWhile_append hhex hstop, if_neg hne, if_neg hgood,
      parseInteger_ok_iff.mpr ⟨hne, hall, hlt, rfl⟩]
    rfl

theorem markBase_of_digit : ∀ mark : UInt8, isDigit mark → markBase mark = none := by
  intro mark h
  simp [markBase, bytes, isDigit, Char.toUInt8] at h ⊢
  grind

theorem mem_marks_of_base : ∀ mark : UInt8, (markBase mark).isSome → mark ∈ bytes "xXoObBzZ" := by
  intro mark h
  simp [markBase, bytes, Char.toUInt8] at h ⊢
  grind

theorem mem_marks : ∀ mark : UInt8, mark ∈ bytes "xXoObBzZ" →
    (markBase mark).isSome ∨ mark = 'z'.toUInt8 ∨ mark = 'Z'.toUInt8 := by
  intro mark h
  simp [markBase, bytes, Char.toUInt8] at h ⊢
  grind

/-- A mark behind a number's leading zero stands behind the number. -/
theorem prefixBase_append {text rest : List UInt8} (htext : Digits text)
    (hrest : ∀ mark ∈ rest.head?, text = bytes "0" → markBase mark = none) :
    prefixBase (text ++ rest) = none := by
  rw [Option.eq_none_iff_forall_ne_some]
  intro base h
  obtain ⟨mark, tail, heq, hmark⟩ := prefixBase_eq_some_iff.mp h
  obtain ⟨hne, hall⟩ := htext
  cases text with
  | nil => exact hne rfl
  | cons first more =>
    rw [List.cons_append, List.cons.injEq] at heq
    obtain ⟨rfl, heq⟩ := heq
    cases more with
    | nil =>
      rw [List.nil_append] at heq
      rw [hrest mark (by rw [heq]; rfl) (by decide)] at hmark
      cases hmark
    | cons second more =>
      rw [List.cons_append, List.cons.injEq] at heq
      obtain ⟨rfl, -⟩ := heq
      rw [List.all_cons, List.all_cons, Bool.and_eq_true, Bool.and_eq_true] at hall
      rw [markBase_of_digit second hall.2.1] at hmark
      cases hmark

/-- A number, at a digit that no blob begins with. -/
theorem lexNumber_ok_iff {parseFloat : List UInt8 → Option UInt64} {total : Nat}
    {rest after : List UInt8} {kind : TokenKind} (hdigit : rest.head?.any isDigit = true)
    (hblob : ¬(rest.head? = some '0'.toUInt8 ∧
      (rest[1]? = some 'z'.toUInt8 ∨ rest[1]? = some 'Z'.toUInt8))) :
    lexNumber parseFloat total rest = .ok (kind, after) ↔
      ∃ text, rest = text ++ after ∧ SpellsNumber parseFloat kind text after := by
  unfold lexNumber
  constructor
  · intro h
    dsimp only at h
    split at h
    · rename_i base hbase
      obtain ⟨mark, tail, rfl, hmark⟩ := prefixBase_eq_some_iff.mp hbase
      obtain ⟨digits, rfl, hne, hall, hstop, hlt, rfl⟩ := lexBasedInteger_ok_iff.mp h
      exact ⟨'0'.toUInt8 :: mark :: digits, rfl, .based hmark hne hall hstop hlt⟩
    rename_i hlead
    have hdigits := digits_of_head hdigit
    have hsplit : rest = rest.takeWhile isDigit ++ rest.dropWhile isDigit :=
      List.takeWhile_append_dropWhile.symm
    split at h
    · rename_i after' hfloat
      obtain ⟨tail, htail, hfollows⟩ := skipFloat_eq_some_iff.mp hfloat
      have htext : rest = (rest.takeWhile isDigit ++ tail) ++ after' := by
        rw [List.append_assoc, ← htail, ← hsplit]
      have htake : rest.take (rest.length - after'.length) = rest.takeWhile isDigit ++ tail := by
        conv_lhs => rw [htext]
        rw [List.length_append, Nat.add_sub_cancel, List.take_left]
      rw [htake] at h
      split at h
      · rename_i bits hbits
        cases h
        exact ⟨_, htext, .float hdigits hfollows hbits⟩
      · cases h
    · rename_i hfloat
      obtain ⟨kind', hkind, heq⟩ := except_map_eq_ok.mp h
      cases heq
      obtain ⟨hlt, rfl⟩ := (finishInteger_ok_iff hdigits).mp hkind
      refine ⟨rest.takeWhile isDigit, hsplit, .plain hdigits (stops_dropWhile rest) ?_ ?_ hlt⟩
      · rintro ⟨tail, after', htail, hfollows⟩
        rw [skipFloat_eq_some_iff.mpr ⟨tail, htail, hfollows⟩] at hfloat
        cases hfloat
      · rintro ⟨hzero, mark, hmark, hmem⟩
        obtain ⟨tail, htail⟩ := List.head?_eq_some_iff.mp hmark
        have hrest : rest = '0'.toUInt8 :: mark :: tail := by
          rw [hsplit, hzero, htail]
          rfl
        rcases mem_marks mark hmem with hbase | hz
        · obtain ⟨base, hbase⟩ := Option.isSome_iff_exists.mp hbase
          rw [prefixBase_eq_some_iff.mpr ⟨mark, tail, hrest, hbase⟩] at hlead
          cases hlead
        · apply hblob
          rw [hrest]
          exact ⟨rfl, hz.imp (congrArg some) (congrArg some)⟩
  · rintro ⟨text, rfl, h⟩
    cases h with
    | plain htext hstop hfloat hmark hlt =>
      have hlead : prefixBase (text ++ after) = none := by
        apply prefixBase_append htext
        intro mark hhead hzero
        rw [Option.eq_none_iff_forall_ne_some]
        intro base hbase
        exact hmark ⟨hzero, mark, hhead, mem_marks_of_base mark (by rw [hbase]; rfl)⟩
      have hnone : skipFloat after = none := by
        rw [Option.eq_none_iff_forall_ne_some]
        intro after' hsome
        obtain ⟨tail, htail, hfollows⟩ := skipFloat_eq_some_iff.mp hsome
        exact hfloat ⟨tail, after', htail, hfollows⟩
      simp only [hlead, takeWhile_append htext.2 hstop, dropWhile_append htext.2 hstop, hnone]
      rw [(finishInteger_ok_iff htext).mpr ⟨hlt, rfl⟩]
      rfl
    | @based mark digits rest base hmark hne hall hstop hlt =>
      have hlead : prefixBase ('0'.toUInt8 :: mark :: digits ++ after) = some base :=
        prefixBase_eq_some_iff.mpr ⟨mark, digits ++ after, rfl, hmark⟩
      simp only [hlead]
      exact lexBasedInteger_ok_iff.mpr ⟨digits, rfl, hne, hall, hstop, hlt, rfl⟩
    | @float whole tail rest bits hwhole hfollows hbits =>
      have hfloat : skipFloat (tail ++ after) = some after :=
        skipFloat_eq_some_iff.mpr ⟨tail, rfl, hfollows⟩
      obtain ⟨⟨fraction, exponent, rfl, -, -⟩, -, -⟩ := hfollows
      have hlead : prefixBase (whole ++ ('.'.toUInt8 :: (fraction ++ exponent) ++ after)) = none := by
        apply prefixBase_append hwhole
        rintro mark hhead -
        cases hhead
        decide
      have hstop : Stops isDigit ('.'.toUInt8 :: (fraction ++ exponent) ++ after) := by
        rw [List.cons_append, stops_cons]
        decide
      have htake : (whole ++ ('.'.toUInt8 :: (fraction ++ exponent) ++ after)).take
          ((whole ++ ('.'.toUInt8 :: (fraction ++ exponent) ++ after)).length - after.length)
          = whole ++ '.'.toUInt8 :: (fraction ++ exponent) := by
        rw [← List.append_assoc, List.length_append, Nat.add_sub_cancel, List.take_left]
      rw [List.append_assoc]
      simp only [hlead, dropWhile_append hwhole.2 hstop, hfloat, htake, hbits]

/-! ## Blobs -/

theorem blobDigits_append {digits body rest : List UInt8} (h : BlobBody digits body)
    (hstop : Stops isHexDigit rest) (hdot : ¬BlobContinues rest) :
    blobDigits (body ++ rest) = (digits, rest) := by
  induction h with
  | nil =>
    cases rest with
    | nil => rfl
    | cons b rest =>
      rw [stops_cons] at hstop
      have hdot : ¬(b = '.'.toUInt8 ∧ rest.head?.any isHexDigit) := by
        rintro ⟨rfl, hnext⟩
        exact hdot ⟨rfl, by simpa [List.head?_eq_getElem?] using hnext⟩
      simp [blobDigits, hstop, hdot]
  | digit hd _ ih => simp [blobDigits, hd, ih]
  | @dot d digits text hd _ ih =>
    rw [List.cons_append, blobDigits, if_neg (by decide), if_pos ⟨rfl, by simpa using hd⟩, ih]

theorem blobBody_of_digits (rest : List UInt8) :
    ∃ body, rest = body ++ (blobDigits rest).2 ∧ BlobBody (blobDigits rest).1 body ∧
      Stops isHexDigit (blobDigits rest).2 ∧ ¬BlobContinues (blobDigits rest).2 := by
  fun_induction blobDigits rest
  case case1 => exact ⟨[], rfl, .nil, rfl, fun h => by cases h.1⟩
  case case2 byte rest hbyte ih =>
    obtain ⟨body, hrest, hbody, hstop, hdot⟩ := ih
    refine ⟨byte :: body, ?_, .digit hbyte hbody, hstop, hdot⟩
    rw [List.cons_append, ← hrest]
  case case3 byte rest _ hdot ih =>
    obtain ⟨rfl, hnext⟩ := hdot
    obtain ⟨body, hrest, hbody, hstop, hend⟩ := ih
    refine ⟨'.'.toUInt8 :: body, by rw [List.cons_append, ← hrest], ?_, hstop, hend⟩
    cases rest with
    | nil => cases hnext
    | cons d rest =>
      have hd : isHexDigit d := by simpa using hnext
      rw [blobDigits, if_pos hd] at hbody hrest ⊢
      -- The body begins with the digit behind the dot.
      cases hbody with
      | digit _ hbody => exact .dot hd (.digit hd hbody)
      | dot _ _ =>
        rw [List.cons_append, List.cons.injEq] at hrest
        rw [hrest.1] at hd
        exact absurd hd (by decide)
  case case4 byte rest hbyte hdot =>
    refine ⟨[], rfl, .nil, by simpa using hbyte, ?_⟩
    rintro ⟨hhead, hnext⟩
    cases hhead
    exact hdot ⟨rfl, by simpa [List.head?_eq_getElem?] using hnext⟩

theorem isNameContinue_of_hex : ∀ b : UInt8, isHexDigit b → isNameContinue b := by
  intro b h
  simp [isHexDigit, hexValue, isNameContinue, isAlphabetic, isUpper, isLower, isDigit,
    Char.toUInt8] at h ⊢
  grind

theorem lexBlob_ok_iff {total : Nat} {mark : UInt8} {tail after : List UInt8} {kind : TokenKind} :
    lexBlob total ('0'.toUInt8 :: mark :: tail) = .ok (kind, after) ↔
      ∃ digits body, tail = body ++ after ∧ BlobBody digits body ∧ digits.length % 2 = 0 ∧
        Stops isNameContinue after ∧ ¬BlobContinues after ∧ kind = .blob (blobBytes digits) := by
  unfold lexBlob
  simp only [List.drop_succ_cons, List.drop_zero]
  constructor
  · intro h
    obtain ⟨body, htail, hbody, -, hend⟩ := blobBody_of_digits tail
    split_ifs at h with hname heven
    cases h
    exact ⟨_, body, htail, hbody, by omega, by simpa [Stops] using hname, hend, rfl⟩
  · rintro ⟨digits, body, rfl, hbody, heven, hstop, hend, rfl⟩
    have hhex : Stops isHexDigit after := by
      cases after with
      | nil => rfl
      | cons b after =>
        rw [stops_cons] at hstop ⊢
        exact Bool.eq_false_iff.mpr fun h => by rw [isNameContinue_of_hex b h] at hstop; cases hstop
    have hname : ¬(after.head?.any isNameContinue = true) := by simpa [Stops] using hstop
    rw [blobDigits_append hbody hhex hend]
    dsimp only
    rw [if_neg hname, if_neg (by omega)]

end Oxvim.Eval.Lexer
