import Oxvim.Lib.Ascii
import Oxvim.Lib.Trim
import Oxvim.Lib.Utf8Boundary

/-!
# Assignment targets

`:let [a, b; rest] = ...` gives a target whose brackets are counted by `balancedBrackets`, whose
semicolon is found by `splitDestructureParts`, and whose parts are cut at the commas by
`splitTopLevel`. Each of the three reads the bytes on its own, counts brackets and notes an open
string.

What would end the editor is `none`: a counter below zero, a slice out of range or inside a character.
-/

namespace Oxvim.Editor.Lvalue

open Lib Lib.Ascii

/-- `char::is_whitespace`. -/
def isWhitespace (c : Char) : Bool :=
  let n := c.toNat
  (9 ≤ n && n ≤ 13) || n == 0x20 || n == 0x85 || n == 0xA0 || n == 0x1680 ||
    (0x2000 ≤ n && n ≤ 0x200A) || n == 0x2028 || n == 0x2029 || n == 0x202F || n == 0x205F ||
    n == 0x3000

/-- `str::trim`. -/
def trim (text : List UInt8) : List UInt8 :=
  match Utf8.decode? text with
  | some cs => Utf8.encode (Trim.trim isWhitespace cs)
  | none => text

/-- `str::is_char_boundary`. -/
def isCharBoundary (text : List UInt8) (index : Nat) : Bool :=
  match text[index]? with
  | some byte => byte &&& 0xC0 != 0x80
  | none => index == text.length

/-- `&text[start..stop]`. -/
def slice (text : List UInt8) (start stop : Nat) : Option (List UInt8) :=
  if start ≤ stop && isCharBoundary text start && isCharBoundary text stop then
    some ((text.take stop).drop start)
  else none

def isQuote (byte : UInt8) : Bool := byte == '\''.toUInt8 || byte == '"'.toUInt8

def opensBracket (byte : UInt8) : Bool :=
  byte == '('.toUInt8 || byte == '['.toUInt8 || byte == '\x7b'.toUInt8

def closesBracket (byte : UInt8) : Bool :=
  byte == ')'.toUInt8 || byte == ']'.toUInt8 || byte == '\x7d'.toUInt8

/-- An error with its code. -/
structure LvalueError where
  code : String
  message : String
  deriving DecidableEq

/-! ## The three scans -/

/-- The loop of `balanced_brackets`. -/
def bracketDepth : List UInt8 → (quote : Option UInt8) → (depth : Nat) → Option Nat
  | [], _, depth => some depth
  | byte :: rest, some active, depth =>
    bracketDepth rest (if byte == active then none else some active) depth
  | byte :: rest, none, depth =>
    if isQuote byte then bracketDepth rest (some byte) depth
    else if byte == '['.toUInt8 then bracketDepth rest none (depth + 1)
    else if byte == ']'.toUInt8 then
      match depth with
      | 0 => none
      | depth + 1 => bracketDepth rest none depth
    else bracketDepth rest none depth

/-- What is between an opening bracket at the start and a closing one at the end. -/
def stripBrackets : List UInt8 → Option (List UInt8)
  | [] => none
  | byte :: rest =>
    if byte == '['.toUInt8 && rest.getLast? == some ']'.toUInt8 then some rest.dropLast else none

def balancedBrackets (text : List UInt8) : Option (Option (List UInt8)) :=
  let trimmed := trim text
  match stripBrackets trimmed with
  | none => some none
  | some inner => (bracketDepth trimmed none 0).map fun depth =>
    if depth == 0 then some inner else none

/-- The loop of `split_top_level`, with the parts found so far. -/
def splitTopLevelFrom (source : List UInt8) (delimiter : UInt8) (exact : Bool) (rest : List UInt8)
    (index : Nat) (start : Nat) (quote : Option UInt8) (depth : Nat) (result : List (List UInt8)) :
    Option (List (List UInt8)) :=
  match rest, quote with
  | [], _ =>
    if start < source.length then
      (slice source start source.length).map fun part => result ++ [trim part]
    else some result
  | byte :: rest, some active =>
    let closed := byte == active && (index == 0 || source[index - 1]? != some '\\'.toUInt8)
    splitTopLevelFrom source delimiter exact rest (index + 1) start
      (if closed then none else some active) depth result
  | byte :: rest, none =>
    if isQuote byte then
      splitTopLevelFrom source delimiter exact rest (index + 1) start (some byte) depth result
    else if opensBracket byte then
      splitTopLevelFrom source delimiter exact rest (index + 1) start none (depth + 1) result
    else if closesBracket byte then
      splitTopLevelFrom source delimiter exact rest (index + 1) start none (depth - 1) result
    else if depth == 0 && (byte == delimiter ||
        (!exact && delimiter == ' '.toUInt8 && isAsciiWhitespace byte)) then
      let skipped := (rest.takeWhile isAsciiWhitespace).length
      let next := index + 1 + skipped
      if start < index then
        match slice source start index with
        | none => none
        | some part => splitTopLevelFrom source delimiter exact (rest.dropWhile isAsciiWhitespace)
          next next none depth (result ++ [trim part])
      else splitTopLevelFrom source delimiter exact (rest.dropWhile isAsciiWhitespace) next next none
        depth result
    else splitTopLevelFrom source delimiter exact rest (index + 1) start none depth result
termination_by rest.length
decreasing_by
  all_goals
    have := List.length_dropWhile_le isAsciiWhitespace rest
    simp only [List.length_cons]
    omega

def splitTopLevel (source : List UInt8) (delimiter : UInt8) (exact : Bool) :
    Option (List (List UInt8)) :=
  splitTopLevelFrom source delimiter exact source 0 0 none 0 []

def splitCommaArgs (source : List UInt8) : Option (List (List UInt8)) :=
  splitTopLevel source ','.toUInt8 true

/-- What a target list is split into: its targets, and the one for the rest of the list. -/
abbrev Parts := List (List UInt8) × Option (List UInt8)

/-- What `split_destructure_parts` does at the semicolon it stops at. -/
def splitAtSemicolon (source : List UInt8) (index : Nat) : Option (Except LvalueError Parts) :=
  match slice source 0 index, slice source (index + 1) source.length with
  | some left, some right =>
    if (trim right).isEmpty then some (.error ⟨"E688", "More targets than List items"⟩)
    else if (trim left).contains ';'.toUInt8 then
      some (.error ⟨"E15", "Invalid destructure target"⟩)
    else (splitCommaArgs (trim left)).map fun parts => .ok (parts, some (trim right))
  | _, _ => none

/-- The loop of `split_destructure_parts`. -/
def splitDestructureFrom (source : List UInt8) : (rest : List UInt8) → (index : Nat) →
    (quote : Option UInt8) → (depth : Nat) → Option (Except LvalueError Parts)
  | [], _, _, _ => (splitCommaArgs source).map fun parts => .ok (parts, none)
  | byte :: rest, index, some active, depth =>
    splitDestructureFrom source rest (index + 1) (if byte == active then none else some active) depth
  | byte :: rest, index, none, depth =>
    if isQuote byte then splitDestructureFrom source rest (index + 1) (some byte) depth
    else if opensBracket byte then splitDestructureFrom source rest (index + 1) none (depth + 1)
    else if closesBracket byte then splitDestructureFrom source rest (index + 1) none (depth - 1)
    else if depth == 0 && byte == ';'.toUInt8 then splitAtSemicolon source index
    else splitDestructureFrom source rest (index + 1) none depth

def splitDestructureParts (source : List UInt8) : Option (Except LvalueError Parts) :=
  splitDestructureFrom source source 0 none 0

/-! ## Slices -/

section Slices

variable {text : List UInt8}

/-- A text is some characters. -/
abbrev Valid (text : List UInt8) : Prop := (Utf8.decode? text).isSome

theorem isCharBoundary_iff (h : Valid text) {k : Nat} :
    isCharBoundary text k = true ↔ Utf8.Boundary text k := by
  rw [Utf8.boundary_iff h, isCharBoundary]
  cases hb : text[k]? with
  | none =>
    have hle := List.getElem?_eq_none_iff.mp hb
    simp only [beq_iff_eq, reduceCtorEq, false_implies, implies_true, and_true]
    omega
  | some b =>
    have hlt := (List.getElem?_eq_some_iff.mp hb).1
    simp [hlt.le]

theorem boundary_zero (h : Valid text) : Utf8.Boundary text 0 := by
  obtain ⟨cs, hcs⟩ := Option.isSome_iff_exists.mp h
  exact ⟨[], cs, ((Utf8.decode?_eq_some_iff).mp hcs).symm, rfl⟩

theorem boundary_length (h : Valid text) : Utf8.Boundary text text.length := by
  obtain ⟨cs, hcs⟩ := Option.isSome_iff_exists.mp h
  rw [Utf8.decode?_eq_some_iff] at hcs
  exact ⟨cs, [], by rw [List.append_nil, hcs], by rw [hcs]⟩

/-- Between boundaries a slice is a text again. -/
theorem exists_slice (h : Valid text) {start stop : Nat} (hstart : Utf8.Boundary text start)
    (hstop : Utf8.Boundary text stop) (hle : start ≤ stop) :
    slice text start stop = some ((text.take stop).drop start) ∧
      Valid ((text.take stop).drop start) := by
  constructor
  · rw [slice, (isCharBoundary_iff h).mpr hstart, (isCharBoundary_iff h).mpr hstop]
    simp [hle]
  · have htake := (Utf8.decode?_cut h ((Utf8.boundary_iff h).mp hstop).2).1
    refine (Utf8.decode?_cut htake fun b hb => ?_).2
    rw [List.getElem?_take] at hb
    split at hb
    · exact ((Utf8.boundary_iff h).mp hstart).2 b hb
    · cases hb

theorem trim_encode (cs : List Char) :
    trim (Utf8.encode cs) = Utf8.encode (Trim.trim isWhitespace cs) := by
  rw [trim, Utf8.decode?_encode]

theorem valid_trim (h : Valid text) : Valid (trim text) := by
  obtain ⟨cs, hcs⟩ := Option.isSome_iff_exists.mp h
  rw [trim, hcs]
  simp only [Valid, Utf8.decode?_encode, Option.isSome_some]

end Slices

/-! ## No slice fails -/

section Total

variable {source rest : List UInt8} {index start depth : Nat} {quote : Option UInt8}

theorem isAsciiWhitespace_lt {byte : UInt8} (h : isAsciiWhitespace byte = true) : byte < 0x80 := by
  simp only [isAsciiWhitespace, Bool.or_eq_true, beq_iff_eq] at h
  rcases h with (((rfl | rfl) | rfl) | rfl) | rfl <;> decide

/-- What has been read is known from what is left. -/
theorem getElem?_of_drop {byte : UInt8} (h : source.drop index = byte :: rest) :
    source[index]? = some byte ∧ source.drop (index + 1) = rest := by
  constructor
  · rw [← List.head?_drop, h, List.head?_cons]
  · rw [← List.tail_drop, h, List.tail_cons]

/-- Behind ASCII blanks that follow a boundary is one. -/
theorem boundary_skip (h : Valid source) {k : Nat} (hk : Utf8.Boundary source k)
    (hrest : source.drop k = rest) :
    Utf8.Boundary source (k + (rest.takeWhile isAsciiWhitespace).length) ∧
      source.drop (k + (rest.takeWhile isAsciiWhitespace).length)
        = rest.dropWhile isAsciiWhitespace := by
  induction rest generalizing k with
  | nil => exact ⟨hk, hrest⟩
  | cons byte rest ih =>
    by_cases hbyte : isAsciiWhitespace byte = true
    · obtain ⟨hget, hdrop⟩ := getElem?_of_drop hrest
      have hnext := (Utf8.boundary_of_ascii h hget (isAsciiWhitespace_lt hbyte)).2
      have hskip := ih hnext hdrop
      rw [List.takeWhile_cons_of_pos hbyte, List.dropWhile_cons_of_pos hbyte, List.length_cons,
        Nat.add_comm _ 1, ← Nat.add_assoc]
      exact hskip
    · rw [List.takeWhile_cons_of_neg hbyte, List.dropWhile_cons_of_neg hbyte]
      exact ⟨hk, hrest⟩

/-- Cutting a text at an ASCII delimiter slices it between characters. -/
theorem splitTopLevelFrom_isSome (h : Valid source) {delimiter : UInt8} (hascii : delimiter < 0x80)
    (exact : Bool) (hrest : source.drop index = rest) (hstart : Utf8.Boundary source start)
    (hle : start ≤ index) (result : List (List UInt8)) :
    (splitTopLevelFrom source delimiter exact rest index start quote depth result).isSome := by
  -- A byte that is cut at is ASCII.
  have hcut : ∀ {depth : Nat} {byte : UInt8}, (depth == 0 && (byte == delimiter ||
      (!exact && delimiter == ' '.toUInt8 && isAsciiWhitespace byte))) = true → byte < 0x80 := by
    intro depth byte hbyte
    simp only [Bool.and_eq_true, Bool.or_eq_true, beq_iff_eq] at hbyte
    rcases hbyte.2 with rfl | ⟨-, hspace⟩
    · exact hascii
    · exact isAsciiWhitespace_lt hspace
  fun_induction splitTopLevelFrom source delimiter exact rest index start quote depth result with
  | case1 index start quote depth result hlt =>
    obtain ⟨hslice, -⟩ := exists_slice h hstart (boundary_length h) hlt.le
    rw [hslice]
    rfl
  | case2 => rfl
  | case3 index start depth result byte rest active closed ih =>
    obtain ⟨-, hdrop⟩ := getElem?_of_drop hrest
    exact ih hdrop hstart (by omega)
  | case4 index start depth result byte rest hquote ih =>
    obtain ⟨-, hdrop⟩ := getElem?_of_drop hrest
    exact ih hdrop hstart (by omega)
  | case5 index start depth result byte rest hquote hopens ih =>
    obtain ⟨-, hdrop⟩ := getElem?_of_drop hrest
    exact ih hdrop hstart (by omega)
  | case6 index start depth result byte rest hquote hopens hcloses ih =>
    obtain ⟨-, hdrop⟩ := getElem?_of_drop hrest
    exact ih hdrop hstart (by omega)
  | case7 index start depth result byte rest hquote hopens hcloses hbyte hlt hslice =>
    obtain ⟨hget, -⟩ := getElem?_of_drop hrest
    have hindex := (Utf8.boundary_of_ascii h hget (hcut hbyte)).1
    rw [(exists_slice h hstart hindex hlt.le).1] at hslice
    cases hslice
  | case8 index start depth result byte rest hquote hopens hcloses hbyte skipped next hlt part hslice
      ih =>
    obtain ⟨hget, hdrop⟩ := getElem?_of_drop hrest
    have hskip := boundary_skip h (Utf8.boundary_of_ascii h hget (hcut hbyte)).2 hdrop
    exact ih hskip.2 hskip.1 le_rfl
  | case9 index start depth result byte rest hquote hopens hcloses hbyte skipped next hlt ih =>
    obtain ⟨hget, hdrop⟩ := getElem?_of_drop hrest
    have hskip := boundary_skip h (Utf8.boundary_of_ascii h hget (hcut hbyte)).2 hdrop
    exact ih hskip.2 hskip.1 le_rfl
  | case10 index start depth result byte rest hquote hopens hcloses hbyte ih =>
    obtain ⟨-, hdrop⟩ := getElem?_of_drop hrest
    exact ih hdrop hstart (by omega)

theorem splitCommaArgs_isSome (h : Valid source) : (splitCommaArgs source).isSome :=
  splitTopLevelFrom_isSome h (by decide) true List.drop_zero (boundary_zero h) le_rfl []

theorem splitAtSemicolon_isSome (h : Valid source) (hget : source[index]? = some ';'.toUInt8) :
    (splitAtSemicolon source index).isSome := by
  have hindex := Utf8.boundary_of_ascii h hget (by decide)
  have hlt := (List.getElem?_eq_some_iff.mp hget).1
  obtain ⟨hleft, hvalid⟩ := exists_slice h (boundary_zero h) hindex.1 (Nat.zero_le _)
  obtain ⟨hright, -⟩ := exists_slice h hindex.2 (boundary_length h) hlt
  rw [splitAtSemicolon, hleft, hright]
  simp only
  split
  · rfl
  · split
    · rfl
    · rw [Option.isSome_map]
      exact splitCommaArgs_isSome (valid_trim hvalid)

theorem splitDestructureFrom_isSome (h : Valid source) (hrest : source.drop index = rest) :
    (splitDestructureFrom source rest index quote depth).isSome := by
  fun_induction splitDestructureFrom source rest index quote depth with
  | case1 => rw [Option.isSome_map]; exact splitCommaArgs_isSome h
  | case6 index depth byte rest hquote hopens hcloses hbyte =>
    simp only [Bool.and_eq_true, beq_iff_eq] at hbyte
    obtain ⟨hget, -⟩ := getElem?_of_drop hrest
    exact splitAtSemicolon_isSome h (hbyte.2 ▸ hget)
  | _ =>
    rename_i ih
    exact ih (getElem?_of_drop hrest).2

theorem splitDestructureParts_isSome (h : Valid source) : (splitDestructureParts source).isSome :=
  splitDestructureFrom_isSome h List.drop_zero

end Total

/-! ## The counter of open brackets -/

section Counter

/-- The bytes that a scan which lets the next quote end a string finds outside of strings. -/
def unquoted : (quote : Option UInt8) → List UInt8 → List UInt8
  | _, [] => []
  | some active, byte :: rest => unquoted (if byte == active then none else some active) rest
  | none, byte :: rest =>
    if isQuote byte then unquoted (some byte) rest else byte :: unquoted none rest

/-- Nowhere have more brackets been closed than opened. -/
def NeverBelow (depth : Nat) (text : List UInt8) : Prop :=
  ∀ k, (text.take k).count ']'.toUInt8 ≤ depth + (text.take k).count '['.toUInt8

variable {text rest : List UInt8} {depth : Nat} {quote : Option UInt8}

theorem neverBelow_nil : NeverBelow depth [] := by
  intro k
  simp

theorem neverBelow_cons {byte : UInt8} : NeverBelow depth (byte :: rest) ↔
    if byte = '['.toUInt8 then NeverBelow (depth + 1) rest
    else if byte = ']'.toUInt8 then depth ≠ 0 ∧ NeverBelow (depth - 1) rest
    else NeverBelow depth rest := by
  have hne : ('['.toUInt8 == ']'.toUInt8) = false := by decide
  have hne' : (']'.toUInt8 == '['.toUInt8) = false := by decide
  constructor
  · intro h
    have hnext := fun k => h (k + 1)
    simp only [List.take_succ_cons, List.count_cons] at hnext
    split
    · next hopen =>
      subst hopen
      intro k
      have := hnext k
      simp only [hne, beq_self_eq_true, if_true, Bool.false_eq_true, if_false] at this
      omega
    · next hopen =>
      split
      · next hclose =>
        subst hclose
        simp only [hne', beq_self_eq_true, if_true, Bool.false_eq_true, if_false] at hnext
        refine ⟨?_, fun k => ?_⟩
        · have := hnext 0
          simp at this
          omega
        · have := hnext k
          omega
      · next hclose =>
        intro k
        have := hnext k
        simp only [beq_iff_eq, hopen, hclose, if_false] at this
        exact this
  · intro h k
    cases k with
    | zero => simp
    | succ k =>
      simp only [List.take_succ_cons, List.count_cons]
      split at h
      · next hopen =>
        subst hopen
        have := h k
        simp only [hne, beq_self_eq_true, if_true, Bool.false_eq_true, if_false]
        omega
      · next hopen =>
        split at h
        · next hclose =>
          subst hclose
          have := h.2 k
          have := h.1
          simp only [hne', beq_self_eq_true, if_true, Bool.false_eq_true, if_false]
          omega
        · next hclose =>
          have := h k
          simp only [beq_iff_eq, hopen, hclose, if_false]
          exact this

/-- The counter stays above zero just where no closing bracket is too many. -/
theorem bracketDepth_isSome_iff : (bracketDepth text quote depth).isSome ↔
    NeverBelow depth (unquoted quote text) := by
  fun_induction bracketDepth text quote depth with
  | case1 quote depth =>
    rw [unquoted]
    exact iff_of_true rfl neverBelow_nil
  | case2 byte rest active depth ih => rw [unquoted, ih]
  | case3 byte rest depth hquote ih => rw [unquoted, if_pos hquote, ih]
  | case4 byte rest depth hquote hopen ih =>
    rw [unquoted, if_neg hquote, neverBelow_cons, if_pos (beq_iff_eq.mp hopen), ih]
  | case5 byte rest hquote hopen hclose =>
    rw [unquoted, if_neg hquote, neverBelow_cons, if_neg (hopen ∘ beq_iff_eq.mpr),
      if_pos (beq_iff_eq.mp hclose)]
    simp
  | case6 byte rest hquote hopen hclose depth ih =>
    rw [unquoted, if_neg hquote, neverBelow_cons, if_neg (hopen ∘ beq_iff_eq.mpr),
      if_pos (beq_iff_eq.mp hclose), ih]
    simp
  | case7 byte rest depth hquote hopen hclose ih =>
    rw [unquoted, if_neg hquote, neverBelow_cons, if_neg (hopen ∘ beq_iff_eq.mpr),
      if_neg (hclose ∘ beq_iff_eq.mpr), ih]

/-- **The scans of a target end.** No slice fails, and the counter is taken below zero only where a text
in brackets closes one too many. -/
theorem scans_total (cs : List Char) :
    (splitDestructureParts (Utf8.encode cs)).isSome ∧
      ((balancedBrackets (Utf8.encode cs)).isSome ↔
        ((stripBrackets (trim (Utf8.encode cs))).isSome →
          NeverBelow 0 (unquoted none (trim (Utf8.encode cs))))) := by
  constructor
  · apply splitDestructureParts_isSome
    rw [Valid, Utf8.decode?_encode]
    rfl
  · simp only [balancedBrackets]
    cases hstrip : stripBrackets (trim (Utf8.encode cs)) with
    | none => simp
    | some inner =>
      rw [Option.isSome_map, bracketDepth_isSome_iff]
      simp

/-- A bracket that closes nothing ends the editor. -/
example : balancedBrackets (Utf8.encode ['[', ']', ']']) = none := by
  have htrim : trim (Utf8.encode ['[', ']', ']']) = Utf8.encode ['[', ']', ']'] := by
    rw [trim_encode]
    rfl
  rw [balancedBrackets, htrim]
  rfl

end Counter

end Oxvim.Editor.Lvalue
