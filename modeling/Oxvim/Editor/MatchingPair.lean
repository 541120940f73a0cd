import Oxvim.Editor.WordMotion
import Oxvim.Lib.Brackets

/-!
# The `%` motion

`%` tries comments, a directive at or behind the cursor, brackets and at last the directive of the
line. The bracket scan and the directive scan are depth counts, over the joined lines and over the
lines themselves.
-/

namespace Oxvim.Editor

open Lib Lib.Ascii Lib.Brackets Lib.Runs Text

/-! ## Columns -/

/-- The last character boundary before `col`. What is no UTF-8 has one at every byte. -/
def prevCharBoundary (line : Line) (col : Nat) : Nat :=
  let col := min col line.length
  match Utf8.decode? line with
  | none => col - 1
  | some _ => skipBack (fun i => !isUtf8Boundary line i) (col - 1)

/-- The nearest position the cursor can stand on. -/
def clamp (lines : List Line) (pos : Position) : Position :=
  let lnum := min (max pos.lnum 1) (max lines.length 1)
  let col := match lines[lnum - 1]? with
    | none => 0
    | some line => prevCharBoundary line (min pos.col (prevCharBoundary line line.length) + 1)
  ⟨lnum, col⟩

/-! ## Comments -/

/-- Whether the column is on the start or on the end of a comment. -/
def commentForward (line : Line) (col : Nat) : Option Bool :=
  if ((line)[col]? = some '/'.toUInt8 ∧ (line)[col + 1]? = some '*'.toUInt8) ∨
      ((line)[col]? = some '*'.toUInt8 ∧ col > 0 ∧ (line)[col - 1]? = some '/'.toUInt8) then
    some true
  else if ((line)[col]? = some '*'.toUInt8 ∧ (line)[col + 1]? = some '/'.toUInt8) ∨
      ((line)[col]? = some '/'.toUInt8 ∧ col > 0 ∧ (line)[col - 1]? = some '*'.toUInt8) then
    some false
  else none

def matchComment (lines : List Line) (start : Position) : Option Position := do
  let line ← lineAt? lines start.lnum
  let forward ← commentForward line start.col
  let (bytes, starts) := flatten lines
  let here := offsetOf starts start
  if forward then
    let index ← (List.range' (here + 2) (bytes.length - 1 - (here + 2))).find? fun index =>
      bytes[index]? = some '*'.toUInt8 ∧ bytes[index + 1]? = some '/'.toUInt8
    return posOf lines starts (index + 1)
  else
    let index ← (List.range' 1 (here - 1)).reverse.find? fun index =>
      bytes[index]? = some '*'.toUInt8 ∧ bytes[index - 1]? = some '/'.toUInt8
    return posOf lines starts (index - 1)

/-! ## Brackets -/

/-- The mate of a bracket, and whether it is to the right. -/
def bracketMate (token : UInt8) : Option (UInt8 × Bool) :=
  if token = '('.toUInt8 then some (')'.toUInt8, true)
  else if token = '['.toUInt8 then some (']'.toUInt8, true)
  else if token = '\x7b'.toUInt8 then some ('\x7d'.toUInt8, true)
  else if token = '<'.toUInt8 then some ('>'.toUInt8, true)
  else if token = ')'.toUInt8 then some ('('.toUInt8, false)
  else if token = ']'.toUInt8 then some ('['.toUInt8, false)
  else if token = '\x7d'.toUInt8 then some ('\x7b'.toUInt8, false)
  else if token = '>'.toUInt8 then some ('<'.toUInt8, false)
  else none

/-- The bytes a scan for a bracket stops at. -/
def isBracket (byte : UInt8) : Bool := (bracketMate byte).isSome

/-- The index at which a depth that starts at `depth` becomes zero. -/
def braceScan (token mate : UInt8) : Nat → List UInt8 → Option Nat
  | _, [] => none
  | depth, byte :: rest =>
    let depth := if byte = token then depth + 1 else if byte = mate then depth - 1 else depth
    if depth = 0 then some 0 else (braceScan token mate depth rest).map (· + 1)

def matchBrace (lines : List Line) (start : Position) : Option Position := do
  let (bytes, starts) := flatten lines
  let here := offsetOf starts start
  let here := here + (bytes.drop here).findIdx isBracket
  let token ← bytes[here]?
  let (mate, forward) ← bracketMate token
  if forward then
    let index ← braceScan token mate 1 (bytes.drop (here + 1))
    return posOf lines starts (here + 1 + index)
  else
    let index ← braceScan token mate 1 (bytes.take here).reverse
    return posOf lines starts (here - 1 - index)

/-! ## Directives -/

inductive HashKind where
  | if
  | el
  | endif
  deriving DecidableEq, Repr

/-- The directive a word begins with. -/
def directiveKind (word : List UInt8) : Option HashKind :=
  if ['i'.toUInt8, 'f'.toUInt8].isPrefixOf word then some .if
  else if ['e'.toUInt8, 'n'.toUInt8, 'd'.toUInt8, 'i'.toUInt8, 'f'.toUInt8].isPrefixOf word then
    some .endif
  else if ['e'.toUInt8, 'l'.toUInt8].isPrefixOf word then some .el
  else none

/-- The column of the `#` of a directive line and the directive. -/
def hashKind (line : Line) : Option (Nat × HashKind) := do
  let hash ← line.findIdx? (fun byte => !isAsciiWhitespace byte)
  if (line)[hash]? = some '#'.toUInt8 then
    let kind ← directiveKind ((line.drop (hash + 1)).dropWhile isAsciiWhitespace)
    some (hash, kind)
  else none

def hashAtOrBefore (line : Line) (col : Nat) : Bool :=
  (hashKind line).any fun hash => col ≤ hash.1

/-- The search downward for the rest of a group, the first of the lines having the number `lnum`. -/
def hashForward (depth lnum : Nat) : List Line → Option Position
  | [] => none
  | line :: rest =>
    match hashKind line with
    | none => hashForward depth (lnum + 1) rest
    | some (_, .if) => hashForward (depth + 1) (lnum + 1) rest
    | some (col, .el) => if depth = 0 then some ⟨lnum, col⟩ else hashForward depth (lnum + 1) rest
    | some (col, .endif) =>
      if depth = 0 then some ⟨lnum, col⟩ else hashForward (depth - 1) (lnum + 1) rest

/-- The search upward for the `#if`, over the lines before an `#endif` in reverse. -/
def hashBackward (depth : Nat) : List Line → Option Position
  | [] => none
  | line :: rest =>
    match hashKind line with
    | none => hashBackward depth rest
    | some (col, .if) =>
      if depth = 0 then some ⟨rest.length + 1, col⟩ else hashBackward (depth - 1) rest
    | some (_, .endif) => hashBackward (depth + 1) rest
    | some (_, .el) => hashBackward depth rest

def matchHash (lines : List Line) (start : Position) : Option Position := do
  let line ← lineAt? lines start.lnum
  let (_, kind) ← hashKind line
  match kind with
  | .endif => hashBackward 0 (lines.take (start.lnum - 1)).reverse
  | _ => hashForward 0 (start.lnum + 1) (lines.drop start.lnum)

/-! ## The motion -/

def matchingPair (lines : List Line) (start : Position) : Option Position :=
  match matchComment lines start with
  | some target => some target
  | none => do
    let line ← lineAt? lines start.lnum
    if hashAtOrBefore line start.col then matchHash lines start
    else match matchBrace lines start with
      | some target => some target
      | none => matchHash lines start

/-- `resolve` of `%`. -/
def percent (lines : List Line) (start : Position) : Option Motion := do
  let target ← matchingPair lines start
  return { target := clamp lines target
           kind := .characterWise
           inclusive := true
           isJump := true
           keepCurswant := false }

/-- Where `%` goes. -/
def percentTarget (lines : List Line) (start : Position) : Option Position :=
  (percent lines start).map Motion.target

/-- Where `%` goes when it is repeated. -/
def percentAgain (lines : List Line) (start : Position) (times : Nat) : Option Position :=
  (fun pos => pos.bind (percentTarget lines))^[times] (some start)

/-! ## The matching -/

def bracketKinds : List (UInt8 × UInt8) :=
  [('('.toUInt8, ')'.toUInt8), ('['.toUInt8, ']'.toUInt8), ('\x7b'.toUInt8, '\x7d'.toUInt8),
    ('<'.toUInt8, '>'.toUInt8)]

/-- One byte opens a span and another one closes it. -/
def byteDelims (token mate : UInt8) : Delims UInt8 where
  opens := fun byte => byte = token
  closes := fun byte => byte ≠ token ∧ byte = mate
  splits := fun _ => false
  opens_closes := by simp
  opens_splits := by simp
  closes_splits := by simp

/-- The positions are of an opening bracket and of the closing one that belongs to it in the text. -/
structure Paired (lines : List Line) (kind : UInt8 × UInt8) (p q : Position) : Prop where
  opens : byteAt? lines p = some kind.1
  closes : byteAt? lines q = some kind.2
  linked : Linked (byteDelims kind.1 kind.2) (flatten lines).1 (offsetOf (flatten lines).2 p)
    (offsetOf (flatten lines).2 q)

/-- The partner of a bracket. -/
def Partner (lines : List Line) (p q : Position) : Prop :=
  ∃ kind ∈ bracketKinds, Paired lines kind p q ∨ Paired lines kind q p

/-- The directives of lines. -/
def hashDelims : Delims Line where
  opens := fun line => (hashKind line).map Prod.snd = some .if
  closes := fun line => (hashKind line).map Prod.snd = some .endif
  splits := fun line => (hashKind line).map Prod.snd = some .el
  opens_closes := by
    intro line h
    rw [decide_eq_true_eq] at h
    simp [h]
  opens_splits := by
    intro line h
    rw [decide_eq_true_eq] at h
    simp [h]
  closes_splits := by
    intro line h
    rw [decide_eq_true_eq] at h
    simp [h]

/-- The next directive of a group, the first one being next to the last one. -/
def DirectiveNext (lines : List Line) (i j : Nat) : Prop :=
  Linked hashDelims lines i j ∨ Linked hashDelims.unsplit lines j i

/-- The column of the `#` of a line. -/
def hashCol (line : Line) : Nat := ((hashKind line).map Prod.fst).getD 0

/-- The position of a directive. -/
def directive (lines : List Line) (i : Nat) : Position := ⟨i + 1, hashCol (lines.getD i [])⟩

/-- What `%` does on a bracket. -/
structure BracketLaw (lines : List Line) (p : Position) : Prop where
  partner : ∀ q, percentTarget lines p = some q ↔ Partner lines p q
  back : ∀ q, Partner lines p q → percentTarget lines q = some p
  unmatched : percentTarget lines p = none ↔ ∀ q, ¬Partner lines p q

/-- In well nested directives, `%` goes around the group of a directive, from anywhere up to its
`#`. -/
def CycleLaw (lines : List Line) : Prop :=
  Nested hashDelims lines 0 lines.length → ∀ i line, lines[i]? = some line → (hashKind line).isSome →
    ∃ group, IsGroup hashDelims lines group ∧ group.Nodup ∧ i ∈ group ∧
      ∀ s col, group[s]? = some i → col ≤ hashCol line → ∀ times,
        percentAgain lines ⟨i + 1, col⟩ (times + 1)
          = (group[(s + times + 1) % group.length]?).map (directive lines)

def PercentLaw (lines : List Line) : Prop :=
  (∀ p byte, byteAt? lines p = some byte → isBracket byte = true → BracketLaw lines p) ∧
    CycleLaw lines

/-! ## Bytes -/

theorem mem_bracketKinds {kind : UInt8 × UInt8} : kind ∈ bracketKinds ↔
    kind = ('('.toUInt8, ')'.toUInt8) ∨ kind = ('['.toUInt8, ']'.toUInt8) ∨
      kind = ('\x7b'.toUInt8, '\x7d'.toUInt8) ∨ kind = ('<'.toUInt8, '>'.toUInt8) := by
  simp only [bracketKinds, List.mem_cons, List.not_mem_nil, or_false]

theorem bracketMate_eq_some_iff {token mate : UInt8} {forward : Bool} :
    bracketMate token = some (mate, forward) ↔
      if forward then (token, mate) ∈ bracketKinds else (mate, token) ∈ bracketKinds := by
  constructor
  · intro h
    unfold bracketMate at h
    split_ifs at h with h₁ h₂ h₃ h₄ h₅ h₆ h₇ h₈ <;>
    · obtain ⟨rfl, rfl⟩ := Prod.mk.inj (Option.some.inj h)
      subst_vars
      decide
  · cases forward with
    | true =>
      simp only [if_true, mem_bracketKinds, Prod.mk.injEq]
      rintro (⟨rfl, rfl⟩ | ⟨rfl, rfl⟩ | ⟨rfl, rfl⟩ | ⟨rfl, rfl⟩) <;> decide
    | false =>
      simp only [Bool.false_eq_true, if_false, mem_bracketKinds, Prod.mk.injEq]
      rintro (⟨rfl, rfl⟩ | ⟨rfl, rfl⟩ | ⟨rfl, rfl⟩ | ⟨rfl, rfl⟩) <;> decide

theorem isBracket_iff {byte : UInt8} :
    isBracket byte = true ↔ ∃ kind ∈ bracketKinds, byte = kind.1 ∨ byte = kind.2 := by
  unfold isBracket
  rw [Option.isSome_iff_exists, Prod.exists]
  constructor
  · rintro ⟨mate, forward, h⟩
    rw [bracketMate_eq_some_iff] at h
    cases forward with
    | true => exact ⟨_, h, .inl rfl⟩
    | false => exact ⟨_, h, .inr rfl⟩
  · rintro ⟨⟨token, mate⟩, hmem, rfl | rfl⟩
    · exact ⟨mate, true, bracketMate_eq_some_iff.mpr hmem⟩
    · exact ⟨token, false, bracketMate_eq_some_iff.mpr hmem⟩

/-- Brackets are neither blanks nor parts of comments or directives, but whole characters. -/
structure NoBlank (byte : UInt8) : Prop where
  not_slash : byte ≠ '/'.toUInt8
  not_star : byte ≠ '*'.toUInt8
  not_hash : byte ≠ '#'.toUInt8
  not_newline : byte ≠ '\n'.toUInt8
  not_blank : isAsciiWhitespace byte = false
  boundary : byte &&& 0xC0 ≠ 0x80

theorem ne_of_mem_bracketKinds {kind : UInt8 × UInt8} (h : kind ∈ bracketKinds) :
    kind.1 ≠ kind.2 := by
  rw [mem_bracketKinds] at h
  rcases h with rfl | rfl | rfl | rfl <;> decide

theorem noBlank_of_isBracket {byte : UInt8} (h : isBracket byte = true) : NoBlank byte := by
  obtain ⟨kind, hmem, hbyte⟩ := isBracket_iff.mp h
  rw [mem_bracketKinds] at hmem
  rcases hmem with rfl | rfl | rfl | rfl <;> rcases hbyte with rfl | rfl <;>
    exact ⟨by decide, by decide, by decide, by decide, by decide, by decide⟩

/-- On a character boundary the cursor stays. -/
theorem clamp_eq {lines : List Line} {pos : Position} {byte : UInt8}
    (h : byteAt? lines pos = some byte) (hbyte : byte &&& 0xC0 ≠ 0x80) : clamp lines pos = pos := by
  obtain ⟨before, line, after, rfl, hlnum, hget⟩ := byteAt?_eq_some_iff.mp h
  obtain ⟨lnum, col⟩ := pos
  obtain rfl : lnum = before.length + 1 := hlnum
  dsimp only at hget
  have hlt := (List.getElem?_eq_some_iff.mp hget).1
  have hboundary : isUtf8Boundary line col = true := by
    unfold isUtf8Boundary
    rw [hget]
    simpa using hbyte
  -- The last boundary of the line is not before this one.
  have hlast : col ≤ prevCharBoundary line line.length := by
    unfold prevCharBoundary
    dsimp only
    rw [min_self]
    cases Utf8.decode? line with
    | none => exact Nat.le_sub_one_of_lt hlt
    | some _ =>
      dsimp only
      obtain ⟨hle, hpasses, hstops⟩ :=
        skippedBack (fun i => !isUtf8Boundary line i) (line.length - 1)
      by_contra hafter
      have := hpasses col (by omega) (by omega)
      rw [hboundary] at this
      cases this
  have hcol : prevCharBoundary line (col + 1) = col := by
    unfold prevCharBoundary
    dsimp only
    rw [min_eq_left hlt, Nat.add_sub_cancel]
    cases Utf8.decode? line with
    | none => rfl
    | some _ =>
      cases col with
      | zero => rfl
      | succ col =>
        rw [skipBack, hboundary]
        rfl
  have hget : (before ++ line :: after)[before.length]? = some line := by
    rw [List.getElem?_append_right le_rfl, Nat.sub_self]
    rfl
  have hlnum : min (max (before.length + 1) 1) (max (before ++ line :: after).length 1)
      = before.length + 1 := by
    rw [List.length_append, List.length_cons]
    omega
  unfold clamp
  dsimp only
  rw [hlnum, Nat.add_sub_cancel, hget]
  dsimp only
  rw [min_eq_left hlast, hcol]

/-! ## Bracket scans -/

@[simp] theorem byteDelims_opens {token mate byte : UInt8} :
    (byteDelims token mate).opens byte = decide (byte = token) := rfl

@[simp] theorem byteDelims_closes {token mate byte : UInt8} :
    (byteDelims token mate).closes byte = decide (byte ≠ token ∧ byte = mate) := rfl

@[simp] theorem byteDelims_splits {token mate byte : UInt8} :
    (byteDelims token mate).splits byte = false := rfl

theorem byteDelims_swap {token mate : UInt8} (hne : token ≠ mate) :
    byteDelims mate token = (byteDelims token mate).swap := by
  unfold byteDelims Delims.swap
  congr 1
  · funext byte
    by_cases hmate : byte = mate
    · have : byte ≠ token := by
        rw [hmate]
        exact Ne.symm hne
      simp [hmate, Ne.symm hne]
    · simp [hmate]
  · funext byte
    by_cases htoken : byte = token
    · simp [htoken, hne]
    · simp [htoken]

/-- The source counts the bracket at the start, too. -/
theorem braceScan_eq {token mate : UInt8} {d : Nat} {w : List UInt8} :
    braceScan token mate (d + 1) w = scan (byteDelims token mate) d w := by
  induction w generalizing d with
  | nil => rfl
  | cons byte w ih =>
    rw [braceScan, scan]
    by_cases htoken : byte = token
    · simp [htoken, ih]
    · by_cases hmate : byte = mate
      · have hne : mate ≠ token := by rwa [← hmate]
        cases d with
        | zero => simp [hmate, hne]
        | succ d => simp [hmate, hne, ih]
      · simp [htoken, hmate, ih]

theorem ends_byteDelims {token mate byte : UInt8} (h : Ends (byteDelims token mate) byte) :
    byte = mate := by
  rcases h with h | h
  · simp only [byteDelims, ne_eq, decide_eq_true_eq] at h
    exact h.2
  · cases h

theorem begins_byteDelims {token mate byte : UInt8} (h : Begins (byteDelims token mate) byte) :
    byte = token := by
  rcases h with h | h
  · simpa [byteDelims] using h
  · cases h

variable {lines : List Line} {p q : Position} {token mate : UInt8}

/-- On a bracket the scan for a bracket stays. -/
theorem matchBrace_eq {forward : Bool} (hp : byteAt? lines p = some token)
    (hmate : bracketMate token = some (mate, forward)) :
    matchBrace lines p =
      if forward then
        (scan (byteDelims token mate) 0
          ((flatten lines).1.drop (offsetOf (flatten lines).2 p + 1))).map fun index =>
            posOf lines (flatten lines).2 (offsetOf (flatten lines).2 p + 1 + index)
      else
        (scan (byteDelims token mate) 0
          ((flatten lines).1.take (offsetOf (flatten lines).2 p)).reverse).map fun index =>
            posOf lines (flatten lines).2 (offsetOf (flatten lines).2 p - 1 - index) := by
  obtain ⟨hget, -⟩ := offsetOf_of_byteAt? hp
  obtain ⟨hlt, hget'⟩ := List.getElem?_eq_some_iff.mp hget
  have hfind : ((flatten lines).1.drop (offsetOf (flatten lines).2 p)).findIdx isBracket = 0 := by
    rw [List.drop_eq_getElem_cons hlt, hget', List.findIdx_cons]
    have : isBracket token = true := by
      unfold isBracket
      rw [hmate]
      rfl
    rw [this]
    rfl
  unfold matchBrace
  dsimp only
  rw [hfind, Nat.add_zero, hget]
  simp only [Option.bind_eq_bind, Option.bind_some, hmate]
  cases forward with
  | true =>
    rw [if_pos rfl, if_pos rfl, ← braceScan_eq, Option.map_eq_bind]
    rfl
  | false =>
    rw [if_neg Bool.false_ne_true, if_neg Bool.false_ne_true, ← braceScan_eq, Option.map_eq_bind]
    rfl

/-- The bracket scan finds exactly the partner. -/
theorem matchBrace_eq_some_iff (hp : byteAt? lines p = some token) (htoken : isBracket token = true) :
    matchBrace lines p = some q ↔ Partner lines p q := by
  obtain ⟨hget, -⟩ := offsetOf_of_byteAt? hp
  obtain ⟨⟨mate, forward⟩, hmate⟩ := Option.isSome_iff_exists.mp htoken
  rw [matchBrace_eq hp hmate]
  have hkind := bracketMate_eq_some_iff.mp hmate
  -- The kind of a pair the position is in is the one of its bracket.
  have hleft : ∀ kind ∈ bracketKinds, Paired lines kind p q → forward = true ∧ kind = (token, mate) := by
    intro kind hmem hpaired
    obtain rfl : token = kind.1 := Option.some.inj (hp.symm.trans hpaired.opens)
    have : bracketMate kind.1 = some (kind.2, true) := bracketMate_eq_some_iff.mpr hmem
    rw [hmate] at this
    obtain ⟨rfl, rfl⟩ := Prod.mk.inj (Option.some.inj this)
    exact ⟨rfl, rfl⟩
  have hright : ∀ kind ∈ bracketKinds, Paired lines kind q p → forward = false ∧ kind = (mate, token) := by
    intro kind hmem hpaired
    obtain rfl : token = kind.2 := Option.some.inj (hp.symm.trans hpaired.closes)
    have : bracketMate kind.2 = some (kind.1, false) := bracketMate_eq_some_iff.mpr hmem
    rw [hmate] at this
    obtain ⟨rfl, rfl⟩ := Prod.mk.inj (Option.some.inj this)
    exact ⟨rfl, rfl⟩
  cases forward with
  | true =>
    rw [if_pos rfl] at hkind ⊢
    have hbegins : Begins (byteDelims token mate) token := .inl (by simp [byteDelims])
    rw [Option.map_eq_some_iff]
    constructor
    · rintro ⟨index, hscan, rfl⟩
      rw [scan_iff_linked hget hbegins] at hscan
      obtain ⟨byte, hbyte, hends⟩ := hscan.ends
      obtain rfl := ends_byteDelims hends
      have hnewline := (noBlank_of_isBracket (isBracket_iff.mpr ⟨_, hkind, .inr rfl⟩)).not_newline
      obtain ⟨hq, hoffset⟩ := byteAt?_posOf hbyte hnewline
      exact ⟨_, hkind, .inl ⟨hp, hq, by rwa [hoffset]⟩⟩
    · rintro ⟨kind, hmem, hpaired | hpaired⟩
      · obtain ⟨-, rfl⟩ := hleft kind hmem hpaired
        have hlt := hpaired.linked.lt
        obtain ⟨index, hindex⟩ := Nat.exists_eq_add_of_le (Nat.succ_le_of_lt hlt)
        refine ⟨index, ?_, ?_⟩
        · rw [scan_iff_linked hget hbegins, ← hindex]
          exact hpaired.linked
        · rw [← hindex]
          exact (offsetOf_of_byteAt? hpaired.closes).2
      · cases (hright kind hmem hpaired).1
  | false =>
    rw [if_neg Bool.false_ne_true] at hkind ⊢
    have hends : Ends (byteDelims mate token) token :=
      .inl (by simpa [byteDelims] using Ne.symm (ne_of_mem_bracketKinds hkind))
    rw [byteDelims_swap (ne_of_mem_bracketKinds hkind), Option.map_eq_some_iff]
    constructor
    · rintro ⟨index, hscan, rfl⟩
      obtain ⟨⟨byte, hbyte, -⟩, -⟩ := scan_eq_some_iff.mp hscan
      have hlt := (List.getElem?_eq_some_iff.mp hbyte).1
      rw [List.length_reverse, List.length_take] at hlt
      rw [scanBack_iff_linked hget hends (by omega)] at hscan
      obtain ⟨byte, hbyte, hbegins⟩ := hscan.begins
      obtain rfl := begins_byteDelims hbegins
      have hnewline := (noBlank_of_isBracket (isBracket_iff.mpr ⟨_, hkind, .inl rfl⟩)).not_newline
      obtain ⟨hq, hoffset⟩ := byteAt?_posOf hbyte hnewline
      exact ⟨_, hkind, .inr ⟨hq, hp, by rwa [hoffset]⟩⟩
    · rintro ⟨kind, hmem, hpaired | hpaired⟩
      · cases (hleft kind hmem hpaired).1
      · obtain ⟨-, rfl⟩ := hright kind hmem hpaired
        have hlt := hpaired.linked.lt
        refine ⟨offsetOf (flatten lines).2 p - 1 - offsetOf (flatten lines).2 q, ?_, ?_⟩
        · rw [scanBack_iff_linked hget hends (by omega)]
          have hindex : offsetOf (flatten lines).2 p - 1
              - (offsetOf (flatten lines).2 p - 1 - offsetOf (flatten lines).2 q)
              = offsetOf (flatten lines).2 q := by omega
          rw [hindex]
          exact hpaired.linked
        · have hindex : offsetOf (flatten lines).2 p - 1
              - (offsetOf (flatten lines).2 p - 1 - offsetOf (flatten lines).2 q)
              = offsetOf (flatten lines).2 q := by omega
          rw [hindex]
          exact (offsetOf_of_byteAt? hpaired.opens).2

theorem Partner.symm (h : Partner lines p q) : Partner lines q p := by
  obtain ⟨kind, hmem, hpaired⟩ := h
  exact ⟨kind, hmem, hpaired.symm⟩

/-- A partner is a bracket. -/
theorem Partner.exists_bracket (h : Partner lines p q) :
    ∃ byte, byteAt? lines q = some byte ∧ isBracket byte = true := by
  obtain ⟨kind, hmem, hpaired | hpaired⟩ := h
  · exact ⟨_, hpaired.closes, isBracket_iff.mpr ⟨kind, hmem, .inr rfl⟩⟩
  · exact ⟨_, hpaired.opens, isBracket_iff.mpr ⟨kind, hmem, .inl rfl⟩⟩

/-! ## Directive scans -/

/-- The `#` is the first byte of the line that is no blank. -/
theorem hashKind_spec {line : Line} {hash : Nat} {kind : HashKind}
    (h : hashKind line = some (hash, kind)) : (line)[hash]? = some '#'.toUInt8 ∧
      ∀ col byte, col < hash → (line)[col]? = some byte → isAsciiWhitespace byte = true := by
  obtain ⟨first, hfirst, h⟩ := Option.bind_eq_some_iff.mp h
  split_ifs at h with hsharp
  obtain ⟨kind', -, h⟩ := Option.bind_eq_some_iff.mp h
  obtain ⟨rfl, rfl⟩ := Prod.mk.inj (Option.some.inj h)
  obtain ⟨hlt, -, hbefore⟩ := List.findIdx?_eq_some_iff_getElem.mp hfirst
  refine ⟨hsharp, fun col byte hcol hbyte => ?_⟩
  obtain ⟨hcolLt, rfl⟩ := List.getElem?_eq_some_iff.mp hbyte
  simpa using hbefore col hcol

theorem hashForward_eq {d lnum : Nat} {ls : List Line} :
    hashForward d lnum ls = (scan hashDelims d ls).map fun k => ⟨lnum + k, hashCol (ls.getD k [])⟩ := by
  induction ls generalizing d lnum with
  | nil => rfl
  | cons line ls ih =>
    have hrest : ∀ d, hashForward d (lnum + 1) ls = ((scan hashDelims d ls).map (· + 1)).map
        fun k => ⟨lnum + k, hashCol ((line :: ls).getD k [])⟩ := by
      intro d
      rw [ih, Option.map_map]
      congr 1
      funext k
      simp only [Function.comp_apply, List.getD_cons_succ]
      rw [Nat.add_assoc, Nat.add_comm 1 k]
    rw [hashForward, scan]
    cases hkind : hashKind line with
    | none => simp [hashDelims, hkind, hrest]
    | some found =>
      obtain ⟨col, kind⟩ := found
      cases kind with
      | «if» => simp [hashDelims, hkind, hrest]
      | el =>
        by_cases hd : d = 0
        · simp [hashDelims, hkind, hd, hashCol]
        · simp [hashDelims, hkind, hd, hrest]
      | endif =>
        by_cases hd : d = 0
        · simp [hashDelims, hkind, hd, hashCol]
        · simp [hashDelims, hkind, hd, hrest]

/-- Upward only the `#if` counts. -/
theorem hashBackward_eq {d : Nat} {ls : List Line} :
    hashBackward d ls = (scan hashDelims.unsplit.swap d ls).map fun k =>
      ⟨ls.length - k, hashCol (ls.getD k [])⟩ := by
  induction ls generalizing d with
  | nil => rfl
  | cons line ls ih =>
    have hrest : ∀ d, hashBackward d ls = ((scan hashDelims.unsplit.swap d ls).map (· + 1)).map
        fun k => ⟨(line :: ls).length - k, hashCol ((line :: ls).getD k [])⟩ := by
      intro d
      rw [ih, Option.map_map]
      congr 1
      funext k
      simp only [Function.comp_apply, List.getD_cons_succ, List.length_cons, Nat.add_sub_add_right]
    rw [hashBackward, scan]
    cases hkind : hashKind line with
    | none => simp [hashDelims, Delims.unsplit, Delims.swap, hkind, hrest]
    | some found =>
      obtain ⟨col, kind⟩ := found
      cases kind with
      | «if» =>
        by_cases hd : d = 0
        · simp [hashDelims, Delims.unsplit, Delims.swap, hkind, hd, hashCol]
        · simp [hashDelims, Delims.unsplit, Delims.swap, hkind, hd, hrest]
      | el => simp [hashDelims, Delims.unsplit, Delims.swap, hkind, hrest]
      | endif => simp [hashDelims, Delims.unsplit, Delims.swap, hkind, hrest]

theorem begins_hashDelims {line : Line} (h : Begins hashDelims line) :
    ∃ hash kind, hashKind line = some (hash, kind) ∧ kind ≠ .endif := by
  rcases h with h | h
  · obtain ⟨⟨hash, kind⟩, hline, hkind⟩ := Option.map_eq_some_iff.mp (of_decide_eq_true h)
    obtain rfl : kind = .if := hkind
    exact ⟨hash, _, hline, by decide⟩
  · obtain ⟨⟨hash, kind⟩, hline, hkind⟩ := Option.map_eq_some_iff.mp (of_decide_eq_true h)
    obtain rfl : kind = .el := hkind
    exact ⟨hash, _, hline, by decide⟩

theorem ends_unsplit_hashDelims {line : Line} (h : Ends hashDelims.unsplit line) :
    ∃ hash, hashKind line = some (hash, .endif) := by
  rcases h with h | h
  · obtain ⟨⟨hash, kind⟩, hline, hkind⟩ := Option.map_eq_some_iff.mp (of_decide_eq_true h)
    obtain rfl : kind = .endif := hkind
    exact ⟨hash, hline⟩
  · cases h

/-- The position of a line that is found from below. -/
theorem directive_reverse_take {i k : Nat} (hi : i ≤ lines.length) (hk : k < i) :
    (⟨(lines.take i).reverse.length - k, hashCol ((lines.take i).reverse.getD k [])⟩ : Position)
      = directive lines (i - 1 - k) := by
  unfold directive
  rw [List.getD_eq_getElem?_getD, getElem?_reverse_take hk hi, List.getD_eq_getElem?_getD,
    List.length_reverse, List.length_take, min_eq_left hi]
  congr 1
  omega

/-- From a line `%` finds exactly the next directive of its group. -/
theorem matchHash_eq_some_iff {i col : Nat} {line : Line} (hline : lines[i]? = some line) :
    matchHash lines ⟨i + 1, col⟩ = some q ↔ ∃ j, DirectiveNext lines i j ∧ q = directive lines j := by
  have hlineAt : lineAt? lines (i + 1) = some line := by
    unfold lineAt?
    rw [if_neg (Nat.succ_ne_zero i), Nat.add_sub_cancel, hline]
  have hlt := (List.getElem?_eq_some_iff.mp hline).1
  unfold matchHash
  dsimp only
  rw [hlineAt, Option.bind_eq_bind, Option.bind_some]
  cases hkind : hashKind line with
  | none =>
    refine iff_of_false (by simp) ?_
    rintro ⟨j, hlinked | hlinked, -⟩
    · obtain ⟨x, hx, hbegins⟩ := hlinked.begins
      obtain rfl := Option.some.inj (hline.symm.trans hx)
      obtain ⟨hash, kind, hsome, -⟩ := begins_hashDelims hbegins
      rw [hkind] at hsome
      cases hsome
    · obtain ⟨x, hx, hends⟩ := hlinked.ends
      obtain rfl := Option.some.inj (hline.symm.trans hx)
      obtain ⟨hash, hsome⟩ := ends_unsplit_hashDelims hends
      rw [hkind] at hsome
      cases hsome
  | some found =>
    obtain ⟨hash, kind⟩ := found
    rw [Option.bind_eq_bind, Option.bind_some]
    by_cases hendif : kind = .endif
    · subst hendif
      have hends : Ends hashDelims.unsplit line := .inl (by simp [hashDelims, Delims.unsplit, hkind])
      dsimp only
      rw [Nat.add_sub_cancel, hashBackward_eq, Option.map_eq_some_iff]
      constructor
      · rintro ⟨k, hscan, rfl⟩
        obtain ⟨⟨x, hx, -⟩, -⟩ := scan_eq_some_iff.mp hscan
        have hk := (List.getElem?_eq_some_iff.mp hx).1
        rw [List.length_reverse, List.length_take] at hk
        refine ⟨i - 1 - k, .inr ((scanBack_iff_linked hline hends (by omega)).mp hscan), ?_⟩
        exact directive_reverse_take hlt.le (by omega)
      · rintro ⟨j, hlinked | hlinked, rfl⟩
        · obtain ⟨x, hx, hbegins⟩ := hlinked.begins
          obtain rfl := Option.some.inj (hline.symm.trans hx)
          obtain ⟨hash', kind, hsome, hkind'⟩ := begins_hashDelims hbegins
          rw [hkind] at hsome
          exact absurd (Prod.mk.inj (Option.some.inj hsome)).2.symm hkind'
        · have hltLinked := hlinked.lt
          have hindex : i - 1 - (i - 1 - j) = j := by omega
          refine ⟨i - 1 - j, ?_, ?_⟩
          · rw [scanBack_iff_linked hline hends (by omega), hindex]
            exact hlinked
          · rw [directive_reverse_take hlt.le (by omega), hindex]
    · have hbegins : Begins hashDelims line := by
        cases kind with
        | «if» => exact .inl (by simp [hashDelims, hkind])
        | el => exact .inr (by simp [hashDelims, hkind])
        | endif => exact absurd rfl hendif
      have hforward : hashForward 0 (i + 1 + 1) (lines.drop (i + 1)) = some q ↔
          ∃ j, DirectiveNext lines i j ∧ q = directive lines j := by
        have hplace : ∀ k, (⟨i + 1 + 1 + k, hashCol ((lines.drop (i + 1)).getD k [])⟩ : Position)
            = directive lines (i + 1 + k) := by
          intro k
          unfold directive
          rw [List.getD_eq_getElem?_getD, List.getD_eq_getElem?_getD, List.getElem?_drop,
            Nat.add_right_comm]
        rw [hashForward_eq, Option.map_eq_some_iff]
        constructor
        · rintro ⟨k, hscan, rfl⟩
          exact ⟨i + 1 + k, .inl ((scan_iff_linked hline hbegins).mp hscan), hplace k⟩
        · rintro ⟨j, hlinked | hlinked, rfl⟩
          · obtain ⟨k, rfl⟩ := Nat.exists_eq_add_of_le (Nat.succ_le_of_lt hlinked.lt)
            exact ⟨k, (scan_iff_linked hline hbegins).mpr hlinked, hplace k⟩
          · obtain ⟨x, hx, hends⟩ := hlinked.ends
            obtain rfl := Option.some.inj (hline.symm.trans hx)
            obtain ⟨hash', hsome⟩ := ends_unsplit_hashDelims hends
            rw [hkind] at hsome
            exact absurd (Prod.mk.inj (Option.some.inj hsome)).2 hendif
      cases kind with
      | endif => exact absurd rfl hendif
      | «if» => exact hforward
      | el => exact hforward

/-- A directive is next to at most one directive. -/
theorem DirectiveNext.right_unique {i j j' : Nat} (h : DirectiveNext lines i j)
    (h' : DirectiveNext lines i j') : directive lines j = directive lines j' := by
  have hline : ∃ line, lines[i]? = some line := by
    rcases h with h | h
    · exact ⟨_, h.begins.choose_spec.1⟩
    · exact ⟨_, h.ends.choose_spec.1⟩
  obtain ⟨line, hline⟩ := hline
  have hj : matchHash lines ⟨i + 1, 0⟩ = some (directive lines j) :=
    (matchHash_eq_some_iff hline).mpr ⟨j, h, rfl⟩
  exact Option.some.inj (hj.symm.trans ((matchHash_eq_some_iff hline).mpr ⟨j', h', rfl⟩))

/-! ## Where `%` goes -/

theorem percentTarget_eq : percentTarget lines p = (matchingPair lines p).map (clamp lines) := by
  unfold percentTarget percent
  cases matchingPair lines p <;> rfl

theorem commentForward_eq_none {line : Line} {col : Nat} {byte : UInt8}
    (hbyte : (line)[col]? = some byte) (hslash : byte ≠ '/'.toUInt8) (hstar : byte ≠ '*'.toUInt8) :
    commentForward line col = none := by
  unfold commentForward
  rw [hbyte, if_neg, if_neg]
  · simp [hslash, hstar]
  · simp [hslash, hstar]

/-- On a bracket, the directive of the line is what is left when the bracket is unmatched. -/
theorem matchingPair_bracket (hp : byteAt? lines p = some token) (htoken : isBracket token = true) :
    matchingPair lines p = (matchBrace lines p).or (matchHash lines p) := by
  obtain ⟨line, hline, hbyte⟩ := Option.bind_eq_some_iff.mp hp
  have hfacts := noBlank_of_isBracket htoken
  have hcomment : matchComment lines p = none := by
    unfold matchComment
    rw [hline, Option.bind_eq_bind, Option.bind_some,
      commentForward_eq_none hbyte hfacts.not_slash hfacts.not_star]
    rfl
  have hhash : hashAtOrBefore line p.col = false := by
    unfold hashAtOrBefore
    cases hkind : hashKind line with
    | none => rfl
    | some found =>
      obtain ⟨hash, kind⟩ := found
      obtain ⟨hsharp, hblank⟩ := hashKind_spec hkind
      rw [Option.any_some, decide_eq_false_iff_not]
      intro hle
      rcases Nat.lt_or_eq_of_le hle with hlt | heq
      · have := hblank _ _ hlt hbyte
        rw [hfacts.not_blank] at this
        cases this
      · dsimp only at heq
        rw [heq, hsharp] at hbyte
        exact hfacts.not_hash (Option.some.inj hbyte).symm
  unfold matchingPair
  rw [hcomment, hline, Option.bind_eq_bind, Option.bind_some, hhash]
  cases matchBrace lines p <;> rfl

/-- Up to the `#` of a directive, the directive is taken. -/
theorem matchingPair_directive {i col : Nat} {line : Line} (hline : lines[i]? = some line)
    (hkind : (hashKind line).isSome) (hcol : col ≤ hashCol line) :
    matchingPair lines ⟨i + 1, col⟩ = matchHash lines ⟨i + 1, col⟩ := by
  obtain ⟨⟨hash, kind⟩, hkind⟩ := Option.isSome_iff_exists.mp hkind
  obtain ⟨hsharp, hblank⟩ := hashKind_spec hkind
  have hhash : hashCol line = hash := by
    unfold hashCol
    rw [hkind]
    rfl
  rw [hhash] at hcol
  have hlt := (List.getElem?_eq_some_iff.mp hsharp).1
  obtain ⟨byte, hget⟩ : ∃ byte, (line)[col]? = some byte :=
    ⟨_, List.getElem?_eq_getElem (by omega)⟩
  have hlineAt : lineAt? lines (i + 1) = some line := by
    unfold lineAt?
    rw [if_neg (Nat.succ_ne_zero i), Nat.add_sub_cancel, hline]
  have hbyte : byte ≠ '/'.toUInt8 ∧ byte ≠ '*'.toUInt8 := by
    rcases Nat.lt_or_eq_of_le hcol with hbefore | heq
    · have := hblank col byte hbefore hget
      constructor
      · rintro rfl
        exact absurd this (by decide)
      · rintro rfl
        exact absurd this (by decide)
    · subst heq
      obtain rfl := Option.some.inj (hget.symm.trans hsharp)
      decide
  have hcomment : matchComment lines ⟨i + 1, col⟩ = none := by
    unfold matchComment
    dsimp only
    rw [hlineAt, Option.bind_eq_bind, Option.bind_some, commentForward_eq_none hget hbyte.1 hbyte.2]
    rfl
  unfold matchingPair
  dsimp only
  rw [hcomment, hlineAt, Option.bind_eq_bind, Option.bind_some, if_pos]
  unfold hashAtOrBefore
  rw [hkind]
  simpa using hcol

/-- A directive is at its `#`. -/
theorem byteAt?_directive {i : Nat} {line : Line} (hline : lines[i]? = some line)
    (hkind : (hashKind line).isSome) : byteAt? lines (directive lines i) = some '#'.toUInt8 := by
  obtain ⟨⟨hash, kind⟩, hkind⟩ := Option.isSome_iff_exists.mp hkind
  unfold byteAt? lineAt? directive hashCol
  dsimp only
  rw [if_neg (Nat.succ_ne_zero i), Nat.add_sub_cancel, hline, Option.bind_some,
    List.getD_eq_getElem?_getD, hline, Option.getD_some, hkind]
  exact (hashKind_spec hkind).1

theorem isSome_hashKind {x : Line} (h : Begins hashDelims x ∨ Ends hashDelims x) :
    (hashKind x).isSome = true := by
  have hkind : ∃ kind, (hashKind x).map Prod.snd = some kind := by
    rcases h with (h | h) | (h | h)
    · exact ⟨_, of_decide_eq_true h⟩
    · exact ⟨_, of_decide_eq_true h⟩
    · exact ⟨_, of_decide_eq_true h⟩
    · exact ⟨_, of_decide_eq_true h⟩
  obtain ⟨kind, hkind⟩ := hkind
  rw [← Option.isSome_map, hkind]
  rfl

theorem DirectiveNext.isSome {i j : Nat} (h : DirectiveNext lines i j) :
    ∃ line, lines[j]? = some line ∧ (hashKind line).isSome = true := by
  rcases h with h | h
  · obtain ⟨x, hx, hends⟩ := h.ends
    exact ⟨x, hx, isSome_hashKind (.inr hends)⟩
  · obtain ⟨x, hx, hbegins⟩ := h.begins
    refine ⟨x, hx, isSome_hashKind (.inl ?_)⟩
    rcases hbegins with hopens | hsplits
    · exact .inl hopens
    · cases hsplits

/-- From up to the `#` of a directive, `%` goes to the next directive of the group. -/
theorem percentTarget_directive {i j col : Nat} {line : Line} (hline : lines[i]? = some line)
    (hkind : (hashKind line).isSome) (hcol : col ≤ hashCol line) (hnext : DirectiveNext lines i j) :
    percentTarget lines ⟨i + 1, col⟩ = some (directive lines j) := by
  obtain ⟨line', hline', hkind'⟩ := hnext.isSome
  rw [percentTarget_eq, matchingPair_directive hline hkind hcol,
    (matchHash_eq_some_iff hline).mpr ⟨j, hnext, rfl⟩, Option.map_some,
    clamp_eq (byteAt?_directive hline' hkind') (by decide)]

/-- In a group every directive is next to the one before it, and the first one to the last one. -/
theorem directiveNext_of_isGroup {group : List Nat} (h : IsGroup hashDelims lines group) {s i j : Nat}
    (hi : group[s]? = some i) (hj : group[(s + 1) % group.length]? = some j) :
    DirectiveNext lines i j := by
  have hs := (List.getElem?_eq_some_iff.mp hi).1
  rcases Nat.lt_or_eq_of_le (Nat.succ_le_of_lt hs) with hlt | heq
  · rw [Nat.mod_eq_of_lt hlt] at hj
    have hchain := List.isChain_iff_getElem.mp h.chain s hlt
    rw [List.getElem?_eq_getElem hs] at hi
    rw [List.getElem?_eq_getElem hlt] at hj
    rw [Option.some.inj hi, Option.some.inj hj] at hchain
    exact .inl hchain
  · rw [show s + 1 = group.length from heq, Nat.mod_self] at hj
    refine .inr (h.linked_ends ?_ ?_)
    · rw [List.head?_eq_getElem?, hj]
    · rw [List.getLast?_eq_getElem?, ← heq]
      exact hi

/-- `times + 1` times `%` takes a directive of a group as many directives on. -/
theorem percentAgain_eq {group : List Nat} (h : IsGroup hashDelims lines group) {s i col : Nat}
    {line : Line} (hs : group[s]? = some i) (hline : lines[i]? = some line)
    (hkind : (hashKind line).isSome) (hcol : col ≤ hashCol line) (times : Nat) :
    ∃ j line', group[(s + times + 1) % group.length]? = some j ∧ lines[j]? = some line' ∧
      (hashKind line').isSome ∧ percentAgain lines ⟨i + 1, col⟩ (times + 1) = some (directive lines j) := by
  have hpos : 0 < group.length := by
    have := (List.getElem?_eq_some_iff.mp hs).1
    omega
  have hget : ∀ k, ∃ j, group[k % group.length]? = some j := fun k =>
    ⟨_, List.getElem?_eq_getElem (Nat.mod_lt k hpos)⟩
  induction times with
  | zero =>
    obtain ⟨j, hj⟩ := hget (s + 1)
    have hnext := directiveNext_of_isGroup h hs hj
    obtain ⟨line', hline', hkind'⟩ := hnext.isSome
    exact ⟨j, line', hj, hline', hkind', percentTarget_directive hline hkind hcol hnext⟩
  | succ times ih =>
    obtain ⟨i', line', hi', hline', hkind', hagain⟩ := ih
    obtain ⟨j, hj⟩ := hget (s + (times + 1) + 1)
    have hmod : ((s + times + 1) % group.length + 1) % group.length
        = (s + (times + 1) + 1) % group.length := by
      rw [Nat.mod_add_mod]
      rfl
    have hnext := directiveNext_of_isGroup h hi' (by rw [hmod, hj])
    obtain ⟨line'', hline'', hkind''⟩ := hnext.isSome
    refine ⟨j, line'', hj, hline'', hkind'', ?_⟩
    unfold percentAgain at hagain ⊢
    rw [Function.iterate_succ_apply', hagain, Option.bind_some]
    refine percentTarget_directive hline' hkind' ?_ hnext
    rw [List.getD_eq_getElem?_getD, hline']
    exact le_rfl

theorem cycleLaw (lines : List Line) : CycleLaw lines := by
  intro hnested i line hline hkind
  have hdelim : Begins hashDelims line ∨ Ends hashDelims line := by
    obtain ⟨⟨hash, kind⟩, hkind⟩ := Option.isSome_iff_exists.mp hkind
    cases kind with
    | «if» => exact .inl (.inl (by simp [hashDelims, hkind]))
    | el => exact .inl (.inr (by simp [hashDelims, hkind]))
    | endif => exact .inr (.inl (by simp [hashDelims, hkind]))
  obtain ⟨group, hgroup, hmem⟩ := hnested.exists_group hline hdelim
  refine ⟨group, hgroup, hgroup.nodup, hmem, fun s col hs hcol times => ?_⟩
  obtain ⟨j, line', hj, -, -, hagain⟩ := percentAgain_eq hgroup hs hline hkind hcol times
  rw [hj, hagain, Option.map_some]

/-- On a bracket, `%` goes to the partner or, without one, to the next directive of its line. -/
theorem percentTarget_bracket (hp : byteAt? lines p = some token) (htoken : isBracket token = true) :
    percentTarget lines p = some q ↔
      Partner lines p q ∨ (∀ q, ¬Partner lines p q) ∧
        ∃ j, DirectiveNext lines (p.lnum - 1) j ∧ q = directive lines j := by
  have hpartner := fun q => matchBrace_eq_some_iff (q := q) hp htoken
  obtain ⟨before, line, after, hlines, hlnum, hget⟩ := byteAt?_eq_some_iff.mp hp
  have hline : lines[p.lnum - 1]? = some line := by
    rw [hlines, hlnum, Nat.add_sub_cancel, List.getElem?_append_right le_rfl, Nat.sub_self]
    rfl
  have hhash : ∀ target, matchHash lines p = some target ↔
      ∃ j, DirectiveNext lines (p.lnum - 1) j ∧ target = directive lines j := by
    intro target
    have hposition : (⟨p.lnum - 1 + 1, p.col⟩ : Position) = p := by
      rw [Nat.sub_add_cancel (by omega)]
    have h : matchHash lines ⟨p.lnum - 1 + 1, p.col⟩ = some target ↔
        ∃ j, DirectiveNext lines (p.lnum - 1) j ∧ target = directive lines j :=
      matchHash_eq_some_iff hline
    rwa [hposition] at h
  rw [percentTarget_eq, matchingPair_bracket hp htoken]
  cases hbrace : matchBrace lines p with
  | some target =>
    have htarget := (hpartner target).mp hbrace
    obtain ⟨byte, hbyte, hbracket⟩ := htarget.exists_bracket
    rw [Option.some_or, Option.map_some, clamp_eq hbyte (noBlank_of_isBracket hbracket).boundary,
      ← hbrace, hpartner q]
    constructor
    · exact .inl
    · rintro (h | ⟨hnone, -⟩)
      · exact h
      · exact absurd htarget (hnone target)
  | none =>
    have hnone : ∀ q, ¬Partner lines p q := by
      intro q hq
      rw [← hpartner q, hbrace] at hq
      cases hq
    rw [Option.none_or, Option.map_eq_some_iff]
    constructor
    · rintro ⟨target, htarget, rfl⟩
      obtain ⟨j, hnext, rfl⟩ := (hhash target).mp htarget
      obtain ⟨line', hline', hkind'⟩ := hnext.isSome
      exact .inr ⟨hnone, j, hnext, clamp_eq (byteAt?_directive hline' hkind') (by decide)⟩
    · rintro (h | ⟨-, j, hnext, rfl⟩)
      · exact absurd h (hnone q)
      · obtain ⟨line', hline', hkind'⟩ := hnext.isSome
        exact ⟨_, (hhash _).mpr ⟨j, hnext, rfl⟩,
          clamp_eq (byteAt?_directive hline' hkind') (by decide)⟩

/-- `%` is a matching exactly if no bracket without a partner stands on a directive line from which
there is a next directive. -/
theorem percentLaw_iff (lines : List Line) : PercentLaw lines ↔
    ∀ p byte, byteAt? lines p = some byte → isBracket byte = true → (∀ q, ¬Partner lines p q) →
      ∀ j, ¬DirectiveNext lines (p.lnum - 1) j := by
  constructor
  · rintro ⟨hlaw, -⟩ p byte hp hbyte hnone j hnext
    have htarget := (percentTarget_bracket hp hbyte).mpr (.inr ⟨hnone, j, hnext, rfl⟩)
    rw [(hlaw p byte hp hbyte).unmatched.mpr hnone] at htarget
    cases htarget
  · intro h
    refine ⟨fun p byte hp hbyte => ?_, cycleLaw lines⟩
    have hpartner : ∀ p byte, byteAt? lines p = some byte → isBracket byte = true →
        ∀ q, percentTarget lines p = some q ↔ Partner lines p q := by
      intro p byte hp hbyte q
      rw [percentTarget_bracket hp hbyte]
      refine or_iff_left ?_
      rintro ⟨hnone, j, hnext, -⟩
      exact h p byte hp hbyte hnone j hnext
    refine ⟨hpartner p byte hp hbyte, fun q hq => ?_, ?_⟩
    · obtain ⟨byte', hq', hbyte'⟩ := hq.exists_bracket
      exact (hpartner q byte' hq' hbyte' p).mpr hq.symm
    · rw [Option.eq_none_iff_forall_not_mem]
      exact forall_congr' fun q => not_congr (hpartner p byte hp hbyte q)

/-- From the unmatched bracket of a directive line, `%` goes to the end of the group. -/
theorem not_percentLaw_directive : ¬PercentLaw
    [['#'.toUInt8, 'i'.toUInt8, 'f'.toUInt8, '('.toUInt8],
      ['#'.toUInt8, 'e'.toUInt8, 'n'.toUInt8, 'd'.toUInt8, 'i'.toUInt8, 'f'.toUInt8]] := by
  rintro ⟨hlaw, -⟩
  have hbyte := hlaw ⟨1, 3⟩ '('.toUInt8 (by decide) (by decide)
  obtain ⟨byte, hget, hbracket⟩ := ((hbyte.partner ⟨2, 0⟩).mp (by decide +kernel)).exists_bracket
  obtain rfl : '#'.toUInt8 = byte := Option.some.inj hget
  exact absurd hbracket (by decide)

end Oxvim.Editor
