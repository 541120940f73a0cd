import Oxvim.Editor.MatchingPair
import Oxvim.Lib.Enclosing

/-!
# Delimiter text objects

The pair around the cursor is found by a count backward and one forward over the joined lines, and
further pairs by a search for the next opening delimiter to the left. Quotes are searched in the line
of the cursor.
-/

namespace Oxvim.Editor

open Lib Lib.Ascii Lib.Brackets Lib.Lines Text

/-! ## Brackets -/

/-- The offset of a position that has a line. -/
def offset (starts : List Nat) (pos : Position) : Option Nat :=
  starts[pos.lnum - 1]?.map (· + pos.col)

/-- The count backward to what is open, over the bytes up to the cursor in reverse. -/
def leftScan (left right : UInt8) : Nat → List UInt8 → Option Nat
  | _, [] => none
  | depth, byte :: rest =>
    if byte = right then (leftScan left right (depth + 1) rest).map (· + 1)
    else if byte = left then
      if depth = 0 then some 0 else (leftScan left right (depth - 1) rest).map (· + 1)
    else (leftScan left right depth rest).map (· + 1)

/-- The count forward to what closes, over the bytes from the opening delimiter on. -/
def closeScan (left right : UInt8) : Nat → List UInt8 → Option Nat
  | _, [] => none
  | depth, byte :: rest =>
    if byte = left then (closeScan left right (depth + 1) rest).map (· + 1)
    else if byte = right then
      if depth - 1 = 0 then some 0 else (closeScan left right (depth - 1) rest).map (· + 1)
    else (closeScan left right depth rest).map (· + 1)

def matchingClose (bytes : List UInt8) (openAt : Nat) (left right : UInt8) : Option Nat :=
  (closeScan left right 0 (bytes.drop openAt)).map (openAt + ·)

/-- The search for the pairs farther out, `times` of them. -/
def outward (bytes : List UInt8) (left right : UInt8) : Nat → Nat × Nat → Option (Nat × Nat)
  | 0, pair => some pair
  | times + 1, pair => do
    let openAt ← (List.range pair.1).reverse.find? fun index => bytes[index]? = some left
    let closeAt ← matchingClose bytes openAt left right
    outward bytes left right times (openAt, closeAt)

/-- The pair of a count, from the bytes up to `here` on. -/
def delimitedPair (bytes : List UInt8) (here : Nat) (left right : UInt8) (count : Nat) :
    Option (Nat × Nat) := do
  let back ← leftScan left right 0 (bytes.take (here + 1)).reverse
  let closeAt ← matchingClose bytes (here - back) left right
  outward bytes left right (max count 1 - 1) (here - back, closeAt)

/-- The text object of a pair. The outer `none` is an index out of the empty text. -/
def delimited (lines : List Line) (cursor : Position) (inner : Bool) (left right : UInt8)
    (count : Nat) : Option (Option EditRange) :=
  let (bytes, starts) := flatten lines
  match offset starts cursor with
  | none => some none
  | some here =>
    if bytes = [] then none
    else some do
      let (openAt, closeAt) ← delimitedPair bytes (min here (bytes.length - 1)) left right count
      let first := if inner then openAt + 1 else openAt
      let last := if inner then max (closeAt - 1) first else closeAt
      return { start := posOf lines starts first
               stop := posOf lines starts last
               kind := .characterWise
               inclusive := true }

/-! ## Quotes -/

/-- Whether an odd number of backslashes stands before a column. -/
def quoteEscaped (line : Line) (index : Nat) : Bool :=
  ((line.take index).reverse.takeWhile (· = '\\'.toUInt8)).length % 2 = 1

def isQuote (line : Line) (quote : UInt8) (col : Nat) : Bool :=
  (line)[col]? = some quote ∧ quoteEscaped line col = false

/-- The first quote from a column on, or the length of the line. -/
def nextQuote (line : Line) (quote : UInt8) (col : Nat) : Nat :=
  ((List.range' col (line.length - col)).find? (isQuote line quote)).getD line.length

/-- The last quote before a column, or the length of the line. -/
def prevQuote (line : Line) (quote : UInt8) (col : Nat) : Nat :=
  ((List.range col).reverse.find? (isQuote line quote)).getD line.length

theorem nextQuote_spec {line : Line} {quote : UInt8} {col : Nat}
    (h : nextQuote line quote col < line.length) :
    col ≤ nextQuote line quote col ∧ isQuote line quote (nextQuote line quote col) = true ∧
      ∀ i, col ≤ i → i < nextQuote line quote col → isQuote line quote i = false := by
  unfold nextQuote at h ⊢
  cases hfind : (List.range' col (line.length - col)).find? (isQuote line quote) with
  | none =>
    rw [hfind] at h
    exact absurd h (lt_irrefl _)
  | some found =>
    obtain ⟨hquote, hmem, hbefore⟩ := List.find?_range'_eq_some.mp hfind
    rw [List.mem_range'_1] at hmem
    refine ⟨hmem.1, hquote, fun i hi hlt => ?_⟩
    simpa using hbefore i hi hlt

/-- The pair of quotes that the cursor is on, the quotes being paired from `start` on. -/
def quotePairAt (line : Line) (quote : UInt8) (here start : Nat) : Option (Nat × Nat) :=
  if hopen : nextQuote line quote start ≥ line.length ∨ nextQuote line quote start > here then none
  else if hclose : nextQuote line quote (nextQuote line quote start + 1) ≥ line.length then none
  else if nextQuote line quote start ≤ here ∧
      here ≤ nextQuote line quote (nextQuote line quote start + 1) then
    some (nextQuote line quote start, nextQuote line quote (nextQuote line quote start + 1))
  else quotePairAt line quote here (nextQuote line quote (nextQuote line quote start + 1) + 1)
termination_by line.length - start
decreasing_by
  have hfirst := (nextQuote_spec (Nat.lt_of_not_le fun h => hopen (.inl h))).1
  have hsecond := (nextQuote_spec (Nat.lt_of_not_le hclose)).1
  omega

/-- The pair of quotes around the cursor, or the first one of the line. -/
def quotePairAround (line : Line) (quote : UInt8) (here : Nat) : Option (Nat × Nat) :=
  let openAt :=
    if prevQuote line quote here < line.length then prevQuote line quote here
    else nextQuote line quote 0
  if openAt ≥ line.length then none
  else if nextQuote line quote (openAt + 1) ≥ line.length then none
  else some (openAt, nextQuote line quote (openAt + 1))

/-- The pair of quotes that is selected from a column. -/
def quotePair (line : Line) (quote : UInt8) (here : Nat) : Option (Nat × Nat) :=
  if isQuote line quote here then quotePairAt line quote here 0 else quotePairAround line quote here

/-- Whitespace behind the quotes, or else before them. -/
def aroundQuotes (line : Line) (pair : Nat × Nat) : Nat × Nat :=
  let behind := ((line.drop (pair.2 + 1)).takeWhile isAsciiWhitespace).length
  if behind > 0 then (pair.1, pair.2 + behind)
  else (pair.1 - ((line.take pair.1).reverse.takeWhile isAsciiWhitespace).length, pair.2)

def quoted (lines : List Line) (cursor : Position) (inner : Bool) (quote : UInt8) (count : Nat) :
    Option EditRange := do
  let line ← lineAt? lines cursor.lnum
  let here := min cursor.col (line.length - 1)
  let pair ← quotePair line quote here
  let (first, last) :=
    if inner ∧ count < 2 then (pair.1 + 1, max (pair.2 - 1) (pair.1 + 1))
    else if inner then pair
    else aroundQuotes line pair
  return { start := ⟨cursor.lnum, first⟩
           stop := ⟨cursor.lnum, last⟩
           kind := .characterWise
           inclusive := true }

/-! ## The laws -/

/-- The cursor is on a byte of its line or at the start of an empty one. -/
def CursorIn (lines : List Line) (cursor : Position) : Prop :=
  ∃ line, lineAt? lines cursor.lnum = some line ∧ (cursor.col < line.length ∨ cursor.col = 0)

/-- What the text objects of a kind of brackets select at a cursor. -/
structure DelimitedLaw (lines : List Line) (cursor : Position) (kind : UInt8 × UInt8) : Prop where
  around : ∀ count l r, NthEnclosing (byteDelims kind.1 kind.2) (flatten lines).1
      (offsetOf (flatten lines).2 cursor) (max count 1) l r →
    delimited lines cursor false kind.1 kind.2 count
      = some (some ⟨posOf lines (flatten lines).2 l, posOf lines (flatten lines).2 r,
          .characterWise, true⟩)
  fewer : ∀ count, (∀ l r, ¬NthEnclosing (byteDelims kind.1 kind.2) (flatten lines).1
      (offsetOf (flatten lines).2 cursor) (max count 1) l r) →
    delimited lines cursor false kind.1 kind.2 count = some none
  inside : ∀ count, ∃ result, delimited lines cursor true kind.1 kind.2 count = some result ∧
    ∀ range, result = some range → ∃ l r, NthEnclosing (byteDelims kind.1 kind.2) (flatten lines).1
        (offsetOf (flatten lines).2 cursor) (max count 1) l r ∧
      l < offsetOf (flatten lines).2 range.start ∧
      offsetOf (flatten lines).2 range.start ≤ offsetOf (flatten lines).2 range.stop ∧
      offsetOf (flatten lines).2 range.stop < r

/-- The line of the byte at an offset goes on behind it. -/
def GoesOn (lines : List Line) (l : Nat) : Prop :=
  ∃ byte, byteAt? lines ⟨(posOf lines (flatten lines).2 l).lnum,
    (posOf lines (flatten lines).2 l).col + 1⟩ = some byte

/-- Where the text objects of a kind select what they should. -/
structure DelimitedFits (lines : List Line) (cursor : Position) (kind : UInt8 × UInt8) : Prop where
  text : (flatten lines).1 ≠ []
  /-- The cursor is not on the closing bracket of a pair. -/
  not_close : ∀ l, ¬Linked (byteDelims kind.1 kind.2) (flatten lines).1 l
    (offsetOf (flatten lines).2 cursor)
  /-- Between a pair that is closed before the cursor and an enclosing one to its right, an opening
  bracket is unmatched. -/
  siblings : ∀ l r l' r', Enclosing (byteDelims kind.1 kind.2) (flatten lines).1
      (offsetOf (flatten lines).2 cursor) l r →
    Linked (byteDelims kind.1 kind.2) (flatten lines).1 l' r' → l' < l →
    r' < offsetOf (flatten lines).2 cursor →
    ∃ u, l' < u ∧ u < l ∧ (flatten lines).1[u]? = some kind.1 ∧
      ∀ v, ¬Linked (byteDelims kind.1 kind.2) (flatten lines).1 u v
  /-- Enclosing pairs are not empty, and their opening bracket is not the last byte of its line. -/
  inside : ∀ l r, Enclosing (byteDelims kind.1 kind.2) (flatten lines).1
      (offsetOf (flatten lines).2 cursor) l r →
    l + 1 < r ∧ GoesOn lines l

/-- The pair of quotes that belongs to a column: the first and second quote of the line, the third and
fourth one and so on if the column is on a quote, and else the quotes around it or the first two. -/
structure QuotePair (line : Line) (quote : UInt8) (here l r : Nat) : Prop where
  opens : isQuote line quote l = true
  closes : isQuote line quote r = true
  lt : l < r
  between : ∀ i, l < i → i < r → isQuote line quote i = false
  selected : if isQuote line quote here then
      l ≤ here ∧ here ≤ r ∧ Even (Nat.count (fun i => isQuote line quote i = true) l)
    else (l < here ∧ here < r) ∨
      ((∀ i, i < here → isQuote line quote i = false) ∧ ∀ i, i < l → isQuote line quote i = false)

/-- What the inner text object of a quote selects at a cursor is between two quotes of the line. -/
def QuotedLaw (lines : List Line) (cursor : Position) (quote : UInt8) (count : Nat) : Prop :=
  ∀ line, lineAt? lines cursor.lnum = some line →
    ∀ range, quoted lines cursor true quote count = some range →
      ∃ l r, QuotePair line quote (min cursor.col (line.length - 1)) l r ∧
        range.start.lnum = cursor.lnum ∧ range.stop.lnum = cursor.lnum ∧
        l < range.start.col ∧ range.start.col ≤ range.stop.col ∧ range.stop.col < r

/-! ## Scans -/

theorem leftScan_eq {left right : UInt8} (hne : left ≠ right) {d : Nat} {w : List UInt8} :
    leftScan left right d w = scan (byteDelims left right).swap d w := by
  rw [← byteDelims_swap hne]
  induction w generalizing d with
  | nil => rfl
  | cons byte w ih =>
    rw [leftScan, scan]
    by_cases hright : byte = right
    · simp [hright, ih]
    · by_cases hleft : byte = left
      · cases d with
        | zero => simp [hleft, hne]
        | succ d => simp [hleft, hne, ih]
      · simp [hright, hleft, ih]

theorem closeScan_eq {left right : UInt8} {d : Nat} {w : List UInt8} :
    closeScan left right (d + 1) w = scan (byteDelims left right) d w := by
  induction w generalizing d with
  | nil => rfl
  | cons byte w ih =>
    rw [closeScan, scan]
    by_cases hleft : byte = left
    · simp [hleft, ih]
    · by_cases hright : byte = right
      · have hne : right ≠ left := by rwa [← hright]
        cases d with
        | zero => simp [hright, hne]
        | succ d => simp [hright, hne, ih]
      · simp [hleft, hright, ih]

section Pairs

variable {lines : List Line} {cursor : Position} {left right : UInt8} {bytes : List UInt8}
  {here l r : Nat}

theorem matchingClose_eq_some_iff (hl : bytes[l]? = some left) :
    matchingClose bytes l left right = some r ↔ Linked (byteDelims left right) bytes l r := by
  obtain ⟨hlt, hget⟩ := List.getElem?_eq_some_iff.mp hl
  have hbegins : Begins (byteDelims left right) left := .inl (by simp)
  unfold matchingClose
  rw [List.drop_eq_getElem_cons hlt, hget, closeScan, if_pos rfl, closeScan_eq, Option.map_map,
    Option.map_eq_some_iff]
  constructor
  · rintro ⟨k, hscan, rfl⟩
    have hlinked := (scan_iff_linked hl hbegins).mp hscan
    rwa [Nat.add_right_comm] at hlinked
  · intro hlinked
    obtain ⟨k, rfl⟩ := Nat.exists_eq_add_of_le (Nat.succ_le_of_lt hlinked.lt)
    refine ⟨k, (scan_iff_linked hl hbegins).mpr hlinked, ?_⟩
    rw [Function.comp_apply]
    omega

theorem delimitedPair_eq (count : Nat) : delimitedPair bytes here left right count
    = (delimitedPair bytes here left right 1).bind
        (outward bytes left right (max count 1 - 1)) := by
  unfold delimitedPair
  cases leftScan left right 0 (bytes.take (here + 1)).reverse with
  | none => rfl
  | some back =>
    simp only [Option.bind_eq_bind, Option.bind_some]
    cases matchingClose bytes (here - back) left right <;> rfl

theorem exists_opens_iff : (∃ x, bytes[l]? = some x ∧ (byteDelims left right).opens x = true) ↔
    bytes[l]? = some left := by
  simp

/-- The pair that the search starts from is the innermost one that is open behind a position. -/
theorem delimitedPair_one (hne : left ≠ right) (hlt : here + 1 ≤ bytes.length) :
    delimitedPair bytes here left right 1 = some (l, r) ↔
      OpenBehind (byteDelims left right) bytes l here ∧ Linked (byteDelims left right) bytes l r ∧
        ∀ l', OpenBehind (byteDelims left right) bytes l' here → l' ≤ l := by
  have hD : ∀ x, (byteDelims left right).splits x = false := fun _ => rfl
  unfold delimitedPair
  rw [leftScan_eq hne]
  cases hscan : scan (byteDelims left right).swap 0 (bytes.take (here + 1)).reverse with
  | none =>
    refine iff_of_false (by simp) ?_
    rintro ⟨hopen, -, -⟩
    exact scanBack_eq_none hlt hscan hopen
  | some back =>
    obtain ⟨-, hopen, hgreatest⟩ := scanBack_openBehind hlt hscan hD
    have hget := exists_opens_iff.mp hopen.opens
    simp only [Option.bind_eq_bind, Option.bind_some]
    rw [Option.bind_eq_some_iff]
    constructor
    · rintro ⟨closeAt, hclose, hpair⟩
      obtain ⟨rfl, rfl⟩ := Prod.mk.inj (Option.some.inj hpair)
      exact ⟨hopen, (matchingClose_eq_some_iff hget).mp hclose, hgreatest⟩
    · rintro ⟨hopen', hlinked, hgreatest'⟩
      obtain rfl : l = here - back := le_antisymm (hgreatest l hopen') (hgreatest' _ hopen)
      exact ⟨r, (matchingClose_eq_some_iff hget).mpr hlinked, rfl⟩

/-- The search to the left finds the nearest opening delimiter. -/
theorem find?_reverse_range {p : Nat → Bool} {n i : Nat} :
    (List.range n).reverse.find? p = some i ↔
      i < n ∧ p i = true ∧ ∀ j, i < j → j < n → p j = false := by
  induction n with
  | zero => simp
  | succ n ih =>
    rw [List.range_succ, List.reverse_append, List.reverse_singleton, List.singleton_append]
    cases hp : p n with
    | true =>
      rw [List.find?_cons_of_pos hp, Option.some_inj]
      constructor
      · rintro rfl
        exact ⟨by omega, hp, fun j hj hjn => by omega⟩
      · rintro ⟨hi, hpi, hbetween⟩
        by_contra hne
        have := hbetween n (by omega) (by omega)
        rw [hp] at this
        cases this
    | false =>
      rw [List.find?_cons_of_neg (by simp [hp]), ih]
      constructor
      · rintro ⟨hi, hpi, hbetween⟩
        refine ⟨by omega, hpi, fun j hj hjn => ?_⟩
        by_cases heq : j = n
        · rw [heq, hp]
        · exact hbetween j hj (by omega)
      · rintro ⟨hi, hpi, hbetween⟩
        have hin : i ≠ n := by
          rintro rfl
          rw [hp] at hpi
          cases hpi
        exact ⟨by omega, hpi, fun j hj hjn => hbetween j hj (by omega)⟩

theorem find?_reverse_range_eq_none {p : Nat → Bool} {n : Nat} :
    (List.range n).reverse.find? p = none ↔ ∀ i, i < n → p i = false := by
  simp

/-! ## Pairs farther out -/

/-- One step outward. -/
theorem outward_succ {times : Nat} {pair : Nat × Nat} :
    outward bytes left right (times + 1) pair =
      ((List.range pair.1).reverse.find? fun index => bytes[index]? = some left).bind fun openAt =>
        (matchingClose bytes openAt left right).bind fun closeAt =>
          outward bytes left right times (openAt, closeAt) := rfl

/-- The conditions under which the search outward meets enclosing pairs only. -/
structure Clear (left right : UInt8) (bytes : List UInt8) (here : Nat) : Prop where
  not_close : ∀ l, ¬Linked (byteDelims left right) bytes l here
  siblings : ∀ l r l' r', Enclosing (byteDelims left right) bytes here l r →
    Linked (byteDelims left right) bytes l' r' → l' < l → r' < here →
    ∃ u, l' < u ∧ u < l ∧ bytes[u]? = some left ∧ ∀ v, ¬Linked (byteDelims left right) bytes u v

/-- Outside the nearest opening delimiter to the left there are enclosing pairs only if it is the one
of such a pair. -/
theorem outward_iff (h : Clear left right bytes here) {n times l' r' : Nat}
    (hn : NthEnclosing (byteDelims left right) bytes here n l r) :
    outward bytes left right times (l, r) = some (l', r') ↔
      NthEnclosing (byteDelims left right) bytes here (n + times) l' r' := by
  have hD : ∀ x, (byteDelims left right).splits x = false := fun _ => rfl
  induction times generalizing n l r with
  | zero =>
    constructor
    · intro heq
      obtain ⟨rfl, rfl⟩ := Prod.mk.inj (Option.some.inj heq)
      exact hn
    · intro hn'
      obtain ⟨rfl, rfl⟩ := hn.unique hn'
      rfl
  | succ times ih =>
    rw [outward_succ]
    -- Behind the nearest opening delimiter no enclosing pair begins.
    have hopenOf : ∀ l'' r'', Enclosing (byteDelims left right) bytes here l'' r'' →
        bytes[l'']? = some left := fun l'' r'' henclosing =>
      exists_opens_iff.mp (henclosing.linked.exists_opens hD)
    have hle := hn.enclosing.left_le
    cases hfind : (List.range l).reverse.find? fun index => bytes[index]? = some left with
    | none =>
      rw [find?_reverse_range_eq_none] at hfind
      refine iff_of_false (by simp) fun hn' => ?_
      have hlt := hn.lt_of_lt hn' (by omega)
      simpa [hopenOf _ _ hn'.enclosing] using hfind l' hlt
    | some next =>
      obtain ⟨hnext, hopens, hbetween⟩ := find?_reverse_range.mp hfind
      simp only [decide_eq_true_eq, decide_eq_false_iff_not] at hopens hbetween
      rw [Option.bind_some]
      have hnearest : ∀ l'' r'', Enclosing (byteDelims left right) bytes here l'' r'' → l'' < l →
          l'' ≤ next := by
        intro l'' r'' henclosing hlt
        by_contra hgt
        exact hbetween l'' (by omega) hlt (hopenOf l'' r'' henclosing)
      cases hclose : matchingClose bytes next left right with
      | none =>
        -- An unmatched delimiter is not inside of a pair.
        refine iff_of_false (by simp) fun hn' => ?_
        have hlt := hn.lt_of_lt hn' (by omega)
        have hle' := hnearest l' r' hn'.enclosing hlt
        have hunmatched : ∀ r'', ¬Linked (byteDelims left right) bytes next r'' := by
          intro r'' hlinked
          rw [(matchingClose_eq_some_iff hopens).mpr hlinked] at hclose
          cases hclose
        rcases Nat.lt_or_eq_of_le hle' with hinside | heq
        · have hright := hn'.enclosing.le_right
          obtain ⟨r'', hlinked, -⟩ := hn'.enclosing.linked.exists_inside hD hopens (by simp) hinside
            (by omega)
          exact hunmatched r'' hlinked
        · rw [heq] at hn'
          exact hunmatched r' hn'.enclosing.linked
      | some closeAt =>
        have hlinked := (matchingClose_eq_some_iff hopens).mp hclose
        have hright : here ≤ closeAt := by
          by_contra hbefore
          obtain ⟨u, hu, hul, hopensU, -⟩ :=
            h.siblings l r next closeAt hn.enclosing hlinked hnext (by omega)
          exact hbetween u hu hul hopensU
        have hstep : NthEnclosing (byteDelims left right) bytes here (n + 1) next closeAt :=
          hn.next ⟨hlinked, by omega, hright⟩ hnext hnearest
        have hindex : n + 1 + times = n + (times + 1) := by omega
        rw [Option.bind_some, ← hindex]
        exact ih hstep

/-- The search outward comes to every pair to the left, unless an unmatched delimiter stops it. -/
theorem outward_reaches {a b l' r' : Nat} (hlt : l' < a)
    (hlinked : Linked (byteDelims left right) bytes l' r')
    (hmatched : ∀ u, l' < u → u < a → bytes[u]? = some left →
      ∃ v, Linked (byteDelims left right) bytes u v) :
    ∃ times, outward bytes left right times (a, b) = some (l', r') := by
  have hD : ∀ x, (byteDelims left right).splits x = false := fun _ => rfl
  have hopens := exists_opens_iff.mp (hlinked.exists_opens hD)
  induction a using Nat.strong_induction_on generalizing b with
  | _ a ih =>
    cases hfind : (List.range a).reverse.find? fun index => bytes[index]? = some left with
    | none =>
      rw [find?_reverse_range_eq_none] at hfind
      simpa [hopens] using hfind l' hlt
    | some next =>
      obtain ⟨hnext, hopensNext, hbetween⟩ := find?_reverse_range.mp hfind
      simp only [decide_eq_true_eq, decide_eq_false_iff_not] at hopensNext hbetween
      have hle : l' ≤ next := by
        by_contra hgt
        exact hbetween l' (by omega) hlt hopens
      rcases Nat.lt_or_eq_of_le hle with hinside | rfl
      · obtain ⟨v, hv⟩ := hmatched next hinside hnext hopensNext
        obtain ⟨times, htimes⟩ := ih next hnext (b := v) hinside fun u hu hun =>
          hmatched u hu (by omega)
        refine ⟨times + 1, ?_⟩
        rw [outward_succ, hfind, Option.bind_some, (matchingClose_eq_some_iff hopensNext).mpr hv]
        exact htimes
      · refine ⟨1, ?_⟩
        rw [outward_succ, hfind, Option.bind_some, (matchingClose_eq_some_iff hopens).mpr hlinked]
        rfl

/-- An enclosing pair that does not end at the cursor is open behind it. -/
theorem enclosing_openBehind (hnot : ∀ l, ¬Linked (byteDelims left right) bytes l here)
    (h : Enclosing (byteDelims left right) bytes here l r) :
    OpenBehind (byteDelims left right) bytes l (min here (bytes.length - 1)) ∧ here < r ∧
      min here (bytes.length - 1) = here := by
  have hD : ∀ x, (byteDelims left right).splits x = false := fun _ => rfl
  have hright : here < r := by
    rcases Nat.lt_or_eq_of_le h.le_right with hlt | heq
    · exact hlt
    · rw [heq] at hnot
      exact absurd h.linked (hnot l)
  obtain ⟨x, hx, -⟩ := h.linked.ends
  have hlength := (List.getElem?_eq_some_iff.mp hx).1
  have hmin : min here (bytes.length - 1) = here := by omega
  rw [hmin]
  exact ⟨h.linked.openBehind hD h.left_le hright, hright, rfl⟩

/-- If the cursor is not on the end of a pair, the search starts from the innermost enclosing one. -/
theorem delimitedPair_one_iff (hne : left ≠ right) (htext : bytes ≠ []) (hhere : here ≤ bytes.length)
    (hnot : ∀ l, ¬Linked (byteDelims left right) bytes l here) :
    delimitedPair bytes (min here (bytes.length - 1)) left right 1 = some (l, r) ↔
      NthEnclosing (byteDelims left right) bytes here 1 l r := by
  have hD : ∀ x, (byteDelims left right).splits x = false := fun _ => rfl
  have hpos := List.length_pos_iff.mpr htext
  rw [delimitedPair_one hne (by omega)]
  constructor
  · rintro ⟨hopen, hlinked, hgreatest⟩
    have hlt := hopen.lt_right hD hlinked
    obtain ⟨x, hx, -⟩ := hlinked.ends
    have hlength := (List.getElem?_eq_some_iff.mp hx).1
    have hle := hopen.le
    refine .first ⟨hlinked, by omega, by omega⟩ fun l' r' h' => ?_
    exact hgreatest l' (enclosing_openBehind hnot h').1
  · intro h
    cases h with
    | first enclosing innermost =>
      obtain ⟨hopen, hright, hmin⟩ := enclosing_openBehind hnot enclosing
      refine ⟨hopen, enclosing.linked, fun l' hopen' => ?_⟩
      rw [hmin] at hopen'
      by_contra hgt
      -- Inside the innermost pair nothing is unmatched.
      obtain ⟨x, hx, hopens⟩ := hopen'.opens
      have hle := hopen'.le
      obtain ⟨m, hlinked, -⟩ := enclosing.linked.exists_inside hD hx hopens (by omega) (by omega)
      have hlt := hopen'.lt_right hD hlinked
      exact hgt (innermost l' m ⟨hlinked, hle, hlt.le⟩)
    | next inner =>
      have := inner.pos
      omega

/-- Under the conditions the pair of a count is the enclosing one of this number. -/
theorem delimitedPair_iff (h : Clear left right bytes here) (hne : left ≠ right) (htext : bytes ≠ [])
    (hhere : here ≤ bytes.length) (count : Nat) :
    delimitedPair bytes (min here (bytes.length - 1)) left right count = some (l, r) ↔
      NthEnclosing (byteDelims left right) bytes here (max count 1) l r := by
  have hfirst := fun l r => delimitedPair_one_iff (l := l) (r := r) hne htext hhere h.not_close
  rw [delimitedPair_eq, Option.bind_eq_some_iff]
  constructor
  · rintro ⟨⟨l', r'⟩, hpair, hout⟩
    have hnth := (outward_iff h ((hfirst l' r').mp hpair)).mp hout
    have hindex : 1 + (max count 1 - 1) = max count 1 := by omega
    rwa [hindex] at hnth
  · intro hnth
    obtain ⟨l', r', hone⟩ := hnth.exists_first
    refine ⟨(l', r'), (hfirst l' r').mpr hone, (outward_iff h hone).mpr ?_⟩
    have hindex : 1 + (max count 1 - 1) = max count 1 := by omega
    rwa [hindex]

end Pairs

/-! ## Positions -/

section Law

variable {lines : List Line} {cursor : Position} {kind : UInt8 × UInt8} {l r : Nat}

/-- The position of an offset is the one of the byte or, for a newline, of the byte before it. -/
theorem offsetOf_posOf_le {offset : Nat} {byte : UInt8}
    (h : (flatten lines).1[offset]? = some byte) :
    offset ≤ offsetOf (flatten lines).2 (posOf lines (flatten lines).2 offset) + 1 ∧
      offsetOf (flatten lines).2 (posOf lines (flatten lines).2 offset) ≤ offset := by
  obtain ⟨before, line, after, col, hplace, -⟩ :=
    exists_place_of_lt (List.getElem?_eq_some_iff.mp h).1
  rw [hplace.posOf_eq]
  obtain ⟨rfl, rfl, hcol⟩ := hplace
  rw [offsetOf_eq]
  omega

/-- The position behind a bracket is behind it exactly if its line goes on. -/
theorem lt_offsetOf_posOf_iff {token : UInt8} (hl : (flatten lines).1[l]? = some token)
    (htoken : token ≠ '\n'.toUInt8) :
    l < offsetOf (flatten lines).2 (posOf lines (flatten lines).2 (l + 1)) ↔ GoesOn lines l := by
  obtain ⟨before, line, after, col, hplace, -⟩ :=
    exists_place_of_lt (List.getElem?_eq_some_iff.mp hl).1
  obtain ⟨hbyte, -⟩ := byteAt?_posOf hl htoken
  have hcol : col < line.length := by
    by_contra hcol
    have hget := hplace.getElem?
    rw [if_neg hcol] at hget
    unfold flatten at hl
    rw [hl] at hget
    split_ifs at hget
    exact htoken (Option.some.inj hget)
  have hnext : Place lines (l + 1) before line after (col + 1) :=
    ⟨hplace.split, by rw [hplace.offset_eq, Nat.add_assoc], hcol⟩
  have hmin : min col (line.length - 1) = col := by omega
  unfold GoesOn
  rw [hnext.posOf_eq, hplace.posOf_eq, hmin]
  obtain ⟨rfl, rfl, -⟩ := hplace
  dsimp only
  rw [offsetOf_eq, byteAt?_append]
  constructor
  · intro hlt
    exact ⟨_, List.getElem?_eq_getElem (by omega)⟩
  · rintro ⟨byte, hget⟩
    have := (List.getElem?_eq_some_iff.mp hget).1
    omega

/-- What the inner text object selects, from the first to the last byte. -/
def innerRange (lines : List Line) (l r : Nat) : EditRange :=
  ⟨posOf lines (flatten lines).2 (l + 1), posOf lines (flatten lines).2 (max (r - 1) (l + 1)),
    .characterWise, true⟩

/-- The selection is between the brackets exactly if the pair is not empty and the line of its opening
bracket goes on. -/
theorem innerRange_iff (hkind : kind ∈ bracketKinds)
    (h : Linked (byteDelims kind.1 kind.2) (flatten lines).1 l r) :
    (l < offsetOf (flatten lines).2 (innerRange lines l r).start ∧
      offsetOf (flatten lines).2 (innerRange lines l r).start
        ≤ offsetOf (flatten lines).2 (innerRange lines l r).stop ∧
      offsetOf (flatten lines).2 (innerRange lines l r).stop < r) ↔
    l + 1 < r ∧ GoesOn lines l := by
  obtain ⟨x, hx, hbegins⟩ := h.begins
  obtain ⟨y, hy, -⟩ := h.ends
  obtain rfl := begins_byteDelims hbegins
  have hnewline := (noBlank_of_isBracket (isBracket_iff.mpr ⟨kind, hkind, .inl rfl⟩)).not_newline
  have hlt := h.lt
  have hright := (List.getElem?_eq_some_iff.mp hy).1
  have hstart : ∃ byte, (flatten lines).1[l + 1]? = some byte :=
    ⟨_, List.getElem?_eq_getElem (by omega)⟩
  have hstop : ∃ byte, (flatten lines).1[max (r - 1) (l + 1)]? = some byte :=
    ⟨_, List.getElem?_eq_getElem (by omega)⟩
  obtain ⟨start, hstart⟩ := hstart
  obtain ⟨stop, hstop⟩ := hstop
  have hle := offsetOf_posOf_le hstart
  have hle' := offsetOf_posOf_le hstop
  unfold innerRange
  dsimp only
  rw [← lt_offsetOf_posOf_iff hx hnewline]
  constructor
  · rintro ⟨hlt', hle'', hlt''⟩
    refine ⟨?_, hlt'⟩
    by_contra hempty
    have hsame : max (r - 1) (l + 1) = l + 1 := by omega
    rw [hsame] at hlt''
    omega
  · rintro ⟨hnonempty, hlt'⟩
    have hmax : max (r - 1) (l + 1) = r - 1 := by omega
    rw [hmax] at hle' ⊢
    refine ⟨hlt', ?_, by omega⟩
    by_cases hsame : r - 1 = l + 1
    · rw [hsame]
    · omega

/-! ## The text objects -/

theorem offset_of_cursorIn (h : CursorIn lines cursor) :
    offset (flatten lines).2 cursor = some (offsetOf (flatten lines).2 cursor) ∧
      offsetOf (flatten lines).2 cursor ≤ (flatten lines).1.length := by
  obtain ⟨line, hline, hcol⟩ := h
  obtain ⟨lnum, col⟩ := cursor
  dsimp only at hline hcol
  unfold lineAt? at hline
  split_ifs at hline with hzero
  obtain ⟨hlt, hget⟩ := List.getElem?_eq_some_iff.mp hline
  obtain ⟨before, after, hsplit, hlength⟩ :
      ∃ before after, lines = before ++ line :: after ∧ before.length = lnum - 1 :=
    ⟨lines.take (lnum - 1), lines.drop (lnum - 1 + 1), by
      rw [← hget, ← List.drop_eq_getElem_cons hlt, List.take_append_drop], by
      rw [List.length_take]
      omega⟩
  obtain rfl : lnum = before.length + 1 := by omega
  subst hsplit
  have hne : before ++ line :: after ≠ [] := by simp
  have hsize := length_joined hne
  have hlarge : size before + (line.length + 1) ≤ size (before ++ line :: after) := by
    rw [size_append, size_cons]
    omega
  constructor
  · unfold offset offsetOf flatten
    dsimp only
    rw [Nat.add_sub_cancel, getElem?_lineStarts]
    rfl
  · rw [offsetOf_eq]
    unfold flatten
    dsimp only
    omega

theorem delimited_eq (h : CursorIn lines cursor) (htext : (flatten lines).1 ≠ []) (inner : Bool)
    (left right : UInt8) (count : Nat) :
    delimited lines cursor inner left right count =
      some ((delimitedPair (flatten lines).1
        (min (offsetOf (flatten lines).2 cursor) ((flatten lines).1.length - 1)) left right count).map
          fun pair => if inner then innerRange lines pair.1 pair.2 else
            ⟨posOf lines (flatten lines).2 pair.1, posOf lines (flatten lines).2 pair.2,
              .characterWise, true⟩) := by
  unfold delimited
  dsimp only
  rw [(offset_of_cursorIn h).1]
  dsimp only
  rw [if_neg htext]
  cases delimitedPair (flatten lines).1
    (min (offsetOf (flatten lines).2 cursor) ((flatten lines).1.length - 1)) left right count with
  | none => rfl
  | some pair => cases inner <;> rfl

theorem DelimitedFits.clear (h : DelimitedFits lines cursor kind) :
    Clear kind.1 kind.2 (flatten lines).1 (offsetOf (flatten lines).2 cursor) :=
  ⟨h.not_close, h.siblings⟩

theorem DelimitedFits.law (hkind : kind ∈ bracketKinds) (hcursor : CursorIn lines cursor)
    (h : DelimitedFits lines cursor kind) : DelimitedLaw lines cursor kind := by
  have hne := ne_of_mem_bracketKinds hkind
  have hpair := fun l r count => delimitedPair_iff (l := l) (r := r) h.clear hne h.text
    (offset_of_cursorIn hcursor).2 count
  refine ⟨fun count l r hnth => ?_, fun count hnone => ?_, fun count => ?_⟩
  · rw [delimited_eq hcursor h.text, (hpair l r count).mpr hnth]
    rfl
  · rw [delimited_eq hcursor h.text, Option.map_eq_none_iff.mpr]
    rw [Option.eq_none_iff_forall_not_mem]
    exact fun pair hmem => hnone pair.1 pair.2 ((hpair pair.1 pair.2 count).mp hmem)
  · refine ⟨_, delimited_eq hcursor h.text true kind.1 kind.2 count, fun range hrange => ?_⟩
    obtain ⟨⟨l, r⟩, hsome, rfl⟩ := Option.map_eq_some_iff.mp hrange
    have hnth := (hpair l r count).mp hsome
    refine ⟨l, r, hnth, ?_⟩
    rw [if_pos rfl]
    exact (innerRange_iff hkind hnth.enclosing.linked).mpr (h.inside l r hnth.enclosing)

/-- Positions of opening brackets are different. -/
theorem posOf_left_injective (hkind : kind ∈ bracketKinds) {l' : Nat}
    (hl : (flatten lines).1[l]? = some kind.1) (hl' : (flatten lines).1[l']? = some kind.1)
    (h : posOf lines (flatten lines).2 l = posOf lines (flatten lines).2 l') : l = l' := by
  have hnewline := (noBlank_of_isBracket (isBracket_iff.mpr ⟨kind, hkind, .inl rfl⟩)).not_newline
  rw [← (byteAt?_posOf hl hnewline).2, h, (byteAt?_posOf hl' hnewline).2]

/-- What the text object around the cursor selects is a pair of the law. -/
theorem DelimitedLaw.enclosing (hkind : kind ∈ bracketKinds) (hcursor : CursorIn lines cursor)
    (htext : (flatten lines).1 ≠ []) (h : DelimitedLaw lines cursor kind) {count : Nat}
    (hl : (flatten lines).1[l]? = some kind.1)
    (hpair : delimitedPair (flatten lines).1
      (min (offsetOf (flatten lines).2 cursor) ((flatten lines).1.length - 1)) kind.1 kind.2 count
        = some (l, r)) :
    ∃ r', NthEnclosing (byteDelims kind.1 kind.2) (flatten lines).1
      (offsetOf (flatten lines).2 cursor) (max count 1) l r' := by
  have hresult := delimited_eq hcursor htext false kind.1 kind.2 count
  rw [hpair] at hresult
  by_cases hexists : ∃ l' r', NthEnclosing (byteDelims kind.1 kind.2) (flatten lines).1
      (offsetOf (flatten lines).2 cursor) (max count 1) l' r'
  · obtain ⟨l', r', hnth⟩ := hexists
    rw [h.around count l' r' hnth] at hresult
    have hstart := congrArg EditRange.start (Option.some.inj (Option.some.inj hresult))
    have hl' := exists_opens_iff.mp (hnth.enclosing.linked.exists_opens fun _ => rfl)
    obtain rfl := posOf_left_injective hkind hl' hl hstart
    exact ⟨r', hnth⟩
  · have hnone : ∀ l' r', ¬NthEnclosing (byteDelims kind.1 kind.2) (flatten lines).1
        (offsetOf (flatten lines).2 cursor) (max count 1) l' r' :=
      fun l' r' hnth => hexists ⟨l', r', hnth⟩
    rw [h.fewer count hnone] at hresult
    cases hresult

theorem DelimitedLaw.text (hcursor : CursorIn lines cursor) (h : DelimitedLaw lines cursor kind) :
    (flatten lines).1 ≠ [] := by
  intro hempty
  obtain ⟨result, hresult, -⟩ := h.inside 1
  unfold delimited at hresult
  dsimp only at hresult
  rw [(offset_of_cursorIn hcursor).1] at hresult
  dsimp only at hresult
  rw [if_pos hempty] at hresult
  cases hresult

theorem DelimitedLaw.not_close (hkind : kind ∈ bracketKinds) (hcursor : CursorIn lines cursor)
    (h : DelimitedLaw lines cursor kind) (l : Nat) :
    ¬Linked (byteDelims kind.1 kind.2) (flatten lines).1 l (offsetOf (flatten lines).2 cursor) := by
  intro hlinked
  have hD : ∀ x, (byteDelims kind.1 kind.2).splits x = false := fun _ => rfl
  obtain ⟨y, hy, hcloses⟩ := hlinked.exists_closes hD
  have hlength := (List.getElem?_eq_some_iff.mp hy).1
  have hmin : min (offsetOf (flatten lines).2 cursor) ((flatten lines).1.length - 1)
      = offsetOf (flatten lines).2 cursor := by omega
  have hinnermost : ∀ l' r', Enclosing (byteDelims kind.1 kind.2) (flatten lines).1
      (offsetOf (flatten lines).2 cursor) l' r' → l' ≤ l := by
    intro l' r' henclosing
    by_contra hgt
    rcases Nat.lt_or_eq_of_le henclosing.left_le with hinside | heq
    · have := hlinked.right_lt hD henclosing.linked (by omega) hinside
      have := henclosing.le_right
      omega
    · obtain ⟨x, hx, hopens⟩ := henclosing.linked.exists_opens hD
      rw [heq, hy] at hx
      obtain rfl := Option.some.inj hx
      exact not_ends_of_opens hopens (.inl hcloses)
  have hresult := delimited_eq hcursor (h.text hcursor) false kind.1 kind.2 1
  rw [h.around 1 l _ (.first ⟨hlinked, hlinked.lt.le, le_rfl⟩ hinnermost)] at hresult
  obtain ⟨⟨l', r'⟩, hpair, -⟩ := Option.map_eq_some_iff.mp (Option.some.inj hresult).symm
  have hpair' := hpair
  rw [delimitedPair_one (ne_of_mem_bracketKinds hkind) (by omega)] at hpair'
  obtain ⟨hopen, hlinked', -⟩ := hpair'
  have hlt := hopen.lt_right hD hlinked'
  have hl' := exists_opens_iff.mp (hlinked'.exists_opens hD)
  obtain ⟨r'', hnth⟩ := h.enclosing hkind hcursor (h.text hcursor) hl' hpair
  obtain ⟨rfl, rfl⟩ := hnth.unique (.first ⟨hlinked, hlinked.lt.le, le_rfl⟩ hinnermost)
  have := hlinked.right_unique hlinked'
  omega

theorem DelimitedLaw.fits (hkind : kind ∈ bracketKinds) (hcursor : CursorIn lines cursor)
    (h : DelimitedLaw lines cursor kind) : DelimitedFits lines cursor kind := by
  have hD : ∀ x, (byteDelims kind.1 kind.2).splits x = false := fun _ => rfl
  have hne := ne_of_mem_bracketKinds hkind
  have htext := h.text hcursor
  have hnot := h.not_close hkind hcursor
  have hfirst := fun l r => delimitedPair_one_iff (l := l) (r := r) hne htext
    (offset_of_cursorIn hcursor).2 hnot
  have hsiblings : ∀ l r l' r', Enclosing (byteDelims kind.1 kind.2) (flatten lines).1
      (offsetOf (flatten lines).2 cursor) l r →
      Linked (byteDelims kind.1 kind.2) (flatten lines).1 l' r' → l' < l →
      r' < offsetOf (flatten lines).2 cursor →
      ∃ u, l' < u ∧ u < l ∧ (flatten lines).1[u]? = some kind.1 ∧
        ∀ v, ¬Linked (byteDelims kind.1 kind.2) (flatten lines).1 u v := by
    intro l r l' r' henclosing hlinked hlt hbefore
    by_contra hclear
    obtain ⟨n, hnth⟩ := henclosing.exists_nth
    obtain ⟨first, last, hone⟩ := hnth.exists_first
    have hle : l ≤ first := by
      rcases Nat.lt_or_ge 1 n with hgt | hle
      · exact (hone.lt_of_lt hnth hgt).le
      · have hpos := hnth.pos
        obtain rfl : n = 1 := by omega
        exact (hnth.unique hone).1.le
    -- Up to the innermost enclosing pair every opening bracket is matched.
    have hmatched : ∀ u, l' < u → u < first → (flatten lines).1[u]? = some kind.1 →
        ∃ v, Linked (byteDelims kind.1 kind.2) (flatten lines).1 u v := by
      intro u hu hlast hopens
      by_contra hunmatched
      rcases Nat.lt_trichotomy u l with hbefore' | heq | hinside
      · exact hclear ⟨u, hu, hbefore', hopens, fun v hv => hunmatched ⟨v, hv⟩⟩
      · rw [heq] at hunmatched
        exact hunmatched ⟨r, henclosing.linked⟩
      · have hleft := hone.enclosing.left_le
        have hright := henclosing.le_right
        obtain ⟨v, hv, -⟩ := henclosing.linked.exists_inside hD hopens (by simp) hinside (by omega)
        exact hunmatched ⟨v, hv⟩
    obtain ⟨times, htimes⟩ := outward_reaches (b := last) (by omega) hlinked hmatched
    have hpair : delimitedPair (flatten lines).1
        (min (offsetOf (flatten lines).2 cursor) ((flatten lines).1.length - 1)) kind.1 kind.2
          (times + 1) = some (l', r') := by
      have hcount : max (times + 1) 1 - 1 = times := by omega
      rw [delimitedPair_eq, (hfirst first last).mpr hone, Option.bind_some, hcount, htimes]
    have hl' := exists_opens_iff.mp (hlinked.exists_opens hD)
    obtain ⟨r'', hnth'⟩ := h.enclosing hkind hcursor htext hl' hpair
    have hsame := hlinked.right_unique hnth'.enclosing.linked
    have hright := hnth'.enclosing.le_right
    omega
  refine ⟨htext, hnot, hsiblings, fun l r henclosing => ?_⟩
  obtain ⟨n, hnth⟩ := henclosing.exists_nth
  have hpos := hnth.pos
  have hmax : max n 1 = n := by omega
  rw [← hmax] at hnth
  have hpair := (delimitedPair_iff ⟨hnot, hsiblings⟩ hne htext (offset_of_cursorIn hcursor).2 n).mpr hnth
  obtain ⟨result, hresult, hrange⟩ := h.inside n
  rw [delimited_eq hcursor htext, hpair] at hresult
  obtain ⟨l', r', hnth', hbetween⟩ := hrange _ (Option.some.inj hresult).symm
  obtain ⟨rfl, rfl⟩ := hnth.unique hnth'
  exact (innerRange_iff hkind henclosing.linked).mp hbetween

theorem delimitedLaw_iff (hkind : kind ∈ bracketKinds) (hcursor : CursorIn lines cursor) :
    DelimitedLaw lines cursor kind ↔ DelimitedFits lines cursor kind :=
  ⟨fun h => h.fits hkind hcursor, fun h => h.law hkind hcursor⟩

end Law

/-! ## Quotes -/

section Quotes

variable {line : Line} {quote : UInt8} {col here start l r : Nat}

theorem isQuote_lt (h : isQuote line quote col = true) : col < line.length := by
  unfold isQuote at h
  rw [decide_eq_true_eq] at h
  exact (List.getElem?_eq_some_iff.mp h.1).1

theorem nextQuote_eq (hcol : col ≤ r) (hquote : isQuote line quote r = true)
    (hbetween : ∀ i, col ≤ i → i < r → isQuote line quote i = false) :
    nextQuote line quote col = r := by
  have hlt := isQuote_lt hquote
  unfold nextQuote
  have hfind : (List.range' col (line.length - col)).find? (isQuote line quote) = some r := by
    rw [List.find?_range'_eq_some]
    refine ⟨hquote, List.mem_range'_1.mpr ⟨hcol, by omega⟩, fun i hi hir => ?_⟩
    rw [hbetween i hi hir]
    rfl
  rw [hfind]
  rfl

/-- No quote is before the next one. -/
theorem nextQuote_le (hcol : col ≤ r) (hquote : isQuote line quote r = true) :
    nextQuote line quote col ≤ r := by
  by_contra hgt
  by_cases hlt : nextQuote line quote col < line.length
  · have := (nextQuote_spec hlt).2.2 r hcol (by omega)
    rw [hquote] at this
    cases this
  · have hr := isQuote_lt hquote
    have hfind : (List.range' col (line.length - col)).find? (isQuote line quote) = none := by
      cases hfind : (List.range' col (line.length - col)).find? (isQuote line quote) with
      | none => rfl
      | some found =>
        obtain ⟨-, hmem, -⟩ := List.find?_range'_eq_some.mp hfind
        rw [List.mem_range'_1] at hmem
        unfold nextQuote at hlt
        rw [hfind, Option.getD_some] at hlt
        omega
    rw [List.find?_range'_eq_none] at hfind
    have := hfind r hcol (by omega)
    rw [hquote] at this
    cases this

theorem prevQuote_eq (hlt : l < col) (hquote : isQuote line quote l = true)
    (hbetween : ∀ i, l < i → i < col → isQuote line quote i = false) :
    prevQuote line quote col = l := by
  unfold prevQuote
  rw [find?_reverse_range.mpr ⟨hlt, hquote, hbetween⟩]
  rfl

theorem prevQuote_spec (h : prevQuote line quote col < line.length) :
    prevQuote line quote col < col ∧ isQuote line quote (prevQuote line quote col) = true ∧
      ∀ i, prevQuote line quote col < i → i < col → isQuote line quote i = false := by
  unfold prevQuote at h ⊢
  cases hfind : (List.range col).reverse.find? (isQuote line quote) with
  | none =>
    rw [hfind] at h
    exact absurd h (lt_irrefl _)
  | some found => exact find?_reverse_range.mp hfind

theorem prevQuote_none (h : ¬prevQuote line quote col < line.length) (i : Nat) (hi : i < col) :
    isQuote line quote i = false := by
  cases hfind : (List.range col).reverse.find? (isQuote line quote) with
  | none => exact find?_reverse_range_eq_none.mp hfind i hi
  | some found =>
    obtain ⟨-, hquote, -⟩ := find?_reverse_range.mp hfind
    unfold prevQuote at h
    rw [hfind] at h
    exact absurd (isQuote_lt hquote) h

/-- Where there are no quotes, their number does not change. -/
theorem count_isQuote {a b : Nat} (hab : a ≤ b)
    (h : ∀ i, a ≤ i → i < b → isQuote line quote i = false) :
    Nat.count (fun i => isQuote line quote i = true) b
      = Nat.count (fun i => isQuote line quote i = true) a := by
  induction b, hab using Nat.le_induction with
  | base => rfl
  | succ b hab ih =>
    rw [Nat.count_succ, if_neg, Nat.add_zero, ih fun i hi hib => h i hi (by omega)]
    rw [h b hab (by omega)]
    exact Bool.false_ne_true

/-- Two quotes with none between them. -/
structure Adjacent (line : Line) (quote : UInt8) (l r : Nat) : Prop where
  opens : isQuote line quote l = true
  closes : isQuote line quote r = true
  lt : l < r
  between : ∀ i, l < i → i < r → isQuote line quote i = false

/-- The first two quotes from a column on. -/
theorem adjacent_nextQuote (hopen : nextQuote line quote start < line.length)
    (hclose : nextQuote line quote (nextQuote line quote start + 1) < line.length) :
    Adjacent line quote (nextQuote line quote start)
      (nextQuote line quote (nextQuote line quote start + 1)) := by
  obtain ⟨-, hfirst, -⟩ := nextQuote_spec hopen
  obtain ⟨hle, hsecond, hbetween⟩ := nextQuote_spec hclose
  exact ⟨hfirst, hsecond, hle, fun i hi hir => hbetween i hi hir⟩

/-- The quote that follows the first one of a pair. -/
theorem Adjacent.nextQuote_eq (h : Adjacent line quote l r) : nextQuote line quote (l + 1) = r :=
  Editor.nextQuote_eq h.lt h.closes h.between

/-- Behind a quote one more quote is counted. -/
theorem Adjacent.count (h : Adjacent line quote l r) :
    Nat.count (fun i => isQuote line quote i = true) r
      = Nat.count (fun i => isQuote line quote i = true) l + 1 := by
  rw [count_isQuote h.lt h.between, Nat.count_succ, if_pos h.opens]

/-- The loop over the pairs of quotes, before which there is an even number of quotes. -/
theorem quotePairAt_iff (heven : Even (Nat.count (fun i => isQuote line quote i = true) start)) :
    quotePairAt line quote here start = some (l, r) ↔
      start ≤ l ∧ Adjacent line quote l r ∧ l ≤ here ∧ here ≤ r ∧
        Even (Nat.count (fun i => isQuote line quote i = true) l) := by
  fun_induction quotePairAt line quote here start with
  | case1 start hopen =>
    refine iff_of_false (by simp) ?_
    rintro ⟨hstart, hpair, hle, -⟩
    have := nextQuote_le hstart hpair.opens
    have := isQuote_lt hpair.opens
    omega
  | case2 start hopen hclose =>
    refine iff_of_false (by simp) ?_
    rintro ⟨hstart, hpair, -⟩
    have hfirst := nextQuote_le hstart hpair.opens
    have hsecond : nextQuote line quote (nextQuote line quote start + 1) ≤ r :=
      nextQuote_le (Nat.lt_of_le_of_lt hfirst hpair.lt) hpair.closes
    have := isQuote_lt hpair.closes
    omega
  | case3 start hopen hclose hinside =>
    have hpair := adjacent_nextQuote (Nat.lt_of_not_le fun h => hopen (.inl h))
      (Nat.lt_of_not_le hclose)
    obtain ⟨hle, -, hbefore⟩ := nextQuote_spec (Nat.lt_of_not_le fun h => hopen (.inl h))
    rw [Option.some_inj, Prod.mk.injEq]
    constructor
    · rintro ⟨rfl, rfl⟩
      refine ⟨hle, hpair, hinside.1, hinside.2, ?_⟩
      rwa [count_isQuote hle hbefore]
    · rintro ⟨hstart, hpair', hleft, -, heven'⟩
      have hfirst := nextQuote_le hstart hpair'.opens
      rcases Nat.lt_or_eq_of_le hfirst with hlt | heq
      · -- A later pair that starts at the cursor would start with a closing quote.
        have hsecond : nextQuote line quote (nextQuote line quote start + 1) ≤ l :=
          nextQuote_le hlt hpair'.opens
        have hsame : nextQuote line quote (nextQuote line quote start + 1) = l := by omega
        rw [← hsame, hpair.count, count_isQuote hle hbefore] at heven'
        exact absurd heven (Nat.even_add_one.mp heven')
      · rw [heq, hpair'.nextQuote_eq]
        exact ⟨rfl, rfl⟩
  | case4 start hopen hclose hinside ih =>
    have hpair := adjacent_nextQuote (Nat.lt_of_not_le fun h => hopen (.inl h))
      (Nat.lt_of_not_le hclose)
    obtain ⟨hle, -, hbefore⟩ := nextQuote_spec (Nat.lt_of_not_le fun h => hopen (.inl h))
    have hclosed : Even (Nat.count (fun i => isQuote line quote i = true)
        (nextQuote line quote (nextQuote line quote start + 1) + 1)) := by
      rw [Nat.count_succ, if_pos hpair.closes, hpair.count, count_isQuote hle hbefore]
      exact heven.add even_two
    rw [ih hclosed]
    constructor
    · rintro ⟨hstart, hrest⟩
      have := hpair.lt
      exact ⟨by omega, hrest⟩
    · rintro ⟨hstart, hpair', hleft, hright, heven'⟩
      refine ⟨?_, hpair', hleft, hright, heven'⟩
      have hfirst := nextQuote_le hstart hpair'.opens
      rcases Nat.lt_or_eq_of_le hfirst with hlt | heq
      · have hsecond : nextQuote line quote (nextQuote line quote start + 1) ≤ l :=
          nextQuote_le hlt hpair'.opens
        rcases Nat.lt_or_eq_of_le hsecond with hlt' | heq
        · exact hlt'
        · rw [← heq, hpair.count, count_isQuote hle hbefore] at heven'
          exact absurd heven (Nat.even_add_one.mp heven')
      · rw [heq, hpair'.nextQuote_eq] at hinside
        exact absurd ⟨hleft, hright⟩ hinside

theorem quotePairAround_iff (hhere : isQuote line quote here = false) :
    quotePairAround line quote here = some (l, r) ↔
      Adjacent line quote l r ∧ ((l < here ∧ here < r) ∨
        ((∀ i, i < here → isQuote line quote i = false) ∧
          ∀ i, i < l → isQuote line quote i = false)) := by
  -- Whichever quote opens the pair, the next one closes it.
  have hresult : ∀ openAt, openAt < line.length → isQuote line quote openAt = true →
      ((if openAt ≥ line.length then none
        else if nextQuote line quote (openAt + 1) ≥ line.length then none
        else some (openAt, nextQuote line quote (openAt + 1))) = some (l, r) ↔
          Adjacent line quote l r ∧ openAt = l) := by
    intro openAt hlt hquote
    rw [if_neg (by omega)]
    constructor
    · intro h
      split_ifs at h with hclose
      obtain ⟨rfl, rfl⟩ := Prod.mk.inj (Option.some.inj h)
      obtain ⟨hle, hsecond, hbetween⟩ := nextQuote_spec (Nat.lt_of_not_le hclose)
      exact ⟨⟨hquote, hsecond, hle, fun i hi hir => hbetween i hi hir⟩, rfl⟩
    · rintro ⟨hpair, rfl⟩
      have := isQuote_lt hpair.closes
      rw [hpair.nextQuote_eq, if_neg (by omega)]
  unfold quotePairAround
  dsimp only
  by_cases hprev : prevQuote line quote here < line.length
  · obtain ⟨hlt, hquote, hbetween⟩ := prevQuote_spec hprev
    rw [if_pos hprev, hresult _ hprev hquote]
    constructor
    · rintro ⟨hpair, rfl⟩
      refine ⟨hpair, .inl ⟨hlt, ?_⟩⟩
      by_contra hge
      have hcloses := hpair.closes
      rcases Nat.lt_or_eq_of_le (Nat.le_of_not_lt hge) with hbefore | heq
      · rw [hbetween r hpair.lt hbefore] at hcloses
        cases hcloses
      · rw [heq, hhere] at hcloses
        cases hcloses
    · rintro ⟨hpair, ⟨hleft, hright⟩ | ⟨hnone, -⟩⟩
      · exact ⟨hpair, prevQuote_eq hleft hpair.opens fun i hi hih =>
          hpair.between i hi (by omega)⟩
      · rw [hnone _ hlt] at hquote
        cases hquote
  · have hnone := prevQuote_none hprev
    rw [if_neg hprev]
    by_cases hopen : nextQuote line quote 0 < line.length
    · obtain ⟨-, hquote, hbefore⟩ := nextQuote_spec hopen
      rw [hresult _ hopen hquote]
      constructor
      · rintro ⟨hpair, rfl⟩
        exact ⟨hpair, .inr ⟨hnone, fun i hi => hbefore i (Nat.zero_le i) hi⟩⟩
      · rintro ⟨hpair, ⟨hleft, -⟩ | ⟨-, hfirst⟩⟩
        · have := hpair.opens
          rw [hnone l hleft] at this
          cases this
        · exact ⟨hpair, nextQuote_eq (Nat.zero_le l) hpair.opens fun i _ hi => hfirst i hi⟩
    · rw [if_pos (Nat.le_of_not_lt hopen)]
      refine iff_of_false (by simp) ?_
      rintro ⟨hpair, -⟩
      have := nextQuote_le (Nat.zero_le l) hpair.opens
      have := isQuote_lt hpair.opens
      omega

end Quotes

/-- The pair of quotes that `quoted` works on. -/
theorem quotePair_iff {line : Line} {quote : UInt8} {here l r : Nat} :
    quotePair line quote here = some (l, r) ↔ QuotePair line quote here l r := by
  unfold quotePair
  cases hhere : isQuote line quote here with
  | true =>
    rw [if_pos rfl, quotePairAt_iff (by simp)]
    constructor
    · rintro ⟨-, ⟨hopens, hcloses, hlt, hbetween⟩, hleft, hright, heven⟩
      refine ⟨hopens, hcloses, hlt, hbetween, ?_⟩
      rw [if_pos hhere]
      exact ⟨hleft, hright, heven⟩
    · rintro ⟨hopens, hcloses, hlt, hbetween, hselected⟩
      rw [if_pos hhere] at hselected
      exact ⟨Nat.zero_le l, ⟨hopens, hcloses, hlt, hbetween⟩, hselected⟩
  | false =>
    rw [if_neg Bool.false_ne_true, quotePairAround_iff hhere]
    have hnot : ¬isQuote line quote here = true := by
      rw [hhere]
      exact Bool.false_ne_true
    constructor
    · rintro ⟨⟨hopens, hcloses, hlt, hbetween⟩, hselected⟩
      refine ⟨hopens, hcloses, hlt, hbetween, ?_⟩
      rwa [if_neg hnot]
    · rintro ⟨hopens, hcloses, hlt, hbetween, hselected⟩
      rw [if_neg hnot] at hselected
      exact ⟨⟨hopens, hcloses, hlt, hbetween⟩, hselected⟩

/-- The inner text object of a quote is between quotes exactly if the pair is not empty; from a count
of two on it includes the quotes. -/
theorem quotedLaw_iff {lines : List Line} {cursor : Position} {quote : UInt8} {count : Nat} :
    QuotedLaw lines cursor quote count ↔ ∀ line, lineAt? lines cursor.lnum = some line →
      ∀ l r, QuotePair line quote (min cursor.col (line.length - 1)) l r → count < 2 ∧ l + 1 < r := by
  have hquoted : ∀ line, lineAt? lines cursor.lnum = some line → ∀ range,
      quoted lines cursor true quote count = some range ↔
        ∃ l r, QuotePair line quote (min cursor.col (line.length - 1)) l r ∧
          range = (if count < 2 then
            ⟨⟨cursor.lnum, l + 1⟩, ⟨cursor.lnum, max (r - 1) (l + 1)⟩, .characterWise, true⟩
          else ⟨⟨cursor.lnum, l⟩, ⟨cursor.lnum, r⟩, .characterWise, true⟩) := by
    intro line hline range
    unfold quoted
    rw [hline, Option.bind_eq_bind, Option.bind_some]
    dsimp only
    rw [Option.bind_eq_bind, Option.bind_eq_some_iff, Prod.exists]
    refine exists_congr fun l => exists_congr fun r => and_congr quotePair_iff ?_
    by_cases hcount : count < 2
    · rw [if_pos ⟨rfl, hcount⟩, if_pos hcount, eq_comm, Option.pure_def, Option.some_inj]
    · rw [if_neg (fun h => hcount h.2), if_pos rfl, if_neg hcount, eq_comm, Option.pure_def,
        Option.some_inj]
  constructor
  · intro h line hline l r hpair
    obtain ⟨l', r', hpair', -, -, hstart, hle, hstop⟩ :=
      h line hline _ ((hquoted line hline _).mpr ⟨l, r, hpair, rfl⟩)
    have hsame := (quotePair_iff.mpr hpair).symm.trans (quotePair_iff.mpr hpair')
    obtain ⟨rfl, rfl⟩ := Prod.mk.inj (Option.some.inj hsame)
    by_cases hcount : count < 2
    · rw [if_pos hcount] at hstart hle hstop
      dsimp only at hstart hle hstop
      omega
    · rw [if_neg hcount] at hstart
      exact absurd hstart (lt_irrefl _)
  · intro h line hline range hrange
    obtain ⟨l, r, hpair, rfl⟩ := (hquoted line hline range).mp hrange
    obtain ⟨hcount, hlt⟩ := h line hline l r hpair
    rw [if_pos hcount]
    refine ⟨l, r, hpair, rfl, rfl, ?_, ?_, ?_⟩
    · exact Nat.lt_succ_self l
    · exact le_max_right _ _
    · dsimp only
      omega

/-- The text objects of brackets select the enclosing pairs and what is inside of them exactly where
no pair ends at the cursor, no pair before the cursor is in the way outward and what is inside begins
in the line of the opening bracket. Those of quotes select what is inside of them exactly if there is
something and the count is not one that includes the quotes. -/
theorem textObjects_iff {lines : List Line} {cursor : Position} (hcursor : CursorIn lines cursor) :
    (∀ kind ∈ bracketKinds, DelimitedLaw lines cursor kind ↔ DelimitedFits lines cursor kind) ∧
      ∀ quote count, QuotedLaw lines cursor quote count ↔
        ∀ line, lineAt? lines cursor.lnum = some line →
          ∀ l r, QuotePair line quote (min cursor.col (line.length - 1)) l r →
            count < 2 ∧ l + 1 < r :=
  ⟨fun _ hkind => delimitedLaw_iff hkind hcursor, fun _ _ => quotedLaw_iff⟩

theorem textObjects_iff_inside :
    (∀ kind ∈ bracketKinds, DelimitedLaw [['('.toUInt8, 'x'.toUInt8, ')'.toUInt8]] ⟨1, 1⟩ kind ↔
      DelimitedFits [['('.toUInt8, 'x'.toUInt8, ')'.toUInt8]] ⟨1, 1⟩ kind) ∧
      ∀ quote count, QuotedLaw [['('.toUInt8, 'x'.toUInt8, ')'.toUInt8]] ⟨1, 1⟩ quote count ↔
        ∀ line, lineAt? [['('.toUInt8, 'x'.toUInt8, ')'.toUInt8]] 1 = some line →
          ∀ l r, QuotePair line quote (min 1 (line.length - 1)) l r → count < 2 ∧ l + 1 < r :=
  textObjects_iff ⟨_, rfl, .inl (by decide)⟩

/-- On the closing bracket of a pair there is no text object. -/
theorem not_delimitedLaw_close : ¬DelimitedLaw [['('.toUInt8, 'x'.toUInt8, ')'.toUInt8]] ⟨1, 2⟩
    ('('.toUInt8, ')'.toUInt8) := by
  intro h
  have hlinked : Linked (byteDelims '('.toUInt8 ')'.toUInt8)
      ['('.toUInt8, 'x'.toUInt8, ')'.toUInt8] 0 2 :=
    (scan_iff_linked (k := 1) (x := '('.toUInt8) rfl (.inl (by decide))).mp (by decide)
  have hinnermost : ∀ l r, Enclosing (byteDelims '('.toUInt8 ')'.toUInt8)
      ['('.toUInt8, 'x'.toUInt8, ')'.toUInt8] 2 l r → l ≤ 0 := by
    intro l r henclosing
    have hopens := exists_opens_iff.mp (henclosing.linked.exists_opens fun _ => rfl)
    have hle := henclosing.left_le
    interval_cases l
    · exact le_rfl
    · exact absurd hopens (by decide)
    · exact absurd hopens (by decide)
  have hresult := h.around 1 0 2 (.first ⟨hlinked, by decide, by decide⟩ hinnermost)
  exact absurd hresult (by decide)

end Oxvim.Editor
