import Mathlib
import Oxvim.Lib.Glob
import Oxvim.Lib.Utf8Lossy
import Oxvim.Editor.Autocmd

/-!
# What autocommand patterns match

A pattern list is split at its commas, the groups of each part are expanded, and what comes out is
matched letter by letter. `splitPatternList` passes over a letter behind a backslash; `expandBraces`
does not, so that the three agree only where no escaped brace looks like one that opens or closes a
group.
-/

namespace Oxvim.Editor.Autocmd

open Lib.Glob

/-! ## Matching -/

/-- What a `*` makes of a row: a cell is set from the first one set on. -/
def starRow : (before : Bool) → List Bool → List Bool
  | _, [] => []
  | before, cell :: row => (cell || before) :: starRow (cell || before) row

def literalRow (literal : Char) (text : List Char) (row : List Bool) : List Bool :=
  false :: List.zipWith (fun cell c => cell && literal == c) row text

/-- The cells of a row tell at which places of the text the pattern so far can end. -/
def globRow (text : List Char) : (pattern : List Char) → (row : List Bool) → List Bool
  | [], row => row
  | '*' :: pattern, row => globRow text pattern (starRow false row)
  | '?' :: pattern, row => globRow text pattern (false :: row.dropLast)
  | '\\' :: c :: pattern, row => globRow text pattern (literalRow c text row)
  | literal :: pattern, row => globRow text pattern (literalRow literal text row)

def globMatch (pattern text : List Char) : Bool :=
  (globRow text pattern (true :: List.replicate text.length false))[text.length]?.getD false

/-- What is behind the last slash. -/
def tailOf (name : List Char) : List Char :=
  (name.reverse.takeWhile (· ≠ '/')).reverse

def patternMatches (pattern : StoredPattern) (buffer : Option BufHandle)
    (fileName : Option (List UInt8)) : Bool :=
  match pattern with
  | .buffer expected => buffer == some expected
  | .glob patterns =>
    let name := (fileName.map Lib.Utf8.fromUtf8Lossy).getD []
    patterns.any fun pattern =>
      let candidate := if pattern.toList.contains '/' then name else tailOf name
      globMatch pattern.toList candidate

/-! ## Rows -/

section Rows

variable {text : List Char} {done : List Atom} {row : List Bool}

/-- The row tells which prefixes of the text the atoms so far read. -/
def RowOf (text : List Char) (done : List Atom) (row : List Bool) : Prop :=
  row.length = text.length + 1 ∧
    ∀ k ≤ text.length, (row[k]? = some true ↔ ReadsAll done (text.take k))

theorem rowOf_nil (text : List Char) :
    RowOf text [] (true :: List.replicate text.length false) := by
  constructor
  · simp
  · intro k hk
    cases k with
    | zero => simp [ReadsAll]
    | succ k =>
      have hne : text.take (k + 1) ≠ [] := by
        rw [ne_eq, List.take_eq_nil_iff]
        rintro (h | rfl)
        · cases h
        · simp at hk
      have hcell : (List.replicate text.length false)[k]? ≠ some true := by
        simp [List.getElem?_replicate]
      exact iff_of_false (by simpa using hcell) hne

theorem length_starRow (before : Bool) (row : List Bool) :
    (starRow before row).length = row.length := by
  induction row generalizing before with
  | nil => rfl
  | cons cell row ih => simp [starRow, ih]

theorem starRow_getElem? (before : Bool) (row : List Bool) {k : Nat} (hk : k < row.length) :
    (starRow before row)[k]? = some true ↔ before = true ∨ ∃ j ≤ k, row[j]? = some true := by
  induction row generalizing before k with
  | nil => cases hk
  | cons cell row ih =>
    cases k with
    | zero => simp [starRow, or_comm]
    | succ k =>
      rw [starRow, List.getElem?_cons_succ, ih _ (by simpa using hk), Bool.or_eq_true]
      constructor
      · rintro ((h | h) | ⟨j, hj, h⟩)
        · exact .inr ⟨0, Nat.zero_le _, by simp [h]⟩
        · exact .inl h
        · exact .inr ⟨j + 1, by omega, by simpa using h⟩
      · rintro (h | ⟨j, hj, h⟩)
        · exact .inl (.inr h)
        · cases j with
          | zero => exact .inl (.inl (by simpa using h))
          | succ j => exact .inr ⟨j, by omega, by simpa using h⟩

/-- A `*` reads what is left after any shorter prefix. -/
theorem rowOf_star (h : RowOf text done row) :
    RowOf text (done ++ [.star]) (starRow false row) := by
  refine ⟨by rw [length_starRow, h.1], fun k hk => ?_⟩
  rw [starRow_getElem? false row (by rw [h.1]; omega), readsAll_append]
  simp only [Bool.false_eq_true, false_or, readsAll_singleton]
  constructor
  · rintro ⟨j, hj, hcell⟩
    refine ⟨text.take j, (text.take k).drop j, ?_, (h.2 j (by omega)).mp hcell, trivial⟩
    rw [← List.take_append_drop j (text.take k), List.take_take, Nat.min_eq_left hj,
      List.drop_append_of_le_length (by simp; omega)]
    simp
  · rintro ⟨front, back, heq, hfront, -⟩
    have hlen := congrArg List.length heq
    simp only [List.length_take, List.length_append] at hlen
    refine ⟨front.length, by omega, (h.2 _ (by omega)).mpr ?_⟩
    have htake := congrArg (List.take front.length) heq
    rw [List.take_take, Nat.min_eq_left (by omega), List.take_left] at htake
    rwa [htake]

/-- An atom that stands for one letter reads the letter before a place. -/
theorem rowOf_letter {a : Atom} {p : Char → Prop} {next : List Bool}
    (ha : ∀ text, a.Reads text ↔ ∃ c, text = [c] ∧ p c) (h : RowOf text done row)
    (hlen : next.length = text.length + 1) (hfirst : next[0]? ≠ some true)
    (hnext : ∀ k (hk : k < text.length),
      (next[k + 1]? = some true ↔ row[k]? = some true ∧ p text[k])) :
    RowOf text (done ++ [a]) next := by
  refine ⟨hlen, fun k hk => ?_⟩
  rw [readsAll_append]
  simp only [readsAll_singleton, ha]
  cases k with
  | zero =>
    refine iff_of_false hfirst ?_
    rintro ⟨front, back, heq, -, c, rfl, -⟩
    simp at heq
  | succ k =>
    rw [hnext k (by omega), h.2 k (by omega)]
    have hsplit : text.take (k + 1) = text.take k ++ [text[k]] := by
      rw [List.take_succ_eq_append_getElem]
    constructor
    · rintro ⟨hdone, hc⟩
      exact ⟨text.take k, [text[k]], hsplit, hdone, text[k], rfl, hc⟩
    · rintro ⟨front, back, heq, hdone, c, rfl, hc⟩
      rw [hsplit] at heq
      obtain ⟨rfl, hlast⟩ := List.append_inj' heq rfl
      obtain rfl := List.singleton_inj.mp hlast
      exact ⟨hdone, hc⟩

theorem rowOf_any (h : RowOf text done row) :
    RowOf text (done ++ [.any]) (false :: row.dropLast) := by
  apply rowOf_letter (p := fun _ => True) ?_ h
  · simp [h.1]
  · simp
  · intro k hk
    rw [List.getElem?_cons_succ, List.getElem?_dropLast, if_pos (by rw [h.1]; omega)]
    simp
  · intro text
    simp [Atom.Reads, List.length_eq_one_iff]

theorem rowOf_literal {a : Atom} {literal : Char} (ha : ∀ text, a.Reads text ↔ text = [literal])
    (h : RowOf text done row) : RowOf text (done ++ [a]) (literalRow literal text row) := by
  apply rowOf_letter (p := (literal = ·)) ?_ h
  · simp [literalRow, h.1]
  · simp [literalRow]
  · intro k hk
    have hrow : k < row.length := by
      rw [h.1]
      omega
    rw [literalRow, List.getElem?_cons_succ, List.getElem?_zipWith, List.getElem?_eq_getElem hrow,
      List.getElem?_eq_getElem hk]
    simp
  · intro text
    rw [ha]
    constructor
    · rintro rfl
      exact ⟨literal, rfl, rfl⟩
    · rintro ⟨c, rfl, rfl⟩
      rfl

/-- Matching goes through the atoms of a pattern. -/
theorem rowOf_globRow (as : List Atom) (h : RowOf text done row) :
    RowOf text (done ++ as) (globRow text (sourceOf as) row) := by
  induction as generalizing done row with
  | nil => simpa [globRow] using h
  | cons a as ih =>
    rw [sourceOf_cons, List.append_cons]
    cases a with
    | star => exact ih (rowOf_star h)
    | any => exact ih (rowOf_any h)
    | escaped c => exact ih (rowOf_literal (fun _ => Iff.rfl) h)
    | plain c hc =>
      have hrow : globRow text ((Atom.plain c hc).source ++ sourceOf as) row
          = globRow text (sourceOf as) (literalRow c text row) := by
        simp only [List.mem_cons, not_or] at hc
        simp only [Atom.source, List.singleton_append]
        rw [globRow] <;> simp_all
      rw [hrow]
      exact ih (rowOf_literal (fun _ => Iff.rfl) h)

/-- A pattern of atoms matches what the atoms read. -/
theorem globMatch_sourceOf (as : List Atom) (text : List Char) :
    globMatch (sourceOf as) text = true ↔ ReadsAll as text := by
  have hrow := rowOf_globRow as (rowOf_nil text)
  have hlast := hrow.2 text.length (Nat.le_refl _)
  rw [List.take_length, List.nil_append] at hlast
  rw [← hlast, globMatch]
  have hcell := List.getElem?_eq_getElem (by rw [hrow.1]; omega :
    text.length < (globRow text (sourceOf as) (true :: List.replicate text.length false)).length)
  rw [hcell]
  simp

end Rows

/-! ## Splitting -/

section Split

mutual

/-- Splitting passes over a pattern. -/
theorem splitPatternFrom_source : (p : Pattern) → (more : List Char) → (depth : Nat) →
    (current : List Char) → splitPatternFrom (p.source ++ more) depth false current
      = splitPatternFrom more depth false (current ++ p.source)
  | .nil, more, depth, current => by rw [Pattern.source, List.nil_append, List.append_nil]
  | .atom a rest, more, depth, current => by
    have ih := splitPatternFrom_source rest more depth
    rw [Pattern.source, List.append_assoc]
    cases a with
    | star => simp [Atom.source, splitPatternFrom, ih]
    | any => simp [Atom.source, splitPatternFrom, ih]
    | escaped c => simp [Atom.source, splitPatternFrom, ih]
    | plain c hc =>
      simp only [List.mem_cons, not_or] at hc
      simp [Atom.source, splitPatternFrom, ih, hc]
  | .group alts rest, more, depth, current => by
    have hrest := splitPatternFrom_source rest more depth
    have halts := splitPatternFrom_alts alts ('\x7d' :: (rest.source ++ more)) depth
    rw [Pattern.source]
    simp only [List.cons_append, List.append_assoc]
    rw [splitPatternFrom, if_neg Bool.false_ne_true, if_neg (by decide), if_pos rfl, halts,
      splitPatternFrom, if_neg Bool.false_ne_true, if_neg (by decide), if_neg (by decide),
      if_pos rfl, if_neg (Nat.succ_ne_zero depth), Nat.add_sub_cancel, hrest]
    simp

theorem splitPatternFrom_alts : (alts : Alts) → (more : List Char) → (depth : Nat) →
    (current : List Char) → splitPatternFrom (alts.source ++ more) (depth + 1) false current
      = splitPatternFrom more (depth + 1) false (current ++ alts.source)
  | .last p, more, depth, current => splitPatternFrom_source p more (depth + 1) current
  | .more p alts, more, depth, current => by
    rw [Alts.source, List.append_assoc, splitPatternFrom_source p _ (depth + 1), List.cons_append,
      splitPatternFrom, if_neg Bool.false_ne_true, if_neg (by decide), if_neg (by decide),
      if_neg (by decide), if_neg (fun h => Nat.succ_ne_zero depth h.2),
      splitPatternFrom_alts alts more depth]
    simp

end

/-- What splitting refuses at any depth: a group that is not closed. -/
def Unclosed (text : List Char) : Prop :=
  ∀ depth current, splitPatternFrom text depth false current = .error .unbalancedBraces

/-- Where a pattern stops: the text ends, or what is next is not of it. -/
inductive Stop : List Char → Prop where
  | nil : Stop []
  | backslash : Stop ['\\']
  | comma (rest : List Char) : Stop (',' :: rest)
  | close (rest : List Char) : Stop ('\x7d' :: rest)
  | unclosed {text : List Char} (h : Unclosed text) : Stop text

/-- The letters that do not stand for themselves. -/
theorem special_cases (c : Char) :
    c = '\\' ∨ c = '\x7b' ∨ c = '\x7d' ∨ c = ',' ∨ c = '*' ∨ c = '?' ∨
    c ∉ ['\\', '\x7b', '\x7d', ',', '*', '?'] := by
  simp only [List.mem_cons, List.not_mem_nil]
  tauto

/-- The alternatives a text begins with, where patterns of the text can be read off. -/
theorem exists_alts {n : Nat} (ih : ∀ text : List Char, text.length < n →
    ∃ (p : Pattern) (rest : List Char), text = p.source ++ rest ∧ Stop rest) :
    ∀ text : List Char, text.length < n → ∃ (alts : Alts) (rest : List Char),
      text = alts.source ++ rest ∧ Stop rest ∧ ∀ more, rest ≠ ',' :: more := by
  intro text
  induction hm : text.length using Nat.strongRecOn generalizing text with
  | ind m ihm =>
    intro hlt
    obtain ⟨p, rest, rfl, hstop⟩ := ih text (by omega)
    by_cases hcomma : ∃ more, rest = ',' :: more
    · obtain ⟨more, rfl⟩ := hcomma
      have hless : more.length < m := by
        simp only [List.length_append, List.length_cons] at hm
        omega
      obtain ⟨alts, rest, rfl, hrest⟩ := ihm more.length hless more rfl (by omega)
      refine ⟨.more p alts, rest, ?_, hrest⟩
      rw [Alts.source, List.append_assoc, List.cons_append]
    · exact ⟨.last p, rest, rfl, hstop, fun more h => hcomma ⟨more, h⟩⟩

/-- Every text begins with a pattern, up to where it must stop. -/
theorem exists_pattern (text : List Char) :
    ∃ (p : Pattern) (rest : List Char), text = p.source ++ rest ∧ Stop rest := by
  induction hn : text.length using Nat.strongRecOn generalizing text with
  | ind n ih =>
    have hsmall : ∀ text : List Char, text.length < n →
        ∃ (p : Pattern) (rest : List Char), text = p.source ++ rest ∧ Stop rest :=
      fun text h => ih text.length h text rfl
    have hatom : ∀ (a : Atom) (tail : List Char), text = a.source ++ tail →
        ∃ (p : Pattern) (rest : List Char), text = p.source ++ rest ∧ Stop rest := by
      rintro a tail rfl
      have hpos := List.length_pos_of_ne_nil a.source_ne_nil
      rw [List.length_append] at hn
      obtain ⟨p, rest, rfl, hstop⟩ := hsmall tail (by omega)
      exact ⟨.atom a p, rest, by rw [Pattern.source, List.append_assoc], hstop⟩
    cases text with
    | nil => exact ⟨.nil, [], rfl, .nil⟩
    | cons c tail =>
      obtain rfl | rfl | rfl | rfl | rfl | rfl | hplain := special_cases c
      · cases tail with
        | nil => exact ⟨.nil, _, rfl, .backslash⟩
        | cons c tail => exact hatom (.escaped c) tail rfl
      · -- A group: what follows its alternatives decides whether it is closed.
        have htail : tail.length < n := by
          rw [← hn]
          exact Nat.lt_succ_self _
        obtain ⟨alts, rest, rfl, hstop, hcomma⟩ := exists_alts hsmall tail htail
        have hopen : ∀ depth current, splitPatternFrom ('\x7b' :: (alts.source ++ rest)) depth false
            current = splitPatternFrom rest (depth + 1) false
              (current ++ ['\x7b'] ++ alts.source) := by
          intro depth current
          rw [splitPatternFrom, if_neg Bool.false_ne_true, if_neg (by decide), if_pos rfl,
            splitPatternFrom_alts]
        cases hstop with
        | nil => exact ⟨.nil, _, rfl, .unclosed fun depth current => by
            rw [hopen, splitPatternFrom, if_pos (Nat.succ_ne_zero depth)]⟩
        | backslash => exact ⟨.nil, _, rfl, .unclosed fun depth current => by
            rw [hopen, splitPatternFrom, if_neg Bool.false_ne_true, if_pos rfl, splitPatternFrom,
              if_pos (Nat.succ_ne_zero depth)]⟩
        | comma more => exact absurd rfl (hcomma more)
        | close more =>
          rw [List.length_append, List.length_cons] at htail
          obtain ⟨p, rest, rfl, hstop⟩ := hsmall more (by omega)
          refine ⟨.group alts p, rest, ?_, hstop⟩
          rw [Pattern.source]
          simp
        | unclosed h => exact ⟨.nil, _, rfl, .unclosed fun depth current => by
            rw [hopen]
            exact h _ _⟩
      · exact ⟨.nil, _, rfl, .close tail⟩
      · exact ⟨.nil, _, rfl, .comma tail⟩
      · exact hatom .star tail rfl
      · exact hatom .any tail rfl
      · exact hatom (.plain c hplain) tail rfl

/-- A lone backslash at the end is doubled. -/
def paired : List Char → List Char
  | ['\\'] => ['\\', '\\']
  | '\\' :: c :: text => '\\' :: c :: paired text
  | c :: text => c :: paired text
  | [] => []

mutual

theorem paired_source : (p : Pattern) → (more : List Char) →
    paired (p.source ++ more) = p.source ++ paired more
  | .nil, more => rfl
  | .atom a rest, more => by
    have ih := paired_source rest more
    rw [Pattern.source, List.append_assoc]
    cases a with
    | star => simp [Atom.source, paired, ih]
    | any => simp [Atom.source, paired, ih]
    | escaped c => simp [Atom.source, paired, ih]
    | plain c hc =>
      simp only [List.mem_cons, not_or] at hc
      simp [Atom.source, paired, ih, hc]
  | .group alts rest, more => by
    have halts := paired_alts alts ('\x7d' :: (rest.source ++ more))
    have hrest := paired_source rest more
    rw [Pattern.source]
    simp [paired, halts, hrest]

theorem paired_alts : (alts : Alts) → (more : List Char) →
    paired (alts.source ++ more) = alts.source ++ paired more
  | .last p, more => paired_source p more
  | .more p alts, more => by
    have hp := paired_source p (',' :: (alts.source ++ more))
    have halts := paired_alts alts more
    rw [Alts.source]
    simp [paired, hp, halts]

end

/-- The parts that a pattern list is split into are the alternatives it is written of. -/
theorem splitPatternFrom_ok {text current : List Char} {parts : List (List Char)}
    (h : splitPatternFrom text 0 false current = .ok parts) :
    ∃ alts : Alts, paired text = alts.source ∧
      ∃ first rest, alts.toList = first :: rest ∧
        parts = (current ++ first.source) :: rest.map Pattern.source := by
  induction hn : text.length using Nat.strongRecOn generalizing text current parts with
  | ind n ih =>
    obtain ⟨p, rest, rfl, hstop⟩ := exists_pattern text
    rw [splitPatternFrom_source] at h
    rw [paired_source]
    cases hstop with
    | nil =>
      rw [splitPatternFrom, if_neg (by decide), if_neg Bool.false_ne_true] at h
      cases h
      exact ⟨.last p, List.append_nil _, p, [], rfl, rfl⟩
    | backslash =>
      rw [splitPatternFrom, if_neg Bool.false_ne_true, if_pos rfl, splitPatternFrom,
        if_neg (by decide), if_pos rfl] at h
      cases h
      have hsource := source_append p (.atom (.escaped '\\') .nil)
      refine ⟨.last (p.append (.atom (.escaped '\\') .nil)), ?_, _, [], rfl, ?_⟩
      · rw [Alts.source, hsource]
        rfl
      · rw [hsource]
        simp [Pattern.source, Atom.source]
    | comma rest =>
      rw [splitPatternFrom, if_neg Bool.false_ne_true, if_neg (by decide), if_neg (by decide),
        if_neg (by decide), if_pos ⟨rfl, rfl⟩] at h
      cases hrest : splitPatternFrom rest 0 false [] with
      | error e =>
        rw [hrest] at h
        cases h
      | ok others =>
        rw [hrest] at h
        cases h
        have hless : rest.length < n := by
          rw [← hn, List.length_append, List.length_cons]
          omega
        obtain ⟨alts, hpaired, first, rest, htoList, rfl⟩ := ih rest.length hless hrest rfl
        refine ⟨.more p alts, ?_, p, alts.toList, rfl, ?_⟩
        · rw [Alts.source, ← hpaired]
          simp [paired]
        · rw [htoList]
          simp
    | close rest =>
      rw [splitPatternFrom, if_neg Bool.false_ne_true, if_neg (by decide), if_neg (by decide),
        if_pos rfl, if_pos rfl] at h
      cases h
    | unclosed hunclosed =>
      rw [hunclosed] at h
      cases h

theorem splitPatternList_ok {text : List Char} {parts : List (List Char)}
    (h : splitPatternList text = .ok parts) :
    ∃ alts : Alts, paired text = alts.source ∧ parts = alts.toList.map Pattern.source := by
  obtain ⟨alts, hpaired, first, rest, htoList, rfl⟩ := splitPatternFrom_ok h
  exact ⟨alts, hpaired, by rw [htoList, List.nil_append, List.map_cons]⟩

/-- The alternatives of a group are split as they are written. -/
theorem splitPatternList_alts (alts : Alts) :
    splitPatternList alts.source = .ok (alts.toList.map Pattern.source) := by
  rw [splitPatternList]
  match alts with
  | .last p =>
    have h := splitPatternFrom_source p [] 0 []
    rw [List.append_nil] at h
    rw [Alts.source, h]
    rfl
  | .more p alts =>
    have ih := splitPatternList_alts alts
    rw [splitPatternList] at ih
    rw [Alts.source, splitPatternFrom_source, splitPatternFrom, if_neg Bool.false_ne_true,
      if_neg (by decide), if_neg (by decide), if_neg (by decide), if_pos ⟨rfl, rfl⟩, ih]
    rfl

end Split

/-! ## Escaped braces -/

/-- No brace behind a backslash opens, and none inside a group closes: `depth` groups are open. -/
def bracesPlain : List Char → (depth : Nat) → Bool
  | '\\' :: c :: text, depth =>
    c != '\x7b' && !(c == '\x7d' && depth != 0) && bracesPlain text depth
  | '\x7b' :: text, depth => bracesPlain text (depth + 1)
  | '\x7d' :: text, depth => bracesPlain text (depth - 1)
  | _ :: text, depth => bracesPlain text depth
  | [], _ => true

/-- An escaped letter is no brace that expanding would count. -/
def Atom.Tame (depth : Nat) : Atom → Prop
  | .escaped c => c ≠ '\x7b' ∧ (c = '\x7d' → depth = 0)
  | _ => True

mutual

def Pattern.Tame (depth : Nat) : Pattern → Prop
  | .nil => True
  | .atom a rest => Atom.Tame depth a ∧ Pattern.Tame depth rest
  | .group alts rest => Alts.Tame (depth + 1) alts ∧ Pattern.Tame depth rest

def Alts.Tame (depth : Nat) : Alts → Prop
  | .last p => Pattern.Tame depth p
  | .more p alts => Pattern.Tame depth p ∧ Alts.Tame depth alts

end

section Tame

theorem bracesPlain_atom (a : Atom) (more : List Char) (depth : Nat) :
    bracesPlain (a.source ++ more) depth = true ↔ Atom.Tame depth a ∧ bracesPlain more depth := by
  cases a with
  | star => simp [Atom.source, bracesPlain, Atom.Tame]
  | any => simp [Atom.source, bracesPlain, Atom.Tame]
  | escaped c =>
    simp only [Atom.source, List.cons_append, List.nil_append, bracesPlain, Atom.Tame]
    grind
  | plain c hc =>
    simp only [List.mem_cons, not_or] at hc
    simp [Atom.source, bracesPlain, Atom.Tame, hc]

mutual

theorem bracesPlain_source : (p : Pattern) → (more : List Char) → (depth : Nat) →
    (bracesPlain (p.source ++ more) depth = true ↔ Pattern.Tame depth p ∧ bracesPlain more depth)
  | .nil, more, depth => by simp [Pattern.source, Pattern.Tame]
  | .atom a rest, more, depth => by
    rw [Pattern.source, List.append_assoc, bracesPlain_atom, bracesPlain_source rest more depth,
      Pattern.Tame, and_assoc]
  | .group alts rest, more, depth => by
    have halts := bracesPlain_alts alts ('\x7d' :: (rest.source ++ more)) (depth + 1)
    rw [bracesPlain, Nat.add_sub_cancel, bracesPlain_source rest more depth] at halts
    rw [Pattern.source, Pattern.Tame]
    simp only [List.cons_append, List.append_assoc]
    rw [bracesPlain, halts, and_assoc]

theorem bracesPlain_alts : (alts : Alts) → (more : List Char) → (depth : Nat) →
    (bracesPlain (alts.source ++ more) depth = true ↔ Alts.Tame depth alts ∧ bracesPlain more depth)
  | .last p, more, depth => by rw [Alts.source, Alts.Tame, bracesPlain_source p more depth]
  | .more p alts, more, depth => by
    have halts := bracesPlain_alts alts more depth
    have hcomma : bracesPlain (',' :: (alts.source ++ more)) depth
        = bracesPlain (alts.source ++ more) depth := by simp [bracesPlain]
    rw [Alts.source, List.append_assoc, List.cons_append, bracesPlain_source, hcomma, halts,
      Alts.Tame, and_assoc]

end

/-- Doubling the last backslash escapes no brace. -/
theorem bracesPlain_paired (text : List Char) (depth : Nat) :
    bracesPlain (paired text) depth = bracesPlain text depth := by
  fun_induction paired text generalizing depth with
  | case1 => simp [bracesPlain]
  | case2 c text ih => simp [bracesPlain, ih]
  | case3 c text hlone hpair ih =>
    by_cases hback : c = '\\'
    · subst hback
      cases text with
      | nil => exact absurd rfl (hlone rfl)
      | cons c text => exact absurd rfl (hpair c text rfl)
    by_cases hopen : c = '\x7b'
    · subst hopen
      simp [bracesPlain, ih]
    by_cases hclose : c = '\x7d'
    · subst hclose
      simp [bracesPlain, ih]
    · simp [bracesPlain, ih, hback]
  | case4 => rfl

theorem tame_of_mem {depth : Nat} {alts : Alts} (h : Alts.Tame depth alts) :
    ∀ p ∈ alts.toList, Pattern.Tame depth p := by
  match alts with
  | .last p =>
    intro q hq
    obtain rfl := List.mem_singleton.mp hq
    exact h
  | .more p alts =>
    obtain ⟨hp, halts⟩ := h
    intro q hq
    rcases List.mem_cons.mp hq with rfl | hq
    · exact hp
    · exact tame_of_mem halts q hq

theorem tame_ofAtoms {depth : Nat} (as : List Atom) (p : Pattern) :
    Pattern.Tame depth (ofAtoms as p) ↔ (∀ a ∈ as, Atom.Tame depth a) ∧ Pattern.Tame depth p := by
  induction as with
  | nil => simp [ofAtoms]
  | cons a as ih =>
    rw [show ofAtoms (a :: as) p = .atom a (ofAtoms as p) from rfl, Pattern.Tame, ih,
      List.forall_mem_cons, and_assoc]

theorem tame_atom_of_le {depth deeper : Nat} (hle : depth ≤ deeper) {a : Atom}
    (h : Atom.Tame deeper a) : Atom.Tame depth a := by
  cases a with
  | escaped c => exact ⟨h.1, fun hc => Nat.le_zero.mp (h.2 hc ▸ hle)⟩
  | _ => trivial

mutual

/-- What is tame inside a group is tame outside of it. -/
theorem tame_of_le {depth deeper : Nat} (hle : depth ≤ deeper) : (p : Pattern) →
    Pattern.Tame deeper p → Pattern.Tame depth p
  | .nil, _ => trivial
  | .atom _ rest, h => ⟨tame_atom_of_le hle h.1, tame_of_le hle rest h.2⟩
  | .group alts rest, h =>
    ⟨tame_alts_of_le (Nat.succ_le_succ hle) alts h.1, tame_of_le hle rest h.2⟩

theorem tame_alts_of_le {depth deeper : Nat} (hle : depth ≤ deeper) : (alts : Alts) →
    Alts.Tame deeper alts → Alts.Tame depth alts
  | .last p, h => tame_of_le hle p h
  | .more p alts, h => ⟨tame_of_le hle p h.1, tame_alts_of_le hle alts h.2⟩

end

theorem tame_append {p q : Pattern} {depth : Nat} (hp : Pattern.Tame depth p)
    (hq : Pattern.Tame depth q) : Pattern.Tame depth (p.append q) := by
  fun_induction p.append q with
  | case1 q => exact hq
  | case2 q a rest ih => exact ⟨hp.1, ih hp.2 hq⟩
  | case3 q alts rest ih => exact ⟨hp.1, ih hp.2 hq⟩

end Tame

/-! ## Expanding -/

section Expand

theorem closeBrace_open (text : List Char) (depth index : Nat) :
    closeBrace ('\x7b' :: text) depth index = closeBrace text (depth + 1) (index + 1) := by
  simp [closeBrace]

theorem closeBrace_close (text : List Char) (depth index : Nat) :
    closeBrace ('\x7d' :: text) (depth + 2) index = closeBrace text (depth + 1) (index + 1) := by
  simp [closeBrace]

theorem closeBrace_last (text : List Char) (index : Nat) :
    closeBrace ('\x7d' :: text) 1 index = some index := by
  simp [closeBrace]

theorem closeBrace_comma (text : List Char) (depth index : Nat) :
    closeBrace (',' :: text) depth index = closeBrace text depth (index + 1) := by
  simp [closeBrace]

mutual

/-- Looking for the closing brace passes over a tame pattern. -/
theorem closeBrace_source : (p : Pattern) → (more : List Char) → (depth index : Nat) →
    Pattern.Tame (depth + 1) p → closeBrace (p.source ++ more) (depth + 1) index
      = closeBrace more (depth + 1) (index + p.source.length)
  | .nil, more, depth, index, _ => rfl
  | .atom a rest, more, depth, index, h => by
    have ih := fun index => closeBrace_source rest more depth index h.2
    have ha := h.1
    rw [Pattern.source, List.append_assoc]
    cases a with
    | star => simp [Atom.source, closeBrace, ih, Nat.add_assoc, Nat.add_comm 1]
    | any => simp [Atom.source, closeBrace, ih, Nat.add_assoc, Nat.add_comm 1]
    | escaped c =>
      have hopen : c ≠ '\x7b' := ha.1
      have hclose : c ≠ '\x7d' := fun hc => Nat.succ_ne_zero depth (ha.2 hc)
      simp [Atom.source, closeBrace, ih, hopen, hclose, Nat.add_assoc, Nat.add_comm 2]
    | plain c hc =>
      simp only [List.mem_cons, not_or] at hc
      simp [Atom.source, closeBrace, ih, hc, Nat.add_assoc, Nat.add_comm 1]
  | .group alts rest, more, depth, index, h => by
    have halts := closeBrace_alts alts ('\x7d' :: (rest.source ++ more)) (depth + 1) (index + 1) h.1
    have hrest := fun index => closeBrace_source rest more depth index h.2
    rw [Pattern.source]
    simp only [List.cons_append, List.append_assoc]
    rw [closeBrace_open, halts, closeBrace_close, hrest]
    congr 1
    simp only [List.length_cons, List.length_append]
    omega

theorem closeBrace_alts : (alts : Alts) → (more : List Char) → (depth index : Nat) →
    Alts.Tame (depth + 1) alts → closeBrace (alts.source ++ more) (depth + 1) index
      = closeBrace more (depth + 1) (index + alts.source.length)
  | .last p, more, depth, index, h => closeBrace_source p more depth index h
  | .more p alts, more, depth, index, h => by
    have halts := fun index => closeBrace_alts alts more depth index h.2
    rw [Alts.source, List.append_assoc, closeBrace_source p _ depth index h.1, List.cons_append,
      closeBrace_comma, halts]
    congr 1
    simp only [List.length_append, List.length_cons]
    omega

end

/-- The first group is closed by its own brace. -/
theorem closeBrace_group {alts : Alts} (h : Alts.Tame 1 alts) (more : List Char) (index : Nat) :
    closeBrace ('\x7b' :: (alts.source ++ '\x7d' :: more)) 0 index
      = some (index + 1 + alts.source.length) := by
  have halts := closeBrace_alts alts ('\x7d' :: more) 0 (index + 1) h
  rw [closeBrace_open, halts, closeBrace_last]

theorem not_mem_sourceOf {as : List Atom} {depth : Nat} (h : ∀ a ∈ as, Atom.Tame depth a) :
    '\x7b' ∉ sourceOf as := by
  rw [sourceOf, List.mem_flatMap]
  rintro ⟨a, ha, hmem⟩
  cases a with
  | star => simp [Atom.source] at hmem
  | any => simp [Atom.source] at hmem
  | escaped c =>
    have hopen : c ≠ '\x7b' := (h _ ha).1
    simp [Atom.source, hopen.symm] at hmem
  | plain c hc =>
    simp only [List.mem_cons, not_or] at hc
    simp only [Atom.source, List.mem_singleton] at hmem
    exact hc.2.1 hmem.symm

theorem findIdx?_sourceOf {as : List Atom} (h : '\x7b' ∉ sourceOf as) (more : List Char) :
    (sourceOf as ++ '\x7b' :: more).findIdx? (· == '\x7b') = some (sourceOf as).length := by
  have hnone : (sourceOf as).findIdx? (· == '\x7b') = none := by
    rw [List.findIdx?_eq_none_iff]
    intro c hc
    rw [beq_eq_false_iff_ne]
    rintro rfl
    exact h hc
  rw [List.findIdx?_append, hnone]
  simp [List.findIdx?_cons]

theorem mapM_some {α β : Type*} {f : α → Option β} {g : α → β} {as : List α}
    (h : ∀ a ∈ as, f a = some (g a)) : as.mapM f = some (as.map g) := by
  induction as with
  | nil => rfl
  | cons a as ih =>
    rw [List.mapM_cons, h a List.mem_cons_self, ih fun b hb => h b (List.mem_cons_of_mem a hb)]
    rfl

theorem expandBraces_of_none {pattern : List Char} (h : pattern.findIdx? (· == '\x7b') = none) :
    expandBraces pattern = some [pattern] := by
  rw [expandBraces]
  split
  · rfl
  · simp_all

theorem expandBraces_of_some {pattern : List Char} {start close : Nat}
    {alternatives : List (List Char)} (hstart : pattern.findIdx? (· == '\x7b') = some start)
    (hclose : closeBrace (pattern.drop start) 0 start = some close)
    (hsplit : splitPatternList ((pattern.take close).drop (start + 1)) = .ok alternatives) :
    expandBraces pattern = (alternatives.mapM fun alternative =>
      expandBraces (pattern.take start ++ alternative ++ pattern.drop (close + 1))).map
        List.flatten := by
  rw [expandBraces]
  split
  · simp_all
  · next hstart' =>
    obtain rfl := Option.some.inj (hstart.symm.trans hstart')
    split
    · simp_all
    · next hclose' =>
      obtain rfl := Option.some.inj (hclose.symm.trans hclose')
      split
      · simp_all
      · next hsplit' =>
        obtain rfl := Except.ok.inj (hsplit.symm.trans hsplit')
        rw [List.mapM_subtype (g := fun alternative => expandBraces
          (pattern.take start ++ alternative ++ pattern.drop (close + 1))) (fun _ _ => rfl),
          List.unattach_attach]

/-- Expanding a tame pattern gives its choices. -/
theorem expandBraces_source (p : Pattern) (h : Pattern.Tame 0 p) :
    expandBraces p.source = some (p.choices.map sourceOf) := by
  induction hn : p.source.length using Nat.strongRecOn generalizing p with
  | ind n ih =>
    obtain ⟨as, rfl | ⟨alts, rest, rfl⟩⟩ := exists_ofAtoms p
    · rw [tame_ofAtoms] at h
      have hnone : (sourceOf as).findIdx? (· == '\x7b') = none := by
        rw [List.findIdx?_eq_none_iff]
        intro c hc
        rw [beq_eq_false_iff_ne]
        rintro rfl
        exact not_mem_sourceOf h.1 hc
      rw [source_ofAtoms, choices_ofAtoms, Pattern.source, List.append_nil,
        expandBraces_of_none hnone]
      simp [Pattern.choices]
    · rw [tame_ofAtoms] at h
      obtain ⟨has, halts, hrest⟩ := h
      have hsource : (ofAtoms as (.group alts rest)).source
          = sourceOf as ++ '\x7b' :: (alts.source ++ '\x7d' :: rest.source) := by
        rw [source_ofAtoms, Pattern.source, List.cons_append]
      rw [hsource] at hn
      have hstart := findIdx?_sourceOf (not_mem_sourceOf has) (alts.source ++ '\x7d' :: rest.source)
      have hclose := closeBrace_group halts rest.source (sourceOf as).length
      have hmiddle : ((sourceOf as ++ '\x7b' :: (alts.source ++ '\x7d' :: rest.source)).take
          ((sourceOf as).length + 1 + alts.source.length)).drop ((sourceOf as).length + 1)
          = alts.source := by
        rw [List.append_cons, List.drop_take, List.drop_left' (by simp)]
        simp
      have hafter : (sourceOf as ++ '\x7b' :: (alts.source ++ '\x7d' :: rest.source)).drop
          ((sourceOf as).length + 1 + alts.source.length + 1) = rest.source := by
        rw [show sourceOf as ++ '\x7b' :: (alts.source ++ '\x7d' :: rest.source)
          = (sourceOf as ++ ['\x7b'] ++ alts.source ++ ['\x7d']) ++ rest.source by simp]
        apply List.drop_left'
        simp
        omega
      have hsplit := splitPatternList_alts alts
      have heach : ∀ q ∈ alts.toList, expandBraces (sourceOf as ++ q.source ++ rest.source)
          = some ((ofAtoms as (q.append rest)).choices.map sourceOf) := by
        intro q hq
        have htame : Pattern.Tame 0 (ofAtoms as (q.append rest)) := by
          rw [tame_ofAtoms]
          exact ⟨has, tame_append (tame_of_le (Nat.zero_le 1) q (tame_of_mem halts q hq)) hrest⟩
        have hlen := Alts.length_source_of_mem hq
        have hq := ih _ ?_ (ofAtoms as (q.append rest)) htame rfl
        · rwa [source_ofAtoms, source_append, ← List.append_assoc] at hq
        · rw [source_ofAtoms, source_append]
          simp only [List.length_append, List.length_cons] at hn ⊢
          omega
      rw [hsource, expandBraces_of_some hstart (by rw [List.drop_left]; exact hclose)
        (by rw [hmiddle]; exact hsplit), hafter, List.take_left, choices_group, List.map_flatMap,
        List.mapM_map, Function.comp_def, mapM_some heach, Option.map_some, List.flatMap_def]

end Expand

/-! ## What a stored pattern matches -/

section Matches

theorem contains_sourceOf (as : List Atom) :
    (sourceOf as).contains '/' = as.any (Atom.Marked (· == '/')) := by
  induction as with
  | nil => rfl
  | cons a as ih =>
    have ha : a.source.contains '/' = a.Marked (· == '/') := by
      cases a with
      | star => rfl
      | any => rfl
      | escaped c => simp [Atom.source, Atom.Marked, Atom.letter?, eq_comm, beq_eq_decide]
      | plain c hc => simp [Atom.source, Atom.Marked, Atom.letter?, eq_comm, beq_eq_decide]
    rw [sourceOf_cons, List.any_cons, ← ih, ← ha, List.contains_eq_any_beq, List.any_append,
      ← List.contains_eq_any_beq, ← List.contains_eq_any_beq]

/-- A tame pattern matches what it reads: the whole name by a choice with a slash, the tail of the
name by one without. -/
theorem patternMatches_choices (p : Pattern) (buffer : Option BufHandle)
    (fileName : Option (List UInt8)) :
    patternMatches (.glob ((p.choices.map sourceOf).map String.ofList)) buffer fileName = true ↔
      ∃ slashed, p.Reads (· == '/') slashed
        (if slashed then (fileName.map Lib.Utf8.fromUtf8Lossy).getD []
          else tailOf ((fileName.map Lib.Utf8.fromUtf8Lossy).getD [])) := by
  rw [patternMatches, List.map_map, List.any_map, List.any_eq_true]
  simp only [Function.comp_def, String.toList_ofList, globMatch_sourceOf, contains_sourceOf,
    p.reads_iff, Chooses]
  constructor
  · rintro ⟨choice, hmem, hreads⟩
    exact ⟨_, choice, hmem, rfl, hreads⟩
  · rintro ⟨slashed, choice, hmem, rfl, hreads⟩
    exact ⟨choice, hmem, hreads⟩

/-- Where no escaped brace is counted, a pattern list is split into the alternatives it is written
of, and each is stored as what it reads. -/
theorem splitPatternList_reads {text : List Char} {parts : List (List Char)}
    (hsplit : splitPatternList text = .ok parts) (hplain : bracesPlain text 0 = true) :
    [','].intercalate parts = paired text ∧ ∀ part ∈ parts, (∃ p : Pattern, p.source = part) ∧
      ∀ p : Pattern, p.source = part → ∀ fallback, resolveBufferPattern part fallback = .ok none →
        ∃ stored, parsePattern part fallback = .ok (stored, String.ofList part) ∧
          ∀ buffer fileName, patternMatches stored buffer fileName = true ↔
            ∃ slashed, p.Reads (· == '/') slashed
              (if slashed then (fileName.map Lib.Utf8.fromUtf8Lossy).getD []
                else tailOf ((fileName.map Lib.Utf8.fromUtf8Lossy).getD [])) := by
  obtain ⟨alts, hpaired, rfl⟩ := splitPatternList_ok hsplit
  have htame : Alts.Tame 0 alts := by
    have h := bracesPlain_alts alts [] 0
    rw [List.append_nil, ← hpaired, bracesPlain_paired] at h
    exact (h.mp hplain).1
  refine ⟨by rw [hpaired, alts.source_eq], fun part hpart => ?_⟩
  obtain ⟨q, hq, rfl⟩ := List.mem_map.mp hpart
  refine ⟨⟨q, rfl⟩, fun p hp fallback hresolve => ?_⟩
  have hplainPart : Pattern.Tame 0 p := by
    have hp' := bracesPlain_source p [] 0
    have hq' := bracesPlain_source q [] 0
    rw [hp] at hp'
    exact (hp'.mp (hq'.mpr ⟨tame_of_mem htame q hq, rfl⟩)).1
  refine ⟨.glob ((p.choices.map sourceOf).map String.ofList), ?_,
    fun buffer fileName => patternMatches_choices p buffer fileName⟩
  rw [parsePattern, hresolve, ← hp]
  simp only [expandBraces_source p hplainPart]

/-- A list with a group of two alternatives and an escaped comma. -/
theorem splitPatternList_reads_group :
    [','].intercalate ["*.\x7bc,h\x7d".toList, "a\\,b".toList]
        = paired "*.\x7bc,h\x7d,a\\,b".toList ∧
      ∀ part ∈ ["*.\x7bc,h\x7d".toList, "a\\,b".toList], (∃ p : Pattern, p.source = part) ∧
        ∀ p : Pattern, p.source = part → ∀ fallback, resolveBufferPattern part fallback = .ok none →
          ∃ stored, parsePattern part fallback = .ok (stored, String.ofList part) ∧
            ∀ buffer fileName, patternMatches stored buffer fileName = true ↔
              ∃ slashed, p.Reads (· == '/') slashed
                (if slashed then (fileName.map Lib.Utf8.fromUtf8Lossy).getD []
                  else tailOf ((fileName.map Lib.Utf8.fromUtf8Lossy).getD [])) :=
  splitPatternList_reads (by decide) (by decide)

/-- An escaped brace is accepted as a part, and is a pattern that reads the brace, but expanding
looks for the brace that closes it. -/
theorem not_splitPatternList_reads :
    splitPatternList ['\\', '\x7b', 'a'] = .ok [['\\', '\x7b', 'a']] ∧
      (∃ p : Pattern, p.source = ['\\', '\x7b', 'a']) ∧
      resolveBufferPattern ['\\', '\x7b', 'a'] none = .ok none ∧
      parsePattern ['\\', '\x7b', 'a'] none = .error .unbalancedBraces := by
  have hresolve : resolveBufferPattern ['\\', '\x7b', 'a'] none = .ok none := by decide
  have hexpand : expandBraces ['\\', '\x7b', 'a'] = none := by
    rw [expandBraces]
    split
    · next h => simp [List.findIdx?_cons] at h
    · next start h =>
      obtain rfl : 1 = start := by simpa [List.findIdx?_cons] using h
      rfl
  refine ⟨by decide, ⟨.atom (.escaped '\x7b') (.atom (.plain 'a' (by decide)) .nil), rfl⟩,
    hresolve, ?_⟩
  rw [parsePattern, hresolve]
  simp only [hexpand]

end Matches

end Oxvim.Editor.Autocmd
