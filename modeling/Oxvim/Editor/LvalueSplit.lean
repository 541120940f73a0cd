import Oxvim.Editor.Lvalue
import Oxvim.Lib.Quoted

/-!
# What assignment targets are split into

A list of targets is written with commas between them and a semicolon before the one for the rest.
Brackets nest in a target, and strings hide what is in them; a target is neither empty nor blank.
Where no string has a backslash before a quote of its own, the three scans agree on such a list.
-/

namespace Oxvim.Editor.Lvalue

open Lib Lib.Ascii Lib.Quoted

/-- The quotes and brackets of an expression. -/
def marks : Marks UInt8 where
  quote := isQuote
  escapes q := q == '"'.toUInt8
  esc := '\\'.toUInt8
  closer o :=
    if o == '('.toUInt8 then some ')'.toUInt8
    else if o == '['.toUInt8 then some ']'.toUInt8
    else if o == '\x7b'.toUInt8 then some '\x7d'.toUInt8
    else none
  closes := closesBracket
  quote_esc := by decide
  closes_closer := by
    intro o c h
    split_ifs at h <;> cases h <;> decide

section Marks

variable {b o c q : UInt8}

theorem closer_cases (h : marks.closer o = some c) :
    (o = '('.toUInt8 ∧ c = ')'.toUInt8) ∨ (o = '['.toUInt8 ∧ c = ']'.toUInt8) ∨
      (o = '\x7b'.toUInt8 ∧ c = '\x7d'.toUInt8) := by
  simp only [marks] at h
  split_ifs at h with h1 h2 h3
  · exact .inl ⟨beq_iff_eq.mp h1, (Option.some.inj h).symm⟩
  · exact .inr (.inl ⟨beq_iff_eq.mp h2, (Option.some.inj h).symm⟩)
  · exact .inr (.inr ⟨beq_iff_eq.mp h3, (Option.some.inj h).symm⟩)

theorem bracket_facts (h : marks.closer o = some c) :
    isQuote o = false ∧ isQuote c = false ∧ opensBracket o = true ∧ opensBracket c = false ∧
      closesBracket c = true := by
  rcases closer_cases h with ⟨rfl, rfl⟩ | ⟨rfl, rfl⟩ | ⟨rfl, rfl⟩ <;> decide

theorem plain_iff : marks.Plain b ↔
    isQuote b = false ∧ opensBracket b = false ∧ closesBracket b = false := by
  rw [Marks.Plain]
  refine and_congr Iff.rfl (and_congr ?_ Iff.rfl)
  simp only [marks, opensBracket]
  split_ifs <;> simp_all

end Marks

/-! ## The scans -/

/-- Counting brackets, as a scan. -/
def bracketScanner : Scanner marks (Option Nat) where
  run _ rest quote depth := bracketDepth rest quote depth
  sep _ := false
  weight o := if o = '['.toUInt8 then 1 else 0
  plain before b rest depth hb _ := by
    have hb := plain_iff.mp hb
    have hopen : b ≠ '['.toUInt8 := by
      rintro rfl
      exact absurd hb.2.1 (by decide)
    have hclose : b ≠ ']'.toUInt8 := by
      rintro rfl
      exact absurd hb.2.2 (by decide)
    simp [bracketDepth, hb.1, hopen, hclose]
  begins before q rest depth hq := by
    have hq : isQuote q = true := hq
    simp [bracketDepth, hq]
  within before b rest q depth hq hne := by simp [bracketDepth, hne]
  ends before q rest depth hq _ := by simp [bracketDepth]
  opens before o c rest depth h := by
    have hquote := (bracket_facts h).1
    rcases closer_cases h with ⟨rfl, rfl⟩ | ⟨rfl, rfl⟩ | ⟨rfl, rfl⟩ <;>
      simp [bracketDepth, hquote] <;> rfl
  closes before o c rest depth h := by
    have hquote := (bracket_facts h).2.1
    have hne : ']'.toUInt8 ≠ '['.toUInt8 := by decide
    rcases closer_cases h with ⟨rfl, rfl⟩ | ⟨rfl, rfl⟩ | ⟨rfl, rfl⟩ <;>
      simp [bracketDepth, hquote, hne] <;> rfl
  deep _ _ _ := rfl

/-- Looking for the semicolon, as a scan. -/
def semicolonScanner : Scanner marks (Option (Except LvalueError Parts)) where
  run before rest quote depth :=
    splitDestructureFrom (before ++ rest) rest before.length quote depth
  sep b := b == ';'.toUInt8
  weight _ := 1
  plain before b rest depth hb hsep := by
    have hb := plain_iff.mp hb
    have hstop : (depth == 0 && b == ';'.toUInt8) = false := by
      rw [Bool.and_eq_false_imp]
      intro hzero
      exact hsep (beq_iff_eq.mp hzero)
    simp [splitDestructureFrom, hb, hstop]
  begins before q rest depth hq := by
    have hq : isQuote q = true := hq
    simp [splitDestructureFrom, hq]
  within before b rest q depth hq hne := by simp [splitDestructureFrom, hne]
  ends before q rest depth hq _ := by simp [splitDestructureFrom]
  opens before o c rest depth h := by
    have hfacts := bracket_facts h
    simp [splitDestructureFrom, hfacts]
  closes before o c rest depth h := by
    have hfacts := bracket_facts h
    simp [splitDestructureFrom, hfacts]
  deep o b h := by cases h

/-- Looking for the next comma, as a scan. -/
def commaScanner (start : Nat) (result : List (List UInt8)) :
    Scanner marks (Option (List (List UInt8))) where
  run before rest quote depth :=
    splitTopLevelFrom (before ++ rest) ','.toUInt8 true rest before.length start quote depth result
  sep b := b == ','.toUInt8
  weight _ := 1
  plain before b rest depth hb hsep := by
    have hb := plain_iff.mp hb
    have hstop : (depth == 0 && (b == ','.toUInt8 || (!true && ','.toUInt8 == ' '.toUInt8 &&
        isAsciiWhitespace b))) = false := by
      rw [Bool.and_eq_false_imp]
      intro hzero
      rw [hsep (beq_iff_eq.mp hzero)]
      rfl
    rw [splitTopLevelFrom]
    simp only [hb, hstop, Bool.false_eq_true, if_false]
    simp
  begins before q rest depth hq := by
    have hq : isQuote q = true := hq
    rw [splitTopLevelFrom]
    simp [hq]
  within before b rest q depth hq hne := by
    rw [splitTopLevelFrom]
    simp [hne]
  ends before q rest depth hq hlast := by
    have hclosed : (before.length == 0 ||
        (before ++ q :: rest)[before.length - 1]? != some '\\'.toUInt8) = true := by
      rcases List.eq_nil_or_concat before with rfl | ⟨front, last, rfl⟩
      · rfl
      · rw [List.concat_eq_append] at hlast ⊢
        have hesc : marks.esc = '\\'.toUInt8 := rfl
        rw [List.getLast?_concat, hesc] at hlast
        simpa using hlast
    rw [splitTopLevelFrom]
    simp only [beq_self_eq_true, Bool.true_and, hclosed, if_true]
    simp
  opens before o c rest depth h := by
    have hfacts := bracket_facts h
    rw [splitTopLevelFrom]
    simp [hfacts]
  closes before o c rest depth h := by
    have hfacts := bracket_facts h
    rw [splitTopLevelFrom]
    simp [hfacts]
  deep o b h := by cases h

/-! ## Blanks -/

def isSeparator (b : UInt8) : Bool := b == ','.toUInt8 || b == ';'.toUInt8

section Blank

variable {b : UInt8} {c : Char} {cs : List Char}

/-- Quotes, brackets and separators are printed ASCII characters. -/
theorem plain_of_unprinted (h : b < 0x21 ∨ 0x80 ≤ b) : marks.Plain b ∧ isSeparator b = false := by
  have hne : ∀ c : UInt8, 0x21 ≤ c → c < 0x80 → b ≠ c := by
    rintro c hlow hhigh rfl
    have hlow : 33 ≤ b.toNat := hlow
    have hhigh : b.toNat < 128 := hhigh
    rcases h with h | h
    · have : b.toNat < 33 := h
      omega
    · have : 128 ≤ b.toNat := h
      omega
  rw [plain_iff]
  simp only [isQuote, opensBracket, closesBracket, isSeparator, Bool.or_eq_false_iff,
    beq_eq_false_iff_ne]
  exact ⟨⟨⟨hne _ (by decide) (by decide), hne _ (by decide) (by decide)⟩,
    ⟨⟨hne _ (by decide) (by decide), hne _ (by decide) (by decide)⟩,
      hne _ (by decide) (by decide)⟩,
    ⟨hne _ (by decide) (by decide), hne _ (by decide) (by decide)⟩,
      hne _ (by decide) (by decide)⟩,
    hne _ (by decide) (by decide), hne _ (by decide) (by decide)⟩

/-- The bytes of a blank character stand for themselves. -/
theorem plain_of_isWhitespace (hc : isWhitespace c = true) (hb : b ∈ String.utf8EncodeChar c) :
    marks.Plain b ∧ isSeparator b = false := by
  apply plain_of_unprinted
  rcases Utf8.utf8EncodeChar_cases c with ⟨hascii, henc⟩ | ⟨lead, tail, henc, hfollowers, htail⟩
  · rw [henc, List.mem_singleton] at hb
    subst hb
    have hcases : c.toNat = 9 ∨ c.toNat = 10 ∨ c.toNat = 11 ∨ c.toNat = 12 ∨ c.toNat = 13 ∨
        c.toNat = 32 := by
      simp only [isWhitespace, Bool.or_eq_true, Bool.and_eq_true, decide_eq_true_eq,
        beq_iff_eq] at hc
      omega
    left
    rcases hcases with h | h | h | h | h | h <;> rw [h] <;> decide
  · rw [henc] at hb
    right
    rcases List.mem_cons.mp hb with rfl | hb
    · have hlead := Utf8.lead_of_followers hfollowers
      exact show (0x80 : UInt8).toNat ≤ b.toNat from le_trans (by decide) hlead
    · exact (htail b hb).1

/-- Trimming takes no separator away. -/
theorem contains_trim (cs : List Char) (sep : UInt8) (hsep : isSeparator sep = true) :
    (trim (Utf8.encode cs)).contains sep = (Utf8.encode cs).contains sep := by
  obtain ⟨front, back, heq, hfront, hback⟩ := Trim.exists_trim isWhitespace cs
  have hblank : ∀ blanks : List Char, (∀ c ∈ blanks, isWhitespace c = true) →
      sep ∉ Utf8.encode blanks := by
    intro blanks hall hmem
    obtain ⟨c, hc, hb⟩ := List.mem_flatMap.mp hmem
    rw [(plain_of_isWhitespace (hall c hc) hb).2] at hsep
    cases hsep
  rw [trim_encode, Bool.eq_iff_iff, List.contains_iff_mem, List.contains_iff_mem]
  conv_rhs => rw [heq, Utf8.encode_append, Utf8.encode_append, List.mem_append, List.mem_append]
  constructor
  · intro h
    exact .inl (.inr h)
  · rintro ((h | h) | h)
    · exact absurd h (hblank front hfront)
    · exact h
    · exact absurd h (hblank back hback)

/-- ASCII blanks at the start of a text that is not blank are characters of it. -/
theorem exists_skip (h : ∃ c ∈ cs, isWhitespace c = false) (more : List UInt8) :
    ∃ front core, cs = front ++ core ∧ (∀ c ∈ front, isWhitespace c = true) ∧
      (Utf8.encode cs ++ more).takeWhile isAsciiWhitespace = Utf8.encode front ∧
      (Utf8.encode cs ++ more).dropWhile isAsciiWhitespace = Utf8.encode core ++ more := by
  induction cs with
  | nil =>
    obtain ⟨c, hc, -⟩ := h
    cases hc
  | cons c cs ih =>
    have hstop : ∀ lead tail, String.utf8EncodeChar c = lead :: tail →
        isAsciiWhitespace lead = false → ∃ front core, c :: cs = front ++ core ∧
          (∀ c ∈ front, isWhitespace c = true) ∧
          (Utf8.encode (c :: cs) ++ more).takeWhile isAsciiWhitespace = Utf8.encode front ∧
          (Utf8.encode (c :: cs) ++ more).dropWhile isAsciiWhitespace
            = Utf8.encode core ++ more := by
      intro lead tail henc hlead
      refine ⟨[], c :: cs, rfl, by simp, ?_, ?_⟩
      · rw [Utf8.encode_cons, henc]
        simp [hlead]
      · rw [Utf8.encode_cons, henc]
        simp [hlead]
    rcases Utf8.utf8EncodeChar_cases c with ⟨hascii, henc⟩ | ⟨lead, tail, henc, hfollowers, -⟩
    · cases hblank : isAsciiWhitespace (UInt8.ofNat c.toNat) with
      | false => exact hstop _ _ henc hblank
      | true =>
        have hc : isWhitespace c = true := by
          have hall : ∀ n : Fin 128, isAsciiWhitespace (UInt8.ofNat n) = true →
              (n.val = 9 ∨ n.val = 10 ∨ n.val = 12 ∨ n.val = 13 ∨ n.val = 32) := by decide
          have hn : c.toNat = 9 ∨ c.toNat = 10 ∨ c.toNat = 12 ∨ c.toNat = 13 ∨ c.toNat = 32 :=
            hall ⟨c.toNat, hascii⟩ hblank
          simp only [isWhitespace, Bool.or_eq_true, Bool.and_eq_true, decide_eq_true_eq, beq_iff_eq]
          omega
        have hrest : ∃ c ∈ cs, isWhitespace c = false := by
          obtain ⟨d, hd, hdc⟩ := h
          rcases List.mem_cons.mp hd with rfl | hd
          · rw [hc] at hdc
            cases hdc
          · exact ⟨d, hd, hdc⟩
        obtain ⟨front, core, rfl, hfront, htake, hdrop⟩ := ih hrest
        refine ⟨c :: front, core, rfl, ?_, ?_, ?_⟩
        · rw [List.forall_mem_cons]
          exact ⟨hc, hfront⟩
        · rw [Utf8.encode_cons, henc, List.append_assoc, List.singleton_append,
            List.takeWhile_cons_of_pos hblank, htake, Utf8.encode_cons, henc,
            List.singleton_append]
        · rw [Utf8.encode_cons, henc, List.append_assoc, List.singleton_append,
            List.dropWhile_cons_of_pos hblank, hdrop]
    · refine hstop lead tail henc ?_
      have hlead := Utf8.lead_of_followers hfollowers
      by_contra hblank
      rw [Bool.not_eq_false] at hblank
      have hsmall : lead.toNat < 128 := isAsciiWhitespace_lt hblank
      omega

end Blank

/-! ## Lists of targets -/

/-- One target of a list. -/
structure Item where
  chars : List Char
  text : Nested marks
  source_eq : text.source = Utf8.encode chars
  free : text.Free isSeparator
  nonblank : ∃ c ∈ chars, isWhitespace c = false

namespace Item

def source (i : Item) : List UInt8 := i.text.source

variable {i : Item}

theorem valid : Valid i.source := by
  rw [source, i.source_eq, Valid, Utf8.decode?_encode]
  rfl

theorem trim_source : trim i.source = Utf8.encode (Trim.trim isWhitespace i.chars) := by
  rw [source, i.source_eq, trim_encode]

theorem source_ne_nil : i.source ≠ [] := by
  rw [source, i.source_eq, ne_eq, Utf8.encode_eq_nil_iff]
  intro h
  obtain ⟨c, hc, -⟩ := i.nonblank
  rw [h] at hc
  cases hc

theorem trim_ne_nil : trim i.source ≠ [] := by
  rw [trim_source, ne_eq, Utf8.encode_eq_nil_iff]
  intro h
  obtain ⟨front, back, heq, hfront, hback⟩ := Trim.exists_trim isWhitespace i.chars
  obtain ⟨c, hc, hblank⟩ := i.nonblank
  rw [heq, h, List.append_nil, List.mem_append] at hc
  rw [hc.elim (hfront c) (hback c)] at hblank
  cases hblank

/-- A target without blanks at its ends is one still, and what it is without all of them stays. -/
theorem exists_core {front core back : List Char} (h : i.chars = front ++ core ++ back)
    (hfront : ∀ c ∈ front, isWhitespace c = true) (hback : ∀ c ∈ back, isWhitespace c = true) :
    ∃ i' : Item, i'.chars = core ∧ trim i'.source = trim i.source ∧
      (i.text.Clear → i'.text.Clear) := by
  have hplain : ∀ cs : List Char, (∀ c ∈ cs, isWhitespace c = true) →
      ∀ b ∈ Utf8.encode cs, marks.Plain b := by
    intro cs hcs b hb
    obtain ⟨c, hc, hbc⟩ := List.mem_flatMap.mp hb
    exact (plain_of_isWhitespace (hcs c hc) hbc).1
  have hsource : i.text.source = Utf8.encode front ++ Utf8.encode core ++ Utf8.encode back := by
    rw [i.source_eq, h, Utf8.encode_append, Utf8.encode_append]
  obtain ⟨t, ht, hclear, hfree⟩ := Nested.exists_core (hplain front hfront) (hplain back hback) hsource
  have hnonblank : ∃ c ∈ core, isWhitespace c = false := by
    obtain ⟨c, hc, hblank⟩ := i.nonblank
    rw [h, List.mem_append, List.mem_append] at hc
    rcases hc with (hc | hc) | hc
    · rw [hfront c hc] at hblank
      cases hblank
    · exact ⟨c, hc, hblank⟩
    · rw [hback c hc] at hblank
      cases hblank
  refine ⟨⟨core, t, ht, hfree _ i.free, hnonblank⟩, rfl, ?_, hclear⟩
  rw [trim_source, trim_source, h, Trim.trim_append_right hback, Trim.trim_append_left hfront]

end Item

/-- Targets with commas between them. -/
def joined : (first : Item) → (others : List Item) → List UInt8
  | first, [] => first.source
  | first, next :: others => first.source ++ ','.toUInt8 :: joined next others

section Joined

/-- No string of the targets has a backslash before a quote of its own. -/
def AllClear (items : List Item) : Prop := ∀ i ∈ items, i.text.Clear

/-- The targets are read as one text. -/
theorem exists_joined (first : Item) (others : List Item) : ∃ t : Nested marks,
    t.source = joined first others ∧ t.Free (· == ';'.toUInt8) ∧
      (AllClear (first :: others) → t.Clear) := by
  have hsemicolon : ∀ b, isSeparator b = false → (b == ';'.toUInt8) = false := by
    intro b hb
    exact (Bool.or_eq_false_iff.mp hb).2
  induction others generalizing first with
  | nil => exact ⟨first.text, rfl, first.free.imp hsemicolon, fun h => h first List.mem_cons_self⟩
  | cons next others ih =>
    obtain ⟨t, ht, hfree, hclear⟩ := ih next
    have hcomma : marks.Plain ','.toUInt8 := plain_iff.mpr (by decide)
    refine ⟨first.text.append (.plain _ hcomma t), ?_, ?_, ?_⟩
    · rw [Nested.source_append, Nested.source, ht]
      rfl
    · exact Nested.free_append (first.free.imp hsemicolon) ⟨by decide, hfree⟩
    · intro h
      exact Nested.clear_append (h first List.mem_cons_self)
        (hclear fun i hi => h i (List.mem_cons_of_mem first hi))

/-- The characters of the targets. -/
def joinedChars : (first : Item) → (others : List Item) → List Char
  | first, [] => first.chars
  | first, next :: others => first.chars ++ ',' :: joinedChars next others

theorem joined_eq_encode (first : Item) (others : List Item) :
    joined first others = Utf8.encode (joinedChars first others) := by
  induction others generalizing first with
  | nil => exact first.source_eq
  | cons next others ih =>
    have hcomma : String.utf8EncodeChar ',' = [','.toUInt8] := by decide
    rw [joined, joinedChars, ih, Item.source, first.source_eq, Utf8.encode_append,
      Utf8.encode_cons, hcomma, List.singleton_append]

theorem joinedChars_nonblank (first : Item) (others : List Item) :
    ∃ c ∈ joinedChars first others, isWhitespace c = false := by
  obtain ⟨c, hc, hblank⟩ := first.nonblank
  cases others with
  | nil => exact ⟨c, hc, hblank⟩
  | cons next others => exact ⟨c, List.mem_append_left _ hc, hblank⟩

/-- What targets are trimmed to. -/
def trimmed (items : List Item) : List (List UInt8) := items.map fun i => trim i.source

/-- Blanks before the first target are blanks of it. -/
theorem joinedChars_dropWhile (first : Item) (others : List Item) :
    ∃ first' : Item, joinedChars first' others = (joinedChars first others).dropWhile isWhitespace ∧
      trim first'.source = trim first.source ∧ (first.text.Clear → first'.text.Clear) := by
  have hsplit : first.chars = first.chars.takeWhile isWhitespace
      ++ first.chars.dropWhile isWhitespace ++ [] := by
    rw [List.append_nil, List.takeWhile_append_dropWhile]
  obtain ⟨first', hchars, htrim, hclear⟩ := Item.exists_core hsplit
    (fun c hc => List.mem_takeWhile_imp hc) (by simp)
  refine ⟨first', ?_, htrim, hclear⟩
  cases others with
  | nil => exact hchars
  | cons next others =>
    rw [joinedChars, joinedChars, hchars, Trim.dropWhile_append_of_exists first.nonblank]

/-- Blanks behind the last target are blanks of it. -/
theorem joinedChars_rdropWhile (first : Item) (others : List Item) :
    ∃ (first' : Item) (others' : List Item),
      joinedChars first' others' = (joinedChars first others).rdropWhile isWhitespace ∧
      trimmed (first' :: others') = trimmed (first :: others) ∧
      (AllClear (first :: others) → AllClear (first' :: others')) := by
  induction others generalizing first with
  | nil =>
    have hsplit : first.chars = [] ++ first.chars.rdropWhile isWhitespace
        ++ first.chars.rtakeWhile isWhitespace := by
      rw [List.nil_append, List.rdropWhile_append_rtakeWhile]
    obtain ⟨first', hchars, htrim, hclear⟩ := Item.exists_core hsplit (by simp)
      (fun c hc => List.mem_rtakeWhile_imp hc)
    refine ⟨first', [], hchars, by simp [trimmed, htrim], fun h => ?_⟩
    simpa [AllClear] using hclear (h first List.mem_cons_self)
  | cons next others ih =>
    obtain ⟨next', others', hchars, htrim, hclear⟩ := ih next
    refine ⟨first, next' :: others', ?_, ?_, ?_⟩
    · have hdrop : (first.chars ++ [','] ++ joinedChars next others).rdropWhile isWhitespace
          = first.chars ++ [','] ++ (joinedChars next others).rdropWhile isWhitespace :=
        Trim.rdropWhile_append_of_exists (joinedChars_nonblank next others)
      simpa [joinedChars, hchars] using hdrop.symm
    · simp only [trimmed, List.map_cons] at htrim ⊢
      rw [htrim]
    · intro h
      have htail := hclear fun i hi => h i (List.mem_cons_of_mem first hi)
      exact List.forall_mem_cons.mpr ⟨h first List.mem_cons_self, htail⟩

/-- Trimming a list of targets gives a list of the same targets. -/
theorem exists_trim_joined (first : Item) (others : List Item) :
    ∃ (first' : Item) (others' : List Item), joined first' others' = trim (joined first others) ∧
      trimmed (first' :: others') = trimmed (first :: others) ∧
      (AllClear (first :: others) → AllClear (first' :: others')) := by
  obtain ⟨first', hfront, htrim, hclear⟩ := joinedChars_dropWhile first others
  obtain ⟨first'', others', hback, htrims, hclears⟩ := joinedChars_rdropWhile first' others
  refine ⟨first'', others', ?_, ?_, ?_⟩
  · rw [joined_eq_encode, joined_eq_encode, trim_encode, hback, hfront]
    rfl
  · rw [htrims]
    simp [trimmed, htrim]
  · intro h
    exact hclears (List.forall_mem_cons.mpr ⟨hclear (h first List.mem_cons_self),
      fun i hi => h i (List.mem_cons_of_mem first hi)⟩)

end Joined

/-! ## Splitting -/

section Split

theorem valid_encode (cs : List Char) : Valid (Utf8.encode cs) := by
  rw [Valid, Utf8.decode?_encode]
  rfl

theorem valid_cons (sep : UInt8) (hsep : isSeparator sep = true) {text : List UInt8}
    (h : Valid text) : Valid (sep :: text) := by
  have hcomma : Utf8.encode [','] = [','.toUInt8] := by decide
  have hsemicolon : Utf8.encode [';'] = [';'.toUInt8] := by decide
  have happend := fun c => Utf8.decode?_append (valid_encode [c]) h
  simp only [isSeparator, Bool.or_eq_true, beq_iff_eq] at hsep
  rcases hsep with rfl | rfl
  · rw [← List.singleton_append, ← hcomma]
    exact happend ','
  · rw [← List.singleton_append, ← hsemicolon]
    exact happend ';'

theorem valid_joined (first : Item) (others : List Item) : Valid (joined first others) := by
  rw [joined_eq_encode]
  exact valid_encode _

theorem slice_append {before middle after : List UInt8} (hbefore : Valid before)
    (hmiddle : Valid middle) (hafter : Valid after) :
    slice (before ++ middle ++ after) before.length (before ++ middle).length = some middle := by
  obtain ⟨cs, hcs⟩ := Option.isSome_iff_exists.mp hbefore
  obtain ⟨ds, hds⟩ := Option.isSome_iff_exists.mp hmiddle
  obtain ⟨es, hes⟩ := Option.isSome_iff_exists.mp hafter
  rw [Utf8.decode?_eq_some_iff] at hcs hds hes
  have hvalid := Utf8.decode?_append (Utf8.decode?_append hbefore hmiddle) hafter
  have hstart : Utf8.Boundary (before ++ middle ++ after) before.length :=
    ⟨cs, ds ++ es, by simp [hcs, hds, hes], by rw [hcs]⟩
  have hstop : Utf8.Boundary (before ++ middle ++ after) (before ++ middle).length :=
    ⟨cs ++ ds, es, by simp [hcs, hds, hes], by simp [hcs, hds]⟩
  rw [(exists_slice hvalid hstart hstop (by simp)).1, List.take_left' rfl, List.drop_left' rfl]

/-- ASCII blanks before a list of targets are blanks of the first one. -/
theorem exists_skip_joined (first : Item) (others : List Item) :
    ∃ (front : List Char) (first' : Item),
      (joined first others).takeWhile isAsciiWhitespace = Utf8.encode front ∧
      (joined first others).dropWhile isAsciiWhitespace = joined first' others ∧
      trim first'.source = trim first.source ∧ (first.text.Clear → first'.text.Clear) := by
  obtain ⟨more, hmore⟩ : ∃ more, ∀ i : Item, joined i others = i.source ++ more := by
    cases others with
    | nil => exact ⟨[], fun i => (List.append_nil _).symm⟩
    | cons next others => exact ⟨','.toUInt8 :: joined next others, fun i => rfl⟩
  obtain ⟨front, core, hchars, hfront, htake, hdrop⟩ := exists_skip first.nonblank more
  have hsplit : first.chars = front ++ core ++ [] := by rw [List.append_nil, hchars]
  obtain ⟨first', hcore, htrim, hclear⟩ := Item.exists_core hsplit hfront (by simp)
  refine ⟨front, first', ?_, ?_, htrim, hclear⟩
  · rw [hmore, Item.source, first.source_eq, htake]
  · rw [hmore, hmore, Item.source, Item.source, first.source_eq, hdrop, first'.source_eq, hcore]

/-- Cutting at the commas gives the targets. -/
theorem splitTopLevelFrom_joined (first : Item) (others : List Item)
    (hclear : AllClear (first :: others)) {before : List UInt8} (hbefore : Valid before)
    (result : List (List UInt8)) :
    splitTopLevelFrom (before ++ joined first others) ','.toUInt8 true (joined first others)
      before.length before.length none 0 result = some (result ++ trimmed (first :: others)) := by
  have hcomma : ∀ b, isSeparator b = false → (b == ','.toUInt8) = false := by
    intro b hb
    exact (Bool.or_eq_false_iff.mp hb).1
  induction others generalizing first before result with
  | nil =>
    have hpass := (commaScanner before.length result).passes first.text
      (hclear first List.mem_cons_self) 0 (fun _ => first.free.imp hcomma) before []
    have hlt : before.length < (before ++ first.source).length := by
      have := List.length_pos_of_ne_nil first.source_ne_nil
      rw [List.length_append]
      omega
    have hslice := slice_append hbefore first.valid (valid_encode [])
    rw [Utf8.encode_nil, List.append_nil] at hslice
    simp only [commaScanner, List.append_nil] at hpass
    rw [joined, Item.source, hpass, ← Item.source, splitTopLevelFrom, if_pos hlt, hslice]
    rfl
  | cons next others ih =>
    have hpass := (commaScanner before.length result).passes first.text
      (hclear first List.mem_cons_self) 0 (fun _ => first.free.imp hcomma) before
      (','.toUInt8 :: joined next others)
    simp only [commaScanner] at hpass
    obtain ⟨front, next', htake, hdrop, htrim, hnext⟩ := exists_skip_joined next others
    have hfront : Utf8.encode front ++ joined next' others = joined next others := by
      rw [← htake, ← hdrop, List.takeWhile_append_dropWhile]
    have hlt : before.length < (before ++ first.source).length := by
      have := List.length_pos_of_ne_nil first.source_ne_nil
      rw [List.length_append]
      omega
    have hslice := slice_append hbefore first.valid (valid_cons ','.toUInt8 (by decide) (valid_joined next others))
    have hbefore' : Valid (before ++ first.source ++ ','.toUInt8 :: Utf8.encode front) :=
      Utf8.decode?_append (Utf8.decode?_append hbefore first.valid)
        (valid_cons ','.toUInt8 (by decide) (valid_encode front))
    have hclear' : AllClear (next' :: others) :=
      List.forall_mem_cons.mpr ⟨hnext (hclear next (by simp)),
        fun i hi => hclear i (by simp [hi])⟩
    have hih := ih next' hclear' hbefore' (result ++ [trim first.source])
    have hsource : before ++ first.source ++ ','.toUInt8 :: Utf8.encode front
        ++ joined next' others = before ++ first.source ++ ','.toUInt8 :: joined next others := by
      rw [← hfront, List.append_assoc _ (','.toUInt8 :: _), List.cons_append]
    have hlength : (before ++ first.source).length + 1 + (Utf8.encode front).length
        = (before ++ first.source ++ ','.toUInt8 :: Utf8.encode front).length := by
      simp only [List.length_append, List.length_cons]
      omega
    rw [hsource] at hih
    rw [joined, Item.source, hpass, ← Item.source, splitTopLevelFrom, if_neg (by decide),
      if_neg (by decide), if_neg (by decide), if_pos (by decide), if_pos hlt, hslice]
    simp only [htake, hdrop, hlength, hih]
    simp [trimmed, htrim]

theorem splitCommaArgs_joined (first : Item) (others : List Item)
    (hclear : AllClear (first :: others)) :
    splitCommaArgs (joined first others) = some (trimmed (first :: others)) :=
  splitTopLevelFrom_joined first others hclear (valid_encode []) []

/-- A list of targets: at least one, and perhaps one for the rest. -/
structure Target where
  first : Item
  others : List Item
  tail : Option Item

namespace Target

variable (t : Target)

/-- How the list is written between its brackets. -/
def inner : List UInt8 :=
  joined t.first t.others ++ t.tail.elim [] fun i => ';'.toUInt8 :: i.source

def Clear : Prop := AllClear (t.first :: t.others) ∧ ∀ i, t.tail = some i → i.text.Clear

/-- The list is read as one text. -/
theorem exists_inner (hclear : t.Clear) : ∃ s : Nested marks, s.source = t.inner ∧ s.Clear := by
  obtain ⟨s, hs, -, hsclear⟩ := exists_joined t.first t.others
  cases htail : t.tail with
  | none =>
    refine ⟨s, ?_, hsclear hclear.1⟩
    rw [inner, htail, Option.elim_none, List.append_nil, hs]
  | some i =>
    have hsemicolon : marks.Plain ';'.toUInt8 := plain_iff.mpr (by decide)
    refine ⟨s.append (.plain _ hsemicolon i.text), ?_, ?_⟩
    · rw [Nested.source_append, hs, inner, htail]
      rfl
    · exact Nested.clear_append (hsclear hclear.1) (hclear.2 i htail)

end Target

/-- A list of targets in brackets is found balanced. -/
theorem balancedBrackets_target (t : Target) (hclear : t.Clear) {text : List UInt8}
    (htext : trim text = '['.toUInt8 :: t.inner ++ [']'.toUInt8]) :
    balancedBrackets text = some (some t.inner) := by
  obtain ⟨s, hs, hsclear⟩ := t.exists_inner hclear
  have hstrip : stripBrackets ('['.toUInt8 :: (t.inner ++ [']'.toUInt8])) = some t.inner := by
    rw [stripBrackets, List.getLast?_concat, if_pos (by simp), List.dropLast_concat]
  have hpass := bracketScanner.passes (.group _ _ (by rfl : marks.closer '['.toUInt8 = _) s .nil)
    ⟨hsclear, trivial⟩ 0 (fun _ => trivial) [] []
  simp only [bracketScanner, Nested.source, hs, List.append_nil, List.cons_append] at hpass
  rw [balancedBrackets, htext, List.cons_append]
  simp only [hstrip, hpass]
  rfl

theorem splitAtSemicolon_target (first : Item) (others : List Item) (i : Item)
    (hclear : AllClear (first :: others)) :
    splitAtSemicolon (joined first others ++ ';'.toUInt8 :: i.source) (joined first others).length
      = some (if (joined first others).contains ';'.toUInt8 then
          .error ⟨"E15", "Invalid destructure target"⟩
        else .ok (trimmed (first :: others), some (trim i.source))) := by
  obtain ⟨first', others', hjoined, htrimmed, hclear'⟩ := exists_trim_joined first others
  have hleft := slice_append (valid_encode []) (valid_joined first others)
    (valid_cons ';'.toUInt8 (by decide) i.valid)
  have hright := slice_append (Utf8.decode?_append (valid_joined first others)
    (valid_cons ';'.toUInt8 (by decide) (valid_encode []))) i.valid (valid_encode [])
  have hcontains := contains_trim (joinedChars first others) ';'.toUInt8 (by decide)
  rw [← joined_eq_encode] at hcontains
  simp only [Utf8.encode_nil, List.nil_append, List.length_nil, List.append_nil] at hleft hright
  rw [List.append_assoc, List.singleton_append, List.length_append, List.length_singleton] at hright
  rw [splitAtSemicolon, hleft, hright]
  simp only [hcontains]
  rw [if_neg (by simpa using i.trim_ne_nil), ← hjoined, splitCommaArgs_joined first' others'
    (hclear' hclear), htrimmed]
  split <;> rfl

/-- A list of targets is split at its commas and its semicolon, and only there. -/
theorem splitDestructureParts_target (t : Target) (hclear : t.Clear) :
    splitDestructureParts t.inner = some (
      if t.tail.isSome ∧ (joined t.first t.others).contains ';'.toUInt8 then
        .error ⟨"E15", "Invalid destructure target"⟩
      else .ok (trimmed (t.first :: t.others), t.tail.map fun i => trim i.source)) := by
  obtain ⟨s, hs, hfree, hsclear⟩ := exists_joined t.first t.others
  have hpass := fun more => semicolonScanner.passes s (hsclear hclear.1) 0 (fun _ => hfree) [] more
  simp only [semicolonScanner, hs, List.nil_append, List.length_nil] at hpass
  rw [splitDestructureParts, Target.inner]
  cases htail : t.tail with
  | none =>
    rw [Option.elim_none, hpass [], splitDestructureFrom, List.append_nil,
      splitCommaArgs_joined t.first t.others hclear.1]
    rfl
  | some i =>
    rw [Option.elim_some, hpass, splitDestructureFrom, if_neg (by decide), if_neg (by decide),
      if_neg (by decide), if_pos (by decide), splitAtSemicolon_target t.first t.others i hclear.1]
    simp

/-- **Splitting a list of targets.** Its brackets are found, and it is cut at its commas and its
semicolon, and only there; but a semicolon inside of a target before the one of the list is refused. -/
theorem destructure_target (t : Target) (hclear : t.Clear) :
    (∀ text, trim text = '['.toUInt8 :: t.inner ++ [']'.toUInt8] →
      balancedBrackets text = some (some t.inner)) ∧
    splitDestructureParts t.inner = some (
      if t.tail.isSome ∧ (joined t.first t.others).contains ';'.toUInt8 then
        .error ⟨"E15", "Invalid destructure target"⟩
      else .ok (trimmed (t.first :: t.others), t.tail.map fun i => trim i.source)) :=
  ⟨fun _ htext => balancedBrackets_target t hclear htext, splitDestructureParts_target t hclear⟩

section Witness

/-- A variable of one letter. -/
private def letterItem (c : Char) (hc : marks.Plain c.toUInt8) (henc : [c.toUInt8] = Utf8.encode [c])
    (hsep : isSeparator c.toUInt8 = false) (hblank : isWhitespace c = false) : Item :=
  ⟨[c], .plain _ hc .nil, henc, ⟨hsep, trivial⟩, c, List.mem_singleton_self c, hblank⟩

/-- A key in quotes and brackets. -/
private def keyText : Nested marks :=
  .plain 'd'.toUInt8 (plain_iff.mpr (by decide))
    (.group '['.toUInt8 ']'.toUInt8 rfl
      (.string '\''.toUInt8 [','.toUInt8] rfl (.letter (by decide) (by decide) .nil) .nil) .nil)

private def keyItem : Item :=
  ⟨['d', '[', '\'', ',', '\'', ']'], keyText, by decide, ⟨by decide, trivial⟩, 'd', by decide,
    by decide⟩

/-- The targets `d[',']` and `b`, and `r` for the rest. -/
private def keyTarget : Target :=
  ⟨keyItem, [letterItem 'b' (plain_iff.mpr (by decide)) (by decide) (by decide) (by decide)],
    some (letterItem 'r' (plain_iff.mpr (by decide)) (by decide) (by decide) (by decide))⟩

theorem destructure_target_key :
    (∀ text, trim text = '['.toUInt8 :: keyTarget.inner ++ [']'.toUInt8] →
      balancedBrackets text = some (some keyTarget.inner)) ∧
    splitDestructureParts keyTarget.inner = some (
      if keyTarget.tail.isSome ∧ (joined keyTarget.first keyTarget.others).contains ';'.toUInt8 then
        .error ⟨"E15", "Invalid destructure target"⟩
      else .ok (trimmed (keyTarget.first :: keyTarget.others),
        keyTarget.tail.map fun i => trim i.source)) := by
  apply destructure_target
  constructor
  · intro i hi
    rcases List.mem_cons.mp hi with rfl | hi
    · exact ⟨⟨Marks.clear_of_not_mem (by decide), trivial⟩, trivial⟩
    · rw [List.mem_singleton.mp hi]
      trivial
  · rintro i ⟨⟩
    trivial

end Witness

end Split

end Oxvim.Editor.Lvalue
