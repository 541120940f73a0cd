import Oxvim.Editor.ErrorFormat

/-!
# The items of an error format

A part of an error format is a prefix and a sequence of items, each of which stands for a piece of a
regular expression. The compiler reads item by item, except that it loses the byte behind a `%*[…]`
class and tears a character of several bytes behind `%*\`.
-/

namespace Oxvim.Editor.ErrorFormat

open Lib Quickfix

/-! ## Items -/

/-- One item of a part. -/
inductive Item where
  /-- `%f`, `%m` and the like -/
  | field (fi : Fin FMT_PATTERNS)
  /-- `%*[…]`; the first character may be a bracket -/
  | scanfSet (negated : Bool) (first : Char) (body : List Char) (hfirst : negated = false → first ≠ '^')
      (hbody : ']' ∉ body)
  /-- `%*\D` -/
  | scanfClass (letter : Char)
  /-- `%%`, `%.` and the like -/
  | literal (c : Char) (hc : c ∈ "%\\.^$~[".toList)
  /-- `%#` -/
  | star
  /-- `%>` -/
  | resume
  /-- `\c` -/
  | quoted (c : Char)
  | plain (c : Char) (hpercent : c ≠ '%') (hbackslash : c ≠ '\\')
  /-- a backslash at the end -/
  | backslash

namespace Item

/-- The text of an item. -/
def source : Item → List Char
  | field fi => ['%', (FMT_PAT.get fi).1]
  | scanfSet negated first body _ _ =>
    (if negated then ['%', '*', '[', '^'] else ['%', '*', '[']) ++ first :: body ++ [']']
  | scanfClass letter => ['%', '*', '\\', letter]
  | literal c _ => ['%', c]
  | star => ['%', '#']
  | resume => ['%', '>']
  | quoted c => ['\\', c]
  | plain c _ _ => [c]
  | backslash => ['\\']

/-- The regular expression of an item; that of `%f` depends on the character behind it. -/
def translation (next : Option Char) : Item → List Char
  | field fi =>
    let pattern := if fi.val = 0 then
        next.elim ".\\+" fun next => if next = '\\' ∨ next = '%' then "\\f\\+" else ".\\\x7b-1,\x7d"
      else (FMT_PAT.get fi).2
    "\\(".toList ++ pattern.toList ++ "\\)".toList
  | scanfSet negated first body _ _ =>
    (if negated then ['[', '^'] else ['[']) ++ first :: body ++ "]\\+".toList
  | scanfClass letter => ['\\', letter] ++ "\\+".toList
  | literal c _ => [c]
  | star => ['*']
  | resume => []
  | quoted c => [c]
  | plain c _ _ => if c ∈ ".*^$~[".toList then ['\\', c] else [c]
  | backslash => ['\\']

/-- The conversion of an item. -/
def field? : Item → Option (Fin FMT_PATTERNS)
  | field fi => some fi
  | _ => none

/-- A `%*[…]` class. -/
def IsSet : Item → Prop
  | scanfSet .. => True
  | _ => False

/-- A class whose letter takes more than a byte. -/
def IsTorn : Item → Prop
  | scanfClass letter => 128 ≤ letter.toNat
  | _ => False

end Item

/-- The text of items. -/
def sourceOf (items : List Item) : List Char := items.flatMap Item.source

/-- The items' regular expressions one after another. -/
def translate : List Item → List Char
  | [] => []
  | item :: items => item.translation (sourceOf items).head? ++ translate items

/-- The conversions of items in order. -/
def fieldsOf (items : List Item) : List (Fin FMT_PATTERNS) := items.filterMap Item.field?

/-- Only the last item is a backslash on its own. -/
def Closed (items : List Item) : Prop :=
  ∀ before after, items = before ++ .backslash :: after → after = []

/-- What a part begins with. -/
inductive Prefix where
  | absent
  | given (flag : Option Char) (letter : Char) (hflag : ∀ c ∈ flag, c = '+' ∨ c = '-')
      (hletter : letter ∈ "DXAEWINCZGOPQ".toList)

namespace Prefix

def source : Prefix → List Char
  | absent => []
  | given flag letter _ _ => '%' :: flag.toList ++ [letter]

/-- The prefix letter, and the flag before it. -/
def letters : Prefix → UInt8 × UInt8
  | absent => (0, 0)
  | given flag letter _ _ => (letter.toUInt8, flag.elim 0 Char.toUInt8)

end Prefix

/-- A part as a prefix and items. -/
structure Reading (part : List Char) where
  pfx : Prefix
  items : List Item
  closed : Closed items
  text : part = pfx.source ++ sourceOf items

/-- What is left to read at the beginning of each round of the loop. -/
def stops (start : Bool) (draft : Draft) (part : List UInt8) : List (List UInt8) :=
  if _hpart : part = [] then [[]]
  else
    part :: match _hstep : compileStep start draft part with
      | .error _ => []
      | .ok (draft, rest) => stops false draft rest
termination_by part.length
decreasing_by exact compileStep_lt _hpart _hstep

/-- What is compiled is what is read: the regular expression is that of the items between the
anchors, every item begins with a round of the loop of its own, and each conversion has the group of
its ordinal. -/
structure Compiles {part : List Char} (reading : Reading part) (draft : Draft) : Prop where
  regpat : draft.regpat = Utf8.encode ("^\\c".toList ++ translate reading.items ++ "$".toList)
  reads : ∀ before after, reading.items = before ++ after →
    Utf8.encode (sourceOf after) ∈ stops true .init (Utf8.encode part)
  groups : ∀ (k : Nat) (fi : Fin FMT_PATTERNS), (fieldsOf reading.items)[k]? = some fi →
    draft.addr[fi.val]? = some (k + 1)
  absent : ∀ fi : Fin FMT_PATTERNS, fi ∉ fieldsOf reading.items → draft.addr[fi.val]? = some 0
  letters : (draft.prefixLetter, draft.flags) = reading.pfx.letters

/-- No `%*[…]` class is followed by anything, and no class is torn. -/
structure Plainly (items : List Item) : Prop where
  sets : ∀ before item after, items = before ++ item :: after → item.IsSet → after = []
  classes : ∀ item ∈ items, ¬item.IsTorn

/-! ## Bytes of characters -/

theorem encode_ascii {c : Char} (hc : c.toNat < 128) : Utf8.encode [c] = [c.toUInt8] := by
  rcases Utf8.utf8EncodeChar_cases c with ⟨-, hbytes⟩ | ⟨lead, tail, hbytes, hlead, -⟩
  · rw [Utf8.encode_cons, hbytes, Utf8.encode_nil]
    rfl
  · have hlow := Utf8.lead_of_followers hlead
    have hhigh : String.utf8EncodeChar c = [UInt8.ofNat c.toNat] := by
      unfold String.utf8EncodeChar
      exact if_pos (Nat.le_of_lt_succ hc)
    rw [hhigh] at hbytes
    have hbyte := (List.cons.inj hbytes).1
    rw [← hbyte, UInt8.toNat_ofNat', Nat.mod_eq_of_lt (by omega)] at hlow
    omega

theorem encode_wide {c : Char} (hc : 128 ≤ c.toNat) : ∃ lead tail, Utf8.encode [c] = lead :: tail ∧ tail ≠ [] ∧
    ∀ b ∈ lead :: tail, 128 ≤ b.toNat := by
  rcases Utf8.utf8EncodeChar_cases c with ⟨hlow, -⟩ | ⟨lead, tail, hbytes, hlead, -⟩
  · omega
  · refine ⟨lead, tail, ?_, ?_, ?_⟩
    · rw [Utf8.encode_cons, hbytes, Utf8.encode_nil, List.append_nil]
    · exact List.ne_nil_of_length_pos (Utf8.followers_le hlead).1
    · rw [← hbytes]
      exact Utf8.utf8EncodeChar_ge_128 hc

/-- A byte of a character of several bytes is none of ASCII. -/
theorem ne_of_high {b : UInt8} (hb : 128 ≤ b.toNat) {c : Char} (hc : c.toUInt8.toNat < 128) :
    b ≠ c.toUInt8 := by
  rintro rfl
  omega

theorem not_mem_of_high {b : UInt8} (hb : 128 ≤ b.toNat) {text : List UInt8}
    (htext : text.all (fun c => c.toNat < 128) = true) : b ∉ text := by
  intro hmem
  have := of_decide_eq_true (List.all_eq_true.mp htext b hmem)
  omega

theorem toNat_toUInt8 {c : Char} (hc : c.toNat < 128) : c.toUInt8.toNat = c.toNat := by
  show c.toNat % 256 = c.toNat
  exact Nat.mod_eq_of_lt (by omega)

theorem toUInt8_inj {c d : Char} (hc : c.toNat < 128) (hd : d.toNat < 128) :
    c.toUInt8 = d.toUInt8 ↔ c = d := by
  constructor
  · intro h
    have hnat := congrArg UInt8.toNat h
    rw [toNat_toUInt8 hc, toNat_toUInt8 hd] at hnat
    exact Char.ext (UInt32.toNat_inj.mp hnat)
  · rintro rfl
    rfl

/-- The first byte of text is an ASCII byte where its first character is that character. -/
theorem head?_encode (text : List Char) {c : Char} (hc : c.toNat < 128) :
    (Utf8.encode text).head? = some c.toUInt8 ↔ text.head? = some c := by
  cases text with
  | nil => simp
  | cons first text =>
    have hsplit : Utf8.encode (first :: text) = Utf8.encode [first] ++ Utf8.encode text :=
      Utf8.encode_append [first] text
    rw [hsplit, List.head?_cons, Option.some.injEq]
    rcases lt_or_ge first.toNat 128 with hfirst | hfirst
    · rw [encode_ascii hfirst, List.singleton_append, List.head?_cons, Option.some.injEq]
      exact toUInt8_inj hfirst hc
    · obtain ⟨lead, tail, hbytes, -, hhigh⟩ := encode_wide hfirst
      rw [hbytes, List.cons_append, List.head?_cons, Option.some.injEq]
      constructor
      · intro h
        have hlead := hhigh lead List.mem_cons_self
        rw [h, toNat_toUInt8 hc] at hlead
        omega
      · rintro rfl
        omega

/-! ## Rounds -/

variable {start : Bool} {draft draft' : Draft} {part rest : List UInt8}

/-- The loop comes from one place to another. -/
structure Reaches (start : Bool) (draft : Draft) (part : List UInt8) (draft' : Draft) (rest : List UInt8) :
    Prop where
  loop : compileLoop start draft part = compileLoop false draft' rest
  stops : ∃ earlier, stops start draft part = earlier ++ stops false draft' rest ∧
    ∀ stop ∈ earlier, rest.length < stop.length
  le : rest.length ≤ part.length

theorem Reaches.refl (draft : Draft) (part : List UInt8) : Reaches false draft part draft part :=
  ⟨rfl, ⟨[], rfl, by simp⟩, le_rfl⟩

theorem Reaches.trans {draft'' : Draft} {rest' : List UInt8} (h : Reaches start draft part draft' rest)
    (h' : Reaches false draft' rest draft'' rest') : Reaches start draft part draft'' rest' := by
  obtain ⟨earlier, hstops, hearlier⟩ := h.stops
  obtain ⟨earlier', hstops', hearlier'⟩ := h'.stops
  refine ⟨h.loop.trans h'.loop, ⟨earlier ++ earlier', ?_, fun stop hstop => ?_⟩, h'.le.trans h.le⟩
  · rw [hstops, hstops', List.append_assoc]
  · rcases List.mem_append.mp hstop with hstop | hstop
    · exact Nat.lt_of_le_of_lt h'.le (hearlier stop hstop)
    · exact hearlier' stop hstop

theorem Reaches.of_step (hpart : part ≠ []) (hstep : compileStep start draft part = .ok (draft', rest)) :
    Reaches start draft part draft' rest := by
  have hlt := compileStep_lt hpart hstep
  refine ⟨?_, ⟨[part], ?_, ?_⟩, hlt.le⟩
  · rw [compileLoop, dif_neg hpart]
    split
    · next heq =>
      rw [hstep] at heq
      cases heq
    · next heq =>
      rw [hstep] at heq
      cases heq
      rfl
  · rw [ErrorFormat.stops, dif_neg hpart]
    split
    · next heq =>
      rw [hstep] at heq
      cases heq
    · next heq =>
      rw [hstep] at heq
      cases heq
      rfl
  · intro stop hstop
    rw [List.mem_singleton.mp hstop]
    exact hlt

theorem compileLoop_error (hpart : part ≠ []) {error : EfmError}
    (hstep : compileStep start draft part = .error error) : compileLoop start draft part = .error error := by
  rw [compileLoop, dif_neg hpart]
  split
  · next heq =>
    rw [hstep] at heq
    cases heq
    rfl
  · next heq =>
    rw [hstep] at heq
    cases heq

@[simp] theorem push_push (draft : Draft) (text text' : List UInt8) :
    (draft.push text).push text' = draft.push (text ++ text') := by
  rw [Draft.push, Draft.push, Draft.push, List.append_assoc]

/-- The bytes of a character outside of ASCII are taken as they are. -/
theorem compileStep_high {b : UInt8} (hb : 128 ≤ b.toNat) (start : Bool) (draft : Draft) (rest : List UInt8) :
    compileStep start draft (b :: rest) = .ok (draft.push [b], rest) := by
  have hne : ∀ c : Char, c.toUInt8.toNat < 128 → b ≠ c.toUInt8 := fun _ hc => ne_of_high hb hc
  rw [compileStep, if_neg (hne '%' (by decide)), plainStep,
    if_neg fun hboth => hne '\\' (by decide) hboth.1, if_neg (not_mem_of_high hb (by decide))]

theorem reaches_high (high : List UInt8) (hhigh : ∀ b ∈ high, 128 ≤ b.toNat) (draft : Draft)
    (rest : List UInt8) : Reaches false draft (high ++ rest) (draft.push high) rest := by
  induction high generalizing draft with
  | nil =>
    have hsame : draft.push [] = draft := by
      rw [Draft.push, List.append_nil]
    rw [hsame]
    exact .refl draft rest
  | cons b high ih =>
    have hstep := compileStep_high (hhigh b List.mem_cons_self) false draft (high ++ rest)
    have hrest := ih (fun c hc => hhigh c (List.mem_cons_of_mem _ hc)) (draft.push [b])
    rw [push_push] at hrest
    exact (Reaches.of_step (List.cons_ne_nil _ _) hstep).trans hrest

/-! ## Steps of items -/

theorem encode_cons_ascii {c : Char} (hc : c.toNat < 128) (text : List Char) :
    Utf8.encode (c :: text) = c.toUInt8 :: Utf8.encode text := by
  have hsplit : Utf8.encode (c :: text) = Utf8.encode [c] ++ Utf8.encode text :=
    Utf8.encode_append [c] text
  rw [hsplit, encode_ascii hc, List.singleton_append]

theorem encode_cons_wide {c : Char} (hc : 128 ≤ c.toNat) (text : List Char) : ∃ lead tail,
    Utf8.encode [c] = lead :: tail ∧ Utf8.encode (c :: text) = lead :: (tail ++ Utf8.encode text) ∧ tail ≠ [] ∧
      ∀ b ∈ lead :: tail, 128 ≤ b.toNat := by
  obtain ⟨lead, tail, hbytes, htail, hhigh⟩ := encode_wide hc
  refine ⟨lead, tail, hbytes, ?_, htail, hhigh⟩
  have hsplit : Utf8.encode (c :: text) = Utf8.encode [c] ++ Utf8.encode text :=
    Utf8.encode_append [c] text
  rw [hsplit, hbytes, List.cons_append]

/-- An ASCII byte is the byte of its own character and of no other. -/
theorem mem_encode {c : Char} (hc : c.toNat < 128) (text : List Char) :
    c.toUInt8 ∈ Utf8.encode text ↔ c ∈ text := by
  induction text with
  | nil => simp
  | cons d text ih =>
    rcases lt_or_ge d.toNat 128 with hd | hd
    · rw [encode_cons_ascii hd, List.mem_cons, List.mem_cons, ih, toUInt8_inj hc hd]
    · obtain ⟨lead, tail, -, hbytes, -, hhigh⟩ := encode_cons_wide hd text
      have hleft : c.toUInt8 ∉ lead :: tail := by
        intro hmem
        have := hhigh _ hmem
        rw [toNat_toUInt8 hc] at this
        omega
      have hne : c ≠ d := by
        rintro rfl
        omega
      rw [hbytes, ← List.cons_append, List.mem_append, or_iff_right hleft, ih, List.mem_cons,
        or_iff_right hne]

/-- What an item makes of a draft. -/
def Item.apply (next : Option Char) (draft : Draft) (item : Item) : Draft :=
  let pushed := draft.push (Utf8.encode (item.translation next))
  match item with
  | .field fi => { pushed with round := draft.round + 1, addr := draft.addr.set fi (draft.round + 1) }
  | .resume => { pushed with conthere := true }
  | _ => pushed

theorem compileStep_percent (start : Bool) (draft : Draft) (rest : List UInt8) :
    compileStep start draft ('%'.toUInt8 :: rest) = percentStep start draft rest := by
  rw [compileStep, if_pos rfl]

theorem findIdx?_code (fi : Fin FMT_PATTERNS) :
    (FMT_PAT.findIdx? fun entry => entry.1.toUInt8 == (FMT_PAT.get fi).1.toUInt8) = some fi.val := by
  revert fi
  decide

theorem code_ascii (fi : Fin FMT_PATTERNS) : (FMT_PAT.get fi).1.toNat < 128 := by
  revert fi
  decide

/-- The pattern of a conversion as the compiler finds it. -/
theorem fieldPattern_eq (fi : Fin FMT_PATTERNS) (rest : List Char) :
    fieldPattern fi (FMT_PAT.get fi).1.toUInt8 (Utf8.encode rest).head? =
      if fi.val = 0 then
        rest.head?.elim ".\\+" fun next => if next = '\\' ∨ next = '%' then "\\f\\+" else ".\\\x7b-1,\x7d"
      else (FMT_PAT.get fi).2 := by
  have hget : ((FMT_PAT[fi.val]?).map Prod.snd).getD "" = (FMT_PAT.get fi).2 := by
    rw [List.getElem?_eq_getElem fi.isLt]
    rfl
  have hf : (FMT_PAT.get fi).1.toUInt8 = 'f'.toUInt8 ↔ fi.val = 0 := by
    revert fi
    decide
  unfold fieldPattern
  cases rest with
  | nil =>
    rw [Utf8.encode_nil]
    dsimp only [List.head?_nil]
    rw [hget]
    split
    · next hzero =>
      obtain rfl : fi = ⟨0, by decide⟩ := Fin.ext hzero
      rfl
    · rfl
  | cons next rest =>
    have hback := head?_encode (next :: rest) (c := '\\') (by decide)
    have hpercent := head?_encode (next :: rest) (c := '%') (by decide)
    have hne : Utf8.encode (next :: rest) ≠ [] := by
      intro hnil
      have hinj := Utf8.encode_injective (hnil.trans Utf8.encode_nil.symm)
      cases hinj
    obtain ⟨lead, tail, hbytes⟩ := List.exists_cons_of_ne_nil hne
    rw [hbytes, List.head?_cons, Option.some.injEq, List.head?_cons, Option.some.injEq] at hback hpercent
    rw [hbytes, List.head?_cons, List.head?_cons]
    dsimp only [Option.elim_some]
    rw [hget]
    by_cases hzero : fi.val = 0
    · rw [if_pos (hf.mpr hzero), if_pos hzero]
      by_cases hspecial : next = '\\' ∨ next = '%'
      · rw [if_pos hspecial, if_neg]
        rw [← hback, ← hpercent] at hspecial
        tauto
      · rw [if_neg hspecial, if_pos]
        rw [← hback, ← hpercent] at hspecial
        tauto
    · rw [if_neg fun h => hzero (hf.mp h), if_neg hzero]

theorem pushFieldGroup_ok {c : UInt8} {fi : Nat} {next : Option UInt8}
    (h : pushFieldGroup draft c fi next = .ok draft') : draft.addr.getD fi 0 = 0 ∧
      draft' = { draft with
        round := draft.round + 1
        addr := draft.addr.set fi (draft.round + 1)
        regpat := draft.regpat ++ bytes "\\(" ++ bytes (fieldPattern fi c next) ++ bytes "\\)" } := by
  rw [pushFieldGroup] at h
  split at h
  · cases h
  next hfree =>
  split at h
  · cases h
  · exact ⟨not_not.mp hfree, (Except.ok.inj h).symm⟩

/-- A conversion that is accepted. -/
theorem compileStep_field (fi : Fin FMT_PATTERNS) (start : Bool) (draft : Draft) (rest : List Char) :
    (∃ error, compileStep start draft (Utf8.encode ((Item.field fi).source ++ rest)) = .error error) ∨
      draft.addr.getD fi 0 = 0 ∧ compileStep start draft (Utf8.encode ((Item.field fi).source ++ rest)) =
        .ok ((Item.field fi).apply rest.head? draft, Utf8.encode rest) := by
  have hbytes : Utf8.encode ((Item.field fi).source ++ rest) =
      '%'.toUInt8 :: (FMT_PAT.get fi).1.toUInt8 :: Utf8.encode rest := by
    show Utf8.encode ('%' :: (FMT_PAT.get fi).1 :: rest) = _
    rw [encode_cons_ascii (by decide), encode_cons_ascii (code_ascii fi)]
  rw [hbytes, compileStep_percent, percentStep, findIdx?_code]
  dsimp only
  cases hgroup : pushFieldGroup draft (FMT_PAT.get fi).1.toUInt8 fi (Utf8.encode rest).head? with
  | error error => exact .inl ⟨error, rfl⟩
  | ok draft' =>
    obtain ⟨hfree, rfl⟩ := pushFieldGroup_ok hgroup
    refine .inr ⟨hfree, ?_⟩
    rw [fieldPattern_eq]
    simp only [Except.map, Item.apply, Item.translation, Draft.push, bytes, Utf8.encode_append,
      List.append_assoc]

theorem percentStep_class (start : Bool) (draft : Draft) (rest : List UInt8) :
    percentStep start draft ('*'.toUInt8 :: rest) =
      (pushScanfClass draft rest).map fun read => (read.1, read.2.tail) := by
  have hnone : (FMT_PAT.findIdx? fun entry => entry.1.toUInt8 == '*'.toUInt8) = none := by decide
  rw [percentStep, hnone]
  dsimp only
  rw [if_pos rfl]

/-- A class is compiled as it stands, but one more byte is lost behind it. -/
theorem compileStep_scanfSet (negated : Bool) (first : Char) (body : List Char)
    (hfirst : negated = false → first ≠ '^') (hbody : ']' ∉ body) (start : Bool) (draft : Draft)
    (rest : List Char) :
    compileStep start draft (Utf8.encode ((Item.scanfSet negated first body hfirst hbody).source ++ rest)) =
      .ok ((Item.scanfSet negated first body hfirst hbody).apply rest.head? draft, (Utf8.encode rest).tail) := by
  have hopen : Utf8.encode ((Item.scanfSet negated first body hfirst hbody).source ++ rest) =
      '%'.toUInt8 :: '*'.toUInt8 :: '['.toUInt8 ::
        Utf8.encode ((if negated then ['^'] else []) ++ first :: (body ++ ']' :: rest)) := by
    have hsource : (Item.scanfSet negated first body hfirst hbody).source ++ rest =
        '%' :: '*' :: '[' :: ((if negated then ['^'] else []) ++ first :: (body ++ ']' :: rest)) := by
      rw [Item.source]
      cases negated <;> simp
    rw [hsource, encode_cons_ascii (by decide), encode_cons_ascii (by decide), encode_cons_ascii (by decide)]
  -- what is behind the bracket and the caret
  obtain ⟨lead, tail, hlead, hnone⟩ : ∃ lead tail, Utf8.encode [first] = lead :: tail ∧ ']'.toUInt8 ∉ tail := by
    rcases lt_or_ge first.toNat 128 with hlow | hhigh
    · exact ⟨_, [], encode_ascii hlow, List.not_mem_nil⟩
    · obtain ⟨lead, tail, hbytes, -, hbytesHigh⟩ := encode_wide hhigh
      refine ⟨lead, tail, hbytes, fun hmem => ?_⟩
      exact ne_of_high (hbytesHigh _ (List.mem_cons_of_mem _ hmem)) (c := ']') (by decide) rfl
  have hinner : Utf8.encode (first :: (body ++ ']' :: rest)) =
      lead :: (tail ++ Utf8.encode body ++ ']'.toUInt8 :: Utf8.encode rest) := by
    have hsplit : Utf8.encode (first :: (body ++ ']' :: rest)) =
        Utf8.encode [first] ++ Utf8.encode (body ++ ']' :: rest) := Utf8.encode_append [first] _
    rw [hsplit, hlead, Utf8.encode_append, encode_cons_ascii (by decide), List.cons_append, List.append_assoc]
  have hnegated : (Utf8.encode ((if negated then ['^'] else []) ++ first :: (body ++ ']' :: rest))).head? =
      some '^'.toUInt8 ↔ negated = true := by
    rw [head?_encode _ (by decide)]
    cases negated with
    | true => simp
    | false =>
      have := hfirst rfl
      simpa using this
  have hskipped : (if (Utf8.encode ((if negated then ['^'] else []) ++
        first :: (body ++ ']' :: rest))).head? = some '^'.toUInt8 then
      (Utf8.encode ((if negated then ['^'] else []) ++ first :: (body ++ ']' :: rest))).tail
      else Utf8.encode ((if negated then ['^'] else []) ++ first :: (body ++ ']' :: rest))) =
      lead :: (tail ++ Utf8.encode body ++ ']'.toUInt8 :: Utf8.encode rest) := by
    rw [← hinner]
    cases negated with
    | true =>
      rw [if_pos (hnegated.mpr rfl)]
      rfl
    | false =>
      rw [if_neg fun h => absurd (hnegated.mp h) Bool.false_ne_true]
      rfl
  have htake : (tail ++ Utf8.encode body ++ ']'.toUInt8 :: Utf8.encode rest).takeWhile (· ≠ ']'.toUInt8) =
      tail ++ Utf8.encode body := by
    rw [List.takeWhile_append_of_pos]
    · rw [List.takeWhile_cons_of_neg (by simp), List.append_nil]
    · intro b hb
      rw [decide_eq_true_eq]
      rintro rfl
      rcases List.mem_append.mp hb with hb | hb
      · exact hnone hb
      · exact hbody ((mem_encode (by decide) body).mp hb)
  rw [hopen, compileStep_percent, percentStep_class, pushScanfClass, if_pos rfl, pushScanfSet]
  dsimp only
  rw [hskipped]
  dsimp only
  rw [htake, List.drop_left]
  dsimp only [Except.map]
  congr 2
  have hclass : Utf8.encode (first :: body) = lead :: (tail ++ Utf8.encode body) := by
    have hsplit : Utf8.encode (first :: body) = Utf8.encode [first] ++ Utf8.encode body :=
      Utf8.encode_append [first] body
    rw [hsplit, hlead, List.cons_append]
  have hclose : ']'.toUInt8 :: bytes "\\+" = Utf8.encode "]\\+".toList := by decide
  have hopened : bytes (if (Utf8.encode ((if negated then ['^'] else []) ++
        first :: (body ++ ']' :: rest))).head? = some '^'.toUInt8 then "[^" else "[") =
      Utf8.encode (if negated then ['[', '^'] else ['[']) := by
    cases negated with
    | true =>
      rw [if_pos (hnegated.mpr rfl)]
      rfl
    | false =>
      rw [if_neg fun h => absurd (hnegated.mp h) Bool.false_ne_true]
      rfl
  rw [push_push, hopened, hclose, ← hclass, ← Utf8.encode_append, ← Utf8.encode_append, ← List.append_assoc]
  rfl

/-- A class behind a backslash takes one byte. -/
theorem compileStep_scanfClass (lead : UInt8) (start : Bool) (draft : Draft) (rest : List UInt8) :
    compileStep start draft (Utf8.encode ['%', '*', '\\'] ++ lead :: rest) =
      .ok (draft.push ('\\'.toUInt8 :: lead :: bytes "\\+"), rest) := by
  have hopen : Utf8.encode ['%', '*', '\\'] = ['%'.toUInt8, '*'.toUInt8, '\\'.toUInt8] := by decide
  rw [hopen, List.cons_append, List.cons_append, List.cons_append, List.nil_append, compileStep_percent,
    percentStep_class, pushScanfClass, if_neg (by decide), if_pos rfl]
  rfl

/-- Characters behind a percent sign that are no conversions. -/
theorem findIdx?_literal {c : Char} (hc : c ∈ "%\\.^$~[#>".toList) :
    (FMT_PAT.findIdx? fun entry => entry.1.toUInt8 == c.toUInt8) = none ∧ c.toUInt8 ≠ '*'.toUInt8 := by
  have hall : "%\\.^$~[#>".toList.all (fun c =>
      (FMT_PAT.findIdx? fun entry => entry.1.toUInt8 == c.toUInt8) == none && c.toUInt8 != '*'.toUInt8) = true := by
    decide
  have hthis := List.all_eq_true.mp hall c hc
  rw [Bool.and_eq_true, beq_iff_eq, bne_iff_ne] at hthis
  exact hthis

theorem compileStep_literal {c : Char} (hc : c ∈ "%\\.^$~[".toList) (start : Bool) (draft : Draft)
    (rest : List UInt8) : compileStep start draft ('%'.toUInt8 :: c.toUInt8 :: rest) =
      .ok (draft.push [c.toUInt8], rest) := by
  obtain ⟨hnone, hstar⟩ := findIdx?_literal (c := c) (by
    have hsub : "%\\.^$~[".toList <+: "%\\.^$~[#>".toList := by decide
    exact hsub.subset hc)
  have hmem : c.toUInt8 ∈ bytes "%\\.^$~[" := by
    have hascii : c.toNat < 128 := by
      have hall : "%\\.^$~[".toList.all (fun c => c.toNat < 128) = true := by decide
      exact of_decide_eq_true (List.all_eq_true.mp hall c hc)
    exact (mem_encode hascii _).mpr hc
  rw [compileStep_percent, percentStep, hnone]
  dsimp only
  rw [if_neg hstar, if_pos hmem]

theorem compileStep_star (start : Bool) (draft : Draft) (rest : List UInt8) :
    compileStep start draft ('%'.toUInt8 :: '#'.toUInt8 :: rest) = .ok (draft.push (bytes "*"), rest) := by
  obtain ⟨hnone, hstar⟩ := findIdx?_literal (c := '#') (by decide)
  have hmem : '#'.toUInt8 ∉ bytes "%\\.^$~[" := by decide
  rw [compileStep_percent, percentStep, hnone]
  dsimp only
  rw [if_neg hstar, if_neg hmem, if_pos rfl]

theorem compileStep_resume (start : Bool) (draft : Draft) (rest : List UInt8) :
    compileStep start draft ('%'.toUInt8 :: '>'.toUInt8 :: rest) =
      .ok ({ draft with conthere := true }, rest) := by
  obtain ⟨hnone, hstar⟩ := findIdx?_literal (c := '>') (by decide)
  have hmem : '>'.toUInt8 ∉ bytes "%\\.^$~[" := by decide
  have hhash : ¬ '>'.toUInt8 = '#'.toUInt8 := by decide
  rw [compileStep_percent, percentStep, hnone]
  dsimp only
  rw [if_neg hstar, if_neg hmem, if_neg hhash, if_pos rfl]

theorem compileStep_quoted (b : UInt8) (start : Bool) (draft : Draft) (rest : List UInt8) :
    compileStep start draft ('\\'.toUInt8 :: b :: rest) = .ok (draft.push [b], rest) := by
  have hne : ¬ '\\'.toUInt8 = '%'.toUInt8 := by decide
  rw [compileStep, if_neg hne, plainStep, if_pos ⟨rfl, List.cons_ne_nil _ _⟩]
  rfl

theorem compileStep_backslash (start : Bool) (draft : Draft) :
    compileStep start draft ['\\'.toUInt8] = .ok (draft.push ['\\'.toUInt8], []) := by
  have hne : ¬ '\\'.toUInt8 = '%'.toUInt8 := by decide
  have hmem : '\\'.toUInt8 ∉ bytes ".*^$~[" := by decide
  rw [compileStep, if_neg hne, plainStep, if_neg (by simp), if_neg hmem]

theorem compileStep_plain {c : Char} (hascii : c.toNat < 128) (hpercent : c ≠ '%') (hbackslash : c ≠ '\\')
    (start : Bool) (draft : Draft) (rest : List UInt8) :
    compileStep start draft (c.toUInt8 :: rest) =
      .ok (draft.push (Utf8.encode (if c ∈ ".*^$~[".toList then ['\\', c] else [c])), rest) := by
  have hne : ¬c.toUInt8 = '%'.toUInt8 := fun h => hpercent ((toUInt8_inj hascii (by decide)).mp h)
  have hne' : ¬c.toUInt8 = '\\'.toUInt8 := fun h => hbackslash ((toUInt8_inj hascii (by decide)).mp h)
  have hmem : c.toUInt8 ∈ bytes ".*^$~[" ↔ c ∈ ".*^$~[".toList := mem_encode hascii _
  rw [compileStep, if_neg hne, plainStep, if_neg fun hboth => hne' hboth.1]
  by_cases hatom : c ∈ ".*^$~[".toList
  · rw [if_pos (hmem.mpr hatom), if_pos hatom, encode_cons_ascii (by decide), encode_ascii hascii]
  · rw [if_neg (fun h => hatom (hmem.mp h)), if_neg hatom, encode_ascii hascii]

/-! ## Reading item by item -/

theorem encode_ne_nil {text : List Char} (h : text ≠ []) : Utf8.encode text ≠ [] := by
  intro hnil
  exact h (Utf8.encode_injective (hnil.trans Utf8.encode_nil.symm))

theorem Item.source_ne_nil (item : Item) : item.source ≠ [] := by
  cases item with
  | scanfSet negated => cases negated <;> simp [source]
  | _ => exact List.cons_ne_nil _ _

/-- An item that is read in its own rounds. -/
theorem reaches_item {item : Item} {rest : List Char} {final : Draft} (hset : item.IsSet → rest = [])
    (htorn : ¬item.IsTorn) (hlone : item = .backslash → rest = [])
    (hok : compileLoop start draft (Utf8.encode (item.source ++ rest)) = .ok final) :
    Reaches start draft (Utf8.encode (item.source ++ rest)) (item.apply rest.head? draft) (Utf8.encode rest) ∧
      ∀ fi, item = .field fi → draft.addr.getD fi 0 = 0 := by
  have hne : Utf8.encode (item.source ++ rest) ≠ [] :=
    encode_ne_nil (List.append_ne_nil_of_left_ne_nil item.source_ne_nil rest)
  cases item with
  | field fi =>
    rcases compileStep_field fi start draft rest with ⟨error, herror⟩ | ⟨hfree, hstep⟩
    · rw [compileLoop_error hne herror] at hok
      cases hok
    · refine ⟨.of_step hne hstep, fun other hother => ?_⟩
      cases hother
      exact hfree
  | scanfSet negated first body hfirst hbody =>
    obtain rfl := hset trivial
    exact ⟨.of_step hne (compileStep_scanfSet negated first body hfirst hbody start draft []), by simp⟩
  | scanfClass letter =>
    have hascii : letter.toNat < 128 := not_le.mp htorn
    refine ⟨.of_step hne ?_, by simp⟩
    have hsource : (Item.scanfClass letter).source ++ rest = ['%', '*', '\\'] ++ letter :: rest := rfl
    rw [hsource, Utf8.encode_append, encode_cons_ascii hascii, compileStep_scanfClass]
    have htext : '\\'.toUInt8 :: letter.toUInt8 :: bytes "\\+" =
        Utf8.encode (['\\', letter] ++ "\\+".toList) := by
      rw [Utf8.encode_append, encode_cons_ascii (by decide), encode_ascii hascii]
      rfl
    rw [htext]
    rfl
  | literal c hc =>
    have hascii : c.toNat < 128 := by
      have hall : "%\\.^$~[".toList.all (fun c => c.toNat < 128) = true := by decide
      exact of_decide_eq_true (List.all_eq_true.mp hall c hc)
    refine ⟨.of_step hne ?_, by simp⟩
    have hsource : (Item.literal c hc).source ++ rest = '%' :: c :: rest := rfl
    rw [hsource, encode_cons_ascii (by decide), encode_cons_ascii hascii, compileStep_literal hc,
      ← encode_ascii hascii]
    rfl
  | star =>
    refine ⟨.of_step hne ?_, by simp⟩
    have hsource : Item.star.source ++ rest = '%' :: '#' :: rest := rfl
    rw [hsource, encode_cons_ascii (by decide), encode_cons_ascii (by decide), compileStep_star]
    rfl
  | resume =>
    refine ⟨.of_step hne ?_, by simp⟩
    have hsource : Item.resume.source ++ rest = '%' :: '>' :: rest := rfl
    rw [hsource, encode_cons_ascii (by decide), encode_cons_ascii (by decide), compileStep_resume]
    have hpushed : (Item.resume).apply rest.head? draft = { draft.push [] with conthere := true } := rfl
    rw [hpushed, Draft.push, List.append_nil]
  | quoted c =>
    refine ⟨?_, by simp⟩
    have hsource : (Item.quoted c).source ++ rest = '\\' :: c :: rest := rfl
    rw [hsource, encode_cons_ascii (by decide)] at hne ⊢
    rcases lt_or_ge c.toNat 128 with hascii | hwide
    · rw [encode_cons_ascii hascii] at hne ⊢
      have hstep := compileStep_quoted c.toUInt8 start draft (Utf8.encode rest)
      rw [← encode_ascii hascii] at hstep
      exact .of_step hne hstep
    · obtain ⟨lead, tail, hchar, hbytes, -, hhigh⟩ := encode_cons_wide hwide rest
      rw [hbytes] at hne ⊢
      have hrest := reaches_high tail (fun b hb => hhigh b (List.mem_cons_of_mem _ hb)) (draft.push [lead])
        (Utf8.encode rest)
      rw [push_push, List.singleton_append, ← hchar] at hrest
      exact (Reaches.of_step hne (compileStep_quoted lead start draft _)).trans hrest
  | plain c hpercent hbackslash =>
    refine ⟨?_, by simp⟩
    have hsource : (Item.plain c hpercent hbackslash).source ++ rest = c :: rest := rfl
    rw [hsource] at hne ⊢
    rcases lt_or_ge c.toNat 128 with hascii | hwide
    · rw [encode_cons_ascii hascii] at hne ⊢
      exact .of_step hne (compileStep_plain hascii hpercent hbackslash start draft _)
    · obtain ⟨lead, tail, hchar, hbytes, -, hhigh⟩ := encode_cons_wide hwide rest
      rw [hbytes] at hne ⊢
      have hrest := reaches_high tail (fun b hb => hhigh b (List.mem_cons_of_mem _ hb)) (draft.push [lead])
        (Utf8.encode rest)
      have hatom : c ∉ ".*^$~[".toList := by
        intro hmem
        have hall : ".*^$~[".toList.all (fun c => c.toNat < 128) = true := by decide
        have := of_decide_eq_true (List.all_eq_true.mp hall c hmem)
        omega
      have happly : (Item.plain c hpercent hbackslash).apply rest.head? draft = draft.push (Utf8.encode [c]) := by
        show draft.push (Utf8.encode (if c ∈ ".*^$~[".toList then _ else _)) = _
        rw [if_neg hatom]
      rw [push_push, List.singleton_append, ← hchar, ← happly] at hrest
      exact (Reaches.of_step hne (compileStep_high (hhigh lead List.mem_cons_self) start draft _)).trans hrest
  | backslash =>
    obtain rfl := hlone rfl
    refine ⟨.of_step hne ?_, by simp⟩
    exact compileStep_backslash start draft

@[simp] theorem Item.apply_regpat (item : Item) (next : Option Char) (draft : Draft) :
    (item.apply next draft).regpat = draft.regpat ++ Utf8.encode (item.translation next) := by
  cases item <;> rfl

theorem Item.apply_letters (item : Item) (next : Option Char) (draft : Draft) :
    ((item.apply next draft).prefixLetter, (item.apply next draft).flags) =
      (draft.prefixLetter, draft.flags) := by
  cases item <;> rfl

/-- Only a conversion has a group. -/
theorem Item.apply_addr {item : Item} (hfield : item.field? = none) (next : Option Char) (draft : Draft) :
    (item.apply next draft).addr = draft.addr ∧ (item.apply next draft).round = draft.round := by
  cases item with
  | field fi => cases hfield
  | _ => exact ⟨rfl, rfl⟩

/-- What reading items does to the groups. -/
structure Grouped (items : List Item) (draft final : Draft) : Prop where
  groups : ∀ (k : Nat) (fi : Fin FMT_PATTERNS), (fieldsOf items)[k]? = some fi →
    final.addr[fi.val]? = some (draft.round + k + 1)
  absent : ∀ fi : Fin FMT_PATTERNS, fi ∉ fieldsOf items → final.addr[fi.val]? = draft.addr[fi.val]?
  free : ∀ fi ∈ fieldsOf items, draft.addr.getD fi.val 0 = 0

/-- A conversion takes the next group. -/
theorem Grouped.cons_field {items : List Item} {final : Draft} {fi : Fin FMT_PATTERNS} {next : Option Char}
    (hlength : draft.addr.length = FMT_PATTERNS) (hfree : draft.addr.getD fi.val 0 = 0)
    (h : Grouped items ((Item.field fi).apply next draft) final) :
    Grouped (.field fi :: items) draft final := by
  have haddr : ((Item.field fi).apply next draft).addr = draft.addr.set fi.val (draft.round + 1) := rfl
  have hround : ((Item.field fi).apply next draft).round = draft.round + 1 := rfl
  have hset : ∀ other : Fin FMT_PATTERNS, other ≠ fi →
      (draft.addr.set fi.val (draft.round + 1))[other.val]? = draft.addr[other.val]? := by
    intro other hne
    exact List.getElem?_set_ne fun heq => hne (Fin.ext heq.symm)
  have hself : (draft.addr.set fi.val (draft.round + 1))[fi.val]? = some (draft.round + 1) :=
    List.getElem?_set_self (by rw [hlength]; exact fi.isLt)
  -- a conversion does not come twice
  have hnot : fi ∉ fieldsOf items := by
    intro hmem
    have hzero := h.free fi hmem
    rw [haddr, List.getD_eq_getElem?_getD, hself] at hzero
    exact absurd hzero (Nat.succ_ne_zero _)
  have hfields : fieldsOf (.field fi :: items) = fi :: fieldsOf items := rfl
  refine ⟨fun k other hother => ?_, fun other hother => ?_, fun other hother => ?_⟩
  · rw [hfields] at hother
    cases k with
    | zero =>
      obtain rfl : fi = other := Option.some.inj hother
      rw [h.absent fi hnot, haddr, hself, Nat.add_zero]
    | succ k =>
      have hgroup := h.groups k other hother
      rw [hround] at hgroup
      rw [hgroup]
      congr 1
      omega
  · rw [hfields, List.mem_cons, not_or] at hother
    rw [h.absent other hother.2, haddr, hset other hother.1]
  · rw [hfields] at hother
    rcases List.mem_cons.mp hother with hsame | hlater
    · rw [hsame]
      exact hfree
    · have hzero := h.free other hlater
      have hne : other ≠ fi := by
        rintro rfl
        exact hnot hlater
      rwa [haddr, List.getD_eq_getElem?_getD, hset other hne, ← List.getD_eq_getElem?_getD] at hzero

/-- What reading items does. -/
structure Reads (items : List Item) (start : Bool) (draft final : Draft) : Prop where
  regpat : final.regpat = draft.regpat ++ Utf8.encode (translate items)
  stops : ∀ before after, items = before ++ after →
    Utf8.encode (sourceOf after) ∈ stops start draft (Utf8.encode (sourceOf items))
  grouped : Grouped items draft final
  letters : (final.prefixLetter, final.flags) = (draft.prefixLetter, draft.flags)

theorem mem_stops_self (start : Bool) (draft : Draft) (part : List UInt8) : part ∈ stops start draft part := by
  rw [stops]
  split
  · next hnil => rw [hnil, List.mem_singleton]
  · exact List.mem_cons_self

theorem closed_tail {item : Item} {items : List Item} (h : Closed (item :: items)) : Closed items := by
  intro before after heq
  exact h (item :: before) after (by rw [heq, List.cons_append])

/-- **Items are read one after another.** -/
theorem reads_items {items : List Item} {final : Draft} (hclosed : Closed items) (hplainly : Plainly items)
    (hlength : draft.addr.length = FMT_PATTERNS)
    (hok : compileLoop start draft (Utf8.encode (sourceOf items)) = .ok final) :
    Reads items start draft final := by
  induction items generalizing start draft with
  | nil =>
    have hnil : Utf8.encode (sourceOf []) = [] := rfl
    rw [hnil, compileLoop, dif_pos rfl] at hok
    obtain rfl := Except.ok.inj hok
    refine ⟨(List.append_nil _).symm, fun before after heq => ?_, ⟨by simp [fieldsOf], fun _ _ => rfl, by simp [fieldsOf]⟩,
      rfl⟩
    rw [(List.append_eq_nil_iff.mp heq.symm).2]
    exact mem_stops_self _ _ _
  | cons item items ih =>
    have hsource : sourceOf (item :: items) = item.source ++ sourceOf items := List.flatMap_cons
    have hset : item.IsSet → sourceOf items = [] := by
      intro hset
      rw [hplainly.sets [] item items rfl hset]
      rfl
    have hlone : item = .backslash → sourceOf items = [] := by
      rintro rfl
      rw [hclosed [] items rfl]
      rfl
    rw [hsource] at hok
    obtain ⟨hreaches, hfree⟩ := reaches_item hset (hplainly.classes item List.mem_cons_self) hlone hok
    have hlength' : (item.apply (sourceOf items).head? draft).addr.length = FMT_PATTERNS := by
      cases hfield : item.field? with
      | none => rw [(Item.apply_addr hfield _ _).1, hlength]
      | some fi =>
        cases item with
        | field => exact List.length_set.trans hlength
        | _ => cases hfield
    have hplainly' : Plainly items :=
      ⟨fun before item' after heq => hplainly.sets (item :: before) item' after (by rw [heq, List.cons_append]),
        fun item' hitem => hplainly.classes item' (List.mem_cons_of_mem _ hitem)⟩
    rw [hreaches.loop] at hok
    have hrest := ih (closed_tail hclosed) hplainly' hlength' hok
    refine ⟨?_, fun before after heq => ?_, ?_, ?_⟩
    · rw [hrest.regpat, Item.apply_regpat, translate, Utf8.encode_append, List.append_assoc]
    · cases before with
      | nil =>
        rw [← show item :: items = after from heq]
        exact mem_stops_self _ _ _
      | cons first before =>
        obtain ⟨earlier, hstops, -⟩ := hreaches.stops
        rw [hsource, hstops]
        exact List.mem_append_right _ (hrest.stops before after (List.cons.inj heq).2)
    · cases hfield : item.field? with
      | none =>
        obtain ⟨haddr, hround⟩ := Item.apply_addr hfield (sourceOf items).head? draft
        have hfields : fieldsOf (item :: items) = fieldsOf items := List.filterMap_cons_none hfield
        obtain ⟨hgroups, habsent, hfree'⟩ := hrest.grouped
        rw [haddr] at habsent hfree'
        rw [hround] at hgroups
        refine ⟨?_, ?_, ?_⟩
        · rw [hfields]
          exact hgroups
        · rw [hfields]
          exact habsent
        · rw [hfields]
          exact hfree'
      | some fi =>
        cases item with
        | field fi => exact hrest.grouped.cons_field hlength (hfree fi rfl)
        | _ => cases hfield
    · exact hrest.letters.trans (item.apply_letters _ _)

/-! ## What is lost -/

theorem stops_length_le (start : Bool) (draft : Draft) (part : List UInt8) :
    ∀ stop ∈ stops start draft part, stop.length ≤ part.length := by
  induction hn : part.length using Nat.strong_induction_on generalizing start draft part with
  | _ n ih =>
    intro stop hstop
    rw [stops] at hstop
    split at hstop
    · rw [List.mem_singleton] at hstop
      rw [hstop]
      exact Nat.zero_le _
    · next hpart =>
      rcases List.mem_cons.mp hstop with rfl | hrest
      · exact hn.le
      · split at hrest
        · cases hrest
        · next draft' rest hstep =>
          have hlt := compileStep_lt hpart hstep
          exact (ih rest.length (hn ▸ hlt) false draft' rest rfl stop hrest).trans (hn ▸ hlt.le)

theorem pushScanfSet_grows (h : pushScanfSet draft part = .ok (draft', rest)) :
    draft.regpat <+: draft'.regpat := by
  rw [pushScanfSet] at h
  dsimp only at h
  split at h
  · cases h
    rw [push_push]
    exact List.prefix_append _ _
  · split at h
    · cases h
    · cases h
      rw [push_push]
      exact List.prefix_append _ _

theorem pushScanfClass_grows {read : Draft × List UInt8} (h : pushScanfClass draft part = .ok read) :
    draft.regpat <+: read.1.regpat := by
  obtain ⟨draft', rest⟩ := read
  cases part with
  | nil => cases h
  | cons b part =>
    rw [pushScanfClass] at h
    split at h
    · exact pushScanfSet_grows h
    split at h
    · cases h
      exact List.prefix_append _ _
    · cases h

theorem setPrefix_regpat {p : UInt8} (h : setPrefix draft p part = .ok (draft', rest)) :
    draft'.regpat = draft.regpat := by
  rw [setPrefix] at h
  split at h
  · cases h
    rfl
  · cases h

/-- A step only adds to the text. -/
theorem compileStep_grows (h : compileStep start draft part = .ok (draft', rest)) :
    draft.regpat <+: draft'.regpat := by
  have hpush : ∀ text : List UInt8, draft.regpat <+: (draft.push text).regpat :=
    fun text => List.prefix_append _ _
  cases part with
  | nil =>
    cases h
    exact List.prefix_rfl
  | cons b part =>
    rw [compileStep] at h
    split at h
    · cases part with
      | nil => cases h
      | cons c part =>
        rw [percentStep] at h
        split at h
        · next fi hfi =>
          cases hgroup : pushFieldGroup draft c fi part.head? with
          | error error =>
            rw [hgroup] at h
            cases h
          | ok pushed =>
            rw [hgroup] at h
            cases h
            rw [(pushFieldGroup_ok hgroup).2]
            dsimp only
            rw [List.append_assoc, List.append_assoc]
            exact List.prefix_append _ _
        split at h
        · cases hclass : pushScanfClass draft part with
          | error error =>
            rw [hclass] at h
            cases h
          | ok read =>
            rw [hclass] at h
            cases h
            exact pushScanfClass_grows hclass
        split at h
        · cases h
          exact hpush _
        split at h
        · cases h
          exact hpush _
        split at h
        · cases h
          exact List.prefix_rfl
        split at h
        · unfold analyzePrefix at h
          split at h
          · cases part with
            | nil => cases h
            | cons p part => exact setPrefix_regpat h ▸ List.prefix_rfl
          · exact setPrefix_regpat h ▸ List.prefix_rfl
        · cases h
    · have hplain := congrArg Prod.fst (Except.ok.inj h)
      rw [← (show _ = draft' from hplain), plainStep]
      split
      · exact hpush _
      split
      · exact hpush _
      · exact hpush _

theorem compileLoop_grows {final : Draft} (h : compileLoop start draft part = .ok final) :
    draft.regpat <+: final.regpat := by
  induction hn : part.length using Nat.strong_induction_on generalizing start draft part with
  | _ n ih =>
    by_cases hpart : part = []
    · rw [compileLoop, dif_pos hpart] at h
      cases h
      exact List.prefix_rfl
    · cases hstep : compileStep start draft part with
      | error error =>
        rw [compileLoop_error hpart hstep] at h
        cases h
      | ok read =>
        have hreaches : Reaches start draft part read.1 read.2 := .of_step hpart hstep
        have hlt : read.2.length < part.length := compileStep_lt hpart hstep
        rw [hreaches.loop] at h
        exact (compileStep_grows hstep).trans (ih read.2.length (hn ▸ hlt) h rfl)

/-- A `%*[…]` class takes one more byte, so that what is behind it is not read from its beginning.
-/
theorem not_stops_of_set {item : Item} (hset : item.IsSet) {text : List Char} (htext : text ≠ [])
    (start : Bool) (draft : Draft) :
    Utf8.encode text ∉ stops start draft (Utf8.encode (item.source ++ text)) := by
  cases item with
  | scanfSet negated first body hfirst hbody =>
    have hstep := compileStep_scanfSet negated first body hfirst hbody start draft text
    have hne := encode_ne_nil (List.append_ne_nil_of_left_ne_nil
      (Item.scanfSet negated first body hfirst hbody).source_ne_nil text)
    obtain ⟨earlier, hstops, hearlier⟩ := (Reaches.of_step hne hstep).stops
    have hlt := List.length_pos_of_ne_nil (encode_ne_nil htext)
    have hsource := List.length_pos_of_ne_nil
      (encode_ne_nil (Item.scanfSet negated first body hfirst hbody).source_ne_nil)
    intro hmem
    rw [stops, dif_neg hne] at hmem
    rcases List.mem_cons.mp hmem with heq | hrest
    · have hlength := congrArg List.length heq
      rw [Utf8.encode_append, List.length_append] at hlength
      omega
    · split at hrest
      · cases hrest
      · next draft' rest heq =>
        rw [hstep] at heq
        obtain ⟨-, rfl⟩ := Prod.mk.inj (Except.ok.inj heq)
        have hle := stops_length_le false _ _ _ hrest
        rw [List.length_tail] at hle
        omega
  | _ => cases hset

/-- A torn class is not compiled as it stands. -/
theorem regpat_of_torn {item : Item} (htorn : item.IsTorn) {text : List Char} {final : Draft}
    (hok : compileLoop start draft (Utf8.encode (item.source ++ text)) = .ok final) (translated : List Char) :
    final.regpat ≠ draft.regpat ++ Utf8.encode (item.translation text.head? ++ translated) := by
  cases item with
  | scanfClass letter =>
    obtain ⟨lead, tail, hchar, hbytes, htail, hhigh⟩ := encode_cons_wide htorn text
    have hsource : Utf8.encode ((Item.scanfClass letter).source ++ text) =
        Utf8.encode ['%', '*', '\\'] ++ lead :: (tail ++ Utf8.encode text) := by
      rw [← hbytes, ← Utf8.encode_append]
      rfl
    have hne : Utf8.encode ['%', '*', '\\'] ++ lead :: (tail ++ Utf8.encode text) ≠ [] := by simp
    rw [hsource, (Reaches.of_step hne (compileStep_scanfClass lead start draft _)).loop] at hok
    obtain ⟨more, hmore⟩ := compileLoop_grows hok
    intro heq
    have htranslation : Utf8.encode ((Item.scanfClass letter).translation text.head? ++ translated) =
        '\\'.toUInt8 :: lead :: (tail ++ Utf8.encode ("\\+".toList ++ translated)) := by
      have hsplit : (Item.scanfClass letter).translation text.head? ++ translated =
          ['\\'] ++ ([letter] ++ ("\\+".toList ++ translated)) := rfl
      rw [hsplit, Utf8.encode_append, Utf8.encode_append, hchar]
      rfl
    rw [← hmore, htranslation, Draft.push, List.append_assoc] at heq
    have hsame := List.append_cancel_left heq
    have hrest := (List.cons.inj (List.cons.inj hsame).2).2
    obtain ⟨second, tail', rfl⟩ := List.exists_cons_of_ne_nil htail
    have hsecond := (List.cons.inj hrest).1
    have hlow := hhigh second (by simp)
    rw [← hsecond] at hlow
    exact absurd hlow (by decide)
  | _ => cases htorn

theorem sourceOf_eq_nil {items : List Item} (h : sourceOf items = []) : items = [] := by
  cases items with
  | nil => rfl
  | cons item items =>
    have hsource : sourceOf (item :: items) = item.source ++ sourceOf items := List.flatMap_cons
    rw [hsource] at h
    exact absurd (List.append_eq_nil_iff.mp h).1 item.source_ne_nil

/-- What is compiled as it stands, item by item, is plain. -/
theorem plainly_of_reads {items : List Item} {final : Draft} (hclosed : Closed items)
    (hok : compileLoop start draft (Utf8.encode (sourceOf items)) = .ok final)
    (hregpat : final.regpat = draft.regpat ++ Utf8.encode (translate items))
    (hstops : ∀ before after, items = before ++ after →
      Utf8.encode (sourceOf after) ∈ stops start draft (Utf8.encode (sourceOf items))) : Plainly items := by
  induction items generalizing start draft with
  | nil => exact ⟨by simp, by simp⟩
  | cons item items ih =>
    have hsource : sourceOf (item :: items) = item.source ++ sourceOf items := List.flatMap_cons
    rw [hsource] at hok hstops
    have hset : item.IsSet → sourceOf items = [] := by
      intro hset
      by_contra hne
      exact not_stops_of_set hset hne start draft (hstops [item] items rfl)
    have htorn : ¬item.IsTorn := by
      intro htorn
      exact regpat_of_torn htorn hok (translate items) hregpat
    have hlone : item = .backslash → sourceOf items = [] := by
      rintro rfl
      rw [hclosed [] items rfl]
      rfl
    obtain ⟨hreaches, -⟩ := reaches_item hset htorn hlone hok
    obtain ⟨earlier, hsplit, hearlier⟩ := hreaches.stops
    rw [hreaches.loop] at hok
    have hrest := ih (closed_tail hclosed) hok (by
      rw [hregpat, Item.apply_regpat, translate, Utf8.encode_append, List.append_assoc]) (by
      intro before after heq
      have hmem := hstops (item :: before) after (by rw [heq, List.cons_append])
      rw [hsplit] at hmem
      rcases List.mem_append.mp hmem with hmem | hmem
      · have hlt := hearlier _ hmem
        have hle : (Utf8.encode (sourceOf after)).length ≤ (Utf8.encode (sourceOf items)).length := by
          rw [heq, sourceOf, sourceOf, List.flatMap_append, Utf8.encode_append, List.length_append]
          omega
        omega
      · exact hmem)
    refine ⟨fun before found after heq hfound => ?_, fun found hfound => ?_⟩
    · cases before with
      | nil =>
        obtain ⟨rfl, rfl⟩ := List.cons.inj heq
        exact sourceOf_eq_nil (hset hfound)
      | cons first before => exact hrest.sets before found after (List.cons.inj heq).2 hfound
    · rcases List.mem_cons.mp hfound with rfl | hfound
      · exact htorn
      · exact hrest.classes found hfound

/-! ## Prefixes -/

/-- What a prefix sets. -/
def Prefix.apply (pfx : Prefix) (draft : Draft) : Draft :=
  { draft with prefixLetter := pfx.letters.1, flags := pfx.letters.2 }

/-- The letters of prefixes mean nothing else. -/
theorem findIdx?_prefix {c : Char} (hc : c ∈ "+-DXAEWINCZGOPQ".toList) :
    (FMT_PAT.findIdx? fun entry => entry.1.toUInt8 == c.toUInt8) = none ∧
      c.toUInt8 ∉ bytes "*%\\.^$~[#>" := by
  have hall : "+-DXAEWINCZGOPQ".toList.all (fun c =>
      (FMT_PAT.findIdx? fun entry => entry.1.toUInt8 == c.toUInt8) == none &&
        !(bytes "*%\\.^$~[#>").contains c.toUInt8) = true := by
    decide
  have hthis := List.all_eq_true.mp hall c hc
  rw [Bool.and_eq_true, beq_iff_eq] at hthis
  exact ⟨hthis.1, by simpa using hthis.2⟩

theorem percentStep_prefix {c : Char} (hc : c ∈ "+-DXAEWINCZGOPQ".toList) (draft : Draft)
    (rest : List UInt8) :
    percentStep true draft (c.toUInt8 :: rest) = analyzePrefix draft c.toUInt8 rest := by
  obtain ⟨hnone, hother⟩ := findIdx?_prefix hc
  have hsplit : bytes "*%\\.^$~[#>" = '*'.toUInt8 :: (bytes "%\\.^$~[" ++ ['#'.toUInt8, '>'.toUInt8]) :=
    by decide
  rw [hsplit, List.mem_cons, List.mem_append, List.mem_cons, List.mem_singleton] at hother
  simp only [not_or] at hother
  obtain ⟨hstar, hmem, hhash, hgreater⟩ := hother
  rw [percentStep, hnone]
  dsimp only
  rw [if_neg hstar, if_neg hmem, if_neg hhash, if_neg hgreater, if_pos rfl]

theorem setPrefix_ok {letter : Char} (h : letter ∈ "DXAEWINCZGOPQ".toList) (draft : Draft)
    (rest : List UInt8) : setPrefix draft letter.toUInt8 rest
      = .ok ({ draft with prefixLetter := letter.toUInt8 }, rest) := by
  have hascii : letter.toNat < 128 := by
    have hall : "DXAEWINCZGOPQ".toList.all (fun c => c.toNat < 128) = true := by decide
    exact of_decide_eq_true (List.all_eq_true.mp hall letter h)
  have hmem : letter.toUInt8 ∈ bytes "DXAEWINCZGOPQ" := (mem_encode hascii _).mpr h
  rw [setPrefix, if_pos hmem]

/-- The letter of a prefix is no flag. -/
theorem prefix_letter {c : Char} (hc : c ∈ "DXAEWINCZGOPQ".toList) :
    c ∈ "+-DXAEWINCZGOPQ".toList ∧ c.toNat < 128 ∧
      ¬(c.toUInt8 = '+'.toUInt8 ∨ c.toUInt8 = '-'.toUInt8) := by
  have hall : "DXAEWINCZGOPQ".toList.all (fun c => c.toNat < 128 &&
      !(c.toUInt8 == '+'.toUInt8) && !(c.toUInt8 == '-'.toUInt8)) = true := by
    decide
  have hthis := List.all_eq_true.mp hall c hc
  simp only [Bool.and_eq_true, decide_eq_true_eq, Bool.not_eq_true', beq_eq_false_iff_ne] at hthis
  obtain ⟨⟨hascii, hplus⟩, hminus⟩ := hthis
  have hsub : "DXAEWINCZGOPQ".toList <:+ "+-DXAEWINCZGOPQ".toList := ⟨['+', '-'], rfl⟩
  exact ⟨hsub.subset hc, hascii, not_or.mpr ⟨hplus, hminus⟩⟩

/-- A prefix is read in a round of its own. -/
theorem reaches_prefix {flag : Option Char} {letter : Char} {hflag : ∀ c ∈ flag, c = '+' ∨ c = '-'}
    {hletter : letter ∈ "DXAEWINCZGOPQ".toList} (rest : List Char) :
    Reaches true .init (Utf8.encode ((Prefix.given flag letter hflag hletter).source ++ rest))
      ((Prefix.given flag letter hflag hletter).apply .init) (Utf8.encode rest) := by
  obtain ⟨hmem, hascii, hsign⟩ := prefix_letter hletter
  cases flag with
  | none =>
    have hsource : (Prefix.given none letter hflag hletter).source ++ rest = '%' :: letter :: rest :=
      rfl
    rw [hsource, encode_cons_ascii (by decide), encode_cons_ascii hascii]
    refine .of_step (List.cons_ne_nil _ _) ?_
    rw [compileStep_percent, percentStep_prefix hmem]
    unfold analyzePrefix
    rw [if_neg hsign, setPrefix_ok hletter]
    rfl
  | some sign =>
    have hflags : ∀ c : Char, c = '+' ∨ c = '-' → c ∈ "+-DXAEWINCZGOPQ".toList ∧ c.toNat < 128 ∧
        (c.toUInt8 = '+'.toUInt8 ∨ c.toUInt8 = '-'.toUInt8) := by
      rintro c (rfl | rfl) <;> decide
    obtain ⟨hmem', hascii', hsign'⟩ := hflags sign (hflag sign rfl)
    have hsource : (Prefix.given (some sign) letter hflag hletter).source ++ rest
        = '%' :: sign :: letter :: rest := rfl
    rw [hsource, encode_cons_ascii (by decide), encode_cons_ascii hascii', encode_cons_ascii hascii]
    refine .of_step (List.cons_ne_nil _ _) ?_
    rw [compileStep_percent, percentStep_prefix hmem']
    unfold analyzePrefix
    rw [if_pos hsign']
    exact setPrefix_ok hletter _ _

/-! ## Parts -/

section Parts

variable {text : List Char} {final : Draft}

/-- Where reading the items of a part begins. -/
structure Begins (reading : Reading text) (start : Bool) (final : Draft) : Prop where
  loop : compileLoop start (reading.pfx.apply .init) (Utf8.encode (sourceOf reading.items)) = .ok final
  stops : ∀ after, (∃ before, reading.items = before ++ after) →
    (Utf8.encode (sourceOf after) ∈ stops true .init (Utf8.encode text) ↔
      Utf8.encode (sourceOf after) ∈
        stops start (reading.pfx.apply .init) (Utf8.encode (sourceOf reading.items)))

/-- Behind the prefix the loop reads the items. -/
theorem exists_begins (reading : Reading text)
    (hok : compileLoop true .init (Utf8.encode text) = .ok final) :
    ∃ start, Begins reading start final := by
  obtain ⟨pfx, items, hclosed, htext⟩ := reading
  cases pfx with
  | absent =>
    obtain rfl : text = sourceOf items := htext
    exact ⟨true, ⟨hok, fun _ _ => .rfl⟩⟩
  | given flag letter hflag hletter =>
    subst htext
    have hreaches : Reaches true .init _ ((Prefix.given flag letter hflag hletter).apply .init) _ :=
      reaches_prefix (sourceOf items)
    refine ⟨false, ⟨hreaches.loop.symm.trans hok, ?_⟩⟩
    obtain ⟨earlier, hsplit, hearlier⟩ := hreaches.stops
    rintro after ⟨before, heq⟩
    rw [hsplit, List.mem_append]
    refine or_iff_right fun hmem => ?_
    -- the rounds before the items are longer
    have hlt := hearlier _ hmem
    have hle : (Utf8.encode (sourceOf after)).length ≤ (Utf8.encode (sourceOf items)).length := by
      rw [show items = before ++ after from heq, sourceOf, sourceOf, List.flatMap_append,
        Utf8.encode_append, List.length_append]
      omega
    omega

/-- **A part is compiled item by item just where nothing follows a `%*[…]` class and no letter
behind `%*\` has several bytes.** -/
theorem compiles_iff {part : List Char} {draft : Draft} (hok : compileDraft part = .ok draft)
    (reading : Reading part) : Compiles reading draft ↔ Plainly reading.items := by
  obtain ⟨final, hfinal, rfl⟩ : ∃ final, compileLoop true .init (Utf8.encode part) = .ok final ∧
      final.push (bytes "$") = draft := by
    unfold compileDraft at hok
    cases hloop : compileLoop true .init (Utf8.encode part) with
    | error error =>
      rw [hloop] at hok
      cases hok
    | ok final =>
      rw [hloop] at hok
      exact ⟨final, rfl, Except.ok.inj hok⟩
  obtain ⟨start, hbegins⟩ := exists_begins reading hfinal
  have hinit : Draft.init.regpat = Utf8.encode "^\\c".toList := by decide
  have hend : bytes "$" = Utf8.encode "$".toList := by decide
  constructor
  · intro hcompiles
    refine plainly_of_reads reading.closed hbegins.loop ?_ fun before after heq => ?_
    · have hregpat := hcompiles.regpat
      rw [Draft.push, Utf8.encode_append, hend] at hregpat
      rw [List.append_cancel_right hregpat, Utf8.encode_append, ← hinit]
      rfl
    · exact (hbegins.stops after ⟨before, heq⟩).mp (hcompiles.reads before after heq)
  · intro hplainly
    have hlength : Draft.init.addr.length = FMT_PATTERNS := by decide
    have hzero : ∀ fi : Fin FMT_PATTERNS, Draft.init.addr[fi.val]? = some 0 := by decide
    have hreads : Reads reading.items start (reading.pfx.apply .init) final :=
      reads_items reading.closed hplainly hlength hbegins.loop
    refine ⟨?_, fun before after heq => ?_, fun k fi hfi => ?_, fun fi hfi => ?_, ?_⟩
    · rw [Draft.push, hreads.regpat, hend, Utf8.encode_append, Utf8.encode_append, ← hinit]
      rfl
    · exact (hbegins.stops after ⟨before, heq⟩).mpr (hreads.stops before after heq)
    · refine (hreads.grouped.groups k fi hfi).trans ?_
      rw [show (reading.pfx.apply .init).round = 0 from rfl, Nat.zero_add]
    · exact (hreads.grouped.absent fi hfi).trans (hzero fi)
    · exact hreads.letters

end Parts

/-- `%l %m`, a line number and a message. -/
def lineReading : Reading "%l %m".toList where
  pfx := .absent
  items := [.field ⟨3, by decide⟩, .plain ' ' (by decide) (by decide), .field ⟨8, by decide⟩]
  closed := by
    intro before after heq
    have hmem : Item.backslash ∈ before ++ .backslash :: after := List.mem_append_right _ List.mem_cons_self
    rw [← heq] at hmem
    simp at hmem
  text := rfl

theorem compiles_iff_line :
    Compiles lineReading
        ⟨[0, 0, 0, 1, 0, 0, 0, 0, 2, 0, 0, 0, 0, 0], 0, 0, false, 2,
          bytes "^\\c\\(\\d\\+\\) \\(.\\+\\)$"⟩ ↔
      Plainly lineReading.items :=
  compiles_iff (by decide +kernel) lineReading

/-- `%*[0-9]:%m`, digits, a colon and a message. -/
def digitsReading : Reading "%*[0-9]:%m".toList where
  pfx := .absent
  items :=
    [.scanfSet false '0' ['-', '9'] (by decide) (by decide), .plain ':' (by decide) (by decide),
      .field ⟨8, by decide⟩]
  closed := by
    intro before after heq
    have hmem : Item.backslash ∈ before ++ .backslash :: after := List.mem_append_right _ List.mem_cons_self
    rw [← heq] at hmem
    simp at hmem
  text := rfl

/-- The colon behind the class is lost. -/
theorem not_compiles_digits :
    ¬∀ (part : List Char) (draft : Draft), compileDraft part = .ok draft →
      ∀ reading : Reading part, Compiles reading draft := by
  intro hall
  have hcompiles := hall "%*[0-9]:%m".toList
    ⟨[0, 0, 0, 0, 0, 0, 0, 0, 1, 0, 0, 0, 0, 0], 0, 0, false, 1,
      bytes "^\\c[0-9]\\+\\(.\\+\\)$"⟩ (by decide +kernel) digitsReading
  -- the message is not read behind the colon, but behind the class
  have hset : (Item.scanfSet false '0' ['-', '9'] (by decide) (by decide)).IsSet := trivial
  exact not_stops_of_set hset (List.cons_ne_nil _ _) true .init (hcompiles.reads [_] _ rfl)

end Oxvim.Editor.ErrorFormat
