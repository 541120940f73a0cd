import Mathlib

/-!
# Brackets and strings

A text of nested brackets and strings, as a tree, and what a scan from left to right does with it that
counts open brackets and notes an open string. Where no string has an escape before a quote of its
own, every such scan passes over a text (`Scanner.passes`), whatever it does at the separators that
stand outside of all brackets.
-/

namespace Lib.Quoted

universe u v

variable {α : Type u}

/-- Which letters begin and end a string, escape a letter in one, open a bracket and close one. -/
structure Marks (α : Type u) where
  quote : α → Bool
  /-- The strings in which the escape has its meaning, by their quote. -/
  escapes : α → Bool
  esc : α
  /-- The closing bracket of an opening one. -/
  closer : α → Option α
  closes : α → Bool
  quote_esc : quote esc = false
  closes_closer : ∀ o c, closer o = some c → closes c = true

namespace Marks

variable {M : Marks α} {q b : α} {content : List α}

/-- A letter that stands for itself outside of strings. -/
def Plain (M : Marks α) (b : α) : Prop :=
  M.quote b = false ∧ M.closer b = none ∧ M.closes b = false

/-- What can stand in a string between its quotes. -/
inductive Content (M : Marks α) (q : α) : List α → Prop where
  | nil : Content M q []
  | escaped (c : α) {content : List α} (hq : M.escapes q = true) (h : Content M q content) :
      Content M q (M.esc :: c :: content)
  | letter {b : α} {content : List α} (hb : b ≠ q) (hesc : M.escapes q = true → b ≠ M.esc)
      (h : Content M q content) : Content M q (b :: content)

/-- No escape stands before a quote of the string. -/
def Clear (M : Marks α) (q : α) (content : List α) : Prop :=
  ∀ front back, content ++ [q] ≠ front ++ M.esc :: q :: back

theorem clear_of_not_mem (h : M.esc ∉ content ++ [q]) : M.Clear q content := by
  intro front back heq
  exact h (by simp [heq])

theorem Clear.tail (h : M.Clear q (b :: content)) : M.Clear q content :=
  fun front back heq => h (b :: front) back (by rw [List.cons_append, heq, List.cons_append])

theorem Clear.getLast? (h : M.Clear q content) : content.getLast? ≠ some M.esc := by
  intro hlast
  obtain ⟨front, rfl⟩ := List.getLast?_eq_some_iff.mp hlast
  exact h front [] (by rw [List.append_assoc]; rfl)

/-- The string ends at the first of its quotes. -/
theorem Clear.not_mem (h : M.Clear q content) (hq : M.quote q = true)
    (hcontent : M.Content q content) : q ∉ content := by
  induction hcontent with
  | nil => simp
  | escaped c hescapes hcontent ih =>
    have hesc : q ≠ M.esc := by
      rintro rfl
      rw [M.quote_esc] at hq
      cases hq
    have hc : q ≠ c := by
      rintro rfl
      exact h [] _ rfl
    simp only [List.mem_cons, not_or]
    exact ⟨hesc, hc, ih h.tail.tail⟩
  | letter hb hesc hcontent ih =>
    rw [List.mem_cons, not_or]
    exact ⟨hb.symm, ih h.tail⟩

end Marks

/-! ## Nested texts -/

/-- A text whose brackets are closed in order and whose strings are ended. -/
inductive Nested (M : Marks α) where
  | nil
  | plain (b : α) (h : M.Plain b) (rest : Nested M)
  | string (q : α) (content : List α) (hq : M.quote q = true) (h : M.Content q content)
      (rest : Nested M)
  | group (o c : α) (h : M.closer o = some c) (inner rest : Nested M)

namespace Nested

variable {M : Marks α}

def source : Nested M → List α
  | nil => []
  | plain b _ rest => b :: rest.source
  | string q content _ _ rest => q :: content ++ q :: rest.source
  | group o c _ inner rest => o :: inner.source ++ c :: rest.source

/-- No string has an escape before a quote of its own. -/
def Clear : Nested M → Prop
  | nil => True
  | plain _ _ rest => rest.Clear
  | string q content _ _ rest => M.Clear q content ∧ rest.Clear
  | group _ _ _ inner rest => inner.Clear ∧ rest.Clear

/-- No separator stands outside of all brackets and strings. -/
def Free (sep : α → Bool) : Nested M → Prop
  | nil => True
  | plain b _ rest => sep b = false ∧ rest.Free sep
  | string _ _ _ _ rest => rest.Free sep
  | group _ _ _ _ rest => rest.Free sep

theorem free_of_forall {sep : α → Bool} (h : ∀ b, sep b = false) (t : Nested M) : t.Free sep := by
  induction t with
  | nil => trivial
  | plain b hb rest ih => exact ⟨h b, ih⟩
  | string q content hq hcontent rest ih => exact ih
  | group o c hoc inner rest ihinner ih => exact ih

theorem Free.imp {sep sep' : α → Bool} (h : ∀ b, sep b = false → sep' b = false) {t : Nested M}
    (hfree : t.Free sep) : t.Free sep' := by
  induction t with
  | nil => trivial
  | plain b hb rest ih => exact ⟨h b hfree.1, ih hfree.2⟩
  | string q content hq hcontent rest ih => exact ih hfree
  | group o c hoc inner rest ihinner ih => exact ih hfree

def append : Nested M → Nested M → Nested M
  | nil, t => t
  | plain b h rest, t => plain b h (rest.append t)
  | string q content hq h rest, t => string q content hq h (rest.append t)
  | group o c h inner rest, t => group o c h inner (rest.append t)

theorem source_append (s t : Nested M) : (s.append t).source = s.source ++ t.source := by
  fun_induction s.append t with
  | case1 t => rfl
  | case2 t b h rest ih => rw [source, source, ih, List.cons_append]
  | case3 t q content hq h rest ih => simp [source, ih]
  | case4 t o c h inner rest ih => simp [source, ih]

theorem clear_append {s t : Nested M} (hs : s.Clear) (ht : t.Clear) : (s.append t).Clear := by
  fun_induction s.append t with
  | case1 t => exact ht
  | case2 t b h rest ih => exact ih hs ht
  | case3 t q content hq h rest ih => exact ⟨hs.1, ih hs.2 ht⟩
  | case4 t o c h inner rest ih => exact ⟨hs.1, ih hs.2 ht⟩

theorem free_append {sep : α → Bool} {s t : Nested M} (hs : s.Free sep) (ht : t.Free sep) :
    (s.append t).Free sep := by
  fun_induction s.append t with
  | case1 t => exact ht
  | case2 t b h rest ih => exact ⟨hs.1, ih hs.2 ht⟩
  | case3 t q content hq h rest ih => exact ih hs ht
  | case4 t o c h inner rest ih => exact ih hs ht

/-- What is true of a text stays true where plain letters are taken off an end of it. -/
def Inherits (s t : Nested M) : Prop :=
  (s.Clear → t.Clear) ∧ ∀ sep, s.Free sep → t.Free sep

theorem exists_tail {t : Nested M} {b : α} {text : List α} (hb : M.Plain b)
    (h : t.source = b :: text) : ∃ t' : Nested M, t'.source = text ∧ t.Inherits t' := by
  cases t with
  | nil => cases h
  | plain c hc rest =>
    obtain ⟨rfl, rfl⟩ := List.cons.inj h
    exact ⟨rest, rfl, id, fun sep hfree => hfree.2⟩
  | string q content hq hcontent rest =>
    obtain ⟨rfl, -⟩ := List.cons.inj h
    rw [hb.1] at hq
    cases hq
  | group o c hoc inner rest =>
    obtain ⟨rfl, -⟩ := List.cons.inj h
    rw [hb.2.1] at hoc
    cases hoc

theorem source_eq_nil {t : Nested M} (h : t.source = []) : t = nil := by
  cases t with
  | nil => rfl
  | plain b hb rest => cases h
  | string q content hq hcontent rest => cases h
  | group o c hoc inner rest => cases h

/-- A plain letter at the end of a text that goes on behind another one ends what it goes on with. -/
theorem source_cut {front text : List α} {b c : α} {rest : Nested M} (hb : M.Plain b)
    (hc : ¬ M.Plain c) (h : front ++ c :: rest.source = text ++ [b]) :
    ∃ text', rest.source = text' ++ [b] ∧ text = front ++ c :: text' := by
  rcases List.eq_nil_or_concat rest.source with hnil | ⟨text', last, hlast⟩
  · rw [hnil] at h
    obtain ⟨-, hcb⟩ := List.append_inj' h rfl
    exact absurd (List.singleton_inj.mp hcb ▸ hb) hc
  · rw [hlast, List.concat_eq_append, ← List.cons_append, ← List.append_assoc] at h
    obtain ⟨htext, hlastb⟩ := List.append_inj' h rfl
    exact ⟨text', by rw [hlast, List.concat_eq_append, hlastb], htext.symm⟩

theorem exists_dropLast {t : Nested M} {b : α} {text : List α} (hb : M.Plain b)
    (h : t.source = text ++ [b]) : ∃ t' : Nested M, t'.source = text ∧ t.Inherits t' := by
  induction t generalizing text with
  | nil => cases text <;> cases h
  | plain c hc rest ih =>
    cases text with
    | nil => exact ⟨.nil, rfl, fun _ => trivial, fun _ _ => trivial⟩
    | cons d text =>
      obtain ⟨rfl, hrest⟩ := List.cons.inj h
      obtain ⟨t', rfl, hclear, hfree⟩ := ih hrest
      exact ⟨.plain c hc t', rfl, hclear, fun sep h => ⟨h.1, hfree sep h.2⟩⟩
  | string q content hq hcontent rest ih =>
    have hplain : ¬ M.Plain q := by
      intro hplain
      rw [hplain.1] at hq
      cases hq
    obtain ⟨text', hrest, rfl⟩ := source_cut hb hplain h
    obtain ⟨t', rfl, hclear, hfree⟩ := ih hrest
    exact ⟨.string q content hq hcontent t', rfl, fun h => ⟨h.1, hclear h.2⟩, hfree⟩
  | group o c hoc inner rest ihinner ih =>
    have hplain : ¬ M.Plain c := by
      intro hplain
      have hcloses := M.closes_closer o c hoc
      rw [hplain.2.2] at hcloses
      cases hcloses
    obtain ⟨text', hrest, rfl⟩ := source_cut hb hplain h
    obtain ⟨t', rfl, hclear, hfree⟩ := ih hrest
    exact ⟨.group o c hoc inner t', rfl, fun h => ⟨h.1, hclear h.2⟩, hfree⟩

/-- Plain letters can be taken off both ends. -/
theorem exists_core {t : Nested M} {front core back : List α} (hfront : ∀ b ∈ front, M.Plain b)
    (hback : ∀ b ∈ back, M.Plain b) (h : t.source = front ++ core ++ back) :
    ∃ t' : Nested M, t'.source = core ∧ t.Inherits t' := by
  induction front generalizing t with
  | nil =>
    rw [List.nil_append] at h
    induction back using List.reverseRecOn generalizing t with
    | nil => exact ⟨t, by rwa [List.append_nil] at h, id, fun _ => id⟩
    | append_singleton back b ih =>
      rw [← List.append_assoc] at h
      obtain ⟨t', ht', hclear, hfree⟩ := exists_dropLast (hback b (by simp)) h
      obtain ⟨t'', hcore, hclear', hfree'⟩ := ih (fun c hc => hback c (by simp [hc])) ht'
      exact ⟨t'', hcore, hclear' ∘ hclear, fun sep => hfree' sep ∘ hfree sep⟩
  | cons b front ih =>
    obtain ⟨t', ht', hclear, hfree⟩ := exists_tail (hfront b List.mem_cons_self) h
    obtain ⟨t'', hcore, hclear', hfree'⟩ := ih (fun c hc => hfront c (List.mem_cons_of_mem b hc)) ht'
    exact ⟨t'', hcore, hclear' ∘ hclear, fun sep => hfree' sep ∘ hfree sep⟩

end Nested

/-! ## Scanning -/

/-- A scan from left to right that notes an open string and counts brackets, as far as it does nothing
else: what it has read and has still to read are told together. -/
structure Scanner (M : Marks α) (γ : Type v) where
  run : (before rest : List α) → (quote : Option α) → (depth : Nat) → γ
  /-- Where it stops outside of brackets. -/
  sep : α → Bool
  /-- What an opening bracket counts. -/
  weight : α → Nat
  plain : ∀ before b rest depth, M.Plain b → (depth = 0 → sep b = false) →
    run before (b :: rest) none depth = run (before ++ [b]) rest none depth
  begins : ∀ before q rest depth, M.quote q = true →
    run before (q :: rest) none depth = run (before ++ [q]) rest (some q) depth
  within : ∀ before b rest q depth, M.quote q = true → b ≠ q →
    run before (b :: rest) (some q) depth = run (before ++ [b]) rest (some q) depth
  ends : ∀ before q rest depth, M.quote q = true → before.getLast? ≠ some M.esc →
    run before (q :: rest) (some q) depth = run (before ++ [q]) rest none depth
  opens : ∀ before o c rest depth, M.closer o = some c →
    run before (o :: rest) none depth = run (before ++ [o]) rest none (depth + weight o)
  closes : ∀ before o c rest depth, M.closer o = some c →
    run before (c :: rest) none (depth + weight o) = run (before ++ [c]) rest none depth
  deep : ∀ o b, weight o = 0 → sep b = false

namespace Scanner

variable {M : Marks α} {γ : Type v} (S : Scanner M γ)

theorem passes_content {q : α} (hq : M.quote q = true) {content : List α} (h : q ∉ content)
    (before rest : List α) (depth : Nat) :
    S.run before (content ++ rest) (some q) depth
      = S.run (before ++ content) rest (some q) depth := by
  induction content generalizing before with
  | nil => simp
  | cons b content ih =>
    rw [List.mem_cons, not_or] at h
    rw [List.cons_append, S.within before b _ q depth hq (Ne.symm h.1), ih h.2, List.append_assoc,
      List.singleton_append]

/-- The scan passes over a text, with nothing but what it has read changed. -/
theorem passes (t : Nested M) (hclear : t.Clear) (depth : Nat)
    (hfree : depth = 0 → t.Free S.sep) (before rest : List α) :
    S.run before (t.source ++ rest) none depth = S.run (before ++ t.source) rest none depth := by
  induction t generalizing before rest depth with
  | nil => simp [Nested.source]
  | plain b hb t ih =>
    rw [Nested.source, List.cons_append, S.plain before b _ depth hb fun h => (hfree h).1,
      ih hclear depth fun h => (hfree h).2, List.append_assoc, List.singleton_append]
  | string q content hq hcontent t ih =>
    have hnot := hclear.1.not_mem hq hcontent
    have hends : (before ++ [q] ++ content).getLast? ≠ some M.esc := by
      rw [List.getLast?_append]
      cases hlast : content.getLast? with
      | none =>
        rw [Option.none_or, List.getLast?_append]
        intro h
        obtain rfl : q = M.esc := Option.some.inj h
        rw [M.quote_esc] at hq
        cases hq
      | some last =>
        rw [Option.some_or, ← hlast]
        exact hclear.1.getLast?
    rw [Nested.source, List.append_assoc, List.cons_append, List.cons_append,
      S.begins before q _ depth hq, S.passes_content hq hnot, S.ends _ q _ depth hq hends,
      ih hclear.2 depth hfree]
    simp
  | group o c hoc inner t ihinner ih =>
    have hinner : depth + S.weight o = 0 → inner.Free S.sep := fun h =>
      inner.free_of_forall fun b => S.deep o b (Nat.eq_zero_of_add_eq_zero_left h)
    rw [Nested.source, List.append_assoc, List.cons_append, List.cons_append,
      S.opens before o c _ depth hoc, ihinner hclear.1 _ hinner, S.closes _ o c _ depth hoc,
      ih hclear.2 depth hfree]
    simp

end Scanner

end Lib.Quoted
