import Mathlib

/-!
# Glob patterns

A pattern is a sequence of atoms and groups; a group offers alternatives, which are patterns again.
The strings that a pattern reads are told twice: by the structure of the pattern, and by the
sequences of atoms among which its groups choose.

Some letters are marked; whether a choice holds one of them is told along with the strings.
-/

namespace Lib.Glob

/-! ## Atoms -/

/-- What stands for a letter or a string on its own. -/
inductive Atom where
  | star
  | any
  | escaped (c : Char)
  | plain (c : Char) (h : c ∉ ['\\', '\x7b', '\x7d', ',', '*', '?'])

namespace Atom

def source : Atom → List Char
  | star => ['*']
  | any => ['?']
  | escaped c => ['\\', c]
  | plain c _ => [c]

/-- The letter that an atom stands for. -/
def letter? : Atom → Option Char
  | star => none
  | any => none
  | escaped c => some c
  | plain c _ => some c

def Marked (mark : Char → Bool) (a : Atom) : Bool := a.letter?.any mark

/-- The strings that an atom stands for. -/
def Reads : Atom → List Char → Prop
  | star, _ => True
  | any, text => text.length = 1
  | escaped c, text => text = [c]
  | plain c _, text => text = [c]

theorem source_ne_nil (a : Atom) : a.source ≠ [] := by
  cases a <;> simp [source]

end Atom

/-- The strings that atoms stand for one after another. -/
def ReadsAll : List Atom → List Char → Prop
  | [], text => text = []
  | a :: as, text => ∃ front back, text = front ++ back ∧ a.Reads front ∧ ReadsAll as back

theorem readsAll_append (as bs : List Atom) (text : List Char) :
    ReadsAll (as ++ bs) text ↔
      ∃ front back, text = front ++ back ∧ ReadsAll as front ∧ ReadsAll bs back := by
  induction as generalizing text with
  | nil =>
    constructor
    · intro h
      exact ⟨[], text, rfl, rfl, h⟩
    · rintro ⟨front, back, rfl, rfl, h⟩
      exact h
  | cons a as ih =>
    constructor
    · rintro ⟨front, back, rfl, ha, hback⟩
      obtain ⟨middle, back, rfl, has, hbs⟩ := (ih back).mp hback
      exact ⟨front ++ middle, back, by rw [List.append_assoc], ⟨front, middle, rfl, ha, has⟩, hbs⟩
    · rintro ⟨front, back, rfl, ⟨first, middle, rfl, ha, has⟩, hbs⟩
      exact ⟨first, middle ++ back, by rw [List.append_assoc], ha,
        (ih (middle ++ back)).mpr ⟨middle, back, rfl, has, hbs⟩⟩

theorem readsAll_singleton (a : Atom) (text : List Char) : ReadsAll [a] text ↔ a.Reads text := by
  constructor
  · rintro ⟨front, back, rfl, ha, rfl⟩
    rwa [List.append_nil]
  · intro h
    exact ⟨text, [], (List.append_nil text).symm, h, rfl⟩

def sourceOf (as : List Atom) : List Char := as.flatMap Atom.source

@[simp] theorem sourceOf_nil : sourceOf [] = [] := rfl

@[simp] theorem sourceOf_cons (a : Atom) (as : List Atom) :
    sourceOf (a :: as) = a.source ++ sourceOf as := List.flatMap_cons

@[simp] theorem sourceOf_append (as bs : List Atom) :
    sourceOf (as ++ bs) = sourceOf as ++ sourceOf bs := List.flatMap_append

/-! ## Patterns -/

mutual

inductive Pattern where
  | nil
  | atom (a : Atom) (rest : Pattern)
  | group (alts : Alts) (rest : Pattern)

/-- The alternatives of a group. -/
inductive Alts where
  | last (p : Pattern)
  | more (p : Pattern) (alts : Alts)

end

mutual

def Pattern.source : Pattern → List Char
  | .nil => []
  | .atom a rest => a.source ++ rest.source
  | .group alts rest => '\x7b' :: alts.source ++ '\x7d' :: rest.source

def Alts.source : Alts → List Char
  | .last p => p.source
  | .more p alts => p.source ++ ',' :: alts.source

end

mutual

/-- The sequences of atoms among which the groups choose. -/
def Pattern.choices : Pattern → List (List Atom)
  | .nil => [[]]
  | .atom a rest => rest.choices.map (a :: ·)
  | .group alts rest => alts.choices.flatMap fun choice => rest.choices.map (choice ++ ·)

def Alts.choices : Alts → List (List Atom)
  | .last p => p.choices
  | .more p alts => p.choices ++ alts.choices

end

mutual

/-- The strings that a pattern reads by choices with or without a marked letter. -/
def Pattern.Reads (mark : Char → Bool) : Pattern → Bool → List Char → Prop
  | .nil, marked, text => marked = false ∧ text = []
  | .atom a rest, marked, text => ∃ m front back, marked = (a.Marked mark || m) ∧
      text = front ++ back ∧ a.Reads front ∧ rest.Reads mark m back
  | .group alts rest, marked, text => ∃ m m' front back, marked = (m || m') ∧
      text = front ++ back ∧ alts.Reads mark m front ∧ rest.Reads mark m' back

def Alts.Reads (mark : Char → Bool) : Alts → Bool → List Char → Prop
  | .last p, marked, text => p.Reads mark marked text
  | .more p alts, marked, text => p.Reads mark marked text ∨ alts.Reads mark marked text

end

/-- A choice that reads a string. -/
def Chooses (mark : Char → Bool) (choices : List (List Atom)) (marked : Bool) (text : List Char) :
    Prop :=
  ∃ choice ∈ choices, choice.any (Atom.Marked mark) = marked ∧ ReadsAll choice text

section Chooses

variable {mark : Char → Bool} {marked : Bool} {text : List Char}

theorem chooses_append (l r : List (List Atom)) :
    Chooses mark (l ++ r) marked text ↔
      Chooses mark l marked text ∨ Chooses mark r marked text := by
  simp only [Chooses, List.mem_append, or_and_right, exists_or]

theorem chooses_cons (a : Atom) (l : List (List Atom)) :
    Chooses mark (l.map (a :: ·)) marked text ↔ ∃ m front back, marked = (a.Marked mark || m) ∧
      text = front ++ back ∧ a.Reads front ∧ Chooses mark l m back := by
  constructor
  · rintro ⟨choice, hmem, rfl, hreads⟩
    obtain ⟨rest, hrest, rfl⟩ := List.mem_map.mp hmem
    obtain ⟨front, back, rfl, ha, hback⟩ := hreads
    exact ⟨_, front, back, List.any_cons, rfl, ha, rest, hrest, rfl, hback⟩
  · rintro ⟨m, front, back, rfl, rfl, ha, rest, hrest, rfl, hback⟩
    exact ⟨a :: rest, List.mem_map_of_mem hrest, List.any_cons, front, back, rfl, ha, hback⟩

theorem chooses_product (l r : List (List Atom)) :
    Chooses mark (l.flatMap fun choice => r.map (choice ++ ·)) marked text ↔
      ∃ m m' front back, marked = (m || m') ∧ text = front ++ back ∧ Chooses mark l m front ∧
        Chooses mark r m' back := by
  constructor
  · rintro ⟨choice, hmem, rfl, hreads⟩
    obtain ⟨first, hfirst, hmem⟩ := List.mem_flatMap.mp hmem
    obtain ⟨second, hsecond, rfl⟩ := List.mem_map.mp hmem
    obtain ⟨front, back, rfl, hfront, hback⟩ := (readsAll_append first second text).mp hreads
    exact ⟨_, _, front, back, List.any_append, rfl, ⟨first, hfirst, rfl, hfront⟩,
      second, hsecond, rfl, hback⟩
  · rintro ⟨m, m', front, back, rfl, rfl, ⟨first, hfirst, rfl, hfront⟩, second, hsecond, rfl, hback⟩
    exact ⟨first ++ second, List.mem_flatMap.mpr ⟨first, hfirst, List.mem_map_of_mem hsecond⟩,
      List.any_append, (readsAll_append first second _).mpr ⟨front, back, rfl, hfront, hback⟩⟩

end Chooses

mutual

/-- What a pattern reads is read by one of its choices. -/
theorem Pattern.reads_iff (mark : Char → Bool) : (p : Pattern) → (marked : Bool) →
    (text : List Char) → (p.Reads mark marked text ↔ Chooses mark p.choices marked text)
  | .nil, marked, text => by
    rw [Pattern.Reads, Pattern.choices]
    constructor
    · rintro ⟨rfl, rfl⟩
      exact ⟨[], List.mem_singleton_self _, rfl, rfl⟩
    · rintro ⟨choice, hmem, rfl, hreads⟩
      obtain rfl := List.mem_singleton.mp hmem
      exact ⟨rfl, hreads⟩
  | .atom a rest, marked, text => by
    rw [Pattern.Reads, Pattern.choices, chooses_cons]
    simp only [rest.reads_iff mark]
  | .group alts rest, marked, text => by
    rw [Pattern.Reads, Pattern.choices, chooses_product]
    simp only [alts.reads_iff mark, rest.reads_iff mark]

theorem Alts.reads_iff (mark : Char → Bool) : (alts : Alts) → (marked : Bool) →
    (text : List Char) → (alts.Reads mark marked text ↔ Chooses mark alts.choices marked text)
  | .last p, marked, text => by
    rw [Alts.Reads, Alts.choices, p.reads_iff mark]
  | .more p alts, marked, text => by
    rw [Alts.Reads, Alts.choices, chooses_append, p.reads_iff mark, alts.reads_iff mark]

end

/-! ## Putting patterns together -/

def Pattern.append : Pattern → Pattern → Pattern
  | .nil, q => q
  | .atom a rest, q => .atom a (rest.append q)
  | .group alts rest, q => .group alts (rest.append q)

/-- Atoms before a pattern. -/
def ofAtoms (as : List Atom) (p : Pattern) : Pattern := as.foldr Pattern.atom p

def Alts.toList : Alts → List Pattern
  | .last p => [p]
  | .more p alts => p :: alts.toList

section Append

theorem source_append (p q : Pattern) : (p.append q).source = p.source ++ q.source := by
  fun_induction p.append q with
  | case1 q => rfl
  | case2 q a rest ih => rw [Pattern.source, Pattern.source, ih, List.append_assoc]
  | case3 q alts rest ih =>
    rw [Pattern.source, Pattern.source, ih]
    simp only [List.cons_append, List.append_assoc]

theorem choices_append (p q : Pattern) : (p.append q).choices
    = p.choices.flatMap fun choice => q.choices.map (choice ++ ·) := by
  fun_induction p.append q with
  | case1 q => simp [Pattern.choices]
  | case2 q a rest ih =>
    rw [Pattern.choices, Pattern.choices, ih, List.map_flatMap, List.flatMap_map]
    simp only [List.map_map, Function.comp_def, List.cons_append]
  | case3 q alts rest ih =>
    rw [Pattern.choices, Pattern.choices, ih, List.flatMap_assoc]
    simp only [List.map_flatMap, List.flatMap_map, List.map_map, Function.comp_def,
      List.append_assoc]

theorem source_ofAtoms (as : List Atom) (p : Pattern) :
    (ofAtoms as p).source = sourceOf as ++ p.source := by
  induction as with
  | nil => rfl
  | cons a as ih =>
    show (Pattern.atom a (ofAtoms as p)).source = _
    rw [Pattern.source, ih, sourceOf_cons, List.append_assoc]

theorem choices_ofAtoms (as : List Atom) (p : Pattern) :
    (ofAtoms as p).choices = p.choices.map (as ++ ·) := by
  induction as with
  | nil => simp [ofAtoms]
  | cons a as ih =>
    show (Pattern.atom a (ofAtoms as p)).choices = _
    rw [Pattern.choices, ih, List.map_map]
    rfl

/-- A pattern is atoms, or atoms before its first group. -/
theorem exists_ofAtoms (p : Pattern) :
    ∃ as, p = ofAtoms as .nil ∨ ∃ alts rest, p = ofAtoms as (.group alts rest) := by
  match p with
  | .nil => exact ⟨[], .inl rfl⟩
  | .atom a rest =>
    obtain ⟨as, rfl | ⟨alts, rest, rfl⟩⟩ := exists_ofAtoms rest
    · exact ⟨a :: as, .inl rfl⟩
    · exact ⟨a :: as, .inr ⟨alts, rest, rfl⟩⟩
  | .group alts rest => exact ⟨[], .inr ⟨alts, rest, rfl⟩⟩

theorem Alts.source_eq (alts : Alts) :
    alts.source = [','].intercalate (alts.toList.map Pattern.source) := by
  match alts with
  | .last p => exact List.intercalate_singleton.symm
  | .more p alts =>
    have ih := alts.source_eq
    have hne : alts.toList.map Pattern.source ≠ [] := by cases alts <;> simp [Alts.toList]
    rw [Alts.source, ih, Alts.toList, List.map_cons]
    obtain ⟨next, others, heq⟩ := List.exists_cons_of_ne_nil hne
    rw [heq, List.intercalate_cons_cons, List.append_assoc, List.singleton_append]

theorem Alts.choices_eq (alts : Alts) : alts.choices = alts.toList.flatMap Pattern.choices := by
  match alts with
  | .last p => simp [Alts.choices, Alts.toList]
  | .more p alts => rw [Alts.choices, alts.choices_eq, Alts.toList, List.flatMap_cons]

theorem Alts.length_source_of_mem {alts : Alts} {p : Pattern} (h : p ∈ alts.toList) :
    p.source.length ≤ alts.source.length := by
  match alts with
  | .last q =>
    obtain rfl := List.mem_singleton.mp h
    exact Nat.le_refl _
  | .more q alts =>
    rw [Alts.source, List.length_append, List.length_cons]
    rcases List.mem_cons.mp h with rfl | h
    · omega
    · have ih := alts.length_source_of_mem h
      omega

/-- The choices before which a group comes are those of its alternatives one after another. -/
theorem choices_group (as : List Atom) (alts : Alts) (rest : Pattern) :
    (ofAtoms as (.group alts rest)).choices
      = alts.toList.flatMap fun p => (ofAtoms as (p.append rest)).choices := by
  rw [choices_ofAtoms, Pattern.choices, alts.choices_eq, List.flatMap_assoc, List.map_flatMap]
  simp only [choices_ofAtoms, choices_append]

end Append

end Lib.Glob
