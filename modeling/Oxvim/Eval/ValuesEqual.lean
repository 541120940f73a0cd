import Oxvim.Eval.EqualityLaws
import Oxvim.Lib.Utf8Lossy

/-!
# The equality of `index()`

`index()`, `count()` and `uniq()` compare with a walk of their own, `valuesEqual`. It goes through
lists and dictionaries as `equalValues` does. Where case is ignored it lower-cases the whole lossy
decoding of a string, in which a capital sigma at the end of a word has a form of its own and all
invalid bytes look alike; `equalValues` lower-cases one character after another and keeps invalid
bytes.
-/

namespace Oxvim.Eval

open Lib Lib.Walk Relation Filter

/-! ## Lower case of a whole text -/

/-- What Unicode says about the case of characters. -/
structure CaseTables where
  toLowercase : Char → List Char
  cased : Char → Bool
  caseIgnorable : Char → Bool

namespace CaseTables

variable (tables : CaseTables)

def caseIgnorableThenCased (text : List Char) : Bool :=
  (text.dropWhile tables.caseIgnorable).head?.any tables.cased

/-- The lower case of a capital sigma between the reversed text before it and the text after it. -/
def mapUppercaseSigma (before after : List Char) : Char :=
  let isWordFinal :=
    tables.caseIgnorableThenCased before && !tables.caseIgnorableThenCased after
  if isWordFinal then 'ς' else 'σ'

def lowercaseFrom (before : List Char) : List Char → List Char
  | [] => []
  | c :: text =>
    (if c = 'Σ' then [tables.mapUppercaseSigma before text] else tables.toLowercase c) ++
      lowercaseFrom (c :: before) text

/-- `str::to_lowercase`. -/
def strToLowercase (text : List Char) : List Char :=
  tables.lowercaseFrom [] text

/-- Lower case of a byte string, as `index()` compares it. -/
def lossyFold (bytes : List UInt8) : List Char :=
  tables.strToLowercase (Utf8.fromUtf8Lossy bytes)

end CaseTables

/-! ## The comparison -/

def maxContainerDepth : Nat := 100

section Comparison

variable {ι κ : Type} [DecidableEq ι] [DecidableEq κ] (tables : CaseTables) (heap : Heap ι κ)

/-- The leaves of `values_equal`. -/
def valuesEqualLeaf (ignoreCase : Bool) (fuel : Nat) : Typval ι κ × Typval ι κ → Option Bool
  | (.string left, .string right) =>
    some (if ignoreCase then tables.lossyFold left == tables.lossyFold right else left == right)
  | (left, right) => typvalEq heap fuel left right

/-- The comparison of `index()`. -/
def valuesEqual (fuel : Nat) (left right : Typval ι κ) (ignoreCase : Bool) (depth : Nat) :
    Option (Except EvalError Bool) :=
  (walk (containers heap) (valuesEqualLeaf tables heap ignoreCase fuel)
    (fun depth => if depth ≥ maxContainerDepth then
      some ⟨"E724", 0, "too much recursion comparing values"⟩ else none)
    fuel depth ∅ (left, right)).map fun outcome => outcome.map (·.1)

def normalizeIndex (length : Nat) (index : Int64) : Option Nat :=
  if 0 ≤ index.toInt then
    if index.toInt.toNat < length then some index.toInt.toNat else none
  else if index.toInt.natAbs ≤ length then some (length - index.toInt.natAbs)
  else none

def saturatingI64 (value : Nat) : Int64 :=
  Int64.ofNat (min value (2 ^ 63 - 1))

/-- The first of these values that is equal to `expr`. -/
def indexFrom (fuel : Nat) (expr : Typval ι κ) (ignoreCase : Bool) :
    List (Typval ι κ × Nat) → Option (Except EvalError Int64)
  | [] => some (.ok (-1))
  | (value, index) :: values =>
    match valuesEqual tables heap fuel value expr ignoreCase 0 with
    | some (.ok true) => some (.ok (saturatingI64 index))
    | some (.ok false) => indexFrom fuel expr ignoreCase values
    | some (.error e) => some (.error e)
    | none => none

/-- `index()`, with the optional arguments already read. -/
def index (fuel : Nat) (list : ι) (expr : Typval ι κ) (start : Option Int64) (ignoreCase : Bool) :
    Option (Except EvalError Int64) :=
  let values := heap.items list
  let startNumber := start.getD 0
  let start := (normalizeIndex values.length startNumber).getD values.length
  indexFrom tables heap fuel expr ignoreCase (values.zipIdx.drop start)

end Comparison

/-! ## Values nested in values -/

variable {ι κ : Type} {heap : Heap ι κ}

/-- What a list or a dictionary holds. -/
inductive Held (heap : Heap ι κ) : Typval ι κ → Typval ι κ → Prop
  | item {a : ι} {x : Typval ι κ} : x ∈ heap.items a → Held heap (.list a) x
  | entry {a : κ} {entry : DictEntry ι κ} : entry ∈ heap.entries a →
    Held heap (.dict a) entry.value

/-- A value nested less than `n` deep. What functions bind is not counted, but it does not lead back
to them. -/
structure Nested (heap : Heap ι κ) (n : Nat) (v : Typval ι κ) : Prop where
  shallow : Shallow (Held heap) n v
  founded : Founded heap v

/-- A value is nested less than `n` deep when every path into it, those through functions included,
has fewer than `n` steps. -/
theorem nested_of_paths {n : Nat} {v : Typval ι κ} (h : Shallow (Step heap) n v) :
    Nested heap n v := by
  constructor
  · have hstep : ∀ x y, Held heap x y → Step heap x y := by
      intro x y hheld
      cases hheld with
      | item hx => exact .item hx
      | entry hx => exact .entry hx
    exact Shallow.of_step (f := id) hstep h
  · have hacc : Acc (TransGen fun y x => Step heap x y) v := h.acc.transGen
    refine Subrelation.accessible ?_ hacc
    intro x v hinside
    obtain ⟨w, f, hpath, hfunctions, hbound⟩ := hinside
    have hpath' : ReflTransGen (fun y x => Step heap x y) w v :=
      (reflTransGen_swap).mpr hpath
    exact TransGen.head' (.bound hfunctions hbound) hpath'

/-- A step into a pair of containers is one into the left container. -/
theorem held_of_part {pair pair' : Typval ι κ × Typval ι κ}
    (h : Part (containers heap) pair pair') : Held heap pair.1 pair'.1 := by
  obtain ⟨left, right⟩ := pair
  have hstep : Access heap ⟨false, left, right⟩ ⟨false, pair'⟩ :=
    (access_iff_part h.1).mpr ⟨rfl, h⟩
  obtain ⟨x, y⟩ := pair'
  cases hstep with
  | item _ i hx _ => exact .item (List.mem_of_getElem? hx)
  | entry _ hx _ => exact .entry hx
  | bound _ hfunctions _ => exact absurd hfunctions (not_functions_of_key h.1 _ _)

theorem Nested.pair {n : Nat} {v : Typval ι κ} (h : Nested heap n v) (w : Typval ι κ) :
    Shallow (Part (containers heap)) n (v, w) := by
  have hstep : ∀ p q : Typval ι κ × Typval ι κ, Part (containers heap) p q →
      Held heap p.1 q.1 := fun p q => held_of_part
  exact Shallow.of_step hstep h.shallow

/-- The items of a list are nested less deep than the list. -/
theorem Nested.list {n : Nat} {a : ι} {v : Typval ι κ} (hitems : heap.items a = [v])
    (h : Nested heap n v) : Nested heap (n + 1) (.list a) := by
  constructor
  · intro x hx
    cases hx with
    | item hmem =>
      rw [hitems, List.mem_singleton] at hmem
      rw [hmem]
      exact h.shallow
  · refine Acc.intro _ ?_
    intro x hinside
    obtain ⟨w, f, hpath, hfunctions, hbound⟩ := hinside
    rcases ReflTransGen.cases_head hpath with rfl | ⟨y, hstep, hrest⟩
    · cases hfunctions
    · cases hstep with
      | item hmem =>
        rw [hitems, List.mem_singleton] at hmem
        rw [hmem] at hrest
        exact h.founded.inv ⟨w, f, hrest, hfunctions, hbound⟩
      | bound hlist _ => cases hlist

/-! ## What a comparison decides -/

variable {tables : CaseTables} {toLowercase : Char → List Char}

/-- Two strings in the same place of two values. -/
def Strings (heap : Heap ι κ) (v w : Typval ι κ) (x y : List UInt8) : Prop :=
  Reach (containers heap) (v, w) (.string x, .string y)

/-- Somewhere the values differ other than in two strings: two containers in their length or keys,
or two other values. -/
def DiffersElsewhere (toLowercase : Char → List Char) (heap : Heap ι κ) (v w : Typval ι κ) : Prop :=
  ∃ pair, Reach (containers heap) (v, w) pair ∧ (∀ x y, pair ≠ (.string x, .string y)) ∧
    ¬if (pairKey pair).isSome then Agree toLowercase heap ⟨false, pair⟩
      else Equal toLowercase heap ⟨false, pair⟩

/-- Values that are equal up to strings, and have the same strings in the sense of `same`. -/
def EqualUnder (toLowercase : Char → List Char) (same : List UInt8 → List UInt8 → Bool)
    (heap : Heap ι κ) (v w : Typval ι κ) : Prop :=
  ¬DiffersElsewhere toLowercase heap v w ∧ ∀ x y, Strings heap v w x y → same x y

/-- A walk whose leaves are decided decides equality up to strings, and that of the strings. -/
theorem good_iff_equalUnder {same : List UInt8 → List UInt8 → Bool}
    {leaf : Typval ι κ × Typval ι κ → Option Bool} {v w : Typval ι κ}
    (hstrings : ∀ x y, leaf (.string x, .string y) = some (same x y))
    (hleaf : ∀ pair, Reach (containers heap) (v, w) pair → pairKey pair = none →
      (∀ x y, pair ≠ (.string x, .string y)) →
        (leaf pair = some true ↔ Equal toLowercase heap ⟨false, pair⟩)) :
    Good (containers heap) leaf (v, w) ↔ EqualUnder toLowercase same heap v w := by
  have hfine : ∀ pair, Reach (containers heap) (v, w) pair →
      (∀ x y, pair ≠ (.string x, .string y)) →
      (Fine (containers heap) leaf pair ↔ if (pairKey pair).isSome
        then Agree toLowercase heap ⟨false, pair⟩ else Equal toLowercase heap ⟨false, pair⟩) := by
    intro pair hreach hother
    by_cases hkey : (pairKey pair).isSome
    · rw [if_pos hkey]
      exact fine_iff_agree hkey
    · have hnone : pairKey pair = none := by simpa using hkey
      have hkey' : ¬((containers heap).key pair).isSome := hkey
      rw [if_neg hkey, Fine, if_neg hkey']
      exact hleaf pair hreach hnone hother
  have hstring : ∀ x y, Fine (containers heap) leaf (.string x, .string y) ↔ same x y := by
    intro x y
    have hkey : ¬((containers heap).key (.string x, .string y)).isSome := Bool.false_ne_true
    rw [Fine, if_neg hkey, hstrings, Option.some.injEq]
  constructor
  · intro h
    refine ⟨?_, fun x y hxy => (hstring x y).mp (h _ hxy)⟩
    intro hdiffers
    obtain ⟨pair, hreach, hother, hnot⟩ := hdiffers
    exact hnot ((hfine pair hreach hother).mp (h pair hreach))
  · intro h pair hreach
    by_cases hpair : ∃ x y, pair = (.string x, .string y)
    · obtain ⟨x, y, rfl⟩ := hpair
      exact (hstring x y).mpr (h.2 x y hreach)
    · have hother : ∀ x y, pair ≠ (.string x, .string y) := fun x y heq => hpair ⟨x, y, heq⟩
      refine (hfine pair hreach hother).mpr ?_
      by_contra hnot
      exact h.1 ⟨pair, hreach, hother, hnot⟩

/-- What two lists of one item each are compared by. -/
theorem equalUnder_list {same : List UInt8 → List UInt8 → Bool} {l m : ι} {a b : Typval ι κ}
    (hl : heap.items l = [a]) (hm : heap.items m = [b]) :
    EqualUnder toLowercase same heap (.list l) (.list m)
      ↔ EqualUnder toLowercase same heap a b := by
  have hparts : ∀ pair, Part (containers heap) (.list l, .list m) pair ↔ pair = (a, b) := by
    intro pair
    simp [Walk.Part, containers, pairKey, hl, hm]
  have hreach : ∀ pair, Reach (containers heap) (.list l, .list m) pair ↔
      pair = (.list l, .list m) ∨ Reach (containers heap) (a, b) pair := by
    intro pair
    constructor
    · intro h
      rcases ReflTransGen.cases_head h with rfl | ⟨next, hnext, hrest⟩
      · exact .inl rfl
      · rw [(hparts next).mp hnext] at hrest
        exact .inr hrest
    · intro h
      rcases h with rfl | h
      · exact .refl
      · exact .head ((hparts _).mpr rfl) h
  have hagree : Agree toLowercase heap ⟨false, .list l, .list m⟩ := by
    simp [Agree, hl, hm]
  unfold EqualUnder DiffersElsewhere Strings
  refine and_congr (not_congr ?_) (forall₂_congr fun x y => ?_)
  · constructor
    · intro h
      obtain ⟨pair, hpair, hother, hnot⟩ := h
      rcases (hreach pair).mp hpair with rfl | hpair
      · exact absurd hagree hnot
      · exact ⟨pair, hpair, hother, hnot⟩
    · intro h
      obtain ⟨pair, hpair, hrest⟩ := h
      exact ⟨pair, (hreach pair).mpr (.inr hpair), hrest⟩
  · rw [hreach]
    simp

section Answers

variable [DecidableEq ι] [DecidableEq κ] [Fintype ι] [Fintype κ]

open Classical in
/-- **A walk within its limit decides equality up to strings, and that of the strings.** -/
theorem walk_answers {ε : Type} {tooDeep : Nat → Option ε} {depth n : Nat}
    {same : List UInt8 → List UInt8 → Bool} {leaf : Nat → Typval ι κ × Typval ι κ → Option Bool}
    {v : Typval ι κ} (h : Nested heap n v) (hlimit : ∀ k < n, tooDeep (depth + k) = none)
    (hstrings : ∀ fuel x y, leaf fuel (.string x, .string y) = some (same x y))
    (hother : ∀ fuel pair, (∀ x y, pair ≠ (.string x, .string y)) →
      leaf fuel pair = typvalEq heap fuel pair.1 pair.2) (w : Typval ι κ) :
    ∀ᶠ fuel in atTop, (walk (containers heap) (leaf fuel) tooDeep fuel depth ∅ (v, w)).map
        (fun outcome => outcome.map (·.1))
      = some (.ok (decide (EqualUnder toLowercase same heap v w))) := by
  have hguarded : Guarded heap ⟨false, v, w⟩ := guarded_of_founded h.founded
  have hleaves : ∀ pair, Reach (containers heap) (v, w) pair → ∀ᶠ fuel in atTop,
      pairKey pair = none → ∃ equal, leaf fuel pair = some equal ∧
        ((∀ x y, pair ≠ (.string x, .string y)) →
          (equal = true ↔ Equal toLowercase heap ⟨false, pair⟩)) := by
    intro pair hreach
    by_cases hpair : ∃ x y, pair = (.string x, .string y)
    · obtain ⟨x, y, rfl⟩ := hpair
      refine Eventually.of_forall fun fuel _ => ⟨same x y, hstrings fuel x y, ?_⟩
      exact fun hnot => absurd rfl (hnot x y)
    · have hnot : ∀ x y, pair ≠ (.string x, .string y) := fun x y heq => hpair ⟨x, y, heq⟩
      by_cases hkey : pairKey pair = none
      · have hdecides : Decides (fun fuel => typvalEq heap fuel pair.1 pair.2)
            (Equal toLowercase heap ⟨false, pair⟩) :=
          typvalEq_decides (hguarded.leaf hreach hkey)
        filter_upwards [hdecides] with fuel hfuel hnone
        obtain ⟨equal, hequal, hiff⟩ := hfuel
        exact ⟨equal, (hother fuel pair hnot).trans hequal, fun _ => hiff⟩
      · exact Eventually.of_forall fun fuel hnone => absurd hnone hkey
  have hall := (eventually_all_finite (finite_reach (g := containers heap) (v, w))).mpr hleaves
  filter_upwards [hall, eventually_gt_atTop (Fintype.card (Pair ι κ))] with fuel hleaf hcard
  have hanswer : ∀ pair, Reach (containers heap) (v, w) pair → pairKey pair = none →
      (∀ x y, pair ≠ (.string x, .string y)) →
        (leaf fuel pair = some true ↔ Equal toLowercase heap ⟨false, pair⟩) := by
    intro pair hreach hkey hnot
    obtain ⟨equal, hequal, hiff⟩ := hleaf pair hreach hkey
    rw [hequal, Option.some.injEq]
    exact hiff hnot
  have hsome : ∀ pair, Reach (containers heap) (v, w) pair →
      (containers heap).key pair = none → (leaf fuel pair).isSome := by
    intro pair hreach hkey
    obtain ⟨equal, hequal, -⟩ := hleaf pair hreach hkey
    rw [hequal]
    rfl
  rcases walk_decides tooDeep depth hsome hcard with ⟨error, hwalk⟩ | ⟨equal, seen, hwalk, hiff⟩
  · exact absurd hwalk (walk_ne_error (h.pair w) hlimit error)
  · have hgood := good_iff_equalUnder (hstrings fuel) hanswer
    have hdecide : decide (EqualUnder toLowercase same heap v w) = equal := by
      rw [Bool.eq_iff_iff, decide_eq_true_iff, hiff, hgood]
    rw [hwalk, hdecide]
    rfl

/-- How `values_equal` compares strings. -/
def lossySame (tables : CaseTables) (ignoreCase : Bool) (x y : List UInt8) : Bool :=
  if ignoreCase then tables.lossyFold x == tables.lossyFold y else x == y

/-- How `equal_values` compares strings. -/
def foldSame (toLowercase : Char → List Char) (ignoreCase : Bool) (x y : List UInt8) : Bool :=
  compareBytes toLowercase x y ignoreCase == 0

open Classical in
/-- **What `values_equal` answers.** -/
theorem valuesEqual_answers {v : Typval ι κ} (h : Nested heap maxContainerDepth v) (ic : Bool)
    (w : Typval ι κ) : ∀ᶠ fuel in atTop, valuesEqual tables heap fuel v w ic 0
      = some (.ok (decide (EqualUnder toLowercase (lossySame tables ic) heap v w))) := by
  have hlimit : ∀ k < maxContainerDepth, (if 0 + k ≥ maxContainerDepth then
      some (⟨"E724", 0, "too much recursion comparing values"⟩ : EvalError) else none) = none := by
    intro k hk
    exact if_neg (by omega)
  refine walk_answers h hlimit (fun _ _ _ => rfl) ?_ w
  intro fuel pair hnot
  unfold valuesEqualLeaf
  split
  · exact absurd rfl (hnot _ _)
  · rfl

open Classical in
/-- **What `equal_values` answers.** -/
theorem equalValues_answers {n depth maximum : Nat} {v : Typval ι κ} (h : Nested heap n v)
    (hdepth : depth + n ≤ maximum) (ic : Bool) (w : Typval ι κ) :
    ∀ᶠ fuel in atTop, equalValues heap toLowercase fuel v w ic depth maximum
      = some (.ok (decide (EqualUnder toLowercase (foldSame toLowercase ic) heap v w))) := by
  have hlimit : ∀ k < n, (if depth + k ≥ maximum then
      some (⟨"E1169", 0, "value comparison nesting is too deep"⟩ : EvalError) else none)
        = none := by
    intro k hk
    exact if_neg (by omega)
  exact walk_answers h hlimit (fun _ _ _ => rfl)
    (fun fuel pair hnot => valueEq_of_not_strings hnot) w

/-! ## When the two comparisons agree -/

/-- `values_equal` and `equal_values` answer the same. -/
def SameAnswer (tables : CaseTables) (heap : Heap ι κ) (ic : Bool) (a b : Typval ι κ) : Prop :=
  ∀ depth maximum, depth + maxContainerDepth ≤ maximum → ∃ answer,
    (∀ᶠ fuel in atTop, valuesEqual tables heap fuel a b ic 0 = some (.ok answer)) ∧
      ∀ᶠ fuel in atTop, equalValues heap tables.toLowercase fuel a b ic depth maximum
        = some (.ok answer)

/-- `index()` finds `b` in `[a]` exactly where `[a]` and `[b]` are equal. -/
def IndexAgrees (tables : CaseTables) (heap : Heap ι κ) (ic : Bool) (a b : Typval ι κ) : Prop :=
  ∀ l m, heap.items l = [a] → heap.items m = [b] →
    ∀ depth maximum, depth + maxContainerDepth < maximum → ∃ answer,
      (∀ᶠ fuel in atTop, index tables heap fuel l b (some 0) ic
        = some (.ok (if answer then 0 else -1))) ∧
      ∀ᶠ fuel in atTop, equalValues heap tables.toLowercase fuel (.list l) (.list m) ic depth
        maximum = some (.ok answer)

/-- Where case is ignored, the values differ elsewhere, or it does not matter which of the two ways
of folding their strings are compared under. -/
def FoldsCoincide (tables : CaseTables) (heap : Heap ι κ) (ic : Bool) (a b : Typval ι κ) : Prop :=
  ic = true → DiffersElsewhere tables.toLowercase heap a b ∨
    ((∀ x y, Strings heap a b x y → tables.lossyFold x = tables.lossyFold y) ↔
      ∀ x y, Strings heap a b x y →
        foldBytes tables.toLowercase x = foldBytes tables.toLowercase y)

omit [DecidableEq ι] [DecidableEq κ] [Fintype ι] [Fintype κ] in
/-- The two ways of comparing strings amount to the same. -/
theorem foldsCoincide_iff {ic : Bool} {a b : Typval ι κ} : FoldsCoincide tables heap ic a b ↔
    (EqualUnder tables.toLowercase (lossySame tables ic) heap a b ↔
      EqualUnder tables.toLowercase (foldSame tables.toLowercase ic) heap a b) := by
  have hfold : ∀ x y, foldSame tables.toLowercase ic x y = true ↔
      if ic then foldBytes tables.toLowercase x = foldBytes tables.toLowercase y else x = y := by
    intro x y
    rw [foldSame, beq_iff_eq, compareBytes_eq_zero]
  have hlossy : ∀ x y, lossySame tables ic x y = true ↔
      if ic then tables.lossyFold x = tables.lossyFold y else x = y := by
    intro x y
    cases ic <;> simp [lossySame]
  unfold FoldsCoincide EqualUnder
  simp only [hfold, hlossy]
  cases ic with
  | false => simp
  | true =>
    simp only [if_true, forall_const]
    by_cases hdiffers : DiffersElsewhere tables.toLowercase heap a b <;> simp [hdiffers]

omit [Fintype ι] [Fintype κ] in
/-- `index()` in a list of one item is one comparison. -/
theorem index_single {l : ι} {a b : Typval ι κ} (hl : heap.items l = [a]) {fuel : Nat}
    {ic answer : Bool} (h : valuesEqual tables heap fuel a b ic 0 = some (.ok answer)) :
    index tables heap fuel l b (some 0) ic = some (.ok (if answer then 0 else -1)) := by
  have hstart : normalizeIndex 1 0 = some 0 := by decide
  unfold index
  rw [hl]
  simp only [Option.getD_some, List.length_singleton, hstart, List.zipIdx_singleton, List.drop_zero]
  rw [indexFrom, h]
  cases answer <;> rfl

/-- One answer is given exactly where the two ways of folding strings coincide. -/
theorem sameAnswer_iff {a : Typval ι κ} (h : Nested heap maxContainerDepth a) {b : Typval ι κ}
    {ic : Bool} : SameAnswer tables heap ic a b ↔ FoldsCoincide tables heap ic a b := by
  classical
  have hvalues := @valuesEqual_answers _ _ heap tables tables.toLowercase _ _ _ _ a h ic b
  rw [foldsCoincide_iff]
  constructor
  · intro hsame
    obtain ⟨answer, hleft, hright⟩ := hsame 0 maxContainerDepth (Nat.zero_add _).le
    have hequal := @equalValues_answers _ _ heap tables.toLowercase _ _ _ _ _ _ _ a h
      (Nat.zero_add _).le ic b
    obtain ⟨fuel, hfuel⟩ := (hleft.and (hright.and (hvalues.and hequal))).exists
    obtain ⟨hl, hr, hv, he⟩ := hfuel
    have hdecide := Except.ok.inj (Option.some.inj (hv.symm.trans hl))
    have hdecide' := Except.ok.inj (Option.some.inj (he.symm.trans hr))
    rw [← hdecide'] at hdecide
    exact decide_eq_decide.mp hdecide
  · intro hiff depth maximum hdepth
    refine ⟨_, hvalues, ?_⟩
    rw [decide_eq_decide.mpr hiff]
    exact equalValues_answers h hdepth ic b

theorem indexAgrees_of_foldsCoincide {a : Typval ι κ} (h : Nested heap maxContainerDepth a)
    {b : Typval ι κ} {ic : Bool} (hfolds : FoldsCoincide tables heap ic a b) :
    IndexAgrees tables heap ic a b := by
  classical
  have hvalues := @valuesEqual_answers _ _ heap tables tables.toLowercase _ _ _ _ a h ic b
  intro l m hl hm depth maximum hdepth
  refine ⟨_, hvalues.mono fun fuel hfuel => index_single hl hfuel, ?_⟩
  rw [decide_eq_decide.mpr ((foldsCoincide_iff.mp hfolds).trans (equalUnder_list hl hm).symm)]
  exact equalValues_answers (h.list hl) (by omega) ic (.list m)

end Answers

/-! ## Strings whose folds coincide -/

theorem utf8CharLen_eq (lead : UInt8) : utf8CharLen lead = Utf8.sequenceLength lead := by
  unfold utf8CharLen Utf8.sequenceLength Utf8.followers
  grind

theorem foldBytes_nil : foldBytes toLowercase [] = [] := by
  rw [foldBytes]

/-- Valid text is folded one character after another. -/
theorem foldBytes_encode (text : List Char) :
    foldBytes toLowercase (Utf8.encode text) = Utf8.encode (text.flatMap toLowercase) := by
  induction text with
  | nil => exact foldBytes_nil
  | cons c text ih =>
    obtain ⟨lead, tail, henc, hlength⟩ := Utf8.utf8EncodeChar_length c
    have hlen : min (utf8CharLen lead) (lead :: (tail ++ Utf8.encode text)).length
        = (lead :: tail).length := by
      rw [utf8CharLen_eq, hlength]
      simp
    have htake : (lead :: (tail ++ Utf8.encode text)).take (lead :: tail).length
        = lead :: tail := by
      rw [← List.cons_append, List.take_left]
    have hdrop : (lead :: (tail ++ Utf8.encode text)).drop (lead :: tail).length
        = Utf8.encode text := by
      rw [← List.cons_append, List.drop_left]
    have hdecode : Utf8.decode? (lead :: tail) = some [c] := by
      rw [Utf8.decode?_eq_some_iff, ← henc, Utf8.encode_cons, Utf8.encode_nil, List.append_nil]
    rw [Utf8.encode_cons, henc, List.cons_append, foldBytes]
    rw [hlen, htake, hdrop, hdecode]
    dsimp only
    rw [ih, List.flatMap_singleton, List.flatMap_cons, Utf8.encode_append]

/-- Without a capital sigma lower case does not depend on what is around a character. -/
theorem lowercaseFrom_eq {text : List Char} (h : 'Σ' ∉ text) (before : List Char) :
    tables.lowercaseFrom before text = text.flatMap tables.toLowercase := by
  induction text generalizing before with
  | nil => rfl
  | cons c text ih =>
    have hc : c ≠ 'Σ' := fun heq => h (heq ▸ List.mem_cons_self ..)
    have htext : 'Σ' ∉ text := fun hmem => h (List.mem_cons_of_mem _ hmem)
    rw [CaseTables.lowercaseFrom, if_neg hc, ih htext, List.flatMap_cons]

/-- **The folds coincide on valid text without a capital sigma.** -/
theorem foldsCoincide_of_valid {ic : Bool} {a b : Typval ι κ}
    (h : ∀ x y, Strings heap a b x y → ∃ text text', x = Utf8.encode text ∧
      y = Utf8.encode text' ∧ 'Σ' ∉ text ∧ 'Σ' ∉ text') : FoldsCoincide tables heap ic a b := by
  intro _
  refine .inr (forall₃_congr fun x y hxy => ?_)
  obtain ⟨text, text', rfl, rfl, hsigma, hsigma'⟩ := h x y hxy
  rw [CaseTables.lossyFold, CaseTables.lossyFold, Utf8.fromUtf8Lossy_encode,
    Utf8.fromUtf8Lossy_encode, CaseTables.strToLowercase, CaseTables.strToLowercase,
    lowercaseFrom_eq hsigma, lowercaseFrom_eq hsigma', foldBytes_encode, foldBytes_encode,
    Utf8.encode_injective.eq_iff]

/-! ## Bytes that are not text -/

/-- The case of ASCII letters. -/
def asciiTables : CaseTables where
  toLowercase c := [c.toLower]
  cased := Char.isAlpha
  caseIgnorable _ := false

/-- The lists `["\xff"]` and `["\xfe"]`. -/
def invalidBytes : Heap Bool Empty where
  items second := if second then [.string [0xfe]] else [.string [0xff]]
  entries := Empty.elim
  keys_nodup d := d.elim

theorem nested_string (heap : Heap ι κ) (x : List UInt8) :
    Nested heap maxContainerDepth (.string x) := by
  apply nested_of_paths
  intro y hstep
  cases hstep with
  | bound hfunctions _ => cases hfunctions

/-- A byte that no sequence contains is decoded as `U+FFFD`, and folded to itself. -/
theorem folds_of_lead {byte : UInt8} (hascii : 128 ≤ byte.toNat)
    (hlead : Utf8.followers byte = none) :
    Utf8.fromUtf8Lossy [byte] = ['\uFFFD'] ∧ foldBytes toLowercase [byte] = [byte] := by
  have hdecode := Utf8.decode?_eq_none_of_lead hascii hlead []
  have hlength : Utf8.sequenceLength byte = 1 := by
    rw [Utf8.sequenceLength, hlead]
    rfl
  constructor
  · rw [Utf8.fromUtf8Lossy, hlength, List.take_one, List.head?_cons, Option.toList_some, hdecode]
    dsimp only
    rw [List.drop_nil, Utf8.fromUtf8Lossy_nil]
  · rw [foldBytes]
    rw [utf8CharLen_eq, hlength, List.length_singleton, Nat.min_self, List.take_one,
      List.head?_cons, Option.toList_some, hdecode]
    dsimp only
    rw [foldBytes_nil]

end Oxvim.Eval
