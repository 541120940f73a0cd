import Oxvim.Eval.EqualityDecides

/-!
# Equality is an equivalence, and when the comparisons end

Graph equality is reflexive on values without NaN, symmetric and transitive. The comparisons compute
it for the values in which no path goes through functions for ever. A list that holds a function bound
to that same list is such a path: comparing it with itself never ends.
-/

namespace Oxvim.Eval

open Lib Lib.Walk Relation Filter

variable {ι κ : Type} {toLowercase : Char → List Char} {heap : Heap ι κ}

/-! ## One value -/

/-- One step down into a value. -/
inductive Step (heap : Heap ι κ) : Typval ι κ → Typval ι κ → Prop
  | item {a : ι} {x : Typval ι κ} : x ∈ heap.items a → Step heap (.list a) x
  | entry {a : κ} {entry : DictEntry ι κ} : entry ∈ heap.entries a → Step heap (.dict a) entry.value
  | bound {v x : Typval ι κ} {f : Funcref (Typval ι κ)} : Functions (v, v) f f →
    BoundPair f f (x, x) → Step heap v x

/-- No path leads to a NaN. -/
def NanFree (heap : Heap ι κ) (v : Typval ι κ) : Prop :=
  ∀ bits, ReflTransGen (Step heap) v (.float bits) → isNan bits = false

/-- What is bound by a function that a path leads to. -/
def Inside (heap : Heap ι κ) (x v : Typval ι κ) : Prop :=
  ∃ w f, ReflTransGen (Step heap) v w ∧ Functions (w, w) f f ∧ BoundPair f f (x, x)

/-- No path goes through functions for ever. -/
def Founded (heap : Heap ι κ) (v : Typval ι κ) : Prop :=
  Acc (Inside heap) v

theorem Functions.left {v w : Typval ι κ} {f g : Funcref (Typval ι κ)} (h : Functions (v, w) f g) :
    Functions (v, v) f f := by
  cases h with
  | funcref => exact .funcref f f
  | partialFunc => exact .partialFunc f f

theorem BoundPair.left {f g : Funcref (Typval ι κ)} {x y : Typval ι κ} (h : BoundPair f g (x, y)) :
    BoundPair f f (x, x) := by
  cases h with
  | arg i hx _ => exact .arg i hx hx
  | entry i hd _ hx _ => exact .entry i hd hd hx hx

/-- A step into two values is a step into the left one. -/
theorem Access.left {ic ic' : Bool} {v w x y : Typval ι κ}
    (h : Access heap ⟨ic, v, w⟩ ⟨ic', x, y⟩) : Step heap v x := by
  cases h with
  | item _ i hx _ => exact .item (List.mem_of_getElem? hx)
  | entry _ hx _ => exact .entry hx
  | bound _ hfunctions hparts => exact .bound hfunctions.left hparts.left

theorem path_left {node node' : Node ι κ} (h : ReflTransGen (Access heap) node node') :
    ReflTransGen (Step heap) node.values.1 node'.values.1 := by
  induction h with
  | refl => exact .refl
  | tail _ hstep ih => exact ih.tail hstep.left

/-- A path from a value is one from the value and itself. -/
theorem path_self {v w : Typval ι κ} (ic : Bool) (h : ReflTransGen (Step heap) v w) :
    ∃ ic', ReflTransGen (Access heap) ⟨ic, v, v⟩ ⟨ic', w, w⟩ := by
  induction h with
  | refl => exact ⟨ic, .refl⟩
  | tail _ hstep ih =>
    obtain ⟨ic', hpath⟩ := ih
    cases hstep with
    | item hx =>
      obtain ⟨i, hi⟩ := List.mem_iff_getElem?.mp hx
      exact ⟨ic', hpath.tail (.item ic' i hi hi)⟩
    | entry hx => exact ⟨ic', hpath.tail (.entry ic' hx hx)⟩
    | bound hfunctions hparts => exact ⟨false, hpath.tail (.bound ic' hfunctions hparts)⟩

/-- Two values are guarded where the left one is founded. -/
theorem guarded_of_founded {node : Node ι κ} (h : Founded heap node.values.1) :
    Guarded heap node := by
  have hacc : Acc (InvImage (Inside heap) fun node : Node ι κ => node.values.1) node :=
    InvImage.accessible _ h
  refine Subrelation.accessible ?_ hacc
  intro node' node hthrough
  obtain ⟨middle, f, g, hpath, hfunctions, hstep⟩ := hthrough
  have hbound : BoundPair f g node'.values := by
    obtain ⟨ic, values⟩ := middle
    have hkey : pairKey values = none := by cases hfunctions <;> rfl
    obtain ⟨f', g', hfunctions', hbound⟩ := ((access_of_leaf hkey).mp hstep).2
    cases hfunctions <;> cases hfunctions' <;> exact hbound
  exact ⟨middle.values.1, f, path_left hpath, hfunctions.left, hbound.left⟩

/-- A value is founded where it is guarded against itself. -/
theorem founded_of_guarded {ic : Bool} {v : Typval ι κ} (h : Guarded heap ⟨ic, v, v⟩) :
    Founded heap v := by
  generalize hnode : (⟨ic, v, v⟩ : Node ι κ) = node at h
  induction h generalizing ic v with
  | intro node _ ih =>
    subst hnode
    refine Acc.intro v ?_
    intro x hinside
    obtain ⟨w, f, hpath, hfunctions, hbound⟩ := hinside
    obtain ⟨ic', hpath'⟩ := path_self ic hpath
    exact ih ⟨false, x, x⟩
      ⟨⟨ic', w, w⟩, f, f, hpath', hfunctions, .bound ic' hfunctions hbound⟩ rfl

/-! ## An equivalence -/

theorem SameShape.refl (f : Funcref (Typval ι κ)) : SameShape f f :=
  ⟨rfl, rfl, rfl, rfl⟩

theorem SameShape.symm {f g : Funcref (Typval ι κ)} (h : SameShape f g) : SameShape g f :=
  ⟨h.name.symm, h.args.symm, h.dict.symm, h.registry.symm⟩

theorem SameShape.trans {f g k : Funcref (Typval ι κ)} (h : SameShape f g) (h' : SameShape g k) :
    SameShape f k :=
  ⟨h.name.trans h'.name, h.args.trans h'.args, h.dict.trans h'.dict, h.registry.trans h'.registry⟩

theorem floatEq_self {bits : UInt64} (h : isNan bits = false) : floatEq bits bits := by
  simp [floatEq, h]

theorem floatEq_symm {a b : UInt64} (h : floatEq a b) : floatEq b a := by
  simp only [floatEq, Bool.and_eq_true, Bool.or_eq_true, beq_iff_eq] at h ⊢
  grind

theorem floatEq_trans {a b c : UInt64} (h : floatEq a b) (h' : floatEq b c) : floatEq a c := by
  simp only [floatEq, Bool.and_eq_true, Bool.or_eq_true, beq_iff_eq] at h h' ⊢
  grind

theorem agree_self {ic : Bool} {v : Typval ι κ} (h : NanFree heap v) :
    Agree toLowercase heap ⟨ic, v, v⟩ := by
  cases v with
  | float bits => exact floatEq_self (h bits .refl)
  | funcref f => exact SameShape.refl f
  | partialFunc f => exact SameShape.refl f
  | string text => simp [Agree]
  | _ => simp [Agree]

theorem Agree.symm {ic : Bool} {v w : Typval ι κ} (h : Agree toLowercase heap ⟨ic, v, w⟩) :
    Agree toLowercase heap ⟨ic, w, v⟩ := by
  cases v <;> cases w <;> first | exact h.elim | skip
  case float.float a b => exact floatEq_symm h
  case funcref.funcref f g => exact SameShape.symm h
  case partialFunc.partialFunc f g => exact SameShape.symm h
  case dict.dict a b => exact fun key => (h key).symm
  case string.string a b =>
    cases ic with
    | false => exact Eq.symm h
    | true => exact Eq.symm h
  all_goals exact Eq.symm h

theorem Agree.trans {ic : Bool} {u v w : Typval ι κ} (h : Agree toLowercase heap ⟨ic, u, v⟩)
    (h' : Agree toLowercase heap ⟨ic, v, w⟩) : Agree toLowercase heap ⟨ic, u, w⟩ := by
  cases u <;> cases v <;> first | exact h.elim | skip
  all_goals cases w <;> first | exact h'.elim | skip
  case float.float.float a b c => exact floatEq_trans h h'
  case funcref.funcref.funcref f g k => exact SameShape.trans h h'
  case partialFunc.partialFunc.partialFunc f g k => exact SameShape.trans h h'
  case dict.dict.dict a b c => exact fun key => (h key).trans (h' key)
  case string.string.string a b c =>
    cases ic with
    | false => exact Eq.trans h h'
    | true => exact Eq.trans h h'
  all_goals exact Eq.trans h h'

/-- Equal entries at one key are one entry. -/
theorem entries_inj {a : κ} {key : List UInt8} {x y : Typval ι κ} (hx : ⟨key, x⟩ ∈ heap.entries a)
    (hy : ⟨key, y⟩ ∈ heap.entries a) : x = y := by
  have heq : (⟨key, x⟩ : DictEntry ι κ) = ⟨key, y⟩ :=
    List.inj_on_of_nodup_map (heap.keys_nodup a) hx hy rfl
  exact congrArg DictEntry.value heq

/-- A path from a value and itself stays on the diagonal. -/
theorem diagonal {ic : Bool} {v : Typval ι κ} {node : Node ι κ}
    (h : ReflTransGen (Access heap) ⟨ic, v, v⟩ node) : node.values.2 = node.values.1 := by
  generalize hstart : (⟨ic, v, v⟩ : Node ι κ) = start at h
  induction h with
  | refl => rw [← hstart]
  | @tail middle node _ hstep ih =>
    obtain ⟨ic', w, w'⟩ := middle
    obtain rfl : w' = w := ih
    cases hstep with
    | item _ i hx hy => exact Option.some.inj (hy.symm.trans hx)
    | entry _ hx hy => exact entries_inj hy hx
    | bound _ hfunctions hparts =>
      have hsame : ∀ f g, Functions (w', w') f g → f = g := by
        intro f g h
        cases h <;> rfl
      obtain rfl := hsame _ _ hfunctions
      cases hparts with
      | arg i hx hy => exact Option.some.inj (hy.symm.trans hx)
      | entry i hd he hx hy =>
        obtain rfl := Option.some.inj (hd.symm.trans he)
        exact congrArg Prod.snd (Option.some.inj (hy.symm.trans hx))

/-- **Equality is reflexive** where no path leads to a NaN. -/
theorem Equal.refl (ic : Bool) {v : Typval ι κ} (h : NanFree heap v) :
    Equal toLowercase heap ⟨ic, v, v⟩ := by
  intro node hpath
  have hdiagonal := diagonal hpath
  have hleft := path_left hpath
  obtain ⟨ic', w, w'⟩ := node
  obtain rfl : w' = w := hdiagonal
  exact agree_self fun bits hbits => h bits (hleft.trans hbits)

/-- The same two values, the other way round. -/
def Node.swap (node : Node ι κ) : Node ι κ :=
  ⟨node.ignoreCase, node.values.2, node.values.1⟩

theorem Access.swap {node node' : Node ι κ} (h : Access heap node node') :
    Access heap node.swap node'.swap := by
  cases h with
  | item ic i hx hy => exact .item ic i hy hx
  | entry ic hx hy => exact .entry ic hy hx
  | @bound ic values parts f g hfunctions hparts =>
    have hparts' : BoundPair g f (parts.2, parts.1) := by
      cases hparts with
      | arg i hx hy => exact .arg i hy hx
      | entry i hd he hx hy => exact .entry i he hd hy hx
    cases hfunctions with
    | funcref f g => exact .bound ic (.funcref g f) hparts'
    | partialFunc f g => exact .bound ic (.partialFunc g f) hparts'

/-- **Equality is symmetric.** -/
theorem Equal.symm {ic : Bool} {v w : Typval ι κ} (h : Equal toLowercase heap ⟨ic, v, w⟩) :
    Equal toLowercase heap ⟨ic, w, v⟩ := by
  intro node hpath
  have hpath' : ReflTransGen (Access heap) ⟨ic, v, w⟩ node.swap :=
    hpath.lift Node.swap fun _ _ hstep => hstep.swap
  exact (h _ hpath').symm

/-- What a dictionary has at a key of a dictionary that agrees with it. -/
theorem entry_of_agree {ic : Bool} {a b : κ} {key : List UInt8} {x : Typval ι κ}
    (h : Agree toLowercase heap ⟨ic, .dict a, .dict b⟩) (hx : ⟨key, x⟩ ∈ heap.entries a) :
    ∃ y, ⟨key, y⟩ ∈ heap.entries b := by
  obtain ⟨⟨key', y⟩, hy, rfl⟩ := List.mem_map.mp ((h key).mp (List.mem_map_of_mem hx))
  exact ⟨y, hy⟩

theorem getElem?_of_length {α β : Type} {a : List α} {b : List β} (h : a.length = b.length) {i : Nat}
    {x : α} (hx : a[i]? = some x) : ∃ y, b[i]? = some y := by
  obtain ⟨hi, -⟩ := List.getElem?_eq_some_iff.mp hx
  exact ⟨_, List.getElem?_eq_getElem (h ▸ hi)⟩

/-- Functions of the shape of two others bind something at the same place. -/
theorem BoundPair.between {f g k : Funcref (Typval ι κ)} (h : SameShape f g)
    {x z : Typval ι κ} (hparts : BoundPair f k (x, z)) :
    ∃ y, BoundPair f g (x, y) ∧ BoundPair g k (y, z) := by
  cases hparts with
  | arg i hx hz =>
    obtain ⟨y, hy⟩ := getElem?_of_length h.args hx
    exact ⟨y, .arg i hx hy, .arg i hy hz⟩
  | @entry i d e key key' _ _ hd he hx hz =>
    have hdict := h.dict
    rw [hd] at hdict
    obtain ⟨d', hd', hkeys⟩ := Option.map_eq_some_iff.mp hdict.symm
    have hlength : d.length = d'.length := by simpa using (congrArg List.length hkeys).symm
    obtain ⟨⟨key'', y⟩, hy⟩ := getElem?_of_length hlength hx
    exact ⟨y, .entry i hd hd' hx hy, .entry i hd' he hy hz⟩

/-- A step into two values goes through one that agrees with both. -/
theorem Access.between {ic ic' : Bool} {u v w x z : Typval ι κ}
    (h : Agree toLowercase heap ⟨ic, u, v⟩) (h' : Agree toLowercase heap ⟨ic, v, w⟩)
    (hstep : Access heap ⟨ic, u, w⟩ ⟨ic', x, z⟩) :
    ∃ y, Access heap ⟨ic, u, v⟩ ⟨ic', x, y⟩ ∧ Access heap ⟨ic, v, w⟩ ⟨ic', y, z⟩ := by
  cases hstep with
  | @item _ a c i _ _ hx hz =>
    cases v <;> first | exact h.elim | skip
    case list b =>
      obtain ⟨y, hy⟩ := getElem?_of_length h hx
      exact ⟨y, .item ic i hx hy, .item ic i hy hz⟩
  | @entry _ a c key _ _ hx hz =>
    cases v <;> first | exact h.elim | skip
    case dict b =>
      obtain ⟨y, hy⟩ := entry_of_agree h hx
      exact ⟨y, .entry ic hx hy, .entry ic hy hz⟩
  | bound _ hfunctions hparts =>
    cases hfunctions with
    | funcref f k =>
      cases v <;> first | exact h.elim | skip
      case funcref g =>
        obtain ⟨y, hy, hy'⟩ := hparts.between h
        exact ⟨y, .bound ic (.funcref _ g) hy, .bound ic (.funcref g _) hy'⟩
    | partialFunc f k =>
      cases v <;> first | exact h.elim | skip
      case partialFunc g =>
        obtain ⟨y, hy, hy'⟩ := hparts.between h
        exact ⟨y, .bound ic (.partialFunc _ g) hy, .bound ic (.partialFunc g _) hy'⟩

/-- **Equality is transitive.** -/
theorem Equal.trans {ic : Bool} {u v w : Typval ι κ} (h : Equal toLowercase heap ⟨ic, u, v⟩)
    (h' : Equal toLowercase heap ⟨ic, v, w⟩) : Equal toLowercase heap ⟨ic, u, w⟩ := by
  intro node hpath
  -- along the path some value stays between, equal to both
  have hbetween : ∃ y, Equal toLowercase heap ⟨node.ignoreCase, node.values.1, y⟩ ∧
      Equal toLowercase heap ⟨node.ignoreCase, y, node.values.2⟩ := by
    generalize hstart : (⟨ic, u, w⟩ : Node ι κ) = start at hpath
    induction hpath with
    | refl =>
      subst hstart
      exact ⟨v, h, h'⟩
    | @tail middle node _ hstep ih =>
      obtain ⟨y, hleft, hright⟩ := ih
      obtain ⟨y', hstepLeft, hstepRight⟩ := hstep.between hleft.agree hright.agree
      exact ⟨y', hleft.access (.single hstepLeft), hright.access (.single hstepRight)⟩
  obtain ⟨y, hleft, hright⟩ := hbetween
  exact hleft.agree.trans hright.agree

/-! ## A function bound to the list that holds it -/

/-- `let l = []` and `call add(l, function('f', [l]))`. -/
def selfBound : Heap Unit Empty where
  items _ := [.partialFunc ⟨[0x66], [.list ()], none, none⟩]
  entries := Empty.elim
  keys_nodup d := d.elim

theorem nanFree_selfBound : NanFree selfBound (.list ()) := by
  intro bits hpath
  have hshape : ∀ v, ReflTransGen (Step selfBound) (.list ()) v →
      v = .list () ∨ v = .partialFunc ⟨[0x66], [.list ()], none, none⟩ := by
    intro v hv
    induction hv with
    | refl => exact .inl rfl
    | tail _ hstep ih =>
      rcases ih with rfl | rfl
      · cases hstep with
        | item hx => exact .inr (List.mem_singleton.mp hx)
        | bound hfunctions _ => cases hfunctions
      · cases hstep with
        | bound hfunctions hparts =>
          cases hfunctions
          cases hparts with
          | arg i hx _ => exact .inl (List.mem_singleton.mp (List.mem_of_getElem? hx))
          | entry i hd _ _ _ => cases hd
  rcases hshape _ hpath with h | h <;> cases h

/-- Comparing that list with itself compares what the function binds: the list with itself. -/
theorem walk_selfBound {ε : Type} {eq : Typval Unit Empty → Typval Unit Empty → Option Bool}
    {leaf : Typval Unit Empty × Typval Unit Empty → Option Bool}
    (hleaf : ∀ f g, leaf (.partialFunc f, .partialFunc g) = funcrefEq eq f g)
    (heq : eq (.list ()) (.list ()) = none) (fuel : Nat) :
    walk (containers selfBound) leaf (fun _ => (none : Option ε)) fuel 0 ∅
      (.list (), .list ()) = none := by
  rcases fuel with _ | _ | fuel
  · rfl
  · rfl
  · simp [walk, walkAll, containers, pairKey, selfBound, hleaf, funcrefEq, argsEq, pairsEq, heq,
      andThen]

/-- The `==` of that list with itself has no answer. -/
theorem typvalEq_selfBound (fuel : Nat) : typvalEq selfBound fuel (.list ()) (.list ()) = none := by
  induction fuel with
  | zero => rfl
  | succ fuel ih =>
    rw [typvalEq, walk_selfBound (fun _ _ => rfl) ih]

/-! ## When the comparisons end -/

section Compares

variable [DecidableEq ι] [DecidableEq κ]

/-- With enough fuel `equal_values` gives this answer, or gives up at the depth limit. -/
def Answers (toLowercase : Char → List Char) (heap : Heap ι κ) (ic : Bool) (depth maximum : Nat)
    (v w : Typval ι κ) (equal : Bool) : Prop :=
  ∀ᶠ fuel in atTop,
    equalValues heap toLowercase fuel v w ic depth maximum
      = some (.error ⟨"E1169", 0, "value comparison nesting is too deep"⟩) ∨
    equalValues heap toLowercase fuel v w ic depth maximum = some (.ok equal)

/-- Comparing any two of the values ends, with the answer of graph equality where the depth limit is
not hit, and the answers are those of an equivalence. -/
structure Compares (toLowercase : Char → List Char) (heap : Heap ι κ) (values : Set (Typval ι κ)) :
    Prop where
  typvalEq : ∀ v ∈ values, ∀ w ∈ values,
    Decides (fun fuel => typvalEq heap fuel v w) (Equal toLowercase heap ⟨false, v, w⟩)
  equalValues : ∀ v ∈ values, ∀ w ∈ values, ∀ ic depth maximum, ∃ equal,
    Answers toLowercase heap ic depth maximum v w equal ∧
      (equal = true ↔ Equal toLowercase heap ⟨ic, v, w⟩)
  refl : ∀ v ∈ values, ∀ ic depth maximum, Answers toLowercase heap ic depth maximum v v true
  symm : ∀ v ∈ values, ∀ w ∈ values, ∀ ic fuel depth maximum,
    Eval.equalValues heap toLowercase fuel v w ic depth maximum = some (.ok true) →
      ∀ depth maximum, Answers toLowercase heap ic depth maximum w v true
  trans : ∀ u ∈ values, ∀ v ∈ values, ∀ w ∈ values, ∀ ic fuel depth maximum fuel' depth' maximum',
    Eval.equalValues heap toLowercase fuel u v ic depth maximum = some (.ok true) →
      Eval.equalValues heap toLowercase fuel' v w ic depth' maximum' = some (.ok true) →
        ∀ depth maximum, Answers toLowercase heap ic depth maximum u w true

/-- **Only equal values are found equal in expressions.** -/
theorem equal_of_equalValues {ic : Bool} {fuel depth maximum : Nat} {v w : Typval ι κ}
    (h : equalValues heap toLowercase fuel v w ic depth maximum = some (.ok true)) :
    Equal toLowercase heap ⟨ic, v, w⟩ := by
  obtain ⟨outcome, hwalk, houtcome⟩ := Option.map_eq_some_iff.mp h
  cases outcome with
  | error error => cases houtcome
  | ok answer =>
    obtain ⟨equal, seen⟩ := answer
    obtain rfl : equal = true := Except.ok.inj houtcome
    have hgood := good_of_walk hwalk
    have hanswer : ∀ middle, Reach (containers heap) (v, w) middle → pairKey middle = none →
        (valueEq heap toLowercase ic fuel middle = some true ↔
          Equal toLowercase heap ⟨ic, middle⟩) := by
      intro middle hreach hkey
      have hfine := hgood middle hreach
      have hnone : ¬((containers heap).key middle).isSome := by
        have hkey' : (containers heap).key middle = none := hkey
        simp [hkey']
      rw [Fine, if_neg hnone] at hfine
      refine ⟨fun _ => ?_, fun _ => hfine⟩
      by_cases hstring : ∃ a b, middle = (.string a, .string b)
      · obtain ⟨a, b, rfl⟩ := hstring
        rw [equal_strings]
        simpa [valueEq] using hfine
      · have hother : ∀ a b, middle ≠ (.string a, .string b) := fun a b heq => hstring ⟨a, b, heq⟩
        rw [valueEq_of_not_strings hother] at hfine
        have hequal : Equal toLowercase heap ⟨false, middle⟩ := (guarded_equal_of_typvalEq hfine).2
        exact (equal_congr hkey hother).mp hequal
    exact (good_iff_equal hanswer).mp hgood

variable [Fintype ι] [Fintype κ]

/-- Guarded values get the answer of graph equality. -/
theorem answers_of_guarded {ic : Bool} {v w : Typval ι κ} (h : Guarded heap ⟨ic, v, w⟩)
    (depth maximum : Nat) : ∃ equal, Answers toLowercase heap ic depth maximum v w equal ∧
      (equal = true ↔ Equal toLowercase heap ⟨ic, v, w⟩) := by
  classical
  refine ⟨decide (Equal toLowercase heap ⟨ic, v, w⟩), ?_, by simp⟩
  have hdecides := @equalValues_decides ι κ toLowercase heap _ _ _ _ ic (v, w) h depth maximum
  filter_upwards [hdecides] with fuel hfuel
  rcases hfuel with herror | ⟨equal, hequal, hiff⟩
  · exact .inl herror
  · right
    have hdecide : decide (Equal toLowercase heap ⟨ic, v, w⟩) = equal := by
      rw [Bool.eq_iff_iff, decide_eq_true_iff, hiff]
    rw [hdecide, ← hequal]

theorem answers_true_of_equal {ic : Bool} {v w : Typval ι κ} (h : Guarded heap ⟨ic, v, w⟩)
    (hequal : Equal toLowercase heap ⟨ic, v, w⟩) (depth maximum : Nat) :
    Answers toLowercase heap ic depth maximum v w true := by
  obtain ⟨equal, hanswers, hiff⟩ := answers_of_guarded h depth maximum
  rwa [hiff.mpr hequal] at hanswers

/-- Values without endless paths through functions are compared. -/
theorem compares_of_founded {values : Set (Typval ι κ)} (hnan : ∀ v ∈ values, NanFree heap v)
    (h : ∀ v ∈ values, Founded heap v) : Compares toLowercase heap values where
  typvalEq v hv w _ := by
    have hguarded : Guarded heap ⟨false, v, w⟩ := guarded_of_founded (h v hv)
    exact typvalEq_decides hguarded
  equalValues v hv w _ ic depth maximum :=
    answers_of_guarded (guarded_of_founded (h v hv)) depth maximum
  refl v hv ic :=
    answers_true_of_equal (guarded_of_founded (h v hv)) (Equal.refl ic (hnan v hv))
  symm v _ w hw ic fuel depth maximum heq :=
    answers_true_of_equal (guarded_of_founded (h w hw)) (equal_of_equalValues heq).symm
  trans u hu v _ w _ ic fuel depth maximum fuel' depth' maximum' heq heq' :=
    answers_true_of_equal (guarded_of_founded (h u hu))
      ((equal_of_equalValues heq).trans (equal_of_equalValues heq'))

/-- **Comparison is right exactly where no path goes through functions for ever.** For values without
NaN, comparing any two of them ends with the answer of graph equality if and only if no one of them
leads into a function, and from what that binds into another, without end. -/
theorem compares_iff {values : Set (Typval ι κ)} (hnan : ∀ v ∈ values, NanFree heap v) :
    Compares toLowercase heap values ↔ ∀ v ∈ values, Founded heap v := by
  constructor
  · intro h v hv
    have hdecides := (h.typvalEq v hv v hv).exists
    obtain ⟨fuel, equal, hanswer, hiff⟩ := hdecides
    rw [hiff.mpr (Equal.refl false (hnan v hv))] at hanswer
    have hguarded := @guarded_equal_of_typvalEq ι κ toLowercase heap _ _ fuel (v, v) hanswer
    exact founded_of_guarded hguarded.1
  · exact compares_of_founded hnan

theorem compares_iff_selfBound :
    Compares (fun c => [c]) selfBound {.list ()} ↔ ∀ v ∈ ({.list ()} : Set _), Founded selfBound v :=
  compares_iff fun _ hv => Set.mem_singleton_iff.mp hv ▸ nanFree_selfBound

/-- **The comparison of that list with itself never ends**, so that it is not found equal. -/
theorem not_compares_selfBound : ¬Compares (fun c => [c]) selfBound {.list ()} ∧
    ∀ fuel, typvalEq selfBound fuel (.list ()) (.list ()) = none := by
  refine ⟨?_, typvalEq_selfBound⟩
  intro h
  obtain ⟨fuel, equal, hanswer, -⟩ := (h.typvalEq (.list ()) rfl (.list ()) rfl).exists
  cases (typvalEq_selfBound fuel).symm.trans hanswer

end Compares

end Oxvim.Eval
