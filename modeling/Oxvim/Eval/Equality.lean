import Oxvim.Eval.Typval

/-!
# Equality of graphs

Two values are equal when no access path leads from them to different shapes, lengths, key sets or
leaves. A path goes into lists by position, into dictionaries by key, and into functions to their
bound arguments and to the entries of their bound dictionary; inside a function case is never ignored.

The comparisons decide this equality for values that are `Guarded`: no path leads through infinitely
many pairs of functions, so, in a heap, no function leads back to itself. Nothing else is compared
equal.
-/

namespace Oxvim.Eval

open Lib Lib.Walk Relation

variable {ι κ : Type}

/-! ## Paths -/

/-- Two values under comparison. -/
structure Node (ι κ : Type) where
  ignoreCase : Bool
  values : Typval ι κ × Typval ι κ

/-- Two functions of one kind. -/
inductive Functions : Typval ι κ × Typval ι κ → Funcref (Typval ι κ) → Funcref (Typval ι κ) → Prop
  | funcref (f g : Funcref (Typval ι κ)) : Functions (.funcref f, .funcref g) f g
  | partialFunc (f g : Funcref (Typval ι κ)) : Functions (.partialFunc f, .partialFunc g) f g

/-- Values that are bound at the same place of two functions. -/
inductive BoundPair (f g : Funcref (Typval ι κ)) : Typval ι κ × Typval ι κ → Prop
  | arg (i : Nat) {x y : Typval ι κ} : f.args[i]? = some x → g.args[i]? = some y →
    BoundPair f g (x, y)
  | entry (i : Nat) {d e : List (List UInt8 × Typval ι κ)} {k k' : List UInt8} {x y : Typval ι κ} :
    f.dict = some d → g.dict = some e → d[i]? = some (k, x) → e[i]? = some (k', y) →
    BoundPair f g (x, y)

/-- One step down into both values. -/
inductive Access (heap : Heap ι κ) : Node ι κ → Node ι κ → Prop
  | item (ic : Bool) {a b : ι} (i : Nat) {x y : Typval ι κ} : (heap.items a)[i]? = some x →
    (heap.items b)[i]? = some y → Access heap ⟨ic, .list a, .list b⟩ ⟨ic, x, y⟩
  | entry (ic : Bool) {a b : κ} {key : List UInt8} {x y : Typval ι κ} : ⟨key, x⟩ ∈ heap.entries a →
    ⟨key, y⟩ ∈ heap.entries b → Access heap ⟨ic, .dict a, .dict b⟩ ⟨ic, x, y⟩
  | bound (ic : Bool) {values parts : Typval ι κ × Typval ι κ} {f g : Funcref (Typval ι κ)} :
    Functions values f g → BoundPair f g parts → Access heap ⟨ic, values⟩ ⟨false, parts⟩

/-- Functions that differ at most in what they bind. -/
structure SameShape (f g : Funcref (Typval ι κ)) : Prop where
  name : f.name = g.name
  args : f.args.length = g.args.length
  dict : f.dict.map (·.map Prod.fst) = g.dict.map (·.map Prod.fst)
  registry : f.registry = g.registry

/-- Two values that show no difference by themselves. -/
def Agree (toLowercase : Char → List Char) (heap : Heap ι κ) (node : Node ι κ) : Prop :=
  match node.values with
  | (.list a, .list b) => (heap.items a).length = (heap.items b).length
  | (.dict a, .dict b) => ∀ key, key ∈ (heap.entries a).map (·.key) ↔ key ∈ (heap.entries b).map (·.key)
  | (.funcref f, .funcref g) => SameShape f g
  | (.partialFunc f, .partialFunc g) => SameShape f g
  | (.string a, .string b) =>
    if node.ignoreCase then foldBytes toLowercase a = foldBytes toLowercase b else a = b
  | (.float a, .float b) => floatEq a b
  | (.number a, .number b) => a = b
  | (.blob a, .blob b) => a = b
  | (.bool a, .bool b) => a = b
  | (.special a, .special b) => a = b
  | (.channel a, .channel b) => a = b
  | (.job a, .job b) => a = b
  | _ => False

/-- **Graph equality**: no access path leads to a difference. -/
def Equal (toLowercase : Char → List Char) (heap : Heap ι κ) (node : Node ι κ) : Prop :=
  ∀ node', ReflTransGen (Access heap) node node' → Agree toLowercase heap node'

/-- What is bound by functions that a path leads to. -/
def Through (heap : Heap ι κ) (node' node : Node ι κ) : Prop :=
  ∃ middle f g, ReflTransGen (Access heap) node middle ∧ Functions middle.values f g ∧
    Access heap middle node'

/-- No path leads through infinitely many pairs of functions. -/
def Guarded (heap : Heap ι κ) (node : Node ι κ) : Prop :=
  Acc (Through heap) node

variable {toLowercase : Char → List Char} {heap : Heap ι κ}

theorem Equal.agree {node : Node ι κ} (h : Equal toLowercase heap node) :
    Agree toLowercase heap node :=
  h node .refl

theorem Equal.access {node node' : Node ι κ} (h : Equal toLowercase heap node)
    (hpath : ReflTransGen (Access heap) node node') : Equal toLowercase heap node' :=
  fun node'' hpath' => h node'' (hpath.trans hpath')

theorem equal_iff {node : Node ι κ} : Equal toLowercase heap node ↔
    Agree toLowercase heap node ∧ ∀ node', Access heap node node' → Equal toLowercase heap node' := by
  constructor
  · intro h
    exact ⟨h.agree, fun node' hstep => h.access (.single hstep)⟩
  · intro h node' hpath
    rcases ReflTransGen.cases_head hpath with rfl | ⟨middle, hstep, hrest⟩
    · exact h.1
    · exact h.2 middle hstep node' hrest

/-! ## Containers -/

theorem not_functions_of_key {values : Typval ι κ × Typval ι κ} (hkey : (pairKey values).isSome)
    (f g : Funcref (Typval ι κ)) : ¬Functions values f g := by
  intro h
  cases h <;> cases hkey

/-- A dictionary has one entry for a key. -/
theorem find?_entries {d : κ} {key : List UInt8} {entry : DictEntry ι κ} :
    (heap.entries d).find? (·.key = key) = some entry ↔ entry ∈ heap.entries d ∧ entry.key = key := by
  constructor
  · intro h
    exact ⟨List.mem_of_find?_eq_some h, by simpa using List.find?_some h⟩
  · intro h
    obtain ⟨hmem, rfl⟩ := h
    cases hfind : (heap.entries d).find? (·.key = entry.key) with
    | none => simpa using List.find?_eq_none.mp hfind entry hmem
    | some other =>
      have hother : other.key = entry.key := by simpa using List.find?_some hfind
      rw [List.inj_on_of_nodup_map (heap.keys_nodup d) (List.mem_of_find?_eq_some hfind) hmem hother]

/-- The parts of a pair of containers are what one step leads to. -/
theorem access_iff_part {ic : Bool} {values : Typval ι κ × Typval ι κ}
    (hkey : (pairKey values).isSome) {node : Node ι κ} :
    Access heap ⟨ic, values⟩ node ↔
      node.ignoreCase = ic ∧ Part (containers heap) values node.values := by
  constructor
  · intro h
    cases h with
    | item _ i hx hy =>
      refine ⟨rfl, rfl, ?_⟩
      apply List.mem_map_of_mem
      rw [List.mem_iff_getElem?]
      exact ⟨i, List.getElem?_zip_eq_some.mpr ⟨hx, hy⟩⟩
    | @entry _ a b key x y hx hy =>
      refine ⟨rfl, rfl, ?_⟩
      refine List.mem_map.mpr ⟨⟨key, x⟩, hx, ?_⟩
      rw [find?_entries.mpr ⟨hy, rfl⟩]
      rfl
    | bound _ hfunctions _ => exact absurd hfunctions (not_functions_of_key hkey _ _)
  · intro h
    obtain ⟨ic', values'⟩ := node
    obtain ⟨rfl, -, hpart⟩ := h
    obtain ⟨left, right⟩ := values
    cases left <;> cases right <;> cases hkey
    · next a b =>
      obtain ⟨pair, hpair, heq⟩ := List.mem_map.mp hpart
      obtain rfl := Option.some.inj heq
      obtain ⟨i, hi⟩ := List.mem_iff_getElem?.mp hpair
      obtain ⟨hx, hy⟩ := List.getElem?_zip_eq_some.mp hi
      exact .item _ i hx hy
    · next a b =>
      obtain ⟨entry, hentry, heq⟩ := List.mem_map.mp hpart
      obtain ⟨other, hother, heq⟩ := Option.map_eq_some_iff.mp heq
      subst heq
      obtain ⟨hmem, hkey⟩ := find?_entries.mp hother
      have hleft : (⟨other.key, entry.value⟩ : DictEntry ι κ) ∈ heap.entries a := hkey ▸ hentry
      exact .entry _ hleft hmem

/-- A pair of containers that passes its check and misses no part agrees. -/
theorem fine_iff_agree {leaf : Typval ι κ × Typval ι κ → Option Bool} {ic : Bool}
    {values : Typval ι κ × Typval ι κ} (hkey : (pairKey values).isSome) :
    Fine (containers heap) leaf values ↔ Agree toLowercase heap ⟨ic, values⟩ := by
  have hkey' : ((containers heap).key values).isSome := hkey
  rw [Fine, if_pos hkey']
  obtain ⟨left, right⟩ := values
  cases left <;> cases right <;> cases hkey
  · next a b => simp [containers, Agree]
  · next a b =>
    have hmissing : none ∉ (containers heap).parts (.dict a, .dict b) ↔
        ∀ entry ∈ heap.entries a, entry.key ∈ (heap.entries b).map (·.key) := by
      simp only [containers, List.mem_map, Option.map_eq_none_iff, List.find?_eq_none,
        decide_eq_true_eq]
      push Not
      rfl
    have hcheck : (containers heap).check (.dict a, .dict b) = true ↔
        ((heap.entries a).map (·.key)).length = ((heap.entries b).map (·.key)).length := by
      simp [containers]
    have hkeys : (∀ entry ∈ heap.entries a, entry.key ∈ (heap.entries b).map (·.key)) ↔
        (heap.entries a).map (·.key) ⊆ (heap.entries b).map (·.key) := by
      simp [List.subset_def]
    rw [hmissing, hcheck, hkeys]
    -- distinct keys, all of them on the other side too, and as many
    constructor
    · intro h
      have hperm := ((heap.keys_nodup a).subperm h.2).perm_of_length_le h.1.ge
      exact fun key => hperm.mem_iff
    · intro h
      have hperm := (List.perm_ext_iff_of_nodup (heap.keys_nodup a) (heap.keys_nodup b)).mpr h
      exact ⟨hperm.length_eq, hperm.subset⟩

/-- Paths through containers are those the walk takes. -/
theorem path_of_reach (ic : Bool) {values values' : Typval ι κ × Typval ι κ}
    (h : Reach (containers heap) values values') :
    ReflTransGen (Access heap) ⟨ic, values⟩ ⟨ic, values'⟩ := by
  induction h with
  | refl => exact .refl
  | tail _ hpart ih => exact ih.tail ((access_iff_part hpart.1).mpr ⟨rfl, hpart⟩)

/-- A path stays among containers or leaves them at a pair of other values. -/
theorem path_cases {ic : Bool} {values : Typval ι κ × Typval ι κ} {node : Node ι κ}
    (h : ReflTransGen (Access heap) ⟨ic, values⟩ node) :
    (∃ middle, Reach (containers heap) values middle ∧ node = ⟨ic, middle⟩) ∨
      ∃ middle, Reach (containers heap) values middle ∧ pairKey middle = none ∧
        ReflTransGen (Access heap) ⟨ic, middle⟩ node := by
  induction h with
  | refl => exact .inl ⟨values, .refl, rfl⟩
  | @tail node node' _ hstep ih =>
    rcases ih with ⟨middle, hreach, rfl⟩ | ⟨middle, hreach, hkey, hpath⟩
    · cases hkey : pairKey middle with
      | none => exact .inr ⟨middle, hreach, hkey, .single hstep⟩
      | some key =>
        obtain ⟨hic, hpart⟩ := (access_iff_part (by rw [hkey]; rfl)).mp hstep
        refine .inl ⟨node'.values, hreach.tail hpart, ?_⟩
        rw [← hic]
    · exact .inr ⟨middle, hreach, hkey, hpath.tail hstep⟩

/-- A walk whose leaves are decided decides equality. -/
theorem good_iff_equal {ic : Bool} {leaf : Typval ι κ × Typval ι κ → Option Bool}
    {values : Typval ι κ × Typval ι κ}
    (hleaf : ∀ middle, Reach (containers heap) values middle → pairKey middle = none →
      (leaf middle = some true ↔ Equal toLowercase heap ⟨ic, middle⟩)) :
    Good (containers heap) leaf values ↔ Equal toLowercase heap ⟨ic, values⟩ := by
  constructor
  · intro h node hpath
    rcases path_cases hpath with ⟨middle, hreach, rfl⟩ | ⟨middle, hreach, hkey, hpath'⟩
    · have hfine := h middle hreach
      by_cases hkey : (pairKey middle).isSome
      · exact (fine_iff_agree hkey).mp hfine
      · have hkey' : pairKey middle = none := by simpa using hkey
        have hnone : ¬((containers heap).key middle).isSome := hkey
        rw [Fine, if_neg hnone] at hfine
        exact ((hleaf middle hreach hkey').mp hfine).agree
    · have hfine := h middle hreach
      have hnone : ¬((containers heap).key middle).isSome := by
        have hkey' : (containers heap).key middle = none := hkey
        simp [hkey']
      rw [Fine, if_neg hnone] at hfine
      exact (hleaf middle hreach hkey).mp hfine node hpath'
  · intro h middle hreach
    have hequal := h.access (path_of_reach ic hreach)
    by_cases hkey : (pairKey middle).isSome
    · exact (fine_iff_agree hkey).mpr hequal.agree
    · have hkey' : pairKey middle = none := by simpa using hkey
      have hnone : ¬((containers heap).key middle).isSome := hkey
      rw [Fine, if_neg hnone]
      exact (hleaf middle hreach hkey').mpr hequal

/-! ## Functions -/

section Functions

variable {eq : Typval ι κ → Typval ι κ → Option Bool}

theorem andThen_eq_true {first second : Option Bool} :
    andThen first second = some true ↔ first = some true ∧ second = some true := by
  rcases first with _ | _ | _ <;> simp [andThen]

theorem andThen_isSome {first second : Option Bool} (hfirst : first.isSome) (hsecond : second.isSome) :
    (andThen first second).isSome := by
  rcases first with _ | _ | _ <;> simp_all [andThen]

theorem pairsEq_eq_true {pairs : List (Typval ι κ × Typval ι κ)} :
    pairsEq eq pairs = some true ↔ ∀ pair ∈ pairs, eq pair.1 pair.2 = some true := by
  induction pairs with
  | nil => simp [pairsEq]
  | cons pair pairs ih => rw [pairsEq, andThen_eq_true, ih, List.forall_mem_cons]

theorem pairsEq_isSome {pairs : List (Typval ι κ × Typval ι κ)}
    (h : ∀ pair ∈ pairs, (eq pair.1 pair.2).isSome) : (pairsEq eq pairs).isSome := by
  induction pairs with
  | nil => rfl
  | cons pair pairs ih =>
    rw [List.forall_mem_cons] at h
    exact andThen_isSome h.1 (ih h.2)

theorem boundPairsEq_eq_true
    {pairs : List ((List UInt8 × Typval ι κ) × (List UInt8 × Typval ι κ))} :
    boundPairsEq eq pairs = some true ↔
      ∀ pair ∈ pairs, pair.1.1 = pair.2.1 ∧ eq pair.1.2 pair.2.2 = some true := by
  induction pairs with
  | nil => simp [boundPairsEq]
  | cons pair pairs ih =>
    rw [boundPairsEq, andThen_eq_true, andThen_eq_true, ih, List.forall_mem_cons]
    simp

theorem boundPairsEq_isSome
    {pairs : List ((List UInt8 × Typval ι κ) × (List UInt8 × Typval ι κ))}
    (h : ∀ pair ∈ pairs, (eq pair.1.2 pair.2.2).isSome) : (boundPairsEq eq pairs).isSome := by
  induction pairs with
  | nil => rfl
  | cons pair pairs ih =>
    rw [List.forall_mem_cons] at h
    exact andThen_isSome (andThen_isSome rfl h.1) (ih h.2)

theorem mem_zip_iff {α β : Type} {a : List α} {b : List β} {x : α} {y : β} :
    (x, y) ∈ a.zip b ↔ ∃ i : Nat, a[i]? = some x ∧ b[i]? = some y := by
  rw [List.mem_iff_getElem?]
  exact exists_congr fun i => List.getElem?_zip_eq_some

/-- Lists of one length with the same keys in the same order. -/
theorem map_fst_eq_iff {d e : List (List UInt8 × Typval ι κ)} :
    d.map Prod.fst = e.map Prod.fst ↔
      d.length = e.length ∧ ∀ pair ∈ d.zip e, pair.1.1 = pair.2.1 := by
  rw [← List.forall₂_eq_eq_eq, List.forall₂_map_left_iff, List.forall₂_map_right_iff,
    List.forall₂_iff_zip]
  exact and_congr_right fun _ => ⟨fun h pair hpair => h hpair, fun h a b hab => h (a, b) hab⟩

/-- **Functions are equal when they have one shape and what they bind is equal.** -/
theorem funcrefEq_eq_true {f g : Funcref (Typval ι κ)} : funcrefEq eq f g = some true ↔
    SameShape f g ∧ ∀ parts, BoundPair f g parts → eq parts.1 parts.2 = some true := by
  have hargs : argsEq eq f.args g.args = some true ↔ f.args.length = g.args.length ∧
      ∀ pair ∈ f.args.zip g.args, eq pair.1 pair.2 = some true := by
    rw [argsEq]
    by_cases hlength : f.args.length = g.args.length
    · rw [if_neg (not_not_intro hlength), pairsEq_eq_true]
      simp [hlength]
    · rw [if_pos hlength]
      simp [hlength]
  have hdict : boundEq eq f.dict g.dict = some true ↔
      f.dict.map (·.map Prod.fst) = g.dict.map (·.map Prod.fst) ∧
        ∀ d e, f.dict = some d → g.dict = some e →
          ∀ pair ∈ d.zip e, eq pair.1.2 pair.2.2 = some true := by
    cases f.dict with
    | none => cases g.dict <;> simp [boundEq]
    | some d =>
      cases g.dict with
      | none => simp [boundEq]
      | some e =>
        simp only [boundEq, Option.map_some, Option.some.injEq, map_fst_eq_iff]
        by_cases hlength : d.length = e.length
        · rw [if_neg (not_not_intro hlength), boundPairsEq_eq_true]
          grind
        · rw [if_pos hlength]
          simp [hlength]
  rw [funcrefEq, andThen_eq_true, andThen_eq_true, andThen_eq_true, hargs, hdict]
  simp only [Option.some.injEq, beq_iff_eq]
  constructor
  · intro h
    obtain ⟨hname, ⟨hlength, hzip⟩, ⟨hkeys, hbound⟩, hregistry⟩ := h
    refine ⟨⟨hname, hlength, hkeys, hregistry⟩, ?_⟩
    intro parts hparts
    cases hparts with
    | arg i hx hy => exact hzip _ (mem_zip_iff.mpr ⟨i, hx, hy⟩)
    | entry i hd he hx hy => exact hbound _ _ hd he _ (mem_zip_iff.mpr ⟨i, hx, hy⟩)
  · intro h
    obtain ⟨⟨hname, hlength, hkeys, hregistry⟩, hparts⟩ := h
    refine ⟨hname, ⟨hlength, ?_⟩, ⟨hkeys, ?_⟩, hregistry⟩
    · intro pair hpair
      obtain ⟨i, hx, hy⟩ := mem_zip_iff.mp hpair
      exact hparts pair (.arg i hx hy)
    · intro d e hd he pair hpair
      obtain ⟨i, hx, hy⟩ := mem_zip_iff.mp hpair
      exact hparts _ (.entry i hd he hx hy)

theorem funcrefEq_isSome {f g : Funcref (Typval ι κ)}
    (h : ∀ parts, BoundPair f g parts → (eq parts.1 parts.2).isSome) :
    (funcrefEq eq f g).isSome := by
  refine andThen_isSome rfl (andThen_isSome ?_ (andThen_isSome ?_ rfl))
  · rw [argsEq]
    split
    · rfl
    · apply pairsEq_isSome
      intro pair hpair
      obtain ⟨i, hx, hy⟩ := mem_zip_iff.mp hpair
      exact h pair (.arg i hx hy)
  · cases hd : f.dict with
    | none => cases g.dict <;> rfl
    | some d =>
      cases he : g.dict with
      | none => rfl
      | some e =>
        rw [boundEq]
        split
        · rfl
        · apply boundPairsEq_isSome
          intro pair hpair
          obtain ⟨i, hx, hy⟩ := mem_zip_iff.mp hpair
          exact h _ (.entry i hd he hx hy)

/-- Functions bind finitely many pairs. -/
theorem finite_boundPair (f g : Funcref (Typval ι κ)) : {parts | BoundPair f g parts}.Finite := by
  apply (((f.args.zip g.args).finite_toSet).union
    (((f.dict.getD []).zip (g.dict.getD [])).finite_toSet.image
      fun pair => (pair.1.2, pair.2.2))).subset
  intro parts hparts
  cases hparts with
  | arg i hx hy => exact .inl (mem_zip_iff.mpr ⟨i, hx, hy⟩)
  | @entry i d e k k' x y hd he hx hy =>
    refine .inr ⟨((k, x), (k', y)), ?_, rfl⟩
    rw [hd, he]
    exact mem_zip_iff.mpr ⟨i, hx, hy⟩

end Functions

/-! ## Other values -/

section Leaves

variable {eq : Typval ι κ → Typval ι κ → Option Bool} {values : Typval ι κ × Typval ι κ}

/-- What is bound at one place of two functions, where the values are functions. -/
def Bound (values parts : Typval ι κ × Typval ι κ) : Prop :=
  ∃ f g, Functions values f g ∧ BoundPair f g parts

theorem access_of_leaf {ic : Bool} (hkey : pairKey values = none) {node : Node ι κ} :
    Access heap ⟨ic, values⟩ node ↔ node.ignoreCase = false ∧ Bound values node.values := by
  constructor
  · intro h
    cases h with
    | item => cases hkey
    | entry => cases hkey
    | bound _ hfunctions hparts => exact ⟨rfl, _, _, hfunctions, hparts⟩
  · intro h
    obtain ⟨ic', parts⟩ := node
    obtain ⟨rfl, f, g, hfunctions, hparts⟩ := h
    exact .bound ic hfunctions hparts

theorem equal_leaf_iff {ic : Bool} (hkey : pairKey values = none) :
    Equal toLowercase heap ⟨ic, values⟩ ↔ Agree toLowercase heap ⟨ic, values⟩ ∧
      ∀ parts, Bound values parts → Equal toLowercase heap ⟨false, parts⟩ := by
  rw [equal_iff]
  refine and_congr_right fun _ => ?_
  constructor
  · intro h parts hparts
    exact h _ ((access_of_leaf hkey).mpr ⟨rfl, hparts⟩)
  · intro h node hstep
    obtain ⟨hic, hparts⟩ := (access_of_leaf hkey).mp hstep
    have hequal := h _ hparts
    rwa [← hic] at hequal

theorem bound_funcref {f g : Funcref (Typval ι κ)} {parts : Typval ι κ × Typval ι κ} :
    Bound (.funcref f, .funcref g) parts ↔ BoundPair f g parts := by
  constructor
  · intro h
    obtain ⟨f', g', hfunctions, hparts⟩ := h
    cases hfunctions
    exact hparts
  · exact fun h => ⟨f, g, .funcref f g, h⟩

theorem bound_partialFunc {f g : Funcref (Typval ι κ)} {parts : Typval ι κ × Typval ι κ} :
    Bound (.partialFunc f, .partialFunc g) parts ↔ BoundPair f g parts := by
  constructor
  · intro h
    obtain ⟨f', g', hfunctions, hparts⟩ := h
    cases hfunctions
    exact hparts
  · exact fun h => ⟨f, g, .partialFunc f g, h⟩

/-- **Other values are equal when they agree and what they bind is equal.** -/
theorem leafEq_eq_true (hkey : pairKey values = none) : leafEq eq values = some true ↔
    Agree toLowercase heap ⟨false, values⟩ ∧
      ∀ parts, Bound values parts → eq parts.1 parts.2 = some true := by
  unfold leafEq
  split
  case h_6 =>
    refine ⟨fun _ => ⟨by simp [Agree], ?_⟩, fun _ => by simp⟩
    intro parts hparts
    obtain ⟨f, g, hfunctions, -⟩ := hparts
    cases hfunctions
  case h_9 => simp only [funcrefEq_eq_true, bound_funcref, Agree]
  case h_10 => simp only [funcrefEq_eq_true, bound_partialFunc, Agree]
  case h_11 hnumber hfloat hstring hblob hbool hspecial hchannel hjob hfuncref hpartial =>
    have hdiffer : ¬Agree toLowercase heap ⟨false, values⟩ := by
      intro h
      unfold Agree at h
      dsimp only at h
      split at h
      · cases hkey
      · cases hkey
      · exact hfuncref _ _ rfl
      · exact hpartial _ _ rfl
      · exact hstring _ _ rfl
      · exact hfloat _ _ rfl
      · exact hnumber _ _ rfl
      · exact hblob _ _ rfl
      · exact hbool _ _ rfl
      · exact hspecial _ _ rfl
      · exact hchannel _ _ rfl
      · exact hjob _ _ rfl
      · exact h
    simp [hdiffer]
  all_goals
    constructor
    · intro h
      refine ⟨by simpa [Agree] using h, ?_⟩
      intro parts hparts
      obtain ⟨f, g, hfunctions, -⟩ := hparts
      cases hfunctions
    · intro h
      simpa [Agree] using h.1

theorem leafEq_isSome
    (h : ∀ parts, Bound values parts → (eq parts.1 parts.2).isSome) : (leafEq eq values).isSome := by
  unfold leafEq
  split
  case h_9 => exact funcrefEq_isSome fun parts hparts => h parts (bound_funcref.mpr hparts)
  case h_10 => exact funcrefEq_isSome fun parts hparts => h parts (bound_partialFunc.mpr hparts)
  all_goals rfl

theorem finite_bound (values : Typval ι κ × Typval ι κ) : {parts | Bound values parts}.Finite := by
  by_cases hfunctions : ∃ f g, Functions values f g
  · obtain ⟨f, g, hfunctions⟩ := hfunctions
    apply (finite_boundPair f g).subset
    intro parts hparts
    cases hfunctions with
    | funcref => exact bound_funcref.mp hparts
    | partialFunc => exact bound_partialFunc.mp hparts
  · refine Set.finite_empty.subset ?_
    intro parts hparts
    obtain ⟨f, g, hfg, -⟩ := hparts
    exact hfunctions ⟨f, g, hfg⟩

end Leaves

end Oxvim.Eval
