import Oxvim.Eval.Equality

/-!
# The comparisons decide graph equality

With enough fuel `typvalEq` answers whether guarded values are equal, and so does `equalValues`
unless it reaches its depth limit. Conversely both say yes only of guarded and equal values, so that
two equal values with a function that leads back to itself are compared without end.
-/

namespace Oxvim.Eval

open Lib Lib.Walk Relation Filter

variable {ι κ : Type} {toLowercase : Char → List Char} {heap : Heap ι κ}

/-- With enough fuel a comparison says whether `p` holds. -/
def Decides (compare : Nat → Option Bool) (p : Prop) : Prop :=
  ∀ᶠ fuel in atTop, ∃ equal, compare fuel = some equal ∧ (equal = true ↔ p)

/-- A function that is reached is guarded where the values are. -/
theorem Guarded.leaf {ic : Bool} {values middle : Typval ι κ × Typval ι κ}
    (h : Guarded heap ⟨ic, values⟩) (hreach : Reach (containers heap) values middle)
    (hkey : pairKey middle = none) : Guarded heap ⟨false, middle⟩ := by
  refine Acc.intro _ ?_
  intro node hthrough
  obtain ⟨functions, f, g, hpath, hfunctions, hstep⟩ := hthrough
  apply h.inv
  -- the first step from `middle` forgets whether case is ignored
  have hpath' := path_of_reach ic hreach
  rcases ReflTransGen.cases_head hpath with rfl | ⟨next, hnext, hrest⟩
  · have hparts := (access_of_leaf hkey).mp hstep
    exact ⟨⟨ic, middle⟩, f, g, hpath', hfunctions, (access_of_leaf hkey).mpr hparts⟩
  · have hparts := (access_of_leaf hkey).mp hnext
    exact ⟨functions, f, g,
      (hpath'.tail ((access_of_leaf hkey).mpr hparts)).trans hrest, hfunctions, hstep⟩

/-- Leaves are decided when what they bind is. -/
theorem leafEq_decides {eq : Nat → Typval ι κ → Typval ι κ → Option Bool}
    {values : Typval ι κ × Typval ι κ} (hkey : pairKey values = none)
    (hparts : ∀ parts, Bound values parts →
      Decides (fun fuel => eq fuel parts.1 parts.2) (Equal toLowercase heap ⟨false, parts⟩)) :
    Decides (fun fuel => leafEq (eq fuel) values) (Equal toLowercase heap ⟨false, values⟩) := by
  have hall := (eventually_all_finite (finite_bound values)).mpr hparts
  filter_upwards [hall] with fuel hfuel
  have hsome : (leafEq (eq fuel) values).isSome := by
    apply leafEq_isSome
    intro parts hbound
    obtain ⟨equal, hequal, -⟩ := hfuel parts hbound
    rw [hequal]
    rfl
  obtain ⟨equal, hequal⟩ := Option.isSome_iff_exists.mp hsome
  refine ⟨equal, hequal, ?_⟩
  rw [equal_leaf_iff hkey, ← Option.some.injEq, ← hequal, leafEq_eq_true hkey]
  refine and_congr_right fun _ => forall₂_congr fun parts hbound => ?_
  obtain ⟨equal', hequal', hiff⟩ := hfuel parts hbound
  rw [hequal', Option.some.injEq]
  exact hiff

/-- A leaf is guarded where what it binds is. -/
theorem guarded_of_leaf {ic : Bool} {values : Typval ι κ × Typval ι κ}
    (hkey : pairKey values = none)
    (hparts : ∀ parts, Bound values parts → Guarded heap ⟨false, parts⟩) :
    Guarded heap ⟨ic, values⟩ := by
  refine Acc.intro _ ?_
  intro node hthrough
  obtain ⟨functions, f, g, hpath, hfunctions, hstep⟩ := hthrough
  rcases ReflTransGen.cases_head hpath with rfl | ⟨next, hnext, hrest⟩
  · obtain ⟨hic, hbound⟩ := (access_of_leaf hkey).mp hstep
    have hguarded := hparts _ hbound
    rwa [← hic] at hguarded
  · obtain ⟨hic, hbound⟩ := (access_of_leaf hkey).mp hnext
    have hguarded := hparts _ hbound
    rw [← hic] at hguarded
    exact hguarded.inv ⟨functions, f, g, hrest, hfunctions, hstep⟩

/-- Containers are guarded where all the leaves in them are. -/
theorem guarded_of_leaves {ic : Bool} {values : Typval ι κ × Typval ι κ}
    (h : ∀ middle, Reach (containers heap) values middle → pairKey middle = none →
      Guarded heap ⟨ic, middle⟩) : Guarded heap ⟨ic, values⟩ := by
  refine Acc.intro _ ?_
  intro node hthrough
  obtain ⟨functions, f, g, hpath, hfunctions, hstep⟩ := hthrough
  rcases path_cases hpath with ⟨middle, hreach, rfl⟩ | ⟨middle, hreach, hkey, hpath'⟩
  · have hkey : pairKey middle = none := by
      cases hkey : pairKey middle with
      | none => rfl
      | some key => exact absurd hfunctions (not_functions_of_key (by rw [hkey]; rfl) f g)
    exact (h middle hreach hkey).inv ⟨_, f, g, .refl, hfunctions, hstep⟩
  · exact (h middle hreach hkey).inv ⟨functions, f, g, hpath', hfunctions, hstep⟩

variable [DecidableEq ι] [DecidableEq κ]

/-- **Only guarded and equal values are found equal.** -/
theorem guarded_equal_of_typvalEq {fuel : Nat} {values : Typval ι κ × Typval ι κ}
    (h : typvalEq heap fuel values.1 values.2 = some true) :
    Guarded heap ⟨false, values⟩ ∧ Equal toLowercase heap ⟨false, values⟩ := by
  induction fuel generalizing values with
  | zero => cases h
  | succ fuel ih =>
    rw [typvalEq] at h
    split at h
    · next equal seen hwalk =>
      obtain rfl := Option.some.inj h
      have hgood := good_of_walk hwalk
      have hleaf : ∀ middle, Reach (containers heap) values middle → pairKey middle = none →
          Agree toLowercase heap ⟨false, middle⟩ ∧
            ∀ parts, Bound middle parts → typvalEq heap fuel parts.1 parts.2 = some true := by
        intro middle hreach hkey
        have hfine := hgood middle hreach
        have hnone : ¬((containers heap).key middle).isSome := by
          have hkey' : (containers heap).key middle = none := hkey
          simp [hkey']
        rw [Fine, if_neg hnone] at hfine
        exact (leafEq_eq_true hkey).mp hfine
      constructor
      · apply guarded_of_leaves
        intro middle hreach hkey
        exact guarded_of_leaf hkey fun parts hbound => (ih ((hleaf middle hreach hkey).2 parts hbound)).1
      · apply (good_iff_equal _).mp hgood
        intro middle hreach hkey
        have hequal : Equal toLowercase heap ⟨false, middle⟩ :=
          (equal_leaf_iff hkey).mpr ⟨(hleaf middle hreach hkey).1, fun parts hbound =>
            (ih ((hleaf middle hreach hkey).2 parts hbound)).2⟩
        exact ⟨fun _ => hequal, fun _ => (leafEq_eq_true hkey).mpr (hleaf middle hreach hkey)⟩
    · cases h

variable [Fintype ι] [Fintype κ]

/-- **The `==` of values decides graph equality of guarded values.** -/
theorem typvalEq_decides {values : Typval ι κ × Typval ι κ} (h : Guarded heap ⟨false, values⟩) :
    Decides (fun fuel => typvalEq heap fuel values.1 values.2)
      (Equal toLowercase heap ⟨false, values⟩) := by
  generalize hnode : (⟨false, values⟩ : Node ι κ) = node at h
  induction h generalizing values with
  | intro node _ ih =>
    subst hnode
    have hleaves : ∀ middle, Reach (containers heap) values middle →
        ∀ᶠ fuel in atTop, pairKey middle = none →
          ∃ equal, leafEq (typvalEq heap fuel) middle = some equal ∧
            (equal = true ↔ Equal toLowercase heap ⟨false, middle⟩) := by
      intro middle hreach
      by_cases hkey : pairKey middle = none
      · have hdecides : Decides (fun fuel => leafEq (typvalEq heap fuel) middle)
            (Equal toLowercase heap ⟨false, middle⟩) := by
          apply leafEq_decides hkey
          intro parts hbound
          obtain ⟨f, g, hfunctions, hpair⟩ := hbound
          exact ih ⟨false, parts⟩ ⟨⟨false, middle⟩, f, g, path_of_reach false hreach, hfunctions,
            .bound false hfunctions hpair⟩ rfl
        filter_upwards [hdecides] with fuel hfuel
        exact fun _ => hfuel
      · exact Eventually.of_forall fun fuel hnone => absurd hnone hkey
    have hall := (eventually_all_finite (finite_reach (g := containers heap) values)).mpr hleaves
    -- one more unit of fuel, and enough of it for every pair of containers
    rw [Decides, ← map_add_atTop_eq_nat 1, eventually_map]
    filter_upwards [hall, eventually_gt_atTop (Fintype.card (Pair ι κ))] with fuel hleaf hcard
    have hanswer : ∀ middle, Reach (containers heap) values middle → pairKey middle = none →
        (leafEq (typvalEq heap fuel) middle = some true ↔
          Equal toLowercase heap ⟨false, middle⟩) := by
      intro middle hreach hkey
      obtain ⟨equal, hequal, hiff⟩ := hleaf middle hreach hkey
      rw [hequal, Option.some.injEq]
      exact hiff
    have hsome : ∀ middle, Reach (containers heap) values middle →
        (containers heap).key middle = none → (leafEq (typvalEq heap fuel) middle).isSome := by
      intro middle hreach hkey
      obtain ⟨equal, hequal, -⟩ := hleaf middle hreach hkey
      rw [hequal]
      rfl
    rcases walk_decides (fun _ => (none : Option Empty)) 0 hsome hcard with
      ⟨error, -⟩ | ⟨equal, seen, hwalk, hequal⟩
    · exact error.elim
    · refine ⟨equal, ?_, hequal.trans (good_iff_equal hanswer)⟩
      rw [typvalEq, hwalk]

/-! ## Comparison in expressions -/

theorem orderingI8_eq_zero {o : Ordering} : orderingI8 o = 0 ↔ o = .eq := by
  cases o <;> simp [orderingI8]

/-- Byte strings compare as equal when they are, or their folds are. -/
theorem compareBytes_eq_zero {a b : List UInt8} {ic : Bool} :
    compareBytes toLowercase a b ic = 0 ↔
      if ic then foldBytes toLowercase a = foldBytes toLowercase b else a = b := by
  cases ic with
  | true =>
    rw [compareBytes, if_neg (by decide), if_pos rfl, orderingI8_eq_zero, Std.compare_eq_iff_eq]
  | false =>
    have heq : a = b ↔ a.length = b.length ∧ ∀ pair ∈ a.zip b, pair.1 = pair.2 := by
      rw [← List.forall₂_eq_eq_eq, List.forall₂_iff_zip]
      exact and_congr_right fun _ =>
        ⟨fun h pair hpair => h hpair, fun h x y hxy => h (x, y) hxy⟩
    rw [compareBytes, if_pos (by decide), if_neg (by decide), heq]
    cases hfind : (a.zip b).find? fun pair => pair.1 ≠ pair.2 with
    | some pair =>
      have hmem := List.mem_of_find?_eq_some hfind
      have hne : pair.1 ≠ pair.2 := by simpa using List.find?_some hfind
      constructor
      · intro h
        dsimp only at h
        split at h <;> cases h
      · intro h
        exact absurd (h.2 pair hmem) hne
    | none =>
      rw [List.find?_eq_none] at hfind
      dsimp only
      rw [orderingI8_eq_zero, compare_eq_iff_eq]
      constructor
      · intro h
        exact ⟨h, fun pair hpair => by simpa using hfind pair hpair⟩
      · exact fun h => h.1

omit [DecidableEq ι] [DecidableEq κ] [Fintype ι] [Fintype κ] in
/-- Whether case is ignored matters to strings only. -/
theorem agree_congr {ic ic' : Bool} {values : Typval ι κ × Typval ι κ}
    (hstring : ∀ a b, values ≠ (.string a, .string b)) :
    Agree toLowercase heap ⟨ic, values⟩ ↔ Agree toLowercase heap ⟨ic', values⟩ := by
  obtain ⟨left, right⟩ := values
  cases left <;> cases right <;> first | exact Iff.rfl | exact absurd rfl (hstring _ _)

omit [DecidableEq ι] [DecidableEq κ] [Fintype ι] [Fintype κ] in
theorem equal_congr {ic ic' : Bool} {values : Typval ι κ × Typval ι κ}
    (hkey : pairKey values = none) (hstring : ∀ a b, values ≠ (.string a, .string b)) :
    Equal toLowercase heap ⟨ic, values⟩ ↔ Equal toLowercase heap ⟨ic', values⟩ := by
  rw [equal_leaf_iff hkey, equal_leaf_iff hkey, agree_congr hstring]

omit [DecidableEq ι] [DecidableEq κ] [Fintype ι] [Fintype κ] in
theorem equal_strings {ic : Bool} {a b : List UInt8} :
    Equal toLowercase heap ⟨ic, (.string a : Typval ι κ), .string b⟩ ↔
      compareBytes toLowercase a b ic = 0 := by
  rw [equal_leaf_iff rfl, compareBytes_eq_zero]
  refine and_iff_left_of_imp ?_
  intro _ parts hbound
  obtain ⟨f, g, hfunctions, -⟩ := hbound
  cases hfunctions

omit [Fintype ι] [Fintype κ] in
theorem valueEq_of_not_strings {ic : Bool} {fuel : Nat} {values : Typval ι κ × Typval ι κ}
    (hstring : ∀ a b, values ≠ (.string a, .string b)) :
    valueEq heap toLowercase ic fuel values = typvalEq heap fuel values.1 values.2 := by
  unfold valueEq
  split
  · exact absurd rfl (hstring _ _)
  · rfl

/-- The leaves of `equal_values` are decided. -/
theorem valueEq_decides {ic : Bool} {values : Typval ι κ × Typval ι κ}
    (hkey : pairKey values = none) (h : Guarded heap ⟨ic, values⟩) :
    Decides (fun fuel => valueEq heap toLowercase ic fuel values)
      (Equal toLowercase heap ⟨ic, values⟩) := by
  by_cases hstring : ∃ a b, values = (.string a, .string b)
  · obtain ⟨a, b, rfl⟩ := hstring
    refine Eventually.of_forall fun fuel => ⟨_, rfl, ?_⟩
    rw [equal_strings, beq_iff_eq]
  · have hother : ∀ a b, values ≠ (.string a, .string b) := fun a b heq => hstring ⟨a, b, heq⟩
    have hequal : Equal toLowercase heap ⟨ic, values⟩ ↔ Equal toLowercase heap ⟨false, values⟩ :=
      equal_congr hkey hother
    have hdecides : Decides (fun fuel => typvalEq heap fuel values.1 values.2)
        (Equal toLowercase heap ⟨false, values⟩) :=
      typvalEq_decides (h.leaf .refl hkey)
    rw [hequal]
    filter_upwards [hdecides] with fuel hfuel
    rwa [valueEq_of_not_strings hother]

/-- **`equal_values` decides graph equality of guarded values**, unless it goes too deep. -/
theorem equalValues_decides {ic : Bool} {values : Typval ι κ × Typval ι κ}
    (h : Guarded heap ⟨ic, values⟩) (depth maximum : Nat) :
    ∀ᶠ fuel in atTop,
      equalValues heap toLowercase fuel values.1 values.2 ic depth maximum
        = some (.error ⟨"E1169", 0, "value comparison nesting is too deep"⟩) ∨
      ∃ equal, equalValues heap toLowercase fuel values.1 values.2 ic depth maximum
        = some (.ok equal) ∧ (equal = true ↔ Equal toLowercase heap ⟨ic, values⟩) := by
  have hleaves : ∀ middle, Reach (containers heap) values middle →
      ∀ᶠ fuel in atTop, pairKey middle = none →
        ∃ equal, valueEq heap toLowercase ic fuel middle = some equal ∧
          (equal = true ↔ Equal toLowercase heap ⟨ic, middle⟩) := by
    intro middle hreach
    by_cases hkey : pairKey middle = none
    · have hguarded : Guarded heap ⟨ic, middle⟩ := by
        apply guarded_of_leaf hkey
        intro parts hbound
        obtain ⟨f, g, hfunctions, hpair⟩ := hbound
        exact h.inv ⟨⟨ic, middle⟩, f, g, path_of_reach ic hreach, hfunctions,
          .bound ic hfunctions hpair⟩
      filter_upwards [valueEq_decides hkey hguarded] with fuel hfuel
      exact fun _ => hfuel
    · exact Eventually.of_forall fun fuel hnone => absurd hnone hkey
  have hall := (eventually_all_finite (finite_reach (g := containers heap) values)).mpr hleaves
  filter_upwards [hall, eventually_gt_atTop (Fintype.card (Pair ι κ))] with fuel hleaf hcard
  have hanswer : ∀ middle, Reach (containers heap) values middle → pairKey middle = none →
      (valueEq heap toLowercase ic fuel middle = some true ↔
        Equal toLowercase heap ⟨ic, middle⟩) := by
    intro middle hreach hkey
    obtain ⟨equal, hequal, hiff⟩ := hleaf middle hreach hkey
    rw [hequal, Option.some.injEq]
    exact hiff
  have hsome : ∀ middle, Reach (containers heap) values middle →
      (containers heap).key middle = none →
        (valueEq heap toLowercase ic fuel middle).isSome := by
    intro middle hreach hkey
    obtain ⟨equal, hequal, -⟩ := hleaf middle hreach hkey
    rw [hequal]
    rfl
  rcases walk_decides (fun depth => if depth ≥ maximum then
      some (⟨"E1169", 0, "value comparison nesting is too deep"⟩ : EvalError) else none)
      depth hsome hcard with ⟨error, hwalk⟩ | ⟨equal, seen, hwalk, hequal⟩
  · left
    obtain ⟨depth', hdeep⟩ := error_of_walk hwalk
    rw [Option.ite_none_right_eq_some] at hdeep
    rw [equalValues, hwalk, ← Option.some.inj hdeep.2]
    rfl
  · right
    refine ⟨equal, ?_, hequal.trans (good_iff_equal hanswer)⟩
    rw [equalValues, hwalk]
    rfl

end Oxvim.Eval
