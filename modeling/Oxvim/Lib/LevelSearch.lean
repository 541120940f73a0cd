import Mathlib

/-!
# Depth-first search with a limit on the depth

The search goes through a graph and never enters a node twice. It may be limited to a number of
steps. Without a limit it finds what can be reached. With a limit a node that is first met close to
the limit is not entered again when a shorter path leads to it: the search finds all that is near
enough when the steps left never rise from one meeting with a node to a later one (`search_exact`).
-/

namespace Lib.LevelSearch

universe u

variable {κ : Type u} [DecidableEq κ] (next : κ → List κ)

/-- The nodes seen after entering `x`; `levels` more steps are allowed, any number if `none`. -/
def search : (fuel : Nat) → (levels : Option Nat) → Finset κ → κ → Option (Finset κ)
  | 0, _, _, _ => none
  | fuel + 1, levels, seen, x =>
    if x ∈ seen then some seen
    else if levels = some 0 then some (insert x seen)
    else (next x).foldlM (search fuel (levels.map (· - 1))) (insert x seen)

/-- `y` is reached from `x` by steps, of which there are at most `levels`. -/
inductive Within : Option Nat → κ → κ → Prop
  | refl {levels : Option Nat} {x : κ} : Within levels x x
  | step {levels : Option Nat} {x y z : κ} : levels ≠ some 0 → y ∈ next x →
    Within (levels.map (· - 1)) y z → Within levels x z

variable {next}

/-! ## What is found -/

omit [DecidableEq κ] in
/-- What a search of every child keeps, the search of all children keeps. -/
theorem foldlM_induction {f : Finset κ → κ → Option (Finset κ)} {P : Finset κ → Prop}
    {children : List κ} {seen seen' : Finset κ}
    (hstep : ∀ x ∈ children, ∀ s s', P s → f s x = some s' → P s') (hseen : P seen)
    (h : children.foldlM f seen = some seen') : P seen' := by
  induction children generalizing seen with
  | nil =>
    cases h
    exact hseen
  | cons x children ih =>
    rw [List.foldlM_cons] at h
    obtain ⟨s, hs, hrest⟩ := Option.bind_eq_some_iff.mp h
    apply ih (fun y hy => hstep y (List.mem_cons_of_mem x hy)) _ hrest
    exact hstep x List.mem_cons_self seen s hseen hs

theorem subset_of_search {fuel : Nat} {levels : Option Nat} {seen seen' : Finset κ} {x : κ}
    (h : search next fuel levels seen x = some seen') : seen ⊆ seen' ∧ x ∈ seen' := by
  induction fuel generalizing levels seen seen' x with
  | zero => cases h
  | succ fuel ih =>
    unfold search at h
    split_ifs at h with hx hlevels
    · cases h
      exact ⟨Finset.Subset.refl _, hx⟩
    · cases h
      exact ⟨Finset.subset_insert _ _, Finset.mem_insert_self _ _⟩
    · have hinsert : insert x seen ⊆ seen' :=
        foldlM_induction (P := fun s => insert x seen ⊆ s)
          (fun y _ s s' hs hrun => hs.trans (ih hrun).1) (Finset.Subset.refl _) h
      exact ⟨(Finset.subset_insert _ _).trans hinsert, hinsert (Finset.mem_insert_self _ _)⟩

theorem within_of_search {fuel : Nat} {levels : Option Nat} {seen seen' : Finset κ} {x c : κ}
    (h : search next fuel levels seen x = some seen') (hc : c ∈ seen') :
    c ∈ seen ∨ Within next levels x c := by
  induction fuel generalizing levels seen seen' x with
  | zero => cases h
  | succ fuel ih =>
    unfold search at h
    split_ifs at h with hx hlevels
    · cases h
      exact .inl hc
    · cases h
      rcases Finset.mem_insert.mp hc with rfl | hc
      · exact .inr .refl
      · exact .inl hc
    · apply foldlM_induction (P := fun s => c ∈ s → c ∈ seen ∨ Within next levels x c) _ _ h hc
      · intro y hy s s' hs hrun hc
        rcases ih hrun hc with hc | hc
        · exact hs hc
        · exact .inr (.step hlevels hy hc)
      · intro hc
        rcases Finset.mem_insert.mp hc with rfl | hc
        · exact .inr .refl
        · exact .inl hc

/-! ## Search without a limit -/

theorem closed_of_search {fuel : Nat} {seen seen' : Finset κ} {x : κ}
    (h : search next fuel none seen x = some seen') :
    ∀ c ∈ seen', c ∉ seen → ∀ y ∈ next c, y ∈ seen' := by
  induction fuel generalizing seen seen' x with
  | zero => cases h
  | succ fuel ih =>
    unfold search at h
    split_ifs at h with hx hnone
    · cases h
      exact fun c hc hnot => absurd hc hnot
    · exact hnone.elim
    -- The children of `x` are entered one after another, the others are new inside a child.
    have hclosed : ∀ c ∈ seen', c ∉ insert x seen → ∀ y ∈ next c, y ∈ seen' := by
      apply foldlM_induction
        (P := fun s => ∀ c ∈ s, c ∉ insert x seen → ∀ y ∈ next c, y ∈ s) _ _ h
      · intro z _ s s' hs hrun c hc hnot y hy
        by_cases hcs : c ∈ s
        · exact (subset_of_search hrun).1 (hs c hcs hnot y hy)
        · exact ih hrun c hc hcs y hy
      · exact fun c hc hnot => absurd hc hnot
    have hchildren : ∀ (children : List κ) (s s' : Finset κ),
        children.foldlM (search next fuel none) s = some s' → ∀ y ∈ children, y ∈ s' := by
      intro children
      induction children with
      | nil => exact fun s s' _ y hy => absurd hy List.not_mem_nil
      | cons z children ihchildren =>
        intro s s' hrun y hy
        rw [List.foldlM_cons] at hrun
        obtain ⟨t, ht, hrest⟩ := Option.bind_eq_some_iff.mp hrun
        rcases List.mem_cons.mp hy with rfl | hy
        · exact foldlM_induction (P := fun s => y ∈ s)
            (fun w _ s s' hs hrun => (subset_of_search hrun).1 hs) (subset_of_search ht).2 hrest
        · exact ihchildren t s' hrest y hy
    intro c hc hnot y hy
    by_cases hcx : c = x
    · subst hcx
      exact hchildren _ _ _ h y hy
    · exact hclosed c hc (fun hin => (Finset.mem_insert.mp hin).elim hcx hnot) y hy

/-- **Without a limit the search finds what can be reached.** -/
theorem search_reachable {fuel : Nat} {seen : Finset κ} {x : κ}
    (h : search next fuel none ∅ x = some seen) {c : κ} : c ∈ seen ↔ Within next none x c := by
  constructor
  · intro hc
    rcases within_of_search h hc with hc | hc
    · exact absurd hc (Finset.notMem_empty c)
    · exact hc
  · have hclosed := closed_of_search h
    have hfrom : ∀ levels y, Within next levels y c → levels = none → y ∈ seen → c ∈ seen := by
      intro levels y hwithin
      induction hwithin with
      | refl => exact fun _ hy => hy
      | step _ hstep _ ih =>
        intro hnone hy
        subst hnone
        exact ih rfl (hclosed _ hy (Finset.notMem_empty _) _ hstep)
    exact fun hc => hfrom none x hc rfl (subset_of_search h).2

/-! ## Search with a limit -/

variable (next) in
/-- The nodes met on paths that do not cross themselves, in the order of the search, each with the
steps that are left there. -/
def meetings : Nat → List κ → κ → List (κ × Nat)
  | 0, path, x => if x ∈ path then [] else [(x, 0)]
  | levels + 1, path, x =>
    if x ∈ path then []
    else (x, levels + 1) :: (next x).flatMap (meetings levels (x :: path))

/-- No node is met with more steps left than before. -/
def LevelsFall (met : List (κ × Nat)) : Prop :=
  met.Pairwise fun earlier later => earlier.1 = later.1 → later.2 ≤ earlier.2

instance (met : List (κ × Nat)) : Decidable (LevelsFall met) :=
  inferInstanceAs (Decidable (List.Pairwise _ met))

/-- `c` was met with at least `levels` steps left. -/
def Met (met : List (κ × Nat)) (c : κ) (levels : Nat) : Prop :=
  ∃ m, levels ≤ m ∧ (c, m) ∈ met

omit [DecidableEq κ] in
theorem Met.mono {met met' : List (κ × Nat)} {c : κ} {levels levels' : Nat}
    (h : Met met c levels) (hle : levels' ≤ levels) (hsub : met ⊆ met') : Met met' c levels' := by
  obtain ⟨m, hm, hmem⟩ := h
  exact ⟨m, hle.trans hm, hsub hmem⟩

variable (next) in
/-- The nodes seen are those met, and the children of one that is done were met with the steps left
to it; `path` leads to where the search is. -/
structure Covers (path : List κ) (seen : Finset κ) (met : List (κ × Nat)) : Prop where
  seen_iff : ∀ c, c ∈ seen ↔ Met met c 0
  children : ∀ c m, c ∉ path → (c, m + 1) ∈ met → ∀ y ∈ next c, Met met y m

/-- What lies behind a node that is done was met already. -/
theorem Covers.behind {path : List κ} {seen : Finset κ} {met : List (κ × Nat)}
    (h : Covers next path seen met) {levels : Nat} {walked : List κ} {x : κ}
    (hsub : path ⊆ walked) (hx : Met met x levels) {e : κ × Nat}
    (he : e ∈ meetings next levels walked x) : Met met e.1 e.2 := by
  induction levels generalizing walked x with
  | zero =>
    unfold meetings at he
    split_ifs at he with hwalked
    · cases he
    · rw [List.mem_singleton] at he
      subst he
      exact hx
  | succ levels ih =>
    unfold meetings at he
    split_ifs at he with hwalked
    · cases he
    rcases List.mem_cons.mp he with rfl | he
    · exact hx
    obtain ⟨y, hy, he⟩ := List.mem_flatMap.mp he
    have hwalk : path ⊆ x :: walked := fun a ha => List.mem_cons_of_mem x (hsub ha)
    apply ih hwalk _ he
    obtain ⟨m, hm, hmem⟩ := hx
    obtain ⟨m, rfl⟩ := Nat.exists_eq_add_of_lt (Nat.lt_of_lt_of_le (Nat.succ_pos levels) hm)
    rw [Nat.zero_add] at hm hmem
    have hchild := h.children x m (fun hpath => hwalked (hsub hpath)) hmem y hy
    exact hchild.mono (by omega) (fun _ => id)

omit [DecidableEq κ] in
theorem LevelsFall.left {met more : List (κ × Nat)} (h : LevelsFall (met ++ more)) :
    LevelsFall met :=
  (List.pairwise_append.mp h).1

omit [DecidableEq κ] in
theorem LevelsFall.le {met more : List (κ × Nat)} (h : LevelsFall (met ++ more)) {c : κ}
    {m m' : Nat} (hm : (c, m) ∈ met) (hm' : (c, m') ∈ more) : m' ≤ m :=
  (List.pairwise_append.mp h).2.2 _ hm _ hm' rfl

/-- A search covers what is met from its node on. -/
theorem Covers.search {fuel levels : Nat} {path : List κ} {seen seen' : Finset κ}
    {met : List (κ × Nat)} {x : κ} (h : Covers next path seen met)
    (hpath : ∀ p ∈ path, Met met p (levels + 1))
    (hfall : LevelsFall (met ++ meetings next levels path x))
    (hrun : search next fuel (some levels) seen x = some seen') :
    Covers next path seen' (met ++ meetings next levels path x) := by
  induction fuel generalizing levels path seen seen' met x with
  | zero => cases hrun
  | succ fuel ih =>
    unfold LevelSearch.search at hrun
    by_cases hxpath : x ∈ path
    · -- A node on the path was seen, and the path does not cross itself.
      obtain ⟨m, -, hmem⟩ := hpath x hxpath
      rw [if_pos ((h.seen_iff x).mpr ⟨m, Nat.zero_le m, hmem⟩)] at hrun
      cases hrun
      have hnil : meetings next levels path x = [] := by
        cases levels <;> exact if_pos hxpath
      rw [hnil, List.append_nil]
      exact h
    have hhead : (x, levels) ∈ meetings next levels path x := by
      cases levels <;> simp [meetings, hxpath]
    by_cases hx : x ∈ seen
    · -- All that lies behind a node that is done was met, since the levels fall.
      rw [if_pos hx] at hrun
      cases hrun
      obtain ⟨m, -, hmem⟩ := (h.seen_iff x).mp hx
      have hbehind : ∀ e ∈ meetings next levels path x, Met met e.1 e.2 := fun e he =>
        h.behind (fun _ => id) ⟨m, hfall.le hmem hhead, hmem⟩ he
      constructor
      · intro c
        rw [h.seen_iff]
        constructor
        · exact fun hc => hc.mono le_rfl (List.subset_append_left _ _)
        · rintro ⟨m, -, hmem⟩
          rcases List.mem_append.mp hmem with hmem | hmem
          · exact ⟨m, Nat.zero_le m, hmem⟩
          · exact (hbehind _ hmem).mono (Nat.zero_le _) (fun _ => id)
      · intro c m hc hmem y hy
        have hmet : Met met c (m + 1) := by
          rcases List.mem_append.mp hmem with hmem | hmem
          · exact ⟨m + 1, le_rfl, hmem⟩
          · exact hbehind _ hmem
        obtain ⟨m', hm', hmem'⟩ := hmet
        obtain ⟨m', rfl⟩ := Nat.exists_eq_add_of_lt (Nat.lt_of_lt_of_le (Nat.succ_pos m) hm')
        rw [Nat.zero_add] at hm' hmem'
        exact (h.children c m' hc hmem' y hy).mono (by omega) (List.subset_append_left _ _)
    rw [if_neg hx] at hrun
    have hfresh : ∀ m, (x, m) ∉ met := fun m hmem =>
      hx ((h.seen_iff x).mpr ⟨m, Nat.zero_le m, hmem⟩)
    -- Entering `x` puts it on the path.
    have henter : Covers next (x :: path) (insert x seen) (met ++ [(x, levels)]) := by
      constructor
      · intro c
        rw [Finset.mem_insert, h.seen_iff]
        constructor
        · rintro (rfl | hc)
          · exact ⟨levels, Nat.zero_le _, by simp⟩
          · exact hc.mono le_rfl (List.subset_append_left _ _)
        · rintro ⟨m, -, hmem⟩
          rcases List.mem_append.mp hmem with hmem | hmem
          · exact .inr ⟨m, Nat.zero_le m, hmem⟩
          · simp only [List.mem_singleton, Prod.mk.injEq] at hmem
            exact .inl hmem.1
      · intro c m hc hmem y hy
        rw [List.mem_cons, not_or] at hc
        rcases List.mem_append.mp hmem with hmem | hmem
        · exact (h.children c m hc.2 hmem y hy).mono le_rfl (List.subset_append_left _ _)
        · simp only [List.mem_singleton, Prod.mk.injEq] at hmem
          exact absurd hmem.1 hc.1
    cases levels with
    | zero =>
      rw [if_pos rfl] at hrun
      cases hrun
      have hsingle : meetings next 0 path x = [(x, 0)] := if_neg hxpath
      rw [hsingle]
      refine ⟨henter.seen_iff, fun c m hc hmem y hy => ?_⟩
      rcases List.mem_append.mp hmem with hmem | hmem
      · exact (h.children c m hc hmem y hy).mono le_rfl (List.subset_append_left _ _)
      · simp at hmem
    | succ levels =>
      rw [if_neg (by simp)] at hrun
      have hcons : meetings next (levels + 1) path x
          = (x, levels + 1) :: (next x).flatMap (meetings next levels (x :: path)) :=
        if_neg hxpath
      rw [hcons, List.append_cons] at hfall ⊢
      have hchildren : ∀ (children : List κ) (s : Finset κ) (met' : List (κ × Nat)),
          Covers next (x :: path) s met' → (∀ p ∈ x :: path, Met met' p (levels + 1)) →
          LevelsFall (met' ++ children.flatMap (meetings next levels (x :: path))) →
          children.foldlM (LevelSearch.search next fuel (some levels)) s = some seen' →
          Covers next (x :: path) seen'
            (met' ++ children.flatMap (meetings next levels (x :: path))) := by
        intro children
        induction children with
        | nil =>
          intro s met' hs _ _ hrun
          cases hrun
          rw [List.flatMap_nil, List.append_nil]
          exact hs
        | cons y children ihchildren =>
          intro s met' hs hpath' hfall' hrun
          rw [List.foldlM_cons] at hrun
          obtain ⟨t, ht, hrest⟩ := Option.bind_eq_some_iff.mp hrun
          rw [List.flatMap_cons, ← List.append_assoc] at hfall' ⊢
          have hone := ih hs hpath' hfall'.left ht
          exact ihchildren t _ hone
            (fun p hp => (hpath' p hp).mono le_rfl (List.subset_append_left _ _)) hfall' hrest
      have hentered : ∀ p ∈ x :: path, Met (met ++ [(x, levels + 1)]) p (levels + 1) := by
        intro p hp
        rcases List.mem_cons.mp hp with rfl | hp
        · exact ⟨levels + 1, le_rfl, by simp⟩
        · exact (hpath p hp).mono (by omega) (List.subset_append_left _ _)
      have hall := hchildren (next x) _ _ henter hentered hfall hrun
      refine ⟨hall.seen_iff, fun c m hc hmem y hy => ?_⟩
      by_cases hcx : c = x
      · -- `x` is done now: its children are on the path or were just met.
        subst hcx
        have hm : m ≤ levels := by
          rcases List.mem_append.mp hmem with hin | hin
          · rcases List.mem_append.mp hin with hin | hin
            · exact absurd hin (hfresh _)
            · simp only [List.mem_singleton, Prod.mk.injEq, true_and] at hin
              omega
          · have hle := hfall.le (List.mem_append_right met (List.mem_singleton_self _)) hin
            omega
        by_cases hypath : y ∈ c :: path
        · exact (hentered y hypath).mono (by omega) (List.subset_append_left _ _)
        · refine ⟨levels, hm, List.mem_append_right _ (List.mem_flatMap.mpr ⟨y, hy, ?_⟩)⟩
          cases levels <;> simp [meetings, hypath]
      · exact hall.children c m (fun hin => (List.mem_cons.mp hin).elim hcx hc) hmem y hy

/-- **A search with a limit finds all that is near enough if the steps left fall.** -/
theorem search_exact {fuel levels : Nat} {seen : Finset κ} {x : κ}
    (h : search next fuel (some levels) ∅ x = some seen)
    (hfall : LevelsFall (meetings next levels [] x)) {c : κ} :
    c ∈ seen ↔ Within next (some levels) x c := by
  constructor
  · intro hc
    rcases within_of_search h hc with hc | hc
    · exact absurd hc (Finset.notMem_empty c)
    · exact hc
  · have hempty : Covers next ([] : List κ) (∅ : Finset κ) [] := by
      constructor
      · intro c
        constructor
        · exact fun hc => absurd hc (Finset.notMem_empty c)
        · exact fun ⟨m, _, hmem⟩ => absurd hmem List.not_mem_nil
      · exact fun c m _ hmem => absurd hmem List.not_mem_nil
    have hcovers := hempty.search (fun p hp => absurd hp List.not_mem_nil) hfall h
    rw [List.nil_append] at hcovers
    have hfrom : ∀ limit y, Within next limit y c → ∀ l, limit = some l →
        Met (meetings next levels [] x) y l → c ∈ seen := by
      intro limit y hwithin
      induction hwithin with
      | refl => exact fun l _ hmet => (hcovers.seen_iff _).mpr (hmet.mono (Nat.zero_le l) fun _ => id)
      | step hlevels hstep _ ih =>
        intro l hl hmet
        subst hl
        cases l with
        | zero => exact absurd rfl hlevels
        | succ l =>
          obtain ⟨m, hm, hmem⟩ := hmet
          obtain ⟨m, rfl⟩ := Nat.exists_eq_add_of_lt (Nat.lt_of_lt_of_le (Nat.succ_pos l) hm)
          rw [Nat.zero_add] at hm hmem
          apply ih l rfl
          exact (hcovers.children _ m List.not_mem_nil hmem _ hstep).mono (by omega) fun _ => id
    intro hwithin
    apply hfrom (some levels) x hwithin levels rfl
    refine ⟨levels, le_rfl, ?_⟩
    cases levels <;> simp [meetings]

/-! ## The search ends -/

/-- With more fuel than there are nodes with children the search ends. -/
theorem search_isSome {live : Finset κ} (hlive : ∀ x, x ∉ live → next x = []) {fuel : Nat}
    {levels : Option Nat} {seen : Finset κ} {x : κ} (hfuel : (live \ seen).card + 1 < fuel) :
    (search next fuel levels seen x).isSome := by
  induction fuel generalizing levels seen x with
  | zero => omega
  | succ fuel ih =>
    unfold search
    split_ifs with hx hlevels
    · rfl
    · rfl
    by_cases hxlive : x ∈ live
    · have hcard : (live \ insert x seen).card < (live \ seen).card := by
        apply Finset.card_lt_card
        rw [Finset.ssubset_iff_of_subset
          (Finset.sdiff_subset_sdiff (Finset.Subset.refl _) (Finset.subset_insert x seen))]
        exact ⟨x, Finset.mem_sdiff.mpr ⟨hxlive, hx⟩, by simp⟩
      have hchildren : ∀ (children : List κ) (s : Finset κ), insert x seen ⊆ s →
          (children.foldlM (search next fuel (levels.map (· - 1))) s).isSome := by
        intro children
        induction children with
        | nil => exact fun s _ => rfl
        | cons y children ihchildren =>
          intro s hs
          have hle : (live \ s).card ≤ (live \ insert x seen).card :=
            Finset.card_le_card (Finset.sdiff_subset_sdiff (Finset.Subset.refl _) hs)
          have hsome : (search next fuel (levels.map (· - 1)) s y).isSome := ih (by omega)
          obtain ⟨t, ht⟩ := Option.isSome_iff_exists.mp hsome
          rw [List.foldlM_cons, ht]
          exact ihchildren t (hs.trans (subset_of_search ht).1)
      exact hchildren _ _ (Finset.Subset.refl _)
    · rw [hlive x hxlive]
      rfl

end Lib.LevelSearch
