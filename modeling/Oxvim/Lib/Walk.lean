import Mathlib

/-!
# Comparing graphs with a set of visited nodes

A walk decides whether every node that can be reached from a node is as it should be. Some nodes
have a key, a check of their own and a list of parts, a missing part counting as a failed check; the
other nodes are leaves. A node whose key was met before is taken for good: the keys are kept for the
whole walk and never given back.

The walk may be cut off by a limit on its depth (`tooDeep`), and it runs over fuel; a leaf may have
no answer. What is proved here: a walk that says yes has found every reachable node good
(`good_of_walk`), one that says no has found a bad one (`not_good_of_walk`), and with as much fuel
as there are keys it says something whenever the leaves do (`walk_isSome`).
-/

namespace Lib.Walk

universe u v w

variable {N : Type u} {K : Type v} {ε : Type w}

/-- A graph of nodes: the key of a node that is not a leaf, its own check, and its parts. -/
structure Keyed (N : Type u) (K : Type v) where
  key : N → Option K
  check : N → Bool
  parts : N → List (Option N)
  key_inj : ∀ x y k, key x = some k → key y = some k → x = y

/-- No answer for want of fuel, an error, or an answer with the keys met so far. -/
abbrev Outcome (K : Type v) (ε : Type w) := Option (Except ε (Bool × Finset K))

/-- One part after another, up to the first that is missing or not good. -/
def walkAll (visit : Finset K → N → Outcome K ε) : List (Option N) → Finset K → Outcome K ε
  | [], seen => some (.ok (true, seen))
  | none :: _, seen => some (.ok (false, seen))
  | some x :: parts, seen =>
    match visit seen x with
    | some (.ok (true, seen)) => walkAll visit parts seen
    | outcome => outcome

variable (g : Keyed N K) (leaf : N → Option Bool) (tooDeep : Nat → Option ε)

def walk [DecidableEq K] : (fuel depth : Nat) → (seen : Finset K) → N → Outcome K ε
  | 0, _, _, _ => none
  | fuel + 1, depth, seen, x =>
    match tooDeep depth with
    | some error => some (.error error)
    | none =>
      match g.key x with
      | none => (leaf x).map fun good => .ok (good, seen)
      | some key =>
        if key ∈ seen then some (.ok (true, seen))
        else if g.check x then walkAll (walk fuel (depth + 1)) (g.parts x) (insert key seen)
        else some (.ok (false, insert key seen))

/-! ## What is good -/

def Part (x y : N) : Prop :=
  (g.key x).isSome ∧ some y ∈ g.parts x

def Reach : N → N → Prop :=
  Relation.ReflTransGen (Part g)

/-- A node that shows nothing wrong by itself. -/
def Fine (x : N) : Prop :=
  if (g.key x).isSome then g.check x ∧ none ∉ g.parts x else leaf x = some true

def Good (x : N) : Prop :=
  ∀ y, Reach g x y → Fine g leaf y

variable {g leaf tooDeep}

theorem Good.part {x y : N} (h : Good g leaf x) (hpart : Part g x y) : Good g leaf y :=
  fun z hz => h z (.head hpart hz)

theorem Good.fine {x : N} (h : Good g leaf x) : Fine g leaf x :=
  h x .refl

/-! ## A walk that says yes -/

/-- Met before, or a good leaf. -/
def Settled (g : Keyed N K) (leaf : N → Option Bool) (seen : Finset K) (x : N) : Prop :=
  match g.key x with
  | some key => key ∈ seen
  | none => leaf x = some true

theorem Settled.mono {seen seen' : Finset K} (hsub : seen ⊆ seen') {x : N}
    (h : Settled g leaf seen x) : Settled g leaf seen' x := by
  unfold Settled at h ⊢
  split at h
  · exact hsub h
  · exact h

/-- A node whose check has passed and whose parts are settled. -/
def Explored (g : Keyed N K) (leaf : N → Option Bool) (seen : Finset K) (x : N) : Prop :=
  g.check x ∧ ∀ part ∈ g.parts x, ∃ y, part = some y ∧ Settled g leaf seen y

theorem Explored.mono {seen seen' : Finset K} (hsub : seen ⊆ seen') {x : N}
    (h : Explored g leaf seen x) : Explored g leaf seen' x := by
  refine ⟨h.1, ?_⟩
  intro part hpart
  obtain ⟨y, rfl, hy⟩ := h.2 part hpart
  exact ⟨y, rfl, hy.mono hsub⟩

/-- What a walk has added to the keys is explored. -/
structure Grown (g : Keyed N K) (leaf : N → Option Bool) (seen seen' : Finset K) : Prop where
  subset : seen ⊆ seen'
  explored : ∀ x key, g.key x = some key → key ∈ seen' → key ∉ seen → Explored g leaf seen' x

theorem Grown.refl (seen : Finset K) : Grown g leaf seen seen :=
  ⟨Finset.Subset.refl seen, fun _ _ _ hin hnot => absurd hin hnot⟩

theorem Grown.trans {seen seen' seen'' : Finset K} (h : Grown g leaf seen seen')
    (h' : Grown g leaf seen' seen'') : Grown g leaf seen seen'' := by
  refine ⟨h.subset.trans h'.subset, ?_⟩
  intro x key hkey hin hnot
  by_cases hmid : key ∈ seen'
  · exact (h.explored x key hkey hmid hnot).mono h'.subset
  · exact h'.explored x key hkey hin hmid

/-- When all parts are good the first one is. -/
theorem of_walkAll_cons {visit : Finset K → N → Outcome K ε} {x : N} {parts : List (Option N)}
    {seen seen' : Finset K} (h : walkAll visit (some x :: parts) seen = some (.ok (true, seen'))) :
    ∃ seen₁, visit seen x = some (.ok (true, seen₁)) ∧
      walkAll visit parts seen₁ = some (.ok (true, seen')) := by
  rw [walkAll] at h
  cases hx : visit seen x with
  | none =>
    rw [hx] at h
    cases h
  | some outcome =>
    rw [hx] at h
    cases outcome with
    | error error => cases h
    | ok answer =>
      obtain ⟨good, seen₁⟩ := answer
      cases good with
      | false => cases h
      | true => exact ⟨seen₁, rfl, h⟩

theorem grown_of_walkAll {visit : Finset K → N → Outcome K ε}
    (hvisit : ∀ seen x seen', visit seen x = some (.ok (true, seen')) →
      Grown g leaf seen seen' ∧ Settled g leaf seen' x)
    {parts : List (Option N)} {seen seen' : Finset K}
    (h : walkAll visit parts seen = some (.ok (true, seen'))) :
    Grown g leaf seen seen' ∧
      ∀ part ∈ parts, ∃ y, part = some y ∧ Settled g leaf seen' y := by
  induction parts generalizing seen with
  | nil =>
    cases h
    exact ⟨.refl _, by simp⟩
  | cons part parts ih =>
    cases part with
    | none => cases h
    | some x =>
      obtain ⟨seen₁, hx, hrest⟩ := of_walkAll_cons h
      obtain ⟨hgrown, hsettled⟩ := hvisit seen x seen₁ hx
      obtain ⟨hgrown', hparts⟩ := ih hrest
      refine ⟨hgrown.trans hgrown', ?_⟩
      intro part hpart
      rcases List.mem_cons.mp hpart with rfl | hpart
      · exact ⟨x, rfl, hsettled.mono hgrown'.subset⟩
      · exact hparts part hpart

variable [DecidableEq K]

theorem grown_of_walk {fuel depth : Nat} {seen seen' : Finset K} {x : N}
    (h : walk g leaf tooDeep fuel depth seen x = some (.ok (true, seen'))) :
    Grown g leaf seen seen' ∧ Settled g leaf seen' x := by
  induction fuel generalizing depth seen seen' x with
  | zero => cases h
  | succ fuel ih =>
    rw [walk] at h
    split at h
    · cases h
    split at h
    · next hkey =>
      obtain ⟨good, hleaf, heq⟩ := Option.map_eq_some_iff.mp h
      cases heq
      refine ⟨.refl _, ?_⟩
      unfold Settled
      rw [hkey]
      exact hleaf
    · next key hkey =>
      have hsettled : ∀ seen : Finset K, key ∈ seen → Settled g leaf seen x := by
        intro seen hin
        unfold Settled
        rw [hkey]
        exact hin
      split at h
      · next hin =>
        cases h
        exact ⟨.refl _, hsettled _ hin⟩
      · split at h
        · next hcheck =>
          obtain ⟨hgrown, hparts⟩ := grown_of_walkAll (fun seen x seen' => ih) h
          have hin : key ∈ seen' := hgrown.subset (Finset.mem_insert_self key seen)
          refine ⟨⟨(Finset.subset_insert key seen).trans hgrown.subset, ?_⟩, hsettled _ hin⟩
          intro y k hk hin' hnot
          by_cases hkk : k = key
          · -- the node itself: its parts were all found settled
            subst hkk
            obtain rfl := g.key_inj x y k hkey hk
            exact ⟨hcheck, hparts⟩
          · exact hgrown.explored y k hk hin' (by simp [hkk, hnot])
        · cases h

/-- A walk that says yes has settled whatever is reached. -/
theorem settled_of_walk {fuel depth : Nat} {seen : Finset K} {x : N}
    (h : walk g leaf tooDeep fuel depth ∅ x = some (.ok (true, seen))) {y : N} (hy : Reach g x y) :
    Settled g leaf seen y := by
  obtain ⟨hgrown, hsettled⟩ := grown_of_walk h
  induction hy with
  | refl => exact hsettled
  | @tail y z _ hpart ih =>
    obtain ⟨key, hkey⟩ := Option.isSome_iff_exists.mp hpart.1
    have hin : key ∈ seen := by
      unfold Settled at ih
      rw [hkey] at ih
      exact ih
    obtain ⟨z', hz', hzsettled⟩ :=
      (hgrown.explored y key hkey hin (Finset.notMem_empty key)).2 (some z) hpart.2
    obtain rfl := Option.some.inj hz'
    exact hzsettled

/-- **A walk that says yes has found nothing wrong anywhere.** -/
theorem good_of_walk {fuel depth : Nat} {seen : Finset K} {x : N}
    (h : walk g leaf tooDeep fuel depth ∅ x = some (.ok (true, seen))) : Good g leaf x := by
  obtain ⟨hgrown, -⟩ := grown_of_walk h
  intro y hy
  have hy' := settled_of_walk h hy
  unfold Settled at hy'
  unfold Fine
  split at hy'
  · next key hkey =>
    obtain ⟨hcheck, hparts⟩ := hgrown.explored y key hkey hy' (Finset.notMem_empty key)
    rw [if_pos (by rw [hkey]; rfl)]
    refine ⟨hcheck, ?_⟩
    intro hnone
    obtain ⟨z, hz, -⟩ := hparts none hnone
    cases hz
  · next hkey =>
    rw [if_neg (by simp [hkey])]
    exact hy'

omit [DecidableEq K] in
/-- Keys that parts add are those of nodes the parts reach. -/
theorem new_of_walkAll {visit : Finset K → N → Outcome K ε} {p : K → Prop}
    {parts : List (Option N)}
    (hvisit : ∀ x, some x ∈ parts → ∀ seen good seen', visit seen x = some (.ok (good, seen')) →
      ∀ key ∈ seen', key ∈ seen ∨ p key) {seen seen' : Finset K} {good : Bool}
    (h : walkAll visit parts seen = some (.ok (good, seen'))) :
    ∀ key ∈ seen', key ∈ seen ∨ p key := by
  induction parts generalizing seen with
  | nil =>
    cases h
    exact fun key hkey => .inl hkey
  | cons part parts ih =>
    cases part with
    | none =>
      cases h
      exact fun key hkey => .inl hkey
    | some x =>
      rw [walkAll] at h
      cases hx : visit seen x with
      | none =>
        rw [hx] at h
        cases h
      | some outcome =>
        rw [hx] at h
        cases outcome with
        | error error => cases h
        | ok answer =>
          obtain ⟨found, seen₁⟩ := answer
          have hhead := hvisit x (List.mem_cons_self ..) seen found seen₁ hx
          cases found with
          | false =>
            cases h
            exact hhead
          | true =>
            intro key hkey
            have hrest := ih (fun y hy => hvisit y (List.mem_cons_of_mem _ hy)) h key hkey
            rcases hrest with hin | hp
            · exact hhead key hin
            · exact .inr hp

/-- A walk adds only keys of nodes that it reaches. -/
theorem new_of_walk {fuel depth : Nat} {seen seen' : Finset K} {x : N} {good : Bool}
    (h : walk g leaf tooDeep fuel depth seen x = some (.ok (good, seen'))) :
    ∀ key ∈ seen', key ∈ seen ∨ ∃ y, Reach g x y ∧ g.key y = some key := by
  induction fuel generalizing depth seen seen' x good with
  | zero => cases h
  | succ fuel ih =>
    rw [walk] at h
    split at h
    · cases h
    split at h
    · obtain ⟨good', -, heq⟩ := Option.map_eq_some_iff.mp h
      cases heq
      exact fun key hkey => .inl hkey
    · next key hkey =>
      have hinsert : ∀ k ∈ insert key seen, k ∈ seen ∨ ∃ y, Reach g x y ∧ g.key y = some k := by
        intro k hk
        rcases Finset.mem_insert.mp hk with rfl | hk
        · exact .inr ⟨x, .refl, hkey⟩
        · exact .inl hk
      split at h
      · cases h
        exact fun key hkey => .inl hkey
      · split at h
        · have hparts : ∀ y, some y ∈ g.parts x → ∀ seen good seen',
              walk g leaf tooDeep fuel (depth + 1) seen y = some (.ok (good, seen')) →
                ∀ k ∈ seen', k ∈ seen ∨ ∃ z, Reach g x z ∧ g.key z = some k := by
            intro y hy seen good seen' hwalk k hk
            have hpart : Part g x y := ⟨by rw [hkey]; rfl, hy⟩
            rcases ih hwalk k hk with hin | ⟨z, hz, hzk⟩
            · exact .inl hin
            · exact .inr ⟨z, .head hpart hz, hzk⟩
          intro k hk
          rcases new_of_walkAll hparts h k hk with hin | hreached
          · exact hinsert k hin
          · exact .inr hreached
        · cases h
          exact hinsert

/-- **The keys met by a walk that says yes are those of the nodes that are reached.** -/
theorem mem_seen_iff {fuel depth : Nat} {seen : Finset K} {x : N}
    (h : walk g leaf tooDeep fuel depth ∅ x = some (.ok (true, seen))) {key : K} :
    key ∈ seen ↔ ∃ y, Reach g x y ∧ g.key y = some key := by
  constructor
  · intro hkey
    rcases new_of_walk h key hkey with hin | hreached
    · exact absurd hin (Finset.notMem_empty key)
    · exact hreached
  · intro hreached
    obtain ⟨y, hy, hkey⟩ := hreached
    have hsettled := settled_of_walk h hy
    unfold Settled at hsettled
    rw [hkey] at hsettled
    exact hsettled

/-! ## A walk that says no -/

omit [DecidableEq K] in
/-- When not all parts are good, one is missing or was found bad. -/
theorem bad_of_walkAll {visit : Finset K → N → Outcome K ε} {parts : List (Option N)}
    {seen seen' : Finset K} (h : walkAll visit parts seen = some (.ok (false, seen'))) :
    none ∈ parts ∨ ∃ x seen₁, some x ∈ parts ∧ visit seen₁ x = some (.ok (false, seen')) := by
  induction parts generalizing seen with
  | nil => cases h
  | cons part parts ih =>
    cases part with
    | none => exact .inl (List.mem_cons_self ..)
    | some x =>
      rw [walkAll] at h
      cases hx : visit seen x with
      | none =>
        rw [hx] at h
        cases h
      | some outcome =>
        rw [hx] at h
        cases outcome with
        | error error => cases h
        | ok answer =>
          obtain ⟨good, seen₁⟩ := answer
          cases good with
          | false =>
            cases h
            exact .inr ⟨x, seen, List.mem_cons_self .., hx⟩
          | true =>
            rcases ih h with hnone | ⟨y, seen₂, hy, hvisit⟩
            · exact .inl (List.mem_cons_of_mem _ hnone)
            · exact .inr ⟨y, seen₂, List.mem_cons_of_mem _ hy, hvisit⟩

/-- **A walk that says no has found something wrong.** -/
theorem not_good_of_walk {fuel depth : Nat} {seen seen' : Finset K} {x : N}
    (h : walk g leaf tooDeep fuel depth seen x = some (.ok (false, seen'))) :
    ¬Good g leaf x := by
  induction fuel generalizing depth seen seen' x with
  | zero => cases h
  | succ fuel ih =>
    intro hgood
    have hfine := hgood.fine
    rw [walk] at h
    split at h
    · cases h
    split at h
    · next hkey =>
      rw [Fine, hkey, if_neg (by simp)] at hfine
      rw [hfine] at h
      cases h
    · next key hkey =>
      rw [Fine, hkey, if_pos Option.isSome_some] at hfine
      split at h
      · cases h
      rw [if_pos hfine.1] at h
      rcases bad_of_walkAll h with hnone | ⟨y, seen₁, hy, hvisit⟩
      · exact hfine.2 hnone
      · exact ih hvisit (hgood.part ⟨by rw [hkey]; rfl, hy⟩)

/-! ## A walk that ends -/

omit [DecidableEq K] in
theorem walkAll_isSome {visit : Finset K → N → Outcome K ε} {parts : List (Option N)}
    {seen : Finset K}
    (hgrow : ∀ seen x seen', visit seen x = some (.ok (true, seen')) → seen ⊆ seen')
    (hvisit : ∀ x, some x ∈ parts → ∀ seen', seen ⊆ seen' → (visit seen' x).isSome) :
    (walkAll visit parts seen).isSome := by
  induction parts generalizing seen with
  | nil => rfl
  | cons part parts ih =>
    cases part with
    | none => rfl
    | some x =>
      obtain ⟨outcome, hx⟩ := Option.isSome_iff_exists.mp
        (hvisit x (List.mem_cons_self ..) seen (Finset.Subset.refl seen))
      rw [walkAll, hx]
      cases outcome with
      | error error => rfl
      | ok answer =>
        obtain ⟨good, seen₁⟩ := answer
        cases good with
        | false => rfl
        | true =>
          have hsub := hgrow seen x seen₁ hx
          exact ih fun y hy seen' hseen' =>
            hvisit y (List.mem_cons_of_mem _ hy) seen' (hsub.trans hseen')

/-- **A walk ends**: each step down meets a new key. -/
theorem walk_isSome [Fintype K] {fuel depth : Nat} {seen : Finset K} {x : N}
    (hleaf : ∀ y, Reach g x y → g.key y = none → (leaf y).isSome)
    (hfuel : (Finset.univ \ seen).card < fuel) :
    (walk g leaf tooDeep fuel depth seen x).isSome := by
  induction fuel generalizing depth seen x with
  | zero => exact absurd hfuel (Nat.not_lt_zero _)
  | succ fuel ih =>
    rw [walk]
    split
    · rfl
    split
    · next hkey =>
      rw [Option.isSome_map]
      exact hleaf x .refl hkey
    · next key hkey =>
      split
      · rfl
      next hnew =>
      split
      · have hless : (Finset.univ \ insert key seen).card < fuel := by
          have hlt : (Finset.univ \ insert key seen).card < (Finset.univ \ seen).card := by
            apply Finset.card_lt_card
            rw [Finset.ssubset_iff_of_subset
              (Finset.sdiff_subset_sdiff (Finset.Subset.refl _) (Finset.subset_insert key seen))]
            exact ⟨key, by simp [hnew], by simp⟩
          omega
        apply walkAll_isSome
        · intro seen₁ y seen₂ hy
          exact (grown_of_walk hy).1.subset
        · intro y hy seen₁ hsub
          have hpart : Part g x y := ⟨by rw [hkey]; rfl, hy⟩
          apply ih
          · exact fun z hz => hleaf z (.head hpart hz)
          · refine lt_of_le_of_lt (Finset.card_le_card ?_) hless
            exact Finset.sdiff_subset_sdiff (Finset.Subset.refl _) hsub
      · rfl

omit [DecidableEq K] in
theorem error_of_walkAll {visit : Finset K → N → Outcome K ε} {parts : List (Option N)}
    {seen : Finset K} {error : ε} (h : walkAll visit parts seen = some (.error error)) :
    ∃ x seen, some x ∈ parts ∧ visit seen x = some (.error error) := by
  induction parts generalizing seen with
  | nil => cases h
  | cons part parts ih =>
    cases part with
    | none => cases h
    | some x =>
      rw [walkAll] at h
      cases hx : visit seen x with
      | none =>
        rw [hx] at h
        cases h
      | some outcome =>
        rw [hx] at h
        cases outcome with
        | error error' =>
          cases h
          exact ⟨x, seen, List.mem_cons_self .., hx⟩
        | ok answer =>
          obtain ⟨good, seen₁⟩ := answer
          cases good with
          | false => cases h
          | true =>
            obtain ⟨y, seen₂, hy, hvisit⟩ := ih h
            exact ⟨y, seen₂, List.mem_cons_of_mem _ hy, hvisit⟩

/-- The only error is that of the limit. -/
theorem error_of_walk {fuel depth : Nat} {seen : Finset K} {x : N} {error : ε}
    (h : walk g leaf tooDeep fuel depth seen x = some (.error error)) :
    ∃ depth, tooDeep depth = some error := by
  induction fuel generalizing depth seen x with
  | zero => cases h
  | succ fuel ih =>
    rw [walk] at h
    split at h
    · next error' hdeep =>
      cases h
      exact ⟨depth, hdeep⟩
    split at h
    · obtain ⟨good, -, heq⟩ := Option.map_eq_some_iff.mp h
      cases heq
    · split at h
      · cases h
      split at h
      · obtain ⟨y, seen', -, hy⟩ := error_of_walkAll h
        exact ih hy
      · cases h

/-- **A walk decides whether a node is good**, unless it goes too deep. -/
theorem walk_decides [Fintype K] (tooDeep : Nat → Option ε) (depth : Nat) {fuel : Nat} {x : N}
    (hleaf : ∀ y, Reach g x y → g.key y = none → (leaf y).isSome)
    (hfuel : Fintype.card K < fuel) :
    (∃ error, walk g leaf tooDeep fuel depth ∅ x = some (.error error)) ∨
      ∃ good seen, walk g leaf tooDeep fuel depth ∅ x = some (.ok (good, seen)) ∧
        (good = true ↔ Good g leaf x) := by
  have hsome : (walk g leaf tooDeep fuel depth ∅ x).isSome :=
    walk_isSome hleaf (by rwa [Finset.sdiff_empty, Finset.card_univ])
  obtain ⟨outcome, houtcome⟩ := Option.isSome_iff_exists.mp hsome
  cases outcome with
  | error error => exact .inl ⟨error, houtcome⟩
  | ok answer =>
    obtain ⟨good, seen⟩ := answer
    refine .inr ⟨good, seen, houtcome, ?_⟩
    cases good with
    | true => exact ⟨fun _ => good_of_walk houtcome, fun _ => rfl⟩
    | false => exact ⟨fun h => absurd h Bool.false_ne_true,
        fun h => absurd h (not_good_of_walk houtcome)⟩

/-! ## A walk within its limit -/

/-- Every path of steps from a node has fewer than `n` steps. -/
def Shallow {N : Type u} (step : N → N → Prop) : Nat → N → Prop
  | 0, _ => False
  | n + 1, x => ∀ y, step x y → Shallow step n y

omit [DecidableEq K] in
/-- Steps that are steps of another graph make no longer paths. -/
theorem Shallow.of_step {M : Type u} {step : N → N → Prop} {step' : M → M → Prop} {f : N → M}
    (hstep : ∀ x y, step x y → step' (f x) (f y)) {n : Nat} {x : N} (h : Shallow step' n (f x)) :
    Shallow step n x := by
  induction n generalizing x with
  | zero => exact h.elim
  | succ n ih => exact fun y hy => ih (h _ (hstep x y hy))

omit [DecidableEq K] in
theorem Shallow.acc {step : N → N → Prop} {n : Nat} {x : N} (h : Shallow step n x) :
    Acc (fun y x => step x y) x := by
  induction n generalizing x with
  | zero => exact h.elim
  | succ n ih => exact .intro x fun y hy => ih (h y hy)

/-- **A walk that stays within its limit meets no error.** -/
theorem walk_ne_error {fuel depth n : Nat} {seen : Finset K} {x : N}
    (hshallow : Shallow (Part g) n x) (hlimit : ∀ k < n, tooDeep (depth + k) = none) (error : ε) :
    walk g leaf tooDeep fuel depth seen x ≠ some (.error error) := by
  induction fuel generalizing depth n seen x with
  | zero =>
    intro h
    cases h
  | succ fuel ih =>
    cases n with
    | zero => exact hshallow.elim
    | succ n =>
      intro h
      have hhere : tooDeep depth = none := hlimit 0 n.succ_pos
      rw [walk, hhere] at h
      dsimp only at h
      split at h
      · obtain ⟨good, -, heq⟩ := Option.map_eq_some_iff.mp h
        cases heq
      · next key hkey =>
        split at h
        · cases h
        split at h
        · obtain ⟨y, seen', hy, hvisit⟩ := error_of_walkAll h
          have hpart : Part g x y := ⟨by rw [hkey]; rfl, hy⟩
          have hbelow : ∀ k < n, tooDeep (depth + 1 + k) = none := by
            intro k hk
            rw [Nat.add_right_comm]
            exact hlimit (k + 1) (Nat.succ_lt_succ hk)
          exact ih (hshallow y hpart) hbelow hvisit
        · cases h

omit [DecidableEq K] in
/-- Only finitely many nodes are reached where there are finitely many keys. -/
theorem finite_reach [Finite K] (x : N) : {y | Reach g x y}.Finite := by
  have hparts : ∀ k : K, {y | ∃ z, g.key z = some k ∧ some y ∈ g.parts z}.Finite := by
    intro k
    by_cases hz : ∃ z, g.key z = some k
    · obtain ⟨z, hz⟩ := hz
      apply ((g.parts z).finite_toSet.preimage (Option.some_injective N).injOn).subset
      intro y hy
      obtain ⟨z', hz', hy⟩ := hy
      obtain rfl := g.key_inj z z' k hz hz'
      exact hy
    · refine Set.finite_empty.subset ?_
      intro y hy
      obtain ⟨z, hkey, -⟩ := hy
      exact absurd ⟨z, hkey⟩ hz
  apply ((Set.finite_singleton x).union (Set.finite_iUnion hparts)).subset
  intro y hy
  rcases Relation.ReflTransGen.cases_tail hy with rfl | ⟨z, -, hpart⟩
  · exact .inl rfl
  · obtain ⟨k, hk⟩ := Option.isSome_iff_exists.mp hpart.1
    exact .inr (Set.mem_iUnion.mpr ⟨k, z, hk, hpart.2⟩)

end Lib.Walk
