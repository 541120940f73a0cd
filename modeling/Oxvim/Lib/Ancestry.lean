import Mathlib

/-!
# Ancestry in a forest of parent links

A partial map `parents` says of each present node whether it is a top (`some none`) or which node it
hangs below (`some (some p)`). Following the links from a node spells its *lineage*, the list from the
node up to its top. A node lies under every node of its lineage and under no other, so the lineage is
what a loop over the ancestors visits; it repeats nothing, so such a loop needs no more steps than
there are nodes.

A `Hierarchy` is a map whose links all lead to one top. It survives a new leaf and the removal of
everything under a node.
-/

namespace Lib

universe u

variable {α : Type u} {parents parents' : α → Option (Option α)} {a b c : α} {l l' : List α}

/-- `a` hangs below `p`. -/
def HangsBelow (parents : α → Option (Option α)) (a p : α) : Prop :=
  parents a = some (some p)

/-- `a` is `b` or one of its descendants. -/
def Under (parents : α → Option (Option α)) : α → α → Prop :=
  Relation.ReflTransGen (HangsBelow parents)

/-- The nodes from `a` up to its top. -/
inductive Lineage (parents : α → Option (Option α)) : α → List α → Prop
  | top {a : α} : parents a = some none → Lineage parents a [a]
  | link {a p : α} {l : List α} :
      parents a = some (some p) → Lineage parents p l → Lineage parents a (a :: l)

namespace Lineage

theorem mem_self (h : Lineage parents a l) : a ∈ l := by
  cases h <;> simp

theorem unique (h : Lineage parents a l) (h' : Lineage parents a l') : l = l' := by
  induction h generalizing l' with
  | top ha =>
    cases h' with
    | top => rfl
    | link hp =>
      rw [ha] at hp
      cases hp
  | link ha _ ih =>
    cases h' with
    | top hp =>
      rw [ha] at hp
      cases hp
    | link hp h' =>
      rw [ha] at hp
      cases hp
      rw [ih h']

/-- The lineage of an ancestor is a suffix. -/
theorem suffix (h : Lineage parents a l) (hb : b ∈ l) : ∃ l', Lineage parents b l' ∧ l' <:+ l := by
  induction h with
  | top ha =>
    rw [List.mem_singleton.mp hb]
    exact ⟨_, .top ha, List.suffix_rfl⟩
  | @link a p l ha hl ih =>
    rcases List.mem_cons.mp hb with rfl | hb
    · exact ⟨_, .link ha hl, List.suffix_rfl⟩
    · obtain ⟨l', hl', hsuffix⟩ := ih hb
      exact ⟨l', hl', hsuffix.trans (List.suffix_cons a l)⟩

theorem nodup (h : Lineage parents a l) : l.Nodup := by
  induction h with
  | top => simp
  | @link a p l ha hl ih =>
    refine List.nodup_cons.mpr ⟨?_, ih⟩
    intro hmem
    -- the lineage would be a proper suffix of itself
    obtain ⟨l', hl', hsuffix⟩ := hl.suffix hmem
    have hlen := hsuffix.length_le
    rw [hl'.unique (.link ha hl), List.length_cons] at hlen
    omega

theorem present (h : Lineage parents a l) (hb : b ∈ l) : (parents b).isSome := by
  obtain ⟨l', hl', -⟩ := h.suffix hb
  cases hl' with
  | top hb => simp [hb]
  | link hb => simp [hb]

theorem congr (h : Lineage parents a l) (hsame : ∀ b ∈ l, parents' b = parents b) :
    Lineage parents' a l := by
  induction h with
  | top ha => exact .top ((hsame _ (by simp)).trans ha)
  | link ha _ ih =>
    apply Lineage.link ((hsame _ (by simp)).trans ha)
    apply ih
    intro b hb
    exact hsame b (by simp [hb])

/-- The lineage holds exactly what the node lies under. -/
theorem mem_iff (h : Lineage parents a l) : b ∈ l ↔ Under parents a b := by
  constructor
  · intro hb
    induction h with
    | top =>
      rw [List.mem_singleton.mp hb]
      exact .refl
    | link ha _ ih =>
      rcases List.mem_cons.mp hb with rfl | hb
      · exact .refl
      · exact .head ha (ih hb)
  · intro hunder
    induction hunder using Relation.ReflTransGen.head_induction_on generalizing l with
    | refl => exact h.mem_self
    | head hstep _ ih =>
      cases h with
      | top ha =>
        rw [HangsBelow, ha] at hstep
        cases hstep
      | link ha hl =>
        rw [HangsBelow, ha] at hstep
        cases hstep
        exact List.mem_cons_of_mem _ (ih hl)

/-- A walk along a lineage visits no more nodes than there are. -/
theorem length_le [DecidableEq α] {nodes : List α} (h : Lineage parents a l)
    (hnodes : ∀ b, (parents b).isSome → b ∈ nodes) : l.length ≤ nodes.length :=
  (h.nodup.subperm fun _ hb => hnodes _ (h.present hb)).length_le

end Lineage

/-! ## One top for all -/

/-- Every node has a lineage, and they all end at `root`. -/
structure Hierarchy (parents : α → Option (Option α)) (root : α) : Prop where
  top : parents root = some none
  lineage : ∀ a, (parents a).isSome → ∃ l, Lineage parents a l ∧ root ∈ l

namespace Hierarchy

variable {root : α}

/-- What lies above a present node is present. -/
theorem present (h : Hierarchy parents root) (ha : (parents a).isSome) (hunder : Under parents a b) :
    (parents b).isSome := by
  obtain ⟨l, hl, -⟩ := h.lineage a ha
  exact hl.present (hl.mem_iff.mpr hunder)

theorem under_root (h : Hierarchy parents root) (ha : (parents a).isSome) :
    Under parents a root := by
  obtain ⟨l, hl, hroot⟩ := h.lineage a ha
  exact hl.mem_iff.mp hroot

/-- Two ancestors of one node lie under one another. -/
theorem under_total (h : Hierarchy parents root) (hc : (parents c).isSome)
    (ha : Under parents c a) (hb : Under parents c b) : Under parents a b ∨ Under parents b a := by
  obtain ⟨l, hl, -⟩ := h.lineage c hc
  obtain ⟨la, hla, hsa⟩ := hl.suffix (hl.mem_iff.mpr ha)
  obtain ⟨lb, hlb, hsb⟩ := hl.suffix (hl.mem_iff.mpr hb)
  rcases List.suffix_or_suffix_of_suffix hsa hsb with hsub | hsub
  · exact .inr (hlb.mem_iff.mp (hsub.subset hla.mem_self))
  · exact .inl (hla.mem_iff.mp (hsub.subset hlb.mem_self))

/-- Only the root is a top, so nothing else lies above it. -/
theorem eq_root (h : Hierarchy parents root) (hunder : Under parents root a) : a = root := by
  have hroot : Lineage parents root [root] := .top h.top
  exact List.mem_singleton.mp (hroot.mem_iff.mpr hunder)

section Edits

variable [DecidableEq α]

/-- A new leaf leaves every other lineage as it was. -/
theorem insert (h : Hierarchy parents root) (hnew : parents a = none) (hp : (parents b).isSome) :
    Hierarchy (Function.update parents a (some (some b))) root := by
  have hkeep : ∀ {c l}, Lineage parents c l →
      Lineage (Function.update parents a (some (some b))) c l := by
    intro c l hl
    apply hl.congr
    intro d hd
    apply Function.update_of_ne
    rintro rfl
    have := hl.present hd
    rw [hnew] at this
    cases this
  constructor
  case top =>
    rw [Function.update_of_ne, h.top]
    rintro rfl
    rw [h.top] at hnew
    cases hnew
  case lineage =>
    intro c hc
    by_cases hca : c = a
    · subst hca
      obtain ⟨l, hl, hroot⟩ := h.lineage b hp
      exact ⟨c :: l, .link (Function.update_self ..) (hkeep hl), List.mem_cons_of_mem _ hroot⟩
    · rw [Function.update_of_ne hca] at hc
      obtain ⟨l, hl, hroot⟩ := h.lineage c hc
      exact ⟨l, hkeep hl, hroot⟩

/-- A new leaf lies under its parent's ancestors, and changes nothing among the others. -/
theorem under_insert (h : Hierarchy parents root) (hnew : parents a = none)
    (hc : (parents c).isSome) {d : α} :
    Under (Function.update parents a (some (some b))) c d ↔ Under parents c d := by
  obtain ⟨l, hl, -⟩ := h.lineage c hc
  have hl' : Lineage (Function.update parents a (some (some b))) c l := by
    apply hl.congr
    intro d hd
    apply Function.update_of_ne
    rintro rfl
    have := hl.present hd
    rw [hnew] at this
    cases this
  rw [← hl'.mem_iff, hl.mem_iff]

end Edits

/-- Taking a node away with everything under it leaves the other lineages as they were. -/
theorem prune (h : Hierarchy parents root) (ha : a ≠ root)
    (hgone : ∀ b, Under parents b a → parents' b = none)
    (hkept : ∀ b, ¬Under parents b a → parents' b = parents b) :
    Hierarchy parents' root ∧
      ∀ c, ¬Under parents c a → (parents c).isSome → ∀ d, Under parents' c d ↔ Under parents c d := by
  have hkeep : ∀ {c l}, ¬Under parents c a → Lineage parents c l → Lineage parents' c l := by
    intro c l hc hl
    apply hl.congr
    intro d hd
    apply hkept
    intro hda
    exact hc ((hl.mem_iff.mp hd).trans hda)
  refine ⟨⟨?_, ?_⟩, ?_⟩
  · rw [hkept root fun hunder => ha (h.eq_root hunder), h.top]
  · intro c hc
    by_cases hca : Under parents c a
    · rw [hgone c hca] at hc
      cases hc
    · rw [hkept c hca] at hc
      obtain ⟨l, hl, hroot⟩ := h.lineage c hc
      exact ⟨l, hkeep hca hl, hroot⟩
  · intro c hca hc d
    obtain ⟨l, hl, -⟩ := h.lineage c hc
    rw [← (hkeep hca hl).mem_iff, hl.mem_iff]

end Hierarchy

end Lib
