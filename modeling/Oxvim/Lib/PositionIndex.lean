import Mathlib

/-!
# Inverse indexes

A store that keeps elements by identifier and looks them up by position keeps an index next to it:
for every position the set of the identifiers that are there, and no empty sets. `Indexes idx f`
says that `idx` is the index of the placement `f`, which gives each identifier its position.

The index is kept by `insertAt` and `removeAt`; a list of moves that leads from one placement to
another (`Moves`) may be made move by move, or the index may be built anew (`indexes_build`). `entriesIn` reads it in the order of position and identifier.
-/

namespace Lib

universe u v

/-- For every position the identifiers placed there. -/
abbrev PositionIndex (κ : Type u) (ι : Type v) [Ord κ] [Ord ι] : Type (max u v) :=
  Std.ExtTreeMap κ (Std.ExtTreeSet ι compare) compare

namespace PositionIndex

/-! ## Placements and moves -/

section

variable {κ : Type u} {ι : Type v} [DecidableEq ι] {f f' : ι → Option κ}

/-- The moves `(i, old, new)` lead from one placement to another. -/
def Moves (f : ι → Option κ) : List (ι × κ × κ) → (ι → Option κ) → Prop
  | [], f' => ∀ i, f' i = f i
  | (i, old, new) :: moves, f' => f i = some old ∧ Moves (Function.update f i (some new)) moves f'

theorem Moves.snoc {moves : List (ι × κ × κ)} {i : ι}
    {old new : κ} (h : Moves f moves f') (hold : f' i = some old) :
    Moves f (moves ++ [(i, old, new)]) (Function.update f' i (some new)) := by
  induction moves generalizing f with
  | nil =>
    obtain rfl : f' = f := funext h
    exact ⟨hold, fun _ => rfl⟩
  | cons m moves ih => exact ⟨h.1, ih h.2⟩

/-- Moves of different identifiers may be made in any order. -/
theorem moves_of_nodup {moves : List (ι × κ × κ)}
    (hnodup : (moves.map (·.1)).Nodup) (hold : ∀ m ∈ moves, f m.1 = some m.2.1)
    (hnew : ∀ m ∈ moves, f' m.1 = some m.2.2) (hother : ∀ i, i ∉ moves.map (·.1) → f' i = f i) :
    Moves f moves f' := by
  induction moves generalizing f with
  | nil => exact fun i => hother i (by simp)
  | cons m moves ih =>
    obtain ⟨hm, hnodup⟩ := List.nodup_cons.mp hnodup
    refine ⟨hold m (by simp), ih hnodup (fun n hn => ?_) (fun n hn => hnew n (by simp [hn])) ?_⟩
    · have hne : n.1 ≠ m.1 := fun heq => hm (List.mem_map.mpr ⟨n, hn, heq⟩)
      rw [Function.update_of_ne hne]
      exact hold n (by simp [hn])
    · intro i hi
      by_cases him : i = m.1
      · subst him
        rw [Function.update_self]
        exact hnew m (by simp)
      · rw [Function.update_of_ne him]
        exact hother i (by simpa [him] using hi)

end

/-! ## The index -/

variable {κ : Type u} {ι : Type v} [LinearOrder κ] [Ord ι] [Std.TransOrd ι]

def insertAt (idx : PositionIndex κ ι) (k : κ) (i : ι) : PositionIndex κ ι :=
  idx.insert k ((idx[k]?.getD ∅).insert i)

def removeAt (idx : PositionIndex κ ι) (k : κ) (i : ι) : PositionIndex κ ι :=
  match idx[k]? with
  | none => idx
  | some ids => if (ids.erase i).isEmpty then idx.erase k else idx.insert k (ids.erase i)

def moveAt (idx : PositionIndex κ ι) (old new : κ) (i : ι) : PositionIndex κ ι :=
  (idx.removeAt old i).insertAt new i

/-- The index of a list of placed identifiers. -/
def build (placed : List (ι × κ)) : PositionIndex κ ι :=
  placed.foldl (fun idx p => idx.insertAt p.2 p.1) ∅

/-- The identifiers between two positions, by position and identifier. -/
def entriesIn (idx : PositionIndex κ ι) (lower upper : κ) : List (κ × ι) :=
  (idx.toList.filter fun p => lower ≤ p.1 ∧ p.1 ≤ upper).flatMap fun p =>
    p.2.toList.map fun i => (p.1, i)

/-- The index has `i` at position `k`. -/
def Holds (idx : PositionIndex κ ι) (k : κ) (i : ι) : Prop :=
  ∃ ids : Std.ExtTreeSet ι compare, idx[k]? = some ids ∧ i ∈ ids

/-- `idx` is the index of the placement `f`. -/
structure Indexes (idx : PositionIndex κ ι) (f : ι → Option κ) : Prop where
  holds : ∀ k i, idx.Holds k i ↔ f i = some k
  nonempty : ∀ (k : κ) (ids : Std.ExtTreeSet ι compare), idx[k]? = some ids → ids.isEmpty = false

variable {idx idx' : PositionIndex κ ι} {f : ι → Option κ} {k : κ} {i : ι}

namespace Indexes

theorem empty : Indexes (∅ : PositionIndex κ ι) fun _ => none where
  holds k i := by simp [Holds]
  nonempty k ids h := by simp at h

theorem congr {f' : ι → Option κ} (h : Indexes idx f) (hf : ∀ i, f' i = f i) : Indexes idx f' :=
  (funext hf : f' = f) ▸ h

end Indexes

/-! ## One entry -/

theorem isEmpty_insert (ids : Std.ExtTreeSet ι compare) (i : ι) : (ids.insert i).isEmpty = false :=
  Std.ExtTreeSet.isEmpty_eq_false_iff.mpr fun h =>
    Std.ExtTreeSet.not_mem_empty (h ▸ Std.ExtTreeSet.mem_insert_self)

section

variable [Std.LawfulEqOrd ι]

theorem holds_insertAt {k' : κ} {i' : ι} :
    (idx.insertAt k i).Holds k' i' ↔ (k' = k ∧ i' = i) ∨ idx.Holds k' i' := by
  unfold Holds insertAt
  rw [Std.ExtTreeMap.getElem?_insert]
  by_cases hk : k = k'
  · subst hk
    have hget : i' ∈ idx[k]?.getD ∅
        ↔ ∃ ids : Std.ExtTreeSet ι compare, idx[k]? = some ids ∧ i' ∈ ids := by
      cases idx[k]? <;> simp
    simp only [Std.compare_self, if_true, Option.some.injEq, exists_eq_left',
      Std.ExtTreeSet.mem_insert, Std.LawfulEqCmp.compare_eq_iff_eq, hget, true_and]
    exact or_congr_left eq_comm
  · rw [if_neg (by simpa using hk)]
    simp [Ne.symm hk]

theorem getElem?_removeAt {k' : κ} : (idx.removeAt k i)[k']? = if k = k' then
    idx[k]?.bind fun ids => if (ids.erase i).isEmpty then none else some (ids.erase i)
    else idx[k']? := by
  unfold removeAt
  by_cases hk : k = k'
  · subst hk
    cases hget : idx[k]? with
    | none => simp [hget]
    | some ids =>
      simp only [if_true, Option.bind_some]
      split
      · simp
      · simp
  · rw [if_neg hk]
    cases hget : idx[k]? with
    | none => rfl
    | some ids =>
      simp only
      split
      · rw [Std.ExtTreeMap.getElem?_erase, if_neg (by simpa using hk)]
      · rw [Std.ExtTreeMap.getElem?_insert, if_neg (by simpa using hk)]

theorem holds_removeAt {k' : κ} {i' : ι} :
    (idx.removeAt k i).Holds k' i' ↔ ¬ (k' = k ∧ i' = i) ∧ idx.Holds k' i' := by
  unfold Holds
  rw [getElem?_removeAt]
  by_cases hk : k = k'
  · subst hk
    rw [if_pos rfl]
    cases hget : idx[k]? with
    | none => simp
    | some ids =>
      have hempty : (ids.erase i).isEmpty = true → i' ∉ ids.erase i := by
        intro he
        rw [Std.ExtTreeSet.isEmpty_iff.mp he]
        simp
      have hmem : i' ∈ ids.erase i ↔ i' ≠ i ∧ i' ∈ ids := by
        rw [Std.ExtTreeSet.mem_erase]
        rw [ne_eq, Std.LawfulEqCmp.compare_eq_iff_eq, ne_eq, eq_comm]
      simp only [Option.bind_some, Option.some.injEq, exists_eq_left', true_and]
      rw [← hmem]
      split
      · next he => simpa using hempty he
      · simp
  · rw [if_neg hk]
    simp [Ne.symm hk]

namespace Indexes

/-- The index of a placement is unique. -/
theorem unique (h : Indexes idx f) (h' : Indexes idx' f) : idx = idx' := by
  have hsub : ∀ {a b : PositionIndex κ ι}, Indexes a f → Indexes b f → ∀ (k : κ) ids,
      a[k]? = some ids → b[k]? = some ids := by
    intro a b ha hb k ids hk
    have hmem : ∀ i, i ∈ ids ↔ b.Holds k i := by
      intro i
      rw [hb.holds, ← ha.holds]
      exact ⟨fun hi => ⟨ids, hk, hi⟩, fun ⟨ids', hk', hi⟩ => by simp_all⟩
    obtain ⟨i, hi⟩ : ∃ i, i ∈ ids := by
      have hne := ha.nonempty k ids hk
      by_contra hnone
      have : ids.toList = [] := List.eq_nil_iff_forall_not_mem.mpr fun i hi =>
        hnone ⟨i, Std.ExtTreeSet.mem_toList.mp hi⟩
      rw [Std.ExtTreeSet.toList_eq_nil_iff] at this
      simp [this] at hne
    obtain ⟨ids', hk', -⟩ := (hmem i).mp hi
    rw [hk', Option.some.injEq]
    refine Std.ExtTreeSet.ext_mem fun j => ?_
    rw [hmem j]
    exact ⟨fun hj => ⟨ids', hk', hj⟩, fun ⟨ids'', hk'', hj⟩ => by simp_all⟩
  refine Std.ExtTreeMap.ext_getElem? fun k => ?_
  cases hk : idx[k]? with
  | some ids => exact (hsub h h' k ids hk).symm
  | none =>
    cases hk' : idx'[k]? with
    | none => rfl
    | some ids => rw [hsub h' h k ids hk'] at hk; cases hk

variable [DecidableEq ι]

theorem insertAt (h : Indexes idx f) (hi : f i = none) :
    Indexes (idx.insertAt k i) (Function.update f i (some k)) where
  holds k' i' := by
    rw [holds_insertAt, h.holds]
    by_cases hii : i' = i
    · subst hii
      simp [hi, eq_comm]
    · simp [hii]
  nonempty k' ids hk' := by
    unfold PositionIndex.insertAt at hk'
    rw [Std.ExtTreeMap.getElem?_insert] at hk'
    split at hk'
    · cases hk'
      exact isEmpty_insert _ _
    · exact h.nonempty k' ids hk'

theorem removeAt (h : Indexes idx f) (hi : f i = some k) :
    Indexes (idx.removeAt k i) (Function.update f i none) where
  holds k' i' := by
    rw [holds_removeAt, h.holds]
    by_cases hii : i' = i
    · subst hii
      simp [hi, eq_comm]
    · simp [hii]
  nonempty k' ids hk' := by
    rw [getElem?_removeAt] at hk'
    split at hk'
    · obtain ⟨ids', -, hids⟩ := Option.bind_eq_some_iff.mp hk'
      split at hids
      · cases hids
      · next he =>
        cases hids
        simpa using he
    · exact h.nonempty k' ids hk'

/-- An identifier is moved from the position where it was. -/
theorem moveAt {k' : κ} (h : Indexes idx f) (hi : f i = some k) :
    Indexes (idx.moveAt k k' i) (Function.update f i (some k')) := by
  have := (h.removeAt hi).insertAt (k := k') (i := i) (by simp)
  rwa [Function.update_idem] at this

end Indexes

/-! ## Building -/

/-- Where a list of placed identifiers puts `i`. -/
def placement [DecidableEq ι] (placed : List (ι × κ)) (i : ι) : Option κ :=
  (placed.find? fun p => p.1 = i).map (·.2)

theorem indexes_build [DecidableEq ι] {placed : List (ι × κ)}
    (h : (placed.map (·.1)).Nodup) : Indexes (build placed) (placement placed) := by
  have key : ∀ (rest : List (ι × κ)) (idx : PositionIndex κ ι) (f : ι → Option κ),
      Indexes idx f → (rest.map (·.1)).Nodup → (∀ p ∈ rest, f p.1 = none) →
      Indexes (rest.foldl (fun idx p => idx.insertAt p.2 p.1) idx)
        (fun i => (placement rest i).or (f i)) := by
    intro rest
    induction rest with
    | nil =>
      intro idx f h _ _
      exact h.congr fun i => by simp [placement]
    | cons p rest ih =>
      intro idx f h hnodup hnone
      obtain ⟨hp, hnodup⟩ := List.nodup_cons.mp hnodup
      have hstep := h.insertAt (k := p.2) (hnone p (by simp))
      refine (ih _ _ hstep hnodup fun q hq => ?_).congr fun i => ?_
      · have hqp : q.1 ≠ p.1 := fun heq => hp (List.mem_map.mpr ⟨q, hq, heq⟩)
        rw [Function.update_of_ne hqp]
        exact hnone q (by simp [hq])
      · by_cases hi : p.1 = i
        · have hnot : placement rest i = none := by
            rw [placement, Option.map_eq_none_iff, List.find?_eq_none]
            intro q hq hqi
            exact hp (List.mem_map.mpr ⟨q, hq, (of_decide_eq_true hqi).trans hi.symm⟩)
          rw [hnot, ← hi]
          simp [placement]
        · rw [Function.update_of_ne (Ne.symm hi)]
          simp [placement, hi]
  exact (key placed ∅ _ .empty h fun _ _ => rfl).congr fun i => by simp

/-! ## Making moves -/

theorem indexes_foldl_moveAt [DecidableEq ι] {f' : ι → Option κ} {moves : List (ι × κ × κ)}
    (h : Indexes idx f) (hmoves : Moves f moves f') :
    Indexes (moves.foldl (fun idx m => idx.moveAt m.2.1 m.2.2 m.1) idx) f' := by
  induction moves generalizing idx f with
  | nil => exact h.congr hmoves
  | cons m moves ih =>
    obtain ⟨hold, hmoves⟩ := hmoves
    exact ih (h.moveAt hold) hmoves

/-! ## Reading in order -/

theorem mem_entriesIn {lower upper : κ} {p : κ × ι} :
    p ∈ idx.entriesIn lower upper ↔ idx.Holds p.1 p.2 ∧ lower ≤ p.1 ∧ p.1 ≤ upper := by
  obtain ⟨k, i⟩ := p
  simp only [entriesIn, List.mem_flatMap, List.mem_filter, List.mem_map, Prod.mk.injEq,
    Std.ExtTreeSet.mem_toList, decide_eq_true_eq, Holds]
  constructor
  · rintro ⟨⟨k', ids⟩, ⟨hmem, hbounds⟩, j, hj, rfl, rfl⟩
    exact ⟨⟨ids, Std.ExtTreeMap.mem_toList_iff_getElem?_eq_some.mp hmem, hj⟩, hbounds⟩
  · rintro ⟨⟨ids, hk, hi⟩, hbounds⟩
    exact ⟨(k, ids), ⟨Std.ExtTreeMap.mem_toList_iff_getElem?_eq_some.mpr hk, hbounds⟩, i, hi, rfl,
      rfl⟩

end

/-- By position, then by identifier. -/
def Before (p q : κ × ι) : Prop := p.1 < q.1 ∨ p.1 = q.1 ∧ compare p.2 q.2 = .lt

theorem pairwise_entriesIn (lower upper : κ) : (idx.entriesIn lower upper).Pairwise Before := by
  rw [entriesIn, List.pairwise_flatMap]
  constructor
  · intro p _
    rw [List.pairwise_map]
    exact Std.ExtTreeSet.ordered_toList.imp fun hij => .inr ⟨rfl, hij⟩
  · have hsorted := (Std.ExtTreeMap.ordered_keys_toList (t := idx)).filter
      fun p => decide (lower ≤ p.1 ∧ p.1 ≤ upper)
    refine hsorted.imp ?_
    intro p q hpq x hx y hy
    obtain ⟨i, -, rfl⟩ := List.mem_map.mp hx
    obtain ⟨j, -, rfl⟩ := List.mem_map.mp hy
    exact .inl (compare_lt_iff_lt.mp hpq)

end PositionIndex

end Lib
