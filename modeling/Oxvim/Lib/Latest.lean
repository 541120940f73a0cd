import Oxvim.Lib.OrderedMap

/-!
# The latest entry for each key

Streams of entries with a key and a time are merged by collecting, for each key, the last of the latest
entries, and by sorting what was collected. What a merged stream holds for a key is `latest` of the
entries with the key (`filter_merged`); `latest` is associative and idempotent, and with it the merge.
-/

namespace Lib.Latest

open Std (ExtTreeMap)

variable {α κ τ : Type*} [LinearOrder τ]

/-! ## The last of the latest -/

/-- The later one of two entries, and the second one where they are of the same time. -/
def later (time : α → τ) (x y : α) : α := if time y < time x then x else y

/-- The later one of two entries that may be missing. -/
def laterOf (time : α → τ) : Option α → Option α → Option α
  | none, y => y
  | some x, none => some x
  | some x, some y => some (later time x y)

/-- The last of the latest entries. -/
def latest (time : α → τ) : List α → Option α
  | [] => none
  | x :: xs => laterOf time (some x) (latest time xs)

variable {time : α → τ}

theorem later_self (x : α) : later time x x = x := ite_self x

theorem later_assoc (x y z : α) :
    later time (later time x y) z = later time x (later time y z) := by
  unfold later
  by_cases hxy : time y < time x
  · by_cases hyz : time z < time y
    · rw [if_pos hxy, if_pos (hyz.trans hxy), if_pos hyz, if_pos hxy]
    · rw [if_pos hxy, if_neg hyz]
  · by_cases hyz : time z < time y
    · rw [if_neg hxy, if_pos hyz, if_neg hxy]
    · rw [if_neg hxy, if_neg hyz, if_neg fun hxz => hxy ((not_lt.mp hyz).trans_lt hxz)]

theorem laterOf_none (o : Option α) : laterOf time o none = o := by cases o <;> rfl

theorem laterOf_self (o : Option α) : laterOf time o o = o := by
  cases o with
  | none => rfl
  | some x => exact congrArg some (later_self x)

theorem laterOf_assoc (o p q : Option α) :
    laterOf time (laterOf time o p) q = laterOf time o (laterOf time p q) := by
  cases o with
  | none => rfl
  | some x =>
    cases p with
    | none => rfl
    | some y =>
      cases q with
      | none => rfl
      | some z => exact congrArg some (later_assoc x y z)

theorem latest_append (l l' : List α) :
    latest time (l ++ l') = laterOf time (latest time l) (latest time l') := by
  induction l with
  | nil => rfl
  | cons x l ih => rw [List.cons_append, latest, ih, latest, laterOf_assoc]

theorem latest_toList (o : Option α) : latest time o.toList = o := by cases o <;> rfl

theorem latest_concat (l : List α) (x : α) :
    latest time (l ++ [x]) = some ((latest time l).elim x (later time · x)) := by
  rw [latest_append]
  cases latest time l <;> rfl

theorem latest_isSome (time : α → τ) {l : List α} (h : l ≠ []) : ∃ x, latest time l = some x := by
  cases l with
  | nil => exact absurd rfl h
  | cons x l =>
    rw [latest]
    cases latest time l with
    | none => exact ⟨_, rfl⟩
    | some y => exact ⟨_, rfl⟩

/-- Nothing before the last of the latest entries is later, and everything behind it is earlier. -/
theorem latest_eq_some {l : List α} {x : α} (h : latest time l = some x) :
    ∃ before after, l = before ++ x :: after ∧ (∀ y ∈ before, time y ≤ time x) ∧
      ∀ y ∈ after, time y < time x := by
  induction l generalizing x with
  | nil => cases h
  | cons y l ih =>
    rw [latest] at h
    cases hl : latest time l with
    | none =>
      obtain rfl : l = [] := by
        by_contra hne
        obtain ⟨z, hz⟩ := latest_isSome time hne
        rw [hl] at hz
        cases hz
      rw [hl] at h
      cases h
      exact ⟨[], [], rfl, by simp, by simp⟩
    | some z =>
      obtain ⟨before, after, rfl, hbefore, hafter⟩ := ih hl
      rw [hl, laterOf, later] at h
      by_cases hzy : time z < time y
      · rw [if_pos hzy] at h
        cases h
        refine ⟨[], before ++ z :: after, rfl, by simp, fun w hw => ?_⟩
        rcases List.mem_append.mp hw with hw | hw
        · exact (hbefore w hw).trans_lt hzy
        · rcases List.mem_cons.mp hw with rfl | hw
          · exact hzy
          · exact (hafter w hw).trans hzy
      · rw [if_neg hzy] at h
        cases h
        refine ⟨y :: before, after, rfl, fun w hw => ?_, hafter⟩
        rcases List.mem_cons.mp hw with rfl | hw
        · exact not_lt.mp hzy
        · exact hbefore w hw

/-! ## Collecting by key -/

variable [Ord κ] [Std.TransOrd κ] [Std.LawfulEqOrd κ] [DecidableEq κ]

/-- An entry replaces the one of its key unless that is later. -/
def add (key : α → κ) (time : α → τ) (m : ExtTreeMap κ α) (x : α) : ExtTreeMap κ α :=
  match m[key x]? with
  | some y => if time x < time y then m else m.insert (key x) x
  | none => m.insert (key x) x

/-- One entry for each key. -/
def collect (key : α → κ) (time : α → τ) (l : List α) : ExtTreeMap κ α :=
  l.foldl (add key time) ∅

/-- The collected entries, in the order of their keys. -/
def values (m : ExtTreeMap κ α) : List α := m.toList.map Prod.snd

variable {key : α → κ}

theorem getElem?_add (m : ExtTreeMap κ α) (x : α) (k : κ) :
    (add key time m x)[k]? = if k = key x then some (m[k]?.elim x (later time · x)) else m[k]? := by
  rw [add]
  cases hx : m[key x]? with
  | none =>
    dsimp only
    rw [OrderedMap.getElem?_insert]
    by_cases hk : k = key x
    · rw [if_pos hk, if_pos hk, hk, hx]
      rfl
    · rw [if_neg hk, if_neg hk]
  | some y =>
    dsimp only
    by_cases hxy : time x < time y
    · rw [if_pos hxy]
      by_cases hk : k = key x
      · rw [if_pos hk, hk, hx, Option.elim_some, later, if_pos hxy]
      · rw [if_neg hk]
    · rw [if_neg hxy, OrderedMap.getElem?_insert]
      by_cases hk : k = key x
      · rw [if_pos hk, if_pos hk, hk, hx, Option.elim_some, later, if_neg hxy]
      · rw [if_neg hk, if_neg hk]

/-- What is collected for a key is the latest of the entries with it. -/
theorem getElem?_collect (l : List α) (k : κ) :
    (collect key time l)[k]? = latest time (l.filter (key · = k)) := by
  induction l using List.reverseRecOn with
  | nil => exact ExtTreeMap.getElem?_empty
  | append_singleton l x ih =>
    have hfold : collect key time (l ++ [x]) = add key time (collect key time l) x := by
      rw [collect, List.foldl_append]
      rfl
    rw [hfold, getElem?_add, ih, List.filter_append]
    by_cases hk : k = key x
    · rw [if_pos hk, List.filter_cons_of_pos (by simp [hk]), List.filter_nil, latest_concat]
    · rw [if_neg hk, List.filter_cons_of_neg (by simpa using Ne.symm hk), List.filter_nil,
        List.append_nil]

/-- Each collected entry has the key it was collected for. -/
theorem key_of_collect {l : List α} {k : κ} {x : α} (h : (collect key time l)[k]? = some x) :
    key x = k := by
  rw [getElem?_collect] at h
  obtain ⟨before, after, hl, -⟩ := latest_eq_some h
  have hmem : x ∈ l.filter (key · = k) := by
    rw [hl]
    exact List.mem_append_right _ (List.mem_cons_self ..)
  exact of_decide_eq_true (List.mem_filter.mp hmem).2

/-- The entries of a key among the collected ones: the one that was collected for it. -/
theorem filter_values (l : List α) (k : κ) :
    (values (collect key time l)).filter (key · = k) = ((collect key time l)[k]?).toList := by
  have hkeys : ∀ p ∈ (collect key time l).toList, key p.2 = p.1 := fun p hp =>
    key_of_collect (ExtTreeMap.mem_toList_iff_getElem?_eq_some.mp hp)
  have hfilter : (values (collect key time l)).filter (key · = k)
      = ((collect key time l).toList.filter (·.1 = k)).map Prod.snd := by
    rw [values, List.filter_map]
    congr 1
    refine List.filter_congr fun p hp => ?_
    rw [Function.comp_apply, hkeys p hp]
  have hmem : ∀ p, p ∈ (collect key time l).toList.filter (·.1 = k) ↔
      (collect key time l)[k]? = some p.2 ∧ p.1 = k := by
    intro p
    rw [List.mem_filter, decide_eq_true_eq, ExtTreeMap.mem_toList_iff_getElem?_eq_some]
    exact and_congr_left fun hp => by rw [hp]
  have hnodup : ((collect key time l).toList.filter (·.1 = k)).Nodup := by
    refine List.Nodup.filter _ (ExtTreeMap.distinct_keys_toList.imp ?_)
    rintro p _ hne rfl
    exact hne Std.compare_self
  rw [hfilter]
  cases hk : (collect key time l)[k]? with
  | none =>
    have hempty : (collect key time l).toList.filter (·.1 = k) = [] := by
      refine List.eq_nil_iff_forall_not_mem.mpr fun p hp => ?_
      rw [hmem, hk] at hp
      cases hp.1
    rw [hempty]
    rfl
  | some x =>
    have hsingle : (collect key time l).toList.filter (·.1 = k) = [(k, x)] := by
      refine List.perm_singleton.mp ((List.perm_ext_iff_of_nodup hnodup (List.nodup_singleton _)).mpr
        fun p => ?_)
      rw [hmem, hk, List.mem_singleton, Prod.ext_iff, Option.some.injEq, eq_comm, and_comm]
    rw [hsingle]
    rfl

/-- Merges two streams: the latest entry of each key, sorted. -/
def merge (key : α → κ) (time : α → τ) (le : α → α → Bool) (a b : List α) : List α :=
  (values (collect key time (a ++ b))).mergeSort le

variable {le : α → α → Bool}

/-- A merged stream has the latest entry of a key, and no other one with the key. -/
theorem filter_merge (a b : List α) (k : κ) :
    (merge key time le a b).filter (key · = k)
      = (latest time ((a ++ b).filter (key · = k))).toList := by
  have hperm : ((merge key time le a b).filter (key · = k)).Perm
      (latest time ((a ++ b).filter (key · = k))).toList := by
    rw [← getElem?_collect, ← filter_values]
    exact (List.mergeSort_perm _ _).filter _
  cases hlatest : latest time ((a ++ b).filter (key · = k)) with
  | none =>
    rw [hlatest] at hperm
    exact hperm.eq_nil
  | some x =>
    rw [hlatest] at hperm
    exact List.perm_singleton.mp hperm

/-- Only the latest entry of each key matters to a merge. -/
theorem merge_congr {a b a' b' : List α} (h : ∀ k,
    latest time ((a ++ b).filter (key · = k)) = latest time ((a' ++ b').filter (key · = k))) :
    merge key time le a b = merge key time le a' b' := by
  have hcollect : collect key time (a ++ b) = collect key time (a' ++ b') := by
    apply ExtTreeMap.ext_getElem?
    intro k
    rw [getElem?_collect, getElem?_collect, h]
  rw [merge, merge, hcollect]

theorem merge_assoc (a b c : List α) :
    merge key time le (merge key time le a b) c = merge key time le a (merge key time le b c) := by
  apply merge_congr
  intro k
  rw [List.filter_append, filter_merge, latest_append, latest_toList, List.filter_append,
    List.filter_append, filter_merge, latest_append, latest_append, latest_toList,
    List.filter_append, latest_append, laterOf_assoc]

/-- A merged stream merges with itself to itself. -/
theorem merge_idem (a b : List α) :
    merge key time le (merge key time le a b) (merge key time le a b) = merge key time le a b := by
  apply merge_congr
  intro k
  rw [List.filter_append, filter_merge, latest_append, latest_toList, laterOf_self]

end Lib.Latest
