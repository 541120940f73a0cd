import Oxvim.Eval.DeepCopyRuns
import Oxvim.Lib.LevelSearch
import Oxvim.Lib.Modify

/-!
# Locking values

`:lockvar` locks a value and what it holds, down to a depth. The walk enters no container twice,
whatever depth is left to it: a container that is met at the last level and again on a shorter path
is not gone into. Where that does not happen, and where the depth is unlimited, exactly the
containers on paths of fewer steps than the depth are locked.
-/

namespace Oxvim.Eval

open Lib Lib.LevelSearch Relation

/-! ## The walk -/

namespace Memory

/-- The lock of a container. -/
def lockState (m : Memory) : Container → Option LockState
  | .inl a => (m.lists[a]?).map (·.lock)
  | .inr d => (m.dicts[d]?).map (·.lock)

def setLock (m : Memory) (state : LockState) : Container → Memory
  | .inl a => { m with lists := m.lists.modify a fun data => { data with lock := state } }
  | .inr d => { m with dicts := m.dicts.modify d fun data => { data with lock := state } }

end Memory

/-- Memory and the containers met so far. -/
structure Locking where
  memory : Memory
  seen : Finset Container

/-- `lock_value`'s `apply`: lock or unlock a value `depth` levels down, where 0 changes nothing and a
negative depth has no limit. -/
def applyLock (lock : Bool) : (fuel : Nat) → Value → (depth : Int) → Locking → Option Locking
  | 0, _, _, _ => none
  | fuel + 1, value, depth, s =>
    if depth = 0 then some s
    else
      let recurse : Bool := !(0 ≤ depth && depth ≤ 1)
      let state : LockState := ⟨if recurse then .deep else .shallow, lock⟩
      match value with
      | .list reference =>
        if .inl reference ∈ s.seen then some s
        else
          let items := (s.memory.lists[reference]?).elim [] (·.items)
          let s := ⟨s.memory.setLock state (.inl reference), insert (.inl reference) s.seen⟩
          if recurse then items.foldlM (fun s item => applyLock lock fuel item (depth - 1) s) s
          else some s
      | .dict reference =>
        if .inr reference ∈ s.seen then some s
        else
          let entries := (s.memory.dicts[reference]?).elim [] (·.entries)
          let s := ⟨s.memory.setLock state (.inr reference), insert (.inr reference) s.seen⟩
          if recurse then
            entries.foldlM (fun s entry => applyLock lock fuel entry.value (depth - 1) s) s
          else some s
      | _ => some s

/-- There is fuel for every container on a path, for one that does not exist and for a leaf. -/
def lockValue (m : Memory) (value : Value) (depth : Int) (lock : Bool) : Option Memory :=
  (applyLock lock (m.lists.length + m.dicts.length + 3) value depth ⟨m, ∅⟩).map (·.memory)

/-! ## What a depth reaches -/

namespace Memory

variable (m : Memory)

/-- A path of item steps. -/
inductive Path : Nat → Value → Value → Prop
  | nil {v : Value} : Path 0 v v
  | cons {k : Nat} {v w u : Value} : w ∈ m.held v → Path k w u → Path (k + 1) v u

/-- The container is reached by fewer steps than the depth, any number if that is negative. -/
def InDepth (depth : Int) (v : Value) (c : Container) : Prop :=
  ∃ (k : Nat) (w : Value), (0 ≤ depth → k < depth) ∧ m.Path k v w ∧ container w = some c

/-- The value that a container is. -/
def valueOf : Container → Value
  | .inl a => .list a
  | .inr d => .dict d

/-- The containers among the items of a container. -/
def next (c : Container) : List Container := (m.held (valueOf c)).filterMap container

/-- The containers met from a value on, along paths that do not cross themselves and in the order of
the items, each with the levels left below it. -/
def levelsMet (v : Value) (depth : Int) : List (Container × Nat) :=
  (container v).elim [] (meetings m.next (depth.toNat - 1) [])

/-- The contents of all containers. -/
def unlocked : List (List Value) × List (List MarkedEntry × Bool) :=
  (m.lists.map (·.items), m.dicts.map fun data => (data.entries, data.isNull))

/-! ## Setting a lock -/

variable {m}

theorem container_valueOf (c : Container) : container (valueOf c) = some c := by
  cases c <;> rfl

theorem eq_valueOf {v : Value} {c : Container} (h : container v = some c) : v = valueOf c := by
  cases v <;> cases h <;> rfl

@[simp] theorem setLock_unlocked (state : LockState) (c : Container) :
    (m.setLock state c).unlocked = m.unlocked := by
  cases c with
  | inl a =>
    simp only [setLock, unlocked]
    rw [map_modify_eq (g := ListData.items) (by intro data; rfl)]
  | inr d =>
    simp only [setLock, unlocked]
    rw [map_modify_eq (by intro data; rfl)]

theorem setLock_lockState_self (state : LockState) {c : Container} (h : m.Live c) :
    (m.setLock state c).lockState c = some state := by
  cases c with
  | inl a => simp [setLock, lockState, List.getElem?_eq_getElem h]
  | inr d => simp [setLock, lockState, List.getElem?_eq_getElem h]

theorem setLock_lockState_of_ne (state : LockState) {c c' : Container} (h : c' ≠ c) :
    (m.setLock state c).lockState c' = m.lockState c' := by
  cases c <;> cases c' <;> simp [setLock, lockState, List.getElem?_modify] <;> grind

/-- Memories with the same contents hold the same. -/
theorem held_of_unlocked {m' : Memory} (h : m'.unlocked = m.unlocked) (v : Value) :
    m'.held v = m.held v := by
  have hlists := congrArg Prod.fst h
  have hdicts := congrArg Prod.snd h
  cases v with
  | list a =>
    have hat := congrArg (·[a]?) hlists
    simp only [unlocked, List.getElem?_map] at hat
    cases ha : m.lists[a]? <;> cases ha' : m'.lists[a]? <;> simp_all [held]
  | dict d =>
    have hat := congrArg (·[d]?) hdicts
    simp only [unlocked, List.getElem?_map] at hat
    cases hd : m.dicts[d]? <;> cases hd' : m'.dicts[d]? <;> simp_all [held]
  | _ => rfl

/-! ## Paths and the search -/

/-- How many steps a depth allows. -/
def stepsOf (depth : Int) : Option Nat := if depth < 0 then none else some (depth.toNat - 1)

theorem held_eq_nil_of_none {v : Value} (h : container v = none) : m.held v = [] := by
  cases v <;> first | rfl | cases h

/-- A path through containers is one of the search. -/
theorem within_iff {levels : Option Nat} {c c' : Container} :
    Within m.next levels c c' ↔
      ∃ k w, (∀ n, levels = some n → k ≤ n) ∧ m.Path k (valueOf c) w ∧ container w = some c' := by
  constructor
  · intro h
    induction h with
    | @refl levels c => exact ⟨0, valueOf c, fun n _ => Nat.zero_le n, .nil, container_valueOf c⟩
    | @step levels c d c' hlevels hstep _ ih =>
      obtain ⟨k, w, hk, hpath, hw⟩ := ih
      obtain ⟨v, hv, hvd⟩ := List.mem_filterMap.mp hstep
      rw [← eq_valueOf hvd] at hpath
      refine ⟨k + 1, w, fun n hn => ?_, .cons hv hpath, hw⟩
      subst hn
      have hle := hk (n - 1) rfl
      have hpos : n ≠ 0 := fun hzero => hlevels (congrArg some hzero)
      omega
  · rintro ⟨k, w, hk, hpath, hw⟩
    generalize hv : valueOf c = v at hpath
    induction hpath generalizing levels c with
    | nil =>
      subst hv
      rw [container_valueOf] at hw
      cases hw
      exact .refl
    | @cons k v u w hu hpath ih =>
      subst hv
      cases hd : container u with
      | none =>
        -- Only a container holds something, so the path ends here.
        cases hpath with
        | nil => rw [hd] at hw; cases hw
        | cons hmem _ =>
          rw [held_eq_nil_of_none hd] at hmem
          cases hmem
      | some d =>
        apply Within.step (y := d)
        · intro hzero
          have := hk 0 hzero
          omega
        · exact List.mem_filterMap.mpr ⟨u, hu, hd⟩
        · apply ih _ hw (eq_valueOf hd).symm
          intro n hn
          obtain ⟨n', hn', rfl⟩ := Option.map_eq_some_iff.mp hn
          have := hk n' hn'
          omega

theorem inDepth_iff {depth : Int} (hdepth : depth ≠ 0) {v : Value} {c c' : Container}
    (hv : container v = some c) : m.InDepth depth v c' ↔ Within m.next (stepsOf depth) c c' := by
  rw [within_iff, ← eq_valueOf hv]
  unfold InDepth stepsOf
  constructor
  · rintro ⟨k, w, hk, hpath, hw⟩
    refine ⟨k, w, fun n hn => ?_, hpath, hw⟩
    split_ifs at hn with hneg
    cases hn
    have := hk (by omega)
    omega
  · rintro ⟨k, w, hk, hpath, hw⟩
    refine ⟨k, w, fun hpos => ?_, hpath, hw⟩
    have := hk (depth.toNat - 1) (if_neg (by omega))
    omega

/-! ## Locking is the search -/

/-- `s` has locked or unlocked what it has seen in `m`, and nothing else. -/
structure Marked (m : Memory) (lock : Bool) (s : Locking) : Prop where
  unlocked : s.memory.unlocked = m.unlocked
  marked : ∀ c ∈ s.seen, m.Live c → ∃ state, s.memory.lockState c = some state ∧ state.locked = lock
  others : ∀ c, c ∉ s.seen → s.memory.lockState c = m.lockState c

theorem live_iff_of_unlocked {m' : Memory} (h : m'.unlocked = m.unlocked) (c : Container) :
    m'.Live c ↔ m.Live c := by
  have hlists := congrArg (fun contents => contents.1.length) h
  have hdicts := congrArg (fun contents => contents.2.length) h
  simp only [Memory.unlocked, List.length_map] at hlists hdicts
  cases c <;> simp [Live, hlists, hdicts]

theorem Marked.enter {lock : Bool} {s : Locking} (h : m.Marked lock s) {state : LockState}
    (hstate : state.locked = lock) (c : Container) :
    m.Marked lock ⟨s.memory.setLock state c, insert c s.seen⟩ := by
  constructor
  · exact (setLock_unlocked state c).trans h.unlocked
  · intro c' hc' hlive
    by_cases heq : c' = c
    · subst heq
      have hlive' := (live_iff_of_unlocked h.unlocked c').mpr hlive
      exact ⟨state, setLock_lockState_self state hlive', hstate⟩
    · rw [setLock_lockState_of_ne state heq]
      exact h.marked c' ((Finset.mem_insert.mp hc').resolve_left heq) hlive
  · intro c' hc'
    rw [Finset.mem_insert, not_or] at hc'
    rw [setLock_lockState_of_ne state hc'.1]
    exact h.others c' hc'.2

/-- Entering a container, whatever its kind, is a step of the search. -/
theorem applyLock_succ {lock : Bool} {fuel : Nat} {v : Value} {c : Container} {depth : Int}
    {s : Locking} (hv : container v = some c) (hdepth : depth ≠ 0) :
    ∃ state : LockState, state.locked = lock ∧
      applyLock lock (fuel + 1) v depth s =
        if c ∈ s.seen then some s
        else if stepsOf depth = some 0 then some ⟨s.memory.setLock state c, insert c s.seen⟩
        else (s.memory.held v).foldlM (fun s item => applyLock lock fuel item (depth - 1) s)
          ⟨s.memory.setLock state c, insert c s.seen⟩ := by
  have hrecurse : (!(decide (0 ≤ depth) && decide (depth ≤ 1))) = !decide (stepsOf depth = some 0) := by
    unfold stepsOf
    split_ifs with hneg
    · simp [hneg]
    · have : depth.toNat - 1 = 0 ↔ depth ≤ 1 := by omega
      simp [this]
      omega
  cases v <;> cases hv
  all_goals
    refine ⟨⟨if !(decide (0 ≤ depth) && decide (depth ≤ 1)) then .deep else .shallow, lock⟩, rfl, ?_⟩
    conv_lhs => unfold applyLock
    rw [if_neg hdepth]
    dsimp only
    rw [hrecurse]
    by_cases hsteps : stepsOf depth = some 0
    · simp [hsteps]
    · simp [hsteps, held, List.foldlM_map]

theorem stepsOf_pred {depth : Int} (hdepth : depth ≠ 0) (h : stepsOf depth ≠ some 0) :
    depth - 1 ≠ 0 ∧ (stepsOf depth).map (· - 1) = stepsOf (depth - 1) := by
  unfold stepsOf at h ⊢
  split_ifs with hneg hpred
  · exact ⟨by omega, rfl⟩
  · omega
  · rw [if_neg hneg] at h
    have hlarge : depth.toNat - 1 ≠ 0 := fun hzero => h (congrArg some hzero)
    omega
  · rw [if_neg hneg] at h
    have hlarge : depth.toNat - 1 ≠ 0 := fun hzero => h (congrArg some hzero)
    refine ⟨by omega, ?_⟩
    rw [Option.map_some]
    congr 1
    omega

theorem applyLock_leaf {lock : Bool} {fuel : Nat} {v : Value} {depth : Int} {s : Locking}
    (hv : container v = none) : applyLock lock (fuel + 1) v depth s = some s := by
  unfold applyLock
  split_ifs
  · rfl
  · cases v <;> first | rfl | cases hv

/-- **Locking follows the search**, and marks what the search sees. -/
theorem applyLock_search {lock : Bool} {fuel : Nat} {v : Value} {c : Container} {depth : Int}
    {s : Locking} {seen : Finset Container} (hs : m.Marked lock s) (hv : container v = some c)
    (hdepth : depth ≠ 0) (h : search m.next fuel (stepsOf depth) s.seen c = some seen) :
    ∃ s', applyLock lock (fuel + 1) v depth s = some s' ∧ s'.seen = seen ∧ m.Marked lock s' := by
  induction fuel generalizing v c depth s seen with
  | zero => cases h
  | succ fuel ih =>
    obtain ⟨state, hstate, hrun⟩ := @applyLock_succ lock (fuel + 1) v c depth s hv hdepth
    rw [hrun]
    unfold search at h
    split_ifs at h ⊢ with hc hsteps
    · cases h
      exact ⟨s, rfl, rfl, hs⟩
    · cases h
      exact ⟨_, rfl, rfl, hs.enter hstate c⟩
    · obtain ⟨hpred, hmap⟩ := stepsOf_pred hdepth hsteps
      rw [hmap] at h
      -- Items that are no containers change nothing and are no nodes of the search.
      have hitems : ∀ (items : List Value) (t : Locking), m.Marked lock t →
          (items.filterMap container).foldlM (search m.next fuel (stepsOf (depth - 1))) t.seen
            = some seen →
          ∃ s', items.foldlM (fun s item => applyLock lock (fuel + 1) item (depth - 1) s) t
              = some s' ∧ s'.seen = seen ∧ m.Marked lock s' := by
        intro items
        induction items with
        | nil =>
          intro t ht hfold
          cases hfold
          exact ⟨t, rfl, rfl, ht⟩
        | cons item items ihitems =>
          intro t ht hfold
          cases hitem : container item with
          | none =>
            rw [List.filterMap_cons_none hitem] at hfold
            rw [List.foldlM_cons, applyLock_leaf hitem]
            exact ihitems t ht hfold
          | some d =>
            rw [List.filterMap_cons_some hitem, List.foldlM_cons] at hfold
            obtain ⟨seen', hone, hrest⟩ := Option.bind_eq_some_iff.mp hfold
            obtain ⟨t', ht', hseen, hmarked⟩ := ih ht hitem hpred hone
            rw [List.foldlM_cons, ht']
            subst hseen
            exact ihitems t' hmarked hrest
      rw [held_of_unlocked hs.unlocked, eq_valueOf hv]
      exact hitems _ _ (hs.enter hstate c) h

/-! ## What is locked -/

/-- The containers that exist. -/
def live (m : Memory) : Finset Container :=
  (Finset.range m.lists.length).disjSum (Finset.range m.dicts.length)

theorem next_eq_nil {c : Container} (h : c ∉ m.live) : m.next c = [] := by
  cases c with
  | inl a =>
    have ha : m.lists[a]? = none := by simpa [live] using h
    simp [next, valueOf, held, ha]
  | inr d =>
    have hd : m.dicts[d]? = none := by simpa [live] using h
    simp [next, valueOf, held, hd]

theorem search_live (levels : Option Nat) (c : Container) :
    ∃ seen, search m.next (m.lists.length + m.dicts.length + 2) levels ∅ c = some seen := by
  apply Option.isSome_iff_exists.mp
  apply search_isSome (fun _ => next_eq_nil)
  simp [live]

end Memory

open Memory

/-- Lists 0 = [1, 2], 1 = [2] and 2 = [3]: the second one leads to the third before the first does. -/
def detour : Memory :=
  ⟨[⟨[.list 1, .list 2], .default⟩, ⟨[.list 2], .default⟩, ⟨[.list 3], .default⟩, ⟨[], .default⟩], []⟩

end Oxvim.Eval
