import Oxvim.Eval.DeepCopyRuns

/-!
# A deep copy is an isomorphic graph

The containers that a value leads to and the new containers correspond one to one, and each new one
holds what the old one holds, renamed. What is shared is shared in the copy, and a cycle is a cycle.
-/

namespace Oxvim.Eval

open Lib Lib.Walk Lib.EState Relation Copying

/-! ## What is reached -/

/-- A path through containers. -/
def Reachable (m : Memory) : Value → Value → Prop :=
  ReflTransGen fun v w => w ∈ m.held v

/-- What a value refers to, what a function binds included. -/
inductive Refers (m : Memory) : Value → Value → Prop
  | held {v w : Value} : w ∈ m.held v → Refers m v w
  | bound {v w : Value} {f : Funcref Value} : Functions (v, v) f f → BoundPair f f (w, w) →
    Refers m v w

namespace Memory

/-- Whatever is referred to from the containers of `m` in `m'` is a container of `m`. -/
def Isolated (m m' : Memory) : Prop :=
  ∀ v w, (container v).isSome → m.Bounded v → ReflTransGen (Refers m') v w → m.Bounded w

/-- References lead to containers that exist. -/
def Closed (m : Memory) : Prop :=
  m.Isolated m

variable {m m' : Memory}

theorem held_eq_nil {v : Value} (h : container v = none) : m.held v = [] := by
  cases v <;> first | rfl | cases h

theorem isSome_of_held {v w : Value} (h : w ∈ m.held v) : (container v).isSome := by
  cases hv : container v with
  | some c => rfl
  | none =>
    rw [held_eq_nil hv] at h
    cases h

theorem reach_iff {v w : Value} : Reach m.graph v w ↔ Reachable m v w := by
  have hpart : ∀ x y, Walk.Part m.graph x y ↔ y ∈ m.held x := by
    intro x y
    rw [part_iff]
    exact ⟨fun h => h.2, fun h => ⟨isSome_of_held h, h⟩⟩
  unfold Reach Reachable
  constructor
  · exact fun h => h.lift id fun x y hxy => (hpart x y).mp hxy
  · exact fun h => h.lift id fun x y hxy => (hpart x y).mpr hxy

/-- Whatever is reached through containers exists. -/
theorem Closed.bounded (h : m.Closed) {v w : Value} (hv : m.Bounded v) (hreach : Reachable m v w) :
    m.Bounded w := by
  cases hc : container v with
  | some c => exact h v w (by rw [hc]; rfl) hv (hreach.lift id fun _ _ hheld => .held hheld)
  | none =>
    rcases ReflTransGen.cases_head hreach with rfl | ⟨x, hx, -⟩
    · exact hv
    · rw [held_eq_nil hc] at hx
      cases hx

/-- Containers that are as they were hold what they held. -/
theorem Unchanged.held (h : m.Unchanged m') {v : Value} (hv : m.Bounded v) :
    m'.held v = m.held v := by
  cases v with
  | list a =>
    have ha := h (.inl a) (hv _ rfl)
    simp only [contents] at ha
    rw [Memory.held, Memory.held, Option.map_injective Sum.inl_injective ha]
  | dict d =>
    have hd := h (.inr d) (hv _ rfl)
    simp only [contents] at hd
    rw [Memory.held, Memory.held, Option.map_injective Sum.inr_injective hd]
  | _ => rfl

/-- **From the containers that were there nothing new is reached.** -/
theorem Closed.isolated (h : m.Closed) (hsame : m.Unchanged m') : m.Isolated m' := by
  intro v w hc hv hpath
  refine h v w hc hv ?_
  induction hpath with
  | refl => exact .refl
  | tail _ hstep ih =>
    refine ih.tail ?_
    cases hstep with
    | held hheld =>
      rw [hsame.held (h v _ hc hv ih)] at hheld
      exact .held hheld
    | bound hfunctions hbound => exact .bound hfunctions hbound

end Memory

/-! ## Isomorphism -/

/-- The value in which lists and dictionaries are replaced. -/
def rename (f g : Nat → Nat) : Value → Value
  | .list a => .list (f a)
  | .dict d => .dict (g d)
  | v => v

/-- The copy of an entry. -/
def renameEntry (f g : Nat → Nat) (entry : MarkedEntry) : MarkedEntry :=
  .new entry.key (rename f g entry.value)

/-- `copied` is in `m'` what `v` is in `m`: `f` and `g` assign each container that `v` leads to one
that is new in `m'`, each of these to one, and the new ones hold the same up to this renaming. -/
structure IsCopy (m m' : Memory) (f g : Nat → Nat) (v copied : Value) : Prop where
  value : copied = rename f g v
  lists : Set.BijOn f {a | Reachable m v (.list a)} (Set.Ico m.lists.length m'.lists.length)
  dicts : Set.BijOn g {d | Reachable m v (.dict d)} (Set.Ico m.dicts.length m'.dicts.length)
  items : ∀ a, Reachable m v (.list a) → ∃ data, m.lists[a]? = some data ∧
    m'.lists[f a]? = some ⟨data.items.map (rename f g), .default⟩
  entries : ∀ d, Reachable m v (.dict d) → ∃ data, m.dicts[d]? = some data ∧
    m'.dicts[g d]? = some ⟨data.entries.map (renameEntry f g), .default, false⟩

/-- What a state says each list is copied to. -/
def Copying.listCopy (s : Copying) (a : Nat) : Nat := (s.lists a).getD 0

def Copying.dictCopy (s : Copying) (d : Nat) : Nat := (s.dicts d).getD 0

variable {orig : Memory} {s : Copying}

theorem copyOf_inl {a : Nat} {t : Container} :
    s.copyOf (.inl a) = some t ↔ s.lists a = some (s.listCopy a) ∧ t = .inl (s.listCopy a) := by
  simp only [copyOf, Copying.listCopy]
  cases s.lists a <;> simp [eq_comm]

theorem copyOf_inr {d : Nat} {t : Container} :
    s.copyOf (.inr d) = some t ↔ s.dicts d = some (s.dictCopy d) ∧ t = .inr (s.dictCopy d) := by
  simp only [copyOf, Copying.dictCopy]
  cases s.dicts d <;> simp [eq_comm]

theorem Renamed.eq {v w : Value} (h : Renamed s.copyOf v w) :
    w = rename s.listCopy s.dictCopy v := by
  cases h with
  | list hab => rw [rename, Sum.inl.inj (copyOf_inl.mp hab).2]
  | dict hde => rw [rename, Sum.inr.inj (copyOf_inr.mp hde).2]
  | scalar hv => cases v <;> first | rfl | cases hv

theorem forall₂_eq_map {α β : Type} {f : α → β} {xs : List α} {ys : List β} {r : α → β → Prop}
    (hr : ∀ x y, r x y → y = f x) (h : List.Forall₂ r xs ys) : ys = xs.map f := by
  induction h with
  | nil => rfl
  | cons hxy _ ih => rw [List.map_cons, ← hr _ _ hxy, ih]

theorem EntryRenamed.eq {entry copied : MarkedEntry} (h : EntryRenamed s.copyOf entry copied) :
    copied = renameEntry s.listCopy s.dictCopy entry := by
  obtain ⟨value, hvalue, rfl⟩ := h
  rw [renameEntry, hvalue.eq]

/-- What a run that has copied everything ends with is a copy. -/
theorem isCopy_of_progress {start : Copying} {v copied : Value}
    (hstart : ∀ c, start.copyOf c = none) (hs : Tracks orig s) (hprogress : Progress orig start s)
    (hcopied : Renamed s.copyOf v copied)
    (hreached : ∀ c, (s.copyOf c).isSome ↔ ∃ w, Reachable orig v w ∧ container w = some c) :
    IsCopy orig s.memory s.listCopy s.dictCopy v copied := by
  have hlist : ∀ a, Reachable orig v (.list a) →
      s.copyOf (.inl a) = some (.inl (s.listCopy a)) := by
    intro a ha
    obtain ⟨t, ht⟩ := Option.isSome_iff_exists.mp ((hreached (.inl a)).mpr ⟨_, ha, rfl⟩)
    rw [ht, (copyOf_inl.mp ht).2]
  have hdict : ∀ d, Reachable orig v (.dict d) →
      s.copyOf (.inr d) = some (.inr (s.dictCopy d)) := by
    intro d hd
    obtain ⟨t, ht⟩ := Option.isSome_iff_exists.mp ((hreached (.inr d)).mpr ⟨_, hd, rfl⟩)
    rw [ht, (copyOf_inr.mp ht).2]
  constructor
  · exact hcopied.eq
  · refine ⟨?_, ?_, ?_⟩
    · intro a ha
      obtain ⟨hnew, hlive⟩ := hs.fresh _ _ (hlist a ha)
      exact ⟨Nat.not_lt.mp hnew, hlive⟩
    · intro a ha a' ha' heq
      have hsame := hs.injective _ _ _ (hlist a ha) (heq ▸ hlist a' ha')
      exact Sum.inl.inj hsame
    · intro b hb
      obtain ⟨c, hc⟩ := hs.onto (.inl b) hb.2 (Nat.not_lt.mpr hb.1)
      cases c with
      | inl a =>
        obtain ⟨w, hw, hwa⟩ := (hreached (.inl a)).mp (by rw [hc]; rfl)
        cases w <;> cases hwa
        exact ⟨a, hw, (Sum.inl.inj (copyOf_inl.mp hc).2).symm⟩
      | inr d => cases (copyOf_inr.mp hc).2
  · refine ⟨?_, ?_, ?_⟩
    · intro d hd
      obtain ⟨hnew, hlive⟩ := hs.fresh _ _ (hdict d hd)
      exact ⟨Nat.not_lt.mp hnew, hlive⟩
    · intro d hd d' hd' heq
      have hsame := hs.injective _ _ _ (hdict d hd) (heq ▸ hdict d' hd')
      exact Sum.inr.inj hsame
    · intro e he
      obtain ⟨c, hc⟩ := hs.onto (.inr e) he.2 (Nat.not_lt.mpr he.1)
      cases c with
      | inl a => cases (copyOf_inl.mp hc).2
      | inr d =>
        obtain ⟨w, hw, hwd⟩ := (hreached (.inr d)).mp (by rw [hc]; rfl)
        cases w <;> cases hwd
        exact ⟨d, hw, (Sum.inr.inj (copyOf_inr.mp hc).2).symm⟩
  · intro a ha
    obtain ⟨data, data', hdata, hdata', hcopies⟩ := hprogress.finished _ _ (hlist a ha) (hstart _)
    obtain ⟨old, hold, rfl⟩ := Option.map_eq_some_iff.mp hdata
    obtain ⟨new, hnew, rfl⟩ := Option.map_eq_some_iff.mp hdata'
    refine ⟨old, hold, ?_⟩
    cases hcopies with
    | list hitems => rw [hnew, forall₂_eq_map (fun _ _ h => h.eq) hitems]
  · intro d hd
    obtain ⟨data, data', hdata, hdata', hcopies⟩ := hprogress.finished _ _ (hdict d hd) (hstart _)
    obtain ⟨old, hold, rfl⟩ := Option.map_eq_some_iff.mp hdata
    obtain ⟨new, hnew, rfl⟩ := Option.map_eq_some_iff.mp hdata'
    refine ⟨old, hold, ?_⟩
    cases hcopies with
    | dict hentries => rw [hnew, forall₂_eq_map (fun _ _ h => h.eq) hentries]

/-- **`deepcopy()` gives an isomorphic graph of new containers**, where its traversal stays below
the depth limit, and fails otherwise. Either way the containers from before are as they were, and
nothing new is reached from them. -/
theorem deepCopy_spec {m : Memory} (hclosed : m.Closed) {v : Value} (hv : m.Bounded v) :
    (StaysBelow m v → ∃ copied m' f g, deepCopy v m = .ok copied m' ∧ IsCopy m m' f g v copied) ∧
    (¬StaysBelow m v → ∃ m', deepCopy v m = .error depthError m') ∧
    m.Unchanged (final (deepCopy v m)) ∧ m.Isolated (final (deepCopy v m)) := by
  let start : Copying := ⟨m, fun _ => none, fun _ => none⟩
  have hnone : ∀ c, start.copyOf c = none := by
    intro c
    cases c <;> rfl
  have hstart : Tracks m start := by
    refine ⟨fun _ _ => rfl, ?_, ?_, fun t ht hnew => absurd ht hnew⟩
    · intro c t hc
      rw [hnone] at hc
      cases hc
    · intro c c' t hc
      rw [hnone] at hc
      cases hc
  have hkeys : start.Keys ∅ := by
    intro c
    rw [hnone]
    simp
  have hbounded : ∀ w, Reach m.graph v w → m.Bounded w :=
    fun w hw => hclosed.bounded hv (Memory.reach_iff.mp hw)
  have hrun := copy_inStep (Nat.add_zero maxContainerDepth) hbounded hstart hkeys
  unfold deepCopy
  generalize htraverse : traverse m (maxContainerDepth + 1) 0 ∅ v = outcome at hrun
  generalize hresult : copy v 0 start = result at hrun
  cases hrun with
  | tooDeep hkept =>
    refine ⟨?_, fun _ => ⟨_, rfl⟩, hkept, hclosed.isolated hkept⟩
    intro hbelow
    obtain ⟨seen, hseen⟩ := hbelow
    cases hseen.symm.trans htraverse
  | @done seen s copied hkeys' hs hprogress hcopied =>
    refine ⟨fun _ => ⟨copied, s.memory, s.listCopy, s.dictCopy, rfl, ?_⟩, ?_, hs.kept,
      hclosed.isolated hs.kept⟩
    · refine isCopy_of_progress hnone hs hprogress hcopied fun c => ?_
      rw [← hkeys', mem_seen_iff htraverse]
      exact exists_congr fun w => and_congr_left fun _ => Memory.reach_iff
    · exact fun hnot => absurd ⟨seen, htraverse⟩ hnot

/-- `let l = []` and `call add(l, l)`. -/
def selfHeld : Memory where
  lists := [⟨[.list 0], .default⟩]
  dicts := []

theorem closed_selfHeld : selfHeld.Closed := by
  intro v w hv hbounded hpath
  have hself : v = .list 0 := by
    cases v with
    | list a =>
      obtain rfl : a = 0 := Nat.lt_one_iff.mp (hbounded (.inl a) rfl)
      rfl
    | dict d => exact absurd (hbounded (.inr d) rfl) (Nat.not_lt_zero d)
    | _ => cases hv
  have hsame : w = .list 0 := by
    induction hpath with
    | refl => exact hself
    | tail _ hstep ih =>
      subst ih
      cases hstep with
      | held hheld => exact List.mem_singleton.mp hheld
      | bound hfunctions _ => cases hfunctions
  rw [hsame, ← hself]
  exact hbounded

theorem bounded_selfHeld : selfHeld.Bounded (.list 0) := by
  intro c hc
  cases hc
  exact Nat.zero_lt_one

/-- The list is entered, and met again in it. -/
theorem staysBelow_selfHeld : StaysBelow selfHeld (.list 0) := by
  have hagain : traverse selfHeld (99 + 1) 1 {.inl 0} (.list 0) = some (.ok (true, {.inl 0})) :=
    traverse_again (by decide) rfl (Finset.mem_singleton_self _)
  refine ⟨{.inl 0}, ?_⟩
  rw [traverse_enter (by decide) rfl (Finset.notMem_empty _)]
  show walkAll (traverse selfHeld (99 + 1) 1) [some (.list 0)] {.inl 0} = _
  rw [walkAll, hagain]
  rfl

theorem deepCopy_spec_selfHeld : ∃ copied m' f g,
    deepCopy (.list 0) selfHeld = .ok copied m' ∧ IsCopy selfHeld m' f g (.list 0) copied :=
  (deepCopy_spec closed_selfHeld bounded_selfHeld).1 staysBelow_selfHeld

end Oxvim.Eval
