import Mathlib

/-!
# Decoration providers

The registry of decoration providers, keyed by namespace, and the decorations their callbacks push
during a redraw. Providers run in registration order; highlights of equal priority are sorted by the
registration index that each provider got when it was installed.

A provider that is removed leaves its index unused and makes the order one shorter. The next one to be
installed gets the length of the order as its index, which is the index of the last provider if one
before that was removed.
-/

namespace Oxvim.Editor.Decoration

/-- One namespace owns at most one provider. -/
abbrev ProviderId := UInt32

inductive DecorationError where
  | unknownProvider
  | redrawIdExhausted
  | noActiveRedraw
  | invalidRedrawId
  deriving DecidableEq, Repr

inductive CallbackPhase where
  | start
  | buf
  | win
  | line
  | range
  | «end»
  deriving DecidableEq, Repr

structure DecorPos where
  row : UInt32
  col : UInt32
  deriving DecidableEq, Repr

/-- Inclusive range between two positions. -/
structure DecorRange where
  start : DecorPos
  stop : DecorPos
  deriving DecidableEq, Repr

def DecorRange.containsRow (self : DecorRange) (row : UInt32) : Bool :=
  self.start.row ≤ row && row ≤ self.stop.row

inductive DecorOrigin where
  | extmark (namespace' markId : UInt32) (order : UInt64)
  | provider (provider : ProviderId) (phase : CallbackPhase)
  deriving DecidableEq, Repr

/-- An aggregated decoration record. -/
structure DecorItem where
  origin : DecorOrigin
  window : Option UInt32
  range : DecorRange
  priority : UInt32
  deriving DecidableEq, Repr

/-- Callback handles supplied when registering a provider. -/
structure DecorProviderDef where
  start : Option UInt64
  buf : Option UInt64
  win : Option UInt64
  line : Option UInt64
  range : Option UInt64
  «end» : Option UInt64
  hlDef : Option UInt64
  spellNav : Option UInt64
  concealLine : Option UInt64
  deriving DecidableEq, Repr

def DecorProviderDef.none' : DecorProviderDef :=
  ⟨none, none, none, none, none, none, none, none, none⟩

structure RegisteredProvider where
  order : Nat
  enabled : Bool
  callbacks : DecorProviderDef
  deriving DecidableEq, Repr

structure StoredEphemeral where
  item : DecorItem
  seq : Nat

structure RedrawState where
  id : Nat
  displayTick : UInt64
  ephemeral : List StoredEphemeral
  nextSeq : Nat

/-- Ordered decoration-provider registry. -/
structure Decorations where
  providers : ProviderId → Option RegisteredProvider
  order : List ProviderId
  nextRedraw : Nat
  redrawState : Option RedrawState

inductive RedrawEntry where
  | outermost (id : Nat)
  | nested

def phaseCallback (provider : RegisteredProvider) : CallbackPhase → Option UInt64
  | .start => provider.callbacks.start
  | .buf => provider.callbacks.buf
  | .win => provider.callbacks.win
  | .line => provider.callbacks.line
  | .range => provider.callbacks.range
  | .end => provider.callbacks.end

namespace Decorations

def new : Decorations where
  providers _ := none
  order := []
  nextRedraw := 0
  redrawState := none

/-! ## Operations -/

/-- Install or replace the provider owned by `id`. -/
def replaceProvider (self : Decorations) (id : ProviderId) (callbacks : DecorProviderDef) :
    Decorations × Option DecorProviderDef :=
  match self.providers id with
  | some provider =>
    ({ self with
        providers := Function.update self.providers id (some { provider with callbacks }) },
      some provider.callbacks)
  | none =>
    ({ self with
        providers := Function.update self.providers id (some ⟨self.order.length, true, callbacks⟩)
        order := self.order ++ [id] },
      none)

/-- Clear the provider owned by `id`, keeping its registration slot. -/
def clearProvider (self : Decorations) (id : ProviderId) : Decorations × Option DecorProviderDef :=
  match self.providers id with
  | some provider =>
    ({ self with
        providers := Function.update self.providers id
          (some { provider with callbacks := .none' }) },
      some provider.callbacks)
  | none => (self, none)

/-- Remove a provider from the registry entirely. -/
def remove (self : Decorations) (id : ProviderId) : Decorations × Option DecorProviderDef :=
  match self.providers id with
  | some provider =>
    ({ self with
        providers := Function.update self.providers id none
        order := self.order.filter (· ≠ id) },
      some provider.callbacks)
  | none => (self, none)

def setEnabled (self : Decorations) (id : ProviderId) (enabled : Bool) :
    Except DecorationError Decorations :=
  match self.providers id with
  | some provider =>
    .ok { self with
      providers := Function.update self.providers id (some { provider with enabled }) }
  | none => .error .unknownProvider

/-- The registered provider ids in registration order. -/
def providerOrder (self : Decorations) : List ProviderId :=
  self.order

def registrationIndex (self : Decorations) (id : ProviderId) : Option Nat :=
  (self.providers id).map (·.order)

/-- Begin a redraw cycle. -/
def enterRedraw (self : Decorations) (displayTick : UInt64) :
    Except DecorationError (Decorations × RedrawEntry) :=
  match self.redrawState with
  | some _ => .ok (self, .nested)
  | none =>
    if self.nextRedraw + 1 < 2 ^ 64 then
      .ok ({ self with
        nextRedraw := self.nextRedraw + 1
        redrawState := some ⟨self.nextRedraw, displayTick, [], 0⟩ }, .outermost self.nextRedraw)
    else .error .redrawIdExhausted

/-- End the redraw owned by `id`, discarding its ephemeral state. -/
def finishRedraw (self : Decorations) (id : Nat) : Except DecorationError Decorations :=
  match self.redrawState with
  | none => .error .noActiveRedraw
  | some state =>
    if state.id ≠ id then .error .invalidRedrawId else .ok { self with redrawState := none }

/-- The provider ids whose current definition carries `phase`, in the order they run. -/
def phaseProviderIds (self : Decorations) (phase : CallbackPhase) : List ProviderId :=
  self.order.filter fun id => ((self.providers id).filter fun provider =>
    provider.enabled && (phaseCallback provider phase).isSome).isSome

/-- Append an ephemeral decoration for the active redraw. -/
def pushEphemeral (self : Decorations) (id : Nat) (item : DecorItem) :
    Except DecorationError Decorations :=
  match self.redrawState with
  | none => .error .noActiveRedraw
  | some state =>
    if state.id ≠ id then .error .invalidRedrawId
    else
      let unknown := match item.origin with
        | .provider provider _ => (self.providers provider).isNone
        | .extmark _ _ _ => false
      if unknown then .error .unknownProvider
      else if state.nextSeq + 1 < 2 ^ 64 then
        .ok { self with
          redrawState := some { state with
            nextSeq := state.nextSeq + 1
            ephemeral := state.ephemeral ++ [⟨item, state.nextSeq⟩] } }
      else .error .redrawIdExhausted

/-! ## Highlights of a row -/

/-- Priority, category, registration index and suborder, compared in this order. -/
abbrev SortKey := Nat ×ₗ Nat ×ₗ Nat ×ₗ Nat

def sortKey (self : Decorations) (item : DecorItem) (seq : Option Nat) : SortKey :=
  match item.origin with
  | .extmark _ _ order => toLex (item.priority.toNat, toLex (0, toLex (0, order.toNat)))
  | .provider provider _ =>
    let index := ((self.providers provider).map (·.order)).getD (2 ^ 64 - 1)
    toLex (item.priority.toNat, toLex (1, toLex (index, seq.getD 0)))

def itemMatches (item : DecorItem) (window row : UInt32) : Bool :=
  (match item.window with
    | some own => own == window
    | none => true) && item.range.containsRow row

/-- The decorations of a window's row with their keys, before they are sorted. -/
def scored (self : Decorations) (state : RedrawState) (persistent : List DecorItem)
    (window row : UInt32) : List (DecorItem × SortKey) :=
  (persistent.filter (itemMatches · window row)).map (fun item => (item, self.sortKey item none)) ++
    (state.ephemeral.filter fun stored => itemMatches stored.item window row).map fun stored =>
      (stored.item, self.sortKey stored.item (some stored.seq))

/-- Query decorations for a specific window row. -/
def queryLine (self : Decorations) (id : Nat) (persistent : List DecorItem) (window row : UInt32) :
    List DecorItem :=
  match self.redrawState with
  | none => []
  | some state =>
    if state.id ≠ id then []
    else ((self.scored state persistent window row).mergeSort fun a b => a.2 ≤ b.2).map Prod.fst

/-! ## Runs -/

/-- What may happen to the registry. -/
inductive Op where
  | replaceProvider (id : ProviderId) (callbacks : DecorProviderDef)
  | clearProvider (id : ProviderId)
  | remove (id : ProviderId)
  | setEnabled (id : ProviderId) (enabled : Bool)
  | enterRedraw (displayTick : UInt64)
  | finishRedraw (id : Nat)
  | pushEphemeral (id : Nat) (item : DecorItem)

/-- The registry after an operation; one that fails leaves it alone. -/
def step (self : Decorations) : Op → Decorations
  | .replaceProvider id callbacks => (self.replaceProvider id callbacks).1
  | .clearProvider id => (self.clearProvider id).1
  | .remove id => (self.remove id).1
  | .setEnabled id enabled => match self.setEnabled id enabled with
    | .ok next => next
    | .error _ => self
  | .enterRedraw displayTick => match self.enterRedraw displayTick with
    | .ok (next, _) => next
    | .error _ => self
  | .finishRedraw id => match self.finishRedraw id with
    | .ok next => next
    | .error _ => self
  | .pushEphemeral id item => match self.pushEphemeral id item with
    | .ok next => next
    | .error _ => self

def run (self : Decorations) (ops : List Op) : Decorations :=
  ops.foldl step self

/-! ## One order -/

/-- The order lists every registered provider exactly once. -/
structure Listed (registry : Decorations) : Prop where
  nodup : registry.order.Nodup
  mem_iff : ∀ id, id ∈ registry.order ↔ (registry.providers id).isSome

/-- The registration index is strictly increasing along the order. -/
def Increasing (self : Decorations) : Prop :=
  (self.order.filterMap self.registrationIndex).Pairwise (· < ·)

instance (self : Decorations) : Decidable (Increasing self) :=
  inferInstanceAs (Decidable (List.Pairwise _ _))

/-- Highlights of equal priority stand in the order in which their providers run. -/
def TiesInOrder (self : Decorations) : Prop :=
  ∀ id persistent window row, (self.queryLine id persistent window row).Pairwise fun x y =>
    x.priority = y.priority → ∀ p q phase phase', x.origin = .provider p phase →
      y.origin = .provider q phase' → p ∈ self.order → q ∈ self.order →
        self.order.idxOf p ≤ self.order.idxOf q

/-- Providers keep one order: the one they are listed, indexed and run in. -/
structure OneOrder (registry : Decorations) : Prop where
  listed : Listed registry
  increasing : Increasing registry
  ties : TiesInOrder registry
  runs : ∀ phase, (registry.phaseProviderIds phase).Sublist registry.providerOrder

/-- A provider that is new comes after all indexes in use. -/
def Safe (self : Decorations) : Op → Prop
  | .replaceProvider id _ => self.providers id = none →
    ∀ other index, self.registrationIndex other = some index → index < self.order.length
  | _ => True

/-- Every operation of a run is safe where it happens. -/
def SafeRun (self : Decorations) : List Op → Prop
  | [] => True
  | op :: ops => self.Safe op ∧ (self.step op).SafeRun ops

variable {self : Decorations}

/-! ### Steps -/

/-- Operations that change neither the order nor an index. -/
theorem eq_of_index {next : Decorations} (horder : next.order = self.order)
    (hindex : ∀ id, next.registrationIndex id = self.registrationIndex id) :
    (Listed next ↔ Listed self) ∧ (Increasing next ↔ Increasing self) := by
  have hfun : next.registrationIndex = self.registrationIndex := funext hindex
  have hsome : ∀ id, (next.providers id).isSome = (self.providers id).isSome := by
    intro id
    have hid := congrArg Option.isSome (hindex id)
    simpa [registrationIndex] using hid
  constructor
  · constructor
    · intro h
      exact ⟨horder ▸ h.nodup, fun id => by rw [← horder, h.mem_iff, hsome]⟩
    · intro h
      exact ⟨horder ▸ h.nodup, fun id => by rw [horder, h.mem_iff, hsome]⟩
  · rw [Increasing, Increasing, horder, hfun]

/-- A provider updated in place keeps its index. -/
theorem index_update {next : Decorations} {id : ProviderId} {provider provider' : RegisteredProvider}
    (hprovider : self.providers id = some provider) (horder : provider'.order = provider.order)
    (hnext : next.providers = Function.update self.providers id (some provider'))
    (other : ProviderId) : next.registrationIndex other = self.registrationIndex other := by
  rw [registrationIndex, hnext, registrationIndex]
  by_cases heq : other = id
  · subst heq
    rw [Function.update_self, hprovider, Option.map_some, Option.map_some, horder]
  · rw [Function.update_of_ne heq]

/-- The order is listed after every operation, and increasing exactly after a safe one. -/
theorem step_iff (hlisted : Listed self) (hincreasing : Increasing self) (op : Op) :
    Listed (self.step op) ∧ (Increasing (self.step op) ↔ self.Safe op) := by
  -- most operations keep the order and the indices
  have hkeep : ∀ next : Decorations, next.order = self.order →
      (∀ id, next.registrationIndex id = self.registrationIndex id) → self.Safe op →
        Listed next ∧ (Increasing next ↔ self.Safe op) := by
    intro next horder hindex hsafe
    obtain ⟨hlisted', hincreasing'⟩ := eq_of_index horder hindex
    exact ⟨hlisted'.mpr hlisted, fun _ => hsafe, fun _ => hincreasing'.mpr hincreasing⟩
  cases op with
  | replaceProvider id callbacks =>
    cases hprovider : self.providers id with
    | some provider =>
      have hsafe : self.Safe (.replaceProvider id callbacks) := by
        intro hnone
        rw [hprovider] at hnone
        cases hnone
      have hstep : self.step (.replaceProvider id callbacks) = { self with
          providers := Function.update self.providers id (some { provider with callbacks }) } := by
        simp only [step, replaceProvider, hprovider]
      rw [hstep]
      exact hkeep _ rfl (fun other => index_update hprovider (by rfl) rfl other) hsafe
    | none =>
      have hstep : self.step (.replaceProvider id callbacks) = { self with
          providers := Function.update self.providers id
            (some ⟨self.order.length, true, callbacks⟩)
          order := self.order ++ [id] } := by
        simp only [step, replaceProvider, hprovider]
      have hfresh : id ∉ self.order := by
        intro hmem
        have hsome := (hlisted.mem_iff id).mp hmem
        rw [hprovider] at hsome
        cases hsome
      rw [hstep]
      constructor
      · refine ⟨?_, ?_⟩
        · rw [List.nodup_append]
          refine ⟨hlisted.nodup, List.nodup_singleton id, ?_⟩
          intro a ha b hb heq
          rw [List.mem_singleton.mp hb] at heq
          exact hfresh (heq ▸ ha)
        · intro other
          by_cases heq : other = id
          · subst heq
            simp
          · simp [heq, hlisted.mem_iff]
      · -- the new index is the length, and the others stay
        have hold : ∀ other ∈ self.order, (Function.update self.providers id
            (some ⟨self.order.length, true, callbacks⟩) other).map (·.order)
              = self.registrationIndex other := by
          intro other hother
          have hne : other ≠ id := fun heq => hfresh (heq ▸ hother)
          rw [Function.update_of_ne hne, registrationIndex]
        have hindexes : (self.order ++ [id]).filterMap (fun other => (Function.update self.providers id
            (some ⟨self.order.length, true, callbacks⟩) other).map (·.order))
              = self.order.filterMap self.registrationIndex ++ [self.order.length] := by
          rw [List.filterMap_append, List.filterMap_congr hold]
          simp
        have hall : (∀ index ∈ self.order.filterMap self.registrationIndex, index < self.order.length) ↔
            ∀ other index, self.registrationIndex other = some index → index < self.order.length := by
          constructor
          · intro h other index hindex
            refine h index (List.mem_filterMap.mpr ⟨other, ?_, hindex⟩)
            rw [hlisted.mem_iff]
            rw [registrationIndex, Option.map_eq_some_iff] at hindex
            obtain ⟨provider, hother, -⟩ := hindex
            rw [hother]
            rfl
          · intro h index hindex
            obtain ⟨other, -, hindex⟩ := List.mem_filterMap.mp hindex
            exact h other index hindex
        have hpairwise : Increasing { self with
            providers := Function.update self.providers id
              (some ⟨self.order.length, true, callbacks⟩)
            order := self.order ++ [id] } ↔
              (self.order.filterMap self.registrationIndex ++ [self.order.length]).Pairwise (· < ·) := by
          rw [← hindexes]
          exact Iff.rfl
        have hincreasing' : (self.order.filterMap self.registrationIndex).Pairwise (· < ·) := hincreasing
        rw [hpairwise, List.pairwise_append]
        constructor
        · intro h _
          exact hall.mp fun index hindex => h.2.2 index hindex _ (List.mem_singleton_self _)
        · intro h
          refine ⟨hincreasing', List.pairwise_singleton _ _, ?_⟩
          intro index hindex last hlast
          rw [List.mem_singleton.mp hlast]
          exact hall.mpr (h hprovider) index hindex
  | clearProvider id =>
    cases hprovider : self.providers id with
    | some provider =>
      have hstep : self.step (.clearProvider id) = { self with
          providers := Function.update self.providers id
            (some { provider with callbacks := .none' }) } := by
        simp only [step, clearProvider, hprovider]
      rw [hstep]
      exact hkeep _ rfl (fun other => index_update hprovider (by rfl) rfl other) trivial
    | none =>
      have hstep : self.step (.clearProvider id) = self := by
        simp only [step, clearProvider, hprovider]
      rw [hstep]
      exact hkeep _ rfl (fun _ => rfl) trivial
  | remove id =>
    cases hprovider : self.providers id with
    | some provider =>
      have hstep : self.step (.remove id) = { self with
          providers := Function.update self.providers id none
          order := self.order.filter (· ≠ id) } := by
        simp only [step, remove, hprovider]
      rw [hstep]
      refine ⟨⟨hlisted.nodup.filter _, ?_⟩, fun _ => trivial, fun _ => ?_⟩
      · intro other
        by_cases heq : other = id
        · subst heq
          simp
        · simp [heq, hlisted.mem_iff]
      · -- what is left of an increasing list is increasing
        have hrest : ∀ other ∈ self.order.filter (· ≠ id),
            (Function.update self.providers id none other).map (·.order)
              = self.registrationIndex other := by
          intro other hother
          have hne : other ≠ id := by simpa using (List.mem_filter.mp hother).2
          rw [Function.update_of_ne hne, registrationIndex]
        have hsub : ((self.order.filter (· ≠ id)).filterMap self.registrationIndex).Sublist
            (self.order.filterMap self.registrationIndex) :=
          List.filter_sublist.filterMap _
        have heq : ((self.order.filter (· ≠ id)).filterMap fun other =>
            (Function.update self.providers id none other).map (·.order))
              = (self.order.filter (· ≠ id)).filterMap self.registrationIndex :=
          List.filterMap_congr hrest
        have hpairwise : ((self.order.filter (· ≠ id)).filterMap fun other =>
            (Function.update self.providers id none other).map (·.order)).Pairwise (· < ·) := by
          rw [heq]
          exact List.Pairwise.sublist hsub hincreasing
        exact hpairwise
    | none =>
      have hstep : self.step (.remove id) = self := by
        simp only [step, remove, hprovider]
      rw [hstep]
      exact hkeep _ rfl (fun _ => rfl) trivial
  | setEnabled id enabled =>
    cases hprovider : self.providers id with
    | some provider =>
      have hstep : self.step (.setEnabled id enabled) = { self with
          providers := Function.update self.providers id (some { provider with enabled }) } := by
        simp only [step, setEnabled, hprovider]
      rw [hstep]
      exact hkeep _ rfl (fun other => index_update hprovider (by rfl) rfl other) trivial
    | none =>
      have hstep : self.step (.setEnabled id enabled) = self := by
        simp only [step, setEnabled, hprovider]
      rw [hstep]
      exact hkeep _ rfl (fun _ => rfl) trivial
  | enterRedraw displayTick =>
    have hstep : (self.step (.enterRedraw displayTick)).order = self.order ∧
        (self.step (.enterRedraw displayTick)).providers = self.providers := by
      simp only [step, enterRedraw]
      cases self.redrawState with
      | some _ => exact ⟨rfl, rfl⟩
      | none =>
        by_cases h : self.nextRedraw + 1 < 2 ^ 64
        · simp only [if_pos h]
          exact ⟨trivial, trivial⟩
        · simp only [if_neg h]
          exact ⟨trivial, trivial⟩
    exact hkeep _ hstep.1 (fun id => by rw [registrationIndex, hstep.2, registrationIndex]) trivial
  | finishRedraw id =>
    have hstep : (self.step (.finishRedraw id)).order = self.order ∧
        (self.step (.finishRedraw id)).providers = self.providers := by
      simp only [step, finishRedraw]
      cases self.redrawState with
      | none => exact ⟨rfl, rfl⟩
      | some state =>
        by_cases h : state.id ≠ id
        · simp only [if_pos h]
          exact ⟨trivial, trivial⟩
        · simp only [if_neg h]
          exact ⟨trivial, trivial⟩
    exact hkeep _ hstep.1 (fun id => by rw [registrationIndex, hstep.2, registrationIndex]) trivial
  | pushEphemeral id item =>
    have hstep : (self.step (.pushEphemeral id item)).order = self.order ∧
        (self.step (.pushEphemeral id item)).providers = self.providers := by
      simp only [step, pushEphemeral]
      cases self.redrawState with
      | none => exact ⟨rfl, rfl⟩
      | some state =>
        dsimp only
        generalize (match item.origin with
          | .provider provider _ => (self.providers provider).isNone
          | .extmark _ _ _ => false) = unknown
        by_cases hid : state.id ≠ id
        · simp only [if_pos hid]
          exact ⟨trivial, trivial⟩
        · by_cases hunknown : unknown = true
          · simp only [if_neg hid, if_pos hunknown]
            exact ⟨trivial, trivial⟩
          · by_cases hseq : state.nextSeq + 1 < 2 ^ 64
            · simp only [if_neg hid, if_neg hunknown, if_pos hseq]
              exact ⟨trivial, trivial⟩
            · simp only [if_neg hid, if_neg hunknown, if_neg hseq]
              exact ⟨trivial, trivial⟩
    exact hkeep _ hstep.1 (fun id => by rw [registrationIndex, hstep.2, registrationIndex]) trivial

/-! ### Ties -/

/-- The index of a provider later in the order is larger. -/
theorem idxOf_le_of_index (hincreasing : Increasing self) {p q : ProviderId}
    {i j : Nat} (hp : self.registrationIndex p = some i) (hq : self.registrationIndex q = some j)
    (hpmem : p ∈ self.order) (hqmem : q ∈ self.order) (hle : i ≤ j) :
    self.order.idxOf p ≤ self.order.idxOf q := by
  by_contra hlt
  have hplt := List.idxOf_lt_length_of_mem hpmem
  have hqlt := List.idxOf_lt_length_of_mem hqmem
  rw [Increasing, List.pairwise_filterMap] at hincreasing
  have hless := List.pairwise_iff_getElem.mp hincreasing (self.order.idxOf q) (self.order.idxOf p)
    hqlt hplt (by omega) j (by rw [List.getElem_idxOf, hq]) i (by rw [List.getElem_idxOf, hp])
  omega

theorem scored_key {state : RedrawState} {persistent : List DecorItem} {window row : UInt32}
    {entry : DecorItem × SortKey} (h : entry ∈ self.scored state persistent window row) :
    ∃ seq, entry.2 = self.sortKey entry.1 seq := by
  rw [scored, List.mem_append, List.mem_map, List.mem_map] at h
  rcases h with ⟨item, -, rfl⟩ | ⟨stored, -, rfl⟩
  · exact ⟨none, rfl⟩
  · exact ⟨some stored.seq, rfl⟩

/-- **Highlights of equal priority are ordered by provider** where indices follow the order. -/
theorem tiesInOrder (hlisted : Listed self) (hincreasing : Increasing self) : TiesInOrder self := by
  intro id persistent window row
  rw [queryLine]
  cases self.redrawState with
  | none => exact List.Pairwise.nil
  | some state =>
    dsimp only
    split
    · exact List.Pairwise.nil
    · rw [List.pairwise_map]
      have hsorted : ((self.scored state persistent window row).mergeSort
          fun a b => a.2 ≤ b.2).Pairwise fun a b => decide (a.2 ≤ b.2) = true := by
        apply List.pairwise_mergeSort
        · intro a b c hab hbc
          simp only [decide_eq_true_eq] at *
          exact le_trans hab hbc
        · intro a b
          simp only [Bool.or_eq_true, decide_eq_true_eq]
          exact le_total _ _
      refine List.Pairwise.imp_of_mem ?_ hsorted
      intro x y hx hy hle hpriority p q phase phase' hp hq hpmem hqmem
      obtain ⟨seq, hxkey⟩ := scored_key (List.mem_mergeSort.mp hx)
      obtain ⟨seq', hykey⟩ := scored_key (List.mem_mergeSort.mp hy)
      rw [decide_eq_true_eq, hxkey, hykey] at hle
      obtain ⟨i, hi⟩ := Option.isSome_iff_exists.mp ((hlisted.mem_iff p).mp hpmem)
      obtain ⟨j, hj⟩ := Option.isSome_iff_exists.mp ((hlisted.mem_iff q).mp hqmem)
      simp only [sortKey, hp, hq, hi, hj, hpriority, Option.map_some, Option.getD_some,
        Prod.Lex.toLex_le_toLex, lt_self_iff_false, false_or, true_and] at hle
      have hindex : i.order ≤ j.order := by
        rcases hle with hlt | ⟨heq, -⟩
        · exact hlt.le
        · exact heq.le
      exact idxOf_le_of_index hincreasing (by rw [registrationIndex, hi]; rfl)
        (by rw [registrationIndex, hj]; rfl) hpmem hqmem hindex

theorem oneOrder_iff (hlisted : Listed self) : OneOrder self ↔ Increasing self :=
  ⟨fun h => h.increasing, fun h => ⟨hlisted, h, tiesInOrder hlisted h, fun _ => List.filter_sublist⟩⟩

/-! ### Runs -/

theorem listed_new : Listed new :=
  ⟨List.nodup_nil, fun _ => by simp [new]⟩

theorem increasing_new : Increasing new := by
  simp [Increasing, new]

theorem run_iff (hlisted : Listed self) (hincreasing : Increasing self) (ops : List Op) :
    (∀ n, OneOrder (self.run (ops.take n))) ↔ self.SafeRun ops := by
  induction ops generalizing self with
  | nil =>
    refine ⟨fun _ => trivial, fun _ n => ?_⟩
    rw [List.take_nil]
    exact (oneOrder_iff hlisted).mpr hincreasing
  | cons op ops ih =>
    obtain ⟨hlisted', hiff⟩ := step_iff hlisted hincreasing op
    constructor
    · intro h
      have hfirst : OneOrder (self.step op) := h 1
      have hincreasing' := hfirst.increasing
      exact ⟨hiff.mp hincreasing', (ih hlisted' hincreasing').mp fun n => h (n + 1)⟩
    · intro h n
      have hincreasing' := hiff.mpr h.1
      cases n with
      | zero => exact (oneOrder_iff hlisted).mpr hincreasing
      | succ n => exact (ih hlisted' hincreasing').mpr h.2 n

/-- **Providers keep one order in every state of a run exactly when no provider is installed while an
index in use is as large as the number of providers.** -/
theorem oneOrder_run_iff (ops : List Op) :
    (∀ n, OneOrder (new.run (ops.take n))) ↔ new.SafeRun ops :=
  run_iff listed_new increasing_new ops

/-- The second of two providers keeps its index when the first is removed, and a third gets it too. -/
theorem not_oneOrder_shared : ¬OneOrder (new.run
    [.replaceProvider 1 .none', .replaceProvider 2 .none', .remove 1, .replaceProvider 3 .none']) := by
  intro h
  exact absurd h.increasing (by decide)

end Decorations

end Oxvim.Editor.Decoration
