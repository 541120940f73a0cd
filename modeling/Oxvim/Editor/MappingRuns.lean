import Oxvim.Editor.Mapping

/-!
# The mapping table as a finite map

What the table says is a map from scope, mode and left-hand side to the last definition: `Definitions`.
An entry stands for many keys of that map, and is whittled down by later definitions.
-/

namespace Oxvim.Editor

open Lib

variable {α : Type}

/-! ## The map -/

/-- A definition: the left-hand side, what it does, and its flags. -/
structure Definition (α : Type) where
  lhs : Keys
  action : α
  flags : MapFlags

/-- The last definition for each scope, mode and left-hand side. -/
abbrev Definitions (α : Type) := MapScope → MapMode → Keys → Option (Definition α)

namespace Definitions

/-- A definition for some modes replaces those for the same left-hand side, scope and modes. -/
def define (d : Definitions α) (lhs : Keys) (action : α) (options : MappingOptions) : Definitions α :=
  fun scope mode lhs' =>
    if lhs' = lhs ∧ scope = options.scope ∧ options.modes.contains mode = true then
      some ⟨lhs, action, options.flags⟩
    else d scope mode lhs'

/-- Forgets definitions. -/
def forget (d : Definitions α) (forgotten : MapScope → MapMode → Keys → Prop)
    [∀ scope mode lhs, Decidable (forgotten scope mode lhs)] : Definitions α :=
  fun scope mode lhs => if forgotten scope mode lhs then none else d scope mode lhs

/-- The longest prefix of the input, of at most so many bytes, that has a definition. -/
def longestUpTo (d : Keys → Option (Definition α)) (input : List UInt8) : Nat → Option (Definition α)
  | 0 => d ⟨[]⟩
  | k + 1 => (d ⟨input.take (k + 1)⟩).or (longestUpTo d input k)

/-- The longest left-hand side that is a prefix of the input. -/
def longest (d : Keys → Option (Definition α)) (input : List UInt8) : Option (Definition α) :=
  longestUpTo d input input.length

/-- A left-hand side properly extends the input. -/
def HasLonger (d : Keys → Option (Definition α)) (input : List UInt8) : Prop :=
  ∃ lhs, (d lhs).isSome ∧ input <+: lhs.bytes ∧ input.length < lhs.len

/-- What a lookup answers. -/
inductive Answer (α : Type) where
  | exact (definition : Definition α) (count : Nat)
  | prefixed (definition : Option (Definition α))
  | none

open Classical in
/-- The answer of one scope and mode: the longest match, unless more input may select a longer one and the
match does not forbid to wait. -/
noncomputable def rule (d : Keys → Option (Definition α)) (input : List UInt8) : Answer α :=
  if HasLonger d input ∧ ∀ found, longest d input = some found → found.flags.contains .NOWAIT = false then
    .prefixed (longest d input)
  else
    match longest d input with
    | some found => .exact found found.lhs.len
    | none => .none

/-- The scope of the buffer answers first. -/
noncomputable def answer (d : Definitions α) (input : List UInt8) (mode : MapMode)
    (buffer : Option BufHandle) : Answer α :=
  match buffer with
  | some buffer =>
    match rule (d (.buffer buffer) mode) input with
    | .none => rule (d .global mode) input
    | found => found
  | none => rule (d .global mode) input

theorem longestUpTo_eq_none {d : Keys → Option (Definition α)} {input : List UInt8} {k : Nat}
    (h : ∀ j ≤ k, d ⟨input.take j⟩ = none) : longestUpTo d input k = none := by
  induction k with
  | zero => exact h 0 le_rfl
  | succ k ih => rw [longestUpTo, h (k + 1) le_rfl, Option.none_or, ih fun j hj => h j (by omega)]

theorem longestUpTo_eq_some {d : Keys → Option (Definition α)} {input : List UInt8} {n k : Nat}
    {found : Definition α} (hn : n ≤ k) (hfound : d ⟨input.take n⟩ = some found)
    (hnone : ∀ j, n < j → j ≤ k → d ⟨input.take j⟩ = none) : longestUpTo d input k = some found := by
  induction k with
  | zero =>
    obtain rfl : n = 0 := by omega
    exact hfound
  | succ k ih =>
    rw [longestUpTo]
    by_cases heq : n = k + 1
    · subst heq
      rw [hfound, Option.some_or]
    · rw [hnone (k + 1) (by omega) le_rfl, Option.none_or]
      exact ih (by omega) fun j hj hle => hnone j hj (by omega)

end Definitions

/-- The operations on the table. -/
inductive MapOp (α : Type) where
  | map (lhs : Keys) (action : α) (options : MappingOptions)
  | noremap (lhs : Keys) (action : α) (options : MappingOptions)
  | unmap (lhs : Keys) (modes : MapModes) (scope : MapScope)
  | mapclear (modes : MapModes) (scope : MapScope)
  | removeBuffer (buffer : BufHandle)

namespace MapOp

/-- A refused definition changes nothing. -/
def step (op : MapOp α) (t : Mappings α) : Mappings α :=
  match op with
  | map lhs action options => (t.map lhs action options).toOption.getD t
  | noremap lhs action options => (t.noremap lhs action options).toOption.getD t
  | unmap lhs modes scope => (t.unmap lhs modes scope).1
  | mapclear modes scope => (t.mapclear modes scope).1
  | removeBuffer buffer => t.removeBuffer buffer

/-- What an operation does to the map. -/
def apply (op : MapOp α) (d : Definitions α) : Definitions α :=
  match op with
  | map lhs action options => if lhs.isEmpty then d else d.define lhs action options
  | noremap lhs action options =>
    if lhs.isEmpty then d
    else d.define lhs action { options with flags := options.flags.set .REMAP false }
  | unmap lhs modes scope =>
    d.forget fun scope' mode lhs' => lhs' = lhs ∧ scope' = scope ∧ modes.contains mode = true
  | mapclear modes scope => d.forget fun scope' mode _ => scope' = scope ∧ modes.contains mode = true
  | removeBuffer buffer => d.forget fun scope _ _ => scope = .buffer buffer

end MapOp

/-! ## The invariant -/

namespace Mapping

variable {m m' : Mapping α} {scope : MapScope} {mode : MapMode} {lhs : Keys}

/-- The entry stands for this key of the map. -/
def Covers (m : Mapping α) (scope : MapScope) (mode : MapMode) (lhs : Keys) : Prop :=
  m.options.scope = scope ∧ m.options.modes.contains mode = true ∧ m.lhs = lhs

def definition (m : Mapping α) : Definition α := ⟨m.lhs, m.action, m.options.flags⟩

/-- Two entries stand for different keys. -/
def Apart (m m' : Mapping α) : Prop :=
  m.lhs = m'.lhs → m.options.scope = m'.options.scope → m.options.modes.intersects m'.options.modes = false

theorem Apart.not_covers (h : m.Apart m') (hm : m.Covers scope mode lhs) : ¬m'.Covers scope mode lhs := by
  rintro ⟨hscope', hmode', hlhs'⟩
  obtain ⟨hscope, hmode, hlhs⟩ := hm
  have hnot := h (hlhs.trans hlhs'.symm) (hscope.trans hscope'.symm)
  rw [MapModes.intersects_iff.mpr ⟨mode, hmode, hmode'⟩] at hnot
  cases hnot

end Mapping

namespace Mappings

variable {t : Mappings α} {entries : List (Mapping α)} {m : Mapping α} {scope : MapScope} {mode : MapMode}
  {lhs : Keys}

/-- No entry is without modes, and no two stand for the same key. -/
structure Disjoint (t : Mappings α) : Prop where
  modes : ∀ m ∈ t.entries, m.options.modes.isEmpty = false
  apart : t.entries.Pairwise Mapping.Apart

/-- The table says the same as the map. -/
def Represents (t : Mappings α) (d : Definitions α) : Prop :=
  ∀ scope mode lhs definition, d scope mode lhs = some definition ↔
    ∃ m ∈ t.entries, m.Covers scope mode lhs ∧ m.definition = definition

/-! ### Whittling down -/

/-- An entry after modes were taken away. -/
def whittled (selected : Mapping α → Bool) (modes : MapModes) (m : Mapping α) : Mapping α :=
  if selected m then { m with options := { m.options with modes := m.options.modes.without modes } } else m

theorem mem_withdraw {selected : Mapping α → Bool} {modes : MapModes} :
    m ∈ withdraw entries selected modes ↔
      ∃ old ∈ entries, whittled selected modes old = m ∧ m.options.modes.isEmpty = false := by
  rw [withdraw, List.mem_filter, List.mem_map, Bool.not_eq_true']
  constructor
  · rintro ⟨⟨old, hold, rfl⟩, hsome⟩
    exact ⟨old, hold, rfl, hsome⟩
  · rintro ⟨old, hold, rfl, hsome⟩
    exact ⟨⟨old, hold, rfl⟩, hsome⟩

theorem whittled_covers (selected : Mapping α → Bool) (modes : MapModes) :
    (whittled selected modes m).Covers scope mode lhs ↔
      m.Covers scope mode lhs ∧ ¬(selected m = true ∧ modes.contains mode = true) := by
  rw [whittled]
  by_cases hselected : selected m = true
  · rw [if_pos hselected]
    simp only [Mapping.Covers, MapModes.contains_without, Bool.and_eq_true, Bool.not_eq_true', hselected,
      true_and, Bool.not_eq_true]
    grind
  · rw [if_neg hselected]
    exact ⟨fun h => ⟨h, fun hs => hselected hs.1⟩, fun h => h.1⟩

theorem whittled_definition (selected : Mapping α → Bool) (modes : MapModes) :
    (whittled selected modes m).definition = m.definition := by
  rw [whittled]
  split
  · rfl
  · rfl

theorem whittled_lhs (selected : Mapping α → Bool) (modes : MapModes) (m : Mapping α) :
    (whittled selected modes m).lhs = m.lhs ∧
      (whittled selected modes m).options.scope = m.options.scope := by
  rw [whittled]
  split
  · exact ⟨rfl, rfl⟩
  · exact ⟨rfl, rfl⟩

/-- Taking modes away keeps entries apart. -/
theorem whittled_apart {m' : Mapping α} (selected : Mapping α → Bool) (modes : MapModes) (h : m.Apart m') :
    (whittled selected modes m).Apart (whittled selected modes m') := by
  intro hlhs hscope
  by_contra hne
  obtain ⟨mode, hmode, hmode'⟩ := MapModes.intersects_iff.mp (Bool.eq_true_of_not_eq_false hne)
  have hcovers := (whittled_covers selected modes).mp ⟨rfl, hmode, rfl⟩
  have hcovers' := (whittled_covers selected modes).mp ⟨hscope.symm, hmode', hlhs.symm⟩
  exact h.not_covers hcovers.1 hcovers'.1

theorem withdraw_apart (h : entries.Pairwise Mapping.Apart) (selected : Mapping α → Bool)
    (modes : MapModes) : (withdraw entries selected modes).Pairwise Mapping.Apart :=
  (h.map _ fun _ _ hapart => whittled_apart selected modes hapart).filter _

/-- The keys that stay are those that are not withdrawn. -/
theorem withdraw_covers {selected : Mapping α → Bool} {modes : MapModes} {definition : Definition α} :
    (∃ m ∈ withdraw entries selected modes, m.Covers scope mode lhs ∧ m.definition = definition) ↔
      ∃ m ∈ entries, m.Covers scope mode lhs ∧ ¬(selected m = true ∧ modes.contains mode = true) ∧
        m.definition = definition := by
  constructor
  · rintro ⟨m, hm, hcovers, hdefinition⟩
    obtain ⟨old, hold, rfl, -⟩ := mem_withdraw.mp hm
    obtain ⟨hcovers, hkept⟩ := (whittled_covers selected modes).mp hcovers
    exact ⟨old, hold, hcovers, hkept, (whittled_definition selected modes).symm.trans hdefinition⟩
  · rintro ⟨old, hold, hcovers, hkept, hdefinition⟩
    have hcovers' := (whittled_covers selected modes).mpr ⟨hcovers, hkept⟩
    refine ⟨whittled selected modes old, mem_withdraw.mpr ⟨old, hold, rfl, ?_⟩, hcovers',
      (whittled_definition selected modes).trans hdefinition⟩
    by_contra hempty
    have hnone := MapModes.isEmpty_iff.mp (Bool.eq_true_of_not_eq_false hempty) mode
    rw [hcovers'.2.1] at hnone
    cases hnone

theorem Represents.forget {d : Definitions α} {forgotten : MapScope → MapMode → Keys → Prop}
    [∀ scope mode lhs, Decidable (forgotten scope mode lhs)] {kept : List (Mapping α)}
    (h : t.Represents d)
    (hkept : ∀ scope mode lhs definition,
      (∃ m ∈ kept, m.Covers scope mode lhs ∧ m.definition = definition) ↔
        ∃ m ∈ t.entries, m.Covers scope mode lhs ∧ ¬forgotten scope mode lhs ∧ m.definition = definition) :
    Represents { t with entries := kept } (d.forget forgotten) := by
  intro scope mode lhs definition
  rw [hkept, Definitions.forget]
  split
  · next hforgotten =>
    refine iff_of_false (by rintro ⟨⟩) ?_
    rintro ⟨m, -, -, hnot, -⟩
    exact hnot hforgotten
  · next hforgotten =>
    rw [h scope mode lhs definition]
    constructor
    · rintro ⟨m, hm, hcovers, hdefinition⟩
      exact ⟨m, hm, hcovers, hforgotten, hdefinition⟩
    · rintro ⟨m, hm, hcovers, -, hdefinition⟩
      exact ⟨m, hm, hcovers, hdefinition⟩

/-- Withdrawing forgets the keys of the selected entries that have one of the modes. -/
theorem Represents.withdraw {d : Definitions α} {forgotten : MapScope → MapMode → Keys → Prop}
    [∀ scope mode lhs, Decidable (forgotten scope mode lhs)] (h : t.Represents d)
    {selected : Mapping α → Bool} {modes : MapModes}
    (hselected : ∀ m scope mode lhs, m.Covers scope mode lhs →
      (selected m = true ∧ modes.contains mode = true ↔ forgotten scope mode lhs)) :
    Represents { t with entries := withdraw t.entries selected modes } (d.forget forgotten) := by
  apply h.forget
  intro scope mode lhs definition
  rw [withdraw_covers]
  constructor
  · rintro ⟨m, hm, hcovers, hnot, hdefinition⟩
    exact ⟨m, hm, hcovers, fun hf => hnot ((hselected m scope mode lhs hcovers).mpr hf), hdefinition⟩
  · rintro ⟨m, hm, hcovers, hnot, hdefinition⟩
    exact ⟨m, hm, hcovers, fun hs => hnot ((hselected m scope mode lhs hcovers).mp hs), hdefinition⟩

theorem withdraw_modes {selected : Mapping α → Bool} {modes : MapModes} :
    ∀ m ∈ withdraw entries selected modes, m.options.modes.isEmpty = false := by
  intro m hm
  obtain ⟨-, -, -, hsome⟩ := mem_withdraw.mp hm
  exact hsome

/-- A mode that the entry covers meets the modes that are taken away. -/
theorem intersects_of_covers {modes : MapModes} (hcovers : m.Covers scope mode lhs)
    (hmode : modes.contains mode = true) : m.options.modes.intersects modes = true :=
  MapModes.intersects_iff.mpr ⟨mode, hcovers.2.1, hmode⟩

/-! ### One operation -/

theorem map_spec {d : Definitions α} (ht : t.Disjoint) (h : t.Represents d) (action : α)
    (options : MappingOptions) :
    ((t.map lhs action options).toOption.getD t).Disjoint ∧
      Represents ((t.map lhs action options).toOption.getD t)
        (if lhs.isEmpty then d else d.define lhs action options) := by
  rw [Mappings.map]
  by_cases hlhs : lhs.isEmpty = true
  · rw [if_pos hlhs, if_pos hlhs]
    exact ⟨ht, h⟩
  rw [if_neg hlhs, if_neg hlhs]
  by_cases hmodes : options.modes.isEmpty = true
  · rw [if_pos hmodes]
    refine ⟨ht, ?_⟩
    have hsame : d.define lhs action options = d := by
      funext scope mode lhs'
      rw [Definitions.define, if_neg]
      rintro ⟨-, -, hmode⟩
      rw [MapModes.isEmpty_iff.mp hmodes mode] at hmode
      cases hmode
    rw [hsame]
    exact h
  rw [if_neg hmodes]
  -- the definition takes its keys from the older entries, and is appended
  have hkept : Represents { t with
      entries := withdraw t.entries (fun mapping =>
        mapping.lhs = lhs && mapping.options.scope = options.scope) options.modes }
      (d.forget fun scope mode lhs' =>
        lhs' = lhs ∧ scope = options.scope ∧ options.modes.contains mode = true) := by
    apply h.withdraw
    rintro m scope mode lhs' ⟨rfl, hmode, rfl⟩
    rw [Bool.and_eq_true, decide_eq_true_eq, decide_eq_true_eq, and_assoc]
  refine ⟨⟨?_, ?_⟩, ?_⟩
  · intro m hm
    rcases List.mem_append.mp hm with hm | hm
    · exact withdraw_modes m hm
    · rw [List.mem_singleton.mp hm]
      exact Bool.eq_false_of_not_eq_true hmodes
  · show (withdraw t.entries _ options.modes ++ [_]).Pairwise Mapping.Apart
    rw [List.pairwise_append]
    refine ⟨withdraw_apart ht.apart _ _, List.pairwise_singleton _ _, ?_⟩
    rintro m hm new hnew hlhs' hscope'
    rw [List.mem_singleton] at hnew
    subst hnew
    obtain ⟨old, -, rfl, -⟩ := mem_withdraw.mp hm
    by_contra hne
    obtain ⟨mode, hmode, hmode'⟩ := MapModes.intersects_iff.mp (Bool.eq_true_of_not_eq_false hne)
    obtain ⟨hsame, hsameScope⟩ := whittled_lhs (fun mapping : Mapping α =>
      mapping.lhs = lhs && mapping.options.scope = options.scope) options.modes old
    have hcovers := (whittled_covers _ options.modes).mp ⟨rfl, hmode, rfl⟩
    refine hcovers.2 ⟨?_, hmode'⟩
    rw [Bool.and_eq_true, decide_eq_true_eq, decide_eq_true_eq]
    exact ⟨hsame.symm.trans hlhs', hsameScope.symm.trans hscope'⟩
  · intro scope mode lhs' definition
    have hold := hkept scope mode lhs' definition
    rw [Definitions.forget] at hold
    rw [Definitions.define]
    have hsplit : (∃ m ∈ withdraw t.entries
          (fun mapping => mapping.lhs = lhs && mapping.options.scope = options.scope) options.modes ++
            [⟨lhs, action, options, t.nextSequence⟩],
          m.Covers scope mode lhs' ∧ m.definition = definition) ↔
        (∃ m ∈ withdraw t.entries
          (fun mapping => mapping.lhs = lhs && mapping.options.scope = options.scope) options.modes,
          m.Covers scope mode lhs' ∧ m.definition = definition) ∨
        (lhs' = lhs ∧ scope = options.scope ∧ options.modes.contains mode = true) ∧
          ⟨lhs, action, options.flags⟩ = definition := by
      constructor
      · rintro ⟨m, hm, hcovers, hdefinition⟩
        rcases List.mem_append.mp hm with hm | hm
        · exact .inl ⟨m, hm, hcovers, hdefinition⟩
        · rw [List.mem_singleton] at hm
          subst hm
          exact .inr ⟨⟨hcovers.2.2.symm, hcovers.1.symm, hcovers.2.1⟩, hdefinition⟩
      · rintro (⟨m, hm, hcovers, hdefinition⟩ | ⟨⟨rfl, rfl, hmode⟩, hdefinition⟩)
        · exact ⟨m, List.mem_append_left _ hm, hcovers, hdefinition⟩
        · exact ⟨_, List.mem_append_right _ (List.mem_singleton.mpr rfl), ⟨rfl, hmode, rfl⟩, hdefinition⟩
    refine Iff.trans ?_ hsplit.symm
    rw [← hold]
    by_cases hkey : lhs' = lhs ∧ scope = options.scope ∧ options.modes.contains mode = true
    · rw [if_pos hkey, if_pos hkey]
      constructor
      · rintro ⟨⟩
        exact .inr ⟨hkey, rfl⟩
      · rintro (⟨⟨⟩⟩ | ⟨-, rfl⟩)
        rfl
    · rw [if_neg hkey, if_neg hkey]
      exact ⟨.inl, fun hor => hor.resolve_right fun hnew => hkey hnew.1⟩

theorem step_spec {d : Definitions α} (ht : t.Disjoint) (h : t.Represents d) (op : MapOp α) :
    (op.step t).Disjoint ∧ (op.step t).Represents (op.apply d) := by
  cases op with
  | map lhs action options => exact map_spec ht h action options
  | noremap lhs action options => exact map_spec ht h action _
  | unmap lhs modes scope =>
    refine ⟨⟨withdraw_modes, withdraw_apart ht.apart _ _⟩, h.withdraw ?_⟩
    intro m scope' mode lhs' hcovers
    simp only [Bool.and_eq_true, decide_eq_true_eq]
    constructor
    · rintro ⟨⟨⟨hlhs, hscope⟩, -⟩, hmode⟩
      exact ⟨hcovers.2.2.symm.trans hlhs, hcovers.1.symm.trans hscope, hmode⟩
    · rintro ⟨hlhs, hscope, hmode⟩
      exact ⟨⟨⟨hcovers.2.2.trans hlhs, hcovers.1.trans hscope⟩, intersects_of_covers hcovers hmode⟩, hmode⟩
  | mapclear modes scope =>
    refine ⟨⟨withdraw_modes, withdraw_apart ht.apart _ _⟩, h.withdraw ?_⟩
    intro m scope' mode lhs' hcovers
    simp only [Bool.and_eq_true, decide_eq_true_eq]
    constructor
    · rintro ⟨⟨hscope, -⟩, hmode⟩
      exact ⟨hcovers.1.symm.trans hscope, hmode⟩
    · rintro ⟨hscope, hmode⟩
      exact ⟨⟨hcovers.1.trans hscope, intersects_of_covers hcovers hmode⟩, hmode⟩
  | removeBuffer buffer =>
    refine ⟨⟨?_, ht.apart.filter _⟩, h.forget ?_⟩
    · intro m hm
      exact ht.modes m (List.mem_of_mem_filter hm)
    · intro scope mode lhs definition
      simp only [List.mem_filter, decide_not, Bool.not_eq_true', decide_eq_false_iff_not]
      constructor
      · rintro ⟨m, ⟨hm, hscope⟩, hcovers, hdefinition⟩
        exact ⟨m, hm, hcovers, fun heq => hscope (hcovers.1.trans heq), hdefinition⟩
      · rintro ⟨m, hm, hcovers, hscope, hdefinition⟩
        exact ⟨m, ⟨hm, fun heq => hscope (hcovers.1.symm.trans heq)⟩, hcovers, hdefinition⟩

/-! ### Runs -/

/-- The table that the operations lead to. -/
def run (ops : List (MapOp α)) : Mappings α := ops.foldl (fun t op => op.step t) new

/-- The last definitions. -/
def definitions (ops : List (MapOp α)) : Definitions α :=
  ops.foldl (fun d op => op.apply d) fun _ _ _ => none

theorem run_spec (ops : List (MapOp α)) : (run ops).Disjoint ∧ (run ops).Represents (definitions ops) := by
  have hsteps : ∀ (ops : List (MapOp α)) (t : Mappings α) (d : Definitions α), t.Disjoint → t.Represents d →
      (ops.foldl (fun t op => op.step t) t).Disjoint ∧
        (ops.foldl (fun t op => op.step t) t).Represents (ops.foldl (fun d op => op.apply d) d) := by
    intro ops
    induction ops with
    | nil =>
      intro t d ht h
      exact ⟨ht, h⟩
    | cons op ops ih =>
      intro t d ht h
      obtain ⟨ht', h'⟩ := step_spec ht h op
      exact ih _ _ ht' h'
  refine hsteps ops new _ ⟨fun m hm => absurd hm List.not_mem_nil, .nil⟩ ?_
  intro scope mode lhs definition
  refine iff_of_false (by rintro ⟨⟩) ?_
  rintro ⟨m, hm, -⟩
  cases hm

/-! ### Lookups -/

/-- What the loop over the entries of a scope has found. -/
structure Considered (input : List UInt8) (seen : List (Mapping α)) (c : Candidates α) : Prop where
  longer : c.longer = true ↔ ∃ m ∈ seen, input <+: m.lhs.bytes ∧ input.length < m.lhs.len
  none : c.full = none → ∀ m ∈ seen, ¬m.lhs.bytes <+: input
  some : ∀ found, c.full = some found → found ∈ seen ∧ found.lhs.bytes <+: input ∧
    ∀ m ∈ seen, m.lhs.bytes <+: input → m.lhs.len ≤ found.lhs.len

theorem Considered.step {input : List UInt8} {seen : List (Mapping α)} {c : Candidates α}
    (h : Considered input seen c) (m : Mapping α) :
    Considered input (seen ++ [m]) (c.consider input m) := by
  refine ⟨?_, ?_, ?_⟩
  · rw [Candidates.consider, Bool.or_eq_true, h.longer, Bool.and_eq_true, List.isPrefixOf_iff_prefix,
      decide_eq_true_eq]
    constructor
    · rintro (⟨m', hm', hlonger⟩ | hlonger)
      · exact ⟨m', List.mem_append_left _ hm', hlonger⟩
      · exact ⟨m, List.mem_append_right _ (List.mem_singleton.mpr rfl), hlonger⟩
    · rintro ⟨m', hm', hlonger⟩
      rcases List.mem_append.mp hm' with hm' | hm'
      · exact .inl ⟨m', hm', hlonger⟩
      · rw [List.mem_singleton.mp hm'] at hlonger
        exact .inr hlonger
  · intro hnone m' hm'
    rw [Candidates.consider] at hnone
    dsimp only at hnone
    split at hnone
    · cases hnone
    · next hskip =>
      rcases List.mem_append.mp hm' with hm' | hm'
      · exact h.none hnone m' hm'
      · rw [List.mem_singleton.mp hm']
        intro hprefix
        apply hskip
        rw [hnone, Option.all_none, Bool.and_true, List.isPrefixOf_iff_prefix]
        exact hprefix
  · intro found hfound
    rw [Candidates.consider] at hfound
    dsimp only at hfound
    split at hfound
    · next htake =>
      cases hfound
      rw [Bool.and_eq_true, List.isPrefixOf_iff_prefix] at htake
      refine ⟨List.mem_append_right _ (List.mem_singleton.mpr rfl), htake.1, ?_⟩
      intro m' hm' hprefix
      rcases List.mem_append.mp hm' with hm' | hm'
      · cases hfull : c.full with
        | none => exact absurd hprefix (h.none hfull m' hm')
        | some old =>
          have hold := (h.some old hfull).2.2 m' hm' hprefix
          have hbetter := htake.2
          rw [hfull, Option.all_some, Bool.or_eq_true, Bool.and_eq_true, decide_eq_true_eq,
            decide_eq_true_eq] at hbetter
          have hlength : m.lhs.bytes.length = m.lhs.len := rfl
          omega
      · rw [List.mem_singleton.mp hm']
    · next hskip =>
      obtain ⟨hmem, hprefix, hlongest⟩ := h.some found hfound
      refine ⟨List.mem_append_left _ hmem, hprefix, ?_⟩
      intro m' hm' hprefix'
      rcases List.mem_append.mp hm' with hm' | hm'
      · exact hlongest m' hm' hprefix'
      · rw [List.mem_singleton.mp hm'] at hprefix' ⊢
        by_contra hlonger
        apply hskip
        rw [hfound, Option.all_some, Bool.and_eq_true, List.isPrefixOf_iff_prefix, Bool.or_eq_true,
          decide_eq_true_eq]
        exact ⟨hprefix', .inl (not_le.mp hlonger)⟩

theorem considered (input : List UInt8) (entries : List (Mapping α)) :
    Considered input entries (entries.foldl (Candidates.consider input) ⟨none, false⟩) := by
  have hsteps : ∀ (rest seen : List (Mapping α)) (c : Candidates α), Considered input seen c →
      Considered input (seen ++ rest) (rest.foldl (Candidates.consider input) c) := by
    intro rest
    induction rest with
    | nil =>
      intro seen c h
      rw [List.append_nil]
      exact h
    | cons m rest ih =>
      intro seen c h
      have hnext := ih (seen ++ [m]) (c.consider input m) (h.step m)
      rw [List.append_assoc] at hnext
      exact hnext
  refine hsteps entries [] ⟨none, false⟩ ⟨?_, ?_, ?_⟩
  · refine iff_of_false Bool.false_ne_true ?_
    rintro ⟨m, hm, -⟩
    cases hm
  · rintro - m hm
    cases hm
  · rintro found ⟨⟩

end Mappings

/-- What a lookup says of definitions. -/
def Lookup.answer : Lookup α → Definitions.Answer α
  | .exact mapping count => .exact mapping.definition count
  | .prefixed mapping => .prefixed (mapping.map Mapping.definition)
  | .none => .none

namespace Mappings

variable {t : Mappings α} {m : Mapping α} {scope : MapScope} {mode : MapMode} {lhs : Keys}
  {d : Definitions α}

theorem mem_scope {entries : List (Mapping α)} :
    m ∈ entries.filter (fun mapping =>
      mapping.options.scope = scope && mapping.options.modes.contains mode) ↔
        m ∈ entries ∧ m.Covers scope mode m.lhs := by
  rw [List.mem_filter, Bool.and_eq_true, decide_eq_true_eq]
  constructor
  · rintro ⟨hm, hscope, hmode⟩
    exact ⟨hm, hscope, hmode, rfl⟩
  · rintro ⟨hm, hscope, hmode, -⟩
    exact ⟨hm, hscope, hmode⟩

/-- An entry of the scope is a definition. -/
theorem Represents.definition (h : t.Represents d) (hm : m ∈ t.entries) (hcovers : m.Covers scope mode lhs) :
    d scope mode lhs = some m.definition :=
  (h scope mode lhs m.definition).mpr ⟨m, hm, hcovers, rfl⟩

theorem lookupScope_answer (h : t.Represents d) (input : List UInt8) (mode : MapMode) (scope : MapScope) :
    (t.lookupScope input mode scope).answer = Definitions.rule (d scope mode) input := by
  have hconsidered := considered input (t.entries.filter fun mapping =>
    mapping.options.scope = scope && mapping.options.modes.contains mode)
  rw [lookupScope]
  generalize (t.entries.filter fun mapping =>
    mapping.options.scope = scope && mapping.options.modes.contains mode).foldl
      (Candidates.consider input) ⟨none, false⟩ = c at hconsidered
  have hlonger : c.longer = true ↔ Definitions.HasLonger (d scope mode) input := by
    rw [hconsidered.longer]
    constructor
    · rintro ⟨m, hm, hprefix, hlen⟩
      obtain ⟨hentry, hcovers⟩ := mem_scope.mp hm
      exact ⟨m.lhs, by rw [h.definition hentry hcovers]; rfl, hprefix, hlen⟩
    · rintro ⟨lhs, hsome, hprefix, hlen⟩
      obtain ⟨definition, hdefinition⟩ := Option.isSome_iff_exists.mp hsome
      obtain ⟨m, hm, ⟨hscope, hmode, rfl⟩, -⟩ := (h scope mode lhs definition).mp hdefinition
      exact ⟨m, mem_scope.mpr ⟨hm, hscope, hmode, rfl⟩, hprefix, hlen⟩
  have hlongest : Definitions.longest (d scope mode) input = c.full.map Mapping.definition := by
    -- a definition of a prefix of the input is an entry that the loop has looked at
    have hentry : ∀ j definition, d scope mode ⟨input.take j⟩ = some definition →
        ∃ m, m ∈ t.entries.filter (fun mapping =>
          mapping.options.scope = scope && mapping.options.modes.contains mode) ∧
          m.lhs.bytes = input.take j ∧ m.definition = definition := by
      intro j definition hdefinition
      obtain ⟨m, hm, ⟨hscope, hmode, hlhs⟩, hsame⟩ := (h scope mode _ definition).mp hdefinition
      exact ⟨m, mem_scope.mpr ⟨hm, hscope, hmode, rfl⟩, congrArg Keys.bytes hlhs, hsame⟩
    rw [Definitions.longest]
    cases hfull : c.full with
    | none =>
      apply Definitions.longestUpTo_eq_none
      intro j hj
      by_contra hne
      obtain ⟨definition, hdefinition⟩ := Option.ne_none_iff_exists'.mp hne
      obtain ⟨m, hm, hbytes, -⟩ := hentry j definition hdefinition
      exact hconsidered.none hfull m hm (hbytes ▸ List.take_prefix j input)
    | some found =>
      obtain ⟨hm, hprefix, hmax⟩ := hconsidered.some found hfull
      obtain ⟨hentries, hcovers⟩ := mem_scope.mp hm
      have htake : input.take found.lhs.len = found.lhs.bytes := (List.prefix_iff_eq_take.mp hprefix).symm
      refine Definitions.longestUpTo_eq_some (n := found.lhs.len) hprefix.length_le ?_ ?_
      · rw [htake]
        exact h.definition hentries hcovers
      · intro j hj hle
        by_contra hne
        obtain ⟨definition, hdefinition⟩ := Option.ne_none_iff_exists'.mp hne
        obtain ⟨m, hm', hbytes, -⟩ := hentry j definition hdefinition
        have hshort := hmax m hm' (hbytes ▸ List.take_prefix j input)
        rw [Keys.len, hbytes, List.length_take] at hshort
        omega
  rw [Definitions.rule, hlongest]
  have hwait : (c.full.all fun mapping => !mapping.options.flags.contains .NOWAIT) = true ↔
      ∀ found, c.full.map Mapping.definition = some found → found.flags.contains .NOWAIT = false := by
    cases c.full with
    | none => exact iff_of_true rfl (by rintro found ⟨⟩)
    | some m =>
      rw [Option.all_some, Bool.not_eq_true']
      constructor
      · rintro hnot found ⟨⟩
        exact hnot
      · intro hall
        exact hall m.definition rfl
  by_cases hcondition : (c.longer &&
      c.full.all fun mapping => !mapping.options.flags.contains .NOWAIT) = true
  · rw [if_pos hcondition, if_pos]
    · rfl
    · rw [Bool.and_eq_true] at hcondition
      exact ⟨hlonger.mp hcondition.1, hwait.mp hcondition.2⟩
  · rw [if_neg hcondition, if_neg]
    · cases c.full with
      | none => rfl
      | some m => rfl
    · rintro ⟨hlong, hnot⟩
      apply hcondition
      rw [Bool.and_eq_true]
      exact ⟨hlonger.mpr hlong, hwait.mpr hnot⟩

theorem lookup_answer (h : t.Represents d) (input : List UInt8) (mode : MapMode)
    (buffer : Option BufHandle) : (t.lookup input mode buffer).answer = d.answer input mode buffer := by
  cases buffer with
  | none => exact lookupScope_answer h input mode .global
  | some b =>
    have hlocal := lookupScope_answer h input mode (.buffer b)
    have hglobal := lookupScope_answer h input mode .global
    rw [lookup, Definitions.answer, ← hlocal]
    cases t.lookupScope input mode (.buffer b) with
    | none => exact hglobal
    | exact mapping count => rfl
    | prefixed mapping => rfl

/-- What an exact search finds in a scope: one of the definitions for the modes, if there is any. -/
theorem exactInScope_spec (h : t.Represents d) (bytes : List UInt8) (modes : MapModes) (scope : MapScope) :
    (∀ m, t.exactInScope bytes modes scope = some m →
      ∃ mode, modes.contains mode = true ∧ d scope mode ⟨bytes⟩ = some m.definition) ∧
    (t.exactInScope bytes modes scope = none →
      ∀ mode, modes.contains mode = true → d scope mode ⟨bytes⟩ = none) := by
  rw [exactInScope]
  constructor
  · intro m hm
    have hentry := List.mem_of_find?_eq_some hm
    have htest := List.find?_some hm
    simp only [Bool.and_eq_true, decide_eq_true_eq] at htest
    obtain ⟨⟨hscope, hmodes⟩, hbytes⟩ := htest
    obtain ⟨mode, hmode, hmode'⟩ := MapModes.intersects_iff.mp hmodes
    refine ⟨mode, hmode', h.definition hentry ⟨hscope, hmode, ?_⟩⟩
    rw [← hbytes]
  · intro hnone mode hmode
    by_contra hne
    obtain ⟨definition, hdefinition⟩ := Option.ne_none_iff_exists'.mp hne
    obtain ⟨m, hm, hcovers, -⟩ := (h scope mode _ definition).mp hdefinition
    have htest := List.find?_eq_none.mp hnone m hm
    simp only [Bool.and_eq_true, decide_eq_true_eq] at htest
    exact htest ⟨⟨hcovers.1, intersects_of_covers hcovers hmode⟩, congrArg Keys.bytes hcovers.2.2⟩

theorem conflicts_iff (h : t.Represents d) (modes : MapModes) :
    t.conflicts lhs modes scope = true ↔ ∃ mode, modes.contains mode = true ∧ (d scope mode lhs).isSome := by
  rw [conflicts, List.any_eq_true]
  simp only [Bool.and_eq_true, decide_eq_true_eq]
  constructor
  · rintro ⟨m, hm, ⟨hlhs, hscope⟩, hmodes⟩
    obtain ⟨mode, hmode, hmode'⟩ := MapModes.intersects_iff.mp hmodes
    refine ⟨mode, hmode', ?_⟩
    rw [h.definition hm ⟨hscope, hmode, hlhs⟩]
    rfl
  · rintro ⟨mode, hmode, hsome⟩
    obtain ⟨definition, hdefinition⟩ := Option.isSome_iff_exists.mp hsome
    obtain ⟨m, hm, hcovers, -⟩ := (h scope mode lhs definition).mp hdefinition
    exact ⟨m, hm, ⟨hcovers.2.2, hcovers.1⟩, intersects_of_covers hcovers hmode⟩

/-- What an exact search says of definitions: the scope of the buffer comes first, and in a scope it finds
one of the definitions for the modes. -/
structure FindsExact (d : Definitions α) (bytes : List UInt8) (modes : MapModes)
    (buffer : Option BufHandle) (found : Option (Definition α × Bool)) : Prop where
  isLocal : ∀ definition, found = some (definition, true) → ∃ b mode, buffer = some b ∧
    modes.contains mode = true ∧ d (.buffer b) mode ⟨bytes⟩ = some definition
  isGlobal : ∀ definition, found = some (definition, false) →
    (∃ mode, modes.contains mode = true ∧ d .global mode ⟨bytes⟩ = some definition) ∧
      ∀ b, buffer = some b → ∀ mode, modes.contains mode = true → d (.buffer b) mode ⟨bytes⟩ = none
  none : found = none → ∀ scope, scope = .global ∨ (∃ b, buffer = some b ∧ scope = .buffer b) →
    ∀ mode, modes.contains mode = true → d scope mode ⟨bytes⟩ = none

theorem findExact_spec (h : t.Represents d) (bytes : List UInt8) (modes : MapModes)
    (buffer : Option BufHandle) :
    FindsExact d bytes modes buffer
      ((t.findExact bytes modes buffer).map (Prod.map Mapping.definition id)) := by
  obtain ⟨hfound, hnone⟩ := exactInScope_spec h bytes modes .global
  have hglobal : ∀ definition, ((t.exactInScope bytes modes .global).map (·, false)).map
      (Prod.map Mapping.definition id) = some (definition, false) →
        ∃ mode, modes.contains mode = true ∧ d .global mode ⟨bytes⟩ = some definition := by
    intro definition hdefinition
    cases hexact : t.exactInScope bytes modes .global with
    | none =>
      rw [hexact] at hdefinition
      cases hdefinition
    | some m =>
      rw [hexact] at hdefinition
      cases hdefinition
      exact hfound m hexact
  have hnotLocal : ∀ definition, ((t.exactInScope bytes modes .global).map (·, false)).map
      (Prod.map Mapping.definition id) ≠ some (definition, true) := by
    intro definition
    cases t.exactInScope bytes modes .global with
    | none => rintro ⟨⟩
    | some m => rintro ⟨⟩
  have hglobalNone : ((t.exactInScope bytes modes .global).map (·, false)).map
      (Prod.map Mapping.definition id) = none →
        ∀ mode, modes.contains mode = true → d .global mode ⟨bytes⟩ = none := by
    intro hmap
    rw [Option.map_map, Option.map_eq_none_iff] at hmap
    exact hnone hmap
  cases buffer with
  | none =>
    refine ⟨fun definition hdefinition => absurd hdefinition (hnotLocal definition), ?_, ?_⟩
    · intro definition hdefinition
      exact ⟨hglobal definition hdefinition, by rintro b ⟨⟩⟩
    · rintro hmap scope (rfl | ⟨b, ⟨⟩, -⟩)
      exact hglobalNone hmap
  | some b =>
    obtain ⟨hlocalFound, hlocalNone⟩ := exactInScope_spec h bytes modes (.buffer b)
    rw [findExact, Option.bind_some]
    cases hlocal : t.exactInScope bytes modes (.buffer b) with
    | some m =>
      refine ⟨?_, by rintro definition ⟨⟩, by rintro ⟨⟩⟩
      rintro definition ⟨⟩
      obtain ⟨mode, hmode, hdefinition⟩ := hlocalFound m hlocal
      exact ⟨b, mode, rfl, hmode, hdefinition⟩
    | none =>
      refine ⟨fun definition hdefinition => absurd hdefinition (hnotLocal definition), ?_, ?_⟩
      · intro definition hdefinition
        refine ⟨hglobal definition hdefinition, ?_⟩
        rintro b' ⟨⟩
        exact hlocalNone hlocal
      · rintro hmap scope (rfl | ⟨b', ⟨⟩, rfl⟩)
        · exact hglobalNone hmap
        · exact hlocalNone hlocal

/-- A search for a single mode finds the definition. -/
theorem findExact_one (h : t.Represents d) (bytes : List UInt8) (mode : MapMode)
    (buffer : Option BufHandle) :
    (t.findExact bytes (.one mode) buffer).map (Prod.map Mapping.definition id)
      = ((buffer.bind fun b => d (.buffer b) mode ⟨bytes⟩).map (·, true)).or
          ((d .global mode ⟨bytes⟩).map (·, false)) := by
  have hscope : ∀ scope, (t.exactInScope bytes (.one mode) scope).map Mapping.definition
      = d scope mode ⟨bytes⟩ := by
    intro scope
    obtain ⟨hfound, hnone⟩ := exactInScope_spec h bytes (.one mode) scope
    cases hexact : t.exactInScope bytes (.one mode) scope with
    | none => exact (hnone hexact mode (by rw [MapModes.contains_one]; exact decide_eq_true rfl)).symm
    | some m =>
      obtain ⟨mode', hmode, hdefinition⟩ := hfound m hexact
      rw [MapModes.contains_one] at hmode
      rw [of_decide_eq_true hmode, hdefinition]
      rfl
  cases buffer with
  | none =>
    rw [← hscope .global, findExact]
    cases t.exactInScope bytes (.one mode) .global with
    | none => rfl
    | some m => rfl
  | some b =>
    rw [findExact, Option.bind_some, Option.bind_some, ← hscope (.buffer b), ← hscope .global]
    cases t.exactInScope bytes (.one mode) (.buffer b) with
    | some m => rfl
    | none =>
      cases t.exactInScope bytes (.one mode) .global with
      | none => rfl
      | some m => rfl

/-- **The table refines the map of last definitions: no entry is without modes, no two entries share a key,
and lookups, exact searches and conflicts answer from the map.** -/
theorem mappings_refine (ops : List (MapOp α)) :
    (∀ m ∈ (run ops).entries, ∃ mode, m.options.modes.contains mode = true) ∧
    (run ops).entries.Pairwise (fun m m' => m.lhs = m'.lhs → m.options.scope = m'.options.scope →
      ∀ mode, ¬(m.options.modes.contains mode = true ∧ m'.options.modes.contains mode = true)) ∧
    (∀ input mode buffer,
      ((run ops).lookup input mode buffer).answer = (definitions ops).answer input mode buffer) ∧
    (∀ bytes modes buffer, FindsExact (definitions ops) bytes modes buffer
      (((run ops).findExact bytes modes buffer).map (Prod.map Mapping.definition id))) ∧
    (∀ bytes mode buffer, ((run ops).findExact bytes (.one mode) buffer).map
        (Prod.map Mapping.definition id)
      = ((buffer.bind fun b => definitions ops (.buffer b) mode ⟨bytes⟩).map (·, true)).or
          ((definitions ops .global mode ⟨bytes⟩).map (·, false))) ∧
    ∀ lhs modes scope, (run ops).conflicts lhs modes scope = true ↔
      ∃ mode, modes.contains mode = true ∧ (definitions ops scope mode lhs).isSome := by
  obtain ⟨ht, h⟩ := run_spec ops
  refine ⟨?_, ?_, lookup_answer h, findExact_spec h, findExact_one h, ?_⟩
  · intro m hm
    by_contra hnone
    push Not at hnone
    have hempty := MapModes.isEmpty_iff.mpr fun mode => Bool.eq_false_of_not_eq_true (hnone mode)
    rw [ht.modes m hm] at hempty
    cases hempty
  · apply ht.apart.imp
    rintro m m' hapart hlhs hscope mode ⟨hmode, hmode'⟩
    exact hapart.not_covers ⟨rfl, hmode, rfl⟩ ⟨hscope.symm, hmode', hlhs.symm⟩
  · intro lhs modes scope
    exact conflicts_iff h modes

end Mappings

end Oxvim.Editor
