import Mathlib
import Oxvim.Editor.Autocmd

/-!
# Runs of the autocommand store

Entry ids and sequence numbers are counted along a run (`Issued`), groups and their names stay inverse
to each other, and what leaves the store is handed to the caller. Two things break this: creating a
group that exists with `clear` drops the payloads of its entries, and a counter that has reached its
last value hands it out again.
-/

namespace Oxvim.Editor.Autocmd.Autocmds

/-- The operations of the store. -/
inductive Op where
  | createGroup (name : String) (clear : Bool)
  | deleteGroup (id : AugroupId)
  | deleteGroupLegacy (id : AugroupId)
  | registerApi (events : List Event) (patterns : String) (kind : AutocmdKind)
      (options : AutocmdOptions)
  | registerLegacy (events : List Event) (patterns : String) (kind : AutocmdKind)
      (options : AutocmdOptions)
  | clear (filter : AutocmdFilter)
  | deleteApiId (apiId : Nat)
  | deleteEntry (entryId : AutocmdEntryId)
  | consumeOnce (entryId : AutocmdEntryId)
  | removeBuffer (buffer : BufHandle)

/-- What an operation does and gives back: the store after it, whether it failed, and the payloads it
hands to the caller. -/
structure Effect where
  next : Autocmds
  failed : Bool
  handed : List AutocmdKind

/-- The effect of an operation; `none` where it does not return. -/
def effect (self : Autocmds) : Op → Option Effect
  | .createGroup name clear => (self.createGroup name clear).map fun (next, result) =>
    match result with
    | .ok _ => ⟨next, false, []⟩
    | .error _ => ⟨next, true, []⟩
  | .deleteGroup id => match self.deleteGroup id with
    | .ok (next, removed) => some ⟨next, false, removed⟩
    | .error _ => some ⟨self, true, []⟩
  | .deleteGroupLegacy id => match self.deleteGroupLegacy id with
    | .ok next => some ⟨next, false, []⟩
    | .error _ => some ⟨self, true, []⟩
  | .registerApi events patterns kind options =>
    match self.registerApi events patterns kind options with
    | .ok (next, _) => some ⟨next, false, []⟩
    | .error _ => some ⟨self, true, []⟩
  | .registerLegacy events patterns kind options =>
    match self.registerLegacy events patterns kind options with
    | .ok next => some ⟨next, false, []⟩
    | .error _ => some ⟨self, true, []⟩
  | .clear filter => some ⟨(self.clear filter).1, false, (self.clear filter).2⟩
  | .deleteApiId apiId => some ⟨(self.deleteApiId apiId).1, false, (self.deleteApiId apiId).2⟩
  | .deleteEntry entryId =>
    some ⟨(self.deleteEntry entryId).1, false, (self.deleteEntry entryId).2.toList⟩
  | .consumeOnce entryId =>
    some ⟨(self.consumeOnce entryId).1, false, (self.consumeOnce entryId).2.toList⟩
  | .removeBuffer buffer => some ⟨(self.removeBuffer buffer).1, false, (self.removeBuffer buffer).2⟩

/-! ## Consistency -/

/-- The numbers of an entry. -/
def numbers (entry : Entry) : AutocmdEntryId × Nat :=
  (entry.id, entry.sequence)

/-- The ids and sequence numbers of all entries registered so far, in order. -/
abbrev Issued := List (AutocmdEntryId × Nat)

/-- What an operation adds to the numbers issued: those of the entries that it registers. -/
def record (self : Autocmds) (issued : Issued) (op : Op) (next : Autocmds) : Issued :=
  match op with
  | .registerApi .. | .registerLegacy .. =>
    issued ++ (next.entries.drop self.entries.length).map numbers
  | _ => issued

/-- Names and live groups are inverse to each other, no number is given out twice, and every entry's
group is the default group, a live group or a tombstone. -/
structure Consistent (store : Autocmds) (issued : Issued) : Prop where
  names_iff : ∀ name id, store.groupNames name = some id ↔ store.groups id = some (.live name)
  ids_nodup : (issued.map (·.1)).Nodup
  sequences_nodup : (issued.map (·.2)).Nodup
  entries_issued : (store.entries.map numbers).Sublist issued
  hasGroup : ∀ entry ∈ store.entries, store.hasGroup entry.options.group = true

/-- A failure changes nothing, and the payload of every entry that leaves the store is handed to the
caller, once. -/
structure Accounted (store : Autocmds) (effect : Effect) : Prop where
  unchanged : effect.failed = true → effect.next = store
  handed : effect.handed
    = (store.entries.filter fun entry => !effect.next.entries.contains entry).map (·.kind)

/-- The store is consistent all along a run, and every operation of it accounts for its entries. -/
def RightRun (self : Autocmds) (issued : Issued) : List Op → Prop
  | [] => Consistent self issued
  | op :: ops => Consistent self issued ∧ match self.effect op with
    | none => True
    | some effect =>
      Accounted self effect ∧ RightRun effect.next (self.record issued op effect.next) ops

/-- No group with entries is created again with `clear`, and no registration gives out more than
`u64Max` numbers in all. -/
def Safe (self : Autocmds) (issued : Issued) : Op → Prop
  | .createGroup name clear => clear = true → name ≠ "" → ∀ id, self.groupNames name = some id →
    ∀ entry ∈ self.entries, entry.options.group ≠ id
  | .registerApi events patterns _ options | .registerLegacy events patterns _ options =>
    events ≠ [] → ∀ parsed, self.parseRegistration patterns options = .ok parsed →
      issued.length + parsed.length * events.length ≤ u64Max
  | _ => True

/-- Every operation of a run is safe where it happens. -/
def SafeRun (self : Autocmds) (issued : Issued) : List Op → Prop
  | [] => True
  | op :: ops => Safe self issued op ∧ match self.effect op with
    | none => True
    | some effect => SafeRun effect.next (self.record issued op effect.next) ops

/-! ## The invariant -/

/-- The numbers issued are counted from 1. -/
structure Counted (store : Autocmds) (issued : Issued) : Prop where
  names_iff : ∀ name id, store.groupNames name = some id ↔ store.groups id = some (.live name)
  ids : issued.map (·.1) = List.range' 1 issued.length
  sequences : issued.map (·.2) = List.range' 1 issued.length
  length_le : issued.length ≤ u64Max
  nextEntryId : store.nextEntryId = min (issued.length + 1) u64Max
  nextSequence : store.nextSequence = min (issued.length + 1) u64Max
  entries_issued : (store.entries.map numbers).Sublist issued
  hasGroup : ∀ entry ∈ store.entries, store.hasGroup entry.options.group = true

variable {self next : Autocmds} {issued : Issued}

namespace Counted

theorem consistent (hcounted : Counted self issued) : Consistent self issued where
  names_iff := hcounted.names_iff
  ids_nodup := by
    rw [hcounted.ids]
    exact List.nodup_range'
  sequences_nodup := by
    rw [hcounted.sequences]
    exact List.nodup_range'
  entries_issued := hcounted.entries_issued
  hasGroup := hcounted.hasGroup

theorem nodup_ids (hcounted : Counted self issued) : (self.entries.map (·.id)).Nodup := by
  have hsub := hcounted.entries_issued.map (·.1)
  rw [List.map_map] at hsub
  exact hcounted.consistent.ids_nodup.sublist hsub

/-- Entries may leave the store, as long as the others keep their groups. -/
theorem sublist (hcounted : Counted self issued)
    (hnames : ∀ name id, next.groupNames name = some id ↔ next.groups id = some (.live name))
    (hentry : next.nextEntryId = self.nextEntryId) (hsequence : next.nextSequence = self.nextSequence)
    (hsub : next.entries.Sublist self.entries)
    (hgroup : ∀ entry ∈ next.entries, next.hasGroup entry.options.group = true) :
    Counted next issued where
  names_iff := hnames
  ids := hcounted.ids
  sequences := hcounted.sequences
  length_le := hcounted.length_le
  nextEntryId := hentry.trans hcounted.nextEntryId
  nextSequence := hsequence.trans hcounted.nextSequence
  entries_issued := (hsub.map numbers).trans hcounted.entries_issued
  hasGroup := hgroup

theorem retainNot (hcounted : Counted self issued) (doomed : Entry → Bool) :
    Counted (self.retainNot doomed).1 issued :=
  hcounted.sublist hcounted.names_iff rfl rfl List.filter_sublist fun entry hentry =>
    hcounted.hasGroup entry (List.mem_of_mem_filter hentry)

end Counted

theorem mem_retainNot {doomed : Entry → Bool} {entry : Entry} :
    entry ∈ (self.retainNot doomed).1.entries ↔ entry ∈ self.entries ∧ doomed entry = false := by
  simp [retainNot]

/-- What `retainNot` hands over are the payloads of what it takes out. -/
theorem retainNot_handed {store : Autocmds} (hentries : store.entries = self.entries)
    (doomed : Entry → Bool) : (store.retainNot doomed).2
      = (self.entries.filter fun entry =>
          !(store.retainNot doomed).1.entries.contains entry).map (·.kind) := by
  have hfilter : self.entries.filter doomed
      = self.entries.filter fun entry => !(store.retainNot doomed).1.entries.contains entry := by
    apply List.filter_congr
    intro entry hentry
    have hmem : (store.retainNot doomed).1.entries.contains entry = !doomed entry := by
      rw [Bool.eq_iff_iff, List.contains_iff_mem, mem_retainNot, hentries]
      simp [hentry]
    rw [hmem, Bool.not_not]
  show (store.entries.filter doomed).map (·.kind) = _
  rw [hentries, hfilter]

/-- Nothing leaves a store that keeps all its entries. -/
theorem nothing_left (hsub : ∀ entry ∈ self.entries, entry ∈ next.entries) :
    ([] : List AutocmdKind)
      = (self.entries.filter fun entry => !next.entries.contains entry).map (·.kind) := by
  have hnil : (self.entries.filter fun entry => !next.entries.contains entry) = [] := by
    rw [List.filter_eq_nil_iff]
    intro entry hentry
    simpa using hsub entry hentry
  rw [hnil, List.map_nil]

/-- At most one entry has a given id. -/
theorem filter_id_length_le (hcounted : Counted self issued) {doomed : Entry → Bool}
    {entryId : AutocmdEntryId} (hdoomed : ∀ entry, doomed entry = true → entry.id = entryId) :
    (self.entries.filter doomed).length ≤ 1 := by
  have hnodup : ((self.entries.filter doomed).map (·.id)).Nodup :=
    hcounted.nodup_ids.sublist (List.filter_sublist.map _)
  have hall : ∀ id ∈ (self.entries.filter doomed).map (·.id), id = entryId := by
    intro id hid
    obtain ⟨entry, hentry, rfl⟩ := List.mem_map.mp hid
    exact hdoomed entry (List.of_mem_filter hentry)
  have hlength := List.nodup_replicate.mp (List.eq_replicate_of_mem hall ▸ hnodup)
  simpa using hlength

theorem toList_getLast? {α : Type} {l : List α} (h : l.length ≤ 1) : l.getLast?.toList = l := by
  rcases l with _ | ⟨a, _ | ⟨b, l⟩⟩
  · rfl
  · rfl
  · simp at h

/-! ### Registrations -/

/-- One more entry, under the next numbers. -/
theorem Counted.pushEntry (hcounted : Counted self issued) (hlt : issued.length < u64Max)
    (kind : AutocmdKind) {options : AutocmdOptions} (hgroup : self.hasGroup options.group = true)
    (apiId : Option Nat) (definition : (StoredPattern × String) × Event) :
    Counted (Autocmds.pushEntry kind options apiId self definition)
      (issued ++ [(self.nextEntryId, self.nextSequence)]) := by
  have hnext : min (issued.length + 1) u64Max = issued.length + 1 := by omega
  have hentry : self.nextEntryId = issued.length + 1 := hcounted.nextEntryId.trans hnext
  have hsequence : self.nextSequence = issued.length + 1 := hcounted.nextSequence.trans hnext
  refine ⟨hcounted.names_iff, ?_, ?_, ?_, ?_, ?_, ?_, ?_⟩
  · simp [hcounted.ids, List.range'_concat, hentry, Nat.add_comm]
  · simp [hcounted.sequences, List.range'_concat, hsequence, Nat.add_comm]
  · simpa using hlt
  · simp [Autocmds.pushEntry, saturatingIncr, hentry]
  · simp [Autocmds.pushEntry, saturatingIncr, hsequence]
  · have hentries : (Autocmds.pushEntry kind options apiId self definition).entries.map numbers
        = self.entries.map numbers ++ [(self.nextEntryId, self.nextSequence)] := by
      simp [Autocmds.pushEntry, numbers]
    rw [hentries]
    exact hcounted.entries_issued.append_right _
  · intro entry hentry
    rcases List.mem_append.mp hentry with hentry | hentry
    · exact hcounted.hasGroup entry hentry
    · rw [List.mem_singleton.mp hentry]
      exact hgroup

/-- Entries are added at the end, each under numbers within the range of the counters. -/
theorem foldl_pushEntry (kind : AutocmdKind) (options : AutocmdOptions) (apiId : Option Nat)
    (definitions : List ((StoredPattern × String) × Event)) (self : Autocmds) (issued : Issued) :
    ∃ new, (definitions.foldl (pushEntry kind options apiId) self).entries = self.entries ++ new ∧
      new.length = definitions.length ∧
      (1 ≤ self.nextEntryId → self.nextEntryId ≤ u64Max →
        ∀ entry ∈ new, 1 ≤ entry.id ∧ entry.id ≤ u64Max) ∧
      (Counted self issued → self.hasGroup options.group = true →
        issued.length + definitions.length ≤ u64Max →
          Counted (definitions.foldl (pushEntry kind options apiId) self)
            (issued ++ new.map numbers)) := by
  induction definitions generalizing self issued with
  | nil => exact ⟨[], by simp, rfl, by simp, fun hcounted _ _ => by simpa using hcounted⟩
  | cons definition definitions ih =>
    obtain ⟨new, hentries, hlength, hbounds, hcounted'⟩ :=
      ih (pushEntry kind options apiId self definition)
        (issued ++ [(self.nextEntryId, self.nextSequence)])
    refine ⟨⟨self.nextEntryId, apiId, self.nextSequence, definition.2, definition.1.1,
      definition.1.2, kind, options⟩ :: new, ?_, ?_, ?_, ?_⟩
    · rw [List.foldl_cons, hentries]
      simp [pushEntry]
    · rw [List.length_cons, List.length_cons, hlength]
    · intro hpos hle entry hentry
      rcases List.mem_cons.mp hentry with rfl | hentry
      · exact ⟨hpos, hle⟩
      · refine hbounds ?_ ?_ entry hentry
        · show 1 ≤ min (self.nextEntryId + 1) u64Max
          omega
        · exact Nat.min_le_right _ _
    · intro hcounted hgroup hle
      rw [List.length_cons] at hle
      have hpush := hcounted.pushEntry (by omega) kind hgroup apiId definition
      have hleft : (issued ++ [(self.nextEntryId, self.nextSequence)]).length
          + definitions.length ≤ u64Max := by
        rw [List.length_append, List.length_singleton]
        omega
      have hrest := hcounted' hpush hgroup hleft
      rw [List.append_assoc] at hrest
      exact hrest

/-- A registration keeps the numbers apart exactly if there are enough of them left. -/
theorem commitRegistration_iff (hcounted : Counted self issued) (events : List Event)
    (kind : AutocmdKind) {options : AutocmdOptions} (hgroup : self.hasGroup options.group = true)
    (parsed : List (StoredPattern × String)) (apiId : Option Nat) :
    let next := self.commitRegistration events kind options parsed apiId
    let issued' := issued ++ (next.entries.drop self.entries.length).map numbers
    (∀ entry ∈ self.entries, entry ∈ next.entries) ∧
      (Consistent next issued' → issued.length + parsed.length * events.length ≤ u64Max) ∧
      (issued.length + parsed.length * events.length ≤ u64Max → Counted next issued') := by
  intro next issued'
  obtain ⟨new, hentries, hlength, hbounds, hcounted'⟩ := foldl_pushEntry kind options apiId
    (parsed.flatMap fun pattern => events.map fun event => (pattern, event)) self issued
  have hentries' : next.entries = self.entries ++ new := hentries
  have hissued : issued' = issued ++ new.map numbers := by
    show issued ++ (next.entries.drop self.entries.length).map numbers = _
    rw [hentries', List.drop_left]
  have hcount : new.length = parsed.length * events.length := by
    rw [hlength, List.length_flatMap]
    simp
  refine ⟨?_, ?_, ?_⟩
  · intro entry hentry
    rw [hentries']
    exact List.mem_append_left _ hentry
  · intro hconsistent
    -- more ids than there are values of the counter cannot be distinct
    have hpos : 1 ≤ self.nextEntryId := by
      rw [hcounted.nextEntryId]
      simp [u64Max]
    have hle : self.nextEntryId ≤ u64Max := by
      rw [hcounted.nextEntryId]
      exact Nat.min_le_right _ _
    have hsubset : (issued'.map (·.1)).toFinset ⊆ Finset.Icc 1 u64Max := by
      intro id hid
      rw [List.mem_toFinset, hissued, List.map_append, List.mem_append, hcounted.ids,
        List.mem_range'_1] at hid
      rw [Finset.mem_Icc]
      rcases hid with hid | hid
      · have hlength := hcounted.length_le
        omega
      · rw [List.map_map] at hid
        obtain ⟨entry, hentry, rfl⟩ := List.mem_map.mp hid
        exact hbounds hpos hle entry hentry
    have hcard := Finset.card_le_card hsubset
    rw [List.toFinset_card_of_nodup hconsistent.ids_nodup, Nat.card_Icc, hissued] at hcard
    simp only [List.map_append, List.length_append, List.length_map, hcount] at hcard
    omega
  · intro hle
    rw [hissued]
    refine hcounted' hcounted hgroup ?_
    rw [← hlength, hcount]
    exact hle

/-! ### Groups -/

/-- A name without a group can be bound to a group without a name. -/
theorem names_bind (hcounted : Counted self issued) {name : String} {id : AugroupId}
    (hname : self.groupNames name = none) (hid : self.groups id = none) (name' : String)
    (id' : AugroupId) :
    Function.update self.groupNames name (some id) name' = some id' ↔
      Function.update self.groups id (some (.live name)) id' = some (.live name') := by
  have hiff := hcounted.names_iff name' id'
  by_cases hname' : name' = name
  · subst hname'
    by_cases hid' : id' = id
    · subst hid'
      simp
    · have hne : self.groups id' ≠ some (.live name') := by
        rw [Ne, ← hiff, hname]
        simp
      simp [hid', Ne.symm hid', hne]
  · by_cases hid' : id' = id
    · subst hid'
      have hne : self.groupNames name' ≠ some id' := by
        rw [Ne, hiff, hid]
        simp
      simp [hname', hne, Ne.symm hname']
    · rw [Function.update_of_ne hname', Function.update_of_ne hid', hiff]

/-- A live group and its name can be unbound together. -/
theorem names_unbind (hcounted : Counted self issued) {name : String} {id : AugroupId}
    (hid : self.groups id = some (.live name)) {state : Option GroupState}
    (hstate : ∀ name, state ≠ some (.live name)) (name' : String) (id' : AugroupId) :
    Function.update self.groupNames name none name' = some id' ↔
      Function.update self.groups id state id' = some (.live name') := by
  have hiff := hcounted.names_iff name' id'
  by_cases hid' : id' = id
  · subst hid'
    have hne : Function.update self.groupNames name none name' ≠ some id' := by
      by_cases hname' : name' = name
      · simp [hname']
      · rw [Function.update_of_ne hname', Ne, hiff, hid]
        simpa using Ne.symm hname'
    simp [hne, hstate]
  · rw [Function.update_of_ne hid', ← hiff]
    by_cases hname' : name' = name
    · subst hname'
      have hother : self.groupNames name' = some id := (hcounted.names_iff name' id).mpr hid
      rw [Function.update_self, hother]
      simp [Ne.symm hid']
    · rw [Function.update_of_ne hname']

theorem allocateFrom_isNone {groups : AugroupId → Option GroupState} {candidate left : Nat}
    {id : AugroupId} (h : allocateFrom groups candidate left = some id) : groups id = none := by
  induction left generalizing candidate with
  | zero =>
    rw [allocateFrom] at h
    split at h
    · next hnone =>
      cases h
      exact Option.isNone_iff_eq_none.mp hnone
    · cases h
  | succ left ih =>
    rw [allocateFrom] at h
    split at h
    · next hnone =>
      cases h
      exact Option.isNone_iff_eq_none.mp hnone
    · exact ih h

theorem hasGroup_update {groups : AugroupId → Option GroupState} {id other : AugroupId}
    {state : GroupState} (hgroups : next.groups = Function.update groups id (some state))
    (h : (other == 0 || (groups other).isSome) = true) : next.hasGroup other = true := by
  rw [hasGroup, hgroups]
  by_cases hother : other = id
  · subst hother
    simp
  · rw [Function.update_of_ne hother]
    exact h

theorem hasGroup_of_isLiveGroup {id : AugroupId} (h : ¬(id ≠ 0 ∧ (!self.isLiveGroup id) = true)) :
    self.hasGroup id = true := by
  by_cases hzero : id = 0
  · simp [hasGroup, hzero]
  · have hlive : self.isLiveGroup id = true := by simpa [hzero] using h
    rw [isLiveGroup] at hlive
    rw [hasGroup]
    cases hgroup : self.groups id with
    | none =>
      rw [hgroup] at hlive
      simpa using hlive
    | some state => simp

/-! ### Steps -/

/-- What a step from a counted store has to show: it is right exactly if it is safe. -/
def StepIff (self : Autocmds) (issued : Issued) (op : Op) (effect : Effect) : Prop :=
  (Accounted self effect → Consistent effect.next (self.record issued op effect.next) →
    Safe self issued op) ∧
  (Safe self issued op →
    Accounted self effect ∧ Counted effect.next (self.record issued op effect.next))

theorem StepIff.of_safe {op : Op} {effect : Effect} (hsafe : Safe self issued op)
    (haccounted : Accounted self effect)
    (hcounted : Counted effect.next (self.record issued op effect.next)) :
    StepIff self issued op effect :=
  ⟨fun _ _ => hsafe, fun _ => ⟨haccounted, hcounted⟩⟩

theorem Accounted.success {handed : List AutocmdKind} (hhanded : handed
    = (self.entries.filter fun entry => !next.entries.contains entry).map (·.kind)) :
    Accounted self ⟨next, false, handed⟩ where
  unchanged hfailed := absurd hfailed Bool.false_ne_true
  handed := hhanded

theorem Accounted.failure : Accounted self ⟨self, true, []⟩ where
  unchanged _ := rfl
  handed := nothing_left fun _ h => h

theorem stepIff_deleteGroup (hcounted : Counted self issued) (id : AugroupId) {effect : Effect}
    (h : self.effect (.deleteGroup id) = some effect) :
    StepIff self issued (.deleteGroup id) effect := by
  cases hgroup : self.groups id with
  | none =>
    simp only [Autocmds.effect, deleteGroup, hgroup, Option.some.injEq] at h
    subst h
    exact .of_safe trivial .failure hcounted
  | some state =>
    simp only [Autocmds.effect, deleteGroup, hgroup, Option.some.injEq] at h
    subst h
    refine .of_safe trivial (.success (retainNot_handed (by rfl) _)) ?_
    refine hcounted.sublist ?_ rfl rfl List.filter_sublist ?_
    · cases state with
      | live name => exact names_unbind hcounted hgroup (by simp)
      | tombstoned =>
        intro name id'
        show self.groupNames name = some id' ↔ Function.update self.groups id none id' = _
        rw [hcounted.names_iff]
        by_cases hid : id' = id
        · subst hid
          simp [hgroup]
        · rw [Function.update_of_ne hid]
    · intro entry hentry
      obtain ⟨hentry, hne⟩ := mem_retainNot.mp hentry
      have hne : entry.options.group ≠ id := by simpa using hne
      have hold := hcounted.hasGroup entry hentry
      show (entry.options.group == 0
        || (Function.update self.groups id none entry.options.group).isSome) = true
      rw [Function.update_of_ne hne]
      exact hold

theorem stepIff_deleteGroupLegacy (hcounted : Counted self issued) (id : AugroupId) {effect : Effect}
    (h : self.effect (.deleteGroupLegacy id) = some effect) :
    StepIff self issued (.deleteGroupLegacy id) effect := by
  by_cases hgroup : ∃ name, self.groups id = some (.live name)
  · obtain ⟨name, hgroup⟩ := hgroup
    simp only [Autocmds.effect, deleteGroupLegacy, hgroup, Option.some.injEq] at h
    subst h
    refine .of_safe trivial (.success (nothing_left fun _ h => h)) ?_
    refine hcounted.sublist (names_unbind hcounted hgroup (by simp)) rfl rfl (List.Sublist.refl _) ?_
    intro entry hentry
    exact hasGroup_update rfl (hcounted.hasGroup entry hentry)
  · have hfail : self.deleteGroupLegacy id = .error (.unknownGroup id) := by
      rw [deleteGroupLegacy]
      split
      · next name hname => exact absurd ⟨name, hname⟩ hgroup
      · rfl
    simp only [Autocmds.effect, hfail, Option.some.injEq] at h
    subst h
    exact .of_safe trivial .failure hcounted

theorem stepIff_createGroup (hcounted : Counted self issued) (name : String) (clear : Bool)
    {effect : Effect} (h : self.effect (.createGroup name clear) = some effect) :
    StepIff self issued (.createGroup name clear) effect := by
  have hkept : ∀ failed, Accounted self ⟨self, failed, []⟩ := fun failed =>
    ⟨fun _ => rfl, nothing_left fun _ h => h⟩
  by_cases hempty : name = ""
  · simp only [Autocmds.effect, createGroup, if_pos hempty, Option.map_some, Option.some.injEq] at h
    subst h
    exact .of_safe (fun _ hne => absurd hempty hne) .failure hcounted
  cases hname : self.groupNames name with
  | none =>
    have hsafe : Safe self issued (.createGroup name clear) := by
      intro _ _ id hid
      rw [hname] at hid
      cases hid
    simp only [Autocmds.effect, createGroup, if_neg hempty, hname, allocateGroupId, Option.map_map,
      Option.map_eq_some_iff] at h
    obtain ⟨id, hallocate, rfl⟩ := h
    refine .of_safe hsafe (.success (nothing_left fun _ h => h)) ?_
    have hid := allocateFrom_isNone hallocate
    refine hcounted.sublist (names_bind hcounted hname hid) rfl rfl (List.Sublist.refl _) ?_
    intro entry hentry
    exact hasGroup_update rfl (hcounted.hasGroup entry hentry)
  | some id =>
    cases clear with
    | false =>
      simp only [Autocmds.effect, createGroup, if_neg hempty, hname, Bool.false_eq_true, if_false,
        Option.map_some, Option.some.injEq] at h
      subst h
      exact .of_safe (fun hclear => absurd hclear Bool.false_ne_true) (hkept false) hcounted
    | true =>
      have hlive : self.isLiveGroup id = true := by
        rw [isLiveGroup, (hcounted.names_iff name id).mp hname]
        simp
      simp only [Autocmds.effect, createGroup, if_neg hempty, hname, if_true, clearGroup, hlive,
        Bool.not_true, Bool.false_eq_true, and_false, if_false, Option.map_some,
        Option.some.injEq] at h
      subst h
      -- the payloads of the entries that are cleared are dropped
      have hhanded := @retainNot_handed self self rfl fun entry => entry.options.group == id
      refine ⟨?_, ?_⟩
      · intro haccounted _ _ _ id' hid' entry hentry heq
        rw [hname, Option.some.injEq] at hid'
        subst hid'
        have hnil : [] = (self.retainNot fun entry => entry.options.group == id).2 :=
          haccounted.handed.trans hhanded.symm
        have hmem : entry.kind ∈ (self.retainNot fun entry => entry.options.group == id).2 :=
          List.mem_map_of_mem (List.mem_filter.mpr ⟨hentry, by simpa using heq⟩)
        rw [← hnil] at hmem
        cases hmem
      · intro hsafe
        have hnone : ∀ entry ∈ self.entries, (entry.options.group == id) = false := by
          intro entry hentry
          simpa using hsafe rfl hempty id hname entry hentry
        refine ⟨.success (nothing_left ?_), hcounted.retainNot _⟩
        intro entry hentry
        exact mem_retainNot.mpr ⟨hentry, hnone entry hentry⟩

/-- Both kinds of registration. -/
theorem stepIff_register (hcounted : Counted self issued) (events : List Event) (patterns : String)
    (kind : AutocmdKind) (options : AutocmdOptions) {op : Op} (nextApiId : Nat) (apiId : Option Nat)
    {effect : Effect}
    (hsafe : Safe self issued op ↔ (events ≠ [] →
      ∀ parsed, self.parseRegistration patterns options = .ok parsed →
        issued.length + parsed.length * events.length ≤ u64Max))
    (hrecord : ∀ next, self.record issued op next
      = issued ++ (next.entries.drop self.entries.length).map numbers)
    (heffect : effect = if events.isEmpty then ⟨self, true, []⟩
      else match self.parseRegistration patterns options with
        | .error _ => ⟨self, true, []⟩
        | .ok parsed => ⟨({ self with nextApiId }).commitRegistration events kind options parsed apiId,
          false, []⟩) :
    StepIff self issued op effect := by
  have hfail : Safe self issued op → effect = ⟨self, true, []⟩ → StepIff self issued op effect := by
    intro hsafe heq
    rw [heq]
    refine .of_safe hsafe .failure ?_
    rw [hrecord]
    simpa using hcounted
  by_cases hevents : events.isEmpty = true
  · rw [if_pos hevents] at heffect
    refine hfail (hsafe.mpr ?_) heffect
    intro hne
    exact absurd (List.isEmpty_iff.mp hevents) hne
  rw [if_neg hevents] at heffect
  cases hparsed : self.parseRegistration patterns options with
  | error error =>
    rw [hparsed] at heffect
    refine hfail (hsafe.mpr ?_) heffect
    intro _ parsed hok
    rw [hparsed] at hok
    cases hok
  | ok parsed =>
    rw [hparsed] at heffect
    subst heffect
    have hgroup : self.hasGroup options.group = true := by
      rw [parseRegistration] at hparsed
      split at hparsed
      · cases hparsed
      · exact hasGroup_of_isLiveGroup ‹_›
    have hcounted' : Counted { self with nextApiId } issued :=
      ⟨hcounted.names_iff, hcounted.ids, hcounted.sequences, hcounted.length_le,
        hcounted.nextEntryId, hcounted.nextSequence, hcounted.entries_issued, hcounted.hasGroup⟩
    obtain ⟨hkeep, honly, hif⟩ := commitRegistration_iff hcounted' events kind hgroup parsed apiId
    rw [StepIff, hsafe, hrecord]
    refine ⟨?_, ?_⟩
    · intro _ hconsistent _ parsed' hok
      rw [hparsed] at hok
      cases hok
      exact honly hconsistent
    · intro hle
      refine ⟨.success (nothing_left hkeep), hif (hle ?_ parsed hparsed)⟩
      intro hnil
      rw [hnil] at hevents
      exact hevents rfl

theorem stepIff (hcounted : Counted self issued) (op : Op) {effect : Effect}
    (h : self.effect op = some effect) : StepIff self issued op effect := by
  -- the entry that is taken out under an id is the only one
  have hone : ∀ (doomed : Entry → Bool) (entryId : AutocmdEntryId),
      (∀ entry, doomed entry = true → entry.id = entryId) →
        (self.retainNot doomed).2.getLast?.toList = (self.retainNot doomed).2 := by
    intro doomed entryId hdoomed
    apply toList_getLast?
    show ((self.entries.filter doomed).map (·.kind)).length ≤ 1
    rw [List.length_map]
    exact filter_id_length_le hcounted hdoomed
  cases op with
  | createGroup name clear => exact stepIff_createGroup hcounted name clear h
  | deleteGroup id => exact stepIff_deleteGroup hcounted id h
  | deleteGroupLegacy id => exact stepIff_deleteGroupLegacy hcounted id h
  | registerApi events patterns kind options =>
    refine stepIff_register hcounted events patterns kind options (saturatingIncr self.nextApiId)
      (some self.nextApiId) Iff.rfl (fun _ => rfl) ?_
    by_cases hevents : events.isEmpty = true
    · simp only [Autocmds.effect, registerApi, if_pos hevents, Option.some.injEq] at h
      rw [if_pos hevents, h]
    · rw [if_neg hevents]
      cases hparsed : self.parseRegistration patterns options with
      | error error =>
        simp only [Autocmds.effect, registerApi, if_neg hevents, hparsed, Option.some.injEq] at h
        exact h.symm
      | ok parsed =>
        simp only [Autocmds.effect, registerApi, if_neg hevents, hparsed, Option.some.injEq] at h
        exact h.symm
  | registerLegacy events patterns kind options =>
    refine stepIff_register hcounted events patterns kind options self.nextApiId none Iff.rfl
      (fun _ => rfl) ?_
    by_cases hevents : events.isEmpty = true
    · simp only [Autocmds.effect, registerLegacy, if_pos hevents, Option.some.injEq] at h
      rw [if_pos hevents, h]
    · rw [if_neg hevents]
      cases hparsed : self.parseRegistration patterns options with
      | error error =>
        simp only [Autocmds.effect, registerLegacy, if_neg hevents, hparsed, Option.some.injEq] at h
        exact h.symm
      | ok parsed =>
        simp only [Autocmds.effect, registerLegacy, if_neg hevents, hparsed, Option.some.injEq] at h
        exact h.symm
  | clear filter =>
    cases h
    exact .of_safe trivial (.success (retainNot_handed rfl _)) (hcounted.retainNot _)
  | deleteApiId apiId =>
    cases h
    exact .of_safe trivial (.success (retainNot_handed rfl _)) (hcounted.retainNot _)
  | deleteEntry entryId =>
    cases h
    refine .of_safe trivial (.success ?_) (hcounted.retainNot _)
    show (self.retainNot _).2.getLast?.toList = _
    rw [hone _ entryId (by simp)]
    exact retainNot_handed rfl _
  | consumeOnce entryId =>
    cases h
    refine .of_safe trivial (.success ?_) (hcounted.retainNot _)
    show (self.retainNot _).2.getLast?.toList = _
    rw [hone _ entryId (by simp +contextual)]
    exact retainNot_handed rfl _
  | removeBuffer buffer =>
    cases h
    exact .of_safe trivial (.success (retainNot_handed rfl _)) (hcounted.retainNot _)

/-- An operation that does not return looks for a new group id. -/
theorem safe_of_effect_eq_none {op : Op} (h : self.effect op = none) : Safe self issued op := by
  cases op with
  | createGroup name clear =>
    intro hclear hne id hname
    simp [effect, createGroup, hne, hname, hclear] at h
    split at h <;> simp at h
  | registerApi events patterns kind options =>
    simp only [effect] at h
    split at h <;> simp at h
  | registerLegacy events patterns kind options =>
    simp only [effect] at h
    split at h <;> simp at h
  | _ => trivial

theorem consistent_of_rightRun {ops : List Op} (h : RightRun self issued ops) :
    Consistent self issued := by
  cases ops with
  | nil => exact h
  | cons op ops => exact h.1

theorem Counted.runs (hcounted : Counted self issued) (ops : List Op) :
    RightRun self issued ops ↔ SafeRun self issued ops := by
  induction ops generalizing self issued with
  | nil => exact iff_of_true hcounted.consistent trivial
  | cons op ops ih =>
    rw [RightRun, SafeRun]
    cases heffect : self.effect op with
    | none =>
      exact iff_of_true ⟨hcounted.consistent, trivial⟩ ⟨safe_of_effect_eq_none heffect, trivial⟩
    | some effect =>
      obtain ⟨honly, hif⟩ := stepIff hcounted op heffect
      constructor
      · rintro ⟨-, haccounted, hrest⟩
        have hsafe := honly haccounted (consistent_of_rightRun hrest)
        exact ⟨hsafe, (ih (hif hsafe).2).mp hrest⟩
      · rintro ⟨hsafe, hrest⟩
        obtain ⟨haccounted, hcounted'⟩ := hif hsafe
        exact ⟨hcounted.consistent, haccounted, (ih hcounted').mpr hrest⟩

theorem Counted.new : Counted new [] where
  names_iff name id := by
    by_cases hname : name = "nvim.popupmenu"
    · by_cases hid : id = 1 <;> simp [Autocmds.new, hname, hid, eq_comm]
    · by_cases hid : id = 1 <;> simp [Autocmds.new, hname, hid, Ne.symm hname]
  ids := rfl
  sequences := rfl
  length_le := Nat.zero_le _
  nextEntryId := by simp [Autocmds.new, u64Max]
  nextSequence := by simp [Autocmds.new, u64Max]
  entries_issued := List.Sublist.refl _
  hasGroup entry hentry := by cases hentry

/-- **The store is consistent and loses no payload** in a run of its operations, if and only if the
run never clears a group with entries by creating it again and never registers more entries than the
64-bit counters can tell apart. -/
theorem consistentRun_iff (ops : List Op) : RightRun new [] ops ↔ SafeRun new [] ops :=
  Counted.new.runs ops

/-- A callback is registered in a group that is then created again with `clear`. -/
def recreate : List Op :=
  [.createGroup "build" false,
    .registerApi [.bufEnter] "<buffer>" (.luaCallback 7) ⟨2, some 1, false, false, none⟩,
    .createGroup "build" true]

theorem not_rightRun_recreate : ¬ RightRun new [] recreate := by
  rw [Counted.new.runs]
  intro h
  -- the third operation clears the group of the entry that the second one registers
  have hthird : Safe _ _ (.createGroup "build" true) := h.2.2.1
  have hother := hthird rfl (by decide) 2 (by decide) _ (List.mem_singleton_self _)
  exact hother rfl

end Oxvim.Editor.Autocmd.Autocmds
