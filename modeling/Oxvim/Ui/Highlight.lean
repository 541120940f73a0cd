import Mathlib

/-!
# Highlight ids

Attribute sets have ids: the low 32 bits are a slot of the table, the high bits count how often the
slot was used before. `premix` mixes two sets for a transparent layer and gives the id of the mix,
the old one where the set is known.

In a `Sound` table all ids that `intern` hands out can be looked up, and interning another set keeps
what could be looked up before.
-/

namespace Oxvim.Ui

/-- RGB or terminal highlight attributes. -/
structure HlAttrs where
  foreground : Option UInt32
  background : Option UInt32
  special : Option UInt32
  bold : Bool
  italic : Bool
  underline : Bool
  undercurl : Bool
  underdouble : Bool
  underdotted : Bool
  underdashed : Bool
  strikethrough : Bool
  reverse : Bool
  standout : Bool
  altfont : Bool
  dim : Bool
  blink : Bool
  conceal : Bool
  overline : Bool
  nocombine : Bool
  blend : Option UInt8
  url : Option (List UInt8)
  fgIndexed : Bool
  bgIndexed : Bool
  deriving DecidableEq

/-- Metadata identifying the source highlight group. -/
structure HlInfo where
  kind : List UInt8
  hiName : Option (List UInt8)
  uiName : Option (List UInt8)
  id : Option Int64
  deriving DecidableEq

/-- One highlight definition and its fallback data. -/
structure Highlight where
  rgb : HlAttrs
  cterm : HlAttrs
  ctermExplicit : Bool
  defaultFlag : Bool
  info : List HlInfo
  deriving DecidableEq

/-- An `hl_attr_define` event; its arguments are the id and the attributes rendered as objects. -/
structure HlEvent where
  id : UInt64
  highlight : Highlight

inductive HlError where
  | idExhausted
  | unknownId (id : UInt64)
  deriving DecidableEq, Repr

/-- What the table has at an index. A vacated slot keeps its last definition. -/
structure Slot where
  definition : Highlight
  occupied : Bool
  refcount : UInt32
  generation : UInt64

/-- Stable highlight table. -/
structure HlState where
  slots : List Slot
  /-- Slots that may be reused, the next one last. -/
  free : List Nat
  ids : Highlight → Option UInt64
  /-- The last ids of retired attribute sets. -/
  retired : Highlight → Option UInt64

def slotMask : UInt64 := 0xFFFFFFFF

namespace HlState

def slotId (index : Nat) (slot : Slot) : UInt64 :=
  (slot.generation <<< 32) ||| UInt64.ofNat index

/-- The slot a full id addresses, none when it is vacant or the id is of an earlier generation. -/
def slotIndex (self : HlState) (id : UInt64) : Option Nat :=
  let index := (id &&& slotMask).toNat
  match self.slots[index]? with
  | some slot => if slot.occupied && slot.generation == id >>> 32 then some index else none
  | none => none

/-- A definition by id. -/
def get (self : HlState) (id : UInt64) : Option Highlight :=
  (self.slotIndex id).bind fun index => (self.slots[index]?).map Slot.definition

/-- A retired id whose slot is vacant can be used again. -/
def resurrect (self : HlState) (highlight : Highlight) (id : UInt64) : Option HlState :=
  let index := (id &&& slotMask).toNat
  match self.slots[index]? with
  | some slot =>
    if slot.occupied then none
    else some
      { slots := self.slots.set index ⟨highlight, true, 0, id >>> 32⟩
        free := self.free.filter (· ≠ index)
        retired := Function.update self.retired highlight none
        ids := Function.update self.ids highlight (some id) }
  | none => none

/-- `saturating_add(1)`. -/
def nextGeneration (generation : UInt64) : UInt64 :=
  if generation.toNat + 1 < 2 ^ 64 then generation + 1 else generation

/-- Takes a vacated slot, or a new one. -/
def allocate (self : HlState) (highlight : Highlight) : Except HlError (UInt64 × HlState) :=
  match self.free.getLast? with
  | some index =>
    let slot : Slot := ⟨highlight, true, 0,
      ((self.slots[index]?).map fun slot => nextGeneration slot.generation).getD 0⟩
    .ok (slotId index slot,
      { self with
        slots := self.slots.set index slot
        free := self.free.dropLast })
  | none =>
    let index := self.slots.length
    if index ≥ 2 ^ 63 then .error .idExhausted
    else .ok (UInt64.ofNat index, { self with slots := self.slots ++ [⟨highlight, true, 0, 0⟩] })

/-- Interns an attribute set, returning its stable id and an event only once. -/
def intern (self : HlState) (highlight : Highlight) :
    Except HlError (UInt64 × Option HlEvent × HlState) :=
  match self.ids highlight with
  | some id => .ok (id, none, self)
  | none =>
    match (self.retired highlight).bind fun id => (self.resurrect highlight id).map ((id, ·)) with
    | some (id, state) => .ok (id, some ⟨id, highlight⟩, state)
    | none =>
      match self.allocate highlight with
      | .error error => .error error
      | .ok (id, state) =>
        .ok (id, some ⟨id, highlight⟩,
          { state with ids := Function.update state.ids highlight (some id) })

end HlState

/-- Premixes a foreground RGB color over a background. -/
def premixColor (foreground background : UInt32) (blend : UInt8) : UInt32 :=
  let blend := (min blend 100).toUInt32
  let solid := 100 - blend
  let channel := fun shift : UInt32 =>
    let fg := (foreground >>> shift) &&& 0xff
    let bg := (background >>> shift) &&& 0xff
    ((fg * solid + bg * blend + 50) / 100) <<< shift
  channel 16 ||| channel 8 ||| channel 0

def mixOptional (foreground background : Option UInt32) (blend : UInt8) : Option UInt32 :=
  match foreground, background with
  | some foreground, some background => some (premixColor foreground background blend)
  | foreground, _ => foreground

/-- Interns a winblend-premixed variant of `foregroundId` over `backgroundId`. -/
def HlState.premix (self : HlState) (foregroundId backgroundId : UInt64) (blend : UInt8) :
    Except HlError (UInt64 × Option HlEvent × HlState) :=
  match self.get foregroundId with
  | none => .error (.unknownId foregroundId)
  | some foreground =>
    match self.get backgroundId with
    | none => .error (.unknownId backgroundId)
    | some background =>
      let amount := min blend 100
      self.intern
        { foreground with
          rgb := { foreground.rgb with
            foreground := mixOptional foreground.rgb.foreground background.rgb.foreground amount
            background := mixOptional foreground.rgb.background background.rgb.background amount
            special := mixOptional foreground.rgb.special background.rgb.special amount
            blend := none } }

/-! ## Ids that can be looked up -/

namespace HlState

variable {state : HlState}

def Known (state : HlState) (id : UInt64) : Prop :=
  (state.slotIndex id).isSome

theorem known_iff {id : UInt64} : state.Known id ↔ ∃ slot,
    state.slots[(id &&& slotMask).toNat]? = some slot ∧ slot.occupied = true ∧
      slot.generation = id >>> 32 := by
  rw [Known, slotIndex]
  cases hslot : state.slots[(id &&& slotMask).toNat]? with
  | none => simp
  | some slot =>
    dsimp only
    split
    · next h => simpa using h
    · next h => simpa using h

theorem get_isSome {id : UInt64} (h : state.Known id) : (state.get id).isSome := by
  obtain ⟨slot, hslot, hoccupied, hgeneration⟩ := known_iff.mp h
  have hindex : state.slotIndex id = some (id &&& slotMask).toNat := by
    rw [slotIndex, hslot]
    dsimp only
    rw [if_pos (by simp [hoccupied, hgeneration])]
  rw [get, hindex, Option.bind_some, hslot]
  rfl

/-- Ids handed out are known, free slots are vacant, and there is room for `n` more ids. -/
structure Sound (state : HlState) (room : Nat) : Prop where
  ids : ∀ highlight id, state.ids highlight = some id → state.Known id
  free_nodup : state.free.Nodup
  free : ∀ index ∈ state.free, ∃ slot, state.slots[index]? = some slot ∧ slot.occupied = false
  slots : state.slots.length + room ≤ 2 ^ 32
  generation : ∀ slot ∈ state.slots, slot.generation.toNat + room < 2 ^ 32
  retired : ∀ highlight id, state.retired highlight = some id → (id >>> 32).toNat + room < 2 ^ 32

theorem Sound.mono {room room' : Nat} (h : Sound state room) (hle : room' ≤ room) :
    Sound state room' :=
  ⟨h.ids, h.free_nodup, h.free, by have := h.slots; omega,
    fun slot hslot => by have := h.generation slot hslot; omega,
    fun highlight id hid => by have := h.retired highlight id hid; omega⟩

/-- The slot and the generation are read back from an id. -/
theorem slotId_mask {index : Nat} {slot : Slot} (hindex : index < 2 ^ 32)
    (hgeneration : slot.generation.toNat < 2 ^ 32) :
    (slotId index slot &&& slotMask).toNat = index ∧ slotId index slot >>> 32 = slot.generation := by
  have hvalue : (slotId index slot).toNat = slot.generation.toNat * 2 ^ 32 + index := by
    simp only [slotId, UInt64.toNat_or, UInt64.toNat_shiftLeft, UInt64.toNat_ofNat']
    rw [Nat.mod_eq_of_lt (show index < 2 ^ 64 by omega)]
    have hshift : slot.generation.toNat <<< ((32 : UInt64).toNat % 64) % 2 ^ 64
        = slot.generation.toNat <<< 32 := by
      rw [show (32 : UInt64).toNat % 64 = 32 from rfl, Nat.mod_eq_of_lt]
      rw [Nat.shiftLeft_eq]
      omega
    rw [hshift, ← Nat.shiftLeft_add_eq_or_of_lt hindex, Nat.shiftLeft_eq]
  constructor
  · rw [UInt64.toNat_and, hvalue, show slotMask.toNat = 2 ^ 32 - 1 from rfl,
      Nat.and_two_pow_sub_one_eq_mod]
    omega
  · rw [← UInt64.toNat_inj, UInt64.toNat_shiftRight, hvalue,
      show (32 : UInt64).toNat % 64 = 32 from rfl, Nat.shiftRight_eq_div_pow]
    omega

/-- Occupying a vacant slot keeps what is known. -/
theorem known_of_set {state' : HlState} {index : Nat} {slot new : Slot}
    (hslot : state.slots[index]? = some slot) (hvacant : slot.occupied = false)
    (hslots : state'.slots = state.slots.set index new) {id : UInt64} (h : state.Known id) :
    state'.Known id := by
  obtain ⟨other, hother, hoccupied, hgeneration⟩ := known_iff.mp h
  refine known_iff.mpr ⟨other, ?_, hoccupied, hgeneration⟩
  rw [hslots, List.getElem?_set_ne, hother]
  intro heq
  rw [heq, hother] at hslot
  rw [Option.some.inj hslot, hvacant] at hoccupied
  cases hoccupied

/-- What `intern` gives. -/
structure Interned (before : HlState) (id : UInt64) (after : HlState) (room : Nat) : Prop where
  sound : Sound after room
  known : after.Known id
  keeps : ∀ id, before.Known id → after.Known id

/-- A new id for a set that had none. -/
theorem Interned.update {before after : HlState} {id : UInt64} {room : Nat} {highlight : Highlight}
    (h : Interned before id after room) :
    Interned before id
      { after with ids := Function.update after.ids highlight (some id) } room := by
  refine ⟨⟨?_, h.sound.free_nodup, h.sound.free, h.sound.slots, h.sound.generation,
    h.sound.retired⟩, h.known, h.keeps⟩
  intro other id' hid
  dsimp only at hid
  by_cases heq : other = highlight
  · subst heq
    rw [Function.update_self] at hid
    obtain rfl := Option.some.inj hid
    exact h.known
  · rw [Function.update_of_ne heq] at hid
    exact h.sound.ids other id' hid

theorem resurrect_interned {room : Nat} (h : Sound state room) {highlight : Highlight} {id : UInt64}
    (hretired : state.retired highlight = some id) {state' : HlState}
    (hstate : state.resurrect highlight id = some state') : Interned state id state' room := by
  rw [resurrect] at hstate
  cases hslot : state.slots[(id &&& slotMask).toNat]? with
  | none =>
    rw [hslot] at hstate
    cases hstate
  | some slot =>
    rw [hslot] at hstate
    dsimp only at hstate
    cases hvacant : slot.occupied with
    | true =>
      rw [hvacant, if_pos rfl] at hstate
      cases hstate
    | false =>
      rw [hvacant, if_neg (by decide)] at hstate
      obtain rfl := Option.some.inj hstate
      have hlt : (id &&& slotMask).toNat < state.slots.length :=
        (List.getElem?_eq_some_iff.mp hslot).1
      have hknown : ∀ ids retired free, Known
          ⟨state.slots.set (id &&& slotMask).toNat ⟨highlight, true, 0, id >>> 32⟩, free, ids,
            retired⟩ id := by
        intro ids retired free
        exact known_iff.mpr ⟨_, List.getElem?_set_self hlt, rfl, rfl⟩
      refine @Interned.update state ⟨_, _, state.ids, Function.update state.retired highlight none⟩ id
        room highlight ⟨⟨?_, ?_, ?_, ?_, ?_, ?_⟩, hknown _ _ _, ?_⟩
      · intro other id' hid
        exact known_of_set hslot hvacant rfl (h.ids other id' hid)
      · exact h.free_nodup.filter _
      · intro index hindex
        rw [List.mem_filter] at hindex
        obtain ⟨other, hother, hfree⟩ := h.free index hindex.1
        refine ⟨other, ?_, hfree⟩
        have hne : index ≠ (id &&& slotMask).toNat := by simpa using hindex.2
        rw [List.getElem?_set_ne hne.symm, hother]
      · rw [List.length_set]
        exact h.slots
      · intro other hother
        rcases List.mem_or_eq_of_mem_set hother with hmem | rfl
        · exact h.generation other hmem
        · exact h.retired highlight id hretired
      · intro other id' hid
        dsimp only at hid
        by_cases heq : other = highlight
        · subst heq
          rw [Function.update_self] at hid
          cases hid
        · rw [Function.update_of_ne heq] at hid
          exact h.retired other id' hid
      · intro id' hid
        exact known_of_set hslot hvacant rfl hid

theorem allocate_interned {room : Nat} (h : Sound state (room + 1)) (highlight : Highlight) :
    ∃ id state', state.allocate highlight = .ok (id, state') ∧ Interned state id state' room := by
  rw [allocate]
  cases hlast : state.free.getLast? with
  | some index =>
    have hmem := List.mem_of_getLast? hlast
    obtain ⟨slot, hslot, hvacant⟩ := h.free index hmem
    have hlt : index < state.slots.length := (List.getElem?_eq_some_iff.mp hslot).1
    have hslots := h.slots
    have hgeneration := h.generation slot (List.mem_of_getElem? hslot)
    have hnext : (nextGeneration slot.generation).toNat ≤ slot.generation.toNat + 1 := by
      rw [nextGeneration]
      split
      · rw [UInt64.toNat_add]
        exact Nat.mod_le _ _
      · omega
    refine ⟨_, _, rfl, ?_⟩
    simp only [hslot, Option.map_some, Option.getD_some]
    obtain ⟨hindex, hgen⟩ := @slotId_mask index
      ⟨highlight, true, 0, nextGeneration slot.generation⟩ (by omega)
      (show (nextGeneration slot.generation).toNat < 2 ^ 32 by omega)
    refine ⟨⟨?_, ?_, ?_, ?_, ?_, ?_⟩, ?_, ?_⟩
    · intro other id' hid
      exact known_of_set hslot hvacant rfl (h.ids other id' hid)
    · exact h.free_nodup.sublist (List.dropLast_sublist _)
    · intro index' hindex'
      obtain ⟨other, hother, hfree⟩ := h.free index' (List.mem_of_mem_dropLast hindex')
      refine ⟨other, ?_, hfree⟩
      rw [List.getElem?_set_ne, hother]
      -- the index taken occurs once
      intro heq
      subst heq
      have hsplit := List.dropLast_append_getLast? index hlast
      have hnodup := h.free_nodup
      rw [← hsplit, List.nodup_append] at hnodup
      exact hnodup.2.2 index hindex' index (List.mem_singleton_self _) rfl
    · rw [List.length_set]
      omega
    · intro other hother
      rcases List.mem_or_eq_of_mem_set hother with hin | rfl
      · have := h.generation other hin
        omega
      · show (nextGeneration slot.generation).toNat + room < 2 ^ 32
        omega
    · intro other id' hid
      have := h.retired other id' hid
      omega
    · refine known_iff.mpr ⟨⟨highlight, true, 0, nextGeneration slot.generation⟩, ?_, rfl, hgen.symm⟩
      rw [hindex]
      exact List.getElem?_set_self hlt
    · intro id' hid
      exact known_of_set hslot hvacant rfl hid
  | none =>
    have hslots := h.slots
    dsimp only
    rw [if_neg (by omega)]
    refine ⟨_, _, rfl, ?_⟩
    have hkeeps : ∀ (id : UInt64) (state' : HlState), state'.slots
        = state.slots ++ [⟨highlight, true, 0, 0⟩] → state.Known id → state'.Known id := by
      intro id state' heq hid
      obtain ⟨slot, hslot, hrest⟩ := known_iff.mp hid
      refine known_iff.mpr ⟨slot, ?_, hrest⟩
      rw [heq, List.getElem?_append_left (List.getElem?_eq_some_iff.mp hslot).1, hslot]
    have hid : UInt64.ofNat state.slots.length = slotId state.slots.length ⟨highlight, true, 0, 0⟩ := by
      simp [slotId]
    obtain ⟨hindex, hgen⟩ := @slotId_mask state.slots.length ⟨highlight, true, 0, 0⟩ (by omega)
      (show (0 : UInt64).toNat < 2 ^ 32 by decide)
    refine ⟨⟨?_, h.free_nodup, ?_, ?_, ?_, ?_⟩, ?_, fun id' => hkeeps id' _ rfl⟩
    · intro other id' hid'
      exact hkeeps id' _ rfl (h.ids other id' hid')
    · intro index hin
      obtain ⟨other, hother, hfree⟩ := h.free index hin
      refine ⟨other, ?_, hfree⟩
      rw [List.getElem?_append_left (List.getElem?_eq_some_iff.mp hother).1, hother]
    · rw [List.length_append, List.length_singleton]
      omega
    · intro other hother
      rcases List.mem_append.mp hother with hin | hin
      · have := h.generation other hin
        omega
      · obtain rfl := List.mem_singleton.mp hin
        show (0 : UInt64).toNat + room < 2 ^ 32
        rw [UInt64.toNat_zero]
        omega
    · intro other id' hid'
      have := h.retired other id' hid'
      omega
    · rw [hid]
      refine known_iff.mpr ⟨⟨highlight, true, 0, 0⟩, ?_, rfl, hgen.symm⟩
      rw [hindex]
      exact List.getElem?_concat_length ..

/-- **Interning gives a known id and keeps the others.** -/
theorem intern_ok {room : Nat} (h : Sound state (room + 1)) (highlight : Highlight) :
    ∃ id event state', state.intern highlight = .ok (id, event, state') ∧
      Interned state id state' room := by
  rw [intern]
  cases hids : state.ids highlight with
  | some id =>
    exact ⟨id, none, state, rfl, h.mono (Nat.le_succ room), h.ids highlight id hids, fun _ hid => hid⟩
  | none =>
    dsimp only
    cases hretired : (state.retired highlight).bind fun id =>
        (state.resurrect highlight id).map ((id, ·)) with
    | some found =>
      obtain ⟨id, hid, hmap⟩ := Option.bind_eq_some_iff.mp hretired
      obtain ⟨state', hstate, rfl⟩ := Option.map_eq_some_iff.mp hmap
      exact ⟨id, _, state', rfl, resurrect_interned (h.mono (Nat.le_succ room)) hid hstate⟩
    | none =>
      obtain ⟨id, state', hallocate, hinterned⟩ := allocate_interned h highlight
      dsimp only
      rw [hallocate]
      exact ⟨id, _, _, rfl, hinterned.update⟩

/-- **Known ids are mixed.** -/
theorem premix_ok {room : Nat} (h : Sound state (room + 1)) {foreground background : UInt64}
    (hforeground : state.Known foreground) (hbackground : state.Known background) (blend : UInt8) :
    ∃ id event state', state.premix foreground background blend = .ok (id, event, state') ∧
      Interned state id state' room := by
  obtain ⟨fg, hfg⟩ := Option.isSome_iff_exists.mp (get_isSome hforeground)
  obtain ⟨bg, hbg⟩ := Option.isSome_iff_exists.mp (get_isSome hbackground)
  rw [premix, hfg, hbg]
  exact intern_ok h _

end HlState

end Oxvim.Ui
