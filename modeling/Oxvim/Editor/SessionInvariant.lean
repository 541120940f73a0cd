import Oxvim.Lib.Holders
import Oxvim.Lib.OrderedMap
import Oxvim.Editor.Session
import Oxvim.Editor.TabpageOps

/-!
# What the windows of an editor rest on

`Counted` ties the buffers to the windows: a window displays a loaded buffer, and a buffer counts its
windows. `Housed` ties the windows to the tabpages. With handles that stay below the counters they are
`Consistent`, the invariant of an editor.

`Idle` is what holds as long as an operation has changed nothing that shows: then it may still fail.
`Ends` says how an operation ends, by rules for the steps of a program.
-/

namespace Oxvim.Editor

open Lib EState
open Std (ExtTreeMap)

/-! ## Buffers -/

namespace BufferState

variable {s : BufferState}

/-- The part of a buffer that windows depend on: how many display it, and whether it is loaded. -/
def book (s : BufferState) : Nat × Bool := (s.attachments, s.isLoaded)

@[simp] theorem book_releaseResidentState (s : BufferState) : s.releaseResidentState.book = s.book := rfl

@[simp] theorem book_syncUndo (s : BufferState) : s.syncUndo.book = s.book := rfl

/-- A loaded buffer with one more window. -/
def attached (s : BufferState) : BufferState :=
  { s with attachments := satAdd s.attachments 1, residency := .displayed }

theorem attach_run (s : BufferState) :
    s.isLoaded = false ∧ attach s = .error .unloaded s ∨
      s.isLoaded = true ∧ attach s = .ok () s.attached := by
  have hrequire : requireLoaded s = if s.isLoaded then .ok () s else .error .unloaded s := by
    rw [requireLoaded, bind_ok (get_run s)]
    split
    · rfl
    · rfl
  rw [attach]
  cases hloaded : s.isLoaded with
  | false =>
    rw [hloaded, if_neg Bool.false_ne_true] at hrequire
    exact .inl ⟨rfl, bind_error hrequire⟩
  | true =>
    rw [hloaded, if_pos rfl] at hrequire
    exact .inr ⟨rfl, bind_ok hrequire⟩

theorem book_attached (h : s.attachments + 1 ≤ usizeMax) : s.attached.book = (s.attachments + 1, true) := by
  rw [book, attached, isLoaded]
  dsimp only
  rw [satAdd_eq h]
  rfl

theorem book_detach (s : BufferState) (keepLoaded : Bool) :
    (s.detach keepLoaded).book
      = (s.attachments - 1, if s.attachments - 1 ≠ 0 then s.isLoaded else keepLoaded) := by
  rw [detach]
  dsimp only
  split
  · rfl
  · next hlast =>
    cases keepLoaded with
    | true => rfl
    | false => rfl

theorem queueReloadEvent_book (s : BufferState) : s.queueReloadEvent.book = s.book := by
  rw [queueReloadEvent]
  split
  · rfl
  · rfl

theorem load_attachments (s : BufferState) (text : Text.Buffer) : (s.load text).attachments = s.attachments :=
  (congrArg Prod.fst (queueReloadEvent_book _) :)

theorem load_isLoaded (s : BufferState) (text : Text.Buffer) : (s.load text).isLoaded = true := by
  refine (congrArg Prod.snd (queueReloadEvent_book _) :).trans ?_
  rw [book, isLoaded]
  dsimp only
  split
  · rfl
  · rfl

theorem unload_run (s : BufferState) :
    s.attachments ≠ 0 ∧ unload s = .error (.attached s.attachments) s ∨
      s.attachments = 0 ∧ ∃ t, unload s = .ok () t ∧ t.book = (0, false) := by
  rw [unload, bind_ok (get_run s)]
  by_cases hzero : s.attachments = 0
  · rw [if_neg (not_not.mpr hzero)]
    refine .inr ⟨hzero, _, rfl, ?_⟩
    rw [book_releaseResidentState, book, hzero]
    rfl
  · rw [if_pos hzero]
    exact .inl ⟨hzero, rfl⟩

end BufferState

/-- What windows depend on of the buffer with a handle. -/
def books (buffers : ExtTreeMap BufHandle BufferState) (b : BufHandle) : Option (Nat × Bool) :=
  (buffers[b]?).map BufferState.book

/-- Windows display loaded buffers, and a buffer counts the windows that display it. -/
structure Counted (buffers : ExtTreeMap BufHandle BufferState) (windows : Finset WinHandle)
    (shown : WinHandle → BufHandle) : Prop where
  displayed : ∀ w ∈ windows, ∃ count, books buffers (shown w) = some (count, true)
  attached : ∀ b count loaded, books buffers b = some (count, loaded) → count = holders windows shown b

namespace Counted

variable {buffers buffers' : ExtTreeMap BufHandle BufferState} {windows : Finset WinHandle}
  {shown shown' : WinHandle → BufHandle} {w : WinHandle} {b : BufHandle} {state : BufferState}

theorem books_eq (hstate : buffers[b]? = some state) : books buffers b = some state.book := by
  rw [books, hstate]
  rfl

theorem books_insert (b' : BufHandle) :
    books (buffers.insert b state) b' = if b' = b then some state.book else books buffers b' := by
  rw [books, OrderedMap.getElem?_insert]
  split
  · rfl
  · rfl

theorem books_modify (f : BufferState → BufferState) (b' : BufHandle) :
    books (buffers.modify b f) b'
      = if b' = b then (buffers[b']?).map fun state => (f state).book else books buffers b' := by
  rw [books, OrderedMap.getElem?_modify]
  split
  · rw [Option.map_map]
    rfl
  · rfl

theorem books_erase (b' : BufHandle) :
    books (buffers.erase b) b' = if b' = b then none else books buffers b' := by
  rw [books, OrderedMap.getElem?_erase]
  split
  · rfl
  · rfl

theorem congr (h : Counted buffers windows shown) (hbooks : ∀ b, books buffers' b = books buffers b)
    (hshown : ∀ w ∈ windows, shown' w = shown w) : Counted buffers' windows shown' where
  displayed := by
    intro w hw
    rw [hbooks, hshown w hw]
    exact h.displayed w hw
  attached := by
    intro b count loaded hb
    rw [hbooks] at hb
    rw [h.attached b count loaded hb]
    exact holders_congr fun w hw => (hshown w hw).symm

/-- A window is opened. -/
theorem open_ (h : Counted buffers windows shown) (hw : w ∉ windows)
    (hstate : buffers[b]? = some state) (hroom : state.attachments + 1 ≤ usizeMax) :
    Counted (buffers.insert b state.attached) (insert w windows) (Function.update shown w b) where
  displayed := by
    intro w' hw'
    rw [books_insert, BufferState.book_attached hroom]
    rcases Finset.mem_insert.mp hw' with rfl | hw'
    · rw [Function.update_self, if_pos rfl]
      exact ⟨_, rfl⟩
    · rw [Function.update_of_ne (ne_of_mem_of_not_mem hw' hw)]
      split
      · exact ⟨_, rfl⟩
      · exact h.displayed w' hw'
  attached := by
    intro b' count loaded hb'
    have hrest : holders windows (Function.update shown w b) b' = holders windows shown b' :=
      holders_congr fun w' hw' => Function.update_of_ne (ne_of_mem_of_not_mem hw' hw) _ _
    rw [holders_insert hw, hrest, Function.update_self]
    rw [books_insert, BufferState.book_attached hroom] at hb'
    split at hb'
    · next heq =>
      cases hb'
      rw [heq, if_pos rfl, h.attached _ _ _ (books_eq hstate)]
    · next hne =>
      rw [if_neg (Ne.symm hne)]
      exact h.attached b' count loaded hb'

/-- A window is closed. -/
theorem close (h : Counted buffers windows shown) (hw : w ∈ windows) (keepLoaded : Bool) :
    Counted (buffers.modify (shown w) (·.detach keepLoaded)) (windows.erase w) shown where
  displayed := by
    intro w' hw'
    have hold := h.displayed w' (Finset.mem_of_mem_erase hw')
    rw [books_modify]
    split
    · next heq =>
      obtain ⟨count, hcount⟩ := hold
      obtain ⟨state, hstate, hbook⟩ := Option.map_eq_some_iff.mp hcount
      have hleft : holders (windows.erase w) shown (shown w) ≠ 0 := by
        rw [Ne, holders_eq_zero]
        intro hnone
        exact hnone w' hw' heq
      have hfewer := holders_erase (f := shown) (r := shown w) hw
      have hcounted := h.attached _ _ _ hcount
      rw [heq] at hcounted
      rw [if_pos rfl] at hfewer
      obtain rfl : state.attachments = count := congrArg Prod.fst hbook
      have hloaded : state.isLoaded = true := congrArg Prod.snd hbook
      rw [hstate, Option.map_some, BufferState.book_detach, if_pos, hloaded]
      · exact ⟨_, rfl⟩
      · omega
    · exact hold
  attached := by
    intro b' count loaded hb'
    have hfewer := holders_erase (f := shown) (r := b') hw
    rw [books_modify] at hb'
    split at hb'
    · next heq =>
      obtain ⟨state, hstate, hbook⟩ := Option.map_eq_some_iff.mp hb'
      rw [BufferState.book_detach] at hbook
      have hcounted := h.attached _ _ _ (books_eq hstate)
      rw [if_pos heq.symm] at hfewer
      have hcount : state.attachments - 1 = count := congrArg Prod.fst hbook
      omega
    · next hne =>
      rw [if_neg (Ne.symm hne)] at hfewer
      have hcounted := h.attached b' count loaded hb'
      omega

/-- A window displays another buffer. -/
theorem swap (h : Counted buffers windows shown) (hw : w ∈ windows) (hne : shown w ≠ b)
    (hstate : buffers[b]? = some state) (hroom : state.attachments + 1 ≤ usizeMax) (keepLoaded : Bool) :
    Counted ((buffers.insert b state.attached).modify (shown w) (·.detach keepLoaded)) windows
      (Function.update shown w b) := by
  have hclosed := h.close hw keepLoaded
  have hother : (buffers.modify (shown w) (·.detach keepLoaded))[b]? = some state := by
    rw [OrderedMap.getElem?_modify, if_neg hne.symm, hstate]
  have hopened := hclosed.open_ (Finset.notMem_erase w windows) hother hroom
  rw [Finset.insert_erase hw] at hopened
  refine hopened.congr ?_ (fun _ _ => rfl)
  -- the two changes are about different buffers
  intro b'
  rw [books_modify, books_insert, books_insert, books_modify, OrderedMap.getElem?_insert]
  by_cases hold : b' = shown w
  · rw [if_pos hold, if_pos hold, if_neg (hold ▸ hne), if_neg (hold ▸ hne)]
  · rw [if_neg hold, if_neg hold]

/-- What an attached buffer is when it is detached again. -/
theorem books_reattached (hstate : buffers[b]? = some state) (hloaded : state.isLoaded = true)
    (hroom : state.attachments + 1 ≤ usizeMax) (b' : BufHandle) :
    books ((buffers.insert b state.attached).modify b (·.detach true)) b' = books buffers b' := by
  rw [books_modify, books_insert, OrderedMap.getElem?_insert]
  split
  · next heq =>
    have hbook := BufferState.book_attached hroom
    have hcount : state.attached.attachments = state.attachments + 1 := congrArg Prod.fst hbook
    have hafter : state.attached.isLoaded = true := congrArg Prod.snd hbook
    rw [heq, books_eq hstate, Option.map_some, BufferState.book_detach, hcount, hafter, ite_self,
      Nat.add_sub_cancel, BufferState.book, hloaded]
  · rfl

end Counted

/-! ## Windows and tabpages -/

/-- The windows are those of the tabpages, and the tab order lists the tabpages. -/
structure Housed (windows : ExtTreeMap WinHandle TabHandle) (tabpages : ExtTreeMap TabHandle TabpageState)
    (tabOrder : List TabHandle) (currentTab : Option TabHandle) : Prop where
  kept : ∀ (t : TabHandle) (tabpage : TabpageState), tabpages[t]? = some tabpage → tabpage.Kept
  windows : ∀ (w : WinHandle) (t : TabHandle), windows[w]? = some t ↔
    ∃ tabpage : TabpageState, tabpages[t]? = some tabpage ∧ w ∈ tabpage.windows
  nodup : tabOrder.Nodup
  order : ∀ t, t ∈ tabOrder ↔ t ∈ tabpages
  current : ∀ t, currentTab = some t → t ∈ tabOrder

namespace Housed

variable {windows : ExtTreeMap WinHandle TabHandle} {tabpages : ExtTreeMap TabHandle TabpageState}
  {tabOrder : List TabHandle} {currentTab : Option TabHandle} {w : WinHandle} {t : TabHandle}
  {old new : TabpageState}

theorem switch (h : Housed windows tabpages tabOrder currentTab) (ht : t ∈ tabpages) :
    Housed windows tabpages tabOrder (some t) :=
  { h with
    current := by
      intro t' ht'
      obtain rfl := Option.some.inj ht'
      exact (h.order t).mpr ht }

theorem kept_insert (h : Housed windows tabpages tabOrder currentTab) (hkept : new.Kept)
    (t' : TabHandle) (tabpage : TabpageState) (ht' : (tabpages.insert t new)[t']? = some tabpage) :
    tabpage.Kept := by
  rw [OrderedMap.getElem?_insert] at ht'
  split at ht'
  · cases ht'
    exact hkept
  · exact h.kept t' tabpage ht'

theorem order_insert (h : Housed windows tabpages tabOrder currentTab) (hold : tabpages[t]? = some old)
    (t' : TabHandle) : t' ∈ tabOrder ↔ t' ∈ tabpages.insert t new := by
  rw [h.order, OrderedMap.mem_insert, iff_or_self]
  rintro rfl
  exact OrderedMap.mem_of_getElem? hold

/-- A tabpage changes and keeps its windows. -/
theorem same (h : Housed windows tabpages tabOrder currentTab) (hold : tabpages[t]? = some old)
    (hkept : new.Kept) (hwindows : ∀ w, w ∈ new.windows ↔ w ∈ old.windows) :
    Housed windows (tabpages.insert t new) tabOrder currentTab where
  kept := h.kept_insert hkept
  windows := by
    intro w t'
    rw [h.windows, OrderedMap.getElem?_insert]
    split
    · next heq =>
      rw [heq, hold]
      simp [hwindows]
    · rfl
  nodup := h.nodup
  order := h.order_insert hold
  current := h.current

/-- A tabpage has one more window. -/
theorem add (h : Housed windows tabpages tabOrder currentTab) (hold : tabpages[t]? = some old)
    (hkept : new.Kept) (hwindows : new.windows.Perm (w :: old.windows)) (hw : w ∉ windows) :
    Housed (windows.insert w t) (tabpages.insert t new) tabOrder currentTab where
  kept := h.kept_insert hkept
  windows := by
    intro w' t'
    rw [OrderedMap.getElem?_insert, OrderedMap.getElem?_insert]
    have hrest := h.windows w' t'
    by_cases hw' : w' = w
    · subst hw'
      rw [OrderedMap.getElem?_eq_none hw] at hrest
      rw [if_pos rfl]
      by_cases ht' : t' = t
      · subst ht'
        simp [hwindows.mem_iff]
      · rw [if_neg ht', ← hrest]
        simp [Ne.symm ht']
    · rw [if_neg hw', hrest]
      by_cases ht' : t' = t
      · subst ht'
        simp [hold, hwindows.mem_iff, hw']
      · rw [if_neg ht']
  nodup := h.nodup
  order := h.order_insert hold
  current := h.current

/-- A tabpage has one window less. -/
theorem remove (h : Housed windows tabpages tabOrder currentTab) (hold : tabpages[t]? = some old)
    (hkept : new.Kept) (hwindows : old.windows.Perm (w :: new.windows)) :
    Housed (windows.erase w) (tabpages.insert t new) tabOrder currentTab where
  kept := h.kept_insert hkept
  windows := by
    intro w' t'
    rw [OrderedMap.getElem?_erase, OrderedMap.getElem?_insert]
    have hrest := h.windows w' t'
    have hgone := (List.nodup_cons.mp (hwindows.nodup_iff.mp (h.kept t old hold).nodup)).1
    by_cases hw' : w' = w
    · subst hw'
      have hhere := (h.windows w' t).mpr ⟨old, hold, hwindows.mem_iff.mpr List.mem_cons_self⟩
      rw [if_pos rfl]
      by_cases ht' : t' = t
      · subst ht'
        simp [hgone]
      · rw [if_neg ht', ← hrest, hhere]
        simp [Ne.symm ht']
    · rw [if_neg hw', hrest]
      by_cases ht' : t' = t
      · subst ht'
        simp [hold, hwindows.mem_iff, hw']
      · rw [if_neg ht']
  nodup := h.nodup
  order := h.order_insert hold
  current := h.current

/-- A tabpage with one window is added, and becomes current. -/
theorem addTab (h : Housed windows tabpages tabOrder currentTab) (ht : t ∉ tabpages)
    (hkept : new.Kept) (hwindows : new.windows = [w]) (hw : w ∉ windows) {index : Nat}
    (hindex : index ≤ tabOrder.length) :
    Housed (windows.insert w t) (tabpages.insert t new) (tabOrder.insertIdx index t) (some t) := by
  have hmem : ∀ t', t' ∈ tabOrder.insertIdx index t ↔ t' = t ∨ t' ∈ tabOrder := fun t' =>
    List.mem_insertIdx hindex
  refine ⟨h.kept_insert hkept, ?_, ?_, ?_, ?_⟩
  · intro w' t'
    rw [OrderedMap.getElem?_insert, OrderedMap.getElem?_insert]
    have hrest := h.windows w' t'
    by_cases ht' : t' = t
    · subst ht'
      rw [OrderedMap.getElem?_eq_none ht] at hrest
      by_cases hw' : w' = w
      · simp [hw', hwindows]
      · rw [if_neg hw', hrest]
        simp [hwindows, hw']
    · rw [if_neg ht', ← hrest]
      by_cases hw' : w' = w
      · subst hw'
        simp [OrderedMap.getElem?_eq_none hw, Ne.symm ht']
      · rw [if_neg hw']
  · rw [(List.perm_insertIdx t tabOrder hindex).nodup_iff, List.nodup_cons, h.order]
    exact ⟨ht, h.nodup⟩
  · intro t'
    rw [hmem, h.order, OrderedMap.mem_insert]
  · intro t' ht'
    obtain rfl := Option.some.inj ht'
    exact (hmem t).mpr (.inl rfl)

/-- A tabpage that has one window left is removed, and another is current. -/
theorem removeTab (h : Housed windows tabpages tabOrder currentTab) (hold : tabpages[t]? = some old)
    (hwindows : old.windows = [w]) {next : Option TabHandle}
    (hnext : ∀ t', next = some t' → t' ∈ tabOrder ∧ t' ≠ t) :
    Housed (windows.erase w) (tabpages.erase t) (tabOrder.filter (· ≠ t)) next := by
  refine ⟨?_, ?_, h.nodup.filter _, ?_, ?_⟩
  · intro t' tabpage ht'
    rw [OrderedMap.getElem?_erase] at ht'
    split at ht'
    · cases ht'
    · exact h.kept t' tabpage ht'
  · intro w' t'
    rw [OrderedMap.getElem?_erase, OrderedMap.getElem?_erase]
    have hrest := h.windows w' t'
    by_cases ht' : t' = t
    · subst ht'
      rw [if_pos rfl]
      simp only [hold, Option.some.injEq, exists_eq_left', hwindows, List.mem_singleton] at hrest
      by_cases hw' : w' = w
      · simp [hw']
      · simp [hw', hrest]
    · rw [if_neg ht', ← hrest]
      by_cases hw' : w' = w
      · subst hw'
        have hhere := (h.windows w' t).mpr ⟨old, hold, hwindows ▸ List.mem_singleton_self w'⟩
        simp [hhere, Ne.symm ht']
      · rw [if_neg hw']
  · intro t'
    rw [List.mem_filter, decide_eq_true_eq, h.order, OrderedMap.mem_erase, and_comm]
  · intro t' ht'
    obtain ⟨hin, hne⟩ := hnext t' ht'
    exact List.mem_filter.mpr ⟨hin, decide_eq_true hne⟩

end Housed

end Oxvim.Editor
