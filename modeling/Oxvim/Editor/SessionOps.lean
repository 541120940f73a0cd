import Oxvim.Editor.SessionInvariant

/-!
# The operations of an editor

An operation that has changed nothing that shows is `Idle`: it may have handed out a handle, synced an
undo tree, or attached a buffer and detached it again. `Ends` says that an operation ends in a
consistent editor, that it was idle when it fails, and that the handle it returns is live and was never
handed out before. Rules for the steps of a program take a proof of `Ends` through its checks to the
one change it is about.
-/

set_option linter.dupNamespace false

namespace Oxvim.Editor

open Lib EState
open Std (ExtTreeMap)

/-! ## Handles -/

/-- A handle of one of the three kinds. -/
inductive Handle where
  | buffer (buffer : BufHandle)
  | window (window : WinHandle)
  | tabpage (tab : TabHandle)

namespace Handle

/-- The editor has something with this handle. -/
def Live : Handle → Editor → Prop
  | buffer b, e => b ∈ e.buffers
  | window w, e => w ∈ e.windows
  | tabpage t, e => t ∈ e.tabpages

/-- The handle was handed out: it is not the one for what is current, and below the counter. -/
def Issued : Handle → Editor → Prop
  | buffer b, e => 0 < b ∧ b < e.nextBuffer
  | window w, e => 0 < w ∧ w < e.nextWindow
  | tabpage t, e => 0 < t ∧ t < e.nextTabpage

/-- The handle is still to come. -/
def Fresh : Handle → Editor → Prop
  | buffer b, e => e.nextBuffer ≤ b
  | window w, e => e.nextWindow ≤ w
  | tabpage t, e => e.nextTabpage ≤ t

theorem Issued.not_fresh {h : Handle} {e : Editor} (hissued : h.Issued e) : ¬h.Fresh e := by
  cases h with
  | buffer b => exact Nat.not_le.mpr hissued.2
  | window w => exact Nat.not_le.mpr hissued.2
  | tabpage t => exact Nat.not_le.mpr hissued.2

end Handle

namespace Editor

variable {e e₁ e₂ : Editor}

/-! ## The invariant -/

/-- The windows of an editor, as a set. -/
abbrev liveWindows (e : Editor) : Finset WinHandle := OrderedMap.keySet e.windows

/-- The buffer a window displays. -/
def shown (e : Editor) (w : WinHandle) : BufHandle := (e.views w).buffer

/-- What every operation keeps. -/
structure Consistent (e : Editor) : Prop where
  counted : Counted e.buffers e.liveWindows e.shown
  housed : Housed e.windows e.tabpages e.tabOrder e.currentTab
  issued : ∀ h : Handle, h.Live e → h.Issued e
  counters : 0 < e.nextBuffer ∧ 0 < e.nextWindow ∧ 0 < e.nextTabpage
  windowSpace : e.nextWindow ≤ handleMax + 1

/-- Only fresh handles come into use. -/
def Extends (e t : Editor) : Prop :=
  ∀ h : Handle, (h.Live t → h.Live e ∨ h.Fresh e) ∧ (h.Fresh t → h.Fresh e)

/-- The windows display the same buffers, and the buffers count the same windows. -/
structure SameShown (e t : Editor) : Prop where
  windows : t.windows = e.windows
  shown : ∀ w ∈ e.windows, t.shown w = e.shown w
  attachments : ∀ b : BufHandle,
    (t.buffers[b]?).map (·.attachments) = (e.buffers[b]?).map (·.attachments)

/-- Nothing has happened yet that shows. -/
structure Idle (e t : Editor) : Prop where
  consistent : t.Consistent
  extends_ : Extends e t
  same : SameShown e t

/-- How an operation ends that returns a handle. -/
structure Ends {α : Type} (e : Editor) (handle : α → Option Handle)
    (r : EStateM.Result EditorError Editor α) : Prop where
  consistent : (final r).Consistent
  extends_ : Extends e (final r)
  failed : ∀ error t, r = .error error t → SameShown e t
  returned : ∀ a t h, r = .ok a t → handle a = some h → h.Live t ∧ h.Fresh e

theorem Extends.refl (e : Editor) : Extends e e :=
  fun _ => ⟨.inl, id⟩

theorem Extends.trans (h₁ : Extends e e₁) (h₂ : Extends e₁ e₂) : Extends e e₂ := by
  intro h
  refine ⟨?_, fun hfresh => (h₁ h).2 ((h₂ h).2 hfresh)⟩
  intro hlive
  rcases (h₂ h).1 hlive with hlive | hfresh
  · exact (h₁ h).1 hlive
  · exact .inr ((h₁ h).2 hfresh)

theorem SameShown.refl (e : Editor) : SameShown e e :=
  ⟨rfl, fun _ _ => rfl, fun _ => rfl⟩

theorem SameShown.trans (h₁ : SameShown e e₁) (h₂ : SameShown e₁ e₂) : SameShown e e₂ where
  windows := h₂.windows.trans h₁.windows
  shown := by
    intro w hw
    rw [h₂.shown w (h₁.windows ▸ hw), h₁.shown w hw]
  attachments := fun b => (h₂.attachments b).trans (h₁.attachments b)

theorem Idle.refl (he : e.Consistent) : Idle e e :=
  ⟨he, .refl e, .refl e⟩

theorem Idle.trans (h₁ : Idle e e₁) (h₂ : Idle e₁ e₂) : Idle e e₂ :=
  ⟨h₂.consistent, h₁.extends_.trans h₂.extends_, h₁.same.trans h₂.same⟩

/-! ## Rules -/

section Rules

variable {α β : Type} {handle : α → Option Handle}

theorem Ends.error (h : Idle e e₁) (error : EditorError) :
    Ends e handle (.error error e₁ : EStateM.Result EditorError Editor α) where
  consistent := h.consistent
  extends_ := h.extends_
  failed := by
    intro error' t ht
    cases ht
    exact h.same
  returned := by
    intro a t h' ht
    cases ht

theorem Ends.ok {a : α} (hconsistent : e₁.Consistent) (hextends : Extends e e₁)
    (hreturned : ∀ h, handle a = some h → h.Live e₁ ∧ h.Fresh e) :
    Ends e handle (.ok a e₁ : EStateM.Result EditorError Editor α) where
  consistent := hconsistent
  extends_ := hextends
  failed := by
    intro error t ht
    cases ht
  returned := by
    intro a' t h ht
    cases ht
    exact hreturned h

theorem read_ok {q : Editor → Except EditorError β} {b : β} (h : q e = .ok b) : read q e = .ok b e := by
  rw [read, bind_ok (get_run e), h, ofExcept_ok_run]

theorem read_error {q : Editor → Except EditorError β} {error : EditorError} (h : q e = .error error) :
    read q e = .error error e := by
  rw [read, bind_ok (get_run e), h, ofExcept_error_run]

theorem of_found {value : Option β} {error : EditorError} {b : β} (h : found value error = .ok b) :
    value = some b := by
  cases value with
  | none => cases h
  | some b' =>
    cases h
    rfl

theorem found_eq {value : Option β} {error : EditorError} {b : β} (h : value = some b) :
    found value error = .ok b := by
  rw [h]
  rfl

/-- A lookup may fail as long as the operation is idle. -/
theorem Ends.read {q : Editor → Except EditorError β} {f : β → EStateM EditorError Editor α}
    (hidle : Idle e e₁) (h : ∀ b, q e₁ = .ok b → Ends e handle (f b e₁)) :
    Ends e handle ((Editor.read q >>= f) e₁) := by
  cases hq : q e₁ with
  | error error =>
    rw [bind_error (read_error hq)]
    exact .error hidle error
  | ok b =>
    rw [bind_ok (read_ok hq)]
    exact h b hq

/-- A lookup that is known to succeed. -/
theorem Ends.known {q : Editor → Except EditorError β} {f : β → EStateM EditorError Editor α} {b : β}
    (hq : q e₁ = .ok b) (h : Ends e handle (f b e₁)) : Ends e handle ((Editor.read q >>= f) e₁) := by
  rw [bind_ok (read_ok hq)]
  exact h

/-- What is returned is made of the result of an operation. -/
theorem Ends.bind_pure {x : EStateM EditorError Editor α} {f : α → β} {handle' : β → Option Handle}
    (h : Ends e handle (x e₁)) (hhandle : ∀ a, handle' (f a) = handle a) :
    Ends e handle' ((x >>= fun a => pure (f a)) e₁) := by
  cases hx : x e₁ with
  | error error t =>
    rw [bind_error hx]
    rw [hx] at h
    refine ⟨h.consistent, h.extends_, ?_, ?_⟩
    · intro error' t' ht'
      cases ht'
      exact h.failed _ _ rfl
    · intro a t' h' ht'
      cases ht'
  | ok a t =>
    rw [bind_ok hx, pure_run]
    rw [hx] at h
    refine .ok h.consistent h.extends_ ?_
    intro h' hh'
    exact h.returned a t h' rfl (hhandle a ▸ hh')

end Rules

/-! ## Handing out handles -/

theorem Consistent.bump (he : e.Consistent) {nextBuffer nextWindow nextTabpage : Nat}
    (hb : e.nextBuffer ≤ nextBuffer) (hw : e.nextWindow ≤ nextWindow) (ht : e.nextTabpage ≤ nextTabpage)
    (hspace : nextWindow ≤ handleMax + 1) :
    Idle e { e with nextBuffer, nextWindow, nextTabpage } where
  consistent := by
    refine ⟨he.counted, he.housed, ?_, ?_, hspace⟩
    · intro h hlive
      cases h with
      | buffer b =>
        have := he.issued (.buffer b) hlive
        exact ⟨this.1, this.2.trans_le hb⟩
      | window w =>
        have := he.issued (.window w) hlive
        exact ⟨this.1, this.2.trans_le hw⟩
      | tabpage t =>
        have := he.issued (.tabpage t) hlive
        exact ⟨this.1, this.2.trans_le ht⟩
    · have := he.counters
      exact ⟨this.1.trans_le hb, this.2.1.trans_le hw, this.2.2.trans_le ht⟩
  extends_ := by
    intro h
    cases h with
    | buffer b => exact ⟨.inl, hb.trans⟩
    | window w => exact ⟨.inl, hw.trans⟩
    | tabpage t => exact ⟨.inl, ht.trans⟩
  same := ⟨rfl, fun _ _ => rfl, fun _ => rfl⟩

/-- With the same counters and no new handles, all handles are still issued. -/
theorem Consistent.handles (he : e.Consistent) {t : Editor}
    (hcounters : t.nextBuffer = e.nextBuffer ∧ t.nextWindow = e.nextWindow ∧
      t.nextTabpage = e.nextTabpage)
    (hb : ∀ b, b ∈ t.buffers → b ∈ e.buffers) (hw : ∀ w, w ∈ t.windows → w ∈ e.windows)
    (ht : ∀ tab, tab ∈ t.tabpages → tab ∈ e.tabpages) :
    (∀ h : Handle, h.Live t → h.Issued t) ∧ Extends e t := by
  have hlive : ∀ h : Handle, h.Live t → h.Live e := by
    intro h
    cases h with
    | buffer b => exact hb b
    | window w => exact hw w
    | tabpage tab => exact ht tab
  have hissued : ∀ h : Handle, h.Issued t ↔ h.Issued e := by
    intro h
    cases h with
    | buffer b => rw [Handle.Issued, Handle.Issued, hcounters.1]
    | window w => rw [Handle.Issued, Handle.Issued, hcounters.2.1]
    | tabpage tab => rw [Handle.Issued, Handle.Issued, hcounters.2.2]
  refine ⟨fun h hh => (hissued h).mpr (he.issued h (hlive h hh)), ?_⟩
  intro h
  refine ⟨fun hh => .inl (hlive h hh), ?_⟩
  cases h with
  | buffer b => exact hcounters.1.ge.trans
  | window w => exact hcounters.2.1.ge.trans
  | tabpage tab => exact hcounters.2.2.ge.trans

section Allocation

variable {α : Type} {handle : α → Option Handle}

theorem Ends.allocateBufferHandle {f : BufHandle → EStateM EditorError Editor α} (hidle : Idle e e₁)
    (h : Idle e { e₁ with nextBuffer := e₁.nextBuffer + 1 } →
      Ends e handle (f e₁.nextBuffer { e₁ with nextBuffer := e₁.nextBuffer + 1 })) :
    Ends e handle ((Editor.allocateBufferHandle >>= f) e₁) := by
  have he₁ := hidle.consistent
  by_cases hmax : handleMax < e₁.nextBuffer
  · rw [bind_error (t := e₁) (e := .handleExhausted "buffer")]
    · exact .error hidle _
    · rw [Editor.allocateBufferHandle, bind_ok (get_run e₁), if_pos hmax, throw_run]
  · rw [bind_ok (a := e₁.nextBuffer) (t := { e₁ with nextBuffer := e₁.nextBuffer + 1 })]
    · exact h (hidle.trans (he₁.bump (Nat.le_succ _) le_rfl le_rfl he₁.windowSpace))
    · rw [Editor.allocateBufferHandle, bind_ok (get_run e₁), if_neg hmax]
      rfl

theorem Ends.allocateWindowHandle {f : WinHandle → EStateM EditorError Editor α} (hidle : Idle e e₁)
    (h : Idle e { e₁ with nextWindow := e₁.nextWindow + 1 } → e₁.nextWindow ≤ handleMax →
      Ends e handle (f e₁.nextWindow { e₁ with nextWindow := e₁.nextWindow + 1 })) :
    Ends e handle ((Editor.allocateWindowHandle >>= f) e₁) := by
  have he₁ := hidle.consistent
  by_cases hmax : handleMax < e₁.nextWindow
  · rw [bind_error (t := e₁) (e := .handleExhausted "window")]
    · exact .error hidle _
    · rw [Editor.allocateWindowHandle, bind_ok (get_run e₁), if_pos hmax, throw_run]
  · rw [bind_ok (a := e₁.nextWindow) (t := { e₁ with nextWindow := e₁.nextWindow + 1 })]
    · exact h (hidle.trans (he₁.bump le_rfl (Nat.le_succ _) le_rfl (by omega))) (Nat.not_lt.mp hmax)
    · rw [Editor.allocateWindowHandle, bind_ok (get_run e₁), if_neg hmax]
      rfl

theorem Ends.allocateTabHandle {f : TabHandle → EStateM EditorError Editor α} (hidle : Idle e e₁)
    (h : Idle e { e₁ with nextTabpage := e₁.nextTabpage + 1 } →
      Ends e handle (f e₁.nextTabpage { e₁ with nextTabpage := e₁.nextTabpage + 1 })) :
    Ends e handle ((Editor.allocateTabHandle >>= f) e₁) := by
  have he₁ := hidle.consistent
  by_cases hmax : handleMax < e₁.nextTabpage
  · rw [bind_error (t := e₁) (e := .handleExhausted "tabpage")]
    · exact .error hidle _
    · rw [Editor.allocateTabHandle, bind_ok (get_run e₁), if_pos hmax, throw_run]
  · rw [bind_ok (a := e₁.nextTabpage) (t := { e₁ with nextTabpage := e₁.nextTabpage + 1 })]
    · exact h (hidle.trans (he₁.bump le_rfl le_rfl (Nat.le_succ _) he₁.windowSpace))
    · rw [Editor.allocateTabHandle, bind_ok (get_run e₁), if_neg hmax]
      rfl

end Allocation

/-! ## Buffers -/

section Buffers

variable {α : Type} {handle : α → Option Handle} {b : BufHandle} {state : BufferState}

theorem Consistent.live_of_book (he : e.Consistent) {w : WinHandle} (hw : w ∈ e.windows) :
    e.shown w ∈ e.buffers := by
  obtain ⟨count, hcount⟩ := he.counted.displayed w (OrderedMap.mem_keySet.mpr hw)
  obtain ⟨state, hstate, -⟩ := Option.map_eq_some_iff.mp hcount
  exact OrderedMap.mem_of_getElem? hstate

/-- Handles are too few for the counter of a buffer to saturate. -/
theorem Consistent.room (he : e.Consistent) (hstate : e.buffers[b]? = some state) :
    state.attachments + 1 ≤ usizeMax := by
  have hcount : state.attachments = _ := he.counted.attached _ _ _ (Counted.books_eq hstate)
  have hle := holders_le_card (s := e.liveWindows) (f := e.shown) (r := b)
  have hrange : e.liveWindows ⊆ Finset.range e.nextWindow := by
    intro w hw
    exact Finset.mem_range.mpr (he.issued (.window w) (OrderedMap.mem_keySet.mp hw)).2
  have hcard := Finset.card_le_card hrange
  rw [Finset.card_range] at hcard
  have hspace := he.windowSpace
  rw [handleMax] at hspace
  rw [usizeMax]
  omega

/-- The buffers change in what windows do not depend on. -/
theorem Consistent.rebook (he : e.Consistent) {buffers : ExtTreeMap BufHandle BufferState}
    (hbooks : ∀ b, books buffers b = books e.buffers b) : Idle e { e with buffers } := by
  have hmem : ∀ b, b ∈ buffers → b ∈ e.buffers := by
    intro b hb
    obtain ⟨state, hstate⟩ := OrderedMap.mem_iff.mp hb
    have hbook := hbooks b
    rw [Counted.books_eq hstate] at hbook
    obtain ⟨state', hstate', -⟩ := Option.map_eq_some_iff.mp hbook.symm
    exact OrderedMap.mem_of_getElem? hstate'
  obtain ⟨hissued, hextends⟩ := he.handles (t := { e with buffers }) ⟨rfl, rfl, rfl⟩ hmem
    (fun _ => id) (fun _ => id)
  refine ⟨⟨he.counted.congr hbooks fun _ _ => rfl, he.housed, hissued, he.counters, he.windowSpace⟩,
    hextends, rfl, fun _ _ => rfl, ?_⟩
  intro b
  have hbook := congrArg (Option.map Prod.fst) (hbooks b)
  rw [books, books, Option.map_map, Option.map_map] at hbook
  exact hbook

theorem onBuffer_error {op : EStateM BufferStateError BufferState α} {error : BufferStateError}
    (hstate : e.buffers[b]? = some state) (hop : op state = .error error state) :
    onBuffer b op e = .error (.buffer error) e := by
  rw [onBuffer, hstate]
  dsimp only
  rw [zoom_error (t := e) (v := fun _ => state) hop, OrderedMap.insert_eq_self hstate]

theorem onBuffer_ok {op : EStateM BufferStateError BufferState α} {a : α} {after : BufferState}
    (hstate : e.buffers[b]? = some state) (hop : op state = .ok a after) :
    onBuffer b op e = .ok a { e with buffers := e.buffers.insert b after } := by
  rw [onBuffer, hstate]
  dsimp only
  rw [zoom_ok (t := e) (v := fun _ => state) hop]

theorem onBuffer_attach (e : Editor) (b : BufHandle) :
    ((∀ state, e.buffers[b]? = some state → state.isLoaded = false) ∧
      ∃ error, onBuffer b BufferState.attach e = .error error e) ∨
      ∃ state, e.buffers[b]? = some state ∧ state.isLoaded = true ∧
        onBuffer b BufferState.attach e
          = .ok () { e with buffers := e.buffers.insert b state.attached } := by
  cases hstate : e.buffers[b]? with
  | none =>
    refine .inl ⟨by rintro state ⟨⟩, .unknownBuffer b, ?_⟩
    rw [onBuffer, hstate]
  | some state =>
    rcases state.attach_run with ⟨hunloaded, hrun⟩ | ⟨hloaded, hrun⟩
    · refine .inl ⟨?_, _, onBuffer_error hstate hrun⟩
      rintro state' ⟨⟩
      exact hunloaded
    · exact .inr ⟨state, rfl, hloaded, onBuffer_ok hstate hrun⟩

/-- A buffer is attached, or the operation fails. -/
theorem Ends.attach {f : Unit → EStateM EditorError Editor α} (hidle : Idle e e₁)
    (h : ∀ state, e₁.buffers[b]? = some state → state.isLoaded = true →
      Ends e handle (f () { e₁ with buffers := e₁.buffers.insert b state.attached })) :
    Ends e handle ((onBuffer b BufferState.attach >>= f) e₁) := by
  rcases onBuffer_attach e₁ b with ⟨-, error, hrun⟩ | ⟨state, hstate, hloaded, hrun⟩
  · rw [bind_error hrun]
    exact .error hidle error
  · rw [bind_ok hrun]
    exact h state hstate hloaded

theorem createBufferWith_ends (he : e.Consistent) (text : Text.Buffer) (listed : Bool) :
    Ends e (fun b => some (.buffer b)) (createBufferWith text listed e) := by
  apply Ends.allocateBufferHandle (.refl he)
  intro hidle
  have hnew : e.nextBuffer ∉ e.buffers := fun hlive => (he.issued (.buffer _) hlive).not_fresh le_rfl
  have hunseen : ∀ w ∈ e.windows, e.shown w ≠ e.nextBuffer := fun w hw =>
    ne_of_mem_of_not_mem (he.live_of_book hw) hnew
  refine .ok ⟨⟨?_, ?_⟩, he.housed, ?_, hidle.consistent.counters, he.windowSpace⟩ ?_ ?_
  · intro w hw
    show ∃ count, books (e.buffers.insert e.nextBuffer _) (e.shown w) = some (count, true)
    rw [Counted.books_insert, if_neg (hunseen w (OrderedMap.mem_keySet.mp hw))]
    exact he.counted.displayed w hw
  · intro b count loaded hb
    rw [Counted.books_insert] at hb
    split at hb
    · next heq =>
      -- nobody displays the new buffer
      cases hb
      subst heq
      have hnone := holders_eq_zero.mpr fun w hw => hunseen w (OrderedMap.mem_keySet.mp hw)
      exact hnone.symm
    · exact he.counted.attached b count loaded hb
  · intro h hlive
    cases h with
    | buffer b =>
      rcases OrderedMap.mem_insert.mp hlive with rfl | hlive
      · exact ⟨he.counters.1, Nat.lt_succ_self _⟩
      · exact hidle.consistent.issued (.buffer b) hlive
    | window w => exact he.issued (.window w) hlive
    | tabpage t => exact he.issued (.tabpage t) hlive
  · intro h
    cases h with
    | buffer b =>
      refine ⟨fun hlive => ?_, (hidle.extends_ (.buffer b)).2⟩
      rcases OrderedMap.mem_insert.mp hlive with rfl | hlive
      · exact .inr le_rfl
      · exact .inl hlive
    | window w => exact ⟨.inl, id⟩
    | tabpage t => exact ⟨.inl, id⟩
  · rintro h ⟨⟩
    exact ⟨OrderedMap.mem_insert.mpr (.inl rfl), le_rfl⟩

/-- A buffer that no window displays goes, or loses its text. -/
theorem Consistent.unused (he : e.Consistent) (hstate : e.buffers[b]? = some state)
    (hzero : state.attachments = 0) {m : ExtTreeMap BufHandle BufferState}
    (hothers : ∀ b', b' ≠ b → books m b' = books e.buffers b')
    (hbook : ∀ count loaded, books m b = some (count, loaded) → count = 0) :
    Consistent { e with buffers := m } ∧ Extends e { e with buffers := m } := by
  have hunseen : ∀ w ∈ e.liveWindows, e.shown w ≠ b := by
    have hcount := he.counted.attached _ _ _ (Counted.books_eq hstate)
    rw [hzero] at hcount
    exact holders_eq_zero.mp hcount.symm
  have hmem : ∀ b', b' ∈ m → b' ∈ e.buffers := by
    intro b' hb'
    by_cases heq : b' = b
    · rw [heq]
      exact OrderedMap.mem_of_getElem? hstate
    · obtain ⟨state', hstate'⟩ := OrderedMap.mem_iff.mp hb'
      have hsame := hothers b' heq
      rw [Counted.books_eq hstate'] at hsame
      obtain ⟨old, hold, -⟩ := Option.map_eq_some_iff.mp hsame.symm
      exact OrderedMap.mem_of_getElem? hold
  obtain ⟨hissued, hextends⟩ := he.handles (t := { e with buffers := m }) ⟨rfl, rfl, rfl⟩ hmem
    (fun _ => id) (fun _ => id)
  refine ⟨⟨⟨?_, ?_⟩, he.housed, hissued, he.counters, he.windowSpace⟩, hextends⟩
  · intro w hw
    show ∃ count, books m (e.shown w) = some (count, true)
    rw [hothers _ (hunseen w hw)]
    exact he.counted.displayed w hw
  · intro b' count loaded hb'
    by_cases heq : b' = b
    · subst heq
      rw [hbook count loaded hb']
      exact (holders_eq_zero.mpr hunseen).symm
    · exact he.counted.attached b' count loaded ((hothers b' heq).symm.trans hb')

theorem wipeBuffer_ends (he : e.Consistent) (buffer : BufHandle) :
    Ends e (fun _ => none) (wipeBuffer buffer e) := by
  apply Ends.read (.refl he)
  intro b _
  apply Ends.read (.refl he)
  intro state hfound
  have hstate := of_found hfound
  by_cases hzero : state.attachments = 0
  · rw [if_neg (not_not.mpr hzero), modify_run]
    obtain ⟨hconsistent, hextends⟩ := he.unused (m := e.buffers.erase b) hstate hzero
      (fun b' hb' => by rw [Counted.books_erase, if_neg hb'])
      (fun count loaded hb => by rw [Counted.books_erase, if_pos rfl] at hb; cases hb)
    exact .ok hconsistent hextends (by rintro h ⟨⟩)
  · rw [if_pos hzero]
    exact .error (.refl he) _

theorem unloadBuffer_ends (he : e.Consistent) (buffer : BufHandle) :
    Ends e (fun _ => none) (unloadBuffer buffer e) := by
  apply Ends.read (.refl he)
  intro b _
  cases hstate : e.buffers[b]? with
  | none =>
    rw [onBuffer, hstate]
    exact .error (.refl he) _
  | some state =>
    rcases state.unload_run with ⟨-, hrun⟩ | ⟨hzero, after, hrun, hbook⟩
    · rw [onBuffer_error hstate hrun]
      exact .error (.refl he) _
    · rw [onBuffer_ok hstate hrun]
      obtain ⟨hconsistent, hextends⟩ := he.unused (m := e.buffers.insert b after) hstate hzero
        (fun b' hb' => by rw [Counted.books_insert, if_neg hb'])
        (fun count loaded hb => by
          rw [Counted.books_insert, if_pos rfl, hbook] at hb
          cases hb
          rfl)
      exact .ok hconsistent hextends (by rintro h ⟨⟩)

end Buffers

/-! ## Lookups -/

section Lookups

variable {w : WinHandle} {t : TabHandle} {b : BufHandle} {tabpage : TabpageState}

theorem Consistent.window_ne (he : e.Consistent) (hw : w ∈ e.windows) : w ≠ WinHandle.CURRENT :=
  Nat.pos_iff_ne_zero.mp (he.issued (.window w) hw).1

theorem Consistent.buffer_ne (he : e.Consistent) (hb : b ∈ e.buffers) : b ≠ 0 :=
  Nat.pos_iff_ne_zero.mp (he.issued (.buffer b) hb).1

theorem Consistent.tab_ne (he : e.Consistent) (ht : t ∈ e.tabpages) : t ≠ 0 :=
  Nat.pos_iff_ne_zero.mp (he.issued (.tabpage t) ht).1

theorem resolveWindowHandle_eq (hw : w ≠ WinHandle.CURRENT) : e.resolveWindowHandle w = .ok w := by
  rw [resolveWindowHandle, if_neg]
  rw [WinHandle.isCurrent, beq_iff_eq]
  exact hw

theorem resolveBufferHandle_eq (hb : b ≠ 0) : e.resolveBufferHandle b = .ok b :=
  if_neg hb

theorem resolveTabpageHandle_eq (ht : t ≠ 0) : e.resolveTabpageHandle t = .ok t :=
  if_neg ht

theorem tabpage_eq (ht : t ≠ 0) (htab : e.tabpages[t]? = some tabpage) : e.tabpage t = .ok tabpage := by
  rw [Editor.tabpage, if_neg ht]
  show found e.tabpages[t]? _ = _
  rw [htab]
  rfl

/-- The tabpage of a window. -/
theorem Consistent.tab_of_window (he : e.Consistent) (hw : w ∈ e.windows) :
    ∃ t tabpage, e.windows[w]? = some t ∧ e.tabpages[t]? = some tabpage ∧ tabpage.Kept ∧
      w ∈ tabpage.windows ∧ t ≠ 0 := by
  obtain ⟨t, ht⟩ := OrderedMap.mem_iff.mp hw
  obtain ⟨tabpage, htab, hmem⟩ := (he.housed.windows w t).mp ht
  exact ⟨t, tabpage, ht, htab, he.housed.kept t tabpage htab, hmem,
    he.tab_ne (OrderedMap.mem_of_getElem? htab)⟩

theorem Consistent.mem_windows (he : e.Consistent) (htab : e.tabpages[t]? = some tabpage)
    (hw : w ∈ tabpage.windows) : w ∈ e.windows :=
  OrderedMap.mem_of_getElem? ((he.housed.windows w t).mpr ⟨tabpage, htab, hw⟩)

theorem Consistent.currentWindow (he : e.Consistent) (h : e.currentWindow = some w) :
    ∃ t tabpage, e.currentTab = some t ∧ e.tabpages[t]? = some tabpage ∧ tabpage.current = w ∧
      w ∈ e.windows := by
  obtain ⟨t, ht, htabpage⟩ := Option.bind_eq_some_iff.mp h
  obtain ⟨tabpage, htab, hcurrent⟩ := Option.bind_eq_some_iff.mp htabpage
  obtain rfl := Option.some.inj hcurrent
  exact ⟨t, tabpage, ht, htab, rfl, he.mem_windows htab (he.housed.kept t tabpage htab).current⟩

theorem Consistent.resolveWindowHandle (he : e.Consistent) {window : WinHandle}
    (h : e.resolveWindowHandle window = .ok w) : w ≠ WinHandle.CURRENT := by
  rw [Editor.resolveWindowHandle] at h
  split at h
  · obtain ⟨-, -, -, -, -, hlive⟩ := he.currentWindow (of_found h)
    exact he.window_ne hlive
  · next hne =>
    cases h
    rw [WinHandle.isCurrent, beq_iff_eq] at hne
    exact hne

/-- A tabpage finds the windows it contains. -/
theorem tabpage_window (hw : w ≠ WinHandle.CURRENT) :
    (∃ state, tabpage.window w = .ok state) ↔ w ∈ tabpage.windows := by
  rw [TabpageState.mem_windows, TabpageState.window, TabpageState.resolve_eq hw]
  cases hfind : tabpage.floats.find? (·.window = w) with
  | some float =>
    have hmem := List.mem_of_find?_eq_some hfind
    have hwindow : float.window = w := by simpa using List.find?_some hfind
    refine iff_of_true ⟨_, rfl⟩ (.inr (List.mem_map.mpr ⟨float, hmem, hwindow⟩))
  | none =>
    have hnone : w ∉ tabpage.floats.map (·.window) := by
      intro hmem
      obtain ⟨float, hfloat, hwindow⟩ := List.mem_map.mp hmem
      exact absurd (decide_eq_true hwindow) (List.find?_eq_none.mp hfind float hfloat)
    rw [or_iff_left hnone, ← TabpageState.layout_window_isOk hw]
    dsimp only
    cases tabpage.layout.window w with
    | error error => simp [Except.isOk, Except.toBool]
    | ok state => simp [Except.isOk, Except.toBool]

theorem fromLayout_window (hw : w ≠ WinHandle.CURRENT) (hmem : w ∈ tabpage.windows) :
    ∃ state, fromLayout (tabpage.window w) = .ok state := by
  obtain ⟨state, hstate⟩ := (tabpage_window hw).mpr hmem
  rw [hstate]
  exact ⟨state, rfl⟩

theorem Consistent.window_eq (he : e.Consistent) (hw : w ∈ e.windows) : e.window w = .ok (e.views w) := by
  obtain ⟨t, tabpage, ht, htab, -, hmem, hne⟩ := he.tab_of_window hw
  have hcurrent := he.window_ne hw
  obtain ⟨state, hstate⟩ := fromLayout_window hcurrent hmem
  rw [Editor.window, resolveWindowHandle_eq hcurrent]
  show (found e.windows[w]? _ >>= _) = _
  rw [ht]
  show (e.tabpage t >>= _) = _
  rw [tabpage_eq hne htab]
  show (fromLayout (tabpage.window w) >>= _) = _
  rw [hstate, TabpageState.resolve_eq hcurrent]
  rfl

theorem Consistent.of_window (he : e.Consistent) {view : WindowView} (hw : w ≠ WinHandle.CURRENT)
    (h : e.window w = .ok view) : w ∈ e.windows ∧ view = e.views w := by
  have hlive : w ∈ e.windows := by
    rw [Editor.window, resolveWindowHandle_eq hw] at h
    by_contra hnone
    change (found e.windows[w]? _ >>= _) = _ at h
    rw [OrderedMap.getElem?_eq_none hnone] at h
    cases h
  rw [he.window_eq hlive] at h
  exact ⟨hlive, (Except.ok.inj h).symm⟩

end Lookups

/-! ## Displaying another buffer -/

section Display

variable {w : WinHandle} {b : BufHandle} {state : BufferState} {release : BufferRelease}

/-- The editor when a window has switched to another buffer. -/
def switched (e : Editor) (w : WinHandle) (b : BufHandle) (state : BufferState) (release : BufferRelease) :
    Editor :=
  { e with
    buffers := ((e.buffers.modify (e.shown w) BufferState.syncUndo).insert b state.attached).modify
      (e.shown w) (·.detach (release = .keepLoaded))
    views := Function.update e.views w
      { e.views w with alternateBuffer := some (e.shown w), loclistRef := none, buffer := b } }

theorem requireBuffer_eq (hb : b ∈ e.buffers) : e.requireBuffer b = .ok () :=
  if_pos hb

theorem of_requireBuffer (h : e.requireBuffer b = .ok ()) : b ∈ e.buffers := by
  rw [requireBuffer] at h
  split at h
  · assumption
  · cases h

theorem attachedFor_ok {α : Type} {op : EStateM EditorError Editor α} {a : α} (h : op e = .ok a e₁) :
    attachedFor b op e = .ok a e₁ := by
  rw [attachedFor, h]

theorem attachedFor_error {α : Type} {op : EStateM EditorError Editor α} {error : EditorError}
    (h : op e = .error error e₁) :
    attachedFor b op e = .error error (e₁.modifyBuffer b (·.detach true)) := by
  rw [attachedFor, h]

theorem Consistent.sync (he : e.Consistent) (b : BufHandle) : Idle e (e.syncBufferUndo b) := by
  apply he.rebook
  intro b'
  rw [Counted.books_modify]
  split
  · rfl
  · rfl

/-- A live window switches to a live buffer: it displays it already, or the buffer is not loaded, or it
does. -/
theorem setWindowBuffer_live (he : e.Consistent) (hw : w ∈ e.windows) (hb : b ∈ e.buffers)
    (release : BufferRelease) :
    e.shown w = b ∧ setWindowBuffer w b release e = .ok () e ∨
      e.shown w ≠ b ∧ (((∀ state, e.buffers[b]? = some state → state.isLoaded = false) ∧
          ∃ error, setWindowBuffer w b release e = .error error (e.syncBufferUndo (e.shown w))) ∨
        ∃ state, e.buffers[b]? = some state ∧ state.isLoaded = true ∧
          setWindowBuffer w b release e = .ok () (e.switched w b state release)) := by
  have hcurrent := he.window_ne hw
  rw [setWindowBuffer, bind_ok (read_ok (resolveWindowHandle_eq hcurrent)),
    bind_ok (read_ok (resolveBufferHandle_eq (he.buffer_ne hb))), bind_ok (read_ok (requireBuffer_eq hb)),
    bind_ok (read_ok (he.window_eq hw))]
  by_cases hsame : (e.views w).buffer = b
  · rw [if_pos hsame]
    exact .inl ⟨hsame, rfl⟩
  · refine .inr ⟨hsame, ?_⟩
    rw [if_neg hsame, bind_ok (modify_run _ _)]
    have hother : (e.syncBufferUndo (e.views w).buffer).buffers[b]? = e.buffers[b]? :=
      OrderedMap.getElem?_modify.trans (if_neg (Ne.symm hsame))
    rcases onBuffer_attach (e.syncBufferUndo (e.views w).buffer) b with
      ⟨hunloaded, error, hrun⟩ | ⟨state, hstate, hloaded, hrun⟩
    · rw [hother] at hunloaded
      exact .inl ⟨hunloaded, error, bind_error hrun⟩
    · refine .inr ⟨state, hother ▸ hstate, hloaded, ?_⟩
      obtain ⟨t, tabpage, ht, htab, -, hmem, -⟩ := he.tab_of_window hw
      obtain ⟨viewport, hviewport⟩ := fromLayout_window hcurrent hmem
      obtain ⟨e₂, hafter⟩ : ∃ e₂ : Editor, e₂ = { e.syncBufferUndo (e.views w).buffer with
        buffers := (e.syncBufferUndo (e.views w).buffer).buffers.insert b state.attached } := ⟨_, rfl⟩
      rw [← hafter] at hrun
      have ht₂ : e₂.windows[w]? = some t := hafter ▸ ht
      have htab₂ : e₂.tabpages[t]? = some tabpage := hafter ▸ htab
      rw [bind_ok hrun, bind_ok (read_ok (e := e₂) (found_eq ht₂)),
        bind_ok (read_ok (e := e₂) (found_eq htab₂))]
      have hread := read_ok (e := e₂) (q := fun _ => fromLayout (tabpage.window w)) hviewport
      refine (bind_ok (attachedFor_ok ((bind_ok hread).trans (modify_run _ _)))).trans ?_
      rw [modify_run, TabpageState.resolve_eq hcurrent, hafter]
      rfl

/-- Handles that stand for what is current are resolved first. -/
theorem setWindowBuffer_resolve (he : e.Consistent) (window : WinHandle) (buffer : BufHandle)
    (release : BufferRelease) :
    (∃ error, setWindowBuffer window buffer release e = .error error e) ∨
      ∃ w b, e.resolveWindowHandle window = .ok w ∧ e.resolveBufferHandle buffer = .ok b ∧
        w ∈ e.windows ∧ b ∈ e.buffers ∧
        setWindowBuffer window buffer release e = setWindowBuffer w b release e := by
  rw [setWindowBuffer]
  cases hwindow : e.resolveWindowHandle window with
  | error error => exact .inl ⟨error, bind_error (read_error hwindow)⟩
  | ok w =>
    rw [bind_ok (read_ok hwindow)]
    cases hbuffer : e.resolveBufferHandle buffer with
    | error error => exact .inl ⟨error, bind_error (read_error hbuffer)⟩
    | ok b =>
      rw [bind_ok (read_ok hbuffer)]
      cases hrequire : e.requireBuffer b with
      | error error => exact .inl ⟨error, bind_error (read_error hrequire)⟩
      | ok _ =>
        have hb := of_requireBuffer hrequire
        have hcurrent := he.resolveWindowHandle hwindow
        cases hview : e.window w with
        | error error =>
          exact .inl ⟨error, (bind_ok (read_ok hrequire)).trans (bind_error (read_error hview))⟩
        | ok view =>
          refine .inr ⟨w, b, rfl, rfl, (he.of_window hcurrent hview).1, hb, ?_⟩
          symm
          rw [setWindowBuffer,
            bind_ok (read_ok (q := fun self => self.resolveWindowHandle w) (resolveWindowHandle_eq hcurrent)),
            bind_ok (read_ok (resolveBufferHandle_eq (he.buffer_ne hb)))]

theorem Consistent.switched (he : e.Consistent) (hw : w ∈ e.windows) (hne : e.shown w ≠ b)
    (hstate : e.buffers[b]? = some state) (release : BufferRelease) :
    (e.switched w b state release).Consistent ∧ Extends e (e.switched w b state release) := by
  have hlive : ∀ b', b' ∈ (e.switched w b state release).buffers → b' ∈ e.buffers := by
    intro b' hb'
    rcases OrderedMap.mem_insert.mp (OrderedMap.mem_modify.mp hb') with rfl | hb'
    · exact OrderedMap.mem_of_getElem? hstate
    · exact OrderedMap.mem_modify.mp hb'
  obtain ⟨hissued, hextends⟩ := he.handles (t := e.switched w b state release) ⟨rfl, rfl, rfl⟩ hlive
    (fun _ => id) (fun _ => id)
  refine ⟨⟨?_, he.housed, hissued, he.counters, he.windowSpace⟩, hextends⟩
  · have hsync := (he.sync (e.shown w)).consistent
    have hother : (e.syncBufferUndo (e.shown w)).buffers[b]? = some state :=
      (OrderedMap.getElem?_modify.trans (if_neg hne.symm)).trans hstate
    have hswap := hsync.counted.swap (OrderedMap.mem_keySet.mpr hw) hne hother (hsync.room hother)
      (release = .keepLoaded)
    refine hswap.congr (fun _ => rfl) ?_
    intro w' _
    show (Function.update e.views w _ w').buffer = Function.update e.shown w b w'
    by_cases heq : w' = w
    · subst heq
      rw [Function.update_self, Function.update_self]
    · rw [Function.update_of_ne heq, Function.update_of_ne heq, shown]

theorem setWindowBuffer_ends (he : e.Consistent) (window : WinHandle) (buffer : BufHandle)
    (release : BufferRelease) :
    Ends e (fun _ => none) (setWindowBuffer window buffer release e) := by
  rcases setWindowBuffer_resolve he window buffer release with
    ⟨error, hrun⟩ | ⟨w, b, -, -, hw, hb, hrun⟩
  · rw [hrun]
    exact .error (.refl he) error
  rw [hrun]
  rcases setWindowBuffer_live he hw hb release with
    ⟨-, hrun⟩ | ⟨hne, ⟨-, error, hrun⟩ | ⟨state, hstate, -, hrun⟩⟩
  · rw [hrun]
    exact .ok he (.refl e) (by rintro h ⟨⟩)
  · rw [hrun]
    exact .error (he.sync _) error
  · rw [hrun]
    obtain ⟨hconsistent, hextends⟩ := he.switched hw hne hstate release
    exact .ok hconsistent hextends (by rintro h ⟨⟩)

end Display

/-! ## Entering windows and tabpages -/

section Enter

variable {α : Type} {w : WinHandle} {t : TabHandle} {tabpage : TabpageState}

/-- The editor when a window has become current in its tabpage, which is as `tabpage`. -/
def entered (e : Editor) (w : WinHandle) (t : TabHandle) (tabpage : TabpageState) : Editor :=
  { e.leaveFor w with tabpages := e.tabpages.insert t tabpage, currentTab := some t }

theorem leaveFor_eq (e : Editor) (w : WinHandle) :
    ∃ previousWindow, e.leaveFor w = { e with previousWindow } := by
  rw [leaveFor]
  cases e.currentWindow with
  | none => exact ⟨e.previousWindow, rfl⟩
  | some current =>
    dsimp only
    split
    · exact ⟨_, rfl⟩
    · exact ⟨e.previousWindow, rfl⟩

theorem onTabpage_ok {op : EStateM LayoutError TabpageState α} {a : α} {after : TabpageState}
    (htab : e.tabpages[t]? = some tabpage) (hop : op tabpage = .ok a after) :
    onTabpage t op e = .ok a { e with tabpages := e.tabpages.insert t after } := by
  rw [onTabpage, htab]
  dsimp only
  rw [zoom_ok (t := e) (v := fun _ => tabpage) hop]

theorem onTabpage_error {op : EStateM LayoutError TabpageState α} {error : LayoutError}
    {after : TabpageState} (htab : e.tabpages[t]? = some tabpage) (hop : op tabpage = .error error after) :
    onTabpage t op e = .error (.layout error) { e with tabpages := e.tabpages.insert t after } := by
  rw [onTabpage, htab]
  dsimp only
  rw [zoom_error (t := e) (v := fun _ => tabpage) hop]

/-- A live window can always be made current. -/
theorem setCurrentWindow_live (he : e.Consistent) (ht : e.windows[w]? = some t)
    (htab : e.tabpages[t]? = some tabpage) :
    ∃ layout, layout.windows = tabpage.layout.windows ∧
      setCurrentWindow w e = .ok () (e.entered w t (TabpageState.enter { tabpage with layout } w)) ∧
      (TabpageState.enter { tabpage with layout } w).Kept := by
  have hw := OrderedMap.mem_of_getElem? ht
  have hcurrent := he.window_ne hw
  have hkept := he.housed.kept t tabpage htab
  have hmem : w ∈ tabpage.windows := by
    obtain ⟨tabpage', htab', hmem⟩ := (he.housed.windows w t).mp ht
    obtain rfl : tabpage = tabpage' := Option.some.inj (htab.symm.trans htab')
    exact hmem
  have hresolve : tabpage.resolve w = w := TabpageState.resolve_eq hcurrent
  rcases TabpageState.setCurrent_spec hkept w with ⟨hnot, -⟩ | ⟨layout, hwindows, hrun, hafter⟩
  · rw [hresolve] at hnot
    exact absurd hmem hnot
  · rw [hresolve] at hrun hafter
    refine ⟨layout, hwindows, ?_, hafter⟩
    obtain ⟨previousWindow, hleave⟩ := leaveFor_eq e w
    have htab' : (e.leaveFor w).tabpages[t]? = some tabpage := by
      rw [hleave]
      exact htab
    rw [setCurrentWindow, bind_ok (read_ok (resolveWindowHandle_eq hcurrent)),
      bind_ok (read_ok (e := e) (found_eq ht)), bind_ok (modify_run _ _),
      bind_ok (onTabpage_ok htab' hrun), modify_run, entered, hleave]

theorem enter_windows (tabpage : TabpageState) (w : WinHandle) :
    (tabpage.enter w).windows = tabpage.windows := by
  rw [TabpageState.enter]
  split
  · rfl
  · rfl

/-- Entering a window keeps everything but what is current. -/
theorem Consistent.entered (he : e.Consistent) (htab : e.tabpages[t]? = some tabpage)
    {after : TabpageState} (hkept : after.Kept) (hwindows : after.windows = tabpage.windows)
    (w : WinHandle) : Idle e (e.entered w t after) := by
  obtain ⟨previousWindow, hleave⟩ := leaveFor_eq e w
  rw [Editor.entered, hleave]
  have hmem : ∀ t', t' ∈ e.tabpages.insert t after → t' ∈ e.tabpages := by
    intro t' ht'
    rcases OrderedMap.mem_insert.mp ht' with rfl | ht'
    · exact OrderedMap.mem_of_getElem? htab
    · exact ht'
  have hhoused := he.housed.same htab hkept fun w => by rw [hwindows]
  obtain ⟨hissued, hextends⟩ := he.handles ⟨rfl, rfl, rfl⟩ (fun _ => id) (fun _ => id) hmem
    (t := { e with previousWindow, tabpages := e.tabpages.insert t after, currentTab := some t })
  exact ⟨⟨he.counted, hhoused.switch (OrderedMap.mem_insert.mpr (.inl rfl)), hissued, he.counters,
    he.windowSpace⟩, hextends, rfl, fun _ _ => rfl, fun _ => rfl⟩

theorem setCurrentWindow_ends (he : e.Consistent) (window : WinHandle) :
    Ends e (fun _ => none) (setCurrentWindow window e) := by
  cases hresolve : e.resolveWindowHandle window with
  | error error =>
    rw [setCurrentWindow, bind_error (read_error hresolve)]
    exact .error (.refl he) error
  | ok w =>
    have hcurrent := he.resolveWindowHandle hresolve
    have hsame : setCurrentWindow window e = setCurrentWindow w e := by
      rw [setCurrentWindow, setCurrentWindow, bind_ok (read_ok hresolve),
        bind_ok (read_ok (q := fun self => self.resolveWindowHandle w) (resolveWindowHandle_eq hcurrent))]
    rw [hsame]
    cases ht : e.windows[w]? with
    | none =>
      have hfound : found e.windows[w]? (.unknownWindow w) = .error (.unknownWindow w) := by
        rw [ht]
        rfl
      rw [setCurrentWindow, bind_ok (read_ok (resolveWindowHandle_eq hcurrent)),
        bind_error (read_error (e := e) hfound)]
      exact .error (.refl he) _
    | some t =>
      obtain ⟨tabpage, htab, -⟩ := (he.housed.windows w t).mp ht
      obtain ⟨layout, hwindows, hrun, hkept⟩ := setCurrentWindow_live he ht htab
      rw [hrun]
      have hidle := he.entered htab hkept (by
        rw [enter_windows, TabpageState.windows, hwindows]
        rfl) w
      exact .ok hidle.consistent hidle.extends_ (by rintro h ⟨⟩)

theorem setCurrentTabpage_ends (he : e.Consistent) (tab : TabHandle) :
    Ends e (fun _ => none) (setCurrentTabpage tab e) := by
  apply Ends.read (.refl he)
  intro t _
  apply Ends.read (.refl he)
  intro _ hrequire
  have ht : t ∈ e.tabpages := by
    rw [requireTabpage] at hrequire
    split at hrequire
    · assumption
    · cases hrequire
  rw [modify_run]
  obtain ⟨hissued, hextends⟩ := he.handles (t := { e with currentTab := some t }) ⟨rfl, rfl, rfl⟩
    (fun _ => id) (fun _ => id) (fun _ => id)
  exact .ok ⟨he.counted, he.housed.switch ht, hissued, he.counters, he.windowSpace⟩ hextends
    (by rintro h ⟨⟩)

end Enter

/-! ## Opening windows -/

section Open

variable {w : WinHandle} {b : BufHandle} {tab : TabHandle} {state : BufferState}

/-- A window is opened with a handle that was just handed out, and its buffer was attached. -/
theorem Idle.opened (hidle : Idle e e₁) (hnew : (Handle.window w).Issued e₁)
    (hfresh : (Handle.window w).Fresh e) (hw : w ∉ e₁.windows) (hstate : e₁.buffers[b]? = some state)
    {t : Editor} (hbuffers : t.buffers = e₁.buffers.insert b state.attached)
    (hwindows : t.windows = e₁.windows.insert w tab)
    (hshown : ∀ w', w' = w ∨ w' ∈ e₁.windows → t.shown w' = Function.update e₁.shown w b w')
    (hhoused : Housed t.windows t.tabpages t.tabOrder t.currentTab)
    (htabs : ∀ tab', tab' ∈ t.tabpages → tab' ∈ e₁.tabpages ∨
      (Handle.tabpage tab').Issued e₁ ∧ (Handle.tabpage tab').Fresh e)
    (hcounters : t.nextBuffer = e₁.nextBuffer ∧ t.nextWindow = e₁.nextWindow ∧
      t.nextTabpage = e₁.nextTabpage) :
    t.Consistent ∧ Extends e t := by
  have he₁ := hidle.consistent
  have hb : ∀ b', b' ∈ t.buffers → b' ∈ e₁.buffers := by
    intro b' hb'
    rw [hbuffers] at hb'
    rcases OrderedMap.mem_insert.mp hb' with rfl | hb'
    · exact OrderedMap.mem_of_getElem? hstate
    · exact hb'
  have hcame : ∀ h : Handle, h.Live t → h.Live e₁ ∨ h.Issued e₁ ∧ h.Fresh e := by
    intro h hlive
    cases h with
    | buffer b' => exact .inl (hb b' hlive)
    | window w' =>
      rw [Handle.Live, hwindows] at hlive
      rcases OrderedMap.mem_insert.mp hlive with rfl | hlive
      · exact .inr ⟨hnew, hfresh⟩
      · exact .inl hlive
    | tabpage tab' => exact htabs tab' hlive
  have hissued : ∀ h : Handle, h.Issued t ↔ h.Issued e₁ := by
    intro h
    cases h with
    | buffer b => rw [Handle.Issued, Handle.Issued, hcounters.1]
    | window w => rw [Handle.Issued, Handle.Issued, hcounters.2.1]
    | tabpage tab => rw [Handle.Issued, Handle.Issued, hcounters.2.2]
  have hlater : ∀ h : Handle, h.Fresh t → h.Fresh e₁ := by
    intro h
    cases h with
    | buffer b => exact hcounters.1.ge.trans
    | window w => exact hcounters.2.1.ge.trans
    | tabpage tab => exact hcounters.2.2.ge.trans
  refine ⟨⟨?_, hhoused, ?_, ?_, hcounters.2.1 ▸ he₁.windowSpace⟩, ?_⟩
  · have hopen := he₁.counted.open_ (mt OrderedMap.mem_keySet.mp hw) hstate (he₁.room hstate)
    rw [← OrderedMap.keySet_insert (v := tab), ← hwindows, ← hbuffers] at hopen
    refine hopen.congr (fun _ => rfl) ?_
    intro w' hw'
    apply hshown
    rw [hwindows, OrderedMap.mem_keySet, OrderedMap.mem_insert] at hw'
    exact hw'
  · intro h hlive
    rw [hissued]
    rcases hcame h hlive with hlive | ⟨hissued, -⟩
    · exact he₁.issued h hlive
    · exact hissued
  · rw [hcounters.1, hcounters.2.1, hcounters.2.2]
    exact he₁.counters
  · intro h
    refine ⟨?_, fun hh => (hidle.extends_ h).2 (hlater h hh)⟩
    intro hlive
    rcases hcame h hlive with hlive | ⟨-, hfresh⟩
    · exact (hidle.extends_ h).1 hlive
    · exact .inr hfresh

theorem update_shown {views : WinHandle → WindowView} {view : WindowView} (w' : WinHandle) :
    (Function.update views w view w').buffer
      = Function.update (fun w => (views w).buffer) w view.buffer w' := by
  by_cases heq : w' = w
  · rw [heq, Function.update_self, Function.update_self]
  · rw [Function.update_of_ne heq, Function.update_of_ne heq]

theorem Consistent.not_live (he : e.Consistent) {h : Handle} (hfresh : h.Fresh e) : ¬h.Live e :=
  fun hlive => (he.issued h hlive).not_fresh hfresh

theorem insertTabpage_ends (he : e.Consistent) (buffer : BufHandle) (geometry : Geometry) (index : Nat) :
    Ends e (fun t => some (.tabpage t)) (insertTabpage buffer geometry index e) := by
  apply Ends.read (.refl he)
  intro b _
  apply Ends.read (.refl he)
  intro _ _
  apply Ends.allocateWindowHandle (.refl he)
  intro hwindow _
  apply Ends.allocateTabHandle hwindow
  intro htab
  apply Ends.read htab
  intro layout hlayout
  apply Ends.attach htab
  intro state hstate _
  have hnew : Layout.new e.nextWindow (WindowView.new b ⟨1, 0⟩).toWindowState geometry = .ok layout := by
    cases hresult : Layout.new e.nextWindow (WindowView.new b ⟨1, 0⟩).toWindowState geometry with
    | error error =>
      rw [hresult] at hlayout
      cases hlayout
    | ok layout' =>
      rw [hresult] at hlayout
      cases hlayout
      rfl
  have hkept := TabpageState.new_kept (Layout.new_sound hnew)
  have hwindows : (TabpageState.new layout).windows = [e.nextWindow] := by
    obtain ⟨-, -, rfl⟩ := Layout.new_eq hnew
    rfl
  have hw : e.nextWindow ∉ e.windows := he.not_live (h := .window _) le_rfl
  have ht : e.nextTabpage ∉ e.tabpages := he.not_live (h := .tabpage _) le_rfl
  have hhoused := he.housed.addTab ht hkept hwindows hw (min_le_right index e.tabOrder.length)
  rw [bind_ok (modify_run _ _), pure_run]
  obtain ⟨hconsistent, hextends⟩ := htab.opened (w := e.nextWindow) 
    (t := { e with
      buffers := e.buffers.insert b state.attached
      windows := e.windows.insert e.nextWindow e.nextTabpage
      views := Function.update e.views e.nextWindow (WindowView.new b ⟨1, 0⟩)
      tabpages := e.tabpages.insert e.nextTabpage (.new layout)
      tabOrder := e.tabOrder.insertIdx (min index e.tabOrder.length) e.nextTabpage
      currentTab := some e.nextTabpage
      nextWindow := e.nextWindow + 1
      nextTabpage := e.nextTabpage + 1 })
    ⟨he.counters.2.1, Nat.lt_succ_self _⟩ le_rfl hw hstate rfl rfl (fun w' _ => update_shown w')
    hhoused
    (fun tab' htab' => by
      rcases OrderedMap.mem_insert.mp htab' with rfl | htab'
      · exact .inr ⟨⟨he.counters.2.2, Nat.lt_succ_self _⟩, le_rfl⟩
      · exact .inl htab')
    ⟨rfl, rfl, rfl⟩
  refine .ok hconsistent hextends ?_
  rintro h ⟨⟩
  exact ⟨OrderedMap.mem_insert.mpr (.inl rfl), le_rfl⟩

/-- The state of a handle that no window has does not show. -/
theorem Consistent.unseenView (he : e.Consistent) (hw : w ∉ e.windows) (view : WindowView) :
    Idle e { e with views := Function.update e.views w view } := by
  have hshown : ∀ w' ∈ e.windows, (Function.update e.views w view w').buffer = e.shown w' := by
    intro w' hw'
    rw [Function.update_of_ne (ne_of_mem_of_not_mem hw' hw), shown]
  obtain ⟨hissued, hextends⟩ := he.handles (t := { e with views := Function.update e.views w view })
    ⟨rfl, rfl, rfl⟩ (fun _ => id) (fun _ => id) (fun _ => id)
  exact ⟨⟨he.counted.congr (fun _ => rfl) fun w' hw' => hshown w' (OrderedMap.mem_keySet.mp hw'),
    he.housed, hissued, he.counters, he.windowSpace⟩, hextends, rfl, hshown, fun _ => rfl⟩

/-- A buffer was attached for a window that was not opened, and is detached again. -/
theorem Consistent.reattached (he : e.Consistent) (hstate : e.buffers[b]? = some state)
    (hloaded : state.isLoaded = true) (hw : w ∉ e.windows) (view : WindowView) :
    Idle e { e with
      buffers := (e.buffers.insert b state.attached).modify b (·.detach true)
      views := Function.update e.views w view } := by
  have hview := he.unseenView hw view
  exact hview.trans (hview.consistent.rebook (Counted.books_reattached hstate hloaded (he.room hstate)))

theorem of_requireTabpage {t : TabHandle} (h : e.requireTabpage t = .ok ()) :
    ∃ tabpage, e.tabpages[t]? = some tabpage := by
  rw [requireTabpage] at h
  split at h
  · next hmem => exact OrderedMap.mem_iff.mp hmem
  · cases h

theorem openFloat_ends (he : e.Consistent)
    (cursorScreenPosition : WinHandle → Except EditorError CursorScreenPosition) (tab : TabHandle)
    (buffer : BufHandle) (config : WinConfig) :
    Ends e (fun w => some (.window w)) (openFloat cursorScreenPosition tab buffer config e) := by
  apply Ends.read (.refl he)
  intro t _
  apply Ends.read (.refl he)
  intro b _
  apply Ends.read (.refl he)
  intro _ _
  apply Ends.read (.refl he)
  intro _ hrequire
  obtain ⟨tabpage, htab⟩ := of_requireTabpage hrequire
  apply Ends.allocateWindowHandle (.refl he)
  intro hidle _
  apply Ends.read hidle
  intro cursor _
  apply Ends.attach hidle
  intro state hstate hloaded
  have hw : e.nextWindow ∉ e.windows := he.not_live (h := .window _) le_rfl
  obtain ⟨e₂, he₂⟩ : ∃ e₂ : Editor, e₂ = { e with
      buffers := e.buffers.insert b state.attached
      views := Function.update e.views e.nextWindow (WindowView.new b ⟨1, 0⟩)
      nextWindow := e.nextWindow + 1 } := ⟨_, rfl⟩
  have htab₂ : e₂.tabpages[t]? = some tabpage := he₂ ▸ htab
  refine Ends.known (b := tabpage) (found_eq htab) ?_
  rw [bind_ok (modify_run _ _)]
  show Ends e _ ((_ : EStateM EditorError Editor WinHandle) { e with
      buffers := e.buffers.insert b state.attached
      views := Function.update e.views e.nextWindow (WindowView.new b ⟨1, 0⟩)
      nextWindow := e.nextWindow + 1 })
  rw [← he₂]
  have hkept := he.housed.kept t tabpage htab
  rcases TabpageState.addFloat_spec hkept e.nextWindow (WindowView.new b ⟨1, 0⟩).toWindowState config
    cursor with ⟨error, hrun⟩ | ⟨after, hrun, hafter, hperm⟩
  · rw [bind_error (attachedFor_error (onTabpage_error htab₂ hrun)), OrderedMap.insert_eq_self htab₂, he₂]
    exact .error (hidle.trans (hidle.consistent.reattached hstate hloaded hw _)) _
  · rw [bind_ok (attachedFor_ok (onTabpage_ok htab₂ hrun)), bind_ok (modify_run _ _), pure_run, he₂]
    have hhoused := he.housed.add htab hafter hperm hw
    obtain ⟨hconsistent, hextends⟩ := hidle.opened (w := e.nextWindow)
      (t := { e with
        buffers := e.buffers.insert b state.attached
        windows := e.windows.insert e.nextWindow t
        views := Function.update e.views e.nextWindow (WindowView.new b ⟨1, 0⟩)
        tabpages := e.tabpages.insert t after
        nextWindow := e.nextWindow + 1 })
      ⟨he.counters.2.1, Nat.lt_succ_self _⟩ le_rfl hw hstate rfl rfl (fun w' _ => update_shown w')
      hhoused
      (fun tab' htab' => by
        rcases OrderedMap.mem_insert.mp htab' with rfl | htab'
        · exact .inl (OrderedMap.mem_of_getElem? htab)
        · exact .inl htab')
      ⟨rfl, rfl, rfl⟩
    refine .ok hconsistent hextends ?_
    rintro h ⟨⟩
    exact ⟨OrderedMap.mem_insert.mpr (.inl rfl), le_rfl⟩

end Open

end Editor

end Oxvim.Editor
