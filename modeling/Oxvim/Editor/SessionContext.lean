import Oxvim.Editor.SessionRuns

/-!
# Running a closure in another context

`with_buffer_context` and `with_window_context` run a closure with another window current, and put back
what they changed. A buffer that no window displays is displayed in the window of the caller meanwhile.

The trace of a switch is what is current, the previous window of every tabpage, and the state of every
window: `SameTrace`. `Traceless` says when the two leave none.
-/

set_option linter.dupNamespace false

namespace Oxvim.Editor

open Lib EState Text
open Std (ExtTreeMap)

namespace Editor

variable {ε α : Type}

/-! ## The two functions -/

/-- Runs an operation and tells whether it succeeded. -/
def attempt (op : EStateM EditorError Editor α) : EStateM EditorError Editor Bool := fun self =>
  match op self with
  | .ok _ self => .ok true self
  | .error _ self => .ok false self

/-- Runs a closure, whose failure is a result. -/
def closure (f : EStateM ε Editor α) : EStateM EditorError Editor (Except ε α) := fun self =>
  match f self with
  | .ok a self => .ok (.ok a) self
  | .error error self => .ok (.error error) self

/-- Displays a buffer in the current window; an unloaded one gets empty text. -/
def enterBufferContext (buffer : BufHandle) : EStateM EditorError Editor Unit := do
  let state ← read (·.buffer buffer)
  if !state.isLoaded then
    let resolved ← read (·.resolveBufferHandle buffer)
    modify (·.modifyBuffer resolved (·.load .new))
  setCurrentBuffer buffer .keepLoaded

/-- The first window that displays a buffer. -/
def firstShowing (self : Editor) (target : BufHandle) : Option WinHandle :=
  self.windows.keys.find? fun window => (self.window window).toOption.any (·.buffer = target)

/-- Enters the context of a buffer: a window that displays it, or the window of the caller. Returns the
window that was taken over and the buffer it has to display in the end. -/
def enterFor (caller : WinHandle) (callerBuffer : Option BufHandle) (target : BufHandle) :
    EStateM EditorError Editor (Option (WinHandle × BufHandle)) := do
  if callerBuffer = some target then return none
  else
    match (← get).firstShowing target with
    | some window =>
      if window = caller then return none
      else
        let switched ← attempt (setCurrentWindow window)
        return if switched then some (window, target) else none
    | none =>
      let original := callerBuffer.getD target
      let switched ← attempt (enterBufferContext target)
      return if switched then some (caller, original) else none

/-- Puts the buffer of the window back that was taken over. -/
def restoreBuffer (entered : Option (WinHandle × BufHandle)) : EStateM EditorError Editor Unit := do
  match entered with
  | none => return
  | some (window, expected) =>
    let self ← get
    if (self.window window).toOption.any (·.buffer ≠ expected) && (self.buffer expected).isOk then
      let _ ← attempt (setWindowBuffer window expected .keepLoaded)

/-- Makes the window of the caller current again. -/
def restoreWindow (caller : WinHandle) (previousBefore : Option WinHandle) :
    EStateM EditorError Editor Unit := do
  let self ← get
  let priorPrevious := self.previousWindow
  if self.currentWindow ≠ some caller ∧ (self.window caller).isOk then
    let _ ← attempt (setCurrentWindow caller)
  if priorPrevious = some caller then
    modify fun self => { self with previousWindow := previousBefore }

/-- Runs `f` in the display context of `buffer`. -/
def withBufferContext (buffer : BufHandle) (f : EStateM ε Editor α) :
    EStateM EditorError Editor (Except ε α) := do
  let target ← read (·.resolveBufferHandle buffer)
  let caller ← read fun self => found self.currentWindow .noCurrentTabpage
  let self ← get
  let callerBuffer := (self.window caller).toOption.map (·.buffer)
  let entered ← enterFor caller callerBuffer target
  let result ← closure f
  restoreBuffer entered
  restoreWindow caller self.previousWindow
  return result

/-- Runs `f` with `window` current. -/
def withWindowContext (window : WinHandle) (f : EStateM ε Editor α) :
    EStateM EditorError Editor (Except ε α) := do
  let target ← read (·.resolveWindowHandle window)
  let caller ← read fun self => found self.currentWindow .noCurrentTabpage
  let self ← get
  if target ≠ caller then
    let _ ← attempt (setCurrentWindow target)
  let result ← closure f
  restoreWindow caller self.previousWindow
  return result

/-! ## The trace -/

/-- The same windows and tabpages are current, and the tabpages and windows there were before have the
same previous window and the same state. -/
structure SameTrace (e t : Editor) : Prop where
  currentWindow : t.currentWindow = e.currentWindow
  currentTab : t.currentTab = e.currentTab
  previous : ∀ (tab : TabHandle) (tabpage : TabpageState), e.tabpages[tab]? = some tabpage →
    (t.tabpages[tab]?).map (·.previous) = some tabpage.previous
  views : ∀ w ∈ e.windows, t.views w = e.views w

/-- What a closure has to leave as it finds it: the buffer of every window, and what is current. -/
structure Undisturbed (e t : Editor) : Prop where
  consistent : t.Consistent
  windows : ∀ w ∈ e.windows, t.windows[w]? = e.windows[w]?
  shown : ∀ w ∈ e.windows, t.shown w = e.shown w
  currentWindow : t.currentWindow = e.currentWindow
  currentTab : t.currentTab = e.currentTab

/-- A closure that leaves no trace of its own, and no buffer unloaded. -/
structure Silent (f : EStateM ε Editor α) : Prop where
  trace : ∀ e : Editor, e.Consistent → SameTrace e (final (f e))
  current : ∀ e : Editor, e.Consistent → ∀ (tab : TabHandle) (tabpage : TabpageState),
    e.tabpages[tab]? = some tabpage →
      ((final (f e)).tabpages[tab]?).map (·.current) = some tabpage.current
  loaded : ∀ e : Editor, e.Consistent → ∀ (b : BufHandle) (state : BufferState),
    e.buffers[b]? = some state → state.isLoaded = true →
      ((final (f e)).buffers[b]?).map (·.isLoaded) = some true

/-- Where a closure runs. -/
inductive Context where
  /-- where the caller is -/
  | caller
  /-- in another window -/
  | window (window : WinHandle)
  /-- in the window of the caller, which displays another buffer meanwhile -/
  | hidden (target : BufHandle)

/-- Where `with_buffer_context` runs the closure. -/
def bufferContext (e : Editor) (caller : WinHandle) (target : BufHandle) : Context :=
  if e.shown caller = target then .caller
  else match e.firstShowing target with
    | some window => .window window
    | none => if target ∈ e.buffers then .hidden target else .caller

/-- Where `with_window_context` runs the closure. -/
def windowContext (e : Editor) (caller target : WinHandle) : Context :=
  if target ≠ caller ∧ target ∈ e.windows then .window target else .caller

/-- The editor that the closure is started in. -/
def Context.start (e : Editor) : Context → Editor
  | caller => e
  | window w => final (setCurrentWindow w e)
  | hidden b => final (enterBufferContext b e)

/-- What the closure has to leave for the switch to leave no trace, `t` being the editor that it leaves
behind. -/
def Context.Leaves (e t : Editor) (caller : WinHandle) : Context → Prop
  | .caller => SameTrace e t
  | window w =>
    (∀ v ∈ e.windows, t.views v = e.views v) ∧
    ∀ (tab : TabHandle) (tabpage : TabpageState), e.tabpages[tab]? = some tabpage →
      if e.windows[caller]? = some tab then
        -- the window that is current in this tabpage becomes its previous one
        if e.windows[w]? = some tab then tabpage.previous = some w
        else (t.tabpages[tab]?).map (fun left => (left.enter caller).previous) = some tabpage.previous
      else (t.tabpages[tab]?).map (·.previous) = some tabpage.previous
  | hidden target =>
    -- switching twice makes the target the alternate buffer, and ends a location list display
    (e.views caller).alternateBuffer = some target ∧ (e.views caller).loclistRef = none ∧
    (t.buffers[e.shown caller]?).map (·.isLoaded) = some true ∧
    (t.views caller).cursor = (e.views caller).cursor ∧
    (t.views caller).topline = (e.views caller).topline ∧
    (∀ v ∈ e.windows, v ≠ caller → t.views v = e.views v) ∧
    ∀ (tab : TabHandle) (tabpage : TabpageState), e.tabpages[tab]? = some tabpage →
      (t.tabpages[tab]?).map (·.previous) = some tabpage.previous

/-- The two functions, with what they switch to. -/
inductive Switch where
  | toBuffer (buffer : BufHandle)
  | toWindow (window : WinHandle)

/-- The window of the caller, and where the closure runs. -/
def Switch.context (e : Editor) : Switch → Except EditorError (WinHandle × Context)
  | toBuffer buffer => do
    let target ← e.resolveBufferHandle buffer
    let caller ← found e.currentWindow .noCurrentTabpage
    return (caller, e.bufferContext caller target)
  | toWindow window => do
    let target ← e.resolveWindowHandle window
    let caller ← found e.currentWindow .noCurrentTabpage
    return (caller, e.windowContext caller target)

/-- Runs a closure after a switch. -/
def Switch.run (f : EStateM ε Editor α) : Switch → EStateM EditorError Editor (Except ε α)
  | toBuffer buffer => withBufferContext buffer f
  | toWindow window => withWindowContext window f

/-- The switch itself leaves no trace. -/
def Context.Clean (e : Editor) (caller : WinHandle) : Context → Prop
  | .caller => True
  | window w => ∀ (tab : TabHandle) (tabpage : TabpageState), e.windows[w]? = some tab →
      e.tabpages[tab]? = some tabpage →
        if e.windows[caller]? = some tab then tabpage.previous = some w
        else (tabpage.enter w).previous = tabpage.previous
  | hidden target =>
    (e.views caller).alternateBuffer = some target ∧ (e.views caller).loclistRef = none

/-! ## Steps of the two functions -/

variable {e t : Editor} {w caller : WinHandle} {b target original : BufHandle} {tab : TabHandle}
  {tabpage : TabpageState}

theorem attempt_ok {op : EStateM EditorError Editor α} {a : α} (h : op e = .ok a t) :
    attempt op e = .ok true t := by
  rw [attempt, h]

theorem attempt_error {op : EStateM EditorError Editor α} {error : EditorError} (h : op e = .error error t) :
    attempt op e = .ok false t := by
  rw [attempt, h]

theorem closure_run (f : EStateM ε Editor α) (e : Editor) :
    ∃ result, closure f e = .ok result (final (f e)) := by
  rw [closure]
  cases f e with
  | ok a s => exact ⟨.ok a, rfl⟩
  | error error s => exact ⟨.error error, rfl⟩

/-- Testing the state of a live window. -/
theorem Consistent.window_any (he : e.Consistent) (hw : w ∈ e.windows) (test : WindowView → Bool) :
    (e.window w).toOption.any test = test (e.views w) := by
  rw [he.window_eq hw]
  rfl

theorem Consistent.firstShowing_some (he : e.Consistent) (h : e.firstShowing target = some w) :
    w ∈ e.windows ∧ e.shown w = target := by
  have hw : w ∈ e.windows := ExtTreeMap.mem_keys.mp (List.mem_of_find?_eq_some h)
  have htest := List.find?_some h
  rw [he.window_any hw] at htest
  exact ⟨hw, of_decide_eq_true htest⟩

theorem Consistent.firstShowing_none (he : e.Consistent) (h : e.firstShowing target = none)
    (hw : w ∈ e.windows) : e.shown w ≠ target := by
  have htest := List.find?_eq_none.mp h w (ExtTreeMap.mem_keys.mpr hw)
  rw [he.window_any hw] at htest
  exact fun heq => htest (decide_eq_true heq)

/-- The tabpage of the current window is the current one. -/
theorem Consistent.currentTab_of_window (he : e.Consistent) (hc : e.currentWindow = some caller) :
    ∃ tab tabpage, e.currentTab = some tab ∧ e.tabpages[tab]? = some tabpage ∧
      tabpage.current = caller ∧ e.windows[caller]? = some tab := by
  obtain ⟨tab, tabpage, htab, htabpage, hcurrent, -⟩ := he.currentWindow hc
  refine ⟨tab, tabpage, htab, htabpage, hcurrent, ?_⟩
  exact (he.housed.windows caller tab).mpr
    ⟨tabpage, htabpage, hcurrent ▸ (he.housed.kept tab tabpage htabpage).current⟩

/-! ## Entering another window -/

/-- Entering a live window: the tabpage it is in, and what becomes of it. -/
theorem setCurrentWindow_run (he : e.Consistent) (hw : w ∈ e.windows) :
    ∃ tab tabpage layout, e.windows[w]? = some tab ∧ e.tabpages[tab]? = some tabpage ∧
      setCurrentWindow w e = .ok () (e.entered w tab (TabpageState.enter { tabpage with layout } w)) ∧
      (e.entered w tab (TabpageState.enter { tabpage with layout } w)).Consistent := by
  obtain ⟨tab, tabpage, htab, htabpage, -, -, -⟩ := he.tab_of_window hw
  obtain ⟨layout, hlayout, hrun, hkept⟩ := setCurrentWindow_live he htab htabpage
  refine ⟨tab, tabpage, layout, htab, htabpage, hrun, (he.entered htabpage hkept ?_ w).consistent⟩
  rw [enter_windows, TabpageState.windows, hlayout]
  rfl

theorem enter_current (tabpage : TabpageState) (w : WinHandle) : (tabpage.enter w).current = w := by
  rw [TabpageState.enter]
  split
  · rfl
  · next h => exact not_not.mp h

theorem enter_previous (tabpage : TabpageState) (layout : Layout) (w : WinHandle) :
    (TabpageState.enter { tabpage with layout } w).previous = (tabpage.enter w).previous := by
  rw [TabpageState.enter, TabpageState.enter]
  split
  · rfl
  · rfl

section Entered

variable (e w tab) (after : TabpageState)

theorem entered_windows : (e.entered w tab after).windows = e.windows := by
  obtain ⟨previousWindow, h⟩ := leaveFor_eq e w
  rw [entered, h]

theorem entered_views : (e.entered w tab after).views = e.views := by
  obtain ⟨previousWindow, h⟩ := leaveFor_eq e w
  rw [entered, h]

theorem entered_tabpages : (e.entered w tab after).tabpages = e.tabpages.insert tab after := rfl

theorem entered_currentTab : (e.entered w tab after).currentTab = some tab := rfl

theorem entered_currentWindow : (e.entered w tab after).currentWindow = some after.current := by
  rw [currentWindow, entered_currentTab, entered_tabpages]
  show ((e.tabpages.insert tab after)[tab]? >>= _) = _
  rw [OrderedMap.getElem?_insert, if_pos rfl]
  rfl

end Entered

/-- What the window of the caller is put back by. -/
theorem restoreWindow_run (ht : t.Consistent) (hcaller : caller ∈ t.windows)
    (previousBefore : Option WinHandle) :
    ∃ previousWindow, final (restoreWindow caller previousBefore t) =
      { (if t.currentWindow = some caller then t else final (setCurrentWindow caller t)) with
        previousWindow } := by
  have hok : (t.window caller).isOk = true := by
    rw [ht.window_eq hcaller]
    rfl
  obtain ⟨tab, tabpage, layout, -, -, hrun, -⟩ := setCurrentWindow_run ht hcaller
  rw [restoreWindow, bind_ok (get_run t)]
  by_cases hsame : t.currentWindow = some caller
  · rw [if_neg (fun h => h.1 hsame), if_pos hsame]
    split
    · exact ⟨previousBefore, rfl⟩
    · exact ⟨t.previousWindow, rfl⟩
  · rw [if_pos ⟨hsame, hok⟩, if_neg hsame, bind_ok (attempt_ok hrun), hrun, final_ok]
    split
    · exact ⟨previousBefore, rfl⟩
    · exact ⟨_, rfl⟩

/-- The previous window of the whole editor is no part of the trace. -/
theorem sameTrace_previousWindow (previousWindow : Option WinHandle) :
    SameTrace e { t with previousWindow } ↔ SameTrace e t := by
  constructor
  · intro h
    exact ⟨h.currentWindow, h.currentTab, h.previous, h.views⟩
  · intro h
    exact ⟨h.currentWindow, h.currentTab, h.previous, h.views⟩

theorem sameTrace_caller (he : e.Consistent) (hc : e.currentWindow = some caller)
    (hu : Undisturbed e t) (previousBefore : Option WinHandle) :
    SameTrace e (final (restoreWindow caller previousBefore t)) ↔
      Context.caller.Leaves e t caller := by
  obtain ⟨-, -, -, -, -, hlive⟩ := he.currentWindow hc
  have hcaller : caller ∈ t.windows := by
    rw [OrderedMap.mem_iff, hu.windows caller hlive]
    exact OrderedMap.mem_iff.mp hlive
  obtain ⟨previousWindow, hrun⟩ := restoreWindow_run hu.consistent hcaller previousBefore
  rw [hrun, if_pos (hu.currentWindow.trans hc)]
  exact sameTrace_previousWindow previousWindow

theorem sameTrace_window (he : e.Consistent) (hc : e.currentWindow = some caller) (hw : w ∈ e.windows)
    (hne : w ≠ caller) (hu : Undisturbed ((Context.window w).start e) t)
    (previousBefore : Option WinHandle) :
    SameTrace e (final (restoreWindow caller previousBefore t)) ↔
      (Context.window w).Leaves e t caller := by
  obtain ⟨tw, pageOfW, layout, htw, htwpage, hrun, -⟩ := setCurrentWindow_run he hw
  obtain ⟨tc, pageOfCaller, hcurrentTab, htcpage, hcurrent, htc⟩ := he.currentTab_of_window hc
  rw [Context.start, hrun, final_ok] at hu
  have hlive := OrderedMap.mem_of_getElem? htc
  have htc' : t.windows[caller]? = some tc := by
    rw [hu.windows caller (by rw [entered_windows]; exact hlive), entered_windows, htc]
  have hcurrentW : t.currentWindow = some w := by
    rw [hu.currentWindow, entered_currentWindow, enter_current]
  obtain ⟨previousWindow, hrestore⟩ := restoreWindow_run hu.consistent
    (OrderedMap.mem_of_getElem? htc') previousBefore
  obtain ⟨tc₂, left, layout', htc₂, hleft, hback, -⟩ :=
    setCurrentWindow_run hu.consistent (OrderedMap.mem_of_getElem? htc')
  obtain rfl : tc = tc₂ := Option.some.inj (htc'.symm.trans htc₂)
  have hother : ¬t.currentWindow = some caller := by
    rw [hcurrentW]
    exact fun h => hne (Option.some.inj h)
  rw [hrestore, if_neg hother, hback, final_ok, sameTrace_previousWindow]
  -- in the tabpage of the caller, a window of the same tabpage was current until now
  have hsame : e.windows[w]? = some tc → (left.enter caller).previous = some w := by
    intro hwc
    obtain rfl : tw = tc := Option.some.inj (htw.symm.trans hwc)
    obtain ⟨t₃, page₃, ht₃, hpage₃, hcurrent₃, -⟩ := hu.consistent.currentTab_of_window hcurrentW
    have htab₃ : t₃ = tw := by
      rw [hu.currentTab, entered_currentTab] at ht₃
      exact (Option.some.inj ht₃).symm
    rw [htab₃, hleft] at hpage₃
    obtain rfl := Option.some.inj hpage₃
    rw [TabpageState.enter, hcurrent₃, if_pos hne]
  constructor
  · intro h
    refine ⟨?_, ?_⟩
    · intro v hv
      have hview := h.views v hv
      rw [entered_views] at hview
      exact hview
    · intro tab tabpage htabpage
      have hprevious := h.previous tab tabpage htabpage
      rw [entered_tabpages, OrderedMap.getElem?_insert] at hprevious
      by_cases htab : tab = tc
      · subst htab
        rw [if_pos rfl, Option.map_some, enter_previous] at hprevious
        rw [if_pos htc]
        split
        · next hwc =>
          rw [hsame hwc] at hprevious
          exact (Option.some.inj hprevious).symm
        · rw [hleft]
          exact hprevious
      · rw [if_neg htab] at hprevious
        rw [htc, if_neg (fun heq => htab (Option.some.inj heq).symm)]
        exact hprevious
  · rintro ⟨hviews, htabs⟩
    refine ⟨?_, ?_, ?_, ?_⟩
    · rw [entered_currentWindow, enter_current, hc]
    · rw [entered_currentTab, hcurrentTab]
    · intro tab tabpage htabpage
      have hprevious := htabs tab tabpage htabpage
      rw [entered_tabpages, OrderedMap.getElem?_insert]
      by_cases htab : tab = tc
      · subst htab
        rw [if_pos htc] at hprevious
        rw [if_pos rfl, Option.map_some, enter_previous]
        split at hprevious
        · next hwc => rw [hsame hwc, hprevious]
        · rw [hleft] at hprevious
          exact hprevious
      · rw [htc, if_neg (fun heq => htab (Option.some.inj heq).symm)] at hprevious
        rw [if_neg htab]
        exact hprevious
    · intro v hv
      rw [entered_views]
      exact hviews v hv

/-! ## Displaying a hidden buffer -/

/-- A buffer that nobody displays is loaded when it was not. -/
theorem Consistent.load (he : e.Consistent) {state : BufferState} (hstate : e.buffers[b]? = some state)
    (hunseen : ∀ w ∈ e.windows, e.shown w ≠ b) (text : Buffer) :
    (e.modifyBuffer b (·.load text)).Consistent := by
  have hcount := he.counted.attached _ _ _ (Counted.books_eq hstate)
  have hnone : ∀ w ∈ e.liveWindows, e.shown w ≠ b := fun w hw => hunseen w (OrderedMap.mem_keySet.mp hw)
  rw [holders_eq_zero.mpr hnone] at hcount
  refine (he.unused (m := e.buffers.modify b (·.load text)) hstate hcount ?_ ?_).1
  · intro b' hb'
    rw [Counted.books_modify, if_neg hb']
  · intro count loaded hbook
    rw [Counted.books_modify, if_pos rfl, hstate] at hbook
    have hfst : (state.load text).attachments = count := congrArg Prod.fst (Option.some.inj hbook)
    rw [← hfst, BufferState.load_attachments]
    exact hcount

theorem Consistent.buffer_eq (he : e.Consistent) {state : BufferState}
    (hstate : e.buffers[b]? = some state) : e.buffer b = .ok state := by
  have hne := he.buffer_ne (OrderedMap.mem_of_getElem? hstate)
  rw [Editor.buffer, resolveBufferHandle_eq hne]
  exact found_eq hstate

/-- The current window displays a loaded buffer that it does not display already. -/
theorem setCurrentBuffer_run (he : e.Consistent) (hc : e.currentWindow = some caller)
    {state : BufferState} (hstate : e.buffers[target]? = some state) (hloaded : state.isLoaded = true)
    (hne : e.shown caller ≠ target) (release : BufferRelease) :
    setCurrentBuffer target release e = .ok () (e.switched caller target state release) := by
  have hb := OrderedMap.mem_of_getElem? hstate
  obtain ⟨-, -, -, -, -, hlive⟩ := he.currentWindow hc
  rw [setCurrentBuffer, bind_ok (read_ok (resolveBufferHandle_eq (he.buffer_ne hb))),
    bind_ok (read_ok (e := e) (found_eq hc))]
  rcases setWindowBuffer_live he hlive hb release with
    ⟨hsame, -⟩ | ⟨-, ⟨hunloaded, -⟩ | ⟨state', hstate', -, hrun⟩⟩
  · exact absurd hsame hne
  · rw [hunloaded state hstate] at hloaded
    cases hloaded
  · obtain rfl := Option.some.inj (hstate.symm.trans hstate')
    exact hrun

/-- A live buffer that nobody displays can always be displayed. -/
theorem enterBufferContext_run (he : e.Consistent) (hc : e.currentWindow = some caller)
    (hb : target ∈ e.buffers) (hunseen : ∀ w ∈ e.windows, e.shown w ≠ target) :
    ∃ buffers : ExtTreeMap BufHandle BufferState compare, ∃ state, enterBufferContext target e
        = .ok () ({ e with buffers }.switched caller target state .keepLoaded) ∧
      ({ e with buffers }.switched caller target state .keepLoaded).Consistent ∧
      ∀ b ≠ target, buffers[b]? = e.buffers[b]? := by
  obtain ⟨state, hstate⟩ := OrderedMap.mem_iff.mp hb
  obtain ⟨-, -, -, -, -, hlive⟩ := he.currentWindow hc
  have hne := hunseen caller hlive
  rw [enterBufferContext, bind_ok (read_ok (he.buffer_eq hstate))]
  cases hloaded : state.isLoaded with
  | true =>
    refine ⟨e.buffers, state, ?_, (he.switched hlive hne hstate .keepLoaded).1, fun _ _ => rfl⟩
    rw [Bool.not_true, if_neg Bool.false_ne_true]
    exact setCurrentBuffer_run he hc hstate hloaded hne .keepLoaded
  | false =>
    have he₁ := he.load hstate hunseen .new
    have hstate₁ : (e.modifyBuffer target (·.load .new)).buffers[target]? = some (state.load .new) := by
      refine OrderedMap.getElem?_modify.trans ?_
      rw [if_pos rfl, hstate]
      rfl
    refine ⟨_, state.load .new, ?_, (he₁.switched hlive hne hstate₁ .keepLoaded).1, ?_⟩
    swap
    · intro b hb
      exact OrderedMap.getElem?_modify.trans (if_neg hb)
    rw [Bool.not_false, if_pos rfl, bind_ok (read_ok (resolveBufferHandle_eq (he.buffer_ne hb))),
      bind_ok (modify_run _ _)]
    exact setCurrentBuffer_run he₁ hc hstate₁ (state.load_isLoaded .new) hne .keepLoaded

/-- A window gets its buffer back, and has what it had when it had lost nothing else. -/
theorem put_back {before left : WindowView} (halternate : before.alternateBuffer = some target)
    (hloclist : before.loclistRef = none) (hcursor : left.cursor = before.cursor)
    (htopline : left.topline = before.topline) :
    { left with alternateBuffer := some target, loclistRef := none, buffer := before.buffer } = before := by
  obtain ⟨⟨buffer, cursor, topline⟩, alternateBuffer, loclistRef⟩ := before
  obtain ⟨⟨leftBuffer, leftCursor, leftTopline⟩, leftAlternate, leftLoclist⟩ := left
  cases halternate
  cases hloclist
  cases hcursor
  cases htopline
  rfl

theorem sameTrace_hidden (he : e.Consistent) (hc : e.currentWindow = some caller)
    (hb : target ∈ e.buffers) (hunseen : ∀ w ∈ e.windows, e.shown w ≠ target)
    (hu : Undisturbed ((Context.hidden target).start e) t) (previousBefore : Option WinHandle) :
    SameTrace e (final ((restoreBuffer (some (caller, e.shown caller)) >>= fun _ =>
        restoreWindow caller previousBefore) t)) ↔
      (Context.hidden target).Leaves e t caller := by
  obtain ⟨buffers, state, hrun, -, -⟩ := enterBufferContext_run he hc hb hunseen
  obtain ⟨tc, pageOfCaller, -, -, -, htc⟩ := he.currentTab_of_window hc
  have hlive := OrderedMap.mem_of_getElem? htc
  rw [Context.start, hrun, final_ok] at hu
  have ht := hu.consistent
  have hcaller : caller ∈ t.windows := by
    rw [OrderedMap.mem_iff, hu.windows caller hlive]
    exact OrderedMap.mem_iff.mp hlive
  have hshown : t.shown caller = target := by
    rw [hu.shown caller hlive]
    show (Function.update e.views caller _ caller).buffer = target
    rw [Function.update_self]
  have hne : t.shown caller ≠ e.shown caller := by
    rw [hshown]
    exact (hunseen caller hlive).symm
  have hcurrentWindow : t.currentWindow = some caller := hu.currentWindow.trans hc
  have hcurrentTab : t.currentTab = e.currentTab := hu.currentTab
  -- what is left when the buffer is not put back
  have hstay : ∀ t' : Editor, t'.views = t.views → ¬SameTrace e t' := by
    intro t' hviews h
    have hview := congrArg (fun view : WindowView => view.buffer) (h.views caller hlive)
    rw [hviews] at hview
    exact hne hview
  by_cases horiginal : e.shown caller ∈ t.buffers
  · obtain ⟨original, horig⟩ := OrderedMap.mem_iff.mp horiginal
    have hput : restoreBuffer (some (caller, e.shown caller)) t
        = (do
          let _ ← attempt (setWindowBuffer caller (e.shown caller) .keepLoaded)
          return : EStateM EditorError Editor Unit) t := by
      have hok : (t.buffer (e.shown caller)).isOk = true := by
        rw [ht.buffer_eq horig]
        rfl
      rw [restoreBuffer, bind_ok (get_run t), ht.window_any hcaller, hok, Bool.and_true, if_pos]
      exact decide_eq_true hne
    rcases setWindowBuffer_live ht hcaller horiginal .keepLoaded with
      ⟨hsame, -⟩ | ⟨-, ⟨hunloaded, error, hfail⟩ | ⟨original', horig', hloaded, hback⟩⟩
    · exact absurd hsame hne
    · -- it is not loaded any more
      refine iff_of_false ?_ ?_
      · rw [bind_ok (hput.trans (bind_ok (attempt_error hfail)))]
        have hsync := (ht.sync (t.shown caller)).consistent
        have hthere : (t.syncBufferUndo (t.shown caller)).currentWindow = some caller := hcurrentWindow
        obtain ⟨previousWindow, hrestore⟩ := restoreWindow_run hsync
          (show caller ∈ t.windows from hcaller) previousBefore
        rw [hrestore, if_pos hthere, sameTrace_previousWindow]
        exact hstay _ rfl
      · rintro ⟨-, -, hbook, -⟩
        rw [horig, Option.map_some, hunloaded original horig] at hbook
        cases hbook
    · obtain rfl := Option.some.inj (horig.symm.trans horig')
      have hafter := (ht.switched hcaller hne horig .keepLoaded).1
      have hthere : (t.switched caller (e.shown caller) original .keepLoaded).currentWindow = some caller :=
        hcurrentWindow
      obtain ⟨previousWindow, hrestore⟩ := restoreWindow_run hafter
        (show caller ∈ t.windows from hcaller) previousBefore
      rw [bind_ok (hput.trans (bind_ok (attempt_ok hback))), hrestore, if_pos hthere,
        sameTrace_previousWindow]
      have hself : (t.switched caller (e.shown caller) original .keepLoaded).views caller
          = { t.views caller with
              alternateBuffer := some target, loclistRef := none, buffer := e.shown caller } := by
        show Function.update t.views caller _ caller = _
        rw [Function.update_self, hshown]
      have hothers : ∀ v, v ≠ caller →
          (t.switched caller (e.shown caller) original .keepLoaded).views v = t.views v := by
        intro v hv
        show Function.update t.views caller _ v = _
        rw [Function.update_of_ne hv]
      constructor
      · intro h
        have hview := h.views caller hlive
        rw [hself] at hview
        refine ⟨?_, ?_, ?_, ?_, ?_, ?_, h.previous⟩
        · rw [← hview]
        · rw [← hview]
        · rw [horig, Option.map_some, hloaded]
        · rw [← hview]
        · rw [← hview]
        · intro v hv hother
          rw [← hothers v hother]
          exact h.views v hv
      · rintro ⟨halternate, hloclist, -, hcursor, htopline, hrest, hprevious⟩
        refine ⟨hcurrentWindow.trans hc.symm, hcurrentTab, hprevious, ?_⟩
        intro v hv
        by_cases hvc : v = caller
        · subst hvc
          rw [hself]
          exact put_back halternate hloclist hcursor htopline
        · rw [hothers v hvc]
          exact hrest v hv hvc
  · -- it was wiped
    refine iff_of_false ?_ ?_
    · have hskip : restoreBuffer (some (caller, e.shown caller)) t = .ok () t := by
        have hok : (t.buffer (e.shown caller)).isOk = false := by
          have hzero : e.shown caller ≠ 0 := he.buffer_ne (he.live_of_book hlive)
          rw [Editor.buffer, resolveBufferHandle_eq hzero]
          show (found t.buffers[e.shown caller]? _).isOk = false
          rw [OrderedMap.getElem?_eq_none horiginal]
          rfl
        rw [restoreBuffer, bind_ok (get_run t), hok, Bool.and_false, if_neg Bool.false_ne_true]
        rfl
      obtain ⟨previousWindow, hrestore⟩ := restoreWindow_run ht hcaller previousBefore
      rw [bind_ok hskip, hrestore, if_pos hcurrentWindow, sameTrace_previousWindow]
      exact hstay t rfl
    · rintro ⟨-, -, hbook, -⟩
      rw [OrderedMap.getElem?_eq_none horiginal] at hbook
      cases hbook

/-! ## From entry to return -/

theorem Consistent.target_ne (he : e.Consistent) {buffer : BufHandle}
    (h : e.resolveBufferHandle buffer = .ok b) : b ≠ 0 := by
  rw [resolveBufferHandle] at h
  split at h
  · obtain ⟨w, hw, hview⟩ := Option.bind_eq_some_iff.mp (of_found h)
    obtain ⟨-, -, -, -, -, hlive⟩ := he.currentWindow hw
    rw [he.window_eq hlive] at hview
    obtain rfl : e.shown w = b := Option.some.inj hview
    exact he.buffer_ne (he.live_of_book hlive)
  · next hne =>
    cases h
    exact hne

/-- What entering the context of a buffer takes over. -/
def Context.takenOver (e : Editor) (caller : WinHandle) (target : BufHandle) :
    Context → Option (WinHandle × BufHandle)
  | .caller => none
  | window w => some (w, target)
  | hidden _ => some (caller, e.shown caller)

theorem enterFor_run (he : e.Consistent) (hc : e.currentWindow = some caller) (htarget : target ≠ 0) :
    enterFor caller (some (e.shown caller)) target e
      = .ok ((e.bufferContext caller target).takenOver e caller target)
        ((e.bufferContext caller target).start e) := by
  rw [enterFor, bufferContext]
  by_cases hsame : e.shown caller = target
  · rw [if_pos (congrArg some hsame), if_pos hsame]
    rfl
  rw [if_neg (fun h => hsame (Option.some.inj h)), if_neg hsame, bind_ok (get_run e)]
  cases hfirst : e.firstShowing target with
  | some w =>
    obtain ⟨hw, hshown⟩ := he.firstShowing_some hfirst
    obtain ⟨tab, tabpage, layout, -, -, hrun, -⟩ := setCurrentWindow_run he hw
    have hne : w ≠ caller := by
      rintro rfl
      exact hsame hshown
    show (if w = caller then _ else _ : EStateM EditorError Editor (Option (WinHandle × BufHandle))) e = _
    rw [if_neg hne, bind_ok (attempt_ok hrun), Context.start, hrun]
    rfl
  | none =>
    have hunseen : ∀ w ∈ e.windows, e.shown w ≠ target := fun w hw => he.firstShowing_none hfirst hw
    show (attempt (enterBufferContext target) >>= _) e = _
    by_cases hlive : target ∈ e.buffers
    · obtain ⟨buffers, state, hrun, -, -⟩ := enterBufferContext_run he hc hlive hunseen
      show _ = EStateM.Result.ok (Context.takenOver e caller target (if _ then _ else _))
        (Context.start e (if _ then _ else _))
      rw [bind_ok (attempt_ok hrun), if_pos hlive, Context.start, hrun]
      rfl
    · -- the buffer does not exist: nothing is entered
      have hunknown : e.buffer target = .error (.unknownBuffer target) := by
        rw [Editor.buffer, resolveBufferHandle_eq htarget]
        show found e.buffers[target]? _ = _
        rw [OrderedMap.getElem?_eq_none hlive]
        rfl
      have hfail : enterBufferContext target e = .error (.unknownBuffer target) e := by
        rw [enterBufferContext, bind_error (read_error hunknown)]
      show _ = EStateM.Result.ok (Context.takenOver e caller target (if _ then _ else _))
        (Context.start e (if _ then _ else _))
      rw [bind_ok (attempt_error hfail), if_neg hlive]
      rfl

/-- Nothing was taken over, or the window that was taken over displays what it has to. -/
theorem restoreBuffer_idle (ht : t.Consistent) {entered : Option (WinHandle × BufHandle)}
    (h : ∀ w expected, entered = some (w, expected) → w ∈ t.windows ∧ t.shown w = expected) :
    restoreBuffer entered t = .ok () t := by
  cases entered with
  | none => rfl
  | some taken =>
    obtain ⟨w, expected⟩ := taken
    obtain ⟨hw, hshown⟩ := h w expected rfl
    have hsame : decide ((t.views w).buffer ≠ expected) = false := decide_eq_false (not_not.mpr hshown)
    rw [restoreBuffer, bind_ok (get_run t), ht.window_any hw, hsame, Bool.false_and,
      if_neg Bool.false_ne_true]
    rfl

/-- The three ways to enter the context of a buffer. -/
theorem Consistent.bufferContext_cases (he : e.Consistent) (caller : WinHandle) (target : BufHandle) :
    e.bufferContext caller target = .caller ∨
    (∃ w ∈ e.windows, w ≠ caller ∧ e.shown w = target ∧ e.bufferContext caller target = .window w) ∨
    (target ∈ e.buffers ∧ (∀ w ∈ e.windows, e.shown w ≠ target) ∧
      e.bufferContext caller target = .hidden target) := by
  rw [bufferContext]
  by_cases hsame : e.shown caller = target
  · exact .inl (if_pos hsame)
  rw [if_neg hsame]
  cases hfirst : e.firstShowing target with
  | some w =>
    obtain ⟨hw, hshown⟩ := he.firstShowing_some hfirst
    refine .inr (.inl ⟨w, hw, ?_, hshown, rfl⟩)
    rintro rfl
    exact hsame hshown
  | none =>
    by_cases hlive : target ∈ e.buffers
    · exact .inr (.inr ⟨hlive, fun w hw => he.firstShowing_none hfirst hw, if_pos hlive⟩)
    · exact .inl (if_neg hlive)

theorem withBufferContext_trace (he : e.Consistent) (hc : e.currentWindow = some caller)
    {buffer : BufHandle} (hbuffer : e.resolveBufferHandle buffer = .ok target)
    (f : EStateM ε Editor α)
    (hu : Undisturbed ((e.bufferContext caller target).start e)
      (final (f ((e.bufferContext caller target).start e)))) :
    SameTrace e (final (withBufferContext buffer f e)) ↔
      (e.bufferContext caller target).Leaves e (final (f ((e.bufferContext caller target).start e)))
        caller := by
  obtain ⟨-, -, -, -, -, hlive⟩ := he.currentWindow hc
  obtain ⟨result, hresult⟩ := closure_run f ((e.bufferContext caller target).start e)
  have hview : (e.window caller).toOption.map (·.buffer) = some (e.shown caller) := by
    rw [he.window_eq hlive]
    rfl
  have hrun : final (withBufferContext buffer f e) =
      final ((restoreBuffer ((e.bufferContext caller target).takenOver e caller target) >>= fun _ =>
        restoreWindow caller e.previousWindow)
          (final (f ((e.bufferContext caller target).start e)))) := by
    rw [withBufferContext, bind_ok (read_ok hbuffer), bind_ok (read_ok (e := e) (found_eq hc)),
      bind_ok (get_run e)]
    show final ((enterFor caller ((e.window caller).toOption.map (·.buffer)) target >>= _) e) = _
    rw [hview, bind_ok (enterFor_run he hc (he.target_ne hbuffer)), bind_ok hresult]
    exact final_bind_return _ _ _ _
  rw [hrun]
  generalize hleft : final (f ((e.bufferContext caller target).start e)) = t at hu ⊢
  have ht := hu.consistent
  rcases he.bufferContext_cases caller target with hcontext | ⟨w, hw, hne, hshown, hcontext⟩ |
    ⟨hb, hunseen, hcontext⟩
  · rw [hcontext] at hu ⊢
    have hidle : restoreBuffer (Context.caller.takenOver e caller target) t = .ok () t := rfl
    rw [bind_ok hidle]
    exact sameTrace_caller he hc hu e.previousWindow
  · rw [hcontext] at hu ⊢
    have hidle : restoreBuffer ((Context.window w).takenOver e caller target) t = .ok () t := by
      refine restoreBuffer_idle ht ?_
      rintro w' expected ⟨⟩
      obtain ⟨tab, tabpage, layout, htab, -, hentered, -⟩ := setCurrentWindow_run he hw
      rw [Context.start, hentered, final_ok] at hu
      have hlive' : w ∈ (e.entered w tab (TabpageState.enter { tabpage with layout } w)).windows := by
        rw [entered_windows]
        exact hw
      constructor
      · rw [OrderedMap.mem_iff, hu.windows w hlive']
        exact OrderedMap.mem_iff.mp hlive'
      · rw [hu.shown w hlive', shown, entered_views]
        exact hshown
    rw [bind_ok hidle]
    exact sameTrace_window he hc hw hne hu e.previousWindow
  · rw [hcontext] at hu ⊢
    exact sameTrace_hidden he hc hb hunseen hu e.previousWindow

theorem withWindowContext_trace (he : e.Consistent) (hc : e.currentWindow = some caller)
    {window : WinHandle} (hwindow : e.resolveWindowHandle window = .ok w)
    (f : EStateM ε Editor α)
    (hu : Undisturbed ((e.windowContext caller w).start e)
      (final (f ((e.windowContext caller w).start e)))) :
    SameTrace e (final (withWindowContext window f e)) ↔
      (e.windowContext caller w).Leaves e (final (f ((e.windowContext caller w).start e))) caller := by
  obtain ⟨result, hresult⟩ := closure_run f ((e.windowContext caller w).start e)
  have hrun : final (withWindowContext window f e) =
      final (restoreWindow caller e.previousWindow (final (f ((e.windowContext caller w).start e)))) := by
    rw [withWindowContext, bind_ok (read_ok hwindow), bind_ok (read_ok (e := e) (found_eq hc)),
      bind_ok (get_run e)]
    by_cases hne : w ≠ caller
    · rw [if_pos hne]
      have hentered : ∃ switched, attempt (setCurrentWindow w) e
          = .ok switched ((e.windowContext caller w).start e) := by
        rw [windowContext]
        by_cases hw : w ∈ e.windows
        · obtain ⟨tab, tabpage, layout, -, -, hset, -⟩ := setCurrentWindow_run he hw
          rw [if_pos ⟨hne, hw⟩, Context.start, hset]
          exact ⟨true, attempt_ok hset⟩
        · have hresolve := resolveWindowHandle_eq (he.resolveWindowHandle hwindow) (e := e)
          have hunknown : found e.windows[w]? (.unknownWindow w) = .error (.unknownWindow w) := by
            rw [OrderedMap.getElem?_eq_none hw]
            rfl
          have hfail : setCurrentWindow w e = .error (.unknownWindow w) e := by
            rw [setCurrentWindow, bind_ok (read_ok hresolve), bind_error (read_error (e := e) hunknown)]
          rw [if_neg (fun h => hw h.2)]
          exact ⟨false, attempt_error hfail⟩
      obtain ⟨switched, hentered⟩ := hentered
      rw [bind_ok hentered]
      show final ((closure f >>= _) _) = _
      rw [bind_ok hresult]
      exact final_return _ _ _
    · rw [if_neg hne]
      have hstart : (e.windowContext caller w).start e = e := by
        rw [windowContext, if_neg (fun h => hne h.1)]
        rfl
      show final ((closure f >>= _) e) = _
      rw [hstart] at hresult ⊢
      rw [bind_ok hresult]
      exact final_return _ _ _
  rw [hrun]
  rw [windowContext] at hu ⊢
  split at hu
  · next h =>
    rw [if_pos h]
    exact sameTrace_window he hc h.2 h.1 hu e.previousWindow
  · next h =>
    rw [if_neg h]
    exact sameTrace_caller he hc hu e.previousWindow

/-! ## Closures that leave no trace themselves -/

/-- The buffer that a window displayed before it switched. -/
theorem switched_released {original state : BufferState} (hne : e.shown w ≠ b)
    (horiginal : e.buffers[e.shown w]? = some original) (release : BufferRelease) :
    (e.switched w b state release).buffers[e.shown w]?
      = some (original.syncUndo.detach (release = .keepLoaded)) := by
  rw [switched, OrderedMap.getElem?_modify, if_pos rfl, OrderedMap.getElem?_insert, if_neg hne,
    OrderedMap.getElem?_modify, if_pos rfl, horiginal]
  rfl

theorem isLoaded_detach_true {state : BufferState} (hloaded : state.isLoaded = true) :
    (state.syncUndo.detach true).isLoaded = true := by
  have hbook := congrArg Prod.snd (state.syncUndo.book_detach true)
  refine hbook.trans ?_
  show (if state.syncUndo.attachments - 1 ≠ 0 then state.isLoaded else true) = true
  rw [hloaded, ite_self]

theorem SameTrace.refl (e : Editor) : SameTrace e e :=
  ⟨rfl, rfl, fun tab tabpage htab => by rw [htab, Option.map_some], fun _ _ => rfl⟩

/-- What a silent closure has to find, told by the state before the switch. -/
theorem Context.leaves_iff_clean (he : e.Consistent) (hc : e.currentWindow = some caller)
    {f : EStateM ε Editor α} (hf : Silent f) : ∀ {context : Context},
    (∀ w, context = .window w → w ∈ e.windows ∧ w ≠ caller) →
    (∀ b, context = .hidden b → b ∈ e.buffers ∧ ∀ w ∈ e.windows, e.shown w ≠ b) →
    (context.Leaves e (final (f (context.start e))) caller ↔ context.Clean e caller) := by
  obtain ⟨tc, pageOfCaller, -, htcpage, hcurrent, htc⟩ := he.currentTab_of_window hc
  intro context hwindow hhidden
  cases context with
  | caller => exact iff_of_true (hf.trace e he) trivial
  | window w =>
    obtain ⟨hw, hne⟩ := hwindow w rfl
    obtain ⟨tw, pageOfW, layout, htw, htwpage, hrun, hstart⟩ := setCurrentWindow_run he hw
    have htrace := hf.trace _ hstart
    have hkeep := hf.current _ hstart
    rw [Context.start, hrun, final_ok]
    generalize final (f (e.entered w tw (TabpageState.enter { pageOfW with layout } w))) = t
      at htrace hkeep
    have hviews : ∀ v ∈ e.windows, t.views v = e.views v := by
      intro v hv
      rw [htrace.views v (by rw [entered_windows]; exact hv), entered_views]
    -- the tabpage of the other window, and the others
    have hentered : (t.tabpages[tw]?).map (·.previous) = some (pageOfW.enter w).previous := by
      rw [← enter_previous pageOfW layout]
      refine htrace.previous tw _ ?_
      rw [entered_tabpages, OrderedMap.getElem?_insert, if_pos rfl]
    have hother : ∀ (tab : TabHandle) (tabpage : TabpageState), tab ≠ tw → e.tabpages[tab]? = some tabpage →
        (e.entered w tw (TabpageState.enter { pageOfW with layout } w)).tabpages[tab]? = some tabpage := by
      intro tab tabpage htab htabpage
      rw [entered_tabpages, OrderedMap.getElem?_insert, if_neg htab, htabpage]
    constructor
    · rintro ⟨-, htabs⟩ tab tabpage htab htabpage
      obtain rfl : tw = tab := Option.some.inj (htw.symm.trans htab)
      obtain rfl : pageOfW = tabpage := Option.some.inj (htwpage.symm.trans htabpage)
      have hleaves := htabs tw pageOfW htwpage
      rw [if_pos htw, hentered] at hleaves
      by_cases hcaller : e.windows[caller]? = some tw
      · rw [if_pos hcaller] at hleaves ⊢
        exact hleaves
      · rw [if_neg hcaller] at hleaves ⊢
        exact Option.some.inj hleaves
    · intro hclean
      refine ⟨hviews, ?_⟩
      intro tab tabpage htabpage
      by_cases htab : tab = tw
      · subst htab
        obtain rfl : pageOfW = tabpage := Option.some.inj (htwpage.symm.trans htabpage)
        have hswitch := hclean tab pageOfW htw htwpage
        rw [if_pos htw, hentered]
        by_cases hcaller : e.windows[caller]? = some tab
        · rw [if_pos hcaller] at hswitch ⊢
          exact hswitch
        · rw [if_neg hcaller] at hswitch ⊢
          rw [hswitch]
      · have hsame := htrace.previous tab tabpage (hother tab tabpage htab htabpage)
        split
        · next hcaller =>
          -- the window of the caller stays current in its tabpage
          obtain rfl : tc = tab := Option.some.inj (htc.symm.trans hcaller)
          obtain rfl : pageOfCaller = tabpage := Option.some.inj (htcpage.symm.trans htabpage)
          have hstays := hkeep tc pageOfCaller (hother tc pageOfCaller htab htabpage)
          rw [if_neg (fun h => htab (Option.some.inj (htw.symm.trans h)).symm)]
          obtain ⟨left, hleft, hprevious⟩ := Option.map_eq_some_iff.mp hsame
          rw [hleft, Option.map_some] at hstays ⊢
          rw [TabpageState.enter, if_neg, hprevious]
          rw [Option.some.inj hstays, hcurrent]
          exact not_not.mpr rfl
        · exact hsame
  | hidden target =>
    obtain ⟨hb, hunseen⟩ := hhidden target rfl
    obtain ⟨-, -, -, -, -, hlive⟩ := he.currentWindow hc
    obtain ⟨buffers, state, hrun, hstart, hbuffers⟩ := enterBufferContext_run he hc hb hunseen
    have hne := hunseen caller hlive
    -- the buffer of the caller stays loaded
    obtain ⟨count, hbook⟩ := he.counted.displayed caller (OrderedMap.mem_keySet.mpr hlive)
    obtain ⟨original, horiginal, hresident⟩ := Option.map_eq_some_iff.mp hbook
    have hreleased : ({ e with buffers }.switched caller target state .keepLoaded).buffers[
        e.shown caller]? = some (original.syncUndo.detach true) :=
      switched_released (e := { e with buffers }) hne ((hbuffers _ hne).trans horiginal) .keepLoaded
    have htrace := hf.trace _ hstart
    have hloaded := hf.loaded _ hstart _ _ hreleased (isLoaded_detach_true (congrArg Prod.snd hresident))
    rw [Context.start, hrun, final_ok]
    generalize hleft : final (f ({ e with buffers }.switched caller target state .keepLoaded)) = t
      at htrace hloaded
    have hcaller : t.views caller = { e.views caller with
        alternateBuffer := some (e.shown caller), loclistRef := none, buffer := target } := by
      rw [htrace.views caller hlive]
      exact Function.update_self _ _ _
    have hothers : ∀ v ∈ e.windows, v ≠ caller → t.views v = e.views v := by
      intro v hv hother
      rw [htrace.views v hv]
      exact Function.update_of_ne hother _ _
    constructor
    · rintro ⟨halternate, hloclist, -⟩
      exact ⟨halternate, hloclist⟩
    · rintro ⟨halternate, hloclist⟩
      refine ⟨halternate, hloclist, hloaded, ?_, ?_, hothers, htrace.previous⟩
      · rw [hcaller]
      · rw [hcaller]

/-! ## The trace of a switch -/

theorem windowContext_cases (e : Editor) (caller w : WinHandle) :
    e.windowContext caller w = .caller ∨
      w ∈ e.windows ∧ w ≠ caller ∧ e.windowContext caller w = .window w := by
  rw [windowContext]
  split
  · next h => exact .inr ⟨h.2, h.1, rfl⟩
  · exact .inl rfl

theorem Switch.context_ok {switch : Switch} {context : Context}
    (h : switch.context e = .ok (caller, context)) :
    e.currentWindow = some caller ∧
      ((∃ buffer target, switch = .toBuffer buffer ∧ e.resolveBufferHandle buffer = .ok target ∧
          context = e.bufferContext caller target) ∨
        ∃ window w, switch = .toWindow window ∧ e.resolveWindowHandle window = .ok w ∧
          context = e.windowContext caller w) := by
  cases switch with
  | toBuffer buffer =>
    obtain ⟨target, hbuffer, hrest⟩ := of_except_bind h
    obtain ⟨current, hcurrent, hcontext⟩ := of_except_bind hrest
    cases hcontext
    exact ⟨of_found hcurrent, .inl ⟨buffer, target, rfl, hbuffer, rfl⟩⟩
  | toWindow window =>
    obtain ⟨w, hwindow, hrest⟩ := of_except_bind h
    obtain ⟨current, hcurrent, hcontext⟩ := of_except_bind hrest
    cases hcontext
    exact ⟨of_found hcurrent, .inr ⟨window, w, rfl, hwindow, rfl⟩⟩

/-- The switch fails before it does anything. -/
theorem Switch.run_error {switch : Switch} {error : EditorError} (h : switch.context e = .error error)
    (f : EStateM ε Editor α) : switch.run f e = .error error e := by
  cases switch with
  | toBuffer buffer =>
    rw [run, withBufferContext]
    rw [context] at h
    cases hbuffer : e.resolveBufferHandle buffer with
    | error first =>
      rw [hbuffer] at h
      cases h
      exact bind_error (read_error hbuffer)
    | ok target =>
      rw [bind_ok (read_ok hbuffer)]
      rw [hbuffer] at h
      cases hcurrent : found e.currentWindow .noCurrentTabpage with
      | error second =>
        rw [hcurrent] at h
        cases h
        exact bind_error (read_error (e := e) hcurrent)
      | ok caller =>
        rw [hcurrent] at h
        cases h
  | toWindow window =>
    rw [run, withWindowContext]
    rw [context] at h
    cases hwindow : e.resolveWindowHandle window with
    | error first =>
      rw [hwindow] at h
      cases h
      exact bind_error (read_error hwindow)
    | ok target =>
      rw [bind_ok (read_ok hwindow)]
      rw [hwindow] at h
      cases hcurrent : found e.currentWindow .noCurrentTabpage with
      | error second =>
        rw [hcurrent] at h
        cases h
        exact bind_error (read_error (e := e) hcurrent)
      | ok caller =>
        rw [hcurrent] at h
        cases h

/-- What a context is entered for. -/
theorem Switch.context_suits (he : e.Consistent) {switch : Switch} {context : Context}
    (h : switch.context e = .ok (caller, context)) :
    (∀ w, context = .window w → w ∈ e.windows ∧ w ≠ caller) ∧
    ∀ b, context = .hidden b → b ∈ e.buffers ∧ ∀ w ∈ e.windows, e.shown w ≠ b := by
  obtain ⟨-, ⟨buffer, target, -, -, rfl⟩ | ⟨window, w, -, -, rfl⟩⟩ := switch.context_ok h
  · rcases he.bufferContext_cases caller target with hcontext | ⟨w, hw, hne, -, hcontext⟩ |
      ⟨hb, hunseen, hcontext⟩
    · rw [hcontext]
      exact ⟨by rintro w ⟨⟩, by rintro b ⟨⟩⟩
    · rw [hcontext]
      refine ⟨?_, by rintro b ⟨⟩⟩
      rintro w' ⟨⟩
      exact ⟨hw, hne⟩
    · rw [hcontext]
      refine ⟨by rintro w ⟨⟩, ?_⟩
      rintro b ⟨⟩
      exact ⟨hb, hunseen⟩
  · rcases e.windowContext_cases caller w with hcontext | ⟨hw, hne, hcontext⟩
    · rw [hcontext]
      exact ⟨by rintro w ⟨⟩, by rintro b ⟨⟩⟩
    · rw [hcontext]
      refine ⟨?_, by rintro b ⟨⟩⟩
      rintro w' ⟨⟩
      exact ⟨hw, hne⟩

theorem Switch.trace (he : e.Consistent) {switch : Switch} {context : Context}
    (h : switch.context e = .ok (caller, context)) (f : EStateM ε Editor α)
    (hu : Undisturbed (context.start e) (final (f (context.start e)))) :
    SameTrace e (final (switch.run f e)) ↔ context.Leaves e (final (f (context.start e))) caller := by
  obtain ⟨hc, ⟨buffer, target, rfl, hbuffer, rfl⟩ | ⟨window, w, rfl, hwindow, rfl⟩⟩ :=
    switch.context_ok h
  · exact withBufferContext_trace he hc hbuffer f hu
  · exact withWindowContext_trace he hc hwindow f hu

/-- The editor that the closure is started in is consistent. -/
theorem Switch.start_consistent (he : e.Consistent) {switch : Switch} {context : Context}
    (h : switch.context e = .ok (caller, context)) : (context.start e).Consistent := by
  obtain ⟨hc, -⟩ := switch.context_ok h
  obtain ⟨hwindow, hhidden⟩ := switch.context_suits he h
  cases context with
  | caller => exact he
  | window w =>
    obtain ⟨tab, tabpage, layout, -, -, hrun, hstart⟩ := setCurrentWindow_run he (hwindow w rfl).1
    rw [Context.start, hrun]
    exact hstart
  | hidden target =>
    obtain ⟨hb, hunseen⟩ := hhidden target rfl
    obtain ⟨buffers, state, hrun, hstart, -⟩ := enterBufferContext_run he hc hb hunseen
    rw [Context.start, hrun]
    exact hstart

/-- Two buffers, the first of them displayed by the only window. -/
def twoBuffers : Editor :=
  [EditorOp.createBufferWith .new true, .createBufferWith .new true, .createTabpage 1 ⟨0, 0, 20, 10⟩].foldl
    (fun e op => final (op.run e)) new

theorem twoBuffers_consistent : twoBuffers.Consistent := by
  have hnot : ∀ {op : EditorOp} {e : Editor}, op.split? = none → ¬op.Cramped e := by
    rintro op e hnone ⟨tab, target, buffer, direction, hsome, -⟩
    rw [hnone] at hsome
    cases hsome
  have h₁ := (run_ends new_consistent (.createBufferWith .new true) (hnot rfl)).consistent
  have h₂ := (run_ends h₁ (.createBufferWith .new true) (hnot rfl)).consistent
  exact (run_ends h₂ (.createTabpage 1 ⟨0, 0, 20, 10⟩) (hnot rfl)).consistent

end Editor

end Oxvim.Editor
