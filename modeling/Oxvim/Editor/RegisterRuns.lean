import Oxvim.Editor.Register

/-!
# Registers over whole runs

Stored contents have rows of text, and a block is as wide as its rows, in every state that writes lead
to, unless `setreg()` appends a block to rows that are wider: the sum takes the width of the incoming
block. Deletes rotate the numbered registers, and the unnamed register reads the last delete until a
write points it elsewhere or replaces what it reads.
-/

namespace Oxvim.Editor

open Lib Text

/-! ## Contents -/

namespace RegisterContent

variable {c d : RegisterContent} {kind : RegisterKind} {rows rows' lines : List Line}

/-- Rows of text: at least one, without line feeds, valid UTF-8. -/
structure Rows (rows : List Line) : Prop where
  some : rows ≠ []
  newlineFree : ∀ row ∈ rows, LF ∉ row
  utf8 : ∀ row ∈ rows, (Utf8.decode? row).isSome

/-- A block is at least one byte wide, and as wide as its rows. -/
def Wide : RegisterKind → List Line → Prop
  | .blockWise width, rows => 1 ≤ width ∧ ∀ row ∈ rows, row.length ≤ width
  | _, _ => True

structure WellFormed (c : RegisterContent) : Prop where
  rows : Rows c.lines
  wide : Wide c.kind c.lines

/-- What the constructors return. -/
def Built (c : RegisterContent) : Prop :=
  (∃ kind lines, new kind lines = .ok c) ∨ (∃ bytes, characterwise bytes = .ok c) ∨
    ∃ bytes, fromText bytes = .ok c

theorem validateRegisterLine_ok {line : Line} (h : validateRegisterLine line = .ok ()) :
    LF ∉ line ∧ (Utf8.decode? line).isSome := by
  rw [validateRegisterLine] at h
  split at h
  · cases h
  · next hcontains =>
    rw [List.contains_iff_mem] at hcontains
    cases hdecode : Utf8.decode? line with
    | none =>
      rw [hdecode] at h
      cases h
    | some text => exact ⟨hcontains, rfl⟩

theorem forM_ok {ε β : Type} {f : β → Except ε Unit} {bs : List β} (h : bs.forM f = .ok ()) :
    ∀ b ∈ bs, f b = .ok () := by
  induction bs with
  | nil =>
    intro b hb
    cases hb
  | cons a bs ih =>
    obtain ⟨u, ha, hrest⟩ := EState.of_except_bind h
    intro b hb
    rcases List.mem_cons.mp hb with rfl | hb
    · exact ha
    · exact ih hrest b hb

theorem tooNarrow_none (h : tooNarrow kind rows = none) : Wide kind rows := by
  cases kind with
  | characterWise => trivial
  | lineWise => trivial
  | blockWise width =>
    rw [tooNarrow] at h
    split at h
    · cases h
    · next hfit =>
      rw [Bool.or_eq_true, not_or, decide_eq_true_eq, List.any_eq_true] at hfit
      refine ⟨Nat.one_le_iff_ne_zero.mpr hfit.1, ?_⟩
      intro row hrow
      by_contra hlong
      exact hfit.2 ⟨row, hrow, decide_eq_true (not_le.mp hlong)⟩

theorem new_wellFormed (h : new kind lines = .ok c) : c.WellFormed := by
  obtain ⟨u, hlines, hrest⟩ := EState.of_except_bind h
  have hrows : Rows (if lines.isEmpty then [[]] else lines) := by
    have hvalid := forM_ok hlines
    refine ⟨?_, fun row hrow => (validateRegisterLine_ok (hvalid row hrow)).1,
      fun row hrow => (validateRegisterLine_ok (hvalid row hrow)).2⟩
    split
    · exact List.cons_ne_nil _ _
    · next hne => exact fun hnil => hne (hnil ▸ rfl)
  cases hnarrow : tooNarrow kind (if lines.isEmpty then [[]] else lines) with
  | some width =>
    rw [hnarrow] at hrest
    cases hrest
  | none =>
    rw [hnarrow] at hrest
    cases hrest
    exact ⟨hrows, tooNarrow_none hnarrow⟩

theorem Built.wellFormed (h : c.Built) : c.WellFormed := by
  rcases h with ⟨kind, lines, h⟩ | ⟨bytes, h⟩ | ⟨bytes, h⟩
  · exact new_wellFormed h
  · obtain ⟨rows, -, hnew⟩ := EState.of_except_bind h
    exact new_wellFormed hnew
  · obtain ⟨rows, -, hnew⟩ := EState.of_except_bind h
    exact new_wellFormed hnew

/-! ## Appending -/

theorem Rows.append (h : Rows rows) (h' : Rows rows') : Rows (rows ++ rows') where
  some := by
    intro hnil
    exact h.some (List.append_eq_nil_iff.mp hnil).1
  newlineFree := by
    intro row hrow
    rcases List.mem_append.mp hrow with hrow | hrow
    · exact h.newlineFree row hrow
    · exact h'.newlineFree row hrow
  utf8 := by
    intro row hrow
    rcases List.mem_append.mp hrow with hrow | hrow
    · exact h.utf8 row hrow
    · exact h'.utf8 row hrow

/-- What joining makes of rows: the last row and the first incoming one become one. -/
theorem joinRows_eq (h : rows ≠ []) (h' : rows' ≠ []) :
    joinRows rows rows' = rows.dropLast ++ (rows.getLast h ++ rows'.head h') :: rows'.tail := by
  cases rows' with
  | nil => exact absurd rfl h'
  | cons first rest =>
    rw [joinRows, List.getLast?_eq_some_getLast h]
    rfl

theorem Rows.join (h : Rows rows) (h' : Rows rows') : Rows (joinRows rows rows') := by
  have hlast := List.getLast_mem h.some
  have hfirst := List.head_mem h'.some
  rw [joinRows_eq h.some h'.some]
  refine ⟨?_, ?_, ?_⟩
  · simp
  · intro row hrow
    rcases List.mem_append.mp hrow with hrow | hrow
    · exact h.newlineFree row (List.mem_of_mem_dropLast hrow)
    rcases List.mem_cons.mp hrow with rfl | hrow
    · rw [List.mem_append, not_or]
      exact ⟨h.newlineFree _ hlast, h'.newlineFree _ hfirst⟩
    · exact h'.newlineFree row (List.mem_of_mem_tail hrow)
  · intro row hrow
    rcases List.mem_append.mp hrow with hrow | hrow
    · exact h.utf8 row (List.mem_of_mem_dropLast hrow)
    rcases List.mem_cons.mp hrow with rfl | hrow
    · exact Utf8.decode?_append (h.utf8 _ hlast) (h'.utf8 _ hfirst)
    · exact h'.utf8 row (List.mem_of_mem_tail hrow)

theorem foldl_max_ge (lines : List Line) (widest : Nat) :
    widest ≤ lines.foldl (fun widest line => max widest line.length) widest ∧
      ∀ line ∈ lines, line.length ≤ lines.foldl (fun widest line => max widest line.length) widest := by
  induction lines generalizing widest with
  | nil => exact ⟨le_rfl, by simp⟩
  | cons line lines ih =>
    obtain ⟨hstart, hall⟩ := ih (max widest line.length)
    refine ⟨le_trans (le_max_left _ _) hstart, ?_⟩
    intro row hrow
    rcases List.mem_cons.mp hrow with rfl | hrow
    · exact le_trans (le_max_right _ _) hstart
    · exact hall row hrow

theorem WellFormed.le_incomingWidth (h : d.WellFormed) : ∀ row ∈ d.lines, row.length ≤ d.incomingWidth := by
  intro row hrow
  rw [incomingWidth]
  cases hkind : d.kind with
  | blockWise width =>
    have hwide := h.wide
    rw [hkind] at hwide
    exact hwide.2 row hrow
  | characterWise => exact (foldl_max_ge d.lines 0).2 row hrow
  | lineWise => exact (foldl_max_ge d.lines 0).2 row hrow

theorem append_rows (hc : Rows c.lines) (hd : Rows d.lines) : Rows (c.append d).lines := by
  rw [append]
  cases d.kind with
  | lineWise =>
    cases c.kind with
    | characterWise => exact hc.join hd
    | lineWise => exact hc.append hd
    | blockWise width => exact hc.append hd
  | characterWise =>
    cases c.kind with
    | characterWise => exact hc.join hd
    | lineWise => exact hc.append hd
    | blockWise width => exact hc.append hd
  | blockWise width =>
    cases c.kind with
    | characterWise => exact hc.join hd
    | lineWise => exact hc.append hd
    | blockWise width => exact hc.append hd

/-- Appending widens a block. -/
theorem WellFormed.append (hc : c.WellFormed) (hd : d.WellFormed) : (c.append d).WellFormed := by
  refine ⟨append_rows hc.rows hd.rows, ?_⟩
  rw [RegisterContent.append]
  have hblock : ∀ width, c.kind = .blockWise width →
      Wide (.blockWise (max width d.incomingWidth)) (c.lines ++ d.lines) := by
    intro width hkind
    have hwide := hc.wide
    rw [hkind] at hwide
    refine ⟨le_max_of_le_left hwide.1, ?_⟩
    intro row hrow
    rcases List.mem_append.mp hrow with hrow | hrow
    · exact le_max_of_le_left (hwide.2 row hrow)
    · exact le_max_of_le_right (hd.le_incomingWidth row hrow)
  cases hd' : d.kind with
  | lineWise =>
    cases hc' : c.kind with
    | characterWise => trivial
    | lineWise => trivial
    | blockWise width => trivial
  | characterWise =>
    cases hc' : c.kind with
    | characterWise => trivial
    | lineWise => trivial
    | blockWise width => exact hblock width hc'
  | blockWise _ =>
    cases hc' : c.kind with
    | characterWise => trivial
    | lineWise => trivial
    | blockWise width => exact hblock width hc'

/-- The incoming block is narrower than the rows that it is appended to. -/
def Narrow (c d : RegisterContent) : Prop :=
  ∃ width, d.kind = .blockWise width ∧
    ((∃ row ∈ c.lines, width < row.length) ∨
      c.kind = .characterWise ∧ ∃ last first, c.lines.getLast? = some last ∧ d.lines.head? = some first ∧
        width < (last ++ first).length)

theorem append_lines_of_block {width : Nat} (hd : d.kind = .blockWise width) :
    (c.append d).lines
      = if c.kind = .characterWise then joinRows c.lines d.lines else c.lines ++ d.lines := by
  rw [append, hd]
  cases c.kind with
  | characterWise => rfl
  | lineWise => rfl
  | blockWise _ => rfl

theorem appendFromSetreg_wellFormed_iff (hc : c.WellFormed) (hd : d.WellFormed) :
    (c.appendFromSetreg d).WellFormed ↔ ¬c.Narrow d := by
  have hrows : Rows (c.appendFromSetreg d).lines := append_rows hc.rows hd.rows
  have hiff : (c.appendFromSetreg d).WellFormed ↔ Wide d.kind (c.append d).lines :=
    ⟨fun h => h.wide, fun h => ⟨hrows, h⟩⟩
  rw [hiff]
  cases hkind : d.kind with
  | characterWise =>
    refine iff_of_true trivial ?_
    rintro ⟨width, hblock, -⟩
    rw [hkind] at hblock
    cases hblock
  | lineWise =>
    refine iff_of_true trivial ?_
    rintro ⟨width, hblock, -⟩
    rw [hkind] at hblock
    cases hblock
  | blockWise width =>
    have hwide := hd.wide
    rw [hkind] at hwide
    have hincoming : ∀ row ∈ d.lines, row.length ≤ width := hwide.2
    have hnarrow : c.Narrow d ↔ (∃ row ∈ c.lines, width < row.length) ∨
        c.kind = .characterWise ∧ ∃ last first, c.lines.getLast? = some last ∧
          d.lines.head? = some first ∧ width < (last ++ first).length := by
      constructor
      · rintro ⟨width', hblock, h⟩
        rw [hkind] at hblock
        cases hblock
        exact h
      · intro h
        exact ⟨width, hkind, h⟩
    rw [hnarrow, append_lines_of_block hkind]
    by_cases hchar : c.kind = .characterWise
    · rw [if_pos hchar, joinRows_eq hc.rows.some hd.rows.some]
      constructor
      · rintro ⟨-, hfit⟩ (⟨row, hrow, hlong⟩ | ⟨-, last, first, hlast, hfirst, hlong⟩)
        · rw [← List.dropLast_append_getLast hc.rows.some] at hrow
          rcases List.mem_append.mp hrow with hrow | hrow
          · have hshort := hfit row (List.mem_append_left _ hrow)
            omega
          · rw [List.mem_singleton] at hrow
            have hshort := hfit _ (List.mem_append_right _ List.mem_cons_self)
            rw [List.length_append, ← hrow] at hshort
            omega
        · have hshort := hfit _ (List.mem_append_right _ List.mem_cons_self)
          rw [List.getLast?_eq_some_getLast hc.rows.some] at hlast
          rw [List.head?_eq_some_head hd.rows.some] at hfirst
          cases hlast
          cases hfirst
          omega
      · intro h
        rw [not_or] at h
        refine ⟨hwide.1, ?_⟩
        intro row hrow
        rcases List.mem_append.mp hrow with hrow | hrow
        · by_contra hlong
          exact h.1 ⟨row, List.mem_of_mem_dropLast hrow, not_le.mp hlong⟩
        rcases List.mem_cons.mp hrow with rfl | hrow
        · by_contra hlong
          exact h.2 ⟨hchar, _, _, List.getLast?_eq_some_getLast hc.rows.some,
            List.head?_eq_some_head hd.rows.some, not_le.mp hlong⟩
        · exact hincoming row (List.mem_of_mem_tail hrow)
    · rw [if_neg hchar]
      constructor
      · rintro ⟨-, hfit⟩ (⟨row, hrow, hlong⟩ | ⟨hchar', -⟩)
        · have hshort := hfit row (List.mem_append_left _ hrow)
          omega
        · exact hchar hchar'
      · intro h
        rw [not_or] at h
        refine ⟨hwide.1, ?_⟩
        intro row hrow
        rcases List.mem_append.mp hrow with hrow | hrow
        · by_contra hlong
          exact h.1 ⟨row, hrow, not_le.mp hlong⟩
        · exact hincoming row hrow

end RegisterContent

/-! ## What an operation stores -/

namespace RegisterName

/-- The stored register that a write to a name goes to. -/
def home : RegisterName → Option RegisterName
  | named index _ => some (named index false)
  | numbered index => some (numbered index)
  | unnamed => some (numbered 0)
  | smallDelete => some smallDelete
  | searchPattern => some searchPattern
  | commandLine => some commandLine
  | insertContent => some insertContent
  | _ => none

/-- Uppercase names append. -/
def appends : RegisterName → Bool
  | named _ append => append
  | _ => false

end RegisterName

open RegisterContent RegisterName

namespace Registers

variable {r r' : Registers} {name : Char} {p q : RegisterName} {content c d : RegisterContent}

/-- A content of the bank: of a register, or what the unnamed register remembers of the clipboard. -/
def Stores (r : Registers) (c : RegisterContent) : Prop :=
  (∃ q, q.home = some q ∧ r.stored q = some c) ∨
    ∃ name, r.unnamedTarget = some (.providerSnapshot name c)

/-- All contents are well formed. -/
def Sound (r : Registers) : Prop := ∀ c, r.Stores c → c.WellFormed

/-- One register is written, and the unnamed register is not pointed to a clipboard. -/
structure Written (r r' : Registers) (target : Option RegisterName) (value : Option RegisterContent) :
    Prop where
  stored : ∀ q, q.home = some q → r'.stored q = if target = some q then value else r.stored q
  snapshot : ∀ name c, r'.unnamedTarget = some (.providerSnapshot name c) →
    r.unnamedTarget = some (.providerSnapshot name c)

theorem Written.sound_iff {target : Option RegisterName} {value : Option RegisterContent}
    (h : Written r r' target value) (hr : r.Sound) (htarget : ∀ q, target = some q → q.home = some q) :
    r'.Sound ↔ ∀ c, target.isSome → value = some c → c.WellFormed := by
  constructor
  · intro hsound c hsome hvalue
    obtain ⟨q, hq⟩ := Option.isSome_iff_exists.mp hsome
    refine hsound c (.inl ⟨q, htarget q hq, ?_⟩)
    rw [h.stored q (htarget q hq), if_pos hq, hvalue]
  · rintro hvalue c (⟨q, hq, hstored⟩ | ⟨name, hsnapshot⟩)
    · rw [h.stored q hq] at hstored
      split at hstored
      · next htarget' => exact hvalue c (by rw [htarget']; rfl) hstored
      · exact hr c (.inl ⟨q, hq, hstored⟩)
    · exact hr c (.inr ⟨name, h.snapshot name c hsnapshot⟩)

theorem home_home (h : p.home = some q) : q.home = some q := by
  cases p <;> cases h <;> rfl

section Written

variable (r) (v : Option RegisterContent)

theorem written_named (i : Fin 26) :
    Written r { r with named := Function.update r.named i v } (some (.named i false)) v := by
  refine ⟨?_, fun _ _ h => h⟩
  intro q hq
  cases q with
  | named j append =>
    cases append with
    | true => cases hq
    | false =>
      show Function.update r.named i v j = if some (RegisterName.named i false) = _ then v else r.named j
      by_cases hij : j = i
      · rw [hij, Function.update_self, if_pos rfl]
      · rw [Function.update_of_ne hij, if_neg]
        rintro ⟨⟩
        exact hij rfl
  | _ => rfl

theorem written_numbered (i : Fin 10) :
    Written r { r with numbered := Function.update r.numbered i v } (some (.numbered i)) v := by
  refine ⟨?_, fun _ _ h => h⟩
  intro q hq
  cases q with
  | numbered j =>
    show Function.update r.numbered i v j = if some (RegisterName.numbered i) = _ then v else r.numbered j
    by_cases hij : j = i
    · rw [hij, Function.update_self, if_pos rfl]
    · rw [Function.update_of_ne hij, if_neg]
      rintro ⟨⟩
      exact hij rfl
  | _ => rfl

theorem written_smallDelete : Written r { r with smallDelete := v } (some .smallDelete) v := by
  refine ⟨?_, fun _ _ h => h⟩
  intro q _
  cases q <;> rfl

theorem written_searchPattern : Written r { r with searchPattern := v } (some .searchPattern) v := by
  refine ⟨?_, fun _ _ h => h⟩
  intro q _
  cases q <;> rfl

theorem written_commandLine : Written r { r with commandLine := v } (some .commandLine) v := by
  refine ⟨?_, fun _ _ h => h⟩
  intro q _
  cases q <;> rfl

theorem written_insertContent : Written r { r with insertContent := v } (some .insertContent) v := by
  refine ⟨?_, fun _ _ h => h⟩
  intro q _
  cases q <;> rfl

/-- Nothing is written that counts. -/
theorem written_none (expressionSource : Option Line) : Written r { r with expressionSource } none v :=
  ⟨fun q _ => by cases q <;> rfl, fun _ _ h => h⟩

end Written

theorem Written.point {target : Option RegisterName} {value : Option RegisterContent}
    (h : Written r r' target value) (name : Char) :
    Written r { r' with unnamedTarget := some (.slot name) } target value where
  stored := by
    intro q hq
    rw [← h.stored q hq]
    cases q <;> rfl
  snapshot := by
    rintro name c ⟨⟩

theorem Written.pointAt {target : Option RegisterName} {value : Option RegisterContent}
    (h : Written r r' target value) (p : RegisterName) : Written r (r'.pointAt p) target value := by
  rw [Registers.pointAt]
  cases p.unnamedPointerName with
  | none => exact h
  | some name => exact h.point name

theorem set_written (hname : tryFrom name = .ok p) (h : r.set name content = .ok r') :
    Written r r' p.home (writeSlot (p.home.bind r.stored) content p.appends) := by
  have hreplace : ∀ slot : Option RegisterContent, writeSlot slot content false = some content := by
    intro slot
    cases slot with
    | none => rfl
    | some existing => rfl
  rw [set, hname] at h
  cases p with
  | named i append =>
    cases h
    exact written_named r _ i
  | numbered i =>
    cases h
    show Written r _ _ (writeSlot _ content false)
    rw [hreplace]
    exact written_numbered r _ i
  | unnamed =>
    cases h
    show Written r _ _ (writeSlot _ content false)
    rw [hreplace]
    exact (written_numbered r _ 0).point '0'
  | smallDelete =>
    cases h
    show Written r _ _ (writeSlot _ content false)
    rw [hreplace]
    exact written_smallDelete r _
  | blackHole =>
    cases h
    exact written_none r _ _
  | expression =>
    cases h
    exact written_none r _ _
  | searchPattern =>
    cases h
    show Written r _ _ (writeSlot _ content false)
    rw [hreplace]
    exact written_searchPattern r _
  | commandLine =>
    cases h
    show Written r _ _ (writeSlot _ content false)
    rw [hreplace]
    exact written_commandLine r _
  | insertContent =>
    cases h
    show Written r _ _ (writeSlot _ content false)
    rw [hreplace]
    exact written_insertContent r _
  | selection _ => cases h
  | alternateFile => cases h
  | currentFile => cases h

theorem setFromSetreg_written {append : Bool} (hname : tryFrom name = .ok p)
    (h : r.setFromSetreg name content append = .ok r') :
    Written r r' p.home
      (appendSlotFromSetregIf (p.home.bind r.stored) content (append || p.appends)) := by
  have hset : p.home = none → r.set name content = .ok r' → Written r r' p.home
      (appendSlotFromSetregIf (p.home.bind r.stored) content (append || p.appends)) := by
    intro hnone hset
    have hwritten := set_written hname hset
    rw [hnone] at hwritten ⊢
    exact ⟨hwritten.stored, hwritten.snapshot⟩
  rw [setFromSetreg, hname] at h
  cases p with
  | named i uppercase =>
    cases h
    exact written_named r _ i
  | numbered i =>
    cases h
    show Written r _ _ (appendSlotFromSetregIf _ content (append || false))
    rw [Bool.or_false]
    exact written_numbered r _ i
  | unnamed =>
    cases h
    show Written r _ _ (appendSlotFromSetregIf _ content (append || false))
    rw [Bool.or_false]
    exact (written_numbered r _ 0).point '0'
  | smallDelete =>
    cases h
    show Written r _ _ (appendSlotFromSetregIf _ content (append || false))
    rw [Bool.or_false]
    exact written_smallDelete r _
  | blackHole => exact hset rfl h
  | expression =>
    cases h
    exact written_none r _ _
  | searchPattern =>
    cases h
    show Written r _ _ (appendSlotFromSetregIf _ content (append || false))
    rw [Bool.or_false]
    exact written_searchPattern r _
  | commandLine =>
    cases h
    show Written r _ _ (appendSlotFromSetregIf _ content (append || false))
    rw [Bool.or_false]
    exact written_commandLine r _
  | insertContent =>
    cases h
    show Written r _ _ (appendSlotFromSetregIf _ content (append || false))
    rw [Bool.or_false]
    exact written_insertContent r _
  | selection _ => exact hset rfl h
  | alternateFile => exact hset rfl h
  | currentFile => exact hset rfl h

/-! ## Deletes -/

theorem shift_apply (numbered : Fin 10 → Option RegisterContent) (i : Fin 10) :
    shift numbered i = if 2 ≤ i then numbered (i - 1) else numbered i := by
  fin_cases i <;> rfl

/-- The numbered registers after a delete: the text, and behind it what was in `1` to `8`. -/
theorem delete_numbered (hbig : isSmall d = false) (i : Fin 10) :
    (r.delete d).numbered i = if i = 0 then r.numbered 0 else if i = 1 then some d
      else r.numbered (i - 1) := by
  rw [delete, hbig, if_neg Bool.false_ne_true]
  show Function.update (shift r.numbered) 1 (some d) i = _
  fin_cases i <;> rfl

theorem delete_unnamed (hbig : isSmall d = false) : (r.delete d).unnamedSlot = some d := by
  rw [delete, hbig, if_neg Bool.false_ne_true]
  rfl

theorem isSmall_eq_false (h : d.kind = .lineWise ∨ 1 < d.lines.length) : isSmall d = false := by
  rw [isSmall, Bool.and_eq_false_iff]
  rcases h with h | h
  · rw [h]
    exact .inl rfl
  · exact .inr (decide_eq_false (by omega))

end Registers

/-! ## Runs -/

/-- The operations on the bank. -/
inductive RegisterOp where
  | set (name : Char) (content : RegisterContent)
  | yank (content : RegisterContent)
  | yankTo (name : Char) (content : RegisterContent)
  | yankToWithClipboard (name : Char) (content : RegisterContent)
      (published : Except RegisterError Unit)
  | delete (content : RegisterContent)
  | deleteTo (name : Char) (content : RegisterContent)
  | setFromSetreg (name : Char) (content : RegisterContent) (append : Bool)
  | setUnnamedTarget (name : Char)

namespace RegisterOp

open Registers

def run : RegisterOp → Registers → Except RegisterError Registers
  | set name content, r => r.set name content
  | yank content, r => .ok (r.yank content)
  | yankTo name content, r => r.yankTo name content
  | yankToWithClipboard name content published, r => r.yankToWithClipboard name content published
  | delete content, r => .ok (r.delete content)
  | deleteTo name content, r => r.deleteTo name content
  | setFromSetreg name content append, r => r.setFromSetreg name content append
  | setUnnamedTarget name, r => .ok (r.setUnnamedTarget name)

/-- A failing operation has changed nothing. -/
def step (op : RegisterOp) (r : Registers) : Registers :=
  match op.run r with
  | .ok r' => r'
  | .error _ => r

def content? : RegisterOp → Option RegisterContent
  | set _ content | yank content | yankTo _ content | yankToWithClipboard _ content _ | delete content
  | deleteTo _ content | setFromSetreg _ content _ => some content
  | setUnnamedTarget _ => none

/-- The content comes from one of the constructors. -/
def Built (op : RegisterOp) : Prop := ∀ c, op.content? = some c → c.Built

/-- `setreg()` appends a block to wider rows. -/
def Narrow (op : RegisterOp) (r : Registers) : Prop :=
  ∃ name content append p existing, op = setFromSetreg name content append ∧
    tryFrom name = .ok p ∧ (append || p.appends) = true ∧ p.home.bind r.stored = some existing ∧
    existing.Narrow content

/-- A write to the name replaces what is in register `1`. -/
def writesFirst (name : Char) : Bool :=
  (tryFrom name).toOption.bind home = some (.numbered 1)

/-- A write to the name points the unnamed register. -/
def points (name : Char) : Bool :=
  ((tryFrom name).toOption.bind unnamedPointerName).isSome

/-- Behind a delete, the operation moves the unnamed register: it points it to a register, or replaces
what it reads in register `1`. -/
def Moves : RegisterOp → Bool
  | set name _ | setFromSetreg name _ _ => writesFirst name || tryFrom name = .ok .unnamed
  | yankTo name _ | deleteTo name _ | yankToWithClipboard name _ _ | setUnnamedTarget name => points name
  | yank _ | delete _ => true

end RegisterOp

/-- The unnamed register reads `d`, and goes on until an operation moves it. -/
def ReadsUntilMoved (d : RegisterContent) : Registers → List RegisterOp → Prop
  | r, [] => r.unnamedSlot = some d
  | r, op :: ops => r.unnamedSlot = some d ∧ (op.Moves = false → ReadsUntilMoved d (op.step r) ops)

/-- The numbered registers are the delete and what was in `1` to `8`. -/
def Rotated (d : RegisterContent) (r r' : Registers) : Prop :=
  r'.numbered 1 = some d ∧ ∀ i : Fin 10, 2 ≤ i → r'.numbered i = r.numbered (i - 1)

/-- In every state the contents are well formed, and every delete of lines rotates and is read. -/
def RightWrites : Registers → List RegisterOp → Prop
  | r, [] => r.Sound
  | r, op :: ops => r.Sound ∧
    (∀ d, op = .delete d → d.kind = .lineWise ∨ 1 < d.lines.length →
      Rotated d r (op.step r) ∧ ReadsUntilMoved d (op.step r) ops) ∧
    RightWrites (op.step r) ops

/-- No step appends a block to wider rows. -/
def NeverNarrow : Registers → List RegisterOp → Prop
  | _, [] => True
  | r, op :: ops => ¬op.Narrow r ∧ NeverNarrow (op.step r) ops

namespace Registers

variable {r r' : Registers} {name : Char} {p q : RegisterName} {c d : RegisterContent}

theorem new_sound : new.Sound := by
  rintro c (⟨q, hq, hstored⟩ | ⟨name, hsnapshot⟩)
  · cases q <;> cases hstored
  · cases hsnapshot

theorem Written.sound (h : Written r r' (p.home) (some c)) (hr : r.Sound) (hc : c.WellFormed) :
    r'.Sound := by
  rw [h.sound_iff hr fun q hq => home_home hq]
  rintro c' - ⟨⟩
  exact hc

theorem writeSlot_wellFormed {slot : Option RegisterContent} {append : Bool}
    (hslot : ∀ c, slot = some c → c.WellFormed) (hd : d.WellFormed) (hc : writeSlot slot d append = some c) :
    c.WellFormed := by
  cases slot with
  | none =>
    cases hc
    exact hd
  | some existing =>
    rw [writeSlot] at hc
    split at hc
    · cases hc
      exact (hslot existing rfl).append hd
    · cases hc
      exact hd

/-- What is stored at home is one of the contents. -/
theorem Sound.stored (hr : r.Sound) (hc : p.home.bind r.stored = some c) : c.WellFormed := by
  obtain ⟨q, hq, hstored⟩ := Option.bind_eq_some_iff.mp hc
  exact hr c (.inl ⟨q, home_home hq, hstored⟩)

theorem set_sound (hr : r.Sound) (hd : d.WellFormed) (h : r.set name d = .ok r') : r'.Sound := by
  cases hname : tryFrom name with
  | error error =>
    rw [set, hname] at h
    cases h
  | ok p =>
    rw [(set_written hname h).sound_iff hr fun q hq => home_home hq]
    intro c _ hc
    exact writeSlot_wellFormed (fun c hc => hr.stored hc) hd hc

theorem pointAt_sound (hr : r.Sound) (p : RegisterName) : (r.pointAt p).Sound := by
  have hsame : Written r (r.pointAt p) none none :=
    (⟨fun q _ => rfl, fun _ _ h => h⟩ : Written r r none none).pointAt p
  rw [hsame.sound_iff hr (by rintro q ⟨⟩)]
  rintro c ⟨⟩

theorem yankTo_sound (hr : r.Sound) (hd : d.WellFormed) (h : r.yankTo name d = .ok r') : r'.Sound := by
  obtain ⟨p, hname, h⟩ := EState.of_except_bind h
  split at h
  · cases h
    exact hr
  · obtain ⟨r₁, hset, h⟩ := EState.of_except_bind h
    cases h
    exact pointAt_sound (set_sound hr hd hset) p

theorem yankToWithClipboard_sound {published : Except RegisterError Unit} (hr : r.Sound)
    (hd : d.WellFormed) (h : r.yankToWithClipboard name d published = .ok r') : r'.Sound := by
  obtain ⟨p, hname, h⟩ := EState.of_except_bind h
  cases p with
  | selection selection =>
    obtain ⟨_, -, h⟩ := EState.of_except_bind h
    cases h
    rintro c (⟨q, hq, hstored⟩ | ⟨name', hsnapshot⟩)
    · refine hr c (.inl ⟨q, hq, ?_⟩)
      rw [← hstored]
      cases q <;> rfl
    · cases hsnapshot
      exact hd
  | _ => exact yankTo_sound hr hd h

theorem yank_sound (hr : r.Sound) (hd : d.WellFormed) : (r.yank d).Sound :=
  ((written_numbered r (some d) 0).point '0').sound (p := .numbered 0) hr hd

theorem delete_sound (hr : r.Sound) (hd : d.WellFormed) : (r.delete d).Sound := by
  cases hsmall : isSmall d with
  | true =>
    rw [delete, hsmall, if_pos rfl]
    exact ((written_smallDelete r (some d)).point '-').sound (p := .smallDelete) hr hd
  | false =>
    rintro c (⟨q, hq, hstored⟩ | ⟨name, hsnapshot⟩)
    · cases q with
      | numbered i =>
        have hc : (r.delete d).numbered i = some c := hstored
        rw [delete_numbered hsmall] at hc
        split at hc
        · exact hr c (.inl ⟨.numbered 0, rfl, hc⟩)
        split at hc
        · cases hc
          exact hd
        · exact hr c (.inl ⟨.numbered (i - 1), rfl, hc⟩)
      | _ =>
        refine hr c (.inl ⟨_, hq, ?_⟩)
        rw [← hstored, delete, hsmall, if_neg Bool.false_ne_true]
        rfl
    · rw [delete, hsmall, if_neg Bool.false_ne_true] at hsnapshot
      cases hsnapshot

theorem setUnnamedTarget_sound (hr : r.Sound) : (r.setUnnamedTarget name).Sound := by
  rw [setUnnamedTarget]
  cases tryFrom name with
  | ok p => exact pointAt_sound hr p
  | error error => exact hr

theorem setFromSetreg_sound_iff {append : Bool} (hr : r.Sound) (hd : d.WellFormed)
    (h : r.setFromSetreg name d append = .ok r') :
    r'.Sound ↔ ¬(RegisterOp.setFromSetreg name d append).Narrow r := by
  cases hname : tryFrom name with
  | error error =>
    rw [setFromSetreg, hname] at h
    cases h
  | ok p =>
    rw [(setFromSetreg_written hname h).sound_iff hr fun q hq => home_home hq]
    have hnarrow : (RegisterOp.setFromSetreg name d append).Narrow r ↔
        (append || p.appends) = true ∧ ∃ existing, p.home.bind r.stored = some existing ∧
          existing.Narrow d := by
      constructor
      · rintro ⟨name', content, append', p', existing, hop, hname', happend, hstored, h⟩
        cases hop
        rw [hname] at hname'
        cases hname'
        exact ⟨happend, existing, hstored, h⟩
      · rintro ⟨happend, existing, hstored, h⟩
        exact ⟨name, d, append, p, existing, rfl, hname, happend, hstored, h⟩
    rw [hnarrow, appendSlotFromSetregIf]
    cases happend : (append || p.appends) with
    | false =>
      rw [if_neg Bool.false_ne_true]
      refine iff_of_true ?_ (fun h => Bool.false_ne_true h.1)
      rintro c - ⟨⟩
      exact hd
    | true =>
      rw [if_pos rfl]
      cases hstored : p.home.bind r.stored with
      | none =>
        refine iff_of_true ?_ ?_
        · rintro c - ⟨⟩
          exact hd
        · rintro ⟨-, existing, ⟨⟩, -⟩
      | some existing =>
        obtain ⟨q, hq, -⟩ := Option.bind_eq_some_iff.mp hstored
        have hiff := appendFromSetreg_wellFormed_iff (hr.stored hstored) hd
        constructor
        · rintro hall ⟨-, existing', ⟨⟩, hnarrow⟩
          exact hiff.mp (hall _ (by rw [hq]; rfl) rfl) hnarrow
        · rintro hclear c - ⟨⟩
          exact hiff.mpr fun hnarrow => hclear ⟨rfl, existing, rfl, hnarrow⟩

end Registers

/-- The contents stay well formed exactly when no block is appended to wider rows. -/
theorem RegisterOp.step_sound_iff {r : Registers} {op : RegisterOp} (hr : r.Sound) (hbuilt : op.Built) :
    (op.step r).Sound ↔ ¬op.Narrow r := by
  have hkeep : (∀ name content append, op ≠ .setFromSetreg name content append) → ¬op.Narrow r := by
    rintro hne ⟨name, content, append, p, existing, hop, -⟩
    exact hne name content append hop
  rw [step]
  cases hrun : op.run r with
  | error error =>
    refine iff_of_true hr ?_
    rintro ⟨name, content, append, p, existing, rfl, hname, happend, hstored, -⟩
    -- a name that has a home is written
    rw [run, Registers.setFromSetreg, hname] at hrun
    cases p with
    | blackHole | expression | alternateFile | currentFile => cases hstored
    | selection _ => cases hstored
    | _ => cases hrun
  | ok r' =>
    have hd : ∀ d, op.content? = some d → d.WellFormed := fun d h => (hbuilt d h).wellFormed
    cases op with
    | set name d =>
      exact iff_of_true (Registers.set_sound hr (hd d rfl) hrun) (hkeep (by rintro _ _ _ ⟨⟩))
    | yank d =>
      cases hrun
      exact iff_of_true (Registers.yank_sound hr (hd d rfl)) (hkeep (by rintro _ _ _ ⟨⟩))
    | yankTo name d =>
      exact iff_of_true (Registers.yankTo_sound hr (hd d rfl) hrun) (hkeep (by rintro _ _ _ ⟨⟩))
    | yankToWithClipboard name d published =>
      exact iff_of_true (Registers.yankToWithClipboard_sound hr (hd d rfl) hrun)
        (hkeep (by rintro _ _ _ ⟨⟩))
    | delete d =>
      cases hrun
      exact iff_of_true (Registers.delete_sound hr (hd d rfl)) (hkeep (by rintro _ _ _ ⟨⟩))
    | deleteTo name d =>
      exact iff_of_true (Registers.yankTo_sound hr (hd d rfl) hrun) (hkeep (by rintro _ _ _ ⟨⟩))
    | setFromSetreg name d append => exact Registers.setFromSetreg_sound_iff hr (hd d rfl) hrun
    | setUnnamedTarget name =>
      cases hrun
      exact iff_of_true (Registers.setUnnamedTarget_sound hr) (hkeep (by rintro _ _ _ ⟨⟩))

namespace Registers

variable {r r' : Registers} {name : Char} {p : RegisterName} {d : RegisterContent} {op : RegisterOp}

/-- The unnamed register reads `d` in register `1`. -/
def ReadsFirst (d : RegisterContent) (r : Registers) : Prop :=
  r.unnamedTarget = some (.slot '1') ∧ r.numbered 1 = some d

theorem ReadsFirst.unnamedSlot (h : ReadsFirst d r) : r.unnamedSlot = some d := by
  rw [Registers.unnamedSlot, h.1]
  exact h.2

theorem delete_readsFirst (hbig : isSmall d = false) : ReadsFirst d (r.delete d) := by
  refine ⟨?_, ?_⟩
  · rw [delete, hbig, if_neg Bool.false_ne_true]
  · rw [delete_numbered hbig]
    rfl

theorem Written.numbered_one {value : Option RegisterContent} (h : Written r r' p.home value)
    (hp : p.home ≠ some (.numbered 1)) : r'.numbered 1 = r.numbered 1 :=
  (h.stored (.numbered 1) rfl).trans (if_neg hp)

theorem set_unnamedTarget {content : RegisterContent} (hname : tryFrom name = .ok p)
    (h : r.set name content = .ok r') (hp : p ≠ .unnamed) : r'.unnamedTarget = r.unnamedTarget := by
  rw [set, hname] at h
  cases p with
  | unnamed => exact absurd rfl hp
  | selection _ | alternateFile | currentFile => cases h
  | _ =>
    cases h
    rfl

theorem setFromSetreg_unnamedTarget {content : RegisterContent} {append : Bool}
    (hname : tryFrom name = .ok p) (h : r.setFromSetreg name content append = .ok r')
    (hp : p ≠ .unnamed) : r'.unnamedTarget = r.unnamedTarget := by
  rw [setFromSetreg, hname] at h
  cases p with
  | unnamed => exact absurd rfl hp
  | blackHole | selection _ | alternateFile | currentFile => exact set_unnamedTarget hname h hp
  | _ =>
    cases h
    rfl

/-- A name that points at nothing is not that of register `1`. -/
theorem home_of_not_points (h : p.unnamedPointerName = none) : p.home ≠ some (.numbered 1) := by
  cases p with
  | named _ _ | numbered _ | smallDelete | unnamed => cases h
  | selection selection => cases selection <;> cases h
  | _ => rintro ⟨⟩

theorem yankTo_readsFirst {content : RegisterContent} (hfirst : ReadsFirst d r)
    (hpoints : RegisterOp.points name = false) (h : r.yankTo name content = .ok r') : ReadsFirst d r' := by
  obtain ⟨p, hname, h⟩ := EState.of_except_bind h
  have hnone : p.unnamedPointerName = none := by
    rw [RegisterOp.points, hname] at hpoints
    exact Option.isSome_eq_false_iff.mp hpoints |> Option.isNone_iff_eq_none.mp
  split at h
  · cases h
    exact hfirst
  · obtain ⟨r₁, hset, h⟩ := EState.of_except_bind h
    have hunnamed : p ≠ .unnamed := by
      rintro rfl
      cases hnone
    rw [pointAt, hnone] at h
    cases h
    exact ⟨(set_unnamedTarget hname hset hunnamed).trans hfirst.1,
      ((set_written hname hset).numbered_one (home_of_not_points hnone)).trans hfirst.2⟩

theorem not_writesFirst (hname : tryFrom name = .ok p)
    (h : (RegisterOp.writesFirst name || decide (tryFrom name = .ok .unnamed)) = false) :
    p.home ≠ some (.numbered 1) ∧ p ≠ .unnamed := by
  obtain ⟨hfirst, hunnamed⟩ := Bool.or_eq_false_iff.mp h
  rw [RegisterOp.writesFirst, hname] at hfirst
  rw [hname] at hunnamed
  refine ⟨of_decide_eq_false hfirst, ?_⟩
  rintro rfl
  exact of_decide_eq_false hunnamed rfl

/-- Only an operation that moves the unnamed register changes what it reads after a delete. -/
theorem step_readsFirst (hfirst : ReadsFirst d r) (hstill : op.Moves = false) :
    ReadsFirst d (op.step r) := by
  rw [RegisterOp.step]
  cases hrun : op.run r with
  | error error => exact hfirst
  | ok r' =>
    cases op with
    | set name content =>
      cases hname : tryFrom name with
      | error error =>
        rw [RegisterOp.run, set, hname] at hrun
        cases hrun
      | ok p =>
        obtain ⟨hone, hunnamed⟩ := not_writesFirst hname hstill
        exact ⟨(set_unnamedTarget hname hrun hunnamed).trans hfirst.1,
          ((set_written hname hrun).numbered_one hone).trans hfirst.2⟩
    | setFromSetreg name content append =>
      cases hname : tryFrom name with
      | error error =>
        rw [RegisterOp.run, setFromSetreg, hname] at hrun
        cases hrun
      | ok p =>
        obtain ⟨hone, hunnamed⟩ := not_writesFirst hname hstill
        exact ⟨(setFromSetreg_unnamedTarget hname hrun hunnamed).trans hfirst.1,
          ((setFromSetreg_written hname hrun).numbered_one hone).trans hfirst.2⟩
    | yank content => cases hstill
    | delete content => cases hstill
    | yankTo name content => exact yankTo_readsFirst hfirst hstill hrun
    | deleteTo name content => exact yankTo_readsFirst hfirst hstill hrun
    | yankToWithClipboard name content published =>
      obtain ⟨p, hname, h⟩ := EState.of_except_bind hrun
      cases p with
      | selection selection =>
        rw [RegisterOp.Moves, RegisterOp.points, hname] at hstill
        cases selection <;> cases hstill
      | _ => exact yankTo_readsFirst hfirst hstill h
    | setUnnamedTarget name =>
      cases hrun
      rw [setUnnamedTarget]
      cases hname : tryFrom name with
      | error error => exact hfirst
      | ok p =>
        rw [RegisterOp.Moves, RegisterOp.points, hname] at hstill
        have hnone : p.unnamedPointerName = none :=
          Option.isNone_iff_eq_none.mp (Option.isSome_eq_false_iff.mp hstill)
        show ReadsFirst d (r.pointAt p)
        rw [pointAt, hnone]
        exact hfirst

theorem ReadsFirst.readsUntilMoved (ops : List RegisterOp) (h : ReadsFirst d r) :
    ReadsUntilMoved d r ops := by
  induction ops generalizing r with
  | nil => exact h.unnamedSlot
  | cons op ops ih => exact ⟨h.unnamedSlot, fun hstill => ih (step_readsFirst h hstill)⟩

theorem delete_rotated (hbig : isSmall d = false) : Rotated d r (r.delete d) := by
  refine ⟨delete_numbered hbig 1, ?_⟩
  intro i hi
  rw [delete_numbered hbig, if_neg, if_neg]
  · rintro rfl
    exact absurd hi (by decide)
  · rintro rfl
    exact absurd hi (by decide)

end Registers

open Registers

variable {r : Registers}

theorem RightWrites.sound {ops : List RegisterOp} (h : RightWrites r ops) : r.Sound := by
  cases ops with
  | nil => exact h
  | cons op ops => exact h.1

theorem RightWrites.runs (ops : List RegisterOp) (hr : r.Sound) (hbuilt : ∀ op ∈ ops, op.Built) :
    RightWrites r ops ↔ NeverNarrow r ops := by
  induction ops generalizing r with
  | nil => exact iff_of_true hr trivial
  | cons op ops ih =>
    have hstep := RegisterOp.step_sound_iff hr (hbuilt op List.mem_cons_self)
    have hrest : ∀ op' ∈ ops, op'.Built := fun op' h => hbuilt op' (List.mem_cons_of_mem _ h)
    constructor
    · rintro ⟨-, -, hright⟩
      exact ⟨hstep.mp hright.sound, (ih hright.sound hrest).mp hright⟩
    · rintro ⟨hclear, hnever⟩
      have hsound := hstep.mpr hclear
      refine ⟨hr, ?_, (ih hsound hrest).mpr hnever⟩
      rintro d rfl hlines
      have hbig := isSmall_eq_false hlines
      exact ⟨delete_rotated hbig, (delete_readsFirst hbig).readsUntilMoved ops⟩

/-- **In every run from the empty bank, contents stay well formed, deletes of lines rotate the numbered
registers and are read until the unnamed register moves, exactly when no step appends a block by
`setreg()` to rows wider than it.** -/
theorem rightWrites_iff (ops : List RegisterOp) (hbuilt : ∀ op ∈ ops, op.Built) :
    RightWrites .new ops ↔ NeverNarrow .new ops :=
  RightWrites.runs ops new_sound hbuilt

/-- A word is stored in `a`, and a block of one column is appended to it. -/
def narrowRun : List RegisterOp :=
  [.set 'a' ⟨.characterWise, [[97, 98, 99]]⟩, .setFromSetreg 'a' ⟨.blockWise 1, [[100]]⟩ true]

theorem narrowRun_built : ∀ op ∈ narrowRun, op.Built := by
  intro op hop
  rcases List.mem_cons.mp hop with rfl | hop
  · rintro c ⟨⟩
    exact .inl ⟨.characterWise, [[97, 98, 99]], by decide⟩
  · obtain rfl := List.mem_singleton.mp hop
    rintro c ⟨⟩
    exact .inl ⟨.blockWise 1, [[100]], by decide⟩

theorem rightWrites_iff_narrowRun : RightWrites .new narrowRun ↔ NeverNarrow .new narrowRun :=
  rightWrites_iff narrowRun narrowRun_built

/-- Register `a` holds a block of width one whose row has four bytes. -/
theorem not_rightWrites_narrowRun : ¬RightWrites .new narrowRun := by
  rintro ⟨-, -, -, -, hsound⟩
  have hstored := hsound ⟨.blockWise 1, [[97, 98, 99, 100]]⟩ (.inl ⟨.named 0 false, rfl, by decide⟩)
  have hshort := hstored.wide.2 [97, 98, 99, 100] (List.mem_singleton.mpr rfl)
  exact absurd hshort (by decide)

end Oxvim.Editor
