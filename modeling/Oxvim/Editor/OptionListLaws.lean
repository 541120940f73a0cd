import Oxvim.Editor.OptionList

/-!
# The arithmetic of list options

What `:set` does to a list option, told by items: the value and the operand are lists of items, the
empty string the empty list, and an operator adds, prepends or removes the items of the operand.
-/

namespace Oxvim.Editor.OptionList

open Lib

/-! ## Items of a value -/

/-- The items of a value. The empty string has none. -/
def itemsOf (value : Text) : List Text := if value = [] then [] else commaItems value

/-- What stands before the first unescaped colon of an item. -/
def nameOf (item : Text) : Option Text := (findUnescaped item ':').map item.take

/-- The items are equal or, where items have names, have one name. -/
def Alike (kind : OptionListKind) (a b : Text) : Prop :=
  a = b ∨ kind.colon = true ∧ (nameOf a).isSome ∧ nameOf a = nameOf b

instance (kind : OptionListKind) : DecidableRel (Alike kind) :=
  fun _ _ => inferInstanceAs (Decidable (_ ∨ _))

/-- A value that the laws are about: it is valid, and its items are not empty, distinct, and do not
end in an unescaped backslash. -/
structure Acceptable (kind : OptionListKind) (value : Text) : Prop where
  valid : validateList kind value = .ok ()
  nonempty : ∀ item ∈ itemsOf value, item ≠ []
  closed : ∀ item ∈ itemsOf value, Escaped.pending '\\' false item = false
  distinct : (itemsOf value).Pairwise fun a b => ¬Alike kind a b

/-! ## What the operators are for -/

/-- The items that no item of the operand is like. -/
def keep (kind : OptionListKind) (items operand : List Text) : List Text :=
  items.filter fun item => ∀ other ∈ operand, ¬Alike kind item other

/-- The items to which the operand's are added. -/
def baseItems (kind : OptionListKind) (items operand : List Text) : List Text :=
  if kind.colon then keep kind items operand else items

/-- The operand's items that are not among those. -/
def freshItems (kind : OptionListKind) (items operand : List Text) : List Text :=
  operand.filter fun item => !(baseItems kind items operand).contains item

def baseOf (kind : OptionListKind) (value operand : Text) : List Text :=
  baseItems kind (itemsOf value) (itemsOf operand)

def freshOf (kind : OptionListKind) (value operand : Text) : List Text :=
  freshItems kind (itemsOf value) (itemsOf operand)

/-- An operator yields a valid value with the given items. -/
def Yields (kind : OptionListKind) (value operand : Text) (operator : Operator) (items : List Text) :
    Prop :=
  ∃ result, modifyOption (.string value) (.string operand) operator (some kind)
      = .ok (.string result) ∧ itemsOf result = items ∧ validateList kind result = .ok ()

/-- The laws of the three operators. -/
structure Laws (kind : OptionListKind) (value operand : Text) : Prop where
  add : Yields kind value operand .add (baseOf kind value operand ++ freshOf kind value operand)
  prepend : Yields kind value operand .prepend
    (freshOf kind value operand ++ baseOf kind value operand)
  remove : Yields kind value operand .remove (keep kind (itemsOf value) (itemsOf operand))
  undo : (∀ a ∈ itemsOf value, ∀ b ∈ itemsOf operand, ¬Alike kind a b) →
    ∃ result, modifyOption (.string value) (.string operand) .add (some kind)
        = .ok (.string result) ∧
      modifyOption (.string result) (.string operand) .remove (some kind) = .ok (.string value)

/-- The operand adds nothing, or it adds at most one item to a value that is not the empty string of
a kind that takes it for an empty item. -/
def AddsOne (kind : OptionListKind) (value operand : Text) : Prop :=
  operand = [] ∨
    (value ≠ [] ∨ kind.rejectEmpty = true) ∧ (freshOf kind value operand).length ≤ 1

/-! ## Splitting and joining -/

theorem escapedAfter_eq (escaped : Bool) (character : Char) :
    escapedAfter escaped character = Escaped.after '\\' escaped character := by
  unfold escapedAfter Escaped.after
  split_ifs with h <;> simp [h]

theorem split_of_nextItem {escaped : Bool} {text item : Text} {rest : Option Text}
    (h : nextItem escaped text = (item, rest)) :
    Escaped.split ',' '\\' escaped text
      = item :: rest.elim [] (Escaped.split ',' '\\' false) := by
  induction text generalizing escaped item with
  | nil =>
    obtain ⟨rfl, rfl⟩ := Prod.mk.inj h
    rfl
  | cons character text ih =>
    rw [nextItem] at h
    rw [Escaped.split, ← escapedAfter_eq]
    split_ifs at h ⊢ with hcomma
    · obtain ⟨rfl, rfl⟩ := Prod.mk.inj h
      rfl
    · obtain ⟨rfl, hrest⟩ := Prod.mk.inj h
      rw [ih (Prod.ext rfl hrest)]
      rfl

theorem commaItems_eq (text : Text) : commaItems text = Escaped.split ',' '\\' false text := by
  fun_induction commaItems text with
  | case1 text item h => exact (split_of_nextItem h).symm
  | case2 text item rest h ih =>
    rw [split_of_nextItem h, ih]
    rfl

theorem itemsOf_of_ne {value : Text} (h : value ≠ []) :
    itemsOf value = Escaped.split ',' '\\' false value := by
  rw [itemsOf, if_neg h, commaItems_eq]

@[simp] theorem itemsOf_nil : itemsOf [] = [] := if_pos rfl

theorem itemsOf_eq_nil {value : Text} : itemsOf value = [] ↔ value = [] := by
  constructor
  · intro h
    by_contra hne
    obtain ⟨head, tail, hsplit, _⟩ := Escaped.exists_parts ',' '\\' false value
    rw [itemsOf_of_ne hne, hsplit] at h
    cases h
  · rintro rfl
    exact itemsOf_nil

/-- Joining the items gives back the value. -/
theorem intercalate_itemsOf (value : Text) : [','].intercalate (itemsOf value) = value := by
  by_cases h : value = []
  · rw [h]
    rfl
  · rw [itemsOf_of_ne h, Escaped.intercalate_split]

theorem whole_of_mem {value item : Text} (h : item ∈ itemsOf value) :
    Escaped.Whole ',' '\\' false item := by
  by_cases hne : value = []
  · rw [hne, itemsOf_nil] at h
    exact absurd h List.not_mem_nil
  · rw [itemsOf_of_ne hne] at h
    exact Escaped.whole_of_mem_split h

/-- Items that can be joined and read again. -/
structure Joinable (items : List Text) : Prop where
  whole : ∀ item ∈ items, Escaped.Whole ',' '\\' false item
  closed : ∀ item ∈ items, Escaped.pending '\\' false item = false

variable {items : List Text}

theorem Joinable.split (h : Joinable items) (hne : items ≠ []) :
    commaItems ([','].intercalate items) = items := by
  rw [commaItems_eq, Escaped.split_intercalate hne h.whole h.closed]

theorem intercalate_ne_nil {items : List Text} (hne : items ≠ [])
    (hnonempty : ∀ item ∈ items, item ≠ []) : [','].intercalate items ≠ [] := by
  cases items with
  | nil => exact absurd rfl hne
  | cons item items =>
    have hitem := hnonempty item List.mem_cons_self
    cases items <;> simp [hitem]

theorem Joinable.itemsOf (h : Joinable items) (hnonempty : ∀ item ∈ items, item ≠ []) :
    itemsOf ([','].intercalate items) = items := by
  by_cases hne : items = []
  · rw [hne]
    rfl
  · rw [OptionList.itemsOf, if_neg (intercalate_ne_nil hne hnonempty), h.split hne]

/-! ## Names -/

/-- What is found does not depend on what follows. -/
theorem exists_split_of_findUnescapedFrom {needle : Char} {escaped : Bool} {value : Text} {k : Nat}
    (h : findUnescapedFrom needle escaped value = some k) :
    ∃ before behind, value = before ++ needle :: behind ∧ before.length = k ∧
      ∀ other, findUnescapedFrom needle escaped (before ++ needle :: other) = some k := by
  induction value generalizing escaped k with
  | nil => cases h
  | cons character value ih =>
    rw [findUnescapedFrom] at h
    split_ifs at h with hfound
    · obtain ⟨rfl, rfl⟩ := hfound
      obtain rfl := Option.some.inj h
      refine ⟨[], value, rfl, rfl, fun other => ?_⟩
      rw [List.nil_append, findUnescapedFrom, if_pos ⟨rfl, rfl⟩]
    · obtain ⟨j, hj, rfl⟩ := Option.map_eq_some_iff.mp h
      obtain ⟨before, behind, rfl, rfl, hother⟩ := ih hj
      refine ⟨character :: before, behind, rfl, rfl, fun other => ?_⟩
      rw [List.cons_append, findUnescapedFrom, if_neg hfound, hother]
      rfl

/-- An item with a name is the name, a colon, and the rest. -/
theorem nameOf_eq_some {item name : Text} (h : nameOf item = some name) :
    ∃ behind, item = name ++ ':' :: behind ∧ findUnescaped item ':' = some name.length ∧
      ∀ other, nameOf (name ++ ':' :: other) = some name := by
  obtain ⟨k, hk, rfl⟩ := Option.map_eq_some_iff.mp h
  obtain ⟨before, behind, rfl, rfl, hother⟩ := exists_split_of_findUnescapedFrom hk
  rw [List.take_left]
  refine ⟨behind, rfl, hk, fun other => ?_⟩
  rw [nameOf, findUnescaped, hother, Option.map_some, List.take_left]

/-- The items that the source matches with an operand's are the ones that are like it. -/
theorem itemMatches_iff (kind : OptionListKind) (operand item : Text) :
    itemMatches kind.colon operand item = true ↔ Alike kind item operand := by
  unfold itemMatches Alike
  cases hcolon : kind.colon with
  | false => simp
  | true =>
    simp only [if_true, true_and]
    cases hfind : findUnescaped operand ':' with
    | none =>
      have hname : nameOf operand = none := by rw [nameOf, hfind]; rfl
      simp only [hname, decide_eq_true_eq]
      constructor
      · exact .inl
      · rintro (heq | ⟨hsome, hnone⟩)
        · exact heq
        · rw [hnone] at hsome
          cases hsome
    | some k =>
      have hname : nameOf operand = some (operand.take k) := by rw [nameOf, hfind]; rfl
      obtain ⟨behind, hoperand, hlength, hother⟩ := nameOf_eq_some hname
      have hk : (operand.take k).length = k := Option.some.inj (hlength.symm.trans hfind)
      have htake : operand.take (k + 1) = operand.take k ++ [':'] := by
        conv_lhs => rw [hoperand]
        rw [List.take_append, hk, List.take_of_length_le (by omega)]
        simp
      simp only [hname, decide_eq_true_eq]
      constructor
      · intro hitem
        have hsplit : item = operand.take k ++ ':' :: item.drop (k + 1) := by
          conv_lhs => rw [← List.take_append_drop (k + 1) item, hitem, htake]
          simp
        have hitemName : nameOf item = some (operand.take k) := by
          rw [hsplit]
          exact hother _
        exact .inr ⟨by rw [hitemName]; rfl, hitemName⟩
      · rintro (heq | ⟨_, heq⟩)
        · rw [heq]
        · obtain ⟨rest, hitem, _⟩ := nameOf_eq_some heq
          rw [htake, hitem, List.take_append, hk, List.take_of_length_le (by omega)]
          simp

theorem Alike.symm {kind : OptionListKind} {a b : Text} (h : Alike kind a b) : Alike kind b a := by
  rcases h with heq | ⟨hcolon, hsome, hname⟩
  · exact .inl heq.symm
  · exact .inr ⟨hcolon, hname ▸ hsome, hname.symm⟩

/-- The empty item is like no other. -/
theorem not_alike_nil {kind : OptionListKind} {item : Text} (hne : item ≠ []) :
    ¬Alike kind [] item := by
  rintro (heq | ⟨_, hsome, _⟩)
  · exact hne heq.symm
  · cases hsome

/-! ## Editing item by item -/

section Edits

variable {kind : OptionListKind} {operand : List Text}

theorem editItems_remove (items : List Text) (item : Text) :
    editItems .remove kind.colon items item = items.filter fun other => ¬Alike kind other item := by
  unfold editItems
  apply List.filter_congr
  intro other _
  simp [← itemMatches_iff]

theorem keep_append (items : List Text) (item : Text) :
    keep kind items (operand ++ [item])
      = (keep kind items operand).filter fun other => ¬Alike kind other item := by
  rw [keep, keep, List.filter_filter]
  apply List.filter_congr
  intro other _
  simp only [List.mem_append, List.mem_singleton, or_imp, forall_and, forall_eq, decide_not,
    Bool.decide_and, Bool.and_comm]

/-- Removing item by item keeps what no item of the operand is like. -/
theorem foldl_remove (items : List Text) :
    operand.foldl (editItems .remove kind.colon) items = keep kind items operand := by
  induction operand using List.reverseRecOn with
  | nil => exact (List.filter_eq_self.mpr (by simp)).symm
  | append_singleton operand item ih =>
    rw [List.foldl_append, ih, keep_append]
    exact editItems_remove _ item

theorem mem_keep {items : List Text} {item : Text} :
    item ∈ keep kind items operand ↔ item ∈ items ∧ ∀ other ∈ operand, ¬Alike kind item other := by
  rw [keep, List.mem_filter, decide_eq_true_eq]

theorem mem_of_mem_base {items : List Text} {item : Text} (h : item ∈ baseItems kind items operand) :
    item ∈ items := by
  rw [baseItems] at h
  split_ifs at h
  · exact (mem_keep.mp h).1
  · exact h

theorem mem_freshItems {items : List Text} {item : Text} :
    item ∈ freshItems kind items operand ↔ item ∈ operand ∧ item ∉ baseItems kind items operand := by
  simp [freshItems]

theorem freshItems_eq_self {items : List Text}
    (h : ∀ item ∈ operand, item ∉ baseItems kind items operand) :
    freshItems kind items operand = operand :=
  List.filter_eq_self.mpr fun item hitem => by simp [h item hitem]

/-- Where items have names, all items of the operand are new behind what they remove. -/
theorem freshItems_of_colon (hcolon : kind.colon = true) (items : List Text) :
    freshItems kind items operand = operand := by
  refine freshItems_eq_self fun item hitem hmem => ?_
  rw [baseItems, if_pos hcolon] at hmem
  exact (mem_keep.mp hmem).2 item hitem (.inl rfl)

/-- What an added item does to a list: it comes last, and what is like it may go. -/
theorem editItems_add (items : List Text) (item : Text) :
    editItems .add kind.colon items item =
      if kind.colon then (items.filter fun other => ¬Alike kind other item) ++ [item]
      else if item ∈ items then items else items ++ [item] := by
  have hkept : (items.filter fun other => !itemMatches kind.colon item other)
      = items.filter fun other => ¬Alike kind other item := editItems_remove items item
  unfold editItems
  rw [hkept]
  cases kind.colon with
  | false => rfl
  | true =>
    simp only [if_true]
    refine if_neg fun hmem => ?_
    exact of_decide_eq_true (List.mem_filter.mp hmem).2 (.inl rfl)

theorem editItems_prepend (items : List Text) (item : Text) :
    editItems .prepend kind.colon items item =
      if kind.colon then item :: items.filter fun other => ¬Alike kind other item
      else if item ∈ items then items else item :: items := by
  have hkept : (items.filter fun other => !itemMatches kind.colon item other)
      = items.filter fun other => ¬Alike kind other item := editItems_remove items item
  unfold editItems
  rw [hkept]
  cases kind.colon with
  | false => rfl
  | true =>
    simp only [if_true]
    refine if_neg fun hmem => ?_
    exact of_decide_eq_true (List.mem_filter.mp hmem).2 (.inl rfl)

/-- One more item of the operand, where items have names. -/
theorem filter_base_of_colon (hcolon : kind.colon = true) (items : List Text) (item : Text) :
    (baseItems kind items operand).filter (fun other => ¬Alike kind other item)
      = baseItems kind items (operand ++ [item]) := by
  rw [baseItems, baseItems, if_pos hcolon, if_pos hcolon, keep_append]

theorem filter_operand {item : Text} (h : ∀ other ∈ operand, ¬Alike kind other item) :
    operand.filter (fun other => ¬Alike kind other item) = operand :=
  List.filter_eq_self.mpr fun other hother => decide_eq_true (h other hother)

/-- One more item of the operand, where items have no names. -/
theorem freshItems_append (hcolon : kind.colon = false) (items : List Text) (item : Text) :
    freshItems kind items (operand ++ [item])
      = freshItems kind items operand ++ if item ∈ items then [] else [item] := by
  simp only [freshItems, baseItems, hcolon, Bool.false_eq_true, if_false, List.filter_append]
  congr 1
  by_cases hmem : item ∈ items <;> simp [hmem]

theorem not_mem_fresh {items : List Text} {item : Text}
    (h : ∀ other ∈ operand, ¬Alike kind other item) :
    item ∉ freshItems kind items operand := by
  intro hmem
  exact h item (List.mem_of_mem_filter hmem) (.inl rfl)

/-- Adding item by item. -/
theorem foldl_add (items : List Text) (hdistinct : operand.Pairwise fun a b => ¬Alike kind a b) :
    operand.foldl (editItems .add kind.colon) items
      = baseItems kind items operand ++ freshItems kind items operand := by
  induction operand using List.reverseRecOn with
  | nil =>
    have hkeep : keep kind items [] = items := List.filter_eq_self.mpr (by simp)
    simp [baseItems, freshItems, hkeep]
  | append_singleton operand item ih =>
    obtain ⟨hbefore, _, hlast⟩ := List.pairwise_append.mp hdistinct
    have hitem : ∀ other ∈ operand, ¬Alike kind other item :=
      fun other hother => hlast other hother item List.mem_cons_self
    rw [List.foldl_append, ih hbefore, List.foldl_cons, List.foldl_nil, editItems_add]
    by_cases hcolon : kind.colon = true
    · rw [if_pos hcolon, freshItems_of_colon hcolon, freshItems_of_colon hcolon, List.filter_append,
        filter_base_of_colon hcolon, filter_operand hitem, List.append_assoc]
    · have hfalse := Bool.eq_false_of_not_eq_true hcolon
      have hbase : ∀ other, baseItems kind items other = items := fun _ => if_neg hcolon
      rw [if_neg hcolon, freshItems_append hfalse, hbase, hbase]
      by_cases hmem : item ∈ items
      · rw [if_pos (List.mem_append_left _ hmem), if_pos hmem, List.append_nil]
      · rw [if_neg, if_neg hmem, List.append_assoc]
        exact fun h => (List.mem_append.mp h).elim hmem (not_mem_fresh hitem)

/-- Prepending item by item turns the new items round. -/
theorem foldl_prepend (items : List Text) (hdistinct : operand.Pairwise fun a b => ¬Alike kind a b) :
    operand.foldl (editItems .prepend kind.colon) items
      = (freshItems kind items operand).reverse ++ baseItems kind items operand := by
  induction operand using List.reverseRecOn with
  | nil =>
    have hkeep : keep kind items [] = items := List.filter_eq_self.mpr (by simp)
    simp [baseItems, freshItems, hkeep]
  | append_singleton operand item ih =>
    obtain ⟨hbefore, _, hlast⟩ := List.pairwise_append.mp hdistinct
    have hitem : ∀ other ∈ operand, ¬Alike kind other item :=
      fun other hother => hlast other hother item List.mem_cons_self
    rw [List.foldl_append, ih hbefore, List.foldl_cons, List.foldl_nil, editItems_prepend]
    by_cases hcolon : kind.colon = true
    · rw [if_pos hcolon, freshItems_of_colon hcolon, freshItems_of_colon hcolon, List.filter_append,
        filter_base_of_colon hcolon, List.filter_reverse, filter_operand hitem, List.reverse_append]
      rfl
    · have hfalse := Bool.eq_false_of_not_eq_true hcolon
      have hbase : ∀ other, baseItems kind items other = items := fun _ => if_neg hcolon
      rw [if_neg hcolon, freshItems_append hfalse, hbase, hbase]
      by_cases hmem : item ∈ items
      · rw [if_pos (List.mem_append_right _ hmem), if_pos hmem, List.append_nil]
      · rw [if_neg, if_neg hmem, List.reverse_append]
        · rfl
        · intro h
          rcases List.mem_append.mp h with h | h
          · exact not_mem_fresh hitem (List.mem_reverse.mp h)
          · exact hmem h

end Edits

/-! ## Valid values -/

/-- What validation asks of a single item. -/
structure ItemValid (kind : OptionListKind) (item : Text) : Prop where
  flag : kind = .flagsComma → item.length = 1
  colon : kind.colon = true → validateColonItem item = .ok ()

theorem validateItems_eq_ok {rejectEmpty checkColon : Bool} {value : Text} {items : List Text} :
    validateItems rejectEmpty checkColon value items = .ok () ↔
      ∀ item ∈ items, ¬(rejectEmpty = true ∧ value ≠ [] ∧ item = []) ∧
        (checkColon = true → item ≠ [] → validateColonItem item = .ok ()) := by
  induction items with
  | nil => simp [validateItems]
  | cons item items ih =>
    rw [validateItems, List.forall_mem_cons, ← ih]
    by_cases hempty : rejectEmpty = true ∧ value ≠ [] ∧ item = []
    · simp [hempty]
    · rw [if_neg hempty, and_iff_right hempty]
      by_cases hcolon : checkColon = true ∧ item ≠ []
      · rw [if_pos hcolon]
        cases hvalid : validateColonItem item with
        | error error => simp [hcolon, bind, Except.bind]
        | ok done => simp [hcolon, bind, Except.bind]
      · have hvacuous : checkColon = true → item ≠ [] → validateColonItem item = .ok () :=
          fun h h' => absurd ⟨h, h'⟩ hcolon
        rw [if_neg hcolon, and_iff_right hvacuous]

theorem validateCommaFlags_eq_ok {value : Text} (hne : value ≠ []) :
    validateCommaFlags value = .ok () ↔
      (∀ item ∈ commaItems value, item.length = 1) ∧ (commaItems value).Nodup := by
  have hdup : hasDuplicateItems value = true ↔ ¬(commaItems value).Nodup := by
    simp [hasDuplicateItems]
  have hany : (commaItems value).any (fun item => item.length ≠ 1) = true ↔
      ¬∀ item ∈ commaItems value, item.length = 1 := by
    simp
  rw [validateCommaFlags, if_neg hne]
  by_cases hlength : ∀ item ∈ commaItems value, item.length = 1
  · rw [if_neg (fun h => hany.mp h hlength), and_iff_right hlength]
    by_cases hnodup : (commaItems value).Nodup
    · rw [if_neg (fun h => hdup.mp h hnodup)]
      exact iff_of_true rfl hnodup
    · rw [if_pos (hdup.mpr hnodup)]
      exact iff_of_false (fun h => by cases h) hnodup
  · rw [if_pos (hany.mpr hlength)]
    exact iff_of_false (fun h => by cases h) (fun h => hlength h.1)

theorem validateList_nil {kind : OptionListKind} (hcomma : kind.isComma = true) :
    validateList kind [] = .ok () := by
  have hitems : commaItems [] = [[]] := by
    rw [commaItems_eq]
    rfl
  cases kind <;> first
    | exact Bool.noConfusion hcomma
    | simp [validateList, validateCommaFlags, validateItems_eq_ok, hitems]

/-- Validation of a value with items, item by item. -/
theorem validateList_eq_ok {kind : OptionListKind} (hcomma : kind.isComma = true) {value : Text}
    (hne : value ≠ []) (hnonempty : ∀ item ∈ commaItems value, item ≠ []) :
    validateList kind value = .ok () ↔
      (∀ item ∈ commaItems value, ItemValid kind item) ∧
        (kind = .flagsComma → (commaItems value).Nodup) := by
  have hitems : ∀ rejectEmpty checkColon : Bool,
      validateItems rejectEmpty checkColon value (commaItems value) = .ok () ↔
        ∀ item ∈ commaItems value, checkColon = true → validateColonItem item = .ok () := by
    intro rejectEmpty checkColon
    rw [validateItems_eq_ok]
    constructor
    · exact fun h item hitem hcheck => (h item hitem).2 hcheck (hnonempty item hitem)
    · exact fun h item hitem => ⟨fun hempty => hnonempty item hitem hempty.2.2,
        fun hcheck _ => h item hitem hcheck⟩
  have hvalid : kind ≠ .flagsComma → ∀ item, ItemValid kind item ↔
      (kind.colon = true → validateColonItem item = .ok ()) :=
    fun hkind item => ⟨fun h => h.colon, fun h => ⟨fun heq => absurd heq hkind, h⟩⟩
  cases kind with
  | flags => exact Bool.noConfusion hcomma
  | flagsComma =>
    have hflag : ∀ item, ItemValid .flagsComma item ↔ item.length = 1 :=
      fun item => ⟨fun h => h.flag rfl, fun h => ⟨fun _ => h, fun hcolon => Bool.noConfusion hcolon⟩⟩
    simp only [validateList, validateCommaFlags_eq_ok hne, hflag, true_implies]
  | _ => simp [validateList, hitems, hvalid]

theorem Acceptable.itemValid {kind : OptionListKind} {value item : Text}
    (h : Acceptable kind value) (hcomma : kind.isComma = true) (hitem : item ∈ itemsOf value) :
    ItemValid kind item := by
  have hne : value ≠ [] := by
    rintro rfl
    rw [itemsOf_nil] at hitem
    exact absurd hitem List.not_mem_nil
  have hitems : itemsOf value = commaItems value := if_neg hne
  have hnonempty := h.nonempty
  rw [hitems] at hitem hnonempty
  exact ((validateList_eq_ok hcomma hne hnonempty).mp h.valid).1 item hitem

/-! ## What an edit yields -/

/-- Items that make up a value the laws are about. -/
structure GoodItems (kind : OptionListKind) (items : List Text) : Prop extends Joinable items where
  nonempty : ∀ item ∈ items, item ≠ []
  valid : ∀ item ∈ items, ItemValid kind item
  nodup : items.Nodup

theorem GoodItems.validateList {kind : OptionListKind} (hcomma : kind.isComma = true)
    {items : List Text} (h : GoodItems kind items) :
    validateList kind ([','].intercalate items) = .ok () := by
  by_cases hne : items = []
  · rw [hne]
    exact validateList_nil hcomma
  · have hvalue := intercalate_ne_nil hne h.nonempty
    have hsplit := h.toJoinable.split hne
    rw [validateList_eq_ok hcomma hvalue (by rw [hsplit]; exact h.nonempty), hsplit]
    exact ⟨h.valid, fun _ => h.nodup⟩

theorem Acceptable.nodup {kind : OptionListKind} {value : Text} (h : Acceptable kind value) :
    (itemsOf value).Nodup :=
  h.distinct.imp fun hnot heq => hnot (.inl heq)

/-- Items of two acceptable values are good items, if they are distinct. -/
theorem goodItems_of_mem {kind : OptionListKind} {value operand : Text} {items : List Text}
    (hcomma : kind.isComma = true) (hvalue : Acceptable kind value)
    (hoperand : Acceptable kind operand)
    (hmem : ∀ item ∈ items, item ∈ itemsOf value ∨ item ∈ itemsOf operand) (hnodup : items.Nodup) :
    GoodItems kind items where
  whole := fun item hitem => (hmem item hitem).elim whole_of_mem whole_of_mem
  closed := fun item hitem => (hmem item hitem).elim (hvalue.closed item) (hoperand.closed item)
  nonempty := fun item hitem =>
    (hmem item hitem).elim (hvalue.nonempty item) (hoperand.nonempty item)
  valid := fun item hitem =>
    (hmem item hitem).elim (hvalue.itemValid hcomma) (hoperand.itemValid hcomma)
  nodup := hnodup

theorem modifyOption_eq {kind : OptionListKind} (hcomma : kind.isComma = true) (value operand : Text)
    (operator : Operator) :
    modifyOption (.string value) (.string operand) operator (some kind)
      = .ok (.string (modifyCommaList value operand operator kind)) := by
  have hfilter : (some kind).filter OptionListKind.isComma = some kind := by
    simp [Option.filter, hcomma]
  simp only [modifyOption, hfilter]

/-- What is edited: the items of the value, where they are read as a list. -/
theorem modifyCommaList_eq {kind : OptionListKind} {value operand : Text}
    (hnonempty : ∀ item ∈ itemsOf value, item ≠ []) (hstart : value ≠ [] ∨ kind.rejectEmpty = true)
    (hne : operand ≠ []) (operator : Operator) :
    modifyCommaList value operand operator kind
      = [','].intercalate
          ((itemsOf operand).foldl (editItems operator kind.colon) (itemsOf value)) := by
  have hitems : (commaItems value).filter (fun item => !kind.rejectEmpty || item ≠ [])
      = itemsOf value := by
    by_cases hnil : value = []
    · have hreject : kind.rejectEmpty = true := hstart.resolve_left (fun h => h hnil)
      rw [hnil, itemsOf_nil, hreject, commaItems_eq]
      rfl
    · have hsplit : itemsOf value = commaItems value := if_neg hnil
      rw [hsplit] at hnonempty ⊢
      exact List.filter_eq_self.mpr fun item hitem => by simp [hnonempty item hitem]
  have hoperand : itemsOf operand = commaItems operand := if_neg hne
  rw [modifyCommaList, if_neg hne, hoperand, ← hitems]

section Laws

variable {kind : OptionListKind} {value operand : Text} {items : List Text} {operator : Operator}

/-- An operator that leaves good items yields them. -/
theorem yields_iff (hcomma : kind.isComma = true) (hgood : GoodItems kind items)
    (hresult : modifyCommaList value operand operator kind = [','].intercalate items)
    (wanted : List Text) : Yields kind value operand operator wanted ↔ items = wanted := by
  have hitems : itemsOf ([','].intercalate items) = items :=
    hgood.toJoinable.itemsOf hgood.nonempty
  have hmodify : modifyOption (.string value) (.string operand) operator (some kind)
      = .ok (.string ([','].intercalate items)) := by
    rw [modifyOption_eq hcomma, hresult]
  constructor
  · rintro ⟨result, heq, hwanted, _⟩
    rw [hmodify] at heq
    obtain rfl := OptionValue.string.inj (Except.ok.inj heq)
    exact hitems.symm.trans hwanted
  · rintro rfl
    exact ⟨_, hmodify, hitems, hgood.validateList hcomma⟩

theorem base_fresh_nodup (hvalue : Acceptable kind value) (hoperand : Acceptable kind operand) :
    (baseOf kind value operand ++ freshOf kind value operand).Nodup := by
  refine List.Nodup.append ?_ (hoperand.nodup.filter _) ?_
  · rw [baseOf, baseItems]
    split_ifs
    · exact hvalue.nodup.filter _
    · exact hvalue.nodup
  · intro item hbase hfresh
    exact (mem_freshItems.mp hfresh).2 hbase

theorem mem_value_or_operand {item : Text}
    (h : item ∈ baseOf kind value operand ∨ item ∈ freshOf kind value operand) :
    item ∈ itemsOf value ∨ item ∈ itemsOf operand :=
  h.imp mem_of_mem_base List.mem_of_mem_filter

/-- A list without repetitions is its own reverse when it has at most one item. -/
theorem reverse_eq_iff {items : List Text} (hnodup : items.Nodup) :
    items.reverse = items ↔ items.length ≤ 1 := by
  constructor
  · intro h
    by_contra hlong
    have hfirst : items[0]? = items[items.length - 1]? := by
      conv_lhs => rw [← h]
      rw [List.getElem?_reverse (by omega)]
      rfl
    have hindex := (List.getElem?_inj (by omega) hnodup).mp hfirst
    omega
  · intro h
    cases items with
    | nil => rfl
    | cons item items =>
      have hnil : items = [] := List.length_eq_zero_iff.mp (by simpa using h)
      rw [hnil]
      rfl

/-- An empty operand changes nothing. -/
theorem laws_nil (hcomma : kind.isComma = true) (hvalue : Acceptable kind value) :
    Laws kind value [] := by
  have hkeep : keep kind (itemsOf value) [] = itemsOf value := List.filter_eq_self.mpr (by simp)
  have hbase : baseOf kind value [] = itemsOf value := by
    rw [baseOf, baseItems, itemsOf_nil, hkeep, ite_self]
  have hfresh : freshOf kind value [] = [] := by
    rw [freshOf, itemsOf_nil]
    rfl
  have hmodify : ∀ operator, modifyOption (.string value) (.string []) operator (some kind)
      = .ok (.string value) := by
    intro operator
    rw [modifyOption_eq hcomma, modifyCommaList, if_pos rfl]
  refine ⟨?_, ?_, ?_, fun _ => ⟨value, hmodify .add, hmodify .remove⟩⟩
  · rw [hbase, hfresh, List.append_nil]
    exact ⟨value, hmodify _, rfl, hvalue.valid⟩
  · rw [hbase, hfresh, List.nil_append]
    exact ⟨value, hmodify _, rfl, hvalue.valid⟩
  · rw [itemsOf_nil, hkeep]
    exact ⟨value, hmodify _, rfl, hvalue.valid⟩

/-- A value that is read as a list keeps all laws but the order of prepended items. -/
theorem laws_iff_of_start (hcomma : kind.isComma = true) (hvalue : Acceptable kind value)
    (hoperand : Acceptable kind operand) (hstart : value ≠ [] ∨ kind.rejectEmpty = true)
    (hne : operand ≠ []) :
    Laws kind value operand ↔ (freshOf kind value operand).length ≤ 1 := by
  have hresult := modifyCommaList_eq hvalue.nonempty hstart hne
  have hnodup := base_fresh_nodup hvalue hoperand
  have hfresh : (freshOf kind value operand).Nodup := hnodup.of_append_right
  -- what each operator leaves
  have hadd : modifyCommaList value operand .add kind
      = [','].intercalate (baseOf kind value operand ++ freshOf kind value operand) := by
    rw [hresult, foldl_add _ hoperand.distinct]
    rfl
  have hprepend : modifyCommaList value operand .prepend kind
      = [','].intercalate
          ((freshOf kind value operand).reverse ++ baseOf kind value operand) := by
    rw [hresult, foldl_prepend _ hoperand.distinct]
    rfl
  have hremove : modifyCommaList value operand .remove kind
      = [','].intercalate (keep kind (itemsOf value) (itemsOf operand)) := by
    rw [hresult, foldl_remove]
  have hgoodAdd : GoodItems kind (baseOf kind value operand ++ freshOf kind value operand) :=
    goodItems_of_mem hcomma hvalue hoperand
      (fun item hitem => mem_value_or_operand (List.mem_append.mp hitem)) hnodup
  have hgoodPrepend : GoodItems kind
      ((freshOf kind value operand).reverse ++ baseOf kind value operand) := by
    refine goodItems_of_mem hcomma hvalue hoperand (fun item hitem => ?_) ?_
    · have hmem := List.mem_append.mp hitem
      exact mem_value_or_operand (hmem.symm.imp_right List.mem_reverse.mp)
    · have hperm : ((freshOf kind value operand).reverse ++ baseOf kind value operand).Perm
          (baseOf kind value operand ++ freshOf kind value operand) :=
        List.perm_append_comm.trans ((List.reverse_perm _).append_left _)
      exact hperm.nodup_iff.mpr hnodup
  have hgoodRemove : GoodItems kind (keep kind (itemsOf value) (itemsOf operand)) :=
    goodItems_of_mem hcomma hvalue hoperand (fun item hitem => .inl (List.mem_of_mem_filter hitem))
      (hvalue.nodup.filter _)
  constructor
  · intro h
    have horder := (yields_iff hcomma hgoodPrepend hprepend _).mp h.prepend
    exact (reverse_eq_iff hfresh).mp (List.append_cancel_right horder)
  · intro hone
    refine ⟨(yields_iff hcomma hgoodAdd hadd _).mpr rfl, ?_,
      (yields_iff hcomma hgoodRemove hremove _).mpr rfl, ?_⟩
    · rw [yields_iff hcomma hgoodPrepend hprepend, (reverse_eq_iff hfresh).mpr hone]
    · intro hdisjoint
      have hkeep : keep kind (itemsOf value) (itemsOf operand) = itemsOf value :=
        List.filter_eq_self.mpr fun item hitem => decide_eq_true (hdisjoint item hitem)
      have hbase : baseOf kind value operand = itemsOf value := by
        rw [baseOf, baseItems, hkeep, ite_self]
      have hall : freshOf kind value operand = itemsOf operand := by
        refine freshItems_eq_self fun item hitem hmem => ?_
        rw [← baseOf, hbase] at hmem
        exact hdisjoint item hmem item hitem (.inl rfl)
      rw [hbase, hall] at hadd hgoodAdd
      -- the sum is a list again, and what is removed from it is what was added
      have hsum : itemsOf ([','].intercalate (itemsOf value ++ itemsOf operand))
          = itemsOf value ++ itemsOf operand := hgoodAdd.toJoinable.itemsOf hgoodAdd.nonempty
      have hsumNe : [','].intercalate (itemsOf value ++ itemsOf operand) ≠ [] := by
        refine intercalate_ne_nil ?_ hgoodAdd.nonempty
        exact List.append_ne_nil_of_right_ne_nil _ (fun h => hne (itemsOf_eq_nil.mp h))
      have hnone : keep kind (itemsOf operand) (itemsOf operand) = [] := by
        refine List.filter_eq_nil_iff.mpr fun item hitem => ?_
        rw [decide_eq_true_eq]
        exact fun h => h item hitem (.inl rfl)
      refine ⟨_, by rw [modifyOption_eq hcomma, hadd], ?_⟩
      have hsumNonempty : ∀ item ∈ itemsOf ([','].intercalate (itemsOf value ++ itemsOf operand)),
          item ≠ [] := by
        rw [hsum]
        exact hgoodAdd.nonempty
      have hstartSum : [','].intercalate (itemsOf value ++ itemsOf operand) ≠ [] ∨
          kind.rejectEmpty = true := .inl hsumNe
      have hkeepSum : keep kind (itemsOf value ++ itemsOf operand) (itemsOf operand)
          = itemsOf value := by
        rw [keep, List.filter_append]
        exact (congrArg₂ (· ++ ·) hkeep hnone).trans (List.append_nil _)
      rw [modifyOption_eq hcomma, modifyCommaList_eq hsumNonempty hstartSum hne, foldl_remove, hsum,
        hkeepSum, intercalate_itemsOf]

/-- The empty string of a kind that takes it for an empty item keeps that item in a sum. -/
theorem not_laws_of_empty (hcomma : kind.isComma = true) (hoperand : Acceptable kind operand)
    (hreject : kind.rejectEmpty = false) (hne : operand ≠ []) : ¬Laws kind [] operand := by
  intro h
  have hitems : (commaItems []).filter (fun item => !kind.rejectEmpty || item ≠ []) = [[]] := by
    rw [commaItems_eq, hreject]
    rfl
  have hoperandItems : itemsOf operand = commaItems operand := if_neg hne
  have hoperandNe : itemsOf operand ≠ [] := fun h => hne (itemsOf_eq_nil.mp h)
  -- the empty item is like no item of the operand
  have hbase : baseItems kind [[]] (itemsOf operand) = [[]] := by
    have hkeep : keep kind [[]] (itemsOf operand) = [[]] := by
      refine List.filter_eq_self.mpr fun item hitem => ?_
      rw [List.mem_singleton.mp hitem, decide_eq_true_eq]
      exact fun other hother => not_alike_nil (hoperand.nonempty other hother)
    rw [baseItems, hkeep, ite_self]
  have hfresh : freshItems kind [[]] (itemsOf operand) = itemsOf operand := by
    refine freshItems_eq_self fun item hitem => ?_
    rw [hbase, List.mem_singleton]
    exact hoperand.nonempty item hitem
  have hadd : modifyCommaList [] operand .add kind = [','].intercalate ([] :: itemsOf operand) := by
    have hmodify : modifyCommaList [] operand .add kind
        = [','].intercalate ((itemsOf operand).foldl (editItems .add kind.colon) [[]]) := by
      rw [modifyCommaList, if_neg hne, hitems, ← hoperandItems]
    rw [hmodify, foldl_add _ hoperand.distinct, hbase, hfresh]
    rfl
  have hjoinable : Joinable ([] :: itemsOf operand) := by
    constructor
    · exact List.forall_mem_cons.mpr ⟨trivial, fun item hitem => whole_of_mem hitem⟩
    · exact List.forall_mem_cons.mpr ⟨rfl, hoperand.closed⟩
  have hsum : itemsOf ([','].intercalate ([] :: itemsOf operand)) = [] :: itemsOf operand := by
    have hnonempty : [','].intercalate ([] :: itemsOf operand) ≠ [] := by
      rw [List.intercalate_cons_of_ne_nil hoperandNe]
      simp
    rw [itemsOf, if_neg hnonempty, hjoinable.split (List.cons_ne_nil _ _)]
  obtain ⟨result, heq, hwanted, _⟩ := h.add
  rw [modifyOption_eq hcomma, hadd] at heq
  obtain rfl := OptionValue.string.inj (Except.ok.inj heq)
  have hwantedBase : baseOf kind [] operand = [] := by
    rw [baseOf, baseItems, itemsOf_nil]
    exact ite_self _
  have hwantedFresh : freshOf kind [] operand = itemsOf operand := by
    refine freshItems_eq_self fun item _ => ?_
    rw [← baseOf, hwantedBase]
    exact List.not_mem_nil
  rw [hsum, hwantedBase, hwantedFresh] at hwanted
  have hlength := congrArg List.length hwanted
  simp at hlength

/-- The laws hold exactly when the operand is empty, or adds at most one item to a value that is read
as a list. -/
theorem laws_iff (hcomma : kind.isComma = true) (hvalue : Acceptable kind value)
    (hoperand : Acceptable kind operand) : Laws kind value operand ↔ AddsOne kind value operand := by
  by_cases hne : operand = []
  · rw [hne]
    exact iff_of_true (laws_nil hcomma hvalue) (.inl rfl)
  rw [AddsOne, or_iff_right hne]
  by_cases hstart : value ≠ [] ∨ kind.rejectEmpty = true
  · rw [and_iff_right hstart]
    exact laws_iff_of_start hcomma hvalue hoperand hstart hne
  · rw [not_or, not_not] at hstart
    obtain ⟨rfl, hreject⟩ := hstart
    refine iff_of_false ?_ (fun h => ?_)
    · exact not_laws_of_empty hcomma hoperand (Bool.eq_false_of_not_eq_true hreject) hne
    · exact h.1.elim (fun h => h rfl) hreject

theorem acceptable_of_comma {value : Text} (hnonempty : ∀ item ∈ itemsOf value, item ≠ [])
    (hclosed : ∀ item ∈ itemsOf value, Escaped.pending '\\' false item = false)
    (hdistinct : (itemsOf value).Pairwise fun a b => ¬Alike .comma a b) : Acceptable .comma value where
  valid := by
    simp [validateList, validateItems_eq_ok, OptionListKind.rejectEmpty, OptionListKind.colon]
  nonempty := hnonempty
  closed := hclosed
  distinct := hdistinct

/-- One item for a value of one item. -/
theorem laws_iff_one : Laws .comma ['a'] ['b'] ↔ AddsOne .comma ['a'] ['b'] :=
  laws_iff rfl
    (acceptable_of_comma (by decide +kernel) (by decide +kernel) (by decide +kernel))
    (acceptable_of_comma (by decide +kernel) (by decide +kernel) (by decide +kernel))

/-- Two items are prepended in the wrong order, and the empty value stays as an item. -/
theorem not_laws_two :
    (Acceptable .comma ['a'] ∧ Acceptable .comma ['x', ',', 'y'] ∧
      modifyOption (.string ['a']) (.string ['x', ',', 'y']) .prepend (some .comma)
        = .ok (.string ['y', ',', 'x', ',', 'a']) ∧ ¬Laws .comma ['a'] ['x', ',', 'y']) ∧
    (Acceptable .comma [] ∧ Acceptable .comma ['x'] ∧
      modifyOption (.string []) (.string ['x']) .add (some .comma) = .ok (.string [',', 'x']) ∧
      ¬Laws .comma [] ['x']) := by
  have hvalue : Acceptable .comma ['a'] :=
    acceptable_of_comma (by decide +kernel) (by decide +kernel) (by decide +kernel)
  have htwo : Acceptable .comma ['x', ',', 'y'] :=
    acceptable_of_comma (by decide +kernel) (by decide +kernel) (by decide +kernel)
  have hempty : Acceptable .comma [] :=
    acceptable_of_comma (by simp) (by simp) (by simp)
  have hone : Acceptable .comma ['x'] :=
    acceptable_of_comma (by decide +kernel) (by decide +kernel) (by decide +kernel)
  refine ⟨⟨hvalue, htwo, by decide +kernel, ?_⟩, hempty, hone, by decide +kernel,
    not_laws_of_empty rfl hone rfl (by simp)⟩
  rw [laws_iff_of_start rfl hvalue htwo (.inl (by simp)) (by simp)]
  decide +kernel

end Laws

end Oxvim.Editor.OptionList
