import Oxvim.Lib.Escaped

/-!
# Values of list options

The value of many string options is a comma-separated list. `:set` with an operator edits such a list
item by item; what a value may be depends on the kind of the list.
-/

namespace Oxvim.Editor.OptionList

/-- A string as its characters. -/
abbrev Text := List Char

/-- How the value of a string option is read as a list. -/
inductive OptionListKind where
  /-- A comma-separated list that may contain empty items. -/
  | comma
  /-- A comma-separated list without empty items. -/
  | oneComma
  /-- A comma-separated list whose items may have `name:value` form. -/
  | commaColon
  /-- A comma-separated list without empty items, optionally in `name:value` form. -/
  | oneCommaColon
  /-- A sequence of unique single-character flags. -/
  | flags
  /-- A comma-separated list of unique single-character flags. -/
  | flagsComma
  deriving DecidableEq, Repr

inductive OptionValue where
  | boolean (value : Bool)
  | number (value : Int)
  | string (value : Text)
  deriving DecidableEq, Repr

/-- The operators of `:set`. -/
inductive Operator where
  /-- `+=` -/
  | add
  /-- `-=` -/
  | remove
  /-- `^=` -/
  | prepend
  /-- `=` -/
  | assign
  deriving DecidableEq, Repr

def Operator.text : Operator → String
  | add => "+="
  | remove => "-="
  | prepend => "^="
  | assign => "="

/-! ## Items -/

/-- The state of a scan behind a character. -/
def escapedAfter (escaped : Bool) (character : Char) : Bool :=
  if character = '\\' then !escaped else false

/-- The first item and what remains behind its comma. -/
def nextItem (escaped : Bool) : Text → Text × Option Text
  | [] => ([], none)
  | character :: remaining =>
    if character = ',' ∧ escaped = false then ([], some remaining)
    else
      let (item, rest) := nextItem (escapedAfter escaped character) remaining
      (character :: item, rest)

theorem nextItem_length {escaped : Bool} {text item rest : Text}
    (h : nextItem escaped text = (item, some rest)) : rest.length < text.length := by
  induction text generalizing escaped item with
  | nil => cases h
  | cons character text ih =>
    rw [nextItem] at h
    split_ifs at h
    · obtain rfl := Option.some.inj (Prod.mk.inj h).2
      exact Nat.lt_succ_self _
    · have hrest := ih (Prod.ext rfl (Prod.mk.inj h).2)
      exact hrest.trans (Nat.lt_succ_self _)

/-- The items between unescaped commas. -/
def commaItems (remaining : Text) : List Text :=
  match h : nextItem false remaining with
  | (item, none) => [item]
  | (item, some rest) => item :: commaItems rest
  termination_by remaining.length
  decreasing_by exact nextItem_length h

/-- Where a character stands unescaped for the first time. -/
def findUnescapedFrom (needle : Char) (escaped : Bool) : Text → Option Nat
  | [] => none
  | character :: value =>
    if character = needle ∧ escaped = false then some 0
    else (findUnescapedFrom needle (escapedAfter escaped character) value).map (· + 1)

def findUnescaped (value : Text) (needle : Char) : Option Nat := findUnescapedFrom needle false value

/-! ## Validation -/

def validateFlags (value : Text) : Except String Unit :=
  match value.mapIdx (fun offset flag => (value.take offset, flag)) |>.find? fun entry =>
      entry.2 = ',' ∨ entry.2 ∈ entry.1 with
  | some (_, flag) =>
    if flag = ',' then .error "flags list must not contain commas" else .error "duplicate flag"
  | none => .ok ()

def hasDuplicateItems (value : Text) : Bool := !(commaItems value).Nodup

def validateCommaFlags (value : Text) : Except String Unit :=
  if value = [] then .ok ()
  else if (commaItems value).any fun item => item.length ≠ 1 then
    .error "each comma-separated flag must be one character"
  else if hasDuplicateItems value then .error "duplicate flag"
  else .ok ()

def validateColonItem (item : Text) : Except String Unit :=
  match findUnescaped item ':' with
  | none => .ok ()
  | some colon =>
    if colon = 0 ∨ colon + 1 = item.length then
      .error "colon-list items require text on both sides of `:`"
    else .ok ()

/-- The loop over the items of a comma list. -/
def validateItems (rejectEmpty checkColon : Bool) (value : Text) : List Text → Except String Unit
  | [] => .ok ()
  | item :: items =>
    if rejectEmpty ∧ value ≠ [] ∧ item = [] then .error "empty comma-list item"
    else do
      if checkColon ∧ item ≠ [] then validateColonItem item
      validateItems rejectEmpty checkColon value items

/-- Whether items of the kind may have a name. -/
def OptionListKind.colon : OptionListKind → Bool
  | commaColon => true
  | oneCommaColon => true
  | _ => false

/-- Whether the kind rejects empty items. -/
def OptionListKind.rejectEmpty : OptionListKind → Bool
  | oneComma => true
  | oneCommaColon => true
  | _ => false

def validateList (kind : OptionListKind) (value : Text) : Except String Unit :=
  match kind with
  | .flags => validateFlags value
  | .flagsComma => validateCommaFlags value
  | _ => validateItems kind.rejectEmpty kind.colon value (commaItems value)

/-! ## Editing -/

/-- An item is the operand's, or has the operand's name. -/
def itemMatches (colon : Bool) (operand item : Text) : Bool :=
  match if colon then findUnescaped operand ':' else none with
  | some offset => item.take (offset + 1) = operand.take (offset + 1)
  | none => item = operand

/-- What one item of the operand does to the list. -/
def editItems (operator : Operator) (colon : Bool) (items : List Text) (operand : Text) : List Text :=
  let kept := items.filter fun item => !itemMatches colon operand item
  match operator with
  | .remove => kept
  | .add =>
    let items := if colon then kept else items
    if operand ∈ items then items else items ++ [operand]
  | .prepend =>
    let items := if colon then kept else items
    if operand ∈ items then items else operand :: items
  | .assign => items

def modifyCommaList (left right : Text) (operator : Operator) (kind : OptionListKind) : Text :=
  if right = [] then left
  else
    let items := (commaItems left).filter fun item => !kind.rejectEmpty || item ≠ []
    [','].intercalate ((commaItems right).foldl (editItems operator kind.colon) items)

/-- The comma kinds. -/
def OptionListKind.isComma : OptionListKind → Bool
  | flags => false
  | _ => true

/-- The range of an `i64`. -/
def saturate (value : Int) : Int := max (-2 ^ 63) (min value (2 ^ 63 - 1))

/-- `str::replace` by nothing. -/
def removeAll (pattern : Text) (text : Text) : Text :=
  match text with
  | [] => []
  | character :: rest =>
    if pattern ≠ [] ∧ pattern <+: character :: rest then
      removeAll pattern (rest.drop (pattern.length - 1))
    else character :: removeAll pattern rest
  termination_by text.length
  decreasing_by
    all_goals simp only [List.length_drop, List.length_cons]
    all_goals omega

def modifyOption (current next : OptionValue) (operator : Operator)
    (list : Option OptionListKind) : Except (String × String) OptionValue :=
  match current, next with
  | .number left, .number right => .ok (.number (match operator with
    | .add => saturate (left + right)
    | .remove => saturate (left - right)
    | .prepend => saturate (saturate (right * 10) + left)
    | .assign => right))
  | .string left, .string right =>
    match list.filter OptionListKind.isComma with
    | some kind => .ok (.string (modifyCommaList left right operator kind))
    | none => .ok (.string (match operator with
      | .add => left ++ right
      | .prepend => right ++ left
      | .remove => removeAll right left
      | .assign => left))
  | _, _ => .error ("E734", s!"Wrong variable type for {operator.text}")

end Oxvim.Editor.OptionList
