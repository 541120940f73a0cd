import Oxvim.Editor.Quickfix
import Oxvim.Lib.Utf8Lossy
import Oxvim.Lib.Ascii

/-!
# Error formats

One part of an 'errorformat' becomes the text of a regular expression and a table of its groups. The part is
read byte by byte: a step reads one item of it, and gives what is left.

The compiler of regular expressions is a parameter.
-/

namespace Oxvim.Editor.ErrorFormat

open Lib Quickfix

/-- Conversion characters and their regular expressions. -/
def FMT_PAT : List (Char × String) :=
  [('f', ".\\+"), ('b', "\\d\\+"), ('n', "\\d\\+"), ('l', "\\d\\+"), ('e', "\\d\\+"), ('c', "\\d\\+"),
    ('k', "\\d\\+"), ('t', "."), ('m', ".\\+"), ('r', ".*"), ('p', "[-\t .]*"), ('v', "\\d\\+"),
    ('s', ".\\+"), ('o', ".\\+")]

def FMT_PATTERNS : Nat := 14
def FMT_PATTERN_M : Nat := 8
def FMT_PATTERN_R : Nat := 9

/-- The bytes of a string. -/
def bytes (text : String) : List UInt8 := Utf8.encode text.toList

/-- A byte as a character. -/
def asChar (byte : UInt8) : String := String.singleton (Char.ofNat byte.toNat)

/-- A part that is being compiled. -/
structure Draft where
  /-- the group of each conversion character, or zero -/
  addr : List Nat
  /-- the prefix letter, or zero -/
  prefixLetter : UInt8
  /-- `+` or `-`, or zero -/
  flags : UInt8
  conthere : Bool
  /-- how many groups there are -/
  round : Nat
  regpat : List UInt8
  deriving DecidableEq

/-- A part before anything is read. Case is ignored. -/
def Draft.init : Draft where
  addr := List.replicate FMT_PATTERNS 0
  prefixLetter := 0
  flags := 0
  conthere := false
  round := 0
  regpat := bytes "^\\c"

def Draft.push (self : Draft) (text : List UInt8) : Draft := { self with regpat := self.regpat ++ text }

/-! ## Items -/

/-- The regular expression of a conversion; that of a file name depends on what follows. -/
def fieldPattern (fi : Nat) (c : UInt8) (next : Option UInt8) : String :=
  match next with
  | some next =>
    if c = 'f'.toUInt8 then
      if next ≠ '\\'.toUInt8 ∧ next ≠ '%'.toUInt8 then ".\\\x7b-1,\x7d" else "\\f\\+"
    else ((FMT_PAT[fi]?).map Prod.snd).getD ""
  | none => ((FMT_PAT[fi]?).map Prod.snd).getD ""

/-- One conversion as a group. -/
def pushFieldGroup (draft : Draft) (c : UInt8) (fi : Nat) (next : Option UInt8) : Except EfmError Draft :=
  if draft.addr.getD fi 0 ≠ 0 then .error ⟨"E372", "Too many %" ++ asChar c ++ " in format string"⟩
  else if (fi ≠ 0 ∧ fi < FMT_PATTERN_R ∧ draft.prefixLetter ∈ bytes "DXOPQ") ∨
      (fi = FMT_PATTERN_R ∧ draft.prefixLetter ∉ bytes "OPQ") then
    .error ⟨"E373", "Unexpected %" ++ asChar c ++ " in format string"⟩
  else .ok { draft with
    round := draft.round + 1
    addr := draft.addr.set fi (draft.round + 1)
    regpat := draft.regpat ++ bytes "\\(" ++ bytes (fieldPattern fi c next) ++ bytes "\\)" }

/-- The class behind `%*[`, and what is left behind it. -/
def pushScanfSet (draft : Draft) (rest : List UInt8) : Except EfmError (Draft × List UInt8) :=
  let negated := rest.head? = some '^'.toUInt8
  let opened := draft.push (bytes (if negated then "[^" else "["))
  match if negated then rest.tail else rest with
  | [] => .ok (opened.push (bytes "\\+"), [])
  | first :: rest =>
    -- the first character may be a bracket
    let body := rest.takeWhile (· ≠ ']'.toUInt8)
    match rest.drop body.length with
    | [] => .error ⟨"E374", "Missing ] in format string"⟩
    | close :: rest => .ok (opened.push (first :: body ++ close :: bytes "\\+"), rest)

/-- A class behind `%*`, and what is left. What is left behind a backslash begins with its letter. -/
def pushScanfClass (draft : Draft) : List UInt8 → Except EfmError (Draft × List UInt8)
  | [] => .error ⟨"E375", "Unsupported %* in format string"⟩
  | b :: rest =>
    if b = '['.toUInt8 then pushScanfSet draft rest
    else if b = '\\'.toUInt8 then .ok (draft.push (b :: rest.head?.toList ++ bytes "\\+"), rest)
    else .error ⟨"E375", "Unsupported %*" ++ asChar b ++ " in format string"⟩

def setPrefix (draft : Draft) (p : UInt8) (rest : List UInt8) : Except EfmError (Draft × List UInt8) :=
  if p ∈ bytes "DXAEWINCZGOPQ" then .ok ({ draft with prefixLetter := p }, rest)
  else .error ⟨"E376", "Invalid %" ++ asChar p ++ " in format string prefix"⟩

/-- The prefix of a part. -/
def analyzePrefix (draft : Draft) (c : UInt8) (rest : List UInt8) : Except EfmError (Draft × List UInt8) :=
  if c = '+'.toUInt8 ∨ c = '-'.toUInt8 then
    match rest with
    | [] => .error ⟨"E376", "Invalid % in format string prefix"⟩
    | p :: rest => setPrefix { draft with flags := c } p rest
  else setPrefix draft c rest

/-- What follows a percent sign. -/
def percentStep (start : Bool) (draft : Draft) : List UInt8 → Except EfmError (Draft × List UInt8)
  | [] => .error ⟨"E377", "Invalid % in format string"⟩
  | c :: rest =>
    match FMT_PAT.findIdx? fun entry => entry.1.toUInt8 == c with
    | some fi => (pushFieldGroup draft c fi rest.head?).map fun draft => (draft, rest)
    | none =>
      -- behind a class one more byte is stepped over, whatever it is
      if c = '*'.toUInt8 then (pushScanfClass draft rest).map fun read => (read.1, read.2.tail)
      else if c ∈ bytes "%\\.^$~[" then .ok (draft.push [c], rest)
      else if c = '#'.toUInt8 then .ok (draft.push (bytes "*"), rest)
      else if c = '>'.toUInt8 then .ok ({ draft with conthere := true }, rest)
      else if start then analyzePrefix draft c rest
      else .error ⟨"E377", "Invalid %" ++ asChar c ++ " in format string"⟩

/-- A byte outside of conversions; a backslash takes the next one as it is. -/
def plainStep (draft : Draft) (b : UInt8) (rest : List UInt8) : Draft × List UInt8 :=
  if b = '\\'.toUInt8 ∧ rest ≠ [] then (draft.push rest.head?.toList, rest.tail)
  else if b ∈ bytes ".*^$~[" then (draft.push ['\\'.toUInt8, b], rest)
  else (draft.push [b], rest)

/-- One round of the loop; `start` tells whether nothing has been read. -/
def compileStep (start : Bool) (draft : Draft) : List UInt8 → Except EfmError (Draft × List UInt8)
  | [] => .ok (draft, [])
  | b :: rest =>
    if b = '%'.toUInt8 then percentStep start draft rest else .ok (plainStep draft b rest)

/-! ## The loop -/

variable {start : Bool} {draft draft' : Draft} {part rest : List UInt8}

theorem pushScanfSet_le (h : pushScanfSet draft part = .ok (draft', rest)) :
    rest.length ≤ part.length := by
  rw [pushScanfSet] at h
  dsimp only at h
  have hle : (if part.head? = some '^'.toUInt8 then part.tail else part).length ≤ part.length := by
    split
    · rw [List.length_tail]
      omega
    · exact le_rfl
  generalize (if part.head? = some '^'.toUInt8 then part.tail else part) = body at h hle
  cases body with
  | nil =>
    cases h
    exact Nat.zero_le _
  | cons first body =>
    dsimp only at h
    have hdrop := List.length_drop (l := body) (i := (body.takeWhile (· ≠ ']'.toUInt8)).length)
    rw [List.length_cons] at hle
    split at h
    · cases h
    · next close after hclose =>
      cases h
      rw [hclose, List.length_cons] at hdrop
      omega

theorem pushScanfClass_le (h : pushScanfClass draft part = .ok (draft', rest)) :
    rest.length ≤ part.length := by
  cases part with
  | nil => cases h
  | cons b part =>
    rw [pushScanfClass] at h
    split at h
    · exact (pushScanfSet_le h).trans (Nat.le_succ _)
    split at h
    · cases h
      exact Nat.le_succ _
    · cases h

theorem setPrefix_eq {p : UInt8} (h : setPrefix draft p part = .ok (draft', rest)) : rest = part := by
  rw [setPrefix] at h
  split at h
  · cases h
    rfl
  · cases h

theorem percentStep_le (h : percentStep start draft part = .ok (draft', rest)) :
    rest.length ≤ part.length := by
  cases part with
  | nil => cases h
  | cons c part =>
    rw [percentStep] at h
    split at h
    · next fi hfi =>
      cases hgroup : pushFieldGroup draft c fi part.head? with
      | error error =>
        rw [hgroup] at h
        cases h
      | ok pushed =>
        rw [hgroup] at h
        cases h
        exact Nat.le_succ _
    split at h
    · cases hclass : pushScanfClass draft part with
      | error error =>
        rw [hclass] at h
        cases h
      | ok read =>
        rw [hclass] at h
        cases h
        have hle : read.2.length ≤ _ := pushScanfClass_le hclass
        rw [List.length_tail, List.length_cons]
        omega
    split at h
    · cases h
      exact Nat.le_succ _
    split at h
    · cases h
      exact Nat.le_succ _
    split at h
    · cases h
      exact Nat.le_succ _
    split at h
    · unfold analyzePrefix at h
      split at h
      · cases part with
        | nil => cases h
        | cons p part =>
          rw [setPrefix_eq h, List.length_cons, List.length_cons]
          omega
      · rw [setPrefix_eq h]
        exact Nat.le_succ _
    · cases h

/-- Every round reads something. -/
theorem compileStep_lt (hpart : part ≠ []) (h : compileStep start draft part = .ok (draft', rest)) :
    rest.length < part.length := by
  cases part with
  | nil => exact absurd rfl hpart
  | cons b part =>
    rw [compileStep] at h
    split at h
    · exact Nat.lt_succ_of_le (percentStep_le h)
    · have hplain := congrArg Prod.snd (Except.ok.inj h)
      rw [plainStep] at hplain
      rw [← (show _ = rest from hplain), List.length_cons]
      split
      · rw [List.length_tail]
        omega
      split <;> exact Nat.lt_succ_self _

/-- Reads a part to its end. -/
def compileLoop (start : Bool) (draft : Draft) (part : List UInt8) : Except EfmError Draft :=
  if _hpart : part = [] then .ok draft
  else
    match _hstep : compileStep start draft part with
    | .error error => .error error
    | .ok (draft, rest) => compileLoop false draft rest
termination_by part.length
decreasing_by exact compileStep_lt _hpart _hstep

/-- The text of the regular expression of a part, and the table of its groups. -/
def compileDraft (part : List Char) : Except EfmError Draft :=
  (compileLoop true .init (Utf8.encode part)).map fun draft => draft.push (bytes "$")

/-- One compiled alternative. -/
structure EfmPart (Prog : Type) where
  prog : Prog
  addr : List Nat
  prefixLetter : UInt8
  flags : UInt8
  conthere : Bool

variable {Prog : Type}

/-- Compiles one part with a compiler of regular expressions. -/
def compilePart (compileRegex : List Char → Except String Prog) (part : List Char) :
    Except EfmError (EfmPart Prog) :=
  match compileDraft part with
  | .error error => .error error
  | .ok draft =>
    match compileRegex (Utf8.fromUtf8Lossy draft.regpat) with
    | .error message => .error ⟨"E377", message⟩
    | .ok prog =>
      .ok ⟨prog, draft.addr, draft.prefixLetter, draft.flags, draft.conthere⟩

end Oxvim.Editor.ErrorFormat
