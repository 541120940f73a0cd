import Oxvim.Eval.Lexer
import Oxvim.Lib.Greedy

/-!
# The spelling of tokens

`Spells kind text rest` says that `text`, with `rest` behind it, is a spelling of a token. What
follows matters where a token goes on as long as it can.
-/

namespace Oxvim.Eval.Lexer

open Lib Lib.Greedy

/-! ## Numbers -/

def Digits (text : List UInt8) : Prop := text ≠ [] ∧ text.all isDigit

/-- Nothing, or `e`, a sign that may be missing, and digits. -/
def Exponent (text : List UInt8) : Prop :=
  text = [] ∨ ∃ mark sign digits, text = mark :: (sign ++ digits) ∧ mark ∈ bytes "eE" ∧
    (sign = [] ∨ sign = bytes "+" ∨ sign = bytes "-") ∧ Digits digits

/-- `rest` begins with the fraction and the exponent of a float, which no dot or letter follows. -/
def FloatFollows (tail rest : List UInt8) : Prop :=
  (∃ fraction exponent, tail = '.'.toUInt8 :: (fraction ++ exponent) ∧ Digits fraction ∧
    Exponent exponent) ∧
  Stops isDigit rest ∧ Stops (fun byte => byte == '.'.toUInt8 || isAlphabetic byte) rest

/-- Octal digits behind a leading zero. -/
def LegacyOctal (text : List UInt8) : Prop :=
  text.head? = some '0'.toUInt8 ∧ 2 ≤ text.length ∧ text.all isOctal

instance (text : List UInt8) : Decidable (LegacyOctal text) :=
  inferInstanceAs (Decidable (_ ∧ _ ∧ _))

/-- The base of digits without a prefix. -/
def plainBase (text : List UInt8) : Nat := if LegacyOctal text then 8 else 10

def markBase (mark : UInt8) : Option Nat :=
  if mark ∈ bytes "xX" then some 16
  else if mark ∈ bytes "oO" then some 8
  else if mark ∈ bytes "bB" then some 2
  else none

/-- A zero that a base or a blob follows is no number. -/
def PrefixFollows (text rest : List UInt8) : Prop :=
  text = bytes "0" ∧ ∃ mark ∈ rest.head?, mark ∈ bytes "xXoObBzZ"

inductive SpellsNumber (parseFloat : List UInt8 → Option UInt64) :
    TokenKind → List UInt8 → List UInt8 → Prop
  | plain {text rest : List UInt8} : Digits text → Stops isDigit rest →
    (¬∃ tail after, rest = tail ++ after ∧ FloatFollows tail after) → ¬PrefixFollows text rest →
    digitsValue (plainBase text) text < 2 ^ 63 →
    SpellsNumber parseFloat (.integer (Int64.ofNat (digitsValue (plainBase text) text))) text rest
  | based {mark : UInt8} {digits rest : List UInt8} {base : Nat} : markBase mark = some base →
    digits ≠ [] → (digits.all fun digit => (hexValue digit).any fun d => d.toNat < base) →
    Stops isHexDigit rest → digitsValue base digits < 2 ^ 63 →
    SpellsNumber parseFloat (.integer (Int64.ofNat (digitsValue base digits)))
      ('0'.toUInt8 :: mark :: digits) rest
  | float {whole tail rest : List UInt8} {bits : UInt64} : Digits whole → FloatFollows tail rest →
    parseFloat (whole ++ tail) = some bits →
    SpellsNumber parseFloat (.float bits) (whole ++ tail) rest

/-- Digits with dots before some of them. -/
inductive BlobBody : List UInt8 → List UInt8 → Prop
  | nil : BlobBody [] []
  | digit {d : UInt8} {digits text : List UInt8} : isHexDigit d → BlobBody digits text →
    BlobBody (d :: digits) (d :: text)
  | dot {d : UInt8} {digits text : List UInt8} : isHexDigit d → BlobBody (d :: digits) (d :: text) →
    BlobBody (d :: digits) ('.'.toUInt8 :: d :: text)

/-- A blob would go on. -/
def BlobContinues (rest : List UInt8) : Prop :=
  rest.head? = some '.'.toUInt8 ∧ (rest[1]?).any isHexDigit

/-! ## Strings -/

/-- What stands between single quotes, a quote being doubled. -/
inductive SingleBody : List UInt8 → List UInt8 → Prop
  | nil : SingleBody [] []
  | quote {value text : List UInt8} : SingleBody value text →
    SingleBody ('\''.toUInt8 :: value) ('\''.toUInt8 :: '\''.toUInt8 :: text)
  | byte {b : UInt8} {value text : List UInt8} : b ≠ '\''.toUInt8 → SingleBody value text →
    SingleBody (b :: value) (b :: text)

/-- As many digits as there are, up to a limit. -/
def TakesDigits (p : UInt8 → Bool) (limit : Nat) (digits rest : List UInt8) : Prop :=
  digits.all p ∧ digits.length ≤ limit ∧ (digits.length < limit → Stops p rest)

/-- What follows a backslash, and the bytes it stands for. -/
inductive Escape : List UInt8 → List UInt8 → List UInt8 → Prop
  | simple {b value : UInt8} {rest : List UInt8} : simpleEscape b = some value →
    Escape [value] [b] rest
  | octal {d : UInt8} {digits rest : List UInt8} : isOctal d → TakesDigits isOctal 2 digits rest →
    Escape [UInt8.ofNat (octalValue (d :: digits))] (d :: digits) rest
  | hex {mark : UInt8} {digits rest : List UInt8} : mark ∈ bytes "xX" → digits ≠ [] →
    TakesDigits isHexDigit 2 digits rest →
    Escape [UInt8.ofNat (digitsValue 16 digits)] (mark :: digits) rest
  | unicode {mark : UInt8} {limit : Nat} {digits rest : List UInt8} {character : Char} :
    (mark = 'u'.toUInt8 ∧ limit = 4 ∨ mark = 'U'.toUInt8 ∧ limit = 8) → digits ≠ [] →
    TakesDigits isHexDigit limit digits rest → fromU32 (digitsValue 16 digits) = some character →
    Escape (String.utf8EncodeChar character) (mark :: digits) rest
  | key {value name rest : List UInt8} :
    findSpecialKey 0 (name ++ rest) = .ok (some (value, name.length)) →
    Escape value ('<'.toUInt8 :: name) rest
  | noKey {rest : List UInt8} : findSpecialKey 0 rest = .ok none →
    Escape ['<'.toUInt8] ['<'.toUInt8] rest
  | kept {b : UInt8} {rest : List UInt8} : simpleEscape b = none → isOctal b = false →
    b ∉ bytes "xXuU<" → Escape [b] [b] rest

/-- A piece of a double-quoted string. -/
inductive Piece where
  | plain (byte : UInt8)
  | escaped (value : List UInt8)

/-- What a double-quoted string holds: nothing from an escaped NUL on. -/
def piecesValue : List Piece → List UInt8
  | [] => []
  | .plain byte :: pieces => byte :: piecesValue pieces
  | .escaped value :: pieces =>
    if 0 ∈ value then value.takeWhile (· != 0) else value ++ piecesValue pieces

inductive DoubleBody : List Piece → List UInt8 → List UInt8 → Prop
  | nil {rest : List UInt8} : DoubleBody [] [] rest
  | plain {b : UInt8} {pieces : List Piece} {text rest : List UInt8} : b ∉ bytes "\"\\" →
    DoubleBody pieces text rest → DoubleBody (.plain b :: pieces) (b :: text) rest
  | escaped {value escape : List UInt8} {pieces : List Piece} {text rest : List UInt8} :
    Escape value escape (text ++ rest) → DoubleBody pieces text rest →
    DoubleBody (.escaped value :: pieces) ('\\'.toUInt8 :: (escape ++ text)) rest

/-- The source of an embedded expression, with `braces` open and inside a string that `quote` closes:
a backslash takes a byte along in double quotes, and a quote is doubled in single ones. -/
inductive Embedded : Nat → Option UInt8 → List UInt8 → Prop
  | done : Embedded 0 none []
  | taken {braces : Nat} {b : UInt8} {text : List UInt8} : Embedded braces (some '"'.toUInt8) text →
    Embedded braces (some '"'.toUInt8) ('\\'.toUInt8 :: b :: text)
  | doubled {braces : Nat} {text : List UInt8} : Embedded braces (some '\''.toUInt8) text →
    Embedded braces (some '\''.toUInt8) ('\''.toUInt8 :: '\''.toUInt8 :: text)
  | inside {braces : Nat} {active b : UInt8} {text : List UInt8} : b ≠ active →
    (active = '"'.toUInt8 → b ≠ '\\'.toUInt8) → Embedded braces (some active) text →
    Embedded braces (some active) (b :: text)
  | closes {braces : Nat} {active : UInt8} {text : List UInt8} :
    (active = '\''.toUInt8 → text.head? ≠ some '\''.toUInt8) → Embedded braces none text →
    Embedded braces (some active) (active :: text)
  | opens {braces : Nat} {b : UInt8} {text : List UInt8} : b = '\''.toUInt8 ∨ b = '"'.toUInt8 →
    Embedded braces (some b) text → Embedded braces none (b :: text)
  | brace {braces : Nat} {text : List UInt8} : Embedded (braces + 1) none text →
    Embedded braces none ('\x7b'.toUInt8 :: text)
  | unbrace {braces : Nat} {text : List UInt8} : Embedded braces none text →
    Embedded (braces + 1) none ('\x7d'.toUInt8 :: text)
  | byte {braces : Nat} {b : UInt8} {text : List UInt8} : b ∉ bytes "'\"\x7b\x7d" →
    Embedded braces none text → Embedded braces none (b :: text)

/-- The parts of an interpolated string as they stand in the source. -/
inductive InterpolatedBody (quote : UInt8) :
    List InterpolationPart → List UInt8 → List UInt8 → Prop
  | nil {rest : List UInt8} : InterpolatedBody quote [] [] rest
  | doubled {parts : List InterpolationPart} {text rest : List UInt8} : quote = '\''.toUInt8 →
    InterpolatedBody quote parts text rest →
    InterpolatedBody quote (.literal [quote] :: parts) (quote :: quote :: text) rest
  | escaped {value escape : List UInt8} {parts : List InterpolationPart} {text rest : List UInt8} :
    quote = '"'.toUInt8 → Escape value escape (text ++ rest) →
    InterpolatedBody quote parts text rest →
    InterpolatedBody quote (.literal value :: parts) ('\\'.toUInt8 :: (escape ++ text)) rest
  | brace {b : UInt8} {parts : List InterpolationPart} {text rest : List UInt8} :
    b = '\x7b'.toUInt8 ∨ b = '\x7d'.toUInt8 → InterpolatedBody quote parts text rest →
    InterpolatedBody quote (.literal [b] :: parts) (b :: b :: text) rest
  | expression {source : List UInt8} {parts : List InterpolationPart} {text rest : List UInt8} :
    Embedded 0 none source → source.head? ≠ some '\x7b'.toUInt8 →
    source.all isAsciiWhitespace = false → InterpolatedBody quote parts text rest →
    InterpolatedBody quote (.expression source :: parts)
      ('\x7b'.toUInt8 :: (source ++ '\x7d'.toUInt8 :: text)) rest
  | byte {b : UInt8} {parts : List InterpolationPart} {text rest : List UInt8} : b ≠ quote →
    b ∉ bytes "\x7b\x7d" → (quote = '"'.toUInt8 → b ≠ '\\'.toUInt8) →
    InterpolatedBody quote parts text rest →
    InterpolatedBody quote (.literal [b] :: parts) (b :: text) rest

/-- Literal parts that stand side by side are one part, and empty ones are none. -/
def joinParts (literal : List UInt8) : List InterpolationPart → List InterpolationPart
  | [] => literalPart literal
  | .literal value :: parts => joinParts (literal ++ value) parts
  | .expression source :: parts =>
    literalPart literal ++ .expression source :: joinParts [] parts

/-! ## Names and operators -/

/-- The suffix of a comparison operator. -/
inductive Suffix : CaseSensitivity → List UInt8 → List UInt8 → Prop
  | default {rest : List UInt8} : rest.head? ≠ some '#'.toUInt8 → rest.head? ≠ some '?'.toUInt8 →
    Suffix .default [] rest
  | matchCase {rest : List UInt8} : Suffix .matchCase (bytes "#") rest
  | ignoreCase {rest : List UInt8} : Suffix .ignoreCase (bytes "?") rest

/-- A name, with a scope before it if it has one. -/
structure Name (text rest : List UInt8) : Prop where
  stops : Stops isNameContinue rest
  word : ∃ scope first more, text = scope ++ first :: more ∧ isNameStart first ∧
    more.all isNameContinue ∧
    (scope = [] ∧ isScoped (text ++ rest) = false ∨ ∃ letter ∈ bytes "gbwtslav",
      scope = [letter, ':'.toUInt8])

/-- The words that are comparison operators. -/
def comparisonWords : List (List UInt8 × (CaseSensitivity → TokenKind)) :=
  [(bytes "is", .is), (bytes "isnot", .isNot)]

/-- The suffix of a comparison word, which a longer name must not continue. -/
def WordSuffix (case : CaseSensitivity) (suffix rest : List UInt8) : Prop :=
  Suffix case suffix rest ∧ (case ≠ .ignoreCase → Stops isNameContinue rest)

/-! ## Tokens -/

inductive Spells (parseFloat : List UInt8 → Option UInt64) :
    TokenKind → List UInt8 → List UInt8 → Prop
  | eof {rest : List UInt8} : (∀ b ∈ rest.head?, b = '\n'.toUInt8) → Spells parseFloat .eof [] rest
  | number {kind : TokenKind} {text rest : List UInt8} : SpellsNumber parseFloat kind text rest →
    Spells parseFloat kind text rest
  | blob {mark : UInt8} {digits body rest : List UInt8} : mark ∈ bytes "zZ" → BlobBody digits body →
    digits.length % 2 = 0 → Stops isNameContinue rest → ¬BlobContinues rest →
    Spells parseFloat (.blob (blobBytes digits)) ('0'.toUInt8 :: mark :: body) rest
  | singleString {value text rest : List UInt8} : SingleBody value text →
    rest.head? ≠ some '\''.toUInt8 →
    Spells parseFloat (.string value) ('\''.toUInt8 :: (text ++ ['\''.toUInt8])) rest
  | doubleString {pieces : List Piece} {text rest : List UInt8} :
    DoubleBody pieces text ('"'.toUInt8 :: rest) →
    Spells parseFloat (.string (piecesValue pieces)) ('"'.toUInt8 :: (text ++ ['"'.toUInt8])) rest
  | interpolated {quote : UInt8} {parts : List InterpolationPart} {text rest : List UInt8} :
    quote = '\''.toUInt8 ∨ quote = '"'.toUInt8 →
    InterpolatedBody quote parts text (quote :: rest) →
    (quote = '\''.toUInt8 → rest.head? ≠ some '\''.toUInt8) →
    Spells parseFloat (.interpolated (joinParts [] parts)) ('$'.toUInt8 :: quote :: (text ++ [quote]))
      rest
  | environment {name rest : List UInt8} : name ≠ [] → name.all isNameContinue →
    Stops isNameContinue rest → Spells parseFloat (.environment name) ('$'.toUInt8 :: name) rest
  | andAnd {rest : List UInt8} : Spells parseFloat .andAnd (bytes "&&") rest
  | option {name rest : List UInt8} : name ≠ [] → name.all isNameContinue →
    Stops isNameContinue rest → ¬(name ∈ [bytes "g", bytes "l"] ∧ rest.head? = some ':'.toUInt8) →
    Spells parseFloat (.option none name) ('&'.toUInt8 :: name) rest
  | scopedOption {scope : UInt8} {name rest : List UInt8} : scope ∈ bytes "gl" → name ≠ [] →
    name.all isNameContinue → Stops isNameContinue rest →
    Spells parseFloat (.option (some scope) name) ('&'.toUInt8 :: scope :: ':'.toUInt8 :: name) rest
  | register {name : UInt8} {rest : List UInt8} :
    Spells parseFloat (.register name) ['@'.toUInt8, name] rest
  | operator {operator : Operator} {case : CaseSensitivity} {suffix rest : List UInt8} :
    operator ∈ operators →
    (∀ other ∈ operators, other.spelling <+: operator.spelling ++ suffix ++ rest →
      other.spelling.length ≤ operator.spelling.length) →
    (if operator.suffixed then Suffix case suffix rest else case = .default ∧ suffix = []) →
    Spells parseFloat (operator.kind case) (operator.spelling ++ suffix) rest
  | comparison {word : List UInt8 × (CaseSensitivity → TokenKind)} {case : CaseSensitivity}
    {suffix rest : List UInt8} : word ∈ comparisonWords → WordSuffix case suffix rest →
    Spells parseFloat (word.2 case) (word.1 ++ suffix) rest
  | identifier {text rest : List UInt8} : Name text rest →
    text ∉ [bytes "is", bytes "isnot", bytes "is#", bytes "isnot#"] →
    Spells parseFloat (.identifier text) text rest

end Oxvim.Eval.Lexer
