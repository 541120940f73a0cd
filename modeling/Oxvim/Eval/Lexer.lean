import Oxvim.Eval.KeyEscape
import Oxvim.Lib.EState

/-!
# The lexer of expressions

The lexer works on bytes. What is left of the source is a list, and the offset of a token in the
source is told by how much of it is left; `total` is the length of the whole source.
-/

namespace Oxvim.Eval.Lexer

open Lib Lib.EState

/-! ## Tokens -/

/-- A half-open byte range in the source. -/
structure Span where
  start : Nat
  stop : Nat
  deriving DecidableEq, Repr

def Span.through (span other : Span) : Span := ⟨span.start, other.stop⟩

/-- The case suffix of a comparison operator: none, `#` or `?`. -/
inductive CaseSensitivity where
  | default
  | matchCase
  | ignoreCase
  deriving DecidableEq, Repr

/-- A literal or an expression segment of an interpolated string. -/
inductive InterpolationPart where
  | literal (bytes : List UInt8)
  | expression (bytes : List UInt8)
  deriving DecidableEq, Repr

inductive TokenKind where
  | eof
  | integer (value : Int64)
  /-- The bits of an IEEE-754 number. -/
  | float (bits : UInt64)
  | string (bytes : List UInt8)
  | interpolated (parts : List InterpolationPart)
  | blob (bytes : List UInt8)
  | identifier (name : List UInt8)
  | environment (name : List UInt8)
  | option (scope : Option UInt8) (name : List UInt8)
  | register (name : UInt8)
  | lParen
  | rParen
  | lBracket
  | rBracket
  | lBrace
  | rBrace
  | comma
  | colon
  | dot
  | dotDot
  | dotDotDot
  | plus
  | minus
  | star
  | slash
  | percent
  | bang
  | andAnd
  | orOr
  | question
  | coalesce
  | arrow
  | hashLBrace
  | equal (case : CaseSensitivity)
  | notEqual (case : CaseSensitivity)
  | greater (case : CaseSensitivity)
  | greaterEqual (case : CaseSensitivity)
  | less (case : CaseSensitivity)
  | lessEqual (case : CaseSensitivity)
  | regexMatch (case : CaseSensitivity)
  | noMatch (case : CaseSensitivity)
  | is (case : CaseSensitivity)
  | isNot (case : CaseSensitivity)
  deriving DecidableEq, Repr

structure Token where
  kind : TokenKind
  span : Span
  deriving DecidableEq, Repr

/-! ## Layout -/

def isBlank (byte : UInt8) : Bool := byte == ' '.toUInt8 || byte == '\t'.toUInt8

def skipBlanks (rest : List UInt8) : List UInt8 := rest.dropWhile isBlank

/-- What follows the bytes up to the end of the line. -/
def skipLine (rest : List UInt8) : List UInt8 := rest.dropWhile (· != '\n'.toUInt8)

/-- Whether a continuation comment, `"\ `, begins here. -/
def beginsComment (rest : List UInt8) : Bool := (bytes "\"\\ ").isPrefixOf rest

theorem skipBlanks_length_le (rest : List UInt8) : (skipBlanks rest).length ≤ rest.length :=
  List.length_dropWhile_le ..

theorem skipLine_length_le (rest : List UInt8) : (skipLine rest).length ≤ rest.length :=
  List.length_dropWhile_le ..

theorem skipLine_length_lt {rest : List UInt8} (h : beginsComment rest) :
    (skipLine rest).length < rest.length := by
  obtain ⟨more, rfl⟩ := List.isPrefixOf_iff_prefix.mp h
  have hle := skipLine_length_le (bytes "\\ " ++ more)
  change (skipLine (bytes "\\ " ++ more)).length < _
  simp only [List.length_append] at hle ⊢
  have : (bytes "\"\\ ").length = (bytes "\\ ").length + 1 := by decide
  omega

/-- Skip blanks, continuation lines and continuation comments. -/
def skipLayout (atLineStart : Bool) (rest : List UInt8) : List UInt8 :=
  match h : skipBlanks rest with
  | [] => []
  | byte :: tail =>
    if byte = '\n'.toUInt8 then
      let ahead := skipBlanks tail
      if beginsComment ahead then skipLayout true (skipLine (ahead.drop 3))
      else if ahead.head? ≠ some '\\'.toUInt8 then byte :: tail
      else skipLayout false (skipBlanks (ahead.drop 1))
    else if atLineStart ∧ byte = '\\'.toUInt8 then skipLayout false (skipBlanks tail)
    else if hcomment : atLineStart ∧ beginsComment (byte :: tail) then
      skipLayout atLineStart (skipLine (byte :: tail))
    else byte :: tail
termination_by rest.length
decreasing_by
  all_goals
    have hrest := skipBlanks_length_le rest
    have htail := skipBlanks_length_le tail
    rw [h, List.length_cons] at hrest
  · have := skipLine_length_le ((skipBlanks tail).drop 3)
    simp only [List.length_drop] at this
    omega
  · have := skipBlanks_length_le ((skipBlanks tail).drop 1)
    simp only [List.length_drop] at this
    omega
  · omega
  · have := skipLine_length_lt hcomment.2
    rw [List.length_cons] at this
    omega

/-! ## Names and operators -/

def isNameStart (byte : UInt8) : Bool := isAlphabetic byte || byte == '_'.toUInt8

def isNameContinue (byte : UInt8) : Bool :=
  isAlphabetic byte || isDigit byte || byte == '_'.toUInt8 || byte == '#'.toUInt8

def lexCaseSuffix (rest : List UInt8) : CaseSensitivity × List UInt8 :=
  if rest.head? = some '#'.toUInt8 then (.matchCase, rest.drop 1)
  else if rest.head? = some '?'.toUInt8 then (.ignoreCase, rest.drop 1)
  else (.default, rest)

/-- Whether a name begins with a scope, as `g:name` does. -/
def isScoped (rest : List UInt8) : Bool :=
  rest.head?.any (· ∈ bytes "gbwtslav") && rest[1]? == some ':'.toUInt8 &&
    (rest[2]?).any isNameStart

def lexIdentifier (rest : List UInt8) : TokenKind × List UInt8 :=
  let after := (rest.drop (if isScoped rest then 2 else 1)).dropWhile isNameContinue
  let name := rest.take (rest.length - after.length)
  if name = bytes "is#" then (.is .matchCase, after)
  else if name = bytes "isnot#" then (.isNot .matchCase, after)
  else
    let (case, after) :=
      if after.head? = some '#'.toUInt8 ∨ after.head? = some '?'.toUInt8 then lexCaseSuffix after
      else (.default, after)
    if name = bytes "is" then (.is case, after)
    else if name = bytes "isnot" then (.isNot case, after)
    else (.identifier name, after)

/-- A fixed spelling; comparisons take a case suffix. -/
structure Operator where
  spelling : List UInt8
  kind : CaseSensitivity → TokenKind
  suffixed : Bool

/-- The fixed spellings from `#{` on, a longer one before those it begins with. -/
def operators : List Operator :=
  let plain (spelling : String) (kind : TokenKind) : Operator := ⟨bytes spelling, fun _ => kind, false⟩
  let comparison (spelling : String) (kind : CaseSensitivity → TokenKind) : Operator :=
    ⟨bytes spelling, kind, true⟩
  [plain "#\x7b" .hashLBrace, plain "(" .lParen, plain ")" .rParen, plain "[" .lBracket,
    plain "]" .rBracket, plain "\x7b" .lBrace, plain "\x7d" .rBrace, plain "," .comma,
    plain ":" .colon, plain "+" .plus, plain "*" .star, plain "/" .slash, plain "%" .percent,
    plain "->" .arrow, plain "-" .minus, plain "..." .dotDotDot, plain ".." .dotDot, plain "." .dot,
    plain "??" .coalesce, plain "?" .question, plain "||" .orOr,
    comparison "==" .equal, comparison "=~" .regexMatch, comparison "!=" .notEqual,
    comparison "!~" .noMatch, plain "!" .bang, comparison ">=" .greaterEqual,
    comparison ">" .greater, comparison "<=" .lessEqual, comparison "<" .less]

def lexOperator (rest : List UInt8) : Option (TokenKind × List UInt8) :=
  (operators.find? fun operator => operator.spelling.isPrefixOf rest).map fun operator =>
    let after := rest.drop operator.spelling.length
    if operator.suffixed then (operator.kind (lexCaseSuffix after).1, (lexCaseSuffix after).2)
    else (operator.kind .default, after)

def lexEnvironment (total : Nat) (rest : List UInt8) : Except EvalError (TokenKind × List UInt8) :=
  let name := (rest.drop 1).takeWhile isNameContinue
  if name = [] then
    .error ⟨"E15", total - rest.length, "environment variable name is missing"⟩
  else .ok (.environment name, (rest.drop 1).dropWhile isNameContinue)

def lexOption (total : Nat) (rest : List UInt8) : Except EvalError (TokenKind × List UInt8) :=
  let tail := rest.drop 1
  let scope := if (tail.head? = some 'g'.toUInt8 ∨ tail.head? = some 'l'.toUInt8) ∧
    tail[1]? = some ':'.toUInt8 then tail.head? else none
  let tail := if scope.isSome then tail.drop 2 else tail
  let name := tail.takeWhile isNameContinue
  if name = [] then .error ⟨"E112", total - rest.length, "option name is missing"⟩
  else .ok (.option scope name, tail.dropWhile isNameContinue)

def lexRegister (total : Nat) (rest : List UInt8) : Except EvalError (TokenKind × List UInt8) :=
  match rest.drop 1 with
  | [] => .error ⟨"E15", total - rest.length, "register name is missing"⟩
  | name :: after => .ok (.register name, after)

/-! ## Numbers and blobs -/

def parseInteger (digits : List UInt8) (base offset : Nat) : Except EvalError Int64 :=
  match fromStrRadix (2 ^ 63) base digits with
  | some value => .ok (Int64.ofNat value)
  | none => .error ⟨"E15", offset, "integer literal is out of range"⟩

def isOctal (byte : UInt8) : Bool := '0'.toUInt8 ≤ byte && byte ≤ '7'.toUInt8

/-- The value of decimal digits; octal digits behind a leading zero are an octal number. -/
def finishInteger (digits : List UInt8) (offset : Nat) : Except EvalError TokenKind :=
  let oldOctal := digits.head? = some '0'.toUInt8 && digits.length > 1 && digits.tail.all isOctal
  let (base, significant) := if oldOctal then (8, digits.tail) else (10, digits)
  (parseInteger (if significant = [] then digits else significant) base offset).map .integer

def lexBasedInteger (total base : Nat) (rest : List UInt8) :
    Except EvalError (TokenKind × List UInt8) :=
  let start := total - rest.length
  let digits := (rest.drop 2).takeWhile isHexDigit
  if digits = [] then .error ⟨"E15", start, "missing digits after numeric prefix"⟩
  else if digits.any fun digit => !(hexValue digit).any fun d => d.toNat < base then
    .error ⟨"E15", start, "digit is invalid for numeric base"⟩
  else
    (parseInteger digits base start).map fun value =>
      (.integer value, (rest.drop 2).dropWhile isHexDigit)

/-- What follows an exponent, or `none` where it has no digits. -/
def skipExponent (rest : List UInt8) : Option (List UInt8) :=
  if rest.head? = some 'e'.toUInt8 ∨ rest.head? = some 'E'.toUInt8 then
    let tail := rest.drop 1
    let digits := if tail.head? = some '+'.toUInt8 ∨ tail.head? = some '-'.toUInt8 then tail.drop 1
      else tail
    if digits.head?.any isDigit then some (digits.dropWhile isDigit) else none
  else some rest

/-- What follows a float, `afterInteger` being what follows its first digits. A letter-less exponent,
and a dot or letter behind the number, keep it an integer. -/
def skipFloat (afterInteger : List UInt8) : Option (List UInt8) :=
  if afterInteger.head? = some '.'.toUInt8 ∧ (afterInteger[1]?).any isDigit then
    (skipExponent ((afterInteger.drop 1).dropWhile isDigit)).bind fun after =>
      if after.head?.any fun byte => byte == '.'.toUInt8 || isAlphabetic byte then none
      else some after
  else none

/-- The base that a prefix such as `0x` selects. -/
def prefixBase (rest : List UInt8) : Option Nat :=
  if rest.head? = some '0'.toUInt8 then
    if rest[1]? = some 'x'.toUInt8 ∨ rest[1]? = some 'X'.toUInt8 then some 16
    else if rest[1]? = some 'o'.toUInt8 ∨ rest[1]? = some 'O'.toUInt8 then some 8
    else if rest[1]? = some 'b'.toUInt8 ∨ rest[1]? = some 'B'.toUInt8 then some 2
    else none
  else none

def lexNumber (parseFloat : List UInt8 → Option UInt64) (total : Nat) (rest : List UInt8) :
    Except EvalError (TokenKind × List UInt8) :=
  let start := total - rest.length
  match prefixBase rest with
  | some base => lexBasedInteger total base rest
  | none =>
    let digits := rest.takeWhile isDigit
    let afterInteger := rest.dropWhile isDigit
    match skipFloat afterInteger with
    | some after =>
      match parseFloat (rest.take (rest.length - after.length)) with
      | some bits => .ok (.float bits, after)
      | none => .error ⟨"E15", start, "invalid float literal"⟩
    | none => (finishInteger digits start).map fun kind => (kind, afterInteger)

/-- The digits of a blob and what follows it; a dot may stand before a digit. -/
def blobDigits : List UInt8 → List UInt8 × List UInt8
  | [] => ([], [])
  | byte :: rest =>
    if isHexDigit byte then (byte :: (blobDigits rest).1, (blobDigits rest).2)
    else if byte = '.'.toUInt8 ∧ rest.head?.any isHexDigit then blobDigits rest
    else ([], byte :: rest)

/-- The bytes that pairs of digits stand for. -/
def blobBytes : List UInt8 → List UInt8
  | high :: low :: rest =>
    ((hexValue high).getD 0 <<< 4 ||| (hexValue low).getD 0) :: blobBytes rest
  | _ => []

def lexBlob (total : Nat) (rest : List UInt8) : Except EvalError (TokenKind × List UInt8) :=
  let start := total - rest.length
  let (digits, after) := blobDigits (rest.drop 2)
  if after.head?.any isNameContinue then
    .error ⟨"E973", start, "invalid character in blob literal"⟩
  else if digits.length % 2 ≠ 0 then
    .error ⟨"E973", start, "blob literal should have an even number of hex characters"⟩
  else .ok (.blob (blobBytes digits), after)

/-! ## Strings -/

/-- Bytes in front of what was read. -/
def prepend (front : List UInt8) (read : Except EvalError (List UInt8 × List UInt8)) :
    Except EvalError (List UInt8 × List UInt8) :=
  read.map fun found => (front ++ found.1, found.2)

/-- What a single-quoted string holds, its opening quote being read. -/
def lexSingleBody (start : Nat) : List UInt8 → Except EvalError (List UInt8 × List UInt8)
  | [] => .error ⟨"E115", start, "missing single quote"⟩
  | [byte] =>
    if byte = '\''.toUInt8 then .ok ([], [])
    else .error ⟨"E115", start, "missing single quote"⟩
  | byte :: next :: rest =>
    if byte = '\''.toUInt8 ∧ next = '\''.toUInt8 then prepend [byte] (lexSingleBody start rest)
    else if byte = '\''.toUInt8 then .ok ([], next :: rest)
    else prepend [byte] (lexSingleBody start (next :: rest))

def simpleEscape (byte : UInt8) : Option UInt8 :=
  if byte = 'b'.toUInt8 then some 0x08
  else if byte = 'e'.toUInt8 then some 0x1b
  else if byte = 'f'.toUInt8 then some 0x0c
  else if byte = 'n'.toUInt8 then some '\n'.toUInt8
  else if byte = 'r'.toUInt8 then some '\r'.toUInt8
  else if byte = 't'.toUInt8 then some '\t'.toUInt8
  else if byte = '\\'.toUInt8 then some '\\'.toUInt8
  else if byte = '"'.toUInt8 then some '"'.toUInt8
  else none

def octalValue (digits : List UInt8) : Nat :=
  digits.foldl (fun value digit => value * 8 + (digit - '0'.toUInt8).toNat) 0

/-- Up to `limit` hexadecimal digits. -/
def readHexEscape (limit offset : Nat) (rest : List UInt8) :
    Except EvalError (Nat × List UInt8) :=
  let digits := (rest.take limit).takeWhile isHexDigit
  if digits = [] then .error ⟨"E114", offset, "hex escape requires at least one digit"⟩
  else .ok (digitsValue 16 digits, rest.drop digits.length)

/-- The bytes that an escape stands for, its backslash being read. -/
def lexEscape (total stringStart : Nat) (rest : List UInt8) :
    Except EvalError (List UInt8 × List UInt8) :=
  let escapeOffset := total - rest.length - 1
  match rest with
  | [] => .error ⟨"E114", stringStart, "unfinished string escape"⟩
  | byte :: tail =>
    match simpleEscape byte with
    | some value => .ok ([value], tail)
    | none =>
      if isOctal byte then
        let digits := byte :: (tail.take 2).takeWhile isOctal
        .ok ([UInt8.ofNat (octalValue digits)], rest.drop digits.length)
      else if byte = 'x'.toUInt8 ∨ byte = 'X'.toUInt8 then
        (readHexEscape 2 escapeOffset tail).map fun read => ([UInt8.ofNat read.1], read.2)
      else if byte = 'u'.toUInt8 ∨ byte = 'U'.toUInt8 then
        (readHexEscape (if byte = 'u'.toUInt8 then 4 else 8) escapeOffset tail).bind fun read =>
          match fromU32 read.1 with
          | some character => .ok (String.utf8EncodeChar character, read.2)
          | none => .error ⟨"E114", escapeOffset, "invalid Unicode escape"⟩
      else if byte = '<'.toUInt8 then
        (findSpecialKey escapeOffset tail).map fun key =>
          (key.map fun found => (found.1, tail.drop found.2)).getD ([byte], tail)
      else .ok ([byte], tail)

theorem readHexEscape_length_le {limit offset : Nat} {rest : List UInt8} {read : Nat × List UInt8}
    (h : readHexEscape limit offset rest = .ok read) : read.2.length ≤ rest.length := by
  unfold readHexEscape at h
  dsimp only at h
  split_ifs at h
  cases h
  simp

theorem lexEscape_length_lt {total stringStart : Nat} {rest : List UInt8}
    {found : List UInt8 × List UInt8} (h : lexEscape total stringStart rest = .ok found) :
    found.2.length < rest.length := by
  unfold lexEscape at h
  dsimp only at h
  split at h
  · cases h
  split at h
  · cases h
    simp
  split_ifs at h
  · cases h
    simp
  · obtain ⟨read, hread, rfl⟩ := except_map_eq_ok.mp h
    have := readHexEscape_length_le hread
    simp
    omega
  · obtain ⟨read, hread, hchar⟩ := except_bind_eq_ok.mp h
    have := readHexEscape_length_le hread
    split at hchar
    · cases hchar
      simp
      omega
    · cases hchar
  · obtain ⟨read, hread, hchar⟩ := except_bind_eq_ok.mp h
    have := readHexEscape_length_le hread
    split at hchar
    · cases hchar
      simp
      omega
    · cases hchar
  · obtain ⟨key, -, rfl⟩ := except_map_eq_ok.mp h
    cases key with
    | none => simp
    | some found => simp
  · cases h
    simp

/-- What a double-quoted string holds, its opening quote being read. Nothing is kept from an escaped
NUL on. -/
def lexDoubleBody (total start : Nat) (nulSeen : Bool) (kept rest : List UInt8) :
    Except EvalError (List UInt8 × List UInt8) :=
  match rest with
  | [] => .error ⟨"E114", start, "missing double quote"⟩
  | byte :: tail =>
    if byte = '"'.toUInt8 then .ok (kept, tail)
    else if byte = '\\'.toUInt8 then
      match h : lexEscape total start tail with
      | .error e => .error e
      | .ok (escaped, after) =>
        if nulSeen then lexDoubleBody total start true kept after
        else if 0 ∈ escaped then
          lexDoubleBody total start true (kept ++ escaped.takeWhile (· != 0)) after
        else lexDoubleBody total start false (kept ++ escaped) after
    else lexDoubleBody total start nulSeen (if nulSeen then kept else kept ++ [byte]) tail
termination_by rest.length
decreasing_by all_goals first | have := lexEscape_length_lt h; simp at this ⊢; omega | simp

/-- Where a string inside an embedded expression is after the next byte: a backslash takes a byte
along in double quotes, a doubled quote stays in single quotes. -/
def scanQuoted (active : UInt8) : List UInt8 → Nat × Option UInt8
  | [] => (0, some active)
  | byte :: rest =>
    if active = '"'.toUInt8 ∧ byte = '\\'.toUInt8 then (2, some active)
    else if byte = active ∧ active = '\''.toUInt8 ∧ rest.head? = some '\''.toUInt8 then
      (2, some active)
    else if byte = active then (1, none)
    else (1, some active)

/-- The source of an embedded expression up to its closing brace, and what follows the brace. Braces
inside strings do not count. -/
def scanInterpolationExpression (stringStart braces : Nat) (quote : Option UInt8)
    (rest : List UInt8) : Except EvalError (List UInt8 × List UInt8) :=
  match rest with
  | [] => .error ⟨"E1279", stringStart, "missing closing brace in interpolated string"⟩
  | byte :: tail =>
    match quote with
    | some active =>
      let (taken, quote) := scanQuoted active (byte :: tail)
      prepend (byte :: tail.take (taken - 1))
        (scanInterpolationExpression stringStart braces quote (tail.drop (taken - 1)))
    | none =>
      if byte = '\''.toUInt8 ∨ byte = '"'.toUInt8 then
        prepend [byte] (scanInterpolationExpression stringStart braces (some byte) tail)
      else if byte = '\x7b'.toUInt8 then
        prepend [byte] (scanInterpolationExpression stringStart (braces + 1) none tail)
      else if byte = '\x7d'.toUInt8 ∧ braces = 0 then .ok ([], tail)
      else if byte = '\x7d'.toUInt8 then
        prepend [byte] (scanInterpolationExpression stringStart (braces - 1) none tail)
      else prepend [byte] (scanInterpolationExpression stringStart braces none tail)
termination_by rest.length
decreasing_by
  all_goals
    simp
    try omega

theorem scanInterpolationExpression_length_lt {stringStart braces : Nat} {quote : Option UInt8}
    {rest : List UInt8} {found : List UInt8 × List UInt8}
    (h : scanInterpolationExpression stringStart braces quote rest = .ok found) :
    found.2.length < rest.length := by
  fun_induction scanInterpolationExpression stringStart braces quote rest generalizing found
  case case1 => cases h
  case case2 byte tail active taken quote hscan ih =>
    obtain ⟨found', hfound, rfl⟩ := except_map_eq_ok.mp h
    have := ih hfound
    simp at this ⊢
    omega
  case case5 =>
    cases h
    simp
  all_goals
    rename_i ih
    obtain ⟨found', hfound, rfl⟩ := except_map_eq_ok.mp h
    have := ih hfound
    simp
    omega

def isAsciiWhitespace (byte : UInt8) : Bool :=
  byte ∈ [' '.toUInt8, '\t'.toUInt8, '\n'.toUInt8, 0x0c, '\r'.toUInt8]

/-- A literal part, unless it is empty. -/
def literalPart (literal : List UInt8) : List InterpolationPart :=
  if literal = [] then [] else [.literal literal]

/-- The parts of an interpolated string, its opening quote being read: those before `rest`, the
literal read since the last one, and those to come. -/
def lexInterpolatedBody (total start : Nat) (quote : UInt8) (parts : List InterpolationPart)
    (literal rest : List UInt8) : Except EvalError (List InterpolationPart × List UInt8) :=
  match rest with
  | [] =>
    .error ⟨if quote = '"'.toUInt8 then "E114" else "E115", start,
      "missing quote in interpolated string"⟩
  | byte :: tail =>
    if byte = quote then
      if quote = '\''.toUInt8 ∧ tail.head? = some '\''.toUInt8 then
        lexInterpolatedBody total start quote parts (literal ++ ['\''.toUInt8]) (tail.drop 1)
      else .ok (parts ++ literalPart literal, tail)
    else if quote = '"'.toUInt8 ∧ byte = '\\'.toUInt8 then
      match h : lexEscape total start tail with
      | .error e => .error e
      | .ok (escaped, after) =>
        lexInterpolatedBody total start quote parts (literal ++ escaped) after
    else if byte = '\x7b'.toUInt8 ∧ tail.head? = some '\x7b'.toUInt8 then
      lexInterpolatedBody total start quote parts (literal ++ ['\x7b'.toUInt8]) (tail.drop 1)
    else if byte = '\x7d'.toUInt8 ∧ tail.head? = some '\x7d'.toUInt8 then
      lexInterpolatedBody total start quote parts (literal ++ ['\x7d'.toUInt8]) (tail.drop 1)
    else if byte = '\x7d'.toUInt8 then
      .error ⟨"E1278", total - rest.length, "stray closing brace in interpolated string"⟩
    else if byte = '\x7b'.toUInt8 then
      match h : scanInterpolationExpression start 0 none tail with
      | .error e => .error e
      | .ok (expression, after) =>
        if expression.all isAsciiWhitespace then
          .error ⟨"E15", total - tail.length, "empty interpolated expression"⟩
        else
          lexInterpolatedBody total start quote
            (parts ++ literalPart literal ++ [.expression expression]) [] after
    else lexInterpolatedBody total start quote parts (literal ++ [byte]) tail
termination_by rest.length
decreasing_by
  · simp
  · have := lexEscape_length_lt h
    simp at this ⊢
    omega
  · simp
  · simp
  · have := scanInterpolationExpression_length_lt h
    simp at this ⊢
    omega
  · simp

/-! ## One token -/

/-- Two lower-case hexadecimal digits. -/
def hexByte (byte : UInt8) : String :=
  String.ofList [Nat.digitChar (byte.toNat / 16), Nat.digitChar (byte.toNat % 16)]

/-- The token at the start of `rest`, which layout skipping already reached. -/
def nextKind (parseFloat : List UInt8 → Option UInt64) (total : Nat) (rest : List UInt8) :
    Except EvalError (TokenKind × List UInt8) :=
  let start := total - rest.length
  match rest with
  | [] => .ok (.eof, [])
  | byte :: tail =>
    if byte = '\n'.toUInt8 then .ok (.eof, rest)
    else if byte = '0'.toUInt8 ∧ (tail.head? = some 'z'.toUInt8 ∨ tail.head? = some 'Z'.toUInt8) then
      lexBlob total rest
    else if isDigit byte then lexNumber parseFloat total rest
    else if byte = '\''.toUInt8 then
      (lexSingleBody start tail).map fun found => (.string found.1, found.2)
    else if byte = '"'.toUInt8 then
      (lexDoubleBody total start false [] tail).map fun found => (.string found.1, found.2)
    else if byte = '$'.toUInt8 ∧
        (tail.head? = some '\''.toUInt8 ∨ tail.head? = some '"'.toUInt8) then
      (lexInterpolatedBody total start (tail.head?.getD 0) [] [] (tail.drop 1)).map fun found =>
        (.interpolated found.1, found.2)
    else if byte = '$'.toUInt8 then lexEnvironment total rest
    else if byte = '&'.toUInt8 ∧ tail.head? = some '&'.toUInt8 then .ok (.andAnd, tail.drop 1)
    else if byte = '&'.toUInt8 then lexOption total rest
    else if byte = '@'.toUInt8 then lexRegister total rest
    else
      match lexOperator rest with
      | some found => .ok found
      | none =>
        if isNameStart byte then .ok (lexIdentifier rest)
        else .error ⟨"E15", start, "invalid character 0x" ++ hexByte byte ++ " in expression"⟩

end Oxvim.Eval.Lexer
