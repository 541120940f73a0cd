import Oxvim.Eval.Typval
import Oxvim.Lib.Utf8

/-!
# Key names in strings

`"\<C-Up>"` stands for the bytes of a key. `findSpecialKey` reads the source behind `\<`: it walks
over modifiers and a name up to `>`, and turns what it found into bytes. Anything it cannot resolve
is left to the caller, who keeps the `<`.
-/

namespace Oxvim.Eval.Lexer

/-- The bytes of an ASCII text. -/
def bytes (text : String) : List UInt8 := text.toList.map Char.toUInt8

/-! ## Classes of bytes -/

def isDigit (byte : UInt8) : Bool := '0'.toUInt8 ≤ byte && byte ≤ '9'.toUInt8

def isUpper (byte : UInt8) : Bool := 'A'.toUInt8 ≤ byte && byte ≤ 'Z'.toUInt8

def isLower (byte : UInt8) : Bool := 'a'.toUInt8 ≤ byte && byte ≤ 'z'.toUInt8

def isAlphabetic (byte : UInt8) : Bool := isUpper byte || isLower byte

def toUppercase (byte : UInt8) : UInt8 :=
  if isLower byte then byte - 32 else byte

def toLowercase (byte : UInt8) : UInt8 :=
  if isUpper byte then byte + 32 else byte

def eqIgnoreCase (a b : List UInt8) : Bool := a.map toLowercase == b.map toLowercase

def hexValue (byte : UInt8) : Option UInt8 :=
  if isDigit byte then some (byte - '0'.toUInt8)
  else if 'a'.toUInt8 ≤ byte && byte ≤ 'f'.toUInt8 then some (byte - 'a'.toUInt8 + 10)
  else if 'A'.toUInt8 ≤ byte && byte ≤ 'F'.toUInt8 then some (byte - 'A'.toUInt8 + 10)
  else none

def isHexDigit (byte : UInt8) : Bool := (hexValue byte).isSome

/-- The value of digits, the first one weighing most. -/
def digitsValue (base : Nat) (digits : List UInt8) : Nat :=
  digits.foldl (fun value digit => value * base + ((hexValue digit).getD 0).toNat) 0

/-- `from_str_radix` of an integer type that holds the numbers below `bound`. -/
def fromStrRadix (bound base : Nat) (digits : List UInt8) : Option Nat :=
  if digits = [] || !digits.all (fun digit => (hexValue digit).any fun d => d.toNat < base) then none
  else if digitsValue base digits < bound then some (digitsValue base digits) else none

/-- `char::from_u32`. -/
def fromU32 (value : Nat) : Option Char :=
  if value.isValidChar then some (Char.ofNat value) else none

/-! ## Tables of keys -/

/-- One resolved key: a character, or the two bytes of an internal key. -/
inductive DecodedKey where
  | char (value : Nat)
  | special (second third : UInt8)
  deriving DecidableEq, Repr

/-- The marker of the internal keys that have no terminal code. -/
def extra : UInt8 := 0xfd

structure SimplifyRow where
  mask : UInt8
  shifted : UInt8 × UInt8
  plain : UInt8 × UInt8

/-- Keys that have a code of their own when a modifier is held. -/
def simplifyTable : List SimplifyRow :=
  let both (a b c d : Char) : SimplifyRow :=
    ⟨0x02, (a.toUInt8, b.toUInt8), (c.toUInt8, d.toUInt8)⟩
  let coded (mask code : UInt8) (c d : Char) : SimplifyRow :=
    ⟨mask, (extra, code), (c.toUInt8, d.toUInt8)⟩
  [both '&' '9' '@' '1', both '&' '0' '@' '2', both '*' '1' '@' '4', both '*' '2' '@' '5',
    both '*' '3' '@' '6', both '*' '4' 'k' 'D', both '*' '5' 'k' 'L', both '*' '7' '@' '7',
    both '*' '9' '@' '9', both '*' '0' '@' '0', both '#' '1' '%' '1', both '#' '2' 'k' 'h',
    both '#' '3' 'k' 'I', both '#' '4' 'k' 'l', both '%' 'a' '%' '3', both '%' 'b' '%' '4',
    both '%' 'c' '%' '5', both '%' 'd' '%' '7', both '%' 'e' '%' '8', both '%' 'f' '%' '9',
    both '%' 'g' '%' '0', both '%' 'h' '&' '3', both '%' 'i' 'k' 'r', both '%' 'j' '&' '5',
    both '!' '1' '&' '6', both '!' '2' '&' '7', both '!' '3' '&' '8',
    coded 0x04 88 '@' '7', coded 0x04 87 'k' 'h', coded 0x04 85 'k' 'l', coded 0x04 86 'k' 'r',
    coded 0x02 4 'k' 'u', coded 0x02 5 'k' 'd',
    ⟨0x02, (extra, 71), (extra, 57)⟩, ⟨0x02, (extra, 72), (extra, 58)⟩,
    ⟨0x02, (extra, 73), (extra, 59)⟩, ⟨0x02, (extra, 74), (extra, 60)⟩,
    coded 0x02 6 'k' '1', coded 0x02 7 'k' '2', coded 0x02 8 'k' '3', coded 0x02 9 'k' '4',
    coded 0x02 10 'k' '5', coded 0x02 11 'k' '6', coded 0x02 12 'k' '7', coded 0x02 13 'k' '8',
    coded 0x02 14 'k' '9', coded 0x02 15 'k' ';', coded 0x02 16 'F' '1', coded 0x02 17 'F' '2',
    coded 0x02 18 'F' '3', coded 0x02 19 'F' '4', coded 0x02 20 'F' '5', coded 0x02 21 'F' '6',
    coded 0x02 22 'F' '7', coded 0x02 23 'F' '8', coded 0x02 24 'F' '9', coded 0x02 25 'F' 'A',
    coded 0x02 26 'F' 'B', coded 0x02 27 'F' 'C', coded 0x02 28 'F' 'D', coded 0x02 29 'F' 'E',
    coded 0x02 30 'F' 'F', coded 0x02 31 'F' 'G', coded 0x02 32 'F' 'H', coded 0x02 33 'F' 'I',
    coded 0x02 34 'F' 'J', coded 0x02 35 'F' 'K', coded 0x02 36 'F' 'L', coded 0x02 37 'F' 'M',
    coded 0x02 38 'F' 'N', coded 0x02 39 'F' 'O', coded 0x02 40 'F' 'P', coded 0x02 41 'F' 'Q',
    coded 0x02 42 'F' 'R', ⟨0x02, ('k'.toUInt8, 'B'.toUInt8), (extra, 54)⟩]

/-- A byte of an identifier in a key name. -/
def isIdent (byte : UInt8) : Bool :=
  isAlphabetic byte || isDigit byte || byte == '_'.toUInt8

/-- The bit of a modifier letter. -/
def modMask (byte : UInt8) : Option UInt8 :=
  let upper := toUppercase byte
  if upper = 'M'.toUInt8 || upper = 'A'.toUInt8 then some 0x08
  else if upper = 'T'.toUInt8 then some 0x10
  else if upper = 'C'.toUInt8 then some 0x04
  else if upper = 'S'.toUInt8 then some 0x02
  else if upper = '2'.toUInt8 then some 0x20
  else if upper = '3'.toUInt8 then some 0x40
  else if upper = '4'.toUInt8 then some 0x60
  else if upper = 'D'.toUInt8 then some 0x80
  else none

/-- The length of the first character; 1 where the bytes are not one. -/
def utfLen : List UInt8 → Nat
  | [] => 0
  | first :: rest =>
    let len := if first < 0x80 then 1 else if first < 0xe0 then 2 else if first < 0xf0 then 3 else 4
    if rest.length + 1 ≥ len ∧ (rest.take (len - 1)).all (fun byte => byte &&& 0xc0 == 0x80) then len
    else 1

/-- A signed number in any radix and how many bytes it takes; an identifier must not follow. -/
def vimStr2nr (text : List UInt8) : Option (Nat × Nat) :=
  let signed := text.head? = some '-'.toUInt8 || text.head? = some '+'.toUInt8
  let negative := text.head? = some '-'.toUInt8
  let rest := if signed then text.drop 1 else text
  let hasPrefix (mark : String) : Bool := rest.length > 2 && eqIgnoreCase (rest.take 2) (bytes mark)
  let (digits, radix) :=
    if hasPrefix "0x" then (rest.drop 2, 16)
    else if hasPrefix "0o" then (rest.drop 2, 8)
    else if hasPrefix "0b" then (rest.drop 2, 2)
    else (rest, 10)
  let number := digits.takeWhile fun byte => (hexValue byte).any fun digit => digit.toNat < radix
  if number = [] then none
  else if (digits[number.length]?).any isIdent then none
  else (fromStrRadix (2 ^ 32) radix number).map fun value =>
    (if negative then (2 ^ 32 - value) % 2 ^ 32 else value,
      text.length - digits.length + number.length)

/-- The codes that some terminals send for keys with another name. -/
def handleXKeys (second third : UInt8) : DecodedKey :=
  if second = extra then
    if 57 ≤ third ∧ third ≤ 60 then .special 'k'.toUInt8 (third - 8)
    else if 71 ≤ third ∧ third ≤ 74 then .special extra (third - 65)
    else if third = 65 then .special 'k'.toUInt8 'u'.toUInt8
    else if third = 66 then .special 'k'.toUInt8 'd'.toUInt8
    else if third = 67 then .special 'k'.toUInt8 'l'.toUInt8
    else if third = 68 then .special 'k'.toUInt8 'r'.toUInt8
    else if third = 63 ∨ third = 64 then .special 'k'.toUInt8 'h'.toUInt8
    else if third = 61 ∨ third = 62 then .special '@'.toUInt8 '7'.toUInt8
    else .special second third
  else .special second third

/-- The code of a function key. -/
def fKey (number : Nat) : Option DecodedKey :=
  if 1 ≤ number ∧ number ≤ 9 then
    some (.special 'k'.toUInt8 ('0'.toUInt8 + UInt8.ofNat number))
  else if number = 10 then some (.special 'k'.toUInt8 ';'.toUInt8)
  else if 11 ≤ number ∧ number ≤ 63 then
    ((bytes "123456789ABCDEFGHIJKLMNOPQRSTUVWXYZabcdefghijklmnopqr")[number - 11]?).map
      (.special 'F'.toUInt8)
  else none

/-- Names that stand for one character. -/
def plainKeys : List (List String × UInt8) :=
  [(["esc", "escape"], 0x1b), (["cr", "enter", "return"], '\r'.toUInt8),
    (["nl", "lf", "newline", "linefeed"], '\n'.toUInt8), (["tab"], '\t'.toUInt8),
    (["space"], ' '.toUInt8), (["lt"], '<'.toUInt8), (["bar"], '|'.toUInt8),
    (["bslash"], '\\'.toUInt8), (["csi"], 0x9b)]

/-- Names of internal keys with a terminal code. -/
def codedKeys : List (List String × Char × Char) :=
  [(["bs", "backspace"], 'k', 'b'), (["del", "delete"], 'k', 'D'), (["up"], 'k', 'u'),
    (["down"], 'k', 'd'), (["left"], 'k', 'l'), (["right"], 'k', 'r'), (["home"], 'k', 'h'),
    (["end"], '@', '7'), (["pageup"], 'k', 'P'), (["pagedown"], 'k', 'N'),
    (["ins", "insert"], 'k', 'I'), (["help"], '%', '1'), (["undo"], '&', '8'),
    (["find"], '@', '0'), (["select"], '*', '6'),
    (["k0"], 'K', 'C'), (["k1"], 'K', 'D'), (["k2"], 'K', 'E'), (["k3"], 'K', 'F'),
    (["k4"], 'K', 'G'), (["k5"], 'K', 'H'), (["k6"], 'K', 'I'), (["k7"], 'K', 'J'),
    (["k8"], 'K', 'K'), (["k9"], 'K', 'L'), (["kup", "kp8"], 'K', 'u'),
    (["kdown", "kp2"], 'K', 'd'), (["kleft", "kp4"], 'K', 'l'), (["kright", "kp6"], 'K', 'r'),
    (["khome", "kp7"], 'K', '1'), (["kend", "kp1"], 'K', '4'), (["korigin", "kp5"], 'K', '2'),
    (["kpageup", "kp9"], 'K', '3'), (["kpagedown", "kp3"], 'K', '5'),
    (["kplus", "kpplus"], 'K', '6'), (["kminus", "kpminus"], 'K', '7'),
    (["kdivide", "kpdiv"], 'K', '8'), (["kmultiply", "kpmult"], 'K', '9'),
    (["kenter", "kpenter"], 'K', 'A'), (["kpoint"], 'K', 'B'), (["kcomma", "kpcomma"], 'K', 'M'),
    (["kequal", "kpequals"], 'K', 'N')]

/-- Names of internal keys without one. -/
def extraKeys : List (List String × UInt8) :=
  [(["kp0", "kins", "kinsert"], 79), (["kdel", "kpperiod"], 80), (["xf1"], 57), (["xf2"], 58),
    (["xf3"], 59), (["xf4"], 60), (["xend"], 61), (["zend"], 62), (["xhome"], 63), (["zhome"], 64),
    (["xup"], 65), (["xdown"], 66), (["xleft"], 67), (["xright"], 68), (["leftmousenm"], 69),
    (["leftreleasenm"], 70), (["ignore"], 53), (["snr"], 82), (["plug"], 83), (["drop"], 95),
    (["cmd"], 104), (["leftmouse"], 44), (["leftdrag"], 45), (["leftrelease"], 46),
    (["middlemouse"], 47), (["middledrag"], 48), (["middlerelease"], 49), (["rightmouse"], 50),
    (["rightdrag"], 51), (["rightrelease"], 52), (["x1mouse"], 89), (["x1drag"], 90),
    (["x1release"], 91), (["x2mouse"], 92), (["x2drag"], 93), (["x2release"], 94),
    (["mousemove"], 100), (["scrollwheelup", "mousedown"], 75),
    (["scrollwheeldown", "mouseup"], 76), (["scrollwheelleft"], 78), (["scrollwheelright"], 77)]

/-- The key of a name, whatever its case; `t_xx` is a terminal code as it stands. -/
def namedKeyCode (name : List UInt8) (next : UInt8) : Option DecodedKey :=
  let lower := name.map toLowercase
  let holds {α : Type} (row : List String × α) : Bool := row.1.any fun key => bytes key == lower
  if (bytes "t_").isPrefixOf name && name.length ≥ 3 then
    some (.special ((name[2]?).getD 0) ((name[3]?).getD next))
  else if lower.head? = some 'f'.toUInt8 && lower.tail ≠ [] && lower.tail.all isDigit then
    (fromStrRadix 256 10 lower.tail).bind fKey
  else if let some row := plainKeys.find? holds then some (.char row.2.toNat)
  else if let some row := codedKeys.find? holds then
    some (.special row.2.1.toUInt8 row.2.2.toUInt8)
  else if lower = bytes "nul" then some (.special 0xff 'X'.toUInt8)
  else if let some row := extraKeys.find? holds then some (.special extra row.2)
  else if lower = bytes "mouse" then some (.special 0xfb 'X'.toUInt8)
  else none

/-! ## Reading a key name -/

/-- A dash takes the last character of the name along, whatever it is. -/
def passDash (tail : List UInt8) (bp : Nat) : Nat :=
  if tail[bp]? = some '-'.toUInt8 ∧ bp + 1 < tail.length then
    let len := utfLen (tail.drop (bp + 1))
    if tail.length - bp > len + 1 ∧ tail[bp + 1]? ≠ some '"'.toUInt8 ∧
        tail[bp + 1 + len]? = some '>'.toUInt8 then bp + len
    else if tail.length - bp > 3 ∧ tail[bp + 1]? = some '\\'.toUInt8 ∧
        tail[bp + 2]? = some '"'.toUInt8 ∧ tail[bp + 3]? = some '>'.toUInt8 then bp + 2
    else bp
  else bp

theorem le_passDash (tail : List UInt8) (bp : Nat) : bp ≤ passDash tail bp := by
  unfold passDash
  dsimp only
  split_ifs <;> omega

/-- The end of the name behind `\<`, and the last dash that separates modifiers from it; `none` where
`char-` has no number. -/
def scanKeyName (tail : List UInt8) (bp : Nat) (lastDash : Option Nat) :
    Option (Nat × Option Nat) :=
  if hbp : bp < tail.length then
    if tail[bp] = '-'.toUInt8 || isIdent tail[bp] then
      let lastDash := if tail[bp] = '-'.toUInt8 then some bp else lastDash
      let next := passDash tail bp
      if tail.length - next > 4 ∧ tail[next]? = some 't'.toUInt8 ∧
          tail[next + 1]? = some '_'.toUInt8 then
        scanKeyName tail (next + 4) lastDash
      else if tail.length - next > 5 ∧ eqIgnoreCase ((tail.drop next).take 5) (bytes "char-") then
        (vimStr2nr (tail.drop (next + 5))).map fun number => (next + (number.2 + 5), lastDash)
      else scanKeyName tail (next + 1) lastDash
    else some (bp, lastDash)
  else some (bp, lastDash)
termination_by tail.length - bp
decreasing_by all_goals have := le_passDash tail bp; omega

/-- The bits of the modifiers before a name. -/
def modifierBits (before : List UInt8) : Option UInt8 :=
  (before.filter (· ≠ '-'.toUInt8)).foldlM (fun bits byte => (modMask byte).map (bits ||| ·)) 0

/-- The first character of a text that is all of it. -/
def onlyChar (text : List UInt8) : Option Nat :=
  if utfLen text = text.length then
    (Lib.Utf8.decode? text).bind List.head? |>.map Char.toNat
  else none

/-- The key of a name under modifiers, before they are folded into it. -/
def resolveKey (name : List UInt8) (modifiers : UInt8) : Option DecodedKey :=
  if name.length > 5 && eqIgnoreCase (name.take 5) (bytes "char-") &&
      (name[5]?).any isDigit then
    (vimStr2nr (name.drop 5)).map fun number => .char number.1
  else
    let single : Option DecodedKey :=
      if modifiers ≠ 0 then
        if name = bytes "\\\"" then some (.char '"'.toUInt8.toNat)
        else if name.length = 1 then name.head?.map fun byte => .char byte.toNat
        else (onlyChar name).map .char
      else none
    match single with
    | some key => some key
    | none =>
      (namedKeyCode name '>'.toUInt8).map fun key =>
        match key with
        | .char value => .char value
        | .special second third => handleXKeys second third

/-- Take a shifted key's own code where it has one. -/
def simplifyKey (key : DecodedKey) (modifiers : UInt8) : DecodedKey × UInt8 :=
  if modifiers &&& 0x06 ≠ 0 then
    if key = .char '\t'.toUInt8.toNat ∧ modifiers &&& 0x02 ≠ 0 then
      (.special 'k'.toUInt8 'B'.toUInt8, modifiers &&& ~~~0x02)
    else
      match key with
      | .char _ => (key, modifiers)
      | .special first second =>
        match simplifyTable.find? fun row => modifiers &&& row.mask ≠ 0 ∧ row.plain = (first, second) with
        | some row => (.special row.shifted.1 row.shifted.2, modifiers &&& ~~~row.mask)
        | none => (key, modifiers)
  else (key, modifiers)

def isLetter (value : Nat) : Bool := value < 0x80 && isAlphabetic (UInt8.ofNat value)

/-- Fold Shift and Ctrl into a character. -/
def extractModifiers (simplify : Bool) (key : DecodedKey) (modifiers : UInt8) :
    DecodedKey × UInt8 :=
  match key with
  | .special _ _ => (key, modifiers)
  | .char value =>
    let upper (value : Nat) : Nat := (toUppercase (UInt8.ofNat value)).toNat
    let shifted : Bool := modifiers &&& 0x02 ≠ 0 ∧ isLetter value
    let value := if shifted then upper value else value
    let modifiers := if shifted ∧ modifiers &&& 0x04 = 0 then modifiers &&& ~~~0x02 else modifiers
    let value := if modifiers &&& 0x04 ≠ 0 ∧ isLetter value then upper value else value
    if simplify ∧ modifiers &&& 0x04 ≠ 0 ∧ ((0x3f ≤ value ∧ value ≤ 0x5f) ∨ isLetter value) then
      let value := if value = 0x3f then 0x7f else value &&& 0x1f
      (if value = 0 then .special 0xff 'X'.toUInt8 else .char value, modifiers &&& ~~~0x04)
    else (.char value, modifiers)

/-- The bytes a string holds for a key. -/
def keyBytes (key : DecodedKey) (modifiers : UInt8) : Option (List UInt8) :=
  let marked : List UInt8 := if modifiers ≠ 0 then [0x80, 0xfc, modifiers] else []
  match key with
  | .char value => (fromU32 value).map fun character => marked ++ String.utf8EncodeChar character
  | .special second third => some (marked ++ [0x80, second, third])

/-- The bytes of the key that a name stands for, `dash` being where its last modifier ends; a
`literal` key keeps its modifiers. -/
def decodeName (literal : Bool) (name : List UInt8) (dash : Option Nat) : Option (List UInt8) := do
  let (before, after) :=
    match dash with
    | some dash => (name.take dash, name.drop (dash + 1))
    | none => ([], name)
  let modifiers ← modifierBits before
  let key ← resolveKey after modifiers
  if key = .char 0 then none
  let (key, modifiers) := simplifyKey key modifiers
  let (key, modifiers) := extractModifiers (!literal) key modifiers
  keyBytes key modifiers

/-- The key behind `\<`, or `none` where the name is not one. -/
def findSpecialKey (offset : Nat) (tail : List UInt8) :
    Except EvalError (Option (List UInt8 × Nat)) :=
  let literal : Bool := tail.head? = some '*'.toUInt8
  let src := if literal then 1 else 0
  match scanKeyName tail src none with
  | none => .error ⟨"E474", offset, "Invalid argument"⟩
  | some (bp, lastDash) =>
    if tail[bp]? = some '>'.toUInt8 then
      .ok ((decodeName literal ((tail.take bp).drop src) (lastDash.map (· - src))).map
        fun value => (value, bp + 1))
    else .ok none

end Oxvim.Eval.Lexer
