import Mathlib.Data.List.TakeWhile

/-!
# ASCII classes of bytes
-/

namespace Lib.Ascii

/-- `u8::is_ascii_whitespace`: space, tab, line feed, form feed and carriage return. -/
def isAsciiWhitespace (byte : UInt8) : Bool :=
  byte == ' '.toUInt8 || byte == '\t'.toUInt8 || byte == '\n'.toUInt8 || byte == 0x0c ||
    byte == '\r'.toUInt8

def isAsciiDigit (byte : UInt8) : Bool := '0'.toUInt8 ≤ byte && byte ≤ '9'.toUInt8

def isAsciiLowercase (byte : UInt8) : Bool := 'a'.toUInt8 ≤ byte && byte ≤ 'z'.toUInt8

def isAsciiUppercase (byte : UInt8) : Bool := 'A'.toUInt8 ≤ byte && byte ≤ 'Z'.toUInt8

def isAsciiAlphanumeric (byte : UInt8) : Bool :=
  isAsciiDigit byte || isAsciiLowercase byte || isAsciiUppercase byte

@[simp] theorem isAsciiWhitespace_newline : isAsciiWhitespace '\n'.toUInt8 = true := by decide

end Lib.Ascii
