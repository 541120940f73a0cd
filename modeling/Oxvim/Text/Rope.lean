import Oxvim.Lib.Lines
import Oxvim.Lib.Utf8

/-!
# The rope

What the text buffer relies on in `ropey` (built without `unicode_lines` and `cr_lines`): a rope is
a character sequence, its lines end at line feeds, and `remove` and `insert` edit the sequence at
character offsets.

`ropey` panics on an offset behind the end; here such an offset is cut to the end, and the buffer's
lemmas show that it never asks for one (`spliceRange_offsets`).
-/

namespace Oxvim.Text

open Lib

/-- A rope, as the character sequence it holds. -/
structure Rope where
  chars : List Char
  deriving DecidableEq, Repr

namespace Rope

def empty : Rope := ⟨[]⟩

def lenChars (self : Rope) : Nat := self.chars.length

def lenBytes (self : Rope) : Nat := (Utf8.encode self.chars).length

/-- One more than the number of line feeds. -/
def lenLines (self : Rope) : Nat := self.chars.count '\n' + 1

/-- The character offset at which the zero-based line `line` begins. -/
def lineToChar (self : Rope) (line : Nat) : Nat := lineStart '\n' self.chars line

/-- The byte offset at which the zero-based line `line` begins. -/
def lineToByte (self : Rope) (line : Nat) : Nat :=
  (Utf8.encode (self.chars.take (self.lineToChar line))).length

/-- The zero-based line `line`, with its line feed when it has one. -/
def line (self : Rope) (line : Nat) : List Char :=
  (self.chars.drop (self.lineToChar line)).take (self.lineToChar (line + 1) - self.lineToChar line)

def remove (self : Rope) (start stop : Nat) : Rope :=
  ⟨self.chars.take start ++ self.chars.drop stop⟩

def insert (self : Rope) (index : Nat) (text : List Char) : Rope :=
  ⟨self.chars.take index ++ text ++ self.chars.drop index⟩

end Rope

end Oxvim.Text
