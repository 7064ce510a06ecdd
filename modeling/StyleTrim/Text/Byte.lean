/-!
# Bytes

Every text of this library is a list of bytes: style sheets, markup, paths and messages alike.
Only ASCII letters have a case, and a byte from 0x80 on is never looked into. This module holds
the classes of bytes that the grammars ask for.
-/

namespace StyleTrim

abbrev Bytes := List UInt8

/-- The bytes of a literal that holds ASCII characters only. -/
def ascii (s : String) : Bytes :=
  s.toList.map Char.toUInt8

namespace Byte

/-!
## ASCII classes
-/

def isDigit (b : UInt8) : Bool :=
  0x30 ≤ b && b ≤ 0x39

def isUpper (b : UInt8) : Bool :=
  0x41 ≤ b && b ≤ 0x5A

def isLower (b : UInt8) : Bool :=
  0x61 ≤ b && b ≤ 0x7A

def isAlpha (b : UInt8) : Bool :=
  isUpper b || isLower b

def isAlnum (b : UInt8) : Bool :=
  isAlpha b || isDigit b

def isHexDigit (b : UInt8) : Bool :=
  isDigit b || (0x41 ≤ b && b ≤ 0x46) || (0x61 ≤ b && b ≤ 0x66)

def hexDigitValue (b : UInt8) : Nat :=
  if isDigit b then b.toNat - 0x30
  else if 0x41 ≤ b && b ≤ 0x46 then b.toNat - 0x37
  else if 0x61 ≤ b && b ≤ 0x66 then b.toNat - 0x57
  else 0

def toLower (b : UInt8) : UInt8 :=
  if isUpper b then b + 0x20 else b

def isBlank (b : UInt8) : Bool :=
  b == 0x20 || (0x09 ≤ b && b ≤ 0x0D)

/-!
## Classes of the style sheet grammar

White space of a style sheet is a blank other than the vertical tab. Names are made of letters,
digits, the hyphen, the underscore and all bytes from 0x80 on.
-/

def isSpace (b : UInt8) : Bool :=
  b == 0x20 || b == 0x09 || b == 0x0A || b == 0x0D || b == 0x0C

def isNameStart (b : UInt8) : Bool :=
  isAlpha b || b == 0x5F || 0x80 ≤ b

def isName (b : UInt8) : Bool :=
  isNameStart b || isDigit b || b == 0x2D

def isNonPrintable (b : UInt8) : Bool :=
  b ≤ 0x08 || b == 0x0B || (0x0E ≤ b && b ≤ 0x1F) || b == 0x7F

def isQuote (b : UInt8) : Bool :=
  b == 0x22 || b == 0x27

end Byte
end StyleTrim
