import StyleTrim.Text.Byte

/-!
# Decimal numbers

Numbers in reports and messages are written in decimal, without leading zeros, a negative one
with a hyphen in front.
-/

namespace StyleTrim
namespace Decimal

def digit (n : Nat) : UInt8 :=
  (0x30 + n).toUInt8

def ofNat (n : Nat) : Bytes :=
  if n < 10 then [digit n] else ofNat (n / 10) ++ [digit (n % 10)]

def ofInt : Int -> Bytes
  | .ofNat n => ofNat n
  | .negSucc n => 0x2D :: ofNat (n + 1)

def ofTenths (n : Nat) : Bytes :=
  ofNat (n / 10) ++ 0x2E :: ofNat (n % 10)

def value (digits : Bytes) : Nat :=
  digits.foldl (fun n d => 10 * n + (d.toNat - 0x30)) 0

def toNat? (s : Bytes) : Option Nat :=
  if s ≠ [] ∧ s.all Byte.isDigit then some (value s) else none

end Decimal
end StyleTrim
