import StyleTrim.Text.Byte

/-!
# UTF-8

Escapes name code points by number. A number that is no scalar value, and zero, stands for the
replacement character, so the encoding below never writes a surrogate or an overlong form.
-/

namespace StyleTrim
namespace Utf8

def scalarOrReplacement (code : Nat) : Nat :=
  if code = 0 ∨ 0x10FFFF < code ∨ (0xD800 ≤ code ∧ code ≤ 0xDFFF) then 0xFFFD else code

def continuation (n : Nat) : UInt8 :=
  (0x80 + n % 0x40).toUInt8

def encode (code : Nat) : Bytes :=
  if code < 0x80 then
    [code.toUInt8]
  else if code < 0x800 then
    [(0xC0 + code / 0x40).toUInt8, continuation code]
  else if code < 0x10000 then
    [(0xE0 + code / 0x1000).toUInt8, continuation (code / 0x40), continuation code]
  else
    [(0xF0 + code / 0x40000).toUInt8, continuation (code / 0x1000), continuation (code / 0x40),
      continuation code]

end Utf8
end StyleTrim
