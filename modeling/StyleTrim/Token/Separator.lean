import StyleTrim.Token.Stream

/-!
# Separators

Two tokens written side by side may read back as something else: two names fuse into one, a
solidus and an asterisk open a comment. `needsSeparator` says when something has to stand
between them. Only the kind and value of the left token and the first byte of the right one
matter, and the kind of the right one in two places.
-/

namespace StyleTrim
namespace Token

def continuesName (b : UInt8) : Bool :=
  Byte.isName b || b == 0x5C

/-- What may not follow a number: it would become a longer number, a percentage or a dimension.
A hyphen is harmless only as the sign of another number. -/
def continuesNumber (b : UInt8) (right : TokenKind) : Bool :=
  Byte.isNameStart b || Byte.isDigit b || b == 0x2E || b == 0x25 ||
    (b == 0x2D && right != .number && right != .dimension)

def continuesDelim (delim : Bytes) (b : UInt8) : Bool :=
  match delim with
  | [0x2F] => b == 0x2A
  | [0x23] => continuesName b
  | [0x40] => continuesName b
  | [0x2D] => Byte.isNameStart b || Byte.isDigit b || b == 0x2D || b == 0x2E
  | [0x2E] => Byte.isDigit b
  | [0x2B] => Byte.isDigit b
  | [0x3C] => b == 0x21
  | _ => false

def needsSeparator (left right : Token) : Bool :=
  if left.raw.isEmpty then false
  else
    match right.raw with
    | [] => false
    | b :: _ =>
        match left.kind with
        | .ident => right.kind == .leftParen || continuesName b
        | .atKeyword => continuesName b
        | .hash => continuesName b
        | .dimension => continuesName b
        | .number => continuesNumber b right.kind
        | .delim => continuesDelim left.value b
        | _ => false

end Token
end StyleTrim
