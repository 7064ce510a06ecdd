import StyleTrim.Text.Byte

/-!
# Tokens

A style sheet is read as a list of tokens. A token keeps the exact text it was read from next to
its decoded value, so text can be written back unchanged; `offset` is where that text begins. The
list ends with its only token of kind `endOfText`.
-/

namespace StyleTrim

inductive TokenKind where
  | ident
  | function
  | atKeyword
  | hash
  | string
  | badString
  | url
  | badUrl
  | number
  | percentage
  | dimension
  | whitespace
  | colon
  | semicolon
  | comma
  | leftBrace
  | rightBrace
  | leftParen
  | rightParen
  | leftBracket
  | rightBracket
  | delim
  | cdc
  | cdo
  | endOfText
deriving DecidableEq, Repr

structure Token where
  kind : TokenKind
  /-- The decoded value: escapes resolved, quotes taken off. -/
  value : Bytes
  /-- The text of the token as it stands in the input. -/
  raw : Bytes
  offset : Nat
  afterComment : Bool
  unterminated : Bool
deriving DecidableEq, Repr

namespace Token

def alike (a b : Token) : Bool :=
  a.kind == b.kind && a.value == b.value && a.raw == b.raw

/-- The token is the single byte `b`, which has no kind of its own. -/
def isDelim (t : Token) (b : UInt8) : Bool :=
  t.kind == .delim && t.value == [b]

/-- A string or an address that breaks off where it must not. -/
def isBad (t : Token) : Bool :=
  t.kind == .badString || t.kind == .badUrl

/-- Where the token ends in the input. -/
def stop (t : Token) : Nat :=
  t.offset + t.raw.length

end Token
end StyleTrim
