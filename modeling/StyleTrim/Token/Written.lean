import StyleTrim.Token.Separator

/-!
# Written tokens

Tokens are written back in compact form. White space shrinks to one space, and goes where the
place of the text allows it: around commas everywhere, around combinators in a selector, around
colons and inside parentheses in the prelude of an at-rule. Text that the input broke off is
closed: strings, addresses and brackets get the end they lack.
-/

namespace StyleTrim

/-- Where in a style sheet a run of tokens stands. -/
inductive Place where
  | selector
  | prelude
  | value
deriving DecidableEq, Repr

namespace Token

/-!
## Closing what was left open
-/

def endsInLoneBackslash (s : Bytes) : Bool :=
  (s.reverse.takeWhile (· == 0x5C)).length % 2 == 1

def isOpenString (t : Token) : Bool :=
  t.kind == .badString || (t.kind == .string && t.unterminated)

def isOpenAddress (t : Token) : Bool :=
  (t.kind == .url || t.kind == .badUrl) && t.unterminated

/-- The text of a token with the closing quote or parenthesis that the input never gave. A
backslash that would hide it is taken off. -/
def closedText (t : Token) : Bytes :=
  if t.isOpenString || t.isOpenAddress then
    let text := if endsInLoneBackslash t.raw then t.raw.dropLast else t.raw
    text ++ (if t.isOpenString then text.take 1 else [0x29])
  else t.raw

def closer? (t : Token) : Option UInt8 :=
  match t.kind with
  | .function => some 0x29
  | .leftParen => some 0x29
  | .leftBracket => some 0x5D
  | .leftBrace => some 0x7D
  | _ => none

def closing? (t : Token) : Option UInt8 :=
  match t.kind with
  | .rightParen => some 0x29
  | .rightBracket => some 0x5D
  | .rightBrace => some 0x7D
  | _ => none

/-- The closers still owed after one more token, innermost first. A closing token that does not
fit the innermost opening one changes nothing. -/
def owedAfter (owed : Bytes) (t : Token) : Bytes :=
  match t.closer? with
  | some b => b :: owed
  | none =>
      match t.closing?, owed with
      | some b, c :: owed' => if b = c then owed' else owed
      | _, _ => owed

def owed (ts : List Token) : Bytes :=
  ts.foldl owedAfter []

/-!
## Between two tokens
-/

def isCombinator (t : Token) : Bool :=
  t.isDelim 0x3E || t.isDelim 0x2B || t.isDelim 0x7E

def opensGroup (t : Token) : Bool :=
  t.kind == .leftParen || t.kind == .function

def dropsSpace (place : Place) (left right : Token) : Bool :=
  left.kind == .comma || right.kind == .comma ||
    match place with
    | .selector => left.isCombinator || right.isCombinator
    | .prelude =>
        left.opensGroup || right.kind == .rightParen || left.kind == .colon ||
          right.kind == .colon
    | .value => false

/-- What is written between two tokens, given whether white space stood there. Where only a
comment kept two tokens of a selector apart, an empty comment goes on doing so, because a space
would be a combinator. -/
def joint (place : Place) (left : Token) (space : Bool) (right : Token) : Bytes :=
  if space && !dropsSpace place left right then [0x20]
  else if needsSeparator left right then
    if !space && right.afterComment && place == .selector then ascii "/**/" else [0x20]
  else []

/-!
## The whole run
-/

/-- The token leaves no text of its own: the end of the text, and a lone backslash, which would
escape whatever is written after it. -/
def isSilent (t : Token) : Bool :=
  t.kind == .endOfText || t.isDelim 0x5C

/-- Writes tokens behind the last one written, given whether white space came in between. -/
def writeAfter (place : Place) (last : Option Token) (space : Bool) : List Token -> Bytes
  | [] => []
  | t :: ts =>
      if t.isSilent then writeAfter place last space ts
      else if t.kind = .whitespace then writeAfter place last true ts
      else
        let before :=
          match last with
          | none => []
          | some left => joint place left space t
        before ++ (t.closedText ++ writeAfter place (some t) false ts)

/-- The compact text of a run of tokens. -/
def write (place : Place) (ts : List Token) : Bytes :=
  writeAfter place none false ts ++ owed ts

end Token
end StyleTrim
