import StyleTrim.Sanitize.Pattern
import StyleTrim.Token.Stream

/-!
# Dangerous constructs behind escapes

Escapes can spell a dangerous construct so that no plain text shows it. Its tokens still show it
in their decoded values. A construct found in this way is a span of the text, from the first byte
of its first token to behind the last byte of its last one.
-/

namespace StyleTrim

structure Span where
  start : Nat
  stop : Nat
deriving DecidableEq, Repr

namespace Decoded

def isDangerousAddress (value : Bytes) : Bool :=
  startsWithWord Pattern.scriptScheme value || startsWithWord Pattern.pageScheme value

def lastSignificant : List Token -> Option Token
  | [] => none
  | t :: ts => if t.kind = .whitespace then lastSignificant ts else some t

def isDangerousString (previous : Option Token) (value : Bytes) : Bool :=
  match previous with
  | none => false
  | some t =>
      if t.kind = .function ∧ sameWord t.value (ascii "url") then isDangerousAddress value
      else if t.kind = .atKeyword ∧ sameWord t.value (ascii "import") then
        startsWithWord Pattern.scriptScheme value
      else false

def isDangerousProperty (name : Bytes) : Bool :=
  sameWord name (ascii "behavior") || sameWord name (ascii "-moz-binding")

def colonStop? : List Token -> Option Nat
  | [] => none
  | t :: ts =>
      if t.kind = .whitespace then colonStop? ts
      else if t.kind = .colon then some t.stop
      else none

/-- Where the dangerous construct ends that begins with the token `t`; the tokens before `t` come
last one first. -/
def stopAt? (before : List Token) (t : Token) (after : List Token) : Option Nat :=
  match t.kind with
  | .url => if isDangerousAddress t.value then some t.stop else none
  | .string => if isDangerousString (lastSignificant before) t.value then some t.stop else none
  | .function => if sameWord t.value (ascii "expression") then some t.stop else none
  | .ident => if isDangerousProperty t.value then colonStop? after else none
  | _ => none

def collect (before : List Token) (ts : List Token) (taken : List Span) : List Span :=
  match ts with
  | [] => taken.reverse
  | t :: after =>
      match stopAt? before t after with
      | some stop => collect (t :: before) after (⟨t.offset, stop⟩ :: taken)
      | none => collect (t :: before) after taken

/-- The spans of all dangerous constructs in a text, left to right. -/
def spans (s : Bytes) : List Span :=
  collect [] (Token.tokenize s) []

end Decoded
end StyleTrim
