import StyleTrim.Selector.Simple
import StyleTrim.Sheet.Node
import StyleTrim.Token.Written

/-!
# Stretches of tokens

The grammar of blocks is told apart by looking ahead over tokens. This module cuts off the two
stretches that a parser needs, the prelude of a rule and the value of a declaration, and decides
whether a declaration or a nested rule comes next. All functions take the tokens without the end
of the text.
-/

namespace StyleTrim
namespace Sheet

/-- How deep in parentheses and brackets one stands behind the token. A closing token too many
counts for nothing. -/
def depthAfter (depth : Nat) (t : Token) : Nat :=
  match t.kind with
  | .leftParen => depth + 1
  | .function => depth + 1
  | .leftBracket => depth + 1
  | .rightParen => depth - 1
  | .rightBracket => depth - 1
  | _ => depth

/-!
## Preludes
-/

/-- The token ends a prelude. A semicolon does so in a statement, outside of all parentheses. -/
def endsPrelude (statement : Bool) (depth : Nat) (t : Token) : Bool :=
  t.kind == .leftBrace || t.kind == .rightBrace ||
    (statement && depth == 0 && t.kind == .semicolon)

/-- The prelude at the front of the tokens, and the tokens from the one that ends it. -/
def splitPrelude (statement : Bool) (depth : Nat) : List Token -> List Token × List Token
  | [] => ([], [])
  | t :: ts =>
      if endsPrelude statement depth t then ([], t :: ts)
      else
        let r := splitPrelude statement (depthAfter depth t) ts
        (t :: r.1, r.2)

theorem splitPrelude_append (statement : Bool) (depth : Nat) (ts : List Token) :
    (splitPrelude statement depth ts).1 ++ (splitPrelude statement depth ts).2 = ts := by
  induction ts generalizing depth with
  | nil => rfl
  | cons t ts ih =>
      unfold splitPrelude
      split
      · rfl
      · simp [ih]

theorem splitPrelude_length_le (statement : Bool) (depth : Nat) (ts : List Token) :
    (splitPrelude statement depth ts).2.length ≤ ts.length := by
  have h := congrArg List.length (splitPrelude_append statement depth ts)
  rw [List.length_append] at h
  omega

/-!
## Values
-/

def bracesAfter (braces : Nat) (t : Token) : Nat :=
  match t.kind with
  | .leftBrace => braces + 1
  | .rightBrace => braces - 1
  | _ => braces

/-- The value at the front of the tokens. It ends before a semicolon or a closing brace outside
of all brackets and braces: a value may hold whole blocks. -/
def splitValue (depth braces : Nat) : List Token -> List Token × List Token
  | [] => ([], [])
  | t :: ts =>
      if depth = 0 ∧ braces = 0 ∧ (t.kind = .semicolon ∨ t.kind = .rightBrace) then ([], t :: ts)
      else
        let r := splitValue (depthAfter depth t) (bracesAfter braces t) ts
        (t :: r.1, r.2)

theorem splitValue_append (depth braces : Nat) (ts : List Token) :
    (splitValue depth braces ts).1 ++ (splitValue depth braces ts).2 = ts := by
  induction ts generalizing depth braces with
  | nil => rfl
  | cons t ts ih =>
      unfold splitValue
      split
      · rfl
      · simp [ih]

theorem splitValue_length_le (depth braces : Nat) (ts : List Token) :
    (splitValue depth braces ts).2.length ≤ ts.length := by
  have h := congrArg List.length (splitValue_append depth braces ts)
  rw [List.length_append] at h
  omega

/-- The tokens without a semicolon at their front. -/
def dropSemicolon : List Token -> List Token
  | [] => []
  | t :: ts => if t.kind = .semicolon then ts else t :: ts

theorem dropSemicolon_length_le (ts : List Token) : (dropSemicolon ts).length ≤ ts.length := by
  unfold dropSemicolon
  split
  · simp
  · split <;> simp

/-!
## Declarations

A declaration begins with a name and a colon. An asterisk may stand before the name; it belongs to
the property.
-/

/-- The text of the property, its decoded name, and the tokens behind the colon. -/
structure Opening where
  property : Bytes
  name : Bytes
  rest : List Token

def openingAfter? (before : Bytes) : List Token -> Option Opening
  | [] => none
  | t :: ts =>
      if t.kind = .ident then
        match Simple.skipSpace ts with
        | [] => none
        | colon :: rest =>
            if colon.kind = .colon then some ⟨before ++ t.raw, t.value, rest⟩ else none
      else none

def opening? : List Token -> Option Opening
  | [] => none
  | t :: ts => if t.isDelim 0x2A then openingAfter? t.raw ts else openingAfter? [] (t :: ts)

/-- An opening brace comes before anything that ends a declaration. -/
def ruleAhead (depth : Nat) : List Token -> Bool
  | [] => false
  | t :: ts =>
      match t.kind with
      | .leftBrace => true
      | .rightBrace => false
      | .semicolon => depth != 0 && ruleAhead depth ts
      | _ => ruleAhead (depthAfter depth t) ts

/-- The declaration at the front of the tokens, if one begins there. A name and a colon may also
begin the selector of a nested rule; only a custom property may have a block in its value. -/
def declarationAhead? (ts : List Token) : Option Opening :=
  match opening? ts with
  | none => none
  | some o => if (ascii "--").isPrefixOf o.name || !ruleAhead 0 ts then some o else none

theorem openingAfter?_length {before : Bytes} {ts : List Token} {o : Opening}
    (h : openingAfter? before ts = some o) : o.rest.length < ts.length := by
  unfold openingAfter? at h
  split at h
  · cases h
  · rename_i t ts
    have hskip := Simple.skipSpace_length_le ts
    split at h
    · split at h
      · cases h
      · rename_i colon rest hrest
        rw [hrest, List.length_cons] at hskip
        split at h <;> cases h
        simp only [List.length_cons]
        omega
    · cases h

theorem opening?_length {ts : List Token} {o : Opening} (h : opening? ts = some o) :
    o.rest.length < ts.length := by
  unfold opening? at h
  split at h
  · cases h
  · split at h
    · have := openingAfter?_length h
      simp only [List.length_cons]
      omega
    · exact openingAfter?_length h

theorem declarationAhead?_length {ts : List Token} {o : Opening}
    (h : declarationAhead? ts = some o) : o.rest.length < ts.length := by
  unfold declarationAhead? at h
  split at h
  · cases h
  · rename_i o' ho
    split at h
    · cases h
      exact opening?_length ho
    · cases h

def trimEnd (ts : List Token) : List Token :=
  (ts.reverse.dropWhile fun t => t.kind == .whitespace).reverse

def dropImportant? (value : List Token) : Option (List Token) :=
  match (trimEnd value).reverse with
  | word :: before =>
      if word.kind = .ident ∧ lower word.value = ascii "important" then
        match Simple.skipSpace before with
        | bang :: rest => if bang.isDelim 0x21 then some rest.reverse else none
        | [] => none
      else none
  | [] => none

/-- The declaration made of a property and the tokens of its value. A string or an address that
breaks off makes the whole declaration void. -/
def declaration? (property : Bytes) (value : List Token) : Option Node :=
  if value.any Token.isBad then none
  else
    match dropImportant? value with
    | some rest => some ⟨.declaration property (Token.write .value rest) true, []⟩
    | none => some ⟨.declaration property (Token.write .value value) false, []⟩

theorem declaration?_some {property : Bytes} {value : List Token} {node : Node}
    (h : declaration? property value = some node) :
    ∃ text important, node = ⟨.declaration property text important, []⟩ := by
  unfold declaration? at h
  split at h
  · cases h
  · split at h <;>
    · cases h
      exact ⟨_, _, rfl⟩

end Sheet
end StyleTrim
