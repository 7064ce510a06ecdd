import StyleTrim.Selector.Basic
import StyleTrim.Selector.Error
import StyleTrim.Token.Stream

/-!
# Reading a simple selector

The readers take the tokens that are left, without the end of the text, and give back a simple
selector with the tokens behind it. The first thing that is wrong ends the reading.
-/

namespace StyleTrim
namespace Simple

abbrev Read := Except SelectorError (Simple × List Token)

def skipSpace (ts : List Token) : List Token :=
  ts.dropWhile fun t => t.kind == .whitespace

/-!
## Elements

A namespace is a name or an asterisk with a bar behind it, or a bar alone.
-/

def isElement (t : Token) : Bool :=
  t.kind == .ident || t.isDelim 0x2A

def isBar (t : Token) : Bool :=
  t.isDelim 0x7C

def dropElementNamespace : List Token -> List Token
  | [] => []
  | t :: ts =>
      if isBar t then ts
      else
        match ts with
        | bar :: name :: rest =>
            if isElement t && isBar bar && isElement name then name :: rest else t :: ts
        | _ => t :: ts

def readElementName : List Token -> Read
  | [] => .error .elementName
  | t :: ts =>
      if t.kind = .ident then .ok (.element t.value, ts)
      else if t.isDelim 0x2A then .ok (.universal, ts)
      else .error .elementName

/-!
## Classes and pseudo-classes
-/

def readClassName : List Token -> Read
  | [] => .error .className
  | t :: ts => if t.kind = .ident then .ok (.className t.value, ts) else .error .className

def isLegacyPseudoElement (name : Bytes) : Bool :=
  [ascii "before", ascii "after", ascii "first-line", ascii "first-letter"].contains (lower name)

/-- The text up to the parenthesis that closes the argument; `depth` counts those opened inside
of it. -/
def readArgument (depth : Nat) : List Token -> Option (Bytes × List Token)
  | [] => none
  | t :: ts =>
      if t.kind = .function ∨ t.kind = .leftParen then
        (readArgument (depth + 1) ts).map fun r => (t.raw ++ r.1, r.2)
      else if t.kind = .rightParen then
        match depth with
        | 0 => some ([], ts)
        | depth + 1 => (readArgument depth ts).map fun r => (t.raw ++ r.1, r.2)
      else (readArgument depth ts).map fun r => (t.raw ++ r.1, r.2)

def readPseudoName (doubled : Bool) : List Token -> Read
  | [] => .error .pseudoName
  | t :: ts =>
      if t.kind = .ident then
        if doubled || isLegacyPseudoElement t.value then .ok (.pseudoElement t.value [], ts)
        else .ok (.pseudoClass t.value [], ts)
      else if t.kind = .function then
        match readArgument 0 ts with
        | none => .error .unclosedArgument
        | some (argument, rest) =>
            if doubled then .ok (.pseudoElement t.value argument, rest)
            else .ok (.pseudoClass t.value argument, rest)
      else .error .pseudoName

def readPseudo : List Token -> Read
  | [] => .error .pseudoName
  | t :: ts =>
      if t.kind = .colon then readPseudoName true ts else readPseudoName false (t :: ts)

/-!
## Attributes
-/

def dropAttributeNamespace : List Token -> List Token
  | t :: bar :: ts =>
      if isBar t && bar.kind == .ident then bar :: ts
      else
        match ts with
        | name :: _ =>
            if isElement t && isBar bar && name.kind == .ident then ts else t :: bar :: ts
        | [] => t :: bar :: ts
  | ts => ts

def operatorOf? (sign : Bytes) : Option AttributeOperator :=
  match sign with
  | [0x7E] => some .includes
  | [0x7C] => some .dashMatch
  | [0x5E] => some .startsWith
  | [0x24] => some .endsWith
  | [0x2A] => some .contains
  | _ => none

def readOperator : List Token -> Except SelectorError (AttributeOperator × List Token)
  | [] => .error .attributeOperator
  | t :: ts =>
      if t.kind ≠ .delim then .error .attributeOperator
      else if t.value = [0x3D] then .ok (.equals, ts)
      else
        match operatorOf? t.value, ts with
        | some op, eq :: rest =>
            if eq.isDelim 0x3D then .ok (op, rest) else .error (.unknownOperator t.value)
        | _, _ => .error (.unknownOperator t.value)

def isAttributeValue (t : Token) : Bool :=
  t.kind == .string || t.kind == .ident || t.kind == .number || t.kind == .dimension

def isCaseMark (t : Token) : Bool :=
  t.kind == .ident && (lower t.value == ascii "i" || lower t.value == ascii "s")

def dropCaseMark : List Token -> List Token
  | [] => []
  | t :: ts => if isCaseMark t then skipSpace ts else t :: ts

def closeAttribute (s : Simple) : List Token -> Read
  | [] => .error .unclosedAttribute
  | t :: ts => if t.kind = .rightBracket then .ok (s, ts) else .error .unclosedAttribute

def readAttributeValue (name : Bytes) (op : AttributeOperator) : List Token -> Read
  | [] => .error .attributeValue
  | t :: ts =>
      if isAttributeValue t then
        closeAttribute (.attribute name (some (op, t.value))) (dropCaseMark (skipSpace ts))
      else .error .attributeValue

def readAttributeTest (name : Bytes) (ts : List Token) : Read :=
  match ts with
  | [] => .error .attributeOperator
  | t :: rest =>
      if t.kind = .rightBracket then .ok (.attribute name none, rest)
      else
        match readOperator ts with
        | .error e => .error e
        | .ok (op, rest) => readAttributeValue name op (skipSpace rest)

def readAttribute (ts : List Token) : Read :=
  match dropAttributeNamespace (skipSpace ts) with
  | [] => .error .attributeName
  | t :: rest =>
      if t.kind = .ident then readAttributeTest t.value (skipSpace rest)
      else .error .attributeName

/-!
## The rules together
-/

/-- An element may only begin a compound selector or follow the nesting sign. A bar is not held
to that. -/
def allowsElement : Option Simple -> Bool
  | none => true
  | some .nesting => true
  | some _ => false

/-- The simple selector that begins with the token `t`, behind `last` in its compound selector;
nothing when `t` begins none. -/
def read? (last : Option Simple) (t : Token) (ts : List Token) : Option Read :=
  if isElement t || isBar t then
    if isBar t || allowsElement last then
      some (readElementName (dropElementNamespace (t :: ts)))
    else some (.error (.unexpectedInCompound t.raw))
  else if t.isDelim 0x26 then some (.ok (.nesting, ts))
  else if t.isDelim 0x2E then some (readClassName ts)
  else if t.kind = .hash then some (.ok (.id t.value, ts))
  else if t.kind = .leftBracket then some (readAttribute ts)
  else if t.kind = .colon then some (readPseudo ts)
  else none

/-!
## Every simple selector takes tokens

The tokens behind a simple selector are fewer than those before it.
-/

theorem skipSpace_length_le (ts : List Token) : (skipSpace ts).length ≤ ts.length :=
  (List.dropWhile_sublist _).length_le

theorem dropElementNamespace_length_le (ts : List Token) :
    (dropElementNamespace ts).length ≤ ts.length := by
  unfold dropElementNamespace
  split
  · simp
  · split
    · simp
    · split
      · split <;> simp
      · simp

theorem dropAttributeNamespace_length_le (ts : List Token) :
    (dropAttributeNamespace ts).length ≤ ts.length := by
  unfold dropAttributeNamespace
  split
  · split
    · simp
    · split
      · split
        · simp
        · simp
      · simp
  · simp

theorem readElementName_length {ts rest : List Token} {s : Simple}
    (h : readElementName ts = .ok (s, rest)) : rest.length < ts.length := by
  unfold readElementName at h
  split at h
  · cases h
  · split at h
    · cases h
      simp
    · split at h <;> cases h
      simp

theorem readClassName_length {ts rest : List Token} {s : Simple}
    (h : readClassName ts = .ok (s, rest)) : rest.length < ts.length := by
  unfold readClassName at h
  split at h
  · cases h
  · split at h <;> cases h
    simp

theorem readArgument_length {depth : Nat} {ts rest : List Token} {argument : Bytes}
    (h : readArgument depth ts = some (argument, rest)) : rest.length < ts.length := by
  induction ts generalizing depth argument rest with
  | nil => simp [readArgument] at h
  | cons t ts ih =>
      have hmap : ∀ {d : Nat},
          (readArgument d ts).map (fun r => (t.raw ++ r.1, r.2)) = some (argument, rest) ->
          rest.length < (t :: ts).length := by
        intro d hd
        obtain ⟨⟨a, r⟩, hr, heq⟩ := Option.map_eq_some_iff.mp hd
        cases heq
        have := ih hr
        simp only [List.length_cons]
        omega
      unfold readArgument at h
      split at h
      · exact hmap h
      · split at h
        · split at h
          · cases h
            simp
          · exact hmap h
        · exact hmap h

theorem readPseudoName_length {doubled : Bool} {ts rest : List Token} {s : Simple}
    (h : readPseudoName doubled ts = .ok (s, rest)) : rest.length < ts.length := by
  unfold readPseudoName at h
  split at h
  · cases h
  · split at h
    · split at h <;> cases h <;> simp
    · split at h
      · split at h
        · cases h
        · rename_i harg
          have := readArgument_length harg
          split at h <;> cases h <;> (simp only [List.length_cons]; omega)
      · cases h

theorem readPseudo_length {ts rest : List Token} {s : Simple}
    (h : readPseudo ts = .ok (s, rest)) : rest.length < ts.length := by
  unfold readPseudo at h
  split at h
  · cases h
  · split at h
    · have := readPseudoName_length h
      simp only [List.length_cons]
      omega
    · exact readPseudoName_length h

theorem readOperator_length {ts rest : List Token} {op : AttributeOperator}
    (h : readOperator ts = .ok (op, rest)) : rest.length < ts.length := by
  unfold readOperator at h
  split at h
  · cases h
  · split at h
    · cases h
    · split at h
      · cases h
        simp
      · split at h
        · split at h <;> cases h
          simp only [List.length_cons]
          omega
        · cases h

theorem dropCaseMark_length_le (ts : List Token) : (dropCaseMark ts).length ≤ ts.length := by
  unfold dropCaseMark
  split
  · simp
  · split
    · rename_i t ts _
      have := skipSpace_length_le ts
      simp only [List.length_cons]
      omega
    · simp

theorem closeAttribute_length {s s' : Simple} {ts rest : List Token}
    (h : closeAttribute s ts = .ok (s', rest)) : rest.length < ts.length := by
  unfold closeAttribute at h
  split at h
  · cases h
  · split at h <;> cases h
    simp

theorem readAttributeValue_length {name : Bytes} {op : AttributeOperator}
    {ts rest : List Token} {s : Simple}
    (h : readAttributeValue name op ts = .ok (s, rest)) : rest.length < ts.length := by
  unfold readAttributeValue at h
  split at h
  · cases h
  · rename_i t ts
    split at h
    · have h1 := closeAttribute_length h
      have h2 := dropCaseMark_length_le (skipSpace ts)
      have h3 := skipSpace_length_le ts
      simp only [List.length_cons]
      omega
    · cases h

theorem readAttributeTest_length {name : Bytes} {ts rest : List Token} {s : Simple}
    (h : readAttributeTest name ts = .ok (s, rest)) : rest.length < ts.length := by
  unfold readAttributeTest at h
  split at h
  · cases h
  · split at h
    · cases h
      simp
    · split at h
      · cases h
      · rename_i _ after hop
        have h1 := readOperator_length hop
        have h2 := readAttributeValue_length h
        have h3 := skipSpace_length_le after
        omega

theorem readAttribute_length {ts rest : List Token} {s : Simple}
    (h : readAttribute ts = .ok (s, rest)) : rest.length < ts.length := by
  have h1 := dropAttributeNamespace_length_le (skipSpace ts)
  have h2 := skipSpace_length_le ts
  unfold readAttribute at h
  split at h
  · cases h
  · rename_i t after hdrop
    rw [hdrop, List.length_cons] at h1
    split at h
    · have h3 := readAttributeTest_length h
      have h4 := skipSpace_length_le after
      omega
    · cases h

theorem read?_length {last : Option Simple} {t : Token} {ts rest : List Token} {s : Simple}
    (h : read? last t ts = some (.ok (s, rest))) : rest.length < (t :: ts).length := by
  unfold read? at h
  split at h
  · split at h
    · have h1 := readElementName_length (Option.some.inj h)
      have h2 := dropElementNamespace_length_le (t :: ts)
      omega
    · cases h
  · split at h
    · cases h
      simp
    · split at h
      · have := readClassName_length (Option.some.inj h)
        simp only [List.length_cons]
        omega
      · split at h
        · cases h
          simp
        · split at h
          · have := readAttribute_length (Option.some.inj h)
            simp only [List.length_cons]
            omega
          · split at h
            · have := readPseudo_length (Option.some.inj h)
              simp only [List.length_cons]
              omega
            · cases h

end Simple
end StyleTrim
