import StyleTrim.Text.Word

/-!
# Kinds of at-rules

The name of an at-rule says what kind of rule it is, and what its block holds. Names are compared
without regard to case.
-/

namespace StyleTrim

inductive AtRuleKind where
  | charset
  | importSheet
  | namespaceDecl
  | fontFace
  | keyframes
  | media
  | other
deriving DecidableEq, Repr

namespace AtRuleKind

def keyframesNames : List Bytes :=
  [ascii "keyframes", ascii "-webkit-keyframes", ascii "-moz-keyframes", ascii "-o-keyframes",
    ascii "-ms-keyframes"]

def ofName (name : Bytes) : AtRuleKind :=
  let word := lower name
  if word = ascii "charset" then .charset
  else if word = ascii "import" then .importSheet
  else if word = ascii "namespace" then .namespaceDecl
  else if word = ascii "font-face" then .fontFace
  else if word = ascii "media" then .media
  else if keyframesNames.contains word then .keyframes
  else .other

def groupNames : List Bytes :=
  [ascii "media", ascii "supports", ascii "layer", ascii "container", ascii "document",
    ascii "-moz-document", ascii "scope", ascii "starting-style"]

def isGroupName (name : Bytes) : Bool :=
  groupNames.contains (lower name)

end AtRuleKind
end StyleTrim
