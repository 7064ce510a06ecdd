import StyleTrim.Text.Byte

/-!
# Selectors

A selector list offers alternatives, each a complex selector: compound selectors joined by
combinators. A compound selector is a run of simple selectors that all speak of one element.
Namespaces and the case marks of attribute selectors are read over and not kept.
-/

namespace StyleTrim

/-- How the value of an attribute is compared. -/
inductive AttributeOperator where
  | equals
  | includes
  | dashMatch
  | startsWith
  | endsWith
  | contains
deriving DecidableEq, Repr

inductive Simple where
  | element (name : Bytes)
  | className (name : Bytes)
  | id (name : Bytes)
  | universal
  | nesting
  /-- An attribute that is there, or one whose value passes a test. -/
  | attribute (name : Bytes) (test : Option (AttributeOperator × Bytes))
  /-- The argument is the source text between the parentheses. -/
  | pseudoClass (name argument : Bytes)
  | pseudoElement (name argument : Bytes)
deriving DecidableEq, Repr

abbrev Compound := List Simple

inductive Combinator where
  | descendant
  | child
  | nextSibling
  | subsequentSibling
deriving DecidableEq, Repr

/-- A first compound selector, and any number of further ones, each behind its combinator. -/
structure Complex where
  first : Compound
  more : List (Combinator × Compound)
deriving DecidableEq, Repr

/-- All compound selectors of a complex one, left to right. -/
def Complex.compounds (c : Complex) : List Compound :=
  c.first :: c.more.map Prod.snd

abbrev SelectorList := List Complex

end StyleTrim
