import StyleTrim.Text.Byte

/-!
# What can be wrong with a selector list
-/

namespace StyleTrim

inductive SelectorError where
  | malformedToken
  | empty
  | trailingComma
  | missingSelector
  | unexpected (raw : Bytes)
  | unexpectedInCompound (raw : Bytes)
  | danglingCombinator
  | elementName
  | className
  | pseudoName
  | unclosedArgument
  | attributeName
  | attributeOperator
  | unknownOperator (operator : Bytes)
  | attributeValue
  | unclosedAttribute
deriving DecidableEq, Repr

def SelectorError.message : SelectorError -> Bytes
  | .malformedToken => ascii "malformed token in selector"
  | .empty => ascii "empty selector"
  | .trailingComma => ascii "selector list ends with a comma"
  | .missingSelector => ascii "expected selector"
  | .unexpected raw => ascii "unexpected '" ++ raw ++ ascii "' in selector"
  | .unexpectedInCompound raw => ascii "unexpected '" ++ raw ++ ascii "' in compound selector"
  | .danglingCombinator => ascii "combinator is not followed by a selector"
  | .elementName => ascii "expected element name after namespace separator"
  | .className => ascii "expected class name after '.'"
  | .pseudoName => ascii "expected pseudo-class name"
  | .unclosedArgument => ascii "unterminated functional pseudo-class"
  | .attributeName => ascii "expected attribute name"
  | .attributeOperator => ascii "expected attribute operator"
  | .unknownOperator operator =>
      ascii "unknown attribute operator '" ++ operator ++ ascii "'"
  | .attributeValue => ascii "expected attribute value"
  | .unclosedAttribute => ascii "expected ']' to close attribute selector"

end StyleTrim
