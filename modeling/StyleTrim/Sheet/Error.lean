import StyleTrim.Text.Decimal

/-!
# What can be wrong with a sheet
-/

namespace StyleTrim

inductive SheetError where
  | unterminatedString (raw : Bytes)
  | malformedAddress (raw : Bytes)
  | strayBrace
  | unclosedBlock
  | endInPrelude
  | tooDeep (limit : Nat)
deriving DecidableEq, Repr

def SheetError.message : SheetError -> Bytes
  | .unterminatedString raw => ascii "unterminated string: " ++ raw
  | .malformedAddress raw => ascii "malformed url(): " ++ raw
  | .strayBrace => ascii "unexpected '\x7d' at top level"
  | .unclosedBlock => ascii "unexpected end of input: missing '\x7d'"
  | .endInPrelude => ascii "unexpected end of input in rule prelude"
  | .tooDeep limit =>
      ascii "blocks nested deeper than " ++ Decimal.ofNat limit ++ ascii " levels"

end StyleTrim
