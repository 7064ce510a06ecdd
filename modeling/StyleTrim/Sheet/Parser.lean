import StyleTrim.Sheet.Builder

/-!
# Reading a sheet

A sheet is a list of rules outside of all blocks. Strict reading first looks for a string or an
address that breaks off, and at the end insists that every block was closed; lenient reading
closes what is open. A text can also be read as the inside of a block of declarations.
-/

namespace StyleTrim
namespace Sheet

def firstBad (ts : List Token) : Option SheetError :=
  match ts.find? Token.isBad with
  | none => none
  | some t =>
      if t.kind = .badString then some (.unterminatedString t.raw)
      else some (.malformedAddress t.raw)

/-- The nodes of a finished run. -/
def finish (o : Options) (st : State) : Except SheetError Sheet :=
  if o.isStrict && !st.frames.isEmpty then .error .unclosedBlock
  else .ok (State.closeAll st.nodes st.frames)

/-- Builds the nodes of a list that stands outside of all blocks. -/
def build (o : Options) (body : Body) (ts : List Token) : Except SheetError Sheet :=
  match run o ⟨body, [], []⟩ (Token.body ts) with
  | .error e => .error e
  | .ok st => finish o st

/-- Reads tokens as a sheet. -/
def ofTokens (o : Options) (ts : List Token) : Except SheetError Sheet :=
  match if o.isStrict then firstBad ts else none with
  | some e => .error e
  | none => build o (.rules o.isStrict) ts

def parse (o : Options) (s : Bytes) : Except SheetError Sheet :=
  ofTokens o (Token.tokenize s)

/-- Reads a sheet leniently. What cannot be read at all is an empty sheet. -/
def parseLenient (s : Bytes) : Sheet :=
  match parse { mode := .lenient } s with
  | .ok sheet => sheet
  | .error _ => []

/-- Reads a text leniently as a list of declarations, in which a closing brace means nothing. -/
def parseDeclarations (s : Bytes) : List Node :=
  match build { mode := .lenient } .declarations (Token.tokenize s) with
  | .ok nodes => nodes
  | .error _ => []

end Sheet
end StyleTrim
