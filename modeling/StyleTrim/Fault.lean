import StyleTrim.Text.Byte

/-!
# Faults

A fault is what a job reports when it cannot do its work, or could do only a part of it: a kind,
a message, and where a file is concerned its path. A hint says what the user could do about it.
-/

namespace StyleTrim

inductive FaultKind where
  | nothing
  | inputTooLarge
  | parseError
  | fileError
  | pathTraversal
  | partialInput
deriving DecidableEq, Repr

def FaultKind.name : FaultKind -> Bytes
  | .nothing => ascii "none"
  | .inputTooLarge => ascii "input_too_large"
  | .parseError => ascii "parse_error"
  | .fileError => ascii "io_error"
  | .pathTraversal => ascii "path_traversal"
  | .partialInput => ascii "partial_input_failure"

def FaultKind.hint : FaultKind -> Bytes
  | .inputTooLarge => ascii "Split the CSS file or raise --max-input-bytes."
  | .parseError =>
      ascii "Check the stylesheet for unbalanced braces or unterminated strings."
  | .fileError =>
      ascii "Check that the path exists and is readable (inputs) or writable (output)."
  | .pathTraversal => ascii "Keep every input and output path inside --base-dir."
  | .nothing => []
  | .partialInput => []

structure Fault where
  kind : FaultKind
  message : Bytes
  path : Bytes := []
  hint : Bytes := []
deriving DecidableEq, Repr

namespace Fault

def nothing : Fault :=
  { kind := .nothing, message := [] }

def isNothing (f : Fault) : Bool :=
  f.kind == .nothing

def hinted (f : Fault) : Fault :=
  { f with hint := f.kind.hint }

def line (f : Fault) : Bytes :=
  0x5B :: f.kind.name ++ 0x5D :: (if f.path.isEmpty then [] else 0x20 :: f.path) ++
    ascii ": " ++ f.message

end Fault
end StyleTrim
