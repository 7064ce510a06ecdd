import StyleTrim.Sheet.Parser

/-!
# Reading with a fallback

Jobs read a sheet strictly, and when that fails they read it leniently.
-/

namespace StyleTrim
namespace Sheet

structure Reading where
  strictError : Option SheetError
  result : Except SheetError Sheet

def parseWithFallback (s : Bytes) : Reading :=
  match parse { mode := .strict } s with
  | .ok sheet => ⟨none, .ok sheet⟩
  | .error e => ⟨some e, parse { mode := .lenient } s⟩

end Sheet

/-- The size of a sheet above which jobs refuse it, unless told otherwise. -/
def defaultMaxBytes : Nat :=
  10 * 1024 * 1024

end StyleTrim
