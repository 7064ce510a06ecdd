import StyleTrim.Sanitize.Decoded

/-!
# Sanitizing

Each dangerous construct is replaced by a marker, which is a comment. Plain patterns go first.
Escapes need a backslash, so only a text that still holds one is then looked at token by token.
-/

namespace StyleTrim
namespace Sanitize

def marker : Bytes :=
  ascii "/* [sanitized] */"

/-- Replaces the patterns of a text that follows the byte `before`, left to right. What is done
already comes last byte first. -/
def replaceFrom (before : Option UInt8) (s : Bytes) (done : Bytes) : Bytes :=
  match s with
  | [] => done.reverse
  | b :: tail =>
      match _h : Pattern.matchAt? before (b :: tail) with
      | some (found, rest) => replaceFrom found.getLast? rest (marker.reverse ++ done)
      | none => replaceFrom (some b) tail (b :: done)
termination_by s.length
decreasing_by
  · exact Pattern.matchAt?_length (by assumption)
  · simp

/-- The text with every plain pattern replaced. -/
def replacePatterns (s : Bytes) : Bytes :=
  replaceFrom none s []

/-- The text from offset `copied` on, with the spans replaced. -/
def replaceSpans (copied : Nat) (s : Bytes) : List Span -> Bytes
  | [] => s
  | span :: spans =>
      s.take (span.start - copied) ++
        (marker ++ replaceSpans span.stop (s.drop (span.stop - copied)) spans)

end Sanitize

/-- The text with every dangerous construct replaced by the marker. -/
def sanitize (s : Bytes) : Bytes :=
  let plain := Sanitize.replacePatterns s
  if plain.contains 0x5C then Sanitize.replaceSpans 0 plain (Decoded.spans plain) else plain

end StyleTrim
