import StyleTrim.Text.Decimal

/-!
# JSON text

Reports are JSON objects. Their strings are byte strings: quotes, backslashes and bytes below
0x20 are escaped, every other byte stands for itself. An object is written field by field in one
pass, each field on a line of its own with two spaces for each level, arrays of strings on one
line.
-/

namespace StyleTrim
namespace Report

def hexDigit (n : UInt8) : UInt8 :=
  if n < 10 then 0x30 + n else 0x57 + n

def quoteByte (b : UInt8) : Bytes :=
  match b with
  | 0x22 => ascii "\\\""
  | 0x5C => ascii "\\\\"
  | 0x08 => ascii "\\b"
  | 0x0C => ascii "\\f"
  | 0x0A => ascii "\\n"
  | 0x0D => ascii "\\r"
  | 0x09 => ascii "\\t"
  | _ =>
      if b < 0x20 then ascii "\\u00" ++ [hexDigit (b / 16), hexDigit (b % 16)] else [b]

def quote (s : Bytes) : Bytes :=
  0x22 :: s.flatMap quoteByte ++ [0x22]

def quoteAll : List Bytes -> Bytes
  | [] => []
  | [s] => quote s
  | s :: list => quote s ++ ascii ", " ++ quoteAll list

/-- An object of which a part is written. -/
structure Writer where
  out : Bytes
  /-- Whether the innermost object that is open has no field yet. -/
  first : Bool
  depth : Nat

namespace Writer

def start : Writer :=
  { out := [0x7B], first := true, depth := 0 }

def write (w : Writer) (piece : Bytes) : Writer :=
  { w with out := w.out ++ piece }

def newline (w : Writer) (level : Nat) : Writer :=
  w.write (0x0A :: List.replicate (2 * level) 0x20)

def separate (w : Writer) : Writer :=
  let w := if w.first then w else w.write [0x2C]
  { w with first := false }.newline (w.depth + 1)

def key (w : Writer) (name : String) : Writer :=
  w.separate.write (quote (ascii name) ++ ascii ": ")

def text (w : Writer) (name : String) (value : Bytes) : Writer :=
  (w.key name).write (quote value)

def bool (w : Writer) (name : String) (value : Bool) : Writer :=
  (w.key name).write (if value then ascii "true" else ascii "false")

def number (w : Writer) (name : String) (value : Int) : Writer :=
  (w.key name).write (Decimal.ofInt value)

def texts (w : Writer) (name : String) (values : List Bytes) : Writer :=
  (w.key name).write (0x5B :: quoteAll values ++ [0x5D])

def beginObject (w : Writer) (name : String) : Writer :=
  { (w.key name).write [0x7B] with first := true, depth := w.depth + 1 }

def endObject (w : Writer) : Writer :=
  let w := { w with depth := w.depth - 1 }
  { (w.newline (w.depth + 1)).write [0x7D] with first := false }

/-- The text with the outermost object closed. -/
def render (w : Writer) : Bytes :=
  ((w.newline 0).write [0x7D]).out

end Writer
end Report
end StyleTrim
