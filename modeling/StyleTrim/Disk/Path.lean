import StyleTrim.Text.Byte

/-!
# Paths

A path is a text of names with slashes between them. This module puts paths into normal form by
their text alone, without asking whether anything exists, and compares them element by element.
-/

namespace StyleTrim
namespace Path

def slash : UInt8 := 0x2F

def dot : Bytes := [0x2E]

def dotDot : Bytes := [0x2E, 0x2E]

def isAbsolute (path : Bytes) : Bool :=
  path.head? == some slash

def isRoot (path : Bytes) : Bool :=
  !path.isEmpty && path.all (· == slash)

def segments : Bytes -> List Bytes
  | [] => [[]]
  | b :: s =>
      if b = slash then [] :: segments s
      else
        match segments s with
        | [] => [[b]]
        | first :: more => (b :: first) :: more

def joinNames : List Bytes -> Bytes
  | [] => []
  | [name] => name
  | name :: names => name ++ slash :: joinNames names

def join (path more : Bytes) : Bytes :=
  if path.isEmpty || path.getLast? == some slash then path ++ more else path ++ slash :: more

/-!
## Normal form

In normal form no element is a dot or two dots, and no slash is doubled. A slash stays at the end
when the path ended in one, or in an element that went away.
-/

structure Normal where
  /-- The names from the root on, last one first. -/
  names : List Bytes := []
  trailing : Bool := false

namespace Normal

def step (n : Normal) (segment : Bytes) : Normal :=
  if segment = [] ∨ segment = dot then { n with trailing := true }
  else if segment = dotDot then { names := n.names.tail, trailing := true }
  else { names := segment :: n.names, trailing := false }

def render (n : Normal) : Bytes :=
  slash :: joinNames n.names.reverse ++ (if n.trailing && !n.names.isEmpty then [slash] else [])

end Normal

def normalForm (path : Bytes) : Bytes :=
  if path.isEmpty || isRoot path then path
  else ((segments path).foldl Normal.step {}).render

def absolute (cwd path : Bytes) : Bytes :=
  if path.isEmpty || isAbsolute path then path else join cwd path

/-- The absolute path in normal form. -/
def normalize (cwd path : Bytes) : Bytes :=
  normalForm (absolute cwd path)

/-!
## Elements
-/

/-- The elements of an absolute path in normal form: the root, the names, and an empty element
for a slash at the end. -/
def elements (path : Bytes) : List Bytes :=
  if path.isEmpty then []
  else if isRoot path then [path]
  else [slash] :: (segments path).tail

/-- The elements lead into the base, or are the base. A slash at the end of the base adds nothing
to it. -/
def isWithin : List Bytes -> List Bytes -> Bool
  | _, [] => true
  | _, [[]] => true
  | [], _ :: _ => false
  | name :: names, other :: base => name == other && isWithin names base

end Path
end StyleTrim
