import StyleTrim.Sheet.Node

/-!
# Writing a sheet

A sheet is written without any white space that its nodes do not hold. Declarations are set apart
by semicolons; a block needs none behind it, and neither does the last declaration.
-/

namespace StyleTrim

mutual

def Node.write : Node -> Bytes
  | ⟨.rule prelude _, children⟩ => prelude ++ 0x7B :: Node.writeBlock children
  | ⟨.atRule name prelude block, children⟩ =>
      let opening := 0x40 :: name ++ (if prelude.isEmpty then [] else 0x20 :: prelude)
      opening ++ (if block then 0x7B :: Node.writeBlock children else [0x3B])
  | ⟨.declaration property value important, _⟩ =>
      property ++ 0x3A :: value ++ (if important then ascii "!important" else [])

def Node.writeBlock : List Node -> Bytes
  | [] => [0x7D]
  | node :: nodes =>
      let mark := if node.head.isDeclaration && !nodes.isEmpty then [0x3B] else []
      node.write ++ (mark ++ Node.writeBlock nodes)

end

/-- The nodes of a list one behind the other. -/
def Sheet.write (nodes : Sheet) : Bytes :=
  nodes.flatMap Node.write

end StyleTrim
