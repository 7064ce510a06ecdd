import StyleTrim.Selector.Basic
import StyleTrim.Sheet.AtRule

/-!
# The tree of a style sheet

A sheet is a list of nodes. A node is a head, which says what it is, and the nodes inside its
block. Preludes and values are kept as compact text.
-/

namespace StyleTrim

inductive Head where
  /-- A style rule; its selectors are there when its prelude was read as a selector list. -/
  | rule (prelude : Bytes) (selectors : Option SelectorList)
  /-- An at-rule, with its name as written, that is a statement or has a block. -/
  | atRule (name prelude : Bytes) (block : Bool)
  | declaration (property value : Bytes) (important : Bool)
deriving DecidableEq, Repr

structure Node where
  head : Head
  children : List Node

abbrev Sheet := List Node

namespace Head

def isRule : Head -> Bool
  | .rule _ _ => true
  | _ => false

def isDeclaration : Head -> Bool
  | .declaration _ _ _ => true
  | _ => false

def atRuleKind? : Head -> Option AtRuleKind
  | .atRule name _ _ => some (.ofName name)
  | _ => none

end Head

/-!
## Walking the tree

A walk visits a node before the nodes inside of it, and tells how deep each one lies.
-/

mutual

def Node.visits (depth : Nat) : Node -> List (Nat × Head)
  | ⟨head, children⟩ => (depth, head) :: Sheet.visits (depth + 1) children

def Sheet.visits (depth : Nat) : List Node -> List (Nat × Head)
  | [] => []
  | node :: nodes => node.visits depth ++ Sheet.visits depth nodes

end

end StyleTrim
