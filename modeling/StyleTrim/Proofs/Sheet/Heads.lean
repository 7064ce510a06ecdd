import StyleTrim.Sheet.Printer

/-!
# Trees with other heads

Two trees are compared by what a function makes of their heads: reading a text anew finds the
selectors of a rule anew, and lenient reading does not find them at all. A function that leaves the
text of every head as it is leaves the text of every tree as it is.
-/

namespace StyleTrim

mutual

def Node.mapHeads (f : Head -> Head) : Node -> Node
  | ⟨head, children⟩ => ⟨f head, Sheet.mapHeads f children⟩

def Sheet.mapHeads (f : Head -> Head) : List Node -> List Node
  | [] => []
  | node :: nodes => node.mapHeads f :: Sheet.mapHeads f nodes

end

namespace Sheet

theorem mapHeads_eq_map (f : Head -> Head) (nodes : List Node) :
    Sheet.mapHeads f nodes = nodes.map (Node.mapHeads f) := by
  induction nodes with
  | nil => rw [Sheet.mapHeads, List.map_nil]
  | cons node nodes ih => rw [Sheet.mapHeads, List.map_cons, ih]

mutual

theorem mapHeads_node (node : Node) : node.mapHeads id = node := by
  rcases node with ⟨head, children⟩
  rw [Node.mapHeads, mapHeads_nodes children]
  rfl

theorem mapHeads_nodes (nodes : List Node) : Sheet.mapHeads id nodes = nodes := by
  cases nodes with
  | nil => rw [Sheet.mapHeads]
  | cons node nodes => rw [Sheet.mapHeads, mapHeads_node node, mapHeads_nodes nodes]

end

end Sheet

/-!
## Heads that are written alike
-/

/-- The function leaves the text of every head as it is. -/
structure Head.Retains (f : Head -> Head) : Prop where
  write : ∀ head children, Node.write ⟨f head, children⟩ = Node.write ⟨head, children⟩
  declaration : ∀ head, (f head).isDeclaration = head.isDeclaration

/-- The head without its selectors, as lenient reading has it. -/
def Head.unread : Head -> Head
  | .rule prelude _ => .rule prelude none
  | head => head

theorem Head.retains_unread : Head.Retains Head.unread := by
  constructor
  · intro head children
    cases head <;> simp only [Head.unread, Node.write]
  · intro head
    cases head <;> rfl

section

variable {f : Head -> Head}

mutual

theorem Node.write_mapHeads (hf : Head.Retains f) (node : Node) :
    (node.mapHeads f).write = node.write := by
  rcases node with ⟨head, children⟩
  rw [Node.mapHeads, hf.write]
  have hblock := Node.writeBlock_mapHeads hf children
  cases head with
  | rule prelude selectors => rw [Node.write, Node.write, hblock]
  | atRule name prelude block => rw [Node.write, Node.write, hblock]
  | declaration property value important => rw [Node.write, Node.write]

theorem Node.writeBlock_mapHeads (hf : Head.Retains f) (nodes : List Node) :
    Node.writeBlock (Sheet.mapHeads f nodes) = Node.writeBlock nodes := by
  cases nodes with
  | nil => rw [Sheet.mapHeads]
  | cons node nodes =>
      have hnode : (node.mapHeads f).head.isDeclaration = node.head.isDeclaration := by
        rcases node with ⟨head, children⟩
        rw [Node.mapHeads]
        exact hf.declaration head
      have hempty : (Sheet.mapHeads f nodes).isEmpty = nodes.isEmpty := by
        cases nodes with
        | nil => rw [Sheet.mapHeads]
        | cons node nodes => rw [Sheet.mapHeads]; rfl
      rw [Sheet.mapHeads, Node.writeBlock, Node.writeBlock, hnode, hempty,
        Node.write_mapHeads hf node, Node.writeBlock_mapHeads hf nodes]

end

namespace Sheet

theorem write_mapHeads (hf : Head.Retains f) (nodes : List Node) :
    Sheet.write (Sheet.mapHeads f nodes) = Sheet.write nodes := by
  rw [mapHeads_eq_map, Sheet.write, Sheet.write, List.flatMap_map]
  exact congrArg List.flatten (List.map_congr_left fun node _ => Node.write_mapHeads hf node)

theorem write_of_mapHeads (hf : Head.Retains f) {nodes nodes' : List Node}
    (h : Sheet.mapHeads f nodes' = Sheet.mapHeads f nodes) :
    Sheet.write nodes' = Sheet.write nodes := by
  rw [← write_mapHeads hf nodes', h, write_mapHeads hf]

theorem exists_of_mapHeads {nodes nodes' : List Node}
    (h : Sheet.mapHeads f nodes' = Sheet.mapHeads f nodes) :
    ∀ node' ∈ nodes', ∃ node ∈ nodes, f node'.head = f node.head := by
  intro node' hnode'
  have hmem : node'.mapHeads f ∈ Sheet.mapHeads f nodes := by
    rw [← h, mapHeads_eq_map]
    exact List.mem_map_of_mem hnode'
  rw [mapHeads_eq_map] at hmem
  rcases List.mem_map.mp hmem with ⟨node, hnode, heq⟩
  refine ⟨node, hnode, ?_⟩
  rcases node with ⟨head, children⟩
  rcases node' with ⟨head', children'⟩
  rw [Node.mapHeads, Node.mapHeads] at heq
  exact (Node.mk.inj heq).1.symm

end Sheet

end

end StyleTrim
