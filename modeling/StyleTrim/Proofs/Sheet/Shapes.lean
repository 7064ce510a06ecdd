import StyleTrim.Proofs.Filter.Liveness
import StyleTrim.Proofs.Selector.Shapes
import StyleTrim.Proofs.Sheet.Reread

/-!
# The shape of a tree

What may stand where in a tree is not in its type. Reading keeps to more than the type says, and
whoever walks over a tree that was read may rely on it: rules are not mixed with declarations where
a block holds rules, what has no block has nothing inside, and selectors stand only where they were
read.
-/

namespace StyleTrim
namespace Sheet

/-- The node stands in the tree, at any depth. -/
inductive Within (sheet : List Node) : Node -> Prop where
  | top {node : Node} (h : node ∈ sheet) : Within sheet node
  | inside {parent node : Node} (hparent : Within sheet parent) (h : node ∈ parent.children) :
      Within sheet node

def holdsRules (name : Bytes) : Bool :=
  AtRuleKind.ofName name == .keyframes || AtRuleKind.isGroupName name

/-- What is so of a node and the nodes directly inside, however the text looks. -/
structure WellShaped (o : Options) (node : Node) : Prop where
  rules : ∀ name prelude block, node.head = .atRule name prelude block ->
    holdsRules name = true -> ∀ child ∈ node.children, child.head.isDeclaration = false
  statement : ∀ name prelude, node.head = .atRule name prelude false -> node.children = []
  kind : ∀ name prelude block, node.head = .atRule name prelude block ->
    node.head.atRuleKind? = some (.ofName name)
  declaration : ∀ property value important, node.head = .declaration property value important ->
    property ≠ [] ∧ node.children = []
  selectors : ∀ list, node.head.selectors? = some list ->
    o.isStrict = true ∧ node.head.isRule = true ∧ list.WellFormed
  keyframes : node.head.atRuleKind? = some .keyframes ->
    ∀ child ∈ node.children, child.head.selectors? = none

/-!
## Nodes that have grown
-/

variable {o : Options} {seen : Moment -> Prop} {n : Nat} {body : Body} {node : Node}

def Body.ReadsInStrict (o : Options) (body : Body) : Prop :=
  body.readsSelectors o = true -> o.isStrict = true

theorem readsInStrict_bodyOf (o : Options) (name : Bytes) : (bodyOf o name).ReadsInStrict o := by
  unfold bodyOf
  split
  · exact Bool.noConfusion
  · split <;> exact id

theorem Grown.children (h : Grown o seen n body node) :
    ∃ inner : Body, inner.ReadsInStrict o ∧
      ∀ child ∈ node.children, Grown o seen (n + 1) inner child := by
  cases h with
  | statement hseen hat hend => exact ⟨.declarations, id, by simp⟩
  | atRule hseen hat hsplit hopen hdepth hchildren =>
      exact ⟨_, readsInStrict_bodyOf o _, hchildren⟩
  | rule hseen hkind hseek hsplit hopen hdepth hchildren =>
      exact ⟨.declarations, id, hchildren⟩
  | declaration hseen hkind hahead hnode =>
      rcases declaration?_some hnode with ⟨text, important, rfl⟩
      exact ⟨.declarations, id, by simp⟩

theorem grown_of_within {sheet : List Node} (hbody : body.ReadsInStrict o)
    (h : ∀ node ∈ sheet, Grown o seen n body node) (hwithin : Within sheet node) :
    ∃ n, ∃ body : Body, body.ReadsInStrict o ∧ Grown o seen n body node := by
  induction hwithin with
  | top hmem => exact ⟨n, body, hbody, h _ hmem⟩
  | inside hparent hmem ih =>
      rcases ih with ⟨n, body, _, hgrown⟩
      rcases hgrown.children with ⟨inner, hinner, hchildren⟩
      exact ⟨n + 1, inner, hinner, hchildren _ hmem⟩

theorem ruleHead_selectors {selectors : Bool} {prelude : List Token} {list : SelectorList}
    (h : (ruleHead selectors prelude).selectors? = some list) :
    selectors = true ∧ list.WellFormed := by
  cases selectors with
  | false => cases h
  | true =>
      refine ⟨rfl, ?_⟩
      change (SelectorList.ofTokens prelude).toOption = some list at h
      cases hread : SelectorList.ofTokens prelude with
      | error e =>
          rw [hread] at h
          cases h
      | ok found =>
          rw [hread] at h
          cases h
          exact SelectorList.wellFormed_of_ofTokens hread

theorem exists_rules_of_holdsRules {name : Bytes} (h : holdsRules name = true) :
    ∃ selectors, bodyOf o name = .rules selectors := by
  rw [holdsRules, Bool.or_eq_true, beq_iff_eq] at h
  unfold bodyOf
  split
  · exact ⟨_, rfl⟩
  · rename_i hkind
    rw [if_pos (h.resolve_left hkind)]
    exact ⟨_, rfl⟩

theorem property_ne_nil {ts : List Token} {opening : Opening} (hraw : ∀ t ∈ ts, t.raw ≠ [])
    (hahead : declarationAhead? ts = some opening) : opening.property ≠ [] := by
  rcases opening?_some (opening?_of_declarationAhead? hahead).1 with
    ⟨star, name, gap, colon, rfl, hstands⟩
  rw [hstands.property]
  exact List.append_ne_nil_of_right_ne_nil _ (hraw name (by simp))

theorem Grown.wellShaped (h : Grown o seen n body node) (hbody : body.ReadsInStrict o)
    (hraw : ∀ moment, seen moment -> ∀ t ∈ moment.left, t.raw ≠ []) : WellShaped o node := by
  cases h with
  | statement hseen hat hend =>
      exact {
        rules := by simp
        statement := by simp
        kind := by rintro name prelude block ⟨⟩; rfl
        declaration := by rintro property value important ⟨⟩
        selectors := by rintro list ⟨⟩
        keyframes := by simp }
  | atRule hseen hat hsplit hopen hdepth hchildren =>
      rename_i t u ts rest children
      exact {
        rules := by
          rintro name prelude block ⟨⟩ hholds child hchild
          have hchild := hchildren child hchild
          rcases exists_rules_of_holdsRules hholds with ⟨selectors, hrules⟩
          rw [hrules] at hchild
          exact isDeclaration_of_grown hchild
        statement := by rintro name prelude ⟨⟩
        kind := by rintro name prelude block ⟨⟩; rfl
        declaration := by rintro property value important ⟨⟩
        selectors := by rintro list ⟨⟩
        keyframes := by
          intro hkind child hchild
          have hplain : bodyOf o t.value = .rules false := if_pos (Option.some.inj hkind)
          exact (hchildren child hchild).selectors (hplain ▸ rfl) }
  | rule hseen hkind hseek hsplit hopen hdepth hchildren =>
      exact {
        rules := by rintro name prelude block ⟨⟩
        statement := by rintro name prelude ⟨⟩
        kind := by rintro name prelude block ⟨⟩
        declaration := by rintro property value important ⟨⟩
        selectors := by
          intro list hlist
          rcases ruleHead_selectors hlist with ⟨hreads, hwellFormed⟩
          exact ⟨hbody hreads, rfl, hwellFormed⟩
        keyframes := by rintro ⟨⟩ }
  | declaration hseen hkind hahead hnode =>
      rcases declaration?_some hnode with ⟨text, important, rfl⟩
      exact {
        rules := by rintro name prelude block ⟨⟩
        statement := by rintro name prelude ⟨⟩
        kind := by rintro name prelude block ⟨⟩
        declaration := by
          rintro property value important ⟨⟩
          exact ⟨property_ne_nil (hraw _ hseen) hahead, rfl⟩
        selectors := by rintro list ⟨⟩
        keyframes := by rintro ⟨⟩ }

/-!
## Trees that were read
-/

theorem raw_ne_nil_of_lexed {ts : List Token} (h : Token.Lexed ts) : ∀ t ∈ ts, t.raw ≠ [] := by
  induction h with
  | nil => simp
  | cons hshape hnext hlast hargument htail ih =>
      rcases hshape with ⟨s, hshape⟩
      exact List.forall_mem_cons.mpr ⟨Lexeme.raw_ne_nil hshape, ih⟩

theorem raw_ne_nil_of_buildMoments {s : Bytes} {moment : Moment}
    (h : moment ∈ buildMoments o body (Token.tokenize s)) : ∀ t ∈ moment.left, t.raw ≠ [] :=
  fun t ht => raw_ne_nil_of_lexed (Token.lexed_tokenize s) t ((moments_suffix h).subset ht)

/-- A tree that was read is well shaped, whatever the text, the mode and the limit. No declaration
stands outside of all blocks, and every node keeps to its shape. -/
theorem wellShaped_of_parse {s : Bytes} {sheet : Sheet} (h : parse o s = .ok sheet) :
    (∀ node ∈ sheet, node.head.isDeclaration = false) ∧
      ∀ node, Within sheet node -> WellShaped o node := by
  have hgrown := grown_of_parse h
  have hroot : Body.ReadsInStrict o (.rules o.isStrict) := id
  constructor
  · exact fun node hnode => isDeclaration_of_grown (hgrown node hnode)
  · intro node hwithin
    rcases grown_of_within hroot hgrown hwithin with ⟨n, body, hbody, hnode⟩
    exact hnode.wellShaped hbody fun moment hseen => raw_ne_nil_of_buildMoments hseen

def shapedText : Bytes :=
  ascii "@keyframes k\x7bto\x7ba:b\x7d\x7d.c>d\x7b&:e\x7bf:g\x7d\x7d"

def frameRule : Node :=
  ⟨.rule (ascii "to") none, [⟨.declaration (ascii "a") (ascii "b") false, []⟩]⟩

def nestedSelectors : SelectorList :=
  [⟨[.nesting, .pseudoClass (ascii "e") []], []⟩]

def nestedRule : Node :=
  ⟨.rule (ascii "&:e") (some nestedSelectors),
    [⟨.declaration (ascii "f") (ascii "g") false, []⟩]⟩

def shapedSheet : Sheet :=
  [⟨.atRule (ascii "keyframes") (ascii "k") true, [frameRule]⟩,
    ⟨.rule (ascii ".c>d")
      (some [⟨[.className (ascii "c")], [(.child, [.element (ascii "d")])]⟩]), [nestedRule]⟩]

theorem wellShaped_of_parse_nested :
    parse {} shapedText = .ok shapedSheet ∧ nestedSelectors.WellFormed ∧
      WellShaped {} frameRule := by
  have hread : parse {} shapedText = .ok shapedSheet := eq_ok_of_toOption (by decide +kernel)
  have hshaped := (wellShaped_of_parse hread).2
  have hnested : Within shapedSheet nestedRule :=
    .inside (.top (List.mem_cons_of_mem _ List.mem_cons_self)) List.mem_cons_self
  refine ⟨hread, ((hshaped nestedRule hnested).selectors _ rfl).2.2, ?_⟩
  exact hshaped frameRule (.inside (.top List.mem_cons_self) List.mem_cons_self)

end Sheet
end StyleTrim
