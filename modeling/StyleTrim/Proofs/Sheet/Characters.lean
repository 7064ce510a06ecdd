import StyleTrim.Proofs.Sheet.Ahead
import StyleTrim.Proofs.Sheet.Stretches
import StyleTrim.Proofs.Token.Characters
import StyleTrim.Sheet.Fallback
import StyleTrim.Sheet.Printer

/-!
# Trees of whole characters

The texts in a tree are made of tokens: preludes and values are written from them, a property is the
text of one or two, and the name of an at-rule is the decoded value of its keyword. So the tree of a
valid text holds valid texts, and what is written for it is valid.
-/

namespace StyleTrim

open Utf8

/-!
## Trees
-/

def Head.IsWhole : Head -> Prop
  | .rule prelude _ => IsValid prelude
  | .atRule name prelude _ => IsValid name ∧ IsValid prelude
  | .declaration property value _ => IsValid property ∧ IsValid value

/-- All texts of the tree are valid. -/
inductive Node.IsWhole : Node -> Prop where
  | mk {head : Head} {children : List Node} (hhead : head.IsWhole)
      (hchildren : ∀ child ∈ children, Node.IsWhole child) : Node.IsWhole ⟨head, children⟩

theorem Node.IsWhole.head {node : Node} (h : node.IsWhole) : node.head.IsWhole := by
  cases h with
  | mk hhead hchildren => exact hhead

theorem Node.IsWhole.children {node : Node} (h : node.IsWhole) :
    ∀ child ∈ node.children, child.IsWhole := by
  cases h with
  | mk hhead hchildren => exact hchildren

theorem Node.isValid_writeBlock {nodes : List Node} (h : ∀ node ∈ nodes, IsValid node.write) :
    IsValid (Node.writeBlock nodes) := by
  induction nodes with
  | nil => exact isValid_singleton (by decide)
  | cons node nodes ih =>
      rw [List.forall_mem_cons] at h
      have hmark : IsValid
          (if node.head.isDeclaration && !nodes.isEmpty then [0x3B] else []) := by
        split
        · exact isValid_singleton (by decide)
        · exact IsValid.nil
      exact h.1.append (hmark.append (ih h.2))

theorem Node.IsWhole.write {node : Node} (h : node.IsWhole) : IsValid node.write := by
  induction h with
  | mk hhead hchildren ih =>
      rename_i head children
      have hblock : IsValid (0x7B :: Node.writeBlock children) :=
        (Node.isValid_writeBlock ih).cons (by decide)
      cases head with
      | rule prelude selectors =>
          rw [Node.write]
          exact hhead.append hblock
      | atRule name prelude block =>
          have hprelude : IsValid (if prelude.isEmpty then [] else 0x20 :: prelude) := by
            split
            · exact IsValid.nil
            · exact hhead.2.cons (by decide)
          have hend : IsValid (if block then 0x7B :: Node.writeBlock children else [0x3B]) := by
            split
            · exact hblock
            · exact isValid_singleton (by decide)
          rw [Node.write]
          exact ((hhead.1.append hprelude).cons (by decide)).append hend
      | declaration property value important =>
          have hmark : IsValid (if important then ascii "!important" else []) := by
            split
            · exact isValid_of_ascii (by decide +kernel)
            · exact IsValid.nil
          rw [Node.write]
          exact (hhead.1.append (hhead.2.cons (by decide))).append hmark

namespace Sheet

theorem isValid_write {sheet : Sheet} (h : ∀ node ∈ sheet, node.IsWhole) :
    IsValid (Sheet.write sheet) :=
  isValid_flatMap fun node hnode => (h node hnode).write

/-!
## Growing
-/

variable {text : Bytes} {ts : List Token}

theorem isValid_stretch (h : ∀ t ∈ ts, t.IsWhole text) {us : List Token} (hus : us ⊆ ts)
    (place : Place) : IsValid (Token.write place us) :=
  Token.isValid_write (fun t ht => (h t (hus ht)).closedText) place

theorem splitPrelude_subset (statement : Bool) (depth : Nat) (ts : List Token) :
    (splitPrelude statement depth ts).1 ⊆ ts := by
  intro t ht
  rw [← splitPrelude_append statement depth ts]
  exact List.mem_append_left _ ht

theorem isWhole_declaration? {opening : Opening} {node : Node} (h : ∀ t ∈ ts, t.IsWhole text)
    (hahead : declarationAhead? ts = some opening)
    (hnode : declaration? opening.property (splitValue 0 0 opening.rest).1 = some node) :
    node.IsWhole := by
  have hvalue : (splitValue 0 0 opening.rest).1 ⊆ ts := by
    intro t ht
    apply (declarationAhead?_suffix hahead).subset
    rw [← splitValue_append 0 0 opening.rest]
    exact List.mem_append_left _ ht
  have hopening : opening? ts = some opening := by
    unfold declarationAhead? at hahead
    split at hahead
    · cases hahead
    · split at hahead
      · cases hahead
        assumption
      · cases hahead
  have hproperty : IsValid opening.property := by
    rcases opening?_some hopening with ⟨star, name, gap, colon, rfl, hstands⟩
    rw [List.forall_mem_append, List.forall_mem_cons] at h
    rw [hstands.property]
    exact (isValid_flatMap fun t ht => (h.1 t ht).raw).append h.2.1.raw
  unfold declaration? at hnode
  split at hnode
  · cases hnode
  · split at hnode
    · rename_i rest himportant
      cases hnode
      rcases dropImportant?_some himportant with ⟨bang, gap, hsplit, _⟩
      have hrest : rest ⊆ ts := by
        intro t ht
        apply hvalue
        rw [hsplit]
        exact List.mem_append_left _ ht
      exact .mk ⟨hproperty, isValid_stretch h hrest .value⟩ nofun
    · cases hnode
      exact .mk ⟨hproperty, isValid_stretch h hvalue .value⟩ nofun

theorem Grown.isWhole {o : Options} {seen : Moment -> Prop} {n : Nat} {body : Body} {node : Node}
    (hseen : ∀ moment, seen moment -> ∀ t ∈ moment.left, t.IsWhole text)
    (h : Grown o seen n body node) : node.IsWhole := by
  induction h with
  | statement hmoment hat hend =>
      have hall := hseen _ hmoment
      rw [List.forall_mem_cons] at hall
      exact .mk
        ⟨hall.1.value hat, isValid_stretch hall.2 (splitPrelude_subset _ _ _) .prelude⟩ nofun
  | atRule hmoment hat hsplit hopen hdepth hchildren ih =>
      have hall := hseen _ hmoment
      rw [List.forall_mem_cons] at hall
      exact .mk ⟨hall.1.value hat, isValid_stretch hall.2 (splitPrelude_subset _ _ _) .prelude⟩ ih
  | rule hmoment hkind hseek hsplit hopen hdepth hchildren ih =>
      exact .mk (isValid_stretch (hseen _ hmoment) (splitPrelude_subset _ _ _) .selector) ih
  | declaration hmoment hkind hahead hnode =>
      exact isWhole_declaration? (hseen _ hmoment) hahead hnode

theorem isWhole_of_parse {o : Options} {css : Bytes} {sheet : Sheet} (hvalid : IsValid css)
    (h : parse o css = .ok sheet) : ∀ node ∈ sheet, node.IsWhole := by
  have hseen : ∀ moment ∈ buildMoments o (.rules o.isStrict) (Token.tokenize css),
      ∀ t ∈ moment.left, t.IsWhole css := by
    intro moment hmoment t ht
    have hbody : t ∈ Token.body (Token.tokenize css) := (moments_suffix hmoment).subset ht
    exact Token.isWhole_tokenize hvalid t ((List.takeWhile_sublist _).subset hbody)
  intro node hnode
  exact (grown_of_parse h node hnode).isWhole hseen

theorem isWhole_of_parseWithFallback {css : Bytes} {sheet : Sheet} (hvalid : IsValid css)
    (h : (parseWithFallback css).result = .ok sheet) : ∀ node ∈ sheet, node.IsWhole := by
  unfold parseWithFallback at h
  split at h
  · rename_i hstrict
    cases h
    exact isWhole_of_parse hvalid hstrict
  · change parse { mode := .lenient } css = .ok sheet at h
    exact isWhole_of_parse hvalid h

end Sheet
end StyleTrim
