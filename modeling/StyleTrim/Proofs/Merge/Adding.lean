import StyleTrim.Merge.Merger

/-!
# What adding a node can do

A node is added in one of a few ways, which its kind, the options and what was seen before choose
between. `Adds` lists them, each with the tests that led to it, so that no proof about merging has
to open the assembly again.
-/

namespace StyleTrim
namespace Merge

/-!
## Kinds of nodes
-/

def hasKind (kind : AtRuleKind) (node : Node) : Bool :=
  node.head.atRuleKind? == some kind

/-- The name and the prelude of a keyframes rule. -/
def keyframesPair? (node : Node) : Option (Bytes × Bytes) :=
  match node.head with
  | .atRule name prelude _ =>
      if AtRuleKind.ofName name = .keyframes then some (name, prelude) else none
  | _ => none

/-- The condition under which a media rule is gathered. -/
def condition? (o : Options) (node : Node) : Option Bytes :=
  match node.head with
  | .atRule name prelude block =>
      if AtRuleKind.ofName name = .media ∧ o.combineMedia = true ∧ prelude ≠ [] ∧ block = true then
        some prelude
      else none
  | _ => none

variable {o : Options} {node : Node} {kind kind' : AtRuleKind}

theorem hasKind_atRule {name prelude : Bytes} {block : Bool}
    (h : node.head = .atRule name prelude block) :
    hasKind kind node = decide (AtRuleKind.ofName name = kind) := by
  rw [hasKind, h, Head.atRuleKind?, Bool.eq_iff_iff, beq_iff_eq, decide_eq_true_iff]
  exact Option.some_inj

theorem kind_of_hasKind (h : hasKind kind node = true) :
    hasKind kind' node = decide (kind = kind') := by
  rw [hasKind, beq_iff_eq] at h
  rw [hasKind, h, Bool.eq_iff_iff, beq_iff_eq, decide_eq_true_iff]
  exact Option.some_inj

theorem hasKind_of_isRule (h : node.head.isRule = true) : hasKind kind node = false := by
  rcases node with ⟨head, children⟩
  cases head with
  | rule prelude selectors => rfl
  | declaration property value important => cases h
  | atRule name prelude block => cases h

theorem isRule_of_hasKind (h : hasKind kind node = true) : node.head.isRule = false := by
  rw [Bool.eq_false_iff]
  intro hrule
  rw [hasKind_of_isRule hrule] at h
  cases h

theorem hasKind_of_keyframesPair? {pair : Bytes × Bytes} (h : keyframesPair? node = some pair) :
    hasKind .keyframes node = true := by
  unfold keyframesPair? at h
  split at h
  · rename_i name prelude block hhead
    split at h
    · rename_i hkind
      rw [hasKind_atRule hhead]
      exact decide_eq_true hkind
    · cases h
  · cases h

theorem hasKind_of_condition? {condition : Bytes} (h : condition? o node = some condition) :
    hasKind .media node = true := by
  unfold condition? at h
  split at h
  · rename_i name prelude block hhead
    split at h
    · rename_i hkind
      rw [hasKind_atRule hhead]
      exact decide_eq_true hkind.1
    · cases h
  · cases h

theorem keyframesPair?_eq_none (h : hasKind .keyframes node = false) :
    keyframesPair? node = none := by
  cases hpair : keyframesPair? node with
  | none => rfl
  | some pair =>
      rw [hasKind_of_keyframesPair? hpair] at h
      cases h

theorem condition?_eq_none (h : hasKind .media node = false) : condition? o node = none := by
  cases hcondition : condition? o node with
  | none => rfl
  | some condition =>
      rw [hasKind_of_condition? hcondition] at h
      cases h

/-- The node is kept where it is, whatever was seen before. -/
structure IsVerbatim (o : Options) (node : Node) : Prop where
  rule : node.head.isRule = false
  charset : hasKind .charset node = false
  importSheet : hasKind .importSheet node = false
  fontFace : hasKind .fontFace node = false
  keyframes : hasKind .keyframes node = false
  media : condition? o node = none

theorem isVerbatim_of_hasKind (h : hasKind kind node = true)
    (hkind : kind = .namespaceDecl ∨ kind = .other) : IsVerbatim o node := by
  rcases hkind with rfl | rfl <;>
    exact
      { rule := isRule_of_hasKind h
        charset := kind_of_hasKind h
        importSheet := kind_of_hasKind h
        fontFace := kind_of_hasKind h
        keyframes := kind_of_hasKind h
        media := condition?_eq_none (kind_of_hasKind h) }

/-!
## The ways of adding
-/

open Assembly

/-- The assembly that is left when the node was added. -/
inductive Adds (o : Options) (a : Assembly) (node : Node) : Assembly -> Prop where
  | emptyRule (hrule : node.head.isRule = true) (hempty : isEmptyRule o node = true) :
      Adds o a node
        { a with
          stats := { a.stats with
            inputRules := a.stats.inputRules + 1
            empty := a.stats.empty + 1 } }
  | repeatedRule (hrule : node.head.isRule = true) (hfull : isEmptyRule o node = false)
      (hseen : node.write ∈ a.seenRules) :
      Adds o a node
        { a with
          stats := { a.stats with
            inputRules := a.stats.inputRules + 1
            duplicates := a.stats.duplicates + 1 } }
  | newRule (hrule : node.head.isRule = true) (hfull : isEmptyRule o node = false)
      (hnew : node.write ∉ a.seenRules) :
      Adds o a node
        { a with
          stats := { a.stats with
            inputRules := a.stats.inputRules + 1
            outputRules := a.stats.outputRules + 1 }
          seenRules := node.write :: a.seenRules
          body := node :: a.body }
  | charset (hkind : hasKind .charset node = true) :
      Adds o a node { a with charset := a.charset.or (some node) }
  | importSheet (hkind : hasKind .importSheet node = true) :
      Adds o a node { a with imports := node :: a.imports }
  | repeatedFontFace (hkind : hasKind .fontFace node = true) (hoption : o.dedupFontFaces = true)
      (hseen : fontFaceKey node ∈ a.seenFontFaces) :
      Adds o a node
        { a with
          stats := { a.stats with
            inputRules := a.stats.inputRules + 1
            fontFaces := a.stats.fontFaces + 1 } }
  | newFontFace (hkind : hasKind .fontFace node = true)
      (hnew : o.dedupFontFaces = true -> fontFaceKey node ∉ a.seenFontFaces) :
      Adds o a node
        { a with
          stats := { a.stats with
            inputRules := a.stats.inputRules + 1
            outputRules := a.stats.outputRules + 1 }
          seenFontFaces := fontFaceKey node :: a.seenFontFaces
          body := node :: a.body }
  | repeatedKeyframes {name prelude : Bytes} (hpair : keyframesPair? node = some (name, prelude))
      (hoption : o.dedupKeyframes = true) (hseen : keyframesKey name prelude ∈ a.seenKeyframes) :
      Adds o a node
        { a with
          stats := { a.stats with
            inputRules := a.stats.inputRules + 1
            keyframes := a.stats.keyframes + 1 } }
  | newKeyframes {name prelude : Bytes} (hpair : keyframesPair? node = some (name, prelude))
      (hnew : o.dedupKeyframes = true -> keyframesKey name prelude ∉ a.seenKeyframes) :
      Adds o a node
        { a with
          stats := { a.stats with
            inputRules := a.stats.inputRules + 1
            outputRules := a.stats.outputRules + 1 }
          seenKeyframes := keyframesKey name prelude :: a.seenKeyframes
          body := node :: a.body }
  | gathered {condition : Bytes} (hcondition : condition? o node = some condition) :
      Adds o a node
        { a with
          stats := (addToBuckets o condition node.children a.stats a.buckets).1
          buckets := (addToBuckets o condition node.children a.stats a.buckets).2 }
  | verbatim (hplain : IsVerbatim o node) : Adds o a node { a with body := node :: a.body }

variable {a : Assembly}

theorem addRule_adds (h : node.head.isRule = true) : Adds o a node (a.addRule o node) := by
  rw [addRule]
  split
  · rename_i hempty
    exact .emptyRule h hempty
  · rename_i hempty
    have hfull : isEmptyRule o node = false := Bool.eq_false_iff.mpr hempty
    split
    · rename_i hseen
      exact .repeatedRule h hfull (List.contains_iff_mem.mp hseen)
    · rename_i hnew
      exact .newRule h hfull fun hseen => hnew (List.contains_iff_mem.mpr hseen)

theorem addFontFace_adds (h : hasKind .fontFace node = true) :
    Adds o a node (a.addFontFace o node) := by
  rw [addFontFace]
  split
  · rename_i hrepeat
    rw [Bool.and_eq_true] at hrepeat
    exact .repeatedFontFace h hrepeat.1 (List.contains_iff_mem.mp hrepeat.2)
  · rename_i hnew
    apply Adds.newFontFace h
    intro hoption hseen
    apply hnew
    rw [Bool.and_eq_true]
    exact ⟨hoption, List.contains_iff_mem.mpr hseen⟩

theorem addKeyframes_adds {name prelude : Bytes}
    (h : keyframesPair? node = some (name, prelude)) :
    Adds o a node (a.addKeyframes o name prelude node) := by
  rw [addKeyframes]
  split
  · rename_i hrepeat
    rw [Bool.and_eq_true] at hrepeat
    exact .repeatedKeyframes h hrepeat.1 (List.contains_iff_mem.mp hrepeat.2)
  · rename_i hnew
    apply Adds.newKeyframes h
    intro hoption hseen
    apply hnew
    rw [Bool.and_eq_true]
    exact ⟨hoption, List.contains_iff_mem.mpr hseen⟩

theorem condition?_media {name prelude : Bytes} {block : Bool}
    (hhead : node.head = .atRule name prelude block) (hkind : AtRuleKind.ofName name = .media) :
    condition? o node = if isCombinable o prelude block then some prelude else none := by
  rw [condition?, hhead]
  simp only [hkind, true_and, isCombinable, Bool.and_eq_true, Bool.not_eq_true',
    List.isEmpty_eq_false_iff, and_assoc]

theorem addMedia_adds {name prelude : Bytes} {block : Bool}
    (hhead : node.head = .atRule name prelude block) (hkind : AtRuleKind.ofName name = .media) :
    Adds o a node (a.addMedia o prelude block node) := by
  have hcondition := condition?_media (o := o) hhead hkind
  have hmedia : hasKind .media node = true := by
    rw [hasKind_atRule hhead]
    exact decide_eq_true hkind
  rw [addMedia]
  split
  · rename_i hcombines
    rw [if_pos hcombines] at hcondition
    exact .gathered hcondition
  · rename_i hcombines
    rw [if_neg hcombines] at hcondition
    exact .verbatim
      { rule := isRule_of_hasKind hmedia
        charset := kind_of_hasKind hmedia
        importSheet := kind_of_hasKind hmedia
        fontFace := kind_of_hasKind hmedia
        keyframes := kind_of_hasKind hmedia
        media := hcondition }

theorem addAtRule_adds {name prelude : Bytes} {block : Bool}
    (hhead : node.head = .atRule name prelude block) : Adds o a node (a.add o node) := by
  have hkind : ∀ kind, AtRuleKind.ofName name = kind -> hasKind kind node = true := by
    intro kind hname
    rw [hasKind_atRule hhead]
    exact decide_eq_true hname
  rw [add, hhead]
  dsimp only
  split
  · rename_i hname
    have hcharset := Adds.charset (o := o) (a := a) (hkind _ hname)
    rcases a with ⟨stats, charset, imports, body, rules, fontFaces, keyframes, buckets⟩
    cases charset with
    | none => exact hcharset
    | some first => exact hcharset
  · rename_i hname
    exact .importSheet (hkind _ hname)
  · rename_i hname
    exact addFontFace_adds (hkind _ hname)
  · rename_i hname
    apply addKeyframes_adds
    rw [keyframesPair?, hhead]
    exact if_pos hname
  · rename_i hname
    exact addMedia_adds hhead hname
  · rename_i hname
    exact .verbatim (isVerbatim_of_hasKind (hkind _ hname) (Or.inl rfl))
  · rename_i hname
    exact .verbatim (isVerbatim_of_hasKind (hkind _ hname) (Or.inr rfl))

theorem add_adds (o : Options) (a : Assembly) (node : Node) : Adds o a node (a.add o node) := by
  rcases node with ⟨head, children⟩
  cases head with
  | rule prelude selectors => exact addRule_adds rfl
  | declaration property value important =>
      exact .verbatim
        { rule := rfl, charset := rfl, importSheet := rfl, fontFace := rfl, keyframes := rfl
          media := rfl }
  | atRule name prelude block => exact addAtRule_adds rfl

/-!
## Assembling node after node
-/

theorem assemble_nil (o : Options) : assemble o [] = {} :=
  rfl

theorem assemble_concat (o : Options) (nodes : List Node) (node : Node) :
    assemble o (nodes ++ [node]) = (assemble o nodes).add o node := by
  rw [assemble, List.foldl_append]
  rfl

end Merge
end StyleTrim
