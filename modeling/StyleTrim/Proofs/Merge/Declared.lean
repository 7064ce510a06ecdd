import Mathlib.Data.List.Induction
import Mathlib.Data.List.Nodup
import StyleTrim.Proofs.Merge.Adding
import StyleTrim.Proofs.Sheet.Steps

/-!
# The merged sheet, declared

The assembly adds node after node and remembers what it has seen. Here the merged sheet is given
all at once: each part of it is a list that is cut out of all nodes, and whether a node is in it is
told by the node and those before it. The two are the same sheet.
-/

namespace StyleTrim
namespace Merge

section Lists

variable {α κ : Type}

/-!
## Sifting a list
-/

/-- The elements that a test keeps. The test is told what stands before each of them. -/
def siftAfter (keeps : List α -> α -> Bool) (earlier : List α) : List α -> List α
  | [] => []
  | a :: as => (if keeps earlier a then [a] else []) ++ siftAfter keeps (earlier ++ [a]) as

def sift (keeps : List α -> α -> Bool) (as : List α) : List α :=
  siftAfter keeps [] as

def firsts [BEq κ] (key : α -> κ) (as : List α) : List α :=
  sift (fun earlier a => !(earlier.map key).contains (key a)) as

theorem siftAfter_append (keeps : List α -> α -> Bool) (earlier as bs : List α) :
    siftAfter keeps earlier (as ++ bs) =
      siftAfter keeps earlier as ++ siftAfter keeps (earlier ++ as) bs := by
  induction as generalizing earlier with
  | nil => simp [siftAfter]
  | cons a as ih => simp [siftAfter, ih]

theorem sift_concat (keeps : List α -> α -> Bool) (as : List α) (a : α) :
    sift keeps (as ++ [a]) = sift keeps as ++ (if keeps as a then [a] else []) := by
  simp [sift, siftAfter_append, siftAfter]

theorem firsts_concat [BEq κ] (key : α -> κ) (as : List α) (a : α) :
    firsts key (as ++ [a]) =
      firsts key as ++ (if (as.map key).contains (key a) then [] else [a]) := by
  rw [firsts, sift_concat, ← firsts]
  cases (as.map key).contains (key a) <;> rfl

variable [BEq κ] [LawfulBEq κ]

theorem mem_map_firsts (key : α -> κ) (as : List α) (k : κ) :
    k ∈ (firsts key as).map key ↔ k ∈ as.map key := by
  induction as using List.reverseRecOn with
  | nil => rfl
  | append_singleton as a ih =>
      rw [firsts_concat]
      cases hseen : (as.map key).contains (key a) with
      | false => simp only [Bool.false_eq_true, if_false, List.map_append, List.mem_append, ih]
      | true =>
          have hmem : key a ∈ as.map key := List.contains_iff_mem.mp hseen
          simp only [if_true, List.append_nil, List.map_append, List.mem_append, ih]
          constructor
          · exact Or.inl
          · intro h
            rcases h with h | h
            · exact h
            · rw [List.map_singleton, List.mem_singleton] at h
              rw [h]
              exact hmem

theorem nodup_firsts (key : α -> κ) (as : List α) : ((firsts key as).map key).Nodup := by
  induction as using List.reverseRecOn with
  | nil => exact List.nodup_nil
  | append_singleton as a ih =>
      rw [firsts_concat]
      cases hseen : (as.map key).contains (key a) with
      | true => simpa using ih
      | false =>
          have hnew : key a ∉ (firsts key as).map key := by
            rw [mem_map_firsts, ← List.contains_iff_mem, hseen]
            exact Bool.false_ne_true
          simp only [Bool.false_eq_true, if_false, List.map_append, List.map_singleton]
          exact List.nodup_append.mpr
            ⟨ih, List.nodup_singleton _, by
              intro k hk k' hk'
              rw [List.mem_singleton.mp hk']
              exact fun heq => hnew (heq ▸ hk)⟩

end Lists

/-!
## The parts of the sheet
-/

def isKeptRule (o : Options) (node : Node) : Bool :=
  node.head.isRule && !Assembly.isEmptyRule o node

/-- The node keeps its place behind the imports, given the nodes before it. A style rule does so
unless it is dropped for being empty, or says what another one before it says; font faces and
keyframes go by their keys; and media rules that are gathered leave their place. -/
def staysBehind (o : Options) (earlier : List Node) (node : Node) : Bool :=
  if node.head.isRule then
    isKeptRule o node && !earlier.any fun e => isKeptRule o e && e.write == node.write
  else if hasKind .charset node || hasKind .importSheet node then false
  else if hasKind .fontFace node then
    !(o.dedupFontFaces &&
      earlier.any fun e => hasKind .fontFace e && fontFaceKey e == fontFaceKey node)
  else if hasKind .keyframes node then
    !(o.dedupKeyframes && earlier.any fun e => keyframesPair? e == keyframesPair? node)
  else (condition? o node).isNone

def conditions (o : Options) (nodes : List Node) : List Bytes :=
  firsts id (nodes.filterMap (condition? o))

def inside (o : Options) (nodes : List Node) (condition : Bytes) : List Node :=
  (nodes.filter fun node => condition? o node == some condition).flatMap Node.children

def isLeftOut (o : Options) (node : Node) : Bool :=
  node.head.isRule && Assembly.isEmptyRule o node

def gather (o : Options) (nodes : List Node) : List Node :=
  firsts Node.write (nodes.filter fun node => !isLeftOut o node)

def combinedBlock (o : Options) (nodes : List Node) (condition : Bytes) : Node :=
  ⟨.atRule (ascii "media") condition true, gather o (inside o nodes condition)⟩

/-- The media blocks at the end, one for each condition under which there is anything. -/
def combinedBlocks (o : Options) (nodes : List Node) : List Node :=
  ((conditions o nodes).map (combinedBlock o nodes)).filter fun block => !block.children.isEmpty

/-- The merged sheet of the nodes of all inputs. -/
def mergedSheet (o : Options) (nodes : List Node) : Sheet :=
  (nodes.find? (hasKind .charset)).toList ++ nodes.filter (hasKind .importSheet) ++
    sift (staysBehind o) nodes ++ combinedBlocks o nodes

variable {o : Options} {a a' : Assembly} {node : Node}

/-!
## What was seen

Each part of the assembly minds its own kind of nodes, and every other node leaves it as it is.
-/

structure Grows (o : Options) (a : Assembly) (node : Node) (a' : Assembly) : Prop where
  charset : a'.charset = a.charset.or (if hasKind .charset node then some node else none)
  imports : a'.imports = (if hasKind .importSheet node then [node] else []) ++ a.imports
  rules : ∀ text, text ∈ a'.seenRules ↔
    text ∈ a.seenRules ∨ (isKeptRule o node = true ∧ node.write = text)
  fontFaces : ∀ key, key ∈ a'.seenFontFaces ↔
    key ∈ a.seenFontFaces ∨ (hasKind .fontFace node = true ∧ fontFaceKey node = key)
  keyframes : ∀ key, key ∈ a'.seenKeyframes ↔
    key ∈ a.seenKeyframes ∨
      ∃ name prelude, keyframesPair? node = some (name, prelude) ∧ keyframesKey name prelude = key
  buckets : a'.buckets =
    match condition? o node with
    | none => a.buckets
    | some condition => (Assembly.addToBuckets o condition node.children a.stats a.buckets).2

theorem grows_of_isVerbatim (h : IsVerbatim o node) (body : List Node) :
    Grows o a node { a with body := body } := by
  constructor <;>
    simp [isKeptRule, h.rule, h.charset, h.importSheet, h.fontFace,
      keyframesPair?_eq_none h.keyframes, h.media]

theorem Adds.grows (h : Adds o a node a') : Grows o a node a' := by
  -- one entry of the list at a time: only the part that the entry is about is not as it was
  cases h with
  | emptyRule hrule hempty =>
      constructor <;>
        simp [isKeptRule, hempty, hasKind_of_isRule hrule, keyframesPair?_eq_none,
          condition?_eq_none]
  | repeatedRule hrule hfull hseen =>
      constructor <;>
        simp [isKeptRule, hfull, hrule, hasKind_of_isRule hrule, keyframesPair?_eq_none,
          condition?_eq_none]
      exact hseen
  | newRule hrule hfull hnew =>
      constructor <;>
        simp [isKeptRule, hfull, hrule, hasKind_of_isRule hrule, keyframesPair?_eq_none,
          condition?_eq_none]
      intro text
      rw [or_comm, eq_comm]
  | charset hkind =>
      constructor <;>
        simp [isKeptRule, isRule_of_hasKind hkind, kind_of_hasKind hkind, keyframesPair?_eq_none,
          condition?_eq_none]
  | importSheet hkind =>
      constructor <;>
        simp [isKeptRule, isRule_of_hasKind hkind, kind_of_hasKind hkind, keyframesPair?_eq_none,
          condition?_eq_none]
  | repeatedFontFace hkind hoption hseen =>
      constructor <;>
        simp [isKeptRule, isRule_of_hasKind hkind, kind_of_hasKind hkind, keyframesPair?_eq_none,
          condition?_eq_none]
      exact hseen
  | newFontFace hkind hnew =>
      constructor <;>
        simp [isKeptRule, isRule_of_hasKind hkind, kind_of_hasKind hkind, keyframesPair?_eq_none,
          condition?_eq_none]
      intro key
      rw [or_comm, eq_comm]
  | repeatedKeyframes hpair hoption hseen =>
      have hkind := hasKind_of_keyframesPair? hpair
      constructor <;>
        simp [isKeptRule, isRule_of_hasKind hkind, kind_of_hasKind hkind, hpair, condition?_eq_none]
      exact hseen
  | newKeyframes hpair hnew =>
      have hkind := hasKind_of_keyframesPair? hpair
      constructor <;>
        simp [isKeptRule, isRule_of_hasKind hkind, kind_of_hasKind hkind, hpair, condition?_eq_none]
      intro key
      rw [or_comm, eq_comm]
  | gathered hcondition =>
      have hkind := hasKind_of_condition? hcondition
      constructor <;>
        simp [isKeptRule, isRule_of_hasKind hkind, kind_of_hasKind hkind, keyframesPair?_eq_none,
          hcondition]
  | verbatim hplain => exact grows_of_isVerbatim hplain _

/-!
## Everything but the body
-/

theorem assemble_charset (o : Options) (nodes : List Node) :
    (assemble o nodes).charset = nodes.find? (hasKind .charset) := by
  induction nodes using List.reverseRecOn with
  | nil => rfl
  | append_singleton nodes node ih =>
      rw [assemble_concat, (add_adds o _ node).grows.charset, ih, List.find?_append]
      cases hkind : hasKind .charset node <;> simp [hkind]

theorem assemble_imports (o : Options) (nodes : List Node) :
    (assemble o nodes).imports.reverse = nodes.filter (hasKind .importSheet) := by
  induction nodes using List.reverseRecOn with
  | nil => rfl
  | append_singleton nodes node ih =>
      rw [assemble_concat, (add_adds o _ node).grows.imports, List.reverse_append, ih,
        List.filter_append]
      cases hkind : hasKind .importSheet node <;> simp [hkind]

/-- What is remembered of the nodes one by one is what some node gave to remember. -/
theorem mem_seen {seen : Assembly -> List Bytes} {gives : Node -> Bytes -> Prop}
    (hnil : seen {} = [])
    (hgrows : ∀ a node x, x ∈ seen (a.add o node) ↔ x ∈ seen a ∨ gives node x)
    (nodes : List Node) (x : Bytes) :
    x ∈ seen (assemble o nodes) ↔ ∃ e ∈ nodes, gives e x := by
  induction nodes using List.reverseRecOn with
  | nil => simp [assemble_nil, hnil]
  | append_singleton nodes node ih =>
      rw [assemble_concat, hgrows, ih]
      simp [or_and_right, exists_or]

theorem mem_seenRules (o : Options) (nodes : List Node) (text : Bytes) :
    text ∈ (assemble o nodes).seenRules ↔
      ∃ e ∈ nodes, isKeptRule o e = true ∧ e.write = text :=
  mem_seen rfl (fun a node => (add_adds o a node).grows.rules) nodes text

theorem mem_seenFontFaces (o : Options) (nodes : List Node) (key : Bytes) :
    key ∈ (assemble o nodes).seenFontFaces ↔
      ∃ e ∈ nodes, hasKind .fontFace e = true ∧ fontFaceKey e = key :=
  mem_seen rfl (fun a node => (add_adds o a node).grows.fontFaces) nodes key

theorem mem_seenKeyframes (o : Options) (nodes : List Node) (key : Bytes) :
    key ∈ (assemble o nodes).seenKeyframes ↔
      ∃ e ∈ nodes, ∃ name prelude,
        keyframesPair? e = some (name, prelude) ∧ keyframesKey name prelude = key :=
  mem_seen rfl (fun a node => (add_adds o a node).grows.keyframes) nodes key

/-!
## The body

The key of a keyframes rule tells its name from its prelude, because no name of keyframes holds a
bar.
-/

theorem bar_not_mem_keyframesNames : ∀ word ∈ AtRuleKind.keyframesNames, (0x7C : UInt8) ∉ word := by
  decide

theorem bar_not_mem_name {name : Bytes} (h : AtRuleKind.ofName name = .keyframes) :
    (0x7C : UInt8) ∉ name := by
  intro hbar
  have hlower : (0x7C : UInt8) ∈ lower name := List.mem_map.mpr ⟨0x7C, hbar, rfl⟩
  have hword : AtRuleKind.keyframesNames.contains (lower name) = true := by
    unfold AtRuleKind.ofName at h
    simp only at h
    split_ifs at h with _ _ _ _ _ hnames
    exact hnames
  exact bar_not_mem_keyframesNames _ (List.contains_iff_mem.mp hword) hlower

theorem ofName_of_keyframesPair? {pair : Bytes × Bytes} (h : keyframesPair? node = some pair) :
    AtRuleKind.ofName pair.1 = .keyframes := by
  unfold keyframesPair? at h
  split at h
  · split at h
    · rename_i hkind
      cases h
      exact hkind
    · cases h
  · cases h

theorem append_bar_inj {x y p q : Bytes} (hx : (0x7C : UInt8) ∉ x) (hy : (0x7C : UInt8) ∉ y)
    (h : x ++ 0x7C :: p = y ++ 0x7C :: q) : x = y ∧ p = q := by
  induction x generalizing y with
  | nil =>
      cases y with
      | nil => exact ⟨rfl, (List.cons.inj h).2⟩
      | cons c y => exact absurd (List.mem_cons.mpr (Or.inl (List.cons.inj h).1)) hy
  | cons b x ih =>
      cases y with
      | nil => exact absurd (List.mem_cons.mpr (Or.inl (List.cons.inj h).1.symm)) hx
      | cons c y =>
          rcases List.cons.inj h with ⟨hhead, htail⟩
          have hrest := ih (fun hmem => hx (List.mem_cons_of_mem _ hmem))
            (fun hmem => hy (List.mem_cons_of_mem _ hmem)) htail
          exact ⟨by rw [hhead, hrest.1], hrest.2⟩

theorem keyframesKey_inj {e : Node} {name prelude name' prelude' : Bytes}
    (hpair : keyframesPair? node = some (name, prelude))
    (hpair' : keyframesPair? e = some (name', prelude')) :
    keyframesKey name' prelude' = keyframesKey name prelude ↔
      (name', prelude') = (name, prelude) := by
  have hbar : (0x7C : UInt8) ∉ name := bar_not_mem_name (ofName_of_keyframesPair? hpair)
  have hbar' : (0x7C : UInt8) ∉ name' := bar_not_mem_name (ofName_of_keyframesPair? hpair')
  rw [keyframesKey, keyframesKey, Prod.mk.injEq]
  constructor
  · intro h
    exact append_bar_inj hbar' hbar h
  · intro h
    rw [h.1, h.2]

variable {nodes : List Node}

theorem seenRules_iff :
    node.write ∈ (assemble o nodes).seenRules ↔
      (nodes.any fun e => isKeptRule o e && e.write == node.write) = true := by
  simp [mem_seenRules]

theorem seenFontFaces_iff :
    fontFaceKey node ∈ (assemble o nodes).seenFontFaces ↔
      (nodes.any fun e => hasKind .fontFace e && fontFaceKey e == fontFaceKey node) = true := by
  simp [mem_seenFontFaces]

theorem seenKeyframes_iff {name prelude : Bytes}
    (hpair : keyframesPair? node = some (name, prelude)) :
    keyframesKey name prelude ∈ (assemble o nodes).seenKeyframes ↔
      (nodes.any fun e => keyframesPair? e == keyframesPair? node) = true := by
  rw [mem_seenKeyframes, List.any_eq_true, hpair]
  constructor
  · intro h
    rcases h with ⟨e, he, name', prelude', hpair', hkey⟩
    refine ⟨e, he, ?_⟩
    rw [hpair', beq_iff_eq, (keyframesKey_inj hpair hpair').mp hkey]
  · intro h
    rcases h with ⟨e, he, hpair'⟩
    exact ⟨e, he, name, prelude, beq_iff_eq.mp hpair', rfl⟩

theorem staysBehind_of_isRule (hrule : node.head.isRule = true) :
    staysBehind o nodes node =
      (isKeptRule o node && !nodes.any fun e => isKeptRule o e && e.write == node.write) := by
  rw [staysBehind, if_pos hrule]

theorem staysBehind_of_fontFace (hkind : hasKind .fontFace node = true) :
    staysBehind o nodes node =
      !(o.dedupFontFaces &&
        nodes.any fun e => hasKind .fontFace e && fontFaceKey e == fontFaceKey node) := by
  simp [staysBehind, isRule_of_hasKind hkind, kind_of_hasKind hkind]

theorem staysBehind_of_keyframes (hkind : hasKind .keyframes node = true) :
    staysBehind o nodes node =
      !(o.dedupKeyframes && nodes.any fun e => keyframesPair? e == keyframesPair? node) := by
  simp [staysBehind, isRule_of_hasKind hkind, kind_of_hasKind hkind]

theorem body_of_adds (h : Adds o (assemble o nodes) node a') :
    a'.body =
      (if staysBehind o nodes node then [node] else []) ++ (assemble o nodes).body := by
  cases h with
  | emptyRule hrule hempty =>
      rw [staysBehind_of_isRule hrule]
      simp [isKeptRule, hempty]
  | repeatedRule hrule hfull hseen =>
      rw [staysBehind_of_isRule hrule, seenRules_iff.mp hseen]
      simp
  | newRule hrule hfull hnew =>
      rw [seenRules_iff, Bool.not_eq_true] at hnew
      rw [staysBehind_of_isRule hrule, hnew]
      simp [isKeptRule, hrule, hfull]
  | charset hkind => simp [staysBehind, isRule_of_hasKind hkind, hkind]
  | importSheet hkind => simp [staysBehind, isRule_of_hasKind hkind, hkind]
  | repeatedFontFace hkind hoption hseen =>
      rw [staysBehind_of_fontFace hkind, hoption, seenFontFaces_iff.mp hseen]
      rfl
  | newFontFace hkind hnew =>
      have hunseen : (o.dedupFontFaces && nodes.any fun e =>
          hasKind .fontFace e && fontFaceKey e == fontFaceKey node) = false := by
        rw [Bool.and_eq_false_imp]
        intro hoption
        rw [Bool.eq_false_iff]
        exact mt seenFontFaces_iff.mpr (hnew hoption)
      rw [staysBehind_of_fontFace hkind, hunseen]
      rfl
  | repeatedKeyframes hpair hoption hseen =>
      rw [staysBehind_of_keyframes (hasKind_of_keyframesPair? hpair), hoption,
        (seenKeyframes_iff hpair).mp hseen]
      rfl
  | newKeyframes hpair hnew =>
      have hunseen : (o.dedupKeyframes &&
          nodes.any fun e => keyframesPair? e == keyframesPair? node) = false := by
        rw [Bool.and_eq_false_imp]
        intro hoption
        rw [Bool.eq_false_iff]
        exact mt (seenKeyframes_iff hpair).mpr (hnew hoption)
      rw [staysBehind_of_keyframes (hasKind_of_keyframesPair? hpair), hunseen]
      rfl
  | gathered hcondition =>
      have hkind := hasKind_of_condition? hcondition
      simp [staysBehind, isRule_of_hasKind hkind, kind_of_hasKind hkind, hcondition]
  | verbatim hplain =>
      simp [staysBehind, hplain.rule, hplain.charset, hplain.importSheet, hplain.fontFace,
        hplain.keyframes, hplain.media]

theorem assemble_body (o : Options) (nodes : List Node) :
    (assemble o nodes).body.reverse = sift (staysBehind o) nodes := by
  induction nodes using List.reverseRecOn with
  | nil => rfl
  | append_singleton nodes node ih =>
      rw [assemble_concat, body_of_adds (add_adds o _ node), List.reverse_append, ih, sift_concat]
      congr 1
      split <;> rfl

/-!
## The buckets

A bucket holds what was gathered for its condition, last one first, and the texts of it.
-/

open Assembly

def bucketOf (o : Options) (condition : Bytes) (nodes : List Node) : Bucket :=
  { condition := condition
    nodes := (gather o nodes).reverse
    seen := (gather o nodes).reverse.map Node.write }

theorem mem_seen_bucketOf (condition : Bytes) (nodes : List Node) (text : Bytes) :
    (bucketOf o condition nodes).seen.contains text =
      ((nodes.filter fun node => !isLeftOut o node).map Node.write).contains text := by
  rw [Bool.eq_iff_iff, List.contains_iff_mem, List.contains_iff_mem, bucketOf, List.map_reverse,
    List.mem_reverse, gather, mem_map_firsts]

theorem addToBucket_bucketOf (stats : Stats) (condition : Bytes) (nodes : List Node)
    (node : Node) :
    (addToBucket o (stats, bucketOf o condition nodes) node).2 =
      bucketOf o condition (nodes ++ [node]) := by
  have hgather : gather o (nodes ++ [node]) =
      if isLeftOut o node then gather o nodes
      else gather o nodes ++
        (if ((nodes.filter fun node => !isLeftOut o node).map Node.write).contains node.write
          then [] else [node]) := by
    rw [gather, List.filter_append]
    cases hleft : isLeftOut o node with
    | true => simp [hleft, gather]
    | false =>
        rw [List.filter_cons_of_pos (by simp [hleft]), List.filter_nil, firsts_concat]
        rfl
  have hseen := mem_seen_bucketOf (o := o) condition nodes node.write
  have hnext : bucketOf o condition (nodes ++ [node]) =
      ⟨condition, (gather o (nodes ++ [node])).reverse,
        (gather o (nodes ++ [node])).reverse.map Node.write⟩ := rfl
  rw [hnext, hgather, addToBucket]
  simp only [hseen]
  cases hrule : node.head.isRule with
  | false =>
      have hleft : isLeftOut o node = false := by rw [isLeftOut, hrule, Bool.false_and]
      simp only [hleft, Bool.false_eq_true, if_false]
      split
      · simp [bucketOf]
      · simp [bucketOf]
  | true =>
      have hleft : isLeftOut o node = isEmptyRule o node := by rw [isLeftOut, hrule, Bool.true_and]
      simp only [hleft, if_true]
      split
      · rfl
      · split
        · simp [bucketOf]
        · simp [bucketOf]

theorem foldl_addToBucket (stats : Stats) (condition : Bytes) (nodes more : List Node) :
    (more.foldl (addToBucket o) (stats, bucketOf o condition nodes)).2 =
      bucketOf o condition (nodes ++ more) := by
  induction more generalizing stats nodes with
  | nil => rw [List.foldl_nil, List.append_nil]
  | cons node more ih =>
      have hnext := addToBucket_bucketOf (o := o) stats condition nodes node
      rw [List.foldl_cons, ← Prod.eta (addToBucket o (stats, bucketOf o condition nodes) node),
        hnext, ih, List.append_assoc, List.singleton_append]

theorem addToBuckets_bucketOf (condition : Bytes) (more : List Node) (stats : Stats)
    {known : List Bytes} (hnodup : known.Nodup) (nodes : Bytes -> List Node)
    (hnew : condition ∉ known -> nodes condition = []) :
    (addToBuckets o condition more stats (known.map fun c => bucketOf o c (nodes c))).2 =
      (known ++ (if known.contains condition then [] else [condition])).map fun c =>
        bucketOf o c (nodes c ++ (if condition = c then more else [])) := by
  induction known generalizing stats with
  | nil =>
      have hnone : nodes condition = [] := hnew List.not_mem_nil
      have hempty : bucketOf o condition [] = ⟨condition, [], []⟩ := rfl
      simp [addToBuckets, ← hempty, foldl_addToBucket, hnone]
  | cons c known ih =>
      rw [List.nodup_cons] at hnodup
      rw [List.map_cons, addToBuckets]
      split
      · rename_i hsame
        have hc : c = condition := hsame
        subst hc
        have hrest : known.map (fun d => bucketOf o d (nodes d ++ (if c = d then more else []))) =
            known.map fun d => bucketOf o d (nodes d) := by
          apply List.map_congr_left
          intro d hd
          rw [if_neg (fun heq : c = d => hnodup.1 (heq ▸ hd)), List.append_nil]
        have hknown : (c :: known).contains c = true := List.contains_iff_mem.mpr List.mem_cons_self
        rw [hknown, if_pos rfl, List.append_nil, List.map_cons, hrest, if_pos rfl]
        simp only [foldl_addToBucket]
      · rename_i hother
        have hc : condition ≠ c := fun heq => hother heq.symm
        have hknown : (c :: known).contains condition = known.contains condition := by
          rw [List.contains_cons, beq_false_of_ne hc, Bool.false_or]
        have hrest := ih stats hnodup.2 fun hmem =>
          hnew fun hcons => (List.mem_cons.mp hcons).elim hc hmem
        rw [hknown, List.cons_append, List.map_cons, if_neg hc, List.append_nil]
        simp only [hrest]

theorem inside_concat (o : Options) (nodes : List Node) (node : Node) (condition : Bytes) :
    inside o (nodes ++ [node]) condition =
      inside o nodes condition ++
        (if condition? o node = some condition then node.children else []) := by
  rw [inside, List.filter_append, List.flatMap_append, ← inside]
  congr 1
  by_cases hsame : condition? o node = some condition
  · simp [hsame]
  · simp [hsame]

theorem inside_of_not_mem {nodes : List Node} {condition : Bytes}
    (h : condition ∉ conditions o nodes) : inside o nodes condition = [] := by
  rw [inside, List.flatMap_eq_nil_iff]
  intro node hnode
  rw [List.mem_filter, beq_iff_eq] at hnode
  have hmem : condition ∈ (nodes.filterMap (condition? o)).map id := by
    rw [List.map_id]
    exact List.mem_filterMap.mpr ⟨node, hnode.1, hnode.2⟩
  rw [← mem_map_firsts, List.map_id] at hmem
  exact absurd hmem h

theorem assemble_buckets (o : Options) (nodes : List Node) :
    (assemble o nodes).buckets =
      (conditions o nodes).map fun c => bucketOf o c (inside o nodes c) := by
  induction nodes using List.reverseRecOn with
  | nil => rfl
  | append_singleton nodes node ih =>
      rw [assemble_concat, (add_adds o _ node).grows.buckets]
      cases hcondition : condition? o node with
      | none =>
          have hsame : conditions o (nodes ++ [node]) = conditions o nodes := by
            rw [conditions, conditions, List.filterMap_append, List.filterMap_cons_none hcondition,
              List.filterMap_nil, List.append_nil]
          simp only [hsame, inside_concat, hcondition, ih]
          simp
      | some condition =>
          have hgrown : conditions o (nodes ++ [node]) = conditions o nodes ++
              (if (conditions o nodes).contains condition then [] else [condition]) := by
            have hknown : ((nodes.filterMap (condition? o)).map id).contains (id condition) =
                (conditions o nodes).contains condition := by
              rw [Bool.eq_iff_iff, List.contains_iff_mem, List.contains_iff_mem, id,
                ← mem_map_firsts, ← conditions, List.map_id]
            rw [conditions, List.filterMap_append, List.filterMap_cons_some hcondition,
              List.filterMap_nil, firsts_concat, hknown, ← conditions]
          have hnodup : (conditions o nodes).Nodup := by
            have h := nodup_firsts id (nodes.filterMap (condition? o))
            rwa [List.map_id] at h
          simp only [ih]
          rw [addToBuckets_bucketOf condition node.children _ hnodup (inside o nodes)
            inside_of_not_mem, hgrown]
          simp only [inside_concat, hcondition, Option.some_inj]

/-!
## The whole sheet
-/

theorem combinedBlocks_eq (o : Options) (nodes : List Node) :
    (assemble o nodes).filledBuckets.map Bucket.node = combinedBlocks o nodes := by
  have hnode : ∀ c, Bucket.node (bucketOf o c (inside o nodes c)) = combinedBlock o nodes c := by
    intro c
    rw [Bucket.node, bucketOf, List.reverse_reverse, combinedBlock]
  have hfilled : ∀ c, (!(bucketOf o c (inside o nodes c)).nodes.isEmpty) =
      !(combinedBlock o nodes c).children.isEmpty := by
    intro c
    rw [bucketOf, List.isEmpty_reverse, combinedBlock]
  rw [filledBuckets, assemble_buckets, List.filter_map, List.map_map, combinedBlocks,
    List.filter_map]
  simp only [Function.comp_def, hnode, hfilled]

theorem assemble_sheet (o : Options) (nodes : List Node) :
    (assemble o nodes).sheet = mergedSheet o nodes := by
  rw [Assembly.sheet, assemble_charset, assemble_imports, assemble_body, combinedBlocks_eq,
    mergedSheet]

/-!
## The inputs
-/

/-- The nodes of an input. One that is too large or cannot be read is not accepted, and has
none. -/
def acceptedNodes (o : Options) (input : Input) : List Node :=
  if o.maxBytes = 0 ∨ input.text.length ≤ o.maxBytes then
    match (Sheet.parseWithFallback input.text).result with
    | .ok sheet => sheet
    | .error _ => []
  else []

theorem read_nodes (o : Options) (input : Input) :
    (match (read o input).1 with
      | .ok sheet => sheet
      | .error _ => []) = acceptedNodes o input := by
  unfold read acceptedNodes
  cases htext : input.text with
  | nil =>
      have hread : (Sheet.parseWithFallback []).result = .ok [] := by
        rw [Sheet.parseWithFallback, Sheet.parse_nil]
      rw [hread, List.length_nil, if_pos (Or.inr (Nat.zero_le _))]
      rfl
  | cons b s =>
      by_cases hsize : 0 < o.maxBytes ∧ o.maxBytes < (b :: s).length
      · rw [if_neg (by omega : ¬(o.maxBytes = 0 ∨ (b :: s).length ≤ o.maxBytes))]
        simp only [List.isEmpty_cons, Bool.false_eq_true, if_false, if_pos hsize]
      · rw [if_pos (by omega : o.maxBytes = 0 ∨ (b :: s).length ≤ o.maxBytes)]
        simp only [List.isEmpty_cons, Bool.false_eq_true, if_false, if_neg hsize]
        cases (Sheet.parseWithFallback (b :: s)).result with
        | ok sheet => rfl
        | error e => rfl

theorem add_nodes (m : Merger) (input : Input) :
    (m.add input).2.1.options = m.options ∧
      (m.add input).2.1.nodes = m.nodes ++ acceptedNodes m.options input := by
  have hnodes := read_nodes m.options input
  unfold Merger.add
  split
  · rename_i hread
    rw [hread] at hnodes
    exact ⟨rfl, by rw [← hnodes]⟩
  · rename_i hread
    rw [hread] at hnodes
    exact ⟨rfl, by rw [← hnodes, List.append_nil]⟩

theorem addAll_cons (m : Merger) (input : Input) (inputs : List Input) :
    (addAll m (input :: inputs)).1 = (addAll (m.add input).2.1 inputs).1 := by
  have hevents : ∀ (m : Merger) (events events' : List Event),
      (inputs.foldl (fun found input =>
        let r := found.1.add input
        (r.2.1, found.2 ++ r.2.2)) (m, events)).1 =
      (inputs.foldl (fun found input =>
        let r := found.1.add input
        (r.2.1, found.2 ++ r.2.2)) (m, events')).1 := by
    intro m
    induction inputs generalizing m with
    | nil => intro events events'; rfl
    | cons next inputs ih => intro events events'; exact ih _ _ _
  exact hevents _ _ _

theorem addAll_nodes (m : Merger) (inputs : List Input) :
    (addAll m inputs).1.options = m.options ∧
      (addAll m inputs).1.nodes = m.nodes ++ inputs.flatMap (acceptedNodes m.options) := by
  induction inputs generalizing m with
  | nil => exact ⟨rfl, (List.append_nil _).symm⟩
  | cons input inputs ih =>
      rcases add_nodes m input with ⟨hoptions, hnodes⟩
      rcases ih (m.add input).2.1 with ⟨hoptions', hnodes'⟩
      rw [addAll_cons, hoptions', hnodes', hoptions, hnodes, List.flatMap_cons, List.append_assoc]
      exact ⟨rfl, rfl⟩

theorem run_assembles (o : Options) (inputs : List Input) :
    (run o inputs).1.css =
        sanitize (Sheet.write (assemble o (inputs.flatMap (acceptedNodes o))).sheet) ∧
      (run o inputs).1.stats = (assemble o (inputs.flatMap (acceptedNodes o))).finalStats := by
  rcases addAll_nodes (Merger.start o) inputs with ⟨hoptions, hnodes⟩
  have hassembly : assemble (addAll (Merger.start o) inputs).1.options
      (addAll (Merger.start o) inputs).1.nodes = assemble o (inputs.flatMap (acceptedNodes o)) := by
    rw [hoptions, hnodes]
    rfl
  exact ⟨congrArg (fun a => sanitize (Sheet.write (Assembly.sheet a))) hassembly,
    congrArg finalStats hassembly⟩

/-- What is written at the end is the declared sheet of the nodes of all accepted inputs. -/
theorem finish_writes_declared (o : Options) (inputs : List Input) :
    let m := (addAll (Merger.start o) inputs).1
    let nodes := inputs.flatMap (acceptedNodes o)
    m.nodes = nodes ∧ (assemble m.options m.nodes).sheet = mergedSheet o nodes ∧
      m.finish.1.css = sanitize (Sheet.write (mergedSheet o nodes)) ∧
      (run o inputs).1.css = m.finish.1.css := by
  intro m nodes
  rcases addAll_nodes (Merger.start o) inputs with ⟨hoptions, hnodes⟩
  have hsheet : (assemble m.options m.nodes).sheet = mergedSheet o nodes := by
    rw [assemble_sheet, hoptions, hnodes]
    rfl
  refine ⟨hnodes, hsheet, ?_, rfl⟩
  rw [← hsheet]
  rfl

end Merge
end StyleTrim
