import StyleTrim.Sheet.Fallback
import StyleTrim.Sheet.Printer

/-!
# Assembling a merged sheet

The nodes of all inputs are added one after the other. A node that repeats an earlier one is
dropped, and the contents of media blocks are gathered by condition. The finished sheet has the
charset first, then the imports, then everything else in the order in which it came, and the
gathered media blocks at the end.
-/

namespace StyleTrim
namespace Merge

structure Options where
  combineMedia : Bool := true
  dedupFontFaces : Bool := true
  dedupKeyframes : Bool := true
  removeEmpty : Bool := false
  /-- The greatest size of an input; zero means that there is none. -/
  maxBytes : Nat := defaultMaxBytes

structure Stats where
  inputRules : Nat := 0
  outputRules : Nat := 0
  duplicates : Nat := 0
  fontFaces : Nat := 0
  keyframes : Nat := 0
  media : Nat := 0
  empty : Nat := 0
deriving DecidableEq, Repr

/-!
## What makes two nodes the same
-/

def valueOf (property : Bytes) (nodes : List Node) : Bytes :=
  nodes.foldl
    (fun found node =>
      match node.head with
      | .declaration name value _ => if lower name = property then value else found
      | _ => found)
    []

def fontFaceKey (node : Node) : Bytes :=
  let family := (valueOf (ascii "font-family") node.children).filter fun b => !Byte.isQuote b
  trim Byte.isSpace family ++ 0x7C :: valueOf (ascii "src") node.children

def keyframesKey (name prelude : Bytes) : Bytes :=
  name ++ 0x7C :: prelude

/-!
## Adding nodes
-/

/-- The nodes gathered for one media condition, last one first, and the texts of all of them. -/
structure Bucket where
  condition : Bytes
  nodes : List Node
  seen : List Bytes

/-- What was added so far. Imports and other nodes come last one first; the buckets are in the
order in which their conditions came. -/
structure Assembly where
  stats : Stats := {}
  charset : Option Node := none
  imports : List Node := []
  body : List Node := []
  seenRules : List Bytes := []
  seenFontFaces : List Bytes := []
  seenKeyframes : List Bytes := []
  buckets : List Bucket := []

namespace Assembly

def push (a : Assembly) (node : Node) : Assembly :=
  { a with body := node :: a.body }

def isEmptyRule (o : Options) (node : Node) : Bool :=
  o.removeEmpty && node.children.isEmpty

def addRule (o : Options) (a : Assembly) (node : Node) : Assembly :=
  let stats := { a.stats with inputRules := a.stats.inputRules + 1 }
  let text := node.write
  if isEmptyRule o node then { a with stats := { stats with empty := stats.empty + 1 } }
  else if a.seenRules.contains text then
    { a with stats := { stats with duplicates := stats.duplicates + 1 } }
  else
    { a with
      stats := { stats with outputRules := stats.outputRules + 1 }
      seenRules := text :: a.seenRules
      body := node :: a.body }

def addFontFace (o : Options) (a : Assembly) (node : Node) : Assembly :=
  let stats := { a.stats with inputRules := a.stats.inputRules + 1 }
  let key := fontFaceKey node
  if o.dedupFontFaces && a.seenFontFaces.contains key then
    { a with stats := { stats with fontFaces := stats.fontFaces + 1 } }
  else
    { a with
      stats := { stats with outputRules := stats.outputRules + 1 }
      seenFontFaces := key :: a.seenFontFaces
      body := node :: a.body }

def addKeyframes (o : Options) (a : Assembly) (name prelude : Bytes) (node : Node) : Assembly :=
  let stats := { a.stats with inputRules := a.stats.inputRules + 1 }
  let key := keyframesKey name prelude
  if o.dedupKeyframes && a.seenKeyframes.contains key then
    { a with stats := { stats with keyframes := stats.keyframes + 1 } }
  else
    { a with
      stats := { stats with outputRules := stats.outputRules + 1 }
      seenKeyframes := key :: a.seenKeyframes
      body := node :: a.body }

def addToBucket (o : Options) (found : Stats × Bucket) (node : Node) : Stats × Bucket :=
  let (stats, bucket) := found
  let text := node.write
  let seen := bucket.seen.contains text
  let grown := { bucket with nodes := node :: bucket.nodes, seen := text :: bucket.seen }
  if node.head.isRule then
    let stats := { stats with inputRules := stats.inputRules + 1 }
    if isEmptyRule o node then ({ stats with empty := stats.empty + 1 }, bucket)
    else if seen then ({ stats with duplicates := stats.duplicates + 1 }, bucket)
    else (stats, grown)
  else if seen then (stats, bucket)
  else (stats, grown)

def addToBuckets (o : Options) (condition : Bytes) (nodes : List Node) (stats : Stats) :
    List Bucket -> Stats × List Bucket
  | [] =>
      let r := nodes.foldl (addToBucket o) (stats, ⟨condition, [], []⟩)
      (r.1, [r.2])
  | bucket :: buckets =>
      if bucket.condition = condition then
        let r := nodes.foldl (addToBucket o) (stats, bucket)
        (r.1, r.2 :: buckets)
      else
        let r := addToBuckets o condition nodes stats buckets
        (r.1, bucket :: r.2)

def isCombinable (o : Options) (prelude : Bytes) (block : Bool) : Bool :=
  o.combineMedia && !prelude.isEmpty && block

def addMedia (o : Options) (a : Assembly) (prelude : Bytes) (block : Bool) (node : Node) :
    Assembly :=
  if isCombinable o prelude block then
    let r := addToBuckets o prelude node.children a.stats a.buckets
    { a with stats := r.1, buckets := r.2 }
  else a.push node

def add (o : Options) (a : Assembly) (node : Node) : Assembly :=
  match node.head with
  | .rule _ _ => a.addRule o node
  | .declaration _ _ _ => a.push node
  | .atRule name prelude block =>
      match AtRuleKind.ofName name with
      | .charset => if a.charset.isSome then a else { a with charset := some node }
      | .importSheet => { a with imports := node :: a.imports }
      | .fontFace => a.addFontFace o node
      | .keyframes => a.addKeyframes o name prelude node
      | .media => a.addMedia o prelude block node
      | .namespaceDecl => a.push node
      | .other => a.push node

/-!
## The finished sheet
-/

/-- The media block of a bucket. -/
def Bucket.node (bucket : Bucket) : Node :=
  ⟨.atRule (ascii "media") bucket.condition true, bucket.nodes.reverse⟩

/-- The buckets that hold anything. -/
def filledBuckets (a : Assembly) : List Bucket :=
  a.buckets.filter fun bucket => !bucket.nodes.isEmpty

def sheet (a : Assembly) : Sheet :=
  a.charset.toList ++ a.imports.reverse ++ a.body.reverse ++ a.filledBuckets.map Bucket.node

def finalStats (a : Assembly) : Stats :=
  let inMedia := a.filledBuckets.flatMap Bucket.nodes
  { a.stats with
    media := a.stats.media + a.filledBuckets.length
    outputRules := a.stats.outputRules + inMedia.countP fun node => node.head.isRule }

end Assembly

/-- Adds all nodes, first one first. -/
def assemble (o : Options) (nodes : List Node) : Assembly :=
  nodes.foldl (Assembly.add o) {}

end Merge
end StyleTrim
