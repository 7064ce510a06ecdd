import StyleTrim.Diagnostic
import StyleTrim.Fault
import StyleTrim.Quantity
import StyleTrim.Sanitize.Sanitizer
import StyleTrim.Selector.Matching
import StyleTrim.Sheet.Fallback
import StyleTrim.Sheet.Printer

/-!
# Filtering out unused rules

The filter drops those style rules outside of all blocks that cannot match anything in a page.
At-rules stay as they are, with all that is in them, and so does a rule whose prelude was not
read as a selector list.
-/

namespace StyleTrim
namespace Filter

structure Options where
  /-- The greatest size of the input; zero means that there is none. -/
  maxBytes : Nat := defaultMaxBytes

/-- The rules are style rules outside of all blocks, the at-rules those at any depth. -/
structure Stats where
  total : Nat := 0
  kept : Nat := 0
  removed : Nat := 0
  atRules : Nat := 0
  mediaQueries : Nat := 0
deriving DecidableEq, Repr

structure Output where
  css : Bytes
  stats : Stats

def event (severity : Severity) (stage : String) (message : Bytes) : Event :=
  ⟨severity, ascii "filter", ascii stage, message⟩

/-!
## Which nodes stay
-/

def keeps (facts : Facts) : Head -> Bool
  | .rule prelude selectors =>
      isAlwaysKept prelude ||
        match selectors with
        | none => true
        | some list => SelectorList.mayMatchAny facts list
  | _ => true

def keptNodes (facts : Facts) (sheet : Sheet) : Sheet :=
  sheet.filter fun node => keeps facts node.head

def removedNodes (facts : Facts) (sheet : Sheet) : Sheet :=
  sheet.filter fun node => !keeps facts node.head

def countRules (nodes : List Node) : Nat :=
  nodes.countP fun node => node.head.isRule

def countAtRules (p : AtRuleKind -> Bool) (sheet : Sheet) : Nat :=
  (Sheet.visits 0 sheet).countP fun visit => visit.2.atRuleKind?.any p

def statsOf (facts : Facts) (sheet : Sheet) : Stats :=
  let kept := keptNodes facts sheet
  { total := countRules sheet
    kept := countRules kept
    removed := countRules (removedNodes facts sheet)
    atRules := countAtRules (fun _ => true) kept
    mediaQueries := countAtRules (· == .media) kept }

/-!
## What is told
-/

def preludeOf : Head -> Bytes
  | .rule prelude _ => prelude
  | .atRule _ prelude _ => prelude
  | .declaration _ _ _ => []

def removalEvents (facts : Facts) (sheet : Sheet) : List Event :=
  (removedNodes facts sheet).map fun node =>
    event .debug "match" (ascii "removed " ++ preludeOf node.head)

def summaryEvents (stats : Stats) : List Event :=
  [event .info "match"
    (ascii "rules: " ++ Decimal.ofNat stats.total ++ ascii " total, " ++
      Decimal.ofNat stats.kept ++ ascii " kept, " ++ Decimal.ofNat stats.removed ++
      ascii " removed"),
    event .info "match"
      (ascii "at-rules: " ++ Decimal.ofNat stats.atRules ++ ascii " (" ++
        Decimal.ofNat stats.mediaQueries ++ ascii " media queries)")]

def fallbackEvents : Option SheetError -> List Event
  | none => []
  | some e =>
      [event .warning "parse"
        (ascii "strict parse failed (" ++ e.message ++ ascii "), retrying leniently")]

/-!
## The filter
-/

def tooLarge (size limit : Nat) : Fault :=
  { kind := .inputTooLarge
    message :=
      ascii "CSS input (" ++ megabytes size ++ ascii ") exceeds " ++ megabytes limit ++
        ascii " limit" }

def unreadable (e : SheetError) : Fault :=
  { kind := .parseError, message := ascii "Failed to parse CSS: " ++ e.message }

/-- Filters a sheet that was read. -/
def outputOf (facts : Facts) (sheet : Sheet) : Output :=
  { css := sanitize (Sheet.write (keptNodes facts sheet))
    stats := statsOf facts sheet }

/-- Filters a text, and tells what happened. -/
def run (o : Options) (facts : Facts) (css : Bytes) : Except Fault Output × List Event :=
  if 0 < o.maxBytes ∧ o.maxBytes < css.length then
    let fault := tooLarge css.length o.maxBytes
    (.error fault, [event .error "input" fault.message])
  else
    let reading := Sheet.parseWithFallback css
    let told := fallbackEvents reading.strictError
    match reading.result with
    | .error e =>
        let fault := unreadable e
        (.error fault, told ++ [event .error "parse" fault.message])
    | .ok sheet =>
        let output := outputOf facts sheet
        (.ok output, told ++ removalEvents facts sheet ++ summaryEvents output.stats)

end Filter
end StyleTrim
