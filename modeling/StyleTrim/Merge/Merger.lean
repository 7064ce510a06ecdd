import StyleTrim.Diagnostic
import StyleTrim.Fault
import StyleTrim.Merge.Assembly
import StyleTrim.Sanitize.Sanitizer

/-!
# Merging sheets

A merger takes inputs one by one. An input that is too large or cannot be read is passed over
with a warning. At the end the nodes of all accepted inputs are assembled into one sheet, and the
merger can start anew.
-/

namespace StyleTrim
namespace Merge

/-- A text together with where it came from. -/
structure Input where
  label : Bytes
  text : Bytes

/-- The nodes of the accepted inputs, in the order in which they came, and a warning for each input
that was passed over. -/
structure Merger where
  options : Options
  nodes : List Node := []
  warnings : List Fault := []
  merged : Nat := 0

structure Output where
  css : Bytes
  stats : Stats
  warnings : List Fault
  merged : Nat

def event (severity : Severity) (stage : String) (message : Bytes) : Event :=
  ⟨severity, ascii "merge", ascii stage, message⟩

/-- Why an input is passed over. -/
inductive Refusal where
  | tooLarge (size limit : Nat)
  | unreadable (error : SheetError)
deriving DecidableEq, Repr

def Refusal.message : Refusal -> Bytes
  | .tooLarge size limit =>
      ascii "input of " ++ Decimal.ofNat size ++ ascii " bytes exceeds the " ++
        Decimal.ofNat limit ++ ascii " byte limit, skipped"
  | .unreadable e => ascii "could not be parsed: " ++ e.message

def fallbackEvents (label : Bytes) : Option SheetError -> List Event
  | none => []
  | some e =>
      [event .debug "parse"
        (label ++ ascii ": strict parse failed (" ++ e.message ++
          ascii "), retrying leniently")]

/-- The nodes of an input, and what is told of reading it. An empty input is accepted without a
word. -/
def read (o : Options) (input : Input) : Except Refusal Sheet × List Event :=
  if input.text.isEmpty then (.ok [], [])
  else if 0 < o.maxBytes ∧ o.maxBytes < input.text.length then
    (.error (.tooLarge input.text.length o.maxBytes), [])
  else
    let reading := Sheet.parseWithFallback input.text
    let told := fallbackEvents input.label reading.strictError
    match reading.result with
    | .error e => (.error (.unreadable e), told)
    | .ok sheet => (.ok sheet, told ++ [event .debug "input" (ascii "merged " ++ input.label)])

namespace Merger

def start (o : Options) : Merger :=
  { options := o }

def add (m : Merger) (input : Input) : Bool × Merger × List Event :=
  match read m.options input with
  | (.ok sheet, told) =>
      (true, { m with nodes := m.nodes ++ sheet, merged := m.merged + 1 }, told)
  | (.error refusal, told) =>
      let fault : Fault :=
        { kind := .partialInput, message := refusal.message, path := input.label }
      (false, { m with warnings := m.warnings ++ [fault] },
        told ++ [event .warning "input" (input.label ++ ascii ": " ++ refusal.message)])

def summaryEvent (stats : Stats) : Event :=
  event .info "output"
    (ascii "rules: " ++ Decimal.ofNat stats.inputRules ++ ascii " in, " ++
      Decimal.ofNat stats.outputRules ++ ascii " out, " ++ Decimal.ofNat stats.duplicates ++
      ascii " duplicates removed")

/-- The merged sheet of all accepted inputs. -/
def finish (m : Merger) : Output × List Event :=
  let assembly := assemble m.options m.nodes
  let stats := assembly.finalStats
  ({ css := sanitize (Sheet.write assembly.sheet)
     stats := stats
     warnings := m.warnings
     merged := m.merged },
    [summaryEvent stats])

def reset (m : Merger) : Merger :=
  start m.options

end Merger

/-- Adds inputs one after the other, and tells what happened. -/
def addAll (m : Merger) (inputs : List Input) : Merger × List Event :=
  inputs.foldl
    (fun found input =>
      let r := found.1.add input
      (r.2.1, found.2 ++ r.2.2))
    (m, [])

/-- Merges inputs, the first one having the lowest precedence. -/
def run (o : Options) (inputs : List Input) : Output × List Event :=
  let added := addAll (Merger.start o) inputs
  let finished := added.1.finish
  (finished.1, added.2 ++ finished.2)

end Merge
end StyleTrim
