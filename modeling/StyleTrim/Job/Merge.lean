import StyleTrim.Disk.Host
import StyleTrim.Job.Result

/-!
# The merge job

The job reads its inputs in their order and writes the merged sheet. An input that cannot be read
is passed over with a warning, and so is one that the merger does not accept. The job fails when
no input is left, and then writes nothing.
-/

namespace StyleTrim
namespace Job

structure MergeRequest where
  inputPaths : List Bytes := []
  outputPath : Bytes := []
  /-- The directory that no path may leave; empty when any path will do. -/
  baseDirectory : Bytes := []
  options : Merge.Options := {}

/-- What reading an input came to. -/
structure ReadInput where
  path : Bytes
  answer : Except Fault Bytes

section

variable {m : Type -> Type} [Monad m]

def readInput (host : Host m) (q : MergeRequest) (path : Bytes) : m ReadInput := do
  match ← host.resolve q.baseDirectory path with
  | .error fault => pure ⟨path, .error fault⟩
  | .ok place =>
      let answer ← host.readText place q.options.maxBytes
      pure ⟨path, answer⟩

def readInputs (host : Host m) (q : MergeRequest) : List Bytes -> m (List ReadInput)
  | [] => pure []
  | path :: paths => do
      let input ← readInput host q path
      let inputs ← readInputs host q paths
      pure (input :: inputs)

end

/-!
## Gathering

From here to the writing of the output a job needs no host.
-/

structure Gathered where
  merger : Merge.Merger
  unread : List Fault := []
  readable : Nat := 0
  inputBytes : Nat := 0
  told : List Event := []

def unreadFault (path : Bytes) (fault : Fault) : Fault :=
  { kind := .partialInput
    message := ascii "Could not read " ++ path ++ ascii ": " ++ fault.message
    path := path }

namespace Gathered

def start (o : Merge.Options) : Gathered :=
  { merger := .start o }

def take (g : Gathered) (input : ReadInput) : Gathered :=
  match input.answer with
  | .error fault =>
      let fault := unreadFault input.path fault
      { g with
        unread := g.unread ++ [fault]
        told := g.told ++ [Merge.event .warning "input" fault.message] }
  | .ok text =>
      let added := g.merger.add ⟨input.path, text⟩
      { g with
        merger := added.2.1
        readable := g.readable + 1
        inputBytes := g.inputBytes + text.length
        told := g.told ++ added.2.2 }

def takeAll (g : Gathered) (inputs : List ReadInput) : Gathered :=
  inputs.foldl take g

def fault? (g : Gathered) : Option Fault :=
  if g.readable = 0 then
    some { kind := .fileError, message := ascii "No CSS files could be read" }
  else if g.merger.merged = 0 then
    some { kind := .fileError, message := ascii "No CSS files could be merged" }
  else none

end Gathered

/-!
## What is known of the result
-/

namespace MergeResult

def asked (q : MergeRequest) : MergeResult :=
  { inputFiles := q.inputPaths }

def gathered (r : MergeResult) (g : Gathered) (output : Merge.Output) : MergeResult :=
  { r with inputBytes := g.inputBytes, warnings := g.unread ++ output.warnings }

def finished (r : MergeResult) (output : Merge.Output) (duration : Int) : MergeResult :=
  { r with
    ok := true
    outputBytes := output.css.length
    stats := output.stats
    reduction := reductionPercent r.inputBytes output.css.length
    duration := duration }

def failed (r : MergeResult) (fault : Fault) : MergeResult :=
  { r with fault := fault }

end MergeResult

def mergeOutputEvent (r : MergeResult) (merged : Nat) : Event :=
  Merge.event .info "output"
    (Decimal.ofNat merged ++ ascii " files merged into " ++ r.outputPath ++ ascii " (" ++
      percent r.reduction ++ ascii " reduction)")

/-!
## The job
-/

/-- Runs a job. The answer is its result, and the events that tell of it. -/
def merge {m : Type -> Type} [Monad m] (host : Host m) (q : MergeRequest) :
    m (MergeResult × List Event) := do
  let start ← host.clock
  let r := MergeResult.asked q
  match ← host.resolve q.baseDirectory q.outputPath with
  | .error fault => pure (r.failed fault, [])
  | .ok place =>
      let inputs ← readInputs host q q.inputPaths
      let g := (Gathered.start q.options).takeAll inputs
      let (output, told) := g.merger.finish
      let r := { r with outputPath := place }.gathered g output
      let told := g.told ++ told
      match g.fault? with
      | some fault =>
          pure (r.failed fault, told ++ [Merge.event .error "input" fault.message])
      | none =>
          match ← host.writeText place output.css with
          | .error fault =>
              pure (r.failed fault, told ++ [Merge.event .error "output" fault.line])
          | .ok () =>
              let stop ← host.clock
              let r := r.finished output (stop - start)
              pure (r, told ++ [mergeOutputEvent r output.merged])

end Job
end StyleTrim
