import StyleTrim.Disk.Host
import StyleTrim.Job.Result
import StyleTrim.Page.Scan

/-!
# The filter job

The job reads a page and a sheet, filters the sheet for the page, and writes what is left. Nothing
is written before everything else went well. The first fault ends the job; it comes with a hint,
and with an event that tells of it.
-/

namespace StyleTrim
namespace Job

structure FilterRequest where
  htmlPath : Bytes := []
  cssPath : Bytes := []
  outputPath : Bytes := []
  /-- The directory that no path may leave; empty when any path will do. -/
  baseDirectory : Bytes := []
  options : Filter.Options := {}

/-- The places that the paths of a request lead to. -/
structure FilterPlaces where
  html : Bytes
  css : Bytes
  output : Bytes

structure FilterTexts where
  html : Bytes
  css : Bytes

variable {m : Type -> Type} [Monad m]

def filterPlaces (host : Host m) (q : FilterRequest) : m (Except Fault FilterPlaces) := do
  match ← host.resolve q.baseDirectory q.htmlPath with
  | .error fault => pure (.error fault)
  | .ok html =>
      match ← host.resolve q.baseDirectory q.cssPath with
      | .error fault => pure (.error fault)
      | .ok css =>
          match ← host.resolve q.baseDirectory q.outputPath with
          | .error fault => pure (.error fault)
          | .ok output => pure (.ok ⟨html, css, output⟩)

def filterTexts (host : Host m) (q : FilterRequest) (places : FilterPlaces) :
    m (Except Fault FilterTexts) := do
  match ← host.readText places.html 0 with
  | .error fault => pure (.error fault)
  | .ok html =>
      match ← host.readText places.css q.options.maxBytes with
      | .error fault => pure (.error fault)
      | .ok css => pure (.ok ⟨html, css⟩)

/-!
## What is known of the result

The result grows as the job goes on, so that a fault can end it at any point.
-/

namespace FilterResult

def located (places : FilterPlaces) : FilterResult :=
  { htmlPath := places.html, cssPath := places.css, outputPath := places.output }

def measured (r : FilterResult) (css : Bytes) (facts : Facts) : FilterResult :=
  { r with
    inputBytes := css.length
    tags := facts.tags.length
    ids := facts.ids.length
    classes := facts.classes.length
    attributes := facts.attributes.length }

def finished (r : FilterResult) (output : Filter.Output) (duration : Int) : FilterResult :=
  { r with
    ok := true
    outputBytes := output.css.length
    stats := output.stats
    reduction := reductionPercent r.inputBytes output.css.length
    duration := duration }

def failed (r : FilterResult) (fault : Fault) : FilterResult :=
  { r with fault := fault.hinted }

end FilterResult

/-!
## What is told
-/

def filterInputEvents (r : FilterResult) : List Event :=
  [Filter.event .info "input" (ascii "input CSS size: " ++ kilobytes r.inputBytes),
    Filter.event .info "html"
      (ascii "tags: " ++ Decimal.ofNat r.tags ++ ascii ", ids: " ++ Decimal.ofNat r.ids ++
        ascii ", classes: " ++ Decimal.ofNat r.classes ++ ascii ", attributes: " ++
        Decimal.ofNat r.attributes)]

def filterOutputEvent (r : FilterResult) : Event :=
  Filter.event .info "output"
    (ascii "output CSS size: " ++ kilobytes r.outputBytes ++ ascii " (" ++
      percent r.reduction ++ ascii " reduction) in " ++ Decimal.ofInt r.duration ++ ascii "ms")

def filterFaultEvent (fault : Fault) : Event :=
  ⟨.error, ascii "filter", fault.kind.name, fault.line⟩

def filterFailure (r : FilterResult) (told : List Event) (fault : Fault) :
    FilterResult × List Event :=
  (r.failed fault, told ++ [filterFaultEvent fault])

/-!
## The job
-/

/-- Runs a job. The answer is its result, and the events that tell of it. -/
def filter (host : Host m) (q : FilterRequest) : m (FilterResult × List Event) := do
  let start ← host.clock
  match ← filterPlaces host q with
  | .error fault => pure (filterFailure {} [] fault)
  | .ok places =>
      let r := FilterResult.located places
      match ← filterTexts host q places with
      | .error fault => pure (filterFailure r [] fault)
      | .ok texts =>
          let facts := Facts.ofMarkup texts.html
          let r := r.measured texts.css facts
          let filtered := Filter.run q.options facts texts.css
          let told := filterInputEvents r ++ filtered.2
          match filtered.1 with
          | .error fault => pure (filterFailure r told { fault with path := places.css })
          | .ok output =>
              match ← host.writeText places.output output.css with
              | .error fault => pure (filterFailure r told fault)
              | .ok () =>
                  let stop ← host.clock
                  let r := r.finished output (stop - start)
                  pure (r, told ++ [filterOutputEvent r])

end Job
end StyleTrim
