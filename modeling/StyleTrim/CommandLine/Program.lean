import StyleTrim.CommandLine.Arguments
import StyleTrim.Report.Report

/-!
# The program

The program reads its arguments, runs the job they ask for, and reports. The report of a job that
went well goes to the standard output. All else goes to the standard error: the events that are
severe enough, the report of a job that failed, and help for one who needs it.
-/

namespace StyleTrim
namespace CommandLine

/-- What a run of the program leaves behind, apart from files. -/
structure Outcome where
  exitCode : Nat
  stdout : Bytes := []
  stderr : Bytes := []

def unlines (lines : List String) : Bytes :=
  lines.flatMap fun line => ascii line ++ [0x0A]

def usage : Bytes :=
  unlines
    ["usage: csstrim filter --html <page.html> --css <raw.css> --output <out.css>",
      "               [--base-dir <dir>] [--max-input-bytes <n>] [--verbose]",
      "       csstrim merge <output.css> <input1.css> [input2.css ...]",
      "               [--no-combine-media] [--keep-duplicate-font-faces]",
      "               [--keep-duplicate-keyframes] [--remove-empty-rules]",
      "               [--base-dir <dir>] [--verbose]",
      "       csstrim --help | --version"]

def version : Bytes :=
  unlines ["csstrim 0.1.0"]

def misused (e : UsageError) : Outcome :=
  { exitCode := 1
    stderr := (e.message?.map fun message => message ++ [0x0A]).getD [] ++ usage }

def console (verbose : Bool) (events : List Event) : Bytes :=
  let emitter : Emitter := { minSeverity := if verbose then .info else .warning }
  (emitter.observe.emitAll events).observed.flatten

/-- The end of a run whose job told of events: the report when all went well, and otherwise the
fault that stopped the job. -/
def concluded (verbose : Bool) (events : List Event) (ok : Bool) (report : Report.Writer)
    (fault : Fault) : Outcome :=
  if ok then
    { exitCode := 0
      stdout := report.render ++ [0x0A]
      stderr := console verbose events }
  else
    { exitCode := 1
      stderr := console verbose events ++ (Report.ofFault fault).render ++ [0x0A] }

variable {m : Type -> Type} [Monad m]

def execute (host : Host m) : Command -> m Outcome
  | .help => pure { exitCode := 0, stdout := usage }
  | .version => pure { exitCode := 0, stdout := version }
  | .filter order => do
      let (r, events) ← Job.filter host order.request
      pure (concluded order.verbose events r.ok (Report.ofFilter r) r.fault)
  | .merge order => do
      let (r, events) ← Job.merge host order.request
      pure (concluded order.verbose events r.ok (Report.ofMerge r) r.fault)

def run (host : Host m) (arguments : List Bytes) : m Outcome :=
  match parse arguments with
  | .error e => pure (misused e)
  | .ok command => execute host command

end CommandLine
end StyleTrim
