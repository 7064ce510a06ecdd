import StyleTrim.Text.Byte

/-!
# Diagnostics

While a job runs it tells what it does as a series of events. An emitter keeps the events that are
severe enough, and writes each of them as a line to every buffer that observes it.
-/

namespace StyleTrim

inductive Severity where
  | debug
  | info
  | warning
  | error
deriving DecidableEq, Repr

namespace Severity

def rank : Severity -> Nat
  | .debug => 0
  | .info => 1
  | .warning => 2
  | .error => 3

def name : Severity -> Bytes
  | .debug => ascii "debug"
  | .info => ascii "info"
  | .warning => ascii "warning"
  | .error => ascii "error"

end Severity

structure Event where
  severity : Severity
  source : Bytes
  stage : Bytes
  message : Bytes
deriving DecidableEq, Repr

def Event.line (e : Event) : Bytes :=
  0x5B :: e.severity.name ++ 0x5D :: (if e.source.isEmpty then [] else 0x20 :: e.source) ++
    (if e.stage.isEmpty then [] else 0x2F :: e.stage) ++ ascii ": " ++ e.message

structure Emitter where
  minSeverity : Severity := .debug
  events : List Event := []
  observed : List Bytes := []

namespace Emitter

def isSevereEnough (m : Emitter) (e : Event) : Bool :=
  m.minSeverity.rank ≤ e.severity.rank

def emitAll (m : Emitter) (es : List Event) : Emitter :=
  let kept := es.filter m.isSevereEnough
  { m with
    events := m.events ++ kept
    observed := m.observed.map fun text => text ++ kept.flatMap fun e => e.line ++ [0x0A] }

def emit (m : Emitter) (e : Event) : Emitter :=
  m.emitAll [e]

def observe (m : Emitter) : Emitter :=
  { m with observed := m.observed ++ [[]] }

def clear (m : Emitter) : Emitter :=
  { m with events := [] }

def hasErrors (m : Emitter) : Bool :=
  m.events.any fun e => e.severity == .error

def eventsBySeverity (m : Emitter) (severity : Severity) : List Event :=
  m.events.filter fun e => e.severity == severity

def eventsBySource (m : Emitter) (source : Bytes) : List Event :=
  m.events.filter fun e => e.source == source

end Emitter
end StyleTrim
