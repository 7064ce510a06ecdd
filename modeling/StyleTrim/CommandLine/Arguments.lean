import StyleTrim.Job.Filter
import StyleTrim.Job.Merge

/-!
# Arguments

The first argument names a command, the others say what it is to do. Options may stand in any
order; of an option that is given twice the last value counts. Arguments are read from the first
to the last, and reading stops at the first one that is wrong.
-/

namespace StyleTrim
namespace CommandLine

/-- What a job is asked for on the command line. -/
structure Order (request : Type) where
  request : request
  verbose : Bool := false

inductive Command where
  | help
  | version
  | filter (order : Order Job.FilterRequest)
  | merge (order : Order Job.MergeRequest)

/-- Why arguments are not understood. -/
inductive UsageError where
  | noCommand
  | unknownCommand (argument : Bytes)
  | unknownArgument (argument : Bytes)
  | missingValue (argument : Bytes)
  | invalidByteCount (value : Bytes)
  | filterIncomplete
  | mergeIncomplete
deriving DecidableEq, Repr

def UsageError.message? : UsageError -> Option Bytes
  | .noCommand => none
  | .unknownCommand argument => some (ascii "Unknown command: " ++ argument)
  | .unknownArgument argument => some (ascii "Unknown argument: " ++ argument)
  | .missingValue argument => some (ascii "Missing value for " ++ argument)
  | .invalidByteCount value => some (ascii "Invalid --max-input-bytes: " ++ value)
  | .filterIncomplete => some (ascii "filter requires --html, --css and --output")
  | .mergeIncomplete =>
      some (ascii "merge requires an output path and at least one input")

def isVerbose (argument : Bytes) : Bool :=
  argument == ascii "--verbose" || argument == ascii "-v"

def byteCount? (value : Bytes) : Option Nat :=
  (Decimal.toNat? value).filter fun n => 0 < n && n < 0x10000000000000000

/-!
## The filter command

Apart from the flag that asks for more words, every argument is an option with a value.
-/

inductive FilterOption where
  | html
  | css
  | output
  | baseDirectory
  | maxBytes
deriving DecidableEq, Repr

namespace FilterOption

def name : FilterOption -> Bytes
  | .html => ascii "--html"
  | .css => ascii "--css"
  | .output => ascii "--output"
  | .baseDirectory => ascii "--base-dir"
  | .maxBytes => ascii "--max-input-bytes"

def all : List FilterOption :=
  [.html, .css, .output, .baseDirectory, .maxBytes]

def ofName? (argument : Bytes) : Option FilterOption :=
  all.find? fun o => o.name == argument

def fill (q : Job.FilterRequest) (value : Bytes) :
    FilterOption -> Except UsageError Job.FilterRequest
  | .html => .ok { q with htmlPath := value }
  | .css => .ok { q with cssPath := value }
  | .output => .ok { q with outputPath := value }
  | .baseDirectory => .ok { q with baseDirectory := value }
  | .maxBytes =>
      match byteCount? value with
      | some n => .ok { q with options := { maxBytes := n } }
      | none => .error (.invalidByteCount value)

end FilterOption

def readFilterArguments (order : Order Job.FilterRequest) :
    List Bytes -> Except UsageError (Order Job.FilterRequest)
  | [] => .ok order
  | argument :: arguments =>
      if isVerbose argument then readFilterArguments { order with verbose := true } arguments
      else
        match FilterOption.ofName? argument with
        | none => .error (.unknownArgument argument)
        | some o =>
            match arguments with
            | [] => .error (.missingValue argument)
            | value :: arguments =>
                match o.fill order.request value with
                | .error e => .error e
                | .ok q => readFilterArguments { order with request := q } arguments

def isComplete (q : Job.FilterRequest) : Bool :=
  !(q.htmlPath.isEmpty || q.cssPath.isEmpty || q.outputPath.isEmpty)

def filterOrder (arguments : List Bytes) : Except UsageError (Order Job.FilterRequest) :=
  match readFilterArguments { request := {} } arguments with
  | .error e => .error e
  | .ok order => if isComplete order.request then .ok order else .error .filterIncomplete

/-!
## The merge command

An argument that is longer than a single hyphen and begins with one is an option. All others are
paths: the output first, then the inputs in their order.
-/

inductive MergeFlag where
  | noCombineMedia
  | keepFontFaces
  | keepKeyframes
  | removeEmpty
deriving DecidableEq, Repr

namespace MergeFlag

def name : MergeFlag -> Bytes
  | .noCombineMedia => ascii "--no-combine-media"
  | .keepFontFaces => ascii "--keep-duplicate-font-faces"
  | .keepKeyframes => ascii "--keep-duplicate-keyframes"
  | .removeEmpty => ascii "--remove-empty-rules"

def all : List MergeFlag :=
  [.noCombineMedia, .keepFontFaces, .keepKeyframes, .removeEmpty]

def ofName? (argument : Bytes) : Option MergeFlag :=
  all.find? fun f => f.name == argument

def apply (o : Merge.Options) : MergeFlag -> Merge.Options
  | .noCombineMedia => { o with combineMedia := false }
  | .keepFontFaces => { o with dedupFontFaces := false }
  | .keepKeyframes => { o with dedupKeyframes := false }
  | .removeEmpty => { o with removeEmpty := true }

end MergeFlag

def looksLikeOption (argument : Bytes) : Bool :=
  1 < argument.length && argument.head? == some 0x2D

/-- The arguments of a merge command as far as they were read. -/
structure MergeArguments where
  options : Merge.Options := {}
  baseDirectory : Bytes := []
  verbose : Bool := false
  paths : List Bytes := []

def readMergeArguments (a : MergeArguments) :
    List Bytes -> Except UsageError MergeArguments
  | [] => .ok a
  | argument :: arguments =>
      if isVerbose argument then readMergeArguments { a with verbose := true } arguments
      else
        match MergeFlag.ofName? argument with
        | some flag => readMergeArguments { a with options := flag.apply a.options } arguments
        | none =>
            if argument = ascii "--base-dir" then
              match arguments with
              | [] => .error (.missingValue argument)
              | value :: arguments =>
                  readMergeArguments { a with baseDirectory := value } arguments
            else if looksLikeOption argument then .error (.unknownArgument argument)
            else readMergeArguments { a with paths := a.paths ++ [argument] } arguments

def mergeOrder (arguments : List Bytes) : Except UsageError (Order Job.MergeRequest) :=
  match readMergeArguments {} arguments with
  | .error e => .error e
  | .ok a =>
      match a.paths with
      | output :: input :: inputs =>
          .ok
            { request :=
                { inputPaths := input :: inputs
                  outputPath := output
                  baseDirectory := a.baseDirectory
                  options := a.options }
              verbose := a.verbose }
      | _ => .error .mergeIncomplete

/-!
## The whole line
-/

/-- Reads the arguments. What follows a request for help or for the version does not matter. -/
def parse : List Bytes -> Except UsageError Command
  | [] => .error .noCommand
  | command :: arguments =>
      if command = ascii "-h" ∨ command = ascii "--help" then .ok .help
      else if command = ascii "-V" ∨ command = ascii "--version" then .ok .version
      else if command = ascii "filter" then (filterOrder arguments).map .filter
      else if command = ascii "merge" then (mergeOrder arguments).map .merge
      else .error (.unknownCommand command)

end CommandLine
end StyleTrim
