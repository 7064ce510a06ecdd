import StyleTrim.CommandLine.Program

/-!
# Entry point

The system that the program runs on, as a host.
-/

namespace StyleTrim
namespace LocalSystem

def textOf (s : Bytes) : String :=
  (String.fromUTF8? ⟨s.toArray⟩).getD ""

def bytesOf (s : String) : Bytes :=
  s.toUTF8.toList

def refusalOf (e : IO.Error) : Refused :=
  match e with
  | .noFileOrDirectory _ _ _ => .noEntry
  | .inappropriateType _ 20 _ => .notDirectory
  | .inappropriateType _ 21 _ => .isDirectory
  | .invalidArgument _ 36 _ => .nameTooLong
  | .invalidArgument _ 40 _ => .tooManyLinks
  | .resourceExhausted _ 28 _ => .noSpace
  | e => .other (bytesOf e.toString)

def attempt {α : Type} (action : IO α) : IO (Except Refused α) := do
  try
    let answer ← action
    pure (.ok answer)
  catch e =>
    pure (.error (refusalOf e))

def realPath (path : Bytes) : IO Bytes := do
  let place ← IO.FS.realPath (textOf path)
  pure (bytesOf place.toString)

/-- Where a path leads to. The system tells of links that lead in circles when it is asked to open
the file. -/
def locate (path : Bytes) : IO (Except Refused Bytes) := do
  match ← attempt (realPath path) with
  | .ok place => pure (.ok place)
  | .error why =>
      match ← attempt (IO.FS.Handle.mk (textOf path) .read) with
      | .ok _ => pure (.error why)
      | .error why => pure (.error why)

def size? (path : Bytes) : IO (Option Nat) := do
  try
    let place ← IO.FS.realPath (textOf path)
    let found ← place.metadata
    match found.type with
    | .file => pure (some found.byteSize.toNat)
    | _ => pure none
  catch _ =>
    pure none

def load (path : Bytes) : IO (Except Refused Bytes) := do
  let read := do
    let handle ← IO.FS.Handle.mk (textOf path) .read
    handle.readBinToEnd
  match ← attempt read with
  | .ok content => pure (.ok content.toList)
  | .error .isDirectory => pure (.ok [])
  | .error why => pure (.error why)

def store (path text : Bytes) : IO (Except Refused Unit) :=
  attempt do
    let handle ← IO.FS.Handle.mk (textOf path) .write
    handle.write ⟨text.toArray⟩
    handle.flush

def host : Host IO where
  cwd := do
    let place ← IO.currentDir
    pure (bytesOf place.toString)
  locate := locate
  size? := size?
  load := load
  store := store
  clock := do
    let now ← IO.monoMsNow
    pure now

end LocalSystem
end StyleTrim

def main (arguments : List String) : IO UInt32 := do
  let outcome ← StyleTrim.CommandLine.run StyleTrim.LocalSystem.host
    (arguments.map StyleTrim.LocalSystem.bytesOf)
  let stdout ← IO.getStdout
  stdout.write ⟨outcome.stdout.toArray⟩
  stdout.flush
  let stderr ← IO.getStderr
  stderr.write ⟨outcome.stderr.toArray⟩
  pure outcome.exitCode.toUInt32
