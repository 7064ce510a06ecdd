import StyleTrim.Disk.Path
import StyleTrim.Fault
import StyleTrim.Quantity

/-!
# Files

Jobs reach files through a host: a handful of operations of the system they run on. All that a
job does with files is put together here from those operations, so it is the same whatever the
host is.
-/

namespace StyleTrim

/-- Why the system refuses an operation on a file. -/
inductive Refused where
  | noEntry
  | isDirectory
  | notDirectory
  | tooManyLinks
  | nameTooLong
  | noSpace
  | other (text : Bytes)
deriving DecidableEq, Repr

def Refused.message : Refused -> Bytes
  | .noEntry => ascii "No such file or directory"
  | .isDirectory => ascii "Is a directory"
  | .notDirectory => ascii "Not a directory"
  | .tooManyLinks => ascii "Too many levels of symbolic links"
  | .nameTooLong => ascii "File name too long"
  | .noSpace => ascii "No space left on device"
  | .other text => text

def Refused.isAbsence : Refused -> Bool
  | .noEntry => true
  | .notDirectory => true
  | _ => false

/-- The operations of a system. -/
structure Host (m : Type -> Type) where
  cwd : m Bytes
  /-- The path, free of links, of what the given path leads to. -/
  locate : Bytes -> m (Except Refused Bytes)
  size? : Bytes -> m (Option Nat)
  load : Bytes -> m (Except Refused Bytes)
  store : Bytes -> Bytes -> m (Except Refused Unit)
  /-- Milliseconds on a clock that never goes back. -/
  clock : m Int

namespace Host

variable {m : Type -> Type} [Monad m]

/-!
## Paths
-/

def normalize (host : Host m) (path : Bytes) : m Bytes := do
  let cwd ← host.cwd
  pure (Path.normalize cwd path)

/-- Follows the elements of a path as long as they lead to something. The answer is the place
reached, free of links, and the elements that are left. -/
def followPrefix (host : Host m) (known real : Bytes) : List Bytes -> m (Bytes × List Bytes)
  | [] => pure (real, [])
  | element :: elements => do
      match ← host.locate (Path.join known element) with
      | .ok next => host.followPrefix (Path.join known element) next elements
      | .error _ => pure (real, element :: elements)

/-- A path in normal form, with the links in its existing part resolved. It stays as it is when
the system cannot tell what is there, as when links lead in circles. -/
def resolveLinks (host : Host m) (path : Bytes) : m Bytes := do
  match ← host.locate path with
  | .ok real => pure real
  | .error why =>
      if why.isAbsence then
        let (real, rest) ← host.followPrefix [] [] (Path.elements path)
        pure (Path.normalForm (rest.foldl Path.join real))
      else pure path

def outside (path base : Bytes) : Fault :=
  { kind := .pathTraversal
    message :=
      ascii "Path \"" ++ path ++ ascii "\" is outside allowed directory \"" ++ base ++
        ascii "\""
    path := path }

def validate (host : Host m) (path base : Bytes) : m (Except Fault Bytes) := do
  let realBase ← host.resolveLinks (← host.normalize base)
  let real ← host.resolveLinks (← host.normalize path)
  if Path.isWithin (Path.elements real) (Path.elements realBase) then pure (.ok real)
  else pure (.error (outside path base))

/-- The path that a job uses. Without a base directory any path will do. -/
def resolve (host : Host m) (base path : Bytes) : m (Except Fault Bytes) := do
  if base.isEmpty then
    let normal ← host.normalize path
    pure (.ok normal)
  else host.validate path base

/-!
## Contents
-/

def oversized (path : Bytes) (size limit : Nat) : Fault :=
  { kind := .inputTooLarge
    message :=
      ascii "File \"" ++ path ++ ascii "\" (" ++ megabytes size ++ ascii ") exceeds " ++
        megabytes limit ++ ascii " limit"
    path := path }

def unreadable (path : Bytes) (why : Refused) : Fault :=
  { kind := .fileError
    message := ascii "Failed to read file \"" ++ path ++ ascii "\": " ++ why.message
    path := path }

def unwritable (path : Bytes) (why : Refused) : Fault :=
  { kind := .fileError
    message := ascii "Failed to write output \"" ++ path ++ ascii "\": " ++ why.message
    path := path }

/-- The content of a file. A regular file larger than the limit is not read; a limit of zero is
none. -/
def readText (host : Host m) (path : Bytes) (limit : Nat) : m (Except Fault Bytes) := do
  let size := (← if limit = 0 then pure none else host.size? path).getD 0
  if limit < size then pure (.error (oversized path size limit))
  else
    match ← host.load path with
    | .ok text => pure (.ok text)
    | .error why => pure (.error (unreadable path why))

def writeText (host : Host m) (path text : Bytes) : m (Except Fault Unit) := do
  match ← host.store path text with
  | .ok () => pure (.ok ())
  | .error why => pure (.error (unwritable path why))

end Host
end StyleTrim
