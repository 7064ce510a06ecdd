import StyleTrim.Disk.Host

/-!
# A disk

A disk maps locations to what lies there: directories, files, symbolic links and two devices. It
is a host of its own: paths are walked name by name, links are followed on the way, and a write
goes to the location where the walk ends.
-/

namespace StyleTrim

/-- The names that lead from the root to a place, last one first. -/
abbrev Location := List Bytes

inductive Entry where
  | directory
  | file (content : Bytes)
  | link (target : Bytes)
  | fullDevice
  | nullDevice
deriving DecidableEq, Repr

/-- The path of a location. -/
def Location.path (location : Location) : Bytes :=
  Path.slash :: Path.joinNames location.reverse

/-- Everything but the root, which is always a directory, and the working directory. -/
structure Disk where
  entries : List (Location × Entry)
  cwd : Location

namespace Disk

def find? (d : Disk) (location : Location) : Option Entry :=
  if location.isEmpty then some .directory else d.entries.lookup location

def put (d : Disk) (location : Location) (entry : Entry) : Disk :=
  { d with entries := (location, entry) :: d.entries.filter fun e => e.1 != location }

def isDirectory (d : Disk) (location : Location) : Bool :=
  d.find? location == some .directory

/-!
## Limits
-/

def maxLinks : Nat := 40

def maxNameLength : Nat := 255

def maxPathLength : Nat := 4095

/-!
## Walking
-/

/-- Walks along names from a place that exists. The answer is the place reached and what lies
there; in order to create a file, the last name need not exist. A name that has to be created
cannot end in a slash. -/
def walk (d : Disk) (create : Bool) (links : Nat) (here : Location) (names : List Bytes) :
    Except Refused (Location × Option Entry) :=
  match names with
  | [] => .ok (here, d.find? here)
  | name :: rest =>
      if !d.isDirectory here then .error .notDirectory
      else if name = [] ∨ name = Path.dot then walk d create links here rest
      else if name = Path.dotDot then walk d create links here.tail rest
      else if create && !rest.isEmpty && rest.all List.isEmpty then .error .isDirectory
      else if maxNameLength < name.length then .error .nameTooLong
      else
        match d.find? (name :: here) with
        | none =>
            if create && rest.isEmpty then .ok (name :: here, none) else .error .noEntry
        | some (.link target) =>
            match links with
            | 0 => .error .tooManyLinks
            | links + 1 =>
                let start := if Path.isAbsolute target then [] else here
                walk d create links start (Path.segments target ++ rest)
        | some _ => walk d create links (name :: here) rest
termination_by (links, names.length)

/-- Walks along a path. The system reads a path up to its first zero byte. -/
def follow (d : Disk) (create : Bool) (path : Bytes) :
    Except Refused (Location × Option Entry) :=
  let path := path.takeWhile (· != 0)
  if path.isEmpty then .error .noEntry
  else if maxPathLength < path.length then .error .nameTooLong
  else
    d.walk create maxLinks (if Path.isAbsolute path then [] else d.cwd) (Path.segments path)

/-!
## The operations of a host
-/

def locate (d : Disk) (path : Bytes) : Except Refused Bytes :=
  match d.follow false path with
  | .ok (location, _) => .ok location.path
  | .error why => .error why

def size? (d : Disk) (path : Bytes) : Option Nat :=
  match d.follow false path with
  | .ok (_, some (.file content)) => some content.length
  | _ => none

def load (d : Disk) (path : Bytes) : Except Refused Bytes :=
  match d.follow false path with
  | .ok (_, some (.file content)) => .ok content
  | .ok _ => .ok []
  | .error why => .error why

def store (d : Disk) (path text : Bytes) : Except Refused Unit × Disk :=
  match d.follow true path with
  | .error why => (.error why, d)
  | .ok (location, entry) =>
      match entry with
      | some .directory => (.error .isDirectory, d)
      | some .fullDevice => (if text.isEmpty then .ok () else .error .noSpace, d)
      | some .nullDevice => (.ok (), d)
      | _ => (.ok (), d.put location (.file text))

/-- A disk as a host. Its clock stands still. -/
def host : Host (StateM Disk) where
  cwd := do pure (Location.path (← get).cwd)
  locate path := do pure ((← get).locate path)
  size? path := do pure ((← get).size? path)
  load path := do pure ((← get).load path)
  store path text := do
    let (answer, d) := (← get).store path text
    set d
    pure answer
  clock := pure 0

/-!
## Setting up a disk
-/

def makeDirectory (d : Disk) : Location -> Disk
  | [] => d
  | name :: above =>
      let d := d.makeDirectory above
      if (d.find? (name :: above)).isSome then d else d.put (name :: above) .directory

def place (d : Disk) (location : Location) (entry : Entry) : Disk :=
  (d.makeDirectory location.tail).put location entry

def locationOf (d : Disk) (path : Bytes) : Location :=
  ((Path.segments (Path.absolute d.cwd.path path)).foldl Path.Normal.step {}).names

def files (d : Disk) : List (Location × Bytes) :=
  d.entries.filterMap fun e =>
    match e.2 with
    | .file content => some (e.1, content)
    | _ => none

end Disk
end StyleTrim
