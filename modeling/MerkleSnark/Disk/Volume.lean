import MerkleSnark.Disk.Operation

/-!
# Volumes in memory

A volume is a list of entries by their location.  It answers the operations of a disk as a file
system without links and permissions does.

## Main definitions

* `Location`, `Entry`, `Volume` — the state.
* `Volume.locate` — follows a path.
* `instance : Disk (StateM Volume)` — the operations.
* `Volume.contents` — the listing of the current directory and all directories below.
-/

namespace MerkleSnark

/-- A place on a volume: the names that lead to it, the last one first. -/
abbrev Location := List String

/-- What is stored at a place. -/
inductive Entry
  /-- A file with its bytes. -/
  | file (data : Bytes)
  /-- A directory. -/
  | directory
  deriving DecidableEq, Repr

/-- The kind of an entry. -/
def Entry.kind : Entry → EntryKind
  | .file _ => .file
  | .directory => .directory

/-- The text of an entry in a listing, from the names that lead to it.  The text of a directory ends
in a slash. -/
def Entry.text (names : List String) : Entry → String
  | .file _ => "/".intercalate names
  | .directory => "/".intercalate names ++ "/"

/-- A file system in memory. -/
structure Volume where
  /-- The entries other than the root. -/
  entries : List (Location × Entry) := []
  /-- The current directory. -/
  here : Location := []
  deriving DecidableEq, Repr, Inhabited

namespace Volume

/-- The longest name, in bytes. -/
def maxNameBytes : Nat := 255

/-- The longest text of a path, in bytes. -/
def maxPathBytes : Nat := 4095

/-- The entry at a place; the root is a directory. -/
def entry? (v : Volume) (loc : Location) : Option Entry :=
  if loc = [] then some .directory else v.entries.lookup loc

/-- The volume with nothing at a place. -/
def erase (v : Volume) (loc : Location) : Volume :=
  { v with entries := v.entries.filter fun e => e.1 ≠ loc }

/-- The volume with an entry at a place. -/
def put (v : Volume) (loc : Location) (e : Entry) : Volume :=
  { v with entries := (loc, e) :: (v.erase loc).entries }

/-- Follows names from a place.  Every name but the last leads to a directory; the last one need not
lead to anything. -/
def walk (v : Volume) : Location → List String → Except OsError Location
  | loc, [] => .ok loc
  | loc, name :: rest =>
    match v.entry? loc with
    | none => .error .noEntry
    | some (.file _) => .error .notDirectory
    | some .directory =>
      if name = ".." then walk v loc.tail rest
      else if name.utf8ByteSize > maxNameBytes then .error .nameTooLong
      else walk v (name :: loc) rest

/-- The place a path leads to. -/
def locate (v : Volume) (p : Path) : Except OsError Location :=
  if p.text.utf8ByteSize > maxPathBytes then .error .nameTooLong
  else v.walk (if p.start = .here then v.here else []) p.names

/-- The entry a path leads to, with its place. -/
def find (v : Volume) (p : Path) : Except OsError (Location × Entry) := do
  let loc ← v.locate p
  match v.entry? loc with
  | some e => return (loc, e)
  | none => throw .noEntry

/-- The bytes of a file. -/
def read (v : Volume) (p : Path) : Except OsError Bytes := do
  match ← v.find p with
  | (_, .file data) => return data
  | (_, .directory) => throw .isDirectory

/-- Writes a file. -/
def write (v : Volume) (p : Path) (data : Bytes) : Except OsError Volume := do
  let loc ← v.locate p
  if v.entry? loc = some .directory then throw .isDirectory
  return v.put loc (.file data)

/-- Makes a directory. -/
def makeDirectory (v : Volume) (p : Path) : Except OsError Volume := do
  let loc ← v.locate p
  if (v.entry? loc).isSome then throw .entryExists
  return v.put loc .directory

/-- The middle of the `k`-th temporary name: eight digits. -/
def temporaryMark (k : Nat) : String :=
  let digits := Nat.toDigits 10 k
  String.ofList (List.replicate (8 - digits.length) '0' ++ digits)

/-- A name that is new in a directory.  One of the first names is, as there are more of them than
entries. -/
def freshName (v : Volume) (directory : Location) (beginning ending : String) : String :=
  let name (k : Nat) := beginning ++ temporaryMark k ++ ending
  let free (k : Nat) : Bool := (v.entry? (name k :: directory)).isNone
  name (((List.range (v.entries.length + 1)).find? free).getD 0)

/-- Makes an empty file with a new name in a directory. -/
def makeTemporary (v : Volume) (directory : Path) (beginning ending : String) :
    Except OsError (Path × Volume) := do
  let name := v.freshName (← v.locate directory) beginning ending
  let p := directory.child name
  return (p, ← v.write p [])

/-- Whether a path ends in a name of its own. -/
def endsInName (p : Path) : Bool := p.names ≠ [] && p.name ≠ ".."

/-- Whether a directory has no entries. -/
def isEmptyAt (v : Volume) (loc : Location) : Bool := v.entries.all fun e => e.1.tail ≠ loc

/-- The place of something inside or at `old` after the move of `old` to `new`. -/
def moved (old new loc : Location) : Location :=
  if old.isSuffixOf loc then loc.take (loc.length - old.length) ++ new else loc

/-- Moves what is at one place to another one, with all that is inside. -/
def move (v : Volume) (old new : Location) : Volume :=
  { v with entries := (v.erase new).entries.map fun e => (moved old new e.1, e.2) }

/-- Moves an entry.  A file takes the place of a file, and a directory that of an empty
directory. -/
def rename (v : Volume) (p q : Path) : Except OsError Volume := do
  let old ← v.locate p
  let new ← v.locate q
  unless endsInName p && endsInName q do throw .busy
  match v.entry? old, v.entry? new with
  | none, _ => throw .noEntry
  | some source, target =>
    if old = new then return v
    if old.isSuffixOf new then throw .invalid
    if new.isSuffixOf old then throw .notEmpty
    match source, target with
    | .directory, some (.file _) => throw .notDirectory
    | .file _, some .directory => throw .isDirectory
    | .directory, some .directory => unless v.isEmptyAt new do throw .notEmpty
    | _, _ => pure ()
    return v.move old new

/-- Removes a file. -/
def unlink (v : Volume) (p : Path) : Except OsError Volume := do
  match ← v.find p with
  | (loc, .file _) => return v.erase loc
  | (_, .directory) => throw .isDirectory

/-- An operation that only looks. -/
def look {α : Type} (f : Volume → Except OsError α) : ExceptT OsError (StateM Volume) α :=
  ExceptT.mk fun v => (f v, v)

/-- An operation that changes the volume when it succeeds. -/
def change {α : Type} (f : Volume → Except OsError (α × Volume)) :
    ExceptT OsError (StateM Volume) α :=
  ExceptT.mk fun v =>
    match f v with
    | .ok (a, v') => (.ok a, v')
    | .error e => (.error e, v)

instance : Disk (StateM Volume) where
  kind p := look fun v => return (← v.find p).2.kind
  read p := look fun v => v.read p
  write p data := change fun v => return ((), ← v.write p data)
  makeDirectory p := change fun v => return ((), ← v.makeDirectory p)
  makeTemporary p beginning ending := change fun v => v.makeTemporary p beginning ending
  rename p q := change fun v => return ((), ← v.rename p q)
  unlink p := change fun v => return ((), ← v.unlink p)

/-- The names from the current directory to a place below it. -/
def namesBelow (v : Volume) (loc : Location) : Option (List String) :=
  if v.here.isSuffixOf loc && v.here ≠ loc then
    some (loc.take (loc.length - v.here.length)).reverse
  else none

/-- The entries below the current directory with their texts, in the order of the texts. -/
def contents (v : Volume) : List (String × Entry) :=
  let below := v.entries.filterMap fun e => (v.namesBelow e.1).map fun names =>
    (Entry.text names e.2, e.2)
  below.mergeSort fun a b => !decide (b.1 < a.1)

end Volume

end MerkleSnark
