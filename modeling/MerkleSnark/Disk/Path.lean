/-!
# Paths

A path is where it starts and the names to follow from there.  Its text joins the names by slashes.
In a text, slashes may be repeated, a slash may stand at the end, and the name `.` says nothing; the
name `..` is kept, because what it leads to depends on the disk.  Exactly two slashes at the front
are a starting point of their own.

## Main definitions

* `Path`, `PathStart` — a path.
* `Path.parse`, `Path.text` — from and to text.
* `Path.checked?`, `PathError` — the paths that a system takes.
* `Path.join`, `Path.parent`, `Path.name`, `Path.withName` — the parts of a path.
-/

namespace MerkleSnark

/-- Where a path starts. -/
inductive PathStart
  /-- At the current directory. -/
  | here
  /-- At the root. -/
  | root
  /-- At the root, written with two slashes. -/
  | doubleRoot
  deriving DecidableEq, Repr

/-- The text of a start. -/
def PathStart.text : PathStart → String
  | .here => ""
  | .root => "/"
  | .doubleRoot => "//"

/-- Why no system takes a path. -/
inductive PathError
  /-- It holds the character NUL, which ends a text for the system. -/
  | nulCharacter
  deriving DecidableEq, Repr

/-- The wording of what is wrong with a path. -/
def PathError.message : PathError → String
  | .nulCharacter => "embedded null byte"

/-- Whether a text holds the character NUL. -/
def hasNul (text : String) : Bool := text.toList.any (· == Char.ofNat 0)

/-- A path. -/
structure Path where
  /-- Where it starts. -/
  start : PathStart := .here
  /-- The names to follow from there. -/
  names : List String := []
  deriving DecidableEq, Repr, Inhabited

namespace Path

/-- The pieces of a text between its slashes. -/
def splitSlashes : List Char → List (List Char)
  | [] => [[]]
  | c :: rest =>
    match splitSlashes rest with
    | [] => [[]]
    | piece :: pieces => if c = '/' then [] :: piece :: pieces else (c :: piece) :: pieces

/-- The start that the slashes at the front of a text stand for. -/
def startOf : List Char → PathStart
  | '/' :: '/' :: '/' :: _ => .root
  | '/' :: '/' :: _ => .doubleRoot
  | '/' :: _ => .root
  | _ => .here

/-- The path of a text. -/
def parse (text : String) : Path :=
  let pieces := (splitSlashes text.toList).filter fun piece => piece ≠ [] ∧ piece ≠ ['.']
  ⟨startOf text.toList, pieces.map String.ofList⟩

/-- The text of a path; the current directory is a dot. -/
def text (p : Path) : String :=
  if p.start = .here ∧ p.names = [] then "." else p.start.text ++ "/".intercalate p.names

/-- The second path as seen from the first one. -/
def join (p q : Path) : Path :=
  if q.start = .here then ⟨p.start, p.names ++ q.names⟩ else q

/-- One name further. -/
def child (p : Path) (name : String) : Path := ⟨p.start, p.names ++ [name]⟩

/-- All but the last name. -/
def parent (p : Path) : Path := ⟨p.start, p.names.dropLast⟩

/-- The last name; a start alone has the empty one. -/
def name (p : Path) : String := p.names.getLast?.getD ""

/-- Another last name. -/
def withName (p : Path) (name : String) : Path := p.parent.child name

/-- The path itself, if a system takes it. -/
def checked? (p : Path) : Except PathError Path :=
  if p.names.any hasNul then .error .nulCharacter else .ok p

@[simp] theorem parent_child (p : Path) (name : String) : (p.child name).parent = p := by
  simp [parent, child]

@[simp] theorem name_child (p : Path) (name : String) : (p.child name).name = name := by
  simp [Path.name, child]

end Path

end MerkleSnark
