import Chiptune.Disk.Path

/-! A disk: folders and files, and the folder in which a program works. -/

namespace Chiptune

/-- A place on a disk: the names that lead to it from the root, the last one first. -/
abbrev Place := List String

/-- What there is at a place. -/
inductive Node (α : Type) where
  | folder
  | file (contents : α)

/-- The places at which there is something, and the working folder. -/
structure Disk (α : Type) where
  nodes : List (Place × Node α) := []
  home : Place := []

namespace Disk

variable {α : Type}

/-- What there is at a place.  The root is always there. -/
def at? (disk : Disk α) : Place → Option (Node α)
  | [] => some .folder
  | name :: place => disk.nodes.lookup (name :: place)

/-- Puts something at a place, instead of what was there. -/
def put (disk : Disk α) (place : Place) (node : Node α) : Disk α :=
  { disk with nodes := (place, node) :: disk.nodes }

theorem at?_put_same (disk : Disk α) (name : String) (place : Place) (node : Node α) :
    (disk.put (name :: place) node).at? (name :: place) = some node := by
  simp [at?, put]

theorem at?_put_ne (disk : Disk α) {place place' : Place} (node : Node α) (h : place' ≠ place) :
    (disk.put place node).at? place' = disk.at? place' := by
  cases place' with
  | nil => rfl
  | cons name place' => simp only [at?, put, List.lookup_cons, beq_false_of_ne h]

/-- Puts a folder at a place and at every place on the way to it. -/
def putFolders (disk : Disk α) : Place → Disk α
  | [] => disk
  | name :: place => (disk.putFolders place).put (name :: place) .folder

/-- Goes from a folder to the one that a name in it leads to.  A point is the folder itself, and two
points are the folder that holds it; the root holds itself. -/
def enter (disk : Disk α) (place : Place) (name : String) : Except DiskError Place :=
  if name = "." then .ok place
  else if name = ".." then .ok place.tail
  else if Path.isLongName name then .error .nameTooLong
  else
    match disk.at? (name :: place) with
    | some .folder => .ok (name :: place)
    | some (.file _) => .error .notFolder
    | none => .error .notFound

/-- The folder in which the last name of a path is looked up. -/
def folderOf (disk : Disk α) (path : Path) : Except DiskError Place :=
  path.way.foldlM disk.enter (if path.absolute then [] else disk.home)

/-- The contents of the file to which a path leads.  A slash at the end asks for a folder. -/
def read (disk : Disk α) (text : String) : Except DiskError α := do
  let path ← Path.ofText text
  let place ← disk.folderOf path
  if path.endsInDots then .error .isFolder
  else if Path.isLongName path.last then .error .nameTooLong
  else
    match disk.at? (path.last :: place) with
    | none => .error .notFound
    | some .folder => .error .isFolder
    | some (.file contents) => if path.slash then .error .notFolder else .ok contents

/-- Writes the file to which a path leads, over an earlier one if there is one.  A path that ends
like that of a folder is refused whether there is such a folder or not. -/
def write (disk : Disk α) (text : String) (contents : α) : Except DiskError (Disk α) := do
  let path ← Path.ofText text
  let place ← disk.folderOf path
  if path.endsInDots || path.slash then .error .isFolder
  else if Path.isLongName path.last then .error .nameTooLong
  else
    match disk.at? (path.last :: place) with
    | some .folder => .error .isFolder
    | _ => .ok (disk.put (path.last :: place) (.file contents))

end Disk

end Chiptune
