import ModuleLookup.Disk.Tree
import ModuleLookup.Path.Parent

/-!
# Changes of a tree

Files and directories are made in a `Slot`: a directory that is there and a name in it.
Writing a file first makes the directories that it takes, the outermost first. A change
that stops halfway leaves the directories that it made.

* `Tree.slot` — the slot that a path names.
* `Tree.makeDirectories`, `Tree.write`, `Tree.remove` — the changes.
-/

namespace ModuleLookup

namespace Path

/-- The steps to the directory in which the last segment of a path is looked for.
Separators at the end are passed over. -/
def outerSteps (p : Path) : List Component :=
  (((segments p.text.toList).filter (· ≠ [])).map stepOf).dropLast

/-- The step for the last segment of a path, or the root when there is none. -/
def lastStep (p : Path) : Component :=
  (((segments p.text.toList).filter (· ≠ [])).map stepOf).getLastD .root

end Path

/-- A place in a directory, where something is or could be. -/
structure Slot where
  /-- the way to the directory -/
  way : Way
  /-- what the directory holds -/
  entries : List (String × Node)
  /-- the name of the place; none when it is the directory itself or the one around it -/
  name? : Option String

/-- What a change leaves behind. -/
structure Change where
  /-- the tree afterwards -/
  tree : Tree
  /-- why the change stopped, if it did -/
  fault? : Option IoFault

namespace Tree

/-- The tree with another node at the end of a way. -/
def replaceAt (t : Tree) : Way → Node → Tree
  | [], n => { t with root := n }
  | (name, _) :: way, n =>
    match t.endOf way with
    | .directory entries => t.replaceAt way (.directory (Node.setEntry name n entries))
    | .file .. | .socket => t

/-- The tree with a node in a slot. -/
def put (t : Tree) (slot : Slot) (name : String) (n : Node) : Tree :=
  t.replaceAt slot.way (.directory (Node.setEntry name n slot.entries))

/-- The place that a path names, whether or not something is there. -/
def slot (t : Tree) (p : Path) : Except IoFault Slot := do
  checkText p
  let way ← t.walk p p.outerSteps
  match t.endOf way, p.lastStep with
  | .file .., _ | .socket, _ => throw .notDirectory
  | .directory entries, .name s =>
    if nameLimit < byteLength s.toList then throw .nameTooLong
    else return ⟨way, entries, some s⟩
  | .directory entries, _ => return ⟨way, entries, none⟩

/-- The tree with a directory that was not there. -/
def makeDirectory (t : Tree) (p : Path) : Except IoFault Tree := do
  let slot ← t.slot p
  match slot.name? with
  | none => throw .alreadyThere
  | some name =>
    if (slot.entries.lookup name).isSome then throw .alreadyThere
    else return t.put slot name .empty

/-- Makes a directory, which may be there already. -/
def ensureDirectory (t : Tree) (p : Path) : Change :=
  match t.makeDirectory p with
  | .ok u => ⟨u, none⟩
  | .error fault => ⟨t, if (t.node? p).any Node.isDirectory then none else some fault⟩

/-- Makes the first of some directories, each of which is in the next. When the first
cannot be made for want of the next, that is made before it. -/
def makeNested (t : Tree) : List Path → Change
  | [] => ⟨t, none⟩
  | p :: outer =>
    if p.text = "" then ⟨t, none⟩
    else
      match t.makeDirectory p with
      | .error .notFound =>
        let around := t.makeNested outer
        if around.fault?.isSome then around else around.tree.ensureDirectory p
      | _ => t.ensureDirectory p

/-- Makes a directory with all that it takes around it. -/
def makeDirectories (t : Tree) (p : Path) : Change :=
  t.makeNested p.ancestors

/-- The tree with a file in a directory that is there, in place of any other file. -/
def writeFile (t : Tree) (p : Path) (bytes : List UInt8) : Except IoFault Tree := do
  let slot ← t.slot p
  match slot.name? with
  | none => throw .isDirectory
  | some name =>
    if p.text.back? = some '/' ∨ (slot.entries.lookup name).any Node.isDirectory then
      throw .isDirectory
    else if (slot.entries.lookup name).any Node.isSocket then throw noDevice
    else return { t.put slot name (.file bytes t.clock) with clock := t.clock + 1 }

/-- Writes a file, and makes the directories that it takes. -/
def write (t : Tree) (p : Path) (bytes : List UInt8) : Change :=
  let around := ((p.parent?).map t.makeDirectories).getD ⟨t, none⟩
  if around.fault?.isSome then around
  else
    match around.tree.writeFile p bytes with
    | .ok u => ⟨u, none⟩
    | .error fault => ⟨around.tree, some fault⟩

/-- The tree without the file or socket at a path. -/
def remove (t : Tree) (p : Path) : Except IoFault Tree := do
  match ← t.locate p with
  | [] => throw .isDirectory
  | (_, .directory _) :: _ => throw .isDirectory
  | (name, _) :: way =>
    match t.endOf way with
    | .directory entries =>
      return t.replaceAt way (.directory (entries.filter fun e => e.1 ≠ name))
    | .file .. | .socket => throw .notDirectory

end Tree

end ModuleLookup
