import ModuleLookup.Disk.Query
import ModuleLookup.Text.Utf8

/-!
# Files and directories

A `Node` is a file, a directory with all that it holds, or a socket, which is neither.
`Node.at?` is what stands at a place, given by the names that lead to it.
-/

namespace ModuleLookup

/-- The longest name, in bytes. -/
def nameLimit : Nat := 255

/-- The longest path, in bytes. -/
def pathLimit : Nat := 4095

/-- What comes of opening a socket. -/
def noDevice : IoFault := .other "No such device or address (os error 6)"

/-- Something that stands at a place. -/
inductive Node where
  /-- a file with its bytes, and when they were written -/
  | file (bytes : List UInt8) (written : Nat)
  /-- a directory with what it holds, by name -/
  | directory (entries : List (String × Node))
  /-- a socket, which cannot be opened as a file -/
  | socket
  deriving Inhabited

namespace Node

/-- The directory that holds nothing. -/
def empty : Node := directory []

/-- What a directory holds under a name. -/
def child? : Node → String → Option Node
  | file .., _ | socket, _ => none
  | directory entries, name => entries.lookup name

/-- What stands below a node, reached by names. -/
def at? (n : Node) : List String → Option Node
  | [] => some n
  | name :: names => (n.child? name).bind (·.at? names)

/-- One more name leads to what the place before holds under it. -/
theorem at?_concat (n : Node) (names : List String) (name : String) :
    n.at? (names ++ [name]) = (n.at? names).bind (·.child? name) := by
  induction names generalizing n with
  | nil => simp [at?]
  | cons other names ih => simp [at?, ih, Option.bind_assoc]

/-- Whether this is a directory. -/
def isDirectory : Node → Bool
  | directory _ => true
  | file .. | socket => false

/-- Whether this is a file. -/
def isFile : Node → Bool
  | file .. => true
  | directory _ | socket => false

/-- Whether this is a socket. -/
def isSocket : Node → Bool
  | socket => true
  | file .. | directory _ => false

/-- The entries of a directory with one more, in place of any other of its name. -/
def setEntry (name : String) (n : Node) : List (String × Node) → List (String × Node)
  | [] => [(name, n)]
  | (other, m) :: entries =>
    if other = name then (name, n) :: entries else (other, m) :: setEntry name n entries

mutual

/-- What can be seen of a node at a path without reading files. A directory whose path
is too long cannot be listed. -/
def outline (p : Path) : Node → Outline
  | file .. => .file
  | directory entries =>
    if pathLimit < byteLength p.text.toList then .closed .nameTooLong
    else .directory (outlines p entries)
  | socket => .other

/-- What can be seen of the entries of a directory without reading files. -/
def outlines (dir : Path) : List (String × Node) → List (String × Outline)
  | [] => []
  | (name, n) :: entries => (name, n.outline (dir.join ⟨name⟩)) :: outlines dir entries

end

/-- The size and age of a node. A directory takes one block and a socket nothing, and their age is
not kept. -/
def metadata : Node → Metadata
  | file bytes written => ⟨bytes.length, some written⟩
  | directory _ => ⟨4096, none⟩
  | socket => ⟨0, none⟩

/-- The bytes of a file. -/
def read : Node → Except IoFault (List UInt8)
  | file bytes _ => .ok bytes
  | directory _ => .error .isDirectory
  | socket => .error noDevice

end Node

end ModuleLookup
