import ModuleLookup.Disk.Query
import ModuleLookup.Table
import ModuleLookup.Text.Utf8

/-!
# Disks in memory

A `Memory` is a table of files without directories. Files are told apart by the
components of their paths, so every spelling of a path leads to the same file.

* `Memory.file?` — the file at a path; `file?_write_self` and its companions say what
  it is after a change.
* `Memory.disk` — the answers of a memory, which come only from `Memory.file?`.
-/

namespace ModuleLookup

/-- A file in memory. -/
structure MemoryFile where
  /-- its text -/
  text : String
  /-- when it was last changed, if that is known -/
  modified : Option Nat
  /-- why it cannot be read, if it cannot -/
  fault : Option String
  /-- whether its size and age can be asked for -/
  hasMetadata : Bool

/-- The size and age of a file. -/
def MemoryFile.metadata? (f : MemoryFile) : Option Metadata :=
  if f.hasMetadata then some ⟨byteLength f.text.toList, f.modified⟩ else none

/-- What reading a file gives. -/
def MemoryFile.read (f : MemoryFile) : Except IoFault String :=
  match f.fault with
  | some reason => .error (.other reason)
  | none => .ok f.text

/-- Files by the components of their paths. -/
structure Memory where
  /-- the files -/
  files : Table (List Component) MemoryFile

namespace Memory

/-- The memory without files. -/
def empty : Memory := ⟨.empty⟩

/-- The file at a path. -/
def file? (m : Memory) (p : Path) : Option MemoryFile :=
  m.files.get? p.components

/-- The memory with a file at a path, in place of any other. -/
def write (m : Memory) (p : Path) (f : MemoryFile) : Memory :=
  ⟨m.files.insert p.components f⟩

/-- The memory without a file at a path. -/
def remove (m : Memory) (p : Path) : Memory :=
  ⟨m.files.erase p.components⟩

theorem file?_write_self (m : Memory) {p q : Path} (f : MemoryFile) (h : q.Same p) :
    (m.write p f).file? q = some f := by
  unfold file? write
  rw [h]
  exact Table.get?_insert_self m.files p.components f

theorem file?_write_of_not_same (m : Memory) {p q : Path} (f : MemoryFile) (h : ¬q.Same p) :
    (m.write p f).file? q = m.file? q :=
  Table.get?_insert_ne m.files f h

theorem file?_remove_self (m : Memory) {p q : Path} (h : q.Same p) :
    (m.remove p).file? q = none := by
  unfold file? remove
  rw [h]
  exact Table.get?_erase_self m.files p.components

theorem file?_remove_of_not_same (m : Memory) {p q : Path} (h : ¬q.Same p) :
    (m.remove p).file? q = m.file? q :=
  Table.get?_erase_ne m.files h

/-- What reading a path gives. The fault of a missing file is its path. -/
def read (m : Memory) (p : Path) : Except IoFault String :=
  match m.file? p with
  | some f => f.read
  | none => .error (.other p.text)

/-- The answers of a memory. -/
def disk (m : Memory) : Disk
  | .isFile p => (m.file? p).isSome
  | .readText p => m.read p
  | .metadata p => (m.file? p).bind MemoryFile.metadata?
  | .present p => (m.file? p).isSome
  | .readBytes p => (m.read p).map encode
  | .outline p => if (m.file? p).isSome then .ok .file else .error (.other p.text)

end Memory

end ModuleLookup
