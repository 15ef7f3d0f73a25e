import ModuleLookup.Error

/-!
# Questions to a file system

Everything this library wants to know about files is one of a few questions. A
`Disk` is an answer to each of them; it does not change while it is being asked.
-/

namespace ModuleLookup

/-- What is known of a file without reading it. -/
structure Metadata where
  /-- its size in bytes -/
  size : Nat
  /-- when it was last changed, if that is known -/
  modified : Option Nat
  deriving DecidableEq

/-- What stands in a directory, or in its place. -/
inductive Outline where
  /-- a regular file -/
  | file
  /-- a directory and what it holds, by name -/
  | directory (entries : List (String × Outline))
  /-- a directory whose entries cannot be listed, and why -/
  | closed (fault : IoFault)
  /-- anything else -/
  | other
  deriving Inhabited

/-- A question about a path. -/
inductive Query where
  /-- is there a regular file? -/
  | isFile (p : Path)
  /-- what is its text? -/
  | readText (p : Path)
  /-- what are its size and age? -/
  | metadata (p : Path)
  /-- is there anything? -/
  | present (p : Path)
  /-- what are its bytes? -/
  | readBytes (p : Path)
  /-- what is below it? -/
  | outline (p : Path)
  deriving DecidableEq

/-- The answers to a question. -/
abbrev Query.Answer : Query → Type
  | isFile _ => Bool
  | readText _ => Except IoFault String
  | metadata _ => Option Metadata
  | present _ => Bool
  | readBytes _ => Except IoFault (List UInt8)
  | outline _ => Except IoFault Outline

/-- A file system, as its answers. -/
abbrev Disk : Type :=
  (q : Query) → q.Answer

end ModuleLookup
