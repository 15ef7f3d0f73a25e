import ModuleLookup.Disk.Node

/-!
# Disks with directories

A `Tree` holds files in directories below one root, and a working directory in which
relative paths start. A path is walked one step at a time, and every step but the
last has to lead to a directory that is there: `missing/..` leads nowhere.

* `Tree.locate` — the way to the place that a path leads to; `at?_names_of_locate` says
  that the names on it lead there.
* `Tree.disk` — the answers of a tree.
-/

namespace ModuleLookup

/-- The step that a segment asks for. An empty segment, and so a separator at the end,
asks for a directory just as `.` does. -/
def stepOf (segment : List Char) : Component :=
  (Component.ofSegment? segment).getD .current

namespace Path

/-- One step for every segment of a path. -/
def steps (p : Path) : List Component :=
  (segments p.text.toList).map stepOf

end Path

/-- A way from the root: the names on it with what stands there, innermost first. -/
abbrev Way : Type :=
  List (String × Node)

/-- The names on a way, outermost first. -/
def Way.names (way : Way) : List String :=
  (way.map Prod.fst).reverse

/-- Files in directories. -/
structure Tree where
  /-- the directory in which absolute paths start -/
  root : Node
  /-- the names that lead from there to the working directory -/
  cwd : List String
  /-- the number of writes so far -/
  clock : Nat

namespace Tree

/-- The tree with nothing but the directories on the way to its working directory. -/
def empty (cwd : List String) : Tree :=
  ⟨cwd.foldr (fun name n => .directory [(name, n)]) .empty, cwd, 0⟩

/-- Where a way ends. -/
def endOf (t : Tree) : Way → Node
  | [] => t.root
  | (_, n) :: _ => n

/-- One step further on a way. -/
def stepFrom (t : Tree) (way : Way) (c : Component) : Except IoFault Way :=
  match t.endOf way with
  | .file .. | .socket => .error .notDirectory
  | .directory entries =>
    match c with
    | .root => .ok []
    | .current => .ok way
    | .parent => .ok way.tail
    | .name s =>
      if nameLimit < byteLength s.toList then .error .nameTooLong
      else
        match entries.lookup s with
        | some n => .ok ((s, n) :: way)
        | none => .error .notFound

/-- Refuses a text that can be no path. -/
def checkText (p : Path) : Except IoFault Unit := do
  if '\x00' ∈ p.text.toList then throw .nameWithNul
  if p.text = "" then throw .notFound
  if pathLimit < byteLength p.text.toList then throw .nameTooLong

/-- The way that steps lead from where a path starts. -/
def walk (t : Tree) (p : Path) (steps : List Component) : Except IoFault Way :=
  let start := if p.isAbsolute then [] else t.cwd.map .name
  (start ++ steps).foldlM t.stepFrom []

/-- The way to the place that a path leads to. -/
def locate (t : Tree) (p : Path) : Except IoFault Way := do
  checkText p
  t.walk p p.steps

/-- A way on which every name leads from one directory to the next. -/
def Leads (t : Tree) : Way → Prop
  | [] => True
  | (name, n) :: way => (t.endOf way).child? name = some n ∧ t.Leads way

theorem leads_stepFrom {t : Tree} {way next : Way} {c : Component} (h : t.Leads way)
    (hs : t.stepFrom way c = .ok next) : t.Leads next := by
  unfold stepFrom at hs
  split at hs
  · cases hs
  · cases hs
  · next entries he =>
    split at hs
    · cases hs
      trivial
    · cases hs
      exact h
    · cases hs
      cases way with
      | nil => trivial
      | cons e way => exact h.2
    · next s =>
      split at hs
      · cases hs
      · split at hs
        · next n hn =>
          cases hs
          exact ⟨by rw [he, Node.child?, hn], h⟩
        · cases hs

theorem leads_foldlM {t : Tree} {steps : List Component} {way next : Way} (h : t.Leads way)
    (hs : steps.foldlM t.stepFrom way = .ok next) : t.Leads next := by
  induction steps generalizing way with
  | nil =>
    cases hs
    exact h
  | cons c steps ih =>
    rw [List.foldlM_cons] at hs
    cases hc : t.stepFrom way c with
    | error fault =>
      rw [hc] at hs
      cases hs
    | ok w =>
      rw [hc] at hs
      exact ih (leads_stepFrom h hc) hs

/-- The names on a way lead to its end. -/
theorem at?_names {t : Tree} {way : Way} (h : t.Leads way) :
    t.root.at? way.names = some (t.endOf way) := by
  induction way with
  | nil => rfl
  | cons e way ih =>
    rw [Way.names, List.map_cons, List.reverse_cons, Node.at?_concat]
    rw [Way.names] at ih
    rw [ih h.2, Option.bind_some, h.1, endOf]

/-- What stands where a path leads. -/
def node (t : Tree) (p : Path) : Except IoFault Node := do
  return t.endOf (← t.locate p)

/-- What is at a path, when nothing is wrong. -/
def node? (t : Tree) (p : Path) : Option Node :=
  (t.node p).toOption

/-- The answers of a tree. -/
def disk (t : Tree) : Disk
  | .isFile p => (t.node? p).any Node.isFile
  | .readText p => do
    match decode? (← (← t.node p).read) with
    | some text => return text
    | none => throw .notUtf8
  | .metadata p => (t.node? p).map Node.metadata
  | .present p => (t.node? p).isSome
  | .readBytes p => do (← t.node p).read
  | .outline p => (t.node p).map (Node.outline p)

end Tree

end ModuleLookup
