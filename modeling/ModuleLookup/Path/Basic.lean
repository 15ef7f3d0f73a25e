/-!
# Paths

A path is kept as the text it was given; nothing is cleaned up until somebody asks. Paths
that are no text, because a name on them is not UTF-8, are left out.
What a path *means* is its list of components, and every question about a path is
answered through that view:

* `Path.components` — repeated separators, a trailing separator and `.` segments
  vanish, except a leading `.` of a relative path, which is a component of its own.
* `Path.Same` — two paths are the same when their components are.
* `Path.normalize` — one pass over the components with a stack, in which `..`
  removes the name before it.
* `Path.split` and `Path.ofSegments` — the segments of the normal form, and back.
-/

namespace ModuleLookup

/-- One step of a path. -/
inductive Component where
  /-- the root directory, written `/` -/
  | root
  /-- the directory itself, kept only at the front of a relative path -/
  | current
  /-- the enclosing directory, written `..` -/
  | parent
  /-- a plain name -/
  | name (text : String)
  deriving DecidableEq, Inhabited

namespace Component

/-- The component as it is written. -/
def text : Component → String
  | root => "/"
  | current => "."
  | parent => ".."
  | name s => s

/-- The kinds of components in sorting order. -/
def rank : Component → Nat
  | root => 0
  | current => 1
  | parent => 2
  | name _ => 3

/-- Components sort by kind first; names sort by code point. -/
instance : Ord Component where
  compare a b := (compare a.rank b.rank).then (compare a.text b.text)

/-- The component a segment stands for; empty segments and `.` stand for none. -/
def ofSegment? : List Char → Option Component
  | [] => none
  | ['.'] => none
  | ['.', '.'] => some parent
  | s => some (name (String.ofList s))

end Component

/-- The pieces of a text between its separators. There is always at least one. -/
def segments : List Char → List (List Char)
  | [] => [[]]
  | c :: cs =>
    if c = '/' then [] :: segments cs
    else
      match segments cs with
      | [] => [[c]]
      | s :: ss => (c :: s) :: ss

/-- The component at the front of a path, given its first segment and the others. An
empty segment before a separator is the root, and a `.` counts only here. -/
def startComponent? : List Char → List (List Char) → Option Component
  | [], [] => none
  | [], _ :: _ => some .root
  | ['.'], _ => some .current
  | s, _ => Component.ofSegment? s

/-- The components of a text. -/
def componentsOf (cs : List Char) : List Component :=
  match segments cs with
  | [] => []
  | s :: ss => (startComponent? s ss).toList ++ ss.filterMap Component.ofSegment?

/-- A path, as its text. -/
structure Path where
  /-- the text as it was given -/
  text : String
  deriving DecidableEq, Inhabited

namespace Path

/-- The components a path is made of. -/
def components (p : Path) : List Component :=
  componentsOf p.text.toList

/-- Two paths are the same when they have the same components. -/
def Same (p q : Path) : Prop :=
  p.components = q.components

instance (p q : Path) : Decidable (p.Same q) :=
  inferInstanceAs (Decidable (p.components = q.components))

/-- A path is absolute when it starts at the root. -/
def isAbsolute (p : Path) : Bool :=
  p.text.front? == some '/'

/-- `add` as seen from `base`: an absolute path replaces the base, any other is
written behind it, with a separator unless the base is empty or ends in one. -/
def join (base add : Path) : Path :=
  if add.isAbsolute then add
  else
    match base.text.back? with
    | none | some '/' => ⟨base.text ++ add.text⟩
    | some _ => ⟨base.text ++ "/" ++ add.text⟩

/-- The text of the path with `suffix` written directly behind it. -/
def withSuffix (p : Path) (suffix : String) : Path :=
  ⟨p.text ++ suffix⟩

/-- Segments joined one after the other. -/
def ofSegments (parts : List String) : Path :=
  parts.foldl (fun p s => p.join ⟨s⟩) ⟨""⟩

/-- Components written as a path. -/
def ofComponents (cs : List Component) : Path :=
  ofSegments (cs.map Component.text)

/-! ## Normal form -/

/-- Puts one component on a stack, innermost first. A `.` says nothing, a `..`
takes a name away, is lost at the root, and otherwise stays. -/
def push : List Component → Component → List Component
  | stack, .current => stack
  | .name _ :: stack, .parent => stack
  | .root :: stack, .parent => .root :: stack
  | stack, c => c :: stack

/-- The components of the normal form; none when the path is its own start. -/
def normalComponents (p : Path) : List Component :=
  (p.components.foldl push []).reverse

/-- The normal form of a path, which is `.` when nothing is left. -/
def normalize (p : Path) : Path :=
  match p.normalComponents with
  | [] => ⟨"."⟩
  | cs => ofComponents cs

/-- The segments of the normal form, outermost first. -/
def split (p : Path) : List String :=
  p.normalize.components.map Component.text

/-! ## Names -/

/-- The last component, when it is a plain name. -/
def fileName? (p : Path) : Option String :=
  match p.components.getLast? with
  | some (.name s) => some s
  | _ => none

/-- Whether the file name ends with one of the suffixes. -/
def hasSuffix (p : Path) (suffixes : List String) : Bool :=
  match p.fileName? with
  | some s => suffixes.any fun suffix => suffix.toList.isSuffixOf s.toList
  | none => false

/-- What is left of `p` below `root`, when the components of `root` come first. -/
def below? (root p : Path) : Option Path :=
  if root.components.isPrefixOf p.components then
    some (ofComponents (p.components.drop root.components.length))
  else none

/-! ## Order -/

/-- The order of two component lists: the first difference decides, and a list comes
after its prefixes. -/
def compareComponents : List Component → List Component → Ordering
  | [], [] => .eq
  | [], _ :: _ => .lt
  | _ :: _, [] => .gt
  | a :: as, b :: bs => (compare a b).then (compareComponents as bs)

/-- Paths are ordered by their components, so `a/b` comes before `a-b`. -/
def le (p q : Path) : Bool :=
  compareComponents p.components q.components != .gt

end Path

end ModuleLookup
