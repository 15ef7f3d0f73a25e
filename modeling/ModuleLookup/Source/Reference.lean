import ModuleLookup.Source.Lexeme

/-!
# References to modules in source text

The string literals that a source file hands to `require`, `import` and
`export … from` are found without parsing the file: one machine reads the lexemes
from left to right and remembers only which form it may be inside of.

* `Stage` — what the machine remembers, `Stage.step` — one lexeme.
* `Stage.run` — the references found from a stage on; `Stage.run_append` cuts a run
  in two.
* `references` — the references of a whole text.

A form that goes wrong is given up at the lexeme that breaks it, and that lexeme is
read again as ordinary code.
-/

namespace ModuleLookup

/-- The form in which a module is referred to. -/
inductive Reference.Kind where
  /-- `require("x")` -/
  | require
  /-- `import a from "x"` -/
  | importFrom
  /-- `import "x"` -/
  | sideEffect
  /-- `import("x")` -/
  | dynamic
  /-- `export { a } from "x"` -/
  | exportFrom
  deriving DecidableEq, Inhabited

/-- The word for a kind in reports. -/
def Reference.Kind.word : Reference.Kind → String
  | require => "require"
  | importFrom => "import"
  | sideEffect => "side_effect_import"
  | dynamic => "dynamic_import"
  | exportFrom => "export_from"

/-- A module specifier found in a source text. -/
structure Reference where
  /-- the text between the quotes, exactly as written -/
  raw : String
  /-- the form it was found in -/
  kind : Reference.Kind
  /-- the line of the opening quote, counted from one in 32 bits -/
  line : UInt32
  /-- the byte offset of the text -/
  start : Nat
  /-- the byte offset of the closing quote -/
  stop : Nat
  deriving DecidableEq

/-- The most bytes of an import or export clause that are searched for `from`. -/
def clauseLimit : Nat := 1000

/-- What is remembered between two lexemes. -/
inductive Stage where
  /-- ordinary code -/
  | code
  /-- behind `require` -/
  | called
  /-- behind the parenthesis of a call -/
  | argument (kind : Reference.Kind)
  /-- behind the literal of a call -/
  | closing (found : Reference)
  /-- behind `import` -/
  | imported
  /-- inside a clause, with the bytes it may still take -/
  | clause (kind : Reference.Kind) (budget : Nat)
  /-- inside a clause, behind `from` -/
  | sought (kind : Reference.Kind) (budget : Nat)
  deriving DecidableEq

namespace Stage

/-- The reference made by the body of a closed literal. -/
def refer (kind : Reference.Kind) (l : Lexeme) (body : List Char) : Reference where
  raw := String.ofList body
  kind := kind
  line := l.place.line
  start := l.place.offset + 1
  stop := l.place.offset + 1 + byteLength body

/-- One lexeme of ordinary code: a keyword opens a form. -/
def enter (l : Lexeme) : Stage :=
  if l.isKeyword "require" then called
  else if l.isKeyword "import" then imported
  else if l.isKeyword "export" then clause .exportFrom clauseLimit
  else code

/-- One lexeme of a clause. A keyword, a literal, `;`, `=` or `(` ends the clause. -/
def inClause (kind : Reference.Kind) (budget : Nat) (l : Lexeme) : Stage :=
  if budget = 0 then enter l
  else
    match l.token with
    | .literal .. => enter l
    | .mark c => if c ∈ [';', '=', '('] then enter l else clause kind (budget - l.size)
    | .word _ =>
      if l.isKeyword "import" || l.isKeyword "export" then enter l
      else if l.isKeyword "from" then sought kind (budget - l.size)
      else clause kind (budget - l.size)
    | _ => clause kind (budget - l.size)

/-- Whether a token is a literal in single or double quotes: templates do not name
modules. -/
def stringBody? : Token → Option (List Char × Bool)
  | .literal q body closed => if q = '\x60' then none else some (body, closed)
  | _ => none

/-- One lexeme: the next stage, and the reference it completes. -/
def step : Stage → Lexeme → Stage × Option Reference
  | code, l => (enter l, none)
  | called, l =>
    if l.isTrivia then (called, none)
    else if l.token = .mark '(' then (argument .require, none)
    else (enter l, none)
  | argument kind, l =>
    if l.isTrivia then (argument kind, none)
    else
      match stringBody? l.token with
      | some (body, true) => (closing (refer kind l body), none)
      | _ => (enter l, none)
  | closing found, l =>
    if l.isTrivia then (closing found, none)
    else if l.token = .mark ')' ∨ l.token = .mark ',' then (code, some found)
    else (enter l, none)
  | imported, l =>
    if l.isTrivia then (imported, none)
    else if l.token = .mark '(' then (argument .dynamic, none)
    else
      match stringBody? l.token with
      | some (body, true) => (code, some (refer .sideEffect l body))
      | some (_, false) => (code, none)
      | none => (inClause .importFrom clauseLimit l, none)
  | clause kind budget, l => (inClause kind budget l, none)
  | sought kind budget, l =>
    if l.isTrivia then (sought kind (budget - l.size), none)
    else
      match stringBody? l.token with
      | some (body, true) => (code, some (refer kind l body))
      | some (_, false) => (code, none)
      | none => (inClause kind budget l, none)

/-- The references completed by a run of lexemes. -/
def run : Stage → List Lexeme → List Reference
  | _, [] => []
  | s, l :: ls => (s.step l).2.toList ++ run (s.step l).1 ls

/-- The stage after a run of lexemes. -/
def atEnd : Stage → List Lexeme → Stage
  | s, [] => s
  | s, l :: ls => atEnd (s.step l).1 ls

theorem run_append (s : Stage) (ls ms : List Lexeme) :
    s.run (ls ++ ms) = s.run ls ++ (s.atEnd ls).run ms := by
  induction ls generalizing s with
  | nil => rfl
  | cons l ls ih => simp [run, atEnd, ih]

end Stage

/-- The references to modules in a source text, in the order in which they stand. -/
def references (source : String) : List Reference :=
  Stage.code.run (lexemes Place.start (tokens source.toList))

end ModuleLookup
