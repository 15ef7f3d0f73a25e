import ModuleLookup.Lookup.Find
import ModuleLookup.Table

/-!
# Caches of lookups

A `Cache` keeps results of lookups by specifier, requesting directory and context,
each with a stamp of the file that was found. A second table leads from files back to
the keys that found them, so that a file can be forgotten at once.

Paths are told apart by their components here, both in keys and in the second table:
a directory is the same however it is spelled.
-/

namespace ModuleLookup

/-- What a result is kept under. -/
structure CacheKey where
  /-- the specifier -/
  specifier : String
  /-- the components of the requesting directory -/
  start : List Component
  /-- the fingerprint of the context -/
  context : String
  deriving DecidableEq

/-- The key of a lookup. -/
def CacheKey.of (ctx : Context) (spec : String) (start : Path) : CacheKey :=
  ⟨spec, start.components, ctx.fingerprint⟩

/-- What a file was like when it was found. -/
structure Stamp where
  /-- the file, if there is one -/
  path : Option Path
  /-- what was known of it -/
  known : Option Metadata
  deriving DecidableEq

namespace Stamp

/-- The stamp of a result without a file. -/
def blank : Stamp := ⟨none, none⟩

/-- Whether a file is now as it was: of the same size, and of the same age if the age
was known. -/
def agrees (stamped now : Option Metadata) : Bool :=
  match stamped, now with
  | some old, some new =>
    old.size == new.size && (old.modified.isNone || old.modified == new.modified)
  | _, _ => false

/-- Whether the stamped file has not changed. Without a file nothing can have. -/
def isValid (stamp : Stamp) : Program Bool :=
  match stamp.path with
  | none => return true
  | some p => do return agrees stamp.known (← Program.query (.metadata p))

/-- The stamp of a result. -/
def take (resolved : Resolved) : Program Stamp :=
  match resolved.path? with
  | none => return blank
  | some p => do return ⟨some p, ← Program.query (.metadata p)⟩

end Stamp

/-- A result that was kept. -/
structure CacheEntry where
  /-- the result -/
  resolved : Resolved
  /-- the stamp of its file -/
  stamp : Stamp
  deriving DecidableEq

/-- The file of a kept result, by its components. -/
def CacheEntry.location? (e : CacheEntry) : Option (List Component) :=
  e.resolved.path?.map Path.components

/-- Results of lookups, and the way back from files to them. -/
structure Cache where
  /-- the results -/
  entries : Table CacheKey CacheEntry
  /-- for each file the keys of the results that lead to it -/
  index : Table (List Component) (List CacheKey)

namespace Cache

/-- The cache that keeps nothing yet. -/
def empty : Cache := ⟨.empty, .empty⟩

/-- The result kept under a key. -/
def get? (c : Cache) (k : CacheKey) : Option CacheEntry :=
  c.entries.get? k

/-- The number of results. -/
def size (c : Cache) : Nat :=
  c.entries.size

/-- The way back without one key of a file; files without keys are dropped. -/
def unlink (index : Table (List Component) (List CacheKey)) (k : CacheKey)
    (location : List Component) : Table (List Component) (List CacheKey) :=
  match index.get? location with
  | none => index
  | some keys =>
    if keys.erase k = [] then index.erase location else index.insert location (keys.erase k)

/-- The way back with one more key of a file. -/
def link (index : Table (List Component) (List CacheKey)) (k : CacheKey)
    (location : List Component) : Table (List Component) (List CacheKey) :=
  index.insert location (((index.get? location).getD []).insert k)

/-- Keeps a result, in place of any other under its key. -/
def insert (c : Cache) (k : CacheKey) (e : CacheEntry) : Cache :=
  let old := (c.get? k).bind CacheEntry.location?
  let new := e.location?
  let unlinked :=
    match old with
    | some location => if new = some location then c.index else unlink c.index k location
    | none => c.index
  { entries := c.entries.insert k e
    index := match new with
      | some location => link unlinked k location
      | none => unlinked }

/-- The keys that lead to a file. -/
def keysOf (c : Cache) (p : Path) : List CacheKey :=
  (c.index.get? p.components).getD []

/-- Forgets every result that leads to a file. -/
def invalidate (c : Cache) (p : Path) : Cache where
  entries := (c.keysOf p).foldl Table.erase c.entries
  index := c.index.erase p.components

theorem get?_insert (c : Cache) (k l : CacheKey) (e : CacheEntry) :
    (c.insert k e).get? l = if l = k then some e else c.get? l :=
  Table.get?_insert c.entries k l e

theorem get?_invalidate (c : Cache) (p : Path) (k : CacheKey) :
    (c.invalidate p).get? k = if k ∈ c.keysOf p then none else c.get? k :=
  Table.get?_foldl_erase c.entries (c.keysOf p) k

end Cache

/-- A lookup through a cache, or through none. A kept result is given back when its
file has not changed; otherwise the lookup is made and its result kept. A broken
manifest is not a result. -/
def findCached (ctx : Context) (cache : Option Cache) (spec : String) (start : Path) :
    Program (Except ManifestFault Resolved × Option Cache) := do
  let k := CacheKey.of ctx spec start
  let kept : Option CacheEntry ← match cache.bind (Cache.get? · k) with
    | some e => do
      if ← e.stamp.isValid then pure (some e) else pure none
    | none => pure none
  match kept with
  | some e => return (.ok e.resolved, cache)
  | none =>
    match ← find ctx spec start with
    | .error fault => return (.error fault, cache)
    | .ok resolved =>
      let stamp ← Stamp.take resolved
      return (.ok resolved, cache.map (Cache.insert · k ⟨resolved, stamp⟩))

end ModuleLookup
