import ModuleLookup.CommandLine.Run

/-!
# The program

Carries out the run that the arguments ask for on the real file system: asks the
operating system each question of the run, prints what the run printed, and exits
with its code. Nothing is decided here.
-/

namespace ModuleLookup.Main

/-- The fault that the operating system reports. -/
def faultOf : IO.Error → IoFault
  | .noFileOrDirectory .. => .notFound
  | .noSuchThing .. => .notFound
  | .inappropriateType .. => .notDirectory
  | e => .other (toString e)

/-- The result of an action, or the fault that it met. -/
def attempt {α : Type} (action : IO α) : IO (Except IoFault α) := do
  try
    return .ok (← action)
  catch e =>
    return .error (faultOf e)

/-- What is known of a path. -/
def metadataOf (p : Path) : IO (Except IoFault IO.FS.Metadata) := do
  if p.text.isEmpty then return .error .notFound
  else
    let here ← IO.currentDir
    attempt (here / p.text).metadata

/-- Whether there is a file of a kind at a path. -/
def hasKind (p : Path) (kind : IO.FS.FileType) : IO Bool := do
  match ← metadataOf p with
  | .ok m => return m.type == kind
  | .error _ => return false

/-- The bytes of a file. -/
def bytesOf (p : Path) : IO (Except IoFault (List UInt8)) := do
  if p.text.isEmpty then return .error .notFound
  else if ← hasKind p .dir then return .error .isDirectory
  else return (← attempt (IO.FS.readBinFile p.text)).map ByteArray.toList

/-- What is below a path. -/
partial def outlineOf (p : Path) : IO (Except IoFault Outline) := do
  match ← metadataOf p with
  | .error fault => return .error fault
  | .ok m =>
    match m.type with
    | .file => return .ok .file
    | .dir =>
      let here ← IO.currentDir
      match ← attempt (here / p.text).readDir with
      | .error fault => return .ok (.closed fault)
      | .ok found =>
        let mut entries := #[]
        for entry in found do
          match ← outlineOf (p.join ⟨entry.fileName⟩) with
          | .ok o => entries := entries.push (entry.fileName, o)
          | .error _ => entries := entries.push (entry.fileName, .other)
        return .ok (.directory entries.toList)
    | _ => return .ok .other

/-- The user's home. The database of users is not read: a user whose home is not set, or set to
nothing, has none here. -/
def home? : IO (Option String) := do
  return (← IO.getEnv "HOME").filter (!·.isEmpty)

/-- Asks the operating system one question. -/
def answer : (q : Query) → IO q.Answer
  | .isFile p => hasKind p .file
  | .readText p => do
    match ← bytesOf p with
    | .error fault => return .error fault
    | .ok bytes =>
      match decode? bytes with
      | some text => return .ok text
      | none => return .error .notUtf8
  | .metadata p => do
    match ← metadataOf p with
    | .error _ => return none
    | .ok m =>
      return some ⟨m.byteSize.toNat,
        some (m.modified.sec.toNat * 1000 + m.modified.nsec.toNat / 1000000)⟩
  | .present p => do return (← metadataOf p).toOption.isSome
  | .readBytes p => bytesOf p
  | .outline p => outlineOf p

end ModuleLookup.Main

/-- Carries out what the arguments ask for. -/
def main (args : List String) : IO UInt32 := do
  let env : ModuleLookup.Environment :=
    ⟨← IO.getEnv "REQLINK_CONFIG_DIR", ← IO.getEnv "XDG_CONFIG_HOME", ← ModuleLookup.Main.home?⟩
  let around : ModuleLookup.Request.Surroundings :=
    ⟨⟨(← IO.currentDir).toString⟩, ← IO.getEnv "REQLINK_CONFIG"⟩
  let out ← (ModuleLookup.runArguments env around args).perform ModuleLookup.Main.answer
  IO.print out.stdout
  IO.eprint out.stderr
  return out.status.code.toUInt32
