import Restyle.Program

/-!
# The command line tool

The outer layer of the program.  It takes what a run may look at from the disk into a
file tree, runs the program on that tree, and carries out on the disk what the
program did to the tree.  Nothing is decided here.

Only what a run can come across is taken: the way to every path that it is given or
that it looks for, and everything below its inputs and its output, through symbolic
links but not into hidden directories.
-/

namespace Restyle
namespace Tool

/-- What has been taken from the disk. -/
structure Snapshot where
  /-- The tree so far. -/
  tree : FileTree
  /-- The directories that have been taken with all that is below them. -/
  complete : List Location := []

/-- A target that no link can have, for a link that leads nowhere. -/
def nowhere : String := "\x00"

/-- The location of a path without links in it. -/
def locationOf (text : String) : Location := (Path.ofText text).plainSegments

/-- What stands at a location on the disk. -/
def entryOnDisk? (loc : Location) : IO (Option Entry) := do
  let p := (← IO.currentDir) / (Path.ofNames loc).text
  try
    match (← p.symlinkMetadata).type with
    | .dir => return some .directory
    | .file => return some (.file (← IO.FS.readBinFile p))
    | .symlink =>
      try
        return some (.link (← IO.FS.realPath p).toString)
      catch _ => return some (.link nowhere)
    | .other => return none
  catch _ => return none

/-- The names in a directory on the disk. -/
def namesOnDisk (loc : Location) : IO (List String) := do
  let p := (← IO.currentDir) / (Path.ofNames loc).text
  try
    return (← p.readDir).toList.map (·.fileName)
  catch _ => return []

namespace Snapshot

/-- Takes the entry at a location. -/
def takeEntry (s : Snapshot) (loc : Location) : IO Snapshot := do
  if (s.tree.lookup loc).isSome then return s
  match ← entryOnDisk? loc with
  | some e => return { s with tree := s.tree.put loc e }
  | none => return s

/-- Takes the entry at a location and those above it. -/
def takeWay (s : Snapshot) (loc : Location) : IO Snapshot :=
  (List.range loc.length).foldlM (fun s n => s.takeEntry (loc.take (n + 1))) s

/-- Follows a path and takes all that is on the way.  Gives the location to which the
path leads. -/
def takePath (s : Snapshot) (p : Path) : IO (Snapshot × Location) := do
  let mut s := s
  let mut loc := if p.rooted then [] else s.tree.workingDirectory
  for name in p.plainSegments do
    if name == ".." then
      loc := loc.dropLast
    else
      loc := loc ++ [name]
      s ← s.takeEntry loc
      if let some (.link target) := s.tree.lookup loc then
        loc := locationOf target
        s ← s.takeWay loc
  return (s, loc)

/-- Takes all that is below a location, through links. -/
partial def takeBelow (s : Snapshot) (loc : Location) : IO Snapshot := do
  if s.tree.lookup loc != some .directory || s.complete.contains loc then return s
  let mut s := { s with complete := loc :: s.complete }
  for name in ← namesOnDisk loc do
    s ← s.takeEntry (loc ++ [name])
    if !Walk.isHidden name then
      match s.tree.lookup (loc ++ [name]) with
      | some .directory => s ← s.takeBelow (loc ++ [name])
      | some (.link target) =>
        s ← s.takeWay (locationOf target)
        s ← s.takeBelow (locationOf target)
      | _ => pure ()
  return s

end Snapshot

/-- The paths that a run walks through. -/
def walked (a : Arguments) : List Path := a.inputs ++ a.output.toList

/-- The paths at which a run looks alone. -/
def glanced (a : Arguments) (env : Environment) (t : FileTree) : List Path :=
  a.config.toList ++ (a.cache.map Path.ofText).toList ++ (Cache.defaultPath? env).toList
    ++ Settings.candidates t env (Program.searchStart t a.inputs)

/-- Takes what a run may look at. -/
def snapshot (a : Arguments) (env : Environment) : IO FileTree := do
  let here := locationOf (← IO.currentDir).toString
  let mut s ← Snapshot.takeWay { tree := ⟨[], here⟩ } here
  for p in walked a do
    let (s', loc) ← s.takePath p
    s ← s'.takeBelow loc
  for p in glanced a env s.tree do
    s := (← s.takePath p).1
  return s.tree

/-- Carries out on the disk what makes one tree out of another: directories first, the
outer ones before the inner ones. -/
def carryOut (before after : FileTree) : IO Unit := do
  let changed := after.entries.filter fun (loc, e) => before.lookup loc != some e
  for (loc, e) in changed.mergeSort fun a b => a.1.length ≤ b.1.length do
    let p := (Path.ofNames loc).text
    match e with
    | .directory => IO.FS.createDirAll p
    | .file content => IO.FS.writeBinFile p content
    | .link _ => pure ()

/-- All bytes of a stream. -/
partial def readAll (stream : IO.FS.Stream) (soFar : ByteArray) : IO ByteArray := do
  let more ← stream.read 65536
  if more.isEmpty then return soFar else readAll stream (soFar ++ more)

/-- Prints what came of a run. -/
def tell (r : Program.Result) : IO UInt32 := do
  IO.print r.output
  for line in r.report do
    IO.eprintln line
  return r.exitCode.toUInt32

/-- Runs the program on the disk. -/
def run (args : List String) : IO UInt32 := do
  match Arguments.read args with
  | .error _ => tell (Program.run { args := args, tree := ⟨[], []⟩ })
  | .ok a =>
    let stdin ← IO.getStdin
    if a.inputs.isEmpty && (← stdin.isTty) then
      IO.print Program.helpText
      return 0
    let env : Environment :=
      { home := ← IO.getEnv "HOME"
        userProfile := ← IO.getEnv "USERPROFILE"
        cacheHome := ← IO.getEnv "XDG_CACHE_HOME" }
    let input ← if Program.readsInput a.inputs then readAll stdin .empty else pure .empty
    let tree ← snapshot a env
    let r := Program.run { args := args, environment := env, input := input, tree := tree }
    carryOut tree r.tree
    tell r

end Tool
end Restyle

/-- Formats the standard input or files. -/
def main (args : List String) : IO UInt32 := Restyle.Tool.run args
