import Restyle.FileTree.Access
import Restyle.Settings.Basic

/-!
# Finding settings files

Settings files are looked for in the home directory and in every directory from
the root of a path down to where the work starts.  Files that are found later are
closer to the work and win.  A file that cannot be applied is left out as a whole.

The directories are those that the path spells.  A relative path is not made
absolute, so the search starts at the working directory and goes no higher.
-/

namespace Restyle

/-- What a run can learn from its environment. -/
structure Environment where
  /-- The home directory. -/
  home : Option String := none
  /-- The home directory under its other name. -/
  userProfile : Option String := none
  /-- The directory for caches. -/
  cacheHome : Option String := none
deriving Repr, DecidableEq

/-- The home directory, by the first name that is set. -/
def Environment.homeDirectory? (e : Environment) : Option Path :=
  (e.home.orElse fun _ => e.userProfile).map Path.ofText

namespace Settings

/-- The name of a settings file. -/
def fileName : String := ".rulefmt.toml"

/-- The settings after the file at a path. -/
def applyFile (s : Settings) (t : FileTree) (p : Path) : Except Objection Settings :=
  match t.readText p with
  | .error e => .error (.unreadable e.message)
  | .ok text => s.applyText text

/-- The settings that one file gives. -/
def ofFile (t : FileTree) (p : Path) : Except Complaint Settings :=
  match ({} : Settings).applyFile t p with
  | .ok s => .ok s
  | .error objection => .error ⟨s!"invalid config file {p.text}", [objection.message]⟩

/-- The directory in which a search starts: a directory itself, the directory of a
file, and the working directory if the path leads to neither. -/
def startDirectory? (t : FileTree) (start : Path) : Option Path :=
  if t.isFile start then start.parent?
  else if t.isDirectory start then some start
  else some (Path.ofNames t.workingDirectory)

/-- The paths at which a settings file may be, in the order in which they
apply. -/
def candidates (t : FileTree) (env : Environment) (start : Path) : List Path :=
  let directories := env.homeDirectory?.toList
    ++ ((startDirectory? t start).map fun d => d.ancestors.reverse).getD []
  directories.map (·.child fileName)

/-- The paths without those that have the components of an earlier one. -/
def distinct (paths : List Path) : List Path :=
  (paths.foldl (fun kept p => if kept.any (·.same p) then kept else p :: kept) []).reverse

/-- The settings files that count for a path, in the order in which they apply. -/
def discover (t : FileTree) (env : Environment) (start : Path) : List Path :=
  distinct ((candidates t env start).filter t.isFile)

/-- The settings after files, each applied as a whole or not at all. -/
def applyFiles (t : FileTree) (s : Settings) (paths : List Path) : Settings :=
  paths.foldl (fun s p => match s.applyFile t p with
    | .ok s => s
    | .error _ => s) s

/-- The settings that are found for a path. -/
def discovered (t : FileTree) (env : Environment) (start : Path) : Settings :=
  applyFiles t {} (discover t env start)

end Settings
end Restyle
